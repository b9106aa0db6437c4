import Mathlib.Data.List.Nodup

/-!
# Spinlocks

A table of locks, each free or with an owner, and for every owner the list of the locks it has:
`Spin lock held` says that the two agree.
-/

namespace Xv6

open Function

structure Spin {κ ι : Type} (lock : κ → Option ι) (held : ι → List κ) : Prop where
  mem : ∀ k c, lock k = some c ↔ k ∈ held c
  nodup : ∀ c, (held c).Nodup

variable {κ ι : Type} {lock : κ → Option ι} {held : ι → List κ} {k : κ} {c d : ι}

theorem Spin.exclusive (h : Spin lock held) (hc : k ∈ held c) (hd : k ∈ held d) : c = d := by
  rw [← h.mem] at hc hd
  rw [hc] at hd
  exact Option.some.inj hd

theorem Spin.notMem_of_free (h : Spin lock held) (hk : lock k = none) (c : ι) : k ∉ held c := by
  rw [← h.mem, hk]
  exact (Option.some_ne_none c).symm

variable [DecidableEq κ] [DecidableEq ι]

theorem Spin.acquire (h : Spin lock held) (hk : lock k = none) :
    Spin (update lock k (some c)) (update held c (k :: held c)) := by
  refine ⟨fun j d => ?_, ?_⟩
  · by_cases hd : d = c
    · rw [hd, update_self, List.mem_cons]
      by_cases hj : j = k
      · rw [hj, update_self]
        exact iff_of_true rfl (.inl rfl)
      · rw [update_of_ne hj, h.mem]
        exact (or_iff_right hj).symm
    · rw [update_of_ne hd]
      by_cases hj : j = k
      · rw [hj, update_self]
        refine iff_of_false (fun e => hd (Option.some.inj e).symm) (h.notMem_of_free hk d)
      · rw [update_of_ne hj, h.mem]
  · exact (forall_update_iff held fun _ l => l.Nodup).2
      ⟨List.nodup_cons.2 ⟨h.notMem_of_free hk c, h.nodup c⟩, fun d _ => h.nodup d⟩

theorem Spin.release (h : Spin lock held) (hk : lock k = some c) :
    Spin (update lock k none) (update held c ((held c).erase k)) := by
  refine ⟨fun j d => ?_, ?_⟩
  · by_cases hj : j = k
    · rw [hj, update_self]
      refine iff_of_false (Option.some_ne_none d).symm ?_
      by_cases hd : d = c
      · rw [hd, update_self]
        exact (h.nodup c).not_mem_erase
      · rw [update_of_ne hd]
        exact fun hm => hd (h.exclusive hm ((h.mem k c).1 hk))
    · rw [update_of_ne hj, h.mem]
      by_cases hd : d = c
      · rw [hd, update_self, List.mem_erase_of_ne hj]
      · rw [update_of_ne hd]
  · exact (forall_update_iff held fun _ l => l.Nodup).2 ⟨(h.nodup c).erase k, fun d _ => h.nodup d⟩

end Xv6
