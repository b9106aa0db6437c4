import Mathlib.Logic.Function.Basic

/-!
# Maps in slots

A finite map kept in slots, each of which holds a key with its value or nothing. `Stores slot m` says
that the slots hold the map `m`, every key in one slot; a pair goes into an empty slot if its key is
new (`Stores.insert`), and leaves with its slot (`Stores.erase`).
-/

namespace Xv6

open Function

variable {ι K V : Type} {slot : ι → Option (K × V)} {m : K → Option V}
  {i : ι} {k : K} {v : V}

structure Stores (slot : ι → Option (K × V)) (m : K → Option V) : Prop where
  inj : ∀ {i j : ι} {k : K} {v w : V}, slot i = some (k, v) → slot j = some (k, w) → i = j
  eq_some : ∀ k v, m k = some v ↔ ∃ i, slot i = some (k, v)

theorem Stores.eq_none (h : Stores slot m) : m k = none ↔ ∀ i v, slot i ≠ some (k, v) := by
  rw [Option.eq_none_iff_forall_ne_some]
  constructor
  · exact fun hn i v hi => hn v ((h.eq_some k v).2 ⟨i, hi⟩)
  · rintro hn v hv
    obtain ⟨i, hi⟩ := (h.eq_some k v).1 hv
    exact hn i v hi

variable [DecidableEq ι] [DecidableEq K]

theorem Stores.insert (h : Stores slot m) (hi : slot i = none) (hk : m k = none) :
    Stores (update slot i (some (k, v))) (update m k (some v)) := by
  have hnew := h.eq_none.1 hk
  constructor
  · intro a b k' v' w' ha hb
    rw [update_apply] at ha hb
    split at ha
    · rename_i hai
      obtain ⟨rfl, rfl⟩ := Prod.mk.inj (Option.some.inj ha)
      split at hb
      · rename_i hbi
        rw [hai, hbi]
      · exact absurd hb (hnew b w')
    · split at hb
      · obtain ⟨rfl, rfl⟩ := Prod.mk.inj (Option.some.inj hb)
        exact absurd ha (hnew a v')
      · exact h.inj ha hb
  · intro k' v'
    rw [update_apply]
    split
    · rename_i hk'
      subst hk'
      constructor
      · rintro ⟨⟩
        exact ⟨i, update_self ..⟩
      · rintro ⟨a, ha⟩
        rw [update_apply] at ha
        split at ha
        · exact congrArg some (Prod.mk.inj (Option.some.inj ha)).2
        · exact absurd ha (hnew a v')
    · rename_i hk'
      rw [h.eq_some]
      refine exists_congr fun a => ?_
      rw [update_apply]
      split
      · rename_i hai
        rw [hai, hi]
        simp [Ne.symm hk']
      · rfl

theorem Stores.erase (h : Stores slot m) (hi : slot i = some (k, v)) : Stores (update slot i none) (update m k none) := by
  have hold : ∀ {a k' v'}, update slot i none a = some (k', v') → a ≠ i ∧ slot a = some (k', v') := by
    intro a k' v' ha
    rw [update_apply] at ha
    split at ha
    · cases ha
    · exact ⟨‹_›, ha⟩
  constructor
  · exact fun ha hb => h.inj (hold ha).2 (hold hb).2
  · intro k' v'
    rw [update_apply]
    split
    · rename_i hk'
      subst hk'
      refine ⟨nofun, ?_⟩
      rintro ⟨a, ha⟩
      exact absurd (h.inj (hold ha).2 hi) (hold ha).1
    · rename_i hk'
      rw [h.eq_some]
      constructor
      · rintro ⟨a, ha⟩
        refine ⟨a, (update_of_ne ?_ ..).trans ha⟩
        rintro rfl
        rw [hi] at ha
        exact hk' (Prod.mk.inj (Option.some.inj ha)).1.symm
      · rintro ⟨a, ha⟩
        exact ⟨a, (hold ha).2⟩

end Xv6
