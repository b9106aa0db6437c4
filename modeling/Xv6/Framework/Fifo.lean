import Mathlib.Data.List.Infix

/-!
# Ring buffers

A buffer of `N` cells through which values pass in order: the value number `k` is in the cell
`k % N` from when it is accepted until it is delivered. `Fifo N data acc del` says so for the lists
`acc` and `del` of what was accepted and delivered so far; `Fifo.push` and `Fifo.pop` are the two
operations. `Window N data i l` says the same of what is in the buffer now, the list `l` from the
index `i` on, where values may also be taken back at the end.
-/

namespace Xv6

open Function List

structure Fifo {β : Type} (N : Nat) (data : Nat → β) (acc del : List β) : Prop where
  pre : del <+: acc
  room : acc.length ≤ del.length + N
  cell : ∀ k, del.length ≤ k → k < acc.length → acc[k]? = some (data (k % N))

variable {β : Type} {N : Nat} {data : Nat → β} {acc del : List β} {b : β}

theorem fifo_nil (data : Nat → β) : Fifo N data [] [] :=
  ⟨prefix_refl [], Nat.zero_le _, fun _ _ h => absurd h (Nat.not_lt_zero _)⟩

/-- Two of the values in the buffer are in different cells. -/
theorem mod_ne_of_lt {i j : Nat} (hij : i < j) (hN : j < i + N) : i % N ≠ j % N := by
  intro h
  have hd : N ∣ j - i := Nat.dvd_of_mod_eq_zero (Nat.sub_mod_eq_zero_of_mod_eq h.symm)
  have := Nat.le_of_dvd (by omega) hd
  omega

theorem Fifo.push (hf : Fifo N data acc del) (hroom : acc.length < del.length + N) :
    Fifo N (update data (acc.length % N) b) (acc ++ [b]) del := by
  refine ⟨hf.pre.trans (prefix_append acc [b]), ?_, fun k hk hlt => ?_⟩
  · rw [length_append, length_singleton]
    omega
  rw [length_append, length_singleton] at hlt
  rcases Nat.lt_succ_iff_lt_or_eq.1 hlt with hlt | rfl
  · rw [getElem?_append_left hlt, hf.cell k hk hlt, update_of_ne]
    exact mod_ne_of_lt hlt (by omega)
  · rw [getElem?_concat_length, update_self]

theorem Fifo.pop (hf : Fifo N data acc del) (hlt : del.length < acc.length) :
    Fifo N data acc (del ++ [data (del.length % N)]) := by
  have hcell := hf.cell del.length le_rfl hlt
  refine ⟨?_, ?_, fun k hk => hf.cell k ?_⟩
  · obtain ⟨rest, rfl⟩ := hf.pre
    rw [getElem?_append_right le_rfl, Nat.sub_self] at hcell
    obtain ⟨b, rest, rfl⟩ := exists_cons_of_ne_nil (l := rest) (by rintro rfl; cases hcell)
    rw [← Option.some.inj hcell]
    exact ⟨rest, by simp⟩
  · have := hf.room
    rw [length_append]
    omega
  · rw [length_append] at hk
    omega

/-! ## What is in the buffer now -/

structure Window {β : Type} (N : Nat) (data : Nat → β) (i : Nat) (l : List β) : Prop where
  room : l.length ≤ N
  cell : ∀ k, k < l.length → l[k]? = some (data ((i + k) % N))

variable {i j : Nat} {l : List β}

theorem window_nil (data : Nat → β) (i : Nat) : Window N data i [] :=
  ⟨Nat.zero_le _, fun _ h => absurd h (Nat.not_lt_zero _)⟩

/-- Only the cell that the index leads to counts. -/
theorem Window.congr (hw : Window N data i l) (h : i % N = j % N) : Window N data j l :=
  ⟨hw.room, fun k hk => by rw [hw.cell k hk, Nat.add_mod, h, ← Nat.add_mod]⟩

theorem Window.push (hw : Window N data i l) (hroom : l.length < N) :
    Window N (update data ((i + l.length) % N) b) i (l ++ [b]) := by
  refine ⟨by rw [length_append]; exact hroom, fun k hk => ?_⟩
  rw [length_append, length_singleton] at hk
  rcases Nat.lt_succ_iff_lt_or_eq.1 hk with hk | rfl
  · rw [getElem?_append_left hk, hw.cell k hk, update_of_ne]
    exact mod_ne_of_lt (by omega) (by omega)
  · rw [getElem?_concat_length, update_self]

theorem Window.head (hw : Window N data i (b :: l)) : data (i % N) = b :=
  (Option.some.inj (hw.cell 0 (Nat.succ_pos _))).symm

theorem Window.tail (hw : Window N data i (b :: l)) : Window N data (i + 1) l := by
  refine ⟨(Nat.le_succ _).trans hw.room, fun k hk => ?_⟩
  have hc := hw.cell (k + 1) (Nat.succ_lt_succ hk)
  rw [getElem?_cons_succ] at hc
  rw [hc, Nat.add_assoc, Nat.add_comm 1 k]

theorem Window.last (hw : Window N data i (l ++ [b])) : data ((i + l.length) % N) = b := by
  have hc := hw.cell l.length (by simp)
  rw [getElem?_concat_length] at hc
  exact (Option.some.inj hc).symm

theorem Window.left {m : List β} (hw : Window N data i (l ++ m)) : Window N data i l := by
  have hlen : (l ++ m).length = l.length + m.length := length_append
  refine ⟨by have := hw.room; omega, fun k hk => ?_⟩
  rw [← hw.cell k (by omega), getElem?_append_left hk]

end Xv6
