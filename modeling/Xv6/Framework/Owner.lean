import Mathlib.Logic.Function.Basic

/-!
# Ownership of numbered units

Units of a range `[lo, hi)`, such as disk blocks, are handed out to slots, each of
which holds one unit or `0`. `Owned` says that the slots hold units of the range,
no two the same one, and that exactly the units held are marked as used.
-/

namespace Xv6

open Function

variable {S : Type}

structure Owned (addr : S → Nat) (used : Nat → Bool) (lo hi : Nat) : Prop where
  pos : 0 < lo
  range : ∀ x, addr x ≠ 0 → lo ≤ addr x ∧ addr x < hi
  marked : ∀ x, addr x ≠ 0 → used (addr x) = true
  inj : ∀ x y, addr x ≠ 0 → addr x = addr y → x = y
  only : ∀ b, lo ≤ b → b < hi → used b = true → ∃ x, addr x = b

variable {addr : S → Nat} {used : Nat → Bool} {lo hi : Nat}

/-- A unit that is not marked is held by no slot. -/
theorem Owned.ne_of_free (h : Owned addr used lo hi) {b : Nat} (hb : used b = false) (hlo : lo ≤ b)
    (x : S) : addr x ≠ b := by
  rintro rfl
  have hm := h.marked x (by have := h.pos; omega)
  rw [hb] at hm
  cases hm

variable [DecidableEq S]

theorem update_cases (f : S → Nat) (x : S) (v : Nat) (y : S) :
    y = x ∧ update f x v y = v ∨ y ≠ x ∧ update f x v y = f y := by
  by_cases e : y = x
  · exact .inl ⟨e, by rw [e, update_self]⟩
  · exact .inr ⟨e, update_of_ne e ..⟩

/-- Handing a free unit out to an empty slot. -/
theorem Owned.alloc (h : Owned addr used lo hi) {x : S} {b : Nat} (hx : addr x = 0)
    (hb : used b = false) (hlo : lo ≤ b) (hhi : b < hi) : Owned (update addr x b) (update used b true) lo hi := by
  have hne := h.ne_of_free hb hlo
  have hpos := h.pos
  have hcase := update_cases addr x b
  refine ⟨hpos, fun y hy => ?_, fun y hy => ?_, fun y z hy hyz => ?_, fun c hlo' hhi' hc => ?_⟩
  · rcases hcase y with ⟨-, e⟩ | ⟨-, e⟩ <;> rw [e] at hy ⊢
    · exact ⟨hlo, hhi⟩
    · exact h.range y hy
  · rcases hcase y with ⟨-, e⟩ | ⟨-, e⟩ <;> rw [e] at hy ⊢
    · exact update_self ..
    · rw [update_of_ne (hne y)]
      exact h.marked y hy
  · rcases hcase y with ⟨ey, e⟩ | ⟨ey, e⟩ <;> rcases hcase z with ⟨ez, e'⟩ | ⟨ez, e'⟩ <;>
      rw [e, e'] at hyz
    · rw [ey, ez]
    · exact absurd hyz.symm (hne z)
    · exact absurd hyz (hne y)
    · exact h.inj y z (by rwa [e] at hy) hyz
  · by_cases e : c = b
    · exact ⟨x, by rw [e, update_self]⟩
    · rw [update_of_ne e] at hc
      obtain ⟨y, hy⟩ := h.only c hlo' hhi' hc
      rcases hcase y with ⟨ey, -⟩ | ⟨-, e'⟩
      · rw [ey, hx] at hy
        omega
      · exact ⟨y, e'.trans hy⟩

/-- Taking the unit of a slot back. -/
theorem Owned.free (h : Owned addr used lo hi) (x : S) : Owned (update addr x 0) (update used (addr x) false) lo hi := by
  have hpos := h.pos
  have hcase := update_cases addr x 0
  refine ⟨hpos, fun y hy => ?_, fun y hy => ?_, fun y z hy hyz => ?_, fun c hlo' hhi' hc => ?_⟩
  · rcases hcase y with ⟨-, e⟩ | ⟨-, e⟩ <;> rw [e] at hy ⊢
    · exact absurd rfl hy
    · exact h.range y hy
  · rcases hcase y with ⟨-, e⟩ | ⟨ey, e⟩ <;> rw [e] at hy ⊢
    · exact absurd rfl hy
    · rw [update_of_ne fun e' => ey (h.inj y x hy e')]
      exact h.marked y hy
  · rcases hcase y with ⟨ey, e⟩ | ⟨ey, e⟩ <;> rcases hcase z with ⟨ez, e'⟩ | ⟨ez, e'⟩ <;>
      rw [e, e'] at hyz <;> rw [e] at hy
    · exact absurd rfl hy
    · exact absurd rfl hy
    · exact absurd hyz hy
    · exact h.inj y z hy hyz
  · by_cases e : c = addr x
    · rw [e, update_self] at hc
      cases hc
    · rw [update_of_ne e] at hc
      obtain ⟨y, hy⟩ := h.only c hlo' hhi' hc
      rcases hcase y with ⟨ey, -⟩ | ⟨-, e'⟩
      · rw [ey] at hy
        exact absurd hy.symm e
      · exact ⟨y, e'.trans hy⟩

end Xv6
