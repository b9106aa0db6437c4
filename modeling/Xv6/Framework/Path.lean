import Mathlib.Data.List.Basic

/-!
# Singly linked lists

`Path next l z` says that the links lead through the nodes of `l`, in this order, to `z`; a circular
list is a path back to its first node, which can be walked from any of its nodes on (`Path.rotate`).
`search` is the loop that follows the links until it finds a node, and it finds one on the way if
there is one (`Path.search`).
-/

namespace Xv6

open List

variable {α : Type} {next next' : α → α} {a x z : α} {l l₁ l₂ : List α}

def Path (next : α → α) : List α → α → Prop
  | [], _ => True
  | a :: l, z => next a = l.headD z ∧ Path next l z

theorem path_append : Path next (l₁ ++ l₂) z ↔ Path next l₁ (l₂.headD z) ∧ Path next l₂ z := by
  induction l₁ with
  | nil => simp [Path]
  | cons b l₁ ih =>
    rw [cons_append, Path, Path, ih, and_assoc]
    cases l₁ <;> rfl

theorem Path.congr (h : Path next l z) (he : ∀ y ∈ l, next' y = next y) : Path next' l z := by
  induction l with
  | nil => exact trivial
  | cons b l ih =>
    exact ⟨(he b mem_cons_self).trans h.1, ih h.2 fun y hy => he y (mem_cons_of_mem b hy)⟩

/-- A circular list from another of its nodes on. -/
theorem Path.rotate (h : Path next l a) (he : l = l₁ ++ x :: l₂) (ha : l.headD a = a) : Path next (x :: l₂ ++ l₁) x := by
  subst he
  obtain ⟨h₁, h₂⟩ := path_append.1 h
  refine path_append.2 ⟨?_, h₁⟩
  cases l₁ with
  | nil => exact ha ▸ h₂
  | cons b l₁ =>
    have hb : b = a := ha
    exact hb ▸ h₂

/-- The node after `x`. -/
theorem Path.next_eq (h : Path next (l₁ ++ x :: l₂) z) : next x = l₂.headD z :=
  (path_append.1 h).2.1

/-- `for(p = a; !stop(p); p = p->next)`, as long as there is fuel. -/
def search (next : α → α) (stop : α → Bool) : Nat → α → Option α
  | 0, _ => none
  | n + 1, p => if stop p then some p else search next stop n (next p)

theorem Path.search {stop : α → Bool} {n : Nat} (h : Path next (a :: l) z) (hs : ∃ y ∈ a :: l, stop y = true)
    (hn : l.length < n) : ∃ y ∈ a :: l, stop y = true ∧ Xv6.search next stop n a = some y := by
  induction l generalizing a n with
  | nil =>
    obtain ⟨n, rfl⟩ : ∃ m, n = m + 1 := ⟨n - 1, by rw [length_nil] at hn; omega⟩
    obtain ⟨y, hy, hst⟩ := hs
    rw [mem_singleton] at hy
    subst hy
    exact ⟨y, mem_cons_self, hst, if_pos hst⟩
  | cons b l ih =>
    rw [length_cons] at hn
    obtain ⟨n, rfl⟩ : ∃ m, n = m + 1 := ⟨n - 1, by omega⟩
    rw [Xv6.search]
    split
    · rename_i hst
      exact ⟨a, mem_cons_self, hst, rfl⟩
    · rename_i hst
      have hs' : ∃ y ∈ b :: l, stop y = true := by
        obtain ⟨y, hy, hy'⟩ := hs
        rcases mem_cons.1 hy with rfl | hy
        · exact absurd hy' hst
        · exact ⟨y, hy, hy'⟩
      obtain ⟨y, hy, hst', e⟩ := ih h.2 hs' (by omega : l.length < n)
      have hb : next a = b := h.1
      rw [hb]
      exact ⟨y, mem_cons_of_mem a hy, hst', e⟩

theorem search_mono {stop : α → Bool} {n m : Nat} {y : α} (h : search next stop n a = some y) (hm : n ≤ m) :
    search next stop m a = some y := by
  induction n generalizing a m with
  | zero => cases h
  | succ n ih =>
    obtain ⟨m, rfl⟩ : ∃ k, m = k + 1 := ⟨m - 1, by omega⟩
    rw [search] at h ⊢
    split at h
    · rename_i hst
      rw [if_pos hst]
      exact h
    · rename_i hst
      rw [if_neg hst]
      exact ih h (by omega)

end Xv6
