import Mathlib.Data.List.Basic

/-!
# Stores and lists of writes

A store is a function from addresses to values. `applyWrites` performs a list
of writes in order. A write is seen at an address only if it is the last one
there (`applyWrites_absorb`), and writes elsewhere are not seen
(`applyWrites_of_notMem`). `EveryPrefix` is about a machine that may stop
after any prefix of its steps: it holds of a run in parts
(`EveryPrefix.append`), and of what every single step keeps
(`EveryPrefix.of_step`).
-/

namespace Xv6

open Function List

variable {α β : Type} [DecidableEq α]

/-- The store after a list of writes. -/
def applyWrites (d : α → β) (ws : List (α × β)) : α → β :=
  ws.foldl (fun d w => update d w.1 w.2) d

@[simp] theorem applyWrites_nil (d : α → β) : applyWrites d [] = d := rfl

@[simp] theorem applyWrites_cons (d : α → β) (w : α × β) (ws : List (α × β)) :
    applyWrites d (w :: ws) = applyWrites (update d w.1 w.2) ws := rfl

theorem applyWrites_append (d : α → β) (us ws : List (α × β)) :
    applyWrites d (us ++ ws) = applyWrites (applyWrites d us) ws := by
  simp only [applyWrites, foldl_append]

variable {d d' : α → β} {ws : List (α × β)} {a : α}

/-- An address that is not written keeps its value. -/
theorem applyWrites_of_notMem (h : a ∉ ws.map Prod.fst) : applyWrites d ws a = d a := by
  induction ws generalizing d with
  | nil => rfl
  | cons w ws ih =>
    simp only [map_cons, mem_cons, not_or] at h
    rw [applyWrites_cons, ih h.2, update_of_ne h.1]

/-- The value of a written address does not depend on the store before. -/
theorem applyWrites_of_mem (h : a ∈ ws.map Prod.fst) : applyWrites d ws a = applyWrites d' ws a := by
  induction ws generalizing d d' with
  | nil => simp at h
  | cons w ws ih =>
    rw [applyWrites_cons, applyWrites_cons]
    by_cases hm : a ∈ ws.map Prod.fst
    · exact ih hm
    · have e : a = w.1 := by simpa [map_cons, hm] using h
      rw [applyWrites_of_notMem hm, applyWrites_of_notMem hm, e, update_self, update_self]

/-- Writes to addresses that are written again afterwards are not seen. -/
theorem applyWrites_absorb (h : ∀ a, a ∉ ws.map Prod.fst → d' a = d a) : applyWrites d' ws = applyWrites d ws := by
  funext a
  by_cases hm : a ∈ ws.map Prod.fst
  · exact applyWrites_of_mem hm
  · rw [applyWrites_of_notMem hm, applyWrites_of_notMem hm, h a hm]

/-- The value written, when each address is written once. -/
theorem applyWrites_of_nodup (hn : (ws.map Prod.fst).Nodup) {v : β} (h : (a, v) ∈ ws) : applyWrites d ws a = v := by
  induction ws generalizing d with
  | nil => simp at h
  | cons w ws ih =>
    rw [map_cons, nodup_cons] at hn
    rw [applyWrites_cons]
    rcases mem_cons.mp h with rfl | h
    · rw [applyWrites_of_notMem hn.1, update_self]
    · exact ih hn.2 h

/-- Stores that agree at an address agree there after the same writes. -/
theorem applyWrites_congr (ws : List (α × β)) (h : d a = d' a) : applyWrites d ws a = applyWrites d' ws a := by
  by_cases hm : a ∈ ws.map Prod.fst
  · exact applyWrites_of_mem hm
  · rw [applyWrites_of_notMem hm, applyWrites_of_notMem hm, h]

/-! ## Prefixes of a run -/

section Prefixes

variable {σ ω : Type} (f : σ → ω → σ)

/-- `G` holds of every state that a run of `ws` from `s` passes through. -/
def EveryPrefix (G : σ → Prop) (s : σ) (ws : List ω) : Prop := ∀ k, G ((ws.take k).foldl f s)

variable {f} {G : σ → Prop} {s : σ} {us vs : List ω}

theorem EveryPrefix.append (h₁ : EveryPrefix f G s us)
    (h₂ : EveryPrefix f G (us.foldl f s) vs) : EveryPrefix f G s (us ++ vs) := by
  intro k
  rw [take_append, foldl_append]
  rcases Nat.le_total us.length k with h | h
  · rw [take_of_length_le h]; exact h₂ _
  · rw [Nat.sub_eq_zero_of_le h]; simpa using h₁ k

theorem EveryPrefix.single {w : ω} (h₁ : G s) (h₂ : G (f s w)) : EveryPrefix f G s [w] := by
  intro k
  cases k with
  | zero => simpa using h₁
  | succ k => simpa using h₂

/-- What every single step keeps holds all along the run. -/
theorem EveryPrefix.of_step (h₀ : G s) (hw : ∀ w ∈ us, ∀ s, G s → G (f s w)) : EveryPrefix f G s us := by
  intro k
  induction us generalizing s k with
  | nil => simpa using h₀
  | cons w ws ih =>
    cases k with
    | zero => simpa using h₀
    | succ k =>
      rw [take_succ_cons, foldl_cons]
      exact ih (hw w mem_cons_self s h₀) (fun w' h' => hw w' (mem_cons_of_mem _ h')) k

theorem EveryPrefix.mono {H : σ → Prop} (h : EveryPrefix f G s us) (hi : ∀ s, G s → H s) :
    EveryPrefix f H s us := fun k => hi _ (h k)

theorem EveryPrefix.last (h : EveryPrefix f G s us) : G (us.foldl f s) := by
  simpa using h us.length

end Prefixes

end Xv6
