import Mathlib.Logic.Relation

/-!
# Runs of a machine with events

A machine takes a step on an action, or refuses it, and a step emits events.
`Exec step C s₀ es s` says that a run from `s₀`, all of whose steps meet the
condition `C`, emits the events `es` and ends in `s`. `Exec.invariant` is the
induction over a run; `exec_of_run` turns a list of actions that the machine
accepts into a run.
-/

namespace Xv6

variable {σ α ε : Type}

inductive Exec (step : σ → α → Option (σ × List ε)) (C : σ → α → Prop) (s₀ : σ) :
    List ε → σ → Prop
  | refl : Exec step C s₀ [] s₀
  | step {es es' : List ε} {s s' : σ} {a : α} : Exec step C s₀ es s → C s a →
      step s a = some (s', es') → Exec step C s₀ (es ++ es') s'

/-- Every step is allowed. -/
abbrev Any : σ → α → Prop := fun _ _ => True

variable {step : σ → α → Option (σ × List ε)} {C : σ → α → Prop} {s₀ : σ}

variable {es : List ε} {s : σ}

/-- What holds at the start and is kept by every step holds along the run. -/
theorem Exec.invariant {I : List ε → σ → Prop} (h₀ : I [] s₀)
    (hs : ∀ {es es' s s' a}, I es s → C s a → step s a = some (s', es') → I (es ++ es') s') (h : Exec step C s₀ es s) :
    I es s := by
  induction h with
  | refl => exact h₀
  | step _ hc hst ih => exact hs ih hc hst

theorem Exec.trans {es' : List ε} {s' : σ} (h : Exec step C s₀ es s) (h' : Exec step C s es' s') :
    Exec step C s₀ (es ++ es') s' := by
  induction h' with
  | refl => rwa [List.append_nil]
  | step _ hc hst ih => rw [← List.append_assoc]; exact ih.step hc hst

theorem Exec.mono {D : σ → α → Prop} (hd : ∀ s a, C s a → D s a) (h : Exec step C s₀ es s) : Exec step D s₀ es s := by
  induction h with
  | refl => exact .refl
  | step _ hc hst ih => exact ih.step (hd _ _ hc) hst

/-- Every event of `es` is as `P` says, given the events before it. -/
def Along (P : List ε → ε → Prop) (es : List ε) : Prop :=
  ∀ pre e post, es = pre ++ e :: post → P pre e

theorem Along.nil {P : List ε → ε → Prop} : Along P [] := by
  intro pre e post h
  simp at h

theorem Along.snoc {P : List ε → ε → Prop} {e : ε} (h : Along P es) (he : P es e) : Along P (es ++ [e]) := by
  intro pre e' post heq
  rcases List.eq_nil_or_concat post with rfl | ⟨post', b, rfl⟩
  · obtain ⟨rfl, e⟩ := List.append_inj' heq rfl
    cases e
    exact he
  · rw [List.concat_eq_append, ← List.cons_append, ← List.append_assoc] at heq
    obtain ⟨rfl, -⟩ := List.append_inj' heq rfl
    exact h pre e' post' rfl

/-- The state a list of actions leads to, with the events on the way. -/
def runActs (step : σ → α → Option (σ × List ε)) : σ → List α → Option (σ × List ε)
  | s, [] => some (s, [])
  | s, a :: as =>
    match step s a with
    | none => none
    | some (s', es) => (runActs step s' as).map fun r => (r.1, es ++ r.2)

/-- A run that is evaluated, and what its end is decided to be. -/
theorem exists_of_any {A B : Type _} {o : Option (A × B)} {P : A → B → Prop} [∀ a b, Decidable (P a b)]
    (h : (o.any fun r => decide (P r.1 r.2)) = true) : ∃ a b, o = some (a, b) ∧ P a b := by
  obtain ⟨⟨a, b⟩, hr, hP⟩ := (Option.any_eq_true _ _).1 h
  exact ⟨a, b, hr, of_decide_eq_true hP⟩

theorem exec_of_run {as : List α} {s' : σ} (h : runActs step s as = some (s', es)) : Exec step Any s es s' := by
  induction as generalizing s es with
  | nil =>
    cases h
    exact .refl
  | cons a as ih =>
    rw [runActs] at h
    split at h
    · cases h
    · rename_i s₁ es₁ hst
      rw [Option.map_eq_some_iff] at h
      obtain ⟨⟨s₂, es₂⟩, h₂, e⟩ := h
      cases e
      have h₁ : Exec step Any s ([] ++ es₁) s₁ := .step .refl trivial hst
      exact h₁.trans (ih h₂)

/-- A run of a machine that refuses what does not pass a check is one that meets the condition
that the check decides. -/
theorem Exec.of_check {ok : σ → α → Bool} (hok : ∀ s a, ok s a = true → C s a)
    (h : Exec (fun s a => if ok s a then step s a else none) Any s₀ es s) : Exec step C s₀ es s := by
  induction h with
  | refl => exact .refl
  | step _ _ hst ih =>
    split at hst
    · exact ih.step (hok _ _ ‹_›) hst
    · cases hst

/-- A run that is evaluated: `ok` decides the condition of its steps. -/
theorem exists_exec {ok : σ → α → Bool} {P : List ε → σ → Prop} [∀ es s, Decidable (P es s)]
    (hok : ∀ s a, ok s a = true → C s a) (as : List α)
    (h : ((runActs (fun s a => if ok s a then step s a else none) s₀ as).any fun r => decide (P r.2 r.1)) = true) :
    ∃ es s, Exec step C s₀ es s ∧ P es s := by
  obtain ⟨⟨s, es⟩, hr, hP⟩ := (Option.any_eq_true _ _).1 h
  exact ⟨es, s, (exec_of_run hr).of_check hok, of_decide_eq_true hP⟩

/-- Steps that go down in `f`, and go on from all but `root`, lead to it. -/
theorem leads_to {r : σ → σ → Prop} {P : σ → Prop} {root s : σ} (f : σ → Nat)
    (h : ∀ s, P s → s ≠ root → ∃ s', r s s' ∧ P s' ∧ f s' < f s) (hs : P s) : Relation.ReflTransGen r s root := by
  induction hk : f s using Nat.strongRecOn generalizing s with
  | _ k ih =>
    by_cases e : s = root
    · exact e ▸ .refl
    · obtain ⟨s', hr, hs', hlt⟩ := h s hs e
      exact .head hr (ih (f s') (hk ▸ hlt) hs' rfl)

end Xv6
