/-!
# Weakest preconditions of code that may panic

Code over a state `σ` that may stop with a panic `ε` is a `StateT σ (Except ε)`.
`WP m E Q s` says that `m` run from `s` ends as `Q` says, or panics as `E` says.
There is one rule for each construct, and `.loop` for a loop over an index.
-/

namespace Xv6

variable {σ ε α β : Type}

def WP (m : StateT σ (Except ε) α) (E : ε → Prop) (Q : α → σ → Prop) (s : σ) : Prop :=
  match m s with
  | .ok (a, s') => Q a s'
  | .error e => E e

variable {E : ε → Prop} {Q : α → σ → Prop} {s : σ}

theorem WP.pure {a : α} (h : Q a s) : WP (pure a) E Q s := h

theorem WP.bind {m : StateT σ (Except ε) β} {f : β → StateT σ (Except ε) α}
    (h : WP m E (fun b s' => WP (f b) E Q s') s) : WP (m >>= f) E Q s := by
  unfold WP at h ⊢
  simp only [Bind.bind, StateT.bind, Except.bind]
  split at h
  · rename_i b s' e
    rw [e]
    exact h
  · rename_i e' e
    rw [e]
    exact h

variable {m : StateT σ (Except ε) α}

theorem WP.mono {Q' : α → σ → Prop} (h : WP m E Q' s) (hq : ∀ a s', Q' a s' → Q a s') : WP m E Q s := by
  unfold WP at h ⊢
  split at h
  · exact hq _ _ h
  · exact h

theorem WP.weaken {E' : ε → Prop} (h : WP m E Q s) (he : ∀ e, E e → E' e) : WP m E' Q s := by
  unfold WP at h ⊢
  split at h
  · exact h
  · exact he _ h

theorem WP.and {E' : ε → Prop} {Q' : α → σ → Prop} (h : WP m E Q s) (h' : WP m E' Q' s) :
    WP m (fun e => E e ∧ E' e) (fun a s' => Q a s' ∧ Q' a s') s := by
  unfold WP at h h' ⊢
  split at h
  · rename_i e
    rw [e] at h'
    exact ⟨h, h'⟩
  · rename_i e
    rw [e] at h'
    exact ⟨h, h'⟩

/-- Code about which nothing is claimed but that it has returned. -/
theorem WP.run (m : StateT σ (Except ε) α) (s : σ) : WP m (fun _ => True) (fun a s' => m s = .ok (a, s')) s := by
  unfold WP
  split <;> trivial

theorem WP.any (m : StateT σ (Except ε) α) (s : σ) : WP m (fun _ => True) (fun _ _ => True) s :=
  (WP.run m s).mono fun _ _ _ => trivial

theorem WP.get {Q : σ → σ → Prop} (h : Q s s) : WP (MonadState.get) E Q s := h

theorem WP.set {s' : σ} {Q : PUnit → σ → Prop} (h : Q ⟨⟩ s') : WP (MonadStateOf.set s') E Q s := h

theorem WP.modify {f : σ → σ} {Q : PUnit → σ → Prop} (h : Q ⟨⟩ (f s)) : WP (modify f) E Q s := h

theorem WP.throw {e : ε} (h : E e) : WP (throw e) E Q s := h

theorem WP.ite {c : Prop} [Decidable c] {m' : StateT σ (Except ε) α} (h : c → WP m E Q s) (h' : ¬c → WP m' E Q s) :
    WP (if c then m else m') E Q s := by
  split
  · exact h ‹_›
  · exact h' ‹_›

/-- A loop `for (k = 0; k < n; k++)`, with an invariant of the index. -/
theorem WP.loop {f : Nat → StateT σ (Except ε) PUnit} {n : Nat} {I : Nat → σ → Prop} (h₀ : I 0 s)
    (hs : ∀ k s, k < n → I k s → WP (f k) E (fun _ => I (k + 1)) s) : WP (forM (List.range n) f) E (fun _ => I n) s := by
  induction n with
  | zero => exact h₀
  | succ n ih =>
    rw [List.range_succ, List.forM_append]
    refine .bind ((ih fun k s hk => hs k s (by omega)).mono fun _ s' h => ?_)
    rw [List.forM_cons, List.forM_nil]
    exact .bind ((hs n s' (by omega) h).mono fun _ _ h => h)

/-- What a run that does not panic ends in. -/
theorem WP.ok {a : α} {s' : σ} (h : WP m E Q s) (hr : m s = .ok (a, s')) : Q a s' := by
  rw [WP, hr] at h
  exact h

/-- Code that does not panic ends. -/
theorem WP.total (h : WP m (fun _ => False) Q s) : ∃ a s', m s = .ok (a, s') ∧ Q a s' := by
  unfold WP at h
  split at h
  · rename_i a s' e
    exact ⟨a, s', e, h⟩
  · exact h.elim

theorem WP.error {e : ε} (h : WP m E Q s) (hr : m s = .error e) : E e := by
  rw [WP, hr] at h
  exact h

/-- Code that is evaluated, and what its end is decided to be. -/
theorem exists_of_ok {e : Except ε (α × σ)} {P : α → σ → Prop} [∀ a s, Decidable (P a s)]
    (h : (match e with
      | .ok (a, s) => decide (P a s)
      | .error _ => false) = true) : ∃ a s, e = .ok (a, s) ∧ P a s := by
  split at h
  · exact ⟨_, _, rfl, of_decide_eq_true h⟩
  · cases h

end Xv6
