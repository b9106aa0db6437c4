import Xv6.Framework.Wp

/-!
# Simulation of code that may panic

`Sim R m n s t`: whenever `m` ends from `s`, so does `n` from `t`, with the same result and in states
that `R` relates again. Nothing is said about runs of `m` that panic. There is one rule for each
construct, as for `WP`.
-/

namespace Xv6

variable {σ τ ε δ α β : Type} {R : σ → τ → Prop} {s : σ} {t : τ}

def Sim (R : σ → τ → Prop) (m : StateT σ (Except ε) α) (n : StateT τ (Except δ) α) (s : σ) (t : τ) : Prop :=
  ∀ a s', m s = .ok (a, s') → ∃ t', n t = .ok (a, t') ∧ R s' t'

theorem Sim.pure {a : α} (h : R s t) :
    Sim R (Pure.pure a : StateT σ (Except ε) α) (Pure.pure a : StateT τ (Except δ) α) s t := by
  intro a' s' hrun
  cases hrun
  exact ⟨t, rfl, h⟩

theorem Sim.bind {m : StateT σ (Except ε) β} {n : StateT τ (Except δ) β} {f : β → StateT σ (Except ε) α}
    {g : β → StateT τ (Except δ) α} (h : Sim R m n s t)
    (hf : ∀ b s' t', m s = .ok (b, s') → R s' t' → Sim R (f b) (g b) s' t') : Sim R (m >>= f) (n >>= g) s t := by
  intro a s' hrun
  simp only [Bind.bind, StateT.bind, Except.bind] at hrun
  split at hrun
  · cases hrun
  · rename_i p hm
    obtain ⟨b, s₁⟩ := p
    obtain ⟨t₁, hn, hR⟩ := h b s₁ hm
    obtain ⟨t', hg, hR'⟩ := hf b s₁ t₁ hm hR a s' hrun
    refine ⟨t', ?_, hR'⟩
    simp only [Bind.bind, StateT.bind, Except.bind, hn]
    exact hg

/-- The right side may look at its state where the left one does. -/
theorem Sim.get {f : σ → StateT σ (Except ε) α} {g : τ → StateT τ (Except δ) α} (h : Sim R (f s) (g t) s t) :
    Sim R (MonadState.get >>= f) (MonadState.get >>= g) s t := h

theorem Sim.modify_both {f : σ → σ} {g : τ → τ} {k : PUnit → StateT σ (Except ε) α} {l : PUnit → StateT τ (Except δ) α}
    (h : Sim R (k ⟨⟩) (l ⟨⟩) (f s) (g t)) : Sim R (modify f >>= k) (modify g >>= l) s t := h

/-- A change of the right side alone. -/
theorem Sim.modify_right {m : StateT σ (Except ε) α} {g : τ → τ} {l : PUnit → StateT τ (Except δ) α}
    (h : Sim R m (l ⟨⟩) s (g t)) : Sim R m (modify g >>= l) s t := h

theorem Sim.ite {c : Prop} [Decidable c] {m m' : StateT σ (Except ε) α} {n n' : StateT τ (Except δ) α}
    (h : c → Sim R m n s t) (h' : ¬c → Sim R m' n' s t) : Sim R (if c then m else m') (if c then n else n') s t := by
  by_cases hc : c
  · rw [if_pos hc, if_pos hc]
    exact h hc
  · rw [if_neg hc, if_neg hc]
    exact h' hc

/-- Loops that simulate each other round by round. -/
theorem Sim.loop {ι : Type} {f : ι → StateT σ (Except ε) PUnit} {g : ι → StateT τ (Except δ) PUnit} (l : List ι)
    (h : ∀ k ∈ l, ∀ s t, R s t → Sim R (f k) (g k) s t) (hR : R s t) : Sim R (forM l f) (forM l g) s t := by
  induction l generalizing s t with
  | nil => exact Sim.pure hR
  | cons k l ih =>
    rw [List.forM_cons, List.forM_cons]
    have hrest : ∀ k ∈ l, ∀ s t, R s t → Sim R (f k) (g k) s t := fun k hk => h k (List.mem_cons_of_mem _ hk)
    exact (h k List.mem_cons_self s t hR).bind fun _ _ _ _ hR' => ih hrest hR'

/-- What a run of the left side says about the right one. -/
theorem Sim.wp {m : StateT σ (Except ε) α} {n : StateT τ (Except δ) α} {E : δ → Prop} {Q : α → τ → Prop} {a : α} {s' : σ}
    (h : Sim R m n s t) (hm : m s = .ok (a, s')) (hq : ∀ t', R s' t' → Q a t') : WP n E Q t := by
  obtain ⟨t', hn, hR⟩ := h a s' hm
  unfold WP
  rw [hn]
  exact hq t' hR

end Xv6
