import Xv6.Framework.Run
import Mathlib.Logic.Function.Basic

/-!
# Processes over a shared state

The code of a process is a tree of atomic operations on a shared state (`Prog`): what
follows an operation depends on its result. A process that runs no call keeps a value of
its own. `Kernel.step` interleaves the processes, one operation at a time, until one of them
panics.

`Kernel.Safe` is the proof rule. Each process has a ghost value that says what it knows and
owns; the invariant relates the ghost values of all processes to the shared state, and each
operation may change the ghost value of the process that performs it only. `Kernel.safe_run`:
if every call is safe, then every state of a run satisfies the invariant.
-/

namespace Xv6

open Function

variable {Op : Type} {Res : Op → Type} {ε α β : Type}

inductive Prog (Op : Type) (Res : Op → Type) (ε α : Type) where
  | ret (a : α)
  | panic (e : ε)
  | op (o : Op) (k : Res o → Prog Op Res ε α)

def Prog.bind (m : Prog Op Res ε α) (f : α → Prog Op Res ε β) : Prog Op Res ε β :=
  match m with
  | .ret a => f a
  | .panic e => .panic e
  | .op o k => .op o fun r => (k r).bind f

instance : Monad (Prog Op Res ε) where
  pure := .ret
  bind := .bind

/-- A single operation. -/
def Prog.perform (o : Op) : Prog Op Res ε (Res o) := .op o .ret

/-- What the processes run. `exec` blocks (`none`), panics, or gives the result and the new
state; its `Bool` is a choice the code does not make, such as whether the disk is full. -/
structure Kernel (Pid Call σ A ε : Type) (Op : Type) (Res : Op → Type) where
  exec : Pid → (o : Op) → Bool → σ → Option (Except ε (Res o × σ))
  /-- The code of a call, made by a process that keeps the value given. -/
  code : Call → A → Prog Op Res ε A

variable {Pid Call σ A : Type} [DecidableEq Pid]

structure System (Pid σ A ε : Type) (Op : Type) (Res : Op → Type) where
  shared : σ
  proc : Pid → Prog Op Res ε A
  panicked : Option ε

inductive Sched (Pid Call : Type) where
  /-- An idle process makes a call. -/
  | start (p : Pid) (c : Call)
  /-- A process performs its next operation. -/
  | step (p : Pid) (choice : Bool)

variable {K : Kernel Pid Call σ A ε Op Res} {L : Type}

def Kernel.step (K : Kernel Pid Call σ A ε Op Res) (s : System Pid σ A ε Op Res) :
    Sched Pid Call → Option (System Pid σ A ε Op Res × List Empty)
  | .start p c =>
    match s.panicked, s.proc p with
    | none, .ret a => some ({ s with proc := update s.proc p (K.code c a) }, [])
    | _, _ => none
  | .step p choice =>
    match s.panicked, s.proc p with
    | none, .panic e => some ({ s with panicked := some e }, [])
    | none, .op o k =>
      match K.exec p o choice s.shared with
      | some (.ok (r, s')) => some ({ s with shared := s', proc := update s.proc p (k r) }, [])
      | some (.error e) => some ({ s with panicked := some e }, [])
      | none => none
    | _, _ => none

/-! ## The proof rule -/

/-- The code is safe for process `p` with ghost value `l`: whatever the others do in between,
each of its operations that meets the condition `C` keeps the invariant `I` for some new ghost
value of `p`, it panics only as `E` says and ends as `Q` says. -/
def Kernel.Safe (K : Kernel Pid Call σ A ε Op Res) (I : (Pid → L) → σ → Prop)
    (C : σ → Op → Prop) (E : ε → Prop) (p : Pid) : Prog Op Res ε α → L → (α → L → Prop) → Prop
  | .ret a, l, Q => Q a l
  | .panic e, _, _ => E e
  | .op o k, l, Q => ∀ g s, g p = l → I g s → C s o → ∀ c,
    match K.exec p o c s with
    | none => True
    | some (.error e) => E e
    | some (.ok (r, s')) => ∃ l', I (update g p l') s' ∧ K.Safe I C E p (k r) l' Q

variable {I : (Pid → L) → σ → Prop} {C : σ → Op → Prop} {E : ε → Prop} {p : Pid} {l : L}
  {Q : α → L → Prop}

theorem Kernel.Safe.panic {e : ε} (h : E e) : K.Safe I C E p (.panic e) l Q := h

variable {a : A} {m : Prog Op Res ε β} {f : β → Prog Op Res ε α} {o : Op} {r : Except ε (A × σ)}
  {t : System Pid σ A ε Op Res}

theorem Kernel.Safe.bind (h : K.Safe I C E p m l fun b l' => K.Safe I C E p (f b) l' Q) : K.Safe I C E p (m >>= f) l Q := by
  show K.Safe I C E p (m.bind f) l Q
  induction m generalizing l with
  | ret a => exact h
  | panic e => exact h
  | op o k ih =>
    intro g s hg hi hc c
    have := h g s hg hi hc c
    split at this
    · trivial
    · exact this
    · obtain ⟨l', hi', hk⟩ := this
      exact ⟨l', hi', ih _ hk⟩

theorem Kernel.Safe.ite {c : Prop} [Decidable c] {m m' : Prog Op Res ε α}
    (h : c → K.Safe I C E p m l Q) (h' : ¬c → K.Safe I C E p m' l Q) : K.Safe I C E p (if c then m else m') l Q := by
  split
  · exact h ‹_›
  · exact h' ‹_›

theorem Kernel.Safe.perform {Q : Res o → L → Prop}
    (h : ∀ g s, g p = l → I g s → C s o → ∀ c, (∀ e, K.exec p o c s = some (.error e) → E e) ∧
      ∀ r s', K.exec p o c s = some (.ok (r, s')) → ∃ l', I (update g p l') s' ∧ Q r l') :
    K.Safe I C E p (Prog.perform o) l Q := by
  intro g s hg hi hc c
  obtain ⟨he, hok⟩ := h g s hg hi hc c
  split
  · trivial
  · exact he _ ‹_›
  · exact hok _ _ ‹_›

/-- The invariant holds when an operation is performed. -/
theorem Kernel.Safe.of_op {Q : Res o → L → Prop} (h : ∀ g s, g p = l → I g s → K.Safe I C E p (Prog.perform o) l Q) :
    K.Safe I C E p (Prog.perform o) l Q := fun g s hg hi => h g s hg hi g s hg hi

/-- The condition that a step of a process meets, given one on its operations. -/
def Kernel.Meets (C : σ → Op → Prop) (s : System Pid σ A ε Op Res) : Sched Pid Call → Prop
  | .start _ _ => True
  | .step p _ =>
    match s.proc p with
    | .op o _ => C s.shared o
    | _ => True

/-- The invariant, with what remains of each process's call safe. -/
def Kernel.Good (K : Kernel Pid Call σ A ε Op Res) (I : (Pid → L) → σ → Prop) (C : σ → Op → Prop)
    (E : ε → Prop) (idle : A → L → Prop) (s : System Pid σ A ε Op Res) : Prop :=
  (∃ g, I g s.shared ∧ ∀ p, K.Safe I C E p (s.proc p) (g p) idle) ∧ ∀ e, s.panicked = some e → E e

theorem Kernel.good_step {idle : A → L → Prop} (hcall : ∀ p c a l, idle a l → K.Safe I C E p (K.code c a) l idle)
    {s s' : System Pid σ A ε Op Res} {a : Sched Pid Call} {es : List Empty}
    (h : K.Good I C E idle s) (hm : Kernel.Meets C s a) (hs : K.step s a = some (s', es)) : K.Good I C E idle s' := by
  obtain ⟨⟨g, hi, hp⟩, he⟩ := h
  cases a with
  | start p c =>
    simp only [Kernel.step] at hs
    split at hs
    · rename_i a hn hr
      cases hs
      refine ⟨⟨g, hi, fun q => ?_⟩, he⟩
      by_cases e : q = p
      · subst e
        have hq := hp q
        rw [hr] at hq
        simp only [update_self]
        exact hcall q c a _ hq
      · simp only [update_of_ne e]
        exact hp q
    · cases hs
  | step p choice =>
    simp only [Kernel.step] at hs
    have hq := hp p
    split at hs
    · rename_i e hn hr
      cases hs
      rw [hr] at hq
      exact ⟨⟨g, hi, hp⟩, fun e' h' => by cases h'; exact hq⟩
    · rename_i o k hn hr
      simp only [Kernel.Meets, hr] at hm
      rw [hr] at hq
      have hsafe := hq g s.shared rfl hi hm choice
      split at hs
      · rename_i r s₁ hx
        cases hs
        rw [hx] at hsafe
        obtain ⟨l', hi', hk⟩ := hsafe
        refine ⟨⟨update g p l', hi', fun q => ?_⟩, he⟩
        by_cases e : q = p
        · subst e
          simp only [update_self]
          exact hk
        · simp only [update_of_ne e]
          exact hp q
      · rename_i e hx
        cases hs
        rw [hx] at hsafe
        exact ⟨⟨g, hi, hp⟩, fun e' h' => by cases h'; exact hsafe⟩
      · cases hs
    · cases hs

/-- Every state of a run whose steps meet the condition satisfies the invariant. -/
theorem Kernel.safe_run {idle : A → L → Prop} (hcall : ∀ p c a l, idle a l → K.Safe I C E p (K.code c a) l idle)
    {s₀ s : System Pid σ A ε Op Res} {es : List Empty} (h₀ : K.Good I C E idle s₀)
    (h : Exec K.step (Kernel.Meets C) s₀ es s) : K.Good I C E idle s :=
  h.invariant (I := fun _ s => K.Good I C E idle s) h₀ fun hg hm hs =>
    Kernel.good_step hcall hg hm hs

/-! ## A process alone -/

/-- The code of process `p` while the others do nothing, every choice being `c`. -/
def Kernel.alone (K : Kernel Pid Call σ A ε Op Res) (p : Pid) (c : Bool) :
    Prog Op Res ε α → σ → Option (Except ε (α × σ))
  | .ret a, s => some (.ok (a, s))
  | .panic e, _ => some (.error e)
  | .op o k, s =>
    match K.exec p o c s with
    | some (.ok (r, s')) => K.alone p c (k r) s'
    | some (.error e) => some (.error e)
    | none => none

/-- Alone, the code returns, as `Q` says. -/
def Kernel.Ends (K : Kernel Pid Call σ A ε Op Res) (p : Pid) (c : Bool) (m : Prog Op Res ε α) (s : σ)
    (Q : α → σ → Prop) : Prop := ∃ a s', K.alone p c m s = some (.ok (a, s')) ∧ Q a s'

/-- Calls that process `p` makes alone, one after another, from the value `a` on. -/
def Kernel.session (K : Kernel Pid Call σ A ε Op Res) (p : Pid) (c : Bool) :
    List Call → A → σ → Option (Except ε (A × σ))
  | [], a, s => some (.ok (a, s))
  | call :: calls, a, s =>
    match K.alone p c (K.code call a) s with
    | some (.ok (a', s')) => K.session p c calls a' s'
    | r => r

section Alone

variable {c : Bool} {s : σ} {Q : α → σ → Prop}

omit [DecidableEq Pid] in
theorem Kernel.Ends.ret {a : α} (h : Q a s) : K.Ends p c (pure a) s Q := ⟨a, s, rfl, h⟩

omit [DecidableEq Pid] in
theorem Kernel.Ends.mono {m : Prog Op Res ε α} {R : α → σ → Prop} (h : K.Ends p c m s R)
    (hq : ∀ a s', R a s' → Q a s') : K.Ends p c m s Q := by
  obtain ⟨a, s', hm, hr⟩ := h
  exact ⟨a, s', hm, hq a s' hr⟩

omit [DecidableEq Pid] in
theorem Kernel.Ends.perform {r : Res o} {t : σ} {Q : Res o → σ → Prop} (hx : K.exec p o c s = some (.ok (r, t)))
    (h : Q r t) : K.Ends p c (Prog.perform o) s Q := by
  refine ⟨r, t, ?_, h⟩
  simp only [Prog.perform, Kernel.alone, hx]

omit [DecidableEq Pid] in
theorem Kernel.alone_bind {b : β} {s' : σ} (h : K.alone p c m s = some (.ok (b, s'))) :
    K.alone p c (m >>= f) s = K.alone p c (f b) s' := by
  show K.alone p c (m.bind f) s = _
  induction m generalizing s with
  | ret a =>
    cases h
    rfl
  | panic e => cases h
  | op o k ih =>
    simp only [Kernel.alone, Prog.bind] at h ⊢
    split at h
    · exact ih _ h
    · cases h
    · cases h

omit [DecidableEq Pid] in
theorem Kernel.Ends.bind {R : β → σ → Prop} (h : K.Ends p c m s R) (hf : ∀ b s', R b s' → K.Ends p c (f b) s' Q) :
    K.Ends p c (m >>= f) s Q := by
  obtain ⟨b, s', hm, hr⟩ := h
  obtain ⟨a, s'', ha, hq⟩ := hf b s' hr
  exact ⟨a, s'', (Kernel.alone_bind hm).trans ha, hq⟩

omit [DecidableEq Pid] in
theorem Kernel.Ends.bind_error {R : β → σ → Prop} {e : ε} (h : K.Ends p c m s R)
    (hf : ∀ b s', R b s' → K.alone p c (f b) s' = some (.error e)) : K.alone p c (m >>= f) s = some (.error e) := by
  obtain ⟨b, s', hm, hr⟩ := h
  exact (Kernel.alone_bind hm).trans (hf b s' hr)

/-- The code of process `p` has been run alone, with this result. -/
def System.Left (t : System Pid σ A ε Op Res) (p : Pid) (t' : System Pid σ A ε Op Res) : Except ε (A × σ) → Prop
  | .ok (a, s') => t' = { t with shared := s', proc := update t.proc p (.ret a) }
  | .error e => t'.panicked = some e

theorem System.Left.of_update {t' : System Pid σ A ε Op Res} {m : Prog Op Res ε A}
    (h : System.Left { t with shared := s, proc := update t.proc p m } p t' r) : t.Left p t' r := by
  cases r with
  | ok r => rwa [System.Left, update_idem] at h
  | error e => exact h

/-- What the code does alone is a run. -/
theorem Kernel.exec_alone (hn : t.panicked = none) (h : K.alone p c (t.proc p) t.shared = some r) :
    ∃ t', Exec K.step Any t [] t' ∧ t.Left p t' r := by
  generalize hm : t.proc p = m at h
  induction m generalizing t with
  | ret a =>
    cases h
    exact ⟨t, .refl, by rw [System.Left, ← hm, update_eq_self]⟩
  | panic e =>
    cases h
    exact ⟨{ t with panicked := some e }, .step (a := .step p c) .refl trivial (by simp only [Kernel.step, hn, hm]), rfl⟩
  | op o k ih =>
    simp only [Kernel.alone] at h
    split at h
    · rename_i x s' hx
      have hfirst : Exec K.step Any t [] { t with shared := s', proc := update t.proc p (k x) } :=
        .step (a := .step p c) .refl trivial (by simp only [Kernel.step, hn, hm, hx])
      obtain ⟨t', hrun, hr⟩ := ih x (t := { t with shared := s', proc := update t.proc p (k x) }) hn
        (update_self ..) h
      exact ⟨t', hfirst.trans hrun, hr.of_update⟩
    · rename_i e hx
      cases h
      exact ⟨{ t with panicked := some e }, .step (a := .step p c) .refl trivial (by simp only [Kernel.step, hn, hm, hx]), rfl⟩
    · cases h

omit [DecidableEq Pid] in
theorem Kernel.session_append {calls calls' : List Call} {a' : A} {s s' : σ}
    (h : K.session p c calls a s = some (.ok (a', s'))) :
    K.session p c (calls ++ calls') a s = K.session p c calls' a' s' := by
  induction calls generalizing a s with
  | nil =>
    cases h
    rfl
  | cons call calls ih =>
    rw [List.cons_append]
    simp only [Kernel.session] at h ⊢
    split at h
    · exact ih h
    · rename_i hne
      exact absurd h (hne _ _)

omit [DecidableEq Pid] in
/-- A family of calls, each of which leads from `P k` to `P (k + 1)`. -/
theorem Kernel.session_range {P : Nat → A → σ → Prop} {call : Nat → Call} {N : Nat} (h₀ : P 0 a s)
    (hcall : ∀ k < N, ∀ a s, P k a s → K.Ends p c (K.code (call k) a) s (P (k + 1))) :
    ∃ a' s', K.session p c ((List.range N).map call) a s = some (.ok (a', s')) ∧ P N a' s' := by
  induction N with
  | zero => exact ⟨a, s, rfl, h₀⟩
  | succ N ih =>
    obtain ⟨a₁, s₁, hrun, h₁⟩ := ih fun k hk => hcall k (Nat.lt_succ_of_lt hk)
    obtain ⟨a₂, s₂, hlast, h₂⟩ := hcall N (Nat.lt_succ_self N) a₁ s₁ h₁
    refine ⟨a₂, s₂, ?_, h₂⟩
    rw [List.range_succ, List.map_append, Kernel.session_append hrun]
    simp only [List.map_cons, List.map_nil, Kernel.session, hlast]

theorem Kernel.exec_session {calls : List Call} (hn : t.panicked = none) (hp : t.proc p = .ret a)
    (h : K.session p c calls a t.shared = some r) : ∃ t', Exec K.step Any t [] t' ∧ t.Left p t' r := by
  induction calls generalizing t a with
  | nil =>
    cases h
    exact ⟨t, .refl, by rw [System.Left, ← hp, update_eq_self]⟩
  | cons call calls ih =>
    have hstart : Exec K.step Any t [] { t with proc := update t.proc p (K.code call a) } :=
      .step (a := .start p call) .refl trivial (by simp only [Kernel.step, hn, hp])
    have hfirst : ∀ {r}, K.alone p c (K.code call a) t.shared = some r →
        ∃ t', Exec K.step Any t [] t' ∧ t.Left p t' r := by
      intro r hr
      have hr : K.alone p c (update t.proc p (K.code call a) p) t.shared = some r := by rwa [update_self]
      obtain ⟨t', hrun, hl⟩ := exec_alone (t := { t with proc := update t.proc p (K.code call a) }) hn hr
      exact ⟨t', hstart.trans hrun, hl.of_update⟩
    rw [Kernel.session] at h
    split at h
    · rename_i a' s' hx
      obtain ⟨t₁, hrun, rfl⟩ := hfirst hx
      obtain ⟨t', hrest, hl⟩ := ih (t := { t with shared := s', proc := update t.proc p (.ret a') }) hn
        (update_self ..) h
      exact ⟨t', hrun.trans hrest, hl.of_update⟩
    · exact hfirst h

end Alone

end Xv6
