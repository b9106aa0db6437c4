import Xv6.Wait.Moves

/-!
# Every exited process is reaped by its parent, once

`pending` reads off the events of a run which processes have exited and were not
reaped yet. It agrees with the zombies of the table, so that a zombie is freed only
by a `kwait`, which returns the pid and the status of the exit (`wait_reaps`). All parents lead up to `initproc`.
-/

namespace Xv6.Wait

open Function List

def Event.pend (j : Nat) (o : Option (BitVec 32 × BitVec 32)) : Event → Option (BitVec 32 × BitVec 32)
  | .exited i pid st => if i = j then some (pid, st) else o
  | .reaped _ i _ _ => if i = j then none else o
  | _ => o

/-- The pid and status of process `j`, if it has exited and was not reaped yet. -/
def pending (j : Nat) (es : List Event) : Option (BitVec 32 × BitVec 32) :=
  es.foldl (Event.pend j) none

def Event.fork (j : Nat) (o : Option Nat) : Event → Option Nat
  | .forked p i _ => if i = j then some p else o
  | _ => o

/-- The process that last forked `j`. -/
def forker (j : Nat) (es : List Event) : Option Nat := es.foldl (Event.fork j) none

/-- What events mean: a process that is reaped has exited, with that pid and status, and
was not reaped since; the one that reaps it forked it, or is `initproc`. A process that has
exited is not forked over, dropped or exited again before it is reaped. -/
def Lawful (pre : List Event) : Event → Prop
  | .reaped p j pid st => pending j pre = some (pid, st) ∧ (p = initproc ∨ forker j pre = some p)
  | .waitFailed _ j => pending j pre ≠ none
  | .exited j _ _ | .forked _ j _ | .dropped _ j => pending j pre = none

/-- The zombies of the table are the processes that wait to be reaped, and a parent is the
forker or `initproc`. -/
structure Accounted (es : List Event) (s : Sys) : Prop where
  zombies : ∀ j, pending j es =
    if (s.proc j).state = .zombie then some ((s.proc j).pid, (s.proc j).xstate) else none
  parents : ∀ j q, (s.proc j).parent = some q → q = initproc ∨ forker j es = some q
  lawful : Along Lawful es

theorem pending_snoc (j : Nat) (es : List Event) (e : Event) : pending j (es ++ [e]) = e.pend j (pending j es) := by
  simp [pending]

theorem forker_snoc (j : Nat) (es : List Event) (e : Event) : forker j (es ++ [e]) = e.fork j (forker j es) := by
  simp [forker]

variable {s s' : Sys} {i : Nat} {es es' : List Event} {t : Nat → Proc} {n : BitVec 32}

variable {j p : Nat}

theorem Accounted.none_of (h : Accounted es s) (hz : (s.proc j).state ≠ .zombie) : pending j es = none := by
  rw [h.zombies, if_neg hz]

theorem Accounted.zombies_change (h : Accounted es s) (hI : Inv s) (hc : Change s i es' t n) (j : Nat) :
    pending j (es ++ es') = if (t j).state = .zombie then some ((t j).pid, (t j).xstate) else none := by
  have hold := h.zombies j
  have hset {k : Nat} {x : Proc} {o : Option (BitVec 32 × BitVec 32)}
      (hne : j ≠ k → o = pending j es)
      (he : j = k → o = if x.state = .zombie then some (x.pid, x.xstate) else none) :
      o = if (update s.proc k x j).state = .zombie then
        some ((update s.proc k x j).pid, (update s.proc k x j).xstate) else none :=
    update_of (P := fun x => o = if x.state = .zombie then some (x.pid, x.xstate) else none)
      (fun e => (hne e).trans hold) he
  cases hc with
  | same =>
    rw [append_nil]
    exact hold
  | failed =>
    rw [pending_snoc]
    exact hold
  | resched hr =>
    rw [append_nil]
    refine hset (fun _ => rfl) fun e => ?_
    subst e
    rcases hr.state with e | ⟨ha, ha'⟩
    · rw [e, hr.pid, hr.xstate, hold]
    · rw [if_neg ha'.ne_zombie, h.none_of ha.ne_zombie]
  | alloc pid hk hu =>
    rw [append_nil]
    exact hset (fun _ => rfl) fun e => by simpa using h.none_of (by rw [e, hu]; decide)
  | drop hpc =>
    rw [pending_snoc]
    refine hset (fun _ => rfl) fun e => ?_
    rw [if_neg (by simp [Proc.free])]
    exact h.none_of (by rw [e, (hI.here hpc).2.1.1]; decide)
  | setParent hpc =>
    rw [pending_snoc]
    exact hset (fun _ => rfl) fun e => by subst e; exact hold
  | start hpc =>
    rw [append_nil]
    refine hset (fun _ => rfl) fun e => ?_
    simpa using h.none_of (by rw [e, (hI.here hpc).2.1.1]; decide)
  | reparent =>
    rw [append_nil]
    exact hset (fun _ => rfl) fun e => by subst e; exact hold
  | zombie =>
    rw [pending_snoc]
    exact hset (fun e => if_neg (Ne.symm e)) fun e => by subst e; exact if_pos rfl
  | reap =>
    rw [pending_snoc]
    exact hset (fun e => if_neg (Ne.symm e)) fun e => by subst e; exact if_pos rfl

theorem Accounted.parents_change (h : Accounted es s) (hc : Change s i es' t n) {q : Nat} :
    (t j).parent = some q → q = initproc ∨ forker j (es ++ es') = some q := by
  have hold := h.parents j q
  have hset {k : Nat} {x : Proc} {o : Option Nat} (hne : j ≠ k → o = forker j es)
      (he : j = k → x.parent = some q → q = initproc ∨ o = some q) :
      (update s.proc k x j).parent = some q → q = initproc ∨ o = some q :=
    update_of (P := fun x => x.parent = some q → q = initproc ∨ o = some q)
      (fun e hp => by rw [hne e]; exact hold hp) he
  cases hc with
  | same =>
    rw [append_nil]
    exact hold
  | failed =>
    rw [forker_snoc]
    exact hold
  | resched hr =>
    rw [append_nil]
    refine hset (fun _ => rfl) fun e hp => ?_
    subst e
    exact hold (hr.parent ▸ hp)
  | alloc | start =>
    rw [append_nil]
    exact hset (fun _ => rfl) fun e hp => by subst e; exact hold hp
  | zombie =>
    rw [forker_snoc]
    exact hset (fun _ => rfl) fun e hp => by subst e; exact hold hp
  | drop | reap =>
    rw [forker_snoc]
    exact hset (fun _ => rfl) fun _ hp => by cases hp
  | setParent =>
    rw [forker_snoc]
    refine hset (fun e => if_neg (Ne.symm e)) fun e hp => .inr ?_
    subst e
    exact (if_pos rfl).trans hp
  | reparent =>
    rw [append_nil]
    exact hset (fun _ => rfl) fun _ hp => .inl (Option.some.inj hp).symm

theorem Accounted.lawful_change (h : Accounted es s) (hI : Inv s) (hc : Change s i es' t n) : Along Lawful (es ++ es') := by
  cases hc with
  | same | resched | alloc | start | reparent =>
    rw [append_nil]
    exact h.lawful
  | drop hpc => exact h.lawful.snoc (h.none_of (by rw [(hI.here hpc).2.1.1]; decide))
  | setParent hpc => exact h.lawful.snoc (h.none_of (by rw [(hI.here hpc).2.1.1]; decide))
  | zombie hpc => exact h.lawful.snoc (h.none_of (hI.here hpc).1.alive.ne_zombie)
  | failed hpc =>
    refine h.lawful.snoc fun hn => ?_
    rw [h.zombies, if_pos (hI.here hpc).2.2.2.1] at hn
    cases hn
  | reap hpc =>
    obtain ⟨-, -, -, hz, hp, -⟩ := hI.here hpc
    exact h.lawful.snoc ⟨by rw [h.zombies, if_pos hz], h.parents _ _ hp⟩

theorem Accounted.step (h : Accounted es s) (hI : Inv s) (hT : Trans s i es' s') : Accounted (es ++ es') s' :=
  ⟨h.zombies_change hI hT.change, fun _ _ => h.parents_change hT.change, h.lawful_change hI hT.change⟩

theorem boot_accounted : Accounted [] boot where
  zombies j := by
    rw [if_neg]
    · rfl
    · simp only [boot]
      split <;> decide
  parents _ _ h := by cases h
  lawful := .nil

theorem run_inv (h : Run es s) : Inv s ∧ Accounted es s := by
  refine h.invariant (I := fun es s => Inv s ∧ Accounted es s) ⟨boot_inv, boot_accounted⟩ ?_
  intro es es' s s' a ⟨hI, hA⟩ _ hst
  obtain ⟨hI', x, hT, -⟩ := good_step hI hst
  exact ⟨hI', hA.step hI hT⟩

/-! ## The main result -/

/-- Process `j` is a zombie with parent `p`, and no lock is in the way of reaping it. -/
structure Reapable (s : Sys) (p j : Nat) (pid st : BitVec 32) : Prop where
  zombie : (s.proc j).state = .zombie
  parent : (s.proc j).parent = some p
  pid : (s.proc j).pid = pid
  xstate : (s.proc j).xstate = st
  lock : s.lock j = none
  waitLock : s.waitLock = none

/-- Only a parent reaps. -/
theorem Change.parent_of_reaped (hc : Change s i es' t n) (hI : Inv s) {pid st : BitVec 32}
    (he : .reaped p j pid st ∈ es') : (s.proc j).parent = some p := by
  cases hc with
  | reap hpc =>
    rw [mem_singleton] at he
    cases he
    exact (hI.here hpc).2.2.2.2.1
  | same | resched | alloc | start | reparent => cases he
  | drop | setParent | zombie | failed =>
    rw [mem_singleton] at he
    cases he

theorem reapable_of_failed (hI : Inv s) (hpc : s.pc p = .waitFound true j)
    (hst : sysStep s (.go p false) = some (s', es')) : Reapable s' p j (s.proc j).pid (s.proc j).xstate := by
  obtain ⟨-, -, -, hz, hp, -⟩ := hI.here hpc
  simp only [sysStep, goStep, hpc, waitFoundStep] at hst
  split at hst
  · cases hst
    exact ⟨hz, hp, rfl, rfl, update_self .., rfl⟩
  · cases hst

/-- A `kwait` that comes to a zombie child with its lock free reaps it. -/
theorem reap_of_scan (hI : Inv s) {addr havekids : Bool} (hr : (s.proc p).state = .running)
    (hpc : s.pc p = .waitScan addr havekids j) (hp : (s.proc j).parent = some p) (hz : (s.proc j).state = .zombie)
    (hl : s.lock j = none) : ∃ s₁ s₂, sysStep s (.go p true) = some (s₁, []) ∧
      sysStep s₁ (.go p true) = some (s₂, [.reaped p j (s.proc j).pid (s.proc j).xstate]) := by
  have hj := (hI.parent j p hp).2.2
  refine ⟨(s.acquire j p).goto p (.waitFound addr j),
    ((((s.acquire j p).goto p (.waitFound addr j)).set j (s.proc j).free).release j).releaseWait.goto p .user, ?_, ?_⟩
  · simp only [sysStep, if_pos hr, goStep, hpc, waitScanStep, if_pos hj, if_pos hp, if_pos hl, if_pos hz]
  · have hr' : (((s.acquire j p).goto p (.waitFound addr j)).proc p).state = .running := hr
    simp only [sysStep, if_pos hr', goStep, goto_pc_self, waitFoundStep, not_true_eq_false, and_false, if_false]
    rfl

/-- The process tree and reaping. In every state of every run:
* a process that is neither free nor being set up, other than `initproc`, has a parent,
  which is neither free nor a zombie;
* while `wait_lock` is free, no process asleep in `kwait` has a zombie child;
* the zombies are the processes that have exited and were not reaped, with their pid and
  the status they passed to `kexit`; each is reaped once, by its current parent, which
  forked it or is `initproc`;
* a `kwait` that cannot copy the status out leaves the child reapable, and a `kwait` that
  comes to it then reaps it. -/
theorem wait_reaps (h : Run es s) :
    (∀ j, j ≠ initproc → (s.proc j).state ≠ .unused → (s.proc j).state ≠ .used →
      ∃ q, (s.proc j).parent = some q ∧ (s.proc q).state ≠ .unused ∧ (s.proc q).state ≠ .zombie) ∧
    (s.waitLock = none → ∀ q addr, s.pc q = .waitAsleep addr → (s.proc q).state = .sleeping →
      ∀ c, (s.proc c).parent = some q → (s.proc c).state ≠ .zombie) ∧
    (∀ j, pending j es =
      if (s.proc j).state = .zombie then some ((s.proc j).pid, (s.proc j).xstate) else none) ∧
    Along Lawful es ∧
    (∀ a s' es', sysStep s a = some (s', es') → ∀ p j pid st, .reaped p j pid st ∈ es' →
      (s.proc j).parent = some p) ∧
    (∀ p j s' es', s.pc p = .waitFound true j → sysStep s (.go p false) = some (s', es') →
      Reapable s' p j (s.proc j).pid (s.proc j).xstate) ∧
    (∀ p j addr havekids, (s.proc p).state = .running → s.pc p = .waitScan addr havekids j →
      (s.proc j).parent = some p → (s.proc j).state = .zombie → s.lock j = none →
      ∃ s₁ s₂, sysStep s (.go p true) = some (s₁, []) ∧
        sysStep s₁ (.go p true) = some (s₂, [.reaped p j (s.proc j).pid (s.proc j).xstate])) := by
  obtain ⟨hI, hA⟩ := run_inv h
  refine ⟨fun j hj hu hu' => ?_, fun hw q addr hpc hs c hp hz => ?_, hA.zombies, hA.lawful,
    fun a s' es' hst p j pid st he => ?_,
    fun p j s' es' hpc hst => reapable_of_failed hI hpc hst,
    fun p j addr havekids => reap_of_scan hI⟩
  · obtain ⟨q, hq⟩ := hI.hasParent j hj hu hu'
    have ha := (hI.parent j q hq).1
    exact ⟨q, hq, ha.ne_unused, ha.ne_zombie⟩
  · -- otherwise `wakeup(initproc)` is on its way, with `wait_lock` held
    obtain ⟨-, p, st, k, hp'⟩ := hI.asleep q c (.inr ⟨⟨addr, hpc⟩, hs⟩) hp hz
    have hw' := hI.waitLock (p := p) (by rw [hp']; trivial)
    cases hw.symm.trans hw'
  · obtain ⟨-, x, hT, -⟩ := good_step hI hst
    exact hT.change.parent_of_reaped hI he

/-- Init forks process 1, which exits with status 7; a first `kwait` of init cannot copy the
status out, a second one reaps it. -/
def reapRun : List Act :=
  let go i n := List.replicate n (Act.go i true)
  [.dispatch 0, .fork 0] ++ go 0 5 ++ [.dispatch 1, .exit 1 7] ++ go 1 (2 * NPROC + 4) ++
    [.wait 0 true, .go 0 true, .go 0 true, .go 0 false, .wait 0 true] ++ go 0 3

theorem wait_reaps_init : ∃ s es, Run es s ∧
    es = [.forked 0 1 2, .exited 1 2 7, .waitFailed 0 1, .reaped 0 1 2 7] ∧
    Along Lawful es ∧ pending 1 es = none := by
  obtain ⟨es, s, hrun, hes⟩ : ∃ es s, Run es s ∧ es = [.forked 0 1 2, .exited 1 2 7, .waitFailed 0 1, .reaped 0 1 2 7] :=
    exists_exec (fun _ _ => of_decide_eq_true) reapRun (by decide +kernel)
  refine ⟨s, es, hrun, hes, (wait_reaps hrun).2.2.2.1, ?_⟩
  subst hes
  decide

/-! ## The way up -/

/-- Processes have a depth, below that of their parents, and `initproc` is at the top. -/
def Rooted (t : Nat → Proc) : Prop := ∃ f : Nat → Nat, f initproc = 0 ∧ ∀ j q, (t j).parent = some q → f q < f j

/-- The child that `kfork` has made can be put below its parent: it is not a parent yet. -/
theorem Inv.depth (hI : Inv s) (h : Rooted s.proc) (i : Nat) : ∃ f : Nat → Nat, f initproc = 0 ∧
    (∀ j q, (s.proc j).parent = some q → f q < f j) ∧ ∀ k, s.pc i = .forkParent k → f i < f k := by
  obtain ⟨f, h0, hf⟩ := h
  by_cases hfork : ∃ k, s.pc i = .forkParent k
  · obtain ⟨k, hpc⟩ := hfork
    obtain ⟨ha, ⟨hu, -⟩, hp⟩ := hI.here hpc
    have hne {q : Nat} (hq : Alive (s.proc q)) : q ≠ k := fun e => hq.ne_used (e ▸ hu)
    refine ⟨update f k (f i + 1), (update_of_ne (hne hI.init.1) ..).trans h0, fun j q hq => ?_, fun k' hk' => ?_⟩
    · have hj : j ≠ k := by
        rintro rfl
        rw [hp] at hq
        cases hq
      rw [update_of_ne (hne (hI.parent j q hq).1), update_of_ne hj]
      exact hf j q hq
    · cases hpc.symm.trans hk'
      rw [update_of_ne (hne ha), update_self]
      exact Nat.lt_succ_self _
  · exact ⟨f, h0, hf, fun k hk => absurd ⟨k, hk⟩ hfork⟩

theorem Change.rooted (hc : Change s i es t n) (hI : Inv s) (h : Rooted s.proc) : Rooted t := by
  obtain ⟨f, h0, hf, hnew⟩ := hI.depth h i
  refine ⟨f, h0, fun j q => hc.keeps (P := fun x => x.parent = some q → f q < f j) (hf j q)
    (fun _ hr h => hf j q (hr.parent.symm.trans h)) (fun _ _ _ => hf j q) (fun _ => nofun) (fun hpc _ _ h => ?_)
    (fun _ => hf j q) (fun _ _ hp h => ?_) (fun _ _ _ => hf j q) fun _ _ => nofun⟩
  · cases h
    exact hnew j hpc
  · cases h
    have := hf j i hp
    omega

/-- In every run, also while processes exit and give their children to `initproc`, the parents
lead from every process that has been set up to `initproc`, which has none. -/
theorem parents_lead_to_init (h : Run es s) : (s.proc initproc).parent = none ∧
    ∀ j, (s.proc j).state ≠ .unused → (s.proc j).state ≠ .used →
      Relation.ReflTransGen (fun j q => (s.proc j).parent = some q) j initproc := by
  have hI : Inv s ∧ Rooted s.proc := by
    refine h.invariant (I := fun _ s => Inv s ∧ Rooted s.proc) ⟨boot_inv, fun _ => 0, rfl, fun _ _ h => by cases h⟩ ?_
    intro es es' s s' a ⟨hI, hr⟩ _ hst
    obtain ⟨hI', i, hT, -⟩ := good_step hI hst
    exact ⟨hI', hT.change.rooted hI hr⟩
  obtain ⟨hI, f, -, hf⟩ := hI
  refine ⟨hI.init.2, fun j hu hu' => ?_⟩
  refine leads_to (P := fun j => (s.proc j).state ≠ .unused ∧ (s.proc j).state ≠ .used) f (fun j hj hne => ?_) ⟨hu, hu'⟩
  obtain ⟨q, hq⟩ := hI.hasParent j hne hj.1 hj.2
  have ha := (hI.parent j q hq).1
  exact ⟨q, hq, ⟨ha.ne_unused, ha.ne_used⟩, hf j q hq⟩

theorem parents_lead_to_init_reapRun : ∃ es s, Run es s ∧ (s.proc 1).state = .runnable ∧
    (s.proc initproc).parent = none ∧ Relation.ReflTransGen (fun j q => (s.proc j).parent = some q) 1 initproc := by
  obtain ⟨es, s, hrun, hst⟩ : ∃ es s, Run es s ∧ (s.proc 1).state = .runnable :=
    exists_exec (fun _ _ => of_decide_eq_true) (reapRun.take 7) (by decide +kernel)
  have h := parents_lead_to_init hrun
  exact ⟨es, s, hrun, hst, h.1, h.2 1 (by simp [hst]) (by simp [hst])⟩

end Xv6.Wait
