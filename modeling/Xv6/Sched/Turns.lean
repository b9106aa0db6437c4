import Xv6.Sched.Steps

/-!
# Turns within a queue

A pass over a queue runs each process of the queue that it finds runnable, in the order of the table. So
a process that waits in a queue is run before another one gets there a second time (`round_robin`), in
the low queue too: it is not served first-come, first-served (`low_queue_takes_turns`), unless the others
come into it behind the process that waits there (`low_queue_fcfs`).
-/

namespace Xv6.Sched

open List

variable {s s' s₁ s₂ : Sys} {a : Act} {es es' : List Event} {k q r i j : Nat}

/-- Process `j` is runnable at priority `k`. -/
def Waits (k j : Nat) (s : Sys) : Prop := (s.proc j).state = .runnable ∧ (s.proc j).priority = k

instance (k j : Nat) (s : Sys) : Decidable (Waits k j s) := inferInstanceAs (Decidable (_ ∧ _))

/-! ## A pass over a queue -/

/-- The scheduler is in a pass over queue `k`. -/
def Pc.InPass (k : Nat) : Pc → Prop
  | .scan prio _ _ | .run prio _ => prio = k
  | _ => False

/-- The first process that the pass has not looked at yet. -/
def Pc.pos : Pc → Nat
  | .scan _ i _ => i
  | .run _ i => i + 1
  | _ => 0

/-- The processes that were dispatched, in order. -/
def dispatched (es : List Event) : List Nat :=
  es.filterMap fun
    | .dispatch i _ => some i
    | _ => none

theorem dispatched_append (es es' : List Event) : dispatched (es ++ es') = dispatched es ++ dispatched es' :=
  filterMap_append ..

/-- Only the scheduler dispatches. -/
theorem dispatched_env (hr : RunOk s) (ha : a ≠ .sched) (hst : sysStep s a = some (s', es)) : dispatched es = [] := by
  have hslot := (env_result hr ha hst).slot
  refine filterMap_eq_nil_iff.2 fun e he => ?_
  cases e with
  | alloc | boost | charge => rfl
  | dispatch j k =>
    have hm : Event.dispatch j k ∈ about j es := mem_filter.2 ⟨he, decide_eq_true rfl⟩
    have hj := hslot j
    generalize about j es = l, s.proc j = p, s'.proc j = p' at hm hj
    cases hj with
    | keep | alloc | charge => simp at hm

theorem mem_dispatched (h : .dispatch i k ∈ es) : i ∈ dispatched es := mem_filterMap.2 ⟨_, h, rfl⟩

/-- The step that dispatches a process. -/
structure Dispatches (s : Sys) (i k : Nat) (s' : Sys) : Prop where
  lt : i < NPROC
  waits : Waits k i s
  pc : s'.pc = .run k i

theorem dispatches_of_mem (hr : RunOk s) (hst : sysStep s a = some (s', es)) (h : .dispatch i k ∈ es) :
    Dispatches s i k s' := by
  by_cases ha : a = .sched
  · subst ha
    cases sched_cases hst with
    | top | noBoost | boosted | skip | restart | next | idle | wake => cases h
    | boost => split at h <;> simp at h
    | dispatch _ hi hrun hp =>
      cases mem_singleton.1 h
      exact ⟨hi, ⟨hrun, hp⟩, rfl⟩
  · have hm := mem_dispatched h
    rw [dispatched_env hr ha hst] at hm
    cases hm

/-- A step of a pass that goes on: the position moves forward past what is dispatched. -/
theorem pos_step (hr : RunOk s) (hst : sysStep s a = some (s', es)) (hp : s.pc.InPass k) :
    (∀ i ∈ dispatched es, i = s.pc.pos) ∧ (dispatched es).Nodup ∧
      (s'.pc.InPass k → s.pc.pos ≤ s'.pc.pos ∧ ∀ i ∈ dispatched es, i < s'.pc.pos) := by
  by_cases ha : a = .sched
  · subst ha
    cases sched_cases hst with
    | top _ hpc | noBoost hpc | boost hpc | boosted hpc | wake hpc =>
      rw [hpc] at hp
      exact hp.elim
    | dispatch hpc =>
      rw [hpc]
      refine ⟨fun i hi => mem_singleton.1 hi, pairwise_singleton .., fun _ => ⟨Nat.le_succ _, fun i hi => ?_⟩⟩
      rw [mem_singleton.1 hi]
      exact Nat.lt_succ_self _
    | skip hpc =>
      rw [hpc]
      exact ⟨nofun, nodup_nil, fun _ => ⟨Nat.le_succ _, nofun⟩⟩
    | restart | idle => exact ⟨nofun, nodup_nil, fun h => h.elim⟩
    | next hpc =>
      rw [hpc] at hp
      refine ⟨nofun, nodup_nil, fun h => ?_⟩
      exact absurd (h.trans hp.symm) (Nat.succ_ne_self _)
  · rw [dispatched_env hr ha hst]
    refine ⟨nofun, nodup_nil, fun _ => ⟨?_, nofun⟩⟩
    rcases (env_result hr ha hst).pc with ⟨e, -⟩ | ⟨prio, i, e, e'⟩
    · exact Nat.le_of_eq (by rw [e])
    · exact Nat.le_of_eq (by rw [e, e']; rfl)

/-- In a pass no process is dispatched twice. -/
theorem pass_nodup (hr : RunOk s) (h : Exec sysStep (fun s _ => s.pc.InPass k) s es s') : (dispatched es).Nodup := by
  have hinv : RunOk s' ∧ (dispatched es).Nodup ∧ (s'.pc.InPass k → ∀ i ∈ dispatched es, i < s'.pc.pos) := by
    refine h.invariant (I := fun es s => RunOk s ∧ (dispatched es).Nodup ∧
      (s.pc.InPass k → ∀ i ∈ dispatched es, i < s.pc.pos)) ⟨hr, nodup_nil, fun _ => nofun⟩ ?_
    rintro es es' s s' a ⟨hr, hn, hlt⟩ hp hst
    obtain ⟨heq, hn', hpos⟩ := pos_step hr hst hp
    rw [dispatched_append]
    refine ⟨runOk_step hr hst, nodup_append.2 ⟨hn, hn', ?_⟩, fun hp' i hi => ?_⟩
    · rintro i hi _ hi' rfl
      have := hlt hp i hi
      rw [heq i hi'] at this
      exact Nat.lt_irrefl _ this
    · rcases mem_append.1 hi with hi | hi
      · exact Nat.lt_of_lt_of_le (hlt hp i hi) (hpos hp').1
      · exact (hpos hp').2 i hi
  exact hinv.2.1

/-! ## Waiting for a turn -/

/-- In a pass over queue `prio` that is at position `i`, process `r` of queue `k` comes before the next
time process `q` of that queue does. -/
def DueAt (k q r prio i : Nat) : Prop :=
  (prio = k → q < i ∨ i ≤ r) ∧ (r < q ∨ (prio = k ∧ q < i ∧ i ≤ r))

def Pc.DueBefore (k q r : Nat) : Pc → Prop
  | .scan prio i _ => DueAt k q r prio i
  | .run prio i => DueAt k q r prio (i + 1)
  | _ => r < q

variable {prio : Nat} {p : Proc}

/-- A pass from the start of the table. -/
theorem DueAt.of_lt (h : r < q) : DueAt k q r prio 0 := ⟨fun _ => .inr (Nat.zero_le r), .inl h⟩

/-- At the end of the table. -/
theorem DueAt.lt_of_end (h : DueAt k q r prio i) (hi : NPROC ≤ i) (hr : r < NPROC) : r < q := by
  rcases h.2 with h | ⟨-, -, h⟩
  · exact h
  · omega

/-- Past a process that is not `r`, or of another queue. -/
theorem DueAt.succ (h : DueAt k q r prio i) (hi : prio = k → i ≠ r) : DueAt k q r prio (i + 1) := by
  refine ⟨fun e => ?_, ?_⟩
  · have := h.1 e
    have := hi e
    omega
  · rcases h.2 with h | ⟨e, hq, hr⟩
    · exact .inl h
    · have := hi e
      exact .inr ⟨e, by omega, by omega⟩

/-- It is not the turn of `q`. -/
theorem DueAt.ne (h : DueAt k q r k i) (hne : r ≠ q) : i ≠ q := by
  rintro rfl
  have := h.1 rfl
  rcases h.2 with h | ⟨-, h, -⟩ <;> omega

/-- Only the scheduler changes who is due. -/
theorem dueBefore_env (hr : RunOk s) (ha : a ≠ .sched) (hst : sysStep s a = some (s', es)) (hd : s.pc.DueBefore k q r) :
    s'.pc.DueBefore k q r := by
  rcases (env_result hr ha hst).pc with ⟨e, -⟩ | ⟨prio, i, e, e'⟩
  · rw [e]
    exact hd
  · rw [e] at hd
    rw [e']
    exact hd

/-- While process `r` waits, due before `q`, a step does not dispatch `q`, and dispatches `r` or leaves it
due. -/
theorem dueBefore_step (hr : RunOk s) (hrn : r < NPROC) (hne : r ≠ q) (hw : Waits k r s) (hd : s.pc.DueBefore k q r)
    (hst : sysStep s a = some (s', es)) : .dispatch q k ∉ es ∧ (.dispatch r k ∈ es ∨ s'.pc.DueBefore k q r) := by
  by_cases ha : a = .sched
  · subst ha
    cases sched_cases hst with
    | top _ hpc | wake hpc =>
      rw [hpc] at hd
      exact ⟨nofun, .inr hd⟩
    | boost hpc =>
      rw [hpc] at hd
      refine ⟨?_, .inr hd⟩
      split <;> simp
    | noBoost hpc | boosted hpc =>
      rw [hpc] at hd
      exact ⟨nofun, .inr (.of_lt hd)⟩
    | dispatch hpc hi hrun hp =>
      rename_i prio i found
      rw [hpc] at hd
      refine ⟨fun hm => ?_, ?_⟩
      · cases mem_singleton.1 hm
        exact DueAt.ne hd hne rfl
      · by_cases e : prio = k ∧ i = r
        · obtain ⟨rfl, rfl⟩ := e
          exact .inl (mem_singleton.2 rfl)
        · exact .inr (DueAt.succ hd fun e' e'' => e ⟨e', e''⟩)
    | skip hpc hi hn =>
      rename_i prio i found
      rw [hpc] at hd
      refine ⟨nofun, .inr (DueAt.succ hd ?_)⟩
      -- the scan does not go past `r`
      rintro rfl rfl
      exact hn hw
    | restart hpc hi | idle hpc hi =>
      rw [hpc] at hd
      exact ⟨nofun, .inr (DueAt.lt_of_end hd hi hrn)⟩
    | next hpc hi =>
      rw [hpc] at hd
      exact ⟨nofun, .inr (.of_lt (DueAt.lt_of_end hd hi hrn))⟩
  · refine ⟨fun hm => ?_, .inr (dueBefore_env hr ha hst hd)⟩
    have := mem_dispatched hm
    rw [dispatched_env hr ha hst] at this
    cases this

/-- Process `r`, while it waits at priority `k`, goes on doing so until it is dispatched. -/
def Stays (k r : Nat) (s : Sys) (a : Act) : Prop :=
  Waits k r s → ∀ s' es, sysStep s a = some (s', es) → Waits k r s' ∨ .dispatch r k ∈ es

theorem dueBefore_run (hr : RunOk s₁) (hrn : r < NPROC) (hne : r ≠ q) (hw : Waits k r s₁) (hd : s₁.pc.DueBefore k q r)
    (h : Exec sysStep (Stays k r) s₁ es s₂) :
    RunOk s₂ ∧ (.dispatch r k ∈ es ∨ (Waits k r s₂ ∧ s₂.pc.DueBefore k q r)) := by
  refine h.invariant (I := fun es s => RunOk s ∧ (.dispatch r k ∈ es ∨ (Waits k r s ∧ s.pc.DueBefore k q r)))
    ⟨hr, .inr ⟨hw, hd⟩⟩ ?_
  rintro es es' s s' a ⟨hr, hI⟩ hc hst
  refine ⟨runOk_step hr hst, ?_⟩
  rcases hI with hm | ⟨hw, hd⟩
  · exact .inl (mem_append_left _ hm)
  · rcases (dueBefore_step hr hrn hne hw hd hst).2 with hm | hd'
    · exact .inl (mem_append_right _ hm)
    · rcases hc hw s' es' hst with hw' | hm
      · exact .inr ⟨hw', hd'⟩
      · exact .inl (mem_append_right _ hm)

/-- After a dispatch of `q` every other process of its queue is due before it. -/
theorem dueBefore_of_dispatch (hr : RunOk s) (hne : r ≠ q) (hst : sysStep s a = some (s', es)) (hq : .dispatch q k ∈ es) :
    s'.pc.DueBefore k q r := by
  rw [(dispatches_of_mem hr hst hq).pc]
  refine ⟨fun _ => .inl (Nat.lt_succ_self _), ?_⟩
  rcases Nat.lt_or_gt_of_ne hne with hlt | hgt
  · exact .inl hlt
  · exact .inr ⟨rfl, Nat.lt_succ_self _, hgt⟩

/-- Between two dispatches of a process at priority `k`, every other process that, from the first of them
on, is runnable at priority `k` until it is dispatched, is dispatched. In a pass over a queue no process is
dispatched twice. -/
theorem round_robin {es₀ : List Event} {s₀ : Sys} (h : Run Any es₀ s₀) (k : Nat) :
    (∀ q r s₁ s₂ s₃ a₁ a₂ es₁ es es₂, sysStep s₀ a₁ = some (s₁, es₁) → .dispatch q k ∈ es₁ →
      r < NPROC → r ≠ q → Waits k r s₁ → Exec sysStep (Stays k r) s₁ es s₂ →
      sysStep s₂ a₂ = some (s₃, es₂) → .dispatch q k ∈ es₂ → .dispatch r k ∈ es) ∧
    ∀ es s, Exec sysStep (fun s _ => s.pc.InPass k) s₀ es s → (dispatched es).Nodup := by
  have hr : RunOk s₀ := h.invariant (I := fun _ s => RunOk s) boot_runOk fun hr _ hst => runOk_step hr hst
  refine ⟨fun q r s₁ s₂ s₃ a₁ a₂ es₁ es es₂ h₁ hq hrn hne hw hseg h₂ hq' => ?_, fun es s hs => pass_nodup hr hs⟩
  have hd := dueBefore_of_dispatch hr hne h₁ hq
  obtain ⟨hr₂, hm | ⟨hw₂, hd₂⟩⟩ := dueBefore_run (runOk_step hr h₁) hrn hne hw hd hseg
  · exact hm
  · exact absurd hq' (dueBefore_step hr₂ hrn hne hw₂ hd₂ h₂).1

def isDispatch (i k : Nat) : Event → Bool
  | .dispatch i' k' => i' == i && k' == k
  | _ => false

theorem any_isDispatch : es.any (isDispatch i k) = true ↔ .dispatch i k ∈ es := by
  rw [any_eq_true]
  refine ⟨fun ⟨e, he, hm⟩ => ?_, fun h => ⟨_, h, by simp [isDispatch]⟩⟩
  cases e with
  | dispatch i' k' =>
    obtain ⟨rfl, rfl⟩ : i' = i ∧ k' = k := by simpa [isDispatch] using hm
    exact he
  | alloc | boost | charge => cases hm

/-- Whether process `r`, if it waits, goes on waiting or is dispatched. -/
def staysCheck (k r : Nat) (s : Sys) (a : Act) : Bool :=
  !decide (Waits k r s) || (sysStep s a).all fun (s', es) => decide (Waits k r s') || es.any (isDispatch r k)

theorem stays_of_check (s : Sys) (a : Act) (h : staysCheck k r s a = true) : Stays k r s a := by
  intro hw s' es hst
  rw [staysCheck, decide_eq_true hw, hst, Bool.not_true, Bool.false_or, Option.all_some, Bool.or_eq_true,
    decide_eq_true_eq, any_isDispatch] at h
  exact h

/-- Init forks process 1 and both run once, up to the start of the next pass. -/
def forkPass : List Act :=
  List.replicate 2 .sched ++ [.allocproc 1, .forked 1, .timerUser, .sched, .timerUser] ++ List.replicate 64 .sched

/-- The rest of a pass in which both run, up to the start of the next. -/
def turnActs : List Act := [.timerUser, .sched, .timerUser] ++ List.replicate 64 .sched

theorem round_robin_two : ∃ es₀ s₀ s₁ s₂ s₃ es₁ es es₂, Run Any es₀ s₀ ∧ sysStep s₀ .sched = some (s₁, es₁) ∧
    .dispatch 0 0 ∈ es₁ ∧ sysStep s₂ .sched = some (s₃, es₂) ∧ .dispatch 0 0 ∈ es₂ ∧ .dispatch 1 0 ∈ es ∧
    Exec sysStep (Stays 0 1) s₁ es s₂ := by
  have h : ((runActs sysStep boot forkPass).any fun (s₀, _) => (sysStep s₀ .sched).any fun (s₁, es₁) =>
      decide (Waits 0 1 s₁) && es₁.any (isDispatch 0 0) &&
        (runActs (fun s a => if staysCheck 0 1 s a then sysStep s a else none) s₁ turnActs).any fun (s₂, _) =>
          (sysStep s₂ .sched).any fun (_, es₂) => es₂.any (isDispatch 0 0)) = true := by
    decide +kernel
  simp only [Option.any_eq_true, Prod.exists, Bool.and_eq_true, any_isDispatch, decide_eq_true_eq] at h
  obtain ⟨s₀, es₀, hrun, s₁, es₁, h₁, ⟨hw, hq⟩, s₂, es, hseg, s₃, es₂, h₂, hq'⟩ := h
  have hseg := (exec_of_run hseg).of_check stays_of_check
  exact ⟨es₀, s₀, s₁, s₂, s₃, es₁, es, es₂, exec_of_run hrun, h₁, hq, h₂, hq',
    (round_robin (exec_of_run hrun) 0).1 0 1 s₁ s₂ s₃ _ _ es₁ es es₂ h₁ hq (by decide) (by decide) hw hseg h₂ hq', hseg⟩

/-! ## The low queue -/

/-- The action makes process `j` runnable in the low queue, as far as the state before shows: it wakes up
or forks a process of that priority, or is a tick of the running process, which is then of that priority. -/
def Act.Enters (s : Sys) (j : Nat) (a : Act) : Prop :=
  (a.Wakes s j ∧ (s.proc j).priority = 2) ∨
    ((a = .timerUser ∨ a = .timerKernel) ∧ s.myproc = some j ∧ (s.proc j).charge.priority = 2)

/-- Process `q` is ahead of the others: while it runs none of them waits in the low queue, and one that
enters the queue is due after `q`. -/
def Ahead (q : Nat) (s : Sys) (a : Act) : Prop :=
  ∀ r < NPROC, r ≠ q → (s.myproc = some q → ¬Waits 2 r s) ∧ (a.Enters s r → s.pc.DueBefore 2 r q)

theorem enters_of_waits (hr : RunOk s) (ha : a ≠ .sched) (hst : sysStep s a = some (s', es)) (hj : Waits 2 j s') :
    Waits 2 j s ∨ a.Enters s j := by
  have hres := env_result hr ha hst
  have hkeep : ∀ {st}, (s.proc j).state = st → st ≠ .unused → st ≠ .running → (s.proc j).priority = 2 := fun hs hu hn => by
    rw [← (hres.slot j).priority (hs ▸ hu) fun e => absurd e (not_running hr hs hn)]
    exact hj.2
  by_cases hjs : (s.proc j).state = .runnable
  · exact .inl ⟨hjs, hkeep hjs (by decide) (by decide)⟩
  · rcases hres.woken j hjs hj.1 with hwk | ⟨hticks, hcur, hp⟩
    · refine .inr (.inl ⟨hwk, ?_⟩)
      cases a with
      | intr | wakeup | timerUser | timerKernel => exact hkeep hwk.1 (by decide) (by decide)
      | forked | kkill => exact hkeep hwk.2 (by decide) (by decide)
      | sched | allocproc | freeproc | sleep | kexit => exact hwk.elim
    · exact .inr (.inr ⟨hticks, hcur, hp.symm.trans hj.2⟩)

theorem waits_set_self : Waits k j (s.set j p) ↔ p.state = .runnable ∧ p.priority = k := by
  rw [Waits, set_proc_self]

theorem waits_set_ne (h : j ≠ i) : Waits k j (s.set i p) ↔ Waits k j s := by
  rw [Waits, set_proc_ne _ _ h, Waits]

/-- The scheduler puts no process into a queue below the first. -/
theorem waits_of_sched (hst : sysStep s .sched = some (s', es)) (hk : k ≠ 0) (hj : Waits k j s') : Waits k j s := by
  cases sched_cases hst with
  | top | noBoost | boosted | skip | restart | next | idle | wake => exact hj
  | @boost _ i =>
    by_cases e : j = i
    · subst e
      have hp := waits_set_self.1 hj
      rw [Proc.boost] at hp
      split at hp
      · exact absurd hp.2.symm hk
      · exact hp
    · exact (waits_set_ne e).1 hj
  | @dispatch _ i =>
    by_cases e : j = i
    · subst e
      cases (waits_set_self.1 hj).1
    · exact (waits_set_ne e).1 hj

/-- A process that waits goes on doing so, unless it is dispatched or boosted. -/
theorem waits_step (hr : RunOk s) (hst : sysStep s a = some (s', es)) (hw : Waits k j s) (hb : .boost j ∉ es)
    (hd : .dispatch j k ∉ es) : Waits k j s' := by
  by_cases ha : a = .sched
  · subst ha
    cases sched_cases hst with
    | top | noBoost | boosted | skip | restart | next | idle | wake => exact hw
    | @boost _ i =>
      have hu : (s.proc j).state ≠ .unused := by rw [hw.1]; decide
      have hne : j ≠ i := by
        rintro rfl
        rw [if_pos hu] at hb
        exact hb (mem_singleton.2 rfl)
      exact (waits_set_ne hne).2 hw
    | @dispatch prio i _ hpc hi hrun hp =>
      have hne : j ≠ i := by
        rintro rfl
        rw [← hw.2, hp] at hd
        exact hd (mem_singleton.2 rfl)
      exact (waits_set_ne hne).2 hw
  · have hcur : s.myproc ≠ some j := not_running hr hw.1 (by decide)
    have hres := env_result hr ha hst
    refine ⟨hres.stays j hw.1, ?_⟩
    rw [(hres.slot j).priority (by rw [hw.1]; decide) fun e => absurd e hcur]
    exact hw.2

/-- Process `q` was preempted by a tick at priority 2, and since then neither it was dispatched nor any process
boosted; the tick and the steps since meet `C`. -/
def Preempted (C : Sys → Act → Prop) (q : Nat) (s : Sys) : Prop :=
  ∃ es₀ s₀ a s₁ es₁ es, Run Any es₀ s₀ ∧ C s₀ a ∧ sysStep s₀ a = some (s₁, es₁) ∧ .charge q 2 ∈ es₁ ∧
    Exec sysStep C s₁ es s ∧ (∀ i, .boost i ∉ es) ∧ ∀ k, .dispatch q k ∉ es

/-- The process that a tick charges in the low queue is preempted there. -/
theorem waits_of_charge (hr : RunOk s) (hst : sysStep s a = some (s', es)) (h : .charge q 2 ∈ es) :
    a ≠ .sched ∧ s.myproc = some q ∧ q < NPROC ∧ Waits 2 q s' := by
  by_cases ha : a = .sched
  · subst ha
    cases sched_cases hst with
    | top | noBoost | boosted | skip | restart | next | idle | wake => cases h
    | boost => split at h <;> simp at h
    | dispatch => simp at h
  · have hm : Event.charge q 2 ∈ about q es := mem_filter.2 ⟨h, decide_eq_true rfl⟩
    have hq := (env_result hr ha hst).slot q
    rw [Waits]
    generalize about q es = l, hp : s.proc q = p, s'.proc q = p' at hm hq
    cases hq with
    | keep | alloc => simp at hm
    | charge hcur =>
      obtain ⟨prio, hpc⟩ := myproc_eq hcur
      have he := (Event.charge.inj (mem_singleton.1 hm)).2
      refine ⟨ha, hcur, (hr prio q hpc).1, rfl, ?_⟩
      simp [Proc.charge, ← he]

/-- Process `q` waits in the low queue, and the others that wait there are due after it. -/
structure First (q : Nat) (s : Sys) : Prop where
  runOk : RunOk s
  lt : q < NPROC
  waits : Waits 2 q s
  after : ∀ r < NPROC, r ≠ q → Waits 2 r s → s.pc.DueBefore 2 r q

theorem First.of_charge (hr : RunOk s) (hc : Ahead q s a) (hst : sysStep s a = some (s', es)) (h : .charge q 2 ∈ es) :
    First q s' := by
  obtain ⟨ha, hcur, hq, hw⟩ := waits_of_charge hr hst h
  refine ⟨runOk_step hr hst, hq, hw, fun r hrn hne hwr => ?_⟩
  rcases enters_of_waits hr ha hst hwr with hwr | he
  · exact absurd hwr ((hc r hrn hne).1 hcur)
  · exact dueBefore_env hr ha hst ((hc r hrn hne).2 he)

theorem First.step (h : First q s) (hc : Ahead q s a) (hst : sysStep s a = some (s', es)) (hb : .boost q ∉ es)
    (hd : .dispatch q 2 ∉ es) : First q s' := by
  refine ⟨runOk_step h.runOk hst, h.lt, waits_step h.runOk hst h.waits hb hd, fun r hrn hne hw => ?_⟩
  have hdue : s.pc.DueBefore 2 r q := by
    by_cases ha : a = .sched
    · subst ha
      exact h.after r hrn hne (waits_of_sched hst (by decide) hw)
    · rcases enters_of_waits h.runOk ha hst hw with hw | he
      · exact h.after r hrn hne hw
      · exact (hc r hrn hne).2 he
  exact (dueBefore_step h.runOk h.lt (Ne.symm hne) h.waits hdue hst).2.resolve_left hd

/-- A process that is preempted in the low queue with no other waiting there, and behind which the others come
into the queue, is dispatched again before them. -/
theorem low_queue_fcfs (h : Preempted (Ahead q) q s) (hst : sysStep s a = some (s', es)) (hne : r ≠ q) :
    .dispatch r 2 ∉ es := by
  obtain ⟨es₀, s₀, a₀, s₁, es₁, es₂, hrun, hc, h₁, hch, hseg, hb, hd⟩ := h
  have hr₀ : RunOk s₀ := hrun.invariant (I := fun _ s => RunOk s) boot_runOk fun hr _ hst => runOk_step hr hst
  have hinv : .boost q ∉ es₂ → .dispatch q 2 ∉ es₂ → First q s := by
    refine hseg.invariant (I := fun es s => .boost q ∉ es → .dispatch q 2 ∉ es → First q s)
      (fun _ _ => .of_charge hr₀ hc h₁ hch) ?_
    intro es es' s s' a hI hc hst hb hd
    simp only [mem_append, not_or] at hb hd
    exact (hI hb.1 hd.1).step hc hst hb.2 hd.2
  have hfirst := hinv (hb q) (hd 2)
  intro hm
  obtain ⟨hrn, hw, -⟩ := dispatches_of_mem hfirst.runOk hst hm
  exact (dueBefore_step hfirst.runOk hfirst.lt (Ne.symm hne) hfirst.waits (hfirst.after r hrn hne hw) hst).1 hm

def isCharge (i k : Nat) : Event → Bool
  | .charge i' k' => i' == i && k' == k
  | _ => false

theorem any_isCharge (h : es.any (isCharge i k) = true) : .charge i k ∈ es := by
  rw [any_eq_true] at h
  obtain ⟨e, he, hm⟩ := h
  cases e with
  | charge i' k' =>
    obtain ⟨rfl, rfl⟩ : i' = i ∧ k' = k := by simpa [isCharge] using hm
    exact he
  | alloc | boost | dispatch => cases hm

/-- A pass in which init and process 1 both run at priority `k`. -/
def pairPass (k : Nat) : List Act :=
  List.replicate (65 * k + 2) .sched ++ [.timerUser, .sched, .timerUser] ++ List.replicate 63 .sched

/-- Init forks process 1, both use up their ticks in the first two queues, and init is dispatched from the low
queue. -/
def pairSinks : List Act :=
  List.replicate 2 .sched ++ [.allocproc 1, .forked 1, .timerUser, .sched, .timerUser] ++ List.replicate 63 .sched ++
    (List.replicate (LIMIT_Q0 - 1) (pairPass 0)).flatten ++ (List.replicate LIMIT_Q1 (pairPass 1)).flatten ++
    List.replicate (65 * 2 + 2) .sched

instance (k q r : Nat) : (pc : Pc) → Decidable (pc.DueBefore k q r)
  | .scan .. | .run .. => inferInstanceAs (Decidable ((_ → _) ∧ _))
  | .top | .boost .. | .wfi => inferInstanceAs (Decidable (_ < _))

instance (s : Sys) (j : Nat) : (a : Act) → Decidable (a.Wakes s j)
  | .intr _ | .wakeup _ | .timerUser | .timerKernel | .forked _ | .kkill .. => inferInstanceAs (Decidable (_ ∧ _))
  | .sched | .allocproc _ | .freeproc _ | .sleep _ | .kexit => inferInstanceAs (Decidable False)

instance (s : Sys) (j : Nat) (a : Act) : Decidable (a.Enters s j) := inferInstanceAs (Decidable (_ ∨ _))

instance (q : Nat) (s : Sys) (a : Act) : Decidable (Ahead q s a) :=
  inferInstanceAs (Decidable (∀ r < NPROC, r ≠ q → (_ → _) ∧ (_ → _)))

def aheadCheck (q : Nat) (s : Sys) (a : Act) : Bool := decide (Ahead q s a)

/-- After `pairSinks` process 1 has its turn and sleeps, and init is dispatched again. -/
def pairSleeps : List Act :=
  pairSinks ++ [.timerUser, .sched, .sleep 7] ++ List.replicate (63 + 65 * 2 + 2) .sched

/-- The scan goes past process 1, which is then woken up, and comes to init. -/
def wokenBehind : List Act := [.sched, .intr 7] ++ List.replicate (63 + 65 * 2 + 1) .sched

/-- Init is dispatched while process 1 waits in the low queue too. -/
theorem low_queue_fcfs_woken : ∃ s s' es, Preempted (Ahead 0) 0 s ∧ Waits 2 0 s ∧ Waits 2 1 s ∧
    sysStep s .sched = some (s', es) ∧ .dispatch 0 2 ∈ es ∧ .dispatch 1 2 ∉ es := by
  have h : ((runActs sysStep boot pairSleeps).any fun (s₀, _) => aheadCheck 0 s₀ .timerUser &&
      (sysStep s₀ .timerUser).any fun (s₁, es₁) => es₁.any (isCharge 0 2) &&
        (runActs (fun s a => if aheadCheck 0 s a then sysStep s a else none) s₁ wokenBehind).any fun (s, es) =>
          decide (es = [] ∧ Waits 2 0 s ∧ Waits 2 1 s) && (sysStep s .sched).any fun (_, es') =>
            es'.any (isDispatch 0 2)) = true := by
    decide +kernel
  simp only [Option.any_eq_true, Prod.exists, Bool.and_eq_true, any_isDispatch, decide_eq_true_eq] at h
  obtain ⟨s₀, es₀, hrun, hc, s₁, es₁, h₁, hch, s, es, hseg, ⟨rfl, hw, hw'⟩, s', es', hst, hd⟩ := h
  have hp : Preempted (Ahead 0) 0 s := ⟨es₀, s₀, _, s₁, es₁, [], exec_of_run hrun, of_decide_eq_true hc, h₁, any_isCharge hch,
    (exec_of_run hseg).of_check fun _ _ => of_decide_eq_true, nofun, nofun⟩
  exact ⟨s, s', es', hp, hw, hw', hst, hd, low_queue_fcfs hp hst (by decide)⟩

/-- The low queue is not first-come, first-served: init is preempted by a tick at priority 2, and process 1 is
dispatched at priority 2 before it. -/
theorem low_queue_takes_turns : ¬∀ q r s a s' es, Preempted Any q s → sysStep s a = some (s', es) → r ≠ q →
    .dispatch r 2 ∉ es := by
  intro hall
  have h : ((runActs sysStep boot pairSinks).any fun (s₀, _) => (sysStep s₀ .timerUser).any fun (s₁, es₁) =>
      es₁.any (isCharge 0 2) && (sysStep s₁ .sched).any fun (_, es) => es.any (isDispatch 1 2)) = true := by
    decide +kernel
  simp only [Option.any_eq_true, Prod.exists, Bool.and_eq_true, any_isDispatch] at h
  obtain ⟨s₀, es₀, hrun, s₁, es₁, h₁, hch, s', es, hst, hd⟩ := h
  exact hall 0 1 s₁ _ s' es ⟨es₀, s₀, _, s₁, es₁, [], exec_of_run hrun, trivial, h₁, any_isCharge hch, .refl, nofun,
    nofun⟩ hst (by decide) hd

end Xv6.Sched
