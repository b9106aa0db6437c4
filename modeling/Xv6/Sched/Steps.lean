import Xv6.Sched.Model

/-!
# What a step does to one process

`env_slot` says once what a step other than the scheduler's does to each
process of the table, and `env_pc` where it leaves the scheduler; `sched_cases`
lists the scheduler's own steps. The invariants are derived from these.
-/

namespace Xv6.Sched

/-- The process an event is about. -/
def Event.slot : Event → Nat
  | .alloc i | .boost i | .charge i _ | .dispatch i _ => i

/-- The events about process `j`. -/
def about (j : Nat) (es : List Event) : List Event := es.filter fun e => e.slot = j


@[simp] theorem about_append (j : Nat) (es es' : List Event) :
    about j (es ++ es') = about j es ++ about j es' := List.filter_append ..

variable {j i prio : Nat} {es : List Event} {cur : Option Nat} {p p' : Proc} {s s' : Sys} {a : Act}

theorem about_self (h : ∀ e ∈ es, e.slot = j) : about j es = es :=
  List.filter_eq_self.2 fun x hx => by simpa using h x hx

theorem about_other (h : ∀ e ∈ es, e.slot = i) (hj : j ≠ i) : about j es = [] :=
  List.filter_eq_nil_iff.2 fun x hx => by simpa [h x hx] using Ne.symm hj

/-- The scheduling fields are kept, and no unused process comes to life. -/
structure Kept (p p' : Proc) : Prop where
  priority : p'.priority = p.priority
  ticksCount : p'.ticksCount = p.ticksCount
  ticksInQ : p'.ticksInQ = p.ticksInQ
  live : p'.state ≠ .unused → p.state ≠ .unused

theorem Kept.refl (p : Proc) : Kept p p := ⟨rfl, rfl, rfl, id⟩

/-- What a step other than the scheduler's does to process `j`, while `cur` runs. -/
inductive EnvStep (cur : Option Nat) (j : Nat) : List Event → Proc → Proc → Prop
  | keep {p p' : Proc} : Kept p p' → EnvStep cur j [] p p'
  | alloc {p : Proc} (pid : BitVec 32) : p.state = .unused → EnvStep cur j [.alloc j] p (p.alloc pid)
  | charge {p : Proc} : cur = some j →
      EnvStep cur j [.charge j p.priority] p { p.charge with state := .runnable }

/-- The priority of a live process changes only when it is charged, and yields. -/
theorem EnvStep.priority (h : EnvStep cur j es p p') (hu : p.state ≠ .unused) (hc : cur = some j → p'.state ≠ .runnable) :
    p'.priority = p.priority := by
  cases h with
  | keep k => exact k.priority
  | alloc _ h => exact absurd h hu
  | charge h => exact absurd rfl (hc h)

theorem priority_le_charge (p : Proc) : p.priority ≤ p.charge.priority := by
  simp only [Proc.charge]
  split
  · split <;> simp only <;> omega
  · split
    · split <;> simp only <;> omega
    · exact Nat.le_refl _

theorem EnvStep.priority_le (h : EnvStep cur j es p p') (hu : p.state ≠ .unused) : p.priority ≤ p'.priority := by
  cases h with
  | keep k => exact Nat.le_of_eq k.priority.symm
  | alloc _ h => exact absurd h hu
  | charge => exact priority_le_charge p

/-! ## Field lemmas -/

@[simp] theorem set_proc_self (s : Sys) (j : Nat) (p : Proc) : (s.set j p).proc j = p :=
  Function.update_self ..
@[simp] theorem resched_proc (s : Sys) (prio i : Nat) : (s.resched prio i).proc = s.proc := rfl
@[simp] theorem clockintr_pc (s : Sys) : (clockintr s).pc = s.pc := rfl

theorem set_proc_ne (s : Sys) (p : Proc) (h : i ≠ j) : (s.set j p).proc i = s.proc i :=
  Function.update_of_ne h ..

theorem kept_wake (p : Proc) (chan : Nat) : Kept p (p.wake chan) := by
  rw [Proc.wake]
  split
  · rename_i h
    exact ⟨rfl, rfl, rfl, fun _ => by rw [h.1]; decide⟩
  · exact .refl p

theorem kept_wakeup (s : Sys) (chan j : Nat) : Kept (s.proc j) ((wakeup s chan).proc j) := by
  rw [wakeup]
  dsimp only
  split
  · exact kept_wake ..
  · exact .refl _

theorem kept_clockintr (s : Sys) (j : Nat) : Kept (s.proc j) ((clockintr s).proc j) :=
  kept_wakeup { s with ticks := s.ticks + 1 } ticksChan j

/-- `wakeup` skips the process that runs. -/
theorem clockintr_run (h : s.pc = .run prio i) : (clockintr s).proc i = s.proc i := by
  simp [clockintr, wakeup, Sys.myproc, h]

theorem kept_kill (p : Proc) : Kept p p.kill := by
  refine ⟨rfl, rfl, rfl, ?_⟩
  intro h hu
  simp [Proc.kill, hu] at h

/-- A change of state of a process that is not unused. -/
theorem kept_of_state (h₁ : p'.priority = p.priority) (h₂ : p'.ticksCount = p.ticksCount)
    (h₃ : p'.ticksInQ = p.ticksInQ) (h : p.state ≠ .unused) : Kept p p' :=
  ⟨h₁, h₂, h₃, fun _ => h⟩

/-- A change at process `i` only. -/
theorem env_set (hes : ∀ e ∈ es, e.slot = i) (h : EnvStep cur i es (s.proc i) p) (j : Nat) :
    EnvStep cur j (about j es) (s.proc j) ((s.set i p).proc j) := by
  by_cases hj : j = i
  · subst hj
    rwa [about_self hes, set_proc_self]
  · rw [about_other hes hj, set_proc_ne _ _ hj]
    exact .keep (.refl _)

/-! ## Steps of the running process and of interrupts -/

/-- The process that runs is marked so, at the priority it was found at. -/
def RunOk (s : Sys) : Prop :=
  ∀ prio i, s.pc = .run prio i → i < NPROC ∧ (s.proc i).state = .running ∧ (s.proc i).priority = prio

/-- The action finds process `j` of `s` sleeping, or just forked, and makes it runnable. -/
def Act.Wakes (s : Sys) (j : Nat) : Act → Prop
  | .intr chan | .wakeup chan => (s.proc j).state = .sleeping ∧ (s.proc j).chan = chan
  | .timerUser | .timerKernel => (s.proc j).state = .sleeping ∧ (s.proc j).chan = ticksChan
  | .forked k => j = k ∧ (s.proc j).state = .used
  | .kkill _ k => j = k ∧ (s.proc j).state = .sleeping
  | _ => False

/-- `t` is `s` after the processes that the action finds asleep were woken up. -/
structure Woken (s : Sys) (a : Act) (t : Sys) : Prop where
  kept : ∀ j, Kept (s.proc j) (t.proc j)
  woken : ∀ j, (s.proc j).state ≠ .runnable → (t.proc j).state = .runnable → a.Wakes s j
  stays : ∀ j, (s.proc j).state = .runnable → (t.proc j).state = .runnable

/-- What a step other than the scheduler's does. -/
structure EnvResult (s : Sys) (a : Act) (es : List Event) (s' : Sys) : Prop where
  slot : ∀ j, EnvStep s.myproc j (about j es) (s.proc j) (s'.proc j)
  /-- The scheduler stays where it is, and so does the process it runs, or the
  process returns to the scan. -/
  pc : (s'.pc = s.pc ∧ ∀ i, s.myproc = some i → (s'.proc i).state = (s.proc i).state) ∨
    ∃ prio i, s.pc = .run prio i ∧ s'.pc = .scan prio (i + 1) true
  /-- A process that becomes runnable is the one that a tick finds running, or one that was woken up. -/
  woken : ∀ j, (s.proc j).state ≠ .runnable → (s'.proc j).state = .runnable → a.Wakes s j ∨
    (a = .timerUser ∨ a = .timerKernel) ∧ s.myproc = some j ∧ (s'.proc j).priority = (s.proc j).charge.priority
  stays : ∀ j, (s.proc j).state = .runnable → (s'.proc j).state = .runnable

theorem myproc_eq (h : s.myproc = some i) : ∃ prio, s.pc = .run prio i := by
  unfold Sys.myproc at h
  split at h
  · rename_i prio i' e
    cases h
    exact ⟨prio, e⟩
  · cases h

theorem myproc_run (h : s.pc = .run prio i) : s.myproc = some i := by
  rw [Sys.myproc, h]

theorem wakeup_myproc (chan : Nat) (h : s.myproc = some i) : (wakeup s chan).proc i = s.proc i := by
  simp [wakeup, h]

theorem Woken.refl (s : Sys) (a : Act) : Woken s a s :=
  ⟨fun _ => .refl _, fun _ hn hj => absurd hj hn, fun _ => id⟩

theorem woken_wakeup {chan : Nat} (hw : ∀ j, (s.proc j).state = .sleeping ∧ (s.proc j).chan = chan → a.Wakes s j) :
    Woken s a (wakeup s chan) := by
  refine ⟨kept_wakeup s chan, fun j hn hr => hw j ?_, fun j h => ?_⟩
  · simp only [wakeup, Proc.wake] at hr
    split at hr
    · split at hr
      · assumption
      · exact absurd hr hn
    · exact absurd hr hn
  · have hne : ¬((s.proc j).state = .sleeping ∧ (s.proc j).chan = chan) := by simp [h]
    simp only [wakeup, Proc.wake, if_neg hne, ite_self]
    exact h

theorem woken_clockintr (ha : a = .timerUser ∨ a = .timerKernel) : Woken s a (clockintr s) := by
  have h : Woken { s with ticks := s.ticks + 1 } a (clockintr s) := woken_wakeup fun j hj => by
    rcases ha with rfl | rfl <;> exact hj
  refine ⟨h.kept, fun j hn hr => ?_, h.stays⟩
  rcases ha with rfl | rfl <;> exact h.woken j hn hr

theorem Woken.env {t : Sys} (h : Woken s a t) (hpc : t.pc = s.pc) (hcur : ∀ i, s.myproc = some i → t.proc i = s.proc i) :
    EnvResult s a [] t :=
  ⟨fun j => .keep (h.kept j), .inl ⟨hpc, fun i hi => by rw [hcur i hi]⟩, fun j hn hr => .inl (h.woken j hn hr), h.stays⟩

theorem env_wakeup {chan : Nat} (ha : a = .intr chan ∨ a = .wakeup chan) : EnvResult s a [] (wakeup s chan) := by
  refine (woken_wakeup fun j hj => ?_).env rfl fun _ => wakeup_myproc chan
  rcases ha with rfl | rfl <;> exact hj

theorem env_clockintr (s : Sys) : EnvResult s .timerKernel [] (clockintr s) := by
  refine (woken_clockintr (.inr rfl)).env rfl fun i h => ?_
  obtain ⟨prio, h⟩ := myproc_eq h
  exact clockintr_run h

/-- A step that changes one process, not the running one unless its state is kept. -/
theorem env_at (hp : s'.proc = (s.set j p).proc) (hpc : s'.pc = s.pc) (hes : ∀ e ∈ es, e.slot = j)
    (h : EnvStep s.myproc j es (s.proc j) p) (hj : s.myproc = some j → p.state = (s.proc j).state)
    (hw : (s.proc j).state ≠ .runnable → p.state = .runnable → a.Wakes s j)
    (hs : (s.proc j).state = .runnable → p.state = .runnable) : EnvResult s a es s' := by
  refine ⟨fun k => by rw [hp]; exact env_set hes h k, .inl ⟨hpc, fun i hi => ?_⟩, fun i hn hr => .inl ?_, fun i hr => ?_⟩
  · rw [hp]
    by_cases e : i = j
    · subst e
      rw [set_proc_self, hj hi]
    · rw [set_proc_ne _ _ e]
  · rw [hp] at hr
    by_cases e : i = j
    · subst e
      rw [set_proc_self] at hr
      exact hw hn hr
    · rw [set_proc_ne _ _ e] at hr
      exact absurd hr hn
  · rw [hp]
    by_cases e : i = j
    · subst e
      rw [set_proc_self]
      exact hs hr
    · rwa [set_proc_ne _ _ e]

theorem RunOk.live (hs : RunOk s) (hr : s.pc = .run prio i) : (s.proc i).state ≠ .unused := by
  rw [(hs prio i hr).2.1]
  decide

/-- The running process switches to the scheduler, after a tick or not. -/
theorem env_resched {t : Sys} (hs : RunOk s) (hr : s.pc = .run prio i) (ht : Woken s a t) (hes : ∀ e ∈ es, e.slot = i)
    (h : EnvStep s.myproc i es (s.proc i) p) (hp : p.state = .runnable → (a = .timerUser ∨ a = .timerKernel) ∧
      p.priority = (s.proc i).charge.priority) : EnvResult s a es ((t.set i p).resched prio i) := by
  refine ⟨fun j => ?_, .inr ⟨prio, i, hr, rfl⟩, fun j hn hj => ?_, fun j hj => ?_⟩
  · by_cases hj : j = i
    · subst hj
      rwa [about_self hes, resched_proc, set_proc_self]
    · rw [about_other hes hj, resched_proc, set_proc_ne _ _ hj]
      exact .keep (ht.kept j)
  · by_cases e : j = i
    · subst e
      rw [resched_proc, set_proc_self] at hj ⊢
      exact .inr ⟨(hp hj).1, myproc_run hr, (hp hj).2⟩
    · rw [resched_proc, set_proc_ne _ _ e] at hj
      exact .inl (ht.woken j hn hj)
  · have hne : j ≠ i := fun e => by
      rw [e, (hs prio i hr).2.1] at hj
      cases hj
    rw [resched_proc, set_proc_ne _ _ hne]
    exact ht.stays j hj

theorem env_charge (hs : RunOk s) (ha : a = .timerUser ∨ a = .timerKernel) (hr : s.pc = .run prio i) :
    EnvResult s a (chargeAndYield (clockintr s) prio i).2 (chargeAndYield (clockintr s) prio i).1 := by
  rw [chargeAndYield, clockintr_run hr]
  exact env_resched hs hr (woken_clockintr ha) (by simp [Event.slot]) (.charge (myproc_run hr)) fun _ => ⟨ha, rfl⟩

theorem env_exit {t : Sys} (hs : RunOk s) (hr : s.pc = .run prio i) (ht : Woken s a t) (hi : t.proc i = s.proc i)
    (h : exitProc t prio i = some (s', es)) : EnvResult s a es s' := by
  rw [exitProc, hi] at h
  split at h
  · cases h
  · cases h
    exact env_resched hs hr ht (by simp) (.keep (kept_of_state rfl rfl rfl (hs.live hr))) nofun

theorem not_running (hs : RunOk s) {st : ProcState} (hj : (s.proc j).state = st) (h : st ≠ .running) :
    s.myproc ≠ some j := by
  intro e
  obtain ⟨prio, hr⟩ := myproc_eq e
  exact h (hj.symm.trans (hs prio j hr).2.1)

theorem proc_result (hs : RunOk s) (hr : s.pc = .run prio i) (h : procStep s prio i a = some (s', es)) :
    EnvResult s a es s' := by
  cases a with
  | sched | intr | timerKernel => cases h
  | wakeup chan =>
    cases h
    exact env_wakeup (.inr rfl)
  | allocproc j =>
    rw [procStep, Option.ite_none_right_eq_some] at h
    obtain ⟨⟨-, hu⟩, h⟩ := h
    cases h
    exact env_at rfl rfl (by simp [Event.slot]) (.alloc _ hu)
      (fun e => absurd e (not_running hs hu (by decide))) (fun _ e => by cases e) (by simp [hu])
  | forked j =>
    rw [procStep, Option.ite_none_right_eq_some] at h
    obtain ⟨⟨-, hu⟩, h⟩ := h
    cases h
    exact env_at rfl rfl (by simp) (.keep (kept_of_state rfl rfl rfl (by rw [hu]; decide)))
      (fun e => absurd e (not_running hs hu (by decide))) (fun _ _ => ⟨rfl, hu⟩) fun _ => rfl
  | freeproc j =>
    rw [procStep, Option.ite_none_right_eq_some] at h
    obtain ⟨⟨-, hu⟩, h⟩ := h
    cases h
    refine env_at rfl rfl (by simp) (.keep ⟨rfl, rfl, rfl, fun e => absurd rfl e⟩) (fun e => ?_)
      (fun _ e => by cases e) fun e => ?_
    · rcases hu with hu | hu <;> exact absurd e (not_running hs hu (by decide))
    · rcases hu with hu | hu <;> cases hu.symm.trans e
  | kkill pid j =>
    rw [procStep, Option.ite_none_right_eq_some] at h
    obtain ⟨-, h⟩ := h
    cases h
    refine env_at rfl rfl (by simp) (.keep (kept_kill _)) (fun e => ?_) (fun hn hk => ⟨rfl, ?_⟩)
      fun e => by simp [Proc.kill, e]
    · obtain ⟨k, e⟩ := myproc_eq e
      simp [Proc.kill, (hs k j e).2.1]
    · by_contra hsl
      simp only [Proc.kill, if_neg hsl] at hk
      exact hn hk
  | sleep chan =>
    cases h
    exact env_resched hs hr (.refl s _) (by simp) (.keep (kept_of_state rfl rfl rfl (hs.live hr))) nofun
  | kexit => exact env_exit hs hr (.refl s _) rfl h
  | timerUser =>
    simp only [procStep, usertrapTimer] at h
    split at h
    · exact env_exit hs hr (woken_clockintr (.inl rfl)) (clockintr_run hr) h
    · cases h
      exact env_charge hs (.inl rfl) hr

theorem env_result (hs : RunOk s) (ha : a ≠ .sched) (h : sysStep s a = some (s', es)) : EnvResult s a es s' := by
  cases a with
  | sched => exact absurd rfl ha
  | intr chan =>
    cases h
    exact env_wakeup (.inl rfl)
  | timerKernel =>
    simp only [sysStep, kerneltrapTimer] at h
    split at h
    · rename_i prio i hr
      split at h
      · cases h
        exact env_charge hs (.inr rfl) hr
      · cases h
        exact env_clockintr s
    · cases h
      exact env_clockintr s
  | wakeup | allocproc | forked | freeproc | kkill | sleep | kexit | timerUser =>
    simp only [sysStep] at h
    split at h
    · rename_i hr
      exact proc_result hs hr h
    · cases h

/-! ## Steps of the scheduler -/

/-- The scheduler's steps, by where it is. -/
inductive SchedStep (s : Sys) : List Event → Sys → Prop
  | top (current : BitVec 32) : s.pc = .top → SchedStep s [] { s with pc := .boost current 0 }
  | noBoost : s.pc = .top → SchedStep s [] { s with pc := .scan 0 0 false }
  | boost {current : BitVec 32} {i : Nat} : s.pc = .boost current i → i < NPROC →
      SchedStep s (if (s.proc i).state ≠ .unused then [.boost i] else [])
        { s.set i (s.proc i).boost with pc := .boost current (i + 1) }
  | boosted {current : BitVec 32} {i : Nat} : s.pc = .boost current i →
      SchedStep s [] { s with lastBoost := current, pc := .scan 0 0 false }
  | dispatch {prio i : Nat} {found : Bool} : s.pc = .scan prio i found → i < NPROC →
      (s.proc i).state = .runnable → (s.proc i).priority = prio →
      SchedStep s [.dispatch i prio] { s.set i { s.proc i with state := .running } with pc := .run prio i }
  | skip {prio i : Nat} {found : Bool} : s.pc = .scan prio i found → i < NPROC →
      ¬((s.proc i).state = .runnable ∧ (s.proc i).priority = prio) →
      SchedStep s [] { s with pc := .scan prio (i + 1) found }
  | restart {prio i : Nat} : s.pc = .scan prio i true → NPROC ≤ i → SchedStep s [] { s with pc := .top }
  | next {prio i : Nat} : s.pc = .scan prio i false → NPROC ≤ i → prio + 1 < 3 →
      SchedStep s [] { s with pc := .scan (prio + 1) 0 false }
  | idle {prio i : Nat} : s.pc = .scan prio i false → NPROC ≤ i → SchedStep s [] { s with pc := .wfi }
  | wake : s.pc = .wfi → SchedStep s [] { s with pc := .top }

theorem sched_cases (h : sysStep s .sched = some (s', es)) : SchedStep s es s' := by
  simp only [sysStep, schedStep] at h
  split at h
  · split at h <;> cases h
    · exact .top _ ‹_›
    · exact .noBoost ‹_›
  · split at h <;> cases h
    · exact .boost ‹_› ‹_›
    · exact .boosted ‹_›
  · rename_i prio i found hpc
    split at h
    · split at h <;> cases h
      · rename_i hp
        exact .dispatch hpc ‹_› hp.1 hp.2
      · exact .skip hpc ‹_› ‹_›
    · split at h
      · cases h
        subst_vars
        exact .restart hpc (by omega)
      · have hf : found = false := by simpa using ‹¬found = true›
        subst hf
        split at h <;> cases h
        · exact .next hpc (by omega) ‹_›
        · exact .idle hpc (by omega)
  · cases h
  · cases h
    exact .wake ‹_›

theorem runOk_step (hs : RunOk s) (h : sysStep s a = some (s', es)) : RunOk s' := by
  by_cases ha : a = .sched
  · subst ha
    cases sched_cases h with
    | dispatch hpc hi hr hp =>
      rintro prio i ⟨⟩
      refine ⟨hi, ?_, ?_⟩ <;> simp [hp]
    | _ => intro prio i e; cases e
  · obtain ⟨hslot, ⟨hpc, hst⟩ | ⟨k, i, -, hpc⟩, -⟩ := env_result hs ha h
    · intro prio i e
      rw [hpc] at e
      obtain ⟨hi, hr, hp⟩ := hs prio i e
      have hr' := (hst i (myproc_run e)).trans hr
      refine ⟨hi, hr', ((hslot i).priority (by rw [hr]; decide) fun _ => ?_).trans hp⟩
      rw [hr']
      decide
    · intro prio j e
      rw [hpc] at e
      cases e

theorem boot_runOk : RunOk boot := fun _ _ e => by cases e

end Xv6.Sched
