import Xv6.Sched.Steps

/-!
# Strict priority

A queue should be served only while the queues above it hold no runnable
process. The scheduler goes on with its scan of a queue after a process it ran
returns, and looks at the queues above it only when that scan is over. So the
rule fails when a process of a higher priority is forked or woken up in the
meantime (`strict_fails_after_fork`), and holds in runs in which no process
becomes runnable behind the scan (`strict_of_ahead`).
-/

namespace Xv6.Sched

/-- Strict priority: where the scheduler is about to run a process, no process
of a higher priority is runnable. -/
def Strict (s : Sys) : Prop :=
  ∀ prio i found, s.pc = .scan prio i found → i < NPROC → (s.proc i).state = .runnable →
    (s.proc i).priority = prio →
    ∀ j < NPROC, (s.proc j).state = .runnable → ¬(s.proc j).priority < prio

/-- With the scheduler at `pc`, process `j` of priority `k` is still to be looked
at: it is not in a queue above the one being scanned, nor, while nothing was
found in this queue, in its part that was scanned. -/
def Pc.Ahead (j k : Nat) : Pc → Prop
  | .scan prio i found => prio ≤ k ∧ (found = false → k = prio → i ≤ j)
  | .run prio _ => prio ≤ k
  | _ => True

/-- Processes are woken up, or forked, only where the scan has not been yet. -/
def WakesAhead (s : Sys) (a : Act) : Prop :=
  ∀ j < NPROC, a.Wakes s j → s.pc.Ahead j (s.proc j).priority

/-- No process is runnable where the scan has been. -/
def Scanned (s : Sys) : Prop :=
  ∀ j < NPROC, (s.proc j).state = .runnable → s.pc.Ahead j (s.proc j).priority

variable {s s' : Sys} {prio i j k : Nat} {es : List Event} {a : Act}

theorem Scanned.strict (h : Scanned s) : Strict s := by
  intro prio i found hpc hi _ _ j hj hr
  have ha := h j hj hr
  rw [hpc] at ha
  exact Nat.not_lt.2 ha.1

/-! ## The scheduler's steps -/

theorem ahead_scan_zero (j k : Nat) : (Pc.scan 0 0 false).Ahead j k :=
  ⟨Nat.zero_le k, fun _ _ => Nat.zero_le j⟩

/-- Looking at process `i` and not running it. -/
theorem ahead_skip {found : Bool} (h : (Pc.scan prio i found).Ahead j k) (hj : j = i → k ≠ prio) :
    (Pc.scan prio (i + 1) found).Ahead j k := by
  refine ⟨h.1, fun hf hk => ?_⟩
  have hle := h.2 hf hk
  have hne : j ≠ i := fun e => hj e hk
  omega

/-- Going to the next queue when nothing was found in this one. -/
theorem ahead_next (h : (Pc.scan prio i false).Ahead j k) (hi : NPROC ≤ i) (hj : j < NPROC) :
    (Pc.scan (prio + 1) 0 false).Ahead j k := by
  refine ⟨?_, fun _ _ => Nat.zero_le j⟩
  have hle := h.1
  have hne : k ≠ prio := fun e => by have := h.2 rfl e; omega
  omega

theorem scanned_sched (h : Scanned s) (hs : SchedStep s es s') : Scanned s' := by
  cases hs with
  | top | boost | restart | idle | wake => exact fun _ _ _ => trivial
  | noBoost | boosted => exact fun j _ _ => ahead_scan_zero j _
  | dispatch hpc hi hr hp =>
    rename_i prio i found
    intro j hj hjr
    by_cases e : j = i
    · subst e
      rw [set_proc_self] at hjr
      cases hjr
    · have ha := h j hj (by rwa [set_proc_ne _ _ e] at hjr)
      rw [hpc] at ha
      rw [set_proc_ne _ _ e]
      exact ha.1
  | skip hpc hi hn =>
    intro j hj hjr
    have ha := h j hj hjr
    rw [hpc] at ha
    exact ahead_skip ha fun e hk => hn ⟨e ▸ hjr, e ▸ hk⟩
  | next hpc hi _ =>
    intro j hj hjr
    have ha := h j hj hjr
    rw [hpc] at ha
    exact ahead_next ha hi hj

/-! ## The other steps -/

theorem ahead_resched (h : (Pc.run prio i).Ahead j k) : (Pc.scan prio (i + 1) true).Ahead j k :=
  ⟨h, fun e => by cases e⟩

theorem Act.Wakes.live (h : a.Wakes s j) : (s.proc j).state ≠ .unused := by
  intro hu
  cases a <;> simp [Act.Wakes, hu] at h

theorem scanned_env (hr : RunOk s) (h : Scanned s) (ha : a ≠ .sched) (hw : WakesAhead s a)
    (hst : sysStep s a = some (s', es)) : Scanned s' := by
  have hres := env_result hr ha hst
  have hold : ∀ j < NPROC, (s'.proc j).state = .runnable → s.pc.Ahead j (s'.proc j).priority := by
    intro j hj hjr
    by_cases hc : s.myproc = some j
    · -- the process that ran yields: it was not moved up
      obtain ⟨prio, hpc⟩ := myproc_eq hc
      have hle := (hres.slot j).priority_le (hr.live hpc)
      rw [(hr prio j hpc).2.2] at hle
      rw [hpc]
      exact hle
    · have hkeep : (s.proc j).state ≠ .unused → (s'.proc j).priority = (s.proc j).priority :=
        fun hu => (hres.slot j).priority hu fun e => absurd e hc
      by_cases hjs : (s.proc j).state = .runnable
      · rw [hkeep (by rw [hjs]; decide)]
        exact h j hj hjs
      · have hwk := (hres.woken j hjs hjr).resolve_right fun hy => hc hy.2.1
        rw [hkeep hwk.live]
        exact hw j hj hwk
  intro j hj hjr
  rcases hres.pc with ⟨e, -⟩ | ⟨prio, i, e, e'⟩
  · rw [e]
    exact hold j hj hjr
  · have hk := hold j hj hjr
    rw [e] at hk
    rw [e']
    exact ahead_resched hk

theorem scanned_step (hr : RunOk s) (h : Scanned s) (hw : WakesAhead s a) (hst : sysStep s a = some (s', es)) :
    Scanned s' := by
  by_cases ha : a = .sched
  · subst ha
    exact scanned_sched h (sched_cases hst)
  · exact scanned_env hr h ha hw hst

/-- In a run in which processes become runnable only ahead of the scan, the
scheduler never runs a process while one of a higher priority is runnable. -/
theorem strict_of_ahead {es : List Event} {s : Sys} (h : Run WakesAhead es s) : Strict s := by
  have hinv : RunOk s ∧ Scanned s :=
    h.invariant (I := fun _ s => RunOk s ∧ Scanned s) ⟨boot_runOk, fun _ _ _ => trivial⟩
      fun ⟨hr, hsc⟩ hw hst => ⟨runOk_step hr hst, scanned_step hr hsc hw hst⟩
  exact hinv.2.strict

/-! ## Runs -/

theorem wakesAhead_sched (s : Sys) : WakesAhead s .sched := fun _ _ h => h.elim

/-- While a process of the highest queue runs, whatever becomes runnable is ahead. -/
theorem wakesAhead_run_zero (h : s.pc = .run 0 i) (a : Act) : WakesAhead s a := by
  intro j _ _
  rw [h]
  exact Nat.zero_le _

/-- Init forks process 1 and is preempted; the scheduler then finds process 1. -/
theorem strict_after_fork : ∃ es s, Run WakesAhead es s ∧ s.pc = .scan 0 1 true ∧
    (s.proc 1).state = .runnable ∧ Strict s := by
  have h₁ : Run WakesAhead _ _ := Exec.refl.step (wakesAhead_sched _) (a := .sched) rfl
  have h₂ := h₁.step (wakesAhead_sched _) (a := .sched) rfl
  have h₃ := h₂.step (wakesAhead_run_zero rfl _) (a := .allocproc 1) rfl
  have h₄ := h₃.step (wakesAhead_run_zero rfl _) (a := .forked 1) rfl
  have h₅ := h₄.step (wakesAhead_run_zero rfl _) (a := .timerUser) rfl
  exact ⟨_, _, h₅, rfl, rfl, strict_of_ahead h₅⟩

/-- Init and process 1 each use up their ticks in the highest queue; init then runs
from the second queue and forks process 2. -/
def forkRun : List Act :=
  let sched n := List.replicate n Act.sched
  let pass := sched 2 ++ [.timerUser] ++ sched 1 ++ [.timerUser] ++ sched 63
  sched 2 ++ [.allocproc 1, .forked 1, .timerUser] ++ sched 1 ++ [.timerUser] ++ sched 63 ++
    pass ++ pass ++ pass ++ sched 67 ++ [.allocproc 2, .forked 2, .timerUser]

theorem forkRun_ends : ∃ es s, Run Any es s ∧ s.pc = .scan 1 1 true ∧ (s.proc 1).state = .runnable ∧
    (s.proc 1).priority = 1 ∧ (s.proc 2).state = .runnable ∧ (s.proc 2).priority = 0 :=
  exists_exec (fun _ _ => of_decide_eq_true) forkRun (by decide +kernel)

/-- Strict priority fails: with process 2 runnable in the highest queue, the
scheduler goes on to run process 1 from the second. -/
theorem strict_fails_after_fork : ¬∀ es s, Run Any es s → Strict s := by
  intro hall
  obtain ⟨es, s, hrun, hpc, h₁, hp₁, h₂, hp₂⟩ := forkRun_ends
  refine hall es s hrun 1 1 true hpc (by decide) h₁ hp₁ 2 (by decide) h₂ ?_
  rw [hp₂]
  decide

end Xv6.Sched
