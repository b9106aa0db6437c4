import Xv6.Param
import Xv6.Framework.Run

/-!
# The MLFQ scheduler on one CPU

`scheduler()` of `proc.c` as a machine that takes one step for each process it
looks at, since interrupts are on between two of them, together with what the
process it runs, and interrupts, can do to the process table: wakeups, forks,
kills, sleeping, exiting, and the timer branch of `usertrap` and `kerneltrap`.
-/

namespace Xv6.Sched

open Function

/-- The fields of `struct proc` that scheduling uses. -/
structure Proc where
  state : ProcState
  /-- What a sleeping process sleeps on; read only while it sleeps, so that its
  reset after the sleep is left out. -/
  chan : Nat
  killed : Bool
  pid : BitVec 32
  /-- Current priority (0 = high, 1 = medium, 2 = low). -/
  priority : Nat
  /-- Ticks used in the current priority level. -/
  ticksCount : BitVec 32
  /-- Statistics: ticks spent in each queue. -/
  ticksInQ : Nat → BitVec 32

/-- Where the scheduler is in its loop. -/
inductive Pc where
  /-- About to read `ticks`. -/
  | top
  /-- In the boost loop at process `i`, having read `current`. -/
  | boost (current : BitVec 32) (i : Nat)
  /-- In the scan of queue `prio`, at process `i`. -/
  | scan (prio i : Nat) (found : Bool)
  /-- Process `i`, found in the scan of queue `prio`, is running. -/
  | run (prio i : Nat)
  /-- Waiting for an interrupt. -/
  | wfi
  deriving DecidableEq, Repr

structure Sys where
  proc : Nat → Proc
  nextpid : BitVec 32
  ticks : BitVec 32
  lastBoost : BitVec 32
  pc : Pc

inductive Event where
  /-- Process `i` was allocated. -/
  | alloc (i : Nat)
  /-- Process `i` was boosted. -/
  | boost (i : Nat)
  /-- Process `i` was charged a tick at priority `k`. -/
  | charge (i k : Nat)
  /-- Process `i` was dispatched at priority `k`. -/
  | dispatch (i k : Nat)

inductive Act where
  /-- The scheduler's next step. -/
  | sched
  /-- A device interrupt wakes up the processes sleeping on `chan`. -/
  | intr (chan : Nat)
  /-- A timer interrupt, taken in user mode (`usertrap`). -/
  | timerUser
  /-- A timer interrupt, taken in the kernel (`kerneltrap`). -/
  | timerKernel
  /-- The running process calls `wakeup(chan)`. -/
  | wakeup (chan : Nat)
  /-- The running process's `allocproc` finds process `j` unused. -/
  | allocproc (j : Nat)
  /-- The running process's `kfork` makes its child `j` runnable. -/
  | forked (j : Nat)
  /-- The running process frees `j` (`kwait`, or a `kfork` that failed). -/
  | freeproc (j : Nat)
  /-- The running process's `kkill(pid)` finds process `j`. -/
  | kkill (pid : BitVec 32) (j : Nat)
  /-- The running process sleeps on `chan`. -/
  | sleep (chan : Nat)
  /-- The running process exits. -/
  | kexit
  deriving DecidableEq

def LIMIT_Q0 : Nat := 4
def LIMIT_Q1 : Nat := 8
def BOOST_INTERVAL : Nat := 100

/-- The channel `&ticks`. -/
def ticksChan : Nat := 1

/-! ## The process table -/

/-- The process that is running, if any. -/
def Sys.myproc (s : Sys) : Option Nat :=
  match s.pc with
  | .run _ i => some i
  | _ => none

/-- One process's part of `wakeup`. -/
def Proc.wake (p : Proc) (chan : Nat) : Proc :=
  if p.state = .sleeping ∧ p.chan = chan then { p with state := .runnable } else p

def wakeup (s : Sys) (chan : Nat) : Sys :=
  { s with proc := fun j =>
      if j < NPROC ∧ s.myproc ≠ some j then (s.proc j).wake chan else s.proc j }

/-- `allocproc`, from `found` on, when no allocation fails. -/
def Proc.alloc (p : Proc) (pid : BitVec 32) : Proc :=
  { p with state := .used, pid := pid, priority := 0, ticksCount := 0, ticksInQ := fun _ => 0 }

def Proc.free (p : Proc) : Proc := { p with pid := 0, chan := 0, killed := false, state := .unused }

def Proc.kill (p : Proc) : Proc :=
  { p with killed := true, state := if p.state = .sleeping then .runnable else p.state }

/-- What the timer branch of `usertrap` and of `kerneltrap` does before it yields. -/
def Proc.charge (p : Proc) : Proc :=
  let p := { p with ticksInQ := update p.ticksInQ p.priority (p.ticksInQ p.priority + 1)
                    ticksCount := p.ticksCount + 1 }
  if p.priority = 0 then
    if p.ticksCount.toInt ≥ (LIMIT_Q0 : Int) then { p with priority := 1, ticksCount := 0 } else p
  else if p.priority = 1 then
    if p.ticksCount.toInt ≥ (LIMIT_Q1 : Int) then { p with priority := 2, ticksCount := 0 } else p
  else p

/-- One process's part of the boost loop. -/
def Proc.boost (p : Proc) : Proc :=
  if p.state ≠ .unused then { p with priority := 0, ticksCount := 0 } else p

def Sys.set (s : Sys) (j : Nat) (p : Proc) : Sys := { s with proc := update s.proc j p }

/-- The running process switches to the scheduler, which goes on with its scan. -/
def Sys.resched (s : Sys) (prio i : Nat) : Sys := { s with pc := .scan prio (i + 1) true }

/-! ## Steps -/

/-- The scheduler's own step; while a process runs it has none. -/
def schedStep (s : Sys) : Option (Sys × List Event) :=
  match s.pc with
  | .top =>
    if s.ticks - s.lastBoost ≥ BitVec.ofNat 32 BOOST_INTERVAL then
      some ({ s with pc := .boost s.ticks 0 }, [])
    else some ({ s with pc := .scan 0 0 false }, [])
  | .boost current i =>
    if i < NPROC then
      some ({ s.set i (s.proc i).boost with pc := .boost current (i + 1) },
        if (s.proc i).state ≠ .unused then [.boost i] else [])
    else some ({ s with lastBoost := current, pc := .scan 0 0 false }, [])
  | .scan prio i found =>
    if i < NPROC then
      if (s.proc i).state = .runnable ∧ (s.proc i).priority = prio then
        some ({ s.set i { s.proc i with state := .running } with pc := .run prio i },
          [.dispatch i prio])
      else some ({ s with pc := .scan prio (i + 1) found }, [])
    -- the whole queue was scanned: restart if a process ran, else go to the next queue
    else if found then some ({ s with pc := .top }, [])
    else if prio + 1 < 3 then some ({ s with pc := .scan (prio + 1) 0 false }, [])
    else some ({ s with pc := .wfi }, [])
  | .run _ _ => none
  | .wfi => some ({ s with pc := .top }, [])

def clockintr (s : Sys) : Sys := wakeup { s with ticks := s.ticks + 1 } ticksChan

/-- The timer branch: charge the running process and yield. -/
def chargeAndYield (s : Sys) (prio i : Nat) : Sys × List Event :=
  ((s.set i { (s.proc i).charge with state := .runnable }).resched prio i,
    [.charge i (s.proc i).priority])

def exitProc (s : Sys) (prio i : Nat) : Option (Sys × List Event) :=
  if i = initproc then none
  else some ((s.set i { s.proc i with state := .zombie }).resched prio i, [])

/-- A timer interrupt in user mode: a killed process exits before it is charged. -/
def usertrapTimer (s : Sys) (prio i : Nat) : Option (Sys × List Event) :=
  let s := clockintr s
  if (s.proc i).killed then exitProc s prio i else some (chargeAndYield s prio i)

def kerneltrapTimer (s : Sys) : Option (Sys × List Event) :=
  let s := clockintr s
  match s.pc with
  | .run prio i =>
    if (s.proc i).state = .running then some (chargeAndYield s prio i) else some (s, [])
  | _ => some (s, [])

/-- What the running process `i` does. -/
def procStep (s : Sys) (prio i : Nat) : Act → Option (Sys × List Event)
  | .wakeup chan => some (wakeup s chan, [])
  | .allocproc j =>
    if j < NPROC ∧ (s.proc j).state = .unused then
      some ({ s.set j ((s.proc j).alloc s.nextpid) with nextpid := s.nextpid + 1 }, [.alloc j])
    else none
  | .forked j =>
    if j < NPROC ∧ (s.proc j).state = .used then
      some (s.set j { s.proc j with state := .runnable }, [])
    else none
  | .freeproc j =>
    if j < NPROC ∧ ((s.proc j).state = .zombie ∨ (s.proc j).state = .used) then
      some (s.set j (s.proc j).free, [])
    else none
  | .kkill pid j =>
    if j < NPROC ∧ (s.proc j).pid = pid then some (s.set j (s.proc j).kill, []) else none
  | .sleep chan =>
    some ((s.set i { s.proc i with chan := chan, state := .sleeping }).resched prio i, [])
  | .kexit => exitProc s prio i
  | .timerUser => usertrapTimer s prio i
  | _ => none

def sysStep (s : Sys) : Act → Option (Sys × List Event)
  | .sched => schedStep s
  | .intr chan => some (wakeup s chan, [])
  | .timerKernel => kerneltrapTimer s
  | a =>
    match s.pc with
    | .run prio i => procStep s prio i a
    | _ => none

/-- After `userinit`: process 0 is runnable, the others unused. -/
def boot : Sys where
  proc := fun i =>
    { state := if i = initproc then .runnable else .unused, chan := 0, killed := false
      pid := if i = initproc then 1 else 0, priority := 0, ticksCount := 0, ticksInQ := fun _ => 0 }
  nextpid := 2
  ticks := 0
  lastBoost := 0
  pc := .top

/-- Runs whose steps all meet `C`. -/
abbrev Run (C : Sys → Act → Prop) : List Event → Sys → Prop := Exec sysStep C boot

end Xv6.Sched
