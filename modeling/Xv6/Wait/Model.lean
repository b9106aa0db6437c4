import Xv6.Param
import Xv6.Framework.Run

/-!
# Fork, exit and wait

`kfork`, `kexit`, `kwait` and `kkill` of `proc.c`, run by any number of processes
on any number of CPUs. A step is one critical section: it takes a lock if that is
free, does what the code does under it and gives it back, except where the code
goes on with the lock held, or gives back another lock first; there the lock's
holder is part of the state. So `wait_lock` is held over many steps, and a
process's own lock from the moment `sleep` and `kexit` release `wait_lock` until
the scheduler has taken over.
-/

namespace Xv6.Wait

open Function

/-- What a process sleeps on: a process, in `kwait`, or something else. -/
inductive Chan where
  | proc (i : Nat)
  | other (n : Nat)
  deriving DecidableEq, Repr

/-- The fields of `struct proc` that these functions use. -/
structure Proc where
  state : ProcState
  chan : Option Chan
  killed : Bool
  xstate : BitVec 32
  pid : BitVec 32
  parent : Option Nat
  deriving DecidableEq, Repr

/-- Where a process is in the kernel. -/
inductive Pc where
  /-- In user space, or in a system call that is not modelled. -/
  | user
  /-- `allocproc` called from `kfork`, about to look at process `k`. -/
  | allocScan (k : Nat)
  /-- `kfork` with the lock of its new process `k`. -/
  | forkAlloc (k : Nat)
  /-- `kfork`, about to set the parent of `k`. -/
  | forkParent (k : Nat)
  /-- `kfork`, about to make `k` runnable. -/
  | forkStart (k : Nat)
  /-- `kexit(st)` with `wait_lock`, in the loop of `reparent`. -/
  | exitReparent (st : BitVec 32) (k : Nat)
  /-- In `wakeup(initproc)` for the child `k`, about to look at process `m`. -/
  | exitWakeInit (st : BitVec 32) (k m : Nat)
  /-- In `wakeup(p->parent)`, about to look at process `m`. -/
  | exitWakeParent (st : BitVec 32) (parent : Option Nat) (m : Nat)
  /-- About to become a zombie. -/
  | exitZombie (st : BitVec 32)
  /-- A zombie that still holds its own lock, but no longer `wait_lock`. -/
  | exitSched
  /-- `kwait` with `wait_lock`, about to look at process `k`; `addr` is whether the
  caller wants the status. -/
  | waitScan (addr havekids : Bool) (k : Nat)
  /-- `kwait` with the lock of the zombie `k` it found. -/
  | waitFound (addr : Bool) (k : Nat)
  /-- `kwait`, about to call `sleep`. -/
  | waitToSleep (addr : Bool)
  /-- In `sleep`, holding its own lock but no longer `wait_lock`. -/
  | waitWindow (addr : Bool)
  /-- In `sleep`, or woken up and about to take `wait_lock` again. -/
  | waitAsleep (addr : Bool)
  /-- `kkill(pid)`, about to look at process `k`. -/
  | killScan (pid : BitVec 32) (k : Nat)
  deriving DecidableEq, Repr

structure Sys where
  proc : Nat → Proc
  pc : Nat → Pc
  /-- Who holds the lock of each process. -/
  lock : Nat → Option Nat
  /-- Who holds `wait_lock`. -/
  waitLock : Option Nat
  nextpid : BitVec 32

inductive Event where
  /-- `kfork` by `p` made `j` its child. -/
  | forked (p j : Nat) (pid : BitVec 32)
  /-- `kfork` by `p` failed and freed `j`. -/
  | dropped (p j : Nat)
  /-- Process `j` called `kexit(st)` and is a zombie. -/
  | exited (j : Nat) (pid st : BitVec 32)
  /-- `kwait` by `p` freed `j`, returning `pid`, and `st` as the status. -/
  | reaped (p j : Nat) (pid st : BitVec 32)
  /-- `kwait` by `p` found `j`, but could not copy the status out. -/
  | waitFailed (p j : Nat)
  deriving DecidableEq, Repr

inductive Act where
  /-- Process `i` calls `kfork`, `kexit`, `kwait` or `kkill`. -/
  | fork (i : Nat)
  | exit (i : Nat) (st : BitVec 32)
  | wait (i : Nat) (addr : Bool)
  | kill (i : Nat) (pid : BitVec 32)
  /-- The next step of process `i` in one of these; `ok` is whether an allocation
  or a copy to user space that it makes succeeds. -/
  | go (i : Nat) (ok : Bool)
  /-- The scheduler runs process `i`. -/
  | dispatch (i : Nat)
  /-- Process `i` gives up the CPU, having no lock. -/
  | yield (i : Nat)
  /-- Process `i` sleeps on something else than a process. -/
  | sleep (i n : Nat)
  /-- `wakeup` for something else than a process looks at process `m`. -/
  | wake (n m : Nat)
  deriving DecidableEq, Repr

/-! ## The process table -/

def Proc.free (_ : Proc) : Proc :=
  { state := .unused, chan := none, killed := false, xstate := 0, pid := 0, parent := none }

def Proc.wake (p : Proc) (chan : Option Chan) : Proc :=
  if p.state = .sleeping ∧ p.chan = chan then { p with state := .runnable } else p

def Proc.kill (p : Proc) : Proc :=
  { p with killed := true, state := if p.state = .sleeping then .runnable else p.state }

def Sys.set (s : Sys) (j : Nat) (p : Proc) : Sys := { s with proc := update s.proc j p }
def Sys.goto (s : Sys) (i : Nat) (pc : Pc) : Sys := { s with pc := update s.pc i pc }
def Sys.acquire (s : Sys) (k i : Nat) : Sys := { s with lock := update s.lock k (some i) }
def Sys.release (s : Sys) (k : Nat) : Sys := { s with lock := update s.lock k none }
def Sys.acquireWait (s : Sys) (i : Nat) : Sys := { s with waitLock := some i }
def Sys.releaseWait (s : Sys) : Sys := { s with waitLock := none }

/-- The part of `wakeup(chan)`, called by `i`, that looks at process `m`. -/
def wakeupAt (s : Sys) (i : Nat) (chan : Option Chan) (m : Nat) : Option Sys :=
  if m = i then some s
  else if s.lock m = none then some (s.set m ((s.proc m).wake chan))
  else none

/-! ## Steps -/

def allocStep (s : Sys) (i k : Nat) : Option (Sys × List Event) :=
  if k < NPROC then
    if s.lock k = none then
      if (s.proc k).state = .unused then
        some ((({ s with nextpid := s.nextpid + 1 }.set k
          { s.proc k with pid := s.nextpid, state := .used }).acquire k i).goto i (.forkAlloc k), [])
      else some (s.goto i (.allocScan (k + 1)), [])
    else none
  else some (s.goto i .user, [])

/-- The rest of `allocproc`, and `kfork` until it releases the new process's lock. -/
def forkAllocStep (s : Sys) (i k : Nat) (ok : Bool) : Option (Sys × List Event) :=
  if ok then some ((s.release k).goto i (.forkParent k), [])
  else some (((s.set k (s.proc k).free).release k).goto i .user, [.dropped i k])

def forkParentStep (s : Sys) (i k : Nat) : Option (Sys × List Event) :=
  if s.waitLock = none then
    some ((s.set k { s.proc k with parent := some i }).goto i (.forkStart k),
      [.forked i k (s.proc k).pid])
  else none

def forkStartStep (s : Sys) (i k : Nat) : Option (Sys × List Event) :=
  if s.lock k = none then some ((s.set k { s.proc k with state := .runnable }).goto i .user, [])
  else none

def reparentStep (s : Sys) (i : Nat) (st : BitVec 32) (k : Nat) : Option (Sys × List Event) :=
  if k < NPROC then
    if (s.proc k).parent = some i then
      some ((s.set k { s.proc k with parent := some initproc }).goto i (.exitWakeInit st k 0), [])
    else some (s.goto i (.exitReparent st (k + 1)), [])
  else some (s.goto i (.exitWakeParent st (s.proc i).parent 0), [])

def wakeInitStep (s : Sys) (i : Nat) (st : BitVec 32) (k m : Nat) : Option (Sys × List Event) :=
  if m < NPROC then
    (wakeupAt s i (some (.proc initproc)) m).map fun s => (s.goto i (.exitWakeInit st k (m + 1)), [])
  else some (s.goto i (.exitReparent st (k + 1)), [])

def wakeParentStep (s : Sys) (i : Nat) (st : BitVec 32) (parent : Option Nat) (m : Nat) :
    Option (Sys × List Event) :=
  if m < NPROC then
    (wakeupAt s i (parent.map .proc) m).map fun s =>
      (s.goto i (.exitWakeParent st parent (m + 1)), [])
  else some (s.goto i (.exitZombie st), [])

def zombieStep (s : Sys) (i : Nat) (st : BitVec 32) : Option (Sys × List Event) :=
  if s.lock i = none then
    some (((s.set i { s.proc i with xstate := st, state := .zombie }).acquire i i).releaseWait.goto i
      .exitSched, [.exited i (s.proc i).pid st])
  else none

def waitScanStep (s : Sys) (i : Nat) (addr havekids : Bool) (k : Nat) : Option (Sys × List Event) :=
  if k < NPROC then
    if (s.proc k).parent = some i then
      if s.lock k = none then
        if (s.proc k).state = .zombie then some ((s.acquire k i).goto i (.waitFound addr k), [])
        else some (s.goto i (.waitScan addr true (k + 1)), [])
      else none
    else some (s.goto i (.waitScan addr havekids (k + 1)), [])
  else if ¬havekids then some (s.releaseWait.goto i .user, [])
  -- `killed(p)` takes the process's own lock
  else if s.lock i = none then
    if (s.proc i).killed then some (s.releaseWait.goto i .user, [])
    else some (s.goto i (.waitToSleep addr), [])
  else none

def waitFoundStep (s : Sys) (i : Nat) (addr : Bool) (k : Nat) (ok : Bool) :
    Option (Sys × List Event) :=
  if addr ∧ ¬ok then some (((s.release k).releaseWait).goto i .user, [.waitFailed i k])
  else some (((s.set k (s.proc k).free).release k).releaseWait.goto i .user,
    [.reaped i k (s.proc k).pid (s.proc k).xstate])

def waitToSleepStep (s : Sys) (i : Nat) (addr : Bool) : Option (Sys × List Event) :=
  if s.lock i = none then some ((s.acquire i i).releaseWait.goto i (.waitWindow addr), []) else none

def waitWindowStep (s : Sys) (i : Nat) (addr : Bool) : Option (Sys × List Event) :=
  some (((s.set i { s.proc i with chan := some (.proc i), state := .sleeping }).release i).goto i
    (.waitAsleep addr), [])

def waitAsleepStep (s : Sys) (i : Nat) (addr : Bool) : Option (Sys × List Event) :=
  if s.waitLock = none then some ((s.acquireWait i).goto i (.waitScan addr false 0), []) else none

def killStep (s : Sys) (i : Nat) (pid : BitVec 32) (k : Nat) : Option (Sys × List Event) :=
  if k < NPROC then
    if s.lock k = none then
      if (s.proc k).pid = pid then some ((s.set k (s.proc k).kill).goto i .user, [])
      else some (s.goto i (.killScan pid (k + 1)), [])
    else none
  else some (s.goto i .user, [])

/-- The next step of a process that is running in the kernel. -/
def goStep (s : Sys) (i : Nat) (ok : Bool) : Option (Sys × List Event) :=
  match s.pc i with
  | .user => none
  | .allocScan k => allocStep s i k
  | .forkAlloc k => forkAllocStep s i k ok
  | .forkParent k => forkParentStep s i k
  | .forkStart k => forkStartStep s i k
  | .exitReparent st k => reparentStep s i st k
  | .exitWakeInit st k m => wakeInitStep s i st k m
  | .exitWakeParent st parent m => wakeParentStep s i st parent m
  | .exitZombie st => zombieStep s i st
  | .exitSched => none
  | .waitScan addr havekids k => waitScanStep s i addr havekids k
  | .waitFound addr k => waitFoundStep s i addr k ok
  | .waitToSleep addr => waitToSleepStep s i addr
  | .waitWindow addr => waitWindowStep s i addr
  | .waitAsleep addr => waitAsleepStep s i addr
  | .killScan pid k => killStep s i pid k

/-- The process may be preempted: it holds no lock. -/
def Pc.preemptible : Pc → Bool
  | .user | .allocScan _ | .forkParent _ | .forkStart _ | .waitAsleep _ | .killScan _ _ => true
  | _ => false

def sysStep (s : Sys) : Act → Option (Sys × List Event)
  | .fork i =>
    if (s.proc i).state = .running ∧ s.pc i = .user then some (s.goto i (.allocScan 0), []) else none
  | .exit i st =>
    -- `initproc` exiting is a panic
    if (s.proc i).state = .running ∧ s.pc i = .user ∧ i ≠ initproc ∧ s.waitLock = none then
      some ((s.acquireWait i).goto i (.exitReparent st 0), [])
    else none
  | .wait i addr =>
    if (s.proc i).state = .running ∧ s.pc i = .user ∧ s.waitLock = none then
      some ((s.acquireWait i).goto i (.waitScan addr false 0), [])
    else none
  | .kill i pid =>
    if (s.proc i).state = .running ∧ s.pc i = .user then some (s.goto i (.killScan pid 0), []) else none
  | .go i ok =>
    if (s.proc i).state = .running then goStep s i ok
    -- the scheduler releases the lock of a process that exited
    else if s.pc i = .exitSched then some ((s.release i).goto i .user, [])
    else none
  | .dispatch i =>
    if (s.proc i).state = .runnable ∧ s.lock i = none then
      some (s.set i { s.proc i with state := .running, chan := none }, [])
    else none
  | .yield i =>
    if (s.proc i).state = .running ∧ (s.pc i).preemptible ∧ s.lock i = none then
      some (s.set i { s.proc i with state := .runnable }, [])
    else none
  | .sleep i n =>
    if (s.proc i).state = .running ∧ s.pc i = .user ∧ s.lock i = none then
      some (s.set i { s.proc i with state := .sleeping, chan := some (.other n) }, [])
    else none
  | .wake n m =>
    if s.lock m = none then some (s.set m ((s.proc m).wake (some (.other n))), []) else none

/-- After `userinit`. -/
def boot : Sys where
  proc := fun i =>
    { state := if i = initproc then .runnable else .unused, chan := none, killed := false, xstate := 0
      pid := if i = initproc then 1 else 0, parent := none }
  pc := fun _ => .user
  lock := fun _ => none
  waitLock := none
  nextpid := 2

abbrev Run : List Event → Sys → Prop := Exec sysStep Any boot

end Xv6.Wait
