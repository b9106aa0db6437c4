import Xv6.Param
import Xv6.Framework.Run

/-!
# Threads, spinlocks and context switches

The scheduler threads of any number of CPUs and the kernel threads of the processes, over the
spinlocks of `spinlock.c` and the functions `scheduler`, `sched`, `yield`, `forkret`, `sleep`,
`wakeup`, `kexit` and `kkill` of `proc.c`. A thread is the list of the instructions it still has to
execute; a function call puts the function's instructions in front. Each instruction is one step,
and the steps of different CPUs come in any order.

Between these functions a kernel thread may run any code that uses locks properly (`lawful`):
it acquires locks it does not have and releases those it has, changes another process only with its
lock, calls `yield` without a lock and `sleep` with just the lock it passes. An interrupt may run
such code on any CPU whose interrupts are on.

The data of type `D`, the lock `lk` and the channel `chan` of a `Cond` are there for a condition that
processes wait for: `while(!C) sleep(chan, &lk)`.
-/

namespace Xv6.Switch

open Function (update)

/-- `p->lock` of a process, or another lock. -/
inductive LockId where
  | proc (k : Nat)
  | other (n : Nat)
  deriving DecidableEq, Repr

def tickslock : LockId := .other 0
def waitLock : LockId := .other 1

/-- A condition on the data that `lk` protects, and the channel its waiters sleep on. -/
structure Cond (D : Type) where
  lk : Nat
  chan : Nat
  holds : D → Bool

inductive Instr (D : Type) where
  | acquire (l : LockId)
  | release (l : LockId)
  /-- `intr_on` or `intr_off`. -/
  | setIntr (on : Bool)
  /-- Calls of the functions with these names. -/
  | yield
  | sleep (chan lk : Nat)
  | exit
  /-- The loop of `wakeup(chan)`, about to look at process `k`. -/
  | wakeup (chan k : Nat)
  /-- `while(!C) sleep(chan, &lk)` -/
  | wait
  /-- A store to the data that `lk` protects. -/
  | store (d : D)
  /-- `p->state = st` and what goes with it, of the process's own. -/
  | setState (p : Nat) (st : ProcState)
  | sleepRelease (p chan lk : Nat)
  | sleepSet (p chan : Nat)
  | clearChan (p : Nat)
  | setPriority (n : Nat)
  /-- `sched`, up to the switch. -/
  | sched
  /-- `mycpu()->intena = intena`, after the switch. -/
  | setIntena (intena : Bool)
  /-- After `sched` in `kexit`. -/
  | zombieExit
  /-- What `wakeup`, `kkill`, `allocproc`, `kfork` and `freeproc` do to a process with its lock. -/
  | wake (k chan : Nat)
  | kill (k : Nat)
  | alloc (k : Nat)
  | start (k : Nat)
  | free (k : Nat)
  /-- The loops of `scheduler`, about to look at process `k`, and the steps in them. -/
  | boostScan (k : Nat)
  | boost (k : Nat)
  | scan (prio k : Nat)
  | pick (prio k : Nat)
  | enter (k : Nat)
  | swtch (k : Nat)
  | leave (k : Nat)

inductive Panic where
  | acquire | release | popOffInterruptible | popOff
  | schedLock | schedLocks | schedRunning | schedInterruptible | zombieExit
  /-- `myproc()` is 0 where a process is needed. -/
  | noProc
  /-- `swtch` to a context that was not saved since it was last resumed. -/
  | resume
  deriving DecidableEq, Repr

structure Cpu (D : Type) where
  proc : Option Nat
  noff : Nat
  intena : Bool
  /-- Interrupts are on. -/
  intr : Bool
  /-- The process whose thread runs on this CPU, or `none` for the scheduler thread. -/
  cur : Option Nat
  /-- What the scheduler thread has still to do in this pass of its loop. -/
  code : List (Instr D)
  found : Bool
  /-- The locks acquired on this CPU and not released, for the condition on the code that it enters. -/
  held : List LockId

structure Proc (D : Type) where
  state : ProcState
  chan : Option Nat
  priority : Nat
  /-- `p->context` holds the thread, and was not resumed since. -/
  saved : Bool
  code : List (Instr D)

structure State (D : Type) where
  cpu : Nat → Cpu D
  proc : Nat → Proc D
  lock : LockId → Option Nat
  data : D
  panicked : Option Panic

inductive Event where
  /-- The context of `p` was saved, or made by `allocproc`. -/
  | saved (p : Nat)
  | resumed (p : Nat)
  /-- `p` found the condition false and calls `sleep`. -/
  | slept (p : Nat)
  /-- `p` found the condition true. -/
  | proceeded (p : Nat)
  /-- `wakeup(chan)` with `lk` held returned; whether the condition holds then. -/
  | woke (holds : Bool)
  /-- The data changed; whether the condition holds then. -/
  | stored (holds : Bool)
  deriving DecidableEq, Repr

inductive Act (D : Type) where
  /-- The thread on CPU `c` executes its next instruction. -/
  | go (c : Nat)
  /-- `scheduler` on CPU `c` starts another pass, with a priority boost or without. -/
  | loop (c : Nat) (boost : Bool)
  /-- The process on CPU `c` runs other kernel code. -/
  | call (c : Nat) (f : List (Instr D))
  /-- An interrupt on CPU `c`, whose handler runs `f`. -/
  | interrupt (c : Nat) (f : List (Instr D))

variable {D : Type}

/-! ## The code of the functions -/

def yieldCode (p : Nat) : List (Instr D) :=
  [.acquire (.proc p), .setState p .runnable, .sched, .release (.proc p)]

def sleepCode (p chan lk : Nat) : List (Instr D) :=
  [.acquire (.proc p), .sleepRelease p chan lk, .sleepSet p chan, .sched, .clearChan p,
    .release (.proc p), .acquire (.other lk)]

/-- The end of `kexit`, which has `wait_lock`. -/
def exitCode (p : Nat) : List (Instr D) :=
  [.acquire (.proc p), .setState p .zombie, .release waitLock, .sched, .zombieExit]

def forkretCode (p : Nat) : List (Instr D) := [.release (.proc p)]

/-- A pass of the loop of `scheduler`. -/
def schedulerCode (boost : Bool) : List (Instr D) :=
  [.setIntr true, .acquire tickslock, .release tickslock] ++
    (if boost then [.boostScan 0, .scan 0 0] else [.scan 0 0])

/-! ## Locks and interrupts -/

/-- `push_off` for the lock `l`. -/
def Cpu.pushOff (x : Cpu D) (l : LockId) : Cpu D :=
  { x with
    intena := if x.noff = 0 then x.intr else x.intena
    intr := false
    noff := x.noff + 1
    held := l :: x.held }

/-- `pop_off` for the lock `l`, where it does not panic. -/
def Cpu.popOff (x : Cpu D) (l : LockId) : Cpu D :=
  { x with
    noff := x.noff - 1
    intr := if x.noff - 1 = 0 ∧ x.intena then true else x.intr
    held := x.held.erase l }

/-- The scheduler thread of the CPU is at `code`. -/
def Cpu.at (x : Cpu D) (code : List (Instr D)) : Cpu D := { x with code := code }
def Cpu.setIntr (x : Cpu D) (on : Bool) : Cpu D := { x with intr := on }
def Cpu.setIntena (x : Cpu D) (intena : Bool) : Cpu D := { x with intena := intena }
def Cpu.enter (x : Cpu D) (k : Nat) : Cpu D := { x with proc := some k }
def Cpu.leave (x : Cpu D) : Cpu D := { x with proc := none, found := true }

def State.setCpu (s : State D) (c : Nat) (x : Cpu D) : State D := { s with cpu := update s.cpu c x }
def State.setProc (s : State D) (p : Nat) (y : Proc D) : State D := { s with proc := update s.proc p y }
def State.setLock (s : State D) (l : LockId) (o : Option Nat) : State D :=
  { s with lock := update s.lock l o }
def State.panic (s : State D) (e : Panic) : State D := { s with panicked := some e }

/-- The code of the thread on CPU `c`. -/
def State.code (s : State D) (c : Nat) : List (Instr D) :=
  match (s.cpu c).cur with
  | some p => (s.proc p).code
  | none => (s.cpu c).code

/-- The thread on CPU `c` goes on with `code`. -/
def State.goto (s : State D) (c : Nat) (code : List (Instr D)) : State D :=
  match (s.cpu c).cur with
  | some p => s.setProc p { s.proc p with code := code }
  | none => s.setCpu c ((s.cpu c).at code)

/-- `none` while another CPU has the lock. -/
def State.acquire (s : State D) (c : Nat) (l : LockId) (r : List (Instr D)) : Option (State D) :=
  match s.lock l with
  | none => some (((s.setLock l (some c)).setCpu c ((s.cpu c).pushOff l)).goto c r)
  | some c' => if c' = c then some (s.panic .acquire) else none

def State.release (s : State D) (c : Nat) (l : LockId) (r : List (Instr D)) : State D :=
  if s.lock l ≠ some c then s.panic .release
  else if (s.cpu c).intr then s.panic .popOffInterruptible
  else if (s.cpu c).noff < 1 then s.panic .popOff
  else ((s.setLock l none).setCpu c ((s.cpu c).popOff l)).goto c r

/-! ## Processes -/

def State.sleepSet (s : State D) (p chan : Nat) : State D :=
  s.setProc p { s.proc p with chan := some chan, state := .sleeping }

/-- A process with its state changed from `st` to `st'`, if it is in `st`. -/
def Proc.change (y : Proc D) (st st' : ProcState) : Proc D :=
  if y.state = st then { y with state := st' } else y

def Proc.wake (y : Proc D) (chan : Nat) : Proc D :=
  if y.state = .sleeping ∧ y.chan = some chan then { y with state := .runnable } else y

/-- `allocproc` with the lock of an unused process. -/
def Proc.alloc (y : Proc D) (k : Nat) : Proc D :=
  { y with state := .used, priority := 0, saved := true, code := forkretCode k }

/-- `freeproc` of a zombie, or of a process that `kfork` could not finish. -/
def Proc.free (y : Proc D) : Proc D :=
  if y.state = .zombie ∨ y.state = .used then { y with state := .unused, chan := none } else y

def Proc.boost (y : Proc D) : Proc D := if y.state ≠ .unused then { y with priority := 0 } else y

/-- The thread is saved in `p->context`, to go on at `code`. -/
def Proc.suspend (y : Proc D) (code : List (Instr D)) : Proc D := { y with saved := true, code := code }
def Proc.resume (y : Proc D) : Proc D := { y with saved := false }

/-- The CPU goes on with its scheduler thread. -/
def Cpu.toSched (x : Cpu D) : Cpu D := { x with cur := none }

/-- The CPU goes on with the thread of `k`, and its scheduler thread waits at `r`. -/
def Cpu.toProc (x : Cpu D) (k : Nat) (r : List (Instr D)) : Cpu D := { x with cur := some k, code := r }

/-- `swtch(&p->context, &mycpu()->context)` in `sched`, after its checks. -/
def State.sched (s : State D) (c : Nat) (r : List (Instr D)) : State D × List Event :=
  match (s.cpu c).proc with
  | none => (s.panic .noProc, [])
  | some p =>
    if s.lock (.proc p) ≠ some c then (s.panic .schedLock, [])
    else if (s.cpu c).noff ≠ 1 then (s.panic .schedLocks, [])
    else if (s.proc p).state = .running then (s.panic .schedRunning, [])
    else if (s.cpu c).intr then (s.panic .schedInterruptible, [])
    else ((s.setProc p ((s.proc p).suspend (.setIntena (s.cpu c).intena :: r))).setCpu c
      (s.cpu c).toSched, [.saved p])

/-- `swtch(&c->context, &p->context)` in `scheduler`. -/
def State.swtch (s : State D) (c k : Nat) (r : List (Instr D)) : State D × List Event :=
  if (s.proc k).saved then
    ((s.setProc k (s.proc k).resume).setCpu c ((s.cpu c).toProc k r), [.resumed k])
  else (s.panic .resume, [])

def State.pick (s : State D) (c prio k : Nat) (r : List (Instr D)) : State D :=
  if (s.proc k).state = .runnable ∧ (s.proc k).priority = prio then
    (s.setProc k ((s.proc k).change .runnable .running)).goto c (.enter k :: .swtch k :: .leave k :: r)
  else s.goto c r

/-- The process whose thread runs, `myproc()`, does `f`. -/
def State.withProc (s : State D) (c : Nat) (f : Nat → State D × List Event) : State D × List Event :=
  match (s.cpu c).proc with
  | none => (s.panic .noProc, [])
  | some p => f p

/-! ## Instructions -/

/-- The thread on CPU `c` executes an instruction, before `r`. -/
def exec (K : Cond D) (s : State D) (c : Nat) (r : List (Instr D)) : Instr D → Option (State D × List Event)
  | .acquire l => (s.acquire c l r).map fun s => (s, [])
  | .release l => some (s.release c l r, [])
  | .setIntr on => some ((s.setCpu c ((s.cpu c).setIntr on)).goto c r, [])
  | .yield => some (s.withProc c fun p => (s.goto c (yieldCode p ++ r), []))
  | .sleep chan lk => some (s.withProc c fun p => (s.goto c (sleepCode p chan lk ++ r), []))
  | .exit => some (s.withProc c fun p => (s.goto c (exitCode p ++ r), []))
  | .wakeup chan k =>
    if k < NPROC then
      if (s.cpu c).proc = some k then some (s.goto c (.wakeup chan (k + 1) :: r), [])
      else some (s.goto c (.acquire (.proc k) :: .wake k chan :: .release (.proc k) ::
        .wakeup chan (k + 1) :: r), [])
    else some (s.goto c r,
      if chan = K.chan ∧ s.lock (.other K.lk) = some c then [.woke (K.holds s.data)] else [])
  | .wait => some (s.withProc c fun p =>
    if K.holds s.data then (s.goto c r, [.proceeded p])
    else (s.goto c (sleepCode p K.chan K.lk ++ .wait :: r), [.slept p]))
  | .store d => some ({ s with data := d }.goto c r, [.stored (K.holds d)])
  | .setState p st => some ((s.setProc p { s.proc p with state := st }).goto c r, [])
  | .sleepRelease _ _ lk => some (s.release c (.other lk) r, [])
  | .sleepSet p chan => some ((s.sleepSet p chan).goto c r, [])
  | .clearChan p => some ((s.setProc p { s.proc p with chan := none }).goto c r, [])
  | .setPriority n => some (s.withProc c fun p =>
    ((s.setProc p { s.proc p with priority := n }).goto c r, []))
  | .sched => some (s.sched c r)
  | .setIntena intena => some ((s.setCpu c ((s.cpu c).setIntena intena)).goto c r, [])
  | .zombieExit => some (s.panic .zombieExit, [])
  | .wake k chan => some ((s.setProc k ((s.proc k).wake chan)).goto c r, [])
  | .kill k => some ((s.setProc k ((s.proc k).change .sleeping .runnable)).goto c r, [])
  | .alloc k =>
    if (s.proc k).state = .unused then some ((s.setProc k ((s.proc k).alloc k)).goto c r, [.saved k])
    else some (s.goto c r, [])
  | .start k => some ((s.setProc k ((s.proc k).change .used .runnable)).goto c r, [])
  | .free k => some ((s.setProc k (s.proc k).free).goto c r, [])
  | .boostScan k =>
    if k < NPROC then
      some (s.goto c (.acquire (.proc k) :: .boost k :: .release (.proc k) :: .boostScan (k + 1) :: r), [])
    else some (s.goto c r, [])
  | .boost k => some ((s.setProc k (s.proc k).boost).goto c r, [])
  | .scan prio k =>
    if k < NPROC then
      some (s.goto c (.acquire (.proc k) :: .pick prio k :: .release (.proc k) :: .scan prio (k + 1) :: r), [])
    else if (s.cpu c).found ∨ 2 ≤ prio then some (s.goto c r, [])
    else some (s.goto c (.scan (prio + 1) 0 :: r), [])
  | .pick prio k => some (s.pick c prio k r, [])
  | .enter k => some ((s.setCpu c ((s.cpu c).enter k)).goto c r, [])
  | .swtch k => some (s.swtch c k r)
  | .leave _ => some ((s.setCpu c (s.cpu c).leave).goto c r, [])

/-! ## Lock discipline -/

/-- What a thread is about: a process runs, or has left its state and is about to switch; the
scheduler has chosen a process, has entered it in `c->proc`, or is back from it. -/
inductive Ph where
  | run
  | leaving (st : ProcState)
  | chosen (k : Nat)
  | entered (k : Nat)
  | back (k : Nat)
  deriving DecidableEq, Repr

def LockId.isProc : LockId → Bool
  | .proc _ => true
  | .other _ => false

/-- The code keeps the lock discipline, in the thread of process `me` or a scheduler thread, at `ph`
and with the locks `h`. -/
def lawful (K : Cond D) (me : Option Nat) : Ph → List LockId → List (Instr D) → Bool
  | ph, h, [] => ph = .run && (me.isSome || h = [])
  | ph, h, i :: r =>
    match i with
    | .acquire l => ph = .run && l ∉ h && lawful K me .run (l :: h) r
    | .release l => l ∈ h && (ph = .run || (ph = .leaving .zombie && l = waitLock)) &&
      lawful K me ph (h.erase l) r
    | .setIntr _ => ph = .run && h = [] && lawful K me .run h r
    | .yield => ph = .run && me.isSome && h = [] && lawful K me .run h r
    | .sleep _ lk => ph = .run && me.isSome && h = [.other lk] && lawful K me .run h r
    | .exit => ph = .run && me.isSome && h = [waitLock]
    | .wakeup _ _ => ph = .run && h.all (fun l => !l.isProc) && lawful K me .run h r
    | .wait => ph = .run && me.isSome && h = [.other K.lk] && lawful K me .run h r
    | .store _ => ph = .run && .other K.lk ∈ h && lawful K me .run h r
    | .setState p st => ph = .run && me = some p && .proc p ∈ h && (st = .runnable || st = .zombie) &&
      lawful K me (.leaving st) h r
    | .sleepRelease p _ lk => ph = .run && me = some p && .other lk ∈ h &&
      lawful K me .run (h.erase (.other lk)) r
    | .sleepSet p _ => ph = .run && me = some p && .proc p ∈ h && lawful K me (.leaving .sleeping) h r
    | .clearChan p => ph = .run && me = some p && .proc p ∈ h && lawful K me .run h r
    | .setPriority _ => ph = .run && me.isSome && lawful K me .run h r
    | .sched => me.any (fun p => h = [.proc p]) &&
      (ph = .leaving .zombie ||
        ((ph = .leaving .runnable || ph = .leaving .sleeping) && lawful K me .run h r))
    | .setIntena _ => ph = .run && me.isSome && lawful K me .run h r
    | .zombieExit => false
    | .wake k _ | .kill k | .start k | .free k | .boost k =>
      ph = .run && .proc k ∈ h && lawful K me .run h r
    | .alloc k => ph = .run && .proc k ∈ h && k < NPROC && lawful K me .run h r
    | .boostScan _ | .scan _ _ => ph = .run && me = none && h = [] && lawful K me .run h r
    | .pick _ k => ph = .run && me = none && h = [.proc k] && lawful K me .run h r
    | .enter k => ph = .chosen k && me = none && h = [.proc k] && lawful K me (.entered k) h r
    | .swtch k => ph = .entered k && me = none && h = [.proc k] && lawful K me (.back k) h r
    | .leave k => ph = .back k && me = none && h = [.proc k] && lawful K me .run h r

/-- What kernel code outside these functions consists of. -/
def Instr.ordinary : Instr D → Bool
  | .acquire _ | .release _ | .setIntr _ | .yield | .sleep _ _ | .exit | .wait | .store _ | .kill _
  | .alloc _ | .start _ | .free _ | .setPriority _ => true
  | .wakeup _ k => k = 0
  | _ => false

/-! ## Steps -/

def State.act (K : Cond D) (s : State D) : Act D → Option (State D × List Event)
  | .go c =>
    match s.code c with
    | [] => none
    | i :: r => exec K s c r i
  | .loop c boost =>
    match (s.cpu c).cur, (s.cpu c).code with
    | none, [] => some (s.setCpu c { s.cpu c with code := schedulerCode boost, found := false }, [])
    | _, _ => none
  | .call c f =>
    match (s.cpu c).cur, s.code c with
    | some p, [] =>
      if f.all Instr.ordinary ∧ lawful K (some p) .run (s.cpu c).held f then some (s.goto c f, [])
      else none
    | _, _ => none
  | .interrupt c f =>
    let r := f ++ .setIntr true :: s.code c
    if (s.cpu c).intr ∧ (s.cpu c).held = [] ∧ f.all Instr.ordinary ∧ lawful K (s.cpu c).cur .run [] r then
      some ((s.setCpu c ((s.cpu c).setIntr false)).goto c r, [])
    else none

def step (K : Cond D) (s : State D) (a : Act D) : Option (State D × List Event) :=
  if s.panicked.isSome then none else s.act K a

/-- After `userinit`, with every CPU about to call `scheduler`. -/
def boot (d : D) : State D where
  cpu _ :=
    { proc := none, noff := 0, intena := false, intr := false, cur := none, code := [], found := false
      held := [] }
  proc k :=
    { state := if k = initproc then .runnable else .unused, chan := none, priority := 0
      saved := k = initproc, code := if k = initproc then forkretCode k else [] }
  lock _ := none
  data := d
  panicked := none

end Xv6.Switch
