import Xv6.Param
import Xv6.Framework.Run

/-!
# Pipes

`pipewrite`, `piperead` and `pipeclose` of `pipe.c` on one pipe, by the processes of any type `P`.
The lock of the pipe is part of the state, and a step of a process that has it is one pass through
the loop that it is in. What the caller's memory and `killed` answer is up to the action. A process
that sleeps may wake up at any time, since it tests its condition again.
-/

namespace Xv6.Pipe

open Function

def PIPESIZE : Nat := 512

abbrev Byte := BitVec 8

/-- Where a process is; `n` is the third argument of its call. -/
inductive Phase where
  | idle
  /-- In `pipewrite`, about to take the lock: at the start, or in `sleep`. -/
  | writeWait (n : Int) (i : Nat)
  /-- In the loop of `pipewrite`. -/
  | writeLoop (n : Int) (i : Nat)
  /-- In `piperead`, about to take the lock. -/
  | readWait (n : Int)
  /-- In the first loop of `piperead`. -/
  | readEmpty (n : Int)
  /-- In the second loop of `piperead`. -/
  | readCopy (n : Int) (i : Nat)
  deriving DecidableEq, Repr

/-- `struct pipe`, and where its users are. -/
structure State (P : Type) where
  lock : Option P
  data : Nat → Byte
  nread : BitVec 32
  nwrite : BitVec 32
  readopen : Bool
  writeopen : Bool
  /-- `pipeclose` has freed the page. -/
  freed : Bool
  phase : P → Phase

inductive Event (P : Type) where
  /-- `p` calls `pipewrite` or `piperead`. -/
  | called (p : P)
  /-- `pipewrite` stored a byte. -/
  | put (p : P) (b : Byte)
  /-- `piperead` copied a byte out. -/
  | got (p : P) (b : Byte)
  /-- `pipewrite(pi, addr, n)` returned `r`. -/
  | wrote (p : P) (n r : Int)
  /-- `piperead(pi, addr, n)` returned `r`. -/
  | read (p : P) (n r : Int)
  deriving DecidableEq

inductive Act (P : Type) where
  | pipewrite (p : P) (n : Int)
  | piperead (p : P) (n : Int)
  | pipeclose (p : P) (writable : Bool)
  | acquire (p : P)
  /-- The next pass of `p`'s loop: whether `p` is killed, and the byte that `copyin` finds, if it
  finds one. -/
  | write (p : P) (killed : Bool) (copyin : Option Byte)
  /-- The same in `piperead`, with whether `copyout` succeeds. -/
  | read (p : P) (killed copyout : Bool)

variable {P : Type} [DecidableEq P]

/-- After `pipealloc`, with any bytes in the page. -/
def init (data : Nat → Byte) : State P where
  lock := none
  data := data
  nread := 0
  nwrite := 0
  readopen := true
  writeopen := true
  freed := false
  phase _ := .idle

def State.goto (s : State P) (p : P) (ph : Phase) : State P := { s with phase := update s.phase p ph }

/-- Give the lock back, and go on at `ph`. -/
def State.release (s : State P) (p : P) (ph : Phase) : State P := { s.goto p ph with lock := none }

/-- `pi->data[pi->nwrite++ % PIPESIZE] = ch` -/
def State.put (s : State P) (ch : Byte) : State P :=
  { s with data := update s.data (s.nwrite.toNat % PIPESIZE) ch, nwrite := s.nwrite + 1 }

def State.full (s : State P) : Bool := s.nwrite == s.nread + BitVec.ofNat 32 PIPESIZE
def State.empty (s : State P) : Bool := s.nread == s.nwrite

/-- A pass through the loop of `pipewrite`. -/
def State.pipewrite (s : State P) (p : P) (n : Int) (i : Nat) (killed : Bool) (copyin : Option Byte) :
    State P × List (Event P) :=
  if i < n then
    if !s.readopen || killed then (s.release p .idle, [.wrote p n (-1)])
    else if s.full then (s.release p (.writeWait n i), [])
    else
      match copyin with
      | none => (s.release p .idle, [.wrote p n i])
      | some ch => ((s.put ch).goto p (.writeLoop n (i + 1)), [.put p ch])
  else (s.release p .idle, [.wrote p n i])

/-- A pass through the first loop of `piperead`. -/
def State.pipereadEmpty (s : State P) (p : P) (n : Int) (killed : Bool) : State P × List (Event P) :=
  if s.empty && s.writeopen then
    if killed then (s.release p .idle, [.read p n (-1)])
    else (s.release p (.readWait n), [])
  else (s.goto p (.readCopy n 0), [])

/-- A pass through the second loop of `piperead`. -/
def State.pipereadCopy (s : State P) (p : P) (n : Int) (i : Nat) (copyout : Bool) :
    State P × List (Event P) :=
  if i < n then
    if s.empty then (s.release p .idle, [.read p n i])
    else if copyout then
      ({ s with nread := s.nread + 1 }.goto p (.readCopy n (i + 1)),
        [.got p (s.data (s.nread.toNat % PIPESIZE))])
    else (s.release p .idle, [.read p n (if i = 0 then -1 else i)])
  else (s.release p .idle, [.read p n i])

/-- `kfree` gives the page back once both ends are closed. -/
def State.pipeclose (s : State P) (writable : Bool) : State P :=
  let s := if writable then { s with writeopen := false } else { s with readopen := false }
  { s with freed := !s.readopen && !s.writeopen }

def State.act (s : State P) : Act P → Option (State P × List (Event P))
  | .pipewrite p n =>
    if s.phase p = .idle then some (s.goto p (.writeWait n 0), [.called p]) else none
  | .piperead p n =>
    if s.phase p = .idle then some (s.goto p (.readWait n), [.called p]) else none
  | .pipeclose p writable =>
    if s.phase p = .idle ∧ s.lock = none then some (s.pipeclose writable, []) else none
  | .acquire p =>
    if s.lock = none then
      match s.phase p with
      | .writeWait n i => some ({ s.goto p (.writeLoop n i) with lock := some p }, [])
      | .readWait n => some ({ s.goto p (.readEmpty n) with lock := some p }, [])
      | _ => none
    else none
  | .write p killed copyin =>
    match s.phase p with
    | .writeLoop n i => some (s.pipewrite p n i killed copyin)
    | _ => none
  | .read p killed copyout =>
    match s.phase p with
    | .readEmpty n => some (s.pipereadEmpty p n killed)
    | .readCopy n i => some (s.pipereadCopy p n i copyout)
    | _ => none

/-- A step on the pipe. An end is closed when the last descriptor for it is, so no call is in
progress when the page is freed. -/
def step (s : State P) (a : Act P) : Option (State P × List (Event P)) :=
  if s.freed then none else s.act a

end Xv6.Pipe
