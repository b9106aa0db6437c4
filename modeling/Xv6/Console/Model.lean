import Xv6.Framework.Run
import Mathlib.Data.Nat.Cast.Basic

/-!
# Console input

`consoleintr` and `consoleread` of `console.c`, the latter by the processes of any type `P`, with
buffers that can be written. The lock is part of the state, and a step of a process that has it is one
pass through the loop of `consoleread`. The interrupt handler takes the lock for one step. A process
that sleeps may wake up at any time, since it tests its condition again, and may be killed at any time.
-/

namespace Xv6.Console

open Function

def INPUT_BUF_SIZE : Nat := 128

abbrev Byte := BitVec 8

def NL : Byte := 0x0a
def CR : Byte := 0x0d
def DEL : Byte := 0x7f
/-- `C('D')`, end of file -/
def ctrlD : Byte := 0x04
/-- `C('H')`, backspace -/
def ctrlH : Byte := 0x08
/-- `C('P')`, print the process list -/
def ctrlP : Byte := 0x10
/-- `C('U')`, kill the line -/
def ctrlU : Byte := 0x15

/-- Where a process is in `consoleread`; `target` is the number of bytes it was called for and `n`
of those still to be read. -/
inductive Phase where
  | idle
  /-- About to take the lock: at the start, or in `sleep`. -/
  | wait (target n : Nat)
  | loop (target n : Nat)
  deriving DecidableEq, Repr

/-- `cons`, and where its readers are. -/
structure State (P : Type) where
  lock : Option P
  buf : Nat → Byte
  r : BitVec 32
  w : BitVec 32
  e : BitVec 32
  phase : P → Phase

inductive Event (P : Type) where
  /-- `consoleintr(c)` -/
  | typed (c : Byte)
  /-- `p` calls `consoleread` for `n` bytes. -/
  | called (p : P) (n : Nat)
  /-- `consoleread` copied a byte out. -/
  | got (p : P) (c : Byte)
  /-- `consoleread` consumed a ^D. -/
  | eof (p : P)
  /-- `consoleread` returned `n`. -/
  | returned (p : P) (n : Nat)
  /-- `consoleread` returned -1. -/
  | killed (p : P)
  deriving DecidableEq

inductive Act (P : Type) where
  | consoleintr (c : Byte)
  | consoleread (p : P) (n : Nat)
  | acquire (p : P)
  /-- The next pass of `p`'s loop, and what `killed(p)` is then. -/
  | read (p : P) (killed : Bool)

variable {P : Type}

/-- After boot, with the indices of any age and any bytes in the buffer. -/
def init (buf : Nat → Byte) (i : BitVec 32) : State P where
  lock := none
  buf := buf
  r := i
  w := i
  e := i
  phase _ := .idle

/-- `cons.buf[i % INPUT_BUF_SIZE]` -/
def State.at (s : State P) (i : BitVec 32) : Byte := s.buf (i.toNat % INPUT_BUF_SIZE)

/-- The loop for `C('U')`, which makes at most `e - w` passes. -/
def killLine : Nat → State P → State P
  | 0, s => s
  | n + 1, s => if s.e ≠ s.w ∧ s.at (s.e - 1) ≠ NL then killLine n { s with e := s.e - 1 } else s

def State.put (s : State P) (c : Byte) : State P :=
  { s with buf := update s.buf (s.e.toNat % INPUT_BUF_SIZE) c, e := s.e + 1 }

def State.full (s : State P) : Bool := s.e - s.r == BitVec.ofNat 32 INPUT_BUF_SIZE

def consoleintr (s : State P) (c : Byte) : State P :=
  if c = ctrlP then s
  else if c = ctrlU then killLine (s.e - s.w).toNat s
  else if c = ctrlH ∨ c = DEL then (if s.e ≠ s.w then { s with e := s.e - 1 } else s)
  else if c ≠ 0 ∧ s.e - s.r < BitVec.ofNat 32 INPUT_BUF_SIZE then
    let c := if c = CR then NL else c
    let s := s.put c
    if c = NL ∨ c = ctrlD ∨ s.full then { s with w := s.e } else s
  else s

variable [DecidableEq P]

def State.goto (s : State P) (p : P) (ph : Phase) : State P := { s with phase := update s.phase p ph }

/-- `release`, and return from `consoleread`. -/
def State.leave (s : State P) (p : P) : State P := { s.goto p .idle with lock := none }

/-- One pass of the loop. -/
def consoleread (s : State P) (p : P) (target n : Nat) (killed : Bool) : State P × List (Event P) :=
  if n = 0 then (s.leave p, [.returned p (target - n)])
  else if s.r = s.w then
    if killed then (s.leave p, [.killed p]) else ({ s.goto p (.wait target n) with lock := none }, [])
  else
    let c := s.at s.r
    let s := { s with r := s.r + 1 }
    if c = ctrlD then
      -- save ^D for next time, to make sure the caller gets a 0-byte result
      if n < target then ({ s with r := s.r - 1 }.leave p, [.returned p (target - n)])
      else (s.leave p, [.eof p, .returned p (target - n)])
    else if c = NL then (s.leave p, [.got p c, .returned p (target - (n - 1))])
    else (s.goto p (.loop target (n - 1)), [.got p c])

def step (s : State P) : Act P → Option (State P × List (Event P))
  | .consoleintr c => if s.lock = none then some (consoleintr s c, [.typed c]) else none
  | .consoleread p n =>
    if s.phase p = .idle ∧ 0 < n then some (s.goto p (.wait n n), [.called p n]) else none
  | .acquire p =>
    match s.phase p with
    | .wait target n => if s.lock = none then some ({ s.goto p (.loop target n) with lock := some p }, []) else none
    | _ => none
  | .read p killed =>
    match s.phase p with
    | .loop target n => if s.lock = some p then some (consoleread s p target n killed) else none
    | _ => none

end Xv6.Console
