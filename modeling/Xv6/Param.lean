import Mathlib.Data.Nat.Cast.Basic

/-!
# Parameters of the kernel

The constants and small types of `param.h`, `proc.h` and `fs.h` that several
models use.
-/

namespace Xv6

/-- Maximum number of processes. -/
def NPROC : Nat := 64
/-- Max number of blocks any file-system operation writes. -/
def MAXOPBLOCKS : Nat := 10
/-- Max data blocks in the on-disk log. -/
def LOGBLOCKS : Nat := MAXOPBLOCKS * 3

/-- A disk block: `BSIZE` = 1024 bytes, as 256 words of 32 bits. -/
abbrev Block := Fin 256 → BitVec 32

/-- `enum procstate` of `proc.h`. -/
inductive ProcState where
  | unused | used | sleeping | runnable | running | zombie
  deriving DecidableEq, Repr

/-- The slot of `initproc`, the first that `userinit` allocates. -/
def initproc : Nat := 0

end Xv6
