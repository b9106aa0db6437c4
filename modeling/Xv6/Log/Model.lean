import Xv6.Param
import Xv6.Framework.Writes

/-!
# The redo log

`log.c`: log operations, group commit and recovery, on a disk whose writes are
synchronous. A block pinned by `log_write` stays in the buffer cache with the
data last logged (`dirty`); `bread` of any other block reads the disk. `trace`
records the disk writes in the order they are issued; a crash leaves the disk
after some prefix of them.
-/

namespace Xv6.Log

open Function

/-- A block number (`uint`). -/
abbrev Blockno := BitVec 32
instance : LawfulBEq Blockno := inferInstance
abbrev Disk := Blockno → Block

/-- `struct log`, the disk it is on, the pinned buffers and the disk writes so far. -/
structure LogState where
  start : Blockno
  outstanding : Nat
  committing : Bool
  /-- `lh.block[0 .. lh.n)`. -/
  lh : List Blockno
  dirty : Blockno → Option Block
  disk : Disk
  trace : List (Blockno × Block)

def bread (s : LogState) (b : Blockno) : Block := (s.dirty b).getD (s.disk b)

def bwrite (s : LogState) (b : Blockno) (data : Block) : LogState :=
  { s with disk := update s.disk b data, trace := s.trace ++ [(b, data)] }

def bunpin (s : LogState) (b : Blockno) : LogState := { s with dirty := update s.dirty b none }

/-- The block of the log that holds slot `tail` of the transaction. -/
def logBlock (start : Blockno) (tail : Nat) : Blockno := start + BitVec.ofNat 32 tail + 1

/-! ## The header block -/

/-- `lh->n` of a header block, an `int`. -/
def headN (hb : Block) : Int := (hb 0).toInt

/-- The block numbers `read_head` copies from a header block. -/
def headBlocks (hb : Block) : List Blockno :=
  (List.range (headN hb).toNat).map fun i => hb (Fin.ofNat 256 (i + 1))

/-- The header block `write_head` writes over `hb`: `n`, then `block[0 .. n)`. -/
def setHead (hb : Block) (lh : List Blockno) : Block := fun j =>
  if j.val = 0 then BitVec.ofNat 32 lh.length else lh.getD (j.val - 1) (hb j)

def readHead (s : LogState) : LogState := { s with lh := headBlocks (bread s s.start) }

def writeHead (s : LogState) : LogState := bwrite s s.start (setHead (bread s s.start) s.lh)

/-! ## Commit and recovery -/

/-- `install_trans` from slot `tail` on. -/
def installFrom (recovering : Bool) (s : LogState) (tail : Nat) : List Blockno → LogState
  | [] => s
  | b :: bs =>
    let lbuf := bread s (logBlock s.start tail)
    let s := bwrite s b lbuf
    installFrom recovering (if recovering then s else bunpin s b) (tail + 1) bs

def installTrans (s : LogState) (recovering : Bool) : LogState :=
  installFrom recovering s 0 s.lh

/-- `write_log` from slot `tail` on. -/
def writeLogFrom (s : LogState) (tail : Nat) : List Blockno → LogState
  | [] => s
  | b :: bs => writeLogFrom (bwrite s (logBlock s.start tail) (bread s b)) (tail + 1) bs

def writeLog (s : LogState) : LogState := writeLogFrom s 0 s.lh

def commit (s : LogState) : LogState :=
  if s.lh.length > 0 then
    let s := writeHead (writeLog s)
    let s := installTrans s false
    writeHead { s with lh := [] }
  else s

/-- The log of a machine that just booted from a disk: nothing is cached. -/
def boot (start : Blockno) (disk : Disk) : LogState :=
  { start, outstanding := 0, committing := false, lh := [], dirty := fun _ => none, disk, trace := [] }

def recoverFromLog (start : Blockno) (disk : Disk) : LogState :=
  let s := installTrans (readHead (boot start disk)) true
  writeHead { s with lh := [] }

/-! ## Operations -/

/-- `none` where `begin_op` sleeps. -/
def beginOp (s : LogState) : Option LogState :=
  if s.committing then none
  else if s.lh.length + (s.outstanding + 1) * MAXOPBLOCKS > LOGBLOCKS then none
  else some { s with outstanding := s.outstanding + 1 }

/-- `log_write` of a buffer of block `b` that holds `data`; `none` is a panic. -/
def logWrite (s : LogState) (b : Blockno) (data : Block) : Option LogState :=
  if s.lh.length ≥ LOGBLOCKS then none
  else if s.outstanding < 1 then none
  else
    let i := s.lh.idxOf b
    let dirty := update s.dirty b (some data)
    -- log absorption: a block already in the log keeps its slot and its pin
    if i = s.lh.length then some { s with dirty, lh := s.lh ++ [b] }
    else some { s with dirty, lh := s.lh.set i b }

def endOp (s : LogState) : Option LogState :=
  if s.committing then none
  else if s.outstanding - 1 = 0 then
    let s := commit { s with outstanding := s.outstanding - 1, committing := true }
    some { s with committing := false }
  else some { s with outstanding := s.outstanding - 1 }

/-- A group transaction: its `log_write` calls, in order. -/
abbrev Tx := List (Blockno × Block)

def runTx (s : LogState) (tx : Tx) : Option LogState := do
  let s ← beginOp s
  let s ← tx.foldlM (fun s w => logWrite s w.1 w.2) s
  endOp s

/-- The transactions up to the first that panics, which writes nothing. -/
def runTxs (s : LogState) : List Tx → LogState
  | [] => s
  | tx :: txs =>
    match runTx s tx with
    | some s' => runTxs s' txs
    | none => s

end Xv6.Log
