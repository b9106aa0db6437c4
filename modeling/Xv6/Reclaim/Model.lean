import Xv6.Log.Model
import Xv6.Blocks.Model

/-!
# Boot

`fsinit`: the super block is read, the log is recovered, and `ireclaim` frees the inodes that have no
links but are still allocated. Here inodes and the free map are words of disk blocks, which are read
through the log and written by `log_write`. The process that runs `fsinit` is the only one, and has the
root directory as its working directory.
-/

namespace Xv6.Reclaim

open Function
open Log
open Blocks

def FSMAGIC : BitVec 32 := 0x10203040
/-- Maximum number of active inodes. -/
def NINODE : Nat := 50
/-- Inodes per block; one has 16 words. -/
def IPB : Nat := BSIZE / 64

structure Superblock where
  magic : BitVec 32
  /-- Size of file system image (blocks). -/
  size : BitVec 32
  nblocks : BitVec 32
  ninodes : BitVec 32
  nlog : BitVec 32
  logstart : BitVec 32
  inodestart : BitVec 32
  bmapstart : BitVec 32

def readsb (b : Block) : Superblock :=
  ⟨word b 0, word b 1, word b 2, word b 3, word b 4, word b 5, word b 6, word b 7⟩

/-- Block containing inode `inum`. -/
def iblock (sb : Superblock) (inum : Nat) : Blockno := BitVec.ofNat 32 (inum / IPB) + sb.inodestart

/-- Block of free map containing bit for block `b`. -/
def bblock (sb : Superblock) (b : Blockno) : Blockno := BitVec.ofNat 32 (b.toNat / BPB) + sb.bmapstart

/-- Inode `k` of a block. -/
def getDinode (blk : Block) (k : Nat) : Dinode where
  type := (word blk (16 * k)).extractLsb' 0 16
  major := (word blk (16 * k)).extractLsb' 16 16
  minor := (word blk (16 * k + 1)).extractLsb' 0 16
  nlink := (word blk (16 * k + 1)).extractLsb' 16 16
  size := word blk (16 * k + 2)
  addrs j := if j ≤ NDIRECT then word blk (16 * k + 3 + j) else 0

/-- Word `j` of an inode. -/
def dinodeWord (ip : Dinode) : Nat → BitVec 32
  | 0 => ip.major ++ ip.type
  | 1 => ip.nlink ++ ip.minor
  | 2 => ip.size
  | j + 3 => ip.addrs j

def putDinode (blk : Block) (k : Nat) (ip : Dinode) : Block := fun w =>
  if w.val / 16 = k then dinodeWord ip (w.val % 16) else blk w

/-- The bit of block `bi` of a free map block. -/
def mask (bi : Nat) : BitVec 8 := 1#8 <<< (bi % 8)

/-- An entry of the table of in-memory inodes. -/
structure Inode where
  inum : Nat
  ref : Nat
  /-- The copy of the inode, if `valid`. -/
  copy : Option Dinode
  locked : Bool

structure Mem where
  log : LogState
  itable : Fin NINODE → Inode

inductive Panic where
  | invalidFs
  | noInodes
  | ilock
  | ilockNoType
  | iunlock
  | freeingFreeBlock
  | logWrite
  | endOp
  /-- Not a panic: the only process would sleep for ever. -/
  | sleeps
  /-- Not a panic of the source: an inode is used that is not valid. -/
  | notValid
  deriving DecidableEq, Repr

abbrev M := StateT Mem (Except Panic)

def bread (b : Blockno) : M Block := do pure (Log.bread (← get).log b)

/-- A step of the log. -/
def onLog (f : LogState → Option LogState) (e : Panic) : M Unit := do
  match f (← get).log with
  | some l => modify fun m => { m with log := l }
  | none => throw e

def logWrite (b : Blockno) (data : Block) : M Unit := onLog (Log.logWrite · b data) .logWrite

def beginOp : M Unit := onLog Log.beginOp .sleeps

def endOp : M Unit := onLog Log.endOp .endOp

def setEntry (i : Fin NINODE) (e : Inode) : M Unit := modify fun m => { m with itable := update m.itable i e }

/-- The inode that an entry has a valid copy of. -/
def inode (i : Fin NINODE) : M Dinode := do
  match ((← get).itable i).copy with
  | some ip => pure ip
  | none => throw .notValid

def setInode (i : Fin NINODE) (ip : Dinode) : M Unit := do
  setEntry i { (← get).itable i with copy := some ip }

variable (sb : Superblock)

def bfree (b : Blockno) : M Unit := do
  let data ← bread (bblock sb b)
  let bi := b.toNat % BPB
  if byte data (bi / 8) &&& mask bi = 0 then throw .freeingFreeBlock
  else logWrite (bblock sb b) (setByte data (bi / 8) (byte data (bi / 8) &&& ~~~mask bi))

def iupdate (i : Fin NINODE) : M Unit := do
  let e := (← get).itable i
  let data ← bread (iblock sb e.inum)
  logWrite (iblock sb e.inum) (putDinode data (e.inum % IPB) (← inode i))

def iget (inum : Nat) : M (Fin NINODE) := do
  let t := (← get).itable
  match (List.finRange NINODE).find? fun i => 0 < (t i).ref ∧ (t i).inum = inum with
  | some i =>
    setEntry i { t i with ref := (t i).ref + 1 }
    pure i
  | none =>
    match (List.finRange NINODE).find? fun i => (t i).ref = 0 with
    | some i =>
      setEntry i { t i with inum, ref := 1, copy := none }
      pure i
    | none => throw .noInodes

def acquiresleep (i : Fin NINODE) : M Unit := do
  let e := (← get).itable i
  if e.locked then throw .sleeps else setEntry i { e with locked := true }

def releasesleep (i : Fin NINODE) : M Unit := do
  setEntry i { (← get).itable i with locked := false }

/-- The part of `ilock` that reads the inode from disk if necessary. -/
def load (i : Fin NINODE) (e : Inode) : M Unit :=
  match e.copy with
  | some _ => pure ()
  | none => do
    let ip := getDinode (← bread (iblock sb e.inum)) (e.inum % IPB)
    setInode i ip
    if ip.type = 0 then throw .ilockNoType else pure ()

def ilock (i : Fin NINODE) : M Unit := do
  if ((← get).itable i).ref < 1 then throw .ilock
  else
    acquiresleep i
    load sb i ((← get).itable i)

def iunlock (i : Fin NINODE) : M Unit := do
  let e := (← get).itable i
  if !e.locked ∨ e.ref < 1 then throw .iunlock else releasesleep i

/-- The part of `itrunc` that frees the indirect block and those it names. -/
def truncIndirect (i : Fin NINODE) : M Unit := do
  let ip ← inode i
  if ip.addrs NDIRECT ≠ 0 then
    let a ← bread (ip.addrs NDIRECT)
    forM (List.range NINDIRECT) fun j =>
      if word a j ≠ 0 then bfree sb (word a j) else pure ()
    bfree sb (ip.addrs NDIRECT)
    setInode i (ip.setAddr NDIRECT 0)
  else pure ()

def itrunc (i : Fin NINODE) : M Unit := do
  forM (List.range NDIRECT) fun k => do
    let ip ← inode i
    if ip.addrs k ≠ 0 then
      bfree sb (ip.addrs k)
      setInode i (ip.setAddr k 0)
    else pure ()
  truncIndirect sb i
  let ip ← inode i
  setInode i { ip with size := 0 }
  iupdate sb i

/-- The part of `iput` that truncates a locked inode and frees it on disk. -/
def discard (i : Fin NINODE) : M Unit := do
  itrunc sb i
  setInode i { (← inode i) with type := 0 }
  iupdate sb i

/-- The part of `iput` for an inode without links or other references. -/
def ifree (i : Fin NINODE) : M Unit := do
  let e := (← get).itable i
  match e.copy with
  | some ip =>
    if e.ref = 1 ∧ ip.nlink = 0 then
      acquiresleep i
      discard sb i
      setEntry i { (← get).itable i with copy := none }
      releasesleep i
    else pure ()
  | none => pure ()

def iput (i : Fin NINODE) : M Unit := do
  ifree sb i
  let e := (← get).itable i
  setEntry i { e with ref := e.ref - 1 }

/-- One round of `ireclaim`. -/
def reclaim (inum : Nat) : M Unit := do
  let dip := getDinode (← bread (iblock sb inum)) (inum % IPB)
  if dip.type ≠ 0 ∧ dip.nlink = 0 then
    let i ← iget inum
    beginOp
    ilock sb i
    iunlock i
    iput sb i
    endOp
  else pure ()

def ireclaim : M Unit := forM (List.range' 1 (sb.ninodes.toNat - 1)) (reclaim sb)

/-- The table of in-memory inodes when `fsinit` is called: `userinit` has taken a reference to the root. -/
def bootTable (i : Fin NINODE) : Inode :=
  if i.val = 0 then ⟨ROOTINO, 1, none, false⟩ else ⟨0, 0, none, false⟩

def fsinit (d : Disk) : Except Panic Mem :=
  let sb := readsb (d 1)
  if sb.magic ≠ FSMAGIC then .error .invalidFs
  else (ireclaim sb ⟨Log.recoverFromLog sb.logstart d, bootTable⟩).map Prod.snd

end Xv6.Reclaim
