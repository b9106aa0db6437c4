import Xv6.Param

/-!
# Disk blocks and inodes

The block layer of `fs.c`: the free-block bitmap (`balloc`, `bfree`), the blocks of
an inode (`bmap`, `itrunc`), its content (`readi`, `writei`) and the table of
in-memory inodes (`iget`, `ilock`, `iput`). The bitmap, the inodes and the data
blocks are arrays of their own, as the code sees them through the buffer cache. A
locked inode is changed in memory and reaches the disk by `iupdate`.
-/

namespace Xv6.Blocks

open Function

def BSIZE : Nat := 1024
def NDIRECT : Nat := 12
def NINDIRECT : Nat := 256
def MAXFILE : Nat := NDIRECT + NINDIRECT
/-- Bitmap bits per block. -/
def BPB : Nat := BSIZE * 8
def ROOTINO : Nat := 1

def T_DIR : BitVec 16 := 1
def T_FILE : BitVec 16 := 2
def T_DEVICE : BitVec 16 := 3

/-- The fields of the super block that the code below reads. -/
structure Superblock where
  /-- Size of the file system image (blocks). -/
  size : Nat
  /-- Number of inodes. -/
  ninodes : Nat
  /-- Block number of the first free map block. -/
  bmapstart : Nat

/-- The first data block: the free map is the last of the metadata. -/
def Superblock.datastart (sb : Superblock) : Nat := sb.bmapstart + sb.size / BPB + 1

/-- An inode, on disk (`struct dinode`) or in memory. -/
structure Dinode where
  type : BitVec 16
  major : BitVec 16
  minor : BitVec 16
  nlink : BitVec 16
  size : BitVec 32
  /-- Data block addresses; the last, at `NDIRECT`, is that of the indirect block. -/
  addrs : Nat → BitVec 32

/-- `ip->addrs[k] = a`. -/
def Dinode.setAddr (ip : Dinode) (k : Nat) (a : BitVec 32) : Dinode :=
  { ip with addrs := update ip.addrs k a }

@[simp] theorem Dinode.setAddr_type (ip : Dinode) (k : Nat) (a : BitVec 32) : (ip.setAddr k a).type = ip.type := rfl

@[simp] theorem Dinode.setAddr_addrs (ip : Dinode) (k : Nat) (a : BitVec 32) :
    (ip.setAddr k a).addrs = update ip.addrs k a := rfl

/-- An entry of the table of in-memory inodes. -/
structure Entry where
  ref : Nat
  /-- The copy of the inode, if it has been read from disk (`valid`). -/
  inode : Option Dinode

/-- A reference more; the copy of an inode that had none is not valid. -/
def Entry.get (e : Entry) : Entry :=
  if 0 < e.ref then { e with ref := e.ref + 1 } else { ref := 1, inode := none }

/-- A reference less; the copy of an inode that has none left is not valid. -/
def Entry.put (e : Entry) : Entry :=
  if e.ref = 1 then { ref := 0, inode := none } else { e with ref := e.ref - 1 }

structure Fs where
  sb : Superblock
  /-- The bits of the free map: block `b` is in use. -/
  used : Nat → Bool
  dinode : Nat → Dinode
  data : Nat → Block
  itable : Nat → Entry

inductive Panic where
  | freeingFreeBlock
  | bmapOutOfRange
  | ilock
  | ilockNoType
  | iunlock
  | dirlookupNotDir
  | dirlookupRead
  | dirlinkRead
  | isdirempty
  | unlinkNlink
  | unlinkWritei
  /-- Not a panic of the source: an inode is used that its caller has not locked. -/
  | notLocked
  deriving DecidableEq, Repr

abbrev M := StateT Fs (Except Panic)

/-! ## Blocks -/

def zeroBlock : Block := fun _ => 0

/-- Word `j` of an indirect block. -/
def word (b : Block) (j : Nat) : BitVec 32 := if h : j < 256 then b ⟨j, h⟩ else 0

def setWord (b : Block) (j : Nat) (v : BitVec 32) : Block := fun k => if k.val = j then v else b k

/-- Byte `i` of a block. -/
def byte (b : Block) (i : Nat) : BitVec 8 := (word b (i / 4)).extractLsb' (8 * (i % 4)) 8

def setByte (b : Block) (i : Nat) (v : BitVec 8) : Block :=
  setWord b (i / 4) ((word b (i / 4) &&& ~~~(255#32 <<< (8 * (i % 4)))) |||
    (v.zeroExtend 32 <<< (8 * (i % 4))))

/-- Allocate a zeroed disk block, 0 if there is none. The two loops over the blocks of the
map and the bits of each come to one over all block numbers. -/
def balloc : M (BitVec 32) := do
  let fs ← get
  match (List.range fs.sb.size).find? fun b => !fs.used b with
  | some b =>
    modify fun fs => { fs with used := update fs.used b true, data := update fs.data b zeroBlock }
    pure (BitVec.ofNat 32 b)
  | none => pure 0

def bfree (b : BitVec 32) : M Unit := do
  let fs ← get
  if fs.used b.toNat then modify fun fs => { fs with used := update fs.used b.toNat false }
  else throw .freeingFreeBlock

def writeBlock (b : BitVec 32) (blk : Block) : M Unit :=
  modify fun fs => { fs with data := update fs.data b.toNat blk }

/-! ## In-memory inodes -/

/-- The in-memory copy of a locked inode. -/
def inode (inum : Nat) : M Dinode := do
  let fs ← get
  match (fs.itable inum).inode with
  | some ip => pure ip
  | none => throw .notLocked

def setInode (inum : Nat) (ip : Dinode) : M Unit :=
  modify fun fs =>
    { fs with itable := update fs.itable inum { fs.itable inum with inode := some ip } }

/-- Copy a modified in-memory inode to disk. -/
def iupdate (inum : Nat) : M Unit := do
  let ip ← inode inum
  modify fun fs => { fs with dinode := update fs.dinode inum ip }

/-- Take a reference to an inode. The table has room: the panic "iget: no inodes" is left out. -/
def iget (inum : Nat) : M Unit :=
  modify fun fs => { fs with itable := update fs.itable inum (fs.itable inum).get }

/-- Lock an inode, reading it from disk if necessary. -/
def ilock (inum : Nat) : M Unit := do
  let fs ← get
  let e := fs.itable inum
  if e.ref < 1 then throw .ilock
  else
    match e.inode with
    | some _ => pure ()
    | none =>
      setInode inum (fs.dinode inum)
      if (fs.dinode inum).type = 0 then throw .ilockNoType else pure ()

def iunlock (inum : Nat) : M Unit := do
  let fs ← get
  if (fs.itable inum).ref < 1 then throw .iunlock else pure ()

/-! ## Inode content -/

/-- `addrs[k]` of an inode, allocated if there is none; 0 if the disk is full. The code that reads takes
its allocator as an argument, `balloc` in the kernel. -/
def addrAt (inum : Nat) (ip : Dinode) (k : Nat) (alloc : M (BitVec 32) := balloc) : M (BitVec 32) := do
  if ip.addrs k = 0 then
    let addr ← alloc
    if addr = 0 then pure 0
    else
      setInode inum (ip.setAddr k addr)
      pure addr
  else pure (ip.addrs k)

/-- The disk block address of block `bn` of an inode, allocated if there is none; 0 if the
disk is full. -/
def bmap (inum bn : Nat) (alloc : M (BitVec 32) := balloc) : M (BitVec 32) := do
  let ip ← inode inum
  if bn < NDIRECT then addrAt inum ip bn alloc
  else if bn - NDIRECT < NINDIRECT then
    let ind ← addrAt inum ip NDIRECT alloc
    if ind = 0 then pure 0
    else
      let a := (← get).data ind.toNat
      if word a (bn - NDIRECT) = 0 then
        let addr ← alloc
        if addr = 0 then pure 0
        else
          writeBlock ind (setWord a (bn - NDIRECT) addr)
          pure addr
      else pure (word a (bn - NDIRECT))
  else throw .bmapOutOfRange

/-- The part of `itrunc` that frees the indirect block and those it names. -/
def truncIndirect (inum : Nat) : M Unit := do
  let ip ← inode inum
  if ip.addrs NDIRECT ≠ 0 then
    let a := (← get).data (ip.addrs NDIRECT).toNat
    forM (List.range NINDIRECT) fun j =>
      if word a j ≠ 0 then bfree (word a j) else pure ()
    bfree (ip.addrs NDIRECT)
    setInode inum (ip.setAddr NDIRECT 0)
  else pure ()

/-- Truncate an inode (discard its contents). -/
def itrunc (inum : Nat) : M Unit := do
  forM (List.range NDIRECT) fun i => do
    let ip ← inode inum
    if ip.addrs i ≠ 0 then
      bfree (ip.addrs i)
      setInode inum (ip.setAddr i 0)
    else pure ()
  truncIndirect inum
  let ip ← inode inum
  setInode inum { ip with size := 0 }
  iupdate inum

/-- The part of `iput` that truncates and frees an inode without links or other references. -/
def ifree (inum : Nat) : M Unit := do
  let e := (← get).itable inum
  match e.inode with
  | some ip =>
    if e.ref = 1 ∧ ip.nlink = 0 then
      itrunc inum
      setInode inum { (← inode inum) with type := 0 }
      iupdate inum
    else pure ()
  | none => pure ()

/-- Drop a reference; the last one to an inode without links frees it. -/
def iput (inum : Nat) : M Unit := do
  ifree inum
  modify fun fs => { fs with itable := update fs.itable inum (fs.itable inum).put }

def iunlockput (inum : Nat) : M Unit := do
  iunlock inum
  iput inum

/-- The memory that `writei` copies from: its bytes, of which the first `avail` can be read. -/
structure Src where
  byte : Nat → BitVec 8
  avail : Nat

/-- Copy `m` bytes from `src + tot` to offset `o` of a block, as far as they can be read. -/
def Src.copyin (src : Src) (b : Block) (o tot m : Nat) : Block :=
  (List.range (min m (src.avail - tot))).foldl (fun b k => setByte b (o + k) (src.byte (tot + k))) b

/-- The loop of `writei`; each round copies at least one byte, so `n` rounds are enough. -/
def writeLoop (inum : Nat) (src : Src) (n : Nat) : Nat → Nat → Nat → M (Nat × Nat)
  | 0, off, tot => pure (off, tot)
  | fuel + 1, off, tot =>
    if tot < n then do
      let addr ← bmap inum (off / BSIZE)
      if addr = 0 then pure (off, tot)
      else
        let m := min (n - tot) (BSIZE - off % BSIZE)
        let b := (← get).data addr.toNat
        writeBlock addr (src.copyin b (off % BSIZE) tot m)
        if tot + m ≤ src.avail then writeLoop inum src n fuel (off + m) (tot + m)
        else pure (off, tot)
    else pure (off, tot)

/-- Write `n` bytes at `off`; the number of bytes written, or -1. -/
def writei (inum : Nat) (src : Src) (off n : BitVec 32) : M Int := do
  let ip ← inode inum
  if off > ip.size ∨ off + n < off then pure (-1)
  else if (off + n).toNat > MAXFILE * BSIZE then pure (-1)
  else
    let (off', tot) ← writeLoop inum src n.toNat n.toNat off.toNat 0
    let ip ← inode inum
    (if off' > ip.size.toNat then setInode inum { ip with size := BitVec.ofNat 32 off' } else pure ())
    iupdate inum
    pure tot

/-- The loop of `readi`, with the bytes read so far; `none` if they cannot be copied out. -/
def readLoop (inum : Nat) (n avail : Nat) :
    Nat → Nat → Nat → List (BitVec 8) → (alloc : M (BitVec 32) := balloc) → M (Option (List (BitVec 8)))
  | 0, _, _, bs, _ => pure (some bs)
  | fuel + 1, off, tot, bs, alloc =>
    if tot < n then do
      let addr ← bmap inum (off / BSIZE) alloc
      if addr = 0 then pure (some bs)
      else
        let m := min (n - tot) (BSIZE - off % BSIZE)
        let b := (← get).data addr.toNat
        if tot + m ≤ avail then
          readLoop inum n avail fuel (off + m) (tot + m)
            (bs ++ (List.range m).map fun k => byte b (off % BSIZE + k)) alloc
        else pure none
    else pure (some bs)

/-- Read up to `n` bytes at `off` to memory of which `avail` bytes can be written. -/
def readi (inum : Nat) (off n : BitVec 32) (avail : Nat) (alloc : M (BitVec 32) := balloc) :
    M (Option (List (BitVec 8))) := do
  let ip ← inode inum
  if off > ip.size ∨ off + n < off then pure (some [])
  else
    let n := if off + n > ip.size then ip.size - off else n
    readLoop inum n.toNat avail n.toNat off.toNat 0 [] alloc

end Xv6.Blocks
