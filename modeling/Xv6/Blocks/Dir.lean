import Xv6.Blocks.Model

/-!
# Directories

Directory entries and the calls that change them: `dirlookup`, `dirlink`, `ialloc`,
and, from the parent directory on that `nameiparent` has found, `create` and
`sys_unlink`.
-/

namespace Xv6.Blocks

open Function

def DIRSIZ : Nat := 14

/-- A C string or a name field; bytes past the end of the list count as NUL. -/
abbrev Name := List (BitVec 8)

structure Dirent where
  inum : BitVec 16
  name : Name

/-- `sizeof(struct dirent)`. -/
def direntSize : Nat := 16

def Dirent.decode (bs : List (BitVec 8)) : Dirent where
  inum := bs.getD 1 0 ++ bs.getD 0 0
  name := (bs.drop 2).take DIRSIZ

def Dirent.encode (de : Dirent) : List (BitVec 8) :=
  [de.inum.extractLsb' 0 8, de.inum.extractLsb' 8 8] ++ de.name

/-- `strncmp(s, t, n) == 0`. -/
def strncmpEq : Nat → Name → Name → Bool
  | 0, _, _ => true
  | n + 1, s, t =>
    if s.headD 0 ≠ t.headD 0 then false
    else if s.headD 0 = 0 then true
    else strncmpEq n s.tail t.tail

def namecmp (s t : Name) : Bool := strncmpEq DIRSIZ s t

/-- `strncpy` of at most `n` bytes, padded with NULs. -/
def strncpy : Nat → Name → Name
  | 0, _ => []
  | n + 1, s => if s.headD 0 = 0 then List.replicate (n + 1) 0 else s.headD 0 :: strncpy n s.tail

/-- Kernel memory, all of which can be read. -/
def Src.kernel (bs : List (BitVec 8)) : Src := ⟨fun k => bs.getD k 0, bs.length⟩

/-- Read the entry at `off`; anything short of it is a panic. -/
def readDirent (inum off : Nat) (p : Panic) (alloc : M (BitVec 32) := balloc) : M Dirent := do
  match ← readi inum (BitVec.ofNat 32 off) (BitVec.ofNat 32 direntSize) direntSize alloc with
  | some bs => if bs.length = direntSize then pure (.decode bs) else throw p
  | none => throw p

/-- The loop of `dirlookup`; an entry is `direntSize` bytes, so that the size bounds the rounds. -/
def lookupLoop (inum : Nat) (name : Name) :
    Nat → Nat → (alloc : M (BitVec 32) := balloc) → M (Option (BitVec 16 × Nat))
  | 0, _, _ => pure none
  | fuel + 1, off, alloc => do
    let dp ← inode inum
    if off < dp.size.toNat then
      let de ← readDirent inum off .dirlookupRead alloc
      if de.inum = 0 then lookupLoop inum name fuel (off + direntSize) alloc
      else if namecmp name de.name then pure (some (de.inum, off))
      else lookupLoop inum name fuel (off + direntSize) alloc
    else pure none

/-- Look for an entry; the inode found, with a reference taken, and the entry's offset. -/
def dirlookup (inum : Nat) (name : Name) (alloc : M (BitVec 32) := balloc) : M (Option (Nat × Nat)) := do
  let dp ← inode inum
  if dp.type ≠ T_DIR then throw .dirlookupNotDir
  else
    match ← lookupLoop inum name (dp.size.toNat + 1) 0 alloc with
    | some (target, off) =>
      iget target.toNat
      pure (some (target.toNat, off))
    | none => pure none

/-- The offset of the first empty entry, or the end of the directory. -/
def freeLoop (inum : Nat) : Nat → Nat → M Nat
  | 0, off => pure off
  | fuel + 1, off => do
    let dp ← inode inum
    if off < dp.size.toNat then
      let de ← readDirent inum off .dirlinkRead
      if de.inum = 0 then pure off else freeLoop inum fuel (off + direntSize)
    else pure off

/-- Write a new directory entry; -1 if the name is present or the disk is full. -/
def dirlink (inum : Nat) (name : Name) (target : Nat) : M Int := do
  match ← dirlookup inum name with
  | some (other, _) =>
    iput other
    pure (-1)
  | none =>
    let dp ← inode inum
    let off ← freeLoop inum (dp.size.toNat + 1) 0
    let de : Dirent := ⟨BitVec.ofNat 16 target, strncpy DIRSIZ name⟩
    let r ← writei inum (.kernel de.encode) (BitVec.ofNat 32 off) (BitVec.ofNat 32 direntSize)
    if r ≠ direntSize then pure (-1) else pure 0

/-- The loop of `isdirempty`. -/
def emptyLoop (inum : Nat) : Nat → Nat → (alloc : M (BitVec 32) := balloc) → M Bool
  | 0, _, _ => pure true
  | fuel + 1, off, alloc => do
    let dp ← inode inum
    if off < dp.size.toNat then
      let de ← readDirent inum off .isdirempty alloc
      if de.inum ≠ 0 then pure false else emptyLoop inum fuel (off + direntSize) alloc
    else pure true

/-- Is the directory empty except for "." and ".."? -/
def isdirempty (inum : Nat) (alloc : M (BitVec 32) := balloc) : M Bool := do
  let dp ← inode inum
  emptyLoop inum (dp.size.toNat + 1) (2 * direntSize) alloc

/-- Allocate an inode of type `type` and take a reference to it. -/
def ialloc (type : BitVec 16) : M (Option Nat) := do
  let fs ← get
  match (List.range fs.sb.ninodes).find? fun inum => 1 ≤ inum ∧ (fs.dinode inum).type = 0 with
  | some inum =>
    let dip : Dinode := { type, major := 0, minor := 0, nlink := 0, size := 0, addrs := fun _ => 0 }
    modify fun fs => { fs with dinode := update fs.dinode inum dip }
    iget inum
    pure (some inum)
  | none => pure none

def dot : Name := [46]
def dotdot : Name := [46, 46]

/-- `ip->nlink += k` of a locked inode, with its `iupdate`. -/
def addLinks (inum : Nat) (k : BitVec 16) : M Unit := do
  let ip ← inode inum
  setInode inum { ip with nlink := ip.nlink + k }
  iupdate inum

/-- The "." and ".." entries that `create` gives a new directory. -/
def makeDots (dp ip : Nat) (type : BitVec 16) : M Bool := do
  if type = T_DIR then
    if (← dirlink ip dot ip) < 0 then pure false
    else if (← dirlink ip dotdot dp) < 0 then pure false
    else pure true
  else pure true

/-- The failure path of `create`: de-allocate `ip`. -/
def createFail (dp ip : Nat) : M (Option Nat) := do
  setInode ip { (← inode ip) with nlink := 0 }
  iupdate ip
  iunlockput ip
  iunlockput dp
  pure none

/-- `create` in the directory `dp`, to which the caller has a reference; the new inode is
returned locked. -/
def create (dp : Nat) (name : Name) (type major minor : BitVec 16) : M (Option Nat) := do
  ilock dp
  match ← dirlookup dp name with
  | some (ip, _) =>
    iunlockput dp
    ilock ip
    let i ← inode ip
    if type = T_FILE ∧ (i.type = T_FILE ∨ i.type = T_DEVICE) then pure (some ip)
    else
      iunlockput ip
      pure none
  | none =>
    match ← ialloc type with
    | none =>
      iunlockput dp
      pure none
    | some ip =>
      ilock ip
      setInode ip { (← inode ip) with major, minor, nlink := 1 }
      iupdate ip
      let made ← makeDots dp ip type
      if !made then createFail dp ip
      else if (← dirlink dp name ip) < 0 then createFail dp ip
      else
        (if type = T_DIR then addLinks dp 1 else pure ())
        iunlockput dp
        pure (some ip)

/-- `sys_unlink` of `name` in the directory `dp`, to which the caller has a reference. -/
def unlink (dp : Nat) (name : Name) : M Int := do
  ilock dp
  if namecmp name dot ∨ namecmp name dotdot then
    iunlockput dp
    pure (-1)
  else
    match ← dirlookup dp name with
    | none =>
      iunlockput dp
      pure (-1)
    | some (ip, off) =>
      ilock ip
      let i ← inode ip
      if i.nlink.toInt < 1 then throw .unlinkNlink
      else
        let full ← (if i.type = T_DIR then (do pure !(← isdirempty ip)) else pure false)
        if full then
          iunlockput ip
          iunlockput dp
          pure (-1)
        else
          let zero := List.replicate direntSize 0
          let r ← writei dp (.kernel zero) (BitVec.ofNat 32 off) (BitVec.ofNat 32 direntSize)
          if r ≠ direntSize then throw .unlinkWritei
          else
            (if i.type = T_DIR then addLinks dp (-1) else pure ())
            iunlockput dp
            addLinks ip (-1)
            iunlockput ip
            pure 0

/-! ## Calls -/

/-- A call, made by a process that has the references and locks that the call needs. -/
inductive Call where
  | iget (inum : Nat)
  | ilock (inum : Nat)
  | iput (inum : Nat)
  | readi (inum : Nat) (off n : BitVec 32) (avail : Nat)
  | writei (inum : Nat) (src : Src) (off n : BitVec 32)
  /-- `bmap`, with the `iupdate` that its callers owe it. -/
  | bmap (inum bn : Nat)
  | itrunc (inum : Nat)
  | create (dp : Nat) (name : Name) (type major minor : BitVec 16)
  | unlink (dp : Nat) (name : Name)

def runCall : Call → M Unit
  | .iget inum => iget inum
  | .ilock inum => ilock inum
  | .iput inum => iput inum
  | .readi inum off n avail => do
    let _ ← readi inum off n avail
    pure ()
  | .writei inum src off n => do
    let _ ← writei inum src off n
    pure ()
  | .bmap inum bn => do
    let _ ← bmap inum bn
    iupdate inum
  | .itrunc inum => itrunc inum
  | .create dp name type major minor => do
    let _ ← create dp name type major minor
    pure ()
  | .unlink dp name => do
    let _ ← unlink dp name
    pure ()

def runCalls (cs : List Call) : M Unit := forM cs runCall

end Xv6.Blocks
