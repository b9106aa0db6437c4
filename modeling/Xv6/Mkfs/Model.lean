import Xv6.Blocks.Dir
import Xv6.Framework.Bytes

/-!
# `mkfs`

`mkfs.c`: the program that writes a file system image with a root directory and a list
of files. Sectors are read and written whole; inodes are 64-byte records of the sectors
from `inodestart` on, wherever their number leads. `mount` is what the kernel sees in an
image.
-/

namespace Xv6.Mkfs

open Function
open Blocks

def NINODES : Nat := 200
/-- Size of the file system in blocks. -/
def FSSIZE : Nat := 2000
/-- Inodes per block. -/
def IPB : Nat := BSIZE / 64

def nbitmap : Nat := FSSIZE / BPB + 1
def ninodeblocks : Nat := NINODES / IPB + 1
/-- The inodes that the inode blocks have room for. -/
def INODES : Nat := ninodeblocks * IPB
/-- Header followed by `LOGBLOCKS` data blocks. -/
def nlog : Nat := LOGBLOCKS + 1
/-- Number of meta blocks (boot, sb, nlog, inode, bitmap). -/
def nmeta : Nat := 2 + nlog + ninodeblocks + nbitmap
def inodestart : Nat := 2 + nlog
def bmapstart : Nat := 2 + nlog + ninodeblocks

/-- The bytes of a sector. -/
abbrev Sector := Nat → BitVec 8

def zeroes : Sector := fun _ => 0

structure Mk where
  sect : Nat → Sector
  /-- The number of sectors of the image. -/
  len : Nat
  freeinode : Nat
  freeblock : Nat

inductive Fail where
  | die
  | assert
  deriving DecidableEq, Repr

abbrev M := StateT Mk (Except Fail)

/-! ## Sectors and inodes -/

def rsect (sec : Nat) : M Sector := do
  let s ← get
  if sec < s.len then pure (s.sect sec) else throw .die

def wsect (sec : Nat) (buf : Sector) : M Unit :=
  modify fun s => { s with sect := update s.sect sec buf, len := max s.len (sec + 1) }

/-- Copy bytes to offset `o` of a buffer. -/
def bcopy (buf : Sector) (o : Nat) (bs : List (BitVec 8)) : Sector :=
  fun k => if o ≤ k ∧ k < o + bs.length then bs.getD (k - o) 0 else buf k

/-- The `struct dinode` at offset `o`. -/
def getDinode (buf : Sector) (o : Nat) : Dinode where
  type := readLe buf o 2
  major := readLe buf (o + 2) 2
  minor := readLe buf (o + 4) 2
  nlink := readLe buf (o + 6) 2
  size := readLe buf (o + 8) 4
  addrs := fun k => if k ≤ NDIRECT then readLe buf (o + 12 + 4 * k) 4 else 0

/-- The bytes of a `struct dinode`. -/
def dinodeByte (din : Dinode) (k : Nat) : BitVec 8 :=
  if k < 2 then din.type.extractLsb' (8 * k) 8
  else if k < 4 then din.major.extractLsb' (8 * (k - 2)) 8
  else if k < 6 then din.minor.extractLsb' (8 * (k - 4)) 8
  else if k < 8 then din.nlink.extractLsb' (8 * (k - 6)) 8
  else if k < 12 then din.size.extractLsb' (8 * (k - 8)) 8
  else (din.addrs ((k - 12) / 4)).extractLsb' (8 * ((k - 12) % 4)) 8

def putDinode (buf : Sector) (o : Nat) (din : Dinode) : Sector :=
  fun k => if o ≤ k ∧ k < o + 64 then dinodeByte din (k - o) else buf k

/-- The block containing inode `i`. -/
def iblock (i : Nat) : Nat := i / IPB + inodestart

def winode (inum : Nat) (din : Dinode) : M Unit := do
  let buf ← rsect (iblock inum)
  wsect (iblock inum) (putDinode buf (inum % IPB * 64) din)

def rinode (inum : Nat) : M Dinode := do
  let buf ← rsect (iblock inum)
  pure (getDinode buf (inum % IPB * 64))

def ialloc (type : BitVec 16) : M Nat := do
  let s ← get
  set { s with freeinode := s.freeinode + 1 }
  winode s.freeinode { type := type, major := 0, minor := 0, nlink := 1, size := 0, addrs := fun _ => 0 }
  pure s.freeinode

/-! ## `iappend` -/

/-- `freeblock++` -/
def takeBlock : M Nat := do
  let s ← get
  set { s with freeblock := s.freeblock + 1 }
  pure s.freeblock

/-- The inode with its indirect block, taken if there is none. -/
def indirectFor (din : Dinode) : M Dinode := do
  if din.addrs NDIRECT = 0 then
    let b ← takeBlock
    pure (din.setAddr NDIRECT (BitVec.ofNat 32 b))
  else pure din

/-- The block in entry `j` of the indirect block, taken if there is none. -/
def entryFor (din : Dinode) (j : Nat) : M Nat := do
  let indirect ← rsect (din.addrs NDIRECT).toNat
  let x : BitVec 32 := readLe indirect (4 * j) 4
  if x = 0 then
    let b ← takeBlock
    wsect (din.addrs NDIRECT).toNat (writeLe indirect (4 * j) 4 (BitVec.ofNat 32 b))
    pure b
  else pure x.toNat

/-- The block of an inode's block `fbn`, taken if there is none, with the inode as it is then. -/
def blockFor (din : Dinode) (fbn : Nat) : M (Dinode × Nat) := do
  if fbn < NDIRECT then
    if din.addrs fbn = 0 then
      let b ← takeBlock
      pure (din.setAddr fbn (BitVec.ofNat 32 b), b)
    else pure (din, (din.addrs fbn).toNat)
  else
    let din ← indirectFor din
    let x ← entryFor din (fbn - NDIRECT)
    pure (din, x)

/-- The loop of `iappend`; each round copies at least one byte, so `p.length` rounds are enough. -/
def appendLoop : Nat → List (BitVec 8) → Dinode → Nat → M (Dinode × Nat)
  | 0, _, din, off => pure (din, off)
  | fuel + 1, p, din, off =>
    if 0 < p.length then do
      let fbn := off / BSIZE
      if fbn < MAXFILE then
        let (din, x) ← blockFor din fbn
        let n1 := min p.length ((fbn + 1) * BSIZE - off)
        let buf ← rsect x
        wsect x (bcopy buf (off - fbn * BSIZE) (p.take n1))
        appendLoop fuel (p.drop n1) din (off + n1)
      else throw .assert
    else pure (din, off)

def iappend (inum : Nat) (p : List (BitVec 8)) : M Unit := do
  let din ← rinode inum
  let (din, off) ← appendLoop p.length p din din.size.toNat
  winode inum { din with size := BitVec.ofNat 32 off }

/-! ## `main` -/

/-- The bitmap with the first `used` blocks marked. -/
def bitmap (used : Nat) : Sector :=
  (List.range used).foldl (fun buf i => update buf (i / 8) (buf (i / 8) ||| 1#8 <<< (i % 8))) zeroes

def balloc (used : Nat) : M Unit := do
  if used < BPB then wsect bmapstart (bitmap used) else throw .assert

/-- The super block. -/
def sbSector : Sector :=
  [0x10203040, FSSIZE, FSSIZE - nmeta, NINODES, nlog, 2, inodestart, bmapstart].zipIdx.foldl
    (fun b x => writeLe b (4 * x.2) 4 (BitVec.ofNat 32 x.1)) zeroes

/-- A file given to `mkfs`: the argument, and what reading it gives. -/
structure File where
  arg : Name
  data : List (BitVec 8)

/-- "user/" -/
def userDir : Name := [117, 115, 101, 114, 47]

/-- The name of the file in the image, without a leading "user/" and "_". -/
def shortname (arg : Name) : Name :=
  let name := if userDir.isPrefixOf arg then arg.drop 5 else arg
  if name.head? = some 95 then name.tail else name

/-- Append what is read from a file, a buffer at a time. -/
def appendFile (inum : Nat) : Nat → List (BitVec 8) → M Unit
  | 0, _ => pure ()
  | fuel + 1, data =>
    if 0 < data.length then do
      iappend inum (data.take BSIZE)
      appendFile inum fuel (data.drop BSIZE)
    else pure ()

def appendEntry (inum : Nat) (name : Name) : M Unit :=
  iappend ROOTINO (Dirent.encode ⟨BitVec.ofNat 16 inum, strncpy DIRSIZ name⟩)

def addFile (f : File) : M Unit := do
  if (if userDir.isPrefixOf f.arg then f.arg.drop 5 else f.arg).contains 47 then throw .assert
  else if (shortname f.arg).length ≤ DIRSIZ then
    let inum ← ialloc T_FILE
    appendEntry inum (shortname f.arg)
    appendFile inum f.data.length f.data
  else throw .assert

/-- Round the size of the root directory up. -/
def fixRoot : M Unit := do
  let din ← rinode ROOTINO
  winode ROOTINO { din with size := BitVec.ofNat 32 ((din.size.toNat / BSIZE + 1) * BSIZE) }

/-- The image after `FSSIZE` sectors of zeroes have been written. -/
def blank : Mk where
  sect := fun _ => zeroes
  len := FSSIZE
  freeinode := 1
  freeblock := nmeta

def main (files : List File) : M Unit := do
  wsect 1 sbSector
  let rootino ← ialloc T_DIR
  if rootino = ROOTINO then
    appendEntry rootino [46]
    appendEntry rootino [46, 46]
    forM files addFile
    fixRoot
    let s ← get
    balloc s.freeblock
  else throw .assert

def mkfs (files : List File) : Except Fail Mk :=
  match main files blank with
  | .ok (_, s) => .ok s
  | .error e => .error e

/-! ## What the kernel sees -/

/-- The words of a block. -/
def blockOf (buf : Sector) : Block := fun j => readLe buf (4 * j.val) 4

def Mk.dinode (s : Mk) (i : Nat) : Dinode := getDinode (s.sect (iblock i)) (i % IPB * 64)

/-- An inode that is not there. -/
def noInode : Dinode := { type := 0, major := 0, minor := 0, nlink := 0, size := 0, addrs := fun _ => 0 }

/-- The file system in an image: the inodes and the bitmap from where the super block says, and the
blocks after the metadata. `iget` and `ilock` do not check the number of an inode, which may lead
past the inode blocks. -/
def mount (s : Mk) : Fs :=
  let sb : Superblock :=
    { size := (readLe (s.sect 1) 4 4).toNat
      ninodes := (readLe (s.sect 1) 12 4).toNat
      bmapstart := (readLe (s.sect 1) 28 4).toNat }
  { sb := sb
    used := fun b => (s.sect (sb.bmapstart + b / BPB) (b % BPB / 8)).getLsbD (b % 8)
    dinode := fun i => getDinode (s.sect (i / IPB + (readLe (s.sect 1) 24 4).toNat)) (i % IPB * 64)
    data := fun b => if b < sb.datastart then zeroBlock else blockOf (s.sect b)
    itable := fun _ => ⟨0, none⟩ }

end Xv6.Mkfs
