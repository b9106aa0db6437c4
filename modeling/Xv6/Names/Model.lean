import Xv6.Blocks.Dir
import Xv6.Framework.Conc

/-!
# Names, links and references

The system calls that change the tree of names, as concurrent processes run them:
`sys_open`, `sys_close`, `sys_mkdir`, `sys_mknod`, `sys_link`, `sys_unlink`, `sys_chdir`
and the part of `kexit` that drops a process's inodes, with `namex`, `create`, `dirlink`
and the inode table under them.

The steps of a process are those that others can see: operations on the inode table,
which hold `itable.lock`, and reads and writes of an inode whose sleep-lock it holds. An
inode in memory is changed under its lock and written back before it is unlocked, so
that one copy stands for both. Of the contents only those of directories are kept.
-/

namespace Xv6.Names

open Function
open Blocks

abbrev Pid := Fin NPROC

instance : NeZero NPROC := ⟨by decide⟩

/-- Maximum major device number. -/
def NDEV : Nat := 10

def O_RDONLY : BitVec 32 := 0x000
def O_CREATE : BitVec 32 := 0x200

/-- The number of entries that a directory has room for, `MAXFILE * BSIZE / sizeof(struct dirent)`. -/
def MAXENTS : Nat := 17152

inductive InodeType where
  | free | dir | file | device
  deriving DecidableEq, Repr

structure Inode where
  type : InodeType
  major : BitVec 16
  minor : BitVec 16
  nlink : BitVec 16
  /-- The entries of a directory, the empty ones included. -/
  ents : List Dirent

/-- An entry of the inode table; the sleep-lock with the process that holds it. -/
structure Entry where
  ref : Nat
  valid : Bool
  lock : Option Pid

structure Fs where
  inode : Nat → Inode
  itable : Nat → Entry

inductive Panic where
  | ilock
  | ilockNoType
  | iunlock
  | dirlookupNotDir
  | unlinkNlink
  | unlinkWritei
  deriving DecidableEq, Repr

/-! ## Operations -/

inductive Op where
  | iget (i : Nat)
  | idup (i : Nat)
  | ilock (i : Nat)
  | iunlock (i : Nat)
  /-- `iput` up to its decision: free the inode, or drop the reference. -/
  | iput (i : Nat)
  /-- In `iput`: `itrunc`, `type = 0`, `iupdate` and `valid = 0`. -/
  | ifree (i : Nat)
  | releasesleep (i : Nat)
  /-- The `ref--` of an `iput` that has freed the inode. -/
  | unref (i : Nat)
  /-- Look at one inode of the disk in `ialloc`, and take it if it is free. -/
  | ialloc (i : Nat) (type : InodeType)
  | read (i : Nat)
  /-- In `create`: `major`, `minor` and `nlink = 1`, with `iupdate`. -/
  | initInode (i : Nat) (major minor : BitVec 16)
  /-- Set `nlink`, with `iupdate`. -/
  | setNlink (i : Nat) (n : BitVec 16)
  /-- `writei` of the entry with index `off`; it fails if the disk or the directory is full. -/
  | writeEnt (i off : Nat) (de : Dirent)
  /-- `filealloc` and `fdalloc`, which may fail. -/
  | fdalloc

@[reducible] def Op.Res : Op → Type
  | .iput _ | .ialloc .. | .writeEnt .. | .fdalloc => Bool
  | .read _ => Inode
  | _ => Unit

def Fs.setEntry (s : Fs) (i : Nat) (e : Entry) : Fs := { s with itable := update s.itable i e }

def Fs.setInode (s : Fs) (i : Nat) (c : Inode) : Fs := { s with inode := update s.inode i c }

@[simp] theorem Fs.setEntry_self (s : Fs) (i : Nat) (e : Entry) : (s.setEntry i e).itable i = e :=
  update_self ..

theorem Fs.setEntry_of_ne (s : Fs) {i j : Nat} (e : Entry) (h : j ≠ i) :
    (s.setEntry i e).itable j = s.itable j := update_of_ne h ..

@[simp] theorem Fs.setEntry_inode (s : Fs) (i : Nat) (e : Entry) : (s.setEntry i e).inode = s.inode := rfl

@[simp] theorem Fs.setInode_self (s : Fs) (i : Nat) (c : Inode) : (s.setInode i c).inode i = c :=
  update_self ..

theorem Fs.setInode_of_ne (s : Fs) {i j : Nat} (c : Inode) (h : j ≠ i) :
    (s.setInode i c).inode j = s.inode j := update_of_ne h ..

@[simp] theorem Fs.setInode_itable (s : Fs) (i : Nat) (c : Inode) : (s.setInode i c).itable = s.itable := rfl

def Entry.get (e : Entry) : Entry :=
  if 0 < e.ref then { e with ref := e.ref + 1 } else { e with ref := 1, valid := false }

/-- The entries after `writei` of entry `off`, if there is room. -/
def writeAt (ents : List Dirent) (off : Nat) (de : Dirent) (room : Bool) : Option (List Dirent) :=
  if off < ents.length then some (ents.set off de)
  else if room ∧ ents.length < MAXENTS then some (ents ++ [de])
  else none

def freshInode (type : InodeType) : Inode := { type, major := 0, minor := 0, nlink := 0, ents := [] }

/-- The inode table has room: `iget` does not panic with "iget: no inodes". -/
def exec (p : Pid) : (o : Op) → Bool → Fs → Option (Except Panic (o.Res × Fs))
  | .iget i, _, s => some (.ok ((), s.setEntry i (s.itable i).get))
  | .idup i, _, s => some (.ok ((), s.setEntry i { s.itable i with ref := (s.itable i).ref + 1 }))
  | .ilock i, _, s =>
    if (s.itable i).ref < 1 then some (.error .ilock)
    else if (s.itable i).lock ≠ none then none
    else if (s.itable i).valid = false ∧ (s.inode i).type = .free then some (.error .ilockNoType)
    else some (.ok ((), s.setEntry i { s.itable i with valid := true, lock := some p }))
  | .iunlock i, _, s =>
    if (s.itable i).lock ≠ some p ∨ (s.itable i).ref < 1 then some (.error .iunlock)
    else some (.ok ((), s.setEntry i { s.itable i with lock := none }))
  | .iput i, _, s =>
    if (s.itable i).ref = 1 ∧ (s.itable i).valid = true ∧ (s.inode i).nlink = 0 then
      if (s.itable i).lock ≠ none then none
      else some (.ok (true, s.setEntry i { s.itable i with lock := some p }))
    else some (.ok (false, s.setEntry i { s.itable i with ref := (s.itable i).ref - 1 }))
  | .ifree i, _, s =>
    some (.ok ((), (s.setInode i { s.inode i with type := .free, ents := [] }).setEntry i
      { s.itable i with valid := false }))
  | .releasesleep i, _, s => some (.ok ((), s.setEntry i { s.itable i with lock := none }))
  | .unref i, _, s => some (.ok ((), s.setEntry i { s.itable i with ref := (s.itable i).ref - 1 }))
  | .ialloc i type, _, s =>
    if (s.inode i).type = .free then some (.ok (true, s.setInode i (freshInode type)))
    else some (.ok (false, s))
  | .read i, _, s => some (.ok (s.inode i, s))
  | .initInode i major minor, _, s =>
    some (.ok ((), s.setInode i { s.inode i with major, minor, nlink := 1 }))
  | .setNlink i n, _, s => some (.ok ((), s.setInode i { s.inode i with nlink := n }))
  | .writeEnt i off de, room, s =>
    match writeAt (s.inode i).ents off de room with
    | some ents => some (.ok (true, s.setInode i { s.inode i with ents }))
    | none => some (.ok (false, s))
  | .fdalloc, room, s => some (.ok (room, s))

/-! ## Code -/

abbrev Code := Prog Op Op.Res Panic

def perform (o : Op) : Code o.Res := Prog.perform o

def iput (i : Nat) : Code Unit := do
  if ← perform (.iput i) then
    perform (.ifree i)
    perform (.releasesleep i)
    perform (.unref i)
  else pure ()

def iunlockput (i : Nat) : Code Unit := do
  perform (.iunlock i)
  iput i

/-- The first entry with the name: its inode number and index. -/
def lookup (name : Name) : List Dirent → Nat → Option (Nat × Nat)
  | [], _ => none
  | de :: ents, off =>
    if de.inum ≠ 0 ∧ namecmp name de.name then some (de.inum.toNat, off) else lookup name ents (off + 1)

def dirlookup (dp : Nat) (name : Name) : Code (Option (Nat × Nat)) := do
  let d ← perform (.read dp)
  if d.type ≠ .dir then .panic .dirlookupNotDir
  else
    match lookup name d.ents 0 with
    | some (inum, off) =>
      perform (.iget inum)
      pure (some (inum, off))
    | none => pure none

/-- `dirlink`, with whether it succeeded. -/
def dirlink (dp : Nat) (name : Name) (inum : Nat) : Code Bool := do
  match ← dirlookup dp name with
  | some (ip, _) =>
    iput ip
    pure false
  | none =>
    let d ← perform (.read dp)
    perform (.writeEnt dp (d.ents.findIdx fun de => de.inum = 0)
      ⟨BitVec.ofNat 16 inum, strncpy DIRSIZ name⟩)

/-! ### Paths -/

def slash : BitVec 8 := 47

/-- The next path element and the path that follows it; a path ends before its NUL. -/
def skipelem (path : Name) : Option (Name × Name) :=
  match path.dropWhile (· = slash) with
  | [] => none
  | s => some ((s.takeWhile (· ≠ slash)).take DIRSIZ, (s.dropWhile (· ≠ slash)).dropWhile (· = slash))

/-- The elements that repeated calls of `skipelem` give. -/
def elems : Nat → Name → List Name
  | 0, _ => []
  | fuel + 1, path =>
    match skipelem path with
    | none => []
    | some (name, rest) => name :: elems fuel rest

/-- The loop of `namex`. -/
def walk (parent : Bool) (ip : Nat) : List Name → Code (Option (Nat × Name))
  | [] =>
    if parent then do
      iput ip
      pure none
    else pure (some (ip, []))
  | name :: rest => do
    perform (.ilock ip)
    let i ← perform (.read ip)
    if i.type ≠ .dir then
      iunlockput ip
      pure none
    else if parent ∧ rest = [] then
      perform (.iunlock ip)
      pure (some (ip, name))
    else
      match ← dirlookup ip name with
      | none =>
        iunlockput ip
        pure none
      | some (next, _) =>
        iunlockput ip
        walk parent next rest

def namex (cwd : Nat) (path : Name) (parent : Bool) : Code (Option (Nat × Name)) :=
  if path.head? = some slash then do
    perform (.iget ROOTINO)
    walk parent ROOTINO (elems path.length path)
  else do
    perform (.idup cwd)
    walk parent cwd (elems path.length path)

def namei (cwd : Nat) (path : Name) : Code (Option Nat) := do
  match ← namex cwd path false with
  | some (ip, _) => pure (some ip)
  | none => pure none

def nameiparent (cwd : Nat) (path : Name) : Code (Option (Nat × Name)) := namex cwd path true

/-! ### `create` -/

def iallocLoop (type : InodeType) : List Nat → Code (Option Nat)
  | [] => pure none
  | inum :: rest => do
    if ← perform (.ialloc inum type) then
      perform (.iget inum)
      pure (some inum)
    else iallocLoop type rest

/-- `ialloc` on a disk with `ninodes` inodes. -/
def ialloc (ninodes : Nat) (type : InodeType) : Code (Option Nat) :=
  iallocLoop type ((List.range ninodes).drop 1)

/-- The "." and ".." entries of a new directory. -/
def makeDots (dp ip : Nat) (type : InodeType) : Code Bool := do
  if type = .dir then
    if ← dirlink ip dot ip then dirlink ip dotdot dp else pure false
  else pure true

/-- The failure path of `create`. -/
def createFail (dp ip : Nat) : Code (Option Nat) := do
  perform (.setNlink ip 0)
  iunlockput ip
  iunlockput dp
  pure none

/-- `nlink++` of a locked inode. -/
def incNlink (i : Nat) : Code Unit := do
  let c ← perform (.read i)
  perform (.setNlink i (c.nlink + 1))

/-- `nlink--` of a locked inode. -/
def decNlink (i : Nat) : Code Unit := do
  let c ← perform (.read i)
  perform (.setNlink i (c.nlink - 1))

/-- `create` of a new inode in `dp`; both are locked. -/
def createNew (dp ip : Nat) (name : Name) (type : InodeType) : Code (Option Nat) := do
  if !(← makeDots dp ip type) then createFail dp ip
  else if !(← dirlink dp name ip) then createFail dp ip
  else
    (if type = .dir then incNlink dp else pure ())
    iunlockput dp
    pure (some ip)

/-- The new inode, or an existing one that will do, locked. -/
def create (ninodes cwd : Nat) (path : Name) (type : InodeType) (major minor : BitVec 16) :
    Code (Option Nat) := do
  match ← nameiparent cwd path with
  | none => pure none
  | some (dp, name) =>
    perform (.ilock dp)
    match ← dirlookup dp name with
    | some (ip, _) =>
      iunlockput dp
      perform (.ilock ip)
      let i ← perform (.read ip)
      if type = .file ∧ (i.type = .file ∨ i.type = .device) then pure (some ip)
      else
        iunlockput ip
        pure none
    | none =>
      match ← ialloc ninodes type with
      | none =>
        iunlockput dp
        pure none
      | some ip =>
        perform (.ilock ip)
        perform (.initInode ip major minor)
        createNew dp ip name type

/-! ### System calls -/

/-- What a process keeps between calls: its directory and the inodes of its open files. -/
structure Proc where
  cwd : Nat
  files : List Nat

/-- A process between calls, `none` if it has exited, with the result of the last call. -/
structure Idle where
  proc : Option Proc
  ret : Int

inductive Call where
  | open (path : Name) (omode : BitVec 32)
  | close (fd : Nat)
  | mkdir (path : Name)
  | mknod (path : Name) (major minor : BitVec 16)
  | link (old new : Name)
  | unlink (path : Name)
  | chdir (path : Name)
  | exit

/-- The first half of `sys_open`: the inode, locked. -/
def openInode (ninodes cwd : Nat) (path : Name) (omode : BitVec 32) : Code (Option Nat) := do
  if omode &&& O_CREATE ≠ 0 then create ninodes cwd path .file 0 0
  else
    match ← namei cwd path with
    | none => pure none
    | some ip =>
      perform (.ilock ip)
      let i ← perform (.read ip)
      if i.type = .dir ∧ omode ≠ O_RDONLY then
        iunlockput ip
        pure none
      else pure (some ip)

def sysOpen (ninodes : Nat) (p : Proc) (path : Name) (omode : BitVec 32) : Code Idle := do
  match ← openInode ninodes p.cwd path omode with
  | none => pure ⟨p, -1⟩
  | some ip =>
    let i ← perform (.read ip)
    if i.type = .device ∧ (i.major.toInt < 0 ∨ NDEV ≤ i.major.toInt) then
      iunlockput ip
      pure ⟨p, -1⟩
    else if !(← perform .fdalloc) then
      iunlockput ip
      pure ⟨p, -1⟩
    else
      perform (.iunlock ip)
      pure ⟨some { p with files := p.files ++ [ip] }, p.files.length⟩

def sysClose (p : Proc) (fd : Nat) : Code Idle :=
  match p.files[fd]? with
  | none => pure ⟨p, -1⟩
  | some ip => do
    iput ip
    pure ⟨some { p with files := p.files.eraseIdx fd }, 0⟩

/-- `sys_mkdir` and `sys_mknod`. -/
def sysMake (ninodes : Nat) (p : Proc) (path : Name) (type : InodeType) (major minor : BitVec 16) :
    Code Idle := do
  match ← create ninodes p.cwd path type major minor with
  | none => pure ⟨p, -1⟩
  | some ip =>
    iunlockput ip
    pure ⟨p, 0⟩

/-- The exit of `sys_link` at `bad`. -/
def linkBad (p : Proc) (ip : Nat) : Code Idle := do
  perform (.ilock ip)
  decNlink ip
  iunlockput ip
  pure ⟨p, -1⟩

def sysLink (p : Proc) (old new : Name) : Code Idle := do
  match ← namei p.cwd old with
  | none => pure ⟨p, -1⟩
  | some ip =>
    perform (.ilock ip)
    let i ← perform (.read ip)
    if i.type = .dir then
      iunlockput ip
      pure ⟨p, -1⟩
    else
      incNlink ip
      perform (.iunlock ip)
      match ← nameiparent p.cwd new with
      | none => linkBad p ip
      | some (dp, name) =>
        perform (.ilock dp)
        if !(← dirlink dp name ip) then
          iunlockput dp
          linkBad p ip
        else
          iunlockput dp
          iput ip
          pure ⟨p, 0⟩

/-- Is the directory empty except for "." and ".."? -/
def isdirempty (ents : List Dirent) : Bool := (ents.drop 2).all fun de => de.inum = 0

/-- The exit of `sys_unlink` at `bad`. -/
def unlinkBad (p : Proc) (dp : Nat) : Code Idle := do
  iunlockput dp
  pure ⟨p, -1⟩

/-- `sys_unlink` of the entry `off` of `dp`, which names `ip`; both are locked. -/
def unlinkEnt (p : Proc) (dp ip off : Nat) : Code Idle := do
  let i ← perform (.read ip)
  if i.nlink.toInt < 1 then .panic .unlinkNlink
  else if i.type = .dir ∧ !isdirempty i.ents then
    iunlockput ip
    unlinkBad p dp
  else if !(← perform (.writeEnt dp off ⟨0, List.replicate DIRSIZ 0⟩)) then .panic .unlinkWritei
  else
    (if i.type = .dir then decNlink dp else pure ())
    iunlockput dp
    decNlink ip
    iunlockput ip
    pure ⟨p, 0⟩

def sysUnlink (p : Proc) (path : Name) : Code Idle := do
  match ← nameiparent p.cwd path with
  | none => pure ⟨p, -1⟩
  | some (dp, name) =>
    perform (.ilock dp)
    if namecmp name dot ∨ namecmp name dotdot then unlinkBad p dp
    else
      match ← dirlookup dp name with
      | none => unlinkBad p dp
      | some (ip, off) =>
        perform (.ilock ip)
        unlinkEnt p dp ip off

def sysChdir (p : Proc) (path : Name) : Code Idle := do
  match ← namei p.cwd path with
  | none => pure ⟨p, -1⟩
  | some ip =>
    perform (.ilock ip)
    let i ← perform (.read ip)
    if i.type ≠ .dir then
      iunlockput ip
      pure ⟨p, -1⟩
    else
      perform (.iunlock ip)
      iput p.cwd
      pure ⟨some { p with cwd := ip }, 0⟩

def iputAll : List Nat → Code Unit
  | [] => pure ()
  | i :: is => do
    iput i
    iputAll is

/-- `kexit`: close all files, then leave the directory. -/
def exit (p : Proc) : Code Idle := do
  iputAll p.files
  iput p.cwd
  pure ⟨none, 0⟩

def code (ninodes : Nat) : Call → Idle → Code Idle
  | _, ⟨none, r⟩ => pure ⟨none, r⟩
  | .open path omode, ⟨some p, _⟩ => sysOpen ninodes p path omode
  | .close fd, ⟨some p, _⟩ => sysClose p fd
  | .mkdir path, ⟨some p, _⟩ => sysMake ninodes p path .dir 0 0
  | .mknod path major minor, ⟨some p, _⟩ => sysMake ninodes p path .device major minor
  | .link old new, ⟨some p, _⟩ => sysLink p old new
  | .unlink path, ⟨some p, _⟩ => sysUnlink p path
  | .chdir path, ⟨some p, _⟩ => sysChdir p path
  | .exit, ⟨some p, _⟩ => exit p

def kernel (ninodes : Nat) : Kernel Pid Call Fs Idle Panic Op Op.Res := ⟨exec, code ninodes⟩

abbrev Sys := System Pid Fs Idle Panic Op Op.Res

end Xv6.Names
