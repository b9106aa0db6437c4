import Xv6.Names.Model

/-!
# Namespace calls on the disk

`sys_link`, `sys_unlink`, `sys_mkdir` and `sys_mknod` from their path arguments on, with `namex`, over
the inodes and blocks of `Blocks`: here directories are bytes, and any block or inode that a call
needs may be missing. One call runs at a time. An argument that `argstr` cannot fetch is `none`.
-/

namespace Xv6.Undo

open Function
open Blocks
open Names (elems slash)

def idup (i : Nat) : M Unit :=
  modify fun fs => { fs with itable := update fs.itable i { fs.itable i with ref := (fs.itable i).ref + 1 } }

/-- The loop of `namex`. -/
def walk (parent : Bool) (ip : Nat) : List Name → M (Option (Nat × Name))
  | [] =>
    if parent then do
      iput ip
      pure none
    else pure (some (ip, []))
  | name :: rest => do
    ilock ip
    let i ← inode ip
    if i.type ≠ T_DIR then
      iunlockput ip
      pure none
    else if parent ∧ rest = [] then
      iunlock ip
      pure (some (ip, name))
    else
      match ← dirlookup ip name with
      | none =>
        iunlockput ip
        pure none
      | some (next, _) =>
        iunlockput ip
        walk parent next rest

def namex (cwd : Nat) (path : Name) (parent : Bool) : M (Option (Nat × Name)) :=
  if path.head? = some slash then do
    iget ROOTINO
    walk parent ROOTINO (elems path.length path)
  else do
    idup cwd
    walk parent cwd (elems path.length path)

def namei (cwd : Nat) (path : Name) : M (Option Nat) := do
  match ← namex cwd path false with
  | some (ip, _) => pure (some ip)
  | none => pure none

def nameiparent (cwd : Nat) (path : Name) : M (Option (Nat × Name)) := namex cwd path true

/-- The exit of `sys_link` at `bad`. -/
def linkBad (ip : Nat) : M Int := do
  ilock ip
  addLinks ip (-1)
  iunlockput ip
  pure (-1)

def sysLink (cwd : Nat) (old new : Option Name) : M Int :=
  match old, new with
  | some old, some new => do
    match ← namei cwd old with
    | none => pure (-1)
    | some ip =>
      ilock ip
      let i ← inode ip
      if i.type = T_DIR then
        iunlockput ip
        pure (-1)
      else
        addLinks ip 1
        iunlock ip
        match ← nameiparent cwd new with
        | none => linkBad ip
        | some (dp, name) =>
          ilock dp
          if (← dirlink dp name ip) < 0 then
            iunlockput dp
            linkBad ip
          else
            iunlockput dp
            iput ip
            pure 0
  | _, _ => pure (-1)

def sysUnlink (cwd : Nat) (path : Option Name) : M Int :=
  match path with
  | none => pure (-1)
  | some path => do
    match ← nameiparent cwd path with
    | none => pure (-1)
    | some (dp, name) => unlink dp name

/-- `sys_mkdir` and `sys_mknod`. -/
def sysMake (cwd : Nat) (path : Option Name) (type major minor : BitVec 16) : M Int :=
  match path with
  | none => pure (-1)
  | some path => do
    match ← nameiparent cwd path with
    | none => pure (-1)
    | some (dp, name) =>
      match ← create dp name type major minor with
      | none => pure (-1)
      | some ip =>
        iunlockput ip
        pure 0

def sysMkdir (cwd : Nat) (path : Option Name) : M Int := sysMake cwd path T_DIR 0 0

def sysMknod (cwd : Nat) (path : Option Name) (major minor : BitVec 16) : M Int :=
  sysMake cwd path T_DEVICE major minor

inductive Call where
  | link (old new : Option Name)
  | unlink (path : Option Name)
  | mkdir (path : Option Name)
  | mknod (path : Option Name) (major minor : BitVec 16)

/-- A call of a process in the directory `cwd`. -/
def runCall (cwd : Nat) : Call → M Int
  | .link old new => sysLink cwd old new
  | .unlink path => sysUnlink cwd path
  | .mkdir path => sysMkdir cwd path
  | .mknod path major minor => sysMknod cwd path major minor

end Xv6.Undo
