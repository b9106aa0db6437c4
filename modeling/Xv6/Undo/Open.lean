import Xv6.Undo.Calls

/-!
# Opening files

`sys_open` finds or creates the inode before it takes a file structure and a descriptor. An open that
fails undoes what it has done so far, except for a file that it has created (`open_leaves_file`);
`failed_open` says exactly when that is.
-/

namespace Xv6.Undo

open Function List
open Blocks

def NFILE : Nat := 100
def NOFILE : Nat := 16
def NDEV : Nat := 10

def O_RDONLY : BitVec 32 := 0x000
def O_WRONLY : BitVec 32 := 0x001
def O_RDWR : BitVec 32 := 0x002
def O_CREATE : BitVec 32 := 0x200
def O_TRUNC : BitVec 32 := 0x400

inductive FdType where
  | none
  | pipe
  | inode
  | device
  deriving DecidableEq, Repr

structure File where
  type : FdType
  ref : Nat
  readable : Bool
  writable : Bool
  pipe : Nat
  ip : Nat
  off : BitVec 32
  major : BitVec 16

/-- The file system, the file table and the descriptors of the process. -/
structure Tables where
  fs : Fs
  file : Nat → File
  ofile : Nat → Option Nat
  /-- The calls of `pipeclose`, with the pipe and the end that was closed. -/
  closed : List (Nat × Bool)

abbrev MT := StateT Tables (Except Panic)

def onDisk {α : Type} (m : M α) : MT α := fun s =>
  match m s.fs with
  | .ok (a, fs) => .ok (a, { s with fs })
  | .error e => .error e

def setFile (f : Nat) (x : File) : MT Unit := modify fun s => { s with file := update s.file f x }

def filealloc : MT (Option Nat) := do
  let s ← get
  match (List.range NFILE).find? fun f => (s.file f).ref = 0 with
  | some f =>
    setFile f { s.file f with ref := 1 }
    pure (some f)
  | none => pure none

def fdalloc (f : Nat) : MT (Option Nat) := do
  let s ← get
  match (List.range NOFILE).find? fun fd => s.ofile fd = none with
  | some fd =>
    modify fun s => { s with ofile := update s.ofile fd (some f) }
    pure (some fd)
  | none => pure none

/-- `fileclose` of a file with a reference. -/
def fileclose (f : Nat) : MT Unit := do
  let ff := (← get).file f
  if 0 < ff.ref - 1 then setFile f { ff with ref := ff.ref - 1 }
  else
    setFile f { ff with ref := 0, type := .none }
    match ff.type with
    | .pipe => modify fun s => { s with closed := s.closed ++ [(ff.pipe, ff.writable)] }
    | .inode | .device => onDisk (iput ff.ip)
    | .none => pure ()

/-- The fields that `sys_open` sets in a new file. -/
def File.opened (x : File) (ip : Nat) (i : Dinode) (omode : BitVec 32) : File :=
  let x := if i.type = T_DEVICE then { x with type := .device, major := i.major } else { x with type := .inode, off := 0 }
  { x with
    ip := ip
    readable := omode &&& O_WRONLY = 0
    writable := omode &&& O_WRONLY ≠ 0 ∨ omode &&& O_RDWR ≠ 0 }

/-- The exits of `sys_open` that put the inode. -/
def openBad (ip : Nat) : MT Int := do
  onDisk (iunlockput ip)
  pure (-1)

/-- `sys_open` from the locked inode on. -/
def openInode (ip : Nat) (omode : BitVec 32) : MT Int := do
  let i ← onDisk (inode ip)
  if i.type = T_DEVICE ∧ (i.major.toInt < 0 ∨ i.major.toInt ≥ NDEV) then openBad ip
  else
    match ← filealloc with
    | none => openBad ip
    | some f =>
      match ← fdalloc f with
      | none =>
        fileclose f
        openBad ip
      | some fd =>
        setFile f (((← get).file f).opened ip i omode)
        (if omode &&& O_TRUNC ≠ 0 ∧ i.type = T_FILE then onDisk (itrunc ip) else pure ())
        onDisk (iunlock ip)
        pure fd

def sysOpen (cwd : Nat) (path : Option Name) (omode : BitVec 32) : MT Int :=
  match path with
  | none => pure (-1)
  | some path => do
    if omode &&& O_CREATE ≠ 0 then
      match ← onDisk (nameiparent cwd path) with
      | none => pure (-1)
      | some (dp, name) =>
        match ← onDisk (create dp name T_FILE 0 0) with
        | none => pure (-1)
        | some ip => openInode ip omode
    else
      match ← onDisk (namei cwd path) with
      | none => pure (-1)
      | some ip =>
        onDisk (ilock ip)
        let i ← onDisk (inode ip)
        if i.type = T_DIR ∧ omode ≠ O_RDONLY then openBad ip
        else openInode ip omode

variable {base : Base} {s : Fs} {v : View} {i : Nat} {ip : Dinode}

/-! ## The tables -/

/-- The tables are as they were. -/
structure SameTables (s s' : Tables) : Prop where
  file : s'.file = s.file
  ofile : s'.ofile = s.ofile
  closed : s'.closed = s.closed

theorem wp_onDisk {α : Type} {m : M α} {E : Panic → Prop} {Q : α → Tables → Prop} {s : Tables}
    (h : WP m E (fun a fs => Q a { s with fs }) s.fs) : WP (onDisk m) E Q s := by
  unfold WP onDisk at *
  cases hm : m s.fs with
  | error e =>
    rw [hm] at h
    exact h
  | ok p =>
    rw [hm] at h
    exact h

/-- Entries of the file table without references have no type. -/
def FreeFiles (t : Tables) : Prop := ∀ f, (t.file f).ref = 0 → (t.file f).type = .none

/-- A file structure and a descriptor can be had. -/
structure Room (t : Tables) : Prop where
  file : ∃ f, f < NFILE ∧ (t.file f).ref = 0
  ofile : ∃ fd, fd < NOFILE ∧ t.ofile fd = none

variable {t t' : Tables} {omode : BitVec 32} {E : Panic → Prop}

/-- The table with another file. -/
def Tables.setFile (t : Tables) (f : Nat) (x : File) : Tables := { t with file := update t.file f x }

theorem wp_filealloc : WP filealloc E (fun r t' => match r with
    | none => t' = t ∧ ¬Room t
    | some f => (t.file f).ref = 0 ∧ t' = t.setFile f { t.file f with ref := 1 }) t := by
  unfold filealloc
  refine .bind (.get ?_)
  split
  · rename_i f hf
    have h0 := find?_some hf
    exact .bind (.modify (.pure ⟨of_decide_eq_true h0, rfl⟩))
  · rename_i hf
    refine .pure ⟨rfl, fun ⟨⟨f, hlt, h0⟩, _⟩ => ?_⟩
    exact find?_eq_none.1 hf f (mem_range.2 hlt) (decide_eq_true h0)

theorem wp_fdalloc (f : Nat) : WP (fdalloc f) E (fun r t' => match r with
    | none => t' = t ∧ ¬∃ fd, fd < NOFILE ∧ t.ofile fd = none
    | some _ => t'.fs = t.fs) t := by
  unfold fdalloc
  refine .bind (.get ?_)
  split
  · exact .bind (.modify (.pure rfl))
  · rename_i hf
    refine .pure ⟨rfl, fun ⟨fd, hlt, h0⟩ => ?_⟩
    exact find?_eq_none.1 hf fd (mem_range.2 hlt) (decide_eq_true h0)

/-- `fileclose` of a file that was just allocated. -/
theorem wp_fileclose {f : Nat} (h0 : (t.file f).ref = 0) (hn : (t.file f).type = .none) :
    WP (fileclose f) E (fun _ t' => t' = t) (t.setFile f { t.file f with ref := 1 }) := by
  unfold fileclose
  refine .bind (.get ?_)
  have hself : (t.setFile f { t.file f with ref := 1 }).file f = { t.file f with ref := 1 } := update_self ..
  rw [hself]
  refine .ite (fun h => absurd h (Nat.lt_irrefl 0)) fun _ => .bind (.modify ?_)
  have hback : { t.file f with ref := 0, type := .none } = t.file f := by rw [← h0, ← hn]
  rw [hback, hn]
  refine .pure ?_
  simp only [Tables.setFile, update_idem, update_eq_self]

/-- The open has failed, and nothing has changed. -/
def Undone (base : Base) (v : View) (t t' : Tables) : Prop := Has base none v [] t'.fs ∧ SameTables t t'

/-- Changes of the disk come before those of the tables. -/
theorem Undone.of_fs (h : Undone base v { t with fs := s } t') : Undone base v t t' :=
  ⟨h.1, h.2.file, h.2.ofile, h.2.closed⟩

theorem wp_openBad (h : Has base none v [i] t.fs) (hv : Sound v) :
    WP (openBad i) AnyPanic (fun _ t' => Undone base v t t') t :=
  .bind (wp_onDisk ((h.wp_iunlockput hv).mono fun _ _ h' => .pure ⟨h', rfl, rfl, rfl⟩))

theorem wp_any {α β : Type} {m : MT α} {f : α → MT β} {Q : β → Tables → Prop} (t : Tables)
    (h : ∀ a t', WP (f a) AnyPanic Q t') : WP (m >>= f) AnyPanic Q t :=
  .bind ((WP.any m t).mono fun a t' _ => h a t')

/-- From the descriptor on the call succeeds. -/
theorem wp_openInode_fd {f fd : Nat} {Q : Int → Tables → Prop} (hq : ∀ t, Q fd t) (t : Tables) :
    WP (do
      setFile f (((← get).file f).opened i ip omode)
      (if omode &&& O_TRUNC ≠ 0 ∧ ip.type = T_FILE then onDisk (itrunc i) else pure ())
      onDisk (iunlock i)
      pure (fd : Int)) AnyPanic Q t :=
  wp_any t fun _ _ => wp_any _ fun _ _ => wp_any _ fun _ _ => wp_any _ fun _ _ => .pure (hq _)

/-- A file for which there is room in the tables is opened. -/
theorem wp_openInode (h : Has base none v [i] t.fs) (hv : Sound v) (hf : FreeFiles t) (omode : BitVec 32) :
    WP (openInode i omode) AnyPanic
      (fun r t' => r = -1 → Undone base v t t' ∧ (Room t → v.type i ≠ T_FILE)) t := by
  have hbad : (Room t → v.type i ≠ T_FILE) → WP (openBad i) AnyPanic
      (fun r t' => r = -1 → Undone base v t t' ∧ (Room t → v.type i ≠ T_FILE)) t := fun hno =>
    (wp_openBad h hv).mono fun _ _ h' _ => ⟨h', hno⟩
  unfold openInode
  refine .bind (wp_onDisk (wp_locked fun ip hi => .ite (fun hd => hbad fun _ => ?_) fun _ => ?_))
  · rw [← h.type_eq, cur_of_inode hi, hd.1]
    decide
  refine .bind (wp_filealloc.mono fun r t₁ hr => ?_)
  cases r with
  | none =>
    obtain ⟨rfl, hno⟩ := hr
    exact hbad fun hroom => absurd hroom hno
  | some f =>
    obtain ⟨h0, rfl⟩ := hr
    refine .bind ((wp_fdalloc f).mono fun r t₂ hr => ?_)
    cases r with
    | none =>
      obtain ⟨rfl, hno⟩ := hr
      refine .bind ((wp_fileclose h0 (hf f h0)).mono fun _ t₃ h₃ => ?_)
      subst h₃
      exact hbad fun hroom => absurd hroom.ofile hno
    | some fd => exact wp_openInode_fd (fun _ h => by omega) t₂

/-! ## `sys_open` -/

/-- The directory that a path leads to up to its last element, and that element. -/
def parent (cwd : Nat) (path : Name) (fs : Fs) : Option (Nat × Name) :=
  (nameiparent cwd path fs).toOption.bind Prod.fst

/-- The open creates no file, or it creates one that it can open. -/
def Opens (t : Tables) (cwd : Nat) (path : Option Name) (omode : BitVec 32) : Prop :=
  omode &&& O_CREATE = 0 ∨ Room t ∨
    ∀ p dp name, path = some p → parent cwd p t.fs = some (dp, name) → ¬Creatable t.fs dp name

structure Tables.WellFormed (t : Tables) : Prop where
  fs : Undo.WellFormed t.fs
  files : FreeFiles t

theorem wp_sysOpen (hw : t.WellFormed) (cwd : Nat) (path : Option Name) (omode : BitVec 32) :
    WP (sysOpen cwd path omode) AnyPanic (fun r t' => r = -1 →
      Opens t cwd path omode ∧ Undone ⟨t.fs, True⟩ (view t.fs) t t' ∨
      ¬Opens t cwd path omode ∧ ∃ i, (cur t'.fs i).type ≠ (cur t.fs i).type) t := by
  have hv := hw.fs.sound
  have h : Has ⟨t.fs, False⟩ none (view t.fs) [] t.fs := hw.fs.has
  cases path with
  | none => exact .pure fun _ => .inl ⟨.inr (.inr nofun), hw.fs.has, rfl, rfl, rfl⟩
  | some path =>
    refine .ite (fun hc => ?_) fun hc => ?_
    · have hparent := ((h.wp_namex hv cwd path true).and (WP.run (nameiparent cwd path) t.fs)).weaken fun _ _ => trivial
      refine .bind (wp_onDisk (hparent.mono fun r s₁ ⟨⟨h₁, _⟩, hrun⟩ => ?_))
      have hpar : parent cwd path t.fs = r := by
        rw [parent, hrun]
        rfl
      cases r with
      | none =>
        refine .pure fun _ => .inl ⟨.inr (.inr ?_), Has.grow h₁, rfl, rfl, rfl⟩
        rintro _ dp name ⟨⟩ hsome
        rw [hpar] at hsome
        cases hsome
      | some r =>
        have hopens : ¬Creatable t.fs r.1 r.2 → Opens t cwd (some path) omode := by
          rintro hno
          refine .inr (.inr ?_)
          rintro _ dp name ⟨⟩ hsome
          rw [hpar] at hsome
          cases hsome
          exact hno
        refine .bind (wp_onDisk ((hw.fs.wp_create h₁ r.2 T_FILE 0 0).mono fun r' s₂ h₂ => ?_))
        cases r' with
        | none => exact .pure fun _ => .inl ⟨hopens (h₂.2 (by decide)), h₂.1, rfl, rfl, rfl⟩
        | some i =>
          rcases h₂ with ⟨h₂, hno⟩ | hnew
          · refine (wp_openInode (t := { t with fs := s₂ }) h₂ hv hw.files omode).mono fun _ _ h' hr => .inl ?_
            exact ⟨hopens hno, (h' hr).1.of_fs⟩
          · -- an open that fails now leaves the new file
            obtain ⟨hcreate, h0, v', hv', ht, h₂⟩ := hnew (by decide)
            refine (wp_openInode (t := { t with fs := s₂ }) h₂ hv' hw.files omode).mono fun _ t' h' hr => .inr ?_
            obtain ⟨⟨hhas, -⟩, hroom⟩ := h' hr
            refine ⟨?_, i, ?_⟩
            · rintro (h0 | hr | hno)
              · exact hc h0
              · exact hroom ⟨hr.file, hr.ofile⟩ ht
              · exact hno path r.1 r.2 rfl hpar hcreate
            · have h0 : (cur t.fs i).type = 0 := h0
              rw [hhas.type_eq, ht, h0]
              decide
    · have hopens : Opens t cwd (some path) omode := .inl (not_not.1 hc)
      have h : Has ⟨t.fs, True⟩ none (view t.fs) [] t.fs := hw.fs.has
      refine .bind (wp_onDisk ((h.wp_namei hv cwd path).mono fun r s₁ ⟨h₁, _⟩ => ?_))
      cases r with
      | none => exact .pure fun _ => .inl ⟨hopens, h₁, rfl, rfl, rfl⟩
      | some i =>
        refine .bind (wp_onDisk ((Has.wp_ilock h₁ i).mono fun _ s₂ ⟨h₂, _⟩ => .bind (wp_onDisk (wp_locked fun ip _ => ?_))))
        refine .ite (fun _ => ?_) fun _ => ?_
        · exact (wp_openBad (t := { t with fs := s₂ }) h₂ hv).mono fun _ _ h' _ => .inl ⟨hopens, h'.of_fs⟩
        · exact (wp_openInode (t := { t with fs := s₂ }) h₂ hv hw.files omode).mono fun _ _ h' hr =>
            .inl ⟨hopens, (h' hr).1.of_fs⟩

/-- An open that returns -1 has changed nothing, if and only if it was not to create a file that it
cannot open. -/
theorem failed_open (h : t.WellFormed) (cwd : Nat) (path : Option Name) (omode : BitVec 32)
    (hr : sysOpen cwd path omode t = .ok (-1, t')) :
    t'.WellFormed ∧ SameNames t.fs t'.fs ∧ SameTables t t' ↔ Opens t cwd path omode := by
  rcases (wp_sysOpen h cwd path omode).ok hr rfl with ⟨ho, hhas, hsame⟩ | ⟨hno, i, hne⟩
  · obtain ⟨hwf, hnames⟩ := h.fs.of_has hhas
    refine iff_of_true ⟨⟨hwf, fun f hf => ?_⟩, hnames, hsame⟩ ho
    rw [hsame.file] at hf ⊢
    exact h.files f hf
  · refine iff_of_false (fun hs => hne ?_) hno
    rw [hs.1.fs.own.cur_eq, h.fs.own.cur_eq, hs.2.1.type]

/-- A process in the root directory, all of whose descriptors are for the root directory. -/
def busy : Tables where
  fs := (rootImage.getRef ROOTINO).getRef ROOTINO
  file f :=
    if f = 0 then
      { type := .inode, ref := 16, readable := true, writable := false, pipe := 0, ip := ROOTINO, off := 0, major := 0 }
    else { type := .none, ref := 0, readable := false, writable := false, pipe := 0, ip := 0, off := 0, major := 0 }
  ofile _ := some 0
  closed := []

theorem busy_wellFormed : busy.WellFormed := by
  have h₁ : Own none (rootImage.getRef ROOTINO) := (Keeps.iget rootImage rootImage_wellFormed.own).ok rfl
  have h₂ : Own none busy.fs := (Keeps.iget _ h₁).ok rfl
  refine ⟨wellFormed_of_root h₂ (fun i => ?_) fun i hi => ?_, fun f hf => ?_⟩
  · exact (cur_getRef h₁ ROOTINO i).trans (cur_getRef rootImage_wellFormed.own ROOTINO i)
  · have hself : busy.fs.itable i = rootImage.itable i :=
      (update_of_ne hi ..).trans (update_of_ne hi ..)
    rw [hself]
    rfl
  · by_cases e : f = 0
    · subst e
      cases hf
    · have hfile : busy.file f = _ := if_neg e
      rw [hfile]

/-- `open("/", O_RDONLY)` finds no descriptor, and `open("/a", O_CREATE | O_RDWR)` none for the file that
it has created. -/
theorem failed_open_root :
    (∃ t', sysOpen ROOTINO (some [47]) O_RDONLY busy = .ok (-1, t') ∧ SameNames busy.fs t'.fs ∧ SameTables busy t') ∧
    ¬Opens busy ROOTINO (some [47, 97]) (O_CREATE ||| O_RDWR) := by
  obtain ⟨_, t', hr, rfl⟩ : ∃ r t', sysOpen ROOTINO (some [47]) O_RDONLY busy = .ok (r, t') ∧ r = -1 :=
    exists_of_ok (by decide +kernel)
  refine ⟨⟨t', hr, ((failed_open busy_wellFormed ROOTINO _ _ hr).2 (.inl (by decide))).2⟩, fun ho => ?_⟩
  obtain ⟨_, t', hr, rfl, hnew⟩ : ∃ r t', sysOpen ROOTINO (some [47, 97]) (O_CREATE ||| O_RDWR) busy = .ok (r, t') ∧
      r = -1 ∧ (t'.fs.dinode 2).type ≠ (busy.fs.dinode 2).type := exists_of_ok (by decide +kernel)
  exact hnew (((failed_open busy_wellFormed ROOTINO _ _ hr).2 ho).2.1.type 2)

/-- The inode that `namei` finds. -/
def found (path : Name) (fs : Fs) : Option (Option Nat) := (namei ROOTINO path fs).toOption.map Prod.fst

/-- `open("/a", O_CREATE | O_RDWR)` finds no descriptor for the file that it has created. -/
theorem open_leaves_file : busy.WellFormed ∧ ∃ t', sysOpen ROOTINO (some [47, 97]) (O_CREATE ||| O_RDWR) busy = .ok (-1, t') ∧
    found [47, 97] busy.fs = some none ∧ found [47, 97] t'.fs = some (some 2) ∧
    (busy.fs.dinode 2).type = 0 ∧ (t'.fs.dinode 2).type = T_FILE ∧ (t'.fs.dinode 2).nlink = 1 := by
  obtain ⟨_, t', hr, rfl, hrest⟩ : ∃ r t', sysOpen ROOTINO (some [47, 97]) (O_CREATE ||| O_RDWR) busy = .ok (r, t') ∧
      r = -1 ∧ found [47, 97] busy.fs = some none ∧ found [47, 97] t'.fs = some (some 2) ∧
      (busy.fs.dinode 2).type = 0 ∧ (t'.fs.dinode 2).type = T_FILE ∧ (t'.fs.dinode 2).nlink = 1 :=
    exists_of_ok (by decide +kernel)
  exact ⟨busy_wellFormed, t', hr, hrest⟩

end Xv6.Undo
