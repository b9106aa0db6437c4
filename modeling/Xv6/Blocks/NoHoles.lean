import Xv6.Blocks.Calls

/-!
# Reading never allocates

`bmap` allocates a block on any lookup that finds none, those of `readi` among them. After any sequence
of writes, truncations and directory changes a file has no holes below its size, so that this branch is
never taken: `readi`, `dirlookup` and `isdirempty` act in the same way with anything in place of
`balloc`, and leave disk and inodes as they are (`no_holes`).
-/

namespace Xv6.Blocks

open Function

variable {fs fs' : Fs} {inum : Nat} {ip : Dinode}

/-! ## The allocator does not matter -/

/-- Two pieces of code act in the same way in the state `fs`, and leave it as it is. -/
def Alike {α : Type} (fs : Fs) (m m' : M α) : Prop := m fs = m' fs ∧ ∀ a fs', m' fs = .ok (a, fs') → fs' = fs

section Alike

variable {α β : Type} {m m' : M α}

theorem Alike.pure (a : α) : Alike fs (pure a) (pure a) :=
  ⟨rfl, fun _ _ h => by cases h; rfl⟩

theorem Alike.throw (p : Panic) : Alike fs (throw p : M α) (throw p) :=
  ⟨rfl, fun _ _ h => by cases h⟩

theorem run_bind (m : M α) (f : α → M β) : (m >>= f) fs = (m fs).bind fun p => f p.1 p.2 := rfl

/-- Code that goes on in the same way from `fs`. -/
theorem Alike.bind_eq {f f' : α → M β} (h : Alike fs m m')
    (hf : ∀ a, m' fs = .ok (a, fs) → f a fs = f' a fs) : (m >>= f) fs = (m' >>= f') fs := by
  rw [run_bind, run_bind, h.1]
  cases hm : m' fs with
  | error e => rfl
  | ok p =>
    obtain ⟨a, fs'⟩ := p
    obtain rfl := h.2 a fs' hm
    exact hf a hm

theorem Alike.bind {f f' : α → M β} (h : Alike fs m m') (hf : ∀ a, m' fs = .ok (a, fs) → Alike fs (f a) (f' a)) :
    Alike fs (m >>= f) (m' >>= f') := by
  refine ⟨h.bind_eq fun a hm => (hf a hm).1, fun b fs' hr => ?_⟩
  rw [run_bind] at hr
  cases hm : m' fs with
  | error e =>
    rw [hm] at hr
    cases hr
  | ok p =>
    obtain ⟨a, fs''⟩ := p
    obtain rfl := h.2 a fs'' hm
    rw [hm] at hr
    exact (hf a hm).2 b fs' hr

theorem Alike.wp (h : Alike fs m m') : WP m' (fun _ => True) (fun _ fs' => fs' = fs) fs := by
  unfold WP
  split
  · exact h.2 _ _ ‹_›
  · trivial

theorem Alike.ite {c : Prop} [Decidable c] {k k' : M α} (h : c → Alike fs m m') (h' : ¬c → Alike fs k k') :
    Alike fs (if c then m else k) (if c then m' else k') := by
  split
  · exact h ‹_›
  · exact h' ‹_›

theorem Alike.inode : Alike fs (inode inum) (inode inum) :=
  ⟨rfl, fun _ _ h => (wp_inode fun _ _ => rfl : WP (Blocks.inode inum) NotFree (fun _ s => s = fs) fs).ok h⟩

end Alike

section Readers

variable {alloc : M (BitVec 32)}

theorem Alike.readi (h : Own none fs) (off n : BitVec 32) (avail : Nat) :
    Alike fs (readi inum off n avail alloc) (readi inum off n avail) := by
  cases hi : (fs.itable inum).inode with
  | none =>
    have hpanic : ∀ a, Blocks.readi inum off n avail a fs = .error .notLocked := fun a => by
      have hinode : WP (Blocks.inode inum) (· = .notLocked) (fun _ _ => False) fs := .bind (.get (by rw [hi]; exact .throw rfl))
      have hread : WP (Blocks.readi inum off n avail a) (· = .notLocked) (fun _ _ => False) fs :=
        .bind (hinode.mono fun _ _ => False.elim)
      cases hr : Blocks.readi inum off n avail a fs with
      | ok r => exact (hread.ok hr).elim
      | error p => rw [hread.error hr]
    exact ⟨(hpanic _).trans (hpanic _).symm, fun _ _ hr => by cases (hpanic _).symm.trans hr⟩
  | some ip =>
    have hread (a : M (BitVec 32)) := (wp_readi_content (h.cleanOf hi) hi off n avail :
      WP (Blocks.readi inum off n avail a) (fun _ => False) _ fs).total
    obtain ⟨_, _, hr, rfl, rfl⟩ := hread alloc
    obtain ⟨_, _, hr', rfl, rfl⟩ := hread balloc
    exact ⟨hr.trans hr'.symm, fun _ _ e => by cases hr'.symm.trans e; rfl⟩

theorem Alike.readDirent (h : Own none fs) (off : Nat) (p : Panic) :
    Alike fs (readDirent inum off p alloc) (readDirent inum off p) := by
  refine (Alike.readi h _ _ _).bind fun bs _ => ?_
  cases bs with
  | none => exact .throw _
  | some bs => exact .ite (fun _ => .pure _) fun _ => .throw _

theorem Alike.lookupLoop (h : Own none fs) (name : Name) (fuel off : Nat) :
    Alike fs (lookupLoop inum name fuel off alloc) (lookupLoop inum name fuel off) := by
  induction fuel generalizing off with
  | zero => exact .pure _
  | succ fuel ih =>
    refine Alike.inode.bind fun dp _ => .ite (fun _ => ?_) fun _ => .pure _
    refine (Alike.readDirent h _ _).bind fun de _ => .ite (fun _ => ih _) fun _ => ?_
    exact .ite (fun _ => .pure _) fun _ => ih _

theorem Alike.emptyLoop (h : Own none fs) (fuel off : Nat) :
    Alike fs (emptyLoop inum fuel off alloc) (emptyLoop inum fuel off) := by
  induction fuel generalizing off with
  | zero => exact .pure _
  | succ fuel ih =>
    refine Alike.inode.bind fun dp _ => .ite (fun _ => ?_) fun _ => .pure _
    exact (Alike.readDirent h _ _).bind fun de _ => .ite (fun _ => .pure _) fun _ => ih _

theorem Alike.isdirempty (h : Own none fs) : Alike fs (isdirempty inum alloc) (isdirempty inum) :=
  Alike.inode.bind fun _ _ => Alike.emptyLoop h _ _

/-- `dirlookup` takes a reference to the inode it finds, and changes nothing else. -/
theorem dirlookup_alike (h : Own none fs) (name : Name) : dirlookup inum name alloc fs = dirlookup inum name balloc fs ∧
    ∀ r fs', dirlookup inum name balloc fs = .ok (r, fs') →
      fs' = r.elim fs fun e => { fs with itable := update fs.itable e.1 (fs.itable e.1).get } := by
  have hloop : ∀ dp : Dinode, Alike fs (lookupLoop inum name (dp.size.toNat + 1) 0 alloc)
      (lookupLoop inum name (dp.size.toNat + 1) 0) := fun dp => Alike.lookupLoop h ..
  constructor
  · refine Alike.inode.bind_eq fun dp _ => ?_
    split
    · rfl
    · exact (hloop dp).bind_eq fun e _ => by cases e <;> rfl
  · have hwp : WP (dirlookup inum name) (fun _ => True) (fun r fs' =>
        fs' = r.elim fs fun e => { fs with itable := update fs.itable e.1 (fs.itable e.1).get }) fs := by
      refine .bind (Alike.inode.wp.mono fun dp _ e => ?_)
      subst e
      refine .ite (fun _ => .throw trivial) fun _ => .bind ((hloop dp).wp.mono fun e _ hfs => ?_)
      subst hfs
      cases e with
      | none => exact .pure rfl
      | some e => exact .bind (.modify (.pure rfl))
    exact fun r fs' hr => hwp.ok hr

end Readers

/-! ## Sequences of changes -/

/-- A call, or a `dirlink` by itself. -/
inductive Change where
  | call (c : Call)
  | dirlink (inum : Nat) (name : Name) (target : Nat)

def runChange : Change → M Unit
  | .call c => runCall c
  | .dirlink inum name target => do
    let _ ← dirlink inum name target
    pure ()

def runChanges (cs : List Change) : M Unit := forM cs runChange

theorem Keeps.runChange (c : Change) : Keeps (runChange c) := by
  cases c with
  | call c => exact Keeps.runCall c
  | dirlink inum name target => exact Keeps.dirlink.bind fun _ => .pure

theorem Keeps.runChanges (cs : List Change) : Keeps (runChanges cs) := .forM .runChange cs

/-- An allocated inode has a block for each index below its size, on disk and in the copy in memory. -/
def NoHoles (fs : Fs) : Prop :=
  ∀ i, (fs.dinode i).type ≠ 0 →
    (∀ bn, bn < ((fs.dinode i).size.toNat + BSIZE - 1) / BSIZE → diskAddr fs (slotAt i bn) ≠ 0) ∧
    ∀ ip, (fs.itable i).inode = some ip → ip = fs.dinode i

theorem Own.noHoles (h : Own none fs) : NoHoles fs := by
  intro i hi
  refine ⟨fun bn hbn => ?_, fun ip hip => (h.valid i ip nofun hip).2.2.symm⟩
  have hf := h.filled i nofun
  rw [Filled, h.cur_eq] at hf
  rw [h.diskAddr]
  refine (hf hi).2 bn ?_
  unfold BSIZE at hbn ⊢
  omega

/-- After any sequence of changes to a well-formed image no file has a hole. Reading with anything in
place of `balloc` is then reading, and changes nothing; `dirlookup` takes its reference. -/
theorem no_holes {fs₀ : Fs} (h : WellFormed fs₀) (cs : List Change) (hr : runChanges cs fs₀ = .ok ((), fs)) :
    NoHoles fs ∧
    (∀ alloc inum off n avail, readi inum off n avail alloc fs = readi inum off n avail balloc fs ∧
      ∀ r fs', readi inum off n avail balloc fs = .ok (r, fs') → fs' = fs) ∧
    (∀ alloc inum name, dirlookup inum name alloc fs = dirlookup inum name balloc fs ∧
      ∀ r fs', dirlookup inum name balloc fs = .ok (r, fs') →
        fs' = r.elim fs fun e => { fs with itable := update fs.itable e.1 (fs.itable e.1).get }) ∧
    ∀ alloc inum, isdirempty inum alloc fs = isdirempty inum balloc fs ∧
      ∀ r fs', isdirempty inum balloc fs = .ok (r, fs') → fs' = fs := by
  have hown : Own none fs := (Keeps.runChanges cs fs₀ h.own).ok hr
  exact ⟨hown.noHoles, fun _ _ off n avail => Alike.readi hown off n avail,
    fun _ _ name => dirlookup_alike hown name, fun _ _ => Alike.isdirempty hown⟩

/-- `writeRun`, with a second name for the file it makes. -/
def secondNameRun : List Change := writeRun.map .call ++ [.call (.iget ROOTINO), .call (.ilock ROOTINO), .dirlink ROOTINO [99] 2]

/-- The file is read with an allocator that panics. -/
theorem no_holes_secondNameRun : ∃ fs, runChanges secondNameRun rootImage = .ok ((), fs) ∧ NoHoles fs ∧
    readi ROOTINO 0 64 64 balloc fs = readi ROOTINO 0 64 64 (throw .bmapOutOfRange) fs ∧
    (readi ROOTINO 0 64 64 balloc fs).toOption.isSome = true := by
  obtain ⟨_, fs, hr, hsome⟩ : ∃ u fs, runChanges secondNameRun rootImage = .ok (u, fs) ∧
      (readi ROOTINO 0 64 64 balloc fs).toOption.isSome = true := exists_of_ok (by decide +kernel)
  obtain ⟨hn, hread, -⟩ := no_holes rootImage_wellFormed secondNameRun hr
  exact ⟨fs, hr, hn, (hread (throw .bmapOutOfRange) ROOTINO 0 64 64).1.symm, hsome⟩

end Xv6.Blocks
