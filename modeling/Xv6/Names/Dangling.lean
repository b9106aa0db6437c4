import Xv6.Names.Calls

/-!
# Dangling names

From a well-formed image (`Image`) every entry of every allocated directory names an
allocated inode, and no path leads to `panic("ilock: no type")`, in runs whose operations
are as `Allowed` says (`no_dangling`). In general this fails (`dangling_after_unlinks`):
a directory that is unlinked but still in use keeps its "..", which is not counted any
more, so that the parent can be unlinked and freed.
-/

namespace Xv6.Names

open Function
open Blocks

variable {strict : Bool} {n : Nat} {s₀ s : Sys} {es : List Empty}

def Idle.refs (a : Idle) : Multiset Nat := (a.proc.map Proc.refs).getD 0

/-- A well-formed image, before any call: every inode in use has a name, the link counts are
exact, and the inode table has the references of the processes. -/
structure Image (n : Nat) (s : Sys) : Prop where
  small : n ≤ 2 ^ 16
  disk : Disk n s.shared
  named : ∀ i, i ≠ ROOTINO → (s.shared.inode i).type ≠ .free → 0 < nm n s.shared i
  links : ∀ i, (s.shared.inode i).type ≠ .free →
    (s.shared.inode i).nlink.toInt = linkCount n s.shared i
  running : s.panicked = none
  idle : ∃ a : Pid → Idle, (∀ p, s.proc p = .ret (a p)) ∧
    (∀ i, (s.shared.itable i).ref = ∑ p, (a p).refs.count i) ∧
    ∀ p, ∀ i ∈ (a p).refs, (s.shared.inode i).type ≠ .free

/-- The steps of a run, with a condition on the operations. -/
abbrev Run (n : Nat) (C : Fs → Op → Prop) (s₀ : Sys) (es : List Empty) (s : Sys) : Prop :=
  Exec (kernel n).step (Kernel.Meets C) s₀ es s

theorem Image.good (h : Image n s) : (kernel n).Good (Inv strict n) (Allowed strict) Other Names.idle s := by
  obtain ⟨a, hproc, href, halloc⟩ := h.idle
  refine ⟨⟨fun p => Loc.of (a p).refs, ⟨h.disk, fun i hi => ?_, fun i => ?_, fun p => ?_, fun _ => ?_⟩,
    fun p => ?_⟩, fun e he => ?_⟩
  · rw [h.links i hi]
    have : ∑ p : Pid, (Loc.of (a p).refs).pend i = 0 := Finset.sum_eq_zero fun _ _ => rfl
    omega
  · exact href i
  · exact ⟨nofun, halloc p, fun i hi => absurd rfl hi, trivial⟩
  · intro i hr ht h0
    have := h.named i hr ht
    omega
  · rw [hproc p]
    rfl
  · rw [h.running] at he
    cases he

/-- The invariant along a run. -/
theorem good_run (h₀ : Image n s₀) (h : Run n (Allowed strict) s₀ es s) :
    (kernel n).Good (Inv strict n) (Allowed strict) Other Names.idle s :=
  Kernel.safe_run (fun _ c a l hi => safe_code h₀.small c a l hi) h₀.good h

/-- Every entry of every allocated directory names an allocated inode. -/
def NoDangling (s : Fs) : Prop :=
  ∀ d, (s.inode d).type = .dir → ∀ e ∈ (s.inode d).ents, e.inum ≠ 0 → (s.inode e.inum.toNat).type ≠ .free

theorem Disk.noDangling {s : Fs} (h : Disk n s) : NoDangling s := by
  intro d hd e he h0
  rcases h.named_of_ent he h0 with e' | hn
  · rw [e', hd]
    nofun
  · exact hn.1

/-- In runs as allowed there are no dangling names, no path leads to an inode without a type,
and the ".." of a directory is a directory. -/
theorem no_dangling (h₀ : Image n s₀) (h : Run n (Allowed false) s₀ es s) :
    NoDangling s.shared ∧ s.panicked ≠ some .ilockNoType ∧
    ∀ d i, (s.shared.inode d).parent = some i → (s.shared.inode i).type = .dir := by
  obtain ⟨⟨g, hi, -⟩, hpanic⟩ := good_run h₀ h
  exact ⟨hi.disk.noDangling, fun e => (hpanic _ e).1 rfl, fun d i hp => (hi.disk.dotdot d i hp).1⟩

/-! ## An image with the root directory only -/

def rootDir : Inode :=
  { type := .dir, major := 0, minor := 0, nlink := 1, ents := [⟨1, strncpy DIRSIZ dot⟩, ⟨1, strncpy DIRSIZ dotdot⟩] }

/-- Process 0 is the only one, with "/" as its directory. -/
def boot : Sys where
  shared :=
    { inode := update (fun _ => freshInode .free) ROOTINO rootDir
      itable := update (fun _ => ⟨0, false, none⟩) ROOTINO ⟨1, false, none⟩ }
  proc p := .ret ⟨if p = 0 then some ⟨ROOTINO, []⟩ else none, 0⟩
  panicked := none

theorem boot_root : boot.shared.inode ROOTINO = rootDir := by
  simp only [boot, update_self]

theorem boot_free {i : Nat} (h : i ≠ ROOTINO) : boot.shared.inode i = freshInode .free := by
  simp only [boot, update_of_ne h]

theorem boot_names (d : Nat) : (boot.shared.inode d).names = [] := by
  by_cases h : d = ROOTINO
  · rw [h, boot_root]
    rfl
  · rw [boot_free h]
    rfl

theorem boot_parent {d i : Nat} (h : (boot.shared.inode d).parent = some i) : d = ROOTINO ∧ i = ROOTINO := by
  by_cases hd : d = ROOTINO
  · rw [hd, boot_root] at h
    cases h
    exact ⟨hd, rfl⟩
  · rw [boot_free hd] at h
    cases h

theorem boot_nm (i : Nat) : nm n boot.shared i = 0 :=
  nm_eq_zero fun d => by rw [boot_names]; exact List.not_mem_nil

theorem boot_eq_root {i : Nat} (h : (boot.shared.inode i).type ≠ .free) : i = ROOTINO := by
  by_contra hne
  rw [boot_free hne] at h
  exact h rfl

theorem boot_disk : Disk 200 boot.shared := by
  refine ⟨fun i hi => ?_, ?_, ?_, boot_nm _, fun i hi => ?_, fun i => ?_, fun d i hi => ?_, fun i _ => ?_,
    fun d i hi => ?_, fun d _ _ => boot_names d, fun d i hp => ?_, fun _ => 0, fun d i hi => ?_⟩
  · rw [boot_eq_root hi]
    decide
  · rw [boot_root]
    rfl
  · rw [boot_root]
    rfl
  · have hne : i ≠ ROOTINO := by
      rintro rfl
      exact hi (by rw [boot_root]; rfl)
    rw [boot_free hne]
    rfl
  · by_cases h : i = ROOTINO
    · rw [h, boot_root]
      exact .inr (.inr ⟨_, _, [], rfl, rfl, rfl, by decide, rfl, nofun⟩)
    · rw [boot_free h]
      exact .inl rfl
  · rw [boot_names] at hi
    cases hi
  · rw [boot_nm]
    omega
  · rw [boot_names] at hi
    cases hi
  · obtain ⟨-, rfl⟩ := boot_parent hp
    rw [boot_root]
    exact ⟨rfl, fun h => absurd rfl h⟩
  · rw [boot_names] at hi
    cases hi

theorem boot_image : Image 200 boot := by
  refine ⟨by decide, boot_disk, fun i hr hi => absurd (boot_eq_root hi) hr, fun i hi => ?_, rfl,
    _, fun _ => rfl, fun i => ?_, fun p i hi => ?_⟩
  · rw [boot_eq_root hi, linkCount, boot_nm, subdirs, boot_names, boot_root]
    rfl
  · rw [Finset.sum_eq_single 0 (fun p _ hp => by rw [if_neg hp]; rfl) fun h => absurd (Finset.mem_univ _) h]
    by_cases h : i = ROOTINO
    · rw [h]
      rfl
    · have hcount : Multiset.count i {ROOTINO} = 0 := by
        rw [Multiset.count_singleton, if_neg h]
      show (update (fun _ => ⟨0, false, none⟩ : Nat → Entry) ROOTINO ⟨1, false, none⟩ i).ref = _
      rw [update_of_ne h]
      exact hcount.symm
  · by_cases hp : p = 0
    · subst hp
      rw [Multiset.mem_singleton.1 hi, boot_root]
      decide
    · rw [if_neg hp] at hi
      cases hi

/-! ## Runs -/

/-- A call of process 0 that takes `k` operations. -/
def callActs (c : Call) (k : Nat) : List (Sched Pid Call) :=
  .start 0 c :: List.replicate k (.step 0 true)

/-- A check of `Allowed` that no unlink of a directory passes. -/
def allowedCheck (s : Fs) : Op → Bool
  | .setNlink i m => !((s.inode i).nlink = 0x7fff && m = 0x8000)
  | .writeEnt d off de =>
    if de.inum ≠ 0 then 1 ≤ (s.inode d).nlink.toInt && 1 ≤ (s.inode de.inum.toNat).nlink.toInt
    else (s.inode d).ents[off]?.all fun e => (s.inode e.inum.toNat).type ≠ .dir
  | .ialloc i _ => (s.inode i).type ≠ .free || (s.itable i).ref = 0
  | _ => true

theorem allowed_of_check {s : Fs} {o : Op} (h : allowedCheck s o = true) : Allowed strict s o := by
  cases o with
  | setNlink i m => simpa only [allowedCheck, Allowed, Bool.not_eq_true', Bool.and_eq_false_imp,
      decide_eq_true_eq, decide_eq_false_iff_not, not_and] using h
  | writeEnt d off de =>
    rw [allowedCheck] at h
    rw [Allowed]
    split at h
    · rw [Bool.and_eq_true, decide_eq_true_eq, decide_eq_true_eq] at h
      rw [if_pos ‹_›]
      exact ⟨h.1, fun _ => h.2⟩
    · rw [if_neg ‹_›]
      intro e he hd
      rw [he, Option.all_some, decide_eq_true_eq] at h
      exact absurd hd h
  | ialloc i type =>
    intro _ hf
    simpa [allowedCheck, hf] using h
  | _ => trivial

def stepCheck (s : Sys) : Sched Pid Call → Bool
  | .start _ _ => true
  | .step p _ =>
    match s.proc p with
    | .op o _ => allowedCheck s.shared o
    | _ => true

theorem meets_of_check (s : Sys) (a : Sched Pid Call) (h : stepCheck s a = true) : Kernel.Meets (Allowed strict) s a := by
  cases a with
  | start p c => trivial
  | step p b =>
    simp only [stepCheck, Kernel.Meets] at h ⊢
    split
    · rename_i o k e
      rw [e] at h
      exact allowed_of_check h
    · trivial

theorem meets_true (s : Sys) (a : Sched Pid Call) : Kernel.Meets (fun _ _ => True) s a := by
  cases a with
  | start p c => trivial
  | step p b =>
    simp only [Kernel.Meets]
    split <;> trivial

/-- Make the directory "/a" and in it the file "x", link it as "/y", and unlink "/a/x". -/
def makeRun : List (Sched Pid Call) :=
  callActs (.mkdir [97]) 26 ++ callActs (.open [97, 47, 120] 0x202) 26 ++ callActs (.link [97, 47, 120] [121]) 29 ++
  callActs (.unlink [97, 47, 120]) 22

def checkedRun : Option (Sys × List Empty) :=
  runActs (fun s a => if stepCheck s a then (kernel 200).step s a else none) boot makeRun

theorem makeRun_ends : ∃ s es, checkedRun = some (s, es) ∧
    (s.shared.inode 2).type = .dir ∧ (s.shared.inode 3).type = .file :=
  exists_of_any (by decide +kernel)

theorem no_dangling_makeRun : ∃ es s, Run 200 (Allowed false) boot es s ∧
    (s.shared.inode 2).type = .dir ∧ (s.shared.inode 3).type = .file ∧ NoDangling s.shared := by
  obtain ⟨s, es, hr, h⟩ := makeRun_ends
  have hrun : Run 200 (Allowed false) boot es s := (exec_of_run hr).of_check meets_of_check
  exact ⟨es, s, hrun, h.1, h.2, (no_dangling boot_image hrun).1⟩

/-- Process 0 makes "/a" and "/a/b", enters "/a/b" and unlinks first "../b", then "/a". -/
def unlinkRun : List (Sched Pid Call) :=
  callActs (.mkdir [97]) 26 ++ callActs (.mkdir [97, 47, 98]) 33 ++ callActs (.chdir [97, 47, 98]) 17 ++
  callActs (.unlink [46, 46, 47, 98]) 24 ++ callActs (.unlink [47, 97]) 21

/-- The working directory is left with a ".." that names a free inode, and `chdir("..")` panics. -/
theorem dangling_after_unlinks : Image 200 boot ∧ ∃ es s es' s', Run 200 (fun _ _ => True) boot es s ∧
    ¬NoDangling s.shared ∧ Run 200 (fun _ _ => True) s es' s' ∧ s'.panicked = some .ilockNoType := by
  obtain ⟨s, es, hr, ⟨hdir, hpar, hfree⟩, hnext⟩ : ∃ s es, runActs (kernel 200).step boot unlinkRun = some (s, es) ∧
      ((s.shared.inode 3).type = .dir ∧ (s.shared.inode 3).parent = some 2 ∧ (s.shared.inode 2).type = .free) ∧
      ((runActs (kernel 200).step s (callActs (.chdir [46, 46]) 8)).any fun r =>
        decide (r.1.panicked = some .ilockNoType)) = true := exists_of_any (by decide +kernel)
  obtain ⟨s', es', hr', hpanic⟩ := exists_of_any (P := fun (s : Sys) _ => s.panicked = some .ilockNoType) hnext
  have hany : ∀ (s : Sys) (a : Sched Pid Call), Any s a → Kernel.Meets (fun _ _ => True) s a :=
    fun s a _ => meets_true s a
  refine ⟨boot_image, es, s, es', s', (exec_of_run hr).mono hany, fun hno => ?_,
    (exec_of_run hr').mono hany, hpanic⟩
  obtain ⟨e, he, hi⟩ := Option.map_eq_some_iff.1 hpar
  have h0 : e.inum ≠ 0 := inum_ne_zero hi (by omega)
  refine hno 3 hdir e (List.mem_of_getElem? he) h0 ?_
  rw [hi]
  exact hfree

end Xv6.Names
