import Xv6.Names.Dangling
import Mathlib.Algebra.BigOperators.Group.Finset.Piecewise

/-!
# Link counts

In runs as allowed, whenever no call is in progress, the link count of every allocated
inode is the number of entries that name it, "." apart, in the directories that have links
(`links_exact`). Then every inode with links can be reached from the root, and the inodes in
use are those with a name or a reference. Without the conditions a file can be created in a
directory that has been unlinked (`links_wrong_after_unlink`). At any time the directories form a tree.
-/

namespace Xv6.Names

open Blocks

variable {n i d : Nat} {g : Pid → Loc} {s : Fs}

/-- The entries other than "." that hold inode number `i`. -/
def entries (ents : List Dirent) (i : Nat) : Nat :=
  ents.countP fun e => e.inum ≠ 0 ∧ namecmp e.name dot = false ∧ e.inum.toNat = i

/-- A directory with links. -/
def Live (s : Fs) (d : Nat) : Prop := (s.inode d).type = .dir ∧ 1 ≤ (s.inode d).nlink.toInt

instance (s : Fs) (d : Nat) : Decidable (Live s d) := inferInstanceAs (Decidable (_ ∧ _))

/-- The entries that name inode `i`, in the directories with links of a disk with `n` inodes. -/
def entryCount (n : Nat) (s : Fs) (i : Nat) : Nat :=
  ∑ d ∈ Finset.range n, if Live s d then entries (s.inode d).ents i else 0

inductive Reachable (s : Fs) : Nat → Prop
  | root : Reachable s ROOTINO
  | entry {d : Nat} {e : Dirent} : Reachable s d → (s.inode d).type = .dir → e ∈ (s.inode d).ents →
      e.inum ≠ 0 → Reachable s e.inum.toNat

/-! ## Counting -/

theorem entries_rest {rest : List Dirent} (hrest : ∀ e ∈ rest, e.inum ≠ 0 → namecmp e.name dot = false)
    (i : Nat) : entries rest i = (inums rest).count i := by
  induction rest with
  | nil => rfl
  | cons e rest ih =>
    have ih := ih fun x hx => hrest x (List.mem_cons_of_mem _ hx)
    rw [entries, List.countP_cons]
    rw [entries] at ih
    rw [ih]
    by_cases h0 : e.inum = 0
    · rw [inums_cons_zero h0]
      simp [h0]
    · rw [inums_cons h0, List.count_cons]
      simp only [ne_eq, h0, hrest e List.mem_cons_self h0, not_false_eq_true, true_and, beq_iff_eq, decide_eq_true_eq]

/-- What a complete directory counts for: its names and its "..". -/
theorem entries_dir (h : Disk n s) (hd : (s.inode d).type = .dir) (hn : d ≠ ROOTINO → 0 < nm n s d) (i : Nat) :
    entries (s.inode d).ents i = (s.inode d).names.count i + if (s.inode d).parent = some i then 1 else 0 := by
  obtain ⟨e, e', rest, hents, -, hen, he', hen', hrest⟩ := h.dots hd hn
  have hp : (s.inode d).parent = some e'.inum.toNat := by
    rw [Inode.parent, hents]
    rfl
  have hdot : namecmp (strncpy DIRSIZ dot) dot = true := by decide
  have hdotdot : namecmp (strncpy DIRSIZ dotdot) dot = false := by decide
  rw [names_eq hents, ← entries_rest hrest, hp, hents, entries, entries, List.countP_cons, List.countP_cons, hen, hen']
  simp only [hdot, hdotdot, he', ne_eq, not_false_eq_true, true_and, false_and, and_false, Bool.true_eq_false,
    decide_eq_true_eq, decide_false, Bool.false_eq_true, if_false, add_zero, Option.some.injEq]

/-- The sum over all inodes of how often each one with a property occurs in a list. -/
theorem sum_count (P : Nat → Prop) [DecidablePred P] {l : List Nat} (h : ∀ i ∈ l, i < n) :
    ∑ i ∈ Finset.range n, (if P i then l.count i else 0) = l.countP P := by
  induction l with
  | nil =>
    refine Finset.sum_eq_zero fun i _ => ?_
    split <;> rfl
  | cons x l ih =>
    have hx := h x List.mem_cons_self
    rw [List.countP_cons, ← ih fun i hi => h i (List.mem_cons_of_mem _ hi)]
    have hsplit : ∀ i, (if P i then (x :: l).count i else 0) =
        (if P i then l.count i else 0) + if i = x then (if P x then 1 else 0) else 0 := by
      intro i
      rw [List.count_cons]
      by_cases e : i = x
      · subst e
        by_cases hp : P i <;> simp [hp]
      · simp [e, Ne.symm e]
    simp only [hsplit, Finset.sum_add_distrib, Finset.sum_ite_eq', Finset.mem_range, hx, if_true, decide_eq_true_eq]

/-- The directories whose ".." names `i` are those that `i` names, and the root for itself. -/
theorem Disk.sum_parent (h : Disk n s) (hlive : ∀ d, Live s d ↔
      (s.inode d).type = .dir ∧ (d ≠ ROOTINO → 0 < nm n s d)) (i : Nat) :
    ∑ d ∈ Finset.range n, (if Live s d ∧ (s.inode d).parent = some i then 1 else 0) =
      subdirs s i + if i = ROOTINO then 1 else 0 := by
  have hlt : ∀ j ∈ (s.inode i).names, j < n := fun j hj => (h.bound j (h.named i j hj)).2
  have hroot : ROOTINO < n := (h.bound ROOTINO (by rw [h.root]; simp)).2
  rw [subdirs, ← sum_count (fun j => (s.inode j).type = .dir) hlt]
  have hone : (if i = ROOTINO then 1 else 0) =
      ∑ d ∈ Finset.range n, if d = ROOTINO then (if i = ROOTINO then 1 else 0) else 0 := by
    rw [Finset.sum_ite_eq', if_pos (Finset.mem_range.2 hroot)]
  rw [hone, ← Finset.sum_add_distrib]
  refine Finset.sum_congr rfl fun d _ => ?_
  by_cases hr : d = ROOTINO
  · subst hr
    have hl : Live s ROOTINO := (hlive _).2 ⟨h.root, fun e => absurd rfl e⟩
    have h0 : (s.inode i).names.count ROOTINO = 0 :=
      List.count_eq_zero.2 (h.not_mem_names h.rootNm i)
    simp only [hl, true_and, h.rootParent, h0, Option.some.injEq, if_true, ite_self, zero_add, eq_comm]
  · rw [if_neg hr, add_zero]
    by_cases hd : (s.inode d).type = .dir
    · rw [if_pos hd]
      by_cases hm : d ∈ (s.inode i).names
      · have hpos := h.nm_pos hm
        rw [if_pos ⟨(hlive d).2 ⟨hd, fun _ => hpos⟩, h.up i d hm hd⟩]
        have hle : (s.inode i).names.count d ≤ nm n s d := by
          refine Finset.single_le_sum (f := fun k => (s.inode k).names.count d)
            (fun _ _ => Nat.zero_le _) (Finset.mem_range.2 (h.bound i fun hf => ?_).2)
          rw [Inode.names, h.ents i (by rw [hf]; simp)] at hm
          cases hm
        have := h.once d hd
        have := List.count_pos_iff.2 hm
        omega
      · rw [List.count_eq_zero.2 hm, if_neg]
        rintro ⟨hl, hp⟩
        obtain ⟨k, -, hk⟩ := Finset.exists_ne_zero_of_sum_ne_zero (((hlive d).1 hl).2 hr).ne'
        have hk := List.count_pos_iff.1 (Nat.pos_of_ne_zero hk)
        have := h.up k d hk hd
        rw [hp] at this
        cases this
        exact hm hk
    · rw [if_neg hd, if_neg fun hl => hd ((hlive d).1 hl.1).1]

theorem Disk.entryCount_eq (h : Disk n s) (hlive : ∀ d, Live s d ↔
      (s.inode d).type = .dir ∧ (d ≠ ROOTINO → 0 < nm n s d)) (i : Nat) : entryCount n s i = linkCount n s i := by
  have hterm : ∀ d ∈ Finset.range n, (if Live s d then entries (s.inode d).ents i else 0) =
      (s.inode d).names.count i + if Live s d ∧ (s.inode d).parent = some i then 1 else 0 := by
    intro d _
    by_cases hl : Live s d
    · obtain ⟨hd, hn⟩ := (hlive d).1 hl
      rw [if_pos hl, entries_dir h hd hn]
      simp only [hl, true_and]
    · have hnil : (s.inode d).names = [] := by
        by_cases hd : (s.inode d).type = .dir
        · have hn : ¬(d ≠ ROOTINO → 0 < nm n s d) := fun hn => hl ((hlive d).2 ⟨hd, hn⟩)
          rw [Classical.not_imp] at hn
          exact h.empty d hn.1 (by omega)
        · rw [Inode.names, h.ents d hd]
          rfl
      rw [if_neg hl, hnil, if_neg fun hc => hl hc.1]
      rfl
  rw [entryCount, Finset.sum_congr rfl hterm, Finset.sum_add_distrib, h.sum_parent hlive, linkCount, nm, add_assoc]

/-! ## Between calls -/

def returned : Code Idle → Bool
  | .ret _ => true
  | _ => false

/-- No call is in progress. -/
def Quiet (s : Sys) : Prop := ∀ p, returned (s.proc p) = true

instance (s : Sys) : Decidable (Quiet s) := inferInstanceAs (Decidable (∀ _, _))

theorem idle_of_returned {strict : Bool} {p : Pid} {m : Code Idle} {l : Loc} (hm : returned m = true)
    (h : Safe strict n p m l idle) : ∃ R, l = Loc.of R := by
  cases m with
  | ret a => exact ⟨_, h⟩
  | panic e => cases hm
  | op o k => cases hm

/-- What the invariant says between calls. -/
theorem Inv.links_quiet {strict : Bool} (h : Inv strict n g s) (hg : ∀ p, ∃ R, g p = Loc.of R)
    (ht : (s.inode i).type ≠ .free) : (s.inode i).nlink.toInt = linkCount n s i := by
  have h0 : ∑ p, (g p).pend i = 0 := by
    refine Finset.sum_eq_zero fun p _ => ?_
    obtain ⟨R, e⟩ := hg p
    rw [e]
    rfl
  rw [h.links i ht, h0, add_zero]

theorem Inv.live_iff {strict : Bool} (h : Inv strict n g s) (hg : ∀ p, ∃ R, g p = Loc.of R) (d : Nat) :
    Live s d ↔ (s.inode d).type = .dir ∧ (d ≠ ROOTINO → 0 < nm n s d) := by
  refine and_congr_right fun hd => ?_
  rw [h.links_quiet hg (by rw [hd]; nofun)]
  constructor
  · intro hl hr
    by_contra h0
    rw [h.disk.links_eq_zero hr (by omega)] at hl
    omega
  · intro hn
    unfold linkCount
    by_cases hr : d = ROOTINO
    · rw [if_pos hr]
      omega
    · have := hn hr
      omega

/-- A name is an entry of a directory that has a name itself, or is the root. -/
theorem Disk.exists_entry (h : Disk n s) (hi : 0 < nm n s i) : ∃ d, ∃ e ∈ (s.inode d).ents,
    (s.inode d).type = .dir ∧ (d ≠ ROOTINO → 0 < nm n s d) ∧ e.inum ≠ 0 ∧ e.inum.toNat = i ∧ i ∈ (s.inode d).names := by
  obtain ⟨d, -, hd⟩ := Finset.exists_ne_zero_of_sum_ne_zero hi.ne'
  have hm := List.count_pos_iff.1 (Nat.pos_of_ne_zero hd)
  obtain ⟨hm', h0⟩ := List.mem_filter.1 hm
  obtain ⟨e, he, hei⟩ := List.mem_map.1 hm'
  refine ⟨d, e, List.mem_of_mem_drop he, ?_, fun hr => ?_, ?_, hei, hm⟩
  · by_contra hdir
    rw [Inode.names, h.ents d hdir] at hm
    cases hm
  · by_contra hn
    rw [h.empty d hr (by omega)] at hm
    cases hm
  · rintro e0
    rw [← hei, e0] at h0
    cases h0

/-- A directory with a name, or the root, can be reached. -/
theorem Disk.reachable_dir (h : Disk n s) (hd : (s.inode d).type = .dir)
    (hn : d ≠ ROOTINO → 0 < nm n s d) : Reachable s d := by
  obtain ⟨f, hf⟩ := h.depth
  -- by induction on the depth: the directory that has its name is less deep
  induction hk : f d using Nat.strong_induction_on generalizing d with
  | _ k ih =>
    by_cases hr : d = ROOTINO
    · rw [hr]
      exact .root
    · obtain ⟨d', e, he, hd', hn', h0, rfl, hm⟩ := h.exists_entry (hn hr)
      have hlt := hf d' _ hm hd
      exact .entry (ih (f d') (by omega) hd' hn' rfl) hd' he h0

theorem Disk.reachable (h : Disk n s) (hi : i ≠ ROOTINO → 0 < nm n s i) : Reachable s i := by
  by_cases hr : i = ROOTINO
  · rw [hr]
    exact .root
  · obtain ⟨d, e, he, hd, hn, h0, rfl, -⟩ := h.exists_entry (hi hr)
    exact .entry (h.reachable_dir hd hn) hd he h0

theorem Disk.alloc_of_entryCount (h : Disk n s) (hi : 0 < entryCount n s i) : (s.inode i).type ≠ .free := by
  obtain ⟨d, -, hd⟩ := Finset.exists_ne_zero_of_sum_ne_zero hi.ne'
  split at hd
  · obtain ⟨e, he, hp⟩ := List.countP_pos_iff.1 (Nat.pos_of_ne_zero hd)
    obtain ⟨h0, -, rfl⟩ := of_decide_eq_true hp
    exact h.noDangling d (‹Live s d›).1 e he h0
  · exact absurd rfl hd

/-- Between calls, in runs as allowed: the link counts are exact, every inode with links can be
reached from the root, and an inode is in use if and only if it has a name or a reference. -/
theorem links_exact {s₀ s : Sys} {es : List Empty} (h₀ : Image n s₀)
    (h : Run n (Allowed true) s₀ es s) (hq : Quiet s) :
    (∀ i, (s.shared.inode i).type ≠ .free →
      (s.shared.inode i).nlink.toInt = entryCount n s.shared i) ∧
    (∀ i, (s.shared.inode i).type ≠ .free → 1 ≤ (s.shared.inode i).nlink.toInt → Reachable s.shared i) ∧
    ∀ i, (s.shared.inode i).type ≠ .free ↔
      0 < entryCount n s.shared i ∨ 0 < (s.shared.itable i).ref := by
  obtain ⟨⟨g, hi, hsafe⟩, -⟩ := good_run h₀ h
  have hg : ∀ p, ∃ R, g p = Loc.of R := fun p => idle_of_returned (hq p) (hsafe p)
  have hcount := hi.disk.entryCount_eq (hi.live_iff hg)
  refine ⟨fun i ht => ?_, fun i ht hl => ?_, fun i => ⟨fun ht => ?_, fun hor => ?_⟩⟩
  · rw [hi.links_quiet hg ht, hcount]
  · refine hi.disk.reachable fun hr => ?_
    by_contra h0
    rw [hi.links_quiet hg ht, hi.disk.links_eq_zero hr (by omega)] at hl
    omega
  · by_contra hnot
    rw [not_or, hcount] at hnot
    obtain ⟨hc, href⟩ := hnot
    have hr : i ≠ ROOTINO := by
      intro e
      rw [linkCount, if_pos e] at hc
      omega
    have h0 : nm n s.shared i = 0 := by
      unfold linkCount at hc
      omega
    rcases hi.kept rfl i hr ht h0 with ⟨hpos, -⟩ | ⟨p, hp⟩
    · exact href hpos
    · obtain ⟨R, e⟩ := hg p
      rw [e] at hp
      cases hp
  · rcases hor with hc | href
    · exact hi.disk.alloc_of_entryCount hc
    · rw [hi.refs i] at href
      obtain ⟨p, -, hp⟩ := Finset.exists_ne_zero_of_sum_ne_zero href.ne'
      obtain ⟨R, e⟩ := hg p
      refine (hi.loc p).ref i (Multiset.count_pos.1 ?_)
      rw [Loc.held, e] at hp
      rw [e]
      exact Nat.pos_of_ne_zero hp

theorem makeRun_quiet : ∃ s es, checkedRun = some (s, es) ∧ Quiet s ∧ (s.shared.inode 3).type = .file ∧
    (s.shared.inode 3).nlink = 1 :=
  exists_of_any (by decide +kernel)

/-- After "/a/x" has been made, linked and unlinked, one entry is left, which can be reached. -/
theorem links_exact_makeRun : ∃ es s, Run 200 (Allowed true) boot es s ∧ Quiet s ∧
    entryCount 200 s.shared 3 = 1 ∧ Reachable s.shared 3 := by
  obtain ⟨s, es, hr, hq, ht, hl⟩ := makeRun_quiet
  have hrun : Run 200 (Allowed true) boot es s := (exec_of_run hr).of_check meets_of_check
  obtain ⟨hexact, hreach, -⟩ := links_exact boot_image hrun hq
  have ht : (s.shared.inode 3).type ≠ .free := by
    rw [ht]
    nofun
  have hone : (s.shared.inode 3).nlink.toInt = 1 := by
    rw [hl]
    rfl
  have := hexact 3 ht
  exact ⟨es, s, hrun, hq, by omega, hreach 3 ht hone.ge⟩

/-- Process 0 makes "/d", enters it, unlinks it and creates "x" in it. -/
def createRun : List (Sched Pid Call) :=
  callActs (.mkdir [100]) 26 ++ callActs (.chdir [100]) 11 ++ callActs (.unlink [46, 46, 47, 100]) 24 ++
  callActs (.open [120] 0x202) 20

theorem createRun_ends : ∃ s es, runActs (kernel 200).step boot createRun = some (s, es) ∧ Quiet s ∧
    (s.shared.inode 3).type = .file ∧ (s.shared.inode 3).nlink = 1 ∧ entryCount 200 s.shared 3 = 0 :=
  exists_of_any (by decide +kernel)

/-- A file can be created in a directory without links: its link count is 1, and no directory
with links has an entry for it. -/
theorem links_wrong_after_unlink : Image 200 boot ∧ ∃ es s, Run 200 (fun _ _ => True) boot es s ∧
    Quiet s ∧ (s.shared.inode 3).type ≠ .free ∧
    (s.shared.inode 3).nlink.toInt ≠ entryCount 200 s.shared 3 := by
  obtain ⟨s, es, hr, hq, ht, hl, hc⟩ := createRun_ends
  refine ⟨boot_image, es, s, (exec_of_run hr).mono fun s a _ => meets_true s a, hq, ?_, ?_⟩
  · rw [ht]
    nofun
  · rw [hl, hc]
    decide

/-! ## Directories and references -/

/-- The ".." of `d` is `i`. -/
def Up (s : Fs) (d i : Nat) : Prop := (s.inode d).parent = some i

theorem Disk.climbs (h : Disk n s) (hd : (s.inode d).type = .dir) (hn : d ≠ ROOTINO → 0 < nm n s d) :
    Relation.ReflTransGen (Up s) d ROOTINO := by
  obtain ⟨f, hf⟩ := h.depth
  refine leads_to (P := fun d => (s.inode d).type = .dir ∧ (d ≠ ROOTINO → 0 < nm n s d)) f (fun d hd hr => ?_) ⟨hd, hn⟩
  obtain ⟨d', -, -, hd', hn', -, -, hm⟩ := h.exists_entry (hd.2 hr)
  exact ⟨d', h.up d' d hm hd.1, ⟨hd', hn'⟩, hf d' d hm hd.1⟩

/-- In runs as allowed the directories form a tree at every moment: the root has no name and is its
own "..", another directory has one name at most, in its "..", and from every directory the ".." lead
to the root. -/
theorem dirs_form_tree {s₀ s : Sys} {es : List Empty} (h₀ : Image n s₀) (h : Run n (Allowed false) s₀ es s) :
    (nm n s.shared ROOTINO = 0 ∧ Up s.shared ROOTINO ROOTINO) ∧
    (∀ i, (s.shared.inode i).type = .dir → nm n s.shared i ≤ 1 ∧ ∀ d, i ∈ (s.shared.inode d).names → Up s.shared i d) ∧
    ∀ d i, Up s.shared d i → Relation.ReflTransGen (Up s.shared) d ROOTINO := by
  obtain ⟨⟨g, hi, -⟩, -⟩ := good_run h₀ h
  refine ⟨⟨hi.disk.rootNm, hi.disk.rootParent⟩, fun i ht => ⟨hi.disk.once i ht, fun d hm => hi.disk.up d i hm ht⟩,
    fun d i hp => ?_⟩
  obtain ⟨ht, hn⟩ := hi.disk.dotdot d i hp
  exact .head hp (hi.disk.climbs ht hn)

theorem dirs_form_tree_makeRun : ∃ es s, Run 200 (Allowed false) boot es s ∧ (s.shared.inode 2).type = .dir ∧
    nm 200 s.shared 2 ≤ 1 := by
  obtain ⟨s, es, hr, ht, -⟩ := makeRun_ends
  have hrun : Run 200 (Allowed false) boot es s := (exec_of_run hr).of_check meets_of_check
  exact ⟨es, s, hrun, ht, ((dirs_form_tree boot_image hrun).2.1 2 ht).1⟩

/-- Between calls, in runs as allowed, `ref` of an inode is the number of directories and open files
of the processes that refer to it, and such an inode is in use. -/
theorem refs_exact {s₀ s : Sys} {es : List Empty} (h₀ : Image n s₀) (h : Run n (Allowed false) s₀ es s)
    {a : Pid → Idle} (ha : ∀ p, s.proc p = .ret (a p)) (i : Nat) :
    (s.shared.itable i).ref = ∑ p, (a p).refs.count i ∧ ∀ p, i ∈ (a p).refs → (s.shared.inode i).type ≠ .free := by
  obtain ⟨⟨g, hi, hsafe⟩, -⟩ := good_run h₀ h
  have hg (p : Pid) : g p = Loc.of (a p).refs := by
    have hp := hsafe p
    rw [ha p] at hp
    exact hp
  refine ⟨?_, fun p hp => (hi.loc p).ref i (hg p ▸ hp)⟩
  rw [hi.refs i]
  exact Finset.sum_congr rfl fun p _ => hg p ▸ rfl

theorem refs_exact_makeRun : ∃ es s, ∃ a : Pid → Idle, Run 200 (Allowed false) boot es s ∧
    (∀ p, s.proc p = .ret (a p)) ∧ (s.shared.itable 3).ref = ∑ p, (a p).refs.count 3 := by
  obtain ⟨s, es, hr, hq, -⟩ := makeRun_quiet
  have hret (p : Pid) : ∃ a, s.proc p = .ret a := by
    have hp := hq p
    cases hm : s.proc p with
    | ret a => exact ⟨a, rfl⟩
    | _ => rw [hm] at hp; cases hp
  choose a ha using hret
  have hrun : Run 200 (Allowed false) boot es s := (exec_of_run hr).of_check meets_of_check
  exact ⟨es, s, a, hrun, ha, (refs_exact boot_image hrun ha 3).1⟩

end Xv6.Names
