import Xv6.Names.Table

/-!
# Operations on inodes

`ialloc`, the freeing of an inode in `iput`, changes of link counts and `writei` of a
directory entry keep the invariant.
-/

namespace Xv6.Names

open Function
open Blocks (ROOTINO)

variable {strict : Bool} {n i d j : Nat} {g : Pid → Loc} {s s' : Fs} {p q : Pid} {l l' : Loc}
  {c c' : Inode}

/-! ## Counting -/

/-- The names of `j` after the entries of one inode have changed. -/
theorem nm_setInode (hi : i < n) (s : Fs) (c : Inode) (j : Nat) :
    nm n (s.setInode i c) j + (s.inode i).names.count j = nm n s j + c.names.count j :=
  sum_update (Finset.mem_range.2 hi) s.inode c fun c => c.names.count j

theorem nm_congr (h : ∀ d, (s'.inode d).names = (s.inode d).names) (j : Nat) : nm n s' j = nm n s j :=
  Finset.sum_congr rfl fun d _ => by rw [h d]

theorem subdirs_congr (h : (s'.inode d).names = (s.inode d).names)
    (ht : ∀ j ∈ (s.inode d).names, ((s'.inode j).type = .dir ↔ (s.inode j).type = .dir)) : subdirs s' d = subdirs s d := by
  rw [subdirs, subdirs, h]
  exact List.countP_congr fun j hj => by simpa using ht j hj

theorem nm_eq_zero (h : ∀ d, i ∉ (s.inode d).names) : nm n s i = 0 :=
  Finset.sum_eq_zero fun d _ => List.count_eq_zero.2 (h d)

theorem Disk.not_mem_names (h : Disk n s) (h0 : nm n s i = 0) (d : Nat) : i ∉ (s.inode d).names := by
  intro hm
  have := h.nm_pos hm
  omega

/-- The process that changes an inode: everything else is as before. -/
theorem Inv.content (h : Inv strict n g s) (hit : ∀ j, j ≠ i → s'.itable j = s.itable j)
    (href : (s'.itable i).ref = (s.itable i).ref) (hin : ∀ j, j ≠ i → s'.inode j = s.inode j)
    (hlock : ∀ q, q ≠ p → (s.itable i).lock = some q → s'.itable i = s.itable i) (hi : ∀ q, q ≠ p → (g q).known i = none)
    (htype : ∀ q, q ≠ p → i ∈ (g q).refs → (s'.inode i).type = (s.inode i).type)
    (hdrop : strict = true → ∀ q, q ≠ p → ∀ b, (g q).phase = .dropping i b →
      (s.inode i).type = .free → (s'.inode i).type = .free) (hdisk : Disk n s') (hlinks : ∀ j, (s'.inode j).type ≠ .free →
      (s'.inode j).nlink.toInt = linkCount n s' j + ∑ q, (update g p l' q).pend j) (hheld : ∀ j, l'.held j = (g p).held j)
    (hnew : ∀ q, q ≠ p → ∀ j, (g q).phase.Claims j → j ∉ l'.refs ∧ l'.known j = none)
    (hloc : LocOk strict (update g p l') s' p) (hkept : strict = true → Kept n (update g p l') s') :
    Inv strict n (update g p l') s' := by
  refine ⟨hdisk, hlinks, fun j => ?_, fun q => ?_, hkept⟩
  · have hsum := sum_update_eq (t := Finset.univ) g (fun l => l.held j) (hheld j)
    rw [hsum]
    by_cases ej : j = i
    · rw [ej, href]
      exact h.refs i
    · rw [hit j ej]
      exact h.refs j
  · by_cases hq : q = p
    · rw [hq]
      exact hloc
    · refine (h.loc q).frame hq (fun j hj => ?_) (fun j hj => ?_) (fun j hj => ?_) (hnew q hq)
        fun hs j b hph ht => ?_
      · by_cases ej : j = i
        · subst ej
          exact absurd (hi q hq) hj
        · exact hin j ej
      · by_cases ej : j = i
        · subst ej
          rw [hlock q hq hj]
          exact ⟨hj, fun hv _ => hv⟩
        · rw [hit j ej]
          exact ⟨hj, fun hv _ => hv⟩
      · by_cases ej : j = i
        · subst ej
          exact htype q hq hj
        · rw [hin j ej]
      · by_cases ej : j = i
        · subst ej
          exact hdrop hs q hq b hph ht
        · rw [hin j ej]
          exact ht

/-- How the links change if what the process owes changes accordingly. -/
theorem Inv.links_update (h : Inv strict n g s) (ht : (s.inode j).type ≠ .free)
    (he : (s'.inode j).nlink.toInt - (s.inode j).nlink.toInt =
      (linkCount n s' j : Int) - linkCount n s j + (l'.pend j - (g p).pend j)) :
    (s'.inode j).nlink.toInt = linkCount n s' j + ∑ q, (update g p l' q).pend j := by
  have hsum := sum_update (Finset.mem_univ p) g l' fun l => l.pend j
  have := h.links j ht
  omega

/-! ## Link counts -/

/-- The directories and types are the same. -/
structure SameTree (s s' : Fs) : Prop where
  type : ∀ j, (s'.inode j).type = (s.inode j).type
  ents : ∀ j, (s'.inode j).ents = (s.inode j).ents

theorem SameTree.names (h : SameTree s s') (d : Nat) : (s'.inode d).names = (s.inode d).names := by
  rw [Inode.names, h.ents]
  rfl

theorem SameTree.parent (h : SameTree s s') (d : Nat) : (s'.inode d).parent = (s.inode d).parent := by
  rw [Inode.parent, h.ents]
  rfl

theorem SameTree.nm (h : SameTree s s') (j : Nat) : nm n s' j = nm n s j := nm_congr h.names j

/-- So every inode has as many links as before. -/
theorem SameTree.links (h : SameTree s s') (j : Nat) : linkCount n s' j = linkCount n s j := by
  rw [linkCount, linkCount, h.nm, subdirs_congr (h.names j) fun _ _ => by rw [h.type]]

theorem Disk.sameTree (h : Disk n s) (ht : SameTree s s') : Disk n s' := by
  constructor
  case depth =>
    obtain ⟨f, hf⟩ := h.depth
    refine ⟨f, fun d i hi => ?_⟩
    rw [ht.names] at hi
    rw [ht.type]
    exact hf d i hi
  all_goals simp only [ht.type, ht.ents, ht.names, ht.parent, ht.nm]
  · exact h.bound
  · exact h.root
  · exact h.rootParent
  · exact h.rootNm
  · exact h.ents
  · exact h.shape
  · exact h.named
  · exact h.once
  · exact h.up
  · exact h.empty
  · exact h.dotdot

/-- An inode without a name is still held or being made. -/
theorem Kept.content (h : Kept n g s) (hit : s'.itable = s.itable) (hnm : ∀ i, nm n s' i = nm n s i)
    (htype : ∀ i, (s'.inode i).type = (s.inode i).type) (hph : l'.phase = (g p).phase) : Kept n (update g p l') s' := by
  intro i hr ht h0
  rw [hit]
  rw [htype] at ht
  rw [hnm] at h0
  exact (h i hr ht h0).imp_right (fresh_update fun hf => hph.trans hf)

section

variable (h : Inv strict n g s) (hk : (g p).known i = some c)
include h hk

theorem Inv.other_known (hq : q ≠ p) : (g q).known i = none := by
  by_contra hne
  exact hq (h.known_unique (by rw [hk]; nofun) hne)

/-- No other process claims an inode that `p` knows, or takes note of what `p` knows. -/
theorem Inv.claims_lock (hq : q ≠ p) {j : Nat} (hc : (g q).phase.Claims j) (c' : Inode) :
    j ∉ (g p).refs ∧ update (g p).known i (some c') j = none := by
  obtain ⟨hr, hn⟩ := h.claims_iff hq hc
  have hj : j ≠ i := by
    rintro rfl
    rw [hk] at hn
    cases hn
  exact ⟨hr, (update_of_ne hj ..).trans hn⟩

/-- A link count changes together with what the process owes. -/
theorem Inv.setLinks (hph : (g p).phase = .none) (c' : Inode) (ht : c'.type = c.type) (he : c'.ents = c.ents)
    (hpos : c.type ≠ .dir → 0 ≤ (g p).pend i + (c'.nlink.toInt - c.nlink.toInt)) :
    Inv strict n (update g p (((g p).lock i c').owe i (c'.nlink.toInt - c.nlink.toInt))) (s.setInode i c') := by
  have hl := h.loc p
  obtain ⟨ec, htc, hlk⟩ := hl.locked hph hk
  have hsame : SameTree s (s.setInode i c') := by
    constructor <;> intro j <;> by_cases ej : j = i
    · rw [ej, Fs.setInode_self, ht, ec]
    · rw [Fs.setInode_of_ne _ _ ej]
    · rw [ej, Fs.setInode_self, he, ec]
    · rw [Fs.setInode_of_ne _ _ ej]
  refine h.content (fun _ _ => rfl) rfl (fun j hj => Fs.setInode_of_ne _ _ hj) (fun _ _ _ => rfl)
    (fun q hq => h.other_known hk hq) (fun _ _ _ => hsame.type i)
    (fun _ _ _ _ _ hf => (hsame.type i).trans hf) (h.disk.sameTree hsame) (fun j hj => ?_)
    (fun _ => rfl) (fun q hq j hc => h.claims_lock hk hq hc c')
    (LocOk.self (fun j c₁ hk₁ => ?_) (fun j hj => ?_) (fun j hj => ?_) (phaseOk_none hph)) fun hs => ?_
  · rw [hsame.type] at hj
    refine h.links_update hj ?_
    rw [hsame.links, Loc.owe_pend, Pi.add_apply]
    by_cases ej : j = i
    · rw [ej, Fs.setInode_self, ec, Pi.single_eq_same, Loc.lock_pend]
      omega
    · rw [Fs.setInode_of_ne _ _ ej, Pi.single_eq_of_ne ej, Loc.lock_pend]
      omega
  · rw [Loc.owe_known, Loc.lock_known] at hk₁
    by_cases ej : j = i
    · subst ej
      rw [update_self] at hk₁
      cases hk₁
      exact ⟨Fs.setInode_self .., ht ▸ htc, .inr hlk⟩
    · rw [update_of_ne ej] at hk₁
      rw [Fs.setInode_of_ne _ _ ej]
      exact hl.known j c₁ hk₁
  · rw [hsame.type]
    exact hl.ref j hj
  · rw [hsame.type, Loc.owe_known, Loc.lock_known]
    rw [Loc.owe_pend, Pi.add_apply, Loc.lock_pend] at hj ⊢
    by_cases ej : j = i
    · subst ej
      rw [Pi.single_eq_same] at hj ⊢
      rw [update_self]
      refine ⟨hlk.2.2, ?_⟩
      split
      · nofun
      · have := hpos (by rwa [ec] at *)
        omega
    · rw [Pi.single_eq_of_ne ej, add_zero] at hj ⊢
      rw [update_of_ne ej]
      exact hl.pend j hj
  · exact (h.kept hs).content rfl hsame.nm hsame.type rfl

end

variable {Q : Unit → Loc → Prop}

/-- A change of `nlink` by `k`, which the other conditions imply. -/
theorem safe_setNlink {m : BitVec 16} {k : Int} (hk : l.known i = some c) (hph : l.phase = .none)
    (hm : ¬(c.nlink = 0x7fff ∧ m = 0x8000) → l.pend i ≤ c.nlink.toInt → m.toInt - c.nlink.toInt = k)
    (hpos : c.type ≠ .dir → 0 ≤ l.pend i + k) (hq : Q () ((l.lock i { c with nlink := m }).owe i k)) :
    Safe strict n p (perform (.setNlink i m)) l Q := by
  refine .perform fun g s hg h ha _ => ⟨nofun, fun r s' hx => ?_⟩
  cases hx
  subst hg
  obtain ⟨ec, htc, -⟩ := (h.loc p).known i c hk
  have hle := h.pend_le (p := p) (i := i) (by rw [hk]; nofun) (by rw [ec]; exact htc)
  rw [ec] at hle
  have hle : (g p).pend i ≤ c.nlink.toInt := by omega
  rw [Allowed, ec] at ha
  refine ⟨_, ?_, hq⟩
  rw [ec, ← hm ha hle]
  exact h.setLinks hk hph { c with nlink := m } rfl rfl fun ht => by
    have := hpos ht
    have := hm ha hle
    show 0 ≤ (g p).pend i + (m.toInt - c.nlink.toInt)
    omega

/-- `create` gives a new inode its first link, which the process then owes. -/
theorem safe_initInode {major minor : BitVec 16} (hk : l.known i = some c) (hph : l.phase = .none) (h0 : c.nlink = 0)
    (hp : l.pend i = 0) (hq : Q () ((l.lock i { c with major, minor, nlink := 1 }).owe i 1)) :
    Safe strict n p (perform (.initInode i major minor)) l Q := by
  refine .perform fun g s hg h ha _ => ⟨nofun, fun r s' hx => ?_⟩
  cases hx
  subst hg
  obtain ⟨ec, -⟩ := (h.loc p).known i c hk
  have hone : (1 : BitVec 16).toInt - c.nlink.toInt = 1 := by
    rw [h0]
    rfl
  refine ⟨_, ?_, hq⟩
  rw [ec]
  have := h.setLinks hk hph { c with major, minor, nlink := 1 } rfl rfl fun _ => by
    show 0 ≤ (g p).pend i + ((1 : BitVec 16).toInt - c.nlink.toInt)
    omega
  rwa [hone] at this

/-! ## Allocating and freeing -/

/-- An inode that no directory knows of and that names nothing. -/
structure Blank (n : Nat) (s : Fs) (i : Nat) : Prop where
  root : i ≠ ROOTINO
  names : (s.inode i).names = []
  nm : nm n s i = 0
  parent : ∀ d, (s.inode d).parent ≠ some i

/-- An inode that no directory names is in no other way part of the tree. -/
theorem Disk.blank_of_nm (h : Disk n s) (hr : i ≠ ROOTINO) (h0 : nm n s i = 0) : Blank n s i := by
  refine ⟨hr, h.empty i hr h0, h0, fun d hd => ?_⟩
  have := (h.dotdot d i hd).2 hr
  omega

theorem Disk.blank_of_free (h : Disk n s) (hf : (s.inode i).type = .free) : Blank n s i := by
  refine h.blank_of_nm (fun e => ?_) (nm_eq_zero fun d hm => h.named d i hm hf)
  have := h.root
  rw [← e, hf] at this
  cases this

section Blank

variable (hb : Blank n s i) (hin : ∀ j, j ≠ i → s'.inode j = s.inode j) (he : (s'.inode i).ents = [])
include hb hin he

theorem Blank.names_eq (d : Nat) : (s'.inode d).names = (s.inode d).names := by
  by_cases ed : d = i
  · rw [ed, hb.names, Inode.names, he]
    rfl
  · rw [hin d ed]

theorem Blank.nm_eq (j : Nat) : Names.nm n s' j = Names.nm n s j := nm_congr (hb.names_eq hin he) j

theorem Blank.linkCount_eq (hd : Disk n s) (j : Nat) : linkCount n s' j = linkCount n s j := by
  rw [linkCount, linkCount, hb.nm_eq hin he, subdirs_congr (hb.names_eq hin he j) fun k hk => ?_]
  rw [hin k fun e => hd.not_mem_names hb.nm j (e ▸ hk)]

/-- What happens to such an inode leaves the tree sound. -/
theorem Blank.disk (h : Disk n s) (hbound : (s'.inode i).type ≠ .free → 0 < i ∧ i < n) : Disk n s' := by
  have hnames := hb.names_eq hin he
  have hnm := hb.nm_eq hin he
  -- neither a named inode nor a parent is `i`
  have hmem : ∀ {d j}, j ∈ (s.inode d).names → s'.inode j = s.inode j := fun {d j} hj =>
    hin j fun e => h.not_mem_names hb.nm d (e ▸ hj)
  have hpar : ∀ {d j}, (s'.inode d).parent = some j → (s.inode d).parent = some j ∧ s'.inode j = s.inode j := by
    intro d j hj
    have hd : d ≠ i := by
      rintro rfl
      rw [Inode.parent, he] at hj
      cases hj
    rw [hin d hd] at hj
    exact ⟨hj, hin j fun e => hb.parent d (e ▸ hj)⟩
  have hroot := hin ROOTINO (Ne.symm hb.root)
  obtain ⟨f, hf⟩ := h.depth
  refine ⟨fun j hj => ?_, hroot ▸ h.root, hroot ▸ h.rootParent, hnm _ ▸ h.rootNm, fun j hj => ?_,
    fun j => ?_, fun d j hj => ?_, fun j hj => ?_, fun d j hj ht => ?_, fun d hd h0 => ?_,
    fun d j hj => ?_, f, fun d j hj ht => ?_⟩
  · by_cases ej : j = i
    · subst ej
      exact hbound hj
    · rw [hin j ej] at hj
      exact h.bound j hj
  · by_cases ej : j = i
    · subst ej
      exact he
    · rw [hin j ej] at hj ⊢
      exact h.ents j hj
  · by_cases ej : j = i
    · subst ej
      exact .inl he
    · rw [hin j ej]
      exact h.shape j
  · rw [hnames] at hj
    rw [hmem hj]
    exact h.named d j hj
  · rw [hnm]
    by_cases ej : j = i
    · rw [ej, hb.nm]
      omega
    · rw [hin j ej] at hj
      exact h.once j hj
  · rw [hnames] at hj
    rw [hmem hj] at ht ⊢
    exact h.up d j hj ht
  · rw [hnm] at h0
    rw [hnames]
    exact h.empty d hd h0
  · obtain ⟨hj, e⟩ := hpar hj
    rw [e, hnm]
    exact h.dotdot d j hj
  · rw [hnames] at hj
    rw [hmem hj] at ht
    exact hf d j hj ht

end Blank

/-- No process has to do with a free inode. -/
theorem Inv.unused_of_free (h : Inv strict n g s) (hf : (s.inode i).type = .free) (q : Pid) :
    i ∉ (g q).refs ∧ (g q).known i = none ∧ (g q).pend i = 0 := by
  have href : i ∉ (g q).refs := fun hm => (h.loc q).ref i hm hf
  refine ⟨href, ?_, ?_⟩
  · by_contra hne
    obtain ⟨c, hc⟩ := Option.ne_none_iff_exists'.1 hne
    obtain ⟨ec, htc, -⟩ := (h.loc q).known i c hc
    exact htc (ec ▸ hf)
  · by_contra hne
    exact href ((h.loc q).pend i hne).1

theorem Inv.ialloc (h : Inv strict n g s) (hph : (g p).phase = .none) (hf : (s.inode i).type = .free)
    (hn : 0 < i ∧ i < n) {type : InodeType} (ht : type ≠ .free) (ha : strict = true → (s.itable i).ref = 0) :
    Inv strict n (update g p (((g p).lock i (freshInode type)).setPhase (.fresh i))) (s.setInode i (freshInode type)) := by
  have hl := h.loc p
  have hb := h.disk.blank_of_free hf
  have hin : ∀ j, j ≠ i → (s.setInode i (freshInode type)).inode j = s.inode j := fun j hj =>
    Fs.setInode_of_ne _ _ hj
  have he : ((s.setInode i (freshInode type)).inode i).ents = [] := by
    rw [Fs.setInode_self]
    rfl
  have href : ∀ q, i ∉ (g q).refs := fun q => (h.unused_of_free hf q).1
  have hknown : ∀ q, (g q).known i = none := fun q => (h.unused_of_free hf q).2.1
  have hpend : ∀ q, (g q).pend i = 0 := fun q => (h.unused_of_free hf q).2.2
  refine h.content (fun _ _ => rfl) rfl hin (fun _ _ _ => rfl) (fun q _ => hknown q)
    (fun q _ hm => absurd hm (href q)) (fun hs q _ b hd _ => ?_)
    (hb.disk hin he h.disk fun _ => hn) (fun j hj => ?_) (fun j => ?_) (fun q hq j hc => ?_)
    (LocOk.self (fun j c hk => ?_) (fun j hj => ?_) (fun j hj => ?_) ?_) fun hs => ?_
  · have hle := h.held_le q i
    rw [ha hs, Loc.held, hd, Phase.drops_self] at hle
    omega
  · by_cases ej : j = i
    · subst ej
      have hsum : ∑ q, (update g p (((g p).lock j (freshInode type)).setPhase (.fresh j)) q).pend j = 0 := by
        refine Finset.sum_eq_zero fun q _ => ?_
        by_cases eq : q = p
        · rw [eq, update_self]
          exact hpend p
        · rw [update_of_ne eq]
          exact hpend q
      rw [hsum, hb.linkCount_eq hin he h.disk, h.disk.links_eq_zero hb.root hb.nm, Fs.setInode_self]
      rfl
    · rw [hin j ej] at hj
      refine h.links_update hj ?_
      rw [hin j ej, hb.linkCount_eq hin he h.disk]
      show _ = _ + ((g p).pend j - (g p).pend j)
      omega
  · rw [Loc.held, Loc.held, hph]
    rfl
  · obtain ⟨hr, hk⟩ := h.claims_iff hq hc
    have hj : j ≠ i := by
      rintro rfl
      exact absurd (hknown q) (by
        have hp := (h.loc q).phase
        rcases hc with e | e <;> rw [e] at hp
        · exact hp.1
        · exact hp.1)
    exact ⟨hr, (update_of_ne hj ..).trans hk⟩
  · rw [Loc.setPhase_known, Loc.lock_known] at hk
    by_cases ej : j = i
    · subst ej
      rw [update_self] at hk
      cases hk
      exact ⟨Fs.setInode_self .., ht, .inl rfl⟩
    · rw [update_of_ne ej] at hk
      rw [hin j ej]
      obtain ⟨ec, htc, hlk⟩ := hl.locked hph hk
      exact ⟨ec, htc, .inr hlk⟩
  · have ej : j ≠ i := fun e => href p (e ▸ hj)
    rw [hin j ej]
    exact hl.ref j hj
  · have ej : j ≠ i := fun e => hj (e ▸ hpend p)
    rw [hin j ej, Loc.setPhase_known, Loc.lock_known, update_of_ne ej]
    exact hl.pend j hj
  · show PhaseOk _ _ _ _ (.fresh i)
    simp only [PhaseOk, update_self, alone_update, Fs.setInode_self]
    refine ⟨?_, rfl, rfl, hpend p, fun q _ => ⟨href q, hknown q⟩⟩
    rw [Loc.setPhase_known, Loc.lock_known, update_self]
    simp
  · intro j hr htj h0
    by_cases ej : j = i
    · exact .inr ⟨p, by rw [update_self, ej]; rfl⟩
    · rw [hin j ej] at htj
      rw [hb.nm_eq hin he] at h0
      refine (h.kept hs j hr htj h0).imp_right (fresh_update fun hf => ?_)
      rw [hph] at hf
      cases hf

/-- `ialloc` tries one inode, and takes it if it is free. -/
theorem safe_ialloc_op {Q : Bool → Loc → Prop} {type : InodeType} (hph : l.phase = .none)
    (hn : 0 < i ∧ i < n) (ht : type ≠ .free) (hfalse : Q false l)
    (htrue : i ∉ l.refs → l.known i = none → l.pend i = 0 → Q true ((l.lock i (freshInode type)).setPhase (.fresh i))) :
    Safe strict n p (perform (.ialloc i type)) l Q := by
  refine .perform fun g s hg h ha _ => ?_
  subst hg
  simp only [kernel, exec]
  split
  · refine ⟨by simp, fun r s' hx => ?_⟩
    cases hx
    obtain ⟨h1, h2, h3⟩ := h.unused_of_free ‹_› p
    exact ⟨_, h.ialloc hph ‹_› hn ht fun hs => ha hs ‹_›, htrue h1 h2 h3⟩
  · refine ⟨by simp, fun r s' hx => ?_⟩
    cases hx
    refine ⟨g p, ?_, hfalse⟩
    rw [update_eq_self]
    exact h

/-- The ghost value after `iput` has freed the inode. -/
def Loc.freed (l : Loc) (i : Nat) : Loc := ((l.drop i).unlock i).setPhase (.dropping i true)

/-- The locked inode is freed; the reference to it is still to be dropped. -/
theorem safe_ifree (hph : l.phase = .freeing i) (hq : Q () (l.freed i)) : Safe strict n p (perform (.ifree i)) l Q := by
  refine .perform fun g s hg h ha _ => ⟨nofun, fun r s' hx => ?_⟩
  cases hx
  subst hg
  have hl := h.loc p
  have hp := hl.phase
  rw [hph] at hp
  obtain ⟨hk, h0, hpend, hcount, halone⟩ := hp
  obtain ⟨c, hk⟩ := Option.ne_none_iff_exists'.1 hk
  obtain ⟨ec, htc, hlk⟩ := hl.known i c hk
  have hlk := hlk.resolve_left (by rw [hph]; simp)
  obtain ⟨hr, hnm⟩ := h.nm_of_claims (.inr hph)
  have hb := h.disk.blank_of_nm hr hnm
  refine ⟨_, ?_, hq⟩
  generalize hs' : (s.setInode i { s.inode i with type := .free, ents := [] }).setEntry i
    { s.itable i with valid := false } = s'
  have hin : ∀ j, j ≠ i → s'.inode j = s.inode j := fun j hj => by
    rw [← hs', Fs.setEntry_inode, Fs.setInode_of_ne _ _ hj]
  have hi : s'.inode i = { s.inode i with type := .free, ents := [] } := by
    rw [← hs', Fs.setEntry_inode, Fs.setInode_self]
  have hit : ∀ j, j ≠ i → s'.itable j = s.itable j := fun j hj => by
    rw [← hs', Fs.setEntry_of_ne _ _ hj]
    rfl
  have hti : s'.itable i = { s.itable i with valid := false } := by
    rw [← hs', Fs.setEntry_self]
  have he : (s'.inode i).ents = [] := by rw [hi]
  have hmem : ∀ j, j ∈ (g p).refs.erase i → j ≠ i := by
    rintro j hj rfl
    have := Multiset.count_pos.2 hj
    rw [Multiset.count_erase_self] at this
    omega
  refine h.content hit (by rw [hti]) hin (fun q hq hq' => ?_) (fun q hq => (halone q hq).2)
    (fun q hq hm => absurd hm (halone q hq).1) (fun _ _ _ _ _ _ => by rw [hi])
    (hb.disk hin he h.disk fun hf => absurd (by rw [hi]) hf) (fun j hj => ?_) (fun j => ?_)
    (fun q hq j hc => ?_) (LocOk.self (fun j c' hk' => ?_) (fun j hj => ?_) (fun j hj => ?_) ?_) fun hs => ?_
  · rw [hlk.1] at hq'
    exact absurd (Option.some.inj hq').symm hq
  · have ej : j ≠ i := by
      rintro rfl
      exact hj (by rw [hi])
    rw [hin j ej] at hj
    refine h.links_update hj ?_
    rw [hin j ej, hb.linkCount_eq hin he h.disk]
    show _ = _ + ((g p).pend j - (g p).pend j)
    omega
  · show ((g p).refs.erase i).count j + (Phase.dropping i true).drops j = _
    rw [Loc.held, hph]
    by_cases ej : j = i
    · rw [ej, Multiset.count_erase_self, Phase.drops_self, hcount]
      rfl
    · rw [Multiset.count_erase_of_ne ej, Phase.drops_of_ne _ ej]
      rfl
  · obtain ⟨hr, hn⟩ := h.claims_iff hq hc
    have hj : j ≠ i := fun e => hr (e ▸ hlk.2.2)
    exact ⟨fun hm => hr (Multiset.mem_of_mem_erase hm), (update_of_ne hj ..).trans hn⟩
  · have hk' : update (g p).known i none j = some c' := hk'
    have ej : j ≠ i := by
      rintro rfl
      rw [update_self] at hk'
      cases hk'
    rw [update_of_ne ej] at hk'
    obtain ⟨ec', htc', hlk'⟩ := hl.known j c' hk'
    obtain ⟨h1, h2, h3⟩ := hlk'.resolve_left (by rw [hph]; simp)
    rw [hin j ej, hit j ej]
    exact ⟨ec', htc', .inr ⟨h1, h2, (Multiset.mem_erase_of_ne ej).2 h3⟩⟩
  · rw [hin j (hmem j hj)]
    exact hl.ref j (Multiset.mem_of_mem_erase hj)
  · have ej : j ≠ i := fun e => hj (e ▸ hpend)
    obtain ⟨h1, h2⟩ := hl.pend j hj
    refine ⟨(Multiset.mem_erase_of_ne ej).2 h1, ?_⟩
    show if (s'.inode j).type = .dir then update (g p).known i none j ≠ none else _
    rw [hin j ej, update_of_ne ej]
    exact h2
  · refine ⟨fun _ => ?_, fun _ => by rw [hi]⟩
    rw [hti]
    exact hlk.1
  · intro j hr htj hj0
    have ej : j ≠ i := by
      rintro rfl
      exact htj (by rw [hi])
    rw [hin j ej] at htj
    rw [hb.nm_eq hin he] at hj0
    rw [hit j ej]
    refine (h.kept hs j hr htj hj0).imp_right (fresh_update fun hf => ?_)
    rw [hph] at hf
    cases hf

/-- The whole of `iput`. -/
theorem safe_iput (hd : l.Droppable i) (hph : l.phase = .none) (hq : Q () (l.drop i)) : Safe strict n p (iput i) l Q := by
  refine .bind (safe_iput_op hd hph ?_ fun c hk hp _ => ?_)
  · exact hq
  · refine .bind (safe_ifree rfl (.bind (safe_releasesleep ?_ rfl ?_)))
    · exact update_self ..
    · refine safe_unref rfl ?_
      have e : ((((l.lock i c).setPhase (.freeing i)).freed i).setPhase (.dropping i false)).setPhase .none =
          l.drop i := by
        simp only [Loc.freed, Loc.drop, Loc.unlock, Loc.lock, Loc.setPhase, update_idem]
        rw [← hph, ← hk, update_eq_self]
      rw [e]
      exact hq

end Xv6.Names
