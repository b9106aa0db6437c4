import Xv6.Names.Write

/-!
# Writing directory entries

The three kinds of entries that `dirlink` writes, which are ".", ".." and names, and
the entry that `sys_unlink` clears. The names of a directory are compared as multisets:
an entry goes to the first empty place or to the end.
-/

namespace Xv6.Names

open Function List
open Blocks

variable {strict : Bool} {n i d j : Nat} {g : Pid → Loc} {s s' : Fs} {p q : Pid} {l l' : Loc}
  {c c' : Inode}

/-! ## Lists of entries -/

/-- The inodes that a list of entries names. -/
def inums (ents : List Dirent) : List Nat := (ents.map fun de => de.inum.toNat).filter (· ≠ 0)

variable {e de : Dirent} {ents : List Dirent} {Q : Bool → Loc → Prop} {name : Name}

theorem inums_cons_zero (h : e.inum = 0) (ents : List Dirent) : inums (e :: ents) = inums ents := by
  simp [inums, h]

theorem inums_cons (h : e.inum ≠ 0) (ents : List Dirent) : inums (e :: ents) = e.inum.toNat :: inums ents := by
  have h0 : e.inum.toNat ≠ 0 := fun hz => h (BitVec.eq_of_toNat_eq hz)
  simp [inums, h0]

theorem names_eq {e' : Dirent} {rest : List Dirent} (h : c.ents = e :: e' :: rest) : c.names = inums rest := by
  rw [Inode.names, h]
  rfl

/-- `de` in the first empty place, or at the end. -/
def place (de : Dirent) : List Dirent → List Dirent
  | [] => [de]
  | e :: ents => if e.inum = 0 then de :: ents else e :: place de ents

theorem place_perm (h : de.inum ≠ 0) (ents : List Dirent) : (inums (place de ents)).Perm (de.inum.toNat :: inums ents) := by
  induction ents with
  | nil => rw [place, inums_cons h]
  | cons e ents ih =>
    rw [place]
    split
    · rw [inums_cons h, inums_cons_zero ‹_›]
    · rw [inums_cons ‹_›, inums_cons ‹_›]
      exact (ih.cons _).trans (List.Perm.swap ..)

theorem mem_place (h : e ∈ place de ents) : e = de ∨ e ∈ ents := by
  induction ents with
  | nil => exact .inl (mem_singleton.1 h)
  | cons x ents ih =>
    rw [place] at h
    split at h
    · rcases mem_cons.1 h with rfl | h
      · exact .inl rfl
      · exact .inr (mem_cons_of_mem _ h)
    · rcases mem_cons.1 h with rfl | h
      · exact .inr mem_cons_self
      · exact (ih h).imp_right (mem_cons_of_mem _)

/-- What `dirlink` writes, if there is room. -/
theorem writeAt_place {room : Bool} {ents' : List Dirent}
    (h : writeAt ents (ents.findIdx fun e => e.inum = 0) de room = some ents') : ents' = place de ents := by
  have key : ∀ ents : List Dirent,
      (if ents.findIdx (fun e => e.inum = 0) < ents.length then
        ents.set (ents.findIdx fun e => e.inum = 0) de else ents ++ [de]) = place de ents := by
    intro ents
    induction ents with
    | nil => rfl
    | cons e ents ih =>
      rw [place, findIdx_cons]
      by_cases h0 : e.inum = 0
      · simp [h0]
      · rw [if_neg h0, ← ih]
        simp only [h0, decide_false, cond_false, length_cons, set_cons_succ, cons_append,
          Nat.add_lt_add_iff_right]
        split <;> rfl
  rw [← key]
  unfold writeAt at h
  split at h
  · cases h
    rw [if_pos ‹_›]
  · split at h
    · cases h
      rw [if_neg ‹_›]
    · cases h

/-- Clearing an entry. -/
theorem inums_set {z : Dirent} {k : Nat} (h : ents[k]? = some e) (he : e.inum ≠ 0) (hz : z.inum = 0) :
    (inums ents).Perm (e.inum.toNat :: inums (ents.set k z)) := by
  induction ents generalizing k with
  | nil => cases h
  | cons x ents ih =>
    cases k with
    | zero =>
      cases h
      rw [set_cons_zero, inums_cons he, inums_cons_zero hz]
    | succ k =>
      rw [set_cons_succ]
      have ih := ih (k := k) h
      by_cases hx : x.inum = 0
      · rw [inums_cons_zero hx, inums_cons_zero hx]
        exact ih
      · rw [inums_cons hx, inums_cons hx]
        exact (ih.cons _).trans (List.Perm.swap ..)

theorem inums_eq_nil (h : ∀ e ∈ ents, e.inum = 0) : inums ents = [] := by
  induction ents with
  | nil => rfl
  | cons e ents ih =>
    rw [inums_cons_zero (h e mem_cons_self)]
    exact ih fun e' he' => h e' (mem_cons_of_mem _ he')

/-! ## Names -/

theorem strncmpEq_strncpy (k : Nat) (s t : Name) : strncmpEq k (strncpy k s) t = strncmpEq k s t := by
  induction k generalizing s t with
  | zero => rfl
  | succ k ih =>
    rw [strncpy]
    by_cases h0 : s.headD 0 = 0
    · rw [if_pos h0]
      simp only [strncmpEq, replicate_succ, headD_cons, h0]
      split <;> simp
    · rw [if_neg h0]
      simp only [strncmpEq, headD_cons, tail_cons, ih]

theorem strncmpEq_comm (k : Nat) (s t : Name) : strncmpEq k s t = strncmpEq k t s := by
  induction k generalizing s t with
  | zero => rfl
  | succ k ih =>
    simp only [strncmpEq]
    by_cases h : s.headD 0 = t.headD 0
    · simp only [h, ne_eq, not_true_eq_false, if_false, ih]
    · rw [if_pos h, if_pos (Ne.symm h)]

theorem namecmp_strncpy (s t : Name) : namecmp (strncpy DIRSIZ s) t = namecmp s (strncpy DIRSIZ t) := by
  rw [namecmp, namecmp, strncmpEq_strncpy, strncmpEq_comm, strncmpEq_comm _ _ (strncpy _ _), strncmpEq_strncpy]

/-! ## The tree of names -/

/-- `s'` is `s` with one more name: inode `j`, in directory `d`. -/
structure NewName (n d j : Nat) (s s' : Fs) : Prop where
  lt : d < n
  other : ∀ k, k ≠ d → s'.inode k = s.inode k
  typeSelf : (s'.inode d).type = (s.inode d).type
  parentSelf : (s'.inode d).parent = (s.inode d).parent
  perm : (s'.inode d).names.Perm (j :: (s.inode d).names)

namespace NewName

variable (h : NewName n d j s s')
include h

theorem type (k : Nat) : (s'.inode k).type = (s.inode k).type := by
  by_cases e : k = d
  · rw [e, h.typeSelf]
  · rw [h.other k e]

theorem parent (k : Nat) : (s'.inode k).parent = (s.inode k).parent := by
  by_cases e : k = d
  · rw [e, h.parentSelf]
  · rw [h.other k e]

theorem mem {k x : Nat} : x ∈ (s'.inode k).names ↔ x ∈ (s.inode k).names ∨ (k = d ∧ x = j) := by
  by_cases e : k = d
  · subst e
    rw [h.perm.mem_iff, mem_cons, or_comm]
    simp only [true_and]
  · rw [h.other k e]
    simp only [e, false_and, or_false]

theorem nm_eq (x : Nat) : nm n s' x = nm n s x + if x = j then 1 else 0 := by
  have hs : (s.setInode d (s'.inode d)).inode = s'.inode := by
    funext k
    by_cases e : k = d
    · rw [e, Fs.setInode_self]
    · rw [Fs.setInode_of_ne _ _ e, h.other k e]
  have hsum := nm_setInode h.lt s (s'.inode d) x
  rw [h.perm.count_eq, count_cons] at hsum
  have e : nm n (s.setInode d (s'.inode d)) x = nm n s' x := by rw [nm, nm, hs]
  rw [e] at hsum
  simp only [beq_iff_eq, eq_comm (a := j)] at hsum
  omega

theorem linkCount_eq (x : Nat) : linkCount n s' x =
    linkCount n s x + (if x = j then 1 else 0) + if x = d ∧ (s.inode j).type = .dir then 1 else 0 := by
  have hsub : subdirs s' x = subdirs s x + if x = d ∧ (s.inode j).type = .dir then 1 else 0 := by
    simp only [subdirs, h.type]
    by_cases e : x = d
    · rw [e, h.perm.countP_eq, countP_cons]
      simp
    · rw [h.other x e, if_neg fun hc => e hc.1]
      rfl
  rw [linkCount, linkCount, h.nm_eq, hsub]
  omega

end NewName

theorem Disk.addName (h : Disk n s) (hn : NewName n d j s s') (hshape : Shape d (s'.inode d).ents)
    (hd : (s.inode d).type = .dir) (hdn : d ≠ ROOTINO → 0 < nm n s d) (hj : (s.inode j).type ≠ .free) (hjr : j ≠ ROOTINO)
    (hjd : (s.inode j).type = .dir → d ≠ j ∧ nm n s j = 0 ∧ (s.inode j).parent = some d) : Disk n s' := by
  obtain ⟨f, hf⟩ := h.depth
  constructor
  case depth =>
    -- a new directory is below the one that it is in
    refine ⟨fun k => if k = j ∧ (s.inode j).type = .dir then f d + 1 else f k, fun k x hx ht => ?_⟩
    rw [hn.type] at ht
    rcases hn.mem.1 hx with hx | ⟨rfl, rfl⟩
    · have hlt := hf k x hx ht
      by_cases hjt : (s.inode j).type = .dir
      · obtain ⟨hne, h0, -⟩ := hjd hjt
        have hxj : x ≠ j := fun e => h.not_mem_names h0 k (e ▸ hx)
        have hkj : k ≠ j := by
          rintro rfl
          rw [h.empty k hjr h0] at hx
          cases hx
        simpa only [hxj, hkj, false_and, if_false] using hlt
      · simpa only [hjt, and_false, if_false] using hlt
    · simp only [ht, and_true, if_pos, if_neg (hjd ht).1]
      omega
  case bound =>
    intro i
    rw [hn.type]
    exact h.bound i
  case root =>
    rw [hn.type]
    exact h.root
  case rootParent =>
    rw [hn.parent]
    exact h.rootParent
  case rootNm => rw [hn.nm_eq, h.rootNm, if_neg (Ne.symm hjr)]
  case ents =>
    intro i ht
    rw [hn.type] at ht
    have hi : i ≠ d := fun e => ht (e ▸ hd)
    rw [hn.other i hi]
    exact h.ents i ht
  case shape =>
    intro i
    by_cases e : i = d
    · rw [e]
      exact hshape
    · rw [hn.other i e]
      exact h.shape i
  case named =>
    intro k x hx
    rw [hn.type]
    rcases hn.mem.1 hx with hx | ⟨-, rfl⟩
    · exact h.named k x hx
    · exact hj
  case once =>
    intro x ht
    rw [hn.type] at ht
    rw [hn.nm_eq]
    split
    · subst x
      rw [(hjd ht).2.1]
    · exact h.once x ht
  case up =>
    intro k x hx ht
    rw [hn.type] at ht
    rw [hn.parent]
    rcases hn.mem.1 hx with hx | ⟨rfl, rfl⟩
    · exact h.up k x hx ht
    · exact (hjd ht).2.2
  case empty =>
    intro k hr h0
    rw [hn.nm_eq] at h0
    have hk : k ≠ d := by
      rintro rfl
      have := hdn hr
      omega
    rw [hn.other k hk]
    exact h.empty k hr (by omega)
  case dotdot =>
    intro k x hx
    rw [hn.parent] at hx
    rw [hn.type, hn.nm_eq]
    refine (h.dotdot k x hx).imp_right fun hp hr => ?_
    have := hp hr
    omega

theorem Disk.clearName (h : Disk n s) (hn : NewName n d j s' s) (hshape : Shape d (s'.inode d).ents)
    (hd : (s.inode d).type = .dir)
    (hjd : (s.inode j).type = .dir → (s.inode j).names = [] ∧ ∀ k, (s.inode k).parent ≠ some j) : Disk n s' := by
  have hmem : ∀ {k x}, x ∈ (s'.inode k).names → x ∈ (s.inode k).names := fun hx => hn.mem.2 (.inl hx)
  have hnil : ∀ {k}, (s.inode k).names = [] → (s'.inode k).names = [] := by
    intro k hk
    refine eq_nil_iff_forall_not_mem.2 fun x hx => ?_
    have := hmem hx
    rw [hk] at this
    cases this
  obtain ⟨f, hf⟩ := h.depth
  constructor
  case depth =>
    refine ⟨f, fun k x hx ht => ?_⟩
    rw [← hn.type] at ht
    exact hf k x (hmem hx) ht
  case bound =>
    intro i
    rw [← hn.type]
    exact h.bound i
  case root =>
    rw [← hn.type]
    exact h.root
  case rootParent =>
    rw [← hn.parent]
    exact h.rootParent
  case rootNm =>
    have := hn.nm_eq ROOTINO
    have := h.rootNm
    omega
  case ents =>
    intro i ht
    rw [← hn.type] at ht
    have hi : i ≠ d := fun e => ht (e ▸ hd)
    rw [← hn.other i hi]
    exact h.ents i ht
  case shape =>
    intro i
    by_cases e : i = d
    · rw [e]
      exact hshape
    · rw [← hn.other i e]
      exact h.shape i
  case named =>
    intro k x hx
    rw [← hn.type]
    exact h.named k x (hmem hx)
  case once =>
    intro x ht
    rw [← hn.type] at ht
    have := hn.nm_eq x
    have := h.once x ht
    omega
  case up =>
    intro k x hx ht
    rw [← hn.type] at ht
    rw [← hn.parent]
    exact h.up k x (hmem hx) ht
  case empty =>
    intro k hr h0
    refine hnil ?_
    by_cases hk : nm n s k = 0
    · exact h.empty k hr hk
    · have ekj : k = j := by
        by_contra hne
        have := hn.nm_eq k
        rw [if_neg hne] at this
        omega
      subst ekj
      by_cases ht : (s.inode k).type = .dir
      · exact (hjd ht).1
      · rw [Inode.names, h.ents k ht]
        rfl
  case dotdot =>
    intro k x hx
    rw [← hn.parent] at hx
    rw [← hn.type]
    obtain ⟨ht, hp⟩ := h.dotdot k x hx
    refine ⟨ht, fun hr => ?_⟩
    have hxj : x ≠ j := by
      rintro rfl
      exact (hjd ht).2 k hx
    have := hn.nm_eq x
    have := hp hr
    rw [if_neg hxj] at *
    omega

/-! ## Writing an entry -/

/-- A write to a locked directory: what the process owes changes with the names. -/
theorem Inv.setEnts (h : Inv strict n g s) (hk : (g p).known d = some c) (hph : (g p).phase = .none)
    (c' : Inode) (ht : c'.type = c.type) (hnl : c'.nlink = c.nlink) (hrefs : l'.refs = (g p).refs)
    (hknown : l'.known = update (g p).known d (some c')) (hphase : l'.phase = .none) (hdisk : Disk n (s.setInode d c'))
    (hlinks : ∀ x, (linkCount n (s.setInode d c') x : Int) + l'.pend x = linkCount n s x + (g p).pend x)
    (hpend : ∀ x, l'.pend x ≠ 0 → x ∈ (g p).refs ∧ if (s.inode x).type = .dir then l'.known x ≠ none else 0 < l'.pend x)
    (hkept : ∀ x, nm n (s.setInode d c') x = 0 → nm n s x = 0 ∨ (g p).known x ≠ none) :
    Inv strict n (update g p l') (s.setInode d c') := by
  have hl := h.loc p
  obtain ⟨ec, htc, hlk⟩ := hl.locked hph hk
  have htype : ∀ x, ((s.setInode d c').inode x).type = (s.inode x).type := by
    intro x
    by_cases e : x = d
    · rw [e, Fs.setInode_self, ht, ec]
    · rw [Fs.setInode_of_ne _ _ e]
  refine h.content (fun _ _ => rfl) rfl (fun x hx => Fs.setInode_of_ne _ _ hx) (fun _ _ _ => rfl)
    (fun q hq => h.other_known hk hq) (fun _ _ _ => htype d) (fun _ _ _ _ _ hf => (htype d).trans hf)
    hdisk (fun x hx => ?_) (fun x => by rw [Loc.held, Loc.held, hrefs, hphase, hph])
    (fun q hq x hc => by rw [hrefs, hknown]; exact h.claims_lock hk hq hc c')
    (LocOk.self (fun x c₁ hk₁ => ?_) (fun x hx => ?_) (fun x hx => ?_) (phaseOk_none hphase)) fun hs => ?_
  · rw [htype] at hx
    refine h.links_update hx ?_
    have e : ((s.setInode d c').inode x).nlink = (s.inode x).nlink := by
      by_cases e : x = d
      · rw [e, Fs.setInode_self, hnl, ec]
      · rw [Fs.setInode_of_ne _ _ e]
    have := hlinks x
    rw [e]
    omega
  · rw [hknown] at hk₁
    rw [hrefs, Fs.setInode_itable]
    by_cases e : x = d
    · subst e
      rw [update_self] at hk₁
      cases hk₁
      exact ⟨Fs.setInode_self .., ht ▸ htc, .inr hlk⟩
    · rw [update_of_ne e] at hk₁
      rw [Fs.setInode_of_ne _ _ e]
      exact (hl.locked hph hk₁).imp_right (And.imp_right .inr)
  · rw [hrefs] at hx
    rw [htype]
    exact hl.ref x hx
  · rw [htype, hrefs]
    exact hpend x hx
  · intro x hr htx h0
    rw [htype] at htx
    rcases hkept x h0 with h0 | hkx
    · refine (h.kept hs x hr htx h0).imp_right (fresh_update fun hf => ?_)
      rw [hph] at hf
      cases hf
    · obtain ⟨cx, hkx⟩ := Option.ne_none_iff_exists'.1 hkx
      obtain ⟨-, -, -, hv, hm⟩ := hl.locked hph hkx
      exact .inl ⟨h.ref_pos hm, hv⟩

/-- "." and ".." are not names: the links stay as they are. -/
theorem Inv.setDots (h : Inv strict n g s) (hk : (g p).known d = some c) (hph : (g p).phase = .none) (hdir : c.type = .dir)
    (ents : List Dirent) (hnames : ents.drop 2 = c.ents.drop 2) (hold : c.parent = none) (hshape : Shape d ents)
    (hpar : ∀ x, ({ c with ents } : Inode).parent = some x → (s.inode x).type = .dir ∧ (x ≠ ROOTINO → 0 < nm n s x)) :
    Inv strict n (update g p ((g p).lock d { c with ents })) (s.setInode d { c with ents }) := by
  have hl := h.loc p
  obtain ⟨ec, htc, -⟩ := hl.locked hph hk
  have htype : ∀ x, ((s.setInode d { c with ents }).inode x).type = (s.inode x).type := by
    intro x
    by_cases e : x = d
    · rw [e, Fs.setInode_self, ec]
    · rw [Fs.setInode_of_ne _ _ e]
  have hnm : ∀ x, ((s.setInode d { c with ents }).inode x).names = (s.inode x).names := by
    intro x
    by_cases e : x = d
    · rw [e, Fs.setInode_self, ec, Inode.names, Inode.names, hnames]
    · rw [Fs.setInode_of_ne _ _ e]
  have hcount := nm_congr (n := n) hnm
  have hroot : ROOTINO ≠ d := by
    rintro e
    have := h.disk.rootParent
    rw [e, ec, hold] at this
    cases this
  have hunnamed : ∀ k, d ∉ (s.inode k).names := by
    intro k hm
    have := h.disk.up k d hm (by rw [ec]; exact hdir)
    rw [ec, hold] at this
    cases this
  refine h.setEnts hk hph { c with ents } rfl rfl rfl rfl hph ?_ (fun x => ?_) (fun x hx => ?_)
    fun x hx => .inl ((hcount x).symm.trans hx)
  · obtain ⟨f, hf⟩ := h.disk.depth
    constructor
    case rootParent =>
      rw [Fs.setInode_of_ne _ _ hroot]
      exact h.disk.rootParent
    case ents =>
      intro x hx
      rw [htype] at hx
      have e : x ≠ d := by
        rintro rfl
        exact hx (ec ▸ hdir)
      rw [Fs.setInode_of_ne _ _ e]
      exact h.disk.ents x hx
    case shape =>
      intro x
      by_cases e : x = d
      · rw [e, Fs.setInode_self]
        exact hshape
      · rw [Fs.setInode_of_ne _ _ e]
        exact h.disk.shape x
    case up =>
      intro k x hx hd
      rw [hnm] at hx
      rw [htype] at hd
      have e : x ≠ d := fun e => hunnamed k (e ▸ hx)
      rw [Fs.setInode_of_ne _ _ e]
      exact h.disk.up k x hx hd
    case dotdot =>
      intro k x hx
      rw [htype, hcount]
      by_cases e : k = d
      · rw [e, Fs.setInode_self] at hx
        exact hpar x hx
      · rw [Fs.setInode_of_ne _ _ e] at hx
        exact h.disk.dotdot k x hx
    case depth =>
      refine ⟨f, fun k x hx hd => ?_⟩
      rw [hnm] at hx
      rw [htype] at hd
      exact hf k x hx hd
    all_goals simp only [htype, hnm, hcount]
    · exact h.disk.bound
    · exact h.disk.root
    · exact h.disk.rootNm
    · exact h.disk.named
    · exact h.disk.once
    · exact h.disk.empty
  · rw [linkCount, linkCount, hcount, subdirs_congr (hnm x) fun _ _ => by rw [htype], Loc.lock_pend]
  · obtain ⟨hm, hp⟩ := hl.pend x hx
    refine ⟨hm, ?_⟩
    rw [Loc.lock_known]
    by_cases e : x = d
    · subst e
      rw [update_self]
      rw [if_pos (by rw [ec]; exact hdir)]
      simp
    · rw [update_of_ne e]
      exact hp

/-- The write of `dirlink`. -/
theorem safe_place (hk : l.known d = some c) (hfalse : Q false l)
    (htrue : ∀ g s, g p = l → Inv strict n g s → s.inode d = c → (de.inum ≠ 0 → 1 ≤ c.nlink.toInt ∧
        (namecmp de.name dotdot → 1 ≤ (s.inode de.inum.toNat).nlink.toInt)) →
      ∃ l', Inv strict n (update g p l') (s.setInode d { c with ents := place de c.ents }) ∧ Q true l') :
    Safe strict n p (perform (.writeEnt d (c.ents.findIdx fun e => e.inum = 0) de)) l Q := by
  refine .perform fun g s hg h ha room => ?_
  subst hg
  obtain ⟨ec, -⟩ := (h.loc p).known d c hk
  simp only [kernel, exec, ec]
  split
  · rename_i ents hw
    refine ⟨by simp, fun r s' hx => ?_⟩
    cases hx
    rw [writeAt_place hw]
    refine htrue g s rfl h ec fun h0 => ?_
    rw [Allowed, if_pos h0, ec] at ha
    exact ha
  · refine ⟨by simp, fun r s' hx => ?_⟩
    cases hx
    refine ⟨g p, ?_, hfalse⟩
    rw [update_eq_self]
    exact h

theorem toNat_inum (hn : n ≤ 2 ^ 16) (h : i < n) : (BitVec.ofNat 16 i).toNat = i := by
  rw [BitVec.toNat_ofNat]
  exact Nat.mod_eq_of_lt (by omega)

theorem inum_ne_zero {b : BitVec 16} (h : b.toNat = i) (hi : 0 < i) : b ≠ 0 := by
  rintro rfl
  have : (0 : BitVec 16).toNat = 0 := rfl
  omega

/-- `dirlink` of "." to a new directory. -/
theorem safe_write_dot (hn : n ≤ 2 ^ 16) (hk : l.known d = some c) (hph : l.phase = .none) (hdir : c.type = .dir)
    (he : c.ents = []) (hfalse : Q false l) (htrue : ∀ e, Q true (l.lock d { c with ents := [e] })) :
    Safe strict n p (perform (.writeEnt d (c.ents.findIdx fun e => e.inum = 0)
      ⟨BitVec.ofNat 16 d, strncpy DIRSIZ dot⟩)) l Q := by
  refine safe_place hk hfalse fun g s hg h ec _ =>
    ⟨_, ?_, htrue ⟨BitVec.ofNat 16 d, strncpy DIRSIZ dot⟩⟩
  subst hg
  have hb := h.disk.bound d (by rw [ec, hdir]; nofun)
  rw [he]
  refine h.setDots hk hph hdir [_] (by rw [he]; rfl) (by rw [Inode.parent, he]; rfl)
    (.inr (.inl ⟨_, rfl, toNat_inum hn hb.2, rfl⟩)) fun x hx => ?_
  cases hx

/-- `dirlink` of ".." to a new directory. -/
theorem safe_write_dotdot {cj : Inode} (hn : n ≤ 2 ^ 16) (hk : l.known d = some c) (hph : l.phase = .none)
    (hdir : c.type = .dir) (he : c.ents = [e]) (hj : l.known j = some cj) (hjd : cj.type = .dir) (hjp : l.pend j = 0)
    (hfalse : Q false l) (htrue : ∀ e', e'.inum.toNat = j → Q true (l.lock d { c with ents := [e, e'] })) :
    Safe strict n p (perform (.writeEnt d (c.ents.findIdx fun e => e.inum = 0)
      ⟨BitVec.ofNat 16 j, strncpy DIRSIZ dotdot⟩)) l Q := by
  refine safe_place hk hfalse fun g s hg h ec ha => ?_
  subst hg
  obtain ⟨ej, -⟩ := (h.loc p).known j cj hj
  have hb := h.disk.bound d (by rw [ec, hdir]; simp)
  have hbj := h.disk.bound j (by rw [ej, hjd]; simp)
  have hnum := toNat_inum hn hbj.2
  obtain ⟨-, hlinks⟩ := ha (inum_ne_zero hnum hbj.1)
  have hlinks := hlinks (show namecmp (strncpy DIRSIZ dotdot) dotdot = true by decide)
  rw [hnum] at hlinks
  have hfirst : e.inum.toNat = d ∧ e.name = strncpy DIRSIZ dot := by
    rcases h.disk.shape d with hs | ⟨e₀, hs, hi, hnm⟩ | ⟨e₀, e₁, rest, hs, -⟩ <;> rw [ec, he] at hs
    · cases hs
    · cases hs
      exact ⟨hi, hnm⟩
    · cases hs
  have hplace : place ⟨BitVec.ofNat 16 j, strncpy DIRSIZ dotdot⟩ c.ents =
      [e, ⟨BitVec.ofNat 16 j, strncpy DIRSIZ dotdot⟩] := by
    rw [he, place, if_neg (inum_ne_zero hfirst.1 hb.1)]
    rfl
  refine ⟨_, ?_, htrue ⟨BitVec.ofNat 16 j, strncpy DIRSIZ dotdot⟩ hnum⟩
  rw [hplace]
  refine h.setDots hk hph hdir [e, _] (by rw [he]; rfl) (by rw [Inode.parent, he]; rfl)
    (.inr (.inr ⟨e, _, [], rfl, hfirst.1, hfirst.2, inum_ne_zero hnum hbj.1, rfl, by simp⟩))
    fun x hx => ?_
  have hx : some (BitVec.ofNat 16 j).toNat = some x := hx
  rw [hnum] at hx
  cases hx
  exact ⟨ej ▸ hjd, fun hr => h.nm_pos (by rw [hj]; simp) (ej ▸ hjd) hjp hlinks hr⟩

/-- A directory with a name is complete. -/
theorem Disk.dots (h : Disk n s) (hd : (s.inode d).type = .dir) (hn : d ≠ ROOTINO → 0 < nm n s d) :
    ∃ e e' rest, (s.inode d).ents = e :: e' :: rest ∧ e.inum.toNat = d ∧ e.name = strncpy DIRSIZ dot ∧ e'.inum ≠ 0 ∧
    e'.name = strncpy DIRSIZ Blocks.dotdot ∧ ∀ de ∈ rest, de.inum ≠ 0 → namecmp de.name dot = false := by
  have hp : (s.inode d).parent ≠ none := by
    by_cases hr : d = ROOTINO
    · rw [hr, h.rootParent]
      nofun
    · obtain ⟨k, -, hk⟩ := Finset.exists_ne_zero_of_sum_ne_zero (hn hr).ne'
      rw [h.up k d (count_pos_iff.1 (Nat.pos_of_ne_zero hk)) hd]
      nofun
  rcases h.shape d with hs | ⟨e, hs, -⟩ | hs
  · rw [Inode.parent, hs] at hp
    exact absurd rfl hp
  · rw [Inode.parent, hs] at hp
    exact absurd rfl hp
  · exact hs

/-- A name that `lookup` did not find is not ".", as a directory has that entry. -/
theorem namecmp_dot_of_lookup {rest : List Dirent} (h : lookup name (e :: rest) 0 = none) (h0 : e.inum ≠ 0)
    (he : e.name = strncpy DIRSIZ dot) : namecmp (strncpy DIRSIZ name) dot = false := by
  rw [lookup] at h
  split at h
  · cases h
  · rename_i hne
    rw [namecmp_strncpy, ← he]
    exact Bool.eq_false_iff.2 fun hc => hne ⟨h0, hc⟩

/-- The process owes `k` links for a name of `j` in `d`, and if `j` is a directory also for its
".."; the contents of `d` are now `c`. -/
def Loc.oweName (l : Loc) (d : Nat) (c : Inode) (j : Nat) (isDir : Bool) (k : Int) : Loc :=
  ((l.lock d c).owe j k).owe d (if isDir then k else 0)

theorem Loc.oweName_pend (l : Loc) (d : Nat) (c : Inode) (j : Nat) (isDir : Bool) (k : Int) (x : Nat) :
    (l.oweName d c j isDir k).pend x = l.pend x + (if x = j then k else 0) + if x = d ∧ isDir = true then k else 0 := by
  simp only [Loc.oweName, Loc.owe_pend, Loc.lock_pend, Pi.add_apply, Pi.single_apply]
  congr 1
  by_cases e : x = d <;> simp [e]

/-- The inode that a process is about to name: a new one, which it has locked, or one that is
not a directory. -/
def Loc.Naming (l : Loc) (d j : Nat) (isDir : Bool) : Prop :=
  j ∈ l.refs ∧ l.pend j = 1 ∧
  ((l.known j = none ∧ isDir = false) ∨ ∃ c, l.known j = some c ∧ (isDir = decide (c.type = .dir)) ∧
    (c.type = .dir → c.nlink = 1 ∧ c.parent = some d))

theorem Inv.naming {b : Bool} (h : Inv strict n g s) (hj : (g p).Naming d j b) (hd : (g p).pend d = 0) :
    d ≠ j ∧ j ≠ ROOTINO ∧ (b = true ↔ (s.inode j).type = .dir) ∧
    ((s.inode j).type = .dir → nm n s j = 0 ∧ (s.inode j).parent = some d) := by
  obtain ⟨hr, h1, hc⟩ := hj
  have hne : d ≠ j := by
    rintro rfl
    omega
  rcases hc with ⟨hnone, rfl⟩ | ⟨c, hk, hb, hdir⟩
  · have htype : (s.inode j).type ≠ .dir := by
      intro ht
      have := ((h.loc p).pend j (by omega)).2
      rw [if_pos ht] at this
      exact this hnone
    refine ⟨hne, fun e => htype (e ▸ h.disk.root), ?_, fun ht => absurd ht htype⟩
    simp [htype]
  · obtain ⟨ec, -⟩ := (h.loc p).known j c hk
    have hzero : (s.inode j).type = .dir → linkCount n s j = 0 := by
      intro ht
      have hlinks := h.links_of_dir (by rw [hk]; nofun) ht
      rw [ec] at ht
      rw [ec, (hdir ht).1, h1] at hlinks
      have : (1 : BitVec 16).toInt = 1 := rfl
      omega
    refine ⟨hne, ?_, ?_, fun ht => ⟨?_, ?_⟩⟩
    · rintro rfl
      have := hzero h.disk.root
      rw [linkCount, if_pos rfl] at this
      omega
    · rw [hb, ec]
      simp
    · have := hzero ht
      unfold linkCount at this
      omega
    · rw [ec] at ht ⊢
      exact (hdir ht).2

/-- `dirlink` of a name. -/
theorem safe_write_name {b : Bool} (hn : n ≤ 2 ^ 16) (hk : l.known d = some c) (hph : l.phase = .none)
    (hdir : c.type = .dir) (hd : l.pend d = 0) (hlook : lookup name c.ents 0 = none) (hj : l.Naming d j b)
    (hfalse : Q false l) (htrue : ∀ ents, Q true (l.oweName d { c with ents } j b (-1))) :
    Safe strict n p (perform (.writeEnt d (c.ents.findIdx fun e => e.inum = 0)
      ⟨BitVec.ofNat 16 j, strncpy DIRSIZ name⟩)) l Q := by
  refine safe_place hk hfalse fun g s hg h ec ha =>
    ⟨_, ?_, htrue (place ⟨BitVec.ofNat 16 j, strncpy DIRSIZ name⟩ c.ents)⟩
  subst hg
  have hl := h.loc p
  have hkd : (g p).known d ≠ none := by
    rw [hk]
    simp
  have hdir' : (s.inode d).type = .dir := ec ▸ hdir
  have hbj := h.disk.bound j (hl.ref j hj.1)
  have hnum := toNat_inum hn hbj.2
  have hnz := inum_ne_zero hnum hbj.1
  obtain ⟨hlinks, -⟩ := ha hnz
  have hnmd : d ≠ ROOTINO → 0 < nm n s d := h.nm_pos hkd hdir' hd (by rw [ec]; exact hlinks)
  obtain ⟨hne, hroot, hb, hjd⟩ := h.naming hj hd
  obtain ⟨e, e', rest, hents, hi, hen, he', hen', hrest⟩ := h.disk.dots hdir' hnmd
  rw [ec] at hents
  have hb0 := h.disk.bound d (by rw [hdir']; simp)
  have he := inum_ne_zero hi hb0.1
  have hplace : ∀ de, place de c.ents = e :: e' :: place de rest := by
    intro de
    rw [hents, place, if_neg he, place, if_neg he']
  generalize hde : (⟨BitVec.ofNat 16 j, strncpy DIRSIZ name⟩ : Dirent) = de
  have hdenum : de.inum.toNat = j := by
    rw [← hde]
    exact hnum
  have hdez : de.inum ≠ 0 := inum_ne_zero hdenum hbj.1
  have hdot : namecmp de.name dot = false := by
    rw [hents] at hlook
    rw [← hde]
    exact namecmp_dot_of_lookup hlook he hen
  have hshape : Shape d (place de c.ents) := by
    rw [hplace]
    refine .inr (.inr ⟨e, e', _, rfl, hi, hen, he', hen', fun x hx hx0 => ?_⟩)
    rcases mem_place hx with rfl | hx
    · exact hdot
    · exact hrest x hx hx0
  have hnew : NewName n d j s (s.setInode d { c with ents := place de c.ents }) := by
    refine ⟨hb0.2, fun k hk => Fs.setInode_of_ne _ _ hk, ?_, ?_, ?_⟩ <;> rw [Fs.setInode_self, ec]
    · rw [Inode.parent, Inode.parent, hplace, hents]
      rfl
    · rw [names_eq hents, names_eq (hplace de), ← hdenum]
      exact place_perm hdez rest
  refine h.setEnts hk hph { c with ents := place de c.ents } rfl rfl rfl rfl hph
    (h.disk.addName hnew (by rw [Fs.setInode_self]; exact hshape) hdir' hnmd (hl.ref j hj.1) hroot
      fun ht => ⟨hne, hjd ht⟩) (fun x => ?_) (fun x hx => ?_) fun x hx => .inl ?_
  · rw [hnew.linkCount_eq, Loc.oweName_pend]
    simp only [hb]
    split <;> split <;> omega
  · rw [Loc.oweName_pend] at hx ⊢
    show x ∈ (g p).refs ∧ if _ then update (g p).known d _ x ≠ none else _
    by_cases exd : x = d
    · subst exd
      rw [update_self, if_pos hdir']
      exact ⟨(hl.locked hph hk).2.2.2.2, by simp⟩
    · simp only [exd, false_and, if_false, add_zero] at hx ⊢
      rw [update_of_ne exd]
      by_cases exj : x = j
      · rw [if_pos exj, exj, hj.2.1] at hx
        exact absurd rfl hx
      · rw [if_neg exj, add_zero] at hx ⊢
        exact hl.pend x hx
  · rw [hnew.nm_eq] at hx
    omega

theorem names_of_isdirempty (h : isdirempty c.ents = true) : c.names = [] :=
  inums_eq_nil fun e he => by simpa using all_eq_true.1 h e he

/-- An entry that is neither "." nor ".." is one of the names. -/
theorem Shape.ent {off : Nat} (h : Shape d ents) (he : ents[off]? = some e) (hm : namecmp name e.name = true)
    (hdot : namecmp name dot = false) (hdotdot : namecmp name dotdot = false) : ∃ e₀ e₁ rest k, ents = e₀ :: e₁ :: rest ∧
    off = k + 2 ∧ rest[k]? = some e ∧ ∀ rest', (∀ x ∈ rest', x ∈ rest ∨ x.inum = 0) → Shape d (e₀ :: e₁ :: rest') := by
  have hne : ∀ t, namecmp name t = false → e.name ≠ strncpy DIRSIZ t := by
    intro t ht e'
    rw [e', ← namecmp_strncpy, namecmp, strncmpEq_strncpy] at hm
    rw [namecmp, hm] at ht
    cases ht
  rcases h with rfl | ⟨e₀, rfl, -, hn⟩ | ⟨e₀, e₁, rest, rfl, hi, hn, h1, hn', hrest⟩
  · cases he
  · cases off with
    | zero =>
      cases he
      exact absurd hn (hne _ hdot)
    | succ off => cases he
  · match off, he with
    | 0, he =>
      cases he
      exact absurd hn (hne _ hdot)
    | 1, he =>
      cases he
      exact absurd hn' (hne _ hdotdot)
    | k + 2, he =>
      refine ⟨e₀, e₁, rest, k, rfl, rfl, he, fun rest' hr => ?_⟩
      refine .inr (.inr ⟨e₀, e₁, rest', rfl, hi, hn, h1, hn', fun x hx hx0 => ?_⟩)
      rcases hr x hx with hx | hz
      · exact hrest x hx hx0
      · exact absurd hz hx0

/-- `sys_unlink` clears an entry. -/
theorem safe_clear {z : Dirent} {off : Nat} {cj : Inode} (hk : l.known d = some c) (hph : l.phase = .none)
    (hdir : c.type = .dir) (hz : z.inum = 0) (he : c.ents[off]? = some e) (h0 : e.inum ≠ 0) (hj : e.inum.toNat = j)
    (hm : namecmp name e.name = true) (hdot : namecmp name dot = false) (hdotdot : namecmp name dotdot = false)
    (hkj : l.known j = some cj) (hpj : l.pend j = 0) (hempty : cj.type = .dir → isdirempty cj.ents = true)
    (hq : d ≠ j → ∀ ents, Q true (l.oweName d { c with ents } j (decide (cj.type = .dir)) 1)) :
    Safe strict n p (perform (.writeEnt d off z)) l Q := by
  refine .perform fun g s hg h ha room => ?_
  subst hg
  have hl := h.loc p
  obtain ⟨ec, -, hlkd⟩ := hl.locked hph hk
  obtain ⟨ej, htj, hlkj⟩ := hl.locked hph hkj
  have hdir' : (s.inode d).type = .dir := ec ▸ hdir
  have hshape := h.disk.shape d
  rw [ec] at hshape
  obtain ⟨e₀, e₁, rest, k, hents, rfl, hrk, hnext⟩ := hshape.ent he hm hdot hdotdot
  have hlt : k + 2 < c.ents.length := (List.getElem?_eq_some_iff.1 he).1
  have hset : c.ents.set (k + 2) z = e₀ :: e₁ :: rest.set k z := by
    rw [hents]
    rfl
  simp only [kernel, exec, ec, writeAt, if_pos hlt]
  refine ⟨by simp, fun r s' hx => ?_⟩
  cases hx
  have hperm : c.names.Perm (j :: ({ c with ents := c.ents.set (k + 2) z } : Inode).names) := by
    rw [names_eq hents, names_eq hset, ← hj]
    exact inums_set hrk h0 hz
  have hnew : NewName n d j (s.setInode d { c with ents := c.ents.set (k + 2) z }) s := by
    refine ⟨(h.disk.bound d (by rw [hdir']; simp)).2, fun x hx => (Fs.setInode_of_ne _ _ hx).symm,
      ?_, ?_, ?_⟩ <;> rw [Fs.setInode_self, ec]
    · rw [Inode.parent, Inode.parent, hset, hents]
      rfl
    · exact hperm
  have hmem : j ∈ (s.inode d).names := hnew.mem.2 (.inr ⟨rfl, rfl⟩)
  have hne : d ≠ j := by
    rintro rfl
    obtain ⟨f, hf⟩ := h.disk.depth
    exact absurd (hf d d hmem hdir') (lt_irrefl _)
  have hparent : (s.inode j).type = .dir → ∀ x, (s.inode x).parent ≠ some j := by
    intro ht
    rw [Allowed, if_neg (not_not_intro hz)] at ha
    have := ha e (by rw [ec]; exact he)
    rw [hj] at this
    exact this ht
  refine ⟨_, ?_, hq hne (c.ents.set (k + 2) z)⟩
  refine h.setEnts hk hph { c with ents := c.ents.set (k + 2) z } rfl rfl rfl rfl hph
    (h.disk.clearName hnew ?_ hdir' fun ht => ⟨?_, hparent ht⟩) (fun x => ?_) (fun x hx => ?_)
    fun x hx => ?_
  · rw [Fs.setInode_self]
    show Shape d (c.ents.set (k + 2) z)
    rw [hset]
    exact hnext _ fun x hx => (mem_or_eq_of_mem_set hx).imp_right fun e => by rw [e, hz]
  · rw [ej] at ht ⊢
    exact names_of_isdirempty (hempty ht)
  · rw [hnew.linkCount_eq x, Loc.oweName_pend]
    simp only [← hnew.type j, ej, decide_eq_true_eq]
    split <;> split <;> omega
  · rw [Loc.oweName_pend] at hx ⊢
    show x ∈ (g p).refs ∧ if _ then update (g p).known d _ x ≠ none else _
    by_cases exd : x = d
    · subst exd
      rw [update_self, if_pos hdir']
      exact ⟨hlkd.2.2, by simp⟩
    · simp only [exd, false_and, if_false, add_zero] at hx ⊢
      rw [update_of_ne exd]
      by_cases exj : x = j
      · subst exj
        refine ⟨hlkj.2.2, ?_⟩
        rw [if_pos rfl, hpj, hkj]
        split
        · simp
        · omega
      · rw [if_neg exj, add_zero] at hx ⊢
        exact hl.pend x hx
  · have := hnew.nm_eq x
    by_cases exj : x = j
    · rw [exj, hkj]
      exact .inr (by simp)
    · rw [if_neg exj] at this
      exact .inl (by omega)

end Xv6.Names
