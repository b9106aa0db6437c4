import Xv6.Undo.Change

/-!
# Calls that fail

`failed_call` is the result: a call that returns -1 leaves names, links, inodes and contents as they
were. Path walks give back their references; `sys_link` takes its link back, and `create` frees the
inode it has allocated.
-/

namespace Xv6.Undo

open Function
open Blocks
open Names (elems slash)

variable {base : Base} {b s s' : Fs} {new : Option Nat} {v : View} {held : List Nat} {i dp : Nat} {ip : Dinode}

/-! ## Path walks -/

/-- The path elements lead from the inode `i` to another one. -/
inductive Leads (v : View) : Nat → List Name → Nat → Prop where
  | here (i : Nat) : Leads v i [] i
  | entry {i t j : Nat} {name : Name} {rest : List Name} (hd : v.type i = T_DIR) (he : HasEntry (v.content i) name t)
      (h : Leads v t rest j) : Leads v i (name :: rest) j

/-- `namex` ends where the path leads, or its last element but one, with a reference. -/
theorem Has.wp_walk (hv : Sound v) (parent : Bool) (names : List Name) (h : Has base new v (i :: held) s) :
    WP (walk parent i names) AnyPanic (fun r s' => Has base new v ((r.map Prod.fst).toList ++ held) s' ∧
      ∀ x, r = some x → Leads v i (if parent then names.dropLast else names) x.1) s := by
  induction names generalizing i s with
  | nil =>
    rw [walk]
    refine .ite (fun _ => .bind ((h.wp_iput hv).mono fun _ _ h' => .pure ⟨h', nofun⟩)) fun hp => .pure ⟨h, ?_⟩
    rintro _ ⟨⟩
    rw [if_neg hp]
    exact .here i
  | cons name rest ih =>
    have hgone : ∀ {s}, Has base new v (i :: held) s → WP (do iunlockput i; pure none) AnyPanic
        (fun r s' => Has base new v ((r.map Prod.fst).toList ++ held) s' ∧
          ∀ x : Nat × Name, r = some x → Leads v i (if parent then (name :: rest).dropLast else name :: rest) x.1) s :=
      fun h => .bind ((h.wp_iunlockput hv).mono fun _ _ h' => .pure ⟨h', nofun⟩)
    rw [walk]
    refine .bind ((h.wp_ilock i).mono fun _ s₁ ⟨h₁, _⟩ => .bind (wp_locked fun ip _ => ?_))
    refine .ite (fun _ => hgone h₁) fun _ => .ite (fun hp => .bind (wp_iunlock (.pure ⟨h₁, ?_⟩))) fun hp => ?_
    · rintro _ ⟨⟩
      rw [if_pos hp.1, hp.2]
      exact .here i
    refine .bind ((h₁.wp_dirlookup hv name).mono fun r s₂ ⟨h₂, he, _⟩ => ?_)
    cases r with
    | none => exact hgone h₂
    | some r =>
      obtain ⟨hd, he⟩ := he r rfl
      have hswap : Has base new v (i :: r.1 :: held) s₂ := h₂.perm (List.Perm.swap ..)
      refine .bind ((hswap.wp_iunlockput hv).mono fun _ s₃ h₃ => (ih h₃).mono fun o s₄ ⟨h₄, hl⟩ => ⟨h₄, ?_⟩)
      intro x hx
      have hrest := hl x hx
      have hlead := Leads.entry hd he hrest
      cases parent with
      | false => exact hlead
      | true =>
        rw [if_pos rfl, List.dropLast_cons_of_ne_nil fun e => hp ⟨rfl, e⟩]
        exact hlead

/-- The inode that a path starts from. -/
def start (cwd : Nat) (path : Name) : Nat := if path.head? = some slash then ROOTINO else cwd

theorem Has.wp_namex (h : Has base new v held s) (hv : Sound v) (cwd : Nat) (path : Name) (parent : Bool) :
    WP (namex cwd path parent) AnyPanic (fun r s' => Has base new v ((r.map Prod.fst).toList ++ held) s' ∧ ∀ x, r = some x →
      Leads v (start cwd path) (if parent then (elems path.length path).dropLast else elems path.length path) x.1) s := by
  unfold namex start
  refine .ite (fun hs => ?_) fun hs => ?_
  · rw [if_pos hs]
    exact .bind ((h.wp_iget ROOTINO).mono fun _ _ h₁ => h₁.wp_walk hv ..)
  · rw [if_neg hs]
    exact .bind ((h.wp_idup cwd).mono fun _ _ h₁ => h₁.wp_walk hv ..)

theorem Has.wp_namei (h : Has base new v held s) (hv : Sound v) (cwd : Nat) (path : Name) :
    WP (namei cwd path) AnyPanic (fun r s' => Has base new v (r.toList ++ held) s' ∧
      ∀ i, r = some i → Leads v (start cwd path) (elems path.length path) i) s := by
  unfold namei
  refine .bind ((h.wp_namex hv cwd path false).mono fun r s₁ ⟨h₁, hl⟩ => ?_)
  cases r with
  | none => exact .pure ⟨h₁, nofun⟩
  | some r =>
    refine .pure ⟨h₁, ?_⟩
    rintro _ ⟨⟩
    exact hl r rfl

/-! ## `sys_unlink` -/

theorem Has.wp_isdirempty (h : Has base new v held s) (hv : Sound v) (hi : s.Has i ip) (ht : ip.type = T_DIR) :
    WP (isdirempty i) AnyPanic (fun _ s' => s' = s) s := by
  obtain ⟨ents, hdir⟩ := h.isDir hv hi ht
  exact hdir.wp_isdirempty.mono fun _ _ h' => h'.1

/-- A rest of a call whose result does not depend on the state any more. -/
theorem wp_returns {α β : Type} {m : M α} {f : α → M β} {Q : β → Fs → Prop} (s : Fs)
    (h : ∀ a s', WP (f a) AnyPanic Q s') : WP (m >>= f) AnyPanic Q s :=
  .bind ((WP.any m s).mono fun a s' _ => h a s')

theorem Has.wp_unlink (h : Has base new v (dp :: held) s) (hv : Sound v) (name : Name) :
    WP (unlink dp name) AnyPanic (fun r s' => r = -1 → Has base new v held s') s := by
  unfold unlink
  refine .bind ((h.wp_ilock dp).mono fun _ s₁ ⟨h₁, _⟩ => ?_)
  refine .ite (fun _ => .bind ((h₁.wp_iunlockput hv).mono fun _ _ h' => .pure fun _ => h')) fun _ => ?_
  refine .bind ((h₁.wp_dirlookup hv name).mono fun r s₂ ⟨h₂, _⟩ => ?_)
  cases r with
  | none => exact .bind ((h₂.wp_iunlockput hv).mono fun _ _ h' => .pure fun _ => h')
  | some r =>
    refine .bind ((h₂.wp_ilock r.1).mono fun _ s₃ ⟨h₃, _⟩ => .bind (wp_locked fun ip hi => ?_))
    refine .ite (fun _ => .throw trivial) fun _ => .bind ?_
    have hfull : WP (if ip.type = T_DIR then (do pure !(← isdirempty r.1)) else pure false) AnyPanic
        (fun _ s' => s' = s₃) s₃ := by
      refine .ite (fun ht => .bind ((h₃.wp_isdirempty hv hi ht).mono fun _ _ h' => .pure h')) fun _ => .pure rfl
    refine hfull.mono fun full s₄ h₄ => ?_
    subst h₄
    refine .ite (fun _ => ?_) fun _ => ?_
    · refine .bind ((h₃.wp_iunlockput hv).mono fun _ s₅ h₅ => ?_)
      exact .bind ((h₅.wp_iunlockput hv).mono fun _ _ h' => .pure fun _ => h')
    -- From here on the call succeeds.
    · refine wp_returns _ fun n s₅ => .ite (fun _ => .throw trivial) fun _ => wp_returns _ fun _ s₆ => ?_
      refine wp_returns _ fun _ s₇ => wp_returns _ fun _ s₈ => wp_returns _ fun _ s₉ => .pure ?_
      exact fun h0 => absurd h0 (by decide)

theorem Has.wp_sysUnlink (h : Has base new v held s) (hv : Sound v) (cwd : Nat) (path : Option Name) :
    WP (sysUnlink cwd path) AnyPanic (fun r s' => r = -1 → Has base new v held s') s := by
  cases path with
  | none => exact .pure fun _ => h
  | some path =>
    refine .bind ((h.wp_namex hv cwd path true).mono fun r s₁ ⟨h₁, _⟩ => ?_)
    cases r with
    | none => exact .pure fun _ => h₁
    | some r => exact h₁.wp_unlink hv r.2

/-! ## `sys_link` -/

/-- References of a call that stay for a while are like those of others. -/
theorem Has.hold_iff {l : List Nat} : Has base new v (l ++ held) s ↔ Has base new (v.hold l) held s := by
  have hv : v.hold (l ++ held) = (v.hold l).hold held := by
    simp only [View.hold, List.count_append, Nat.add_assoc]
  refine ⟨fun h => ⟨h.own, h.sb, ?_, h.types, h.addrs⟩, fun h => ⟨h.own, h.sb, ?_, h.types, h.addrs⟩⟩
  · rw [← hv, h.view]
  · rw [hv, h.view]

/-- Another link count for an inode that the call holds. -/
theorem Sound.set_hold (hv : Sound v) (i : Nat) (n : BitVec 16) :
    Sound ((v.set i (v.type i) n (v.content i)).hold [i]) := by
  refine ⟨fun j ht hn => ?_, fun j ht => ?_⟩
  · by_cases hj : j = i
    · subst hj
      change 0 < v.ref j + [j].count j
      rw [List.count_cons_self]
      omega
    · have ht : v.type j ≠ 0 := by rwa [View.hold_type, View.set_type, update_of_ne hj] at ht
      have hn : v.nlink j = 0 := by rwa [View.hold_nlink, View.set_nlink, update_of_ne hj] at hn
      exact Nat.lt_of_lt_of_le (hv.orphans j ht hn) (Nat.le_add_right ..)
  · simp only [View.hold_type, View.hold_content, View.set_type, View.set_content, update_eq_self] at ht ⊢
    exact hv.dirs j ht

theorem Has.wp_linkBad (h : Has base none (v.set i (v.type i) (v.nlink i + 1) (v.content i)) (i :: held) s)
    (hv : Sound v) : WP (linkBad i) AnyPanic (fun _ s' => Has base none v held s') s := by
  unfold linkBad
  refine .bind ((h.wp_ilock i).mono fun _ s₁ ⟨h₁, _⟩ => .bind ((h₁.wp_addLinks i (-1)).mono fun _ s₂ h₂ => ?_))
  have hback : v.nlink i + 1 + -1 = v.nlink i := by rw [← BitVec.sub_eq_add_neg, BitVec.add_sub_cancel]
  rw [View.set_set, View.set_type, View.set_nlink, View.set_content, update_self, update_self,
    update_self, hback, View.set_self] at h₂
  exact .bind ((h₂.wp_iunlockput hv).mono fun _ _ h' => .pure h')

theorem Has.wp_sysLink (h : Has ⟨b, True⟩ none v [] s) (hv : Sound v) (cwd : Nat) (old new : Option Name) :
    WP (sysLink cwd old new) AnyPanic (fun r s' => r = -1 → Has ⟨b, True⟩ none v [] s') s := by
  unfold sysLink
  split
  · rename_i old new
    refine .bind ((h.wp_namei hv cwd old).mono fun r s₁ ⟨h₁, _⟩ => ?_)
    cases r with
    | none => exact .pure fun _ => h₁
    | some i =>
      refine .bind ((h₁.wp_ilock i).mono fun _ s₂ ⟨h₂, _⟩ => .bind (wp_locked fun ip _ => ?_))
      refine .ite (fun _ => .bind ((h₂.wp_iunlockput hv).mono fun _ _ h' => .pure fun _ => h')) fun _ => ?_
      refine .bind ((h₂.wp_addLinks i 1).mono fun _ s₃ h₃ => .bind (wp_iunlock ?_))
      have hv' := hv.set_hold i (v.nlink i + 1)
      have hbad : ∀ {s}, Has ⟨b, True⟩ none ((v.set i (v.type i) (v.nlink i + 1) (v.content i)).hold [i]) [] s →
          WP (linkBad i) AnyPanic (fun r s' => r = -1 → Has ⟨b, True⟩ none v [] s') s := fun h' =>
        (Has.wp_linkBad (Has.hold_iff.2 h') hv).mono fun _ _ h'' _ => h''
      refine .bind (((Has.hold_iff.1 h₃).wp_namex hv' cwd new true).mono fun r s₄ ⟨h₄, _⟩ => ?_)
      cases r with
      | none => exact hbad h₄
      | some r =>
        refine .bind ((h₄.wp_ilock r.1).mono fun _ s₅ ⟨h₅, _⟩ => ?_)
        refine .bind ((h₅.wp_dirlink hv' r.1 r.2 i).mono fun n s₆ ⟨h₆, _⟩ => ?_)
        refine .ite (fun hn => ?_) fun _ => ?_
        · exact .bind (((h₆ hn).wp_iunlockput hv').mono fun _ s₇ h₇ => hbad h₇)
        · refine wp_returns _ fun _ _ => wp_returns _ fun _ _ => .pure ?_
          exact fun h0 => absurd h0 (by decide)
  · exact .pure fun _ => h

/-! ## `sys_mkdir` and `sys_mknod` -/

/-- An inode that is not allocated. -/
structure View.Blank (v : View) (i : Nat) : Prop where
  nlink : v.nlink i = 0
  content : v.content i = []
  ref : v.ref i = 0

theorem View.Blank.set_eq (h : v.Blank i) (ht : v.type i = 0) (t n : BitVec 16) (c : List (BitVec 8)) :
    (v.set i t n c).set i 0 0 [] = v := by
  rw [View.set_set]
  have hself := v.set_self i
  rwa [ht, h.nlink, h.content] at hself

variable {c : List (BitVec 8)}

theorem Sound.set (hv : Sound v) {t n : BitVec 16} (hn : n ≠ 0) (hc : direntSize ∣ c.length) : Sound (v.set i t n c) := by
  refine ⟨fun j ht h0 => ?_, fun j ht => ?_⟩
  · rw [View.set_type] at ht
    rw [View.set_nlink] at h0
    by_cases hj : j = i
    · rw [hj, update_self] at h0
      exact absurd h0 hn
    · rw [update_of_ne hj] at ht h0
      exact hv.orphans j ht h0
  · rw [View.set_type] at ht
    rw [View.set_content]
    by_cases hj : j = i
    · rw [hj, update_self]
      exact hc
    · rw [update_of_ne hj] at ht ⊢
      exact hv.dirs j ht

/-- A file system between calls, with any number of free blocks and inodes: blocks are owned, inodes
without links are in use, directories consist of entries, and free inodes are blank. -/
structure WellFormed (fs : Fs) : Prop where
  own : Own none fs
  sound : Sound (view fs)
  blank : ∀ i, (view fs).type i = 0 → (view fs).Blank i

theorem WellFormed.has {spares : Prop} (h : WellFormed s) : Has ⟨s, spares⟩ none (view s) [] s :=
  ⟨h.own, rfl, rfl, fun _ _ => rfl, fun _ _ => .inl rfl⟩

/-- Blocks that are in use now and were not before, or the other way round, are spare ones. -/
theorem Has.used_eq (h : Has base none v held s) (hb : Own none base.fs) {b : Nat} (hlt : b < base.fs.sb.size) :
    s.used b = base.fs.used b ∨ ∃ x, addrOf s x = b ∧ Spare base x := by
  rcases Nat.lt_or_ge b base.fs.sb.datastart with hmeta | hdata
  · refine .inl ?_
    rw [hb.metadata b hmeta, h.own.metadata b (by rw [h.sb]; exact hmeta)]
  have hpos : 0 < b := Nat.lt_of_lt_of_le hb.owned.pos hdata
  cases hs : s.used b with
  | true =>
    obtain ⟨x, hx⟩ := h.own.owned.only b (by rw [h.sb]; exact hdata) (by rw [h.sb]; exact hlt) hs
    rcases h.addrs x nofun with e | e
    · refine .inl ?_
      rw [← hx, e, hb.owned.marked x (by omega)]
    · exact .inr ⟨x, hx, e⟩
  | false =>
    refine .inl ?_
    cases hold : base.fs.used b with
    | false => rfl
    | true =>
      obtain ⟨x, hx⟩ := hb.owned.only b hdata hlt hold
      rcases h.addrs x nofun with e | ⟨-, -, h0, -⟩
      · rw [← hs, ← hx, ← e]
        exact h.own.owned.marked x (by omega)
      · omega

theorem Has.sameBlocks (h : Has ⟨b, False⟩ none v held s) (hb : Own none b) : SameBlocks b s := by
  refine ⟨funext fun x => (h.addrs x (Option.some_ne_none _)).resolve_right fun hs => hs.1, ?_⟩
  rw [Fs.freeCount, Fs.freeCount, h.sb]
  refine congrArg _ (Finset.filter_congr fun x hx => ?_)
  have hnone : ¬∃ y, addrOf s y = x ∧ Spare ⟨b, False⟩ y := by
    rintro ⟨y, -, hs⟩
    exact hs.1
  rw [(h.used_eq hb (Finset.mem_range.1 hx)).resolve_right hnone]

theorem Has.dinode_type (h : Has base none v held s) (hb : Own none base.fs) (i : Nat) :
    (s.dinode i).type = (base.fs.dinode i).type := by
  rw [← h.own.cur_eq, ← hb.cur_eq, h.type_eq, h.types i nofun]

theorem Has.freeInodes_eq (h : Has base none v held s) (hb : Own none base.fs) : freeInodes s = freeInodes base.fs := by
  simp only [freeInodes, h.sb, h.dinode_type hb]

section Create

variable {t : BitVec 16}

/-- Any entries may be in the new directory. -/
theorem Has.wp_makeDots (h : Has ⟨b, True⟩ (some i) (v.set i t 1 c) held s) (hv : Sound v) (hc : direntSize ∣ c.length)
    (dp : Nat) : WP (makeDots dp i t) AnyPanic (fun r s' => (t ≠ T_DIR → r = true ∧ s' = s) ∧
      ∃ c, direntSize ∣ c.length ∧ Has ⟨b, True⟩ (some i) (v.set i t 1 c) held s') s := by
  have hlink : ∀ {c s} name target, direntSize ∣ c.length → Has ⟨b, True⟩ (some i) (v.set i t 1 c) held s →
      WP (dirlink i name target) AnyPanic
        (fun _ s' => ∃ c, direntSize ∣ c.length ∧ Has ⟨b, True⟩ (some i) (v.set i t 1 c) held s') s := by
    intro c s name target hc h
    refine (h.wp_dirlink (hv.set (by decide) hc) i name target).mono fun _ s' h' => ?_
    obtain ⟨c', hc', h''⟩ := h'.2.1 rfl
    rw [View.set_set, View.set_type, View.set_nlink, update_self, update_self] at h''
    exact ⟨c', hc', h''⟩
  unfold makeDots
  refine .ite (fun hd => ?_) fun _ => .pure ⟨fun _ => ⟨rfl, rfl⟩, c, hc, h⟩
  have hdir : ∀ {r s'}, t ≠ T_DIR → r = true ∧ s' = s := fun hne => absurd hd hne
  refine .bind ((hlink _ _ hc h).mono fun _ s₁ ⟨c₁, hc₁, h₁⟩ => .ite (fun _ => .pure ⟨hdir, c₁, hc₁, h₁⟩) fun _ => ?_)
  refine .bind ((hlink _ _ hc₁ h₁).mono fun _ s₂ ⟨c₂, hc₂, h₂⟩ => ?_)
  exact .ite (fun _ => .pure ⟨hdir, c₂, hc₂, h₂⟩) fun _ => .pure ⟨hdir, c₂, hc₂, h₂⟩

theorem Has.wp_createFail {n : BitVec 16} (h : Has base (some i) (v.set i t n c) [i, dp] s) (hv : Sound v)
    (hb : (cur base.fs i).type = 0) (ht : v.type i = 0) (hblank : v.Blank i) (hne : dp ≠ i) :
    WP (createFail dp i) AnyPanic (fun r s' => r = none ∧ Has base none v [] s') s := by
  unfold createFail
  refine .bind (wp_locked fun ip hi => .bind (wp_setInode ?_))
  refine .bind ((h.wp_iupdate { ip with nlink := 0 } hi rfl rfl rfl).mono fun _ s₁ ⟨h₁, hi₁⟩ => ?_)
  have hput := h₁.wp_iput_new hi₁ (update_self ..) hblank.ref (List.count_eq_zero.2 (by simp [hne.symm])) hb
  refine .bind (.bind (wp_iunlock (hput.mono fun _ s₂ h₂ => ?_)))
  rw [View.set_set, hblank.set_eq ht] at h₂
  exact .bind ((h₂.wp_iunlockput hv).mono fun _ _ h' => .pure ⟨rfl, h'⟩)

/-- Other entries for a directory. -/
theorem Sound.set_content (hv : Sound v) {c : List (BitVec 8)} (hc : direntSize ∣ c.length) (i : Nat) :
    Sound (v.set i (v.type i) (v.nlink i) c) := by
  have htype : (v.set i (v.type i) (v.nlink i) c).type = v.type := update_eq_self ..
  have hnlink : (v.set i (v.type i) (v.nlink i) c).nlink = v.nlink := update_eq_self ..
  refine ⟨fun j ht h0 => ?_, fun j ht => ?_⟩
  · rw [htype] at ht
    rw [hnlink] at h0
    exact hv.orphans j ht h0
  · rw [htype] at ht
    rw [View.set_content]
    by_cases hj : j = i
    · rw [hj, update_self]
      exact hc
    · rw [update_of_ne hj]
      exact hv.dirs j ht

/-- The name is new in the directory, and there are an inode and a place for it. -/
structure Creatable (fs : Fs) (dp : Nat) (name : Name) : Prop where
  absent : ∀ t, ¬HasEntry (content fs dp) name t
  inode : 0 < freeInodes fs
  place : Takes fs dp

/-- `create` fails and changes nothing, or returns the inode of an entry that is there, or a new one.
The last it does where the name is creatable; a new directory needs a block for its own entries as well. -/
def Created (b : Fs) (dp : Nat) (name : Name) (t : BitVec 16) : Option Nat → Fs → Prop
  | none, s' => Has ⟨b, True⟩ none (view b) [] s' ∧ (t ≠ T_DIR → ¬Creatable b dp name)
  | some i, s' => Has ⟨b, True⟩ none (view b) [i] s' ∧ ¬Creatable b dp name ∨ (t ≠ T_DIR → Creatable b dp name ∧
      (view b).type i = 0 ∧ ∃ v, Sound v ∧ v.type i = t ∧ Has ⟨s', True⟩ none v [i] s')

theorem WellFormed.wp_create (hw : WellFormed b) (h : Has ⟨b, False⟩ none (view b) [dp] s) (name : Name)
    (t major minor : BitVec 16) : WP (create dp name t major minor) AnyPanic (Created b dp name t) s := by
  have hv := hw.sound
  unfold create
  refine .bind ((h.wp_ilock dp).mono fun _ s₁ ⟨h₁, ipd, _, hipd, htd⟩ => ?_)
  rw [hipd, h.type_eq] at htd
  refine .bind ((h₁.wp_dirlookup hv name).mono fun r s₂ ⟨h₂, hthere, habsent⟩ => ?_)
  cases r with
  | some r =>
    have hnot : ¬Creatable b dp name := fun hc => hc.absent r.1 (hthere r rfl).2
    have hswap : Has ⟨b, False⟩ none (view b) [dp, r.1] s₂ := h₂.perm (List.Perm.swap ..)
    refine .bind ((hswap.wp_iunlockput hv).mono fun _ s₃ h₃ => ?_)
    refine .bind ((h₃.wp_ilock r.1).mono fun _ s₄ ⟨h₄, _⟩ => .bind (wp_locked fun ip _ => ?_))
    refine .ite (fun _ => .pure (.inl ⟨h₄.grow, hnot⟩)) fun _ => ?_
    exact .bind ((h₄.wp_iunlockput hv).mono fun _ _ h' => .pure ⟨h'.grow, fun _ => hnot⟩)
  | none =>
    have hinodes := h₂.freeInodes_eq hw.own
    refine .bind ((Has.wp_ialloc h₂ t).mono fun r s₃ h₃ => ?_)
    cases r with
    | none =>
      obtain ⟨rfl, h0⟩ := h₃
      refine .bind ((Has.wp_iunlockput h₂ hv).mono fun _ _ h' => .pure ⟨h'.grow, fun _ hc => ?_⟩)
      exact Nat.ne_of_gt hc.inode (hinodes.symm.trans h0)
    | some i =>
      obtain ⟨ht, h₃, hblocks, hfree⟩ := h₃
      have hb : (cur b i).type = 0 := ht
      have hne : dp ≠ i := fun e => htd (e ▸ ht)
      refine .bind (((h₃.rebase none False).wp_ilock i).mono fun _ s₄ ⟨h₄, _⟩ => .bind (wp_locked fun ip hi =>
        .bind (wp_setInode ?_)))
      refine .bind ((h₄.wp_iupdate { ip with major, minor, nlink := 1 } hi rfl rfl rfl).mono fun _ s₅ ⟨h₅, _⟩ => ?_)
      rw [View.set_set, View.set_type, View.set_content, update_self, update_self] at h₅
      have hsame : SameBlocks b s₅ := (h₂.sameBlocks hw.own).trans (hblocks.trans (h₅.sameBlocks h₃.own))
      have hcont : content s₅ dp = content b dp := (h₅.content_eq dp).trans (update_of_ne hne ..)
      refine .bind (((h₃.trans h₅).grow.wp_makeDots hv (by simp) dp).mono fun made s₆ ⟨hkeep, c, hc, h₆⟩ => ?_)
      have hv' : Sound ((view b).set i t 1 c) := hv.set (by decide) hc
      have hfail : ∀ {s}, Has ⟨b, True⟩ (some i) ((view b).set i t 1 c) [i, dp] s → (t ≠ T_DIR → ¬Creatable b dp name) →
          WP (createFail dp i) AnyPanic (Created b dp name t) s := fun h' hno => by
        refine (h'.wp_createFail hv hb ht (hw.blank i ht) hne).mono ?_
        rintro _ _ ⟨rfl, h''⟩
        exact ⟨h'', hno⟩
      refine .ite (fun hm => hfail h₆ fun hf => ?_) fun _ => ?_
      · rw [(hkeep hf).1] at hm
        cases hm
      have hplace : t ≠ T_DIR → (Takes s₆ dp ↔ Takes b dp) := fun hf => by
        rw [(hkeep hf).2]
        exact hsame.takes hcont
      have habsent' : ∀ x, ¬HasEntry (((view b).set i t 1 c).content dp) name x := by
        rw [View.set_content, update_of_ne hne]
        exact habsent rfl
      -- relative to `s₆` as well, where the entry is all that is new
      have hlink := (h₆.wp_dirlink hv' dp name i).and ((h₆.rebase (some dp) True).wp_dirlink hv' dp name i)
      refine .bind ((hlink.weaken fun _ _ => trivial).mono fun n s₇ ⟨⟨h₇, _, htakes⟩, _, hnew, _⟩ => ?_)
      have htakes := htakes habsent'
      refine .ite (fun hn => hfail (h₇ hn) fun hf hc => htakes.1 hn ((hplace hf).2 hc.place)) fun hn => ?_
      refine .bind (.ite (fun hd => ?_) fun hf => .pure ?_)
      · exact (WP.any _ s₇).mono fun _ s₈ _ => wp_returns s₈ fun _ _ => .pure (.inr fun hf => absurd hd hf)
      obtain ⟨c', hc', h₇⟩ := hnew rfl
      have hswap := h₇.perm (List.Perm.swap ..)
      refine .bind ((hswap.wp_iunlockput (hv'.set_content hc' dp)).mono fun _ s₈ h₈ => .pure (.inr fun _ => ?_))
      refine ⟨⟨habsent rfl, hinodes ▸ hfree, ?_⟩, ht, _, hv'.set_content hc' dp, ?_, h₈.rebase none True⟩
      · exact (hplace hf).1 (not_not.1 fun hno => hn (htakes.2 hno))
      · rw [View.set_type, update_of_ne hne.symm, View.set_type, update_self]

end Create

theorem WellFormed.wp_sysMake (h : WellFormed s) (cwd : Nat) (path : Option Name) (t major minor : BitVec 16) :
    WP (sysMake cwd path t major minor) AnyPanic (fun r s' => r = -1 → Has ⟨s, True⟩ none (view s) [] s') s := by
  cases path with
  | none => exact .pure fun _ => h.has
  | some path =>
    have hexact : Has ⟨s, False⟩ none (view s) [] s := h.has
    refine .bind ((hexact.wp_namex h.sound cwd path true).mono fun r s₁ ⟨h₁, _⟩ => ?_)
    cases r with
    | none => exact .pure fun _ => h₁.grow
    | some r =>
      refine .bind ((h.wp_create h₁ r.2 t major minor).mono fun o s₂ h₂ => ?_)
      cases o with
      | none => exact .pure fun _ => h₂.1
      | some i => exact wp_returns _ fun _ _ => .pure fun h0 => absurd h0 (by decide)

theorem WellFormed.wp_runCall (h : WellFormed s) (cwd : Nat) (c : Call) :
    WP (runCall cwd c) AnyPanic (fun r s' => r = -1 → Has ⟨s, True⟩ none (view s) [] s') s := by
  cases c with
  | link old new => exact h.has.wp_sysLink h.sound cwd old new
  | unlink path => exact h.has.wp_sysUnlink h.sound cwd path
  | mkdir path => exact h.wp_sysMake cwd path ..
  | mknod path major minor => exact h.wp_sysMake cwd path ..

/-! ## Failed calls -/

/-- The file system with the same names, links, inodes and contents, on the same blocks up to
indirect blocks that directories had no use for. -/
structure SameNames (fs fs' : Fs) : Prop where
  paths : ∀ i path j, Leads (view fs') i path j ↔ Leads (view fs) i path j
  linked : ∀ i, (fs'.dinode i).type ≠ 0 ∧ (fs'.dinode i).nlink ≠ 0 ↔ (fs.dinode i).type ≠ 0 ∧ (fs.dinode i).nlink ≠ 0
  nlink : ∀ i, (fs'.dinode i).nlink = (fs.dinode i).nlink
  type : ∀ i, (fs'.dinode i).type = (fs.dinode i).type
  size : ∀ i, (fs'.dinode i).size = (fs.dinode i).size
  content : ∀ i, content fs' i = content fs i
  ref : ∀ i, (fs'.itable i).ref = (fs.itable i).ref
  free : freeInodes fs' = freeInodes fs
  addrs : ∀ x, diskAddr fs' x = diskAddr fs x ∨
    ∃ i, x = .indirect i ∧ (fs.dinode i).type = T_DIR ∧ diskAddr fs x = 0
  blocks : ∀ b, b < fs.sb.size → fs'.used b = fs.used b ∨
    ∃ i, diskAddr fs' (.indirect i) = b ∧ (fs.dinode i).type = T_DIR ∧ diskAddr fs (.indirect i) = 0

theorem sameNames_of_has (h : Has ⟨b, True⟩ none (view b) [] s) (hb : Own none b) : SameNames b s := by
  have hview : view s = view b := h.view
  have htype := h.dinode_type hb
  have hnlink : ∀ i, (s.dinode i).nlink = (b.dinode i).nlink := fun i => by
    rw [← h.own.cur_eq, ← hb.cur_eq, h.nlink_eq]
    rfl
  have hcont : ∀ i, content s i = content b i := h.content_eq
  refine ⟨fun i path j => by rw [hview], fun i => by rw [htype, hnlink], hnlink, htype, fun i => ?_, hcont, h.ref_eq,
    h.freeInodes_eq hb, fun x => ?_, fun b hlt => ?_⟩
  · have hlen := congrArg List.length (hcont i)
    rw [length_content, length_content, h.own.cur_eq, hb.cur_eq] at hlen
    exact BitVec.eq_of_toNat_eq hlen
  · rw [h.own.diskAddr, hb.diskAddr]
    rcases h.addrs x nofun with e | ⟨-, hx, h0, hd⟩
    · exact .inl e
    · rw [hb.cur_eq] at hd
      exact .inr ⟨x.inum, hx, hd, h0⟩
  · refine (h.used_eq hb hlt).imp_right ?_
    rintro ⟨x, hxb, -, hx, h0, hd⟩
    rw [hb.cur_eq] at hd
    refine ⟨x.inum, ?_, hd, ?_⟩
    · rw [h.own.diskAddr, ← hx, hxb]
    · rw [hb.diskAddr, ← hx, h0]

theorem WellFormed.of_has (h : WellFormed s) (hs' : Has ⟨s, True⟩ none (view s) [] s') : WellFormed s' ∧ SameNames s s' := by
  have hview : view s' = view s := hs'.view
  refine ⟨⟨hs'.own, ?_, ?_⟩, sameNames_of_has hs' h.own⟩
  · rw [hview]
    exact h.sound
  · rw [hview]
    exact h.blank

/-- A call that returns -1 has changed nothing. -/
theorem failed_call (h : WellFormed s) (cwd : Nat) (c : Call) (hr : runCall cwd c s = .ok (-1, s')) :
    WellFormed s' ∧ SameNames s s' :=
  h.of_has ((h.wp_runCall cwd c).ok hr rfl)

/-- A file system with the inodes of `rootImage`. -/
theorem wellFormed_of_root (hown : Own none s) (hcur : ∀ i, cur s i = rootImage.dinode i)
    (href : ∀ i, i ≠ ROOTINO → (s.itable i).ref = 0) : WellFormed s := by
  have hother : ∀ i, i ≠ ROOTINO → cur s i =
      { type := 0, major := 0, minor := 0, nlink := 0, size := 0, addrs := fun _ => 0 } := fun i hi =>
    (hcur i).trans (if_neg hi)
  refine ⟨hown, ⟨fun i ht hn => ?_, fun i ht => ?_⟩, fun i ht => ?_⟩
  · by_cases hi : i = ROOTINO
    · subst hi
      have hn : (cur s ROOTINO).nlink = 0 := hn
      rw [hcur] at hn
      exact absurd hn (by decide)
    · exact absurd (congrArg Dinode.type (hother i hi)) ht
  · by_cases hi : i = ROOTINO
    · subst hi
      change direntSize ∣ (content s ROOTINO).length
      rw [length_content, hcur]
      decide
    · exact absurd ((congrArg Dinode.type (hother i hi)).symm.trans ht) (by decide)
  · by_cases hi : i = ROOTINO
    · subst hi
      have ht : (cur s ROOTINO).type = 0 := ht
      rw [hcur] at ht
      exact absurd ht (by decide)
    · refine ⟨congrArg Dinode.nlink (hother i hi), ?_, href i hi⟩
      refine List.length_eq_zero_iff.1 ((length_content s i).trans ?_)
      rw [hother i hi]
      rfl

/-- A root directory on a disk that has no other block. -/
def fullImage : Fs := { rootImage with sb := ⟨4, 8, 2⟩ }

theorem fullImage_wellFormed : WellFormed fullImage := by
  have hroot := rootImage_wellFormed
  have haddr : ∀ x, diskAddr fullImage x ≠ 0 → diskAddr fullImage x = 3 := by
    intro x hx
    change diskAddr rootImage x ≠ 0 at hx
    change diskAddr rootImage x = 3
    rw [diskAddr_rootImage] at hx ⊢
    exact if_pos (by by_contra e; exact hx (if_neg e))
  have hblocks : Blocks.WellFormed fullImage := by
    refine ⟨hroot.itable, ⟨by decide, fun x hx => ?_, hroot.owned.marked, hroot.owned.inj, fun b hlo hhi _ => ?_⟩,
      fun b hb => ?_, by decide, hroot.filled⟩
    · rw [haddr x hx]
      decide
    · exact hroot.owned.only b hlo (Nat.lt_trans hhi (by decide)) (decide_eq_true (Nat.le_of_lt_succ hhi))
    · exact hroot.metadata b hb
  exact wellFormed_of_root hblocks.own (fun _ => rfl) fun _ _ => rfl

/-- `mkdir("/a")` finds an inode but no block for its entries. -/
theorem failed_call_mkdir : ∃ fs', runCall ROOTINO (.mkdir (some [47, 97])) fullImage = .ok (-1, fs') ∧
    SameNames fullImage fs' := by
  obtain ⟨_, fs', hr, rfl⟩ : ∃ r fs', runCall ROOTINO (.mkdir (some [47, 97])) fullImage = .ok (r, fs') ∧ r = -1 :=
    exists_of_ok (by decide +kernel)
  exact ⟨fs', hr, (failed_call fullImage_wellFormed ROOTINO _ hr).2⟩

end Xv6.Undo
