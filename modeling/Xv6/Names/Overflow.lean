import Xv6.Names.Links
import Xv6.Names.Paths

/-!
# The limit of link counts

`nlink` is a signed number of 16 bits and `sys_link` does not look at it before it adds one. As long as it
is not 32767 then, and the other conditions of `Allowed` are met, link counts are the numbers of entries
and `sys_unlink` does not panic (`nlink_in_range`). Two directories have room for enough links to one
file for its count to become negative (`nlink_wraps`).
-/

namespace Xv6.Names

open List

open Blocks

theorem nlink_in_range {n : Nat} {s₀ s : Sys} {es : List Empty} (h₀ : Image n s₀) (h : Run n (Allowed false) s₀ es s) :
    s.panicked ≠ some .unlinkNlink ∧ (Quiet s → ∀ i, (s.shared.inode i).type ≠ .free →
      0 ≤ (s.shared.inode i).nlink.toInt ∧ (s.shared.inode i).nlink.toInt = entryCount n s.shared i) := by
  obtain ⟨⟨g, hi, hsafe⟩, hpanic⟩ := good_run h₀ h
  refine ⟨fun e => (hpanic _ e).2 rfl, fun hq i ht => ?_⟩
  have hg : ∀ p, ∃ R, g p = Loc.of R := fun p => idle_of_returned (hq p) (hsafe p)
  rw [hi.links_quiet hg ht, hi.disk.entryCount_eq (hi.live_iff hg)]
  exact ⟨Int.natCast_nonneg _, rfl⟩

/-- After "/a/x" has been made, linked and unlinked. -/
theorem nlink_in_range_makeRun : ∃ es s, Run 200 (Allowed false) boot es s ∧ Quiet s ∧
    (s.shared.inode 3).nlink.toInt = entryCount 200 s.shared 3 := by
  obtain ⟨s, es, hr, hq, ht, -⟩ := makeRun_quiet
  have hrun : Run 200 (Allowed false) boot es s := (exec_of_run hr).of_check meets_of_check
  exact ⟨es, s, hrun, hq, ((nlink_in_range boot_image hrun).2 hq 3 (by rw [ht]; nofun)).2⟩

/-! ## A link -/

variable {n cwd i d a b : Nat} {p : Pid} {s s₁ s₂ : Fs} {R l : List Nat} {old new name : Name}

theorem Held.trans {R' l' : List Nat} (h : Held p s R [] s₁) (h' : Held p s₁ R' l' s₂) : Held p s (R' ++ R) l' s₂ :=
  ⟨h'.inode.trans h.inode, h'.lock, fun i => by rw [h'.ref, h.ref, count_append]; omega⟩

theorem Held.setInode (h : Held p s R l s₁) (i : Nat) (c : Inode) : Held p (s.setInode i c) R l (s₁.setInode i c) := by
  refine ⟨?_, h.lock, h.ref⟩
  simp only [Fs.setInode, h.inode]

theorem Stays.held (hi : Stays s i) (h : Held p s R l s₁) : Stays s₁ i := by
  rw [Stays, h.inode, h.ref]
  exact ⟨hi.1, fun h0 => Nat.add_pos_left (hi.2 h0) _⟩

theorem Tree.of_held (ht : Tree s cwd) (h : Held p s R [] s₁) : Tree s₁ cwd :=
  ⟨h.lock, ht.root.held h, ht.cwd.held h, fun d hd e he h0 => by
    rw [h.inode] at hd he
    exact (ht.named d hd e he h0).held h⟩

theorem Stays.setEnts (hi : Stays s i) (ents : List Dirent) : Stays (s.setInode d { s.inode d with ents }) i := by
  by_cases e : i = d
  · subst e
    rwa [Stays, Fs.setInode_self]
  · rwa [Stays, Fs.setInode_of_ne _ _ e]

/-- A new entry, in a directory that has room and none to reuse. -/
theorem Held.dirlink (h : Held p s R l s₁) (hd : (s.inode d).type = .dir) (hnone : lookup name (s.inode d).ents 0 = none)
    (hfull : ∀ e ∈ (s.inode d).ents, e.inum ≠ 0) (hroom : (s.inode d).ents.length < MAXENTS) (i : Nat) :
    Ends n p true (dirlink d name i) s₁ fun r s₂ => r = true ∧ Held p (s.setInode d { s.inode d with
      ents := (s.inode d).ents ++ [⟨BitVec.ofNat 16 i, strncpy DIRSIZ name⟩] }) R l s₂ := by
  refine .bind (h.dirlookup hd name) fun r s₂ ⟨hr, h₂⟩ => ?_
  rw [hnone] at hr
  subst hr
  refine .bind (h₂.read d) fun c s₃ ⟨hc, h₃⟩ => ?_
  have hidx : (s.inode d).ents.findIdx (fun de => de.inum = 0) = (s.inode d).ents.length := by
    simpa [findIdx_eq_length] using hfull
  rw [hc, hidx]
  refine .perform ?_ ⟨rfl, h₃.setInode d _⟩
  simp only [kernel, exec, writeAt, h₃.inode, Nat.lt_irrefl, if_false, hroom, and_self, if_true]

theorem found_congr {parent : Bool} (h : s₁.inode = s.inode) (i : Nat) (names : List Name) :
    found s₁ parent i names = found s parent i names := by
  induction names generalizing i with
  | nil => rfl
  | cons name rest ih => simp only [found, h, ih]

/-- A link that succeeds: `s'` is the state with the link counted. -/
theorem ends_sysLink (a : Proc) {s' : Fs} (ht : Tree s a.cwd) (hold : resolve s a.cwd old = some i) (hi : Stays s i)
    (hfile : (s.inode i).type ≠ .dir) (hs' : s.setInode i { s.inode i with nlink := (s.inode i).nlink + 1 } = s')
    (ht' : Tree s' a.cwd) (hi' : Stays s' i) (hnew : found s' true (origin a.cwd new) (components new) = some (d, name))
    (hd : (s'.inode d).type = .dir) (hd' : Stays s' d) (hnone : lookup name (s'.inode d).ents 0 = none)
    (hfull : ∀ e ∈ (s'.inode d).ents, e.inum ≠ 0) (hroom : (s'.inode d).ents.length < MAXENTS) :
    Ends n p true (sysLink a old new) s fun r t => r = ⟨some a, 0⟩ ∧ Held p (s'.setInode d { s'.inode d with
      ents := (s'.inode d).ents ++ [⟨BitVec.ofNat 16 i, strncpy DIRSIZ name⟩] }) [] [] t := by
  have hnamei : Ends n p true (namei a.cwd old) s fun r s₁ => r = some i ∧ Held p s [i] [] s₁ := by
    refine .bind (ht.namex false old) ?_
    rintro r s₁ ⟨hr, h₁⟩
    have hfst : r.map Prod.fst = some i := by rw [hr, found_eq_fold, ← hold, resolve]
    obtain ⟨x, rfl, rfl⟩ := Option.map_eq_some_iff.1 hfst
    exact .ret ⟨rfl, h₁⟩
  refine .bind hnamei ?_
  rintro r s₁ ⟨hr, h₁⟩
  subst hr
  refine .bind (h₁.ilock mem_cons_self not_mem_nil hi.1) fun _ s₂ h₂ => ?_
  refine .bind (h₂.read i) ?_
  rintro c s₃ ⟨hc, h₃⟩
  rw [hc, if_neg hfile]
  -- the link is counted first
  have hinc : Ends n p true (incNlink i) s₃ fun _ s₄ => Held p s' [i] [i] s₄ := by
    refine .bind (h₃.read i) ?_
    rintro c s₄ ⟨hc, h₄⟩
    refine .perform rfl ?_
    rw [hc, ← hs', h₄.inode]
    exact h₄.setInode i _
  refine .bind hinc fun _ s₄ h₄ => .bind (h₄.iunlock mem_cons_self not_mem_nil) fun _ s₅ h₅ => ?_
  refine .bind ((ht'.of_held h₅).namex true new) ?_
  rintro r s₆ ⟨hr, h₆⟩
  rw [found_congr h₅.inode, hnew] at hr
  subst hr
  have h₆ : Held p s' [d, i] [] s₆ := h₅.trans h₆
  refine .bind (h₆.ilock mem_cons_self not_mem_nil hd'.1) fun _ s₇ h₇ => ?_
  refine .bind (h₇.dirlink hd hnone hfull hroom i) ?_
  rintro r s₈ ⟨hr, h₈⟩
  rw [hr]
  refine .bind (h₈.iunlockput not_mem_nil (hd'.setEnts _)) fun _ s₉ h₉ => ?_
  exact .bind (h₉.iput (hi'.setEnts _)) fun _ _ h => .ret ⟨rfl, h⟩

/-! ## Many links -/

/-- The name of link `k`, of three bytes. -/
def linkName (k : Nat) : Name := [97, BitVec.ofNat 8 (48 + k / 200), BitVec.ofNat 8 (48 + k % 200)]

/-- Entries for `k` links to inode 2. -/
def links (k : Nat) : List Dirent := (List.range k).map fun j => ⟨2, strncpy DIRSIZ (linkName j)⟩

/-- The root directory with "f" and "d". -/
def top : List Dirent :=
  [⟨1, strncpy DIRSIZ dot⟩, ⟨1, strncpy DIRSIZ dotdot⟩, ⟨2, strncpy DIRSIZ [102]⟩, ⟨3, strncpy DIRSIZ [100]⟩]

def dots : List Dirent := [⟨3, strncpy DIRSIZ dot⟩, ⟨1, strncpy DIRSIZ dotdot⟩]

/-- The file "/f" has `a` more links in the root directory and `b` in "/d". -/
structure Linked (a b : Nat) (m : BitVec 16) (s : Fs) : Prop where
  root : s.inode ROOTINO = ⟨.dir, 0, 0, 2, top ++ links a⟩
  file : s.inode 2 = ⟨.file, 0, 0, m, []⟩
  dir : s.inode 3 = ⟨.dir, 0, 0, 1, dots ++ links b⟩
  free : ∀ i, i ≠ ROOTINO → i ≠ 3 → (s.inode i).type ≠ .dir
  unlocked : ∀ i, (s.itable i).lock = none

theorem digit_ne {x y : Nat} (hx : x < 200) (hy : y < 256) (h : 48 + x ≠ y) : BitVec.ofNat 8 (48 + x) ≠ BitVec.ofNat 8 y := by
  intro e
  have e := congrArg BitVec.toNat e
  rw [BitVec.toNat_ofNat, BitVec.toNat_ofNat, Nat.mod_eq_of_lt (by omega), Nat.mod_eq_of_lt (by omega)] at e
  exact h e

theorem namecmp_three {x y x' y' : BitVec 8} (hx : x' ≠ 0#8) (hy : y' ≠ 0#8) (h : x = x' → y ≠ y') :
    namecmp [97, x, y] (strncpy DIRSIZ [97, x', y']) = false := by
  by_cases e : x = x'
  · have := h e
    simp [namecmp, DIRSIZ, strncmpEq, strncpy, *]
  · simp [namecmp, DIRSIZ, strncmpEq, strncpy, *]

variable {k : Nat} {F : List Nat}

theorem namecmp_linkName {j : Nat} (hj : j < 40000) (hk : k < 40000) (hne : j ≠ k) :
    namecmp (linkName j) (strncpy DIRSIZ (linkName k)) = false := by
  refine namecmp_three (digit_ne (y := 0) (by omega) (by omega) (by omega))
    (digit_ne (y := 0) (by omega) (by omega) (by omega)) fun e => ?_
  refine digit_ne (by omega) (by omega) fun e' => ?_
  by_cases hdiv : j / 200 = k / 200
  · omega
  · exact digit_ne (by omega) (by omega) (by omega) e

theorem lookup_eq_none {ents : List Dirent} (h : ∀ e ∈ ents, namecmp name e.name = false) (k : Nat) :
    lookup name ents k = none := by
  induction ents generalizing k with
  | nil => rfl
  | cons e ents ih =>
    rw [lookup, if_neg (by simp [h e mem_cons_self]), ih fun x hx => h x (mem_cons_of_mem _ hx)]

theorem lookup_linkName (hk : k < 40000) : lookup (linkName k) (top ++ links k) 0 = none ∧
    lookup (linkName k) (dots ++ links k) 0 = none := by
  have hlinks : ∀ e ∈ links k, namecmp (linkName k) e.name = false := by
    intro e he
    obtain ⟨j, hj, rfl⟩ := mem_map.1 he
    have hj := mem_range.1 hj
    exact namecmp_linkName hk (by omega) (by omega)
  constructor <;> refine lookup_eq_none (fun e he => (mem_append.1 he).elim (fun he => ?_) (hlinks e)) 0
  · simp only [top, mem_cons, not_mem_nil, or_false] at he
    rcases he with rfl | rfl | rfl | rfl <;> rfl
  · simp only [dots, mem_cons, not_mem_nil, or_false] at he
    rcases he with rfl | rfl <;> rfl

theorem components_linkName (hk : k < 40000) : components (slash :: linkName k) = [linkName k] ∧
    components (slash :: 100 :: slash :: linkName k) = [[100], linkName k] := by
  have hrun : ∀ x ∈ linkName k, x ≠ slash := by
    simp only [linkName, mem_cons, not_mem_nil, or_false]
    rintro x (rfl | rfl | rfl)
    · decide
    · exact digit_ne (y := 47) (by omega) (by omega) (by omega)
    · exact digit_ne (y := 47) (by omega) (by omega) (by omega)
  have hlast : components (linkName k) = [linkName k] := by
    have := components_run (by simp [linkName]) hrun (show ∀ x ∈ ([] : Name).head?, x = slash from nofun)
    rwa [append_nil] at this
  refine ⟨(components_slash _).trans hlast, (components_slash _).trans ?_⟩
  rw [← hlast, ← components_slash (linkName k)]
  exact components_run (show [100] ≠ [] by simp) (by decide) (by simp)

theorem mem_ents {e : Dirent} (he : e ∈ top ++ links a ∨ e ∈ dots ++ links b) : e.inum = 1 ∨ e.inum = 2 ∨ e.inum = 3 := by
  simp only [mem_append, top, dots, links, mem_cons, mem_map, not_mem_nil, or_false] at he
  rcases he with (he | ⟨_, -, rfl⟩) | (he | ⟨_, -, rfl⟩)
  · rcases he with rfl | rfl | rfl | rfl <;> decide
  · exact .inr (.inl rfl)
  · rcases he with rfl | rfl <;> decide
  · exact .inr (.inl rfl)

section

variable {m : BitVec 16} (h : Linked a b m s)
include h

theorem Linked.held (hs : Held p s R [] s₁) : Linked a b m s₁ :=
  ⟨by rw [hs.inode, h.root], by rw [hs.inode, h.file], by rw [hs.inode, h.dir], by rw [hs.inode]; exact h.free, hs.lock⟩

theorem Linked.stays (hm : m ≠ 0) (hi : i = ROOTINO ∨ i = 2 ∨ i = 3) : Stays s i := by
  rcases hi with rfl | rfl | rfl
  · exact ⟨by rw [h.root]; nofun, fun h0 => by rw [h.root] at h0; cases h0⟩
  · exact ⟨by rw [h.file]; nofun, fun h0 => by rw [h.file] at h0; exact absurd h0 hm⟩
  · exact ⟨by rw [h.dir]; nofun, fun h0 => by rw [h.dir] at h0; cases h0⟩

theorem Linked.tree (hm : m ≠ 0) : Tree s ROOTINO := by
  refine ⟨h.unlocked, h.stays hm (.inl rfl), h.stays hm (.inl rfl), fun d hd e he _ => h.stays hm ?_⟩
  have hmem : e ∈ top ++ links a ∨ e ∈ dots ++ links b := by
    by_cases h1 : d = ROOTINO
    · rw [h1, h.root] at he
      exact .inl he
    · by_cases h3 : d = 3
      · rw [h3, h.dir] at he
        exact .inr he
      · exact absurd hd (h.free d h1 h3)
  rcases mem_ents hmem with e | e | e <;> rw [e] <;> decide

/-- The link is counted. -/
theorem Linked.count : Linked a b (m + 1) (s.setInode 2 { s.inode 2 with nlink := (s.inode 2).nlink + 1 }) := by
  refine ⟨?_, ?_, ?_, fun i h1 h3 => ?_, h.unlocked⟩
  · rw [Fs.setInode_of_ne _ _ (by decide), h.root]
  · rw [Fs.setInode_self, h.file]
  · rw [Fs.setInode_of_ne _ _ (by decide), h.dir]
  · by_cases h2 : i = 2
    · rw [h2, Fs.setInode_self, h.file]
      nofun
    · rw [Fs.setInode_of_ne _ _ h2]
      exact h.free i h1 h3

theorem Linked.resolve_file : resolve s ROOTINO [47, 102] = some 2 := by
  show (s.find ROOTINO [102]).bind some = _
  rw [Fs.find, h.root]
  rfl

/-- A new link, in a directory that has an entry for the name then. -/
theorem Linked.link (name : Name) (hm : m ≠ 0) (hm' : m + 1 ≠ 0) (hd : d = ROOTINO ∨ d = 3)
    (hnew : ∀ t, Linked a b (m + 1) t → found t true (origin ROOTINO new) (components new) = some (d, name))
    (hnone : ∀ t, Linked a b (m + 1) t → lookup name (t.inode d).ents 0 = none ∧ (t.inode d).ents.length < MAXENTS) :
    Ends n p true (sysLink ⟨ROOTINO, F⟩ [47, 102] new) s fun r t => r = ⟨some ⟨ROOTINO, F⟩, 0⟩ ∧
      ∃ t', Linked a b (m + 1) t' ∧ Held p (t'.setInode d { t'.inode d with
        ents := (t'.inode d).ents ++ [⟨2, strncpy DIRSIZ name⟩] }) [] [] t := by
  have h' := h.count
  have htype : ((s.setInode 2 { s.inode 2 with nlink := (s.inode 2).nlink + 1 }).inode d).type = .dir := by
    rcases hd with rfl | rfl
    · rw [h'.root]
    · rw [h'.dir]
  refine Kernel.Ends.mono (ends_sysLink ⟨ROOTINO, F⟩ (h.tree hm) h.resolve_file (h.stays hm (.inr (.inl rfl)))
    (by rw [h.file]; nofun) rfl (h'.tree hm') (h'.stays hm' (.inr (.inl rfl))) (hnew _ h') htype
    (h'.stays hm' (hd.imp_right .inr)) (hnone _ h').1 (fun e he => ?_) (hnone _ h').2)
    fun r t ⟨hr, ht⟩ => ⟨hr, _, h', ht⟩
  have hmem : e ∈ top ++ links a ∨ e ∈ dots ++ links b := by
    rcases hd with rfl | rfl
    · rw [h'.root] at he
      exact .inl he
    · rw [h'.dir] at he
      exact .inr he
  rcases mem_ents hmem with e | e | e <;> rw [e] <;> decide

end

theorem links_succ (k : Nat) : links k ++ [⟨2, strncpy DIRSIZ (linkName k)⟩] = links (k + 1) := by
  rw [links, links, range_succ, map_append]
  rfl

/-- One more link in the root directory. -/
theorem Linked.link_root {m : BitVec 16} (h : Linked a b m s) (hm : m ≠ 0) (hm' : m + 1 ≠ 0) (ha : a < 17148) :
    Ends n p true (sysLink ⟨ROOTINO, F⟩ [47, 102] (slash :: linkName a)) s fun r t =>
      r = ⟨some ⟨ROOTINO, F⟩, 0⟩ ∧ Linked (a + 1) b (m + 1) t := by
  refine (h.link (linkName a) hm hm' (.inl rfl) (fun t ht => ?_) fun t ht => ?_).mono fun r t ⟨hr, t', h', ht⟩ =>
    ⟨hr, Linked.held ?_ ht⟩
  · rw [(components_linkName (by omega)).1, origin, ite_self, found, ht.root]
    rfl
  · rw [ht.root]
    refine ⟨(lookup_linkName (by omega)).1, ?_⟩
    simp only [top, links, MAXENTS, length_append, length_map, length_range, length_cons,
      length_nil]
    omega
  · refine ⟨?_, ?_, ?_, fun i h1 h3 => ?_, h'.unlocked⟩
    · rw [Fs.setInode_self, h'.root, append_assoc, links_succ]
    · rw [Fs.setInode_of_ne _ _ (by decide), h'.file]
    · rw [Fs.setInode_of_ne _ _ (by decide), h'.dir]
    · rw [Fs.setInode_of_ne _ _ h1]
      exact h'.free i h1 h3

/-- One more link in "/d". -/
theorem Linked.link_dir {m : BitVec 16} (h : Linked a b m s) (hm : m ≠ 0) (hm' : m + 1 ≠ 0) (hb : b < 17150) :
    Ends n p true (sysLink ⟨ROOTINO, F⟩ [47, 102] (slash :: 100 :: slash :: linkName b)) s fun r t =>
      r = ⟨some ⟨ROOTINO, F⟩, 0⟩ ∧ Linked a (b + 1) (m + 1) t := by
  refine (h.link (linkName b) hm hm' (.inr rfl) (fun t ht => ?_) fun t ht => ?_).mono fun r t ⟨hr, t', h', ht⟩ =>
    ⟨hr, Linked.held ?_ ht⟩
  · rw [(components_linkName (by omega)).2, origin, ite_self, found, ht.root]
    show found t true 3 [linkName b] = _
    rw [found, ht.dir]
    rfl
  · rw [ht.dir]
    refine ⟨(lookup_linkName (by omega)).2, ?_⟩
    simp only [dots, links, MAXENTS, length_append, length_map, length_range, length_cons,
      length_nil]
    omega
  · refine ⟨?_, ?_, ?_, fun i h1 h3 => ?_, h'.unlocked⟩
    · rw [Fs.setInode_of_ne _ _ (by decide), h'.root]
    · rw [Fs.setInode_of_ne _ _ (by decide), h'.file]
    · rw [Fs.setInode_self, h'.dir, append_assoc, links_succ]
    · rw [Fs.setInode_of_ne _ _ h3]
      exact h'.free i h1 h3

/-! ## The first two calls -/

deriving instance DecidableEq for Dirent, Inode

/-- The inode that an operation is about. -/
def Op.inum : Op → Nat
  | .iget i | .idup i | .ilock i | .iunlock i | .iput i | .ifree i | .releasesleep i | .unref i | .ialloc i _
  | .read i | .initInode i _ _ | .setNlink i _ | .writeEnt i _ _ => i
  | .fdalloc => 0

theorem exec_frame {o : Op} {c : Bool} {r : o.Res} (h : exec p o c s = some (.ok (r, s₁))) (hi : i ≠ o.inum) :
    s₁.inode i = s.inode i ∧ s₁.itable i = s.itable i := by
  cases o <;> simp only [exec] at h <;> repeat' split at h
  all_goals
    cases h
  all_goals
    simp_all [Op.inum, Fs.setEntry, Fs.setInode]

/-- A kernel that refuses inodes other than the first four. -/
def small : Kernel Pid Call Fs Idle Panic Op Op.Res where
  exec p o c s := if o.inum < 4 then exec p o c s else none
  code := code 200

theorem alone_small {α : Type} {c : Bool} {m : Code α} {x : α} (h : small.alone p c m s = some (.ok (x, s₁))) :
    (kernel 200).alone p c m s = some (.ok (x, s₁)) ∧ ∀ i, 4 ≤ i → s₁.inode i = s.inode i ∧ s₁.itable i = s.itable i := by
  induction m generalizing s with
  | ret a =>
    cases h
    exact ⟨rfl, fun _ _ => ⟨rfl, rfl⟩⟩
  | panic e => cases h
  | op o k ih =>
    simp only [Kernel.alone] at h ⊢
    by_cases ho : o.inum < 4
    · simp only [small, if_pos ho] at h
      split at h
      · rename_i r s' hx
        obtain ⟨hrun, hframe⟩ := ih r h
        simp only [kernel, hx]
        refine ⟨hrun, fun i hi => ?_⟩
        obtain ⟨hin, hit⟩ := exec_frame hx (show i ≠ o.inum by omega)
        rw [← hin, ← hit]
        exact hframe i hi
      · cases h
      · cases h
    · simp only [small, if_neg ho] at h
      cases h

/-- `open("/f", O_CREATE | O_RDWR)` and `mkdir("/d")`. -/
def firstCalls : List Call := [.open [47, 102] 0x202, .mkdir [47, 100]]

def firstCheck (a : Idle) (s : Fs) : Bool :=
  a.proc.any (fun q => q.cwd = ROOTINO ∧ q.files = [2]) ∧ s.inode ROOTINO = ⟨.dir, 0, 0, 2, top⟩ ∧
    s.inode 2 = ⟨.file, 0, 0, 1, []⟩ ∧ s.inode 3 = ⟨.dir, 0, 0, 1, dots⟩ ∧
    ∀ i : Fin 4, (s.itable i).lock = none ∧ (i = 0 → (s.inode i).type ≠ .dir)

theorem firstCheck_run :
    (match small.alone 0 true (code 200 (.open [47, 102] 0x202) ⟨some ⟨ROOTINO, []⟩, 0⟩) boot.shared with
    | some (.ok (a, s)) =>
      match small.alone 0 true (code 200 (.mkdir [47, 100]) a) s with
      | some (.ok (a, s)) => firstCheck a s
      | _ => false
    | _ => false) = true := by
  decide +kernel

theorem firstCalls_linked : ∃ r t, (kernel 200).session 0 true firstCalls ⟨some ⟨ROOTINO, []⟩, 0⟩ boot.shared =
    some (.ok (⟨some ⟨ROOTINO, [2]⟩, r⟩, t)) ∧ Linked 0 0 1 t := by
  have h := firstCheck_run
  split at h
  · split at h
    · rename_i a₁ s₁ hx₁ _ a₂ s₂ hx₂
      obtain ⟨hrun₁, hframe₁⟩ := alone_small hx₁
      obtain ⟨hrun₂, hframe₂⟩ := alone_small hx₂
      obtain ⟨ha, hroot, hfile, hdir, hfour⟩ := of_decide_eq_true h
      obtain ⟨⟨_, _⟩, hp, hq⟩ := (Option.any_eq_true _ _).1 ha
      obtain ⟨rfl, rfl⟩ := of_decide_eq_true hq
      obtain ⟨_, r⟩ := a₂
      cases hp
      refine ⟨r, s₂, ?_, hroot, hfile, hdir, fun i h1 h3 => ?_, fun i => ?_⟩
      · simp only [firstCalls, Kernel.session, show (kernel 200).code = code 200 from rfl, hrun₁, hrun₂]
      · rcases Nat.lt_or_ge i 4 with hi | hi
        · by_cases h0 : i = 0
          · subst h0
            exact (hfour 0).2 rfl
          · obtain rfl : i = 2 := by
              unfold ROOTINO at h1
              omega
            rw [hfile]
            simp
        · rw [(hframe₂ i hi).1, (hframe₁ i hi).1, boot_free h1]
          decide
      · rcases Nat.lt_or_ge i 4 with hi | hi
        · exact (hfour ⟨i, hi⟩).1
        · rw [(hframe₂ i hi).2, (hframe₁ i hi).2]
          simp only [boot, Function.update_apply]
          split <;> rfl
    · cases h
  · cases h

/-- Process 0, between calls, when "/f" has its links. -/
def LinkedBy (a b : Nat) (q : Idle) (s : Fs) : Prop :=
  (∃ r, q = ⟨some ⟨ROOTINO, [2]⟩, r⟩) ∧ Linked a b (BitVec.ofNat 16 (a + b + 1)) s

theorem ofNat_ne_zero (h : k < 65535) : BitVec.ofNat 16 (k + 1) ≠ 0 := by
  intro e
  have e := congrArg BitVec.toNat e
  rw [BitVec.toNat_ofNat, Nat.mod_eq_of_lt (by omega)] at e
  cases e

/-- Links to "/f", as many as the root directory has room for, and 15619 more in "/d". -/
def linkCalls : List Call :=
  (List.range 17148).map (fun k => .link [47, 102] (slash :: linkName k)) ++
  (List.range 15619).map fun k => .link [47, 102] (slash :: 100 :: slash :: linkName k)

theorem linkCalls_linked {q : Idle} (h : LinkedBy 0 0 q s) : ∃ q' t,
    (kernel 200).session 0 true linkCalls q s = some (.ok (q', t)) ∧ LinkedBy 17148 15619 q' t := by
  have hroot : ∃ q' t, (kernel 200).session 0 true
      ((range 17148).map fun k => .link [47, 102] (slash :: linkName k)) q s = some (.ok (q', t)) ∧
      LinkedBy 17148 0 q' t := by
    refine Kernel.session_range (P := fun k => LinkedBy k 0) h fun k hk q s ⟨⟨r, hq⟩, h⟩ => ?_
    subst hq
    have hsucc : BitVec.ofNat 16 (k + 0 + 1) + 1 = BitVec.ofNat 16 (k + 1 + 0 + 1) := (BitVec.ofNat_add ..).symm
    refine (h.link_root (ofNat_ne_zero (by omega)) ?_ hk).mono fun q' t ⟨hq', ht⟩ => ⟨⟨0, hq'⟩, hsucc ▸ ht⟩
    rw [hsucc]
    exact ofNat_ne_zero (by omega)
  obtain ⟨q₁, s₁, hrun, h₁⟩ := hroot
  have hdir : ∃ q' t, (kernel 200).session 0 true
      ((range 15619).map fun k => .link [47, 102] (slash :: 100 :: slash :: linkName k)) q₁ s₁ = some (.ok (q', t)) ∧
      LinkedBy 17148 15619 q' t := by
    refine Kernel.session_range (P := fun k => LinkedBy 17148 k) h₁ fun k hk q s ⟨⟨r, hq⟩, h⟩ => ?_
    subst hq
    have hsucc : BitVec.ofNat 16 (17148 + k + 1) + 1 = BitVec.ofNat 16 (17148 + (k + 1) + 1) :=
      (BitVec.ofNat_add ..).symm
    refine (h.link_dir (ofNat_ne_zero (by omega)) ?_ (by omega)).mono fun q' t ⟨hq', ht⟩ => ⟨⟨0, hq'⟩, hsucc ▸ ht⟩
    rw [hsucc]
    exact ofNat_ne_zero (by omega)
  obtain ⟨q₂, s₂, hrun₂, h₂⟩ := hdir
  exact ⟨q₂, s₂, (Kernel.session_append hrun).trans hrun₂, h₂⟩

/-- `unlink("/f")` -/
theorem Linked.unlink (h : Linked a b 0x8000 s) :
    (kernel n).alone p true (sysUnlink ⟨ROOTINO, F⟩ [47, 102]) s = some (.error .unlinkNlink) := by
  have ht := h.tree (by decide)
  refine (ht.namex true [47, 102]).bind_error ?_
  rintro r s₁ ⟨hr, h₁⟩
  have hfound : found s true (origin ROOTINO [47, 102]) (components [47, 102]) = some (ROOTINO, [102]) := by
    show found s true ROOTINO [[102]] = _
    rw [found, h.root]
    rfl
  rw [hfound] at hr
  subst hr
  refine (h₁.ilock mem_cons_self not_mem_nil ht.root.1).bind_error fun _ s₂ h₂ => ?_
  rw [if_neg (by decide)]
  refine (h₂.dirlookup (by rw [h.root]) [102]).bind_error ?_
  rintro r s₃ ⟨hr, h₃⟩
  have hl : lookup [102] (s.inode ROOTINO).ents 0 = some (2, 2) := by
    rw [h.root]
    rfl
  rw [hl] at hr
  subst hr
  refine (h₃.ilock mem_cons_self (by decide) (by rw [h.file]; simp)).bind_error fun _ s₄ h₄ => ?_
  refine (h₄.read 2).bind_error ?_
  rintro c s₅ ⟨hc, _⟩
  rw [hc, h.file, if_pos (by decide)]
  rfl

/-- A file and 32767 links to it, in two directories, and its link count is -32768; to unlink it then is a panic. -/
theorem nlink_wraps : Image 200 boot ∧ ∃ q t,
    (kernel 200).session 0 true (firstCalls ++ linkCalls) ⟨some ⟨ROOTINO, []⟩, 0⟩ boot.shared = some (.ok (q, t)) ∧
      (t.inode 2).type = .file ∧ (t.inode 2).nlink.toInt = -32768 ∧
      ∃ s, Run 200 (fun _ _ => True) boot [] s ∧ s.panicked = some .unlinkNlink := by
  obtain ⟨r, s₁, hfirst, h₁⟩ := firstCalls_linked
  obtain ⟨q, s₂, hlinks, ⟨r₂, rfl⟩, h₂⟩ := linkCalls_linked ⟨⟨r, rfl⟩, h₁⟩
  have hcalls := (Kernel.session_append hfirst).trans hlinks
  refine ⟨boot_image, _, s₂, hcalls, by rw [h₂.file], by rw [h₂.file]; decide, ?_⟩
  have hpanic : (kernel 200).session 0 true (firstCalls ++ linkCalls ++ [.unlink [47, 102]]) ⟨some ⟨ROOTINO, []⟩, 0⟩
      boot.shared = some (.error .unlinkNlink) := by
    rw [Kernel.session_append hcalls]
    have hlast : (kernel 200).alone 0 true ((kernel 200).code (.unlink [47, 102]) ⟨some ⟨ROOTINO, [2]⟩, r₂⟩) s₂ =
        some (.error .unlinkNlink) := h₂.unlink
    simp only [Kernel.session, hlast]
  obtain ⟨s, hrun, hs⟩ := Kernel.exec_session (t := boot) rfl rfl hpanic
  exact ⟨s, hrun.mono fun s a _ => meets_true s a, hs⟩

end Xv6.Names
