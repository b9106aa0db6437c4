import Xv6.Undo.Model
import Xv6.Blocks.Entries
import Xv6.Blocks.Freed

/-!
# What names and links are made of

`view` is what the namespace calls are about: references, types, link counts and contents. Each
operation on inodes acts on it in a simple way, whatever it does to blocks and to copies in memory.
`Has base new v held s` says that the state `s` has the view `v` with the references `held` on top,
and that the addresses of all inodes but `new` are as in `base`, up to indirect blocks of directories
where `base` allows for them.
-/

namespace Xv6.Undo

open Function List
open Blocks

structure View where
  ref : Nat → Nat
  type : Nat → BitVec 16
  nlink : Nat → BitVec 16
  content : Nat → List (BitVec 8)

def view (fs : Fs) : View where
  ref i := (fs.itable i).ref
  type i := (cur fs i).type
  nlink i := (cur fs i).nlink
  content := content fs

/-- The view with references to the inodes of a list. -/
def View.hold (v : View) (held : List Nat) : View := { v with ref := fun i => v.ref i + held.count i }

/-- The view of a file system: inodes without links are referenced, directories consist of entries. -/
structure Sound (v : View) : Prop where
  orphans : ∀ i, v.type i ≠ 0 → v.nlink i = 0 → 0 < v.ref i
  dirs : ∀ i, v.type i = T_DIR → direntSize ∣ (v.content i).length

/-- The state that a call starts from, and whether spare blocks may have come since. -/
structure Base where
  fs : Fs
  spares : Prop

/-- An indirect block that a directory had no use for. -/
def Spare (base : Base) (x : Slot) : Prop :=
  base.spares ∧ x = .indirect x.inum ∧ addrOf base.fs x = 0 ∧ (cur base.fs x.inum).type = T_DIR

structure Has (base : Base) (new : Option Nat) (v : View) (held : List Nat) (s : Fs) : Prop where
  own : Own none s
  sb : s.sb = base.fs.sb
  view : view s = v.hold held
  types : ∀ i, some i ≠ new → (cur base.fs i).type = v.type i
  addrs : ∀ x : Slot, some x.inum ≠ new → addrOf s x = addrOf base.fs x ∨ Spare base x

variable {base : Base} {b s s' : Fs} {new : Option Nat} {v v' : View} {held held' : List Nat} {i dp : Nat} {ip : Dinode}
  {E : Panic → Prop}

section

variable (h : Has base new v held s)
include h

theorem Has.perm (hp : held.Perm held') : Has base new v held' s := by
  refine ⟨h.own, h.sb, ?_, h.types, h.addrs⟩
  rw [h.view, View.hold, View.hold]
  simp only [hp.count_eq]

theorem Has.ref_eq (i : Nat) : (s.itable i).ref = v.ref i + held.count i :=
  congrFun (congrArg View.ref h.view) i

theorem Has.type_eq (i : Nat) : (cur s i).type = v.type i :=
  congrFun (congrArg View.type h.view) i

theorem Has.nlink_eq (i : Nat) : (cur s i).nlink = v.nlink i :=
  congrFun (congrArg View.nlink h.view) i

theorem Has.content_eq (i : Nat) : content s i = v.content i :=
  congrFun (congrArg View.content h.view) i

end

/-- The view with another inode `i`. -/
def View.set (v : View) (i : Nat) (type nlink : BitVec 16) (content : List (BitVec 8)) : View :=
  { v with type := update v.type i type, nlink := update v.nlink i nlink, content := update v.content i content }

section

variable (v : View) (i : Nat) (t n : BitVec 16) (c : List (BitVec 8)) (held : List Nat)


@[simp] theorem View.set_type : (v.set i t n c).type = update v.type i t := rfl

@[simp] theorem View.set_nlink : (v.set i t n c).nlink = update v.nlink i n := rfl

@[simp] theorem View.set_content : (v.set i t n c).content = update v.content i c := rfl

@[simp] theorem View.hold_type : (v.hold held).type = v.type := rfl

@[simp] theorem View.hold_nlink : (v.hold held).nlink = v.nlink := rfl
@[simp] theorem View.hold_content : (v.hold held).content = v.content := rfl


end

theorem View.set_set (v : View) (i : Nat) (type nlink type' nlink' : BitVec 16) (c c' : List (BitVec 8)) :
    (v.set i type nlink c).set i type' nlink' c' = v.set i type' nlink' c' := by
  simp only [View.set, update_idem]

theorem View.set_self (v : View) (i : Nat) : v.set i (v.type i) (v.nlink i) (v.content i) = v := by
  simp only [View.set, update_eq_self]

/-- A change of the inode `i` and of references. -/
theorem Has.change (h : Has base new v held s) (held' : List Nat) (hown : Own none s') (hsb : s'.sb = s.sb)
    (hcur : ∀ j, j ≠ i → cur s' j = cur s j) (hcont : ∀ j, j ≠ i → content s' j = content s j)
    (href : ∀ j, (s'.itable j).ref + held.count j = (s.itable j).ref + held'.count j)
    (htype : some i ≠ new → (cur s' i).type = v.type i)
    (haddr : ∀ x : Slot, some x.inum ≠ new → addrOf s' x = addrOf s x ∨ Spare base x) :
    Has base new (v.set i (cur s' i).type (cur s' i).nlink (content s' i)) held' s' := by
  refine ⟨hown, hsb.trans h.sb, ?_, fun j hj => ?_, fun x hx => ?_⟩
  · have hrefs : ∀ j, (s'.itable j).ref = v.ref j + held'.count j := by
      intro j
      have hold := h.ref_eq j
      have hnew := href j
      omega
    simp only [Undo.view, View.hold, View.set, View.mk.injEq]
    refine ⟨funext hrefs, ?_, ?_, ?_⟩ <;> funext j <;> rw [update_apply] <;> split
    · subst j
      rfl
    · rw [hcur j ‹_›, h.type_eq]
    · subst j
      rfl
    · rw [hcur j ‹_›, h.nlink_eq]
    · subst j
      rfl
    · rw [hcont j ‹_›, h.content_eq]
  · change _ = update v.type i _ j
    rw [update_apply]
    split
    · subst j
      rw [htype hj, h.types i hj]
    · exact h.types j hj
  · rcases haddr x hx with e | e
    · rw [e]
      exact h.addrs x hx
    · exact .inr e

/-- The same inodes, with other references. -/
theorem Has.of_cur (h : Has base new v held s) (hown : Own none s') (hsb : s'.sb = s.sb)
    (hcur : ∀ i, cur s' i = cur s i) (hdata : s'.data = s.data)
    (href : ∀ i, (s'.itable i).ref + held.count i = (s.itable i).ref + held'.count i) : Has base new v held' s' := by
  have haddr : addrOf s' = addrOf s := funext fun x => by rw [addrOf, addrOf, hcur, hdata]
  have hcont : ∀ i, content s' i = content s i := fun i =>
    content_congr (by rw [hcur]) fun k => by rw [byteAt, byteAt, haddr, hdata]
  have hset := h.change (i := 0) held' hown hsb (fun j _ => hcur j) (fun j _ => hcont j) href
    (fun _ => by rw [hcur, h.type_eq]) fun x _ => .inl (congrFun haddr x)
  rwa [hcur, hcont, h.type_eq, h.nlink_eq, h.content_eq, View.set_self] at hset

/-- Any state is a base of its own view. -/
theorem Has.rebase (h : Has base new v held s) (new' : Option Nat) (spares : Prop) : Has ⟨s, spares⟩ new' v held s :=
  ⟨h.own, rfl, h.view, fun i _ => h.type_eq i, fun _ _ => .inl rfl⟩

theorem Has.grow {spares : Prop} (h : Has ⟨b, False⟩ new v held s) : Has ⟨b, spares⟩ new v held s :=
  ⟨h.own, h.sb, h.view, h.types, fun x hx => .inl ((h.addrs x hx).resolve_right fun hs => hs.1)⟩

/-- A step that keeps all addresses. -/
theorem Has.trans (h : Has base new v held s) (h' : Has ⟨s, False⟩ none v' held' s') : Has base new v' held' s' := by
  refine ⟨h'.own, h'.sb.trans h.sb, h'.view, fun i hi => ?_, fun x hx => ?_⟩
  · rw [h.types i hi, ← h.type_eq, h'.types i nofun]
  · rw [(h'.addrs x nofun).resolve_right fun hs => hs.1]
    exact h.addrs x hx

/-! ## References and locks -/

theorem cur_getRef (h : Own none s) (t i : Nat) : cur (s.getRef t) i = cur s i := by
  rw [cur, h.getRef_inode]
  rfl

theorem Entry.ref_get (e : Entry) : e.get.ref = e.ref + 1 := by
  rw [Entry.get]
  split
  · rfl
  · have h0 : e.ref = 0 := by omega
    rw [h0]

theorem Has.getRef (h : Has base new v held s) (t : Nat) : Has base new v (t :: held) (s.getRef t) := by
  refine h.of_cur ((Keeps.iget s h.own).ok rfl) rfl (cur_getRef h.own t) rfl fun i => ?_
  by_cases hi : i = t
  · subst hi
    have hself : (s.getRef i).itable i = (s.itable i).get := update_self ..
    rw [hself, Entry.ref_get, count_cons_self]
    omega
  · have hne : (s.getRef t).itable i = s.itable i := update_of_ne hi ..
    rw [hne, count_cons_of_ne (Ne.symm hi)]

theorem Has.wp_iget (h : Has base new v held s) (i : Nat) :
    WP (iget i) E (fun _ s' => Has base new v (i :: held) s') s := .modify (h.getRef i)

theorem Has.wp_idup (h : Has base new v held s) (i : Nat) :
    WP (idup i) E (fun _ s' => Has base new v (i :: held) s') s := by
  refine .modify ?_
  have hinode : ∀ j, ((update s.itable i { s.itable i with ref := (s.itable i).ref + 1 }) j).inode =
      (s.itable j).inode := by
    intro j
    rw [update_apply]
    split
    · rename_i hj
      rw [hj]
    · rfl
  have href : ∀ j, ((update s.itable i { s.itable i with ref := (s.itable i).ref + 1 }) j).ref =
      (s.itable j).ref + if j = i then 1 else 0 := by
    intro j
    rw [update_apply]
    split
    · rename_i hj
      rw [hj]
    · rfl
  refine h.of_cur ?_ rfl (fun j => by rw [cur, cur, hinode]) rfl fun j => ?_
  · exact (h.own.dirty i).of_entry (h.own.filled i (Option.some_ne_none i)) rfl fun ip hi =>
      ⟨Nat.succ_pos _, (h.own.valid i ip (Option.some_ne_none i) hi).2⟩
  · rw [href]
    by_cases hj : j = i
    · subst hj
      rw [if_pos rfl, count_cons_self]
      omega
    · rw [if_neg hj, count_cons_of_ne (Ne.symm hj)]
      omega

/-- All panics, and so no concern. -/
abbrev AnyPanic : Panic → Prop := fun _ => True

/-- `ilock` loads a copy, which is that of an allocated inode. -/
theorem Has.wp_ilock (h : Has base new v held s) (i : Nat) : WP (ilock i) AnyPanic (fun _ s' => Has base new v held s' ∧
      ∃ ip, (s'.itable i).inode = some ip ∧ ip = cur s i ∧ ip.type ≠ 0) s := by
  have hown := (Keeps.ilock : Keeps (ilock i)) s h.own
  have hcur : WP (ilock i) AnyPanic (fun _ s' => s'.sb = s.sb ∧ (∀ j, cur s' j = cur s j) ∧ s'.data = s.data ∧
      (∀ j, (s'.itable j).ref = (s.itable j).ref) ∧ ∃ ip, (s'.itable i).inode = some ip) s := by
    unfold ilock
    refine .bind (.get (.ite (fun _ => .throw trivial) fun _ => ?_))
    split
    · rename_i ip hi
      exact .pure ⟨rfl, fun _ => rfl, rfl, fun _ => rfl, ip, hi⟩
    · rename_i hi
      refine .bind (wp_setInode (.ite (fun _ => .throw trivial) fun _ => .pure ⟨rfl, fun j => ?_, rfl,
        fun j => ?_, s.dinode i, inode_setInode ..⟩))
      · by_cases hj : j = i
        · subst hj
          rw [cur_of_inode (inode_setInode ..), cur, hi]
          rfl
        · have hne : (s.setInode i (s.dinode i)).itable j = s.itable j := update_of_ne hj ..
          rw [cur, cur, hne]
          rfl
      · by_cases hj : j = i
        · subst hj
          exact ref_setInode ..
        · have hne : (s.setInode i (s.dinode i)).itable j = s.itable j := update_of_ne hj ..
          rw [hne]
  refine ((hown.and hcur).weaken fun _ _ => trivial).mono ?_
  rintro _ s' ⟨hown', hsb, hc, hd, hr, ip, hi⟩
  refine ⟨h.of_cur hown' hsb hc hd fun j => by rw [hr], ip, hi, ?_, (hown'.valid i ip (by simp) hi).2.1⟩
  rw [← hc i, cur_of_inode hi]

theorem wp_locked {Q : Dinode → Fs → Prop} (h : ∀ ip, (s.itable i).inode = some ip → Q ip s) :
    WP (inode i) AnyPanic Q s :=
  (wp_inode h).weaken fun _ _ => trivial

theorem wp_iunlock {Q : Unit → Fs → Prop} (h : Q () s) : WP (iunlock i) AnyPanic Q s :=
  .bind (.get (.ite (fun _ => .throw trivial) fun _ => .pure h))

/-- `iput` of a held reference frees nothing: it is not the last, or the inode has links. -/
theorem Has.wp_iput (h : Has base new v (i :: held) s) (hv : Sound v) :
    WP (iput i) AnyPanic (fun _ s' => Has base new v held s') s := by
  have hown := (Keeps.iput : Keeps (iput i)) s h.own
  have href := h.ref_eq i
  rw [count_cons_self] at href
  have hcur : WP (iput i) AnyPanic (fun _ s' => s'.sb = s.sb ∧ (∀ j, cur s' j = cur s j) ∧ s'.data = s.data ∧
      s'.itable = update s.itable i (s.itable i).put) s := by
    unfold iput
    have hfree : WP (ifree i) AnyPanic (fun _ s' => s' = s) s := by
      unfold ifree
      refine .bind (.get ?_)
      dsimp only
      split
      · rename_i ip hi
        refine .ite (fun hc => ?_) fun _ => .pure rfl
        have ht : v.type i ≠ 0 := by
          rw [← h.type_eq, cur_of_inode hi]
          exact (h.own.valid i ip (by simp) hi).2.1
        have hn : v.nlink i = 0 := by
          rw [← h.nlink_eq, cur_of_inode hi]
          exact hc.2
        have := hv.orphans i ht hn
        omega
      · exact .pure rfl
    refine .bind (hfree.mono fun _ s₁ h₁ => ?_)
    subst h₁
    refine .modify ⟨rfl, fun j => ?_, rfl, rfl⟩
    change ((update s₁.itable i (s₁.itable i).put j).inode).getD (s₁.dinode j) = cur s₁ j
    by_cases hj : j = i
    · subst hj
      rw [update_self, cur]
      rw [Entry.put]
      split
      · cases hi : (s₁.itable j).inode with
        | none => rfl
        | some ip => exact (h.own.valid j ip (by simp) hi).2.2
      · rfl
    · rw [update_of_ne hj, cur]
  refine ((hown.and hcur).weaken fun _ _ => trivial).mono ?_
  rintro _ s' ⟨hown', hsb, hc, hd, hit⟩
  refine h.of_cur hown' hsb hc hd fun j => ?_
  by_cases hj : j = i
  · subst hj
    have hput : ((s.itable j).put).ref + 1 = (s.itable j).ref := by
      rw [Entry.put]
      split
      · rename_i h1
        rw [h1]
      · change (s.itable j).ref - 1 + 1 = _
        omega
    rw [hit, update_self, count_cons_self]
    omega
  · rw [hit, update_of_ne hj, count_cons_of_ne (Ne.symm hj)]

theorem Has.wp_iunlockput (h : Has base new v (i :: held) s) (hv : Sound v) :
    WP (iunlockput i) AnyPanic (fun _ s' => Has base new v held s') s :=
  .bind (wp_iunlock (h.wp_iput hv))

/-! ## Directories -/

theorem exists_halfword (b₀ b₁ : BitVec 8) : ∃ w : BitVec 16, w.extractLsb' 0 8 = b₀ ∧ w.extractLsb' 8 8 = b₁ := by
  refine ⟨(b₁ ++ b₀ : BitVec (8 + 8)), ?_, ?_⟩
  · exact BitVec.extractLsb'_append_eq_right
  · exact BitVec.extractLsb'_append_eq_left

/-- Bytes that are whole entries. -/
theorem exists_entries {n : Nat} {bs : List (BitVec 8)} (h : bs.length = direntSize * n) :
    ∃ ents : List Dirent, (∀ de ∈ ents, de.name.length = DIRSIZ) ∧ bs = ents.flatMap Dirent.encode := by
  induction n generalizing bs with
  | zero =>
    refine ⟨[], nofun, ?_⟩
    exact length_eq_zero_iff.1 h
  | succ n ih =>
    have hlen : (bs.drop direntSize).length = direntSize * n := by
      rw [length_drop, h, Nat.mul_succ, Nat.add_sub_cancel]
    obtain ⟨ents, hn, hents⟩ := ih hlen
    have h16 : 16 ≤ bs.length := by
      rw [h, Nat.mul_succ]
      exact Nat.le_add_left ..
    match bs, h16 with
    | b₀ :: b₁ :: rest, h16 =>
      obtain ⟨w, hlow, hhigh⟩ := exists_halfword b₀ b₁
      have hname : (rest.take DIRSIZ).length = DIRSIZ := by
        rw [length_take]
        simp only [length_cons] at h16
        simp only [DIRSIZ]
        omega
      refine ⟨⟨w, rest.take DIRSIZ⟩ :: ents, ?_, ?_⟩
      · intro de hde
        rcases mem_cons.1 hde with rfl | hde
        · exact hname
        · exact hn de hde
      · have hrest : rest.drop DIRSIZ = ents.flatMap Dirent.encode := hents
        rw [flatMap_cons, ← hrest, Dirent.encode, hlow, hhigh]
        simp

theorem Has.isDir (h : Has base new v held s) (hv : Sound v) (hi : s.Has dp ip) (ht : ip.type = T_DIR) :
    ∃ ents, IsDir s dp ents := by
  have htype : v.type dp = T_DIR := by rw [← h.type_eq, cur_of_inode hi, ht]
  obtain ⟨n, hn⟩ := hv.dirs dp htype
  rw [← h.content_eq] at hn
  obtain ⟨ents, hnames, hbytes⟩ := exists_entries hn
  exact ⟨ents, h.own, ⟨ip, hi, ht⟩, hnames, hbytes⟩

/-- `dirlookup` panics on what is not a directory. -/
theorem Has.wp_dirlookup_stops (h : Has base new v held s) (hv : Sound v) (hd : ∀ ents, ¬IsDir s dp ents) (name : Name)
    {Q : Option (Nat × Nat) → Fs → Prop} : WP (dirlookup dp name) AnyPanic Q s := by
  unfold dirlookup
  refine .bind (wp_locked fun ip hi => .ite (fun _ => .throw trivial) fun ht => ?_)
  obtain ⟨ents, hdir⟩ := h.isDir hv hi (not_not.1 ht)
  exact absurd hdir (hd ents)

/-- A directory with these bytes has an entry with this name, for the inode `t`. -/
def HasEntry (bs : List (BitVec 8)) (name : Name) (t : Nat) : Prop :=
  ∃ ents j, (∀ de ∈ ents, de.name.length = DIRSIZ) ∧ bs = ents.flatMap Dirent.encode ∧
    slots ents j = some (key name, t)

/-- The bytes of a directory determine its entries. -/
theorem encode_inj {ents ents' : List Dirent} (hn : ∀ de ∈ ents, de.name.length = DIRSIZ)
    (hn' : ∀ de ∈ ents', de.name.length = DIRSIZ) (h : ents.flatMap Dirent.encode = ents'.flatMap Dirent.encode) :
    ents = ents' := by
  have hlen : ents.length = ents'.length := by
    have := congrArg length h
    rw [length_flatMap_encode hn, length_flatMap_encode hn'] at this
    simp only [direntSize] at this
    omega
  refine ext_getElem hlen fun k hk hk' => ?_
  have he := take_drop_encode hn (getElem?_eq_getElem hk)
  have he' := take_drop_encode hn' (getElem?_eq_getElem hk')
  rw [h, he'] at he
  have hd := congrArg Dirent.decode he
  rwa [decode_encode (hn _ (getElem_mem hk)), decode_encode (hn' _ (getElem_mem hk')), eq_comm] at hd

/-- `dirlookup` takes a reference to what it finds. -/
theorem Has.wp_dirlookup (h : Has base new v held s) (hv : Sound v) (name : Name) :
    WP (dirlookup dp name) AnyPanic (fun r s' => Has base new v ((r.map Prod.fst).toList ++ held) s' ∧
      (∀ x, r = some x → v.type dp = T_DIR ∧ HasEntry (v.content dp) name x.1) ∧
      (r = none → ∀ t, ¬HasEntry (v.content dp) name t)) s := by
  by_cases hd : ∃ ents, IsDir s dp ents
  · obtain ⟨ents, hdir⟩ := hd
    refine (hdir.wp_dirlookup name).mono fun r s' hr => ?_
    cases r with
    | none =>
      obtain ⟨rfl, habsent⟩ := hr
      refine ⟨h, nofun, ?_⟩
      rintro - t ⟨ents', j, hn, hbytes, hj⟩
      rw [← h.content_eq, hdir.bytes] at hbytes
      exact habsent j t (encode_inj hdir.names hn hbytes ▸ hj)
    | some r =>
      obtain ⟨rfl, j, -, hj⟩ := hr
      obtain ⟨ip, hi, ht⟩ := hdir.inode
      refine ⟨h.getRef r.1, fun x hx => ?_, nofun⟩
      cases hx
      exact ⟨by rw [← h.type_eq, cur_of_inode hi, ht], ents, j, hdir.names, by rw [← h.content_eq, hdir.bytes], hj⟩
  · exact h.wp_dirlookup_stops hv (not_exists.1 hd) name

end Xv6.Undo
