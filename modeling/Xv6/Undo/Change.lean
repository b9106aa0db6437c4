import Xv6.Undo.View

/-!
# Changes of one inode

What the calls do to inodes before they can fail, and how they undo it: link counts, entries, and the
inode that `create` allocates and frees again.
-/

namespace Xv6.Undo

open Function
open Blocks

variable {base : Base} {b s s' : Fs} {new : Option Nat} {v : View} {held : List Nat} {i dp : Nat} {ip ip' : Dinode}

/-- Another link count goes to the inode in memory and to disk. -/
theorem Has.wp_iupdate (h : Has base new v held s) (ip' : Dinode) (hi : s.Has i ip) (ht : ip'.type = ip.type)
    (hs : ip'.size = ip.size) (ha : ip'.addrs = ip.addrs) :
    WP (iupdate i) AnyPanic (fun _ s' => Has base new (v.set i (v.type i) ip'.nlink (v.content i)) held s' ∧
      s'.Has i ip') (s.setInode i ip') := by
  have hown := wp_update ip' h.own hi ht hs ha
  have hset : ((s.setInode i ip').itable i).inode = some ip' := inode_setInode ..
  have hflush : WP (iupdate i) NotFree (fun _ s' => s' = (s.setInode i ip').flush i ip') (s.setInode i ip') := by
    refine Blocks.wp_iupdate fun ip₂ hi₂ => ?_
    obtain rfl : ip' = ip₂ := Option.some.inj (hset.symm.trans hi₂)
    rfl
  refine ((hown.and hflush).weaken fun _ _ => trivial).mono fun _ s' ⟨hown', hs'⟩ => ?_
  subst hs'
  refine ⟨?_, hset⟩
  have haddr : addrOf ((s.setInode i ip').flush i ip') = addrOf s :=
    (addrOf_flush hset).trans (addrOf_setInode hi ht ha)
  have hcur : cur ((s.setInode i ip').flush i ip') i = ip' := (cur_flush hset i).trans (cur_setInode_self ..)
  have hne : ∀ j, j ≠ i → cur ((s.setInode i ip').flush i ip') j = cur s j := fun j hj =>
    (cur_flush hset j).trans (cur_setInode_ne _ _ hj)
  have hsize : ∀ j, (cur ((s.setInode i ip').flush i ip') j).size = (cur s j).size := by
    intro j
    by_cases hj : j = i
    · subst hj
      rw [hcur, hs, cur_of_inode hi]
    · rw [hne j hj]
  have hcont : ∀ j, content ((s.setInode i ip').flush i ip') j = content s j := fun j =>
    content_congr (hsize j) fun k => by rw [byteAt, byteAt, haddr]; rfl
  have hv := h.change (i := i) held hown' rfl hne (fun j _ => hcont j) (fun j => ?_) (fun _ => ?_)
    fun x _ => .inl (congrFun haddr x)
  · rwa [hcur, hcont, ht, ← cur_of_inode hi, h.type_eq, h.content_eq] at hv
  · have href : ((s.setInode i ip').itable j).ref = (s.itable j).ref := by
      by_cases hj : j = i
      · subst hj
        exact ref_setInode ..
      · have e : (s.setInode i ip').itable j = s.itable j := update_of_ne hj ..
        rw [e]
    change ((s.setInode i ip').itable j).ref + _ = _
    rw [href]
  · rw [hcur, ht, ← cur_of_inode hi, h.type_eq]

theorem Has.wp_addLinks (h : Has base new v held s) (i : Nat) (k : BitVec 16) :
    WP (addLinks i k) AnyPanic (fun _ s' => Has base new (v.set i (v.type i) (v.nlink i + k) (v.content i)) held s') s := by
  unfold addLinks
  refine .bind (wp_locked fun ip hi => .bind (wp_setInode ?_))
  rw [← h.nlink_eq, cur_of_inode hi]
  exact (h.wp_iupdate { ip with nlink := ip.nlink + k } hi rfl rfl rfl).mono fun _ _ h' => h'.1

/-! ## Entries -/

/-- There is a place for another entry. -/
def Takes (fs : Fs) (dp : Nat) : Prop :=
  ∃ ents, (∀ de ∈ ents, de.name.length = DIRSIZ) ∧ content fs dp = ents.flatMap Dirent.encode ∧
    ((∃ j, j < ents.length ∧ slots ents j = none) ∨ ¬Full fs dp ents)

theorem takes_iff {ents : List Dirent} (h : IsDir s dp ents) :
    Takes s dp ↔ (∃ j, j < ents.length ∧ slots ents j = none) ∨ ¬Full s dp ents := by
  refine ⟨?_, fun hroom => ⟨ents, h.names, h.bytes, hroom⟩⟩
  rintro ⟨ents', hn, hbytes, hroom⟩
  rwa [encode_inj h.names hn (h.bytes.symm.trans hbytes)]

/-- A written entry. -/
theorem Has.put {ents ents' : List Dirent} {j : Nat} {de : Dirent} {r : Int} (h : Has ⟨b, True⟩ new v held s)
    (hp : Put s dp ents j de r s') (hdir : IsDir s' dp ents') (hfail : new = some dp ∨ r ≠ direntSize)
    (hd : v.type dp = T_DIR) : Has ⟨b, True⟩ new (v.set dp (v.type dp) (v.nlink dp) (ents'.flatMap Dirent.encode)) held s' := by
  obtain ⟨ip, hi, hrew⟩ := hp.rewritten
  obtain ⟨addrs, size, hi'⟩ := hrew.inode
  have hcur : cur s' dp = { ip with addrs, size } := cur_of_inode hi'
  have hold : cur s dp = ip := cur_of_inode hi
  have hty : (cur s' dp).type = v.type dp := by rw [hcur, ← h.type_eq, hold]
  have hset := h.change (i := dp) held hdir.own hrew.sb (fun k hk => ?_) hp.others (fun k => ?_) (fun _ => hty)
    fun x hx => ?_
  · rwa [hty, hdir.bytes, hcur, ← hold, h.nlink_eq] at hset
  · rw [cur, cur, hrew.itable k hk, hrew.dinode k hk]
  · by_cases hk : k = dp
    · subst hk
      rw [hrew.ref]
    · rw [hrew.itable k hk]
  · by_cases hxd : x.inum = dp
    · -- Only a failed write may be to a directory that is not new.
      have hr : r ≠ direntSize := hfail.resolve_left fun e => hx (by rw [hxd, e])
      by_cases hind : x = .indirect dp
      · by_cases h0 : addrOf s x = 0
        · rcases h.addrs x hx with e | e
          · refine .inr ⟨trivial, by rw [hxd, hind], e.symm.trans h0, ?_⟩
            rw [h.types x.inum hx, hxd, hd]
          · exact .inr e
        · exact .inl (hp.addrs.filled x h0)
      · exact .inl (hp.addrs.failed hr x hind)
    · exact .inl (hp.addrs.others x hxd)

/-- `dirlink` to a directory; the entry matters only if the directory is new. -/
theorem Has.wp_dirlink (h : Has ⟨b, True⟩ new v held s) (hv : Sound v) (dp : Nat) (name : Name) (t : Nat) :
    WP (dirlink dp name t) AnyPanic (fun r s' => (r < 0 → Has ⟨b, True⟩ new v held s') ∧
      (new = some dp → ∃ c, direntSize ∣ c.length ∧ Has ⟨b, True⟩ new (v.set dp (v.type dp) (v.nlink dp) c) held s') ∧
      ((∀ t, ¬HasEntry (v.content dp) name t) → (r < 0 ↔ ¬Takes s dp))) s := by
  by_cases hd : ∃ ents, IsDir s dp ents
  · obtain ⟨ents, hdir⟩ := hd
    obtain ⟨ip, hi, ht⟩ := hdir.inode
    have htype : v.type dp = T_DIR := by rw [← h.type_eq, cur_of_inode hi, ht]
    have hbytes : ents.flatMap Dirent.encode = v.content dp := by rw [← h.content_eq, hdir.bytes]
    have hold : ∀ {s'}, Has ⟨b, True⟩ new v held s' → ∃ c, direntSize ∣ c.length ∧
        Has ⟨b, True⟩ new (v.set dp (v.type dp) (v.nlink dp) c) held s' := fun h' =>
      ⟨v.content dp, hv.dirs dp htype, by rw [View.set_self]; exact h'⟩
    refine (hdir.wp_dirlink name t).mono fun r s' hl => ?_
    rw [takes_iff hdir]
    cases hl with
    | present hj => exact ⟨fun _ => h, fun _ => hold h, fun hno => absurd ⟨ents, _, hdir.names, hbytes.symm, hj⟩ (hno _)⟩
    | full _ hr hfull hput =>
      have hdir' := hput.dir
      rw [if_neg hr] at hdir'
      have hset := h.put hput hdir'.1 (.inr hr) htype
      rw [hbytes, View.set_self] at hset
      refine ⟨fun _ => hset, fun _ => hold hset, fun _ => iff_of_true (by decide) ?_⟩
      rintro (⟨k, hk, hnone⟩ | hroom)
      · exact hfull k hk hnone
      · exact hroom hdir'.2.2
    | linked _ hj hnone hput =>
      refine ⟨fun h0 => absurd h0 (by decide), fun hnew => ?_, fun _ => iff_of_false (by decide) (not_not.2 ?_)⟩
      · have hdir' := hput.dir
        rw [if_pos rfl] at hdir'
        refine ⟨_, ?_, h.put hput hdir' (.inl hnew) htype⟩
        rw [← hdir'.bytes, length_content]
        obtain ⟨ip', hi', -⟩ := hdir'.inode
        rw [cur_of_inode hi', hdir'.size hi']
        exact Nat.dvd_mul_right ..
      · exact (Nat.lt_or_eq_of_le hj).imp (fun hlt => ⟨_, hlt, hnone⟩) (hput.fits rfl)
  · unfold dirlink
    exact .bind (h.wp_dirlookup_stops hv (not_exists.1 hd) name)

/-! ## A new inode -/

/-- The inode that `ialloc` writes. -/
def blankInode (type : BitVec 16) : Dinode :=
  { type, major := 0, minor := 0, nlink := 0, size := 0, addrs := fun _ => 0 }

/-- Inode `i` is not that of the earlier state. -/
theorem Has.renew (h : Has base none v held s) (i : Nat) : Has base (some i) v held s :=
  { h with types := fun j _ => h.types j nofun, addrs := fun x _ => h.addrs x nofun }

/-- The number of inodes that `ialloc` could take. -/
def freeInodes (fs : Fs) : Nat :=
  ((List.range fs.sb.ninodes).filter fun i => 1 ≤ i ∧ (fs.dinode i).type = 0).length

/-- The blocks of all inodes are the same. -/
structure SameBlocks (fs fs' : Fs) : Prop where
  addr : addrOf fs' = addrOf fs
  free : fs'.freeCount = fs.freeCount

theorem SameBlocks.trans {s₁ s₂ : Fs} (h : SameBlocks s s₁) (h' : SameBlocks s₁ s₂) : SameBlocks s s₂ :=
  ⟨h'.addr.trans h.addr, h'.free.trans h.free⟩

theorem SameBlocks.takes (h : SameBlocks s s') (hc : content s' dp = content s dp) : Takes s' dp ↔ Takes s dp := by
  simp only [Takes, Full, missing, h.addr, h.free, hc]

theorem Has.wp_ialloc (h : Has base none v held s) (type : BitVec 16) :
    WP (ialloc type) AnyPanic (fun r s' => match r with
      | none => s' = s ∧ freeInodes s = 0
      | some i => v.type i = 0 ∧ Has base (some i) (v.set i type 0 []) (i :: held) s' ∧ SameBlocks s s' ∧ 0 < freeInodes s)
      s := by
  have hown := (Keeps.ialloc : Keeps (ialloc type)) s h.own
  have hrun : WP (ialloc type) AnyPanic (fun r s' => match r with
      | none => s' = s ∧ freeInodes s = 0
      | some i => (s.dinode i).type = 0 ∧ s' = (s.flush i (blankInode type)).getRef i ∧ 0 < freeInodes s) s := by
    unfold ialloc
    refine .bind (.get ?_)
    split
    · rename_i i hf
      have h0 := List.find?_some hf
      have hfree : 0 < freeInodes s := List.length_filter_pos_iff.2 ⟨i, List.mem_of_find?_eq_some hf, h0⟩
      simp only [decide_eq_true_eq] at h0
      exact .bind (.modify (.bind (.modify (.pure ⟨h0.2, rfl, hfree⟩))))
    · rename_i hf
      exact .pure ⟨rfl, List.length_eq_zero_iff.2 (List.filter_eq_nil_iff.2 (List.find?_eq_none.1 hf))⟩
  refine ((hown.and hrun).weaken fun _ _ => trivial).mono fun r s' ⟨hown', hs'⟩ => ?_
  cases r with
  | none => exact hs'
  | some i =>
    obtain ⟨h0, hs', hfree⟩ := hs'
    obtain ⟨hnone, hsame⟩ := addrOf_ialloc h.own h0 (blankInode type) fun _ => rfl
    have hself : s'.itable i = (s.itable i).get := by
      rw [hs']
      exact update_self ..
    have hother : ∀ j, j ≠ i → s'.itable j = s.itable j := fun j hj => by
      rw [hs']
      exact update_of_ne hj ..
    have hnew : cur s' i = blankInode type := by
      rw [cur, hself, h.own.get_inode, hnone, hs']
      exact update_self ..
    have hcur : ∀ j, j ≠ i → cur s' j = cur s j := by
      intro j hj
      have hd : s'.dinode j = s.dinode j := by
        rw [hs']
        exact update_of_ne hj ..
      rw [cur, hother j hj, hd, cur]
    have haddr : addrOf s' = addrOf s := by
      rw [← hsame]
      funext x
      have hx : cur s' x.inum = cur { s with dinode := update s.dinode i (blankInode type) } x.inum := by
        by_cases hj : x.inum = i
        · rw [hj, hnew, cur, hnone]
          exact (update_self i (blankInode type) s.dinode).symm
        · rw [hcur _ hj, cur, cur]
          exact congrArg _ (update_of_ne hj ..).symm
      rw [addrOf, hx, addrOf, hs']
      rfl
    have hcont : ∀ j, j ≠ i → content s' j = content s j := by
      intro j hj
      refine content_congr (by rw [hcur j hj]) fun k => ?_
      rw [byteAt, haddr, byteAt, hs']
      rfl
    have href : ∀ j, (s'.itable j).ref + held.count j =
        (s.itable j).ref + (i :: held).count j := by
      intro j
      by_cases hj : j = i
      · subst hj
        rw [hself, Entry.ref_get, List.count_cons_self]
        omega
      · rw [hother j hj, List.count_cons_of_ne (Ne.symm hj)]
    have hset := (h.renew i).change _ hown' (by rw [hs']; rfl) hcur hcont href (fun hne => absurd rfl hne) fun x _ =>
      .inl (congrFun haddr x)
    have hempty : content s' i = [] := by
      rw [content, hnew]
      rfl
    rw [hnew, hempty] at hset
    refine ⟨?_, hset, ⟨haddr, by rw [hs']; rfl⟩, hfree⟩
    rw [← h.type_eq, cur, hnone]
    exact h0

/-! ## Freeing -/

/-- The new inode is gone: nothing but the earlier inodes is left. -/
theorem Has.close (h : Has base (some i) v held s) (hb : (cur base.fs i).type = 0) (hv : v.type i = 0) :
    Has base none v held s := by
  refine ⟨h.own, h.sb, h.view, fun j _ => ?_, fun x _ => ?_⟩
  · by_cases hj : j = i
    · rw [hj, hb, hv]
    · exact h.types j fun e => hj (Option.some.inj e)
  · by_cases hx : x.inum = i
    · have hs : (cur s x.inum).type = 0 := by rw [h.type_eq, hx, hv]
      have hbase : (cur base.fs x.inum).type = 0 := by rw [hx, hb]
      refine .inl ?_
      rw [addrOf, addrOf]
      cases x <;> simp only [inodeAddr, hs, hbase, ne_eq, not_true_eq_false, false_and, if_false]
    · exact h.addrs x fun e => hx (Option.some.inj e)

/-- `iput` of the only reference to the new inode, which has no links, frees it. -/
theorem Has.wp_iput_new (h : Has base (some i) v (i :: held) s) (hi : s.Has i ip) (hn : v.nlink i = 0)
    (hr : v.ref i = 0) (hh : held.count i = 0) (hb : (cur base.fs i).type = 0) :
    WP (iput i) AnyPanic (fun _ s' => Has base none (v.set i 0 0 []) held s') s := by
  have hown := (Keeps.iput : Keeps (iput i)) s h.own
  have hnl : ip.nlink = 0 := by rw [← hn, ← h.nlink_eq, cur_of_inode hi]
  have href : (s.itable i).ref = 1 := by rw [h.ref_eq, hr, List.count_cons_self, hh]
  have hfreed : WP (iput i) AnyPanic (fun _ s' => InodeFreed i ip s s') s := wp_iput_freed h.own hi hnl href
  refine ((hown.and hfreed).weaken fun _ _ => trivial).mono fun _ s' ⟨hown', hf⟩ => ?_
  obtain ⟨addrs, -, hdin⟩ := hf.inode
  have hcur : ∀ j, j ≠ i → cur s' j = cur s j := fun j hj => by rw [cur, cur, hf.itable j hj, hf.dinode j hj]
  have haddr : ∀ x : Slot, x.inum ≠ i → addrOf s' x = addrOf s x := fun x hx => by
    rw [addrOf, addrOf, hcur x.inum hx, hf.data]
  have hcont : ∀ j, j ≠ i → content s' j = content s j := fun j hj =>
    content_congr (by rw [hcur j hj]) fun k => by
      rw [byteAt, byteAt, haddr _ (by rw [slotAt_inum]; exact hj), hf.data]
  have hnew : cur s' i = { ip with type := 0, size := 0, addrs } := by
    rw [cur, hf.entry, ← hdin]
    rfl
  have hempty : content s' i = [] := by
    rw [content, hnew]
    rfl
  have hset := h.change held hown' hf.sb hcur hcont (fun j => ?_) (fun hne => absurd rfl hne) fun x hx =>
    .inl (haddr x fun e => hx (by rw [e]))
  · rw [hempty, hnew, hnl] at hset
    exact hset.close hb (update_self ..)
  · by_cases hj : j = i
    · subst hj
      rw [hf.entry, href, List.count_cons_self]
      dsimp only
      omega
    · rw [hf.itable j hj, List.count_cons_of_ne (Ne.symm hj)]

end Xv6.Undo
