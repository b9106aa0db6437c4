import Xv6.Reclaim.Refine

/-!
# One round of `ireclaim`

`wp_reclaim`: for an orphan other than the root a round runs one transaction, which frees the inode and
its blocks and changes nothing else outside the log; for any other inode it changes nothing.
-/

namespace Xv6.Reclaim

open Function
open Log
open Blocks

variable {sb : Superblock} {u u' : Disk} {k : Nat} {fs : Fs} {m : Mem} {J : Job}

/-! ## Images -/

theorem image_of_own (hown : Own none fs) (hsb : fs.sb = (fsOf sb u).sb) (hused : fs.used = (fsOf sb u).used)
    (hdin : fs.dinode = (fsOf sb u).dinode) (hdata : ∀ a, Home sb a → fs.data a.toNat = u a) : Image sb u := by
  have haddr : Blocks.diskAddr (fsOf sb u) = Blocks.addrOf fs := by
    funext x
    rw [← hown.diskAddr, Blocks.diskAddr, Blocks.diskAddr, ← hdin]
    refine inodeAddr_congr fun ht ha => ?_
    have hind : Blocks.addrOf fs (.indirect x.inum) = ((fs.dinode x.inum).addrs NDIRECT).toNat := by
      rw [← hown.diskAddr]
      exact if_pos ht
    have hown' := hown.owned
    rw [hsb] at hown'
    rw [hdata _ (home_of_owned hown' ha hind)]
    change u (BitVec.ofNat 32 _) = _
    rw [BitVec.ofNat_toNat, BitVec.setWidth_eq]
  have hcur : ∀ i, cur fs i = fs.dinode i := by
    intro i
    cases hi : (fs.itable i).inode with
    | none => rw [cur, hi]; rfl
    | some ip => rw [Blocks.cur_of_inode hi, (hown.valid i ip (by simp) hi).2.2]
  refine ⟨fun _ => rfl, ?_, ?_, ?_, fun i ht => ?_⟩
  · rw [haddr, ← hused, ← hsb]
    exact hown.owned
  · rw [← hused, ← hsb]
    exact hown.metadata
  · rw [← hsb]
    exact hown.size
  · rw [← hdin] at ht ⊢
    have hf := hown.filled i (by simp)
    rw [Blocks.Filled, hcur] at hf
    rw [haddr]
    exact hf ht

theorem Image.congr (hL : Layout sb) (h : Image sb u) (hu : ∀ b, ¬InLog sb.logstart b → u' b = u b) : Image sb u' := by
  have hinode : ∀ i, InArea sb i → imageInode sb u' i = imageInode sb u i := fun i hi => by
    rw [imageInode, hu _ (hL.iblock_notInLog hi), imageInode]
  refine image_of_own h.own rfl ?_ ?_ fun a ha => ?_
  · funext b
    change (_ && imageBit sb u b) = (_ && imageBit sb u' b)
    rw [imageBit, imageBit, hu _ hL.bmap_notInLog]
  · funext i
    change (if i < _ then imageInode sb u i else noInode) = if i < _ then imageInode sb u' i else noInode
    split
    · rename_i hi
      rw [hinode i (hL.inArea hi)]
    · rfl
  · rw [hu a (ha.notInLog hL)]
    change u (BitVec.ofNat 32 _) = _
    rw [BitVec.ofNat_toNat, BitVec.setWidth_eq]

/-! ## The inode is freed -/

/-- The file system with a locked reference to the inode `k`. -/
def heldFs (sb : Superblock) (u : Disk) (k : Nat) : Fs :=
  { fsOf sb u with itable := update (fsOf sb u).itable k ⟨1, some (imageInode sb u k)⟩ }

theorem held_entry : (heldFs sb u k).itable k = ⟨1, some (imageInode sb u k)⟩ := update_self ..

theorem dinode_fsOf (hk : k < sb.ninodes.toNat) : (fsOf sb u).dinode k = imageInode sb u k := if_pos hk

theorem used_fsOf {b : Nat} (hb : b < sb.size.toNat) : (fsOf sb u).used b = imageBit sb u b := by
  change (decide (b < sb.size.toNat) && imageBit sb u b) = _
  rw [decide_eq_true hb, Bool.true_and]

theorem own_held (hu : Image sb u) (hk : k < sb.ninodes.toNat) (ht : (imageInode sb u k).type ≠ 0) :
    Own none (heldFs sb u k) := by
  have hown := hu.own
  refine (hown.dirty k).of_entry (hown.filled k nofun) (dinode_fsOf hk).symm fun ip hi => ?_
  cases hi
  exact ⟨Nat.one_pos, ht, dinode_fsOf hk⟩

/-- The file system after the reference is dropped. -/
def dropped (fs : Fs) (k : Nat) : Fs := { fs with itable := update fs.itable k (fs.itable k).put }

theorem free_run (hu : Image sb u) (hk : k < sb.ninodes.toNat) (ht : (imageInode sb u k).type ≠ 0)
    (hn : (imageInode sb u k).nlink = 0) : ∃ fs, discardFs k (heldFs sb u k) = .ok ((), fs) ∧
      InodeFreed k (imageInode sb u k) (heldFs sb u k) (dropped fs k) ∧ Own none (dropped fs k) := by
  have hown := own_held hu hk ht
  have hi : ((heldFs sb u k).itable k).inode = some (imageInode sb u k) := by rw [held_entry]
  have hr : ((heldFs sb u k).itable k).ref = 1 := by rw [held_entry]
  have hw : WP (Blocks.iput k) (fun _ => False)
      (fun _ s' => Own none s' ∧ InodeFreed k (imageInode sb u k) (heldFs sb u k) s') (heldFs sb u k) :=
    (((Blocks.Keeps.iput : Blocks.Keeps (Blocks.iput k)) _ hown).and
      (Blocks.wp_iput_freed hown hi hn hr : WP _ (fun _ => False) _ _)).weaken fun _ h => h.2
  obtain ⟨_, s', hrun, hown', hfreed⟩ := hw.total
  have hifree : Blocks.ifree k (heldFs sb u k) = discardFs k (heldFs sb u k) := by
    have hc : ((heldFs sb u k).itable k).ref = 1 ∧ (imageInode sb u k).nlink = 0 := ⟨hr, hn⟩
    simp only [Blocks.ifree, bind, StateT.bind, get, getThe, MonadStateOf.get, StateT.get, Except.bind, pure,
      Except.pure, hi, if_pos hc, discardFs]
  have hput : Blocks.iput k (heldFs sb u k) = (Blocks.ifree k (heldFs sb u k)).bind fun p =>
      .ok ((), dropped p.2 k) := rfl
  rw [hput, hifree] at hrun
  cases hp : discardFs k (heldFs sb u k) with
  | error e =>
    rw [hp] at hrun
    cases hrun
  | ok p =>
    rw [hp] at hrun
    cases hrun
    exact ⟨p.2, rfl, hfreed, hown'⟩

/-- What the transaction sees at its end is the image with the inode freed. -/
theorem Job.Rel.reclaimed (hJ : J.Ok) (hu : Image J.sb J.image) (ht : (imageInode J.sb J.image J.inum).type ≠ 0)
    (h : J.Rel fs m) (hf : InodeFreed J.inum (imageInode J.sb J.image J.inum) (heldFs J.sb J.image J.inum)
      (dropped fs J.inum)) (hown : Own none (dropped fs J.inum)) :
    Reclaimed J.sb J.image (· = J.inum) (seen m) ∧ Image J.sb (seen m) := by
  have hL := hJ.layout
  have hheld := own_held hu hJ.inum ht
  have haddr : Blocks.diskAddr (fsOf J.sb J.image) = Blocks.addrOf (heldFs J.sb J.image J.inum) := by
    rw [← hheld.diskAddr]
    rfl
  have hinode : ∀ i, i < J.sb.ninodes.toNat → imageInode J.sb (seen m) i = (dropped fs J.inum).dinode i := by
    intro i hi
    change _ = fs.dinode i
    rw [h.dinode, dinode_fsOf hi]
  have hother : ∀ i, InArea J.sb i → i ≠ J.inum → imageInode J.sb (seen m) i = imageInode J.sb J.image i := by
    intro i hi hne
    by_cases hlt : i < J.sb.ninodes.toNat
    · rw [hinode i hlt, hf.dinode i hne]
      exact dinode_fsOf hlt
    · exact h.rest i hi (Nat.le_of_not_lt hlt)
  have hbit : ∀ b, b < J.sb.size.toNat → imageBit J.sb (seen m) b = (dropped fs J.inum).used b := by
    intro b hb
    change _ = fs.used b
    rw [h.used, used_fsOf hb]
  have hbit' : ∀ b, b < J.sb.size.toNat → imageBit J.sb J.image b = (heldFs J.sb J.image J.inum).used b :=
    fun b hb => (used_fsOf hb).symm
  refine ⟨⟨?_, hother, ?_, ?_, fun b hb hi hlog => ?_⟩, ?_⟩
  · rintro i hi rfl
    obtain ⟨addrs, hz, hd⟩ := hf.inode
    have hs : Short (imageInode J.sb (seen m) J.inum) := getDinode_short _ _
    rw [hinode _ hJ.inum, hd] at hs ⊢
    have haddrs : addrs = fun _ => 0 := by
      funext k
      by_cases hk : k ≤ NDIRECT
      · exact hz k hk
      · exact hs k (Nat.lt_of_not_le hk)
    rw [haddrs]
    rfl
  · rintro b - ⟨_, rfl, hb0, x, hx, hxb⟩
    rw [haddr] at hxb
    subst hxb
    rw [hbit _ (hheld.owned.range x hb0).2]
    exact hf.used_slot hheld hown hx hb0
  · intro b hB hnot
    rcases Nat.lt_or_ge b J.sb.size.toNat with hlt | hge
    · rw [hbit b hlt, hbit' b hlt]
      refine hf.used_ne hheld hown hlt fun x hx hxb => ?_
      by_contra hb0
      exact hnot ⟨_, rfl, hb0, x, hx, by rw [haddr]; exact hxb⟩
    · exact h.high b hge hB
  · exact h.others b (by rintro (rfl | rfl); exacts [hb rfl, hi _ (hL.inArea hJ.inum) rfl]) hlog
  · refine image_of_own hown hf.sb h.used h.dinode fun a ha => ?_
    change fs.data a.toNat = _
    rw [h.data, h.others a (ha.notWrites hJ) (ha.notInLog hL)]
    change J.image (BitVec.ofNat 32 _) = _
    rw [BitVec.ofNat_toNat, BitVec.setWidth_eq]

/-! ## The round -/

/-- The entry of the working directory of the process that boots. -/
def rootEntry : Fin NINODE := ⟨0, by decide⟩

/-- The table of in-memory inodes between rounds. -/
structure Quiet (tab : Fin NINODE → Inode) : Prop where
  root : ∃ copy, tab rootEntry = ⟨ROOTINO, 1, copy, false⟩
  free : ∀ e, e ≠ rootEntry → (tab e).ref = 0 ∧ (tab e).locked = false

/-- The machine between rounds, with the image `u` on disk. -/
structure Between (sb : Superblock) (u : Disk) (m : Mem) : Prop where
  idle : Idle m.log
  start : m.log.start = sb.logstart
  disk : ∀ b, ¬InLog sb.logstart b → m.log.disk b = u b
  table : Quiet m.itable

/-- `ireclaim` does not panic. -/
abbrev NoPanic : Panic → Prop := fun _ => False

theorem Between.seen_eq (h : Between sb u m) {b : Blockno} (hb : ¬InLog sb.logstart b) : seen m b = u b := by
  rw [seen, Log.bread, h.idle.dirty]
  exact h.disk b hb

theorem wp_onLog {E : Panic → Prop} {Q : Unit → Mem → Prop} {f : LogState → Option LogState} {e : Panic} {l : LogState}
    (h : f m.log = some l) (hq : Q () { m with log := l }) : WP (onLog f e) E Q m := by
  unfold WP
  rw [onLog_run h]
  exact hq

theorem wp_iget_free {E : Panic → Prop} {Q : Fin NINODE → Mem → Prop} (ht : Quiet m.itable) (hk : k ≠ ROOTINO)
    (hq : ∀ e, e ≠ rootEntry → Q e { m with itable := update m.itable e ⟨k, 1, none, false⟩ }) :
    WP (iget k) E Q m := by
  obtain ⟨copy, hroot⟩ := ht.root
  have hnone : (List.finRange NINODE).find? (fun i => 0 < (m.itable i).ref ∧ (m.itable i).inum = k) = none := by
    refine List.find?_eq_none.2 fun e _ hc => ?_
    rw [decide_eq_true_eq] at hc
    by_cases he : e = rootEntry
    · rw [he, hroot] at hc
      exact hk hc.2.symm
    · have := (ht.free e he).1
      omega
  obtain ⟨e, he⟩ : ∃ e, (List.finRange NINODE).find? (fun i => decide ((m.itable i).ref = 0)) = some e := by
    refine Option.isSome_iff_exists.1 (List.find?_isSome.2 ⟨⟨1, by decide⟩, List.mem_finRange _, ?_⟩)
    exact decide_eq_true (ht.free _ (by decide)).1
  have hne : e ≠ rootEntry := by
    rintro rfl
    have h0 := List.find?_some he
    rw [decide_eq_true_eq, hroot] at h0
    cases h0
  unfold iget
  refine .bind (.get ?_)
  dsimp only
  rw [hnone, he]
  refine .bind (.modify (.pure ?_))
  have hlock := (ht.free e hne).2
  have hentry : (⟨k, 1, none, (m.itable e).locked⟩ : Inode) = ⟨k, 1, none, false⟩ := by rw [hlock]
  have hres := hq e hne
  rw [← hentry] at hres
  exact hres

theorem wp_iget_root {E : Panic → Prop} {Q : Fin NINODE → Mem → Prop} (ht : Quiet m.itable) {copy : Option Dinode}
    (hroot : m.itable rootEntry = ⟨ROOTINO, 1, copy, false⟩)
    (hq : ∀ e, e = rootEntry → Q e { m with itable := update m.itable e ⟨ROOTINO, 2, copy, false⟩ }) :
    WP (iget ROOTINO) E Q m := by
  have hfind : (List.finRange NINODE).find? (fun i => 0 < (m.itable i).ref ∧ (m.itable i).inum = ROOTINO) =
      some rootEntry := by
    have hsome : 0 < (m.itable rootEntry).ref ∧ (m.itable rootEntry).inum = ROOTINO := by
      rw [hroot]
      exact ⟨Nat.one_pos, rfl⟩
    obtain ⟨e, he⟩ : ∃ e, (List.finRange NINODE).find?
        (fun i => decide (0 < (m.itable i).ref ∧ (m.itable i).inum = ROOTINO)) = some e :=
      Option.isSome_iff_exists.1 (List.find?_isSome.2 ⟨rootEntry, List.mem_finRange _, decide_eq_true hsome⟩)
    have hc := List.find?_some he
    rw [decide_eq_true_eq] at hc
    obtain rfl : e = rootEntry := by
      by_contra hne
      have := (ht.free e hne).1
      omega
    exact he
  unfold iget
  refine .bind (.get ?_)
  dsimp only
  rw [hfind]
  refine .bind (.modify (.pure ?_))
  rw [hroot]
  exact hq _ rfl

variable {e : Fin NINODE} {ip : Dinode} {r : Nat} {copy : Option Dinode} {E : Panic → Prop} {Q : Unit → Mem → Prop}

theorem entry_self (tab : Fin NINODE → Inode) (e : Fin NINODE) (x : Inode) : update tab e x e = x := update_self ..

theorem wp_acquiresleep (he : m.itable e = ⟨k, r, copy, false⟩)
    (hq : Q () { m with itable := update m.itable e ⟨k, r, copy, true⟩ }) : WP (acquiresleep e) E Q m := by
  unfold acquiresleep
  refine .bind (.get ?_)
  dsimp only
  rw [he, if_neg Bool.false_ne_true]
  exact .modify hq

theorem Quiet.of_update {tab : Fin NINODE → Inode} (he : e = rootEntry)
    (hfree : ∀ e', e' ≠ e → (tab e').ref = 0 ∧ (tab e').locked = false) :
    Quiet (update tab e ⟨ROOTINO, 1, copy, false⟩) := by
  subst he
  refine ⟨⟨copy, entry_self ..⟩, fun e' he' => ?_⟩
  rw [update_of_ne he']
  exact hfree e' he'

/-- `ilock` of an allocated inode. -/
theorem wp_ilock (he : m.itable e = ⟨k, r, copy, false⟩) (hr : 1 ≤ r) (ht : (imageInode sb (seen m) k).type ≠ 0)
    (hq : Q () { m with itable := update m.itable e ⟨k, r, some (copy.getD (imageInode sb (seen m) k)), true⟩ }) :
    WP (ilock sb e) E Q m := by
  unfold ilock
  refine .bind (.get (.ite (fun hlt => ?_) fun _ => .bind ?_))
  · rw [he] at hlt
    dsimp only at hlt
    omega
  refine wp_acquiresleep he (.bind (.get ?_))
  dsimp only
  rw [update_self, load]
  cases copy with
  | some ip => exact .pure hq
  | none =>
    refine .bind (.bind (.get (.pure (.bind (.bind (.get (.modify ?_)))))))
    refine .ite (fun h0 => absurd h0 ht) fun _ => .pure ?_
    dsimp only
    rw [update_self, Function.update_idem]
    exact hq

theorem wp_iunlock (he : m.itable e = ⟨k, r, copy, true⟩) (hr : 1 ≤ r)
    (hq : Q () { m with itable := update m.itable e ⟨k, r, copy, false⟩ }) : WP (iunlock e) E Q m := by
  unfold iunlock
  refine .bind (.get ?_)
  dsimp only
  rw [he]
  refine .ite (fun hc => ?_) fun _ => .bind (.get (.modify ?_))
  · dsimp only at hc
    rcases hc with hc | hc
    · cases hc
    · omega
  · rw [he]
    exact hq

/-- `iput` of a reference that is not the last. -/
theorem wp_iput_shared (he : m.itable e = ⟨k, r, copy, false⟩) (hr : r ≠ 1)
    (hq : Q () { m with itable := update m.itable e ⟨k, r - 1, copy, false⟩ }) : WP (iput sb e) E Q m := by
  unfold iput
  have hfree : WP (ifree sb e) E (fun _ m' => m' = m) m := by
    unfold ifree
    refine .bind (.get ?_)
    dsimp only
    rw [he]
    cases copy with
    | none => exact .pure rfl
    | some ip => exact .ite (fun hc => absurd hc.1 hr) fun _ => .pure rfl
  refine .bind (hfree.mono fun _ m' hm => ?_)
  subst hm
  refine .bind (.get (.modify ?_))
  rw [he]
  exact hq

theorem ref_put (en : Blocks.Entry) : en.put.ref = en.ref - 1 := by
  rw [Blocks.Entry.put]
  split
  · rename_i h
    rw [h]
  · rfl

/-- At the start of the transaction. -/
theorem Job.Ok.rel_held (hJ : J.Ok) (hu : Image J.sb J.image) (ht : (imageInode J.sb J.image J.inum).type ≠ 0)
    (hdisk : ∀ b, ¬InLog J.sb.logstart b → J.log.disk b = J.image b) (hin : InTx J.log [] m.log)
    (hst : Started J.log [] m.log) (he : m.itable J.entry = ⟨J.inum, 1, some (imageInode J.sb J.image J.inum), true⟩)
    (htab : ∀ e, e ≠ J.entry → m.itable e = J.table e) : J.Rel (heldFs J.sb J.image J.inum) m := by
  have hL := hJ.layout
  have hseen : ∀ b, ¬InLog J.sb.logstart b → seen m b = J.image b := fun b hb => (hin.data b).trans (hdisk b hb)
  have hinode : ∀ i, InArea J.sb i → imageInode J.sb (seen m) i = imageInode J.sb J.image i := fun i hi => by
    rw [imageInode, hseen _ (hL.iblock_notInLog hi), imageInode]
  have hbit : ∀ b, imageBit J.sb (seen m) b = imageBit J.sb J.image b := fun b => by
    rw [imageBit, hseen _ hL.bmap_notInLog, imageBit]
  refine ⟨⟨[], by simp, hin, hst⟩, ?_, ?_, rfl, fun b _ _ => hbit b, fun i hi _ => hinode i hi,
    fun b _ hlog => hseen b hlog, ?_, htab, fun ip hi => ?_⟩
  · funext b
    change (_ && imageBit J.sb J.image b) = (_ && imageBit J.sb (seen m) b)
    rw [hbit]
  · funext i
    change (if i < _ then imageInode J.sb J.image i else noInode) = if i < _ then imageInode J.sb (seen m) i else noInode
    split
    · rename_i hi
      rw [hinode i (hL.inArea hi)]
    · rfl
  · rw [he, held_entry]
  · rw [held_entry] at hi
    cases hi
    refine ⟨getDinode_short _ _, fun ha => ?_⟩
    have hind : Blocks.diskAddr (fsOf J.sb J.image) (.indirect J.inum) =
        ((imageInode J.sb J.image J.inum).addrs NDIRECT).toNat := by
      rw [← dinode_fsOf hJ.inum] at ht ⊢
      exact if_pos ht
    exact home_of_owned hu.owned ha hind

/-- `iput` of the only reference to an orphan. -/
theorem wp_iput_last (hJ : J.Ok) (hu : Image J.sb J.image) (ht : (imageInode J.sb J.image J.inum).type ≠ 0)
    (hn : (imageInode J.sb J.image J.inum).nlink = 0)
    (hdisk : ∀ b, ¬InLog J.sb.logstart b → J.log.disk b = J.image b) (hin : InTx J.log [] m.log)
    (hst : Started J.log [] m.log) (he : m.itable J.entry = ⟨J.inum, 1, some (imageInode J.sb J.image J.inum), false⟩)
    (htab : ∀ e, e ≠ J.entry → m.itable e = J.table e)
    (hq : ∀ m' tx, (∀ w ∈ tx, J.Writes w.1) → InTx J.log tx m'.log → Started J.log tx m'.log →
      Reclaimed J.sb J.image (· = J.inum) (seen m') → Image J.sb (seen m') →
      m'.itable J.entry = ⟨J.inum, 0, none, false⟩ → (∀ e, e ≠ J.entry → m'.itable e = J.table e) → Q () m') :
    WP (iput J.sb J.entry) E Q m := by
  obtain ⟨fs, hrun, hf, hown⟩ := free_run hu hJ.inum ht hn
  unfold iput
  refine .bind ?_
  unfold ifree
  refine .bind (.get ?_)
  dsimp only
  rw [he]
  refine .ite (fun _ => .bind (wp_acquiresleep he (.bind ?_))) fun hc => absurd ⟨rfl, hn⟩ hc
  have hrel : J.Rel (heldFs J.sb J.image J.inum)
      ⟨m.log, update m.itable J.entry ⟨J.inum, 1, some (imageInode J.sb J.image J.inum), true⟩⟩ :=
    hJ.rel_held hu ht hdisk hin hst (update_self ..) fun e he =>
      (update_of_ne he ..).trans (htab e he)
  refine (sim_discard hJ hrel).wp hrun fun m' h' => ?_
  have href : (fs.itable J.inum).ref - 1 = 0 := by
    have hentry : (fs.itable J.inum).put = ⟨0, none⟩ := (update_self ..).symm.trans hf.entry
    rw [← ref_put, hentry]
  obtain ⟨tx, hw, hin', hst'⟩ := h'.tx
  obtain ⟨hrec, himg⟩ := h'.reclaimed hJ hu ht hf hown
  refine .bind (.get (.bind (.modify (.bind (.get (.modify (.bind (.get (.modify ?_)))))))))
  refine hq _ tx hw hin' hst' hrec himg ?_ fun e hne => ?_
  · dsimp only
    rw [update_self, update_self, update_self, h'.entry]
    dsimp only
    rw [href]
  · dsimp only
    rw [update_of_ne hne, update_of_ne hne, update_of_ne hne]
    exact h'.table e hne

/-- An inode that `ireclaim` looks for. -/
def Orphan (sb : Superblock) (t : Disk) (i : Nat) : Prop :=
  1 ≤ i ∧ i < sb.ninodes.toNat ∧ (imageInode sb t i).type ≠ 0 ∧ (imageInode sb t i).nlink = 0

/-- What `ireclaim` frees: all orphans but the root directory, to which the process has a reference. -/
def Frees (sb : Superblock) (t : Disk) (i : Nat) : Prop := Orphan sb t i ∧ i ≠ ROOTINO

/-- The blocks that `ireclaim` writes: the free map and inode blocks. -/
def MetaBlock (sb : Superblock) (b : Blockno) : Prop := b = sb.bmapstart ∨ ∃ i, InArea sb i ∧ b = iblock sb i

theorem MetaBlock.notInLog {b : Blockno} (h : MetaBlock sb b) (hL : Layout sb) : ¬InLog sb.logstart b := by
  rcases h with rfl | ⟨i, hi, rfl⟩
  · exact hL.bmap_notInLog
  · exact hL.iblock_notInLog hi

/-- A round has run at most one transaction, which has freed the inodes `S` of the image `u`. -/
def Ran (sb : Superblock) (u : Disk) (S : Nat → Prop) (m m' : Mem) : Prop :=
  ∃ txs : List Tx, txs.length ≤ 1 ∧ txs.foldlM runTx m.log = some m'.log ∧
    (∀ tx ∈ txs, ∀ w ∈ tx, MetaBlock sb w.1) ∧
    Reclaimed sb u S (Log.applyTxs u txs) ∧ Image sb (Log.applyTxs u txs) ∧ Between sb (Log.applyTxs u txs) m'

theorem exists_beginOp {s : LogState} (h : Idle s) : ∃ s', Log.beginOp s = some s' := by
  rw [Log.beginOp, h.committing, h.lh, h.outstanding]
  exact ⟨_, rfl⟩

theorem exists_endOp {s₀ s : LogState} {tx : Tx} (h : InTx s₀ tx s) : ∃ s', Log.endOp s = some s' := by
  rw [Log.endOp, h.committing, h.outstanding]
  exact ⟨_, rfl⟩

theorem Started.runTx {s₀ s s' : LogState} {tx : Tx} (h : Started s₀ tx s) (he : Log.endOp s = some s') :
    Log.runTx s₀ tx = some s' := by
  obtain ⟨s₁, h₁, h₂⟩ := Option.bind_eq_some_iff.1 h
  rw [Log.runTx, h₁, Option.bind_eq_bind, Option.bind_some, h₂]
  exact he

/-- The end of a round that has run a transaction. -/
theorem Between.ran {S : Nat → Prop} {tx : Tx} {l' : LogState} {tab : Fin NINODE → Inode} (hL : Layout sb)
    (h : Between sb u m) (hrun : Log.runTx m.log tx = some l') (hw : ∀ w ∈ tx, MetaBlock sb w.1)
    (hrec : Reclaimed sb u S (applyWrites u tx)) (himg : Image sb (applyWrites u tx)) (htab : Quiet tab) :
    Ran sb u S m ⟨l', tab⟩ := by
  have hout : ∀ w ∈ tx, ¬InLog m.log.start w.1 := by
    intro w hwm
    rw [h.start]
    exact (hw w hwm).notInLog hL
  have hdisk := h.disk
  rw [← h.start] at hdisk
  obtain ⟨hidle, hstart, hdisk', -⟩ := Log.runTx_prefixes 0 h.idle hout hdisk hrun
  refine ⟨[tx], Nat.le_refl _, ?_, fun tx' htx' => ?_, hrec, himg, hidle, hstart.trans h.start, ?_, htab⟩
  · rw [List.foldlM_cons, hrun]
    rfl
  · rw [List.mem_singleton.1 htx']
    exact hw
  · rw [← h.start]
    exact hdisk'

section Round

variable (hL : Layout sb) (hu : Image sb u) (h : Between sb u m) (hlt : k < sb.ninodes.toNat)
  (ht : (imageInode sb u k).type ≠ 0)

include hL hu h hlt ht

/-- A round for the root directory, if it has no links, changes nothing. -/
theorem wp_round_root (hroot : k = ROOTINO) :
    WP (do let i ← iget k; beginOp; ilock sb i; iunlock i; iput sb i; endOp) NoPanic
      (fun _ m' => Ran sb u (fun i => i = k ∧ Frees sb u i) m m') m := by
  obtain ⟨l₁, hbegin⟩ := exists_beginOp h.idle
  have hin := h.idle.beginOp hbegin
  obtain ⟨l₂, hend⟩ := exists_endOp hin
  have hread : imageInode sb (Log.bread l₁) k = imageInode sb u k := by
    rw [imageInode, hin.data, imageInode]
    congr 1
    exact h.disk _ (hL.iblock_notInLog (hL.inArea hlt))
  obtain ⟨copy, hr⟩ := h.table.root
  have hrun : Log.runTx m.log [] = some l₂ := Started.runTx (Option.bind_eq_some_iff.2 ⟨l₁, hbegin, rfl⟩) hend
  subst hroot
  refine .bind (wp_iget_root h.table hr fun e he => .bind (wp_onLog hbegin (.bind ?_)))
  refine wp_ilock (entry_self ..) (by decide) (by rw [seen, hread]; exact ht) (.bind ?_)
  refine wp_iunlock (entry_self ..) (by decide) (.bind ?_)
  refine wp_iput_shared (entry_self ..) (by decide) (wp_onLog hend ?_)
  refine h.ran hL hrun (by simp) (Reclaimed.refl ?_) hu (Quiet.of_update he fun e' hne => ?_)
  · rintro i ⟨rfl, -, hne⟩
    exact hne rfl
  · simp only [update_of_ne hne]
    exact h.table.free e' (he ▸ hne)

/-- A round for another orphan frees it. -/
theorem wp_round_free (hk : 1 ≤ k) (hn : (imageInode sb u k).nlink = 0) (hroot : k ≠ ROOTINO) :
    WP (do let i ← iget k; beginOp; ilock sb i; iunlock i; iput sb i; endOp) NoPanic
      (fun _ m' => Ran sb u (fun i => i = k ∧ Frees sb u i) m m') m := by
  obtain ⟨l₁, hbegin⟩ := exists_beginOp h.idle
  have hin := h.idle.beginOp hbegin
  have hst : Started m.log [] l₁ := Option.bind_eq_some_iff.2 ⟨l₁, hbegin, rfl⟩
  have hread : imageInode sb (Log.bread l₁) k = imageInode sb u k := by
    rw [imageInode, hin.data, imageInode]
    congr 1
    exact h.disk _ (hL.iblock_notInLog (hL.inArea hlt))
  have hS : (fun i => i = k ∧ Frees sb u i) = (· = k) := by
    funext i
    refine propext ⟨And.left, ?_⟩
    rintro rfl
    exact ⟨rfl, ⟨hk, hlt, ht, hn⟩, hroot⟩
  rw [hS]
  refine .bind (wp_iget_free h.table hroot fun e he => .bind (wp_onLog hbegin (.bind ?_)))
  refine wp_ilock (entry_self ..) (by decide) (by rw [seen, hread]; exact ht) (.bind ?_)
  refine wp_iunlock (entry_self ..) (by decide) (.bind ?_)
  have hJ : Job.Ok ⟨sb, u, m.log, m.itable, k, e⟩ := ⟨hL, hlt, h.start⟩
  refine wp_iput_last hJ hu ht hn h.disk hin hst ?_ (fun e' he' => ?_) fun m' tx hw hin' hst' hrec himg hentry htab => ?_
  · refine (update_self ..).trans ?_
    rw [Option.getD_none, seen, hread]
  · simp only [update_of_ne he']
  · obtain ⟨l₂, hend⟩ := exists_endOp hin'
    have hseen : ∀ b, ¬InLog sb.logstart b → applyWrites u tx b = seen m' b := fun b hb =>
      (applyWrites_congr tx (h.disk b hb)).symm.trans (hin'.data b).symm
    refine wp_onLog hend (h.ran hL (hst'.runTx hend) (fun w hwm => ?_) (hrec.congr hL hseen) (himg.congr hL hseen) ?_)
    · exact (hw w hwm).imp_right fun e => ⟨k, hL.inArea hlt, e⟩
    · refine ⟨?_, fun e' he' => ?_⟩
      · rw [htab rootEntry he.symm]
        exact h.table.root
      · by_cases hee : e' = e
        · subst hee
          rw [hentry]
          exact ⟨rfl, rfl⟩
        · rw [htab e' hee]
          exact h.table.free e' he'

end Round

theorem wp_reclaim (hL : Layout sb) (hu : Image sb u) (h : Between sb u m) (hk : 1 ≤ k) (hlt : k < sb.ninodes.toNat) :
    WP (reclaim sb k) NoPanic (fun _ m' => Ran sb u (fun i => i = k ∧ Frees sb u i) m m') m := by
  have hread : imageInode sb (seen m) k = imageInode sb u k := by
    rw [imageInode, h.seen_eq (hL.iblock_notInLog (hL.inArea hlt)), imageInode]
  unfold reclaim
  refine .bind (.bind (.get (.pure ?_)))
  change WP (if (imageInode sb (seen m) k).type ≠ 0 ∧ (imageInode sb (seen m) k).nlink = 0 then _ else _) _ _ _
  rw [hread]
  refine .ite (fun ho => ?_) fun hnot => .pure ?_
  · by_cases hroot : k = ROOTINO
    · exact wp_round_root hL hu h hlt ho.1 hroot
    · exact wp_round_free hL hu h hlt ho.1 hk ho.2 hroot
  · refine ⟨[], Nat.zero_le _, rfl, by simp, Reclaimed.refl ?_, hu, h⟩
    rintro i ⟨rfl, ho, -⟩
    exact hnot ho.2.2

end Xv6.Reclaim
