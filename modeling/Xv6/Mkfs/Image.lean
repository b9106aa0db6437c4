import Xv6.Mkfs.Append

/-!
# The images that `mkfs` makes

`Built` is the invariant of `mkfs`: the image, as the kernel sees it, has the inodes that were
allocated, with the bytes that were appended to each. `iappend` and `ialloc` keep it.
-/

namespace Xv6.Mkfs

open Function
open Blocks

variable {s s' : Mk} {inum : Nat} {din : Dinode}

/-- The image as the kernel sees it with no inode locked. -/
def still (s : Mk) : Fs := { view s 0 noInode with itable := fun _ => ⟨0, none⟩ }

theorem cur_still (s : Mk) (i : Nat) : cur (still s) i = if i < INODES then s.dinode i else noInode := rfl

/-- Locking an inode changes nothing that can be seen. -/
theorem cur_view (s : Mk) (hi : inum < INODES) : cur (view s inum (s.dinode inum)) = cur (still s) := by
  funext i
  by_cases e : i = inum
  · subst e
    rw [Blocks.cur_of_inode (inode_view s i _), cur_still, if_pos hi]
  · rw [cur, view]
    simp only [update_of_ne e]
    rfl

theorem addrOf_view (s : Mk) (hi : inum < INODES) : addrOf (view s inum (s.dinode inum)) = addrOf (still s) := by
  funext x
  rw [addrOf, addrOf, cur_view s hi]
  rfl

theorem byteAt_view (s : Mk) (hi : inum < INODES) : byteAt (view s inum (s.dinode inum)) = byteAt (still s) := by
  funext i k
  rw [byteAt, byteAt, addrOf_view s hi]
  rfl

theorem content_view (s : Mk) (hi : inum < INODES) : content (view s inum (s.dinode inum)) = content (still s) := by
  funext i
  rw [content, content, cur_view s hi, byteAt_view s hi]

theorem own_view (s : Mk) (hi : inum < INODES) (ht : (s.dinode inum).type ≠ 0) :
    Own none (view s inum (s.dinode inum)) ↔ Own none (still s) := by
  have haddr := addrOf_view s hi
  have hcur := cur_view s hi
  have hfilled : ∀ i, Blocks.Filled (view s inum (s.dinode inum)) i ↔ Blocks.Filled (still s) i := fun i => by
    unfold Blocks.Filled
    rw [haddr, hcur]
  constructor
  · intro h
    refine ⟨haddr ▸ h.owned, h.metadata, h.size, fun i ip _ hv => ?_, fun i hn => (hfilled i).1 (h.filled i hn)⟩
    cases hv
  · intro h
    refine ⟨haddr ▸ h.owned, h.metadata, h.size, fun i ip _ hv => ?_, fun i hn => (hfilled i).2 (h.filled i hn)⟩
    by_cases e : i = inum
    · subst e
      rw [inode_view] at hv
      cases hv
      refine ⟨?_, ht, if_pos hi⟩
      simp only [view, update_self]
      decide
    · simp only [view, update_of_ne e] at hv
      cases hv

theorem ends_view (s : Mk) (hi : inum < INODES) {i off : Nat} :
    Ends (view s inum (s.dinode inum)) i off ↔ Ends (still s) i off := by
  have haddr := addrOf_view s hi
  have hbyte := byteAt_view s hi
  constructor
  · exact fun h => ⟨haddr ▸ h.tight, haddr ▸ hbyte ▸ h.tail⟩
  · exact fun h => ⟨haddr ▸ h.tight, haddr ▸ hbyte ▸ h.tail⟩

/-! ## Writing an inode -/

/-- The image after `winode`. -/
def Mk.setDinode (s : Mk) (inum : Nat) (din : Dinode) : Mk :=
  s.put (iblock inum) (putDinode (s.sect (iblock inum)) (inum % IPB * 64) din)

theorem iblock_ne_one (i : Nat) : iblock i ≠ 1 := by
  have hle : 33 ≤ iblock i := Nat.le_add_left inodestart (i / IPB)
  omega

theorem sect_setDinode_one (s : Mk) (inum : Nat) (din : Dinode) : (s.setDinode inum din).sect 1 = s.sect 1 := by
  simp only [Mk.setDinode, Mk.put, update_of_ne (iblock_ne_one inum).symm]

theorem dinode_setDinode (s : Mk) {inum : Nat} {din : Dinode} (hd : ∀ k, NDIRECT < k → din.addrs k = 0) (i : Nat) :
    (s.setDinode inum din).dinode i = update s.dinode inum din i := by
  by_cases e : i = inum
  · subst e
    simp only [Mk.dinode, Mk.setDinode, Mk.put, update_self, getDinode_putDinode _ _ hd]
  · rw [update_of_ne e]
    by_cases hb : iblock i = iblock inum
    · -- another inode of the same sector
      have h1 : IPB = 16 := rfl
      have h2 : inodestart = 33 := rfl
      simp only [iblock, h1, h2] at hb
      simp only [Mk.dinode, Mk.setDinode, Mk.put]
      rw [show iblock i = iblock inum by simp only [iblock, h1, h2]; exact hb, update_self,
        getDinode_putDinode_of_ne _ _ (by rw [h1]; omega)]
    · simp only [Mk.dinode, Mk.setDinode, Mk.put, update_of_ne hb]

variable {E : Fail → Prop}

theorem wp_winode {Q : Unit → Mk → Prop} (h : Good s) (hi : inum < INODES) (hq : Q () (s.setDinode inum din)) :
    WP (winode inum din) E Q s := by
  have hlt : iblock inum < s.len := by
    have h1 := iblock_lt hi
    have h2 : nmeta < FSSIZE := by decide
    rw [h.len]
    omega
  exact .bind (wp_rsect (fun _ => wp_wsect hlt hq) fun hc => absurd hlt hc)

theorem wp_rinode {Q : Dinode → Mk → Prop} (h : Good s) (hi : inum < INODES) (hq : Q (s.dinode inum) s) :
    WP (rinode inum) E Q s := by
  have hlt : iblock inum < s.len := by
    have h1 := iblock_lt hi
    have h2 : nmeta < FSSIZE := by decide
    rw [h.len]
    omega
  exact .bind (wp_rsect (fun _ => .pure hq) fun hc => absurd hlt hc)

theorem Good.setDinode (h : Good s) (hi : inum < INODES) (din : Dinode) : Good (s.setDinode inum din) :=
  h.put (Nat.lt_of_lt_of_le (iblock_lt hi) h.lo) _

/-- The kernel's `iupdate`. -/
theorem flush_view (s : Mk) (hi : inum < INODES) {din : Dinode} (hd : ∀ k, NDIRECT < k → din.addrs k = 0) :
    (view s inum din).flush inum din = view (s.setDinode inum din) inum din := by
  have hdin : update (view s inum din).dinode inum din = (view (s.setDinode inum din) inum din).dinode := by
    funext i
    simp only [view, dinode_setDinode s hd]
    by_cases e : i = inum
    · rw [e, update_self, update_self, if_pos hi]
    · rw [update_of_ne e, update_of_ne e]
  have hdata : (view s inum din).data = (view (s.setDinode inum din) inum din).data := by
    funext b
    simp only [view]
    split
    · rfl
    · have hne : b ≠ iblock inum := by
        have := iblock_lt hi
        omega
      simp only [Mk.setDinode, Mk.put, update_of_ne hne]
  rw [Blocks.Fs.flush, hdin]
  rw [Fs.mk.injEq]
  exact ⟨rfl, rfl, rfl, hdata, rfl⟩

theorem setInode_run (s : Mk) (inum : Nat) (din din' : Dinode) :
    Blocks.setInode inum din' (view s inum din) = .ok ((), view s inum din') := by
  rw [← setInode_view s inum din din']
  rfl

theorem iupdate_run (s : Mk) (hi : inum < INODES) {din : Dinode} (hd : ∀ k, NDIRECT < k → din.addrs k = 0) :
    Blocks.iupdate inum (view s inum din) = .ok ((), view (s.setDinode inum din) inum din) := by
  rw [Blocks.iupdate, bind_ok (inode_run s inum din), ← flush_view s hi hd]
  rfl

theorem maxfile_lt : MAXFILE * BSIZE < 2 ^ 32 := by decide

/-- The kernel's `writei` does what `iappend` does. -/
theorem writei_run {p : List (BitVec 8)} {r : Dinode × Nat} {s₁ : Mk} (hi : inum < INODES)
    (hshort : ∀ k, NDIRECT < k → din.addrs k = 0)
    (happ : Appended inum din din.size.toNat (din.size.toNat + p.length) s r s₁)
    (hrun : Blocks.writeLoop inum (Src.kernel p) p.length p.length din.size.toNat 0 (view s inum din) =
      .ok ((r.2, p.length), view s₁ inum r.1)) :
    Blocks.writei inum (Src.kernel p) din.size (BitVec.ofNat 32 p.length) (view s inum din) =
      .ok ((p.length : Int), view (s₁.setDinode inum { r.1 with size := BitVec.ofNat 32 r.2 }) inum
        { r.1 with size := BitVec.ofNat 32 r.2 }) := by
  have hmax := happ.max
  have hM := maxfile_lt
  have hn : (BitVec.ofNat 32 p.length).toNat = p.length := by
    rw [BitVec.toNat_ofNat, Nat.mod_eq_of_lt (by omega)]
  have hsum : (din.size + BitVec.ofNat 32 p.length).toNat = din.size.toNat + p.length := by
    rw [BitVec.toNat_add, hn, Nat.mod_eq_of_lt (by omega)]
  have hnot : ¬(din.size > din.size ∨ din.size + BitVec.ofNat 32 p.length < din.size) := by
    rw [gt_iff_lt, BitVec.lt_def, BitVec.lt_def, hsum]
    omega
  obtain ⟨addrs, he, ha⟩ := happ.inode
  have hd : ∀ k, NDIRECT < k → ({ r.1 with size := BitVec.ofNat 32 r.2 } : Dinode).addrs k = 0 := fun k hk => by
    rw [he]
    exact (ha k hk).trans (hshort k hk)
  have hsize : r.1.size = din.size := by rw [he]
  rw [Blocks.writei, bind_ok (inode_run s inum din), if_neg hnot, if_neg (by omega), hn, bind_ok hrun]
  show (Blocks.inode inum >>= fun ip => _) (view s₁ inum r.1) = _
  rw [bind_ok (inode_run s₁ inum r.1)]
  by_cases hgt : r.2 > r.1.size.toNat
  · rw [if_pos hgt, bind_ok (setInode_run s₁ inum r.1 _), bind_ok (iupdate_run s₁ hi hd)]
    rfl
  · -- nothing was appended
    have hsame : ({ r.1 with size := BitVec.ofNat 32 r.2 } : Dinode) = r.1 := by
      have hlast := happ.last
      rw [hsize] at hgt
      have hz : BitVec.ofNat 32 r.2 = din.size := by
        rw [show r.2 = din.size.toNat by omega, BitVec.ofNat_toNat, BitVec.setWidth_eq]
      rw [hz, ← hsize]
    rw [hsame] at hd ⊢
    rw [if_neg hgt, bind_ok (show _ = Except.ok ((), view s₁ inum r.1) from rfl), bind_ok (iupdate_run s₁ hi hd)]
    rfl

/-! ## The invariant -/

/-- The image has the inodes below `freeinode`, whose bytes are `files`. -/
structure Built (files : Nat → List (BitVec 8)) (s : Mk) : Prop where
  good : Good s
  inodes : s.freeinode ≤ INODES
  sb : s.sect 1 = sbSector
  own : Own none (still s)
  free : ∀ i, i < INODES → (i = 0 ∨ s.freeinode ≤ i) → s.dinode i = noInode
  type : ∀ i, 0 < i → i < s.freeinode → (s.dinode i).type = if i = ROOTINO then T_DIR else T_FILE
  nlink : ∀ i, 0 < i → i < s.freeinode → (s.dinode i).nlink = 1
  ends : ∀ i, 0 < i → i < s.freeinode → Ends (still s) i (files i).length
  bytes : ∀ i, 0 < i → i < s.freeinode → content (still s) i = files i

variable {files : Nat → List (BitVec 8)}

theorem dinode_short (s : Mk) (i : Nat) : ∀ k, NDIRECT < k → (s.dinode i).addrs k = 0 := fun _ hk =>
  if_neg (Nat.not_le.2 hk)

/-- Writing the inode back with another size moves no block. -/
theorem view_setDinode {din' : Dinode} (hi : inum < INODES) (hd : ∀ k, NDIRECT < k → din'.addrs k = 0)
    (ht : din'.type = din.type) (ha : din'.addrs = din.addrs) :
    addrOf (view (s.setDinode inum din') inum din') = addrOf (view s inum din) ∧
      byteAt (view (s.setDinode inum din') inum din') = byteAt (view s inum din) := by
  have he : view (s.setDinode inum din') inum din' = ((view s inum din).setInode inum din').flush inum din' := by
    rw [setInode_view, flush_view s hi hd]
  have haddr : addrOf (view (s.setDinode inum din') inum din') = addrOf (view s inum din) := by
    rw [he, Blocks.addrOf_flush (Blocks.inode_setInode ..)]
    exact Blocks.addrOf_setInode (inode_view s inum din) ht ha
  refine ⟨haddr, ?_⟩
  funext i k
  rw [byteAt, haddr, he]
  rfl

theorem map_kernel (p : List (BitVec 8)) : (List.range p.length).map (Src.kernel p).byte = p := by
  refine List.ext_getElem (by simp) fun k hk hk' => ?_
  simp [Src.kernel, hk']

section

variable (h : Built files s) (h0 : 0 < inum) (hlt : inum < s.freeinode)
include h h0 hlt

theorem Built.type_ne : (s.dinode inum).type ≠ 0 := by
  rw [h.type inum h0 hlt]
  split <;> decide

theorem Built.size_eq : (s.dinode inum).size.toNat = (files inum).length := by
  rw [← h.bytes inum h0 hlt, Blocks.length_content, cur_still, if_pos (Nat.lt_of_lt_of_le hlt h.inodes)]

/-- Reasons for `iappend` to fail. -/
def Refuses (s : Mk) (size n : Nat) (e : Fail) : Prop :=
  e = .assert ∧ MAXFILE * BSIZE < size + n ∨ e = .die ∧ FSSIZE < s.freeblock + 2 * blocksIn size (size + n)

theorem Built.iappend (p : List (BitVec 8)) : WP (Mkfs.iappend inum p) (Refuses s (files inum).length p.length)
    (fun _ s' => Built (update files inum (files inum ++ p)) s' ∧ s'.freeinode = s.freeinode ∧
      s'.freeblock ≤ s.freeblock + 2 * blocksIn (files inum).length ((files inum).length + p.length)) s := by
  have hi : inum < INODES := Nat.lt_of_lt_of_le hlt h.inodes
  have ht := h.type_ne h0 hlt
  have hsize := h.size_eq h0 hlt
  have hown := (own_view s hi ht).2 h.own
  have hend : Ends (view s inum (s.dinode inum)) inum (files inum).length :=
    (ends_view s hi).2 (h.ends inum h0 hlt)
  have hmax : (files inum).length ≤ MAXFILE * BSIZE := by
    rw [← hsize]
    have := h.own.filled inum (by simp)
    rw [Blocks.Filled, cur_still, if_pos hi] at this
    exact (this ht).1
  unfold Mkfs.iappend
  refine .bind (wp_rinode h.good hi (.bind ?_))
  have hloop := wp_appendLoop p p.length 0 h.good (hown.dirty inum) ht (by omega) (Nat.zero_le _)
    (show (files inum).length + 0 ≤ MAXFILE * BSIZE by omega) hend
  rw [hsize]
  refine hloop.mono ?_
  rintro r s₁ ⟨happ, hrun⟩
  rw [Nat.add_zero, ← hsize] at happ hrun
  refine wp_winode happ.good hi ?_
  obtain ⟨addrs, he, ha⟩ := happ.inode
  have hwrite := writei_run hi (dinode_short s inum) happ hrun
  obtain ⟨d, hd⟩ : ∃ d : Dinode, d = { r.1 with size := BitVec.ofNat 32 r.2 } := ⟨_, rfl⟩
  rw [← hd] at hwrite ⊢
  have hshort : ∀ k, NDIRECT < k → d.addrs k = 0 := fun k hk => by
    rw [hd, he]
    exact (ha k hk).trans (dinode_short s inum k hk)
  obtain ⟨haddr, hbyte⟩ := view_setDinode (s := s₁) hi hshort (show d.type = r.1.type by rw [hd]) (by rw [hd])
  have hdin : ∀ i < INODES, (s₁.setDinode inum d).dinode i = update s.dinode inum d i := fun i hi' => by
    rw [dinode_setDinode s₁ hshort]
    by_cases e : i = inum
    · rw [e, update_self, update_self]
    · rw [update_of_ne e, update_of_ne e, Mk.dinode, Mk.dinode, happ.sect _ (iblock_lt hi')]
  have hself : (s₁.setDinode inum d).dinode inum = d := by rw [hdin inum hi, update_self]
  have htype : d.type = (s.dinode inum).type := by rw [hd, he]
  have hlen : (BitVec.ofNat 32 p.length).toNat = p.length := by
    have := happ.max
    have := maxfile_lt
    rw [BitVec.toNat_ofNat, Nat.mod_eq_of_lt (by omega)]
  have hwritten := (Blocks.wp_writei hown (inode_view s inum _) _ _ _).ok hwrite
  split at hwritten
  · omega
  obtain ⟨e, tot, fs₁, htot, hw⟩ := hwritten
  obtain rfl : p.length = tot := Int.ofNat_inj.1 htot
  have hcontent : content (still (s₁.setDinode inum d)) =
      update (content (still s)) inum (content (still s) inum ++ p) := by
    have hsame := (hw.writes hown (inode_view s inum _) (hw.whole hlen.le)).content
    rw [content_view s hi, hsize, ← h.bytes inum h0 hlt, Blocks.splice_length, map_kernel] at hsame
    rw [← hsame, ← content_view _ hi, hself]
  have haddr₂ : addrOf (still (s₁.setDinode inum d)) = addrOf (view s₁ inum r.1) := by
    rw [← haddr, ← addrOf_view _ hi, hself]
  have hbyte₂ : byteAt (still (s₁.setDinode inum d)) = byteAt (view s₁ inum r.1) := by
    rw [← hbyte, ← byteAt_view _ hi, hself]
  refine ⟨⟨happ.good.setDinode hi d, ?_, ?_, ?_, fun i hi' hfree => ?_, fun i hpos hi' => ?_, fun i hpos hi' => ?_,
    fun i hpos hi' => ?_, fun i hpos hi' => ?_⟩, happ.freeinode, hsize ▸ happ.taken⟩
  · exact happ.freeinode ▸ h.inodes
  · rw [sect_setDinode_one, happ.sect 1 (by decide), h.sb]
  · rw [← own_view _ hi (by rw [hself, htype]; exact ht), hself]
    exact hw.own
  · have hne : i ≠ inum := by
      rintro rfl
      rw [show (s₁.setDinode i d).freeinode = s.freeinode from happ.freeinode] at hfree
      omega
    rw [hdin i hi', update_of_ne hne]
    exact h.free i hi' (happ.freeinode ▸ hfree)
  · have hi' : i < s.freeinode := happ.freeinode ▸ hi'
    rw [hdin i (Nat.lt_of_lt_of_le hi' h.inodes)]
    by_cases e : i = inum
    · rw [e, update_self, htype, h.type inum h0 hlt]
    · rw [update_of_ne e]
      exact h.type i hpos hi'
  · have hi' : i < s.freeinode := happ.freeinode ▸ hi'
    rw [hdin i (Nat.lt_of_lt_of_le hi' h.inodes)]
    by_cases e : i = inum
    · rw [e, update_self, hd, he]
      exact h.nlink inum h0 hlt
    · rw [update_of_ne e]
      exact h.nlink i hpos hi'
  · have hi' : i < s.freeinode := happ.freeinode ▸ hi'
    by_cases e : i = inum
    · rw [e, update_self, List.length_append, ← hsize]
      exact ⟨haddr₂ ▸ happ.ends.tight, haddr₂ ▸ hbyte₂ ▸ happ.ends.tail⟩
    · -- the blocks of the other inodes are where they were
      rw [update_of_ne e]
      have hends := (ends_view s hi).2 (h.ends i hpos hi')
      have hsame : ∀ bn, addrOf (still (s₁.setDinode inum d)) (slotAt i bn) =
          addrOf (view s inum (s.dinode inum)) (slotAt i bn) := fun bn => by
        rw [← addrOf_view _ hi, hself, hw.addr]
        exact hw.loop.wrote.grown.others.addr _ (by rw [Blocks.slotAt_inum]; exact e)
      refine ⟨fun bn hbn => ?_, fun k hk hne => ?_⟩
      · rw [hsame]
        exact hends.tight bn hbn
      · rw [hsame] at hne
        rw [← byteAt_view _ hi, hself, hw.byteAt, hw.loop.wrote.other i k e]
        exact hends.tail k hk hne
  · have hi' : i < s.freeinode := happ.freeinode ▸ hi'
    rw [hcontent]
    by_cases e : i = inum
    · rw [e, update_self, update_self, h.bytes inum h0 hlt]
    · rw [update_of_ne e, update_of_ne e, h.bytes i hpos hi']

end

/-! ## New inodes -/

/-- The inode that `ialloc` writes. -/
def newInode (type : BitVec 16) : Dinode :=
  { type := type, major := 0, minor := 0, nlink := 1, size := 0, addrs := fun _ => 0 }

/-- An inode without blocks in place of none. -/
theorem still_setDinode (hnone : s.dinode inum = noInode) (hi : inum < INODES) (type : BitVec 16) :
    addrOf (still (s.setDinode inum (newInode type))) = addrOf (still s) ∧
      byteAt (still (s.setDinode inum (newInode type))) = byteAt (still s) := by
  have hshort : ∀ k, NDIRECT < k → (newInode type).addrs k = 0 := fun _ _ => rfl
  have hdata : (still (s.setDinode inum (newInode type))).data = (still s).data := by
    have := congrArg Fs.data (flush_view s hi hshort)
    exact this.symm
  have haddr : addrOf (still (s.setDinode inum (newInode type))) = addrOf (still s) := by
    funext x
    rw [addrOf, addrOf, cur_still, cur_still, dinode_setDinode s hshort, hdata]
    by_cases e : x.inum = inum
    · rw [e, update_self, if_pos hi, if_pos hi, hnone]
      cases x <;> simp [Blocks.inodeAddr, newInode, noInode]
    · rw [update_of_ne e]
  refine ⟨haddr, ?_⟩
  funext i k
  rw [byteAt, byteAt, haddr, hdata]

theorem addrOf_noInode (hi : inum < INODES) (hnone : s.dinode inum = noInode) {x : Blocks.Slot} (hx : x.inum = inum) :
    addrOf (still s) x = 0 := by
  rw [addrOf, cur_still, hx, if_pos hi, hnone]
  cases x <;> rfl

/-- The next inode, written. -/
def Mk.alloc (s : Mk) (type : BitVec 16) : Mk :=
  Mk.setDinode { s with freeinode := s.freeinode + 1 } s.freeinode (newInode type)

theorem Built.alloc (h : Built files s) (hpos : 0 < s.freeinode) (hroom : s.freeinode < INODES) {type : BitVec 16}
    (htype : type = if s.freeinode = ROOTINO then T_DIR else T_FILE) :
    Built (update files s.freeinode []) (s.alloc type) := by
  have hnone := h.free s.freeinode hroom (.inr (Nat.le_refl _))
  obtain ⟨haddr, hbyte⟩ : addrOf (still (s.alloc type)) = addrOf (still s) ∧
      byteAt (still (s.alloc type)) = byteAt (still s) :=
    still_setDinode (s := { s with freeinode := s.freeinode + 1 }) hnone hroom type
  have hdin : ∀ i, (s.alloc type).dinode i = update s.dinode s.freeinode (newInode type) i := fun i =>
    dinode_setDinode { s with freeinode := s.freeinode + 1 } (fun _ _ => rfl) i
  have hcur : ∀ i, i ≠ s.freeinode → cur (still (s.alloc type)) i = cur (still s) i := fun i hne => by
    rw [cur_still, cur_still, hdin, update_of_ne hne]
  have hself : cur (still (s.alloc type)) s.freeinode = newInode type := by
    rw [cur_still, hdin, update_self, if_pos hroom]
  have hold : ∀ {i}, i < s.freeinode + 1 → i ≠ s.freeinode → i < s.freeinode := fun h1 h2 => by omega
  have hgood : Good (s.alloc type) :=
    Good.setDinode (s := { s with freeinode := s.freeinode + 1 })
      ⟨h.good.len, h.good.lo, h.good.hi, h.good.zero⟩ hroom _
  refine ⟨hgood, hroom, (sect_setDinode_one ..).trans h.sb, ⟨haddr ▸ h.own.owned, h.own.metadata, h.own.size,
    fun i ip _ hv => (by cases hv), fun i _ => ?_⟩, fun i hi' hfree => ?_, fun i hp hi' => ?_, fun i hp hi' => ?_,
    fun i hp hi' => ?_, fun i hp hi' => ?_⟩
  · by_cases e : i = s.freeinode
    · rw [e, Blocks.Filled, hself]
      exact fun _ => ⟨Nat.zero_le _, fun bn hbn => absurd hbn (by simp [newInode])⟩
    · have := h.own.filled i (by simp)
      rw [Blocks.Filled, ← hcur i e, ← haddr] at this
      exact this
  · have hne : i ≠ s.freeinode := by
      rintro rfl
      have : s.freeinode = 0 ∨ s.freeinode + 1 ≤ s.freeinode := hfree
      omega
    rw [hdin, update_of_ne hne]
    exact h.free i hi' (hfree.imp_right fun hle => Nat.le_of_succ_le hle)
  · rw [hdin]
    by_cases e : i = s.freeinode
    · rw [e, update_self]
      exact htype
    · rw [update_of_ne e]
      exact h.type i hp (hold hi' e)
  · rw [hdin]
    by_cases e : i = s.freeinode
    · rw [e, update_self]
      rfl
    · rw [update_of_ne e]
      exact h.nlink i hp (hold hi' e)
  · by_cases e : i = s.freeinode
    · have hz : ∀ bn, addrOf (still s) (slotAt s.freeinode bn) = 0 := fun bn =>
        addrOf_noInode hroom hnone (Blocks.slotAt_inum ..)
      rw [e, update_self]
      exact ⟨fun bn _ => by rw [haddr, hz], fun k _ hne => absurd (by rw [haddr, hz]) hne⟩
    · rw [update_of_ne e]
      have := h.ends i hp (hold hi' e)
      exact ⟨haddr.symm ▸ this.tight, haddr.symm ▸ hbyte.symm ▸ this.tail⟩
  · rw [content, hbyte]
    by_cases e : i = s.freeinode
    · rw [e, hself, update_self]
      rfl
    · rw [update_of_ne e, hcur i e, ← h.bytes i hp (hold hi' e), content]

theorem Built.ialloc (h : Built files s) (hpos : 0 < s.freeinode) (hroom : s.freeinode < INODES) {type : BitVec 16}
    (htype : type = if s.freeinode = ROOTINO then T_DIR else T_FILE) :
    WP (Mkfs.ialloc type) E (fun i s' => i = s.freeinode ∧ s'.freeinode = s.freeinode + 1 ∧
      s'.freeblock = s.freeblock ∧ Built (update files s.freeinode []) s') s := by
  unfold Mkfs.ialloc
  refine .bind (.get (.bind (.set (.bind ?_))))
  exact wp_winode ⟨h.good.len, h.good.lo, h.good.hi, h.good.zero⟩ hroom
    (.pure ⟨rfl, rfl, rfl, h.alloc hpos hroom htype⟩)

end Xv6.Mkfs
