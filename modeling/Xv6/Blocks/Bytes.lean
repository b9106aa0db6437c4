import Xv6.Blocks.Content
import Mathlib.Data.Finset.Union

/-!
# The bytes of an inode

Byte `k` of an inode's content stands in the block that the inode has for it (`byteAt`). `wp_writei`
says which bytes a write changes, and that it stops short only at the end of the bytes that can be
copied, or if there are fewer free blocks than it has to allocate; `wp_readi_content` says which bytes
a read returns.
-/

namespace Xv6.Blocks

open Function List

variable {fs fs' fs'' : Fs} {inum : Nat} {ip : Dinode}

/-! ## Bytes of a block -/

theorem getLsbD_mask {t : Nat} (ht : t < 32) : (255#32).getLsbD t = decide (t < 8) := by
  rw [BitVec.getLsbD_ofNat, decide_eq_true ht, Bool.true_and]
  exact Nat.testBit_two_pow_sub_one 8 t

/-- Byte `r'` of a word in which byte `r` was set. -/
theorem extract_set (w : BitVec 32) (v : BitVec 8) {r r' : Nat} (hr : r < 4) (hr' : r' < 4) :
    ((w &&& ~~~(255#32 <<< (8 * r))) ||| (v.zeroExtend 32 <<< (8 * r))).extractLsb' (8 * r') 8 =
      if r' = r then v else w.extractLsb' (8 * r') 8 := by
  refine BitVec.eq_of_getLsbD_eq fun k hk => ?_
  have hb : 8 * r' + k < 32 := by omega
  rw [BitVec.getLsbD_extractLsb', decide_eq_true hk, Bool.true_and, BitVec.getLsbD_or, BitVec.getLsbD_and,
    BitVec.getLsbD_not, BitVec.getLsbD_shiftLeft, BitVec.getLsbD_shiftLeft, decide_eq_true hb,
    getLsbD_mask (by omega), BitVec.getLsbD_setWidth]
  split
  · have hlt : ¬ 8 * r' + k < 8 * r := by omega
    have hk' : 8 * r' + k - 8 * r = k := by omega
    rw [hk', decide_eq_false hlt, decide_eq_true hk, decide_eq_true (by omega : k < 32)]
    simp
  · rw [BitVec.getLsbD_extractLsb', decide_eq_true hk, Bool.true_and]
    by_cases hlt : 8 * r' + k < 8 * r
    · simp [hlt]
    · have hge : ¬ 8 * r' + k - 8 * r < 8 := by omega
      have hv : v.getLsbD (8 * r' + k - 8 * r) = false := BitVec.getLsbD_of_ge _ _ (by omega)
      rw [decide_eq_false hge, hv]
      simp

theorem byte_setByte (b : Block) {i : Nat} (hi : i < BSIZE) (v : BitVec 8) (j : Nat) :
    byte (setByte b i v) j = if j = i then v else byte b j := by
  have hw : i / 4 < NINDIRECT := by
    unfold BSIZE at hi
    unfold NINDIRECT
    omega
  rw [byte, byte, setByte, word_setWord b hw]
  by_cases hq : j / 4 = i / 4
  · rw [if_pos hq, extract_set _ _ (Nat.mod_lt _ (by omega)) (Nat.mod_lt _ (by omega)), hq]
    by_cases hj : j = i
    · rw [if_pos hj, if_pos (by rw [hj])]
    · rw [if_neg hj, if_neg (by omega)]
  · have hj : j ≠ i := fun e => hq (by rw [e])
    rw [if_neg hq, if_neg hj]

/-- Blocks with the same bytes are the same. -/
theorem block_ext {b b' : Block} (h : ∀ i < BSIZE, byte b i = byte b' i) : b = b' := by
  have hB : BSIZE = 1024 := rfl
  funext j
  refine BitVec.eq_of_getLsbD_eq fun k hk => ?_
  have hj := j.isLt
  have hbyte := congrArg (BitVec.getLsbD · (k % 8)) (h (4 * j.val + k / 8) (by omega))
  have hdiv : (4 * j.val + k / 8) / 4 = j.val := by omega
  have hmod : 8 * ((4 * j.val + k / 8) % 4) + k % 8 = k := by omega
  simp only [byte, word, hdiv, dif_pos hj, BitVec.getLsbD_extractLsb', hmod, Nat.mod_lt k (show 8 > 0 by decide),
    decide_true, Bool.true_and] at hbyte
  exact hbyte

theorem byte_zeroBlock (j : Nat) : byte zeroBlock j = 0 := by
  rw [byte, word_zeroBlock]
  exact BitVec.extractLsb'_zero

variable {tot m l off off' e base n : Nat} {a : BitVec 32} {src : Src}

/-- `l` bytes can be copied. -/
theorem byte_copyin (src : Src) (b : Block) {o : Nat} (hl : l = min m (src.avail - tot)) (ho : o + l ≤ BSIZE) (j : Nat) :
    byte (src.copyin b o tot m) j = if o ≤ j ∧ j < o + l then src.byte (tot + (j - o)) else byte b j := by
  rw [Src.copyin, ← hl]
  clear hl
  induction l with
  | zero =>
    rw [if_neg (by omega)]
    rfl
  | succ l ih =>
    rw [range_succ, foldl_append, foldl_cons, foldl_nil, byte_setByte _ (by omega), ih (by omega)]
    by_cases hj : j = o + l
    · rw [if_pos hj, if_pos (by omega), hj, Nat.add_sub_cancel_left]
    · rw [if_neg hj]
      exact if_congr (by omega) rfl rfl

/-! ## Bytes of an inode -/

/-- Byte `k` of inode `i`. -/
def byteAt (fs : Fs) (i k : Nat) : BitVec 8 := byte (fs.data (addrOf fs (slotAt i (k / BSIZE)))) (k % BSIZE)

/-- The same, where a block that is not there counts as one of zeroes. -/
def storedAt (fs : Fs) (i k : Nat) : BitVec 8 := if addrOf fs (slotAt i (k / BSIZE)) = 0 then 0 else byteAt fs i k

theorem same_block {i k : Nat} (h : i % BSIZE + k < BSIZE) : (i + k) / BSIZE = i / BSIZE ∧ (i + k) % BSIZE = i % BSIZE + k := by
  unfold BSIZE at *
  omega

theorem slotAt_inj {i j bn bn' : Nat} (h : slotAt i bn = slotAt j bn') : i = j ∧ bn = bn' := by
  unfold slotAt at h
  split at h <;> split at h
  · injection h with h₁ h₂
    exact ⟨h₁, h₂⟩
  · cases h
  · cases h
  · injection h with h₁ h₂
    exact ⟨h₁, by omega⟩

theorem slotAt_notMem_slotsOf {bn bn' : Nat} (h : bn' ≠ bn) : slotAt inum bn' ∉ slotsOf inum bn := by
  unfold slotsOf slotAt
  split <;> split <;> simp <;> omega

/-- The bytes `[off, off')` of the inode are those that `val` says now, and no other byte of its blocks
has changed; new blocks are all zeroes. -/
structure Wrote (inum off off' : Nat) (val : Nat → BitVec 8) (fs fs' : Fs) : Prop where
  grown : Grown inum fs fs'
  inside : ∀ k, off ≤ k → k < off' → addrOf fs' (slotAt inum (k / BSIZE)) ≠ 0 ∧ byteAt fs' inum k = val k
  outside : ∀ k, addrOf fs' (slotAt inum (k / BSIZE)) ≠ 0 → ¬(off ≤ k ∧ k < off') →
    byteAt fs' inum k = storedAt fs inum k
  other : ∀ i k, i ≠ inum → byteAt fs' i k = byteAt fs i k

variable {val : Nat → BitVec 8}

theorem Wrote.refl (inum off : Nat) (val : Nat → BitVec 8) (fs : Fs) : Wrote inum off off val fs fs :=
  ⟨.refl inum fs, fun k hk hk' => absurd hk' (by omega), fun _ hne _ => (if_neg hne).symm, fun _ _ _ => rfl⟩

/-- A block that was there. -/
theorem Wrote.kept (h : Wrote inum off off' val fs fs') {k : Nat} (hne : addrOf fs (slotAt inum (k / BSIZE)) ≠ 0)
    (hk : ¬(off ≤ k ∧ k < off')) : byteAt fs' inum k = byteAt fs inum k := by
  rw [h.outside k (by rwa [h.grown.addr _ hne]) hk, storedAt, if_neg hne]

theorem Wrote.trans {mid : Nat} (h : Wrote inum off mid val fs fs') (h' : Wrote inum mid off' val fs' fs'')
    (hle : off ≤ mid) (hle' : mid ≤ off') : Wrote inum off off' val fs fs'' where
  grown := h.grown.trans h'.grown
  inside k hk hk' := by
    by_cases hmid : k < mid
    · obtain ⟨hne, hv⟩ := h.inside k hk hmid
      refine ⟨?_, ?_⟩
      · rw [h'.grown.addr _ hne]
        exact hne
      · rw [h'.kept hne (by omega), hv]
    · exact h'.inside k (by omega) hk'
  outside k hne hk := by
    rw [h'.outside k hne (by omega), storedAt]
    split
    · rename_i h0
      rw [storedAt, if_pos]
      by_contra hne'
      exact hne' ((h.grown.addr _ hne').symm.trans h0)
    · rename_i hne'
      exact h.outside k hne' (by omega)
  other i k hi := (h'.other i k hi).trans (h.other i k hi)

/-- The last bytes were there before. -/
theorem Wrote.shrink {mid : Nat} (h : Wrote inum off off' val fs fs') (hle : mid ≤ off')
    (hval : ∀ k, mid ≤ k → k < off' → val k = storedAt fs inum k) : Wrote inum off mid val fs fs' where
  grown := h.grown
  inside k hk hk' := h.inside k hk (by omega)
  outside k hne hk := by
    by_cases hin : off ≤ k ∧ k < off'
    · rw [(h.inside k hin.1 hin.2).2]
      exact hval k (by omega) hin.2
    · exact h.outside k hne hin
  other := h.other

theorem Wrote.backed (h : Wrote inum off off' val fs fs') (hb : Backed fs inum off) : Backed fs' inum off' := by
  intro bn hbn
  by_cases hlt : bn * BSIZE < off
  · exact hb.grown h.grown bn hlt
  · have hslot := (h.inside (bn * BSIZE) (by omega) hbn).1
    rwa [Nat.mul_div_cancel _ (by decide)] at hslot

/-- `bmap` changes no byte. -/
theorem Maps.wrote {bn : Nat} (hm : Maps inum (slotsOf inum bn) (slotAt inum bn) fs a fs') (h : Own (some inum) fs)
    (off : Nat) (val : Nat → BitVec 8) : Wrote inum off off val fs fs' := by
  obtain ⟨F, hF, hA⟩ := hm.allocs
  have hblock (i bn : Nat) (hne : addrOf fs (slotAt i bn) ≠ 0) :
      fs'.data (addrOf fs (slotAt i bn)) = fs.data (addrOf fs (slotAt i bn)) := by
    refine hA.data _ (h.owned.marked _ hne) fun e => ?_
    exact absurd (h.owned.inj _ _ hne e.symm) (slotAt_ne_indirect i bn inum)
  refine ⟨hA.grown, fun k hk hk' => absurd hk' (by omega), fun k hne' _ => ?_, fun i k hi => ?_⟩
  · rw [storedAt]
    split
    · -- only the block of `bn` can be new
      rename_i h0
      have hbn : k / BSIZE = bn := by
        by_contra hbn
        exact hne' ((hA.old _ fun hmem => slotAt_notMem_slotsOf hbn (hF hmem)).trans h0)
      rw [hbn] at h0 hne'
      rw [byteAt, hbn, hm.fresh h0 hne', byte_zeroBlock]
    · rename_i hne
      rw [byteAt, byteAt, hA.grown.addr _ hne, hblock inum _ hne]
  · have haddr := hA.grown.others.addr (slotAt i (k / BSIZE)) (by rwa [slotAt_inum])
    rw [byteAt, byteAt, haddr]
    by_cases hne : addrOf fs (slotAt i (k / BSIZE)) = 0
    · have h0 := h.metadata 0 h.owned.pos
      rw [hne, hA.data 0 h0 fun _ => rfl]
    · rw [hblock i _ hne]

/-- One round of the loop of `writei` writes within a block. -/
theorem wrote_setData (h : Own (some inum) fs) (ha : a ≠ 0) (hs : addrOf fs (slotAt inum (off / BSIZE)) = a.toNat)
    (hm : m ≤ BSIZE - off % BSIZE) {blk : Block}
    (hblk : ∀ j, byte blk j = if off % BSIZE ≤ j ∧ j < off % BSIZE + m then val (off + (j - off % BSIZE))
      else byte (fs.data a.toNat) j) :
    Wrote inum off (off + m) val fs (fs.setData a.toNat blk) := by
  obtain ⟨-, hgrown, haddr⟩ := own_setData h ha hs blk
  have hB : BSIZE = 1024 := rfl
  have hself (k : Nat) (hk : k / BSIZE = off / BSIZE) :
      byteAt (fs.setData a.toNat blk) inum k = byte blk (k % BSIZE) := by
    rw [byteAt, haddr, hk, hs]
    simp only [Fs.setData, Function.update_self]
  have hother (i k : Nat) (hne : ¬ (i = inum ∧ k / BSIZE = off / BSIZE)) :
      byteAt (fs.setData a.toNat blk) i k = byteAt fs i k := by
    have hne' : addrOf fs (slotAt i (k / BSIZE)) ≠ a.toNat := by
      intro e
      refine hne (slotAt_inj (h.owned.inj _ _ ?_ (e.trans hs.symm)))
      rw [e]
      exact toNat_ne_zero ha
    rw [byteAt, byteAt, haddr]
    simp only [Fs.setData, Function.update_of_ne hne']
  refine ⟨hgrown, fun k hk hk' => ?_, fun k hne hk => ?_, fun i k hi => hother i k fun h => hi h.1⟩
  · have hq : k / BSIZE = off / BSIZE := by
      rw [hB] at hm ⊢
      omega
    refine ⟨?_, ?_⟩
    · rw [haddr, hq, hs]
      exact toNat_ne_zero ha
    · have hin : off % BSIZE ≤ k % BSIZE ∧ k % BSIZE < off % BSIZE + m := by
        rw [hB] at hm hq ⊢
        omega
      have hpos : off + (k % BSIZE - off % BSIZE) = k := by
        rw [hB] at hm hq ⊢
        omega
      rw [hself k hq, hblk, if_pos hin, hpos]
  · rw [haddr] at hne
    rw [storedAt, if_neg hne]
    by_cases hq : k / BSIZE = off / BSIZE
    · have hout : ¬(off % BSIZE ≤ k % BSIZE ∧ k % BSIZE < off % BSIZE + m) := by
        rw [hB] at hm hq ⊢
        omega
      rw [hself k hq, hblk, if_neg hout, byteAt, hq, hs]
    · exact hother inum k fun h => hq h.2

/-! ## Blocks that a write needs -/

/-- The slots that a write of `[off, e)` needs. -/
def needed (inum off e : Nat) : Finset Slot :=
  ((Finset.range MAXFILE).filter fun bn => off < (bn + 1) * BSIZE ∧ bn * BSIZE < e).biUnion (slotsOf inum)

/-- Those of them that are empty. -/
def missing (fs : Fs) (inum off e : Nat) : Finset Slot := (needed inum off e).filter fun x => addrOf fs x = 0

theorem needed_mono (h : off ≤ off') : needed inum off' e ⊆ needed inum off e := by
  refine Finset.biUnion_subset_biUnion_of_subset_left _ fun bn hbn => ?_
  simp only [Finset.mem_filter] at hbn ⊢
  exact ⟨hbn.1, by omega, hbn.2.2⟩

/-- The block of `off` itself. -/
theorem slotsOf_subset_needed (inum : Nat) (he : e ≤ MAXFILE * BSIZE) (h : off < e) :
    slotsOf inum (off / BSIZE) ⊆ needed inum off e := by
  refine Finset.subset_biUnion_of_mem (slotsOf inum) ?_
  simp only [Finset.mem_filter, Finset.mem_range]
  unfold MAXFILE NDIRECT NINDIRECT BSIZE at *
  omega

/-- Blocks that were filled, and what is missing then, was missing before. -/
theorem Allocs.missing {F : Finset Slot} (hA : Allocs inum F fs fs') (hF : F ⊆ needed inum off e) (hle : off ≤ off') :
    F.card + (missing fs' inum off' e).card ≤ (missing fs inum off e).card := by
  have hdisj : Disjoint F (Blocks.missing fs' inum off' e) := by
    rw [Finset.disjoint_left]
    exact fun x hx hx' => (hA.new x hx).2.1 (Finset.mem_filter.1 hx').2
  rw [← Finset.card_union_of_disjoint hdisj]
  refine Finset.card_le_card fun x hx => ?_
  rcases Finset.mem_union.1 hx with hx | hx
  · exact Finset.mem_filter.2 ⟨hF hx, (hA.new x hx).1⟩
  · obtain ⟨hn, h0⟩ := Finset.mem_filter.1 hx
    have hxF : x ∉ F := fun h => (hA.new x h).2.1 h0
    rw [hA.old x hxF] at h0
    exact Finset.mem_filter.2 ⟨needed_mono hle hn, h0⟩

/-- The disk was full before all blocks were there. -/
theorem Maps.short {x : Slot} (hm : Maps inum (slotsOf inum (off / BSIZE)) x fs a fs') (h0 : a = 0)
    (he : e ≤ MAXFILE * BSIZE) (h : off < e) : fs.freeCount < (missing fs inum off e).card := by
  obtain ⟨F, hF, hA⟩ := hm.allocs
  obtain ⟨hfree, y, hy, hy0⟩ := hm.full h0
  have hsub := slotsOf_subset_needed inum he h
  have hle := hA.missing (hF.trans hsub) (Nat.le_refl off)
  have hpos : 0 < (missing fs' inum off e).card :=
    Finset.card_pos.2 ⟨y, Finset.mem_filter.2 ⟨hsub hy, hy0⟩⟩
  rw [← hA.free, hfree]
  omega

/-- An entry of the indirect block has the indirect block. -/
theorem addrOf_indirect_ne {i j : Nat} (h : addrOf fs (.entry i j) ≠ 0) : addrOf fs (.indirect i) ≠ 0 := by
  by_cases hc : (cur fs i).type ≠ 0 ∧ (cur fs i).addrs NDIRECT ≠ 0
  · have e : addrOf fs (.indirect i) = ((cur fs i).addrs NDIRECT).toNat := if_pos hc.1
    rw [e]
    exact toNat_ne_zero hc.2
  · exact absurd (if_neg hc) h

/-- `bmap` that failed has allocated the indirect block at most. -/
theorem Maps.addrs {bn : Nat} {y : Slot} (h : Maps inum (slotsOf inum bn) y fs a fs') (h0 : a = 0)
    (x : Slot) (hx : x ≠ .indirect inum) : addrOf fs' x = addrOf fs x := by
  obtain ⟨F, hF, hA⟩ := h.allocs
  obtain ⟨-, z, hz, hz0⟩ := h.full h0
  refine hA.old x fun hxF => ?_
  have hxne : addrOf fs' x ≠ 0 := (hA.new x hxF).2.1
  have hxS := hF hxF
  rw [slotsOf] at hxS hz
  split at hxS
  · rw [if_pos ‹_›] at hz
    rw [Finset.mem_singleton.1 hxS, ← Finset.mem_singleton.1 hz] at hxne
    exact hxne hz0
  · rw [if_neg ‹_›] at hz
    rcases Finset.mem_insert.1 hxS with hxi | hxe
    · exact hx hxi
    rw [Finset.mem_singleton.1 hxe] at hxne
    rcases Finset.mem_insert.1 hz with rfl | hz
    · exact addrOf_indirect_ne hxne hz0
    · rw [Finset.mem_singleton.1 hz] at hz0
      exact hxne hz0

/-- Nothing is missing where all blocks are there. -/
theorem missing_eq_empty (hb : ∀ bn, off < (bn + 1) * BSIZE → bn * BSIZE < e → addrOf fs (slotAt inum bn) ≠ 0) :
    missing fs inum off e = ∅ := by
  refine Finset.filter_eq_empty_iff.2 fun x hx => ?_
  obtain ⟨bn, hbn, hx⟩ := Finset.mem_biUnion.1 hx
  obtain ⟨-, hlo, hhi⟩ := Finset.mem_filter.1 hbn
  have hslot := hb bn hlo hhi
  rw [slotsOf] at hx
  rw [slotAt] at hslot
  split at hx
  · rename_i hdirect
    rw [if_pos hdirect] at hslot
    rw [Finset.mem_singleton.1 hx]
    exact hslot
  · rename_i hdirect
    rw [if_neg hdirect] at hslot
    rcases Finset.mem_insert.1 hx with rfl | hx
    · exact addrOf_indirect_ne hslot
    · rw [Finset.mem_singleton.1 hx]
      exact hslot

/-- Where bytes were written there were enough free blocks: the new blocks were free, and no two slots
hold the same one. -/
theorem Wrote.enough {d d' : Option Nat} (hw : Wrote inum off e val fs fs') (h : Own d fs) (h' : Own d' fs')
    (hlt : off < e) : (missing fs inum off e).card ≤ fs.freeCount := by
  have hfilled : missing fs' inum off e = ∅ := missing_eq_empty fun bn hlo hhi => by
    have hslot := (hw.inside (max off (bn * BSIZE)) (Nat.le_max_left ..) (by omega)).1
    rwa [show max off (bn * BSIZE) / BSIZE = bn by unfold BSIZE at *; omega] at hslot
  have hnew : ∀ x ∈ missing fs inum off e, addrOf fs x = 0 ∧ addrOf fs' x ≠ 0 := fun x hx => by
    obtain ⟨hn, h0⟩ := Finset.mem_filter.1 hx
    exact ⟨h0, Finset.filter_eq_empty_iff.1 hfilled hn⟩
  refine Finset.card_le_card_of_injOn (addrOf fs') (fun x hx => ?_) fun x hx y _ hxy =>
    h'.owned.inj x y (hnew x hx).2 hxy
  obtain ⟨h0, hne⟩ := hnew x hx
  obtain ⟨hlo, hhi⟩ := h'.owned.range x hne
  rw [hw.grown.others.sb] at hlo hhi
  refine Finset.mem_filter.2 ⟨Finset.mem_range.2 hhi, Bool.eq_false_iff.2 fun hused => ?_⟩
  obtain ⟨y, hy⟩ := h.owned.only _ hlo hhi hused
  have hy' := hw.grown.addr y (hy ▸ hne)
  rw [h'.owned.inj x y hne (hy'.trans hy).symm, hy] at h0
  exact hne h0

/-! ## `writei` -/

/-- A round of the loop of `writei` copies `l` bytes into the block of `base + tot`. -/
theorem wrote_copyin (src : Src) (hl : l = min m (src.avail - tot)) (h : Own (some inum) fs) (ha : a ≠ 0)
    (hs : addrOf fs (slotAt inum ((base + tot) / BSIZE)) = a.toNat) (hm : m ≤ BSIZE - (base + tot) % BSIZE)
    (hfs : fs' = fs.setData a.toNat (src.copyin (fs.data a.toNat) ((base + tot) % BSIZE) tot m)) :
    Own (some inum) fs' ∧ Wrote inum (base + tot) (base + (tot + l)) (fun k => src.byte (k - base)) fs fs' ∧
      (∀ off e, missing fs' inum off e = missing fs inum off e) ∧ fs'.freeCount = fs.freeCount := by
  have hmod : (base + tot) % BSIZE < BSIZE := Nat.mod_lt _ (by decide)
  obtain ⟨hown, -, haddr⟩ := own_setData h ha hs (src.copyin (fs.data a.toNat) ((base + tot) % BSIZE) tot m)
  rw [hfs, ← Nat.add_assoc]
  refine ⟨hown, wrote_setData h ha hs (by omega) fun j => ?_, fun off e => by rw [missing, missing, haddr], rfl⟩
  rw [byte_copyin src _ hl (by omega)]
  refine if_congr Iff.rfl (congrArg src.byte ?_) rfl
  omega

/-- What the loop of `writei` does, from `tot` bytes on: it ends at `r`, with the bytes up to `base + e`
in the blocks. That is past the end if a copy has failed in the middle of a block. -/
structure Looped (inum : Nat) (src : Src) (base tot n : Nat) (fs : Fs) (e : Nat) (r : Nat × Nat) (fs' : Fs) : Prop where
  own : Own (some inum) fs'
  off : r.1 = base + r.2
  le : tot ≤ r.2 ∧ r.2 ≤ n ∧ r.2 ≤ src.avail
  ends : r.2 = n ∨ r.2 = tot ∨ (base + r.2) % BSIZE = 0
  wrote : Wrote inum (base + tot) (base + e) (fun k => src.byte (k - base)) fs fs'
  torn : e = r.2 ∨ r.2 < e ∧ e = src.avail ∧ e < n ∧ (base + e) / BSIZE = (base + r.2) / BSIZE
  short : r.2 < n → src.avail ≤ e ∨ fs.freeCount < (missing fs inum (base + tot) (base + min n src.avail)).card
  failed : r.2 = tot → tot < n → n ≤ src.avail → ∀ x, x ≠ .indirect inum → addrOf fs' x = addrOf fs x

theorem looped_all (h : Own (some inum) fs) (hav : n ≤ src.avail) : Looped inum src base n n fs n (base + n, n) fs :=
  ⟨h, rfl, ⟨Nat.le_refl _, Nat.le_refl _, hav⟩, .inl rfl, .refl .., .inl rfl, fun hlt => absurd hlt (Nat.lt_irrefl _),
    fun _ hlt => absurd hlt (Nat.lt_irrefl _)⟩

theorem wp_writeLoop (src : Src) (fuel tot : Nat) (h : Own (some inum) fs) (hi : fs.Has inum ip) (ht : ip.type ≠ 0)
    (hmax : base + n ≤ MAXFILE * BSIZE) (hfuel : n ≤ tot + fuel) (htot : tot ≤ n) (hav : tot ≤ src.avail) :
    WP (writeLoop inum src n fuel (base + tot) tot) (fun _ => False)
      (fun r fs' => ∃ e, Looped inum src base tot n fs e r fs') fs := by
  induction fuel generalizing tot fs ip with
  | zero =>
    obtain rfl : tot = n := by omega
    exact .pure ⟨tot, looped_all h hav⟩
  | succ fuel ih =>
    unfold writeLoop
    refine .ite (fun hlt => .bind ?_) fun hge => ?_
    swap
    · obtain rfl : tot = n := by omega
      exact .pure ⟨tot, looped_all h hav⟩
    have hbn : (base + tot) / BSIZE < MAXFILE := by
      rw [Nat.div_lt_iff_lt_mul (by decide)]
      omega
    refine WP.weaken ((wp_bmap_maps h hi ht _).mono fun addr fs₁ hm => ?_) fun p hp => absurd hp.2 (by omega)
    obtain ⟨F, hF, hA⟩ := hm.allocs
    have hw₁ := hm.wrote h (base + tot) fun k => src.byte (k - base)
    refine .ite (fun h0 => .pure ⟨tot, hm.own, rfl, ⟨Nat.le_refl _, htot, hav⟩, .inr (.inl rfl), hw₁, .inl rfl,
      fun _ => ?_, fun _ _ _ => hm.addrs h0⟩) fun h0 => .bind (.get (.bind (.modify ?_)))
    · by_cases hend : src.avail ≤ tot
      · exact .inl hend
      · exact .inr (hm.short h0 (by omega) (by omega))
    -- the block of `base + tot` is there; `l` bytes go into it
    obtain ⟨m, hmin⟩ : ∃ m, m = min (n - tot) (BSIZE - (base + tot) % BSIZE) := ⟨_, rfl⟩
    obtain ⟨l, hl⟩ : ∃ l, l = min m (src.avail - tot) := ⟨_, rfl⟩
    have hmod : (base + tot) % BSIZE < BSIZE := Nat.mod_lt _ (by decide)
    rw [← hmin]
    obtain ⟨hown, hw₂, hmiss, hfree⟩ := wrote_copyin src hl hm.own h0 (hm.addr h0) (by omega) rfl
    have hw := hw₁.trans hw₂ (Nat.le_refl _) (by omega)
    refine .ite (fun hcopy => ?_) fun hfail => .pure ⟨tot + l, hown, rfl, ⟨Nat.le_refl _, htot, hav⟩, .inr (.inl rfl),
      hw, ?_, fun _ => .inl (by omega), fun _ _ hall => absurd (by omega) hfail⟩
    · obtain ⟨addrs, hi₂⟩ := hw.grown.inode ip hi
      obtain rfl : l = m := by omega
      rw [Nat.add_assoc base tot l]
      refine (ih (tot + l) hown hi₂ ht (by omega) (by omega) hcopy).mono fun r fs' ⟨e, hr⟩ => ?_
      have hle := hr.le
      refine ⟨e, hr.own, hr.off, ⟨by omega, hr.le.2⟩, ?_, hw.trans hr.wrote (by omega) ?_, hr.torn, fun hlt => ?_,
        fun heq => absurd heq (by omega)⟩
      · -- a round ends at the end of its block, or with the last byte
        rcases hr.ends with hend | hend | hend
        · exact .inl hend
        · have hmod' := Nat.mod_add_div (base + tot) BSIZE
          rw [hend]
          unfold BSIZE at *
          omega
        · exact .inr (.inr hend)
      · rcases hr.torn with he | ⟨he, -⟩ <;> omega
      · refine (hr.short hlt).imp_right fun hless => ?_
        have hstep : base + tot ≤ base + (tot + l) := by omega
        have hmiss' := hA.missing (hF.trans (slotsOf_subset_needed inum (e := base + min n src.avail) (by omega)
          (by omega))) hstep
        rw [hmiss, hfree] at hless
        rw [← hA.free]
        omega
    · by_cases hl0 : l = 0
      · exact .inl (by rw [hl0]; rfl)
      · have hmod' := Nat.mod_add_div (base + tot) BSIZE
        refine .inr ⟨by omega, by omega, by omega, ?_⟩
        show (base + (tot + l)) / BSIZE = (base + tot) / BSIZE
        unfold BSIZE at *
        omega

/-- `writei` with these arguments returns -1. -/
def Refused (size : Nat) (off n : BitVec 32) : Prop :=
  size < off.toNat ∨ 2 ^ 32 ≤ off.toNat + n.toNat ∨ MAXFILE * BSIZE < off.toNat + n.toNat

instance (size : Nat) (off n : BitVec 32) : Decidable (Refused size off n) := by
  unfold Refused
  infer_instance

theorem wraps_iff (off n : BitVec 32) : off + n < off ↔ 2 ^ 32 ≤ off.toNat + n.toNat := by
  have := off.isLt
  have := n.isLt
  rw [BitVec.lt_def, BitVec.toNat_add]
  omega

/-- `writei` accepts the arguments. -/
theorem not_refused {off n : BitVec 32} (h : ¬(off > ip.size ∨ off + n < off)) (hmax : ¬(off + n).toNat > MAXFILE * BSIZE) :
    ¬ Refused ip.size.toNat off n ∧ off.toNat ≤ ip.size.toNat ∧ off.toNat + n.toNat ≤ MAXFILE * BSIZE := by
  obtain ⟨hle, hno⟩ := not_or.1 h
  have hle : off.toNat ≤ ip.size.toNat := BitVec.le_def.1 (BitVec.not_lt.1 hle)
  have hsum := toNat_add_of_not_lt hno
  rw [wraps_iff] at hno
  refine ⟨?_, hle, by omega⟩
  rintro (h | h | h) <;> omega

theorem refused_of_wraps {off n : BitVec 32} (h : off > ip.size ∨ off + n < off) : Refused ip.size.toNat off n := by
  rcases h with h | h
  · exact .inl (BitVec.lt_def.1 h)
  · exact .inr (.inl ((wraps_iff off n).1 h))

/-- What `writei` does with arguments that it accepts: after the loop, which ends at `tot` in `fs₁`, it
changes no more than the size of the inode, and writes the inode to disk. -/
structure Written (inum : Nat) (ip : Dinode) (src : Src) (off n : Nat) (fs : Fs) (e tot : Nat) (fs₁ fs' : Fs) : Prop where
  loop : Looped inum src off 0 n fs e (off + tot, tot) fs₁
  start : off ≤ ip.size.toNat
  own : Own none fs'
  data : fs'.data = fs₁.data
  addr : addrOf fs' = addrOf fs₁
  inode : ∃ addrs size, fs'.Has inum { ip with addrs, size } ∧ size.toNat = max ip.size.toNat (off + tot)
  ref : (fs'.itable inum).ref = (fs₁.itable inum).ref
  sb : fs'.sb = fs₁.sb
  itable : ∀ i, i ≠ inum → fs'.itable i = fs₁.itable i
  dinode : ∀ i, i ≠ inum → fs'.dinode i = fs₁.dinode i

theorem Looped.written {fs₁ : Fs} {addrs : Nat → BitVec 32} (size : BitVec 32)
    (hl : Looped inum src off 0 n fs e (off + tot, tot) fs₁) (hc : Clean fs inum ip) (hoff : off ≤ ip.size.toNat)
    (hmax : off + n ≤ MAXFILE * BSIZE) (hi : fs₁.Has inum { ip with addrs })
    (hsize : size.toNat = max ip.size.toNat (off + tot)) : Written inum ip src off n fs e tot fs₁
      ((fs₁.setInode inum { ip with addrs, size }).flush inum { ip with addrs, size }) := by
  have hset : addrOf (fs₁.setInode inum { ip with addrs, size }) = addrOf fs₁ := addrOf_setInode hi rfl rfl
  have hle := hl.le
  have hbacked : Backed fs₁ inum size.toNat := by
    rw [hsize]
    intro bn hbn
    by_cases hlt : bn * BSIZE < ip.size.toNat
    · exact hc.backed.grown hl.wrote.grown bn hlt
    · refine hl.wrote.backed (hc.backed.mono hoff) bn ?_
      rcases hl.torn with he | ⟨he, -⟩ <;> omega
  refine ⟨hl, hoff, own_flush (own_setInode _ hl.own hi rfl rfl) (inode_setInode ..) ⟨?_, hc.type, ?_, ?_⟩, rfl,
    (addrOf_flush (inode_setInode ..)).trans hset, ⟨addrs, size, inode_setInode .., hsize⟩, ref_setInode .., rfl,
    fun i hne => update_of_ne hne .., fun i hne => update_of_ne hne ..⟩
  · rw [ref_setInode, hl.wrote.grown.ref]
    exact hc.ref
  · have := hc.size
    show size.toNat ≤ _
    omega
  · intro bn hbn
    rw [hset]
    exact hbacked bn hbn

theorem wp_writei (h : Own none fs) (hi : fs.Has inum ip) (src : Src) (off n : BitVec 32) :
    WP (writei inum src off n) (fun _ => False) (fun r fs' =>
      if Refused ip.size.toNat off n then r = -1 ∧ fs' = fs
      else ∃ (e tot : Nat) (fs₁ : Fs), r = tot ∧ Written inum ip src off.toNat n.toNat fs e tot fs₁ fs') fs := by
  unfold writei
  refine .bind (wp_inode_of hi ?_)
  refine .ite (fun hbad => .pure ?_) fun hok => .ite (fun hbig => .pure ?_) fun hmax => ?_
  · rw [if_pos (refused_of_wraps hbad)]
    exact ⟨rfl, rfl⟩
  · have hsum := toNat_add_of_not_lt (not_or.1 hok).2
    rw [if_pos (.inr (.inr (by omega)))]
    exact ⟨rfl, rfl⟩
  · obtain ⟨hnot, hoff, hend⟩ := not_refused hok hmax
    have hc := h.cleanOf hi
    simp only [if_neg hnot]
    refine .bind ((wp_writeLoop src n.toNat 0 (h.dirty inum) hi hc.type hend (by omega) (Nat.zero_le _)
      (Nat.zero_le _)).mono ?_)
    rintro ⟨off', tot⟩ fs₁ ⟨e, hl⟩
    obtain rfl : off' = off.toNat + tot := hl.off
    have hle := hl.le
    obtain ⟨addrs, hi₁⟩ := hl.wrote.grown.inode ip hi
    have hMAX : MAXFILE * BSIZE < 2 ^ 32 := by decide
    refine .bind (wp_inode_of hi₁ (.bind ?_))
    unfold iupdate
    refine .ite (fun hgt => wp_setInode (.bind (.bind (wp_inode_of (inode_setInode ..) (.modify (.pure ?_))))))
      fun hgt => .pure (.bind (.bind (wp_inode_of hi₁ (.modify (.pure ?_)))))
    · have hgt : ip.size.toNat < off.toNat + tot := hgt
      refine ⟨e, tot, fs₁, rfl, hl.written _ hc hoff hend hi₁ ?_⟩
      rw [BitVec.toNat_ofNat, Nat.mod_eq_of_lt (by omega)]
      omega
    · have hgt : ¬ip.size.toNat < off.toNat + tot := hgt
      have hw := hl.written ip.size hc hoff hend hi₁ (by omega)
      rw [setInode_self hi₁] at hw
      exact ⟨e, tot, fs₁, rfl, hw⟩

/-! ## `readi` -/

variable {alloc : M (BitVec 32)}

/-- The loop of `readi`, when all blocks are there. It fails if the bytes cannot all be copied out. -/
theorem wp_readLoop_bytes {E : Panic → Prop} (hi : fs.Has inum ip) (ht : ip.type ≠ 0) {avail : Nat}
    (hb : Backed fs inum m) (hm : base + n ≤ m) (fuel tot : Nat) (hfuel : n ≤ tot + fuel) (htot : tot ≤ n)
    (havail : tot ≤ avail) :
    WP (readLoop inum n avail fuel (base + tot) tot ((range tot).map fun k => byteAt fs inum (base + k)) alloc)
      E (fun r fs' => fs' = fs ∧
        r = if n ≤ avail then some ((range n).map fun k => byteAt fs inum (base + k)) else none) fs := by
  induction fuel generalizing tot with
  | zero =>
    have hend : tot = n := by omega
    rw [hend] at havail ⊢
    rw [if_pos havail]
    exact .pure ⟨rfl, rfl⟩
  | succ fuel ih =>
    unfold readLoop
    refine .ite (fun hlt => .bind ?_) fun hge => ?_
    · have hbn : (base + tot) / BSIZE * BSIZE < m := by
        have := Nat.div_mul_le_self (base + tot) BSIZE
        omega
      refine (wp_bmap_present hi ht (hb _ hbn)).mono ?_
      rintro addr fs₁ ⟨⟨h0, e⟩, ha⟩
      subst e
      refine .ite (fun hc => absurd hc h0) fun _ => .bind (.get ?_)
      obtain ⟨l, hmin⟩ : ∃ l, l = min (n - tot) (BSIZE - (base + tot) % BSIZE) := ⟨_, rfl⟩
      have hmod : (base + tot) % BSIZE < BSIZE := Nat.mod_lt _ (by decide)
      rw [← hmin]
      refine .ite (fun hcopy => ?_) fun hfail => .pure ⟨rfl, (if_neg (by omega)).symm⟩
      have hbytes : ((range l).map fun k => byte (fs₁.data addr.toNat) ((base + tot) % BSIZE + k)) =
          (range l).map fun k => byteAt fs₁ inum (base + (tot + k)) := by
        refine map_congr_left fun k hk => ?_
        have hk := mem_range.1 hk
        obtain ⟨hq, hr⟩ := same_block (i := base + tot) (k := k) (by omega)
        rw [Nat.add_assoc] at hq hr
        rw [byteAt, hq, hr, ha]
      have happ : ((range tot).map fun k => byteAt fs₁ inum (base + k)) ++
          ((range l).map fun k => byteAt fs₁ inum (base + (tot + k))) =
          (range (tot + l)).map fun k => byteAt fs₁ inum (base + k) := by
        rw [range_add, map_append, map_map]
        rfl
      rw [hbytes, happ, Nat.add_assoc]
      exact ih (tot + l) (by omega) (by omega) hcopy
    · have hend : tot = n := by omega
      rw [hend] at havail ⊢
      rw [if_pos havail]
      exact .pure ⟨rfl, rfl⟩

/-- The bytes of an inode. -/
def content (fs : Fs) (i : Nat) : List (BitVec 8) := (List.range (cur fs i).size.toNat).map (byteAt fs i)

@[simp] theorem length_content (fs : Fs) (i : Nat) : (content fs i).length = (cur fs i).size.toNat := by
  simp [content]

/-- The bytes that `readi` is to return. -/
def readable (c : List (BitVec 8)) (off n : BitVec 32) : List (BitVec 8) :=
  if c.length < off.toNat ∨ 2 ^ 32 ≤ off.toNat + n.toNat then [] else (c.drop off.toNat).take n.toNat

theorem take_drop_content {off n m : Nat} (hm : m = min n ((cur fs inum).size.toNat - off)) :
    ((content fs inum).drop off).take n = (range m).map fun k => byteAt fs inum (off + k) := by
  refine ext_getElem ?_ fun k hk hk' => ?_
  · simp [hm]
  · simp [content]

/-- A clean inode is read without its allocator. -/
theorem wp_readi_content {E : Panic → Prop} (hc : Clean fs inum ip) (hi : fs.Has inum ip) (off n : BitVec 32) (avail : Nat) :
    WP (readi inum off n avail alloc) E (fun r fs' => fs' = fs ∧
      r = if (readable (content fs inum) off n).length ≤ avail then some (readable (content fs inum) off n)
        else none) fs := by
  have hcur := cur_of_inode hi
  unfold readi
  refine .bind (wp_inode_of hi ?_)
  refine .ite (fun hbad => .pure ⟨rfl, ?_⟩) fun hok => ?_
  · have hempty : readable (content fs inum) off n = [] := by
      refine if_pos ?_
      rw [length_content, hcur]
      exact hbad.imp BitVec.lt_def.1 (wraps_iff off n).1
    rw [hempty]
    exact (if_pos (Nat.zero_le _)).symm
  · obtain ⟨hle, hno⟩ := not_or.1 hok
    have hle : off.toNat ≤ ip.size.toNat := BitVec.le_def.1 (BitVec.not_lt.1 hle)
    have hsum := toNat_add_of_not_lt hno
    rw [wraps_iff] at hno
    -- the number of bytes to read, as the code computes it
    have hmin : (if off + n > ip.size then ip.size - off else n).toNat = min n.toNat (ip.size.toNat - off.toNat) := by
      split
      · rename_i hgt
        have hgt : ip.size.toNat < (off + n).toNat := BitVec.lt_def.1 hgt
        rw [BitVec.toNat_sub_of_le (BitVec.le_def.2 hle)]
        omega
      · rename_i hgt
        have hgt : (off + n).toNat ≤ ip.size.toNat := BitVec.le_def.1 (BitVec.not_lt.1 hgt)
        omega
    have hread : readable (content fs inum) off n = (range (min n.toNat (ip.size.toNat - off.toNat))).map
        fun k => byteAt fs inum (off.toNat + k) := by
      rw [readable, if_neg]
      · exact take_drop_content (by rw [hcur])
      · rw [length_content, hcur]
        omega
    rw [hread, length_map, length_range, ← hmin]
    have hend : off.toNat + (if off + n > ip.size then ip.size - off else n).toNat ≤ ip.size.toNat := by
      omega
    exact wp_readLoop_bytes hi hc.type hc.backed hend _ 0 (by omega) (Nat.zero_le _) (Nat.zero_le _)

end Xv6.Blocks
