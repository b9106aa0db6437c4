import Xv6.Blocks.Own

/-!
# Block ownership through changes of an inode

What the parts of `writei` and `readi` do to the slots of an inode: writing a data block, changing the
inode and its copy on disk, and finding a block that is there. `wp_itrunc` frees all blocks of an inode.
-/

namespace Xv6.Blocks

open Function

variable {fs fs' : Fs} {inum : Nat} {ip ip' : Dinode}

/-! ## Data blocks -/

/-- All slots of the blocks below offset `m` are filled. -/
def Backed (fs : Fs) (inum m : Nat) : Prop := ∀ bn, bn * BSIZE < m → addrOf fs (slotAt inum bn) ≠ 0

variable {m bn r k : Nat} {y : Slot}

theorem Backed.mono {m' : Nat} (h : Backed fs inum m) (hm : m' ≤ m) : Backed fs inum m' :=
  fun bn hbn => h bn (by omega)

theorem Backed.grown (h : Backed fs inum m) (hg : Grown inum fs fs') : Backed fs' inum m := by
  intro bn hbn
  rw [hg.addr _ (h bn hbn)]
  exact h bn hbn

theorem slotAt_ne_indirect (inum bn i : Nat) : slotAt inum bn ≠ .indirect i := by
  unfold slotAt
  split <;> nofun

/-- Writing a data block of the inode. -/
theorem own_setData (h : Own (some inum) fs) {a : BitVec 32} (ha : a ≠ 0) (hs : addrOf fs (slotAt inum bn) = a.toNat)
    (blk : Block) : Own (some inum) (fs.setData a.toNat blk) ∧ Grown inum fs (fs.setData a.toNat blk) ∧
      addrOf (fs.setData a.toNat blk) = addrOf fs := by
  have hne : ∀ i, addrOf fs (.indirect i) ≠ a.toNat := fun i e =>
    slotAt_ne_indirect inum bn i (h.owned.inj _ _ (by rw [hs]; exact toNat_ne_zero ha) (hs.trans e.symm))
  have haddr : addrOf (fs.setData a.toNat blk) = addrOf fs := funext fun x => addrOf_setData blk (hne _)
  have ho : Others inum fs (fs.setData a.toNat blk) :=
    ⟨rfl, fun _ _ => rfl, fun _ _ => rfl, fun x _ => congrFun haddr x⟩
  refine ⟨h.step ho ?_ h.metadata, ⟨ho, rfl, rfl, fun ip hi => ⟨ip.addrs, hi⟩, fun x _ => congrFun haddr x⟩, haddr⟩
  rw [haddr]
  exact h.owned

/-! ## Changes of an inode in memory and on disk -/

def Fs.flush (fs : Fs) (inum : Nat) (ip : Dinode) : Fs := { fs with dinode := update fs.dinode inum ip }

theorem wp_iupdate {Q : Unit → Fs → Prop} (h : ∀ ip, (fs.itable inum).inode = some ip → Q () (fs.flush inum ip)) :
    WP (iupdate inum) NotFree Q fs := by
  unfold iupdate
  exact .bind (wp_inode fun ip hi => .modify (h ip hi))

theorem cur_flush (hi : fs.Has inum ip) (i : Nat) : cur (fs.flush inum ip) i = cur fs i := by
  by_cases e : i = inum
  · rw [e, cur_of_inode hi]
    exact cur_of_inode hi
  · simp [cur, Fs.flush, e]

theorem addrOf_flush (hi : fs.Has inum ip) : addrOf (fs.flush inum ip) = addrOf fs := by
  funext x
  rw [addrOf, cur_flush hi]
  rfl

/-- An inode that `iupdate` may write: it can be seen to be allocated, and has no holes. -/
structure Clean (fs : Fs) (inum : Nat) (ip : Dinode) : Prop where
  ref : 0 < (fs.itable inum).ref
  type : ip.type ≠ 0
  size : ip.size.toNat ≤ MAXFILE * BSIZE
  backed : Backed fs inum ip.size.toNat

theorem own_flush (h : Own (some inum) fs) (hi : fs.Has inum ip) (hc : Clean fs inum ip) : Own none (fs.flush inum ip) := by
  have ho : Others inum fs (fs.flush inum ip) :=
    ⟨rfl, fun _ _ => rfl, fun _ hi' => update_of_ne hi' .., fun x _ => congrFun (addrOf_flush hi) x⟩
  have hown : Own (some inum) (fs.flush inum ip) :=
    h.step ho (by rw [addrOf_flush hi]; exact h.owned) h.metadata
  refine hown.clean (fun _ => ?_) fun ip' hi' => ?_
  · rw [cur_flush hi, cur_of_inode hi, addrOf_flush hi]
    exact ⟨hc.size, hc.backed⟩
  · obtain rfl : ip = ip' := Option.some.inj (hi.symm.trans hi')
    exact ⟨hc.ref, hc.type, update_self ..⟩

/-- Changing fields of the inode other than its type and addresses. -/
theorem addrOf_setInode (hi : fs.Has inum ip) (ht : ip'.type = ip.type) (ha : ip'.addrs = ip.addrs) :
    addrOf (fs.setInode inum ip') = addrOf fs := by
  funext x
  by_cases hx : x.inum = inum
  · rw [addrOf_setInode_self _ _ hx, addrOf_of_inode hi hx]
    cases x <;> simp only [inodeAddr, ht, ha]
  · exact addrOf_setInode_ne _ _ hx

theorem setInode_self (hi : fs.Has inum ip) : fs.setInode inum ip = fs := by
  have hself : { fs.itable inum with inode := some ip } = fs.itable inum := by rw [← hi]
  rw [Fs.setInode, hself, update_eq_self]

theorem own_setInode (ip' : Dinode) (h : Own (some inum) fs) (hi : fs.Has inum ip) (ht : ip'.type = ip.type)
    (ha : ip'.addrs = ip.addrs) : Own (some inum) (fs.setInode inum ip') := by
  refine h.step (others_setInode ..) ?_ h.metadata
  rw [addrOf_setInode hi ht ha]
  exact h.owned

theorem Own.cleanOf (h : Own none fs) (hi : fs.Has inum ip) : Clean fs inum ip := by
  obtain ⟨href, ht, -⟩ := h.valid inum ip nofun hi
  have hf := h.filled inum nofun
  unfold Filled at hf
  rw [cur_of_inode hi] at hf
  exact ⟨href, ht, (hf ht).1, (hf ht).2⟩

theorem ref_setInode (fs : Fs) (inum : Nat) (ip : Dinode) :
    ((fs.setInode inum ip).itable inum).ref = (fs.itable inum).ref := by
  simp [Fs.setInode]

theorem wp_iupdate_own (h : Own (some inum) fs) (hi : fs.Has inum ip) (hc : Clean fs inum ip) :
    WP (iupdate inum) NotFree (fun _ fs' => Own none fs') fs := by
  refine wp_iupdate fun ip' hi' => ?_
  obtain rfl : ip = ip' := Option.some.inj (hi.symm.trans hi')
  exact own_flush h hi hc

/-- `iupdate` after a change of fields other than the type and the addresses. -/
theorem wp_iupdate_setInode (h : Own (some inum) fs) (hi : fs.Has inum ip) (hc : Clean fs inum ip')
    (ht : ip'.type = ip.type) (ha : ip'.addrs = ip.addrs) :
    WP (iupdate inum) NotFree (fun _ fs' => Own none fs') (fs.setInode inum ip') := by
  refine wp_iupdate_own (own_setInode ip' h hi ht ha) (inode_setInode ..)
    ⟨by rw [ref_setInode]; exact hc.ref, hc.type, hc.size, ?_⟩
  unfold Backed
  rw [addrOf_setInode hi ht ha]
  exact hc.backed

theorem toNat_add_of_not_lt {a b : BitVec 32} (h : ¬a + b < a) : (a + b).toNat = a.toNat + b.toNat := by
  have := a.isLt
  have := b.isLt
  rw [BitVec.lt_def, BitVec.toNat_add] at h
  rw [BitVec.toNat_add]
  omega

/-! ## `readi` -/

/-- Where `bmap` finds the address of a block that is there. -/
theorem addrOf_slotAt (hi : fs.Has inum ip) (ht : ip.type ≠ 0) (hb : addrOf fs (slotAt inum bn) ≠ 0) :
    (bn < NDIRECT ∧ ip.addrs bn ≠ 0 ∧ (ip.addrs bn).toNat = addrOf fs (slotAt inum bn)) ∨
    (¬bn < NDIRECT ∧ bn - NDIRECT < NINDIRECT ∧ ip.addrs NDIRECT ≠ 0 ∧
      word (fs.data (ip.addrs NDIRECT).toNat) (bn - NDIRECT) ≠ 0 ∧
      (word (fs.data (ip.addrs NDIRECT).toNat) (bn - NDIRECT)).toNat = addrOf fs (slotAt inum bn)) := by
  by_cases hbn : bn < NDIRECT
  · have hs : addrOf fs (slotAt inum bn) = (ip.addrs bn).toNat := by
      rw [slotAt, if_pos hbn, addrOf_of_inode hi rfl, inodeAddr, if_pos ⟨ht, hbn⟩]
    rw [hs] at hb ⊢
    exact .inl ⟨hbn, fun e => hb (by rw [e]; rfl), rfl⟩
  · have hs : addrOf fs (slotAt inum bn) = addrOf fs (.entry inum (bn - NDIRECT)) := by
      rw [slotAt, if_neg hbn]
    have hind : ip.addrs NDIRECT ≠ 0 := by
      intro e
      rw [hs, addrOf_of_inode hi rfl, inodeAddr] at hb
      exact hb (if_neg fun h => h.2 e)
    rw [hs, addrOf_entry hi ht hind] at hb ⊢
    have h0 : word (fs.data (ip.addrs NDIRECT).toNat) (bn - NDIRECT) ≠ 0 := fun e => hb (by rw [e]; rfl)
    have hj : bn - NDIRECT < NINDIRECT := by
      by_contra hj
      exact h0 (dif_neg hj)
    exact .inr ⟨hbn, hj, hind, h0, rfl⟩

/-- `bmap` of a block that is there does not get to its allocator. -/
theorem wp_bmap_present {E : Panic → Prop} {alloc : M (BitVec 32)} (hi : fs.Has inum ip) (ht : ip.type ≠ 0)
    (hb : addrOf fs (slotAt inum bn) ≠ 0) :
    WP (bmap inum bn alloc) E (fun a fs' => (a ≠ 0 ∧ fs' = fs) ∧ a.toNat = addrOf fs (slotAt inum bn)) fs := by
  unfold bmap
  refine .bind (wp_inode_of hi ?_)
  have hthere : ∀ {k : Nat} {Q : BitVec 32 → Fs → Prop}, ip.addrs k ≠ 0 → Q (ip.addrs k) fs →
      WP (addrAt inum ip k alloc) E Q fs := fun hk hq =>
    .ite (fun hc => absurd hc hk) fun _ => .pure hq
  obtain ⟨hbn, h0, hs⟩ | ⟨hbn, hj, hind, h0, hs⟩ := addrOf_slotAt hi ht hb
  · exact .ite (fun _ => hthere h0 ⟨⟨h0, rfl⟩, hs⟩) fun hc => absurd hbn hc
  · refine .ite (fun hc => absurd hc hbn) fun _ => .ite (fun _ => ?_) fun hc => absurd hj hc
    refine .bind (hthere hind (.ite (fun hc => absurd hc hind) fun _ => ?_))
    exact .bind (.get (.ite (fun hc => absurd hc h0) fun _ => .pure ⟨⟨h0, rfl⟩, hs⟩))

/-! ## `itrunc` -/

def Fs.free (fs : Fs) (b : Nat) : Fs := { fs with used := update fs.used b false }

/-- A free that keeps the metadata marked. -/
theorem metadata_free {used : Nat → Bool} {lo b : Nat} (hm : ∀ c, c < lo → used c = true) (hb : lo ≤ b) :
    ∀ c, c < lo → update used b false c = true := by
  intro c hc
  rw [update_of_ne (by omega)]
  exact hm c hc

/-- The inode, which was `ip`, with the addresses below `k` freed. Nothing else has changed but the map
of the blocks in use. -/
structure Trunc (inum : Nat) (ip : Dinode) (fs₀ : Fs) (k : Nat) (fs : Fs) : Prop where
  own : Own (some inum) fs
  inode : ∃ addrs size, fs.Has inum { ip with addrs, size } ∧ ∀ j < k, addrs j = 0
  ref : (fs.itable inum).ref = (fs₀.itable inum).ref
  sb : fs.sb = fs₀.sb
  data : fs.data = fs₀.data
  itable : ∀ i, i ≠ inum → fs.itable i = fs₀.itable i
  dinode : ∀ i, i ≠ inum → fs.dinode i = fs₀.dinode i

variable {fs₀ : Fs} {addrs : Nat → BitVec 32} {size : BitVec 32} {E : Panic → Prop}

theorem zero_succ (hz : ∀ j < k, addrs j = 0) (h0 : addrs k = 0) : ∀ j < k + 1, addrs j = 0 := fun j hj => by
  by_cases e : j = k
  · rw [e, h0]
  · exact hz j (by omega)

/-- The address `k` is 0 now, and nothing else of the inode has changed. -/
theorem Trunc.clear {used : Nat → Bool} (h : Trunc inum ip fs₀ k fs) (hz : ∀ j < k, addrs j = 0)
    (hown : Own (some inum) (Fs.setInode { fs with used } inum (Dinode.setAddr { ip with addrs, size } k 0))) :
    Trunc inum ip fs₀ (k + 1) (Fs.setInode { fs with used } inum (Dinode.setAddr { ip with addrs, size } k 0)) := by
  refine ⟨hown, ⟨update addrs k 0, size, inode_setInode .., zero_succ (fun j hj => ?_) (update_self ..)⟩,
    (ref_setInode ..).trans h.ref, h.sb, h.data, fun i hne => (update_of_ne hne ..).trans (h.itable i hne), h.dinode⟩
  rw [update_of_ne (by omega)]
  exact hz j hj

theorem inodeAddr_clear_direct {data : Nat → Block} (hk : k < NDIRECT) (hy : y.inum = inum) :
    inodeAddr (ip.setAddr k 0) data y = update (inodeAddr ip data) (.direct inum k) 0 y := by
  by_cases e : y = .direct inum k
  · rw [e, update_self, inodeAddr, Dinode.setAddr_addrs, update_self]
    exact ite_self _
  rw [update_of_ne e]
  cases y with
  | direct i j =>
    obtain rfl : i = inum := hy
    have hj : j ≠ k := fun h => e (by rw [h])
    rw [inodeAddr, inodeAddr, Dinode.setAddr_type, Dinode.setAddr_addrs, update_of_ne hj]
  | indirect | entry =>
    have hk' : NDIRECT ≠ k := by omega
    rw [inodeAddr, inodeAddr, Dinode.setAddr_type, Dinode.setAddr_addrs, update_of_ne hk']

theorem own_clear_direct (h : Own (some inum) fs) (hi : fs.Has inum ip) (ht : ip.type ≠ 0) (hk : k < NDIRECT)
    (h0 : ip.addrs k ≠ 0) : Own (some inum) ((fs.free (ip.addrs k).toNat).setInode inum (ip.setAddr k 0)) := by
  have hself : addrOf fs (.direct inum k) = (ip.addrs k).toNat := by
    rw [addrOf_of_inode hi rfl, inodeAddr, if_pos ⟨ht, hk⟩]
  have haddr : addrOf ((fs.free (ip.addrs k).toNat).setInode inum (ip.setAddr k 0)) =
      update (addrOf fs) (.direct inum k) 0 := by
    funext y
    by_cases hy : y.inum = inum
    · rw [addrOf_setInode_self _ _ hy, inodeAddr_clear_direct hk hy]
      by_cases e : y = .direct inum k
      · rw [e, update_self, update_self]
      · rw [update_of_ne e, update_of_ne e, addrOf_of_inode hi hy]
        rfl
    · have hne : y ≠ .direct inum k := fun e => hy (e ▸ rfl)
      rw [addrOf_setInode_ne _ _ hy, update_of_ne hne]
      rfl
  have hlo := (h.owned.range (.direct inum k) (by rw [hself]; exact toNat_ne_zero h0)).1
  rw [hself] at hlo
  refine h.step ⟨rfl, fun _ hi' => update_of_ne hi' .., fun _ _ => rfl, fun x hx => ?_⟩ ?_
    (metadata_free h.metadata hlo)
  · have hne : x ≠ .direct inum k := fun e => hx (e ▸ rfl)
    rw [haddr, update_of_ne hne]
  · rw [haddr, ← hself]
    exact h.owned.free _

theorem wp_truncDirect (h : Trunc inum ip fs₀ k fs) (ht : ip.type ≠ 0) (hk : k < NDIRECT) :
    WP (do
      let ip ← inode inum
      if ip.addrs k ≠ 0 then
        bfree (ip.addrs k)
        setInode inum (ip.setAddr k 0)
      else pure () : M Unit) E (fun _ => Trunc inum ip fs₀ (k + 1)) fs := by
  obtain ⟨addrs, size, hi, hz⟩ := h.inode
  refine .bind (wp_inode_of hi (.ite (fun h0 => ?_) fun h0 => ?_))
  · have hself : addrOf fs (.direct inum k) = (addrs k).toNat := by
      rw [addrOf_of_inode hi rfl, inodeAddr, if_pos ⟨ht, hk⟩]
    have hu := h.own.owned.marked (.direct inum k) (by rw [hself]; exact toNat_ne_zero h0)
    rw [hself] at hu
    exact .bind (wp_bfree hu (wp_setInode (h.clear hz (own_clear_direct h.own hi ht hk h0))))
  · exact .pure { h with inode := ⟨addrs, size, hi, zero_succ hz (Decidable.not_not.1 h0)⟩ }

/-- The slots with the first `j` entries of the indirect block of an inode freed. -/
def clearEntries (inum j : Nat) (addr : Slot → Nat) : Slot → Nat
  | .entry i k => if i = inum ∧ k < j then 0 else addr (.entry i k)
  | x => addr x

theorem clearEntries_succ (inum j : Nat) (addr : Slot → Nat) :
    clearEntries inum (j + 1) addr = update (clearEntries inum j addr) (.entry inum j) 0 := by
  funext y
  by_cases e : y = .entry inum j
  · rw [e, update_self, clearEntries, if_pos ⟨rfl, Nat.lt_succ_self j⟩]
  rw [update_of_ne e]
  cases y with
  | direct | indirect => rfl
  | entry i k =>
    have hk : i = inum ∧ k < j + 1 ↔ i = inum ∧ k < j := by
      refine ⟨fun ⟨hi, hk⟩ => ⟨hi, ?_⟩, fun ⟨hi, hk⟩ => ⟨hi, by omega⟩⟩
      have hne : k ≠ j := fun h => e (by rw [hi, h])
      omega
    rw [clearEntries, clearEntries]
    exact if_congr hk rfl rfl

theorem clearEntries_of_ne {j : Nat} {addr : Slot → Nat} (hy : y.inum ≠ inum) : clearEntries inum j addr y = addr y := by
  cases y with
  | direct | indirect => rfl
  | entry i k => exact if_neg fun h => hy h.1

/-- The addresses of an inode after its indirect block is gone. -/
theorem inodeAddr_clear_indirect (hi : fs.Has inum ip) (hy : y.inum = inum) : inodeAddr (ip.setAddr NDIRECT 0) fs.data y =
      update (clearEntries inum NINDIRECT (addrOf fs)) (.indirect inum) 0 y := by
  by_cases e : y = .indirect inum
  · rw [e, update_self, inodeAddr, Dinode.setAddr_addrs, update_self]
    exact ite_self _
  rw [update_of_ne e]
  cases y with
  | direct i k =>
    rw [clearEntries, addrOf_of_inode hi hy, inodeAddr, inodeAddr, Dinode.setAddr_type, Dinode.setAddr_addrs]
    · by_cases hk : k < NDIRECT
      · rw [update_of_ne (by omega)]
      · rw [if_neg fun h => hk h.2, if_neg fun h => hk h.2]
    · simp
  | indirect i => exact absurd (congrArg Slot.indirect hy) e
  | entry i k =>
    have h0 : ¬((ip.setAddr NDIRECT 0).type ≠ 0 ∧ (ip.setAddr NDIRECT 0).addrs NDIRECT ≠ 0) :=
      fun h => h.2 (update_self NDIRECT 0 ip.addrs)
    rw [inodeAddr, if_neg h0, clearEntries]
    split
    · rfl
    · rename_i hk'
      have hk : ¬k < 256 := fun hk => hk' ⟨hy, hk⟩
      rw [addrOf_of_inode hi hy, inodeAddr, word, dif_neg hk]
      exact (ite_self _).symm

/-- The entries loop of `itrunc` frees each entry's block. -/
structure Freed (inum j : Nat) (fs fs' : Fs) : Prop where
  eq : fs' = { fs with used := fs'.used }
  owned : Owned (clearEntries inum j (addrOf fs)) fs'.used fs.sb.datastart fs.sb.size
  metadata : ∀ b, b < fs.sb.datastart → fs'.used b = true

theorem wp_freeEntries (h : Own (some inum) fs) (hi : fs.Has inum ip) (ht : ip.type ≠ 0) (hind : ip.addrs NDIRECT ≠ 0) :
    WP (forM (List.range NINDIRECT) fun j =>
        if word (fs.data (ip.addrs NDIRECT).toNat) j ≠ 0 then bfree (word (fs.data (ip.addrs NDIRECT).toNat) j)
        else pure () : M Unit) E (fun _ => Freed inum NINDIRECT fs) fs := by
  refine .loop (I := fun j => Freed inum j fs) ⟨rfl, ?_, h.metadata⟩ fun j fs₁ hj hf => ?_
  · have e : clearEntries inum 0 (addrOf fs) = addrOf fs := by
      funext y
      cases y with
      | direct | indirect => rfl
      | entry => rw [clearEntries, if_neg (by omega)]
    rw [e]
    exact h.owned
  · have hself : clearEntries inum j (addrOf fs) (.entry inum j) =
        (word (fs.data (ip.addrs NDIRECT).toNat) j).toNat := by
      rw [clearEntries, if_neg (by omega), addrOf_entry hi ht hind]
    refine .ite (fun h0 => ?_) fun h0 => .pure ⟨hf.eq, ?_, hf.metadata⟩
    · have hne := toNat_ne_zero h0
      rw [← hself] at hne
      have hu := hf.owned.marked _ hne
      have hlo := (hf.owned.range _ hne).1
      have hfree := hf.owned.free (.entry inum j)
      rw [hself] at hu hlo hfree
      refine wp_bfree hu ⟨?_, ?_, metadata_free hf.metadata hlo⟩
      · rw [hf.eq]
      · rw [clearEntries_succ]
        exact hfree
    · rw [clearEntries_succ, update_eq_self_iff.2]
      · exact hf.owned
      · rw [hself, Decidable.not_not.1 h0]
        rfl

/-- Once the entries are free, so is the indirect block. -/
theorem own_clear_indirect (h : Own (some inum) fs) (hi : fs.Has inum ip) (ht : ip.type ≠ 0)
    (hind : ip.addrs NDIRECT ≠ 0) (hf : Freed inum NINDIRECT fs fs') : fs'.used (ip.addrs NDIRECT).toNat = true ∧
      Own (some inum) ((fs'.free (ip.addrs NDIRECT).toNat).setInode inum (ip.setAddr NDIRECT 0)) := by
  have hself : clearEntries inum NINDIRECT (addrOf fs) (.indirect inum) = (ip.addrs NDIRECT).toNat := by
    rw [clearEntries, addrOf_of_inode hi rfl, inodeAddr, if_pos ht]
    simp
  have hne : clearEntries inum NINDIRECT (addrOf fs) (.indirect inum) ≠ 0 := by
    rw [hself]
    exact toNat_ne_zero hind
  have hlo := (hf.owned.range _ hne).1
  have hu := hf.owned.marked _ hne
  have hfree := hf.owned.free (.indirect inum)
  rw [hself] at hu hlo hfree
  obtain ⟨u, rfl⟩ : ∃ u, fs' = { fs with used := u } := ⟨_, hf.eq⟩
  have haddr : addrOf ((Fs.free { fs with used := u } (ip.addrs NDIRECT).toNat).setInode inum (ip.setAddr NDIRECT 0)) =
      update (clearEntries inum NINDIRECT (addrOf fs)) (.indirect inum) 0 := by
    funext y
    by_cases hy : y.inum = inum
    · rw [addrOf_setInode_self _ _ hy, ← inodeAddr_clear_indirect hi hy]
      rfl
    · have hne : y ≠ .indirect inum := fun e => hy (e ▸ rfl)
      rw [addrOf_setInode_ne _ _ hy, update_of_ne hne, clearEntries_of_ne hy]
      rfl
  refine ⟨hu, h.step ⟨rfl, fun _ hi' => update_of_ne hi' .., fun _ _ => rfl, fun x hx => ?_⟩ ?_
    (metadata_free hf.metadata hlo)⟩
  · rw [addrOf_setInode_ne _ _ hx]
    rfl
  · rw [haddr]
    exact hfree

theorem wp_truncIndirect (h : Trunc inum ip fs₀ NDIRECT fs) (ht : ip.type ≠ 0) :
    WP (truncIndirect inum) E (fun _ => Trunc inum ip fs₀ (NDIRECT + 1)) fs := by
  obtain ⟨addrs, size, hi, hz⟩ := h.inode
  unfold truncIndirect
  refine .bind (wp_inode_of hi (.ite (fun h0 => ?_) fun h0 => ?_))
  · refine .bind (.get (.bind ?_))
    refine (wp_freeEntries h.own hi ht h0).mono fun _ fs₁ hf => ?_
    obtain ⟨hu, hown⟩ := own_clear_indirect h.own hi ht h0 hf
    obtain ⟨used, rfl⟩ : ∃ u, fs₁ = { fs with used := u } := ⟨_, hf.eq⟩
    exact .bind (wp_bfree hu (wp_setInode (h.clear hz hown)))
  · exact .pure { h with inode := ⟨addrs, size, hi, zero_succ hz (Decidable.not_not.1 h0)⟩ }

theorem wp_itrunc (h : Own none fs) (hi : fs.Has inum ip) : WP (itrunc inum) E (fun _ fs' =>
    Own none fs' ∧ Trunc inum ip fs (NDIRECT + 1) fs' ∧ (cur fs' inum).size = 0) fs := by
  have hc := h.cleanOf hi
  have hT : Trunc inum ip fs 0 fs := ⟨h.dirty inum, ⟨ip.addrs, ip.size, hi, fun _ hj => absurd hj (Nat.not_lt_zero _)⟩,
    rfl, rfl, rfl, fun _ _ => rfl, fun _ _ => rfl⟩
  unfold itrunc
  refine WP.bind ((WP.loop hT fun k s hk hT => wp_truncDirect hT hc.type hk).mono fun _ fs₁ h₁ => ?_)
  refine WP.bind ((wp_truncIndirect h₁ hc.type).mono fun _ fs₂ h₂ => ?_)
  obtain ⟨addrs, size, hi₂, hz⟩ := h₂.inode
  refine .bind (wp_inode_of hi₂ (.bind (wp_setInode ?_)))
  have hset := inode_setInode fs₂ inum { ip with addrs, size := 0 }
  unfold iupdate
  refine .bind (wp_inode_of hset (.modify ?_))
  have href := (ref_setInode fs₂ inum { ip with addrs, size := 0 }).trans h₂.ref
  have hown := own_flush (own_setInode { ip with addrs, size := 0 } h₂.own hi₂ rfl rfl) hset
    ⟨by rw [href]; exact hc.ref, hc.type, Nat.zero_le _, fun _ hbn => absurd hbn (Nat.not_lt_zero _)⟩
  refine ⟨hown, ⟨hown.dirty inum, ⟨addrs, 0, hset, hz⟩, href, h₂.sb, h₂.data,
    fun i hne => (update_of_ne hne ..).trans (h₂.itable i hne), fun i hne => (update_of_ne hne ..).trans (h₂.dinode i hne)⟩,
    congrArg Dinode.size ((cur_flush hset inum).trans (cur_of_inode hset))⟩

end Xv6.Blocks
