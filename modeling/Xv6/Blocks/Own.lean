import Xv6.Blocks.Dir
import Xv6.Framework.Wp
import Xv6.Framework.Owner
import Mathlib.Data.Finset.Card

/-!
# Block ownership

The slots of the allocated inodes, which are their direct and indirect slots and the
entries of their indirect blocks, own the data blocks (`Owned`). `Own d fs` is the
invariant of the code, where `d` is the inode a call is changing, if any: its copy
in memory may differ from the one on disk.
-/

namespace Xv6.Blocks

open Function

/-- The inode as the kernel sees it: its copy in memory, if there is one. -/
def cur (fs : Fs) (i : Nat) : Dinode := ((fs.itable i).inode).getD (fs.dinode i)

inductive Slot where
  | direct (i k : Nat)
  | indirect (i : Nat)
  | entry (i j : Nat)
  deriving DecidableEq

/-- The slot for block `bn` of inode `i`. -/
def slotAt (i bn : Nat) : Slot := if bn < NDIRECT then .direct i bn else .entry i (bn - NDIRECT)

/-- The block a slot of an allocated inode holds, 0 if none. -/
def inodeAddr (ip : Dinode) (data : Nat → Block) : Slot → Nat
  | .direct _ k => if ip.type ≠ 0 ∧ k < NDIRECT then (ip.addrs k).toNat else 0
  | .indirect _ => if ip.type ≠ 0 then (ip.addrs NDIRECT).toNat else 0
  | .entry _ j =>
    if ip.type ≠ 0 ∧ ip.addrs NDIRECT ≠ 0 then (word (data (ip.addrs NDIRECT).toNat) j).toNat else 0

/-- The inode a slot belongs to. -/
def Slot.inum : Slot → Nat
  | .direct i _ | .indirect i | .entry i _ => i

def addrOf (fs : Fs) (x : Slot) : Nat := inodeAddr (cur fs x.inum) fs.data x

/-- The size of an allocated inode is one a file can have, and there are no holes below it. -/
def Filled (fs : Fs) (i : Nat) : Prop :=
  (cur fs i).type ≠ 0 → (cur fs i).size.toNat ≤ MAXFILE * BSIZE ∧
    ∀ bn, bn * BSIZE < (cur fs i).size.toNat → addrOf fs (slotAt i bn) ≠ 0

structure Own (d : Option Nat) (fs : Fs) : Prop where
  owned : Owned (addrOf fs) fs.used fs.sb.datastart fs.sb.size
  metadata : ∀ b, b < fs.sb.datastart → fs.used b = true
  size : fs.sb.size < 2 ^ 32
  /-- The inodes in memory are allocated ones, and the same on disk. -/
  valid : ∀ i ip, some i ≠ d → (fs.itable i).inode = some ip →
    0 < (fs.itable i).ref ∧ ip.type ≠ 0 ∧ fs.dinode i = ip
  filled : ∀ i, some i ≠ d → Filled fs i

/-- All panics but that of `bfree`. -/
def NotFree (p : Panic) : Prop := p ≠ .freeingFreeBlock

/-- The copy of inode `inum` in memory is `ip`. -/
abbrev Fs.Has (fs : Fs) (inum : Nat) (ip : Dinode) : Prop := (fs.itable inum).inode = some ip

variable {fs fs' : Fs} {d : Option Nat} {inum : Nat} {ip : Dinode}

theorem Own.dirty (h : Own none fs) (inum : Nat) : Own (some inum) fs :=
  { h with valid := fun i ip _ => h.valid i ip nofun, filled := fun i _ => h.filled i nofun }

theorem cur_of_inode (h : fs.Has inum ip) : cur fs inum = ip := by
  rw [cur, h]
  rfl

/-! ## Changes of one inode -/

/-- The other inodes, and the addresses in their slots, are the same. -/
structure Others (inum : Nat) (fs fs' : Fs) : Prop where
  sb : fs'.sb = fs.sb
  itable : ∀ i, i ≠ inum → fs'.itable i = fs.itable i
  dinode : ∀ i, i ≠ inum → fs'.dinode i = fs.dinode i
  addr : ∀ x : Slot, x.inum ≠ inum → addrOf fs' x = addrOf fs x

variable {i b k : Nat} {x : Slot} {E : Panic → Prop} {a : BitVec 32}

theorem Others.cur (h : Others inum fs fs') (hi : i ≠ inum) : cur fs' i = cur fs i := by
  rw [Blocks.cur, h.itable i hi, h.dinode i hi]
  rfl

theorem slotAt_inum (i bn : Nat) : (slotAt i bn).inum = i := by
  unfold slotAt
  split <;> rfl

theorem Others.filled (h : Others inum fs fs') (hi : i ≠ inum) (hf : Filled fs i) : Filled fs' i := by
  intro ht
  rw [h.cur hi] at ht ⊢
  refine ⟨(hf ht).1, fun bn hbn => ?_⟩
  rw [h.addr _ (by rwa [slotAt_inum])]
  exact (hf ht).2 bn hbn

theorem Own.step (h : Own (some inum) fs) (ho : Others inum fs fs')
    (hown : Owned (addrOf fs') fs'.used fs.sb.datastart fs.sb.size)
    (hm : ∀ b, b < fs.sb.datastart → fs'.used b = true) : Own (some inum) fs' := by
  have hne : ∀ i, some i ≠ some inum → i ≠ inum := fun i hi e => hi (congrArg some e)
  refine ⟨?_, ?_, ?_, fun i ip hi hv => ?_, fun i hi => ho.filled (hne i hi) (h.filled i hi)⟩
  · rw [ho.sb]
    exact hown
  · rw [ho.sb]
    exact hm
  · rw [ho.sb]
    exact h.size
  · rw [ho.itable i (hne i hi)] at hv ⊢
    rw [ho.dinode i (hne i hi)]
    exact h.valid i ip hi hv

/-- The inode that was changed is the same on disk again. -/
theorem Own.clean (h : Own (some inum) fs) (hf : Filled fs inum) (hv : ∀ ip, (fs.itable inum).inode = some ip →
      0 < (fs.itable inum).ref ∧ ip.type ≠ 0 ∧ fs.dinode inum = ip) : Own none fs := by
  refine { h with valid := fun i ip _ hi => ?_, filled := fun i _ => ?_ }
  · by_cases e : i = inum
    · subst e
      exact hv ip hi
    · exact h.valid i ip (fun e' => e (Option.some.inj e')) hi
  · by_cases e : i = inum
    · exact e ▸ hf
    · exact h.filled i fun e' => e (Option.some.inj e')

/-! ## Writing a block, and the copy of an inode -/

def Fs.setData (fs : Fs) (b : Nat) (blk : Block) : Fs := { fs with data := update fs.data b blk }

def Fs.setInode (fs : Fs) (inum : Nat) (ip : Dinode) : Fs :=
  { fs with itable := update fs.itable inum { fs.itable inum with inode := some ip } }

/-- Writing a block that is not the indirect block of an inode changes no address of it. -/
theorem addrOf_setData (blk : Block) (hb : addrOf fs (.indirect x.inum) ≠ b) :
    addrOf (fs.setData b blk) x = addrOf fs x := by
  cases x with
  | direct | indirect => rfl
  | entry i j =>
    by_cases hc : (cur fs i).type ≠ 0 ∧ (cur fs i).addrs NDIRECT ≠ 0
    · have hi : ((cur fs i).addrs NDIRECT).toNat ≠ b := by
        have hb : addrOf fs (.indirect i) ≠ b := hb
        rwa [addrOf, inodeAddr, Slot.inum, if_pos hc.1] at hb
      show inodeAddr (cur fs i) (update fs.data b blk) _ = inodeAddr (cur fs i) fs.data _
      rw [inodeAddr, inodeAddr, update_of_ne hi]
    · show inodeAddr (cur fs i) (update fs.data b blk) _ = inodeAddr (cur fs i) fs.data _
      rw [inodeAddr, inodeAddr, if_neg hc, if_neg hc]

@[simp] theorem cur_setInode_self (fs : Fs) (inum : Nat) (ip : Dinode) : cur (fs.setInode inum ip) inum = ip := by
  simp [cur, Fs.setInode]

theorem cur_setInode_ne (fs : Fs) {inum : Nat} (ip : Dinode) (h : i ≠ inum) : cur (fs.setInode inum ip) i = cur fs i := by
  simp [cur, Fs.setInode, h]

theorem inode_setInode (fs : Fs) (inum : Nat) (ip : Dinode) : ((fs.setInode inum ip).itable inum).inode = some ip := by
  simp [Fs.setInode]

theorem addrOf_setInode_ne (fs : Fs) (ip : Dinode) (h : x.inum ≠ inum) : addrOf (fs.setInode inum ip) x = addrOf fs x := by
  rw [addrOf, cur_setInode_ne _ _ h]
  rfl

theorem addrOf_setInode_self (fs : Fs) (ip : Dinode) (h : x.inum = inum) :
    addrOf (fs.setInode inum ip) x = inodeAddr ip fs.data x := by
  rw [addrOf, h, cur_setInode_self]
  rfl

theorem addrOf_of_inode (h : fs.Has inum ip) (hx : x.inum = inum) : addrOf fs x = inodeAddr ip fs.data x := by
  rw [addrOf, hx, cur_of_inode h]

theorem others_setInode (fs : Fs) (inum : Nat) (ip : Dinode) : Others inum fs (fs.setInode inum ip) :=
  ⟨rfl, fun _ hi => update_of_ne hi .., fun _ _ => rfl, fun _ hx => addrOf_setInode_ne fs ip hx⟩

/-! ## `balloc` and `bfree` -/

/-- Block `b` is a free data block. -/
structure Fresh (fs : Fs) (b : Nat) : Prop where
  free : fs.used b = false
  lo : fs.sb.datastart ≤ b
  hi : b < fs.sb.size

theorem Own.ne_fresh (h : Own d fs) (hb : Fresh fs b) (x : Slot) : addrOf fs x ≠ b :=
  h.owned.ne_of_free hb.free hb.lo x

def Fs.alloc (fs : Fs) (b : Nat) : Fs :=
  { fs with used := update fs.used b true, data := update fs.data b zeroBlock }

/-- The number of free blocks. -/
def Fs.freeCount (fs : Fs) : Nat := ((Finset.range fs.sb.size).filter fun b => fs.used b = false).card

theorem freeCount_alloc (hb : Fresh fs b) (hsb : fs'.sb = fs.sb) (hu : fs'.used = update fs.used b true) :
    fs'.freeCount + 1 = fs.freeCount := by
  have hset : (Finset.range fs.sb.size).filter (fun c => fs.used c = false) =
      insert b ((Finset.range fs.sb.size).filter fun c => update fs.used b true c = false) := by
    ext c
    simp only [Finset.mem_filter, Finset.mem_range, Finset.mem_insert]
    by_cases e : c = b
    · simp [e, hb.free, hb.hi]
    · simp [e]
  rw [Fs.freeCount, Fs.freeCount, hsb, hu, hset, Finset.card_insert_of_notMem]
  simp

theorem wp_balloc {Q : BitVec 32 → Fs → Prop} (h : Own d fs) (h0 : fs.freeCount = 0 → Q 0 fs)
    (hb : ∀ a : BitVec 32, a ≠ 0 → Fresh fs a.toNat → Q a (fs.alloc a.toNat)) : WP balloc E Q fs := by
  unfold balloc
  refine .bind (.get ?_)
  split
  · rename_i b hf
    have hfree : fs.used b = false := by simpa using List.find?_some hf
    have hlt : b < fs.sb.size := List.mem_range.1 (List.mem_of_find?_eq_some hf)
    have hlo : fs.sb.datastart ≤ b := by
      by_contra hlo
      have := h.metadata b (by omega)
      rw [hfree] at this
      cases this
    have hpos := h.owned.pos
    have hsz := h.size
    have e : (BitVec.ofNat 32 b).toNat = b := by
      rw [BitVec.toNat_ofNat, Nat.mod_eq_of_lt (by omega)]
    refine .bind (.modify (.pure ?_))
    have hq := hb (BitVec.ofNat 32 b) (fun e0 => ?_) (by rw [e]; exact ⟨hfree, hlo, hlt⟩)
    · rw [e] at hq
      exact hq
    · rw [e0] at e
      have : b = 0 := e.symm
      omega
  · rename_i hf
    refine .pure (h0 (Finset.card_eq_zero.2 (Finset.filter_eq_empty_iff.2 fun b hb hu => ?_)))
    have hnone := List.find?_eq_none.1 hf b (List.mem_range.2 (Finset.mem_range.1 hb))
    rw [hu] at hnone
    exact hnone rfl

theorem wp_bfree {Q : Unit → Fs → Prop} {b : BitVec 32} (hu : fs.used b.toNat = true)
    (hq : Q () { fs with used := update fs.used b.toNat false }) : WP (bfree b) E Q fs := by
  unfold bfree
  exact .bind (.get (.ite (fun _ => .modify hq) fun hn => absurd hu hn))

theorem wp_inode {Q : Dinode → Fs → Prop} (h : ∀ ip, (fs.itable inum).inode = some ip → Q ip fs) :
    WP (inode inum) NotFree Q fs := by
  unfold inode
  refine .bind (.get ?_)
  split
  · exact .pure (h _ ‹_›)
  · exact .throw nofun

/-- The same for an inode that is locked. -/
theorem wp_inode_of {Q : Dinode → Fs → Prop} (hi : fs.Has inum ip) (h : Q ip fs) : WP (inode inum) E Q fs := by
  unfold inode
  refine .bind (.get ?_)
  rw [hi]
  exact .pure h

theorem wp_setInode {Q : Unit → Fs → Prop} (h : Q () (fs.setInode inum ip)) : WP (setInode inum ip) E Q fs := .modify h

/-! ## `bmap` -/

/-- What `bmap` may do: fill empty slots of one inode. -/
structure Grown (inum : Nat) (fs fs' : Fs) : Prop where
  others : Others inum fs fs'
  dinode : fs'.dinode = fs.dinode
  ref : (fs'.itable inum).ref = (fs.itable inum).ref
  inode : ∀ ip, (fs.itable inum).inode = some ip →
    ∃ addrs, (fs'.itable inum).inode = some { ip with addrs := addrs }
  addr : ∀ x, addrOf fs x ≠ 0 → addrOf fs' x = addrOf fs x

theorem Grown.refl (inum : Nat) (fs : Fs) : Grown inum fs fs :=
  ⟨⟨rfl, fun _ _ => rfl, fun _ _ => rfl, fun _ _ => rfl⟩, rfl, rfl, fun ip h => ⟨ip.addrs, h⟩, fun _ _ => rfl⟩

theorem Grown.trans {fs'' : Fs} (h : Grown inum fs fs') (h' : Grown inum fs' fs'') : Grown inum fs fs'' where
  others := ⟨h'.others.sb.trans h.others.sb, fun i hi => (h'.others.itable i hi).trans (h.others.itable i hi),
    fun i hi => (h'.others.dinode i hi).trans (h.others.dinode i hi),
    fun x hx => (h'.others.addr x hx).trans (h.others.addr x hx)⟩
  dinode := h'.dinode.trans h.dinode
  ref := h'.ref.trans h.ref
  inode ip hi := by
    obtain ⟨a, ha⟩ := h.inode ip hi
    obtain ⟨a', ha'⟩ := h'.inode _ ha
    exact ⟨a', ha'⟩
  addr x hx := by
    have e := h.addr x hx
    rw [h'.addr x (by rwa [e]), e]

/-- The slots `F` of the inode, which were empty, hold fresh blocks. Of the blocks that were in use,
no data but that of the indirect block has changed. -/
structure Allocs (inum : Nat) (F : Finset Slot) (fs fs' : Fs) : Prop where
  grown : Grown inum fs fs'
  new : ∀ x ∈ F, addrOf fs x = 0 ∧ addrOf fs' x ≠ 0 ∧ fs.used (addrOf fs' x) = false
  old : ∀ x, x ∉ F → addrOf fs' x = addrOf fs x
  used : ∀ b, fs.used b = true → fs'.used b = true
  free : fs'.freeCount + F.card = fs.freeCount
  data : ∀ b, fs.used b = true → (addrOf fs (.indirect inum) = b → b = 0) → fs'.data b = fs.data b

theorem Allocs.refl (inum : Nat) (fs : Fs) : Allocs inum ∅ fs fs :=
  ⟨.refl inum fs, fun _ hx => absurd hx (Finset.notMem_empty _), fun _ _ => rfl, fun _ => id, rfl, fun _ _ _ => rfl⟩

theorem Allocs.trans {F F' : Finset Slot} {fs'' : Fs} (h : Allocs inum F fs fs') (h' : Allocs inum F' fs' fs'') :
    Allocs inum (F ∪ F') fs fs'' := by
  have hdisj : Disjoint F F' := by
    rw [Finset.disjoint_left]
    exact fun x hx hx' => (h.new x hx).2.1 (h'.new x hx').1
  refine ⟨h.grown.trans h'.grown, fun x hx => ?_, fun x hx => ?_, fun b hb => h'.used b (h.used b hb), ?_,
    fun b hb hne => ?_⟩
  · rcases Finset.mem_union.1 hx with hF | hF
    · obtain ⟨h0, hne, hu⟩ := h.new x hF
      have hx' : x ∉ F' := Finset.disjoint_left.1 hdisj hF
      rw [h'.old x hx']
      exact ⟨h0, hne, hu⟩
    · obtain ⟨h0, hne, hu⟩ := h'.new x hF
      have hx' : x ∉ F := Finset.disjoint_right.1 hdisj hF
      refine ⟨(h.old x hx').symm.trans h0, hne, ?_⟩
      by_contra hc
      rw [h.used _ (Bool.not_eq_false _ ▸ hc)] at hu
      cases hu
  · rw [Finset.mem_union, not_or] at hx
    rw [h'.old x hx.2, h.old x hx.1]
  · rw [Finset.card_union_of_disjoint hdisj, ← h.free, ← h'.free]
    omega
  · rw [h'.data b (h.used b hb) fun e => ?_, h.data b hb hne]
    by_cases hi : .indirect inum ∈ F
    · rw [← e, (h.new _ hi).2.2] at hb
      cases hb
    · rw [h.old _ hi] at e
      exact hne e

/-- A fresh block goes into an empty slot of the inode. -/
theorem Own.fill (h : Own (some inum) fs) (hx : x.inum = inum) (hx0 : addrOf fs x = 0) (hb : Fresh fs b)
    (hsb : fs'.sb = fs.sb) (hu : fs'.used = update fs.used b true) (ha : ∀ y, addrOf fs' y = update (addrOf fs) x b y)
    (hit : ∀ i, i ≠ inum → fs'.itable i = fs.itable i) (hd : fs'.dinode = fs.dinode)
    (hr : (fs'.itable inum).ref = (fs.itable inum).ref)
    (hi : ∀ ip, (fs.itable inum).inode = some ip → ∃ addrs, (fs'.itable inum).inode = some { ip with addrs := addrs })
    (hdata : ∀ c, fs.used c = true → (addrOf fs (.indirect inum) = c → c = 0) → fs'.data c = fs.data c) :
    Own (some inum) fs' ∧ Allocs inum {x} fs fs' := by
  have hne : ∀ y, y ≠ x → addrOf fs' y = addrOf fs y := fun y e => by
    rw [ha, update_of_ne e]
  have ho : Others inum fs fs' := ⟨hsb, hit, fun i _ => by rw [hd], fun y hy => hne y fun e => hy (e ▸ hx)⟩
  have hused : ∀ c, fs.used c = true → fs'.used c = true := by
    intro c hc
    rw [hu]
    by_cases e : c = b
    · rw [e, update_self]
    · rw [update_of_ne e]
      exact hc
  have hpos := h.owned.pos
  have hlo := hb.lo
  refine ⟨h.step ho ?_ fun c hc => hused c (h.metadata c hc),
    ⟨ho, hd, hr, hi, fun y hy => hne y fun e => hy (e ▸ hx0)⟩, fun y hy => ?_, fun y hy => ?_, hused, ?_, hdata⟩
  · rw [hu, show addrOf fs' = update (addrOf fs) x b from funext ha]
    exact h.owned.alloc hx0 hb.free hb.lo hb.hi
  · rw [Finset.mem_singleton.1 hy, ha, update_self]
    exact ⟨hx0, by omega, hb.free⟩
  · exact hne y fun e => hy (Finset.mem_singleton.2 e)
  · rw [Finset.card_singleton]
    exact freeCount_alloc hb hsb hu

theorem toNat_ne_zero (h : a ≠ 0) : a.toNat ≠ 0 := fun e =>
  h (BitVec.eq_of_toNat_eq e)

theorem word_zeroBlock (j : Nat) : word zeroBlock j = 0 := by
  unfold word
  split <;> rfl

theorem word_setWord (b : Block) {j : Nat} (hj : j < NINDIRECT) (v : BitVec 32) (k : Nat) :
    word (setWord b j v) k = if k = j then v else word b k := by
  unfold word setWord
  by_cases hk : k < 256
  · rw [dif_pos hk, dif_pos hk]
  · have : k ≠ j := fun e => hk (by rw [e]; exact hj)
    rw [dif_neg hk, dif_neg hk, if_neg this]

theorem addrOf_alloc (h : Own d fs) (hb : Fresh fs b) (x : Slot) : addrOf (fs.alloc b) x = addrOf fs x :=
  addrOf_setData zeroBlock (h.ne_fresh hb _)

/-- The slot that `addrs[k]` of an inode is. -/
def addrSlot (inum k : Nat) : Slot := if k < NDIRECT then .direct inum k else .indirect inum

theorem addrSlot_inum (inum k : Nat) : (addrSlot inum k).inum = inum := by
  unfold addrSlot
  split <;> rfl

theorem addrOf_addrSlot (hi : fs.Has inum ip) (ht : ip.type ≠ 0) (hk : k ≤ NDIRECT) :
    addrOf fs (addrSlot inum k) = (ip.addrs k).toNat := by
  rw [addrOf_of_inode hi (addrSlot_inum ..)]
  unfold addrSlot
  split
  · rw [inodeAddr, if_pos ⟨ht, ‹_›⟩]
  · have e : k = NDIRECT := by omega
    rw [inodeAddr, if_pos ht, e]

/-- Setting `addrs[k]`, which was 0, to a block of zeroes that no slot holds. -/
theorem inodeAddr_fill (data : Nat → Block) (ht : ip.type ≠ 0) (hk : k ≤ NDIRECT) (h0 : ip.addrs k = 0)
    (hne : (ip.addrs NDIRECT).toNat ≠ a.toNat) (hx : x.inum = inum) :
    inodeAddr (ip.setAddr k a) (update data a.toNat zeroBlock) x =
      update (inodeAddr ip data) (addrSlot inum k) a.toNat x := by
  by_cases e : x = addrSlot inum k
  · rw [e, update_self]
    unfold addrSlot
    split
    · rw [inodeAddr, Dinode.setAddr_type, if_pos ⟨ht, ‹_›⟩, Dinode.setAddr_addrs, update_self]
    · have e' : k = NDIRECT := by omega
      rw [inodeAddr, Dinode.setAddr_type, if_pos ht, Dinode.setAddr_addrs, ← e', update_self]
  · rw [update_of_ne e]
    cases x with
    | direct i j =>
      cases hx
      by_cases hj : j = k
      · -- `k` is not a direct slot then
        have hk' : ¬j < NDIRECT := fun hj' => e (by rw [addrSlot, if_pos (hj ▸ hj'), hj]; rfl)
        rw [inodeAddr, inodeAddr, if_neg fun h => hk' h.2, if_neg fun h => hk' h.2]
      · rw [inodeAddr, inodeAddr, Dinode.setAddr_type, Dinode.setAddr_addrs, update_of_ne hj]
    | indirect i =>
      cases hx
      have hk' : NDIRECT ≠ k := fun h => e (by rw [addrSlot, if_neg (by omega)]; rfl)
      rw [inodeAddr, inodeAddr, Dinode.setAddr_type, Dinode.setAddr_addrs, update_of_ne hk']
    | entry i j =>
      rw [inodeAddr, inodeAddr, Dinode.setAddr_type, Dinode.setAddr_addrs]
      by_cases hk' : NDIRECT = k
      · have hold : ¬(ip.type ≠ 0 ∧ ip.addrs k ≠ 0) := fun h => h.2 h0
        rw [hk', update_self, update_self, word_zeroBlock, if_neg hold]
        split <;> rfl
      · rw [update_of_ne hk', update_of_ne hne]

theorem own_fill_addr (h : Own (some inum) fs) (hi : fs.Has inum ip) (ht : ip.type ≠ 0) (hk : k ≤ NDIRECT)
    (h0 : ip.addrs k = 0) (hb : Fresh fs a.toNat) (hfs : fs' = (fs.alloc a.toNat).setInode inum (ip.setAddr k a)) :
    Own (some inum) fs' ∧ Allocs inum {addrSlot inum k} fs fs' ∧ addrOf fs' (addrSlot inum k) = a.toNat ∧
      fs'.data (addrOf fs' (addrSlot inum k)) = zeroBlock := by
  have hind : (ip.addrs NDIRECT).toNat ≠ a.toNat := by
    have := h.ne_fresh hb (addrSlot inum NDIRECT)
    rwa [addrOf_addrSlot hi ht (Nat.le_refl _)] at this
  have haddr : ∀ y, addrOf fs' y = update (addrOf fs) (addrSlot inum k) a.toNat y := by
    intro y
    rw [hfs]
    by_cases hy : y.inum = inum
    · rw [addrOf_setInode_self _ _ hy]
      have hfill := inodeAddr_fill fs.data ht hk h0 hind hy
      refine hfill.trans ?_
      by_cases e : y = addrSlot inum k
      · rw [e, update_self, update_self]
      · rw [update_of_ne e, update_of_ne e, addrOf_of_inode hi hy]
    · have hne : y ≠ addrSlot inum k := fun e => hy (e ▸ addrSlot_inum inum k)
      rw [addrOf_setInode_ne _ _ hy, addrOf_alloc h hb, update_of_ne hne]
  have h0' : addrOf fs (addrSlot inum k) = 0 := by
    rw [addrOf_addrSlot hi ht hk, h0]
    rfl
  have hinode : fs'.Has inum (ip.setAddr k a) := by
    rw [hfs]
    exact inode_setInode ..
  have hdata : ∀ c, fs.used c = true → fs'.data c = fs.data c := by
    intro c hc
    have hne : c ≠ a.toNat := by
      rintro rfl
      rw [hb.free] at hc
      cases hc
    rw [hfs]
    exact update_of_ne hne ..
  have hown := h.fill (addrSlot_inum ..) h0' hb (by rw [hfs]; rfl) (by rw [hfs]; rfl) haddr
    (fun i hi' => by rw [hfs]; exact update_of_ne hi' ..) (by rw [hfs]; rfl)
    (by rw [hfs]; simp [Fs.setInode, Fs.alloc])
    (fun ip' hi' => ⟨_, by rw [hi] at hi'; cases hi'; exact hinode⟩) fun c hc _ => hdata c hc
  have hself := (haddr (addrSlot inum k)).trans (update_self ..)
  exact ⟨hown.1, hown.2, hself, by rw [hself, hfs]; exact update_self ..⟩

theorem addrOf_entry (hi : fs.Has inum ip) (ht : ip.type ≠ 0) (hind : ip.addrs NDIRECT ≠ 0) (j : Nat) :
    addrOf fs (.entry inum j) = (word (fs.data (ip.addrs NDIRECT).toNat) j).toNat := by
  rw [addrOf_of_inode hi rfl, inodeAddr, if_pos ⟨ht, hind⟩]

theorem Own.indirect_ne (h : Own d fs) (hi : fs.Has inum ip) (ht : ip.type ≠ 0) (hind : ip.addrs NDIRECT ≠ 0)
    (hne : i ≠ inum) : addrOf fs (.indirect i) ≠ (ip.addrs NDIRECT).toNat := by
  have hself : addrOf fs (.indirect inum) = (ip.addrs NDIRECT).toNat := by
    rw [addrOf_of_inode hi rfl, inodeAddr, if_pos ht]
  intro e
  have hsl := h.owned.inj (.indirect i) (.indirect inum) (by rw [e]; exact toNat_ne_zero hind)
    (e.trans hself.symm)
  injection hsl with e'
  exact hne e'

theorem own_fill_entry (h : Own (some inum) fs) (hi : fs.Has inum ip) (ht : ip.type ≠ 0) (hind : ip.addrs NDIRECT ≠ 0)
    {j : Nat} (hj : j < NINDIRECT) (h0 : word (fs.data (ip.addrs NDIRECT).toNat) j = 0) (hb : Fresh fs a.toNat)
    (hfs : fs' = (fs.alloc a.toNat).setData (ip.addrs NDIRECT).toNat (setWord (fs.data (ip.addrs NDIRECT).toNat) j a)) :
    Own (some inum) fs' ∧ Allocs inum {.entry inum j} fs fs' ∧ addrOf fs' (.entry inum j) = a.toNat ∧
      fs'.data (addrOf fs' (.entry inum j)) = zeroBlock := by
  have hinode : fs'.Has inum ip := by
    rw [hfs]
    exact hi
  have hdata : fs'.data (ip.addrs NDIRECT).toNat = setWord (fs.data (ip.addrs NDIRECT).toNat) j a := by
    rw [hfs]
    exact update_self ..
  have haddr : ∀ y, addrOf fs' y = update (addrOf fs) (.entry inum j) a.toNat y := by
    intro y
    by_cases e : y = .entry inum j
    · rw [e, update_self, addrOf_entry hinode ht hind, hdata, word_setWord _ hj, if_pos rfl]
    rw [update_of_ne e]
    by_cases hy : y.inum = inum
    · cases y with
      | direct | indirect =>
        rw [hfs]
        rfl
      | entry i k =>
        obtain rfl : i = inum := hy
        have hk : k ≠ j := fun h => e (by rw [h])
        rw [addrOf_entry hinode ht hind, hdata, word_setWord _ hj, if_neg hk, addrOf_entry hi ht hind]
    · have hind' : addrOf (fs.alloc a.toNat) (.indirect y.inum) ≠ (ip.addrs NDIRECT).toNat :=
        h.indirect_ne hi ht hind hy
      rw [hfs, addrOf_setData _ hind', addrOf_alloc h hb]
  have h0' : addrOf fs (.entry inum j) = 0 := by
    rw [addrOf_entry hi ht hind, h0]
    rfl
  have hself : addrOf fs (.indirect inum) = (ip.addrs NDIRECT).toNat := by
    rw [addrOf_of_inode hi rfl, inodeAddr, if_pos ht]
  have hother : ∀ c, fs.used c = true → (addrOf fs (.indirect inum) = c → c = 0) → fs'.data c = fs.data c := by
    intro c hc hne
    have hc₁ : c ≠ a.toNat := by
      rintro rfl
      rw [hb.free] at hc
      cases hc
    have hc₂ : c ≠ (ip.addrs NDIRECT).toNat := fun e =>
      toNat_ne_zero hind (e.symm.trans (hne (hself.trans e.symm)))
    rw [hfs]
    exact (update_of_ne hc₂ ..).trans (update_of_ne hc₁ ..)
  have hown := h.fill (x := .entry inum j) rfl h0' hb (by rw [hfs]; rfl) (by rw [hfs]; rfl) haddr
    (fun i _ => by rw [hfs]; rfl) (by rw [hfs]; rfl) (by rw [hfs]; rfl)
    (fun ip' hi' => ⟨ip'.addrs, by rw [hinode, ← hi, hi']⟩) hother
  have hnew := (haddr (.entry inum j)).trans (update_self ..)
  refine ⟨hown.1, hown.2, hnew, ?_⟩
  rw [hnew, hfs]
  exact (update_of_ne (hself ▸ h.ne_fresh hb _).symm ..).trans (update_self ..)

/-- The slots that `bmap` may have to fill. -/
def slotsOf (inum bn : Nat) : Finset Slot :=
  if bn < NDIRECT then {.direct inum bn} else {.indirect inum, .entry inum (bn - NDIRECT)}

/-- What `bmap` and its parts return: the address now in slot `x`, or 0 if a slot is still empty and
no block is left. The slots that were filled are of `S`; a new block of `x` is all zeroes. -/
structure Maps (inum : Nat) (S : Finset Slot) (x : Slot) (fs : Fs) (a : BitVec 32) (fs' : Fs) : Prop where
  own : Own (some inum) fs'
  allocs : ∃ F ⊆ S, Allocs inum F fs fs'
  addr : a ≠ 0 → addrOf fs' x = a.toNat
  fresh : addrOf fs x = 0 → addrOf fs' x ≠ 0 → fs'.data (addrOf fs' x) = zeroBlock
  full : a = 0 → fs'.freeCount = 0 ∧ ∃ y ∈ S, addrOf fs' y = 0

theorem wp_addrAt (h : Own (some inum) fs) (hi : fs.Has inum ip) (ht : ip.type ≠ 0) (hk : k ≤ NDIRECT) :
    WP (addrAt inum ip k) E (Maps inum {addrSlot inum k} (addrSlot inum k) fs) fs := by
  have hself := addrOf_addrSlot hi ht hk
  unfold addrAt
  refine .ite (fun h0 => .bind (wp_balloc h (fun hfree => ?_) fun a ha hb => ?_)) fun h0 => ?_
  · have hzero : addrOf fs (addrSlot inum k) = 0 := by
      rw [hself, h0]
      rfl
    refine .ite (fun _ => .pure ⟨h, ⟨∅, Finset.empty_subset _, .refl ..⟩, fun hc => absurd rfl hc,
      fun h0 hne => absurd h0 hne, fun _ => ⟨hfree, _, Finset.mem_singleton_self _, hzero⟩⟩) fun hc => absurd rfl hc
  · refine .ite (fun hc => absurd hc ha) fun _ => .bind (wp_setInode (.pure ?_))
    obtain ⟨hown, hA, haddr, hzero⟩ := own_fill_addr h hi ht hk h0 hb rfl
    exact ⟨hown, ⟨_, Finset.Subset.refl _, hA⟩, fun _ => haddr, fun _ _ => hzero, fun hc => absurd hc ha⟩
  · exact .pure ⟨h, ⟨∅, Finset.empty_subset _, .refl ..⟩, fun _ => hself, fun h0 hne => absurd h0 hne,
      fun hc => absurd hc h0⟩

/-- A new indirect block has no entries. -/
theorem Allocs.entry {F : Finset Slot} (hA : Allocs inum F fs fs') (hF : F ⊆ {addrSlot inum NDIRECT}) (j : Nat) :
    addrOf fs' (.entry inum j) = addrOf fs (.entry inum j) := by
  refine hA.old _ fun hmem => ?_
  have hslot := Finset.mem_singleton.1 (hF hmem)
  rw [addrSlot, if_neg (Nat.lt_irrefl _)] at hslot
  cases hslot

/-- A full disk while the indirect block or its entry is missing. -/
theorem Maps.indirect {bn : Nat} {ind : BitVec 32} (hbn : ¬ bn < NDIRECT)
    (h : Maps inum {addrSlot inum NDIRECT} (addrSlot inum NDIRECT) fs ind fs') (h0 : ind = 0) :
    Maps inum (slotsOf inum bn) (.entry inum (bn - NDIRECT)) fs 0 fs' := by
  have hsub : {addrSlot inum NDIRECT} ⊆ slotsOf inum bn := by
    rw [slotsOf, if_neg hbn]
    exact Finset.singleton_subset_iff.2 (Finset.mem_insert_self _ _)
  obtain ⟨F, hF, hA⟩ := h.allocs
  obtain ⟨hfree, y, hy, hy0⟩ := h.full h0
  exact ⟨h.own, ⟨F, hF.trans hsub, hA⟩, fun hc => absurd rfl hc, fun h0 hne => absurd ((hA.entry hF _).trans h0) hne,
    fun _ => ⟨hfree, y, hsub hy, hy0⟩⟩

theorem wp_bmap_maps (h : Own (some inum) fs) (hi : fs.Has inum ip) (ht : ip.type ≠ 0) (bn : Nat) :
    WP (bmap inum bn) (fun p => p = .bmapOutOfRange ∧ MAXFILE ≤ bn)
      (Maps inum (slotsOf inum bn) (slotAt inum bn) fs) fs := by
  unfold bmap
  refine .bind (wp_inode_of hi ?_)
  refine .ite (fun hbn => ?_) fun hbn => .ite (fun hj => ?_) fun hj => .throw ⟨rfl, ?_⟩
  · have e : slotAt inum bn = addrSlot inum bn := by rw [slotAt, addrSlot, if_pos hbn, if_pos hbn]
    have e' : slotsOf inum bn = {addrSlot inum bn} := by rw [slotsOf, addrSlot, if_pos hbn, if_pos hbn]
    rw [e, e']
    exact wp_addrAt h hi ht (Nat.le_of_lt hbn)
  · have e : slotAt inum bn = .entry inum (bn - NDIRECT) := by rw [slotAt, if_neg hbn]
    have hmem : .entry inum (bn - NDIRECT) ∈ slotsOf inum bn := by
      rw [slotsOf, if_neg hbn]
      exact Finset.mem_insert_of_mem (Finset.mem_singleton_self _)
    have hsub : {addrSlot inum NDIRECT} ⊆ slotsOf inum bn := by
      rw [slotsOf, if_neg hbn]
      exact Finset.singleton_subset_iff.2 (Finset.mem_insert_self _ _)
    rw [e]
    refine .bind ((wp_addrAt h hi ht (Nat.le_refl _)).mono fun ind fs₁ hm => ?_)
    refine .ite (fun h0 => .pure (hm.indirect hbn h0)) fun hind => ?_
    obtain ⟨F, hF, hA⟩ := hm.allocs
    obtain ⟨addrs, hi₁⟩ := hA.grown.inode ip hi
    -- the indirect block is there now
    have hind₁ : ind = addrs NDIRECT := by
      have := addrOf_addrSlot (k := NDIRECT) hi₁ ht (Nat.le_refl _)
      rw [hm.addr hind] at this
      exact BitVec.eq_of_toNat_eq this
    subst hind₁
    have hentry := hA.entry hF (bn - NDIRECT)
    refine .bind (.get (.ite (fun h0 => ?_) fun h0 => ?_))
    · refine .bind (wp_balloc hm.own (fun hfree => ?_) fun a ha hb => ?_)
      · have hzero : addrOf fs₁ (.entry inum (bn - NDIRECT)) = 0 := by
          rw [addrOf_entry hi₁ ht hind, h0]
          rfl
        exact .ite (fun _ => .pure ⟨hm.own, ⟨F, hF.trans hsub, hA⟩, fun hc => absurd rfl hc,
          fun h0 hne => absurd (hentry.trans h0) hne, fun _ => ⟨hfree, _, hmem, hzero⟩⟩) fun hc => absurd rfl hc
      · refine .ite (fun hc => absurd hc ha) fun _ => .bind (.modify (.pure ?_))
        obtain ⟨hown, hA₂, haddr, hzero⟩ := own_fill_entry hm.own hi₁ ht hind hj h0 hb rfl
        exact ⟨hown, ⟨_, Finset.union_subset (hF.trans hsub) (Finset.singleton_subset_iff.2 hmem), hA.trans hA₂⟩,
          fun _ => haddr, fun _ _ => hzero, fun hc => absurd hc ha⟩
    · exact .pure ⟨hm.own, ⟨F, hF.trans hsub, hA⟩, fun _ => addrOf_entry hi₁ ht hind _,
        fun h0 hne => absurd (hentry.trans h0) hne, fun hc => absurd hc h0⟩
  · unfold MAXFILE
    omega

end Xv6.Blocks
