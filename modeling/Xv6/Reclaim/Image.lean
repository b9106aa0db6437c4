import Xv6.Reclaim.Model
import Xv6.Blocks.Freed
import Xv6.Log.Crash

/-!
# Disk images

A disk image as a file system of `Blocks` (`fsOf`): the inodes and the bits of the free map are words
of blocks, and writing one of them changes nothing else.
-/

namespace Xv6.Reclaim

open Function
open Log
open Blocks

/-! ## Bits -/

/-- The bit of block `b` of a free map block. -/
def bitAt (blk : Block) (b : Nat) : Bool := (byte blk (b / 8)).getLsbD (b % 8)

/-- The free map block without the bit of block `b`. -/
def clearBit (blk : Block) (b : Nat) : Block := setByte blk (b / 8) (byte blk (b / 8) &&& ~~~mask b)

variable {k : Nat} {b : Blockno} {blk blk' : Block} {ip : Dinode}

theorem getLsbD_mask (b : Nat) (hk : k < 8) : (mask b).getLsbD k = decide (k = b % 8) := by
  rw [mask, BitVec.getLsbD_shiftLeft, decide_eq_true hk, Bool.true_and]
  by_cases hlt : k < b % 8
  · simp [hlt, Nat.ne_of_lt hlt]
  · rw [decide_eq_false hlt, Bool.not_false, Bool.true_and, BitVec.getLsbD_one]
    simp only [Nat.zero_lt_succ, decide_true, Bool.true_and]
    congr 1
    exact propext ⟨fun h => by omega, fun h => by omega⟩

/-- The test of `bfree`. -/
theorem and_mask_eq_zero (blk : Block) (b : Nat) : byte blk (b / 8) &&& mask b = 0 ↔ bitAt blk b = false := by
  have hlt : b % 8 < 8 := Nat.mod_lt _ (by decide)
  refine ⟨fun h => ?_, fun h => BitVec.eq_of_getLsbD_eq fun k hk => ?_⟩
  · have hb := congrArg (fun x => BitVec.getLsbD x (b % 8)) h
    rw [bitAt]
    simpa [BitVec.getLsbD_and, getLsbD_mask b hlt] using hb
  · rw [BitVec.getLsbD_and, getLsbD_mask b hk]
    by_cases e : k = b % 8
    · rw [e]
      simpa [bitAt] using h
    · simp [e]

theorem bitAt_clearBit (blk : Block) {b : Nat} (hb : b < BPB) (b' : Nat) :
    bitAt (clearBit blk b) b' = (bitAt blk b' && decide (b' ≠ b)) := by
  have hlt : b' % 8 < 8 := Nat.mod_lt _ (by decide)
  have hbyte : b / 8 < BSIZE := by
    simp only [BPB, BSIZE] at hb ⊢
    omega
  rw [bitAt, clearBit, byte_setByte blk hbyte, bitAt]
  split
  · rename_i e
    rw [BitVec.getLsbD_and, BitVec.getLsbD_not, decide_eq_true hlt, Bool.true_and, getLsbD_mask b hlt, e]
    congr 1
    rw [← decide_not]
    congr 1
    exact propext ⟨fun h h' => h (by rw [h']), fun h h' => h (by omega)⟩
  · rename_i e
    have hne : b' ≠ b := fun e' => e (by rw [e'])
    rw [decide_eq_true hne, Bool.and_true]

theorem byte_bit (blk : Block) {w : Nat} (hk : k < 32) : bitAt blk (32 * w + k) = (word blk w).getLsbD k := by
  have hq : (32 * w + k) / 8 / 4 = w := by omega
  have hs : 8 * ((32 * w + k) / 8 % 4) + (32 * w + k) % 8 = k := by omega
  have hlt : (32 * w + k) % 8 < 8 := Nat.mod_lt _ (by decide)
  rw [bitAt, byte, hq, BitVec.getLsbD_extractLsb', decide_eq_true hlt, Bool.true_and, hs]

theorem word_val (blk : Block) (w : Fin 256) : word blk w.val = blk w := dif_pos w.isLt

theorem ext_bits (h : ∀ b, b < BPB → bitAt blk b = bitAt blk' b) : blk = blk' := by
  funext w
  rw [← word_val blk, ← word_val blk']
  refine BitVec.eq_of_getLsbD_eq fun k hk => ?_
  rw [← byte_bit blk hk, ← byte_bit blk' hk]
  refine h _ ?_
  have := w.isLt
  simp only [BPB, BSIZE]
  omega

/-! ## Inodes -/

/-- An inode as it is read from disk. -/
def Short (ip : Dinode) : Prop := ∀ k, NDIRECT < k → ip.addrs k = 0

theorem getDinode_short (blk : Block) (k : Nat) : Short (getDinode blk k) := fun _ hk => if_neg (by omega)

theorem word_putDinode (blk : Block) (k : Nat) (ip : Dinode) {w : Nat} (hw : w < 256) :
    word (putDinode blk k ip) w = if w / 16 = k then dinodeWord ip (w % 16) else word blk w := by
  rw [word, dif_pos hw, word, dif_pos hw]
  rfl

theorem getDinode_congr (h : ∀ j, j < 16 → word blk (16 * k + j) = word blk' (16 * k + j)) :
    getDinode blk k = getDinode blk' k := by
  have h0 : word blk (16 * k) = word blk' (16 * k) := h 0 (by decide)
  simp only [getDinode, h0, h 1 (by decide), h 2 (by decide), Dinode.mk.injEq, true_and]
  funext j
  split
  · rename_i hj
    rw [NDIRECT] at hj
    have := h (3 + j) (by omega)
    rwa [← Nat.add_assoc] at this
  · rfl

theorem getDinode_putDinode_ne (blk : Block) {k' : Nat} (hk' : k' < IPB) (hne : k' ≠ k) (ip : Dinode) :
    getDinode (putDinode blk k ip) k' = getDinode blk k' := by
  refine getDinode_congr fun j hj => ?_
  simp only [IPB, BSIZE] at hk'
  rw [word_putDinode _ _ _ (by omega), if_neg (by omega)]

theorem getDinode_putDinode (blk : Block) (hk : k < IPB) (hs : Short ip) : getDinode (putDinode blk k ip) k = ip := by
  simp only [IPB, BSIZE] at hk
  have hw : ∀ j, j < 16 → word (putDinode blk k ip) (16 * k + j) = dinodeWord ip j := by
    intro j hj
    rw [word_putDinode _ _ _ (by omega), if_pos (by omega)]
    congr 1
    omega
  have h0 : word (putDinode blk k ip) (16 * k) = ip.major ++ ip.type := hw 0 (by decide)
  have h1 : word (putDinode blk k ip) (16 * k + 1) = ip.nlink ++ ip.minor := hw 1 (by decide)
  have h2 : word (putDinode blk k ip) (16 * k + 2) = ip.size := hw 2 (by decide)
  have haddrs : (fun j => if j ≤ NDIRECT then word (putDinode blk k ip) (16 * k + 3 + j) else 0) = ip.addrs := by
    funext j
    split
    · rename_i hj
      rw [NDIRECT] at hj
      have := hw (3 + j) (by omega)
      rw [← Nat.add_assoc] at this
      rw [this, Nat.add_comm 3 j]
      rfl
    · exact (hs j (by omega)).symm
  rw [getDinode, h0, h1, h2, haddrs]
  rw [show (ip.major ++ ip.type : BitVec 32).extractLsb' 0 16 = ip.type from BitVec.extractLsb'_append_eq_right,
    show (ip.major ++ ip.type : BitVec 32).extractLsb' 16 16 = ip.major from BitVec.extractLsb'_append_eq_left,
    show (ip.nlink ++ ip.minor : BitVec 32).extractLsb' 0 16 = ip.minor from BitVec.extractLsb'_append_eq_right,
    show (ip.nlink ++ ip.minor : BitVec 32).extractLsb' 16 16 = ip.nlink from BitVec.extractLsb'_append_eq_left]

theorem ext_halves {w w' : BitVec 32} (h0 : w.extractLsb' 0 16 = w'.extractLsb' 0 16)
    (h1 : w.extractLsb' 16 16 = w'.extractLsb' 16 16) : w = w' := by
  refine BitVec.eq_of_getLsbD_eq fun k hk => ?_
  by_cases hlt : k < 16
  · have := congrArg (fun x => BitVec.getLsbD x k) h0
    simpa [BitVec.getLsbD_extractLsb', hlt] using this
  · have := congrArg (fun x => BitVec.getLsbD x (k - 16)) h1
    have hk' : k - 16 < 16 := by omega
    have e : 16 + (k - 16) = k := by omega
    simpa [BitVec.getLsbD_extractLsb', hk', e] using this

theorem ext_inodes (h : ∀ k, k < IPB → getDinode blk k = getDinode blk' k) : blk = blk' := by
  funext w
  have hw := w.isLt
  have hk := h (w.val / 16) (by simp only [IPB, BSIZE]; omega)
  simp only [getDinode, Dinode.mk.injEq] at hk
  obtain ⟨ht, hma, hmi, hn, hs, ha⟩ := hk
  rw [← word_val blk, ← word_val blk', ← Nat.div_add_mod w.val 16]
  have hj : w.val % 16 < 16 := Nat.mod_lt _ (by decide)
  generalize w.val % 16 = j at hj
  match j, hj with
  | 0, _ => exact ext_halves ht hma
  | 1, _ => exact ext_halves hmi hn
  | 2, _ => exact hs
  | j + 3, hj =>
    have hj' : j ≤ NDIRECT := by
      rw [NDIRECT]
      omega
    have := congrFun ha j
    rw [if_pos hj', if_pos hj'] at this
    rwa [Nat.add_comm j 3, ← Nat.add_assoc]

/-! ## The file system of an image -/

/-- The places of the parts of a file system with a free map of one block. -/
structure Layout (sb : Superblock) : Prop where
  magic : sb.magic = FSMAGIC
  boot : 1 < sb.logstart.toNat
  log : sb.logstart.toNat + LOGBLOCKS < sb.inodestart.toNat
  inodes : sb.ninodes.toNat ≤ IPB * (sb.bmapstart.toNat - sb.inodestart.toNat)
  bmap : sb.inodestart.toNat ≤ sb.bmapstart.toNat ∧ sb.bmapstart.toNat < sb.size.toNat
  size : sb.size.toNat ≤ BPB

/-- Inode `i` has a place in the inode blocks. -/
def InArea (sb : Superblock) (i : Nat) : Prop := i / IPB + sb.inodestart.toNat < sb.bmapstart.toNat

/-- Inode `i` of an image. -/
def imageInode (sb : Superblock) (d : Disk) (i : Nat) : Dinode := getDinode (d (iblock sb i)) (i % IPB)

/-- The bit of block `b` in the free map of an image. -/
def imageBit (sb : Superblock) (d : Disk) (b : Nat) : Bool := bitAt (d sb.bmapstart) b

def noInode : Dinode := { type := 0, major := 0, minor := 0, nlink := 0, size := 0, addrs := fun _ => 0 }

def fsOf (sb : Superblock) (d : Disk) : Fs where
  sb := ⟨sb.size.toNat, sb.ninodes.toNat, sb.bmapstart.toNat⟩
  used b := decide (b < sb.size.toNat) && imageBit sb d b
  dinode i := if i < sb.ninodes.toNat then imageInode sb d i else noInode
  data b := d (BitVec.ofNat 32 b)
  itable _ := ⟨0, none⟩

section Layout

variable {sb : Superblock} {i j : Nat} {d : Disk}

theorem toNat_iblock (hi : InArea sb i) : (iblock sb i).toNat = i / IPB + sb.inodestart.toNat := by
  have hb := sb.bmapstart.isLt
  rw [InArea] at hi
  rw [iblock, BitVec.toNat_add, BitVec.toNat_ofNat, Nat.mod_eq_of_lt (by omega : i / IPB < 2 ^ 32), Nat.mod_eq_of_lt]
  omega

theorem iblock_ne (hi : InArea sb i) : iblock sb i ≠ sb.bmapstart := by
  intro e
  have hn := toNat_iblock hi
  rw [e] at hn
  rw [InArea] at hi
  omega

/-- Another block for an inode. -/
theorem imageInode_update (hi : InArea sb i) (hj : InArea sb j) (d : Disk) (hs : Short ip) :
    imageInode sb (update d (iblock sb i) (putDinode (d (iblock sb i)) (i % IPB) ip)) j =
      if j = i then ip else imageInode sb d j := by
  have hlt : ∀ k, k % IPB < IPB := fun k => Nat.mod_lt _ (by decide)
  rw [imageInode]
  by_cases hb : iblock sb j = iblock sb i
  · have hq : j / IPB = i / IPB := by
      have hn := congrArg BitVec.toNat hb
      rw [toNat_iblock hi, toNat_iblock hj] at hn
      omega
    rw [hb, Function.update_self]
    split
    · rename_i e
      rw [e, getDinode_putDinode _ (hlt i) hs]
    · rename_i e
      have hne : j % IPB ≠ i % IPB := fun hr => e (by
        rw [← Nat.div_add_mod j IPB, ← Nat.div_add_mod i IPB, hq, hr])
      rw [getDinode_putDinode_ne _ (hlt j) hne, imageInode, hb]
  · rw [Function.update_of_ne hb, if_neg fun e => hb (by rw [e]), imageInode]

variable (h : Layout sb)

include h

theorem Layout.inArea (hi : i < sb.ninodes.toNat) : InArea sb i := by
  have hn := h.inodes
  obtain ⟨hle, -⟩ := h.bmap
  have hdiv : i / IPB < sb.bmapstart.toNat - sb.inodestart.toNat :=
    (Nat.div_lt_iff_lt_mul (by decide)).2 (by rw [Nat.mul_comm]; omega)
  rw [InArea]
  omega

theorem Layout.iblock_notInLog (hi : InArea sb i) : ¬InLog sb.logstart (iblock sb i) := by
  refine Log.notInLog_of_lt ?_
  have hlog := h.log
  have hpos := Nat.zero_le (i / IPB)
  rw [toNat_iblock hi]
  omega

theorem Layout.bmap_notInLog : ¬InLog sb.logstart sb.bmapstart := by
  refine Log.notInLog_of_lt ?_
  have hlog := h.log
  have hb := h.bmap
  omega

theorem Layout.one_notInLog : ¬InLog sb.logstart 1 := by
  rintro ⟨i, hi, e⟩
  have hboot := h.boot
  have hlog := h.log
  have hb := sb.inodestart.isLt
  have hn := congrArg BitVec.toNat e
  rw [BitVec.toNat_add, BitVec.toNat_ofNat] at hn
  have h1 : (1 : Blockno).toNat = 1 := rfl
  simp only [LOGBLOCKS, MAXOPBLOCKS] at hi hlog
  rw [h1, Nat.mod_eq_of_lt (by omega : i < 2 ^ 32), Nat.mod_eq_of_lt (by omega)] at hn
  omega

/-- A block after the free map. -/
def Home (sb : Superblock) (b : Blockno) : Prop := sb.bmapstart.toNat < b.toNat

omit h in
theorem Home.ne_bmap (hb : Home sb b) : b ≠ sb.bmapstart := fun e => Nat.lt_irrefl _ (e ▸ hb)

omit h in
theorem Home.ne_iblock (hb : Home sb b) (hi : InArea sb i) : b ≠ iblock sb i := by
  rintro rfl
  rw [Home, toNat_iblock hi] at hb
  rw [InArea] at hi
  omega

theorem Home.notInLog (hb : Home sb b) : ¬InLog sb.logstart b := by
  refine Log.notInLog_of_lt ?_
  have hlog := h.log
  have hbmap := h.bmap
  rw [Home] at hb
  omega

theorem Layout.bblock_eq (hb : b.toNat < sb.size.toNat) : bblock sb b = sb.bmapstart := by
  have hs := h.size
  rw [bblock, Nat.div_eq_of_lt (by omega)]
  exact BitVec.zero_add _

end Layout

/-! ## Images with inodes freed -/

/-- An image before `ireclaim`: its blocks are owned by slots of inodes, and files have no holes. -/
abbrev Image (sb : Superblock) (t : Disk) : Prop := Blocks.WellFormed (fsOf sb t)

/-- A block that a slot holds is a data block. -/
theorem home_of_owned {sb : Superblock} {t : Disk} {addr : Blocks.Slot → Nat} {used : Nat → Bool} {hi : Nat}
    (ho : Owned addr used (fsOf sb t).sb.datastart hi) {a : Blockno} (ha : a ≠ 0) {x : Blocks.Slot}
    (hx : addr x = a.toNat) : Home sb a := by
  have hr := (ho.range x (by rw [hx]; exact Blocks.toNat_ne_zero ha)).1
  rw [hx] at hr
  exact Nat.lt_of_lt_of_le (Nat.lt_succ_of_le (Nat.le_add_right ..)) hr

/-- Of the data blocks, the addresses depend on the indirect block only. -/
theorem inodeAddr_congr {data data' : Nat → Block} {x : Blocks.Slot}
    (h : ip.type ≠ 0 → ip.addrs NDIRECT ≠ 0 → data' (ip.addrs NDIRECT).toNat = data (ip.addrs NDIRECT).toNat) :
    Blocks.inodeAddr ip data' x = Blocks.inodeAddr ip data x := by
  cases x with
  | direct | indirect => rfl
  | entry i j =>
    rw [Blocks.inodeAddr, Blocks.inodeAddr]
    split
    · rename_i hc
      rw [h hc.1 hc.2]
    · rfl

/-- Block `b` is a data block or the indirect block of inode `i`. -/
def Holds (sb : Superblock) (t : Disk) (i b : Nat) : Prop :=
  b ≠ 0 ∧ ∃ x : Blocks.Slot, x.inum = i ∧ Blocks.diskAddr (fsOf sb t) x = b

/-- A freed inode. -/
def freed (ip : Dinode) : Dinode := { ip with type := 0, size := 0, addrs := fun _ => 0 }

/-- The image `u` is `t` with the inodes `S` freed: their blocks are not in use any more, and nothing else
outside the log has changed. -/
structure Reclaimed (sb : Superblock) (t : Disk) (S : Nat → Prop) (u : Disk) : Prop where
  inode : ∀ i, InArea sb i → S i → imageInode sb u i = freed (imageInode sb t i)
  other_inode : ∀ i, InArea sb i → ¬S i → imageInode sb u i = imageInode sb t i
  bit : ∀ b, b < BPB → (∃ i, S i ∧ Holds sb t i b) → imageBit sb u b = false
  other_bit : ∀ b, b < BPB → (¬∃ i, S i ∧ Holds sb t i b) → imageBit sb u b = imageBit sb t b
  other_block : ∀ b, b ≠ sb.bmapstart → (∀ i, InArea sb i → b ≠ iblock sb i) → ¬InLog sb.logstart b → u b = t b

section Reclaimed

variable {sb : Superblock} {t u u' : Disk} {S S' : Nat → Prop}

theorem Reclaimed.refl (hS : ∀ i, ¬S i) : Reclaimed sb t S t :=
  ⟨fun i _ h => absurd h (hS i), fun _ _ _ => rfl, fun _ _ ⟨i, h, _⟩ => absurd h (hS i), fun _ _ _ => rfl,
    fun _ _ _ _ => rfl⟩

/-- Nothing in the log matters. -/
theorem Reclaimed.congr (hL : Layout sb) (h : Reclaimed sb t S u) (hu : ∀ b, ¬InLog sb.logstart b → u' b = u b) :
    Reclaimed sb t S u' := by
  have hinode : ∀ i, InArea sb i → imageInode sb u' i = imageInode sb u i := fun i hi => by
    rw [imageInode, hu _ (hL.iblock_notInLog hi), imageInode]
  have hbit : ∀ b, imageBit sb u' b = imageBit sb u b := fun b => by
    rw [imageBit, hu _ hL.bmap_notInLog, imageBit]
  refine ⟨fun i hi hS => ?_, fun i hi hS => ?_, fun b hb hS => ?_, fun b hb hS => ?_, fun b hb hi hlog => ?_⟩
  · rw [hinode i hi, h.inode i hi hS]
  · rw [hinode i hi, h.other_inode i hi hS]
  · rw [hbit, h.bit b hb hS]
  · rw [hbit, h.other_bit b hb hS]
  · rw [hu b hlog, h.other_block b hb hi hlog]

/-- The image is determined. -/
theorem Reclaimed.unique (h : Reclaimed sb t S u) (h' : Reclaimed sb t S u') (hb : ¬InLog sb.logstart b) : u b = u' b := by
  by_cases hm : b = sb.bmapstart
  · subst hm
    refine ext_bits fun b hlt => ?_
    by_cases hS : ∃ i, S i ∧ Holds sb t i b
    · exact (h.bit b hlt hS).trans (h'.bit b hlt hS).symm
    · exact (h.other_bit b hlt hS).trans (h'.other_bit b hlt hS).symm
  · by_cases hi : ∃ i, InArea sb i ∧ b = iblock sb i
    · obtain ⟨i, hi, rfl⟩ := hi
      refine ext_inodes fun k hk => ?_
      -- inode `k` of the block
      have hdiv : (i / IPB * IPB + k) / IPB = i / IPB := by
        rw [Nat.add_comm, Nat.add_mul_div_right _ _ (by decide), Nat.div_eq_of_lt hk, Nat.zero_add]
      have hmod : (i / IPB * IPB + k) % IPB = k := by
        rw [Nat.add_comm, Nat.add_mul_mod_self_right, Nat.mod_eq_of_lt hk]
      have hj : InArea sb (i / IPB * IPB + k) := by
        rw [InArea, hdiv]
        exact hi
      have heq : imageInode sb u (i / IPB * IPB + k) = imageInode sb u' (i / IPB * IPB + k) := by
        by_cases hS : S (i / IPB * IPB + k)
        · rw [h.inode _ hj hS, h'.inode _ hj hS]
        · rw [h.other_inode _ hj hS, h'.other_inode _ hj hS]
      rw [imageInode, imageInode, iblock, hdiv, hmod] at heq
      exact heq
    · have hi : ∀ i, InArea sb i → b ≠ iblock sb i := fun i h e => hi ⟨i, h, e⟩
      exact (h.other_block b hm hi hb).trans (h'.other_block b hm hi hb).symm

/-- The blocks of an inode that has not been freed. -/
theorem Reclaimed.holds_iff (hL : Layout sb) (ht : Image sb t) (h : Reclaimed sb t S u) {i b : Nat}
    (hi : i < sb.ninodes.toNat) (hS : ¬S i) : Holds sb u i b ↔ Holds sb t i b := by
  have haddr : ∀ x : Blocks.Slot, x.inum = i → Blocks.diskAddr (fsOf sb u) x = Blocks.diskAddr (fsOf sb t) x := by
    intro x hx
    have hd : (fsOf sb u).dinode x.inum = (fsOf sb t).dinode x.inum := by
      rw [hx]
      change (if i < _ then imageInode sb u i else noInode) = if i < _ then imageInode sb t i else noInode
      rw [h.other_inode i (hL.inArea hi) hS]
    rw [Blocks.diskAddr, hd, Blocks.diskAddr]
    refine inodeAddr_congr fun htype ha => ?_
    -- The indirect block is a data block, which stays.
    have hind : Blocks.diskAddr (fsOf sb t) (.indirect x.inum) = (((fsOf sb t).dinode x.inum).addrs NDIRECT).toNat :=
      if_pos htype
    have hhome := home_of_owned ht.owned ha hind
    change u (BitVec.ofNat 32 _) = t (BitVec.ofNat 32 _)
    rw [BitVec.ofNat_toNat, BitVec.setWidth_eq]
    exact h.other_block _ hhome.ne_bmap (fun _ hj => hhome.ne_iblock hj) (hhome.notInLog hL)
  rw [Holds, Holds]
  refine and_congr_right fun _ => exists_congr fun x => and_congr_right fun hx => ?_
  rw [haddr x hx]

theorem Reclaimed.trans (hL : Layout sb) (ht : Image sb t) (h : Reclaimed sb t S u) (h' : Reclaimed sb u S' u')
    (hS' : ∀ i, S' i → i < sb.ninodes.toNat ∧ ¬S i) : Reclaimed sb t (fun i => S i ∨ S' i) u' := by
  have hholds : ∀ b, (∃ i, S' i ∧ Holds sb u i b) ↔ ∃ i, S' i ∧ Holds sb t i b := fun b =>
    exists_congr fun i => and_congr_right fun hi => h.holds_iff hL ht (hS' i hi).1 (hS' i hi).2
  refine ⟨fun i hi hS => ?_, fun i hi hS => ?_, fun b hb hS => ?_, fun b hb hS => ?_, fun b hb hi hlog => ?_⟩
  · by_cases hs' : S' i
    · rw [h'.inode i hi hs', h.other_inode i hi (hS' i hs').2]
    · rw [h'.other_inode i hi hs', h.inode i hi (hS.resolve_right hs')]
  · obtain ⟨hs, hs'⟩ := not_or.1 hS
    rw [h'.other_inode i hi hs', h.other_inode i hi hs]
  · by_cases hs' : ∃ i, S' i ∧ Holds sb u i b
    · exact h'.bit b hb hs'
    · rw [h'.other_bit b hb hs']
      obtain ⟨i, hi, hh⟩ := hS
      refine h.bit b hb ⟨i, hi.resolve_right fun hs => hs' ((hholds b).2 ⟨i, hs, hh⟩), hh⟩
  · have hs' : ¬∃ i, S' i ∧ Holds sb u i b := fun hs => by
      obtain ⟨i, hi, hh⟩ := (hholds b).1 hs
      exact hS ⟨i, .inr hi, hh⟩
    rw [h'.other_bit b hb hs', h.other_bit b hb fun ⟨i, hi, hh⟩ => hS ⟨i, .inl hi, hh⟩]
  · rw [h'.other_block b hb hi hlog, h.other_block b hb hi hlog]

end Reclaimed

end Xv6.Reclaim
