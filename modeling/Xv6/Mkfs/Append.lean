import Xv6.Mkfs.Model
import Xv6.Blocks.Files

/-!
# `iappend` is a write of the kernel's

The blocks that `mkfs` fills are those the kernel would allocate: `view` is an image under
construction as the kernel sees it with one inode locked, and `wp_appendLoop` says that a run of
the loop of `iappend` is one of the loop of `writei` on the view. What the blocks layer proves of
`writei` then holds of `iappend`.
-/

namespace Xv6.Mkfs

open Function List
open Blocks

/-! ## Bytes -/

theorem word_blockOf (buf : Sector) {j : Nat} (hj : j < 256) : word (blockOf buf) j = readLe buf (4 * j) 4 := by
  rw [word, dif_pos hj]
  rfl

theorem byte_blockOf (buf : Sector) {i : Nat} (hi : i < BSIZE) : byte (blockOf buf) i = buf i := by
  have hB : BSIZE = 1024 := rfl
  rw [byte, word_blockOf buf (by omega)]
  refine BitVec.eq_of_getLsbD_eq fun k hk => ?_
  have hpos : (8 * (i % 4) + k) / 8 = i % 4 := by omega
  have hbit : (8 * (i % 4) + k) % 8 = k := by omega
  have hbyte : 4 * (i / 4) + i % 4 = i := by omega
  rw [BitVec.getLsbD_extractLsb', getLsbD_readLe (by omega), hpos, hbit, hbyte]
  simp [hk]

theorem blockOf_zeroes : blockOf zeroes = zeroBlock := funext fun j => readLe_zero (4 * j.val) 4

theorem blockOf_writeLe (buf : Sector) (j : Nat) (v : BitVec 32) :
    blockOf (writeLe buf (4 * j) 4 v) = setWord (blockOf buf) j v := by
  funext k
  unfold setWord
  by_cases e : k.val = j
  · rw [if_pos e, blockOf, e]
    exact readLe_writeLe buf (4 * j) 4 v
  · rw [if_neg e]
    refine readLe_congr fun i hi hi' => ?_
    exact if_neg (by omega)

variable {b k o fbn : Nat} {E : Fail → Prop}

theorem getD_drop_take (p : List (BitVec 8)) {tot m : Nat} (hk : k < m) :
    ((p.drop tot).take m).getD k 0 = p.getD (tot + k) 0 := by
  simp [getD_eq_getElem?_getD, hk]

/-- Copying bytes into a sector is the kernel's copy into a block. -/
theorem blockOf_bcopy (buf : Sector) (p : List (BitVec 8)) {tot m : Nat} (ho : o + m ≤ BSIZE) (hm : tot + m ≤ p.length) :
    blockOf (bcopy buf o ((p.drop tot).take m)) = (Src.kernel p).copyin (blockOf buf) o tot m := by
  have hlen : ((p.drop tot).take m).length = m := by
    rw [length_take, length_drop]
    omega
  have hm' : m ≤ (Src.kernel p).avail - tot := Nat.le_sub_of_add_le' hm
  refine Blocks.block_ext fun i hi => ?_
  rw [byte_blockOf _ hi, Blocks.byte_copyin _ _ (Nat.min_eq_left hm').symm ho, byte_blockOf _ hi, bcopy, hlen]
  by_cases h : o ≤ i ∧ i < o + m
  · rw [if_pos h, if_pos h, getD_drop_take p (by omega)]
    rfl
  · rw [if_neg h, if_neg h]

theorem getDinode_putDinode (buf : Sector) (o : Nat) {din : Dinode} (hd : ∀ k, NDIRECT < k → din.addrs k = 0) :
    getDinode (putDinode buf o din) o = din := by
  have hin : ∀ k, k < 64 → putDinode buf o din (o + k) = dinodeByte din k := fun k hk => by
    rw [putDinode, if_pos ⟨by omega, by omega⟩, Nat.add_sub_cancel_left]
  obtain ⟨type, major, minor, nlink, size, addrs⟩ := din
  have hN : NDIRECT = 12 := rfl
  simp only [getDinode, Dinode.mk.injEq]
  refine ⟨?_, ?_, ?_, ?_, ?_, funext fun k => ?_⟩
  · refine readLe_of_bytes (n := 2) fun j hj => ?_
    rw [hin j (by omega), dinodeByte, if_pos hj]
  · refine readLe_of_bytes (n := 2) fun j hj => ?_
    rw [Nat.add_assoc, hin _ (by omega), dinodeByte, if_neg (by omega), if_pos (by omega), Nat.add_sub_cancel_left]
  · refine readLe_of_bytes (n := 2) fun j hj => ?_
    rw [Nat.add_assoc, hin _ (by omega), dinodeByte, if_neg (by omega), if_neg (by omega), if_pos (by omega),
      Nat.add_sub_cancel_left]
  · refine readLe_of_bytes (n := 2) fun j hj => ?_
    rw [Nat.add_assoc, hin _ (by omega), dinodeByte, if_neg (by omega), if_neg (by omega), if_neg (by omega),
      if_pos (by omega), Nat.add_sub_cancel_left]
  · refine readLe_of_bytes (n := 4) fun j hj => ?_
    rw [Nat.add_assoc, hin _ (by omega), dinodeByte, if_neg (by omega), if_neg (by omega), if_neg (by omega),
      if_neg (by omega), if_pos (by omega), Nat.add_sub_cancel_left]
  · split
    · refine readLe_of_bytes (n := 4) fun j hj => ?_
      have hdiv : (12 + 4 * k + j - 12) / 4 = k := by omega
      have hmod : (12 + 4 * k + j - 12) % 4 = j := by omega
      rw [show o + 12 + 4 * k + j = o + (12 + 4 * k + j) by omega, hin _ (by omega), dinodeByte, if_neg (by omega),
        if_neg (by omega), if_neg (by omega), if_neg (by omega), if_neg (by omega), hdiv, hmod]
    · exact (hd k (by omega)).symm

/-- An inode is read from its 64 bytes. -/
theorem getDinode_congr {buf buf' : Sector} (h : ∀ k, o ≤ k → k < o + 64 → buf' k = buf k) :
    getDinode buf' o = getDinode buf o := by
  have hN : NDIRECT = 12 := rfl
  have hread {n i : Nat} (hi : o ≤ i ∧ i + n ≤ o + 64) : readLe buf' i n = readLe buf i n :=
    readLe_congr fun k hk hk' => h k (by omega) (by omega)
  simp only [getDinode, Dinode.mk.injEq]
  refine ⟨hread (by omega), hread (by omega), hread (by omega), hread (by omega), hread (by omega), funext fun k => ?_⟩
  split
  · exact hread (by omega)
  · rfl

theorem getDinode_putDinode_of_ne (buf : Sector) {o' : Nat} (din : Dinode) (h : o' + 64 ≤ o ∨ o + 64 ≤ o') :
    getDinode (putDinode buf o din) o' = getDinode buf o' :=
  getDinode_congr fun k hk hk' => if_neg (by omega)

theorem getDinode_zeroes (o : Nat) : getDinode zeroes o = noInode := by
  simp only [getDinode, noInode, Dinode.mk.injEq]
  refine ⟨readLe_zero o 2, readLe_zero _ 2, readLe_zero _ 2, readLe_zero _ 2, readLe_zero _ 4, funext fun k => ?_⟩
  split
  · exact readLe_zero _ 4
  · rfl

/-! ## Images under construction -/

/-- The image as the kernel sees it with inode `inum` locked, whose copy in memory is `din`. -/
def view (s : Mk) (inum : Nat) (din : Dinode) : Fs where
  sb := ⟨FSSIZE, NINODES, bmapstart⟩
  used b := decide (b < s.freeblock)
  dinode i := if i < INODES then s.dinode i else noInode
  data b := if b < nmeta then zeroBlock else blockOf (s.sect b)
  itable := update (fun _ => ⟨0, none⟩) inum ⟨1, some din⟩

theorem datastart_view (s : Mk) (inum : Nat) (din : Dinode) : (view s inum din).sb.datastart = nmeta := by
  show bmapstart + FSSIZE / Blocks.BPB + 1 = nmeta
  decide

theorem inode_view (s : Mk) (inum : Nat) (din : Dinode) : ((view s inum din).itable inum).inode = some din := by
  simp only [view, update_self]

theorem setInode_view (s : Mk) (inum : Nat) (din din' : Dinode) :
    (view s inum din).setInode inum din' = view s inum din' := by
  simp only [Fs.setInode, view, update_self, Function.update_idem]

/-- What holds of the sectors all the time. -/
structure Good (s : Mk) : Prop where
  len : s.len = FSSIZE
  lo : nmeta ≤ s.freeblock
  hi : s.freeblock ≤ FSSIZE
  zero : ∀ b, s.freeblock ≤ b → s.sect b = zeroes

/-- The image after `freeblock++`. -/
def Mk.take (s : Mk) : Mk := { s with freeblock := s.freeblock + 1 }

/-- The image after a write of a sector that is there. -/
def Mk.put (s : Mk) (b : Nat) (buf : Sector) : Mk := { s with sect := update s.sect b buf }

variable {s s' : Mk} {inum : Nat} {din : Dinode}

theorem Good.take (h : Good s) (hroom : s.freeblock < FSSIZE) : Good s.take :=
  ⟨h.len, Nat.le_succ_of_le h.lo, hroom, fun b hb => h.zero b (Nat.le_of_succ_le hb)⟩

theorem Good.put (h : Good s) (hb : b < s.freeblock) (buf : Sector) : Good (s.put b buf) :=
  ⟨h.len, h.lo, h.hi, fun c hc => by
    rw [Mk.put]
    exact (update_of_ne (by rintro rfl; exact absurd hb (Nat.not_lt.2 hc)) ..).trans (h.zero c hc)⟩

theorem wp_rsect {Q : Sector → Mk → Prop} (h : b < s.len → Q (s.sect b) s) (h' : ¬b < s.len → E .die) :
    WP (rsect b) E Q s :=
  .bind (.get (.ite (fun hb => .pure (h hb)) fun hb => .throw (h' hb)))

theorem wp_wsect {Q : Unit → Mk → Prop} {buf : Sector} (hb : b < s.len) (h : Q () (s.put b buf)) :
    WP (wsect b buf) E Q s := by
  refine .modify ?_
  have hlen : max s.len (b + 1) = s.len := by omega
  rw [hlen]
  exact h

theorem wp_takeBlock {Q : Nat → Mk → Prop} (h : Q s.freeblock s.take) : WP takeBlock E Q s :=
  .bind (.get (.bind (.set (.pure h))))

/-- A run of the kernel's code, one step at a time. -/
theorem bind_ok {σ ε α β : Type} {m : StateT σ (Except ε) α} {f : α → StateT σ (Except ε) β} {s s' : σ} {a : α}
    (h : m s = .ok (a, s')) : (m >>= f) s = f a s' := by
  show (m s >>= fun p => f p.1 p.2) = _
  rw [h]
  rfl

theorem inode_run (s : Mk) (inum : Nat) (din : Dinode) :
    Blocks.inode inum (view s inum din) = .ok (din, view s inum din) := by
  rw [Blocks.inode, bind_ok (m := get) (s := view s inum din) (a := view s inum din) rfl, inode_view]
  rfl

theorem data_view (s : Mk) (inum : Nat) (din : Dinode) (hb : nmeta ≤ b) : (view s inum din).data b = blockOf (s.sect b) :=
  if_neg (Nat.not_lt.2 hb)

theorem balloc_of_find {fs : Fs} (hf : (range fs.sb.size).find? (fun b => !fs.used b) = some b) :
    Blocks.balloc fs = .ok (BitVec.ofNat 32 b, fs.alloc b) := by
  have hget : (get : Blocks.M Fs) fs = .ok (fs, fs) := rfl
  rw [Blocks.balloc, bind_ok hget, hf]
  rfl

/-- The kernel allocates the block that `mkfs` takes. -/
theorem balloc_run (h : Good s) (hroom : s.freeblock < FSSIZE) :
    Blocks.balloc (view s inum din) = .ok (BitVec.ofNat 32 s.freeblock, view s.take inum din) := by
  have hfind : (range (view s inum din).sb.size).find? (fun b => !(view s inum din).used b) =
      some s.freeblock := by
    rw [find?_range_eq_some]
    refine ⟨by simp [view], mem_range.2 hroom, fun j hj => ?_⟩
    simp [view, hj]
  have hused : update (view s inum din).used s.freeblock true = (view s.take inum din).used := by
    funext b
    by_cases e : b = s.freeblock
    · simp [e, view, Mk.take]
    · rw [update_of_ne e]
      show decide (b < s.freeblock) = decide (b < s.freeblock + 1)
      exact decide_eq_decide.2 (by omega)
  have hdata : update (view s inum din).data s.freeblock zeroBlock = (view s.take inum din).data := by
    funext b
    by_cases e : b = s.freeblock
    · rw [e, update_self, data_view _ _ _ h.lo]
      show _ = blockOf (s.sect s.freeblock)
      rw [h.zero _ (Nat.le_refl _), blockOf_zeroes]
    · rw [update_of_ne e]
      rfl
  rw [balloc_of_find hfind, Fs.alloc, hused, hdata]
  rfl

/-! ## `bmap` -/

theorem toNat_block (h : b < FSSIZE) : (BitVec.ofNat 32 b).toNat = b := by
  have hF : FSSIZE = 2000 := rfl
  rw [BitVec.toNat_ofNat, Nat.mod_eq_of_lt (by omega)]

theorem block_ne_zero (hlo : nmeta ≤ b) (h : b < FSSIZE) : BitVec.ofNat 32 b ≠ 0 := by
  intro e
  have hb := toNat_block h
  have hpos : 0 < nmeta := by decide
  rw [e] at hb
  have : b = 0 := hb.symm
  omega

theorem addrAt_run_new (inum : Nat) (h : Good s) (hroom : s.freeblock < FSSIZE) (h0 : din.addrs k = 0) :
    Blocks.addrAt inum din k Blocks.balloc (view s inum din) =
      .ok (BitVec.ofNat 32 s.freeblock, view s.take inum (din.setAddr k (BitVec.ofNat 32 s.freeblock))) := by
  rw [Blocks.addrAt, if_pos h0, bind_ok (balloc_run h hroom), if_neg (block_ne_zero h.lo hroom)]
  show Except.ok (BitVec.ofNat 32 s.freeblock, (view s.take inum din).setInode inum _) = _
  rw [setInode_view]

theorem addrAt_run_old (s : Mk) (inum : Nat) (h0 : din.addrs k ≠ 0) :
    Blocks.addrAt inum din k Blocks.balloc (view s inum din) = .ok (din.addrs k, view s inum din) := by
  rw [Blocks.addrAt, if_neg h0]
  rfl

/-- The kernel's view of a write of a data sector. -/
theorem setData_view (s : Mk) (inum : Nat) (din : Dinode) (hb : nmeta ≤ b) (buf : Sector) {blk : Block}
    (hblk : blk = blockOf buf) (hino : ∀ i < INODES, iblock i < nmeta) :
    (view s inum din).setData b blk = view (s.put b buf) inum din := by
  have hdata : update (view s inum din).data b blk = (view (s.put b buf) inum din).data := by
    funext c
    by_cases e : c = b
    · rw [e, update_self, data_view _ _ _ hb, hblk, Mk.put]
      simp only [update_self]
    · rw [update_of_ne e]
      simp only [view, Mk.put, update_of_ne e]
  have hdin : (view s inum din).dinode = (view (s.put b buf) inum din).dinode := by
    funext i
    simp only [view]
    split
    · rename_i hi
      have hne : iblock i ≠ b := by
        have := hino i hi
        omega
      simp only [Mk.dinode, Mk.put, update_of_ne hne]
    · rfl
  simp only [Fs.setData, hdata]
  rw [Fs.mk.injEq]
  exact ⟨rfl, rfl, hdin, rfl, rfl⟩

theorem iblock_lt {i : Nat} (hi : i < INODES) : iblock i < nmeta := by
  have h1 : INODES = 208 := rfl
  have h2 : IPB = 16 := rfl
  have h3 : inodestart = 33 := rfl
  have h4 : nmeta = 47 := rfl
  rw [iblock, h2, h3, h4]
  omega

/-- What `blockFor` does, with enough room: the kernel's `bmap` gives the same block. -/
structure Mapped (inum : Nat) (din : Dinode) (fbn : Nat) (s : Mk) (r : Dinode × Nat) (s' : Mk) : Prop where
  good : Good s'
  run : Blocks.bmap inum fbn Blocks.balloc (view s inum din) = .ok (BitVec.ofNat 32 r.2, view s' inum r.1)
  lo : nmeta ≤ r.2
  hi : r.2 < s'.freeblock
  sect : ∀ b < nmeta, s'.sect b = s.sect b
  freeinode : s'.freeinode = s.freeinode
  taken : s'.freeblock ≤ s.freeblock + 2
  inode : ∃ addrs, r.1 = { din with addrs := addrs } ∧ ∀ k, NDIRECT < k → addrs k = din.addrs k

/-- A block of the inode has been taken. -/
theorem Own.block_lt {d : Option Nat} (h : Own d (view s inum din)) {x : Blocks.Slot}
    (hx : addrOf (view s inum din) x = b) (hb : b ≠ 0) : nmeta ≤ b ∧ b < s.freeblock := by
  subst hx
  have hm := h.owned.marked x hb
  have hr := (h.owned.range x hb).1
  rw [datastart_view] at hr
  exact ⟨hr, of_decide_eq_true hm⟩

theorem addrs_setAddr (din : Dinode) (hk : k ≤ NDIRECT) (a : BitVec 32) :
    ∃ addrs, din.setAddr k a = { din with addrs := addrs } ∧ ∀ j, NDIRECT < j → addrs j = din.addrs j :=
  ⟨_, rfl, fun j hj => update_of_ne (by omega) ..⟩

/-- There was no sector for the block. -/
structure Over (s : Mk) (r : Dinode × Nat) (s' : Mk) : Prop where
  block : FSSIZE ≤ r.2
  len : s'.len = FSSIZE
  full : FSSIZE < s.freeblock + 2

theorem wp_blockFor_direct (h : Good s) (hown : Own (some inum) (view s inum din)) (ht : din.type ≠ 0)
    (hd : fbn < NDIRECT) :
    WP (blockFor din fbn) (fun _ => False) (fun r s' => Mapped inum din fbn s r s' ∨ Over s r s') s := by
  have hslot : addrOf (view s inum din) (slotAt inum fbn) = (din.addrs fbn).toNat := by
    have := Blocks.addrOf_addrSlot (inode_view s inum din) ht (Nat.le_of_lt hd)
    rwa [Blocks.addrSlot, if_pos hd, ← show slotAt inum fbn = .direct inum fbn from if_pos hd] at this
  unfold blockFor
  rw [if_pos hd]
  refine .ite (fun h0 => .bind (wp_takeBlock (.pure ?_))) fun h0 => .pure (.inl ?_)
  · by_cases hroom : s.freeblock < FSSIZE
    · refine .inl ⟨h.take hroom, ?_, h.lo, Nat.lt_succ_self _, fun _ _ => rfl, rfl, Nat.le_succ _,
        addrs_setAddr din (Nat.le_of_lt hd) _⟩
      rw [Blocks.bmap, bind_ok (inode_run s inum din), if_pos hd, addrAt_run_new inum h hroom h0]
    · exact .inr ⟨Nat.not_lt.1 hroom, h.len, by omega⟩
  · have hne : (din.addrs fbn).toNat ≠ 0 := Blocks.toNat_ne_zero h0
    obtain ⟨hlo, hlt⟩ := Own.block_lt hown hslot hne
    refine ⟨h, ?_, hlo, hlt, fun _ _ => rfl, rfl, Nat.le_add_right .., din.addrs, rfl, fun _ _ => rfl⟩
    rw [Blocks.bmap, bind_ok (inode_run s inum din), if_pos hd, addrAt_run_old s inum h0, BitVec.ofNat_toNat,
      BitVec.setWidth_eq]

/-- The part of `bmap` after the indirect block `ind` is known. -/
def mapEntry (ind : BitVec 32) (j : Nat) : Blocks.M (BitVec 32) := do
  let a := (← get).data ind.toNat
  if word a j = 0 then
    let addr ← Blocks.balloc
    if addr = 0 then pure 0
    else
      Blocks.writeBlock ind (setWord a j addr)
      pure addr
  else pure (word a j)

theorem bmap_indirect (hd : ¬fbn < NDIRECT) (hj : fbn - NDIRECT < NINDIRECT) {ind : BitVec 32} {din' : Dinode}
    (hind : Blocks.addrAt inum din NDIRECT Blocks.balloc (view s inum din) = .ok (ind, view s' inum din')) (hne : ind ≠ 0) :
    Blocks.bmap inum fbn Blocks.balloc (view s inum din) = mapEntry ind (fbn - NDIRECT) (view s' inum din') := by
  rw [Blocks.bmap, bind_ok (inode_run s inum din), if_neg hd, if_pos hj, bind_ok hind, if_neg hne]
  rfl

/-- What `entryFor` does, as `Mapped` says of `blockFor`. -/
structure MappedEntry (inum : Nat) (din : Dinode) (j : Nat) (s : Mk) (x : Nat) (s' : Mk) : Prop where
  good : Good s'
  run : mapEntry (din.addrs NDIRECT) j (view s inum din) = .ok (BitVec.ofNat 32 x, view s' inum din)
  lo : nmeta ≤ x
  hi : x < s'.freeblock
  sect : ∀ b < nmeta, s'.sect b = s.sect b
  freeinode : s'.freeinode = s.freeinode
  taken : s'.freeblock ≤ s.freeblock + 1

theorem wp_entryFor (h : Good s) (hown : Own (some inum) (view s inum din)) (ht : din.type ≠ 0) {j : Nat}
    (hj : j < NINDIRECT) (hne : din.addrs NDIRECT ≠ 0) :
    WP (entryFor din j) (fun _ => False) (fun x s' => MappedEntry inum din j s x s' ∨
      FSSIZE ≤ x ∧ s'.len = FSSIZE ∧ FSSIZE < s.freeblock + 1) s := by
  have hind : addrOf (view s inum din) (.indirect inum) = (din.addrs NDIRECT).toNat :=
    Blocks.addrOf_addrSlot (inode_view s inum din) ht (Nat.le_refl NDIRECT)
  obtain ⟨hlo, hlt⟩ := Own.block_lt hown hind (Blocks.toNat_ne_zero hne)
  have hlen : (din.addrs NDIRECT).toNat < s.len := by
    have := h.hi
    have := h.len
    omega
  have hword : word ((view s inum din).data (din.addrs NDIRECT).toNat) j =
      readLe (s.sect (din.addrs NDIRECT).toNat) (4 * j) 4 := by
    rw [data_view _ _ _ hlo, word_blockOf _ hj]
  have haddr : addrOf (view s inum din) (.entry inum j) =
      (word ((view s inum din).data (din.addrs NDIRECT).toNat) j).toNat :=
    Blocks.addrOf_entry (inode_view s inum din) ht hne _
  have hget : (get : Blocks.M Fs) (view s inum din) = .ok (view s inum din, view s inum din) := rfl
  unfold entryFor
  refine .bind (wp_rsect (fun _ => .ite (fun h0 => ?_) fun h0 => ?_) fun hc => absurd hlen hc)
  · refine .bind (wp_takeBlock (.bind (wp_wsect hlen (.pure ?_))))
    by_cases hroom : s.freeblock < FSSIZE
    · refine .inl ⟨(h.take hroom).put (Nat.lt_succ_of_lt hlt) _, ?_, h.lo, Nat.lt_succ_self _, fun b hb => ?_, rfl,
        Nat.le_refl _⟩
      · have hset : (view s.take inum din).setData (din.addrs NDIRECT).toNat
            (setWord ((view s inum din).data (din.addrs NDIRECT).toNat) j (BitVec.ofNat 32 s.freeblock)) = _ :=
          setData_view s.take inum din hlo (writeLe (s.sect (din.addrs NDIRECT).toNat) (4 * j) 4
            (BitVec.ofNat 32 s.freeblock)) (by rw [data_view _ _ _ hlo, blockOf_writeLe]) fun i hi => iblock_lt hi
        rw [mapEntry, bind_ok hget, if_pos (hword.trans h0), bind_ok (balloc_run h hroom),
          if_neg (block_ne_zero h.lo hroom)]
        show Except.ok (BitVec.ofNat 32 s.freeblock, (view s.take inum din).setData _ _) = _
        rw [hset]
      · exact update_of_ne (by omega) ..
    · exact .inr ⟨Nat.not_lt.1 hroom, h.len, by omega⟩
  · refine .pure (.inl ?_)
    rw [hword] at haddr
    have hx := Blocks.toNat_ne_zero h0
    obtain ⟨hlo', hlt'⟩ := Own.block_lt hown haddr hx
    refine ⟨h, ?_, hlo', hlt', fun _ _ => rfl, rfl, Nat.le_succ _⟩
    rw [mapEntry, bind_ok hget, if_neg (by rw [hword]; exact h0), BitVec.ofNat_toNat, BitVec.setWidth_eq, ← hword]
    rfl

theorem wp_blockFor (h : Good s) (hown : Own (some inum) (view s inum din)) (ht : din.type ≠ 0) (hf : fbn < MAXFILE) :
    WP (blockFor din fbn) (fun e => e = .die ∧ FSSIZE < s.freeblock + 2)
      (fun r s' => Mapped inum din fbn s r s' ∨ Over s r s') s := by
  by_cases hd : fbn < NDIRECT
  · exact (wp_blockFor_direct h hown ht hd).weaken fun _ hc => hc.elim
  have hj : fbn - NDIRECT < NINDIRECT := by
    unfold MAXFILE at hf
    omega
  unfold blockFor indirectFor
  rw [if_neg hd]
  refine .bind (.ite (fun h0 => .bind (wp_takeBlock (.pure (.bind ?_)))) fun h0 => .pure (.bind ?_))
  · by_cases hroom : s.freeblock < FSSIZE
    · -- the indirect block is taken, and is empty
      have hrun := addrAt_run_new inum h hroom h0
      have hm := (Blocks.wp_addrAt (E := fun _ => True) hown (inode_view s inum din) ht (Nat.le_refl NDIRECT)).ok hrun
      have hne : (din.setAddr NDIRECT (BitVec.ofNat 32 s.freeblock)).addrs NDIRECT ≠ 0 := by
        rw [Blocks.Dinode.setAddr_addrs, update_self]
        exact block_ne_zero h.lo hroom
      have hself : (din.setAddr NDIRECT (BitVec.ofNat 32 s.freeblock)).addrs NDIRECT = BitVec.ofNat 32 s.freeblock := by
        rw [Blocks.Dinode.setAddr_addrs, update_self]
      refine ((wp_entryFor (h.take hroom) hm.own ht hj hne).weaken fun _ hc => hc.elim).mono fun x s' hx => .pure ?_
      obtain hx | ⟨hx, hlen, hfull⟩ := hx
      · obtain ⟨addrs, he, ha⟩ := addrs_setAddr din (Nat.le_refl NDIRECT) (BitVec.ofNat 32 s.freeblock)
        refine .inl ⟨hx.good, ?_, hx.lo, hx.hi, hx.sect, hx.freeinode, ?_, addrs, he, ha⟩
        · rw [bmap_indirect hd hj hrun (block_ne_zero h.lo hroom), ← hself]
          exact hx.run
        · have := hx.taken
          simp only [Mk.take] at this
          omega
      · exact .inr ⟨hx, hlen, hfull⟩
    · -- there is no sector to read the indirect block from
      unfold entryFor
      refine .bind (wp_rsect (fun hlt => ?_) fun _ => ⟨rfl, by omega⟩)
      have hF : FSSIZE = 2000 := rfl
      have hhi := h.hi
      have hlen : s.take.len = FSSIZE := h.len
      rw [Blocks.Dinode.setAddr_addrs, update_self, BitVec.toNat_ofNat, Nat.mod_eq_of_lt (by omega), hlen] at hlt
      exact absurd hlt hroom
  · have hrun := addrAt_run_old s inum h0
    refine ((wp_entryFor h hown ht hj h0).weaken fun _ hc => hc.elim).mono fun x s' hx => .pure ?_
    obtain hx | ⟨hx, hlen, hfull⟩ := hx
    · refine .inl ⟨hx.good, ?_, hx.lo, hx.hi, hx.sect, hx.freeinode, Nat.le_succ_of_le hx.taken, din.addrs, rfl,
        fun _ _ => rfl⟩
      rw [bmap_indirect hd hj hrun h0]
      exact hx.run
    · exact .inr ⟨hx, hlen, Nat.lt_succ_of_lt hfull⟩

/-! ## The loop -/

/-- The inode has no block that starts at `off` or later, and no byte other than 0 from there on. -/
structure Ends (fs : Fs) (inum off : Nat) : Prop where
  tight : ∀ bn, off ≤ bn * BSIZE → addrOf fs (slotAt inum bn) = 0
  tail : ∀ k, off ≤ k → addrOf fs (slotAt inum (k / BSIZE)) ≠ 0 → byteAt fs inum k = 0

section Round

variable {p : List (BitVec 8)} {off tot m : Nat} {r : Dinode × Nat} {s₁ : Mk}
  (hown : Own (some inum) (view s inum din)) (ht : din.type ≠ 0)
  (hm : Mapped inum din (off / BSIZE) s r s₁)
include hown ht hm

theorem Mapped.maps : Blocks.Maps inum (Blocks.slotsOf inum (off / BSIZE)) (slotAt inum (off / BSIZE))
    (view s inum din) (BitVec.ofNat 32 r.2) (view s₁ inum r.1) :=
  (Blocks.wp_bmap_maps hown (inode_view s inum din) ht _).ok hm.run

theorem Mapped.addr : addrOf (view s₁ inum r.1) (slotAt inum (off / BSIZE)) = (BitVec.ofNat 32 r.2).toNat :=
  (hm.maps hown ht).addr (block_ne_zero hm.lo (Nat.lt_of_lt_of_le hm.hi hm.good.hi))

omit hown ht in
/-- The sector that a round writes is the block that the kernel's round writes. -/
theorem Mapped.setData (ho : off % BSIZE + m ≤ BSIZE) (hp : tot + m ≤ p.length) :
    view (s₁.put r.2 (bcopy (s₁.sect r.2) (off % BSIZE) ((p.drop tot).take m))) inum r.1 =
      (view s₁ inum r.1).setData (BitVec.ofNat 32 r.2).toNat
        ((Src.kernel p).copyin ((view s₁ inum r.1).data (BitVec.ofNat 32 r.2).toNat) (off % BSIZE) tot m) := by
  have hx := toNat_block (Nat.lt_of_lt_of_le hm.hi hm.good.hi)
  rw [hx, data_view _ _ _ hm.lo, ← blockOf_bcopy _ _ ho hp]
  exact (setData_view s₁ inum r.1 hm.lo _ rfl fun i hi => iblock_lt hi).symm

omit hown ht in
/-- A round of the loop of `writei`. -/
theorem Mapped.round (hp : tot + m ≤ p.length) (hlt : tot < p.length)
    (hmin : m = min (p.length - tot) (BSIZE - off % BSIZE)) (fuel : Nat) :
    Blocks.writeLoop inum (Src.kernel p) p.length (fuel + 1) off tot (view s inum din) =
      Blocks.writeLoop inum (Src.kernel p) p.length fuel (off + m) (tot + m)
        (view (s₁.put r.2 (bcopy (s₁.sect r.2) (off % BSIZE) ((p.drop tot).take m))) inum r.1) := by
  have hmod : off % BSIZE < BSIZE := Nat.mod_lt _ (by decide)
  have hget : (get : Blocks.M Fs) (view s₁ inum r.1) = .ok (view s₁ inum r.1, view s₁ inum r.1) := rfl
  rw [hm.setData (by omega) hp, Blocks.writeLoop, if_pos hlt, bind_ok hm.run,
    if_neg (block_ne_zero hm.lo (Nat.lt_of_lt_of_le hm.hi hm.good.hi)), bind_ok hget, ← hmin]
  refine (bind_ok (show _ = Except.ok (PUnit.unit, (view s₁ inum r.1).setData _ _) from rfl)).trans ?_
  exact congrFun (if_pos hp) _

theorem Mapped.own_round (buf : Sector) : Own (some inum) (view (s₁.put r.2 buf) inum r.1) ∧
    addrOf (view (s₁.put r.2 buf) inum r.1) = addrOf (view s₁ inum r.1) := by
  have hx := toNat_block (Nat.lt_of_lt_of_le hm.hi hm.good.hi)
  have hset := setData_view s₁ inum r.1 (b := (BitVec.ofNat 32 r.2).toNat) (by rw [hx]; exact hm.lo) buf rfl
    fun i hi => iblock_lt hi
  obtain ⟨h₁, -, h₂⟩ := Blocks.own_setData (hm.maps hown ht).own
    (block_ne_zero hm.lo (Nat.lt_of_lt_of_le hm.hi hm.good.hi)) (hm.addr hown ht) (blockOf buf)
  rw [hset, hx] at h₁ h₂
  exact ⟨h₁, h₂⟩

theorem Mapped.ends (hend : Ends (view s inum din) inum off) (ho : off % BSIZE + m ≤ BSIZE) (hpos : 0 < m)
    (hp : tot + m ≤ p.length) :
    Ends (view (s₁.put r.2 (bcopy (s₁.sect r.2) (off % BSIZE) ((p.drop tot).take m))) inum r.1) inum (off + m) := by
  have hB : BSIZE = 1024 := rfl
  obtain ⟨F, hF, hA⟩ := (hm.maps hown ht).allocs
  obtain ⟨-, haddr⟩ := hm.own_round hown ht (bcopy (s₁.sect r.2) (off % BSIZE) ((p.drop tot).take m))
  have hx := toNat_block (Nat.lt_of_lt_of_le hm.hi hm.good.hi)
  have hself := hm.addr hown ht
  rw [hx] at hself
  have hlater : ∀ bn, off / BSIZE < bn → addrOf (view s₁ inum r.1) (slotAt inum bn) = 0 := by
    intro bn hbn
    rw [hA.old _ fun hmem => Blocks.slotAt_notMem_slotsOf (by omega) (hF hmem)]
    exact hend.tight bn (by rw [hB] at hbn ⊢; omega)
  refine ⟨fun bn hbn => ?_, fun k hk hne => ?_⟩
  · rw [haddr]
    exact hlater bn (by rw [hB] at hbn ⊢; omega)
  rw [haddr] at hne
  -- the byte is in the block that was written, after what was written
  have hq : k / BSIZE = off / BSIZE := by
    by_contra hne'
    have hle : off / BSIZE ≤ k / BSIZE := Nat.div_le_div_right (by omega)
    exact hne (hlater _ (by omega))
  have hmod : k % BSIZE < BSIZE := Nat.mod_lt _ (by decide)
  have hbyte : ∀ buf, byteAt (view (s₁.put r.2 buf) inum r.1) inum k = buf (k % BSIZE) := by
    intro buf
    obtain ⟨-, ha⟩ := hm.own_round hown ht buf
    rw [byteAt, ha, hq, hself, data_view _ _ _ hm.lo, byte_blockOf _ hmod, Mk.put]
    simp only [update_self]
  have hold : byteAt (view s₁ inum r.1) inum k = s₁.sect r.2 (k % BSIZE) := by
    rw [byteAt, hq, hself, data_view _ _ _ hm.lo, byte_blockOf _ hmod]
  have hlen : ((p.drop tot).take m).length = m := by
    rw [length_take, length_drop]
    omega
  rw [hbyte, bcopy, hlen, if_neg (by rw [hB] at hq ho ⊢; omega)]
  rw [← hold, ((hm.maps hown ht).wrote hown off fun _ => 0).outside k hne (by omega), Blocks.storedAt]
  split
  · rfl
  · rename_i hz
    exact hend.tail k (by omega) hz

end Round

/-- The number of blocks that bytes `[off, e)` are in. -/
def blocksIn (off e : Nat) : Nat := if off < e then (e - 1) / BSIZE - off / BSIZE + 1 else 0

/-- What the loop of `iappend` does: `r` is the inode and the offset at its end. -/
structure Appended (inum : Nat) (din : Dinode) (off e : Nat) (s : Mk) (r : Dinode × Nat) (s' : Mk) : Prop where
  good : Good s'
  last : r.2 = e
  own : Own (some inum) (view s' inum r.1)
  ends : Ends (view s' inum r.1) inum e
  max : e ≤ MAXFILE * BSIZE
  sect : ∀ b < nmeta, s'.sect b = s.sect b
  freeinode : s'.freeinode = s.freeinode
  taken : s'.freeblock ≤ s.freeblock + 2 * blocksIn off e
  inode : ∃ addrs, r.1 = { din with addrs := addrs } ∧ ∀ k, NDIRECT < k → addrs k = din.addrs k

/-- There is nothing left to write. -/
theorem appended_all (p : List (BitVec 8)) {base : Nat} (fuel : Nat) (h : Good s)
    (hown : Own (some inum) (view s inum din)) (hmax : base + p.length ≤ MAXFILE * BSIZE)
    (hend : Ends (view s inum din) inum (base + p.length)) :
    Appended inum din (base + p.length) (base + p.length) s (din, base + p.length) s ∧
      Blocks.writeLoop inum (Src.kernel p) p.length fuel (base + p.length) p.length (view s inum din) =
        .ok ((base + p.length, p.length), view s inum din) := by
  refine ⟨⟨h, rfl, hown, hend, hmax, fun _ _ => rfl, rfl, Nat.le_add_right .., din.addrs, rfl, fun _ _ => rfl⟩, ?_⟩
  cases fuel with
  | zero => rfl
  | succ fuel =>
    rw [Blocks.writeLoop, if_neg (Nat.lt_irrefl _)]
    rfl

theorem wp_appendLoop (p : List (BitVec 8)) {base : Nat} (fuel tot : Nat) (h : Good s)
    (hown : Own (some inum) (view s inum din)) (ht : din.type ≠ 0) (hfuel : p.length ≤ tot + fuel)
    (htot : tot ≤ p.length) (hmax : base + tot ≤ MAXFILE * BSIZE) (hend : Ends (view s inum din) inum (base + tot)) :
    WP (appendLoop fuel (p.drop tot) din (base + tot)) (fun e => e = .assert ∧ MAXFILE * BSIZE < base + p.length ∨
        e = .die ∧ FSSIZE < s.freeblock + 2 * blocksIn (base + tot) (base + p.length))
      (fun r s' => Appended inum din (base + tot) (base + p.length) s r s' ∧
        Blocks.writeLoop inum (Src.kernel p) p.length fuel (base + tot) tot (view s inum din) =
          .ok ((r.2, p.length), view s' inum r.1)) s := by
  induction fuel generalizing tot s din with
  | zero =>
    obtain rfl : tot = p.length := by omega
    exact .pure (appended_all p 0 h hown hmax hend)
  | succ fuel ih =>
    unfold appendLoop
    rw [length_drop]
    refine .ite (fun hlt => .ite (fun hf => ?_) fun hf => .throw (.inl ⟨rfl, ?_⟩)) fun hge => ?_
    · have hB : BSIZE = 1024 := rfl
      obtain ⟨m, hmin⟩ : ∃ m, m = min (p.length - tot) (BSIZE - (base + tot) % BSIZE) := ⟨_, rfl⟩
      have hn1 : min (p.length - tot) (((base + tot) / BSIZE + 1) * BSIZE - (base + tot)) = m := by
        rw [hmin, hB]
        omega
      have ho : base + tot - (base + tot) / BSIZE * BSIZE = (base + tot) % BSIZE := by
        rw [hB]
        omega
      have hblocks : blocksIn (base + tot) (base + p.length) = blocksIn (base + (tot + m)) (base + p.length) + 1 := by
        unfold blocksIn
        rw [hB] at hmin ⊢
        split <;> split <;> omega
      rw [hn1, ho]
      refine .bind (((wp_blockFor h hown ht hf).weaken fun e he => .inr ⟨he.1, by omega⟩).mono fun r s₁ hr => ?_)
      obtain hm | hover := hr
      · have hlen : r.2 < s₁.len := by
          rw [hm.good.len]
          exact Nat.lt_of_lt_of_le hm.hi hm.good.hi
        have hmod : (base + tot) % BSIZE < BSIZE := Nat.mod_lt _ (by decide)
        refine .bind (wp_rsect (fun _ => .bind (wp_wsect hlen ?_)) fun hc => absurd hlen hc)
        obtain ⟨hown₂, -⟩ := hm.own_round hown ht
          (bcopy (s₁.sect r.2) ((base + tot) % BSIZE) ((p.drop tot).take m))
        obtain ⟨addrs, he, ha⟩ := hm.inode
        have ht₁ : r.1.type ≠ 0 := by
          rw [he]
          exact ht
        have hend₂ := hm.ends hown ht hend (by omega) (by omega) (show tot + m ≤ p.length by omega)
        have hmax₂ : base + (tot + m) ≤ MAXFILE * BSIZE := by
          rw [hB] at hf hmin ⊢
          omega
        have htaken := hm.taken
        rw [drop_drop, Nat.add_assoc]
        refine ((ih (tot + m) (hm.good.put hm.hi _) hown₂ ht₁ (by omega) (by omega) hmax₂
          (by rw [← Nat.add_assoc]; exact hend₂)).weaken fun e he => ?_).mono fun r' s' ⟨happ, hrun⟩ => ?_
        · refine he.imp_right fun he => ⟨he.1, ?_⟩
          have := he.2
          simp only [Mk.put] at this
          omega
        · obtain ⟨addrs', he', ha'⟩ := happ.inode
          refine ⟨⟨happ.good, happ.last, happ.own, happ.ends, happ.max, fun b hb => ?_,
            happ.freeinode.trans hm.freeinode, ?_, addrs', by rw [he', he], fun k hk => ?_⟩, ?_⟩
          · rw [happ.sect b hb, ← hm.sect b hb]
            exact update_of_ne (by have := hm.lo; omega) ..
          · have := happ.taken
            simp only [Mk.put] at this
            omega
          · rw [ha' k hk, he]
            exact ha k hk
          · rw [hm.round (by omega) (by omega) hmin fuel, Nat.add_assoc]
            exact hrun
      · refine .bind (wp_rsect (fun hlt => ?_) fun _ => .inr ⟨rfl, ?_⟩)
        · have := hover.block
          rw [hover.len] at hlt
          exact absurd hlt (Nat.not_lt.2 this)
        · have := hover.full
          omega
    · rw [Nat.not_lt, Nat.le_div_iff_mul_le (by decide)] at hf
      omega
    · obtain rfl : tot = p.length := by omega
      exact .pure (appended_all p (fuel + 1) h hown hmax hend)

end Xv6.Mkfs
