import Xv6.Mkfs.Files
import Xv6.Blocks.Reads

/-!
# The kernel reads what `mkfs` has appended

Inodes are allocated and bytes are appended to them in any order (`build`). The kernel's `readi`
returns for each inode the bytes that were appended to it, and no two inodes share a block, if and only
if all inodes are in the inode blocks (`appended_is_read`). The inode of number 208 would be where the
bitmap is (`inode_over_bitmap`).
-/

namespace Xv6.Mkfs

open Function
open Blocks

/-- A call of `mkfs` on a file. -/
inductive Step where
  /-- `ialloc(T_FILE)` -/
  | ialloc
  | iappend (inum : Nat) (p : List (BitVec 8))

def runStep : Step → M Unit
  | .ialloc => do
    let _ ← ialloc T_FILE
    pure ()
  | .iappend inum p => iappend inum p

/-- `main`, with any calls between the allocation of the root directory and `balloc`. -/
def build (steps : List Step) : M Unit := do
  wsect 1 sbSector
  let _ ← ialloc T_DIR
  forM steps runStep
  let s ← get
  balloc s.freeblock

/-- The bytes appended to an inode, in order. -/
def appended (steps : List Step) (inum : Nat) : List (BitVec 8) :=
  steps.flatMap fun
    | .ialloc => []
    | .iappend i p => if i = inum then p else []

/-- The number of inodes allocated, with the root directory. -/
def allocated (steps : List Step) : Nat := steps.countP (fun | .ialloc => true | _ => false) + 1

/-- Bytes are appended to inodes that are there, the next being `free`. -/
def Targets : Nat → List Step → Prop
  | _, [] => True
  | free, .ialloc :: steps => Targets (free + 1) steps
  | free, .iappend inum _ :: steps => 0 < inum ∧ inum < free ∧ Targets free steps

variable {c : Nat → List (BitVec 8)} {s : Mk}

/-- The contents after the calls. -/
def after (c : Nat → List (BitVec 8)) (free : Nat) : List Step → Nat → List (BitVec 8)
  | [] => c
  | .ialloc :: steps => after (update c free []) (free + 1) steps
  | .iappend inum p :: steps => after (update c inum (c inum ++ p)) free steps

theorem allocated_ialloc (steps : List Step) : allocated (.ialloc :: steps) = allocated steps + 1 := by
  simp [allocated]

theorem allocated_iappend (inum : Nat) (p : List (BitVec 8)) (steps : List Step) :
    allocated (.iappend inum p :: steps) = allocated steps := by
  simp [allocated]

variable {steps : List Step}

theorem Built.runSteps (h : Built c s) (h1 : 1 < s.freeinode) (ht : Targets s.freeinode steps)
    (hroom : s.freeinode + allocated steps ≤ INODES + 1) :
    WP (forM steps runStep) (fun _ => True) (fun _ s' => Built (after c s.freeinode steps) s' ∧
      s'.freeinode + 1 = s.freeinode + allocated steps) s := by
  induction steps generalizing c s with
  | nil => exact .pure ⟨h, rfl⟩
  | cons x steps ih =>
    rw [List.forM_cons]
    cases x with
    | ialloc =>
      rw [allocated_ialloc] at hroom ⊢
      have htype : T_FILE = if s.freeinode = ROOTINO then T_DIR else T_FILE := by
        rw [if_neg (by simp only [ROOTINO]; omega)]
      have hpos : 0 < allocated steps := Nat.succ_pos _
      refine .bind (.bind ((h.ialloc (by omega) (by omega) htype).mono ?_))
      rintro i s₁ ⟨-, hi, -, h₁⟩
      have hrun := ih h₁ (by omega) (by rw [hi]; exact ht) (by omega)
      rw [hi] at hrun
      refine .pure (hrun.mono ?_)
      rintro _ s' ⟨h', hfree⟩
      exact ⟨h', by omega⟩
    | iappend inum p =>
      rw [allocated_iappend] at hroom ⊢
      obtain ⟨h0, hlt, ht⟩ := ht
      refine .bind (((h.iappend h0 hlt p).weaken fun _ _ => trivial).mono ?_)
      rintro _ s₁ ⟨h₁, hi, -⟩
      have hrun := ih h₁ (by omega) (by rw [hi]; exact ht) (by omega)
      rw [hi] at hrun
      exact hrun

/-- Each inode has what was appended to it, after what it had if it was there. -/
theorem after_eq {free i : Nat} (ht : Targets free steps) (hi : i + 1 < free + allocated steps) :
    after c free steps i = (if i < free then c i else []) ++ appended steps i := by
  induction steps generalizing c free with
  | nil => simp [after, appended, allocated] at hi ⊢; omega
  | cons x steps ih =>
    cases x with
    | ialloc =>
      rw [allocated_ialloc] at hi
      have hcons : appended (.ialloc :: steps) i = appended steps i := rfl
      rw [after, ih ht (by omega), hcons]
      rcases Nat.lt_trichotomy i free with hlt | rfl | hgt
      · rw [if_pos (by omega), if_pos hlt, update_of_ne (by omega)]
      · simp
      · rw [if_neg (by omega), if_neg (by omega)]
    | iappend inum p =>
      rw [allocated_iappend] at hi
      obtain ⟨h0, hlt, ht⟩ := ht
      have hcons : appended (.iappend inum p :: steps) i = (if inum = i then p else []) ++ appended steps i := rfl
      rw [after, ih ht (by omega), hcons]
      by_cases e : inum = i
      · subst e
        simp [hlt]
      · simp [e, update_of_ne (Ne.symm e)]

theorem wp_build (ht : Targets 2 steps) (hroom : allocated steps < INODES) :
    WP (build steps) (fun _ => True) (fun _ s' => ∃ s, Built (after (fun _ => []) 2 steps) s ∧
      s.freeinode = allocated steps + 1 ∧ s' = s.final) blank := by
  unfold build
  refine .bind (wp_wsect (by decide) (.bind (((built_start (c := fun _ => [])).ialloc (by decide) (by decide) rfl).mono ?_)))
  rintro i s₁ ⟨rfl, hi, -, h₁⟩
  have hi : s₁.freeinode = 2 := hi
  have hc : update (fun _ => []) Mk.start.freeinode [] = fun _ => ([] : List (BitVec 8)) := update_eq_self ..
  rw [hc] at h₁
  have hrun := h₁.runSteps (by omega) (by rw [hi]; exact ht) (by omega)
  rw [hi] at hrun
  refine .bind (hrun.mono fun _ s₂ ⟨h₂, hfree⟩ => .bind (.get (wp_balloc h₂.good ⟨s₂, h₂, by omega, rfl⟩)))

/-! ## Reading an inode -/

/-- The kernel opens inode `inum` and reads from it. -/
def readFrom (inum : Nat) (n : BitVec 32) : Blocks.M (Option (List (BitVec 8)) × BitVec 32) := do
  iget inum
  fileread inum 0 n n.toNat

theorem Built.readFrom {i : Nat} (h : Built c s) (h0 : 0 < i) (hlt : i < s.freeinode) {n : BitVec 32}
    (hle : (c i).length ≤ n.toNat) (hn : 0 ≤ n.toInt) :
    ∃ off fs', readFrom i n (mount s.final) = .ok ((some (c i), off), fs') := by
  have hI : i < INODES := Nat.lt_of_lt_of_le hlt h.inodes
  have hown := h.wellFormed.own
  obtain ⟨ip, hip⟩ : ∃ ip, (mount s.final).dinode i = ip := ⟨_, rfl⟩
  have hcur : cur (inodeArea (mount s.final)) i = ip := (if_pos hI).trans hip
  have htype : ip.type ≠ 0 := by
    rw [← hip, dinode_inodeArea h.sb hI]
    exact h.type_ne h0 hlt
  obtain ⟨hsize, hfill⟩ := hown.filled i nofun (hcur ▸ htype)
  rw [hcur] at hsize hfill
  -- with the inode locked, its blocks are those of the well-formed file system
  obtain ⟨t, ht⟩ : ∃ t : Fs, t = { mount s.final with itable := update (mount s.final).itable i ⟨1, none⟩ } := ⟨_, rfl⟩
  have hi : (t.setInode i ip).Has i ip := inode_setInode ..
  have haddr : ∀ bn, addrOf (t.setInode i ip) (slotAt i bn) = addrOf (inodeArea (mount s.final)) (slotAt i bn) := fun bn => by
    rw [addrOf, addrOf, slotAt_inum, hcur, cur_of_inode hi, ht]
    rfl
  have hclean : Clean (t.setInode i ip) i ip :=
    ⟨by simp [ref_setInode, ht], htype, hsize, fun bn hbn => by rw [haddr]; exact hfill bn hbn⟩
  have hc : content (t.setInode i ip) i = c i := by
    rw [← h.bytes i h0 hlt, ← content_mount h.sb]
    refine content_congr (by rw [hcur, cur_of_inode hi]) fun k => ?_
    rw [byteAt, byteAt, haddr, ht]
    rfl
  have hlen : (c i).length ≤ MAXFILE * BSIZE := by rwa [← hc, length_content, cur_of_inode hi]
  have hread : WP (Mkfs.readFrom i n) (fun _ => False) (fun r _ => r.1 = some (c i)) (mount s.final) := by
    unfold Mkfs.readFrom fileread ilock iunlock
    refine .bind (.modify ?_)
    rw [show ((mount s.final).itable i).get = ⟨1, none⟩ from rfl, ← ht]
    have hnone : t.itable i = ⟨1, none⟩ := by simp [ht]
    have hdin : t.dinode i = ip := by rw [ht]; exact hip
    refine .bind (.bind (.get (.ite (fun hlt => absurd hlt (by simp [hnone])) fun _ => ?_)))
    rw [hnone, hdin]
    refine .bind (wp_setInode (.ite (fun hz => absurd hz htype) fun _ => .pure (.bind ?_)))
    refine (wp_readi_content hclean hi 0 n n.toNat).mono ?_
    rintro r _ ⟨rfl, hr⟩
    rw [hc, readable_eq hlen hn, show (0 : BitVec 32).toNat = 0 from rfl, List.drop_zero, List.take_of_length_le hle,
      if_pos hle] at hr
    exact .bind (.bind (.get (.ite (fun hlt => absurd hclean.ref (by omega)) fun _ => .pure (.pure hr))))
  obtain ⟨⟨r, off⟩, fs', hrun, rfl⟩ := hread.total
  exact ⟨off, fs', hrun⟩

/-- The kernel and `mkfs` agree: the super block is there, every inode has its type and size, reading it
returns what was appended to it, and no two inodes share a block. -/
structure Agree (steps : List Step) (img : Mk) : Prop where
  sb : img.sect 1 = sbSector
  type : ∀ i, 0 < i → i ≤ allocated steps → ((mount img).dinode i).type = if i = ROOTINO then T_DIR else T_FILE
  size : ∀ i, 0 < i → i ≤ allocated steps → ((mount img).dinode i).size.toNat = (appended steps i).length
  read : ∀ i, 0 < i → i ≤ allocated steps → ∀ n : BitVec 32, (appended steps i).length ≤ n.toNat → 0 ≤ n.toInt →
    ∃ off fs', readFrom i n (mount img) = .ok ((some (appended steps i), off), fs')
  apart : ∀ x y : Blocks.Slot, x.inum ≤ allocated steps → y.inum ≤ allocated steps → diskAddr (mount img) x ≠ 0 →
    diskAddr (mount img) x = diskAddr (mount img) y → x = y

theorem Built.agree (h : Built (after (fun _ => []) 2 steps) s) (ht : Targets 2 steps)
    (hfree : s.freeinode = allocated steps + 1) : Agree steps s.final := by
  have hI := h.inodes
  have hc : ∀ i, i ≤ allocated steps → after (fun _ => []) 2 steps i = appended steps i := fun i hi => by
    rw [after_eq ht (by omega), ite_self, List.nil_append]
  have hdin : ∀ i, i ≤ allocated steps → (mount s.final).dinode i = s.dinode i := fun i hi =>
    dinode_inodeArea h.sb (by omega)
  have hslot : ∀ x : Blocks.Slot, x.inum ≤ allocated steps →
      diskAddr (mount s.final) x = diskAddr (inodeArea (mount s.final)) x := fun x hx => by
    have : (inodeArea (mount s.final)).dinode x.inum = (mount s.final).dinode x.inum := if_pos (by omega)
    rw [diskAddr, diskAddr, this]
    rfl
  refine ⟨sect_final_one h.sb, fun i h0 hi => ?_, fun i h0 hi => ?_, fun i h0 hi n hle hn => ?_, fun x y hx hy => ?_⟩
  · rw [hdin i hi, h.type i h0 (by omega)]
  · rw [hdin i hi, h.size_eq h0 (by omega), hc i hi]
  · rw [← hc i hi] at hle ⊢
    exact h.readFrom h0 (by omega) hle hn
  · rw [hslot x hx, hslot y hy]
    exact h.wellFormed.owned.inj x y

/-- `balloc` comes last. -/
theorem wp_build_bitmap : WP (build steps) (fun _ => True) (fun _ s' => ∃ used, s'.sect bmapstart = bitmap used) blank := by
  unfold build
  refine .bind ((WP.any ..).mono fun _ _ _ => .bind ((WP.any ..).mono fun _ _ _ => .bind ((WP.any ..).mono fun _ s _ => ?_)))
  exact .bind (.get (.ite (fun _ => .modify ⟨s.freeblock, by simp only [update_self]⟩) fun _ => .throw trivial))

/-- The record at the beginning of a bitmap is not that of a file, whose type has its second bit alone set. -/
theorem type_bitmap_ne (used : Nat) : (getDinode (bitmap used) 0).type ≠ T_FILE := by
  intro e
  have hbit : ∀ k < 8, (getDinode (bitmap used) 0).type.getLsbD k = decide (k < used) := fun k hk => by
    have := bitmap_bit used k
    rw [Nat.div_eq_of_lt hk, Nat.mod_eq_of_lt hk] at this
    rw [getDinode, getLsbD_readLe (by omega), Nat.div_eq_of_lt hk, Nat.mod_eq_of_lt hk, ← this]
  have h0 := hbit 0 (by decide)
  have h1 := hbit 1 (by decide)
  rw [e] at h0 h1
  have h1 : 1 < used := of_decide_eq_true h1.symm
  exact of_decide_eq_false h0.symm (by omega)

/-- The kernel and `mkfs` agree on an image if and only if all inodes are in the inode blocks. -/
theorem appended_is_read {steps : List Step} {img : Mk} (ht : Targets 2 steps)
    (hrun : build steps blank = .ok ((), img)) : Agree steps img ↔ allocated steps < INODES := by
  refine ⟨fun h => ?_, fun hroom => ?_⟩
  · by_contra hmany
    obtain ⟨used, hmap⟩ := wp_build_bitmap.ok hrun
    have hI : INODES = 208 := rfl
    -- the record of inode 208 is the bitmap
    have htype := h.type 208 (by decide) (by omega)
    have hblock : 208 / IPB + (readLe (img.sect 1) 24 4 : BitVec 32).toNat = bmapstart := by
      rw [h.sb]
      decide +kernel
    rw [show ((mount img).dinode 208).type = (getDinode (img.sect _) _).type from rfl, hblock, hmap] at htype
    exact type_bitmap_ne used htype
  · obtain ⟨s, h, hfree, rfl⟩ := (wp_build ht hroom).ok hrun
    exact h.agree ht hfree

/-- Two files, written in turns. -/
def turnsSteps : List Step := [.ialloc, .iappend 2 [1], .ialloc, .iappend 3 [2, 3], .iappend 2 [4]]

theorem appended_is_read_turns : ∃ img, build turnsSteps blank = .ok ((), img) ∧ Agree turnsSteps img ∧
    ∃ off fs', readFrom 2 9 (mount img) = .ok ((some [1, 4], off), fs') := by
  obtain ⟨_, img, hr, -⟩ : ∃ u img, build turnsSteps blank = .ok (u, img) ∧ True := exists_of_ok (by decide +kernel)
  have h := (appended_is_read (by simp [Targets, turnsSteps]) hr).2 (by decide)
  exact ⟨img, hr, h, h.read 2 (by decide) (by decide) 9 (by decide) (by decide)⟩

/-- With 207 files, the byte appended to the last of them is not in its inode. -/
theorem inode_over_bitmap : ∃ img, build (List.replicate 207 .ialloc ++ [.iappend 208 [7]]) blank = .ok ((), img) ∧
    iblock 208 = bmapstart ∧ (img.dinode 208).size ≠ 1 := by
  obtain ⟨_, img, hr, hsize⟩ : ∃ u img, build (List.replicate 207 .ialloc ++ [.iappend 208 [7]]) blank = .ok (u, img) ∧
      (img.dinode 208).size ≠ 1 := exists_of_ok (by decide +kernel)
  exact ⟨img, hr, rfl, hsize⟩

end Xv6.Mkfs
