import Mathlib.Data.Nat.Cast.Basic

/-!
# Overlapping moves

The `memmove` of the kernel (`string.c`) and that of the user library (`ulib.c`) copy byte by byte, up or
down, and choose the direction by different tests. Addresses are 64 bits and wrap. A loop upwards is exact
unless the destination starts inside the source (`copyUp_eq`), and a loop downwards unless the source
starts inside the destination (`copyDown_eq`); for ranges that do not wrap, both tests choose a loop that
is exact (`memmove_exact`).
-/

namespace Xv6.Lib

open Function

variable {α : Type}

abbrev Addr := BitVec 64

/-- Of bytes, or of characters. -/
abbrev Mem (α : Type) := Addr → α

/-- `while(n-- > 0) *d++ = *s++;` -/
def copyUp : Nat → Mem α → Addr → Addr → Mem α
  | 0, mem, _, _ => mem
  | n + 1, mem, d, s => copyUp n (update mem d (mem s)) (d + 1) (s + 1)

/-- `while(n-- > 0) *--d = *--s;` -/
def copyDown : Nat → Mem α → Addr → Addr → Mem α
  | 0, mem, _, _ => mem
  | n + 1, mem, d, s => copyDown n (update mem (d - 1) (mem (s - 1))) (d - 1) (s - 1)

namespace Kernel

/-- The length is unsigned. -/
def memmove (mem : Mem α) (dst src : Addr) (n : BitVec 32) : Addr × Mem α :=
  if n = 0 then (dst, mem)
  else if src < dst ∧ src + n.setWidth 64 > dst then
    (dst, copyDown n.toNat mem (dst + n.setWidth 64) (src + n.setWidth 64))
  else (dst, copyUp n.toNat mem dst src)

end Kernel

namespace User

/-- The length is signed, and nothing is copied when it is negative. -/
def memmove (mem : Mem α) (vdst vsrc : Addr) (n : BitVec 32) : Addr × Mem α :=
  if vsrc > vdst then (vdst, copyUp n.toInt.toNat mem vdst vsrc)
  else (vdst, copyDown n.toInt.toNat mem (vdst + n.signExtend 64) (vsrc + n.signExtend 64))

end User

variable {mem : Mem α} {d s a : Addr} {n : Nat}

/-- The memory after `n` bytes at `s` are moved to `d`. -/
def moved (mem : Mem α) (d s : Addr) (n : Nat) : Mem α := fun a => if (a - d).toNat < n then mem (s + (a - d)) else mem a

theorem copyUp_eq (hn : n ≤ 2 ^ 64) (h : (d - s).toNat < n → d = s) : copyUp n mem d s = moved mem d s n := by
  induction n generalizing mem d s with
  | zero => rfl
  | succ n ih =>
    have hshift : (d + 1) - (s + 1) = d - s := by bv_omega
    rw [copyUp, ih (by omega) (by rw [hshift]; intro hlt; rw [h (by omega)])]
    funext a
    simp only [moved]
    have hnext : s + 1 + (a - (d + 1)) = s + (a - d) := by bv_omega
    by_cases ha : a = d
    · -- the byte that is copied first is in no later step's range
      have hlast : ¬ (d - (d + 1)).toNat < n := by bv_omega
      rw [ha, if_neg hlast, update_self, if_pos (by simp), BitVec.sub_self, BitVec.add_zero]
    · have hlt : (a - (d + 1)).toNat < n ↔ (a - d).toNat < n + 1 := by bv_omega
      rw [hnext, update_of_ne ha]
      by_cases hin : (a - d).toNat < n + 1
      · have hne : s + (a - d) ≠ d := by bv_omega
        rw [if_pos (hlt.2 hin), if_pos hin, update_of_ne hne]
      · rw [if_neg (mt hlt.1 hin), if_neg hin]

theorem copyDown_eq (hn : n ≤ 2 ^ 64) (h : (s - d).toNat < n → s = d) :
    copyDown n mem (d + BitVec.ofNat 64 n) (s + BitVec.ofNat 64 n) = moved mem d s n := by
  induction n generalizing mem with
  | zero => rfl
  | succ n ih =>
    have hback (b : Addr) : b + BitVec.ofNat 64 (n + 1) - 1 = b + BitVec.ofNat 64 n := by bv_omega
    rw [copyDown, hback, hback, ih (by omega) fun hlt => h (by omega)]
    funext a
    simp only [moved]
    by_cases hin : (a - d).toNat < n
    · have hne : s + (a - d) ≠ d + BitVec.ofNat 64 n := by bv_omega
      rw [if_pos hin, if_pos (by omega), update_of_ne hne]
    · rw [if_neg hin]
      by_cases ha : a = d + BitVec.ofNat 64 n
      · have hoff : a - d = BitVec.ofNat 64 n := by bv_omega
        have hlast : (a - d).toNat < n + 1 := by bv_omega
        rw [if_pos hlast, hoff, ha, update_self]
      · have hout : ¬ (a - d).toNat < n + 1 := by bv_omega
        rw [if_neg hout, update_of_ne ha]

/-- `mem'` has at `d` the `n` bytes that `mem` has at `s`, and is `mem` elsewhere. -/
structure Moved (mem mem' : Mem α) (d s : Addr) (n : Nat) : Prop where
  copied : ∀ i < n, mem' (d + BitVec.ofNat 64 i) = mem (s + BitVec.ofNat 64 i)
  kept : ∀ a, (∀ i < n, a ≠ d + BitVec.ofNat 64 i) → mem' a = mem a

theorem moved_moved (hn : n ≤ 2 ^ 64) : Moved mem (moved mem d s n) d s n where
  copied i hi := by
    have hoff : d + BitVec.ofNat 64 i - d = BitVec.ofNat 64 i := by bv_omega
    have hlt : (BitVec.ofNat 64 i).toNat < n := by bv_omega
    rw [moved, hoff, if_pos hlt]
  kept a ha := by
    refine if_neg fun hlt => ha _ hlt ?_
    bv_omega

/-- The range does not wrap. -/
def NoWrap (a : Addr) (n : Nat) : Prop := a.toNat + n ≤ 2 ^ 64

theorem kernel_memmove (n : BitVec 32) (hd : NoWrap d n.toNat) (hs : NoWrap s n.toNat) :
    Kernel.memmove mem d s n = (d, moved mem d s n.toNat) := by
  unfold NoWrap at hd hs
  have hn : n.setWidth 64 = BitVec.ofNat 64 n.toNat := (BitVec.ofNat_toNat 64 n).symm
  rw [Kernel.memmove]
  split_ifs with h0 hdown
  · rw [h0]
    rfl
  · rw [hn, copyDown_eq (by omega) (by bv_omega)]
  · rw [copyUp_eq (by omega) (by bv_omega)]

theorem user_memmove (n : BitVec 32) (hd : NoWrap d n.toInt.toNat) (hs : NoWrap s n.toInt.toNat) :
    User.memmove mem d s n = (d, moved mem d s n.toInt.toNat) := by
  unfold NoWrap at hd hs
  rw [User.memmove]
  split_ifs with hup
  · rw [copyUp_eq (by omega) (by bv_omega)]
  · by_cases hneg : n.toInt < 0
    · rw [Int.toNat_of_nonpos (Int.le_of_lt hneg)]
      rfl
    · have hn : n.signExtend 64 = BitVec.ofNat 64 n.toInt.toNat := by
        have hmsb : n.msb = false := by rwa [BitVec.msb_eq_toInt, decide_eq_false_iff_not]
        rw [BitVec.signExtend_eq_setWidth_of_msb_false hmsb, BitVec.toInt_eq_toNat_of_msb hmsb, Int.toNat_natCast,
          BitVec.ofNat_toNat]
      rw [hn, copyDown_eq (by omega) (by bv_omega)]

/-- Both leave the destination as the source was, and the rest of the memory as it was. -/
theorem memmove_exact (mem : Mem α) (dst src : Addr) (n : BitVec 32) :
    (NoWrap dst n.toNat → NoWrap src n.toNat → Moved mem (Kernel.memmove mem dst src n).2 dst src n.toNat) ∧
    (NoWrap dst n.toInt.toNat → NoWrap src n.toInt.toNat →
      Moved mem (User.memmove mem dst src n).2 dst src n.toInt.toNat) := by
  refine ⟨fun hd hs => ?_, fun hd hs => ?_⟩
  · rw [kernel_memmove n hd hs]
    exact moved_moved (Nat.le_of_add_left_le hd)
  · rw [user_memmove n hd hs]
    exact moved_moved (Nat.le_of_add_left_le hd)

/-- Three bytes move up by one, and down by one. -/
theorem memmove_exact_by_one : Moved (fun a => a.setWidth 8) (Kernel.memmove (fun a => a.setWidth 8) 1 0 3).2 1 0 3 ∧
    Moved (fun a => a.setWidth 8) (User.memmove (fun a => a.setWidth 8) 0 1 3).2 0 1 3 ∧
    (Kernel.memmove (fun a => a.setWidth 8) 1 0 3).2 2 = 1 ∧ (User.memmove (fun a => a.setWidth 8) 0 1 3).2 2 = 3 := by
  refine ⟨(memmove_exact _ 1 0 3).1 ?_ ?_, (memmove_exact _ 0 1 3).2 ?_ ?_, by decide, by decide⟩ <;> simp [NoWrap]

end Xv6.Lib
