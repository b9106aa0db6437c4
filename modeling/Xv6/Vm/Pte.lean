import Xv6.Param
import Xv6.Framework.Radix
import Xv6.Framework.Bytes
import Mathlib.Data.BitVec

/-!
# Addresses and page-table entries

The macros of `riscv.h` and `memlayout.h`. Addresses are natural numbers below
`2 ^ 64`; sums that may wrap around say so. A page-table entry is 64 bits: 10 flags
below the page number. `pte2pa_mk` and `pteFlags_mk` say that an entry made of an
address and flags gives them back.
-/

namespace Xv6.Vm

/-- Bytes per page. -/
def PGSIZE : Nat := 4096
/-- One beyond the highest possible virtual address. -/
def MAXVA : Nat := 2 ^ 38
/-- The kernel expects RAM from here … -/
def KERNBASE : Nat := 0x80000000
/-- … to here. -/
def PHYSTOP : Nat := KERNBASE + 128 * 1024 * 1024
def TRAMPOLINE : Nat := MAXVA - PGSIZE
def TRAPFRAME : Nat := TRAMPOLINE - PGSIZE
/-- Entries of a page-table page. -/
def NPTE : Nat := 512

def pgroundup (sz : Nat) : Nat := (sz + PGSIZE - 1) % 2 ^ 64 / PGSIZE * PGSIZE

abbrev Pte := BitVec 64

def PTE_V : Pte := 1#64 <<< 0
def PTE_R : Pte := 1#64 <<< 1
def PTE_W : Pte := 1#64 <<< 2
def PTE_X : Pte := 1#64 <<< 3

/-- The test `pte & flag`. -/
def Pte.has (pte flag : Pte) : Bool := pte &&& flag != 0

def pa2pte (pa : Nat) : Pte := BitVec.ofNat 64 pa >>> 12 <<< 10
def pte2pa (pte : Pte) : Nat := (pte >>> 10 <<< 12).toNat
def pteFlags (pte : Pte) : Pte := pte &&& 0x3FF

/-- The index of a virtual address in a page-table page of this level. -/
def px (level va : Nat) : Nat := va / 2 ^ (12 + 9 * level) % NPTE

/-! ## Flags -/

theorem has_shift (pte : Pte) (j : Nat) : Pte.has pte (1#64 <<< j) = pte.getLsbD j := by
  have htwo : 1#64 <<< j = BitVec.twoPow 64 j := BitVec.shiftLeft_eq_mul_twoPow .. |>.trans (BitVec.one_mul _)
  rw [Pte.has, htwo, BitVec.and_twoPow]
  cases h : pte.getLsbD j with
  | false => rfl
  | true =>
    have hj : j < 64 := BitVec.lt_of_getLsbD h
    have hne : BitVec.twoPow 64 j ≠ 0#64 := by
      intro e
      have hbit := congrArg (BitVec.getLsbD · j) e
      simp [hj] at hbit
    simpa using hne

variable {j : Nat} {f pte : Pte}

theorem getLsbD_shift (hj : j < 64) (k : Nat) : (1#64 <<< j).getLsbD k = decide (k = j) := by
  have htwo : 1#64 <<< j = BitVec.twoPow 64 j := BitVec.shiftLeft_eq_mul_twoPow .. |>.trans (BitVec.one_mul _)
  rw [htwo, BitVec.getLsbD_twoPow]
  simp [hj, eq_comm]

@[simp] theorem has_or (x y f : Pte) : Pte.has (x ||| y) f = (Pte.has x f || Pte.has y f) := by
  rw [Bool.eq_iff_iff, Bool.or_eq_true, Pte.has, Pte.has, Pte.has, BitVec.and_or_distrib_right, bne_iff_ne,
    bne_iff_ne, bne_iff_ne]
  exact (not_congr BitVec.or_eq_zero_iff).trans not_and_or

@[simp] theorem has_zero (f : Pte) : Pte.has 0 f = false := by
  rw [Pte.has, bne_eq_false_iff_eq]
  exact BitVec.zero_and

/-- An entry that is no leaf: it allows no access. -/
theorem rwx_eq_zero_iff (pte : Pte) : pte &&& (PTE_R ||| PTE_W ||| PTE_X) = 0 ↔
    Pte.has pte PTE_R = false ∧ Pte.has pte PTE_W = false ∧ Pte.has pte PTE_X = false := by
  have hzero : ∀ f, pte &&& f = 0 ↔ Pte.has pte f = false := by
    intro f
    rw [Pte.has, bne_eq_false_iff_eq]
  rw [BitVec.and_or_distrib_left, BitVec.and_or_distrib_left, ← hzero, ← hzero, ← hzero, ← and_assoc]
  exact BitVec.or_eq_zero_iff.trans (and_congr_left' BitVec.or_eq_zero_iff)

/-! ## Entries of an address and flags -/

/-- The flags fit below the page number. -/
def Flags (f : Pte) : Prop := ∀ k, 10 ≤ k → f.getLsbD k = false

theorem getLsbD_pteFlags (pte : Pte) (k : Nat) : (pteFlags pte).getLsbD k = (pte.getLsbD k && decide (k < 10)) := by
  have hmask : (0x3FF : Pte) = BitVec.setWidth 64 (BitVec.allOnes 10) := by decide
  rw [pteFlags, hmask, BitVec.getLsbD_and, BitVec.getLsbD_setWidth, BitVec.getLsbD_allOnes]
  by_cases h : k < 10
  · have hk : k < 64 := by omega
    simp [h, hk]
  · simp [h]

theorem flags_pteFlags (pte : Pte) : Flags (pteFlags pte) := by
  intro k hk
  rw [getLsbD_pteFlags, decide_eq_false (Nat.not_lt.2 hk), Bool.and_false]

theorem flags_or {g : Pte} (hf : Flags f) (hg : Flags g) : Flags (f ||| g) := by
  intro k hk
  rw [BitVec.getLsbD_or, hf k hk, hg k hk]
  rfl

theorem flags_shift (hj : j < 10) : Flags (1#64 <<< j) := by
  intro k hk
  have hne : k ≠ j := by omega
  rw [getLsbD_shift (by omega), decide_eq_false hne]

theorem getLsbD_pa2pte (pa k : Nat) :
    (pa2pte pa).getLsbD k = (decide (k < 64) && decide (10 ≤ k) && (BitVec.ofNat 64 pa).getLsbD (k + 2)) := by
  rw [pa2pte, BitVec.getLsbD_shiftLeft, BitVec.getLsbD_ushiftRight]
  by_cases h : k < 10
  · simp [h, Nat.not_le.2 h]
  · have hk : 12 + (k - 10) = k + 2 := by omega
    rw [hk]
    simp [h, Nat.not_lt.1 h]

/-- The low bits of an entry are its flags. -/
theorem has_mk (pa : Nat) (f : Pte) (hj : j < 10) : Pte.has (pa2pte pa ||| f) (1#64 <<< j) = Pte.has f (1#64 <<< j) := by
  rw [has_or, has_shift (pa2pte pa), getLsbD_pa2pte, decide_eq_false (Nat.not_le.2 hj)]
  simp

theorem pteFlags_mk (pa : Nat) (hf : Flags f) : pteFlags (pa2pte pa ||| f) = f := by
  refine BitVec.eq_of_getLsbD_eq fun k _ => ?_
  rw [getLsbD_pteFlags, BitVec.getLsbD_or, getLsbD_pa2pte]
  by_cases h : k < 10
  · simp [h, Nat.not_le.2 h]
  · rw [hf k (by omega), decide_eq_false h, Bool.and_false]

theorem getLsbD_pte2pa (pte : Pte) (k : Nat) :
    (pte >>> 10 <<< 12).getLsbD k = (decide (k < 64) && decide (12 ≤ k) && pte.getLsbD (k - 2)) := by
  rw [BitVec.getLsbD_shiftLeft, BitVec.getLsbD_ushiftRight]
  by_cases h : k < 12
  · simp [h, Nat.not_le.2 h]
  · have hk : 10 + (k - 12) = k - 2 := by omega
    rw [hk]
    simp [h, Nat.not_lt.1 h]

/-- Entries that differ in the flags only are for the same page. -/
theorem pte2pa_congr {pte' : Pte} (h : ∀ k, 10 ≤ k → pte'.getLsbD k = pte.getLsbD k) : pte2pa pte' = pte2pa pte := by
  refine congrArg BitVec.toNat (BitVec.eq_of_getLsbD_eq fun k _ => ?_)
  rw [getLsbD_pte2pa, getLsbD_pte2pa]
  by_cases hk : 12 ≤ k
  · rw [h (k - 2) (by omega)]
  · simp [hk]

theorem pte2pa_or (pte : Pte) (hf : Flags f) : pte2pa (pte ||| f) = pte2pa pte := by
  refine pte2pa_congr fun k hk => ?_
  rw [BitVec.getLsbD_or, hf k hk, Bool.or_false]

/-- The address that an entry was made for. -/
theorem pte2pa_mk {pa : Nat} (halign : pa % PGSIZE = 0) (hlt : pa < 2 ^ 64) (hf : Flags f) :
    pte2pa (pa2pte pa ||| f) = pa := by
  have hpa : (BitVec.ofNat 64 pa).toNat = pa := by
    rw [BitVec.toNat_ofNat, Nat.mod_eq_of_lt (by omega)]
  rw [pte2pa_or _ hf]
  refine Eq.trans (congrArg BitVec.toNat (BitVec.eq_of_getLsbD_eq fun k hk => ?_)) hpa
  rw [getLsbD_pte2pa, getLsbD_pa2pte]
  by_cases h : 12 ≤ k
  · have hk2 : k - 2 + 2 = k := by omega
    rw [hk2]
    simp only [hk, h, decide_true, Bool.true_and, show k - 2 < 64 by omega, show 10 ≤ k - 2 by omega]
  · have hdvd : 2 ^ (k + 1) ∣ pa :=
      (Nat.pow_dvd_pow 2 (by omega)).trans (Nat.dvd_of_mod_eq_zero (show pa % 2 ^ 12 = 0 from halign))
    obtain ⟨c, rfl⟩ := hdvd
    have hbit : (2 ^ (k + 1) * c).testBit k = false := by
      rw [Nat.testBit_two_pow_mul, decide_eq_false (by omega), Bool.false_and]
    rw [BitVec.getLsbD_ofNat _ _ k, hbit, decide_eq_false h]
    simp

/-! ## Page numbers -/

/-- How a page-table page is read: a valid entry points to a page. -/
def ptRadix : Radix Nat Pte where
  width := NPTE
  width_pos := by decide
  next pte := if Pte.has pte PTE_V then some (pte2pa pte) else none
  zero := 0
  next_zero := by decide

theorem px_eq (level va : Nat) : px level va = ptRadix.idx level (va / PGSIZE) := by
  show va / 2 ^ (12 + 9 * level) % NPTE = va / PGSIZE / NPTE ^ level % NPTE
  have hpow : 2 ^ (12 + 9 * level) = PGSIZE * NPTE ^ level := by
    rw [pow_add, pow_mul]
    rfl
  rw [hpow, Nat.div_div_eq_div_mul]

theorem next_of_valid (h : Pte.has pte PTE_V = true) : ptRadix.next pte = some (pte2pa pte) :=
  if_pos h

theorem next_of_invalid (h : Pte.has pte PTE_V = false) : ptRadix.next pte = none :=
  if_neg (by rw [h]; decide)

theorem valid_of_next {c : Nat} (h : ptRadix.next pte = some c) : Pte.has pte PTE_V = true ∧ pte2pa pte = c := by
  cases hv : Pte.has pte PTE_V with
  | false =>
    rw [next_of_invalid hv] at h
    cases h
  | true =>
    rw [next_of_valid hv] at h
    exact ⟨rfl, Option.some.inj h⟩

theorem ptRadix_width : ptRadix.width = NPTE := rfl

theorem ptRadix_zero : ptRadix.zero = 0 := rfl

-- A table has 512 entries: without this, Lean would go through them all to see what a member of one is.
attribute [irreducible] ptRadix

end Xv6.Vm
