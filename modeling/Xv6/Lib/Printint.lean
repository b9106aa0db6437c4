import Mathlib.Data.Nat.Digits.Defs

/-!
# Printing numbers

`printint` of the kernel (`printf.c`) and of the user library puts the digits of a 64-bit number into a
buffer of 20 characters, last digit first, and prints them in reverse. What it prints is the numeral of
the number, without leading zeros and with a minus sign if it is negative, and the buffer is never
overrun (`printint_exact`): its digits are those that `putDigits` divides off (`putDigits_eq`), of which
there are at most 20 in an unsigned number and 19 behind a sign.
-/

namespace Xv6.Lib

open List

/-- `do { buf[i++] = digits[x % base]; } while((x /= base) != 0)`, where `room` more characters fit into
the buffer: the characters in it, the last one first. Nothing if it is overrun. -/
def putDigits (digits : List Char) (base : BitVec 64) : Nat → BitVec 64 → List Char → Option (Nat × List Char)
  | 0, _, _ => none
  | room + 1, x, buf => do
    let c ← digits[(x % base).toNat]?
    if x / base ≠ 0 then putDigits digits base room (x / base) (c :: buf) else some (room, c :: buf)

/-- What is printed. -/
def printint (digits : List Char) (xx : BitVec 64) (base : BitVec 32) (sign : Bool) : Option (List Char) := do
  let neg := sign && xx.slt 0
  let (room, buf) ← putDigits digits (base.signExtend 64) 20 (if neg then -xx else xx) []
  if neg then
    match room with
    | 0 => none
    | _ + 1 => some ('-' :: buf)
  else some buf

def Kernel.digits : List Char := "0123456789abcdef".toList

def User.digits : List Char := "0123456789ABCDEF".toList

def Kernel.printint (xx : BitVec 64) (base : BitVec 32) (sign : Bool) : Option (List Char) :=
  Lib.printint digits xx base sign

/-- It goes to the file `fd` character by character. -/
def User.printint (xx : BitVec 64) (base : BitVec 32) (sgn : Bool) : Option (List Char) :=
  Lib.printint digits xx base sgn

/-- The digits of `n`, the first one not zero unless it is the only one. -/
structure Canonical (base n : Nat) (ds : List Nat) : Prop where
  lt : ∀ d ∈ ds, d < base
  lead : ds = [0] ∨ ∃ d ∈ ds.head?, d ≠ 0
  value : Nat.ofDigits base ds.reverse = n

/-- The numeral of `v`. -/
def Numeral (digits : List Char) (base : Nat) (v : Int) (t : List Char) : Prop :=
  ∃ ds u, Canonical base v.natAbs ds ∧ u.map some = ds.map (digits[·]?) ∧ t = if v < 0 then '-' :: u else u

variable {digits : List Char} {b x xx : BitVec 64} {n : Nat} {ds : List Nat}

theorem canonical_single (h : n < b.toNat) : Canonical b.toNat n [n] := by
  refine ⟨fun d hd => ?_, ?_, ?_⟩
  · rwa [mem_singleton.1 hd]
  · by_cases h0 : n = 0
    · exact .inl (by rw [h0])
    · exact .inr ⟨n, rfl, h0⟩
  · rw [reverse_singleton, Nat.ofDigits_singleton]

theorem Canonical.snoc (h : Canonical b.toNat (n / b.toNat) ds) (hb : 0 < b.toNat) (hn : n / b.toNat ≠ 0) :
    Canonical b.toNat n (ds ++ [n % b.toNat]) := by
  refine ⟨fun d hd => ?_, ?_, ?_⟩
  · rcases mem_append.1 hd with hd | hd
    · exact h.lt d hd
    · rw [mem_singleton.1 hd]
      exact Nat.mod_lt _ hb
  · rcases h.lead with h0 | ⟨d, hd, hd0⟩
    · refine absurd ?_ hn
      rw [← h.value, h0]
      rfl
    · exact .inr ⟨d, by rw [head?_append, Option.mem_def.1 hd]; rfl, hd0⟩
  · rw [reverse_append, reverse_singleton, singleton_append, Nat.ofDigits_cons, h.value]
    exact Nat.mod_add_div n b.toNat

/-- A number below `base ^ k` has at most `k` digits. -/
theorem putDigits_eq (hb : 1 < b.toNat) (hlen : b.toNat ≤ digits.length) {k room : Nat} (buf : List Char)
    (hx : x.toNat < b.toNat ^ k) (hk : 0 < k) (hroom : k ≤ room) : ∃ ds u,
      putDigits digits b room x buf = some (room - ds.length, u ++ buf) ∧ ds.length ≤ k ∧
      Canonical b.toNat x.toNat ds ∧ u.map some = ds.map (digits[·]?) := by
  induction k generalizing room x buf with
  | zero => cases hk
  | succ k ih =>
    obtain ⟨room, rfl⟩ : ∃ r, room = r + 1 := ⟨room - 1, by omega⟩
    have hmod : (x % b).toNat < digits.length := by
      rw [BitVec.toNat_umod]
      exact Nat.lt_of_lt_of_le (Nat.mod_lt _ (by omega)) hlen
    obtain ⟨c, hc⟩ : ∃ c, digits[(x % b).toNat]? = some c := ⟨_, getElem?_eq_getElem hmod⟩
    rw [putDigits, hc, Option.bind_eq_bind, Option.bind_some]
    by_cases h0 : x / b = 0
    · have hlt : x.toNat < b.toNat := by
        rw [← BitVec.toNat_inj, BitVec.toNat_udiv] at h0
        exact (Nat.div_eq_zero_iff_lt (by omega)).1 h0
      have hxb : (x % b).toNat = x.toNat := by rw [BitVec.toNat_umod, Nat.mod_eq_of_lt hlt]
      refine ⟨[x.toNat], [c], if_neg (not_not.2 h0), by simp, canonical_single hlt, ?_⟩
      rw [map_singleton, map_singleton, ← hc, hxb]
    · have hne : x.toNat / b.toNat ≠ 0 := by
        rw [← BitVec.toNat_udiv]
        exact fun h => h0 (BitVec.eq_of_toNat_eq h)
      have hdiv : (x / b).toNat < b.toNat ^ k := by
        rw [BitVec.toNat_udiv]
        exact Nat.div_lt_of_lt_mul (by rwa [← Nat.pow_succ'])
      have hk : 0 < k := by
        rcases Nat.eq_zero_or_pos k with rfl | h
        · rw [BitVec.toNat_udiv, Nat.pow_zero] at hdiv
          exact absurd (Nat.lt_one_iff.1 hdiv) hne
        · exact h
      obtain ⟨ds, u, hput, hle, hcan, hu⟩ := ih (c :: buf) hdiv hk (Nat.le_of_succ_le_succ hroom)
      rw [BitVec.toNat_udiv] at hcan
      refine ⟨ds ++ [(x % b).toNat], u ++ [c], ?_, ?_, ?_, ?_⟩
      · rw [if_pos h0, hput]
        simp
      · rw [length_append, length_singleton]
        omega
      · rw [BitVec.toNat_umod]
        exact hcan.snoc (by omega) hne
      · rw [map_append, map_append, hu, map_singleton, map_singleton, hc]

/-- The number as `printint` takes it. -/
def value (xx : BitVec 64) (sign : Bool) : Int := if sign then xx.toInt else xx.toNat

theorem value_of_not_neg {sign : Bool} (h : (sign && xx.slt 0) = false) : value xx sign = xx.toNat := by
  cases sign with
  | false => rfl
  | true =>
    have hmsb : xx.msb = false := BitVec.slt_zero_eq_msb.symm.trans h
    exact BitVec.toInt_eq_toNat_of_msb hmsb

theorem natAbs_of_neg (h : xx.slt 0 = true) : xx.toInt < 0 ∧ xx.toInt.natAbs = (-xx).toNat ∧ (-xx).toNat ≤ 2 ^ 63 := by
  have hneg : xx.toInt < 0 := BitVec.slt_iff_toInt_lt.1 h
  have hx := xx.isLt
  rw [BitVec.toInt_eq_toNat_cond] at hneg ⊢
  rw [BitVec.toNat_neg]
  omega

theorem printint_eq (hlen : digits.length = 16) {base : BitVec 32} (hb : base = 10 ∨ base = 16) (xx : BitVec 64) (sign : Bool) :
    ∃ t, printint digits xx base sign = some t ∧ Numeral digits base.toNat (value xx sign) t ∧ t.length ≤ 20 := by
  obtain ⟨hb1, hb16, h20, h19, hnat⟩ : 1 < (base.signExtend 64).toNat ∧ (base.signExtend 64).toNat ≤ digits.length ∧
      2 ^ 64 ≤ (base.signExtend 64).toNat ^ 20 ∧ 2 ^ 63 < (base.signExtend 64).toNat ^ 19 ∧
      (base.signExtend 64).toNat = base.toNat := by
    rw [hlen]
    rcases hb with rfl | rfl <;> decide
  cases hneg : sign && xx.slt 0 with
  | false =>
    obtain ⟨ds, u, hput, hle, hcan, hu⟩ :=
      putDigits_eq hb1 hb16 [] (Nat.lt_of_lt_of_le xx.isLt h20) (by decide) (Nat.le_refl 20)
    have hulen : u.length = ds.length := by simpa using congrArg length hu
    rw [hnat] at hcan
    refine ⟨u, by simp only [printint, hneg, hput, Option.bind_eq_bind, Option.bind_some, Bool.false_eq_true, if_false,
      append_nil], ?_, by omega⟩
    rw [value_of_not_neg hneg]
    exact ⟨ds, u, hcan, hu, (if_neg (Int.not_lt.2 (Int.natCast_nonneg _))).symm⟩
  | true =>
    obtain ⟨rfl, hslt⟩ := Bool.and_eq_true_iff.1 hneg
    obtain ⟨hlt, habs, hle⟩ := natAbs_of_neg hslt
    obtain ⟨ds, u, hput, hle, hcan, hu⟩ :=
      putDigits_eq hb1 hb16 [] (Nat.lt_of_le_of_lt hle h19) (by decide) (show 19 ≤ 20 by decide)
    have hulen : u.length = ds.length := by simpa using congrArg length hu
    rw [hnat, ← habs] at hcan
    obtain ⟨room, hroom⟩ : ∃ room, 20 - ds.length = room + 1 := ⟨19 - ds.length, by omega⟩
    refine ⟨'-' :: u, by simp only [printint, hneg, hput, hroom, Option.bind_eq_bind, Option.bind_some, if_true,
      append_nil], ?_, by rw [length_cons]; omega⟩
    exact ⟨ds, u, hcan, hu, (if_pos hlt).symm⟩

/-- The numeral is exact, and fits into the buffer. -/
theorem printint_exact (xx : BitVec 64) (base : BitVec 32) (hb : base = 10 ∨ base = 16) (sign : Bool) :
    (∃ t, Kernel.printint xx base sign = some t ∧ Numeral Kernel.digits base.toNat (value xx sign) t ∧ t.length ≤ 20) ∧
    ∃ t, User.printint xx base sign = some t ∧ Numeral User.digits base.toNat (value xx sign) t ∧ t.length ≤ 20 :=
  ⟨printint_eq (by decide) hb xx sign, printint_eq (by decide) hb xx sign⟩

/-- The most negative value fills the buffer. -/
theorem printint_exact_intMin : ∃ t, Kernel.printint (BitVec.intMin 64) 10 true = some t ∧
    t = "-9223372036854775808".toList ∧ t.length = 20 ∧ Numeral Kernel.digits 10 (value (BitVec.intMin 64) true) t := by
  obtain ⟨⟨t, ht, hnum, -⟩, -⟩ := printint_exact (BitVec.intMin 64) 10 (.inl rfl) true
  have hrun : Kernel.printint (BitVec.intMin 64) 10 true = some "-9223372036854775808".toList := by decide +kernel
  obtain rfl := Option.some.inj (ht.symm.trans hrun)
  exact ⟨_, ht, rfl, rfl, hnum⟩

end Xv6.Lib
