import Mathlib.Logic.Function.Basic

/-!
# Little-endian words in bytes

`readLe b off n` is the word of the `n` bytes of `b` at `off`, and `writeLe` stores
one. A word is given by its bytes (`readLe_of_bytes`), so it is what was last stored to
them (`readLe_writeLe`), and a store to other bytes does not change it (`readLe_congr`).
-/

namespace Xv6

def readLe (b : Nat → BitVec 8) (off : Nat) : (n : Nat) → BitVec (8 * n)
  | 0 => 0#0
  | n + 1 => readLe b (off + 1) n ++ b off

def writeLe (b : Nat → BitVec 8) (off n : Nat) (w : BitVec (8 * n)) : Nat → BitVec 8 :=
  fun k => if off ≤ k ∧ k < off + n then w.extractLsb' (8 * (k - off)) 8 else b k

variable {b b' : Nat → BitVec 8} {off n : Nat}

theorem readLe_congr (h : ∀ k, off ≤ k → k < off + n → b' k = b k) : readLe b' off n = readLe b off n := by
  induction n generalizing off with
  | zero => rfl
  | succ n ih => rw [readLe, readLe, h off (by omega) (by omega), ih fun k hk hk' => h k (by omega) (by omega)]

/-- Bit `i` of a word is a bit of its byte `i / 8`. -/
theorem getLsbD_readLe {i : Nat} (hi : i < 8 * n) : (readLe b off n).getLsbD i = (b (off + i / 8)).getLsbD (i % 8) := by
  induction n generalizing off i with
  | zero => omega
  | succ n ih =>
    rw [readLe, BitVec.getLsbD_append]
    split
    · have hdiv : i / 8 = 0 := by omega
      rw [hdiv, Nat.add_zero, Nat.mod_eq_of_lt ‹_›]
    · have hdiv : off + 1 + (i - 8) / 8 = off + i / 8 := by omega
      have hmod : (i - 8) % 8 = i % 8 := by omega
      rw [ih (by omega), hdiv, hmod]

/-- A word is given by its bytes. -/
theorem readLe_of_bytes {w : BitVec (8 * n)} (h : ∀ k, k < n → b (off + k) = w.extractLsb' (8 * k) 8) :
    readLe b off n = w := by
  refine BitVec.eq_of_getLsbD_eq fun i hi => ?_
  rw [getLsbD_readLe hi, h (i / 8) (by omega), BitVec.getLsbD_extractLsb', Nat.div_add_mod]
  simp [Nat.mod_lt]

theorem readLe_writeLe (b : Nat → BitVec 8) (off n : Nat) (w : BitVec (8 * n)) : readLe (writeLe b off n w) off n = w := by
  refine readLe_of_bytes fun k hk => ?_
  rw [writeLe, if_pos ⟨by omega, by omega⟩, Nat.add_sub_cancel_left]

/-- Words of zero bytes. -/
theorem readLe_zero (off n : Nat) : readLe (fun _ => 0) off n = 0 := by
  refine BitVec.eq_of_getLsbD_eq fun i hi => ?_
  rw [getLsbD_readLe hi]
  simp

end Xv6
