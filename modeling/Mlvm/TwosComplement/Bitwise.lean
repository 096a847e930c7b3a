import Mathlib.Data.Int.Bitwise
import Mathlib.Data.Nat.Bitwise

/-!
# Two's complement

Taking an integer's pattern of `w` bits commutes with the operations on patterns: the bitwise
ones, for which a negative integer `-n-1` has the complement of the pattern of `n`, and the shift
to the left, which multiplies.

Main results: `ofInt_land`, `ofInt_lor`, `ofInt_xor` and `ofInt_mul_two_pow`.
-/

namespace TwosComplement

variable (w : ℕ)

theorem ofNat_ldiff (m n : ℕ) :
    BitVec.ofNat w (Nat.ldiff m n) = BitVec.ofNat w m &&& ~~~BitVec.ofNat w n := by
  refine BitVec.eq_of_getLsbD_eq fun i hi => ?_
  rw [BitVec.getLsbD_and, BitVec.getLsbD_not]
  simp only [BitVec.getLsbD_ofNat, Nat.testBit_ldiff, hi, decide_true, Bool.true_and]

theorem ofInt_land (x y : ℤ) :
    BitVec.ofInt w (x.land y) = BitVec.ofInt w x &&& BitVec.ofInt w y := by
  cases x <;> cases y
  case ofNat.ofNat m n => simp [Int.land, BitVec.ofNat_and]
  case ofNat.negSucc m n => simp [Int.land, ofNat_ldiff]
  case negSucc.ofNat m n => simp [Int.land, ofNat_ldiff, BitVec.and_comm]
  case negSucc.negSucc m n => simp [Int.land, BitVec.ofNat_or, BitVec.not_or]

theorem ofInt_lor (x y : ℤ) :
    BitVec.ofInt w (x.lor y) = BitVec.ofInt w x ||| BitVec.ofInt w y := by
  cases x <;> cases y
  case ofNat.ofNat m n => simp [Int.lor, BitVec.ofNat_or]
  case ofNat.negSucc m n => simp [Int.lor, ofNat_ldiff, BitVec.not_and, BitVec.or_comm]
  case negSucc.ofNat m n => simp [Int.lor, ofNat_ldiff, BitVec.not_and]
  case negSucc.negSucc m n => simp [Int.lor, BitVec.ofNat_and, BitVec.not_and]

theorem ofInt_xor (x y : ℤ) :
    BitVec.ofInt w (x.xor y) = BitVec.ofInt w x ^^^ BitVec.ofInt w y := by
  cases x <;> cases y
  case ofNat.ofNat m n => simp [Int.xor, BitVec.ofNat_xor]
  case ofNat.negSucc m n => simp [Int.xor, BitVec.ofNat_xor, BitVec.not_xor_right]
  case negSucc.ofNat m n => simp [Int.xor, BitVec.ofNat_xor, BitVec.not_xor_left]
  case negSucc.negSucc m n =>
    simp [Int.xor, BitVec.ofNat_xor, ← BitVec.not_xor_right, ← BitVec.not_xor_left]

theorem ofInt_mul_two_pow (x : ℤ) (k : ℕ) :
    BitVec.ofInt w (x * 2 ^ k) = BitVec.ofInt w x <<< k := by
  have hpow : BitVec.ofInt w (2 ^ k) = BitVec.twoPow w k := by
    refine BitVec.eq_of_toNat_eq ?_
    rw [BitVec.toNat_ofInt, BitVec.toNat_twoPow]
    norm_cast
  rw [BitVec.ofInt_mul, BitVec.shiftLeft_eq_mul_twoPow, hpow]

end TwosComplement
