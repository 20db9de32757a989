/-
Powers of two and bit masks.

Programs test for a power of two by `n & (n - 1)` and round down to a multiple of it by
`x & ~(n - 1)`.

* `two_pow_of_and_sub_one` — the test accepts nothing but powers of two;
* **`and_neg_two_pow`** — the mask rounds down;
* `and_not_add_and` — a mask and its complement split a number.
-/
import Mathlib.Data.Nat.Bitwise

namespace Bits

variable {n k w x : ℕ}

/-- The leading bit of `n` is also set in `n - 1`, unless it is the only one. -/
theorem two_pow_of_and_sub_one (hn : n ≠ 0) (h : n &&& (n - 1) = 0) : ∃ k, n = 2 ^ k := by
  refine ⟨n.log2, ?_⟩
  have hle : 2 ^ n.log2 ≤ n := Nat.log2_self_le hn
  have hlt : n < 2 ^ (n.log2 + 1) := Nat.lt_log2_self
  by_contra hne
  have hbit : n.testBit n.log2 = true := Nat.testBit_of_two_pow_le_and_two_pow_add_one_gt hle hlt
  have hbit' : (n - 1).testBit n.log2 = true :=
    Nat.testBit_of_two_pow_le_and_two_pow_add_one_gt (by omega) (by omega)
  have hboth : (n &&& (n - 1)).testBit n.log2 = true := by rw [Nat.testBit_and, hbit, hbit']; rfl
  rw [h, Nat.zero_testBit] at hboth
  cases hboth

theorem and_sub_one_two_pow : 2 ^ k &&& (2 ^ k - 1) = 0 := by
  rw [Nat.and_two_pow_sub_one_eq_mod, Nat.mod_self]

/-- Rounding down: in `w` bits, the mask is `2 ^ w - 2 ^ k`. -/
theorem and_neg_two_pow (hk : k ≤ w) (hx : x < 2 ^ w) : x &&& (2 ^ w - 2 ^ k) = x / 2 ^ k * 2 ^ k := by
  have hmask : 2 ^ w - 2 ^ k = (2 ^ (w - k) - 1) <<< k := by
    rw [Nat.shiftLeft_eq, Nat.sub_mul, Nat.one_mul, ← Nat.pow_add, Nat.sub_add_cancel hk]
  have hround : x / 2 ^ k * 2 ^ k = (x >>> k) <<< k := by
    rw [Nat.shiftLeft_eq, Nat.shiftRight_eq_div_pow]
  rw [hmask, hround]
  refine Nat.eq_of_testBit_eq fun i => ?_
  rw [Nat.testBit_and, Nat.testBit_shiftLeft, Nat.testBit_shiftLeft, Nat.testBit_two_pow_sub_one,
    Nat.testBit_shiftRight]
  by_cases hi : k ≤ i
  · by_cases hiw : i < w
    · simp [hi, show i - k < w - k by omega, show k + (i - k) = i by omega]
    · have hzero : x.testBit i = false :=
        Nat.testBit_lt_two_pow (Nat.lt_of_lt_of_le hx (Nat.pow_le_pow_right (by decide) (by omega)))
      simp [hi, hzero, show k + (i - k) = i by omega]
  · simp [hi]

/-- A number is what a mask leaves and what it takes. -/
theorem and_not_add_and (x y : UInt64) : (x &&& ~~~y).toNat + (x &&& y).toNat = x.toNat := by
  have hzero : (x.toBitVec &&& ~~~y.toBitVec) &&& (x.toBitVec &&& y.toBitVec) = 0#64 := by
    ext i hi
    simp only [BitVec.getElem_and, BitVec.getElem_not, BitVec.getElem_zero]
    grind
  have hor : (x.toBitVec &&& ~~~y.toBitVec) ||| (x.toBitVec &&& y.toBitVec) = x.toBitVec := by
    ext i hi
    simp only [BitVec.getElem_or, BitVec.getElem_and, BitVec.getElem_not]
    grind
  have hsum := BitVec.toNat_add_of_and_eq_zero hzero
  rw [BitVec.add_eq_or_of_and_eq_zero _ _ hzero, hor] at hsum
  exact hsum.symm

end Bits
