import Mathlib.Algebra.Order.Ring.Nat
import Mathlib.Data.Nat.SuccPred

/-!
# Checked `uint64` arithmetic and bit lengths (`common/math`)

The gas code of the virtual machine adds and multiplies `uint64` values
through `SafeAdd`, `SafeSub` and `SafeMul`, which return the wrapped result
of the machine operation together with an overflow flag. A `uint64` is a
`UInt64` here, so the wrapping is Lean's own; the lemmas say what the flag
means on the numbers (`toNat`) and that without it the result is exact.

`BitLen` is `(*big.Int).BitLen` on the non-negative integers the machine
keeps: `0` for `0`, the position of the highest set bit plus one otherwise.

## Main results

* `SafeAdd_overflow`, `SafeAdd_toNat`: the flag of `SafeAdd` is set iff the
  sum reaches `2 ^ 64`, and otherwise the sum is exact; the same for
  `SafeSub` and `SafeMul`.
* `BitLen_le_iff`: `BitLen x ≤ k` iff `x < 2 ^ k`.
-/

namespace Lemochain.Math

/-- `math.MaxUint64`. -/
def MaxUint64 : UInt64 := 0xFFFFFFFFFFFFFFFF

/-- `math.SafeSub`: the difference and whether it underflowed. -/
def SafeSub (x y : UInt64) : UInt64 × Bool := (x - y, x < y)

/-- `math.SafeAdd`: the sum and whether it overflowed. -/
def SafeAdd (x y : UInt64) : UInt64 × Bool := (x + y, y > MaxUint64 - x)

/-- `math.SafeMul`: the product and whether it overflowed. -/
def SafeMul (x y : UInt64) : UInt64 × Bool :=
  if x = 0 ∨ y = 0 then (0, false) else (x * y, y > MaxUint64 / x)

/-- `(*big.Int).BitLen` of a non-negative integer. -/
def BitLen (x : Nat) : Nat := if x = 0 then 0 else x.log2 + 1

@[simp] theorem MaxUint64_toNat : MaxUint64.toNat = 2 ^ 64 - 1 := rfl

theorem SafeSub_overflow (x y : UInt64) : (SafeSub x y).2 = decide (x.toNat < y.toNat) := by
  simp only [SafeSub, UInt64.lt_iff_toNat_lt]

theorem SafeSub_toNat {x y : UInt64} (h : y.toNat ≤ x.toNat) : (SafeSub x y).1.toNat = x.toNat - y.toNat :=
  UInt64.toNat_sub_of_le x y (UInt64.le_iff_toNat_le.mpr h)

theorem SafeAdd_overflow (x y : UInt64) : (SafeAdd x y).2 = decide (2 ^ 64 ≤ x.toNat + y.toNat) := by
  have hx := x.toNat_lt
  have hsub : (MaxUint64 - x).toNat = 2 ^ 64 - 1 - x.toNat := by
    rw [UInt64.toNat_sub_of_le _ _ (UInt64.le_iff_toNat_le.mpr (by simp; omega)), MaxUint64_toNat]
  simp only [SafeAdd, gt_iff_lt, UInt64.lt_iff_toNat_lt, hsub]
  exact decide_eq_decide.mpr (by omega)

theorem SafeAdd_toNat {x y : UInt64} (h : x.toNat + y.toNat < 2 ^ 64) :
    (SafeAdd x y).1.toNat = x.toNat + y.toNat := by
  rw [SafeAdd, UInt64.toNat_add, Nat.mod_eq_of_lt h]

/-- `SafeAdd` does not see the order of its arguments. -/
theorem SafeAdd_comm (x y : UInt64) : SafeAdd x y = SafeAdd y x := by
  have hflag : (SafeAdd x y).2 = (SafeAdd y x).2 := by
    rw [SafeAdd_overflow, SafeAdd_overflow, Nat.add_comm]
  simp only [SafeAdd] at hflag ⊢
  rw [hflag, UInt64.add_comm]

/-- `y > (2 ^ 64 - 1) / x` is `x * y > 2 ^ 64 - 1`. -/
theorem SafeMul_overflow (x y : UInt64) : (SafeMul x y).2 = decide (2 ^ 64 ≤ x.toNat * y.toNat) := by
  unfold SafeMul
  by_cases h0 : x = 0 ∨ y = 0
  · rw [if_pos h0]
    rcases h0 with rfl | rfl <;> simp
  · rw [if_neg h0]
    have hx : 0 < x.toNat := by
      rcases Nat.eq_zero_or_pos x.toNat with h | h
      · exact absurd (Or.inl (UInt64.toNat_inj.mp (h.trans UInt64.toNat_zero.symm))) h0
      · exact h
    have key : (2 ^ 64 - 1) / x.toNat < y.toNat ↔ 2 ^ 64 ≤ x.toNat * y.toNat := by
      rw [Nat.div_lt_iff_lt_mul hx, Nat.mul_comm]
      omega
    simp only [gt_iff_lt, UInt64.lt_iff_toNat_lt, UInt64.toNat_div, MaxUint64_toNat]
    exact decide_eq_decide.mpr key

theorem SafeMul_toNat {x y : UInt64} (h : x.toNat * y.toNat < 2 ^ 64) :
    (SafeMul x y).1.toNat = x.toNat * y.toNat := by
  unfold SafeMul
  split
  · next h0 => rcases h0 with rfl | rfl <;> simp
  · rw [UInt64.toNat_mul, Nat.mod_eq_of_lt h]

theorem BitLen_le_iff (x k : Nat) : BitLen x ≤ k ↔ x < 2 ^ k := by
  unfold BitLen
  split
  · next h => simp [h]
  · next h =>
      rw [Nat.add_one_le_iff, Nat.log2_lt h]

theorem BitLen_eq_zero {x : Nat} : BitLen x = 0 ↔ x = 0 := by
  rw [← Nat.le_zero, BitLen_le_iff, Nat.pow_zero, Nat.lt_one_iff]

end Lemochain.Math
