import Mathlib.Algebra.CharP.Defs
import Mathlib.Algebra.EuclideanDomain.Basic
import Mathlib.Algebra.EuclideanDomain.Int
import Mathlib.Algebra.Order.Ring.Nat
import Mathlib.Data.Int.Bitwise
import Mathlib.Data.Int.ConditionallyCompleteOrder
import Mathlib.Data.Nat.Cast.Order.Basic
import Mathlib.Data.Nat.SuccPred

/-!
# Two's complement words

A `w`-bit word is a natural number below `2 ^ w`. Its signed value
`toSigned w` reads the top bit with weight `-2 ^ (w - 1)`, and `ofInt w`
takes an integer to the word of its remainder modulo `2 ^ w`.

Arbitrary-precision integers with two's complement bitwise operations
(`Int.land`, `Int.lor`, `Int.lnot`, as in Mathlib) truncate to `w` bits by
the mask `2 ^ w - 1` (`land_two_pow_sub_one`), and setting every bit from
`k` on is the subtraction of `2 ^ k` from the low bits
(`lor_lnot_two_pow_sub_one`). Truncated division and remainder of non-zero
integers are those of their absolute values, with the sign of the quotient
or of the dividend (`tdiv_eq_natAbs`, `tmod_eq_natAbs`).

## Main results

* `ofInt_lt`, `ofInt_natCast`: the word of an integer.
* `land_two_pow_sub_one`, `lor_lnot_two_pow_sub_one`: masks.
* `tdiv_eq_natAbs`, `tmod_eq_natAbs`: truncated division by absolute values.
-/

namespace Lemochain.TwosComplement

/-- The signed value of the `w`-bit word `x`. -/
def toSigned (w x : Nat) : Int := if x < 2 ^ (w - 1) then x else (x : Int) - 2 ^ w

/-- The `w`-bit word of an integer, its remainder modulo `2 ^ w`. -/
def ofInt (w : Nat) (i : Int) : Nat := (i % 2 ^ w).toNat

/-! ## Words of integers -/

theorem two_pow_pos (w : Nat) : (0 : Int) < 2 ^ w := by
  exact_mod_cast Nat.two_pow_pos w

theorem natCast_two_pow (w : Nat) : ((2 ^ w : Nat) : Int) = 2 ^ w := by
  rw [Nat.cast_pow, Nat.cast_ofNat]

theorem ofInt_cast (w : Nat) (i : Int) : (ofInt w i : Int) = i % 2 ^ w :=
  Int.toNat_of_nonneg (Int.emod_nonneg _ (Int.ne_of_gt (two_pow_pos w)))

theorem ofInt_lt (w : Nat) (i : Int) : ofInt w i < 2 ^ w := by
  have h := Int.emod_lt_of_pos i (two_pow_pos w)
  rw [← ofInt_cast, ← natCast_two_pow] at h
  exact Int.ofNat_lt.mp h

theorem ofInt_natCast (w x : Nat) : ofInt w x = x % 2 ^ w := by
  rw [ofInt, ← natCast_two_pow, ← Int.natCast_emod, Int.toNat_natCast]

/-! ## Masks -/

/-- Clearing the low `k` bits of `2 ^ k - 1` by those of `m` leaves their
complement. -/
theorem ldiff_two_pow_sub_one (k m : Nat) : Nat.ldiff (2 ^ k - 1) m = 2 ^ k - (m % 2 ^ k + 1) := by
  apply Nat.eq_of_testBit_eq
  intro i
  rw [Nat.testBit_ldiff, Nat.testBit_two_pow_sub_one, Nat.testBit_two_pow_sub_succ (Nat.mod_lt _ (Nat.two_pow_pos k)),
    Nat.testBit_mod_two_pow]
  cases decide (i < k) <;> rfl

theorem natCast_two_pow_sub_one (k : Nat) : ((2 ^ k - 1 : Nat) : Int) = 2 ^ k - 1 := by
  rw [Nat.cast_sub Nat.one_le_two_pow, natCast_two_pow, Nat.cast_one]

/-- The mask `2 ^ k - 1` keeps the remainder modulo `2 ^ k`, for negative
integers too. -/
theorem land_two_pow_sub_one (k : Nat) (i : Int) : Int.land i (2 ^ k - 1) = i % 2 ^ k := by
  rw [← natCast_two_pow_sub_one]
  cases i with
  | ofNat m =>
      show ((m &&& (2 ^ k - 1) : Nat) : Int) = _
      rw [Nat.and_two_pow_sub_one_eq_mod, Int.natCast_emod, Int.ofNat_eq_natCast, Int.natCast_pow, Nat.cast_ofNat]
  | negSucc m =>
      show ((Nat.ldiff (2 ^ k - 1) m : Nat) : Int) = _
      have hr := Nat.mod_lt m (Nat.two_pow_pos k)
      rw [ldiff_two_pow_sub_one, Int.negSucc_emod _ (two_pow_pos k), Nat.cast_sub (by omega), Nat.cast_add,
        Int.natCast_emod, natCast_two_pow, Nat.cast_one]
      omega

/-- Setting the bits of `m` from `k` on: the low bits less `2 ^ k`. -/
theorem lor_lnot_two_pow_sub_one (k m : Nat) :
    Int.lor m (Int.lnot (2 ^ k - 1)) = ((m % 2 ^ k : Nat) : Int) - 2 ^ k := by
  rw [← natCast_two_pow_sub_one]
  show Int.negSucc (Nat.ldiff (2 ^ k - 1) m) = _
  have hr := Nat.mod_lt m (Nat.two_pow_pos k)
  rw [ldiff_two_pow_sub_one, Int.negSucc_eq, Nat.cast_sub (by omega), Nat.cast_add, natCast_two_pow,
    Nat.cast_one]
  omega

/-! ## Signed values -/

@[simp]
theorem toSigned_zero (w : Nat) : toSigned w 0 = 0 := by
  rw [toSigned, if_pos (Nat.two_pow_pos _), Nat.cast_zero]

/-- Only the word `0` has the signed value `0`. -/
theorem toSigned_eq_zero_iff {w x : Nat} (h : x < 2 ^ w) : toSigned w x = 0 ↔ x = 0 := by
  have h' : (x : Int) < 2 ^ w := by exact_mod_cast h
  unfold toSigned
  split
  · exact Int.natCast_eq_zero
  · constructor
    · intro h0; omega
    · intro h0; subst h0; exact absurd (Nat.two_pow_pos _) (by assumption)

/-- The signed value of the low `k + 1` bits: bit `k` carries the weight
`-2 ^ k`. -/
theorem toSigned_mod_two_pow_succ (k x : Nat) :
    toSigned (k + 1) (x % 2 ^ (k + 1)) =
      if x.testBit k then ((x % 2 ^ k : Nat) : Int) - 2 ^ k else ((x % 2 ^ k : Nat) : Int) := by
  have hr := Nat.mod_lt x (Nat.two_pow_pos k)
  unfold toSigned
  rw [Nat.add_sub_cancel, Nat.mod_pow_succ, Nat.testBit_eq_decide_div_mod_eq]
  rcases Nat.mod_two_eq_zero_or_one (x / 2 ^ k) with h | h
  · rw [h, Nat.mul_zero, Nat.add_zero, if_pos hr]
    rfl
  · rw [h, Nat.mul_one, if_neg (by omega), decide_eq_true rfl, if_pos rfl, Nat.cast_add, natCast_two_pow,
      Int.pow_succ]
    omega

/-- A shift by at least the width leaves `-1` for a negative word and `0`
otherwise. -/
theorem toSigned_ediv_two_pow_of_le {w x s : Nat} (h : x < 2 ^ w) (hs : w ≤ s) :
    toSigned w x / 2 ^ s = if toSigned w x < 0 then -1 else 0 := by
  have h' : (x : Int) < 2 ^ w := by exact_mod_cast h
  have hws : (2 : Int) ^ w ≤ 2 ^ s := by
    rw [← natCast_two_pow, ← natCast_two_pow]
    exact_mod_cast Nat.pow_le_pow_right (by decide) hs
  unfold toSigned
  split
  · rw [if_neg (by omega), Int.ediv_eq_zero_of_lt (by omega) (by omega)]
  · rw [if_pos (by omega), Int.ediv_eq_neg_one_of_neg_of_le (by omega) (by omega)]

theorem ofInt_neg_one (w : Nat) : ofInt w (-1) = 2 ^ w - 1 := by
  apply Int.ofNat_inj.mp
  rw [ofInt_cast, show (-1 : Int) = Int.negSucc 0 from rfl, Int.negSucc_emod _ (two_pow_pos w),
    ← natCast_two_pow_sub_one]
  simp

/-- The complement of a word is its difference from `2 ^ w - 1`. -/
theorem ofInt_lnot {w x : Nat} (h : x < 2 ^ w) : ofInt w (Int.lnot x) = 2 ^ w - 1 - x := by
  have h' : (x : Int) < 2 ^ w := by exact_mod_cast h
  apply Int.ofNat_inj.mp
  rw [ofInt_cast, show Int.lnot x = Int.negSucc x from rfl, Int.negSucc_emod _ (two_pow_pos w),
    Int.emod_eq_of_lt (Int.natCast_nonneg x) h']
  show _ = ((2 ^ w - 1 - x : Nat) : Int)
  rw [Nat.cast_sub (by omega), natCast_two_pow_sub_one]

/-! ## Truncated division -/

/-- Truncated division of non-zero integers: the quotient of the absolute
values, negated when the signs differ. -/
theorem tdiv_eq_natAbs {a b : Int} (ha : a ≠ 0) (hb : b ≠ 0) :
    a.tdiv b = if a.sign = b.sign then ((a.natAbs / b.natAbs : Nat) : Int)
      else -((a.natAbs / b.natAbs : Nat) : Int) := by
  obtain ⟨m, rfl | rfl⟩ := Int.eq_nat_or_neg a <;> obtain ⟨n, rfl | rfl⟩ := Int.eq_nat_or_neg b
  all_goals
    have hm : m ≠ 0 := by rintro rfl; simp at ha
    have hn : n ≠ 0 := by rintro rfl; simp at hb
  · rw [Int.sign_natCast_of_ne_zero hm, Int.sign_natCast_of_ne_zero hn, if_pos rfl, Int.natAbs_natCast,
      Int.natAbs_natCast, Int.ofNat_tdiv]
  · rw [Int.sign_natCast_of_ne_zero hm, Int.sign_neg, Int.sign_natCast_of_ne_zero hn, if_neg (by decide),
      Int.natAbs_natCast, Int.natAbs_neg, Int.natAbs_natCast, Int.tdiv_neg, Int.ofNat_tdiv]
  · rw [Int.sign_neg, Int.sign_natCast_of_ne_zero hm, Int.sign_natCast_of_ne_zero hn, if_neg (by decide),
      Int.natAbs_neg, Int.natAbs_natCast, Int.natAbs_natCast, Int.neg_tdiv, Int.ofNat_tdiv]
  · rw [Int.sign_neg, Int.sign_natCast_of_ne_zero hm, Int.sign_neg, Int.sign_natCast_of_ne_zero hn, if_pos rfl,
      Int.natAbs_neg, Int.natAbs_natCast, Int.natAbs_neg, Int.natAbs_natCast, Int.neg_tdiv, Int.tdiv_neg,
      Int.neg_neg, Int.ofNat_tdiv]

/-- Truncated remainder: that of the absolute values, with the sign of the
dividend. -/
theorem tmod_eq_natAbs (a b : Int) :
    a.tmod b = if a < 0 then -((a.natAbs % b.natAbs : Nat) : Int) else ((a.natAbs % b.natAbs : Nat) : Int) := by
  obtain ⟨m, rfl | rfl⟩ := Int.eq_nat_or_neg a <;> obtain ⟨n, rfl | rfl⟩ := Int.eq_nat_or_neg b
  · rw [if_neg (by omega), Int.natAbs_natCast, Int.natAbs_natCast, Int.ofNat_tmod]
  · rw [if_neg (by omega), Int.natAbs_natCast, Int.natAbs_neg, Int.natAbs_natCast, Int.tmod_neg, Int.ofNat_tmod]
  · rcases Nat.eq_zero_or_pos m with rfl | hm
    · rw [if_neg (by omega)]
      simp
    · rw [if_pos (by omega), Int.natAbs_neg, Int.natAbs_natCast, Int.natAbs_natCast, Int.neg_tmod, Int.ofNat_tmod]
  · rcases Nat.eq_zero_or_pos m with rfl | hm
    · rw [if_neg (by omega)]
      simp
    · rw [if_pos (by omega), Int.natAbs_neg, Int.natAbs_natCast, Int.natAbs_neg, Int.natAbs_natCast,
        Int.neg_tmod, Int.tmod_neg, Int.ofNat_tmod]

end Lemochain.TwosComplement
