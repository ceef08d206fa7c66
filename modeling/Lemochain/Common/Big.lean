import Mathlib.Data.Nat.Totient
import Mathlib.Data.Nat.ModEq
import Mathlib.GroupTheory.OrderOfElement
import Lemochain.Common.Math
import Lemochain.Lib.TwosComplement

/-!
# Big integer helpers of the virtual machine (`common/math/big.go`)

The virtual machine keeps its words as `*big.Int` values, integers of
arbitrary precision, and truncates them to 256 bits with `U256`, the two's
complement `AND` with `2 ^ 256 - 1`; `S256` reads a word as signed. `Exp`
raises to a power by squaring over the bits of the exponent, the 64 bits of
each limb of `Bits()`, and `Byte` reads one byte of a padded word from those
limbs.

## Main results

* `U256_eq`, `S256_natCast`: `U256` is the remainder modulo `2 ^ 256`, and
  `S256` the signed value of a word.
* `Exp_natCast`: `Exp` is the power modulo `2 ^ 256`.
* `Byte_natCast`: the byte `n` of a word padded to `32` bytes, the most
  significant first.
-/

namespace Lemochain.Math

open Lemochain.TwosComplement

/-- `tt255`. -/
def tt255 : Int := 2 ^ 255
/-- `tt256`. -/
def tt256 : Int := 2 ^ 256
/-- `tt256m1`. -/
def tt256m1 : Int := 2 ^ 256 - 1

/-- `U256`: `x AND (2 ^ 256 - 1)`, on the two's complement bits of `x`. -/
def U256 (x : Int) : Int := Int.land x tt256m1

/-- `S256`: a word read as a two's complement number. -/
def S256 (x : Int) : Int := if x < tt255 then x else x - tt256

/-- The number of limbs of `(*big.Int).Bits()`, the 64-bit words of the
absolute value. -/
def bitsLen (x : Int) : Nat := (BitLen x.natAbs + 63) / 64

/-- The loops of `Exp` over the limbs of the exponent and the 64 bits of
each, low bit first: `word` holds the bits left. -/
def expLoop : Nat → Int → Nat → Int → Int
  | 0, _, _, result => result
  | n + 1, base, word, result =>
      let result := if word % 2 = 1 then U256 (result * base) else result
      expLoop n (U256 (base * base)) (word / 2) result

/-- `Exp`: exponentiation by squaring, each product truncated to 256 bits. -/
def Exp (base exponent : Int) : Int := expLoop (64 * bitsLen exponent) base exponent.natAbs 1

/-- What the loop of `Exp` leaves in the caller's `base`: `U256(base.Mul(base,
base))` writes the truncated square back into `base`, once for every bit of
every limb. -/
def expBase : Nat → Int → Int
  | 0, base => base
  | n + 1, base => expBase n (U256 (base * base))

/-- `Exp` with its effect on its arguments: the result, a new `big.Int`,
and the value the caller's `base` holds after the call. The limbs of
`exponent` are only read. -/
def ExpEffect (base exponent : Int) : Int × Int := (Exp base exponent, expBase (64 * bitsLen exponent) base)

/-- `wordBytes`, the bytes of a limb. -/
def wordBytes : Nat := 8

/-- `bigEndianByteAt`: the byte `n` of `bigint`, `0` the least significant,
read from the limb `n / wordBytes` it lies in. -/
def bigEndianByteAt (bigint : Int) (n : Nat) : UInt8 :=
  let i := n / wordBytes
  if i ≥ bitsLen bigint then 0
  else
    let word := bigint.natAbs / 2 ^ (64 * i) % 2 ^ 64
    let shift := 8 * (n % wordBytes)
    (word >>> shift).toUInt8

/-- `Byte`: the byte `n` of `bigint` padded to `padlength` bytes, `0` the
most significant. -/
def Byte (bigint : Int) (padlength n : Nat) : UInt8 :=
  if n ≥ padlength then 0 else bigEndianByteAt bigint (padlength - 1 - n)

/-! ## Words -/

theorem U256_eq (x : Int) : U256 x = x % 2 ^ 256 := land_two_pow_sub_one 256 x

theorem U256_eq_ofInt (x : Int) : U256 x = (ofInt 256 x : Int) := by
  rw [U256_eq, ofInt_cast]

theorem U256_natCast (x : Nat) : U256 x = ((x % 2 ^ 256 : Nat) : Int) := by
  rw [U256_eq, Int.natCast_emod, natCast_two_pow]

/-- A word is its own truncation. -/
theorem U256_natCast_of_lt {x : Nat} (h : x < 2 ^ 256) : U256 x = x := by
  rw [U256_natCast, Nat.mod_eq_of_lt h]

theorem S256_natCast (x : Nat) : S256 x = toSigned 256 x := by
  unfold S256 toSigned tt255 tt256
  by_cases h : x < 2 ^ 255
  · have h' : (x : Int) < 2 ^ 255 := by exact_mod_cast h
    rw [if_pos h', if_pos h]
  · have h' : ¬ (x : Int) < 2 ^ 255 := by exact_mod_cast h
    rw [if_neg h', if_neg h]

/-! ## `Exp` -/

/-- The loop multiplies `result` by `base` to the bits of `word` it runs
over.

The low bit of `word`, and the bits after it. -/
theorem expLoop_natCast (n : Nat) (b e r : Nat) (hr : r < 2 ^ 256) :
    expLoop n b e r = ((r * b ^ (e % 2 ^ n) % 2 ^ 256 : Nat) : Int) := by
  induction n generalizing b e r with
  | zero => rw [expLoop, Nat.pow_zero, Nat.mod_one, Nat.pow_zero, Nat.mul_one, Nat.mod_eq_of_lt hr]
  | succ n ih =>
      rw [expLoop]
      have hsq : U256 ((b : Int) * b) = ((b * b % 2 ^ 256 : Nat) : Int) := by
        rw [← Nat.cast_mul, U256_natCast]
      have hsplit : e % 2 ^ (n + 1) = e % 2 + 2 * (e / 2 % 2 ^ n) := by
        rw [Nat.pow_succ', Nat.mod_mul]
      have hpow : ∀ k, b ^ (e % 2 + 2 * k) = b ^ (e % 2) * (b * b) ^ k := fun k => by
        rw [Nat.pow_add, Nat.pow_mul, Nat.pow_two]
      rw [hsq]
      split
      · next h1 =>
          rw [show U256 ((r : Int) * b) = ((r * b % 2 ^ 256 : Nat) : Int) by rw [← Nat.cast_mul, U256_natCast],
            ih _ _ _ (Nat.mod_lt _ (by decide)), hsplit, hpow, h1, Nat.pow_one, ← Nat.mul_assoc]
          exact congrArg _ ((Nat.mod_modEq _ _).mul ((Nat.mod_modEq _ _).pow _))
      · next h1 =>
          rw [ih _ _ _ hr, hsplit, hpow, show e % 2 = 0 by omega, Nat.pow_zero, Nat.one_mul]
          exact congrArg _ ((Nat.ModEq.refl r).mul ((Nat.mod_modEq _ _).pow _))

/-- `Exp` of words is the power modulo `2 ^ 256`.

The limbs hold every bit of the exponent. -/
theorem Exp_natCast (x y : Nat) : Exp x y = ((x ^ y % 2 ^ 256 : Nat) : Int) := by
  unfold Exp bitsLen
  rw [Int.natAbs_natCast, show (1 : Int) = ((1 : Nat) : Int) from rfl, expLoop_natCast _ _ _ _ (by decide),
    Nat.one_mul]
  have hy : y < 2 ^ (64 * ((BitLen y + 63) / 64)) := (BitLen_le_iff y _).mp (by omega)
  rw [Nat.mod_eq_of_lt hy]

/-- The loop squares the caller's `base` once for each bit it runs over. -/
theorem expBase_natCast (n b : Nat) (hb : b < 2 ^ 256) : expBase n b = ((b ^ 2 ^ n % 2 ^ 256 : Nat) : Int) := by
  induction n generalizing b with
  | zero => rw [expBase, Nat.pow_zero, Nat.pow_one, Nat.mod_eq_of_lt hb]
  | succ n ih =>
      rw [expBase, ← Nat.cast_mul, U256_natCast, ih _ (Nat.mod_lt _ (by decide)), ← Nat.pow_mod, ← Nat.pow_two,
        ← Nat.pow_mul, ← Nat.pow_succ']

/-- A unit modulo `2 ^ k` that its power `2 ^ n` leaves alone is `1`: its
order divides the odd `2 ^ n - 1` and the order `2 ^ (k - 1)` of the
group. -/
theorem units_eq_one_of_pow_two_pow {k n : Nat} (hk : 0 < k) (hn : 0 < n) {u : (ZMod (2 ^ k))ˣ}
    (h : u ^ 2 ^ n = u) : u = 1 := by
  have hpos : 2 ^ n ≠ 0 := Nat.pos_iff_ne_zero.mp (Nat.two_pow_pos n)
  have h1 : u ^ (2 ^ n - 1) = 1 := by
    have hmul := pow_sub_one_mul hpos u
    rw [h] at hmul
    exact mul_eq_right.mp hmul
  have hdvd1 : orderOf u ∣ 2 ^ n - 1 := orderOf_dvd_of_pow_eq_one h1
  have hdvd2 : orderOf u ∣ 2 ^ (k - 1) := by
    have hcard : orderOf u ∣ Fintype.card (ZMod (2 ^ k))ˣ := orderOf_dvd_card
    rwa [ZMod.card_units_eq_totient, Nat.totient_prime_pow Nat.prime_two hk, Nat.mul_one] at hcard
  have hodd : Nat.Coprime (2 ^ n - 1) (2 ^ (k - 1)) := by
    apply Nat.Coprime.pow_right
    have h2 : 2 ∣ 2 ^ n := dvd_pow_self 2 (Nat.pos_iff_ne_zero.mp hn)
    have h3 := Nat.two_pow_pos n
    exact Nat.Coprime.symm (Nat.prime_two.coprime_iff_not_dvd.mpr (by omega))
  exact orderOf_eq_one_iff.mp (Nat.Coprime.eq_one_of_dvd (Nat.Coprime.coprime_dvd_left hdvd1 hodd) hdvd2)

/-- Squared eight times or more modulo `2 ^ 256`, a word stays what it was
only when it is `0` or `1`.

An even word: its power has `2 ^ n ≥ 256` factors two. An odd word is a unit
modulo `2 ^ 256` that the power leaves alone. -/
theorem pow_two_pow_mod_eq_self {b n : Nat} (hb : b < 2 ^ 256) (hn : 8 ≤ n) :
    b ^ 2 ^ n % 2 ^ 256 = b ↔ b ≤ 1 := by
  have hbig : 256 ≤ 2 ^ n := (Nat.pow_le_pow_right (by decide) hn).trans' (by decide)
  constructor
  · intro h
    rcases Nat.mod_two_eq_zero_or_one b with heven | hodd
    · obtain ⟨c, rfl⟩ : ∃ c, b = 2 * c := ⟨b / 2, by omega⟩
      have hdvd : 2 ^ 256 ∣ (2 * c) ^ 2 ^ n := by
        rw [Nat.mul_pow]
        exact Dvd.dvd.mul_right (Nat.pow_dvd_pow 2 hbig) _
      rw [Nat.mod_eq_zero_of_dvd hdvd] at h
      omega
    · have hcop : b.Coprime (2 ^ 256) :=
        Nat.Coprime.pow_right 256 (Nat.prime_two.coprime_iff_not_dvd.mpr (by omega)).symm
      have hfix : ZMod.unitOfCoprime b hcop ^ 2 ^ n = ZMod.unitOfCoprime b hcop := by
        apply Units.ext
        rw [Units.val_pow_eq_pow_val, ZMod.coe_unitOfCoprime, ← Nat.cast_pow,
          ZMod.natCast_eq_natCast_iff', h, Nat.mod_eq_of_lt hb]
      have hone := congrArg Units.val (units_eq_one_of_pow_two_pow (by decide) (by omega) hfix)
      rw [ZMod.coe_unitOfCoprime, Units.val_one, ← Nat.cast_one, ZMod.natCast_eq_natCast_iff',
        Nat.mod_eq_of_lt hb] at hone
      omega
  · intro h
    rcases Nat.le_one_iff_eq_zero_or_eq_one.mp h with rfl | rfl
    · rw [Nat.zero_pow (Nat.two_pow_pos n), Nat.zero_mod]
    · rw [Nat.one_pow, Nat.mod_eq_of_lt hb]

/-- An exponent above zero has a limb. -/
theorem one_le_bitsLen {e : Nat} (he : 0 < e) : 1 ≤ bitsLen e := by
  have hbits : BitLen e ≠ 0 := fun h => Nat.pos_iff_ne_zero.mp he (BitLen_eq_zero.mp h)
  unfold bitsLen
  rw [Int.natAbs_natCast]
  omega

/-- `Exp` returns the power modulo `2 ^ 256` in a new value, but the
caller's `base` does not keep its value: the loop leaves in it the base
squared `64` times for every limb of the exponent, which is the base again
only for a zero exponent or a base of `0` or `1`.

No limb: the loop does not run. -/
theorem Exp_changes_base (b e : Nat) (hb : b < 2 ^ 256) :
    (ExpEffect b e).1 = ((b ^ e % 2 ^ 256 : Nat) : Int) ∧ ((ExpEffect b e).2 = b ↔ e = 0 ∨ b ≤ 1) := by
  refine ⟨Exp_natCast b e, ?_⟩
  rw [ExpEffect, expBase_natCast _ _ hb, Nat.cast_inj]
  rcases Nat.eq_zero_or_pos e with rfl | he
  · have hzero : bitsLen ((0 : Nat) : Int) = 0 := rfl
    rw [hzero, Nat.mul_zero, Nat.pow_zero, Nat.pow_one, Nat.mod_eq_of_lt hb]
    exact iff_of_true rfl (.inl rfl)
  · have hlen := one_le_bitsLen he
    rw [pow_two_pow_mod_eq_self hb (by omega)]
    simp only [Nat.pos_iff_ne_zero.mp he, false_or]

/-- `2 ^ 1` is `2`, and the caller's base `2` is left as `0`. -/
theorem Exp_changes_base_two : (ExpEffect (2 : Nat) (1 : Nat)).1 = 2 ∧ (ExpEffect (2 : Nat) (1 : Nat)).2 ≠ 2 := by
  obtain ⟨hres, hbase⟩ := Exp_changes_base 2 1 (by decide)
  exact ⟨hres.trans (by decide), fun h => absurd (hbase.mp (h.trans (by decide))) (by decide)⟩

/-! ## `Byte` -/

/-- The byte `n` of a non-negative number, from its limbs.

Past the last limb the byte is zero. The byte lies inside the limb. -/
theorem bigEndianByteAt_natCast (x n : Nat) : (bigEndianByteAt x n).toNat = x / 2 ^ (8 * n) % 256 := by
  unfold bigEndianByteAt bitsLen wordBytes
  rw [Int.natAbs_natCast]
  dsimp only
  split
  · next h =>
      have hx : x < 2 ^ (8 * n) :=
        (BitLen_le_iff x _).mp (by omega)
      rw [Nat.div_eq_of_lt hx]
      rfl
  · rw [Nat.toUInt8_eq, UInt8.toNat_ofNat', Nat.shiftRight_eq_div_pow, show (256 : Nat) = 2 ^ 8 from rfl]
    apply Nat.eq_of_testBit_eq
    intro j
    rw [Nat.testBit_mod_two_pow, Nat.testBit_div_two_pow, Nat.testBit_mod_two_pow, Nat.testBit_div_two_pow,
      Nat.testBit_mod_two_pow, Nat.testBit_div_two_pow]
    by_cases hj : j < 8
    · rw [decide_eq_true hj, decide_eq_true (by omega : j + 8 * (n % 8) < 64),
        show j + 8 * (n % 8) + 64 * (n / 8) = j + 8 * n by omega, Bool.true_and, Bool.true_and]
    · rw [decide_eq_false hj, Bool.false_and, Bool.false_and]

/-- The byte `n` of a word padded to `32` bytes, the most significant
first. -/
theorem Byte_natCast (x : Nat) {n : Nat} (hn : n < 32) :
    (Byte x 32 n).toNat = x / 2 ^ (8 * (31 - n)) % 256 := by
  rw [Byte, if_neg (by omega), bigEndianByteAt_natCast, show 32 - 1 - n = 31 - n by omega]

end Lemochain.Math
