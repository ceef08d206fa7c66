import Mathlib.Data.Nat.Bitwise

/-!
# Bit arrays packed into bytes

A bit array held in a list of bytes, most significant bit first: bit `q`
is the bit of byte `q / 8` under the mask `0x80 >>> (q % 8)`. Bits are set
by or-ing a mask into a byte (`orAt`); a mask of several bits sets a run of
them at once. This module names nothing of any implementation.

## Main results

* `maskBit_or`: a bit of an or is the or of the bits.
* `maskBit_single`, `maskBit_high`, `maskBit_low`: which bits the masks
  `0x80 >>> s`, `0xFF >>> s` and `~~~(0xFF >>> s)` hold.
* `bitAt_orAt`: or-ing a mask into byte `i` sets exactly the bits of the
  mask in that byte.
* `and_one_shiftLeft_ne_zero`: the mask `1 << k` of a bit counted from the
  least significant end tests `testBit k`.
-/

namespace Lemochain.PackedBits

/-- Bit `j` of a byte, counted from the most significant. -/
def maskBit (b : UInt8) (j : Nat) : Bool := (b &&& (0x80 >>> j.toUInt8)) != 0

/-- Bit `q` of the array; bytes past the end read as zero. -/
def bitAt (bits : List UInt8) (q : Nat) : Bool := maskBit (bits.getD (q / 8) 0) (q % 8)

/-- Byte `i` or-ed with the mask `m`. -/
def orAt (bits : List UInt8) (i : Nat) (m : UInt8) : List UInt8 := bits.modify i (· ||| m)

set_option maxRecDepth 2000 in
theorem toNat_single : ∀ j < 8, ((0x80 : UInt8) >>> j.toUInt8).toNat = 2 ^ (7 - j) := by
  decide

/-- A bit of a byte is a bit of its value. -/
theorem maskBit_eq_testBit (b : UInt8) {j : Nat} (hj : j < 8) : maskBit b j = b.toNat.testBit (7 - j) := by
  have hm := toNat_single j hj
  have hand : (b &&& (0x80 >>> j.toUInt8)).toNat = (b.toNat.testBit (7 - j)).toNat * 2 ^ (7 - j) := by
    rw [UInt8.toNat_and, hm, Nat.and_two_pow]
  unfold maskBit
  cases ht : b.toNat.testBit (7 - j) with
  | false =>
      rw [ht] at hand
      have h0 : b &&& (0x80 >>> j.toUInt8) = 0 := UInt8.toNat_inj.mp (by simpa using hand)
      simp [h0]
  | true =>
      rw [ht] at hand
      have hne : b &&& (0x80 >>> j.toUInt8) ≠ 0 := fun h => by
        rw [h] at hand
        exact absurd hand.symm (by simp)
      simpa using hne

theorem maskBit_or (a c : UInt8) {j : Nat} (hj : j < 8) : maskBit (a ||| c) j = (maskBit a j || maskBit c j) := by
  rw [maskBit_eq_testBit _ hj, maskBit_eq_testBit _ hj, maskBit_eq_testBit _ hj, UInt8.toNat_or, Nat.testBit_or]

theorem maskBit_and (a c : UInt8) {j : Nat} (hj : j < 8) :
    maskBit (a &&& c) j = (maskBit a j && maskBit c j) := by
  rw [maskBit_eq_testBit _ hj, maskBit_eq_testBit _ hj, maskBit_eq_testBit _ hj, UInt8.toNat_and, Nat.testBit_and]

theorem maskBit_zero (j : Nat) : maskBit 0 j = false := by
  simp [maskBit]

set_option maxRecDepth 4000 in
/-- The mask of one bit. -/
theorem maskBit_single : ∀ s < 8, ∀ j < 8, maskBit ((0x80 : UInt8) >>> s.toUInt8) j = decide (j = s) := by
  decide

set_option maxRecDepth 4000 in
/-- The mask of the bits from `s` on. -/
theorem maskBit_high : ∀ s < 8, ∀ j < 8, maskBit ((0xFF : UInt8) >>> s.toUInt8) j = decide (s ≤ j) := by
  decide

set_option maxRecDepth 4000 in
/-- The mask of the bits before `s`. -/
theorem maskBit_low : ∀ s < 8, ∀ j < 8, maskBit (~~~((0xFF : UInt8) >>> s.toUInt8)) j = decide (j < s) := by
  decide

set_option maxRecDepth 4000 in
/-- The mask `1 << (7 - k)` is the mask of bit `k` from the most significant. -/
theorem one_shiftLeft_eq : ∀ k < 8, ((1 : UInt8) <<< (7 - k).toUInt8) = (0x80 : UInt8) >>> k.toUInt8 := by
  decide

set_option maxRecDepth 4000 in
theorem one_shiftLeft_eq' : ∀ k < 8, ((1 : UInt8) <<< k.toUInt8) = (0x80 : UInt8) >>> (7 - k).toUInt8 := by
  decide

/-- The mask `1 << k` tests bit `k` of a byte, counted from the least
significant. -/
theorem and_one_shiftLeft_ne_zero (b : UInt8) {k : Nat} (hk : k < 8) :
    (b &&& ((1 : UInt8) <<< k.toUInt8)) ≠ 0 ↔ b.toNat.testBit k = true := by
  have hm := maskBit_eq_testBit b (show 7 - k < 8 by omega)
  rw [show 7 - (7 - k) = k by omega] at hm
  rw [← hm, maskBit, ← one_shiftLeft_eq' k hk]
  simp

@[simp] theorem length_orAt (bits : List UInt8) (i : Nat) (m : UInt8) : (orAt bits i m).length = bits.length :=
  List.length_modify _ _ _

/-- Or-ing a mask into byte `i` sets the bits of the mask in that byte and
no other. -/
theorem bitAt_orAt {bits : List UInt8} {i : Nat} (hi : i < bits.length) (m : UInt8) (q : Nat) :
    bitAt (orAt bits i m) q = (bitAt bits q || decide (q / 8 = i) && maskBit m (q % 8)) := by
  have hq : q % 8 < 8 := Nat.mod_lt _ (by decide)
  unfold bitAt orAt
  by_cases hqi : q / 8 = i
  · subst hqi
    have hget : (bits.modify (q / 8) (· ||| m)).getD (q / 8) 0 = bits.getD (q / 8) 0 ||| m := by
      simp [List.getD_eq_getElem?_getD, List.getElem?_eq_getElem hi]
    rw [hget, maskBit_or _ _ hq]
    simp
  · have hget : (bits.modify i (· ||| m)).getD (q / 8) 0 = bits.getD (q / 8) 0 := by
      simp [List.getD_eq_getElem?_getD, Ne.symm hqi]
    rw [hget]
    simp [hqi]

set_option maxRecDepth 4000 in
theorem maskBit_ff : ∀ j < 8, maskBit 0xFF j = true := by
  decide

/-- Every bit of an array of `0xFF` bytes is set. -/
theorem bitAt_replicate_ff {n q : Nat} (hq : q / 8 < n) : bitAt (List.replicate n 0xFF) q = true := by
  rw [bitAt, List.getD_eq_getElem?_getD, List.getElem?_replicate, if_pos hq, Option.getD_some]
  exact maskBit_ff _ (Nat.mod_lt _ (by decide))

/-- A bit of the bytewise and of two arrays is the and of their bits; the
shorter array decides where the and stops. -/
theorem bitAt_zipWith_and (a b : List UInt8) (q : Nat) :
    bitAt (a.zipWith (· &&& ·) b) q = (bitAt a q && bitAt b q) := by
  have hq : q % 8 < 8 := Nat.mod_lt _ (by decide)
  unfold bitAt
  rw [List.getD_eq_getElem?_getD, List.getD_eq_getElem?_getD, List.getD_eq_getElem?_getD, List.getElem?_zipWith]
  cases a[q / 8]? <;> cases b[q / 8]? <;> simp [maskBit_zero, maskBit_and _ _ hq]

/-- A bit of the bytewise or of two arrays of one length is the or of their
bits.

The arrays have one length, so they end together. -/
theorem bitAt_zipWith_or {a b : List UInt8} (h : a.length = b.length) (q : Nat) :
    bitAt (a.zipWith (· ||| ·) b) q = (bitAt a q || bitAt b q) := by
  have hq : q % 8 < 8 := Nat.mod_lt _ (by decide)
  unfold bitAt
  rw [List.getD_eq_getElem?_getD, List.getD_eq_getElem?_getD, List.getD_eq_getElem?_getD, List.getElem?_zipWith]
  cases ha : a[q / 8]? <;> cases hb : b[q / 8]?
  · simp [maskBit_zero]
  · have := List.getElem?_eq_none_iff.mp ha
    have := (List.getElem?_eq_some_iff.mp hb).1
    omega
  · have := List.getElem?_eq_none_iff.mp hb
    have := (List.getElem?_eq_some_iff.mp ha).1
    omega
  · simp [maskBit_or _ _ hq]

theorem bitAt_replicate_zero (n q : Nat) : bitAt (List.replicate n 0) q = false := by
  have hget : (List.replicate n (0 : UInt8)).getD (q / 8) 0 = 0 := by
    rw [List.getD_eq_getElem?_getD, List.getElem?_replicate]
    split <;> rfl
  rw [bitAt, hget, maskBit_zero]

end Lemochain.PackedBits
