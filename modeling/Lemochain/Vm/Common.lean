import Mathlib.Data.List.GetD
import Mathlib.Order.Lattice.Nat
import Lemochain.Common.Math
import Lemochain.Abi.Codec

/-!
# Errors and helpers of the virtual machine (`core/vm/errors.go`, `core/vm/common.go`)

`getData` reads `size` bytes of `data` from `start` on and pads them with
zeros. Its offsets are `uint64`: `start` is clamped to the data, but the end
`start + size` is a `uint64` sum that wraps, and a slice `data[start:end]`
whose end falls below its start panics (`none` here). The padding goes
through `int(size)`, negative from `2 ^ 63` on, which pads nothing.

## Main results

* `getData_eq`: without a wrap, and for a size below `2 ^ 63`, `getData` is
  the zero-padded slice `paddedSlice`.
* `getData_eq_none_iff`: `getData` panics exactly when the end wraps.
-/

namespace Lemochain.Vm

open Lemochain.Math Lemochain.Abi

/-- The errors of the virtual machine the model returns. -/
inductive VmError where
  | ErrOutOfGas
  | ErrCodeStoreOutOfGas
  | ErrDepth
  | ErrInsufficientBalance
  | ErrContractAddressCollision
  | errGasUintOverflow
  | errWriteProtection
  | errExecutionReverted
  | errMaxCodeSizeExceeded
  deriving DecidableEq, Repr

/-- `int(x)` of a `uint64`: two's complement, negative from `2 ^ 63` on. -/
def goInt (x : UInt64) : Int := x.toInt64.toInt

/-- `getData`: `size` bytes of `data` from `start`, right-padded with
zeros; the end of the slice is a wrapping `uint64` sum. -/
def getData (data : Bytes) (start size : UInt64) : Option Bytes :=
  let length := data.length.toUInt64
  let start := if start > length then length else start
  let end' := if start + size > length then length else start + size
  if start ≤ end' then
    some (RightPadBytes ((data.drop start.toNat).take (end' - start).toNat) (goInt size).toNat)
  else none

/-- `toWordSize`: the words of `32` bytes that hold `size` bytes. -/
def toWordSize (size : UInt64) : UInt64 :=
  if size > MaxUint64 - 31 then MaxUint64 / 32 + 1 else (size + 31) / 32

/-- `bigUint64`: the low `64` bits of a word and whether it is wider. -/
def bigUint64 (v : Nat) : UInt64 × Bool := (v.toUInt64, BitLen v > 64)

/-- `calcMemSize`: the memory an access of `l` bytes at `off` needs. -/
def calcMemSize (off l : Nat) : Nat := if l = 0 then 0 else off + l

/-- The specification of a padded read: byte `i` of the result is byte
`start + i` of the data, or zero past its end. -/
def paddedSlice (data : Bytes) (start size : Nat) : Bytes :=
  (List.range size).map fun i => data.getD (start + i) 0

/-! ## Reading `uint64` comparisons as numbers -/

theorem toNat_clamp (a b : UInt64) : (if a > b then b else a).toNat = min a.toNat b.toNat := by
  split
  · next h =>
      rw [gt_iff_lt, UInt64.lt_iff_toNat_lt] at h
      omega
  · next h =>
      rw [gt_iff_lt, UInt64.lt_iff_toNat_lt] at h
      omega

theorem goInt_toNat (x : UInt64) : (goInt x).toNat = if x.toNat < 2 ^ 63 then x.toNat else 0 := by
  show (x.toBitVec.toInt).toNat = _
  rw [BitVec.toInt_eq_toNat_cond]
  have hx := x.toNat_lt
  have hbv : x.toBitVec.toNat = x.toNat := rfl
  rw [hbv]
  split <;> split <;> omega

theorem toNat_toUInt64_length {data : Bytes} (hlen : data.length < 2 ^ 64) :
    data.length.toUInt64.toNat = data.length := by
  rw [Nat.toUInt64_eq, UInt64.toNat_ofNat', Nat.mod_eq_of_lt hlen]

/-! ## The padded slice -/

@[simp] theorem paddedSlice_length (data : Bytes) (start size : Nat) :
    (paddedSlice data start size).length = size := by
  simp [paddedSlice]

/-- Past the end of the data a padded read is all zeros, wherever it starts. -/
theorem paddedSlice_of_length_le {data : Bytes} {s t : Nat} (hs : data.length ≤ s) (ht : data.length ≤ t)
    (n : Nat) : paddedSlice data s n = paddedSlice data t n := by
  have hz : ∀ u, data.length ≤ u → ∀ i, data.getD (u + i) 0 = 0 := fun u hu i =>
    List.getD_eq_default _ _ (by omega)
  simp only [paddedSlice, hz s hs, hz t ht]

/-- The slice padded by `RightPadBytes` is the padded read. -/
theorem RightPadBytes_take_drop (data : Bytes) (s n : Nat) :
    RightPadBytes ((data.drop s).take n) n = paddedSlice data s n := by
  have htake : ((data.drop s).take n).length = min n (data.length - s) := by simp
  apply List.ext_getElem
  · unfold RightPadBytes
    split
    · simp [htake]; omega
    · simp [htake]
  · intro i h₁ h₂
    have hi : i < n := by simpa using h₂
    simp only [paddedSlice, List.getElem_map, List.getElem_range]
    unfold RightPadBytes at h₁ ⊢
    split
    · next hle =>
        simp only [List.getElem_take, List.getElem_drop]
        rw [List.getD_eq_getElem _ _ (by omega)]
    · by_cases hin : i < ((data.drop s).take n).length
      · rw [List.getElem_append_left hin, List.getElem_take, List.getElem_drop,
          List.getD_eq_getElem _ _ (by omega)]
      · rw [List.getElem_append_right (by omega), List.getElem_replicate,
          List.getD_eq_default _ _ (by omega)]

/-! ## `getData` -/

/-- The two cases of `getData`: the slice between the clamped start and the
clamped wrapping end, or a panic when the end falls below the start. -/
theorem getData_cases {data : Bytes} (hlen : data.length < 2 ^ 64) (start size : UInt64) :
    let s := min start.toNat data.length
    let e := min ((s + size.toNat) % 2 ^ 64) data.length
    getData data start size =
      if s ≤ e then some (RightPadBytes ((data.drop s).take (e - s)) (goInt size).toNat) else none := by
  intro s e
  have hl := toNat_toUInt64_length hlen
  have hs : (if start > data.length.toUInt64 then data.length.toUInt64 else start).toNat = s := by
    rw [toNat_clamp, hl]
  have he : (if (if start > data.length.toUInt64 then data.length.toUInt64 else start) + size >
      data.length.toUInt64 then data.length.toUInt64 else
      (if start > data.length.toUInt64 then data.length.toUInt64 else start) + size).toNat = e := by
    rw [toNat_clamp, UInt64.toNat_add, hs, hl]
  have hle : ((if start > data.length.toUInt64 then data.length.toUInt64 else start) ≤
      (if (if start > data.length.toUInt64 then data.length.toUInt64 else start) + size >
      data.length.toUInt64 then data.length.toUInt64 else
      (if start > data.length.toUInt64 then data.length.toUInt64 else start) + size)) ↔ s ≤ e := by
    rw [UInt64.le_iff_toNat_le, hs, he]
  simp only [getData]
  by_cases h : s ≤ e
  · rw [if_pos (hle.mpr h), if_pos h, UInt64.toNat_sub_of_le _ _ (hle.mpr h), hs, he]
  · rw [if_neg (mt hle.mp h), if_neg h]

/-- Without a wrap, and for a size `int` keeps positive, `getData` is the
padded read.

The slice ends at the end of the data or after `size` bytes. -/
theorem getData_eq {data : Bytes} {start size : UInt64} (hlen : data.length < 2 ^ 64)
    (hsize : size.toNat < 2 ^ 63) (hwrap : min start.toNat data.length + size.toNat < 2 ^ 64) :
    getData data start size = some (paddedSlice data start.toNat size.toNat) := by
  have hse : min start.toNat data.length ≤ min (min start.toNat data.length + size.toNat) data.length := by
    omega
  rw [getData_cases hlen, Nat.mod_eq_of_lt hwrap, if_pos hse, goInt_toNat, if_pos hsize]
  have htake : (data.drop (min start.toNat data.length)).take
      (min (min start.toNat data.length + size.toNat) data.length - min start.toNat data.length) =
      (data.drop (min start.toNat data.length)).take size.toNat := by
    rw [List.take_eq_take_iff, List.length_drop]
    omega
  rw [htake, RightPadBytes_take_drop]
  by_cases hs : start.toNat ≤ data.length
  · rw [Nat.min_eq_left hs]
  · rw [Nat.min_eq_right (show data.length ≤ start.toNat by omega),
      paddedSlice_of_length_le (le_refl _) (show data.length ≤ start.toNat by omega)]

/-- `getData` panics exactly when the end `start + size` of the clamped
start wraps. -/
theorem getData_eq_none_iff {data : Bytes} (hlen : data.length < 2 ^ 64) (start size : UInt64) :
    getData data start size = none ↔ 2 ^ 64 ≤ min start.toNat data.length + size.toNat := by
  have hsz := size.toNat_lt
  rw [getData_cases hlen]
  split
  · next h =>
      simp only [reduceCtorEq, false_iff, not_le]
      by_contra hw
      rw [Nat.mod_eq_sub_mod (by omega), Nat.mod_eq_of_lt (by omega)] at h
      omega
  · next h =>
      simp only [true_iff]
      by_contra hw
      rw [Nat.mod_eq_of_lt (by omega)] at h
      omega

end Lemochain.Vm
