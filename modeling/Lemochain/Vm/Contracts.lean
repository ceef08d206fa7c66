import Lemochain.Params
import Lemochain.Vm.Common

/-!
# The modular exponentiation precompile (`core/vm/contracts.go`)

`bigModExp` reads three 32-byte length words, then the base, exponent and
modulus of those lengths, and returns `B ^ E mod M` left-padded to the
modulus length. `RequiredGas` computes on the full words (`*big.Int`);
`Run` truncates them to `uint64` and reads the operands with `getData`,
whose end wraps (`Lemochain.Vm.Common`).

## Main results

* `bigModExp_RequiredGas_isSome`: the gas function never panics on an input
  Go can hold.
* `bigModExp_Run_spec`: when the three lengths sum below `2 ^ 63`, `Run`
  returns the specification `modExpSpec`.
* `bigModExp_Run_eq_none_of_wrap`: when the base and exponent lengths sum
  past `2 ^ 64`, the read of the exponent wraps and `Run` panics;
  `bigModExp_Run_wrapped_exponent` is such an input, with a call that pays
  its full gas.
-/

namespace Lemochain.Vm

open Lemochain.Math Lemochain.Abi Lemochain.Rlp Lemochain.Params

/-- `PrecompiledContract`: the gas a call costs and what it returns; `none`
is a panic. -/
structure PrecompiledContract where
  RequiredGas : Bytes → Option UInt64
  Run : Bytes → Option (Except VmError Bytes)

/-- `RunPrecompiledContract`, with the gas of the calling contract: the
result and the gas left.

`contract.UseGas` fails and leaves the gas as it is. -/
def RunPrecompiledContract (p : PrecompiledContract) (input : Bytes) (gas : UInt64) :
    Option (Except VmError Bytes × UInt64) := do
  let required ← p.RequiredGas input
  if gas < required then pure (.error .ErrOutOfGas, gas)
  else do
    let ret ← p.Run input
    pure (ret, gas - required)

/-- `(*big.Int).Bytes`: big-endian, without leading zero bytes. -/
def bigIntBytes (x : Nat) : Bytes := bigEndian ((BitLen x + 7) / 8) x

/-- `bigModExp.RequiredGas`.

The head 32 bytes of the exponent, for the adjusted exponent length. The
subtractions are of smaller numbers on their branches. -/
def bigModExp.RequiredGas (input : Bytes) : Option UInt64 := do
  let baseLen := beValue (← getData input 0 32)
  let expLen := beValue (← getData input 32 32)
  let modLen := beValue (← getData input 64 32)
  let input := if input.length > 96 then input.drop 96 else []
  let expHead ← if input.length ≤ baseLen then pure 0
    else if expLen > 32 then beValue <$> getData input baseLen.toUInt64 32
    else beValue <$> getData input baseLen.toUInt64 expLen.toUInt64
  let msb := if BitLen expHead > 0 then BitLen expHead - 1 else 0
  let adjExpLen := (if expLen > 32 then 8 * (expLen - 32) else 0) + msb
  let gas := max modLen baseLen
  let gas :=
    if gas ≤ 64 then gas * gas
    else if gas ≤ 1024 then gas * gas / 4 + (96 * gas - 3072)
    else gas * gas / 16 + (480 * gas - 199680)
  let gas := gas * max adjExpLen 1 / ModExpQuadCoeffDiv.toNat
  pure (if BitLen gas > 64 then MaxUint64 else gas.toUInt64)

/-- `bigModExp.Run`.

Modulo `0` is undefined, the result is zero. -/
def bigModExp.Run (input : Bytes) : Option (Except VmError Bytes) := do
  let baseLen := (beValue (← getData input 0 32)).toUInt64
  let expLen := (beValue (← getData input 32 32)).toUInt64
  let modLen := (beValue (← getData input 64 32)).toUInt64
  let input := if input.length > 96 then input.drop 96 else []
  if baseLen = 0 ∧ modLen = 0 then pure (.ok [])
  else do
    let base := beValue (← getData input 0 baseLen)
    let exp := beValue (← getData input baseLen expLen)
    let mod := beValue (← getData input (baseLen + expLen) modLen)
    if BitLen mod = 0 then pure (.ok (LeftPadBytes [] (goInt modLen).toNat))
    else pure (.ok (LeftPadBytes (bigIntBytes (base ^ exp % mod)) (goInt modLen).toNat))

/-- `bigModExp`. -/
def bigModExp : PrecompiledContract := ⟨bigModExp.RequiredGas, bigModExp.Run⟩

/-! ## The specification -/

/-- The three length words of the header, as full 256-bit numbers. -/
def modExpHeader (input : Bytes) : Nat × Nat × Nat :=
  (beValue (paddedSlice input 0 32), beValue (paddedSlice input 32 32), beValue (paddedSlice input 64 32))

/-- What the precompile computes: the operands are padded reads of the body
at the offsets the header gives, and the result is `B ^ E mod M` in
`modLen` bytes, empty when both the base and the modulus are empty and zero
for a zero modulus. -/
def modExpSpec (input : Bytes) : Bytes :=
  let (baseLen, expLen, modLen) := modExpHeader input
  let body := input.drop 96
  let B := beValue (paddedSlice body 0 baseLen)
  let E := beValue (paddedSlice body baseLen expLen)
  let M := beValue (paddedSlice body (baseLen + expLen) modLen)
  if baseLen = 0 ∧ modLen = 0 then []
  else if M = 0 then List.replicate modLen 0
  else bigEndian modLen (B ^ E % M)

theorem bigEndian_zero (n : Nat) : bigEndian n 0 = List.replicate n 0 := by
  induction n with
  | zero => rfl
  | succ n ih =>
      rw [bigEndian_succ, Nat.zero_div, ih, List.replicate_succ']
      rfl

/-- A number below `256 ^ n`, in its minimal bytes left-padded to `n`, is
its `n` big-endian bytes.

The minimal bytes hold `x` and are at most `n`. -/
theorem LeftPadBytes_bigIntBytes {x n : Nat} (h : x < 256 ^ n) :
    LeftPadBytes (bigIntBytes x) n = bigEndian n x := by
  have hpow : ∀ k, (256 : Nat) ^ k = 2 ^ (8 * k) := fun k => by rw [Nat.pow_mul]
  have hbits : BitLen x ≤ 8 * n := (BitLen_le_iff x _).mpr (hpow n ▸ h)
  have hk : (BitLen x + 7) / 8 ≤ n := by omega
  have hx : x < 256 ^ ((BitLen x + 7) / 8) :=
    hpow _ ▸ (BitLen_le_iff x _).mp (by omega)
  unfold LeftPadBytes bigIntBytes
  rw [bigEndian_length]
  split
  · next hle =>
      rw [show (BitLen x + 7) / 8 = n by omega]
  · rw [← bigEndian_zero, ← Nat.div_eq_of_lt hx, ← bigEndian_add, Nat.sub_add_cancel hk]

/-- The minimal bytes of `x` read back as `x`. -/
theorem beValue_bigIntBytes (x : Nat) : beValue (bigIntBytes x) = x := by
  have hx : x < 256 ^ ((BitLen x + 7) / 8) := by
    rw [show (256 : Nat) = 2 ^ 8 from rfl, ← Nat.pow_mul]
    exact (BitLen_le_iff x _).mp (by omega)
  rw [bigIntBytes, beValue_bigEndian, Nat.mod_eq_of_lt hx]

theorem length_bigIntBytes_le {x n : Nat} (h : x < 2 ^ (8 * n)) : (bigIntBytes x).length ≤ n := by
  have := (BitLen_le_iff x _).mpr h
  rw [bigIntBytes, bigEndian_length]
  omega

theorem LeftPadBytes_nil (n : Nat) : LeftPadBytes [] n = List.replicate n 0 := by
  unfold LeftPadBytes
  split
  · next h =>
      rw [List.length_nil, Nat.le_zero] at h
      rw [h, List.replicate_zero]
  · simp

/-! ## Reading the header -/

section Header

variable {input : Bytes}

/-- A header word read in full. -/
theorem getData_header (hlen : input.length < 2 ^ 63) (k : UInt64) (hk : k.toNat ≤ 64) :
    getData input k 32 = some (paddedSlice input k.toNat 32) :=
  getData_eq (by omega) (by decide) (by simp only [UInt64.reduceToNat]; omega)

/-- The body after the header. -/
theorem body_eq (input : Bytes) : (if input.length > 96 then input.drop 96 else []) = input.drop 96 := by
  split
  · rfl
  · next h => rw [List.drop_eq_nil_of_le (by omega)]

theorem toNat_toUInt64_of_lt {n : Nat} (h : n < 2 ^ 64) : n.toUInt64.toNat = n := by
  rw [Nat.toUInt64_eq, UInt64.toNat_ofNat', Nat.mod_eq_of_lt h]

end Header

/-- The gas function never panics on an input Go can hold: its reads of the
exponent's head start inside the body.

A read that does not wrap returns. The head of the exponent is read only
when the base ends inside the body. -/
theorem bigModExp_RequiredGas_isSome {input : Bytes} (hlen : input.length < 2 ^ 63) :
    ∃ g, bigModExp.RequiredGas input = some g := by
  have hb63 : (input.drop 96).length < 2 ^ 63 := by rw [List.length_drop]; omega
  have hbody : (input.drop 96).length < 2 ^ 64 := by omega
  have hsome : ∀ s z : UInt64, min s.toNat (input.drop 96).length + z.toNat < 2 ^ 64 →
      ∃ r, getData (input.drop 96) s z = some r := fun s z h =>
    Option.ne_none_iff_exists'.mp (mt (getData_eq_none_iff hbody s z).mp (by omega))
  simp only [bigModExp.RequiredGas, getData_header hlen 0 (by decide), getData_header hlen 32 (by decide),
    getData_header hlen 64 (by decide), body_eq, UInt64.reduceToNat, Option.bind_eq_bind, Option.bind_some]
  split
  · exact ⟨_, rfl⟩
  · next hb =>
      have hbl : (beValue (paddedSlice input 0 32)).toUInt64.toNat = beValue (paddedSlice input 0 32) :=
        toNat_toUInt64_of_lt (by omega)
      split
      · obtain ⟨r, hr⟩ := hsome (beValue (paddedSlice input 0 32)).toUInt64 32
          (by rw [hbl]; simp only [UInt64.reduceToNat]; omega)
        exact ⟨_, by rw [hr]; rfl⟩
      · next he =>
          have hel : (beValue (paddedSlice input 32 32)).toUInt64.toNat = beValue (paddedSlice input 32 32) :=
            toNat_toUInt64_of_lt (by omega)
          obtain ⟨r, hr⟩ := hsome (beValue (paddedSlice input 0 32)).toUInt64
            (beValue (paddedSlice input 32 32)).toUInt64 (by rw [hbl, hel]; omega)
          exact ⟨_, by rw [hr]; rfl⟩

/-- When the three lengths sum below `2 ^ 63`, no read of an operand wraps
and `int` keeps the modulus length positive: `Run` returns the
specification.

The three operands are padded reads of the body. A zero modulus gives zeros,
any other the residue in `modLen` bytes. -/
theorem bigModExp_Run_spec {input : Bytes} (hlen : input.length < 2 ^ 63)
    (hfit : (modExpHeader input).1 + (modExpHeader input).2.1 + (modExpHeader input).2.2 < 2 ^ 63) :
    bigModExp.Run input = some (.ok (modExpSpec input)) := by
  set b := beValue (paddedSlice input 0 32)
  set e := beValue (paddedSlice input 32 32)
  set m := beValue (paddedSlice input 64 32)
  have hH : modExpHeader input = (b, e, m) := rfl
  rw [hH] at hfit
  have hb : b.toUInt64.toNat = b := toNat_toUInt64_of_lt (by simp only at hfit; omega)
  have he : e.toUInt64.toNat = e := toNat_toUInt64_of_lt (by simp only at hfit; omega)
  have hm : m.toUInt64.toNat = m := toNat_toUInt64_of_lt (by simp only at hfit; omega)
  have hbe : (b.toUInt64 + e.toUInt64).toNat = b + e := by
    rw [UInt64.toNat_add, hb, he, Nat.mod_eq_of_lt (by simp only at hfit; omega)]
  have hbody : (input.drop 96).length < 2 ^ 63 := by rw [List.length_drop]; omega
  have hB : getData (input.drop 96) 0 b.toUInt64 = some (paddedSlice (input.drop 96) 0 b) := by
    rw [getData_eq (by omega) (by rw [hb]; simp only at hfit; omega) (by rw [hb]; simp only at hfit; omega), hb]
    rfl
  have hE : getData (input.drop 96) b.toUInt64 e.toUInt64 = some (paddedSlice (input.drop 96) b e) := by
    rw [getData_eq (by omega) (by rw [he]; simp only at hfit; omega) (by rw [hb, he]; simp only at hfit; omega),
      hb, he]
  have hM : getData (input.drop 96) (b.toUInt64 + e.toUInt64) m.toUInt64 =
      some (paddedSlice (input.drop 96) (b + e) m) := by
    rw [getData_eq (by omega) (by rw [hm]; simp only at hfit; omega) (by rw [hbe, hm]; simp only at hfit; omega),
      hbe, hm]
  have hz : (b.toUInt64 = 0 ∧ m.toUInt64 = 0) ↔ (b = 0 ∧ m = 0) := by
    rw [← UInt64.toNat_inj, ← UInt64.toNat_inj, hb, hm, UInt64.toNat_zero]
  have hgm : (goInt m.toUInt64).toNat = m := by
    rw [goInt_toNat, hm, if_pos (by simp only at hfit; omega)]
  unfold modExpSpec
  rw [hH]
  simp only [bigModExp.Run, getData_header hlen 0 (by decide), getData_header hlen 32 (by decide),
    getData_header hlen 64 (by decide), body_eq, UInt64.reduceToNat, Option.bind_eq_bind, Option.bind_some]
  by_cases h0 : b = 0 ∧ m = 0
  · rw [if_pos (hz.mpr h0), if_pos h0]
    rfl
  · rw [if_neg (mt hz.mp h0), if_neg h0]
    rw [hB, Option.bind_some, hE, Option.bind_some, hM, Option.bind_some, hgm]
    by_cases hM0 : beValue (paddedSlice (input.drop 96) (b + e) m) = 0
    · rw [if_pos (BitLen_eq_zero.mpr hM0), if_pos hM0, LeftPadBytes_nil]
      rfl
    · rw [if_neg (mt BitLen_eq_zero.mp hM0), if_neg hM0, LeftPadBytes_bigIntBytes]
      · rfl
      calc _ < beValue (paddedSlice (input.drop 96) (b + e) m) := Nat.mod_lt _ (Nat.pos_of_ne_zero hM0)
        _ < 256 ^ m := by simpa using beValue_lt (paddedSlice (input.drop 96) (b + e) m)

/-- The read of the exponent wraps whenever the base length, truncated and
clamped to the body, and the truncated exponent length sum to `2 ^ 64` or
more; unless both the base and the modulus are empty, `Run` then panics.

The base is read, and the exponent's read wraps. -/
theorem bigModExp_Run_eq_none_of_wrap {input : Bytes} (hlen : input.length < 2 ^ 63)
    (hnz : ¬ ((modExpHeader input).1 % 2 ^ 64 = 0 ∧ (modExpHeader input).2.2 % 2 ^ 64 = 0))
    (hwrap : 2 ^ 64 ≤ min ((modExpHeader input).1 % 2 ^ 64) (input.drop 96).length +
      (modExpHeader input).2.1 % 2 ^ 64) :
    bigModExp.Run input = none := by
  set b := beValue (paddedSlice input 0 32)
  set e := beValue (paddedSlice input 32 32)
  set m := beValue (paddedSlice input 64 32)
  have hH : modExpHeader input = (b, e, m) := rfl
  rw [hH] at hnz hwrap
  have hbody : (input.drop 96).length < 2 ^ 64 := by rw [List.length_drop]; omega
  have hz : ¬ (b.toUInt64 = 0 ∧ m.toUInt64 = 0) := by
    rw [← UInt64.toNat_inj, ← UInt64.toNat_inj, UInt64.toNat_zero, Nat.toUInt64_eq, Nat.toUInt64_eq,
      UInt64.toNat_ofNat', UInt64.toNat_ofNat']
    exact hnz
  obtain ⟨r, hB⟩ : ∃ r, getData (input.drop 96) 0 b.toUInt64 = some r :=
    Option.ne_none_iff_exists'.mp (mt (getData_eq_none_iff hbody 0 b.toUInt64).mp
      (by have := b.toUInt64.toNat_lt; simp only [UInt64.toNat_zero, Nat.zero_min, Nat.zero_add]; omega))
  have hE : getData (input.drop 96) b.toUInt64 e.toUInt64 = none := by
    rw [getData_eq_none_iff hbody, Nat.toUInt64_eq, Nat.toUInt64_eq, UInt64.toNat_ofNat', UInt64.toNat_ofNat']
    exact hwrap
  simp only [bigModExp.Run, getData_header hlen 0 (by decide), getData_header hlen 32 (by decide),
    getData_header hlen 64 (by decide), body_eq, UInt64.reduceToNat, Option.bind_eq_bind, Option.bind_some]
  rw [if_neg hz, hB, Option.bind_some, hE, Option.bind_none]

/-- A header of lengths `1`, `2 ^ 64 - 1` and `1` over the body `[2, 3]`:
the gas is below `2 ^ 63`, and a call that pays it panics in the read of
the exponent, whose end `1 + (2 ^ 64 - 1)` wraps to `0`. -/
theorem bigModExp_Run_wrapped_exponent :
    bigModExp.RequiredGas (bigEndian 32 1 ++ bigEndian 32 (2 ^ 64 - 1) ++ bigEndian 32 1 ++ [2, 3]) =
        some 7378697629483820645 ∧
      RunPrecompiledContract bigModExp (bigEndian 32 1 ++ bigEndian 32 (2 ^ 64 - 1) ++ bigEndian 32 1 ++ [2, 3])
        7378697629483820645 = none := by
  decide +kernel

end Lemochain.Vm
