import Lemochain.Vm.Gas

/-!
# The call gas cap of EIP-150

With a gas table from EIP-150 on, `callGas` gives the callee the smaller of
the request and all but one 64th of what is left after the base cost
(`callGas_eip150`). Whether that subtraction wraps or not, the charge of a
call step is the base cost `b` plus that gas: when `b` fits in the gas
`g`, the charge succeeds and leaves the caller at least `(g - b) / 64`
(`callGasFunc_of_le`); when it does not, the cost is above `g` and the step
fails with `ErrOutOfGas` (`callGasFunc_of_gt`).

## Main results

* `callGas_eip150`: the cap.
* `CallKind.gasCost_eq`: the four gas functions are `callGasFunc` at their
  base cost.
* `call_gas_eip150`: the charge of the four call steps.
-/

namespace Lemochain.Vm

open Lemochain.Math Lemochain.Params

/-- The base cost of a call operation, before the memory fee. -/
def CallKind.baseGas (k : CallKind) (gt : GasTable) (args : CallArgs) : UInt64 :=
  match k with
  | .call => callBaseGas gt args.eip158 args.empty args.exist args.value
  | .callCode => if args.value ≠ 0 then gt.Calls + CallValueTransferGas else gt.Calls
  | .delegateCall | .staticCall => gt.Calls

/-- The stipend a call operation adds to the callee's gas. -/
def CallKind.stipend (k : CallKind) (args : CallArgs) : Nat :=
  match k with
  | .call | .callCode => if args.value ≠ 0 then CallStipend.toNat else 0
  | .delegateCall | .staticCall => 0

/-! ## `callGas` -/

/-- From EIP-150 on, `callGas` returns the request capped at all but one
64th of `availableGas - base`, a `uint64` difference.

A request wider than 64 bits is above any cap. -/
theorem callGas_eip150 {gt : GasTable} (hgt : gt.CreateBySuicide > 0) (g b : UInt64) (r : Nat) :
    ∃ c, callGas gt g b r = .ok c ∧ c.toNat = min r ((g - b).toNat - (g - b).toNat / 64) := by
  have hcap : ((g - b) - (g - b) / 64).toNat = (g - b).toNat - (g - b).toNat / 64 := by
    rw [UInt64.toNat_sub_of_le _ _ (UInt64.le_iff_toNat_le.mpr (by rw [UInt64.toNat_div]; exact Nat.div_le_self _ _)),
      UInt64.toNat_div]
    rfl
  have hlt := (g - b).toNat_lt
  by_cases hbig : BitLen r > 64
  · have hr : 2 ^ 64 ≤ r := by
      have := mt (BitLen_le_iff r 64).mpr
      omega
    refine ⟨_, if_pos ⟨hgt, .inl hbig⟩, ?_⟩
    rw [hcap]
    omega
  · have hr : r < 2 ^ 64 := (BitLen_le_iff r 64).mp (by omega)
    have hr64 : r.toUInt64.toNat = r := by
      rw [Nat.toUInt64_eq, UInt64.toNat_ofNat', Nat.mod_eq_of_lt hr]
    by_cases hcut : (g - b) - (g - b) / 64 < r.toUInt64
    · refine ⟨_, if_pos ⟨hgt, .inr hcut⟩, ?_⟩
      rw [UInt64.lt_iff_toNat_lt, hcap, hr64] at hcut
      rw [hcap]
      omega
    · refine ⟨r.toUInt64, ?_, ?_⟩
      · rw [callGas, if_neg (by rintro ⟨-, h | h⟩ <;> contradiction), if_neg hbig]
      · rw [UInt64.lt_iff_toNat_lt, hcap, hr64] at hcut
        omega

/-! ## The shared scheme -/

section Scheme

variable {gt : GasTable} {base : UInt64} {r : Nat} {g : UInt64} {mem mem' : Memory} {ms fee : UInt64}

/-- A base cost that fits in the gas: the charge is the base cost plus the
capped request, and it fits too.

The callee's gas is at most what is left after the base cost. -/
theorem callGasFunc_of_le (hgt : gt.CreateBySuicide > 0) (hmem : memoryGasCost mem ms = .ok (fee, mem'))
    (hle : base.toNat + fee.toNat ≤ g.toNat) :
    ∃ c, callGasFunc gt base r g mem ms = .ok (base + fee + c, c, mem') ∧
      c.toNat = min r ((g.toNat - (base.toNat + fee.toNat)) - (g.toNat - (base.toNat + fee.toNat)) / 64) ∧
      (base + fee + c).toNat = base.toNat + fee.toNat + c.toNat := by
  have hg := g.toNat_lt
  have hb : (base + fee).toNat = base.toNat + fee.toNat := by
    rw [UInt64.toNat_add, Nat.mod_eq_of_lt (by omega)]
  have hsub : (g - (base + fee)).toNat = g.toNat - (base.toNat + fee.toNat) := by
    rw [UInt64.toNat_sub_of_le _ _ (UInt64.le_iff_toNat_le.mpr (by rw [hb]; exact hle)), hb]
  obtain ⟨c, hc, hcn⟩ := callGas_eip150 hgt g (base + fee) r
  rw [hsub] at hcn
  have hfit : (base + fee).toNat + c.toNat < 2 ^ 64 := by
    rw [hb, hcn]
    omega
  have hov₁ : (SafeAdd base fee).2 = false := by
    rw [SafeAdd_overflow, decide_eq_false (by omega)]
  have hov₂ : (SafeAdd (base + fee) c).2 = false := by
    rw [SafeAdd_overflow, decide_eq_false (by omega)]
  refine ⟨c, ?_, hcn, by rw [UInt64.toNat_add, Nat.mod_eq_of_lt hfit, hb]⟩
  simp only [callGasFunc, hmem, bind, Except.bind, hov₁, Bool.false_eq_true, ↓reduceIte]
  rw [show (SafeAdd base fee).1 = base + fee from rfl, hc]
  simp only [hov₂, Bool.false_eq_true, ↓reduceIte]
  rfl

/-- A base cost above the gas: whatever the wrapped cap gives, a cost
that the gas function returns is above the gas.

A sum that overflows is an error, and one that does not is at least `b`. -/
theorem callGasFunc_of_gt (hgt : gt.CreateBySuicide > 0) (hmem : memoryGasCost mem ms = .ok (fee, mem'))
    (hlt : g.toNat < base.toNat + fee.toNat) {cost c : UInt64} {m : Memory}
    (h : callGasFunc gt base r g mem ms = .ok (cost, c, m)) : g.toNat < cost.toNat := by
  simp only [callGasFunc, hmem, bind, Except.bind] at h
  cases hov₁ : (SafeAdd base fee).2 with
  | true => simp [hov₁] at h
  | false =>
      have hb : (SafeAdd base fee).1.toNat = base.toNat + fee.toNat := by
        rw [SafeAdd_overflow, decide_eq_false_iff_not, not_le] at hov₁
        exact SafeAdd_toNat hov₁
      obtain ⟨c₁, hc, -⟩ := callGas_eip150 hgt g (SafeAdd base fee).1 r
      simp only [hov₁, Bool.false_eq_true, ↓reduceIte, hc] at h
      cases hov₂ : (SafeAdd (SafeAdd base fee).1 c₁).2 with
      | true => simp [hov₂] at h
      | false =>
          simp only [hov₂, Bool.false_eq_true, ↓reduceIte] at h
          obtain ⟨rfl, -, -⟩ := h
          rw [SafeAdd_overflow, decide_eq_false_iff_not, not_le] at hov₂
          rw [SafeAdd_toNat hov₂, hb]
          omega

end Scheme

/-! ## The four operations -/

theorem gasDelegateCall_eq (gt : GasTable) (r : Nat) (g : UInt64) (mem : Memory) (ms : UInt64) :
    gasDelegateCall gt r g mem ms = callGasFunc gt gt.Calls r g mem ms := by
  simp only [gasDelegateCall, callGasFunc, SafeAdd_comm _ gt.Calls]

theorem gasStaticCall_eq (gt : GasTable) (r : Nat) (g : UInt64) (mem : Memory) (ms : UInt64) :
    gasStaticCall gt r g mem ms = callGasFunc gt gt.Calls r g mem ms := by
  simp only [gasStaticCall, callGasFunc, SafeAdd_comm _ gt.Calls]

/-- Each call operation's gas function is the scheme at its base cost. -/
theorem CallKind.gasCost_eq (k : CallKind) (gt : GasTable) (args : CallArgs) (g : UInt64) (mem : Memory)
    (ms : UInt64) : k.gasCost gt args g mem ms = callGasFunc gt (k.baseGas gt args) args.callCost g mem ms := by
  cases k with
  | call => rfl
  | callCode => rfl
  | delegateCall => exact gasDelegateCall_eq gt args.callCost g mem ms
  | staticCall => exact gasStaticCall_eq gt args.callCost g mem ms

/-- The stipend never wraps: `callGasTemp` is at most all but one 64th of
a `uint64`. -/
theorem CallKind.calleeGas_toNat (k : CallKind) (args : CallArgs) {c : UInt64} (hc : c.toNat ≤ 2 ^ 64 - 2 ^ 58) :
    (k.calleeGas args c).toNat = c.toNat + k.stipend args := by
  cases k with
  | call | callCode =>
      simp only [CallKind.calleeGas, CallKind.stipend]
      split
      · rw [UInt64.toNat_add, Nat.mod_eq_of_lt (by simp only [CallStipend, UInt64.reduceToNat]; omega)]
      · rfl
  | delegateCall | staticCall => rfl

/-- The charge of a step: the gas function returned a cost that `UseGas`
could take. -/
theorem chargeCall_ok {gasFn : Except VmError (UInt64 × UInt64 × Memory)} {g g' c : UInt64} {m : Memory}
    (h : chargeCall gasFn g = .ok (g', c, m)) :
    ∃ cost, gasFn = .ok (cost, c, m) ∧ cost.toNat ≤ g.toNat ∧ g'.toNat = g.toNat - cost.toNat := by
  unfold chargeCall at h
  split at h
  · cases h
  · next cost c₁ m₁ =>
      split at h
      · cases h
      · next hge =>
          simp only [Except.ok.injEq, Prod.mk.injEq] at h
          obtain ⟨rfl, rfl, rfl⟩ := h
          rw [UInt64.lt_iff_toNat_lt, not_lt] at hge
          exact ⟨cost, rfl, hge, UInt64.toNat_sub_of_le _ _ (UInt64.le_iff_toNat_le.mpr hge)⟩

/-- EIP-150 call gas: for each call operation, with a base cost `b` (the
value transfer, a new account and the memory fee), a charge that succeeds
had `b ≤ g`, gave the callee the request capped at all but one 64th of
`g - b` (plus the stipend with a value), and left the caller at least
`(g - b) / 64`; when `b > g` the step fails with `ErrOutOfGas`, although
the cap's subtraction wraps.

The base cost fits: otherwise the cost would be above the gas. -/
theorem call_gas_eip150 (k : CallKind) {gt : GasTable} (hgt : gt.CreateBySuicide > 0) (args : CallArgs)
    (g : UInt64) {mem mem' : Memory} {ms fee : UInt64} (hmem : memoryGasCost mem ms = .ok (fee, mem')) :
    (∀ g' c m, chargeCall (k.gasCost gt args g mem ms) g = .ok (g', c, m) →
      (k.baseGas gt args).toNat + fee.toNat ≤ g.toNat ∧
      c.toNat = min args.callCost ((g.toNat - ((k.baseGas gt args).toNat + fee.toNat)) -
        (g.toNat - ((k.baseGas gt args).toNat + fee.toNat)) / 64) ∧
      g'.toNat = g.toNat - ((k.baseGas gt args).toNat + fee.toNat) - c.toNat ∧
      (g.toNat - ((k.baseGas gt args).toNat + fee.toNat)) / 64 ≤ g'.toNat ∧
      (k.calleeGas args c).toNat = c.toNat + k.stipend args) ∧
    (g.toNat < (k.baseGas gt args).toNat + fee.toNat →
      chargeCall (k.gasCost gt args g mem ms) g = .error .ErrOutOfGas) := by
  rw [CallKind.gasCost_eq]
  have hg := g.toNat_lt
  refine ⟨fun g' c m h => ?_, fun hlt => ?_⟩
  · obtain ⟨cost, hfn, hcost, hg'⟩ := chargeCall_ok h
    have hle : (k.baseGas gt args).toNat + fee.toNat ≤ g.toNat := by
      by_contra hgt'
      have := callGasFunc_of_gt hgt hmem (by omega) hfn
      omega
    obtain ⟨c₁, hc₁, hcn, hsum⟩ := callGasFunc_of_le (r := args.callCost) hgt hmem hle
    rw [hc₁] at hfn
    simp only [Except.ok.injEq, Prod.mk.injEq] at hfn
    obtain ⟨rfl, rfl, rfl⟩ := hfn
    rw [hsum] at hg'
    refine ⟨hle, hcn, by omega, by rw [hg', hcn]; omega, k.calleeGas_toNat args (by rw [hcn]; omega)⟩
  · unfold chargeCall
    split
    · rfl
    · next cost c m hfn =>
        have := callGasFunc_of_gt hgt hmem hlt hfn
        rw [if_pos (UInt64.lt_iff_toNat_lt.mpr this)]

/-- A `CALL` with a value of `1` and a request of `10 ^ 6`, on `100000`
gas from the empty memory. -/
theorem call_gas_eip150_value :
    GasTableEIP150.CreateBySuicide > 0 ∧ memoryGasCost NewMemory 0 = .ok (0, NewMemory) ∧
    ((∀ g' c m, chargeCall (CallKind.call.gasCost GasTableEIP150 ⟨true, false, true, 1, 1000000⟩ 100000 NewMemory 0)
        100000 = .ok (g', c, m) →
      (CallKind.call.baseGas GasTableEIP150 ⟨true, false, true, 1, 1000000⟩).toNat + (0 : UInt64).toNat ≤
        (100000 : UInt64).toNat ∧
      c.toNat = min 1000000 (((100000 : UInt64).toNat -
        ((CallKind.call.baseGas GasTableEIP150 ⟨true, false, true, 1, 1000000⟩).toNat + (0 : UInt64).toNat)) -
        ((100000 : UInt64).toNat -
          ((CallKind.call.baseGas GasTableEIP150 ⟨true, false, true, 1, 1000000⟩).toNat + (0 : UInt64).toNat)) / 64) ∧
      g'.toNat = (100000 : UInt64).toNat -
        ((CallKind.call.baseGas GasTableEIP150 ⟨true, false, true, 1, 1000000⟩).toNat + (0 : UInt64).toNat) - c.toNat ∧
      ((100000 : UInt64).toNat -
        ((CallKind.call.baseGas GasTableEIP150 ⟨true, false, true, 1, 1000000⟩).toNat + (0 : UInt64).toNat)) / 64 ≤
        g'.toNat ∧
      (CallKind.call.calleeGas ⟨true, false, true, 1, 1000000⟩ c).toNat =
        c.toNat + CallKind.call.stipend ⟨true, false, true, 1, 1000000⟩) ∧
    ((100000 : UInt64).toNat <
        (CallKind.call.baseGas GasTableEIP150 ⟨true, false, true, 1, 1000000⟩).toNat + (0 : UInt64).toNat →
      chargeCall (CallKind.call.gasCost GasTableEIP150 ⟨true, false, true, 1, 1000000⟩ 100000 NewMemory 0) 100000 =
        .error .ErrOutOfGas)) :=
  ⟨by decide, rfl, call_gas_eip150 .call (by decide) ⟨true, false, true, 1, 1000000⟩ 100000 rfl⟩

end Lemochain.Vm
