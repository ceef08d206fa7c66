import Mathlib.Data.UInt
import Lemochain.Lib.Loop
import Lemochain.Vm.Memory

/-!
# The memory fees of a run

A memory is in order (`MemInv`) when its length is whole words, below
`2 ^ 32` of them, and its `lastGasCost` is the total fee `memoryFee` of
those words. From such a memory, `memoryGasCost` charges a growth to `w`
words below `2 ^ 32` exactly (`memoryGasCost_spec`): the square `w * w`
stays below `2 ^ 64`. A step keeps the memory in order and charges the
difference of the total fees (`memoryPhase_inv`), so a run from the empty
memory charges the total fee of its last memory (`memoryRun_fees`).

The bound `0xffffffffe0` of `memoryGasCost` lets through sizes up to
`2 ^ 35 - 1` words, whose square does not fit in `uint64`: a size of
`2 ^ 37` bytes is charged without the quadratic part, and the run goes on
with a `lastGasCost` that is not the fee of its memory
(`memoryGasCost_square_wraps`). The results above hold for every run whose
requests avoid the sizes from `2 ^ 37 - 31` to `0xffffffffe0`.

## Main results

* `memoryGasCost_spec`, `memoryGasCost_of_gt`: the fee of a growth, and the
  rejection of sizes above `0xffffffffe0`.
* `memoryPhase_inv`: the step lemma.
* `memoryRun_fees`: the run lemma.
* `memoryGasCost_square_wraps`: the wrap at `2 ^ 37` bytes.
-/

namespace Lemochain.Vm

open Lemochain.Math Lemochain.Params

/-- A memory in order: whole words, fewer than `2 ^ 32` of them, and their
fee paid. -/
structure MemInv (mem : Memory) : Prop where
  aligned : mem.Len % 32 = 0
  bounded : mem.Len / 32 < 2 ^ 32
  paid : mem.lastGasCost.toNat = memoryFee (mem.Len / 32)

theorem MemInv.NewMemory : MemInv NewMemory := ⟨rfl, by decide, rfl⟩

/-- The sizes whose words are charged exactly, and those `memoryGasCost`
rejects; the ones between are the window of the wrap. -/
def ChargedExactly (req : Option Nat) : Prop :=
  ∀ s, req = some s → s ≤ 2 ^ 37 - 32 ∨ 0xffffffffe0 < s

/-! ## Words -/

theorem toWordSize_toNat {n : UInt64} (h : n.toNat ≤ 2 ^ 64 - 32) :
    (toWordSize n).toNat = (n.toNat + 31) / 32 := by
  have hle : ¬ n > MaxUint64 - 31 := by
    rw [gt_iff_lt, UInt64.lt_iff_toNat_lt, UInt64.toNat_sub_of_le _ _ (by decide), MaxUint64_toNat]
    simp only [UInt64.reduceToNat]
    omega
  rw [toWordSize, if_neg hle, UInt64.toNat_div, UInt64.toNat_add, Nat.mod_eq_of_lt (by simp; omega)]
  rfl

/-- The size a step asks for, rounded up to words.

A size in the last word of `uint64` rounds to `2 ^ 59` words, and `* 32`
overflows. -/
theorem memorySizeOf_ok {req : Option Nat} {ms : UInt64} (h : memorySizeOf req = .ok ms) :
    (req = none ∧ ms = 0) ∨ ∃ s, req = some s ∧ s ≤ 2 ^ 64 - 32 ∧ ms.toNat = 32 * ((s + 31) / 32) := by
  cases req with
  | none =>
      cases h
      exact .inl ⟨rfl, rfl⟩
  | some s =>
      right
      simp only [memorySizeOf, bigUint64] at h
      cases hbits : decide (BitLen s > 64) with
      | true => simp [hbits] at h
      | false =>
          simp only [hbits, Bool.false_eq_true, ↓reduceIte] at h
          have hs : s < 2 ^ 64 :=
            (BitLen_le_iff s 64).mp (by simpa using hbits)
          have hs64 : s.toUInt64.toNat = s := by
            rw [Nat.toUInt64_eq, UInt64.toNat_ofNat', Nat.mod_eq_of_lt hs]
          by_cases hlast : s ≤ 2 ^ 64 - 32
          · have hw := toWordSize_toNat (n := s.toUInt64) (by rw [hs64]; exact hlast)
            rw [hs64] at hw
            have hmul : (toWordSize s.toUInt64).toNat * (32 : UInt64).toNat < 2 ^ 64 := by
              rw [hw]; simp only [UInt64.reduceToNat]; omega
            have hov := SafeMul_overflow (toWordSize s.toUInt64) 32
            rw [decide_eq_false (by omega)] at hov
            simp only [hov, Bool.false_eq_true, ↓reduceIte, Except.ok.injEq] at h
            refine ⟨s, rfl, hlast, ?_⟩
            rw [← h, SafeMul_toNat hmul, hw]
            simp only [UInt64.reduceToNat]
            omega
          · have hw : toWordSize s.toUInt64 = MaxUint64 / 32 + 1 := by
              rw [toWordSize, if_pos]
              rw [gt_iff_lt, UInt64.lt_iff_toNat_lt, UInt64.toNat_sub_of_le _ _ (by decide), MaxUint64_toNat, hs64]
              simp only [UInt64.reduceToNat]
              omega
            have hov : (SafeMul (MaxUint64 / 32 + 1) 32).2 = true := by decide
            simp only [hw, hov, ↓reduceIte] at h
            cases h

/-! ## The fee of a growth -/

theorem memoryGasCost_zero (mem : Memory) : memoryGasCost mem 0 = .ok (0, mem) := rfl

/-- Sizes above `0xffffffffe0` are rejected. -/
theorem memoryGasCost_of_gt (mem : Memory) {n : UInt64} (h : 0xffffffffe0 < n.toNat) :
    memoryGasCost mem n = .error .errGasUintOverflow := by
  have hne : n ≠ 0 := fun h0 => by rw [h0] at h; exact absurd h (by decide)
  have hgt : n > 0xffffffffe0 := by
    rw [gt_iff_lt, UInt64.lt_iff_toNat_lt]
    simp only [UInt64.reduceToNat]
    exact h
  rw [memoryGasCost, if_neg hne, if_pos hgt]

/-- The total fee of fewer than `2 ^ 32` words fits in `uint64`. -/
theorem memoryFee_lt {w : Nat} (hw : w < 2 ^ 32) : memoryFee w < 2 ^ 64 := by
  have : w * w < 2 ^ 32 * 2 ^ 32 := Nat.mul_lt_mul'' hw hw
  unfold memoryFee
  omega

/-- From a memory in order, a growth to fewer than `2 ^ 32` words is
charged the difference of the total fees, with no overflow, and the new
total is recorded.

The words, and the size they round to. The total fee at the new size,
computed without overflow. -/
theorem memoryGasCost_spec {mem : Memory} (hinv : MemInv mem) {n : UInt64} (hpos : 0 < n.toNat)
    (hn : n.toNat ≤ 2 ^ 37 - 32) :
    ∃ fee mem', memoryGasCost mem n = .ok (fee, mem') ∧ mem'.store = mem.store ∧
      fee.toNat = memoryFee (max ((n.toNat + 31) / 32) (mem.Len / 32)) - memoryFee (mem.Len / 32) ∧
      mem'.lastGasCost.toNat = memoryFee (max ((n.toNat + 31) / 32) (mem.Len / 32)) := by
  have hne : n ≠ 0 := fun h0 => by rw [h0] at hpos; exact absurd hpos (by decide)
  have hin : ¬ n > 0xffffffffe0 := by
    rw [gt_iff_lt, UInt64.lt_iff_toNat_lt]
    simp only [UInt64.reduceToNat]
    omega
  have hlen : mem.Len.toUInt64.toNat = mem.Len := by
    rw [Nat.toUInt64_eq, UInt64.toNat_ofNat', Nat.mod_eq_of_lt (by have := hinv.bounded; omega)]
  have hw := toWordSize_toNat (n := n) (by omega)
  have hwb : (n.toNat + 31) / 32 < 2 ^ 32 := by omega
  have hsize : (toWordSize n * 32).toNat = 32 * ((n.toNat + 31) / 32) := by
    rw [UInt64.toNat_mul, hw, Nat.mod_eq_of_lt (by simp only [UInt64.reduceToNat]; omega)]
    simp only [UInt64.reduceToNat]
    omega
  simp only [memoryGasCost, if_neg hne, if_neg hin]
  split
  · next hgrow =>
      rw [gt_iff_lt, UInt64.lt_iff_toNat_lt, hsize, hlen] at hgrow
      have hsq : (toWordSize n * toWordSize n).toNat = (n.toNat + 31) / 32 * ((n.toNat + 31) / 32) := by
        rw [UInt64.toNat_mul, hw, Nat.mod_eq_of_lt (by have := Nat.mul_lt_mul'' hwb hwb; omega)]
      have htotal : (toWordSize n * MemoryGas + toWordSize n * toWordSize n / QuadCoeffDiv).toNat =
          memoryFee ((n.toNat + 31) / 32) := by
        have hfee := memoryFee_lt hwb
        unfold memoryFee at hfee ⊢
        rw [UInt64.toNat_add, UInt64.toNat_mul, UInt64.toNat_div, hsq, hw]
        simp only [MemoryGas, QuadCoeffDiv, UInt64.reduceToNat]
        omega
      have hmax : max ((n.toNat + 31) / 32) (mem.Len / 32) = (n.toNat + 31) / 32 := by
        have := hinv.aligned
        omega
      have hpaid : mem.lastGasCost.toNat ≤ memoryFee ((n.toNat + 31) / 32) := by
        rw [hinv.paid]
        exact memoryFee_mono (by omega)
      refine ⟨_, _, rfl, rfl, ?_, ?_⟩
      · rw [UInt64.toNat_sub_of_le _ _ (UInt64.le_iff_toNat_le.mpr (by rw [htotal]; exact hpaid)), htotal,
          hmax, hinv.paid]
      · rw [hmax]
        exact htotal
  · next hstay =>
      rw [gt_iff_lt, UInt64.lt_iff_toNat_lt, hsize, hlen] at hstay
      have hmax : max ((n.toNat + 31) / 32) (mem.Len / 32) = mem.Len / 32 := by
        have := hinv.aligned
        omega
      refine ⟨0, mem, rfl, rfl, ?_, ?_⟩
      · rw [hmax, Nat.sub_self]
        rfl
      · rw [hmax]
        exact hinv.paid

/-! ## A step, and a run -/

/-- What a successful memory phase did: the size it asked for, the fee
`memoryGasCost` charged, the cost the gas function returned and `UseGas`
took, and the resize. -/
theorem memoryPhase_cases {op : MemoryOp} {gas gas' : UInt64} {mem mem' : Memory} {fee : UInt64}
    (h : memoryPhase op gas mem = .ok (gas', mem', fee)) :
    ∃ ms mem₁ cost, memorySizeOf op.memorySize = .ok ms ∧ memoryGasCost mem ms = .ok (fee, mem₁) ∧
      op.gasAfterMemory fee = .ok cost ∧ cost ≤ gas ∧ gas' = gas - cost ∧
      mem' = if ms > 0 then mem₁.Resize ms else mem₁ := by
  unfold memoryPhase at h
  cases hms : memorySizeOf op.memorySize with
  | error e =>
      rw [hms] at h
      cases h
  | ok ms =>
      rw [hms] at h
      simp only [bind, Except.bind] at h
      split at h
      · cases h
      · next fee₁ mem₁ hcost =>
          split at h
          · cases h
          · next cost hrest =>
              split at h
              · cases h
              · next hgas =>
                  simp only [Except.ok.injEq, Prod.mk.injEq] at h
                  obtain ⟨rfl, rfl, rfl⟩ := h
                  have hle : cost ≤ gas := by
                    rw [UInt64.lt_iff_toNat_lt] at hgas
                    rw [UInt64.le_iff_toNat_le]
                    omega
                  exact ⟨ms, mem₁, cost, rfl, hcost, hrest, hle, rfl, rfl⟩

/-- The step lemma: a successful memory phase that asks for a size it
charges exactly keeps the memory in order, and charges the difference of
the total fees.

Nothing asked: no fee and no resize. The words of the request, and the
memory resized to them. -/
theorem memoryPhase_inv {op : MemoryOp} (hreq : ChargedExactly op.memorySize) {gas gas' : UInt64}
    {mem mem' : Memory} {fee : UInt64} (hinv : MemInv mem) (h : memoryPhase op gas mem = .ok (gas', mem', fee)) :
    MemInv mem' ∧ fee.toNat + memoryFee (mem.Len / 32) = memoryFee (mem'.Len / 32) := by
  obtain ⟨ms, mem₁, cost, hms, hcost, -, -, -, rfl⟩ := memoryPhase_cases h
  rcases memorySizeOf_ok hms with ⟨-, rfl⟩ | ⟨s, hs, hsmax, hmsn⟩
  · rw [memoryGasCost_zero] at hcost
    cases hcost
    exact ⟨hinv, by simp⟩
  · by_cases hz : ms.toNat = 0
    · have hms0 : ms = 0 := UInt64.toNat_inj.mp (hz.trans UInt64.toNat_zero.symm)
      subst hms0
      rw [memoryGasCost_zero] at hcost
      cases hcost
      exact ⟨hinv, by simp⟩
    · rcases hreq s hs with hsb | hsb
      · obtain ⟨fee₁, mem₂, hcost', hstore, hfee, hpaid⟩ := memoryGasCost_spec hinv (by omega) (show ms.toNat ≤ 2 ^ 37 - 32 by omega)
        rw [hcost'] at hcost
        simp only [Except.ok.injEq, Prod.mk.injEq] at hcost
        obtain ⟨rfl, rfl⟩ := hcost
        have hwords : (ms.toNat + 31) / 32 = (s + 31) / 32 := by omega
        have hlen₂ : mem₂.Len = mem.Len := by simp only [Memory.Len, hstore]
        have hpos : ms > 0 := by rw [gt_iff_lt, UInt64.lt_iff_toNat_lt]; simp only [UInt64.toNat_zero]; omega
        rw [if_pos hpos]
        have hlen' : (mem₂.Resize ms).Len = max mem.Len ms.toNat := by
          rw [Resize_Len (by have := hinv.bounded; omega), hlen₂]
        have hinv' := hinv.aligned
        have hb := hinv.bounded
        have hdiv : (mem₂.Resize ms).Len / 32 = max ((ms.toNat + 31) / 32) (mem.Len / 32) := by
          rw [hlen']
          omega
        refine ⟨⟨by rw [hlen']; omega, by rw [hdiv]; omega, by rw [Resize_lastGasCost, hpaid, hdiv]⟩, ?_⟩
        rw [hfee, hdiv]
        have := memoryFee_mono (le_max_right ((ms.toNat + 31) / 32) (mem.Len / 32))
        omega
      · rw [memoryGasCost_of_gt mem (by omega)] at hcost
        cases hcost

/-- The run lemma: a successful run of memory phases that each ask for a
size charged exactly ends in order, and its fees sum to the difference of
the total fees.

The invariant after the steps done so far. -/
theorem memoryRun_inv {ops : List MemoryOp} (hreq : ∀ op ∈ ops, ChargedExactly op.memorySize)
    {gas gas' : UInt64} {mem mem' : Memory} {fees : Nat} (hinv : MemInv mem)
    (h : memoryRun ops gas mem = .ok (gas', mem', fees)) :
    MemInv mem' ∧ fees + memoryFee (mem.Len / 32) = memoryFee (mem'.Len / 32) := by
  let I : List MemoryOp → UInt64 × Memory × Nat → Prop := fun _ st =>
    MemInv st.2.1 ∧ st.2.2 + memoryFee (mem.Len / 32) = memoryFee (st.2.1.Len / 32)
  refine Lemochain.Loop.foldlM_ok_invariant _ I ⟨hinv, by simp⟩ ?_ h
  rintro done op rest ⟨g, m, f⟩ ⟨g₁, m₁, f₁⟩ hsplit ⟨hm, hf⟩ hstep
  have hop : op ∈ ops := by rw [hsplit]; simp
  dsimp only at hstep hm hf
  cases hph : memoryPhase op g m with
  | error e =>
      rw [hph] at hstep
      cases hstep
  | ok r =>
      obtain ⟨g₂, m₂, fee⟩ := r
      rw [hph] at hstep
      simp only [Except.map, Except.ok.injEq, Prod.mk.injEq] at hstep
      obtain ⟨rfl, rfl, rfl⟩ := hstep
      obtain ⟨hm₂, hfee⟩ := memoryPhase_inv (hreq op hop) hm hph
      refine ⟨hm₂, ?_⟩
      show f + fee.toNat + memoryFee (mem.Len / 32) = memoryFee (m₂.Len / 32)
      omega

/-- A run from the empty memory whose requests are each charged exactly
ends with its memory in order and has charged exactly the total fee of the
words of its last memory. -/
theorem memoryRun_fees {ops : List MemoryOp} (hreq : ∀ op ∈ ops, ChargedExactly op.memorySize)
    {gas gas' : UInt64} {mem' : Memory} {fees : Nat} (h : memoryRun ops gas NewMemory = .ok (gas', mem', fees)) :
    MemInv mem' ∧ mem'.Len % 32 = 0 ∧ fees = memoryFee (mem'.Len / 32) := by
  obtain ⟨hinv, hfees⟩ := memoryRun_inv hreq MemInv.NewMemory h
  exact ⟨hinv, hinv.aligned, by simpa using hfees⟩

/-! ## The wrap -/

/-- A request of `2 ^ 37` bytes, `2 ^ 32` words, from the empty memory:
`0xffffffffe0` lets it through, the square `2 ^ 64` wraps to `0`, and only
the linear part is charged. A `RETURN` of that size (its gas function is
`memoryGasCost` alone) run with exactly that gas leaves a memory of
`2 ^ 37` bytes whose `lastGasCost` is not its fee.

The memory is resized, never built: its length comes from `Resize_Len`. -/
theorem memoryGasCost_square_wraps :
    memoryGasCost NewMemory (2 ^ 37) = .ok (12884901888, ⟨[], 12884901888⟩) ∧
      memoryFee (2 ^ 32) = 36028809903865856 ∧
      ∃ mem, memoryRun [⟨some (2 ^ 37), fun fee => .ok fee⟩] 12884901888 NewMemory =
          .ok (0, mem, 12884901888) ∧
        mem.Len = 2 ^ 37 ∧ mem.lastGasCost.toNat ≠ memoryFee (mem.Len / 32) := by
  have hcost : memoryGasCost NewMemory (2 ^ 37) = .ok (12884901888, ⟨[], 12884901888⟩) := rfl
  have hfee : memoryFee (2 ^ 32) = 36028809903865856 := rfl
  have hlen : ((⟨[], 12884901888⟩ : Memory).Resize (2 ^ 37)).Len = 2 ^ 37 := by
    rw [Resize_Len (by decide)]
    rfl
  refine ⟨hcost, hfee, (⟨[], 12884901888⟩ : Memory).Resize (2 ^ 37), rfl, hlen, ?_⟩
  rw [Resize_lastGasCost, hlen, show (2 : Nat) ^ 37 / 32 = 2 ^ 32 by rfl, hfee]
  decide

end Lemochain.Vm
