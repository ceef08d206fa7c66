import Lemochain.Params
import Lemochain.Vm.Common

/-!
# Memory and its expansion gas (`core/vm/memory.go`, `core/vm/gas_table.go`)

The memory of a frame is a byte store that only grows, by `Resize`, and the
fee already paid for it, `lastGasCost`. `memoryGasCost` charges the growth
to a new size as the difference of the total fees `3 * w + w * w / 512` at
the new and the paid size, in `uint64`, and records the new total.

An interpreter step (`Interpreter.Run`) asks the operation for the memory
it needs, rounds it up to words, runs the operation's gas function (which
begins with `memoryGasCost`), charges the cost with `UseGas` and resizes the
memory; an error anywhere ends the run. `memoryPhase` is that part of a
step; the rest of the step writes inside the memory it was given and never
changes its length or its `lastGasCost`, so a run of the memory phases
(`memoryRun`) is what a run does to the memory and its fees.

The content of the store is kept but never read here: no modelled function
reads it.
-/

namespace Lemochain.Vm

open Lemochain.Math Lemochain.Params

/-- `Memory`. -/
structure Memory where
  store : Bytes
  lastGasCost : UInt64
  deriving DecidableEq, Repr

/-- `NewMemory`. -/
def NewMemory : Memory := ⟨[], 0⟩

/-- `Memory.Len`. -/
def Memory.Len (m : Memory) : Nat := m.store.length

/-- `Memory.Resize`: grow the store with zeros to `size` bytes. -/
def Memory.Resize (m : Memory) (size : UInt64) : Memory :=
  if m.Len.toUInt64 < size then { m with store := m.store ++ List.replicate (size - m.Len.toUInt64).toNat 0 }
  else m

/-- `memoryGasCost`: the fee of growing `mem` to `newMemSize` bytes, and the
memory with the new total fee recorded.

`0xffffffffe0` is meant to keep the square of the words in range. -/
def memoryGasCost (mem : Memory) (newMemSize : UInt64) : Except VmError (UInt64 × Memory) :=
  if newMemSize = 0 then .ok (0, mem)
  else if newMemSize > 0xffffffffe0 then .error .errGasUintOverflow
  else
    let newMemSizeWords := toWordSize newMemSize
    let newMemSize := newMemSizeWords * 32
    if newMemSize > mem.Len.toUInt64 then
      let square := newMemSizeWords * newMemSizeWords
      let linCoef := newMemSizeWords * MemoryGas
      let quadCoef := square / QuadCoeffDiv
      let newTotalFee := linCoef + quadCoef
      let fee := newTotalFee - mem.lastGasCost
      .ok (fee, { mem with lastGasCost := newTotalFee })
    else .ok (0, mem)

/-- The memory size a step charges and grows to: the operation's
`memorySize` of the stack, when it has one, rounded up to words. -/
def memorySizeOf : Option Nat → Except VmError UInt64
  | none => .ok 0
  | some req =>
      let (memSize, overflow) := bigUint64 req
      if overflow then .error .errGasUintOverflow
      else
        let (memorySize, overflow) := SafeMul (toWordSize memSize) 32
        if overflow then .error .errGasUintOverflow else .ok memorySize

/-- What an operation brings to the memory phase of a step: the memory it
asks for, and what its gas function adds to the memory fee, which it
computes first. -/
structure MemoryOp where
  memorySize : Option Nat
  gasAfterMemory : UInt64 → Except VmError UInt64

/-- The memory part of a step of `Interpreter.Run`: the gas left, the memory
and the memory fee charged. A failing gas function or `UseGas` is
`ErrOutOfGas`; the fee is charged through `contract.UseGas(cost)`. -/
def memoryPhase (op : MemoryOp) (gas : UInt64) (mem : Memory) : Except VmError (UInt64 × Memory × UInt64) := do
  let memorySize ← memorySizeOf op.memorySize
  match memoryGasCost mem memorySize with
  | .error _ => .error .ErrOutOfGas
  | .ok (fee, mem) =>
      match op.gasAfterMemory fee with
      | .error _ => .error .ErrOutOfGas
      | .ok cost =>
          if gas < cost then .error .ErrOutOfGas
          else .ok (gas - cost, if memorySize > 0 then mem.Resize memorySize else mem, fee)

/-- The memory phases of a run, with the memory fees summed. -/
def memoryRun (ops : List MemoryOp) (gas : UInt64) (mem : Memory) : Except VmError (UInt64 × Memory × Nat) :=
  ops.foldlM (fun (gas, mem, fees) op =>
    (memoryPhase op gas mem).map fun (gas, mem, fee) => (gas, mem, fees + fee.toNat)) (gas, mem, 0)

/-- The total memory fee of `w` words. -/
def memoryFee (w : Nat) : Nat := 3 * w + w * w / 512

@[simp] theorem NewMemory_Len : NewMemory.Len = 0 := rfl

@[simp] theorem NewMemory_lastGasCost : NewMemory.lastGasCost = 0 := rfl

@[simp] theorem Resize_lastGasCost (m : Memory) (size : UInt64) : (m.Resize size).lastGasCost = m.lastGasCost := by
  unfold Memory.Resize
  split <;> rfl

/-- `Resize` grows the memory to `size` bytes, never shrinks it. -/
theorem Resize_Len {m : Memory} (hm : m.Len < 2 ^ 64) (size : UInt64) :
    (m.Resize size).Len = max m.Len size.toNat := by
  have hl : m.Len.toUInt64.toNat = m.Len := by
    rw [Nat.toUInt64_eq, UInt64.toNat_ofNat', Nat.mod_eq_of_lt hm]
  unfold Memory.Resize
  split
  · next h =>
      rw [UInt64.lt_iff_toNat_lt, hl] at h
      simp only [Memory.Len, List.length_append, List.length_replicate] at h hl ⊢
      rw [UInt64.toNat_sub_of_le _ _ (UInt64.le_iff_toNat_le.mpr (by rw [hl]; omega)), hl]
      omega
  · next h =>
      rw [UInt64.lt_iff_toNat_lt, hl] at h
      omega

@[simp] theorem memoryFee_zero : memoryFee 0 = 0 := rfl

theorem memoryFee_mono {v w : Nat} (h : v ≤ w) : memoryFee v ≤ memoryFee w := by
  unfold memoryFee
  have := Nat.div_le_div_right (c := 512) (Nat.mul_le_mul h h)
  omega

end Lemochain.Vm
