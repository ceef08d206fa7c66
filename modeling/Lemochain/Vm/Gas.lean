import Lemochain.Vm.Memory

/-!
# The gas of the call operations (`core/vm/gas.go`, `core/vm/gas_table.go`)

The four call operations share one gas scheme. Their gas function adds a
base cost and the memory fee, then asks `callGas` for the gas to give the
callee, `callGasTemp`, and charges the sum of the two. From EIP-150 on (a
gas table with `CreateBySuicide > 0`) `callGas` caps the requested gas at
all but one 64th of what is left after the base cost, `availableGas - base`,
a `uint64` difference the code does not check.

`gasCall` and `gasCallCode` compute their base cost (the value transfer,
and for `CALL` a new account) and add the memory fee to it;
`gasDelegateCall` and `gasStaticCall` add `Calls` to the memory fee. All
four are `callGasFunc` at their base cost (`gasDelegateCall_eq` and
`gasStaticCall_eq` say so for the two that add the other way round).
-/

namespace Lemochain.Vm

open Lemochain.Math Lemochain.Params

/-- `callGas`: the gas a call gives its callee, for a request of `callCost`
(a stack word) with `availableGas` and the base cost `base`.

The EIP-150 cap; the subtraction wraps when `base > availableGas`. -/
def callGas (gasTable : GasTable) (availableGas base : UInt64) (callCost : Nat) : Except VmError UInt64 :=
  let availableGas := availableGas - base
  let gas := availableGas - availableGas / 64
  if gasTable.CreateBySuicide > 0 ∧ (BitLen callCost > 64 ∨ gas < callCost.toUInt64) then .ok gas
  else if BitLen callCost > 64 then .error .errGasUintOverflow
  else .ok callCost.toUInt64

/-- The scheme of the call gas functions: the memory fee added to the base
cost, then `callGas`, and the cost is their sum. Returns the cost,
`callGasTemp` and the memory. -/
def callGasFunc (gt : GasTable) (base : UInt64) (callCost : Nat) (availableGas : UInt64) (mem : Memory)
    (memorySize : UInt64) : Except VmError (UInt64 × UInt64 × Memory) := do
  let (memoryGas, mem) ← memoryGasCost mem memorySize
  let (gas, overflow) := SafeAdd base memoryGas
  if overflow then throw .errGasUintOverflow
  let callGasTemp ← callGas gt availableGas gas callCost
  let (gas, overflow) := SafeAdd gas callGasTemp
  if overflow then throw .errGasUintOverflow
  pure (gas, callGasTemp, mem)

/-- The base cost of `CALL`: a new account when the callee is empty (from
EIP-158, and only with a value) or does not exist, and the value
transfer. -/
def callBaseGas (gt : GasTable) (eip158 empty exist : Bool) (value : Nat) : UInt64 :=
  let transfersValue := value ≠ 0
  let gas := gt.Calls
  let gas :=
    if eip158 then (if transfersValue ∧ empty = true then gas + CallNewAccountGas else gas)
    else if exist = false then gas + CallNewAccountGas else gas
  if transfersValue then gas + CallValueTransferGas else gas

/-- `gasCall`; `empty` and `exist` are the state's answers for the callee. -/
def gasCall (gt : GasTable) (eip158 empty exist : Bool) (value callCost : Nat) (availableGas : UInt64)
    (mem : Memory) (memorySize : UInt64) : Except VmError (UInt64 × UInt64 × Memory) :=
  callGasFunc gt (callBaseGas gt eip158 empty exist value) callCost availableGas mem memorySize

/-- `gasCallCode`: the value transfer, and no new account. -/
def gasCallCode (gt : GasTable) (value callCost : Nat) (availableGas : UInt64) (mem : Memory)
    (memorySize : UInt64) : Except VmError (UInt64 × UInt64 × Memory) :=
  callGasFunc gt (if value ≠ 0 then gt.Calls + CallValueTransferGas else gt.Calls) callCost availableGas mem
    memorySize

/-- `gasDelegateCall`: `Calls` added to the memory fee. -/
def gasDelegateCall (gt : GasTable) (callCost : Nat) (availableGas : UInt64) (mem : Memory) (memorySize : UInt64) :
    Except VmError (UInt64 × UInt64 × Memory) := do
  let (gas, mem) ← memoryGasCost mem memorySize
  let (gas, overflow) := SafeAdd gas gt.Calls
  if overflow then throw .errGasUintOverflow
  let callGasTemp ← callGas gt availableGas gas callCost
  let (gas, overflow) := SafeAdd gas callGasTemp
  if overflow then throw .errGasUintOverflow
  pure (gas, callGasTemp, mem)

/-- `gasStaticCall`, the same as `gasDelegateCall`. -/
def gasStaticCall (gt : GasTable) (callCost : Nat) (availableGas : UInt64) (mem : Memory) (memorySize : UInt64) :
    Except VmError (UInt64 × UInt64 × Memory) := do
  let (gas, mem) ← memoryGasCost mem memorySize
  let (gas, overflow) := SafeAdd gas gt.Calls
  if overflow then throw .errGasUintOverflow
  let callGasTemp ← callGas gt availableGas gas callCost
  let (gas, overflow) := SafeAdd gas callGasTemp
  if overflow then throw .errGasUintOverflow
  pure (gas, callGasTemp, mem)

/-- The four call operations. -/
inductive CallKind where
  | call
  | callCode
  | delegateCall
  | staticCall
  deriving DecidableEq, Repr

/-- What a call's gas function reads besides the memory: the fork, the
state's answers for the callee, and the value and requested gas on the
stack (`DELEGATECALL` and `STATICCALL` have no value). -/
structure CallArgs where
  eip158 : Bool
  empty : Bool
  exist : Bool
  value : Nat
  callCost : Nat

/-- The gas function of a call operation. -/
def CallKind.gasCost (k : CallKind) (gt : GasTable) (args : CallArgs) (availableGas : UInt64) (mem : Memory)
    (memorySize : UInt64) : Except VmError (UInt64 × UInt64 × Memory) :=
  match k with
  | .call => gasCall gt args.eip158 args.empty args.exist args.value args.callCost availableGas mem memorySize
  | .callCode => gasCallCode gt args.value args.callCost availableGas mem memorySize
  | .delegateCall => gasDelegateCall gt args.callCost availableGas mem memorySize
  | .staticCall => gasStaticCall gt args.callCost availableGas mem memorySize

/-- The gas `opCall` and the others give the callee: `callGasTemp`, with
the stipend when `CALL` or `CALLCODE` moves a value. -/
def CallKind.calleeGas (k : CallKind) (args : CallArgs) (callGasTemp : UInt64) : UInt64 :=
  match k with
  | .call | .callCode => if args.value ≠ 0 then callGasTemp + CallStipend else callGasTemp
  | .delegateCall | .staticCall => callGasTemp

/-- The charge of a step of `Interpreter.Run`: the gas function, then
`UseGas`; a failure of either is `ErrOutOfGas`. Returns the gas left,
`callGasTemp` and the memory before its resize. -/
def chargeCall (gasFn : Except VmError (UInt64 × UInt64 × Memory)) (gas : UInt64) :
    Except VmError (UInt64 × UInt64 × Memory) :=
  match gasFn with
  | .error _ => .error .ErrOutOfGas
  | .ok (cost, callGasTemp, mem) => if gas < cost then .error .ErrOutOfGas else .ok (gas - cost, callGasTemp, mem)

end Lemochain.Vm
