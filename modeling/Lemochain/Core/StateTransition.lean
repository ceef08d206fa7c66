import Lemochain.Params
import Lemochain.Vm.Common

/-!
# The state transition of a message (`core/state_transition.go`, `core/gaspool.go`)

`ApplyMessage` applies one message to the state within a block. It checks
the sender's nonce, buys the message's gas from the sender's balance and
from the block's `GasPool`, charges the intrinsic gas of the data, and runs
the message through the virtual machine, a call or a contract creation. At
the end `refundGas` gives the sender back its unused gas, with the refund
counter capped at half the gas used, and returns that gas to the pool; the
coinbase is paid for the gas used.

The pool is a `uint64` the caller owns, outside the journaled state: a
snapshot revert of the state does not restore it. `AddGas` panics past
`uint64` (`none` here), and so does `TransitionDb` then.

The state is kept to what the transition reads and writes: an account's
balance and nonce, whether it exists, and the refund counter. Balances are
`*big.Int` values that the code keeps non-negative (a balance is reduced
only after the check that it covers the amount), so they are `Nat`. The
virtual machine is a parameter, `Evm`: its `Call` and `Create` run on the
state they are given and return the state after them. The address type `α`
is generic, its zero value `default` standing for `vm.AccountRef{}`.
-/

namespace Lemochain.Core

open Lemochain.Math Lemochain.Params Lemochain.Vm

/-! ## The gas pool -/

/-- `GasPool`: the gas left to the transactions of a block. -/
abbrev GasPool := UInt64

/-- The errors of a state transition: the consensus errors of `core`, and
the errors of the virtual machine that `TransitionDb` returns. -/
inductive TxError where
  | ErrNonceTooHigh
  | ErrNonceTooLow
  | ErrGasLimitReached
  | errInsufficientBalanceForGas
  | vm (e : VmError)
  deriving DecidableEq, Repr

/-- `GasPool.AddGas`; `none` is the panic "gas pool pushed above uint64". -/
def GasPool.AddGas (gp : GasPool) (amount : UInt64) : Option GasPool :=
  if gp > MaxUint64 - amount then none else some (gp + amount)

/-- `GasPool.SubGas`: the pool after the deduction, or `ErrGasLimitReached`
when it holds less than `amount`. -/
def GasPool.SubGas (gp : GasPool) (amount : UInt64) : Except TxError GasPool :=
  if gp < amount then .error .ErrGasLimitReached else .ok (gp - amount)

/-! ## The state -/

/-- What the transition reads of a state object. -/
structure Account where
  Balance : Nat
  Nonce : UInt64
  deriving DecidableEq, Repr

/-- What the transition reads of `vm.StateDB`: the live state objects and
the refund counter. -/
structure StateDB (α : Type) where
  accounts : α → Option Account
  refund : UInt64

namespace StateDB

variable {α : Type} [DecidableEq α]

/-- `StateDB.Exist`. -/
def Exist (s : StateDB α) (addr : α) : Bool := (s.accounts addr).isSome

/-- `StateDB.GetBalance`: `0` for a missing account. -/
def GetBalance (s : StateDB α) (addr : α) : Nat :=
  match s.accounts addr with
  | some acct => acct.Balance
  | none => 0

/-- `StateDB.GetNonce`: `0` for a missing account. -/
def GetNonce (s : StateDB α) (addr : α) : UInt64 :=
  match s.accounts addr with
  | some acct => acct.Nonce
  | none => 0

/-- `StateDB.GetRefund`. -/
def GetRefund (s : StateDB α) : UInt64 := s.refund

/-- The state with the object at `addr` replaced. -/
def setObject (s : StateDB α) (addr : α) (acct : Account) : StateDB α :=
  { s with accounts := fun a => if a = addr then some acct else s.accounts a }

/-- `StateDB.CreateAccount`: a new object that keeps the balance of the one
it replaces. -/
def CreateAccount (s : StateDB α) (addr : α) : StateDB α :=
  s.setObject addr ⟨s.GetBalance addr, 0⟩

/-- `StateDB.GetOrNewStateObject`, the object a write goes to. -/
def GetOrNewStateObject (s : StateDB α) (addr : α) : Account :=
  (s.accounts addr).getD ⟨0, 0⟩

/-- `StateDB.SubBalance`. -/
def SubBalance (s : StateDB α) (addr : α) (amount : Nat) : StateDB α :=
  let acct := s.GetOrNewStateObject addr
  s.setObject addr { acct with Balance := acct.Balance - amount }

/-- `StateDB.AddBalance`. -/
def AddBalance (s : StateDB α) (addr : α) (amount : Nat) : StateDB α :=
  let acct := s.GetOrNewStateObject addr
  s.setObject addr { acct with Balance := acct.Balance + amount }

/-- `StateDB.SetNonce`. -/
def SetNonce (s : StateDB α) (addr : α) (nonce : UInt64) : StateDB α :=
  let acct := s.GetOrNewStateObject addr
  s.setObject addr { acct with Nonce := nonce }

end StateDB

/-! ## Messages and the virtual machine -/

/-- `Message`, the fields of its interface. -/
structure Message (α : Type) where
  From : α
  To : Option α
  GasPrice : Nat
  Gas : UInt64
  Value : Nat
  Nonce : UInt64
  CheckNonce : Bool
  Data : Bytes

/-- What `Call` and `Create` of `vm.EVM` return: the output, the gas left
over, the error and the state after the run. -/
structure CallResult (α : Type) where
  ret : Bytes
  leftOverGas : UInt64
  err : Option VmError
  state : StateDB α

/-- What the transition uses of `vm.EVM`: `Call` (state, caller, address,
input, gas, value), `Create` (state, caller, code, gas, value), the
coinbase, and whether the block is from Homestead on. -/
structure Evm (α : Type) where
  Call : StateDB α → α → α → Bytes → UInt64 → Nat → CallResult α
  Create : StateDB α → α → Bytes → UInt64 → Nat → CallResult α
  Coinbase : α
  homestead : Bool

/-! ## The transition -/

/-- `IntrinsicGas`: the gas a message pays before it runs, for its kind and
its data, or `ErrOutOfGas` when that does not fit in `uint64`.

Zero and non-zero bytes are priced differently. -/
def IntrinsicGas (data : Bytes) (contractCreation homestead : Bool) : Except VmError UInt64 :=
  let gas := if contractCreation && homestead then TxGasContractCreation else TxGas
  if data.length > 0 then
    let nz : UInt64 := data.foldl (fun nz byt => if byt ≠ 0 then nz + 1 else nz) 0
    if (MaxUint64 - gas) / TxDataNonZeroGas < nz then .error .ErrOutOfGas
    else
      let gas := gas + nz * TxDataNonZeroGas
      let z := data.length.toUInt64 - nz
      if (MaxUint64 - gas) / TxDataZeroGas < z then .error .ErrOutOfGas
      else .ok (gas + z * TxDataZeroGas)
  else .ok gas

/-- `StateTransition`; `gasPrice`, `value` and `data` are the message's,
read through `msg`, and the state is the one the virtual machine shares. -/
structure StateTransition (α : Type) where
  gp : GasPool
  msg : Message α
  gas : UInt64
  initialGas : UInt64
  state : StateDB α

/-- What `TransitionDb` returns: the output, the gas used, whether the
virtual machine failed, and the consensus error. -/
structure ExecutionResult where
  ret : Bytes
  usedGas : UInt64
  failed : Bool
  err : Option TxError
  deriving DecidableEq, Repr

/-- `NewStateTransition`. -/
def NewStateTransition {α : Type} (state : StateDB α) (msg : Message α) (gp : GasPool) : StateTransition α :=
  ⟨gp, msg, 0, 0, state⟩

namespace StateTransition

variable {α : Type} [DecidableEq α]

/-- `StateTransition.from`: the sender, created when it does not exist. -/
def from' (st : StateTransition α) : StateTransition α × α :=
  let f := st.msg.From
  if st.state.Exist f then (st, f) else ({ st with state := st.state.CreateAccount f }, f)

/-- `StateTransition.to`: the recipient, created when it does not exist;
the zero address for a contract creation. -/
def to' [Inhabited α] (st : StateTransition α) : StateTransition α × α :=
  match st.msg.To with
  | none => (st, default)
  | some to' => if st.state.Exist to' then (st, to') else ({ st with state := st.state.CreateAccount to' }, to')

/-- `StateTransition.useGas`. -/
def useGas (st : StateTransition α) (amount : UInt64) : Except VmError (StateTransition α) :=
  if st.gas < amount then .error .ErrOutOfGas else .ok { st with gas := st.gas - amount }

/-- `StateTransition.gasUsed`, a `uint64` difference. -/
def gasUsed (st : StateTransition α) : UInt64 := st.initialGas - st.gas

/-- `StateTransition.buyGas`: the transition after it, and its error. The
message's gas is taken from the pool before it is added to `gas`. -/
def buyGas (st : StateTransition α) : StateTransition α × Option TxError :=
  let (st, sender) := st.from'
  let mgval := st.msg.Gas.toNat * st.msg.GasPrice
  if st.state.GetBalance sender < mgval then (st, some .errInsufficientBalanceForGas)
  else
    match GasPool.SubGas st.gp st.msg.Gas with
    | .error err => (st, some err)
    | .ok gp =>
        let st := { st with gp, gas := st.gas + st.msg.Gas, initialGas := st.msg.Gas }
        ({ st with state := st.state.SubBalance sender mgval }, none)

/-- `StateTransition.preCheck`: the nonce, when the message asks for the
check, then `buyGas`. -/
def preCheck (st : StateTransition α) : StateTransition α × Option TxError :=
  let msg := st.msg
  let (st, sender) := st.from'
  if msg.CheckNonce then
    let nonce := st.state.GetNonce sender
    if nonce < msg.Nonce then (st, some .ErrNonceTooHigh)
    else if nonce > msg.Nonce then (st, some .ErrNonceTooLow)
    else st.buyGas
  else st.buyGas

/-- `StateTransition.refundGas`: the refund counter, capped at half the gas
used, is added to the gas left, which is paid back to the sender and
returned to the pool. -/
def refundGas (st : StateTransition α) : Option (StateTransition α) :=
  let refund := st.gasUsed / 2
  let refund := if refund > st.state.GetRefund then st.state.GetRefund else refund
  let st := { st with gas := st.gas + refund }
  let (st, sender) := st.from'
  let remaining := st.gas.toNat * st.msg.GasPrice
  let st := { st with state := st.state.AddBalance sender remaining }
  (GasPool.AddGas st.gp st.gas).map fun gp => { st with gp }

/-- The run of the virtual machine in `TransitionDb`: a creation, or a call
after the sender's nonce is incremented. Returns the output, the transition
with the gas left and the state after the run, and the error. -/
def runEvm [Inhabited α] (evm : Evm α) (st : StateTransition α) (sender : α) (contractCreation : Bool) :
    Bytes × StateTransition α × Option VmError :=
  if contractCreation then
    let r := evm.Create st.state sender st.msg.Data st.gas st.msg.Value
    (r.ret, { st with gas := r.leftOverGas, state := r.state }, r.err)
  else
    let st := { st with state := st.state.SetNonce sender (st.state.GetNonce sender + 1) }
    let (st, recipient) := st.to'
    let r := evm.Call st.state sender recipient st.msg.Data st.gas st.msg.Value
    (r.ret, { st with gas := r.leftOverGas, state := r.state }, r.err)

/-- `StateTransition.TransitionDb`: the result and the transition after it,
whose `gp` is the caller's pool; `none` is a panic of `AddGas`.

Pay the intrinsic gas. The only consensus error of the run: the value
transfer failed. -/
def TransitionDb [Inhabited α] (evm : Evm α) (st : StateTransition α) : Option (ExecutionResult × StateTransition α) :=
  let (st, err) := st.preCheck
  match err with
  | some err => some (⟨[], 0, false, some err⟩, st)
  | none =>
      let msg := st.msg
      let (st, sender) := st.from'
      let contractCreation := msg.To.isNone
      match IntrinsicGas msg.Data contractCreation evm.homestead with
      | .error err => some (⟨[], 0, false, some (.vm err)⟩, st)
      | .ok gas =>
          match st.useGas gas with
          | .error err => some (⟨[], 0, false, some (.vm err)⟩, st)
          | .ok st =>
              let (ret, st, vmerr) := runEvm evm st sender contractCreation
              if vmerr = some .ErrInsufficientBalance then
                some (⟨[], 0, false, some (.vm .ErrInsufficientBalance)⟩, st)
              else do
                let st ← st.refundGas
                let st := { st with state := st.state.AddBalance evm.Coinbase (st.gasUsed.toNat * msg.GasPrice) }
                pure (⟨ret, st.gasUsed, vmerr.isSome, none⟩, st)

end StateTransition

/-- `ApplyMessage`: the message applied to the state, with the block's pool
`gp`. -/
def ApplyMessage {α : Type} [DecidableEq α] [Inhabited α] (evm : Evm α) (state : StateDB α) (msg : Message α)
    (gp : GasPool) : Option (ExecutionResult × StateTransition α) :=
  (NewStateTransition state msg gp).TransitionDb evm

end Lemochain.Core
