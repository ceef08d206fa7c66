import Mathlib.Data.List.Basic
import Lemochain.Common.Types
import Lemochain.Lib.Keccak

/-!
# The state database (`core/state/statedb.go`, `core/state/state_object.go`)

`StateDB` sits between the virtual machine and the account trie. Accounts are
read from the trie into live `stateObject`s, changed there, and written back
to the trie only by `Finalise` (so by `IntermediateRoot`) and `Commit`. To
find the changed objects without scanning the whole cache, every object
carries an `onDirty` callback, `MarkStateObjectDirty`, which its first setter
calls and then clears: the address enters `stateObjectsDirty` once.

`Copy` builds an independent state from the trie and from deep copies of the
dirty objects only, and `DeleteSuicides` empties `stateObjectsDirty` without
writing anything to the trie.

The model keeps what these functions read and write. The trie is the
key-value map it stores, `α → Option Account`, and `IntermediateRoot`
returns that map: the root hash is a function of it. `stateObjects` is a
function from addresses to live objects, and `stateObjectsDirty` is a list
without repetitions, iterated in list order where the source ranges over a
Go map. The loops over it are order independent: each pass touches only
its own address. In the source a setter changes the live object through
its pointer; here the changed object is written back (`writeBack`), and the
callback becomes the flag `onDirty` (set while the callback is not nil).
Storage, code, logs, preimages and the journal are not modelled.
-/

namespace Lemochain.State

open Lemochain.Keccak

/-- `state.Account`: what the account trie stores for an address (the
storage root is left out with the storage). Balances are `*big.Int`, so a
`SubBalance` below zero leaves a negative balance. -/
structure Account where
  Nonce : UInt64
  Balance : Int
  CodeHash : Bytes
  deriving DecidableEq, Repr

/-- `emptyCodeHash`, the hash of no code. -/
def emptyCodeHash : Bytes := keccak256 []

/-- `stateObject`, a live account: its data, the suicide and deletion flags,
and whether the `onDirty` callback is still set. -/
structure stateObject where
  data : Account
  suicided : Bool
  deleted : Bool
  onDirty : Bool
  deriving DecidableEq, Repr

/-- `newObject`: a fresh object for `data`, with `onDirty` set when a
callback is given. -/
def newObject (data : Account) (onDirty : Bool) : stateObject := ⟨data, false, false, onDirty⟩

namespace stateObject

/-- `stateObject.empty`: the EIP-161 empty account, with no nonce, no
balance and no code. -/
def empty (o : stateObject) : Bool :=
  o.data.Nonce == 0 && o.data.Balance == 0 && o.data.CodeHash == emptyCodeHash

/-- What every setter does after its write: a set `onDirty` is called and
cleared. The second component says whether it was called. -/
def dirtied (o : stateObject) : stateObject × Bool := ({ o with onDirty := false }, o.onDirty)

/-- `stateObject.markSuicided`. -/
def markSuicided (o : stateObject) : stateObject × Bool := dirtied { o with suicided := true }

/-- `stateObject.touch` (the `touched` flag only serves the journal). -/
def touch (o : stateObject) : stateObject × Bool := dirtied o

/-- `stateObject.setBalance`. -/
def setBalance (o : stateObject) (amount : Int) : stateObject × Bool :=
  dirtied { o with data := { o.data with Balance := amount } }

/-- `stateObject.SetBalance`: the journal entry, then `setBalance`. -/
def SetBalance (o : stateObject) (amount : Int) : stateObject × Bool := o.setBalance amount

/-- `stateObject.AddBalance`: a zero amount only touches an empty account. -/
def AddBalance (o : stateObject) (amount : Int) : stateObject × Bool :=
  if amount = 0 then
    if o.empty then o.touch else (o, false)
  else o.SetBalance (o.data.Balance + amount)

/-- `stateObject.SubBalance`. -/
def SubBalance (o : stateObject) (amount : Int) : stateObject × Bool :=
  if amount = 0 then (o, false) else o.SetBalance (o.data.Balance - amount)

/-- `stateObject.setNonce`. -/
def setNonce (o : stateObject) (nonce : UInt64) : stateObject × Bool :=
  dirtied { o with data := { o.data with Nonce := nonce } }

/-- `stateObject.SetNonce`: the journal entry, then `setNonce`. -/
def SetNonce (o : stateObject) (nonce : UInt64) : stateObject × Bool := o.setNonce nonce

/-- `stateObject.deepCopy`: a new object with the copy's callback, keeping
the data and the suicide and deletion flags. -/
def deepCopy (o : stateObject) : stateObject :=
  { newObject o.data true with suicided := o.suicided, deleted := o.deleted }

end stateObject

/-- `StateDB`: the account trie, the live objects and the dirty addresses,
and the refund counter. -/
structure StateDB (α : Type) where
  trie : α → Option Account
  stateObjects : α → Option stateObject
  stateObjectsDirty : List α
  refund : UInt64

namespace StateDB

variable {α : Type} [DecidableEq α]

/-- `state.New`: an empty cache over the trie at a root. -/
def New (tr : α → Option Account) : StateDB α := ⟨tr, fun _ => none, [], 0⟩

/-- `StateDB.MarkStateObjectDirty`. -/
def MarkStateObjectDirty (s : StateDB α) (addr : α) : StateDB α :=
  if addr ∈ s.stateObjectsDirty then s else { s with stateObjectsDirty := addr :: s.stateObjectsDirty }

/-- `StateDB.setStateObject`. -/
def setStateObject (s : StateDB α) (addr : α) (object : stateObject) : StateDB α :=
  { s with stateObjects := fun a => if a = addr then some object else s.stateObjects a }

/-- The object a setter returned, written back to the live set; if its
callback ran, the address is marked dirty. -/
def writeBack (s : StateDB α) (addr : α) (r : stateObject × Bool) : StateDB α :=
  if r.2 then (s.setStateObject addr r.1).MarkStateObjectDirty addr else s.setStateObject addr r.1

/-- `StateDB.getStateObject`: the live object unless it is deleted, or else
the account of the trie, which then joins the live set. -/
def getStateObject (s : StateDB α) (addr : α) : Option stateObject × StateDB α :=
  match s.stateObjects addr with
  | some obj => (if obj.deleted then none else some obj, s)
  | none =>
    match s.trie addr with
    | none => (none, s)
    | some data => (some (newObject data true), s.setStateObject addr (newObject data true))

/-- `StateDB.createObject`: a new empty object (the `Account{}` of the
source with `newObject`'s defaults), marked dirty by its `setNonce`, and the
object it replaces. -/
def createObject (s : StateDB α) (addr : α) : (stateObject × Option stateObject) × StateDB α :=
  let (prev, s) := s.getStateObject addr
  let r := (newObject ⟨0, 0, emptyCodeHash⟩ true).setNonce 0
  ((r.1, prev), s.writeBack addr r)

/-- `StateDB.GetOrNewStateObject`. -/
def GetOrNewStateObject (s : StateDB α) (addr : α) : stateObject × StateDB α :=
  let (obj, s) := s.getStateObject addr
  match obj with
  | some o => if o.deleted then ((s.createObject addr).1.1, (s.createObject addr).2) else (o, s)
  | none => ((s.createObject addr).1.1, (s.createObject addr).2)

/-! ## The setters -/

/-- `StateDB.AddBalance`. -/
def AddBalance (s : StateDB α) (addr : α) (amount : Int) : StateDB α :=
  let (o, s) := s.GetOrNewStateObject addr
  s.writeBack addr (o.AddBalance amount)

/-- `StateDB.SubBalance`. -/
def SubBalance (s : StateDB α) (addr : α) (amount : Int) : StateDB α :=
  let (o, s) := s.GetOrNewStateObject addr
  s.writeBack addr (o.SubBalance amount)

/-- `StateDB.SetBalance`. -/
def SetBalance (s : StateDB α) (addr : α) (amount : Int) : StateDB α :=
  let (o, s) := s.GetOrNewStateObject addr
  s.writeBack addr (o.SetBalance amount)

/-- `StateDB.SetNonce`. -/
def SetNonce (s : StateDB α) (addr : α) (nonce : UInt64) : StateDB α :=
  let (o, s) := s.GetOrNewStateObject addr
  s.writeBack addr (o.SetNonce nonce)

/-- `StateDB.Suicide`: marks the account and clears its balance; `false`
for a missing account. -/
def Suicide (s : StateDB α) (addr : α) : Bool × StateDB α :=
  let (obj, s) := s.getStateObject addr
  match obj with
  | none => (false, s)
  | some o =>
    let r := o.markSuicided
    (true, s.writeBack addr ({ r.1 with data := { r.1.data with Balance := 0 } }, r.2))

/-- `StateDB.CreateAccount`: a new object that carries over the balance of
the one it replaces. -/
def CreateAccount (s : StateDB α) (addr : α) : StateDB α :=
  let ((new, prev), s) := s.createObject addr
  match prev with
  | some p => s.writeBack addr (new.setBalance p.data.Balance)
  | none => s

/-- `StateDB.AddRefund`. -/
def AddRefund (s : StateDB α) (gas : UInt64) : StateDB α := { s with refund := s.refund + gas }

/-! ## The accessors

Each accessor goes through `getStateObject`, so it may load the account into
the live set: it returns the state after the read. -/

/-- `StateDB.Exist`: also true of a suicided account. -/
def Exist (s : StateDB α) (addr : α) : Bool × StateDB α :=
  let (obj, s) := s.getStateObject addr
  (obj.isSome, s)

/-- `StateDB.Empty`: missing or EIP-161 empty. -/
def Empty (s : StateDB α) (addr : α) : Bool × StateDB α :=
  let (obj, s) := s.getStateObject addr
  (match obj with
    | some o => o.empty
    | none => true, s)

/-- `StateDB.GetBalance`: `0` for a missing account. -/
def GetBalance (s : StateDB α) (addr : α) : Int × StateDB α :=
  let (obj, s) := s.getStateObject addr
  (match obj with
    | some o => o.data.Balance
    | none => 0, s)

/-- `StateDB.GetNonce`: `0` for a missing account. -/
def GetNonce (s : StateDB α) (addr : α) : UInt64 × StateDB α :=
  let (obj, s) := s.getStateObject addr
  (match obj with
    | some o => o.data.Nonce
    | none => 0, s)

/-- `StateDB.HasSuicided`. -/
def HasSuicided (s : StateDB α) (addr : α) : Bool × StateDB α :=
  let (obj, s) := s.getStateObject addr
  (match obj with
    | some o => o.suicided
    | none => false, s)

/-- `StateDB.GetRefund`. -/
def GetRefund (s : StateDB α) : UInt64 := s.refund

/-! ## Writing to the trie, copying, deleting suicides -/

/-- `StateDB.updateStateObject`: the object's data into the trie. -/
def updateStateObject (s : StateDB α) (addr : α) (o : stateObject) : StateDB α :=
  { s with trie := fun a => if a = addr then some o.data else s.trie a }

/-- `StateDB.deleteStateObject`: the object flagged deleted, and its
account removed from the trie. -/
def deleteStateObject (s : StateDB α) (addr : α) (o : stateObject) : StateDB α :=
  { s.setStateObject addr { o with deleted := true } with trie := fun a => if a = addr then none else s.trie a }

/-- `StateDB.clearJournalAndRefund` (the journal is not modelled). -/
def clearJournalAndRefund (s : StateDB α) : StateDB α := { s with refund := 0 }

/-- One pass of the loop of `Finalise`. The source dereferences the object
of every dirty address; that it exists is the invariant `Inv.live`. -/
def finaliseObject (deleteEmptyObjects : Bool) (s : StateDB α) (addr : α) : StateDB α :=
  match s.stateObjects addr with
  | some o =>
    if o.suicided || (deleteEmptyObjects && o.empty) then s.deleteStateObject addr o
    else s.updateStateObject addr o
  | none => s

/-- `StateDB.Finalise`: every dirty object written to the trie or removed
from it. The dirty set is kept. -/
def Finalise (s : StateDB α) (deleteEmptyObjects : Bool) : StateDB α :=
  (s.stateObjectsDirty.foldl (finaliseObject deleteEmptyObjects) s).clearJournalAndRefund

/-- `StateDB.IntermediateRoot`: `Finalise`, then the trie whose root hash
the source returns. -/
def IntermediateRoot (s : StateDB α) (deleteEmptyObjects : Bool) : (α → Option Account) × StateDB α :=
  let s := s.Finalise deleteEmptyObjects
  (s.trie, s)

/-- One pass of the loop of `DeleteSuicides`: a suicided object is flagged
deleted, and the address leaves the dirty set. -/
def deleteSuicide (s : StateDB α) (addr : α) : StateDB α :=
  let s := match s.stateObjects addr with
    | some o => if o.suicided then s.setStateObject addr { o with deleted := true } else s
    | none => s
  { s with stateObjectsDirty := s.stateObjectsDirty.erase addr }

/-- `StateDB.DeleteSuicides`. -/
def DeleteSuicides (s : StateDB α) : StateDB α :=
  let s := s.clearJournalAndRefund
  s.stateObjectsDirty.foldl deleteSuicide s

/-- One pass of the loop of `Copy`: the deep copy of a dirty object, marked
dirty in the copy. -/
def copyObject (s c : StateDB α) (addr : α) : StateDB α :=
  let c := match s.stateObjects addr with
    | some o => c.setStateObject addr o.deepCopy
    | none => c
  c.MarkStateObjectDirty addr

/-- `StateDB.Copy`: the trie and the refund counter, and deep copies of the
dirty objects. -/
def Copy (s : StateDB α) : StateDB α :=
  s.stateObjectsDirty.foldl (copyObject s) ⟨s.trie, fun _ => none, [], s.refund⟩

end StateDB

end Lemochain.State
