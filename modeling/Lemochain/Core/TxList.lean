import Mathlib.Data.List.AList
import Lemochain.Lib.Heap
import Lemochain.Core.Types.Transaction

/-!
# Nonce-sorted transaction lists (`core/tx_list.go`)

`txSortedMap` keeps the transactions of one account three ways: a map from
nonce to transaction (`items`), a heap of the nonces (`index`, a `nonceHeap`
under `container/heap`), and the transactions sorted by nonce (`cache`,
`nil` when stale). `txList` adds the pool's view: whether the nonces must be
gap-free (`strict`), and the highest cost and gas limit of the transactions
it has taken (`costcap`, `gascap`), which let `Filter` return at once when a
balance and a block gas limit cover them.

A Go map is an association list. A `range` statement over it may visit the
entries in any order, and two of them need not agree; the operations that
range over `items` take that order as a `MapRange`, a choice of order for
every map that is a permutation of its entries. The loops that pop the heap
run with the length of the heap as fuel, which is enough: each turn pops one
nonce.

A read `m.items[nonce]` of a missing nonce is `nil` in the source; it is
`none` here, so the transactions `Forward`, `Cap` and `Ready` return are
`Option Transaction`. An index out of range panics in the source; here it
reads the default, and `TxListSpec` shows that no reachable map reaches one.
-/

namespace Lemochain.Core

open Lemochain.Types Lemochain.Heap
open scoped List

/-- `nonceHeap.Less`. -/
def nonceHeap.Less (a b : UInt64) : Prop := a < b

instance : DecidableRel nonceHeap.Less := fun a b => inferInstanceAs (Decidable (a < b))

instance : IsStrictWeakOrder UInt64 nonceHeap.Less where
  irrefl a := UInt64.lt_irrefl a
  trans _ _ _ hab hbc := UInt64.lt_trans hab hbc
  incomp_trans a b c hab hbc := by
    unfold nonceHeap.Less at *
    simp only [UInt64.lt_iff_toNat_lt] at *
    omega

/-- The map from nonce to transaction of `txSortedMap.items`. -/
abbrev TxMap := AList fun _ : UInt64 => Transaction

/-- The order in which `range` visits a map: for each map, its entries in
some order, and its keys in some order. -/
structure MapRange where
  items : TxMap → List (Sigma fun _ : UInt64 => Transaction)
  keys : TxMap → List UInt64
  items_perm : ∀ m, items m ~ m.entries
  keys_perm : ∀ m, keys m ~ m.keys

/-- The order of the association list itself. -/
def MapRange.entries : MapRange := ⟨AList.entries, AList.keys, fun _ => .refl _, fun _ => .refl _⟩

/-- `txSortedMap`. -/
structure txSortedMap where
  items : TxMap
  index : List UInt64
  cache : Option (List Transaction)

/-- `newTxSortedMap`. -/
def newTxSortedMap : txSortedMap := ⟨∅, [], none⟩

namespace txSortedMap

/-- `Get`. -/
def Get (m : txSortedMap) (nonce : UInt64) : Option Transaction := m.items.lookup nonce

/-- `Put`: a new nonce is pushed on the heap; the cache goes stale. -/
def Put (m : txSortedMap) (tx : Transaction) : txSortedMap :=
  let nonce := tx.Nonce
  { items := m.items.insert nonce tx
    index := if (m.items.lookup nonce).isNone then Heap.Push nonceHeap.Less m.index nonce else m.index
    cache := none }

/-- The loop of `Forward`: pop the heap while its root is below the
threshold. -/
def forwardLoop (threshold : UInt64) :
    Nat → txSortedMap → List (Option Transaction) → txSortedMap × List (Option Transaction)
  | 0, m, removed => (m, removed)
  | fuel + 1, m, removed =>
      match m.index with
      | [] => (m, removed)
      | root :: _ =>
          if root < threshold then
            match Heap.Pop nonceHeap.Less m.index with
            | some (nonce, index) =>
                forwardLoop threshold fuel { m with items := m.items.erase nonce, index := index }
                  (removed ++ [m.items.lookup nonce])
            | none => (m, removed)
          else (m, removed)

/-- `Forward`: the transactions below the threshold leave; the cache loses
as many from its front. -/
def Forward (m : txSortedMap) (threshold : UInt64) : txSortedMap × List (Option Transaction) :=
  let r := forwardLoop threshold m.index.length m []
  ({ r.1 with cache := m.cache.map fun c => c.drop r.2.length }, r.2)

/-- The loop of `Filter` over the entries in the order `range` visits them. -/
def filterLoop (filter : Transaction → Bool) :
    List (Sigma fun _ : UInt64 => Transaction) → TxMap → List Transaction → TxMap × List Transaction
  | [], items, removed => (items, removed)
  | e :: es, items, removed =>
      if filter e.2 then filterLoop filter es (items.erase e.1) (removed ++ [e.2])
      else filterLoop filter es items removed

/-- `Filter`: the transactions the filter accepts leave; if any did, the
heap is rebuilt from the remaining nonces and the cache goes stale. -/
def Filter (m : txSortedMap) (r : MapRange) (filter : Transaction → Bool) : txSortedMap × List Transaction :=
  let res := filterLoop filter (r.items m.items) m.items []
  if 0 < res.2.length then
    ({ items := res.1, index := Heap.Init nonceHeap.Less (r.keys res.1), cache := none }, res.2)
  else ({ m with items := res.1 }, res.2)

/-- The loop of `Cap`: from the top of the sorted nonces, drop until
`threshold` are left. -/
def capLoop (sorted : List UInt64) (threshold : Nat) :
    Nat → TxMap → List (Option Transaction) → TxMap × List (Option Transaction)
  | 0, items, drops => (items, drops)
  | size + 1, items, drops =>
      if threshold < size + 1 then
        let nonce := nth sorted size
        capLoop sorted threshold size (items.erase nonce) (drops ++ [items.lookup nonce])
      else (items, drops)

/-- `Cap`: beyond `threshold` transactions, the highest nonces leave; the
cache loses as many from its back. The source's `int` threshold is a
natural number here: a negative one reads `index[-1]` and panics. -/
def Cap (m : txSortedMap) (threshold : Nat) : txSortedMap × List (Option Transaction) :=
  if m.items.entries.length ≤ threshold then (m, [])
  else
    let sorted := m.index.mergeSort fun a b => decide (a ≤ b)
    let r := capLoop sorted threshold m.items.entries.length m.items []
    ({ items := r.1
       index := Heap.Init nonceHeap.Less (sorted.take threshold)
       cache := m.cache.map fun c => c.take (c.length - r.2.length) }, r.2)

/-- `Remove`: the nonce leaves the map and, at its first place, the heap;
the cache goes stale. -/
def Remove (m : txSortedMap) (nonce : UInt64) : txSortedMap × Bool :=
  match m.items.lookup nonce with
  | none => (m, false)
  | some _ =>
      let index := match Heap.Remove nonceHeap.Less m.index (m.index.idxOf nonce) with
        | some (_, index) => index
        | none => m.index
      ({ items := m.items.erase nonce, index := index, cache := none }, true)

/-- The loop of `Ready`: take the root while it is the next nonce. -/
def readyLoop : Nat → UInt64 → txSortedMap → List (Option Transaction) → txSortedMap × List (Option Transaction)
  | 0, _, m, ready => (m, ready)
  | fuel + 1, next, m, ready =>
      match m.index with
      | [] => (m, ready)
      | root :: _ =>
          if root = next then
            readyLoop fuel (next + 1)
              { m with
                items := m.items.erase next
                index := ((Heap.Pop nonceHeap.Less m.index).map Prod.snd).getD m.index }
              (ready ++ [m.items.lookup next])
          else (m, ready)

/-- `Ready`: from the lowest nonce, if it is at most `start`, the run of
consecutive nonces leaves; the cache goes stale. -/
def Ready (m : txSortedMap) (start : UInt64) : txSortedMap × List (Option Transaction) :=
  match m.index with
  | [] => (m, [])
  | root :: _ =>
      if start < root then (m, [])
      else
        let r := readyLoop m.index.length root m []
        ({ r.1 with cache := none }, r.2)

/-- `Len`. -/
def Len (m : txSortedMap) : Nat := m.items.entries.length

/-- `Flatten`: the cache, sorted afresh from the map when stale. -/
def Flatten (m : txSortedMap) (r : MapRange) : txSortedMap × List Transaction :=
  match m.cache with
  | some c => (m, c)
  | none =>
      let c := sortByNonce ((r.items m.items).map (·.2))
      ({ m with cache := some c }, c)

end txSortedMap

/-- `txList`: `costcap` is a `big.Int`, `gascap` a `uint64`. -/
structure txList where
  strict : Bool
  txs : txSortedMap
  costcap : Int
  gascap : UInt64

/-- `newTxList`. -/
def newTxList (strict : Bool) : txList := ⟨strict, newTxSortedMap, 0, 0⟩

namespace txList

/-- `Overlaps`. -/
def Overlaps (l : txList) (tx : Transaction) : Bool := (l.txs.Get tx.Nonce).isSome

/-- The price a replacement must reach: `old.GasPrice() * (100 + priceBump) / 100`,
with `100 + int64(priceBump)` in `int64`. -/
def replaceThreshold (old : Transaction) (priceBump : UInt64) : Int :=
  (old.GasPrice * ((100 : Int64) + priceBump.toInt64).toInt) / 100

/-- The test of `Add`: an older transaction of the nonce that the new one
does not outbid, by more than its price and at least the bumped price. -/
def rejects (old : Option Transaction) (tx : Transaction) (priceBump : UInt64) : Bool :=
  match old with
  | some old => decide (tx.GasPrice ≤ old.GasPrice) || decide ((tx.GasPrice : Int) < replaceThreshold old priceBump)
  | none => false

/-- `Add`: a transaction of a taken nonce must pay more than the old one,
and at least the bumped price; the caps rise to the new transaction. -/
def Add (l : txList) (tx : Transaction) (priceBump : UInt64) : txList × Bool × Option Transaction :=
  let old := l.txs.Get tx.Nonce
  if rejects old tx priceBump then (l, false, none)
  else
    ({ l with
       txs := l.txs.Put tx
       costcap := if l.costcap < tx.Cost then tx.Cost else l.costcap
       gascap := if l.gascap < tx.Gas then tx.Gas else l.gascap }, true, old)

/-- `Forward`. -/
def Forward (l : txList) (threshold : UInt64) : txList × List (Option Transaction) :=
  let r := l.txs.Forward threshold
  ({ l with txs := r.1 }, r.2)

/-- The lowest nonce of the removed transactions, from `math.MaxUint64`. -/
def lowestNonce (removed : List Transaction) : UInt64 :=
  removed.foldl (fun lowest tx => if tx.Nonce < lowest then tx.Nonce else lowest) 18446744073709551615

/-- The filter of `Filter`: a cost above the balance, or a gas limit above
the block's. -/
def overLimits (costLimit : Int) (gasLimit : UInt64) (tx : Transaction) : Bool :=
  decide (costLimit < tx.Cost) || decide (gasLimit < tx.Gas)

/-- `Filter`: unless the caps are within the limits, the caps drop to the
limits, the transactions over either limit leave, and in strict mode so do
those above the lowest nonce that left. -/
def Filter (l : txList) (r r' : MapRange) (costLimit : Int) (gasLimit : UInt64) :
    txList × List Transaction × List Transaction :=
  if l.costcap ≤ costLimit ∧ l.gascap ≤ gasLimit then (l, [], [])
  else
    let res := l.txs.Filter r (overLimits costLimit gasLimit)
    if l.strict ∧ 0 < res.2.length then
      let lowest := lowestNonce res.2
      let inv := res.1.Filter r' fun tx => decide (lowest < tx.Nonce)
      ({ l with txs := inv.1, costcap := costLimit, gascap := gasLimit }, res.2, inv.2)
    else ({ l with txs := res.1, costcap := costLimit, gascap := gasLimit }, res.2, [])

/-- `Cap`. -/
def Cap (l : txList) (threshold : Nat) : txList × List (Option Transaction) :=
  let r := l.txs.Cap threshold
  ({ l with txs := r.1 }, r.2)

/-- `Remove`: in strict mode the transactions above the removed nonce leave
too. -/
def Remove (l : txList) (r : MapRange) (tx : Transaction) : txList × Bool × List Transaction :=
  let nonce := tx.Nonce
  let res := l.txs.Remove nonce
  if !res.2 then (l, false, [])
  else if l.strict then
    let inv := res.1.Filter r fun tx => decide (nonce < tx.Nonce)
    ({ l with txs := inv.1 }, true, inv.2)
  else ({ l with txs := res.1 }, true, [])

/-- `Ready`. -/
def Ready (l : txList) (start : UInt64) : txList × List (Option Transaction) :=
  let r := l.txs.Ready start
  ({ l with txs := r.1 }, r.2)

/-- `Len`. -/
def Len (l : txList) : Nat := l.txs.Len

/-- `Empty`. -/
def Empty (l : txList) : Bool := l.Len == 0

/-- `Flatten`. -/
def Flatten (l : txList) (r : MapRange) : txList × List Transaction :=
  let res := l.txs.Flatten r
  ({ l with txs := res.1 }, res.2)

end txList

end Lemochain.Core
