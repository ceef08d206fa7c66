import Mathlib.Data.List.AList
import Lemochain.Lib.Heap
import Lemochain.Core.Types.Signing

/-!
# Transactions by price and nonce (`core/types/transaction.go`)

The accessors of a transaction, the orders `TxByNonce` and `TxByPrice`, and
`TransactionsByPriceAndNonce`, the set the miner takes transactions from: a
price heap (`TxByPrice`, highest price first) of one head per account, and a
map from each account to the rest of its nonce-sorted transactions. `Peek`
is the root of the heap; `Shift` replaces it by the next transaction of the
same account and repairs the heap with `heap.Fix`, or pops it when the
account has no more; `Pop` drops it without a replacement.

The map is an association list whose entries are the iteration order of
`range`. The account of a transaction is `types.Sender` with the signer of
the set (`senderAddress`); its cache never changes an answer
(`senders_uncached`), and recovery never panics (`Sender_isSome`).

## Main results

* `Shift_spec`, `Pop_spec`: one step on the invariant `Inv`: `Shift` yields
  the head and keeps every other pending transaction, in each account's
  order; `Pop` drops the head's account.
* `drain_spec`: the loop of `Peek` and `Shift` yields every pending
  transaction once, each account's in its order.
* `price_nonce_order`: from a map keyed by the derived senders, the miner's
  loop yields every transaction exactly once, each account's by increasing
  nonce, every head yielded has the best price of the heads, and `Pop`
  drops exactly the rest of the head's account.
-/

namespace Lemochain.Types

open Lemochain.Heap
open scoped List

/-- `tx.Nonce()`. -/
def Transaction.Nonce (tx : Transaction) : UInt64 := tx.data.AccountNonce

/-- `tx.Gas()`. -/
def Transaction.Gas (tx : Transaction) : UInt64 := tx.data.GasLimit

/-- `tx.GasPrice()`. -/
def Transaction.GasPrice (tx : Transaction) : Nat := tx.data.Price

/-- `tx.Cost()`: `price * gas + amount`. -/
def Transaction.Cost (tx : Transaction) : Nat := tx.data.Price * tx.data.GasLimit.toNat + tx.data.Amount

instance : Inhabited Transaction := ⟨⟨⟨0, 0, 0, none, 0, [], 0, 0, 0⟩, none⟩⟩

/-- `sort.Sort(TxByNonce(txs))`, here a merge sort: on distinct nonces every
sort gives the same list. -/
def sortByNonce (txs : List Transaction) : List Transaction := txs.mergeSort fun a b => decide (a.Nonce ≤ b.Nonce)

/-- `TxByPrice.Less`: the higher price comes first. -/
def TxByPrice.Less (a b : Transaction) : Prop := b.GasPrice < a.GasPrice

instance : DecidableRel TxByPrice.Less := fun a b => inferInstanceAs (Decidable (b.GasPrice < a.GasPrice))

instance : IsStrictWeakOrder Transaction TxByPrice.Less where
  irrefl _ := Nat.lt_irrefl _
  trans _ _ _ hab hbc := Nat.lt_trans hbc hab
  incomp_trans _ _ _ hab hbc := by
    unfold TxByPrice.Less at *
    omega

/-- `common.Address{}`. -/
def zeroAddress : Address := ⟨List.replicate AddressLength 0, List.length_replicate⟩

variable {PrivateKey : Type}

/-- `acc, _ := Sender(signer, tx)`: the zero address on an error. -/
def senderAddress (c : Secp256k1 PrivateKey) (signer : Signer) (tx : Transaction) : Address :=
  match Sender c signer tx with
  | some (.ok addr, _) => addr
  | _ => zeroAddress

/-- With nothing cached, the sender is the signer's answer. -/
theorem senderAddress_of_Sender {c : Secp256k1 PrivateKey} {signer : Signer} {tx : Transaction} {addr : Address}
    (hc : tx.fromCache = none) (h : signer.Sender c tx = some (.ok addr)) : senderAddress c signer tx = addr := by
  simp only [senderAddress, Sender, hc, h]

/-- `TransactionsByPriceAndNonce`. -/
structure TransactionsByPriceAndNonce where
  txs : AList fun _ : Address => List Transaction
  heads : List Transaction
  signer : Signer

/-- One entry of the loop of `NewTransactionsByPriceAndNonce`: the first
transaction becomes a head and the account keeps the rest; `accTxs[0]` of an
empty list panics. -/
def newStep (c : Secp256k1 PrivateKey) (signer : Signer)
    (acc : Option (List Transaction × AList fun _ : Address => List Transaction))
    (e : Sigma fun _ : Address => List Transaction) :
    Option (List Transaction × AList fun _ : Address => List Transaction) :=
  match acc, e.2 with
  | none, _ => none
  | some _, [] => none
  | some (heads, m), tx :: rest => some (heads ++ [tx], m.insert (senderAddress c signer tx) rest)

/-- `NewTransactionsByPriceAndNonce`: the loop over the map, then
`heap.Init` of the heads. -/
def NewTransactionsByPriceAndNonce (c : Secp256k1 PrivateKey) (signer : Signer)
    (txs : AList fun _ : Address => List Transaction) : Option TransactionsByPriceAndNonce :=
  (txs.entries.foldl (newStep c signer) (some ([], txs))).map fun r => ⟨r.2, Heap.Init TxByPrice.Less r.1, signer⟩

namespace TransactionsByPriceAndNonce

/-- `Peek`. -/
def Peek (t : TransactionsByPriceAndNonce) : Option Transaction := t.heads.head?

/-- `Shift`: the next transaction of the head's account replaces the head,
or the head is popped; an empty heap panics. -/
def Shift (c : Secp256k1 PrivateKey) (t : TransactionsByPriceAndNonce) : Option TransactionsByPriceAndNonce :=
  match t.heads with
  | [] => none
  | h :: _ =>
      let acc := senderAddress c t.signer h
      match t.txs.lookup acc with
      | some (tx :: rest) =>
          some { t with heads := Heap.Fix TxByPrice.Less (t.heads.set 0 tx) 0, txs := t.txs.insert acc rest }
      | _ => (Heap.Pop TxByPrice.Less t.heads).map fun r => { t with heads := r.2 }

/-- `Pop`: the head is dropped; an empty heap panics. -/
def Pop (t : TransactionsByPriceAndNonce) : Option TransactionsByPriceAndNonce :=
  (Heap.Pop TxByPrice.Less t.heads).map fun r => { t with heads := r.2 }

end TransactionsByPriceAndNonce

open TransactionsByPriceAndNonce

/-- The miner's loop: `Peek` and `Shift` until nothing is left, within
`fuel` steps. -/
def drain (c : Secp256k1 PrivateKey) : Nat → TransactionsByPriceAndNonce → List Transaction
  | 0, _ => []
  | fuel + 1, t =>
      match t.Peek with
      | none => []
      | some tx => tx :: match t.Shift c with
        | none => []
        | some t' => drain c fuel t'

/-! ## The pending transactions -/

/-- With unique keys, at most one element passes the test, so the order of
the list does not matter. -/
theorem flatMap_ite_perm {β γ κ : Type} [DecidableEq κ] (key : β → κ) (g : β → List γ) (a : κ) {l₁ l₂ : List β}
    (p : l₁ ~ l₂) (hnd : (l₁.map key).Nodup) :
    l₁.flatMap (fun h => if key h = a then g h else []) = l₂.flatMap (fun h => if key h = a then g h else []) := by
  induction p with
  | nil => rfl
  | cons x _ ih =>
      rw [List.map_cons, List.nodup_cons] at hnd
      rw [List.flatMap_cons, List.flatMap_cons, ih hnd.2]
  | swap x y l =>
      rw [List.map_cons, List.map_cons, List.nodup_cons, List.mem_cons, not_or] at hnd
      have hxy : key y ≠ key x := hnd.1.1
      simp only [List.flatMap_cons]
      by_cases hx : key x = a <;> by_cases hy : key y = a
      · exact absurd (hy.trans hx.symm) hxy
      · simp [hx, hy]
      · simp [hx, hy]
      · simp [hx, hy]
  | trans p₁ _ ih₁ ih₂ => rw [ih₁ hnd, ih₂ ((p₁.map key).nodup_iff.mp hnd)]

variable (c : Secp256k1 PrivateKey)

/-- The rest of the account of a head. -/
def rest (t : TransactionsByPriceAndNonce) (h : Transaction) : List Transaction :=
  (t.txs.lookup (senderAddress c t.signer h)).getD []

/-- The transactions still to come: each head, then the rest of its account. -/
def pending (t : TransactionsByPriceAndNonce) : List Transaction :=
  t.heads.flatMap fun h => h :: rest c t h

/-- The pending transactions of the account `a`. -/
def pendingOf (t : TransactionsByPriceAndNonce) (a : Address) : List Transaction :=
  t.heads.flatMap fun h => if senderAddress c t.signer h = a then h :: rest c t h else []

/-- The invariant of the set: the heads are a price heap with one head per
account, and the rest of an account belongs to it. -/
structure Inv (t : TransactionsByPriceAndNonce) : Prop where
  heap : IsHeap TxByPrice.Less t.heads
  nodup : (t.heads.map (senderAddress c t.signer)).Nodup
  sender : ∀ h ∈ t.heads, ∀ tx ∈ rest c t h, senderAddress c t.signer tx = senderAddress c t.signer h

/-- The rest of an account does not depend on the heads. -/
@[simp] theorem rest_withHeads (t : TransactionsByPriceAndNonce) (ys : List Transaction) (h : Transaction) :
    rest c { t with heads := ys } h = rest c t h := rfl

theorem pending_eq_nil_iff {t : TransactionsByPriceAndNonce} : pending c t = [] ↔ t.heads = [] := by
  rw [pending, List.flatMap_eq_nil_iff]
  constructor
  · intro h
    cases hh : t.heads with
    | nil => rfl
    | cons x _ => exact absurd (h x (by rw [hh]; exact List.mem_cons_self)) (List.cons_ne_nil _ _)
  · intro h x hx
    rw [h] at hx
    cases hx

theorem pendingOf_eq_nil {t : TransactionsByPriceAndNonce} {a : Address} {hs : List Transaction}
    (h : ∀ x ∈ hs, senderAddress c t.signer x ≠ a) :
    hs.flatMap (fun h => if senderAddress c t.signer h = a then h :: rest c t h else []) = [] :=
  List.flatMap_eq_nil_iff.mpr fun x hx => if_neg (h x hx)

/-- Popping the root of the heads: the heads of the other accounts remain. -/
theorem Inv.pop {t : TransactionsByPriceAndNonce} (hinv : Inv c t) {h0 : Transaction} {hs : List Transaction}
    (hheads : t.heads = h0 :: hs) :
    ∃ ys, Heap.Pop TxByPrice.Less t.heads = some (h0, ys) ∧ ys ~ hs ∧ Inv c { t with heads := ys } := by
  obtain ⟨ys, hpop, hperm, hheap⟩ := Heap.Pop_heap TxByPrice.Less hinv.heap (by rw [hheads]; exact List.cons_ne_nil _ _)
  have h0' : nth t.heads 0 = h0 := by rw [hheads]; rfl
  rw [h0', hheads] at hperm
  rw [h0'] at hpop
  have hys : ys ~ hs := hperm.cons_inv
  have hnd : (hs.map (senderAddress c t.signer)).Nodup := by
    have := hinv.nodup
    rw [hheads, List.map_cons, List.nodup_cons] at this
    exact this.2
  refine ⟨ys, hpop, hys, hheap, (hys.map _).nodup_iff.mpr hnd, fun h hh tx htx => ?_⟩
  exact hinv.sender h (by rw [hheads]; exact List.mem_cons_of_mem _ (hys.subset hh)) tx htx

theorem senderAddress_ne_of_mem {t : TransactionsByPriceAndNonce} (hinv : Inv c t) {h0 : Transaction}
    {hs : List Transaction} (hheads : t.heads = h0 :: hs) {h : Transaction} (hh : h ∈ hs) :
    senderAddress c t.signer h ≠ senderAddress c t.signer h0 := by
  have := hinv.nodup
  rw [hheads, List.map_cons, List.nodup_cons] at this
  exact fun he => this.1 (he ▸ List.mem_map_of_mem hh)

theorem pending_cons {t : TransactionsByPriceAndNonce} {h0 : Transaction} {hs : List Transaction}
    (hheads : t.heads = h0 :: hs) :
    pending c t = h0 :: (rest c t h0 ++ hs.flatMap fun h => h :: rest c t h) := by
  rw [pending, hheads, List.flatMap_cons]
  rfl

theorem pendingOf_cons {t : TransactionsByPriceAndNonce} {h0 : Transaction} {hs : List Transaction}
    (hheads : t.heads = h0 :: hs) (a : Address) :
    pendingOf c t a = (if senderAddress c t.signer h0 = a then h0 :: rest c t h0 else []) ++
      hs.flatMap fun h => if senderAddress c t.signer h = a then h :: rest c t h else [] := by
  rw [pendingOf, hheads, List.flatMap_cons]

/-- The pending transactions of the root's account: the root and its rest. -/
theorem pendingOf_head {t : TransactionsByPriceAndNonce} (hinv : Inv c t) {h0 : Transaction}
    {hs : List Transaction} (hheads : t.heads = h0 :: hs) :
    pendingOf c t (senderAddress c t.signer h0) = h0 :: rest c t h0 := by
  rw [pendingOf_cons c hheads, if_pos rfl,
    pendingOf_eq_nil c (fun x hx => senderAddress_ne_of_mem c hinv hheads hx), List.append_nil]

/-- Popping the root `h0` empties its account and leaves the others. -/
theorem pendingOf_popped {t : TransactionsByPriceAndNonce} (hinv : Inv c t) {h0 : Transaction}
    {hs ys : List Transaction} (hheads : t.heads = h0 :: hs) (hys : ys ~ hs)
    (hnd : (ys.map (senderAddress c t.signer)).Nodup) (a : Address) :
    pendingOf c { t with heads := ys } a = if senderAddress c t.signer h0 = a then [] else pendingOf c t a := by
  rw [pendingOf]
  simp only [rest_withHeads]
  rw [flatMap_ite_perm (senderAddress c t.signer) (fun h => h :: rest c t h) a hys hnd]
  by_cases ha : senderAddress c t.signer h0 = a
  · rw [if_pos ha, pendingOf_eq_nil c (fun x hx => ha ▸ senderAddress_ne_of_mem c hinv hheads hx)]
  · rw [if_neg ha, pendingOf_cons c hheads, if_neg ha, List.nil_append]

/-- What one `Shift` does: the head `h0` is yielded, and every other pending
transaction stays, each account's in its order. -/
structure Shifted (t t' : TransactionsByPriceAndNonce) (h0 : Transaction) : Prop where
  inv : Inv c t'
  signer_eq : t'.signer = t.signer
  perm : h0 :: pending c t' ~ pending c t
  pendingOf_eq : ∀ a, pendingOf c t a = if senderAddress c t.signer h0 = a then h0 :: pendingOf c t' a
    else pendingOf c t' a

theorem Shift_eq {t : TransactionsByPriceAndNonce} {h0 : Transaction} {hs : List Transaction}
    (hheads : t.heads = h0 :: hs) :
    t.Shift c = match t.txs.lookup (senderAddress c t.signer h0) with
      | some (tx :: rest) => some
          { t with
            heads := Heap.Fix TxByPrice.Less (t.heads.set 0 tx) 0
            txs := t.txs.insert (senderAddress c t.signer h0) rest }
      | _ => (Heap.Pop TxByPrice.Less t.heads).map fun r => { t with heads := r.2 } := by
  obtain ⟨txs, heads, signer⟩ := t
  dsimp only at hheads
  subst hheads
  rfl

/-- `Shift` when the head's account has nothing left: the head is popped. -/
theorem Shifted.of_pop {t : TransactionsByPriceAndNonce} (hinv : Inv c t) {h0 : Transaction}
    {hs : List Transaction} (hheads : t.heads = h0 :: hs) (hrest : rest c t h0 = []) :
    ∃ t', (Heap.Pop TxByPrice.Less t.heads).map (fun r => { t with heads := r.2 }) = some t' ∧
      Shifted c t t' h0 := by
  obtain ⟨ys, hpop, hys, hinv'⟩ := hinv.pop c hheads
  refine ⟨{ t with heads := ys }, by rw [hpop]; rfl, hinv', rfl, ?_, fun a => ?_⟩
  · rw [pending_cons c hheads, hrest, List.nil_append, pending]
    exact (hys.flatMap_right _).cons _
  · rw [pendingOf_popped c hinv hheads hys hinv'.nodup a]
    by_cases ha : senderAddress c t.signer h0 = a
    · rw [if_pos ha, if_pos ha, ← ha, pendingOf_head c hinv hheads, hrest]
    · rw [if_neg ha, if_neg ha]

/-- `Shift` when the head's account has a next transaction: it replaces the
head and `heap.Fix` repairs the heap.

The rest of an account still belongs to it. -/
theorem Shifted.of_fix {t : TransactionsByPriceAndNonce} (hinv : Inv c t) {h0 : Transaction}
    {hs : List Transaction} (hheads : t.heads = h0 :: hs) {tx : Transaction} {r : List Transaction}
    (hlook : t.txs.lookup (senderAddress c t.signer h0) = some (tx :: r)) :
    Shifted c t
      { t with
        heads := Heap.Fix TxByPrice.Less (t.heads.set 0 tx) 0
        txs := t.txs.insert (senderAddress c t.signer h0) r } h0 := by
  have hne : ∀ {h}, h ∈ hs → senderAddress c t.signer h ≠ senderAddress c t.signer h0 :=
    fun hh => senderAddress_ne_of_mem c hinv hheads hh
  have hrest0 : rest c t h0 = tx :: r := by rw [rest, hlook]; rfl
  have hsend : ∀ y ∈ tx :: r, senderAddress c t.signer y = senderAddress c t.signer h0 :=
    fun y hy => hinv.sender h0 (by rw [hheads]; exact List.mem_cons_self) y (hrest0 ▸ hy)
  obtain ⟨hheap', hperm'⟩ := Heap.Fix_heap TxByPrice.Less hinv.heap (i := 0) (by rw [hheads]; simp) tx
  rw [hheads] at hperm'
  generalize hT : ({ t with
    heads := Heap.Fix TxByPrice.Less (t.heads.set 0 tx) 0
    txs := t.txs.insert (senderAddress c t.signer h0) r } : TransactionsByPriceAndNonce) = t'
  have hsig : t'.signer = t.signer := by rw [← hT]
  have hheads' : t'.heads ~ tx :: hs := by
    rw [← hT]
    dsimp only
    rw [hheads]
    exact hperm'
  have hrest_tx : rest c t' tx = r := by
    rw [rest, hsig, hsend tx List.mem_cons_self, ← hT]
    dsimp only
    rw [AList.lookup_insert]
    rfl
  have hrest_hs : ∀ h ∈ hs, rest c t' h = rest c t h := by
    intro h hh
    rw [rest, rest, hsig, ← hT]
    dsimp only
    rw [AList.lookup_insert_ne (hne hh)]
  have hnd' : (t'.heads.map (senderAddress c t'.signer)).Nodup := by
    rw [(hheads'.map _).nodup_iff, hsig, List.map_cons, hsend tx List.mem_cons_self]
    have := hinv.nodup
    rwa [hheads, List.map_cons] at this
  refine ⟨⟨by rw [← hT]; exact hheap', hnd', fun h hh y hy => ?_⟩, hsig, ?_, fun a => ?_⟩
  · rcases List.mem_cons.mp (hheads'.subset hh) with rfl | hh'
    · rw [hrest_tx] at hy
      rw [hsig, hsend y (List.mem_cons_of_mem _ hy), hsend h List.mem_cons_self]
    · rw [hrest_hs h hh'] at hy
      rw [hsig]
      exact hinv.sender h (by rw [hheads]; exact List.mem_cons_of_mem _ hh') y hy
  · rw [pending_cons c hheads, hrest0, pending]
    refine List.Perm.cons _ ((hheads'.flatMap_right _).trans ?_)
    rw [List.flatMap_cons, hrest_tx, List.flatMap_congr fun h hh => by rw [hrest_hs h hh]]
  · have hof : pendingOf c t' a = (if senderAddress c t.signer h0 = a then tx :: r else []) ++
        hs.flatMap fun h => if senderAddress c t.signer h = a then h :: rest c t h else [] := by
      rw [pendingOf, flatMap_ite_perm _ _ a hheads' hnd', List.flatMap_cons, hsig, hrest_tx,
        hsend tx List.mem_cons_self]
      congr 1
      exact List.flatMap_congr fun h hh => by rw [hrest_hs h hh]
    rw [pendingOf_cons c hheads, hof, hrest0]
    by_cases ha : senderAddress c t.signer h0 = a
    · rw [if_pos ha, if_pos ha, if_pos ha, pendingOf_eq_nil c (fun x hx => ha ▸ hne hx)]
      rfl
    · rw [if_neg ha, if_neg ha, if_neg ha]

/-- `Shift` yields the head.

The account of the head either has a next transaction, or the head is
popped. -/
theorem Shift_spec {t : TransactionsByPriceAndNonce} (hinv : Inv c t) {h0 : Transaction} (hpeek : t.Peek = some h0) :
    ∃ t', t.Shift c = some t' ∧ Shifted c t t' h0 := by
  obtain ⟨hs, hheads⟩ := List.head?_eq_some_iff.mp hpeek
  rw [Shift_eq c hheads]
  cases hlook : t.txs.lookup (senderAddress c t.signer h0) with
  | none => exact Shifted.of_pop c hinv hheads (by rw [rest, hlook]; rfl)
  | some l =>
    cases l with
    | nil => exact Shifted.of_pop c hinv hheads (by rw [rest, hlook]; rfl)
    | cons tx r => exact ⟨_, rfl, Shifted.of_fix c hinv hheads hlook⟩

/-- `Pop` drops the head's account: its pending transactions go, the others
stay. -/
theorem Pop_spec {t : TransactionsByPriceAndNonce} (hinv : Inv c t) {h0 : Transaction} (hpeek : t.Peek = some h0) :
    ∃ t', t.Pop = some t' ∧ Inv c t' ∧ t'.signer = t.signer ∧
      pending c t ~ pendingOf c t (senderAddress c t.signer h0) ++ pending c t' ∧
      ∀ a, pendingOf c t' a = if senderAddress c t.signer h0 = a then [] else pendingOf c t a := by
  obtain ⟨hs, hheads⟩ := List.head?_eq_some_iff.mp hpeek
  obtain ⟨ys, hpop, hys, hinv'⟩ := hinv.pop c hheads
  refine ⟨{ t with heads := ys }, by unfold TransactionsByPriceAndNonce.Pop; rw [hpop]; rfl, hinv', rfl, ?_,
    pendingOf_popped c hinv hheads hys hinv'.nodup⟩
  rw [pending_cons c hheads, pendingOf_head c hinv hheads, pending]
  exact List.Perm.cons _ (List.Perm.append_left _ (hys.flatMap_right _).symm)

theorem Shift_of_Peek_none {t : TransactionsByPriceAndNonce} (hpeek : t.Peek = none) : t.Shift c = none := by
  unfold TransactionsByPriceAndNonce.Shift
  rw [List.head?_eq_none_iff.mp hpeek]

theorem Pop_of_Peek_none {t : TransactionsByPriceAndNonce} (hpeek : t.Peek = none) : t.Pop = none := by
  unfold TransactionsByPriceAndNonce.Pop
  rw [List.head?_eq_none_iff.mp hpeek]
  rfl

/-- The root of the heads has the best price among them. -/
theorem Inv.peek_best {t : TransactionsByPriceAndNonce} (hinv : Inv c t) {h0 : Transaction}
    (hpeek : t.Peek = some h0) : ∀ h ∈ t.heads, h.GasPrice ≤ h0.GasPrice := by
  obtain ⟨hs, hheads⟩ := List.head?_eq_some_iff.mp hpeek
  intro h hh
  obtain ⟨k, hk, rfl⟩ := List.getElem_of_mem hh
  have hroot := hinv.heap.root_min TxByPrice.Less hk
  have h0' : nth t.heads 0 = h0 := by rw [hheads]; rfl
  rw [nth_eq_getElem hk, h0'] at hroot
  unfold TxByPrice.Less at hroot
  omega

/-! ## The miner's loop -/

/-- The loop of `Peek` and `Shift`, with fuel for every pending transaction,
yields each once, and each account's in its order.

Induction on the fuel, one `Shift` a step. -/
theorem drain_spec {t : TransactionsByPriceAndNonce} (hinv : Inv c t) {n : Nat} (hn : (pending c t).length ≤ n) :
    drain c n t ~ pending c t ∧
      ∀ a, (drain c n t).filter (fun tx => decide (senderAddress c t.signer tx = a)) = pendingOf c t a := by
  induction n generalizing t with
  | zero =>
      have hnil : t.heads = [] := (pending_eq_nil_iff c).mp (List.eq_nil_of_length_eq_zero (by omega))
      refine ⟨by rw [(pending_eq_nil_iff c).mpr hnil]; rfl, fun a => ?_⟩
      rw [pendingOf, hnil]
      rfl
  | succ n ih =>
      cases hpeek : t.Peek with
      | none =>
          have hnil : t.heads = [] := List.head?_eq_none_iff.mp hpeek
          refine ⟨by rw [drain, hpeek, (pending_eq_nil_iff c).mpr hnil], fun a => ?_⟩
          rw [drain, hpeek, pendingOf, hnil]
          rfl
      | some h0 =>
          obtain ⟨t', hshift, hstep⟩ := Shift_spec c hinv hpeek
          have hlen : (pending c t').length + 1 = (pending c t).length := by
            rw [← hstep.perm.length_eq, List.length_cons]
          obtain ⟨hperm, hfilter⟩ := ih hstep.inv (by omega)
          have hdrain : drain c (n + 1) t = h0 :: drain c n t' := by rw [drain, hpeek, hshift]
          refine ⟨by rw [hdrain]; exact (hperm.cons h0).trans hstep.perm, fun a => ?_⟩
          rw [hdrain, List.filter_cons, hstep.pendingOf_eq a, ← hfilter a, hstep.signer_eq]
          by_cases ha : senderAddress c t.signer h0 = a
          · rw [if_pos (decide_eq_true ha), if_pos ha]
          · rw [if_neg (by simpa using ha), if_neg ha]

/-! ## The constructor -/

/-- The loop of the constructor over entries whose keys are their senders:
each first transaction becomes a head, and each account keeps the rest.

The other entries are untouched by the insertion at `k`. -/
theorem foldl_newStep (signer : Signer) (es : List (Sigma fun _ : Address => List Transaction))
    (hnd : (es.map Sigma.fst).Nodup) (heads : List Transaction) (m : AList fun _ : Address => List Transaction)
    (hm : ∀ e ∈ es, m.lookup e.1 = some e.2) (hne : ∀ e ∈ es, e.2 ≠ [])
    (hkeys : ∀ e ∈ es, ∀ tx ∈ e.2, senderAddress c signer tx = e.1) :
    ∃ m', es.foldl (newStep c signer) (some (heads, m)) = some (heads ++ es.map (fun e => e.2.headD default), m') ∧
      ∀ b, m'.lookup b = if b ∈ es.map Sigma.fst then (m.lookup b).map List.tail else m.lookup b := by
  induction es generalizing heads m with
  | nil => exact ⟨m, by simp, fun b => by simp⟩
  | cons e es ih =>
      obtain ⟨k, l⟩ := e
      rw [List.map_cons, List.nodup_cons] at hnd
      dsimp only at hnd
      cases l with
      | nil => exact absurd rfl (hne _ List.mem_cons_self)
      | cons tx r =>
          have hk : senderAddress c signer tx = k := hkeys _ List.mem_cons_self tx List.mem_cons_self
          have hm' : ∀ e ∈ es, (m.insert k r).lookup e.1 = some e.2 := by
            intro e he
            have hek : e.1 ≠ k := by
              rintro rfl
              exact hnd.1 (List.mem_map_of_mem he)
            rw [AList.lookup_insert_ne hek]
            exact hm e (List.mem_cons_of_mem _ he)
          obtain ⟨m', hfold, hlook⟩ := ih hnd.2 (heads ++ [tx]) (m.insert k r) hm'
            (fun e he => hne e (List.mem_cons_of_mem _ he)) (fun e he => hkeys e (List.mem_cons_of_mem _ he))
          refine ⟨m', ?_, fun b => ?_⟩
          · rw [List.foldl_cons, show newStep c signer (some (heads, m)) ⟨k, tx :: r⟩ = some (heads ++ [tx], m.insert k r)
              by rw [← hk]; rfl, hfold, List.map_cons, List.append_assoc]
            rfl
          · rw [hlook b]
            by_cases hb : b = k
            · subst hb
              rw [if_neg hnd.1, AList.lookup_insert, if_pos (by simp), hm _ List.mem_cons_self]
              rfl
            · rw [AList.lookup_insert_ne hb]
              simp only [List.map_cons, List.mem_cons, hb, false_or]

/-- The pending transactions of an account of a map are its list. -/
theorem flatMap_entries_ite (txs : AList fun _ : Address => List Transaction) (a : Address) :
    txs.entries.flatMap (fun e => if e.1 = a then e.2 else []) = (txs.lookup a).getD [] := by
  obtain ⟨es, hnd⟩ := txs
  rw [AList.lookup]
  dsimp only
  induction es with
  | nil => rfl
  | cons e es ih =>
      rw [List.nodupKeys_cons] at hnd
      rw [List.flatMap_cons, ih hnd.2]
      by_cases he : e.1 = a
      · subst he
        rw [if_pos rfl, List.dlookup_cons_eq, (List.dlookup_eq_none.mpr hnd.1)]
        simp
      · rw [if_neg he, List.dlookup_cons_ne _ _ (Ne.symm he), List.nil_append]

/-- The set built from a map keyed by the senders of its non-empty lists.

A head is the first transaction of an entry, whose key is its sender. One
head per account. -/
theorem New_spec (signer : Signer) (txs : AList fun _ : Address => List Transaction)
    (hne : ∀ a l, txs.lookup a = some l → l ≠ [])
    (hkeys : ∀ a l, txs.lookup a = some l → ∀ tx ∈ l, senderAddress c signer tx = a) :
    ∃ t, NewTransactionsByPriceAndNonce c signer txs = some t ∧ Inv c t ∧ t.signer = signer ∧
      pending c t ~ txs.entries.flatMap (·.2) ∧ ∀ a, pendingOf c t a = (txs.lookup a).getD [] := by
  have hmem : ∀ e ∈ txs.entries, txs.lookup e.1 = some e.2 := fun e he => AList.mem_lookup_iff.mpr he
  obtain ⟨m', hfold, hlook⟩ := foldl_newStep c signer txs.entries txs.nodupKeys [] txs hmem
    (fun e he => hne e.1 e.2 (hmem e he)) (fun e he => hkeys e.1 e.2 (hmem e he))
  rw [List.nil_append] at hfold
  set heads := txs.entries.map fun e => e.2.headD default with hheads_def
  obtain ⟨hheap, hperm⟩ := Heap.Init_heap TxByPrice.Less heads
  have hhead : ∀ e ∈ txs.entries, e.2.headD default :: e.2.tail = e.2 := by
    intro e he
    cases hl : e.2 with
    | nil => exact absurd hl (hne e.1 e.2 (hmem e he))
    | cons x xs => rfl
  have hsend_head : ∀ e ∈ txs.entries, senderAddress c signer (e.2.headD default) = e.1 := by
    intro e he
    exact hkeys e.1 e.2 (hmem e he) _ (by rw [← hhead e he]; exact List.mem_cons_self)
  have hrest : ∀ e ∈ txs.entries, (m'.lookup (senderAddress c signer (e.2.headD default))).getD [] = e.2.tail := by
    intro e he
    rw [hsend_head e he, hlook, if_pos (List.mem_map_of_mem he), hmem e he]
    rfl
  have hkeys_heads : heads.map (senderAddress c signer) = txs.keys := by
    rw [hheads_def, List.map_map, AList.keys, List.keys]
    exact List.map_congr_left fun e he => hsend_head e he
  have hnodup : ((Init TxByPrice.Less heads).map (senderAddress c signer)).Nodup := by
    rw [(hperm.map _).nodup_iff, hkeys_heads]
    exact txs.nodupKeys
  refine ⟨⟨m', Heap.Init TxByPrice.Less heads, signer⟩, by rw [NewTransactionsByPriceAndNonce, hfold]; rfl,
    ⟨hheap, hnodup, ?_⟩, rfl, ?_, fun a => ?_⟩
  · intro h hh tx htx
    obtain ⟨e, he, rfl⟩ := List.mem_map.mp (hperm.subset hh)
    rw [rest] at htx
    dsimp only at htx ⊢
    rw [hrest e he] at htx
    rw [hsend_head e he]
    exact hkeys e.1 e.2 (hmem e he) tx (List.mem_of_mem_tail htx)
  · rw [pending]
    refine (hperm.flatMap_right _).trans ?_
    rw [hheads_def, List.flatMap_map]
    exact List.Perm.of_eq (List.flatMap_congr fun e he => by rw [rest]; exact (congrArg _ (hrest e he)).trans (hhead e he))
  · rw [pendingOf, flatMap_ite_perm _ _ a hperm hnodup, hheads_def,
      List.flatMap_map, ← flatMap_entries_ite txs a]
    refine List.flatMap_congr fun e he => ?_
    rw [hsend_head e he, rest]
    dsimp only
    rw [hrest e he, hhead e he]

/-! ## Runs from the constructor -/

/-- The sets the miner can reach: built by the constructor, then any
sequence of `Shift` and `Pop`. -/
inductive Reachable (signer : Signer) (txs : AList fun _ : Address => List Transaction) :
    TransactionsByPriceAndNonce → Prop
  | new {t} : NewTransactionsByPriceAndNonce c signer txs = some t → Reachable signer txs t
  | shift {t t'} : Reachable signer txs t → t.Shift c = some t' → Reachable signer txs t'
  | pop {t t'} : Reachable signer txs t → t.Pop = some t' → Reachable signer txs t'

/-- Every reachable set keeps the invariant and the signer.

Induction on the run; a step from an empty set is impossible. -/
theorem Reachable.inv {signer : Signer} {txs : AList fun _ : Address => List Transaction}
    (hne : ∀ a l, txs.lookup a = some l → l ≠ [])
    (hkeys : ∀ a l, txs.lookup a = some l → ∀ tx ∈ l, senderAddress c signer tx = a)
    {t : TransactionsByPriceAndNonce} (hr : Reachable c signer txs t) : Inv c t ∧ t.signer = signer := by
  induction hr with
  | new h =>
      obtain ⟨t0, ht0, hinv, hsig, -⟩ := New_spec c signer txs hne hkeys
      obtain rfl := Option.some.inj (h.symm.trans ht0)
      exact ⟨hinv, hsig⟩
  | @shift t t' _ hshift ih =>
      cases hpeek : t.Peek with
      | none => rw [Shift_of_Peek_none c hpeek] at hshift; cases hshift
      | some h0 =>
          obtain ⟨t'', ht'', hstep⟩ := Shift_spec c ih.1 hpeek
          obtain rfl := Option.some.inj (ht''.symm.trans hshift)
          exact ⟨hstep.inv, hstep.signer_eq.trans ih.2⟩
  | @pop t t' _ hpop ih =>
      cases hpeek : t.Peek with
      | none => rw [Pop_of_Peek_none hpeek] at hpop; cases hpop
      | some h0 =>
          obtain ⟨t'', ht'', hinv', hsig', -⟩ := Pop_spec c ih.1 hpeek
          obtain rfl := Option.some.inj (ht''.symm.trans hpop)
          exact ⟨hinv', hsig'.trans ih.2⟩

/-- Every transaction the loop yields is the root of a set it reaches. -/
theorem drain_peek {signer : Signer} {txs : AList fun _ : Address => List Transaction}
    {t : TransactionsByPriceAndNonce} (hr : Reachable c signer txs t) (n : Nat) :
    ∀ tx ∈ drain c n t, ∃ t', Reachable c signer txs t' ∧ t'.Peek = some tx := by
  induction n generalizing t with
  | zero => intro tx htx; cases htx
  | succ n ih =>
      intro tx htx
      cases hpeek : t.Peek with
      | none => rw [drain, hpeek] at htx; cases htx
      | some h0 =>
          rw [drain, hpeek] at htx
          rcases List.mem_cons.mp htx with rfl | htx'
          · exact ⟨t, hr, hpeek⟩
          · cases hshift : t.Shift c with
            | none => rw [hshift] at htx'; cases htx'
            | some t' =>
                rw [hshift] at htx'
                exact ih (hr.shift hshift) tx htx'

/-- The miner's set over a map from each account to its non-empty,
nonce-sorted transactions, keyed by their derived sender: the loop of
`Peek` and `Shift` yields every transaction exactly once, each account's
by increasing nonce, each from a reachable set whose root has the best
price of its heads; and `Pop` on a reachable set drops exactly the pending
transactions of the root's account.

An account's output is its list, which is sorted. -/
theorem price_nonce_order (signer : Signer) (txs : AList fun _ : Address => List Transaction)
    (hne : ∀ a l, txs.lookup a = some l → l ≠ [])
    (hkeys : ∀ a l, txs.lookup a = some l → ∀ tx ∈ l, senderAddress c signer tx = a)
    (hsorted : ∀ a l, txs.lookup a = some l → l.Pairwise fun x y => x.Nonce < y.Nonce) :
    ∃ t, NewTransactionsByPriceAndNonce c signer txs = some t ∧
      (let out := drain c (txs.entries.flatMap (·.2)).length t;
        out ~ txs.entries.flatMap (·.2) ∧
        (∀ a, out.filter (fun tx => decide (senderAddress c signer tx = a)) = (txs.lookup a).getD [] ∧
          (out.filter fun tx => decide (senderAddress c signer tx = a)).Pairwise fun x y => x.Nonce < y.Nonce) ∧
        ∀ tx ∈ out, ∃ t', Reachable c signer txs t' ∧ t'.Peek = some tx) ∧
      ∀ t', Reachable c signer txs t' → ∀ tx, t'.Peek = some tx →
        (∀ h ∈ t'.heads, h.GasPrice ≤ tx.GasPrice) ∧
        ∃ t'', t'.Pop = some t'' ∧
          pending c t' ~ pendingOf c t' (senderAddress c signer tx) ++ pending c t'' ∧
          ∀ a, pendingOf c t'' a = if senderAddress c signer tx = a then [] else pendingOf c t' a := by
  obtain ⟨t, ht, hinv, hsig, hperm, hof⟩ := New_spec c signer txs hne hkeys
  obtain ⟨hdrain, hfilter⟩ := drain_spec c hinv (n := (txs.entries.flatMap (·.2)).length) hperm.length_eq.le
  refine ⟨t, ht, ⟨hdrain.trans hperm, fun a => ?_, drain_peek c (.new ht) _⟩, fun t' hr tx hpeek => ?_⟩
  · have h := hfilter a
    rw [hsig, hof a] at h
    refine ⟨h, h ▸ ?_⟩
    cases hl : txs.lookup a with
    | none => exact List.Pairwise.nil
    | some l => exact hsorted a l hl
  · obtain ⟨hinv', hsig'⟩ := hr.inv c hne hkeys
    obtain ⟨t'', hpop, -, -, hperm', hof'⟩ := Pop_spec c hinv' hpeek
    rw [hsig'] at hperm' hof'
    exact ⟨hinv'.peek_best c hpeek, t'', hpop, hperm', hof'⟩

/-- Two accounts, each with the transactions its key signs for chain 1: the
first with the nonces 0 and 1 at the prices 3 and 1, the second with the
nonces 0, 1 and 2 at the prices 2, 2 and 5. -/
theorem price_nonce_order_two_senders :
    let signed (k : Bool) (nonce : UInt64) (price : Nat) : Transaction :=
      ⟨⟨nonce, price, 1, none, 0, [], 37, (if k then 2 else 1) * 2 ^ 248, 2 ^ 248⟩, none⟩
    let txs : AList fun _ : Address => List Transaction :=
      ((∅ : AList fun _ : Address => List Transaction).insert (pubToAddress (twoKeyCrypto.PublicBytes false))
        [signed false 0 3, signed false 1 1]).insert (pubToAddress (twoKeyCrypto.PublicBytes true))
          [signed true 0 2, signed true 1 2, signed true 2 5]
    (∀ k nonce price, SignTx twoKeyCrypto (NewContractCreation nonce 0 1 price []) (.eip155 (NewEIP155Signer 1)) k =
      some (.ok (signed k nonce price))) ∧
    (∀ a l, txs.lookup a = some l → l ≠ []) ∧
    (∀ a l, txs.lookup a = some l → ∀ tx ∈ l, senderAddress twoKeyCrypto (.eip155 (NewEIP155Signer 1)) tx = a) ∧
    (∀ a l, txs.lookup a = some l → l.Pairwise fun x y => x.Nonce < y.Nonce) ∧
    ∃ t, NewTransactionsByPriceAndNonce twoKeyCrypto (.eip155 (NewEIP155Signer 1)) txs = some t ∧
      (let out := drain twoKeyCrypto (txs.entries.flatMap (·.2)).length t;
        out ~ txs.entries.flatMap (·.2) ∧
        (∀ a, out.filter (fun tx => decide (senderAddress twoKeyCrypto (.eip155 (NewEIP155Signer 1)) tx = a)) =
            (txs.lookup a).getD [] ∧
          (out.filter fun tx => decide (senderAddress twoKeyCrypto (.eip155 (NewEIP155Signer 1)) tx = a)).Pairwise
            fun x y => x.Nonce < y.Nonce) ∧
        ∀ tx ∈ out, ∃ t', Reachable twoKeyCrypto (.eip155 (NewEIP155Signer 1)) txs t' ∧ t'.Peek = some tx) ∧
      ∀ t', Reachable twoKeyCrypto (.eip155 (NewEIP155Signer 1)) txs t' → ∀ tx, t'.Peek = some tx →
        (∀ h ∈ t'.heads, h.GasPrice ≤ tx.GasPrice) ∧
        ∃ t'', t'.Pop = some t'' ∧
          pending twoKeyCrypto t' ~
            pendingOf twoKeyCrypto t' (senderAddress twoKeyCrypto (.eip155 (NewEIP155Signer 1)) tx) ++
              pending twoKeyCrypto t'' ∧
          ∀ a, pendingOf twoKeyCrypto t'' a =
            if senderAddress twoKeyCrypto (.eip155 (NewEIP155Signer 1)) tx = a then []
            else pendingOf twoKeyCrypto t' a := by
  intro signed txs
  have hsign : ∀ k nonce price, SignTx twoKeyCrypto (NewContractCreation nonce 0 1 price [])
      (.eip155 (NewEIP155Signer 1)) k = some (.ok (signed k nonce price)) := by
    intro k nonce price
    cases k <;> rfl
  have hsender : ∀ k nonce price, senderAddress twoKeyCrypto (.eip155 (NewEIP155Signer 1)) (signed k nonce price) =
      pubToAddress (twoKeyCrypto.PublicBytes k) := fun k nonce price =>
    senderAddress_of_Sender rfl (Sender_SignTx twoKeyCrypto_lawful _ (le_refl 1) (hsign k nonce price))
  have hlookup : ∀ a l, txs.lookup a = some l →
      (a = pubToAddress (twoKeyCrypto.PublicBytes false) ∧ l = [signed false 0 3, signed false 1 1]) ∨
        (a = pubToAddress (twoKeyCrypto.PublicBytes true) ∧ l = [signed true 0 2, signed true 1 2, signed true 2 5]) := by
    intro a l h
    by_cases h1 : a = pubToAddress (twoKeyCrypto.PublicBytes true)
    · subst h1
      rw [AList.lookup_insert] at h
      exact .inr ⟨rfl, (Option.some.inj h).symm⟩
    · rw [AList.lookup_insert_ne h1] at h
      by_cases h0 : a = pubToAddress (twoKeyCrypto.PublicBytes false)
      · subst h0
        rw [AList.lookup_insert] at h
        exact .inl ⟨rfl, (Option.some.inj h).symm⟩
      · rw [AList.lookup_insert_ne h0, AList.lookup_empty] at h
        cases h
  have hne : ∀ a l, txs.lookup a = some l → l ≠ [] := by
    intro a l h
    rcases hlookup a l h with ⟨-, rfl⟩ | ⟨-, rfl⟩ <;> simp
  have hkeys : ∀ a l, txs.lookup a = some l →
      ∀ tx ∈ l, senderAddress twoKeyCrypto (.eip155 (NewEIP155Signer 1)) tx = a := by
    intro a l h
    rcases hlookup a l h with ⟨rfl, rfl⟩ | ⟨rfl, rfl⟩ <;> simp only [List.forall_mem_cons]
    · exact ⟨hsender false 0 3, hsender false 1 1, List.forall_mem_nil _⟩
    · exact ⟨hsender true 0 2, hsender true 1 2, hsender true 2 5, List.forall_mem_nil _⟩
  have hsorted : ∀ a l, txs.lookup a = some l → l.Pairwise fun x y => x.Nonce < y.Nonce := by
    intro a l h
    rcases hlookup a l h with ⟨-, rfl⟩ | ⟨-, rfl⟩ <;> decide
  exact ⟨hsign, hne, hkeys, hsorted, price_nonce_order twoKeyCrypto _ txs hne hkeys hsorted⟩

end Lemochain.Types
