import Lemochain.Lib.KeySorted
import Lemochain.Core.TxList

/-!
# The sorted view of `txSortedMap` and the caps of `txList`

A `txSortedMap` stores each transaction under its nonce, so its
transactions have one order by nonce, `sorted`. Each operation is described
by what it does to that view, and the heap and the cache are tied to it by
the invariant `Inv`: the heap holds the nonces of the map, once each, in
heap order; a cache that is not stale is the view. The root of the heap is
then the head of the view (`Indexed.pop`), which is what lets `Forward` and
`Ready` pop the heap instead of sorting.

## Main results

* `Put_spec`, `Forward_spec`, `Filter_spec`, `Cap_spec`, `Remove_spec`,
  `Ready_spec`, `Flatten_spec`: one operation on the invariant, and its
  effect on the view.
* `sorted_map_invariant`: on every map reachable by the operations, the
  invariant holds and the operations return what the view says.
* `filter_exact`: on every reachable `txList` the caps bound the costs and
  gas limits, so `Filter` removes exactly the transactions over a limit and,
  in strict mode, those above the lowest one removed.
-/

namespace Lemochain.Core

open Lemochain.Types Lemochain.Heap Lemochain.KeySorted
open scoped List

/-! ## The sorted view -/

/-- The nonce as a number: the key of the sorted view. -/
def nonceKey (tx : Transaction) : Nat := tx.Nonce.toNat

theorem sortByNonce_eq_sort (l : List Transaction) : sortByNonce l = sort nonceKey l := by
  unfold sortByNonce sort nonceKey
  simp only [UInt64.le_iff_toNat_le]

theorem nonce_lt_iff (a b : Transaction) : a.Nonce < b.Nonce ↔ nonceKey a < nonceKey b :=
  UInt64.lt_iff_toNat_lt

theorem nonce_eq_iff (a b : Transaction) : a.Nonce = b.Nonce ↔ nonceKey a = nonceKey b :=
  UInt64.toNat_inj.symm

/-- The transactions of a map, in its order. -/
def contents (items : TxMap) : List Transaction := items.entries.map (·.2)

/-- Every transaction is stored under its nonce. -/
def Keyed (items : TxMap) : Prop := ∀ e ∈ items.entries, e.2.Nonce = e.1

/-- The transactions of a map by increasing nonce. -/
def view (items : TxMap) : List Transaction := sortByNonce (contents items)

theorem view_perm (items : TxMap) : view items ~ contents items := by
  rw [view, sortByNonce_eq_sort]
  exact sort_perm _

section Keyed

variable {items : TxMap}

theorem Keyed.nonces (hk : Keyed items) : (contents items).map Transaction.Nonce = items.keys := by
  rw [contents, List.map_map, AList.keys, List.keys]
  exact List.map_congr_left fun e he => hk e he

theorem Keyed.nodup (hk : Keyed items) : ((contents items).map nonceKey).Nodup := by
  have hmap : (contents items).map nonceKey = items.keys.map UInt64.toNat := by
    rw [← hk.nonces, List.map_map]
    rfl
  rw [hmap]
  exact List.Nodup.map (fun _ _ h => UInt64.toNat_inj.mp h) items.nodupKeys

theorem Keyed.sorted (hk : Keyed items) : Sorted nonceKey (view items) := by
  rw [view, sortByNonce_eq_sort]
  exact sorted_sort hk.nodup

theorem Keyed.lookup {n : UInt64} {tx : Transaction} (hk : Keyed items) (h : items.lookup n = some tx) :
    tx ∈ contents items ∧ tx.Nonce = n := by
  have he := AList.mem_lookup_iff.mp h
  exact ⟨List.mem_map_of_mem he, hk _ he⟩

theorem Keyed.lookup_of_mem {tx : Transaction} (hk : Keyed items) (h : tx ∈ contents items) :
    items.lookup tx.Nonce = some tx := by
  obtain ⟨e, he, rfl⟩ := List.mem_map.mp h
  rw [hk e he]
  exact AList.mem_lookup_iff.mpr he

/-- One transaction per nonce. -/
theorem Keyed.eq_of_nonce {a b : Transaction} (hk : Keyed items) (ha : a ∈ contents items) (hb : b ∈ contents items)
    (h : a.Nonce = b.Nonce) : a = b := by
  have hla := hk.lookup_of_mem ha
  rw [h, hk.lookup_of_mem hb] at hla
  exact (Option.some.inj hla).symm

theorem Keyed.lookup_eq_none {n : UInt64} (hk : Keyed items) (h : items.lookup n = none) :
    ∀ tx ∈ contents items, tx.Nonce ≠ n := by
  intro tx htx hn
  rw [← hn, hk.lookup_of_mem htx] at h
  cases h

/-- Erasing a key of a keyed list drops the transaction of that nonce.

The head goes; no later entry has the key. -/
theorem kerase_snd {l : List (Sigma fun _ : UInt64 => Transaction)} (hnd : l.NodupKeys)
    (hk : ∀ e ∈ l, e.2.Nonce = e.1) (n : UInt64) :
    (l.kerase n).map (·.2) = (l.map (·.2)).filter fun tx => decide (tx.Nonce ≠ n) := by
  induction l with
  | nil => rfl
  | cons e l ih =>
      rw [List.nodupKeys_cons] at hnd
      have hkl : ∀ e ∈ l, e.2.Nonce = e.1 := fun e he => hk e (List.mem_cons_of_mem _ he)
      by_cases hn : n = e.1
      · subst hn
        rw [List.kerase_cons_eq rfl, List.map_cons, List.filter_cons_of_neg (by simp [hk e List.mem_cons_self]),
          List.filter_eq_self.mpr]
        intro tx htx
        obtain ⟨e', he', rfl⟩ := List.mem_map.mp htx
        have hne : e'.1 ≠ e.1 := fun h => hnd.1 (h ▸ List.mem_keys_of_mem he')
        simpa [hkl e' he'] using hne
      · rw [List.kerase_cons_ne hn, List.map_cons, List.map_cons,
          List.filter_cons_of_pos (by simpa [hk e List.mem_cons_self] using Ne.symm hn), ih hnd.2 hkl]

theorem contents_erase (hk : Keyed items) (n : UInt64) :
    contents (items.erase n) = (contents items).filter fun tx => decide (tx.Nonce ≠ n) :=
  kerase_snd items.nodupKeys hk n

theorem Keyed.erase (hk : Keyed items) (n : UInt64) : Keyed (items.erase n) :=
  fun e he => hk e (List.kerase_sublist n _ |>.subset he)

theorem contents_insert (hk : Keyed items) (tx : Transaction) :
    contents (items.insert tx.Nonce tx) = tx :: (contents items).filter fun t => decide (t.Nonce ≠ tx.Nonce) := by
  rw [contents, AList.entries_insert, List.map_cons]
  exact congrArg _ (kerase_snd items.nodupKeys hk _)

theorem Keyed.insert (hk : Keyed items) (tx : Transaction) : Keyed (items.insert tx.Nonce tx) := by
  intro e he
  rw [AList.entries_insert] at he
  rcases List.mem_cons.mp he with rfl | he
  · rfl
  · exact hk e (List.kerase_sublist _ _ |>.subset he)

theorem view_erase (hk : Keyed items) (n : UInt64) :
    view (items.erase n) = (view items).filter fun tx => decide (tx.Nonce ≠ n) := by
  rw [view, view, contents_erase hk, sortByNonce_eq_sort, sortByNonce_eq_sort]
  exact sort_filter hk.nodup _

end Keyed

/-! ## The invariant -/

/-- The map and its heap: every transaction under its nonce, and the heap
holding the nonces of the map in heap order. -/
structure Indexed (m : txSortedMap) : Prop where
  keyed : Keyed m.items
  index_perm : m.index ~ m.items.keys
  heap : IsHeap nonceHeap.Less m.index

/-- The invariant of `txSortedMap`: a cache that is not stale is the view. -/
structure Inv (m : txSortedMap) : Prop extends Indexed m where
  cache : ∀ c, m.cache = some c → c = view m.items

/-- The map and its heap do not see the cache. -/
theorem Indexed.withCache {m : txSortedMap} (h : Indexed m) (c : Option (List Transaction)) :
    Indexed { m with cache := c } :=
  ⟨h.keyed, h.index_perm, h.heap⟩

theorem Inv.of_stale {m : txSortedMap} (h : Indexed m) (hc : m.cache = none) : Inv m :=
  ⟨h, fun c hc' => by rw [hc] at hc'; cases hc'⟩

theorem Inv.new : Inv newTxSortedMap :=
  .of_stale ⟨(fun e he => by simp [newTxSortedMap] at he), .refl _, fun _ _ hc => absurd hc (Nat.not_lt_zero _)⟩ rfl

theorem Keyed.perm_keys {items : TxMap} (hk : Keyed items) : (view items).map Transaction.Nonce ~ items.keys := by
  rw [← hk.nonces]
  exact (view_perm items).map _

/-- The nonces of the heap are those of the view. -/
theorem Indexed.perm_view {m : txSortedMap} (h : Indexed m) : m.index ~ (view m.items).map Transaction.Nonce :=
  h.index_perm.trans h.keyed.perm_keys.symm

/-- The root of the heap is the nonce of the head of the view, and popping
it leaves the rest of the view.

The view is not empty: it holds the root. The root is at most the head, and
the head at most the root. The heap loses the root, the map its key. -/
theorem Indexed.pop {m : txSortedMap} (h : Indexed m) {root : UInt64} {rest : List UInt64}
    (hidx : m.index = root :: rest) :
    ∃ tx S ys, view m.items = tx :: S ∧ tx.Nonce = root ∧ m.items.lookup root = some tx ∧
      Heap.Pop nonceHeap.Less m.index = some (root, ys) ∧ root :: ys ~ m.index ∧
      Indexed { m with items := m.items.erase root, index := ys } ∧ view (m.items.erase root) = S := by
  have hperm := h.perm_view
  rw [hidx] at hperm
  obtain ⟨tx, S, hview⟩ : ∃ tx S, view m.items = tx :: S := by
    cases hv : view m.items with
    | nil => rw [hv] at hperm; exact absurd hperm.length_eq (by simp)
    | cons tx S => exact ⟨tx, S, rfl⟩
  rw [hview] at hperm
  have hsorted : Sorted nonceKey (tx :: S) := hview ▸ h.keyed.sorted
  have hheap : IsHeap nonceHeap.Less (root :: rest) := hidx ▸ h.heap
  have hle : ¬ tx.Nonce < root := hheap.not_lt_head nonceHeap.Less (hperm.symm.subset List.mem_cons_self)
  have hroot : tx.Nonce = root := by
    rcases List.mem_cons.mp (hperm.subset List.mem_cons_self) with h0 | h0
    · exact h0.symm
    · obtain ⟨y, hy, rfl⟩ := List.mem_map.mp h0
      exact absurd ((nonce_lt_iff _ _).mpr (hsorted.head_lt y hy)) hle
  obtain ⟨ys, hpop, hys, hheap'⟩ := Heap.Pop_heap nonceHeap.Less h.heap (by rw [hidx]; exact List.cons_ne_nil _ _)
  have h0 : nth m.index 0 = root := by rw [hidx]; rfl
  rw [h0] at hpop hys
  have hmem : tx ∈ contents m.items := (view_perm m.items).subset (hview ▸ List.mem_cons_self)
  refine ⟨tx, S, ys, hview, hroot, hroot ▸ h.keyed.lookup_of_mem hmem, hpop, hys,
    ⟨h.keyed.erase root, ?_, hheap'⟩, ?_⟩
  · show ys ~ (m.items.erase root).keys
    rw [AList.keys_erase, ← List.erase_cons_head root ys]
    exact (hys.trans h.index_perm).erase root
  · rw [view_erase h.keyed, hview, List.filter_cons_of_neg (by simp [hroot]), List.filter_eq_self.mpr]
    intro y hy
    have := hsorted.head_lt y hy
    simp only [ne_eq, decide_eq_true_eq, ← hroot, nonce_eq_iff]
    omega

theorem Indexed.view_eq_nil {m : txSortedMap} (h : Indexed m) (hidx : m.index = []) : view m.items = [] := by
  have hperm := h.perm_view
  rw [hidx] at hperm
  exact List.map_eq_nil_iff.mp hperm.symm.eq_nil

/-- In a sorted view, the filter by a nonce bound is one by the key. -/
theorem nonce_lt_pred (t : UInt64) :
    (fun tx : Transaction => decide (tx.Nonce < t)) = fun tx => decide (nonceKey tx < t.toNat) := by
  funext tx
  exact decide_eq_decide.mpr UInt64.lt_iff_toNat_lt

/-! ## `Put` -/

/-- A new nonce joins the heap, an old one is already there. -/
theorem Put_spec {m : txSortedMap} (h : Inv m) (tx : Transaction) :
    Inv (m.Put tx) ∧ contents (m.Put tx).items = tx :: (contents m.items).filter fun t => decide (t.Nonce ≠ tx.Nonce) := by
  refine ⟨.of_stale ⟨h.keyed.insert tx, ?_, ?_⟩ rfl, contents_insert h.keyed tx⟩
  · show (if (m.items.lookup tx.Nonce).isNone then Heap.Push nonceHeap.Less m.index tx.Nonce else m.index) ~
      (m.items.insert tx.Nonce tx).keys
    rw [AList.keys_insert]
    cases hl : m.items.lookup tx.Nonce with
    | none =>
        have hnk : tx.Nonce ∉ m.items.keys := AList.mem_keys.not.mp (AList.lookup_eq_none.mp hl)
        rw [List.erase_of_not_mem hnk]
        show Heap.Push nonceHeap.Less m.index tx.Nonce ~ _
        exact (Heap.Push_heap nonceHeap.Less h.heap tx.Nonce).2.trans
          ((h.index_perm.append_right _).trans (List.perm_append_singleton _ _))
    | some old =>
        have hk : tx.Nonce ∈ m.items.keys := AList.mem_keys.mp (AList.lookup_isSome.mp (by rw [hl]; rfl))
        show m.index ~ _
        exact h.index_perm.trans (List.perm_cons_erase hk)
  · show IsHeap nonceHeap.Less
      (if (m.items.lookup tx.Nonce).isNone then Heap.Push nonceHeap.Less m.index tx.Nonce else m.index)
    split
    · exact (Heap.Push_heap nonceHeap.Less h.heap tx.Nonce).1
    · exact h.heap

/-! ## `Forward` -/

/-- The loop of `Forward` pops the nonces below the threshold, lowest first.

The loop stops at once: nothing in the view is below the threshold. The root
leaves, and the loop goes on with the rest of the view. Every nonce is at
least the root. -/
theorem forwardLoop_spec (t : UInt64) : ∀ (fuel : Nat) (m : txSortedMap) (removed : List (Option Transaction)),
    Indexed m → m.index.length ≤ fuel →
    Indexed (txSortedMap.forwardLoop t fuel m removed).1 ∧ (txSortedMap.forwardLoop t fuel m removed).1.cache = m.cache ∧
      view (txSortedMap.forwardLoop t fuel m removed).1.items =
        (view m.items).filter (fun tx => !decide (tx.Nonce < t)) ∧
      (txSortedMap.forwardLoop t fuel m removed).2 =
        removed ++ ((view m.items).filter fun tx => decide (tx.Nonce < t)).map some := by
  have hstop : ∀ (m : txSortedMap) (removed : List (Option Transaction)), Indexed m →
      (∀ tx ∈ view m.items, ¬ tx.Nonce < t) →
      Indexed m ∧ m.cache = m.cache ∧ view m.items = (view m.items).filter (fun tx => !decide (tx.Nonce < t)) ∧
        removed = removed ++ ((view m.items).filter fun tx => decide (tx.Nonce < t)).map some := by
    intro m removed h hall
    refine ⟨h, rfl, (List.filter_eq_self.mpr fun tx htx => by simpa using hall tx htx).symm, ?_⟩
    rw [List.filter_eq_nil_iff.mpr fun tx htx => by simpa using hall tx htx, List.map_nil, List.append_nil]
  intro fuel
  induction fuel with
  | zero =>
      intro m removed h hlen
      have hnil : m.index = [] := List.eq_nil_of_length_eq_zero (by omega)
      exact hstop m removed h (by rw [h.view_eq_nil hnil]; simp)
  | succ fuel ih =>
      intro m removed h hlen
      cases hidx : m.index with
      | nil =>
          rw [txSortedMap.forwardLoop, hidx]
          exact hstop m removed h (by rw [h.view_eq_nil hidx]; simp)
      | cons root rest =>
          obtain ⟨tx, S, ys, hview, hroot, hlook, hpop, hys, h', hview'⟩ := h.pop hidx
          have hsorted : Sorted nonceKey (tx :: S) := hview ▸ h.keyed.sorted
          by_cases hlt : root < t
          · have hstep : txSortedMap.forwardLoop t (fuel + 1) m removed =
                txSortedMap.forwardLoop t fuel { m with items := m.items.erase root, index := ys }
                  (removed ++ [some tx]) := by
              rw [txSortedMap.forwardLoop, hidx]
              dsimp only
              rw [if_pos hlt, ← hidx, hpop]
              dsimp only
              rw [hlook]
            have hlen' : ys.length ≤ fuel := by
              have := hys.length_eq
              rw [hidx, List.length_cons, List.length_cons] at this
              rw [hidx, List.length_cons] at hlen
              omega
            obtain ⟨hI, hc, hv, hrem⟩ := ih _ _ h' hlen'
            have htx : tx.Nonce < t := hroot ▸ hlt
            rw [hstep]
            refine ⟨hI, hc, ?_, ?_⟩
            · rw [hv, hview', hview, List.filter_cons_of_neg (by simpa using htx)]
            · rw [hrem, hview', hview, List.filter_cons_of_pos (by simpa using htx), List.map_cons,
                List.append_assoc, List.singleton_append]
          · have hstep : txSortedMap.forwardLoop t (fuel + 1) m removed = (m, removed) := by
              rw [txSortedMap.forwardLoop, hidx]
              dsimp only
              rw [if_neg hlt]
            rw [hstep]
            refine hstop m removed h fun y hy hyt => hlt ?_
            rw [hview] at hy
            rcases List.mem_cons.mp hy with rfl | hy
            · exact hroot ▸ hyt
            · have := (nonce_lt_iff _ _).mpr (hsorted.head_lt y hy)
              rw [hroot] at this
              exact UInt64.lt_trans this hyt

theorem view_drop_filter {items : TxMap} (hk : Keyed items) (t : UInt64) :
    (view items).drop ((view items).filter fun tx => decide (tx.Nonce < t)).length =
      (view items).filter fun tx => !decide (tx.Nonce < t) := by
  have := hk.sorted.drop_filter_lt t.toNat
  simpa only [nonceKey, ← UInt64.lt_iff_toNat_lt] using this

/-- The cache loses as many from its front as were removed. -/
theorem Forward_spec {m : txSortedMap} (h : Inv m) (t : UInt64) :
    Inv (m.Forward t).1 ∧ view (m.Forward t).1.items = (view m.items).filter (fun tx => !decide (tx.Nonce < t)) ∧
      (m.Forward t).2 = ((view m.items).filter fun tx => decide (tx.Nonce < t)).map some := by
  obtain ⟨hI, -, hv, hrem⟩ := forwardLoop_spec t _ m [] h.toIndexed (Nat.le_refl _)
  rw [List.nil_append] at hrem
  refine ⟨⟨hI.withCache _, fun c hc => ?_⟩, hv, hrem⟩
  obtain ⟨c0, hc0, rfl⟩ := Option.map_eq_some_iff.mp hc
  rw [h.cache c0 hc0, hrem, List.length_map, view_drop_filter h.keyed]
  exact hv.symm

/-! ## `Filter` -/

/-- The loop of `Filter` erases the entries the filter accepts, in the order
it visits them. -/
theorem filterLoop_eq (f : Transaction → Bool) (es : List (Sigma fun _ : UInt64 => Transaction)) (items : TxMap)
    (removed : List Transaction) :
    txSortedMap.filterLoop f es items removed =
      ((es.filter fun e => f e.2).foldl (fun items e => items.erase e.1) items,
        removed ++ (es.filter fun e => f e.2).map (·.2)) := by
  induction es generalizing items removed with
  | nil => simp [txSortedMap.filterLoop]
  | cons e es ih =>
      by_cases he : f e.2
      · rw [txSortedMap.filterLoop, if_pos he, ih, List.filter_cons_of_pos (p := fun e : Sigma (fun _ : UInt64 => Transaction) => f e.2) he,
          List.foldl_cons, List.map_cons, List.append_assoc, List.singleton_append]
      · rw [txSortedMap.filterLoop, if_neg he, ih, List.filter_cons_of_neg (p := fun e : Sigma (fun _ : UInt64 => Transaction) => f e.2) he]

/-- Erasing the keys of some entries drops the transactions of those nonces. -/
theorem contents_foldl_erase (ks : List (Sigma fun _ : UInt64 => Transaction)) {items : TxMap} (hk : Keyed items) :
    Keyed (ks.foldl (fun items e => items.erase e.1) items) ∧
      contents (ks.foldl (fun items e => items.erase e.1) items) =
        (contents items).filter fun tx => decide (tx.Nonce ∉ ks.map (·.1)) := by
  induction ks generalizing items with
  | nil => exact ⟨hk, (List.filter_eq_self.mpr fun tx _ => by simp).symm⟩
  | cons e ks ih =>
      obtain ⟨hk', hc⟩ := ih (hk.erase e.1)
      refine ⟨hk', ?_⟩
      rw [List.foldl_cons, hc, contents_erase hk, List.filter_filter]
      refine List.filter_congr fun tx _ => ?_
      simp only [List.map_cons, List.mem_cons]
      by_cases he : tx.Nonce = e.1 <;> simp [he]

/-- An accepted nonce is the nonce of an accepted transaction. Something
left: the heap is rebuilt from the remaining nonces. Nothing left: the map
is unchanged. -/
theorem Filter_spec {m : txSortedMap} (h : Inv m) (r : MapRange) (f : Transaction → Bool) :
    Inv (m.Filter r f).1 ∧ view (m.Filter r f).1.items = (view m.items).filter (fun tx => !f tx) ∧
      (m.Filter r f).2 ~ (view m.items).filter f := by
  simp only [txSortedMap.Filter, filterLoop_eq, List.nil_append]
  generalize hes : (r.items m.items).filter (fun e => f e.2) = es
  obtain ⟨hk', hcont⟩ := contents_foldl_erase es h.keyed
  have hmem : ∀ tx ∈ contents m.items, (tx.Nonce ∈ es.map (·.1) ↔ f tx = true) := by
    intro tx htx
    constructor
    · intro hn
      obtain ⟨e, he, hen⟩ := List.mem_map.mp hn
      obtain ⟨he', hfe⟩ := List.mem_filter.mp (hes ▸ he)
      have hent : e ∈ m.items.entries := (r.items_perm m.items).subset he'
      have heq : e.2 = tx :=
        h.keyed.eq_of_nonce (List.mem_map_of_mem hent) htx (by rw [h.keyed e hent, hen])
      rw [← heq]
      exact hfe
    · intro hf
      obtain ⟨e, he, rfl⟩ := List.mem_map.mp htx
      rw [h.keyed e he, ← hes]
      exact List.mem_map_of_mem (List.mem_filter.mpr ⟨(r.items_perm m.items).symm.subset he, hf⟩)
  have hfilter : (contents m.items).filter (fun tx => decide (tx.Nonce ∉ es.map (·.1))) =
      (contents m.items).filter fun tx => !f tx :=
    List.filter_congr fun tx htx => by simp [hmem tx htx]
  have hview : view (es.foldl (fun items e => items.erase e.1) m.items) = (view m.items).filter fun tx => !f tx := by
    rw [view, view, hcont, hfilter, sortByNonce_eq_sort, sortByNonce_eq_sort]
    exact sort_filter h.keyed.nodup _
  have hrem : es.map (·.2) ~ (view m.items).filter f := by
    have hmap : es.map (·.2) = ((r.items m.items).map (·.2)).filter f := by
      rw [← hes, List.filter_map]
      rfl
    rw [hmap]
    exact (((r.items_perm m.items).map _).filter f).trans ((view_perm m.items).symm.filter f)
  split
  · obtain ⟨hheap, hperm⟩ := Heap.Init_heap nonceHeap.Less (r.keys (es.foldl (fun items e => items.erase e.1) m.items))
    exact ⟨.of_stale ⟨hk', hperm.trans (r.keys_perm _), hheap⟩ rfl, hview, hrem⟩
  · next hlen =>
    have hnil : es = [] := by
      have hzero := Nat.eq_zero_of_not_pos hlen
      rw [List.length_map] at hzero
      exact List.eq_nil_of_length_eq_zero hzero
    rw [hnil] at hview hrem ⊢
    exact ⟨h, hview, hrem⟩

/-! ## `Cap` -/

/-- Sorting the heap gives the nonces of the view. -/
theorem Indexed.sort_index {m : txSortedMap} (h : Indexed m) :
    (m.index.mergeSort fun a b => decide (a ≤ b)) = (view m.items).map Transaction.Nonce := by
  have hsort : (m.index.mergeSort fun a b => decide (a ≤ b)) = sort UInt64.toNat m.index := by
    unfold sort
    simp only [UInt64.le_iff_toNat_le]
  rw [hsort]
  exact sort_eq_of_perm (List.pairwise_map.mpr h.keyed.sorted) h.perm_view.symm

theorem nonce_ne_pred (a : Transaction) :
    (fun tx : Transaction => decide (tx.Nonce ≠ a.Nonce)) = fun tx => decide (nonceKey tx ≠ nonceKey a) := by
  funext tx
  exact decide_eq_decide.mpr (not_congr (nonce_eq_iff tx a))

/-- The loop of `Cap` takes the view from its top down to `threshold`.

The transaction at `size` leaves. `threshold` are left. -/
theorem capLoop_spec {S : List Transaction} (hS : Sorted nonceKey S) (k size : Nat) :
    ∀ (items : TxMap) (drops : List (Option Transaction)), k ≤ size → size ≤ S.length → Keyed items →
      view items = S.take size →
      Keyed (txSortedMap.capLoop (S.map Transaction.Nonce) k size items drops).1 ∧
        view (txSortedMap.capLoop (S.map Transaction.Nonce) k size items drops).1 = S.take k ∧
        (txSortedMap.capLoop (S.map Transaction.Nonce) k size items drops).2 =
          drops ++ ((S.take size).drop k).reverse.map some := by
  induction size with
  | zero =>
      intro items drops hk _ hkeyed hview
      obtain rfl : k = 0 := Nat.le_zero.mp hk
      exact ⟨hkeyed, hview, by simp [txSortedMap.capLoop]⟩
  | succ size ih =>
      intro items drops hk hsize hkeyed hview
      by_cases hlt : k < size + 1
      · have hsz : size < S.length := by omega
        have htake : S.take (size + 1) = S.take size ++ [S[size]] := by
          rw [List.take_add_one, List.getElem?_eq_getElem hsz]
          rfl
        have hnth : nth (S.map Transaction.Nonce) size = S[size].Nonce := by
          rw [nth_eq_getElem (by simpa using hsz), List.getElem_map]
        have hmem : S[size] ∈ contents items :=
          (view_perm items).subset (by rw [hview, htake]; exact List.mem_append_right _ List.mem_cons_self)
        have hview' : view (items.erase S[size].Nonce) = S.take size := by
          rw [view_erase hkeyed, hview, htake, nonce_ne_pred]
          exact (htake ▸ hS.take (size + 1)).filter_ne_last
        have hstep : txSortedMap.capLoop (S.map Transaction.Nonce) k (size + 1) items drops =
            txSortedMap.capLoop (S.map Transaction.Nonce) k size (items.erase S[size].Nonce)
              (drops ++ [some S[size]]) := by
          rw [txSortedMap.capLoop, if_pos hlt]
          dsimp only
          rw [hnth, hkeyed.lookup_of_mem hmem]
        obtain ⟨hk', hv', hd'⟩ := ih _ _ (by omega) (by omega) (hkeyed.erase _) hview'
        rw [hstep]
        refine ⟨hk', hv', ?_⟩
        rw [hd', htake, List.drop_append_of_le_length (by simp; omega), List.reverse_append, List.map_append,
          List.append_assoc]
        rfl
      · have hstep : txSortedMap.capLoop (S.map Transaction.Nonce) k (size + 1) items drops = (items, drops) := by
          rw [txSortedMap.capLoop, if_neg hlt]
        obtain rfl : k = size + 1 := by omega
        rw [hstep]
        exact ⟨hkeyed, hview, by simp⟩

/-- Under the limit: nothing happens. The heap holds the nonces that are
left. The cache loses as many from its back. -/
theorem Cap_spec {m : txSortedMap} (h : Inv m) (k : Nat) :
    Inv (m.Cap k).1 ∧ view (m.Cap k).1.items = (view m.items).take k ∧
      (m.Cap k).2 = ((view m.items).drop k).reverse.map some := by
  have hlen : (view m.items).length = m.items.entries.length := by
    rw [(view_perm m.items).length_eq, contents, List.length_map]
  by_cases hle : m.items.entries.length ≤ k
  · have hcap : m.Cap k = (m, []) := by rw [txSortedMap.Cap, if_pos hle]
    rw [hcap, List.take_of_length_le (by omega), List.drop_of_length_le (by omega)]
    exact ⟨h, rfl, rfl⟩
  · obtain ⟨hk', hv', hd'⟩ := capLoop_spec h.keyed.sorted k m.items.entries.length m.items [] (by omega) (by omega)
      h.keyed (by rw [List.take_of_length_le (by omega)])
    rw [List.take_of_length_le (by omega), List.nil_append] at hd'
    have hcap : m.Cap k =
        ({ items := (txSortedMap.capLoop ((view m.items).map Transaction.Nonce) k m.items.entries.length m.items []).1
           index := Heap.Init nonceHeap.Less (((view m.items).map Transaction.Nonce).take k)
           cache := m.cache.map fun c => c.take (c.length - ((view m.items).drop k).length) },
          ((view m.items).drop k).reverse.map some) := by
      rw [txSortedMap.Cap, if_neg hle]
      dsimp only
      rw [h.sort_index, hd', List.length_map, List.length_reverse]
    rw [hcap]
    obtain ⟨hheap, hperm⟩ := Heap.Init_heap nonceHeap.Less (((view m.items).map Transaction.Nonce).take k)
    refine ⟨⟨⟨hk', ?_, hheap⟩, fun c hc => ?_⟩, hv', rfl⟩
    · show Heap.Init nonceHeap.Less (((view m.items).map Transaction.Nonce).take k) ~ _
      refine hperm.trans ?_
      rw [← List.map_take, ← hv']
      exact hk'.perm_keys
    · obtain ⟨c0, hc0, rfl⟩ := Option.map_eq_some_iff.mp hc
      rw [h.cache c0 hc0, List.length_drop]
      show (view m.items).take ((view m.items).length - ((view m.items).length - k)) = _
      rw [Nat.sub_sub_self (by omega)]
      exact hv'.symm

/-! ## `Remove` -/

/-- The nonce is in the heap, at the place `Remove` finds first. -/
theorem Remove_spec {m : txSortedMap} (h : Inv m) (n : UInt64) :
    Inv (m.Remove n).1 ∧ view (m.Remove n).1.items = (view m.items).filter (fun tx => decide (tx.Nonce ≠ n)) ∧
      ((m.Remove n).2 = true ↔ ∃ tx ∈ view m.items, tx.Nonce = n) := by
  cases hl : m.items.lookup n with
  | none =>
      have hrm : m.Remove n = (m, false) := by rw [txSortedMap.Remove, hl]
      have hno : ∀ tx ∈ view m.items, tx.Nonce ≠ n :=
        fun tx htx => h.keyed.lookup_eq_none hl tx ((view_perm _).subset htx)
      rw [hrm]
      refine ⟨h, (List.filter_eq_self.mpr fun tx htx => by simpa using hno tx htx).symm, ?_⟩
      simp only [Bool.false_eq_true, false_iff, not_exists, not_and]
      exact hno
  | some tx =>
      have hmem : n ∈ m.index :=
        h.index_perm.symm.subset (AList.mem_keys.mp (AList.lookup_isSome.mp (by rw [hl]; rfl)))
      have hi : m.index.idxOf n < m.index.length := List.idxOf_lt_length_iff.mpr hmem
      obtain ⟨ys, hrem, hperm, hheap⟩ := Heap.Remove_heap nonceHeap.Less h.heap hi
      have hnth : nth m.index (m.index.idxOf n) = n := by rw [nth_eq_getElem hi, List.getElem_idxOf]
      rw [hnth] at hrem hperm
      have hrm : m.Remove n = ({ items := m.items.erase n, index := ys, cache := none }, true) := by
        rw [txSortedMap.Remove, hl]
        dsimp only
        rw [hrem]
      obtain ⟨hin, hn⟩ := h.keyed.lookup hl
      rw [hrm]
      refine ⟨.of_stale ⟨h.keyed.erase n, ?_, hheap⟩ rfl, view_erase h.keyed n, ?_⟩
      · show ys ~ (m.items.erase n).keys
        rw [AList.keys_erase, ← List.erase_cons_head n ys]
        exact (hperm.trans h.index_perm).erase n
      · exact ⟨fun _ => ⟨tx, (view_perm _).symm.subset hin, hn⟩, fun _ => rfl⟩

/-! ## `Ready` -/

/-- The loop of `Ready` takes the run of the view that counts up from `n`;
`next` is `n` as a `uint64`.

The loop stops where the run ends. The root is the next nonce: it leaves,
and the run goes on from `n + 1`. The head is not the next nonce, so the run
is empty. -/
theorem readyLoop_spec : ∀ (fuel : Nat) (next : UInt64) (m : txSortedMap) (ready : List (Option Transaction)) (n : Nat),
    Indexed m → m.index.length ≤ fuel → (∀ tx ∈ view m.items, n ≤ nonceKey tx) → next.toNat = n % 2 ^ 64 →
    Indexed (txSortedMap.readyLoop fuel next m ready).1 ∧ (txSortedMap.readyLoop fuel next m ready).1.cache = m.cache ∧
      view (txSortedMap.readyLoop fuel next m ready).1.items =
        (view m.items).drop (countUp nonceKey n (view m.items)).length ∧
      (txSortedMap.readyLoop fuel next m ready).2 = ready ++ (countUp nonceKey n (view m.items)).map some := by
  have hstop : ∀ (m : txSortedMap) (ready : List (Option Transaction)) (n : Nat), Indexed m →
      countUp nonceKey n (view m.items) = [] →
      Indexed m ∧ m.cache = m.cache ∧ view m.items = (view m.items).drop (countUp nonceKey n (view m.items)).length ∧
        ready = ready ++ (countUp nonceKey n (view m.items)).map some := by
    intro m ready n h h0
    rw [h0]
    exact ⟨h, rfl, rfl, by simp⟩
  intro fuel
  induction fuel with
  | zero =>
      intro next m ready n h hlen _ _
      have hnil : m.index = [] := List.eq_nil_of_length_eq_zero (by omega)
      exact hstop m ready n h (by rw [h.view_eq_nil hnil]; rfl)
  | succ fuel ih =>
      intro next m ready n h hlen hge hnext
      cases hidx : m.index with
      | nil =>
          rw [txSortedMap.readyLoop, hidx]
          exact hstop m ready n h (by rw [h.view_eq_nil hidx]; rfl)
      | cons root rest =>
          obtain ⟨tx, S, ys, hview, hroot, hlook, hpop, hys, h', hview'⟩ := h.pop hidx
          have hsorted : Sorted nonceKey (tx :: S) := hview ▸ h.keyed.sorted
          have hkey_lt : nonceKey tx < 2 ^ 64 := UInt64.toNat_lt _
          have hn_le : n ≤ nonceKey tx := hge tx (by rw [hview]; exact List.mem_cons_self)
          by_cases heq : root = next
          · subst heq
            have hkey : nonceKey tx = n := by
              have : root.toNat = nonceKey tx := by rw [nonceKey, hroot]
              rw [Nat.mod_eq_of_lt (show n < 2 ^ 64 by omega)] at hnext
              omega
            have hstep : txSortedMap.readyLoop (fuel + 1) root m ready =
                txSortedMap.readyLoop fuel (root + 1) { m with items := m.items.erase root, index := ys }
                  (ready ++ [some tx]) := by
              rw [txSortedMap.readyLoop, hidx]
              dsimp only
              rw [if_pos rfl, ← hidx, hpop, hlook]
              rfl
            have hlen' : ys.length ≤ fuel := by
              have := hys.length_eq
              rw [hidx, List.length_cons, List.length_cons] at this
              rw [hidx, List.length_cons] at hlen
              omega
            have hge' : ∀ y ∈ view (m.items.erase root), n + 1 ≤ nonceKey y := by
              intro y hy
              rw [hview'] at hy
              have := hsorted.head_lt y hy
              omega
            have hnext' : (root + 1).toNat = (n + 1) % 2 ^ 64 := by
              rw [UInt64.toNat_add, UInt64.toNat_one, hnext, Nat.mod_eq_of_lt (show n < 2 ^ 64 by omega)]
            obtain ⟨hI, hc, hv, hr⟩ := ih (root + 1) _ (ready ++ [some tx]) (n + 1) h' hlen' hge' hnext'
            rw [hstep, hview, countUp_cons_eq hkey]
            refine ⟨hI, hc, ?_, ?_⟩
            · rw [hv, hview', List.length_cons, List.drop_succ_cons]
            · rw [hr, hview', List.map_cons, List.append_assoc, List.singleton_append]
          · have hstep : txSortedMap.readyLoop (fuel + 1) next m ready = (m, ready) := by
              rw [txSortedMap.readyLoop, hidx]
              dsimp only
              rw [if_neg heq]
            have hkey : nonceKey tx ≠ n := by
              intro hkey
              apply heq
              apply UInt64.toNat_inj.mp
              rw [hnext, Nat.mod_eq_of_lt (show n < 2 ^ 64 by omega), ← hkey, nonceKey, hroot]
            rw [hstep]
            exact hstop m ready n h (by rw [hview, countUp_cons_ne hkey])

/-- From the root, the run of consecutive nonces. -/
theorem Ready_spec {m : txSortedMap} (h : Inv m) (start : UInt64) :
    Inv (m.Ready start).1 ∧
      (∀ tx, (view m.items).head? = some tx → tx.Nonce ≤ start →
        view (m.Ready start).1.items = (view m.items).drop (countUp nonceKey (nonceKey tx) (view m.items)).length ∧
        (m.Ready start).2 = (countUp nonceKey (nonceKey tx) (view m.items)).map some) ∧
      (∀ tx, (view m.items).head? = some tx → start < tx.Nonce → m.Ready start = (m, [])) ∧
      (view m.items = [] → m.Ready start = (m, [])) := by
  cases hidx : m.index with
  | nil =>
      have hrd : m.Ready start = (m, []) := by rw [txSortedMap.Ready, hidx]
      have hnil := h.view_eq_nil hidx
      rw [hrd, hnil]
      exact ⟨h, (fun tx htx => by cases htx), fun _ _ _ => rfl, fun _ => rfl⟩
  | cons root rest =>
      obtain ⟨tx0, S, ys, hview, hroot, -, -, -, -, -⟩ := h.pop hidx
      have hsorted : Sorted nonceKey (tx0 :: S) := hview ▸ h.keyed.sorted
      rw [hview]
      by_cases hs : start < root
      · have hrd : m.Ready start = (m, []) := by
          rw [txSortedMap.Ready, hidx]
          dsimp only
          rw [if_pos hs]
        rw [hrd]
        refine ⟨h, fun tx htx hle => ?_, fun _ _ _ => rfl, fun hnil => by cases hnil⟩
        obtain rfl := Option.some.inj htx
        exact absurd (UInt64.lt_of_lt_of_le (hroot ▸ hs) hle) (UInt64.lt_irrefl _)
      · have hge : ∀ tx ∈ view m.items, root.toNat ≤ nonceKey tx := by
          intro tx htx
          rw [hview] at htx
          rcases List.mem_cons.mp htx with rfl | htx
          · rw [nonceKey, hroot]
          · have := hsorted.head_lt tx htx
            rw [nonceKey, hroot] at this
            exact Nat.le_of_lt this
        obtain ⟨hI, -, hv, hr⟩ := readyLoop_spec m.index.length root m [] root.toNat h.toIndexed (Nat.le_refl _) hge
          (Nat.mod_eq_of_lt (UInt64.toNat_lt _)).symm
        have hrd : m.Ready start =
            ({ (txSortedMap.readyLoop m.index.length root m []).1 with cache := none },
              (txSortedMap.readyLoop m.index.length root m []).2) := by
          rw [txSortedMap.Ready]
          simp only [hidx]
          rw [if_neg hs]
        have hkey : nonceKey tx0 = root.toNat := by rw [nonceKey, hroot]
        rw [hrd]
        refine ⟨.of_stale (hI.withCache _) rfl, fun tx htx _ => ?_, fun tx htx hlt => ?_, fun hnil => by cases hnil⟩
        · obtain rfl := Option.some.inj htx
          rw [hkey, ← hview]
          exact ⟨hv, by rw [hr, List.nil_append]⟩
        · obtain rfl := Option.some.inj htx
          exact absurd (hroot ▸ hlt) hs

/-! ## `Flatten` -/

/-- In whatever order `range` visits the map, sorting gives the view. -/
theorem Flatten_spec {m : txSortedMap} (h : Inv m) (r : MapRange) :
    Inv (m.Flatten r).1 ∧ (m.Flatten r).1.items = m.items ∧ (m.Flatten r).2 = view m.items := by
  cases hc : m.cache with
  | some c =>
      have hfl : m.Flatten r = (m, c) := by rw [txSortedMap.Flatten, hc]
      rw [hfl]
      exact ⟨h, rfl, h.cache c hc⟩
  | none =>
      have hsort : sortByNonce ((r.items m.items).map (·.2)) = view m.items := by
        rw [sortByNonce_eq_sort]
        exact sort_eq_of_perm h.keyed.sorted ((view_perm m.items).trans ((r.items_perm m.items).map _).symm)
      have hfl : m.Flatten r = ({ m with cache := some (view m.items) }, view m.items) := by
        rw [txSortedMap.Flatten, hc]
        dsimp only
        rw [hsort]
      rw [hfl]
      exact ⟨⟨h.toIndexed.withCache _, fun c hc' => (Option.some.inj hc').symm⟩, rfl, rfl⟩

/-! ## Runs of `txSortedMap` -/

namespace txSortedMap

/-- The maps the operations reach from `newTxSortedMap`. -/
inductive Reachable : txSortedMap → Prop
  | new : Reachable newTxSortedMap
  | put {m : txSortedMap} (tx : Transaction) : Reachable m → Reachable (m.Put tx)
  | forward {m : txSortedMap} (threshold : UInt64) : Reachable m → Reachable (m.Forward threshold).1
  | filter {m : txSortedMap} (r : MapRange) (f : Transaction → Bool) : Reachable m → Reachable (m.Filter r f).1
  | cap {m : txSortedMap} (threshold : Nat) : Reachable m → Reachable (m.Cap threshold).1
  | remove {m : txSortedMap} (nonce : UInt64) : Reachable m → Reachable (m.Remove nonce).1
  | ready {m : txSortedMap} (start : UInt64) : Reachable m → Reachable (m.Ready start).1
  | flatten {m : txSortedMap} (r : MapRange) : Reachable m → Reachable (m.Flatten r).1

theorem Reachable.inv {m : txSortedMap} (hr : m.Reachable) : Inv m := by
  induction hr with
  | new => exact Inv.new
  | put tx _ ih => exact (Put_spec ih tx).1
  | forward t _ ih => exact (Forward_spec ih t).1
  | filter r f _ ih => exact (Filter_spec ih r f).1
  | cap k _ ih => exact (Cap_spec ih k).1
  | remove n _ ih => exact (Remove_spec ih n).1
  | ready s _ ih => exact (Ready_spec ih s).1
  | flatten r _ ih => exact (Flatten_spec ih r).1

end txSortedMap

/-- On every map the operations reach, the heap holds the nonces of the map,
once each, in heap order, and a cache that is not stale is the map sorted by
nonce; so `Flatten` returns the map by increasing nonce, `Forward` removes
and returns the transactions below the threshold, `Cap` the highest beyond
the limit, and `Ready`, from a lowest nonce at most its start, the run of
consecutive nonces from the lowest. -/
theorem sorted_map_invariant {m : txSortedMap} (hr : m.Reachable) :
    (m.index ~ m.items.keys ∧ m.index.Nodup ∧ IsHeap nonceHeap.Less m.index) ∧
    (∀ c, m.cache = some c → c = sortByNonce (contents m.items)) ∧
    (∀ r, (m.Flatten r).2 ~ contents m.items ∧ (m.Flatten r).2.Pairwise fun a b => a.Nonce < b.Nonce) ∧
    (∀ t, (m.Forward t).2 = ((view m.items).filter fun tx => decide (tx.Nonce < t)).map some ∧
      view (m.Forward t).1.items = (view m.items).filter fun tx => !decide (tx.Nonce < t)) ∧
    (∀ k, (m.Cap k).2 = ((view m.items).drop k).reverse.map some ∧
      view (m.Cap k).1.items = (view m.items).take k) ∧
    (∀ s tx, (view m.items).head? = some tx → tx.Nonce ≤ s →
      (m.Ready s).2 = (countUp nonceKey (nonceKey tx) (view m.items)).map some ∧
      view (m.Ready s).1.items = (view m.items).drop (countUp nonceKey (nonceKey tx) (view m.items)).length) := by
  have h := hr.inv
  refine ⟨⟨h.index_perm, h.index_perm.nodup_iff.mpr m.items.nodupKeys, h.heap⟩, h.cache, fun r => ?_,
    fun t => ?_, fun k => ?_, fun s tx hhead hle => ?_⟩
  · obtain ⟨-, -, hfl⟩ := Flatten_spec h r
    rw [hfl]
    exact ⟨view_perm m.items, h.keyed.sorted.imp fun hab => (nonce_lt_iff _ _).mpr hab⟩
  · obtain ⟨-, hv, hrem⟩ := Forward_spec h t
    exact ⟨hrem, hv⟩
  · obtain ⟨-, hv, hdrops⟩ := Cap_spec h k
    exact ⟨hdrops, hv⟩
  · obtain ⟨hv, hready⟩ := (Ready_spec h s).2.1 tx hhead hle
    exact ⟨hready, hv⟩

/-- Five transactions put by the nonces 3, 1, 4, 2, 5; `Forward(2)` takes
nonce 1 and `Cap(2)` the nonces 5 and 4, which leaves 2 and 3. `Cap` sorts
the heap with `mergeSort`, which the kernel does not run: the sorted heap is
the heap itself, already in order. -/
theorem sorted_map_invariant_put_forward_cap :
    let m₁ := ((((((newTxSortedMap.Put (NewContractCreation 3 0 1 1 [])).Put (NewContractCreation 1 0 1 1 [])).Put
      (NewContractCreation 4 0 1 1 [])).Put (NewContractCreation 2 0 1 1 [])).Put
        (NewContractCreation 5 0 1 1 [])).Forward 2).1
    let m := (m₁.Cap 2).1
    m.Reachable ∧ m.items.keys = [2, 3] ∧
    ((m.index ~ m.items.keys ∧ m.index.Nodup ∧ IsHeap nonceHeap.Less m.index) ∧
      (∀ c, m.cache = some c → c = sortByNonce (contents m.items)) ∧
      (∀ r, (m.Flatten r).2 ~ contents m.items ∧ (m.Flatten r).2.Pairwise fun a b => a.Nonce < b.Nonce) ∧
      (∀ t, (m.Forward t).2 = ((view m.items).filter fun tx => decide (tx.Nonce < t)).map some ∧
        view (m.Forward t).1.items = (view m.items).filter fun tx => !decide (tx.Nonce < t)) ∧
      (∀ k, (m.Cap k).2 = ((view m.items).drop k).reverse.map some ∧
        view (m.Cap k).1.items = (view m.items).take k) ∧
      (∀ s tx, (view m.items).head? = some tx → tx.Nonce ≤ s →
        (m.Ready s).2 = (countUp nonceKey (nonceKey tx) (view m.items)).map some ∧
        view (m.Ready s).1.items = (view m.items).drop (countUp nonceKey (nonceKey tx) (view m.items)).length)) := by
  intro m₁ m
  have hr : m.Reachable := .cap 2 (.forward 2 (.put _ (.put _ (.put _ (.put _ (.put _ .new))))))
  have hidx : m₁.index = [2, 3, 4, 5] := by decide +kernel
  have hsort : m₁.index.mergeSort (fun a b => decide (a ≤ b)) = [2, 3, 4, 5] := by
    rw [hidx]
    exact List.mergeSort_eq_self (fun a b : UInt64 => a ≤ b) (by decide)
  have hkeys : m.items.keys = [2, 3] := by
    change (m₁.Cap 2).1.items.keys = [2, 3]
    rw [txSortedMap.Cap, hsort]
    decide +kernel
  exact ⟨hr, hkeys, sorted_map_invariant hr⟩

/-! ## The caps of `txList` -/

/-- The nonces of the list count up by one. -/
def Consecutive (l : List Transaction) : Prop := l.IsChain fun a b => nonceKey b = nonceKey a + 1

/-- In a sorted view the transactions below a nonce are a prefix, so a run of
consecutive nonces stays one. -/
theorem Consecutive.filter_lt {items : TxMap} (hk : Keyed items) (hc : Consecutive (view items)) (n : UInt64) :
    Consecutive ((view items).filter fun tx => decide (tx.Nonce < n)) := by
  have happ := hk.sorted.filter_lt_append n.toNat
  rw [← nonce_lt_pred] at happ
  exact hc.infix (List.IsPrefix.isInfix ⟨_, happ⟩)

/-- The running minimum of `lowestNonce`: at most the start and every nonce,
and one of them.

The new running minimum is at most the start and the head. -/
theorem foldl_lowest (l : List Transaction) (init : UInt64) :
    (l.foldl (fun lowest tx => if tx.Nonce < lowest then tx.Nonce else lowest) init).toNat ≤ init.toNat ∧
      (∀ tx ∈ l, (l.foldl (fun lowest tx => if tx.Nonce < lowest then tx.Nonce else lowest) init).toNat ≤
        tx.Nonce.toNat) ∧
      (l.foldl (fun lowest tx => if tx.Nonce < lowest then tx.Nonce else lowest) init = init ∨
        ∃ tx ∈ l, l.foldl (fun lowest tx => if tx.Nonce < lowest then tx.Nonce else lowest) init = tx.Nonce) := by
  induction l generalizing init with
  | nil => exact ⟨Nat.le_refl _, (fun _ h => by cases h), .inl rfl⟩
  | cons tx l ih =>
      rw [List.foldl_cons]
      obtain ⟨hle, hall, hmem⟩ := ih (if tx.Nonce < init then tx.Nonce else init)
      have hstep : (if tx.Nonce < init then tx.Nonce else init).toNat ≤ init.toNat ∧
          (if tx.Nonce < init then tx.Nonce else init).toNat ≤ tx.Nonce.toNat := by
        split
        · next hlt => exact ⟨Nat.le_of_lt (UInt64.lt_iff_toNat_lt.mp hlt), Nat.le_refl _⟩
        · next hlt => exact ⟨Nat.le_refl _, Nat.le_of_not_lt fun h => hlt (UInt64.lt_iff_toNat_lt.mpr h)⟩
      refine ⟨Nat.le_trans hle hstep.1, fun t ht => ?_, ?_⟩
      · rcases List.mem_cons.mp ht with rfl | ht
        · exact Nat.le_trans hle hstep.2
        · exact hall t ht
      · rcases hmem with h | ⟨t, ht, h⟩
        · rw [h]
          split
          · exact .inr ⟨tx, List.mem_cons_self, rfl⟩
          · exact .inl rfl
        · exact .inr ⟨t, List.mem_cons_of_mem _ ht, h⟩

/-- The lowest nonce of the removed transactions is the nonce of the head of
their sorted view.

The start is the largest nonce. Any other removed nonce is above the head's. -/
theorem lowestNonce_eq {removed L : List Transaction} {lo : Transaction} (hp : removed ~ L) (hL : Sorted nonceKey L)
    (hhead : L.head? = some lo) : txList.lowestNonce removed = lo.Nonce := by
  obtain ⟨S, rfl⟩ := List.head?_eq_some_iff.mp hhead
  obtain ⟨hle, hall, hmem⟩ := foldl_lowest removed 18446744073709551615
  have hlo : (txList.lowestNonce removed).toNat ≤ lo.Nonce.toNat := hall lo (hp.symm.subset List.mem_cons_self)
  apply UInt64.toNat_inj.mp
  rcases hmem with h | ⟨tx, htx, h⟩
  · have hmax : lo.Nonce.toNat < 2 ^ 64 := UInt64.toNat_lt _
    have hstart : (txList.lowestNonce removed).toNat = 2 ^ 64 - 1 := by
      rw [txList.lowestNonce, h]
      rfl
    omega
  · have hge : lo.Nonce.toNat ≤ tx.Nonce.toNat := by
      rcases List.mem_cons.mp (hp.subset htx) with rfl | hS
      · exact Nat.le_refl _
      · exact Nat.le_of_lt (hL.head_lt tx hS)
    have heq : (txList.lowestNonce removed).toNat = tx.Nonce.toNat := by
      rw [txList.lowestNonce, h]
    omega

/-- In strict mode what stays is what lies below the lowest nonce over a
limit: the transactions below it are not over, the one at it is.

Every transaction over the limit lies at or above `lo`. The one at `lo` is
`lo`, which is over. -/
theorem strict_remaining {items : TxMap} (hk : Keyed items) (p : Transaction → Bool) {lo : Transaction}
    (hlo : ((view items).filter p).head? = some lo) :
    ((view items).filter fun tx => !p tx).filter (fun tx => !decide (lo.Nonce < tx.Nonce)) =
      (view items).filter fun tx => decide (tx.Nonce < lo.Nonce) := by
  obtain ⟨S, hS⟩ := List.head?_eq_some_iff.mp hlo
  have hsorted : Sorted nonceKey (lo :: S) := hS ▸ hk.sorted.filter p
  have hlo_mem : lo ∈ (view items).filter p := by rw [hS]; exact List.mem_cons_self
  have hover : ∀ tx ∈ view items, p tx = true → lo.Nonce.toNat ≤ tx.Nonce.toNat := by
    intro tx htx hp
    have hmem : tx ∈ lo :: S := hS ▸ List.mem_filter.mpr ⟨htx, hp⟩
    rcases List.mem_cons.mp hmem with rfl | hmem
    · exact Nat.le_refl _
    · exact Nat.le_of_lt (hsorted.head_lt tx hmem)
  rw [List.filter_filter]
  refine List.filter_congr fun tx htx => ?_
  by_cases hlt : tx.Nonce < lo.Nonce
  · have hnp : p tx = false := by
      by_contra hp
      have := hover tx htx (Bool.not_eq_false _ |>.mp hp)
      exact absurd (UInt64.lt_iff_toNat_lt.mp hlt) (Nat.not_lt.mpr this)
    have hnlt : ¬ lo.Nonce < tx.Nonce := fun h => UInt64.lt_irrefl _ (UInt64.lt_trans h hlt)
    simp [hnp, hnlt, hlt]
  · by_cases heq : tx.Nonce = lo.Nonce
    · have hlo_view : lo ∈ view items := (List.mem_filter.mp hlo_mem).1
      have htx_lo : tx = lo :=
        hk.eq_of_nonce ((view_perm items).subset htx) ((view_perm items).subset hlo_view) heq
      subst htx_lo
      simp [(List.mem_filter.mp hlo_mem).2]
    · have hgt : lo.Nonce < tx.Nonce := by
        rw [UInt64.lt_iff_toNat_lt]
        rw [UInt64.lt_iff_toNat_lt] at hlt
        have := UInt64.toNat_inj.not.mpr heq
        omega
      simp [hgt, hlt]

namespace txList

theorem overLimits_eq_false {costLimit : Int} {gasLimit : UInt64} {tx : Transaction} :
    overLimits costLimit gasLimit tx = false ↔ (tx.Cost : Int) ≤ costLimit ∧ tx.Gas ≤ gasLimit := by
  simp only [overLimits, Bool.or_eq_false_iff, decide_eq_false_iff_not, Int.not_lt, UInt64.not_lt]

/-- The invariant of `txList`: that of its map, and caps at least every cost
and gas limit it holds. -/
structure Capped (l : txList) : Prop where
  inv : Inv l.txs
  cost_le : ∀ tx ∈ contents l.txs.items, (tx.Cost : Int) ≤ l.costcap
  gas_le : ∀ tx ∈ contents l.txs.items, tx.Gas ≤ l.gascap

theorem Capped.new (strict : Bool) : (newTxList strict).Capped :=
  ⟨Inv.new, fun tx htx => by simp [newTxList, newTxSortedMap, contents] at htx,
    fun tx htx => by simp [newTxList, newTxSortedMap, contents] at htx⟩

/-- A list that only loses transactions keeps its caps. -/
theorem Capped.of_sub {l l' : txList} (h : l.Capped) (hinv : Inv l'.txs)
    (hsub : ∀ tx ∈ view l'.txs.items, tx ∈ view l.txs.items) (hc : l'.costcap = l.costcap)
    (hg : l'.gascap = l.gascap) : l'.Capped := by
  have hmem : ∀ tx ∈ contents l'.txs.items, tx ∈ contents l.txs.items := fun tx htx =>
    (view_perm _).subset (hsub tx ((view_perm _).symm.subset htx))
  exact ⟨hinv, fun tx htx => hc ▸ h.cost_le tx (hmem tx htx), fun tx htx => hg ▸ h.gas_le tx (hmem tx htx)⟩

/-- The new caps are the larger of the old caps and the new transaction's. -/
theorem Add_capped {l : txList} (h : l.Capped) (tx : Transaction) (priceBump : UInt64) :
    (l.Add tx priceBump).1.Capped := by
  by_cases hrej : txList.rejects (l.txs.Get tx.Nonce) tx priceBump = true
  · simp only [txList.Add, hrej, if_true]
    exact h
  · simp only [txList.Add, hrej, Bool.false_eq_true, if_false]
    obtain ⟨hinv, hcont⟩ := Put_spec h.inv tx
    refine ⟨hinv, fun t ht => ?_, fun t ht => ?_⟩
    · have hcap : (tx.Cost : Int) ≤ (if l.costcap < (tx.Cost : Int) then (tx.Cost : Int) else l.costcap) ∧
          l.costcap ≤ (if l.costcap < (tx.Cost : Int) then (tx.Cost : Int) else l.costcap) := by
        split <;> omega
      rw [hcont] at ht
      rcases List.mem_cons.mp ht with rfl | ht
      · exact hcap.1
      · exact le_trans (h.cost_le t (List.mem_of_mem_filter ht)) hcap.2
    · have hcap : tx.Gas ≤ (if l.gascap < tx.Gas then tx.Gas else l.gascap) ∧
          l.gascap ≤ (if l.gascap < tx.Gas then tx.Gas else l.gascap) := by
        simp only [UInt64.le_iff_toNat_le]
        split
        · next hlt => exact ⟨Nat.le_refl _, Nat.le_of_lt (UInt64.lt_iff_toNat_lt.mp hlt)⟩
        · next hlt => exact ⟨Nat.le_of_not_lt fun h => hlt (UInt64.lt_iff_toNat_lt.mpr h), Nat.le_refl _⟩
      rw [hcont] at ht
      rcases List.mem_cons.mp ht with rfl | ht
      · exact hcap.1
      · exact UInt64.le_trans (h.gas_le t (List.mem_of_mem_filter ht)) hcap.2

/-- `Filter` removes exactly what is over a limit and, in strict mode, what
lies above the lowest nonce removed.

The caps are within the limits: nothing is over, and nothing happens. What
stays is within the limits. Strict, and something went: the cascade above
the lowest nonce removed. Not strict, or nothing went. Strict with something
over: excluded. -/
theorem Filter_spec {l : txList} (h : l.Capped) (r r' : MapRange) (costLimit : Int) (gasLimit : UInt64) :
    (l.Filter r r' costLimit gasLimit).1.Capped ∧
    (l.Filter r r' costLimit gasLimit).2.1 ~ (view l.txs.items).filter (overLimits costLimit gasLimit) ∧
    (∀ tx ∈ contents (l.Filter r r' costLimit gasLimit).1.txs.items, overLimits costLimit gasLimit tx = false) ∧
    (l.strict = false → (l.Filter r r' costLimit gasLimit).2.2 = [] ∧
      view (l.Filter r r' costLimit gasLimit).1.txs.items =
        (view l.txs.items).filter fun tx => !overLimits costLimit gasLimit tx) ∧
    (l.strict = true → ∀ lo, ((view l.txs.items).filter (overLimits costLimit gasLimit)).head? = some lo →
      (l.Filter r r' costLimit gasLimit).2.2 ~
          ((view l.txs.items).filter fun tx => !overLimits costLimit gasLimit tx).filter
            (fun tx => decide (lo.Nonce < tx.Nonce)) ∧
        view (l.Filter r r' costLimit gasLimit).1.txs.items =
          (view l.txs.items).filter fun tx => decide (tx.Nonce < lo.Nonce)) ∧
    ((view l.txs.items).filter (overLimits costLimit gasLimit) = [] →
      (l.Filter r r' costLimit gasLimit).2.2 = [] ∧ view (l.Filter r r' costLimit gasLimit).1.txs.items = view l.txs.items) := by
  have hview_mem : ∀ tx ∈ view l.txs.items, tx ∈ contents l.txs.items := fun tx htx => (view_perm _).subset htx
  by_cases hcap : l.costcap ≤ costLimit ∧ l.gascap ≤ gasLimit
  · have hF : l.Filter r r' costLimit gasLimit = (l, [], []) := by rw [txList.Filter, if_pos hcap]
    have hwithin : ∀ tx ∈ contents l.txs.items, overLimits costLimit gasLimit tx = false := fun tx htx =>
      overLimits_eq_false.mpr ⟨le_trans (h.cost_le tx htx) hcap.1, UInt64.le_trans (h.gas_le tx htx) hcap.2⟩
    have hnil : (view l.txs.items).filter (overLimits costLimit gasLimit) = [] :=
      List.filter_eq_nil_iff.mpr fun tx htx => by simp [hwithin tx (hview_mem tx htx)]
    have hall : (view l.txs.items).filter (fun tx => !overLimits costLimit gasLimit tx) = view l.txs.items :=
      List.filter_eq_self.mpr fun tx htx => by simp [hwithin tx (hview_mem tx htx)]
    rw [hF, hnil]
    exact ⟨h, .refl _, hwithin, fun _ => ⟨rfl, hall.symm⟩, (fun _ lo hlo => by cases hlo), fun _ => ⟨rfl, rfl⟩⟩
  · obtain ⟨hinv0, hv0, hrem0⟩ := Core.Filter_spec h.inv r (overLimits costLimit gasLimit)
    have hleft : ∀ tx ∈ contents (l.txs.Filter r (overLimits costLimit gasLimit)).1.items,
        overLimits costLimit gasLimit tx = false := by
      intro tx htx
      have hv : tx ∈ view (l.txs.Filter r (overLimits costLimit gasLimit)).1.items := (view_perm _).symm.subset htx
      rw [hv0] at hv
      simpa using (List.mem_filter.mp hv).2
    have hcapped : ∀ t : txSortedMap, Inv t →
        (∀ tx ∈ contents t.items, overLimits costLimit gasLimit tx = false) →
        ({ l with txs := t, costcap := costLimit, gascap := gasLimit } : txList).Capped := by
      intro t ht hover
      exact ⟨ht, fun tx htx => (overLimits_eq_false.mp (hover tx htx)).1,
        fun tx htx => (overLimits_eq_false.mp (hover tx htx)).2⟩
    by_cases hs : l.strict = true ∧ 0 < (l.txs.Filter r (overLimits costLimit gasLimit)).2.length
    · obtain ⟨lo, hlo⟩ : ∃ lo, ((view l.txs.items).filter (overLimits costLimit gasLimit)).head? = some lo := by
        cases hf : (view l.txs.items).filter (overLimits costLimit gasLimit) with
        | nil =>
            have hlen := hrem0.length_eq
            have hpos := hs.2
            rw [hf, List.length_nil] at hlen
            omega
        | cons lo _ => exact ⟨lo, rfl⟩
      have hlow := lowestNonce_eq hrem0 (h.inv.keyed.sorted.filter _) hlo
      obtain ⟨hinv1, hv1, hrem1⟩ := Core.Filter_spec hinv0 r' fun tx => decide (lo.Nonce < tx.Nonce)
      have hF : l.Filter r r' costLimit gasLimit =
          ({ l with
              txs := ((l.txs.Filter r (overLimits costLimit gasLimit)).1.Filter r' fun tx => decide (lo.Nonce < tx.Nonce)).1
              costcap := costLimit
              gascap := gasLimit },
            (l.txs.Filter r (overLimits costLimit gasLimit)).2,
            ((l.txs.Filter r (overLimits costLimit gasLimit)).1.Filter r' fun tx => decide (lo.Nonce < tx.Nonce)).2) := by
        rw [txList.Filter, if_neg hcap]
        dsimp only
        rw [if_pos hs, hlow]
      have hrest : view ((l.txs.Filter r (overLimits costLimit gasLimit)).1.Filter r'
          fun tx => decide (lo.Nonce < tx.Nonce)).1.items =
            (view l.txs.items).filter fun tx => decide (tx.Nonce < lo.Nonce) := by
        rw [hv1, hv0]
        exact strict_remaining h.inv.keyed _ hlo
      have hnil : (view l.txs.items).filter (overLimits costLimit gasLimit) ≠ [] := by
        intro h0
        rw [h0] at hlo
        cases hlo
      have hsub : ∀ tx ∈ contents ((l.txs.Filter r (overLimits costLimit gasLimit)).1.Filter r'
          fun tx => decide (lo.Nonce < tx.Nonce)).1.items,
            tx ∈ contents (l.txs.Filter r (overLimits costLimit gasLimit)).1.items := by
        intro tx htx
        have hv := (view_perm _).symm.subset htx
        rw [hv1] at hv
        exact (view_perm _).subset (List.mem_filter.mp hv).1
      rw [hF]
      refine ⟨hcapped _ hinv1 fun tx htx => hleft tx (hsub tx htx), hrem0, fun tx htx => hleft tx (hsub tx htx),
        fun hst => absurd hst (by simp [hs.1]), fun _ lo' hlo' => ?_, fun h0 => absurd h0 hnil⟩
      obtain rfl := Option.some.inj (hlo.symm.trans hlo')
      exact ⟨hv0 ▸ hrem1, hrest⟩
    · have hF : l.Filter r r' costLimit gasLimit =
          ({ l with txs := (l.txs.Filter r (overLimits costLimit gasLimit)).1, costcap := costLimit, gascap := gasLimit },
            (l.txs.Filter r (overLimits costLimit gasLimit)).2, []) := by
        rw [txList.Filter, if_neg hcap]
        dsimp only
        rw [if_neg hs]
      rw [hF]
      refine ⟨hcapped _ hinv0 hleft, hrem0, hleft, fun _ => ⟨rfl, hv0⟩, fun hst lo hlo => ?_, fun h0 => ⟨rfl, ?_⟩⟩
      · have hpos : 0 < ((view l.txs.items).filter (overLimits costLimit gasLimit)).length := by
          cases hf : (view l.txs.items).filter (overLimits costLimit gasLimit) with
          | nil => rw [hf] at hlo; cases hlo
          | cons _ _ => simp
        exact absurd ⟨hst, hrem0.length_eq ▸ hpos⟩ hs
      · rw [hv0]
        refine List.filter_eq_self.mpr fun tx htx => ?_
        have hnot := List.filter_eq_nil_iff.mp h0 tx htx
        simpa using hnot

theorem Forward_capped {l : txList} (h : l.Capped) (t : UInt64) : (l.Forward t).1.Capped := by
  obtain ⟨hinv, hv, -⟩ := Core.Forward_spec h.inv t
  refine h.of_sub hinv (fun tx htx => ?_) rfl rfl
  have htx' : tx ∈ view (l.txs.Forward t).1.items := htx
  rw [hv] at htx'
  exact (List.mem_filter.mp htx').1

theorem Cap_capped {l : txList} (h : l.Capped) (k : Nat) : (l.Cap k).1.Capped := by
  obtain ⟨hinv, hv, -⟩ := Core.Cap_spec h.inv k
  refine h.of_sub hinv (fun tx htx => ?_) rfl rfl
  have htx' : tx ∈ view (l.txs.Cap k).1.items := htx
  rw [hv] at htx'
  exact List.mem_of_mem_take htx'

/-- The view loses a prefix, or nothing. -/
theorem Ready_capped {l : txList} (h : l.Capped) (s : UInt64) : (l.Ready s).1.Capped := by
  obtain ⟨hinv, hready, hstop, hempty⟩ := Core.Ready_spec h.inv s
  refine h.of_sub hinv (fun tx htx => ?_) rfl rfl
  have htx' : tx ∈ view (l.txs.Ready s).1.items := htx
  cases hhead : (view l.txs.items).head? with
  | none => rwa [hempty (List.head?_eq_none_iff.mp hhead)] at htx'
  | some lo =>
      by_cases hle : lo.Nonce ≤ s
      · rw [(hready lo hhead hle).1] at htx'
        exact List.mem_of_mem_drop htx'
      · rwa [hstop lo hhead (UInt64.not_le.mp hle)] at htx'

/-- Strict: the transactions above the nonce leave too. -/
theorem Remove_capped {l : txList} (h : l.Capped) (r : MapRange) (tx : Transaction) : (l.Remove r tx).1.Capped := by
  obtain ⟨hinv, hv, -⟩ := Core.Remove_spec h.inv tx.Nonce
  have hsub : ∀ t ∈ view (l.txs.Remove tx.Nonce).1.items, t ∈ view l.txs.items := by
    intro t ht
    rw [hv] at ht
    exact (List.mem_filter.mp ht).1
  unfold txList.Remove
  dsimp only
  split
  · exact h
  · split
    · obtain ⟨hinv', hv', -⟩ := Core.Filter_spec hinv r fun t => decide (tx.Nonce < t.Nonce)
      refine h.of_sub hinv' (fun t ht => hsub t ?_) rfl rfl
      have ht' : t ∈ view ((l.txs.Remove tx.Nonce).1.Filter r fun t => decide (tx.Nonce < t.Nonce)).1.items := ht
      rw [hv'] at ht'
      exact (List.mem_filter.mp ht').1
    · exact h.of_sub hinv hsub rfl rfl

theorem Flatten_capped {l : txList} (h : l.Capped) (r : MapRange) : (l.Flatten r).1.Capped := by
  obtain ⟨hinv, hitems, -⟩ := Core.Flatten_spec h.inv r
  exact ⟨hinv, fun tx htx => h.cost_le tx (hitems ▸ htx), fun tx htx => h.gas_le tx (hitems ▸ htx)⟩

/-- The lists the operations reach from `newTxList`. -/
inductive Reachable : txList → Prop
  | new (strict : Bool) : Reachable (newTxList strict)
  | add {l : txList} (tx : Transaction) (priceBump : UInt64) : Reachable l → Reachable (l.Add tx priceBump).1
  | forward {l : txList} (threshold : UInt64) : Reachable l → Reachable (l.Forward threshold).1
  | filter {l : txList} (r r' : MapRange) (costLimit : Int) (gasLimit : UInt64) :
      Reachable l → Reachable (l.Filter r r' costLimit gasLimit).1
  | cap {l : txList} (threshold : Nat) : Reachable l → Reachable (l.Cap threshold).1
  | remove {l : txList} (r : MapRange) (tx : Transaction) : Reachable l → Reachable (l.Remove r tx).1
  | ready {l : txList} (start : UInt64) : Reachable l → Reachable (l.Ready start).1
  | flatten {l : txList} (r : MapRange) : Reachable l → Reachable (l.Flatten r).1

theorem Reachable.capped {l : txList} (hr : l.Reachable) : l.Capped := by
  induction hr with
  | new strict => exact Capped.new strict
  | add tx bump _ ih => exact Add_capped ih tx bump
  | forward t _ ih => exact Forward_capped ih t
  | filter r r' c g _ ih => exact (Filter_spec ih r r' c g).1
  | cap k _ ih => exact Cap_capped ih k
  | remove r tx _ ih => exact Remove_capped ih r tx
  | ready s _ ih => exact Ready_capped ih s
  | flatten r _ ih => exact Flatten_capped ih r

end txList

/-- On every list the operations reach, the caps are at least every cost and
gas limit it holds. So `Filter`, whether it returns at once or not, removes
exactly the transactions over a limit and keeps only transactions within
both; in strict mode it also removes exactly the rest above the lowest nonce
removed, which leaves a run of consecutive nonces one.

What stays is the whole list, or the part below the lowest nonce removed. -/
theorem filter_exact {l : txList} (hr : l.Reachable) :
    (∀ tx ∈ contents l.txs.items, (tx.Cost : Int) ≤ l.costcap ∧ tx.Gas ≤ l.gascap) ∧
    ∀ (r r' : MapRange) (costLimit : Int) (gasLimit : UInt64),
      (l.Filter r r' costLimit gasLimit).2.1 ~ (view l.txs.items).filter (txList.overLimits costLimit gasLimit) ∧
      (∀ tx ∈ contents (l.Filter r r' costLimit gasLimit).1.txs.items,
        (tx.Cost : Int) ≤ costLimit ∧ tx.Gas ≤ gasLimit) ∧
      (l.strict = false → (l.Filter r r' costLimit gasLimit).2.2 = []) ∧
      (l.strict = true →
        (∀ lo, ((view l.txs.items).filter (txList.overLimits costLimit gasLimit)).head? = some lo →
          (l.Filter r r' costLimit gasLimit).2.2 ~
            ((view l.txs.items).filter fun tx => !txList.overLimits costLimit gasLimit tx).filter
              (fun tx => decide (lo.Nonce < tx.Nonce))) ∧
        ((view l.txs.items).filter (txList.overLimits costLimit gasLimit) = [] →
          (l.Filter r r' costLimit gasLimit).2.2 = []) ∧
        (Consecutive (view l.txs.items) → Consecutive (view (l.Filter r r' costLimit gasLimit).1.txs.items))) := by
  have h := hr.capped
  refine ⟨fun tx htx => ⟨h.cost_le tx htx, h.gas_le tx htx⟩, fun r r' costLimit gasLimit => ?_⟩
  obtain ⟨-, hrem, hleft, hns, hstrict, hnone⟩ := txList.Filter_spec h r r' costLimit gasLimit
  refine ⟨hrem, fun tx htx => txList.overLimits_eq_false.mp (hleft tx htx), fun hs => (hns hs).1,
    fun hs => ⟨fun lo hlo => (hstrict hs lo hlo).1, fun h0 => (hnone h0).1, fun hc => ?_⟩⟩
  cases hf : (view l.txs.items).filter (txList.overLimits costLimit gasLimit) with
  | nil =>
      rw [(hnone hf).2]
      exact hc
  | cons lo _ =>
      rw [(hstrict hs lo (by rw [hf]; rfl)).2]
      exact hc.filter_lt h.inv.keyed lo.Nonce

/-- A strict list of the nonces 0, 1 and 2, in which a transaction paying
twice the price replaces nonce 1 under a price bump of 10%; a balance of 1
then removes the replacement, whose cost is 2, and strictness the nonce 2
above it. -/
theorem filter_exact_bump_filter :
    let l := (((((newTxList true).Add (NewContractCreation 0 0 1 1 []) 10).1.Add (NewContractCreation 1 0 1 1 []) 10).1.Add
      (NewContractCreation 2 0 1 1 []) 10).1.Add (NewContractCreation 1 0 1 2 []) 10).1
    l.Reachable ∧ (l.txs.items.lookup 1).map Transaction.GasPrice = some 2 ∧
      (l.Filter .entries .entries 1 1).2.1.map Transaction.Nonce = [1] ∧
      (l.Filter .entries .entries 1 1).2.2.map Transaction.Nonce = [2] ∧
    ((∀ tx ∈ contents l.txs.items, (tx.Cost : Int) ≤ l.costcap ∧ tx.Gas ≤ l.gascap) ∧
      ∀ (r r' : MapRange) (costLimit : Int) (gasLimit : UInt64),
        (l.Filter r r' costLimit gasLimit).2.1 ~ (view l.txs.items).filter (txList.overLimits costLimit gasLimit) ∧
        (∀ tx ∈ contents (l.Filter r r' costLimit gasLimit).1.txs.items,
          (tx.Cost : Int) ≤ costLimit ∧ tx.Gas ≤ gasLimit) ∧
        (l.strict = false → (l.Filter r r' costLimit gasLimit).2.2 = []) ∧
        (l.strict = true →
          (∀ lo, ((view l.txs.items).filter (txList.overLimits costLimit gasLimit)).head? = some lo →
            (l.Filter r r' costLimit gasLimit).2.2 ~
              ((view l.txs.items).filter fun tx => !txList.overLimits costLimit gasLimit tx).filter
                (fun tx => decide (lo.Nonce < tx.Nonce))) ∧
          ((view l.txs.items).filter (txList.overLimits costLimit gasLimit) = [] →
            (l.Filter r r' costLimit gasLimit).2.2 = []) ∧
          (Consecutive (view l.txs.items) → Consecutive (view (l.Filter r r' costLimit gasLimit).1.txs.items)))) := by
  intro l
  have hr : l.Reachable := .add _ 10 (.add _ 10 (.add _ 10 (.add _ 10 (.new true))))
  obtain ⟨hprice, hrem, hinv⟩ : (l.txs.items.lookup 1).map Transaction.GasPrice = some 2 ∧
      (l.Filter .entries .entries 1 1).2.1.map Transaction.Nonce = [1] ∧
      (l.Filter .entries .entries 1 1).2.2.map Transaction.Nonce = [2] := by
    decide +kernel
  exact ⟨hr, hprice, hrem, hinv, filter_exact hr⟩

end Lemochain.Core
