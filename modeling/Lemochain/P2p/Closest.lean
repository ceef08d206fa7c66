import Mathlib.Data.Int.ConditionallyCompleteOrder
import Mathlib.Data.List.FinRange
import Lemochain.P2p.Table
import Lemochain.Lib.Slice
import Lemochain.Lib.BinarySearch
import Lemochain.Lib.LeastK
import Lemochain.Lib.Numeral

/-!
# The nodes closest to a target (`p2p/discover/table.go`, `node.go`)

`distcmp` compares the distances of two hashes to a target under the XOR
metric, a byte at a time. A `nodesByDistance` keeps the nodes pushed into it
sorted by distance to its target and at most `maxElems` of them: `push`
finds with `sort.Search` the first entry farther than the new node, appends
it while there is room, and shifts the entries from that place one step
down with `copy`, which drops the last entry of a full list. `Table.closest`
pushes every entry of every bucket.

The distance of a hash to the target is `dist`, the bytes of their XOR read
as a big-endian number, so that `distcmp` compares `dist` (`distcmp_spec`).
A push is `Keeps.insert` of `Lib.LeastK`, so after any sequence of pushes
the entries are the nodes pushed with the least distances, sorted.

## Main results

* `distcmp_spec`: `distcmp` is the comparison of the distances.
* `push_entries`: a push places the node after the entries at most as far
  and cuts the list to `maxElems`.
* `foldl_push_keeps`: every sequence of pushes keeps the nearest nodes.
* `closest_nearest`: the same for `Table.closest` over the table's entries.
-/

namespace Lemochain.Discover

open Lemochain.Slice Lemochain.BinarySearch Lemochain.LeastK Lemochain.Numeral

/-! ## The model -/

/-- The loop of `distcmp` over the bytes of the target and of the two
hashes. -/
def distcmpBytes : Bytes → Bytes → Bytes → Int
  | t :: target, x :: a, y :: b =>
    let da := x ^^^ t
    let db := y ^^^ t
    if da > db then 1 else if da < db then -1 else distcmpBytes target a b
  | _, _, _ => 0

/-- `distcmp`: `1` if `a` is farther from `target` than `b`, `-1` if it is
closer, `0` if they are as far. -/
def distcmp (target a b : Hash) : Int := distcmpBytes target.bytes a.bytes b.bytes

/-- `sort.Search`. -/
def Search (n : Nat) (f : Nat → Bool) : Nat := search f 0 n

/-- `nodesByDistance`. -/
structure nodesByDistance where
  entries : List Node
  target : Hash

namespace nodesByDistance

/-- The test of the search of `push`: entry `i` is farther from the target
than `n`. -/
def farther (h : nodesByDistance) (n : Node) (i : Nat) : Bool :=
  match h.entries[i]? with
  | some e => decide (distcmp h.target e.sha n.sha > 0)
  | none => false

/-- `push`: the entries from the first one farther than `n` shift one place
down, `n` takes that place, and a full list loses its last entry. -/
def push (h : nodesByDistance) (n : Node) (maxElems : Nat) : nodesByDistance :=
  let ix := Search h.entries.length (h.farther n)
  let entries := if h.entries.length < maxElems then h.entries ++ [n] else h.entries
  if ix = entries.length then { h with entries := entries }
  else { h with entries := (entries.take (ix + 1) ++ copy (entries.drop (ix + 1)) (entries.drop ix)).set ix n }

end nodesByDistance

/-- `Table.closest`: every entry of every bucket, bucket by bucket, pushed
into a `nodesByDistance` with room for `nresults`. -/
def Table.closest (tab : Table) (target : Hash) (nresults : Nat) : nodesByDistance :=
  (List.finRange nBuckets).foldl (fun close b => (tab.buckets b).entries.foldl (fun close n => close.push n nresults) close)
    { entries := [], target := target }

/-! ## The XOR metric -/

/-- The bytes of `a ^ t`, as numbers. -/
def xorDigits (a t : Bytes) : List Nat := List.zipWith (fun x y => (x ^^^ y).toNat) a t

/-- The distance of `a` to `target`: their XOR, read as a big-endian
number. -/
def dist (target a : Hash) : Nat := msbValue 256 (xorDigits a.bytes target.bytes)

theorem xorDigits_lt (a t : Bytes) : ∀ d ∈ xorDigits a t, d < 256 := by
  intro d hd
  rw [xorDigits] at hd
  obtain ⟨i, hi, rfl⟩ := List.getElem_of_mem hd
  rw [List.getElem_zipWith]
  exact UInt8.toNat_lt _

theorem length_xorDigits (a t : Bytes) : (xorDigits a t).length = min a.length t.length := by
  rw [xorDigits, List.length_zipWith]

/-- `distcmpBytes` compares the XORs of two byte strings with a third as
big-endian numbers.

The first byte that differs decides. Equal first bytes: the rest decides. -/
theorem distcmpBytes_spec : ∀ (t a b : Bytes), a.length = t.length → b.length = t.length →
    distcmpBytes t a b =
      if msbValue 256 (xorDigits b t) < msbValue 256 (xorDigits a t) then 1
      else if msbValue 256 (xorDigits a t) < msbValue 256 (xorDigits b t) then -1 else 0
  | [], a, b, ha, hb => by
    rw [List.length_nil, List.length_eq_zero_iff] at ha hb
    subst ha hb
    rfl
  | t :: target, x :: a, y :: b, ha, hb => by
    simp only [List.length_cons, Nat.add_right_cancel_iff] at ha hb
    have hlen : (xorDigits a target).length = (xorDigits b target).length := by
      rw [length_xorDigits, length_xorDigits, ha, hb]
    have hxa : xorDigits (x :: a) (t :: target) = (x ^^^ t).toNat :: xorDigits a target := rfl
    have hxb : xorDigits (y :: b) (t :: target) = (y ^^^ t).toNat :: xorDigits b target := rfl
    rw [distcmpBytes, hxa, hxb]
    split
    · rename_i hgt
      have hlt := msbValue_lt_of_head_lt (by decide) hlen.symm (xorDigits_lt b target) (UInt8.lt_iff_toNat_lt.mp hgt)
      rw [if_pos hlt]
    · split
      · rename_i _ hlt
        have hlt' := msbValue_lt_of_head_lt (by decide) hlen (xorDigits_lt a target) (UInt8.lt_iff_toNat_lt.mp hlt)
        rw [if_neg (Nat.lt_asymm hlt'), if_pos hlt']
      · rename_i hngt hnlt
        have heq : (x ^^^ t).toNat = (y ^^^ t).toNat := by
          rw [UInt8.lt_iff_toNat_lt] at hnlt
          rw [gt_iff_lt, UInt8.lt_iff_toNat_lt] at hngt
          omega
        rw [distcmpBytes_spec target a b ha hb, msbValue_cons, msbValue_cons, heq, hlen]
        simp only [Nat.add_lt_add_iff_left]
  | t :: target, [], b, ha, _ => by simp at ha
  | t :: target, x :: a, [], _, hb => by simp at hb

/-- `distcmp` is the comparison of the distances to the target. -/
theorem distcmp_spec (target a b : Hash) :
    distcmp target a b =
      if dist target b < dist target a then 1 else if dist target a < dist target b then -1 else 0 := by
  rw [distcmp, distcmpBytes_spec _ _ _ (by rw [a.length_eq, target.length_eq]) (by rw [b.length_eq, target.length_eq])]
  rfl

theorem distcmp_pos_iff (target a b : Hash) : distcmp target a b > 0 ↔ dist target b < dist target a := by
  rw [distcmp_spec]
  split
  · simp_all
  · split
    · rename_i h1 h2
      simp only [Int.reduceNeg, gt_iff_lt, Int.reduceLT, false_iff]
      omega
    · rename_i h1 _
      simpa using h1

/-! ## One push -/

namespace nodesByDistance

/-- Both branches of the push keep the target. -/
@[simp] theorem push_target (h : nodesByDistance) (n : Node) (maxElems : Nat) :
    (h.push n maxElems).target = h.target := by
  rw [push, apply_ite nodesByDistance.target, ite_self]

/-- A push places `n` at the index the search finds and cuts the entries to
`maxElems`. -/
theorem push_entries (h : nodesByDistance) (n : Node) {maxElems : Nat} (hlen : h.entries.length ≤ maxElems) :
    (h.push n maxElems).entries =
      (h.entries.take (Search h.entries.length (h.farther n)) ++
        n :: h.entries.drop (Search h.entries.length (h.farther n))).take maxElems := by
  rw [push, apply_ite nodesByDistance.entries]
  exact insert_bounded n (search_le _ 0 _ (Nat.zero_le _)) hlen

/-- In entries sorted by distance, being farther than `n` holds from some
index on. -/
theorem farther_monotone {h : nodesByDistance} (hs : h.entries.Pairwise fun a b => dist h.target a.sha ≤ dist h.target b.sha)
    (n : Node) : MonotoneBelow h.entries.length (h.farther n) := by
  intro a b hab hb ha
  have ha' : a < h.entries.length := by omega
  rw [farther, List.getElem?_eq_getElem ha', decide_eq_true_eq, distcmp_pos_iff] at ha
  rw [farther, List.getElem?_eq_getElem hb, decide_eq_true_eq, distcmp_pos_iff]
  rcases Nat.eq_or_lt_of_le hab with rfl | hlt
  · exact ha
  · exact lt_of_lt_of_le ha (List.pairwise_iff_getElem.mp hs a b ha' hb hlt)

theorem dist_le_of_farther_false {h : nodesByDistance} {n e : Node} {i : Nat} (he : h.entries[i]? = some e)
    (hfar : h.farther n i = false) : dist h.target e.sha ≤ dist h.target n.sha := by
  rw [farther, he, decide_eq_false_iff_not, distcmp_pos_iff] at hfar
  exact Nat.le_of_not_lt hfar

theorem dist_lt_of_farther_true {h : nodesByDistance} {n e : Node} {i : Nat} (he : h.entries[i]? = some e)
    (hfar : h.farther n i = true) : dist h.target n.sha < dist h.target e.sha := by
  rw [farther, he, decide_eq_true_eq, distcmp_pos_iff] at hfar
  exact hfar

/-- A push keeps the nearest nodes of the stream.

The search stops after the entries at most as far as `n`. -/
theorem push_keeps {k : Nat} {pushed : List Node} {h : nodesByDistance}
    (hk : Keeps (fun m : Node => dist h.target m.sha) k pushed h.entries) (n : Node) :
    Keeps (fun m : Node => dist h.target m.sha) k (pushed ++ [n]) (h.push n k).entries := by
  have hspec := search_spec (farther_monotone hk.sorted n)
  rw [← Search] at hspec
  obtain ⟨-, hlow, hhigh⟩ := hspec
  have hsplit := split_of_first hk.sorted (fun i hi e he => dist_le_of_farther_false he (hlow i hi))
    (fun e he => dist_lt_of_farther_true he (hhigh (List.getElem?_eq_some_iff.mp he).1))
  have hlen : h.entries.length ≤ k := by
    rw [hk.length_eq]
    exact Nat.min_le_left _ _
  rw [push_entries h n hlen]
  exact hk.insert n _ hsplit.1 hsplit.2

end nodesByDistance

/-- Every sequence of pushes keeps the nearest nodes of the stream, and the
target. -/
theorem foldl_push_keeps (k : Nat) : ∀ (ns pushed : List Node) (h : nodesByDistance),
    Keeps (fun m : Node => dist h.target m.sha) k pushed h.entries →
      Keeps (fun m : Node => dist h.target m.sha) k (pushed ++ ns) (ns.foldl (fun h n => h.push n k) h).entries ∧
        (ns.foldl (fun h n => h.push n k) h).target = h.target
  | [], pushed, h, hk => ⟨by rw [List.append_nil]; exact hk, rfl⟩
  | n :: ns, pushed, h, hk => by
    have hstep := h.push_keeps hk n
    rw [← nodesByDistance.push_target h n k] at hstep
    obtain ⟨hrun, htarget⟩ := foldl_push_keeps k ns (pushed ++ [n]) (h.push n k) hstep
    rw [nodesByDistance.push_target, List.append_assoc, List.singleton_append] at hrun
    rw [nodesByDistance.push_target] at htarget
    exact ⟨hrun, htarget⟩

/-- `Table.closest` pushes the entries of the buckets in order. -/
theorem closest_eq (tab : Table) (target : Hash) (nresults : Nat) :
    tab.closest target nresults =
      ((List.finRange nBuckets).flatMap fun b => (tab.buckets b).entries).foldl (fun h n => h.push n nresults)
        { entries := [], target := target } := by
  rw [Table.closest, List.foldl_flatMap]

/-- `distcmp` orders hashes by their XOR distance to the target, and
whatever the nodes pushed, a `nodesByDistance` from empty holds the `k` of
them nearest to its target, or all while there are fewer, sorted by
distance; so does `Table.closest`, of the entries of all the buckets. -/
theorem closest_nearest (target : Hash) (k : Nat) :
    (∀ a b : Hash, distcmp target a b =
        if dist target b < dist target a then 1 else if dist target a < dist target b then -1 else 0) ∧
      (∀ ns : List Node, Keeps (fun n : Node => dist target n.sha) k ns
        (ns.foldl (fun h n => nodesByDistance.push h n k) { entries := [], target := target }).entries) ∧
      ∀ tab : Table, Keeps (fun n : Node => dist target n.sha) k
        ((List.finRange nBuckets).flatMap fun b => (tab.buckets b).entries) (tab.closest target k).entries := by
  have hrun : ∀ ns : List Node, Keeps (fun n : Node => dist target n.sha) k ns
      (ns.foldl (fun h n => nodesByDistance.push h n k) { entries := [], target := target }).entries := fun ns =>
    (foldl_push_keeps k ns [] { entries := [], target := target } (Keeps.nil k)).1
  exact ⟨distcmp_spec target, hrun, fun tab => by rw [closest_eq]; exact hrun _⟩

end Lemochain.Discover
