import Mathlib.Algebra.Group.Nat.Defs
import Mathlib.Order.Defs.Unbundled

/-!
# Binary heaps over a list (Go's `container/heap`)

The functions of `container/heap` in Go 1.10: `up` and `down` sift the
element at a position along its path, `Init` heapifies, and `Push`, `Pop`,
`Remove` and `Fix` keep a heap. The slice is a list; `h.Less(i, j)` is a
decidable relation `lt` on the elements at `i` and `j`, `h.Swap` swaps them,
and the `Push` and `Pop` methods of the slice append and take the last
element (`popLast`). Reading out of range gives the default element where Go
would panic; the operations never do so on the inputs their theorems take.
This module names nothing of any program.

The order is a strict weak order (Mathlib's `IsStrictWeakOrder`), so that
equal keys are allowed: a child is never `lt` its parent (`IsHeap`).

## Main results

* `IsHeap.root_min`: the root of a heap is minimal.
* `Init_heap`, `Push_heap`, `Pop_heap`, `Remove_heap`, `Fix_heap`: each
  operation leaves a heap, a permutation of its input (`*_perm`); `Pop`
  returns the root and `Remove` the element at its index.
-/

namespace Lemochain.Heap

open scoped List

variable {α : Type}

section StrictWeakOrder

variable (lt : α → α → Prop) [IsStrictWeakOrder α lt]

/-- Not being less is transitive in a strict weak order. -/
theorem not_lt_trans {a b c : α} (hab : ¬ lt a b) (hbc : ¬ lt b c) : ¬ lt a c := by
  intro hac
  have hba : ¬ lt b a := fun h => hbc (IsTrans.trans _ _ _ h hac)
  have hcb : ¬ lt c b := fun h => hab (IsTrans.trans _ _ _ hac h)
  exact (IsStrictWeakOrder.incomp_trans a b c ⟨hab, hba⟩ ⟨hbc, hcb⟩).1 hac

theorem not_lt_of_lt {a b : α} (h : lt a b) : ¬ lt b a :=
  fun h' => Std.Irrefl.irrefl a (IsTrans.trans _ _ _ h h')

end StrictWeakOrder

variable [Inhabited α]

/-- The element at `i`. -/
def nth (xs : List α) (i : Nat) : α := xs.getD i default

/-- `h.Swap(i, j)`. -/
def swap (xs : List α) (i j : Nat) : List α := (xs.set i (nth xs j)).set j (nth xs i)

/-- The index of the parent, `(j - 1) / 2`; the root is its own parent. -/
def parent (j : Nat) : Nat := (j - 1) / 2

/-- The `Pop` method of the slices: the last element, and the rest. -/
def popLast (xs : List α) : Option (α × List α) := xs.getLast?.map fun x => (x, xs.dropLast)

section Operations

variable (lt : α → α → Prop) [DecidableRel lt]

/-- `h.Less(i, j)`. -/
def less (xs : List α) (i j : Nat) : Bool := decide (lt (nth xs i) (nth xs j))

/-- `up`: swap the element at `j` with its parent while it is less. -/
def up (xs : List α) (j : Nat) : List α :=
  if h : parent j = j ∨ !less lt xs j (parent j) then xs
  else up (swap xs (parent j) j) (parent j)
termination_by j
decreasing_by
  have hne : parent j ≠ j := fun e => h (Or.inl e)
  unfold parent at hne ⊢
  omega

/-- The child that `down` compares with: the right one when it is less than
the left one. -/
def minChild (n : Nat) (xs : List α) (i : Nat) : Nat :=
  if 2 * i + 2 < n ∧ less lt xs (2 * i + 2) (2 * i + 1) then 2 * i + 2 else 2 * i + 1

theorem lt_minChild (n : Nat) (xs : List α) (i : Nat) : i < minChild lt n xs i := by
  unfold minChild
  split <;> omega

theorem minChild_lt {n : Nat} (xs : List α) {i : Nat} (h : 2 * i + 1 < n) : minChild lt n xs i < n := by
  unfold minChild
  split
  · next hc => exact hc.1
  · exact h

/-- The loop of `down` below the bound `n`: the final list and the final
position. -/
def downLoop (n : Nat) (xs : List α) (i : Nat) : List α × Nat :=
  if h : n ≤ 2 * i + 1 then (xs, i)
  else if !less lt xs (minChild lt n xs i) i then (xs, i)
  else downLoop n (swap xs i (minChild lt n xs i)) (minChild lt n xs i)
termination_by n - i
decreasing_by
  have h₁ := lt_minChild lt n xs i
  have h₂ := minChild_lt lt xs (Nat.lt_of_not_le h)
  omega

/-- `down`: sift the element at `i0` down below `n`; whether it moved. -/
def down (xs : List α) (i0 n : Nat) : List α × Bool :=
  let r := downLoop lt n xs i0
  (r.1, i0 < r.2)

/-- `heap.Init`: `down` at every parent, from the last. -/
def Init (xs : List α) : List α :=
  (List.range (xs.length / 2)).reverse.foldl (fun acc i => (down lt acc i xs.length).1) xs

/-- `heap.Push`: append, then `up` from the end. -/
def Push (xs : List α) (x : α) : List α := up lt (xs ++ [x]) xs.length

/-- `heap.Pop`: swap the root to the end, `down` from the root above it, then
take the last element; an empty heap panics. -/
def Pop (xs : List α) : Option (α × List α) :=
  if xs = [] then none
  else popLast (down lt (swap xs 0 (xs.length - 1)) 0 (xs.length - 1)).1

/-- `heap.Remove`: swap the element at `i` to the end, `down` then `up` at
`i` above it, then take the last element; an index out of range panics. -/
def Remove (xs : List α) (i : Nat) : Option (α × List α) :=
  if xs.length ≤ i then none
  else if xs.length - 1 ≠ i then
    popLast (up lt (down lt (swap xs i (xs.length - 1)) i (xs.length - 1)).1 i)
  else popLast xs

/-- `heap.Fix`: `down` at `i`, and `up` if it did not move. -/
def Fix (xs : List α) (i : Nat) : List α :=
  let r := down lt xs i xs.length
  if !r.2 then up lt r.1 i else r.1

end Operations

/-! ## Positions -/

theorem parent_lt {c : Nat} (h : 0 < c) : parent c < c := by
  unfold parent
  omega

@[simp] theorem parent_left (i : Nat) : parent (2 * i + 1) = i := by
  unfold parent
  omega

@[simp] theorem parent_right (i : Nat) : parent (2 * i + 2) = i := by
  unfold parent
  omega

theorem child_cases {c i : Nat} (hc : 0 < c) (h : parent c = i) : c = 2 * i + 1 ∨ c = 2 * i + 2 := by
  unfold parent at h
  omega

theorem parent_eq_self_iff {j : Nat} : parent j = j ↔ j = 0 := by
  unfold parent
  omega

/-! ## Reading, swapping and taking the last element -/

theorem nth_eq_getElem {xs : List α} {i : Nat} (h : i < xs.length) : nth xs i = xs[i] := by
  simp [nth, h]

theorem nth_set (xs : List α) {i : Nat} (hi : i < xs.length) (a : α) (k : Nat) :
    nth (xs.set i a) k = if k = i then a else nth xs k := by
  by_cases hk : k = i
  · subst hk
    simp [nth, hi]
  · simp [nth, hk, Ne.symm hk]

@[simp] theorem length_swap (xs : List α) (i j : Nat) : (swap xs i j).length = xs.length := by
  simp [swap]

theorem nth_swap {xs : List α} {i j : Nat} (hi : i < xs.length) (hj : j < xs.length) (k : Nat) :
    nth (swap xs i j) k = if k = j then nth xs i else if k = i then nth xs j else nth xs k := by
  rw [swap, nth_set _ (by rwa [List.length_set]), nth_set _ hi]

theorem nth_swap_left {xs : List α} {i j : Nat} (hi : i < xs.length) (hj : j < xs.length) :
    nth (swap xs i j) i = nth xs j := by
  rw [nth_swap hi hj]
  by_cases h : i = j
  · rw [if_pos h, h]
  · rw [if_neg h, if_pos rfl]

theorem nth_swap_right {xs : List α} {i j : Nat} (hi : i < xs.length) (hj : j < xs.length) :
    nth (swap xs i j) j = nth xs i := by
  rw [nth_swap hi hj, if_pos rfl]

theorem nth_swap_of_ne {xs : List α} {i j k : Nat} (hi : i < xs.length) (hj : j < xs.length)
    (hki : k ≠ i) (hkj : k ≠ j) : nth (swap xs i j) k = nth xs k := by
  rw [nth_swap hi hj, if_neg hkj, if_neg hki]

theorem swap_perm {xs : List α} {i j : Nat} (hi : i < xs.length) (hj : j < xs.length) : swap xs i j ~ xs := by
  rw [swap, nth_eq_getElem hi, nth_eq_getElem hj]
  exact List.set_set_perm hi hj

theorem popLast_eq {xs : List α} (h : xs ≠ []) : popLast xs = some (nth xs (xs.length - 1), xs.dropLast) := by
  have hlen : xs.length - 1 < xs.length := by
    have := List.length_pos_iff.mpr h
    omega
  rw [popLast, List.getLast?_eq_some_getLast h, List.getLast_eq_getElem, ← nth_eq_getElem hlen]
  rfl

theorem popLast_perm {xs : List α} (h : xs ≠ []) : nth xs (xs.length - 1) :: xs.dropLast ~ xs := by
  have hlen : xs.length - 1 < xs.length := by
    have := List.length_pos_iff.mpr h
    omega
  have hsplit := List.dropLast_concat_getLast h
  rw [List.getLast_eq_getElem, ← nth_eq_getElem hlen] at hsplit
  calc nth xs (xs.length - 1) :: xs.dropLast
      ~ xs.dropLast ++ [nth xs (xs.length - 1)] := List.perm_append_singleton _ _ |>.symm
    _ = xs := hsplit

theorem nth_dropLast {xs : List α} {k : Nat} (hk : k < xs.length - 1) : nth xs.dropLast k = nth xs k := by
  unfold nth
  rw [List.getD_eq_getElem?_getD, List.getD_eq_getElem?_getD, List.getElem?_dropLast, if_pos hk]

theorem nth_append_of_lt {xs : List α} {k : Nat} (x : α) (hk : k < xs.length) : nth (xs ++ [x]) k = nth xs k := by
  simp [nth, List.getElem?_append_left hk, hk]

section Operations

variable (lt : α → α → Prop) [DecidableRel lt]

/-! ## Lengths, permutations and the positions left alone -/

theorem parent_minChild (n : Nat) (xs : List α) (i : Nat) : parent (minChild lt n xs i) = i := by
  unfold minChild
  split <;> simp

@[simp] theorem length_up (xs : List α) (j : Nat) : (up lt xs j).length = xs.length := by
  induction xs, j using up.induct lt with
  | case1 xs j h => rw [up, dif_pos h]
  | case2 xs j h ih => rw [up, dif_neg h, ih, length_swap]

theorem parent_lt_of_up {xs : List α} {j : Nat} (h : ¬(parent j = j ∨ (!less lt xs j (parent j)) = true)) :
    parent j < j := by
  have hne : parent j ≠ j := fun e => h (Or.inl e)
  have hj : j ≠ 0 := fun h0 => hne (parent_eq_self_iff.mpr h0)
  exact parent_lt (by omega)

theorem up_perm {xs : List α} {j : Nat} (hj : j < xs.length) : up lt xs j ~ xs := by
  induction xs, j using up.induct lt with
  | case1 xs j h => rw [up, dif_pos h]
  | case2 xs j h ih =>
      have hp := parent_lt_of_up lt h
      rw [up, dif_neg h]
      exact (ih (by rw [length_swap]; omega)).trans (swap_perm (by omega) hj)

/-- `up` from `j` reads and writes nothing after `j`. -/
theorem nth_up_of_lt {xs : List α} {j k : Nat} (hj : j < xs.length) (hk : j < k) :
    nth (up lt xs j) k = nth xs k := by
  induction xs, j using up.induct lt with
  | case1 xs j h => rw [up, dif_pos h]
  | case2 xs j h ih =>
      have hp := parent_lt_of_up lt h
      rw [up, dif_neg h, ih (by rw [length_swap]; omega) (by omega),
        nth_swap_of_ne (by omega) hj (by omega) (by omega)]

@[simp] theorem length_downLoop (n : Nat) (xs : List α) (i : Nat) : (downLoop lt n xs i).1.length = xs.length := by
  induction xs, i using downLoop.induct lt n with
  | case1 xs i h => rw [downLoop, dif_pos h]
  | case2 xs i h hstop => rw [downLoop, dif_neg h, if_pos hstop]
  | case3 xs i h hstop ih => rw [downLoop, dif_neg h, if_neg hstop, ih, length_swap]

theorem downLoop_perm {n : Nat} {xs : List α} (hn : n ≤ xs.length) (i : Nat) : (downLoop lt n xs i).1 ~ xs := by
  induction xs, i using downLoop.induct lt n with
  | case1 xs i h => rw [downLoop, dif_pos h]
  | case2 xs i h hstop => rw [downLoop, dif_neg h, if_pos hstop]
  | case3 xs i h hstop ih =>
      have hj := minChild_lt lt xs (Nat.lt_of_not_le h)
      rw [downLoop, dif_neg h, if_neg hstop]
      exact (ih (by rw [length_swap]; exact hn)).trans (swap_perm (by omega) (by omega))

/-- `down` below `n` leaves the positions from `n` on alone. -/
theorem nth_downLoop_of_le {n : Nat} {xs : List α} (hn : n ≤ xs.length) (i : Nat) {k : Nat} (hk : n ≤ k) :
    nth (downLoop lt n xs i).1 k = nth xs k := by
  induction xs, i using downLoop.induct lt n with
  | case1 xs i h => rw [downLoop, dif_pos h]
  | case2 xs i h hstop => rw [downLoop, dif_neg h, if_pos hstop]
  | case3 xs i h hstop ih =>
      have hj := minChild_lt lt xs (Nat.lt_of_not_le h)
      rw [downLoop, dif_neg h, if_neg hstop, ih (by rw [length_swap]; exact hn),
        nth_swap_of_ne (by omega) (by omega) (by omega) (by omega)]

theorem le_downLoop (n : Nat) (xs : List α) (i : Nat) : i ≤ (downLoop lt n xs i).2 := by
  induction xs, i using downLoop.induct lt n with
  | case1 xs i h => exact Nat.le_of_eq (by rw [downLoop, dif_pos h])
  | case2 xs i h hstop => exact Nat.le_of_eq (by rw [downLoop, dif_neg h, if_pos hstop])
  | case3 xs i h hstop ih =>
      have := lt_minChild lt n xs i
      rw [downLoop, dif_neg h, if_neg hstop]
      omega

@[simp] theorem down_fst (xs : List α) (i n : Nat) : (down lt xs i n).1 = (downLoop lt n xs i).1 := rfl

/-- `Fix` by whether `down` moved. -/
theorem Fix_eq (xs : List α) (i : Nat) :
    Fix lt xs i = if i < (downLoop lt xs.length xs i).2 then (downLoop lt xs.length xs i).1
      else up lt (downLoop lt xs.length xs i).1 i := by
  by_cases h : i < (downLoop lt xs.length xs i).2 <;> simp [Fix, down, h]

theorem less_eq_true_iff {xs : List α} {i j : Nat} : less lt xs i j = true ↔ lt (nth xs i) (nth xs j) := by
  rw [less, decide_eq_true_iff]

theorem less_eq_false_iff {xs : List α} {i j : Nat} : less lt xs i j = false ↔ ¬ lt (nth xs i) (nth xs j) := by
  rw [less, decide_eq_false_iff_not]

theorem Fix_perm {xs : List α} {i : Nat} (hi : i < xs.length) : Fix lt xs i ~ xs := by
  rw [Fix_eq]
  split
  · exact downLoop_perm lt (Nat.le_refl _) i
  · exact (up_perm lt (by rw [length_downLoop]; exact hi)).trans (downLoop_perm lt (Nat.le_refl _) i)

end Operations

/-! ## The heap order -/

section Predicates

variable (lt : α → α → Prop)

/-- Every child below `n` whose parent is at `lo` or after is not less than
its parent. -/
def Ordered (lo n : Nat) (xs : List α) : Prop :=
  ∀ c, 0 < c → c < n → lo ≤ parent c → ¬ lt (nth xs c) (nth xs (parent c))

/-- A heap: no child is less than its parent. -/
def IsHeap (xs : List α) : Prop := Ordered lt 0 xs.length xs

/-- What `down` at `i` needs: the pairs whose parent is not `i` are in
order, and the children of `i` are not less than the parent of `i`. -/
structure DownOrder (lo n : Nat) (xs : List α) (i : Nat) : Prop where
  lo_le : lo ≤ i
  except : ∀ c, 0 < c → c < n → lo ≤ parent c → parent c ≠ i → ¬ lt (nth xs c) (nth xs (parent c))
  grand : 0 < i → lo ≤ parent i → ∀ c, 0 < c → c < n → parent c = i → ¬ lt (nth xs c) (nth xs (parent i))

/-- What `up` at `j` needs: the pairs whose child is not `j` are in order,
and the children of `j` are not less than the parent of `j`. -/
structure UpOrder (n : Nat) (xs : List α) (j : Nat) : Prop where
  except : ∀ c, 0 < c → c < n → c ≠ j → ¬ lt (nth xs c) (nth xs (parent c))
  grand : 0 < j → ∀ c, 0 < c → c < n → parent c = j → ¬ lt (nth xs c) (nth xs (parent j))

/-- A heap whose element at `i` was replaced: the pairs that do not touch `i`
are in order, and the children of `i` are not less than the parent of `i`. -/
structure Hole (n : Nat) (xs : List α) (i : Nat) : Prop where
  except : ∀ c, 0 < c → c < n → c ≠ i → parent c ≠ i → ¬ lt (nth xs c) (nth xs (parent c))
  grand : 0 < i → ∀ c, 0 < c → c < n → parent c = i → ¬ lt (nth xs c) (nth xs (parent i))

/-- `down` stops at a leaf. -/
theorem DownOrder.ordered_of_leaf {lo n : Nat} {xs : List α} {i : Nat} (o : DownOrder lt lo n xs i)
    (h : n ≤ 2 * i + 1) : Ordered lt lo n xs := by
  intro c hc0 hcn hlo
  by_cases hpi : parent c = i
  · rcases child_cases hc0 hpi with rfl | rfl <;> omega
  · exact o.except c hc0 hcn hlo hpi

/-- `up` stops at the root or below a parent that is not greater. -/
theorem UpOrder.ordered_of_stop {n : Nat} {xs : List α} {j : Nat} (o : UpOrder lt n xs j)
    (hstop : j = 0 ∨ ¬ lt (nth xs j) (nth xs (parent j))) : Ordered lt 0 n xs := by
  intro c hc0 hcn _
  by_cases hcj : c = j
  · subst hcj
    exact hstop.resolve_left (by omega)
  · exact o.except c hc0 hcn hcj

/-- Without its last element, a list in order below its last position is a heap. -/
theorem IsHeap.dropLast {ys : List α} (h : Ordered lt 0 (ys.length - 1) ys) : IsHeap lt ys.dropLast := by
  intro c hc0 hcn _
  rw [List.length_dropLast] at hcn
  rw [nth_dropLast hcn, nth_dropLast (by have := parent_lt hc0; omega)]
  exact h c hc0 hcn (Nat.zero_le _)

theorem IsHeap.ordered {xs : List α} (h : IsHeap lt xs) {n : Nat} (hn : n ≤ xs.length) : Ordered lt 0 n xs :=
  fun c hc0 hcn hlo => h c hc0 (by omega) hlo

end Predicates

section Order

variable (lt : α → α → Prop) [DecidableRel lt] [IsStrictWeakOrder α lt]

/-- Every child of `i` below `n` is not less than the child `down` picks. -/
theorem minChild_min (xs : List α) {n i c : Nat} (hc : 0 < c) (hcn : c < n) (hp : parent c = i) :
    ¬ lt (nth xs c) (nth xs (minChild lt n xs i)) := by
  rcases child_cases hc hp with rfl | rfl
  · unfold minChild
    split
    · next h => exact not_lt_of_lt lt (of_decide_eq_true h.2)
    · exact Std.Irrefl.irrefl _
  · unfold minChild
    split
    · exact Std.Irrefl.irrefl _
    · next h => exact fun hlt => h ⟨hcn, decide_eq_true hlt⟩

omit [DecidableRel lt] in
/-- The root of a heap is not greater than any element.

Up the path to the root. -/
theorem IsHeap.root_min {xs : List α} (h : IsHeap lt xs) {k : Nat} (hk : k < xs.length) :
    ¬ lt (nth xs k) (nth xs 0) := by
  induction k using Nat.strongRecOn with
  | ind k ih =>
      by_cases hk0 : k = 0
      · subst hk0
        exact Std.Irrefl.irrefl _
      · have hp := parent_lt (Nat.pos_of_ne_zero hk0)
        exact not_lt_trans lt (h k (by omega) hk (Nat.zero_le _)) (ih _ hp (by omega))

omit [DecidableRel lt] in
/-- No element of a heap comes before its root. -/
theorem IsHeap.not_lt_head {r x : α} {xs : List α} (h : IsHeap lt (r :: xs)) (hx : x ∈ r :: xs) :
    ¬ lt x r := by
  obtain ⟨k, hk, rfl⟩ := List.getElem_of_mem hx
  have hmin := h.root_min lt hk
  rw [nth_eq_getElem hk] at hmin
  exact hmin

/-! ### `down` -/

/-- One swap of `down`: the element moves to the child it is swapped with.

The edge above `i`: the child moved up into it. The edge between `i` and
`j`, now the other way round. The other child of `i`. The children of `j`
against `j`'s old element, now at `i`. -/
theorem DownOrder.swap_child {lo n : Nat} {xs : List α} {i : Nat} (o : DownOrder lt lo n xs i)
    (hn : n ≤ xs.length) (hc : 2 * i + 1 < n) (hless : lt (nth xs (minChild lt n xs i)) (nth xs i)) :
    DownOrder lt lo n (swap xs i (minChild lt n xs i)) (minChild lt n xs i) := by
  have hij := lt_minChild lt n xs i
  have hjn := minChild_lt lt xs hc
  have hpj := parent_minChild lt n xs i
  have hmin : ∀ c, 0 < c → c < n → parent c = i → ¬ lt (nth xs c) (nth xs (minChild lt n xs i)) :=
    fun c h0 hcn hp => minChild_min lt xs h0 hcn hp
  generalize minChild lt n xs i = j at hij hjn hpj hmin hless ⊢
  have hi : i < xs.length := by omega
  have hj : j < xs.length := by omega
  refine ⟨by have := o.lo_le; omega, ?_, ?_⟩
  · intro c hc0 hcn hlo hpc
    by_cases hci : c = i
    · subst hci
      have hpc' := parent_lt hc0
      rw [nth_swap_left hi hj, nth_swap_of_ne hi hj (by omega) (by omega)]
      exact o.grand hc0 hlo j (by omega) hjn hpj
    · by_cases hcj : c = j
      · subst hcj
        rw [hpj, nth_swap_right hi hj, nth_swap_left hi hj]
        exact not_lt_of_lt lt hless
      · by_cases hpi : parent c = i
        · rw [hpi, nth_swap_left hi hj, nth_swap_of_ne hi hj hci hcj]
          exact hmin c hc0 hcn hpi
        · rw [nth_swap_of_ne hi hj hci hcj, nth_swap_of_ne hi hj hpi hpc]
          exact o.except c hc0 hcn hlo hpi
  · intro _ _ d hd0 hdn hpd
    have hjd := parent_lt hd0
    rw [hpj, nth_swap_left hi hj, nth_swap_of_ne hi hj (by omega) (by omega)]
    have := o.except d hd0 hdn (by have := o.lo_le; omega) (by omega)
    rwa [hpd] at this

/-- `down` stops where the child it compares with is not less. -/
theorem DownOrder.ordered_of_stop {lo n : Nat} {xs : List α} {i : Nat} (o : DownOrder lt lo n xs i)
    (hstop : ¬ lt (nth xs (minChild lt n xs i)) (nth xs i)) : Ordered lt lo n xs := by
  intro c hc0 hcn hlo
  by_cases hpi : parent c = i
  · rw [hpi]
    exact not_lt_trans lt (minChild_min lt xs hc0 hcn hpi) hstop
  · exact o.except c hc0 hcn hlo hpi

/-- The loop of `down` ends in order. -/
theorem downLoop_ordered {lo n : Nat} {xs : List α} {i : Nat} (hn : n ≤ xs.length) (o : DownOrder lt lo n xs i) :
    Ordered lt lo n (downLoop lt n xs i).1 := by
  induction xs, i using downLoop.induct lt n with
  | case1 xs i h =>
      rw [downLoop, dif_pos h]
      exact o.ordered_of_leaf lt h
  | case2 xs i h hstop =>
      rw [downLoop, dif_neg h, if_pos hstop]
      exact o.ordered_of_stop lt (by simpa [less_eq_false_iff] using hstop)
  | case3 xs i h hstop ih =>
      have hless : lt (nth xs (minChild lt n xs i)) (nth xs i) := by simpa [less_eq_true_iff] using hstop
      rw [downLoop, dif_neg h, if_neg hstop]
      exact ih (by rw [length_swap]; exact hn) (o.swap_child lt hn (Nat.lt_of_not_le h) hless)

/-! ### `up` -/

omit [DecidableRel lt] in
/-- One swap of `up`: the element moves to its parent.

The edge between `p` and `j`, now the other way round. A child of `j`
against `p`'s old element, now at `j`. The other child of `p` against the
element that moved up. The children of `p` against the parent of `p`. -/
theorem UpOrder.swap_parent {n : Nat} {xs : List α} {j : Nat} (o : UpOrder lt n xs j) (hn : n ≤ xs.length)
    (hj0 : 0 < j) (hjn : j < n) (hless : lt (nth xs j) (nth xs (parent j))) :
    UpOrder lt n (swap xs (parent j) j) (parent j) := by
  have hpj := parent_lt hj0
  generalize hp : parent j = p at hpj hless ⊢
  have hp' : p < xs.length := by omega
  have hj : j < xs.length := by omega
  refine ⟨?_, ?_⟩
  · intro c hc0 hcn hcp
    by_cases hcj : c = j
    · subst hcj
      rw [hp, nth_swap_right hp' hj, nth_swap_left hp' hj]
      exact not_lt_of_lt lt hless
    · by_cases hpc : parent c = j
      · have := parent_lt hc0
        rw [hpc, nth_swap_right hp' hj, nth_swap_of_ne hp' hj hcp hcj]
        have h := o.grand hj0 c hc0 hcn hpc
        rwa [hp] at h
      · by_cases hpcp : parent c = p
        · rw [hpcp, nth_swap_left hp' hj, nth_swap_of_ne hp' hj hcp hcj]
          have h := o.except c hc0 hcn hcj
          rw [hpcp] at h
          exact fun hcj' => h (IsTrans.trans _ _ _ hcj' hless)
        · rw [nth_swap_of_ne hp' hj hcp hcj, nth_swap_of_ne hp' hj hpcp hpc]
          exact o.except c hc0 hcn hcj
  · intro hp0 c hc0 hcn hpc
    have hpp := parent_lt hp0
    have hpp_ok : ¬ lt (nth xs p) (nth xs (parent p)) := o.except p hp0 (by omega) (by omega)
    rw [nth_swap_of_ne (k := parent p) hp' hj (by omega) (by omega)]
    by_cases hcj : c = j
    · subst hcj
      rw [nth_swap_right hp' hj]
      exact hpp_ok
    · have hcp : c ≠ p := by have := parent_lt hc0; omega
      rw [nth_swap_of_ne hp' hj hcp hcj]
      have h := o.except c hc0 hcn hcj
      rw [hpc] at h
      exact not_lt_trans lt h hpp_ok

theorem up_ordered {n : Nat} {xs : List α} {j : Nat} (hn : n ≤ xs.length) (hjn : j < n) (o : UpOrder lt n xs j) :
    Ordered lt 0 n (up lt xs j) := by
  induction xs, j using up.induct lt with
  | case1 xs j h =>
      rw [up, dif_pos h]
      refine o.ordered_of_stop lt (h.imp parent_eq_self_iff.mp fun hstop => ?_)
      simpa [less_eq_false_iff] using hstop
  | case2 xs j h ih =>
      have hp := parent_lt_of_up lt h
      have hless : lt (nth xs j) (nth xs (parent j)) := by
        simpa [less_eq_true_iff] using (not_or.mp h).2
      rw [up, dif_neg h]
      exact ih (by rw [length_swap]; exact hn) (by omega) (o.swap_parent lt hn (by omega) hjn hless)

omit [DecidableRel lt] in
/-- An ordered prefix is what `up` needs at every position. -/
theorem Ordered.upOrder {n : Nat} {xs : List α} (h : Ordered lt 0 n xs) (j : Nat) : UpOrder lt n xs j where
  except c hc0 hcn _ := h c hc0 hcn (Nat.zero_le _)
  grand hj0 c hc0 hcn hpc := by
    have h₁ := h c hc0 hcn (Nat.zero_le _)
    rw [hpc] at h₁
    exact not_lt_trans lt h₁ (h j hj0 (by have := parent_lt hc0; omega) (Nat.zero_le _))

/-! ### A replaced element: `down`, or else `up` -/

/-- From a hole, `down` either moves the element and ends in order, or
leaves everything as it is and `up` can take over.

The first swap: the element at `i` was not less than the parent of `i`. -/
theorem Hole.down_cases {n : Nat} {xs : List α} {i : Nat} (o : Hole lt n xs i) (hn : n ≤ xs.length) :
    (i < (downLoop lt n xs i).2 ∧ Ordered lt 0 n (downLoop lt n xs i).1) ∨
      (downLoop lt n xs i = (xs, i) ∧ UpOrder lt n xs i) := by
  have hup : (n ≤ 2 * i + 1 ∨ ¬ lt (nth xs (minChild lt n xs i)) (nth xs i)) → UpOrder lt n xs i := by
    intro hstop
    refine ⟨fun c hc0 hcn hci => ?_, o.grand⟩
    by_cases hpi : parent c = i
    · rw [hpi]
      rcases hstop with hleaf | hstop
      · rcases child_cases hc0 hpi with rfl | rfl <;> omega
      · exact not_lt_trans lt (minChild_min lt xs hc0 hcn hpi) hstop
    · exact o.except c hc0 hcn hci hpi
  by_cases h : n ≤ 2 * i + 1
  · exact .inr ⟨by rw [downLoop, dif_pos h], hup (.inl h)⟩
  · by_cases hstop : lt (nth xs (minChild lt n xs i)) (nth xs i)
    · have hj := lt_minChild lt n xs i
      have hjn := minChild_lt lt xs (Nat.lt_of_not_le h)
      have hstep : downLoop lt n xs i =
          downLoop lt n (swap xs i (minChild lt n xs i)) (minChild lt n xs i) := by
        rw [downLoop, dif_neg h, if_neg (by simpa [less_eq_true_iff] using hstop)]
      have o' : DownOrder lt 0 n xs i := by
        refine ⟨Nat.zero_le _, fun c hc0 hcn _ hpc => ?_, fun hi0 _ => o.grand hi0⟩
        by_cases hci : c = i
        · subst hci
          have hg := o.grand hc0 (minChild lt n xs c) (by omega) hjn (parent_minChild lt n xs c)
          exact fun hup' => hg (IsTrans.trans _ _ _ hstop hup')
        · exact o.except c hc0 hcn hci hpc
      refine .inl ⟨?_, downLoop_ordered lt hn o'⟩
      have := le_downLoop lt n (swap xs i (minChild lt n xs i)) (minChild lt n xs i)
      rw [hstep]
      omega
    · exact .inr ⟨by rw [downLoop, dif_neg h, if_pos (by simpa [less_eq_false_iff] using hstop)],
        hup (.inr hstop)⟩

/-! ### The operations -/

omit [DecidableRel lt] in
/-- A heap with the element at `i` swapped to the end, below the end. -/
theorem IsHeap.hole_swap {xs : List α} (h : IsHeap lt xs) {i : Nat} (hi : i < xs.length - 1) :
    Hole lt (xs.length - 1) (swap xs i (xs.length - 1)) i := by
  have hi' : i < xs.length := by omega
  have hn : xs.length - 1 < xs.length := by omega
  constructor
  · intro c hc0 hcn hci hpc
    have := parent_lt hc0
    rw [nth_swap_of_ne hi' hn hci (by omega), nth_swap_of_ne hi' hn hpc (by omega)]
    exact h c hc0 (by omega) (Nat.zero_le _)
  · intro hi0 c hc0 hcn hpc
    have := parent_lt hi0
    have := parent_lt hc0
    rw [nth_swap_of_ne hi' hn (by omega) (by omega), nth_swap_of_ne hi' hn (by omega) (by omega)]
    have h₁ := h c hc0 (by omega) (Nat.zero_le _)
    rw [hpc] at h₁
    exact not_lt_trans lt h₁ (h i hi0 hi' (Nat.zero_le _))

omit [DecidableRel lt] in
/-- A heap with the element at `i` replaced. -/
theorem IsHeap.hole_set {xs : List α} (h : IsHeap lt xs) {i : Nat} (hi : i < xs.length) (a : α) :
    Hole lt (xs.set i a).length (xs.set i a) i := by
  rw [List.length_set]
  constructor
  · intro c hc0 hcn hci hpc
    rw [nth_set xs hi, nth_set xs hi, if_neg hci, if_neg hpc]
    exact h c hc0 hcn (Nat.zero_le _)
  · intro hi0 c hc0 hcn hpc
    have := parent_lt hi0
    have := parent_lt hc0
    rw [nth_set xs hi, nth_set xs hi, if_neg (by omega), if_neg (by omega)]
    have h₁ := h c hc0 hcn (Nat.zero_le _)
    rw [hpc] at h₁
    exact not_lt_trans lt h₁ (h i hi0 hi (Nat.zero_le _))

/-- From a hole, `down` then `up` (`Remove`), and `down` then `up` unless it
moved (`Fix`), both end in order.

`down` moved: the list is in order, and `up` keeps it so. -/
theorem Hole.ordered_up {n : Nat} {xs : List α} {i : Nat} (o : Hole lt n xs i) (hn : n ≤ xs.length) (hi : i < n) :
    Ordered lt 0 n (up lt (downLoop lt n xs i).1 i) ∧
      Ordered lt 0 n (if i < (downLoop lt n xs i).2 then (downLoop lt n xs i).1 else up lt (downLoop lt n xs i).1 i) := by
  rcases o.down_cases lt hn with ⟨hmoved, hord⟩ | ⟨hsame, hup⟩
  · rw [if_pos hmoved]
    exact ⟨up_ordered lt (by rw [length_downLoop]; exact hn) hi (hord.upOrder lt i), hord⟩
  · rw [hsame]
    dsimp only
    rw [if_neg (Nat.lt_irrefl i)]
    exact ⟨up_ordered lt hn hi hup, up_ordered lt hn hi hup⟩

/-- `heap.Fix` after replacing the element at `i` of a heap leaves a heap. -/
theorem Fix_heap {xs : List α} (h : IsHeap lt xs) {i : Nat} (hi : i < xs.length) (a : α) :
    IsHeap lt (Fix lt (xs.set i a) i) ∧ Fix lt (xs.set i a) i ~ xs.set i a := by
  have hi' : i < (xs.set i a).length := by rwa [List.length_set]
  refine ⟨?_, Fix_perm lt hi'⟩
  have hord := ((h.hole_set lt hi a).ordered_up lt (Nat.le_refl _) hi').2
  unfold IsHeap
  rw [(Fix_perm lt hi').length_eq, Fix_eq]
  exact hord

/-- `heap.Push` leaves a heap.

The last position has no children. -/
theorem Push_heap {xs : List α} (h : IsHeap lt xs) (x : α) :
    IsHeap lt (Push lt xs x) ∧ Push lt xs x ~ xs ++ [x] := by
  have hlen : (xs ++ [x]).length = xs.length + 1 := by simp
  refine ⟨?_, up_perm lt (by omega)⟩
  have o : UpOrder lt (xs.length + 1) (xs ++ [x]) xs.length := by
    constructor
    · intro c hc0 hcn hcj
      have := parent_lt hc0
      rw [nth_append_of_lt x (by omega), nth_append_of_lt x (by omega)]
      exact h c hc0 (by omega) (Nat.zero_le _)
    · intro _ c hc0 hcn hpc
      rcases child_cases hc0 hpc with rfl | rfl <;> omega
  unfold IsHeap
  rw [Push, length_up, hlen]
  exact up_ordered lt (by omega) (by omega) o

/-- `heap.Pop` of a heap returns its root and leaves a heap of the rest.

The root swapped to the end, and `down` from the root above it. -/
theorem Pop_heap {xs : List α} (h : IsHeap lt xs) (hne : xs ≠ []) :
    ∃ ys, Pop lt xs = some (nth xs 0, ys) ∧ nth xs 0 :: ys ~ xs ∧ IsHeap lt ys := by
  have hpos := List.length_pos_iff.mpr hne
  have hn : xs.length - 1 < xs.length := by omega
  have h0 : 0 < xs.length := hpos
  have o : DownOrder lt 0 (xs.length - 1) (swap xs 0 (xs.length - 1)) 0 := by
    refine ⟨Nat.le_refl _, fun c hc0 hcn _ hpc => ?_, fun h0' => absurd h0' (Nat.lt_irrefl 0)⟩
    have := parent_lt hc0
    rw [nth_swap_of_ne h0 hn (by omega) (by omega), nth_swap_of_ne h0 hn hpc (by omega)]
    exact h c hc0 (by omega) (Nat.zero_le _)
  have hle : xs.length - 1 ≤ (swap xs 0 (xs.length - 1)).length := by rw [length_swap]; omega
  generalize hr : downLoop lt (xs.length - 1) (swap xs 0 (xs.length - 1)) 0 = r
  have hord := downLoop_ordered lt hle o
  have hperm := downLoop_perm lt hle 0
  have hlast := nth_downLoop_of_le lt hle 0 (Nat.le_refl (xs.length - 1))
  rw [hr] at hord hperm hlast
  rw [nth_swap_right h0 hn] at hlast
  have hrlen : r.1.length = xs.length := by rw [← hr, length_downLoop, length_swap]
  have hrne : r.1 ≠ [] := List.ne_nil_of_length_pos (by omega)
  refine ⟨r.1.dropLast, ?_, ?_, ?_⟩
  · rw [Pop, if_neg hne, down_fst, hr, popLast_eq hrne, hrlen, hlast]
  · have := popLast_perm hrne
    rw [hrlen, hlast] at this
    exact this.trans (hperm.trans (swap_perm h0 hn))
  · exact IsHeap.dropLast lt (by rwa [hrlen])

/-- `heap.Remove` at an index of a heap returns the element there and leaves
a heap of the rest.

The last element: nothing to sift. -/
theorem Remove_heap {xs : List α} (h : IsHeap lt xs) {i : Nat} (hi : i < xs.length) :
    ∃ ys, Remove lt xs i = some (nth xs i, ys) ∧ nth xs i :: ys ~ xs ∧ IsHeap lt ys := by
  have hne : xs ≠ [] := List.ne_nil_of_length_pos (by omega)
  by_cases hlast : xs.length - 1 = i
  · refine ⟨xs.dropLast, ?_, ?_, ?_⟩
    · rw [Remove, if_neg (by omega), if_neg (fun h => h hlast), popLast_eq hne, hlast]
    · rw [← hlast]
      exact popLast_perm hne
    · exact IsHeap.dropLast lt (h.ordered lt (by omega))
  · have hi' : i < xs.length - 1 := by omega
    have hn : xs.length - 1 < xs.length := by omega
    have hle : xs.length - 1 ≤ (swap xs i (xs.length - 1)).length := by rw [length_swap]; omega
    have hord := ((h.hole_swap lt hi').ordered_up lt hle hi').1
    generalize hs : up lt (downLoop lt (xs.length - 1) (swap xs i (xs.length - 1)) i).1 i = ys at hord
    have hlen : ys.length = xs.length := by rw [← hs, length_up, length_downLoop, length_swap]
    have hlast' : nth ys (xs.length - 1) = nth xs i := by
      rw [← hs, nth_up_of_lt lt (by rw [length_downLoop, length_swap]; omega) hi',
        nth_downLoop_of_le lt hle i (Nat.le_refl _), nth_swap_right (by omega) hn]
    have hperm : ys ~ xs := by
      rw [← hs]
      exact (up_perm lt (by rw [length_downLoop, length_swap]; omega)).trans
        ((downLoop_perm lt hle i).trans (swap_perm (by omega) hn))
    have hyne : ys ≠ [] := List.ne_nil_of_length_pos (by omega)
    refine ⟨ys.dropLast, ?_, ?_, ?_⟩
    · rw [Remove, if_neg (by omega), if_pos hlast, down_fst, hs, popLast_eq hyne, hlen, hlast']
    · have := popLast_perm hyne
      rw [hlen, hlast'] at this
      exact this.trans hperm
    · exact IsHeap.dropLast lt (by rwa [hlen])

/-- `down` at `m - 1, …, 0`; the positions from `m` on hold subheaps. -/
theorem Init_go {n : Nat} (m : Nat) {acc : List α} (hlen : acc.length = n) (h : Ordered lt m n acc) :
    Ordered lt 0 n ((List.range m).reverse.foldl (fun acc i => (down lt acc i n).1) acc) ∧
      (List.range m).reverse.foldl (fun acc i => (down lt acc i n).1) acc ~ acc := by
  induction m generalizing acc with
  | zero => exact ⟨h, List.Perm.refl _⟩
  | succ m ih =>
      rw [List.range_succ, List.reverse_append, List.reverse_singleton, List.singleton_append, List.foldl_cons]
      have o : DownOrder lt m n acc m := by
        refine ⟨Nat.le_refl _, fun c hc0 hcn hlo hpc => h c hc0 hcn (by omega), fun hm0 hmp => ?_⟩
        have := parent_lt hm0
        omega
      have hstep := downLoop_ordered lt (Nat.le_of_eq hlen.symm) o
      obtain ⟨hord, hperm⟩ := ih (by simp only [length_downLoop, hlen]) hstep
      exact ⟨hord, hperm.trans (downLoop_perm lt (Nat.le_of_eq hlen.symm) m)⟩

/-- `heap.Init` makes a heap of any list. -/
theorem Init_heap (xs : List α) : IsHeap lt (Init lt xs) ∧ Init lt xs ~ xs := by
  have hstart : Ordered lt (xs.length / 2) xs.length xs := by
    intro c hc0 hcn hlo
    unfold parent at hlo
    omega
  obtain ⟨hord, hperm⟩ := Init_go lt (xs.length / 2) rfl hstart
  refine ⟨?_, hperm⟩
  unfold IsHeap
  rw [Init, hperm.length_eq]
  exact hord

end Order

end Lemochain.Heap
