import Mathlib.Order.Lattice

/-!
# Exchange sort

The double loop that, for every `i < j` in turn, swaps `a[i]` and `a[j]`
when `a[i] > a[j]`. The pass of the inner loop for one `i` leaves the least
element of `a[i..]` at `i`; `pass x rest` is that pass on the list
`x :: rest`, returning the element left at `i` and the rest as the pass
leaves it. `sort` runs the passes for `i = 0, 1, …`, with the length of the
list as its fuel. This module names nothing of any program.

## Main results

* `pass_perm`, `pass_le` — a pass permutes the list and puts its least
  element in front.
* `sort_perm`, `sort_sorted` — the result is a permutation of the input,
  sorted; `sort_strict` — strictly, when the input has no duplicates.
-/

namespace Lemochain.ExchangeSort

open scoped List

variable {α : Type} [LinearOrder α]

/-- One pass of the inner loop over `rest`, `x` being the element at `i`:
where `x > y` the two are swapped, so `x` stays in `y`'s place and `y` goes
on. -/
def pass (x : α) : List α → α × List α
  | [] => (x, [])
  | y :: ys =>
      if y < x then ((pass y ys).1, x :: (pass y ys).2)
      else ((pass x ys).1, y :: (pass x ys).2)

theorem pass_cons (x y : α) (ys : List α) :
    pass x (y :: ys) = if y < x then ((pass y ys).1, x :: (pass y ys).2) else ((pass x ys).1, y :: (pass x ys).2) :=
  rfl

/-- The outer loop, a pass at each position. -/
def sortFuel : Nat → List α → List α
  | 0, l => l
  | _ + 1, [] => []
  | n + 1, x :: xs => (pass x xs).1 :: sortFuel n (pass x xs).2

/-- The exchange sort of a list. -/
def sort (l : List α) : List α := sortFuel l.length l

@[simp] theorem pass_length (x : α) (l : List α) : (pass x l).2.length = l.length := by
  induction l generalizing x with
  | nil => rfl
  | cons y ys ih =>
      rw [pass_cons]
      split_ifs <;> simp [ih]

/-- `y` goes on: the pass of `y` over `ys`, with `x` kept in front. -/
theorem pass_perm (x : α) (l : List α) : List.Perm ((pass x l).1 :: (pass x l).2) (x :: l) := by
  induction l generalizing x with
  | nil => exact List.Perm.refl _
  | cons y ys ih =>
      rw [pass_cons]
      split_ifs
      · calc (pass y ys).1 :: x :: (pass y ys).2 ~ x :: (pass y ys).1 :: (pass y ys).2 :=
              List.Perm.swap _ _ _
          _ ~ x :: y :: ys := (ih y).cons x
      · calc (pass x ys).1 :: y :: (pass x ys).2 ~ y :: (pass x ys).1 :: (pass x ys).2 :=
              List.Perm.swap _ _ _
          _ ~ y :: x :: ys := (ih x).cons y
          _ ~ x :: y :: ys := List.Perm.swap _ _ _

/-- The element a pass leaves in front is below every element of the list. -/
theorem pass_le (x : α) (l : List α) : ∀ z ∈ x :: l, (pass x l).1 ≤ z := by
  induction l generalizing x with
  | nil =>
      intro z hz
      rw [List.mem_singleton.mp hz]
      exact le_refl _
  | cons y ys ih =>
      intro z hz
      rw [pass_cons]
      split_ifs with hyx
      · rcases List.mem_cons.mp hz with rfl | hz
        · exact le_trans (ih y y List.mem_cons_self) (le_of_lt hyx)
        · exact ih y z hz
      · rcases List.mem_cons.mp hz with rfl | hz
        · exact ih z z List.mem_cons_self
        · rcases List.mem_cons.mp hz with rfl | hz
          · exact le_trans (ih x x List.mem_cons_self) (not_lt.mp hyx)
          · exact ih x z (List.mem_cons_of_mem x hz)

theorem sortFuel_perm : ∀ (n : Nat) (l : List α), l.length ≤ n → List.Perm (sortFuel n l) l
  | 0, l, _ => List.Perm.refl l
  | _ + 1, [], _ => List.Perm.refl []
  | n + 1, x :: xs, h => by
      have hlen : (pass x xs).2.length ≤ n := by
        rw [pass_length]
        simp only [List.length_cons] at h
        omega
      exact ((sortFuel_perm n _ hlen).cons _).trans (pass_perm x xs)

/-- `z` is an element of the rest, so of `x :: xs`. -/
theorem sortFuel_sorted : ∀ (n : Nat) (l : List α), l.length ≤ n → (sortFuel n l).Pairwise (· ≤ ·)
  | 0, [], _ => List.Pairwise.nil
  | _ + 1, [], _ => List.Pairwise.nil
  | n + 1, x :: xs, h => by
      have hlen : (pass x xs).2.length ≤ n := by
        rw [pass_length]
        simp only [List.length_cons] at h
        omega
      refine List.Pairwise.cons (fun z hz => ?_) (sortFuel_sorted n _ hlen)
      have hz' : z ∈ x :: xs :=
        (pass_perm x xs).subset (List.mem_cons_of_mem _ ((sortFuel_perm n _ hlen).subset hz))
      exact pass_le x xs z hz'

theorem sort_perm (l : List α) : List.Perm (sort l) l := sortFuel_perm _ l (Nat.le_refl _)

theorem sort_sorted (l : List α) : (sort l).Pairwise (· ≤ ·) := sortFuel_sorted _ l (Nat.le_refl _)

/-- Without duplicates the result is strictly ascending. -/
theorem sort_strict {l : List α} (h : l.Nodup) : (sort l).Pairwise (· < ·) := by
  have hnd : (sort l).Nodup := (sort_perm l).nodup_iff.mpr h
  exact ((sort_sorted l).and hnd).imp fun ⟨hle, hne⟩ => lt_of_le_of_ne hle hne

end Lemochain.ExchangeSort
