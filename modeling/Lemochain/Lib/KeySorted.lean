import Mathlib.Data.List.Basic
import Mathlib.Order.Lattice

/-!
# Lists sorted strictly by a key

A list whose keys strictly increase is determined by its elements: two such
lists that are permutations of each other are equal (`eq_of_perm`). So a
container that keeps its elements in any order, one element per key, has
one sorted view, and every operation on the container is described by what
it does to that view: a filter, a prefix, a suffix.

`countUp n l` is the longest prefix of `l` whose natural keys count up by
one from `n`: the run of consecutive keys a queue can hand out from `n`.

## Main results

* `sort_eq_of_perm`: a strictly sorted permutation of `l` is `sort key l`.
* `sort_filter`: sorting commutes with filtering.
* `Sorted.filter_lt_append`: in a sorted list the elements below a bound
  come first.
* `isChain_countUp`, `countUp_maximal`: the run is consecutive, and no
  longer prefix is.
-/

namespace Lemochain.KeySorted

open scoped List

variable {α : Type}

section Order

variable {κ : Type} [LinearOrder κ] (key : α → κ)

/-- The keys strictly increase along the list. -/
def Sorted (l : List α) : Prop := l.Pairwise fun a b => key a < key b

/-- Sorting by the key, as a merge sort. -/
def sort (l : List α) : List α := l.mergeSort fun a b => decide (key a ≤ key b)

variable {key}

theorem sort_perm (l : List α) : sort key l ~ l := List.mergeSort_perm _ _

theorem Sorted.nodup_keys {l : List α} (h : Sorted key l) : (l.map key).Nodup :=
  List.pairwise_map.mpr (h.imp ne_of_lt)

theorem Sorted.sublist {l₁ l₂ : List α} (h : Sorted key l₂) (hs : l₁.Sublist l₂) : Sorted key l₁ :=
  List.Pairwise.sublist hs h

theorem Sorted.filter {l : List α} (h : Sorted key l) (p : α → Bool) : Sorted key (l.filter p) :=
  h.sublist (List.filter_sublist)

theorem Sorted.take {l : List α} (h : Sorted key l) (n : Nat) : Sorted key (l.take n) :=
  h.sublist (List.take_sublist _ _)

theorem Sorted.drop {l : List α} (h : Sorted key l) (n : Nat) : Sorted key (l.drop n) :=
  h.sublist (List.drop_sublist _ _)

/-- The head has the least key. -/
theorem Sorted.head_lt {a : α} {l : List α} (h : Sorted key (a :: l)) : ∀ b ∈ l, key a < key b :=
  (List.pairwise_cons.mp h).1

theorem Sorted.tail {a : α} {l : List α} (h : Sorted key (a :: l)) : Sorted key l :=
  (List.pairwise_cons.mp h).2

/-- On distinct keys the merge sort sorts strictly. -/
theorem sorted_sort {l : List α} (h : (l.map key).Nodup) : Sorted key (sort key l) := by
  have hle : (sort key l).Pairwise fun a b => decide (key a ≤ key b) = true :=
    List.pairwise_mergeSort (fun a b c hab hbc => by simp only [decide_eq_true_eq] at *; exact le_trans hab hbc)
      (fun a b => by simpa using le_total (key a) (key b)) l
  have hne : (sort key l).Pairwise fun a b => key a ≠ key b :=
    List.pairwise_map.mp (((sort_perm l).map key).nodup_iff.mpr h)
  exact (hle.and hne).imp fun hab => lt_of_le_of_ne (by simpa using hab.1) hab.2

/-- Strictly sorted permutations are equal. -/
theorem eq_of_perm {l₁ l₂ : List α} (h₁ : Sorted key l₁) (h₂ : Sorted key l₂) (hp : l₁ ~ l₂) : l₁ = l₂ :=
  hp.eq_of_pairwise (fun _ _ _ _ hab hba => absurd (lt_trans hab hba) (lt_irrefl _)) h₁ h₂

/-- A strictly sorted permutation of `l` is its sort. -/
theorem sort_eq_of_perm {l l' : List α} (hs : Sorted key l') (hp : l' ~ l) : sort key l = l' := by
  have hnd : (l.map key).Nodup := (hp.map key).nodup_iff.mp hs.nodup_keys
  exact eq_of_perm (sorted_sort hnd) hs ((sort_perm l).trans hp.symm)

/-- Sorting commutes with filtering. -/
theorem sort_filter {l : List α} (h : (l.map key).Nodup) (p : α → Bool) :
    sort key (l.filter p) = (sort key l).filter p :=
  sort_eq_of_perm ((sorted_sort h).filter p) ((sort_perm l).filter p)

/-- In a sorted list the elements below a bound come first.

Every later key is above the head, so above the bound. -/
theorem Sorted.filter_lt_append {l : List α} (h : Sorted key l) (t : κ) :
    l.filter (fun a => decide (key a < t)) ++ l.filter (fun a => !decide (key a < t)) = l := by
  induction l with
  | nil => rfl
  | cons a l ih =>
      by_cases ha : key a < t
      · rw [List.filter_cons_of_pos (by simpa using ha), List.filter_cons_of_neg (by simpa using ha),
          List.cons_append, ih h.tail]
      · have hrest : ∀ b ∈ l, ¬ key b < t := fun b hb hbt => ha (lt_trans (h.head_lt b hb) hbt)
        rw [List.filter_cons_of_neg (by simpa using ha),
          List.filter_eq_nil_iff.mpr (fun b hb => by simpa using hrest b hb),
          List.nil_append, List.filter_eq_self.mpr]
        intro b hb
        rcases List.mem_cons.mp hb with rfl | hb
        · simpa using ha
        · simpa using hrest b hb

theorem Sorted.drop_filter_lt {l : List α} (h : Sorted key l) (t : κ) :
    l.drop (l.filter fun a => decide (key a < t)).length = l.filter fun a => !decide (key a < t) := by
  have happ := h.filter_lt_append t
  calc l.drop (l.filter fun a => decide (key a < t)).length
      = ((l.filter fun a => decide (key a < t)) ++ l.filter fun a => !decide (key a < t)).drop
          (l.filter fun a => decide (key a < t)).length := by rw [happ]
    _ = l.filter fun a => !decide (key a < t) := List.drop_left

/-- Dropping the key of the last element of a sorted list leaves the rest. -/
theorem Sorted.filter_ne_last {l : List α} {a : α} (h : Sorted key (l ++ [a])) :
    (l ++ [a]).filter (fun b => decide (key b ≠ key a)) = l := by
  have hlt : ∀ b ∈ l, key b < key a := fun b hb =>
    (List.pairwise_append.mp h).2.2 b hb a List.mem_cons_self
  rw [List.filter_append, List.filter_singleton, decide_eq_false (not_not.mpr rfl), cond_false, List.append_nil]
  exact List.filter_eq_self.mpr fun b hb => by simpa using ne_of_lt (hlt b hb)

end Order

section CountUp

variable (key : α → Nat)

/-- The longest prefix whose keys count up by one from `n`. -/
def countUp (n : Nat) : List α → List α
  | [] => []
  | a :: l => if key a = n then a :: countUp (n + 1) l else []

variable {key}

@[simp] theorem countUp_nil (n : Nat) : countUp key n [] = [] := rfl

theorem countUp_cons (a : α) (l : List α) (n : Nat) :
    countUp key n (a :: l) = if key a = n then a :: countUp key (n + 1) l else [] :=
  rfl

theorem countUp_cons_eq {a : α} {l : List α} {n : Nat} (h : key a = n) :
    countUp key n (a :: l) = a :: countUp key (n + 1) l := by
  rw [countUp_cons, if_pos h]

theorem countUp_cons_ne {a : α} {l : List α} {n : Nat} (h : key a ≠ n) : countUp key n (a :: l) = [] := by
  rw [countUp_cons, if_neg h]

/-- The run counts up by one.

The next key, if any, is `n + 1`. -/
theorem isChain_countUp (n : Nat) (l : List α) :
    (countUp key n l).IsChain fun a b => key b = key a + 1 := by
  induction l generalizing n with
  | nil => exact List.IsChain.nil
  | cons a l ih =>
      by_cases ha : key a = n
      · rw [countUp_cons_eq ha]
        cases hl : countUp key (n + 1) l with
        | nil => exact List.IsChain.singleton a
        | cons b r =>
            have hb : key b = n + 1 := by
              cases l with
              | nil => cases hl
              | cons c l =>
                  by_cases hc : key c = n + 1
                  · rw [countUp_cons_eq hc] at hl
                    rw [← (List.cons.inj hl).1, hc]
                  · rw [countUp_cons_ne hc] at hl
                    cases hl
            have := ih (n + 1)
            rw [hl] at this
            exact List.IsChain.cons_cons (by rw [hb, ha]) this
      · rw [countUp_cons_ne ha]
        exact List.IsChain.nil

/-- The run stops at the first key that does not follow. -/
theorem countUp_maximal (n : Nat) (l : List α) (b : α)
    (hb : (l.drop (countUp key n l).length).head? = some b) : key b ≠ n + (countUp key n l).length := by
  induction l generalizing n with
  | nil => cases hb
  | cons a l ih =>
      by_cases ha : key a = n
      · rw [countUp_cons_eq ha, List.length_cons, List.drop_succ_cons] at hb
        rw [countUp_cons_eq ha, List.length_cons]
        have := ih (n + 1) hb
        omega
      · rw [countUp_cons_ne ha, List.length_nil, List.drop_zero] at hb
        rw [countUp_cons_ne ha, List.length_nil, Nat.add_zero]
        cases hb
        exact ha

end CountUp

end Lemochain.KeySorted
