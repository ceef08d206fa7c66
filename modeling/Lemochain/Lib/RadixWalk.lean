import Mathlib.Data.List.Lex
import Lemochain.Lib.Radix

/-!
# Walking a radix tree in order

A pre-order walk of a radix tree that takes the children of a branch in the
order of a list of letters meets exactly the values the tree holds, and
meets them in the lexicographic order of their words when the list has the
letters in increasing order: every value sits in a leaf, so no word met is a
prefix of another. This module names nothing of any implementation.

## Main results

* `Tree.mem_leaves`: the walk meets the values the tree holds.
* `Tree.leaves_pairwise`: it meets them in strictly increasing order.
* `Before`: a word whose extensions all come before those of another; it
  orders the subtrees an explicit-stack walk has still to visit
  (`Tree.lt_of_before`).
-/

namespace Lemochain.Radix

variable {σ β : Type}

/-- `p` and all its extensions come before `q` and all its extensions. -/
def Before [LT σ] (p q : List σ) : Prop := ∀ x y, p ++ x < q ++ y

section Before

variable [LinearOrder σ] {p q : List σ}

theorem Before.of_lt {a b : σ} (h : a < b) (pre : List σ) : Before (pre ++ [a]) (pre ++ [b]) := by
  intro x y
  rw [List.append_assoc, List.append_assoc, List.singleton_append, List.singleton_append]
  exact List.append_left_lt (List.cons_lt_cons_iff.mpr (Or.inl h))

theorem Before.append_left (h : Before p q) (r : List σ) : Before (p ++ r) q := by
  intro x y
  rw [List.append_assoc]
  exact h _ y

theorem Before.append_right (h : Before p q) (r : List σ) : Before p (q ++ r) := by
  intro x y
  rw [List.append_assoc]
  exact h x _

theorem Before.lt (h : Before p q) : p < q := by
  simpa using h [] []

/-- A word below another that it is no prefix of comes, with its extensions,
before it. -/
theorem before_of_lt : ∀ {p q : List σ}, p < q → ¬ p <+: q → ∀ x, p ++ x < q
  | [], _, _, hp, _ => absurd (List.nil_prefix) hp
  | _ :: _, [], h, _, _ => absurd h (List.not_lt_nil _)
  | a :: p, b :: q, h, hp, x => by
      rcases List.cons_lt_cons_iff.mp h with hab | ⟨rfl, hpq⟩
      · exact List.cons_lt_cons_iff.mpr (Or.inl hab)
      · have hp' : ¬ p <+: q := fun h' => hp (List.cons_prefix_cons.mpr ⟨rfl, h'⟩)
        exact List.cons_lt_cons_iff.mpr (Or.inr ⟨rfl, before_of_lt hpq hp' x⟩)

/-- An extension of a word that is not below `k` is not below `k`. -/
theorem not_lt_append {p k : List σ} (h : ¬ p < k) (x : List σ) : ¬ p ++ x < k := fun hx =>
  have hle : p ≤ p ++ x := not_lt.mp (List.prefix_append p x).le
  h (lt_of_le_of_lt hle hx)

end Before

namespace Tree

/-- The words and values of the tree from the word `pre` on, in a pre-order
walk that takes the children of a branch in the order of `letters`. -/
def leaves (letters : List σ) : Tree σ β → List σ → List (List σ × β)
  | nil, _ => []
  | leaf v, pre => [(pre, v)]
  | short k c, pre => c.leaves letters (pre ++ k)
  | branch cs, pre => letters.flatMap fun a => (cs a).leaves letters (pre ++ [a])

theorem leaves_nil (letters : List σ) (pre : List σ) : (nil : Tree σ β).leaves letters pre = [] := rfl

theorem leaves_leaf (letters : List σ) (v : β) (pre : List σ) : (leaf v).leaves letters pre = [(pre, v)] := rfl

theorem leaves_short (letters : List σ) (k : List σ) (c : Tree σ β) (pre : List σ) :
    (short k c).leaves letters pre = c.leaves letters (pre ++ k) := rfl

theorem leaves_branch (letters : List σ) (cs : σ → Tree σ β) (pre : List σ) :
    (branch cs).leaves letters pre = letters.flatMap fun a => (cs a).leaves letters (pre ++ [a]) := rfl

/-- Whether the tree is empty. -/
def isNil : Tree σ β → Bool
  | nil => true
  | _ => false

@[simp] theorem isNil_eq_true {T : Tree σ β} : T.isNil = true ↔ T = nil := by
  cases T <;> simp [isNil]

/-- The nodes of the tree, an empty child of a branch counted as one: a
bound on the steps of a walk. -/
def size (letters : List σ) : Tree σ β → Nat
  | nil => 1
  | leaf _ => 1
  | short _ c => c.size letters + 1
  | branch cs => (letters.map fun a => (cs a).size letters).sum + 1

variable (letters : List σ)

/-- Every word met below `pre` extends `pre`. -/
theorem prefix_of_mem_leaves :
    ∀ (T : Tree σ β) (pre : List σ) {e : List σ × β}, e ∈ T.leaves letters pre → pre <+: e.1
  | nil, _, _, he => by simp [leaves_nil] at he
  | leaf v, pre, e, he => by
      simp only [leaves_leaf, List.mem_singleton] at he
      subst he
      exact List.prefix_refl _
  | short k c, pre, e, he => (List.prefix_append pre k).trans (prefix_of_mem_leaves c (pre ++ k) he)
  | branch cs, pre, e, he => by
      obtain ⟨a, -, ha⟩ := List.mem_flatMap.mp he
      exact (List.prefix_append pre [a]).trans (prefix_of_mem_leaves (cs a) (pre ++ [a]) ha)

theorem lt_of_before [LinearOrder σ] {p q : List σ} (h : Before p q) {T U : Tree σ β}
    {e e' : List σ × β} (he : e ∈ T.leaves letters p) (he' : e' ∈ U.leaves letters q) : e.1 < e'.1 := by
  obtain ⟨x, hx⟩ := prefix_of_mem_leaves letters T p he
  obtain ⟨y, hy⟩ := prefix_of_mem_leaves letters U q he'
  rw [← hx, ← hy]
  exact h x y

/-- The walk meets exactly the values the tree holds. -/
theorem mem_leaves [DecidableEq σ] {letters : List σ} (hall : ∀ a, a ∈ letters) :
    ∀ (T : Tree σ β) (pre key : List σ) (v : β),
      (key, v) ∈ T.leaves letters pre ↔ ∃ rest, key = pre ++ rest ∧ T.lookup rest = some v
  | nil, pre, key, v => by simp [leaves_nil]
  | leaf w, pre, key, v => by
      constructor
      · intro h
        simp only [leaves_leaf, List.mem_singleton, Prod.mk.injEq] at h
        exact ⟨[], by simp [h.1], by simp [h.2]⟩
      · rintro ⟨rest, rfl, hv⟩
        cases rest with
        | nil => simp_all [leaves_leaf]
        | cons a rest => simp at hv
  | short k c, pre, key, v => by
      rw [leaves_short, mem_leaves hall c (pre ++ k)]
      constructor
      · rintro ⟨rest, rfl, hv⟩
        exact ⟨k ++ rest, by simp, by simpa using hv⟩
      · rintro ⟨rest, rfl, hv⟩
        rw [lookup_short] at hv
        cases hs : stripPrefix k rest with
        | none => simp [hs] at hv
        | some r =>
            rw [hs] at hv
            exact ⟨r, by rw [(stripPrefix_eq_some_iff k rest r).mp hs, List.append_assoc], hv⟩
  | branch cs, pre, key, v => by
      simp only [leaves_branch, List.mem_flatMap]
      constructor
      · rintro ⟨a, -, ha⟩
        obtain ⟨rest, rfl, hv⟩ := (mem_leaves hall (cs a) (pre ++ [a]) key v).mp ha
        exact ⟨a :: rest, by simp, hv⟩
      · rintro ⟨rest, rfl, hv⟩
        cases rest with
        | nil => simp at hv
        | cons a rest =>
            exact ⟨a, hall a, (mem_leaves hall (cs a) (pre ++ [a]) _ v).mpr ⟨rest, by simp, hv⟩⟩

/-- With the letters in increasing order, the walk meets the words in
strictly increasing order. -/
theorem leaves_pairwise [LinearOrder σ] {letters : List σ} (hs : letters.Pairwise (· < ·)) :
    ∀ (T : Tree σ β) (pre : List σ), (T.leaves letters pre).Pairwise fun e e' => e.1 < e'.1
  | nil, _ => List.Pairwise.nil
  | leaf _, _ => List.pairwise_singleton _ _
  | short k c, pre => leaves_pairwise hs c (pre ++ k)
  | branch cs, pre => by
      rw [leaves_branch, List.pairwise_flatMap]
      refine ⟨fun a _ => leaves_pairwise hs (cs a) (pre ++ [a]), hs.imp fun hab e he e' he' => ?_⟩
      exact lt_of_before letters (Before.of_lt hab pre) he he'

end Tree

end Lemochain.Radix
