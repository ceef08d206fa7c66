import Mathlib.Data.Int.ConditionallyCompleteOrder
import Mathlib.Order.Fin.Basic
import Lemochain.Lib.RadixWalk
import Lemochain.Trie.Iterator
import Lemochain.Trie.History

/-!
# The trie iterator walks the map in hex order

A node iterator over a trie that holds the tree `T` (`Holds`) is a
pre-order walk with an explicit stack. Its state is summed up by the list of
subtrees it has still to visit, each with its path: `Frontier` relates the
stack to that list (every state contributes the children after its `index`,
innermost first), and `Pending` adds the fresh iterator, which has the whole
tree to visit, and the finished one, which has nothing. One step of `Next`
visits the first subtree of the list and puts its children in front of the
rest (`Next_spec`); `seek` passes exactly the values whose hex keys are below
its target (`seekLoop_spec`). The values a subtree list still yields, in
order, are `yieldOf`, and the number of its nodes, `pendingWeight`, bounds
the steps left.

The walk takes the children of a full node in the order `0, …, 15, 16`, and
the value of a key sits in child 16, after the subtrees of its extensions:
the order is that of hex keys (`keybytesToHex`), in which a key comes after
the keys it is a prefix of. Likewise a seek to `start` passes only what is
below the nibbles of `start`, so a key that is a prefix of `start` is still
read (`keybytesToHex_lt_iff`).

## Main results

* `Holds.iterate`: from any start, the key-value iterator reads exactly the
  values of `T` whose hex keys are not below the start's nibbles, in the
  order of the walk, and ends with no error.
* `iterator_reads_from_start`: the same for a trie in the cache invariant,
  stated with `Get`, byte order and the root hash of the pairs read.
* `iterator_key_after_extension`: runs where a key is read after its
  extension, and below the start.
-/

namespace Lemochain.Trie

open Lemochain.Radix

/-- The letters of a branch, in the order `nextChild` takes them. -/
abbrev nibbles : List Nibble := List.finRange 17

/-- The non-empty children of a branch from index `i` on, with their paths:
what the loop of `nextChild` goes through. -/
def branchPending (Ts : Fin 17 → Shape) (path : Hex) (i : Nat) : List (Hex × Shape) :=
  if h : i < 17 then
    if (Ts ⟨i, h⟩).isNil then branchPending Ts path (i + 1)
    else (path ++ [⟨i, h⟩], Ts ⟨i, h⟩) :: branchPending Ts path (i + 1)
  else []
termination_by 17 - i

/-- The subtrees below a node standing for `T` that a state with this
`index` has still to visit, with their paths. -/
def pendingOf (T : Shape) (index : Int) (path : Hex) : List (Hex × Shape) :=
  match T with
  | .branch Ts => branchPending Ts path (index + 1).toNat
  | .short k c => if index < 0 then [(path ++ k, c)] else []
  | _ => []

@[simp] theorem pendingOf_nil (index : Int) (path : Hex) : pendingOf .nil index path = [] := rfl

@[simp] theorem pendingOf_leaf (v : Bytes) (index : Int) (path : Hex) : pendingOf (.leaf v) index path = [] := rfl

@[simp] theorem pendingOf_short (k : Hex) (c : Shape) (index : Int) (path : Hex) :
    pendingOf (.short k c) index path = if index < 0 then [(path ++ k, c)] else [] :=
  rfl

@[simp] theorem pendingOf_branch (Ts : Fin 17 → Shape) (index : Int) (path : Hex) :
    pendingOf (.branch Ts) index path = branchPending Ts path (index + 1).toNat :=
  rfl

theorem firstChild_spec {cs : Fin 17 → Node} {Ts : Fin 17 → Shape}
    (hnil : ∀ j, (cs j).isNil = (Ts j).isNil) (path : Hex) (i : Nat) :
    (firstChild cs i = none ∧ branchPending Ts path i = []) ∨
      ∃ j : Fin 17, firstChild cs i = some j ∧ i ≤ j.val ∧ (Ts j).isNil = false ∧
        branchPending Ts path i = (path ++ [j], Ts j) :: branchPending Ts path (j.val + 1) := by
  fun_induction firstChild cs i with
  | case1 i h hn ih =>
      rw [branchPending, dif_pos h, if_pos (by rw [← hnil]; exact hn)]
      rcases ih with ⟨hf, hb⟩ | ⟨j, hf, hj, hTj, hb⟩
      · exact Or.inl ⟨hf, hb⟩
      · exact Or.inr ⟨j, hf, by omega, hTj, hb⟩
  | case2 i h hn =>
      rw [branchPending, dif_pos h, if_neg (by rw [← hnil]; exact hn)]
      exact Or.inr ⟨⟨i, h⟩, rfl, le_refl _, by rw [← hnil]; simpa using hn, rfl⟩
  | case3 i h =>
      rw [branchPending, dif_neg h]
      exact Or.inl ⟨rfl, rfl⟩

section Frontier

variable (P : FlagPred) (resolveHash : Resolver)

/-- The node of a state: loaded, and standing for `T`. -/
def Loaded (n : Node) (T : Shape) : Prop := (∃ top, Expands P resolveHash top n T) ∧ ∀ h, n ≠ .hash h

/-- `Frontier stack path L`: every state of `stack` holds a loaded node and
an `index` from `-1` on, the innermost state's node is at `path` and every
other one at the path its inner neighbour's `pathlen` cuts off, and `L`
lists the subtrees the states have still to visit, innermost first. What a
state has still to visit comes before all its outer states have. -/
inductive Frontier : List IterState → Hex → List (Hex × Shape) → Prop
  | nil (path : Hex) : Frontier [] path []
  | cons {st : IterState} {rest : List IterState} {path : Hex} {T : Shape} {L : List (Hex × Shape)} :
      Loaded P resolveHash st.node T → -1 ≤ st.index → (∀ e ∈ L, Before path e.1) →
      Frontier rest (path.take st.pathlen) L → Frontier (st :: rest) path (pendingOf T st.index path ++ L)

/-- What a node iterator over a root standing for `T` has still to visit:
the whole tree before its first step, the frontier of its stack while it
walks, nothing once it has reached the end. -/
inductive Pending (T : Shape) : NodeIterator → List (Hex × Shape) → Prop
  | fresh {it : NodeIterator} : it.stack = [] → it.err = none → Pending T it [([], T)]
  | walking {it : NodeIterator} {L : List (Hex × Shape)} : it.stack ≠ [] →
      Frontier P resolveHash it.stack it.path L → it.err = none → Pending T it L
  | done {it : NodeIterator} : it.err = some .iteratorEnd → Pending T it []

end Frontier

variable {P : FlagPred} {resolveHash : Resolver}

/-- `nextChild` goes through the subtrees a state has still to visit: none
when it has none, else the first, with the parent's `index` just before it.

The parent's index just before `j` finds `j` again. -/
theorem nextChild_spec {st : IterState} {T : Shape} (hl : Loaded P resolveHash st.node T) (hi : -1 ≤ st.index)
    (path : Hex) :
    (pendingOf T st.index path = [] ∧ nextChild st path = none) ∨
      ∃ p Tc tail index n, pendingOf T st.index path = (p, Tc) :: tail ∧
        nextChild st path = some ({ st with index := index }, ⟨n, -1, path.length⟩, p) ∧
        Expands P resolveHash false n Tc ∧ -1 ≤ index ∧ pendingOf T index path = (p, Tc) :: tail ∧
        pendingOf T (index + 1) path = tail := by
  obtain ⟨⟨top, hexp⟩, hnh⟩ := hl
  obtain ⟨node, index, pathlen⟩ := st
  simp only at hexp hnh hi ⊢
  cases node with
  | nil =>
      rw [hexp.nil_inv]
      exact Or.inl ⟨rfl, rfl⟩
  | value v =>
      rw [hexp.value_inv]
      exact Or.inl ⟨rfl, rfl⟩
  | hash h => exact absurd rfl (hnh h)
  | short k c f =>
      obtain ⟨Tc, rfl, -, hc⟩ := hexp.short_inv
      by_cases hneg : index < 0
      · refine Or.inr ⟨path ++ k, Tc, [], index, c, by simp [hneg], by simp [nextChild, hneg], hc, hi,
          by simp [hneg], ?_⟩
        simp [show ¬ index + 1 < 0 by omega]
      · exact Or.inl ⟨by simp [hneg], by simp [nextChild, hneg]⟩
  | full cs f =>
      obtain ⟨Ts, rfl, -, hcs⟩ := hexp.full_inv
      have hnil : ∀ j, (cs j).isNil = (Ts j).isNil := fun j =>
        Bool.eq_iff_iff.mpr (by rw [Node.isNil_eq_true, Tree.isNil_eq_true]; exact (hcs j).eq_nil_iff)
      rcases firstChild_spec hnil path (index + 1).toNat with ⟨hf, hb⟩ | ⟨j, hf, hj, hTj, hb⟩
      · exact Or.inl ⟨hb, by simp [nextChild, hf]⟩
      · refine Or.inr ⟨_, _, _, (j.val : Int) - 1, cs j, hb, by simp [nextChild, hf], hcs j, by omega, ?_, ?_⟩
        · have hj' : ((j.val : Int) - 1 + 1).toNat = j.val := by omega
          simp only [pendingOf_branch, hj']
          rw [branchPending, dif_pos j.isLt, if_neg (Bool.eq_false_iff.mp hTj)]
        · have hj' : ((j.val : Int) - 1 + 1 + 1).toNat = j.val + 1 := by omega
          simp only [pendingOf_branch, hj']

theorem branchPending_mem {Ts : Fin 17 → Shape} {path : Hex} {i : Nat} {e : Hex × Shape}
    (he : e ∈ branchPending Ts path i) :
    ∃ j : Fin 17, i ≤ j.val ∧ (Ts j).isNil = false ∧ e = (path ++ [j], Ts j) := by
  fun_induction branchPending Ts path i with
  | case1 i h hn ih =>
      obtain ⟨j, hj, hnil, rfl⟩ := ih he
      exact ⟨j, by omega, hnil, rfl⟩
  | case2 i h hn ih =>
      rcases List.mem_cons.mp he with rfl | he
      · exact ⟨⟨i, h⟩, le_refl _, Bool.eq_false_iff.mpr hn, rfl⟩
      · obtain ⟨j, hj, hnil, rfl⟩ := ih he
        exact ⟨j, by omega, hnil, rfl⟩
  | case3 => simp at he

theorem branchPending_pairwise (Ts : Fin 17 → Shape) (path : Hex) (i : Nat) :
    (branchPending Ts path i).Pairwise fun a b => Before a.1 b.1 := by
  fun_induction branchPending Ts path i with
  | case1 i h hn ih => exact ih
  | case2 i h hn ih =>
      refine List.pairwise_cons.mpr ⟨fun e he => ?_, ih⟩
      obtain ⟨j, hj, -, rfl⟩ := branchPending_mem he
      exact Before.of_lt (show (⟨i, h⟩ : Fin 17) < j from Fin.mk_lt_of_lt_val (by omega)) path
  | case3 => exact List.Pairwise.nil

/-- The subtrees a state has still to visit lie below its node. -/
theorem pendingOf_extends {T : Shape} {index : Int} {path : Hex} {e : Hex × Shape}
    (he : e ∈ pendingOf T index path) : ∃ x, e.1 = path ++ x := by
  unfold pendingOf at he
  split at he
  · obtain ⟨j, -, -, rfl⟩ := branchPending_mem he
    exact ⟨[j], rfl⟩
  · split_ifs at he
    · rw [List.mem_singleton.mp he]
      exact ⟨_, rfl⟩
    · simp at he
  · simp at he

/-- ... in the order they are visited. -/
theorem pendingOf_pairwise (T : Shape) (index : Int) (path : Hex) :
    (pendingOf T index path).Pairwise fun a b => Before a.1 b.1 := by
  unfold pendingOf
  split
  · exact branchPending_pairwise _ _ _
  · split_ifs
    · exact List.pairwise_singleton _ _
    · exact List.Pairwise.nil
  · exact List.Pairwise.nil

/-- Resolving a child that stands for `T` loads it, keeping its index and
`pathlen`. -/
theorem IterState.resolve_loaded {n : Node} {T : Shape} {top : Bool} (h : Expands P resolveHash top n T)
    (index : Int) (pathlen : Nat) (path : Hex) :
    ∃ node, IterState.resolve resolveHash ⟨n, index, pathlen⟩ path = .ok ⟨node, index, pathlen⟩ ∧
      Loaded P resolveHash node T := by
  obtain ⟨rn, hres, hexp, hnh⟩ := h.resolve path
  refine ⟨rn, ?_, ⟨top, hexp⟩, hnh⟩
  cases n with
  | hash x =>
      simp only [Trie.resolve] at hres
      simp [IterState.resolve, hres, Except.map]
  | _ => all_goals (simp only [Trie.resolve, Except.ok.injEq] at hres; subst hres; rfl)

/-- `peekLoop` from a frontier: the end of the iteration when nothing is
left to visit; otherwise the first subtree left, loaded, with the stack as
the loop leaves it (still the same frontier) and, once the child is pushed,
the frontier with the child's own subtrees in front.

Nothing left below `st`: it is popped. A later sibling. -/
theorem peekLoop_spec {stack : List IterState} {path : Hex} {L : List (Hex × Shape)}
    (h : Frontier P resolveHash stack path L) :
    (L = [] ∧ (peekLoop resolveHash stack path).2.2 = .error .iteratorEnd) ∨
      ∃ p T L' parent rest path' node, L = (p, T) :: L' ∧
        peekLoop resolveHash stack path = (parent :: rest, path', .ok (⟨node, -1, path'.length⟩, p)) ∧
        Loaded P resolveHash node T ∧ Frontier P resolveHash (parent :: rest) path' ((p, T) :: L') ∧
        Frontier P resolveHash (⟨node, -1, path'.length⟩ :: { parent with index := parent.index + 1 } :: rest) p
          (pendingOf T (-1) p ++ L') := by
  induction h with
  | nil path => exact Or.inl ⟨rfl, rfl⟩
  | @cons st rest path T L hl hi hafter hrest ih =>
      rcases nextChild_spec hl hi path with ⟨hpend, hnc⟩ | ⟨p, Tc, tail, index, n, hpend, hnc, hexp, hidx, hpend', htail⟩
      · have hloop : peekLoop resolveHash (st :: rest) path = peekLoop resolveHash rest (path.take st.pathlen) := by
          simp [peekLoop, hnc]
        rw [hpend, List.nil_append, hloop]
        exact ih
      · obtain ⟨node, hres, hnode⟩ := IterState.resolve_loaded hexp (-1) path.length p
        obtain ⟨x, hx⟩ := pendingOf_extends (hpend ▸ List.mem_cons_self : (p, Tc) ∈ pendingOf T st.index path)
        simp only at hx
        refine Or.inr ⟨p, Tc, tail ++ L, { st with index := index }, rest, path, node, by rw [hpend]; rfl,
          by simp [peekLoop, hnc, hres], hnode, ?_, ?_⟩
        · have hparent : Frontier P resolveHash ({ st with index := index } :: rest) path
              (pendingOf T index path ++ L) := Frontier.cons hl hidx hafter hrest
          rwa [hpend'] at hparent
        · have hparent : Frontier P resolveHash ({ st with index := index + 1 } :: rest) path
              (pendingOf T (index + 1) path ++ L) := Frontier.cons hl (show -1 ≤ index + 1 by omega) hafter hrest
          rw [htail] at hparent
          refine Frontier.cons hnode (le_refl _) (fun e he => ?_) (by rwa [hx, List.take_left' rfl])
          rcases List.mem_append.mp he with he | he
          · have hpw := pendingOf_pairwise T index path
            rw [hpend'] at hpw
            exact List.rel_of_pairwise_cons hpw he
          · rw [hx]
            exact (hafter e he).append_left x

/-- The subtrees a frontier lists come one after the other. -/
theorem Frontier.pairwise {stack : List IterState} {path : Hex} {L : List (Hex × Shape)}
    (h : Frontier P resolveHash stack path L) : L.Pairwise fun a b => Before a.1 b.1 := by
  induction h with
  | nil => exact List.Pairwise.nil
  | @cons st rest path T L _ _ hafter _ ih =>
      refine List.pairwise_append.mpr ⟨pendingOf_pairwise T st.index path, ih, fun a ha b hb => ?_⟩
      obtain ⟨x, hx⟩ := pendingOf_extends ha
      rw [hx]
      exact (hafter b hb).append_left x

/-- `peek` on a walking iterator: without `descend` it first drops what the
current node has left, which lies below the current path; then it goes on
as `peekLoop`.

What `peek` hands to its loop. -/
theorem peek_spec (root : Node) {it : NodeIterator} {L : List (Hex × Shape)}
    (h : Frontier P resolveHash it.stack it.path L) (hne : it.stack ≠ []) (descend : Bool) :
    ∃ D Lk, L = D ++ Lk ∧ (descend = true → D = []) ∧ (∀ d ∈ D, it.path <+: d.1) ∧
      ((Lk = [] ∧ ∃ it₁, peek resolveHash root it descend = (it₁, .error .iteratorEnd)) ∨
        ∃ p T L' it₁ node, Lk = (p, T) :: L' ∧
          peek resolveHash root it descend = (it₁, .ok (⟨node, -1, it₁.path.length⟩, true, p)) ∧
          Loaded P resolveHash node T ∧ it₁.err = it.err ∧ it₁.stack ≠ [] ∧
          Frontier P resolveHash it₁.stack it₁.path ((p, T) :: L') ∧
          Frontier P resolveHash (push it₁ ⟨node, -1, it₁.path.length⟩ true p).stack p
            (pendingOf T (-1) p ++ L')) := by
  obtain ⟨stack, path, err⟩ := it
  obtain ⟨top, rest, rfl⟩ : ∃ top rest, stack = top :: rest := List.exists_cons_of_ne_nil hne
  obtain ⟨D, Lk, hL, hD, hpre, hloop⟩ : ∃ D Lk, L = D ++ Lk ∧ (descend = true → D = []) ∧
      (∀ d ∈ D, path <+: d.1) ∧
      Frontier P resolveHash (if descend then top :: rest else rest)
        (if descend then path else path.take top.pathlen) Lk := by
    cases descend with
    | true => exact ⟨[], L, rfl, fun _ => rfl, by simp, h⟩
    | false =>
        cases h with
        | cons hl hi hafter hrest =>
            exact ⟨_, _, rfl, by simp, fun d hd => (pendingOf_extends hd).elim fun x hx => ⟨x, hx.symm⟩,
              hrest⟩
  refine ⟨D, Lk, hL, hD, hpre, ?_⟩
  set r := peekLoop resolveHash (if descend then top :: rest else rest)
    (if descend then path else path.take top.pathlen) with hr
  have hpeek : peek resolveHash root ⟨top :: rest, path, err⟩ descend =
      ({ stack := r.1, path := r.2.1, err := err }, r.2.2.map fun x => (x.1, true, x.2)) := by
    cases descend <;> rfl
  rw [hpeek]
  rcases peekLoop_spec hloop with ⟨hnil, hend⟩ | ⟨p, T, L', parent, rest', path', node, rfl, hres, hl, hf₁, hf₂⟩
  · rw [← hr] at hend
    exact Or.inl ⟨hnil, { stack := r.1, path := r.2.1, err := err }, by simp [hend, Except.map]⟩
  · rw [← hr] at hres
    refine Or.inr ⟨p, T, L', ⟨parent :: rest', path', err⟩, node, rfl, by simp [hres, Except.map], hl, rfl,
      List.cons_ne_nil _ _, hf₁, ?_⟩
    simpa using hf₂

theorem Pending.err_cases {T : Shape} {it : NodeIterator} {L : List (Hex × Shape)}
    (h : Pending P resolveHash T it L) : it.err = none ∨ (it.err = some .iteratorEnd ∧ L = []) := by
  cases h with
  | fresh _ he => exact .inl he
  | walking _ _ he => exact .inl he
  | done he => exact .inr ⟨he, rfl⟩

theorem Pending.pairwise {T : Shape} {it : NodeIterator} {L : List (Hex × Shape)}
    (h : Pending P resolveHash T it L) : L.Pairwise fun a b => Before a.1 b.1 := by
  cases h with
  | fresh => exact List.pairwise_singleton _ _
  | walking _ hf _ => exact hf.pairwise
  | done => exact List.Pairwise.nil

theorem NodeIterator.with_err_none {it : NodeIterator} (h : it.err = none) : { it with err := none } = it := by
  obtain ⟨stack, path, err⟩ := it
  simp only at h
  rw [h]

/-! ## What is left to yield -/

/-- The values below a list of subtrees, with their keys, in the order the
walk meets them. -/
def yieldOf (L : List (Hex × Shape)) : List (Hex × Bytes) := L.flatMap fun e => e.2.leaves nibbles e.1

/-- The nodes of a list of subtrees: a bound on the steps the walk has left. -/
def pendingWeight (L : List (Hex × Shape)) : Nat := (L.map fun e => e.2.size nibbles).sum

@[simp] theorem yieldOf_nil : yieldOf [] = [] := rfl

@[simp] theorem yieldOf_cons (e : Hex × Shape) (L : List (Hex × Shape)) :
    yieldOf (e :: L) = e.2.leaves nibbles e.1 ++ yieldOf L := List.flatMap_cons ..

@[simp] theorem yieldOf_append (L L' : List (Hex × Shape)) : yieldOf (L ++ L') = yieldOf L ++ yieldOf L' :=
  List.flatMap_append ..

@[simp] theorem pendingWeight_nil : pendingWeight [] = 0 := rfl

@[simp] theorem pendingWeight_cons (e : Hex × Shape) (L : List (Hex × Shape)) :
    pendingWeight (e :: L) = e.2.size nibbles + pendingWeight L := by
  simp [pendingWeight]

@[simp] theorem pendingWeight_append (L L' : List (Hex × Shape)) :
    pendingWeight (L ++ L') = pendingWeight L + pendingWeight L' := by
  simp [pendingWeight]

theorem nibbles_drop {i : Nat} (h : i < 17) : nibbles.drop i = ⟨i, h⟩ :: nibbles.drop (i + 1) := by
  rw [List.drop_eq_getElem_cons (by simpa using h), List.getElem_finRange]
  rfl

/-- The children of a branch from index `i` on yield what the walk of the
branch meets from there: an empty child yields nothing. -/
theorem yieldOf_branchPending (Ts : Fin 17 → Shape) (path : Hex) (i : Nat) :
    yieldOf (branchPending Ts path i) =
      (nibbles.drop i).flatMap fun a => (Ts a).leaves nibbles (path ++ [a]) := by
  fun_induction branchPending Ts path i with
  | case1 i h hn ih =>
      rw [ih, nibbles_drop h, List.flatMap_cons, Tree.isNil_eq_true.mp hn]
      rfl
  | case2 i h hn ih => rw [yieldOf_cons, ih, nibbles_drop h, List.flatMap_cons]
  | case3 i h => rw [List.drop_eq_nil_of_le (by simp; omega)]; rfl

theorem pendingWeight_branchPending (Ts : Fin 17 → Shape) (path : Hex) (i : Nat) :
    pendingWeight (branchPending Ts path i) ≤ ((nibbles.drop i).map fun a => (Ts a).size nibbles).sum := by
  fun_induction branchPending Ts path i with
  | case1 i h hn ih =>
      rw [nibbles_drop h, List.map_cons, List.sum_cons]
      omega
  | case2 i h hn ih =>
      rw [pendingWeight_cons, nibbles_drop h, List.map_cons, List.sum_cons]
      simp only
      omega
  | case3 => simp

/-- Visiting a node that is no leaf hands what it yields to its children. -/
theorem yieldOf_pendingOf {T : Shape} (hT : ∀ v, T ≠ .leaf v) (path : Hex) :
    yieldOf (pendingOf T (-1) path) = T.leaves nibbles path := by
  cases T with
  | nil => rfl
  | leaf v => exact absurd rfl (hT v)
  | short k c => simp [Tree.leaves]
  | branch Ts => simp [yieldOf_branchPending, Tree.leaves]

/-- Each visit leaves fewer nodes to visit. -/
theorem pendingWeight_visit (p : Hex) (T : Shape) (L : List (Hex × Shape)) :
    pendingWeight (pendingOf T (-1) p ++ L) < pendingWeight ((p, T) :: L) := by
  have h : pendingWeight (pendingOf T (-1) p) < T.size nibbles := by
    cases T with
    | nil => simp [Tree.size]
    | leaf v => simp [Tree.size]
    | short k c => simp [Tree.size]
    | branch Ts =>
        have hle := pendingWeight_branchPending Ts p 0
        have h0 : ((-1 : Int) + 1).toNat = 0 := rfl
        simp only [pendingOf_branch, Tree.size, List.drop_zero, h0] at hle ⊢
        exact Nat.lt_succ_of_le hle
  simp only [pendingWeight_append, pendingWeight_cons]
  omega

/-- Visiting the first subtree left yields at most its own value, at its
path. -/
theorem yieldOf_visit (p : Hex) (T : Shape) (L : List (Hex × Shape)) :
    ∃ E, yieldOf ((p, T) :: L) = E ++ yieldOf (pendingOf T (-1) p ++ L) ∧ ∀ e ∈ E, e.1 = p := by
  by_cases hleaf : ∃ v, T = .leaf v
  · obtain ⟨v, rfl⟩ := hleaf
    exact ⟨[(p, v)], by simp [Tree.leaves], by simp⟩
  · refine ⟨[], ?_, by simp⟩
    rw [yieldOf_cons, yieldOf_append, yieldOf_pendingOf (fun v h => hleaf ⟨v, h⟩)]
    rfl

/-- What lies below a path that is below `key` but no prefix of it is below
`key`. -/
theorem yieldOf_below {path key : Hex} {D : List (Hex × Shape)} (hlt : path < key) (hnp : ¬ path <+: key)
    (hD : ∀ d ∈ D, path <+: d.1) : ∀ e ∈ yieldOf D, e.1 < key := by
  intro e he
  obtain ⟨d, hd, he⟩ := List.mem_flatMap.mp he
  obtain ⟨x, hx⟩ := (hD d hd).trans (Tree.prefix_of_mem_leaves nibbles d.2 d.1 he)
  rw [← hx]
  exact before_of_lt hlt hnp x

/-- From a path that is not below `key` on, nothing the walk meets is below
`key`.

A later subtree comes after `p`. -/
theorem yieldOf_not_below {p key : Hex} {T : Shape} {L : List (Hex × Shape)}
    (hpw : ((p, T) :: L).Pairwise fun a b => Before a.1 b.1) (hp : ¬ p < key) :
    ∀ e ∈ yieldOf ((p, T) :: L), ¬ e.1 < key := by
  intro e he
  rcases List.mem_append.mp he with he | he
  · obtain ⟨x, hx⟩ := Tree.prefix_of_mem_leaves nibbles T p he
    rw [← hx]
    exact not_lt_append hp x
  · obtain ⟨d, hd, he⟩ := List.mem_flatMap.mp he
    obtain ⟨y, hy⟩ := Tree.prefix_of_mem_leaves nibbles d.2 d.1 he
    have hafter : p < e.1 := by
      rw [← hy]
      simpa using List.rel_of_pairwise_cons hpw hd [] y
    exact fun h => hp (lt_trans hafter h)

/-! ## The subtrees left to visit -/

/-- A subtree the walk has still to visit, at its path: the empty root, or a
canonical subtree of `T` at the path. -/
def EntryOk (T : Shape) (e : Hex × Shape) : Prop :=
  (e.2 = .nil ∧ e.1 = []) ∨
    (e.2.Canonical ∧ ∀ rest v, e.2.lookup rest = some v → T.lookup (e.1 ++ rest) = some v)

theorem EntryOk.root {T : Shape} (h : T.RootCanonical) : EntryOk T ([], T) := by
  rcases h with rfl | h
  · exact .inl ⟨rfl, rfl⟩
  · exact .inr ⟨h, fun rest v hv => by simpa using hv⟩

/-- The children of a subtree left to visit are subtrees of `T` at their paths. -/
theorem EntryOk.children {T T' : Shape} {p : Hex} (h : EntryOk T (p, T')) :
    ∀ e ∈ pendingOf T' (-1) p, EntryOk T e := by
  intro e he
  rcases h with ⟨hnil, -⟩ | ⟨hc, hlook⟩
  · simp only at hnil
    subst hnil
    simp at he
  · cases hc with
    | leaf v => simp at he
    | @short k c hk hc hchild =>
        simp only [pendingOf_short, show (-1 : Int) < 0 by decide, if_true, List.mem_singleton] at he
        subst he
        exact .inr ⟨hc, fun rest v hv => by simpa using hlook (k ++ rest) v (by simpa using hv)⟩
    | @branch cs hcs htwo =>
        obtain ⟨j, -, hj, rfl⟩ := branchPending_mem he
        refine .inr ⟨hcs j (fun h => by simp [h, Tree.isNil] at hj), fun rest v hv => ?_⟩
        simpa using hlook (j :: rest) v hv

theorem EntryOk.visit_entries {T T' : Shape} {p : Hex} {L : List (Hex × Shape)}
    (h : ∀ e ∈ (p, T') :: L, EntryOk T e) : ∀ e ∈ pendingOf T' (-1) p ++ L, EntryOk T e := by
  intro e he
  rcases List.mem_append.mp he with he | he
  · exact (h _ List.mem_cons_self).children e he
  · exact h e (List.mem_cons_of_mem _ he)

/-- A path in front of a non-empty key of value keys ends without the
terminator. -/
theorem hasTerm_eq_false_of_lookup {T : Shape} (hkeys : KeysOk T) {p rest : Hex} {v : Bytes}
    (hv : T.lookup (p ++ rest) = some v) (hrest : rest ≠ []) : hasTerm p = false := by
  rcases (hkeys _ v hv).append_cases with ⟨hall, -⟩ | ⟨-, hnil⟩
  · exact hasTerm_of_nibbles hall
  · exact absurd hnil hrest

/-- The node of a subtree left to visit: a leaf is the value of a byte key
at its path, and any other node sits at a path without the terminator. -/
theorem EntryOk.visit {T T' : Shape} {p : Hex} (h : EntryOk T (p, T')) (hkeys : KeysOk T)
    (hbytes : ByteKeys T) :
    (∃ b v, T' = .leaf v ∧ p = keybytesToHex b) ∨ ((∀ v, T' ≠ .leaf v) ∧ hasTerm p = false) := by
  rcases h with ⟨hnil, hp⟩ | ⟨hc, hlook⟩
  · simp only at hnil hp
    subst hnil hp
    exact .inr ⟨fun v => by simp, rfl⟩
  · cases hc with
    | leaf v =>
        obtain ⟨b, hb⟩ := hbytes p v (by simpa using hlook [] v rfl)
        exact .inl ⟨b, v, rfl, hb⟩
    | @short k c hk hc hchild =>
        obtain ⟨r, v, hv⟩ := hc.exists_lookup
        refine .inr ⟨fun v => by simp, hasTerm_eq_false_of_lookup hkeys (hlook (k ++ r) v (by simpa using hv)) ?_⟩
        simp [hk]
    | @branch cs hcs htwo =>
        obtain ⟨a, -, -, ha, -⟩ := htwo
        obtain ⟨r, v, hv⟩ := (hcs a ha).exists_lookup
        exact .inr ⟨fun v => by simp, hasTerm_eq_false_of_lookup hkeys (hlook (a :: r) v hv) (by simp)⟩

section Frontier

variable (P : FlagPred) (resolveHash : Resolver)

/-- The walk of a node iterator over a root standing for `T`: what it has
still to visit, each subtree at its path in `T`. -/
structure Walk (T : Shape) (it : NodeIterator) (L : List (Hex × Shape)) : Prop where
  pending : Pending P resolveHash T it L
  entries : ∀ e ∈ L, EntryOk T e

end Frontier

/-- The pairs a loop `for it.Next() { ... }` reads, in at most `n` calls of
`Next`, and the iterator's error once `Next` returns false. -/
def Iterator.collect (resolveHash : Resolver) (root : Node) (fuel : Nat) :
    Nat → Iterator → Except TrieError (List (Bytes × Bytes) × Option TrieError)
  | 0, _ => .error .outOfFuel
  | n + 1, it =>
      match it.Next resolveHash root fuel with
      | .error e => .error e
      | .ok (it, true) =>
          (Iterator.collect resolveHash root fuel n it).map fun r => ((it.Key, it.Value) :: r.1, r.2)
      | .ok (it, false) => .ok ([], it.Err)

section Walk

variable {root : Node} {T : Shape} (hroot : Expands P resolveHash true root T)
include hroot

/-- `peek` on an iterator before the end: from a fresh one the root, from a
walking one as `peek_spec` says; the child it finds, pushed, has its own
subtrees in front of the rest.

The first step loads the root. -/
theorem peek_pending {it : NodeIterator} {L : List (Hex × Shape)} (h : Pending P resolveHash T it L)
    (herr : it.err = none) (descend : Bool) :
    ∃ D Lk, L = D ++ Lk ∧ (descend = true ∨ it.stack = [] → D = []) ∧ (∀ d ∈ D, it.path <+: d.1) ∧
      ((Lk = [] ∧ ∃ it₁, peek resolveHash root it descend = (it₁, .error .iteratorEnd)) ∨
        ∃ p T' L' it₁ st pi, Lk = (p, T') :: L' ∧ peek resolveHash root it descend = (it₁, .ok (st, pi, p)) ∧
          it₁.err = none ∧ Loaded P resolveHash st.node T' ∧ Pending P resolveHash T it₁ ((p, T') :: L') ∧
          Pending P resolveHash T (push it₁ st pi p) (pendingOf T' (-1) p ++ L')) := by
  cases h with
  | fresh hs _ =>
      obtain ⟨node, hres, hl⟩ := IterState.resolve_loaded hroot (-1) 0 []
      have hfr : Frontier P resolveHash [⟨node, -1, 0⟩] [] (pendingOf T (-1) [] ++ []) :=
        Frontier.cons hl (le_refl _) (fun _ he => by simp at he) (.nil _)
      refine ⟨[], [([], T)], rfl, fun _ => rfl, by simp, .inr ⟨[], T, [], it, ⟨node, -1, 0⟩, false, rfl,
        by simp [peek, hs, hres], herr, hl, .fresh hs herr, .walking (by simp) ?_ (by simpa using herr)⟩⟩
      simpa [push_path, hs] using hfr
  | walking hne hf _ =>
      obtain ⟨D, Lk, rfl, hD, hpre, hpeek⟩ := peek_spec root hf hne descend
      refine ⟨D, Lk, rfl, fun h => h.elim hD (absurd · hne), hpre, ?_⟩
      rcases hpeek with ⟨rfl, it₁, hpeek⟩ | ⟨p, T', L', it₁, node, rfl, hpeek, hl, herr₁, hne₁, hf₁, hf₂⟩
      · exact .inl ⟨rfl, it₁, hpeek⟩
      · exact .inr ⟨p, T', L', it₁, _, true, rfl, hpeek, herr₁.trans herr, hl,
          .walking hne₁ hf₁ (herr₁.trans herr), .walking (by simp) hf₂ (by simpa using herr₁.trans herr)⟩
  | done he => simp [herr] at he

/-- One step of a node iterator, descending: at the end it stays there;
otherwise it visits the first subtree left, whose node becomes the current
one, and has that subtree's children to visit in front of the rest.

`advance` pushes the child; there was no error to clear. -/
theorem Next_spec (fuel : Nat) {it : NodeIterator} {L : List (Hex × Shape)}
    (h : Pending P resolveHash T it L) :
    (L = [] ∧ ∃ it', it.Next resolveHash root fuel true = .ok (it', false) ∧ it'.err = some .iteratorEnd) ∨
      ∃ p T' L' it' st rest, L = (p, T') :: L' ∧ it.Next resolveHash root fuel true = .ok (it', true) ∧
        it'.path = p ∧ it'.stack = st :: rest ∧ Loaded P resolveHash st.node T' ∧
        Pending P resolveHash T it' (pendingOf T' (-1) p ++ L') := by
  rcases h.err_cases with herr | ⟨he, rfl⟩
  · have hnext : it.Next resolveHash root fuel true = .ok (advance resolveHash root it true) := by
      simp [NodeIterator.Next, herr]
    obtain ⟨D, Lk, rfl, hD, -, hpeek⟩ := peek_pending hroot h herr true
    rw [hD (.inl rfl), List.nil_append]
    rcases hpeek with ⟨rfl, it₁, hpeek⟩ | ⟨p, T', L', it₁, st, pi, rfl, hpeek, herr₁, hl, -, hp⟩
    · exact .inl ⟨rfl, { it₁ with err := some .iteratorEnd }, by simp [hnext, advance, hpeek], rfl⟩
    · have hclear : { push it₁ st pi p with err := none } = push it₁ st pi p :=
        NodeIterator.with_err_none (by simpa using herr₁)
      exact .inr ⟨p, T', L', push it₁ st pi p, st, _, rfl, by simp [hnext, advance, hpeek, hclear], rfl, rfl,
        hl, hp⟩
  · exact .inl ⟨rfl, it, by simp [NodeIterator.Next, he], he⟩

section Yield

variable (hkeys : KeysOk T) (hbytes : ByteKeys T)
include hkeys hbytes

/-- The loop of `Iterator.Next`: at the end of the walk it stops with no
error; otherwise it returns the first value left, as a byte key.

A leaf: the node on top is its value node, whose key and value are returned.
An inner node: the loop goes on below it. -/
theorem nextLoop_spec (fuel : Nat) :
    ∀ (n : Nat) {it : Iterator} {L : List (Hex × Shape)}, Walk P resolveHash T it.nodeIt L →
      pendingWeight L < n →
      (yieldOf L = [] ∧ ∃ it', it.nextLoop resolveHash root fuel n = .ok (it', false) ∧ it'.Err = none) ∨
        ∃ k v L' it', yieldOf L = (keybytesToHex k, v) :: yieldOf L' ∧
          it.nextLoop resolveHash root fuel n = .ok (it', true) ∧ it'.Key = k ∧ it'.Value = v ∧
          Walk P resolveHash T it'.nodeIt L' ∧ pendingWeight L' < pendingWeight L
  | 0, _, _, _, hn => absurd hn (Nat.not_lt_zero _)
  | n + 1, it, L, hw, hn => by
      rcases Next_spec hroot fuel hw.pending with ⟨rfl, it', hnext, herr⟩ |
        ⟨p, T', L', it', st, rest, rfl, hnext, hpath, hstack, hl, hp⟩
      · exact .inl ⟨rfl, { it with nodeIt := it', Key := [], Value := [], Err := it'.Error },
          by simp [Iterator.nextLoop, hnext], by simp [NodeIterator.Error, herr]⟩
      · have hw' : Walk P resolveHash T it' (pendingOf T' (-1) p ++ L') :=
          ⟨hp, EntryOk.visit_entries hw.entries⟩
        have hlt := pendingWeight_visit p T' L'
        rcases (hw.entries _ List.mem_cons_self).visit hkeys hbytes with ⟨b, v, rfl, rfl⟩ | ⟨hleaf, hterm⟩
        · obtain ⟨node, index, pathlen⟩ := st
          obtain rfl : node = .value v := hl.1.choose_spec.eq_value
          refine .inr ⟨b, v, L', { it with nodeIt := it', Key := b, Value := v }, by simp [Tree.leaves],
            ?_, rfl, rfl, by simpa using hw', by simpa using hlt⟩
          have hleaf : it'.Leaf = true := by rw [NodeIterator.Leaf, hpath, hasTerm_keybytesToHex]
          simp [Iterator.nextLoop, hnext, hleaf, NodeIterator.LeafKey, NodeIterator.LeafBlob, hstack, hpath,
            hexToKeybytes_keybytesToHex]
        · have hstep : it.nextLoop resolveHash root fuel (n + 1) =
              Iterator.nextLoop resolveHash root fuel n { it with nodeIt := it' } := by
            simp [Iterator.nextLoop, hnext, NodeIterator.Leaf, hpath, hterm]
          rw [hstep, yieldOf_cons, show (p, T').2.leaves nibbles (p, T').1 = yieldOf (pendingOf T' (-1) p) from
            (yieldOf_pendingOf hleaf p).symm, ← yieldOf_append]
          have hn' : pendingWeight (pendingOf T' (-1) p ++ L') < n := by omega
          have hw₁ : Walk P resolveHash T ({ it with nodeIt := it' } : Iterator).nodeIt (pendingOf T' (-1) p ++ L') :=
            hw'
          rcases nextLoop_spec fuel n hw₁ hn' with hend | ⟨k, v, L'', it'', hy, hr, hk, hv, hw'', hlt'⟩
          · exact .inl hend
          · exact .inr ⟨k, v, L'', it'', hy, hr, hk, hv, hw'', by omega⟩

/-- A loop over the key-value iterator reads the values left, with their
byte keys, and ends with no error. -/
theorem collect_spec (fuel : Nat) :
    ∀ (n : Nat) {it : Iterator} {L : List (Hex × Shape)}, Walk P resolveHash T it.nodeIt L →
      pendingWeight L < fuel → pendingWeight L < n →
      ∃ kvs, it.collect resolveHash root fuel n = .ok (kvs, none) ∧
        kvs.map (fun kv => (keybytesToHex kv.1, kv.2)) = yieldOf L
  | 0, _, _, _, _, hn => absurd hn (Nat.not_lt_zero _)
  | n + 1, it, L, hw, hf, hn => by
      rcases nextLoop_spec hroot hkeys hbytes fuel fuel hw hf with ⟨hy, it', hr, herr⟩ |
        ⟨k, v, L', it', hy, hr, hk, hv, hw', hlt⟩
      · exact ⟨[], by simp [Iterator.collect, Iterator.Next, hr, herr], by simp [hy]⟩
      · obtain ⟨kvs, hc, hm⟩ := collect_spec fuel n hw' (by omega) (by omega)
        exact ⟨(k, v) :: kvs, by simp [Iterator.collect, Iterator.Next, hr, hc, hk, hv, Except.map],
          by simp [hy, hm]⟩

end Yield

end Walk

section Seeking

variable (P : FlagPred) (resolveHash : Resolver)

/-- What a seek to the hex key `key` keeps: the walk with no error, the
values it has passed, all below `key`, and once the walk has begun a current
path below `key`. -/
structure Seeking (T : Shape) (key : Hex) (it : NodeIterator) (L : List (Hex × Shape))
    (S : List (Hex × Bytes)) : Prop where
  walk : Walk P resolveHash T it L
  err : it.err = none
  split : T.leaves nibbles [] = S ++ yieldOf L
  below : ∀ e ∈ S, e.1 < key
  path : it.stack ≠ [] → it.path < key

end Seeking

section Seek

variable {root : Node} {T : Shape} (hroot : Expands P resolveHash true root T)
include hroot

/-- The loop of `seek`: it stops at the end of the walk or just before the
first subtree whose path is not below `key`, having passed exactly the
values below `key`.

What `peek` passes over without descending is below `key`. The end of the
walk: nothing is left. A node below `key`: it is pushed and the seek goes
on. The first node not below `key`: the seek stops before it. -/
theorem seekLoop_spec (start : Bytes) (key : Hex) :
    ∀ (fuel : Nat) {it : NodeIterator} {L : List (Hex × Shape)} {S : List (Hex × Bytes)},
      Seeking P resolveHash T key it L S → pendingWeight L < fuel →
      ∃ it' err L' S', seekLoop resolveHash root start key fuel it = .ok (it', err) ∧
        Walk P resolveHash T { it' with err := err } L' ∧ T.leaves nibbles [] = S' ++ yieldOf L' ∧
        (∀ e ∈ S', e.1 < key) ∧ (∀ e ∈ yieldOf L', ¬ e.1 < key) ∧ pendingWeight L' ≤ pendingWeight L
  | 0, _, _, _, _, hn => absurd hn (Nat.not_lt_zero _)
  | fuel + 1, it, L, S, hs, hn => by
      obtain ⟨D, Lk, rfl, hD, hpre, hpeek⟩ := peek_pending hroot hs.walk.pending hs.err (it.path.isPrefixOf key)
      have hbelow : ∀ e ∈ yieldOf D, e.1 < key := by
        by_cases hD0 : D = []
        · simp [hD0]
        · have hne : it.stack ≠ [] := fun h => hD0 (hD (.inr h))
          have hnp : ¬ it.path <+: key := fun h => hD0 (hD (.inl (List.isPrefixOf_iff_prefix.mpr h)))
          exact yieldOf_below (hs.path hne) hnp hpre
      have hentries : ∀ e ∈ Lk, EntryOk T e := fun e he => hs.walk.entries e (List.mem_append_right _ he)
      have hsplit : T.leaves nibbles [] = (S ++ yieldOf D) ++ yieldOf Lk := by
        rw [hs.split, yieldOf_append, List.append_assoc]
      have hS : ∀ e ∈ S ++ yieldOf D, e.1 < key := fun e he =>
        (List.mem_append.mp he).elim (hs.below e) (hbelow e)
      rcases hpeek with ⟨rfl, it₁, hpeek⟩ | ⟨p, T', L', it₁, st, pi, rfl, hpeek, herr₁, -, hp₁, hp₂⟩
      · exact ⟨it₁, some .iteratorEnd, [], S ++ yieldOf D, by simp [seekLoop, hpeek], ⟨.done rfl, by simp⟩,
          by simpa using hsplit, hS, by simp, by simp⟩
      · by_cases hlt : p < key
        · obtain ⟨E, hE, hEp⟩ := yieldOf_visit p T' L'
          have hs' : Seeking P resolveHash T key (push it₁ st pi p) (pendingOf T' (-1) p ++ L')
              (S ++ yieldOf D ++ E) :=
            { walk := ⟨hp₂, EntryOk.visit_entries hentries⟩
              err := by simpa using herr₁
              split := by simp only [hsplit, hE, List.append_assoc]
              below := fun e he => (List.mem_append.mp he).elim (hS e) fun he => (hEp e he).symm ▸ hlt
              path := fun _ => hlt }
          have hw := pendingWeight_visit p T' L'
          have hn' : pendingWeight (pendingOf T' (-1) p ++ L') < fuel := by
            simp only [pendingWeight_append] at hn
            omega
          obtain ⟨it', err, L'', S', hr, hw', hsp, hb, hnb, hle⟩ := seekLoop_spec start key fuel hs' hn'
          refine ⟨it', err, L'', S', ?_, hw', hsp, hb, hnb, ?_⟩
          · simp [seekLoop, hpeek, hlt, hr]
          · simp only [pendingWeight_append]
            omega
        · refine ⟨it₁, none, (p, T') :: L', S ++ yieldOf D, by simp [seekLoop, hpeek, hlt], ?_, hsplit, hS,
            yieldOf_not_below hp₁.pairwise hlt, by simp⟩
          rw [NodeIterator.with_err_none herr₁]
          exact ⟨hp₁, hentries⟩

end Seek

/-- The key-value iterator over a trie that holds `T`, started at `start`,
reads exactly the values of `T` whose hex keys are not below the hex key of
`start` without its terminator, in the order of the walk, and ends with no
error.

The values passed are all below `key`, those left none. -/
theorem Holds.iterate {P : FlagPred} {resolveHash : Resolver} {t : Trie} {T : Shape}
    (h : Holds P resolveHash t T) (start : Bytes) {fuel : Nat} (hfuel : T.size nibbles < fuel) :
    ∃ it kvs, newNodeIterator resolveHash t.root fuel start = .ok it ∧
      (NewIterator it).collect resolveHash t.root fuel fuel = .ok (kvs, none) ∧
      kvs.map (fun kv => (keybytesToHex kv.1, kv.2)) =
        (T.leaves nibbles []).filter fun e => !decide (e.1 < (keybytesToHex start).dropLast) := by
  set key := (keybytesToHex start).dropLast with hkey
  have hs₀ : Seeking P resolveHash T key ⟨[], [], none⟩ [([], T)] [] :=
    { walk := ⟨.fresh rfl rfl, by simpa using EntryOk.root h.shape.1⟩
      err := rfl
      split := by simp
      below := by simp
      path := fun h => absurd rfl h }
  obtain ⟨it, err, L, S, hseek, hw, hsplit, hb, hnb, hle⟩ :=
    seekLoop_spec h.expands start key fuel hs₀ (by simpa using hfuel)
  have hnew : newNodeIterator resolveHash t.root fuel start = .ok { it with err := err } := by
    simp [newNodeIterator, seek, ← hkey, hseek]
  have hw₁ : Walk P resolveHash T (NewIterator { it with err := err }).nodeIt L := hw
  have hL : pendingWeight L < fuel := by
    simp only [pendingWeight_cons, pendingWeight_nil] at hle
    omega
  obtain ⟨kvs, hc, hm⟩ := collect_spec h.expands h.shape.2 h.byteKeys fuel fuel hw₁ hL hL
  refine ⟨_, kvs, hnew, hc, ?_⟩
  rw [hm, hsplit, List.filter_append, List.filter_eq_nil_iff.mpr fun e he => by simpa using hb e he,
    List.filter_eq_self.mpr fun e he => by simpa using hnb e he, List.nil_append]

/-! ## Hex order and byte order -/

/-- A byte is below another iff its nibbles are, high nibble first. -/
theorem lt_iff_nibbles {a b : UInt8} :
    a < b ↔ hiNibble a < hiNibble b ∨ hiNibble a = hiNibble b ∧ loNibble a < loNibble b := by
  rw [UInt8.lt_iff_toNat_lt, Fin.lt_def, Fin.lt_def, Fin.ext_iff]
  simp only [hiNibble, loNibble]
  omega

/-- The hex key of `k` is below the nibbles of `s` iff `k` is below `s` in
byte order without being a prefix of it: the terminator is above every
nibble. -/
theorem keybytesToHex_lt_iff : ∀ (k s : Bytes),
    keybytesToHex k < (keybytesToHex s).dropLast ↔ k < s ∧ ¬ k <+: s
  | [], [] => by simp [keybytesToHex]
  | [], b :: s => by
      have h : ¬ terminator < hiNibble b := fun h => absurd (Fin.lt_def.mp h) (by
        have := hiNibble_lt b; simp [terminator]; omega)
      have h' : terminator ≠ hiNibble b := fun h => absurd (hiNibble_lt b) (by rw [← h]; decide)
      simp [keybytesToHex, List.cons_lt_cons_iff, h, h']
  | a :: k, [] => by simp [keybytesToHex]
  | a :: k, b :: s => by
      have ih := keybytesToHex_lt_iff k s
      rw [dropLast_keybytesToHex] at ih ⊢
      simp only [keybytesToHex, List.flatMap_cons, List.cons_append, List.nil_append] at ih ⊢
      rw [List.cons_lt_cons_iff, List.cons_lt_cons_iff, ih, List.cons_lt_cons_iff, List.cons_prefix_cons]
      rcases Nat.lt_trichotomy a.toNat b.toNat with hab | hab | hab
      · have hn := lt_iff_nibbles.mp (UInt8.lt_iff_toNat_lt.mpr hab)
        have hne : a ≠ b := fun h => by subst h; omega
        have hlt : a < b := UInt8.lt_iff_toNat_lt.mpr hab
        tauto
      · obtain rfl : a = b := UInt8.toNat_inj.mp hab
        have hlt : ¬ a < a := fun h => by rw [UInt8.lt_iff_toNat_lt] at h; omega
        simp [hlt]
      · have hne : a ≠ b := fun h => by subst h; omega
        have hnlt : ¬ a < b := fun h => by rw [UInt8.lt_iff_toNat_lt] at h; omega
        constructor
        · rintro (h | ⟨h₁, h | ⟨h₂, -⟩⟩)
          · exact absurd (lt_iff_nibbles.mpr (.inl h)) hnlt
          · exact absurd (lt_iff_nibbles.mpr (.inr ⟨h₁, h⟩)) hnlt
          · exact absurd (eq_of_nibbles h₁ h₂) hne
        · rintro ⟨h | ⟨h, -⟩, -⟩
          · exact absurd h hnlt
          · exact absurd h hne


/-! ## The key-value iterator of a trie -/

/-- A pair is read iff its hex form is among the values of the walk. -/
theorem mem_iff_hex {kvs : List (Bytes × Bytes)} {k v : Bytes} :
    (k, v) ∈ kvs ↔ (keybytesToHex k, v) ∈ kvs.map fun kv => (keybytesToHex kv.1, kv.2) :=
  (List.mem_map_of_injective (keybytesToHex_injective.prodMap Function.injective_id)).symm

/-- The key-value iterator of a trie, started at `start`, reads exactly the
pairs of the trie's map whose key is not below `start` in byte order or is a
prefix of it, in strictly increasing order of their hex keys, so each once,
and ends with no error; the pairs read from the empty start, put into a
fresh trie, give the same root hash.

What is read: the values of the map at the keys not below the start. In
which order: the walk's. From the empty start every value is read. -/
theorem iterator_reads_from_start {keccak : Bytes → Lemochain.Hash} {S : Shape → Prop}
    (henv : HashEnv keccak S) (hcl : ChildClosed S) {t : Trie} {db : Database} {T : Shape}
    (hc : Cached keccak S t db T) (hS : T ≠ .nil → S T) (start : Bytes) {fuel : Nat}
    (hfuel : T.size nibbles < fuel) :
    ∃ it kvs, newNodeIterator (t.resolveHash db) t.root fuel start = .ok it ∧
      (NewIterator it).collect (t.resolveHash db) t.root fuel fuel = .ok (kvs, none) ∧
      (∀ k v, (k, v) ∈ kvs ↔ (t.Get (t.resolveHash db) k).1 = some v ∧ (¬ k < start ∨ k <+: start)) ∧
      (kvs.map fun kv => keybytesToHex kv.1).Pairwise (· < ·) ∧
      (start = [] → ∃ root t₁ t₂, t.Hash keccak = .ok (root, t₁) ∧ (freshTrie kvs).Hash keccak = .ok (root, t₂)) := by
  obtain ⟨it, kvs, hnew, hcol, hkvs⟩ := hc.holds.iterate start hfuel
  have hmem : ∀ k v, (k, v) ∈ kvs ↔ byteMap T k = some v ∧ ¬ keybytesToHex k < (keybytesToHex start).dropLast := by
    intro k v
    rw [mem_iff_hex, hkvs, List.mem_filter, Tree.mem_leaves (fun a => List.mem_finRange a)]
    simp [byteMap]
  have hord : (kvs.map fun kv => keybytesToHex kv.1).Pairwise (· < ·) := by
    have hpw : ((T.leaves nibbles []).filter fun e => !decide (e.1 < (keybytesToHex start).dropLast)).Pairwise
        fun e e' => e.1 < e'.1 :=
      (Tree.leaves_pairwise (List.pairwise_lt_finRange 17) T []).sublist List.filter_sublist
    rw [← hkvs, List.pairwise_map] at hpw
    exact List.pairwise_map.mpr hpw
  refine ⟨it, kvs, hnew, hcol, fun k v => ?_, hord, fun hstart => ?_⟩
  · rw [hmem, ← (hc.get k).1, keybytesToHex_lt_iff, not_and_or, not_not]
  · subst hstart
    have hall : ∀ key value, (key, value) ∈ kvs ↔ byteMap T key = some value := fun key value => by
      rw [hmem]
      simp [keybytesToHex]
    have hnd : (kvs.map Prod.fst).Nodup := by
      have hhex : ((kvs.map Prod.fst).map keybytesToHex).Nodup := by
        rw [List.map_map]
        exact hord.imp ne_of_lt
      exact hhex.of_map _
    have hfresh : ∃ T', Cached keccak S (freshTrie kvs) freshDb T' ∧ byteMap T' = byteMap T :=
      freshTrie_cached hnd hall fun key value h => hc.values _ value h
    obtain ⟨T', hcf, hmapf⟩ := hfresh
    obtain rfl : T' = T :=
      shape_eq_of_byteMap hcf.holds.shape hc.holds.shape hcf.holds.byteKeys hc.holds.byteKeys hmapf
    obtain ⟨t₁, h₁, -, -⟩ := hc.hash henv hcl hS
    obtain ⟨t₂, h₂, -, -⟩ := hcf.hash henv hcl hS
    exact ⟨_, t₁, t₂, h₁, h₂⟩

/-- Two keys, the first a prefix of the second. -/
def prefixPairs : List (Bytes × Bytes) := [([0x61], [1]), ([0x61, 0x62], [2])]

/-- The pairs put into a fresh trie, from the empty start, hashed with
Keccak-256.

The tree the fresh trie holds is the tree of the map. -/
theorem iterator_reads_from_start_two :
    HashEnv (fun b => BytesToHash (Keccak.keccak256 b))
        (· ∈ runShapes (prefixPairs.map fun kv => .update kv.1 kv.2)) ∧
      ∃ it kvs, newNodeIterator ((freshTrie prefixPairs).resolveHash freshDb) (freshTrie prefixPairs).root 30 [] =
          .ok it ∧
        (NewIterator it).collect ((freshTrie prefixPairs).resolveHash freshDb) (freshTrie prefixPairs).root 30 30 =
          .ok (kvs, none) ∧
        (∀ k v, (k, v) ∈ kvs ↔ ((freshTrie prefixPairs).Get ((freshTrie prefixPairs).resolveHash freshDb) k).1 =
          some v ∧ (¬ k < [] ∨ k <+: [])) ∧
        (kvs.map fun kv => keybytesToHex kv.1).Pairwise (· < ·) ∧
        (([] : Bytes) = [] → ∃ root t₁ t₂,
          (freshTrie prefixPairs).Hash (fun b => BytesToHash (Keccak.keccak256 b)) = .ok (root, t₁) ∧
            (freshTrie kvs).Hash (fun b => BytesToHash (Keccak.keccak256 b)) = .ok (root, t₂)) := by
  have henv : HashEnv (fun b => BytesToHash (Keccak.keccak256 b))
      (· ∈ runShapes (prefixPairs.map fun kv => .update kv.1 kv.2)) :=
    HashEnv.of_prefixes _ 1 [[78], [226], [138], [20], [242], [29], [95]] (by decide +kernel)
      (fun i hi => by simp only [List.length_cons, List.length_nil] at hi; interval_cases i <;> decide +kernel)
      (by decide) (by decide) (by decide) (by decide +kernel)
  have hc₀ : Cached (fun b => BytesToHash (Keccak.keccak256 b))
      (· ∈ runShapes (prefixPairs.map fun kv => .update kv.1 kv.2)) Trie.empty freshDb .nil := .empty rfl DbOk.freshDb
  obtain ⟨T, hc, hmap⟩ := Cached.fill prefixPairs hc₀
  obtain rfl : T = memShape (prefixPairs.map fun kv => .update kv.1 kv.2) :=
    hc.eq_memShape (by rw [hmap]; funext k; rfl)
  exact ⟨henv, iterator_reads_from_start henv (runShapes_childClosed _) hc
    (fun _ => memShape_mem_runShapes (List.prefix_refl _)) [] (by decide +kernel)⟩

/-- The iterator reads a key after the keys it is a prefix of, and from a
start it reads a key that is a prefix of the start, which is below it. -/
theorem iterator_key_after_extension :
    ((newNodeIterator ((freshTrie prefixPairs).resolveHash freshDb) (freshTrie prefixPairs).root 20 []).bind
        fun it => (NewIterator it).collect ((freshTrie prefixPairs).resolveHash freshDb)
          (freshTrie prefixPairs).root 20 20) = .ok ([([0x61, 0x62], [2]), ([0x61], [1])], none) ∧
      ([0x61] : Bytes) < [0x61, 0x62] ∧
      ((newNodeIterator ((freshTrie [([0x61], [1])]).resolveHash freshDb) (freshTrie [([0x61], [1])]).root 20
          [0x61, 0x62]).bind fun it => (NewIterator it).collect ((freshTrie [([0x61], [1])]).resolveHash freshDb)
            (freshTrie [([0x61], [1])]).root 20 20) = .ok ([([0x61], [1])], none) :=
  ⟨by decide +kernel, by decide, by decide +kernel⟩

end Lemochain.Trie
