import Lemochain.Lib.Radix
import Lemochain.Trie.Methods

/-!
# The map a trie holds

A node of the source denotes a radix tree over hex nibbles (`Shape`) once
every hash node in it is replaced by the node the database holds for it.
`Expands P resolveHash top n T` is that relation; it forgets the node flags
but for a condition `P` on each of them, which the trie methods keep when
new nodes and reloaded nodes satisfy it.

Below the root, every key a subtree holds is a value key (`TermKey`):
nibbles `0..15` and the terminator. A subtree at such a position is empty or
canonical (`InnerShape`); right after a terminator only a single value or
nothing can stand (`ValueShape`). The two classification lemmas
`InnerShape.short_cases` and `InnerShape.branch_cases` say what canonical
form forces at each node kind: a short node is a leaf whose segment ends with
the terminator, or an extension with a branch below it.
-/

namespace Lemochain.Trie

open Lemochain.Radix

/-- The abstract form of a trie: a radix tree over hex nibbles with byte
values. -/
abbrev Shape := Radix.Tree Nibble Bytes

/-- A condition on the flags of the nodes of a trie: whether the node is the
root, its flag, and the tree it stands for. -/
abbrev FlagPred := Bool → NodeFlag → Shape → Prop

/-- The condition that says nothing about the flags. -/
def anyFlag : FlagPred := fun _ _ _ => True

section Expands

variable (P : FlagPred) (resolveHash : Resolver)

/-- `Expands P resolveHash top n T`: the node `n`, with every hash node in it
loaded through `resolveHash`, is the tree `T`, and the flag of every short
and full node in it satisfies `P` for the tree that node stands for. `top` is
true at the root and false below it; a loaded node takes the place of its
hash node. A loaded node is a short or a full node, and loading does not
depend on the path. -/
inductive Expands : Bool → Node → Shape → Prop
  | nil {top : Bool} : Expands top .nil .nil
  | value {top : Bool} (v : Bytes) : Expands top (.value v) (.leaf v)
  | short {top : Bool} {k : Hex} {n : Node} {T : Shape} (f : NodeFlag) :
      P top f (.short k T) → Expands false n T → Expands top (.short k n f) (.short k T)
  | full {top : Bool} {cs : Fin 17 → Node} {Ts : Fin 17 → Shape} (f : NodeFlag) :
      P top f (.branch Ts) → (∀ i, Expands false (cs i) (Ts i)) → Expands top (.full cs f) (.branch Ts)
  | hash {top : Bool} {h : Bytes} {n : Node} {T : Shape} :
      (∀ pre, resolveHash h pre = .ok n) → n.isShortOrFull = true → Expands top n T →
        Expands top (.hash h) T

end Expands

variable {P : FlagPred} {resolveHash : Resolver} {top : Bool}

theorem Expands.short_inv {k : Hex} {n : Node} {f : NodeFlag} {T : Shape}
    (h : Expands P resolveHash top (.short k n f) T) :
    ∃ Tc, T = .short k Tc ∧ P top f T ∧ Expands P resolveHash false n Tc := by
  cases h with
  | short _ hf hc => exact ⟨_, rfl, hf, hc⟩

theorem Expands.full_inv {cs : Fin 17 → Node} {f : NodeFlag} {T : Shape}
    (h : Expands P resolveHash top (.full cs f) T) :
    ∃ Ts, T = .branch Ts ∧ P top f T ∧ ∀ i, Expands P resolveHash false (cs i) (Ts i) := by
  cases h with
  | full _ hf hcs => exact ⟨_, rfl, hf, hcs⟩

theorem Expands.hash_inv {h : Bytes} {T : Shape} (hx : Expands P resolveHash top (.hash h) T) :
    ∃ n, (∀ pre, resolveHash h pre = .ok n) ∧ n.isShortOrFull = true ∧
      Expands P resolveHash top n T := by
  cases hx with
  | hash hres hne hn => exact ⟨_, hres, hne, hn⟩

theorem Expands.nil_inv {T : Shape} (h : Expands P resolveHash top .nil T) : T = .nil := by
  cases h
  rfl

theorem Expands.value_inv {v : Bytes} {T : Shape} (h : Expands P resolveHash top (.value v) T) :
    T = .leaf v := by
  cases h
  rfl

/-- Only the nil node expands to the empty tree.

A loaded node is short or full, and neither expands to the empty tree. -/
theorem Expands.eq_nil_of_nil {n : Node} (h : Expands P resolveHash top n .nil) : n = .nil := by
  cases h with
  | nil => rfl
  | hash _ hsf hn =>
      cases hn <;> simp [Node.isShortOrFull] at hsf

/-- Only a value node expands to a leaf: a loaded node is short or full. -/
theorem Expands.eq_value {n : Node} {v : Bytes} (h : Expands P resolveHash top n (.leaf v)) :
    n = .value v := by
  cases h with
  | value => rfl
  | hash _ hsf hn => cases hn <;> simp [Node.isShortOrFull] at hsf

/-- Replacing one child of a full node by a node that expands to `T`
replaces the same child of the branch by `T`. -/
theorem Expands.update {cs : Fin 17 → Node} {Ts : Fin 17 → Shape}
    (hcs : ∀ i, Expands P resolveHash false (cs i) (Ts i)) (a : Fin 17) {n : Node} {T : Shape}
    (h : Expands P resolveHash false n T) :
    ∀ i, Expands P resolveHash false (Function.update cs a n i) (Function.update Ts a T i) := by
  intro i
  by_cases hi : i = a
  · subst hi
    simpa using h
  · simpa [Function.update_of_ne hi] using hcs i

theorem Expands.emptyChildren (i : Fin 17) : Expands P resolveHash top (emptyChildren i) .nil := .nil

/-- Exactly the nil node expands to the empty tree. -/
theorem Expands.eq_nil_iff {n : Node} {T : Shape} (h : Expands P resolveHash top n T) :
    n = .nil ↔ T = .nil := by
  constructor
  · rintro rfl
    exact h.nil_inv
  · rintro rfl
    exact h.eq_nil_of_nil

/-- `Trie.resolve` on a node that expands: it loads the node, which is then
no hash node, and the loaded node expands to the same tree. -/
theorem Expands.resolve {n : Node} {T : Shape} (h : Expands P resolveHash top n T) (pre : Hex) :
    ∃ rn, Trie.resolve resolveHash n pre = .ok rn ∧ Expands P resolveHash top rn T ∧
      ∀ x, rn ≠ .hash x := by
  cases n with
  | hash x =>
      obtain ⟨rn, hres, hsf, hrn⟩ := h.hash_inv
      refine ⟨rn, hres pre, hrn, fun y hy => ?_⟩
      simp [hy, Node.isShortOrFull] at hsf
  | nil => exact ⟨_, rfl, h, fun _ => Node.noConfusion⟩
  | value v => exact ⟨_, rfl, h, fun _ => Node.noConfusion⟩
  | short k c f => exact ⟨_, rfl, h, fun _ => Node.noConfusion⟩
  | full cs f => exact ⟨_, rfl, h, fun _ => Node.noConfusion⟩

/-- A node that is neither a short node nor a hash node does not expand to a
short tree. -/
theorem Expands.ne_short {n : Node} {T : Shape} (h : Expands P resolveHash top n T)
    (hs : ∀ k c f, n ≠ .short k c f) (hh : ∀ x, n ≠ .hash x) : ∀ k c, T ≠ .short k c := by
  rintro k c rfl
  cases h with
  | short f _ _ => exact hs _ _ f rfl
  | hash _ _ _ => exact hh _ rfl

/-! ## Value keys below a node -/

/-- Every key a tree holds is a value key. -/
def KeysOk (T : Shape) : Prop := ∀ key v, T.lookup key = some v → TermKey key

/-- A subtree at a position whose keys are value keys: empty or canonical. -/
def InnerShape (T : Shape) : Prop := T.RootCanonical ∧ KeysOk T

/-- A subtree right after the terminator: empty or a single value. -/
def ValueShape (T : Shape) : Prop := T = .nil ∨ ∃ w, T = .leaf w

/-- A value key that extends `k`: either `k` is all nibbles and the rest is a
value key, or `k` already is the whole value key. -/
theorem TermKey.append_cases {k r : Hex} (h : TermKey (k ++ r)) :
    ((∀ n ∈ k, n.val < 16) ∧ TermKey r) ∨ (TermKey k ∧ r = []) := by
  induction k with
  | nil => exact .inl ⟨by simp, h⟩
  | cons a k ih =>
      rcases (show TermKey (a :: (k ++ r)) from h).tail with ⟨ha, hk⟩ | ⟨ha, hnil⟩
      · rcases ih hk with ⟨hall, hr⟩ | ⟨⟨ns, hns, rfl⟩, rfl⟩
        · exact .inl ⟨List.forall_mem_cons.2 ⟨ha, hall⟩, hr⟩
        · exact .inr ⟨⟨a :: ns, List.forall_mem_cons.2 ⟨ha, hns⟩, rfl⟩, rfl⟩
      · obtain ⟨rfl, rfl⟩ := List.append_eq_nil_iff.1 hnil
        exact .inr ⟨⟨[], by simp, by simp [ha]⟩, rfl⟩

/-- A value key contains the terminator. -/
theorem TermKey.not_all_lt {k : Hex} (h : TermKey k) : ¬ ∀ n ∈ k, n.val < 16 := by
  obtain ⟨ns, _, rfl⟩ := h
  intro hall
  have := hall terminator (by simp)
  exact absurd this (by decide)

theorem KeysOk.nil : KeysOk .nil := fun _ _ h => by simp at h

/-- The keys held by the child of a `short` node extend its segment. -/
theorem KeysOk.short_child {k : Hex} {Tc : Shape} (h : KeysOk (.short k Tc)) :
    ∀ r v, Tc.lookup r = some v → TermKey (k ++ r) :=
  fun r v hv => h (k ++ r) v (by simpa using hv)

/-- After the update of one key the keys held are still value keys. -/
theorem KeysOk.update {T T' : Shape} {key : Hex} {v : Option Bytes} (hT : KeysOk T)
    (hkey : TermKey key) (h : T'.lookup = Function.update T.lookup key v) : KeysOk T' := by
  intro k w hw
  rw [h] at hw
  by_cases hk : k = key
  · exact hk ▸ hkey
  · rw [Function.update_of_ne hk] at hw
    exact hT k w hw

theorem InnerShape.of_canonical {T : Shape} (h : T.Canonical) (hkeys : KeysOk T) : InnerShape T :=
  ⟨.inr h, hkeys⟩

/-- A non-empty inner subtree is canonical. -/
theorem InnerShape.canonical {T : Shape} (h : InnerShape T) (hne : T ≠ .nil) : T.Canonical :=
  h.1.resolve_left hne

/-- Which keys a tree holds depends on its lookups only. -/
theorem KeysOk.of_lookup_eq {T T' : Shape} (h : KeysOk T) (heq : T'.lookup = T.lookup) :
    KeysOk T' := by
  intro k v hv
  rw [heq] at hv
  exact h k v hv

/-- What canonical form forces at a short node below the root: a leaf whose
segment is a whole value key, or an extension of nibbles over a branch.

An extension: every key of the child is a value key. A leaf: the child holds
only the empty key. -/
theorem InnerShape.short_cases {k : Hex} {Tc : Shape} (h : InnerShape (.short k Tc)) :
    k ≠ [] ∧ (((∀ n ∈ k, n.val < 16) ∧ (∃ Ts, Tc = .branch Ts) ∧ InnerShape Tc) ∨
      (TermKey k ∧ ∃ w, Tc = .leaf w)) := by
  obtain ⟨hcan, hkeys⟩ := h
  rcases hcan with hnil | hcan
  · exact absurd hnil (by simp)
  cases hcan with
  | short hk hc hchild =>
      refine ⟨hk, ?_⟩
      obtain ⟨r, v, hv⟩ := hc.exists_lookup
      rcases (hkeys.short_child r v hv).append_cases with ⟨hall, _⟩ | ⟨hterm, _⟩
      · have hkeysc : KeysOk Tc := fun r' v' hv' => by
          rcases (hkeys.short_child r' v' hv').append_cases with ⟨_, hr'⟩ | ⟨hterm, _⟩
          · exact hr'
          · exact absurd hall hterm.not_all_lt
        refine .inl ⟨hall, ?_, .inr hc, hkeysc⟩
        cases hc with
        | leaf w => exact absurd (hkeysc [] w rfl) (fun h => h.ne_nil rfl)
        | short _ _ _ => exact absurd rfl (hchild _ _)
        | branch _ _ => exact ⟨_, rfl⟩
      · refine .inr ⟨hterm, hc.eq_leaf_of_keys fun r' v' hv' => ?_⟩
        rcases (hkeys.short_child r' v' hv').append_cases with ⟨hall, _⟩ | ⟨_, hr'⟩
        · exact absurd hall hterm.not_all_lt
        · exact hr'

/-- Below a nibble of a branch the keys are value keys again. -/
theorem KeysOk.branch_child {Ts : Fin 17 → Shape} (h : KeysOk (.branch Ts)) {i : Nibble}
    (hi : i ≠ terminator) : KeysOk (Ts i) := by
  intro r v hv
  rcases (show TermKey (i :: r) from h (i :: r) v hv).tail with ⟨_, hr⟩ | ⟨hi', _⟩
  · exact hr
  · exact absurd hi' hi

/-- A canonical subtree after the terminator holds only the empty key: a
single value. -/
theorem KeysOk.terminator_child {Ts : Fin 17 → Shape} (h : KeysOk (.branch Ts))
    (hc : (Ts terminator).Canonical) : ∃ w, Ts terminator = .leaf w :=
  hc.eq_leaf_of_keys fun r v hv =>
    (show TermKey (terminator :: r) from h _ v hv).eq_of_terminator rfl

/-- What canonical form forces at a branch below the root: the nibble
children are inner subtrees and the terminator child is a single value.

An empty child is allowed, a non-empty one is canonical. -/
theorem InnerShape.branch_cases {Ts : Fin 17 → Shape} (h : InnerShape (.branch Ts)) :
    (Radix.Tree.branch Ts).Canonical ∧ (∀ i, i ≠ terminator → InnerShape (Ts i)) ∧
      ValueShape (Ts terminator) := by
  obtain ⟨hcan, hkeys⟩ := h
  rcases hcan with hnil | hcan
  · exact absurd hnil (by simp)
  cases hcan with
  | branch hcs htwo =>
      have hchild : ∀ i, Ts i = .nil ∨ (Ts i).Canonical := fun i => by
        by_cases hnil : Ts i = .nil
        · exact .inl hnil
        · exact .inr (hcs i hnil)
      refine ⟨.branch hcs htwo, fun i hi => ⟨hchild i, hkeys.branch_child hi⟩, ?_⟩
      rcases hchild terminator with hnil | hc
      · exact .inl hnil
      · exact .inr (hkeys.terminator_child hc)

/-- Below the root a subtree is never a bare value. -/
theorem InnerShape.ne_leaf {T : Shape} (h : InnerShape T) (w : Bytes) : T ≠ .leaf w := by
  rintro rfl
  exact (h.2 [] w rfl).ne_nil rfl

end Lemochain.Trie
