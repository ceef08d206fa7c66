import Mathlib.Data.Nat.SuccPred

/-!
# Radix trees over an arbitrary alphabet

A radix (Patricia) tree stores a finite map from words over an alphabet `σ`
to values in `β`. Besides the empty tree it has three node forms: a `leaf`
holding the value of the empty word, a `short` node that consumes a whole
key segment at once, and a `branch` that dispatches on the next letter.

This module is the abstract layer under every Merkle Patricia trie model of
the package: it names nothing of any implementation. It supplies

* `Tree.lookup`, the map a tree denotes, with one equation per node form;
* `Tree.Canonical`, the minimal form — no empty segments, no `short` chain,
  no branch with fewer than two children, no empty subtree below the root;
* the uniqueness theorem: two canonical trees that denote the same map are
  equal. Everything a hash commits to is therefore a function of the map.

## Main results

* `stripPrefix_eq_some_iff` — segment removal is exactly `key = pre ++ rest`.
* `Tree.Canonical.exists_lookup` — a canonical tree holds at least one value.
* `Tree.Canonical.prefix_of_forall` — the segment of a canonical `short`
  node is the longest common prefix of the keys it holds.
* `Tree.Canonical.eq_of_lookup_eq` — canonical form is unique.
-/

namespace Lemochain.Radix

variable {σ β : Type} [DecidableEq σ]

/-! ## Removing a key segment -/

/-- Remove the segment `pre` from the front of `key`, or report that `key`
does not start with it. -/
def stripPrefix : List σ → List σ → Option (List σ)
  | [], key => some key
  | _ :: _, [] => none
  | a :: pre, b :: key => if a = b then stripPrefix pre key else none

@[simp] theorem stripPrefix_nil (key : List σ) : stripPrefix [] key = some key := rfl

@[simp] theorem stripPrefix_cons_nil (a : σ) (pre : List σ) :
    stripPrefix (a :: pre) [] = none := rfl

@[simp] theorem stripPrefix_cons_cons (a b : σ) (pre key : List σ) :
    stripPrefix (a :: pre) (b :: key) = if a = b then stripPrefix pre key else none := rfl

/-- Successful removal is exactly concatenation. -/
theorem stripPrefix_eq_some_iff (pre key rest : List σ) :
    stripPrefix pre key = some rest ↔ key = pre ++ rest := by
  induction pre generalizing key with
  | nil => simp [eq_comm]
  | cons a pre ih =>
      cases key with
      | nil => simp
      | cons b key =>
          by_cases hab : a = b
          · subst hab
            simp [ih]
          · simp [hab, Ne.symm hab]

@[simp] theorem stripPrefix_append (pre rest : List σ) :
    stripPrefix pre (pre ++ rest) = some rest :=
  (stripPrefix_eq_some_iff pre _ rest).2 rfl

/-- Removal fails exactly when `pre` is not a prefix of `key`. -/
theorem stripPrefix_eq_none_iff (pre key : List σ) :
    stripPrefix pre key = none ↔ ¬ pre <+: key := by
  constructor
  · rintro hnone ⟨rest, rfl⟩
    simp at hnone
  · intro hpre
    cases hstrip : stripPrefix pre key with
    | none => rfl
    | some rest =>
        rw [stripPrefix_eq_some_iff] at hstrip
        exact absurd ⟨rest, hstrip.symm⟩ hpre

/-! ## Trees and the map they denote -/

/-- A radix tree over the alphabet `σ` with values in `β`. -/
inductive Tree (σ β : Type) where
  /-- The empty tree. -/
  | nil
  /-- The value stored under the empty word. -/
  | leaf (value : β)
  /-- A node consuming the whole segment `key` before `child`. -/
  | short (key : List σ) (child : Tree σ β)
  /-- A node selecting a subtree by the next letter. -/
  | branch (children : σ → Tree σ β)

namespace Tree

/-- The value a tree holds under a word. -/
def lookup : Tree σ β → List σ → Option β
  | nil, _ => none
  | leaf v, [] => some v
  | leaf _, _ :: _ => none
  | short k c, key =>
      match stripPrefix k key with
      | some rest => c.lookup rest
      | none => none
  | branch _, [] => none
  | branch cs, a :: key => (cs a).lookup key

@[simp] theorem lookup_nil (key : List σ) : (nil : Tree σ β).lookup key = none := rfl

@[simp] theorem lookup_leaf_nil (v : β) : (leaf v : Tree σ β).lookup [] = some v := rfl

@[simp] theorem lookup_leaf_cons (v : β) (a : σ) (key : List σ) :
    (leaf v : Tree σ β).lookup (a :: key) = none := rfl

@[simp] theorem lookup_branch_nil (cs : σ → Tree σ β) : (branch cs).lookup [] = none := rfl

@[simp] theorem lookup_branch_cons (cs : σ → Tree σ β) (a : σ) (key : List σ) :
    (branch cs).lookup (a :: key) = (cs a).lookup key := rfl

theorem lookup_short (k : List σ) (c : Tree σ β) (key : List σ) :
    (short k c).lookup key =
      match stripPrefix k key with
      | some rest => c.lookup rest
      | none => none := rfl

/-- A `short` node hands the rest of a matching key to its child. -/
@[simp] theorem lookup_short_append (k rest : List σ) (c : Tree σ β) :
    (short k c).lookup (k ++ rest) = c.lookup rest := by
  simp [lookup_short]

/-- A `short` node holds nothing under a key that does not start with its
segment. -/
theorem lookup_short_eq_none {k key : List σ} (c : Tree σ β) (h : ¬ k <+: key) :
    (short k c).lookup key = none := by
  rw [lookup_short, (stripPrefix_eq_none_iff k key).2 h]

/-- Every key a `short` node holds extends its segment. -/
theorem lookup_short_eq_some {k key : List σ} {c : Tree σ β} {v : β}
    (h : (short k c).lookup key = some v) : ∃ rest, key = k ++ rest ∧ c.lookup rest = some v := by
  rw [lookup_short] at h
  split at h
  · next rest hstrip => exact ⟨rest, (stripPrefix_eq_some_iff k key rest).1 hstrip, h⟩
  · exact absurd h (by simp)

/-- A `short` node with a non-empty segment holds nothing under the empty word. -/
theorem lookup_short_nil {k : List σ} (c : Tree σ β) (hk : k ≠ []) :
    (short k c).lookup [] = none := by
  cases k with
  | nil => exact absurd rfl hk
  | cons a k => rfl

/-- A `short` node with an empty segment holds what its child holds. -/
@[simp] theorem lookup_short_empty (c : Tree σ β) : (short [] c).lookup = c.lookup := by
  funext key
  simp [lookup_short]

/-- A segment can be consumed in two parts. -/
theorem lookup_short_append_segment (p q : List σ) (c : Tree σ β) :
    (short (p ++ q) c).lookup = (short p (short q c)).lookup := by
  funext key
  cases hp : stripPrefix p key with
  | none =>
      have hnp : ¬ p <+: key := (stripPrefix_eq_none_iff p key).1 hp
      have hnpq : ¬ p ++ q <+: key := fun h => hnp ((List.prefix_append p q).trans h)
      rw [lookup_short_eq_none _ hnp, lookup_short_eq_none _ hnpq]
  | some rest =>
      obtain rfl := (stripPrefix_eq_some_iff p key rest).1 hp
      rw [lookup_short_append]
      cases hq : stripPrefix q rest with
      | none =>
          have hnq : ¬ q <+: rest := (stripPrefix_eq_none_iff q rest).1 hq
          have hnpq : ¬ p ++ q <+: p ++ rest := fun h => hnq ((List.prefix_append_right_inj p).1 h)
          rw [lookup_short_eq_none _ hnpq, lookup_short_eq_none _ hnq]
      | some r =>
          obtain rfl := (stripPrefix_eq_some_iff q rest r).1 hq
          rw [← List.append_assoc, lookup_short_append, lookup_short_append]

/-- A single value under `k`. -/
theorem lookup_short_leaf (k : List σ) (v : β) :
    (short k (leaf v)).lookup = Function.update (fun _ => none) k (some v) := by
  funext key
  by_cases hk : key = k
  · subst hk
    simpa using lookup_short_append key [] (leaf v)
  · rw [Function.update_of_ne hk]
    cases hs : stripPrefix k key with
    | none => rw [lookup_short, hs]
    | some rest =>
        have hkey := (stripPrefix_eq_some_iff k key rest).1 hs
        cases rest with
        | nil => exact absurd (by simpa using hkey) hk
        | cons a rest => rw [lookup_short, hs]; rfl

/-- Updating the child of a `short` node updates the keys below its segment. -/
theorem lookup_short_update {X Y : Tree σ β} {rest : List σ} {v : Option β} (p : List σ)
    (h : X.lookup = Function.update Y.lookup rest v) :
    (short p X).lookup = Function.update (short p Y).lookup (p ++ rest) v := by
  funext key
  cases hs : stripPrefix p key with
  | none =>
      have hnp : ¬ p <+: key := (stripPrefix_eq_none_iff p key).1 hs
      have hne : key ≠ p ++ rest := fun he => hnp (he ▸ List.prefix_append p rest)
      rw [Function.update_of_ne hne, lookup_short_eq_none _ hnp, lookup_short_eq_none _ hnp]
  | some r =>
      obtain rfl := (stripPrefix_eq_some_iff p key r).1 hs
      rw [lookup_short_append, h]
      by_cases hr : r = rest
      · subst hr
        simp
      · have hne : p ++ r ≠ p ++ rest := fun he => hr (List.append_cancel_left he)
        rw [Function.update_of_ne hr, Function.update_of_ne hne, lookup_short_append]

/-- Updating one child of a branch updates the keys that start with its
letter. -/
theorem lookup_branch_update {Ts : σ → Tree σ β} {X : Tree σ β} {a : σ} {rest : List σ}
    {v : Option β} (h : X.lookup = Function.update (Ts a).lookup rest v) :
    (branch (Function.update Ts a X)).lookup = Function.update (branch Ts).lookup (a :: rest) v := by
  funext key
  cases key with
  | nil => simp
  | cons b key =>
      by_cases hb : b = a
      · subst hb
        simp only [lookup_branch_cons, Function.update_self, h]
        by_cases hk : key = rest
        · subst hk
          simp
        · have hne : b :: key ≠ b :: rest := fun he => hk (List.cons.inj he).2
          rw [Function.update_of_ne hk, Function.update_of_ne hne, lookup_branch_cons]
      · have hne : b :: key ≠ a :: rest := fun he => hb (List.cons.inj he).1
        rw [Function.update_of_ne hne, lookup_branch_cons, lookup_branch_cons,
          Function.update_of_ne hb]

/-- The lookups of a `short` node depend on its child only through the
child's lookups. -/
theorem lookup_short_congr {X Y : Tree σ β} (p : List σ) (h : X.lookup = Y.lookup) :
    (short p X).lookup = (short p Y).lookup := by
  funext key
  simp only [lookup_short, h]

/-- A leaf holds one value, under the empty word. -/
theorem lookup_leaf (v : β) :
    (leaf v : Tree σ β).lookup = Function.update (fun _ => none) [] (some v) := by
  funext key
  cases key with
  | nil => simp
  | cons a key => rw [Function.update_of_ne (List.cons_ne_nil a key)]; rfl

/-- A branch with a single child is a `short` node of one letter. -/
theorem lookup_branch_single (a : σ) (X : Tree σ β) :
    (branch (Function.update (fun _ => nil) a X)).lookup = (short [a] X).lookup := by
  funext key
  cases key with
  | nil => rfl
  | cons b key =>
      by_cases hb : b = a
      · subst hb
        simpa using (lookup_short_append [b] key X).symm
      · rw [lookup_branch_cons, Function.update_of_ne hb, lookup_nil,
          lookup_short_eq_none X (by simp [Ne.symm hb])]

/-- The branch with the two children `X` under `a` and `Y` under `b` and
no other. -/
def pair (a : σ) (X : Tree σ β) (b : σ) (Y : Tree σ β) : Tree σ β :=
  branch (Function.update (Function.update (fun _ => nil) a X) b Y)

/-- A pair whose second child holds one value: the first child behind its
letter, and the value behind the other letter. -/
theorem lookup_pair {a b : σ} (hab : a ≠ b) (X : Tree σ β) {Y : Tree σ β} {rest : List σ} {v : β}
    (hY : Y.lookup = Function.update (fun _ => none) rest (some v)) :
    (pair a X b Y).lookup = Function.update (short [a] X).lookup (b :: rest) (some v) := by
  have hb : Y.lookup = Function.update (Function.update (fun _ => nil) a X b).lookup rest (some v) := by
    rw [Function.update_of_ne (Ne.symm hab)]
    exact hY
  rw [pair, lookup_branch_update hb, lookup_branch_single]

/-! ## Canonical form -/

/-- A canonical non-empty tree: segments are non-empty, no `short` node has a
`short` child, and every branch has at least two non-empty children, each of
them canonical. The empty tree is canonical only as a whole map
(`RootCanonical`). -/
inductive Canonical : Tree σ β → Prop
  | leaf (v : β) : Canonical (leaf v)
  | short {k : List σ} {c : Tree σ β} (hk : k ≠ []) (hc : Canonical c)
      (hchild : ∀ k' c', c ≠ short k' c') : Canonical (short k c)
  | branch {cs : σ → Tree σ β} (hcs : ∀ a, cs a ≠ nil → Canonical (cs a))
      (htwo : ∃ a b, a ≠ b ∧ cs a ≠ nil ∧ cs b ≠ nil) : Canonical (branch cs)

/-- The canonical trees together with the empty tree: the representations of
whole maps. -/
def RootCanonical (t : Tree σ β) : Prop := t = nil ∨ Canonical t

omit [DecidableEq σ] in
theorem Canonical.ne_nil {t : Tree σ β} (h : Canonical t) : t ≠ nil := by
  cases h <;> simp

/-- A canonical tree holds at least one value. -/
theorem Canonical.exists_lookup {t : Tree σ β} (h : Canonical t) :
    ∃ key v, t.lookup key = some v := by
  induction h with
  | leaf v => exact ⟨[], v, rfl⟩
  | @short k c _ _ _ ih =>
      obtain ⟨key, v, hv⟩ := ih
      exact ⟨k ++ key, v, by simpa using hv⟩
  | @branch cs _ htwo ih =>
      obtain ⟨a, _, _, ha, _⟩ := htwo
      obtain ⟨key, v, hv⟩ := ih a ha
      exact ⟨a :: key, v, hv⟩

/-- A branch holds values under two keys that differ in their first letter. -/
theorem Canonical.branch_two_keys {cs : σ → Tree σ β} (h : Canonical (Tree.branch cs)) :
    ∃ a b ka kb va vb, a ≠ b ∧ (Tree.branch cs).lookup (a :: ka) = some va ∧
      (Tree.branch cs).lookup (b :: kb) = some vb := by
  cases h with
  | branch hcs htwo =>
      obtain ⟨a, b, hab, ha, hb⟩ := htwo
      obtain ⟨ka, va, hka⟩ := (hcs a ha).exists_lookup
      obtain ⟨kb, vb, hkb⟩ := (hcs b hb).exists_lookup
      exact ⟨a, b, ka, kb, va, vb, hab, hka, hkb⟩

omit [DecidableEq σ] in
/-- Two words that extend `k` by different letters share no prefix longer
than `k`. -/
private theorem prefix_of_two_extensions {p k ka kb : List σ} {a b : σ} (hab : a ≠ b)
    (ha : p <+: k ++ a :: ka) (hb : p <+: k ++ b :: kb) : p <+: k := by
  by_cases hlen : p.length ≤ k.length
  · exact List.prefix_of_prefix_length_le ha (List.prefix_append k _) hlen
  · exfalso
    have hlen_a : (k ++ [a]).length ≤ p.length := by simp; omega
    have hlen_b : (k ++ [b]).length ≤ p.length := by simp; omega
    have hka : k ++ [a] <+: p :=
      List.prefix_of_prefix_length_le (List.prefix_append (k ++ [a]) ka) (by simpa using ha) hlen_a
    have hkb : k ++ [b] <+: p :=
      List.prefix_of_prefix_length_le (List.prefix_append (k ++ [b]) kb) (by simpa using hb) hlen_b
    obtain hab' | hba := List.prefix_or_prefix_of_prefix hka hkb
    · have : a = b := by simpa using hab'
      exact hab this
    · have : b = a := by simpa using hba
      exact hab this.symm

/-- The segment of a canonical `short` node is the longest common prefix of
the keys it holds: any prefix shared by all of them is a prefix of the
segment. -/
theorem Canonical.prefix_of_forall {k p : List σ} {c : Tree σ β} (h : Canonical (Tree.short k c))
    (hp : ∀ key v, (Tree.short k c).lookup key = some v → p <+: key) : p <+: k := by
  cases h with
  | short _ hc hchild =>
      cases hc with
      | leaf v => exact hp k v (by simpa using lookup_short_append k [] (Tree.leaf v))
      | short _ _ _ => exact absurd rfl (hchild _ _)
      | branch hcs htwo =>
          obtain ⟨a, b, ka, kb, va, vb, hab, hka, hkb⟩ :=
            (Canonical.branch hcs htwo).branch_two_keys
          have ha := hp (k ++ a :: ka) va (by simpa using hka)
          have hb := hp (k ++ b :: kb) vb (by simpa using hkb)
          exact prefix_of_two_extensions hab ha hb

/-- Every key a `short` node holds starts with the first letter of its
segment. -/
private theorem head_of_short_lookup {a : σ} {k key : List σ} {c : Tree σ β} {v : β}
    (h : (short (a :: k) c).lookup key = some v) : ∃ rest, key = a :: rest := by
  obtain ⟨rest, rfl, _⟩ := lookup_short_eq_some h
  exact ⟨k ++ rest, rfl⟩

/-- A canonical `short` node and a canonical branch never hold the same map. -/
private theorem short_lookup_ne_branch {k : List σ} {c : Tree σ β} {cs : σ → Tree σ β}
    (hs : Canonical (short k c)) (hb : Canonical (branch cs)) :
    (short k c).lookup ≠ (branch cs).lookup := by
  intro heq
  obtain ⟨a, b, ka, kb, va, vb, hab, hka, hkb⟩ := hb.branch_two_keys
  cases hs with
  | short hk _ _ =>
      cases k with
      | nil => exact hk rfl
      | cons x k =>
          obtain ⟨_, hxa⟩ := head_of_short_lookup (heq ▸ hka : (short (x :: k) c).lookup _ = _)
          obtain ⟨_, hxb⟩ := head_of_short_lookup (heq ▸ hkb : (short (x :: k) c).lookup _ = _)
          simp only [List.cons.injEq] at hxa hxb
          exact hab (hxa.1.trans hxb.1.symm)

/-- **Uniqueness of canonical form.** Two canonical trees that hold the same
value under every key are equal.

Each segment is a prefix of every key the other node holds. -/
theorem Canonical.eq_of_lookup_eq {t₁ : Tree σ β} (h₁ : Canonical t₁) :
    ∀ {t₂ : Tree σ β}, Canonical t₂ → t₁.lookup = t₂.lookup → t₁ = t₂ := by
  induction h₁ with
  | leaf v =>
      intro t₂ h₂ heq
      have hnil := congrFun heq []
      cases h₂ with
      | leaf v' => simp only [lookup_leaf_nil, Option.some.injEq] at hnil; rw [hnil]
      | short hk _ _ => simp [lookup_short_nil _ hk] at hnil
      | branch _ _ => simp at hnil
  | @short k c hk hc hchild ih =>
      intro t₂ h₂ heq
      cases h₂ with
      | leaf v' =>
          have hnil := congrFun heq []
          simp [lookup_short_nil _ hk] at hnil
      | @short k' c' hk' hc' hchild' =>
          have hs : Canonical (Tree.short k c) := .short hk hc hchild
          have hs' : Canonical (Tree.short k' c') := .short hk' hc' hchild'
          have hkk' : k <+: k' := hs'.prefix_of_forall fun key v hv => by
            obtain ⟨rest, rfl, _⟩ :=
              lookup_short_eq_some (heq ▸ hv : (Tree.short k c).lookup key = _)
            exact List.prefix_append k rest
          have hk'k : k' <+: k := hs.prefix_of_forall fun key v hv => by
            obtain ⟨rest, rfl, _⟩ :=
              lookup_short_eq_some (heq.symm ▸ hv : (Tree.short k' c').lookup key = _)
            exact List.prefix_append k' rest
          have hkeq : k = k' := List.IsPrefix.eq_of_length hkk' (Nat.le_antisymm hkk'.length_le hk'k.length_le)
          subst hkeq
          have hc_eq : c.lookup = c'.lookup := funext fun rest => by
            simpa using congrFun heq (k ++ rest)
          rw [ih hc' hc_eq]
      | branch hcs' htwo' =>
          exact absurd heq (short_lookup_ne_branch (.short hk hc hchild) (.branch hcs' htwo'))
  | @branch cs hcs htwo ih =>
      intro t₂ h₂ heq
      cases h₂ with
      | leaf v' =>
          have hnil := congrFun heq []
          simp at hnil
      | short hk' hc' hchild' =>
          exact absurd heq.symm (short_lookup_ne_branch (.short hk' hc' hchild') (.branch hcs htwo))
      | @branch cs' hcs' _ =>
          congr 1
          funext a
          have ha : (cs a).lookup = (cs' a).lookup := funext fun key => congrFun heq (a :: key)
          by_cases hnil : cs a = nil
          · by_cases hnil' : cs' a = nil
            · rw [hnil, hnil']
            · obtain ⟨key, v, hv⟩ := (hcs' a hnil').exists_lookup
              have := congrFun ha key
              rw [hnil, hv] at this
              simp at this
          · by_cases hnil' : cs' a = nil
            · obtain ⟨key, v, hv⟩ := (hcs a hnil).exists_lookup
              have := congrFun ha key
              rw [hnil', hv] at this
              simp at this
            · exact ih a hnil (hcs' a hnil') ha

/-- A canonical tree holding only the empty key is a leaf. -/
theorem Canonical.eq_leaf_of_keys {T : Tree σ β} (hT : Canonical T)
    (hkeys : ∀ r v, T.lookup r = some v → r = []) : ∃ w, T = Tree.leaf w := by
  cases hT with
  | leaf w => exact ⟨w, rfl⟩
  | short hk hc hchild =>
      obtain ⟨r, v, hv⟩ := (Canonical.short hk hc hchild).exists_lookup
      obtain ⟨rest, rfl, _⟩ := lookup_short_eq_some hv
      exact absurd (List.append_eq_nil_iff.1 (hkeys _ _ hv)).1 hk
  | branch hcs htwo =>
      obtain ⟨a, _, ka, _, va, _, _, hka, _⟩ := (Canonical.branch hcs htwo).branch_two_keys
      exact absurd (hkeys _ _ hka) (by simp)

/-- Replacing one child of a canonical branch by a canonical tree keeps the
branch canonical: the new child is non-empty, so two children remain. -/
theorem Canonical.branch_update {Ts : σ → Tree σ β} (h : Canonical (Tree.branch Ts)) (a : σ)
    {X : Tree σ β} (hX : Canonical X) : Canonical (Tree.branch (Function.update Ts a X)) := by
  cases h with
  | branch hcs htwo =>
      refine .branch (fun b hb => ?_) ?_
      · by_cases hba : b = a
        · subst hba
          simpa using hX
        · rw [Function.update_of_ne hba] at hb ⊢
          exact hcs b hb
      · obtain ⟨a₁, a₂, h₁₂, h₁, h₂⟩ := htwo
        by_cases ha : a = a₁
        · subst ha
          refine ⟨a, a₂, h₁₂, by simpa using hX.ne_nil, ?_⟩
          rwa [Function.update_of_ne (Ne.symm h₁₂)]
        · refine ⟨a₁, a, Ne.symm ha, ?_, by simpa using hX.ne_nil⟩
          rwa [Function.update_of_ne (Ne.symm ha)]

/-- Two canonical children under different letters make a canonical
branch. -/
theorem Canonical.pair {a b : σ} (hab : a ≠ b) {X Y : Tree σ β} (hX : Canonical X)
    (hY : Canonical Y) : Canonical (Tree.pair a X b Y) := by
  refine .branch (fun c hc => ?_) ⟨a, b, hab, ?_, ?_⟩
  · by_cases hcb : c = b
    · subst hcb
      simpa using hY
    · rw [Function.update_of_ne hcb] at hc ⊢
      by_cases hca : c = a
      · subst hca
        simpa using hX
      · rw [Function.update_of_ne hca] at hc
        exact absurd rfl hc
  · rw [Function.update_of_ne hab, Function.update_self]
    exact hX.ne_nil
  · rw [Function.update_self]
    exact hY.ne_nil

/-- Removing one key from a canonical branch leaves another key: the branch
holds keys under two different letters. -/
theorem Canonical.exists_lookup_erase {cs : σ → Tree σ β} (h : Canonical (Tree.branch cs))
    {T : Tree σ β} {key : List σ} (hT : T.lookup = Function.update (Tree.branch cs).lookup key none) :
    ∃ k v, T.lookup k = some v := by
  obtain ⟨a, b, ka, kb, va, vb, hab, ha, hb⟩ := h.branch_two_keys
  by_cases hk : key = a :: ka
  · have hne : b :: kb ≠ key := fun he => hab (List.cons.inj (he.trans hk)).1.symm
    exact ⟨b :: kb, vb, by rw [hT, Function.update_of_ne hne, hb]⟩
  · exact ⟨a :: ka, va, by rw [hT, Function.update_of_ne (Ne.symm hk), ha]⟩

/-- Uniqueness for whole maps: the empty tree is the only root-canonical tree
holding nothing. -/
theorem RootCanonical.eq_of_lookup_eq {t₁ t₂ : Tree σ β} (h₁ : RootCanonical t₁)
    (h₂ : RootCanonical t₂) (heq : t₁.lookup = t₂.lookup) : t₁ = t₂ := by
  rcases h₁ with rfl | h₁ <;> rcases h₂ with rfl | h₂
  · rfl
  · obtain ⟨key, v, hv⟩ := h₂.exists_lookup
    have := congrFun heq key
    rw [hv] at this
    simp at this
  · obtain ⟨key, v, hv⟩ := h₁.exists_lookup
    have := congrFun heq key
    rw [hv] at this
    simp at this
  · exact h₁.eq_of_lookup_eq h₂ heq

end Tree

end Lemochain.Radix
