import Lemochain.Trie.Shape

/-!
# `Trie.insert` updates the map and keeps canonical form

Below the root every subtree is an `InnerShape`: empty or canonical, holding
only value keys. `insert_inner` shows that `Trie.insert`, started on a node
expanding to such a subtree with a value key and enough fuel, succeeds and
returns a node that expands to an inner subtree holding the new value under
the key and nothing else changed. A clean return (`dirty = false`) means the
value was already stored, which is what lets every caller keep its original
node in that case.

The proof follows the cases of the source: the empty node, a hash node
(loaded, then the same key again), a short node whose segment the key
matches (an extension over a branch, or a leaf whose value is replaced), a
short node the key leaves early (the new branch), and a full node (one child
updated). Each case is a lemma that takes the induction hypothesis on the
remaining fuel.
-/

namespace Lemochain.Trie

open Lemochain.Radix

variable {t : Trie} {P : FlagPred} {resolveHash : Resolver} {top : Bool}

/-- What `insert` delivers below the root: the returned node expands to an
inner subtree holding `v` under `key` and everything else unchanged; a clean
return means the value was already there; a branch stays a branch. -/
def InsertOk (P : FlagPred) (resolveHash : Resolver) (top : Bool) (T : Shape) (key : Hex)
    (v : Bytes) (r : Except TrieError (Bool × Node)) : Prop :=
  ∃ d n' T', r = .ok (d, n') ∧ Expands P resolveHash top n' T' ∧ InnerShape T' ∧
    T'.lookup = Function.update T.lookup key (some v) ∧ (d = false → T.lookup key = some v) ∧
    ((∃ Ts, T = .branch Ts) → ∃ Ts', T' = .branch Ts')

/-- A clean return of the original node satisfies the contract when the
value is already stored. -/
theorem InsertOk.unchanged {n : Node} {T : Shape} {key : Hex} {v : Bytes}
    (hexp : Expands P resolveHash top n T) (hT : InnerShape T) (hv : T.lookup key = some v) :
    InsertOk P resolveHash top T key v (.ok (false, n)) :=
  ⟨false, n, T, rfl, hexp, hT, by rw [← hv, Function.update_eq_self], fun _ => hv,
    fun hbr => hbr⟩

/-- The induction hypothesis of `insert_inner` at the remaining fuel. -/
def InsertIH (t : Trie) (P : FlagPred) (resolveHash : Resolver) (fuel : Nat) : Prop :=
  ∀ (top : Bool) (n : Node) (T : Shape) (pre key : Hex) (v : Bytes),
    Expands P resolveHash top n T → InnerShape T → TermKey key → fuelNeed n key.length ≤ fuel →
    InsertOk P resolveHash top T key v (t.insert resolveHash fuel n pre key (.value v))

/-! ## Inserting at a value position -/

/-- Right after the terminator `insert` stores the new value node, and
reports a clean return only when the same bytes were already there. -/
theorem insert_value_pos (fuel : Nat) {n : Node} {T : Shape} (pre : Hex) (v : Bytes)
    (hexp : Expands P resolveHash top n T) :
    ∃ d, t.insert resolveHash (fuel + 1) n pre [] (.value v) = .ok (d, .value v) ∧
      (d = false → T = .leaf v) := by
  cases n with
  | value w =>
      refine ⟨w != v, rfl, fun hd => ?_⟩
      have hwv : w = v := by simpa using hd
      rw [hexp.value_inv, hwv]
  | nil => exact ⟨true, rfl, by simp⟩
  | full cs f => exact ⟨true, rfl, by simp⟩
  | short k c f => exact ⟨true, rfl, by simp⟩
  | hash h => exact ⟨true, rfl, by simp⟩

/-! ## The cases of `insert` below the root -/

/-- Inserting into the empty node creates a leaf holding the whole key. -/
theorem insert_nil_case (hnew : ∀ top T, P top t.newFlag T) (fuel : Nat) (pre : Hex) (k0 : Nibble)
    (krest : Hex) (v : Bytes) (hkey : TermKey (k0 :: krest)) :
    InsertOk P resolveHash top .nil (k0 :: krest) v
      (t.insert resolveHash (fuel + 1) .nil pre (k0 :: krest) (.value v)) := by
  have hlookup : (Radix.Tree.short (k0 :: krest) (.leaf v) : Shape).lookup =
      Function.update (Radix.Tree.nil : Shape).lookup (k0 :: krest) (some v) := by
    rw [Radix.Tree.lookup_short_leaf]
    rfl
  refine ⟨true, .short (k0 :: krest) (.value v) t.newFlag, .short (k0 :: krest) (.leaf v), rfl,
    .short _ (hnew top _) (.value v), ?_, hlookup, by simp, by simp⟩
  refine InnerShape.of_canonical (.short (by simp) (.leaf v) (by simp)) ?_
  exact KeysOk.nil.update hkey hlookup

/-- A hash node is loaded and the insertion runs on the loaded node.

The loaded node is short or full, so it needs one call less. -/
theorem insert_hash_case (fuel : Nat) {h : Bytes} {T : Shape} (pre : Hex) (k0 : Nibble) (krest : Hex)
    (v : Bytes) (hexp : Expands P resolveHash top (.hash h) T) (hT : InnerShape T)
    (hkey : TermKey (k0 :: krest)) (hfuel : fuelNeed (.hash h) (k0 :: krest).length ≤ fuel + 1)
    (ih : InsertIH t P resolveHash fuel) :
    InsertOk P resolveHash top T (k0 :: krest) v
      (t.insert resolveHash (fuel + 1) (.hash h) pre (k0 :: krest) (.value v)) := by
  obtain ⟨rn, hres, hsf, hrn⟩ := hexp.hash_inv
  have hfuel' : fuelNeed rn (k0 :: krest).length ≤ fuel := by
    cases rn <;> simp_all [fuelNeed, Node.isShortOrFull]
  obtain ⟨d, n', T', hins, hexp', hT', hlookup, hclean, hbranch⟩ :=
    ih top rn T pre (k0 :: krest) v hrn hT hkey hfuel'
  simp only [Trie.insert_hash_cons, hres, hins]
  cases d with
  | false => exact InsertOk.unchanged hrn hT (hclean rfl)
  | true => exact ⟨true, n', T', rfl, hexp', hT', hlookup, by simp, hbranch⟩

/-! ## Short nodes -/

/-- `insert` into the empty node: the value itself when the key is used up,
a leaf short node over it otherwise. -/
theorem insert_nil_node (fuel : Nat) (pre rest : Hex) (value : Node) :
    t.insert resolveHash (fuel + 1) .nil pre rest value =
      .ok (true, if rest = [] then value else .short rest value t.newFlag) := by
  cases rest <;> rfl

/-- The subtree `insert` builds below a new branch for what is left of a key:
the tree itself when nothing is left, a short node over it otherwise. -/
def segment (rest : Hex) (T : Shape) : Shape := if rest = [] then T else .short rest T

theorem segment_lookup (rest : Hex) (T : Shape) :
    (segment rest T).lookup = (Radix.Tree.short rest T).lookup := by
  unfold segment
  split
  · subst rest
    simp
  · rfl

theorem segment_canonical {rest : Hex} {T : Shape} (hT : T.Canonical)
    (hshort : ∀ k c, T ≠ .short k c) : (segment rest T).Canonical := by
  unfold segment
  split
  · exact hT
  · exact .short ‹_› hT hshort

/-- The node `insert` builds for a segment over `n`: `n` itself where it
stands when nothing is left, else a new short node with `n` below it. -/
theorem Expands.segment {n : Node} {T : Shape} (rest : Hex) (f : NodeFlag)
    (hf : P top f (.short rest T)) (h : Expands P resolveHash top n T)
    (hbelow : Expands P resolveHash false n T) :
    Expands P resolveHash top (if rest = [] then n else .short rest n f) (segment rest T) := by
  unfold Trie.segment
  split
  · exact h
  · exact .short f hf hbelow

/-- A key that leaves the segment of a short node early: `insert` puts a new
branch where the two keys differ, holding the old child on one side and the
new value on the other, below a short node for the common part if any.

Otherwise the whole key is a prefix of the segment. The two keys: a common
part, then the new nibble `i2` against the old `i1`. The subtrees below the
new branch. -/
theorem insert_split_case (hnew : ∀ top T, P top t.newFlag T) (fuel : Nat) {nk : Hex} {nv : Node}
    {nf : NodeFlag} {Tc : Shape} (pre : Hex) (k0 : Nibble) (krest : Hex) (v : Bytes)
    (hexpc : Expands P resolveHash false nv Tc) (hT : InnerShape (.short nk Tc))
    (hkey : TermKey (k0 :: krest)) (hm : prefixLen (k0 :: krest) nk ≠ nk.length) :
    InsertOk P resolveHash top (.short nk Tc) (k0 :: krest) v
      (t.insert resolveHash (fuel + 1 + 1) (.short nk nv nf) pre (k0 :: krest) (.value v)) := by
  obtain ⟨hnk, hcases⟩ := hT.short_cases
  obtain ⟨hcanc, hcshort⟩ : Tc.Canonical ∧ ∀ k c, Tc ≠ .short k c := by
    cases hT.canonical (by simp) with
    | short _ hc hchild => exact ⟨hc, hchild⟩
  rw [Trie.insert_short_cons]
  simp only [if_neg hm, insert_nil_node]
  generalize k0 :: krest = key at hkey hm ⊢
  have hmlt : prefixLen key nk < nk.length := Nat.lt_of_le_of_ne (prefixLen_le_right key nk) hm
  have hmkey : prefixLen key nk < key.length := by
    refine Nat.lt_of_le_of_ne (prefixLen_le_left key nk) fun heq => ?_
    have hpre : key <+: nk := by
      have h := prefixLen_take key nk
      rw [heq, List.take_length] at h
      rw [h]
      exact List.take_prefix _ _
    rcases hcases with ⟨hall, _⟩ | ⟨hterm, _⟩
    · exact hkey.not_all_lt fun n hn => hall n (hpre.subset hn)
    · exact hm (heq.trans (congrArg List.length (hkey.eq_of_prefixOf hterm hpre)))
  obtain ⟨p, i2, i1, r2, r1, hne, rfl, rfl, hplen⟩ := prefixLen_split hmkey hmlt
  rw [← hplen]
  simp only [List.getElem?_append_right (Nat.le_refl _), Nat.sub_self, List.getElem?_cons_zero,
    List.take_left, List.drop_append, List.drop_eq_nil_of_le (Nat.le_succ _),
    Nat.add_sub_cancel_left, List.drop_succ_cons, List.drop_zero, List.nil_append,
    List.length_eq_zero_iff]
  have hS1 : (segment r1 Tc).Canonical := segment_canonical hcanc hcshort
  have hS2 : (segment r2 (.leaf v)).Canonical := segment_canonical (.leaf v) (by simp)
  have hlookB : (Radix.Tree.pair i1 (segment r1 Tc) i2 (segment r2 (.leaf v))).lookup =
      Function.update (Radix.Tree.short [i1] (segment r1 Tc)).lookup (i2 :: r2) (some v) :=
    Radix.Tree.lookup_pair (Ne.symm hne) _ (by rw [segment_lookup, Radix.Tree.lookup_short_leaf])
  have hlook : (segment p (Radix.Tree.pair i1 (segment r1 Tc) i2 (segment r2 (.leaf v)))).lookup =
      Function.update (Radix.Tree.short (p ++ i1 :: r1) Tc).lookup (p ++ i2 :: r2) (some v) := by
    rw [segment_lookup, Radix.Tree.lookup_short_update p hlookB,
      Radix.Tree.lookup_short_congr p (Radix.Tree.lookup_short_congr [i1] (segment_lookup r1 Tc)),
      ← Radix.Tree.lookup_short_append_segment, ← Radix.Tree.lookup_short_append_segment]
    simp
  have hcan : (segment p (Radix.Tree.pair i1 (segment r1 Tc) i2 (segment r2 (.leaf v)))).Canonical :=
    segment_canonical (Radix.Tree.Canonical.pair (Ne.symm hne) hS1 hS2) (by simp [Radix.Tree.pair])
  have hexpB := Expands.update (Expands.update Expands.emptyChildren
    i1 (Expands.segment r1 t.newFlag (hnew false _) hexpc hexpc)) i2
    (Expands.segment r2 t.newFlag (hnew false _) (.value v) (.value v))
  exact ⟨true, _, _, by split <;> rfl, Expands.segment p t.newFlag (hnew top _)
    (.full t.newFlag (hnew top _) hexpB) (.full t.newFlag (hnew false _) hexpB),
    .of_canonical hcan (hT.2.update hkey hlook), hlook, by simp, by simp⟩

/-- A key that runs through the whole segment of a short node: below an
extension the insertion goes on in the child; at a leaf the value is
replaced.

The key is the segment followed by the rest. An extension: the rest is a
value key inserted into the branch below. A leaf: the key is the segment
itself and the value is replaced. -/
theorem insert_match_case (hnew : ∀ top T, P top t.newFlag T) (fuel : Nat) {nk : Hex} {nv : Node}
    {nf : NodeFlag} {Tc : Shape} (pre : Hex) (k0 : Nibble) (krest : Hex) (v : Bytes)
    (hf : P top nf (.short nk Tc)) (hexpc : Expands P resolveHash false nv Tc)
    (hT : InnerShape (.short nk Tc)) (hkey : TermKey (k0 :: krest))
    (hm : prefixLen (k0 :: krest) nk = nk.length) (hfuel : 2 * (k0 :: krest).length + 1 ≤ fuel + 1)
    (ih : InsertIH t P resolveHash fuel) :
    InsertOk P resolveHash top (.short nk Tc) (k0 :: krest) v
      (t.insert resolveHash (fuel + 1) (.short nk nv nf) pre (k0 :: krest) (.value v)) := by
  obtain ⟨hnk, hcases⟩ := hT.short_cases
  rw [Trie.insert_short_cons]
  simp only [hm]
  generalize k0 :: krest = key at hkey hm hfuel ⊢
  have htake : key.take nk.length = nk := by
    have h := prefixLen_take key nk
    rwa [hm, List.take_length] at h
  obtain ⟨rest, rfl⟩ : ∃ rest, key = nk ++ rest :=
    ⟨key.drop nk.length, (List.take_append_drop nk.length key).symm.trans (by rw [htake])⟩
  simp only [List.take_left, List.drop_left]
  have hlen : (nk ++ rest).length = nk.length + rest.length := List.length_append
  have hnklen : 0 < nk.length := List.length_pos_iff.2 hnk
  rcases hcases with ⟨hall, ⟨Ts, rfl⟩, hTc⟩ | ⟨hterm, w, rfl⟩
  · have hrest : TermKey rest := by
      rcases hkey.append_cases with ⟨_, hr⟩ | ⟨hterm, _⟩
      · exact hr
      · exact absurd hall hterm.not_all_lt
    have hfuel' : fuelNeed nv rest.length ≤ fuel := by
      have := fuelNeed_le nv rest.length
      omega
    obtain ⟨d, n', T', hins, hexp', hT', hlookup, hclean, hbranch⟩ :=
      ih false nv (.branch Ts) (pre ++ nk) rest v hexpc hTc hrest hfuel'
    rw [hins]
    cases d with
    | false =>
        refine InsertOk.unchanged (.short nf hf hexpc) hT ?_
        rw [Radix.Tree.lookup_short_append]
        exact hclean rfl
    | true =>
        obtain ⟨Ts', rfl⟩ := hbranch ⟨Ts, rfl⟩
        have hlook := Radix.Tree.lookup_short_update nk hlookup
        exact ⟨true, _, _, rfl, .short _ (hnew top _) hexp',
          .of_canonical (.short hnk (hT'.canonical (by simp)) (by simp)) (hT.2.update hkey hlook),
          hlook, by simp, by simp⟩
  · obtain rfl : rest = [] := by
      simpa using hterm.eq_of_prefixOf hkey (List.prefix_append nk rest)
    obtain ⟨f, rfl⟩ : ∃ f, fuel = f + 1 := ⟨fuel - 1, by omega⟩
    obtain ⟨d, hins, hclean⟩ := insert_value_pos f (pre ++ nk) v hexpc
    rw [hins]
    cases d with
    | false =>
        refine InsertOk.unchanged (.short nf hf hexpc) hT ?_
        rw [Radix.Tree.lookup_short_append, hclean rfl]
        rfl
    | true =>
        have hlook : (Radix.Tree.short nk (.leaf v) : Shape).lookup =
            Function.update (Radix.Tree.short nk (.leaf w)).lookup (nk ++ []) (some v) := by
          rw [List.append_nil, Radix.Tree.lookup_short_leaf, Radix.Tree.lookup_short_leaf, Function.update_idem]
        exact ⟨true, _, _, rfl, .short _ (hnew top _) (.value v),
          .of_canonical (.short hnk (.leaf v) (by simp)) (hT.2.update hkey hlook),
          hlook, by simp, by simp⟩

/-! ## Full nodes -/

/-- A full node: the insertion goes on in the child the first nibble
selects, and the terminator child takes the value itself.

The selected child after the insertion, with what the branch needs of it. A
nibble: the child is an inner subtree. The terminator: the child becomes the
value. -/
theorem insert_full_case (hnew : ∀ top T, P top t.newFlag T) (fuel : Nat) {cs : Fin 17 → Node}
    {nf : NodeFlag} {T : Shape} (pre : Hex) (k0 : Nibble) (krest : Hex) (v : Bytes)
    (hexp : Expands P resolveHash top (.full cs nf) T) (hT : InnerShape T)
    (hkey : TermKey (k0 :: krest)) (hfuel : 2 * (k0 :: krest).length + 1 ≤ fuel + 1)
    (ih : InsertIH t P resolveHash fuel) :
    InsertOk P resolveHash top T (k0 :: krest) v
      (t.insert resolveHash (fuel + 1) (.full cs nf) pre (k0 :: krest) (.value v)) := by
  obtain ⟨Ts, rfl, hf, hcs⟩ := hexp.full_inv
  obtain ⟨hcan, hinner, hval⟩ := hT.branch_cases
  have hlen : (k0 :: krest).length = krest.length + 1 := rfl
  obtain ⟨d, n', T', hins, hexp', hcan', hlook', hclean⟩ :
      ∃ d n' T', t.insert resolveHash fuel (cs k0) (pre ++ [k0]) krest (.value v) = .ok (d, n') ∧
        Expands P resolveHash false n' T' ∧ T'.Canonical ∧
        T'.lookup = Function.update (Ts k0).lookup krest (some v) ∧
        (d = false → (Ts k0).lookup krest = some v) := by
    rcases hkey.tail with ⟨hk0, hkrest⟩ | ⟨rfl, rfl⟩
    · have hk0' : k0 ≠ terminator := fun h => absurd hk0 (by rw [h]; decide)
      have hfuel' : fuelNeed (cs k0) krest.length ≤ fuel := by
        have := fuelNeed_le (cs k0) krest.length
        omega
      obtain ⟨d, n', T', hins, hexp', hT', hlook', hclean, -⟩ :=
        ih false (cs k0) (Ts k0) (pre ++ [k0]) krest v (hcs k0) (hinner k0 hk0') hkrest hfuel'
      have hne : T' ≠ .nil := fun h => by simpa [h] using congrFun hlook' krest
      exact ⟨d, n', T', hins, hexp', hT'.canonical hne, hlook', hclean⟩
    · obtain ⟨f, rfl⟩ : ∃ f, fuel = f + 1 := ⟨fuel - 1, by omega⟩
      obtain ⟨d, hins, hclean⟩ := insert_value_pos f (pre ++ [terminator]) v (hcs terminator)
      refine ⟨d, .value v, .leaf v, hins, .value v, .leaf v, ?_, fun hd => by rw [hclean hd]; rfl⟩
      rcases hval with h | ⟨w, h⟩
      · rw [h, Radix.Tree.lookup_leaf]
        rfl
      · rw [h, Radix.Tree.lookup_leaf, Radix.Tree.lookup_leaf, Function.update_idem]
  simp only [Trie.insert_full_cons, hins]
  cases d with
  | false => exact InsertOk.unchanged (.full nf hf hcs) hT (hclean rfl)
  | true =>
      have hlook := Radix.Tree.lookup_branch_update hlook'
      exact ⟨true, _, _, rfl, .full _ (hnew top _) (Expands.update hcs k0 hexp'),
        .of_canonical (hcan.branch_update k0 hcan') (hT.2.update hkey hlook), hlook, by simp,
        fun _ => ⟨_, rfl⟩⟩

/-! ## The induction -/

/-- `insert` below the root: on a node that expands to an inner subtree,
with a value key and enough fuel, it succeeds and stores the value. The
induction is on the fuel; each case of the source is one lemma above.

The two new children need one call each. -/
theorem insert_inner (hnew : ∀ top T, P top t.newFlag T) (fuel : Nat) :
    InsertIH t P resolveHash fuel := by
  induction fuel with
  | zero =>
      intro top n T pre key v _ _ _ hfuel
      exact absurd hfuel (Nat.not_le.2 (fuelNeed_pos n key.length))
  | succ fuel ih =>
      intro top n T pre key v hexp hT hkey hfuel
      obtain ⟨k0, krest, rfl⟩ := List.exists_cons_of_ne_nil hkey.ne_nil
      cases n with
      | nil =>
          rw [hexp.nil_inv]
          exact insert_nil_case hnew fuel pre k0 krest v hkey
      | value w => exact absurd hexp.value_inv (hT.ne_leaf w)
      | hash h => exact insert_hash_case fuel pre k0 krest v hexp hT hkey hfuel ih
      | full cs f => exact insert_full_case hnew fuel pre k0 krest v hexp hT hkey hfuel ih
      | short nk nv f =>
          obtain ⟨Tc, rfl, hf, hexpc⟩ := hexp.short_inv
          by_cases hm : prefixLen (k0 :: krest) nk = nk.length
          · exact insert_match_case hnew fuel pre k0 krest v hf hexpc hT hkey hm hfuel ih
          · obtain ⟨f', rfl⟩ : ∃ f', fuel = f' + 1 := by
              refine ⟨fuel - 1, ?_⟩
              simp only [fuelNeed, List.length_cons] at hfuel
              omega
            exact insert_split_case hnew f' pre k0 krest v hexpc hT hkey hm

end Lemochain.Trie
