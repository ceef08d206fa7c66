import Mathlib.Data.List.Nodup
import Lemochain.Trie.InsertSpec

/-!
# `Trie.delete` removes the key and restores canonical form

The counterpart of `insert_inner`: `delete_inner` shows that `Trie.delete`,
started below the root on a node that expands to an inner subtree with a
value key and enough fuel, succeeds and returns a node that expands to an
inner subtree holding everything but the key. A dirty result is never a hash
node, which is what lets the callers look at its kind to merge short nodes.

The delicate cases are the ones the source reduces on the way up:

* a short node whose child comes back as a short node: the two segments are
  joined (`concat`);
* a full node left with a single child: it becomes a short node of one
  nibble, joined with the child when the child, loaded if it is a hash node,
  is itself a short node.

The children that remain after a deletion are counted by the `pos` loop of
the source, `remainingPos`, whose result is characterised first.
-/

namespace Lemochain.Trie

open Lemochain.Radix

/-! ## The `pos` loop -/

/-- What the `pos` loop reports for the list of non-nil children it meets. -/
def classify : List (Fin 17) → ChildCount
  | [] => .zero
  | [i] => .one i
  | _ :: _ :: _ => .many

/-- The loop from any start: the non-nil children it meets decide the result. -/
private theorem remainingPos_foldl (cs : Fin 17 → Node) (l : List (Fin 17)) (pos : ChildCount) :
    l.foldl (fun pos i => if (cs i).isNil then pos else pos.push i) pos =
      match pos, l.filter (fun i => !(cs i).isNil) with
      | pos, [] => pos
      | .zero, [i] => .one i
      | _, _ => .many := by
  induction l generalizing pos with
  | nil => cases pos <;> rfl
  | cons a l ih =>
      rw [List.foldl_cons, ih, List.filter_cons]
      cases ha : (cs a).isNil with
      | true => simp
      | false => cases pos <;> cases l.filter (fun i => !(cs i).isNil) <;> simp [ChildCount.push]

theorem remainingPos_eq (cs : Fin 17 → Node) :
    remainingPos cs = classify ((List.finRange 17).filter fun i => !(cs i).isNil) := by
  rw [remainingPos, remainingPos_foldl]
  cases (List.finRange 17).filter (fun i => !(cs i).isNil) with
  | nil => rfl
  | cons a l => cases l <;> rfl

private theorem mem_nonNil {cs : Fin 17 → Node} {i : Fin 17} :
    i ∈ (List.finRange 17).filter (fun i => !(cs i).isNil) ↔ cs i ≠ .nil := by
  rw [Ne, ← Node.isNil_eq_true]
  simp [List.mem_filter]

theorem remainingPos_zero {cs : Fin 17 → Node} (h : remainingPos cs = .zero) : ∀ j, cs j = .nil := by
  intro j
  by_contra hj
  rw [remainingPos_eq] at h
  have hmem := mem_nonNil.2 hj
  cases hl : (List.finRange 17).filter (fun i => !(cs i).isNil) with
  | nil => rw [hl] at hmem; simp at hmem
  | cons a l => rw [hl] at h; cases l <;> simp [classify] at h

theorem remainingPos_one {cs : Fin 17 → Node} {pos : Fin 17} (h : remainingPos cs = .one pos) :
    cs pos ≠ .nil ∧ ∀ j, j ≠ pos → cs j = .nil := by
  rw [remainingPos_eq] at h
  have hl : (List.finRange 17).filter (fun i => !(cs i).isNil) = [pos] := by
    cases hl : (List.finRange 17).filter (fun i => !(cs i).isNil) with
    | nil => rw [hl] at h; simp [classify] at h
    | cons a l =>
        rw [hl] at h
        cases l with
        | nil => simp only [classify, ChildCount.one.injEq] at h; rw [h]
        | cons b l => simp [classify] at h
  refine ⟨mem_nonNil.1 (by rw [hl]; simp), fun j hj => ?_⟩
  by_contra hnil
  have hmem := mem_nonNil.2 hnil
  rw [hl, List.mem_singleton] at hmem
  exact hj hmem

theorem remainingPos_many {cs : Fin 17 → Node} (h : remainingPos cs = .many) :
    ∃ a b, a ≠ b ∧ cs a ≠ .nil ∧ cs b ≠ .nil := by
  rw [remainingPos_eq] at h
  have hnodup : ((List.finRange 17).filter fun i => !(cs i).isNil).Nodup :=
    (List.nodup_finRange 17).filter _
  cases hl : (List.finRange 17).filter (fun i => !(cs i).isNil) with
  | nil => rw [hl] at h; simp [classify] at h
  | cons a l =>
      cases l with
      | nil => rw [hl] at h; simp [classify] at h
      | cons b l =>
          rw [hl, List.nodup_cons] at hnodup
          have hab : a ≠ b := fun he => hnodup.1 (by simp [he])
          exact ⟨a, b, hab, mem_nonNil.1 (by rw [hl]; simp), mem_nonNil.1 (by rw [hl]; simp)⟩

/-! ## The contract -/

variable {t : Trie} {P : FlagPred} {resolveHash : Resolver} {top : Bool}

/-- What `delete` delivers below the root: the returned node expands to an
inner subtree holding everything but `key`; a clean return means the key was
absent; a dirty result is no hash node. -/
def DeleteOk (P : FlagPred) (resolveHash : Resolver) (top : Bool) (T : Shape) (key : Hex)
    (r : Except TrieError (Bool × Node)) : Prop :=
  ∃ d n' T', r = .ok (d, n') ∧ Expands P resolveHash top n' T' ∧ InnerShape T' ∧
    T'.lookup = Function.update T.lookup key none ∧ (d = false → T.lookup key = none) ∧
    (d = true → ∀ x, n' ≠ .hash x)

theorem DeleteOk.unchanged {n : Node} {T : Shape} {key : Hex}
    (hexp : Expands P resolveHash top n T) (hT : InnerShape T) (hv : T.lookup key = none) :
    DeleteOk P resolveHash top T key (.ok (false, n)) :=
  ⟨false, n, T, rfl, hexp, hT, by rw [← hv, Function.update_eq_self], fun _ => hv, by simp⟩

/-- The induction hypothesis of `delete_inner` at the remaining fuel. -/
def DeleteIH (t : Trie) (P : FlagPred) (resolveHash : Resolver) (fuel : Nat) : Prop :=
  ∀ (top : Bool) (n : Node) (T : Shape) (pre key : Hex), Expands P resolveHash top n T →
    InnerShape T → TermKey key → fuelNeed n key.length ≤ fuel →
    DeleteOk P resolveHash top T key (t.delete resolveHash fuel n pre key)

/-- Right after the terminator `delete` removes the value, if any.

A loaded node is short or full and expands to no leaf. -/
theorem delete_value_pos (fuel : Nat) {n : Node} {T : Shape} (pre : Hex)
    (hexp : Expands P resolveHash top n T) (hT : ValueShape T) :
    ∃ d, t.delete resolveHash (fuel + 1) n pre [] = .ok (d, .nil) ∧ (d = false → T = .nil) := by
  rcases hT with rfl | ⟨w, rfl⟩
  · rw [hexp.eq_nil_of_nil]
    exact ⟨false, rfl, fun _ => rfl⟩
  · cases n with
    | value v => exact ⟨true, rfl, by simp⟩
    | nil => cases hexp
    | short k c f => cases hexp
    | full cs f => cases hexp
    | hash h =>
        obtain ⟨rn, -, hsf, hrn⟩ := hexp.hash_inv
        cases rn <;> simp [Node.isShortOrFull] at hsf <;> cases hrn

/-! ## The cases of `delete` below the root -/

theorem delete_nil_case (fuel : Nat) (pre key : Hex) :
    DeleteOk P resolveHash top .nil key (t.delete resolveHash (fuel + 1) .nil pre key) :=
  DeleteOk.unchanged .nil ⟨.inl rfl, KeysOk.nil⟩ rfl

/-- A hash node is loaded and the deletion runs on the loaded node. -/
theorem delete_hash_case (fuel : Nat) {h : Bytes} {T : Shape} (pre key : Hex)
    (hexp : Expands P resolveHash top (.hash h) T) (hT : InnerShape T) (hkey : TermKey key)
    (hfuel : fuelNeed (.hash h) key.length ≤ fuel + 1) (ih : DeleteIH t P resolveHash fuel) :
    DeleteOk P resolveHash top T key (t.delete resolveHash (fuel + 1) (.hash h) pre key) := by
  obtain ⟨rn, hres, hsf, hrn⟩ := hexp.hash_inv
  have hfuel' : fuelNeed rn key.length ≤ fuel := by
    cases rn <;> simp_all [fuelNeed, Node.isShortOrFull]
  obtain ⟨d, n', T', hdel, hexp', hT', hlookup, hclean, hnohash⟩ := ih top rn T pre key hrn hT hkey hfuel'
  simp only [Trie.delete, hres, hdel]
  cases d with
  | false => exact DeleteOk.unchanged hrn hT (hclean rfl)
  | true => exact ⟨true, n', T', rfl, hexp', hT', hlookup, by simp, hnohash⟩

/-- A short node: a key that leaves the segment is absent; a key that is the
segment removes the leaf; otherwise the deletion goes on in the child, and a
child that comes back as a short node is joined to the segment.

The key leaves the segment: it is not in the trie. The key is the segment
itself: the node is a leaf and goes. Below a leaf the key could not go on,
so the node is an extension. The branch below keeps a key, so the child is a
canonical non-leaf. Join the two segments. -/
theorem delete_short_case (hnew : ∀ top T, P top t.newFlag T) (fuel : Nat) {nk : Hex} {nv : Node}
    {nf : NodeFlag} {Tc : Shape} (pre key : Hex) (hf : P top nf (.short nk Tc))
    (hexpc : Expands P resolveHash false nv Tc) (hT : InnerShape (.short nk Tc))
    (hkey : TermKey key) (hfuel : 2 * key.length + 1 ≤ fuel + 1)
    (ih : DeleteIH t P resolveHash fuel) :
    DeleteOk P resolveHash top (.short nk Tc) key
      (t.delete resolveHash (fuel + 1) (.short nk nv nf) pre key) := by
  obtain ⟨hnk, hcases⟩ := hT.short_cases
  have hexp : Expands P resolveHash top (.short nk nv nf) (.short nk Tc) := .short nf hf hexpc
  simp only [Trie.delete]
  by_cases hlt : prefixLen key nk < nk.length
  · rw [if_pos hlt]
    refine DeleteOk.unchanged hexp hT (Radix.Tree.lookup_short_eq_none Tc fun ⟨rest, hrest⟩ => ?_)
    rw [← hrest, prefixLen_append] at hlt
    exact Nat.lt_irrefl _ hlt
  rw [if_neg hlt]
  have hm : prefixLen key nk = nk.length :=
    Nat.le_antisymm (prefixLen_le_right key nk) (Nat.not_lt.1 hlt)
  have htake : key.take nk.length = nk := by
    have h := prefixLen_take key nk
    rwa [hm, List.take_length] at h
  obtain ⟨rest, rfl⟩ : ∃ rest, key = nk ++ rest :=
    ⟨key.drop nk.length, (List.take_append_drop nk.length key).symm.trans (by rw [htake])⟩
  rw [hm, List.length_append]
  by_cases hrest : rest = []
  · subst hrest
    rw [if_pos (by simp)]
    rcases hcases with ⟨hall, -, -⟩ | ⟨hterm, w, rfl⟩
    · exact absurd (by simpa using hall) hkey.not_all_lt
    · have hlook : (Radix.Tree.nil : Shape).lookup =
          Function.update (Radix.Tree.short nk (.leaf w)).lookup (nk ++ []) none := by
        rw [List.append_nil, Radix.Tree.lookup_short_leaf, Function.update_idem]
        funext k
        simp [Function.update_apply]
      exact ⟨true, .nil, .nil, rfl, .nil, ⟨.inl rfl, KeysOk.nil⟩, hlook, by simp, by simp⟩
  rw [if_neg (by simpa using hrest)]
  simp only [List.take_left, List.drop_left]
  rcases hcases with ⟨hall, ⟨Ts, rfl⟩, hTc⟩ | ⟨hterm, w, rfl⟩
  swap
  · exact absurd (by simpa using hterm.eq_of_prefixOf hkey (List.prefix_append nk rest)) hrest
  have hrk : TermKey rest := by
    rcases hkey.append_cases with ⟨_, hr⟩ | ⟨hterm, _⟩
    · exact hr
    · exact absurd hall hterm.not_all_lt
  have hfuel' : fuelNeed nv rest.length ≤ fuel := by
    have := fuelNeed_le nv rest.length
    have := List.length_pos_iff.2 hnk
    simp only [List.length_append] at hfuel
    omega
  obtain ⟨d, child, T'c, hdel, hexp', hT', hlook', hclean, hnohash⟩ :=
    ih false nv (.branch Ts) (pre ++ nk) rest hexpc hTc hrk hfuel'
  rw [hdel]
  cases d with
  | false =>
      refine DeleteOk.unchanged hexp hT ?_
      rw [Radix.Tree.lookup_short_append]
      exact hclean rfl
  | true =>
      obtain ⟨k', v', hk'⟩ := (hTc.canonical (by simp)).exists_lookup_erase hlook'
      have hne : T'c ≠ .nil := by rintro rfl; simp at hk'
      have hcan' := hT'.canonical hne
      have hlook := Radix.Tree.lookup_short_update nk hlook'
      cases child with
      | short ck cv cf =>
          obtain ⟨Tcc, rfl, -, hexpcc⟩ := hexp'.short_inv
          obtain ⟨hccan, hccshort⟩ : Tcc.Canonical ∧ ∀ k c, Tcc ≠ .short k c := by
            cases hcan' with
            | short _ hc hchild => exact ⟨hc, hchild⟩
          have hlook2 := (Radix.Tree.lookup_short_append_segment nk ck Tcc).trans hlook
          exact ⟨true, _, _, rfl, .short _ (hnew top _) hexpcc,
            .of_canonical (.short (by simp [concat, hnk]) hccan hccshort) (hT.2.update hkey hlook2),
            hlook2, by simp, by simp⟩
      | full cs cf =>
          obtain ⟨Ts', rfl, -⟩ := hexp'.full_inv
          exact ⟨true, _, _, rfl, .short _ (hnew top _) hexp',
            .of_canonical (.short hnk hcan' (by simp)) (hT.2.update hkey hlook), hlook, by simp,
            by simp⟩
      | nil => exact absurd hexp'.nil_inv hne
      | value w => exact absurd hexp'.value_inv (hT'.ne_leaf w)
      | hash x => exact absurd rfl (hnohash rfl x)

/-! ## Full nodes -/

/-- The branch left after one child of a full node changed: every child that
is not empty is canonical, and its keys are value keys. -/
private theorem branch_after_delete {Ts : Fin 17 → Shape} (hcan : (Radix.Tree.branch Ts).Canonical)
    (a : Fin 17) {Tk : Shape} (hTk : Tk = .nil ∨ Tk.Canonical) :
    ∀ i, Function.update Ts a Tk i ≠ .nil → (Function.update Ts a Tk i).Canonical := by
  intro i hi
  by_cases hia : i = a
  · subst hia
    rw [Function.update_self] at hi ⊢
    exact hTk.resolve_left hi
  · rw [Function.update_of_ne hia] at hi ⊢
    cases hcan with
    | branch hcs _ => exact hcs i hi

/-- A full node left with one child `pos`: the result is a short node of the
single nibble, joined with the child when the loaded child is a short node.

The branch is the single child behind its nibble. The terminator child left:
a leaf of the empty segment end. Join the nibble with the child's segment. -/
private theorem delete_collapse (hnew : ∀ top T, P top t.newFlag T) {cs' : Fin 17 → Node}
    {Ts' : Fin 17 → Shape} {T : Shape} {key : Hex} (pre : Hex) (pos : Fin 17)
    (hexp' : ∀ i, Expands P resolveHash false (cs' i) (Ts' i))
    (hcan' : ∀ i, Ts' i ≠ .nil → (Ts' i).Canonical) (hkeys : KeysOk (.branch Ts'))
    (hlook : (Radix.Tree.branch Ts').lookup = Function.update T.lookup key none)
    (hpos : Ts' pos ≠ .nil) (hothers : ∀ j, j ≠ pos → Ts' j = .nil) :
    DeleteOk P resolveHash top T key
      (if pos ≠ terminator then
        match Trie.resolve resolveHash (cs' pos) pre with
        | .error e => .error e
        | .ok (.short ck cv _) => .ok (true, .short (pos :: ck) cv t.newFlag)
        | .ok _ => .ok (true, .short [pos] (cs' pos) t.newFlag)
      else .ok (true, .short [pos] (cs' pos) t.newFlag)) := by
  have hsingle : Ts' = Function.update (fun _ => .nil) pos (Ts' pos) := by
    funext j
    by_cases hj : j = pos
    · subst hj
      simp
    · rw [Function.update_of_ne hj, hothers j hj]
  have hlook1 : (Radix.Tree.short [pos] (Ts' pos)).lookup = Function.update T.lookup key none := by
    rw [← Radix.Tree.lookup_branch_single, ← hsingle, hlook]
  have hX := hcan' pos hpos
  by_cases hterm : pos = terminator
  · rw [if_neg (fun h => h hterm)]
    subst hterm
    obtain ⟨w, hw⟩ := hkeys.terminator_child hX
    refine ⟨true, _, _, rfl, .short _ (hnew top _) (hexp' terminator), ?_, hlook1, by simp, by simp⟩
    exact .of_canonical (.short (by simp) hX (by simp [hw])) (hkeys.of_lookup_eq (hlook1.trans hlook.symm))
  · rw [if_pos hterm]
    have hXin : InnerShape (Ts' pos) := .of_canonical hX (hkeys.branch_child hterm)
    obtain ⟨rn, hres, hexprn, hrnh⟩ := (hexp' pos).resolve pre
    rw [hres]
    cases rn with
    | short ck cv cf =>
        obtain ⟨Tcc, hTcc, -, hexpcc⟩ := hexprn.short_inv
        rw [hTcc] at hX hlook1
        obtain ⟨hccan, hccshort⟩ : Tcc.Canonical ∧ ∀ k c, Tcc ≠ .short k c := by
          cases hX with
          | short _ hc hchild => exact ⟨hc, hchild⟩
        have hlook2 := (Radix.Tree.lookup_short_append_segment [pos] ck Tcc).trans hlook1
        exact ⟨true, _, _, rfl, .short _ (hnew top _) hexpcc,
          .of_canonical (.short (by simp) hccan hccshort)
          (hkeys.of_lookup_eq (hlook2.trans hlook.symm)), hlook2, by simp, by simp⟩
    | full cs f =>
        have hns := hexprn.ne_short (fun _ _ _ => Node.noConfusion) (fun _ => Node.noConfusion)
        exact ⟨true, _, _, rfl, .short _ (hnew top _) (hexp' pos),
          .of_canonical (.short (by simp) hX hns)
          (hkeys.of_lookup_eq (hlook1.trans hlook.symm)), hlook1, by simp, by simp⟩
    | nil => exact absurd hexprn.nil_inv hpos
    | value w => exact absurd hexprn.value_inv (hXin.ne_leaf w)
    | hash x => exact absurd rfl (hrnh x)

/-- A full node: the deletion goes on in the child the first nibble selects;
a single child left makes the node a short node, two or more keep it.

The selected child after the deletion. A nibble: the child is an inner
subtree. The terminator: the value goes. The children left, as the `pos`
loop counts them. None: impossible, since a key of the branch remains. -/
theorem delete_full_case (hnew : ∀ top T, P top t.newFlag T) (fuel : Nat) {cs : Fin 17 → Node}
    {nf : NodeFlag} {T : Shape} (pre : Hex) (k0 : Nibble) (krest : Hex)
    (hexp : Expands P resolveHash top (.full cs nf) T) (hT : InnerShape T)
    (hkey : TermKey (k0 :: krest)) (hfuel : 2 * (k0 :: krest).length + 1 ≤ fuel + 1)
    (ih : DeleteIH t P resolveHash fuel) :
    DeleteOk P resolveHash top T (k0 :: krest)
      (t.delete resolveHash (fuel + 1) (.full cs nf) pre (k0 :: krest)) := by
  obtain ⟨Ts, rfl, hf, hcs⟩ := hexp.full_inv
  obtain ⟨hcan, hinner, hval⟩ := hT.branch_cases
  have hlen : (k0 :: krest).length = krest.length + 1 := rfl
  obtain ⟨d, nn, Tk, hdel, hexpk, hTk, hlookk, hclean⟩ :
      ∃ d nn Tk, t.delete resolveHash fuel (cs k0) (pre ++ [k0]) krest = .ok (d, nn) ∧
        Expands P resolveHash false nn Tk ∧ (Tk = .nil ∨ Tk.Canonical) ∧
        Tk.lookup = Function.update (Ts k0).lookup krest none ∧
        (d = false → (Ts k0).lookup krest = none) := by
    rcases hkey.tail with ⟨hk0, hkrest⟩ | ⟨rfl, rfl⟩
    · have hk0' : k0 ≠ terminator := fun h => absurd hk0 (by rw [h]; decide)
      have hfuel' : fuelNeed (cs k0) krest.length ≤ fuel := by
        have := fuelNeed_le (cs k0) krest.length
        omega
      obtain ⟨d, nn, Tk, hdel, hexpk, hTk, hlookk, hclean, -⟩ :=
        ih false (cs k0) (Ts k0) (pre ++ [k0]) krest (hcs k0) (hinner k0 hk0') hkrest hfuel'
      exact ⟨d, nn, Tk, hdel, hexpk, hTk.1, hlookk, hclean⟩
    · obtain ⟨f, rfl⟩ : ∃ f, fuel = f + 1 := ⟨fuel - 1, by omega⟩
      obtain ⟨d, hdel, hclean⟩ := delete_value_pos f (pre ++ [terminator]) (hcs terminator) hval
      refine ⟨d, .nil, .nil, hdel, .nil, .inl rfl, ?_, fun hd => by rw [hclean hd]; rfl⟩
      rcases hval with h | ⟨w, h⟩
      · rw [h]
        exact (Function.update_eq_self [] _).symm
      · rw [h, Radix.Tree.lookup_leaf, Function.update_idem]
        exact (Function.update_eq_self [] _).symm
  simp only [Trie.delete, hdel]
  cases d with
  | false => exact DeleteOk.unchanged (.full nf hf hcs) hT (hclean rfl)
  | true =>
      dsimp only
      have hexp' := Expands.update hcs k0 hexpk
      have hcan' := branch_after_delete hcan k0 hTk
      have hlook := Radix.Tree.lookup_branch_update hlookk
      have hkeys : KeysOk (.branch (Function.update Ts k0 Tk)) := hT.2.update hkey hlook
      have hnil : ∀ i, Function.update cs k0 nn i = .nil ↔ Function.update Ts k0 Tk i = .nil :=
        fun i => (hexp' i).eq_nil_iff
      generalize Function.update cs k0 nn = cs' at hexp' hnil ⊢
      generalize Function.update Ts k0 Tk = Ts' at hexp' hnil hcan' hlook hkeys
      rcases hpos : remainingPos cs' with _ | pos | _
      · obtain ⟨k, v, hk⟩ := hcan.exists_lookup_erase hlook
        cases k with
        | nil => simp at hk
        | cons a k =>
            rw [Radix.Tree.lookup_branch_cons, (hnil a).1 (remainingPos_zero hpos a)] at hk
            simp at hk
      · obtain ⟨hne, hoth⟩ := remainingPos_one hpos
        exact delete_collapse hnew pre pos hexp' hcan' hkeys hlook (fun h => hne ((hnil pos).2 h))
          (fun j hj => (hnil j).1 (hoth j hj))
      · obtain ⟨a, b, hab, ha, hb⟩ := remainingPos_many hpos
        have htwo : ∃ a b, a ≠ b ∧ Ts' a ≠ .nil ∧ Ts' b ≠ .nil :=
          ⟨a, b, hab, fun h => ha ((hnil a).2 h), fun h => hb ((hnil b).2 h)⟩
        exact ⟨true, _, _, rfl, .full _ (hnew top _) hexp', .of_canonical (.branch hcan' htwo) hkeys,
          hlook,
          by simp, by simp⟩

/-! ## The induction -/

/-- `delete` below the root: on a node that expands to an inner subtree,
with a value key and enough fuel, it succeeds and removes the key. -/
theorem delete_inner (hnew : ∀ top T, P top t.newFlag T) (fuel : Nat) :
    DeleteIH t P resolveHash fuel := by
  induction fuel with
  | zero =>
      intro top n T pre key _ _ _ hfuel
      exact absurd hfuel (Nat.not_le.2 (fuelNeed_pos n key.length))
  | succ fuel ih =>
      intro top n T pre key hexp hT hkey hfuel
      cases n with
      | nil =>
          rw [hexp.nil_inv]
          exact delete_nil_case fuel pre key
      | value w => exact absurd hexp.value_inv (hT.ne_leaf w)
      | hash h => exact delete_hash_case fuel pre key hexp hT hkey hfuel ih
      | short nk nv f =>
          obtain ⟨Tc, rfl, hf, hexpc⟩ := hexp.short_inv
          exact delete_short_case hnew fuel pre key hf hexpc hT hkey hfuel ih
      | full cs f =>
          obtain ⟨k0, krest, rfl⟩ := List.exists_cons_of_ne_nil hkey.ne_nil
          exact delete_full_case hnew fuel pre k0 krest hexp hT hkey hfuel ih

end Lemochain.Trie
