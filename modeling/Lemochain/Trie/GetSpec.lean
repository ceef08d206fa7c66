import Lemochain.Trie.Shape

/-!
# `Trie.tryGet` reads the map

`tryGet_inner`: started below the root on a node that expands to an inner
subtree, at a position of a value key, with enough fuel, `tryGet` succeeds
with the value the subtree holds under the rest of the key, and the node it
returns (with the hash nodes it loaded on the way replaced) expands to the
same subtree.

The source indexes the key with a position instead of cutting it; the
statements are about `key.drop pos`, the part of the key not yet read.
-/

namespace Lemochain.Trie

open Lemochain.Radix

variable {t : Trie} {P : FlagPred} {resolveHash : Resolver} {top : Bool}

/-- What `tryGet` delivers: the value under the rest of the key, and a node
expanding to the same subtree. -/
def GetOk (P : FlagPred) (resolveHash : Resolver) (top : Bool) (T : Shape) (rest : Hex)
    (r : Except TrieError (Option Bytes × Node × Bool)) : Prop :=
  ∃ n' b, r = .ok (T.lookup rest, n', b) ∧ Expands P resolveHash top n' T

/-- The induction hypothesis of `tryGet_inner` at the remaining fuel. -/
def GetIH (t : Trie) (P : FlagPred) (resolveHash : Resolver) (fuel : Nat) : Prop :=
  ∀ (top : Bool) (n : Node) (T : Shape) (key : Hex) (pos : Nat), Expands P resolveHash top n T →
    InnerShape T → TermKey (key.drop pos) → fuelNeed n (key.drop pos).length ≤ fuel →
    GetOk P resolveHash top T (key.drop pos) (t.tryGet resolveHash fuel n key pos)

/-- The two results `tryGet` passes up from a child: a node that loaded
something is rebuilt around the new child, otherwise the old node stays. -/
theorem GetOk.rebuild {T Tc : Shape} {rest rest' : Hex} {n n' : Node} {b : Bool}
    (mk : Node → Node) (hexp : Expands P resolveHash top n T)
    (hmk : ∀ c, Expands P resolveHash false c Tc → Expands P resolveHash top (mk c) T)
    (hlook : T.lookup rest = Tc.lookup rest') (hexp' : Expands P resolveHash false n' Tc) :
    GetOk P resolveHash top T rest
      (match (Except.ok (Tc.lookup rest', n', b) : Except TrieError (Option Bytes × Node × Bool)) with
        | .error e => .error e
        | .ok (value, newnode, true) => .ok (value, mk newnode, true)
        | .ok (value, _, false) => .ok (value, n, false)) := by
  cases b with
  | true => exact ⟨mk n', true, by rw [hlook], hmk n' hexp'⟩
  | false => exact ⟨n, false, by rw [hlook], hexp⟩

/-- At a value position `tryGet` reads the value node, if any; the source
does not look at the rest of the key there. -/
theorem tryGet_value_pos (fuel : Nat) {n : Node} {T : Shape} (key : Hex) (pos : Nat)
    (hexp : Expands P resolveHash top n T) (hT : ValueShape T) :
    GetOk P resolveHash top T [] (t.tryGet resolveHash (fuel + 1) n key pos) := by
  rcases hT with rfl | ⟨w, rfl⟩
  · rw [hexp.eq_nil_of_nil]
    exact ⟨.nil, false, rfl, .nil⟩
  · cases n with
    | value v => exact ⟨.value v, false, by cases hexp; rfl, hexp⟩
    | nil => cases hexp
    | short k c f => cases hexp
    | full cs f => cases hexp
    | hash h =>
        obtain ⟨rn, -, hsf, hrn⟩ := hexp.hash_inv
        cases rn <;> simp [Node.isShortOrFull] at hsf <;> cases hrn

/-- A short node: a key that does not go through the segment is absent;
otherwise the read goes on in the child after the segment.

The key leaves the segment: not found. The rest of the key is the segment
followed by the key from `pos + nk.length`. The child's result, passed up.
An extension: the rest is a value key. A leaf: the segment is the whole rest
of the key. -/
theorem tryGet_short_case (hgen : ∀ top f T, P top f T → P top { f with gen := t.cachegen } T)
    (fuel : Nat) {nk : Hex} {nv : Node} {nf : NodeFlag} {Tc : Shape} (key : Hex) (pos : Nat)
    (hf : P top nf (.short nk Tc)) (hexpc : Expands P resolveHash false nv Tc)
    (hT : InnerShape (.short nk Tc)) (hkey : TermKey (key.drop pos))
    (hfuel : 2 * (key.drop pos).length + 1 ≤ fuel + 1) (ih : GetIH t P resolveHash fuel) :
    GetOk P resolveHash top (.short nk Tc) (key.drop pos)
      (t.tryGet resolveHash (fuel + 1) (.short nk nv nf) key pos) := by
  obtain ⟨hnk, hcases⟩ := hT.short_cases
  have hexp : Expands P resolveHash top (.short nk nv nf) (.short nk Tc) := .short nf hf hexpc
  simp only [Trie.tryGet]
  split_ifs with hmiss
  · have hnpre : ¬ nk <+: key.drop pos := by
      rintro ⟨rest, hrest⟩
      rw [← List.length_drop, ← hrest] at hmiss
      simp only [List.length_append, List.take_left, ne_eq, not_true_eq_false, or_false] at hmiss
      omega
    exact ⟨_, false, by rw [Radix.Tree.lookup_short_eq_none Tc hnpre], hexp⟩
  · have htake : (key.drop pos).take nk.length = nk := by
      simp only [not_or, Nat.not_lt, not_not] at hmiss
      exact hmiss.2.symm
    have hsplit : key.drop pos = nk ++ key.drop (pos + nk.length) :=
      calc key.drop pos = (key.drop pos).take nk.length ++ (key.drop pos).drop nk.length :=
            (List.take_append_drop _ _).symm
        _ = nk ++ key.drop (pos + nk.length) := by rw [htake, List.drop_drop]
    have hlen : (key.drop pos).length = nk.length + (key.drop (pos + nk.length)).length := by
      rw [hsplit, List.length_append]
    have hnklen := List.length_pos_iff.2 hnk
    have hlook : (Radix.Tree.short nk Tc).lookup (key.drop pos) = Tc.lookup (key.drop (pos + nk.length)) := by
      rw [hsplit, Radix.Tree.lookup_short_append]
    rw [hsplit] at hkey
    obtain ⟨n', b, hget, hexp'⟩ :
        GetOk P resolveHash false Tc (key.drop (pos + nk.length))
          (t.tryGet resolveHash fuel nv key (pos + nk.length)) := by
      rcases hcases with ⟨hall, -, hTc⟩ | ⟨hterm, w, rfl⟩
      · have hrest : TermKey (key.drop (pos + nk.length)) := by
          rcases hkey.append_cases with ⟨_, hr⟩ | ⟨hterm, _⟩
          · exact hr
          · exact absurd hall hterm.not_all_lt
        have hfuel' : fuelNeed nv (key.drop (pos + nk.length)).length ≤ fuel := by
          have := fuelNeed_le nv (key.drop (pos + nk.length)).length
          omega
        exact ih false nv Tc key (pos + nk.length) hexpc hTc hrest hfuel'
      · have hend : key.drop (pos + nk.length) = [] := by
          simpa using hterm.eq_of_prefixOf hkey (List.prefix_append _ _)
        obtain ⟨f, rfl⟩ : ∃ f, fuel = f + 1 := ⟨fuel - 1, by omega⟩
        rw [hend]
        exact tryGet_value_pos f key _ hexpc (.inr ⟨w, rfl⟩)
    rw [hget]
    exact GetOk.rebuild (fun c => .short nk c { nf with gen := t.cachegen }) hexp
      (fun c hc => .short _ (hgen top nf _ hf) hc) hlook hexp'

/-- A full node: the read goes on in the child of the next nibble.

The child's result, passed up. A nibble: the child is an inner subtree. The
terminator: the child holds the value. The rebuilt node replaces one child. -/
theorem tryGet_full_case (hgen : ∀ top f T, P top f T → P top { f with gen := t.cachegen } T)
    (fuel : Nat) {cs : Fin 17 → Node} {nf : NodeFlag} {T : Shape} (key : Hex) (pos : Nat)
    (hexp : Expands P resolveHash top (.full cs nf) T) (hT : InnerShape T)
    (hkey : TermKey (key.drop pos)) (hfuel : 2 * (key.drop pos).length + 1 ≤ fuel + 1)
    (ih : GetIH t P resolveHash fuel) :
    GetOk P resolveHash top T (key.drop pos)
      (t.tryGet resolveHash (fuel + 1) (.full cs nf) key pos) := by
  obtain ⟨Ts, rfl, hf, hcs⟩ := hexp.full_inv
  obtain ⟨-, hinner, hval⟩ := hT.branch_cases
  obtain ⟨k0, krest, hdrop⟩ := List.exists_cons_of_ne_nil hkey.ne_nil
  have hk0 : key[pos]? = some k0 := by
    rw [← Nat.add_zero pos, ← List.getElem?_drop, hdrop]
    rfl
  have hrest : key.drop (pos + 1) = krest := by
    rw [← List.drop_drop, hdrop, List.drop_one, List.tail_cons]
  have hlook : (Radix.Tree.branch Ts).lookup (key.drop pos) = (Ts k0).lookup (key.drop (pos + 1)) := by
    rw [hdrop, hrest, Radix.Tree.lookup_branch_cons]
  obtain ⟨n', b, hget, hexp'⟩ :
      GetOk P resolveHash false (Ts k0) (key.drop (pos + 1))
        (t.tryGet resolveHash fuel (cs k0) key (pos + 1)) := by
    rw [hdrop] at hkey hfuel
    rcases hkey.tail with ⟨hlt, hkrest⟩ | ⟨rfl, rfl⟩
    · have hne : k0 ≠ terminator := fun h => absurd hlt (by rw [h]; decide)
      have hfuel' : fuelNeed (cs k0) (key.drop (pos + 1)).length ≤ fuel := by
        have := fuelNeed_le (cs k0) (key.drop (pos + 1)).length
        simp only [hrest, List.length_cons] at this hfuel ⊢
        omega
      rw [← hrest] at hkrest
      exact ih false (cs k0) (Ts k0) key (pos + 1) (hcs k0) (hinner k0 hne) hkrest hfuel'
    · obtain ⟨f, rfl⟩ : ∃ f, fuel = f + 1 := ⟨fuel - 1, by simp at hfuel; omega⟩
      rw [hrest]
      exact tryGet_value_pos f key _ (hcs terminator) hval
  have hmk : ∀ c, Expands P resolveHash false c (Ts k0) →
      Expands P resolveHash top (.full (Function.update cs k0 c) { nf with gen := t.cachegen })
        (.branch Ts) := by
    intro c hc
    have hupd := Expands.update hcs k0 hc
    rw [Function.update_eq_self] at hupd
    exact .full _ (hgen top nf _ hf) hupd
  simp only [Trie.tryGet, hk0, hget]
  exact GetOk.rebuild _ hexp hmk hlook hexp'

/-- A hash node is loaded and read again at the same position. -/
theorem tryGet_hash_case (fuel : Nat) {h : Bytes} {T : Shape} (key : Hex) (pos : Nat)
    (hexp : Expands P resolveHash top (.hash h) T) (hT : InnerShape T)
    (hkey : TermKey (key.drop pos)) (hfuel : fuelNeed (.hash h) (key.drop pos).length ≤ fuel + 1)
    (ih : GetIH t P resolveHash fuel) :
    GetOk P resolveHash top T (key.drop pos) (t.tryGet resolveHash (fuel + 1) (.hash h) key pos) := by
  obtain ⟨rn, hres, hsf, hrn⟩ := hexp.hash_inv
  have hfuel' : fuelNeed rn (key.drop pos).length ≤ fuel := by
    cases rn <;> simp_all [fuelNeed, Node.isShortOrFull]
  obtain ⟨n', b, hget, hexp'⟩ := ih top rn T key pos hrn hT hkey hfuel'
  simp only [Trie.tryGet, hres, hget]
  exact ⟨n', true, rfl, hexp'⟩

/-- `tryGet` below the root: on a node that expands to an inner subtree, at a
position of a value key, with enough fuel, it returns the value the subtree
holds under the rest of the key. -/
theorem tryGet_inner (hgen : ∀ top f T, P top f T → P top { f with gen := t.cachegen } T)
    (fuel : Nat) : GetIH t P resolveHash fuel := by
  induction fuel with
  | zero =>
      intro top n T key pos _ _ _ hfuel
      exact absurd hfuel (Nat.not_le.2 (fuelNeed_pos n _))
  | succ fuel ih =>
      intro top n T key pos hexp hT hkey hfuel
      cases n with
      | nil =>
          rw [hexp.nil_inv]
          exact ⟨.nil, false, rfl, .nil⟩
      | value w => exact absurd hexp.value_inv (hT.ne_leaf w)
      | hash h => exact tryGet_hash_case fuel key pos hexp hT hkey hfuel ih
      | full cs f => exact tryGet_full_case hgen fuel key pos hexp hT hkey hfuel ih
      | short nk nv f =>
          obtain ⟨Tc, rfl, hf, hexpc⟩ := hexp.short_inv
          exact tryGet_short_case hgen fuel key pos hf hexpc hT hkey hfuel ih

end Lemochain.Trie
