import Lemochain.Trie.Cache
import Lemochain.Trie.DeleteSpec

/-!
# The cache flags of the trie (`trie/trie_test.go`, `checkCacheInvariant`)

Every short and full node carries a cache generation and a dirty bit.
`checkCacheInvariant`, the check of the random test, asks two things of
them: no node's generation is newer than its parent's (the trie's
`cachegen` for the root), and below the root no dirty node has a clean
parent. The second is what makes unloading safe: `hasher.hash` in commit
mode replaces a clean node by its hash, and a clean node then has no dirty
node below it whose changes would be lost.

The two halves are `GenOk` and `DirtyOk`, each a recursion that passes the
parent's flag down (`checkCacheInvariant_iff`). This module shows what the
methods that change the root do to them:

* the nodes `resolveHash` loads are `Fresh`: clean, of the trie's current
  generation, all the way down (`resolveHash_fresh`);
* `tryGet` refreshes the generation of the nodes it copies and keeps their
  dirty bits (`tryGet_genOk`, `tryGet_dirtyOk`);
* `insert` and `delete` build new nodes with `newFlag`, dirty and of the
  current generation, over parts of the old node: every property of nodes
  that holds of the parts of a node, of leaves and of new nodes over nodes
  that have it is kept (`NewClosed`, `insert_keeps`, `delete_keeps`), and
  `GenOk cachegen` and `DirtyOk true` are such properties.

The hasher keeps the value slot of a full node as it is, so the invariant
needs the shape of the nodes the trie builds (`Wf`): a full node holds
nothing or a value in its value slot, and a short node's key is nibbles,
or nibbles closed by the terminator over a value. The methods keep it
(`insert_wf`, `delete_wf`, `tryGet_wf`).
-/

namespace Lemochain.Trie

/-! ## The invariant of the test -/

/-- `checkCacheInvariant`: the check of `trie_test.go` on a node, with the
generation and dirty bit of its parent and its depth. -/
def checkCacheInvariant : Node → UInt16 → Bool → Nat → Bool
  | .short _ v f, parentCachegen, parentDirty, depth =>
      !decide (parentCachegen < f.gen) && !(decide (0 < depth) && !parentDirty && f.dirty) &&
        checkCacheInvariant v f.gen f.dirty (depth + 1)
  | .full cs f, parentCachegen, parentDirty, depth =>
      !decide (parentCachegen < f.gen) && !(decide (0 < depth) && !parentDirty && f.dirty) &&
        (List.finRange 17).all fun i => checkCacheInvariant (cs i) f.gen f.dirty (depth + 1)
  | _, _, _, _ => true

/-- No node's generation is newer than its parent's, the parent of `n`
being of generation `g`. -/
def GenOk : UInt16 → Node → Prop
  | g, .short _ v f => f.gen ≤ g ∧ GenOk f.gen v
  | g, .full cs f => f.gen ≤ g ∧ ∀ i, GenOk f.gen (cs i)
  | _, _ => True

/-- No dirty node has a clean parent, the parent of `n` having the dirty
bit `d`. `DirtyOk false n` says that `n` and everything below it is
clean. -/
def DirtyOk : Bool → Node → Prop
  | d, .short _ v f => (f.dirty = true → d = true) ∧ DirtyOk f.dirty v
  | d, .full cs f => (f.dirty = true → d = true) ∧ ∀ i, DirtyOk f.dirty (cs i)
  | _, _ => True

/-- The check the test makes of one flag. -/
theorem flagCheck_iff (g : UInt16) (d : Bool) (depth : Nat) (f : NodeFlag) :
    (!decide (g < f.gen) && !(decide (0 < depth) && !d && f.dirty)) = true ↔
      f.gen ≤ g ∧ (f.dirty = true → (d || depth == 0) = true) := by
  rw [Bool.and_eq_true, Bool.not_eq_true', decide_eq_false_iff_not, UInt16.not_lt]
  apply and_congr Iff.rfl
  rcases Nat.eq_zero_or_pos depth with rfl | hpos
  · simp
  · cases d <;> cases f.dirty <;> simp [Nat.pos_iff_ne_zero.mp hpos, hpos]

/-- The check of the test is the two invariants, with no parent dirty bit
asked of the root. -/
theorem checkCacheInvariant_iff (n : Node) (g : UInt16) (d : Bool) (depth : Nat) :
    checkCacheInvariant n g d depth = true ↔ GenOk g n ∧ DirtyOk (d || depth == 0) n := by
  induction n generalizing g d depth with
  | short k v f ih =>
      have hdepth : (f.dirty || (depth + 1 == 0)) = f.dirty := by simp
      rw [checkCacheInvariant, Bool.and_eq_true, flagCheck_iff, ih, hdepth]
      simp only [GenOk, DirtyOk]
      constructor
      · rintro ⟨⟨hgen, hdirty⟩, hv, hdv⟩
        exact ⟨⟨hgen, hv⟩, hdirty, hdv⟩
      · rintro ⟨⟨hgen, hv⟩, hdirty, hdv⟩
        exact ⟨⟨hgen, hdirty⟩, hv, hdv⟩
  | full cs f ih =>
      have hdepth : (f.dirty || (depth + 1 == 0)) = f.dirty := by simp
      rw [checkCacheInvariant, Bool.and_eq_true, flagCheck_iff, List.all_eq_true]
      simp only [List.mem_finRange, true_implies, ih, hdepth, GenOk, DirtyOk]
      constructor
      · rintro ⟨⟨hgen, hdirty⟩, hcs⟩
        exact ⟨⟨hgen, fun i => (hcs i).1⟩, hdirty, fun i => (hcs i).2⟩
      · rintro ⟨⟨hgen, hg⟩, hdirty, hd⟩
        exact ⟨⟨hgen, hdirty⟩, fun i => ⟨hg i, hd i⟩⟩
  | nil => exact iff_of_true rfl ⟨trivial, trivial⟩
  | hash h => exact iff_of_true rfl ⟨trivial, trivial⟩
  | value v => exact iff_of_true rfl ⟨trivial, trivial⟩

/-- A node's generation bound only asks something of the node itself. -/
theorem GenOk.mono {g g' : UInt16} (hle : g ≤ g') : ∀ {n : Node}, GenOk g n → GenOk g' n
  | .short _ _ _, ⟨hf, hv⟩ => ⟨UInt16.le_trans hf hle, hv⟩
  | .full _ _, ⟨hf, hcs⟩ => ⟨UInt16.le_trans hf hle, hcs⟩
  | .nil, _ => trivial
  | .hash _, _ => trivial
  | .value _, _ => trivial

/-- A dirty parent allows anything below that is right in itself. -/
theorem DirtyOk.mono {d d' : Bool} (hle : d = true → d' = true) : ∀ {n : Node}, DirtyOk d n → DirtyOk d' n
  | .short _ _ _, ⟨hf, hv⟩ => ⟨fun h => hle (hf h), hv⟩
  | .full _ _, ⟨hf, hcs⟩ => ⟨fun h => hle (hf h), hcs⟩
  | .nil, _ => trivial
  | .hash _, _ => trivial
  | .value _, _ => trivial

theorem DirtyOk.to_true {d : Bool} {n : Node} (h : DirtyOk d n) : DirtyOk true n := h.mono fun _ => rfl

theorem DirtyOk.of_false {d : Bool} {n : Node} (h : DirtyOk false n) : DirtyOk d n :=
  h.mono fun h => absurd h (by decide)

/-- A property of every child survives the replacement of one child by a
node that has it. -/
theorem forall_update_of {F : Node → Prop} {cs : Fin 17 → Node} (hcs : ∀ i, F (cs i)) {a : Fin 17} {c : Node}
    (hc : F c) : ∀ i, F (Function.update cs a c i) :=
  (Function.forall_update_iff cs fun _ y => F y).mpr ⟨hc, fun i _ => hcs i⟩

/-! ## Loaded nodes -/

/-- Every flag of `n` is clean and of generation `g`: the nodes the decoder
builds. -/
def Fresh (g : UInt16) : Node → Prop
  | .short _ v f => f.gen = g ∧ f.dirty = false ∧ Fresh g v
  | .full cs f => f.gen = g ∧ f.dirty = false ∧ ∀ i, Fresh g (cs i)
  | _ => True

/-- The nodes the trie builds: a short node's key is nibbles closed by the
terminator over a value, or nibbles over a node of this shape; a full node
holds nothing or a value in its value slot. -/
def Wf : Node → Prop
  | .short k c _ => (TermKey k ∧ ∃ v, c = .value v) ∨ ((∀ x ∈ k, x.val < 16) ∧ Wf c)
  | .full cs _ => (cs terminator = .nil ∨ ∃ v, cs terminator = .value v) ∧ ∀ i, Wf (cs i)
  | _ => True

theorem Fresh.genOk {g : UInt16} : ∀ {n : Node} {g' : UInt16}, Fresh g n → g ≤ g' → GenOk g' n
  | .short _ _ _, _, ⟨hgen, _, hv⟩, hle => ⟨hgen ▸ hle, hv.genOk (hgen ▸ UInt16.le_refl g)⟩
  | .full _ _, _, ⟨hgen, _, hcs⟩, hle => ⟨hgen ▸ hle, fun i => (hcs i).genOk (hgen ▸ UInt16.le_refl g)⟩
  | .nil, _, _, _ => trivial
  | .hash _, _, _, _ => trivial
  | .value _, _, _, _ => trivial

theorem Fresh.dirtyOk {g : UInt16} : ∀ {n : Node}, Fresh g n → DirtyOk false n
  | .short _ _ _, ⟨_, hclean, hv⟩ => ⟨fun h => absurd (hclean ▸ h) (by decide), hclean ▸ hv.dirtyOk⟩
  | .full _ _, ⟨_, hclean, hcs⟩ => ⟨fun h => absurd (hclean ▸ h) (by decide), fun i => hclean ▸ (hcs i).dirtyOk⟩
  | .nil, _ => trivial
  | .hash _, _ => trivial
  | .value _, _ => trivial

/-- A key segment from its first nibbles on is a key segment. -/
theorem ShortKey.drop {k : Hex} (h : ShortKey k) (j : Nat) : ShortKey (k.drop j) := by
  obtain ⟨ns, hns, hk | hk⟩ := h <;> rw [hk]
  · exact ⟨ns.drop j, fun x hx => hns x (List.mem_of_mem_drop hx), .inl rfl⟩
  · refine ⟨ns.drop j, fun x hx => hns x (List.mem_of_mem_drop hx), ?_⟩
    rw [List.drop_append]
    rcases Nat.eq_zero_or_pos (j - ns.length) with hj | hj
    · exact .inr (by rw [hj]; rfl)
    · have hnil : [terminator].drop (j - ns.length) = [] :=
        List.drop_eq_nil_of_le (by simp only [List.length_singleton]; omega)
      exact .inl (by rw [hnil, List.append_nil])

/-- A key segment that ends with the terminator is a value key, one that
does not is nibbles. -/
theorem ShortKey.cases {k : Hex} (h : ShortKey k) :
    (hasTerm k = true ∧ TermKey k) ∨ (hasTerm k = false ∧ ∀ x ∈ k, x.val < 16) := by
  obtain ⟨ns, hns, rfl | rfl⟩ := h
  · exact .inr ⟨hasTerm_of_nibbles hns, hns⟩
  · exact .inl ⟨hasTerm_append_terminator ns, ns, hns, rfl⟩

/-- `compactToHex` reads a key segment. -/
theorem compactToHex_shortKey {compact : Bytes} {key : Hex} (h : compactToHex compact = some key) :
    ShortKey key := by
  obtain ⟨ns, hns, hkey⟩ := keybytesToHex_eq compact
  unfold compactToHex at h
  rw [hkey, List.dropLast_concat] at h
  cases ns with
  | nil => cases h
  | cons flag rest =>
      simp only [Option.some.injEq] at h
      subst h
      apply ShortKey.drop
      split
      · exact ⟨flag :: rest, hns, .inr rfl⟩
      · exact ⟨flag :: rest, hns, .inl rfl⟩

/-- What the decoder builds is fresh and of the trie's shape. -/
def LoadedOk (g : UInt16) (n : Node) : Prop := Fresh g n ∧ Wf n

theorem LoadedOk.dirtyOk {g : UInt16} {n : Node} (h : LoadedOk g n) {d : Bool} : DirtyOk d n := h.1.dirtyOk.of_false

theorem LoadedOk.genOk {g : UInt16} {n : Node} (h : LoadedOk g n) : GenOk g n := h.1.genOk (UInt16.le_refl g)

theorem decodeRef_loaded {dec : Bytes → Except DecodeError Node} {g : UInt16}
    (hdec : ∀ b n, dec b = .ok n → LoadedOk g n) {buf rest : Bytes} {n : Node}
    (h : decodeRef dec buf = .ok (n, rest)) : LoadedOk g n := by
  unfold decodeRef at h
  split at h
  · cases h
  · rename_i kind val rest' _
    dsimp only at h
    by_cases hlist : kind = .list
    · rw [if_pos hlist] at h
      by_cases hsize : buf.length - rest'.length > hashLen
      · rw [if_pos hsize] at h
        cases h
      · rw [if_neg hsize] at h
        split at h
        · cases h
        · cases h
          exact hdec _ _ ‹_›
    · rw [if_neg hlist] at h
      split_ifs at h
      · cases h
        exact ⟨trivial, trivial⟩
      · cases h
        exact ⟨trivial, trivial⟩

theorem decodeShort_loaded {ref : Bytes → Except DecodeError (Node × Bytes)} {g : UInt16}
    (href : ∀ b n rest, ref b = .ok (n, rest) → LoadedOk g n) {hash : Option Bytes} {elems : Bytes} {n : Node}
    (h : decodeShort ref hash elems g = .ok n) : LoadedOk g n := by
  unfold decodeShort at h
  split at h
  · cases h
  · rename_i kbuf rest _
    split at h
    · cases h
    · rename_i key hkey
      rcases (compactToHex_shortKey hkey).cases with ⟨hterm, hk⟩ | ⟨hterm, hk⟩
      · rw [if_pos hterm] at h
        split at h
        · cases h
        · cases h
          exact ⟨⟨rfl, rfl, trivial⟩, .inl ⟨hk, _, rfl⟩⟩
      · rw [if_neg (by rw [hterm]; decide)] at h
        split at h
        · cases h
        · rename_i r _ hr
          cases h
          have hloaded := href _ _ _ hr
          exact ⟨⟨rfl, rfl, hloaded.1⟩, .inr ⟨hk, hloaded.2⟩⟩

/-- The loop of `decodeFull` fills only nibble slots, each with a loaded
node. -/
theorem decodeChildren_loaded {ref : Bytes → Except DecodeError (Node × Bytes)} {g : UInt16}
    (href : ∀ b n rest, ref b = .ok (n, rest) → LoadedOk g n) :
    ∀ (is : List (Fin 16)) (cs : Fin 17 → Node) (elems : Bytes) {cs' : Fin 17 → Node} {rest : Bytes},
      (∀ i, LoadedOk g (cs i)) → decodeChildren ref is cs elems = .ok (cs', rest) →
        (∀ i, LoadedOk g (cs' i)) ∧ cs' terminator = cs terminator
  | [], cs, elems, cs', rest, hcs, h => by
      cases h
      exact ⟨hcs, rfl⟩
  | i :: is, cs, elems, cs', rest, hcs, h => by
      unfold decodeChildren at h
      split at h
      · cases h
      · rename_i cld rest' hcld
        obtain ⟨hall, hterm⟩ := decodeChildren_loaded href is _ rest' (forall_update_of hcs (href _ _ _ hcld)) h
        refine ⟨hall, hterm.trans ?_⟩
        exact Function.update_of_ne (ne_of_lt (Fin.castSucc_lt_last i)).symm _ _

/-- The value slot gets the value string. -/
theorem decodeFull_loaded {ref : Bytes → Except DecodeError (Node × Bytes)} {g : UInt16}
    (href : ∀ b n rest, ref b = .ok (n, rest) → LoadedOk g n) {hash : Option Bytes} {elems : Bytes} {n : Node}
    (h : decodeFull ref hash elems g = .ok n) : LoadedOk g n := by
  unfold decodeFull at h
  split at h
  · cases h
  · rename_i cs rest hloop
    obtain ⟨hall, hterm⟩ := decodeChildren_loaded href _ emptyChildren _ (fun _ => ⟨trivial, trivial⟩) hloop
    split at h
    · cases h
    · cases h
      split
      · exact ⟨⟨rfl, rfl, forall_update_of (fun i => (hall i).1) trivial⟩, .inr ⟨_, Function.update_self _ _ _⟩,
          forall_update_of (fun i => (hall i).2) trivial⟩
      · exact ⟨⟨rfl, rfl, fun i => (hall i).1⟩, .inl hterm, fun i => (hall i).2⟩

theorem decodeNode_loaded : ∀ (fuel : Nat) {hash : Option Bytes} {buf : Bytes} {g : UInt16} {n : Node},
    decodeNode fuel hash buf g = .ok n → LoadedOk g n
  | 0, _, _, _, _, h => by cases h
  | fuel + 1, hash, buf, g, n, h => by
      unfold decodeNode at h
      split_ifs at h
      split at h
      · cases h
      · dsimp only at h
        have href : ∀ b m rest, decodeRef (fun b => decodeNode fuel none b g) b = .ok (m, rest) → LoadedOk g m :=
          fun _ _ _ hr => decodeRef_loaded (fun _ _ hd => decodeNode_loaded fuel hd) hr
        split_ifs at h
        · exact decodeShort_loaded href (mapError_eq_ok.1 h)
        · exact decodeFull_loaded href (mapError_eq_ok.1 h)

/-- `resolveHash` loads nodes of the trie's generation, clean and of its
shape. -/
theorem resolveHash_loaded {t : Trie} {db : Database} {h : Bytes} {pre : Hex} {n : Node}
    (hres : t.resolveHash db h pre = .ok n) : LoadedOk t.cachegen n := by
  unfold Trie.resolveHash at hres
  dsimp only at hres
  split at hres
  · cases hres
  · unfold mustDecodeNode at hres
    split at hres
    · rename_i hdec
      cases hres
      exact decodeNode_loaded _ hdec
    · cases hres

/-! ## `tryGet` -/

section TryGet

variable {t : Trie} {resolveHash : Resolver}

/-- What a step of `tryGet` can return: the node itself when nothing was
loaded, a copy of a short or full node with the child that loaded replaced
and the generation refreshed, or, on a hash node, what the loaded node
returns. -/
theorem tryGet_cases {fuel : Nat} {n n' : Node} {key : Hex} {pos : Nat} {v : Option Bytes} {b : Bool}
    (h : t.tryGet resolveHash (fuel + 1) n key pos = .ok (v, n', b)) :
    (b = false ∧ n' = n) ∨
      (∃ nk nv nf nn, n = .short nk nv nf ∧ t.tryGet resolveHash fuel nv key (pos + nk.length) = .ok (v, nn, true) ∧
        n' = .short nk nn { nf with gen := t.cachegen } ∧ b = true) ∨
      (∃ cs nf i nn, n = .full cs nf ∧ key[pos]? = some i ∧
        t.tryGet resolveHash fuel (cs i) key (pos + 1) = .ok (v, nn, true) ∧
        n' = .full (Function.update cs i nn) { nf with gen := t.cachegen } ∧ b = true) ∨
      (∃ x child b', n = .hash x ∧ resolveHash x (key.take pos) = .ok child ∧
        t.tryGet resolveHash fuel child key pos = .ok (v, n', b') ∧ b = true) := by
  unfold Trie.tryGet at h
  split at h
  · cases h
    exact .inl ⟨rfl, rfl⟩
  · cases h
    exact .inl ⟨rfl, rfl⟩
  · rename_i nk nv nf
    split_ifs at h
    · cases h
      exact .inl ⟨rfl, rfl⟩
    · split at h
      · cases h
      · cases h
        exact .inr (.inl ⟨nk, nv, nf, _, rfl, ‹_›, rfl, rfl⟩)
      · cases h
        exact .inl ⟨rfl, rfl⟩
  · rename_i cs nf
    split at h
    · cases h
    · rename_i i hi
      split at h
      · cases h
      · cases h
        exact .inr (.inr (.inl ⟨cs, nf, i, _, rfl, hi, ‹_›, rfl, rfl⟩))
      · cases h
        exact .inl ⟨rfl, rfl⟩
  · rename_i x
    split at h
    · cases h
    · rename_i child hchild
      split at h
      · cases h
      · cases h
        exact .inr (.inr (.inr ⟨x, child, _, rfl, hchild, ‹_›, rfl⟩))

/-- Nothing below an empty or value node is loaded. -/
theorem tryGet_leaf {fuel : Nat} {n n' : Node} {key : Hex} {pos : Nat} {v : Option Bytes} {b : Bool}
    (hn : n = .nil ∨ ∃ w, n = .value w) (h : t.tryGet resolveHash fuel n key pos = .ok (v, n', b)) :
    b = false := by
  cases fuel with
  | zero => cases h
  | succ fuel =>
      rcases tryGet_cases h with ⟨hb, -⟩ | ⟨_, _, _, _, hs, -⟩ | ⟨_, _, _, _, hf, -⟩ | ⟨_, _, _, hx, -⟩
      · exact hb
      · rcases hn with rfl | ⟨w, rfl⟩ <;> cases hs
      · rcases hn with rfl | ⟨w, rfl⟩ <;> cases hf
      · rcases hn with rfl | ⟨w, rfl⟩ <;> cases hx

variable (hres : ∀ x pre m, resolveHash x pre = .ok m → LoadedOk t.cachegen m)
include hres

/-- `tryGet` keeps the dirty bits of the nodes it copies, and what it
loads is clean. The induction is on the fuel, one node at a time. -/
theorem tryGet_dirtyOk : ∀ (fuel : Nat) {n n' : Node} {key : Hex} {pos : Nat} {v : Option Bytes} {b : Bool}
    {d : Bool}, DirtyOk d n → t.tryGet resolveHash fuel n key pos = .ok (v, n', b) → DirtyOk d n'
  | 0, _, _, _, _, _, _, _, _, h => by cases h
  | fuel + 1, n, n', key, pos, v, b, d, hn, h => by
      rcases tryGet_cases h with ⟨-, rfl⟩ | ⟨nk, nv, nf, nn, rfl, hget, rfl, -⟩ |
          ⟨cs, nf, i, nn, rfl, -, hget, rfl, -⟩ | ⟨x, child, b', rfl, hchild, hget, -⟩
      · exact hn
      · exact ⟨hn.1, tryGet_dirtyOk fuel hn.2 hget⟩
      · exact ⟨hn.1, forall_update_of hn.2 (tryGet_dirtyOk fuel (hn.2 i) hget)⟩
      · exact tryGet_dirtyOk fuel (hres _ _ _ hchild).dirtyOk hget

/-- A copy `tryGet` makes takes the current generation, which is at least
that of every node below it. -/
theorem tryGet_genOk : ∀ (fuel : Nat) {n n' : Node} {key : Hex} {pos : Nat} {v : Option Bytes} {b : Bool}
    {g : UInt16}, GenOk g n → g ≤ t.cachegen → t.tryGet resolveHash fuel n key pos = .ok (v, n', b) →
      GenOk t.cachegen n'
  | 0, _, _, _, _, _, _, _, _, _, h => by cases h
  | fuel + 1, n, n', key, pos, v, b, g, hn, hg, h => by
      rcases tryGet_cases h with ⟨-, rfl⟩ | ⟨nk, nv, nf, nn, rfl, hget, rfl, -⟩ |
          ⟨cs, nf, i, nn, rfl, -, hget, rfl, -⟩ | ⟨x, child, b', rfl, hchild, hget, -⟩
      · exact hn.mono hg
      · exact ⟨UInt16.le_refl _, tryGet_genOk fuel hn.2 (UInt16.le_trans hn.1 hg) hget⟩
      · have hle := UInt16.le_trans hn.1 hg
        exact ⟨UInt16.le_refl _, forall_update_of (fun j => (hn.2 j).mono hle) (tryGet_genOk fuel (hn.2 i) hle hget)⟩
      · exact tryGet_genOk fuel (hres _ _ _ hchild).genOk (UInt16.le_refl _) hget

/-- `tryGet` keeps the shape of the trie: the copies keep their keys, and
the value slot of a full node is never replaced, since nothing is loaded
below a value. -/
theorem tryGet_wf : ∀ (fuel : Nat) {n n' : Node} {key : Hex} {pos : Nat} {v : Option Bytes} {b : Bool},
    Wf n → t.tryGet resolveHash fuel n key pos = .ok (v, n', b) → Wf n'
  | 0, _, _, _, _, _, _, _, h => by cases h
  | fuel + 1, n, n', key, pos, v, b, hn, h => by
      rcases tryGet_cases h with ⟨-, rfl⟩ | ⟨nk, nv, nf, nn, rfl, hget, rfl, -⟩ |
          ⟨cs, nf, i, nn, rfl, -, hget, rfl, -⟩ | ⟨x, child, b', rfl, hchild, hget, -⟩
      · exact hn
      · rcases hn with ⟨hk, w, rfl⟩ | ⟨hk, hnv⟩
        · exact absurd (tryGet_leaf (.inr ⟨w, rfl⟩) hget) (by decide)
        · exact .inr ⟨hk, tryGet_wf fuel hnv hget⟩
      · have hi : i ≠ terminator := fun hi => by
          subst hi
          exact absurd (tryGet_leaf hn.1 hget) (by decide)
        exact ⟨by rw [Function.update_of_ne hi.symm]; exact hn.1, forall_update_of hn.2 (tryGet_wf fuel (hn.2 i) hget)⟩
      · exact tryGet_wf fuel (hres _ _ _ hchild).2 hget

end TryGet

/-! ## `insert` and `delete` -/

section Update

variable {t : Trie} {resolveHash : Resolver}

/-- The branch `insert` builds where a key leaves a short node's segment:
a full node with the two continuations, under a short node holding the
shared part when there is one. -/
def branchOut (t : Trie) (shared : Hex) (i1 : Nibble) (c1 : Node) (i2 : Nibble) (c2 : Node) : Node :=
  let branch := Node.full (Function.update (Function.update emptyChildren i1 c1) i2 c2) t.newFlag
  if shared.length = 0 then branch else .short shared branch t.newFlag

/-- What a step of `insert` can return: the value at a value position; a
short node with its child updated, or left as it was; the branch where the
key leaves a short node's segment; a full node with one child updated, or
left as it was; a new leaf in the empty node; or, on a hash node, what the
loaded node returns, the loaded node when nothing changed.

The key is used up. -/
theorem insert_cases {fuel : Nat} {n nn value : Node} {pre key : Hex} {b : Bool}
    (h : t.insert resolveHash (fuel + 1) n pre key value = .ok (b, nn)) :
    (key = [] ∧ nn = value) ∨
      (∃ nk nv nf b' nn', n = .short nk nv nf ∧ key ≠ [] ∧ prefixLen key nk = nk.length ∧
        t.insert resolveHash fuel nv (pre ++ key.take nk.length) (key.drop nk.length) value = .ok (b', nn') ∧
        ((b' = false ∧ nn = n) ∨ (b' = true ∧ nn = .short nk nn' t.newFlag))) ∨
      (∃ nk nv nf b1 c1 b2 c2 i1 i2, n = .short nk nv nf ∧ key ≠ [] ∧ prefixLen key nk ≠ nk.length ∧
        t.insert resolveHash fuel .nil (pre ++ nk.take (prefixLen key nk + 1))
          (nk.drop (prefixLen key nk + 1)) nv = .ok (b1, c1) ∧
        t.insert resolveHash fuel .nil (pre ++ key.take (prefixLen key nk + 1))
          (key.drop (prefixLen key nk + 1)) value = .ok (b2, c2) ∧
        nk[prefixLen key nk]? = some i1 ∧ key[prefixLen key nk]? = some i2 ∧
        nn = branchOut t (key.take (prefixLen key nk)) i1 c1 i2 c2) ∨
      (∃ cs nf k0 krest b' nn', n = .full cs nf ∧ key = k0 :: krest ∧
        t.insert resolveHash fuel (cs k0) (pre ++ [k0]) krest value = .ok (b', nn') ∧
        ((b' = false ∧ nn = n) ∨ (b' = true ∧ nn = .full (Function.update cs k0 nn') t.newFlag))) ∨
      (n = .nil ∧ key ≠ [] ∧ nn = .short key value t.newFlag) ∨
      (∃ x rn b' nn', n = .hash x ∧ key ≠ [] ∧ resolveHash x pre = .ok rn ∧
        t.insert resolveHash fuel rn pre key value = .ok (b', nn') ∧
        ((b' = false ∧ nn = rn) ∨ (b' = true ∧ nn = nn'))) := by
  unfold Trie.insert at h
  split at h
  · refine .inl ⟨rfl, ?_⟩
    split at h
    · split at h
      · cases h
        rfl
      · cases h
    · cases h
      rfl
  · rename_i k0 krest
    have hne : k0 :: krest ≠ [] := List.cons_ne_nil k0 krest
    split at h
    · rename_i nk nv nf
      dsimp only at h
      by_cases hm : prefixLen (k0 :: krest) nk = nk.length
      · rw [if_pos hm] at h
        split at h
        · cases h
        · cases h
          exact .inr (.inl ⟨nk, nv, nf, false, _, rfl, hne, hm, by rw [← hm]; assumption, .inl ⟨rfl, rfl⟩⟩)
        · cases h
          exact .inr (.inl ⟨nk, nv, nf, true, _, rfl, hne, hm, by rw [← hm]; assumption, .inr ⟨rfl, rfl⟩⟩)
      · rw [if_neg hm] at h
        split at h
        · cases h
        · rename_i b1 c1 h1
          split at h
          · cases h
          · rename_i b2 c2 h2
            split at h
            · rename_i i1 i2 hi1 hi2
              refine .inr (.inr (.inl ⟨nk, nv, nf, b1, c1, b2, c2, i1, i2, rfl, hne, hm, h1, h2, hi1, hi2, ?_⟩))
              have hlen : (List.take (prefixLen (k0 :: krest) nk) (k0 :: krest)).length = 0 ↔
                  prefixLen (k0 :: krest) nk = 0 := by
                rw [List.length_take, List.length_cons]
                omega
              unfold branchOut
              by_cases hz : prefixLen (k0 :: krest) nk = 0
              · rw [if_pos hz] at h
                cases h
                rw [if_pos (hlen.mpr hz)]
              · rw [if_neg hz] at h
                cases h
                rw [if_neg (fun h => hz (hlen.mp h))]
            · cases h
    · rename_i cs nf
      split at h
      · cases h
      · cases h
        exact .inr (.inr (.inr (.inl ⟨cs, nf, k0, krest, false, _, rfl, rfl, ‹_›, .inl ⟨rfl, rfl⟩⟩)))
      · cases h
        exact .inr (.inr (.inr (.inl ⟨cs, nf, k0, krest, true, _, rfl, rfl, ‹_›, .inr ⟨rfl, rfl⟩⟩)))
    · cases h
      exact .inr (.inr (.inr (.inr (.inl ⟨rfl, hne, rfl⟩))))
    · rename_i x
      split at h
      · cases h
      · rename_i rn hrn
        split at h
        · cases h
        · cases h
          exact .inr (.inr (.inr (.inr (.inr ⟨x, _, false, _, rfl, hne, hrn, ‹_›, .inl ⟨rfl, rfl⟩⟩))))
        · cases h
          exact .inr (.inr (.inr (.inr (.inr ⟨x, rn, true, _, rfl, hne, hrn, ‹_›, .inr ⟨rfl, rfl⟩⟩))))
    · cases h

/-- What a step of `delete` can return: the node itself, the empty node,
a short node over what is left of its child (merged with the child when
that is a short node), a full node with one child updated, reduced to a
short node over its last child when only one is left, or, on a hash node,
what the loaded node returns, the loaded node when nothing changed. -/
theorem delete_cases {fuel : Nat} {n nn : Node} {pre key : Hex} {b : Bool}
    (h : t.delete resolveHash (fuel + 1) n pre key = .ok (b, nn)) :
    nn = n ∨ nn = .nil ∨
      (∃ nk nv nf child, n = .short nk nv nf ∧ prefixLen key nk = nk.length ∧ prefixLen key nk ≠ key.length ∧
        t.delete resolveHash fuel nv (pre ++ key.take nk.length) (key.drop nk.length) = .ok (true, child) ∧
        ((∃ ck cv cf, child = .short ck cv cf ∧ nn = .short (concat nk ck) cv t.newFlag) ∨
          ((∀ ck cv cf, child ≠ .short ck cv cf) ∧ nn = .short nk child t.newFlag))) ∨
      (∃ cs nf k0 krest nn', n = .full cs nf ∧ key = k0 :: krest ∧
        t.delete resolveHash fuel (cs k0) (pre ++ [k0]) krest = .ok (true, nn') ∧
        ((∃ pos rn, remainingPos (Function.update cs k0 nn') = .one pos ∧ pos ≠ terminator ∧
            Trie.resolve resolveHash (Function.update cs k0 nn' pos) pre = .ok rn ∧
            ((∃ ck cv cf, rn = .short ck cv cf ∧ nn = .short (pos :: ck) cv t.newFlag) ∨
              ((∀ ck cv cf, rn ≠ .short ck cv cf) ∧ nn = .short [pos] (Function.update cs k0 nn' pos) t.newFlag))) ∨
          (remainingPos (Function.update cs k0 nn') = .one terminator ∧
            nn = .short [terminator] (Function.update cs k0 nn' terminator) t.newFlag) ∨
          ((∀ pos, remainingPos (Function.update cs k0 nn') ≠ .one pos) ∧
            nn = .full (Function.update cs k0 nn') t.newFlag))) ∨
      (∃ x rn b' nn', n = .hash x ∧ resolveHash x pre = .ok rn ∧
        t.delete resolveHash fuel rn pre key = .ok (b', nn') ∧
        (nn = rn ∨ nn = nn')) := by
  unfold Trie.delete at h
  split at h
  · rename_i nk nv nf
    dsimp only at h
    by_cases hlt : prefixLen key nk < nk.length
    · rw [if_pos hlt] at h
      cases h
      exact .inl rfl
    · rw [if_neg hlt] at h
      have hm : prefixLen key nk = nk.length := Nat.le_antisymm (prefixLen_le_right key nk) (Nat.not_lt.mp hlt)
      by_cases hkey : prefixLen key nk = key.length
      · rw [if_pos hkey] at h
        cases h
        exact .inr (.inl rfl)
      · rw [if_neg hkey] at h
        split at h
        · cases h
        · cases h
          exact .inl rfl
        · rename_i child hchild
          refine .inr (.inr (.inl ⟨nk, nv, nf, child, rfl, hm, hkey, hchild, ?_⟩))
          split at h
          · cases h
            exact .inl ⟨_, _, _, rfl, rfl⟩
          · cases h
            exact .inr ⟨‹_›, rfl⟩
  · rename_i cs nf
    split at h
    · cases h
    · rename_i k0 krest
      split at h
      · cases h
      · cases h
        exact .inl rfl
      · rename_i nn' hdel
        refine .inr (.inr (.inr (.inl ⟨cs, nf, k0, krest, nn', rfl, rfl, hdel, ?_⟩)))
        dsimp only at h
        split at h
        · rename_i pos hpos
          by_cases hterm : pos ≠ terminator
          · rw [if_pos hterm] at h
            split at h
            · cases h
            · cases h
              exact .inl ⟨pos, _, hpos, hterm, ‹_›, .inl ⟨_, _, _, rfl, rfl⟩⟩
            · rename_i rn hrn hres
              cases h
              exact .inl ⟨pos, rn, hpos, hterm, hres, .inr ⟨hrn, rfl⟩⟩
          · rw [if_neg hterm] at h
            cases h
            have hpos' : pos = terminator := not_not.mp hterm
            subst hpos'
            exact .inr (.inl ⟨hpos, rfl⟩)
        · cases h
          exact .inr (.inr ⟨‹_›, rfl⟩)
  · cases h
    exact .inr (.inl rfl)
  · cases h
    exact .inl rfl
  · rename_i x
    split at h
    · cases h
    · rename_i rn hrn
      split at h
      · cases h
      · cases h
        exact .inr (.inr (.inr (.inr ⟨x, _, false, _, rfl, hrn, ‹_›, .inl rfl⟩)))
      · cases h
        exact .inr (.inr (.inr (.inr ⟨x, rn, true, _, rfl, hrn, ‹_›, .inr rfl⟩)))

/-- A property of nodes that the new nodes of `insert` and `delete` keep:
it holds of the empty node, of the children of a node that has it, and of
a node with `newFlag` over children that have it. -/
structure NewClosed (t : Trie) (F : Node → Prop) : Prop where
  nil : F .nil
  short_child : ∀ {k c f}, F (.short k c f) → F c
  full_child : ∀ {cs f}, F (.full cs f) → ∀ i, F (cs i)
  short_new : ∀ {k c}, F c → F (.short k c t.newFlag)
  full_new : ∀ {cs}, (∀ i, F (cs i)) → F (.full cs t.newFlag)

/-- `resolve` returns the node itself or a loaded one. -/
theorem resolve_keeps {F : Node → Prop} (hres : ∀ x pre m, resolveHash x pre = .ok m → F m) {n rn : Node} {pre : Hex}
    (hn : F n) (h : Trie.resolve resolveHash n pre = .ok rn) : F rn := by
  cases n with
  | hash x => exact hres _ _ _ h
  | _ =>
      cases h
      exact hn

section Closed

variable {F : Node → Prop} (hF : NewClosed t F)
include hF

theorem NewClosed.branchOut {c1 c2 : Node} (h1 : F c1) (h2 : F c2) (shared : Hex) (i1 i2 : Nibble) :
    F (branchOut t shared i1 c1 i2 c2) := by
  have hbranch : F (.full (Function.update (Function.update emptyChildren i1 c1) i2 c2) t.newFlag) :=
    hF.full_new (forall_update_of (forall_update_of (fun _ => hF.nil) h1) h2)
  unfold Trie.branchOut
  split
  · exact hbranch
  · exact hF.short_new hbranch

variable (hres : ∀ x pre m, resolveHash x pre = .ok m → F m)
include hres

/-- `insert` keeps every property that its new nodes keep. The induction
is on the fuel, with the cases of `insert_cases`. -/
theorem insert_keeps : ∀ (fuel : Nat) {n value nn : Node} {pre key : Hex} {b : Bool}, F n → F value →
    t.insert resolveHash fuel n pre key value = .ok (b, nn) → F nn
  | 0, _, _, _, _, _, _, _, _, h => by cases h
  | fuel + 1, n, value, nn, pre, key, b, hn, hvalue, h => by
      rcases insert_cases h with ⟨-, rfl⟩ | ⟨nk, nv, nf, b', nn', rfl, -, -, hins, ⟨-, rfl⟩ | ⟨-, rfl⟩⟩ |
          ⟨nk, nv, nf, b1, c1, b2, c2, i1, i2, rfl, -, -, h1, h2, -, -, rfl⟩ |
          ⟨cs, nf, k0, krest, b', nn', rfl, -, hins, ⟨-, rfl⟩ | ⟨-, rfl⟩⟩ | ⟨rfl, -, rfl⟩ |
          ⟨x, rn, b', nn', rfl, -, hrn, hins, ⟨-, rfl⟩ | ⟨-, rfl⟩⟩
      · exact hvalue
      · exact hn
      · exact hF.short_new (insert_keeps fuel (hF.short_child hn) hvalue hins)
      · exact hF.branchOut (insert_keeps fuel hF.nil (hF.short_child hn) h1)
          (insert_keeps fuel hF.nil hvalue h2) _ i1 i2
      · exact hn
      · exact hF.full_new (forall_update_of (hF.full_child hn) (insert_keeps fuel (hF.full_child hn k0) hvalue hins))
      · exact hF.short_new hvalue
      · exact hres _ _ _ hrn
      · exact insert_keeps fuel (hres _ _ _ hrn) hvalue hins

/-- `delete` keeps every property that its new nodes keep. -/
theorem delete_keeps : ∀ (fuel : Nat) {n nn : Node} {pre key : Hex} {b : Bool}, F n →
    t.delete resolveHash fuel n pre key = .ok (b, nn) → F nn
  | 0, _, _, _, _, _, _, h => by cases h
  | fuel + 1, n, nn, pre, key, b, hn, h => by
      rcases delete_cases h with rfl | rfl | ⟨nk, nv, nf, child, rfl, -, -, hdel, hnn⟩ |
          ⟨cs, nf, k0, krest, nn', rfl, -, hdel, hnn⟩ | ⟨x, rn, b', nn', rfl, hrn, hdel, rfl | rfl⟩
      · exact hn
      · exact hF.nil
      · have hchild := delete_keeps fuel (hF.short_child hn) hdel
        rcases hnn with ⟨ck, cv, cf, rfl, rfl⟩ | ⟨-, rfl⟩
        · exact hF.short_new (hF.short_child hchild)
        · exact hF.short_new hchild
      · have hcs : ∀ i, F (Function.update cs k0 nn' i) :=
          forall_update_of (hF.full_child hn) (delete_keeps fuel (hF.full_child hn k0) hdel)
        rcases hnn with ⟨pos, rn, -, -, hrn, ⟨ck, cv, cf, rfl, rfl⟩ | ⟨-, rfl⟩⟩ | ⟨-, rfl⟩ | ⟨-, rfl⟩
        · exact hF.short_new (hF.short_child (resolve_keeps hres (hcs pos) hrn))
        · exact hF.short_new (hcs pos)
        · exact hF.short_new (hcs terminator)
        · exact hF.full_new hcs
      · exact hres _ _ _ hrn
      · exact delete_keeps fuel (hres _ _ _ hrn) hdel

end Closed

/-- Below a new node every node of the current generation or older fits. -/
theorem newClosed_genOk (t : Trie) : NewClosed t (GenOk t.cachegen) where
  nil := trivial
  short_child h := h.2.mono h.1
  full_child h i := (h.2 i).mono h.1
  short_new h := ⟨UInt16.le_refl _, h⟩
  full_new h := ⟨UInt16.le_refl _, h⟩

/-- A new node is dirty, so any node that is right in itself fits below
it. -/
theorem newClosed_dirtyOk (t : Trie) : NewClosed t (DirtyOk true) where
  nil := trivial
  short_child h := h.2.to_true
  full_child h i := (h.2 i).to_true
  short_new h := ⟨fun _ => rfl, h⟩
  full_new h := ⟨fun _ => rfl, h⟩

/-! ### Well-formedness

`Update` inserts a value node under a value key. The calls below it
insert under the rest of a value key, under the empty key (which returns
the value), or, when a short node is split, put a child back under the
nibbles left of its key into an empty slot. -/

/-- A value key cut at `j`: nibbles before a value key, or the whole key
before nothing. -/
theorem TermKey.split {k : Hex} (h : TermKey k) (j : Nat) :
    ((∀ x ∈ k.take j, x.val < 16) ∧ TermKey (k.drop j)) ∨ (TermKey (k.take j) ∧ k.drop j = []) :=
  TermKey.append_cases (by rwa [List.take_append_drop])

theorem TermKey.drop_of_getElem? {k : Hex} (h : TermKey k) {j : Nat} (hj : k[j]? = some terminator) :
    k.drop (j + 1) = [] := by
  rcases h.split (j + 1) with ⟨hall, -⟩ | ⟨-, hnil⟩
  · have hmem : terminator ∈ k.take (j + 1) := by
      rw [List.mem_iff_getElem?]
      exact ⟨j, by rw [List.getElem?_take_of_lt (Nat.lt_succ_self j)]; exact hj⟩
    exact absurd (hall _ hmem) (by decide)
  · exact hnil

theorem not_getElem?_terminator {k : Hex} (h : ∀ x ∈ k, x.val < 16) {j : Nat} : k[j]? ≠ some terminator :=
  fun hj => absurd (h _ (List.mem_of_getElem? hj)) (by decide)

/-- The key and value of a call of `insert` inside `Update`. -/
def InsertArg (n : Node) (key : Hex) (value : Node) : Prop :=
  key = [] ∨ (TermKey key ∧ ∃ v, value = .value v) ∨ (n = .nil ∧ (∀ x ∈ key, x.val < 16) ∧ Wf value)

theorem InsertArg.termKey {n value : Node} {key : Hex} (h : InsertArg n key value) (hkey : key ≠ [])
    (hn : n ≠ .nil) : TermKey key ∧ ∃ v, value = .value v := by
  rcases h with h | h | ⟨h, -⟩
  · exact absurd h hkey
  · exact h
  · exact absurd h hn

/-- The rest of a value key, or of nibbles, is again an argument of
`insert`, into any node or into an empty slot. -/
theorem InsertArg.drop {key : Hex} {n value : Node} (hkey : TermKey key ∧ ∃ v, value = .value v) (j : Nat) :
    InsertArg n (key.drop j) value := by
  rcases hkey.1.split j with ⟨-, h⟩ | ⟨-, h⟩
  · exact .inr (.inl ⟨h, hkey.2⟩)
  · exact .inl h

theorem Wf.short_child {k : Hex} {c : Node} {f : NodeFlag} (h : Wf (.short k c f)) : Wf c := by
  rcases h with ⟨-, v, rfl⟩ | ⟨-, h⟩
  · trivial
  · exact h

/-- The child of a short node, put back under the rest of its key. -/
theorem Wf.short_insertArg {k : Hex} {c : Node} {f : NodeFlag} (h : Wf (.short k c f)) (j : Nat) :
    InsertArg .nil (k.drop j) c := by
  rcases h with h | ⟨hall, hc⟩
  · exact InsertArg.drop h j
  · exact .inr (.inr ⟨rfl, fun x hx => hall x (List.mem_of_mem_drop hx), hc⟩)

theorem insert_nil_key : ∀ {fuel : Nat} {n value nn : Node} {pre : Hex} {b : Bool},
    t.insert resolveHash fuel n pre [] value = .ok (b, nn) → nn = value
  | 0, _, _, _, _, _, h => by cases h
  | _ + 1, _, _, _, _, _, h => by
      rcases insert_cases h with ⟨-, h⟩ | ⟨_, _, _, _, _, -, hne, -⟩ | ⟨_, _, _, _, _, _, _, _, _, -, hne, -⟩ |
          ⟨_, _, _, _, _, _, -, hkey, -⟩ | ⟨-, hne, -⟩ | ⟨_, _, _, _, -, hne, -⟩
      · exact h
      all_goals first | exact absurd rfl hne | cases hkey

/-- The node `branchOut` builds is well formed when a child at the
terminator is a value and the shared prefix is nibbles. -/
theorem branchOut_wf {shared : Hex} {i1 i2 : Nibble} {c1 c2 : Node} (h1 : Wf c1) (h2 : Wf c2)
    (ht1 : i1 = terminator → ∃ v, c1 = .value v) (ht2 : i2 = terminator → ∃ v, c2 = .value v)
    (hshared : ∀ x ∈ shared, x.val < 16) : Wf (branchOut t shared i1 c1 i2 c2) := by
  have hterm : Function.update (Function.update emptyChildren i1 c1) i2 c2 terminator = .nil ∨
      ∃ v, Function.update (Function.update emptyChildren i1 c1) i2 c2 terminator = .value v := by
    by_cases hi2 : terminator = i2
    · subst hi2
      rw [Function.update_self]
      exact .inr (ht2 rfl)
    · rw [Function.update_of_ne hi2]
      by_cases hi1 : terminator = i1
      · subst hi1
        rw [Function.update_self]
        exact .inr (ht1 rfl)
      · rw [Function.update_of_ne hi1]
        exact .inl rfl
  have hbranch : Wf (.full (Function.update (Function.update emptyChildren i1 c1) i2 c2) t.newFlag) :=
    ⟨hterm, forall_update_of (forall_update_of (fun _ => trivial) h1) h2⟩
  unfold Trie.branchOut
  split
  · exact hbranch
  · exact .inr ⟨hshared, hbranch⟩

/-- A value key that shares a short node's whole key extends it. -/
theorem eq_append_of_prefixLen {key nk : Hex} (hm : prefixLen key nk = nk.length) :
    key = nk ++ key.drop nk.length := by
  have htake : key.take nk.length = nk := by
    rw [← hm, prefixLen_take, hm, List.take_length]
  conv_lhs => rw [← List.take_append_drop nk.length key, htake]

/-- A full node with one slot replaced by a well-formed node, a value or
nothing at the terminator. -/
theorem Wf.full_update {cs : Fin 17 → Node} {f f' : NodeFlag} (h : Wf (.full cs f)) {k0 : Nibble} {c : Node}
    (hc : Wf c) (hslot : k0 = terminator → c = .nil ∨ ∃ v, c = .value v) :
    Wf (.full (Function.update cs k0 c) f') := by
  obtain ⟨hterm, hcs⟩ := h
  refine ⟨?_, forall_update_of hcs hc⟩
  by_cases hk : terminator = k0
  · subst hk
    rw [Function.update_self]
    exact hslot rfl
  · rw [Function.update_of_ne hk]
    exact hterm

theorem TermKey.append_left {k r : Hex} (hk : ∀ x ∈ k, x.val < 16) (hr : TermKey r) : TermKey (k ++ r) := by
  obtain ⟨ns, hns, rfl⟩ := hr
  exact ⟨k ++ ns, fun x hx => (List.mem_append.mp hx).elim (hk x) (hns x), (List.append_assoc _ _ _).symm⟩

/-- A short node whose key is put behind nibbles, as `delete` merges it
into its parent. -/
theorem Wf.short_append {k ck : Hex} {c : Node} {f f' : NodeFlag} (hk : ∀ x ∈ k, x.val < 16)
    (h : Wf (.short ck c f)) : Wf (.short (k ++ ck) c f') := by
  rcases h with ⟨hck, hc⟩ | ⟨hck, hc⟩
  · exact .inl ⟨hck.append_left hk, hc⟩
  · exact .inr ⟨fun x hx => (List.mem_append.mp hx).elim (hk x) (hck x), hc⟩

theorem val_lt_of_ne_terminator {a : Nibble} (h : a ≠ terminator) : a.val < 16 := by
  have hne : a.val ≠ 16 := fun hv => h (Fin.ext hv)
  have hlt := a.isLt
  omega

/-- `delete` below the terminator slot finds nothing or a value and leaves
nothing or a value. -/
theorem delete_slot {fuel : Nat} {n nn : Node} {pre key : Hex} {b : Bool} (hn : n = .nil ∨ ∃ v, n = .value v)
    (h : t.delete resolveHash fuel n pre key = .ok (b, nn)) : nn = .nil ∨ ∃ v, nn = .value v := by
  cases fuel with
  | zero => cases h
  | succ fuel =>
      rcases delete_cases h with rfl | rfl | ⟨_, _, _, _, rfl, -⟩ | ⟨_, _, _, _, _, rfl, -⟩ | ⟨_, _, _, _, rfl, -⟩
      · exact hn
      · exact .inl rfl
      all_goals rcases hn with h | ⟨_, h⟩ <;> cases h

variable (hres : ∀ x pre m, resolveHash x pre = .ok m → Wf m)
include hres

/-- `insert` inside `Update` keeps nodes well formed: value keys end at
values, and the terminator slot of a full node holds nothing or a value.

The key runs through the short node: a value key stops at its end. The keys
part inside the short node: both sides go below a new branch. The key goes
down one slot of the full node. -/
theorem insert_wf : ∀ (fuel : Nat) {n value nn : Node} {pre key : Hex} {b : Bool}, Wf n → Wf value →
    InsertArg n key value → t.insert resolveHash fuel n pre key value = .ok (b, nn) → Wf nn
  | 0, _, _, _, _, _, _, _, _, _, h => by cases h
  | fuel + 1, n, value, nn, pre, key, b, hn, hvalue, harg, h => by
      rcases insert_cases h with ⟨-, rfl⟩ | ⟨nk, nv, nf, b', nn', rfl, hne, hm, hins, ⟨-, rfl⟩ | ⟨-, rfl⟩⟩ |
          ⟨nk, nv, nf, b1, c1, b2, c2, i1, i2, rfl, hne, -, h1, h2, hi1, hi2, rfl⟩ |
          ⟨cs, nf, k0, krest, b', nn', rfl, rfl, hins, ⟨-, rfl⟩ | ⟨-, rfl⟩⟩ | ⟨rfl, hne, rfl⟩ |
          ⟨x, rn, b', nn', rfl, hne, hrn, hins, ⟨-, rfl⟩ | ⟨-, rfl⟩⟩
      · exact hvalue
      · exact hn
      · obtain ⟨hkey, v, rfl⟩ := harg.termKey hne nofun
        have hsplit := eq_append_of_prefixLen hm
        rcases hn with ⟨hnk, -⟩ | ⟨hnk, hnv⟩
        · have heq : nk = key := hnk.eq_of_prefixOf hkey ⟨_, hsplit.symm⟩
          subst heq
          rw [List.drop_length] at hins
          rw [insert_nil_key hins]
          exact .inl ⟨hnk, v, rfl⟩
        · rcases TermKey.append_cases (hsplit ▸ hkey) with ⟨-, hrest⟩ | ⟨hnk', -⟩
          · exact .inr ⟨hnk, insert_wf fuel hnv hvalue (.inr (.inl ⟨hrest, v, rfl⟩)) hins⟩
          · exact absurd hnk hnk'.not_all_lt
      · obtain ⟨hkey, v, rfl⟩ := harg.termKey hne nofun
        have hc1 := insert_wf fuel (show Wf .nil from trivial) hn.short_child (hn.short_insertArg _) h1
        have hc2 := insert_wf fuel (show Wf .nil from trivial) hvalue (InsertArg.drop ⟨hkey, v, rfl⟩ _) h2
        refine branchOut_wf hc1 hc2 ?_ ?_ ?_
        · rintro rfl
          rcases hn with ⟨hnk, v1, rfl⟩ | ⟨hnk, -⟩
          · rw [hnk.drop_of_getElem? hi1] at h1
            exact ⟨v1, insert_nil_key h1⟩
          · exact absurd hi1 (not_getElem?_terminator hnk)
        · rintro rfl
          rw [hkey.drop_of_getElem? hi2] at h2
          exact ⟨v, insert_nil_key h2⟩
        · rcases hkey.split (prefixLen key nk) with ⟨hall, -⟩ | ⟨-, hnil⟩
          · exact hall
          · exact absurd hi2 (by simp [List.getElem?_eq_none (List.drop_eq_nil_iff.mp hnil)])
      · exact hn
      · obtain ⟨hkey, v, rfl⟩ := harg.termKey nofun nofun
        have harg' : InsertArg (cs k0) krest (.value v) := by
          rcases hkey.tail with ⟨-, h⟩ | ⟨-, h⟩
          · exact .inr (.inl ⟨h, v, rfl⟩)
          · exact .inl h
        refine hn.full_update (insert_wf fuel (hn.2 k0) hvalue harg' hins) fun hk0 => ?_
        rw [hkey.eq_of_terminator hk0] at hins
        exact .inr ⟨v, insert_nil_key hins⟩
      · rcases harg with h | ⟨hkey, v, rfl⟩ | ⟨-, hall, hw⟩
        · exact absurd h hne
        · exact .inl ⟨hkey, v, rfl⟩
        · exact .inr ⟨hall, hw⟩
      · exact hres _ _ _ hrn
      · exact insert_wf fuel (hres _ _ _ hrn) hvalue (.inr (.inl (harg.termKey hne nofun))) hins

/-- `delete` under a value key keeps nodes well formed.

The key runs on below the short node, so its key is nibbles. One slot of the
full node changed; the node is kept or reduced. The last child is the value
at the terminator. -/
theorem delete_wf : ∀ (fuel : Nat) {n nn : Node} {pre key : Hex} {b : Bool}, Wf n → (TermKey key ∨ key = []) →
    t.delete resolveHash fuel n pre key = .ok (b, nn) → Wf nn
  | 0, _, _, _, _, _, _, _, h => by cases h
  | fuel + 1, n, nn, pre, key, b, hn, hkey, h => by
      rcases delete_cases h with rfl | rfl | ⟨nk, nv, nf, child, rfl, hm, hlen, hdel, hnn⟩ |
          ⟨cs, nf, k0, krest, nn', rfl, rfl, hdel, hnn⟩ | ⟨x, rn, b', nn', rfl, hrn, hdel, rfl | rfl⟩
      · exact hn
      · trivial
      · have hkey' : TermKey key := hkey.resolve_right fun h => by
          subst h
          exact hlen (Nat.le_zero.mp (prefixLen_le_left [] nk))
        have hsplit := eq_append_of_prefixLen hm
        rcases hn with ⟨hnk, -⟩ | ⟨hnk, hnv⟩
        · have heq : nk = key := hnk.eq_of_prefixOf hkey' ⟨_, hsplit.symm⟩
          exact absurd (hm.trans (congrArg List.length heq)) hlen
        · rcases TermKey.append_cases (hsplit ▸ hkey') with ⟨-, hrest⟩ | ⟨hnk', -⟩
          · have hchild := delete_wf fuel hnv (.inl hrest) hdel
            rcases hnn with ⟨ck, cv, cf, rfl, rfl⟩ | ⟨-, rfl⟩
            · exact hchild.short_append hnk
            · exact .inr ⟨hnk, hchild⟩
          · exact absurd hnk hnk'.not_all_lt
      · have hkey' : TermKey (k0 :: krest) := hkey.resolve_right nofun
        have harg : TermKey krest ∨ krest = [] := by
          rcases hkey'.tail with ⟨-, h⟩ | ⟨-, h⟩
          · exact .inl h
          · exact .inr h
        have hfull : Wf (.full (Function.update cs k0 nn') t.newFlag) :=
          hn.full_update (delete_wf fuel (hn.2 k0) harg hdel) fun hk0 => delete_slot (hk0 ▸ hn.1) hdel
        rcases hnn with ⟨pos, rn, -, hpos, hrn, ⟨ck, cv, cf, rfl, rfl⟩ | ⟨-, rfl⟩⟩ | ⟨hpos, rfl⟩ | ⟨-, rfl⟩
        · have hrn' := resolve_keeps hres (hfull.2 pos) hrn
          exact Wf.short_append (show ∀ x ∈ [pos], x.val < 16 by simpa using val_lt_of_ne_terminator hpos) hrn'
        · exact .inr ⟨by simpa using val_lt_of_ne_terminator hpos, hfull.2 pos⟩
        · have hslot := hfull.1
          rcases hslot with hnil | hv
          · exact absurd hnil (remainingPos_one hpos).1
          · exact .inl ⟨⟨[], by simp, rfl⟩, hv⟩
        · exact hfull
      · exact hres _ _ _ hrn
      · exact delete_wf fuel (hres _ _ _ hrn) hkey hdel

end Update

end Lemochain.Trie
