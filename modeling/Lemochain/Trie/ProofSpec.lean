import Lemochain.Trie.History
import Lemochain.Trie.Proof

/-!
# What `Prove` writes and what `VerifyProof` reads

`path T key` is the list of subtrees whose top nodes `Prove` passes on the
way to `key`: one per short and full node, ending after a short node whose
segment leaves the key. `Prove` collects nodes standing for exactly these
trees (`provePath_spec`) and puts the blob of the first and of every one a
hash long or more under its hash (`proveNodes_spec`).

`VerifyProof` decodes the blob under the wanted hash, which is the top node
of a subtree (`decodeNode_encodeShape`), and `get` follows the key through
its embedded children to a value, to nothing, or to the hash of the next
subtree stored on its own, a subtree further down the same path
(`get_decodedOf`). So it returns what the tree holds whenever every blob it
finds under the hash of a subtree is that subtree's blob, and it finds one
when the proof holds the blobs `Prove` writes (`verifyLoop_spec`).

## Main results

* `provePath_spec`, `proveNodes_spec`: the proof database of `Prove`;
* `get_decodedOf`: `get` on a decoded node;
* `verifyLoop_spec`: soundness and completeness of the loop of `VerifyProof`;
* `run_prove_verify`: for every run with a non-empty map, the proof of every
  key verifies to the value `Get` returns, and whatever proof database keyed
  by the hashes of its blobs verifies to a value, the map holds it;
* `run_prove_verify_empty`: on the empty trie `Prove` writes nothing and
  `VerifyProof` reports the root node missing.
-/

set_option linter.dupNamespace false

namespace Lemochain.Trie

open Lemochain.Rlp

/-! ## The path to a key -/

/-- The subtrees whose top nodes `Prove` collects on the way to `key`. -/
def path : Shape → Hex → List Shape
  | _, [] => []
  | .short k c, key => .short k c :: if k <+: key then path c (key.drop k.length) else []
  | .branch Ts, i :: key => .branch Ts :: path (Ts i) key
  | _, _ => []

/-- The source's test for a segment that is not on the key. -/
theorem segment_miss_iff {k key : Hex} :
    (key.length < k.length ∨ k ≠ key.take k.length) ↔ ¬ k <+: key := by
  constructor
  · rintro (hlt | hne) hpre
    · exact absurd hpre.length_le (Nat.not_le.2 hlt)
    · exact hne (List.prefix_iff_eq_take.1 hpre)
  · intro h
    by_contra hc
    simp only [not_or, Nat.not_lt, not_not] at hc
    exact h (List.prefix_iff_eq_take.2 hc.2)

theorem path_short {k key : Hex} (c : Shape) (hkey : key ≠ []) :
    path (.short k c) key = .short k c :: if k <+: key then path c (key.drop k.length) else [] := by
  obtain ⟨a, key, rfl⟩ := List.exists_cons_of_ne_nil hkey
  rfl

/-- The trees of the path to a value key in an inner tree are non-empty inner
subtrees. The induction is on the tree, along the key.

An extension: the rest of the key is a value key. A leaf: nothing follows
it. -/
theorem path_inner {T : Shape} (hT : InnerShape T) {key : Hex} (hkey : TermKey key) :
    ∀ U ∈ path T key, InnerShape U ∧ U ≠ .nil ∧ U ∈ subtrees T := by
  induction T generalizing key with
  | nil => cases key <;> simp [path]
  | leaf w => exact absurd rfl (hT.ne_leaf w)
  | short k c ih =>
      intro U hU
      rw [path_short c hkey.ne_nil, List.mem_cons] at hU
      rcases hU with rfl | hU
      · exact ⟨hT, by simp, self_mem_subtrees _⟩
      split_ifs at hU with hpre
      · obtain ⟨rest, rfl⟩ := hpre
        rw [List.drop_left] at hU
        obtain ⟨-, hcases⟩ := hT.short_cases
        rcases hcases with ⟨hall, -, hc⟩ | ⟨hterm, w, rfl⟩
        · have hrest : TermKey rest := by
            rcases hkey.append_cases with ⟨_, hr⟩ | ⟨hterm, _⟩
            · exact hr
            · exact absurd hall hterm.not_all_lt
          obtain ⟨h₁, h₂, h₃⟩ := ih hc hrest U hU
          exact ⟨h₁, h₂, List.mem_cons_of_mem _ h₃⟩
        · cases rest <;> simp [path] at hU
      · simp at hU
  | branch Ts ih =>
      intro U hU
      obtain ⟨i, key, rfl⟩ := List.exists_cons_of_ne_nil hkey.ne_nil
      simp only [path, List.mem_cons] at hU
      rcases hU with rfl | hU
      · exact ⟨hT, by simp, self_mem_subtrees _⟩
      obtain ⟨-, hinner, -⟩ := hT.branch_cases
      rcases hkey.tail with ⟨hlt, hrest⟩ | ⟨rfl, rfl⟩
      · have hne : i ≠ terminator := fun h => absurd hlt (by rw [h]; decide)
        obtain ⟨h₁, h₂, h₃⟩ := ih i (hinner i hne) hrest U hU
        exact ⟨h₁, h₂, List.mem_cons_of_mem _ (List.mem_flatMap.2 ⟨i, List.mem_finRange i, h₃⟩)⟩
      · simp [path] at hU

/-- A non-empty inner tree is the first tree of its path to a value key. -/
theorem path_eq_cons {U : Shape} (hU : InnerShape U) (hne : U ≠ .nil) {key : Hex} (hkey : TermKey key) :
    ∃ l, path U key = U :: l := by
  cases U with
  | nil => exact absurd rfl hne
  | leaf w => exact absurd rfl (hU.ne_leaf w)
  | short k c => exact ⟨_, path_short c hkey.ne_nil⟩
  | branch Ts =>
      obtain ⟨i, key, rfl⟩ := List.exists_cons_of_ne_nil hkey.ne_nil
      exact ⟨_, rfl⟩

theorem mem_path_self {U : Shape} (hU : InnerShape U) (hne : U ≠ .nil) {key : Hex} (hkey : TermKey key) :
    U ∈ path U key := by
  obtain ⟨l, hl⟩ := path_eq_cons hU hne hkey
  rw [hl]
  exact List.mem_cons_self

/-- A subtree of a tree with non-empty values has non-empty values. -/
theorem NonEmptyValues.of_mem_subtrees {T U : Shape} (hT : NonEmptyValues T) (hU : U ∈ subtrees T) :
    NonEmptyValues U := by
  induction T with
  | nil => simp only [subtrees, List.mem_singleton] at hU; rw [hU]; exact hT
  | leaf w => simp only [subtrees, List.mem_singleton] at hU; rw [hU]; exact hT
  | short k c ih =>
      simp only [subtrees, List.mem_cons] at hU
      rcases hU with rfl | hU
      · exact hT
      · exact ih (fun r v hr => hT (k ++ r) v (by rw [Radix.Tree.lookup_short_append]; exact hr)) hU
  | branch Ts ih =>
      simp only [subtrees, List.mem_cons, List.mem_flatMap] at hU
      rcases hU with rfl | ⟨i, -, hU⟩
      · exact hT
      · exact ih i (fun r v hr => hT (i :: r) v (by rw [Radix.Tree.lookup_branch_cons]; exact hr)) hU

/-! ## The nodes `Prove` collects -/

section Collect

variable {P : FlagPred} {resolveHash : Resolver}

/-- What the collecting loop delivers from a node standing for `T`: nodes
standing for the trees of `path T key`, after those collected before. -/
def PathOk (P : FlagPred) (resolveHash : Resolver) (T : Shape) (key : Hex) (acc : List Node)
    (r : Except TrieError (List Node)) : Prop :=
  ∃ nodes, r = .ok (acc ++ nodes) ∧
    List.Forall₂ (fun n U => ∃ top, Expands P resolveHash top n U ∧ n.isShortOrFull = true) nodes (path T key)

/-- The induction hypothesis of `provePath_spec` at the remaining fuel. -/
def PathIH (P : FlagPred) (resolveHash : Resolver) (fuel : Nat) : Prop :=
  ∀ (top : Bool) (n : Node) (T : Shape) (key : Hex) (acc : List Node), Expands P resolveHash top n T →
    (InnerShape T ∧ TermKey key ∨ key = []) → fuelNeed n key.length ≤ fuel →
    PathOk P resolveHash T key acc (Trie.provePath resolveHash fuel n key acc)

theorem PathOk.cons {T Tc U : Shape} {key key' : Hex} {acc : List Node} {n : Node} {top : Bool}
    {r : Except TrieError (List Node)} (hpath : path T key = U :: path Tc key')
    (hexp : Expands P resolveHash top n U) (hsf : n.isShortOrFull = true)
    (h : PathOk P resolveHash Tc key' (acc ++ [n]) r) : PathOk P resolveHash T key acc r := by
  obtain ⟨nodes, hr, hall⟩ := h
  refine ⟨n :: nodes, by rw [hr, List.append_assoc, List.singleton_append], ?_⟩
  rw [hpath]
  exact .cons ⟨top, hexp, hsf⟩ hall

theorem path_nil (key : Hex) : path .nil key = [] := by
  cases key <;> rfl

theorem provePath_nil {resolveHash : Resolver} (fuel : Nat) (key : Hex) (acc : List Node) :
    Trie.provePath resolveHash (fuel + 1) .nil key acc = .ok (acc ++ []) := by
  rw [List.append_nil]
  cases key <;> rfl

/-- A short node: it is collected, and the loop goes on in its child after
the segment, or ends when the segment is not on the key.

The key goes on in the child. The segment leaves the key: the path ends
here. -/
theorem provePath_short_case (fuel : Nat) {k : Hex} {v : Node} {f : NodeFlag} {Tc : Shape} {top : Bool}
    {key : Hex} {acc : List Node} (hf : P top f (.short k Tc)) (hexpc : Expands P resolveHash false v Tc)
    (hT : InnerShape (.short k Tc)) (hkey : TermKey key) (hfuel : 2 * key.length + 1 ≤ fuel + 1)
    (ih : PathIH P resolveHash fuel) :
    PathOk P resolveHash (.short k Tc) key acc (Trie.provePath resolveHash (fuel + 1) (.short k v f) key acc) := by
  obtain ⟨hk, hcases⟩ := hT.short_cases
  have hexp : Expands P resolveHash top (.short k v f) (.short k Tc) := .short f hf hexpc
  have hklen := List.length_pos_iff.2 hk
  have hunfold : Trie.provePath resolveHash (fuel + 1) (.short k v f) key acc =
      if key.length < k.length ∨ k ≠ key.take k.length then
        Trie.provePath resolveHash fuel .nil key (acc ++ [.short k v f])
      else Trie.provePath resolveHash fuel v (key.drop k.length) (acc ++ [.short k v f]) := by
    obtain ⟨a, key', rfl⟩ := List.exists_cons_of_ne_nil hkey.ne_nil
    rfl
  rw [hunfold]
  by_cases hpre : k <+: key
  · rw [if_neg (fun h => segment_miss_iff.1 h hpre)]
    have hpath : path (.short k Tc) key = .short k Tc :: path Tc (key.drop k.length) := by
      rw [path_short Tc hkey.ne_nil, if_pos hpre]
    obtain ⟨rest, rfl⟩ := hpre
    rw [List.drop_left] at hpath ⊢
    have hlen : (k ++ rest).length = k.length + rest.length := List.length_append
    have hsub : InnerShape Tc ∧ TermKey rest ∨ rest = [] := by
      rcases hcases with ⟨hall, -, hTc⟩ | ⟨hterm, -⟩
      · rcases hkey.append_cases with ⟨_, hr⟩ | ⟨hterm, _⟩
        · exact .inl ⟨hTc, hr⟩
        · exact absurd hall hterm.not_all_lt
      · rcases hkey.append_cases with ⟨hall, _⟩ | ⟨_, hr⟩
        · exact absurd hall hterm.not_all_lt
        · exact .inr hr
    have hfuel' : fuelNeed v rest.length ≤ fuel := by
      have := fuelNeed_le v rest.length
      omega
    exact PathOk.cons hpath hexp rfl (ih false v Tc rest (acc ++ [.short k v f]) hexpc hsub hfuel')
  · rw [if_pos (segment_miss_iff.2 hpre)]
    have hpath : path (.short k Tc) key = .short k Tc :: path .nil key := by
      rw [path_short Tc hkey.ne_nil, if_neg hpre, path_nil]
    have := List.length_pos_iff.2 hkey.ne_nil
    obtain ⟨fuel, rfl⟩ : ∃ f', fuel = f' + 1 := ⟨fuel - 1, by omega⟩
    exact PathOk.cons hpath hexp rfl ⟨[], provePath_nil fuel key _, by rw [path_nil]; exact .nil⟩

/-- A full node: it is collected, and the loop goes on in the child of the
next nibble. -/
theorem provePath_full_case (fuel : Nat) {cs : Fin 17 → Node} {f : NodeFlag} {T : Shape} {top : Bool}
    {key : Hex} {acc : List Node} (hexp : Expands P resolveHash top (.full cs f) T) (hT : InnerShape T)
    (hkey : TermKey key) (hfuel : 2 * key.length + 1 ≤ fuel + 1) (ih : PathIH P resolveHash fuel) :
    PathOk P resolveHash T key acc (Trie.provePath resolveHash (fuel + 1) (.full cs f) key acc) := by
  obtain ⟨Ts, rfl, -, hcs⟩ := hexp.full_inv
  obtain ⟨-, hinner, -⟩ := hT.branch_cases
  obtain ⟨i, key, rfl⟩ := List.exists_cons_of_ne_nil hkey.ne_nil
  have hsub : InnerShape (Ts i) ∧ TermKey key ∨ key = [] := by
    rcases hkey.tail with ⟨hlt, hrest⟩ | ⟨-, hnil⟩
    · exact .inl ⟨hinner i fun h => absurd hlt (by rw [h]; decide), hrest⟩
    · exact .inr hnil
  have hfuel' : fuelNeed (cs i) key.length ≤ fuel := by
    have := fuelNeed_le (cs i) key.length
    simp only [List.length_cons] at hfuel
    omega
  simp only [Trie.provePath]
  exact PathOk.cons rfl hexp rfl (ih false (cs i) (Ts i) key (acc ++ [.full cs f]) (hcs i) hsub hfuel')

/-- The collecting loop of `Prove`: on a node standing for an inner tree, with
a value key (or none left) and enough fuel, it collects nodes standing for
the trees of the path. The induction is on the fuel; a hash node is loaded
and collected in the form it loads to. -/
theorem provePath_spec (fuel : Nat) : PathIH P resolveHash fuel := by
  induction fuel with
  | zero =>
      intro top n T key acc _ _ hfuel
      exact absurd hfuel (Nat.not_le.2 (fuelNeed_pos n _))
  | succ fuel ih =>
      intro top n T key acc hexp hkey hfuel
      rcases hkey with ⟨hT, hkey⟩ | rfl
      · obtain ⟨a, key', hcons⟩ := List.exists_cons_of_ne_nil hkey.ne_nil
        cases n with
        | nil =>
            rw [hexp.nil_inv]
            refine ⟨[], ?_, by rw [path_nil]; exact .nil⟩
            rw [hcons, List.append_nil]
            rfl
        | value w => exact absurd hexp.value_inv (hT.ne_leaf w)
        | hash h =>
            obtain ⟨rn, hres, hsf, hrn⟩ := hexp.hash_inv
            have hfuel' : fuelNeed rn key.length ≤ fuel := by
              cases rn <;> simp_all [fuelNeed, Node.isShortOrFull]
            have hunfold : Trie.provePath resolveHash (fuel + 1) (.hash h) key acc =
                Trie.provePath resolveHash fuel rn key acc := by
              rw [hcons]
              simp only [Trie.provePath, hres []]
            rw [hunfold]
            exact ih top rn T key acc hrn (.inl ⟨hT, hkey⟩) hfuel'
        | short k v f =>
            obtain ⟨Tc, rfl, hf, hexpc⟩ := hexp.short_inv
            exact provePath_short_case fuel hf hexpc hT hkey (by simpa [fuelNeed] using hfuel) ih
        | full cs f => exact provePath_full_case fuel hexp hT hkey (by simpa [fuelNeed] using hfuel) ih
      · refine ⟨[], ?_, by cases T <;> exact .nil⟩
        cases n <;> simp [Trie.provePath]

end Collect

/-! ## The proof database `Prove` fills -/

section Store

variable {keccak : Bytes → Lemochain.Hash} {S : Shape → Prop}

/-- The proof database `Prove` fills for the trees `Us` collected from index
`i` on: the blob of the first tree and of every tree a hash long or more,
under its hash. -/
def proofPuts (keccak : Bytes → Lemochain.Hash) : Nat → List Shape → DiskDB → DiskDB
  | _, [], proofDb => proofDb
  | i, U :: Us, proofDb =>
      proofPuts keccak (i + 1) Us
        (if i = 0 ∨ 32 ≤ (encodeShape keccak U).length then
          proofDb.Put (keccak (encodeShape keccak U)).bytes (some (encodeShape keccak U))
        else proofDb)

/-- `hashChildren` without a database, on a short or full node standing for a
decodable tree of `S`: the collapsed node encodes to the tree's blob, and its
cached hash, if any, is the hash of the blob.

Without a database the hasher returns none. -/
theorem hashChildren_none (henv : HashEnv keccak S) (hcl : ChildClosed S) (hr : Hasher) {t : Trie}
    {db : Database} {top : Bool} {n : Node} {U : Shape}
    (hexp : Expands (FlagOk keccak db) (t.resolveHash db) top n U) (hsf : n.isShortOrFull = true)
    (hU : Decodable U) (hS : S U) (hok : DbOk keccak S db) :
    ∃ c cached, hr.hashChildren keccak n none = .ok (c, cached, none) ∧ c.toItem = nodeItem keccak U ∧
      ∀ x d, c.cache = some (some x, d) → x = (keccak (encodeShape keccak U)).bytes := by
  have hch : ∃ f, FlagOk keccak db top f U ∧
      ChildrenOk keccak S db top f U none (hr.hashChildren keccak n none) := by
    cases n with
    | short k v f =>
        obtain ⟨Tc, rfl, hf, hexpc⟩ := hexp.short_inv
        exact ⟨f, hf, hashChildren_short hr (hash_spec henv hcl hr t v) hf hexpc hU hcl hS (DbLe.refl _) hok⟩
    | full cs f =>
        obtain ⟨Ts, rfl, hf, hcs⟩ := hexp.full_inv
        exact ⟨f, hf, hashChildren_full hr hcl (fun j => hash_spec henv hcl hr t (cs j)) hcs hU hS
          (DbLe.refl _) hok⟩
    | _ => simp [Node.isShortOrFull] at hsf
  obtain ⟨f, hf, c, cached, db1, hres, hitem, hcache, hsome, -⟩ := hch
  obtain rfl : db1 = none := Option.not_isSome_iff_eq_none.1 (by simp [hsome])
  exact ⟨c, cached, hres, hitem, fun x d hx =>
    hf.hash_eq x (Prod.mk.inj (Option.some.inj (hcache.symm.trans hx))).1⟩

/-- The storing loop of `Prove` puts the blobs of the collected trees. The
induction is on the collected nodes; each one is collapsed by
`hashChildren_none` and `store_spec` says whether it is a proof element.

Embedded: a proof element only at the root. -/
theorem proveNodes_spec (henv : HashEnv keccak S) (hcl : ChildClosed S) (hr : Hasher) {t : Trie}
    {db : Database} (hok : DbOk keccak S db) :
    ∀ {nodes : List Node} {Us : List Shape} (i : Nat) (proofDb : DiskDB),
      List.Forall₂ (fun n U => ∃ top, Expands (FlagOk keccak db) (t.resolveHash db) top n U ∧
        n.isShortOrFull = true) nodes Us →
      (∀ U ∈ Us, Decodable U ∧ S U) →
      proveNodes keccak hr i 0 nodes proofDb = .ok (proofPuts keccak i Us proofDb)
  | [], [], _, _, .nil, _ => rfl
  | n :: nodes, U :: Us, i, proofDb, .cons ⟨top, hexp, hsf⟩ hall, hUs => by
      obtain ⟨hdec, hS⟩ := hUs U List.mem_cons_self
      obtain ⟨c, cached, hres, hitem, hcache⟩ := hashChildren_none henv hcl hr hexp hsf hdec hS hok
      have hstore := store_spec hdec hitem hcache none false
      obtain ⟨-, hnh, -⟩ := c.ne_of_toItem hdec hitem
      have henc : encode c.toItem = encodeShape keccak U := by rw [hitem]; rfl
      have ih : ∀ pd, proveNodes keccak hr (i + 1) 0 nodes pd = .ok (proofPuts keccak (i + 1) Us pd) :=
        fun pd => proveNodes_spec henv hcl hr hok (i + 1) pd hall fun U' h => hUs U' (List.mem_cons_of_mem _ h)
      rw [proofPuts]
      simp only [proveNodes, hres]
      rw [hstore]
      by_cases hlen : (encodeShape keccak U).length < 32
      · have hasHash : c.asHash = none := by cases c <;> first | rfl | exact absurd rfl (hnh _)
        by_cases hi : i = 0
        · subst hi
          simp [hlen, hasHash, henc, ih]
        · simp [hlen, hasHash, hi, ih, Nat.not_le.2 hlen]
      · have hle : 32 ≤ (encodeShape keccak U).length := Nat.not_lt.1 hlen
        simp [hlen, hle, Collapsed.asHash, henc, ih]

theorem proofPuts_isSome {k : Bytes} :
    ∀ (i : Nat) (Us : List Shape) (proofDb : DiskDB), (proofDb k).isSome →
      (proofPuts keccak i Us proofDb k).isSome
  | _, [], _, h => h
  | i, U :: Us, proofDb, h => by
      apply proofPuts_isSome (i + 1) Us
      split_ifs
      · by_cases hk : k = (keccak (encodeShape keccak U)).bytes
        · simp [DiskDB.Put, hk]
        · simpa [DiskDB.Put, hk] using h
      · exact h

/-- Every blob put is there at the end, the ones put later having the same
key only when they have the same hash.

The first tree again: it was put at index zero. -/
theorem proofPuts_present :
    ∀ (i : Nat) (Us : List Shape) (proofDb : DiskDB) (U : Shape), U ∈ Us →
      (i = 0 ∧ Us.head? = some U ∨ 32 ≤ (encodeShape keccak U).length) →
      (proofPuts keccak i Us proofDb (keccak (encodeShape keccak U)).bytes).isSome
  | _, [], _, _, h, _ => absurd h List.not_mem_nil
  | i, U' :: Us, proofDb, U, hU, hput => by
      rw [proofPuts]
      rcases List.mem_cons.1 hU with rfl | hU
      · apply proofPuts_isSome
        rw [if_pos (by rcases hput with ⟨hi, -⟩ | h; exact .inl hi; exact .inr h)]
        simp [DiskDB.Put]
      · rcases hput with ⟨rfl, h⟩ | h
        · cases h
          apply proofPuts_isSome
          rw [if_pos (.inl rfl)]
          simp [DiskDB.Put]
        · exact proofPuts_present (i + 1) Us _ U hU (.inr h)

/-- Every entry of the filled database was there before or is the blob of a
collected tree under its hash. -/
theorem proofPuts_entry {k b : Bytes} :
    ∀ (i : Nat) (Us : List Shape) (proofDb : DiskDB), proofPuts keccak i Us proofDb k = some b →
      proofDb k = some b ∨ ∃ U ∈ Us, k = (keccak (encodeShape keccak U)).bytes ∧ b = encodeShape keccak U
  | _, [], _, h => .inl h
  | i, U :: Us, proofDb, h => by
      rcases proofPuts_entry (i + 1) Us _ h with h | ⟨U', hU', h'⟩
      · split_ifs at h
        · by_cases hk : k = (keccak (encodeShape keccak U)).bytes
          · simp only [DiskDB.Put, hk, Function.update_self, Option.some.injEq] at h
            exact .inr ⟨U, List.mem_cons_self, hk, h.symm⟩
          · simp only [DiskDB.Put, Function.update_of_ne hk] at h
            exact .inl h
        · exact .inl h
      · exact .inr ⟨U', List.mem_cons_of_mem _ hU', h'⟩

end Store

/-! ## What `get` finds in a decoded node -/

section Read

variable (keccak : Bytes → Lemochain.Hash)

/-- What `get` may return on the decoded top node of `U` along `key`: nothing
or a value, as the tree holds it, or the hash of a subtree stored on its own
further down the path, with the rest of the key under which it holds the
same. -/
def GetOutcome (U : Shape) (key : Hex) : Hex × Node → Prop
  | (_, .nil) => U.lookup key = none
  | (_, .value v) => U.lookup key = some v
  | (rest, .hash x) => ∃ c, x = (keccak (encodeShape keccak c)).bytes ∧
      32 ≤ (encodeShape keccak c).length ∧ InnerShape c ∧ c ≠ .nil ∧ TermKey rest ∧
      rest.length < key.length ∧ U.lookup key = c.lookup rest ∧ c ∈ subtrees U ∧ path c rest ⊆ path U key
  | _ => False

variable {keccak}

/-- An outcome for a subtree reached along the key is an outcome for the
tree. -/
theorem GetOutcome.lift {U c : Shape} {key rest : Hex} {r : Hex × Node}
    (hlook : U.lookup key = c.lookup rest) (hlen : rest.length < key.length) (hsub : c ∈ subtrees U)
    (hpath : path c rest ⊆ path U key) (h : GetOutcome keccak c rest r) : GetOutcome keccak U key r := by
  obtain ⟨k, n⟩ := r
  cases n with
  | nil => exact hlook.trans h
  | value v => exact hlook.trans h
  | hash x =>
      obtain ⟨c', hx, hlong, hc', hne, hrest, hlen', hlook', hsub', hpath'⟩ := h
      exact ⟨c', hx, hlong, hc', hne, hrest, hlen'.trans hlen, hlook.trans hlook', subtrees_subset hsub hsub',
        List.Subset.trans hpath' hpath⟩
  | short _ _ _ => exact h.elim
  | full _ _ => exact h.elim

/-- A child reached along the key: embedded, `get` goes on in its decoded
node; stored on its own, `get` stops at its hash. -/
theorem get_childNode {U c : Shape} {key rest : Hex} (g : UInt16) (hc : InnerShape c) (hne : c ≠ .nil)
    (hrest : TermKey rest) (hlook : U.lookup key = c.lookup rest) (hlen : rest.length < key.length)
    (hsub : c ∈ subtrees U) (hpath : path c rest ⊆ path U key)
    (ih : ∃ r, get (decodedOf keccak none g c) rest = .ok r ∧ GetOutcome keccak c rest r) :
    ∃ r, get (childNode keccak c (decodedOf keccak none g c)) rest = .ok r ∧ GetOutcome keccak U key r := by
  rw [childNode_of_ne_nil hne]
  split_ifs with hshort
  · obtain ⟨r, hget, hout⟩ := ih
    exact ⟨r, hget, hout.lift hlook hlen hsub hpath⟩
  · exact ⟨(rest, .hash (keccak (encodeShape keccak c)).bytes), rfl,
      c, rfl, Nat.not_lt.1 hshort, hc, hne, hrest, hlen, hlook, hsub, hpath⟩

variable (keccak) in
/-- `get` on the decoded top node of a non-empty inner tree along a value
key. The induction is on the tree: the top node is read here, an embedded
child by the induction hypothesis.

An extension: the child is read along the rest of the key. A leaf: the
segment is the whole key. The segment leaves the key: nothing. A nibble: its
child is read along the rest of the key. The terminator: the value slot. -/
theorem get_decodedOf (hash : Option Bytes) (g : UInt16) {U : Shape} (hU : InnerShape U) (hne : U ≠ .nil)
    (hv : NonEmptyValues U) {key : Hex} (hkey : TermKey key) :
    ∃ r, get (decodedOf keccak hash g U) key = .ok r ∧ GetOutcome keccak U key r := by
  induction U generalizing hash key with
  | nil => exact absurd rfl hne
  | leaf w => exact absurd rfl (hU.ne_leaf w)
  | short k c ih =>
      obtain ⟨hk, hcases⟩ := hU.short_cases
      have hklen := List.length_pos_iff.2 hk
      by_cases hpre : k <+: key
      · obtain ⟨rest, rfl⟩ := hpre
        have hmatch : ¬ ((k ++ rest).length < k.length ∨ k ≠ (k ++ rest).take k.length) :=
          fun h => segment_miss_iff.1 h (List.prefix_append k rest)
        have hlen : (k ++ rest).length = k.length + rest.length := List.length_append
        rcases hcases with ⟨hall, ⟨Ts, rfl⟩, hc⟩ | ⟨hterm, w, rfl⟩
        · have hrest : TermKey rest := by
            rcases hkey.append_cases with ⟨_, hr⟩ | ⟨hterm, _⟩
            · exact hr
            · exact absurd hall hterm.not_all_lt
          have hpath : path (.short k (.branch Ts)) (k ++ rest) = .short k (.branch Ts) :: path (.branch Ts) rest := by
            rw [path_short _ hkey.ne_nil, if_pos (List.prefix_append k rest), List.drop_left]
          have hvc : NonEmptyValues (.branch Ts) :=
            hv.of_mem_subtrees (List.mem_cons_of_mem _ (self_mem_subtrees _))
          have := get_childNode g hc (by simp) hrest (Radix.Tree.lookup_short_append k rest _) (by omega)
            (List.mem_cons_of_mem _ (self_mem_subtrees _)) (by rw [hpath]; exact List.subset_cons_self _ _)
            (ih none hc (by simp) hvc hrest)
          simpa only [decodedOf, get, if_neg hmatch, List.drop_left] using this
        · have hnil : rest = [] := by
            rcases hkey.append_cases with ⟨hall, _⟩ | ⟨_, hr⟩
            · exact absurd hall hterm.not_all_lt
            · exact hr
          subst hnil
          refine ⟨([], .value w), ?_, ?_⟩
          · simp only [decodedOf, get, if_neg hmatch]
          · simpa [GetOutcome] using Radix.Tree.lookup_short_append k [] (.leaf w)
      · have hmiss := segment_miss_iff.2 hpre
        refine ⟨([], .nil), ?_, Radix.Tree.lookup_short_eq_none c hpre⟩
        rcases hcases with ⟨-, ⟨Ts, rfl⟩, -⟩ | ⟨-, w, rfl⟩
        · simp only [decodedOf, get, if_pos hmiss]
        · simp only [decodedOf, get, if_pos hmiss]
  | branch Ts ih =>
      obtain ⟨-, hinner, hval⟩ := hU.branch_cases
      obtain ⟨i, key, rfl⟩ := List.exists_cons_of_ne_nil hkey.ne_nil
      have hget : get (decodedOf keccak hash g (.branch Ts)) (i :: key) =
          get (if i = terminator then valueNode (Ts i) else childNode keccak (Ts i) (decodedOf keccak none g (Ts i)))
            key := rfl
      rw [hget]
      rcases hkey.tail with ⟨hlt, hrest⟩ | ⟨rfl, rfl⟩
      · have hi : i ≠ terminator := fun h => absurd hlt (by rw [h]; decide)
        rw [if_neg hi]
        by_cases hnil : Ts i = .nil
        · refine ⟨(key, .nil), ?_, ?_⟩
          · rw [hnil]
            rfl
          · simp [GetOutcome, hnil]
        · have hsub : Ts i ∈ subtrees (.branch Ts) :=
            List.mem_cons_of_mem _ (List.mem_flatMap.2 ⟨i, List.mem_finRange i, self_mem_subtrees _⟩)
          exact get_childNode g (hinner i hi) hnil hrest (Radix.Tree.lookup_branch_cons Ts i key)
            (Nat.lt_succ_self _) hsub (List.subset_cons_self _ _)
            (ih i none (hinner i hi) hnil (hv.of_mem_subtrees hsub) hrest)
      · rw [if_pos rfl]
        rcases hval with hnil | ⟨w, hw⟩
        · refine ⟨([], .nil), ?_, ?_⟩
          · rw [hnil]
            rfl
          · simp [GetOutcome, hnil]
        · have hwne : w ≠ [] := hv [terminator] w (by simp [hw])
          refine ⟨([], .value w), ?_, ?_⟩
          · rw [hw, valueNode, if_pos (List.length_pos_iff.2 hwne)]
            rfl
          · simp [GetOutcome, hw]

end Read

/-! ## The loop of `VerifyProof` -/

section Verify

variable {keccak : Bytes → Lemochain.Hash}

/-- Every blob the proof database holds under the hash of a non-empty subtree
of `T` is that subtree's blob. -/
def ProofConsistent (keccak : Bytes → Lemochain.Hash) (T : Shape) (proofDb : DiskDB) : Prop :=
  ∀ U ∈ subtrees T, U ≠ .nil → ∀ b, proofDb (keccak (encodeShape keccak U)).bytes = some b →
    b = encodeShape keccak U

/-- The proof database holds, under their hashes, blobs for the first tree of
the path to `key` and for every tree on it a hash long or more. -/
def ProofPresent (keccak : Bytes → Lemochain.Hash) (U : Shape) (key : Hex) (proofDb : DiskDB) : Prop :=
  ∀ U' ∈ path U key, (U' = U ∨ 32 ≤ (encodeShape keccak U').length) →
    (proofDb (keccak (encodeShape keccak U')).bytes).isSome

/-- The hash a hash node of the decoded node holds, copied over the wanted
hash, is the hash of the subtree. -/
theorem copy_hash (want : Lemochain.Hash) (c : Shape) :
    want.copy (keccak (encodeShape keccak c)).bytes = keccak (encodeShape keccak c) := by
  rw [Hash.copy_of_length _ (keccak (encodeShape keccak c)).length_eq, BytesToHash_bytes]

/-- The loop of `VerifyProof` from the hash of a subtree of `T`: whatever
value it returns is the one the subtree holds, if the proof database holds
no other blob under the hash of a subtree; and it returns it when the
database holds the blobs of the path and the bound covers the key. The
induction is on the bound; each round reads one proof node and goes on in
a subtree further down the path with a shorter key.

The first proof node is missing. The proof nodes below are those of the path
below. -/
theorem verifyLoop_spec {T : Shape} {proofDb : DiskDB} (hcons : ProofConsistent keccak T proofDb)
    (hfits : ∀ U ∈ subtrees T, (encodeShape keccak U).length < 2 ^ 64) (hvT : NonEmptyValues T) :
    ∀ (fuel i : Nat) {U : Shape} {key : Hex}, U ∈ subtrees T → InnerShape U → U ≠ .nil → TermKey key →
      (∀ v n, verifyLoop proofDb fuel i key (keccak (encodeShape keccak U)) = .ok (v, n) → v = U.lookup key) ∧
      (ProofPresent keccak U key proofDb → key.length < fuel →
        ∃ n, verifyLoop proofDb fuel i key (keccak (encodeShape keccak U)) = .ok (U.lookup key, n)) := by
  intro fuel
  induction fuel with
  | zero =>
      intro i U key _ _ _ _
      exact ⟨fun v n h => by simp [verifyLoop] at h, fun _ h => absurd h (Nat.not_lt_zero _)⟩
  | succ fuel ih =>
      intro i U key hUT hU hne hkey
      have hvU := hvT.of_mem_subtrees hUT
      have hdec : Decodable U := .of_innerShape hU hne hvU
      have hdecode : decodeNode (decodeFuel (encodeShape keccak U)) (some (keccak (encodeShape keccak U)).bytes)
          (encodeShape keccak U) 0 = .ok (decodedOf keccak (some (keccak (encodeShape keccak U)).bytes) 0 U) := by
        have := decodeNode_encodeShape hdec (some (keccak (encodeShape keccak U)).bytes) 0 []
          (decodeFuel (encodeShape keccak U)) (Sized.of_encode_length _ (hfits U hUT))
          (by simp only [List.append_nil, decodeFuel]; omega)
        rwa [List.append_nil] at this
      obtain ⟨⟨rest, node⟩, hget, hout⟩ := get_decodedOf keccak (some (keccak (encodeShape keccak U)).bytes) 0
        hU hne hvU hkey
      cases hb : proofDb (keccak (encodeShape keccak U)).bytes with
      | none =>
          refine ⟨fun v n h => by simp [verifyLoop, hb] at h, fun hpres _ => ?_⟩
          have := hpres U (mem_path_self hU hne hkey) (.inl rfl)
          rw [hb] at this
          cases this
      | some b =>
          obtain rfl := hcons U hUT hne b hb
          cases node with
          | nil =>
              have hres : verifyLoop proofDb (fuel + 1) i key (keccak (encodeShape keccak U)) = .ok (none, i) := by
                simp only [verifyLoop, hb, hdecode, hget]
              exact ⟨fun v n h => by rw [hres] at h; cases h; exact hout.symm, fun _ _ => ⟨i, by rw [hres, hout]⟩⟩
          | value w =>
              have hres : verifyLoop proofDb (fuel + 1) i key (keccak (encodeShape keccak U)) =
                  .ok (some w, i + 1) := by
                simp only [verifyLoop, hb, hdecode, hget]
              exact ⟨fun v n h => by rw [hres] at h; cases h; exact hout.symm,
                fun _ _ => ⟨i + 1, by rw [hres, hout]⟩⟩
          | hash x =>
              obtain ⟨c, rfl, hlong, hc, hcne, hrest, hlen, hlook, hsub, hpath⟩ := hout
              have hres : verifyLoop proofDb (fuel + 1) i key (keccak (encodeShape keccak U)) =
                  verifyLoop proofDb fuel (i + 1) rest (keccak (encodeShape keccak c)) := by
                simp only [verifyLoop, hb, hdecode, hget, copy_hash]
              obtain ⟨hsound, hcomplete⟩ := ih (i + 1) (subtrees_subset hUT hsub) hc hcne hrest
              refine ⟨fun v n h => by rw [hres] at h; rw [hlook]; exact hsound v n h,
                fun hpres hfuel => ?_⟩
              have hpres' : ProofPresent keccak c rest proofDb := fun U' hU' _ =>
                hpres U' (hpath hU') (.inr (by
                  rcases ‹U' = c ∨ _› with rfl | h
                  · exact hlong
                  · exact h))
              obtain ⟨n, hn⟩ := hcomplete hpres' (by omega)
              exact ⟨n, by rw [hres, hlook]; exact hn⟩
          | short _ _ _ => exact hout.elim
          | full _ _ => exact hout.elim

end Verify

/-! ## Proofs for the tries of a run -/

/-- The empty string is no node: the decoder rejects it. -/
theorem decodeNode_emptyString (hash : Option Bytes) (g : UInt16) :
    decodeNode (decodeFuel (encode (.str []))) hash (encode (.str [])) g =
      .error (.plain (.splitList .expectedList)) := rfl

theorem subtrees_memShape_mem {ops : List Op} {U : Shape} (hU : U ∈ subtrees (memShape ops)) :
    U ∈ runShapes ops :=
  List.mem_flatMap.2 ⟨ops, (List.mem_inits _ _).2 (List.prefix_refl ops), hU⟩

section Runs

variable {keccak : Bytes → Lemochain.Hash}

/-- The proof of a key in a trie holding a non-empty tree of `S`: `Prove`
fills the database with the blobs of the path, and `VerifyProof` reads back
the value the tree holds.

The filled database holds the blobs of the path, and no other under their
hashes. -/
theorem Cached.prove_verify {S : Shape → Prop} (henv : HashEnv keccak S) (hcl : ChildClosed S) {t : Trie}
    {db : Database} {T : Shape} (hc : Cached keccak S t db T) (hT : T ≠ .nil) (hsub : ∀ U ∈ subtrees T, S U)
    (key : Bytes) :
    ∃ proofDb n, t.Prove keccak (t.resolveHash db) key 0 (fun _ => none) = .ok proofDb ∧
      VerifyProof (keccak (encodeShape keccak T)) key proofDb = .ok (byteMap T key, n) := by
  have hkey := keybytesToHex_eq key
  obtain ⟨nodes, hpath, hall⟩ := provePath_spec (methodFuel (keybytesToHex key)) true t.root T
    (keybytesToHex key) [] hc.holds.expands (.inl ⟨hc.holds.shape, hkey⟩) (fuelNeed_le_methodFuel _ _)
  have hinner := path_inner hc.holds.shape hkey
  have hUs : ∀ U ∈ path T (keybytesToHex key), Decodable U ∧ S U := fun U hU =>
    ⟨.of_innerShape (hinner U hU).1 (hinner U hU).2.1 (hc.values.of_mem_subtrees (hinner U hU).2.2),
      hsub U (hinner U hU).2.2⟩
  have hstore := proveNodes_spec henv hcl ⟨0, 0⟩ hc.dbOk 0 (fun _ => none) hall hUs
  have hcons : ProofConsistent keccak T (proofPuts keccak 0 (path T (keybytesToHex key)) fun _ => none) := by
    intro U hU hne b hb
    rcases proofPuts_entry 0 _ _ hb with h | ⟨U', hU', hk, rfl⟩
    · cases h
    · exact (henv.inj U U' (hsub U hU) (hUs U' hU').2 (Hash.ext hk)).symm
  have hpres : ProofPresent keccak T (keybytesToHex key)
      (proofPuts keccak 0 (path T (keybytesToHex key)) fun _ => none) := by
    intro U' hU' hput
    refine proofPuts_present 0 _ _ U' hU' ?_
    rcases hput with rfl | h
    · obtain ⟨l, hl⟩ := path_eq_cons hc.holds.shape hT hkey
      exact .inl ⟨rfl, by rw [hl]; rfl⟩
    · exact .inr h
  obtain ⟨n, hn⟩ := (verifyLoop_spec hcons (fun U hU => henv.fits U (hsub U hU)) hc.values
    ((keybytesToHex key).length + 1) 0 (self_mem_subtrees T) hc.holds.shape hT hkey).2 hpres
    (Nat.lt_succ_self _)
  exact ⟨_, n, by rw [Trie.Prove, hpath, List.nil_append]; exact hstore, hn⟩

/-- Whatever a proof database keyed by the hashes of its blobs verifies to,
the tree holds, when no blob of the database collides with the blob of a
subtree and only the empty string hashes to the empty root.

The empty root: its only blob is the empty string, which is no node. -/
theorem verifyLoop_sound {T : Shape} (hvT : NonEmptyValues T) (hT : InnerShape T)
    (hfits : ∀ U ∈ subtrees T, (encodeShape keccak U).length < 2 ^ 64) {proofDb : DiskDB}
    (hkeyed : ∀ k b, proofDb k = some b → k = (keccak b).bytes)
    (hcoll : ∀ k b, proofDb k = some b → ∀ U ∈ subtrees T, U ≠ .nil →
      keccak b = keccak (encodeShape keccak U) → b = encodeShape keccak U)
    (hempty : ∀ k b, proofDb k = some b → keccak b = emptyRoot → b = encode (.str []))
    (key : Bytes) (fuel : Nat) (v : Bytes) (n : Nat)
    (h : verifyLoop proofDb fuel 0 (keybytesToHex key) (rootHash keccak T) = .ok (some v, n)) :
    byteMap T key = some v := by
  by_cases hnil : T = .nil
  · subst hnil
    cases fuel with
    | zero => cases h
    | succ fuel =>
        simp only [rootHash, verifyLoop] at h
        split at h
        · cases h
        · rename_i b hb
          obtain rfl := hempty _ b hb (Hash.ext (hkeyed _ b hb).symm)
          rw [decodeNode_emptyString] at h
          cases h
  · have hcons : ProofConsistent keccak T proofDb := fun U hU hne b hb =>
      hcoll _ b hb U hU hne (Hash.ext (hkeyed _ b hb).symm)
    rw [rootHash_of_ne_nil hnil] at h
    exact ((verifyLoop_spec hcons hfits hvT fuel 0 (self_mem_subtrees T) hT hnil
      (keybytesToHex_eq key)).1 (some v) n h).symm

end Runs

/-- Merkle proofs after any run: when the map is not empty, the proof `Prove`
writes for any key, present or absent, verifies against the root hash to the
value `Get` returns; and for any proof database keyed by the hashes of its
blobs, with no blob colliding with the blob of a subtree of the trie and
only the empty string hashing to the empty root, whatever value the loop of
`VerifyProof` returns, at any bound, is the value `Get` returns.

A non-empty map is held by a non-empty tree. -/
theorem run_prove_verify (keccak : Bytes → Lemochain.Hash) (ops : List Op)
    (henv : HashEnv keccak (· ∈ runShapes ops)) :
    ∃ s, Session.run keccak ops = .ok s ∧ ∃ root t₁, s.trie.Hash keccak = .ok (root, t₁) ∧
      ((∃ key v, (expected ops).values key = some v) →
        ∀ key, ∃ proofDb n, s.trie.Prove keccak (s.trie.resolveHash s.db) key 0 (fun _ => none) = .ok proofDb ∧
          VerifyProof root key proofDb = .ok ((s.trie.Get (s.trie.resolveHash s.db) key).1, n)) ∧
      ∀ proofDb : DiskDB, (∀ k b, proofDb k = some b → k = (keccak b).bytes) →
        (∀ k b, proofDb k = some b → ∀ U ∈ subtrees (memShape ops), U ≠ .nil →
          keccak b = keccak (encodeShape keccak U) → b = encodeShape keccak U) →
        (∀ k b, proofDb k = some b → keccak b = emptyRoot → b = encode (.str [])) →
        ∀ key fuel v n, verifyLoop proofDb fuel 0 (keybytesToHex key) root = .ok (some v, n) →
          (s.trie.Get (s.trie.resolveHash s.db) key).1 = some v := by
  have hcl := runShapes_childClosed ops
  have hS : memShape ops ≠ .nil → memShape ops ∈ runShapes ops :=
    fun _ => memShape_mem_runShapes (List.prefix_refl ops)
  obtain ⟨s, hrun, hc, -⟩ := run_ok henv
  obtain ⟨t₁, hhash, -, -⟩ := hc.hash henv hcl hS
  have hmap := (memTrie_holds ops).2
  have hget : ∀ key, (s.trie.Get (s.trie.resolveHash s.db) key).1 = byteMap (memShape ops) key :=
    fun key => (hc.get key).1
  refine ⟨s, hrun, _, t₁, hhash, fun ⟨k, v, hkv⟩ key => ?_, fun proofDb hkeyed hcoll hempty key fuel v n h => ?_⟩
  · have hne : memShape ops ≠ .nil := by
      intro hnil
      rw [← hmap, hnil] at hkv
      simp [byteMap] at hkv
    obtain ⟨proofDb, n, hprove, hverify⟩ := hc.prove_verify henv hcl hne (fun U hU => subtrees_memShape_mem hU) key
    exact ⟨proofDb, n, hprove, by rw [rootHash_of_ne_nil hne, hget]; exact hverify⟩
  · rw [hget]
    exact verifyLoop_sound hc.values hc.holds.shape (fun U hU => henv.fits U (subtrees_memShape_mem hU))
      hkeyed hcoll hempty key fuel v n h

/-- Two keys under a common nibble, committed and reloaded, hashed with
Keccak-256. -/
theorem run_prove_verify_pair :
    HashEnv (fun b => BytesToHash (Keccak.keccak256 b))
        (· ∈ runShapes [.update [0x12] [2], .update [0x13] [3], .reset]) ∧
      ∃ s, Session.run (fun b => BytesToHash (Keccak.keccak256 b)) [.update [0x12] [2], .update [0x13] [3], .reset] =
          .ok s ∧
        ∃ root t₁, s.trie.Hash (fun b => BytesToHash (Keccak.keccak256 b)) = .ok (root, t₁) ∧
          ((∃ key v, (expected [.update [0x12] [2], .update [0x13] [3], .reset]).values key = some v) →
            ∀ key, ∃ proofDb n, s.trie.Prove (fun b => BytesToHash (Keccak.keccak256 b)) (s.trie.resolveHash s.db)
                key 0 (fun _ => none) = .ok proofDb ∧
              VerifyProof root key proofDb = .ok ((s.trie.Get (s.trie.resolveHash s.db) key).1, n)) ∧
          ∀ proofDb : DiskDB, (∀ k b, proofDb k = some b → k = (BytesToHash (Keccak.keccak256 b)).bytes) →
            (∀ k b, proofDb k = some b →
              ∀ U ∈ subtrees (memShape [.update [0x12] [2], .update [0x13] [3], .reset]), U ≠ .nil →
                BytesToHash (Keccak.keccak256 b) =
                  BytesToHash (Keccak.keccak256 (encodeShape (fun b => BytesToHash (Keccak.keccak256 b)) U)) →
                b = encodeShape (fun b => BytesToHash (Keccak.keccak256 b)) U) →
            (∀ k b, proofDb k = some b → BytesToHash (Keccak.keccak256 b) = emptyRoot → b = encode (.str [])) →
            ∀ key fuel v n, verifyLoop proofDb fuel 0 (keybytesToHex key) root = .ok (some v, n) →
              (s.trie.Get (s.trie.resolveHash s.db) key).1 = some v :=
  have h : HashEnv (fun b => BytesToHash (Keccak.keccak256 b))
      (· ∈ runShapes [.update [0x12] [2], .update [0x13] [3], .reset]) :=
    HashEnv.of_prefixes _ 1 [[225], [145], [223], [30], [242], [190], [105], [29]] (by decide +kernel)
      (fun i hi => by simp only [List.length_cons, List.length_nil] at hi; interval_cases i <;> decide +kernel)
      (by decide) (by decide) (by decide) (by decide +kernel)
  ⟨h, run_prove_verify _ _ h⟩

/-- On the trie of a run of no operations, the empty trie, `Prove` puts no
node and `VerifyProof` reports the root node missing. -/
theorem run_prove_verify_empty :
    ∃ s, Session.run (fun b => BytesToHash (Keccak.keccak256 b)) [] = .ok s ∧
      s.trie.Hash (fun b => BytesToHash (Keccak.keccak256 b)) = .ok (emptyRoot, s.trie) ∧
      s.trie.Prove (fun b => BytesToHash (Keccak.keccak256 b)) (s.trie.resolveHash s.db) [1] 0 (fun _ => none) =
        .ok (fun _ => none) ∧
      VerifyProof emptyRoot [1] (fun _ => none) = .error (.missing 0 emptyRoot) :=
  ⟨⟨Trie.empty, freshDb, []⟩, by rw [Session.run, New_zero]; rfl, by simp [Trie.Hash, Trie.hashRoot, Trie.empty],
    rfl, rfl⟩

end Lemochain.Trie
