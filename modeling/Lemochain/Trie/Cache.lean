import Lemochain.Trie.ShapeCodec

/-!
# The cache invariant of a trie and its database

A trie caches, in the flags of its nodes, the hash of each node's blob and
whether the node has changes not yet written; its hash nodes stand for
blobs in the database. This module states when that cache is right, for a
hash function `keccak`, and proves that a database that satisfies it loads
back the tree a hash node stands for.

* `refs T`: the subtrees the blob of `T` refers to by hash;
* `Stored db T`: the database holds the blob of `T` under its hash, and can
  load every subtree it refers to;
* `FlagOk db`: the flag condition (a `FlagPred`) of the cache: a cached hash
  is the hash of the node's blob, and is only cached below the root for a
  blob a hash long or more; a clean node with a cached hash is stored; a
  clean node without one is an embedded node below the root;
* `DbOk S db`: every blob in the database is the blob of a tree in `S`
  under its hash (or the empty root entry of `NewDatabase`);
* `HashEnv keccak S`: what `keccak` must do on the trees `S`: no collisions
  between their blobs, neither the zero hash nor `emptyRoot` as a hash, and
  blobs shorter than `2 ^ 64` bytes, checked on a list of trees one blob
  at a time by `HashEnv.of_prefixes`; `ChildClosed S`: `S` holds the
  children of its trees.

## Main results

* `Stored.expands`: a stored tree is what the trie loads for its hash node;
* `Expands.transport`: a database that keeps every blob keeps the cache
  invariant, whatever the cache generation of the trie that reads it;
* `insert_stored`: under `HashEnv`, `Database.insert` of a blob of `S` keeps
  every blob and makes the new one readable.
-/

namespace Lemochain.Trie

open Lemochain.Rlp

section Refs

variable (keccak : Bytes → Hash)

/-- What the parent's blob refers to by hash for a child subtree `c` whose
own such subtrees are `r`: nothing for an empty child, `c` itself when its
blob is a hash long or more, else what the embedded `c` refers to. -/
def refsOf (c : Shape) (r : List Shape) : List Shape :=
  match c with
  | .nil => []
  | c => if (encodeShape keccak c).length < 32 then r else [c]

/-- The subtrees the blob of `T` refers to by hash. -/
def refs : Shape → List Shape
  | .short _ (.leaf _) => []
  | .short _ c => refsOf keccak c (refs c)
  | .branch Ts => (List.finRange 17).flatMap fun i =>
      if i = terminator then [] else refsOf keccak (Ts i) (refs (Ts i))
  | _ => []

theorem refs_short {p : Hex} {c : Shape} (hc : ∀ v, c ≠ .leaf v) :
    refs keccak (.short p c) = refsOf keccak c (refs keccak c) := by
  cases c with
  | leaf v => exact absurd rfl (hc v)
  | _ => rfl

theorem mem_refs_branch {Ts : Fin 17 → Shape} {T' : Shape} :
    T' ∈ refs keccak (.branch Ts) ↔
      ∃ i, i ≠ terminator ∧ T' ∈ refsOf keccak (Ts i) (refs keccak (Ts i)) := by
  simp only [refs, List.mem_flatMap, List.mem_finRange, true_and]
  constructor
  · rintro ⟨i, hi⟩
    by_cases ht : i = terminator
    · simp [ht] at hi
    · exact ⟨i, ht, by simpa [ht] using hi⟩
  · rintro ⟨i, ht, hi⟩
    exact ⟨i, by simpa [ht] using hi⟩

theorem refsOf_of_lt {c : Shape} (hc : c ≠ .nil) {r : List Shape}
    (hlt : (encodeShape keccak c).length < 32) : refsOf keccak c r = r := by
  cases c <;> first | exact absurd rfl hc | exact if_pos hlt

theorem refsOf_of_le {c : Shape} (hc : c ≠ .nil) {r : List Shape}
    (hle : ¬ (encodeShape keccak c).length < 32) : refsOf keccak c r = [c] := by
  cases c <;> first | exact absurd rfl hc | exact if_neg hle

/-- What a parent refers to by hash for a child has a long blob, given that
what the child refers to has. -/
theorem mem_refsOf_long {c T' : Shape} {r : List Shape}
    (hr : ∀ T'' ∈ r, 32 ≤ (encodeShape keccak T'').length) (h : T' ∈ refsOf keccak c r) :
    32 ≤ (encodeShape keccak T').length := by
  unfold refsOf at h
  split at h
  · simp at h
  · split at h
    · exact hr T' h
    · rw [List.mem_singleton.1 h]
      omega

/-- A subtree referred to by hash has a blob a hash long or more. The
induction is on the tree, as `refs` recurses. -/
theorem mem_refs_long {T T' : Shape} (h : T' ∈ refs keccak T) :
    32 ≤ (encodeShape keccak T').length := by
  induction T generalizing T' with
  | nil => simp [refs] at h
  | leaf v => simp [refs] at h
  | short p c ih =>
      cases c with
      | leaf v => simp [refs] at h
      | _ => exact mem_refsOf_long keccak (fun _ h'' => ih h'') h
  | branch Ts ih =>
      obtain ⟨i, -, hi⟩ := (mem_refs_branch keccak).1 h
      exact mem_refsOf_long keccak (fun _ h'' => ih i h'') hi

end Refs

section Stored

variable (keccak : Bytes → Hash) (db : Database)

/-- The database holds the blob of `T` under its hash. -/
def DbHas (T : Shape) : Prop :=
  db.Node (keccak (encodeShape keccak T)) = some (encodeShape keccak T)

/-- `T` can be loaded from the database: its blob is there under its hash,
the decoder reads the blob back, its sizes fit, and every subtree it refers
to by hash can be loaded too. -/
inductive Stored : Shape → Prop
  | mk {T : Shape} : DbHas keccak db T → Decodable T → Sized (nodeItem keccak T) →
      (∀ T' ∈ refs keccak T, Stored T') → Stored T

/-- Every subtree the blob of `T` refers to by hash can be loaded. -/
def Covered (T : Shape) : Prop := ∀ T' ∈ refs keccak T, Stored keccak db T'

/-- The cache condition on the flag `f` of a node standing for `T`. -/
structure FlagOk (top : Bool) (f : NodeFlag) (T : Shape) : Prop where
  /-- A cached hash is the hash of the node's blob. -/
  hash_eq : ∀ h, f.hash = some h → h = (keccak (encodeShape keccak T)).bytes
  /-- Below the root only a blob a hash long or more has its hash cached. -/
  hash_long : ∀ h, f.hash = some h → top = false → 32 ≤ (encodeShape keccak T).length
  /-- A clean node with a cached hash is in the database. -/
  clean_stored : ∀ h, f.hash = some h → f.dirty = false → Stored keccak db T
  /-- A clean node without a cached hash is embedded in its parent's blob. -/
  clean_embedded : f.hash = none → f.dirty = false →
    top = false ∧ (encodeShape keccak T).length < 32

end Stored

/-- Every blob `db` returns, `db'` returns too. -/
def DbLe (db db' : Database) : Prop := ∀ h b, db.Node h = some b → db'.Node h = some b

/-- The database invariant of a run. -/
structure DbOk (keccak : Bytes → Hash) (S : Shape → Prop) (db : Database) : Prop where
  /-- Every blob the database returns is the blob of a tree of `S` under its hash. -/
  blob : ∀ h b, db.Node h = some b → ∃ T, S T ∧ h = keccak (encodeShape keccak T) ∧ b = encodeShape keccak T
  /-- The only `nil` blob of the cache is the one `NewDatabase` starts with, under the zero hash. -/
  nil_root : ∀ h, (db.nodes.lookup h).map CachedNode.blob = some none → h = Hash.zero

/-- What the hash function must do on the trees `S` a run hashes. -/
structure HashEnv (keccak : Bytes → Hash) (S : Shape → Prop) : Prop where
  /-- No two different blobs of `S` have the same hash. -/
  inj : ∀ T₁ T₂, S T₁ → S T₂ → keccak (encodeShape keccak T₁) = keccak (encodeShape keccak T₂) →
    encodeShape keccak T₁ = encodeShape keccak T₂
  /-- No blob of `S` hashes to the zero hash. -/
  ne_zero : ∀ T, S T → keccak (encodeShape keccak T) ≠ Hash.zero
  /-- No blob of `S` hashes to the root of the empty trie. -/
  ne_empty : ∀ T, S T → keccak (encodeShape keccak T) ≠ emptyRoot
  /-- The blobs fit the source's `uint64` sizes. -/
  fits : ∀ T, S T → (encodeShape keccak T).length < 2 ^ 64

/-- `S` holds the children of its trees. -/
structure ChildClosed (S : Shape → Prop) : Prop where
  short_child : ∀ k c, S (.short k c) → S c
  branch_child : ∀ Ts i, S (.branch Ts) → S (Ts i)

variable {keccak : Bytes → Hash} {S : Shape → Prop} {db db' : Database}

/-! ## Growing databases -/

theorem DbLe.refl (db : Database) : DbLe db db := fun _ _ h => h

theorem DbLe.trans {db₁ db₂ db₃ : Database} (h₁ : DbLe db₁ db₂) (h₂ : DbLe db₂ db₃) : DbLe db₁ db₃ :=
  fun h b hb => h₂ h b (h₁ h b hb)

/-- `Database.Commit` keeps what every hash reads. -/
theorem DbLe.commit (db : Database) (root : Hash) : DbLe db (db.Commit root) := fun h b hb => by
  rw [Database.Node_Commit]
  exact hb

theorem DbOk.commit (hok : DbOk keccak S db) (root : Hash) : DbOk keccak S (db.Commit root) :=
  ⟨fun h b hb => hok.blob h b (by rwa [Database.Node_Commit] at hb),
    fun h hn => hok.nil_root h (Database.nil_of_Commit hn)⟩

/-- On a list of trees the conditions of `HashEnv` are finitely many checks. -/
theorem HashEnv.of_list (L : List Shape)
    (hinj : ∀ T₁ ∈ L, ∀ T₂ ∈ L, keccak (encodeShape keccak T₁) = keccak (encodeShape keccak T₂) →
      encodeShape keccak T₁ = encodeShape keccak T₂)
    (hzero : ∀ T ∈ L, keccak (encodeShape keccak T) ≠ Hash.zero)
    (hempty : ∀ T ∈ L, keccak (encodeShape keccak T) ≠ emptyRoot)
    (hfits : ∀ T ∈ L, (encodeShape keccak T).length < 2 ^ 64) : HashEnv keccak (· ∈ L) :=
  ⟨fun T₁ T₂ h₁ h₂ => hinj T₁ h₁ T₂ h₂, hzero, hempty, hfits⟩

/-- The hash conditions of `HashEnv` on a list of trees, checked once for
each distinct blob: their hashes are distinct, and none is the zero hash or
the empty root. -/
theorem HashEnv.of_blobs (L : List Shape)
    (hhash : ((L.map (encodeShape keccak)).dedup.map keccak).Nodup ∧
      ∀ h ∈ (L.map (encodeShape keccak)).dedup.map keccak, h ≠ Hash.zero ∧ h ≠ emptyRoot)
    (hfits : ∀ T ∈ L, (encodeShape keccak T).length < 2 ^ 64) : HashEnv keccak (· ∈ L) := by
  have hmem : ∀ T ∈ L, encodeShape keccak T ∈ (L.map (encodeShape keccak)).dedup := fun T hT =>
    List.mem_dedup.mpr (List.mem_map_of_mem hT)
  have hne : ∀ T ∈ L, keccak (encodeShape keccak T) ≠ Hash.zero ∧ keccak (encodeShape keccak T) ≠ emptyRoot :=
    fun T hT => hhash.2 _ (List.mem_map_of_mem (hmem T hT))
  refine HashEnv.of_list L (fun T₁ h₁ T₂ h₂ heq => ?_) (fun T hT => (hne T hT).1) (fun T hT => (hne T hT).2) hfits
  exact List.inj_on_of_nodup_map hhash.1 (hmem T₁ h₁) (hmem T₂ h₂) heq

/-- The hash conditions of `HashEnv` from the first `n` bytes of each hash,
given blob by blob as the list `F`: distinct prefixes make distinct hashes,
and a prefix that is neither the zero hash's nor the empty root's rules both
out. Each blob's prefix is a check of its own, so a concrete list of trees
is hashed one blob at a time. -/
theorem HashEnv.of_prefixes (L : List Shape) (n : Nat) (F : List Bytes)
    (hlen : (L.map (encodeShape keccak)).dedup.length = F.length)
    (hF : ∀ i < F.length,
      ((L.map (encodeShape keccak)).dedup.map fun b => (keccak b).bytes.take n)[i]? = F[i]?)
    (hnd : F.Nodup) (hz : Hash.zero.bytes.take n ∉ F) (he : emptyRoot.bytes.take n ∉ F)
    (hfits : ∀ T ∈ L, (encodeShape keccak T).length < 2 ^ 64) : HashEnv keccak (· ∈ L) := by
  have hmap : ((L.map (encodeShape keccak)).dedup.map keccak).map (fun h : Hash => h.bytes.take n) = F := by
    rw [List.map_map]
    refine List.ext_getElem? fun i => ?_
    by_cases hi : i < F.length
    · exact hF i hi
    · rw [List.getElem?_eq_none (by simp only [List.length_map]; omega), List.getElem?_eq_none (by omega)]
  have hmem : ∀ h ∈ (L.map (encodeShape keccak)).dedup.map keccak, h.bytes.take n ∈ F :=
    fun h hh => hmap ▸ List.mem_map_of_mem hh
  refine HashEnv.of_blobs L ⟨List.Nodup.of_map _ (hmap ▸ hnd), fun h hh => ⟨?_, ?_⟩⟩ hfits
  · rintro rfl
    exact hz (hmem _ hh)
  · rintro rfl
    exact he (hmem _ hh)

theorem Stored.mono (hle : DbLe db db') {T : Shape} (h : Stored keccak db T) : Stored keccak db' T := by
  induction h with
  | mk hdb hdec hsz _ ih => exact .mk (hle _ _ hdb) hdec hsz ih

theorem Stored.covered {T : Shape} (h : Stored keccak db T) : Covered keccak db T := by
  cases h with
  | mk _ _ _ hrefs => exact hrefs

theorem Covered.mono (hle : DbLe db db') {T : Shape} (h : Covered keccak db T) : Covered keccak db' T :=
  fun T' hT' => (h T' hT').mono hle

theorem FlagOk.mono (hle : DbLe db db') {top : Bool} {f : NodeFlag} {T : Shape}
    (h : FlagOk keccak db top f T) : FlagOk keccak db' top f T :=
  ⟨h.hash_eq, h.hash_long, fun x hx hd => (h.clean_stored x hx hd).mono hle, h.clean_embedded⟩

/-- New nodes have no cached hash and are dirty. -/
theorem FlagOk.newFlag (t : Trie) (top : Bool) (T : Shape) : FlagOk keccak db top t.newFlag T :=
  ⟨fun _ h => (by simp [Trie.newFlag] at h), fun _ h => (by simp [Trie.newFlag] at h),
    fun _ h => (by simp [Trie.newFlag] at h), fun _ h => (by simp [Trie.newFlag] at h)⟩

/-- The generation of a node is not part of the cache condition. -/
theorem FlagOk.gen {top : Bool} {f : NodeFlag} {T : Shape} (h : FlagOk keccak db top f T) (g : UInt16) :
    FlagOk keccak db top { f with gen := g } T :=
  ⟨h.hash_eq, h.hash_long, h.clean_stored, h.clean_embedded⟩

/-- `Database.insert` of the blob of a tree of `S` under its hash keeps
every blob and the invariant, and makes the blob readable: a blob already
there under that hash is the same blob, since `keccak` has no collision on
`S`, and it is not the `nil` blob, since `keccak` does not hit the zero
hash. -/
theorem insert_stored (henv : HashEnv keccak S) (hok : DbOk keccak S db) {T : Shape} (hT : S T) :
    DbLe db (db.insert (keccak (encodeShape keccak T)) (encodeShape keccak T)) ∧
      DbOk keccak S (db.insert (keccak (encodeShape keccak T)) (encodeShape keccak T)) ∧
      DbHas keccak (db.insert (keccak (encodeShape keccak T)) (encodeShape keccak T)) T := by
  have hsame : ∀ b, db.Node (keccak (encodeShape keccak T)) = some b → b = encodeShape keccak T := by
    intro b hb
    obtain ⟨T', hT', hh, rfl⟩ := hok.blob _ b hb
    exact (henv.inj T T' hT hT' hh).symm
  refine ⟨fun h b hb => ?_, ⟨fun h b hb => ?_, fun h hn => hok.nil_root h (Database.nil_of_insert hn)⟩, ?_⟩
  · rw [Database.Node_insert]
    split_ifs with hmem heq
    · exact hb
    · subst heq
      rw [hsame b hb]
    · exact hb
  · rw [Database.Node_insert] at hb
    split_ifs at hb with hmem heq
    · exact hok.blob h b hb
    · subst heq
      cases hb
      exact ⟨T, hT, rfl, rfl⟩
    · exact hok.blob h b hb
  · unfold DbHas
    rw [Database.Node_insert]
    split_ifs with hmem heq
    · obtain ⟨node, hnode⟩ := Option.isSome_iff_exists.1 (AList.lookup_isSome.2 hmem)
      cases hblob : node.blob with
      | none => exact absurd (hok.nil_root _ (by simp [hnode, hblob])) (henv.ne_zero T hT)
      | some b =>
          have hb : db.Node (keccak (encodeShape keccak T)) = some b := by
            simp [Database.Node, hnode, hblob]
          rw [hb, hsame _ hb]
    · rfl
    · exact absurd rfl heq

/-- An embedded node loaded from its parent's blob: clean, no cached hash. -/
theorem FlagOk.embedded {T : Shape} (hlt : (encodeShape keccak T).length < 32) (g : UInt16) :
    FlagOk keccak db false ⟨none, g, false⟩ T :=
  ⟨fun _ h => (by cases h), fun _ h => (by cases h), fun _ h => (by cases h), fun _ _ => ⟨rfl, hlt⟩⟩

/-! ## Loading what is stored -/

/-- The decoder gives the node it builds the hash it was asked for, clean. -/
theorem decodeShort_cache {ref : Bytes → Except DecodeError (Node × Bytes)} {hash : Option Bytes}
    {elems : Bytes} {g : UInt16} {n : Node} (h : decodeShort ref hash elems g = .ok n) :
    n.cache = some (hash, false) := by
  unfold decodeShort at h
  repeat' split at h
  all_goals first | (cases h; rfl) | cases h

theorem decodeFull_cache {ref : Bytes → Except DecodeError (Node × Bytes)} {hash : Option Bytes}
    {elems : Bytes} {g : UInt16} {n : Node} (h : decodeFull ref hash elems g = .ok n) :
    n.cache = some (hash, false) := by
  unfold decodeFull at h
  repeat' split at h
  all_goals first | (cases h; rfl) | cases h

theorem mapError_eq_ok {ε ε' α : Type} {f : ε → ε'} {x : Except ε α} {a : α} :
    x.mapError f = .ok a ↔ x = .ok a := by
  cases x <;> simp [Except.mapError]

theorem decodeNode_cache {fuel : Nat} {hash : Option Bytes} {buf : Bytes} {g : UInt16} {n : Node}
    (h : decodeNode fuel hash buf g = .ok n) : n.cache = some (hash, false) := by
  cases fuel with
  | zero => cases h
  | succ fuel =>
      unfold decodeNode at h
      split_ifs at h
      split at h
      · cases h
      · dsimp only at h
        split_ifs at h
        · exact decodeShort_cache (mapError_eq_ok.1 h)
        · exact decodeFull_cache (mapError_eq_ok.1 h)

theorem resolveHash_cache {t : Trie} {h : Bytes} {pre : Hex} {n : Node}
    (hres : t.resolveHash db h pre = .ok n) : n.cache = some (some h, false) := by
  unfold Trie.resolveHash at hres
  dsimp only at hres
  split at hres
  · cases hres
  · unfold mustDecodeNode at hres
    split at hres
    · rename_i hdec
      cases hres
      exact decodeNode_cache hdec
    · cases hres

/-- A hash node of the trie stands for a node loaded with that hash cached
and clean, whose flag satisfies the trie's flag condition. -/
theorem Expands.hash_flag {P : FlagPred} {t : Trie} {top : Bool} {h : Bytes} {T : Shape}
    (hx : Expands P (t.resolveHash db) top (.hash h) T) :
    ∃ f, P top f T ∧ f.hash = some h ∧ f.dirty = false := by
  obtain ⟨n, hres, hsf, hn⟩ := hx.hash_inv
  have hc := resolveHash_cache (hres [])
  cases hn with
  | short f hf _ =>
      simp only [Node.cache, Option.some.injEq, Prod.mk.injEq] at hc
      exact ⟨f, hf, hc.1, hc.2⟩
  | full f hf _ =>
      simp only [Node.cache, Option.some.injEq, Prod.mk.injEq] at hc
      exact ⟨f, hf, hc.1, hc.2⟩
  | _ => simp [Node.isShortOrFull] at hsf

/-- Under the cache condition a hash node is the hash of the blob of the
tree it stands for, a stored one, and a long one below the root. -/
theorem Expands.hash_stored {t : Trie} {top : Bool} {h : Bytes} {T : Shape}
    (hx : Expands (FlagOk keccak db) (t.resolveHash db) top (.hash h) T) :
    h = (keccak (encodeShape keccak T)).bytes ∧ Stored keccak db T ∧
      (top = false → 32 ≤ (encodeShape keccak T).length) := by
  obtain ⟨f, hf, hh, hd⟩ := hx.hash_flag
  exact ⟨hf.hash_eq h hh, hf.clean_stored h hh hd, hf.hash_long h hh⟩

/-- The node the decoder builds for a child: an embedded child decoded in
place, a long one as a hash node. -/
theorem expands_childNode {r : Resolver} {g : UInt16} {c : Shape} (hc : c ≠ .nil)
    (ihc : ∀ hash top, FlagOk keccak db top ⟨hash, g, false⟩ c →
      (∀ T' ∈ refs keccak c, Expands (FlagOk keccak db) r false
        (.hash (keccak (encodeShape keccak T')).bytes) T') →
      Expands (FlagOk keccak db) r top (decodedOf keccak hash g c) c)
    (hrefs : ∀ T' ∈ refsOf keccak c (refs keccak c), Expands (FlagOk keccak db) r false
      (.hash (keccak (encodeShape keccak T')).bytes) T') :
    Expands (FlagOk keccak db) r false (childNode keccak c (decodedOf keccak none g c)) c := by
  rw [childNode_of_ne_nil hc]
  split
  · rename_i hlt
    rw [refsOf_of_lt keccak hc hlt] at hrefs
    exact ihc none false (.embedded hlt g) hrefs
  · rename_i hle
    exact hrefs c (by rw [refsOf_of_le keccak hc hle]; exact List.mem_singleton_self c)

/-- The node the decoder builds from the blob of `T` stands for `T` and
satisfies the cache condition, given that the subtrees the blob refers to by
hash do. The induction is on `Decodable`, one level of embedding per step.

The value slot: nothing, or a non-empty value. -/
theorem expands_decodedOf {r : Resolver} {g : UInt16} {T : Shape} (hT : Decodable T) :
    ∀ hash top, FlagOk keccak db top ⟨hash, g, false⟩ T →
      (∀ T' ∈ refs keccak T, Expands (FlagOk keccak db) r false
        (.hash (keccak (encodeShape keccak T')).bytes) T') →
      Expands (FlagOk keccak db) r top (decodedOf keccak hash g T) T := by
  induction hT with
  | leaf _ _ => exact fun hash top hf _ => .short _ hf (.value _)
  | @extension p c _ _ hc ih =>
      intro hash top hf hrefs
      rw [decodedOf_short hc.ne_leaf]
      refine .short _ hf (expands_childNode hc.ne_nil ih ?_)
      rwa [refs_short keccak hc.ne_leaf] at hrefs
  | @branch Ts _ hval ih =>
      intro hash top hf hrefs
      refine .full _ hf fun i => ?_
      by_cases hi : i = terminator
      · subst hi
        simp only
        rcases hval with h | ⟨v, hv, h⟩
        · rw [h]
          exact .nil
        · rw [h, valueNode, if_pos (List.length_pos_iff.2 hv)]
          exact .value v
      · simp only [if_neg hi]
        by_cases hnil : Ts i = .nil
        · rw [hnil]
          exact .nil
        · exact expands_childNode hnil (ih i hi hnil)
            fun T' hT' => hrefs T' ((mem_refs_branch keccak).2 ⟨i, hi, hT'⟩)

/-- A stored tree is what the trie loads for the hash node of its blob: the
database returns the blob, the decoder reads it back as `decodedOf`, and
that node stands for the tree. The induction is on `Stored`, through the
subtrees the blob refers to. -/
theorem Stored.expands {T : Shape} (hs : Stored keccak db T) (t : Trie) :
    ∀ top, (top = false → 32 ≤ (encodeShape keccak T).length) →
      Expands (FlagOk keccak db) (t.resolveHash db) top (.hash (keccak (encodeShape keccak T)).bytes) T := by
  induction hs with
  | @mk T hdb hdec hsz hrefs ih =>
      intro top hlong
      have hload : ∀ pre, t.resolveHash db (keccak (encodeShape keccak T)).bytes pre =
          .ok (decodedOf keccak (some (keccak (encodeShape keccak T)).bytes) t.cachegen T) := by
        intro pre
        have hdecode := decodeNode_encodeShape hdec (some (keccak (encodeShape keccak T)).bytes)
          t.cachegen [] (decodeFuel (encodeShape keccak T)) hsz (by simp [decodeFuel])
        rw [List.append_nil] at hdecode
        unfold Trie.resolveHash DbHas at *
        dsimp only
        rw [BytesToHash_bytes, hdb]
        split
        · rename_i heq
          cases heq
        · rename_i heq
          cases heq
          rw [mustDecodeNode, hdecode]
      have hflag : FlagOk keccak db top ⟨some (keccak (encodeShape keccak T)).bytes, t.cachegen, false⟩ T :=
        ⟨fun _ h => (Option.some_inj.1 h).symm, fun _ _ => hlong,
          fun _ _ _ => .mk hdb hdec hsz hrefs, fun h => by cases h⟩
      refine .hash hload ?_ (expands_decodedOf hdec _ top hflag fun T' hT' =>
        ih T' hT' false fun _ => mem_refs_long keccak hT')
      cases hdec with
      | extension _ _ hc => rw [decodedOf_short hc.ne_leaf]; rfl
      | _ => rfl

/-- A database that keeps every blob keeps the cache invariant, for a trie
of any cache generation: flags only get more of their stored trees, and a
hash node loads its stored tree again. The induction is on the expansion. -/
theorem Expands.transport {t : Trie} (hle : DbLe db db') (t' : Trie) {top : Bool} {n : Node}
    {T : Shape} (h : Expands (FlagOk keccak db) (t.resolveHash db) top n T) :
    Expands (FlagOk keccak db') (t'.resolveHash db') top n T := by
  induction h with
  | nil => exact .nil
  | value v => exact .value v
  | short f hf _ ih => exact .short f (hf.mono hle) ih
  | full f hf _ ih => exact .full f (hf.mono hle) ih
  | hash hres hsf hn _ =>
      obtain ⟨rfl, hs, hlong⟩ := (Expands.hash hres hsf hn).hash_stored
      exact (hs.mono hle).expands t' _ hlong

end Lemochain.Trie
