import Lemochain.Trie.Cache
import Lemochain.Trie.Hasher
import Lemochain.Lib.Loop

/-!
# What the hasher computes

On a node that stands for a decodable tree `T` and satisfies the cache
condition `FlagOk` against the database `db0` the trie reads, `hasher.hash`
succeeds and returns

* what the parent's blob holds for `T` (`refItem T`), or, at the root
  (`force`), the hash node of the blob of `T`;
* a copy of the node that stands for `T` again and satisfies the cache
  condition against any database that keeps the blobs it returns;
* when given a database, one that keeps every blob, holds the blob of `T`
  if it is a hash long or more or the root, and can load every subtree the
  blob of `T` refers to.

This is `hash_spec`, by induction on the node. The cache check of the
source is `hashWith_spec`: a cached hash is the right one by `FlagOk`, and
a node unloaded or kept clean is already stored. The walk is `walk_spec`:
`store` writes exactly the blob of `T`, whose hash `HashEnv` keeps apart
from every other blob of the run. The loop over the children of a full
node is `fold_children`, with the invariant `LoopInv`.
-/

namespace Lemochain.Trie

open Lemochain.Rlp

variable {keccak : Bytes → Hash} {S : Shape → Prop}

/-- What the hasher returns for a node standing for `T`: the hash node of
its blob at the root, what the parent's blob holds for it below. -/
def HashedAs (keccak : Bytes → Hash) (force : Bool) (T : Shape) (c : Collapsed) : Prop :=
  if force then c = .hash (keccak (encodeShape keccak T)).bytes else c.toItem = refItem keccak T

theorem hashedAs_iff {keccak : Bytes → Hash} {force : Bool} {T : Shape} {c : Collapsed} :
    HashedAs keccak force T c ↔
      if force then c = .hash (keccak (encodeShape keccak T)).bytes else c.toItem = refItem keccak T :=
  Iff.rfl

/-- What `hasher.hash` delivers on a node standing for `T`, called with the
database `db` (the trie's own database `db0` when only hashing). -/
def HashOk (keccak : Bytes → Hash) (S : Shape → Prop) (db0 : Database) (force : Bool) (T : Shape)
    (db : Option Database) (r : Except TrieError (Collapsed × Node × Option Database)) : Prop :=
  ∃ c n' db', r = .ok (c, n', db') ∧ HashedAs keccak force T c ∧ db'.isSome = db.isSome ∧
    DbLe (db.getD db0) (db'.getD db0) ∧ DbOk keccak S (db'.getD db0) ∧
    (db.isSome = true → Covered keccak (db'.getD db0) T ∧
      (force = true ∨ 32 ≤ (encodeShape keccak T).length → Stored keccak (db'.getD db0) T)) ∧
    ∀ (t' : Trie) (dbF : Database), DbLe (db'.getD db0) dbF →
      Expands (FlagOk keccak dbF) (t'.resolveHash dbF) force n' T

/-- What `hasher.hashChildren` delivers on a short or full node with flag
`f` standing for `T`: the collapsed node, which encodes to the blob of `T`
and carries the flag, and a copy that stands for `T` once its flag is
replaced by any flag satisfying the cache condition. -/
def ChildrenOk (keccak : Bytes → Hash) (S : Shape → Prop) (db0 : Database) (force : Bool)
    (f : NodeFlag) (T : Shape) (db : Option Database)
    (r : Except TrieError (Collapsed × Node × Option Database)) : Prop :=
  ∃ collapsed cached db1, r = .ok (collapsed, cached, db1) ∧ collapsed.toItem = nodeItem keccak T ∧
    collapsed.cache = some (f.hash, f.dirty) ∧ db1.isSome = db.isSome ∧
    DbLe (db.getD db0) (db1.getD db0) ∧ DbOk keccak S (db1.getD db0) ∧
    (db.isSome = true → Covered keccak (db1.getD db0) T) ∧
    ∀ (t' : Trie) (dbF : Database) (hash : Option Bytes) (clean : Bool), DbLe (db1.getD db0) dbF →
      FlagOk keccak dbF force { f with hash := hash, dirty := if clean then false else f.dirty } T →
      Expands (FlagOk keccak dbF) (t'.resolveHash dbF) force (cached.cacheHash hash clean) T

/-! ## What the parent holds -/

theorem refItem_of_ne_nil {T : Shape} (hT : T ≠ .nil) :
    refItem keccak T = if (encodeShape keccak T).length < 32 then nodeItem keccak T
      else .str (keccak (encodeShape keccak T)).bytes := by
  rw [refItem, childRef_of_ne_nil hT]
  rfl

/-- The hash node of the blob of `T` is what the hasher returns for `T` at
the root, and below it for a blob a hash long or more. -/
theorem hashedAs_hash {force : Bool} {T : Shape} (hT : T ≠ .nil)
    (hlong : force = false → 32 ≤ (encodeShape keccak T).length) :
    HashedAs keccak force T (.hash (keccak (encodeShape keccak T)).bytes) := by
  rw [hashedAs_iff]
  split
  · rfl
  · rename_i hf
    rw [refItem_of_ne_nil hT, if_neg (by have := hlong (by simpa using hf); omega)]
    rfl

/-- A collapsed node encoding to a short blob is what the parent holds. -/
theorem hashedAs_embedded {T : Shape} {c : Collapsed} (hT : T ≠ .nil)
    (hlt : (encodeShape keccak T).length < 32) (hc : c.toItem = nodeItem keccak T) :
    HashedAs keccak false T c := by
  rw [hashedAs_iff]
  rw [if_neg (by simp), refItem_of_ne_nil hT, if_pos hlt, hc]

/-- A collapsed node encoding to the blob of a decodable tree is a short or
a full node: the blob is a list of two or seventeen items. -/
theorem Collapsed.ne_of_toItem {c : Collapsed} {T : Shape} (hT : Decodable T)
    (hc : c.toItem = nodeItem keccak T) : c ≠ .nil ∧ (∀ x, c ≠ .hash x) ∧ ∀ v, c ≠ .value v := by
  obtain ⟨items, hitems⟩ := hT.nodeItem_eq_list keccak
  have hlen : items.length = 2 ∨ items.length = 17 := by
    cases hT with
    | leaf => simp [nodeItem] at hitems; simp [← hitems]
    | extension _ _ hc' =>
        rw [nodeItem_short hc'.ne_leaf] at hitems
        simp at hitems
        simp [← hitems]
    | branch => simp [nodeItem] at hitems; simp [← hitems]
  rw [hitems] at hc
  refine ⟨?_, fun x => ?_, fun v => ?_⟩ <;> rintro rfl <;> simp [Collapsed.toItem] at hc
  subst hc
  simp at hlen

/-! ## `store` -/

/-- The references counted for the hashed children of a full node keep
whatever `reference` keeps. The induction is on the children still to
visit. -/
theorem foldl_reference_keeps {α : Type} (g : Database → α)
    (hg : ∀ db child parent, g (db.reference child parent) = g db) (cs : Fin 17 → Collapsed) (key : Hash) :
    ∀ (l : List (Fin 16)) (db : Database),
      g (l.foldl (fun db i =>
        match cs i.castSucc with
        | .hash child => db.reference (BytesToHash child) key
        | _ => db) db) = g db := by
  intro l
  induction l with
  | nil => exact fun _ => rfl
  | cons i l ih =>
      intro db
      rw [List.foldl_cons, ih]
      split
      · exact hg _ _ _
      · rfl

/-- `storeIn` keeps, of the database `insert` gives, whatever `reference`
keeps. -/
theorem storeIn_keeps {α : Type} (g : Database → α) (hg : ∀ db child parent, g (db.reference child parent) = g db)
    (n : Collapsed) (db : Database) (hash enc : Bytes) :
    g (Hasher.storeIn n db hash enc) = g (db.insert (BytesToHash hash) enc) := by
  unfold Hasher.storeIn
  dsimp only
  split
  · exact hg _ _ _
  · exact foldl_reference_keeps g hg _ _ _ _
  · rfl

/-- `storeIn` changes no blob but the one it inserts. -/
theorem storeIn_Node (n : Collapsed) (db : Database) (hash enc : Bytes) (h : Hash) :
    (Hasher.storeIn n db hash enc).Node h = (db.insert (BytesToHash hash) enc).Node h :=
  storeIn_keeps (fun db => db.Node h) (fun db child parent => Database.Node_reference db child parent h) n db hash enc

/-- Nor a blob of the cache. -/
theorem storeIn_blobs (n : Collapsed) (db : Database) (hash enc : Bytes) (h : Hash) :
    ((Hasher.storeIn n db hash enc).nodes.lookup h).map CachedNode.blob =
      ((db.insert (BytesToHash hash) enc).nodes.lookup h).map CachedNode.blob :=
  storeIn_keeps (fun db => (db.nodes.lookup h).map CachedNode.blob)
    (fun db child parent => Database.blobs_reference db child parent h) n db hash enc

/-- `store` on the collapsed form of a node standing for a decodable tree:
the node itself when its blob is short and it is no root, else the hash of
the blob, which is written to the database if there is one.

The hash `store` uses is the cached one, which is the hash of the blob. -/
theorem store_spec {c : Collapsed} {T : Shape} (hT : Decodable T) (hc : c.toItem = nodeItem keccak T)
    (hcache : ∀ x d, c.cache = some (some x, d) → x = (keccak (encodeShape keccak T)).bytes)
    (db : Option Database) (force : Bool) :
    Hasher.store keccak c db force =
      if (encodeShape keccak T).length < 32 ∧ force = false then (c, db)
      else (.hash (keccak (encodeShape keccak T)).bytes, db.map fun d =>
        Hasher.storeIn c d (keccak (encodeShape keccak T)).bytes (encodeShape keccak T)) := by
  obtain ⟨hnil, hhash, -⟩ := c.ne_of_toItem hT hc
  have henc : encode c.toItem = encodeShape keccak T := by rw [hc]; rfl
  cases c with
  | nil => exact absurd rfl hnil
  | hash x => exact absurd rfl (hhash x)
  | _ =>
      unfold Hasher.store
      simp only [henc]
      split_ifs
      · rfl
      · cases db <;> simp only [Option.map] <;> split <;> simp_all

variable {db0 : Database}

/-- The database after `store` wrote the blob of a tree of `S`: it keeps
every blob and the invariant, and holds the new blob when there is one. -/
theorem storeIn_db (henv : HashEnv keccak S) {T : Shape} (hS : S T) (c : Collapsed)
    {db1 : Option Database} (hok : DbOk keccak S (db1.getD db0)) :
    DbLe (db1.getD db0) ((db1.map fun d => Hasher.storeIn c d (keccak (encodeShape keccak T)).bytes
        (encodeShape keccak T)).getD db0) ∧
      DbOk keccak S ((db1.map fun d => Hasher.storeIn c d (keccak (encodeShape keccak T)).bytes
        (encodeShape keccak T)).getD db0) ∧
      (db1.isSome = true → DbHas keccak ((db1.map fun d => Hasher.storeIn c d
        (keccak (encodeShape keccak T)).bytes (encodeShape keccak T)).getD db0) T) := by
  cases db1 with
  | none => exact ⟨DbLe.refl _, hok, fun h => by cases h⟩
  | some d =>
      obtain ⟨hle, hok', hhas⟩ := insert_stored henv hok hS
      have hnode : ∀ h, (Hasher.storeIn c d (keccak (encodeShape keccak T)).bytes
          (encodeShape keccak T)).Node h =
          (d.insert (keccak (encodeShape keccak T)) (encodeShape keccak T)).Node h := by
        intro h
        rw [storeIn_Node, BytesToHash_bytes]
      refine ⟨fun h b hb => ?_, ⟨fun h b hb => ?_, fun h hn => ?_⟩, fun _ => ?_⟩
      · simpa [hnode] using hle h b hb
      · simp only [Option.map_some, Option.getD_some, hnode] at hb
        exact hok'.blob h b hb
      · simp only [Option.map_some, Option.getD_some, storeIn_blobs, BytesToHash_bytes] at hn
        exact hok'.nil_root h hn
      · simpa [DbHas, hnode] using hhas

/-- The walk of `hasher.hash` on a node with flag `f` standing for `T`, from
what `hashChildren` delivered: the collapsed node is kept in the parent when
its blob is short and it is no root, and is otherwise stored under the hash
of its blob, which becomes the cached hash of the copy.

Kept in the parent: no hash to cache. Stored under the hash of its blob. A
clean copy: stored now when committing, before when only hashing. -/
theorem walk_spec (henv : HashEnv keccak S) {f : NodeFlag} {T : Shape} {db : Option Database}
    {force : Bool} (hT : Decodable T) (hS : S T) (hf : FlagOk keccak db0 force f T)
    (hdb0 : DbLe db0 (db.getD db0)) {r : Except TrieError (Collapsed × Node × Option Database)}
    (hr : ChildrenOk keccak S db0 force f T db r) :
    HashOk keccak S db0 force T db (Hasher.walk keccak force r) := by
  obtain ⟨collapsed, cached, db1, rfl, hitem, hcache, hsome1, hle1, hok1, hcov1, hcached⟩ := hr
  have hkey : ∀ x d, collapsed.cache = some (some x, d) → x = (keccak (encodeShape keccak T)).bytes := by
    intro x d hx
    rw [hcache] at hx
    simp only [Option.some.injEq, Prod.mk.injEq] at hx
    exact hf.hash_eq x hx.1
  obtain ⟨-, hnothash, -⟩ := collapsed.ne_of_toItem hT hitem
  unfold Hasher.walk
  dsimp only
  rw [store_spec hT hitem hkey db1 force]
  by_cases hsmall : (encodeShape keccak T).length < 32 ∧ force = false
  · rw [if_pos hsmall]
    obtain ⟨hlt, rfl⟩ := hsmall
    have hnone : collapsed.asHash = none := by
      cases collapsed with
      | hash x => exact absurd rfl (hnothash x)
      | _ => rfl
    dsimp only
    rw [hnone]
    refine ⟨collapsed, _, db1, rfl, hashedAs_embedded hT.ne_nil hlt hitem, hsome1, hle1, hok1,
      fun hs => ⟨hcov1 hs, fun h => ?_⟩, fun t' dbF hle => hcached t' dbF none _ hle ?_⟩
    · exact absurd (h.resolve_left Bool.false_ne_true) (Nat.not_le.2 hlt)
    exact ⟨fun _ h => (by cases h), fun _ h => (by cases h), fun _ h => (by cases h),
      fun _ _ => ⟨rfl, hlt⟩⟩
  · rw [if_neg hsmall]
    dsimp only
    obtain ⟨hle2, hok2, hhas⟩ := storeIn_db henv hS collapsed hok1
    have hlong : force = false → 32 ≤ (encodeShape keccak T).length := fun hfalse =>
      Nat.not_lt.1 fun hlt => hsmall ⟨hlt, hfalse⟩
    have hsome2 : (db1.map fun d => Hasher.storeIn collapsed d (keccak (encodeShape keccak T)).bytes
        (encodeShape keccak T)).isSome = db.isSome := by
      rw [Option.isSome_map, hsome1]
    refine ⟨_, _, _, rfl, hashedAs_hash hT.ne_nil hlong, hsome2, hle1.trans hle2, hok2,
      fun hs => ?_, fun t' dbF hle => hcached t' dbF _ _ (hle2.trans hle) ?_⟩
    · have hcov := (hcov1 hs).mono hle2
      exact ⟨hcov, fun _ => .mk (hhas (hsome1 ▸ hs)) hT (Sized.of_encode_length _ (henv.fits T hS)) hcov⟩
    · refine ⟨fun _ h => (Option.some_inj.1 h).symm, fun _ _ => hlong, fun _ _ hclean => ?_,
        fun h => (by cases h)⟩
      by_cases hs : db.isSome = true
      · rw [hsome2, if_pos hs] at hclean
        exact (Stored.mk (hhas (hsome1 ▸ hs)) hT (Sized.of_encode_length _ (henv.fits T hS))
          ((hcov1 hs).mono hle2)).mono hle
      · rw [hsome2, if_neg hs] at hclean
        cases hfh : f.hash with
        | some x => exact (hf.clean_stored x hfh hclean).mono (hdb0.trans (hle1.trans (hle2.trans hle)))
        | none =>
            obtain ⟨hfalse, hlt⟩ := hf.clean_embedded hfh hclean
            exact absurd ⟨hlt, hfalse⟩ hsmall

/-- `hasher.hash` through its cache check, on a short or full node with
flag `f` standing for `T`: a cached hash is returned as it is when only
hashing, with the node unloaded when it is old enough, or with the node when
it is clean; every other node is walked.

A clean node with its hash cached is in the database already. -/
theorem hashWith_spec (henv : HashEnv keccak S) (hr : Hasher) {t : Trie} {n : Node} {f : NodeFlag}
    {T : Shape} {db : Option Database} {force : Bool}
    (hexp : Expands (FlagOk keccak db0) (t.resolveHash db0) force n T)
    (hcache : n.cache = some (f.hash, f.dirty))
    (hunload : n.canUnload hr.cachegen hr.cachelimit = true → f.dirty = false)
    (hf : FlagOk keccak db0 force f T) (hT : Decodable T) (hS : S T)
    (hdb0 : DbLe db0 (db.getD db0)) (hok : DbOk keccak S (db.getD db0))
    {hc : Option Database → Except TrieError (Collapsed × Node × Option Database)}
    (hch : ChildrenOk keccak S db0 force f T db (hc db)) :
    HashOk keccak S db0 force T db (hr.hashWith keccak n db force hc) := by
  unfold Hasher.hashWith
  rw [hcache]
  cases hfh : f.hash with
  | none => exact walk_spec henv hT hS hf hdb0 hch
  | some x =>
      dsimp only
      obtain rfl := hf.hash_eq x hfh
      have hhashed := hashedAs_hash hT.ne_nil (hf.hash_long _ hfh)
      have hstored : f.dirty = false → Stored keccak (db.getD db0) T := fun hd =>
        (hf.clean_stored _ hfh hd).mono hdb0
      split_ifs with hnone hun hclean
      · refine ⟨_, n, db, rfl, hhashed, rfl, DbLe.refl _, hok, fun hs => ?_,
          fun t' dbF hle => hexp.transport (hdb0.trans hle) t'⟩
        rw [Option.isNone_iff_eq_none.1 hnone] at hs
        cases hs
      · have hst := hstored (hunload hun)
        exact ⟨_, _, db, rfl, hhashed, rfl, DbLe.refl _, hok, fun _ => ⟨hst.covered, fun _ => hst⟩,
          fun t' dbF hle => (hst.mono hle).expands t' force (hf.hash_long _ hfh)⟩
      · have hst := hstored hclean
        exact ⟨_, n, db, rfl, hhashed, rfl, DbLe.refl _, hok, fun _ => ⟨hst.covered, fun _ => hst⟩,
          fun t' dbF hle => hexp.transport (hdb0.trans hle) t'⟩
      · exact walk_spec henv hT hS hf hdb0 hch

/-! ## The children -/

/-- The induction hypothesis of `hash_spec`: `hasher.hash` on `n` delivers
`HashOk` for every tree `n` stands for. -/
def HashIH (keccak : Bytes → Hash) (S : Shape → Prop) (t : Trie) (db0 : Database) (hr : Hasher)
    (n : Node) : Prop :=
  ∀ (force : Bool) (T : Shape) (db : Option Database),
    Expands (FlagOk keccak db0) (t.resolveHash db0) force n T → Decodable T → S T →
    DbLe db0 (db.getD db0) → DbOk keccak S (db.getD db0) →
    HashOk keccak S db0 force T db (hr.hash keccak n db force)

/-- What a parent refers to by hash for a child is stored once the child's
own references are and, for a long blob, the child itself. -/
theorem refsOf_stored {db : Database} {c : Shape} (hcov : Covered keccak db c)
    (hlong : 32 ≤ (encodeShape keccak c).length → Stored keccak db c) :
    ∀ T' ∈ refsOf keccak c (refs keccak c), Stored keccak db T' := by
  intro T' hT'
  unfold refsOf at hT'
  split at hT'
  · simp at hT'
  · split at hT'
    · exact hcov T' hT'
    · rename_i hle
      rw [List.mem_singleton.1 hT']
      exact hlong (Nat.not_lt.1 hle)

/-- The item of a decodable tree is a non-empty list, so what a parent holds
for it is never the item of the nil node. -/
theorem refItem_ne_nil_item {T : Shape} (hT : Decodable T) : refItem keccak T ≠ .list [] := by
  rw [refItem_of_ne_nil hT.ne_nil]
  split
  · obtain ⟨items, hitems⟩ := hT.nodeItem_eq_list keccak
    rw [hitems]
    rintro ⟨⟩
    have := (Collapsed.ne_of_toItem (c := .nil) hT (by rw [hitems]; rfl)).1
    exact this rfl
  · exact fun h => by cases h

/-- `hashChildren` of a short node: a value is kept, any other child is
hashed below the root, and a nil result is replaced by the empty string.

A leaf: the value is part of the blob. An extension: the child is hashed
below the root. -/
theorem hashChildren_short (hr : Hasher) {t : Trie} {k : Hex} {v : Node} {f : NodeFlag} {Tc : Shape}
    {db : Option Database} {force : Bool} (ih : HashIH keccak S t db0 hr v)
    (hf : FlagOk keccak db0 force f (.short k Tc))
    (hexpc : Expands (FlagOk keccak db0) (t.resolveHash db0) false v Tc)
    (hT : Decodable (.short k Tc)) (hcl : ChildClosed S) (hSk : S (.short k Tc))
    (hdb0 : DbLe db0 (db.getD db0)) (hok : DbOk keccak S (db.getD db0)) :
    ChildrenOk keccak S db0 force f (.short k Tc) db (hr.hashChildren keccak (.short k v f) db) := by
  rw [Hasher.hashChildren_short_eq]
  split
  · rename_i bytes
    obtain rfl := hexpc.value_inv
    refine ⟨_, _, db, rfl, rfl, rfl, rfl, DbLe.refl _, hok, fun _ T' hT' => by simp [refs] at hT',
      fun t' dbF hash clean _ hf' => .short _ hf' (.value bytes)⟩
  · rename_i hnv
    have hTc : Decodable Tc := by
      cases hT with
      | leaf => exact absurd hexpc.eq_value (hnv _)
      | extension _ _ hc => exact hc
    obtain ⟨cv, cachedv, db1, hres, hhashed, hsome1, hle1, hok1, hcommit, hexp'⟩ :=
      ih false Tc db hexpc hTc (hcl.short_child k Tc hSk) hdb0 hok
    rw [Hasher.hash_eq] at hres
    rw [hres]
    have hitem : cv.toItem = refItem keccak Tc := by simpa [hashedAs_iff] using hhashed
    have hcv : cv ≠ .nil := fun h => refItem_ne_nil_item hTc (by rw [← hitem, h]; rfl)
    dsimp only
    split
    · exact absurd rfl hcv
    refine ⟨_, _, db1, rfl, ?_, rfl, hsome1, hle1, hok1, fun hs => ?_,
      fun t' dbF hash clean hle hf' => .short _ hf' (hexp' t' dbF hle)⟩
    · rw [nodeItem_short hTc.ne_leaf]
      simp only [Collapsed.toItem, hitem]
      rfl
    · obtain ⟨hcov, hst⟩ := hcommit hs
      rw [Covered, refs_short keccak hTc.ne_leaf]
      exact refsOf_stored hcov fun h => hst (.inr h)

/-- `hasher.hash` on a hash node: the node itself, which is stored. -/
theorem hash_hashNode (hr : Hasher) {t : Trie} {x : Bytes} {force : Bool} {T : Shape}
    {db : Option Database} (hexp : Expands (FlagOk keccak db0) (t.resolveHash db0) force (.hash x) T)
    (hT : Decodable T) (hdb0 : DbLe db0 (db.getD db0)) (hok : DbOk keccak S (db.getD db0)) :
    HashOk keccak S db0 force T db (hr.hash keccak (.hash x) db force) := by
  obtain ⟨rfl, hst, hlong⟩ := hexp.hash_stored
  have hst' := hst.mono hdb0
  exact ⟨_, _, db, rfl, hashedAs_hash hT.ne_nil hlong, rfl, DbLe.refl _, hok,
    fun _ => ⟨hst'.covered, fun _ => hst'⟩, fun t' dbF hle => (hst'.mono hle).expands t' force hlong⟩

/-- What a full node's value slot holds in the collapsed node: the empty
string for nil. -/
def slotRaw : Node → Collapsed
  | .nil => .value []
  | c => c.raw

/-- The body of the loop of `hashChildren` over the nibble children of a
full node, the recursive call written as `hash`. -/
def childStep (keccak : Bytes → Hash) (hr : Hasher) (cs : Fin 17 → Node)
    (acc : (Fin 17 → Collapsed) × (Fin 17 → Node) × Option Database) (i : Fin 16) :
    Except TrieError ((Fin 17 → Collapsed) × (Fin 17 → Node) × Option Database) :=
  if (cs i.castSucc).isNil then .ok (Function.update acc.1 i.castSucc (.value []), acc.2.1, acc.2.2)
  else
    match hr.hash keccak (cs i.castSucc) acc.2.2 false with
    | .error e => .error e
    | .ok (cc, kc, db) => .ok (Function.update acc.1 i.castSucc cc, Function.update acc.2.1 i.castSucc kc, db)

theorem hashChildren_full_eq (hr : Hasher) (cs : Fin 17 → Node) (f : NodeFlag) (db : Option Database) :
    hr.hashChildren keccak (.full cs f) db =
      match (List.finRange 16).foldlM (childStep keccak hr cs) (fun i => (cs i).raw, cs, db) with
      | .error e => .error e
      | .ok (ccs, kcs, db) =>
          .ok (.full (Function.update ccs terminator (slotRaw (cs terminator))) f,
            .full (Function.update kcs terminator (cs terminator)) f, db) :=
  rfl

/-- The invariant of the loop over the children of a full node standing
for `.branch Ts`: the children in `done` are hashed, the others untouched,
and the database only grew. -/
structure LoopInv (keccak : Bytes → Hash) (S : Shape → Prop) (db0 : Database) (cs : Fin 17 → Node)
    (Ts : Fin 17 → Shape) (db : Option Database) (done : List (Fin 16))
    (acc : (Fin 17 → Collapsed) × (Fin 17 → Node) × Option Database) : Prop where
  item : ∀ i ∈ done, (acc.1 i.castSucc).toItem = refItem keccak (Ts i.castSucc)
  todo : ∀ i, i ∉ done → acc.1 i.castSucc = (cs i.castSucc).raw ∧ acc.2.1 i.castSucc = cs i.castSucc
  value : acc.1 terminator = (cs terminator).raw ∧ acc.2.1 terminator = cs terminator
  isSome : acc.2.2.isSome = db.isSome
  le : DbLe (db.getD db0) (acc.2.2.getD db0)
  ok : DbOk keccak S (acc.2.2.getD db0)
  stored : db.isSome = true → ∀ i ∈ done,
    ∀ T' ∈ refsOf keccak (Ts i.castSucc) (refs keccak (Ts i.castSucc)), Stored keccak (acc.2.2.getD db0) T'
  expands : ∀ i ∈ done, ∀ (t' : Trie) (dbF : Database), DbLe (acc.2.2.getD db0) dbF →
    Expands (FlagOk keccak dbF) (t'.resolveHash dbF) false (acc.2.1 i.castSucc) (Ts i.castSucc)

theorem castSucc_ne_terminator (i : Fin 16) : i.castSucc ≠ terminator :=
  (Fin.castSucc_lt_last i).ne

/-- One iteration of the loop keeps its invariant: a nil child becomes the
empty string, any other child is hashed below the root by the induction
hypothesis, and what was done before stays done in the grown database. -/
theorem childStep_spec (hr : Hasher) {t : Trie} {cs : Fin 17 → Node} {Ts : Fin 17 → Shape}
    {db : Option Database} (ih : ∀ j, HashIH keccak S t db0 hr (cs j))
    (hcs : ∀ j, Expands (FlagOk keccak db0) (t.resolveHash db0) false (cs j) (Ts j))
    (hdec : ∀ j, j ≠ terminator → Ts j ≠ .nil → Decodable (Ts j)) (hS : ∀ j, S (Ts j))
    (hdb0 : DbLe db0 (db.getD db0)) {done : List (Fin 16)} {i : Fin 16} (hi : i ∉ done)
    {acc : (Fin 17 → Collapsed) × (Fin 17 → Node) × Option Database}
    (hinv : LoopInv keccak S db0 cs Ts db done acc) :
    ∃ acc', childStep keccak hr cs acc i = .ok acc' ∧ LoopInv keccak S db0 cs Ts db (done ++ [i]) acc' := by
  have hne : ∀ j ∈ done, j.castSucc ≠ i.castSucc := fun j hj h =>
    hi (Fin.castSucc_injective _ h ▸ hj)
  have hkid := (hinv.todo i hi).2
  unfold childStep
  by_cases hnil : (cs i.castSucc).isNil
  · rw [if_pos hnil]
    have hcsnil : cs i.castSucc = .nil := Node.isNil_eq_true.1 hnil
    have hTnil : Ts i.castSucc = .nil := (hcs _).eq_nil_iff.1 hcsnil
    refine ⟨_, rfl, ⟨fun j hj => ?_, fun j hj => ?_, ?_, hinv.isSome, hinv.le, hinv.ok,
      fun hs j hj => ?_, fun j hj => ?_⟩⟩ <;> dsimp only
    · rcases List.mem_append.1 hj with hj | hj
      · rw [Function.update_of_ne (hne j hj)]
        exact hinv.item j hj
      · rw [List.mem_singleton.1 hj, Function.update_self, hTnil]
        rfl
    · simp only [List.mem_append, List.mem_singleton, not_or] at hj
      rw [Function.update_of_ne (fun h => hj.2 (Fin.castSucc_injective _ h))]
      exact hinv.todo j hj.1
    · rw [Function.update_of_ne (castSucc_ne_terminator i).symm]
      exact hinv.value
    · rcases List.mem_append.1 hj with hj | hj
      · exact hinv.stored hs j hj
      · rw [List.mem_singleton.1 hj, hTnil]
        simp [refsOf]
    · rcases List.mem_append.1 hj with hj | hj
      · exact hinv.expands j hj
      · rw [List.mem_singleton.1 hj, hkid, hcsnil, hTnil]
        exact fun _ _ _ => .nil
  · rw [if_neg hnil]
    have hTne : Ts i.castSucc ≠ .nil := fun h => hnil (by rw [(hcs _).eq_nil_iff.2 h]; rfl)
    obtain ⟨cc, kc, db1, hres, hhashed, hsome1, hle1, hok1, hcommit, hexp'⟩ :=
      ih i.castSucc false (Ts i.castSucc) acc.2.2 (hcs _)
        (hdec _ (castSucc_ne_terminator i) hTne) (hS _) (hdb0.trans hinv.le) hinv.ok
    rw [hres]
    refine ⟨_, rfl, ⟨fun j hj => ?_, fun j hj => ?_, ?_, hsome1.trans hinv.isSome,
      hinv.le.trans hle1, hok1, fun hs j hj => ?_, fun j hj => ?_⟩⟩ <;> dsimp only
    · rcases List.mem_append.1 hj with hj | hj
      · rw [Function.update_of_ne (hne j hj)]
        exact hinv.item j hj
      · rw [List.mem_singleton.1 hj, Function.update_self]
        simpa [hashedAs_iff] using hhashed
    · simp only [List.mem_append, List.mem_singleton, not_or] at hj
      have hji : j.castSucc ≠ i.castSucc := fun h => hj.2 (Fin.castSucc_injective _ h)
      rw [Function.update_of_ne hji, Function.update_of_ne hji]
      exact hinv.todo j hj.1
    · rw [Function.update_of_ne (castSucc_ne_terminator i).symm,
        Function.update_of_ne (castSucc_ne_terminator i).symm]
      exact hinv.value
    · rcases List.mem_append.1 hj with hj | hj
      · exact fun T' hT' => (hinv.stored hs j hj T' hT').mono hle1
      · rw [List.mem_singleton.1 hj]
        obtain ⟨hcov, hst⟩ := hcommit (hinv.isSome.trans hs)
        exact refsOf_stored hcov fun h => hst (.inr h)
    · rcases List.mem_append.1 hj with hj | hj
      · rw [Function.update_of_ne (hne j hj)]
        exact fun t' dbF hle => hinv.expands j hj t' dbF (hle1.trans hle)
      · rw [List.mem_singleton.1 hj, Function.update_self]
        exact hexp'

/-- A nibble index of a full node is the image of one of `Fin 16`. -/
theorem exists_castSucc_of_ne_terminator {i : Fin 17} (hi : i ≠ terminator) :
    ∃ j : Fin 16, i = j.castSucc := by
  rcases Fin.eq_castSucc_or_eq_last i with h | h
  · exact h
  · exact absurd h hi

/-- `hashChildren` of a full node: the loop hashes the sixteen nibble
children below the root, and the value slot is kept as it is.

The list has no duplicates, so the current index was not done before. The
value slot: nothing, or a value node. -/
theorem hashChildren_full (hr : Hasher) {t : Trie} {cs : Fin 17 → Node} {f : NodeFlag}
    {Ts : Fin 17 → Shape} {db : Option Database} {force : Bool} (hcl : ChildClosed S)
    (ih : ∀ j, HashIH keccak S t db0 hr (cs j))
    (hcs : ∀ j, Expands (FlagOk keccak db0) (t.resolveHash db0) false (cs j) (Ts j))
    (hT : Decodable (.branch Ts)) (hS : S (.branch Ts))
    (hdb0 : DbLe db0 (db.getD db0)) (hok : DbOk keccak S (db.getD db0)) :
    ChildrenOk keccak S db0 force f (.branch Ts) db (hr.hashChildren keccak (.full cs f) db) := by
  obtain ⟨hdec, hval⟩ : (∀ j, j ≠ terminator → Ts j ≠ .nil → Decodable (Ts j)) ∧
      (Ts terminator = .nil ∨ ∃ v, v ≠ [] ∧ Ts terminator = .leaf v) := by
    cases hT with
    | branch hdec hval => exact ⟨hdec, hval⟩
  have h0 : LoopInv keccak S db0 cs Ts db [] (fun i => (cs i).raw, cs, db) :=
    ⟨fun _ h => absurd h List.not_mem_nil, fun _ _ => ⟨rfl, rfl⟩, ⟨rfl, rfl⟩, rfl, DbLe.refl _, hok,
      fun _ _ h => absurd h List.not_mem_nil, fun _ h => absurd h List.not_mem_nil⟩
  obtain ⟨acc, hfold, hinv⟩ := Loop.foldlM_invariant (childStep keccak hr cs)
    (LoopInv keccak S db0 cs Ts db) (List.finRange 16) _ h0 fun done i rest acc hsplit hinv => by
      have hnd := List.nodup_finRange 16
      rw [hsplit, List.nodup_append] at hnd
      exact childStep_spec hr ih hcs hdec (fun j => hcl.branch_child Ts j hS) hdb0
        (fun hmem => hnd.2.2 i hmem i List.mem_cons_self rfl) hinv
  rw [hashChildren_full_eq, hfold]
  have hall : ∀ j : Fin 16, j ∈ List.finRange 16 := List.mem_finRange
  have hslot : (slotRaw (cs terminator)).toItem = valueItem (Ts terminator) := by
    rcases hval with h | ⟨v, -, h⟩
    · rw [(hcs terminator).eq_nil_iff.2 h, h]
      rfl
    · have hleaf := hcs terminator
      rw [h] at hleaf
      rw [hleaf.eq_value, h]
      rfl
  refine ⟨_, _, acc.2.2, rfl, ?_, rfl, hinv.isSome, hinv.le, hinv.ok, fun hs T' hT' => ?_,
    fun t' dbF hash clean hle hf' => .full _ hf' fun i => ?_⟩
  · simp only [Collapsed.toItem, nodeItem]
    congr 1
    refine List.map_congr_left fun i _ => ?_
    by_cases hi : i = terminator
    · subst hi
      rw [Function.update_self, if_pos rfl, hslot]
    · obtain ⟨j, rfl⟩ := exists_castSucc_of_ne_terminator hi
      rw [Function.update_of_ne hi, if_neg hi]
      exact hinv.item j (hall j)
  · obtain ⟨i, hi, hmem⟩ := (mem_refs_branch keccak).1 hT'
    obtain ⟨j, rfl⟩ := exists_castSucc_of_ne_terminator hi
    exact hinv.stored hs j (hall j) T' hmem
  · by_cases hi : i = terminator
    · subst hi
      rw [Function.update_self]
      exact (hcs terminator).transport (hdb0.trans (hinv.le.trans hle)) t'
    · obtain ⟨j, rfl⟩ := exists_castSucc_of_ne_terminator hi
      rw [Function.update_of_ne hi]
      exact hinv.expands j (hall j) t' dbF hle

/-! ## The hasher -/

/-- Only a clean node is unloaded. -/
theorem NodeFlag.dirty_of_canUnload {f : NodeFlag} {g l : UInt16} (h : f.canUnload g l = true) :
    f.dirty = false := by
  simp only [NodeFlag.canUnload, Bool.and_eq_true, Bool.not_eq_true'] at h
  exact h.1

/-- `hasher.hash` on a node that stands for a decodable tree of `S` under
the cache condition delivers `HashOk`. The induction is on the node, as
`hashChildren` recurses; the cases are the lemmas above. -/
theorem hash_spec (henv : HashEnv keccak S) (hcl : ChildClosed S) (hr : Hasher) (t : Trie) (n : Node) :
    HashIH keccak S t db0 hr n := by
  induction n with
  | nil => exact fun _ _ _ hexp hT => absurd hexp.nil_inv hT.ne_nil
  | value v => exact fun _ _ _ hexp hT => absurd hexp.value_inv (hT.ne_leaf v)
  | hash x => exact fun _ _ _ hexp hT _ hdb0 hok => hash_hashNode hr hexp hT hdb0 hok
  | short k v f ih =>
      intro force T db hexp hT hS hdb0 hok
      obtain ⟨Tc, rfl, hf, hexpc⟩ := hexp.short_inv
      exact hashWith_spec henv hr hexp rfl NodeFlag.dirty_of_canUnload hf hT hS hdb0 hok
        (hashChildren_short hr ih hf hexpc hT hcl hS hdb0 hok)
  | full cs f ih =>
      intro force T db hexp hT hS hdb0 hok
      obtain ⟨Ts, rfl, hf, hcs⟩ := hexp.full_inv
      exact hashWith_spec henv hr hexp rfl NodeFlag.dirty_of_canUnload hf hT hS hdb0 hok
        (hashChildren_full hr hcl ih hcs hT hS hdb0 hok)

end Lemochain.Trie
