import Lemochain.Trie.HasherSpec
import Lemochain.Trie.Operations

/-!
# The root hash, `Commit` and `New`

`Cached keccak S t db T` is the state the public methods of a trie keep:
the root of `t` stands for the canonical tree `T` of byte keys with
non-empty values, every flag satisfies the cache condition against `db`, and
every blob of `db` is the blob of a tree of `S`.

## Main results

* `Cached.hash`: `Trie.Hash` returns `rootHash T` and keeps the state;
* `Cached.commit`: `Trie.Commit` returns `rootHash T`, starts a new cache
  generation and leaves a database that keeps every blob and can load `T`;
* `Cached.new`: `New` of the root hash of a stored tree opens a trie that
  holds it;
* `Cached.update`, `Cached.delete`, `Cached.get`, `Cached.setCacheLimit`: the
  other public methods keep the state and change the map as they should.

Each of these holds for every tree of `S`, given that `keccak` behaves on
`S` (`HashEnv`) and `S` holds the children of its trees (`ChildClosed`).
-/

set_option linter.dupNamespace false

namespace Lemochain.Trie

open Lemochain.Rlp

variable {keccak : Bytes → Hash} {S : Shape → Prop}

/-- The state the public methods of a trie keep. -/
structure Cached (keccak : Bytes → Hash) (S : Shape → Prop) (t : Trie) (db : Database) (T : Shape) :
    Prop where
  holds : Holds (FlagOk keccak db) (t.resolveHash db) t T
  values : NonEmptyValues T
  dbOk : DbOk keccak S db

/-- The database reads of a trie depend on its cache generation only. -/
theorem Trie.resolveHash_congr {t t' : Trie} (h : t.cachegen = t'.cachegen) (db : Database) :
    t.resolveHash db = t'.resolveHash db := by
  unfold Trie.resolveHash
  rw [h]

/-- A trie that holds a tree with the reads of a trie of its own generation
holds it with its own reads. -/
theorem Holds.regen {P : FlagPred} {t t' : Trie} {db : Database} {T : Shape}
    (h : Holds P (t.resolveHash db) t' T) (hgen : t'.cachegen = t.cachegen) :
    Holds P (t'.resolveHash db) t' T := by
  rw [Trie.resolveHash_congr hgen]
  exact h

theorem rootHash_of_ne_nil {T : Shape} (hT : T ≠ .nil) : rootHash keccak T = keccak (encodeShape keccak T) := by
  cases T <;> first | exact absurd rfl hT | rfl

theorem Cached.decodable {t : Trie} {db : Database} {T : Shape} (hc : Cached keccak S t db T)
    (hT : T ≠ .nil) : Decodable T :=
  .of_innerShape hc.holds.shape hT hc.values

/-- The empty trie, with any database of blobs of `S`. -/
theorem Cached.empty {t : Trie} {db : Database} (hroot : t.root = .nil) (hok : DbOk keccak S db) :
    Cached keccak S t db .nil :=
  ⟨.empty hroot, fun _ _ h => by simp at h, hok⟩

section Hashing

variable (henv : HashEnv keccak S) (hcl : ChildClosed S)
include henv hcl

/-- `hashRoot` on a trie that holds a non-empty tree of `S`: the hash node
of the blob of the tree, and what `hash_spec` says of the rest. -/
theorem hashRoot_spec {t : Trie} {db0 : Database} {T : Shape} (hc : Cached keccak S t db0 T)
    (hT : T ≠ .nil) (hS : S T) (db : Option Database) (hdb0 : DbLe db0 (db.getD db0))
    (hok : DbOk keccak S (db.getD db0)) :
    ∃ n' db', t.hashRoot keccak db = .ok (.hash (keccak (encodeShape keccak T)).bytes, n', db') ∧
      db'.isSome = db.isSome ∧ DbLe (db.getD db0) (db'.getD db0) ∧ DbOk keccak S (db'.getD db0) ∧
      (db.isSome = true → Stored keccak (db'.getD db0) T) ∧
      ∀ (t' : Trie) (dbF : Database), DbLe (db'.getD db0) dbF →
        Expands (FlagOk keccak dbF) (t'.resolveHash dbF) true n' T := by
  have hroot : t.root ≠ .nil := fun h => hT (hc.holds.expands.eq_nil_iff.1 h)
  obtain ⟨c, n', db', hres, hhashed, hsome, hle, hok', hcommit, hexp'⟩ :=
    hash_spec henv hcl (Hasher.mk t.cachegen t.cachelimit) t t.root true T db hc.holds.expands
      (hc.decodable hT) hS hdb0 hok
  unfold Trie.hashRoot
  split
  · exact absurd ‹_› hroot
  · rw [hres, show c = _ from hhashed]
    exact ⟨n', db', rfl, hsome, hle, hok', fun hs => (hcommit hs).2 (.inl rfl), hexp'⟩

/-- `Trie.Hash` returns the root hash of the tree the trie holds, and keeps
the state.

Hashing without a database leaves none. -/
theorem Cached.hash {t : Trie} {db : Database} {T : Shape} (hc : Cached keccak S t db T)
    (hS : T ≠ .nil → S T) :
    ∃ t', t.Hash keccak = .ok (rootHash keccak T, t') ∧ t'.cachegen = t.cachegen ∧
      Cached keccak S t' db T := by
  by_cases hT : T = .nil
  · subst hT
    have hroot := hc.holds.expands.eq_nil_of_nil
    refine ⟨{ t with root := .nil }, ?_, rfl, .empty rfl hc.dbOk⟩
    simp only [Trie.Hash, Trie.hashRoot, hroot, BytesToHash_bytes]
    rfl
  · obtain ⟨n', db', hres, hsome, -, -, -, hexp'⟩ := hashRoot_spec henv hcl hc hT (hS hT) none
      (DbLe.refl _) hc.dbOk
    obtain rfl : db' = none := Option.not_isSome_iff_eq_none.1 (by simp [hsome])
    refine ⟨{ t with root := n' }, ?_, rfl,
      ⟨⟨hexp' _ db (DbLe.refl _), hc.holds.shape, hc.holds.byteKeys⟩, hc.values, hc.dbOk⟩⟩
    rw [Trie.Hash, hres, rootHash_of_ne_nil hT]
    dsimp only
    rw [BytesToHash_bytes]

/-- `Trie.Commit` returns the root hash of the tree the trie holds, starts a
new cache generation, and leaves a database that keeps every blob, holds
only blobs of `S`, and can load the tree. -/
theorem Cached.commit {t : Trie} {db : Database} {T : Shape} (hc : Cached keccak S t db T)
    (hS : T ≠ .nil → S T) :
    ∃ t' db', t.Commit keccak db = .ok (rootHash keccak T, t', db') ∧ t'.cachegen = t.cachegen + 1 ∧
      DbLe db db' ∧ (T ≠ .nil → Stored keccak db' T) ∧ Cached keccak S t' db' T := by
  by_cases hT : T = .nil
  · subst hT
    have hroot := hc.holds.expands.eq_nil_of_nil
    refine ⟨{ t with root := .nil, cachegen := t.cachegen + 1 }, db, ?_, rfl, DbLe.refl _,
      fun h => absurd rfl h, .empty rfl hc.dbOk⟩
    simp only [Trie.Commit, Trie.hashRoot, hroot, BytesToHash_bytes]
    rfl
  · obtain ⟨n', db', hres, hsome, hle, hok, hstored, hexp'⟩ := hashRoot_spec henv hcl hc hT (hS hT)
      (some db) (DbLe.refl _) hc.dbOk
    obtain ⟨db'', rfl⟩ := Option.isSome_iff_exists.1 (hsome.trans rfl)
    refine ⟨{ t with root := n', cachegen := t.cachegen + 1 }, db'', ?_, rfl, hle,
      fun _ => hstored rfl, ⟨⟨hexp' _ db'' (DbLe.refl _), hc.holds.shape, hc.holds.byteKeys⟩,
        hc.values, hok⟩⟩
    rw [Trie.Commit, hres, rootHash_of_ne_nil hT]
    dsimp only
    rw [BytesToHash_bytes]
    rfl

omit hcl in
/-- `New` of the root hash of a tree the database can load opens a trie of
generation zero that holds the tree; the root of the empty tree opens the
empty trie.

The root is loaded from the database as the trie's root node. -/
theorem Cached.new {db : Database} {T : Shape} (hT : InnerShape T) (hkeys : ByteKeys T)
    (hv : NonEmptyValues T) (hok : DbOk keccak S db) (hS : T ≠ .nil → S T)
    (hst : T ≠ .nil → Stored keccak db T) :
    ∃ t', New (rootHash keccak T) db = .ok t' ∧ t'.cachegen = 0 ∧ Cached keccak S t' db T := by
  by_cases hnil : T = .nil
  · subst hnil
    refine ⟨⟨.nil, emptyRoot, 0, 0⟩, ?_, rfl, .empty rfl hok⟩
    simp [New, rootHash]
  · have hne_zero := henv.ne_zero T (hS hnil)
    have hne_empty := henv.ne_empty T (hS hnil)
    obtain ⟨rn, hres, -, hrn⟩ := ((hst hnil).expands ⟨.nil, keccak (encodeShape keccak T), 0, 0⟩ true
      (fun h => by cases h)).hash_inv
    refine ⟨⟨rn, keccak (encodeShape keccak T), 0, 0⟩, ?_, rfl, ⟨⟨hrn, hT, hkeys⟩, hv, hok⟩⟩
    rw [New, rootHash_of_ne_nil hnil, if_pos ⟨hne_zero, hne_empty⟩]
    simp only [hres []]

end Hashing

/-! ## The methods that read and change the map -/

/-- `Trie.Update` stores the value (removes the key for an empty value) and
keeps the state. -/
theorem Cached.update {t : Trie} {db : Database} {T : Shape} (hc : Cached keccak S t db T)
    (key value : Bytes) :
    ∃ T', (t.Update (t.resolveHash db) key value).cachegen = t.cachegen ∧
      Cached keccak S (t.Update (t.resolveHash db) key value) db T' ∧
      byteMap T' = Function.update (byteMap T) key (updateValue value) := by
  obtain ⟨n', T', hupd, hholds, hlook⟩ := hc.holds.tryUpdate (FlagOk.newFlag t) key value
  have hvals : NonEmptyValues T' := by
    intro k w hw
    rw [hlook] at hw
    by_cases hk : k = keybytesToHex key
    · subst hk
      simp only [Function.update_self, updateValue] at hw
      split at hw
      · rename_i hlen
        cases hw
        exact fun h => hlen (by simp [h])
      · cases hw
    · rw [Function.update_of_ne hk] at hw
      exact hc.values k w hw
  refine ⟨T', by simp [Trie.Update, hupd], ?_, byteMap_update hlook⟩
  simp only [Trie.Update, hupd]
  exact ⟨hholds, hvals, hc.dbOk⟩

/-- `Trie.Delete` removes the key and keeps the state. -/
theorem Cached.delete {t : Trie} {db : Database} {T : Shape} (hc : Cached keccak S t db T)
    (key : Bytes) :
    ∃ T', (t.Delete (t.resolveHash db) key).cachegen = t.cachegen ∧
      Cached keccak S (t.Delete (t.resolveHash db) key) db T' ∧
      byteMap T' = Function.update (byteMap T) key none := by
  obtain ⟨n', T', hdel, hholds, hlook⟩ := hc.holds.tryDelete (FlagOk.newFlag t) key
  have hvals : NonEmptyValues T' := by
    intro k w hw
    rw [hlook] at hw
    by_cases hk : k = keybytesToHex key
    · subst hk
      simp at hw
    · rw [Function.update_of_ne hk] at hw
      exact hc.values k w hw
  refine ⟨T', by simp [Trie.Delete, hdel], ?_, byteMap_update hlook⟩
  simp only [Trie.Delete, hdel]
  exact ⟨hholds, hvals, hc.dbOk⟩

/-- A read keeps the cache generation. -/
theorem Trie.TryGet_cachegen {t t' : Trie} {r : Resolver} {key : Bytes} {v : Option Bytes}
    (h : t.TryGet r key = .ok (v, t')) : t'.cachegen = t.cachegen := by
  unfold Trie.TryGet at h
  dsimp only at h
  split at h
  · cases h
  · cases h
    split <;> rfl

/-- `Trie.Get` returns the value the map holds, and keeps the state. -/
theorem Cached.get {t : Trie} {db : Database} {T : Shape} (hc : Cached keccak S t db T) (key : Bytes) :
    (t.Get (t.resolveHash db) key).1 = byteMap T key ∧
      (t.Get (t.resolveHash db) key).2.cachegen = t.cachegen ∧
      Cached keccak S (t.Get (t.resolveHash db) key).2 db T := by
  obtain ⟨t', hget, hholds⟩ := hc.holds.tryGet (fun _ _ _ hf => hf.gen t.cachegen) key
  have hgen := Trie.TryGet_cachegen hget
  have hG : t.Get (t.resolveHash db) key = (byteMap T key, t') := by
    simp only [Trie.Get, hget]
  rw [hG]
  exact ⟨rfl, hgen, ⟨hholds.regen hgen, hc.values, hc.dbOk⟩⟩

/-- `Trie.SetCacheLimit` changes no node. -/
theorem Cached.setCacheLimit {t : Trie} {db : Database} {T : Shape} (hc : Cached keccak S t db T)
    (l : UInt16) : Cached keccak S (t.SetCacheLimit l) db T :=
  ⟨Holds.regen (t := t) ⟨hc.holds.expands, hc.holds.shape, hc.holds.byteKeys⟩ rfl, hc.values, hc.dbOk⟩

end Lemochain.Trie
