import Lemochain.Trie.Codec

/-!
# Hashing and committing a trie (`trie/hasher.go`, `trie/trie.go`)

`Hasher.hash` collapses a node into what its parent stores for it and
returns a copy of the node with the computed hashes cached in its flags.
With a database it also writes every node whose encoding is at least a
hash long (and the root, which is always hashed) and clears the dirty bits
(`Commit`); without one it only hashes (`Hash`).

The cache check of the source comes first: a node with a cached hash is
not walked when only hashing, is replaced by its hash when it is clean and
old enough (`canUnload`), and is not stored again when it is clean. Only
then are the children hashed (`hashChildren`) and the node stored
(`store`). Keccak-256 is a parameter `keccak`.

`hash` and `hashChildren` call each other on the same node and on its
children. The recursion is tied in `hashChildren`, which is structural on
the node: `hashWith` is the body of `hash` for a given `hashChildren`, and
`hash n` is `hashWith n` with `hashChildren n`. The leaf callback of the
hasher is nil in every call modelled here and is left out.
-/

set_option linter.dupNamespace false

namespace Lemochain.Trie

open Lemochain.Rlp

/-- A node as the encoder sees it without collapsing: the value slot of a
full node is encoded as the node that is there, its key nibbles as bytes. -/
def Node.raw : Node → Collapsed
  | .nil => .nil
  | .full cs f => .full (fun i => (cs i).raw) f
  | .short k v f => .short (k.map Nibble.toByte) v.raw f
  | .hash h => .hash h
  | .value v => .value v

/-- The copy of a node with a hash cached in its flags, and the dirty bit
cleared when the node was stored. -/
def Node.cacheHash (n : Node) (hash : Option Bytes) (clean : Bool) : Node :=
  match n with
  | .short k v f => .short k v { f with hash := hash, dirty := if clean then false else f.dirty }
  | .full cs f => .full cs { f with hash := hash, dirty := if clean then false else f.dirty }
  | n => n

/-- The type assertion `hashed.(hashNode)`: the hash of a hash node, nil for
any other node. -/
def Collapsed.asHash : Collapsed → Option Bytes
  | .hash h => some h
  | _ => none

/-- `hasher`: the cache generation and limit of the trie it hashes. -/
structure Hasher where
  cachegen : UInt16
  cachelimit : UInt16

namespace Hasher

variable (keccak : Bytes → Hash)

/-- The database part of `hasher.store`: cache the blob under its hash and
count the node's references to its hashed children.

Track the direct parent to child references. -/
def storeIn (n : Collapsed) (db : Database) (hash enc : Bytes) : Database :=
  let key := BytesToHash hash
  let db := db.insert key enc
  match n with
  | .short _ (.hash child) _ => db.reference (BytesToHash child) key
  | .full cs _ => (List.finRange 16).foldl (fun db i =>
      match cs i.castSucc with
      | .hash child => db.reference (BytesToHash child) key
      | _ => db) db
  | _ => db

/-- `hasher.store`: hash a collapsed node and write it to the database; a
node shorter than a hash is kept in its parent unless `force`. It reads
nothing of the hasher but its buffers.

Hashes and empty nodes are not stored. -/
def store (n : Collapsed) (db : Option Database) (force : Bool) : Collapsed × Option Database :=
  match n with
  | .nil => (n, db)
  | .hash _ => (n, db)
  | n =>
      let enc := encode n.toItem
      if enc.length < 32 ∧ force = false then (n, db)
      else
        let hash := match n.cache with
          | some (some hash, _) => hash
          | _ => (keccak enc).bytes
        match db with
        | none => (.hash hash, none)
        | some db => (.hash hash, some (storeIn n db hash enc))

/-- The part of `hasher.hash` after the cache check: with the children
hashed, store the collapsed node and cache its hash in the copy, clearing
the dirty bit when there is a database. -/
def walk (force : Bool) (children : Except TrieError (Collapsed × Node × Option Database)) :
    Except TrieError (Collapsed × Node × Option Database) :=
  match children with
  | .error e => .error e
  | .ok (collapsed, cached, db) =>
      let (hashed, db) := store keccak collapsed db force
      .ok (hashed, cached.cacheHash hashed.asHash db.isSome, db)

/-- The body of `hasher.hash` for the `hashChildren` of the node: the
cache check, then the walk.

The nil node reports no cache. A node old enough is unloaded to its hash;
its subnodes are no younger. -/
def hashWith (h : Hasher) (n : Node) (db : Option Database) (force : Bool)
    (hashChildren : Option Database → Except TrieError (Collapsed × Node × Option Database)) :
    Except TrieError (Collapsed × Node × Option Database) :=
  match n.cache with
  | none => .error .panic
  | some (some hash, dirty) =>
      if db.isNone then .ok (.hash hash, n, db)
      else if n.canUnload h.cachegen h.cachelimit then .ok (.hash hash, .hash hash, db)
      else if dirty = false then .ok (.hash hash, n, db)
      else walk keccak force (hashChildren db)
  | some (none, _) => walk keccak force (hashChildren db)

/-- `hasher.hashChildren`: the collapsed node, with compact keys and hashed
children, and the copy with the children's hashes cached.

Nil children are encoded as empty strings. Value and hash nodes have no
children. -/
def hashChildren (h : Hasher) : Node → Option Database → Except TrieError (Collapsed × Node × Option Database)
  | .short k v f, db =>
      match v with
      | .value bytes => .ok (.short (hexToCompact k) (.value bytes) f, .short k v f, db)
      | _ =>
          match h.hashWith keccak v db false (h.hashChildren v) with
          | .error e => .error e
          | .ok (cv, cachedv, db) =>
              let cv := match cv with
                | .nil => .value []
                | cv => cv
              .ok (.short (hexToCompact k) cv f, .short k cachedv f, db)
  | .full cs f, db =>
      let loop := (List.finRange 16).foldlM (m := Except TrieError)
        (fun (acc : (Fin 17 → Collapsed) × (Fin 17 → Node) × Option Database) i =>
        if (cs i.castSucc).isNil then
          .ok (Function.update acc.1 i.castSucc (.value []), acc.2.1, acc.2.2)
        else
          match h.hashWith keccak (cs i.castSucc) acc.2.2 false (h.hashChildren (cs i.castSucc)) with
          | .error e => .error e
          | .ok (cc, kc, db) => .ok (Function.update acc.1 i.castSucc cc, Function.update acc.2.1 i.castSucc kc, db))
        (fun i => (cs i).raw, cs, db)
      match loop with
      | .error e => .error e
      | .ok (ccs, kcs, db) =>
          let value := match cs terminator with
            | .nil => .value []
            | c => c.raw
          .ok (.full (Function.update ccs terminator value) f, .full (Function.update kcs terminator (cs terminator)) f, db)
  | n, db => .ok (n.raw, n, db)

theorem hashChildren_short_eq (h : Hasher) (k : Hex) (v : Node) (f : NodeFlag) (db : Option Database) :
    h.hashChildren keccak (.short k v f) db =
      match v with
      | .value bytes => .ok (.short (hexToCompact k) (.value bytes) f, .short k v f, db)
      | _ =>
          match h.hashWith keccak v db false (h.hashChildren keccak v) with
          | .error e => .error e
          | .ok (cv, cachedv, db) =>
              .ok (.short (hexToCompact k) (match cv with | .nil => .value [] | cv => cv) f,
                .short k cachedv f, db) :=
  rfl

/-- `hasher.hash`: what the parent stores for a node, the node with its
hashes cached, and the database. -/
def hash (h : Hasher) (n : Node) (db : Option Database) (force : Bool) :
    Except TrieError (Collapsed × Node × Option Database) :=
  h.hashWith keccak n db force (h.hashChildren keccak n)

theorem hash_eq (h : Hasher) (n : Node) (db : Option Database) (force : Bool) :
    h.hash keccak n db force = h.hashWith keccak n db force (h.hashChildren keccak n) :=
  rfl

end Hasher

namespace Trie

variable (keccak : Bytes → Lemochain.Hash)

/-- `Trie.hashRoot`: the empty trie hashes to `emptyRoot`, any other root
is hashed by force. -/
def hashRoot (t : Trie) (db : Option Database) : Except TrieError (Collapsed × Node × Option Database) :=
  match t.root with
  | .nil => .ok (.hash emptyRoot.bytes, .nil, db)
  | root => (Hasher.mk t.cachegen t.cachelimit).hash keccak root db true

/-- `Trie.Hash`: the root hash, and the trie with the hashes cached. The
type assertion on the root's hash node is a panic if it fails. -/
def Hash (t : Trie) : Except TrieError (Lemochain.Hash × Trie) :=
  match t.hashRoot keccak none with
  | .error e => .error e
  | .ok (.hash hash, cached, _) => .ok (BytesToHash hash, { t with root := cached })
  | .ok _ => .error .panic

/-- `Trie.Commit`: write the trie's nodes to the database, cache their
hashes, and start a new cache generation. -/
def Commit (t : Trie) (db : Database) : Except TrieError (Lemochain.Hash × Trie × Database) :=
  match t.hashRoot keccak (some db) with
  | .error e => .error e
  | .ok (.hash hash, cached, db') =>
      .ok (BytesToHash hash, { t with root := cached, cachegen := t.cachegen + 1 }, db'.getD db)
  | .ok _ => .error .panic

end Trie

/-- `trie.New`: open the trie of a root hash; the zero hash and `emptyRoot`
open the empty trie, any other root is loaded from the database. -/
def New (root : Hash) (db : Database) : Except TrieError Trie :=
  let trie : Trie := ⟨.nil, root, 0, 0⟩
  if root ≠ Hash.zero ∧ root ≠ emptyRoot then
    match trie.resolveHash db root.bytes [] with
    | .error e => .error e
    | .ok rootnode => .ok { trie with root := rootnode }
  else .ok trie

end Lemochain.Trie
