import Lemochain.Trie.Hasher
import Lemochain.Trie.Methods

/-!
# Merkle proofs (`trie/proof.go`)

`Trie.Prove` collects the short and full nodes on the path to a key,
loading hash nodes on the way, and puts into the proof database the
encoding of each of them that the hasher would store on its own (its
encoding is at least a hash long), and of the root, under its hash.
`VerifyProof` reads the proof from the root hash on: it decodes the node
under the wanted hash, follows the key through it with `get` to a value, to
nothing, or to the hash of the next proof node.

The proof database is the key-value map of `lemodb`. The loop of
`VerifyProof` is unbounded in the source; here it takes a bound, and
`VerifyProof` gives it one iteration more than the key has nibbles, which
is what a proof for a trie needs (each proof node below the root is reached
through at least one nibble). The number of nodes the source returns
beside the value is kept.
-/

set_option linter.dupNamespace false

namespace Lemochain.Trie

open Lemochain.Rlp

namespace Trie

variable (resolveHash : Resolver)

/-- The collecting loop of `Trie.Prove`: the short and full nodes on the
path to `key`, hash nodes loaded on the way. A short node whose segment is
not on the key ends the path after it.

A nil node ends the path without the key. A value node before the end of
the key is an invalid node. -/
def provePath : Nat → Node → Hex → List Node → Except TrieError (List Node)
  | 0, _, _, _ => .error .outOfFuel
  | fuel + 1, tn, key, nodes =>
      match key, tn with
      | [], _ => .ok nodes
      | _, .nil => .ok nodes
      | key, .short k v f =>
          if key.length < k.length ∨ k ≠ key.take k.length then
            provePath fuel .nil key (nodes ++ [.short k v f])
          else provePath fuel v (key.drop k.length) (nodes ++ [.short k v f])
      | i :: key, .full cs f => provePath fuel (cs i) key (nodes ++ [.full cs f])
      | key, .hash h =>
          match resolveHash h [] with
          | .error e => .error e
          | .ok n => provePath fuel n key nodes
      | _ :: _, .value _ => .error .panic

end Trie

variable (keccak : Bytes → Lemochain.Hash)

/-- The storing loop of `Trie.Prove` over the collected nodes, from index
`i`: each node is collapsed by the hasher; a node whose encoding is a hash,
and the root, is a proof element and is put under its hash, once the first
`fromLevel` proof elements are skipped. The hasher cannot fail without a
database; its error is passed on. -/
def proveNodes (hasher : Hasher) : Nat → Nat → List Node → DiskDB → Except TrieError DiskDB
  | _, _, [], proofDb => .ok proofDb
  | i, fromLevel, n :: nodes, proofDb =>
      match hasher.hashChildren keccak n none with
      | .error e => .error e
      | .ok (n, _, _) =>
          let hn := (Hasher.store keccak n none false).1
          if hn.asHash.isSome ∨ i = 0 then
            if fromLevel > 0 then proveNodes hasher (i + 1) (fromLevel - 1) nodes proofDb
            else
              let enc := encode n.toItem
              let hash := match hn.asHash with
                | some hash => hash
                | none => (keccak enc).bytes
              proveNodes hasher (i + 1) fromLevel nodes (proofDb.Put hash (some enc))
          else proveNodes hasher (i + 1) fromLevel nodes proofDb

/-- `Trie.Prove`: the proof for `key` put into `proofDb`. -/
def Trie.Prove (t : Trie) (resolveHash : Resolver) (key : Bytes) (fromLevel : Nat) (proofDb : DiskDB) :
    Except TrieError DiskDB :=
  let key := keybytesToHex key
  match Trie.provePath resolveHash (methodFuel key) t.root key [] with
  | .error e => .error e
  | .ok nodes => proveNodes keccak ⟨0, 0⟩ 0 fromLevel nodes proofDb

/-- The errors of `VerifyProof`: a missing or undecodable proof node, with
its index and hash; a runtime panic of `get`; a loop past its bound. -/
inductive ProofError where
  | missing (i : Nat) (hash : Hash)
  | bad (i : Nat) (err : DecodeError)
  | panic
  | outOfFuel

/-- `get`: follow the key through a decoded node to a hash node (with the
rest of the key), to nothing, or to a value. A full node read with an empty
key is an index out of range. -/
def get : Node → Hex → Except ProofError (Hex × Node)
  | .short k v _, key =>
      if key.length < k.length ∨ k ≠ key.take k.length then .ok ([], .nil)
      else get v (key.drop k.length)
  | .full cs _, key =>
      match key with
      | [] => .error .panic
      | i :: key => get (cs i) key
  | .hash h, key => .ok (key, .hash h)
  | .nil, key => .ok (key, .nil)
  | .value v, _ => .ok ([], .value v)

/-- The loop of `VerifyProof` at iteration `i`, for at most `fuel` more
iterations: the value, or nothing, and the number of proof nodes read.

A nil child means the key is absent. A node that matches no case of the
switch leaves the loop going on unchanged. -/
def verifyLoop (proofDb : DiskDB) : Nat → Nat → Hex → Hash → Except ProofError (Option Bytes × Nat)
  | 0, _, _, _ => .error .outOfFuel
  | fuel + 1, i, key, wantHash =>
      match proofDb wantHash.bytes with
      | none => .error (.missing i wantHash)
      | some buf =>
          match decodeNode (decodeFuel buf) (some wantHash.bytes) buf 0 with
          | .error err => .error (.bad i err)
          | .ok n =>
              match get n key with
              | .error e => .error e
              | .ok (_, .nil) => .ok (none, i)
              | .ok (keyrest, .hash cld) => verifyLoop proofDb fuel (i + 1) keyrest (wantHash.copy cld)
              | .ok (_, .value cld) => .ok (some cld, i + 1)
              | .ok (_, _) => verifyLoop proofDb fuel (i + 1) key wantHash

/-- `VerifyProof`: the value the proof gives for `key` under `rootHash`. -/
def VerifyProof (rootHash : Hash) (key : Bytes) (proofDb : DiskDB) : Except ProofError (Option Bytes × Nat) :=
  let key := keybytesToHex key
  verifyLoop proofDb (key.length + 1) 0 key rootHash

end Lemochain.Trie
