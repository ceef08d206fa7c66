import Lemochain.Rlp.Raw
import Lemochain.Trie.Database
import Lemochain.Trie.Node

/-!
# Node encoding and decoding (`trie/node.go`, `trie/trie.go`)

The hasher hands the encoder *collapsed* nodes: the key of a short node is
in compact form and every child is replaced by what the parent stores for
it, a hash or the child's own collapsed node. `Collapsed` is that node
type; `Collapsed.toItem` is the item `rlp.Encode` writes for it (a full
node encodes its seventeen children as a list, a short node its key and
child, the nil interface the empty list).

`decodeNode` parses a database blob back into a `Node`. As in the source it
calls `decodeShort` or `decodeFull` by the number of list elements, and both
read their children with `decodeRef`, which decodes an embedded node by
calling `decodeNode` again on the rest of the input. That recursion is
tied here in `decodeNode`: `decodeShort`, `decodeFull` and `decodeRef` take
the function they call for the next level as an argument, and
`decodeNode` takes a fuel argument. Every level starts inside the content
of the list of the level above, so the length of the input plus one is
enough fuel (`decodeFuel`).

`Trie.resolveHash` loads the blob of a hash node from the database and
decodes it with `mustDecodeNode`, whose failure is a panic of the source.
-/

set_option linter.dupNamespace false

namespace Lemochain.Trie

open Lemochain.Rlp

/-- A node as the hasher passes it to the encoder: compact keys, children
replaced by their references. -/
inductive Collapsed where
  | nil
  | full (children : Fin 17 → Collapsed) (flags : NodeFlag)
  | short (key : Bytes) (val : Collapsed) (flags : NodeFlag)
  | hash (h : Bytes)
  | value (v : Bytes)

namespace Collapsed

/-- `node.cache()` of a collapsed node (`none` for the nil interface). -/
def cache : Collapsed → Option (Option Bytes × Bool)
  | full _ f => some (f.hash, f.dirty)
  | short _ _ f => some (f.hash, f.dirty)
  | hash _ => some (none, true)
  | value _ => some (none, true)
  | nil => none

/-- The item `rlp.Encode` writes for a collapsed node. -/
def toItem : Collapsed → Item
  | nil => .list []
  | full cs _ => .list ((List.finRange 17).map fun i => (cs i).toItem)
  | short k v _ => .list [.str k, v.toItem]
  | hash h => .str h
  | value v => .str v

end Collapsed

/-- The errors of the node decoder, one per error site of the source. -/
inductive DecodeFailure where
  /-- `io.ErrUnexpectedEOF` for an empty blob. -/
  | unexpectedEOF
  /-- `decode error: %v`, a blob that is not a list. -/
  | splitList (e : RlpError)
  /-- `invalid number of list elements: %v`. -/
  | listElements (count : Nat)
  /-- An error of the RLP package passed on as it is. -/
  | rlp (e : RlpError)
  /-- `invalid value node: %v`. -/
  | invalidValueNode (e : RlpError)
  /-- `oversized embedded node (size is %d bytes, want size < %d)`. -/
  | oversizedEmbedded (size : Nat)
  /-- `invalid RLP string size %d (want 0 or 32)`. -/
  | stringSize (size : Nat)
  /-- A runtime panic: `compactToHex` of an empty key. -/
  | panic
  /-- The fuel ran out. -/
  | outOfFuel
  deriving DecidableEq

/-- An error with the decode path of `decodeError`: the contexts pushed by
`wrapError`, innermost first. -/
structure DecodeError where
  what : DecodeFailure
  stack : List String
  deriving DecidableEq

/-- An error that has not passed a `wrapError` yet. -/
def DecodeError.plain (what : DecodeFailure) : DecodeError := ⟨what, []⟩

/-- `wrapError`: push a context on the decode path. A panic unwinds through
it. -/
def wrapError (err : DecodeError) (ctx : String) : DecodeError :=
  if err.what = .panic then err else { err with stack := err.stack ++ [ctx] }

/-- `hashLen`. -/
def hashLen : Nat := HashLength

/-- `decodeRef`: a child reference at the start of `buf` and the input after
it; an embedded node is decoded by `decodeNode`.

An embedded node: its encoding must be smaller than a hash. -/
def decodeRef (decodeNode : Bytes → Except DecodeError Node) (buf : Bytes) :
    Except DecodeError (Node × Bytes) :=
  match Split buf with
  | .error err => .error (.plain (.rlp err))
  | .ok (kind, val, rest) =>
      if kind = .list then
        let size := buf.length - rest.length
        if size > hashLen then .error (.plain (.oversizedEmbedded size))
        else
          match decodeNode buf with
          | .error err => .error err
          | .ok n => .ok (n, rest)
      else if kind = .string ∧ val.length = 0 then .ok (.nil, rest)
      else if kind = .string ∧ val.length = 32 then .ok (.hash val, rest)
      else .error (.plain (.stringSize val.length))

/-- `decodeShort`: a short node from the elements of its list. The key
decides between a value node and a child reference: a terminated key is a leaf with a value node. -/
def decodeShort (decodeRef : Bytes → Except DecodeError (Node × Bytes)) (hash : Option Bytes)
    (elems : Bytes) (cachegen : UInt16) : Except DecodeError Node :=
  match SplitString elems with
  | .error err => .error (.plain (.rlp err))
  | .ok (kbuf, rest) =>
      let flag : NodeFlag := ⟨hash, cachegen, false⟩
      match compactToHex kbuf with
      | none => .error (.plain .panic)
      | some key =>
          if hasTerm key then
            match SplitString rest with
            | .error err => .error (.plain (.invalidValueNode err))
            | .ok (val, _) => .ok (.short key (.value val) flag)
          else
            match decodeRef rest with
            | .error err => .error (wrapError err "val")
            | .ok (r, _) => .ok (.short key r flag)

/-- The loop of `decodeFull` over the sixteen nibble children. -/
def decodeChildren (decodeRef : Bytes → Except DecodeError (Node × Bytes)) :
    List (Fin 16) → (Fin 17 → Node) → Bytes → Except DecodeError ((Fin 17 → Node) × Bytes)
  | [], cs, elems => .ok (cs, elems)
  | i :: is, cs, elems =>
      match decodeRef elems with
      | .error err => .error (wrapError err ("[" ++ toString i.val ++ "]"))
      | .ok (cld, rest) => decodeChildren decodeRef is (Function.update cs i.castSucc cld) rest

/-- `decodeFull`: a full node from the elements of its list; an empty value
string leaves the value slot nil. -/
def decodeFull (decodeRef : Bytes → Except DecodeError (Node × Bytes)) (hash : Option Bytes)
    (elems : Bytes) (cachegen : UInt16) : Except DecodeError Node :=
  let flag : NodeFlag := ⟨hash, cachegen, false⟩
  match decodeChildren decodeRef (List.finRange 16) emptyChildren elems with
  | .error err => .error err
  | .ok (cs, elems) =>
      match SplitString elems with
      | .error err => .error (.plain (.rlp err))
      | .ok (val, _) =>
          .ok (.full (if val.length > 0 then Function.update cs terminator (.value val) else cs) flag)

/-- `decodeNode`: the node a blob encodes; `hash` becomes its cached hash.

An error of `CountValues` leaves the count at zero. -/
def decodeNode : Nat → Option Bytes → Bytes → UInt16 → Except DecodeError Node
  | 0, _, _, _ => .error (.plain .outOfFuel)
  | fuel + 1, hash, buf, cachegen =>
      if buf.length = 0 then .error (.plain .unexpectedEOF)
      else
        match SplitList buf with
        | .error err => .error (.plain (.splitList err))
        | .ok (elems, _) =>
            let c := match CountValues elems with
              | .ok c => c
              | .error _ => 0
            let ref := decodeRef (fun b => decodeNode fuel none b cachegen)
            if c = 2 then (decodeShort ref hash elems cachegen).mapError (wrapError · "short")
            else if c = 17 then (decodeFull ref hash elems cachegen).mapError (wrapError · "full")
            else .error (.plain (.listElements c))

/-- The fuel for decoding a blob: one level more than it has bytes. -/
def decodeFuel (buf : Bytes) : Nat := buf.length + 1

/-- `mustDecodeNode`: a decoding error is a panic. -/
def mustDecodeNode (hash buf : Bytes) (cachegen : UInt16) : Except TrieError Node :=
  match decodeNode (decodeFuel buf) (some hash) buf cachegen with
  | .ok n => .ok n
  | .error _ => .error .panic

/-- `Trie.resolveHash`: the node stored under a hash node. A `nil` blob, the
root entry's or a key the disk does not hold, is a `MissingNodeError`; an
empty blob is not `nil`, and `mustDecodeNode` panics on it. -/
def Trie.resolveHash (t : Trie) (db : Database) : Resolver := fun n pre =>
  let hash := BytesToHash n
  match db.Node hash with
  | none => .error (.missingNode hash pre)
  | some enc => mustDecodeNode n enc t.cachegen

end Lemochain.Trie
