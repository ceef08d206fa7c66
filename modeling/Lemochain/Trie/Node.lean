import Mathlib.Logic.Function.Basic
import Lemochain.Trie.Encoding

/-!
# Trie nodes (`trie/node.go`, `trie/trie.go`)

The in-memory trie is a tree of the four node kinds of the source plus the
nil interface value:

* `full`: a `fullNode`, seventeen children indexed by a nibble, the last one
  holding the value of a key that ends at this node;
* `short`: a `shortNode`, a hex key segment and one child — an extension
  when the segment is open, a leaf when it ends with the terminator;
* `hash`: a `hashNode`, the database reference of a subtree that is not
  loaded;
* `value`: a `valueNode`, the bytes stored under a key.

`full` and `short` carry a `NodeFlag`: the cached hash of the node, its
cache generation and its dirty bit. The children of a `full` node are a
function on `Fin 17`, so `n.Children[key[pos]]` is an application and an
update of one child is `Function.update`.

Errors of the trie methods are `TrieError` values. Besides the source's
`MissingNodeError` it has `panic`, for the runtime panics of the source
(a failed decode in `mustDecodeNode`, an index out of range, an unexpected
node kind), and `outOfFuel`, for a recursion that ran past its budget: the
source's recursion through `resolveHash` is not bounded by the key for an
arbitrary database, so every recursive method takes a fuel argument.
-/

set_option linter.dupNamespace false

namespace Lemochain.Trie

/-- `nodeFlag`: the cached hash of a node (nil when not computed), the cache
generation it was created or last loaded in, and whether it has changes
not yet written to the database. -/
structure NodeFlag where
  hash : Option Bytes
  gen : UInt16
  dirty : Bool
  deriving DecidableEq

/-- `nodeFlag.canUnload`: a clean node whose generation is at least
`cachelimit` commits old can be replaced by its hash. -/
def NodeFlag.canUnload (f : NodeFlag) (cachegen cachelimit : UInt16) : Bool :=
  !f.dirty && decide (cachelimit ≤ cachegen - f.gen)

/-- The `node` interface of the source, with `nil` for the nil interface. -/
inductive Node where
  | nil
  | full (children : Fin 17 → Node) (flags : NodeFlag)
  | short (key : Hex) (val : Node) (flags : NodeFlag)
  | hash (h : Bytes)
  | value (v : Bytes)

namespace Node

/-- `n == nil` for the interface value. -/
def isNil : Node → Bool
  | nil => true
  | _ => false

@[simp] theorem isNil_nil : nil.isNil = true := rfl
@[simp] theorem isNil_full (cs : Fin 17 → Node) (f : NodeFlag) : (full cs f).isNil = false := rfl
@[simp] theorem isNil_short (k : Hex) (v : Node) (f : NodeFlag) : (short k v f).isNil = false :=
  rfl
@[simp] theorem isNil_hash (h : Bytes) : (hash h).isNil = false := rfl
@[simp] theorem isNil_value (v : Bytes) : (value v).isNil = false := rfl

theorem isNil_eq_true {n : Node} : n.isNil = true ↔ n = nil := by
  cases n <;> simp

/-- Whether a node is a short or a full node: the kinds a database blob
decodes to. -/
def isShortOrFull : Node → Bool
  | full _ _ => true
  | short _ _ _ => true
  | _ => false

/-- `node.cache()`: the cached hash and the dirty bit; hash and value nodes
report no hash and dirty. The nil node has no `cache` method, so it reports `none`. -/
def cache : Node → Option (Option Bytes × Bool)
  | full _ f => some (f.hash, f.dirty)
  | short _ _ f => some (f.hash, f.dirty)
  | hash _ => some (none, true)
  | value _ => some (none, true)
  | nil => none

/-- `node.canUnload`: only full and short nodes can be unloaded. -/
def canUnload (cachegen cachelimit : UInt16) : Node → Bool
  | full _ f => f.canUnload cachegen cachelimit
  | short _ _ f => f.canUnload cachegen cachelimit
  | _ => false

end Node

/-- A `fullNode` with no children. -/
def emptyChildren : Fin 17 → Node := fun _ => .nil

/-- Errors and non-returns of the trie methods. -/
inductive TrieError where
  /-- `MissingNodeError`: the blob of a hash node is not in the database;
  `path` is the hex path of the node. -/
  | missingNode (nodeHash : Hash) (path : Hex)
  /-- A runtime panic of the source. -/
  | panic
  /-- The fuel ran out: the source's recursion would not return. -/
  | outOfFuel
  deriving DecidableEq

/-- `Trie.resolveHash` as the trie methods see it: the node a hash node
stands for, read from the database at the given path. -/
abbrev Resolver := Bytes → Hex → Except TrieError Node

/-- `Trie`: the root node, the root hash the trie was opened at, and the cache
generation counters. The database is shared between tries and is passed to
the methods that read or write it. -/
structure Trie where
  root : Node
  originalRoot : Hash
  cachegen : UInt16
  cachelimit : UInt16

namespace Trie

/-- `Trie.newFlag`: new nodes are dirty, uncached and of the current
generation. -/
def newFlag (t : Trie) : NodeFlag := ⟨none, t.cachegen, true⟩

/-- `Trie.SetCacheLimit`. -/
def SetCacheLimit (t : Trie) (l : UInt16) : Trie := { t with cachelimit := l }

/-- The zero value of `Trie`: an empty trie. -/
def empty : Trie := ⟨.nil, Hash.zero, 0, 0⟩

end Trie

/-- `emptyRoot`: the root hash of the empty trie,
`56e81f171bcc55a6ff8345e692c0f86e5b48e01b996cadc001622fb5e363b421`. -/
def emptyRoot : Hash :=
  ⟨[0x56, 0xe8, 0x1f, 0x17, 0x1b, 0xcc, 0x55, 0xa6, 0xff, 0x83, 0x45, 0xe6, 0x92, 0xc0, 0xf8, 0x6e,
    0x5b, 0x48, 0xe0, 0x1b, 0x99, 0x6c, 0xad, 0xc0, 0x01, 0x62, 0x2f, 0xb5, 0xe3, 0x63, 0xb4, 0x21],
    rfl⟩

end Lemochain.Trie
