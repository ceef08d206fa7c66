import Lemochain.Trie.Methods

/-!
# Iterating a trie (`trie/iterator.go`)

`nodeIterator` walks a trie in pre-order with an explicit stack of states,
one per node on the path to the current node. A state holds the node
(loaded when it was a hash node), the child of it to be processed next
(`index`, `-1` before the first), and the length of the path to the node's
parent, to which `pop` cuts the path back. `peek` finds the next node: the
next child of the innermost state that has one, popping the states that have
none. `seek` moves forward until just before the first node whose path is
not below the hex key of the start, descending only into nodes whose path is
a prefix of it. `Iterator` runs `nodeIterator.Next(true)` until a node is a
leaf, that is until its path ends with the terminator.

The model keeps the stack innermost first. The source's states are pointers:
`nextChild` moves the parent's `index` to just before the child it returns,
and `push` moves it onto the child, so `peek` here returns the stack as it
leaves it and `push` takes the parent's index along. The hashes of the
states (`hash`, `parent`, and `Hash()` and `Parent()` of the iterator) are
not modelled: nothing the key-value iterator returns reads them. For the
same reason `newNodeIterator` is modelled without its `trie.Hash() ==
emptyState` test, which compares the root hash with the hash of empty input.

The loops of `seek` and of `Iterator.Next` are bounded by a fuel argument;
running out of it, like a panic of the source (`LeafKey` and `LeafBlob` off
a value node, `hexToKeybytes` of an odd path), is an error of the `Except`
that the functions return. An error loading a node is stored in the
iterator, as the source does with a `MissingNodeError`.
-/

namespace Lemochain.Trie

/-- `nodeIteratorState` without its hashes. -/
structure IterState where
  node : Node
  index : Int
  pathlen : Nat

/-- The errors a `nodeIterator` holds. -/
inductive IterError where
  /-- `iteratorEnd`, "end of iteration". -/
  | iteratorEnd
  /-- `seekError`: the seek to this start key failed. -/
  | seekError (key : Bytes) (err : TrieError)
  /-- An error loading a node. -/
  | trie (err : TrieError)

/-- `nodeIterator`: the stack of states, innermost first, the path to the
current node, and the error. -/
structure NodeIterator where
  stack : List IterState
  path : Hex
  err : Option IterError

/-- `nodeIteratorState.resolve`: a hash node is loaded. -/
def IterState.resolve (resolveHash : Resolver) (st : IterState) (path : Hex) : Except TrieError IterState :=
  match st.node with
  | .hash h => (resolveHash h path).map fun n => { st with node := n }
  | _ => .ok st

/-- The loop of `nextChild` over a full node: its first non-nil child from
index `i` on. -/
def firstChild (cs : Fin 17 → Node) (i : Nat) : Option (Fin 17) :=
  if h : i < 17 then
    if (cs ⟨i, h⟩).isNil then firstChild cs (i + 1) else some ⟨i, h⟩
  else none
termination_by 17 - i

/-- `nextChild`: the parent with its `index` moved to just before the child,
the state of the child and its path; `none` when the parent has no child
after its `index`. -/
def nextChild (parent : IterState) (path : Hex) : Option (IterState × IterState × Hex) :=
  match parent.node with
  | .full cs _ =>
      match firstChild cs (parent.index + 1).toNat with
      | some i => some ({ parent with index := (i.val : Int) - 1 }, ⟨cs i, -1, path.length⟩, path ++ [i])
      | none => none
  | .short k v _ => if parent.index < 0 then some (parent, ⟨v, -1, path.length⟩, path ++ k) else none
  | _ => none

/-- The loop of `peek`: the next child of the innermost state that has one,
each state without one popped with the path cut back to its `pathlen`. The
stack and the path as the loop leaves them, and the child's state and path. -/
def peekLoop (resolveHash : Resolver) : List IterState → Hex →
    List IterState × Hex × Except IterError (IterState × Hex)
  | [], path => ([], path, .error .iteratorEnd)
  | parent :: rest, path =>
      match nextChild parent path with
      | some (parent, state, childPath) =>
          match state.resolve resolveHash childPath with
          | .error e => (parent :: rest, path, .error (.trie e))
          | .ok state => (parent :: rest, path, .ok (state, childPath))
      | none => peekLoop resolveHash rest (path.take parent.pathlen)

/-- `peek`: the next state, whether it has a parent whose `index` `push`
moves (the source's `parentIndex` is nil for the root), and its path; with
the iterator as `peek` leaves it. Without `descend` the current node is
popped first. -/
def peek (resolveHash : Resolver) (root : Node) (it : NodeIterator) (descend : Bool) :
    NodeIterator × Except IterError (IterState × Bool × Hex) :=
  match it.stack with
  | [] =>
      match IterState.resolve resolveHash ⟨root, -1, 0⟩ [] with
      | .error e => (it, .error (.trie e))
      | .ok state => (it, .ok (state, false, []))
  | top :: rest =>
      let (stack, path) := if descend then (top :: rest, it.path) else (rest, it.path.take top.pathlen)
      let (stack, path, r) := peekLoop resolveHash stack path
      ({ it with stack := stack, path := path }, r.map fun (state, childPath) => (state, true, childPath))

/-- `push`: the state becomes the innermost, its path the current one, and
the parent's `index` moves onto it. -/
def push (it : NodeIterator) (state : IterState) (parentIndex : Bool) (path : Hex) : NodeIterator :=
  let stack := match parentIndex, it.stack with
    | true, parent :: rest => { parent with index := parent.index + 1 } :: rest
    | _, stack => stack
  { it with path := path, stack := state :: stack }

@[simp] theorem push_err (it : NodeIterator) (state : IterState) (parentIndex : Bool) (path : Hex) :
    (push it state parentIndex path).err = it.err :=
  rfl

theorem push_path (it : NodeIterator) (state : IterState) (parentIndex : Bool) (path : Hex) :
    (push it state parentIndex path).path = path :=
  rfl

@[simp] theorem push_stack_false (it : NodeIterator) (state : IterState) (path : Hex) :
    (push it state false path).stack = state :: it.stack :=
  rfl

@[simp] theorem push_stack_true (it : NodeIterator) (state : IterState) (path : Hex) :
    (push it state true path).stack =
      state :: match it.stack with
        | parent :: rest => { parent with index := parent.index + 1 } :: rest
        | [] => [] := by
  obtain ⟨stack, _, _⟩ := it
  cases stack <;> rfl

/-- The loop of `seek` for the hex key `key` of the start `start`: what to
store as the iterator's error, nothing when it stopped before a node whose
path is not below `key`. -/
def seekLoop (resolveHash : Resolver) (root : Node) (start : Bytes) (key : Hex) :
    Nat → NodeIterator → Except TrieError (NodeIterator × Option IterError)
  | 0, _ => .error .outOfFuel
  | fuel + 1, it =>
      let (it, r) := peek resolveHash root it (it.path.isPrefixOf key)
      match r with
      | .error .iteratorEnd => .ok (it, some .iteratorEnd)
      | .error (.trie e) => .ok (it, some (.seekError start e))
      | .error e => .ok (it, some e)
      | .ok (state, parentIndex, path) =>
          if ¬ path < key then .ok (it, none)
          else seekLoop resolveHash root start key fuel (push it state parentIndex path)

/-- `seek`: the hex key of the start without its terminator. -/
def seek (resolveHash : Resolver) (root : Node) (fuel : Nat) (it : NodeIterator) (start : Bytes) :
    Except TrieError (NodeIterator × Option IterError) :=
  seekLoop resolveHash root start (keybytesToHex start).dropLast fuel it

/-- The step of `Next` after its error checks: peek, store the error, push. -/
def advance (resolveHash : Resolver) (root : Node) (it : NodeIterator) (descend : Bool) :
    NodeIterator × Bool :=
  let (it, r) := peek resolveHash root it descend
  match r with
  | .error e => ({ it with err := some e }, false)
  | .ok (state, parentIndex, path) => ({ push it state parentIndex path with err := none }, true)

/-- `nodeIterator.Next`: done at the end; a failed seek is retried first. -/
def NodeIterator.Next (resolveHash : Resolver) (root : Node) (fuel : Nat) (it : NodeIterator)
    (descend : Bool) : Except TrieError (NodeIterator × Bool) :=
  match it.err with
  | some .iteratorEnd => .ok (it, false)
  | some (.seekError key _) =>
      match seek resolveHash root fuel it key with
      | .error e => .error e
      | .ok (it, some err) => .ok ({ it with err := some err }, false)
      | .ok (it, none) => .ok (advance resolveHash root { it with err := none } descend)
  | _ => .ok (advance resolveHash root it descend)

/-- `nodeIterator.Leaf`. -/
def NodeIterator.Leaf (it : NodeIterator) : Bool := hasTerm it.path

/-- `nodeIterator.LeafBlob`: the bytes of the value node on top. -/
def NodeIterator.LeafBlob (it : NodeIterator) : Except TrieError Bytes :=
  match it.stack with
  | { node := .value v, .. } :: _ => .ok v
  | _ => .error .panic

/-- `nodeIterator.LeafKey`: the key of the value node on top. -/
def NodeIterator.LeafKey (it : NodeIterator) : Except TrieError Bytes :=
  match it.stack with
  | { node := .value _, .. } :: _ =>
      match hexToKeybytes it.path with
      | some key => .ok key
      | none => .error .panic
  | _ => .error .panic

/-- `nodeIterator.Error`: none at the end, the cause of a failed seek. -/
def NodeIterator.Error (it : NodeIterator) : Option TrieError :=
  match it.err with
  | some .iteratorEnd => none
  | some (.seekError _ e) => some e
  | some (.trie e) => some e
  | none => none

/-- `newNodeIterator`: a seek to the start from an empty stack. -/
def newNodeIterator (resolveHash : Resolver) (root : Node) (fuel : Nat) (start : Bytes) :
    Except TrieError NodeIterator :=
  match seek resolveHash root fuel ⟨[], [], none⟩ start with
  | .error e => .error e
  | .ok (it, err) => .ok { it with err := err }

/-- `Iterator`: the node iterator and the current key, value and error. -/
structure Iterator where
  nodeIt : NodeIterator
  Key : Bytes
  Value : Bytes
  Err : Option TrieError

/-- `NewIterator`. -/
def NewIterator (it : NodeIterator) : Iterator := ⟨it, [], [], none⟩

/-- The loop of `Iterator.Next`, for at most `n` nodes. -/
def Iterator.nextLoop (resolveHash : Resolver) (root : Node) (fuel : Nat) :
    Nat → Iterator → Except TrieError (Iterator × Bool)
  | 0, _ => .error .outOfFuel
  | n + 1, it =>
      match it.nodeIt.Next resolveHash root fuel true with
      | .error e => .error e
      | .ok (nodeIt, true) =>
          if nodeIt.Leaf then
            match nodeIt.LeafKey, nodeIt.LeafBlob with
            | .ok key, .ok value => .ok ({ it with nodeIt := nodeIt, Key := key, Value := value }, true)
            | .error e, _ => .error e
            | _, .error e => .error e
          else Iterator.nextLoop resolveHash root fuel n { it with nodeIt := nodeIt }
      | .ok (nodeIt, false) => .ok ({ it with nodeIt := nodeIt, Key := [], Value := [], Err := nodeIt.Error }, false)

/-- `Iterator.Next`: the next leaf. -/
def Iterator.Next (resolveHash : Resolver) (root : Node) (fuel : Nat) (it : Iterator) :
    Except TrieError (Iterator × Bool) :=
  Iterator.nextLoop resolveHash root fuel fuel it

end Lemochain.Trie
