import Mathlib.Data.Nat.SuccPred
import Lemochain.Trie.Node

/-!
# Reading and updating the trie (`trie/trie.go`)

`tryGet`, `insert` and `delete` follow the recursion of the source case by
case, with the database access abstracted as a `Resolver` (`resolveHash`).
`insert` and `delete` return the source's pair `(dirty, node)`: `dirty` is
false when nothing changed, and then every caller keeps its original node
with its flags. On an error every caller of the source discards the node,
so an error here carries none.

The three recursions take a fuel argument. Each call consumes at least one
key nibble, except a call on a hash node (which loads the node and calls
again on it) and, in a corrupt database, a short node with an empty key.
`methodFuel` gives the public methods twice the key length and two more
calls, which covers every trie whose short keys are non-empty and whose
hash nodes load as short or full nodes.
-/

set_option linter.dupNamespace false

namespace Lemochain.Trie

/-- The result of the scan `Trie.delete` runs over the children of a full
node after a deletion: the source's `pos` is `-1` for no child, the index of
the only non-nil child, or `-2` for two or more. -/
inductive ChildCount where
  | zero
  | one (i : Fin 17)
  | many
  deriving DecidableEq

/-- One non-nil child seen by the loop: the first sets `pos` to its index,
a second one to `-2` (where the source leaves the loop). -/
def ChildCount.push : ChildCount → Fin 17 → ChildCount
  | .zero, i => .one i
  | _, _ => .many

/-- The `pos` loop of `Trie.delete` over `n.Children`. -/
def remainingPos (cs : Fin 17 → Node) : ChildCount :=
  (List.finRange 17).foldl (fun pos i => if (cs i).isNil then pos else pos.push i) .zero

/-- The budget the public methods give the recursions for a hex key. -/
def methodFuel (key : Hex) : Nat := 2 * key.length + 2

/-- The calls `insert` and `delete` need at a node for a key of length `L`:
two per key nibble (a hash node and the node it loads), one for the last
call, one more when the node is itself a hash node. -/
def fuelNeed (n : Node) (L : Nat) : Nat :=
  match n with
  | .hash _ => 2 * L + 2
  | _ => 2 * L + 1

theorem fuelNeed_le (n : Node) (L : Nat) : fuelNeed n L ≤ 2 * L + 2 := by
  cases n <;> simp [fuelNeed]

theorem fuelNeed_pos (n : Node) (L : Nat) : 0 < fuelNeed n L := by
  cases n <;> simp [fuelNeed]

namespace Trie

variable (t : Trie) (resolveHash : Resolver)

/-- `Trie.resolve`: load a hash node, leave any other node as it is. -/
def resolve (n : Node) (pre : Hex) : Except TrieError Node :=
  match n with
  | .hash h => resolveHash h pre
  | n => .ok n

/-- `Trie.tryGet`: the value under `key` read from position `pos` on, the
node with every hash node met on the way replaced by its loaded form, and
whether any was loaded. Loading refreshes the generation of the copied
parents. A nil node, or a short node off the key, means the key is absent. -/
def tryGet : Nat → Node → Hex → Nat → Except TrieError (Option Bytes × Node × Bool)
  | 0, _, _, _ => .error .outOfFuel
  | fuel + 1, n, key, pos =>
      match n with
      | .nil => .ok (none, .nil, false)
      | .value v => .ok (some v, .value v, false)
      | .short nk nv nf =>
          if key.length - pos < nk.length ∨ nk ≠ (key.drop pos).take nk.length then
            .ok (none, n, false)
          else
            match tryGet fuel nv key (pos + nk.length) with
            | .error e => .error e
            | .ok (value, newnode, true) => .ok (value, .short nk newnode { nf with gen := t.cachegen }, true)
            | .ok (value, _, false) => .ok (value, n, false)
      | .full cs nf =>
          match key[pos]? with
          | none => .error .panic
          | some i =>
              match tryGet fuel (cs i) key (pos + 1) with
              | .error e => .error e
              | .ok (value, newnode, true) =>
                  .ok (value, .full (Function.update cs i newnode) { nf with gen := t.cachegen }, true)
              | .ok (value, _, false) => .ok (value, n, false)
      | .hash h =>
          match resolveHash h (key.take pos) with
          | .error e => .error e
          | .ok child =>
              match tryGet fuel child key pos with
              | .error e => .error e
              | .ok (value, newnode, _) => .ok (value, newnode, true)

/-- `Trie.insert`: insert `value` under the hex key `key` into `n`, whose
path from the root is `pre`.

The whole key matches: keep this short node and update its child. Branch out
at the index where the keys differ. Load the node and insert into it. -/
def insert : Nat → Node → Hex → Hex → Node → Except TrieError (Bool × Node)
  | 0, _, _, _, _ => .error .outOfFuel
  | fuel + 1, n, pre, key, value =>
      match key with
      | [] =>
          match n with
          | .value v =>
              match value with
              | .value v' => .ok (v != v', value)
              | _ => .error .panic
          | _ => .ok (true, value)
      | k0 :: krest =>
          match n with
          | .short nk nv _ =>
              let matchlen := prefixLen key nk
              if matchlen = nk.length then
                match insert fuel nv (pre ++ key.take matchlen) (key.drop matchlen) value with
                | .error e => .error e
                | .ok (false, _) => .ok (false, n)
                | .ok (true, nn) => .ok (true, .short nk nn t.newFlag)
              else
                match insert fuel .nil (pre ++ nk.take (matchlen + 1)) (nk.drop (matchlen + 1)) nv with
                | .error e => .error e
                | .ok (_, c1) =>
                    match insert fuel .nil (pre ++ key.take (matchlen + 1))
                        (key.drop (matchlen + 1)) value with
                    | .error e => .error e
                    | .ok (_, c2) =>
                        match nk[matchlen]?, key[matchlen]? with
                        | some i1, some i2 =>
                            let branch := Node.full
                              (Function.update (Function.update emptyChildren i1 c1) i2 c2) t.newFlag
                            if matchlen = 0 then .ok (true, branch)
                            else .ok (true, .short (key.take matchlen) branch t.newFlag)
                        | _, _ => .error .panic
          | .full cs _ =>
              match insert fuel (cs k0) (pre ++ [k0]) krest value with
              | .error e => .error e
              | .ok (false, _) => .ok (false, n)
              | .ok (true, nn) => .ok (true, .full (Function.update cs k0 nn) t.newFlag)
          | .nil => .ok (true, .short key value t.newFlag)
          | .hash h =>
              match resolveHash h pre with
              | .error e => .error e
              | .ok rn =>
                  match insert fuel rn pre key value with
                  | .error e => .error e
                  | .ok (false, _) => .ok (false, rn)
                  | .ok (true, nn) => .ok (true, nn)
          | .value _ => .error .panic

/-! The steps of `insert` at a nonempty key, one per kind of node that
`Trie.insert` meets there. -/

theorem insert_short_cons (fuel : Nat) (nk : Hex) (nv : Node) (nf : NodeFlag) (pre : Hex) (k0 : Nibble)
    (krest : Hex) (value : Node) :
    t.insert resolveHash (fuel + 1) (.short nk nv nf) pre (k0 :: krest) value =
      if prefixLen (k0 :: krest) nk = nk.length then
        match t.insert resolveHash fuel nv (pre ++ (k0 :: krest).take (prefixLen (k0 :: krest) nk))
            ((k0 :: krest).drop (prefixLen (k0 :: krest) nk)) value with
        | .error e => .error e
        | .ok (false, _) => .ok (false, .short nk nv nf)
        | .ok (true, nn) => .ok (true, .short nk nn t.newFlag)
      else
        match t.insert resolveHash fuel .nil (pre ++ nk.take (prefixLen (k0 :: krest) nk + 1))
            (nk.drop (prefixLen (k0 :: krest) nk + 1)) nv with
        | .error e => .error e
        | .ok (_, c1) =>
            match t.insert resolveHash fuel .nil (pre ++ (k0 :: krest).take (prefixLen (k0 :: krest) nk + 1))
                ((k0 :: krest).drop (prefixLen (k0 :: krest) nk + 1)) value with
            | .error e => .error e
            | .ok (_, c2) =>
                match nk[prefixLen (k0 :: krest) nk]?, (k0 :: krest)[prefixLen (k0 :: krest) nk]? with
                | some i1, some i2 =>
                    if prefixLen (k0 :: krest) nk = 0 then
                      .ok (true, .full (Function.update (Function.update emptyChildren i1 c1) i2 c2) t.newFlag)
                    else .ok (true, .short ((k0 :: krest).take (prefixLen (k0 :: krest) nk))
                      (.full (Function.update (Function.update emptyChildren i1 c1) i2 c2) t.newFlag) t.newFlag)
                | _, _ => .error .panic :=
  rfl

theorem insert_full_cons (fuel : Nat) (cs : Fin 17 → Node) (nf : NodeFlag) (pre : Hex) (k0 : Nibble)
    (krest : Hex) (value : Node) :
    t.insert resolveHash (fuel + 1) (.full cs nf) pre (k0 :: krest) value =
      match t.insert resolveHash fuel (cs k0) (pre ++ [k0]) krest value with
      | .error e => .error e
      | .ok (false, _) => .ok (false, .full cs nf)
      | .ok (true, nn) => .ok (true, .full (Function.update cs k0 nn) t.newFlag) :=
  rfl

theorem insert_hash_cons (fuel : Nat) (h : Bytes) (pre : Hex) (k0 : Nibble) (krest : Hex) (value : Node) :
    t.insert resolveHash (fuel + 1) (.hash h) pre (k0 :: krest) value =
      match resolveHash h pre with
      | .error e => .error e
      | .ok rn =>
          match t.insert resolveHash fuel rn pre (k0 :: krest) value with
          | .error e => .error e
          | .ok (false, _) => .ok (false, rn)
          | .ok (true, nn) => .ok (true, nn) :=
  rfl

/-- `Trie.delete`: remove the value under the hex key `key` from `n` and
reduce the result to minimal form on the way up.

Merge the nodes to avoid a short node under a short node. A remaining short
node absorbs the missing nibble. -/
def delete : Nat → Node → Hex → Hex → Except TrieError (Bool × Node)
  | 0, _, _, _ => .error .outOfFuel
  | fuel + 1, n, pre, key =>
      match n with
      | .short nk nv _ =>
          let matchlen := prefixLen key nk
          if matchlen < nk.length then .ok (false, n)
          else if matchlen = key.length then .ok (true, .nil)
          else
            match delete fuel nv (pre ++ key.take nk.length) (key.drop nk.length) with
            | .error e => .error e
            | .ok (false, _) => .ok (false, n)
            | .ok (true, child) =>
                match child with
                | .short ck cv _ => .ok (true, .short (concat nk ck) cv t.newFlag)
                | child => .ok (true, .short nk child t.newFlag)
      | .full cs _ =>
          match key with
          | [] => .error .panic
          | k0 :: krest =>
              match delete fuel (cs k0) (pre ++ [k0]) krest with
              | .error e => .error e
              | .ok (false, _) => .ok (false, n)
              | .ok (true, nn) =>
                  let cs' := Function.update cs k0 nn
                  match remainingPos cs' with
                  | .one pos =>
                      if pos ≠ terminator then
                        match resolve resolveHash (cs' pos) pre with
                        | .error e => .error e
                        | .ok (.short ck cv _) => .ok (true, .short (pos :: ck) cv t.newFlag)
                        | .ok _ => .ok (true, .short [pos] (cs' pos) t.newFlag)
                      else .ok (true, .short [pos] (cs' pos) t.newFlag)
                  | _ => .ok (true, .full cs' t.newFlag)
      | .value _ => .ok (true, .nil)
      | .nil => .ok (false, .nil)
      | .hash h =>
          match resolveHash h pre with
          | .error e => .error e
          | .ok rn =>
              match delete fuel rn pre key with
              | .error e => .error e
              | .ok (false, _) => .ok (false, rn)
              | .ok (true, nn) => .ok (true, nn)

/-- `Trie.TryGet`: the value under a key; loaded nodes replace the root
when the lookup succeeds. -/
def TryGet (key : Bytes) : Except TrieError (Option Bytes × Trie) :=
  let k := keybytesToHex key
  match t.tryGet resolveHash (methodFuel k) t.root k 0 with
  | .error e => .error e
  | .ok (value, newroot, didResolve) => .ok (value, if didResolve then { t with root := newroot } else t)

/-- `Trie.TryUpdate`: a non-empty value is inserted, an empty one deletes
the key. On an error the trie is unchanged. -/
def TryUpdate (key value : Bytes) : Except TrieError Trie :=
  let k := keybytesToHex key
  if value.length ≠ 0 then
    match t.insert resolveHash (methodFuel k) t.root [] k (.value value) with
    | .error e => .error e
    | .ok (_, n) => .ok { t with root := n }
  else
    match t.delete resolveHash (methodFuel k) t.root [] k with
    | .error e => .error e
    | .ok (_, n) => .ok { t with root := n }

/-- `Trie.TryDelete`. -/
def TryDelete (key : Bytes) : Except TrieError Trie :=
  let k := keybytesToHex key
  match t.delete resolveHash (methodFuel k) t.root [] k with
  | .error e => .error e
  | .ok (_, n) => .ok { t with root := n }

/-- `Trie.Get`: `TryGet` with an error logged and reported as no value. -/
def Get (key : Bytes) : Option Bytes × Trie :=
  match t.TryGet resolveHash key with
  | .ok r => r
  | .error _ => (none, t)

/-- `Trie.Update`: `TryUpdate` with an error logged. -/
def Update (key value : Bytes) : Trie :=
  match t.TryUpdate resolveHash key value with
  | .ok t' => t'
  | .error _ => t

/-- `Trie.Delete`: `TryDelete` with an error logged. -/
def Delete (key : Bytes) : Trie :=
  match t.TryDelete resolveHash key with
  | .ok t' => t'
  | .error _ => t

end Trie

end Lemochain.Trie
