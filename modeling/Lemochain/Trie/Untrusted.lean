import Lemochain.Trie.Proof

/-!
# Decoding untrusted nodes

Proof nodes and sync responses come from peers, so `decodeNode` runs on
blobs nobody checked. The model's `decodeNode` takes a fuel argument where
the source recurses on embedded nodes; `decodeNode_total` shows that the
fuel `decodeFuel` never runs out: every level of the recursion starts
inside the content of the list of the level above, which is shorter than
that list's encoding. So what the model returns is what the source
returns: a node, an error of the decoder, or a runtime panic.

The panic is reached: `compactToHex` indexes the first nibble of a compact
key without checking that the key has one, and a short node whose key is
the empty string has none (`decodeNode_empty_key`). `VerifyProof` decodes
every proof node it is given, so a proof made of that one node stops it
the same way for every key (`verifyProof_empty_key`).

## Main results

* `decodeNode_total` — with `decodeFuel` fuel, `decodeNode` never reports
  that its fuel ran out.
* `decodeNode_empty_key` — the blob `c2 80 80` makes `decodeNode` panic.
* `verifyProof_empty_key` — so does a proof holding that blob as its root.
* `resolveHash_empty_blob` — an empty blob that is not `nil` reaches the
  decoder, and `resolveHash` panics on it.
-/

set_option linter.dupNamespace false

namespace Lemochain.Trie

open Lemochain.Rlp

/-- A result that is not the model's own out-of-fuel error. -/
def FuelOk {α : Type} (r : Except DecodeError α) : Prop :=
  ∀ e, r = .error e → e.what ≠ .outOfFuel

theorem FuelOk.ok {α : Type} (a : α) : FuelOk (.ok a : Except DecodeError α) := by
  intro e h
  cases h

theorem FuelOk.plain {α : Type} {what : DecodeFailure} (h : what ≠ .outOfFuel) :
    FuelOk (.error (.plain what) : Except DecodeError α) := by
  intro e he
  cases he
  exact h

@[simp] theorem wrapError_what (err : DecodeError) (ctx : String) : (wrapError err ctx).what = err.what := by
  unfold wrapError
  split <;> rfl

/-- An error passed on from a result that was not out of fuel. -/
theorem FuelOk.pass {α β : Type} {r : Except DecodeError α} {e : DecodeError} (h : FuelOk r)
    (he : r = .error e) : FuelOk (.error e : Except DecodeError β) := by
  intro e' h'
  cases h'
  exact h e he

/-- The same, with the context of the caller added to the error. -/
theorem FuelOk.wrap {α β : Type} {r : Except DecodeError α} {e : DecodeError} (h : FuelOk r)
    (he : r = .error e) (ctx : String) : FuelOk (.error (wrapError e ctx) : Except DecodeError β) := by
  intro e' h'
  cases h'
  rw [wrapError_what]
  exact h e he

theorem FuelOk.mapError {α : Type} {r : Except DecodeError α} (h : FuelOk r) (ctx : String) :
    FuelOk (r.mapError (wrapError · ctx)) := by
  cases r with
  | ok a => exact FuelOk.ok a
  | error e => exact h.wrap rfl ctx

section Recursion

variable {ref : Bytes → Except DecodeError (Node × Bytes)}

/-- The rest `decodeRef` returns is what `Split` left. -/
theorem decodeRef_rest_length_le {dn : Bytes → Except DecodeError Node} {buf rest : Bytes} {n : Node}
    (h : decodeRef dn buf = .ok (n, rest)) : rest.length ≤ buf.length := by
  unfold decodeRef at h
  split at h
  · cases h
  · rename_i kind val r hs
    have hr := split_rest_length_le hs
    by_cases hk : kind = .list
    · rw [if_pos hk] at h
      dsimp only at h
      split_ifs at h
      split at h
      · cases h
      · cases h
        exact hr
    · rw [if_neg hk] at h
      split_ifs at h <;>
      · cases h
        exact hr

/-- `decodeRef` calls the decoder on its own input only. -/
theorem decodeRef_fuelOk {dn : Bytes → Except DecodeError Node} {buf : Bytes} (hdn : FuelOk (dn buf)) :
    FuelOk (decodeRef dn buf) := by
  unfold decodeRef
  split
  · exact FuelOk.plain (by simp)
  · rename_i kind val rest _
    by_cases hk : kind = .list
    · rw [if_pos hk]
      dsimp only
      split_ifs
      · exact FuelOk.plain (by simp)
      · split
        · rename_i e he
          exact hdn.pass he
        · exact FuelOk.ok _
    · rw [if_neg hk]
      split_ifs
      · exact FuelOk.ok _
      · exact FuelOk.ok _
      · exact FuelOk.plain (by simp)

theorem decodeShort_fuelOk {hash : Option Bytes} {elems : Bytes} {cachegen : UInt16}
    (href : ∀ b : Bytes, b.length ≤ elems.length → FuelOk (ref b)) :
    FuelOk (decodeShort ref hash elems cachegen) := by
  unfold decodeShort
  split
  · exact FuelOk.plain (by simp)
  · rename_i kbuf rest hs
    have hrest := splitString_rest_length_le hs
    dsimp only
    split
    · exact FuelOk.plain (by simp)
    · split
      · split
        · exact FuelOk.plain (by simp)
        · exact FuelOk.ok _
      · split
        · rename_i e he
          exact (href rest hrest).wrap he _
        · exact FuelOk.ok _

/-- The loop over the children of a full node reads each child from what the
previous one left. -/
theorem decodeChildren_fuelOk (hrest : ∀ b n r, ref b = .ok (n, r) → r.length ≤ b.length) :
    ∀ (is : List (Fin 16)) (cs : Fin 17 → Node) (elems : Bytes),
      (∀ b : Bytes, b.length ≤ elems.length → FuelOk (ref b)) →
      FuelOk (decodeChildren ref is cs elems)
  | [], cs, elems, _ => FuelOk.ok _
  | i :: is, cs, elems, href => by
      unfold decodeChildren
      split
      · rename_i e he
        exact (href elems (Nat.le_refl _)).wrap he _
      · rename_i cld rest hc
        have hr := hrest elems cld rest hc
        exact decodeChildren_fuelOk hrest is _ rest fun b hb => href b (Nat.le_trans hb hr)

theorem decodeFull_fuelOk {hash : Option Bytes} {elems : Bytes} {cachegen : UInt16}
    (hrest : ∀ b n r, ref b = .ok (n, r) → r.length ≤ b.length)
    (href : ∀ b : Bytes, b.length ≤ elems.length → FuelOk (ref b)) :
    FuelOk (decodeFull ref hash elems cachegen) := by
  unfold decodeFull
  dsimp only
  split
  · rename_i e he
    exact (decodeChildren_fuelOk hrest _ _ _ href).pass he
  · split
    · exact FuelOk.plain (by simp)
    · exact FuelOk.ok _

end Recursion

/-- Fuel above the length of the blob is enough: an embedded node lies
inside the content of its parent's list (induction on the fuel).

Every child blob is a part of `elems`, so shorter than `fuel`. -/
theorem decodeNode_fuelOk : ∀ (fuel : Nat) (hash : Option Bytes) (buf : Bytes) (cachegen : UInt16),
    buf.length < fuel → FuelOk (decodeNode fuel hash buf cachegen)
  | 0, _, _, _, h => absurd h (Nat.not_lt_zero _)
  | fuel + 1, hash, buf, cachegen, hlen => by
      unfold decodeNode
      split_ifs
      · exact FuelOk.plain (by simp)
      · split
        · exact FuelOk.plain (by simp)
        · rename_i elems _ hsplit
          have helems := splitList_content_length_lt hsplit
          dsimp only
          have href : ∀ b : Bytes, b.length ≤ elems.length →
              FuelOk (decodeRef (fun b => decodeNode fuel none b cachegen) b) := fun b hb =>
            decodeRef_fuelOk (decodeNode_fuelOk fuel none b cachegen (by omega))
          have hrest : ∀ b n r, decodeRef (fun b => decodeNode fuel none b cachegen) b = .ok (n, r) →
              r.length ≤ b.length := fun _ _ _ h => decodeRef_rest_length_le h
          split_ifs
          · exact (decodeShort_fuelOk href).mapError _
          · exact (decodeFull_fuelOk hrest href).mapError _
          · exact FuelOk.plain (by simp)

/-- The decoder of untrusted blobs terminates with one of the source's
outcomes: with `decodeFuel` fuel it never runs out. -/
theorem decodeNode_total (hash : Option Bytes) (buf : Bytes) (cachegen : UInt16) :
    FuelOk (decodeNode (decodeFuel buf) hash buf cachegen) :=
  decodeNode_fuelOk _ hash buf cachegen (Nat.lt_succ_self _)

/-- A short node with an empty key string: `compactToHex` panics on it. -/
theorem decodeNode_empty_key :
    decodeNode (decodeFuel [0xC2, 0x80, 0x80]) none [0xC2, 0x80, 0x80] 0 = .error (.plain .panic) := by
  rfl

/-- A proof whose root node is that blob, put under its own hash, makes
`VerifyProof` panic whatever the key. -/
theorem verifyProof_empty_key (keccak : Bytes → Hash) (key : Bytes) :
    VerifyProof (keccak [0xC2, 0x80, 0x80]) key
        (DiskDB.Put (fun _ => none) (keccak [0xC2, 0x80, 0x80]).bytes (some [0xC2, 0x80, 0x80])) =
      .error (.bad 0 (.plain .panic)) := by
  simp only [VerifyProof, verifyLoop, DiskDB.Put, Function.update_self]
  rfl

/-- A blob the database returns empty but not `nil` is no missing node: the
decoder reads it and `mustDecodeNode` panics. -/
theorem resolveHash_empty_blob (t : Trie) (db : Database) (n : Bytes) (pre : Hex)
    (h : db.Node (BytesToHash n) = some []) : t.resolveHash db n pre = .error .panic := by
  simp only [Trie.resolveHash, h, mustDecodeNode, decodeFuel, List.length_nil, decodeNode]
  rfl

end Lemochain.Trie
