import Lemochain.Trie.DeleteSpec
import Lemochain.Trie.GetSpec

/-!
# The public trie methods on a trie that holds a map

`Holds P resolveHash t T` says that the root of `t`, read through the
database behind `resolveHash`, is the canonical tree `T` holding only keys
that come from byte keys, with every flag satisfying `P`. It is the
invariant the public methods keep when the flags of new nodes satisfy `P`
and refreshing a generation keeps it:

* `Holds.tryGet`: `TryGet` returns what `T` holds under the key, and the trie
  it returns holds `T` again;
* `Holds.tryUpdate`, `Holds.tryDelete`: the methods succeed, change only the
  root, and the new root holds `T` with the one key updated or removed.

The byte-level map of a trie is `byteMap T`; two tries that hold the same
byte map hold the same tree (`shape_eq_of_byteMap`), since canonical trees are
determined by what they hold (`RootCanonical.eq_of_lookup_eq`).
-/

namespace Lemochain.Trie

open Lemochain.Radix

variable {t : Trie} {P : FlagPred} {resolveHash : Resolver}

/-- Keys held come from byte keys. -/
def ByteKeys (T : Shape) : Prop := ∀ k v, T.lookup k = some v → ∃ b, k = keybytesToHex b

/-- The root of `t` is the canonical tree `T` of byte keys. -/
structure Holds (P : FlagPred) (resolveHash : Resolver) (t : Trie) (T : Shape) : Prop where
  expands : Expands P resolveHash true t.root T
  shape : InnerShape T
  byteKeys : ByteKeys T

/-- The map from byte keys to values that a tree holds. -/
def byteMap (T : Shape) (key : Bytes) : Option Bytes := T.lookup (keybytesToHex key)

theorem ByteKeys.update {T T' : Shape} {key : Bytes} {v : Option Bytes} (hT : ByteKeys T)
    (h : T'.lookup = Function.update T.lookup (keybytesToHex key) v) : ByteKeys T' := by
  intro k w hw
  rw [h] at hw
  by_cases hk : k = keybytesToHex key
  · exact ⟨key, hk⟩
  · rw [Function.update_of_ne hk] at hw
    exact hT k w hw

/-- The empty trie holds the empty tree. -/
theorem Holds.empty (h : t.root = .nil) : Holds P resolveHash t .nil :=
  ⟨h ▸ .nil, ⟨.inl rfl, KeysOk.nil⟩, fun _ _ hv => by simp at hv⟩

theorem Holds.with_root {n : Node} {T : Shape} (hexp : Expands P resolveHash true n T)
    (hT : InnerShape T) (hkeys : ByteKeys T) : Holds P resolveHash { t with root := n } T :=
  ⟨hexp, hT, hkeys⟩

/-- The root's budget covers what the recursions need. -/
theorem fuelNeed_le_methodFuel (n : Node) (key : Hex) : fuelNeed n key.length ≤ methodFuel key :=
  fuelNeed_le n key.length

/-- `TryGet` returns the value the trie holds and a trie that holds the same. -/
theorem Holds.tryGet (hgen : ∀ top f T, P top f T → P top { f with gen := t.cachegen } T)
    {T : Shape} (h : Holds P resolveHash t T) (key : Bytes) :
    ∃ t', t.TryGet resolveHash key = .ok (byteMap T key, t') ∧ Holds P resolveHash t' T := by
  obtain ⟨n', b, hget, hexp'⟩ := tryGet_inner hgen (methodFuel (keybytesToHex key)) true t.root T
    (keybytesToHex key) 0 h.expands h.shape (keybytesToHex_eq key) (fuelNeed_le_methodFuel _ _)
  simp only [List.drop_zero] at hget
  simp only [Trie.TryGet, hget]
  cases b with
  | true => exact ⟨_, rfl, .with_root hexp' h.shape h.byteKeys⟩
  | false => exact ⟨t, rfl, h⟩

/-- `Get`: the value the trie holds. -/
theorem Holds.get (hgen : ∀ top f T, P top f T → P top { f with gen := t.cachegen } T)
    {T : Shape} (h : Holds P resolveHash t T) (key : Bytes) :
    (t.Get resolveHash key).1 = byteMap T key ∧ Holds P resolveHash (t.Get resolveHash key).2 T := by
  obtain ⟨t', hget, ht'⟩ := h.tryGet hgen key
  rw [Trie.Get, hget]
  exact ⟨rfl, ht'⟩

/-- Inserting under a byte key: the new root holds the updated tree. -/
theorem Holds.insert (hnew : ∀ top T, P top t.newFlag T) {T : Shape} (h : Holds P resolveHash t T)
    (key value : Bytes) :
    ∃ d n' T', t.insert resolveHash (methodFuel (keybytesToHex key)) t.root [] (keybytesToHex key)
        (.value value) = .ok (d, n') ∧ Holds P resolveHash { t with root := n' } T' ∧
      T'.lookup = Function.update T.lookup (keybytesToHex key) (some value) := by
  obtain ⟨d, n', T', hins, hexp', hT', hlook, -, -⟩ := @insert_inner t P resolveHash hnew
    (methodFuel (keybytesToHex key)) true t.root T [] (keybytesToHex key) value h.expands h.shape
    (keybytesToHex_eq key) (fuelNeed_le_methodFuel _ _)
  exact ⟨d, n', T', hins, .with_root hexp' hT' (h.byteKeys.update hlook), hlook⟩

/-- Deleting a byte key: the new root holds the tree without it. -/
theorem Holds.delete (hnew : ∀ top T, P top t.newFlag T) {T : Shape} (h : Holds P resolveHash t T)
    (key : Bytes) :
    ∃ d n' T', t.delete resolveHash (methodFuel (keybytesToHex key)) t.root [] (keybytesToHex key) =
        .ok (d, n') ∧ Holds P resolveHash { t with root := n' } T' ∧
      T'.lookup = Function.update T.lookup (keybytesToHex key) none := by
  obtain ⟨d, n', T', hdel, hexp', hT', hlook, -, -⟩ := @delete_inner t P resolveHash hnew
    (methodFuel (keybytesToHex key)) true t.root T [] (keybytesToHex key) h.expands h.shape
    (keybytesToHex_eq key) (fuelNeed_le_methodFuel _ _)
  exact ⟨d, n', T', hdel, .with_root hexp' hT' (h.byteKeys.update hlook), hlook⟩

/-- What `TryUpdate` stores under a key: the value, or nothing for an empty
value. -/
def updateValue (value : Bytes) : Option Bytes := if value.length ≠ 0 then some value else none

/-- `TryUpdate` succeeds, changes only the root, and the new root holds the
tree with the key updated (removed for an empty value). -/
theorem Holds.tryUpdate (hnew : ∀ top T, P top t.newFlag T) {T : Shape}
    (h : Holds P resolveHash t T) (key value : Bytes) :
    ∃ n' T', t.TryUpdate resolveHash key value = .ok { t with root := n' } ∧
      Holds P resolveHash { t with root := n' } T' ∧
      T'.lookup = Function.update T.lookup (keybytesToHex key) (updateValue value) := by
  by_cases hv : value.length ≠ 0
  · obtain ⟨d, n', T', hins, ht', hlook⟩ := h.insert hnew key value
    refine ⟨n', T', ?_, ht', by rw [updateValue, if_pos hv]; exact hlook⟩
    simp only [Trie.TryUpdate, if_pos hv, hins]
  · obtain ⟨d, n', T', hdel, ht', hlook⟩ := h.delete hnew key
    refine ⟨n', T', ?_, ht', by rw [updateValue, if_neg hv]; exact hlook⟩
    simp only [Trie.TryUpdate, if_neg hv, hdel]

/-- `TryDelete` succeeds, changes only the root, and the new root holds the
tree without the key. -/
theorem Holds.tryDelete (hnew : ∀ top T, P top t.newFlag T) {T : Shape}
    (h : Holds P resolveHash t T) (key : Bytes) :
    ∃ n' T', t.TryDelete resolveHash key = .ok { t with root := n' } ∧
      Holds P resolveHash { t with root := n' } T' ∧
      T'.lookup = Function.update T.lookup (keybytesToHex key) none := by
  obtain ⟨d, n', T', hdel, ht', hlook⟩ := h.delete hnew key
  exact ⟨n', T', by simp only [Trie.TryDelete, hdel], ht', hlook⟩

/-- An update of one hex key of a byte key is an update of the byte map. -/
theorem byteMap_update {T T' : Shape} {key : Bytes} {v : Option Bytes}
    (h : T'.lookup = Function.update T.lookup (keybytesToHex key) v) :
    byteMap T' = Function.update (byteMap T) key v := by
  funext k
  simp only [byteMap, h]
  by_cases hk : k = key
  · subst hk
    simp
  · rw [Function.update_of_ne (fun e => hk (keybytesToHex_injective e)), Function.update_of_ne hk]
    rfl

/-- Two trees of byte keys holding the same byte map are the same tree.

Every key held on either side is a byte key, where the two maps agree. -/
theorem shape_eq_of_byteMap {T T' : Shape} (hT : InnerShape T) (hT' : InnerShape T')
    (hk : ByteKeys T) (hk' : ByteKeys T') (h : byteMap T = byteMap T') : T = T' := by
  refine hT.1.eq_of_lookup_eq hT'.1 (funext fun k => ?_)
  cases hv : T.lookup k with
  | some v =>
      obtain ⟨b, rfl⟩ := hk k v hv
      rw [← hv]
      exact congrFun h b
  | none =>
      cases hv' : T'.lookup k with
      | none => rfl
      | some v =>
          obtain ⟨b, rfl⟩ := hk' _ v hv'
          rw [← hv, ← hv']
          exact congrFun h b

end Lemochain.Trie
