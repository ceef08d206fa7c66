import Mathlib.Data.List.FinRange
import Lemochain.Trie.Codec
import Lemochain.Trie.Shape

/-!
# The encoding of a trie's tree, and its decoding

This module states, on the tree a trie holds, what the hasher computes and
what the decoder reads back. For a hash function `keccak`:

* `nodeItem T` is the RLP item of the node at the top of `T`, with its
  children replaced by their references: the empty string for an empty
  child, the child's own item when its encoding is shorter than a hash, the
  hash of the encoding otherwise (`refOf`, `childRef`); a short node over a
  value holds the value itself, a full node's value slot the value or the
  empty string;
* `encodeShape T` is its encoding, the blob the database stores under the
  hash `keccak (encodeShape T)`, and `rootHash T` the root hash of a trie
  holding `T`;
* `decodedOf hash T` is the node the decoder builds from that blob: the
  same keys and values, embedded children decoded in place and the other
  children as hash nodes.

`decodeNode_encodeShape` is the round trip: for the trees the trie builds
(`Decodable`, which every canonical subtree with non-empty values is, by
`Decodable.of_innerShape`) whose sizes fit the source's `uint64`,
`decodeNode` returns `decodedOf`.
-/

namespace Lemochain.Trie

open Lemochain.Rlp

section Encoding

variable (keccak : Bytes → Hash)

/-- What a parent holds for a child whose item is `it`: the item itself when
its encoding is shorter than a hash, else the hash of the encoding. -/
def refOf (it : Item) : Item :=
  if (encode it).length < 32 then it else .str (keccak (encode it)).bytes

/-- What a parent holds for the child subtree `c` whose item is `it`; an
empty child is the empty string. -/
def childRef (c : Shape) (it : Item) : Item :=
  match c with
  | .nil => .str []
  | _ => refOf keccak it

/-- What a full node holds in its value slot. -/
def valueItem : Shape → Item
  | .leaf v => .str v
  | _ => .str []

/-- The item of the node at the top of a tree. -/
def nodeItem : Shape → Item
  | .nil => .list []
  | .leaf v => .str v
  | .short p (.leaf v) => .list [.str (hexToCompact p), .str v]
  | .short p c => .list [.str (hexToCompact p), childRef keccak c (nodeItem c)]
  | .branch Ts => .list ((List.finRange 17).map fun i =>
      if i = terminator then valueItem (Ts i) else childRef keccak (Ts i) (nodeItem (Ts i)))

/-- The blob of the node at the top of a tree. -/
def encodeShape (T : Shape) : Bytes := encode (nodeItem keccak T)

/-- What a parent holds for the subtree `T`. -/
def refItem (T : Shape) : Item := childRef keccak T (nodeItem keccak T)

/-- The root hash of a trie that holds `T`. -/
def rootHash : Shape → Hash
  | .nil => emptyRoot
  | T => keccak (encodeShape keccak T)

/-- The node the decoder builds for a child subtree `c`, given the node `n`
it builds for the embedded encoding of `c`. -/
def childNode (c : Shape) (n : Node) : Node :=
  match c with
  | .nil => .nil
  | c => if (encodeShape keccak c).length < 32 then n else .hash (keccak (encodeShape keccak c)).bytes

/-- The node the decoder builds for a value slot. -/
def valueNode : Shape → Node
  | .leaf v => if v.length > 0 then .value v else .nil
  | _ => .nil

/-- The node `decodeNode` builds from the blob of `T`; `hash` is its cached
hash. -/
def decodedOf (hash : Option Bytes) (cachegen : UInt16) : Shape → Node
  | .short p (.leaf v) => .short p (.value v) ⟨hash, cachegen, false⟩
  | .short p c => .short p (childNode keccak c (decodedOf none cachegen c)) ⟨hash, cachegen, false⟩
  | .branch Ts => .full (fun i => if i = terminator then valueNode (Ts i)
      else childNode keccak (Ts i) (decodedOf none cachegen (Ts i))) ⟨hash, cachegen, false⟩
  | _ => .nil

end Encoding

/-- The trees whose top node the decoder reads back: a leaf under a key with
the terminator, an extension without it over a decodable node, a branch of
empty or decodable children and an empty or non-empty value slot. -/
inductive Decodable : Shape → Prop
  | leaf {p : Hex} {v : Bytes} : ShortKey p → hasTerm p = true → Decodable (.short p (.leaf v))
  | extension {p : Hex} {c : Shape} : ShortKey p → hasTerm p = false → Decodable c →
      Decodable (.short p c)
  | branch {Ts : Fin 17 → Shape} : (∀ i, i ≠ terminator → Ts i ≠ .nil → Decodable (Ts i)) →
      (Ts terminator = .nil ∨ ∃ v, v ≠ [] ∧ Ts terminator = .leaf v) → Decodable (.branch Ts)

/-- The values a tree holds are not empty. -/
def NonEmptyValues (T : Shape) : Prop := ∀ k v, T.lookup k = some v → v ≠ []

theorem Decodable.ne_leaf {T : Shape} (h : Decodable T) (v : Bytes) : T ≠ .leaf v := by
  cases h <;> simp

theorem Decodable.ne_nil {T : Shape} (h : Decodable T) : T ≠ .nil := by
  cases h <;> simp

/-- A canonical subtree of byte keys with non-empty values is decodable. The
induction is on the tree; the case lemmas of `InnerShape` say which
constructor applies. -/
theorem Decodable.of_innerShape {T : Shape} (hT : InnerShape T) (hne : T ≠ .nil)
    (hv : NonEmptyValues T) : Decodable T := by
  induction T with
  | nil => exact absurd rfl hne
  | leaf w => exact absurd rfl (hT.ne_leaf w)
  | short k Tc ih =>
      obtain ⟨_, hcases⟩ := hT.short_cases
      rcases hcases with ⟨hall, ⟨Ts, rfl⟩, hTc⟩ | ⟨⟨ns, hns, rfl⟩, w, rfl⟩
      · refine .extension ⟨k, hall, .inl rfl⟩ (hasTerm_of_nibbles hall) (ih hTc (by simp) ?_)
        intro r v hr
        exact hv (k ++ r) v (by rw [Radix.Tree.lookup_short_append]; exact hr)
      · exact .leaf ⟨ns, hns, .inr rfl⟩ (hasTerm_append_terminator ns)
  | branch Ts ih =>
      obtain ⟨_, hinner, hval⟩ := hT.branch_cases
      refine .branch (fun i hi hnil => ih i (hinner i hi) hnil fun r v hr => hv (i :: r) v ?_) ?_
      · simpa using hr
      · rcases hval with h | ⟨w, h⟩
        · exact .inl h
        · exact .inr ⟨w, hv [terminator] w (by simp [h]), h⟩

section RoundTrip

variable {keccak : Bytes → Hash}

theorem Decodable.nodeItem_eq_list (keccak : Bytes → Hash) {T : Shape} (h : Decodable T) :
    ∃ items, nodeItem keccak T = .list items := by
  cases h with
  | leaf => exact ⟨_, rfl⟩
  | extension _ _ hc => cases hc <;> exact ⟨_, rfl⟩
  | branch => exact ⟨_, rfl⟩

/-- `childRef` at a non-empty child. -/
theorem childRef_of_ne_nil {c : Shape} (hc : c ≠ .nil) (it : Item) :
    childRef keccak c it = refOf keccak it := by
  cases c <;> first | exact absurd rfl hc | rfl

theorem childNode_of_ne_nil {c : Shape} (hc : c ≠ .nil) (n : Node) :
    childNode keccak c n =
      if (encodeShape keccak c).length < 32 then n else .hash (keccak (encodeShape keccak c)).bytes := by
  cases c <;> first | exact absurd rfl hc | rfl

/-- `nodeItem` of a short node over a child that is not a value. -/
theorem nodeItem_short {p : Hex} {c : Shape} (hc : ∀ v, c ≠ .leaf v) :
    nodeItem keccak (.short p c) = .list [.str (hexToCompact p), childRef keccak c (nodeItem keccak c)] := by
  cases c with
  | leaf v => exact absurd rfl (hc v)
  | _ => rfl

theorem decodedOf_short {p : Hex} {c : Shape} (hc : ∀ v, c ≠ .leaf v) (hash : Option Bytes)
    (cachegen : UInt16) :
    decodedOf keccak hash cachegen (.short p c) =
      .short p (childNode keccak c (decodedOf keccak none cachegen c)) ⟨hash, cachegen, false⟩ := by
  cases c with
  | leaf v => exact absurd rfl (hc v)
  | _ => rfl

/-- A list header takes at least one byte. -/
theorem payload_lt_encode_list (items : List Item) :
    (encodeList items).length < (encode (.list items)).length := by
  rw [encode_list, List.length_append]
  have := puthead_length_pos 0xC0 0xF7 (encodeList items).length
  omega

/-- `decodeNode` on an encoded list: the dispatch on the number of items. -/
theorem decodeNode_list {items : List Item} (hs : Sized (.list items)) (fuel : Nat) (hash : Option Bytes)
    (rest : Bytes) (cachegen : UInt16) :
    decodeNode (fuel + 1) hash (encode (.list items) ++ rest) cachegen =
      if items.length = 2 then
        (decodeShort (decodeRef (fun b => decodeNode fuel none b cachegen)) hash (encodeList items)
          cachegen).mapError (wrapError · "short")
      else if items.length = 17 then
        (decodeFull (decodeRef (fun b => decodeNode fuel none b cachegen)) hash (encodeList items)
          cachegen).mapError (wrapError · "full")
      else .error (.plain (.listElements items.length)) := by
  have hitems : ∀ it ∈ items, Sized it := by cases hs with | list _ h => exact h
  have hpos := encode_length_pos (.list items)
  rw [decodeNode, if_neg (by rw [List.length_append]; omega), splitList_encode hs rest]
  simp only [countValues_encodeList hitems]

/-- `decodeRef` reads back the reference to a child, given that the
embedded encoding of the child decodes.

An empty child is the empty string. Embedded: the child's own list, decoded
one level down. Hashed: a 32-byte string. -/
theorem decodeRef_childRef {c : Shape} (hc : c = .nil ∨ Decodable c)
    (hsz : Sized (childRef keccak c (nodeItem keccak c))) (fuel : Nat) (cachegen : UInt16) (rest : Bytes)
    (ih : Decodable c → (encodeShape keccak c).length < 32 → Sized (nodeItem keccak c) →
      decodeNode fuel none (encodeShape keccak c ++ rest) cachegen = .ok (decodedOf keccak none cachegen c)) :
    decodeRef (fun b => decodeNode fuel none b cachegen) (encode (childRef keccak c (nodeItem keccak c)) ++ rest) =
      .ok (childNode keccak c (decodedOf keccak none cachegen c), rest) := by
  rcases hc with rfl | hc
  · simp only [childRef]
    rw [decodeRef, split_encode (.str (by simp)) rest]
    simp [Item.kind, childNode]
  · obtain ⟨items, hitems⟩ := Decodable.nodeItem_eq_list keccak hc
    rw [childRef_of_ne_nil hc.ne_nil] at hsz ⊢
    rw [childNode_of_ne_nil hc.ne_nil]
    unfold refOf at hsz ⊢
    rw [← encodeShape] at hsz ⊢
    by_cases hsmall : (encodeShape keccak c).length < 32
    · rw [if_pos hsmall] at hsz ⊢
      rw [if_pos hsmall]
      have hdec := ih hc hsmall hsz
      rw [hitems] at hsz ⊢
      rw [decodeRef, split_encode hsz rest]
      simp only [Item.kind, if_true, List.length_append, Nat.add_sub_cancel]
      rw [← hitems, ← encodeShape, if_neg (by unfold hashLen HashLength; omega), hdec]
    · rw [if_neg hsmall] at hsz ⊢
      rw [if_neg hsmall]
      have hlen : (keccak (encodeShape keccak c)).bytes.length = 32 := (keccak _).length_eq
      rw [decodeRef, split_encode hsz rest]
      have hkind : (Item.str (keccak (encodeShape keccak c)).bytes).kind = .string := by
        rcases hb : (keccak (encodeShape keccak c)).bytes with _ | ⟨_, _ | ⟨_, _⟩⟩
        · simp [hb] at hlen
        · simp [hb] at hlen
        · rfl
      simp [hkind, hlen]

/-- The loop of `decodeFull` over references that each decode. -/
theorem decodeChildren_refs (ref : Bytes → Except DecodeError (Node × Bytes)) (G : Fin 17 → Node)
    (items : Fin 16 → Item) (L : Nat)
    (h : ∀ i rest, (encode (items i) ++ rest).length ≤ L → ref (encode (items i) ++ rest) = .ok (G i.castSucc, rest)) :
    ∀ (is : List (Fin 16)) (cs : Fin 17 → Node) (rest : Bytes),
      (encodeList (is.map items) ++ rest).length ≤ L →
      decodeChildren ref is cs (encodeList (is.map items) ++ rest) =
        .ok (fun j => if j ∈ is.map Fin.castSucc then G j else cs j, rest) := by
  intro is
  induction is with
  | nil => intro cs rest _; simp [decodeChildren]
  | cons i is ih =>
      intro cs rest hL
      simp only [List.map_cons, encodeList_cons, List.append_assoc] at hL ⊢
      have hlen : (encodeList (is.map items) ++ rest).length ≤ L := by
        simp only [List.length_append] at hL ⊢
        omega
      rw [decodeChildren, h i _ hL]
      dsimp only
      rw [ih _ rest hlen]
      congr 2
      funext j
      by_cases hj : j ∈ is.map Fin.castSucc
      · simp [hj]
      · by_cases hji : j = i.castSucc
        · subst hji
          simp
        · simp [hj, hji]

theorem encodeList_finRange_17 (f : Fin 17 → Item) :
    encodeList ((List.finRange 17).map f) =
      encodeList ((List.finRange 16).map (fun i => f i.castSucc)) ++ encode (f terminator) := by
  rw [List.finRange_succ_last, List.map_append, encodeList_append, List.map_map]
  simp only [List.map_cons, List.map_nil, encodeList_cons, encodeList_nil, List.append_nil]
  rfl

theorem mem_castSucc_finRange (j : Fin 17) :
    j ∈ (List.finRange 16).map Fin.castSucc ↔ j ≠ terminator := by
  constructor
  · rintro hj rfl
    obtain ⟨i, _, hi⟩ := List.mem_map.1 hj
    have := i.isLt
    have := congrArg Fin.val hi
    simp [terminator] at this
    omega
  · intro hj
    have hlt : j.val < 16 := by
      have := j.isLt
      have : j.val ≠ 16 := fun e => hj (Fin.ext e)
      omega
    exact List.mem_map.2 ⟨⟨j.val, hlt⟩, List.mem_finRange _, rfl⟩

/-- The decoder reads back the node at the top of a decodable tree: the
round trip of `hasher.store` and `decodeNode`. The induction is on
`Decodable`; an embedded child is decoded one level down by the induction
hypothesis, inside the content of its parent, so one unit of fuel per level
suffices.

The child reference is read inside the list's content. The embedded child is
the reference, so it lies inside the parent. The content: sixteen
references, then the value slot. The value slot, then the nodes compared
slot by slot. Each reference decodes, one level down for an embedded child. -/
theorem decodeNode_encodeShape {T : Shape} (hT : Decodable T) :
    ∀ (hash : Option Bytes) (cachegen : UInt16) (rest : Bytes) (fuel : Nat),
      Sized (nodeItem keccak T) → (encodeShape keccak T ++ rest).length < fuel →
      decodeNode fuel hash (encodeShape keccak T ++ rest) cachegen = .ok (decodedOf keccak hash cachegen T) := by
  induction hT with
  | @leaf p v hp hterm =>
      intro hash cachegen rest fuel hs hfuel
      obtain ⟨fuel, rfl⟩ : ∃ f, fuel = f + 1 := ⟨fuel - 1, by omega⟩
      have hk : Sized (.str (hexToCompact p)) := by cases hs with | list _ h => exact h _ (by simp)
      have hvs : Sized (.str v) := by cases hs with | list _ h => exact h _ (by simp)
      unfold encodeShape
      simp only [nodeItem] at hs ⊢
      rw [decodeNode_list hs]
      simp only [List.length_cons, List.length_nil, if_true, encodeList_cons, encodeList_nil,
        List.append_nil]
      have hk64 : (hexToCompact p).length < 2 ^ 64 := by cases hk with | str h => exact h
      have hv64 : v.length < 2 ^ 64 := by cases hvs with | str h => exact h
      rw [decodeShort, splitString_encode hk64]
      dsimp only
      rw [compactToHex_hexToCompact hp]
      dsimp only
      rw [if_pos hterm, show encode (.str v) = encode (.str v) ++ [] from (List.append_nil _).symm,
        splitString_encode hv64]
      rfl
  | @extension p c hp hterm hc ih =>
      intro hash cachegen rest fuel hs hfuel
      obtain ⟨fuel, rfl⟩ : ∃ f, fuel = f + 1 := ⟨fuel - 1, by omega⟩
      have hcl : ∀ v, c ≠ .leaf v := hc.ne_leaf
      unfold encodeShape at hfuel ⊢
      rw [nodeItem_short hcl] at hs hfuel ⊢
      have hk : Sized (.str (hexToCompact p)) := by cases hs with | list _ h => exact h _ (by simp)
      have hr : Sized (childRef keccak c (nodeItem keccak c)) := by
        cases hs with | list _ h => exact h _ (by simp)
      have hk64 : (hexToCompact p).length < 2 ^ 64 := by cases hk with | str h => exact h
      rw [decodeNode_list hs]
      simp only [List.length_cons, List.length_nil, if_true, encodeList_cons, encodeList_nil]
      rw [decodeShort, splitString_encode hk64]
      dsimp only
      rw [compactToHex_hexToCompact hp]
      dsimp only
      rw [if_neg (by simp [hterm])]
      have hpay := payload_lt_encode_list [.str (hexToCompact p), childRef keccak c (nodeItem keccak c)]
      simp only [encodeList_cons, encodeList_nil, List.length_append] at hpay
      rw [decodeRef_childRef (.inr hc) hr fuel cachegen [] (fun _ hsmall hsz =>
        ih none cachegen [] fuel hsz (by
          rw [List.length_append] at hfuel
          have : childRef keccak c (nodeItem keccak c) = nodeItem keccak c := by
            rw [childRef_of_ne_nil hc.ne_nil, refOf, if_pos (show (encode (nodeItem keccak c)).length < 32
              from hsmall)]
          have hce : (encode (childRef keccak c (nodeItem keccak c))).length =
              (encodeShape keccak c).length := by rw [this]; rfl
          simp only [List.length_append, List.length_nil]
          omega))]
      rw [decodedOf_short hcl]
      rfl
  | @branch Ts hch hval ih =>
      intro hash cachegen rest fuel hs hfuel
      obtain ⟨fuel, rfl⟩ : ∃ f, fuel = f + 1 := ⟨fuel - 1, by omega⟩
      unfold encodeShape at hfuel ⊢
      simp only [nodeItem] at hs hfuel ⊢
      have hitems := hs
      cases hitems with | list _ hitems =>
      rw [decodeNode_list hs]
      simp only [List.length_map, List.length_finRange]
      rw [if_neg (by decide), if_pos trivial]
      have hpay := payload_lt_encode_list ((List.finRange 17).map fun i =>
        if i = terminator then valueItem (Ts i) else childRef keccak (Ts i) (nodeItem keccak (Ts i)))
      rw [encodeList_finRange_17] at hpay ⊢
      rw [List.length_append] at hfuel
      have hval64 : Sized (valueItem (Ts terminator)) :=
        hitems _ (List.mem_map.2 ⟨terminator, List.mem_finRange _, by simp⟩)
      unfold decodeFull
      rw [decodeChildren_refs _
        (fun j => childNode keccak (Ts j) (decodedOf keccak none cachegen (Ts j)))
        (fun i => if i.castSucc = terminator then valueItem (Ts i.castSucc)
          else childRef keccak (Ts i.castSucc) (nodeItem keccak (Ts i.castSucc)))
        ((encode (.list ((List.finRange 17).map fun i => if i = terminator then valueItem (Ts i)
          else childRef keccak (Ts i) (nodeItem keccak (Ts i))))).length - 1) _ _ _ _ (by
            rw [List.length_append] at hpay ⊢; omega)]
      · dsimp only
        rw [if_pos rfl]
        obtain ⟨b, hb⟩ : ∃ b, valueItem (Ts terminator) = .str b := by
          cases Ts terminator <;> exact ⟨_, rfl⟩
        rw [hb] at hval64 ⊢
        have hb64 : b.length < 2 ^ 64 := by cases hval64 with | str h => exact h
        rw [show encode (.str b) = encode (.str b) ++ [] from (List.append_nil _).symm,
          splitString_encode hb64]
        simp only [decodedOf, Except.mapError]
        congr 2
        funext j
        by_cases hj : j = terminator
        · subst hj
          have hnot : terminator ∉ (List.finRange 16).map Fin.castSucc :=
            fun h => (mem_castSucc_finRange _).1 h rfl
          rcases hval with h | ⟨v, hv, h⟩
          · rw [h] at hb
            simp only [valueItem, Item.str.injEq] at hb
            subst hb
            simp [h, valueNode, hnot, emptyChildren]
          · rw [h] at hb
            simp only [valueItem, Item.str.injEq] at hb
            subst hb
            have hvpos : 0 < v.length := List.length_pos_iff.2 hv
            simp [h, valueNode, hvpos]
        · have hmem := (mem_castSucc_finRange j).2 hj
          split <;> simp only [Function.update_of_ne hj, if_pos hmem]
      · intro i rest' hlen
        have hi : i.castSucc ≠ terminator := by
          intro h
          have := congrArg Fin.val h
          simp [terminator] at this
          omega
        simp only [if_neg hi] at hlen ⊢
        have hmem : childRef keccak (Ts i.castSucc) (nodeItem keccak (Ts i.castSucc)) ∈
            (List.finRange 17).map (fun i => if i = terminator then valueItem (Ts i)
              else childRef keccak (Ts i) (nodeItem keccak (Ts i))) :=
          List.mem_map.2 ⟨i.castSucc, List.mem_finRange _, by simp [hi]⟩
        have hc : Ts i.castSucc = .nil ∨ Decodable (Ts i.castSucc) := by
          by_cases hnil : Ts i.castSucc = .nil
          · exact .inl hnil
          · exact .inr (hch _ hi hnil)
        refine decodeRef_childRef hc (hitems _ hmem) fuel cachegen rest' (fun hdec hsmall hsz =>
          ih i.castSucc hi hdec.ne_nil none cachegen rest' fuel hsz ?_)
        have hce : (encode (childRef keccak (Ts i.castSucc) (nodeItem keccak (Ts i.castSucc)))).length =
            (encodeShape keccak (Ts i.castSucc)).length := by
          rw [childRef_of_ne_nil hdec.ne_nil, refOf,
            if_pos (show (encode (nodeItem keccak (Ts i.castSucc))).length < 32 from hsmall)]
          rfl
        rw [List.length_append] at hlen ⊢
        omega

end RoundTrip

end Lemochain.Trie
