import Lemochain.P2p.Enr

/-!
# Node records: the sorted map, signing and decoding

The pairs of a record are a map from keys to values kept as a list sorted
strictly by key. `insertKey` is the update of such a map, the pairs below
the key, the new pair, the pairs above it, and `lookup` its read. `Set`
refines `insertKey` and `Load` decodes `lookup` (`Set_pairs`, `Load_eq`):
the binary search finds the place of the key in a sorted list. So every
sequence of `Set` calls keeps the pairs sorted, and a key reads the value
of the last entry set for it (`lookup_foldl_Set`).

`Sign` stores the signature and the encoding in the record before it
checks the size of the encoding. When the check fails, `Sign` returns
`errTooBig` with a record that is signed, and `EncodeRLP` writes its
encoding, over the size limit (`Sign_errTooBig_signed`).

## Main results

* `lookup_insertKey`: the update changes the value of one key.
* `Set_pairs`, `Sorted.Set`, `Load_eq`: `Set` is the update and `Load`
  the read of the map.
* `lookup_foldl_Set`: a key reads the last value set for it.
* `Sign_errTooBig_signed`: a record too big to sign is left signed.
-/

namespace Lemochain.Enr

open Lemochain.Rlp Lemochain.BinarySearch Lemochain.Slice

/-! ## Keys in byte order -/

theorem key_lt_or_eq_or_gt (a b : Bytes) : a < b ∨ a = b ∨ b < a := by
  rcases List.le_total a b with h | h
  · rcases List.le_iff_lt_or_eq.mp h with h | h
    · exact Or.inl h
    · exact Or.inr (Or.inl h)
  · rcases List.le_iff_lt_or_eq.mp h with h | h
    · exact Or.inr (Or.inr h)
    · exact Or.inr (Or.inl h.symm)

theorem key_ne_of_lt {a b : Bytes} (h : a < b) : a ≠ b := fun heq => List.lt_irrefl a (heq ▸ h)

theorem key_lt_of_le_of_ne {a b : Bytes} (hle : a ≤ b) (hne : a ≠ b) : a < b := by
  rcases List.le_iff_lt_or_eq.mp hle with h | h
  · exact h
  · exact absurd h hne

/-! ## The pairs as a map -/

/-- The keys strictly increase along the pairs. -/
def Sorted (pairs : List pair) : Prop := pairs.Pairwise fun a b => a.k < b.k

/-- The value of a key. -/
def lookup (pairs : List pair) (key : Bytes) : Option Bytes := (pairs.find? fun p => p.k = key).map pair.v

/-- The update of a sorted map: the pairs below `key`, then the new pair,
then the pairs above it. -/
def insertKey (pairs : List pair) (key blob : Bytes) : List pair :=
  pairs.filter (fun p => p.k < key) ++ ⟨key, blob⟩ :: pairs.filter (fun p => key < p.k)

theorem lookup_append (A B : List pair) (key : Bytes) : lookup (A ++ B) key = (lookup A key).or (lookup B key) := by
  rw [lookup, lookup, lookup, List.find?_append]
  cases List.find? _ A <;> rfl

theorem lookup_cons_self (key blob : Bytes) (B : List pair) : lookup (⟨key, blob⟩ :: B) key = some blob := by
  simp [lookup]

theorem lookup_cons_ne {p : pair} (B : List pair) {key : Bytes} (h : p.k ≠ key) : lookup (p :: B) key = lookup B key := by
  simp [lookup, h]

theorem lookup_cons_of_eq {p : pair} (B : List pair) {key : Bytes} (h : p.k = key) : lookup (p :: B) key = some p.v := by
  simp [lookup, h]

theorem lookup_eq_none {pairs : List pair} {key : Bytes} (h : ∀ p ∈ pairs, p.k ≠ key) : lookup pairs key = none := by
  rw [lookup, Option.map_eq_none_iff, List.find?_eq_none]
  intro p hp heq
  exact h p hp (of_decide_eq_true heq)

/-- A filter that keeps every pair of the key keeps its value. -/
theorem lookup_filter (pairs : List pair) {q : pair → Bool} {key : Bytes} (hq : ∀ p : pair, p.k = key → q p = true) :
    lookup (pairs.filter q) key = lookup pairs key := by
  rw [lookup, lookup, List.find?_filter]
  congr 2
  funext p
  by_cases h : p.k = key <;> simp [h, hq p]

/-- The update sets the value of its key and keeps those of the others.

The key lies on one side of the updated one. -/
theorem lookup_insertKey (pairs : List pair) (key blob key' : Bytes) :
    lookup (insertKey pairs key blob) key' = if key' = key then some blob else lookup pairs key' := by
  rw [insertKey, lookup_append]
  split
  · rename_i heq
    subst heq
    rw [lookup_eq_none fun p hp => key_ne_of_lt (of_decide_eq_true (List.mem_filter.mp hp).2), lookup_cons_self]
    rfl
  · rename_i hne
    rw [lookup_cons_ne _ (Ne.symm hne)]
    rcases key_lt_or_eq_or_gt key' key with hlt | heq | hgt
    · have hright : lookup (pairs.filter fun p => key < p.k) key' = none := lookup_eq_none fun p hp heq =>
        List.lt_asymm hlt (heq ▸ of_decide_eq_true (List.mem_filter.mp hp).2)
      rw [lookup_filter pairs fun p hp => decide_eq_true (hp ▸ hlt), hright, Option.or_none]
    · exact absurd heq hne
    · have hleft : lookup (pairs.filter fun p => p.k < key) key' = none := lookup_eq_none fun p hp heq =>
        List.lt_asymm hgt (heq ▸ of_decide_eq_true (List.mem_filter.mp hp).2)
      rw [hleft, Option.none_or, lookup_filter pairs fun p hp => decide_eq_true (hp ▸ hgt)]

theorem Sorted.insertKey {pairs : List pair} (hs : Sorted pairs) (key blob : Bytes) :
    Sorted (insertKey pairs key blob) := by
  rw [Sorted, Enr.insertKey, List.pairwise_append, List.pairwise_cons]
  refine ⟨hs.filter _, ⟨fun q hq => of_decide_eq_true (List.mem_filter.mp hq).2, hs.filter _⟩, fun p hp q hq => ?_⟩
  have hpk : p.k < key := of_decide_eq_true (List.mem_filter.mp hp).2
  rcases List.mem_cons.mp hq with rfl | hq
  · exact hpk
  · exact List.lt_trans hpk (of_decide_eq_true (List.mem_filter.mp hq).2)

/-! ## The search for a key -/

theorem keyAtLeast_monotone {pairs : List pair} (hs : Sorted pairs) (key : Bytes) :
    MonotoneBelow pairs.length (keyAtLeast pairs key) := by
  intro a b hab hb ha
  have ha' : a < pairs.length := by omega
  rw [keyAtLeast, List.getElem?_eq_getElem ha', decide_eq_true_eq] at ha
  rw [keyAtLeast, List.getElem?_eq_getElem hb, decide_eq_true_eq]
  rcases Nat.eq_or_lt_of_le hab with rfl | hlt
  · exact ha
  · exact List.le_trans ha (List.le_of_lt (List.pairwise_iff_getElem.mp hs a b ha' hb hlt))

/-- The search splits sorted pairs: the pairs before the index it finds
are below the key, the others are not. -/
theorem searchKey_split {pairs : List pair} (hs : Sorted pairs) (key : Bytes) :
    (∀ p ∈ pairs.take (searchKey pairs key), p.k < key) ∧ ∀ p ∈ pairs.drop (searchKey pairs key), key ≤ p.k := by
  have hspec := search_spec (keyAtLeast_monotone hs key)
  rw [← searchKey] at hspec
  obtain ⟨hle, hlow, hhigh⟩ := hspec
  refine ⟨fun p hp => ?_, fun p hp => ?_⟩
  · obtain ⟨j, hj, rfl⟩ := List.getElem_of_mem hp
    rw [List.length_take] at hj
    have hfalse := hlow j (by omega)
    rw [keyAtLeast, List.getElem?_eq_getElem (by omega), decide_eq_false_iff_not] at hfalse
    rw [List.getElem_take]
    exact List.not_le.mp hfalse
  · obtain ⟨j, hj, rfl⟩ := List.getElem_of_mem hp
    rw [List.length_drop] at hj
    have hix : searchKey pairs key < pairs.length := by omega
    have htrue := hhigh hix
    rw [keyAtLeast, List.getElem?_eq_getElem hix, decide_eq_true_eq] at htrue
    rw [List.getElem_drop]
    rcases Nat.eq_zero_or_pos j with rfl | hj0
    · simpa using htrue
    · exact List.le_trans htrue
        (List.le_of_lt (List.pairwise_iff_getElem.mp hs _ _ hix (by omega) (by omega)))

theorem filter_lt_eq_take {pairs : List pair} (hs : Sorted pairs) (key : Bytes) :
    pairs.filter (fun p => p.k < key) = pairs.take (searchKey pairs key) := by
  obtain ⟨hlt, hge⟩ := searchKey_split hs key
  conv_lhs => rw [← List.take_append_drop (searchKey pairs key) pairs]
  rw [List.filter_append, List.filter_eq_self.mpr fun p hp => decide_eq_true (hlt p hp),
    List.filter_eq_nil_iff.mpr fun p hp => by simpa using hge p hp, List.append_nil]

theorem filter_gt_eq_drop {pairs : List pair} (hs : Sorted pairs) (key : Bytes) :
    pairs.filter (fun p => key < p.k) = (pairs.drop (searchKey pairs key)).filter (fun p => key < p.k) := by
  obtain ⟨hlt, -⟩ := searchKey_split hs key
  conv_lhs => rw [← List.take_append_drop (searchKey pairs key) pairs]
  rw [List.filter_append, List.filter_eq_nil_iff.mpr fun p hp => by simpa using List.le_of_lt (hlt p hp),
    List.nil_append]

/-- In sorted pairs from one at least `key`, those above `key` are all but
a first pair of that key. -/
theorem filter_gt_cons {p : pair} {rest : List pair} (hs : Sorted (p :: rest)) {key : Bytes} (hle : key ≤ p.k) :
    (p :: rest).filter (fun q => key < q.k) = if p.k = key then rest else p :: rest := by
  have hrest : ∀ q ∈ rest, key < q.k := fun q hq => List.lt_of_le_of_lt hle ((List.pairwise_cons.mp hs).1 q hq)
  rw [List.filter_cons, List.filter_eq_self.mpr fun q hq => decide_eq_true (hrest q hq)]
  by_cases heq : p.k = key
  · rw [if_neg (by rw [heq, decide_eq_true_eq]; exact List.lt_irrefl key), if_pos heq]
  · rw [if_pos (decide_eq_true (key_lt_of_le_of_ne hle (Ne.symm heq))), if_neg heq]

/-- In sorted pairs the search finds the pair of the key, if there is one.

The first pair is above the key, and so are the rest. -/
theorem lookup_eq_search {pairs : List pair} (hs : Sorted pairs) (key : Bytes) :
    lookup pairs key =
      match pairs[searchKey pairs key]? with
      | some p => if p.k = key then some p.v else none
      | none => none := by
  obtain ⟨hlt, hge⟩ := searchKey_split hs key
  conv_lhs => rw [← List.take_append_drop (searchKey pairs key) pairs]
  rw [lookup_append, lookup_eq_none fun p hp => key_ne_of_lt (hlt p hp), Option.none_or]
  by_cases hix : searchKey pairs key < pairs.length
  · rw [List.getElem?_eq_getElem hix]
    dsimp only
    have hd := List.drop_eq_getElem_cons hix
    have hsd : Sorted (pairs[searchKey pairs key] :: pairs.drop (searchKey pairs key + 1)) := hd ▸ hs.drop
    rw [hd]
    split
    · rename_i heq
      exact lookup_cons_of_eq _ heq
    · rename_i hne
      have hfirst := key_lt_of_le_of_ne (hge _ (hd ▸ List.mem_cons_self)) (Ne.symm hne)
      exact lookup_eq_none fun q hq heq => by
        rcases List.mem_cons.mp hq with rfl | hq
        · exact hne heq
        · exact List.lt_asymm hfirst (heq ▸ (List.pairwise_cons.mp hsd).1 q hq)
  · rw [List.drop_eq_nil_of_le (by omega), List.getElem?_eq_none (by omega)]
    rfl

/-! ## `Set` and `Load` -/

/-- `Set` on sorted pairs is the update of the map.

Every key is below: the pair goes at the end. The key is there: its value is
overwritten. -/
theorem Set_pairs {r : Record} (hs : Sorted r.pairs) (e : Entry) :
    (r.Set e).pairs = insertKey r.pairs e.ENRKey (encode e.item) := by
  have hle : searchKey r.pairs e.ENRKey ≤ r.pairs.length := search_le _ 0 _ (Nat.zero_le _)
  have hge := (searchKey_split hs e.ENRKey).2
  unfold Record.Set
  rw [insertKey, filter_lt_eq_take hs, filter_gt_eq_drop hs]
  dsimp only
  cases hp : r.pairs[searchKey r.pairs e.ENRKey]? with
  | none =>
      have hix : searchKey r.pairs e.ENRKey = r.pairs.length := by
        rw [List.getElem?_eq_none_iff] at hp
        omega
      dsimp only
      rw [hix, List.take_length, List.drop_length, List.filter_nil]
  | some p =>
      obtain ⟨hix, hpi⟩ := List.getElem?_eq_some_iff.mp hp
      have hd := List.drop_eq_getElem_cons hix
      have hsd : Sorted (r.pairs[searchKey r.pairs e.ENRKey] :: r.pairs.drop (searchKey r.pairs e.ENRKey + 1)) :=
        hd ▸ hs.drop
      rw [hd, filter_gt_cons hsd (hge _ (hd ▸ List.mem_cons_self)), hpi]
      dsimp only
      split
      · rename_i heq
        rw [List.set_eq_take_append_cons_drop, if_pos hix, heq]
      · rw [insert_by_copy _ _ (Nat.le_of_lt hix), hd, hpi]

theorem Sorted.Set {r : Record} (hs : Sorted r.pairs) (e : Entry) : Sorted (r.Set e).pairs := by
  rw [Set_pairs hs]
  exact hs.insertKey _ _

theorem lookup_Set {r : Record} (hs : Sorted r.pairs) (e : Entry) (key : Bytes) :
    lookup (r.Set e).pairs key = if key = e.ENRKey then some (encode e.item) else lookup r.pairs key := by
  rw [Set_pairs hs, lookup_insertKey]

/-- `Load` on sorted pairs decodes the value of the key. -/
theorem Load_eq {α : Type} {r : Record} (hs : Sorted r.pairs) (key : Bytes) (decode : Bytes → Except StreamError α) :
    r.Load key decode =
      match lookup r.pairs key with
      | some v =>
          match decode v with
          | .error err => .error (.keyError key (.stream err))
          | .ok v => .ok v
      | none => .error (.keyError key .errNotFound) := by
  rw [lookup_eq_search hs, Record.Load]
  cases r.pairs[searchKey r.pairs key]? with
  | none => rfl
  | some p =>
      dsimp only
      split <;> rfl

/-! ## Records built by `Set` -/

theorem Sorted.foldl_Set {r : Record} (hs : Sorted r.pairs) (es : List Entry) : Sorted (es.foldl Record.Set r).pairs := by
  induction es generalizing r with
  | nil => exact hs
  | cons e es ih => exact ih (hs.Set e)

/-- After a sequence of `Set` calls a key has the value of the last entry
set for it, or the one it had. -/
theorem lookup_foldl_Set {r : Record} (hs : Sorted r.pairs) (es : List Entry) (key : Bytes) :
    lookup (es.foldl Record.Set r).pairs key =
      ((es.filter fun e => e.ENRKey = key).getLast?.map fun e => encode e.item).or (lookup r.pairs key) := by
  induction es using List.reverseRecOn with
  | nil => rfl
  | append_singleton es e ih =>
      rw [List.foldl_append, List.foldl_cons, List.foldl_nil, lookup_Set (hs.foldl_Set es), List.filter_append]
      by_cases heq : key = e.ENRKey
      · rw [if_pos heq, List.filter_singleton, decide_eq_true heq.symm, cond_true, List.getLast?_concat]
        rfl
      · rw [if_neg heq, List.filter_singleton, decide_eq_false (Ne.symm heq), cond_false, List.append_nil, ih]

/-! ## Signing -/

section Signing

variable {PrivateKey : Type} (crypto : Crypto PrivateKey)

/-- When the encoding is over the size limit, `signAndEncode` has already
stored the signature and the encoding.

A failed signature is another error. -/
theorem signAndEncode_errTooBig (r : Record) (privkey : PrivateKey)
    (h : (r.signAndEncode crypto privkey).2 = some .errTooBig) :
    (r.signAndEncode crypto privkey).1.Signed = true ∧
      (r.signAndEncode crypto privkey).1.EncodeRLP = .ok (r.signAndEncode crypto privkey).1.raw ∧
      SizeLimit < (r.signAndEncode crypto privkey).1.raw.length := by
  unfold Record.signAndEncode at h ⊢
  dsimp only at h ⊢
  cases hsig : crypto.Sign (Keccak.keccak256 (encodeItems (r.appendPairs []))) privkey with
  | error err =>
      rw [hsig] at h
      cases h
  | ok sig =>
      rw [hsig] at h
      dsimp only at h ⊢
      split at h
      · rename_i hbig
        rw [if_pos hbig]
        exact ⟨rfl, rfl, hbig⟩
      · cases h

/-- `signAndEncode` fails with `errTooBig` when the signature is made and
the encoding with it is over the limit. -/
theorem signAndEncode_tooBig (r : Record) (privkey : PrivateKey) (sig : Bytes)
    (hsig : crypto.Sign (Keccak.keccak256 (encodeItems (r.appendPairs []))) privkey = .ok sig)
    (hbig : SizeLimit < (encodeItems (encodeString (sig.take (sig.length - 1)) :: r.appendPairs [])).length) :
    (r.signAndEncode crypto privkey).2 = some .errTooBig := by
  unfold Record.signAndEncode
  dsimp only
  rw [hsig]
  dsimp only
  rw [if_pos hbig]

@[simp] theorem Set_signature (r : Record) (e : Entry) : (r.Set e).signature = none := by
  unfold Record.Set
  dsimp only
  split
  · split <;> rfl
  · rfl

/-- When `crypto.Sign` fails, `signAndEncode` leaves the record as it
was. -/
theorem signAndEncode_sign_error (r : Record) (privkey : PrivateKey) (err : String)
    (hsig : crypto.Sign (Keccak.keccak256 (encodeItems (r.appendPairs []))) privkey = .error err) :
    r.signAndEncode crypto privkey = (r, some (.sign err)) := by
  unfold Record.signAndEncode
  dsimp only
  rw [hsig]

/-- `Sign` returns `errTooBig` with a signed record, which `EncodeRLP`
writes: an encoding over the size limit. -/
theorem Sign_errTooBig_signed (r : Record) (privkey : PrivateKey)
    (h : (r.Sign crypto privkey).2 = some .errTooBig) :
    (r.Sign crypto privkey).1.Signed = true ∧
      (r.Sign crypto privkey).1.EncodeRLP = .ok (r.Sign crypto privkey).1.raw ∧
      SizeLimit < (r.Sign crypto privkey).1.raw.length :=
  signAndEncode_errTooBig crypto _ privkey h

end Signing

/-- Primitives over one key that sign with a constant signature. -/
def constCrypto : Crypto Unit := ⟨fun _ _ => .ok (List.replicate 65 1), fun _ _ _ => true, fun _ => List.replicate 33 2⟩

/-- A record with one value of 300 bytes. -/
def bigRecord : Record := Record.empty.Set ⟨"x".toUTF8.toList, .str (List.replicate 300 7)⟩

theorem Sign_errTooBig_bigRecord :
    (bigRecord.Sign constCrypto ()).2 = some .errTooBig ∧
      (bigRecord.Sign constCrypto ()).1.Signed = true ∧
      (bigRecord.Sign constCrypto ()).1.EncodeRLP = .ok (bigRecord.Sign constCrypto ()).1.raw ∧
      SizeLimit < (bigRecord.Sign constCrypto ()).1.raw.length :=
  have h : (bigRecord.Sign constCrypto ()).2 = some .errTooBig :=
    signAndEncode_tooBig constCrypto _ () _ rfl (by decide +kernel)
  ⟨h, Sign_errTooBig_signed constCrypto bigRecord () h⟩

end Lemochain.Enr
