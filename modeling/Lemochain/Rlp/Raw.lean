import Mathlib.Data.List.Induction
import Lemochain.Rlp.Encode

/-!
# Splitting RLP input (`rlp/raw.go`)

The trie decodes nodes with the raw API of the RLP package: `Split` reads
the header of the first value of the input and returns its kind, its content
and what follows it; `SplitString` and `SplitList` also require a kind, and
`CountValues` counts the values of a list's content. `readKind` reads a
header and rejects the non-canonical forms the encoder never writes: a
single byte below `0x80` written as a string, and a size with leading zero
bytes or below 56 written in the long form.

The round trip of this module: the header of `encode it` is read back as
what the encoder wrote (`readKind_encode`), so `Split` returns the item's
content and leaves the rest of the input alone (`split_encode`), and
`CountValues` counts the items of a list (`countValues_encodeList`). Both
hold for items whose sizes fit the source's `uint64` (`Sized`).
-/

namespace Lemochain.Rlp

/-- `Kind`: the kind of an RLP value. -/
inductive Kind where
  | byte
  | string
  | list
  deriving DecidableEq, Repr

/-- The errors of the raw API; `unexpectedEOF` is `io.ErrUnexpectedEOF`. -/
inductive RlpError where
  | unexpectedEOF
  | canonSize
  | valueTooLarge
  | expectedString
  | expectedList
  deriving DecidableEq, Repr

/-- Big-endian bytes read as a number: the `switch slen` of `readSize`. -/
def beValue (b : Bytes) : Nat := b.foldl (fun acc x => acc * 256 + x.toNat) 0

/-- `readSize`: a size of `slen` bytes at the start of `b`.

A size below 56 has no separate size field, and the first byte of a size is
never zero (`b[0]` is only read when `s ≥ 56`, so `b` is not empty there). -/
def readSize (b : Bytes) (slen : Nat) : Except RlpError Nat :=
  if slen > b.length then .error .unexpectedEOF
  else
    let s := beValue (b.take slen)
    if s < 56 ∨ b.head? = some 0 then .error .canonSize else .ok s

/-- `readKind`: the kind, header size and content size of the value at the
start of `buf`.

Reject strings that should have been single bytes. Reject values larger than
the input slice. -/
def readKind (buf : Bytes) : Except RlpError (Kind × Nat × Nat) :=
  match buf with
  | [] => .error .unexpectedEOF
  | b :: rest =>
      let head : Except RlpError (Kind × Nat × Nat) :=
        if b < 0x80 then .ok (.byte, 0, 1)
        else if b < 0xB8 then
          if (b - 0x80).toNat = 1 ∧ rest.head?.any (fun x => x < 128) then .error .canonSize
          else .ok (.string, 1, (b - 0x80).toNat)
        else if b < 0xC0 then
          (readSize rest (b - 0xB7).toNat).map fun s => (.string, (b - 0xB7).toNat + 1, s)
        else if b < 0xF8 then .ok (.list, 1, (b - 0xC0).toNat)
        else (readSize rest (b - 0xF7).toNat).map fun s => (.list, (b - 0xF7).toNat + 1, s)
      match head with
      | .error e => .error e
      | .ok (k, tagsize, contentsize) =>
          if contentsize > buf.length - tagsize then .error .valueTooLarge
          else .ok (k, tagsize, contentsize)

/-- `Split`: the kind and content of the first value and the input after
it. -/
def Split (b : Bytes) : Except RlpError (Kind × Bytes × Bytes) :=
  match readKind b with
  | .error e => .error e
  | .ok (k, ts, cs) => .ok (k, (b.drop ts).take cs, b.drop (ts + cs))

/-- `SplitString`: `Split` of a byte or a string. -/
def SplitString (b : Bytes) : Except RlpError (Bytes × Bytes) :=
  match Split b with
  | .error e => .error e
  | .ok (k, content, rest) => if k = .list then .error .expectedString else .ok (content, rest)

/-- `SplitList`: `Split` of a list. -/
def SplitList (b : Bytes) : Except RlpError (Bytes × Bytes) :=
  match Split b with
  | .error e => .error e
  | .ok (k, content, rest) => if k ≠ .list then .error .expectedList else .ok (content, rest)

/-- `CountValues`: the number of values in `b`. The loop of the source reads
one header per round and skips the value; every value takes at least one
byte, so `b.length` rounds are enough and the fuel never runs out. -/
def CountValues (b : Bytes) : Except RlpError Nat := go b.length b 0
where
  go : Nat → Bytes → Nat → Except RlpError Nat
    | _, [], i => .ok i
    | 0, _ :: _, i => .ok i
    | fuel + 1, b@(_ :: _), i =>
        match readKind b with
        | .error e => .error e
        | .ok (_, tagsize, size) => go fuel (b.drop (tagsize + size)) (i + 1)

/-! ## Items as the decoder sees them -/

namespace Item

/-- The kind `readKind` reports for an item. -/
def kind : Item → Kind
  | .str [x] => if x ≤ 0x7F then .byte else .string
  | .str _ => .string
  | .list _ => .list

/-- The header the encoder writes before an item's content. -/
def header : Item → Bytes
  | .str [x] => if x ≤ 0x7F then [] else encodeStringHeader 1
  | .str b => encodeStringHeader b.length
  | .list items => puthead 0xC0 0xF7 (encodeList items).length

/-- The content `Split` returns for an item. -/
def payload : Item → Bytes
  | .str b => b
  | .list items => encodeList items

@[simp] theorem payload_str (b : Bytes) : (Item.str b).payload = b := rfl

@[simp] theorem payload_list (items : List Item) : (Item.list items).payload = encodeList items := rfl

end Item

theorem encode_eq_header_payload (it : Item) : encode it = it.header ++ it.payload := by
  match it with
  | .str [x] =>
      simp only [encode_str, encodeString, Item.header, Item.payload]
      split <;> simp
  | .str [] => simp [encodeString, Item.header, Item.payload]
  | .str (x :: y :: b) => simp [encodeString, Item.header, Item.payload]
  | .list items => simp [Item.header, Item.payload]

/-- Every size in an item fits the `uint64` of the source's size fields. -/
inductive Sized : Item → Prop
  | str {b : Bytes} : b.length < 2 ^ 64 → Sized (.str b)
  | list {items : List Item} : (encodeList items).length < 2 ^ 64 → (∀ it ∈ items, Sized it) →
      Sized (.list items)

theorem Sized.payload_lt {it : Item} (h : Sized it) : it.payload.length < 2 ^ 64 := by
  cases h with
  | str hb => exact hb
  | list hl _ => exact hl

theorem payload_length_le (it : Item) : it.payload.length ≤ (encode it).length := by
  rw [encode_eq_header_payload, List.length_append]
  omega

theorem encode_length_le_encodeList {it : Item} {items : List Item} (h : it ∈ items) :
    (encode it).length ≤ (encodeList items).length := by
  induction items with
  | nil => cases h
  | cons x xs ih =>
      rw [encodeList_cons, List.length_append]
      rcases List.mem_cons.1 h with rfl | hmem
      · omega
      · have := ih hmem
        omega

/-- An item whose encoding is shorter than `2 ^ 64` bytes has all its sizes
below `2 ^ 64`, since each of them counts bytes of the encoding. -/
theorem Sized.of_encode_length : (it : Item) → (encode it).length < 2 ^ 64 → Sized it
  | .str b, h => .str (Nat.lt_of_le_of_lt (payload_length_le (.str b)) h)
  | .list items, h =>
      have hpay : (encodeList items).length < 2 ^ 64 :=
        Nat.lt_of_le_of_lt (payload_length_le (.list items)) h
      .list hpay fun x hx =>
        Sized.of_encode_length x (Nat.lt_of_le_of_lt (encode_length_le_encodeList hx) hpay)
termination_by it => sizeOf it
decreasing_by
  have := List.sizeOf_lt_of_mem hx
  simp only [Item.list.sizeOf_spec]
  omega

/-! ## Big-endian sizes read back -/

theorem beValue_foldl (acc : Nat) (b : Bytes) :
    b.foldl (fun acc x => acc * 256 + x.toNat) acc = acc * 256 ^ b.length + beValue b := by
  induction b generalizing acc with
  | nil => simp [beValue]
  | cons x b ih =>
      simp only [List.foldl_cons, beValue, List.length_cons]
      rw [ih, ih (0 * 256 + x.toNat), Nat.pow_succ]
      simp only [Nat.zero_mul, Nat.zero_add]
      rw [Nat.add_mul, Nat.mul_assoc, Nat.mul_comm 256, Nat.add_assoc]

theorem beValue_cons (x : UInt8) (b : Bytes) :
    beValue (x :: b) = x.toNat * 256 ^ b.length + beValue b := by
  rw [beValue, List.foldl_cons, beValue_foldl]
  simp

theorem beValue_lt (b : Bytes) : beValue b < 256 ^ b.length := by
  induction b with
  | nil => simp [beValue]
  | cons x b ih =>
      rw [beValue_cons, List.length_cons, Nat.pow_succ]
      have hx : x.toNat ≤ 255 := by have := x.toNat_lt; omega
      have : x.toNat * 256 ^ b.length ≤ 255 * 256 ^ b.length := Nat.mul_le_mul_right _ hx
      omega

theorem beValue_append (s t : Bytes) : beValue (s ++ t) = beValue s * 256 ^ t.length + beValue t := by
  rw [beValue, List.foldl_append, ← beValue, beValue_foldl]

/-- Bit `k` of a big-endian value is bit `k % 8` of the byte `k / 8` from
the end.

A bit of the lower bytes. A bit of the first byte. -/
theorem testBit_beValue (s : Bytes) {k : Nat} (hk : k < 8 * s.length) :
    (beValue s).testBit k = (s.getD (s.length - 1 - k / 8) 0).toNat.testBit (k % 8) := by
  induction s with
  | nil => simp at hk
  | cons x s ih =>
      have hlt : beValue s < 2 ^ (8 * s.length) := by
        rw [Nat.pow_mul]
        exact beValue_lt s
      rw [beValue_cons, show (256 : Nat) ^ s.length = 2 ^ (8 * s.length) by rw [Nat.pow_mul],
        Nat.mul_comm, Nat.testBit_two_pow_mul_add _ hlt]
      rw [List.length_cons] at hk ⊢
      split
      · next hks =>
          rw [ih hks, show s.length + 1 - 1 - k / 8 = (s.length - 1 - k / 8) + 1 by omega, List.getD_cons_succ]
      · next hks =>
          rw [show s.length + 1 - 1 - k / 8 = 0 by omega, List.getD_cons_zero,
            show k - 8 * s.length = k % 8 by omega]

/-- Leading bytes of a value below `256 ^ (s.length - k)` are zero. -/
theorem beValue_take_eq_zero {s : Bytes} {k : Nat} (h : beValue s < 256 ^ (s.length - k)) :
    beValue (s.take k) = 0 := by
  have hs := beValue_append (s.take k) (s.drop k)
  rw [List.take_append_drop, List.length_drop] at hs
  by_contra hne
  have : 256 ^ (s.length - k) ≤ beValue (s.take k) * 256 ^ (s.length - k) :=
    Nat.le_mul_of_pos_left _ (Nat.pos_of_ne_zero hne)
  omega

/-- The low byte below the higher ones: `i % 256 ^ (n + 1)`. -/
theorem beValue_bigEndian (n i : Nat) : beValue (bigEndian n i) = i % 256 ^ n := by
  induction n generalizing i with
  | zero => simp [bigEndian_nil, beValue, Nat.mod_one]
  | succ n ih =>
      have hbyte : ((i % 256).toUInt8).toNat = i % 256 := by
        simp only [Nat.toUInt8_eq, UInt8.toNat_ofNat']
        omega
      rw [bigEndian_succ, beValue, List.foldl_append, ← beValue, ih]
      simp only [List.foldl_cons, List.foldl_nil, hbyte]
      rw [Nat.pow_succ', Nat.mod_mul]
      omega

/-- Bytes read as a number and written back at their own length.

Peel the last byte: it is the value modulo 256. -/
theorem bigEndian_beValue (s : Bytes) : bigEndian s.length (beValue s) = s := by
  induction s using List.reverseRecOn with
  | nil => rfl
  | append_singleton t x ih =>
      have hx : x.toNat < 256 := x.toNat_lt
      have hv : beValue (t ++ [x]) = 256 * beValue t + x.toNat := by
        rw [beValue_append, List.length_singleton, Nat.pow_one, Nat.mul_comm]
        simp [beValue]
      rw [List.length_append, List.length_singleton, bigEndian_succ, hv, Nat.mul_add_div (by decide),
        Nat.div_eq_of_lt hx, Nat.add_zero, ih, Nat.mul_add_mod, Nat.mod_eq_of_lt hx]
      simp

theorem beValue_putint (i : Nat) : beValue (putint i) = i := by
  rw [putint, beValue_bigEndian, Nat.mod_eq_of_lt (lt_pow_intsize i)]

/-- A size written by `putint` has no leading zero byte. -/
theorem putint_head_ne_zero {i : Nat} (hi : 1 ≤ i) : (putint i).head? ≠ some 0 := by
  intro h
  obtain ⟨b, hb⟩ : ∃ b, putint i = 0 :: b := by
    cases hp : putint i with
    | nil => simp [hp] at h
    | cons x b => simp only [hp, List.head?_cons, Option.some.injEq] at h; exact ⟨b, h ▸ rfl⟩
  have hval : i = beValue b := by rw [← beValue_putint i, hb, beValue_cons]; simp
  have hlen : b.length = intsize i - 1 := by
    have := putint_length i
    rw [hb, List.length_cons] at this
    omega
  have hlt := beValue_lt b
  have hle := pow_intsize_le i
  rw [← hval, hlen] at hlt
  omega

theorem readSize_putint {i : Nat} (h56 : 56 ≤ i) (rest : Bytes) :
    readSize (putint i ++ rest) (intsize i) = .ok i := by
  have hlen : (putint i).length = intsize i := putint_length i
  have htake : (putint i ++ rest).take (intsize i) = putint i := by
    rw [← hlen, List.take_left]
  have hhead : (putint i ++ rest).head? ≠ some 0 := by
    cases hp : putint i with
    | nil => simp [hp] at hlen; have := intsize_pos i; omega
    | cons x b =>
        have : (putint i).head? ≠ some 0 := putint_head_ne_zero (by omega)
        rw [hp] at this
        simpa using this
  unfold readSize
  rw [if_neg (by simp only [List.length_append, hlen]; omega)]
  simp only [htake, beValue_putint]
  rw [if_neg (fun h => h.elim (fun h => by omega) hhead)]

/-! ## Headers read back -/

theorem toNat_tag_add (tag : UInt8) (n : Nat) (h : tag.toNat + n < 256) :
    (tag + n.toUInt8).toNat = tag.toNat + n := by
  simp only [UInt8.toNat_add, Nat.toUInt8_eq, UInt8.toNat_ofNat']
  omega

theorem toNat_tag_sub (b tag : UInt8) (h : tag.toNat ≤ b.toNat) : (b - tag).toNat = b.toNat - tag.toNat := by
  rw [UInt8.toNat_sub_of_le]
  exact UInt8.le_iff_toNat_le.2 h

theorem tag_lt_iff {tag : UInt8} {n : Nat} (h : tag.toNat + n < 256) (c : UInt8) :
    tag + n.toUInt8 < c ↔ tag.toNat + n < c.toNat := by
  rw [UInt8.lt_iff_toNat_lt, toNat_tag_add _ _ h]

theorem tag_sub {tag : UInt8} {n : Nat} (h : tag.toNat + n < 256) : (tag + n.toUInt8 - tag).toNat = n := by
  rw [toNat_tag_sub _ _ (by rw [toNat_tag_add _ _ h]; omega), toNat_tag_add _ _ h]
  omega

/-- The value check at the end of `readKind` passes for a content that is
there. -/
theorem readKind_fits {b : UInt8} {rest : Bytes} {k : Kind} {ts cs : Nat}
    (hcs : cs + ts ≤ rest.length + 1) :
    (if cs > (b :: rest).length - ts then (.error .valueTooLarge : Except RlpError (Kind × Nat × Nat))
      else .ok (k, ts, cs)) = .ok (k, ts, cs) := by
  rw [if_neg (by simp only [List.length_cons]; omega)]

/-- A short header: the tag plus the size. -/
theorem readKind_short (smalltag : UInt8) (n : Nat) (rest : Bytes) (hn : n < 56) (hlen : n ≤ rest.length) :
    (smalltag = 0x80 → (n = 1 → ∀ x, rest.head? = some x → 128 ≤ x.toNat) →
        readKind ((smalltag + n.toUInt8) :: rest) = .ok (.string, 1, n)) ∧
      (smalltag = 0xC0 → readKind ((smalltag + n.toUInt8) :: rest) = .ok (.list, 1, n)) := by
  constructor
  · rintro rfl hcanon
    have hb : (0x80 : UInt8).toNat + n < 256 := by simp; omega
    have hnc : ¬((0x80 + n.toUInt8 - 0x80 : UInt8).toNat = 1 ∧ rest.head?.any (fun x => x < 128)) := by
      rintro ⟨h1, h2⟩
      rw [tag_sub hb] at h1
      cases hr : rest.head? with
      | none => simp [hr] at h2
      | some x =>
          have := hcanon h1 x hr
          simp only [hr, Option.any_some, decide_eq_true_eq, UInt8.lt_iff_toNat_lt] at h2
          simp at h2
          omega
    simp only [readKind]
    rw [if_neg (by rw [tag_lt_iff hb]; simp only [UInt8.reduceToNat]; omega), if_pos (by rw [tag_lt_iff hb]; simp only [UInt8.reduceToNat]; omega), if_neg hnc,
      tag_sub hb]
    exact readKind_fits (by omega)
  · rintro rfl
    have hb : (0xC0 : UInt8).toNat + n < 256 := by simp; omega
    simp only [readKind]
    rw [if_neg (by rw [tag_lt_iff hb]; simp only [UInt8.reduceToNat]; omega), if_neg (by rw [tag_lt_iff hb]; simp only [UInt8.reduceToNat]; omega),
      if_neg (by rw [tag_lt_iff hb]; simp only [UInt8.reduceToNat]; omega), if_pos (by rw [tag_lt_iff hb]; simp only [UInt8.reduceToNat]; omega), tag_sub hb]
    exact readKind_fits (by omega)

/-- A long header: the tag plus the size's length, then the size. -/
theorem readKind_long (largetag : UInt8) (n : Nat) (rest : Bytes) (h56 : 56 ≤ n) (h64 : n < 2 ^ 64)
    (hlen : n ≤ rest.length) :
    (largetag = 0xB7 → readKind ((largetag + (intsize n).toUInt8) :: (putint n ++ rest)) =
        .ok (.string, intsize n + 1, n)) ∧
      (largetag = 0xF7 → readKind ((largetag + (intsize n).toUInt8) :: (putint n ++ rest)) =
        .ok (.list, intsize n + 1, n)) := by
  have h8 := intsize_le_eight h64
  have h1 := intsize_pos n
  have hsize := readSize_putint h56 rest
  have hfit : n + (intsize n + 1) ≤ (putint n ++ rest).length + 1 := by
    simp only [List.length_append, putint_length]; omega
  constructor
  · rintro rfl
    have hb : (0xB7 : UInt8).toNat + intsize n < 256 := by simp; omega
    simp only [readKind]
    rw [if_neg (by rw [tag_lt_iff hb]; simp only [UInt8.reduceToNat]; omega), if_neg (by rw [tag_lt_iff hb]; simp only [UInt8.reduceToNat]; omega),
      if_pos (by rw [tag_lt_iff hb]; simp only [UInt8.reduceToNat]; omega), tag_sub hb, hsize]
    exact readKind_fits hfit
  · rintro rfl
    have hb : (0xF7 : UInt8).toNat + intsize n < 256 := by simp; omega
    simp only [readKind]
    rw [if_neg (by rw [tag_lt_iff hb]; simp only [UInt8.reduceToNat]; omega), if_neg (by rw [tag_lt_iff hb]; simp only [UInt8.reduceToNat]; omega),
      if_neg (by rw [tag_lt_iff hb]; simp only [UInt8.reduceToNat]; omega), if_neg (by rw [tag_lt_iff hb]; simp only [UInt8.reduceToNat]; omega),
      tag_sub hb, hsize]
    exact readKind_fits hfit

/-- `puthead` read back: the kind of the tags, the header's length and the
size. -/
theorem readKind_puthead {smalltag largetag : UInt8} {k : Kind}
    (htags : (smalltag = 0x80 ∧ largetag = 0xB7 ∧ k = .string) ∨
      (smalltag = 0xC0 ∧ largetag = 0xF7 ∧ k = .list))
    (n : Nat) (rest : Bytes) (h64 : n < 2 ^ 64) (hlen : n ≤ rest.length)
    (hcanon : k = .string → n = 1 → ∀ x, rest.head? = some x → 128 ≤ x.toNat) :
    readKind (puthead smalltag largetag n ++ rest) = .ok (k, (puthead smalltag largetag n).length, n) := by
  unfold puthead
  split
  · rename_i hn
    have h := readKind_short smalltag n rest hn hlen
    rcases htags with ⟨hs, -, rfl⟩ | ⟨hs, -, rfl⟩
    · exact h.1 hs (hcanon rfl)
    · exact h.2 hs
  · rename_i hn
    have h := readKind_long largetag n rest (by omega) h64 hlen
    simp only [putint_length, List.cons_append, List.length_cons]
    rcases htags with ⟨-, hl, rfl⟩ | ⟨-, hl, rfl⟩
    · exact h.1 hl
    · exact h.2 hl

/-- The header of an encoded item is read back as the encoder wrote it. -/
theorem readKind_encode {it : Item} (h : Sized it) (rest : Bytes) :
    readKind (encode it ++ rest) = .ok (it.kind, it.header.length, it.payload.length) := by
  rw [encode_eq_header_payload, List.append_assoc]
  have h64 := h.payload_lt
  match it with
  | .str [x] =>
      by_cases hx : x ≤ 0x7F
      · have hx' : x < 0x80 := by
          rw [UInt8.lt_iff_toNat_lt]; rw [UInt8.le_iff_toNat_le] at hx; simp at hx ⊢; omega
        simp only [Item.header, Item.kind, Item.payload, if_pos hx, List.nil_append,
          List.singleton_append, List.length_nil, List.length_singleton]
        simp only [readKind, if_pos hx']
        rw [if_neg (by simp)]
      · simp only [Item.header, Item.kind, Item.payload, if_neg hx, List.length_singleton]
        refine readKind_puthead (.inl ⟨rfl, rfl, rfl⟩) 1 _ (by omega) (by simp) ?_
        intro _ _ y hy
        simp only [List.singleton_append, List.head?_cons, Option.some.injEq] at hy
        subst hy
        rw [UInt8.le_iff_toNat_le] at hx
        simp at hx
        omega
  | .str [] =>
      exact readKind_puthead (.inl ⟨rfl, rfl, rfl⟩) 0 _ (by simp) (by simp) (by simp)
  | .str (x :: y :: b) =>
      exact readKind_puthead (.inl ⟨rfl, rfl, rfl⟩) _ _ h64 (by simp [Item.payload])
        (by simp [Item.payload])
  | .list items =>
      exact readKind_puthead (.inr ⟨rfl, rfl, rfl⟩) _ _ h64 (by simp [Item.payload])
        (fun h => nomatch h)

/-- `Split` of an encoded item: its kind and content, and the rest of the
input. -/
theorem split_encode {it : Item} (h : Sized it) (rest : Bytes) :
    Split (encode it ++ rest) = .ok (it.kind, it.payload, rest) := by
  rw [Split, readKind_encode h rest]
  dsimp only
  rw [encode_eq_header_payload, List.append_assoc, List.drop_left, List.take_left, ← List.drop_drop,
    List.drop_left, List.drop_left]

theorem Item.kind_eq_list_iff (it : Item) : it.kind = .list ↔ ∃ items, it = .list items := by
  match it with
  | .str [x] => simp only [Item.kind]; split <;> simp
  | .str [] => simp [Item.kind]
  | .str (x :: y :: b) => simp [Item.kind]
  | .list items => simp [Item.kind]

theorem splitString_encode {b : Bytes} (h : b.length < 2 ^ 64) (rest : Bytes) :
    SplitString (encode (.str b) ++ rest) = .ok (b, rest) := by
  rw [SplitString, split_encode (.str h)]
  simp only [Item.payload]
  rw [if_neg (fun hk => by obtain ⟨_, h⟩ := (Item.kind_eq_list_iff _).1 hk; cases h)]

theorem splitList_encode {items : List Item} (h : Sized (.list items)) (rest : Bytes) :
    SplitList (encode (.list items) ++ rest) = .ok (encodeList items, rest) := by
  rw [SplitList, split_encode h]
  simp [Item.kind, Item.payload]

theorem puthead_length_pos (smalltag largetag : UInt8) (size : Nat) :
    0 < (puthead smalltag largetag size).length := by
  unfold puthead
  split <;> simp

/-- Every value takes at least one byte. -/
theorem encode_length_pos (it : Item) : 0 < (encode it).length := by
  rw [encode_eq_header_payload, List.length_append]
  match it with
  | .str [x] =>
      simp only [Item.header, Item.payload, List.length_singleton]
      omega
  | .str [] => simpa [Item.header, encodeStringHeader] using puthead_length_pos 0x80 0xB7 0
  | .str (x :: y :: b) => simp only [Item.payload_str, List.length_cons]; omega
  | .list items =>
      have := puthead_length_pos 0xC0 0xF7 (encodeList items).length
      simp only [Item.header]
      omega

/-- The loop of `CountValues` over encoded items: one round per item. -/
theorem countValues_go {items : List Item} (h : ∀ it ∈ items, Sized it) (fuel i : Nat)
    (hfuel : (encodeList items).length ≤ fuel) :
    CountValues.go fuel (encodeList items) i = .ok (i + items.length) := by
  induction items generalizing fuel i with
  | nil => cases fuel <;> simp [CountValues.go]
  | cons it items ih =>
      have hit := h it (by simp)
      have hpos := encode_length_pos it
      have hlen : (encode it).length = it.header.length + it.payload.length := by
        rw [encode_eq_header_payload, List.length_append]
      simp only [encodeList_cons, List.length_append] at hfuel
      obtain ⟨fuel, rfl⟩ : ∃ f, fuel = f + 1 := ⟨fuel - 1, by omega⟩
      obtain ⟨x, xs, hxs⟩ : ∃ x xs, encodeList (it :: items) = x :: xs := by
        cases hc : encodeList (it :: items) with
        | nil =>
            have := congrArg List.length hc
            rw [encodeList_cons, List.length_append, List.length_nil] at this
            omega
        | cons x xs => exact ⟨x, xs, rfl⟩
      have hrest : (encodeList items).length ≤ fuel := by omega
      rw [hxs, CountValues.go, ← hxs, encodeList_cons, readKind_encode hit]
      dsimp only
      rw [← hlen, List.drop_left, ih (fun it' hm => h it' (by simp [hm])) fuel (i + 1) hrest,
        List.length_cons, Nat.add_assoc, Nat.add_comm 1]

/-- `CountValues` of a list's content is the number of its items. -/
theorem countValues_encodeList {items : List Item} (h : ∀ it ∈ items, Sized it) :
    CountValues (encodeList items) = .ok items.length := by
  rw [CountValues, countValues_go h _ 0 (Nat.le_refl _), Nat.zero_add]

/-! ## What a split leaves

The trie's decoder recurses on what `Split` returns: the rest of the input
is never longer than the input, and the content of a list is shorter than
the list's encoding, whose header takes at least one byte. -/

theorem map_eq_ok {α β ε : Type} {f : α → β} {x : Except ε α} {y : β} (h : x.map f = .ok y) :
    ∃ a, x = .ok a ∧ f a = y := by
  cases x with
  | error e => cases h
  | ok a => exact ⟨a, rfl, Except.ok.inj h⟩

/-- A list header is at least one byte.

The five header forms: only the two list forms report a list. -/
theorem readKind_list_tagsize {buf : Bytes} {ts cs : Nat} (h : readKind buf = .ok (.list, ts, cs)) :
    1 ≤ ts := by
  match buf with
  | [] => simp [readKind] at h
  | b :: rest =>
    simp only [readKind] at h
    split at h
    · simp at h
    · rename_i k ts' cs' hhead
      have : k = .list ∧ ts' = ts := by
        split_ifs at h
        cases h
        exact ⟨rfl, rfl⟩
      obtain ⟨rfl, rfl⟩ := this
      split_ifs at hhead
      · cases hhead
      · cases hhead
      · obtain ⟨s, -, hs⟩ := map_eq_ok hhead
        cases hs
      · cases hhead
        exact Nat.le_refl 1
      · obtain ⟨s, -, hs⟩ := map_eq_ok hhead
        cases hs
        omega

theorem split_rest_length_le {b content rest : Bytes} {k : Kind} (h : Split b = .ok (k, content, rest)) :
    rest.length ≤ b.length := by
  unfold Split at h
  split at h
  · cases h
  · cases h
    simp

theorem splitString_rest_length_le {b content rest : Bytes} (h : SplitString b = .ok (content, rest)) :
    rest.length ≤ b.length := by
  unfold SplitString at h
  split at h
  · cases h
  · rename_i k c r hs
    split_ifs at h
    cases h
    exact split_rest_length_le hs

theorem splitList_content_length_lt {b content rest : Bytes} (h : SplitList b = .ok (content, rest)) :
    content.length < b.length := by
  unfold SplitList Split at h
  split at h
  · cases h
  · rename_i k c r hs
    split_ifs at h with hk
    cases h
    split at hs
    · cases hs
    · rename_i k' ts cs hkind
      cases hs
      have hts := readKind_list_tagsize (hkind.trans (by rw [not_not.1 hk]))
      have hne : b ≠ [] := by
        rintro rfl
        simp [readKind] at hkind
      have := List.length_pos_iff.2 hne
      simp only [List.length_take, List.length_drop]
      omega

end Lemochain.Rlp
