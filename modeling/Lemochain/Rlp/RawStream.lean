import Lemochain.Rlp.Decode

/-!
# Splitting and streaming agree (`rlp/raw.go`, `rlp/decode.go`)

`raw.go` reads the header of a value with its own `readKind` and
`readSize`, while the decoder's `Stream` reads it with `Stream.readKind` and
`readUint`; `Stream.Raw` then reads the content and writes a header in
front of it with `puthead`. Both reject a size written in the long form
below 56 or with a leading zero byte, and a value longer than the input.
`headerOf` is the header grammar they share: the kind of the value, the
length of its header and the length of its content.

The two readers differ in one form: a string of one byte below `0x80`,
written `0x81 x`, which `readKind` of `raw.go` rejects as non-canonical and
the stream reads (`readKind_toOption`, `Raw_ofBytes`). On every other input
`Split` succeeds exactly when a stream over the input reads a value with
`Raw`, and `Raw` returns the bytes `Split` consumed, the content behind a
header that `puthead` writes again as it was (`Split_Raw`).

## Main results

* `readKind_toOption`: `readKind` is the header grammar without the
  one-byte strings below `0x80`.
* `Kind_ofBytes`, `Raw_ofBytes`: the stream reads the header grammar, and
  `Raw` returns the value's bytes.
* `Split_Raw`: the agreement of `Split` and `Stream.Raw`, and `CountValues`
  of a sequence of encodings.
-/

namespace Lemochain.Rlp

/-! ## The header grammar -/

/-- The five forms of a header after its first byte `b`: the kind, the
length of the header and the length of the content. A size in the long
form is read by `readSize`, which rejects one below 56 or with a leading
zero byte. -/
def headOf (b : UInt8) (rest : Bytes) : Option (Kind × Nat × Nat) :=
  if b < 0x80 then some (.byte, 0, 1)
  else if b < 0xB8 then some (.string, 1, (b - 0x80).toNat)
  else if b < 0xC0 then (readSize rest (b - 0xB7).toNat).toOption.map fun s => (.string, (b - 0xB7).toNat + 1, s)
  else if b < 0xF8 then some (.list, 1, (b - 0xC0).toNat)
  else (readSize rest (b - 0xF7).toNat).toOption.map fun s => (.list, (b - 0xF7).toNat + 1, s)

/-- The header at the start of `buf`, with its content inside `buf`. -/
def headerOf : Bytes → Option (Kind × Nat × Nat)
  | [] => none
  | b :: rest => (headOf b rest).bind fun (k, ts, cs) => if cs > rest.length + 1 - ts then none else some (k, ts, cs)

/-- The input starts with a string of one byte below `0x80` behind a
header. -/
def singleByteString : Bytes → Bool
  | b :: x :: _ => b == 0x81 && x < 128
  | _ => false

theorem toOption_fits (k : Kind) (ts cs n : Nat) :
    (if cs > n - ts then (.error .valueTooLarge : Except RlpError (Kind × Nat × Nat)) else .ok (k, ts, cs)).toOption =
      if cs > n - ts then none else some (k, ts, cs) := by
  split <;> rfl

theorem sub_80_eq_one_iff {b : UInt8} (h : ¬ b < 0x80) : (b - 0x80).toNat = 1 ↔ b = 0x81 := by
  rw [UInt8.lt_iff_toNat_lt] at h
  rw [toNat_tag_sub _ _ (by simp at h ⊢; omega), ← UInt8.toNat_inj]
  simp
  omega

/-- `readKind` of `raw.go` reads the header grammar, and rejects the
one-byte strings below `0x80`.

The five forms of the first byte. -/
theorem readKind_toOption (buf : Bytes) :
    (readKind buf).toOption = if singleByteString buf then none else headerOf buf := by
  match buf with
  | [] => rfl
  | b :: rest =>
    have hsingle : singleByteString (b :: rest) = (b == 0x81 && rest.head?.any (fun x => x < 128)) := by
      cases rest <;> simp [singleByteString]
    rw [hsingle]
    simp only [readKind, headerOf, headOf, List.length_cons]
    by_cases h1 : b < 0x80
    · have hne : (b == 0x81) = false := by simp; rintro rfl; simp at h1
      simp only [if_pos h1, hne, Bool.false_and]
      exact toOption_fits _ _ _ _
    · by_cases h2 : b < 0xB8
      · simp only [if_neg h1, if_pos h2, sub_80_eq_one_iff h1]
        by_cases hc : b = 0x81 ∧ rest.head?.any (fun x => x < 128) = true
        · rw [if_pos hc, if_pos (by simp [hc.1, hc.2])]
          rfl
        · rw [if_neg hc, if_neg (by simpa using hc)]
          exact toOption_fits _ _ _ _
      · have hne : (b == 0x81) = false := by simp; rintro rfl; simp at h2
        simp only [if_neg h1, if_neg h2, hne, Bool.false_and]
        by_cases h3 : b < 0xC0
        · simp only [if_pos h3]
          cases readSize rest (b - 0xB7).toNat with
          | error e => rfl
          | ok s => exact toOption_fits _ _ _ _
        · by_cases h4 : b < 0xF8
          · simp only [if_neg h3, if_pos h4]
            exact toOption_fits _ _ _ _
          · simp only [if_neg h3, if_neg h4]
            cases readSize rest (b - 0xF7).toNat with
            | error e => rfl
            | ok s => exact toOption_fits _ _ _ _

/-! ## A stream at the top level -/

theorem throw_eq_error {α : Type} (e : StreamError) : (throw e : Except StreamError α) = .error e := rfl

/-- A stream over `r` outside any list, limited to `r`. -/
def topStream (r : Bytes) (kind : Option Kind) (size : Nat) (byteval : UInt8) : Stream :=
  ⟨r, r.length, true, kind, size, byteval, []⟩

@[simp] theorem topStream_kind (r : Bytes) (kind : Option Kind) (size : Nat) (byteval : UInt8) :
    (topStream r kind size byteval).kind = kind := rfl

@[simp] theorem topStream_stack (r : Bytes) (kind : Option Kind) (size : Nat) (byteval : UInt8) :
    (topStream r kind size byteval).stack = [] := rfl

@[simp] theorem topStream_remaining (r : Bytes) (kind : Option Kind) (size : Nat) (byteval : UInt8) :
    (topStream r kind size byteval).remaining = r.length := rfl

@[simp] theorem topStream_limited (r : Bytes) (kind : Option Kind) (size : Nat) (byteval : UInt8) :
    (topStream r kind size byteval).limited = true := rfl

@[simp] theorem topStream_r (r : Bytes) (kind : Option Kind) (size : Nat) (byteval : UInt8) :
    (topStream r kind size byteval).r = r := rfl

@[simp] theorem topStream_size (r : Bytes) (kind : Option Kind) (size : Nat) (byteval : UInt8) :
    (topStream r kind size byteval).size = size := rfl

@[simp] theorem topStream_byteval (r : Bytes) (kind : Option Kind) (size : Nat) (byteval : UInt8) :
    (topStream r kind size byteval).byteval = byteval := rfl

theorem readByte_top_cons (x : UInt8) (r : Bytes) (kind : Option Kind) (size : Nat) (byteval : UInt8) :
    (topStream (x :: r) kind size byteval).readByte = .ok (x, topStream r none size byteval) := by
  simp [Stream.readByte, Stream.willRead, topStream, pure, Except.pure, bind, Except.bind]

theorem readByte_top_nil (kind : Option Kind) (size : Nat) (byteval : UInt8) :
    (topStream [] kind size byteval).readByte = .error .valueTooLarge := by
  simp [Stream.readByte, Stream.willRead, topStream, pure, Except.pure, bind, Except.bind, throw_eq_error]

theorem readFull_top (r : Bytes) (kind : Option Kind) (size : Nat) (byteval : UInt8) (n : Nat) :
    (topStream r kind size byteval).readFull n =
      if n > r.length then .error .valueTooLarge else .ok (r.take n, topStream (r.drop n) none size byteval) := by
  by_cases h : n > r.length
  · simp [Stream.readFull, Stream.willRead, topStream, pure, Except.pure, bind, Except.bind, h, throw_eq_error]
  · simp [Stream.readFull, Stream.willRead, topStream, pure, Except.pure, bind, Except.bind, h]

/-- One byte, read by `readByte`. Two bytes or more, the first not zero. -/
theorem readUint_top (r : Bytes) (size : Nat) (byteval : UInt8) {n : Nat} (hn : 1 ≤ n) :
    ((topStream r none size byteval).readUint n).toOption =
      if n ≤ r.length ∧ (n = 1 ∨ r.head? ≠ some 0) then some (beValue (r.take n), topStream (r.drop n) none size byteval)
      else none := by
  obtain ⟨m, rfl⟩ : ∃ m, n = m + 1 := ⟨n - 1, by omega⟩
  cases m with
  | zero =>
      cases r with
      | nil => simp [Stream.readUint, readByte_top_nil, Except.map, Except.toOption]
      | cons y r => simp [Stream.readUint, readByte_top_cons, Except.map, Except.toOption, beValue]
  | succ m =>
      rw [readUint_long _ (by omega), readFull_top]
      by_cases hlen : m + 1 + 1 > r.length
      · simp [hlen, bind, Except.bind, Except.toOption]
        omega
      · rw [if_neg hlen]
        simp only [bind, Except.bind, List.head?_take]
        by_cases h0 : r.head? = some 0
        · simp [h0, throw_eq_error, Except.toOption]
        · simp [h0, pure, Except.pure, Except.toOption]
          omega

theorem eq_ok_of_toOption {ε α : Type} {x : Except ε α} {a : α} (h : x.toOption = some a) : x = .ok a := by
  cases x with
  | error e => cases h
  | ok v => cases h; rfl

theorem eq_error_of_toOption {ε α : Type} {x : Except ε α} (h : x.toOption = none) : ∃ e, x = .error e := by
  cases x with
  | error e => exact ⟨e, rfl⟩
  | ok v => cases h

/-- A size that starts with zero: one byte of it is below 56. -/
theorem readSize_toOption (r : Bytes) (n : Nat) :
    (readSize r n).toOption =
      if n ≤ r.length ∧ (n = 1 ∨ r.head? ≠ some 0) ∧ 56 ≤ beValue (r.take n) then some (beValue (r.take n))
      else none := by
  unfold readSize
  by_cases hlen : n > r.length
  · rw [if_pos hlen, if_neg (fun h => absurd h.1 (Nat.not_le.mpr hlen))]
    rfl
  rw [if_neg hlen]
  by_cases h0 : r.head? = some 0
  · simp only [h0, or_true, if_true, ne_eq, not_true_eq_false, or_false, Except.toOption]
    cases r with
    | nil => cases h0
    | cons y t =>
        obtain rfl : y = 0 := by simpa using h0
        split_ifs with h
        · rw [h.2.1] at h
          simp [beValue] at h
        · rfl
  · by_cases h56 : beValue (r.take n) < 56
    · simp [h0, h56, Except.toOption]
    · simp [h0, h56, Except.toOption]
      omega

/-- The long form of a header after its first byte: the size of `n` bytes,
at least 56. -/
theorem longHead_top (k : Kind) (rest : Bytes) {n : Nat} (hn : 1 ≤ n) :
    ((topStream rest none 0 0).readUint n >>= fun p =>
        if p.1 < 56 then throw StreamError.canonSize else pure (k, p.1, p.2)).toOption =
      (readSize rest n).toOption.map fun v => (k, v, topStream (rest.drop n) none 0 0) := by
  rw [readSize_toOption rest n]
  by_cases hC : n ≤ rest.length ∧ (n = 1 ∨ rest.head? ≠ some 0)
  · rw [eq_ok_of_toOption ((readUint_top rest 0 0 hn).trans (if_pos hC))]
    by_cases h56 : beValue (rest.take n) < 56
    · simp [h56, hC, bind, Except.bind, throw_eq_error, Except.toOption]
    · simp [h56, hC, bind, Except.bind, pure, Except.pure, Except.toOption]
  · obtain ⟨e, he⟩ := eq_error_of_toOption ((readUint_top rest 0 0 hn).trans (if_neg hC))
    rw [he]
    simp only [bind, Except.bind, Except.toOption]
    rw [if_neg (fun h => hC ⟨h.1, h.2.1⟩)]
    rfl

theorem one_le_toNat_sub {x c : UInt8} (h : ¬ x < c + 1) (hc : c.toNat < 255) : 1 ≤ (x - c).toNat := by
  have hcx : c.toNat < x.toNat := by
    simp only [UInt8.lt_iff_toNat_lt, UInt8.toNat_add, UInt8.reduceToNat] at h
    omega
  rw [UInt8.toNat_sub_of_le _ _ (UInt8.le_iff_toNat_le.mpr (Nat.le_of_lt hcx))]
  omega

/-- `readKind` clears the byte value it keeps. -/
theorem topStream_clear (r : Bytes) (kind : Option Kind) (size : Nat) (byteval byteval' : UInt8) :
    ({ topStream r kind size byteval with byteval := byteval' } : Stream) = topStream r kind size byteval' := rfl

/-- The stream reads the five forms of a header: a single byte is read
whole, and the stream reports the size of the content.

A long string: the size in the next bytes. A long list. -/
theorem readKind_top (x : UInt8) (rest : Bytes) :
    ((topStream (x :: rest) none 0 0).readKind).toOption =
      (headOf x rest).map fun (k, ts, cs) =>
        if k = .byte then (.byte, 0, topStream rest none 0 x) else (k, cs, topStream (rest.drop (ts - 1)) none 0 0) := by
  unfold Stream.readKind
  rw [readByte_top_cons]
  simp only [topStream_clear, headOf]
  by_cases h1 : x < 0x80
  · rw [if_pos h1, if_pos h1]; rfl
  rw [if_neg h1, if_neg h1]
  by_cases h2 : x < 0xB8
  · rw [if_pos h2, if_pos h2]; rfl
  rw [if_neg h2, if_neg h2]
  by_cases h3 : x < 0xC0
  · rw [if_pos h3, if_pos h3, longHead_top _ _ (one_le_toNat_sub h2 (by decide)), Option.map_map]
    rfl
  rw [if_neg h3, if_neg h3]
  by_cases h4 : x < 0xF8
  · rw [if_pos h4, if_pos h4]; rfl
  rw [if_neg h4, if_neg h4, longHead_top _ _ (one_le_toNat_sub h4 (by decide)), Option.map_map]
  rfl

/-- The five forms of a header, with the tests of the first byte that pick
each. -/
theorem headOf_cases {x : UInt8} {rest : Bytes} {k : Kind} {ts cs : Nat} (h : headOf x rest = some (k, ts, cs)) :
    (x < 0x80 ∧ k = .byte ∧ ts = 0 ∧ cs = 1) ∨
      (¬ x < 0x80 ∧ x < 0xB8 ∧ k = .string ∧ ts = 1 ∧ cs = (x - 0x80).toNat) ∨
      (¬ x < 0xB8 ∧ x < 0xC0 ∧ k = .string ∧ ts = (x - 0xB7).toNat + 1 ∧
        (readSize rest (x - 0xB7).toNat).toOption = some cs) ∨
      (¬ x < 0xC0 ∧ x < 0xF8 ∧ k = .list ∧ ts = 1 ∧ cs = (x - 0xC0).toNat) ∨
      (¬ x < 0xF8 ∧ k = .list ∧ ts = (x - 0xF7).toNat + 1 ∧ (readSize rest (x - 0xF7).toNat).toOption = some cs) := by
  unfold headOf at h
  split_ifs at h with h1 h2 h3 h4
  · cases h
    exact .inl ⟨h1, rfl, rfl, rfl⟩
  · cases h
    exact .inr (.inl ⟨h1, h2, rfl, rfl, rfl⟩)
  · obtain ⟨v, hv, heq⟩ := Option.map_eq_some_iff.mp h
    cases heq
    exact .inr (.inr (.inl ⟨h2, h3, rfl, rfl, hv⟩))
  · cases h
    exact .inr (.inr (.inr (.inl ⟨h3, h4, rfl, rfl, rfl⟩)))
  · obtain ⟨v, hv, heq⟩ := Option.map_eq_some_iff.mp h
    cases heq
    exact .inr (.inr (.inr (.inr ⟨h4, rfl, rfl, hv⟩)))

/-- A single byte has no header; every other value has one of at least a
byte. -/
theorem headOf_shape {x : UInt8} {rest : Bytes} {k : Kind} {ts cs : Nat} (h : headOf x rest = some (k, ts, cs)) :
    (k = .byte ∧ ts = 0 ∧ cs = 1) ∨ (k ≠ .byte ∧ 1 ≤ ts) := by
  rcases headOf_cases h with ⟨-, rfl, rfl, rfl⟩ | ⟨-, -, rfl, rfl, -⟩ | ⟨-, -, rfl, rfl, -⟩ | ⟨-, -, rfl, rfl, -⟩ |
    ⟨-, rfl, rfl, -⟩
  · exact .inl ⟨rfl, rfl, rfl⟩
  all_goals exact .inr ⟨by decide, by omega⟩

/-- The stream after `Kind` at the top level: the value fits in the input,
and the stream keeps its kind and size.

A single byte: nothing more to fit. The content must fit in the input after
the header. -/
theorem Kind_top (x : UInt8) (rest : Bytes) :
    ((topStream (x :: rest) none 0 0).Kind).toOption =
      (headerOf (x :: rest)).map fun (k, ts, cs) =>
        if k = .byte then (.byte, 0, topStream rest (some .byte) 0 x)
        else (k, cs, topStream (rest.drop (ts - 1)) (some k) cs 0) := by
  have hr := readKind_top x rest
  unfold Stream.Kind
  simp only [topStream_kind, topStream_stack, List.head?_nil, Option.any_none, Bool.false_eq_true, if_false,
    headerOf]
  cases hh : headOf x rest with
  | none =>
      rw [hh] at hr
      obtain ⟨e, he⟩ := eq_error_of_toOption hr
      rw [he]
      rfl
  | some t =>
      obtain ⟨k, ts, cs⟩ := t
      rw [hh, Option.map_some] at hr
      rw [eq_ok_of_toOption hr, Option.bind_some]
      rcases headOf_shape hh with ⟨rfl, rfl, rfl⟩ | ⟨hk, hts⟩
      · dsimp only
        rw [if_pos rfl]
        simp only [topStream_stack, topStream_limited, topStream_remaining, true_and]
        rw [if_neg (Nat.not_lt_zero _)]
        rfl
      · have hlen : (rest.drop (ts - 1)).length = rest.length + 1 - ts := by
          rw [List.length_drop]
          omega
        dsimp only
        simp only [if_neg hk, topStream_stack, topStream_limited, topStream_remaining, true_and]
        by_cases hfit : cs > rest.length + 1 - ts
        · rw [if_pos (hlen ▸ hfit), if_pos hfit]
          rfl
        · rw [if_neg (hlen ▸ hfit), if_neg hfit, Option.map_some, if_neg hk]
          rfl

/-! ## Headers written back

`Stream.Raw` does not copy the header it read: it writes one with
`puthead` for the size it read. The grammar admits one header for each
size, the one `puthead` writes, so the header comes back as it was. -/

/-- The header `Stream.Raw` writes in front of a value's content. -/
def rawHeader : Kind → Nat → Bytes
  | .byte, _ => []
  | .string, size => puthead 0x80 0xB7 size
  | .list, size => puthead 0xC0 0xF7 size

/-- A size without a leading zero byte is written back at its own length.

The leading byte puts the value between `256 ^ t.length` and `256 ^
(t.length + 1)`. -/
theorem intsize_beValue {s : Bytes} (hs : s.head? ≠ some 0) (hne : s ≠ []) : intsize (beValue s) = s.length := by
  obtain ⟨y, t, rfl⟩ := List.exists_cons_of_ne_nil hne
  have hy : 1 ≤ y.toNat := by
    have : y ≠ 0 := fun h => hs (by rw [h]; rfl)
    have : y.toNat ≠ 0 := fun h => this (UInt8.toNat_inj.mp h)
    omega
  have hlow : 256 ^ t.length ≤ beValue (y :: t) := by
    rw [beValue_cons]
    calc 256 ^ t.length = 1 * 256 ^ t.length := (Nat.one_mul _).symm
      _ ≤ y.toNat * 256 ^ t.length := Nat.mul_le_mul_right _ hy
      _ ≤ _ := Nat.le_add_right _ _
  have hhigh := beValue_lt (y :: t)
  have hsize_lt := lt_pow_intsize (beValue (y :: t))
  have hsize_le := pow_intsize_le (beValue (y :: t))
  rw [Nat.max_eq_left (Nat.le_trans (Nat.one_le_pow _ _ (by decide)) hlow)] at hsize_le
  have h1 : t.length < intsize (beValue (y :: t)) :=
    (Nat.pow_lt_pow_iff_right (by decide)).mp (Nat.lt_of_le_of_lt hlow hsize_lt)
  have h2 : intsize (beValue (y :: t)) - 1 < t.length + 1 :=
    (Nat.pow_lt_pow_iff_right (by decide)).mp (Nat.lt_of_le_of_lt hsize_le hhigh)
  rw [List.length_cons]
  omega

theorem sub_toNat_lt {x lo hi : UInt8} (hlo : ¬ x < lo) (hhi : x < hi) : (x - lo).toNat < hi.toNat - lo.toNat := by
  rw [UInt8.lt_iff_toNat_lt] at hlo hhi
  rw [toNat_tag_sub _ _ (by omega)]
  omega

/-- A short header is its tag plus the size. -/
theorem puthead_short (smalltag largetag x : UInt8) (h : (x - smalltag).toNat < 56) :
    puthead smalltag largetag (x - smalltag).toNat = [x] := by
  unfold puthead
  rw [if_pos h]
  simp only [Nat.toUInt8_eq, UInt8.ofNat_toNat]
  rw [UInt8.add_comm, UInt8.sub_add_cancel]

/-- What `readSize` accepts: `n` bytes with no leading zero, at least 56.

One byte of at least 56 is not zero. -/
theorem readSize_some {rest : Bytes} {n v : Nat} (hn : 1 ≤ n) (hv : (readSize rest n).toOption = some v) :
    v = beValue (rest.take n) ∧ (rest.take n).length = n ∧ (rest.take n).head? ≠ some 0 ∧ rest.take n ≠ [] ∧
      56 ≤ v := by
  rw [readSize_toOption] at hv
  split_ifs at hv with hc
  obtain ⟨hlen, hcanon, h56⟩ := hc
  obtain rfl := (Option.some.inj hv).symm
  have htake : (rest.take n).length = n := by rw [List.length_take]; omega
  have hne : rest.take n ≠ [] := fun h => by rw [h, List.length_nil] at htake; omega
  refine ⟨rfl, htake, ?_, hne, h56⟩
  rw [List.head?_take, if_neg (by omega)]
  rcases hcanon with rfl | h0
  · intro h
    obtain ⟨y, t, rfl⟩ := List.exists_cons_of_ne_nil (List.ne_nil_of_length_pos (by omega : 0 < rest.length))
    obtain rfl : y = 0 := by simpa using h
    simp [beValue] at h56
  · exact h0

/-- A long header is its tag plus the length of the size, then the size. -/
theorem take_long_header {x smalltag largetag : UInt8} {rest : Bytes} {v : Nat} (hn : 1 ≤ (x - largetag).toNat)
    (hv : (readSize rest (x - largetag).toNat).toOption = some v) :
    (x :: rest).take ((x - largetag).toNat + 1) = puthead smalltag largetag v := by
  obtain ⟨rfl, hlen, h0, hne, h56⟩ := readSize_some hn hv
  have hput : putint (beValue (rest.take (x - largetag).toNat)) = rest.take (x - largetag).toNat := by
    rw [putint, intsize_beValue h0 hne, bigEndian_beValue]
  unfold puthead
  rw [if_neg (by omega), hput, hlen, List.take_succ_cons]
  simp only [Nat.toUInt8_eq, UInt8.ofNat_toNat]
  rw [UInt8.add_comm, UInt8.sub_add_cancel]

/-- The header the grammar reads is the one `Stream.Raw` writes. -/
theorem headOf_take {x : UInt8} {rest : Bytes} {k : Kind} {ts cs : Nat} (h : headOf x rest = some (k, ts, cs)) :
    (x :: rest).take ts = rawHeader k cs := by
  rcases headOf_cases h with ⟨-, rfl, rfl, rfl⟩ | ⟨h1, h2, rfl, rfl, rfl⟩ | ⟨h2, -, rfl, rfl, hv⟩ |
    ⟨h3, h4, rfl, rfl, rfl⟩ | ⟨h4, rfl, rfl, hv⟩
  · rfl
  · exact (puthead_short _ _ x (by simpa using sub_toNat_lt h1 h2)).symm
  · exact take_long_header (one_le_toNat_sub h2 (by decide)) hv
  · exact (puthead_short _ _ x (by simpa using sub_toNat_lt h3 h4)).symm
  · exact take_long_header (one_le_toNat_sub h4 (by decide)) hv

/-- A long size is read from the input after the first byte. -/
theorem le_length_of_readSize {rest : Bytes} {n v : Nat} (hn : 1 ≤ n) (hv : (readSize rest n).toOption = some v) :
    n ≤ rest.length := by
  have := (readSize_some hn hv).2.1
  rw [List.length_take] at this
  omega

theorem headOf_ts_le {x : UInt8} {rest : Bytes} {k : Kind} {ts cs : Nat} (h : headOf x rest = some (k, ts, cs)) :
    ts ≤ rest.length + 1 := by
  rcases headOf_cases h with ⟨-, -, rfl, -⟩ | ⟨-, -, -, rfl, -⟩ | ⟨h2, -, -, rfl, hv⟩ | ⟨-, -, -, rfl, -⟩ |
    ⟨h4, -, rfl, hv⟩
  · omega
  · omega
  · have := le_length_of_readSize (one_le_toNat_sub h2 (by decide)) hv
    omega
  · omega
  · have := le_length_of_readSize (one_le_toNat_sub h4 (by decide)) hv
    omega

theorem headerOf_cons {x : UInt8} {rest : Bytes} {k : Kind} {ts cs : Nat}
    (h : headerOf (x :: rest) = some (k, ts, cs)) : headOf x rest = some (k, ts, cs) ∧ cs ≤ rest.length + 1 - ts := by
  simp only [headerOf, Option.bind_eq_some_iff] at h
  obtain ⟨⟨k', ts', cs'⟩, hh, hfit⟩ := h
  split_ifs at hfit with hgt
  cases hfit
  exact ⟨hh, Nat.le_of_not_lt hgt⟩

/-- A value the grammar reads is its header, then its content. -/
theorem headerOf_take {b : Bytes} {k : Kind} {ts cs : Nat} (h : headerOf b = some (k, ts, cs)) :
    ts + cs ≤ b.length ∧ b.take (ts + cs) = rawHeader k cs ++ (b.drop ts).take cs := by
  cases b with
  | nil => cases h
  | cons x rest =>
      obtain ⟨hh, hfit⟩ := headerOf_cons h
      have hts := headOf_ts_le hh
      refine ⟨by rw [List.length_cons]; omega, ?_⟩
      rw [List.take_add, headOf_take hh]

/-! ## `Stream.Raw` at the top level -/

/-- `Raw` over the bytes of a value: the header `puthead` writes and the
content, and the stream after the value.

A string or a list: the content is read whole. -/
theorem Raw_top (x : UInt8) (rest : Bytes) :
    ((topStream (x :: rest) none 0 0).Raw).toOption.map (fun p => (p.1, p.2.r)) =
      (headerOf (x :: rest)).map fun (k, ts, cs) =>
        (rawHeader k cs ++ ((x :: rest).drop ts).take cs, (x :: rest).drop (ts + cs)) := by
  have hK := Kind_top x rest
  unfold Stream.Raw
  cases hh : headerOf (x :: rest) with
  | none =>
      rw [hh] at hK
      obtain ⟨e, he⟩ := eq_error_of_toOption hK
      rw [he]
      rfl
  | some t =>
      obtain ⟨k, ts, cs⟩ := t
      rw [hh, Option.map_some] at hK
      rw [eq_ok_of_toOption hK]
      obtain ⟨hhead, hfit⟩ := headerOf_cons hh
      rcases headOf_shape hhead with ⟨rfl, rfl, rfl⟩ | ⟨hk, hts⟩
      · rfl
      · obtain ⟨m, rfl⟩ : ∃ m, ts = m + 1 := ⟨ts - 1, by omega⟩
        have hcs : ¬ rest.length - m < cs := by omega
        have hdrop : (x :: rest).drop (m + 1 + cs) = rest.drop (m + cs) := by
          rw [Nat.add_right_comm, List.drop_succ_cons]
        dsimp only
        rw [if_neg hk]
        cases k with
        | byte => exact absurd rfl hk
        | string => simp [bind, Except.bind, readFull_top, hcs, hdrop, pure, Except.pure, Except.toOption, rawHeader]
        | list => simp [bind, Except.bind, readFull_top, hcs, hdrop, pure, Except.pure, Except.toOption, rawHeader]

theorem Raw_ofBytes (b : Bytes) :
    ((Stream.ofBytes b).Raw).toOption.map (fun p => (p.1, p.2.r)) =
      (headerOf b).map fun (k, ts, cs) => (rawHeader k cs ++ (b.drop ts).take cs, b.drop (ts + cs)) := by
  cases b with
  | nil => rfl
  | cons x rest => exact Raw_top x rest

/-- `Kind` keeps what it read: a second call returns it again.

A header read afresh: every success stores its kind and size. -/
theorem Kind_cached {s s' : Stream} {k : Kind} {size : Nat} (h : s.Kind = .ok (k, size, s')) :
    s'.Kind = .ok (k, size, s') := by
  have hcache : ∀ t : Stream, t.kind = some k → t.size = size → t.Kind = .ok (k, size, t) := by
    intro t hk hs
    subst hs
    unfold Stream.Kind
    rw [hk]
  unfold Stream.Kind at h
  split at h
  · rename_i k0 hk0
    cases h
    exact hcache s hk0 rfl
  · repeat' split at h
    all_goals (try cases h)
    all_goals exact hcache _ rfl rfl

/-- `Kind` followed by `Raw` reads what `Raw` alone reads. -/
theorem Raw_after_Kind (s : Stream) : (s.Kind >>= fun p => p.2.2.Raw) = s.Raw := by
  cases hK : s.Kind with
  | error e =>
      unfold Stream.Raw
      rw [hK]
      rfl
  | ok p =>
      obtain ⟨k, size, s'⟩ := p
      conv => rhs; unfold Stream.Raw; rw [hK]
      show s'.Raw = _
      unfold Stream.Raw
      rw [Kind_cached hK]

/-! ## `Split` against `Stream.Raw` -/

theorem Split_toOption (b : Bytes) :
    (Split b).toOption = (readKind b).toOption.map fun (k, ts, cs) => (k, (b.drop ts).take cs, b.drop (ts + cs)) := by
  unfold Split
  cases readKind b with
  | error e => rfl
  | ok t =>
      obtain ⟨k, ts, cs⟩ := t
      rfl

/-- Off the one-byte strings below `0x80`, `Split` succeeds exactly when a
stream over the input reads a value with `Kind` and `Raw`; `Raw` then
returns the bytes `Split` consumed, which are the content `Split` returns
behind the header `puthead` writes for its length. `CountValues` counts the
values of a sequence of encodings.

Both succeed exactly when the grammar reads a header. The value takes the
header and the content, `ts + cs` bytes. -/
theorem Split_Raw :
    (∀ b : Bytes, singleByteString b = false →
      (Split b).toOption.isSome = ((Stream.ofBytes b).Kind >>= fun p => p.2.2.Raw).toOption.isSome ∧
        ∀ k content rest, Split b = .ok (k, content, rest) →
          ∃ s, ((Stream.ofBytes b).Kind >>= fun p => p.2.2.Raw) = .ok (b.take (b.length - rest.length), s) ∧
            s.r = rest ∧ b.take (b.length - rest.length) = rawHeader k content.length ++ content) ∧
      ∀ items : List Item, (∀ it ∈ items, Sized it) → CountValues (encodeList items) = .ok items.length := by
  refine ⟨fun b hb => ?_, fun items h => countValues_encodeList h⟩
  have hsplit : (Split b).toOption = (headerOf b).map fun (k, ts, cs) => (k, (b.drop ts).take cs, b.drop (ts + cs)) := by
    rw [Split_toOption, readKind_toOption, hb]
    rfl
  have hraw := Raw_ofBytes b
  rw [Raw_after_Kind]
  constructor
  · have hsome := congrArg Option.isSome hraw
    rw [Option.isSome_map, Option.isSome_map] at hsome
    rw [hsplit, Option.isSome_map, hsome]
  · intro k content rest hs
    have hs' : (Split b).toOption = some (k, content, rest) := by rw [hs]; rfl
    rw [hsplit] at hs'
    obtain ⟨⟨k', ts, cs⟩, hh, heq⟩ := Option.map_eq_some_iff.mp hs'
    cases heq
    obtain ⟨hfit, htake⟩ := headerOf_take hh
    rw [hh, Option.map_some] at hraw
    obtain ⟨⟨raw, s⟩, hr, hrs⟩ := Option.map_eq_some_iff.mp hraw
    simp only [Prod.mk.injEq] at hrs
    obtain ⟨rfl, hsr⟩ := hrs
    have hlen : b.length - (b.drop (ts + cs)).length = ts + cs := by rw [List.length_drop]; omega
    have hcs : ((b.drop ts).take cs).length = cs := by rw [List.length_take, List.length_drop]; omega
    refine ⟨s, ?_, hsr, ?_⟩
    · rw [eq_ok_of_toOption hr, hlen, htake]
    · rw [hlen, htake, hcs]

theorem Split_Raw_short :
    (∃ s, ((Stream.ofBytes [0x82, 1, 2, 9]).Kind >>= fun p => p.2.2.Raw) = .ok ([0x82, 1, 2], s) ∧ s.r = [9] ∧
        [0x82, 1, 2] = rawHeader .string 2 ++ [1, 2]) ∧
      CountValues (encodeList [.str [1, 2]]) = .ok 1 :=
  ⟨(Split_Raw.1 [0x82, 1, 2, 9] rfl).2 .string [1, 2] [9] rfl,
    Split_Raw.2 [.str [1, 2]] fun it h => by
      rw [List.mem_singleton] at h
      subst h
      exact .str (by decide)⟩

/-- `0x81 0x05`: `Split` rejects the string of one byte below `0x80` as
non-canonical, and the stream reads it with `Raw`. -/
theorem Split_Raw_canonSize :
    Split [0x81, 0x05] = .error .canonSize ∧
      ((Stream.ofBytes [0x81, 0x05]).Kind >>= fun p => p.2.2.Raw) = .ok ([0x81, 0x05], topStream [] none 1 0) :=
  ⟨rfl, rfl⟩

end Lemochain.Rlp
