import Mathlib.Data.UInt
import Lemochain.Rlp.Stream

/-!
# Typed decoding and encoding (`rlp/decode.go`, `rlp/encode.go`)

`DecodeBytes(b, &v)` picks a decoder by the Go type of `v` (`makeDecoder`)
and runs it on a `Stream` over `b`; `EncodeToBytes(v)` picks a writer by the
type of `v` (`makeWriter`). `Val` is the value both of them see: an unsigned
integer, a big integer, a string, the bytes of a `[]byte` or `[n]byte`, or
the elements of a slice, an array or a struct. An interface value is the
value it holds, so a decoded `interface{}` is the `[]byte` of a string or
the `[]interface{}` of a list.

The decoders follow the source one by one. They loop over list elements
until the stream reports the end of the list, and a stream can fail to
report it (see below), so the decoders take a fuel argument that every call
spends; `outOfFuel` is the model's own error.

The writers write the `Item` of a value; `encode` of it is what the
encoder's buffer holds when it is flattened.

## A stream left un-armed

`decodeByteArray` reads a single-byte `[1]byte` with `bv, _ := s.Uint()`.
On the byte `0x00`, `uint` returns `ErrCanonInt` before it re-arms the
stream's kind, and the error is dropped: the header of that byte stays read
ahead, and the next decoder takes it as its own value without reading
anything. `decodeBytes_stale_byte` and `decodeBytes_stale_byte_uint` state
what follows on two inputs: the list `c1 00` decodes into a struct of two
`[1]byte` fields, whose encoding is `c2 00 00`; the encoding `c2 00 05` of
such a struct with a `uint64` second field does not decode back.

## Reading back an integer

`uint_encode`: the `uint64` decoder of a stream over the encoding of a
number below `2^64`, followed by any bytes, returns the number and leaves
the bytes that follow. The cases are those of the encoder: zero, a single
byte below `0x80`, a single byte from `0x80` on behind a header, and two to
eight bytes whose first is not zero.
-/

namespace Lemochain.Rlp

/-- A value of a `Ty` as the decoder builds it and the writers read it. -/
inductive Val where
  | uint (n : Nat)
  | bigInt (i : Int)
  | string (s : Bytes)
  | bytes (b : Bytes)
  | list (vs : List Val)
  deriving Repr

/-- `wrapStreamError`: the errors with a message of their own for the type
being decoded. -/
def wrapStreamError (err : StreamError) (typ : Ty) : StreamError :=
  match err with
  | .canonInt => .decode "non-canonical integer (leading zero bytes)" typ []
  | .canonSize => .decode "non-canonical size information" typ []
  | .expectedList => .decode "expected input list" typ []
  | .expectedString => .decode "expected input string or byte" typ []
  | .uintOverflow => .decode "input string too long" typ []
  | .notAtEOL => .decode "input list has too many elements" typ []
  | e => e

/-- `addErrorContext`: a context for a `decodeError`. -/
def addErrorContext (err : StreamError) (ctx : ErrCtx) : StreamError :=
  match err with
  | .decode msg typ c => .decode msg typ (c ++ [ctx])
  | e => e

/-- `decodeUint`. -/
def decodeUint (typ : Ty) (bits : Nat) (s : Stream) : Except StreamError (Val × Stream) :=
  match s.uint bits with
  | .error e => .error (wrapStreamError e typ)
  | .ok (n, s) => .ok (.uint n, s)

/-- `decodeString`. -/
def decodeString (typ : Ty) (s : Stream) : Except StreamError (Val × Stream) :=
  match s.Bytes with
  | .error e => .error (wrapStreamError e typ)
  | .ok (b, s) => .ok (.string b, s)

/-- `decodeBigInt`: leading zero bytes are rejected. -/
def decodeBigInt (typ : Ty) (s : Stream) : Except StreamError (Val × Stream) :=
  match s.Bytes with
  | .error e => .error (wrapStreamError e typ)
  | .ok (b, s) =>
      if b.head? = some 0 then .error (wrapStreamError .canonInt typ)
      else .ok (.bigInt (beValue b), s)

/-- `decodeByteSlice`. -/
def decodeByteSlice (typ : Ty) (s : Stream) : Except StreamError (Val × Stream) :=
  match s.Bytes with
  | .error e => .error (wrapStreamError e typ)
  | .ok (b, s) => .ok (.bytes b, s)

/-- `decodeByteArray` for `[n]byte`. A single byte is read through
`s.Uint()`, whose error is dropped; on its error path `uint` leaves the
stream as it was, kind included. -/
def decodeByteArray (typ : Ty) (n : Nat) (s : Stream) : Except StreamError (Val × Stream) :=
  match s.Kind with
  | .error e => .error e
  | .ok (.byte, _, s) =>
      if n = 0 then .error (.decode "input string too long" typ [])
      else if n > 1 then .error (.decode "input string too short" typ [])
      else
        match s.uint 64 with
        | .ok (bv, s) => .ok (.bytes [bv.toUInt8], s)
        | .error _ => .ok (.bytes [0], s)
  | .ok (.string, size, s) =>
      if n < size then .error (.decode "input string too long" typ [])
      else if n > size then .error (.decode "input string too short" typ [])
      else
        match s.readFull n with
        | .error e => .error e
        | .ok (slice, s) =>
            if size = 1 ∧ slice.head?.any (· < 128) then .error (wrapStreamError .canonSize typ)
            else .ok (.bytes slice, s)
  | .ok (.list, _, _) => .error (wrapStreamError .expectedString typ)

section Lists

/-! The decoders of lists take the decoder of their elements as `dec`; the
decoder of a type ties them together a level down. -/

variable (dec : Ty → Stream → Except StreamError (Val × Stream))

/-- `decodeSliceElems`: elements until the stream reports the end of the
list, at most `n` of them. That report comes from the first `Kind` of an
element's decoder, before it reads anything, so the loop goes on from the
stream it had. -/
def decodeSliceElems : Nat → Ty → Stream → List Val → Except StreamError (List Val × Stream)
  | 0, _, _, _ => .error .outOfFuel
  | n + 1, elem, s, acc =>
      match dec elem s with
      | .error .eol => .ok (acc, s)
      | .error e => .error (addErrorContext e (.index acc.length))
      | .ok (v, s) => decodeSliceElems n elem s (acc ++ [v])

/-- `decodeListSlice`: a list, decoded element by element to its end. -/
def decodeListSlice (n : Nat) (typ elem : Ty) (s : Stream) : Except StreamError (Val × Stream) :=
  match s.List with
  | .error e => .error (wrapStreamError e typ)
  | .ok (size, s) =>
      if size = 0 then (s.ListEnd).map fun s => (.list [], s)
      else
        match decodeSliceElems dec n elem s [] with
        | .error e => .error e
        | .ok (vs, s) => (s.ListEnd).map fun s => (.list vs, s)

/-- The loop of `decodeListArray`: up to `len` elements, fewer at the end of
the list, at most `n` rounds. -/
def decodeArrayElems : Nat → Nat → Ty → Stream → List Val → Except StreamError (List Val × Stream)
  | 0, _, _, _, _ => .error .outOfFuel
  | n + 1, len, elem, s, acc =>
      if acc.length < len then
        match dec elem s with
        | .error .eol => .ok (acc, s)
        | .error e => .error (addErrorContext e (.index acc.length))
        | .ok (v, s) => decodeArrayElems n len elem s (acc ++ [v])
      else .ok (acc, s)

/-- `decodeListArray`: a list of exactly `len` elements. -/
def decodeListArray (n : Nat) (typ : Ty) (len : Nat) (elem : Ty) (s : Stream) :
    Except StreamError (Val × Stream) :=
  match s.List with
  | .error e => .error (wrapStreamError e typ)
  | .ok (_, s) =>
      match decodeArrayElems dec n len elem s [] with
      | .error e => .error e
      | .ok (vs, s) =>
          if vs.length < len then .error (.decode "input list has too few elements" typ [])
          else
            match s.ListEnd with
            | .error e => .error (wrapStreamError e typ)
            | .ok s => .ok (.list vs, s)

/-- The loop over the fields of a struct. -/
def decodeFields (typ : Ty) : List (String × Ty) → Stream → List Val → Except StreamError (List Val × Stream)
  | [], s, acc => .ok (acc, s)
  | (name, t) :: fields, s, acc =>
      match dec t s with
      | .error .eol => .error (.decode "too few elements" typ [])
      | .error e => .error (addErrorContext e (.field name))
      | .ok (v, s) => decodeFields typ fields s (acc ++ [v])

/-- The decoder of `makeStructDecoder`: a list holding one element per
field. -/
def decodeStruct (typ : Ty) (fields : List (String × Ty)) (s : Stream) : Except StreamError (Val × Stream) :=
  match s.List with
  | .error e => .error (wrapStreamError e typ)
  | .ok (_, s) =>
      match decodeFields dec typ fields s [] with
      | .error e => .error e
      | .ok (vs, s) =>
          match s.ListEnd with
          | .error e => .error (wrapStreamError e typ)
          | .ok s => .ok (.list vs, s)

/-- `decodeInterface`: a list becomes a `[]interface{}`, a string its
bytes. -/
def decodeInterface (n : Nat) (s : Stream) : Except StreamError (Val × Stream) :=
  match s.Kind with
  | .error e => .error e
  | .ok (.list, _, s) => decodeListSlice dec n (.slice .iface) .iface s
  | .ok (_, _, s) =>
      match s.Bytes with
      | .error e => .error e
      | .ok (b, s) => .ok (.bytes b, s)

end Lists

/-- The decoder of a type (`makeDecoder`), `fuel` levels deep and looping
at most `fuel` times over a list. -/
def decodeValue : Nat → Ty → Stream → Except StreamError (Val × Stream)
  | 0, _, _ => .error .outOfFuel
  | fuel + 1, typ, s =>
      match typ with
      | .uint bits => decodeUint typ bits s
      | .bigInt => decodeBigInt typ s
      | .string => decodeString typ s
      | .slice elem =>
          if elem.isByte then decodeByteSlice typ s else decodeListSlice (decodeValue fuel) fuel typ elem s
      | .array len elem =>
          if elem.isByte then decodeByteArray typ len s else decodeListArray (decodeValue fuel) fuel typ len elem s
      | .struct fields => decodeStruct (decodeValue fuel) typ fields s
      | .iface => decodeInterface (decodeValue fuel) fuel s

/-- `DecodeBytes`: one value and no trailing data. A `decodeError` with a
context gets the target type as its outermost context. -/
def DecodeBytes (fuel : Nat) (typ : Ty) (b : Bytes) : Except StreamError Val :=
  match decodeValue fuel typ (Stream.ofBytes b) with
  | .error (.decode msg t (c :: cs)) => .error (.decode msg t (c :: cs ++ [.target typ]))
  | .error e => .error e
  | .ok (v, s) => if s.r.length > 0 then .error .moreThanOneValue else .ok v

/-- The big-endian bytes of a number without leading zeros, empty for zero
(`big.Int.Bytes`, and `putint` past the single byte case). -/
def minimalBytes (i : Nat) : Bytes := if i = 0 then [] else putint i

mutual

/-- The item the writer of a value writes (`writeUint`, `writeBigInt`,
`writeString`, `writeBytes`, `writeByteArray`, and the slice and struct
writers). -/
def Val.toItem : Val → Except String Item
  | .uint i => .ok (.str (minimalBytes i))
  | .bigInt i =>
      if i < 0 then .error "rlp: cannot encode negative *big.Int"
      else .ok (.str (minimalBytes i.toNat))
  | .string s => .ok (.str s)
  | .bytes b => .ok (.str b)
  | .list vs => (Val.toItems vs).map .list

/-- The items of a list's elements, the first error stopping it. -/
def Val.toItems : List Val → Except String (List Item)
  | [] => .ok []
  | v :: vs =>
      match v.toItem with
      | .error e => .error e
      | .ok it => (Val.toItems vs).map (it :: ·)

end

/-- `EncodeToBytes`. -/
def EncodeToBytes (v : Val) : Except String Bytes := v.toItem.map encode

/-- A struct of two `[1]byte` fields. -/
def twoByteArrays : Ty := .struct [("A", .array 1 (.uint 8)), ("B", .array 1 (.uint 8))]

/-- The list `c1 00` of one byte decodes into both fields: the second reads
the byte the first left read ahead. The encoding of what it decodes to is
`c2 00 00`. -/
theorem decodeBytes_stale_byte (fuel : Nat) :
    DecodeBytes (fuel + 2) twoByteArrays [0xC1, 0x00] = .ok (.list [.bytes [0], .bytes [0]]) ∧
      EncodeToBytes (.list [.bytes [0], .bytes [0]]) = .ok [0xC2, 0x00, 0x00] :=
  ⟨rfl, rfl⟩

/-- A struct of a `[1]byte` and a `uint64` field. -/
def byteThenUint : Ty := .struct [("A", .array 1 (.uint 8)), ("B", .uint 64)]

/-- The encoding `c2 00 05` of `{A: [0], B: 5}` does not decode back: the
`uint64` field reads the zero byte left read ahead and rejects it as a
non-canonical integer. -/
theorem decodeBytes_stale_byte_uint (fuel : Nat) :
    EncodeToBytes (.list [.bytes [0], .uint 5]) = .ok [0xC2, 0x00, 0x05] ∧
      DecodeBytes (fuel + 2) byteThenUint [0xC2, 0x00, 0x05] =
        .error (.decode "non-canonical integer (leading zero bytes)" (.uint 64)
          [.field "B", .target byteThenUint]) ∧
      ∀ v, DecodeBytes fuel byteThenUint [0xC2, 0x00, 0x05] ≠ .ok v := by
  refine ⟨rfl, rfl, fun v h => ?_⟩
  match fuel with
  | 0 => cases h
  | 1 => cases h
  | k + 2 => cases h

section ReadUint

/-! ### Reading back an unsigned integer -/

theorem stringHeader_bounds : ∀ k < 56, ¬ ((0x80 : UInt8) + k.toUInt8 < 0x80) ∧
    (0x80 : UInt8) + k.toUInt8 < 0xB8 ∧ ((0x80 : UInt8) + k.toUInt8 - 0x80).toNat = k := by
  decide

theorem Kind_ofBytes_byte {x : UInt8} (hx : x < 0x80) (rest : Bytes) :
    (Stream.ofBytes (x :: rest)).Kind = .ok (.byte, 0, ⟨rest, rest.length, true, some .byte, 0, x, []⟩) := by
  simp [Stream.ofBytes, Stream.Kind, Stream.readKind, Stream.readByte, Stream.willRead, pure, Except.pure,
    bind, Except.bind, hx]

theorem Kind_ofBytes_string {k : Nat} (hk : k < 56) {rest : Bytes} (hlen : k ≤ rest.length) :
    (Stream.ofBytes (((0x80 : UInt8) + k.toUInt8) :: rest)).Kind =
      .ok (.string, k, ⟨rest, rest.length, true, some .string, k, 0, []⟩) := by
  obtain ⟨h₁, h₂, h₃⟩ := stringHeader_bounds k hk
  simp only [Stream.Kind, Stream.ofBytes, Nat.toUInt8_eq, List.length_cons, List.head?_nil, Option.any_none,
    Bool.false_eq_true, ↓reduceIte, Stream.readKind, Stream.readByte, bind, Except.bind, Stream.willRead, pure,
    Except.pure, gt_iff_lt, Nat.lt_one_iff, Nat.add_eq_zero_iff, List.length_eq_zero_iff, Nat.succ_ne_self, and_false,
    Nat.add_one_sub_one, h₁, h₂, h₃, true_and, ite_eq_right_iff, reduceCtorEq, imp_false, Nat.not_lt]
  omega

theorem uint_ofBytes_byte {x : UInt8} (hx : x < 0x80) (h0 : x ≠ 0) (rest : Bytes) :
    (Stream.ofBytes (x :: rest)).uint 64 = .ok (x.toNat, ⟨rest, rest.length, true, none, 0, x, []⟩) := by
  simp [Stream.uint, Kind_ofBytes_byte hx, h0, bind, Except.bind, pure, Except.pure]

theorem uint_ofBytes_one {x : UInt8} (hx : 0x80 ≤ x) (rest : Bytes) :
    (Stream.ofBytes (((0x80 : UInt8) + (1 : Nat).toUInt8) :: x :: rest)).uint 64 =
      .ok (x.toNat, ⟨rest, rest.length, true, none, 1, 0, []⟩) := by
  have hk := @Kind_ofBytes_string 1 (by decide) (x :: rest) (by simp)
  have hx' : ¬ x.toNat < 128 := by
    have := UInt8.le_iff_toNat_le.mp hx
    simp at this
    omega
  unfold Stream.uint
  rw [hk]
  simp [Stream.readUint, Stream.readByte, Stream.willRead, bind, Except.bind, pure, Except.pure, Except.map, hx']

theorem readUint_long (s : Stream) {size : Nat} (h : 2 ≤ size) :
    s.readUint size = (do
      let (buf, s) ← s.readFull size
      if buf.head? = some 0 then throw .canonSize else pure (beValue buf, s)) := by
  obtain ⟨j, rfl⟩ : ∃ j, size = j + 2 := ⟨size - 2, by omega⟩
  rfl

theorem uint_ofBytes_long {b : Bytes} (h2 : 2 ≤ b.length) (h8 : b.length ≤ 8) (h0 : b.head? ≠ some 0)
    (hv : 128 ≤ beValue b) (rest : Bytes) :
    (Stream.ofBytes (((0x80 : UInt8) + b.length.toUInt8) :: b ++ rest)).uint 64 =
      .ok (beValue b, ⟨rest, rest.length, true, none, b.length, 0, []⟩) := by
  have hk := @Kind_ofBytes_string b.length (by omega) (b ++ rest) (by simp)
  have h8' : ¬ 8 < b.length := by omega
  have hv' : ¬ beValue b < 128 := by omega
  have hr : ¬ b.length + rest.length < b.length := by omega
  unfold Stream.uint
  rw [List.cons_append, hk]
  simp [readUint_long _ h2, Stream.readFull, Stream.willRead, bind, Except.bind, pure, Except.pure, h0, h8', hv',
    hr]

theorem uint_zero (rest : Bytes) :
    (Stream.ofBytes (encode (.str (minimalBytes 0)) ++ rest)).uint 64 =
      .ok (0, ⟨rest, rest.length, true, none, 0, 0, []⟩) := by
  simp [minimalBytes, encodeString, encodeStringHeader, puthead, Stream.ofBytes, Stream.uint, Stream.Kind,
    Stream.readKind, Stream.readByte, Stream.willRead, Stream.readUint, pure, Except.pure, bind, Except.bind]

/-- The decoder of a `uint64` reads back the encoding of a number, and
leaves what follows it.

A single byte below `0x80` stands for itself. A single byte from `0x80` on
takes a header. Two to eight bytes, the first not zero. -/
theorem uint_encode {n : Nat} (hn : n < 2 ^ 64) (rest : Bytes) :
    ∃ s, (Stream.ofBytes (encode (.str (minimalBytes n)) ++ rest)).uint 64 = .ok (n, s) ∧ s.r = rest := by
  by_cases h0 : n = 0
  · subst h0
    exact ⟨_, uint_zero rest, rfl⟩
  have hmin : minimalBytes n = putint n := by simp [minimalBytes, h0]
  by_cases h256 : n < 256
  · have hx : (n.toUInt8).toNat = n := by simp; omega
    by_cases h128 : n < 128
    · have hlt : n.toUInt8 < 0x80 := UInt8.lt_iff_toNat_lt.mpr (by rw [hx]; exact h128)
      have hne : n.toUInt8 ≠ 0 := fun h => h0 (by rw [← hx, h]; rfl)
      have hle : n.toUInt8 ≤ 0x7F := UInt8.le_iff_toNat_le.mpr (by rw [hx]; simp; omega)
      have henc : encode (.str (minimalBytes n)) = [n.toUInt8] := by
        rw [hmin, putint_of_lt h256, encode_str, encodeString, if_pos hle]
      refine ⟨⟨rest, rest.length, true, none, 0, n.toUInt8, []⟩, ?_, rfl⟩
      rw [henc, List.singleton_append, uint_ofBytes_byte hlt hne, hx]
    · have hge : 0x80 ≤ n.toUInt8 := UInt8.le_iff_toNat_le.mpr (by rw [hx]; simp; omega)
      have hgt : ¬ n.toUInt8 ≤ 0x7F := fun h => by
        have := UInt8.le_iff_toNat_le.mp h
        rw [hx] at this
        simp at this
        omega
      have henc : encode (.str (minimalBytes n)) = [(0x80 : UInt8) + (1 : Nat).toUInt8, n.toUInt8] := by
        rw [hmin, putint_of_lt h256, encode_str, encodeString, if_neg hgt]
        rfl
      refine ⟨⟨rest, rest.length, true, none, 1, 0, []⟩, ?_, rfl⟩
      rw [henc, List.cons_append, List.singleton_append, uint_ofBytes_one hge, hx]
  · have h2 := two_le_intsize (Nat.le_of_not_lt h256)
    have h8 := intsize_le_eight hn
    obtain ⟨x, y, zs, hxyz⟩ : ∃ x y zs, putint n = x :: y :: zs := by
      have hlen := putint_length n
      rcases hp : putint n with _ | ⟨x, _ | ⟨y, zs⟩⟩
      · rw [hp] at hlen
        simp at hlen
        omega
      · rw [hp] at hlen
        simp at hlen
        omega
      · exact ⟨x, y, zs, rfl⟩
    have henc : encode (.str (minimalBytes n)) = ((0x80 : UInt8) + (putint n).length.toUInt8) :: putint n := by
      rw [hmin, encode_str, hxyz, encodeString]
      · rw [← hxyz, putint_length, encodeStringHeader, puthead, if_pos (by omega)]
        rfl
      · intro x₁ h
        simp at h
    refine ⟨⟨rest, rest.length, true, none, (putint n).length, 0, []⟩, ?_, rfl⟩
    have hv := beValue_putint n
    rw [henc, uint_ofBytes_long (by simpa using h2) (by simpa using h8) (putint_head_ne_zero (by omega))
      (by omega) rest, hv]

end ReadUint

end Lemochain.Rlp
