import Lemochain.Common.Types
import Lemochain.Common.Math
import Lemochain.Lib.Numeral

/-!
# Hex quantities (`common/hexutil`)

A quantity is written `0x` followed by its hex digits, lowercase and with no
leading zero; zero is `0x0`. `EncodeUint64` and `Uint64.MarshalText` format
a `uint64` through `strconv.AppendUint`, and `EncodeBig` and
`Big.MarshalText` a `*big.Int` through `fmt`'s `%#x`. `DecodeUint64` reads a
quantity with `strconv.ParseUint`. `DecodeBig` and `Big.UnmarshalText` read
up to 64 digits into the machine words of a `big.Int`, `bigWordNibbles`
digits to a word, taken from the right; `Uint64.UnmarshalText` reads up to
16 digits into a `uint64`.

The model:

* strings and byte slices are lists of bytes;
* a `big.Word` holds `bigWordNibbles` hex digits, `16` on a 64-bit platform
  and `8` on a 32-bit one, so its arithmetic is modulo `16 ^ bigWordNibbles`;
  the functions that use it take `bigWordNibbles` as a parameter;
* a `big.Int` is an `Int`, and `SetBits` the value of little-endian words;
* the library functions the package calls are modelled from their
  definitions: `strconv.ParseUint(s, 16, 64)` with its loop and its cutoff,
  and the digits that `strconv` and `fmt` write, the base-16 numeral of
  `Nat.digits`.

The decoders return their error, `DecodeUint64` its value as well; the
errors are the `decError` values the functions use.
-/

namespace Lemochain.Hexutil

open Lemochain.Math Lemochain.Numeral

/-- The errors of the decoders. -/
inductive HexError where
  | ErrEmptyString
  | ErrSyntax
  | ErrMissingPrefix
  | ErrEmptyNumber
  | ErrLeadingZero
  | ErrUint64Range
  | ErrBig256Range
  deriving DecidableEq, Repr

/-! ## Digits -/

/-- `badNibble`. -/
def badNibble : UInt64 := ~~~0

/-- `decodeNibble`. -/
def decodeNibble (c : UInt8) : UInt64 :=
  if '0'.toUInt8 ≤ c ∧ c ≤ '9'.toUInt8 then (c - '0'.toUInt8).toUInt64
  else if 'A'.toUInt8 ≤ c ∧ c ≤ 'F'.toUInt8 then (c - 'A'.toUInt8 + 10).toUInt64
  else if 'a'.toUInt8 ≤ c ∧ c ≤ 'f'.toUInt8 then (c - 'a'.toUInt8 + 10).toUInt64
  else badNibble

/-- The lowercase digit `strconv` and `fmt` write for a nibble. -/
def hexDigit (d : Nat) : UInt8 :=
  if d < 10 then '0'.toUInt8 + d.toUInt8 else 'a'.toUInt8 + (d - 10).toUInt8

/-- `strconv.FormatUint(n, 16)`, and the digits of `%x`: the base-16
numeral of `n`, the most significant digit first, `0` for zero. -/
def FormatUint16 (n : Nat) : Bytes :=
  if n = 0 then [hexDigit 0] else (Nat.digits 16 n).reverse.map hexDigit

/-! ## Encoding -/

/-- `"0x"`. -/
def hexMark : Bytes := ['0'.toUInt8, 'x'.toUInt8]

/-- `EncodeUint64`: `strconv.AppendUint` after `0x`. -/
def EncodeUint64 (i : UInt64) : Bytes := hexMark ++ FormatUint16 i.toNat

/-- `Uint64.MarshalText`, which never fails. -/
def Uint64.MarshalText (b : UInt64) : Except HexError Bytes := .ok (hexMark ++ FormatUint16 b.toNat)

/-- `EncodeBig`: `0x0` for a value of bit length zero, and otherwise `%#x`,
which writes the sign, then `0x`, then the digits of the absolute value. -/
def EncodeBig (bigint : Int) : Bytes :=
  if BitLen bigint.natAbs = 0 then hexMark ++ ['0'.toUInt8]
  else (if bigint < 0 then ['-'.toUInt8] else []) ++ hexMark ++ FormatUint16 bigint.natAbs

/-- `Big.MarshalText`, which returns no error. -/
def Big.MarshalText (b : Int) : Except HexError Bytes := .ok (EncodeBig b)

/-! ## The checks of a quantity -/

/-- `has0xPrefix`. -/
def has0xPrefix (input : Bytes) : Bool :=
  decide (input.length ≥ 2) && input.getD 0 0 == '0'.toUInt8 &&
    (input.getD 1 0 == 'x'.toUInt8 || input.getD 1 0 == 'X'.toUInt8)

/-- `bytesHave0xPrefix`, the same test on a byte slice. -/
def bytesHave0xPrefix (input : Bytes) : Bool := has0xPrefix input

/-- The body `checkNumber` and `checkNumberText` share; they differ in what
an empty input gives, `empty`. -/
def checkNumberWith (empty : Except HexError Bytes) (input : Bytes) : Except HexError Bytes :=
  if input.length = 0 then empty
  else if !bytesHave0xPrefix input then .error .ErrMissingPrefix
  else
    let input := input.drop 2
    if input.length = 0 then .error .ErrEmptyNumber
    else if input.length > 1 ∧ input.getD 0 0 = '0'.toUInt8 then .error .ErrLeadingZero
    else .ok input

/-- `checkNumber`: an empty input is `ErrEmptyString`. -/
def checkNumber (input : Bytes) : Except HexError Bytes := checkNumberWith (.error .ErrEmptyString) input

/-- `checkNumberText`: an empty input is allowed, with no digits. -/
def checkNumberText (input : Bytes) : Except HexError Bytes := checkNumberWith (.ok []) input

/-! ## Big quantities -/

/-- The inner loop of `DecodeBig` and `Big.UnmarshalText`, `for ri := start;
ri < end; ri++`: the digits `raw[start:end]` read into one word. -/
def wordDigits (bigWordNibbles : Nat) (raw : Bytes) (start «end» : Nat) : Except HexError Nat :=
  (List.range' start («end» - start)).foldlM (fun word ri =>
    let nib := decodeNibble (raw.getD ri 0)
    if nib = badNibble then .error .ErrSyntax
    else .ok ((word * 16 + nib.toNat) % 16 ^ bigWordNibbles)) 0

/-- The outer loop of `DecodeBig` and `Big.UnmarshalText`: the words
`len(raw)/bigWordNibbles + 1` of them, the least significant first, each
over the `bigWordNibbles` digits left of the last; `start` below zero is
zero. -/
def decodeWords (bigWordNibbles : Nat) (raw : Bytes) : Except HexError (List Nat) := do
  let (words, _) ← (List.range (raw.length / bigWordNibbles + 1)).foldlM (fun (acc : List Nat × Nat) _ => do
    let start := acc.2 - bigWordNibbles
    let word ← wordDigits bigWordNibbles raw start acc.2
    pure (acc.1 ++ [word], start)) ([], raw.length)
  pure words

/-- `big.Int.SetBits`: the value of little-endian words. -/
def SetBits (bigWordNibbles : Nat) (words : List Nat) : Nat := limbsValue (16 ^ bigWordNibbles) words

/-- `DecodeBig`. -/
def DecodeBig (bigWordNibbles : Nat) (input : Bytes) : Except HexError Nat := do
  let raw ← checkNumber input
  if raw.length > 64 then throw .ErrBig256Range
  let words ← decodeWords bigWordNibbles raw
  pure (SetBits bigWordNibbles words)

/-- `Big.UnmarshalText`: the value stored on success. -/
def Big.UnmarshalText (bigWordNibbles : Nat) (input : Bytes) : Except HexError Nat := do
  let raw ← checkNumberText input
  if raw.length > 64 then throw .ErrBig256Range
  let words ← decodeWords bigWordNibbles raw
  pure (SetBits bigWordNibbles words)

/-! ## `uint64` quantities -/

/-- `Uint64.UnmarshalText`: the value stored on success. -/
def Uint64.UnmarshalText (input : Bytes) : Except HexError UInt64 := do
  let raw ← checkNumberText input
  if raw.length > 16 then throw .ErrUint64Range
  raw.foldlM (fun (dec : UInt64) byte =>
    let nib := decodeNibble byte
    if nib = badNibble then .error .ErrSyntax else .ok (dec * 16 + nib)) 0

/-- The two errors of `strconv.ParseUint`. -/
inductive NumError where
  | ErrRange
  | ErrSyntax
  deriving DecidableEq, Repr

/-- `maxVal` of `strconv.ParseUint` for 64 bits. -/
def maxVal : UInt64 := ~~~0

/-- `cutoff` of `strconv.ParseUint` in base 16: `maxUint64/16 + 1`. -/
def cutoff : UInt64 := ~~~0 / 16 + 1

/-- The value of a digit of `strconv.ParseUint`, in any base up to 36. -/
def digitValue (c : UInt8) : Option UInt8 :=
  if '0'.toUInt8 ≤ c ∧ c ≤ '9'.toUInt8 then some (c - '0'.toUInt8)
  else if 'a'.toUInt8 ≤ c ∧ c ≤ 'z'.toUInt8 then some (c - 'a'.toUInt8 + 10)
  else if 'A'.toUInt8 ≤ c ∧ c ≤ 'Z'.toUInt8 then some (c - 'A'.toUInt8 + 10)
  else none

/-- One digit of the loop of `strconv.ParseUint(s, 16, 64)`; an error
carries the value the function returns with it. -/
def parseStep (n : UInt64) (c : UInt8) : Except (UInt64 × NumError) UInt64 :=
  match digitValue c with
  | none => .error (0, .ErrSyntax)
  | some v =>
    if v ≥ 16 then .error (0, .ErrSyntax)
    else if n ≥ cutoff then .error (maxVal, .ErrRange)
    else
      let n := n * 16
      let n1 := n + v.toUInt64
      if n1 < n ∨ n1 > maxVal then .error (maxVal, .ErrRange) else .ok n1

/-- `strconv.ParseUint(s, 16, 64)`: the value and the error. -/
def ParseUint (s : Bytes) : UInt64 × Option NumError :=
  if s.length = 0 then (0, some .ErrSyntax)
  else
    match s.foldlM parseStep 0 with
    | .ok n => (n, none)
    | .error (n, e) => (n, some e)

/-- `mapError` on the errors of `strconv.ParseUint`. -/
def mapError : NumError → HexError
  | .ErrRange => .ErrUint64Range
  | .ErrSyntax => .ErrSyntax

/-- `DecodeUint64`: the value and the error. -/
def DecodeUint64 (input : Bytes) : UInt64 × Option HexError :=
  match checkNumber input with
  | .error e => (0, some e)
  | .ok raw =>
    let (dec, err) := ParseUint raw
    (dec, err.map mapError)

end Lemochain.Hexutil
