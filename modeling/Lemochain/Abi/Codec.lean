import Mathlib.Algebra.CharP.Defs
import Mathlib.Data.Int.ConditionallyCompleteOrder
import Lemochain.Rlp.Raw

/-!
# Packing and unpacking contract arguments (`accounts/abi`)

`Ty` is the `Type` that `NewType` makes of a type string: the integer types
of each size, `bool`, `string`, a slice `T[]` or an array `T[k]` of another
type, `address`, `bytesN`, `bytes` and `function`. A Go value of such a type
is a `Value`: an integer (of the Go integer type of its size, or a
`*big.Int`), a boolean, the bytes of a string, of a `[]byte` or of a byte
array (an address, `bytesN`, a function), or the elements of a slice or an
array.

`pack` and `Pack` follow `pack.go` and `argument.go`: every value fills
words of 32 bytes; a slice, a string or `bytes` is written after the head of
the argument list and reached through the offset word left in its place.
`toGoType`, `forEachUnpack`, `lengthPrefixPointsTo` and `UnpackValues`
follow `unpack.go` and `argument.go`.

The values here carry no Go type, so `typeCheck` checks what the source's
reflection check checks of a value of the Go type the argument is meant to
have: its shape (an integer, a boolean, bytes, or elements), the length of
an array and of a `bytesN` value. `packNum` is `U256`: an integer modulo
`2 ^ 256`, which is the two's complement of a negative one. The errors of
the source are the constructors of `AbiError`, with the numbers their
messages print; `panic` stands for a runtime panic of a slice expression.

## Main results

* `readInteger_packNum_signed`, `readInteger_packNum_unsigned` — an integer
  of a Go integer type is read back as it was packed.
* `readInteger_packNum_bigInt` — a `*big.Int` is read back modulo `2 ^ 256`,
  so a negative one is not.
* `unpackValues_pack_diverges` — three argument lists that do not come back
  from `Pack`: a negative `int256`, a `bytes` after a nested static array,
  and a `string[]`.
-/

namespace Lemochain.Abi

open Lemochain.Rlp (bigEndian beValue)

/-- `Type`. -/
inductive Ty where
  | int (size : Nat)
  | uint (size : Nat)
  | bool
  | string
  | slice (elem : Ty)
  | array (size : Nat) (elem : Ty)
  | address
  | fixedBytes (size : Nat)
  | bytes
  | function
  deriving DecidableEq, Repr

/-- A Go value of an argument. -/
inductive Value where
  | num (i : Int)
  | bool (b : Bool)
  | bytes (b : Bytes)
  | list (vs : List Value)
  deriving Repr

/-- The errors of packing and unpacking. -/
inductive AbiError where
  /-- "abi: cannot use %v as type %v as argument" -/
  | typeErr
  /-- "argument count mismatch: %d for %d" -/
  | argCountMismatch (got want : Nat)
  /-- "abi: cannot marshal in to go type: length insufficient %d require %d" -/
  | lengthInsufficient (len require : Nat)
  /-- "abi: cannot marshal in to go array: offset %d would go over slice boundary (len=%d)" -/
  | arrayOverBoundary (len offset : Nat)
  /-- "abi: cannot marshal in to go slice: offset %v would go over slice boundary (len=%v)" -/
  | sliceOverBoundary (offsetEnd len : Nat)
  /-- "abi offset larger than int64: %v" -/
  | offsetTooLarge (offsetEnd : Nat)
  /-- "abi length larger than int64: %v" -/
  | lengthTooLarge (totalSize : Nat)
  /-- `errBadBool`, "abi: improperly encoded boolean value" -/
  | badBool
  /-- "abi: got improperly encoded function type, got %v" -/
  | badFunction
  /-- a runtime panic: a slice expression out of range -/
  | panic
  deriving DecidableEq, Repr

/-- `requiresLengthPrefix`: the types written after the head. -/
def Ty.requiresLengthPrefix : Ty → Bool
  | .string | .bytes | .slice _ => true
  | _ => false

/-- The kind `reflectIntKindAndType` gives an integer type: a Go integer type
for 8, 16, 32 and 64 bits, `*big.Int` for the other sizes. -/
inductive IntKind where
  | fixed (unsigned : Bool) (bits : Nat)
  | bigInt
  deriving DecidableEq, Repr

/-- `reflectIntKindAndType`. -/
def reflectIntKind (unsigned : Bool) (size : Nat) : IntKind :=
  if size = 8 ∨ size = 16 ∨ size = 32 ∨ size = 64 then .fixed unsigned size else .bigInt

/-! ## Packing -/

/-- `common.RightPadBytes`. -/
def RightPadBytes (slice : Bytes) (l : Nat) : Bytes :=
  if l ≤ slice.length then slice else slice ++ List.replicate (l - slice.length) 0

/-- `common.LeftPadBytes`. -/
def LeftPadBytes (slice : Bytes) (l : Nat) : Bytes :=
  if l ≤ slice.length then slice else List.replicate (l - slice.length) 0 ++ slice

/-- `packNum`: `U256` of the number, in a word. -/
def packNum (i : Int) : Bytes := bigEndian 32 (i % 2 ^ 256).toNat

/-- `packBytesSlice`: the length `l`, then the bytes padded to whole words. -/
def packBytesSlice (bytes : Bytes) (l : Nat) : Bytes :=
  packNum l ++ RightPadBytes bytes ((l + 31) / 32 * 32)

/-- `packElement`, for a value `typeCheck` accepted (on any other the source
panics, and nothing calls it there). -/
def packElement : Ty → Value → Bytes
  | .int _, .num i => packNum i
  | .uint _, .num i => packNum i
  | .string, .bytes s => packBytesSlice s s.length
  | .address, .bytes a => LeftPadBytes a 32
  | .bool, .bool b => bigEndian 32 (if b then 1 else 0)
  | .bytes, .bytes b => packBytesSlice b b.length
  | .fixedBytes _, .bytes b => RightPadBytes b 32
  | .function, .bytes b => RightPadBytes b 32
  | _, _ => []

/-- `typeCheck`: the value has the shape of the type; an array has its size,
a `bytesN` value its length. The elements of a slice or an array are checked
when they are packed. -/
def typeCheck : Ty → Value → Bool
  | .slice _, .list _ => true
  | .array n _, .list vs => vs.length == n
  | .int _, .num _ => true
  | .uint _, .num _ => true
  | .bool, .bool _ => true
  | .string, .bytes _ => true
  | .bytes, .bytes _ => true
  | .address, .bytes _ => true
  | .function, .bytes _ => true
  | .fixedBytes n, .bytes b => b.length == n
  | _, _ => false

/-- `Type.pack`: the elements of a slice or an array one after the other, a
slice with its length in front. -/
def Ty.pack : Ty → Value → Except AbiError Bytes
  | t, v =>
      if typeCheck t v = false then .error .typeErr
      else
        match t, v with
        | .slice e, .list vs => (vs.mapM e.pack).map fun ps => packBytesSlice ps.flatten vs.length
        | .array _ e, .list vs => (vs.mapM e.pack).map List.flatten
        | t, v => .ok (packElement t v)

/-- The words an argument takes in the head, as `Pack` counts them: an array
its size, every other type one. -/
def headWords : Ty → Nat
  | .array n _ => n
  | _ => 1

/-- The loop of `Pack`: the head `ret` and the data `variableInput` written
after it, `inputOffset` being the size of the head. -/
def packArgs (inputOffset : Nat) : List (Ty × Value) → Bytes → Bytes → Except AbiError Bytes
  | [], ret, variableInput => .ok (ret ++ variableInput)
  | (t, a) :: rest, ret, variableInput =>
      match t.pack a with
      | .error e => .error e
      | .ok packed =>
          if t.requiresLengthPrefix then
            packArgs inputOffset rest (ret ++ packNum (inputOffset + variableInput.length)) (variableInput ++ packed)
          else packArgs inputOffset rest (ret ++ packed) variableInput

/-- `Arguments.Pack`. -/
def Pack (arguments : List Ty) (args : List Value) : Except AbiError Bytes :=
  if args.length ≠ arguments.length then .error (.argCountMismatch args.length arguments.length)
  else packArgs (arguments.map fun t => 32 * headWords t).sum (arguments.zip args) [] []

/-! ## Unpacking -/

/-- The 32 bytes at `i`, `output[i:i+32]`. -/
def word (output : Bytes) (i : Nat) : Bytes := (output.drop i).take 32

/-- `readInteger`: the low bytes of the word for a Go integer type, read as
unsigned or two's complement; the whole word, unsigned, for `*big.Int`. -/
def readInteger (kind : IntKind) (b : Bytes) : Int :=
  match kind with
  | .fixed true bits => beValue (b.drop (b.length - bits / 8))
  | .fixed false bits =>
      let w := beValue (b.drop (b.length - bits / 8))
      if w < 2 ^ (bits - 1) then w else w - 2 ^ bits
  | .bigInt => beValue b

@[simp] theorem packNum_length (i : Int) : (packNum i).length = 32 := Rlp.bigEndian_length _ _

/-- The low `k` bytes of `m + k` big-endian bytes are the `k` big-endian
bytes. -/
theorem bigEndian_add (m k x : Nat) : bigEndian (m + k) x = bigEndian m (x / 256 ^ k) ++ bigEndian k x := by
  induction k generalizing x with
  | zero => simp [Rlp.bigEndian_nil]
  | succ k ih =>
      rw [← Nat.add_assoc, Rlp.bigEndian_succ, ih, Rlp.bigEndian_succ, List.append_assoc, Nat.div_div_eq_div_mul,
        ← Nat.pow_succ']

/-- The last `n` bytes of a packed number. -/
theorem beValue_drop_packNum {n : Nat} (hn : n ≤ 32) (i : Int) :
    beValue ((packNum i).drop (32 - n)) = (i % 2 ^ 256).toNat % 256 ^ n := by
  have h : packNum i = bigEndian (32 - n) ((i % 2 ^ 256).toNat / 256 ^ n) ++ bigEndian n (i % 2 ^ 256).toNat := by
    rw [packNum, ← bigEndian_add, Nat.sub_add_cancel hn]
  rw [h, List.drop_left' (Rlp.bigEndian_length _ _), Rlp.beValue_bigEndian]

/-- A `*big.Int` is read back unsigned: what `packNum` wrote, modulo
`2 ^ 256`, also for a negative number. -/
theorem readInteger_packNum_bigInt (i : Int) : readInteger .bigInt (packNum i) = i % 2 ^ 256 := by
  have h := beValue_drop_packNum (Nat.le_refl 32) i
  rw [Nat.sub_self, List.drop_zero] at h
  rw [readInteger, h]
  omega

/-- A Go signed integer type is read back as it was packed. -/
theorem readInteger_packNum_signed {bits : Nat} (hbits : bits = 8 ∨ bits = 16 ∨ bits = 32 ∨ bits = 64)
    {i : Int} (hlo : -2 ^ (bits - 1) ≤ i) (hhi : i < 2 ^ (bits - 1)) :
    readInteger (.fixed false bits) (packNum i) = i := by
  have hn : bits / 8 ≤ 32 := by omega
  rw [readInteger, packNum_length, beValue_drop_packNum hn]
  rcases hbits with rfl | rfl | rfl | rfl <;> split_ifs <;> omega

/-- A Go unsigned integer type is read back as it was packed. -/
theorem readInteger_packNum_unsigned {bits : Nat} (hbits : bits = 8 ∨ bits = 16 ∨ bits = 32 ∨ bits = 64)
    {i : Int} (hlo : 0 ≤ i) (hhi : i < 2 ^ bits) : readInteger (.fixed true bits) (packNum i) = i := by
  have hn : bits / 8 ≤ 32 := by omega
  rw [readInteger, packNum_length, beValue_drop_packNum hn]
  rcases hbits with rfl | rfl | rfl | rfl <;> omega

/-- `readBool`: all zero but the last byte, which is 0 or 1. -/
def readBool (word : Bytes) : Except AbiError Bool :=
  if (word.take 31).any (· ≠ 0) then .error .badBool
  else
    match word.getD 31 0 with
    | 0 => .ok false
    | 1 => .ok true
    | _ => .error .badBool

/-- `readFunctionType`: 24 bytes, the rest of the word zero. -/
def readFunctionType (word : Bytes) : Except AbiError Bytes :=
  if beValue ((word.drop 24).take 8) ≠ 0 then .error .badFunction else .ok (word.take 24)

/-- `readFixedBytes`: the first `size` bytes of the word. -/
def readFixedBytes (size : Nat) (word : Bytes) : Except AbiError Bytes :=
  if size > word.length then .error .panic else .ok (word.take size)

/-- `common.BytesToAddress` of a word: its last 20 bytes. -/
def BytesToAddress (b : Bytes) : Bytes := b.drop (b.length - 20)

/-- `getFullElemSize`: the bytes an element of an array takes, the sizes of
nested arrays multiplied. -/
def getFullElemSize : Ty → Nat
  | .array n e => n * getFullElemSize e
  | _ => 32

/-- The loop of `getArraySize`: the sizes of nested arrays multiplied. -/
def nestedSize : Ty → Nat
  | .array n e => n * nestedSize e
  | _ => 1

/-- `getArraySize`: the words an array takes, counting nested arrays. -/
def getArraySize : Ty → Nat
  | .array n e => n * nestedSize e
  | _ => 0

/-- `lengthPrefixPointsTo`: the offset word at `index` points to a length
word; the data after it, of that length, must lie in the output. -/
def lengthPrefixPointsTo (index : Nat) (output : Bytes) : Except AbiError (Nat × Nat) :=
  let offsetEnd := beValue (word output index) + 32
  if offsetEnd > output.length then .error (.sliceOverBoundary offsetEnd output.length)
  else if offsetEnd ≥ 2 ^ 63 then .error (.offsetTooLarge offsetEnd)
  else
    let length := beValue ((output.take offsetEnd).drop (offsetEnd - 32))
    if offsetEnd + length ≥ 2 ^ 63 then .error (.lengthTooLarge (offsetEnd + length))
    else if offsetEnd + length > output.length then .error (.lengthInsufficient output.length (offsetEnd + length))
    else .ok (offsetEnd, length)

/-- `forEachUnpack` of the slice or array type `t`: `size` elements from
`start`, decoded by `elem` at their offsets, 32 bytes apart in a slice and
`getFullElemSize` apart in an array. -/
def forEachUnpack (elem : Nat → Except AbiError Value) (t : Ty) (output : Bytes) (start size : Nat) :
    Except AbiError Value :=
  if start + 32 * size > output.length then .error (.arrayOverBoundary output.length (start + 32 * size))
  else
    let elemSize := match t with
      | .array _ e => getFullElemSize e
      | _ => 32
    ((List.range size).mapM fun j => elem (start + j * elemSize)).map .list

/-- `toGoType`: the value of type `t` at `index`. -/
def toGoType : Ty → Nat → Bytes → Except AbiError Value
  | t, index, output =>
      if index + 32 > output.length then .error (.lengthInsufficient output.length (index + 32))
      else
        match t with
        | .slice e =>
            match lengthPrefixPointsTo index output with
            | .error err => .error err
            | .ok (b, n) => forEachUnpack (fun i => toGoType e i output) (.slice e) output b n
        | .array size e => forEachUnpack (fun i => toGoType e i output) (.array size e) output index size
        | .string =>
            (lengthPrefixPointsTo index output).map fun (b, n) => .bytes ((output.drop b).take n)
        | .bytes =>
            (lengthPrefixPointsTo index output).map fun (b, n) => .bytes ((output.drop b).take n)
        | .int size => .ok (.num (readInteger (reflectIntKind false size) (word output index)))
        | .uint size => .ok (.num (readInteger (reflectIntKind true size) (word output index)))
        | .bool => (readBool (word output index)).map .bool
        | .address => .ok (.bytes (BytesToAddress (word output index)))
        | .fixedBytes size => (readFixedBytes size (word output index)).map .bytes
        | .function => (readFunctionType (word output index)).map .bytes

/-- The loop of `UnpackValues`: argument `index` is read at word
`index + virtualArgs`; an array moves the arguments after it by the words
it takes beyond one. The index can go below zero after an array of size
zero, where the slice expression of `toGoType` panics. -/
def unpackArgs (data : Bytes) : List Ty → Nat → Int → Except AbiError (List Value)
  | [], _, _ => .ok []
  | t :: ts, index, virtualArgs =>
      if index + virtualArgs < 0 then .error .panic
      else
        match toGoType t ((index + virtualArgs) * 32).toNat data with
        | .error e => .error e
        | .ok v =>
            let virtualArgs := match t with
              | .array _ _ => virtualArgs + getArraySize t - 1
              | _ => virtualArgs
            (unpackArgs data ts (index + 1) virtualArgs).map (v :: ·)

/-- `Arguments.UnpackValues`, for arguments none of which is indexed. -/
def UnpackValues (arguments : List Ty) (data : Bytes) : Except AbiError (List Value) :=
  unpackArgs data arguments 0 0

/-- A single integer argument is packed into one word. -/
theorem pack_int (size : Nat) (i : Int) : Pack [.int size] [.num i] = .ok (packNum i) := by
  simp [Pack, packArgs, Ty.pack, typeCheck, packElement, Ty.requiresLengthPrefix]

/-- One word read back as an integer argument, by `readInteger` of its
kind. -/
theorem unpackValues_int (size : Nat) (i : Int) :
    UnpackValues [.int size] (packNum i) = .ok [.num (readInteger (reflectIntKind false size) (packNum i))] := by
  have hword : word (packNum i) 0 = packNum i := by
    rw [word, List.drop_zero, List.take_of_length_le (by simp)]
  simp [UnpackValues, unpackArgs, toGoType, hword, Except.map]

/-- A `uint256[3][2]` argument, then a `bytes` one. -/
def nestedThenBytes : List Ty := [.array 2 (.array 3 (.uint 256)), .bytes]

/-- A `uint256[3][2]` value of zeros. -/
def nestedZeros : Value := .list [.list [.num 0, .num 0, .num 0], .list [.num 0, .num 0, .num 0]]

set_option maxRecDepth 20000 in
/-- Three argument lists `UnpackValues` does not read back from what `Pack`
wrote. An `int256` of `-1` comes back as `2 ^ 256 - 1`: `readInteger` reads
a `*big.Int` unsigned. The `bytes` after a nested static array comes back
empty: `Pack` counts the head as two words for the array where the array
takes six, so the offset it writes points into the array. A `string[]`
fails: `pack` writes the strings inline, where `toGoType` reads an offset
for each. -/
theorem unpackValues_pack_diverges :
    Pack [.int 256] [.num (-1)] = .ok (packNum (-1)) ∧
      UnpackValues [.int 256] (packNum (-1)) = .ok [.num (2 ^ 256 - 1)] ∧
      (Pack nestedThenBytes [nestedZeros, .bytes [1]] >>= UnpackValues nestedThenBytes) =
        .ok [nestedZeros, .bytes []] ∧
      (Pack [.slice .string] [.list [.bytes [0x61]]] >>= UnpackValues [.slice .string]) =
        .error (.lengthInsufficient 128 8225) := by
  refine ⟨pack_int 256 (-1), ?_, rfl, rfl⟩
  have hkind : reflectIntKind false 256 = .bigInt := rfl
  rw [unpackValues_int, hkind, readInteger_packNum_bigInt]
  rfl

end Lemochain.Abi
