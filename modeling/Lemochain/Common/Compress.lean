import Lemochain.Common.Types
import Lemochain.Lib.PackedBits

/-!
# Sparse bitset compression (`common/bitutil/compress.go`)

`bitsetEncodeBytes` writes an input of at least two bytes as the encoding
of its bitset of non-zero bytes, one bit per byte most significant first,
followed by the non-zero bytes; an input of zero bytes only is written as
nothing, and a single non-zero byte as itself. `CompressBytes` keeps the
encoding when it is shorter than the input, and the input otherwise.
`DecompressBytes` is told the length of the output: an input of that length
was not compressed, a shorter one is decoded by `bitsetDecodePartialBytes`,
which decodes the bitset from the start of the input and then places the
non-zero bytes that follow it.

The encoder recurses on the length of its input and the decoder on its
target length, each of which falls at every level: both are total.
The source has two run-time panics the model keeps as errors of their own:
an index expression that its checks do not guard (`errIndexOutOfRange`),
and `make([]byte, n)` for an `n` above the runtime's `maxAlloc`
(`errMakeSliceLen`), which the decoder calls with its target before it
reads anything. The absence of a panic is then a statement about the model.
-/

namespace Lemochain.Bitutil

open Lemochain.PackedBits

/-! ## Compression -/

/-- One byte of the loop of `bitsetEncodeBytes`: a non-zero byte sets its
bit in the bitset and joins the non-zero bytes. -/
def encodeStep (acc : Bytes × Bytes) (p : UInt8 × Nat) : Bytes × Bytes :=
  if p.1 ≠ 0 then (orAt acc.1 (p.2 / 8) ((1 : UInt8) <<< (7 - p.2 % 8).toUInt8), acc.2 ++ [p.1]) else acc

/-- The loop of `bitsetEncodeBytes` over the input: `nonZeroBitset` of
`(len(data) + 7) / 8` bytes and `nonZeroBytes`. -/
def gather (data : Bytes) : Bytes × Bytes :=
  data.zipIdx.foldl encodeStep (List.replicate ((data.length + 7) / 8) 0, [])

theorem length_foldl_encodeStep (l : List (UInt8 × Nat)) (acc : Bytes × Bytes) :
    (l.foldl encodeStep acc).1.length = acc.1.length := by
  induction l generalizing acc with
  | nil => rfl
  | cons p l ih =>
      rw [List.foldl_cons, ih, encodeStep]
      split
      · exact List.length_modify _ _ _
      · rfl

theorem length_gather_fst (data : Bytes) : (gather data).1.length = (data.length + 7) / 8 := by
  rw [gather, length_foldl_encodeStep, List.length_replicate]

/-- `bitsetEncodeBytes`. -/
def bitsetEncodeBytes (data : Bytes) : Bytes :=
  if data.length = 0 then []
  else if data.length = 1 then (if data.headD 0 = 0 then [] else data)
  else if (gather data).2.length = 0 then []
  else bitsetEncodeBytes (gather data).1 ++ (gather data).2
termination_by data.length
decreasing_by rw [length_gather_fst]; omega

/-- `CompressBytes`. -/
def CompressBytes (data : Bytes) : Bytes :=
  if (bitsetEncodeBytes data).length < data.length then bitsetEncodeBytes data else data

/-! ## Decompression -/

/-- The errors of `DecompressBytes`, and the two run-time panics the source
would not return: `errIndexOutOfRange` for an index expression out of range
and `errMakeSliceLen` for `make` of a length above `maxAlloc`. -/
inductive DecompressError where
  | errMissingData
  | errUnreferencedData
  | errExceededTarget
  | errZeroContent
  | errIndexOutOfRange
  | errMakeSliceLen
  deriving DecidableEq, Repr

/-- The errors that are panics of the source. -/
def DecompressError.isPanic : DecompressError → Bool
  | .errIndexOutOfRange | .errMakeSliceLen => true
  | _ => false

/-- The Go runtime's `maxAlloc` on 64-bit platforms: `make([]byte, n)` panics
with "makeslice: len out of range" for `n` above it, and no slice is longer. -/
def maxAlloc : Nat := 2 ^ 48

/-- `make([]byte, n)`. -/
def makeBytes (n : Nat) : Except DecompressError Bytes :=
  if n ≤ maxAlloc then .ok (List.replicate n 0) else .error .errMakeSliceLen

/-- An index expression `s[i]`. -/
def index (s : Bytes) (i : Nat) : Except DecompressError UInt8 :=
  match s[i]? with
  | some b => .ok b
  | none => .error .errIndexOutOfRange

/-- One bit of the loop of `bitsetDecodePartialBytes` that places the
non-zero bytes: the output and the pointer into the input. -/
def decodeStep (data nonZeroBitset : Bytes) (acc : Bytes × Nat) (i : Nat) : Except DecompressError (Bytes × Nat) := do
  let (decomp, ptr) := acc
  let byte ← index nonZeroBitset (i / 8)
  if byte &&& ((1 : UInt8) <<< (7 - i % 8).toUInt8) ≠ 0 then
    if ptr ≥ data.length then .error .errMissingData
    else if i ≥ decomp.length then .error .errExceededTarget
    else
      let b ← index data ptr
      if b = 0 then .error .errZeroContent
      else pure (decomp.set i b, ptr + 1)
  else pure (decomp, ptr)

/-- `bitsetDecodePartialBytes`: the output and how much of the input it
used. -/
def bitsetDecodePartialBytes (data : Bytes) (target : Nat) : Except DecompressError (Bytes × Nat) :=
  if target = 0 then .ok ([], 0)
  else do
    let decomp ← makeBytes target
    if data.length = 0 then pure (decomp, 0)
    else if target = 1 then do
      let b ← index data 0
      pure (decomp.set 0 b, if b ≠ 0 then 1 else 0)
    else do
      let (nonZeroBitset, ptr) ← bitsetDecodePartialBytes data ((target + 7) / 8)
      (List.range (8 * nonZeroBitset.length)).foldlM (decodeStep data nonZeroBitset) (decomp, ptr)
termination_by target
decreasing_by omega

/-- `bitsetDecodeBytes`: every byte of the input must be used. -/
def bitsetDecodeBytes (data : Bytes) (target : Nat) : Except DecompressError Bytes := do
  let (out, size) ← bitsetDecodePartialBytes data target
  if size ≠ data.length then .error .errUnreferencedData else pure out

/-- `DecompressBytes` with the source's `int` target; an input of the
target's length is copied into `make([]byte, len(data))`. -/
def DecompressBytes (data : Bytes) (target : Int) : Except DecompressError Bytes :=
  if (data.length : Int) > target then .error .errExceededTarget
  else if (data.length : Int) = target then (makeBytes data.length).map fun _ => data
  else bitsetDecodeBytes data target.toNat

end Lemochain.Bitutil
