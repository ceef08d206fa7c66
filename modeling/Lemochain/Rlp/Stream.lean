import Lemochain.Rlp.Raw

/-!
# The decoding stream (`rlp/decode.go`)

`DecodeBytes` reads its input through a `Stream`: a reader over the bytes,
the number of bytes the input limit still allows, the kind, size and
single-byte value of the value ahead once its header has been read (`kind`
is `none` where the source stores `-1`, "re-armed"), and a stack of the
lists being read, each with its position and size.

The methods are those of the source, each returning the stream it leaves:

* `willRead` charges `n` bytes to the innermost list and to the input
  limit, and re-arms the kind;
* `readByte`, `readFull` and `readUint` read through it;
* `readKind` reads a header and rejects the non-canonical ones: a size
  below 56 in the long form, a size with a leading zero byte;
* `Kind` reads the header of the value ahead unless one is already read,
  and reports the end of the innermost list (`EOL`) or a value that does
  not fit in it;
* `Bytes`, `uint`, `List` and `ListEnd` read a string, an integer, the
  start and the end of a list.

An error of a method ends the decoding that called it: no caller of this
package reads the stream again after an error, except the one place of
`decodeByteArray` that drops the error of `Uint`, where the stream is left
as it was (see `Rlp.Decode`). So an error is returned here without the
stream, and the sticky `kinderr` of the source is not kept.
-/

namespace Lemochain.Rlp

/-- The Go types the decoder is made for (`makeDecoder`), with no struct
tags: `uint bits` for `uint8` to `uint64`, `bigInt` for `*big.Int`, `slice`
and `array` for `[]T` and `[n]T` (with `T = uint8` they are `[]byte` and
`[n]byte`), `struct` with its fields' names and types, and `iface` for the
empty interface. -/
inductive Ty where
  | uint (bits : Nat)
  | bigInt
  | string
  | slice (elem : Ty)
  | array (n : Nat) (elem : Ty)
  | struct (fields : List (String × Ty))
  | iface
  deriving Repr

/-- `isByte`: a type of kind `Uint8`, the element type of `[]byte` and
`[n]byte`. -/
def Ty.isByte : Ty → Bool
  | .uint 8 => true
  | _ => false

/-- A context pushed onto a `decodeError` on its way out: a struct field
(`.Name`), a list index (`[i]`), and at the top the type decoded into. -/
inductive ErrCtx where
  | field (name : String)
  | index (i : Nat)
  | target (typ : Ty)
  deriving Repr

/-- The errors of the stream and of the decoders: the error values of the
package, `io.EOF` and `io.ErrUnexpectedEOF`, a `decodeError` with its
message, its Go type and its contexts (innermost first), and the model's
own `outOfFuel`. -/
inductive StreamError where
  | eol
  | expectedString
  | expectedList
  | canonInt
  | canonSize
  | elemTooLarge
  | valueTooLarge
  | moreThanOneValue
  | notInList
  | notAtEOL
  | uintOverflow
  | eof
  | unexpectedEOF
  | decode (msg : String) (typ : Ty) (ctx : List ErrCtx)
  | outOfFuel
  deriving Repr

/-- `listpos`: how far into a list the stream is, and the list's size. -/
structure ListPos where
  pos : Nat
  size : Nat
  deriving DecidableEq, Repr

/-- `Stream`: what is left of the input, the input limit, the header read
ahead and the lists being read, innermost first. -/
structure Stream where
  r : Bytes
  remaining : Nat
  limited : Bool
  kind : Option Kind
  size : Nat
  byteval : UInt8
  stack : List ListPos
  deriving DecidableEq, Repr

namespace Stream

/-- `NewStream(bytes.NewReader(b), uint64(len(b)))`: a stream limited to
its input. -/
def ofBytes (b : Bytes) : Stream := ⟨b, b.length, true, none, 0, 0, []⟩

/-- `willRead`: charge `n` bytes to the innermost list and to the limit. -/
def willRead (s : Stream) (n : Nat) : Except StreamError Stream := do
  let s := { s with kind := none }
  let s ← match s.stack with
    | [] => pure s
    | tos :: rest =>
        if n > tos.size - tos.pos then throw .elemTooLarge
        else pure { s with stack := { tos with pos := tos.pos + n } :: rest }
  if s.limited then
    if n > s.remaining then throw .valueTooLarge
    else pure { s with remaining := s.remaining - n }
  else pure s

/-- `readByte`; the end of the reader is `io.ErrUnexpectedEOF`. -/
def readByte (s : Stream) : Except StreamError (UInt8 × Stream) := do
  let s ← s.willRead 1
  match s.r with
  | [] => throw .unexpectedEOF
  | b :: r => pure (b, { s with r := r })

/-- `readFull` of a buffer of `n` bytes. -/
def readFull (s : Stream) (n : Nat) : Except StreamError (Bytes × Stream) := do
  let s ← s.willRead n
  if s.r.length < n then throw .unexpectedEOF
  else pure (s.r.take n, { s with r := s.r.drop n })

/-- `readUint`: a big-endian integer of `size` bytes, at most eight; more
than one byte must not start with a zero. -/
def readUint (s : Stream) (size : Nat) : Except StreamError (Nat × Stream) :=
  match size with
  | 0 => .ok (0, { s with kind := none })
  | 1 => (s.readByte).map fun (b, s) => (b.toNat, s)
  | size => do
      let (buf, s) ← s.readFull size
      if buf.head? = some 0 then throw .canonSize
      else pure (beValue buf, s)

/-- `readKind`: the kind and size of the value ahead, from its header. An
error at the top level that is the end of the input becomes `io.EOF`. -/
def readKind (s : Stream) : Except StreamError (Kind × Nat × Stream) :=
  match s.readByte with
  | .error .unexpectedEOF => .error (if s.stack.isEmpty then .eof else .unexpectedEOF)
  | .error .valueTooLarge => .error (if s.stack.isEmpty then .eof else .valueTooLarge)
  | .error e => .error e
  | .ok (b, s) =>
      let s := { s with byteval := 0 }
      if b < 0x80 then .ok (.byte, 0, { s with byteval := b })
      else if b < 0xB8 then .ok (.string, (b - 0x80).toNat, s)
      else if b < 0xC0 then do
        let (size, s) ← s.readUint (b - 0xB7).toNat
        if size < 56 then throw .canonSize else pure (.string, size, s)
      else if b < 0xF8 then .ok (.list, (b - 0xC0).toNat, s)
      else do
        let (size, s) ← s.readUint (b - 0xF7).toNat
        if size < 56 then throw .canonSize else pure (.list, size, s)

/-- `Kind`: the header of the value ahead, read once.

At the top level the value must fit in the rest of the input. Inside a list
it must fit in what is left of the list. -/
def Kind (s : Stream) : Except StreamError (Rlp.Kind × Nat × Stream) :=
  match s.kind with
  | some k => .ok (k, s.size, s)
  | none =>
      if s.stack.head?.any (fun tos => tos.pos = tos.size) then .error .eol
      else
        match s.readKind with
        | .error e => .error e
        | .ok (k, size, s') =>
            match s'.stack with
            | [] => if s'.limited ∧ size > s'.remaining then .error .valueTooLarge
                else .ok (k, size, { s' with kind := some k, size := size })
            | tos :: _ => if size > tos.size - tos.pos then .error .elemTooLarge
                else .ok (k, size, { s' with kind := some k, size := size })

/-- `Bytes`: the content of a string, or the single byte. -/
def Bytes (s : Stream) : Except StreamError (Lemochain.Bytes × Stream) := do
  let (kind, size, s) ← s.Kind
  match kind with
  | .byte => pure ([s.byteval], { s with kind := none })
  | .string =>
      let (b, s) ← s.readFull size
      if size = 1 ∧ b.head?.any (· < 128) then throw .canonSize else pure (b, s)
  | .list => throw .expectedString

/-- `uint`: an unsigned integer of at most `maxbits` bits. -/
def uint (s : Stream) (maxbits : Nat) : Except StreamError (Nat × Stream) := do
  let (kind, size, s) ← s.Kind
  match kind with
  | .byte =>
      if s.byteval = 0 then throw .canonInt
      else pure (s.byteval.toNat, { s with kind := none })
  | .string =>
      if size > maxbits / 8 then throw .uintOverflow
      else
        match s.readUint size with
        | .error .canonSize => throw .canonInt
        | .error e => throw e
        | .ok (v, s) => if size > 0 ∧ v < 128 then throw .canonSize else pure (v, s)
  | .list => throw .expectedString

/-- `List`: enter the list ahead, returning its size. -/
def List (s : Stream) : Except StreamError (Nat × Stream) := do
  let (kind, size, s) ← s.Kind
  if kind ≠ .list then throw .expectedList
  else pure (size, { s with stack := ⟨0, size⟩ :: s.stack, kind := none, size := 0 })

/-- `ListEnd`: leave the innermost list, which must be read to its end; the
enclosing list advances by its size. -/
def ListEnd (s : Stream) : Except StreamError Stream :=
  match s.stack with
  | [] => .error .notInList
  | tos :: rest =>
      if tos.pos ≠ tos.size then .error .notAtEOL
      else
        let rest := match rest with
          | [] => []
          | p :: ps => { p with pos := p.pos + tos.size } :: ps
        .ok { s with stack := rest, kind := none, size := 0 }

/-- `Raw`: the value ahead with its header. A single byte is itself; the
header of a string or a list is read and gone, so a new one is written by
`puthead` in front of the content. -/
def Raw (s : Stream) : Except StreamError (Lemochain.Bytes × Stream) := do
  let (kind, size, s) ← s.Kind
  match kind with
  | .byte => pure ([s.byteval], { s with kind := none })
  | .string =>
      let (b, s) ← s.readFull size
      pure (puthead 0x80 0xB7 size ++ b, s)
  | .list =>
      let (b, s) ← s.readFull size
      pure (puthead 0xC0 0xF7 size ++ b, s)

end Stream

end Lemochain.Rlp
