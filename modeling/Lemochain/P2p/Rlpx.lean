import Lemochain.Rlp.Decode
import Lemochain.Lib.Keystream

/-!
# RLPx framing (`p2p/rlpx.go`)

`rlpxFrameRW.WriteMsg` writes a message as one frame: a 16-byte header
holding the frame size in 24 bits and `zeroHeader`, encrypted, then a MAC
of the header, then the frame content (the RLP of the message code and the
payload, zero-padded to a multiple of 16 bytes), encrypted, then a MAC of
the content. `ReadMsg` reads a frame back and checks both MACs before it
decrypts.

The cryptography is a parameter, `Ciphers`. `enc` and `dec` are AES-CTR
streams with the same key and the zero IV: one keystream, and a stream's
state is how far into it the stream is (`Lemochain.Keystream`). The block
cipher of the MAC secret is a function on a block. A Keccak-256 hash is the
bytes written to it so far, and its sum a function of them. Snappy is a
parameter as well (`Snappy`).

The connection is a list of bytes: `WriteMsg` returns the bytes it writes,
`ReadMsg` reads from the bytes ahead of it and returns those it leaves.
A peer that gets an error from `ReadMsg` closes the connection, so no state
is returned with an error.
-/

namespace Lemochain.P2p

open Lemochain.Rlp Lemochain.Keystream

/-- `Msg`, its payload as the bytes its reader holds. -/
structure Msg where
  Code : UInt64
  Size : UInt32
  Payload : Bytes
  deriving DecidableEq, Repr

/-- `maxUint24`, `^uint32(0) >> 8`. -/
def maxUint24 : Nat := 2 ^ 24 - 1

/-- `zeroHeader`, written in place of the header data. -/
def zeroHeader : Bytes := [0xC2, 0x80, 0x80]

/-- `putInt24`: the low 24 bits of `v`, big-endian. -/
def putInt24 (v : Nat) : Bytes := [(v >>> 16).toUInt8, (v >>> 8).toUInt8, v.toUInt8]

/-- `readInt24`. -/
def readInt24 (b : Bytes) : Nat :=
  (b.getD 2 0).toNat ||| (b.getD 1 0).toNat <<< 8 ||| (b.getD 0 0).toNat <<< 16

/-- What the secrets of a session fix: the keystream of AES-CTR under the
AES secret, the block cipher of the MAC secret (`aes.BlockSize` bytes out
of the first block of its input), and Keccak-256, whose sums are 32 bytes. -/
structure Ciphers where
  keystream : Nat → UInt8
  macEncrypt : Bytes → Bytes
  macEncrypt_length : ∀ b, (macEncrypt b).length = 16
  keccak : Bytes → Bytes
  keccak_length : ∀ b, (keccak b).length = 32

/-- The snappy functions `ReadMsg` and `WriteMsg` call. -/
structure Snappy where
  Encode : Bytes → Bytes
  DecodedLen : Bytes → Except String Nat
  Decode : Bytes → Except String Bytes

/-- `rlpxFrameRW` without its connection and its ciphers: the positions of
`enc` and `dec` in the keystream, what the egress and ingress MAC hashes
have been written, and whether snappy is on. -/
structure FrameRW where
  enc : Nat
  dec : Nat
  egressMAC : Bytes
  ingressMAC : Bytes
  snappy : Bool
  deriving DecidableEq, Repr

/-- The errors of `WriteMsg` and `ReadMsg`. -/
inductive FrameError where
  /-- `errPlainMessageTooLarge`, "message length >= 16MB". -/
  | errPlainMessageTooLarge
  /-- `errors.New(text)`. -/
  | new (text : String)
  /-- `io.EOF` of `io.ReadFull`: nothing left to read. -/
  | eof
  /-- `io.ErrUnexpectedEOF` of `io.ReadFull`: some bytes, not enough. -/
  | unexpectedEOF
  /-- An error of `rlp.Decode`. -/
  | rlp (e : StreamError)
  /-- An error of snappy. -/
  | snappy (e : String)
  deriving Repr

/-- `io.ReadFull` of `n` bytes from the connection. -/
def readFull (conn : Bytes) (n : Nat) : Except FrameError (Bytes × Bytes) :=
  if n ≤ conn.length then .ok (conn.take n, conn.drop n)
  else if conn = [] then .error .eof
  else .error .unexpectedEOF

/-- `updateMAC`: the hash is written its own sum encrypted and XORed with
the seed; the first 16 bytes of the sum after that are the MAC. Returns
what the hash has been written and the MAC. -/
def updateMAC (c : Ciphers) (mac seed : Bytes) : Bytes × Bytes :=
  let aesbuf := List.zipWith (· ^^^ ·) (c.macEncrypt (c.keccak mac)) seed
  (mac ++ aesbuf, (c.keccak (mac ++ aesbuf)).take 16)

/-- The zero bytes that pad a frame of `fsize` bytes to a multiple of 16
(`zero16[:16-padding]`). -/
def padding (fsize : Nat) : Bytes :=
  if fsize % 16 > 0 then List.replicate (16 - fsize % 16) 0 else []

/-- The part of `WriteMsg` after its size checks: the header, the header
MAC, the encrypted frame of `fsize` bytes with content `content`, and the
frame MAC, with the encryption stream and the egress MAC after them.

The frame goes through the tee: encrypted, then to the connection and the
egress MAC. -/
def writeFrame (c : Ciphers) (rw : FrameRW) (fsize : Nat) (content : Bytes) : FrameRW × Bytes :=
  let head := xorKeyStream c.keystream rw.enc (putInt24 fsize ++ zeroHeader ++ List.replicate 10 0)
  let (egress, headMAC) := updateMAC c rw.egressMAC head
  let frame := xorKeyStream c.keystream (rw.enc + 16) (content ++ padding fsize)
  let egress := egress ++ frame
  let (egress, frameMAC) := updateMAC c egress (c.keccak egress)
  ({ rw with enc := rw.enc + 16 + frame.length, egressMAC := egress },
    head ++ headMAC ++ frame ++ frameMAC)

/-- `rlpxFrameRW.WriteMsg`: the state after the message and the bytes
written.

The error of encoding a uint64 is dropped: there is none.
`uint32(len(ptype)) + msg.Size` wraps around. -/
def WriteMsg (c : Ciphers) (sn : Snappy) (rw : FrameRW) (msg : Msg) : Except FrameError (FrameRW × Bytes) := do
  let ptype := match EncodeToBytes (.uint msg.Code.toNat) with
    | .ok b => b
    | .error _ => []
  let msg ← if rw.snappy then
      if msg.Size.toNat > maxUint24 then throw .errPlainMessageTooLarge
      else
        let payload := sn.Encode msg.Payload
        pure { msg with Payload := payload, Size := payload.length.toUInt32 }
    else pure msg
  let fsize := (ptype.length + msg.Size.toNat) % 2 ^ 32
  if fsize > maxUint24 then throw (.new "message size overflows uint24")
  pure (writeFrame c rw fsize (ptype ++ msg.Payload))

/-- The part of `ReadMsg` that reads a frame: the header, checked against
its MAC and decrypted, the frame rounded up to 16 bytes and its MAC,
checked, and the frame decrypted and cut to its size; with the decryption
stream and the ingress MAC after them, and the bytes left on the
connection. -/
def readFrame (c : Ciphers) (rw : FrameRW) (conn : Bytes) : Except FrameError (Bytes × FrameRW × Bytes) := do
  let (headbuf, conn) ← readFull conn 32
  let (ingress, shouldMAC) := updateMAC c rw.ingressMAC (headbuf.take 16)
  if shouldMAC ≠ headbuf.drop 16 then throw (.new "bad header MAC")
  let fsize := readInt24 (xorKeyStream c.keystream rw.dec (headbuf.take 16))
  let rsize := if fsize % 16 > 0 then fsize + (16 - fsize % 16) else fsize
  let (framebuf, conn) ← readFull conn rsize
  let ingress := ingress ++ framebuf
  let fmacseed := c.keccak ingress
  let (macbuf, conn) ← readFull conn 16
  let (ingress, shouldMAC) := updateMAC c ingress fmacseed
  if shouldMAC ≠ macbuf then throw (.new "bad frame MAC")
  let framebuf := xorKeyStream c.keystream (rw.dec + 16) framebuf
  pure (framebuf.take fsize, { rw with dec := rw.dec + 16 + rsize, ingressMAC := ingress }, conn)

/-- `rlpxFrameRW.ReadMsg`: the message, the state after it and the bytes
left on the connection. `rlp.Decode` into a `uint64` is `decodeUint`, and
what it leaves of the content is the payload. -/
def ReadMsg (c : Ciphers) (sn : Snappy) (rw : FrameRW) (conn : Bytes) :
    Except FrameError (Msg × FrameRW × Bytes) := do
  let (content, rw, conn) ← readFrame c rw conn
  match (Stream.ofBytes content).uint 64 with
  | .error e => throw (.rlp (wrapStreamError e (.uint 64)))
  | .ok (code, s) =>
      let payload := s.r
      if rw.snappy then
        let size ← (sn.DecodedLen payload).mapError .snappy
        if size > maxUint24 then throw .errPlainMessageTooLarge
        let payload ← (sn.Decode payload).mapError .snappy
        pure (⟨code.toUInt64, size.toUInt32, payload⟩, rw, conn)
      else
        pure (⟨code.toUInt64, payload.length.toUInt32, payload⟩, rw, conn)

end Lemochain.P2p
