import Lemochain.Common.Types
import Lemochain.Lib.Slice

/-!
# Whisper v6 messages (`whisper/whisperv6/message.go`)

The plaintext of a message is laid out as

  flags (1 byte) ‖ payload size (1 to 3 bytes, little endian) ‖ payload ‖ padding ‖ signature (65 bytes, if signed)

where the low two bits of the flags (`SizeMask`) give the width of the size
field and the bit `signatureFlag` says whether a signature ends the
plaintext. `NewSentMessage` writes the flags, the size field, the payload
and the padding; `sign` sets the flag and appends the signature of the
Keccak hash of what is there; `Wrap` encrypts the result to a public key
(ECIES) or under a symmetric key (AES-GCM, with the 12-byte nonce after
the ciphertext). `Envelope.Open` decrypts with the key of a filter and
`ValidateAndParse` cuts the plaintext up again.

The hash, the signatures and the two ciphers are the primitives of
`Crypto`. The random bytes that `appendPadding` and
`generateSecureRandomData` read are given as streams (`Entropy`), and the
random choices of `ecies.Encrypt` are part of its primitive. A slice
expression out of range is a run-time panic, `none` here (`Slice.get`): the
decrypted plaintext is a buffer of its own length, as `aesgcm.Open(nil, ...)`
and `ecies` allocate it. The proof of work of `Envelope.Seal` only sets
the nonce and the expiry of the envelope and is left out: `Wrap` returns
the data of the envelope.
-/

namespace Lemochain.Whisper

open Lemochain.Slice

/-! ## Constants (`doc.go`) -/

def flagsLength : Nat := 1
def signatureLength : Nat := 65
def aesKeyLength : Nat := 32
def aesNonceLength : Nat := 12
def padSizeLimit : Nat := 256
def MaxMessageSize : Nat := 10 * 1024 * 1024
/-- The mask of the width of the payload size field in the flags. -/
def SizeMask : UInt8 := 3
def signatureFlag : UInt8 := 4

/-- `ecies.ErrInvalidPublicKey`. -/
def ErrInvalidPublicKey : String := "ecies: invalid public key"

/-- The primitives the messages use, over the types of private and public
keys. -/
structure Crypto (PrivateKey PublicKey : Type) where
  Keccak256 : Bytes → Bytes
  /-- `crypto.Sign` of a hash -/
  Sign : Bytes → PrivateKey → Except String Bytes
  /-- `crypto.SigToPub`: `none` for its error, and for a panic, which
  `SigToPubKey` recovers -/
  SigToPub : Bytes → Bytes → Option PublicKey
  /-- the public key of a private key, `key.PublicKey` -/
  Public : PrivateKey → PublicKey
  ValidatePublicKey : PublicKey → Bool
  /-- `ecies.Encrypt`, its random choices made -/
  EciesEncrypt : PublicKey → Bytes → Except String Bytes
  /-- `ecies.ImportECDSA(key).Decrypt` -/
  EciesDecrypt : PrivateKey → Bytes → Except String Bytes
  /-- `aesgcm.Seal` under a key and a nonce -/
  GcmSeal : Bytes → Bytes → Bytes → Bytes
  /-- `aes.NewCipher`, `cipher.NewGCM` and `aesgcm.Open` under a key and a
  nonce -/
  GcmOpen : Bytes → Bytes → Bytes → Except String Bytes

/-- The random bytes read while a message is built: `crand.Read` for the
padding, and `crand.Read` and `mrand.Read` for the nonce of AES-GCM. -/
structure Entropy where
  pad : Nat → UInt8
  saltCrypto : Nat → UInt8
  saltMath : Nat → UInt8

/-- `MessageParams`, with the fields the message and its encryption read;
`none` stands for a `nil` key. -/
structure MessageParams (PrivateKey PublicKey : Type) where
  Src : Option PrivateKey
  Dst : Option PublicKey
  KeySym : Option Bytes
  Payload : Bytes
  Padding : Bytes

variable {PrivateKey PublicKey : Type}

def isMessageSigned (flags : UInt8) : Bool := (flags &&& signatureFlag) != 0

def containsOnlyZeros (data : Bytes) : Bool := data.all (· == 0)

def validateDataIntegrity (k : Bytes) (expectedSize : Nat) : Bool :=
  if k.length ≠ expectedSize then false
  else if expectedSize > 3 && containsOnlyZeros k then false
  else true

/-- One iteration of the loop of `bytesToUintLittleEndian`, on the sum and
the multiplier: `res += uint64(b[i]) * mul; mul *= 256`. -/
def littleEndianStep (acc : UInt64 × UInt64) (x : UInt8) : UInt64 × UInt64 :=
  (acc.1 + x.toUInt64 * acc.2, acc.2 * 256)

/-- `bytesToUintLittleEndian`: the sum of the bytes times powers of `256`,
in `uint64`. -/
def bytesToUintLittleEndian (b : Bytes) : UInt64 := (b.foldl littleEndianStep (0, 1)).1

/-- `binary.LittleEndian.PutUint32`. -/
def PutUint32 (v : UInt32) : Bytes :=
  [v.toUInt8, (v >>> 8).toUInt8, (v >>> 16).toUInt8, (v >>> 24).toUInt8]

/-! ## Building a message -/

/-- A message being built: its flags byte and what follows; `Raw` is both. -/
structure sentMessage where
  flags : UInt8
  body : Bytes

def sentMessage.Raw (msg : sentMessage) : Bytes := msg.flags :: msg.body

/-- The loop of `getSizeOfPayloadSizeField`: one byte more for each factor
`256` of the length. -/
def sizeLoop (i s : Nat) : Nat := if i ≥ 256 then sizeLoop (i / 256) (s + 1) else s
termination_by i
decreasing_by omega

def getSizeOfPayloadSizeField (payload : Bytes) : Nat := sizeLoop payload.length 1

/-- `addPayloadSizeField`: the low `fieldSize` bytes of the length, whose
width goes into the flags. `field[:fieldSize]` of the four bytes panics
past `4`. -/
def sentMessage.addPayloadSizeField (msg : sentMessage) (payload : Bytes) : Option sentMessage := do
  let fieldSize := getSizeOfPayloadSizeField payload
  let field ← Slice.get (PutUint32 payload.length.toUInt32) 0 fieldSize
  return { flags := msg.flags ||| fieldSize.toUInt8, body := msg.body ++ field }

/-- `appendPadding`: the padding of the parameters, or random bytes up to the
next multiple of `padSizeLimit`. -/
def sentMessage.appendPadding (msg : sentMessage) (params : MessageParams PrivateKey PublicKey)
    (ent : Entropy) : Except String sentMessage :=
  if params.Padding.length ≠ 0 then .ok { msg with body := msg.body ++ params.Padding }
  else
    let rawSize := flagsLength + getSizeOfPayloadSizeField params.Payload + params.Payload.length
    let rawSize := if params.Src.isSome then rawSize + signatureLength else rawSize
    let odd := rawSize % padSizeLimit
    let paddingSize := padSizeLimit - odd
    let pad := (List.range paddingSize).map ent.pad
    if !validateDataIntegrity pad paddingSize then
      .error ("failed to generate random padding of size " ++ toString paddingSize)
    else .ok { msg with body := msg.body ++ pad }

/-- `NewSentMessage`: `none` for the panic of `addPayloadSizeField`. -/
def NewSentMessage (params : MessageParams PrivateKey PublicKey) (ent : Entropy) :
    Option (Except String sentMessage) :=
  (sentMessage.addPayloadSizeField ⟨0, []⟩ params.Payload).map fun msg =>
    sentMessage.appendPadding { msg with body := msg.body ++ params.Payload } params ent

/-- `sign`: the flag is set before the hash is taken.

An already signed message is logged and left alone. -/
def sentMessage.sign (c : Crypto PrivateKey PublicKey) (msg : sentMessage) (key : PrivateKey) :
    Except String sentMessage :=
  if isMessageSigned msg.flags then .ok msg
  else
    let msg := { msg with flags := msg.flags ||| signatureFlag }
    let hash := c.Keccak256 msg.Raw
    match c.Sign hash key with
    | .error e => .error e
    | .ok signature => .ok { msg with body := msg.body ++ signature }

def sentMessage.encryptAsymmetric (c : Crypto PrivateKey PublicKey) (msg : sentMessage) (key : PublicKey) :
    Except String Bytes :=
  if !c.ValidatePublicKey key then .error "invalid public key provided for asymmetric encryption"
  else c.EciesEncrypt key msg.Raw

/-- `generateSecureRandomData`: the exclusive or of two random reads. -/
def generateSecureRandomData (crand mrand : Nat → UInt8) (length : Nat) : Except String Bytes :=
  let x := (List.range length).map crand
  let y := (List.range length).map mrand
  if !validateDataIntegrity x length then .error "crypto/rand failed to generate secure random data"
  else if !validateDataIntegrity y length then .error "math/rand failed to generate secure random data"
  else
    let res := List.zipWith (· ^^^ ·) x y
    if !validateDataIntegrity res length then .error "failed to generate secure random data"
    else .ok res

/-- `encryptSymmetric`: the ciphertext and then its nonce. -/
def sentMessage.encryptSymmetric (c : Crypto PrivateKey PublicKey) (msg : sentMessage) (key : Bytes)
    (ent : Entropy) : Except String Bytes :=
  if !validateDataIntegrity key aesKeyLength then
    .error ("invalid key provided for symmetric encryption, size: " ++ toString key.length)
  else
    match generateSecureRandomData ent.saltCrypto ent.saltMath aesNonceLength with
    | .error e => .error e
    | .ok salt => .ok (c.GcmSeal key salt msg.Raw ++ salt)

/-- `Wrap`: sign, then encrypt to `Dst` or under `KeySym`; the data of the
envelope. -/
def sentMessage.Wrap (c : Crypto PrivateKey PublicKey) (msg : sentMessage)
    (options : MessageParams PrivateKey PublicKey) (ent : Entropy) : Except String Bytes := do
  let msg ← match options.Src with
    | some key => msg.sign c key
    | none => pure msg
  match options.Dst, options.KeySym with
  | some dst, _ => msg.encryptAsymmetric c dst
  | none, some key => msg.encryptSymmetric c key ent
  | none, none => .error "unable to encrypt the message: neither symmetric nor assymmetric key provided"

/-! ## Opening a message -/

/-- `ReceivedMessage`, with the fields that decryption and parsing set. -/
structure ReceivedMessage (PublicKey : Type) where
  Raw : Bytes
  Payload : Bytes := []
  Padding : Bytes := []
  Signature : Bytes := []
  Salt : Bytes := []
  Src : Option PublicKey := none

/-- `hash`: the hash of what the signature covers. A plaintext shorter than
a signature makes the slice panic, which `SigToPubKey` recovers. -/
def ReceivedMessage.hash (c : Crypto PrivateKey PublicKey) (msg : ReceivedMessage PublicKey) : Option Bytes :=
  match msg.Raw with
  | [] => none
  | flags :: _ =>
    if isMessageSigned flags then
      if msg.Raw.length < signatureLength then none
      else some (c.Keccak256 (msg.Raw.take (msg.Raw.length - signatureLength)))
    else some (c.Keccak256 msg.Raw)

def ReceivedMessage.SigToPubKey (c : Crypto PrivateKey PublicKey) (msg : ReceivedMessage PublicKey) :
    Option PublicKey :=
  (msg.hash c).bind fun hash => c.SigToPub hash msg.Signature

/-- The second half of `ValidateAndParse`, from `beg := 1` on: the size
field, the payload and the padding before `end'`.

At most three bytes: `int` of the `uint64` is its value. -/
def ReceivedMessage.parsePayload (flags : UInt8) (end' : Nat) (msg : ReceivedMessage PublicKey) :
    Option (Bool × ReceivedMessage PublicKey) := do
  let beg := 1
  let sizeOfPayloadSizeField := (flags &&& SizeMask).toNat
  if sizeOfPayloadSizeField ≠ 0 then
    let field ← Slice.get msg.Raw beg (beg + sizeOfPayloadSizeField)
    let payloadSize := (bytesToUintLittleEndian field).toNat
    if payloadSize + 1 > end' then return (false, msg)
    let beg := beg + sizeOfPayloadSizeField
    let payload ← Slice.get msg.Raw beg (beg + payloadSize)
    let beg := beg + payloadSize
    let padding ← Slice.get msg.Raw beg end'
    return (true, { msg with Payload := payload, Padding := padding })
  else
    let padding ← Slice.get msg.Raw beg end'
    return (true, { msg with Padding := padding })

/-- `ValidateAndParse`: `none` for a panic. `end` is an `int`; it falls to at
most `1` after the signature is taken off exactly when the difference of
natural numbers does. -/
def ReceivedMessage.ValidateAndParse (c : Crypto PrivateKey PublicKey) (msg : ReceivedMessage PublicKey) :
    Option (Bool × ReceivedMessage PublicKey) :=
  match msg.Raw with
  | [] => some (false, msg)
  | flags :: _ =>
    if isMessageSigned flags then
      let end' := msg.Raw.length - signatureLength
      if end' ≤ 1 then some (false, msg)
      else do
        let signature ← Slice.get msg.Raw end' (end' + signatureLength)
        let msg := { msg with Signature := signature }
        let msg := { msg with Src := msg.SigToPubKey c }
        match msg.Src with
        | none => return (false, msg)
        | some _ => msg.parsePayload flags end'
    else msg.parsePayload flags msg.Raw.length

def ReceivedMessage.decryptSymmetric (c : Crypto PrivateKey PublicKey) (msg : ReceivedMessage PublicKey)
    (key : Bytes) : Except String (ReceivedMessage PublicKey) :=
  if msg.Raw.length < aesNonceLength then .error "missing salt or invalid payload in symmetric message"
  else
    let salt := msg.Raw.drop (msg.Raw.length - aesNonceLength)
    match c.GcmOpen key salt (msg.Raw.take (msg.Raw.length - aesNonceLength)) with
    | .error e => .error e
    | .ok decrypted => .ok { msg with Raw := decrypted, Salt := salt }

def ReceivedMessage.decryptAsymmetric (c : Crypto PrivateKey PublicKey) (msg : ReceivedMessage PublicKey)
    (key : PrivateKey) : Except String (ReceivedMessage PublicKey) :=
  match c.EciesDecrypt key msg.Raw with
  | .error e => .error e
  | .ok decrypted => .ok { msg with Raw := decrypted }

/-- An envelope, with the field that opening reads. -/
structure Envelope where
  Data : Bytes

/-- A filter, with its keys; `none` stands for a `nil` key. -/
structure Filter (PrivateKey : Type) where
  KeyAsym : Option PrivateKey
  KeySym : Option Bytes

/-- `OpenAsymmetric`: decrypt with the private key; a message encrypted
to another key is no message for this filter. -/
def Envelope.OpenAsymmetric (c : Crypto PrivateKey PublicKey) (e : Envelope) (key : PrivateKey) :
    Except String (ReceivedMessage PublicKey) :=
  match ReceivedMessage.decryptAsymmetric c { Raw := e.Data } key with
  | .ok message => .ok message
  | .error err =>
    if err = ErrInvalidPublicKey then .error err
    else .error ("unable to open envelope, decrypt failed: " ++ err)

def Envelope.OpenSymmetric (c : Crypto PrivateKey PublicKey) (e : Envelope) (key : Bytes) :
    Except String (ReceivedMessage PublicKey) :=
  ReceivedMessage.decryptSymmetric c { Raw := e.Data } key

/-- `Open`: the outer `none` is a panic, the inner one a `nil` message.

The API forbids filters with both keys. -/
def Envelope.Open (c : Crypto PrivateKey PublicKey) (e : Envelope) :
    Option (Filter PrivateKey) → Option (Option (ReceivedMessage PublicKey))
  | none => some none
  | some watcher =>
    if watcher.KeyAsym.isSome && watcher.KeySym.isSome then some none
    else
      let msg : Option (ReceivedMessage PublicKey) :=
        match watcher.KeyAsym, watcher.KeySym with
        | some key, _ => (e.OpenAsymmetric c key).toOption
        | none, some key => (e.OpenSymmetric c key).toOption
        | none, none => none
      match msg with
      | none => some none
      | some msg => (msg.ValidateAndParse c).map fun r => if r.1 then some r.2 else none

end Lemochain.Whisper
