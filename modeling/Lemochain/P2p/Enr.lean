import Lemochain.Rlp.Decode
import Lemochain.Lib.BinarySearch
import Lemochain.Lib.Keccak
import Lemochain.Lib.Slice

/-!
# Node records (`p2p/enr/enr.go`, `entries.go`)

A `Record` holds a sequence number, a signature, its RLP encoding and its
key/value pairs sorted by key. `Set` finds with `sort.Search` the first pair
whose key is not below the entry's and overwrites its value, inserts a pair
before it, or appends one; it clears the signature. `Sign` increments the
sequence number, sets the identity scheme and the public key, and signs the
Keccak-256 hash of the list `[seq, k, v, ...]`; the record's encoding is the
list `[sig, seq, k, v, ...]`, at most `SizeLimit` bytes. `EncodeRLP` refuses
a record without a signature. `DecodeRLP` reads such a list back, rejects a
record over the size limit, keys out of order or repeated and a key without
a value, and verifies the signature.

The model:

* a Go string is its bytes, compared byte by byte as Go compares strings;
* an entry is its key and the RLP item its encoder writes; `Set` panics on
  an entry that cannot be encoded, and every item can be;
* an element of the `[]interface{}` that `appendPairs` builds is its
  encoding (a `rlp.RawValue` is written as it is), and `encodeItems` is the
  list of them;
* the primitives of `crypto` that the package calls are the fields of
  `Crypto`, over the type of private keys; the hash is `Keccak.keccak256`;
* a method that fails returns its error with the record it leaves.
-/

namespace Lemochain.Enr

open Lemochain.Rlp Lemochain.BinarySearch Lemochain.Slice

/-- `SizeLimit`: the largest encoded record, in bytes. -/
def SizeLimit : Nat := 300

/-- `ID_SECP256k1_KECCAK`, the default identity scheme. -/
def ID_SECP256k1_KECCAK : Bytes := "secp256k1-keccak".toUTF8.toList

/-- The errors of the package: its error values, `KeyError` with its key,
`fmt.Errorf("invalid public key")`, an error of the RLP stream and one of
`crypto.Sign`. -/
inductive EnrError where
  | errNoID
  | errInvalidSigsize
  | errInvalidSig
  | errNotSorted
  | errDuplicateKey
  | errIncompletePair
  | errTooBig
  | errEncodeUnsigned
  | errNotFound
  | invalidPublicKey
  | keyError (key : Bytes) (err : EnrError)
  | stream (err : StreamError)
  | sign (err : String)

/-- The primitives of `crypto` over the type of private keys. -/
structure Crypto (PrivateKey : Type) where
  /-- `crypto.Sign(hash, privkey)`: 65 bytes, the last one `v` -/
  Sign : Bytes → PrivateKey → Except String Bytes
  /-- `crypto.VerifySignature(pubkey, hash, signature)` -/
  VerifySignature : Bytes → Bytes → Bytes → Bool
  /-- `crypto.CompressPubkey(&privkey.PublicKey)` -/
  CompressPubkey : PrivateKey → Bytes

/-- `pair`: a key and its value, an RLP encoding (`rlp.RawValue`). -/
structure pair where
  k : Bytes
  v : Bytes
  deriving DecidableEq, Repr

/-- `Record`: `none` stands for a `nil` signature. -/
structure Record where
  seq : UInt64
  signature : Option Bytes
  raw : Bytes
  pairs : List pair
  deriving DecidableEq, Repr

/-- An `Entry`: its key, `ENRKey()`, and the item `rlp.EncodeToBytes` writes
for it. -/
structure Entry where
  ENRKey : Bytes
  item : Item

/-- The empty record, the zero value. -/
def Record.empty : Record := ⟨0, none, [], []⟩

/-- The entry of the identity scheme, `ID` with key `"id"`. -/
def ID (scheme : Bytes) : Entry := ⟨"id".toUTF8.toList, .str scheme⟩

/-- The entry of the public key, `Secp256k1` with key `"secp256k1"`: the
compressed key. -/
def Secp256k1 (pubkey : Bytes) : Entry := ⟨"secp256k1".toUTF8.toList, .str pubkey⟩

/-! ## Pairs -/

/-- The test of the searches of `Load` and `Set`: the key of pair `i` is
not below `key`. -/
def keyAtLeast (pairs : List pair) (key : Bytes) (i : Nat) : Bool :=
  match pairs[i]? with
  | some p => decide (p.k ≥ key)
  | none => false

/-- `sort.Search(len(r.pairs), ...)` of `Load` and `Set`. -/
def searchKey (pairs : List pair) (key : Bytes) : Nat := search (keyAtLeast pairs key) 0 pairs.length

namespace Record

/-- `Signed`. -/
def Signed (r : Record) : Bool := r.signature.isSome

/-- `SetSeq`: a new sequence number drops the signature. -/
def SetSeq (r : Record) (s : UInt64) : Record := { r with signature := none, raw := [], seq := s }

/-- `Load`: the value of the pair with the entry's key, decoded by the
entry's decoder `decode` (`rlp.DecodeBytes`). -/
def Load {α : Type} (r : Record) (key : Bytes) (decode : Bytes → Except StreamError α) : Except EnrError α :=
  match r.pairs[searchKey r.pairs key]? with
  | some p =>
      if p.k = key then
        match decode p.v with
        | .error err => .error (.keyError key (.stream err))
        | .ok v => .ok v
      else .error (.keyError key .errNotFound)
  | none => .error (.keyError key .errNotFound)

/-- `Set`: overwrite the value of the key, insert a pair before the first
greater key, or append one. -/
def Set (r : Record) (e : Entry) : Record :=
  let r := { r with signature := none, raw := [] }
  let blob := encode e.item
  let i := searchKey r.pairs e.ENRKey
  match r.pairs[i]? with
  | some p =>
      if p.k = e.ENRKey then
        { r with pairs := r.pairs.set i { p with v := blob } }
      else
        let pairs := r.pairs ++ [⟨[], []⟩]
        { r with pairs := (pairs.take (i + 1) ++ copy (pairs.drop (i + 1)) (pairs.drop i)).set i ⟨e.ENRKey, blob⟩ }
  | none => { r with pairs := r.pairs ++ [⟨e.ENRKey, blob⟩] }

/-- `EncodeRLP`: the bytes written, the record's encoding. -/
def EncodeRLP (r : Record) : Except EnrError Bytes :=
  if !r.Signed then .error .errEncodeUnsigned else .ok r.raw

/-- `appendPairs`: the encodings of the sequence number and of each key
and value, after `list`. -/
def appendPairs (r : Record) (list : List Bytes) : List Bytes :=
  list ++ encodeString (minimalBytes r.seq.toNat) :: r.pairs.flatMap fun p => [encodeString p.k, p.v]

end Record

/-- `rlp.Encode` of a `[]interface{}` whose elements encode to `items`. -/
def encodeItems (items : List Bytes) : Bytes := puthead 0xC0 0xF7 items.flatten.length ++ items.flatten

/-! ## Signing -/

section Signing

variable {PrivateKey : Type} (crypto : Crypto PrivateKey)

namespace Record

/-- `signAndEncode`: sign the hash of the list after the room left for the
signature, then encode the list with the signature in front. The signature
and the encoding are stored before the size is checked; the recovery byte
`v` is dropped from the signature. -/
def signAndEncode (r : Record) (privkey : PrivateKey) : Record × Option EnrError :=
  let list := r.appendPairs []
  match crypto.Sign (Keccak.keccak256 (encodeItems list)) privkey with
  | .error err => (r, some (.sign err))
  | .ok sig =>
      let sig := sig.take (sig.length - 1)
      let r := { r with signature := some sig, raw := encodeItems (encodeString sig :: list) }
      if r.raw.length > SizeLimit then (r, some .errTooBig) else (r, none)

/-- `Sign`. -/
def Sign (r : Record) (privkey : PrivateKey) : Record × Option EnrError :=
  let r := { r with seq := r.seq + 1 }
  let r := r.Set (ID ID_SECP256k1_KECCAK)
  let r := r.Set (Secp256k1 (crypto.CompressPubkey privkey))
  r.signAndEncode crypto privkey

/-- `verifySignature`: the identity scheme is the default one, the public
key has 33 bytes, and the signature is that key's on the hash of the list
`[seq, k, v, ...]`. -/
def verifySignature (r : Record) : Except EnrError Unit :=
  match r.Load (ID ID_SECP256k1_KECCAK).ENRKey (DecodeBytes 1 .string) with
  | .error err => .error err
  | .ok id =>
      match id with
      | .string id =>
          if id ≠ ID_SECP256k1_KECCAK then .error .errNoID
          else
            match r.Load (Secp256k1 []).ENRKey (DecodeBytes 1 (.slice (.uint 8))) with
            | .error err => .error err
            | .ok (.bytes entry) =>
                if entry.length ≠ 33 then .error .invalidPublicKey
                else
                  let h := Keccak.keccak256 (encodeItems (r.appendPairs []))
                  if !crypto.VerifySignature entry h (r.signature.getD []) then .error .errInvalidSig
                  else .ok ()
            | .ok _ => .error .invalidPublicKey
      | _ => .error .errNoID

end Record

end Signing

/-! ## Decoding -/

/-- An error of the stream as the package returns it. -/
def liftStream {α : Type} : Except StreamError α → Except EnrError α
  | .error err => .error (.stream err)
  | .ok v => .ok v

/-- The loop of `DecodeRLP` over the pairs, pair `i` after the key
`prevkey`, at most `fuel` more of them: a key, then its value, each key
above the one before. The end of the list before a key ends the loop. -/
def decodePairs : Nat → Nat → Bytes → Stream → List pair → Except EnrError (List pair × Stream)
  | 0, _, _, _, _ => .error (.stream .outOfFuel)
  | fuel + 1, i, prevkey, s, pairs =>
      match decodeString .string s with
      | .error .eol => .ok (pairs, s)
      | .error err => .error (.stream err)
      | .ok (kv, s) =>
          match s.Raw with
          | .error .eol => .error .errIncompletePair
          | .error err => .error (.stream err)
          | .ok (v, s) =>
              let k := match kv with
                | .string k => k
                | _ => []
              if i > 0 ∧ k = prevkey then .error .errDuplicateKey
              else if i > 0 ∧ k < prevkey then .error .errNotSorted
              else decodePairs fuel (i + 1) k s (pairs ++ [⟨k, v⟩])

section Decoding

variable {PrivateKey : Type} (crypto : Crypto PrivateKey)

/-- `DecodeRLP`: the record read from the stream, and the stream after it.
The record is read again from its own bytes, which bound the loop over the
pairs; on an error the receiver is left as it was. -/
def Record.DecodeRLP (s : Stream) : Except EnrError (Record × Stream) := do
  let (raw, s) ← liftStream s.Raw
  if raw.length > SizeLimit then throw .errTooBig
  let rs := Stream.ofBytes raw
  let (_, rs) ← liftStream rs.List
  let (sig, rs) ← liftStream (decodeByteSlice (.slice (.uint 8)) rs)
  let (seq, rs) ← liftStream (decodeUint (.uint 64) 64 rs)
  let (pairs, rs) ← decodePairs raw.length 0 [] rs []
  let _ ← liftStream rs.ListEnd
  let signature := match sig with
    | .bytes b => b
    | _ => []
  let seq := match seq with
    | .uint n => n.toUInt64
    | _ => 0
  let dec : Record := ⟨seq, some signature, raw, pairs⟩
  dec.verifySignature crypto
  pure (dec, s)

end Decoding

end Lemochain.Enr
