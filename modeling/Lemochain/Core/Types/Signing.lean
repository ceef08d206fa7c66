import Lemochain.Lib.Keccak
import Lemochain.Vm.Contracts

/-!
# Transaction signers (`core/types/transaction_signing.go`)

A signature `R ‖ S ‖ v` with the recovery id `v ∈ {0, 1}` goes into a
transaction as the numbers `R`, `S` and `V`. The Homestead and Frontier
signers set `V = v + 27`; the EIP-155 signer of a chain id `c ≠ 0` sets
`V = v + 35 + 2 c`, so that `V` carries the chain id (`deriveChainId`) and
replays on another chain are refused (`ErrInvalidChainId`). `Sender` recovers
the address with `recoverPlain`, from the signing hash of the signer and the
recovery byte `V - 27` of the Homestead form.

The signing hash is the Keccak-256 hash of the RLP list of the fields
(`rlpHash`), computed by the models of `Lemochain.Rlp` and
`Lemochain.Keccak`. The curve is abstract (`Secp256k1`): `crypto.Sign`,
`crypto.Ecrecover` and the encoding of a public key. A `*big.Int` of a
transaction is a natural number; the recovery value `V - 2 c - 8` of
`EIP155Signer.Sender` is an integer, since it can fall below zero. A panic
(a signature of another length, a slice bound below zero) is `none`.

`types.Sender` caches the sender with the signer that derived it, in the
field `from` of the transaction (`fromCache` here).

## Main results

* `eip155_signature_values`: for a chain id `c ≥ 1`, `V = v + 35 + 2 c`, the
  transaction is protected, its chain id is `c`, the signer of `c` recovers
  with the byte `v + 27`, and the signer of any other chain id refuses it;
  for `c = 0`, `V` is 27 or 28 and the Homestead path recovers.
* `Sender_SignTx`: with primitives that recover what they sign, the signer
  of `c ≥ 1` recovers the address of the key that `SignTx` signed with.
* `senders_uncached`: the cache of `types.Sender` never changes an answer.
-/

namespace Lemochain.Types

open Lemochain.Rlp Lemochain.Vm Lemochain.Keccak Lemochain.Math Lemochain.Abi

/-- `ErrInvalidChainId`. -/
def ErrInvalidChainId : String := "invalid chain id for signer"

/-- `ErrInvalidSig`. -/
def ErrInvalidSig : String := "invalid transaction v, r, s values"

/-- `secp256k1_N`, the order of the curve. -/
def secp256k1_N : Nat := 0xfffffffffffffffffffffffffffffffebaaedce6af48a03bbfd25e8cd0364141

/-- `secp256k1_halfN`. -/
def secp256k1_halfN : Nat := secp256k1_N / 2

/-- The primitives of the curve over a type of private keys. -/
structure Secp256k1 (PrivateKey : Type) where
  /-- `crypto.Sign` of a hash: `R ‖ S ‖ v` -/
  Sign : Bytes → PrivateKey → Except String Bytes
  /-- `crypto.Ecrecover`: the public key that signed a hash, uncompressed -/
  Ecrecover : Bytes → Bytes → Except String Bytes
  /-- `crypto.FromECDSAPub` of the public key of a private key -/
  PublicBytes : PrivateKey → Bytes

variable {PrivateKey : Type}

/-- `crypto.ValidateSignatureValues`.

Reject upper range of s values (ECDSA malleability). -/
def ValidateSignatureValues (v : UInt8) (r s : Nat) (homestead : Bool) : Bool :=
  if r < 1 ∨ s < 1 then false
  else if homestead ∧ s > secp256k1_halfN then false
  else decide (r < secp256k1_N) && decide (s < secp256k1_N) && (v == 0 || v == 1)

/-- The address of an uncompressed public key: the last 20 bytes of the hash
of its coordinates. -/
def pubToAddress (pub : Bytes) : Address :=
  ⟨(keccak256 (pub.drop 1)).drop 12, by rw [List.length_drop, length_keccak256]; rfl⟩

/-- `txdata`, with the fields the signers read. -/
structure txdata where
  AccountNonce : UInt64
  Price : Nat
  GasLimit : UInt64
  Recipient : Option Address
  Amount : Nat
  Payload : Bytes
  V : Nat
  R : Nat
  S : Nat

/-- `EIP155Signer`; `chainIdMul` is twice the chain id, as `NewEIP155Signer`
sets it. -/
structure EIP155Signer where
  chainId : Nat
  chainIdMul : Nat
  chainIdMul_eq : chainIdMul = chainId * 2

/-- `NewEIP155Signer`. -/
def NewEIP155Signer (chainId : Nat) : EIP155Signer := ⟨chainId, chainId * 2, rfl⟩

/-- The implementations of the `Signer` interface. -/
inductive Signer where
  | eip155 (s : EIP155Signer)
  | homestead
  | frontier

/-- `Transaction`, with the data and the sender cache. -/
structure Transaction where
  data : txdata
  fromCache : Option (Signer × Address)

/-- `newTransaction`: an unsigned transaction, `V`, `R` and `S` zero; a nil
amount or price is zero. -/
def newTransaction (nonce : UInt64) (recipient : Option Address) (amount : Nat) (gasLimit : UInt64) (gasPrice : Nat)
    (data : Bytes) : Transaction :=
  ⟨⟨nonce, gasPrice, gasLimit, recipient, amount, data, 0, 0, 0⟩, none⟩

/-- `NewTransaction`. -/
def NewTransaction (nonce : UInt64) (recipient : Address) (amount : Nat) (gasLimit : UInt64) (gasPrice : Nat)
    (data : Bytes) : Transaction :=
  newTransaction nonce (some recipient) amount gasLimit gasPrice data

/-- `NewContractCreation`. -/
def NewContractCreation (nonce : UInt64) (amount : Nat) (gasLimit : UInt64) (gasPrice : Nat) (data : Bytes) :
    Transaction :=
  newTransaction nonce none amount gasLimit gasPrice data

/-- `deriveChainId`: the `uint64` path subtracts `35` in `uint64`. -/
def deriveChainId (v : Nat) : Nat :=
  if BitLen v ≤ 64 then
    let v := v.toUInt64
    if v = 27 ∨ v = 28 then 0 else ((v - 35) / 2).toNat
  else (v - 35) / 2

/-- `isProtectedV`.

Anything not 27 or 28 are considered unprotected. -/
def isProtectedV (V : Nat) : Bool :=
  if BitLen V ≤ 8 then
    let v := V.toUInt64
    v != 27 && v != 28
  else true

/-- `Transaction.ChainId`. -/
def Transaction.ChainId (tx : Transaction) : Nat := deriveChainId tx.data.V

/-- `Transaction.Protected`. -/
def Transaction.Protected (tx : Transaction) : Bool := isProtectedV tx.data.V

/-- `rlpHash`. -/
def rlpHash (x : Item) : Hash := BytesToHash (keccak256 (encode x))

/-- A number as RLP writes it: its minimal bytes, none for zero. -/
def bigItem (n : Nat) : Item := .str (bigIntBytes n)

/-- The fields that every signing hash covers; a nil recipient is the empty
string. -/
def txdata.signedFields (d : txdata) : List Item :=
  [bigItem d.AccountNonce.toNat, bigItem d.Price, bigItem d.GasLimit.toNat,
    .str (match d.Recipient with | some a => a.bytes | none => []), bigItem d.Amount, .str d.Payload]

/-- `Signer.Hash`: the EIP-155 hash also covers the chain id and two zeros. -/
def Signer.Hash : Signer → Transaction → Hash
  | .eip155 s, tx => rlpHash (.list (tx.data.signedFields ++ [bigItem s.chainId, bigItem 0, bigItem 0]))
  | .homestead, tx => rlpHash (.list tx.data.signedFields)
  | .frontier, tx => rlpHash (.list tx.data.signedFields)

/-- `FrontierSigner.SignatureValues`; `v` is a byte, `sig[64] + 27`. -/
def frontierSignatureValues (sig : Bytes) : Option (Nat × Nat × Nat) :=
  if sig.length ≠ 65 then none
  else some (beValue (sig.take 32), beValue ((sig.drop 32).take 32), beValue [sig.getD 64 0 + 27])

/-- `Signer.SignatureValues`: `R`, `S` and `V`. -/
def Signer.SignatureValues : Signer → Transaction → Bytes → Option (Nat × Nat × Nat)
  | .eip155 s, _, sig => (frontierSignatureValues sig).map fun (R, S, V) =>
      if s.chainId ≠ 0 then (R, S, (sig.getD 64 0 + 35).toNat + s.chainIdMul) else (R, S, V)
  | .homestead, _, sig => frontierSignatureValues sig
  | .frontier, _, sig => frontierSignatureValues sig

/-- `Transaction.WithSignature`: a copy with the signature values and no
cache. -/
def Transaction.WithSignature (tx : Transaction) (signer : Signer) (sig : Bytes) : Option Transaction :=
  (signer.SignatureValues tx sig).map fun (r, s, v) => ⟨{ tx.data with R := r, S := s, V := v }, none⟩

/-- `recoverPlain`: the address of the key that signed `sighash`.

`copy(sig[32-len(r):32], r)` panics on a negative bound. -/
def recoverPlain (c : Secp256k1 PrivateKey) (sighash : Hash) (R S : Nat) (Vb : Int) (homestead : Bool) :
    Option (Except String Address) :=
  if BitLen Vb.natAbs > 8 then some (.error ErrInvalidSig)
  else
    let V : UInt8 := (Vb.natAbs.toUInt64 - 27).toUInt8
    if !ValidateSignatureValues V R S homestead then some (.error ErrInvalidSig)
    else
      let r := bigIntBytes R
      let s := bigIntBytes S
      if 32 < r.length ∨ 32 < s.length then none
      else
        let sig := List.replicate (32 - r.length) 0 ++ r ++ (List.replicate (32 - s.length) 0 ++ s) ++ [V]
        some (match c.Ecrecover sighash.bytes sig with
          | .error e => .error e
          | .ok pub => if pub.head? ≠ some 4 then .error "invalid public key" else .ok (pubToAddress pub))

/-- `HomesteadSigner.Sender`. -/
def homesteadSender (c : Secp256k1 PrivateKey) (tx : Transaction) : Option (Except String Address) :=
  recoverPlain c (Signer.homestead.Hash tx) tx.data.R tx.data.S tx.data.V true

/-- `Signer.Sender`. -/
def Signer.Sender (c : Secp256k1 PrivateKey) : Signer → Transaction → Option (Except String Address)
  | .eip155 s, tx =>
      if !tx.Protected then homesteadSender c tx
      else if tx.ChainId ≠ s.chainId then some (.error ErrInvalidChainId)
      else recoverPlain c ((Signer.eip155 s).Hash tx) tx.data.R tx.data.S ((tx.data.V : Int) - s.chainIdMul - 8) true
  | .homestead, tx => homesteadSender c tx
  | .frontier, tx => recoverPlain c (Signer.frontier.Hash tx) tx.data.R tx.data.S tx.data.V false

/-- `Signer.Equal`: the same implementation, and for EIP-155 the same chain
id. -/
def Signer.Equal : Signer → Signer → Bool
  | .eip155 s, .eip155 s2 => s2.chainId == s.chainId
  | .homestead, .homestead => true
  | .frontier, .frontier => true
  | _, _ => false

/-- `types.Sender`: the cached sender if the cached signer is equal to this
one; otherwise the sender derived now, then cached. -/
def Sender (c : Secp256k1 PrivateKey) (signer : Signer) (tx : Transaction) :
    Option (Except String Address × Transaction) :=
  let derive : Option (Except String Address × Transaction) :=
    match signer.Sender c tx with
    | none => none
    | some (.error e) => some (.error e, tx)
    | some (.ok addr) => some (.ok addr, { tx with fromCache := some (signer, addr) })
  match tx.fromCache with
  | some (cached, addr) => if cached.Equal signer then some (.ok addr, tx) else derive
  | none => derive

/-- `SignTx`: sign the hash of the signer and put the signature in. -/
def SignTx (c : Secp256k1 PrivateKey) (tx : Transaction) (s : Signer) (prv : PrivateKey) :
    Option (Except String Transaction) :=
  match c.Sign (s.Hash tx).bytes prv with
  | .error e => some (.error e)
  | .ok sig => (tx.WithSignature s sig).map .ok

/-! ## The value `V` -/

theorem toNat_toUInt64_of_lt {n : Nat} (h : n < 2 ^ 64) : n.toUInt64.toNat = n := by
  rw [Nat.toUInt64_eq, UInt64.toNat_ofNat', Nat.mod_eq_of_lt h]

theorem toUInt64_ne {n : Nat} (hn : n < 2 ^ 64) {k : UInt64} (h : n ≠ k.toNat) : n.toUInt64 ≠ k :=
  fun he => h (by rw [← he, toNat_toUInt64_of_lt hn])

/-- The chain id read back from an EIP-155 `V`, on both paths.

The `uint64` path: `V` fits, and `V - 35` does not wrap. -/
theorem deriveChainId_eip155 {v : Nat} (hv : v ≤ 1) (c : Nat) : deriveChainId (v + 35 + c * 2) = c := by
  unfold deriveChainId
  split
  · next hbits =>
      have hlt : v + 35 + c * 2 < 2 ^ 64 := (BitLen_le_iff _ _).mp hbits
      have hV := toNat_toUInt64_of_lt hlt
      dsimp only
      have h27 : (v + 35 + c * 2).toUInt64 ≠ 27 := toUInt64_ne hlt (by simp only [UInt64.reduceToNat]; omega)
      have h28 : (v + 35 + c * 2).toUInt64 ≠ 28 := toUInt64_ne hlt (by simp only [UInt64.reduceToNat]; omega)
      rw [if_neg (not_or.mpr ⟨h27, h28⟩)]
      have h35 : (35 : UInt64) ≤ (v + 35 + c * 2).toUInt64 := by
        rw [UInt64.le_iff_toNat_le, hV]
        simp only [UInt64.reduceToNat]
        omega
      rw [UInt64.toNat_div, UInt64.toNat_sub_of_le _ _ h35, hV]
      simp only [UInt64.reduceToNat]
      omega
  · omega

/-- A `V` above 28 is protected. -/
theorem isProtectedV_of_le {V : Nat} (h : 29 ≤ V) : isProtectedV V = true := by
  unfold isProtectedV
  split
  · next hbits =>
      have hlt : V < 2 ^ 64 := Nat.lt_trans ((BitLen_le_iff _ _).mp hbits) (by decide)
      have h27 : V.toUInt64 ≠ 27 := toUInt64_ne hlt (by simp only [UInt64.reduceToNat]; omega)
      have h28 : V.toUInt64 ≠ 28 := toUInt64_ne hlt (by simp only [UInt64.reduceToNat]; omega)
      simp [h27, h28]
  · rfl

theorem isProtectedV_27 : isProtectedV 27 = false := by decide

theorem isProtectedV_28 : isProtectedV 28 = false := by decide

/-! ## The signature values -/

theorem frontierSignatureValues_of_length {sig : Bytes} (h : sig.length = 65) :
    frontierSignatureValues sig =
      some (beValue (sig.take 32), beValue ((sig.drop 32).take 32), (sig.getD 64 0 + 27).toNat) := by
  rw [frontierSignatureValues, if_neg (by omega)]
  simp [beValue]

/-- What `WithSignature` of the EIP-155 signer of `c` writes for a signature
with the recovery id `v ≤ 1`.

The byte sums stay below 256, so the only difference is the chain id branch. -/
theorem WithSignature_eip155 (tx : Transaction) (c : Nat) {sig : Bytes} (hsig : sig.length = 65)
    (hv : sig.getD 64 0 ≤ 1) :
    tx.WithSignature (.eip155 (NewEIP155Signer c)) sig =
      some ⟨{ tx.data with
        R := beValue (sig.take 32), S := beValue ((sig.drop 32).take 32),
        V := (if c ≠ 0 then (sig.getD 64 0).toNat + 35 + c * 2 else (sig.getD 64 0).toNat + 27) }, none⟩ := by
  have hv' : (sig.getD 64 0).toNat ≤ 1 := UInt8.le_iff_toNat_le.mp hv
  rw [Transaction.WithSignature, Signer.SignatureValues, frontierSignatureValues_of_length hsig]
  by_cases hc : c = 0
  · subst hc
    simp only [List.getD_eq_getElem?_getD] at hv'
    simp [NewEIP155Signer]
    omega
  · simp only [List.getD_eq_getElem?_getD] at hv'
    simp [NewEIP155Signer, hc]
    omega

/-! ## The senders of the EIP-155 signer -/

theorem Sender_eip155_of_unprotected (c : Secp256k1 PrivateKey) (s : EIP155Signer) {tx : Transaction}
    (h : tx.Protected = false) : (Signer.eip155 s).Sender c tx = homesteadSender c tx := by
  rw [Signer.Sender, h]
  rfl

theorem Sender_eip155_of_chainId_ne (c : Secp256k1 PrivateKey) (s : EIP155Signer) {tx : Transaction}
    (hp : tx.Protected = true) (h : tx.ChainId ≠ s.chainId) :
    (Signer.eip155 s).Sender c tx = some (.error ErrInvalidChainId) := by
  rw [Signer.Sender, hp, if_neg (by decide), if_pos h]

theorem Sender_eip155_of_chainId_eq (c : Secp256k1 PrivateKey) (s : EIP155Signer) {tx : Transaction}
    (hp : tx.Protected = true) (h : tx.ChainId = s.chainId) :
    (Signer.eip155 s).Sender c tx =
      recoverPlain c ((Signer.eip155 s).Hash tx) tx.data.R tx.data.S ((tx.data.V : Int) - s.chainIdMul - 8) true := by
  rw [Signer.Sender, hp, if_neg (by decide), if_neg (not_not.mpr h)]

/-- An EIP-155 `V` of a chain id `c ≥ 1` is protected and carries `c`. -/
theorem protected_chainId_of_V {t : Transaction} {v c : Nat} (hv : v ≤ 1) (hc : 1 ≤ c)
    (hV : t.data.V = v + 35 + c * 2) : t.Protected = true ∧ t.ChainId = c := by
  constructor
  · rw [Transaction.Protected, hV]
    exact isProtectedV_of_le (by omega)
  · rw [Transaction.ChainId, hV]
    exact deriveChainId_eip155 hv c

/-- EIP-155 signature values and replay protection. For a chain id `c ≥ 1`
the signer writes `V = v + 35 + 2 c`; the transaction is then protected, its
chain id is `c`, the signer of `c` recovers with `V - 2 c - 8 = v + 27`, and
the signer of every other chain id refuses it. For `c = 0` the value is the
Homestead `v + 27` and the Homestead path recovers.

A protected `V`, at least 37, that carries `c` on both paths of
`deriveChainId`. The Homestead `V`, 27 or 28. -/
theorem eip155_signature_values (C : Secp256k1 PrivateKey) (tx : Transaction) (c : Nat) {sig : Bytes}
    (hsig : sig.length = 65) (hv : sig.getD 64 0 ≤ 1) :
    ∃ t, tx.WithSignature (.eip155 (NewEIP155Signer c)) sig = some t ∧
      (1 ≤ c →
        t.data.V = (sig.getD 64 0).toNat + 35 + 2 * c ∧ t.Protected = true ∧ t.ChainId = c ∧
        (Signer.eip155 (NewEIP155Signer c)).Sender C t =
          recoverPlain C ((Signer.eip155 (NewEIP155Signer c)).Hash t) t.data.R t.data.S
            ((sig.getD 64 0).toNat + 27 : Nat) true ∧
        ∀ c', c' ≠ c → (Signer.eip155 (NewEIP155Signer c')).Sender C t = some (.error ErrInvalidChainId)) ∧
      (c = 0 →
        (t.data.V = 27 ∨ t.data.V = 28) ∧ t.Protected = false ∧
        (Signer.eip155 (NewEIP155Signer 0)).Sender C t = homesteadSender C t) := by
  have hr : (sig.getD 64 0).toNat ≤ 1 := UInt8.le_iff_toNat_le.mp hv
  obtain ⟨t, ht, hV⟩ : ∃ t, tx.WithSignature (.eip155 (NewEIP155Signer c)) sig = some t ∧
      t.data.V = if c ≠ 0 then (sig.getD 64 0).toNat + 35 + c * 2 else (sig.getD 64 0).toNat + 27 :=
    ⟨_, WithSignature_eip155 tx c hsig hv, rfl⟩
  refine ⟨t, ht, fun hc => ?_, fun hc => ?_⟩
  · rw [if_pos (by omega)] at hV
    obtain ⟨hp, hchain⟩ := protected_chainId_of_V hr hc hV
    refine ⟨by omega, hp, hchain, ?_, fun c' hc' => ?_⟩
    · rw [Sender_eip155_of_chainId_eq C _ hp hchain, hV]
      congr 1
      simp only [NewEIP155Signer]
      push_cast
      omega
    · exact Sender_eip155_of_chainId_ne C _ hp (fun h => hc' (hchain.symm.trans h).symm)
  · rw [if_neg (by omega)] at hV
    have hV' : t.data.V = 27 ∨ t.data.V = 28 := by omega
    have hp : t.Protected = false := by
      rw [Transaction.Protected]
      rcases hV' with h | h <;> rw [h]
      exacts [isProtectedV_27, isProtectedV_28]
    subst hc
    exact ⟨hV', hp, Sender_eip155_of_unprotected C _ hp⟩

/-- A signature with `R = S = 2 ^ 248` and the recovery id 0. -/
def fixedSig : Bytes := [1] ++ List.replicate 31 0 ++ [1] ++ List.replicate 31 0 ++ [0]

/-- Primitives over one key that always sign with `fixedSig` and recover the
key `[4]` from it; they are lawful (`fixedKeyCrypto_lawful`). -/
def fixedKeyCrypto : Secp256k1 Unit where
  Sign := fun _ _ => .ok fixedSig
  Ecrecover := fun _ sig => if sig = fixedSig then .ok [4] else .error "invalid signature"
  PublicBytes := fun _ => [4]

theorem eip155_signature_values_chain_one :
    fixedSig.length = 65 ∧ fixedSig.getD 64 0 ≤ 1 ∧
    ∃ t, (⟨⟨0, 0, 0, none, 0, [], 0, 0, 0⟩, none⟩ : Transaction).WithSignature (.eip155 (NewEIP155Signer 1))
        fixedSig = some t ∧
      (1 ≤ 1 →
        t.data.V = (fixedSig.getD 64 0).toNat + 35 + 2 * 1 ∧ t.Protected = true ∧ t.ChainId = 1 ∧
        (Signer.eip155 (NewEIP155Signer 1)).Sender fixedKeyCrypto t =
          recoverPlain fixedKeyCrypto ((Signer.eip155 (NewEIP155Signer 1)).Hash t) t.data.R t.data.S
            ((fixedSig.getD 64 0).toNat + 27 : Nat) true ∧
        ∀ c', c' ≠ 1 → (Signer.eip155 (NewEIP155Signer c')).Sender fixedKeyCrypto t =
          some (.error ErrInvalidChainId)) ∧
      (1 = 0 →
        (t.data.V = 27 ∨ t.data.V = 28) ∧ t.Protected = false ∧
        (Signer.eip155 (NewEIP155Signer 0)).Sender fixedKeyCrypto t = homesteadSender fixedKeyCrypto t) :=
  ⟨rfl, by decide, eip155_signature_values fixedKeyCrypto _ 1 rfl (by decide)⟩

/-! ## Recovery from the signature values -/

theorem le_one_of_ValidateSignatureValues {v : UInt8} {r s : Nat} {homestead : Bool}
    (h : ValidateSignatureValues v r s homestead = true) : v ≤ 1 := by
  unfold ValidateSignatureValues at h
  split at h
  · cases h
  · split at h
    · cases h
    · simp only [Bool.and_eq_true, Bool.or_eq_true, beq_iff_eq] at h
      rcases h.2 with rfl | rfl <;> decide

/-- The byte `recoverPlain` takes from `v + 27` is `v`. -/
theorem recoveryByte_of_le_one : ∀ v : UInt8, v ≤ 1 →
    ((((v.toNat + 27 : Nat) : Int).natAbs.toUInt64 - 27).toUInt8) = v := by
  intro v hv
  have hv' : v.toNat ≤ 1 := UInt8.le_iff_toNat_le.mp hv
  obtain h | h : v.toNat = (0 : UInt8).toNat ∨ v.toNat = (1 : UInt8).toNat := by simp only [UInt8.reduceToNat]; omega
  all_goals rw [UInt8.toNat_inj.mp h]; decide

theorem LeftPadBytes_of_le {s : Bytes} {n : Nat} (h : s.length ≤ n) :
    List.replicate (n - s.length) 0 ++ s = LeftPadBytes s n := by
  unfold LeftPadBytes
  split
  · next hle => rw [show n - s.length = 0 by omega, List.replicate_zero, List.nil_append]
  · rfl

/-- A word read as a number and padded back to its width is the word. -/
theorem pad_bigIntBytes_beValue {s : Bytes} {n : Nat} (h : s.length = n) :
    List.replicate (n - (bigIntBytes (beValue s)).length) 0 ++ bigIntBytes (beValue s) = s := by
  have hlt : beValue s < 256 ^ n := h ▸ beValue_lt s
  have hlen : (bigIntBytes (beValue s)).length ≤ n :=
    length_bigIntBytes_le (by rw [Nat.pow_mul]; exact hlt)
  rw [LeftPadBytes_of_le hlen, LeftPadBytes_bigIntBytes hlt, ← h, bigEndian_beValue]

theorem signature_split {sig : Bytes} (h : sig.length = 65) :
    sig.take 32 ++ (sig.drop 32).take 32 ++ [sig.getD 64 0] = sig := by
  obtain ⟨x, hx⟩ := List.length_eq_one_iff.mp (show (sig.drop 64).length = 1 by simp [h])
  have hx64 : sig.getD 64 0 = x := by
    have := congrArg (·[0]?) hx
    simp only [List.getElem?_drop, List.getElem?_cons_zero] at this
    simp [this]
  rw [hx64, ← hx, show sig.drop 64 = (sig.drop 32).drop 32 by rw [List.drop_drop], List.append_assoc,
    List.take_append_drop, List.take_append_drop]

theorem length_bigIntBytes_beValue_take (s : Bytes) :
    (bigIntBytes (beValue (s.take 32))).length ≤ 32 :=
  length_bigIntBytes_le (by
    rw [Nat.pow_mul]
    exact Nat.lt_of_lt_of_le (beValue_lt _) (Nat.pow_le_pow_right (by decide) (List.length_take_le _ _)))

/-- `recoverPlain` of the values of a valid signature rebuilds the signature
itself and asks `Ecrecover` about it. -/
theorem recoverPlain_of_signature (c : Secp256k1 PrivateKey) (h : Hash) {sig : Bytes} (hsig : sig.length = 65)
    (hvalid : ValidateSignatureValues (sig.getD 64 0) (beValue (sig.take 32)) (beValue ((sig.drop 32).take 32))
      true = true) :
    recoverPlain c h (beValue (sig.take 32)) (beValue ((sig.drop 32).take 32)) ((sig.getD 64 0).toNat + 27 : Nat)
        true =
      some (match c.Ecrecover h.bytes sig with
        | .error e => .error e
        | .ok pub => if pub.head? ≠ some 4 then .error "invalid public key" else .ok (pubToAddress pub)) := by
  have hv := le_one_of_ValidateSignatureValues hvalid
  have hbits : BitLen ((((sig.getD 64 0).toNat + 27 : Nat) : Int).natAbs) ≤ 8 := by
    rw [Int.natAbs_natCast, BitLen_le_iff]
    have := UInt8.le_iff_toNat_le.mp hv
    simp only [UInt8.reduceToNat] at this
    omega
  have hR := length_bigIntBytes_beValue_take sig
  have hS := length_bigIntBytes_beValue_take (sig.drop 32)
  have hR32 : (sig.take 32).length = 32 := by simp [hsig]
  have hS32 : ((sig.drop 32).take 32).length = 32 := by simp [hsig]
  unfold recoverPlain
  rw [if_neg (by omega), recoveryByte_of_le_one _ hv]
  dsimp only
  rw [if_neg (by rw [hvalid]; decide), if_neg (by omega), pad_bigIntBytes_beValue hR32, pad_bigIntBytes_beValue hS32,
    signature_split hsig]

/-- The laws of the curve that recovery rests on: a signature has 65 bytes
and valid Homestead values, `Ecrecover` returns the key that signed, and a
public key is uncompressed. -/
structure Secp256k1.Lawful (c : Secp256k1 PrivateKey) : Prop where
  sign : ∀ h prv sig, c.Sign h prv = .ok sig → sig.length = 65 ∧
    ValidateSignatureValues (sig.getD 64 0) (beValue (sig.take 32)) (beValue ((sig.drop 32).take 32)) true = true
  recover : ∀ h prv sig, c.Sign h prv = .ok sig → c.Ecrecover h sig = .ok (c.PublicBytes prv)
  uncompressed : ∀ prv, (c.PublicBytes prv).head? = some 4

theorem fixedKeyCrypto_lawful : fixedKeyCrypto.Lawful where
  sign := by
    rintro _ _ sig ⟨⟩
    exact ⟨rfl, by decide⟩
  recover := by
    rintro _ _ sig ⟨⟩
    simp [fixedKeyCrypto]
  uncompressed := fun _ => rfl

/-- The signature of the key `k` of `twoKeyCrypto`: `R` is `2 ^ 248` or twice
that, `S` is `2 ^ 248`, and the recovery id is 0. -/
def keySig (k : Bool) : Bytes := [if k then 2 else 1] ++ List.replicate 31 0 ++ [1] ++ List.replicate 31 0 ++ [0]

/-- Primitives over two keys, each signing with its own signature and
recovering its own public key `[4, k]` from it. -/
def twoKeyCrypto : Secp256k1 Bool where
  Sign := fun _ k => .ok (keySig k)
  Ecrecover := fun _ sig =>
    if sig = keySig false then .ok [4, 0] else if sig = keySig true then .ok [4, 1] else .error "invalid signature"
  PublicBytes := fun k => [4, if k then 1 else 0]

theorem twoKeyCrypto_lawful : twoKeyCrypto.Lawful where
  sign := by
    rintro _ k sig ⟨⟩
    cases k <;> exact ⟨rfl, by decide⟩
  recover := by
    rintro _ k sig ⟨⟩
    cases k <;> rfl
  uncompressed := fun _ => rfl

theorem Hash_withValues (s : Signer) (tx : Transaction) (r s' v : Nat) (x : Option (Signer × Address)) :
    s.Hash ⟨{ tx.data with R := r, S := s', V := v }, x⟩ = s.Hash tx := by
  cases s <;> rfl

theorem SignTx_ok {c : Secp256k1 PrivateKey} {tx t : Transaction} {s : Signer} {prv : PrivateKey}
    (h : SignTx c tx s prv = some (.ok t)) :
    ∃ sig, c.Sign (s.Hash tx).bytes prv = .ok sig ∧ tx.WithSignature s sig = some t := by
  unfold SignTx at h
  split at h
  · cases h
  · next sig hsign =>
      obtain ⟨t', ht', heq⟩ := Option.map_eq_some_iff.mp h
      cases heq
      exact ⟨sig, hsign, ht'⟩

/-- The round trip: with lawful primitives, the EIP-155 signer of a chain id
`c ≥ 1` recovers the address of the key that signed.

The recovery value `V - 2 c - 8` is `v + 27`. -/
theorem Sender_SignTx {C : Secp256k1 PrivateKey} (hC : C.Lawful) (tx : Transaction) {c : Nat} (hc : 1 ≤ c)
    {prv : PrivateKey} {t : Transaction} (h : SignTx C tx (.eip155 (NewEIP155Signer c)) prv = some (.ok t)) :
    (Signer.eip155 (NewEIP155Signer c)).Sender C t = some (.ok (pubToAddress (C.PublicBytes prv))) := by
  obtain ⟨sig, hsign, hwith⟩ := SignTx_ok h
  obtain ⟨hlen, hvalid⟩ := hC.sign _ _ _ hsign
  have hv := le_one_of_ValidateSignatureValues hvalid
  have hr : (sig.getD 64 0).toNat ≤ 1 := UInt8.le_iff_toNat_le.mp hv
  rw [WithSignature_eip155 tx c hlen hv, if_pos (by omega)] at hwith
  have ht := Option.some.inj hwith
  have hV : t.data.V = (sig.getD 64 0).toNat + 35 + c * 2 := by rw [← ht]
  obtain ⟨hp, hchain⟩ := protected_chainId_of_V hr hc hV
  rw [Sender_eip155_of_chainId_eq C _ hp hchain, ← ht, Hash_withValues]
  dsimp only
  rw [show ((((sig.getD 64 0).toNat + 35 + c * 2 : Nat) : Int) - (NewEIP155Signer c).chainIdMul - 8) =
      (((sig.getD 64 0).toNat + 27 : Nat) : Int) by simp only [NewEIP155Signer]; push_cast; omega]
  rw [recoverPlain_of_signature C _ hlen hvalid, hC.recover _ _ _ hsign]
  simp [hC.uncompressed prv]

/-- Chain 1 and the fixed key: the signed transaction recovers the key's address. -/
example :
    (Signer.eip155 (NewEIP155Signer 1)).Sender fixedKeyCrypto ⟨⟨0, 0, 0, none, 0, [], 37, 2 ^ 248, 2 ^ 248⟩, none⟩ =
      some (.ok (pubToAddress (fixedKeyCrypto.PublicBytes ()))) :=
  Sender_SignTx fixedKeyCrypto_lawful ⟨⟨0, 0, 0, none, 0, [], 0, 0, 0⟩, none⟩ (le_refl 1) rfl

/-! ## Recovery never panics -/

theorem lt_N_of_ValidateSignatureValues {v : UInt8} {r s : Nat} {homestead : Bool}
    (h : ValidateSignatureValues v r s homestead = true) : r < secp256k1_N ∧ s < secp256k1_N := by
  unfold ValidateSignatureValues at h
  split at h
  · cases h
  · split at h
    · cases h
    · simp only [Bool.and_eq_true, decide_eq_true_eq] at h
      exact h.1

theorem length_bigIntBytes_of_lt_N {x : Nat} (h : x < secp256k1_N) : (bigIntBytes x).length ≤ 32 :=
  length_bigIntBytes_le (Nat.lt_trans h (by decide))

/-- The values that pass `ValidateSignatureValues` are below the order of the
curve, so the copies of `recoverPlain` stay in bounds. -/
theorem recoverPlain_isSome (c : Secp256k1 PrivateKey) (sighash : Hash) (R S : Nat) (Vb : Int) (homestead : Bool) :
    (recoverPlain c sighash R S Vb homestead).isSome := by
  unfold recoverPlain
  split
  · rfl
  · dsimp only
    split
    · rfl
    · next hvalid =>
        obtain ⟨hR, hS⟩ := lt_N_of_ValidateSignatureValues (by simpa using hvalid)
        rw [if_neg (by have := length_bigIntBytes_of_lt_N hR; have := length_bigIntBytes_of_lt_N hS; omega)]
        rfl

theorem Signer.Sender_isSome (c : Secp256k1 PrivateKey) (s : Signer) (tx : Transaction) :
    (s.Sender c tx).isSome := by
  cases s with
  | eip155 s =>
      rw [Signer.Sender]
      split
      · exact recoverPlain_isSome ..
      · split
        · rfl
        · exact recoverPlain_isSome ..
  | homestead => exact recoverPlain_isSome ..
  | frontier => exact recoverPlain_isSome ..

theorem Sender_isSome (c : Secp256k1 PrivateKey) (signer : Signer) (tx : Transaction) :
    (Sender c signer tx).isSome := by
  have h := Signer.Sender_isSome c signer tx
  unfold Sender
  dsimp only
  split
  · split
    · rfl
    · split <;> simp_all
  · split <;> simp_all

/-! ## The sender cache -/

/-- Every cached sender is what its signer derives. -/
def CacheOk (c : Secp256k1 PrivateKey) (tx : Transaction) : Prop :=
  ∀ s a, tx.fromCache = some (s, a) → s.Sender c tx = some (.ok a)

theorem Signer.eq_of_Equal : ∀ {s s' : Signer}, s.Equal s' = true → s = s'
  | .eip155 ⟨a, _, ha⟩, .eip155 ⟨b, _, hb⟩, h => by
      simp only [Signer.Equal, beq_iff_eq] at h
      subst ha hb h
      rfl
  | .homestead, .homestead, _ => rfl
  | .frontier, .frontier, _ => rfl

/-- A signer reads only the data of a transaction. -/
theorem Signer.Sender_of_data_eq (c : Secp256k1 PrivateKey) (s : Signer) {tx tx' : Transaction}
    (h : tx'.data = tx.data) : s.Sender c tx' = s.Sender c tx := by
  obtain ⟨d, x⟩ := tx
  obtain ⟨d', x'⟩ := tx'
  cases h
  cases s <;> rfl

theorem Sender_data {c : Secp256k1 PrivateKey} {signer : Signer} {tx tx' : Transaction}
    {r : Except String Address} (h : Sender c signer tx = some (r, tx')) : tx'.data = tx.data := by
  unfold Sender at h
  dsimp only at h
  split at h
  · split at h
    · cases h
      rfl
    · split at h <;> cases h <;> rfl
  · split at h <;> cases h <;> rfl

/-- With a sound cache, the answer of `types.Sender` is the signer's.

A hit: the cached signer is this one. -/
theorem Sender_answer {c : Secp256k1 PrivateKey} {tx : Transaction} (hok : CacheOk c tx) (signer : Signer) :
    (Sender c signer tx).map Prod.fst = signer.Sender c tx := by
  unfold Sender
  dsimp only
  split
  · next cached addr hcache =>
      split
      · next heq =>
          rw [← Signer.eq_of_Equal heq, hok _ _ hcache]
          rfl
      · split <;> simp_all
  · split <;> simp_all

/-- A miss: the new entry is what this signer derived. -/
theorem CacheOk_Sender {c : Secp256k1 PrivateKey} {tx tx' : Transaction} (hok : CacheOk c tx) {signer : Signer}
    {r : Except String Address} (h : Sender c signer tx = some (r, tx')) : CacheOk c tx' := by
  have hans := Sender_answer hok signer
  rw [h] at hans
  unfold Sender at h
  dsimp only at h
  intro s a hs
  rw [Signer.Sender_of_data_eq c s (Sender_data (by exact h))]
  split at h
  · split at h
    · cases h
      exact hok s a hs
    · split at h
      · cases h
      · cases h
        exact hok s a hs
      · cases h
        simp only [Option.some.injEq, Prod.mk.injEq] at hs
        obtain ⟨rfl, rfl⟩ := hs
        simp_all
  · split at h
    · cases h
    · cases h
      exact hok s a hs
    · cases h
      simp only [Option.some.injEq, Prod.mk.injEq] at hs
      obtain ⟨rfl, rfl⟩ := hs
      simp_all

/-- Calls of `types.Sender` one after another on the transaction each
leaves. -/
def senderRun (c : Secp256k1 PrivateKey) : List Signer → Transaction → Option (List (Except String Address))
  | [], _ => some []
  | s :: ss, tx => match Sender c s tx with
    | none => none
    | some (r, tx') => (senderRun c ss tx').map (r :: ·)

/-- The cache never changes an answer: from a sound cache (an empty one
among them), a run of calls answers as the signers do on their own. -/
theorem senders_uncached (c : Secp256k1 PrivateKey) (ss : List Signer) {tx : Transaction} (hok : CacheOk c tx) :
    senderRun c ss tx = ss.mapM fun s => s.Sender c tx := by
  induction ss generalizing tx with
  | nil => rfl
  | cons s ss ih =>
      have hans := Sender_answer hok s
      rw [senderRun, List.mapM_cons]
      split
      · next hnone =>
          rw [hnone] at hans
          rw [← hans]
          rfl
      · next r tx' hsome =>
          rw [hsome] at hans
          rw [← hans, ih (CacheOk_Sender hok hsome)]
          have hdata := Sender_data hsome
          simp only [Signer.Sender_of_data_eq c _ hdata]
          cases List.mapM (fun s => s.Sender c tx) ss <;> rfl

end Lemochain.Types
