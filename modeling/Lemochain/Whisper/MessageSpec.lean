import Mathlib.Data.Nat.Digits.Defs
import Mathlib.Data.Nat.ModEq
import Mathlib.Tactic.Ring
import Lemochain.Whisper.Message

/-!
# Sealing and opening Whisper messages

The size field: `getSizeOfPayloadSizeField` takes the fewest bytes that hold
the length of the payload (`sizeLoop_spec`), one to three up to
`MaxMessageSize`, and `bytesToUintLittleEndian` reads back the low bytes
that `PutUint32` wrote (`bytesToUintLittleEndian_sizeField`).

Parsing: what `ValidateAndParse` accepts is cut exactly into the flags, the
size field, the payload, the padding and the signature
(`ValidateAndParse_partition`), and a plaintext laid out that way is
accepted with its parts (`ValidateAndParse_unsigned_build`,
`ValidateAndParse_signed_build`).

The round trip: with primitives that undo each other (`Crypto.Lawful`),
the envelope that `NewSentMessage` and `Wrap` produce opens, under the
matching key of a filter, to the payload, the padding and the signer of
the parameters (`Open_Wrap`).

The bound check of `ValidateAndParse` compares the payload size with the
end of the padding and forgets the flags and the size field: a signed
plaintext whose one-byte size field counts itself passes it, and the slice
of the padding then runs backwards, a panic
(`ValidateAndParse_signed_size_overrun`), which any peer can send in an
envelope (`Open_signed_size_overrun`).
-/

namespace Lemochain.Whisper

open Lemochain.Slice

variable {PrivateKey PublicKey : Type}

/-! ## The size field -/

theorem sizeLoop_of_lt {i : Nat} (s : Nat) (h : i < 256) : sizeLoop i s = s := by
  rw [sizeLoop, if_neg (by omega)]

theorem sizeLoop_of_ge {i : Nat} (s : Nat) (h : 256 ≤ i) : sizeLoop i s = sizeLoop (i / 256) (s + 1) := by
  rw [sizeLoop, if_pos h]

/-- The loop adds the fewest bytes beyond `s` that hold `i`.

One byte for the factor `256`, the others for `i / 256`. -/
theorem sizeLoop_spec (i s : Nat) :
    s ≤ sizeLoop i s ∧ i < 256 ^ (sizeLoop i s - s + 1) ∧ (s < sizeLoop i s → 256 ^ (sizeLoop i s - s) ≤ i) := by
  induction i using Nat.strong_induction_on generalizing s with
  | _ i ih =>
    by_cases h : 256 ≤ i
    · rw [sizeLoop_of_ge s h]
      obtain ⟨hs, hlt, hge⟩ := ih (i / 256) (by omega) (s + 1)
      have hk : sizeLoop (i / 256) (s + 1) - s = (sizeLoop (i / 256) (s + 1) - (s + 1)) + 1 := by omega
      refine ⟨by omega, ?_, fun _ => ?_⟩
      · rw [hk, Nat.pow_succ]
        omega
      · rw [hk, Nat.pow_succ]
        by_cases hm : s + 1 < sizeLoop (i / 256) (s + 1)
        · have := hge hm
          omega
        · rw [show sizeLoop (i / 256) (s + 1) - (s + 1) = 0 by omega, Nat.pow_zero]
          omega
    · rw [sizeLoop_of_lt s (by omega)]
      refine ⟨Nat.le_refl s, ?_, fun h' => absurd h' (Nat.lt_irrefl s)⟩
      rw [Nat.sub_self, Nat.zero_add, Nat.pow_one]
      omega

/-- Up to `2 ^ 24`, the size field has one to three bytes, and they hold the
length. -/
theorem getSizeOfPayloadSizeField_spec {payload : Bytes} (h : payload.length < 2 ^ 24) :
    1 ≤ getSizeOfPayloadSizeField payload ∧ getSizeOfPayloadSizeField payload ≤ 3 ∧
      payload.length < 256 ^ getSizeOfPayloadSizeField payload := by
  obtain ⟨hs, hlt, hge⟩ := sizeLoop_spec payload.length 1
  unfold getSizeOfPayloadSizeField
  refine ⟨hs, ?_, ?_⟩
  · by_contra hc
    have h3 : 256 ^ 3 ≤ 256 ^ (sizeLoop payload.length 1 - 1) := Nat.pow_le_pow_right (by decide) (by omega)
    have := hge (by omega)
    omega
  · rwa [Nat.sub_add_cancel hs] at hlt

/-! ## Little-endian bytes -/

/-- The loop of `bytesToUintLittleEndian` from a running sum and multiplier
adds the little-endian value of the bytes times the multiplier.

Both sides agree modulo `2 ^ 64`. -/
theorem foldl_littleEndianStep (b : Bytes) (r m : UInt64) :
    (b.foldl littleEndianStep (r, m)).1.toNat =
        (r.toNat + m.toNat * Nat.ofDigits 256 (b.map UInt8.toNat)) % 2 ^ 64 ∧
      (b.foldl littleEndianStep (r, m)).2.toNat = m.toNat * 256 ^ b.length % 2 ^ 64 := by
  induction b generalizing r m with
  | nil =>
      simp only [List.foldl_nil, List.map_nil, Nat.ofDigits_nil, Nat.mul_zero, Nat.add_zero, List.length_nil,
        Nat.pow_zero, Nat.mul_one]
      exact ⟨(Nat.mod_eq_of_lt r.toNat_lt).symm, (Nat.mod_eq_of_lt m.toNat_lt).symm⟩
  | cons x b ih =>
      obtain ⟨ih₁, ih₂⟩ := ih (r + x.toUInt64 * m) (m * 256)
      rw [List.foldl_cons, littleEndianStep]
      refine ⟨?_, ?_⟩
      · rw [ih₁, UInt64.toNat_add, UInt64.toNat_mul, UInt64.toNat_mul, UInt8.toNat_toUInt64, List.map_cons,
          Nat.ofDigits_cons]
        have hm : (256 : UInt64).toNat = 256 := rfl
        rw [hm]
        show Nat.ModEq (2 ^ 64) _ _
        refine (((Nat.mod_modEq _ _).add ((Nat.mod_modEq _ _).mul_right _)).trans
          (((Nat.ModEq.refl _).add (Nat.mod_modEq _ _)).add_right _)).trans ?_
        ring_nf
        exact Nat.ModEq.refl _
      · rw [ih₂, UInt64.toNat_mul, List.length_cons, Nat.pow_succ]
        have hm : (256 : UInt64).toNat = 256 := rfl
        rw [hm]
        show Nat.ModEq (2 ^ 64) _ _
        refine ((Nat.mod_modEq _ _).mul_right _).trans ?_
        ring_nf
        exact Nat.ModEq.refl _

/-- `bytesToUintLittleEndian` of at most eight bytes is their little-endian
value. -/
theorem bytesToUintLittleEndian_toNat {b : Bytes} (h : b.length ≤ 8) :
    (bytesToUintLittleEndian b).toNat = Nat.ofDigits 256 (b.map UInt8.toNat) := by
  have hdigits : ∀ d ∈ b.map UInt8.toNat, d < 256 := by
    intro d hd
    obtain ⟨x, -, rfl⟩ := List.mem_map.mp hd
    exact x.toNat_lt
  have hlt : Nat.ofDigits 256 (b.map UInt8.toNat) < 2 ^ 64 :=
    calc Nat.ofDigits 256 (b.map UInt8.toNat) < 256 ^ (b.map UInt8.toNat).length :=
          Nat.ofDigits_lt_base_pow_length (by decide) hdigits
      _ ≤ 256 ^ 8 := Nat.pow_le_pow_right (by decide) (by rw [List.length_map]; exact h)
      _ = 2 ^ 64 := by decide
  rw [bytesToUintLittleEndian, (foldl_littleEndianStep b 0 1).1, UInt64.toNat_zero, UInt64.toNat_one,
    Nat.zero_add, Nat.one_mul, Nat.mod_eq_of_lt hlt]

theorem map_toNat_PutUint32 (v : UInt32) :
    (PutUint32 v).map UInt8.toNat =
      [v.toNat % 256, v.toNat / 256 % 256, v.toNat / 65536 % 256, v.toNat / 16777216 % 256] := by
  simp [PutUint32, UInt32.toNat_shiftRight, Nat.shiftRight_eq_div_pow]

/-- The low `k` bytes that `PutUint32` writes hold the value modulo
`256 ^ k`. -/
theorem ofDigits_take_PutUint32 (v : UInt32) {k : Nat} (hk : k ≤ 4) :
    Nat.ofDigits 256 (((PutUint32 v).take k).map UInt8.toNat) = v.toNat % 256 ^ k := by
  have hv := v.toNat_lt
  rw [List.map_take, map_toNat_PutUint32]
  rcases k with _ | _ | _ | _ | _ | k
  all_goals simp only [List.take, Nat.ofDigits_cons, Nat.ofDigits_nil]
  all_goals omega

/-- The size field that `addPayloadSizeField` writes for a payload. -/
def sizeField (payload : Bytes) : Bytes :=
  (PutUint32 payload.length.toUInt32).take (getSizeOfPayloadSizeField payload)

theorem sizeField_length {payload : Bytes} (h : payload.length < 2 ^ 24) :
    (sizeField payload).length = getSizeOfPayloadSizeField payload := by
  obtain ⟨-, h3, -⟩ := getSizeOfPayloadSizeField_spec h
  rw [sizeField, List.length_take, show (PutUint32 payload.length.toUInt32).length = 4 from rfl]
  omega

/-- The size field reads back as the length of the payload. -/
theorem bytesToUintLittleEndian_sizeField {payload : Bytes} (h : payload.length < 2 ^ 24) :
    (bytesToUintLittleEndian (sizeField payload)).toNat = payload.length := by
  obtain ⟨-, h3, hlt⟩ := getSizeOfPayloadSizeField_spec h
  rw [bytesToUintLittleEndian_toNat (by rw [sizeField_length h]; omega), sizeField,
    ofDigits_take_PutUint32 _ (by omega), UInt32.toNat_ofNat', Nat.mod_eq_of_lt (by omega : payload.length < 2 ^ 32),
    Nat.mod_eq_of_lt hlt]

/-- The flags of a message whose size field has one to three bytes, signed or
not. -/
theorem flags_of_size {fs : Nat} (h₁ : 1 ≤ fs) (h₃ : fs ≤ 3) :
    (fs.toUInt8 &&& SizeMask).toNat = fs ∧ ((fs.toUInt8 ||| signatureFlag) &&& SizeMask).toNat = fs ∧
      isMessageSigned fs.toUInt8 = false ∧ isMessageSigned (fs.toUInt8 ||| signatureFlag) = true := by
  obtain rfl | rfl | rfl : fs = 1 ∨ fs = 2 ∨ fs = 3 := by omega
  all_goals decide

/-! ## Parsing -/

/-- The parse of a plaintext laid out as flags, size field, payload and
padding, with anything after the padding.

The three slices are the parts of the plaintext. -/
theorem parsePayload_build (msg : ReceivedMessage PublicKey) {flags : UInt8} {payload padding rest : Bytes}
    (hsize : payload.length < 2 ^ 24) (hflags : (flags &&& SizeMask).toNat = getSizeOfPayloadSizeField payload)
    (hraw : msg.Raw = flags :: (sizeField payload ++ payload ++ padding ++ rest)) :
    msg.parsePayload flags (1 + (sizeField payload).length + payload.length + padding.length) =
      some (true, { msg with Payload := payload, Padding := padding }) := by
  obtain ⟨h1, -, -⟩ := getSizeOfPayloadSizeField_spec hsize
  have hlen := sizeField_length hsize
  have hfield : Slice.get msg.Raw 1 (1 + (sizeField payload).length) = some (sizeField payload) := by
    rw [hraw, show flags :: (sizeField payload ++ payload ++ padding ++ rest) =
      [flags] ++ sizeField payload ++ (payload ++ padding ++ rest) by simp]
    exact get_append _ _ _
  have hpayload : Slice.get msg.Raw (1 + (sizeField payload).length)
      (1 + (sizeField payload).length + payload.length) = some payload := by
    rw [hraw, show flags :: (sizeField payload ++ payload ++ padding ++ rest) =
      ([flags] ++ sizeField payload) ++ payload ++ (padding ++ rest) by simp]
    exact get_append_of _ _ _ (by simp; omega) (by simp; omega)
  have hpadding : Slice.get msg.Raw (1 + (sizeField payload).length + payload.length)
      (1 + (sizeField payload).length + payload.length + padding.length) = some padding := by
    rw [hraw, show flags :: (sizeField payload ++ payload ++ padding ++ rest) =
      ([flags] ++ sizeField payload ++ payload) ++ padding ++ rest by simp]
    exact get_append_of _ _ _ (by simp; omega) (by simp; omega)
  unfold ReceivedMessage.parsePayload
  rw [hflags, if_pos (by omega), ← hlen]
  simp only [hfield, Option.bind_eq_bind, Option.bind_some, bytesToUintLittleEndian_sizeField hsize]
  rw [if_neg (by omega), hpayload, Option.bind_some, hpadding, Option.bind_some, Option.pure_def]

/-- What the second half of `ValidateAndParse` accepts: the plaintext from
after the flags to `end'` is the size field, the payload and the padding.

A size field: its slice, the payload and the padding follow one another. No
size field: only the padding. -/
theorem parsePayload_partition {msg m : ReceivedMessage PublicKey} {flags : UInt8} {end' : Nat}
    (hp : msg.Payload = []) (h : msg.parsePayload flags end' = some (true, m)) :
    ∃ field, Slice.get msg.Raw 1 end' = some (field ++ m.Payload ++ m.Padding) ∧
      field.length = (flags &&& SizeMask).toNat ∧
      (field ≠ [] → (bytesToUintLittleEndian field).toNat = m.Payload.length) ∧ (field = [] → m.Payload = []) ∧
      m.Raw = msg.Raw ∧ m.Signature = msg.Signature ∧ m.Src = msg.Src := by
  unfold ReceivedMessage.parsePayload at h
  simp only [Option.bind_eq_bind, Option.pure_def] at h
  split at h
  · next hsf =>
      obtain ⟨field, hfield, h⟩ := Option.bind_eq_some_iff.mp h
      split at h
      · cases h
      · obtain ⟨payload, hpayload, h⟩ := Option.bind_eq_some_iff.mp h
        obtain ⟨padding, hpadding, h⟩ := Option.bind_eq_some_iff.mp h
        cases h
        have hlen := length_of_get hfield
        refine ⟨field, ?_, by omega, fun _ => ?_, fun hnil => ?_, rfl, rfl, rfl⟩
        · rw [List.append_assoc]
          exact get_trans hfield (get_trans hpayload hpadding)
        · rw [length_of_get hpayload]
          omega
        · rw [hnil, List.length_nil] at hlen
          omega
  · next hsf =>
      obtain ⟨padding, hpadding, h⟩ := Option.bind_eq_some_iff.mp h
      cases h
      refine ⟨[], ?_, by simp only [List.length_nil]; omega, fun h => absurd rfl h, fun _ => hp, rfl, rfl, rfl⟩
      rw [hp]
      exact hpadding

/-- The hash of a signed plaintext covers what comes before the signature. -/
theorem hash_signed (c : Crypto PrivateKey PublicKey) {msg : ReceivedMessage PublicKey} {flags : UInt8}
    {tail : Bytes} (hraw : msg.Raw = flags :: tail) (hsigned : isMessageSigned flags = true)
    (hlen : signatureLength ≤ msg.Raw.length) :
    msg.hash c = some (c.Keccak256 (msg.Raw.take (msg.Raw.length - signatureLength))) := by
  unfold ReceivedMessage.hash
  split
  · next heq => rw [hraw] at heq; cases heq
  · next flags' tail' heq =>
      rw [hraw] at heq
      obtain ⟨rfl, -⟩ := List.cons.inj heq
      rw [if_pos hsigned, if_neg (by omega)]

/-- What `ValidateAndParse` accepts is cut exactly into the flags, the size
field, the payload, the padding and, if the flags say so, a signature from
which a key is recovered.

Signed: the signature, then the parse before it. The hash covers the
plaintext before the signature. Unsigned: the parse runs to the end. -/
theorem ValidateAndParse_partition (c : Crypto PrivateKey PublicKey) {msg m : ReceivedMessage PublicKey}
    (hp : msg.Payload = []) (hs : msg.Signature = []) (h : msg.ValidateAndParse c = some (true, m)) :
    m.Raw = msg.Raw ∧ ∃ flags field, msg.Raw = flags :: (field ++ m.Payload ++ m.Padding ++ m.Signature) ∧
      field.length = (flags &&& SizeMask).toNat ∧
      (field ≠ [] → (bytesToUintLittleEndian field).toNat = m.Payload.length) ∧ (field = [] → m.Payload = []) ∧
      if isMessageSigned flags then
        m.Signature.length = signatureLength ∧ m.Src.isSome ∧
          m.Src = c.SigToPub (c.Keccak256 (flags :: (field ++ m.Payload ++ m.Padding))) m.Signature
      else m.Signature = [] := by
  unfold ReceivedMessage.ValidateAndParse at h
  split at h
  · cases h
  · next flags tail heq =>
      have hhead : Slice.get msg.Raw 0 1 = some [flags] := by
        rw [heq]
        exact get_cons_zero_one flags tail
      split at h
      · next hsigned =>
          dsimp only at h
          split at h
          · cases h
          · next hend =>
              simp only [Option.bind_eq_bind] at h
              obtain ⟨signature, hsig, h⟩ := Option.bind_eq_some_iff.mp h
              split at h
              · cases h
              · next src hsrc =>
                  obtain ⟨field, hbody, hfield, hle, hnil, hraw, hsig', hsrc'⟩ := parsePayload_partition (by exact hp) h
                  simp only at hraw hsig' hsrc'
                  have hlen : msg.Raw.length - signatureLength + signatureLength = msg.Raw.length := by
                    unfold signatureLength at hend ⊢
                    omega
                  have hslen := length_of_get hsig
                  rw [hlen] at hsig
                  have hcut := eq_append_of_get (get_trans hhead hbody) hsig
                  refine ⟨hraw, flags, field, ?_, hfield, hle, hnil, ?_⟩
                  · rw [hcut, hsig']
                    simp
                  · have hsiglen : signature.length = signatureLength := by
                      unfold signatureLength at hend hslen ⊢
                      omega
                    have hpre : ([flags] ++ (field ++ m.Payload ++ m.Padding)).length =
                        msg.Raw.length - signatureLength := by
                      have hl := congrArg List.length hcut
                      rw [List.length_append, hsiglen] at hl
                      omega
                    have htake : ([flags] ++ (field ++ m.Payload ++ m.Padding) ++ signature).take
                        (msg.Raw.length - signatureLength) = [flags] ++ (field ++ m.Payload ++ m.Padding) :=
                      List.take_left' hpre
                    rw [← hcut] at htake
                    have hhash : ReceivedMessage.hash c { msg with Signature := signature } = msg.hash c := rfl
                    rw [if_pos hsigned, hsig', hsrc']
                    refine ⟨hsiglen, by rw [hsrc]; rfl, ?_⟩
                    unfold ReceivedMessage.SigToPubKey
                    rw [hhash, hash_signed c heq hsigned (by omega), Option.bind_some, htake]
                    rfl
      · next hsigned =>
          obtain ⟨field, hbody, hfield, hle, hnil, hraw, hsig', -⟩ := parsePayload_partition hp h
          refine ⟨hraw, flags, field, ?_, hfield, hle, hnil, ?_⟩
          · have hcut := eq_append_of_get hhead hbody
            rw [hsig', hs]
            rw [hcut]
            simp
          · rw [if_neg hsigned, hsig', hs]

/-- An unsigned plaintext laid out as flags, size field, payload and padding
is accepted with its parts. -/
theorem ValidateAndParse_unsigned_build (c : Crypto PrivateKey PublicKey) (msg : ReceivedMessage PublicKey)
    {payload padding : Bytes} (hsize : payload.length < 2 ^ 24)
    (hraw : msg.Raw = (getSizeOfPayloadSizeField payload).toUInt8 :: (sizeField payload ++ payload ++ padding)) :
    msg.ValidateAndParse c = some (true, { msg with Payload := payload, Padding := padding }) := by
  obtain ⟨h1, h3, -⟩ := getSizeOfPayloadSizeField_spec hsize
  obtain ⟨hmask, -, hunsigned, -⟩ := flags_of_size h1 h3
  have hlen : msg.Raw.length = 1 + (sizeField payload).length + payload.length + padding.length := by
    rw [hraw, List.length_cons, List.length_append, List.length_append]
    omega
  unfold ReceivedMessage.ValidateAndParse
  split
  · next heq => rw [hraw] at heq; cases heq
  · next flags tail heq =>
      rw [hraw] at heq
      obtain ⟨rfl, -⟩ := List.cons.inj heq
      rw [if_neg (by rw [hunsigned]; decide), hlen]
      exact parsePayload_build msg hsize hmask
        (by rw [hraw, List.append_nil] : msg.Raw = _ :: (sizeField payload ++ payload ++ padding ++ []))

/-- A signed plaintext laid out as flags, size field, payload, padding and a
signature that recovers `src` is accepted with its parts and `src`.

Where the signature starts. -/
theorem ValidateAndParse_signed_build (c : Crypto PrivateKey PublicKey) (msg : ReceivedMessage PublicKey)
    {payload padding sig : Bytes} {src : PublicKey} (hsize : payload.length < 2 ^ 24)
    (hsig : sig.length = signatureLength)
    (hraw : msg.Raw = ((getSizeOfPayloadSizeField payload).toUInt8 ||| signatureFlag) ::
      (sizeField payload ++ payload ++ padding ++ sig))
    (hsrc : c.SigToPub (c.Keccak256 (((getSizeOfPayloadSizeField payload).toUInt8 ||| signatureFlag) ::
      (sizeField payload ++ payload ++ padding))) sig = some src) :
    msg.ValidateAndParse c =
      some (true, { msg with Signature := sig, Src := some src, Payload := payload, Padding := padding }) := by
  obtain ⟨h1, h3, -⟩ := getSizeOfPayloadSizeField_spec hsize
  obtain ⟨-, hmask, -, hsigned⟩ := flags_of_size h1 h3
  have hlen := sizeField_length hsize
  have hend : msg.Raw.length - signatureLength = 1 + (sizeField payload).length + payload.length + padding.length := by
    rw [hraw, List.length_cons, List.length_append, List.length_append, List.length_append, hsig]
    omega
  have hgetsig : Slice.get msg.Raw (1 + (sizeField payload).length + payload.length + padding.length)
      (1 + (sizeField payload).length + payload.length + padding.length + signatureLength) = some sig := by
    rw [hraw, show ∀ f : UInt8, f :: (sizeField payload ++ payload ++ padding ++ sig) =
      (f :: (sizeField payload ++ payload ++ padding)) ++ sig ++ [] from fun f => by simp]
    exact get_append_of _ _ _ (by simp; omega) (by simp [hsig]; omega)
  have hsigtopub : ReceivedMessage.SigToPubKey c { msg with Signature := sig } = some src := by
    have htake : msg.Raw.take (msg.Raw.length - signatureLength) =
        ((getSizeOfPayloadSizeField payload).toUInt8 ||| signatureFlag) ::
          (sizeField payload ++ payload ++ padding) := by
      rw [hend, hraw, show ∀ f : UInt8, f :: (sizeField payload ++ payload ++ padding ++ sig) =
        (f :: (sizeField payload ++ payload ++ padding)) ++ sig from fun f => by simp]
      exact List.take_left' (by simp; omega)
    have hhash : ReceivedMessage.hash c { msg with Signature := sig } = msg.hash c := rfl
    unfold ReceivedMessage.SigToPubKey
    rw [hhash, hash_signed c hraw hsigned (by omega), Option.bind_some, htake]
    exact hsrc
  unfold ReceivedMessage.ValidateAndParse
  split
  · next heq => rw [hraw] at heq; cases heq
  · next flags tail heq =>
      rw [hraw] at heq
      obtain ⟨rfl, -⟩ := List.cons.inj heq
      rw [if_pos hsigned]
      dsimp only
      rw [hend, if_neg (by omega)]
      simp only [Option.bind_eq_bind]
      rw [hgetsig, Option.bind_some, hsigtopub]
      exact parsePayload_build { msg with Signature := sig, Src := some src } hsize hmask hraw

/-! ## Building a message -/

theorem addPayloadSizeField_empty {payload : Bytes} (hsize : payload.length < 2 ^ 24) :
    sentMessage.addPayloadSizeField ⟨0, []⟩ payload =
      some ⟨(getSizeOfPayloadSizeField payload).toUInt8, sizeField payload⟩ := by
  obtain ⟨-, h3, -⟩ := getSizeOfPayloadSizeField_spec hsize
  unfold sentMessage.addPayloadSizeField
  simp only [Option.bind_eq_bind, Option.pure_def]
  rw [get_of_le (Nat.zero_le _) (show _ ≤ 4 by omega), Option.bind_some, List.drop_zero, Nat.sub_zero,
    UInt8.zero_or, List.nil_append]
  rfl

/-- The size of a plaintext before its padding, the signature counted. -/
def rawSize (params : MessageParams PrivateKey PublicKey) : Nat :=
  flagsLength + getSizeOfPayloadSizeField params.Payload + params.Payload.length +
    if params.Src.isSome then signatureLength else 0

/-- The padding of a message: the padding of the parameters, or else the first
one to `padSizeLimit` random bytes that bring the plaintext to a multiple of
`padSizeLimit`. -/
def PaddingOk (params : MessageParams PrivateKey PublicKey) (ent : Entropy) (pad : Bytes) : Prop :=
  if params.Padding ≠ [] then pad = params.Padding
  else pad = (List.range pad.length).map ent.pad ∧ 0 < pad.length ∧ pad.length ≤ padSizeLimit ∧
    (rawSize params + pad.length) % padSizeLimit = 0

/-- The padding of the parameters. Random bytes up to the next multiple of
`padSizeLimit`. -/
theorem appendPadding_ok {msg msg' : sentMessage} {params : MessageParams PrivateKey PublicKey}
    {ent : Entropy} (h : msg.appendPadding params ent = .ok msg') :
    msg'.flags = msg.flags ∧ ∃ pad, msg'.body = msg.body ++ pad ∧ PaddingOk params ent pad := by
  unfold sentMessage.appendPadding at h
  split at h
  · next hp =>
      cases h
      refine ⟨rfl, params.Padding, rfl, ?_⟩
      rw [PaddingOk, if_pos (fun hnil => hp (by rw [hnil, List.length_nil]))]
  · next hp =>
      have hraw : (if params.Src.isSome then flagsLength + getSizeOfPayloadSizeField params.Payload +
          params.Payload.length + signatureLength else flagsLength + getSizeOfPayloadSizeField params.Payload +
          params.Payload.length) = rawSize params := by
        unfold rawSize
        cases params.Src.isSome <;> rfl
      dsimp only at h
      rw [hraw] at h
      split at h
      · cases h
      · cases h
        refine ⟨rfl, _, rfl, ?_⟩
        rw [PaddingOk, if_neg (fun hne => hne (List.eq_nil_of_length_eq_zero (by omega))), List.length_map,
          List.length_range]
        unfold padSizeLimit
        refine ⟨rfl, by omega, by omega, by omega⟩

/-- A payload up to `MaxMessageSize` gives a message with flags, size field,
payload and padding. -/
theorem NewSentMessage_ok {params : MessageParams PrivateKey PublicKey} {ent : Entropy} {msg : sentMessage}
    (hsize : params.Payload.length < 2 ^ 24) (h : NewSentMessage params ent = some (.ok msg)) :
    msg.flags = (getSizeOfPayloadSizeField params.Payload).toUInt8 ∧
      ∃ pad, msg.body = sizeField params.Payload ++ params.Payload ++ pad ∧ PaddingOk params ent pad := by
  rw [NewSentMessage, addPayloadSizeField_empty hsize, Option.map_some] at h
  exact appendPadding_ok (Option.some.inj h)

/-- `sign` of an unsigned message sets the flag and appends the signature of
the hash of the flagged message. -/
theorem sign_ok (c : Crypto PrivateKey PublicKey) {msg msg' : sentMessage} {key : PrivateKey}
    (hflags : isMessageSigned msg.flags = false) (h : msg.sign c key = .ok msg') :
    ∃ sig, c.Sign (c.Keccak256 ((msg.flags ||| signatureFlag) :: msg.body)) key = .ok sig ∧
      msg' = ⟨msg.flags ||| signatureFlag, msg.body ++ sig⟩ := by
  unfold sentMessage.sign at h
  rw [if_neg (by rw [hflags]; decide)] at h
  dsimp only at h
  split at h
  · cases h
  · next sig hsig =>
      cases h
      exact ⟨sig, hsig, rfl⟩

/-! ## Encryption -/

theorem length_of_validateDataIntegrity {k : Bytes} {n : Nat} (h : validateDataIntegrity k n = true) :
    k.length = n := by
  unfold validateDataIntegrity at h
  split at h
  · cases h
  · next hlen => exact Classical.not_not.mp hlen

theorem generateSecureRandomData_length {crand mrand : Nat → UInt8} {n : Nat} {res : Bytes}
    (h : generateSecureRandomData crand mrand n = .ok res) : res.length = n := by
  unfold generateSecureRandomData at h
  dsimp only at h
  split at h
  · cases h
  · split at h
    · cases h
    · split at h
      · cases h
      · next hres =>
          cases h
          exact length_of_validateDataIntegrity (by simpa using hres)

/-- The encryption step of `Wrap`, on parameters without a signing key: to
`Dst`, or under `KeySym` when there is no `Dst`. -/
theorem Wrap_unsigned_ok (c : Crypto PrivateKey PublicKey) {msg : sentMessage}
    {options : MessageParams PrivateKey PublicKey} {ent : Entropy} {data : Bytes} (hsrc : options.Src = none)
    (h : msg.Wrap c options ent = .ok data) :
    (∃ dst, options.Dst = some dst ∧ msg.encryptAsymmetric c dst = .ok data) ∨
      (options.Dst = none ∧ ∃ key, options.KeySym = some key ∧ msg.encryptSymmetric c key ent = .ok data) := by
  unfold sentMessage.Wrap at h
  simp only [hsrc, pure, Except.pure, bind, Except.bind] at h
  split at h
  · next _ _ dst hdst => exact .inl ⟨dst, hdst, h⟩
  · next _ _ key hdst hkey => exact .inr ⟨hdst, key, hkey, h⟩
  · cases h

/-- What a `Wrap` that succeeds does: it signs when the parameters have a
signing key, then encrypts to `Dst`, or under `KeySym` when there is no
`Dst`.

The signed message is encrypted as an unsigned `Wrap` of it would be. -/
theorem Wrap_ok (c : Crypto PrivateKey PublicKey) {msg : sentMessage} {options : MessageParams PrivateKey PublicKey}
    {ent : Entropy} {data : Bytes} (h : msg.Wrap c options ent = .ok data) :
    ∃ msg₁, (options.Src = none ∧ msg₁ = msg ∨ ∃ key, options.Src = some key ∧ msg.sign c key = .ok msg₁) ∧
      ((∃ dst, options.Dst = some dst ∧ msg₁.encryptAsymmetric c dst = .ok data) ∨
        (options.Dst = none ∧ ∃ key, options.KeySym = some key ∧ msg₁.encryptSymmetric c key ent = .ok data)) := by
  cases hsrc : options.Src with
  | none => exact ⟨msg, .inl ⟨rfl, rfl⟩, Wrap_unsigned_ok c hsrc h⟩
  | some key =>
      unfold sentMessage.Wrap at h
      simp only [hsrc, bind, Except.bind] at h
      cases hsign : msg.sign c key with
      | error e =>
          rw [hsign] at h
          cases h
      | ok msg₁ =>
          rw [hsign] at h
          have hnone : ({ options with Src := none } : MessageParams PrivateKey PublicKey).Src = none := rfl
          have henc := Wrap_unsigned_ok c hnone h
          exact ⟨msg₁, .inr ⟨key, rfl, hsign⟩, henc⟩

/-! ## Opening -/

/-- Primitives that undo each other: a signature recovers the key of the
signer, and ECIES and AES-GCM decrypt what they encrypt under the matching
key and nonce. -/
structure Crypto.Lawful (c : Crypto PrivateKey PublicKey) : Prop where
  sign : ∀ hash key sig, c.Sign hash key = .ok sig →
    sig.length = signatureLength ∧ c.SigToPub hash sig = some (c.Public key)
  ecies : ∀ key m ct, c.EciesEncrypt (c.Public key) m = .ok ct → c.EciesDecrypt key ct = .ok m
  gcm : ∀ key nonce m, key.length = aesKeyLength → nonce.length = aesNonceLength →
    c.GcmOpen key nonce (c.GcmSeal key nonce m) = .ok m

/-- Primitives over one key that leave their input as it is and sign with a
zero signature; they undo each other (`identityCrypto_lawful`). -/
def identityCrypto : Crypto Unit Unit where
  Keccak256 := id
  Sign := fun _ _ => .ok (List.replicate signatureLength 0)
  SigToPub := fun _ _ => some ()
  Public := id
  ValidatePublicKey := fun _ => true
  EciesEncrypt := fun _ m => .ok m
  EciesDecrypt := fun _ m => .ok m
  GcmSeal := fun _ _ m => m
  GcmOpen := fun _ _ m => .ok m

theorem identityCrypto_lawful : identityCrypto.Lawful where
  sign := by
    rintro hash key sig ⟨⟩
    exact ⟨List.length_replicate, rfl⟩
  ecies := by
    rintro key m ct ⟨⟩
    rfl
  gcm := fun _ _ _ _ _ => rfl

/-- The outcome that `Open` makes of a parse. -/
def openResult (r : Option (Bool × ReceivedMessage PublicKey)) : Option (Option (ReceivedMessage PublicKey)) :=
  r.map fun r => if r.1 then some r.2 else none

/-- An envelope encrypted to the public key of `key` opens, under a filter
with `key`, to the parse of the plaintext. -/
theorem Open_asymmetric {c : Crypto PrivateKey PublicKey} (hc : c.Lawful) {msg : sentMessage}
    {key : PrivateKey} {data : Bytes} (h : msg.encryptAsymmetric c (c.Public key) = .ok data) :
    Envelope.Open c ⟨data⟩ (some ⟨some key, none⟩) =
      openResult (({ Raw := msg.Raw } : ReceivedMessage PublicKey).ValidateAndParse c) := by
  unfold sentMessage.encryptAsymmetric at h
  split at h
  · cases h
  · have hdec := hc.ecies key _ _ h
    simp only [Envelope.Open, Option.isSome_some, Option.isSome_none, Bool.and_false, Bool.false_eq_true,
      if_false, Envelope.OpenAsymmetric, ReceivedMessage.decryptAsymmetric, hdec]
    rfl

/-- An envelope sealed under a symmetric key opens, under a filter with the
key, to the parse of the plaintext with the nonce as its salt.

The nonce is the last `aesNonceLength` bytes of the data. -/
theorem Open_symmetric {c : Crypto PrivateKey PublicKey} (hc : c.Lawful) {msg : sentMessage} {key : Bytes}
    {ent : Entropy} {data : Bytes} (h : msg.encryptSymmetric c key ent = .ok data) :
    ∃ salt, Envelope.Open c ⟨data⟩ (some ⟨none, some key⟩) =
      openResult (({ Raw := msg.Raw, Salt := salt } : ReceivedMessage PublicKey).ValidateAndParse c) := by
  unfold sentMessage.encryptSymmetric at h
  split at h
  · cases h
  · next hkey =>
      split at h
      · cases h
      · next salt hsalt =>
          cases h
          have hkeylen := length_of_validateDataIntegrity (by simpa using hkey)
          have hsaltlen := generateSecureRandomData_length hsalt
          have hcut : (c.GcmSeal key salt msg.Raw ++ salt).length - aesNonceLength =
              (c.GcmSeal key salt msg.Raw).length := by
            rw [List.length_append, hsaltlen, Nat.add_sub_cancel]
          have hdecrypt : ReceivedMessage.decryptSymmetric c
              ({ Raw := c.GcmSeal key salt msg.Raw ++ salt } : ReceivedMessage PublicKey) key =
                .ok { Raw := msg.Raw, Salt := salt } := by
            unfold ReceivedMessage.decryptSymmetric
            rw [if_neg (by rw [List.length_append, hsaltlen]; omega)]
            dsimp only
            rw [hcut, List.drop_left, List.take_left, hc.gcm key salt msg.Raw hkeylen hsaltlen]
          refine ⟨salt, ?_⟩
          simp only [Envelope.Open, Option.isSome_some, Option.isSome_none, Bool.false_and, Bool.false_eq_true,
            if_false, Envelope.OpenSymmetric, hdecrypt]
          rfl

/-- The key of a filter that matches the encryption of the parameters: the
private key of `Dst`, or `KeySym` when there is no `Dst`. -/
def Matches (c : Crypto PrivateKey PublicKey) (params : MessageParams PrivateKey PublicKey)
    (watcher : Filter PrivateKey) : Prop :=
  (∃ key, params.Dst = some (c.Public key) ∧ watcher = ⟨some key, none⟩) ∨
    (params.Dst = none ∧ ∃ key, params.KeySym = some key ∧ watcher = ⟨none, some key⟩)

/-- The plaintext that `Wrap` encrypts, signed or not, parses, whatever its
salt, to the payload, the padding and the signer of the parameters.

Unsigned: the plaintext is the message as built. Signed: the signature
recovers the public key of the signing key. -/
theorem ValidateAndParse_sealed {c : Crypto PrivateKey PublicKey} (hc : c.Lawful)
    {params : MessageParams PrivateKey PublicKey} {ent : Entropy} {msg msg₁ : sentMessage}
    (hsize : params.Payload.length < 2 ^ 24) (hnew : NewSentMessage params ent = some (.ok msg))
    (hsign : params.Src = none ∧ msg₁ = msg ∨ ∃ key, params.Src = some key ∧ msg.sign c key = .ok msg₁)
    (salt : Bytes) :
    ∃ m, ({ Raw := msg₁.Raw, Salt := salt } : ReceivedMessage PublicKey).ValidateAndParse c = some (true, m) ∧
      m.Payload = params.Payload ∧ PaddingOk params ent m.Padding ∧ m.Src = params.Src.map c.Public := by
  obtain ⟨hflags, pad, hbody, hpad⟩ := NewSentMessage_ok hsize hnew
  obtain ⟨h1, h3, -⟩ := getSizeOfPayloadSizeField_spec hsize
  obtain ⟨-, -, hunsigned, -⟩ := flags_of_size h1 h3
  rcases hsign with ⟨hsrc, hmsg⟩ | ⟨key, hsrc, hsign⟩
  · rw [hmsg]
    have hraw : msg.Raw = (getSizeOfPayloadSizeField params.Payload).toUInt8 ::
        (sizeField params.Payload ++ params.Payload ++ pad) := by
      rw [sentMessage.Raw, hflags, hbody]
    refine ⟨_, ValidateAndParse_unsigned_build c _ hsize hraw, rfl, hpad, ?_⟩
    rw [hsrc]
    rfl
  · obtain ⟨sig, hsig, rfl⟩ := sign_ok c (by rw [hflags]; exact hunsigned) hsign
    obtain ⟨hsiglen, hrec⟩ := hc.sign _ _ _ hsig
    rw [hflags, hbody] at hrec
    have hraw : sentMessage.Raw ⟨msg.flags ||| signatureFlag, msg.body ++ sig⟩ =
        ((getSizeOfPayloadSizeField params.Payload).toUInt8 ||| signatureFlag) ::
          (sizeField params.Payload ++ params.Payload ++ pad ++ sig) := by
      rw [sentMessage.Raw, hflags, hbody]
    refine ⟨_, ValidateAndParse_signed_build c _ hsize hsiglen hraw hrec, rfl, hpad, ?_⟩
    rw [hsrc]
    rfl

/-- The round trip: the envelope of the message that `NewSentMessage` builds
and `Wrap` seals opens, under the matching key, to the payload of the
parameters, their padding or the generated one, and the public key of their
signing key.

Encrypted to the public key of the filter's key. Sealed under the filter's
symmetric key. -/
theorem Open_Wrap {c : Crypto PrivateKey PublicKey} (hc : c.Lawful) {params : MessageParams PrivateKey PublicKey}
    {ent : Entropy} {msg : sentMessage} {data : Bytes} {watcher : Filter PrivateKey}
    (hsize : params.Payload.length ≤ MaxMessageSize) (hnew : NewSentMessage params ent = some (.ok msg))
    (hwrap : msg.Wrap c params ent = .ok data) (hkey : Matches c params watcher) :
    ∃ m, Envelope.Open c ⟨data⟩ (some watcher) = some (some m) ∧ m.Payload = params.Payload ∧
      PaddingOk params ent m.Padding ∧ m.Src = params.Src.map c.Public := by
  have hsize' : params.Payload.length < 2 ^ 24 := by
    unfold MaxMessageSize at hsize
    omega
  obtain ⟨msg₁, hsign, hencrypt⟩ := Wrap_ok c hwrap
  have hparse := ValidateAndParse_sealed hc hsize' hnew hsign
  rcases hkey with ⟨key, hdst, rfl⟩ | ⟨hdst, key, hkeysym, rfl⟩
  · obtain ⟨dst, hdst', hasym⟩ | ⟨hnone, -⟩ := hencrypt
    · rw [hdst, Option.some.injEq] at hdst'
      subst hdst'
      obtain ⟨m, hm, hspec⟩ := hparse []
      refine ⟨m, ?_, hspec⟩
      rw [Open_asymmetric hc hasym]
      rw [show ({ Raw := msg₁.Raw } : ReceivedMessage PublicKey) = { Raw := msg₁.Raw, Salt := [] } from rfl, hm]
      rfl
    · rw [hdst] at hnone
      cases hnone
  · obtain ⟨dst, hdst', -⟩ | ⟨-, key', hkey', hsym⟩ := hencrypt
    · rw [hdst] at hdst'
      cases hdst'
    · rw [hkeysym, Option.some.injEq] at hkey'
      subst hkey'
      obtain ⟨salt, hopen⟩ := Open_symmetric hc hsym
      obtain ⟨m, hm, hspec⟩ := hparse salt
      refine ⟨m, ?_, hspec⟩
      rw [hopen, hm]
      rfl


/-- The failure of the bound check: a signed plaintext whose one-byte size
field `n` counts itself among the `n + 1` bytes before the signature. The
check `payloadSize + 1 > end` passes, the payload runs one byte into the
signature, and the slice of the padding, from `n + 2` to `n + 1`, runs
backwards.

The size field reads `n`. -/
theorem ValidateAndParse_signed_size_overrun (c : Crypto PrivateKey PublicKey) {n : Nat} (hn : 1 ≤ n)
    (hn' : n < 256) (body sig : Bytes) (hbody : body.length = n - 1) (hsig : sig.length = signatureLength)
    (hsrc : (c.SigToPub (c.Keccak256 (5 :: n.toUInt8 :: body)) sig).isSome) :
    ({ Raw := 5 :: n.toUInt8 :: (body ++ sig) } : ReceivedMessage PublicKey).ValidateAndParse c = none := by
  obtain ⟨src, hsrc⟩ := Option.isSome_iff_exists.mp hsrc
  have hlen : (5 :: n.toUInt8 :: (body ++ sig)).length = n + 1 + signatureLength := by
    rw [List.length_cons, List.length_cons, List.length_append, hbody, hsig]
    omega
  have hsplit : (5 : UInt8) :: n.toUInt8 :: (body ++ sig) = (5 :: n.toUInt8 :: body) ++ sig ++ [] := by simp
  have hgetsig : Slice.get (5 :: n.toUInt8 :: (body ++ sig)) (n + 1) (n + 1 + signatureLength) = some sig := by
    rw [hsplit]
    exact get_append_of _ _ _ (by simp; omega) (by simp [hsig]; omega)
  have hsigtopub : ReceivedMessage.SigToPubKey c
      ({ Raw := 5 :: n.toUInt8 :: (body ++ sig), Signature := sig } : ReceivedMessage PublicKey) = some src := by
    unfold ReceivedMessage.SigToPubKey
    rw [hash_signed c rfl (by decide) (by rw [hlen]; omega), hlen, Nat.add_sub_cancel, Option.bind_some,
      show (5 : UInt8) :: n.toUInt8 :: (body ++ sig) = (5 :: n.toUInt8 :: body) ++ sig by simp,
      List.take_left' (by simp; omega)]
    exact hsrc
  have hfield : (bytesToUintLittleEndian [n.toUInt8]).toNat = n := by
    rw [bytesToUintLittleEndian_toNat (by simp), List.map_cons, List.map_nil, Nat.ofDigits_singleton,
      Nat.toUInt8_eq, UInt8.toNat_ofNat', Nat.mod_eq_of_lt (by omega)]
  unfold ReceivedMessage.ValidateAndParse
  dsimp only
  rw [if_pos (by decide), hlen, Nat.add_sub_cancel, if_neg (by omega)]
  simp only [Option.bind_eq_bind]
  rw [hgetsig, Option.bind_some, hsigtopub]
  unfold ReceivedMessage.parsePayload
  simp only [Option.bind_eq_bind]
  rw [show ((5 : UInt8) &&& SizeMask).toNat = 1 from rfl, if_pos (by decide),
    get_of_le (by omega) (by simp), Option.bind_some,
    show List.take (1 + 1 - 1) (List.drop 1 (5 :: n.toUInt8 :: (body ++ sig))) = [n.toUInt8] from rfl, hfield,
    if_neg (by omega), get_of_le (by omega) (by rw [hlen]; unfold signatureLength; omega), Option.bind_some,
    get_eq_none_iff.mpr (Or.inl (by omega)), Option.bind_none]

/-- An envelope that decrypts, under the private key of a filter, to such a
plaintext makes `Open` panic. -/
theorem Open_signed_size_overrun (c : Crypto PrivateKey PublicKey) {n : Nat} (hn : 1 ≤ n) (hn' : n < 256)
    (body sig : Bytes) (hbody : body.length = n - 1) (hsig : sig.length = signatureLength)
    (hsrc : (c.SigToPub (c.Keccak256 (5 :: n.toUInt8 :: body)) sig).isSome) {key : PrivateKey} {data : Bytes}
    (hdec : c.EciesDecrypt key data = .ok (5 :: n.toUInt8 :: (body ++ sig))) :
    Envelope.Open c ⟨data⟩ (some ⟨some key, none⟩) = none := by
  simp only [Envelope.Open, Option.isSome_some, Option.isSome_none, Bool.and_false, Bool.false_eq_true,
    if_false, Envelope.OpenAsymmetric, ReceivedMessage.decryptAsymmetric, hdec, Except.toOption,
    ValidateAndParse_signed_size_overrun c hn hn' body sig hbody hsig hsrc, Option.map_none]

/-- A remote peer seals `05 01` and a signature of its own under the
identity primitives. -/
theorem Open_signed_size_overrun_one :
    1 ≤ 1 ∧ 1 < 256 ∧ ([] : Bytes).length = 1 - 1 ∧ (List.replicate 65 (0 : UInt8)).length = signatureLength ∧
      (identityCrypto.SigToPub (identityCrypto.Keccak256 [5, (1 : Nat).toUInt8]) (List.replicate 65 0)).isSome ∧
      identityCrypto.EciesDecrypt () (5 :: (1 : Nat).toUInt8 :: ([] ++ List.replicate 65 0)) =
        .ok (5 :: (1 : Nat).toUInt8 :: ([] ++ List.replicate 65 0)) ∧
      Envelope.Open identityCrypto ⟨5 :: (1 : Nat).toUInt8 :: ([] ++ List.replicate 65 0)⟩ (some ⟨some (), none⟩) =
        none :=
  ⟨Nat.le_refl 1, by decide, rfl, rfl, rfl, rfl,
    Open_signed_size_overrun identityCrypto (Nat.le_refl 1) (by decide) [] (List.replicate 65 0) rfl rfl rfl rfl⟩

end Lemochain.Whisper
