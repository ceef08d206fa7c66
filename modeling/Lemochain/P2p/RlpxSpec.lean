import Mathlib.Order.Lattice.Nat
import Lemochain.P2p.Rlpx

/-!
# The RLPx frame round trip

Two ends of a session share the ciphers: the writer's `enc` and the
reader's `dec` are made from the same AES secret and IV, and one MAC cipher.
`Mirror w r` says they are in lock-step: the reader's stream is where the
writer's is, its ingress MAC has been written what the writer's egress MAC
has, and snappy is on at both ends or at neither.

A frame is read back by the reader in lock-step because the header it
decrypts is the header the writer encrypted, so the 24-bit size is read as
written (`readInt24_putInt24`), the reader's rounding of that size to 16
bytes is the length of the padded frame the writer wrote
(`length_add_padding`), and both MACs are computed from the same hash
contents on both sides.

## Main results

* `readFrame_writeFrame`: one frame, written and read back.
* `WriteMsg_ReadMsg`: one message, written and read back; snappy compresses
  and decompresses when it is on.
* `rlpx_frame_round_trip`: every sequence of messages that fit, written by
  successive `WriteMsg` calls, is read back by as many `ReadMsg` calls, the
  same messages in the same order, whatever follows on the connection, and
  the two ends are in lock-step after it.
-/

namespace Lemochain.P2p

open Lemochain.Rlp Lemochain.Keystream

section Frames

/-- `x ||| y <<< i` is a sum when `x` fits below bit `i`. -/
theorem or_shiftLeft_eq_add {x : Nat} (y : Nat) {i : Nat} (hx : x < 2 ^ i) :
    x ||| y <<< i = y * 2 ^ i + x := by
  rw [Nat.or_comm, ← Nat.shiftLeft_add_eq_or_of_lt hx, Nat.shiftLeft_eq]

theorem readInt24_putInt24 {v : Nat} (hv : v < 2 ^ 24) (rest : Bytes) :
    readInt24 (putInt24 v ++ rest) = v := by
  have hlo : v % 256 ||| ((v >>> 8) % 256) <<< 8 = ((v >>> 8) % 256) * 2 ^ 8 + v % 256 :=
    or_shiftLeft_eq_add _ (Nat.mod_lt _ (by decide))
  have hmid : ((v >>> 8) % 256) * 2 ^ 8 + v % 256 < 2 ^ 16 := by
    have := Nat.mod_lt (v >>> 8) (show 256 > 0 by decide)
    omega
  simp only [readInt24, putInt24, List.cons_append, List.nil_append, List.getD_cons_succ,
    List.getD_cons_zero, Nat.toUInt8_eq, UInt8.toNat_ofNat', hlo, or_shiftLeft_eq_add _ hmid]
  simp only [Nat.shiftRight_eq_div_pow]
  omega

/-- A writer and a reader in lock-step: the reader's decryption stream is
where the writer's encryption stream is, the reader's ingress MAC has been
written what the writer's egress MAC has, and snappy is on at both or at
neither. -/
structure Mirror (w r : FrameRW) : Prop where
  stream : w.enc = r.dec
  mac : w.egressMAC = r.ingressMAC
  snappy : w.snappy = r.snappy

theorem readFull_append {b : Bytes} {n : Nat} (h : b.length = n) (rest : Bytes) :
    readFull (b ++ rest) n = .ok (b, rest) := by
  subst h
  simp [readFull]

variable (c : Ciphers)

@[simp] theorem updateMAC_snd_length (mac seed : Bytes) : (updateMAC c mac seed).2.length = 16 := by
  simp [updateMAC, c.keccak_length]

theorem length_add_padding (fsize : Nat) :
    fsize + (padding fsize).length = if fsize % 16 > 0 then fsize + (16 - fsize % 16) else fsize := by
  unfold padding
  split_ifs <;> simp

theorem putInt24_header_length (fsize : Nat) :
    (putInt24 fsize ++ zeroHeader ++ List.replicate 10 0).length = 16 := by
  simp [putInt24, zeroHeader]

/-- A frame that a writer writes, the reader in lock-step with it reads
back, whatever follows it on the connection; after it the two are in
lock-step again.

The four pieces `writeFrame` writes, the header first. What the reader
decrypts, at the positions the writer encrypted at. The reader's MAC and
stream are the writer's. -/
theorem readFrame_writeFrame {w r : FrameRW} (hm : Mirror w r) {fsize : Nat} {content : Bytes}
    (hlen : content.length = fsize) (hfs : fsize < 2 ^ 24) :
    ∃ r', Mirror (writeFrame c w fsize content).1 r' ∧
      ∀ rest, readFrame c r ((writeFrame c w fsize content).2 ++ rest) = .ok (content, r', rest) := by
  set header := putInt24 fsize ++ zeroHeader ++ List.replicate 10 0 with hheader
  set head := xorKeyStream c.keystream w.enc header
  set mac₁ := updateMAC c w.egressMAC head
  set frame := xorKeyStream c.keystream (w.enc + 16) (content ++ padding fsize)
  set mac₂ := updateMAC c (mac₁.1 ++ frame) (c.keccak (mac₁.1 ++ frame))
  have hhead : head.length = 16 := (xorKeyStream_length _ _ _).trans (putInt24_header_length fsize)
  have hmac₁ : mac₁.2.length = 16 := updateMAC_snd_length c _ _
  have hmac₂ : mac₂.2.length = 16 := updateMAC_snd_length c _ _
  have hframe : frame.length = if fsize % 16 > 0 then fsize + (16 - fsize % 16) else fsize := by
    simp [frame, ← length_add_padding, hlen]
  have hsize : readInt24 (xorKeyStream c.keystream w.enc head) = fsize := by
    rw [xorKeyStream_xorKeyStream, hheader, List.append_assoc, readInt24_putInt24 hfs]
  have hcontent : (xorKeyStream c.keystream (w.enc + 16) frame).take fsize = content := by
    rw [xorKeyStream_xorKeyStream, List.take_left' hlen]
  refine ⟨{ r with dec := r.dec + 16 + frame.length, ingressMAC := mac₂.1 }, ?_, fun rest => ?_⟩
  · have hw : (writeFrame c w fsize content).1 =
        { w with enc := w.enc + 16 + frame.length, egressMAC := mac₂.1 } := rfl
    rw [hw]
    exact ⟨congrArg (· + 16 + frame.length) hm.stream, rfl, hm.snappy⟩
  have hout : (writeFrame c w fsize content).2 ++ rest = (head ++ mac₁.2) ++ (frame ++ (mac₂.2 ++ rest)) := by
    simp [writeFrame, head, mac₁, frame, mac₂, header]
  have h₁ : readFull ((head ++ mac₁.2) ++ (frame ++ (mac₂.2 ++ rest))) 32 =
      .ok (head ++ mac₁.2, frame ++ (mac₂.2 ++ rest)) := readFull_append (by simp [hhead, hmac₁]) _
  have h₂ : readFull (frame ++ (mac₂.2 ++ rest)) frame.length = .ok (frame, mac₂.2 ++ rest) :=
    readFull_append rfl _
  have h₃ : readFull (mac₂.2 ++ rest) 16 = .ok (mac₂.2, rest) := readFull_append hmac₂ _
  rw [hout]
  simp only [readFrame, h₁, List.take_left' hhead, List.drop_left' hhead, bind, Except.bind]
  rw [← hm.mac, ← hm.stream]
  have e₁ : updateMAC c w.egressMAC head = mac₁ := rfl
  have e₂ : updateMAC c (mac₁.1 ++ frame) (c.keccak (mac₁.1 ++ frame)) = mac₂ := rfl
  simp only [hsize, ← hframe, h₂, h₃, e₁, e₂, ne_eq, not_true_eq_false, ↓reduceIte, hcontent, pure,
    Except.pure]

end Frames

section Messages

variable (c : Ciphers)

/-- `rlp.EncodeToBytes(msg.Code)`. -/
def ptypeOf (code : UInt64) : Bytes := encode (.str (minimalBytes code.toNat))

/-- The payload `WriteMsg` puts in the frame: compressed when snappy is on. -/
def framedPayload (sn : Snappy) (snappy : Bool) (m : Msg) : Bytes :=
  if snappy then sn.Encode m.Payload else m.Payload

/-- A message of the round trip: its size is its payload's, and the RLP of
its code and its payload fit in 24 bits, and with snappy on also the RLP of
its code and the compressed payload. -/
def Fits (sn : Snappy) (snappy : Bool) (m : Msg) : Prop :=
  m.Size.toNat = m.Payload.length ∧ (ptypeOf m.Code).length + m.Payload.length ≤ maxUint24 ∧
    (snappy = true → (ptypeOf m.Code).length + (sn.Encode m.Payload).length ≤ maxUint24)

instance (sn : Snappy) (snappy : Bool) (m : Msg) : Decidable (Fits sn snappy m) :=
  inferInstanceAs (Decidable (_ ∧ _ ∧ _))

theorem Fits.framed {sn : Snappy} {snappy : Bool} {m : Msg} (h : Fits sn snappy m) :
    (ptypeOf m.Code).length + (framedPayload sn snappy m).length ≤ maxUint24 := by
  cases snappy
  · exact h.2.1
  · exact h.2.2 rfl

theorem EncodeToBytes_code (code : UInt64) : EncodeToBytes (.uint code.toNat) = .ok (ptypeOf code) := rfl

/-- A message that fits is written as one frame of its code's RLP and its
framed payload. -/
theorem WriteMsg_of_fits (sn : Snappy) {w : FrameRW} {msg : Msg} (hfit : Fits sn w.snappy msg) :
    WriteMsg c sn w msg =
      .ok (writeFrame c w ((ptypeOf msg.Code).length + (framedPayload sn w.snappy msg).length)
        (ptypeOf msg.Code ++ framedPayload sn w.snappy msg)) := by
  have hf := hfit.framed
  obtain ⟨hsize, hplain, -⟩ := hfit
  unfold WriteMsg
  rw [EncodeToBytes_code]
  cases hsn : w.snappy
  · have hmod : ((ptypeOf msg.Code).length + msg.Size.toNat) % 2 ^ 32 =
        (ptypeOf msg.Code).length + msg.Payload.length := by
      rw [hsize]; exact Nat.mod_eq_of_lt (by unfold maxUint24 at hplain; omega)
    have hle : ¬ (ptypeOf msg.Code).length + msg.Payload.length > maxUint24 := by omega
    simp only [Bool.false_eq_true, ↓reduceIte, framedPayload, hmod, hle, pure, Except.pure, bind, Except.bind]
  · rw [hsn] at hf
    simp only [framedPayload, ↓reduceIte] at hf
    have hplain' : ¬ msg.Size.toNat > maxUint24 := by omega
    have hmod : ((ptypeOf msg.Code).length + (sn.Encode msg.Payload).length.toUInt32.toNat) % 2 ^ 32 =
        (ptypeOf msg.Code).length + (sn.Encode msg.Payload).length := by
      unfold maxUint24 at hf
      rw [Nat.toUInt32_eq, UInt32.toNat_ofNat_of_lt' (by unfold UInt32.size; omega)]
      exact Nat.mod_eq_of_lt (by omega)
    have hle : ¬ (ptypeOf msg.Code).length + (sn.Encode msg.Payload).length > maxUint24 := by omega
    simp only [↓reduceIte, framedPayload, hplain', hmod, hle, pure, Except.pure, bind, Except.bind]

/-- What `ReadMsg` needs of snappy: a compressed payload gives back its
length and itself. -/
structure Snappy.Lawful (sn : Snappy) : Prop where
  decodedLen_encode : ∀ b, sn.DecodedLen (sn.Encode b) = .ok b.length
  decode_encode : ∀ b, sn.Decode (sn.Encode b) = .ok b

/-- A message is rebuilt from its code, its payload's length and its payload. -/
theorem Msg.rebuild {m : Msg} (h : m.Size.toNat = m.Payload.length) :
    (⟨m.Code.toNat.toUInt64, m.Payload.length.toUInt32, m.Payload⟩ : Msg) = m := by
  rw [← h]
  simp

/-- A frame of a message's code and its framed payload is read back as the
message. -/
theorem ReadMsg_of_readFrame {sn : Snappy} (hsn : sn.Lawful) {r r' : FrameRW} {conn rest : Bytes} {msg : Msg}
    {snappy : Bool} (hs : r'.snappy = snappy) (hfit : Fits sn snappy msg)
    (h : readFrame c r conn = .ok (ptypeOf msg.Code ++ framedPayload sn snappy msg, r', rest)) :
    ReadMsg c sn r conn = .ok (msg, r', rest) := by
  subst hs
  obtain ⟨s, hs, hsr⟩ := uint_encode (UInt64.toNat_lt msg.Code) (framedPayload sn r'.snappy msg)
  have hf := hfit.framed
  obtain ⟨hsize, hplain, -⟩ := hfit
  unfold ReadMsg
  simp only [h, ptypeOf, hs, hsr, bind, Except.bind]
  cases hsn' : r'.snappy
  · simp only [Bool.false_eq_true, ↓reduceIte, framedPayload, Msg.rebuild hsize, pure, Except.pure]
  · have hle : ¬ msg.Payload.length > maxUint24 := by omega
    simp only [↓reduceIte, framedPayload, hsn.decodedLen_encode, hsn.decode_encode, Except.mapError, hle,
      Msg.rebuild hsize, pure, Except.pure]

/-- One message: what `WriteMsg` writes, `ReadMsg` at the other end reads
back as the same message, and the two ends stay in lock-step. -/
theorem WriteMsg_ReadMsg {sn : Snappy} (hsn : sn.Lawful) {w r : FrameRW} (hm : Mirror w r) {msg : Msg}
    (hfit : Fits sn w.snappy msg) :
    ∃ w' out r', WriteMsg c sn w msg = .ok (w', out) ∧ w'.snappy = w.snappy ∧ Mirror w' r' ∧
      ∀ rest, ReadMsg c sn r (out ++ rest) = .ok (msg, r', rest) := by
  have hf := hfit.framed
  have hlen : (ptypeOf msg.Code ++ framedPayload sn w.snappy msg).length =
      (ptypeOf msg.Code).length + (framedPayload sn w.snappy msg).length := List.length_append ..
  obtain ⟨r', hm', hread⟩ := readFrame_writeFrame c hm hlen (by unfold maxUint24 at hf; omega)
  have hs : r'.snappy = w.snappy := hm'.snappy.symm
  refine ⟨_, _, r', WriteMsg_of_fits c sn hfit, rfl, hm', fun rest => ?_⟩
  exact ReadMsg_of_readFrame c hsn hs hfit (hread rest)

end Messages

section Sessions

variable (c : Ciphers)

/-- Successive `WriteMsg` calls: the bytes of one frame after the other. -/
def WriteMsgs (c : Ciphers) (sn : Snappy) : FrameRW → List Msg → Except FrameError (FrameRW × Bytes)
  | rw, [] => .ok (rw, [])
  | rw, m :: ms => do
      let (rw, out) ← WriteMsg c sn rw m
      let (rw, outs) ← WriteMsgs c sn rw ms
      pure (rw, out ++ outs)

/-- `n` successive `ReadMsg` calls on one connection. -/
def ReadMsgs (c : Ciphers) (sn : Snappy) : Nat → FrameRW → Bytes → Except FrameError (List Msg × FrameRW × Bytes)
  | 0, rw, conn => .ok ([], rw, conn)
  | n + 1, rw, conn => do
      let (m, rw, conn) ← ReadMsg c sn rw conn
      let (ms, rw, conn) ← ReadMsgs c sn n rw conn
      pure (m :: ms, rw, conn)

theorem rlpx_frame_round_trip {sn : Snappy} (hsn : sn.Lawful) {w r : FrameRW} (hm : Mirror w r)
    {msgs : List Msg} (hfit : ∀ m ∈ msgs, Fits sn w.snappy m) :
    ∃ w' out r', WriteMsgs c sn w msgs = .ok (w', out) ∧ Mirror w' r' ∧
      ∀ rest, ReadMsgs c sn msgs.length r (out ++ rest) = .ok (msgs, r', rest) := by
  induction msgs generalizing w r with
  | nil => exact ⟨w, [], r, rfl, hm, fun rest => rfl⟩
  | cons m ms ih =>
      obtain ⟨w₁, out₁, r₁, hw₁, hs₁, hm₁, hr₁⟩ := WriteMsg_ReadMsg c hsn hm (hfit m List.mem_cons_self)
      have hfit₁ : ∀ m' ∈ ms, Fits sn w₁.snappy m' := fun m' h => hs₁ ▸ hfit m' (List.mem_cons_of_mem m h)
      obtain ⟨w', outs, r', hws, hm', hrs⟩ := ih hm₁ hfit₁
      refine ⟨w', out₁ ++ outs, r', ?_, hm', fun rest => ?_⟩
      · simp only [WriteMsgs, hw₁, hws, bind, Except.bind, pure, Except.pure]
      · simp only [ReadMsgs, List.length_cons, List.append_assoc, hr₁, hrs, bind, Except.bind, pure,
          Except.pure]

/-- A snappy that stores a payload as it is. -/
def storedSnappy : Snappy := ⟨id, fun b => .ok b.length, fun b => .ok b⟩

/-- Ciphers for a concrete run: a counting keystream, a MAC cipher that
keeps its first block, a hash that only counts. -/
def countingCiphers : Ciphers where
  keystream n := n.toUInt8
  macEncrypt b := (b ++ List.replicate 16 0).take 16
  macEncrypt_length b := by simp
  keccak b := List.replicate 32 b.length.toUInt8
  keccak_length b := by simp

/-- A fresh end of a session with snappy on. -/
def freshRW : FrameRW := ⟨0, 0, [], [], true⟩

theorem rlpx_frame_round_trip_two :
    storedSnappy.Lawful ∧ Mirror freshRW freshRW ∧
      (∀ m ∈ [(⟨0x10, 2, [1, 2]⟩ : Msg), ⟨0x80, 0, []⟩], Fits storedSnappy freshRW.snappy m) ∧
      ∃ w' out r', WriteMsgs countingCiphers storedSnappy freshRW [⟨0x10, 2, [1, 2]⟩, ⟨0x80, 0, []⟩] =
          .ok (w', out) ∧ Mirror w' r' ∧
        ∀ rest, ReadMsgs countingCiphers storedSnappy 2 freshRW (out ++ rest) =
          .ok ([⟨0x10, 2, [1, 2]⟩, ⟨0x80, 0, []⟩], r', rest) := by
  have hsn : storedSnappy.Lawful := ⟨fun _ => rfl, fun _ => rfl⟩
  have hm : Mirror freshRW freshRW := ⟨rfl, rfl, rfl⟩
  have hfit : ∀ m ∈ [(⟨0x10, 2, [1, 2]⟩ : Msg), ⟨0x80, 0, []⟩], Fits storedSnappy freshRW.snappy m := by
    decide
  exact ⟨hsn, hm, hfit, rlpx_frame_round_trip countingCiphers hsn hm hfit⟩

end Sessions

end Lemochain.P2p
