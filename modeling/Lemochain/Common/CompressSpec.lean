import Mathlib.Algebra.Order.Ring.Nat
import Mathlib.Data.FinEnum
import Mathlib.Data.Nat.SuccPred
import Lemochain.Common.Compress
import Lemochain.Lib.Loop

/-!
# The bitset compression round trip

`gather` collects the non-zero bytes of its input in order and sets bit `i`
of the bitset exactly for the non-zero byte `i` (`gather_spec`). The decoder
then reads, from the encoding of an input followed by any bytes, the input
and the length of its encoding (`decode_encode`): the bitset first, by the
recursion, and then each non-zero byte into its place.

## Main results

* `decode_encode`: `bitsetDecodePartialBytes` inverts `bitsetEncodeBytes`,
  and uses exactly the encoding.
* `DecompressBytes_CompressBytes`: the round trip of `CompressBytes`, which
  never lengthens its input; for every input and every target up to
  `maxAlloc`, `DecompressBytes` returns the target's number of bytes or an
  error that is not a panic, and above `maxAlloc` it panics in `make`.

Every slice the source can hold has at most `maxAlloc` bytes, so the bound on
the input is no restriction; the bound on the target is the source's own.
-/

namespace Lemochain.Bitutil

open Lemochain.PackedBits Lemochain.Loop

/-! ## The bitset of the non-zero bytes -/

/-- The mask of `decodeStep` and `encodeStep` selects bit `k % 8` of a
byte, counted from the most significant. -/
theorem mask_ne_zero_iff (b : UInt8) (k : Nat) :
    b &&& ((1 : UInt8) <<< (7 - k % 8).toUInt8) ≠ 0 ↔ maskBit b (k % 8) = true := by
  rw [one_shiftLeft_eq _ (Nat.mod_lt _ (by decide)), maskBit]
  simp

/-- The mask `encodeStep` ors into byte `k / 8` holds bit `k` alone.

`q` and `k` are one bit when their bytes and their places agree. -/
theorem bitAt_orAt_mask {bits : Bytes} {k : Nat} (hk : k / 8 < bits.length) (q : Nat) :
    bitAt (orAt bits (k / 8) ((1 : UInt8) <<< (7 - k % 8).toUInt8)) q = (bitAt bits q || decide (q = k)) := by
  have hq := Nat.mod_lt q (show 0 < 8 by decide)
  have hk8 := Nat.mod_lt k (show 0 < 8 by decide)
  rw [bitAt_orAt hk, one_shiftLeft_eq _ hk8, maskBit_single _ hk8 _ hq]
  congr 1
  rw [← Bool.decide_and, decide_eq_decide]
  omega

/-- The loop of `bitsetEncodeBytes` from byte index `k` on: it appends the
non-zero bytes, and sets the bits of the non-zero bytes and no other.

A zero byte leaves both alone. -/
theorem foldl_encodeStep : ∀ (l : Bytes) (k : Nat) (bs nz : Bytes), (k + l.length + 7) / 8 ≤ bs.length →
    ((l.zipIdx k).foldl encodeStep (bs, nz)).2 = nz ++ l.filter (· ≠ 0) ∧
    ∀ q, bitAt ((l.zipIdx k).foldl encodeStep (bs, nz)).1 q =
      (bitAt bs q || (decide (k ≤ q) && (l.getD (q - k) 0 != 0)))
  | [], k, bs, nz, _ => by simp
  | b :: l, k, bs, nz, hlen => by
    rw [List.zipIdx_cons, List.foldl_cons]
    by_cases hb : b = 0
    · have hstep : encodeStep (bs, nz) (b, k) = (bs, nz) := if_neg (not_not.mpr hb)
      obtain ⟨h2, h1⟩ := foldl_encodeStep l (k + 1) bs nz (by simp at hlen; omega)
      refine ⟨by rw [hstep, h2, List.filter_cons_of_neg (by simpa using hb)], fun q => ?_⟩
      rw [hstep, h1]
      rcases Nat.lt_trichotomy q k with h | rfl | h
      · simp [Nat.not_le.mpr h, Nat.not_le.mpr (Nat.lt_succ_of_lt h)]
      · simp [hb]
      · rw [show q - k = (q - (k + 1)) + 1 by omega, List.getD_cons_succ]
        simp [Nat.le_of_lt h, Nat.succ_le_of_lt h]
    · have hstep : encodeStep (bs, nz) (b, k) =
          (orAt bs (k / 8) ((1 : UInt8) <<< (7 - k % 8).toUInt8), nz ++ [b]) := if_pos hb
      have hk : k / 8 < bs.length := by simp at hlen; omega
      obtain ⟨h2, h1⟩ := foldl_encodeStep l (k + 1) (orAt bs (k / 8) ((1 : UInt8) <<< (7 - k % 8).toUInt8)) (nz ++ [b])
        (by simp at hlen ⊢; omega)
      refine ⟨by rw [hstep, h2, List.filter_cons_of_pos (by simpa using hb), List.append_assoc]; rfl, fun q => ?_⟩
      rw [hstep, h1, bitAt_orAt_mask hk]
      rcases Nat.lt_trichotomy q k with h | rfl | h
      · simp [Nat.not_le.mpr h, Nat.not_le.mpr (Nat.lt_succ_of_lt h), Nat.ne_of_lt h]
      · simp [hb]
      · rw [show q - k = (q - (k + 1)) + 1 by omega, List.getD_cons_succ]
        simp [Nat.le_of_lt h, Nat.succ_le_of_lt h, Nat.ne_of_gt h]

/-- `gather` keeps the non-zero bytes and sets bit `q` exactly for a non-zero
byte `q`. -/
theorem gather_spec (data : Bytes) :
    (gather data).2 = data.filter (· ≠ 0) ∧ ∀ q, bitAt (gather data).1 q = (data.getD q 0 != 0) := by
  obtain ⟨h2, h1⟩ := foldl_encodeStep data 0 (List.replicate ((data.length + 7) / 8) 0) [] (by simp)
  refine ⟨h2, fun q => ?_⟩
  rw [gather, h1, bitAt_replicate_zero]
  simp

/-! ## Placing the non-zero bytes -/

theorem index_of_lt {s : Bytes} {i : Nat} (h : i < s.length) : index s i = .ok (s.getD i 0) := by
  rw [index, List.getElem?_eq_getElem h, List.getD_eq_getElem _ _ h]

/-- The output of the placing loop after `i` bits: the first `i` bytes of
the input, and zeros after them. -/
def placed (data : Bytes) (n i : Nat) : Bytes := data.take i ++ List.replicate (n - i) 0

theorem length_placed {data : Bytes} {n : Nat} (hn : data.length = n) (i : Nat) :
    (placed data n i).length = n := by
  simp only [placed, List.length_append, List.length_take, List.length_replicate]
  omega

theorem getD_eq_zero_of_le {data : Bytes} {i : Nat} (h : data.length ≤ i) : data.getD i 0 = 0 := by
  rw [List.getD_eq_getElem?_getD, List.getElem?_eq_none h]
  rfl

theorem placed_succ_of_zero {data : Bytes} {n i : Nat} (hn : data.length = n) (h0 : data.getD i 0 = 0) :
    placed data n (i + 1) = placed data n i := by
  by_cases hi : i < n
  · have hi' : i < data.length := by omega
    have hget : data[i] = 0 := by rwa [List.getD_eq_getElem _ _ hi'] at h0
    rw [placed, placed, List.take_add_one, List.getElem?_eq_getElem hi', hget,
      show n - i = (n - (i + 1)) + 1 by omega, List.replicate_succ]
    simp
  · rw [placed, placed, List.take_of_length_le (by omega), List.take_of_length_le (by omega),
      show n - (i + 1) = n - i by omega]

theorem placed_set {data : Bytes} {n i : Nat} (hn : data.length = n) (hi : i < n) :
    (placed data n i).set i (data.getD i 0) = placed data n (i + 1) := by
  have hi' : i < data.length := by omega
  have hsucc : data.take (i + 1) = data.take i ++ [data.getD i 0] := by
    rw [List.take_add_one, List.getElem?_eq_getElem hi', List.getD_eq_getElem _ _ hi']
    rfl
  rw [placed, placed, hsucc, List.set_append, if_neg (by rw [List.length_take]; omega), List.length_take, Nat.min_eq_left (by omega),
    Nat.sub_self, show n - i = (n - (i + 1)) + 1 by omega, List.replicate_succ, List.set_cons_zero, List.append_assoc]
  rfl

/-- The non-zero byte at `i` follows the non-zero bytes before it. -/
theorem getD_filter_take {data : Bytes} {i : Nat} (hi : i < data.length) (h : data.getD i 0 ≠ 0) :
    (data.filter (· ≠ 0)).getD ((data.take i).filter (· ≠ 0)).length 0 = data.getD i 0 := by
  rw [List.getD_eq_getElem _ _ hi] at h ⊢
  have hsplit : data.filter (· ≠ 0) = (data.take i).filter (· ≠ 0) ++ data[i] :: (data.drop (i + 1)).filter (· ≠ 0) := by
    conv_lhs => rw [← List.take_append_drop i data, List.drop_eq_getElem_cons hi]
    rw [List.filter_append, List.filter_cons_of_pos (by simpa using h)]
  rw [hsplit, List.getD_append_right _ _ _ _ (Nat.le_refl _), Nat.sub_self, List.getD_cons_zero]

theorem length_filter_take_succ (data : Bytes) (i : Nat) :
    ((data.take (i + 1)).filter (· ≠ 0)).length =
      ((data.take i).filter (· ≠ 0)).length + if data.getD i 0 ≠ 0 then 1 else 0 := by
  by_cases hi : i < data.length
  · rw [List.take_add_one, List.getElem?_eq_getElem hi, List.getD_eq_getElem _ _ hi, Option.toList_some,
      List.filter_append, List.length_append]
    by_cases h : data[i] = 0
    · rw [if_neg (not_not.mpr h)]
      simp [h]
    · rw [if_pos h]
      simp [h]
  · rw [List.take_of_length_le (by omega), List.take_of_length_le (by omega), getD_eq_zero_of_le (by omega)]
    simp

theorem length_filter_take_le (data : Bytes) (i : Nat) :
    ((data.take i).filter (· ≠ 0)).length ≤ (data.filter (· ≠ 0)).length := by
  conv_rhs => rw [← List.take_append_drop i data]
  rw [List.filter_append, List.length_append]
  omega

/-- One bit of the placing loop, on the encoding `E` of the bitset followed
by the non-zero bytes: the byte of the bit goes to its place.

A zero byte: its bit is clear and the output has a zero there. -/
theorem decodeStep_placed (E rest : Bytes) {data bitset : Bytes} {n i : Nat} (hn : data.length = n)
    (hbits : ∀ q, bitAt bitset q = (data.getD q 0 != 0)) (hi : i < 8 * bitset.length) :
    decodeStep (E ++ data.filter (· ≠ 0) ++ rest) bitset
        (placed data n i, E.length + ((data.take i).filter (· ≠ 0)).length) i =
      .ok (placed data n (i + 1), E.length + ((data.take (i + 1)).filter (· ≠ 0)).length) := by
  have hidx : index bitset (i / 8) = .ok (bitset.getD (i / 8) 0) := index_of_lt (by omega)
  have hcond : bitset.getD (i / 8) 0 &&& ((1 : UInt8) <<< (7 - i % 8).toUInt8) ≠ 0 ↔ data.getD i 0 ≠ 0 := by
    rw [mask_ne_zero_iff]
    have := hbits i
    rw [bitAt] at this
    rw [this]
    simp
  rw [length_filter_take_succ]
  by_cases h0 : data.getD i 0 = 0
  · simp only [decodeStep, hidx, bind, Except.bind, pure, Except.pure, if_neg (mt hcond.mp (not_not.mpr h0)),
      h0, placed_succ_of_zero hn h0, ne_eq, not_true_eq_false, if_false, Nat.add_zero]
  · have hin : i < n := Nat.lt_of_not_le fun hle => h0 (getD_eq_zero_of_le (by omega))
    have hc := length_filter_take_le data (i + 1)
    rw [length_filter_take_succ, if_pos h0] at hc
    have hptr : index (E ++ data.filter (· ≠ 0) ++ rest) (E.length + ((data.take i).filter (· ≠ 0)).length) =
        .ok (data.getD i 0) := by
      rw [index_of_lt (by rw [List.length_append, List.length_append]; omega), List.append_assoc,
        List.getD_append_right _ _ _ _ (Nat.le_add_right _ _),
        Nat.add_sub_cancel_left, List.getD_append _ _ _ _ (by omega), getD_filter_take (by omega) h0]
    simp only [decodeStep, hidx, bind, Except.bind, pure, Except.pure, if_pos (hcond.mpr h0), hptr, if_pos h0]
    rw [if_neg (by rw [List.length_append, List.length_append]; omega), if_neg (by rw [length_placed hn]; omega),
      if_neg h0, placed_set hn hin, Nat.add_assoc]

/-- The placing loop of `bitsetDecodePartialBytes`, over a bitset that
covers the input: it rebuilds the input and reads its non-zero bytes.

The invariant: after the bits `done`, the first `done.length` bytes are in
place. -/
theorem foldlM_decodeStep (E rest : Bytes) {data bitset : Bytes} {n : Nat} (hn : data.length = n)
    (hbits : ∀ q, bitAt bitset q = (data.getD q 0 != 0)) (hcover : n ≤ 8 * bitset.length) :
    (List.range (8 * bitset.length)).foldlM (decodeStep (E ++ data.filter (· ≠ 0) ++ rest) bitset)
        (List.replicate n 0, E.length) = .ok (data, E.length + (data.filter (· ≠ 0)).length) := by
  obtain ⟨s', hfold, hI⟩ := foldlM_invariant (decodeStep (E ++ data.filter (· ≠ 0) ++ rest) bitset)
    (fun done acc => acc = (placed data n done.length, E.length + ((data.take done.length).filter (· ≠ 0)).length))
    (List.range (8 * bitset.length)) (List.replicate n 0, E.length) (by simp [placed])
    (by
      intro done x rest' acc hsplit hacc
      rw [List.range_eq_range'] at hsplit
      obtain ⟨rfl, hlt⟩ := eq_of_range'_eq_append hsplit
      rw [hacc, Nat.zero_add]
      exact ⟨_, decodeStep_placed E rest hn hbits hlt, by rw [List.length_append, List.length_singleton]⟩)
  rw [hfold, hI, List.length_range, placed, List.take_of_length_le (by omega),
    show n - 8 * bitset.length = 0 by omega, List.replicate_zero, List.append_nil]

/-! ## The encoder's cases -/

theorem exists_ne_zero_of_bitAt {bs : Bytes} {q : Nat} (h : bitAt bs q = true) : ∃ b ∈ bs, b ≠ 0 := by
  have hb : bs.getD (q / 8) 0 ≠ 0 := fun h0 => by
    rw [bitAt, h0, maskBit_zero] at h
    exact Bool.false_ne_true h
  by_cases hq : q / 8 < bs.length
  · exact ⟨_, List.getElem_mem hq, by rwa [List.getD_eq_getElem _ _ hq] at hb⟩
  · exact absurd (getD_eq_zero_of_le (by omega)) hb

/-- The bitset of an input with a non-zero byte has one. -/
theorem gather_fst_ne_zero {data : Bytes} (h : ∃ b ∈ data, b ≠ 0) : ∃ b ∈ (gather data).1, b ≠ 0 := by
  obtain ⟨b, hb, hb0⟩ := h
  obtain ⟨q, hq, rfl⟩ := List.getElem_of_mem hb
  apply exists_ne_zero_of_bitAt (q := q)
  rw [(gather_spec data).2, List.getD_eq_getElem _ _ hq]
  simpa using hb0

/-- An input of zero bytes only is encoded as nothing. -/
theorem bitsetEncodeBytes_of_zeros {data : Bytes} (h : ∀ b ∈ data, b = 0) : bitsetEncodeBytes data = [] := by
  rw [bitsetEncodeBytes]
  split
  · rfl
  · split
    · obtain ⟨b, rfl⟩ := List.length_eq_one_iff.mp (by assumption)
      rw [List.headD_cons, if_pos (h b (List.mem_singleton_self b))]
    · rw [(gather_spec data).1, List.length_eq_zero_iff.mpr (List.filter_eq_nil_iff.mpr (by simpa using h)), if_pos rfl]

theorem filter_ne_zero_ne_nil {data : Bytes} (h : ∃ b ∈ data, b ≠ 0) : data.filter (· ≠ 0) ≠ [] := by
  obtain ⟨b, hb, hb0⟩ := h
  exact List.ne_nil_of_mem (List.mem_filter.mpr ⟨hb, by simpa using hb0⟩)

/-- An input of two bytes or more with a non-zero byte is encoded as the
encoding of its bitset followed by its non-zero bytes. -/
theorem bitsetEncodeBytes_node {data : Bytes} (hlen : 2 ≤ data.length) (h : ∃ b ∈ data, b ≠ 0) :
    bitsetEncodeBytes data = bitsetEncodeBytes (gather data).1 ++ data.filter (· ≠ 0) := by
  rw [bitsetEncodeBytes, if_neg (by omega), if_neg (by omega), (gather_spec data).1,
    if_neg (fun h0 => filter_ne_zero_ne_nil h (List.length_eq_zero_iff.mp h0))]

/-! ## The decoder's cases -/

theorem makeBytes_of_le {n : Nat} (h : n ≤ maxAlloc) : makeBytes n = .ok (List.replicate n 0) := if_pos h

theorem makeBytes_of_lt {n : Nat} (h : maxAlloc < n) : makeBytes n = .error .errMakeSliceLen :=
  if_neg (Nat.not_le.mpr h)

theorem bitsetDecodePartialBytes_zero (data : Bytes) : bitsetDecodePartialBytes data 0 = .ok ([], 0) := by
  rw [bitsetDecodePartialBytes, if_pos rfl]

/-- A non-zero target first asks `make` for its bytes. -/
theorem bitsetDecodePartialBytes_pos (data : Bytes) {target : Nat} (h0 : target ≠ 0) :
    bitsetDecodePartialBytes data target = (do
      let decomp ← makeBytes target
      if data.length = 0 then pure (decomp, 0)
      else if target = 1 then do
        let b ← index data 0
        pure (decomp.set 0 b, if b ≠ 0 then 1 else 0)
      else do
        let (nonZeroBitset, ptr) ← bitsetDecodePartialBytes data ((target + 7) / 8)
        (List.range (8 * nonZeroBitset.length)).foldlM (decodeStep data nonZeroBitset) (decomp, ptr)) := by
  rw [bitsetDecodePartialBytes, if_neg h0]

/-- A target above `maxAlloc` panics in `make` before the input is read. -/
theorem bitsetDecodePartialBytes_of_lt (data : Bytes) {target : Nat} (h : maxAlloc < target) :
    bitsetDecodePartialBytes data target = .error .errMakeSliceLen := by
  rw [bitsetDecodePartialBytes_pos data (by omega), makeBytes_of_lt h]
  rfl

theorem bitsetDecodePartialBytes_nil {target : Nat} (h : target ≤ maxAlloc) :
    bitsetDecodePartialBytes [] target = .ok (List.replicate target 0, 0) := by
  by_cases h0 : target = 0
  · subst h0
    exact bitsetDecodePartialBytes_zero []
  · rw [bitsetDecodePartialBytes_pos [] h0, makeBytes_of_le h]
    rfl

theorem bitsetDecodePartialBytes_one (b : UInt8) (rest : Bytes) :
    bitsetDecodePartialBytes (b :: rest) 1 = .ok ([b], if b ≠ 0 then 1 else 0) := by
  rw [bitsetDecodePartialBytes_pos _ Nat.one_ne_zero, makeBytes_of_le (by decide)]
  rfl

/-- Past its base cases the decoder decodes the bitset and places the
non-zero bytes. -/
theorem bitsetDecodePartialBytes_node {data : Bytes} {target : Nat} (hd : data ≠ []) (ht : 2 ≤ target)
    (hmax : target ≤ maxAlloc) :
    bitsetDecodePartialBytes data target = (do
      let (nonZeroBitset, ptr) ← bitsetDecodePartialBytes data ((target + 7) / 8)
      (List.range (8 * nonZeroBitset.length)).foldlM (decodeStep data nonZeroBitset) (List.replicate target 0, ptr)) := by
  rw [bitsetDecodePartialBytes_pos data (by omega), makeBytes_of_le hmax]
  simp only [bind, Except.bind, if_neg (fun h => hd (List.length_eq_zero_iff.mp h)), if_neg (show target ≠ 1 by omega)]

/-- The decoder inverts the encoder: from the encoding of an input, followed
by any bytes if the input has a non-zero byte, it reads the input back, and
it uses exactly the encoding. The induction is on the length of the input,
since its bitset is shorter; an input of zero bytes only is encoded as
nothing, and a single non-zero byte as itself. -/
theorem decode_encode (n : Nat) : n ≤ maxAlloc → ∀ (data : Bytes), data.length = n → ∀ rest : Bytes,
    (rest = [] ∨ ∃ b ∈ data, b ≠ 0) →
    bitsetDecodePartialBytes (bitsetEncodeBytes data ++ rest) n = .ok (data, (bitsetEncodeBytes data).length) := by
  induction n using Nat.strong_induction_on with
  | _ n ih =>
  intro hmax data hn rest hrest
  by_cases hz : ∀ b ∈ data, b = 0
  · have hr : rest = [] := hrest.resolve_right fun ⟨b, hb, hb0⟩ => hb0 (hz b hb)
    rw [bitsetEncodeBytes_of_zeros hz, hr, List.nil_append, bitsetDecodePartialBytes_nil hmax, List.length_nil,
      ← hn, ← List.eq_replicate_iff.mpr ⟨rfl, hz⟩]
  · have hnz : ∃ b ∈ data, b ≠ 0 := by simpa using hz
    by_cases h1 : n = 1
    · obtain ⟨b, rfl⟩ := List.length_eq_one_iff.mp (hn.trans h1)
      have hb : b ≠ 0 := fun h0 => hz (by simpa using h0)
      have henc : bitsetEncodeBytes [b] = [b] := by rw [bitsetEncodeBytes]; simp [hb]
      rw [henc, h1, List.singleton_append, bitsetDecodePartialBytes_one]
      simp [hb]
    · have hlen : 2 ≤ data.length := by
        obtain ⟨b, hb, _⟩ := hnz
        have := List.length_pos_of_mem hb
        omega
      have hbits := (gather_spec data).2
      have hrec := ih ((n + 7) / 8) (by omega) (by omega) (gather data).1 (by rw [length_gather_fst, hn])
        (data.filter (· ≠ 0) ++ rest) (Or.inr (gather_fst_ne_zero hnz))
      rw [bitsetEncodeBytes_node hlen hnz, List.append_assoc,
        bitsetDecodePartialBytes_node (List.append_ne_nil_of_right_ne_nil _
          (List.append_ne_nil_of_left_ne_nil (filter_ne_zero_ne_nil hnz) _)) (by omega) hmax, hrec]
      simp only [bind, Except.bind]
      rw [← List.append_assoc, foldlM_decodeStep _ rest hn hbits (by rw [length_gather_fst]; omega),
        List.length_append]

/-! ## Every input -/

/-- One bit of the placing loop keeps the length of the output, and fails
only by a check of the source; the pointer it reads at was checked against
the input just before. -/
theorem decodeStep_spec (data bs : Bytes) (acc : Bytes × Nat) {i : Nat} (hi : i < 8 * bs.length) :
    (∃ acc', decodeStep data bs acc i = .ok acc' ∧ acc'.1.length = acc.1.length) ∨
      ∃ e, decodeStep data bs acc i = .error e ∧ e.isPanic = false := by
  obtain ⟨decomp, ptr⟩ := acc
  simp only [decodeStep, index_of_lt (show i / 8 < bs.length by omega), bind, Except.bind, pure, Except.pure]
  split
  · split
    · exact Or.inr ⟨_, rfl, rfl⟩
    · split
      · exact Or.inr ⟨_, rfl, rfl⟩
      · rename_i hp _
        rw [index_of_lt (Nat.lt_of_not_le hp)]
        dsimp only
        split
        · exact Or.inr ⟨_, rfl, rfl⟩
        · exact Or.inl ⟨_, rfl, List.length_set⟩
  · exact Or.inl ⟨_, rfl, rfl⟩

/-- The placing loop keeps the length of the output, and fails only by a
check of the source. -/
theorem foldlM_decodeStep_spec (data bs : Bytes) (acc : Bytes × Nat) :
    (∃ acc', (List.range (8 * bs.length)).foldlM (decodeStep data bs) acc = .ok acc' ∧
      acc'.1.length = acc.1.length) ∨
    ∃ e, (List.range (8 * bs.length)).foldlM (decodeStep data bs) acc = .error e ∧ e.isPanic = false := by
  have hmem : ∀ {done x rest}, List.range (8 * bs.length) = done ++ x :: rest → x < 8 * bs.length := by
    intro done x rest h
    rw [List.range_eq_range'] at h
    have := eq_of_range'_eq_append h
    omega
  cases hf : (List.range (8 * bs.length)).foldlM (decodeStep data bs) acc with
  | ok acc' =>
      refine Or.inl ⟨acc', rfl, ?_⟩
      refine foldlM_ok_invariant (decodeStep data bs) (fun _ s => s.1.length = acc.1.length) rfl ?_ hf
      intro done x rest s s₁ hsplit hs hstep
      rcases decodeStep_spec data bs s (hmem hsplit) with ⟨s', hok, hlen⟩ | ⟨e, herr, _⟩
      · rw [hok] at hstep
        cases hstep
        exact hlen.trans hs
      · rw [herr] at hstep
        cases hstep
  | error e =>
      refine Or.inr ⟨e, rfl, foldlM_error_of_steps (decodeStep data bs) (fun e => e.isPanic = false) _ ?_ acc e hf⟩
      intro x hx s e' herr
      rcases decodeStep_spec data bs s (List.mem_range.mp hx) with ⟨s', hok, _⟩ | ⟨e'', herr', he⟩
      · rw [hok] at herr
        cases herr
      · rw [herr'] at herr
        cases herr
        exact he

/-- On any input and any target up to `maxAlloc`, the decoder returns
exactly `target` bytes, or fails by a check of the source and not by a
panic. The induction is on the target, the measure of the recursion. -/
theorem bitsetDecodePartialBytes_spec (target : Nat) : target ≤ maxAlloc → ∀ data : Bytes,
    (∃ out p, bitsetDecodePartialBytes data target = .ok (out, p) ∧ out.length = target) ∨
      ∃ e, bitsetDecodePartialBytes data target = .error e ∧ e.isPanic = false := by
  induction target using Nat.strong_induction_on with
  | _ target ih =>
  intro hmax data
  by_cases h0 : target = 0
  · subst h0
    exact Or.inl ⟨[], 0, bitsetDecodePartialBytes_zero data, rfl⟩
  by_cases hd : data = []
  · subst hd
    exact Or.inl ⟨_, 0, bitsetDecodePartialBytes_nil hmax, List.length_replicate⟩
  by_cases h1 : target = 1
  · subst h1
    obtain ⟨b, rest, rfl⟩ := List.exists_cons_of_ne_nil hd
    exact Or.inl ⟨[b], _, bitsetDecodePartialBytes_one b rest, rfl⟩
  rw [bitsetDecodePartialBytes_node hd (by omega) hmax]
  rcases ih ((target + 7) / 8) (by omega) (by omega) data with ⟨bs, ptr, hok, _⟩ | ⟨e, herr, he⟩
  · rw [hok]
    simp only [bind, Except.bind]
    rcases foldlM_decodeStep_spec data bs (List.replicate target 0, ptr) with ⟨acc', hf, hlen⟩ | ⟨e, hf, he⟩
    · exact Or.inl ⟨acc'.1, acc'.2, hf, by rw [hlen, List.length_replicate]⟩
    · exact Or.inr ⟨e, hf, he⟩
  · rw [herr]
    exact Or.inr ⟨e, rfl, he⟩

/-! ## The round trip -/

theorem length_CompressBytes_le (d : Bytes) : (CompressBytes d).length ≤ d.length := by
  rw [CompressBytes]
  split
  · omega
  · exact Nat.le_refl _

/-- `DecompressBytes` at the length of the input reads back what
`CompressBytes` wrote: an encoding shorter than the input is decoded, and
an input of that length is its own output. -/
theorem DecompressBytes_CompressBytes_length {d : Bytes} (hd : d.length ≤ maxAlloc) :
    DecompressBytes (CompressBytes d) d.length = .ok d := by
  rw [CompressBytes]
  split
  · rename_i hlt
    have hdec := decode_encode d.length hd d rfl [] (Or.inl rfl)
    rw [List.append_nil] at hdec
    rw [DecompressBytes, if_neg (by omega), if_neg (by omega), Int.toNat_natCast, bitsetDecodeBytes, hdec]
    simp only [bind, Except.bind, ne_eq, not_true_eq_false, if_false]
    rfl
  · rw [DecompressBytes, if_neg (by omega), if_pos rfl, makeBytes_of_le hd]
    rfl

/-- The bitset `[0x20, 0x40]` of bytes 2 and 9 is itself encoded, as `[0xC0]`
and its two bytes. -/
example : CompressBytes [0, 0, 5, 0, 0, 0, 0, 0, 0, 7] = [0xC0, 0x20, 0x40, 5, 7] := by decide +kernel

example : DecompressBytes [0xC0, 0x20, 0x40, 5, 7] 10 = .ok [0, 0, 5, 0, 0, 0, 0, 0, 0, 7] := by decide +kernel

/-- `DecompressBytes` on any input and any target up to `maxAlloc` returns
the target's number of bytes or an error that is not a panic. -/
theorem DecompressBytes_spec {c : Bytes} {target : Int} (hc : c.length ≤ maxAlloc) (ht : target ≤ maxAlloc) :
    (∃ out, DecompressBytes c target = .ok out ∧ (out.length : Int) = target) ∨
      ∃ e, DecompressBytes c target = .error e ∧ e.isPanic = false := by
  rw [DecompressBytes]
  split
  · exact Or.inr ⟨_, rfl, rfl⟩
  split
  · rw [makeBytes_of_le hc]
    exact Or.inl ⟨c, rfl, by omega⟩
  rw [bitsetDecodeBytes]
  rcases bitsetDecodePartialBytes_spec target.toNat (by omega) c with ⟨out, p, hok, hlen⟩ | ⟨e, herr, he⟩
  · rw [hok]
    simp only [bind, Except.bind]
    split
    · exact Or.inr ⟨_, rfl, rfl⟩
    · exact Or.inl ⟨out, rfl, by omega⟩
  · rw [herr]
    exact Or.inr ⟨e, rfl, he⟩

/-- Above `maxAlloc` the target is longer than any input, and the decoder
panics in `make([]byte, target)`. -/
theorem DecompressBytes_of_lt {c : Bytes} {target : Int} (hc : c.length ≤ maxAlloc) (ht : (maxAlloc : Int) < target) :
    DecompressBytes c target = .error .errMakeSliceLen := by
  rw [DecompressBytes, if_neg (by omega), if_neg (by omega), bitsetDecodeBytes,
    bitsetDecodePartialBytes_of_lt c (by omega)]
  rfl

end Lemochain.Bitutil
