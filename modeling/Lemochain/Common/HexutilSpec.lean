import Mathlib.Data.FinEnum
import Mathlib.Data.Nat.Digits.Lemmas
import Lemochain.Common.Hexutil
import Lemochain.Lib.Loop

/-!
# What the hex quantity codecs compute

A hex digit is a byte `decodeNibble` accepts; a text of hex digits has the
value `hexValue`, read most significant digit first. `FormatUint16` writes
the canonical text of a value, and is the only text without a leading zero
that has that value, up to case (`FormatUint16_hexValue`). The word loop of
`DecodeBig` computes the value of the digits it reads on every platform
(`decodeWords_of_isHex`, `decodeWords_eq_ok`).

## Main results

* `DecodeBig_EncodeBig`, `UnmarshalText_MarshalText`: a value below
  `2 ^ 256` is read back from its text, by both decoders.
* `DecodeUint64_EncodeUint64`, `Uint64_UnmarshalText_MarshalText`: the same
  for `uint64`.
* `DecodeBig_eq_UnmarshalText`, `EncodeBig_of_DecodeBig`: on a non-empty
  text the two decoders agree, and what they accept is the lowercase of the
  text of its value.
* `MarshalText_negative`: `Big.MarshalText` of a negative value returns no
  error but a text with a minus sign, which neither decoder accepts.
-/

namespace Lemochain.Hexutil

open Lemochain.Math Lemochain.Numeral Lemochain.Loop

/-! ## Digits -/

/-- A byte `decodeNibble` accepts. -/
def IsHexDigit (c : UInt8) : Prop := decodeNibble c ≠ badNibble

instance : DecidablePred IsHexDigit := fun c => inferInstanceAs (Decidable (decodeNibble c ≠ badNibble))

/-- The nibbles of a text. -/
def nibbles (raw : Bytes) : List Nat := raw.map fun c => (decodeNibble c).toNat

/-- The value of a text of hex digits, the most significant first. -/
def hexValue (raw : Bytes) : Nat := msbValue 16 (nibbles raw)

/-- The lowercase of an ASCII byte. -/
def asciiLower (c : UInt8) : UInt8 := if 'A'.toUInt8 ≤ c ∧ c ≤ 'Z'.toUInt8 then c + 32 else c

/-- A fact about every byte, from one about every number below `256`, for
`decide` to check byte by byte. -/
theorem forall_uint8 {P : UInt8 → Prop} (h : ∀ n < 256, P n.toUInt8) (c : UInt8) : P c := by
  have := h c.toNat c.toNat_lt
  rwa [Nat.toUInt8, UInt8.ofNat_toNat] at this

set_option maxRecDepth 4000 in
theorem toNat_decodeNibble_lt : ∀ c, IsHexDigit c → (decodeNibble c).toNat < 16 :=
  forall_uint8 (by decide)

set_option maxRecDepth 4000 in
theorem hexDigit_decodeNibble : ∀ c, IsHexDigit c → hexDigit (decodeNibble c).toNat = asciiLower c :=
  forall_uint8 (by decide)

theorem decodeNibble_hexDigit : ∀ d < 16, decodeNibble (hexDigit d) = d.toUInt64 := by decide

theorem isHexDigit_hexDigit : ∀ d < 16, IsHexDigit (hexDigit d) := by decide

theorem hexDigit_eq_zero_iff : ∀ d < 16, hexDigit d = '0'.toUInt8 ↔ d = 0 := by decide

set_option maxRecDepth 4000 in
theorem decodeNibble_zero_iff : ∀ c, IsHexDigit c → ((decodeNibble c).toNat = 0 ↔ c = '0'.toUInt8) :=
  forall_uint8 (by decide)

theorem nibble_lt {raw : Bytes} (h : ∀ c ∈ raw, IsHexDigit c) : ∀ d ∈ nibbles raw, d < 16 := by
  intro d hd
  obtain ⟨c, hc, rfl⟩ := List.mem_map.mp hd
  exact toNat_decodeNibble_lt c (h c hc)

theorem hexValue_append (a b : Bytes) : hexValue (a ++ b) = hexValue a * 16 ^ b.length + hexValue b := by
  rw [hexValue, nibbles, List.map_append, msbValue_append, List.length_map]
  rfl

theorem hexValue_lt {raw : Bytes} (h : ∀ c ∈ raw, IsHexDigit c) : hexValue raw < 16 ^ raw.length := by
  have := msbValue_lt (by decide) (nibble_lt h)
  rwa [nibbles, List.length_map] at this

/-! ## The canonical text -/

theorem digits_lt {n d : Nat} (hd : d ∈ (Nat.digits 16 n).reverse) : d < 16 :=
  Nat.digits_lt_base (by decide) (List.mem_reverse.mp hd)

theorem isHexDigit_FormatUint16 (n : Nat) : ∀ c ∈ FormatUint16 n, IsHexDigit c := by
  intro c hc
  rw [FormatUint16] at hc
  split at hc
  · rw [List.mem_singleton.mp hc]
    exact isHexDigit_hexDigit 0 (by decide)
  · obtain ⟨d, hd, rfl⟩ := List.mem_map.mp hc
    exact isHexDigit_hexDigit d (digits_lt hd)

theorem nibbles_FormatUint16 {n : Nat} (hn : n ≠ 0) : nibbles (FormatUint16 n) = (Nat.digits 16 n).reverse := by
  rw [FormatUint16, if_neg hn, nibbles, List.map_map]
  conv_rhs => rw [← List.map_id (Nat.digits 16 n).reverse]
  apply List.map_congr_left
  intro d hd
  have hd16 := digits_lt hd
  simp only [Function.comp, decodeNibble_hexDigit d hd16, id, Nat.toUInt64, UInt64.toNat_ofNat']
  omega

theorem hexValue_FormatUint16 (n : Nat) : hexValue (FormatUint16 n) = n := by
  by_cases hn : n = 0
  · subst hn
    decide
  · rw [hexValue, nibbles_FormatUint16 hn, msbValue, List.reverse_reverse, Nat.ofDigits_digits]

theorem length_FormatUint16_le (n : Nat) {k : Nat} (hk : 0 < k) : (FormatUint16 n).length ≤ k ↔ n < 16 ^ k := by
  rw [FormatUint16]
  split
  · rename_i hn
    subst hn
    simp only [List.length_singleton]
    exact ⟨fun _ => Nat.pow_pos (by decide), fun _ => hk⟩
  · rw [List.length_map, List.length_reverse]
    exact Nat.digits_length_le_iff (by decide) n

/-- The canonical text has no leading zero. -/
theorem FormatUint16_head (n : Nat) : (FormatUint16 n).length > 1 → (FormatUint16 n).getD 0 0 ≠ '0'.toUInt8 := by
  intro hlen
  by_cases hn : n = 0
  · subst hn
    exact absurd hlen (by decide)
  · have hne : Nat.digits 16 n ≠ [] := Nat.digits_ne_nil_iff_ne_zero.mpr hn
    have hlast := Nat.getLast_digit_ne_zero 16 hn
    have hd : (Nat.digits 16 n).getLast hne < 16 := Nat.digits_lt_base (by decide) (List.getLast_mem hne)
    rw [FormatUint16, if_neg hn, List.getD_eq_getElem?_getD, List.getElem?_map, ← List.head?_eq_getElem?,
      List.head?_reverse, List.getLast?_eq_some_getLast hne, Option.map_some, Option.getD_some]
    exact fun h => hlast ((hexDigit_eq_zero_iff _ hd).mp h)

theorem FormatUint16_ne_nil (n : Nat) : FormatUint16 n ≠ [] := by
  rw [FormatUint16]
  split
  · exact List.cons_ne_nil _ _
  · rename_i hn
    simpa using Nat.digits_ne_nil_iff_ne_zero.mpr hn

/-- A text of hex digits without a leading zero is the canonical text of
its value, in lowercase.

A leading `0` is the whole text. -/
theorem FormatUint16_hexValue {raw : Bytes} (hne : raw ≠ []) (h : ∀ c ∈ raw, IsHexDigit c)
    (hlead : raw.length > 1 → raw.getD 0 0 ≠ '0'.toUInt8) : FormatUint16 (hexValue raw) = raw.map asciiLower := by
  obtain ⟨c, rest, rfl⟩ := List.exists_cons_of_ne_nil hne
  by_cases hc : c = '0'.toUInt8
  · have hrest : rest = [] := by
      apply List.eq_nil_of_length_eq_zero
      by_contra hlen
      exact hlead (by simp only [List.length_cons]; omega) (by simp [hc])
    subst hc hrest
    decide
  · have hhead : (nibbles (c :: rest)).headD 0 ≠ 0 := by
      rw [nibbles, List.map_cons, List.headD_cons]
      exact fun h0 => hc ((decodeNibble_zero_iff c (h c List.mem_cons_self)).mp h0)
    have hdig := digits_msbValue (by decide) (nibble_lt h) hhead
    have hv : hexValue (c :: rest) ≠ 0 := by
      intro h0
      rw [hexValue] at h0
      rw [h0] at hdig
      simp [nibbles] at hdig
    rw [FormatUint16, if_neg hv, hexValue, hdig, nibbles, List.map_map]
    apply List.map_congr_left
    intro c' hc'
    exact hexDigit_decodeNibble c' (h c' hc')

/-! ## The checks -/

theorem bytesHave0xPrefix_hexMark (raw : Bytes) : bytesHave0xPrefix (hexMark ++ raw) = true := by
  simp [bytesHave0xPrefix, has0xPrefix, hexMark]

theorem bytesHave0xPrefix_of_head {c : UInt8} (hc : c ≠ '0'.toUInt8) (rest : Bytes) :
    bytesHave0xPrefix (c :: rest) = false := by
  simp [bytesHave0xPrefix, has0xPrefix, hc]

theorem checkNumberWith_hexMark (empty : Except HexError Bytes) (n : Nat) :
    checkNumberWith empty (hexMark ++ FormatUint16 n) = .ok (FormatUint16 n) := by
  have hdrop : (hexMark ++ FormatUint16 n).drop 2 = FormatUint16 n := List.drop_left' rfl
  rw [checkNumberWith, if_neg (by simp [hexMark]), bytesHave0xPrefix_hexMark, Bool.not_true]
  simp only [Bool.false_eq_true, if_false, hdrop]
  rw [if_neg (fun h => FormatUint16_ne_nil n (List.length_eq_zero_iff.mp h)),
    if_neg (fun h => FormatUint16_head n h.1 h.2)]

/-- The two checks differ only on the empty input. -/
theorem checkNumberWith_of_ne_nil (empty empty' : Except HexError Bytes) {input : Bytes} (h : input ≠ []) :
    checkNumberWith empty input = checkNumberWith empty' input := by
  simp only [checkNumberWith, if_neg (mt List.length_eq_zero_iff.mp h)]

/-- What a check accepts: `0x` or `0X`, then digits without a leading zero. -/
theorem checkNumberWith_eq_ok {empty : Except HexError Bytes} {input raw : Bytes} (hin : input ≠ [])
    (h : checkNumberWith empty input = .ok raw) :
    ∃ x, (x = 'x'.toUInt8 ∨ x = 'X'.toUInt8) ∧ input = '0'.toUInt8 :: x :: raw ∧ raw ≠ [] ∧
      (raw.length > 1 → raw.getD 0 0 ≠ '0'.toUInt8) := by
  rw [checkNumberWith, if_neg (mt List.length_eq_zero_iff.mp hin)] at h
  split at h
  · cases h
  rename_i hpre
  have hpre' : bytesHave0xPrefix input = true := by simpa using hpre
  rcases input with _ | ⟨a, _ | ⟨x, rest⟩⟩
  · exact absurd rfl hin
  · simp [bytesHave0xPrefix, has0xPrefix] at hpre'
  · simp only [bytesHave0xPrefix, has0xPrefix, List.getD_cons_zero, List.getD_cons_succ, Bool.and_eq_true,
      beq_iff_eq, Bool.or_eq_true, decide_eq_true_eq] at hpre'
    obtain ⟨⟨_, rfl⟩, hx⟩ := hpre'
    simp only [List.drop_succ_cons, List.drop_zero] at h
    split at h
    · cases h
    split at h
    · cases h
    rename_i hne hlead
    cases h
    exact ⟨x, hx, rfl, fun h0 => hne (by rw [h0]; rfl), fun hlen h0 => hlead ⟨hlen, h0⟩⟩

/-! ## The words of a big quantity -/

theorem map_getD_range' (raw : Bytes) {s n : Nat} (h : s + n ≤ raw.length) :
    (List.range' s n).map (raw.getD · 0) = (raw.drop s).take n := by
  apply List.ext_getElem
  · simp only [List.length_map, List.length_range', List.length_take, List.length_drop]
    omega
  · intro i h1 h2
    simp only [List.getElem_map, List.getElem_range', List.getElem_take, List.getElem_drop]
    rw [List.getD_eq_getElem?_getD, List.getElem?_eq_getElem (by simp at h1; omega)]
    simp only [Option.getD_some, Nat.one_mul]

/-- The inner loop reads the digits `raw[start:end]` into one word.

`IsHexDigit c` is the negated test of the loop. -/
theorem wordDigits_eq (w : Nat) (raw : Bytes) {s e : Nat} (hse : s ≤ e) (he : e ≤ raw.length) :
    wordDigits w raw s e =
      if ∀ c ∈ (raw.take e).drop s, IsHexDigit c then .ok (hexValue ((raw.take e).drop s) % 16 ^ w)
      else .error .ErrSyntax := by
  have hchunk : (List.range' s (e - s)).map (raw.getD · 0) = (raw.take e).drop s := by
    rw [map_getD_range' raw (by omega), List.drop_take]
  have hfold : ((raw.take e).drop s).foldl (fun word c => (word * 16 + (decodeNibble c).toNat) % 16 ^ w) 0 =
      hexValue ((raw.take e).drop s) % 16 ^ w := by
    have hmap : (nibbles ((raw.take e).drop s)).foldl (fun acc d => (acc * 16 + d) % 16 ^ w) 0 =
        ((raw.take e).drop s).foldl (fun word c => (word * 16 + (decodeNibble c).toNat) % 16 ^ w) 0 :=
      List.foldl_map
    rw [← hmap, foldl_mul_add_mod 16 (Nat.pow_pos (by decide)) _ (Nat.pow_pos (by decide)), Nat.zero_mul,
      Nat.zero_add]
    rfl
  rw [wordDigits]
  dsimp only
  rw [foldlM_guard (raw.getD · 0) (fun c => decodeNibble c = badNibble)
    (fun word c => (word * 16 + (decodeNibble c).toNat) % 16 ^ w) HexError.ErrSyntax, hchunk]
  by_cases hall : ∀ c ∈ (raw.take e).drop s, IsHexDigit c
  · rw [if_pos (show ∀ c ∈ (raw.take e).drop s, ¬ decodeNibble c = badNibble from hall), if_pos hall, hfold]
  · rw [if_neg (show ¬ ∀ c ∈ (raw.take e).drop s, ¬ decodeNibble c = badNibble from hall), if_neg hall]

/-- The outer loop after `k` words: `end` has moved `k` words left, and the
words hold the value of the digits right of it, all of them hex digits. -/
def WordsInv (w : Nat) (raw : Bytes) (k : Nat) (acc : List Nat × Nat) : Prop :=
  acc.2 = raw.length - k * w ∧ acc.1.length = k ∧ SetBits w acc.1 = hexValue (raw.drop acc.2) ∧
    ∀ c ∈ raw.drop acc.2, IsHexDigit c

theorem WordsInv.start (w : Nat) (raw : Bytes) : WordsInv w raw 0 ([], raw.length) := by
  refine ⟨by simp, rfl, ?_, ?_⟩
  · rw [List.drop_length]
    rfl
  · simp

/-- One word: the digits left of `end`, at most `w` of them, go on top.

Past the first digit the words left are zero. -/
theorem WordsInv.step {w : Nat} {raw : Bytes} {k : Nat} {acc : List Nat × Nat} (hI : WordsInv w raw k acc)
    (hchunk : ∀ c ∈ (raw.take acc.2).drop (acc.2 - w), IsHexDigit c) :
    WordsInv w raw (k + 1) (acc.1 ++ [hexValue ((raw.take acc.2).drop (acc.2 - w)) % 16 ^ w], acc.2 - w) := by
  obtain ⟨words, e⟩ := acc
  obtain ⟨he, hlen, hval, hdig⟩ := hI
  dsimp only at he hlen hval hdig hchunk ⊢
  have hsplit : raw.drop (e - w) = (raw.take e).drop (e - w) ++ raw.drop e := by
    conv_lhs => rw [← List.take_append_drop e raw]
    rw [List.drop_append_of_le_length (by rw [List.length_take]; omega)]
  have hmod : hexValue ((raw.take e).drop (e - w)) % 16 ^ w = hexValue ((raw.take e).drop (e - w)) := by
    apply Nat.mod_eq_of_lt
    calc hexValue ((raw.take e).drop (e - w)) < 16 ^ ((raw.take e).drop (e - w)).length := hexValue_lt hchunk
      _ ≤ 16 ^ w := Nat.pow_le_pow_right (by decide) (by simp only [List.length_drop, List.length_take]; omega)
  refine ⟨by rw [he, Nat.sub_sub, Nat.succ_mul], by rw [List.length_append, hlen, List.length_singleton], ?_, ?_⟩
  · rw [SetBits, limbsValue_append_singleton, ← SetBits, hval, hlen, hmod, hsplit, hexValue_append]
    by_cases he0 : e = 0
    · subst he0
      simp [hexValue, nibbles]
    · have hrest : (raw.drop e).length = k * w := by
        rw [List.length_drop]
        omega
      rw [hrest, ← Nat.pow_mul, Nat.mul_comm w k]
      ring
  · rw [hsplit]
    intro c hc
    rcases List.mem_append.mp hc with hc | hc
    · exact hchunk c hc
    · exact hdig c hc

/-- After its `len(raw)/w + 1` words the outer loop has read every digit. -/
theorem WordsInv.finish {w : Nat} (hw : 0 < w) {raw : Bytes} {acc : List Nat × Nat}
    (hI : WordsInv w raw (raw.length / w + 1) acc) :
    SetBits w acc.1 = hexValue raw ∧ ∀ c ∈ raw, IsHexDigit c := by
  obtain ⟨he, _, hval, hdig⟩ := hI
  have h0 : acc.2 = 0 := by
    rw [he]
    have := Nat.lt_div_mul_add (a := raw.length) hw
    rw [Nat.succ_mul]
    omega
  rw [h0, List.drop_zero] at hval hdig
  exact ⟨hval, hdig⟩

theorem mem_chunk {raw : Bytes} {s e : Nat} {c : UInt8} (hc : c ∈ (raw.take e).drop s) : c ∈ raw :=
  List.mem_of_mem_take (List.mem_of_mem_drop hc)

/-- The body of the outer loop of `decodeWords`. -/
def wordsStep (w : Nat) (raw : Bytes) (acc : List Nat × Nat) (_ : Nat) : Except HexError (List Nat × Nat) := do
  let start := acc.2 - w
  let word ← wordDigits w raw start acc.2
  pure (acc.1 ++ [word], start)

theorem decodeWords_eq (w : Nat) (raw : Bytes) :
    decodeWords w raw = (do
      let (words, _) ← (List.range (raw.length / w + 1)).foldlM (wordsStep w raw) ([], raw.length)
      pure words) := rfl

/-- One word of the outer loop: the digits left of `end`, or `ErrSyntax`. -/
theorem wordsStep_eq (w : Nat) (raw : Bytes) {acc : List Nat × Nat} (x : Nat) (hle : acc.2 ≤ raw.length) :
    wordsStep w raw acc x =
      if ∀ c ∈ (raw.take acc.2).drop (acc.2 - w), IsHexDigit c then
        .ok (acc.1 ++ [hexValue ((raw.take acc.2).drop (acc.2 - w)) % 16 ^ w], acc.2 - w)
      else .error .ErrSyntax := by
  rw [wordsStep, wordDigits_eq w raw (Nat.sub_le _ _) hle]
  split <;> rfl

/-- On hex digits the word loop returns words with their value. -/
theorem decodeWords_of_isHex {w : Nat} (hw : 0 < w) {raw : Bytes} (h : ∀ c ∈ raw, IsHexDigit c) :
    ∃ words, decodeWords w raw = .ok words ∧ SetBits w words = hexValue raw := by
  obtain ⟨acc, hfold, hI⟩ := foldlM_invariant (wordsStep w raw) (fun done acc => WordsInv w raw done.length acc)
    (List.range (raw.length / w + 1)) ([], raw.length) (WordsInv.start w raw) (by
      intro done x rest acc _ hI
      have hle : acc.2 ≤ raw.length := by rw [hI.1]; omega
      have hchunk : ∀ c ∈ (raw.take acc.2).drop (acc.2 - w), IsHexDigit c := fun c hc => h c (mem_chunk hc)
      exact ⟨_, by rw [wordsStep_eq w raw x hle, if_pos hchunk], by simpa using hI.step hchunk⟩)
  rw [List.length_range] at hI
  refine ⟨acc.1, ?_, (hI.finish hw).1⟩
  rw [decodeWords_eq, hfold]
  rfl

/-- Words the loop returns are the value of a text of hex digits. -/
theorem decodeWords_eq_ok {w : Nat} (hw : 0 < w) {raw : Bytes} {words : List Nat} (h : decodeWords w raw = .ok words) :
    SetBits w words = hexValue raw ∧ ∀ c ∈ raw, IsHexDigit c := by
  rw [decodeWords_eq] at h
  cases hf : (List.range (raw.length / w + 1)).foldlM (wordsStep w raw) ([], raw.length) with
  | error e =>
      rw [hf] at h
      cases h
  | ok acc =>
      rw [hf] at h
      cases h
      have hI := foldlM_ok_invariant (wordsStep w raw) (fun done acc => WordsInv w raw done.length acc)
        (WordsInv.start w raw) (by
          intro done x rest acc acc₁ _ hI hstep
          have hle : acc.2 ≤ raw.length := by rw [hI.1]; omega
          rw [wordsStep_eq w raw x hle] at hstep
          split at hstep
          · rename_i hchunk
            cases hstep
            simpa using hI.step hchunk
          · cases hstep) hf
      rw [List.length_range] at hI
      exact hI.finish hw

/-! ## Big quantities -/

/-- What `DecodeBig` and `Big.UnmarshalText` do once their check passed. -/
def readRaw (w : Nat) (raw : Bytes) : Except HexError Nat :=
  if raw.length > 64 then .error .ErrBig256Range else (decodeWords w raw).map (SetBits w)

theorem DecodeBig_eq (w : Nat) (input : Bytes) : DecodeBig w input = (checkNumber input).bind (readRaw w) := by
  rw [DecodeBig]
  cases checkNumber input with
  | error e => rfl
  | ok raw =>
      simp only [bind, Except.bind, readRaw]
      split
      · rfl
      · cases decodeWords w raw <;> rfl

theorem UnmarshalText_eq (w : Nat) (input : Bytes) :
    Big.UnmarshalText w input = (checkNumberText input).bind (readRaw w) := by
  rw [Big.UnmarshalText]
  cases checkNumberText input with
  | error e => rfl
  | ok raw =>
      simp only [bind, Except.bind, readRaw]
      split
      · rfl
      · cases decodeWords w raw <;> rfl

theorem readRaw_of_isHex {w : Nat} (hw : 0 < w) {raw : Bytes} (hlen : raw.length ≤ 64) (h : ∀ c ∈ raw, IsHexDigit c) :
    readRaw w raw = .ok (hexValue raw) := by
  obtain ⟨words, hok, hval⟩ := decodeWords_of_isHex hw h
  rw [readRaw, if_neg (by omega), hok, ← hval]
  rfl

theorem readRaw_eq_ok {w : Nat} (hw : 0 < w) {raw : Bytes} {v : Nat} (h : readRaw w raw = .ok v) :
    v = hexValue raw ∧ ∀ c ∈ raw, IsHexDigit c := by
  rw [readRaw] at h
  split at h
  · cases h
  · cases hd : decodeWords w raw with
    | error e =>
        rw [hd] at h
        cases h
    | ok words =>
        rw [hd] at h
        cases h
        exact decodeWords_eq_ok hw hd

theorem EncodeBig_natCast (n : Nat) : EncodeBig n = hexMark ++ FormatUint16 n := by
  rw [EncodeBig, Int.natAbs_natCast]
  split
  · rename_i h0
    rw [BitLen_eq_zero.mp h0]
    rfl
  · rw [if_neg (by omega), List.nil_append]

/-- `DecodeBig` reads a value below `2 ^ 256` back from its text. -/
theorem DecodeBig_EncodeBig {w : Nat} (hw : 0 < w) {n : Nat} (hn : n < 2 ^ 256) :
    DecodeBig w (EncodeBig n) = .ok n := by
  have hlen : (FormatUint16 n).length ≤ 64 := (length_FormatUint16_le n (by decide)).mpr (by simpa using hn)
  rw [DecodeBig_eq, EncodeBig_natCast, checkNumber, checkNumberWith_hexMark]
  simp only [Except.bind]
  rw [readRaw_of_isHex hw hlen (isHexDigit_FormatUint16 n), hexValue_FormatUint16]

/-- `Big.UnmarshalText` reads a value below `2 ^ 256` back from the text
`Big.MarshalText` writes. -/
theorem UnmarshalText_MarshalText {w : Nat} (hw : 0 < w) {n : Nat} (hn : n < 2 ^ 256) :
    (Big.MarshalText n).bind (Big.UnmarshalText w) = .ok n := by
  have hlen : (FormatUint16 n).length ≤ 64 := (length_FormatUint16_le n (by decide)).mpr (by simpa using hn)
  rw [Big.MarshalText, EncodeBig_natCast]
  simp only [Except.bind]
  rw [UnmarshalText_eq, checkNumberText, checkNumberWith_hexMark]
  simp only [Except.bind]
  rw [readRaw_of_isHex hw hlen (isHexDigit_FormatUint16 n), hexValue_FormatUint16]

/-- On a non-empty text the two decoders of big quantities agree. -/
theorem DecodeBig_eq_UnmarshalText (w : Nat) {input : Bytes} (h : input ≠ []) :
    DecodeBig w input = Big.UnmarshalText w input := by
  rw [DecodeBig_eq, UnmarshalText_eq, checkNumber, checkNumberText, checkNumberWith_of_ne_nil _ (.ok []) h]

/-- What `DecodeBig` accepts is the lowercase of the text of its value:
`0x` or `0X`, then the digits of the value without a leading zero, in
either case. -/
theorem EncodeBig_of_DecodeBig {w : Nat} (hw : 0 < w) {input : Bytes} {v : Nat} (h : DecodeBig w input = .ok v) :
    EncodeBig v = input.map asciiLower := by
  rw [DecodeBig_eq] at h
  cases hc : checkNumber input with
  | error e =>
      rw [hc] at h
      cases h
  | ok raw =>
      rw [hc] at h
      have hne : input ≠ [] := by
        rintro rfl
        cases hc
      obtain ⟨x, hx, rfl, hraw, hlead⟩ := checkNumberWith_eq_ok hne hc
      obtain ⟨rfl, hdig⟩ := readRaw_eq_ok hw h
      rw [EncodeBig_natCast, FormatUint16_hexValue hraw hdig hlead, List.map_cons, List.map_cons]
      have hx' : asciiLower x = 'x'.toUInt8 := by
        rcases hx with rfl | rfl <;> decide
      rw [hx']
      rfl

/-! ## `uint64` quantities -/

theorem hexValue_cons (c : UInt8) (rest : Bytes) :
    hexValue (c :: rest) = (decodeNibble c).toNat * 16 ^ rest.length + hexValue rest := by
  rw [hexValue, nibbles, List.map_cons, msbValue_cons, List.length_map]
  rfl

theorem length_FormatUint16_toNat (u : UInt64) : (FormatUint16 u.toNat).length ≤ 16 :=
  (length_FormatUint16_le _ (by decide)).mpr u.toNat_lt

/-- The loop of `Uint64.UnmarshalText` computes the value of the digits
modulo `2 ^ 64`. -/
theorem toNat_foldl_mulAdd (l : Bytes) (a : UInt64) :
    (l.foldl (fun (dec : UInt64) c => dec * 16 + decodeNibble c) a).toNat =
      (nibbles l).foldl (fun acc d => (acc * 16 + d) % 2 ^ 64) a.toNat := by
  induction l generalizing a with
  | nil => rfl
  | cons c l ih =>
      rw [List.foldl_cons, ih]
      show _ = ((decodeNibble c).toNat :: nibbles l).foldl _ _
      rw [List.foldl_cons, UInt64.toNat_add, UInt64.toNat_mul, Nat.mod_add_mod]
      rfl

/-- `Uint64.UnmarshalText` reads a `uint64` back from the text
`Uint64.MarshalText` writes. -/
theorem Uint64_UnmarshalText_MarshalText (u : UInt64) :
    (Uint64.MarshalText u).bind Uint64.UnmarshalText = .ok u := by
  have hval : (FormatUint16 u.toNat).foldl (fun (dec : UInt64) c => dec * 16 + decodeNibble c) 0 = u := by
    apply UInt64.toNat_inj.mp
    rw [toNat_foldl_mulAdd, foldl_mul_add_mod 16 (by decide) _ (by decide), UInt64.toNat_zero, Nat.zero_mul, Nat.zero_add, ← hexValue,
      hexValue_FormatUint16, Nat.mod_eq_of_lt u.toNat_lt]
  rw [Uint64.MarshalText]
  simp only [Except.bind]
  rw [Uint64.UnmarshalText, checkNumberText, checkNumberWith_hexMark]
  simp only [bind, Except.bind]
  rw [if_neg (by have := length_FormatUint16_toNat u; omega)]
  rw [foldlM_guard (fun c => c) (fun c => decodeNibble c = badNibble) (fun (dec : UInt64) c => dec * 16 + decodeNibble c)
    HexError.ErrSyntax, List.map_id',
    if_pos (show ∀ c ∈ FormatUint16 u.toNat, ¬ decodeNibble c = badNibble from isHexDigit_FormatUint16 _), hval]

set_option maxRecDepth 4000 in
/-- On a hex digit the digit of `strconv.ParseUint` is the nibble. -/
theorem digitValue_of_isHex : ∀ c, IsHexDigit c →
    digitValue c = some (decodeNibble c).toUInt8 ∧ ¬ (decodeNibble c).toUInt8 ≥ 16 ∧
      (decodeNibble c).toUInt8.toUInt64 = decodeNibble c :=
  forall_uint8 (by decide)

/-- A step `n * 16 + nib` of a digit loop that does not wrap. -/
theorem toNat_mul_add {a : UInt64} {c : UInt8} (h : a.toNat * 16 + (decodeNibble c).toNat < 2 ^ 64) :
    (a * 16).toNat = a.toNat * 16 ∧ (a * 16 + decodeNibble c).toNat = a.toNat * 16 + (decodeNibble c).toNat := by
  have hmul : (a * 16).toNat = a.toNat * 16 := by
    rw [UInt64.toNat_mul]
    exact Nat.mod_eq_of_lt (by change a.toNat * 16 < 2 ^ 64; omega)
  refine ⟨hmul, ?_⟩
  rw [UInt64.toNat_add, hmul]
  exact Nat.mod_eq_of_lt h

/-- A digit of `strconv.ParseUint` that does not overflow. -/
theorem parseStep_of_lt {a : UInt64} {c : UInt8} (hc : IsHexDigit c)
    (h : a.toNat * 16 + (decodeNibble c).toNat < 2 ^ 64) : parseStep a c = .ok (a * 16 + decodeNibble c) := by
  obtain ⟨hdigit, hv, hcast⟩ := digitValue_of_isHex c hc
  obtain ⟨hmul, hadd⟩ := toNat_mul_add h
  have hcut : ¬ a ≥ cutoff := by
    rw [ge_iff_le, UInt64.le_iff_toNat_le, show cutoff.toNat = 2 ^ 60 by decide]
    omega
  have hwrap : ¬ (a * 16 + decodeNibble c < a * 16 ∨ a * 16 + decodeNibble c > maxVal) := by
    rw [gt_iff_lt, UInt64.lt_iff_toNat_lt, UInt64.lt_iff_toNat_lt, hadd, hmul, show maxVal.toNat = 2 ^ 64 - 1 by decide]
    omega
  rw [parseStep, hdigit]
  dsimp only
  rw [if_neg hv, if_neg hcut, hcast, if_neg hwrap]

/-- The loop of `strconv.ParseUint` on hex digits whose value fits.

The value of the remaining digits, read from the next accumulator. -/
theorem foldlM_parseStep (raw : Bytes) (h : ∀ c ∈ raw, IsHexDigit c) :
    ∀ a : UInt64, a.toNat * 16 ^ raw.length + hexValue raw < 2 ^ 64 →
      raw.foldlM parseStep a = .ok (UInt64.ofNat (a.toNat * 16 ^ raw.length + hexValue raw)) := by
  induction raw with
  | nil =>
      intro a _
      rw [List.foldlM_nil, List.length_nil, Nat.pow_zero, Nat.mul_one, show hexValue [] = 0 from rfl, Nat.add_zero,
        UInt64.ofNat_toNat]
      rfl
  | cons c rest ih =>
      intro a hb
      have hc := h c List.mem_cons_self
      have hpow : 0 < 16 ^ rest.length := Nat.pow_pos (by decide)
      have hkey : (a.toNat * 16 + (decodeNibble c).toNat) * 16 ^ rest.length + hexValue rest =
          a.toNat * 16 ^ (c :: rest).length + hexValue (c :: rest) := by
        rw [hexValue_cons, List.length_cons, Nat.pow_succ]
        ring
      have hstep : a.toNat * 16 + (decodeNibble c).toNat < 2 ^ 64 :=
        calc a.toNat * 16 + (decodeNibble c).toNat
            ≤ (a.toNat * 16 + (decodeNibble c).toNat) * 16 ^ rest.length := Nat.le_mul_of_pos_right _ hpow
          _ ≤ a.toNat * 16 ^ (c :: rest).length + hexValue (c :: rest) := by rw [← hkey]; omega
          _ < 2 ^ 64 := hb
      have hadd := (toNat_mul_add hstep).2
      rw [List.foldlM_cons, parseStep_of_lt hc hstep]
      simp only [bind, Except.bind]
      rw [ih (fun c' hc' => h c' (List.mem_cons_of_mem c hc')) _ (by rw [hadd, hkey]; exact hb), hadd, hkey]

/-- `DecodeUint64` reads a `uint64` back from its text. -/
theorem DecodeUint64_EncodeUint64 (u : UInt64) : DecodeUint64 (EncodeUint64 u) = (u, none) := by
  have hfold := foldlM_parseStep (FormatUint16 u.toNat) (isHexDigit_FormatUint16 _) 0
    (by rw [UInt64.toNat_zero, Nat.zero_mul, Nat.zero_add, hexValue_FormatUint16]; exact u.toNat_lt)
  rw [UInt64.toNat_zero, Nat.zero_mul, Nat.zero_add, hexValue_FormatUint16, UInt64.ofNat_toNat] at hfold
  rw [DecodeUint64, EncodeUint64, checkNumber, checkNumberWith_hexMark]
  dsimp only
  rw [ParseUint, if_neg (fun h => FormatUint16_ne_nil _ (List.length_eq_zero_iff.mp h)), hfold]
  rfl

/-! ## Negative values -/

/-- `Big.MarshalText` of a negative value returns no error, but the text
of its absolute value behind a minus sign, which `Big.UnmarshalText` (and
`DecodeBig`) reject for its missing prefix. -/
theorem MarshalText_negative (w : Nat) (b : Int) (hb : b < 0) :
    Big.MarshalText b = .ok ('-'.toUInt8 :: EncodeBig (-b)) ∧
      Big.UnmarshalText w ('-'.toUInt8 :: EncodeBig (-b)) = .error .ErrMissingPrefix := by
  have hbit : BitLen b.natAbs ≠ 0 := fun h => by
    have := BitLen_eq_zero.mp h
    omega
  have hneg : EncodeBig (-b) = hexMark ++ FormatUint16 b.natAbs := by
    rw [EncodeBig, Int.natAbs_neg, if_neg hbit, if_neg (by omega), List.nil_append]
  refine ⟨?_, ?_⟩
  · rw [Big.MarshalText, EncodeBig, if_neg hbit, if_pos hb, hneg]
    rfl
  · rw [UnmarshalText_eq, checkNumberText, checkNumberWith, if_neg (by simp),
      bytesHave0xPrefix_of_head (by decide), Bool.not_false, if_pos rfl]
    rfl

theorem MarshalText_negative_one : (-1 : Int) < 0 ∧
    Big.MarshalText (-1) = .ok ('-'.toUInt8 :: EncodeBig 1) ∧
      Big.UnmarshalText 16 ('-'.toUInt8 :: EncodeBig 1) = .error .ErrMissingPrefix :=
  ⟨by decide, MarshalText_negative 16 (-1) (by decide)⟩

example : Big.MarshalText (-1) = .ok ['-'.toUInt8, '0'.toUInt8, 'x'.toUInt8, '1'.toUInt8] := by decide +kernel

end Lemochain.Hexutil
