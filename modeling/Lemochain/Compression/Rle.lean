import Mathlib.Algebra.Order.Ring.Nat
import Mathlib.Data.List.Basic
import Mathlib.Data.Nat.Cast.Order.Basic
import Mathlib.Data.Nat.SuccPred
import Lemochain.Common.Types
import Lemochain.Lib.Keccak

/-!
# Run-length encoding (`compression/rle/read_write.go`)

`Compress` cuts its input into chunks: the token byte `0xfe` is escaped as
`token tokenToken`, a run of two to 255 zero bytes becomes `token (j + 2)`,
the 32 bytes of the hash of the empty string or of the empty list become
`token emptyShaToken` or `token emptyListShaToken`, and any other byte is
kept. `Decompress` reads the pairs back; the second byte of a pair is first
compared with the three special tokens, and anything else stands for that
many zero bytes and two more.

The counts of the zero runs and the special tokens share the byte after the
token: a run of 251, 252 or 253 zero bytes is written `token 0xfd`,
`token 0xfe` or `token 0xff`, which `Decompress` reads as the empty hash, the
empty-list hash and the token byte (`Decompress_Compress_zeros`). Inputs
without 251 zero bytes in a row come back whole (`Decompress_Compress`).

## Main results

* `Decompress_Compress`: the round trip, for inputs with no run of 251 zero
  bytes.
* `Decompress_Compress_zeros`: runs of 251 to 253 zero bytes do not come
  back.
-/

namespace Lemochain.Rle

open Lemochain.Keccak

/-- `token`. -/
def token : UInt8 := 0xfe

/-- `emptyShaToken`. -/
def emptyShaToken : UInt8 := 0xfd

/-- `emptyListShaToken`. -/
def emptyListShaToken : UInt8 := 0xfe

/-- `tokenToken`. -/
def tokenToken : UInt8 := 0xff

/-- `empty`: the hash of the empty string. -/
def empty : Bytes := keccak256 []

/-- `emptyList`: the hash of the RLP empty string `0x80`. -/
def emptyList : Bytes := keccak256 [0x80]

/-- The bytes `Decompress` writes for the byte after a token. -/
def expandToken (c : UInt8) : Bytes :=
  if c = emptyShaToken then empty
  else if c = emptyListShaToken then emptyList
  else if c = tokenToken then [token]
  else List.replicate (c - 2).toNat 0

/-- `Decompress`: the loop over the input, a token and the byte after it
read together. -/
def Decompress : Bytes → Except String Bytes
  | [] => .ok []
  | b :: rest =>
    if b = token then
      match rest with
      | [] => .error "error reading bytes. token encountered without proceeding bytes"
      | c :: rest => (Decompress rest).map (expandToken c ++ ·)
    else (Decompress rest).map (b :: ·)

/-- The loop of `compressChunk` that counts the zero bytes of a run from
`j`: `for j <= 254 && j < len(dat) { if dat[j] != 0 { break }; j++ }`. -/
def zeroRun : Nat → Bytes → Nat
  | j, [] => j
  | j, b :: rest => if j ≤ 254 then (if b ≠ 0 then j else zeroRun (j + 1) rest) else j

theorem zeroRun_nil (j : Nat) : zeroRun j [] = j := rfl

theorem zeroRun_cons (j : Nat) (b : UInt8) (rest : Bytes) :
    zeroRun j (b :: rest) = if j ≤ 254 then (if b ≠ 0 then j else zeroRun (j + 1) rest) else j := rfl

/-- `compressChunk`: the bytes for the start of a non-empty input and how
many bytes of it they stand for. -/
def compressChunk (dat : Bytes) : Bytes × Nat :=
  if dat.headD 0 = token then ([token, tokenToken], 1)
  else if dat.length > 1 ∧ dat.headD 0 = 0 ∧ dat.getD 1 1 = 0 then
    let j := zeroRun 0 dat
    ([token, UInt8.ofNat (j + 2)], j)
  else if dat.length ≥ 32 ∧ dat.headD 0 = empty.headD 0 ∧ dat.take 32 = empty then ([token, emptyShaToken], 32)
  else if dat.length ≥ 32 ∧ dat.headD 0 = emptyList.headD 0 ∧ dat.take 32 = emptyList then
    ([token, emptyListShaToken], 32)
  else (dat.take 1, 1)

/-- The loop of `Compress`, `for i < len(dat)`, over the input still to
compress, with fuel. -/
def compressLoop : Nat → Bytes → Bytes
  | 0, _ => []
  | fuel + 1, dat =>
    if dat = [] then []
    else (compressChunk dat).1 ++ compressLoop fuel (dat.drop (compressChunk dat).2)

theorem compressLoop_succ (fuel : Nat) (dat : Bytes) :
    compressLoop (fuel + 1) dat =
      if dat = [] then [] else (compressChunk dat).1 ++ compressLoop fuel (dat.drop (compressChunk dat).2) := rfl

/-- `Compress`: each chunk stands for at least one byte, so the length of
the input is fuel enough. -/
def Compress (dat : Bytes) : Bytes := compressLoop dat.length dat

/-! ## The chunks -/

/-- The zero run from `j` counts the zero bytes at the start of the input,
up to 255 in all.

One more zero at the front. -/
theorem zeroRun_spec : ∀ (dat : Bytes) (j : Nat), j ≤ 255 →
    j ≤ zeroRun j dat ∧ zeroRun j dat ≤ 255 ∧ zeroRun j dat - j ≤ dat.length ∧
      dat.take (zeroRun j dat - j) = List.replicate (zeroRun j dat - j) 0
  | [], j, hj => by simp [zeroRun_nil, hj]
  | b :: rest, j, hj => by
    by_cases hj' : j ≤ 254
    · by_cases hb : b ≠ 0
      · simp [zeroRun_cons, hj', hb, hj]
      · obtain ⟨h1, h2, h3, h4⟩ := zeroRun_spec rest (j + 1) (by omega)
        have hb0 : b = 0 := Decidable.of_not_not hb
        have hr : zeroRun j (b :: rest) = zeroRun (j + 1) rest := by simp [zeroRun_cons, hj', hb0]
        rw [hr]
        refine ⟨by omega, h2, by simp; omega, ?_⟩
        rw [show zeroRun (j + 1) rest - j = (zeroRun (j + 1) rest - (j + 1)) + 1 by omega, List.take_succ_cons,
          h4, hb0, List.replicate_succ]
    · simp [zeroRun_cons, hj', hj]

/-- The bytes `Decompress` writes for a zero run of fewer than 251 bytes. -/
theorem expandToken_zeros {j : Nat} (h2 : 2 ≤ j) (h : j < 251) :
    expandToken (UInt8.ofNat (j + 2)) = List.replicate j 0 := by
  have hc : (UInt8.ofNat (j + 2)).toNat = j + 2 := by
    rw [UInt8.toNat_ofNat']
    exact Nat.mod_eq_of_lt (by omega)
  have hne : ∀ t : UInt8, t.toNat ≥ 253 → UInt8.ofNat (j + 2) ≠ t := fun t ht heq => by
    rw [heq] at hc
    omega
  rw [expandToken, if_neg (hne _ (by decide)), if_neg (hne _ (by decide)), if_neg (hne _ (by decide)),
    UInt8.toNat_sub_of_le _ _ (UInt8.le_iff_toNat_le.mpr (by rw [hc]; exact Nat.le_add_left 2 j)), hc]
  rfl

@[simp] theorem expandToken_emptyShaToken : expandToken emptyShaToken = empty := by
  rw [expandToken, if_pos rfl]

@[simp] theorem expandToken_emptyListShaToken : expandToken emptyListShaToken = emptyList := by
  rw [expandToken, if_neg (by decide), if_pos rfl]

@[simp] theorem expandToken_tokenToken : expandToken tokenToken = [token] := by
  rw [expandToken, if_neg (by decide), if_neg (by decide), if_pos rfl]

theorem Decompress_literal {b : UInt8} (hb : b ≠ token) (rest : Bytes) :
    Decompress (b :: rest) = (Decompress rest).map (b :: ·) := by
  rw [Decompress.eq_def]
  dsimp only
  rw [if_neg hb]

theorem Decompress_pair (c : UInt8) (rest : Bytes) :
    Decompress (token :: c :: rest) = (Decompress rest).map (expandToken c ++ ·) := rfl

/-- A zero run has at least the two zeros it starts with. -/
theorem two_le_zeroRun : ∀ {dat : Bytes}, dat.length > 1 ∧ dat.headD 0 = 0 ∧ dat.getD 1 1 = 0 → 2 ≤ zeroRun 0 dat
  | [], h => absurd h.1 (by simp)
  | [_], h => absurd h.1 (by simp)
  | b :: c :: rest, h => by
    simp only [List.headD_cons, List.getD_cons_succ, List.getD_cons_zero] at h
    have hr : zeroRun 0 (b :: c :: rest) = zeroRun 2 rest := by simp [zeroRun_cons, h.2.1, h.2.2]
    rw [hr]
    exact (zeroRun_spec rest 2 (by omega)).1

/-- Every chunk stands for at least one byte of a non-empty input, and for
no more than it has. -/
theorem compressChunk_snd {dat : Bytes} (h : dat ≠ []) :
    1 ≤ (compressChunk dat).2 ∧ (compressChunk dat).2 ≤ dat.length := by
  obtain ⟨b, rest, rfl⟩ := List.exists_cons_of_ne_nil h
  unfold compressChunk
  split
  · simp
  · split
    · next hz =>
        have h3 := (zeroRun_spec (b :: rest) 0 (by omega)).2.2.1
        have h2 := two_le_zeroRun hz
        dsimp only
        exact ⟨by omega, by simpa using h3⟩
    · split
      · next hh => exact ⟨by omega, hh.1⟩
      · split
        · next hh => exact ⟨by omega, hh.1⟩
        · simp

/-- The chunk of an input without a run of 251 zero bytes at its start
decompresses to the bytes it stands for. -/
theorem Decompress_compressChunk {dat : Bytes} (h : dat ≠ []) (hz : ¬ List.replicate 251 0 <+: dat)
    (rest : Bytes) :
    Decompress ((compressChunk dat).1 ++ rest) = (Decompress rest).map (dat.take (compressChunk dat).2 ++ ·) := by
  obtain ⟨b, tail, rfl⟩ := List.exists_cons_of_ne_nil h
  unfold compressChunk
  split
  · next hb =>
      simp only [List.headD_cons] at hb
      simp only [List.cons_append, List.nil_append, hb, Decompress_pair, expandToken_tokenToken]
      rfl
  · next hb =>
    split
    · next hrun =>
        obtain ⟨h1, h2, h3, h4⟩ := zeroRun_spec (b :: tail) 0 (by omega)
        rw [Nat.sub_zero] at h3 h4
        have hlt : zeroRun 0 (b :: tail) < 251 := Nat.lt_of_not_le fun hge => hz (by
          rw [← List.take_append_drop (zeroRun 0 (b :: tail)) (b :: tail), h4,
            show zeroRun 0 (b :: tail) = 251 + (zeroRun 0 (b :: tail) - 251) by omega, List.replicate_add,
            List.append_assoc]
          exact List.prefix_append _ _)
        have hge : 2 ≤ zeroRun 0 (b :: tail) := two_le_zeroRun hrun
        simp only [List.cons_append, List.nil_append, Decompress_pair, expandToken_zeros hge hlt, h4]
    · split
      · next hh =>
          simp only [List.cons_append, List.nil_append, Decompress_pair, hh.2.2, expandToken_emptyShaToken]
      · split
        · next hh =>
            simp only [List.cons_append, List.nil_append, Decompress_pair, hh.2.2, expandToken_emptyListShaToken]
        · simp only [List.headD_cons] at hb
          simp only [List.take_succ_cons, List.take_zero, List.cons_append, List.nil_append, Decompress_literal hb]

/-! ## The round trip -/

theorem compressLoop_nil (fuel : Nat) : compressLoop fuel [] = [] := by
  cases fuel <;> rfl

/-- The loop of `Compress` over an input without a run of 251 zero bytes,
with fuel for every byte, decompresses to the input: each chunk to the
bytes it stands for, by induction on the fuel. -/
theorem compressLoop_spec : ∀ fuel (dat : Bytes), dat.length ≤ fuel → ¬ List.replicate 251 0 <:+: dat →
    Decompress (compressLoop fuel dat) = .ok dat := by
  intro fuel
  induction fuel with
  | zero =>
      intro dat hlen _
      rw [List.eq_nil_of_length_eq_zero (Nat.le_zero.mp hlen)]
      rfl
  | succ fuel ih =>
      intro dat hlen hz
      by_cases hd : dat = []
      · subst hd
        rfl
      · obtain ⟨h1, h2⟩ := compressChunk_snd hd
        have hrest := ih (dat.drop (compressChunk dat).2) (by rw [List.length_drop]; omega)
          (fun h => hz (h.trans (List.drop_suffix _ _).isInfix))
        rw [compressLoop_succ, if_neg hd, Decompress_compressChunk hd (fun h => hz h.isInfix), hrest]
        exact congrArg Except.ok (List.take_append_drop _ _)

/-- `Decompress` gives back what `Compress` was given, when no 251 zero
bytes stand in a row. -/
theorem Decompress_Compress (dat : Bytes) (hz : ¬ List.replicate 251 0 <:+: dat) :
    Decompress (Compress dat) = .ok dat :=
  compressLoop_spec _ dat (Nat.le_refl _) hz

/-! ## Runs of 251 to 253 zero bytes -/

theorem zeroRun_replicate : ∀ (k j : Nat), j + k ≤ 255 → zeroRun j (List.replicate k 0) = j + k
  | 0, j, _ => by simp [zeroRun_nil]
  | k + 1, j, h => by
    rw [List.replicate_succ, zeroRun_cons, if_pos (by omega), if_neg (by decide), zeroRun_replicate k (j + 1) (by omega)]
    omega

/-- A run of two to 255 zero bytes is one pair. -/
theorem Compress_replicate_zero (n : Nat) (h2 : 2 ≤ n) (h : n ≤ 255) :
    Compress (List.replicate n 0) = [token, UInt8.ofNat (n + 2)] := by
  obtain ⟨k, rfl⟩ : ∃ k, n = k + 2 := ⟨n - 2, by omega⟩
  have hrun : zeroRun 0 (List.replicate (k + 2) 0) = k + 2 := by
    rw [zeroRun_replicate _ 0 (by omega), Nat.zero_add]
  have hchunk : compressChunk (List.replicate (k + 2) 0) = ([token, UInt8.ofNat (k + 2 + 2)], k + 2) := by
    rw [compressChunk, if_neg (by simp [List.replicate_succ, token]),
      if_pos ⟨by simp, by simp [List.replicate_succ], by simp [List.replicate_succ]⟩, hrun]
  rw [Compress, List.length_replicate, compressLoop_succ, if_neg (by simp), hchunk]
  simp only [List.drop_replicate, Nat.sub_self, List.replicate_zero, compressLoop_nil, List.append_nil]

/-- What `Decompress` writes for a byte after a token that is one of the
three special tokens has at most 32 bytes. -/
theorem length_expandToken_le {c : UInt8} (hc : 253 ≤ c.toNat) : (expandToken c).length ≤ 32 := by
  have hlt := c.toNat_lt
  have hcases : c = emptyShaToken ∨ c = emptyListShaToken ∨ c = tokenToken := by
    rcases (show c.toNat = 253 ∨ c.toNat = 254 ∨ c.toNat = 255 by omega) with h | h | h
    · exact Or.inl (UInt8.toNat_inj.mp h)
    · exact Or.inr (Or.inl (UInt8.toNat_inj.mp h))
    · exact Or.inr (Or.inr (UInt8.toNat_inj.mp h))
  rcases hcases with rfl | rfl | rfl
  · simp [empty, length_keccak256]
  · simp [emptyList, length_keccak256]
  · simp

/-- A run of 251, 252 or 253 zero bytes is written as the pair of the
empty hash, of the empty-list hash or of the token byte, and does not come
back. -/
theorem Decompress_Compress_zeros (n : Nat) (h1 : 251 ≤ n) (h2 : n ≤ 253) :
    Decompress (Compress (List.replicate n 0)) ≠ .ok (List.replicate n 0) := by
  rw [Compress_replicate_zero n (by omega) (by omega), Decompress_pair]
  intro h
  have hbytes : expandToken (UInt8.ofNat (n + 2)) ++ [] = List.replicate n 0 := by
    injection h
  have hlen := congrArg List.length hbytes
  rw [List.length_append, List.length_nil, List.length_replicate] at hlen
  have hle := length_expandToken_le (c := UInt8.ofNat (n + 2)) (by
    rw [UInt8.toNat_ofNat', Nat.mod_eq_of_lt (by omega)]
    omega)
  omega

theorem Decompress_Compress_zeros_253 :
    251 ≤ 253 ∧ 253 ≤ 253 ∧ Decompress (Compress (List.replicate 253 0)) ≠ .ok (List.replicate 253 0) :=
  ⟨by decide, by decide, Decompress_Compress_zeros 253 (by decide) (by decide)⟩

example : Decompress (Compress (List.replicate 253 0)) = .ok [0xfe] := by decide +kernel

end Lemochain.Rle
