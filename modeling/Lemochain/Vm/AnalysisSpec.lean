import Mathlib.Data.Nat.Size
import Mathlib.Data.Nat.SuccPred
import Lemochain.Vm.Analysis

/-!
# The jump destination analysis agrees with decoding

The specification of the analysis is the left-to-right decoding of the
code: an instruction starts at `0`, and after an instruction at `pc` the
next one starts at `pc + 1 + pushSize`, past the immediate bytes of a
`PUSHn` even where they run past the end of the code (`starts`).

`codeBitmapLoop` keeps, from a `pc` where an instruction starts, the bits
below `pc` and sets, at and after `pc`, exactly the positions inside the
code that are no instruction start (`LoopOk`); the buffer of the code's
length over eight plus five bytes takes every write, the data of a
`PUSH32` at the last byte included.

## Main results

* `codeBitmap_spec`: `codeBitmap` writes inside its buffer, and marks a
  position of the code as code iff an instruction starts there.
* `Destinations.has_spec`: with a map that holds nothing or the bitmap of
  the code under its hash, `has` accepts exactly the instruction starts that
  hold `JUMPDEST`, and leaves the map in that state.
* `jumpdest_analysis_decodes`: the two together.
-/

namespace Lemochain.Vm

open Lemochain.PackedBits

/-- The bytes of immediate data after an opcode: `n` after `PUSHn`. -/
def pushSize (op : OpCode) : Nat := if PUSH1 ≤ op ∧ op ≤ PUSH32 then (op - PUSH1 + 1).toNat else 0

/-- The instruction starts of the left-to-right decoding of `code` from
`pc` on. -/
def starts (code : Bytes) (pc : Nat) : List Nat :=
  if pc < code.length then pc :: starts code (pc + 1 + pushSize (code.getD pc 0)) else []
termination_by code.length - pc

set_option maxRecDepth 4000 in
theorem pushSize_le_of_lt : ∀ n < 256, pushSize n.toUInt8 ≤ 32 := by
  decide

theorem pushSize_le (op : OpCode) : pushSize op ≤ 32 := by
  simpa using pushSize_le_of_lt op.toNat (UInt8.toNat_lt op)

theorem pushData_le {op : OpCode} (h : PUSH1 ≤ op ∧ op ≤ PUSH32) : (op - PUSH1 + 1).toNat ≤ 32 := by
  have := pushSize_le op
  rwa [pushSize, if_pos h] at this

theorem starts_of_lt {code : Bytes} {pc : Nat} (h : pc < code.length) :
    starts code pc = pc :: starts code (pc + 1 + pushSize (code.getD pc 0)) := by
  rw [starts, if_pos h]

/-- The decoding from `pc` starts instructions at `pc` and after. -/
theorem le_of_mem_starts {code : Bytes} {pc s : Nat} (h : s ∈ starts code pc) : pc ≤ s := by
  fun_induction starts code pc with
  | case1 pc hpc ih =>
      rcases List.mem_cons.mp h with rfl | h
      · exact le_refl _
      · have := ih h
        omega
  | case2 => simp at h

theorem Bitvec.codeSegment_eq (bits : Bitvec) (pos : Nat) : bits.codeSegment pos = !bitAt bits pos := by
  simp only [Bitvec.codeSegment, bitAt, maskBit, bne, Bool.not_not]

/-- `set` inside the buffer sets the one bit.

A position is its byte and its bit in the byte. -/
theorem Bitvec.set_spec {bits : Bitvec} {pos : Nat} (h : pos / 8 < bits.length) :
    ∃ b, bits.set pos = some b ∧ b.length = bits.length ∧
      ∀ q, bitAt b q = (bitAt bits q || decide (q = pos)) := by
  refine ⟨_, if_pos h, length_orAt _ _ _, fun q => ?_⟩
  have hq : q % 8 < 8 := Nat.mod_lt _ (by decide)
  have hp : pos % 8 < 8 := Nat.mod_lt _ (by decide)
  rw [bitAt_orAt h, maskBit_single _ hp _ hq]
  have hiff : q = pos ↔ q / 8 = pos / 8 ∧ q % 8 = pos % 8 := ⟨fun h => by subst h; simp, fun h => by omega⟩
  simp [hiff]

/-- `set8` inside the buffer sets the eight bits from `pos` on.

The two bytes hold the eight bits from `pos` on. -/
theorem Bitvec.set8_spec {bits : Bitvec} {pos : Nat} (h : pos / 8 + 1 < bits.length) :
    ∃ b, bits.set8 pos = some b ∧ b.length = bits.length ∧
      ∀ q, bitAt b q = (bitAt bits q || decide (pos ≤ q ∧ q < pos + 8)) := by
  refine ⟨_, if_pos h, by simp, fun q => ?_⟩
  have hq : q % 8 < 8 := Nat.mod_lt _ (by decide)
  have hp : pos % 8 < 8 := Nat.mod_lt _ (by decide)
  have h₁ : pos / 8 < bits.length := by omega
  have h₂ : pos / 8 + 1 < (orAt bits (pos / 8) (0xFF >>> (pos % 8).toUInt8)).length := by simpa using h
  rw [bitAt_orAt h₂, bitAt_orAt h₁, maskBit_high _ hp _ hq, maskBit_low _ hp _ hq]
  have key : (q / 8 = pos / 8 ∧ pos % 8 ≤ q % 8 ∨ q / 8 = pos / 8 + 1 ∧ q % 8 < pos % 8) ↔
      (pos ≤ q ∧ q < pos + 8) := by omega
  simp only [Bool.or_assoc, ← Bool.decide_and, ← Bool.decide_or, key]

/-- The loop of `set8`s sets the whole eights of the data. -/
theorem setEights_spec {bits : Bitvec} {pc numbits : Nat} (h : pc + numbits < 8 * bits.length) :
    ∃ b, setEights bits pc numbits = some (b, pc + 8 * (numbits / 8), numbits % 8) ∧ b.length = bits.length ∧
      ∀ q, bitAt b q = (bitAt bits q || decide (pc ≤ q ∧ q < pc + 8 * (numbits / 8))) := by
  fun_induction setEights bits pc numbits with
  | case1 bits pc numbits h8 ih =>
      obtain ⟨b₁, hs, hl₁, hb₁⟩ := Bitvec.set8_spec (show pc / 8 + 1 < bits.length by omega)
      obtain ⟨b, hr, hl, hb⟩ := ih b₁ (by rw [hl₁]; omega)
      refine ⟨b, ?_, hl.trans hl₁, fun q => ?_⟩
      · rw [hs, Option.bind_some, hr]
        have : pc + 8 + 8 * ((numbits - 8) / 8) = pc + 8 * (numbits / 8) := by omega
        have h' : (numbits - 8) % 8 = numbits % 8 := by omega
        rw [this, h']
      · have key : (pc ≤ q ∧ q < pc + 8 ∨ pc + 8 ≤ q ∧ q < pc + 8 + 8 * ((numbits - 8) / 8)) ↔
            (pc ≤ q ∧ q < pc + 8 * (numbits / 8)) := by omega
        rw [hb, hb₁]
        simp only [Bool.or_assoc, ← Bool.decide_or, key]
  | case2 bits pc numbits h8 =>
      refine ⟨bits, ?_, rfl, fun q => ?_⟩
      · have h0 : numbits / 8 = 0 := by omega
        have h1 : numbits % 8 = numbits := by omega
        simp [h0, h1]
      · have h0 : numbits / 8 = 0 := by omega
        simp [h0]

/-- The loop of `set`s sets the remaining bits of the data. -/
theorem setOnes_spec : ∀ {numbits : Nat} {bits : Bitvec} {pc : Nat}, pc + numbits ≤ 8 * bits.length →
    ∃ b, setOnes bits pc numbits = some (b, pc + numbits) ∧ b.length = bits.length ∧
      ∀ q, bitAt b q = (bitAt bits q || decide (pc ≤ q ∧ q < pc + numbits))
  | 0, bits, pc, _ => ⟨bits, by simp [setOnes], rfl, fun _ => by simp⟩
  | n + 1, bits, pc, h => by
      obtain ⟨b₁, hs, hl₁, hb₁⟩ := Bitvec.set_spec (show pc / 8 < bits.length by omega)
      obtain ⟨b, hr, hl, hb⟩ := setOnes_spec (show pc + 1 + n ≤ 8 * b₁.length by rw [hl₁]; omega)
      refine ⟨b, ?_, hl.trans hl₁, fun q => ?_⟩
      · rw [setOnes, hs, Option.bind_some, hr, show pc + 1 + n = pc + (n + 1) by omega]
      · have key : (q = pc ∨ pc + 1 ≤ q ∧ q < pc + 1 + n) ↔ (pc ≤ q ∧ q < pc + (n + 1)) := by omega
        rw [hb, hb₁]
        simp only [Bool.or_assoc, ← Bool.decide_or, key]

/-- What the loop from `pc` does to the bitmap: the bits below `pc` are
kept, and at and after `pc` the positions of the code that no instruction
starts at are set. -/
def LoopOk (code : Bytes) (bits b : Bitvec) (pc : Nat) : Prop :=
  (∀ q < pc, bitAt b q = bitAt bits q) ∧
    ∀ q, pc ≤ q → q < code.length → bitAt b q = (bitAt bits q || decide (q ∉ starts code pc))

/-- An instruction at `pc` with `n` bytes of data: its data set, and the
rest done from the next instruction on.

Inside the instruction: data iff not its first byte. After it: as the rest
of the loop left it. -/
theorem LoopOk.step {code : Bytes} {bits b₂ b : Bitvec} {pc n : Nat} (hpc : pc < code.length)
    (hn : pushSize (code.getD pc 0) = n)
    (hb₂ : ∀ q, bitAt b₂ q = (bitAt bits q || decide (pc + 1 ≤ q ∧ q < pc + 1 + n)))
    (hrec : LoopOk code b₂ b (pc + 1 + n)) : LoopOk code bits b pc := by
  have hstarts := starts_of_lt hpc
  rw [hn] at hstarts
  obtain ⟨hbelow, habove⟩ := hrec
  refine ⟨fun q hq => ?_, fun q hq hqc => ?_⟩
  · rw [hbelow q (by omega), hb₂, decide_eq_false (show ¬ (pc + 1 ≤ q ∧ q < pc + 1 + n) by omega),
      Bool.or_false]
  · by_cases hq' : q < pc + 1 + n
    · have key : (pc + 1 ≤ q ∧ q < pc + 1 + n) ↔ q ∉ starts code pc := by
        rw [hstarts, List.mem_cons, not_or]
        constructor
        · rintro ⟨h₁, -⟩
          exact ⟨by omega, fun hm => absurd (le_of_mem_starts hm) (by omega)⟩
        · rintro ⟨hne, -⟩
          omega
      rw [hbelow q hq', hb₂]
      simp only [key]
    · have key : q ∉ starts code pc ↔ q ∉ starts code (pc + 1 + n) := by
        rw [hstarts, List.mem_cons]
        constructor
        · exact fun h hm => h (.inr hm)
        · rintro h (rfl | hm)
          · omega
          · exact h hm
      rw [habove q (by omega) hqc, hb₂, decide_eq_false (show ¬ (pc + 1 ≤ q ∧ q < pc + 1 + n) by omega),
        Bool.or_false]
      simp only [key]

theorem LoopOk.done {code : Bytes} {bits : Bitvec} {pc : Nat} (hpc : ¬ pc < code.length) :
    LoopOk code bits bits pc :=
  ⟨fun _ _ => rfl, fun _ hq hqc => absurd (lt_of_le_of_lt hq hqc) hpc⟩

/-- The `n` bytes of data after a push at `pc`, set eight at a time by
`setEights` and then one at a time by `setOnes`. -/
theorem setData_spec {code : Bytes} {bits : Bitvec} {pc : Nat} (hpc : pc < code.length)
    (hlen : bits.length = code.length / 8 + 1 + 4) {n : Nat} (hn : n ≤ 32) :
    ∃ b₁ b₂, setEights bits (pc + 1) n = some (b₁, pc + 1 + 8 * (n / 8), n % 8) ∧
      setOnes b₁ (pc + 1 + 8 * (n / 8)) (n % 8) = some (b₂, pc + 1 + n) ∧
      b₂.length = bits.length ∧ ∀ q, bitAt b₂ q = (bitAt bits q || decide (pc + 1 ≤ q ∧ q < pc + 1 + n)) := by
  obtain ⟨b₁, he, hl₁, hb₁⟩ := setEights_spec (show pc + 1 + n < 8 * bits.length by omega)
  obtain ⟨b₂, ho, hl₂, hb₂⟩ :=
    setOnes_spec (show pc + 1 + 8 * (n / 8) + n % 8 ≤ 8 * b₁.length by rw [hl₁]; omega)
  refine ⟨b₁, b₂, he, ?_, hl₂.trans hl₁, fun q => ?_⟩
  · rw [ho, show pc + 1 + 8 * (n / 8) + n % 8 = pc + 1 + n by omega]
  · have key : (pc + 1 ≤ q ∧ q < pc + 1 + 8 * (n / 8) ∨
        pc + 1 + 8 * (n / 8) ≤ q ∧ q < pc + 1 + 8 * (n / 8) + n % 8) ↔ (pc + 1 ≤ q ∧ q < pc + 1 + n) := by
      omega
    rw [hb₂, hb₁]
    simp only [Bool.or_assoc, ← Bool.decide_or, key]

/-- The loop from an instruction start keeps to its buffer of the code's
length over eight plus five bytes, and does what `LoopOk` says.

No data: the next instruction starts at `pc + 1`. -/
theorem codeBitmapLoop_spec (code : Bytes) (bits : Bitvec) (pc : Nat)
    (hlen : bits.length = code.length / 8 + 1 + 4) :
    ∃ b, codeBitmapLoop code bits pc = some b ∧ b.length = bits.length ∧ LoopOk code bits b pc := by
  fun_induction codeBitmapLoop code bits pc with
  | case1 bits pc hpc op hpush he =>
      obtain ⟨_, _, he', -⟩ := setData_spec hpc hlen (pushData_le hpush)
      rw [he'] at he
      cases he
  | case2 bits pc hpc op hpush b₁ pc' numbits he ho =>
      obtain ⟨_, _, he', ho', -⟩ := setData_spec hpc hlen (pushData_le hpush)
      rw [he', Option.some.injEq, Prod.mk.injEq, Prod.mk.injEq] at he
      obtain ⟨rfl, rfl, rfl⟩ := he
      rw [ho'] at ho
      cases ho
  | case3 bits pc hpc op hpush b₁ pc' numbits he b₂ pc'' ho ih =>
      obtain ⟨_, _, he', ho', hl₂, hb₂⟩ := setData_spec hpc hlen (pushData_le hpush)
      rw [he', Option.some.injEq, Prod.mk.injEq, Prod.mk.injEq] at he
      obtain ⟨rfl, rfl, rfl⟩ := he
      rw [ho', Option.some.injEq, Prod.mk.injEq] at ho
      obtain ⟨rfl, rfl⟩ := ho
      obtain ⟨b, hb, hl, hok⟩ := ih (hl₂.trans hlen)
      exact ⟨b, hb, hl.trans hl₂, hok.step hpc (if_pos hpush) hb₂⟩
  | case4 bits pc hpc op hpush ih =>
      obtain ⟨b, hb, hl, hok⟩ := ih hlen
      have hn : pushSize op = 0 := if_neg hpush
      exact ⟨b, hb, hl, hok.step hpc hn (fun q => by simp) ⟩
  | case5 bits pc hpc => exact ⟨bits, rfl, rfl, LoopOk.done hpc⟩

/-- `codeBitmap` writes inside its buffer, and marks a position of the code
as code iff an instruction of the decoding starts there. -/
theorem codeBitmap_spec (code : Bytes) :
    ∃ bits, codeBitmap code = some bits ∧ bits.length = code.length / 8 + 1 + 4 ∧
      ∀ p < code.length, bits.codeSegment p = decide (p ∈ starts code 0) := by
  obtain ⟨b, hb, hl, -, hok⟩ :=
    codeBitmapLoop_spec code (List.replicate (code.length / 8 + 1 + 4) 0) 0 (by simp)
  refine ⟨b, hb, by simpa using hl, fun p hp => ?_⟩
  rw [Bitvec.codeSegment_eq, hok p (Nat.zero_le _) hp, bitAt_replicate_zero]
  simp

/-- The map holds under `codehash` nothing or the bitmap of `code`. -/
def CacheFor (d : Destinations) (codehash : Lemochain.Hash) (code : Bytes) : Prop :=
  ∀ m, d codehash = some m → codeBitmap code = some m

theorem cacheFor_empty (codehash : Lemochain.Hash) (code : Bytes) :
    CacheFor (fun _ => none) codehash code :=
  fun _ h => nomatch h

/-- `has` accepts exactly the instruction starts below `2 ^ 62` and inside
the code that hold `JUMPDEST`, and keeps the map a cache of the bitmap.

`BitLen() >= 63` is `2 ^ 62 ≤ dest`. The bitmap comes from the map or is
computed and stored. -/
theorem Destinations.has_spec {d : Destinations} {codehash : Lemochain.Hash} {code : Bytes}
    (hc : CacheFor d codehash code) (dest : Nat) :
    ∃ d', d.has codehash code dest = some (decide (dest < 2 ^ 62 ∧ dest < code.length ∧
        code.getD dest 0 = JUMPDEST ∧ dest ∈ starts code 0), d') ∧ CacheFor d' codehash code := by
  obtain ⟨bits, hbm, -, hseg⟩ := codeBitmap_spec code
  have hsize : 63 ≤ dest.size ↔ 2 ^ 62 ≤ dest := Nat.lt_size
  by_cases hout : 63 ≤ dest.size ∨ code.length ≤ dest % 2 ^ 64
  · refine ⟨d, ?_, hc⟩
    rw [Destinations.has, if_pos hout]
    have hno : ¬ (dest < 2 ^ 62 ∧ dest < code.length) := by
      rintro ⟨h₁, h₂⟩
      rw [hsize] at hout
      rcases hout with h | h
      · omega
      · rw [Nat.mod_eq_of_lt (show dest < 2 ^ 64 by omega)] at h
        omega
    simp only [Option.some.injEq, Prod.mk.injEq, and_true]
    exact (decide_eq_false fun h => hno ⟨h.1, h.2.1⟩).symm
  · have hmod : dest % 2 ^ 64 = dest := Nat.mod_eq_of_lt (by rw [hsize] at hout; omega)
    rw [hmod] at hout
    have h62 : dest < 2 ^ 62 := by rw [hsize] at hout; omega
    have hlt : dest < code.length := by omega
    have hval : (code.getD dest 0 == JUMPDEST && bits.codeSegment dest) =
        decide (dest < 2 ^ 62 ∧ dest < code.length ∧ code.getD dest 0 = JUMPDEST ∧ dest ∈ starts code 0) := by
      rw [hseg dest hlt, Bool.decide_and, decide_eq_true h62, Bool.true_and, Bool.decide_and,
        decide_eq_true hlt, Bool.true_and, Bool.decide_and]
      rfl
    simp only [Destinations.has, hmod, if_neg hout]
    cases hd : d codehash with
    | none =>
        refine ⟨Function.update d codehash (some bits), ?_, fun m hm => ?_⟩
        · simp only [hbm, Option.map_some, hval]
        · simp only [Function.update_self, Option.some.injEq] at hm
          exact hm ▸ hbm
    | some m =>
        obtain rfl : m = bits := Option.some.inj ((hc m hd).symm.trans hbm)
        exact ⟨d, by simp only [Option.map_some, hval], hc⟩

/-- The analysis agrees with the decoding: `codeBitmap` marks exactly the
instruction starts, and for a code of at most `2 ^ 62` bytes, `has` accepts
exactly the instruction starts inside the code that hold `JUMPDEST`. Every
code the interpreter receives is a Go slice, of at most `2 ^ 48` bytes, so
the bound holds of all of them: inside such a code every position is below
`2 ^ 62`, and the test `dest.BitLen() >= 63` of `has` rejects no position of
the code. -/
theorem jumpdest_analysis_decodes (code : Bytes) :
    (∃ bits, codeBitmap code = some bits ∧ bits.length = code.length / 8 + 1 + 4 ∧
      ∀ p < code.length, bits.codeSegment p = decide (p ∈ starts code 0)) ∧
    (code.length ≤ 2 ^ 62 → ∀ (d : Destinations) (codehash : Lemochain.Hash), CacheFor d codehash code →
      ∀ dest, ∃ d', d.has codehash code dest =
          some (decide (dest < code.length ∧ code.getD dest 0 = JUMPDEST ∧ dest ∈ starts code 0), d') ∧
        CacheFor d' codehash code) := by
  refine ⟨codeBitmap_spec code, fun hlen d codehash hc dest => ?_⟩
  obtain ⟨d', hhas, hc'⟩ := Destinations.has_spec hc dest
  have hdrop : (dest < 2 ^ 62 ∧ dest < code.length ∧ code.getD dest 0 = JUMPDEST ∧ dest ∈ starts code 0) ↔
      (dest < code.length ∧ code.getD dest 0 = JUMPDEST ∧ dest ∈ starts code 0) :=
    ⟨fun h => h.2, fun h => ⟨by omega, h⟩⟩
  exact ⟨d', by simpa only [hdrop] using hhas, hc'⟩

/-- On `PUSH1 0x5b JUMPDEST` the analysis rejects the push data at `1` and
accepts the `JUMPDEST` at `2`. -/
theorem jumpdest_analysis_decodes_push :
    (∃ d', Destinations.has (fun _ => none) Lemochain.Hash.zero [0x60, 0x5b, 0x5b] 1 = some (false, d')) ∧
      ∃ d', Destinations.has (fun _ => none) Lemochain.Hash.zero [0x60, 0x5b, 0x5b] 2 = some (true, d') := by
  obtain ⟨-, h⟩ := jumpdest_analysis_decodes [0x60, 0x5b, 0x5b]
  obtain ⟨d₁, h₁, -⟩ := h (by decide) _ _ (cacheFor_empty _ _) 1
  obtain ⟨d₂, h₂, -⟩ := h (by decide) _ _ (cacheFor_empty _ _) 2
  exact ⟨⟨d₁, h₁.trans (congrArg (fun b => some (b, d₁)) (by decide +kernel))⟩,
    ⟨d₂, h₂.trans (congrArg (fun b => some (b, d₂)) (by decide +kernel))⟩⟩

end Lemochain.Vm
