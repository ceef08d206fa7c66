import Lemochain.Core.Types.Bloom
import Lemochain.Lib.PackedBits

/-!
# Rotated bloom bits (`core/bloombits/generator.go`)

A `Generator` turns `sections` blooms into 2048 bit vectors of `sections`
bits each: vector `i` holds bit `i` of every bloom, bloom `j` at bit `j`.
Two bit orders meet: a bloom bit is counted from the least significant end
of the 256-byte bloom read as a number (`Bloom.Big`), a vector bit from the
most significant bit of the first byte (`PackedBits.bitAt`).

The vectors are the array `[BloomBitLength][]byte`, a function of `Fin
BloomBitLength` here; an index out of the range of the array or of one of
its slices is a panic, `none`. `sections` and `nextBit` are `uint`; the
counts stay below the section count, so they are natural numbers.

## Main results

* `addBlooms_rotated`: adding the blooms `0, 1, …` in order, every vector
  `i < sections` below 2048 holds bit `i` of bloom `j` at bit `j`.
* `Bitset_bounds_check`: `Bitset` compares the index with the section count
  instead of the 2048 bloom bits, so it rejects the bits from `sections` to
  2048, and it indexes past the array from 2048 to `sections`.
-/

namespace Lemochain.Bloombits

open Lemochain.Types Lemochain.PackedBits

/-- `errSectionOutOfBounds`. -/
def errSectionOutOfBounds : String := "section out of bounds"

/-- `Generator`. -/
structure Generator where
  blooms : Fin BloomBitLength → Bytes
  sections : Nat
  nextBit : Nat

/-- `NewGenerator`. -/
def NewGenerator (sections : Nat) : Except String Generator :=
  if sections % 8 ≠ 0 then .error "section count not multiple of 8"
  else .ok ⟨fun _ => List.replicate (sections / 8) 0, sections, 0⟩

/-- One iteration of the loop of `AddBloom`: bit `i` of the bloom, if set,
is or-ed into byte `byteIndex` of vector `i`. -/
def addBloomStep (bloom : Bloom) (byteIndex : Nat) (bitMask : UInt8) (blooms : Fin BloomBitLength → Bytes)
    (i : Fin BloomBitLength) : Option (Fin BloomBitLength → Bytes) :=
  let bloomByteIndex := BloomByteLength - 1 - i.val / 8
  let bloomBitMask : UInt8 := 1 <<< (i.val % 8).toUInt8
  if (bloom.bytes.getD bloomByteIndex 0 &&& bloomBitMask) ≠ 0 then
    if byteIndex < (blooms i).length then some (Function.update blooms i (orAt (blooms i) byteIndex bitMask))
    else none
  else some blooms

/-- `AddBloom`: the outer `none` is a panic. -/
def Generator.AddBloom (b : Generator) (index : Nat) (bloom : Bloom) : Option (Except String Generator) :=
  if b.nextBit ≥ b.sections then some (.error errSectionOutOfBounds)
  else if b.nextBit ≠ index then some (.error "bloom filter with unexpected index")
  else
    let byteIndex := b.nextBit / 8
    let bitMask : UInt8 := 1 <<< (7 - b.nextBit % 8).toUInt8
    ((List.finRange BloomBitLength).foldlM (addBloomStep bloom byteIndex bitMask) b.blooms).map
      fun blooms => .ok { b with blooms := blooms, nextBit := b.nextBit + 1 }

/-- `Bitset`: the outer `none` is the panic of an index past the array. -/
def Generator.Bitset (b : Generator) (idx : Nat) : Option (Except String Bytes) :=
  if b.nextBit ≠ b.sections then some (.error "bloom not fully generated yet")
  else if idx ≥ b.sections then some (.error errSectionOutOfBounds)
  else if h : idx < BloomBitLength then some (.ok (b.blooms ⟨idx, h⟩))
  else none

/-- A caller that adds the blooms in order, from the index `i` on. -/
def Generator.addBlooms : Generator → Nat → List Bloom → Option (Except String Generator)
  | b, _, [] => some (.ok b)
  | b, i, bloom :: rest =>
      match b.AddBloom i bloom with
      | some (.ok b') => b'.addBlooms (i + 1) rest
      | r => r

/-- A new generator filled with the blooms `0, 1, …`. -/
def generate (sections : Nat) (blooms : List Bloom) : Option (Except String Generator) :=
  match NewGenerator sections with
  | .ok g => g.addBlooms 0 blooms
  | .error e => some (.error e)

/-! ## The bits of a bloom -/

/-- The test of `AddBloom` reads bit `i` of the bloom as a number. -/
theorem bloom_test_iff (bloom : Bloom) (i : Fin BloomBitLength) :
    (bloom.bytes.getD (BloomByteLength - 1 - i.val / 8) 0 &&& ((1 : UInt8) <<< (i.val % 8).toUInt8)) ≠ 0 ↔
      bloom.Big.testBit i = true := by
  have hi : i.val < 8 * bloom.bytes.length := by
    rw [bloom.length_eq]
    exact i.isLt
  rw [and_one_shiftLeft_ne_zero _ (Nat.mod_lt _ (by decide)), Bloom.Big, Lemochain.Rlp.testBit_beValue _ hi,
    bloom.length_eq]

/-- Bit `j` of the vectors of the blooms added so far: bit `i` of bloom `j`,
and nothing past them. -/
def rotatedBit (added : List Bloom) (i : Fin BloomBitLength) (j : Nat) : Bool :=
  match added[j]? with
  | some bloom => bloom.Big.testBit i
  | none => false

theorem rotatedBit_append (added : List Bloom) (bloom : Bloom) (i : Fin BloomBitLength) (j : Nat) :
    rotatedBit (added ++ [bloom]) i j = (rotatedBit added i j || decide (j = added.length) && bloom.Big.testBit i) := by
  unfold rotatedBit
  rcases Nat.lt_trichotomy j added.length with hj | rfl | hj
  · rw [List.getElem?_append_left hj, List.getElem?_eq_getElem hj]
    simp [Nat.ne_of_lt hj]
  · simp
  · rw [List.getElem?_eq_none (by simp; omega), List.getElem?_eq_none (by omega)]
    simp [Nat.ne_of_gt hj]

/-! ## One bloom -/

/-- The loop of `AddBloom` over a list of distinct bits or-es the mask into
the vectors of the bits in the list that the bloom sets.

The step at `a` touches vector `a` only. -/
theorem foldlM_addBloomStep (bloom : Bloom) (byteIndex : Nat) (bitMask : UInt8) :
    ∀ (L : List (Fin BloomBitLength)) (bl : Fin BloomBitLength → Bytes), L.Nodup →
      (∀ i, byteIndex < (bl i).length) →
      L.foldlM (addBloomStep bloom byteIndex bitMask) bl =
        some fun i => if i ∈ L ∧ bloom.Big.testBit i = true then orAt (bl i) byteIndex bitMask else bl i := by
  intro L
  induction L with
  | nil =>
      intro bl _ _
      simp
  | cons a L ih =>
      intro bl hnodup hlen
      obtain ⟨ha, hL⟩ := List.nodup_cons.mp hnodup
      let bl₁ := if bloom.Big.testBit a = true then Function.update bl a (orAt (bl a) byteIndex bitMask) else bl
      have hstep : addBloomStep bloom byteIndex bitMask bl a = some bl₁ := by
        unfold addBloomStep
        by_cases hbit : bloom.Big.testBit a = true
        · rw [if_pos ((bloom_test_iff bloom a).mpr hbit), if_pos (hlen a)]
          simp only [bl₁, if_pos hbit]
        · rw [if_neg (mt (bloom_test_iff bloom a).mp hbit)]
          simp only [bl₁, if_neg hbit]
      have hlen₁ : ∀ i, byteIndex < (bl₁ i).length := by
        intro i
        simp only [bl₁]
        split
        · by_cases hi : i = a
          · subst hi
            rw [Function.update_self, length_orAt]
            exact hlen i
          · rw [Function.update_of_ne hi]
            exact hlen i
        · exact hlen i
      rw [List.foldlM_cons, hstep, Option.bind_eq_bind, Option.bind_some, ih bl₁ hL hlen₁]
      congr 1
      funext i
      by_cases hi : i = a
      · subst hi
        by_cases hbit : bloom.Big.testBit i = true <;> simp [bl₁, ha, hbit]
      · have hbl : bl₁ i = bl i := by
          simp only [bl₁]
          split
          · exact Function.update_of_ne hi _ _
          · rfl
        simp [hbl, hi]

/-- What the generator holds after the blooms `added` of `s` sections:
vector `i` has `s / 8` bytes and holds bit `i` of bloom `j` at bit `j`. -/
structure Rotated (s : Nat) (added : List Bloom) (g : Generator) : Prop where
  sections : g.sections = s
  nextBit : g.nextBit = added.length
  length : ∀ i, (g.blooms i).length = s / 8
  bits : ∀ i j, bitAt (g.blooms i) j = rotatedBit added i j

theorem NewGenerator_rotated {s : Nat} (hs : s % 8 = 0) :
    ∃ g, NewGenerator s = .ok g ∧ Rotated s [] g := by
  refine ⟨_, if_neg (by omega), ⟨rfl, rfl, fun _ => List.length_replicate, fun i j => ?_⟩⟩
  rw [bitAt_replicate_zero]
  rfl

/-- `AddBloom` of the next bloom rotates it into the vectors.

Bit `j` of vector `i` is set now iff it was, or `j` is the new bloom and it
sets bit `i`. -/
theorem AddBloom_rotated {s : Nat} (hs : s % 8 = 0) {added : List Bloom} {g : Generator}
    (hg : Rotated s added g) (hlt : added.length < s) (bloom : Bloom) :
    ∃ g', g.AddBloom added.length bloom = some (.ok g') ∧ Rotated s (added ++ [bloom]) g' := by
  have hbyte : ∀ i, g.nextBit / 8 < (g.blooms i).length := by
    intro i
    rw [hg.length i, hg.nextBit]
    omega
  have hmask : (1 : UInt8) <<< (7 - g.nextBit % 8).toUInt8 = (0x80 : UInt8) >>> (g.nextBit % 8).toUInt8 :=
    one_shiftLeft_eq _ (Nat.mod_lt _ (by decide))
  unfold Generator.AddBloom
  rw [if_neg (by rw [hg.sections, hg.nextBit]; omega), if_neg (by rw [hg.nextBit]; exact not_not.mpr rfl)]
  dsimp only
  rw [foldlM_addBloomStep bloom _ _ _ g.blooms (List.nodup_finRange _) hbyte, Option.map_some]
  refine ⟨_, rfl, ⟨hg.sections, by rw [hg.nextBit, List.length_append, List.length_singleton], fun i => ?_,
    fun i j => ?_⟩⟩
  · dsimp only
    split
    · rw [length_orAt, hg.length]
    · exact hg.length i
  · dsimp only
    rw [rotatedBit_append, ← hg.bits i j]
    have hj : j % 8 < 8 := Nat.mod_lt _ (by decide)
    split
    · next hbit =>
        rw [bitAt_orAt (hbyte i), hmask, maskBit_single _ (Nat.mod_lt _ (by decide)) _ hj, hbit.2, hg.nextBit]
        congr 1
        by_cases hjn : j = added.length
        · simp [hjn]
        · have : ¬ (j / 8 = added.length / 8 ∧ j % 8 = added.length % 8) := fun h => hjn (by omega)
          simp only [Bool.and_true, hjn, decide_false]
          simpa using this
    · next hbit =>
        have hbit : bloom.Big.testBit i = false := by simpa [List.mem_finRange] using hbit
        simp [hbit]

/-- The caller's loop rotates every bloom into the vectors. -/
theorem addBlooms_of_rotated {s : Nat} (hs : s % 8 = 0) :
    ∀ (rest added : List Bloom) (g : Generator), Rotated s added g → added.length + rest.length ≤ s →
      ∃ g', g.addBlooms added.length rest = some (.ok g') ∧ Rotated s (added ++ rest) g' := by
  intro rest
  induction rest with
  | nil =>
      intro added g hg _
      exact ⟨g, rfl, by rwa [List.append_nil]⟩
  | cons bloom rest ih =>
      intro added g hg hle
      rw [List.length_cons] at hle
      obtain ⟨g₁, h₁, hg₁⟩ := AddBloom_rotated hs hg (by omega) bloom
      obtain ⟨g', h', hg'⟩ := ih (added ++ [bloom]) g₁ hg₁ (by rw [List.length_append, List.length_singleton]; omega)
      refine ⟨g', ?_, by rwa [List.append_assoc, List.singleton_append] at hg'⟩
      rw [Generator.addBlooms, h₁]
      rwa [List.length_append, List.length_singleton] at h'

/-- Adding the blooms `0, 1, …` in order, every vector `i` below the section
count and below 2048 holds bit `i` of bloom `j` at bit `j`. -/
theorem addBlooms_rotated {s : Nat} (hs : s % 8 = 0) {blooms : List Bloom} (hlen : blooms.length = s) :
    ∃ g, generate s blooms = some (.ok g) ∧ Rotated s blooms g ∧
      ∀ i (hi : i < BloomBitLength), i < s → g.Bitset i = some (.ok (g.blooms ⟨i, hi⟩)) := by
  obtain ⟨g₀, h₀, hg₀⟩ := NewGenerator_rotated hs
  obtain ⟨g, h, hg⟩ := addBlooms_of_rotated hs blooms [] g₀ hg₀ (by rw [hlen, List.length_nil, Nat.zero_add])
  refine ⟨g, by rw [generate, h₀]; exact h, hg, fun i hi his => ?_⟩
  unfold Generator.Bitset
  rw [if_neg (by rw [hg.nextBit, hg.sections, List.nil_append, hlen]; exact not_not.mpr rfl),
    if_neg (by rw [hg.sections]; omega), dif_pos hi]

/-! ## The bounds check of `Bitset` -/

/-- `Bitset` compares the bit index with the section count, not with the
2048 bits of a bloom: it rejects the bits from `s` to 2048, and from 2048 to
`s` it indexes past the array of vectors, a panic. -/
theorem Bitset_bounds_check {s : Nat} (hs : s % 8 = 0) {blooms : List Bloom} (hlen : blooms.length = s) :
    ∃ g, generate s blooms = some (.ok g) ∧
      (∀ i, s ≤ i → i < BloomBitLength → g.Bitset i = some (.error errSectionOutOfBounds)) ∧
      (∀ i, BloomBitLength ≤ i → i < s → g.Bitset i = none) := by
  obtain ⟨g, h, hg, -⟩ := addBlooms_rotated hs hlen
  have hfull : ¬ g.nextBit ≠ g.sections := by
    rw [hg.nextBit, hg.sections, hlen]
    exact not_not.mpr rfl
  refine ⟨g, h, fun i hsi _ => ?_, fun i hi his => ?_⟩
  · unfold Generator.Bitset
    rw [if_neg hfull, if_pos (by rw [hg.sections]; exact hsi)]
  · unfold Generator.Bitset
    rw [if_neg hfull, if_neg (by rw [hg.sections]; omega), dif_neg (by omega)]

/-- Eight sections reject the bit 8 of a bloom, and 2056 sections panic at
the bit 2048. -/
theorem Bitset_bounds_check_8_2056 :
    (8 % 8 = 0 ∧ (List.replicate 8 Bloom.zero).length = 8 ∧
      ∃ g, generate 8 (List.replicate 8 Bloom.zero) = some (.ok g) ∧
        (∀ i, 8 ≤ i → i < BloomBitLength → g.Bitset i = some (.error errSectionOutOfBounds)) ∧
        (∀ i, BloomBitLength ≤ i → i < 8 → g.Bitset i = none)) ∧
    (2056 % 8 = 0 ∧ (List.replicate 2056 Bloom.zero).length = 2056 ∧
      ∃ g, generate 2056 (List.replicate 2056 Bloom.zero) = some (.ok g) ∧
        (∀ i, 2056 ≤ i → i < BloomBitLength → g.Bitset i = some (.error errSectionOutOfBounds)) ∧
        (∀ i, BloomBitLength ≤ i → i < 2056 → g.Bitset i = none)) :=
  ⟨⟨rfl, List.length_replicate, Bitset_bounds_check rfl List.length_replicate⟩,
    ⟨rfl, List.length_replicate, Bitset_bounds_check rfl List.length_replicate⟩⟩

end Lemochain.Bloombits
