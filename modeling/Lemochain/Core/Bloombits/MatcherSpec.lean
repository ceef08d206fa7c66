import Lemochain.Core.Bloombits.Matcher
import Lemochain.Lib.PackedBits
import Lemochain.Lib.Loop

/-!
# What a matcher session sends

The block loop of `Matcher.Start` sends the blocks of a section whose bit
is set, skipping eight blocks at a time over a zero byte, as long as its
`uint64` counter does not wrap around (`deliverLoop_spec`). At the end of
the `uint64` range it does: the loop over the last section runs its counter
from `2⁶⁴ - 1` back to `0`, reads past the bitset and panics, and `results`
is never closed.

## Main results

* `deliverLoop_spec`: away from the end of the range, the loop sends
  exactly the blocks of its window whose bit is set, in order.
* `deliverLoop_wraps`: over a window that ends at `2⁶⁴ - 1`, with every
  bit set, the loop sends every block of the window and then panics.
* `foldlM_subMatch_spec`: the chain keeps of a section the blocks of its
  bitset that pass every group, and drops it when none is left.
* `session_spec`: a session over a range that ends well before `2⁶⁴ - 1`
  sends, in order, exactly the blocks of the range that pass every group.
-/

namespace Lemochain.Bloombits

open Lemochain.PackedBits Lemochain.Loop

/-! ## The block loop -/

/-- The blocks from `i` to `last` whose bit is set, block `n` at bit
`n - sectionStart`. -/
def setBlocks (bitset : Bytes) (sectionStart i last : Nat) : List UInt64 :=
  ((List.range' i (last + 1 - i)).filter fun n => bitAt bitset (n - sectionStart)).map UInt64.ofNat

section SetBlocks

variable {bitset : Bytes} {s i last : Nat}

theorem setBlocks_of_gt (h : last < i) : setBlocks bitset s i last = [] := by
  simp [setBlocks, show last + 1 - i = 0 by omega]

theorem setBlocks_of_false (h : bitAt bitset (i - s) = false) :
    setBlocks bitset s i last = setBlocks bitset s (i + 1) last := by
  by_cases hi : i ≤ last
  · have hr : List.range' i (last + 1 - i) = i :: List.range' (i + 1) (last + 1 - (i + 1)) := by
      rw [show last + 1 - i = (last + 1 - (i + 1)) + 1 by omega, List.range'_succ]
    simp [setBlocks, hr, h]
  · rw [setBlocks_of_gt (by omega), setBlocks_of_gt (by omega)]

theorem setBlocks_of_true (hi : i ≤ last) (h : bitAt bitset (i - s) = true) :
    setBlocks bitset s i last = UInt64.ofNat i :: setBlocks bitset s (i + 1) last := by
  have hr : List.range' i (last + 1 - i) = i :: List.range' (i + 1) (last + 1 - (i + 1)) := by
    rw [show last + 1 - i = (last + 1 - (i + 1)) + 1 by omega, List.range'_succ]
  simp [setBlocks, hr, h]

/-- Blocks whose bits are clear can be skipped. -/
theorem setBlocks_skip (k : Nat) (h : ∀ j < k, bitAt bitset (i + j - s) = false) :
    setBlocks bitset s i last = setBlocks bitset s (i + k) last := by
  induction k with
  | zero => rfl
  | succ k ih =>
      rw [ih fun j hj => h j (by omega), setBlocks_of_false (h k (by omega))]
      rfl

end SetBlocks

/-- The bit `Start` tests for block `i` is bit `i % 8` of its byte. -/
theorem deliver_bit (next : UInt8) (i : UInt64) :
    (next &&& ((1 : UInt8) <<< (7 - i % 8).toUInt8) ≠ 0) ↔ maskBit next (i.toNat % 8) = true := by
  have hk : i.toNat % 8 < 8 := Nat.mod_lt _ (by decide)
  have hshift : (7 - i % 8 : UInt64).toUInt8 = (7 - i.toNat % 8).toUInt8 := by
    apply UInt8.toNat_inj.mp
    have h8 : i % 8 ≤ 7 := by
      rw [UInt64.le_iff_toNat_le, UInt64.toNat_mod]
      simp
      omega
    rw [UInt64.toNat_toUInt8, UInt64.toNat_sub_of_le _ _ h8, UInt64.toNat_mod]
    simp
  rw [hshift, one_shiftLeft_eq _ hk, maskBit]
  simp

@[simp] theorem Session.prepend_nil (r : Session) : r.prepend [] = r := by
  cases r <;> rfl

theorem Session.prepend_prepend (a b : List UInt64) (r : Session) :
    (r.prepend b).prepend a = r.prepend (a ++ b) := by
  cases r <;> simp [Session.prepend]

section Deliver

variable {bitset : Bytes} {s last : UInt64}

/-- The byte the loop reads at block `i` exists, and holds the bits of the
blocks of that byte. -/
theorem deliverLoop_byte {i : UInt64} (hsi : s ≤ i) (hil : i ≤ last)
    (hcov : last.toNat < s.toNat + 8 * bitset.length) :
    ∃ next, bitset[((i - s) / 8).toNat]? = some next ∧
      ∀ q, q / 8 = (i.toNat - s.toNat) / 8 → bitAt bitset q = maskBit next (q % 8) := by
  have hsi' := UInt64.le_iff_toNat_le.mp hsi
  have hil' := UInt64.le_iff_toNat_le.mp hil
  have hidx : ((i - s) / 8).toNat = (i.toNat - s.toNat) / 8 := by
    simp [UInt64.toNat_div, UInt64.toNat_sub_of_le _ _ hsi]
  have hlt : (i.toNat - s.toNat) / 8 < bitset.length := by omega
  refine ⟨bitset[(i.toNat - s.toNat) / 8], by rw [hidx, List.getElem?_eq_getElem hlt], ?_⟩
  intro q hq
  rw [bitAt, hq, List.getD_eq_getElem?_getD, List.getElem?_eq_getElem hlt, Option.getD_some]

/-- The block loop over a window: the blocks of the window whose bit is set,
in order, and then whatever the loop does with the first counter past the
window, which is at most eight blocks on.

The loop goes on at counter `n`: inside the window by induction, past it as
`hE` says. Block `i` is bit `i - s`, in the byte the loop reads. A zero byte
read at its first block: its eight blocks are skipped. -/
theorem deliverLoop_run (hs : s.toNat % 8 = 0) (hcov : last.toNat < s.toNat + 8 * bitset.length)
    {E : Session} (hE : ∀ fuel n, 0 < fuel → last.toNat < n → n ≤ last.toNat + 8 →
      deliverLoop bitset s last fuel (UInt64.ofNat n) = E) :
    ∀ fuel i, s ≤ i → i ≤ last → last.toNat + 1 - i.toNat < fuel →
      deliverLoop bitset s last fuel i = E.prepend (setBlocks bitset s.toNat i.toNat last.toNat) := by
  intro fuel
  induction fuel with
  | zero =>
      intro i _ _ hf
      omega
  | succ fuel ih =>
      intro i hsi hil hf
      have hsi' := UInt64.le_iff_toNat_le.mp hsi
      have hil' := UInt64.le_iff_toNat_le.mp hil
      have hcont : ∀ n, i.toNat < n → n ≤ i.toNat + 8 →
          deliverLoop bitset s last fuel (UInt64.ofNat n) = E.prepend (setBlocks bitset s.toNat n last.toNat) := by
        intro n hin hn
        by_cases hnl : n ≤ last.toNat
        · have hofNat : (UInt64.ofNat n).toNat = n := by
            have := last.toNat_lt
            rw [UInt64.toNat_ofNat', Nat.mod_eq_of_lt (by omega)]
          rw [ih (UInt64.ofNat n) (UInt64.le_iff_toNat_le.mpr (by omega))
            (UInt64.le_iff_toNat_le.mpr (by omega)) (by omega), hofNat]
        · rw [hE fuel n (by omega) (by omega) (by omega), setBlocks_of_gt (by omega), Session.prepend_nil]
      obtain ⟨next, hget, hbits⟩ := deliverLoop_byte hsi hil hcov
      have hbit : bitAt bitset (i.toNat - s.toNat) = maskBit next (i.toNat % 8) := by
        rw [hbits _ rfl]
        congr 1
        omega
      have hsucc : i + 1 = UInt64.ofNat (i.toNat + 1) := by
        apply UInt64.toNat_inj.mp
        simp [UInt64.toNat_add]
      rw [deliverLoop_succ, if_pos hil, hget]
      dsimp only
      by_cases hz : next = 0
      · rw [if_pos hz]
        by_cases h8 : i % 8 = 0
        · have h8' : i.toNat % 8 = 0 := by
            have := congrArg UInt64.toNat h8
            simpa [UInt64.toNat_mod] using this
          have hskip : i + 7 + 1 = UInt64.ofNat (i.toNat + 8) := by
            apply UInt64.toNat_inj.mp
            simp [UInt64.toNat_add]
          rw [if_pos h8, hskip, hcont _ (by omega) (by omega)]
          congr 1
          refine (setBlocks_skip 8 fun j hj => ?_).symm
          rw [hbits _ (by omega), hz, maskBit_zero]
        · rw [if_neg h8, hsucc, hcont _ (by omega) (by omega)]
          congr 1
          exact (setBlocks_of_false (by rw [hbit, hz, maskBit_zero])).symm
      · rw [if_neg hz]
        by_cases hb : next &&& ((1 : UInt8) <<< (7 - i % 8).toUInt8) ≠ 0
        · rw [if_pos hb, hsucc, hcont _ (by omega) (by omega), Session.prepend_prepend,
            setBlocks_of_true hil' (by rw [hbit]; exact (deliver_bit next i).mp hb), UInt64.ofNat_toNat]
          rfl
        · rw [if_neg hb, hsucc, hcont _ (by omega) (by omega)]
          congr 1
          refine (setBlocks_of_false ?_).symm
          rw [hbit]
          simpa using mt (deliver_bit next i).mpr hb

/-- Away from the end of the `uint64` range, the block loop sends the blocks
of its window whose bit is set, in order, and ends. -/
theorem deliverLoop_spec (hs : s.toNat % 8 = 0) (hlast : last.toNat + 8 < 2 ^ 64)
    (hcov : last.toNat < s.toNat + 8 * bitset.length) {fuel : Nat} {i : UInt64} (hsi : s ≤ i) (hil : i ≤ last)
    (hf : last.toNat + 1 - i.toNat < fuel) :
    deliverLoop bitset s last fuel i = .done (setBlocks bitset s.toNat i.toNat last.toNat) := by
  have hE : ∀ fuel n, 0 < fuel → last.toNat < n → n ≤ last.toNat + 8 →
      deliverLoop bitset s last fuel (UInt64.ofNat n) = .done [] := by
    intro fuel n hfuel hn hn8
    obtain ⟨fuel, rfl⟩ : ∃ f, fuel = f + 1 := ⟨fuel - 1, by omega⟩
    have hgt : last < UInt64.ofNat n := UInt64.lt_iff_toNat_lt.mpr (by simp; omega)
    rw [deliverLoop_succ, if_neg (UInt64.not_le.mpr hgt)]
  rw [deliverLoop_run hs hcov hE fuel i hsi hil hf, Session.prepend, List.append_nil]

/-- The block loop over a window, empty or not, away from the end of the
range. -/
theorem deliverLoop_window (hs : s.toNat % 8 = 0) (hlast : last.toNat + 8 < 2 ^ 64)
    (hcov : last.toNat < s.toNat + 8 * bitset.length) {fuel : Nat} {i : UInt64} (hsi : s ≤ i)
    (hf : last.toNat + 1 - i.toNat < fuel) :
    deliverLoop bitset s last fuel i = .done (setBlocks bitset s.toNat i.toNat last.toNat) := by
  by_cases hil : i ≤ last
  · exact deliverLoop_spec hs hlast hcov hsi hil hf
  · obtain ⟨fuel, rfl⟩ : ∃ f, fuel = f + 1 := ⟨fuel - 1, by omega⟩
    rw [deliverLoop_succ, if_neg hil, setBlocks_of_gt (UInt64.lt_iff_toNat_lt.mp (UInt64.not_le.mp hil))]

/-- Over a window that ends at `2⁶⁴ - 1`, the last block of the last
section, the counter wraps around to a block before the section and the
loop panics on the index past the bitset: after sending the blocks whose
bit is set, it never ends normally.

The wrapped counter is below the section: its index is past the bitset. -/
theorem deliverLoop_wraps (hs : s.toNat % 8 = 0) (hs8 : 8 ≤ s.toNat)
    (hlen : s.toNat + 8 * bitset.length = 2 ^ 64) {fuel : Nat} {i : UInt64} (hsi : s ≤ i)
    (hf : 2 ^ 64 - i.toNat < fuel) :
    deliverLoop bitset s 18446744073709551615 fuel i = .panicked (setBlocks bitset s.toNat i.toNat (2 ^ 64 - 1)) := by
  have hmax : (18446744073709551615 : UInt64).toNat = 2 ^ 64 - 1 := rfl
  have hle : ∀ c : UInt64, c ≤ 18446744073709551615 := fun c =>
    UInt64.le_iff_toNat_le.mpr (by have := c.toNat_lt; omega)
  have hE : ∀ fuel n, 0 < fuel → (18446744073709551615 : UInt64).toNat < n →
      n ≤ (18446744073709551615 : UInt64).toNat + 8 →
      deliverLoop bitset s 18446744073709551615 fuel (UInt64.ofNat n) = .panicked [] := by
    intro fuel n hfuel hn hn8
    rw [hmax] at hn hn8
    obtain ⟨fuel, rfl⟩ : ∃ f, fuel = f + 1 := ⟨fuel - 1, by omega⟩
    have hc : (UInt64.ofNat n).toNat = n - 2 ^ 64 := by
      simp
      omega
    have hsc : UInt64.ofNat n < s := UInt64.lt_iff_toNat_lt.mpr (by omega)
    have hidx : ((UInt64.ofNat n - s) / 8).toNat = (n - 2 ^ 64 + 2 ^ 64 - s.toNat) / 8 := by
      rw [UInt64.toNat_div, UInt64.toNat_sub, hc]
      simp
      omega
    have hnone : bitset[((UInt64.ofNat n - s) / 8).toNat]? = none := by
      rw [hidx, List.getElem?_eq_none_iff]
      omega
    rw [deliverLoop_succ, if_pos (hle _), hnone]
  rw [deliverLoop_run hs (by omega) hE fuel i hsi (hle i) (by omega), hmax, Session.prepend, List.append_nil]

end Deliver

/-! ## The chain -/

/-- Block `j` of section `sec` passes a group: one of its clauses has all
its bits set. -/
def groupMatches (vectors : Nat → UInt64 → Bytes) (sec : UInt64) (j : Nat) (bloom : List bloomIndexes) : Bool :=
  bloom.any fun bits => bits.all fun bit => bitAt (vectors bit sec) j

theorem length_ANDBytes (a b : Bytes) : (ANDBytes a b).length = a.length := by
  simp only [ANDBytes, List.length_append, List.length_zipWith, List.length_drop]
  omega

theorem length_ORBytes (a b : Bytes) : (ORBytes a b).length = a.length := by
  simp only [ORBytes, List.length_append, List.length_zipWith, List.length_drop]
  omega

theorem bitAt_ANDBytes {a b : Bytes} (h : a.length = b.length) (q : Nat) :
    bitAt (ANDBytes a b) q = (bitAt a q && bitAt b q) := by
  rw [ANDBytes, List.drop_eq_nil_of_le (by omega), List.append_nil, bitAt_zipWith_and]

theorem bitAt_ORBytes {a b : Bytes} (h : a.length = b.length) (q : Nat) :
    bitAt (ORBytes a b) q = (bitAt a q || bitAt b q) := by
  rw [ORBytes, List.drop_eq_nil_of_le (by omega), List.append_nil, bitAt_zipWith_or h]

theorem copyBytes_of_length {dst src : Bytes} (h : src.length = dst.length) : copyBytes dst src = src := by
  rw [copyBytes, ← h, List.take_length, List.drop_eq_nil_of_le (by omega), List.append_nil]

/-- A bitset without a nonzero byte has no bit set. -/
theorem bitAt_of_TestBytes_false {p : Bytes} (h : TestBytes p = false) (q : Nat) : bitAt p q = false := by
  unfold bitAt
  rw [List.getD_eq_getElem?_getD]
  cases hq : p[q / 8]? with
  | none => exact maskBit_zero _
  | some x =>
      have hx : x = 0 := by
        have := List.any_eq_false.mp h x (List.mem_of_getElem? hq)
        simpa using this
      rw [Option.getD_some, hx, maskBit_zero]

section Chain

variable {m : Matcher} {vectors : Nat → UInt64 → Bytes} {sec : UInt64}
  (hlen : ∀ bit, (vectors bit sec).length = (m.sectionSize / 8).toNat)

include hlen in
theorem foldl_andStep (rest : bloomIndexes) (v : Bytes) (hv : v.length = (m.sectionSize / 8).toNat) :
    ∃ v', rest.foldl (andStep m vectors sec) (some v) = some v' ∧ v'.length = (m.sectionSize / 8).toNat ∧
      ∀ q, bitAt v' q = (bitAt v q && rest.all fun bit => bitAt (vectors bit sec) q) := by
  induction rest generalizing v with
  | nil => exact ⟨v, rfl, hv, fun q => by simp⟩
  | cons bit rest ih =>
      obtain ⟨v', hfold, hl, hbits⟩ := ih (ANDBytes v (vectors bit sec)) (by rw [length_ANDBytes, hv])
      refine ⟨v', hfold, hl, fun q => ?_⟩
      rw [hbits, bitAt_ANDBytes (by rw [hv, hlen]), List.all_cons, Bool.and_assoc]

include hlen in
/-- The and of a clause's vectors has exactly the bits set in all of them.

The first bit's vector is copied whole into the zero vector. -/
theorem andVector_spec {bits : bloomIndexes} (hbits : bits ≠ []) :
    ∃ v, andVector m vectors sec bits = some v ∧ v.length = (m.sectionSize / 8).toNat ∧
      ∀ q, bitAt v q = bits.all fun bit => bitAt (vectors bit sec) q := by
  obtain ⟨bit, rest, rfl⟩ := List.exists_cons_of_ne_nil hbits
  have hcopy : copyBytes (List.replicate (m.sectionSize / 8).toNat 0) (vectors bit sec) = vectors bit sec :=
    copyBytes_of_length (by rw [hlen, List.length_replicate])
  obtain ⟨v, hfold, hl, hb⟩ := foldl_andStep hlen rest (vectors bit sec) (hlen bit)
  refine ⟨v, ?_, hl, fun q => by rw [hb, List.all_cons]⟩
  rw [andVector, List.foldl_cons, andStep, hcopy]
  exact hfold

theorem orStep_none (bits : bloomIndexes) : orStep m vectors sec none bits = andVector m vectors sec bits := rfl

theorem orStep_some {v a : Bytes} {bits : bloomIndexes} (ha : andVector m vectors sec bits = some a) :
    orStep m vectors sec (some v) bits = some (ORBytes v a) := by
  simp [orStep, ha]

include hlen in
theorem foldl_orStep (rest : List bloomIndexes) (hcl : ∀ bits ∈ rest, bits ≠ []) (v : Bytes)
    (hv : v.length = (m.sectionSize / 8).toNat) :
    ∃ v', rest.foldl (orStep m vectors sec) (some v) = some v' ∧ v'.length = (m.sectionSize / 8).toNat ∧
      ∀ q, bitAt v' q = (bitAt v q || groupMatches vectors sec q rest) := by
  induction rest generalizing v with
  | nil => exact ⟨v, rfl, hv, fun q => by simp [groupMatches]⟩
  | cons bits rest ih =>
      obtain ⟨a, ha, hal, hab⟩ := andVector_spec hlen (hcl bits List.mem_cons_self)
      obtain ⟨v', hfold, hl, hbits⟩ :=
        ih (fun b hb => hcl b (List.mem_cons_of_mem _ hb)) (ORBytes v a) (by rw [length_ORBytes, hv])
      refine ⟨v', ?_, hl, fun q => ?_⟩
      · rw [List.foldl_cons, orStep_some ha]
        exact hfold
      · rw [hbits, bitAt_ORBytes (by rw [hv, hal]), hab, groupMatches, groupMatches, List.any_cons,
          Bool.or_assoc]

include hlen in
/-- The or over a group's clauses has the bits of the blocks that pass the
group. -/
theorem orVector_spec {bloom : List bloomIndexes} (hbloom : bloom ≠ []) (hcl : ∀ bits ∈ bloom, bits ≠ []) :
    ∃ v, orVector m vectors sec bloom = some v ∧ v.length = (m.sectionSize / 8).toNat ∧
      ∀ q, bitAt v q = groupMatches vectors sec q bloom := by
  obtain ⟨bits, rest, rfl⟩ := List.exists_cons_of_ne_nil hbloom
  obtain ⟨a, ha, hal, hab⟩ := andVector_spec hlen (hcl bits List.mem_cons_self)
  obtain ⟨v, hfold, hl, hb⟩ := foldl_orStep hlen rest (fun b hb => hcl b (List.mem_cons_of_mem _ hb)) a hal
  refine ⟨v, ?_, hl, fun q => ?_⟩
  · rw [orVector, List.foldl_cons, orStep_none, ha]
    exact hfold
  · rw [hb, hab, groupMatches, groupMatches, List.any_cons]

include hlen in
/-- A sub-matcher ands the blocks that pass its group into the section's
bitset, and drops the section only when no block is left.

The vector the sub-matcher tests. -/
theorem subMatchSection_spec {bloom : List bloomIndexes} (hbloom : bloom ≠ []) (hcl : ∀ bits ∈ bloom, bits ≠ [])
    {sub : partialMatches} (hsec : sub.«section» = sec) (hsub : sub.bitset.length = (m.sectionSize / 8).toNat) :
    (∀ res, subMatchSection m vectors bloom sub = some res →
      res.«section» = sec ∧ res.bitset.length = (m.sectionSize / 8).toNat ∧
      ∀ q, bitAt res.bitset q = (bitAt sub.bitset q && groupMatches vectors sec q bloom)) ∧
    (subMatchSection m vectors bloom sub = none → ∀ q, (bitAt sub.bitset q && groupMatches vectors sec q bloom) = false) := by
  obtain ⟨v, hv, hvl, hvb⟩ := orVector_spec hlen hbloom hcl
  have hV : ∀ q, bitAt (ANDBytes v sub.bitset) q = (bitAt sub.bitset q && groupMatches vectors sec q bloom) := by
    intro q
    rw [bitAt_ANDBytes (by rw [hvl, hsub]), hvb, Bool.and_comm]
  have hsm : subMatchSection m vectors bloom sub =
      if TestBytes (ANDBytes v sub.bitset) then some ⟨sub.«section», ANDBytes v sub.bitset⟩ else none := by
    rw [subMatchSection, hsec, hv]
    rfl
  constructor
  · intro res hres
    rw [hsm] at hres
    split at hres
    · cases hres
      exact ⟨hsec, by rw [length_ANDBytes, hvl], hV⟩
    · cases hres
  · intro hnone q
    rw [hsm] at hnone
    split at hnone
    · cases hnone
    · next ht =>
        rw [← hV]
        exact bitAt_of_TestBytes_false (by simpa using ht) q

end Chain

/-- The chain as one pass per section through all the groups.

The first group's pass is the first step of each section's fold. -/
theorem chain_eq (m : Matcher) (vectors : Nat → UInt64 → Bytes) (source : List partialMatches) :
    chain m vectors source =
      source.filterMap fun sub => m.filters.foldlM (fun acc bloom => subMatchSection m vectors bloom acc) sub := by
  unfold chain
  generalize m.filters = fs
  induction fs generalizing source with
  | nil => simp
  | cons bloom fs ih =>
      rw [List.foldl_cons, ih, List.filterMap_filterMap]
      rfl

/-- The vectors the retrievers deliver have the section's width. -/
def Delivered (m : Matcher) (vectors : Nat → UInt64 → Bytes) : Prop :=
  ∀ bit sec, (vectors bit sec).length = (m.sectionSize / 8).toNat

/-- Every group of the matcher has a clause, and every clause a bit. -/
def WellFormed (m : Matcher) : Prop := ∀ bloom ∈ m.filters, bloom ≠ [] ∧ ∀ bits ∈ bloom, bits ≠ []

/-- What the chain makes of one section: the blocks of its bitset that pass
every group, or nothing when none is left. -/
theorem foldlM_subMatch_spec {m : Matcher} {vectors : Nat → UInt64 → Bytes} (hd : Delivered m vectors)
    (fs : List (List bloomIndexes)) (hfs : ∀ bloom ∈ fs, bloom ≠ [] ∧ ∀ bits ∈ bloom, bits ≠ [])
    (sub : partialMatches) (hsub : sub.bitset.length = (m.sectionSize / 8).toNat) :
    (∀ res, fs.foldlM (fun acc bloom => subMatchSection m vectors bloom acc) sub = some res →
      res.«section» = sub.«section» ∧ res.bitset.length = (m.sectionSize / 8).toNat ∧
      ∀ q, bitAt res.bitset q = (bitAt sub.bitset q && fs.all (groupMatches vectors sub.«section» q))) ∧
    (fs.foldlM (fun acc bloom => subMatchSection m vectors bloom acc) sub = none →
      ∀ q, (bitAt sub.bitset q && fs.all (groupMatches vectors sub.«section» q)) = false) := by
  induction fs generalizing sub with
  | nil =>
      constructor
      · intro res hres
        cases hres
        exact ⟨rfl, hsub, fun q => by simp⟩
      · intro hnone
        cases hnone
  | cons bloom fs ih =>
      obtain ⟨hbloom, hcl⟩ := hfs bloom List.mem_cons_self
      have hrest : ∀ b ∈ fs, b ≠ [] ∧ ∀ bits ∈ b, bits ≠ [] := fun b hb => hfs b (List.mem_cons_of_mem _ hb)
      obtain ⟨hsome, hnone⟩ := subMatchSection_spec (fun bit => hd bit sub.«section») hbloom hcl rfl hsub
      rw [List.foldlM_cons]
      cases hs : subMatchSection m vectors bloom sub with
      | none =>
          refine ⟨(fun res hres => by cases hres), fun _ q => ?_⟩
          have := hnone hs q
          rw [List.all_cons, ← Bool.and_assoc, this, Bool.false_and]
      | some s' =>
          obtain ⟨hsec, hlen', hbits⟩ := hsome s' hs
          obtain ⟨ih1, ih2⟩ := ih hrest s' hlen'
          refine ⟨fun res hres => ?_, fun h q => ?_⟩
          · obtain ⟨hr1, hr2, hr3⟩ := ih1 res hres
            refine ⟨hr1.trans hsec, hr2, fun q => ?_⟩
            rw [hr3, hbits, hsec, List.all_cons, Bool.and_assoc]
          · have := ih2 h q
            rw [hbits, hsec, Bool.and_assoc] at this
            rw [List.all_cons]
            exact this

/-! ## The feeder and a whole session -/

theorem Session.andThen_done (r : Session) : r.andThen (.done []) = r := by
  cases r <;> simp [Session.andThen, Session.prepend]

/-- The feeder sends every section from `i` to `last`, when `last` is not
the largest `uint64`. -/
theorem feedLoop_spec {last : UInt64} (hlast : last.toNat + 1 < 2 ^ 64) :
    ∀ fuel i, last.toNat + 1 - i.toNat < fuel →
      feedLoop last fuel i = some ((List.range' i.toNat (last.toNat + 1 - i.toNat)).map UInt64.ofNat) := by
  intro fuel
  induction fuel with
  | zero =>
      intro i hf
      omega
  | succ fuel ih =>
      intro i hf
      by_cases hil : i ≤ last
      · have hil' := UInt64.le_iff_toNat_le.mp hil
        have hsucc : (i + 1).toNat = i.toNat + 1 := by
          rw [UInt64.toNat_add]
          simp
          omega
        rw [feedLoop_succ, if_pos hil, ih (i + 1) (by omega), hsucc,
          show last.toNat + 1 - i.toNat = (last.toNat + 1 - (i.toNat + 1)) + 1 by omega, List.range'_succ]
        simp
      · have hgt := UInt64.lt_iff_toNat_lt.mp (UInt64.not_le.mp hil)
        rw [feedLoop_succ, if_neg hil, show last.toNat + 1 - i.toNat = 0 by omega]
        rfl

theorem Start_cons (m : Matcher) (begin «end» : UInt64) (fuel : Nat) (res : partialMatches)
    (rest : List partialMatches) :
    Start m begin «end» fuel (res :: rest) = (Start m begin «end» fuel [res]).andThen (Start m begin «end» fuel rest) := by
  simp only [Start, List.foldr_cons, List.foldr_nil, Session.andThen_done]

/-- The delivery of the sections a pass lets through, each section's
numbers in turn. -/
theorem Start_filterMap {β : Type} {m : Matcher} {begin «end» : UInt64} {fuel : Nat}
    (f : β → Option partialMatches) (out : β → List UInt64) (l : List β)
    (hnone : ∀ x ∈ l, f x = none → out x = [])
    (hsome : ∀ x ∈ l, ∀ res, f x = some res → Start m begin «end» fuel [res] = .done (out x)) :
    Start m begin «end» fuel (l.filterMap f) = .done (l.flatMap out) := by
  induction l with
  | nil => rfl
  | cons x l ih =>
      have ih := ih (fun y hy => hnone y (List.mem_cons_of_mem _ hy))
        (fun y hy => hsome y (List.mem_cons_of_mem _ hy))
      cases hfx : f x with
      | none =>
          rw [List.filterMap_cons_none hfx, ih, List.flatMap_cons, hnone x List.mem_cons_self hfx, List.nil_append]
      | some res =>
          rw [List.filterMap_cons_some hfx, Start_cons, hsome x List.mem_cons_self res hfx, ih, List.flatMap_cons]
          rfl

/-- Block `n` passes every group of the matcher: the bits of the vectors of
its section at its place in the section. -/
def blockMatches (m : Matcher) (vectors : Nat → UInt64 → Bytes) (n : Nat) : Bool :=
  m.filters.all (groupMatches vectors (UInt64.ofNat (n / m.sectionSize.toNat)) (n % m.sectionSize.toNat))

theorem blockMatches_of_section (m : Matcher) (vectors : Nat → UInt64 → Bytes) {i q : Nat}
    (hq : q < m.sectionSize.toNat) :
    blockMatches m vectors (i * m.sectionSize.toNat + q) = m.filters.all (groupMatches vectors (UInt64.ofNat i) q) := by
  have hS : 0 < m.sectionSize.toNat := by omega
  have hdiv : (i * m.sectionSize.toNat + q) / m.sectionSize.toNat = i := by
    rw [Nat.add_comm, Nat.add_mul_div_right _ _ hS, Nat.div_eq_of_lt hq, Nat.zero_add]
  have hmod : (i * m.sectionSize.toNat + q) % m.sectionSize.toNat = q := by
    rw [Nat.add_comm, Nat.add_mul_mod_self_right, Nat.mod_eq_of_lt hq]
  rw [blockMatches, hdiv, hmod]

section Sections

variable {m : Matcher} {vectors : Nat → UInt64 → Bytes} {begin «end» : UInt64} {fuel : Nat}
  (hS : 0 < m.sectionSize.toNat) (hS8 : m.sectionSize.toNat % 8 = 0)
  (hend : «end».toNat + m.sectionSize.toNat < 2 ^ 64) (hf : m.sectionSize.toNat < fuel)

include hS hS8 hend hf in
/-- The blocks `Start` sends for section `i` of the range, whose bitset
holds at every block of the section whether it passes the groups.

The section's start and end do not overflow. The bit of block `n` is at its
place in the section. -/
theorem Start_section {i : Nat} (hib : begin.toNat / m.sectionSize.toNat ≤ i)
    (hie : i ≤ «end».toNat / m.sectionSize.toNat) {res : partialMatches} (hsec : res.«section» = UInt64.ofNat i)
    (hlen : res.bitset.length = (m.sectionSize / 8).toNat)
    (hbits : ∀ q < m.sectionSize.toNat, bitAt res.bitset q = blockMatches m vectors (i * m.sectionSize.toNat + q)) :
    Start m begin «end» fuel [res] =
      .done (((window m.sectionSize.toNat begin.toNat «end».toNat i).filter (blockMatches m vectors)).map UInt64.ofNat) := by
  have hi : i ≤ «end».toNat := hie.trans (Nat.div_le_self _ _)
  have hiS : i * m.sectionSize.toNat ≤ «end».toNat :=
    (Nat.mul_le_mul_right _ hie).trans (Nat.div_mul_le_self _ _)
  have hbS : begin.toNat < i * m.sectionSize.toNat + m.sectionSize.toNat := by
    have := Nat.mul_le_mul_right m.sectionSize.toNat hib
    have := Nat.lt_div_mul_add (a := begin.toNat) hS
    omega
  have hst : (res.«section» * m.sectionSize).toNat = i * m.sectionSize.toNat := by
    rw [hsec, UInt64.toNat_mul, UInt64.toNat_ofNat', Nat.mod_eq_of_lt (a := i) (by omega),
      Nat.mod_eq_of_lt (by omega)]
  have hstEnd : (res.«section» * m.sectionSize + m.sectionSize - 1).toNat =
      i * m.sectionSize.toNat + m.sectionSize.toNat - 1 := by
    have hadd : (res.«section» * m.sectionSize + m.sectionSize).toNat = i * m.sectionSize.toNat + m.sectionSize.toNat := by
      rw [UInt64.toNat_add, hst, Nat.mod_eq_of_lt (by omega)]
    rw [UInt64.toNat_sub_of_le _ _ (UInt64.le_iff_toNat_le.mpr (by rw [hadd]; simp; omega)), hadd]
    simp
  have hfirst : (if begin > res.«section» * m.sectionSize then begin else res.«section» * m.sectionSize).toNat =
      max begin.toNat (i * m.sectionSize.toNat) := by
    split
    · next h => rw [← hst]; exact (Nat.max_eq_left (UInt64.lt_iff_toNat_lt.mp h).le).symm
    · next h => rw [← hst]; exact (Nat.max_eq_right (UInt64.le_iff_toNat_le.mp (UInt64.not_lt.mp h))).symm
  have hlast : (if «end» < res.«section» * m.sectionSize + m.sectionSize - 1 then «end»
      else res.«section» * m.sectionSize + m.sectionSize - 1).toNat =
      min «end».toNat (i * m.sectionSize.toNat + m.sectionSize.toNat - 1) := by
    split
    · next h => rw [← hstEnd]; exact (Nat.min_eq_left (UInt64.lt_iff_toNat_lt.mp h).le).symm
    · next h => rw [← hstEnd]; exact (Nat.min_eq_right (UInt64.le_iff_toNat_le.mp (UInt64.not_lt.mp h))).symm
  have hw8 : 8 * res.bitset.length = m.sectionSize.toNat := by
    rw [hlen, UInt64.toNat_div]
    simp
    omega
  simp only [Start, List.foldr_cons, List.foldr_nil, Session.andThen_done]
  rw [deliverLoop_window (by rw [hst]; exact Nat.mod_eq_zero_of_dvd (Dvd.dvd.mul_left (Nat.dvd_of_mod_eq_zero hS8) i))
    (by rw [hlast]; omega) (by rw [hlast, hst, hw8]; omega)
    (UInt64.le_iff_toNat_le.mpr (by rw [hfirst, hst]; omega)) (by rw [hlast, hfirst]; omega),
    setBlocks, hfirst, hlast, hst]
  congr 2
  apply List.filter_congr
  intro n hn
  rw [List.mem_range'_1] at hn
  have hq : n - i * m.sectionSize.toNat < m.sectionSize.toNat := by omega
  rw [hbits _ hq, Nat.add_sub_cancel' (by omega)]

include hS in
/-- A section the chain drops has no matching block in its window. -/
theorem window_filter_eq_nil {i : Nat}
    (hnone : ∀ q < m.sectionSize.toNat, blockMatches m vectors (i * m.sectionSize.toNat + q) = false) :
    (window m.sectionSize.toNat begin.toNat «end».toNat i).filter (blockMatches m vectors) = [] := by
  apply List.filter_eq_nil_iff.mpr
  intro n hn
  rw [window, List.mem_range'_1] at hn
  have hq : n - i * m.sectionSize.toNat < m.sectionSize.toNat := by omega
  have := hnone _ hq
  rw [Nat.add_sub_cancel' (by omega)] at this
  simp [this]

end Sections

/-- A session sends, in order, every block of the range that passes every
group of the matcher, and ends: when the section size is a positive
multiple of eight, the range and one more section fit in a `uint64`, the
groups and their clauses are not empty, the retrievers deliver vectors of
the section's width, and the fuel covers the sections and the blocks of a
section.

The all-ones bitset of the feeder. A dropped section has no matching block.
A section that goes through carries its blocks' verdicts. -/
theorem session_spec (m : Matcher) (vectors : Nat → UInt64 → Bytes) (hd : Delivered m vectors)
    (hw : WellFormed m) (hS : 0 < m.sectionSize.toNat) (hS8 : m.sectionSize.toNat % 8 = 0)
    (begin «end» : UInt64) (hend : «end».toNat + m.sectionSize.toNat < 2 ^ 64) (fuel : Nat)
    (hf : m.sectionSize.toNat < fuel)
    (hf' : «end».toNat / m.sectionSize.toNat + 1 - begin.toNat / m.sectionSize.toNat < fuel) :
    session m vectors begin «end» fuel =
      .done (((List.range' begin.toNat («end».toNat + 1 - begin.toNat)).filter (blockMatches m vectors)).map
        UInt64.ofNat) := by
  have hss : m.sectionSize ≠ 0 := fun h => by simp [h] at hS
  have hdiv : ∀ x : UInt64, (x / m.sectionSize).toNat = x.toNat / m.sectionSize.toNat := fun x => UInt64.toNat_div x _
  have hfeed := @feedLoop_spec («end» / m.sectionSize)
    (by rw [hdiv]; have := Nat.div_le_self «end».toNat m.sectionSize.toNat; omega) fuel (begin / m.sectionSize)
    (by rw [hdiv, hdiv]; exact hf')
  have hff : ∀ q < m.sectionSize.toNat, bitAt (List.replicate (m.sectionSize / 8).toNat 0xff) q = true := by
    intro q hq
    apply bitAt_replicate_ff
    rw [UInt64.toNat_div]
    simp
    omega
  have hlenff : (List.replicate (m.sectionSize / 8).toNat (0xff : UInt8)).length = (m.sectionSize / 8).toNat :=
    List.length_replicate
  rw [session, if_neg hss, hfeed, hdiv, hdiv]
  dsimp only
  rw [chain_eq, List.map_map, List.filterMap_map,
    range'_eq_flatMap_window hS «end».toNat _ begin.toNat rfl, List.filter_flatMap, List.map_flatMap]
  simp only [Function.comp_def]
  apply Start_filterMap
  · intro i hi hnone
    rw [List.mem_range'_1] at hi
    have hspec := (foldlM_subMatch_spec hd m.filters hw _ hlenff).2 hnone
    dsimp only at hspec
    rw [window_filter_eq_nil hS (fun q hq => by
      have := hspec q
      rwa [hff q hq, Bool.true_and, ← blockMatches_of_section m vectors hq] at this), List.map_nil]
  · intro i hi res hres
    rw [List.mem_range'_1] at hi
    obtain ⟨hsec, hlen, hbits⟩ := (foldlM_subMatch_spec hd m.filters hw _ hlenff).1 res hres
    dsimp only at hsec hbits
    apply Start_section hS hS8 hend hf (by omega) (by omega) hsec hlen
    intro q hq
    rw [hbits, hff q hq, Bool.true_and, blockMatches_of_section m vectors hq]

/-- A group with a `nil` clause is a wildcard. -/
theorem mapM_calcBloomIndexes_eq_none {filter : List (Option Bytes)} (h : none ∈ filter) :
    filter.mapM (fun clause => clause.map calcBloomIndexes) = none := by
  induction filter with
  | nil => cases h
  | cons c l ih => cases c <;> simp_all

/-- A filter made only of wildcard groups leaves the matcher nothing to
match. -/
theorem NewMatcher_filters_eq_nil {sectionSize : UInt64} {filters : List (List (Option Bytes))}
    (hw : ∀ filter ∈ filters, filter = [] ∨ none ∈ filter) : (NewMatcher sectionSize filters).filters = [] := by
  apply List.filterMap_eq_nil_iff.mpr
  intro filter hf
  rcases hw filter hf with rfl | hnil
  · rfl
  · simp [mapM_calcBloomIndexes_eq_none hnil]

/-- With only wildcard groups every block matches. Yet a session over a
range that ends at `2⁶⁴ - 1`, the end of the last section of 4096 blocks,
sends the blocks from `begin` on and then panics: its block loop wraps
around, and `results` is never closed.

The whole range lies in the last section. Every bit of the all-ones bitset
is set. -/
theorem session_end_of_range_panics (filters : List (List (Option Bytes)))
    (hw : ∀ filter ∈ filters, filter = [] ∨ none ∈ filter) (vectors : Nat → UInt64 → Bytes) (begin : UInt64)
    (hb : 2 ^ 64 - 4096 ≤ begin.toNat) (fuel : Nat) (hf : 2 ^ 64 - begin.toNat < fuel) (hf2 : 1 < fuel) :
    session (NewMatcher 4096 filters) vectors begin 18446744073709551615 fuel =
      .panicked ((List.range' begin.toNat (2 ^ 64 - begin.toNat)).map UInt64.ofNat) := by
  have hm := @NewMatcher_filters_eq_nil 4096 filters hw
  have hbl := begin.toNat_lt
  have hsec : begin / 4096 = 4503599627370495 := by
    apply UInt64.toNat_inj.mp
    rw [UInt64.toNat_div]
    simp
    omega
  have hfeed : feedLoop (18446744073709551615 / 4096) fuel (begin / 4096) = some [4503599627370495] := by
    obtain ⟨f, rfl⟩ : ∃ f, fuel = f + 2 := ⟨fuel - 2, by omega⟩
    rw [hsec]
    simp [feedLoop]
  have hfirst : (if begin > 4503599627370495 * 4096 then begin else 4503599627370495 * 4096) = begin := by
    split
    · rfl
    · next h =>
        apply UInt64.toNat_inj.mp
        have := UInt64.not_lt.mp h
        have := UInt64.le_iff_toNat_le.mp this
        simp at this ⊢
        omega
  have hlast : (if (18446744073709551615 : UInt64) < 4503599627370495 * 4096 + 4096 - 1 then
      18446744073709551615 else 4503599627370495 * 4096 + 4096 - 1) = (18446744073709551615 : UInt64) := by
    decide
  have hs : (4503599627370495 * 4096 : UInt64).toNat = 2 ^ 64 - 4096 := rfl
  have hsb : (4503599627370495 * 4096 : UInt64) ≤ begin := UInt64.le_iff_toNat_le.mpr (by rw [hs]; exact hb)
  have hall : setBlocks (List.replicate (4096 / 8 : UInt64).toNat 0xff) (2 ^ 64 - 4096) begin.toNat (2 ^ 64 - 1) =
      (List.range' begin.toNat (2 ^ 64 - begin.toNat)).map UInt64.ofNat := by
    rw [setBlocks, List.filter_eq_self.mpr]
    · congr 2
    · intro n hn
      rw [List.mem_range'_1] at hn
      exact bitAt_replicate_ff (by simp; omega)
  have hss : (NewMatcher 4096 filters).sectionSize = 4096 := rfl
  rw [session, hss, if_neg (by decide), hfeed]
  simp only [List.map_cons, List.map_nil, chain, hm, List.foldl_nil, Start, List.foldr_cons, List.foldr_nil, hss]
  rw [hfirst, hlast, Session.andThen_done, deliverLoop_wraps (by rw [hs]; decide) (by rw [hs]; omega)
    (by rw [hs, List.length_replicate]; rfl) hsb hf, hs, hall]

theorem session_end_of_range_panics_last :
    (∀ filter ∈ ([] : List (List (Option Bytes))), filter = [] ∨ none ∈ filter) ∧
      2 ^ 64 - 4096 ≤ (18446744073709551615 : UInt64).toNat ∧ 2 ^ 64 - (18446744073709551615 : UInt64).toNat < 2 ∧
      1 < 2 ∧
      session (NewMatcher 4096 []) (fun _ _ => []) 18446744073709551615 18446744073709551615 2 =
        .panicked ((List.range' (18446744073709551615 : UInt64).toNat
          (2 ^ 64 - (18446744073709551615 : UInt64).toNat)).map UInt64.ofNat) :=
  ⟨(fun _ h => by cases h), by decide, by decide, by decide,
    session_end_of_range_panics [] (fun _ h => by cases h) (fun _ _ => []) 18446744073709551615
      (by decide) 2 (by decide) (by decide)⟩

end Lemochain.Bloombits
