import Lemochain.Common.Types
import Lemochain.Lib.Keccak

/-!
# The bloom bits matcher (`core/bloombits/matcher.go`, `common/bitutil`)

A `Matcher` looks for the blocks whose blooms may contain every group of a
filter: an address of a list, a topic of a list, and so on. A block matches
a clause when the three bloom bits of the clause (`calcBloomIndexes`) are set
in its bloom, and a group when one of its clauses does. The blooms are
stored rotated, one bit vector per bloom bit and section of `sectionSize`
blocks, block `j` of the section at bit `j` from the most significant bit of
the first byte.

A session runs a daisy chain of goroutines. A feeder sends every section of
the range with an all-ones bitset; the sub-matcher of each group ands into
it the or over its clauses of the and of their three vectors, and drops a
section whose bitset is zero; the last goroutine of `Start` walks the blocks
of each section that arrives and sends the matching block numbers on
`results`. The schedulers and the distributor only fetch the vectors and
hand them back in request order.

The model runs the chain sequentially, section by section in the feeder's
order, as the channels deliver them; the vectors are the function
`vectors bit section` that the retrievers answer with. The feeder's loop and
the block loop are `for` loops over `uint64` counters that can wrap around,
so both are given fuel; how a session ends is a `Session`.
-/

namespace Lemochain.Bloombits

open Lemochain.Keccak

/-! ## `bitutil` -/

/-- `copy(dst, src)`: the bytes of `src` over the start of `dst`. -/
def copyBytes (dst src : Bytes) : Bytes := src.take dst.length ++ dst.drop src.length

/-- `bitutil.ANDBytes(a, a, b)`: the first `min (len a) (len b)` bytes of `a`
anded with those of `b`, the rest of `a` kept. -/
def ANDBytes (a b : Bytes) : Bytes := a.zipWith (· &&& ·) b ++ a.drop b.length

/-- `bitutil.ORBytes(a, a, b)`. -/
def ORBytes (a b : Bytes) : Bytes := a.zipWith (· ||| ·) b ++ a.drop b.length

/-- `bitutil.TestBytes`: some bit is set. -/
def TestBytes (p : Bytes) : Bool := p.any (· != 0)

/-! ## Filters -/

/-- `bloomIndexes`: the three bloom bits of a clause. -/
abbrev bloomIndexes := List Nat

/-- `calcBloomIndexes`: the three 11-bit numbers of the first six bytes of
the clause's Keccak-256 hash. -/
def calcBloomIndexes (b : Bytes) : bloomIndexes :=
  let b := keccak256 b
  (List.range 3).map fun i => (((b.getD (2 * i) 0).toNat <<< 8) &&& 2047) + (b.getD (2 * i + 1) 0).toNat

/-- `partialMatches`: a section and the bitset of its blocks still in
play. -/
structure partialMatches where
  «section» : UInt64
  bitset : Bytes
  deriving DecidableEq, Repr

/-- `Matcher`: the section size and the non-wildcard groups of the filter. -/
structure Matcher where
  sectionSize : UInt64
  filters : List (List bloomIndexes)

/-- `NewMatcher`: an empty group, and a group with a `nil` clause, match
everything and are left out. A clause is `none` for `nil`. -/
def NewMatcher (sectionSize : UInt64) (filters : List (List (Option Bytes))) : Matcher :=
  ⟨sectionSize, filters.filterMap fun filter =>
    if filter.isEmpty then none else filter.mapM fun clause => clause.map calcBloomIndexes⟩

/-! ## The sub-matchers -/

/-- One bit of the inner loop of `Matcher.subMatch`: the first vector is
copied into a fresh zero vector, the next ones anded into it. -/
def andStep (m : Matcher) (vectors : Nat → UInt64 → Bytes) (sec : UInt64) (andVector : Option Bytes)
    (bit : Nat) : Option Bytes :=
  match andVector with
  | none => some (copyBytes (List.replicate (m.sectionSize / 8).toNat 0) (vectors bit sec))
  | some v => some (ANDBytes v (vectors bit sec))

/-- `andVector` of `Matcher.subMatch`: the and of the vectors of a clause's
bits; `nil` for no bits. -/
def andVector (m : Matcher) (vectors : Nat → UInt64 → Bytes) (sec : UInt64) (bits : bloomIndexes) : Option Bytes :=
  bits.foldl (andStep m vectors sec) none

/-- One clause of the outer loop of `Matcher.subMatch`: its `andVector`
becomes the `orVector`, or is or-ed into it. -/
def orStep (m : Matcher) (vectors : Nat → UInt64 → Bytes) (sec : UInt64) (orVector : Option Bytes)
    (bits : bloomIndexes) : Option Bytes :=
  match orVector, andVector m vectors sec bits with
  | none, andVector => andVector
  | some v, none => some v
  | some v, some andVector => some (ORBytes v andVector)

/-- `orVector` of `Matcher.subMatch`: the or over the clauses of their
`andVector`s; `nil` for no clauses. -/
def orVector (m : Matcher) (vectors : Nat → UInt64 → Bytes) (sec : UInt64) (bloom : List bloomIndexes) :
    Option Bytes :=
  bloom.foldl (orStep m vectors sec) none

/-- The second goroutine of `Matcher.subMatch` on one section: the group's
`orVector`, a zero vector for `nil`, anded into the section's bitset; the
section goes on only if some bit is left. -/
def subMatchSection (m : Matcher) (vectors : Nat → UInt64 → Bytes) (bloom : List bloomIndexes)
    (subres : partialMatches) : Option partialMatches :=
  let orVector := ANDBytes ((orVector m vectors subres.«section» bloom).getD
    (List.replicate (m.sectionSize / 8).toNat 0)) subres.bitset
  if TestBytes orVector then some ⟨subres.«section», orVector⟩ else none

/-- The daisy chain of `Matcher.run`: the sub-matcher of every group in
turn, each keeping the order of the sections. -/
def chain (m : Matcher) (vectors : Nat → UInt64 → Bytes) (source : List partialMatches) : List partialMatches :=
  m.filters.foldl (fun next bloom => next.filterMap (subMatchSection m vectors bloom)) source

/-! ## Sessions -/

/-- How a session ends within the fuel given: `results` closed after the
numbers sent, a panic after them, or still running. -/
inductive Session where
  | done (sent : List UInt64)
  | panicked (sent : List UInt64)
  | running (sent : List UInt64)
  deriving DecidableEq, Repr

/-- Numbers sent before the rest of a session. -/
def Session.prepend (ns : List UInt64) : Session → Session
  | .done sent => .done (ns ++ sent)
  | .panicked sent => .panicked (ns ++ sent)
  | .running sent => .running (ns ++ sent)

/-- One part of a session, then the rest if the part ends normally. -/
def Session.andThen : Session → Session → Session
  | .done sent, rest => rest.prepend sent
  | .panicked sent, _ => .panicked sent
  | .running sent, _ => .running sent

/-- The feeder of `Matcher.run`: `for i := from; i <= last; i++`. -/
def feedLoop (last : UInt64) : Nat → UInt64 → Option (List UInt64)
  | 0, _ => none
  | fuel + 1, i => if i ≤ last then (feedLoop last fuel (i + 1)).map (i :: ·) else some []

theorem feedLoop_succ (last : UInt64) (fuel : Nat) (i : UInt64) :
    feedLoop last (fuel + 1) i = if i ≤ last then (feedLoop last fuel (i + 1)).map (i :: ·) else some [] :=
  rfl

/-- The block loop of `Matcher.Start` over one section, from block `i` to
`last`: a zero byte of the bitset at a block that starts it skips its eight
blocks; an index past the bitset panics. -/
def deliverLoop (bitset : Bytes) (sectionStart last : UInt64) : Nat → UInt64 → Session
  | 0, _ => .running []
  | fuel + 1, i =>
    if i ≤ last then
      match bitset[((i - sectionStart) / 8).toNat]? with
      | none => .panicked []
      | some next =>
        if next = 0 then
          deliverLoop bitset sectionStart last fuel ((if i % 8 = 0 then i + 7 else i) + 1)
        else if next &&& ((1 : UInt8) <<< (7 - i % 8).toUInt8) ≠ 0 then
          (deliverLoop bitset sectionStart last fuel (i + 1)).prepend [i]
        else deliverLoop bitset sectionStart last fuel (i + 1)
    else .done []

theorem deliverLoop_succ (bitset : Bytes) (sectionStart last : UInt64) (fuel : Nat) (i : UInt64) :
    deliverLoop bitset sectionStart last (fuel + 1) i =
      if i ≤ last then
        match bitset[((i - sectionStart) / 8).toNat]? with
        | none => .panicked []
        | some next =>
          if next = 0 then
            deliverLoop bitset sectionStart last fuel ((if i % 8 = 0 then i + 7 else i) + 1)
          else if next &&& ((1 : UInt8) <<< (7 - i % 8).toUInt8) ≠ 0 then
            (deliverLoop bitset sectionStart last fuel (i + 1)).prepend [i]
          else deliverLoop bitset sectionStart last fuel (i + 1)
      else .done [] :=
  rfl

/-- The goroutine of `Matcher.Start`: every section that leaves the chain,
its blocks clipped to the range `[begin, end]`. -/
def Start (m : Matcher) (begin «end» : UInt64) (fuel : Nat) (sink : List partialMatches) : Session :=
  sink.foldr (fun res rest =>
    let sectionStart := res.«section» * m.sectionSize
    let first := if begin > sectionStart then begin else sectionStart
    let last := if «end» < sectionStart + m.sectionSize - 1 then «end» else sectionStart + m.sectionSize - 1
    (deliverLoop res.bitset sectionStart last fuel first).andThen rest) (.done [])

/-- A session of the matcher over `[begin, end]`: the feeder, the chain and
the delivery. The feeder divides by the section size, which panics at
zero. -/
def session (m : Matcher) (vectors : Nat → UInt64 → Bytes) (begin «end» : UInt64) (fuel : Nat) : Session :=
  if m.sectionSize = 0 then .panicked []
  else
    match feedLoop («end» / m.sectionSize) fuel (begin / m.sectionSize) with
    | none => .running []
    | some sections =>
      Start m begin «end» fuel
        (chain m vectors (sections.map fun i => ⟨i, List.replicate (m.sectionSize / 8).toNat 0xff⟩))

end Lemochain.Bloombits
