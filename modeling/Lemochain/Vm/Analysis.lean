import Mathlib.Algebra.Order.Ring.Star
import Mathlib.Data.Nat.Cast.Order.Ring
import Lemochain.Common.Types
import Lemochain.Lib.PackedBits

/-!
# Jump destination analysis (`core/vm/analysis.go`)

`codeBitmap` marks, in a bit vector of one bit per byte of code packed
eight to a byte, the bytes that are the immediate data of a `PUSHn`;
`destinations.has` accepts a jump destination that lies in the code, holds
`JUMPDEST` and is not marked. The bitmap is computed once per code hash and
kept in the `destinations` map.

A write outside the bitmap's buffer is an index out of range in the source,
a panic: `set`, `set8` and `codeBitmap` return `none` there. The loops of
`codeBitmap` are the source's: `set8` for each whole eight bytes of push
data, then `set` for the rest, each moving `pc` on.
-/

namespace Lemochain.Vm

open Lemochain.PackedBits

/-- `OpCode`. -/
abbrev OpCode := UInt8

/-- `PUSH1`. -/
def PUSH1 : OpCode := 0x60

/-- `PUSH32`. -/
def PUSH32 : OpCode := 0x7f

/-- `JUMPDEST`. -/
def JUMPDEST : OpCode := 0x5b

/-- `bitvec`: a set bit marks a byte of push data. -/
abbrev Bitvec := List UInt8

/-- `bitvec.set`: the bit of `pos`. -/
def Bitvec.set (bits : Bitvec) (pos : Nat) : Option Bitvec :=
  if pos / 8 < bits.length then some (orAt bits (pos / 8) (0x80 >>> (pos % 8).toUInt8)) else none

/-- `bitvec.set8`: the eight bits from `pos` on, in the byte of `pos` and
the next one. -/
def Bitvec.set8 (bits : Bitvec) (pos : Nat) : Option Bitvec :=
  if pos / 8 + 1 < bits.length then
    some (orAt (orAt bits (pos / 8) (0xFF >>> (pos % 8).toUInt8)) (pos / 8 + 1) (~~~(0xFF >>> (pos % 8).toUInt8)))
  else none

/-- `bitvec.codeSegment`: whether `pos` is not push data. The callers only
ask for positions inside the code, which the buffer covers. -/
def Bitvec.codeSegment (bits : Bitvec) (pos : Nat) : Bool :=
  ((bits.getD (pos / 8) 0) &&& (0x80 >>> (pos % 8).toUInt8)) == 0

/-- The loop `for ; numbits >= 8; numbits -= 8 { bits.set8(pc); pc += 8 }`:
the bitmap, `pc` and `numbits` after it. -/
def setEights (bits : Bitvec) (pc numbits : Nat) : Option (Bitvec × Nat × Nat) :=
  if 8 ≤ numbits then (bits.set8 pc).bind fun bits => setEights bits (pc + 8) (numbits - 8)
  else some (bits, pc, numbits)
termination_by numbits

/-- The loop `for ; numbits > 0; numbits-- { bits.set(pc); pc++ }`. -/
def setOnes (bits : Bitvec) (pc : Nat) : Nat → Option (Bitvec × Nat)
  | 0 => some (bits, pc)
  | numbits + 1 => (bits.set pc).bind fun bits => setOnes bits (pc + 1) numbits

theorem setEights_pc {bits bits' : Bitvec} {pc pc' numbits numbits' : Nat}
    (h : setEights bits pc numbits = some (bits', pc', numbits')) : pc' = pc + numbits - numbits' ∧ numbits' ≤ numbits := by
  fun_induction setEights bits pc numbits generalizing bits' with
  | case1 bits pc numbits h8 ih =>
      cases hs : bits.set8 pc with
      | none => simp [hs] at h
      | some b =>
          simp only [hs, Option.bind_some] at h
          have := ih b h
          omega
  | case2 bits pc numbits h8 =>
      simp only [Option.some.injEq, Prod.mk.injEq] at h
      omega

theorem setOnes_pc {bits bits' : Bitvec} {pc pc' : Nat} :
    ∀ {numbits : Nat}, setOnes bits pc numbits = some (bits', pc') → pc' = pc + numbits := by
  intro numbits h
  induction numbits generalizing bits pc with
  | zero =>
      simp only [setOnes, Option.some.injEq, Prod.mk.injEq] at h
      omega
  | succ n ih =>
      cases hs : bits.set pc with
      | none => simp [setOnes, hs] at h
      | some b =>
          simp only [setOnes, hs, Option.bind_some] at h
          have := ih h
          omega

/-- The loop of `codeBitmap` from `pc`. -/
def codeBitmapLoop (code : Bytes) (bits : Bitvec) (pc : Nat) : Option Bitvec :=
  if h : pc < code.length then
    let op := code.getD pc 0
    if PUSH1 ≤ op ∧ op ≤ PUSH32 then
      match he : setEights bits (pc + 1) (op - PUSH1 + 1).toNat with
      | none => none
      | some (bits, pc', numbits) =>
          match ho : setOnes bits pc' numbits with
          | none => none
          | some (bits, pc'') => codeBitmapLoop code bits pc''
    else codeBitmapLoop code bits (pc + 1)
  else some bits
termination_by code.length - pc
decreasing_by
  · have h₁ := setEights_pc he
    have h₂ := setOnes_pc ho
    omega
  · omega

/-- `codeBitmap`: four spare bytes take the data of a `PUSH32` at the end of
the code. -/
def codeBitmap (code : Bytes) : Option Bitvec :=
  codeBitmapLoop code (List.replicate (code.length / 8 + 1 + 4) 0) 0

/-- `destinations`: the bitmaps of the codes analysed, by code hash. -/
abbrev Destinations := Lemochain.Hash → Option Bitvec

/-- `destinations.has`: whether `dest` is a `JUMPDEST` of `code` outside
push data; with the map after the bitmap of `code` is stored in it. -/
def Destinations.has (d : Destinations) (codehash : Lemochain.Hash) (code : Bytes) (dest : Nat) :
    Option (Bool × Destinations) :=
  let udest := dest % 2 ^ 64
  if 63 ≤ dest.size ∨ code.length ≤ udest then some (false, d)
  else
    let m := match d codehash with
      | some m => some (m, d)
      | none => (codeBitmap code).map fun m => (m, Function.update d codehash (some m))
    m.map fun (m, d) => (code.getD udest 0 == JUMPDEST && m.codeSegment udest, d)

end Lemochain.Vm
