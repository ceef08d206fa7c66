import Lemochain.Common.Big

/-!
# The arithmetic, comparison and bitwise instructions (`core/vm/instructions.go`)

The stack holds `*big.Int` values, integers here, and the operations work
on them with the arbitrary-precision arithmetic of `math/big`: Euclidean
`Div` and `Mod`, two's complement `And`, `Or`, `Xor`, `Not` (Mathlib's
`Int.land`, `Int.lor`, `Int.xor`, `Int.lnot`), `Lsh` a product by a power of
two and `Rsh` a shift that rounds down, also for negative values. A result
that can leave 256 bits goes through `U256`; the signed operations read
their operands through `S256`.

Each `opX` is given the operands in the order it pops them (`x` the top)
and returns the value it leaves on top. An operation that peeks its second
operand and sets it in place, like `opAdd`, has the same effect as popping
it and pushing the result. `ArithOp.execute` is that effect on the stack;
the interpreter checks the stack depth before it calls an operation
(`none` here when the stack is too short).
-/

namespace Lemochain.Vm

open Lemochain.Math

def opAdd (x y : Int) : Int := U256 (x + y)

def opSub (x y : Int) : Int := U256 (x - y)

def opMul (x y : Int) : Int := U256 (x * y)

def opDiv (x y : Int) : Int := if y.sign ≠ 0 then U256 (x / y) else 0

/-- `opSdiv`: the quotient of the absolute values, negated when the signs
differ. -/
def opSdiv (x y : Int) : Int :=
  let x := S256 x
  let y := S256 y
  if y.sign = 0 ∨ x.sign = 0 then 0
  else if x.sign ≠ y.sign then U256 (-((x.natAbs / y.natAbs : Nat) : Int))
  else U256 ((x.natAbs / y.natAbs : Nat) : Int)

def opMod (x y : Int) : Int := if y.sign = 0 then 0 else U256 (x % y)

/-- `opSmod`: the remainder of the absolute values, with the sign of `x`. -/
def opSmod (x y : Int) : Int :=
  let x := S256 x
  let y := S256 y
  if y.sign = 0 then 0
  else if x.sign < 0 then U256 (-((x.natAbs % y.natAbs : Nat) : Int))
  else U256 ((x.natAbs % y.natAbs : Nat) : Int)

def opExp (base exponent : Int) : Int := Exp base exponent

/-- `opSignExtend`: below byte `31`, the bit `8 * back + 7` of `num` is
copied to the bits above it; from byte `31` on `num` stays on the stack. The mask of the low bits is `Lsh(1, bit) - 1`. -/
def opSignExtend (back num : Int) : Int :=
  if back < 31 then
    let bit := back.toNat * 8 + 7
    let mask : Int := 2 ^ bit - 1
    if num.testBit bit then U256 (Int.lor num (Int.lnot mask))
    else U256 (Int.land num mask)
  else num

def opNot (x : Int) : Int := U256 (Int.lnot x)

def opLt (x y : Int) : Int := if x < y then 1 else 0

def opGt (x y : Int) : Int := if x > y then 1 else 0

/-- `opSlt`: words from `2 ^ 255` on are the negative ones. -/
def opSlt (x y : Int) : Int :=
  if x ≥ tt255 ∧ y < tt255 then 1
  else if x < tt255 ∧ y ≥ tt255 then 0
  else if x < y then 1 else 0

def opSgt (x y : Int) : Int :=
  if x ≥ tt255 ∧ y < tt255 then 0
  else if x < tt255 ∧ y ≥ tt255 then 1
  else if x > y then 1 else 0

def opEq (x y : Int) : Int := if x = y then 1 else 0

def opIszero (x : Int) : Int := if x.sign > 0 then 0 else 1

def opAnd (x y : Int) : Int := Int.land x y

def opOr (x y : Int) : Int := Int.lor x y

def opXor (x y : Int) : Int := Int.xor x y

def opByte (th val : Int) : Int :=
  if th < 32 then ((Byte val 32 th.toNat).toNat : Int) else 0

def opAddmod (x y z : Int) : Int := if z > 0 then U256 ((x + y) % z) else 0

def opMulmod (x y z : Int) : Int := if z > 0 then U256 ((x * y) % z) else 0

def opSHL (shift value : Int) : Int :=
  let shift := U256 shift
  let value := U256 value
  if shift ≥ 256 then 0 else U256 (value * 2 ^ shift.toNat)

def opSHR (shift value : Int) : Int :=
  let shift := U256 shift
  let value := U256 value
  if shift ≥ 256 then 0 else U256 (value >>> shift.toNat)

/-- `opSAR`: a shift from `256` on leaves `0` for a positive value and `-1`
otherwise, `0` included. -/
def opSAR (shift value : Int) : Int :=
  let shift := U256 shift
  let value := S256 value
  if shift ≥ 256 then (if value.sign > 0 then U256 0 else U256 (-1))
  else U256 (value >>> shift.toNat)

/-- The arithmetic, comparison and bitwise operations. -/
inductive ArithOp where
  | ADD | SUB | MUL | DIV | SDIV | MOD | SMOD | ADDMOD | MULMOD | EXP | SIGNEXTEND
  | LT | GT | SLT | SGT | EQ | ISZERO | AND | OR | XOR | NOT | BYTE | SHL | SHR | SAR
  deriving DecidableEq, Repr

/-- An operation on the stack, top first: its operands are popped and its
result pushed. -/
def ArithOp.execute : ArithOp → List Int → Option (List Int)
  | .ADD, x :: y :: s => some (opAdd x y :: s)
  | .SUB, x :: y :: s => some (opSub x y :: s)
  | .MUL, x :: y :: s => some (opMul x y :: s)
  | .DIV, x :: y :: s => some (opDiv x y :: s)
  | .SDIV, x :: y :: s => some (opSdiv x y :: s)
  | .MOD, x :: y :: s => some (opMod x y :: s)
  | .SMOD, x :: y :: s => some (opSmod x y :: s)
  | .ADDMOD, x :: y :: z :: s => some (opAddmod x y z :: s)
  | .MULMOD, x :: y :: z :: s => some (opMulmod x y z :: s)
  | .EXP, x :: y :: s => some (opExp x y :: s)
  | .SIGNEXTEND, x :: y :: s => some (opSignExtend x y :: s)
  | .LT, x :: y :: s => some (opLt x y :: s)
  | .GT, x :: y :: s => some (opGt x y :: s)
  | .SLT, x :: y :: s => some (opSlt x y :: s)
  | .SGT, x :: y :: s => some (opSgt x y :: s)
  | .EQ, x :: y :: s => some (opEq x y :: s)
  | .ISZERO, x :: s => some (opIszero x :: s)
  | .AND, x :: y :: s => some (opAnd x y :: s)
  | .OR, x :: y :: s => some (opOr x y :: s)
  | .XOR, x :: y :: s => some (opXor x y :: s)
  | .NOT, x :: s => some (opNot x :: s)
  | .BYTE, x :: y :: s => some (opByte x y :: s)
  | .SHL, x :: y :: s => some (opSHL x y :: s)
  | .SHR, x :: y :: s => some (opSHR x y :: s)
  | .SAR, x :: y :: s => some (opSAR x y :: s)
  | _, _ => none

end Lemochain.Vm
