import Lemochain.Vm.Instructions

/-!
# The instructions against the Yellow Paper (`core/vm/instructions.go`)

`YellowPaper` states the operations on 256-bit words, the natural numbers
below `2 ^ 256`, as the Yellow Paper and EIP-145 define them: unsigned
arithmetic modulo `2 ^ 256`; signed arithmetic on the two's complement
value `toSigned 256`, with truncated division and remainder; `0` for a
division or a remainder by zero; shifts as products and floors of
quotients by powers of two. `ArithOp.spec` is their effect on a stack of
words.

On the integers of words, each `opX` computes the integer of the word that
its specification gives (`opAdd_natCast` to `opSHR_natCast`), and
`ArithOp.execute_eq_spec` puts them together on the stack. `SAR` is the
exception: for a shift from `256` on, the code tests `value.Sign() > 0`,
so the value `0` gives `-1`, the word `2 ^ 256 - 1`, where EIP-145 gives
`0` (`opSAR_natCast`, `execute_SAR_zero`).

## Main results

* `ArithOp.execute_eq_spec`: every operation but `SAR` meets its
  specification on every stack of words.
* `opSAR_natCast`: `SAR` meets it unless the shift is at least `256` and
  the value is `0`.
* `ArithOp.execute_words`: every value pushed on a stack of words is a
  word.
-/

namespace Lemochain.Vm

open Lemochain.Math Lemochain.TwosComplement

/-! ## The specification -/

namespace YellowPaper

/-- `1` for a comparison that holds, `0` otherwise. -/
def bit (p : Prop) [Decidable p] : Nat := if p then 1 else 0

def add (x y : Nat) : Nat := (x + y) % 2 ^ 256

def sub (x y : Nat) : Nat := ofInt 256 ((x : Int) - y)

def mul (x y : Nat) : Nat := x * y % 2 ^ 256

def div (x y : Nat) : Nat := if y = 0 then 0 else x / y

/-- `SDIV`: truncated division of the signed values. -/
def sdiv (x y : Nat) : Nat := if y = 0 then 0 else ofInt 256 ((toSigned 256 x).tdiv (toSigned 256 y))

def mod (x y : Nat) : Nat := if y = 0 then 0 else x % y

/-- `SMOD`: the truncated remainder, with the sign of the dividend. -/
def smod (x y : Nat) : Nat := if y = 0 then 0 else ofInt 256 ((toSigned 256 x).tmod (toSigned 256 y))

def addmod (x y z : Nat) : Nat := if z = 0 then 0 else (x + y) % z

def mulmod (x y z : Nat) : Nat := if z = 0 then 0 else x * y % z

def exp (x y : Nat) : Nat := x ^ y % 2 ^ 256

/-- `SIGNEXTEND`: the low `b + 1` bytes of `x` read as a signed number. -/
def signextend (b x : Nat) : Nat :=
  if b < 31 then ofInt 256 (toSigned (8 * b + 8) (x % 2 ^ (8 * b + 8))) else x

def lt (x y : Nat) : Nat := bit (x < y)

def gt (x y : Nat) : Nat := bit (x > y)

def slt (x y : Nat) : Nat := bit (toSigned 256 x < toSigned 256 y)

def sgt (x y : Nat) : Nat := bit (toSigned 256 x > toSigned 256 y)

def eq (x y : Nat) : Nat := bit (x = y)

def iszero (x : Nat) : Nat := bit (x = 0)

def and (x y : Nat) : Nat := x &&& y

def or (x y : Nat) : Nat := x ||| y

def xor (x y : Nat) : Nat := x ^^^ y

def not (x : Nat) : Nat := 2 ^ 256 - 1 - x

/-- `BYTE`: byte `i` of `x`, `0` the most significant. -/
def byte (i x : Nat) : Nat := if i < 32 then x / 2 ^ (8 * (31 - i)) % 256 else 0

def shl (s v : Nat) : Nat := v * 2 ^ s % 2 ^ 256

def shr (s v : Nat) : Nat := v / 2 ^ s

/-- `SAR`: the floor of the signed value over `2 ^ s`. -/
def sar (s v : Nat) : Nat := ofInt 256 (toSigned 256 v / 2 ^ s)

/-- The minimum integer over `-1` is itself. -/
example : sdiv (2 ^ 255) (2 ^ 256 - 1) = 2 ^ 255 := by decide

/-! ### Shifts past the width -/

theorem shl_of_le {s : Nat} (v : Nat) (h : 256 ≤ s) : shl s v = 0 :=
  Nat.mod_eq_zero_of_dvd (Nat.dvd_mul_left_of_dvd (Nat.pow_dvd_pow 2 h) v)

theorem shr_of_le {s v : Nat} (h : 256 ≤ s) (hv : v < 2 ^ 256) : shr s v = 0 :=
  Nat.div_eq_of_lt (Nat.lt_of_lt_of_le hv (Nat.pow_le_pow_right (by decide) h))

/-- From `256` on, `SAR` leaves all ones for a negative value and `0` for
the others, `0` included. -/
theorem sar_of_le {s v : Nat} (h : 256 ≤ s) (hv : v < 2 ^ 256) :
    sar s v = if toSigned 256 v < 0 then 2 ^ 256 - 1 else 0 := by
  unfold sar
  rw [toSigned_ediv_two_pow_of_le hv h]
  split
  · exact ofInt_neg_one 256
  · rfl

/-! ### Every result is a word -/

theorem bit_lt (p : Prop) [Decidable p] : bit p < 2 ^ 256 := by
  unfold bit
  split <;> omega

theorem sdiv_lt (x y : Nat) : sdiv x y < 2 ^ 256 := by
  unfold sdiv
  split
  · exact Nat.two_pow_pos 256
  · exact ofInt_lt 256 _

theorem smod_lt (x y : Nat) : smod x y < 2 ^ 256 := by
  unfold smod
  split
  · exact Nat.two_pow_pos 256
  · exact ofInt_lt 256 _

theorem div_lt {x : Nat} (y : Nat) (hx : x < 2 ^ 256) : YellowPaper.div x y < 2 ^ 256 := by
  unfold YellowPaper.div
  split
  · exact Nat.two_pow_pos 256
  · exact Nat.lt_of_le_of_lt (Nat.div_le_self x y) hx

theorem mod_lt {x : Nat} (y : Nat) (hx : x < 2 ^ 256) : YellowPaper.mod x y < 2 ^ 256 := by
  unfold YellowPaper.mod
  split
  · exact Nat.two_pow_pos 256
  · exact Nat.lt_of_le_of_lt (Nat.mod_le x y) hx

/-- A remainder by a word is a word; shared by `ADDMOD` and `MULMOD`. -/
theorem mod_word_lt (a : Nat) {z : Nat} (hz : z < 2 ^ 256) : (if z = 0 then 0 else a % z) < 2 ^ 256 := by
  split
  · exact Nat.two_pow_pos 256
  · exact Nat.lt_trans (Nat.mod_lt a (by omega)) hz

theorem signextend_lt (b : Nat) {x : Nat} (hx : x < 2 ^ 256) : signextend b x < 2 ^ 256 := by
  unfold signextend
  split
  · exact ofInt_lt 256 _
  · exact hx

theorem byte_lt (i x : Nat) : byte i x < 2 ^ 256 := by
  unfold byte
  split
  · exact Nat.lt_trans (Nat.mod_lt _ (by decide)) (by decide)
  · exact Nat.two_pow_pos 256

theorem shr_lt (s : Nat) {v : Nat} (hv : v < 2 ^ 256) : shr s v < 2 ^ 256 :=
  Nat.lt_of_le_of_lt (Nat.div_le_self v _) hv

theorem not_lt (x : Nat) : YellowPaper.not x < 2 ^ 256 := by
  unfold YellowPaper.not
  omega

end YellowPaper

/-! ## The operations on words -/

theorem natCast_bit (p : Prop) [Decidable p] : ((YellowPaper.bit p : Nat) : Int) = if p then 1 else 0 := by
  unfold YellowPaper.bit
  split <;> rfl

theorem opAdd_natCast (x y : Nat) : opAdd x y = (YellowPaper.add x y : Nat) := by
  rw [opAdd, ← Nat.cast_add, U256_natCast]
  rfl

theorem opSub_natCast (x y : Nat) : opSub x y = (YellowPaper.sub x y : Nat) := by
  rw [opSub, U256_eq_ofInt]
  rfl

theorem opMul_natCast (x y : Nat) : opMul x y = (YellowPaper.mul x y : Nat) := by
  rw [opMul, ← Nat.cast_mul, U256_natCast]
  rfl

theorem opDiv_natCast {x : Nat} (y : Nat) (hx : x < 2 ^ 256) : opDiv x y = (YellowPaper.div x y : Nat) := by
  unfold opDiv YellowPaper.div
  by_cases hy : y = 0
  · subst hy
    rw [if_neg (by simp), if_pos rfl]
    rfl
  · rw [if_pos (by rw [Int.sign_natCast_of_ne_zero hy]; decide), if_neg hy, ← Int.natCast_div,
      U256_natCast_of_lt (Nat.lt_of_le_of_lt (Nat.div_le_self x y) hx)]

theorem opMod_natCast {x : Nat} (y : Nat) (hx : x < 2 ^ 256) : opMod x y = (YellowPaper.mod x y : Nat) := by
  unfold opMod YellowPaper.mod
  by_cases hy : y = 0
  · subst hy
    rw [if_pos (by simp), if_pos rfl]
    rfl
  · rw [if_neg (by rw [Int.sign_natCast_of_ne_zero hy]; decide), if_neg hy, ← Int.natCast_emod,
      U256_natCast_of_lt (Nat.lt_of_le_of_lt (Nat.mod_le x y) hx)]

/-- `opSdiv` divides the absolute values: that is the truncated division of
`Int.tdiv`, `-2 ^ 255 / -1` included, whose quotient `2 ^ 255` is the word
of `-2 ^ 255`.

Both operands are non-zero: the quotient of the absolute values. -/
theorem opSdiv_natCast {x y : Nat} (hx : x < 2 ^ 256) (hy : y < 2 ^ 256) :
    opSdiv x y = (YellowPaper.sdiv x y : Nat) := by
  unfold opSdiv YellowPaper.sdiv
  rw [S256_natCast, S256_natCast]
  dsimp only
  by_cases hy0 : y = 0
  · subst hy0
    rw [if_pos (Or.inl (by rw [toSigned_zero]; rfl)), if_pos rfl]
    rfl
  by_cases hx0 : x = 0
  · subst hx0
    rw [if_pos (Or.inr (by rw [toSigned_zero]; rfl)), if_neg hy0, toSigned_zero, Int.zero_tdiv]
    rfl
  have ha : toSigned 256 x ≠ 0 := (toSigned_eq_zero_iff hx).not.mpr hx0
  have hb : toSigned 256 y ≠ 0 := (toSigned_eq_zero_iff hy).not.mpr hy0
  rw [if_neg (by rw [Int.sign_eq_zero_iff_zero, Int.sign_eq_zero_iff_zero]; exact not_or.mpr ⟨hb, ha⟩),
    if_neg hy0, tdiv_eq_natAbs ha hb]
  by_cases hs : (toSigned 256 x).sign = (toSigned 256 y).sign
  · rw [if_neg (not_not.mpr hs), if_pos hs, U256_eq_ofInt]
  · rw [if_pos hs, if_neg hs, U256_eq_ofInt]

/-- The remainder takes the sign of the dividend. -/
theorem opSmod_natCast (x : Nat) {y : Nat} (hy : y < 2 ^ 256) : opSmod x y = (YellowPaper.smod x y : Nat) := by
  unfold opSmod YellowPaper.smod
  rw [S256_natCast, S256_natCast]
  dsimp only
  by_cases hy0 : y = 0
  · subst hy0
    rw [if_pos (by rw [toSigned_zero]; rfl), if_pos rfl]
    rfl
  have hb : toSigned 256 y ≠ 0 := (toSigned_eq_zero_iff hy).not.mpr hy0
  rw [if_neg (by rwa [Int.sign_eq_zero_iff_zero]), if_neg hy0, tmod_eq_natAbs]
  by_cases ha : toSigned 256 x < 0
  · rw [if_pos (Int.sign_neg_iff.mpr ha), if_pos ha, U256_eq_ofInt]
  · rw [if_neg (fun h => ha (Int.sign_neg_iff.mp h)), if_neg ha, U256_eq_ofInt]

/-- A remainder by a word, as `opAddmod` and `opMulmod` take it. -/
theorem U256_mod_natCast (a : Nat) {z : Nat} (hz : z < 2 ^ 256) :
    (if (z : Int) > 0 then U256 ((a : Int) % z) else 0) = ((if z = 0 then 0 else a % z : Nat) : Int) := by
  by_cases hz0 : z = 0
  · subst hz0
    rw [if_neg (by omega), if_pos rfl]
    rfl
  · rw [if_pos (by omega), if_neg hz0, ← Int.natCast_emod,
      U256_natCast_of_lt (Nat.lt_trans (Nat.mod_lt a (by omega)) hz)]

theorem opAddmod_natCast (x y : Nat) {z : Nat} (hz : z < 2 ^ 256) :
    opAddmod x y z = (YellowPaper.addmod x y z : Nat) := by
  rw [opAddmod, ← Nat.cast_add, U256_mod_natCast _ hz]
  rfl

theorem opMulmod_natCast (x y : Nat) {z : Nat} (hz : z < 2 ^ 256) :
    opMulmod x y z = (YellowPaper.mulmod x y z : Nat) := by
  rw [opMulmod, ← Nat.cast_mul, U256_mod_natCast _ hz]
  rfl

theorem opExp_natCast (x y : Nat) : opExp x y = (YellowPaper.exp x y : Nat) :=
  Exp_natCast x y

/-- Below byte `31`, `opSignExtend` sets the bits above bit `8 b + 7` when
that bit is set, and clears them otherwise: the low bytes read as a signed
number.

`Bit` of a non-negative number is its bit. -/
theorem opSignExtend_natCast (b x : Nat) : opSignExtend b x = (YellowPaper.signextend b x : Nat) := by
  unfold opSignExtend YellowPaper.signextend
  by_cases hb : b < 31
  · rw [if_pos (by exact_mod_cast hb), if_pos hb]
    dsimp only
    rw [Int.toNat_natCast, show 8 * b + 8 = b * 8 + 7 + 1 by omega, toSigned_mod_two_pow_succ]
    change (if x.testBit (b * 8 + 7) = true then _ else _) = _
    split
    · rw [lor_lnot_two_pow_sub_one, U256_eq_ofInt]
    · rw [land_two_pow_sub_one, U256_eq_ofInt, ← natCast_two_pow, ← Int.natCast_emod]
  · rw [if_neg (by exact_mod_cast hb), if_neg hb]

theorem opNot_natCast {x : Nat} (hx : x < 2 ^ 256) : opNot x = (YellowPaper.not x : Nat) := by
  rw [opNot, U256_eq_ofInt, ofInt_lnot hx]
  rfl

theorem opLt_natCast (x y : Nat) : opLt x y = (YellowPaper.lt x y : Nat) := by
  rw [opLt, YellowPaper.lt, natCast_bit]
  exact if_congr Int.ofNat_lt rfl rfl

theorem opGt_natCast (x y : Nat) : opGt x y = (YellowPaper.gt x y : Nat) := by
  rw [opGt, YellowPaper.gt, natCast_bit]
  exact if_congr Int.ofNat_lt rfl rfl

theorem opEq_natCast (x y : Nat) : opEq x y = (YellowPaper.eq x y : Nat) := by
  rw [opEq, YellowPaper.eq, natCast_bit]
  exact if_congr Int.natCast_inj rfl rfl

/-- The code compares with `tt255` first: a word from `2 ^ 255` on is
negative and below every other. -/
theorem opSlt_natCast {x y : Nat} (hx : x < 2 ^ 256) (hy : y < 2 ^ 256) :
    opSlt x y = (YellowPaper.slt x y : Nat) := by
  rw [opSlt, YellowPaper.slt, natCast_bit]
  unfold tt255 toSigned
  rw [show 256 - 1 = 255 from rfl]
  split_ifs <;> omega

theorem opSgt_natCast {x y : Nat} (hx : x < 2 ^ 256) (hy : y < 2 ^ 256) :
    opSgt x y = (YellowPaper.sgt x y : Nat) := by
  rw [opSgt, YellowPaper.sgt, natCast_bit]
  unfold tt255 toSigned
  rw [show 256 - 1 = 255 from rfl]
  split_ifs <;> omega

theorem opIszero_natCast (x : Nat) : opIszero x = (YellowPaper.iszero x : Nat) := by
  rw [opIszero, YellowPaper.iszero, natCast_bit]
  by_cases hx0 : x = 0
  · subst hx0
    rfl
  · rw [Int.sign_natCast_of_ne_zero hx0, if_pos (by decide), if_neg hx0]

theorem opAnd_natCast (x y : Nat) : opAnd x y = (YellowPaper.and x y : Nat) := rfl

theorem opOr_natCast (x y : Nat) : opOr x y = (YellowPaper.or x y : Nat) := rfl

theorem opXor_natCast (x y : Nat) : opXor x y = (YellowPaper.xor x y : Nat) := rfl

theorem opByte_natCast (i x : Nat) : opByte i x = (YellowPaper.byte i x : Nat) := by
  unfold opByte YellowPaper.byte
  by_cases hi : i < 32
  · rw [if_pos (by exact_mod_cast hi), if_pos hi, Int.toNat_natCast, Byte_natCast x hi]
  · rw [if_neg (by exact_mod_cast hi), if_neg hi]
    rfl

theorem opSHL_natCast {s v : Nat} (hs : s < 2 ^ 256) (hv : v < 2 ^ 256) :
    opSHL s v = (YellowPaper.shl s v : Nat) := by
  unfold opSHL
  rw [U256_natCast_of_lt hs, U256_natCast_of_lt hv]
  dsimp only
  by_cases h : 256 ≤ s
  · rw [if_pos (by exact_mod_cast h), YellowPaper.shl_of_le v h]
    rfl
  · rw [if_neg (by exact_mod_cast h), Int.toNat_natCast, ← natCast_two_pow, ← Nat.cast_mul, U256_natCast]
    rfl

theorem opSHR_natCast {s v : Nat} (hs : s < 2 ^ 256) (hv : v < 2 ^ 256) :
    opSHR s v = (YellowPaper.shr s v : Nat) := by
  unfold opSHR
  rw [U256_natCast_of_lt hs, U256_natCast_of_lt hv]
  dsimp only
  by_cases h : 256 ≤ s
  · rw [if_pos (by exact_mod_cast h), YellowPaper.shr_of_le h hv]
    rfl
  · have hq : v / 2 ^ s < 2 ^ 256 := YellowPaper.shr_lt s hv
    rw [if_neg (by exact_mod_cast h), Int.toNat_natCast,
      show (v : Int) >>> s = ((v >>> s : Nat) : Int) from rfl, Nat.shiftRight_eq_div_pow, U256_natCast_of_lt hq]
    rfl

/-- `opSAR` meets EIP-145 except for a shift from `256` on of the value
`0`, which the code sends to all ones.

`Sign()` of `0` is not positive. -/
theorem opSAR_natCast {s v : Nat} (hs : s < 2 ^ 256) (hv : v < 2 ^ 256) :
    opSAR s v = ((if 256 ≤ s ∧ v = 0 then 2 ^ 256 - 1 else YellowPaper.sar s v : Nat) : Int) := by
  unfold opSAR
  rw [U256_natCast_of_lt hs, S256_natCast]
  dsimp only
  by_cases h : 256 ≤ s
  · rw [if_pos (by exact_mod_cast h : (s : Int) ≥ 256), YellowPaper.sar_of_le h hv]
    by_cases hv0 : v = 0
    · subst hv0
      rw [toSigned_zero, if_neg (show ¬ (0 : Int).sign > 0 by decide),
        if_pos (show 256 ≤ s ∧ 0 = 0 from ⟨h, rfl⟩), U256_eq_ofInt, ofInt_neg_one]
    · have hne : toSigned 256 v ≠ 0 := (toSigned_eq_zero_iff hv).not.mpr hv0
      rw [if_neg (show ¬ (256 ≤ s ∧ v = 0) from fun h' => hv0 h'.2)]
      by_cases hneg : toSigned 256 v < 0
      · rw [if_neg (show ¬ (toSigned 256 v).sign > 0 from fun h' => absurd (Int.sign_pos_iff.mp h') (by omega)),
          if_pos hneg, U256_eq_ofInt, ofInt_neg_one]
      · rw [if_pos (show (toSigned 256 v).sign > 0 from Int.sign_pos_iff.mpr (by omega)), if_neg hneg,
          U256_eq_ofInt]
        rfl
  · rw [if_neg (by exact_mod_cast h : ¬ (s : Int) ≥ 256), if_neg (show ¬ (256 ≤ s ∧ v = 0) from fun h' => h h'.1),
      Int.toNat_natCast, Int.shiftRight_eq_div_pow,
      natCast_two_pow, U256_eq_ofInt]
    rfl

/-! ## The stack -/

/-- The effect of an operation on a stack of words, as specified. -/
def ArithOp.spec : ArithOp → List Nat → Option (List Nat)
  | .ADD, x :: y :: s => some (YellowPaper.add x y :: s)
  | .SUB, x :: y :: s => some (YellowPaper.sub x y :: s)
  | .MUL, x :: y :: s => some (YellowPaper.mul x y :: s)
  | .DIV, x :: y :: s => some (YellowPaper.div x y :: s)
  | .SDIV, x :: y :: s => some (YellowPaper.sdiv x y :: s)
  | .MOD, x :: y :: s => some (YellowPaper.mod x y :: s)
  | .SMOD, x :: y :: s => some (YellowPaper.smod x y :: s)
  | .ADDMOD, x :: y :: z :: s => some (YellowPaper.addmod x y z :: s)
  | .MULMOD, x :: y :: z :: s => some (YellowPaper.mulmod x y z :: s)
  | .EXP, x :: y :: s => some (YellowPaper.exp x y :: s)
  | .SIGNEXTEND, x :: y :: s => some (YellowPaper.signextend x y :: s)
  | .LT, x :: y :: s => some (YellowPaper.lt x y :: s)
  | .GT, x :: y :: s => some (YellowPaper.gt x y :: s)
  | .SLT, x :: y :: s => some (YellowPaper.slt x y :: s)
  | .SGT, x :: y :: s => some (YellowPaper.sgt x y :: s)
  | .EQ, x :: y :: s => some (YellowPaper.eq x y :: s)
  | .ISZERO, x :: s => some (YellowPaper.iszero x :: s)
  | .AND, x :: y :: s => some (YellowPaper.and x y :: s)
  | .OR, x :: y :: s => some (YellowPaper.or x y :: s)
  | .XOR, x :: y :: s => some (YellowPaper.xor x y :: s)
  | .NOT, x :: s => some (YellowPaper.not x :: s)
  | .BYTE, x :: y :: s => some (YellowPaper.byte x y :: s)
  | .SHL, x :: y :: s => some (YellowPaper.shl x y :: s)
  | .SHR, x :: y :: s => some (YellowPaper.shr x y :: s)
  | .SAR, x :: y :: s => some (YellowPaper.sar x y :: s)
  | _, _ => none

/-- A stack of words. -/
def Words (s : List Nat) : Prop := ∀ v ∈ s, v < 2 ^ 256

theorem Words.nil : Words [] := fun _ h => absurd h List.not_mem_nil

theorem Words.cons_iff {x : Nat} {s : List Nat} : Words (x :: s) ↔ x < 2 ^ 256 ∧ Words s :=
  List.forall_mem_cons

/-- Every operation but `SAR` meets its specification on every stack of
words. The stack is split by the operands the operations pop.

The two operations with a third operand. -/
theorem ArithOp.execute_eq_spec (op : ArithOp) (hop : op ≠ .SAR) {s : List Nat} (hs : Words s) :
    op.execute (s.map (↑)) = (op.spec s).map (List.map (↑)) := by
  rcases s with _ | ⟨x, _ | ⟨y, s⟩⟩
  · cases op <;> rfl
  · obtain ⟨hx, -⟩ := Words.cons_iff.mp hs
    cases op <;> simp only [List.map_cons, List.map_nil, execute, spec, Option.map_some, Option.map_none,
      opNot_natCast hx, opIszero_natCast]
  · obtain ⟨hx, hs⟩ := Words.cons_iff.mp hs
    obtain ⟨hy, hs⟩ := Words.cons_iff.mp hs
    cases op
    case SAR => exact absurd rfl hop
    case ADDMOD =>
      rcases s with _ | ⟨z, s⟩
      · rfl
      · simp only [List.map_cons, execute, spec, Option.map_some, opAddmod_natCast x y (Words.cons_iff.mp hs).1]
    case MULMOD =>
      rcases s with _ | ⟨z, s⟩
      · rfl
      · simp only [List.map_cons, execute, spec, Option.map_some, opMulmod_natCast x y (Words.cons_iff.mp hs).1]
    all_goals simp only [List.map_cons, execute, spec, Option.map_some, opAdd_natCast, opSub_natCast,
      opMul_natCast, opDiv_natCast y hx, opSdiv_natCast hx hy, opMod_natCast y hx, opSmod_natCast x hy,
      opExp_natCast, opSignExtend_natCast, opLt_natCast, opGt_natCast, opSlt_natCast hx hy,
      opSgt_natCast hx hy, opEq_natCast, opIszero_natCast, opAnd_natCast, opOr_natCast, opXor_natCast,
      opNot_natCast hx, opByte_natCast, opSHL_natCast hx hy, opSHR_natCast hx hy]

/-- On a stack of words, every specified result is a word: one case for
each operation, with the range of its result.

The two operations with one operand, and the two with three. -/
theorem ArithOp.spec_words (op : ArithOp) {s t : List Nat} (hs : Words s) (h : op.spec s = some t) :
    Words t := by
  rcases s with _ | ⟨x, _ | ⟨y, s⟩⟩
  · cases op <;> cases h
  · obtain ⟨hx, -⟩ := Words.cons_iff.mp hs
    cases op <;> cases h
    case ISZERO.refl => exact Words.cons_iff.mpr ⟨YellowPaper.bit_lt _, Words.nil⟩
    case NOT.refl => exact Words.cons_iff.mpr ⟨YellowPaper.not_lt x, Words.nil⟩
  · obtain ⟨hx, hys⟩ := Words.cons_iff.mp hs
    obtain ⟨hy, hs⟩ := Words.cons_iff.mp hys
    cases op
    case ISZERO =>
      cases h
      exact Words.cons_iff.mpr ⟨YellowPaper.bit_lt _, hys⟩
    case NOT =>
      cases h
      exact Words.cons_iff.mpr ⟨YellowPaper.not_lt x, hys⟩
    case ADDMOD =>
      rcases s with _ | ⟨z, s⟩
      · cases h
      · cases h
        obtain ⟨hz, hs⟩ := Words.cons_iff.mp hs
        exact Words.cons_iff.mpr ⟨YellowPaper.mod_word_lt (x + y) hz, hs⟩
    case MULMOD =>
      rcases s with _ | ⟨z, s⟩
      · cases h
      · cases h
        obtain ⟨hz, hs⟩ := Words.cons_iff.mp hs
        exact Words.cons_iff.mpr ⟨YellowPaper.mod_word_lt (x * y) hz, hs⟩
    all_goals
      cases h
      refine Words.cons_iff.mpr ⟨?_, hs⟩
    case ADD.refl => exact Nat.mod_lt _ (Nat.two_pow_pos 256)
    case SUB.refl => exact ofInt_lt 256 _
    case MUL.refl => exact Nat.mod_lt _ (Nat.two_pow_pos 256)
    case DIV.refl => exact YellowPaper.div_lt y hx
    case SDIV.refl => exact YellowPaper.sdiv_lt x y
    case MOD.refl => exact YellowPaper.mod_lt y hx
    case SMOD.refl => exact YellowPaper.smod_lt x y
    case EXP.refl => exact Nat.mod_lt _ (Nat.two_pow_pos 256)
    case SIGNEXTEND.refl => exact YellowPaper.signextend_lt x hy
    case LT.refl => exact YellowPaper.bit_lt _
    case GT.refl => exact YellowPaper.bit_lt _
    case SLT.refl => exact YellowPaper.bit_lt _
    case SGT.refl => exact YellowPaper.bit_lt _
    case EQ.refl => exact YellowPaper.bit_lt _
    case AND.refl => exact Nat.and_lt_two_pow x hy
    case OR.refl => exact Nat.or_lt_two_pow hx hy
    case XOR.refl => exact Nat.xor_lt_two_pow hx hy
    case BYTE.refl => exact YellowPaper.byte_lt x y
    case SHL.refl => exact Nat.mod_lt _ (Nat.two_pow_pos 256)
    case SHR.refl => exact YellowPaper.shr_lt x hy
    case SAR.refl => exact ofInt_lt 256 _

/-- Every value an operation pushes on a stack of words is a word, `SAR`
included.

The words `t` stands for. -/
theorem ArithOp.execute_words (op : ArithOp) {s : List Nat} (hs : Words s) {t : List Int}
    (h : op.execute (s.map (↑)) = some t) : ∀ v ∈ t, 0 ≤ v ∧ v < 2 ^ 256 := by
  obtain ⟨t', ht', rfl⟩ : ∃ t' : List Nat, Words t' ∧ t = t'.map (↑) := by
    by_cases hop : op = .SAR
    · subst hop
      rcases s with _ | ⟨x, _ | ⟨y, s⟩⟩
      · cases h
      · cases h
      · obtain ⟨hx, hs⟩ := Words.cons_iff.mp hs
        obtain ⟨hy, hs⟩ := Words.cons_iff.mp hs
        rw [List.map_cons, List.map_cons, execute, opSAR_natCast hx hy] at h
        cases h
        refine ⟨_ :: s, Words.cons_iff.mpr ⟨?_, hs⟩, rfl⟩
        split
        · exact Nat.sub_lt (Nat.two_pow_pos 256) Nat.one_pos
        · exact ofInt_lt 256 _
    · rw [op.execute_eq_spec hop hs] at h
      obtain ⟨t', ht', rfl⟩ := Option.map_eq_some_iff.mp h
      exact ⟨t', op.spec_words hs ht', rfl⟩
  intro v hv
  obtain ⟨w, hw, rfl⟩ := List.mem_map.mp hv
  exact ⟨Int.natCast_nonneg w, by exact_mod_cast ht' w hw⟩

/-- A shift of the value `0` from `256` on: the code pushes all ones where
EIP-145 pushes `0`. -/
theorem execute_SAR_zero {sh : Nat} (h256 : 256 ≤ sh) (hsh : sh < 2 ^ 256) (s : List Nat) :
    ArithOp.SAR.execute ((sh :: 0 :: s).map (↑)) = some (((2 ^ 256 - 1 : Nat) : Int) :: s.map (↑)) ∧
      ArithOp.SAR.spec (sh :: 0 :: s) = some (0 :: s) := by
  constructor
  · rw [List.map_cons, List.map_cons, ArithOp.execute, opSAR_natCast hsh (Nat.two_pow_pos 256),
      if_pos ⟨h256, rfl⟩]
  · rw [ArithOp.spec, YellowPaper.sar_of_le h256 (Nat.two_pow_pos 256), toSigned_zero,
      if_neg (Int.lt_irrefl 0)]

theorem execute_SAR_zero_256 :
    256 ≤ 256 ∧ 256 < 2 ^ 256 ∧
      (ArithOp.SAR.execute (([256, 0] : List Nat).map (↑)) = some [((2 ^ 256 - 1 : Nat) : Int)] ∧
        ArithOp.SAR.spec [256, 0] = some [0]) :=
  ⟨Nat.le_refl 256, Nat.lt_two_pow_self, execute_SAR_zero (Nat.le_refl 256) Nat.lt_two_pow_self []⟩

end Lemochain.Vm
