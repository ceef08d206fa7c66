import Mathlib.Algebra.Group.Nat.Defs

/-!
# Keccak-256

The permutation Keccak-f[1600] on a state of twenty-five 64-bit lanes, lane
`x + 5 y` at column `x` and row `y`, and the sponge over it with a rate of
136 bytes and the original Keccak padding `0x01 0x00 … 0x80`: the hash
that Ethereum calls Keccak-256 (before the domain byte of SHA-3). Bytes
enter and leave the lanes little endian. This module names nothing of any
program.

The definitions are written to be evaluated: the digest of a concrete input
is computed by `decide +kernel`.

## Main results

* `length_keccak256`: the digest has 32 bytes.
-/

namespace Lemochain.Keccak

/-- The round constants of the iota step. -/
def roundConstants : List UInt64 :=
  [0x0000000000000001, 0x0000000000008082, 0x800000000000808A, 0x8000000080008000,
   0x000000000000808B, 0x0000000080000001, 0x8000000080008081, 0x8000000000008009,
   0x000000000000008A, 0x0000000000000088, 0x0000000080008009, 0x000000008000000A,
   0x000000008000808B, 0x800000000000008B, 0x8000000000008089, 0x8000000000008003,
   0x8000000000008002, 0x8000000000000080, 0x000000000000800A, 0x800000008000000A,
   0x8000000080008081, 0x8000000000008080, 0x0000000080000001, 0x8000000080008008]

/-- The rotation offsets of the rho step, lane `x + 5 y`. -/
def rotationOffsets : List UInt64 :=
  [0, 1, 62, 28, 27, 36, 44, 6, 55, 20, 3, 10, 43, 25, 39, 41, 45, 15, 21, 8, 18, 2, 61, 56, 14]

/-- A lane rotated left by `n < 64` places. -/
def rotl (x n : UInt64) : UInt64 := (x <<< n) ||| (x >>> (64 - n))

/-- The lane at column `x` and row `y`, both taken modulo five. -/
def lane (a : List UInt64) (x y : Nat) : UInt64 := a.getD (x % 5 + 5 * (y % 5)) 0

/-- The state built lane by lane from a function of the column and the row. -/
def ofLanes (f : Nat → Nat → UInt64) : List UInt64 := (List.range 25).map fun i => f (i % 5) (i / 5)

@[simp] theorem length_ofLanes (f : Nat → Nat → UInt64) : (ofLanes f).length = 25 := by
  simp [ofLanes]

/-- theta: each lane takes the parity of two neighbouring columns. -/
def theta (a : List UInt64) : List UInt64 :=
  let c := fun x => lane a x 0 ^^^ lane a x 1 ^^^ lane a x 2 ^^^ lane a x 3 ^^^ lane a x 4
  let c := (List.range 5).map c
  ofLanes fun x y => lane a x y ^^^ (c.getD ((x + 4) % 5) 0 ^^^ rotl (c.getD ((x + 1) % 5) 0) 1)

/-- rho and pi: lane `(x, y)` rotated by its offset moves to `(y, 2 x + 3 y)`;
read backwards, lane `(X, Y)` comes from `(X + 3 Y, X)`. -/
def rhoPi (a : List UInt64) : List UInt64 :=
  ofLanes fun x y =>
    let x' := (x + 3 * y) % 5
    rotl (lane a x' x) (rotationOffsets.getD (x' + 5 * x) 0)

/-- chi: the non-linear step along each row. -/
def chi (a : List UInt64) : List UInt64 :=
  ofLanes fun x y => lane a x y ^^^ (~~~(lane a (x + 1) y) &&& lane a (x + 2) y)

/-- One round, with its round constant. -/
def round (a : List UInt64) (rc : UInt64) : List UInt64 :=
  (chi (rhoPi (theta a))).modify 0 (· ^^^ rc)

/-- Keccak-f[1600]: the twenty-four rounds. -/
def keccakF (a : List UInt64) : List UInt64 := roundConstants.foldl round a

/-- A lane from eight bytes, little endian. -/
def toLane (b : List UInt8) : UInt64 := b.foldr (fun x acc => (acc <<< 8) ||| x.toUInt64) 0

/-- The eight bytes of a lane, little endian. -/
def fromLane (w : UInt64) : List UInt8 := (List.range 8).map fun i => (w >>> (8 * i).toUInt64).toUInt8

/-- The rate of Keccak-256, in bytes. -/
def rate : Nat := 136

/-- The padding `0x01 0x00 … 0x80` up to a multiple of the rate; a single
byte of padding is `0x81`. -/
def pad (m : List UInt8) : List UInt8 :=
  let k := rate - m.length % rate
  if k = 1 then m ++ [0x81] else m ++ [0x01] ++ List.replicate (k - 2) 0 ++ [0x80]

/-- One block xored into the first seventeen lanes, then the permutation. -/
def absorb (a : List UInt64) (block : List UInt8) : List UInt64 :=
  keccakF ((List.range 25).map fun i =>
    a.getD i 0 ^^^ if i < rate / 8 then toLane ((block.drop (8 * i)).take 8) else 0)

/-- The absorbing phase over `n` blocks of the padded input. -/
def absorbBlocks : Nat → List UInt64 → List UInt8 → List UInt64
  | 0, a, _ => a
  | n + 1, a, p => absorbBlocks n (absorb a (p.take rate)) (p.drop rate)

/-- Keccak-256: the first four lanes of the state after absorbing. -/
def keccak256 (m : List UInt8) : List UInt8 :=
  let p := pad m
  ((absorbBlocks (p.length / rate) (List.replicate 25 0) p).take 4).flatMap fromLane

example : keccak256 [] =
    [0xc5, 0xd2, 0x46, 0x01, 0x86, 0xf7, 0x23, 0x3c, 0x92, 0x7e, 0x7d, 0xb2, 0xdc, 0xc7, 0x03, 0xc0,
     0xe5, 0x00, 0xb6, 0x53, 0xca, 0x82, 0x27, 0x3b, 0x7b, 0xfa, 0xd8, 0x04, 0x5d, 0x85, 0xa4, 0x70] := by
  decide +kernel

/-! ## The length of the digest -/

theorem length_round (a : List UInt64) (rc : UInt64) : (round a rc).length = 25 := by
  rw [round, List.length_modify, chi, length_ofLanes]

/-- Every round keeps the twenty-five lanes. -/
theorem length_keccakF {a : List UInt64} (h : a.length = 25) : (keccakF a).length = 25 := by
  unfold keccakF
  induction roundConstants generalizing a with
  | nil => exact h
  | cons rc rcs ih => exact ih (length_round a rc)

theorem length_absorb (a : List UInt64) (block : List UInt8) : (absorb a block).length = 25 :=
  length_keccakF (by simp)

theorem length_absorbBlocks (n : Nat) {a : List UInt64} (h : a.length = 25) (p : List UInt8) :
    (absorbBlocks n a p).length = 25 := by
  induction n generalizing a p with
  | zero => exact h
  | succ n ih => exact ih (length_absorb a _) _

@[simp] theorem length_fromLane (w : UInt64) : (fromLane w).length = 8 := by
  simp [fromLane]

/-- The digest has 32 bytes.

Four lanes of eight bytes. -/
theorem length_keccak256 (m : List UInt8) : (keccak256 m).length = 32 := by
  have h := length_absorbBlocks ((pad m).length / rate) (a := List.replicate 25 0) (by simp) (pad m)
  rw [keccak256, List.length_flatMap]
  generalize absorbBlocks ((pad m).length / rate) (List.replicate 25 0) (pad m) = a at h
  match a, h with
  | w₀ :: w₁ :: w₂ :: w₃ :: _, _ => simp

end Lemochain.Keccak
