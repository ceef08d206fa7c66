import Mathlib.Algebra.Order.Ring.Star
import Mathlib.Data.Nat.Cast.Order.Ring
import Mathlib.Data.Nat.SuccPred
import Lemochain.Common.Types

/-!
# RLP encoding of item trees (`rlp/encode.go`)

The trie encodes its nodes with `rlp.Encode`: a short node as the list of
its compact key and its child, a full node as the list of its seventeen
children, hash and value nodes as byte strings, and the nil interface as the
empty list. `Item` is that tree of byte strings and lists, and `encode` the
bytes the encoder writes for it:

* a byte string of one byte below `0x80` is the byte itself, any other
  string a header (`encodeStringHeader`) followed by the bytes;
* a list is the list header (`puthead 0xC0 0xF7`) of the size of its
  payload followed by the encodings of its items.

A header for a size below 56 is one byte, `tag + size`; a larger size is
written big-endian without leading zeros (`putint`), after a byte
`largetag + intsize size`. The source builds lists in an `encbuf` whose list
headers are inserted when the buffer is flattened; `encode` states the bytes
that come out.

The arithmetic at the end of the module, on `bigEndian` and `intsize`, is
what the decoder in `Raw` needs to read a size back.
-/

namespace Lemochain.Rlp

/-- An RLP item: a byte string or a list of items. -/
inductive Item where
  | str (b : Bytes)
  | list (items : List Item)

/-- The low `n` bytes of `i`, most significant first. -/
def bigEndian : Nat → Nat → Bytes
  | 0, _ => []
  | n + 1, i => bigEndian n (i / 256) ++ [(i % 256).toUInt8]

theorem bigEndian_nil (i : Nat) : bigEndian 0 i = [] := rfl

theorem bigEndian_succ (n i : Nat) : bigEndian (n + 1) i = bigEndian n (i / 256) ++ [(i % 256).toUInt8] := rfl

/-- `intsize`: the number of bytes `i` takes without leading zeros, at least
one. The loop of the source shifts `i` right by a byte until nothing is
left; the fuel `i` bounds it. -/
def intsize (i : Nat) : Nat := go i i
where
  go : Nat → Nat → Nat
    | 0, _ => 1
    | fuel + 1, i => if i >>> 8 = 0 then 1 else go fuel (i >>> 8) + 1

theorem intsize_go_zero (i : Nat) : intsize.go 0 i = 1 := rfl

theorem intsize_go_succ (fuel i : Nat) :
    intsize.go (fuel + 1) i = if i >>> 8 = 0 then 1 else intsize.go fuel (i >>> 8) + 1 := rfl

/-- `putint`: `i` big-endian in `intsize i` bytes. -/
def putint (i : Nat) : Bytes := bigEndian (intsize i) i

/-- `puthead`: the header of a string or list whose content has `size`
bytes. -/
def puthead (smalltag largetag : UInt8) (size : Nat) : Bytes :=
  if size < 56 then [smalltag + size.toUInt8]
  else (largetag + (putint size).length.toUInt8) :: putint size

/-- `encbuf.encodeStringHeader`, the string case of `puthead`. -/
def encodeStringHeader (size : Nat) : Bytes := puthead 0x80 0xB7 size

/-- `encbuf.encodeString`: a single byte below `0x80` stands for itself. -/
def encodeString (b : Bytes) : Bytes :=
  match b with
  | [x] => if x ≤ 0x7F then [x] else encodeStringHeader 1 ++ [x]
  | _ => encodeStringHeader b.length ++ b

mutual

/-- The bytes `rlp.Encode` writes for an item. -/
def encode : Item → Bytes
  | .str b => encodeString b
  | .list items => puthead 0xC0 0xF7 (encodeList items).length ++ encodeList items

/-- The payload of a list: its items' encodings one after the other. -/
def encodeList : List Item → Bytes
  | [] => []
  | it :: its => encode it ++ encodeList its

end

@[simp] theorem encode_str (b : Bytes) : encode (.str b) = encodeString b := rfl

@[simp] theorem encode_list (items : List Item) :
    encode (.list items) = puthead 0xC0 0xF7 (encodeList items).length ++ encodeList items := rfl

@[simp] theorem encodeList_nil : encodeList [] = [] := rfl

@[simp] theorem encodeList_cons (it : Item) (its : List Item) :
    encodeList (it :: its) = encode it ++ encodeList its := rfl

theorem encodeList_append (xs ys : List Item) :
    encodeList (xs ++ ys) = encodeList xs ++ encodeList ys := by
  induction xs with
  | nil => simp
  | cons x xs ih => simp [ih]

/-! ## Big-endian sizes -/

@[simp] theorem bigEndian_length (n i : Nat) : (bigEndian n i).length = n := by
  induction n generalizing i with
  | zero => rfl
  | succ n ih => simp [bigEndian_succ, ih]

theorem intsize_go_pos (fuel i : Nat) : 0 < intsize.go fuel i := by
  cases fuel with
  | zero => simp [intsize_go_zero]
  | succ fuel =>
      simp only [intsize_go_succ]
      split <;> omega

/-- The loop counts the bytes of `i`: `i` fits in them. -/
theorem lt_pow_intsize_go (fuel i : Nat) (h : i ≤ fuel) : i < 256 ^ intsize.go fuel i := by
  induction fuel generalizing i with
  | zero =>
      have : i = 0 := by omega
      subst this
      simp [intsize_go_zero]
  | succ fuel ih =>
      simp only [intsize_go_succ, Nat.shiftRight_eq_div_pow]
      split
      · rename_i h0
        simp only [Nat.pow_one] at h0 ⊢
        omega
      · rename_i h0
        have hdiv : i / 2 ^ 8 ≤ fuel := by omega
        have := ih (i / 2 ^ 8) hdiv
        rw [Nat.pow_succ]
        omega

/-- The loop counts no byte too many: the top one is not zero. -/
theorem pow_intsize_go_le (fuel i : Nat) (h : i ≤ fuel) :
    256 ^ (intsize.go fuel i - 1) ≤ max i 1 := by
  induction fuel generalizing i with
  | zero =>
      simp only [intsize_go_zero, Nat.sub_self, Nat.pow_zero]
      omega
  | succ fuel ih =>
      simp only [intsize_go_succ, Nat.shiftRight_eq_div_pow]
      split
      · simp only [Nat.sub_self, Nat.pow_zero]
        omega
      · rename_i h0
        have hdiv : i / 2 ^ 8 ≤ fuel := by omega
        have := ih (i / 2 ^ 8) hdiv
        have hpos := intsize_go_pos fuel (i / 2 ^ 8)
        rw [Nat.add_sub_cancel, show intsize.go fuel (i / 2 ^ 8) = intsize.go fuel (i / 2 ^ 8) - 1 + 1
          by omega, Nat.pow_succ]
        omega

theorem intsize_pos (i : Nat) : 0 < intsize i := intsize_go_pos i i

theorem lt_pow_intsize (i : Nat) : i < 256 ^ intsize i := lt_pow_intsize_go i i (Nat.le_refl i)

theorem pow_intsize_le (i : Nat) : 256 ^ (intsize i - 1) ≤ max i 1 :=
  pow_intsize_go_le i i (Nat.le_refl i)

/-- A size below `2 ^ 64` takes at most eight bytes. -/
theorem intsize_le_eight {i : Nat} (h : i < 2 ^ 64) : intsize i ≤ 8 := by
  by_contra hgt
  have hpow : (256 : Nat) ^ 8 ≤ 256 ^ (intsize i - 1) := Nat.pow_le_pow_right (by decide) (by omega)
  have hmax : max i 1 < (256 : Nat) ^ 8 := by
    rw [show (256 : Nat) ^ 8 = 2 ^ 64 by decide]
    omega
  exact absurd (Nat.lt_of_lt_of_le hmax (Nat.le_trans hpow (pow_intsize_le i))) (Nat.lt_irrefl _)

@[simp] theorem putint_length (i : Nat) : (putint i).length = intsize i := by
  simp [putint]

theorem intsize_eq_one {n : Nat} (h : n < 256) : intsize n = 1 := by
  have hle := pow_intsize_le n
  have hpos := intsize_pos n
  by_contra hne
  have : (256 : Nat) ^ 1 ≤ 256 ^ (intsize n - 1) := Nat.pow_le_pow_right (by decide) (by omega)
  have : max n 1 < 256 := by omega
  omega

theorem two_le_intsize {n : Nat} (h : 256 ≤ n) : 2 ≤ intsize n := by
  have hlt := lt_pow_intsize n
  have hpos := intsize_pos n
  by_contra hne
  have h1 : intsize n = 1 := by omega
  rw [h1] at hlt
  omega

theorem putint_of_lt {n : Nat} (h : n < 256) : putint n = [n.toUInt8] := by
  simp [putint, intsize_eq_one h, bigEndian_succ, bigEndian_nil, Nat.mod_eq_of_lt h]

end Lemochain.Rlp
