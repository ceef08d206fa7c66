import Mathlib.Data.LawfulXor.Basic
import Mathlib.Data.UInt

/-!
# Stream ciphers as a keystream

A stream cipher in counter mode, once its key and initial counter are
fixed, XORs what it is given with one fixed sequence of bytes, its
keystream; all its state says is how many bytes of the keystream it has
used. `xorKeyStream ks n b` is `b` XORed with the keystream `ks` from byte
`n` on, the result of `XORKeyStream` on a stream that has used `n` bytes.

## Main results

* `xorKeyStream_xorKeyStream`: a second stream at the same position undoes
  the first, which is how the two ends of a connection that share a key
  read what the other wrote.
-/

namespace Lemochain.Keystream

/-- `b` XORed with the keystream `ks` from byte `n` on. -/
def xorKeyStream (ks : Nat → UInt8) : Nat → List UInt8 → List UInt8
  | _, [] => []
  | n, x :: xs => (x ^^^ ks n) :: xorKeyStream ks (n + 1) xs

variable (ks : Nat → UInt8)

@[simp] theorem xorKeyStream_nil (n : Nat) : xorKeyStream ks n [] = [] := rfl

@[simp] theorem xorKeyStream_length (n : Nat) (b : List UInt8) :
    (xorKeyStream ks n b).length = b.length := by
  induction b generalizing n with
  | nil => rfl
  | cons x xs ih => simp [xorKeyStream, ih]

@[simp] theorem xorKeyStream_xorKeyStream (n : Nat) (b : List UInt8) :
    xorKeyStream ks n (xorKeyStream ks n b) = b := by
  induction b generalizing n with
  | nil => rfl
  | cons x xs ih => simp [xorKeyStream, ih]

end Lemochain.Keystream
