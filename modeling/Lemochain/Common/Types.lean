import Mathlib.Algebra.Order.Group.Nat
import Mathlib.Algebra.Order.Sub.Basic

/-!
# Byte strings and fixed-size hashes

The `common` package of the source represents byte strings as `[]byte` and
hashes as the array type `common.Hash = [32]byte`. Here a byte string is a
list of `UInt8`, and a `Hash` is a byte string that carries its length as a
field, so that a hash of any other size cannot be built; an `Address`
(`common.Address = [20]byte`) likewise.

`BytesToHash` keeps the last 32 bytes of a longer input and left-pads a
shorter one with zeros, exactly as `Hash.SetBytes` does.
-/

namespace Lemochain

/-- A byte string (`[]byte`). -/
abbrev Bytes := List UInt8

/-- `common.HashLength`. -/
def HashLength : Nat := 32

/-- `common.Hash`: exactly `HashLength` bytes. -/
structure Hash where
  bytes : Bytes
  length_eq : bytes.length = HashLength
  deriving DecidableEq

namespace Hash

/-- The all-zero hash `common.Hash{}`. -/
def zero : Hash := ⟨List.replicate HashLength 0, by simp [HashLength]⟩

instance : Inhabited Hash := ⟨zero⟩

/-- Two hashes with the same bytes are equal. -/
theorem ext {h₁ h₂ : Hash} (h : h₁.bytes = h₂.bytes) : h₁ = h₂ := by
  cases h₁
  cases h₂
  simp only at h
  subst h
  rfl

end Hash

/-- `common.BytesToHash`: keep the last `HashLength` bytes of a longer input,
left-pad a shorter one with zeros. -/
def BytesToHash (b : Bytes) : Hash :=
  ⟨List.replicate (HashLength - b.length) 0 ++ b.drop (b.length - HashLength), by
    simp only [List.length_append, List.length_replicate, List.length_drop]
    omega⟩

/-- The built-in `copy(h[:], src)` on a hash: the first bytes replaced by
those of `src`, as many as both have. -/
def Hash.copy (dst : Hash) (src : Bytes) : Hash :=
  ⟨src.take HashLength ++ dst.bytes.drop (src.take HashLength).length, by
    have := dst.length_eq
    simp only [List.length_append, List.length_take, List.length_drop]
    omega⟩

/-- Copying a whole hash's worth of bytes gives the hash of those bytes. -/
theorem Hash.copy_of_length (dst : Hash) {src : Bytes} (h : src.length = HashLength) :
    dst.copy src = BytesToHash src := by
  apply Hash.ext
  have := dst.length_eq
  simp only [Hash.copy, BytesToHash, h, Nat.sub_self, List.replicate_zero, List.drop_zero,
    List.nil_append]
  rw [List.take_of_length_le (by omega), List.drop_of_length_le (by omega), List.append_nil]

/-- A hash read back from its own bytes is itself. -/
@[simp] theorem BytesToHash_bytes (h : Hash) : BytesToHash h.bytes = h := by
  apply Hash.ext
  simp [BytesToHash, h.length_eq]

/-- `common.AddressLength`. -/
def AddressLength : Nat := 20

/-- `common.Address`: exactly `AddressLength` bytes. -/
structure Address where
  bytes : Bytes
  length_eq : bytes.length = AddressLength
  deriving DecidableEq

end Lemochain
