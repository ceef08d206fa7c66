import Mathlib.Data.Nat.Digits.Defs

/-!
# Numerals written most significant digit first

A text of digits in base `b` is read left to right, the value so far times
`b` plus the next digit; `msbValue b l` is that value, `Nat.ofDigits` of the
reversed list. A reader that keeps its value in a machine word of modulus
`M` computes it modulo `M` (`foldl_mul_add_mod`). A long text is read in
pieces from the right into little-endian limbs of base `B`, whose value is
`limbsValue B`. And the digits of `msbValue b l` are `l` again when `l` has
no leading zero (`digits_msbValue`).

## Main results

* `msbValue_append`: the value of a concatenation.
* `msbValue_lt_of_head_lt`: texts of one length compare by their first
  digit that differs.
* `foldl_mul_add_mod`: the digit loop with a wrapping accumulator.
* `limbsValue_append_singleton`: a limb added on top.
* `digits_msbValue`: the canonical digits of a value read from a text
  without leading zero.
-/

namespace Lemochain.Numeral

/-- The value of the digits `l` in base `b`, the most significant first. -/
def msbValue (b : Nat) (l : List Nat) : Nat := Nat.ofDigits b l.reverse

@[simp] theorem msbValue_nil (b : Nat) : msbValue b [] = 0 := rfl

theorem msbValue_append (b : Nat) (l₁ l₂ : List Nat) :
    msbValue b (l₁ ++ l₂) = msbValue b l₁ * b ^ l₂.length + msbValue b l₂ := by
  rw [msbValue, msbValue, msbValue, List.reverse_append, Nat.ofDigits_append, List.length_reverse]
  ring

theorem msbValue_cons (b d : Nat) (l : List Nat) : msbValue b (d :: l) = d * b ^ l.length + msbValue b l := by
  rw [← List.singleton_append, msbValue_append]
  simp [msbValue]

theorem msbValue_lt {b : Nat} (hb : 1 < b) {l : List Nat} (hl : ∀ d ∈ l, d < b) : msbValue b l < b ^ l.length := by
  rw [msbValue, ← List.length_reverse]
  exact Nat.ofDigits_lt_base_pow_length hb fun d hd => hl d (List.mem_reverse.mp hd)

/-- Of two texts of one length, the one with the smaller first digit has
the smaller value. -/
theorem msbValue_lt_of_head_lt {b : Nat} (hb : 1 < b) {d₁ d₂ : Nat} {l₁ l₂ : List Nat}
    (hlen : l₁.length = l₂.length) (h₁ : ∀ d ∈ l₁, d < b) (hd : d₁ < d₂) :
    msbValue b (d₁ :: l₁) < msbValue b (d₂ :: l₂) := by
  rw [msbValue_cons, msbValue_cons, ← hlen]
  have hv := msbValue_lt hb h₁
  calc d₁ * b ^ l₁.length + msbValue b l₁ < (d₁ + 1) * b ^ l₁.length := by rw [Nat.succ_mul]; omega
    _ ≤ d₂ * b ^ l₁.length := Nat.mul_le_mul_right _ hd
    _ ≤ d₂ * b ^ l₁.length + msbValue b l₂ := Nat.le_add_right _ _

/-- The digit loop `acc = acc * b + d` from `a`, in a word of modulus `M`.

The wrap of the first step is absorbed by the final remainder. -/
theorem foldl_mul_add_mod (b : Nat) {M : Nat} (hM : 0 < M) (l : List Nat) {a : Nat} (ha : a < M) :
    l.foldl (fun acc d => (acc * b + d) % M) a = (a * b ^ l.length + msbValue b l) % M := by
  induction l generalizing a with
  | nil => simp [Nat.mod_eq_of_lt ha]
  | cons d l ih =>
      rw [List.foldl_cons, ih (Nat.mod_lt _ hM), msbValue_cons, List.length_cons]
      rw [Nat.add_mod, Nat.mul_mod, Nat.mod_mod, ← Nat.mul_mod, ← Nat.add_mod]
      congr 1
      ring

/-- Little-endian limbs of base `B`: `limbsValue B [l₀, l₁, …] = l₀ + B · l₁ + …`. -/
def limbsValue (B : Nat) : List Nat → Nat
  | [] => 0
  | limb :: rest => limb + B * limbsValue B rest

theorem limbsValue_append_singleton (B : Nat) (limbs : List Nat) (x : Nat) :
    limbsValue B (limbs ++ [x]) = limbsValue B limbs + B ^ limbs.length * x := by
  induction limbs with
  | nil => simp [limbsValue]
  | cons limb rest ih =>
      rw [List.cons_append, limbsValue, limbsValue, ih, List.length_cons, Nat.pow_succ]
      ring

/-- A text of digits below `b` with no leading zero is the canonical
numeral of its value. -/
theorem digits_msbValue {b : Nat} (hb : 1 < b) {l : List Nat} (hl : ∀ d ∈ l, d < b) (hhead : l.headD 0 ≠ 0) :
    (Nat.digits b (msbValue b l)).reverse = l := by
  rw [msbValue, Nat.digits_ofDigits b hb _ (fun d hd => hl d (List.mem_reverse.mp hd)), List.reverse_reverse]
  intro hne
  rw [List.getLast_reverse]
  cases l with
  | nil => exact absurd rfl hne
  | cons d l => exact hhead

end Lemochain.Numeral
