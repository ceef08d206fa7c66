import Mathlib.Algebra.Order.Ring.Nat

/-!
# Slice expressions

A slice expression `s[lo:hi]` of a slice whose capacity is its length
takes the elements from `lo` up to `hi`, and is a run-time panic unless
`lo ≤ hi ≤ len(s)`. `Slice.get` returns `none` for the panic. This module
names nothing of any program.

## Main results

* `get_eq_none_iff`: when a slice expression panics.
* `get_append`: the slice between two boundaries of a concatenation is the
  part between them.
* `get_trans`: two adjacent slices make the slice from the first start to
  the second end; with `get_length` a chain of slices that covers `s` cuts it
  into parts.
* `copy_of_le`: the built-in `copy` from a source no longer than the
  destination writes the source over the start of the destination.
-/

namespace Lemochain.Slice

variable {α : Type}

/-- The slice expression `s[lo:hi]`; `none` for a panic. -/
def get (s : List α) (lo hi : Nat) : Option (List α) :=
  if lo ≤ hi ∧ hi ≤ s.length then some ((s.drop lo).take (hi - lo)) else none

theorem get_of_le {s : List α} {lo hi : Nat} (h₁ : lo ≤ hi) (h₂ : hi ≤ s.length) :
    get s lo hi = some ((s.drop lo).take (hi - lo)) :=
  if_pos ⟨h₁, h₂⟩

theorem get_eq_none_iff {s : List α} {lo hi : Nat} : get s lo hi = none ↔ hi < lo ∨ s.length < hi := by
  unfold get
  split
  · next h => simp only [reduceCtorEq, false_iff]; omega
  · next h => simp only [true_iff]; omega

/-- What a slice expression that does not panic returns. -/
theorem get_eq_some {s t : List α} {lo hi : Nat} (h : get s lo hi = some t) :
    lo ≤ hi ∧ hi ≤ s.length ∧ t = (s.drop lo).take (hi - lo) := by
  unfold get at h
  split at h
  · next hb =>
      cases h
      exact ⟨hb.1, hb.2, rfl⟩
  · cases h

theorem length_of_get {s t : List α} {lo hi : Nat} (h : get s lo hi = some t) : t.length = hi - lo := by
  obtain ⟨h₁, h₂, rfl⟩ := get_eq_some h
  rw [List.length_take, List.length_drop]
  omega

/-- The whole slice. -/
theorem get_length (s : List α) : get s 0 s.length = some s := by
  rw [get_of_le (Nat.zero_le _) (Nat.le_refl _), List.drop_zero, Nat.sub_zero, List.take_length]

/-- The part between two boundaries of a concatenation. -/
theorem get_append (a b c : List α) : get (a ++ b ++ c) a.length (a.length + b.length) = some b := by
  rw [get_of_le (Nat.le_add_right _ _) (by simp), Nat.add_sub_cancel_left, List.append_assoc,
    List.drop_left, List.take_left]

/-- `get_append` at boundaries given by their values. -/
theorem get_append_of (a b c : List α) {lo hi : Nat} (hlo : lo = a.length) (hhi : hi = a.length + b.length) :
    get (a ++ b ++ c) lo hi = some b := by
  rw [hlo, hhi]
  exact get_append a b c

/-- A slice within the first part of a concatenation. -/
theorem get_append_left {a b : List α} {lo hi : Nat} (h : hi ≤ a.length) : get (a ++ b) lo hi = get a lo hi := by
  unfold get
  by_cases hb : lo ≤ hi
  · rw [if_pos ⟨hb, by simp; omega⟩, if_pos ⟨hb, h⟩, List.drop_append_of_le_length (by omega),
      List.take_append_of_le_length (by simp; omega)]
  · rw [if_neg (by omega), if_neg (by omega)]

/-- A slice of the second part of a concatenation, at boundaries shifted by
the first part. -/
theorem get_append_shift (a b : List α) (lo hi : Nat) :
    get (a ++ b) (a.length + lo) (a.length + hi) = get b lo hi := by
  unfold get
  by_cases hb : lo ≤ hi ∧ hi ≤ b.length
  · rw [if_pos ⟨by omega, by simp; omega⟩, if_pos hb, List.drop_length_add_append, Nat.add_sub_add_left]
  · rw [if_neg (by simp; omega), if_neg hb]

/-- Two adjacent slices.

`drop b` is `drop (b - a)` after `drop a`. -/
theorem get_trans {s x y : List α} {a b c : Nat} (hx : get s a b = some x) (hy : get s b c = some y) :
    get s a c = some (x ++ y) := by
  obtain ⟨hab, hb, rfl⟩ := get_eq_some hx
  obtain ⟨hbc, hc, rfl⟩ := get_eq_some hy
  rw [get_of_le (Nat.le_trans hab hbc) hc]
  rw [show c - a = (b - a) + (c - b) by omega, List.take_add, List.drop_drop, show a + (b - a) = b by omega]

/-- Two slices that cover `s` cut it in two. -/
theorem eq_append_of_get {s x y : List α} {a : Nat} (hx : get s 0 a = some x) (hy : get s a s.length = some y) :
    s = x ++ y :=
  Option.some.inj ((get_length s).symm.trans (get_trans hx hy))

theorem get_cons_zero_one (x : α) (t : List α) : get (x :: t) 0 1 = some [x] := by
  rw [get_of_le (Nat.zero_le 1) (by simp)]
  rfl

/-! ## The built-in `copy` -/

/-- `copy(dst, src)`: the first `min (len dst) (len src)` elements of `src`
over the start of `dst`. -/
def copy (dst src : List α) : List α := src.take dst.length ++ dst.drop src.length

@[simp] theorem length_copy (dst src : List α) : (copy dst src).length = dst.length := by
  rw [copy, List.length_append, List.length_take, List.length_drop]
  omega

theorem copy_of_le {dst src : List α} (h : src.length ≤ dst.length) : copy dst src = src ++ dst.drop src.length := by
  rw [copy, List.take_of_length_le h]

theorem copy_of_length {dst src : List α} (h : src.length = dst.length) : copy dst src = src := by
  rw [copy_of_le (Nat.le_of_eq h), h, List.drop_length, List.append_nil]

theorem copy_of_ge {dst src : List α} (h : dst.length ≤ src.length) : copy dst src = src.take dst.length := by
  rw [copy, List.drop_eq_nil_of_le h, List.append_nil]

/-- A slice shifted one place right from `i`, then written at `i`: the
element goes in at `i`. -/
theorem set_take_succ_append {L : List α} {i : Nat} (hi : i < L.length) (R : List α) (x : α) :
    (L.take (i + 1) ++ R).set i x = L.take i ++ x :: R := by
  rw [List.take_add_one, List.getElem?_eq_getElem hi, Option.toList_some, List.append_assoc,
    List.set_append_right _ _ (by rw [List.length_take]; omega), List.length_take, Nat.min_eq_left (by omega),
    Nat.sub_self, List.singleton_append, List.set_cons_zero]

/-- The insertion into a slice by `append`, `copy` and an assignment: an
element `z` appended, the elements from `i` shifted one place right and `x`
written at `i` is `x` inserted at `i`. -/
theorem insert_by_copy {l : List α} {i : Nat} (z x : α) (hi : i ≤ l.length) :
    ((l ++ [z]).take (i + 1) ++ copy ((l ++ [z]).drop (i + 1)) ((l ++ [z]).drop i)).set i x =
      l.take i ++ x :: l.drop i := by
  have hlen : (l ++ [z]).length = l.length + 1 := by rw [List.length_append, List.length_singleton]
  have hd : ((l ++ [z]).drop (i + 1)).length = (l.drop i).length := by
    rw [List.length_drop, List.length_drop, hlen]
    omega
  rw [set_take_succ_append (by omega), copy_of_ge (by rw [List.length_drop, List.length_drop]; omega), hd,
    List.take_append_of_le_length hi, List.drop_append_of_le_length hi, List.take_left]

/-- The insertion into a slice bounded to `k` elements: `x` appended while
there is room, the elements from `ix` shifted one place right by `copy`
and `x` written at `ix` (nothing moves when `ix` is the full length) is `x`
inserted at `ix`, cut to `k`.

Room: `x` is appended, then moved to `ix` by the shift. A full slice and `x`
beyond its last element: nothing changes. A full slice: the shift drops the
last element. -/
theorem insert_bounded {l : List α} {ix k : Nat} (x : α) (hix : ix ≤ l.length) (hlen : l.length ≤ k) :
    let s := if l.length < k then l ++ [x] else l
    (if ix = s.length then s else (s.take (ix + 1) ++ copy (s.drop (ix + 1)) (s.drop ix)).set ix x) =
      (l.take ix ++ x :: l.drop ix).take k := by
  intro s
  by_cases hroom : l.length < k
  · have hs : s = l ++ [x] := if_pos hroom
    have hins : (l.take ix ++ x :: l.drop ix).length ≤ k := by
      simp only [List.length_append, List.length_take, List.length_cons, List.length_drop]
      omega
    rw [hs, if_neg (by rw [List.length_append, List.length_singleton]; omega), insert_by_copy x x hix,
      List.take_of_length_le hins]
  · have hs : s = l := if_neg hroom
    have hk : k = l.length := by omega
    rw [hs]
    by_cases hend : ix = l.length
    · rw [if_pos hend, hend, hk, List.drop_length, List.take_left' (List.length_take_of_le (Nat.le_refl _)),
        List.take_length]
    · have hlt : ix < l.length := by omega
      rw [if_neg hend, set_take_succ_append hlt, copy_of_ge (by simp only [List.length_drop]; omega),
        List.take_append, List.take_take, Nat.min_eq_right (by omega), List.length_take,
        Nat.min_eq_left hix, show k - ix = (l.drop (ix + 1)).length + 1 by simp only [List.length_drop]; omega,
        List.take_succ_cons]

end Lemochain.Slice
