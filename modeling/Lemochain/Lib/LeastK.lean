import Mathlib.Algebra.Order.Ring.Nat
import Mathlib.Order.Lattice.Nat

/-!
# The `k` least elements of a stream, by key

A list bounded to `k` elements that receives a stream of elements one at a
time and keeps them sorted by a key holds, after every push, the `k`
elements of the stream with the least keys, or all of them while there are
fewer (`Keeps`). The elements it has let go, `rest`, are those of the
stream it does not hold, counted with repetitions, and none of them has a
key below that of an element it holds; elements of equal keys may fall
either way.

One push places the new element after the elements whose keys are at most
its own and before those whose keys exceed it, and cuts the list to `k`
(`Keeps.insert`). The place is the first index whose key exceeds the new
one, in a sorted list (`split_of_first`).

## Main results

* `Keeps.insert`: a push keeps `Keeps`.
* `split_of_first`: the first index whose key exceeds `key n` splits a
  sorted list into the part at most `key n` and the part above it.
-/

namespace Lemochain.LeastK

open scoped List

variable {α β : Type} [LinearOrder β]

/-- `entries` is what a list bounded to `k` elements keeps of the stream
`pushed`: sorted by key, as long as `k` allows, and no element of the
stream left out has a key below one kept. -/
structure Keeps (key : α → β) (k : Nat) (pushed entries : List α) : Prop where
  sorted : entries.Pairwise fun a b => key a ≤ key b
  length_eq : entries.length = min k pushed.length
  split : ∃ rest, (entries ++ rest).Perm pushed ∧ ∀ x ∈ entries, ∀ y ∈ rest, key x ≤ key y

variable {key : α → β}

theorem Keeps.nil (k : Nat) : Keeps key k [] [] :=
  ⟨List.Pairwise.nil, by simp, ⟨[], List.Perm.refl _, by simp⟩⟩

/-- Placing `n` between the elements at most its key and those above it
keeps a list sorted. -/
theorem sorted_insert {entries : List α} {n : α} {ix : Nat} (hs : entries.Pairwise fun a b => key a ≤ key b)
    (hbefore : ∀ x ∈ entries.take ix, key x ≤ key n) (hafter : ∀ x ∈ entries.drop ix, key n < key x) :
    (entries.take ix ++ n :: entries.drop ix).Pairwise fun a b => key a ≤ key b := by
  have hsplit := hs
  rw [← List.take_append_drop ix entries, List.pairwise_append] at hsplit
  obtain ⟨hA, hB, hAB⟩ := hsplit
  rw [List.pairwise_append, List.pairwise_cons]
  refine ⟨hA, ⟨fun y hy => (hafter y hy).le, hB⟩, fun a ha y hy => ?_⟩
  rcases List.mem_cons.mp hy with rfl | hy
  · exact hbefore a ha
  · exact hAB a ha y hy

theorem mem_insert {entries : List α} {n x : α} {ix : Nat} (hx : x ∈ entries.take ix ++ n :: entries.drop ix) :
    x ∈ entries ∨ x = n := by
  rcases List.mem_append.mp hx with hx | hx
  · exact Or.inl (List.mem_of_mem_take hx)
  · rcases List.mem_cons.mp hx with rfl | hx
    · exact Or.inr rfl
    · exact Or.inl (List.mem_of_mem_drop hx)

theorem perm_insert (entries : List α) (n : α) (ix : Nat) :
    (entries.take ix ++ n :: entries.drop ix).Perm (entries ++ [n]) := by
  calc (entries.take ix ++ n :: entries.drop ix).Perm (n :: (entries.take ix ++ entries.drop ix)) := List.perm_middle
    _ = n :: entries := by rw [List.take_append_drop]
    _ ~ entries ++ [n] := (List.perm_append_singleton n entries).symm

/-- One push: `n` placed after the elements whose keys are at most its own
and before those above it, and the list cut to `k`.

Room for `n`: nothing falls off, and nothing had before. A full list: what
falls off the end is at least as far as what stays. `n` stays, before an
entry that was nearer than everything let go. `n` falls off: what stays are
entries. -/
theorem Keeps.insert {k : Nat} {pushed entries : List α} (h : Keeps key k pushed entries) (n : α) (ix : Nat)
    (hbefore : ∀ x ∈ entries.take ix, key x ≤ key n) (hafter : ∀ x ∈ entries.drop ix, key n < key x) :
    Keeps key k (pushed ++ [n]) ((entries.take ix ++ n :: entries.drop ix).take k) := by
  obtain ⟨hs, hlen, rest, hperm, hnear⟩ := h
  have hLs := sorted_insert hs hbefore hafter
  have hLlen : (entries.take ix ++ n :: entries.drop ix).length = entries.length + 1 := by
    simp only [List.length_append, List.length_take, List.length_cons, List.length_drop]
    omega
  have hplen := hperm.length_eq
  rw [List.length_append] at hplen
  refine ⟨hLs.sublist (List.take_sublist _ _), ?_, ?_⟩
  · rw [List.length_take, hLlen, hlen, List.length_append, List.length_singleton]
    omega
  by_cases hroom : entries.length < k
  · have hrest : rest = [] := List.eq_nil_of_length_eq_zero (by omega)
    subst hrest
    refine ⟨[], ?_, by simp⟩
    rw [List.take_of_length_le (by omega), List.append_nil]
    exact (perm_insert entries n ix).trans (List.Perm.append_right [n] (by simpa using hperm))
  · refine ⟨(entries.take ix ++ n :: entries.drop ix).drop k ++ rest, ?_, ?_⟩
    · rw [← List.append_assoc, List.take_append_drop]
      calc (entries.take ix ++ n :: entries.drop ix ++ rest).Perm (entries ++ [n] ++ rest) :=
            (perm_insert entries n ix).append_right rest
        _ ~ entries ++ rest ++ [n] := by
            rw [List.append_assoc, List.append_assoc]
            exact List.perm_append_comm.append_left entries
        _ ~ pushed ++ [n] := hperm.append_right [n]
    · intro x hx y hy
      rcases List.mem_append.mp hy with hdrop | hrest
      · have hpair := hLs
        rw [← List.take_append_drop k (entries.take ix ++ n :: entries.drop ix), List.pairwise_append] at hpair
        exact hpair.2.2 x hx y hdrop
      · by_cases hix : ix < k
        · have hb : entries.drop ix ≠ [] := by
            rw [← List.length_pos_iff, List.length_drop]
            omega
          obtain ⟨b, rest', hbd⟩ := List.exists_cons_of_ne_nil hb
          have hbmem : b ∈ entries.drop ix := by rw [hbd]; exact List.mem_cons_self
          rcases mem_insert (List.mem_of_mem_take hx) with hx | rfl
          · exact hnear x hx y hrest
          · exact (hafter b hbmem).le.trans (hnear b (List.mem_of_mem_drop hbmem) y hrest)
        · rw [List.take_append_of_le_length (by rw [List.length_take]; omega)] at hx
          exact hnear x (List.mem_of_mem_take (List.mem_of_mem_take hx)) y hrest

/-- The first index whose key exceeds `key n`, in a sorted list, splits it
into the elements at most `key n` and those above it. -/
theorem split_of_first {entries : List α} {n : α} {ix : Nat} (hs : entries.Pairwise fun a b => key a ≤ key b)
    (hle : ∀ i < ix, ∀ e, entries[i]? = some e → key e ≤ key n)
    (hgt : ∀ e, entries[ix]? = some e → key n < key e) :
    (∀ x ∈ entries.take ix, key x ≤ key n) ∧ ∀ x ∈ entries.drop ix, key n < key x := by
  refine ⟨fun x hx => ?_, fun x hx => ?_⟩
  · obtain ⟨i, hi, hix⟩ := List.getElem_of_mem hx
    rw [List.length_take] at hi
    apply hle i (by omega) x
    rw [← hix, List.getElem_take, List.getElem?_eq_getElem]
  · obtain ⟨j, hj, hjx⟩ := List.getElem_of_mem hx
    rw [List.length_drop] at hj
    rw [List.getElem_drop] at hjx
    have hix : ix < entries.length := by omega
    have hfirst := hgt entries[ix] (List.getElem?_eq_getElem hix)
    rw [← hjx]
    rcases Nat.eq_zero_or_pos j with rfl | hjpos
    · simpa using hfirst
    · exact lt_of_lt_of_le hfirst (List.pairwise_iff_getElem.mp hs ix (ix + j) hix (by omega) (by omega))

end Lemochain.LeastK
