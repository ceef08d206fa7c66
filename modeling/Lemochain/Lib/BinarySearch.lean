
/-!
# Binary search for the least index of a monotone predicate

`search f i j` halves `[i, j)` until it is empty: at the midpoint `h` it
keeps the upper half `[h + 1, j)` if `f h` is false and the lower half
`[i, h)` otherwise. When `f` is monotone on `[0, n)`, false up to some
index and true from it on, `search f 0 n` is that index, or `n` when `f`
holds nowhere below `n` (`search_spec`).
-/

namespace Lemochain.BinarySearch

/-- The loop of the search over `[i, j)`. -/
def search (f : Nat → Bool) (i j : Nat) : Nat :=
  if i < j then
    let h := (i + j) / 2
    if !f h then search f (h + 1) j else search f i h
  else i
termination_by j - i

theorem search_le (f : Nat → Bool) (i j : Nat) (hij : i ≤ j) : search f i j ≤ j := by
  rw [search]
  split
  · dsimp only
    split
    · exact search_le f _ j (by omega)
    · exact Nat.le_trans (search_le f i _ (by omega)) (by omega)
  · exact hij
termination_by j - i

/-- `f` is monotone on `[0, n)`: once true, it stays true. -/
def MonotoneBelow (n : Nat) (f : Nat → Bool) : Prop := ∀ a b, a ≤ b → b < n → f a = true → f b = true

/-- The invariant of the loop: `f` is false below `i` and true at `j`
(when `j < n`).

`f` is false at the midpoint, so up to it: the answer lies above. `f` holds
at the midpoint: the answer is at or below it. An empty interval: the answer
is its end. -/
theorem search_bounds {n : Nat} {f : Nat → Bool} (hmono : MonotoneBelow n f) (i j : Nat) (hij : i ≤ j)
    (hj : j ≤ n) (hlow : ∀ x < i, f x = false) (hhigh : j < n → f j = true) :
    i ≤ search f i j ∧ search f i j ≤ j ∧ (∀ x < search f i j, f x = false) ∧
      (search f i j < n → f (search f i j) = true) := by
  rw [search]
  split
  · rename_i hlt
    dsimp only
    split
    · rename_i hf
      have hfalse : f ((i + j) / 2) = false := by simpa using hf
      have hlow' : ∀ x < (i + j) / 2 + 1, f x = false := by
        intro x hx
        by_cases hxi : x < i
        · exact hlow x hxi
        · cases hfx : f x
          · rfl
          · rw [hmono x ((i + j) / 2) (by omega) (by omega) hfx] at hfalse
            cases hfalse
      obtain ⟨h1, h2, h3, h4⟩ := search_bounds hmono ((i + j) / 2 + 1) j (by omega) hj hlow' hhigh
      exact ⟨by omega, h2, h3, h4⟩
    · rename_i hf
      have htrue : f ((i + j) / 2) = true := by simpa using hf
      obtain ⟨h1, h2, h3, h4⟩ := search_bounds hmono i ((i + j) / 2) (by omega) (by omega) hlow (fun _ => htrue)
      exact ⟨h1, by omega, h3, h4⟩
  · have hij' : i = j := by omega
    subst hij'
    exact ⟨Nat.le_refl _, Nat.le_refl _, hlow, hhigh⟩
termination_by j - i

/-- The search over `[0, n)` finds the least index at which a monotone `f`
holds, or `n`. -/
theorem search_spec {n : Nat} {f : Nat → Bool} (hmono : MonotoneBelow n f) :
    search f 0 n ≤ n ∧ (∀ x < search f 0 n, f x = false) ∧ (search f 0 n < n → f (search f 0 n) = true) := by
  obtain ⟨_, h2, h3, h4⟩ := search_bounds hmono 0 n (Nat.zero_le n) (Nat.le_refl n) (fun x hx => absurd hx (Nat.not_lt_zero x))
    (fun h => absurd h (Nat.lt_irrefl n))
  exact ⟨h2, h3, h4⟩

end Lemochain.BinarySearch
