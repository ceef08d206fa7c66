import Mathlib.Data.List.Basic
/-!
# Loops that can fail

A loop of a program that can fail part way is modelled as `List.foldlM` in
the error monad `Except ε`. This module names nothing of any program; it
gives the invariant rule for such a loop.

## Main results

* `foldlM_invariant`: if every iteration, started in a state that satisfies
  the invariant for the elements already processed, succeeds in a state that
  satisfies it for one element more, then the whole loop succeeds in a state
  that satisfies it for the whole list. An iteration sees where it stands in
  the list, so a loop over a list without duplicates knows that the current
  element was not processed before.
* `foldlM_ok_invariant`: the rule for a loop that did succeed: if every
  iteration that succeeds keeps the invariant, the state the loop ends in
  satisfies it.
* `foldlM_error_of_mem`: a loop with an iteration that always fails, whose
  iterations fail in one way only, fails that way.
* `foldlM_guard`: a loop that rejects the elements a test picks out, and
  otherwise folds, fails exactly when the list has such an element.
* `foldl_pointwise`: a loop over keys whose pass at a key changes only what
  is stored there, the same way each time, does that once at every key of
  the list, whatever the order of the keys and their repetitions.
* `range'_eq_flatMap_window`: a loop over the counters of a range is a loop
  over the blocks of `s` counters that the range meets, each over the part
  of the range in it.
-/

namespace Lemochain.Loop

variable {ε σ α : Type}

/-- The invariant rule from an arbitrary processed prefix `pre`. -/
theorem foldlM_invariant_from (body : σ → α → Except ε σ) (I : List α → σ → Prop) (l : List α) :
    ∀ (pre : List α) (s : σ), I pre s →
      (∀ done x rest s, pre ++ l = done ++ x :: rest → I done s →
        ∃ s', body s x = .ok s' ∧ I (done ++ [x]) s') →
      ∃ s', l.foldlM body s = .ok s' ∧ I (pre ++ l) s' := by
  induction l with
  | nil => exact fun pre s h _ => ⟨s, rfl, by simpa using h⟩
  | cons x l ih =>
      intro pre s h hstep
      obtain ⟨s₁, hs₁, h₁⟩ := hstep pre x l s rfl h
      obtain ⟨s', hfold, h'⟩ := ih (pre ++ [x]) s₁ h₁ fun done y rest s hsplit hI =>
        hstep done y rest s (by simpa using hsplit) hI
      refine ⟨s', ?_, by simpa using h'⟩
      rw [List.foldlM_cons, hs₁]
      exact hfold

/-- The invariant rule for `List.foldlM` in `Except ε`. -/
theorem foldlM_invariant (body : σ → α → Except ε σ) (I : List α → σ → Prop) (l : List α) (s : σ)
    (h0 : I [] s)
    (hstep : ∀ done x rest s, l = done ++ x :: rest → I done s →
      ∃ s', body s x = .ok s' ∧ I (done ++ [x]) s') :
    ∃ s', l.foldlM body s = .ok s' ∧ I l s' :=
  foldlM_invariant_from body I l [] s h0 (fun done x rest s h => hstep done x rest s h)

/-- The rule for a loop that succeeded, from a processed prefix `pre`. -/
theorem foldlM_ok_invariant_from (body : σ → α → Except ε σ) (I : List α → σ → Prop) (l : List α) :
    ∀ (pre : List α) (s s' : σ), I pre s →
      (∀ done x rest s s₁, pre ++ l = done ++ x :: rest → I done s → body s x = .ok s₁ →
        I (done ++ [x]) s₁) →
      l.foldlM body s = .ok s' → I (pre ++ l) s' := by
  induction l with
  | nil =>
      intro pre s s' h _ hfold
      cases hfold
      simpa using h
  | cons x l ih =>
      intro pre s s' h hstep hfold
      rw [List.foldlM_cons] at hfold
      cases hx : body s x with
      | error e =>
          rw [hx] at hfold
          cases hfold
      | ok s₁ =>
          rw [hx] at hfold
          have h₁ := hstep pre x l s s₁ rfl h hx
          have hrest := ih (pre ++ [x]) s₁ s' h₁
            (fun done y rest s s₂ hsplit => hstep done y rest s s₂ (by simpa using hsplit)) hfold
          simpa using hrest

/-- The rule for a loop that succeeded: if every iteration that succeeds
keeps the invariant, so does the loop. -/
theorem foldlM_ok_invariant (body : σ → α → Except ε σ) (I : List α → σ → Prop) {l : List α} {s s' : σ}
    (h0 : I [] s)
    (hstep : ∀ done x rest s s₁, l = done ++ x :: rest → I done s → body s x = .ok s₁ → I (done ++ [x]) s₁)
    (hfold : l.foldlM body s = .ok s') : I l s' :=
  foldlM_ok_invariant_from body I l [] s s' h0 (fun done x rest s s₁ h => hstep done x rest s s₁ h) hfold

/-- In a loop over the counters `s, s + 1, …`, the iteration after the
processed prefix `done` is at counter `s + done.length`. -/
theorem eq_of_range'_eq_append {s n : Nat} {done rest : List Nat} {x : Nat}
    (h : List.range' s n = done ++ x :: rest) : x = s + done.length ∧ done.length < n := by
  have hx := congrArg (·[done.length]?) h
  simp only [List.getElem?_append_right (Nat.le_refl _), Nat.sub_self, List.getElem?_cons_zero] at hx
  rw [List.getElem?_eq_some_iff] at hx
  obtain ⟨hlt, hx⟩ := hx
  rw [List.length_range'] at hlt
  rw [List.getElem_range'] at hx
  omega

/-- The errors of a loop are errors of its iterations. -/
theorem foldlM_error_of_steps (body : σ → α → Except ε σ) (P : ε → Prop) (l : List α)
    (hstep : ∀ x ∈ l, ∀ s e, body s x = .error e → P e) : ∀ s e, l.foldlM body s = .error e → P e := by
  induction l with
  | nil =>
      intro s e h
      cases h
  | cons x l ih =>
      intro s e h
      rw [List.foldlM_cons] at h
      cases hx : body s x with
      | error e' =>
          rw [hx] at h
          cases h
          exact hstep x List.mem_cons_self s e hx
      | ok s₁ =>
          rw [hx] at h
          exact ih (fun y hy => hstep y (List.mem_cons_of_mem x hy)) s₁ e h

/-- A loop with an iteration that fails from every state, whose iterations
fail only with `e`, fails with `e`.

The failing iteration is still ahead. -/
theorem foldlM_error_of_mem (body : σ → α → Except ε σ) {l : List α} {x : α} {e : ε} (hx : x ∈ l)
    (hfail : ∀ s, body s x = .error e) (hstep : ∀ y ∈ l, ∀ s e', body s y = .error e' → e' = e) :
    ∀ s, l.foldlM body s = .error e := by
  induction l with
  | nil => cases hx
  | cons y l ih =>
      intro s
      rw [List.foldlM_cons]
      cases hy : body s y with
      | error e' =>
          rw [hstep y List.mem_cons_self s e' hy]
          rfl
      | ok s₁ =>
          have hxl : x ∈ l := by
            rcases List.mem_cons.mp hx with rfl | hxl
            · rw [hfail s] at hy
              cases hy
            · exact hxl
          exact ih hxl (fun z hz => hstep z (List.mem_cons_of_mem y hz)) s₁

/-- A loop whose iteration at `x` fails when `g x` is rejected by `p` and
otherwise folds `f` over `g x`: it fails iff some `g x` is rejected. -/
theorem foldlM_guard {β : Type} (g : α → β) (p : β → Prop) [DecidablePred p] (f : σ → β → σ) (e : ε)
    (l : List α) (s : σ) :
    l.foldlM (fun s x => if p (g x) then (.error e : Except ε σ) else .ok (f s (g x))) s =
      if ∀ y ∈ l.map g, ¬ p y then .ok ((l.map g).foldl f s) else .error e := by
  induction l generalizing s with
  | nil => rfl
  | cons x l ih =>
      rw [List.foldlM_cons]
      by_cases hx : p (g x)
      · simp only [hx, if_true, List.map_cons, List.forall_mem_cons, not_true_eq_false, false_and]
        rfl
      · simp only [hx, if_false, List.map_cons, List.foldl_cons, List.forall_mem_cons, not_false_eq_true,
          true_and]
        exact ih (f s (g x))

/-! ## Loops of updates at one key -/

/-- What no pass of a loop changes, the loop does not change. -/
theorem foldl_keeps {κ β : Type} (f : σ → κ → σ) (p : σ → β) (hf : ∀ s x, p (f s x) = p s)
    (l : List κ) (s : σ) : p (l.foldl f s) = p s := by
  induction l generalizing s with
  | nil => rfl
  | cons x l ih => rw [List.foldl_cons, ih, hf]

/-- A loop over keys in which the pass at `x` applies `g x` to what is
stored at `x` and changes nothing else, with `g x` idempotent, applies `g a`
once at every key `a` of the list.

The pass at `x` and the later passes at `a` meet only when `a = x`. -/
theorem foldl_pointwise {κ β : Type} [DecidableEq κ] (f : σ → κ → σ) (get : σ → κ → β) (g : κ → β → β)
    (hf : ∀ s x a, get (f s x) a = if a = x then g a (get s a) else get s a)
    (hg : ∀ a v, g a (g a v) = g a v) (l : List κ) (s : σ) (a : κ) :
    get (l.foldl f s) a = if a ∈ l then g a (get s a) else get s a := by
  induction l generalizing s with
  | nil => simp
  | cons x l ih =>
      rw [List.foldl_cons, ih, hf]
      by_cases hx : a = x
      · simp [hx, hg]
      · by_cases hl : a ∈ l <;> simp [hx, hl]

/-- The counters of `[b, e]` that fall in block `i` of `s` counters. -/
def window (s b e i : Nat) : List Nat :=
  List.range' (max b (i * s)) (min e (i * s + s - 1) + 1 - max b (i * s))

theorem window_of_le {s b b' e i : Nat} (hb : b ≤ i * s) (hb' : b' ≤ i * s) :
    window s b e i = window s b' e i := by
  simp only [window, Nat.max_eq_right hb, Nat.max_eq_right hb']

/-- A loop over the counters of `[b, e]` is a loop over the blocks of `s`
counters that the range meets, each over its window, in order.

Induction on the number of blocks; the next block starts where `b`'s ends.
The range ends in the block of `b`. The range goes on from the start of the
next block. -/
theorem range'_eq_flatMap_window {s : Nat} (hs : 0 < s) (e : Nat) :
    ∀ n b, e / s + 1 - b / s = n →
      List.range' b (e + 1 - b) = (List.range' (b / s) n).flatMap (window s b e) := by
  intro n
  induction n with
  | zero =>
      intro b hn
      have heb : e < b := Nat.lt_of_not_le fun h => by
        have := Nat.div_le_div_right (c := s) h
        omega
      simp [show e + 1 - b = 0 by omega]
  | succ n ih =>
      intro b hn
      have hbs : b / s * s ≤ b := Nat.div_mul_le_self b s
      have hb2 : b < b / s * s + s := Nat.lt_div_mul_add hs
      have hwin : ∀ e', window s b e' (b / s) = List.range' b (min e' (b / s * s + s - 1) + 1 - b) := by
        intro e'
        simp only [window, Nat.max_eq_left hbs]
      rw [List.range'_succ, List.flatMap_cons, hwin]
      by_cases he : e < b / s * s + s
      · have hes : e / s < b / s + 1 := (Nat.div_lt_iff_lt_mul hs).mpr (by rw [Nat.add_mul, Nat.one_mul]; exact he)
        have hn0 : n = 0 := by omega
        subst hn0
        simp [Nat.min_eq_left (show e ≤ b / s * s + s - 1 by omega)]
      · have hb' : (b / s * s + s) / s = b / s + 1 := by
          rw [show b / s * s + s = (b / s + 1) * s by rw [Nat.add_mul, Nat.one_mul], Nat.mul_div_cancel _ hs]
        have hrest := ih (b / s * s + s) (by omega)
        rw [hb', List.flatMap_congr (g := window s b e) (fun i hi => by
          have hi' := Nat.mul_le_mul_right s (List.mem_range'_1.mp hi).1
          rw [Nat.add_mul, Nat.one_mul] at hi'
          exact window_of_le (by omega) (by omega))] at hrest
        have hsplit : e + 1 - b = (b / s * s + s - 1 + 1 - b) + (e + 1 - (b / s * s + s)) := by omega
        rw [Nat.min_eq_right (by omega), ← hrest, hsplit, ← List.range'_append,
          show b + 1 * (b / s * s + s - 1 + 1 - b) = b / s * s + s by omega]

end Lemochain.Loop
