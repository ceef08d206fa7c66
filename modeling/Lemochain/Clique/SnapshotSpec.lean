import Mathlib.Algebra.Order.Ring.Nat
import Mathlib.Data.Nat.SuccPred
import Mathlib.Data.List.Nodup
import Mathlib.Data.Nat.Basic
import Lemochain.Clique.Snapshot
import Lemochain.Lib.Loop

/-!
# What every run of the voting snapshot keeps

The tally of an address is the count of the votes on it, and no entry is
kept for an address nobody votes on; the votes are in the direction that
would change the address's membership; no signer has two votes on one
address and every vote's signer is a signer; the recent signers are
distinct and their blocks lie in the window of the last `|Signers|/2 + 1`
blocks. Each block of `applyHeader` keeps these, given what the blocks
before it left; `apply` keeps them over a chain of headers, so every
snapshot a run reaches from a checkpoint has them.

The window is where the argument is tight: when a vote drops a signer the
window shrinks by at most one block, and `passVote` trims the recent signer
that falls out of it.

## Main results

* `Fits.removeVote`, `Fits.snoc`, `Fits.dropAddress` — taking a vote back,
  casting one and dropping an address keep the tally fitting the votes.
* `Ok.applyHeader`, `Ok.apply` — one header, and a chain of them, keep the
  invariant `Ok`.
* `Reachable.ok` — every snapshot reached from a checkpoint satisfies it.
* `inturn_existsUnique` — with a non-empty signer set, exactly one signer is
  in turn at every height.
-/

namespace Lemochain.Clique

variable {A : Type}

/-! ## A tally entry against the votes it counts -/

/-- The tally entry of an address against the votes on it: no entry and no
votes, or as many votes as the entry counts, at least one, all in its
direction. -/
def TallyFits : Option Tally → List (Vote A) → Prop
  | none, vs => vs = []
  | some t, vs => t.Votes = vs.length ∧ 0 < t.Votes ∧ ∀ v ∈ vs, v.Authorize = t.Authorize

/-- Taking one vote back from a tally that fits.

The vote taken back was the only one. -/
theorem TallyFits.uncast {t : Tally} {m₁ m₂ : List (Vote A)} {v : Vote A}
    (h : TallyFits (some t) (m₁ ++ v :: m₂)) :
    TallyFits (if 1 < t.Votes then some { t with Votes := t.Votes - 1 } else none) (m₁ ++ m₂) := by
  obtain ⟨hlen, -, hdir⟩ := h
  simp only [List.length_append, List.length_cons] at hlen
  split_ifs with h1
  · refine ⟨by simp; omega, by simp; omega, fun w hw => hdir w ?_⟩
    rcases List.mem_append.mp hw with hw | hw
    · exact List.mem_append_left _ hw
    · exact List.mem_append_right _ (List.mem_cons_of_mem _ hw)
  · have h₁ : m₁ = [] := List.length_eq_zero_iff.mp (by omega)
    have h₂ : m₂ = [] := List.length_eq_zero_iff.mp (by omega)
    simp [TallyFits, h₁, h₂]

/-- Counting one more vote, in the direction of the tally if there is one. -/
theorem TallyFits.snoc {o : Option Tally} {m : List (Vote A)} {v : Vote A} (h : TallyFits o m)
    (hdir : ∀ t, o = some t → t.Authorize = v.Authorize) :
    TallyFits (some ((o.map fun old => { old with Votes := old.Votes + 1 }).getD ⟨v.Authorize, 1⟩))
      (m ++ [v]) := by
  cases o with
  | none =>
      have hm : m = [] := h
      simp [TallyFits, hm]
  | some t =>
      obtain ⟨hlen, -, hvs⟩ := h
      refine ⟨by simp [hlen], by simp, fun w hw => ?_⟩
      rcases List.mem_append.mp hw with hw | hw
      · exact hvs w hw
      · rw [List.mem_singleton.mp hw]
        exact (hdir t rfl).symm

variable [LinearOrder A]

namespace Snapshot

/-! ## What `cast` and `uncast` change -/

/-- `cast` changes the tally only. -/
theorem cast_snd (s : Snapshot A) (a : A) (b : Bool) :
    (s.cast a b).2 = { s with Tally := (s.cast a b).2.Tally } := by
  unfold cast
  split_ifs <;> (try split) <;> rfl

@[simp] theorem cast_Signers (s : Snapshot A) (a : A) (b : Bool) : (s.cast a b).2.Signers = s.Signers := by
  rw [cast_snd]

@[simp] theorem cast_Recents (s : Snapshot A) (a : A) (b : Bool) : (s.cast a b).2.Recents = s.Recents := by
  rw [cast_snd]

@[simp] theorem cast_Votes (s : Snapshot A) (a : A) (b : Bool) : (s.cast a b).2.Votes = s.Votes := by
  rw [cast_snd]

@[simp] theorem cast_Number (s : Snapshot A) (a : A) (b : Bool) : (s.cast a b).2.Number = s.Number := by
  rw [cast_snd]

/-- `uncast` changes the tally only. -/
theorem uncast_snd (s : Snapshot A) (a : A) (b : Bool) :
    (s.uncast a b).2 = { s with Tally := (s.uncast a b).2.Tally } := by
  unfold uncast
  split <;> (try split_ifs) <;> rfl

@[simp] theorem uncast_Signers (s : Snapshot A) (a : A) (b : Bool) : (s.uncast a b).2.Signers = s.Signers := by
  rw [uncast_snd]

@[simp] theorem uncast_Recents (s : Snapshot A) (a : A) (b : Bool) : (s.uncast a b).2.Recents = s.Recents := by
  rw [uncast_snd]

@[simp] theorem uncast_Votes (s : Snapshot A) (a : A) (b : Bool) : (s.uncast a b).2.Votes = s.Votes := by
  rw [uncast_snd]

@[simp] theorem uncast_Number (s : Snapshot A) (a : A) (b : Bool) : (s.uncast a b).2.Number = s.Number := by
  rw [uncast_snd]

theorem validVote_iff (s : Snapshot A) (a : A) (b : Bool) :
    s.validVote a b = true ↔ b = decide (a ∉ s.Signers) := by
  unfold validVote
  cases b <;> by_cases h : a ∈ s.Signers <;> simp [h]

theorem cast_fst (s : Snapshot A) (a : A) (b : Bool) : (s.cast a b).1 = s.validVote a b := by
  unfold cast
  split_ifs with h
  · simp_all
  · split <;> simp_all

theorem cast_of_invalid {s : Snapshot A} {a : A} {b : Bool} (hv : s.validVote a b = false) :
    s.cast a b = (false, s) := by
  simp [cast, hv]

/-- A valid vote raises the tally of its address, or starts it at one. -/
theorem cast_Tally {s : Snapshot A} {a : A} {b : Bool} (hv : s.validVote a b = true) :
    (s.cast a b).2.Tally =
      s.Tally.insert a (((s.Tally.lookup a).map fun old => { old with Votes := old.Votes + 1 }).getD ⟨b, 1⟩) := by
  unfold cast
  rw [if_neg (by simp [hv])]
  split
  next old h => simp [h]
  next h => simp [h]

theorem uncast_lookup_ne (s : Snapshot A) {a a' : A} (b : Bool) (h : a' ≠ a) :
    (s.uncast a b).2.Tally.lookup a' = s.Tally.lookup a' := by
  unfold uncast
  split
  · rfl
  · split_ifs
    · rfl
    · exact AList.lookup_insert_ne h
    · exact AList.lookup_erase_ne h

/-- Taking back a vote in the tally's direction lowers it by one, and drops
it at one. -/
theorem uncast_lookup_self {s : Snapshot A} {a : A} {t : Clique.Tally} (ht : s.Tally.lookup a = some t) :
    (s.uncast a t.Authorize).2.Tally.lookup a =
      if 1 < t.Votes then some { t with Votes := t.Votes - 1 } else none := by
  unfold uncast
  rw [ht]
  by_cases h : 1 < t.Votes <;> simp [h]

/-- `uncast` keeps the direction of every tally it leaves in place. -/
theorem uncast_lookup_dir {s : Snapshot A} {a a' : A} {b : Bool} {t' : Clique.Tally}
    (h : (s.uncast a b).2.Tally.lookup a' = some t') :
    ∃ t, s.Tally.lookup a' = some t ∧ t'.Authorize = t.Authorize := by
  by_cases ha : a' = a
  · subst ha
    unfold uncast at h
    split at h
    · exact ⟨t', h, rfl⟩
    · rename_i t ht
      split_ifs at h
      · exact ⟨t', h, rfl⟩
      · simp only [AList.lookup_insert, Option.some.injEq] at h
        exact ⟨t, ht, by rw [← h]⟩
      · simp at h
  · rw [uncast_lookup_ne s b ha] at h
    exact ⟨t', h, rfl⟩

end Snapshot

/-! ## The tally against the votes -/

/-- The votes on `a`, in the order they were cast. -/
def votesOn (vs : List (Vote A)) (a : A) : List (Vote A) := vs.filter (·.Address = a)

@[simp] theorem votesOn_append (vs ws : List (Vote A)) (a : A) :
    votesOn (vs ++ ws) a = votesOn vs a ++ votesOn ws a := List.filter_append ..

@[simp] theorem votesOn_cons_self {v : Vote A} (vs : List (Vote A)) :
    votesOn (v :: vs) v.Address = v :: votesOn vs v.Address := by
  simp [votesOn]

theorem votesOn_cons_ne {v : Vote A} (vs : List (Vote A)) {a : A} (h : a ≠ v.Address) :
    votesOn (v :: vs) a = votesOn vs a := by
  simp [votesOn, Ne.symm h]

@[simp] theorem votesOn_nil (a : A) : votesOn ([] : List (Vote A)) a = [] := rfl

theorem votesOn_filter_ne (votes : List (Vote A)) {a c : A} (h : a ≠ c) :
    votesOn (votes.filter (·.Address ≠ c)) a = votesOn votes a := by
  simp only [votesOn, List.filter_filter]
  congr 1
  funext v
  by_cases hv : v.Address = a
  · simp [hv, h]
  · simp [hv]

theorem votesOn_filter_self (votes : List (Vote A)) (c : A) :
    votesOn (votes.filter (·.Address ≠ c)) c = [] := by
  simp [votesOn, List.filter_filter]

/-- Every address's tally entry fits the votes on it. -/
def Fits (tally : AList (fun _ : A => Tally)) (votes : List (Vote A)) : Prop :=
  ∀ a, TallyFits (tally.lookup a) (votesOn votes a)

/-- The tally of `a` is in the direction that would change whether `a` is
in `signers`. -/
def DirOk (tally : AList (fun _ : A => Tally)) (signers : Finset A) (a : A) : Prop :=
  ∀ t, tally.lookup a = some t → t.Authorize = decide (a ∉ signers)

/-- The signer and the address of a vote: a signer has one vote on an
address at most. -/
def Vote.key (v : Vote A) : A × A := (v.Signer, v.Address)

theorem Fits.empty : Fits (∅ : AList (fun _ : A => Tally)) [] := fun a => by
  simp [TallyFits]

/-- Taking a vote out of the votes and back from the tally.

The tally counts `v`, so it has an entry. -/
theorem Fits.removeVote {s : Snapshot A} {l₁ l₂ : List (Vote A)} {v : Vote A}
    (h : Fits s.Tally (l₁ ++ v :: l₂)) : Fits (s.uncast v.Address v.Authorize).2.Tally (l₁ ++ l₂) := by
  intro a
  by_cases ha : a = v.Address
  · subst ha
    have hv := h v.Address
    rw [votesOn_append, votesOn_cons_self] at hv
    cases ht : s.Tally.lookup v.Address with
    | none =>
        rw [ht] at hv
        simp [TallyFits] at hv
    | some t =>
        rw [ht] at hv
        have hdir : v.Authorize = t.Authorize := hv.2.2 v (by simp)
        rw [hdir, Snapshot.uncast_lookup_self ht, votesOn_append]
        exact TallyFits.uncast hv
  · rw [Snapshot.uncast_lookup_ne s _ ha]
    have hv := h a
    rwa [votesOn_append, votesOn_cons_ne _ ha, ← votesOn_append] at hv

/-- Casting a valid vote and appending it to the votes. -/
theorem Fits.cast {s : Snapshot A} {m : List (Vote A)} (v : Vote A) (h : Fits s.Tally m)
    (hdir : DirOk s.Tally s.Signers v.Address) (hv : s.validVote v.Address v.Authorize = true) :
    Fits (s.cast v.Address v.Authorize).2.Tally (m ++ [v]) := by
  intro a
  rw [Snapshot.cast_Tally hv]
  by_cases ha : a = v.Address
  · subst ha
    rw [AList.lookup_insert, votesOn_append, votesOn_cons_self, votesOn_nil]
    refine TallyFits.snoc (h v.Address) fun t ht => ?_
    rw [hdir t ht]
    exact ((Snapshot.validVote_iff s _ _).mp hv).symm
  · rw [AList.lookup_insert_ne ha, votesOn_append, votesOn_cons_ne _ ha, votesOn_nil, List.append_nil]
    exact h a

/-- Dropping the votes on `c` with its tally. -/
theorem Fits.dropAddress {tally : AList (fun _ : A => Tally)} {votes : List (Vote A)} (h : Fits tally votes)
    (c : A) : Fits (tally.erase c) (votes.filter (·.Address ≠ c)) := by
  intro a
  by_cases ha : a = c
  · subst ha
    rw [AList.lookup_erase, votesOn_filter_self]
    rfl
  · rw [AList.lookup_erase_ne ha, votesOn_filter_ne _ ha]
    exact h a

theorem DirOk.uncast {s : Snapshot A} {S : Finset A} {a c : A} {b : Bool} (h : DirOk s.Tally S a) :
    DirOk (s.uncast c b).2.Tally S a := by
  intro t' ht'
  obtain ⟨t, ht, hdir⟩ := Snapshot.uncast_lookup_dir ht'
  rw [hdir]
  exact h t ht

theorem DirOk.cast {s : Snapshot A} {a c : A} {b : Bool} (h : DirOk s.Tally s.Signers a)
    (hv : s.validVote c b = true) : DirOk (s.cast c b).2.Tally s.Signers a := by
  intro t ht
  rw [Snapshot.cast_Tally hv] at ht
  by_cases ha : a = c
  · subst ha
    rw [AList.lookup_insert, Option.some.injEq] at ht
    cases ho : s.Tally.lookup a with
    | none =>
        rw [ho] at ht
        rw [← ht]
        exact (Snapshot.validVote_iff s _ _).mp hv
    | some old =>
        rw [ho] at ht
        rw [← ht]
        exact h old ho
  · rw [AList.lookup_insert_ne ha] at ht
    exact h t ht

theorem DirOk.erase {tally : AList (fun _ : A => Tally)} {S : Finset A} {a : A} (h : DirOk tally S a) (c : A) :
    DirOk (tally.erase c) S a := by
  intro t ht
  by_cases ha : a = c
  · subst ha
    simp at ht
  · rw [AList.lookup_erase_ne ha] at ht
    exact h t ht

theorem DirOk.erase_self (tally : AList (fun _ : A => Tally)) (S : Finset A) (c : A) :
    DirOk (tally.erase c) S c := by
  intro t ht
  simp at ht

namespace Snapshot

/-! ## The two loops over the votes -/

/-- The first loop changes the tally of the snapshot only. -/
theorem discardVote_snd (sg ad : A) (vs : List (Vote A)) (s : Snapshot A) :
    (discardVote sg ad vs s).2 = { s with Tally := (discardVote sg ad vs s).2.Tally } := by
  induction vs with
  | nil => rfl
  | cons v vs ih =>
      rw [discardVote_cons]
      split_ifs
      · exact uncast_snd s _ _
      · exact ih

@[simp] theorem discardVote_Signers (sg ad : A) (vs : List (Vote A)) (s : Snapshot A) :
    (discardVote sg ad vs s).2.Signers = s.Signers := by
  rw [discardVote_snd]

@[simp] theorem discardVote_Recents (sg ad : A) (vs : List (Vote A)) (s : Snapshot A) :
    (discardVote sg ad vs s).2.Recents = s.Recents := by
  rw [discardVote_snd]

@[simp] theorem discardVote_Number (sg ad : A) (vs : List (Vote A)) (s : Snapshot A) :
    (discardVote sg ad vs s).2.Number = s.Number := by
  rw [discardVote_snd]

/-- The first loop takes out the first vote of the signer on the address,
taking it back from the tally, or changes nothing. -/
theorem discardVote_spec (sg ad : A) (vs : List (Vote A)) (s : Snapshot A) :
    ((∀ v ∈ vs, ¬ (v.Signer = sg ∧ v.Address = ad)) ∧ discardVote sg ad vs s = (vs, s)) ∨
      ∃ l₁ v l₂, vs = l₁ ++ v :: l₂ ∧ v.Signer = sg ∧ v.Address = ad ∧
        discardVote sg ad vs s = (l₁ ++ l₂, (s.uncast v.Address v.Authorize).2) := by
  induction vs with
  | nil => exact .inl ⟨by simp, rfl⟩
  | cons v vs ih =>
      by_cases hv : v.Signer = sg ∧ v.Address = ad
      · exact .inr ⟨[], v, vs, rfl, hv.1, hv.2, by simp [discardVote_cons, hv]⟩
      · have hstep : discardVote sg ad (v :: vs) s =
            (v :: (discardVote sg ad vs s).1, (discardVote sg ad vs s).2) := by
          rw [discardVote_cons, if_neg hv]
        rcases ih with ⟨hno, heq⟩ | ⟨l₁, w, l₂, rfl, hw₁, hw₂, heq⟩
        · refine .inl ⟨fun w hw => ?_, by rw [hstep, heq]⟩
          rcases List.mem_cons.mp hw with rfl | hw
          · exact hv
          · exact hno w hw
        · exact .inr ⟨v :: l₁, w, l₂, rfl, hw₁, hw₂, by rw [hstep, heq]; rfl⟩

theorem discardVote_sublist (sg ad : A) (vs : List (Vote A)) (s : Snapshot A) :
    (discardVote sg ad vs s).1.Sublist vs := by
  rcases discardVote_spec sg ad vs s with ⟨-, heq⟩ | ⟨l₁, v, l₂, rfl, -, -, heq⟩
  · rw [heq]
  · rw [heq]
    exact List.Sublist.append_left (List.sublist_cons_self v l₂) l₁

/-- With one vote at most per signer and address, the signer has no vote on
the address left. -/
theorem discardVote_fresh {sg ad : A} {vs : List (Vote A)} (hnd : (vs.map Vote.key).Nodup) (s : Snapshot A) :
    ∀ w ∈ (discardVote sg ad vs s).1, w.key ≠ (sg, ad) := by
  rcases discardVote_spec sg ad vs s with ⟨hno, heq⟩ | ⟨l₁, v, l₂, rfl, hv₁, hv₂, heq⟩
  · rw [heq]
    intro w hw hkey
    simp only [Vote.key, Prod.mk.injEq] at hkey
    exact hno w hw hkey
  · rw [heq]
    intro w hw hkey
    have hvkey : v.key = (sg, ad) := by simp [Vote.key, hv₁, hv₂]
    simp only [List.map_append, List.map_cons, List.nodup_append, List.nodup_cons] at hnd
    rcases List.mem_append.mp hw with hw | hw
    · exact hnd.2.2 _ (List.mem_map_of_mem hw) _ List.mem_cons_self (hkey.trans hvkey.symm)
    · exact hnd.2.1.1 (hvkey ▸ hkey ▸ List.mem_map_of_mem hw)

/-- The second loop changes the tally of the snapshot only.

The loop goes on from the snapshot `uncast` left, which differs in its tally
only. -/
theorem discardVotes_snd (c : A) (vs : List (Vote A)) (s : Snapshot A) :
    (discardVotes c vs s).2 = { s with Tally := (discardVotes c vs s).2.Tally } := by
  induction vs generalizing s with
  | nil => rfl
  | cons v vs ih =>
      rw [discardVotes_cons]
      split_ifs
      · rw [ih, uncast_snd s]
      · exact ih s

@[simp] theorem discardVotes_Signers (c : A) (vs : List (Vote A)) (s : Snapshot A) :
    (discardVotes c vs s).2.Signers = s.Signers := by
  rw [discardVotes_snd]

@[simp] theorem discardVotes_Recents (c : A) (vs : List (Vote A)) (s : Snapshot A) :
    (discardVotes c vs s).2.Recents = s.Recents := by
  rw [discardVotes_snd]

@[simp] theorem discardVotes_Number (c : A) (vs : List (Vote A)) (s : Snapshot A) :
    (discardVotes c vs s).2.Number = s.Number := by
  rw [discardVotes_snd]

/-- The second loop keeps the votes of the other signers. -/
theorem discardVotes_fst (c : A) (vs : List (Vote A)) (s : Snapshot A) :
    (discardVotes c vs s).1 = vs.filter (·.Signer ≠ c) := by
  induction vs generalizing s with
  | nil => rfl
  | cons v vs ih =>
      by_cases hv : v.Signer = c
      · simp [discardVotes_cons, hv, ih]
      · simp [discardVotes_cons, hv, ih]

end Snapshot

/-! ## What the loops keep -/

theorem Fits.discardVote {s : Snapshot A} (sg ad : A) (h : Fits s.Tally s.Votes) :
    Fits (Snapshot.discardVote sg ad s.Votes s).2.Tally (Snapshot.discardVote sg ad s.Votes s).1 := by
  rcases Snapshot.discardVote_spec sg ad s.Votes s with ⟨-, heq⟩ | ⟨l₁, v, l₂, hvs, -, -, heq⟩
  · rw [heq]
    exact h
  · rw [heq]
    rw [hvs] at h
    exact Fits.removeVote h

theorem DirOk.discardVote {s : Snapshot A} {S : Finset A} {a : A} (sg ad : A) (vs : List (Vote A))
    (h : DirOk s.Tally S a) : DirOk (Snapshot.discardVote sg ad vs s).2.Tally S a := by
  rcases Snapshot.discardVote_spec sg ad vs s with ⟨-, heq⟩ | ⟨l₁, v, l₂, -, -, -, heq⟩
  · rw [heq]
    exact h
  · rw [heq]
    exact h.uncast

/-- The votes the second loop has passed over stay in front, as `pre`.

The vote is taken back, and the loop goes on from the tally without it. -/
theorem Fits.discardVotes (c : A) :
    ∀ (vs pre : List (Vote A)) (s : Snapshot A), Fits s.Tally (pre ++ vs) →
      Fits (Snapshot.discardVotes c vs s).2.Tally (pre ++ (Snapshot.discardVotes c vs s).1)
  | [], pre, s, h => by simpa [Snapshot.discardVotes_nil] using h
  | v :: vs, pre, s, h => by
      by_cases hv : v.Signer = c
      · rw [Snapshot.discardVotes_cons, if_pos hv]
        exact Fits.discardVotes c vs pre _ (Fits.removeVote h)
      · rw [Snapshot.discardVotes_cons, if_neg hv]
        have hrest := Fits.discardVotes c vs (pre ++ [v]) s (by simpa using h)
        simpa using hrest

theorem DirOk.discardVotes {S : Finset A} {a : A} (c : A) :
    ∀ (vs : List (Vote A)) (s : Snapshot A), DirOk s.Tally S a → DirOk (Snapshot.discardVotes c vs s).2.Tally S a
  | [], s, h => h
  | v :: vs, s, h => by
      by_cases hv : v.Signer = c
      · rw [Snapshot.discardVotes_cons, if_pos hv]
        exact DirOk.discardVotes c vs _ h.uncast
      · rw [Snapshot.discardVotes_cons, if_neg hv]
        exact DirOk.discardVotes c vs s h

namespace Snapshot

/-! ## The invariant, and the blocks of a header that keep it -/

/-- What the votes and the tally of a snapshot keep. -/
structure VotesOk (s : Snapshot A) : Prop where
  fits : Fits s.Tally s.Votes
  dir : ∀ a, DirOk s.Tally s.Signers a
  nodup : (s.Votes.map Vote.key).Nodup
  signer_mem : ∀ v ∈ s.Votes, v.Signer ∈ s.Signers

/-- What the recent signers of a snapshot at block `number` keep: they are
distinct, and their blocks lie in the window of the last `|Signers|/2 + 1`
blocks. -/
structure RecentsOk (s : Snapshot A) (number : Nat) : Prop where
  nodup : (s.Recents.entries.map Sigma.snd).Nodup
  window : ∀ k ∈ s.Recents, k ≤ number ∧ number < k + (s.Signers.card / 2 + 1)

/-- The invariant of the snapshots of a run, at block `number`. -/
structure Ok (s : Snapshot A) (number : Nat) : Prop where
  votes : s.VotesOk
  recents : s.RecentsOk number

theorem VotesOk.congr {s s' : Snapshot A} (h : s.VotesOk) (hT : s'.Tally = s.Tally) (hV : s'.Votes = s.Votes)
    (hS : s'.Signers = s.Signers) : s'.VotesOk := by
  obtain ⟨hfits, hdir, hnd, hsg⟩ := h
  rw [← hT, ← hV, ← hS] at *
  exact ⟨hfits, hdir, hnd, hsg⟩

theorem RecentsOk.congr {s s' : Snapshot A} {N : Nat} (h : s.RecentsOk N) (hS : s'.Signers = s.Signers)
    (hR : s'.Recents = s.Recents) : s'.RecentsOk N := by
  refine ⟨hR ▸ h.nodup, fun k hk => ?_⟩
  rw [hS]
  exact h.window k (hR ▸ hk)

/-- The epoch reset changes the votes and the tally only. -/
theorem resetEpoch_eq (e N : Nat) (s : Snapshot A) :
    resetEpoch e N s = { s with Votes := (resetEpoch e N s).Votes, Tally := (resetEpoch e N s).Tally } := by
  unfold resetEpoch
  split_ifs <;> rfl

@[simp] theorem resetEpoch_Signers (e N : Nat) (s : Snapshot A) : (resetEpoch e N s).Signers = s.Signers := by
  rw [resetEpoch_eq]

@[simp] theorem resetEpoch_Recents (e N : Nat) (s : Snapshot A) : (resetEpoch e N s).Recents = s.Recents := by
  rw [resetEpoch_eq]

@[simp] theorem resetEpoch_Number (e N : Nat) (s : Snapshot A) : (resetEpoch e N s).Number = s.Number := by
  rw [resetEpoch_eq]

/-- Trimming changes the recent signers only. -/
theorem trimRecents_eq (N : Nat) (s : Snapshot A) :
    trimRecents N s = { s with Recents := (trimRecents N s).Recents } := by
  unfold trimRecents
  dsimp only
  split_ifs <;> rfl

@[simp] theorem trimRecents_Signers (N : Nat) (s : Snapshot A) : (trimRecents N s).Signers = s.Signers := by
  rw [trimRecents_eq]

@[simp] theorem trimRecents_Votes (N : Nat) (s : Snapshot A) : (trimRecents N s).Votes = s.Votes := by
  rw [trimRecents_eq]

@[simp] theorem trimRecents_Tally (N : Nat) (s : Snapshot A) : (trimRecents N s).Tally = s.Tally := by
  rw [trimRecents_eq]

@[simp] theorem trimRecents_Number (N : Nat) (s : Snapshot A) : (trimRecents N s).Number = s.Number := by
  rw [trimRecents_eq]

theorem mem_trimRecents {N k : Nat} {s : Snapshot A} (h : k ∈ (trimRecents N s).Recents) : k ∈ s.Recents := by
  unfold trimRecents at h
  dsimp only at h
  split_ifs at h
  · exact (AList.mem_erase.mp h).2
  · exact h

/-- Casting a vote changes the votes and the tally only. -/
theorem castVote_eq (sg : A) (n : Nat) (ad : A) (b : Bool) (s : Snapshot A) :
    castVote sg n ad b s =
      { s with Votes := (castVote sg n ad b s).Votes, Tally := (castVote sg n ad b s).Tally } := by
  unfold castVote
  split_ifs <;> rw [cast_snd]

@[simp] theorem castVote_Signers (sg : A) (n : Nat) (ad : A) (b : Bool) (s : Snapshot A) :
    (castVote sg n ad b s).Signers = s.Signers := by
  rw [castVote_eq]

@[simp] theorem castVote_Recents (sg : A) (n : Nat) (ad : A) (b : Bool) (s : Snapshot A) :
    (castVote sg n ad b s).Recents = s.Recents := by
  rw [castVote_eq]

@[simp] theorem castVote_Number (sg : A) (n : Nat) (ad : A) (b : Bool) (s : Snapshot A) :
    (castVote sg n ad b s).Number = s.Number := by
  rw [castVote_eq]

@[simp] theorem passVote_Number (N : Nat) (c : A) (s : Snapshot A) : (passVote N c s).Number = s.Number := by
  unfold passVote
  dsimp only
  split_ifs <;> simp

theorem VotesOk.resetEpoch {s : Snapshot A} (h : s.VotesOk) (epoch number : Nat) :
    (Snapshot.resetEpoch epoch number s).VotesOk := by
  unfold Snapshot.resetEpoch
  split_ifs
  · exact ⟨Fits.empty, fun a t ht => by simp at ht, List.nodup_nil, fun v hv => by simp at hv⟩
  · exact h

theorem Ok.resetEpoch {s : Snapshot A} {n : Nat} (h : s.Ok n) (epoch number : Nat) :
    (Snapshot.resetEpoch epoch number s).Ok n :=
  ⟨h.votes.resetEpoch epoch number, h.recents.congr (by simp) (by simp)⟩

/-- Trimming the block that falls out of the window at `N`, from recent
signers whose blocks are at most one block out of it. -/
theorem RecentsOk.trimRecents {s : Snapshot A} {N : Nat} (hnd : (s.Recents.entries.map Sigma.snd).Nodup)
    (hw : ∀ k ∈ s.Recents, k ≤ N ∧ N ≤ k + (s.Signers.card / 2 + 1)) :
    (Snapshot.trimRecents N s).RecentsOk N := by
  unfold Snapshot.trimRecents
  dsimp only
  split_ifs with hN
  · refine ⟨hnd.sublist ((List.kerase_sublist _ _).map _), fun k hk => ?_⟩
    obtain ⟨hne, hk⟩ := AList.mem_erase.mp hk
    have hwk := hw k hk
    show k ≤ N ∧ N < k + (s.Signers.card / 2 + 1)
    exact ⟨hwk.1, by omega⟩
  · exact ⟨hnd, fun k hk => ⟨(hw k hk).1, by omega⟩⟩

/-- The first block of a header at `n + 1`: the block leaving the window is
trimmed. -/
theorem Ok.trimRecents_succ {s : Snapshot A} {n : Nat} (h : s.Ok n) :
    (Snapshot.trimRecents (n + 1) s).Ok (n + 1) := by
  refine ⟨h.votes.congr (by simp) (by simp) (by simp), RecentsOk.trimRecents h.recents.nodup fun k hk => ?_⟩
  · have hwk := h.recents.window k hk
    omega

/-- Recording the signer of block `N`, not a recent signer. -/
theorem Ok.insertRecent {s : Snapshot A} {N : Nat} (h : s.Ok N) (signer : A) (hN : N ∉ s.Recents)
    (hs : s.Recents.entries.any (·.2 = signer) = false) :
    ({ s with Recents := s.Recents.insert N signer } : Snapshot A).Ok N := by
  refine ⟨h.votes.congr rfl rfl rfl, ⟨?_, fun k hk => ?_⟩⟩
  · show ((s.Recents.insert N signer).entries.map Sigma.snd).Nodup
    rw [AList.entries_insert_of_notMem hN, List.map_cons, List.nodup_cons]
    refine ⟨fun hmem => ?_, h.recents.nodup⟩
    obtain ⟨e, he, heq⟩ := List.mem_map.mp hmem
    have hne := List.any_eq_false.mp hs e he
    exact hne (by simp [heq])
  · rcases (AList.mem_insert _).mp hk with rfl | hk
    · exact ⟨le_refl _, by omega⟩
    · exact h.recents.window k hk

/-- The first loop over the votes; afterwards the signer has no vote on the
address. -/
theorem Ok.discardVote {s : Snapshot A} {N : Nat} (h : s.Ok N) (sg ad : A) :
    ({ (Snapshot.discardVote sg ad s.Votes s).2 with Votes := (Snapshot.discardVote sg ad s.Votes s).1 } :
      Snapshot A).Ok N := by
  have hsub := discardVote_sublist sg ad s.Votes s
  refine ⟨⟨Fits.discardVote sg ad h.votes.fits, fun a => ?_, h.votes.nodup.sublist (hsub.map _),
    fun v hv => ?_⟩, h.recents.congr (by simp) (by simp)⟩
  · show DirOk _ (Snapshot.discardVote sg ad s.Votes s).2.Signers a
    rw [discardVote_Signers]
    exact (h.votes.dir a).discardVote sg ad s.Votes
  · show v.Signer ∈ (Snapshot.discardVote sg ad s.Votes s).2.Signers
    rw [discardVote_Signers]
    exact h.votes.signer_mem v (hsub.subset hv)

/-- Casting the vote of a signer that has none on the address. -/
theorem VotesOk.castVote {s : Snapshot A} (h : s.VotesOk) {signer address : A} (number : Nat)
    (authorize : Bool) (hfresh : ∀ v ∈ s.Votes, v.key ≠ (signer, address)) (hsigner : signer ∈ s.Signers) :
    (Snapshot.castVote signer number address authorize s).VotesOk := by
  unfold Snapshot.castVote
  split_ifs with hc
  · have hv : s.validVote address authorize = true := by rwa [cast_fst] at hc
    refine ⟨Fits.cast (⟨signer, number, address, authorize⟩ : Vote A) h.fits (h.dir address) hv, fun a => ?_, ?_,
      fun v hv' => ?_⟩
    · show DirOk (s.cast address authorize).2.Tally (s.cast address authorize).2.Signers a
      rw [cast_Signers]
      exact (h.dir a).cast hv
    · show ((s.Votes ++ [(⟨signer, number, address, authorize⟩ : Vote A)]).map Vote.key).Nodup
      rw [List.map_append, List.nodup_append]
      refine ⟨h.nodup, List.nodup_singleton _, fun x hx y hy => ?_⟩
      obtain ⟨w, hw, rfl⟩ := List.mem_map.mp hx
      rw [List.mem_singleton.mp hy]
      exact hfresh w hw
    · show v.Signer ∈ (s.cast address authorize).2.Signers
      rw [cast_Signers]
      rcases List.mem_append.mp hv' with hv' | hv'
      · exact h.signer_mem v hv'
      · rw [List.mem_singleton.mp hv']
        exact hsigner
  · rw [cast_of_invalid (by simpa [cast_fst] using hc)]
    exact h

theorem Ok.castVote {s : Snapshot A} {N : Nat} (h : s.Ok N) {signer address : A} (number : Nat)
    (authorize : Bool) (hfresh : ∀ v ∈ s.Votes, v.key ≠ (signer, address)) (hsigner : signer ∈ s.Signers) :
    (Snapshot.castVote signer number address authorize s).Ok N :=
  ⟨h.votes.castVote number authorize hfresh hsigner, h.recents.congr (by simp) (by simp)⟩

/-- The last step of a passed vote: the votes on `c` and its tally are
dropped, so the direction of `c` need not hold before it. -/
theorem VotesOk.dropAddress {s : Snapshot A} (c : A) (hfits : Fits s.Tally s.Votes)
    (hdir : ∀ a, a ≠ c → DirOk s.Tally s.Signers a) (hnd : (s.Votes.map Vote.key).Nodup)
    (hsg : ∀ v ∈ s.Votes, v.Signer ∈ s.Signers) :
    ({ s with Votes := s.Votes.filter (·.Address ≠ c), Tally := s.Tally.erase c } : Snapshot A).VotesOk := by
  refine ⟨hfits.dropAddress c, fun a => ?_, hnd.sublist (List.filter_sublist.map _),
    fun v hv => hsg v (List.mem_of_mem_filter hv)⟩
  by_cases ha : a = c
  · rw [ha]
    exact DirOk.erase_self _ _ c
  · exact (hdir a ha).erase c


/-- A vote that passes: an authorized address joins the signers, and the
window can only grow; a deauthorized one leaves them, its votes are taken
back, and the window shrinks by one block at most, which `trimRecents`
takes off.

The snapshot after `c` has left the signers and the window is trimmed. The
other addresses keep their membership, and `discardVotes` their directions. -/
theorem Ok.passVote {s : Snapshot A} {N : Nat} (h : s.Ok N) (c : A) : (Snapshot.passVote N c s).Ok N := by
  unfold Snapshot.passVote
  dsimp only
  split_ifs with hpass hauth
  · refine ⟨VotesOk.dropAddress c h.votes.fits (fun a ha t ht => ?_) h.votes.nodup
      (fun v hv => Finset.mem_insert_of_mem (h.votes.signer_mem v hv)), ⟨h.recents.nodup, fun k hk => ?_⟩⟩
    · show t.Authorize = decide (a ∉ insert c s.Signers)
      rw [h.votes.dir a t ht]
      simp [Finset.mem_insert, ha]
    · have hwk := h.recents.window k hk
      have hcard : s.Signers.card ≤ (insert c s.Signers).card :=
        Finset.card_le_card (Finset.subset_insert c s.Signers)
      show k ≤ N ∧ N < k + ((insert c s.Signers).card / 2 + 1)
      exact ⟨hwk.1, by omega⟩
  · have hcard : s.Signers.card - 1 ≤ (s.Signers.erase c).card := Finset.pred_card_le_card_erase
    have hrec : (Snapshot.trimRecents N { s with Signers := s.Signers.erase c }).RecentsOk N :=
      RecentsOk.trimRecents h.recents.nodup fun k hk => by
        have hwk := h.recents.window k hk
        show k ≤ N ∧ N ≤ k + ((s.Signers.erase c).card / 2 + 1)
        exact ⟨hwk.1, by omega⟩
    have hfits := Fits.discardVotes c s.Votes []
      (Snapshot.trimRecents N { s with Signers := s.Signers.erase c }) (by simpa using h.votes.fits)
    rw [List.nil_append] at hfits
    refine ⟨VotesOk.dropAddress c (by simpa using hfits) (fun a ha => ?_) ?_ (fun v hv => ?_),
      hrec.congr (by simp) (by simp)⟩
    · simp only [trimRecents_Votes, discardVotes_Signers, trimRecents_Signers]
      refine DirOk.discardVotes c s.Votes _ fun t ht => ?_
      rw [trimRecents_Tally] at ht
      rw [h.votes.dir a t ht]
      simp [Finset.mem_erase, ha]
    · simp only [trimRecents_Votes, discardVotes_fst]
      exact h.votes.nodup.sublist (List.filter_sublist.map _)
    · simp only [trimRecents_Votes, discardVotes_fst, List.mem_filter, decide_eq_true_eq] at hv
      simp only [discardVotes_Signers, trimRecents_Signers, Finset.mem_erase]
      exact ⟨hv.2, h.votes.signer_mem v hv.1⟩
  · exact h

/-- One header, at the block after the snapshot's; the snapshot's own
number is left to `apply`.

The blocks of the loop body, in turn. -/
theorem Ok.applyHeader {ecrecover : Header A → Except CliqueError A} {epoch n : Nat} {s s' : Snapshot A}
    {header : Header A} (h : s.Ok n) (hnum : header.Number = n + 1)
    (happ : Snapshot.applyHeader ecrecover epoch s header = .ok s') : s'.Ok (n + 1) ∧ s'.Number = s.Number := by
  unfold Snapshot.applyHeader at happ
  dsimp only at happ
  rw [hnum] at happ
  split at happ
  · cases happ
  · rename_i signer _
    split_ifs at happ with hmem hrecent
    split at happ
    · cases happ
    · rename_i authorize _
      cases happ
      have h₁ := (h.resetEpoch epoch (n + 1)).trimRecents_succ
      have hN : n + 1 ∉ (Snapshot.trimRecents (n + 1) (Snapshot.resetEpoch epoch (n + 1) s)).Recents := by
        intro hk
        have hwk := (h.recents.window _ (by simpa using mem_trimRecents hk)).1
        omega
      have h₂ := (h₁.insertRecent signer hN (Bool.eq_false_iff.mpr hrecent)).discardVote signer header.Coinbase
      have h₃ := h₂.castVote (n + 1) authorize (discardVote_fresh h₁.votes.nodup _) (by simpa using hmem)
      exact ⟨h₃.passVote header.Coinbase, by simp⟩

end Snapshot

/-! ## Chains of headers, and the runs from a checkpoint -/

omit [LinearOrder A] in
theorem chained_cons {d : Header A} {l : List (Header A)} (h : chained (d :: l) = true) :
    chained l = true ∧ ∀ e ∈ l.head?, e.Number = d.Number + 1 := by
  cases l with
  | nil => exact ⟨rfl, by simp⟩
  | cons e l =>
      simp only [chained, Bool.and_eq_true, beq_iff_eq] at h
      exact ⟨h.2, by simpa using h.1⟩

omit [LinearOrder A] in
/-- In a chain, a header's number is the first one's plus its position. -/
theorem chained_number : ∀ (done : List (Header A)) {x : Header A} {rest : List (Header A)},
    chained (done ++ x :: rest) = true →
      ∀ h₀ ∈ (done ++ x :: rest).head?, x.Number = h₀.Number + done.length
  | [], x, rest, _, h₀, hh => by
      simp only [List.nil_append, List.head?_cons, Option.mem_def, Option.some.injEq] at hh
      simp [hh]
  | d :: done, x, rest, hch, h₀, hh => by
      simp only [List.cons_append, List.head?_cons, Option.mem_def, Option.some.injEq] at hh
      subst hh
      obtain ⟨hch', hnext⟩ := chained_cons hch
      obtain ⟨e, he⟩ : ∃ e, (done ++ x :: rest).head? = some e := Option.ne_none_iff_exists'.mp (by simp)
      have hx := chained_number done hch' e he
      have he' := hnext e he
      simp only [List.length_cons]
      omega

namespace Snapshot

/-- The loop of `apply`, over a chain from the block after the snapshot's.

The header at position `done.length` is at block `n + done.length + 1`. -/
theorem Ok.foldlM {ecrecover : Header A → Except CliqueError A} {epoch n : Nat} {headers : List (Header A)}
    {s s' : Snapshot A} (h : s.Ok n) (hch : chained headers = true)
    (hfirst : ∀ h₀ ∈ headers.head?, h₀.Number = n + 1)
    (hfold : headers.foldlM (Snapshot.applyHeader ecrecover epoch) s = .ok s') :
    s'.Ok (n + headers.length) ∧ s'.Number = s.Number := by
  refine Loop.foldlM_ok_invariant (Snapshot.applyHeader ecrecover epoch)
    (fun done t => t.Ok (n + done.length) ∧ t.Number = s.Number) ⟨h, rfl⟩ ?_ hfold
  intro done x rest t t₁ hsplit ⟨hok, hnum⟩ hstep
  have hx : x.Number = n + done.length + 1 := by
    rw [hsplit] at hch hfirst
    obtain ⟨h₀, hh⟩ : ∃ h₀, (done ++ x :: rest).head? = some h₀ := Option.ne_none_iff_exists'.mp (by simp)
    have hpos := chained_number done hch h₀ hh
    have h₀num := hfirst h₀ hh
    omega
  obtain ⟨hok₁, hnum₁⟩ := hok.applyHeader hx hstep
  refine ⟨?_, hnum₁.trans hnum⟩
  rw [List.length_append, List.length_singleton, ← Nat.add_assoc]
  exact hok₁

/-- `apply` only moves the number on. -/
theorem Ok.apply {ecrecover : Header A → Except CliqueError A} {config : CliqueConfig} {s s' : Snapshot A}
    {headers : List (Header A)} (h : s.Ok s.Number) (happ : s.apply ecrecover config headers = .ok s') :
    s'.Ok s'.Number := by
  unfold Snapshot.apply at happ
  split at happ
  · cases happ
    exact h
  · rename_i h₀ tl
    split_ifs at happ with hch hfirst
    cases hfold : (h₀ :: tl).foldlM (Snapshot.applyHeader ecrecover config.Epoch) s with
    | error e =>
        rw [hfold] at happ
        cases happ
    | ok snap =>
        rw [hfold] at happ
        cases happ
        obtain ⟨hok, hnum⟩ := h.foldlM (by simpa using hch) (fun e he => by cases he; omega) hfold
        show Ok { snap with Number := snap.Number + (h₀ :: tl).length } (snap.Number + (h₀ :: tl).length)
        rw [hnum]
        exact ⟨hok.votes.congr rfl rfl rfl, hok.recents.congr rfl rfl⟩

end Snapshot

/-- The snapshots a run reaches: a checkpoint with any signers, then
`apply` over chains of headers. -/
inductive Reachable (ecrecover : Header A → Except CliqueError A) (config : CliqueConfig) :
    Snapshot A → Prop
  | checkpoint (number : Nat) (signers : List A) : Reachable ecrecover config (newSnapshot number signers)
  | apply {s s' : Snapshot A} (headers : List (Header A)) :
      Reachable ecrecover config s → s.apply ecrecover config headers = .ok s' → Reachable ecrecover config s'

theorem newSnapshot_ok (number : Nat) (signers : List A) : (newSnapshot number signers).Ok number :=
  ⟨⟨Fits.empty, fun a t ht => by simp [newSnapshot] at ht, List.nodup_nil, fun v hv => by simp [newSnapshot] at hv⟩,
    ⟨List.nodup_nil, fun k hk => by simp [newSnapshot] at hk⟩⟩

theorem Reachable.ok {ecrecover : Header A → Except CliqueError A} {config : CliqueConfig} {s : Snapshot A}
    (h : Reachable ecrecover config s) : s.Ok s.Number := by
  induction h with
  | checkpoint number signers => exact newSnapshot_ok number signers
  | apply headers _ happ ih => exact ih.apply happ

/-! ## The signer in turn -/

/-- With the signers listed without duplicates and at least one signer,
exactly one signer is in turn at every height: the one at place
`number % n` among the `n` sorted signers. -/
theorem inturn_existsUnique {keys : List A} {S : Finset A} (hnd : keys.Nodup) (hkeys : ∀ a, a ∈ keys ↔ a ∈ S)
    (hne : S.Nonempty) (number : Nat) : ∃! a, a ∈ S ∧ inturn keys number a = some true := by
  have hperm : List.Perm (signers keys) keys := ExchangeSort.sort_perm keys
  have hnd' : (signers keys).Nodup := hperm.nodup_iff.mpr hnd
  have hmem : ∀ a, a ∈ signers keys ↔ a ∈ S := fun a => hperm.mem_iff.trans (hkeys a)
  have hpos : 0 < (signers keys).length := by
    obtain ⟨a, ha⟩ := hne
    exact List.length_pos_of_mem ((hmem a).mpr ha)
  have hturn : ∀ a, inturn keys number a =
      some (number % (signers keys).length == (signers keys).idxOf a) := fun a => by
    simp [inturn, hpos.ne']
  have hi : number % (signers keys).length < (signers keys).length := Nat.mod_lt _ hpos
  refine ⟨(signers keys)[number % (signers keys).length], ⟨(hmem _).mp (List.getElem_mem hi), ?_⟩, ?_⟩
  · rw [hturn, List.Nodup.idxOf_getElem hnd' _ hi]
    simp
  · rintro a ⟨ha, hta⟩
    rw [hturn] at hta
    have hidx : number % (signers keys).length = (signers keys).idxOf a := by simpa using hta
    rw [← List.idxOf_inj ((hmem a).mpr ha), List.Nodup.idxOf_getElem hnd' _ hi]
    exact hidx.symm

/-- The invariant of the snapshots a run reaches from a checkpoint, and the
order of the signers: strictly ascending, so that, while there is a signer,
exactly one is in turn at every height. -/
theorem clique_snapshot_invariant {ecrecover : Header A → Except CliqueError A} {config : CliqueConfig}
    {s : Snapshot A} (h : Reachable ecrecover config s) :
    s.Ok s.Number ∧ ∀ keys : List A, keys.Nodup → (∀ a, a ∈ keys ↔ a ∈ s.Signers) →
      (signers keys).Pairwise (· < ·) ∧
        (s.Signers.Nonempty → ∀ number, ∃! a, a ∈ s.Signers ∧ inturn keys number a = some true) :=
  ⟨h.ok, fun _ hnd hkeys =>
    ⟨ExchangeSort.sort_strict hnd, fun hne number => inturn_existsUnique hnd hkeys hne number⟩⟩

/-- The engine's configuration with the default epoch of `New`. -/
def defaultConfig : CliqueConfig := ⟨30000, by decide⟩

/-- Three signers, each block sealed by the signer of its number: blocks 1
and 2 vote the address 4 in, which passes with two of three votes, and
block 3 casts a vote on 5 that is still pending among four signers. -/
theorem clique_snapshot_invariant_votes :
    ∃ s : Snapshot Nat, Reachable (fun h => .ok h.Number) defaultConfig s ∧
      s.Signers = {1, 2, 3, 4} ∧ s.Votes = [⟨3, 3, 5, true⟩] ∧
      (s.Ok s.Number ∧ ∀ keys : List Nat, keys.Nodup → (∀ a, a ∈ keys ↔ a ∈ s.Signers) →
        (signers keys).Pairwise (· < ·) ∧
          (s.Signers.Nonempty → ∀ number, ∃! a, a ∈ s.Signers ∧ inturn keys number a = some true)) := by
  have happ : (Snapshot.apply (fun h => .ok h.Number) defaultConfig (newSnapshot 0 [1, 2, 3])
      [⟨1, 4, nonceAuthVote, []⟩, ⟨2, 4, nonceAuthVote, []⟩, ⟨3, 5, nonceAuthVote, []⟩]).map
        (fun s => (s.Signers, s.Votes)) = .ok ({4, 1, 2, 3}, [⟨3, 3, 5, true⟩]) := by
    decide +kernel
  cases hs : Snapshot.apply (fun h => .ok h.Number) defaultConfig (newSnapshot 0 [1, 2, 3])
      [⟨1, 4, nonceAuthVote, []⟩, ⟨2, 4, nonceAuthVote, []⟩, ⟨3, 5, nonceAuthVote, []⟩] with
  | error e =>
      rw [hs] at happ
      cases happ
  | ok s =>
      rw [hs] at happ
      obtain ⟨hS, hV⟩ := Prod.mk.inj (Except.ok.inj happ)
      have hS' : s.Signers = {1, 2, 3, 4} := hS.trans (by decide)
      have hr : Reachable (fun h => .ok h.Number) defaultConfig s := .apply _ (.checkpoint 0 [1, 2, 3]) hs
      exact ⟨s, hr, hS', hV, clique_snapshot_invariant hr⟩

/-- A sole signer votes itself out at block 1: the snapshot reached has no
signers, and no signer is in turn at any height (the source's `inturn`
divides by zero there). -/
theorem sole_signer_votes_itself_out :
    ∃ s : Snapshot Nat, Reachable (fun _ => .ok 1) defaultConfig s ∧ s.Signers = ∅ ∧
      ∀ keys : List Nat, (∀ a, a ∈ keys ↔ a ∈ s.Signers) →
        ∀ number, ¬ ∃ a, a ∈ s.Signers ∧ inturn keys number a = some true := by
  have happ : (Snapshot.apply (fun _ => .ok 1) defaultConfig (newSnapshot 0 [1])
      [⟨1, 1, nonceDropVote, []⟩]).map (·.Signers) = .ok ∅ := by decide +kernel
  cases hs : Snapshot.apply (fun _ => .ok 1) defaultConfig (newSnapshot 0 [1]) [⟨1, 1, nonceDropVote, []⟩] with
  | error e =>
      rw [hs] at happ
      cases happ
  | ok s =>
      rw [hs] at happ
      have hS : s.Signers = ∅ := Except.ok.inj happ
      refine ⟨s, .apply _ (.checkpoint 0 [1]) hs, hS, fun keys _ number ⟨a, ha, _⟩ => ?_⟩
      rw [hS] at ha
      simp at ha

end Lemochain.Clique
