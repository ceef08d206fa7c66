import Mathlib.Data.Int.ConditionallyCompleteOrder
import Mathlib.Order.ConditionallyCompleteLattice.Basic
import Lemochain.Core.State.StateDB
import Lemochain.Lib.Loop

/-!
# Copies of the state database

What the accessors of a `StateDB` return at an address is `lookup`: the data
and suicide flag of the live object unless it is deleted, or else the
account of the trie. `Copy` keeps the trie and deep copies of the dirty
objects only, so the copy sees what the state sees exactly when every live
object that is not dirty is the trie's account as it was loaded. That is
half of the invariant `Inv`; the other half is that every dirty address has a
live object.

Every public setter, `Finalise` and `Copy` keep `Inv`, because a loaded
object keeps its `onDirty` callback until its first change, and that change
makes it dirty. `DeleteSuicides` breaks it: it empties the dirty set and
writes nothing to the trie, and the objects keep no callback to mark them
dirty again.

## Main results

* `Reachable.inv`: the invariant holds of every state built by the setters,
  the accessors, `Finalise` and `Copy`.
* `Copy_observationally_equal`: there a copy answers every accessor as the
  state does, and has the same intermediate root.
* `lookup_Copy_DeleteSuicides`: after `DeleteSuicides` a copy sees the trie
  only, whatever the live objects hold.
* `Copy_after_DeleteSuicides_diverges`: a balance added before
  `DeleteSuicides` is missing from the copy.
-/

namespace Lemochain.State

open Lemochain.Loop

namespace StateDB

variable {α : Type} [DecidableEq α]

/-! ## Pointwise descriptions of the updates -/

section Pointwise

variable (s : StateDB α) (addr a : α) (o : stateObject)

@[simp] theorem setStateObject_stateObjects :
    (s.setStateObject addr o).stateObjects a = if a = addr then some o else s.stateObjects a := rfl

@[simp] theorem setStateObject_trie : (s.setStateObject addr o).trie = s.trie := rfl

@[simp] theorem setStateObject_stateObjectsDirty :
    (s.setStateObject addr o).stateObjectsDirty = s.stateObjectsDirty := rfl

@[simp] theorem setStateObject_refund : (s.setStateObject addr o).refund = s.refund := rfl

@[simp] theorem MarkStateObjectDirty_stateObjects :
    (s.MarkStateObjectDirty addr).stateObjects = s.stateObjects := by
  unfold MarkStateObjectDirty
  split <;> rfl

@[simp] theorem MarkStateObjectDirty_trie : (s.MarkStateObjectDirty addr).trie = s.trie := by
  unfold MarkStateObjectDirty
  split <;> rfl

@[simp] theorem MarkStateObjectDirty_refund : (s.MarkStateObjectDirty addr).refund = s.refund := by
  unfold MarkStateObjectDirty
  split <;> rfl

@[simp] theorem mem_MarkStateObjectDirty :
    a ∈ (s.MarkStateObjectDirty addr).stateObjectsDirty ↔ a = addr ∨ a ∈ s.stateObjectsDirty := by
  unfold MarkStateObjectDirty
  split
  · next h =>
      constructor
      · exact Or.inr
      · rintro (rfl | ha)
        · exact h
        · exact ha
  · simp

variable (r : stateObject × Bool)

@[simp] theorem writeBack_stateObjects :
    (s.writeBack addr r).stateObjects a = if a = addr then some r.1 else s.stateObjects a := by
  unfold writeBack
  split <;> simp

@[simp] theorem writeBack_trie : (s.writeBack addr r).trie = s.trie := by
  unfold writeBack
  split <;> simp

@[simp] theorem writeBack_refund : (s.writeBack addr r).refund = s.refund := by
  unfold writeBack
  split <;> simp

theorem mem_writeBack :
    a ∈ (s.writeBack addr r).stateObjectsDirty ↔ (r.2 = true ∧ a = addr) ∨ a ∈ s.stateObjectsDirty := by
  unfold writeBack
  split <;> simp_all

end Pointwise

/-! ## Reading an object -/

section Read

variable (s : StateDB α) (a : α)

/-- What `getStateObject` can do: return the live object, load the trie's
account into the live set, or find nothing. -/
theorem getStateObject_cases :
    (∃ o, s.stateObjects a = some o ∧ s.getStateObject a = (if o.deleted then none else some o, s)) ∨
    (∃ d, s.stateObjects a = none ∧ s.trie a = some d ∧
      s.getStateObject a = (some (newObject d true), s.setStateObject a (newObject d true))) ∨
    (s.stateObjects a = none ∧ s.trie a = none ∧ s.getStateObject a = (none, s)) := by
  cases ho : s.stateObjects a with
  | some o => exact Or.inl ⟨o, rfl, by simp [getStateObject, ho]⟩
  | none =>
      cases ht : s.trie a with
      | some d => exact Or.inr (Or.inl ⟨d, rfl, rfl, by simp [getStateObject, ho, ht]⟩)
      | none => exact Or.inr (Or.inr ⟨rfl, rfl, by simp [getStateObject, ho, ht]⟩)

@[simp] theorem getStateObject_trie : (s.getStateObject a).2.trie = s.trie := by
  rcases getStateObject_cases s a with ⟨o, -, h⟩ | ⟨d, -, -, h⟩ | ⟨-, -, h⟩ <;> simp [h]

@[simp] theorem getStateObject_stateObjectsDirty :
    (s.getStateObject a).2.stateObjectsDirty = s.stateObjectsDirty := by
  rcases getStateObject_cases s a with ⟨o, -, h⟩ | ⟨d, -, -, h⟩ | ⟨-, -, h⟩ <;> simp [h]

@[simp] theorem getStateObject_refund : (s.getStateObject a).2.refund = s.refund := by
  rcases getStateObject_cases s a with ⟨o, -, h⟩ | ⟨d, -, -, h⟩ | ⟨-, -, h⟩ <;> simp [h]

/-- The object returned is the one live after the read. -/
theorem getStateObject_found {o : stateObject} (h : (s.getStateObject a).1 = some o) :
    (s.getStateObject a).2.stateObjects a = some o := by
  rcases getStateObject_cases s a with ⟨o', ho, hg⟩ | ⟨d, -, -, hg⟩ | ⟨-, -, hg⟩
  · rw [hg] at h ⊢
    by_cases hd : o'.deleted
    · simp [hd] at h
    · simp only [hd] at h
      cases h
      exact ho
  · rw [hg] at h ⊢
    cases h
    simp
  · rw [hg] at h
    cases h

end Read

/-! ## What the accessors see -/

/-- What the accessors see at an address: the data and suicide flag of the
live object unless it is deleted, or else the trie's account. -/
def lookup (s : StateDB α) (a : α) : Option (Account × Bool) :=
  match s.stateObjects a with
  | some o => if o.deleted then none else some (o.data, o.suicided)
  | none => (s.trie a).map fun d => (d, false)

section Lookup

variable (s : StateDB α) (a : α)

theorem getStateObject_lookup : (s.getStateObject a).1.map (fun o => (o.data, o.suicided)) = s.lookup a := by
  rcases getStateObject_cases s a with ⟨o, ho, h⟩ | ⟨d, ho, ht, h⟩ | ⟨ho, ht, h⟩
  · rw [h, lookup, ho]
    by_cases hd : o.deleted <;> simp [hd]
  · rw [h, lookup, ho, ht]
    rfl
  · rw [h, lookup, ho, ht]
    rfl

theorem Exist_eq : (s.Exist a).1 = (s.lookup a).isSome := by
  rw [← getStateObject_lookup]
  unfold Exist
  cases s.getStateObject a with
  | mk obj s' => cases obj <;> rfl

theorem Empty_eq : (s.Empty a).1 =
    ((s.lookup a).map fun p => p.1.Nonce == 0 && p.1.Balance == 0 && p.1.CodeHash == emptyCodeHash).getD true := by
  rw [← getStateObject_lookup]
  unfold Empty
  cases s.getStateObject a with
  | mk obj s' => cases obj <;> rfl

theorem GetBalance_eq : (s.GetBalance a).1 = ((s.lookup a).map fun p => p.1.Balance).getD 0 := by
  rw [← getStateObject_lookup]
  unfold GetBalance
  cases s.getStateObject a with
  | mk obj s' => cases obj <;> rfl

theorem GetNonce_eq : (s.GetNonce a).1 = ((s.lookup a).map fun p => p.1.Nonce).getD 0 := by
  rw [← getStateObject_lookup]
  unfold GetNonce
  cases s.getStateObject a with
  | mk obj s' => cases obj <;> rfl

theorem HasSuicided_eq : (s.HasSuicided a).1 = ((s.lookup a).map fun p => p.2).getD false := by
  rw [← getStateObject_lookup]
  unfold HasSuicided
  cases s.getStateObject a with
  | mk obj s' => cases obj <;> rfl

/-- States that agree on `lookup` at an address agree on every accessor
there. -/
theorem accessors_of_lookup {t : StateDB α} (h : s.lookup a = t.lookup a) :
    (s.Exist a).1 = (t.Exist a).1 ∧ (s.Empty a).1 = (t.Empty a).1 ∧
    (s.GetBalance a).1 = (t.GetBalance a).1 ∧ (s.GetNonce a).1 = (t.GetNonce a).1 ∧
    (s.HasSuicided a).1 = (t.HasSuicided a).1 := by
  rw [Exist_eq, Exist_eq, Empty_eq, Empty_eq, GetBalance_eq, GetBalance_eq, GetNonce_eq, GetNonce_eq,
    HasSuicided_eq, HasSuicided_eq, h]
  exact ⟨rfl, rfl, rfl, rfl, rfl⟩

end Lookup


/-! ## Copying and finalising, pointwise -/

section Loops

/-- What the pass of `Finalise` leaves at its address: the trie's entry and
the live object. -/
def finaliseAt (d : Bool) : Option Account × Option stateObject → Option Account × Option stateObject
  | (_, some o) =>
    if o.suicided || (d && o.empty) then (none, some { o with deleted := true }) else (some o.data, some o)
  | (t, none) => (t, none)

/-- The pass of `DeleteSuicides` at a live object. -/
def deletedIfSuicided (o : stateObject) : stateObject := if o.suicided then { o with deleted := true } else o

@[simp] theorem deepCopy_data (o : stateObject) : o.deepCopy.data = o.data := rfl

@[simp] theorem deepCopy_suicided (o : stateObject) : o.deepCopy.suicided = o.suicided := rfl

@[simp] theorem deepCopy_deleted (o : stateObject) : o.deepCopy.deleted = o.deleted := rfl

@[simp] theorem deepCopy_empty (o : stateObject) : o.deepCopy.empty = o.empty := rfl

/-- Flagging the object deleted keeps what the test reads. -/
theorem finaliseAt_idem (d : Bool) (p : Option Account × Option stateObject) :
    finaliseAt d (finaliseAt d p) = finaliseAt d p := by
  obtain ⟨t, _ | o⟩ := p
  · rfl
  · have hsame : (({ o with deleted := true } : stateObject).suicided ||
        (d && ({ o with deleted := true } : stateObject).empty)) = (o.suicided || (d && o.empty)) := rfl
    by_cases hc : (o.suicided || (d && o.empty)) = true
    · simp only [finaliseAt, hc, if_true, hsame]
    · simp only [finaliseAt, hc, Bool.false_eq_true, if_false]

theorem finaliseAt_snd_isSome (d : Bool) (p : Option Account × Option stateObject) :
    (finaliseAt d p).2.isSome = p.2.isSome := by
  obtain ⟨t, _ | o⟩ := p
  · rfl
  · simp only [finaliseAt]
    split <;> rfl

/-- The trie entry `Finalise` writes reads only what a deep copy keeps. -/
theorem finaliseAt_deepCopy (d : Bool) (t : Option Account) (o : Option stateObject) :
    (finaliseAt d (t, o.map stateObject.deepCopy)).1 = (finaliseAt d (t, o)).1 := by
  cases o with
  | none => rfl
  | some o =>
      simp only [Option.map_some, finaliseAt, deepCopy_suicided, deepCopy_empty, deepCopy_data]
      by_cases hc : (o.suicided || (d && o.empty)) = true <;> simp [hc]

theorem finaliseObject_at (d : Bool) (s : StateDB α) (x a : α) :
    ((s.finaliseObject d x).trie a, (s.finaliseObject d x).stateObjects a) =
      if a = x then finaliseAt d (s.trie a, s.stateObjects a) else (s.trie a, s.stateObjects a) := by
  by_cases hax : a = x
  · subst hax
    unfold finaliseObject
    cases ho : s.stateObjects a with
    | none => simp [finaliseAt, ho]
    | some o =>
        by_cases hc : (o.suicided || (d && o.empty)) = true
        · simp [finaliseAt, hc, deleteStateObject]
        · simp [finaliseAt, hc, updateStateObject, ho]
  · unfold finaliseObject
    cases ho : s.stateObjects x with
    | none => simp [hax]
    | some o =>
        by_cases hc : (o.suicided || (d && o.empty)) = true
        · simp [hc, hax, deleteStateObject]
        · simp [hc, hax, updateStateObject]

/-- `Finalise` applies its pass once at every dirty address. -/
theorem Finalise_at (d : Bool) (s : StateDB α) (a : α) :
    ((s.Finalise d).trie a, (s.Finalise d).stateObjects a) =
      if a ∈ s.stateObjectsDirty then finaliseAt d (s.trie a, s.stateObjects a)
      else (s.trie a, s.stateObjects a) :=
  foldl_pointwise (finaliseObject d) (fun s a => (s.trie a, s.stateObjects a)) (fun _ => finaliseAt d)
    (finaliseObject_at d) (fun _ => finaliseAt_idem d) s.stateObjectsDirty s a

theorem Finalise_trie (d : Bool) (s : StateDB α) (a : α) :
    (s.Finalise d).trie a =
      if a ∈ s.stateObjectsDirty then (finaliseAt d (s.trie a, s.stateObjects a)).1 else s.trie a := by
  have h := congrArg Prod.fst (Finalise_at d s a)
  rw [apply_ite Prod.fst] at h
  exact h

theorem Finalise_stateObjects (d : Bool) (s : StateDB α) (a : α) :
    (s.Finalise d).stateObjects a =
      if a ∈ s.stateObjectsDirty then (finaliseAt d (s.trie a, s.stateObjects a)).2 else s.stateObjects a := by
  have h := congrArg Prod.snd (Finalise_at d s a)
  rw [apply_ite Prod.snd] at h
  exact h

@[simp] theorem Finalise_stateObjectsDirty (d : Bool) (s : StateDB α) :
    (s.Finalise d).stateObjectsDirty = s.stateObjectsDirty := by
  apply foldl_keeps (finaliseObject d) stateObjectsDirty
  intro t x
  unfold finaliseObject
  split
  · split <;> rfl
  · rfl

theorem copyObject_stateObjects (s c : StateDB α) (x a : α) :
    (copyObject s c x).stateObjects a =
      if a = x then ((s.stateObjects a).map stateObject.deepCopy).or (c.stateObjects a) else c.stateObjects a := by
  unfold copyObject
  by_cases hax : a = x
  · subst hax
    cases s.stateObjects a <;> simp
  · cases s.stateObjects x <;> simp [hax]

/-- The copy holds deep copies of the dirty objects and nothing else. -/
theorem Copy_stateObjects (s : StateDB α) (a : α) :
    s.Copy.stateObjects a = if a ∈ s.stateObjectsDirty then (s.stateObjects a).map stateObject.deepCopy else none := by
  have h := foldl_pointwise (copyObject s) (fun c a => c.stateObjects a)
    (fun a v => ((s.stateObjects a).map stateObject.deepCopy).or v) (copyObject_stateObjects s)
    (fun a v => by cases (s.stateObjects a).map stateObject.deepCopy <;> rfl) s.stateObjectsDirty
    ⟨s.trie, fun _ => none, [], s.refund⟩ a
  rw [Copy, h]
  simp

theorem mem_copyObject (s c : StateDB α) (x a : α) :
    a ∈ (copyObject s c x).stateObjectsDirty ↔ a = x ∨ a ∈ c.stateObjectsDirty := by
  unfold copyObject
  cases s.stateObjects x <;> simp

/-- The copy has the same dirty addresses. -/
theorem mem_Copy (s : StateDB α) (a : α) : a ∈ s.Copy.stateObjectsDirty ↔ a ∈ s.stateObjectsDirty := by
  have h := foldl_pointwise (copyObject s) (fun c a => decide (a ∈ c.stateObjectsDirty)) (fun _ _ => true)
    (fun c x a => by by_cases hax : a = x <;> simp [mem_copyObject, hax]) (fun _ _ => rfl)
    s.stateObjectsDirty ⟨s.trie, fun _ => none, [], s.refund⟩ a
  have hd : decide (a ∈ s.Copy.stateObjectsDirty) = decide (a ∈ s.stateObjectsDirty) := by
    rw [Copy, h]
    by_cases ha : a ∈ s.stateObjectsDirty <;> simp [ha]
  exact decide_eq_decide.mp hd

@[simp] theorem Copy_trie (s : StateDB α) : s.Copy.trie = s.trie := by
  apply foldl_keeps (copyObject s) trie
  intro c x
  unfold copyObject
  split <;> simp

@[simp] theorem Copy_refund (s : StateDB α) : s.Copy.refund = s.refund := by
  apply foldl_keeps (copyObject s) refund
  intro c x
  unfold copyObject
  split <;> simp

/-- Every copy has the intermediate root of its state, for either choice
of deleting empty objects. -/
theorem IntermediateRoot_Copy (s : StateDB α) (d : Bool) :
    (s.Copy.IntermediateRoot d).1 = (s.IntermediateRoot d).1 := by
  funext a
  show (s.Copy.Finalise d).trie a = (s.Finalise d).trie a
  rw [Finalise_trie, Finalise_trie, Copy_trie, Copy_stateObjects]
  by_cases ha : a ∈ s.stateObjectsDirty
  · rw [if_pos ((mem_Copy s a).mpr ha), if_pos ha, if_pos ha, finaliseAt_deepCopy]
  · rw [if_neg (mt (mem_Copy s a).mp ha), if_neg ha]

theorem deleteSuicide_stateObjects (s : StateDB α) (x a : α) :
    (s.deleteSuicide x).stateObjects a =
      if a = x then (s.stateObjects a).map deletedIfSuicided else s.stateObjects a := by
  unfold deleteSuicide
  by_cases hax : a = x
  · subst hax
    cases ho : s.stateObjects a with
    | none => simp [ho]
    | some o => by_cases hs : o.suicided = true <;> simp [hs, ho, deletedIfSuicided]
  · cases s.stateObjects x with
    | none => simp [hax]
    | some o => by_cases hs : o.suicided = true <;> simp [hs, hax]

theorem DeleteSuicides_stateObjects (s : StateDB α) (a : α) :
    s.DeleteSuicides.stateObjects a =
      if a ∈ s.stateObjectsDirty then (s.stateObjects a).map deletedIfSuicided else s.stateObjects a :=
  foldl_pointwise deleteSuicide (fun s a => s.stateObjects a) (fun _ o => o.map deletedIfSuicided)
    deleteSuicide_stateObjects
    (fun _ o => by
      cases o with
      | none => rfl
      | some o => by_cases hs : o.suicided = true <;> simp [deletedIfSuicided, hs])
    s.stateObjectsDirty s.clearJournalAndRefund a

@[simp] theorem DeleteSuicides_trie (s : StateDB α) : s.DeleteSuicides.trie = s.trie := by
  apply foldl_keeps deleteSuicide trie
  intro t x
  unfold deleteSuicide
  split
  · split <;> rfl
  · rfl

/-- Erasing every element of a list, in its order, from the list followed
by more leaves the more. -/
theorem foldl_erase_append (l m : List α) : l.foldl List.erase (l ++ m) = m := by
  induction l with
  | nil => rfl
  | cons x l ih => rw [List.foldl_cons, List.cons_append, List.erase_cons_head, ih]

theorem foldl_deleteSuicide_dirty (l : List α) (s : StateDB α) :
    (l.foldl deleteSuicide s).stateObjectsDirty = l.foldl List.erase s.stateObjectsDirty := by
  induction l generalizing s with
  | nil => rfl
  | cons x l ih =>
      rw [List.foldl_cons, List.foldl_cons, ih]
      congr 1
      unfold deleteSuicide
      split
      · split <;> rfl
      · rfl

/-- `DeleteSuicides` empties the dirty set. -/
@[simp] theorem DeleteSuicides_stateObjectsDirty (s : StateDB α) : s.DeleteSuicides.stateObjectsDirty = [] := by
  unfold DeleteSuicides
  rw [foldl_deleteSuicide_dirty]
  have h := foldl_erase_append s.stateObjectsDirty []
  rw [List.append_nil] at h
  exact h

end Loops

/-! ## The invariant -/

/-- The invariant that makes a copy faithful. -/
structure Inv (s : StateDB α) : Prop where
  /-- Every dirty address has a live object. -/
  live : ∀ a ∈ s.stateObjectsDirty, (s.stateObjects a).isSome
  /-- A live object that is not dirty is the trie's account as it was
  loaded, its callback still set. -/
  clean : ∀ a o, s.stateObjects a = some o → a ∉ s.stateObjectsDirty →
    s.trie a = some o.data ∧ o = newObject o.data true

/-- A setter of `stateObject` runs the callback the object had, or returns
the object unchanged. -/
def Setter (f : stateObject → stateObject × Bool) : Prop := ∀ o, (f o).2 = o.onDirty ∨ (f o).1 = o

theorem setter_SetBalance (amount : Int) : Setter (·.SetBalance amount) := fun _ => Or.inl rfl

theorem setter_AddBalance (amount : Int) : Setter (·.AddBalance amount) := by
  intro o
  unfold stateObject.AddBalance
  dsimp only
  split
  · split
    · exact Or.inl rfl
    · exact Or.inr rfl
  · exact Or.inl rfl

theorem setter_SubBalance (amount : Int) : Setter (·.SubBalance amount) := by
  intro o
  unfold stateObject.SubBalance
  dsimp only
  split
  · exact Or.inr rfl
  · exact Or.inl rfl

theorem setter_SetNonce (nonce : UInt64) : Setter (·.SetNonce nonce) := fun _ => Or.inl rfl

namespace Inv

variable {s : StateDB α} {addr a : α} {o : stateObject}

omit [DecidableEq α] in
/-- A clean object still has its callback. -/
theorem armed (h : Inv s) (ho : s.stateObjects a = some o) (ha : a ∉ s.stateObjectsDirty) :
    o.onDirty = true := by
  rw [(h.clean a o ho ha).2]
  rfl

omit [DecidableEq α] in
theorem new (tr : α → Option Account) : Inv (New tr) := by
  constructor
  · intro a ha
    cases ha
  · intro a o ho
    cases ho

/-- An object put in the live set keeps the invariant if, at a clean
address, it is the trie's account as loaded. -/
theorem setStateObject (h : Inv s)
    (hc : addr ∉ s.stateObjectsDirty → s.trie addr = some o.data ∧ o = newObject o.data true) :
    Inv (s.setStateObject addr o) := by
  constructor
  · intro a ha
    by_cases hb : a = addr
    · simp [hb]
    · rw [setStateObject_stateObjects, if_neg hb]
      exact h.live a ha
  · intro a o' ho ha
    by_cases hb : a = addr
    · subst hb
      rw [setStateObject_stateObjects, if_pos rfl] at ho
      cases ho
      exact hc ha
    · rw [setStateObject_stateObjects, if_neg hb] at ho
      exact h.clean a o' ho ha

/-- Writing back a setter's result keeps the invariant if, at a clean
address, the setter ran the callback or returned the live object. -/
theorem writeBack (h : Inv s) {r : stateObject × Bool}
    (hr : addr ∉ s.stateObjectsDirty → r.2 = true ∨ s.stateObjects addr = some r.1) :
    Inv (s.writeBack addr r) := by
  constructor
  · intro a ha
    rw [mem_writeBack] at ha
    by_cases hb : a = addr
    · simp [hb]
    · rw [writeBack_stateObjects, if_neg hb]
      exact h.live a (ha.resolve_left fun hc => hb hc.2)
  · intro a o' ho ha
    rw [mem_writeBack, not_or] at ha
    rw [writeBack_trie]
    by_cases hb : a = addr
    · subst hb
      rw [writeBack_stateObjects, if_pos rfl] at ho
      cases ho
      rcases hr ha.2 with hfired | hlive
      · exact absurd ⟨hfired, rfl⟩ ha.1
      · exact h.clean a r.1 hlive ha.2
    · rw [writeBack_stateObjects, if_neg hb] at ho
      exact h.clean a o' ho ha.2

/-- A setter applied to a live object keeps the invariant. -/
theorem writeBack_live (h : Inv s) (ho : s.stateObjects addr = some o) {r : stateObject × Bool}
    (hr : r.2 = o.onDirty ∨ r.1 = o) : Inv (s.writeBack addr r) := by
  apply h.writeBack
  intro ha
  rcases hr with hfired | hsame
  · exact Or.inl (hfired.trans (h.armed ho ha))
  · right
    rw [hsame]
    exact ho

theorem getStateObject (h : Inv s) (a : α) : Inv (s.getStateObject a).2 := by
  rcases getStateObject_cases s a with ⟨o, -, hg⟩ | ⟨d, -, ht, hg⟩ | ⟨-, -, hg⟩
  · rw [hg]
    exact h
  · rw [hg]
    exact h.setStateObject fun _ => ⟨ht, rfl⟩
  · rw [hg]
    exact h

theorem createObject_fst (s : StateDB α) (addr : α) :
    (s.createObject addr).1 = (((newObject ⟨0, 0, emptyCodeHash⟩ true).setNonce 0).1, (s.getStateObject addr).1) :=
  rfl

theorem createObject_snd (s : StateDB α) (addr : α) :
    (s.createObject addr).2 =
      (s.getStateObject addr).2.writeBack addr ((newObject ⟨0, 0, emptyCodeHash⟩ true).setNonce 0) := rfl

/-- `createObject` keeps the invariant, and leaves its object live and
dirty. -/
theorem createObject (h : Inv s) (addr : α) :
    Inv (s.createObject addr).2 ∧ (s.createObject addr).2.stateObjects addr = some (s.createObject addr).1.1 ∧
      addr ∈ (s.createObject addr).2.stateObjectsDirty := by
  rw [createObject_snd, createObject_fst]
  refine ⟨(h.getStateObject addr).writeBack fun _ => Or.inl rfl, by simp, ?_⟩
  rw [mem_writeBack]
  exact Or.inl ⟨rfl, rfl⟩

/-- `GetOrNewStateObject` keeps the invariant and returns the object live
at its address. -/
theorem GetOrNewStateObject (h : Inv s) (addr : α) :
    Inv (s.GetOrNewStateObject addr).2 ∧
      (s.GetOrNewStateObject addr).2.stateObjects addr = some (s.GetOrNewStateObject addr).1 := by
  have hg := h.getStateObject addr
  have hfound := @getStateObject_found α _ s addr
  unfold StateDB.GetOrNewStateObject
  cases hr : s.getStateObject addr with
  | mk obj s' =>
      rw [hr] at hg hfound
      cases obj with
      | none => exact ⟨(hg.createObject addr).1, (hg.createObject addr).2.1⟩
      | some o =>
          by_cases hd : o.deleted = true
          · simp only [hd, if_true]
            exact ⟨(hg.createObject addr).1, (hg.createObject addr).2.1⟩
          · simp only [hd, Bool.false_eq_true, if_false]
            exact ⟨hg, hfound rfl⟩

/-- The public setters that go through `GetOrNewStateObject` keep the
invariant. -/
theorem setter (h : Inv s) {f : stateObject → stateObject × Bool} (hf : Setter f) (addr : α) :
    Inv ((s.GetOrNewStateObject addr).2.writeBack addr (f (s.GetOrNewStateObject addr).1)) := by
  obtain ⟨hinv, hlive⟩ := h.GetOrNewStateObject addr
  exact hinv.writeBack_live hlive (hf _)

theorem AddBalance (h : Inv s) (addr : α) (amount : Int) : Inv (s.AddBalance addr amount) :=
  h.setter (setter_AddBalance amount) addr

theorem SubBalance (h : Inv s) (addr : α) (amount : Int) : Inv (s.SubBalance addr amount) :=
  h.setter (setter_SubBalance amount) addr

theorem SetBalance (h : Inv s) (addr : α) (amount : Int) : Inv (s.SetBalance addr amount) :=
  h.setter (setter_SetBalance amount) addr

theorem SetNonce (h : Inv s) (addr : α) (nonce : UInt64) : Inv (s.SetNonce addr nonce) :=
  h.setter (setter_SetNonce nonce) addr

theorem Suicide (h : Inv s) (addr : α) : Inv (s.Suicide addr).2 := by
  have hg := h.getStateObject addr
  have hfound := @getStateObject_found α _ s addr
  unfold StateDB.Suicide
  cases hr : s.getStateObject addr with
  | mk obj s' =>
      rw [hr] at hg hfound
      cases obj with
      | none => exact hg
      | some o => exact hg.writeBack_live (hfound rfl) (Or.inl rfl)

theorem CreateAccount (h : Inv s) (addr : α) : Inv (s.CreateAccount addr) := by
  obtain ⟨hinv, -, hdirty⟩ := h.createObject addr
  unfold StateDB.CreateAccount
  cases hc : s.createObject addr with
  | mk p s' =>
      obtain ⟨new, prev⟩ := p
      rw [hc] at hinv hdirty
      cases prev with
      | none => exact hinv
      | some q => exact hinv.writeBack fun ha => absurd hdirty ha

omit [DecidableEq α] in
theorem AddRefund (h : Inv s) (gas : UInt64) : Inv (s.AddRefund gas) := ⟨h.live, h.clean⟩

theorem Finalise (h : Inv s) (d : Bool) : Inv (s.Finalise d) := by
  constructor
  · intro a ha
    rw [Finalise_stateObjectsDirty] at ha
    rw [Finalise_stateObjects, if_pos ha, finaliseAt_snd_isSome]
    exact h.live a ha
  · intro a o ho ha
    rw [Finalise_stateObjectsDirty] at ha
    rw [Finalise_stateObjects, if_neg ha] at ho
    rw [Finalise_trie, if_neg ha]
    exact h.clean a o ho ha

theorem Copy (h : Inv s) : Inv s.Copy := by
  constructor
  · intro a ha
    rw [mem_Copy] at ha
    rw [Copy_stateObjects, if_pos ha, Option.isSome_map]
    exact h.live a ha
  · intro a o ho ha
    rw [mem_Copy] at ha
    rw [Copy_stateObjects, if_neg ha] at ho
    cases ho

/-- Under the invariant the copy sees what the state sees.

A deep copy keeps every field `lookup` reads. -/
theorem lookup_Copy (h : Inv s) (a : α) : s.Copy.lookup a = s.lookup a := by
  by_cases ha : a ∈ s.stateObjectsDirty
  · obtain ⟨o, ho⟩ := Option.isSome_iff_exists.mp (h.live a ha)
    simp only [lookup, Copy_stateObjects, if_pos ha, ho, Option.map_some]
    rfl
  · cases ho : s.stateObjects a with
    | none => simp [lookup, Copy_stateObjects, ha, ho]
    | some o =>
        obtain ⟨ht, hnew⟩ := h.clean a o ho ha
        rw [hnew] at ho
        simp [lookup, Copy_stateObjects, ha, ho, ht, newObject]

end Inv

/-! ## Runs -/

/-- The states built from a trie by the setters, the reads of the
accessors, `Finalise` (so `IntermediateRoot`) and `Copy`: every way to
change a `StateDB` but `DeleteSuicides`. -/
inductive Reachable : StateDB α → Prop where
  | new (tr : α → Option Account) : Reachable (New tr)
  | read {s : StateDB α} (a : α) : Reachable s → Reachable (s.getStateObject a).2
  | addBalance {s : StateDB α} (a : α) (amount : Int) : Reachable s → Reachable (s.AddBalance a amount)
  | subBalance {s : StateDB α} (a : α) (amount : Int) : Reachable s → Reachable (s.SubBalance a amount)
  | setBalance {s : StateDB α} (a : α) (amount : Int) : Reachable s → Reachable (s.SetBalance a amount)
  | setNonce {s : StateDB α} (a : α) (nonce : UInt64) : Reachable s → Reachable (s.SetNonce a nonce)
  | suicide {s : StateDB α} (a : α) : Reachable s → Reachable (s.Suicide a).2
  | createAccount {s : StateDB α} (a : α) : Reachable s → Reachable (s.CreateAccount a)
  | addRefund {s : StateDB α} (gas : UInt64) : Reachable s → Reachable (s.AddRefund gas)
  | finalise {s : StateDB α} (deleteEmptyObjects : Bool) : Reachable s → Reachable (s.Finalise deleteEmptyObjects)
  | copy {s : StateDB α} : Reachable s → Reachable s.Copy

/-- Every reachable state satisfies the invariant. -/
theorem Reachable.inv {s : StateDB α} (hr : s.Reachable) : Inv s := by
  induction hr with
  | new tr => exact Inv.new tr
  | read a _ ih => exact ih.getStateObject a
  | addBalance a amount _ ih => exact ih.AddBalance a amount
  | subBalance a amount _ ih => exact ih.SubBalance a amount
  | setBalance a amount _ ih => exact ih.SetBalance a amount
  | setNonce a nonce _ ih => exact ih.SetNonce a nonce
  | suicide a _ ih => exact ih.Suicide a
  | createAccount a _ ih => exact ih.CreateAccount a
  | addRefund gas _ ih => exact ih.AddRefund gas
  | finalise d _ ih => exact ih.Finalise d
  | copy _ ih => exact ih.Copy

/-- On every state reachable without `DeleteSuicides`, a copy answers every
accessor as the state does and has the same intermediate root. -/
theorem Copy_observationally_equal {s : StateDB α} (hr : s.Reachable) (a : α) (d : Bool) :
    (s.Copy.Exist a).1 = (s.Exist a).1 ∧ (s.Copy.Empty a).1 = (s.Empty a).1 ∧
    (s.Copy.GetBalance a).1 = (s.GetBalance a).1 ∧ (s.Copy.GetNonce a).1 = (s.GetNonce a).1 ∧
    (s.Copy.HasSuicided a).1 = (s.HasSuicided a).1 ∧ s.Copy.GetRefund = s.GetRefund ∧
    (s.Copy.IntermediateRoot d).1 = (s.IntermediateRoot d).1 := by
  obtain ⟨h1, h2, h3, h4, h5⟩ := accessors_of_lookup s.Copy a (hr.inv.lookup_Copy a)
  exact ⟨h1, h2, h3, h4, h5, Copy_refund s, IntermediateRoot_Copy s d⟩

/-! ## After `DeleteSuicides` -/

/-- After `DeleteSuicides` a copy sees the trie only: no change still in a
live object survives the copy. -/
theorem lookup_Copy_DeleteSuicides (s : StateDB α) (a : α) :
    s.DeleteSuicides.Copy.lookup a = (s.trie a).map fun d => (d, false) := by
  simp [lookup, Copy_stateObjects]

/-- `DeleteSuicides` keeps what the state itself sees at an address whose
live object has not suicided. -/
theorem lookup_DeleteSuicides {s : StateDB α} {a : α} (h : ∀ o, s.stateObjects a = some o → o.suicided = false) :
    s.DeleteSuicides.lookup a = s.lookup a := by
  cases ho : s.stateObjects a with
  | none => simp [lookup, DeleteSuicides_stateObjects, ho]
  | some o =>
      have hs := h o ho
      simp [lookup, DeleteSuicides_stateObjects, ho, deletedIfSuicided, hs]

/-- The account an `AddBalance` of a nonzero amount leaves on a fresh state:
the trie's account, or a new empty one, with the amount added, live and
dirty. -/
theorem AddBalance_New (tr : α → Option Account) (A : α) {n : Int} (hn : n ≠ 0) :
    ((New tr).AddBalance A n).stateObjects A =
      some ⟨{ (tr A).getD ⟨0, 0, emptyCodeHash⟩ with
        Balance := ((tr A).getD ⟨0, 0, emptyCodeHash⟩).Balance + n }, false, false, false⟩ ∧
    ((New tr).AddBalance A n).trie = tr := by
  cases htr : tr A with
  | none =>
      simp [AddBalance, GetOrNewStateObject, getStateObject, createObject, New, htr, stateObject.AddBalance,
        stateObject.SetBalance, stateObject.setBalance, stateObject.setNonce, stateObject.dirtied, newObject, hn]
  | some d =>
      simp [AddBalance, GetOrNewStateObject, getStateObject, New, htr, stateObject.AddBalance,
        stateObject.SetBalance, stateObject.setBalance, stateObject.dirtied, newObject, hn]

/-- A nonzero amount added to a fresh state before `DeleteSuicides` is seen
by the state and missing from its copy: the copy holds the trie's balance,
and at an address the trie lacks it holds no account at all.

The state keeps seeing its live object. The copy sees the trie only. -/
theorem Copy_after_DeleteSuicides_diverges (tr : α → Option Account) (A : α) (n : Int) (hn : n ≠ 0) :
    let s := ((New tr).AddBalance A n).DeleteSuicides;
    (s.GetBalance A).1 = ((tr A).map Account.Balance).getD 0 + n ∧
    (s.Copy.GetBalance A).1 = ((tr A).map Account.Balance).getD 0 ∧
    (s.Copy.GetBalance A).1 ≠ (s.GetBalance A).1 ∧
    (s.Exist A).1 = true ∧ (s.Copy.Exist A).1 = (tr A).isSome := by
  dsimp only
  obtain ⟨hobj, htrie⟩ := AddBalance_New tr A hn
  have hs : ((New tr).AddBalance A n).DeleteSuicides.lookup A =
      some ({ (tr A).getD ⟨0, 0, emptyCodeHash⟩ with
        Balance := ((tr A).getD ⟨0, 0, emptyCodeHash⟩).Balance + n }, false) := by
    rw [lookup_DeleteSuicides fun o ho => by rw [hobj] at ho; cases ho; rfl]
    simp [lookup, hobj]
  have hc : ((New tr).AddBalance A n).DeleteSuicides.Copy.lookup A = (tr A).map fun d => (d, false) := by
    rw [lookup_Copy_DeleteSuicides, htrie]
  rw [GetBalance_eq, GetBalance_eq, Exist_eq, Exist_eq, hs, hc]
  cases tr A with
  | none =>
      simp
      omega
  | some d =>
      simp
      omega

theorem Copy_after_DeleteSuicides_diverges_one :
    (1 : Int) ≠ 0 ∧
      let s := ((New fun _ : Nat => (none : Option Account)).AddBalance 0 1).DeleteSuicides;
      (s.GetBalance 0).1 = 1 ∧ (s.Copy.GetBalance 0).1 = 0 ∧ (s.Copy.GetBalance 0).1 ≠ (s.GetBalance 0).1 ∧
        (s.Exist 0).1 = true ∧ (s.Copy.Exist 0).1 = false :=
  ⟨by decide, by simpa using Copy_after_DeleteSuicides_diverges (fun _ : Nat => none) 0 1 (by decide)⟩

end StateDB

end Lemochain.State
