import Lemochain.Trie.Operations

/-!
# Tries built from the empty trie are in canonical minimal form

`Reachable resolveHash t`: `t` is obtained from a trie with an empty root by
successful calls of `TryUpdate` and `TryDelete` that read the database behind
`resolveHash`. `reachable_minimal` shows that the in-memory tree of such a
trie is in the canonical minimal form `Minimal` of the source's trie: leaves
are short nodes whose key ends with the terminator over a value node,
extensions are short nodes of nibbles over a full node, and a full node has
at least two children, minimal nibble children and at most a value under the
terminator.

Such a trie has no hash node, so its methods never consult the database.
This is what the transfer lemmas say: a call that succeeds against the empty
database `noNodes` gives the same result against any database. The shape
lemmas of `Operations` at `noNodes` then keep `Holds anyFlag noNodes`, and under
`noNodes` an expansion is a node without hash nodes, which turns the
canonical shape into `Minimal`.
-/

namespace Lemochain.Trie

open Lemochain.Radix

variable {t : Trie} {resolveHash : Resolver} {top : Bool}

/-- `Trie.resolveHash` on a database without any node: every load fails
with the source's `MissingNodeError`. -/
def noNodes : Resolver := fun h pre => .error (.missingNode (BytesToHash h) pre)

/-! ## Successful calls against the empty database -/

theorem resolve_of_noNodes {n : Node} {pre : Hex} {rn : Node}
    (h : Trie.resolve noNodes n pre = .ok rn) : Trie.resolve resolveHash n pre = .ok rn := by
  cases n with
  | hash x => simp [Trie.resolve, noNodes] at h
  | _ => exact h

/-- An insertion that never loads a node gives the same result for any
database. The induction follows the recursion of `insert`: every recursive
result it met was a success, so the induction hypothesis applies to it.

The two new children. -/
theorem insert_of_noNodes {fuel : Nat} {n : Node} {pre key : Hex} {value : Node} {r : Bool × Node}
    (h : t.insert noNodes fuel n pre key value = .ok r) :
    t.insert resolveHash fuel n pre key value = .ok r := by
  induction fuel generalizing n pre key value r with
  | zero => simp [Trie.insert] at h
  | succ fuel ih =>
      cases key with
      | nil => cases n <;> exact h
      | cons k0 krest =>
          cases n with
          | nil => exact h
          | value v => exact h
          | hash x => simp [Trie.insert, noNodes] at h
          | full cs nf =>
              simp only [Trie.insert] at h ⊢
              split at h
              · cases h
              all_goals (rename_i heq; rw [ih heq]; exact h)
          | short nk nv nf =>
              simp only [Trie.insert] at h ⊢
              by_cases hm : prefixLen (k0 :: krest) nk = nk.length
              · rw [if_pos hm] at h ⊢
                split at h
                · cases h
                all_goals (rename_i heq; rw [ih heq]; exact h)
              · rw [if_neg hm] at h ⊢
                split at h
                · cases h
                rename_i heq1
                rw [ih heq1]
                split at h
                · cases h
                rename_i heq2
                rw [ih heq2]
                exact h

/-- A deletion that never loads a node gives the same result for any
database; a remaining child that is resolved is then no hash node.

One child left: its resolution succeeded without the database. -/
theorem delete_of_noNodes {fuel : Nat} {n : Node} {pre key : Hex} {r : Bool × Node}
    (h : t.delete noNodes fuel n pre key = .ok r) :
    t.delete resolveHash fuel n pre key = .ok r := by
  induction fuel generalizing n pre key r with
  | zero => simp [Trie.delete] at h
  | succ fuel ih =>
      cases n with
      | nil => exact h
      | value v => exact h
      | hash x => simp [Trie.delete, noNodes] at h
      | short nk nv nf =>
          simp only [Trie.delete] at h ⊢
          split_ifs at h ⊢
          · exact h
          · exact h
          split at h
          · cases h
          all_goals (rename_i heq; rw [ih heq]; exact h)
      | full cs nf =>
          cases key with
          | nil => exact h
          | cons k0 krest =>
              simp only [Trie.delete] at h ⊢
              split at h
              · cases h
              · rename_i heq
                rw [ih heq]
                exact h
              rename_i heq
              rw [ih heq]
              dsimp only at h ⊢
              split at h
              · split_ifs at h ⊢
                · split at h
                  · cases h
                  · rename_i hres
                    rw [resolve_of_noNodes hres]
                    exact h
                  · rename_i a hns hres
                    rw [resolve_of_noNodes hres]
                    cases a with
                    | short ck cv f => exact absurd rfl (hns ck cv f)
                    | _ => exact h
                · exact h
              · exact h

theorem TryUpdate_of_noNodes {key value : Bytes} {t' : Trie}
    (h : t.TryUpdate noNodes key value = .ok t') : t.TryUpdate resolveHash key value = .ok t' := by
  simp only [Trie.TryUpdate] at h ⊢
  split_ifs at h ⊢
  · split at h
    · cases h
    · rename_i heq
      rw [insert_of_noNodes heq]
      exact h
  · split at h
    · cases h
    · rename_i heq
      rw [delete_of_noNodes heq]
      exact h

theorem TryDelete_of_noNodes {key : Bytes} {t' : Trie}
    (h : t.TryDelete noNodes key = .ok t') : t.TryDelete resolveHash key = .ok t' := by
  simp only [Trie.TryDelete] at h ⊢
  split at h
  · cases h
  · rename_i heq
    rw [delete_of_noNodes heq]
    exact h

/-! ## Canonical minimal form -/

/-- The canonical minimal form of an in-memory subtree below the root. -/
inductive Minimal : Node → Prop
  /-- A leaf: a short node whose key is nibbles and the terminator, over a
  value node. -/
  | leaf {k : Hex} {v : Bytes} (f : NodeFlag) : TermKey k → Minimal (.short k (.value v) f)
  /-- An extension: a short node whose key is non-empty and made of nibbles,
  over a full node. -/
  | extension {k : Hex} {cs : Fin 17 → Node} (f g : NodeFlag) : k ≠ [] → (∀ x ∈ k, x.val < 16) →
      Minimal (.full cs g) → Minimal (.short k (.full cs g) f)
  /-- A full node with at least two non-nil children, minimal children under
  the nibbles and a value node or nothing under the terminator. -/
  | full {cs : Fin 17 → Node} (f : NodeFlag) :
      (∃ i j, i ≠ j ∧ cs i ≠ .nil ∧ cs j ≠ .nil) →
      (∀ i, i ≠ terminator → cs i ≠ .nil → Minimal (cs i)) →
      (cs terminator = .nil ∨ ∃ v, cs terminator = .value v) → Minimal (.full cs f)

/-- Without a database only a value node expands to a leaf. -/
theorem Expands.eq_value_noNodes {n : Node} {w : Bytes} (h : Expands anyFlag noNodes top n (.leaf w)) :
    n = .value w := by
  cases h with
  | value => rfl
  | hash hres _ _ => exact absurd (hres []) (by simp [noNodes])

/-- Without a database only a full node expands to a branch. -/
theorem Expands.eq_full_noNodes {n : Node} {Ts : Fin 17 → Shape}
    (h : Expands anyFlag noNodes top n (.branch Ts)) : ∃ cs g, n = .full cs g := by
  cases h with
  | full g _ _ => exact ⟨_, g, rfl⟩
  | hash hres _ _ => exact absurd (hres []) (by simp [noNodes])

/-- A node that expands without a database to a non-empty inner subtree is
in canonical minimal form. The induction is on the expansion; canonical form
of the tree supplies each constructor's condition. -/
theorem Expands.minimal {n : Node} {T : Shape} (h : Expands anyFlag noNodes top n T) :
    InnerShape T → T ≠ .nil → Minimal n := by
  induction h with
  | nil => exact fun _ hne => absurd rfl hne
  | value v => exact fun hT _ => absurd rfl (hT.ne_leaf v)
  | short f _ hc ih =>
      intro hT _
      obtain ⟨hk, hcases⟩ := hT.short_cases
      rcases hcases with ⟨hall, ⟨Ts, rfl⟩, hTc⟩ | ⟨hterm, w, rfl⟩
      · obtain ⟨cs, g, rfl⟩ := hc.eq_full_noNodes
        exact .extension f g hk hall (ih hTc (by simp))
      · obtain rfl := hc.eq_value_noNodes
        exact .leaf f hterm
  | @full _ cs Ts f _ hcs ih =>
      intro hT _
      obtain ⟨hcan, hinner, hval⟩ := hT.branch_cases
      have hnil : ∀ i, cs i = .nil ↔ Ts i = .nil := fun i => (hcs i).eq_nil_iff
      refine .full f ?_ (fun i hi hne => ih i (hinner i hi) fun h => hne ((hnil i).2 h)) ?_
      · cases hcan with
        | branch _ htwo =>
            obtain ⟨a, b, hab, ha, hb⟩ := htwo
            exact ⟨a, b, hab, fun h => ha ((hnil a).1 h), fun h => hb ((hnil b).1 h)⟩
      · rcases hval with h | ⟨w, h⟩
        · exact .inl ((hnil terminator).2 h)
        · exact .inr ⟨w, (h ▸ hcs terminator).eq_value_noNodes⟩
  | hash hres _ _ _ => exact absurd (hres []) (by simp [noNodes])

/-! ## Reachable tries -/

/-- The tries built from a trie with an empty root by successful calls of
`TryUpdate` and `TryDelete` reading the database behind `resolveHash`. -/
inductive Reachable (resolveHash : Resolver) : Trie → Prop
  | empty {t : Trie} : t.root = .nil → Reachable resolveHash t
  | update {t t' : Trie} (key value : Bytes) :
      Reachable resolveHash t → t.TryUpdate resolveHash key value = .ok t' → Reachable resolveHash t'
  | delete {t t' : Trie} (key : Bytes) :
      Reachable resolveHash t → t.TryDelete resolveHash key = .ok t' → Reachable resolveHash t'

/-- A reachable trie holds a canonical tree without reading the database. The
induction is on the run; each step is the corresponding operation lemma at
`noNodes`, carried over to `resolveHash` by the transfer lemmas. -/
theorem Reachable.holds {t : Trie} (h : Reachable resolveHash t) : ∃ T, Holds anyFlag noNodes t T := by
  induction h with
  | empty hroot => exact ⟨.nil, .empty hroot⟩
  | update key value _ hstep ih =>
      obtain ⟨T, hT⟩ := ih
      obtain ⟨n', T', hupd, ht', -⟩ := hT.tryUpdate (fun _ _ => trivial) key value
      rw [TryUpdate_of_noNodes hupd] at hstep
      cases hstep
      exact ⟨T', ht'⟩
  | delete key _ hstep ih =>
      obtain ⟨T, hT⟩ := ih
      obtain ⟨n', T', hdel, ht', -⟩ := hT.tryDelete (fun _ _ => trivial) key
      rw [TryDelete_of_noNodes hdel] at hstep
      cases hstep
      exact ⟨T', ht'⟩

/-- Every trie built from the empty trie by `TryUpdate` and `TryDelete` has
an empty root or a root in canonical minimal form. -/
theorem reachable_minimal {t : Trie} (h : Reachable resolveHash t) :
    t.root = .nil ∨ Minimal t.root := by
  obtain ⟨T, hT⟩ := h.holds
  by_cases hnil : T = .nil
  · subst hnil
    exact .inl hT.expands.eq_nil_of_nil
  · exact .inr (hT.expands.minimal hT.shape hnil)

/-- Two insertions into the empty trie: the keys `01` and `12` differ in the
first nibble, so the root becomes a full node over two leaves. -/
theorem reachable_minimal_two :
    Reachable noNodes ((Trie.empty.Update noNodes [0x01] [2]).Update noNodes [0x12] [3]) ∧
      (((Trie.empty.Update noNodes [0x01] [2]).Update noNodes [0x12] [3]).root = .nil ∨
        Minimal ((Trie.empty.Update noNodes [0x01] [2]).Update noNodes [0x12] [3]).root) :=
  have h : Reachable noNodes ((Trie.empty.Update noNodes [0x01] [2]).Update noNodes [0x12] [3]) :=
    .update [0x12] [3] (.update [0x01] [2] (show Reachable noNodes Trie.empty from .empty rfl) rfl) rfl
  ⟨h, reachable_minimal h⟩

end Lemochain.Trie
