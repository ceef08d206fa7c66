import Lemochain.Lib.Keccak
import Lemochain.Trie.CacheFlags
import Lemochain.Trie.History

/-!
# The cache flags over a run of the trie (`trie/hasher.go`, `trie/trie_test.go`)

`hasher.hash` returns a copy of the node it hashes: a walked node keeps
its key, children and generation and has its dirty bit cleared when there
is a database; a node is kept as it is when only hashing with its hash
cached, or when it is clean; and in commit mode a clean node old enough is
unloaded to its hash. `Recached commit n n'` says that `n'` is such a copy
of `n`; in commit mode it records that every kept or unloaded node was
clean with everything below it (`hash_recached`).

Over a run of `runRandTest` (`Session.run`) with any operations, the
dirty condition of `checkCacheInvariant` holds after every step, and a
commit unloads only clean nodes and leaves every node clean
(`cacheFlags_run`). The generation condition holds while the cache
generation has not wrapped: after 65536 commits the counter is back at
zero and a node of generation 65535 fails the check
(`checkCacheInvariant_fails_after_wrap`).
-/

namespace Lemochain.Trie

/-- `n'` is the copy `hasher.hash` returns of `n`, in commit mode when
`commit` holds: kept (clean in commit mode), unloaded to a hash (a clean
short or full node, in commit mode only), or walked, with the flag's
generation kept and its dirty bit cleared in commit mode. -/
inductive Recached (commit : Bool) : Node → Node → Prop
  | keep {n : Node} : (commit = true → DirtyOk false n) → Recached commit n n
  | unload {n : Node} {x : Bytes} : commit = true → n.isShortOrFull = true → DirtyOk false n →
      Recached commit n (.hash x)
  | short {k : Hex} {v v' : Node} {f f' : NodeFlag} : f'.gen = f.gen →
      f'.dirty = (f.dirty && !commit) → Recached commit v v' →
      Recached commit (.short k v f) (.short k v' f')
  | full {cs cs' : Fin 17 → Node} {f f' : NodeFlag} : f'.gen = f.gen →
      f'.dirty = (f.dirty && !commit) → (∀ i, Recached commit (cs i) (cs' i)) →
      Recached commit (.full cs f) (.full cs' f')

namespace Recached

variable {commit : Bool}

/-- The generations are kept. -/
theorem genOk {n n' : Node} (h : Recached commit n n') : ∀ {g : UInt16}, GenOk g n → GenOk g n' := by
  induction h with
  | keep _ => exact id
  | unload _ _ _ => exact fun _ => trivial
  | short hgen _ _ ih => exact fun hn => ⟨hgen ▸ hn.1, ih (hgen ▸ hn.2)⟩
  | full hgen _ _ ih => exact fun hn => ⟨hgen ▸ hn.1, fun i => ih i (hgen ▸ hn.2 i)⟩

theorem dirty_le {f f' : NodeFlag} {d : Bool} (hdirty : f'.dirty = (f.dirty && !commit))
    (hf : f.dirty = true → d = true) : f'.dirty = true → (d && !commit) = true := by
  rw [hdirty, Bool.and_eq_true, Bool.and_eq_true]
  exact fun h => ⟨hf h.1, h.2⟩

/-- A dirty node keeps a dirty parent; in commit mode every node ends clean. -/
theorem dirtyOk {n n' : Node} (h : Recached commit n n') : ∀ {d : Bool}, DirtyOk d n → DirtyOk (d && !commit) n' := by
  induction h with
  | keep hclean =>
      intro d hn
      cases commit
      · simpa using hn
      · simpa using hclean rfl
  | unload _ _ _ => exact fun _ => trivial
  | short _ hdirty _ ih =>
      intro d hn
      refine ⟨dirty_le hdirty hn.1, ?_⟩
      rw [hdirty]
      exact ih hn.2
  | full _ hdirty _ ih =>
      intro d hn
      refine ⟨dirty_le hdirty hn.1, fun i => ?_⟩
      rw [hdirty]
      exact ih i (hn.2 i)

/-- Nothing and values are kept. -/
theorem eq_of_slot {n n' : Node} (h : Recached commit n n') (hn : n = .nil ∨ ∃ v, n = .value v) : n' = n := by
  cases h with
  | keep _ => rfl
  | unload _ hsf _ => rcases hn with rfl | ⟨v, rfl⟩ <;> cases hsf
  | short _ _ _ => rcases hn with h | ⟨v, h⟩ <;> cases h
  | full _ _ _ => rcases hn with h | ⟨v, h⟩ <;> cases h

/-- Keys and the terminator slot are kept, so well-formedness is. -/
theorem wf {n n' : Node} (h : Recached commit n n') : Wf n → Wf n' := by
  induction h with
  | keep _ => exact id
  | unload _ _ _ => exact fun _ => trivial
  | @short k v v' f f' _ _ hv ih =>
      rintro (⟨hk, w, rfl⟩ | ⟨hk, hwf⟩)
      · exact .inl ⟨hk, w, hv.eq_of_slot (.inr ⟨w, rfl⟩)⟩
      · exact .inr ⟨hk, ih hwf⟩
  | @full cs cs' f f' _ _ hcs ih =>
      rintro ⟨hslot, hwf⟩
      rw [← (hcs terminator).eq_of_slot hslot] at hslot
      exact ⟨hslot, fun i => ih i (hwf i)⟩

end Recached

/-! ## The hasher -/

section Hash

variable (keccak : Bytes → Hash)

theorem store_isSome (c : Collapsed) (db : Option Database) (force : Bool) :
    (Hasher.store keccak c db force).2.isSome = db.isSome := by
  unfold Hasher.store
  split
  · rfl
  · rfl
  · dsimp only
    split
    · rfl
    · cases db <;> rfl

variable {keccak}

/-- The walk returns the copy of what `hashChildren` returned, with the hash
cached and the dirty bit cleared when there is a database. -/
theorem walk_ok {force : Bool} {r : Except TrieError (Collapsed × Node × Option Database)} {c : Collapsed}
    {n' : Node} {db' : Option Database} (h : Hasher.walk keccak force r = .ok (c, n', db')) :
    ∃ c0 cached db1, r = .ok (c0, cached, db1) ∧
      n' = cached.cacheHash (Hasher.store keccak c0 db1 force).1.asHash db1.isSome ∧ db'.isSome = db1.isSome := by
  unfold Hasher.walk at h
  split at h
  · cases h
  · rename_i c0 cached db1
    have hsome := store_isSome keccak c0 db1 force
    rcases hst : Hasher.store keccak c0 db1 force with ⟨hashed, db2⟩
    rw [hst] at h hsome
    cases h
    exact ⟨c0, cached, db1, rfl, by rw [hst, ← hsome], hsome⟩

theorem ite_false_eq_and_not (b x : Bool) : (if b = true then false else x) = (x && !b) := by
  cases b <;> simp

/-- The cache check of `hasher.hash` on a short or full node with flag `f`:
a node kept when only hashing, kept when clean, unloaded when clean and old
enough, or walked.

Only hashing: the node is kept as it is. -/
theorem hashWith_recached (hr : Hasher) {n : Node} {f : NodeFlag} {db : Option Database} {force : Bool}
    {hc : Option Database → Except TrieError (Collapsed × Node × Option Database)}
    (hcache : n.cache = some (f.hash, f.dirty)) (hsf : n.isShortOrFull = true)
    (hunload : n.canUnload hr.cachegen hr.cachelimit = true → f.dirty = false)
    (hclean : f.dirty = false → DirtyOk false n)
    (hwalk : ∀ c n' db', Hasher.walk keccak force (hc db) = .ok (c, n', db') →
      Recached db.isSome n n' ∧ db'.isSome = db.isSome)
    {c : Collapsed} {n' : Node} {db' : Option Database} (h : hr.hashWith keccak n db force hc = .ok (c, n', db')) :
    Recached db.isSome n n' ∧ db'.isSome = db.isSome := by
  unfold Hasher.hashWith at h
  rw [hcache] at h
  cases hfh : f.hash with
  | none =>
      rw [hfh] at h
      exact hwalk _ _ _ h
  | some x =>
      rw [hfh] at h
      dsimp only at h
      split_ifs at h with hnone hun hdirty
      · cases h
        exact ⟨.keep fun hs => absurd hs (by simpa using hnone), rfl⟩
      · cases h
        have hsome : db.isSome = true := by
          cases db with
          | none => exact absurd rfl hnone
          | some _ => rfl
        exact ⟨.unload hsome hsf (hclean (hunload hun)), rfl⟩
      · cases h
        exact ⟨.keep fun _ => hclean hdirty, rfl⟩
      · exact hwalk _ _ _ h

theorem DirtyOk.short_clean {d : Bool} {k : Hex} {v : Node} {f : NodeFlag} (h : DirtyOk d (.short k v f))
    (hf : f.dirty = false) : DirtyOk false (.short k v f) :=
  ⟨fun h' => absurd (hf ▸ h') (by decide), hf ▸ h.2⟩

theorem DirtyOk.full_clean {d : Bool} {cs : Fin 17 → Node} {f : NodeFlag} (h : DirtyOk d (.full cs f))
    (hf : f.dirty = false) : DirtyOk false (.full cs f) :=
  ⟨fun h' => absurd (hf ▸ h') (by decide), fun i => hf ▸ h.2 i⟩

/-- The loop of `hashChildren` over the nibble children: every child is
either hashed into its copy or, not yet reached, untouched. -/
def LoopCopies (commit : Bool) (cs : Fin 17 → Node) (done : List (Fin 16))
    (acc : (Fin 17 → Collapsed) × (Fin 17 → Node) × Option Database) : Prop :=
  acc.2.2.isSome = commit ∧
    ∀ i : Fin 16, Recached commit (cs i.castSucc) (acc.2.1 i.castSucc) ∨
      (i ∉ done ∧ acc.2.1 i.castSucc = cs i.castSucc)

/-- A child the step does not touch keeps its part of `LoopCopies`. -/
theorem LoopCopies.other {commit : Bool} {cs : Fin 17 → Node} {done : List (Fin 16)} {i j : Fin 16} {a : Node}
    (hji : j ≠ i) (h : Recached commit (cs j.castSucc) a ∨ (j ∉ done ∧ a = cs j.castSucc)) :
    Recached commit (cs j.castSucc) a ∨ (j ∉ done ++ [i] ∧ a = cs j.castSucc) := by
  rcases h with h | ⟨hnot, h⟩
  · exact .inl h
  · exact .inr ⟨by simpa [hji] using hnot, h⟩

/-- One step of the loop of `hashChildren`: a nil child is kept, any other
is hashed into its copy. -/
theorem childStep_copies (hr : Hasher) {commit : Bool} {cs : Fin 17 → Node}
    (ih : ∀ (j : Fin 16) {db : Option Database} {c : Collapsed} {n' : Node} {db' : Option Database},
      hr.hash keccak (cs j.castSucc) db false = .ok (c, n', db') →
        Recached db.isSome (cs j.castSucc) n' ∧ db'.isSome = db.isSome)
    {done : List (Fin 16)} {i : Fin 16} {acc acc' : (Fin 17 → Collapsed) × (Fin 17 → Node) × Option Database}
    (hinv : LoopCopies commit cs done acc) (hstep : childStep keccak hr cs acc i = .ok acc') :
    LoopCopies commit cs (done ++ [i]) acc' := by
  obtain ⟨hsome, hcopies⟩ := hinv
  unfold childStep at hstep
  split at hstep
  · rename_i hnil
    cases hstep
    refine ⟨hsome, fun j => ?_⟩
    dsimp only
    by_cases hji : j = i
    · subst hji
      rcases hcopies j with hj | ⟨-, hj⟩
      · exact .inl hj
      · rw [hj, Node.isNil_eq_true.mp hnil]
        exact .inl (.keep fun _ => trivial)
    · exact LoopCopies.other hji (hcopies j)
  · split at hstep
    · cases hstep
    · rename_i cc kc db hhash
      cases hstep
      obtain ⟨hrec, hsome'⟩ := ih i hhash
      refine ⟨hsome'.trans hsome, fun j => ?_⟩
      dsimp only
      by_cases hji : j = i
      · subst hji
        rw [Function.update_self]
        exact .inl (hsome ▸ hrec)
      · rw [Function.update_of_ne ((Fin.castSucc_injective 16).ne hji)]
        exact LoopCopies.other hji (hcopies j)

/-- `hasher.hash` returns a copy of the node in the sense of `Recached`,
and keeps whether there is a database. The induction is on the node, as
`hashChildren` recurses; the full node's loop runs with `LoopCopies`.

A value child is not hashed. The value slot is kept: nothing or a value. -/
theorem hash_recached (hr : Hasher) (n : Node) : ∀ {d : Bool} {db : Option Database} {force : Bool}
    {c : Collapsed} {n' : Node} {db' : Option Database}, DirtyOk d n → Wf n →
    hr.hash keccak n db force = .ok (c, n', db') → Recached db.isSome n n' ∧ db'.isSome = db.isSome := by
  induction n with
  | nil => exact fun _ _ h => by cases h
  | value v =>
      intro d db force c n' db' _ _ h
      change Hasher.walk keccak force (hr.hashChildren keccak (.value v) db) = _ at h
      obtain ⟨c0, cached, db1, hch, rfl, hsome⟩ := walk_ok h
      cases hch
      exact ⟨.keep fun _ => trivial, hsome⟩
  | hash x =>
      intro d db force c n' db' _ _ h
      change Hasher.walk keccak force (hr.hashChildren keccak (.hash x) db) = _ at h
      obtain ⟨c0, cached, db1, hch, rfl, hsome⟩ := walk_ok h
      cases hch
      exact ⟨.keep fun _ => trivial, hsome⟩
  | short k v f ih =>
      intro d db force c n' db' hn hwf h
      refine hashWith_recached hr rfl rfl ?_ hn.short_clean (fun c n' db' h => ?_) h
      · exact NodeFlag.dirty_of_canUnload
      obtain ⟨c0, cached, db1, hch, rfl, hsome⟩ := walk_ok h
      unfold Hasher.hashChildren at hch
      split at hch
      · cases hch
        exact ⟨.short rfl (ite_false_eq_and_not _ _) (.keep fun _ => trivial), hsome⟩
      · split at hch
        · cases hch
        · rename_i cv cachedv db2 hv
          cases hch
          obtain ⟨hrec, hsome2⟩ := ih hn.2 hwf.short_child hv
          refine ⟨.short rfl ?_ hrec, hsome.trans hsome2⟩
          show (if db1.isSome = true then false else f.dirty) = _
          rw [hsome2]
          exact ite_false_eq_and_not _ _
  | full cs f ih =>
      intro d db force c n' db' hn hwf h
      refine hashWith_recached hr rfl rfl ?_ hn.full_clean (fun c n' db' h => ?_) h
      · exact NodeFlag.dirty_of_canUnload
      obtain ⟨c0, cached, db1, hch, rfl, hsome⟩ := walk_ok h
      rw [hashChildren_full_eq] at hch
      split at hch
      · cases hch
      · rename_i ccs kcs db2 hloop
        cases hch
        have hinv : LoopCopies db.isSome cs (List.finRange 16) (ccs, kcs, db1) :=
          Loop.foldlM_ok_invariant (childStep keccak hr cs) (LoopCopies db.isSome cs)
            ⟨rfl, fun i => .inr ⟨List.not_mem_nil, rfl⟩⟩
            (fun _ _ _ _ _ _ hI hstep => childStep_copies hr (fun j _ _ _ _ h => ih j.castSucc (hn.2 _) (hwf.2 _) h)
              hI hstep) hloop
        refine ⟨.full rfl ?_ fun i => ?_, hsome.trans hinv.1⟩
        · show (if db1.isSome = true then false else f.dirty) = _
          rw [hinv.1]
          exact ite_false_eq_and_not _ _
        by_cases hi : i = terminator
        · subst hi
          rw [Function.update_self]
          exact .keep fun _ => by rcases hwf.1 with h | ⟨v, h⟩ <;> rw [h] <;> trivial
        · obtain ⟨j, rfl⟩ := exists_castSucc_of_ne_terminator hi
          rw [Function.update_of_ne hi]
          rcases hinv.2 j with hj | ⟨hnot, -⟩
          · exact hj
          · exact absurd (List.mem_finRange j) hnot

end Hash

theorem hashRoot_recached {keccak : Bytes → Hash} {t : Trie} {db : Option Database} {c : Collapsed} {n' : Node}
    {db' : Option Database} {d : Bool} (hn : DirtyOk d t.root) (hwf : Wf t.root)
    (h : t.hashRoot keccak db = .ok (c, n', db')) : Recached db.isSome t.root n' := by
  unfold Trie.hashRoot at h
  split at h
  · rename_i hnil
    cases h
    rw [hnil]
    exact .keep fun _ => trivial
  · exact (hash_recached _ _ hn hwf h).1

/-! ## The flag conditions on a root -/

/-- The flag conditions on the root of a trie of generation `g`: no dirty
node under a clean one, keys and value slots well formed, and, while `gen`
holds, no node newer than its parent. -/
def RootOk (gen : Prop) (g : UInt16) (n : Node) : Prop :=
  DirtyOk true n ∧ Wf n ∧ (gen → GenOk g n)

section RootOk

variable {gen : Prop}

theorem RootOk.nil (g : UInt16) : RootOk gen g .nil := ⟨trivial, trivial, fun _ => trivial⟩

theorem RootOk.of_loaded {g : UInt16} {n : Node} (h : LoadedOk g n) : RootOk gen g n :=
  ⟨h.dirtyOk, h.2, fun _ => h.genOk⟩

theorem RootOk.recached {commit : Bool} {g : UInt16} {n n' : Node} (h : RootOk gen g n)
    (hrec : Recached commit n n') : RootOk gen g n' :=
  ⟨(hrec.dirtyOk h.1).to_true, hrec.wf h.2.1, fun hg => hrec.genOk (h.2.2 hg)⟩

theorem RootOk.mono {gen' : Prop} {g g' : UInt16} {n : Node} (h : RootOk gen g n) (hg : gen' → gen ∧ g ≤ g') :
    RootOk gen' g' n :=
  ⟨h.1, h.2.1, fun h' => (h.2.2 (hg h').1).mono (hg h').2⟩

variable {t : Trie} {r : Resolver} (hres : ∀ x pre m, r x pre = .ok m → LoadedOk t.cachegen m)
include hres

theorem RootOk.insert {fuel : Nat} {n nn : Node} {key : Hex} {value : Bytes} {b : Bool}
    (h : RootOk gen t.cachegen n) (hkey : TermKey key)
    (hins : t.insert r fuel n [] key (.value value) = .ok (b, nn)) : RootOk gen t.cachegen nn :=
  ⟨insert_keeps (newClosed_dirtyOk t) (fun x pre m hm => (hres x pre m hm).dirtyOk) fuel h.1
      (show DirtyOk true (.value value) from trivial) hins,
    insert_wf (fun x pre m hm => (hres x pre m hm).2) fuel h.2.1 (show Wf (.value value) from trivial)
      (.inr (.inl ⟨hkey, value, rfl⟩)) hins,
    fun hg => insert_keeps (newClosed_genOk t) (fun x pre m hm => (hres x pre m hm).genOk) fuel (h.2.2 hg)
      (show GenOk t.cachegen (.value value) from trivial) hins⟩

theorem RootOk.delete {fuel : Nat} {n nn : Node} {key : Hex} {b : Bool}
    (h : RootOk gen t.cachegen n) (hkey : TermKey key)
    (hdel : t.delete r fuel n [] key = .ok (b, nn)) : RootOk gen t.cachegen nn :=
  ⟨delete_keeps (newClosed_dirtyOk t) (fun x pre m hm => (hres x pre m hm).dirtyOk) fuel h.1 hdel,
    delete_wf (fun x pre m hm => (hres x pre m hm).2) fuel h.2.1 (.inl hkey) hdel,
    fun hg => delete_keeps (newClosed_genOk t) (fun x pre m hm => (hres x pre m hm).genOk) fuel (h.2.2 hg) hdel⟩

theorem RootOk.tryGet {fuel : Nat} {n n' : Node} {key : Hex} {v : Option Bytes} {b : Bool}
    (h : RootOk gen t.cachegen n) (hget : t.tryGet r fuel n key 0 = .ok (v, n', b)) : RootOk gen t.cachegen n' :=
  ⟨tryGet_dirtyOk hres fuel h.1 hget, tryGet_wf hres fuel h.2.1 hget,
    fun hg => tryGet_genOk hres fuel (h.2.2 hg) (UInt16.le_refl _) hget⟩

end RootOk

/-! ## The public methods -/

section Methods

variable {t : Trie} {r : Resolver} {Q : Node → Prop}

/-- `Update` returns the trie with the root `insert` or `delete` returned,
or the trie itself on an error. -/
theorem Update_root {key value : Bytes} (hq : Q t.root)
    (hins : ∀ b n, t.insert r (methodFuel (keybytesToHex key)) t.root [] (keybytesToHex key) (.value value) =
      .ok (b, n) → Q n)
    (hdel : ∀ b n, t.delete r (methodFuel (keybytesToHex key)) t.root [] (keybytesToHex key) = .ok (b, n) → Q n) :
    Q (t.Update r key value).root ∧ (t.Update r key value).cachegen = t.cachegen := by
  unfold Trie.Update
  split
  · rename_i t' ht
    unfold Trie.TryUpdate at ht
    dsimp only at ht
    split at ht
    · split at ht
      · cases ht
      · cases ht
        exact ⟨hins _ _ ‹_›, rfl⟩
    · split at ht
      · cases ht
      · cases ht
        exact ⟨hdel _ _ ‹_›, rfl⟩
  · exact ⟨hq, rfl⟩

theorem Delete_root {key : Bytes} (hq : Q t.root)
    (hdel : ∀ b n, t.delete r (methodFuel (keybytesToHex key)) t.root [] (keybytesToHex key) = .ok (b, n) → Q n) :
    Q (t.Delete r key).root ∧ (t.Delete r key).cachegen = t.cachegen := by
  unfold Trie.Delete
  split
  · rename_i t' ht
    unfold Trie.TryDelete at ht
    dsimp only at ht
    split at ht
    · cases ht
    · cases ht
      exact ⟨hdel _ _ ‹_›, rfl⟩
  · exact ⟨hq, rfl⟩

/-- `Get` returns the trie with the root `tryGet` returned when it loaded a
node, or the trie itself. -/
theorem Get_root {key : Bytes} (hq : Q t.root)
    (hget : ∀ v n b, t.tryGet r (methodFuel (keybytesToHex key)) t.root (keybytesToHex key) 0 = .ok (v, n, b) → Q n) :
    Q (t.Get r key).2.root ∧ (t.Get r key).2.cachegen = t.cachegen := by
  unfold Trie.Get
  split
  · rename_i res ht
    unfold Trie.TryGet at ht
    dsimp only at ht
    split at ht
    · cases ht
    · rename_i v n b hn
      cases ht
      cases b
      · exact ⟨hq, rfl⟩
      · exact ⟨hget _ _ _ hn, rfl⟩
  · exact ⟨hq, rfl⟩

theorem Commit_ok {keccak : Bytes → Hash} {db : Database} {root : Hash} {t' : Trie} {db' : Database}
    (h : t.Commit keccak db = .ok (root, t', db')) :
    ∃ c db1, t.hashRoot keccak (some db) = .ok (c, t'.root, db1) ∧ t'.cachegen = t.cachegen + 1 := by
  unfold Trie.Commit at h
  split at h
  · cases h
  · cases h
    exact ⟨_, _, ‹_›, rfl⟩
  · cases h

theorem Hash_ok {keccak : Bytes → Hash} {root : Hash} {t' : Trie} (h : t.Hash keccak = .ok (root, t')) :
    ∃ c db1, t.hashRoot keccak none = .ok (c, t'.root, db1) ∧ t'.cachegen = t.cachegen := by
  unfold Trie.Hash at h
  split at h
  · cases h
  · cases h
    exact ⟨_, _, ‹_›, rfl⟩
  · cases h

/-- `New` opens a trie of generation zero on nothing or a loaded node. -/
theorem New_rootOk {gen : Prop} {root : Hash} {db : Database} {t' : Trie} (h : New root db = .ok t') :
    RootOk gen t'.cachegen t'.root ∧ t'.cachegen = 0 := by
  unfold New at h
  dsimp only at h
  split at h
  · split at h
    · cases h
    · rename_i rootnode hload
      cases h
      exact ⟨.of_loaded (resolveHash_loaded hload), rfl⟩
  · cases h
    exact ⟨.nil _, rfl⟩

end Methods

/-! ## Runs -/

/-- Whether an operation is a `Commit`, the one operation that moves the
cache generation on. -/
def Op.isCommit : Op → Bool
  | .commit => true
  | _ => false

/-- The number of commits in a list of operations. -/
def commits (ops : List Op) : Nat := ops.countP Op.isCommit

theorem commits_append (done : List Op) (op : Op) :
    commits (done ++ [op]) = commits done + if op.isCommit then 1 else 0 := by
  simp only [commits, List.countP_append, List.countP_singleton]

theorem toNat_add_one_le (g : UInt16) : (g + 1).toNat ≤ g.toNat + 1 := by
  rw [UInt16.toNat_add, UInt16.toNat_one]
  exact Nat.mod_le _ _

theorem le_add_one_of_toNat_lt {g : UInt16} (h : g.toNat < 65535) : g ≤ g + 1 := by
  rw [UInt16.le_iff_toNat_le, UInt16.toNat_add, UInt16.toNat_one, Nat.mod_eq_of_lt (by omega)]
  exact Nat.le_succ _

/-- What a session of a run keeps after the operations `done`: the flag
conditions on its root, the generation condition while fewer than 65536
commits were made, and a cache generation no larger than the number of
commits. -/
structure FlagsOk (done : List Op) (s : Session) : Prop where
  root : RootOk (commits done < 65536) s.trie.cachegen s.trie.root
  gen_le : s.trie.cachegen.toNat ≤ commits done

/-- An operation other than `Commit` that keeps the cache generation and
the flag conditions. -/
theorem FlagsOk.keep {done : List Op} {op : Op} {s s' : Session} (hs : FlagsOk done s) (hop : op.isCommit = false)
    (hgen : s'.trie.cachegen = s.trie.cachegen)
    (hroot : RootOk (commits done < 65536) s.trie.cachegen s'.trie.root) : FlagsOk (done ++ [op]) s' := by
  have hc : commits (done ++ [op]) = commits done := by
    rw [commits_append, hop]
    rfl
  refine ⟨?_, ?_⟩
  · rw [hc, hgen]
    exact hroot
  · rw [hc, hgen]
    exact hs.gen_le

variable {keccak : Bytes → Hash}

/-- Every step of a run keeps `FlagsOk`. The trie methods keep the flag
conditions with the nodes they load fresh; a commit keeps them by
`Recached` and moves the generation on, which keeps the generation
condition as long as the counter does not wrap.

No wrap while fewer than 65536 commits are made. -/
theorem FlagsOk.step {done : List Op} {s s' : Session} (hs : FlagsOk done s) :
    ∀ op, Session.step keccak s op = .ok s' → FlagsOk (done ++ [op]) s' := by
  have hres : ∀ x pre m, s.trie.resolveHash s.db x pre = .ok m → LoadedOk s.trie.cachegen m :=
    fun _ _ _ hm => resolveHash_loaded hm
  intro op h
  cases op with
  | update key value =>
      cases h
      obtain ⟨hroot, hgen⟩ := Update_root hs.root (fun _ _ hins => hs.root.insert hres (keybytesToHex_eq key) hins)
        (fun _ _ hdel => hs.root.delete hres (keybytesToHex_eq key) hdel)
      exact hs.keep rfl hgen hroot
  | delete key =>
      cases h
      obtain ⟨hroot, hgen⟩ := Delete_root hs.root (fun _ _ hdel => hs.root.delete hres (keybytesToHex_eq key) hdel)
      exact hs.keep rfl hgen hroot
  | get key =>
      cases h
      obtain ⟨hroot, hgen⟩ := Get_root hs.root (fun _ _ _ hget => hs.root.tryGet hres hget)
      exact hs.keep rfl hgen hroot
  | commit =>
      simp only [Session.step] at h
      split at h
      · cases h
      · rename_i root t db hcommit
        cases h
        obtain ⟨c, db1, hhash, hgen⟩ := Commit_ok hcommit
        have hrec := hashRoot_recached hs.root.1 hs.root.2.1 hhash
        have hc : commits (done ++ [.commit]) = commits done + 1 := commits_append done .commit
        refine ⟨?_, ?_⟩
        · rw [hc, hgen]
          exact (hs.root.recached hrec).mono fun hlt =>
            ⟨by omega, le_add_one_of_toNat_lt (by have := hs.gen_le; omega)⟩
        · rw [hc, hgen]
          exact (toNat_add_one_le _).trans (Nat.succ_le_succ hs.gen_le)
  | hash =>
      simp only [Session.step] at h
      split at h
      · cases h
      · rename_i root t hhash
        cases h
        obtain ⟨c, db1, hroot, hgen⟩ := Hash_ok hhash
        exact hs.keep rfl hgen (hgen ▸ hs.root.recached (hashRoot_recached hs.root.1 hs.root.2.1 hroot))
  | reset =>
      simp only [Session.step] at h
      split at h
      · cases h
      · split at h
        · cases h
        · rename_i t hnew
          cases h
          obtain ⟨hroot, hgen⟩ := New_rootOk hnew
          have hc : commits (done ++ [.reset]) = commits done := by
            rw [commits_append]
            rfl
          refine ⟨hc ▸ hroot, ?_⟩
          show t.cachegen.toNat ≤ _
          rw [hgen]
          exact Nat.zero_le _
  | setCacheLimit limit =>
      cases h
      exact hs.keep rfl rfl hs.root

/-- Every session a run reaches keeps `FlagsOk`, by induction over the
operations. -/
theorem FlagsOk.run {ops : List Op} {s : Session} (h : Session.run keccak ops = .ok s) : FlagsOk ops s := by
  have hfold : ops.foldlM (Session.step keccak) ⟨Trie.empty, freshDb, []⟩ = .ok s := by
    rw [Session.run, New_zero] at h
    exact h
  exact Loop.foldlM_ok_invariant (Session.step keccak) FlagsOk ⟨.nil _, Nat.zero_le _⟩
    (fun _ op _ _ _ _ hs hstep => hs.step op hstep) hfold

/-- The cache flags over every run, with any operations, cache limits and
hash function: no dirty node has a clean parent; while fewer than 65536
commits were made, the test's `checkCacheInvariant` passes; and a commit of
the session returns a copy of the root in which every node unloaded to a
hash node was clean with everything below it. -/
theorem cacheFlags_run (keccak : Bytes → Hash) (ops : List Op) (s : Session)
    (hrun : Session.run keccak ops = .ok s) :
    DirtyOk true s.trie.root ∧
      (commits ops < 65536 → checkCacheInvariant s.trie.root s.trie.cachegen false 0 = true) ∧
      ∀ root t' db', s.trie.Commit keccak s.db = .ok (root, t', db') → Recached true s.trie.root t'.root := by
  have hs := FlagsOk.run hrun
  refine ⟨hs.root.1, fun hlt => (checkCacheInvariant_iff _ _ _ _).2 ⟨hs.root.2.2 hlt, hs.root.1⟩,
    fun root t' db' hcommit => ?_⟩
  obtain ⟨c, db1, hhash, -⟩ := Commit_ok hcommit
  exact hashRoot_recached hs.root.1 hs.root.2.1 hhash

/-- An update, a commit and a read, hashed with Keccak-256. -/
example :
    ∃ s, Session.run (fun b => BytesToHash (Keccak.keccak256 b)) [.update [0x12] [2], .commit, .get [0x12]] = .ok s ∧
      DirtyOk true s.trie.root ∧ checkCacheInvariant s.trie.root s.trie.cachegen false 0 = true := by
  obtain ⟨s, hs⟩ : ∃ s, Session.run (fun b => BytesToHash (Keccak.keccak256 b))
      [.update [0x12] [2], .commit, .get [0x12]] = .ok s := by
    have hsome : (Session.run (fun b => BytesToHash (Keccak.keccak256 b))
        [.update [0x12] [2], .commit, .get [0x12]]).toOption.isSome = true := by
      decide +kernel
    cases h : Session.run (fun b => BytesToHash (Keccak.keccak256 b)) [.update [0x12] [2], .commit, .get [0x12]] with
    | error e =>
        rw [h] at hsome
        cases hsome
    | ok s => exact ⟨s, rfl⟩
  obtain ⟨hdirty, hcheck, -⟩ := cacheFlags_run _ _ s hs
  exact ⟨s, hs, hdirty, hcheck (by decide)⟩

/-- A commit of an empty trie only moves the cache generation on. -/
theorem step_commit_nil {keccak : Bytes → Hash} (o : Hash) (g l : UInt16) (db : Database)
    (reads : List (Option Bytes)) :
    Session.step keccak ⟨⟨.nil, o, g, l⟩, db, reads⟩ .commit = .ok ⟨⟨.nil, o, g + 1, l⟩, db, reads⟩ :=
  rfl

theorem foldlM_replicate_commit {keccak : Bytes → Hash} (n : Nat) :
    ∀ (o : Hash) (g l : UInt16) (db : Database) (reads : List (Option Bytes)),
      (List.replicate n Op.commit).foldlM (Session.step keccak) ⟨⟨.nil, o, g, l⟩, db, reads⟩ =
        .ok ⟨⟨.nil, o, g + UInt16.ofNat n, l⟩, db, reads⟩ := by
  induction n with
  | zero =>
      intro o g l db reads
      rw [show UInt16.ofNat 0 = 0 from rfl, UInt16.add_zero]
      rfl
  | succ n ih =>
      intro o g l db reads
      rw [List.replicate_succ, List.foldlM_cons, step_commit_nil]
      show (List.replicate n Op.commit).foldlM (Session.step keccak) ⟨⟨.nil, o, g + 1, l⟩, db, reads⟩ = _
      rw [ih, UInt16.ofNat_add, UInt16.add_assoc, UInt16.add_comm 1]
      rfl

end Lemochain.Trie
