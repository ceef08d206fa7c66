import Mathlib.Data.List.Infix
import Mathlib.Tactic.IntervalCases
import Lemochain.Lib.Keccak
import Lemochain.Lib.Loop
import Lemochain.Trie.Reachable
import Lemochain.Trie.RootHash

/-!
# Runs of trie operations (`trie/trie_test.go`, `runRandTest`)

A session is what `runRandTest` drives: a trie opened with `New` on the zero
root of a new database, and a list of operations, each applied in place.
`Update`, `Delete` and `Get` change or read the map, `Commit` writes the
nodes and starts a new cache generation, `Hash` caches the hashes, and
`reset` commits and reopens the trie from the committed root, so that every
node is loaded back from the database. `SetCacheLimit` changes which clean
nodes a commit unloads.

Beside the trie the test keeps the map of values it has written
(`Expected`); a run agrees with it when every `Get` returned the value of the
map, a `Get` after the run returns it for every key, and the root hash is
the one of a fresh trie filled with the map in any order.

The hashes a run computes are those of the trees `runShapes ops`: the trees
the operations build in memory, without a database (`memTrie`), and their
subtrees. The one assumption on `keccak` is `HashEnv` on these trees.

## Main results

* `Session.Ok.step`: one operation keeps the trie holding the tree of the map
  with the cache condition against the database;
* `run_ok`: a whole run succeeds and keeps it;
* `run_history_independent`: every run agrees with the test's map.
-/

set_option linter.dupNamespace false

namespace Lemochain.Trie

open Lemochain.Rlp

/-! ## The trees of the in-memory trie -/

/-- The tree a node stands for when no part of it is a hash node. -/
def Node.toShape : Node → Shape
  | .nil => .nil
  | .value v => .leaf v
  | .short k v _ => .short k v.toShape
  | .full cs _ => .branch fun i => (cs i).toShape
  | .hash _ => .nil

/-- A node that holds a tree without reading the database is that tree. -/
theorem Expands.toShape_eq {top : Bool} {n : Node} {T : Shape} (h : Expands anyFlag noNodes top n T) :
    n.toShape = T := by
  induction h with
  | nil => rfl
  | value v => rfl
  | short f _ _ ih => rw [Node.toShape, ih]
  | full f _ _ ih => rw [Node.toShape, funext ih]
  | hash hres _ _ _ => cases hres []

/-- A tree and all its subtrees. -/
def subtrees : Shape → List Shape
  | .nil => [.nil]
  | .leaf v => [.leaf v]
  | .short k c => .short k c :: subtrees c
  | .branch Ts => .branch Ts :: (List.finRange 17).flatMap fun i => subtrees (Ts i)

theorem self_mem_subtrees (T : Shape) : T ∈ subtrees T := by
  cases T <;> simp [subtrees]

theorem subtrees_subset {T T' : Shape} (h : T ∈ subtrees T') : subtrees T ⊆ subtrees T' := by
  induction T' with
  | nil =>
      simp only [subtrees, List.mem_singleton] at h
      subst h
      exact List.Subset.refl _
  | leaf v =>
      simp only [subtrees, List.mem_singleton] at h
      subst h
      exact List.Subset.refl _
  | short k c ih =>
      simp only [subtrees, List.mem_cons] at h
      rcases h with rfl | h
      · exact List.Subset.refl _
      · exact List.Subset.trans (ih h) (List.subset_cons_self _ _)
  | branch Ts ih =>
      simp only [subtrees, List.mem_cons, List.mem_flatMap] at h
      rcases h with rfl | ⟨i, hi, h⟩
      · exact List.Subset.refl _
      · exact fun x hx => List.mem_cons_of_mem _ (List.mem_flatMap.2 ⟨i, hi, ih i h hx⟩)

/-! ## Operations and the test's reference -/

/-- The steps of `runRandTest` that act on the trie, and `SetCacheLimit`. -/
inductive Op where
  | update (key value : Bytes)
  | delete (key : Bytes)
  | get (key : Bytes)
  | commit
  | hash
  | reset
  | setCacheLimit (limit : UInt16)

/-- What `runRandTest` keeps beside the trie: the map of values it has
written, and what each `Get` had to return. -/
structure Expected where
  values : Bytes → Option Bytes
  reads : List (Option Bytes)

/-- One step of the test's map: an update stores the value (an empty value
deletes the key, as `Update` does), a `Get` reads the map. -/
def Expected.step (e : Expected) : Op → Expected
  | .update key value => { e with values := Function.update e.values key (updateValue value) }
  | .delete key => { e with values := Function.update e.values key none }
  | .get key => { e with reads := e.reads ++ [e.values key] }
  | _ => e

/-- The test's map after a list of operations, from the empty map. -/
def expected (ops : List Op) : Expected := ops.foldl Expected.step ⟨fun _ => none, []⟩

/-- One step of the in-memory trie, without a database. -/
def memStep (t : Trie) : Op → Trie
  | .update key value => t.Update noNodes key value
  | .delete key => t.Delete noNodes key
  | _ => t

/-- The trie the updates and deletes of a list build from the empty trie. -/
def memTrie (ops : List Op) : Trie := ops.foldl memStep Trie.empty

/-- The tree of the map after a list of operations. -/
def memShape (ops : List Op) : Shape := (memTrie ops).root.toShape

/-- The trees a run hashes: the trees of the map after each prefix of the
operations, and their subtrees. -/
def runShapes (ops : List Op) : List Shape := ops.inits.flatMap fun p => subtrees (memShape p)

theorem expected_append (ops : List Op) (op : Op) : expected (ops ++ [op]) = (expected ops).step op := by
  simp [expected, List.foldl_append]

theorem memTrie_append (ops : List Op) (op : Op) : memTrie (ops ++ [op]) = memStep (memTrie ops) op := by
  simp [memTrie, List.foldl_append]

/-- One step of the in-memory trie changes its tree as the test's map. -/
theorem Holds.memStep {t : Trie} {T : Shape} {e : Expected} (h : Holds anyFlag noNodes t T)
    (hmap : byteMap T = e.values) (op : Op) :
    ∃ T', Holds anyFlag noNodes (Trie.memStep t op) T' ∧ byteMap T' = (e.step op).values := by
  cases op with
  | update key value =>
      obtain ⟨n', T', hupd, ht', hlook⟩ := h.tryUpdate (fun _ _ => trivial) key value
      refine ⟨T', ?_, by rw [byteMap_update hlook, hmap]; rfl⟩
      simp only [Trie.memStep, Trie.Update, hupd]
      exact ht'
  | delete key =>
      obtain ⟨n', T', hdel, ht', hlook⟩ := h.tryDelete (fun _ _ => trivial) key
      refine ⟨T', ?_, by rw [byteMap_update hlook, hmap]; rfl⟩
      simp only [Trie.memStep, Trie.Delete, hdel]
      exact ht'
  | get key => exact ⟨T, h, hmap⟩
  | commit => exact ⟨T, h, hmap⟩
  | hash => exact ⟨T, h, hmap⟩
  | reset => exact ⟨T, h, hmap⟩
  | setCacheLimit limit => exact ⟨T, h, hmap⟩

/-- The in-memory trie holds the tree of the test's map. The induction is
on the operations from the end, one `memStep` at a time. -/
theorem memTrie_holds (ops : List Op) :
    Holds anyFlag noNodes (memTrie ops) (memShape ops) ∧ byteMap (memShape ops) = (expected ops).values := by
  induction ops using List.reverseRecOn with
  | nil => exact ⟨.empty rfl, rfl⟩
  | append_singleton ops op ih =>
      obtain ⟨T', hT', hmap⟩ := ih.1.memStep ih.2 op
      have hshape : memShape (ops ++ [op]) = T' := by
        rw [memShape, memTrie_append]
        exact hT'.expands.toShape_eq
      rw [hshape, memTrie_append, expected_append]
      exact ⟨hT', hmap⟩

theorem memShape_mem_runShapes {p ops : List Op} (h : p <+: ops) : memShape p ∈ runShapes ops :=
  List.mem_flatMap.2 ⟨p, (List.mem_inits _ _).2 h, self_mem_subtrees _⟩

/-- A child of a subtree of a tree of the run is a subtree of the same tree. -/
theorem runShapes_childClosed (ops : List Op) : ChildClosed (· ∈ runShapes ops) := by
  have hsub : ∀ {T c : Shape}, c ∈ subtrees T → T ∈ runShapes ops → c ∈ runShapes ops := by
    intro T c hc hT
    obtain ⟨p, hp, hT⟩ := List.mem_flatMap.1 hT
    exact List.mem_flatMap.2 ⟨p, hp, subtrees_subset hT hc⟩
  refine ⟨fun k c h => hsub ?_ h, fun Ts i h => hsub ?_ h⟩
  · exact List.mem_cons_of_mem _ (self_mem_subtrees c)
  · exact List.mem_cons_of_mem _ (List.mem_flatMap.2 ⟨i, List.mem_finRange i, self_mem_subtrees _⟩)

/-! ## Sessions -/

/-- The state of `runRandTest`: the trie, the database it reads and commits
to, and what the `Get`s have returned. -/
structure Session where
  trie : Trie
  db : Database
  reads : List (Option Bytes)

/-- The database `runRandTest` opens: a new one over an empty disk. -/
def freshDb : Database := NewDatabase fun _ => none

namespace Session

variable (keccak : Bytes → Lemochain.Hash)

/-- One step of `runRandTest`. An error of `Commit`, `Hash` or `New` ends the
run; `Update`, `Delete` and `Get` log theirs and go on. -/
def step (s : Session) : Op → Except TrieError Session
  | .update key value => .ok { s with trie := s.trie.Update (s.trie.resolveHash s.db) key value }
  | .delete key => .ok { s with trie := s.trie.Delete (s.trie.resolveHash s.db) key }
  | .get key =>
      let r := s.trie.Get (s.trie.resolveHash s.db) key
      .ok { s with trie := r.2, reads := s.reads ++ [r.1] }
  | .commit =>
      match s.trie.Commit keccak s.db with
      | .error e => .error e
      | .ok (_, t, db) => .ok { s with trie := t, db := db }
  | .hash =>
      match s.trie.Hash keccak with
      | .error e => .error e
      | .ok (_, t) => .ok { s with trie := t }
  | .reset =>
      match s.trie.Commit keccak s.db with
      | .error e => .error e
      | .ok (root, _, db) =>
          match New root db with
          | .error e => .error e
          | .ok t => .ok { s with trie := t, db := db }
  | .setCacheLimit limit => .ok { s with trie := s.trie.SetCacheLimit limit }

/-- `runRandTest`: open a trie on the zero root of a new database and apply
the operations in order. -/
def run (ops : List Op) : Except TrieError Session :=
  match New Hash.zero freshDb with
  | .error e => .error e
  | .ok tr => ops.foldlM (step keccak) ⟨tr, freshDb, []⟩

end Session

/-- A fresh trie, opened on the zero root of a new database, filled with the
pairs in the order of the list. -/
def freshTrie (kvs : List (Bytes × Bytes)) : Trie :=
  kvs.foldl (fun t kv => t.Update (t.resolveHash freshDb) kv.1 kv.2) Trie.empty

/-- A finished run agrees with the test's map: every `Get` returned the value
of the map, a `Get` after the run returns it for every key, and `Hash`
returns the root hash of a fresh trie filled with the map in any order. -/
def Session.Agrees (keccak : Bytes → Lemochain.Hash) (ops : List Op) (s : Session) : Prop :=
  s.reads = (expected ops).reads ∧
    (∀ key, (s.trie.Get (s.trie.resolveHash s.db) key).1 = (expected ops).values key) ∧
    ∀ kvs : List (Bytes × Bytes), (kvs.map Prod.fst).Nodup →
      (∀ key value, (key, value) ∈ kvs ↔ (expected ops).values key = some value) →
      ∃ root t₁ t₂, s.trie.Hash keccak = .ok (root, t₁) ∧ (freshTrie kvs).Hash keccak = .ok (root, t₂)

theorem New_zero (db : Database) : New Hash.zero db = .ok Trie.empty := by
  simp [New, Trie.empty]

/-- The fresh database returns no blob: its one cached entry is `nil`. -/
theorem DbOk.freshDb {keccak : Bytes → Lemochain.Hash} {S : Shape → Prop} : DbOk keccak S freshDb := by
  constructor
  · intro h b hb
    simp only [Trie.freshDb, Database.Node, lookup_NewDatabase] at hb
    split_ifs at hb
    cases hb
  · intro h hn
    simp only [Trie.freshDb, lookup_NewDatabase] at hn
    split_ifs at hn with hz
    · exact hz
    · cases hn

section Run

variable {keccak : Bytes → Lemochain.Hash} {S : Shape → Prop}

/-- A trie that holds a tree of byte keys holding the test's map holds the
tree of the map. -/
theorem Cached.eq_memShape {t : Trie} {db : Database} {T : Shape} (hc : Cached keccak S t db T)
    {ops : List Op} (h : byteMap T = (expected ops).values) : T = memShape ops :=
  shape_eq_of_byteMap hc.holds.shape (memTrie_holds ops).1.shape hc.holds.byteKeys
    (memTrie_holds ops).1.byteKeys (h.trans (memTrie_holds ops).2.symm)

/-- What a session keeps after the operations `done`: its trie holds the
tree of the test's map, with the cache condition against its database, and
the `Get`s returned what the map held. -/
structure Session.Ok (keccak : Bytes → Lemochain.Hash) (S : Shape → Prop) (done : List Op) (s : Session) :
    Prop where
  cached : Cached keccak S s.trie s.db (memShape done)
  reads : s.reads = (expected done).reads

theorem Session.Ok.init : Session.Ok keccak S [] ⟨Trie.empty, freshDb, []⟩ :=
  ⟨.empty rfl DbOk.freshDb, rfl⟩

/-- An operation that leaves the map alone leaves the tree alone. -/
theorem memShape_append_of_keep {done : List Op} {op : Op} (h : memStep (memTrie done) op = memTrie done) :
    memShape (done ++ [op]) = memShape done := by
  rw [memShape, memTrie_append, h, memShape]

/-- After an operation that neither changes the map nor reads it, a session
that still holds the tree keeps the invariant. -/
theorem Session.Ok.keep {done : List Op} {op : Op} {s : Session}
    (hc : Cached keccak S s.trie s.db (memShape done)) (hreads : s.reads = (expected done).reads)
    (hmem : memStep (memTrie done) op = memTrie done) (hexp : (expected done).step op = expected done) :
    s.Ok keccak S (done ++ [op]) :=
  ⟨by rw [memShape_append_of_keep hmem]; exact hc, by rw [expected_append, hexp]; exact hreads⟩

/-- After an update of the map, a session holding a tree of the new map
keeps the invariant: by uniqueness it is the tree of the in-memory trie. -/
theorem Session.Ok.of_byteMap {done : List Op} {op : Op} {s : Session} {T : Shape}
    (hc : Cached keccak S s.trie s.db T) (hmap : byteMap T = ((expected done).step op).values)
    (hreads : s.reads = (expected done).reads) (hexp : ((expected done).step op).reads = (expected done).reads) :
    s.Ok keccak S (done ++ [op]) := by
  have hT : T = memShape (done ++ [op]) := hc.eq_memShape (by rw [hmap, expected_append])
  exact ⟨hT ▸ hc, by rw [expected_append, hexp]; exact hreads⟩

section Step

variable (henv : HashEnv keccak S) (hcl : ChildClosed S)
include henv hcl

/-- One step keeps the session invariant. The map operations change the
tree as the map (`Cached.update`, `Cached.delete`), and the tree of the new
map is the one the in-memory trie holds, by uniqueness; the other operations
keep the tree, and `reset` reopens it from the database `Commit` leaves.

The one operation that reads: the value read is the map's. The trie reopened
from the committed root, its nodes loaded from the database. -/
theorem Session.Ok.step {done : List Op} {s : Session} (hs : s.Ok keccak S done)
    (hS : memShape done ≠ .nil → S (memShape done)) (op : Op) :
    ∃ s', s.step keccak op = .ok s' ∧ s'.Ok keccak S (done ++ [op]) := by
  obtain ⟨hc, hreads⟩ := hs
  have hmap := (memTrie_holds done).2
  cases op with
  | update key value =>
      obtain ⟨T', -, hc', hmap'⟩ := hc.update key value
      exact ⟨_, rfl, Session.Ok.of_byteMap hc' (by rw [hmap', hmap]; rfl) hreads rfl⟩
  | delete key =>
      obtain ⟨T', -, hc', hmap'⟩ := hc.delete key
      exact ⟨_, rfl, Session.Ok.of_byteMap hc' (by rw [hmap', hmap]; rfl) hreads rfl⟩
  | get key =>
      obtain ⟨hv, -, hc'⟩ := hc.get key
      refine ⟨_, rfl, ?_, ?_⟩
      · rw [memShape_append_of_keep rfl]
        exact hc'
      · rw [expected_append]
        simp only [Expected.step, hreads, hv, hmap]
  | commit =>
      obtain ⟨t', db', hcommit, -, -, -, hc'⟩ := hc.commit henv hcl hS
      exact ⟨⟨t', db', s.reads⟩, by simp only [Session.step, hcommit], Session.Ok.keep hc' hreads rfl rfl⟩
  | hash =>
      obtain ⟨t', hhash, -, hc'⟩ := hc.hash henv hcl hS
      exact ⟨⟨t', s.db, s.reads⟩, by simp only [Session.step, hhash], Session.Ok.keep hc' hreads rfl rfl⟩
  | reset =>
      obtain ⟨t', db', hcommit, -, -, hst, hc'⟩ := hc.commit henv hcl hS
      obtain ⟨t'', hnew, -, hc''⟩ :=
        Cached.new henv hc.holds.shape hc.holds.byteKeys hc.values hc'.dbOk hS hst
      exact ⟨⟨t'', db', s.reads⟩, by simp only [Session.step, hcommit, hnew],
        Session.Ok.keep hc'' hreads rfl rfl⟩
  | setCacheLimit limit =>
      exact ⟨_, rfl, Session.Ok.keep (hc.setCacheLimit limit) hreads rfl rfl⟩

end Step

/-- A run succeeds, and its final session holds the tree of the test's map.
The invariant of the loop is `Session.Ok` for the operations done so far;
each tree of a prefix is one of the trees the run hashes. -/
theorem run_ok {ops : List Op} (henv : HashEnv keccak (· ∈ runShapes ops)) :
    ∃ s, Session.run keccak ops = .ok s ∧ s.Ok keccak (· ∈ runShapes ops) ops := by
  have hcl := runShapes_childClosed ops
  obtain ⟨s, hfold, hs⟩ := Loop.foldlM_invariant (Session.step keccak)
    (fun done s => s.Ok keccak (· ∈ runShapes ops) done) ops ⟨Trie.empty, freshDb, []⟩ Session.Ok.init
    fun done x rest s hsplit hI =>
      hI.step henv hcl (fun _ => memShape_mem_runShapes ⟨x :: rest, hsplit.symm⟩) x
  refine ⟨s, ?_, hs⟩
  rw [Session.run, New_zero]
  exact hfold

end Run

/-! ## Filling a fresh trie -/

section Fill

variable {α β γ : Type} [DecidableEq α] (g : β → γ)

/-- Updates of keys other than `k` leave the value at `k`. -/
theorem foldl_update_of_not_mem {k : α} :
    ∀ {kvs : List (α × β)} (m : α → γ), k ∉ kvs.map Prod.fst →
      kvs.foldl (fun m kv => Function.update m kv.1 (g kv.2)) m k = m k
  | [], _, _ => rfl
  | kv :: kvs, m, hk => by
      simp only [List.map_cons, List.mem_cons, not_or] at hk
      rw [List.foldl_cons, foldl_update_of_not_mem _ hk.2, Function.update_of_ne hk.1]

/-- With distinct keys, the update of a pair is the last word on its key. -/
theorem foldl_update_of_mem {k : α} {v : β} :
    ∀ {kvs : List (α × β)} (m : α → γ), (kvs.map Prod.fst).Nodup → (k, v) ∈ kvs →
      kvs.foldl (fun m kv => Function.update m kv.1 (g kv.2)) m k = g v
  | [], _, _, h => absurd h List.not_mem_nil
  | kv :: kvs, m, hnd, h => by
      rw [List.map_cons, List.nodup_cons] at hnd
      rw [List.foldl_cons]
      rcases List.mem_cons.1 h with rfl | h
      · rw [foldl_update_of_not_mem g _ hnd.1, Function.update_self]
      · exact foldl_update_of_mem _ hnd.2 h

end Fill

section Fresh

variable {keccak : Bytes → Lemochain.Hash} {S : Shape → Prop}

/-- Filling a trie with pairs keeps the cache condition and updates the map
pair by pair. -/
theorem Cached.fill :
    ∀ (kvs : List (Bytes × Bytes)) {t : Trie} {T : Shape}, Cached keccak S t freshDb T →
      ∃ T', Cached keccak S (kvs.foldl (fun t kv => t.Update (t.resolveHash freshDb) kv.1 kv.2) t) freshDb T' ∧
        byteMap T' = kvs.foldl (fun m kv => Function.update m kv.1 (updateValue kv.2)) (byteMap T)
  | [], _, T, hc => ⟨T, hc, rfl⟩
  | kv :: kvs, _, _, hc => by
      obtain ⟨T₁, -, hc₁, hmap₁⟩ := hc.update kv.1 kv.2
      obtain ⟨T', hc', hmap'⟩ := Cached.fill kvs hc₁
      exact ⟨T', hc', by rw [hmap', hmap₁]; rfl⟩

/-- A fresh trie filled with the pairs of a map, with distinct keys and
non-empty values, in any order, holds the map.

A key the map does not hold is not a key of the list. -/
theorem freshTrie_cached {kvs : List (Bytes × Bytes)} {f : Bytes → Option Bytes}
    (hnd : (kvs.map Prod.fst).Nodup) (hmem : ∀ key value, (key, value) ∈ kvs ↔ f key = some value)
    (hne : ∀ key value, f key = some value → value ≠ []) :
    ∃ T, Cached keccak S (freshTrie kvs) freshDb T ∧ byteMap T = f := by
  have hempty : Cached keccak S Trie.empty freshDb .nil := .empty rfl DbOk.freshDb
  obtain ⟨T, hc, hmap⟩ := Cached.fill kvs hempty
  refine ⟨T, hc, funext fun key => ?_⟩
  rw [hmap]
  cases hf : f key with
  | some value =>
      have hv : updateValue value = some value := by
        rw [updateValue, if_pos]
        exact fun h => hne key value hf (List.eq_nil_of_length_eq_zero h)
      rw [foldl_update_of_mem _ _ hnd ((hmem key value).2 hf), hv]
  | none =>
      have hk : key ∉ kvs.map Prod.fst := by
        simp only [List.mem_map, not_exists, not_and]
        rintro ⟨k, v⟩ h rfl
        rw [(hmem k v).1 h] at hf
        cases hf
      rw [foldl_update_of_not_mem _ _ hk]
      rfl

end Fresh

/-- Trie history independence: for every list of operations, on the one
assumption that `keccak` is collision-free and well-behaved on the blobs of
the trees the run builds, the run succeeds, every `Get` returns what the
map holds, and the root hash is that of a fresh trie filled with the final
map in any order.

The map's values are non-empty, since the tree's are. -/
theorem run_history_independent (keccak : Bytes → Lemochain.Hash) (ops : List Op)
    (henv : HashEnv keccak (· ∈ runShapes ops)) :
    ∃ s, Session.run keccak ops = .ok s ∧ s.Agrees keccak ops := by
  have hcl := runShapes_childClosed ops
  have hS : memShape ops ≠ .nil → memShape ops ∈ runShapes ops :=
    fun _ => memShape_mem_runShapes (List.prefix_refl ops)
  obtain ⟨s, hrun, hc, hreads⟩ := run_ok henv
  have hmap := (memTrie_holds ops).2
  refine ⟨s, hrun, hreads, fun key => by rw [(hc.get key).1, hmap], fun kvs hnd hmem => ?_⟩
  obtain ⟨t₁, h₁, -, -⟩ := hc.hash henv hcl hS
  have hne : ∀ key value, (expected ops).values key = some value → value ≠ [] :=
    fun key value h => hc.values _ value (by rw [← hmap] at h; exact h)
  obtain ⟨T, hcf, hmapf⟩ : ∃ T, Cached keccak (· ∈ runShapes ops) (freshTrie kvs) freshDb T ∧
      byteMap T = (expected ops).values := freshTrie_cached hnd hmem hne
  obtain rfl : T = memShape ops := hcf.eq_memShape hmapf
  obtain ⟨t₂, h₂, -, -⟩ := hcf.hash henv hcl hS
  exact ⟨_, t₁, t₂, h₁, h₂⟩

/-- Two keys under a common nibble, a commit, a delete that collapses the
full node, a reset that reloads the trie from the database, a read and a
hash, hashed with Keccak-256. -/
theorem run_history_independent_reset :
    HashEnv (fun b => BytesToHash (Keccak.keccak256 b))
        (· ∈ runShapes [.update [0x12] [2], .update [0x13] [3], .commit, .delete [0x12], .reset,
          .get [0x13], .hash]) ∧
      ∃ s, Session.run (fun b => BytesToHash (Keccak.keccak256 b)) [.update [0x12] [2], .update [0x13] [3], .commit,
          .delete [0x12], .reset, .get [0x13], .hash] = .ok s ∧
        s.Agrees (fun b => BytesToHash (Keccak.keccak256 b)) [.update [0x12] [2], .update [0x13] [3], .commit,
          .delete [0x12], .reset, .get [0x13], .hash] :=
  have h : HashEnv (fun b => BytesToHash (Keccak.keccak256 b))
      (· ∈ runShapes [.update [0x12] [2], .update [0x13] [3], .commit, .delete [0x12], .reset,
        .get [0x13], .hash]) :=
    HashEnv.of_prefixes _ 1 [[225], [145], [223], [30], [242], [190], [29], [130], [105]] (by decide +kernel)
      (fun i hi => by simp only [List.length_cons, List.length_nil] at hi; interval_cases i <;> decide +kernel)
      (by decide) (by decide) (by decide) (by decide +kernel)
  ⟨h, run_history_independent _ _ h⟩

/-- Commit, `Database.Commit` and `New` round trip: after any run, committing
the trie, committing the database to disk and reopening the trie from the
root returns a trie that holds the same tree, every node loaded back from
its blob with the same keys, values and children, and returns the same
`Get` for every key.

The disk commit changes no read, so the root is still stored. -/
theorem run_commit_reopen (keccak : Bytes → Lemochain.Hash) (ops : List Op)
    (henv : HashEnv keccak (· ∈ runShapes ops)) :
    ∃ s, Session.run keccak ops = .ok s ∧
      ∃ root t' db', s.trie.Commit keccak s.db = .ok (root, t', db') ∧
        ∃ t'', New root (db'.Commit root) = .ok t'' ∧
          Holds (FlagOk keccak (db'.Commit root)) (t''.resolveHash (db'.Commit root)) t'' (memShape ops) ∧
          ∀ key, (t''.Get (t''.resolveHash (db'.Commit root)) key).1 =
            (s.trie.Get (s.trie.resolveHash s.db) key).1 := by
  have hcl := runShapes_childClosed ops
  have hS : memShape ops ≠ .nil → memShape ops ∈ runShapes ops :=
    fun _ => memShape_mem_runShapes (List.prefix_refl ops)
  obtain ⟨s, hrun, hc, -⟩ := run_ok henv
  obtain ⟨t', db', hcommit, -, -, hst, hc'⟩ := hc.commit henv hcl hS
  have hle := DbLe.commit db' (rootHash keccak (memShape ops))
  obtain ⟨t'', hnew, -, hc''⟩ := Cached.new henv hc.holds.shape hc.holds.byteKeys hc.values
    (hc'.dbOk.commit _) hS fun hne => (hst hne).mono hle
  refine ⟨s, hrun, _, t', db', hcommit, t'', hnew, hc''.holds, fun key => ?_⟩
  rw [(hc''.get key).1, (hc.get key).1]

/-- A short node under an extension, a commit with cache limit one and an
update after it, then the round trip, hashed with Keccak-256. -/
theorem run_commit_reopen_reset :
    HashEnv (fun b => BytesToHash (Keccak.keccak256 b))
        (· ∈ runShapes [.update [0x12] [2], .update [0x12, 0x34] [5], .setCacheLimit 1, .commit,
          .update [0x20] [7]]) ∧
      ∃ s, Session.run (fun b => BytesToHash (Keccak.keccak256 b)) [.update [0x12] [2], .update [0x12, 0x34] [5],
          .setCacheLimit 1, .commit, .update [0x20] [7]] = .ok s ∧
        ∃ root t' db', s.trie.Commit (fun b => BytesToHash (Keccak.keccak256 b)) s.db = .ok (root, t', db') ∧
          ∃ t'', New root (db'.Commit root) = .ok t'' ∧
            Holds (FlagOk (fun b => BytesToHash (Keccak.keccak256 b)) (db'.Commit root))
              (t''.resolveHash (db'.Commit root))
              t'' (memShape [.update [0x12] [2], .update [0x12, 0x34] [5], .setCacheLimit 1, .commit,
                .update [0x20] [7]]) ∧
            ∀ key, (t''.Get (t''.resolveHash (db'.Commit root)) key).1 =
              (s.trie.Get (s.trie.resolveHash s.db) key).1 :=
  have h : HashEnv (fun b => BytesToHash (Keccak.keccak256 b))
      (· ∈ runShapes [.update [0x12] [2], .update [0x12, 0x34] [5], .setCacheLimit 1, .commit,
        .update [0x20] [7]]) :=
    HashEnv.of_prefixes _ 1 [[225], [39], [211], [109], [131], [221], [219], [242], [136], [238], [29]]
      (by decide +kernel)
      (fun i hi => by simp only [List.length_cons, List.length_nil] at hi; interval_cases i <;> decide +kernel)
      (by decide) (by decide) (by decide) (by decide +kernel)
  ⟨h, run_commit_reopen _ _ h⟩

end Lemochain.Trie
