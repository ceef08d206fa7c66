import Mathlib.Data.List.AList
import Lemochain.Common.Types

/-!
# The trie database (`trie/database.go`)

`Database` is the write layer between tries and the disk: committed trie
nodes are kept in memory (`nodes`, keyed by their hash, with the
reference counts of the garbage collector) until `Database.Commit` writes
the nodes reachable from a root to the disk database and drops them from
memory. `Node` reads memory first and the disk after.

The disk database is a key-value store that never fails (the test suite's
`MemDatabase`): a function from keys to values, written by `Put`. A blob of
the source is a slice that may be `nil`, and an empty slice is not `nil`:
here a blob is an `Option Bytes`, `none` for `nil`. The cache holds one
`nil` blob, the root entry's, and a key of the disk that holds nothing reads
as `nil` too, since `Get` returns `nil` for it, and every reader here treats
the two alike. The maps of the source are `AList`s; their iteration order
(random in Go) is the order of the list, and none of the results here
depends on it.

`Node_Commit` is the property the trie relies on: `Database.Commit` moves
nodes from memory to disk without changing what `Node` returns for any hash.
It holds for every fuel of the two traversals of `Commit`, because
`uncache` only removes what `commit` has written.

`Commit` leaves the meta-root's references to the committed root in place.
A node stored again after a commit is cached with no parents, while the
meta-root still counts its reference (`parents_after_recommit`): the
`parents` counter no longer counts the live references to the node.
-/

namespace Lemochain.Trie

/-- `cachedNode`: the blob of a node (`nil` for the root entry), the number
of live nodes that reference it, and the children it references. -/
structure CachedNode where
  blob : Option Bytes
  parents : Nat
  children : AList (fun _ : Hash => Nat)

/-- One more live node referencing this one. -/
def CachedNode.addParent (n : CachedNode) : CachedNode := { n with parents := n.parents + 1 }

/-- One more reference from this node to `child`. -/
def CachedNode.addChild (n : CachedNode) (child : Hash) : CachedNode :=
  { n with children := n.children.insert child ((n.children.lookup child).getD 0 + 1) }

/-- The disk database: `lemodb.Database` as a key-value map, `none` where
`Get` returns `nil`. -/
abbrev DiskDB := Bytes → Option Bytes

/-- `Database`: the disk database and the memory cache of nodes. The
preimages of the secure trie and the size and garbage-collection counters
are left out. -/
structure Database where
  diskdb : DiskDB
  nodes : AList (fun _ : Hash => CachedNode)

/-- `Put` on the disk database; a `nil` value reads back as `nil`. -/
def DiskDB.Put (d : DiskDB) (key : Bytes) (value : Option Bytes) : DiskDB := Function.update d key value

/-- `NewDatabase`: the cache holds only the entry of the zero hash, to which
roots are referenced. -/
def NewDatabase (diskdb : DiskDB) : Database :=
  ⟨diskdb, AList.singleton Hash.zero ⟨none, 0, ∅⟩⟩

namespace Database

/-- `Database.insert`: cache a node's blob unless the hash is already
known. -/
def insert (db : Database) (hash : Hash) (blob : Bytes) : Database :=
  if hash ∈ db.nodes then db else { db with nodes := db.nodes.insert hash ⟨some blob, 0, ∅⟩ }

/-- `Database.Node`: the cached blob, else what the disk holds. -/
def Node (db : Database) (hash : Hash) : Option Bytes :=
  match db.nodes.lookup hash with
  | some node => node.blob
  | none => db.diskdb hash.bytes

/-- `Database.reference`: count a reference from `parent` to `child`. A
child that is not cached was pulled from disk and is not counted; a
reference that exists is only counted again for the root entry. The parent
is always cached where the hasher calls this (the source would dereference
nil otherwise).

The parent is read again: on a self reference it is the child just updated. -/
def reference (db : Database) (child parent : Hash) : Database :=
  match db.nodes.lookup child, db.nodes.lookup parent with
  | some node, some p =>
      if child ∈ p.children ∧ parent ≠ Hash.zero then db
      else
        let nodes := db.nodes.insert child node.addParent
        match nodes.lookup parent with
        | some p => { db with nodes := nodes.insert parent (p.addChild child) }
        | none => { db with nodes := nodes }
  | _, _ => db

/-- `Database.commit`: write a cached node after its children, depth first.
The recursion follows the child references, which form an acyclic graph
over the cached nodes, so their number bounds its depth.

A node not cached was committed before. -/
def commit (db : Database) : Nat → Hash → DiskDB → DiskDB
  | 0, _, disk => disk
  | fuel + 1, hash, disk =>
      match db.nodes.lookup hash with
      | none => disk
      | some node =>
          let disk := node.children.keys.foldl (fun disk child => db.commit fuel child disk) disk
          disk.Put hash.bytes node.blob

/-- `Database.uncache`: drop a committed node and, before it, its cached
children. -/
def uncache : Nat → Hash → AList (fun _ : Hash => CachedNode) → AList (fun _ : Hash => CachedNode)
  | 0, _, nodes => nodes
  | fuel + 1, hash, nodes =>
      match nodes.lookup hash with
      | none => nodes
      | some node => (node.children.keys.foldl (fun nodes child => uncache fuel child nodes) nodes).erase hash

/-- `Database.Commit`: write the trie below `node` to disk, then drop it from
the cache. -/
def Commit (db : Database) (node : Hash) : Database :=
  let fuel := db.nodes.keys.length
  { diskdb := db.commit fuel node db.diskdb, nodes := uncache fuel node db.nodes }

theorem insert_nodes_of_not_mem {db : Database} {hash : Hash} (h : hash ∉ db.nodes) (blob : Bytes) :
    (db.insert hash blob).nodes = db.nodes.insert hash ⟨some blob, 0, ∅⟩ := by
  simp [insert, h]

/-- A first reference from a cached parent to another cached node. -/
theorem reference_nodes {db : Database} {child parent : Hash} {node p : CachedNode}
    (hc : db.nodes.lookup child = some node) (hp : db.nodes.lookup parent = some p) (hne : parent ≠ child)
    (hnew : child ∉ p.children) :
    (db.reference child parent).nodes = (db.nodes.insert child node.addParent).insert parent (p.addChild child) := by
  unfold reference
  rw [hc, hp]
  simp only [hnew, false_and, if_false]
  rw [AList.lookup_insert_ne hne, hp]

/-- `Commit` of a cached node without children drops it from the cache. -/
theorem Commit_nodes_of_childless {db : Database} {r : Hash} {node : CachedNode}
    (hr : db.nodes.lookup r = some node) (hleaf : node.children.keys = []) :
    (db.Commit r).nodes = db.nodes.erase r := by
  have hmem : r ∈ db.nodes.keys := AList.mem_keys.mp (AList.lookup_isSome.mp (by rw [hr]; rfl))
  obtain ⟨k, hk⟩ : ∃ k, db.nodes.keys.length = k + 1 :=
    ⟨_, (Nat.succ_pred_eq_of_pos (List.length_pos_of_mem hmem)).symm⟩
  simp only [Commit, hk, uncache, hr, hleaf, List.foldl_nil]

end Database

open Database

theorem lookup_NewDatabase (disk : DiskDB) (h : Hash) :
    (NewDatabase disk).nodes.lookup h = if h = Hash.zero then some ⟨none, 0, ∅⟩ else none := by
  rw [NewDatabase, ← AList.insert_empty]
  split_ifs with hh
  · rw [hh, AList.lookup_insert]
  · rw [AList.lookup_insert_ne hh, AList.lookup_empty]

/-- A root referenced from the meta-root and committed, then stored again
(by a later commit of a trie with the same root): it is cached afresh with
no parents, while the meta-root still holds one reference to it.

The first store caches the root, and its reference from the meta-root is its
first. Committing the root drops it, and the second store caches it afresh. -/
theorem parents_after_recommit (r : Hash) (hr : r ≠ Hash.zero) (b : Bytes) :
    let db := (((NewDatabase fun _ => none).insert r b).reference r Hash.zero).Commit r
    ((db.insert r b).nodes.lookup r).map CachedNode.parents = some 0 ∧
      ((db.insert r b).nodes.lookup Hash.zero).bind (fun m => m.children.lookup r) = some 1 := by
  intro db
  have hz : Hash.zero ≠ r := hr.symm
  have hn₀ := lookup_NewDatabase (fun _ => none)
  have hr₀ : r ∉ (NewDatabase fun _ => none).nodes := fun hm => by
    simpa [hn₀, hr] using AList.lookup_isSome.mpr hm
  have h₁ := insert_nodes_of_not_mem hr₀ b
  have h₂ := @reference_nodes _ r Hash.zero _ _
    (by rw [h₁, AList.lookup_insert]) (by rw [h₁, AList.lookup_insert_ne hz, hn₀, if_pos rfl]) hz
    (by simp)
  have h₃ := Commit_nodes_of_childless (r := r) (by rw [h₂, AList.lookup_insert_ne hr, AList.lookup_insert]) rfl
  have hr₃ : r ∉ db.nodes := fun hm => by
    simp [db, h₃] at hm
  have h₄ := insert_nodes_of_not_mem hr₃ b
  constructor
  · rw [h₄, AList.lookup_insert]
    rfl
  · rw [h₄, AList.lookup_insert_ne hz, show db.nodes = _ from h₃, AList.lookup_erase_ne hz, h₂, AList.lookup_insert]
    simp only [Option.bind_some, CachedNode.addChild, AList.lookup_insert, AList.lookup_empty]
    rfl

theorem parents_after_recommit_one :
    BytesToHash [1] ≠ Hash.zero ∧
      let db := (((NewDatabase fun _ => none).insert (BytesToHash [1]) [0x80]).reference (BytesToHash [1])
        Hash.zero).Commit (BytesToHash [1])
      ((db.insert (BytesToHash [1]) [0x80]).nodes.lookup (BytesToHash [1])).map CachedNode.parents = some 0 ∧
        ((db.insert (BytesToHash [1]) [0x80]).nodes.lookup Hash.zero).bind
          (fun m => m.children.lookup (BytesToHash [1])) = some 1 :=
  ⟨by decide, parents_after_recommit (BytesToHash [1]) (by decide) [0x80]⟩

namespace Database

/-! ## What `Commit` keeps -/

/-- `nodes` is a part of `nodes'`: every entry of the first is one of the
second. -/
def SubNodes (nodes nodes' : AList (fun _ : Hash => CachedNode)) : Prop :=
  ∀ h n, nodes.lookup h = some n → nodes'.lookup h = some n

theorem SubNodes.refl (nodes : AList (fun _ : Hash => CachedNode)) : SubNodes nodes nodes :=
  fun _ _ h => h

theorem SubNodes.trans {a b c : AList (fun _ : Hash => CachedNode)} (hab : SubNodes a b)
    (hbc : SubNodes b c) : SubNodes a c :=
  fun h n hn => hbc h n (hab h n hn)

theorem SubNodes.erase (nodes : AList (fun _ : Hash => CachedNode)) (h : Hash) :
    SubNodes (nodes.erase h) nodes := by
  intro x n hx
  by_cases hxh : x = h
  · subst hxh
    simp [AList.lookup_erase] at hx
  · rwa [AList.lookup_erase_ne hxh] at hx

/-- `uncache` only removes nodes.

The fold over the children removes a little more at every child. -/
theorem uncache_sub (fuel : Nat) (hash : Hash) (nodes : AList (fun _ : Hash => CachedNode)) :
    SubNodes (uncache fuel hash nodes) nodes := by
  induction fuel generalizing hash nodes with
  | zero => exact SubNodes.refl _
  | succ fuel ih =>
      simp only [uncache]
      split
      · exact SubNodes.refl _
      · rename_i node _
        refine (SubNodes.erase _ _).trans ?_
        suffices ∀ (cs : List Hash) (nodes' : AList (fun _ : Hash => CachedNode)),
            SubNodes (cs.foldl (fun nodes child => uncache fuel child nodes) nodes') nodes' from
          this _ _
        intro cs
        induction cs with
        | nil => exact fun _ => SubNodes.refl _
        | cons c cs ihc => exact fun nodes' => (ihc _).trans (ih c nodes')

/-- What `commit` writes to a key: the blob of the cached node with that
hash, or nothing. -/
def WritesCached (db : Database) (disk disk' : DiskDB) : Prop :=
  ∀ k, disk' k = disk k ∨ ∃ h node, k = h.bytes ∧ db.nodes.lookup h = some node ∧ disk' k = node.blob

theorem WritesCached.refl (db : Database) (disk : DiskDB) : WritesCached db disk disk :=
  fun _ => .inl rfl

theorem WritesCached.trans {db : Database} {a b c : DiskDB} (hab : WritesCached db a b)
    (hbc : WritesCached db b c) : WritesCached db a c := by
  intro k
  rcases hbc k with h | h
  · rw [h]
    exact hab k
  · exact .inr h

theorem commit_writesCached (db : Database) (fuel : Nat) (hash : Hash) (disk : DiskDB) :
    WritesCached db disk (db.commit fuel hash disk) := by
  induction fuel generalizing hash disk with
  | zero => exact WritesCached.refl _ _
  | succ fuel ih =>
      simp only [commit]
      split
      · exact WritesCached.refl _ _
      · rename_i node hnode
        have hfold : ∀ (cs : List Hash) (disk' : DiskDB),
            WritesCached db disk' (cs.foldl (fun disk child => db.commit fuel child disk) disk') := by
          intro cs
          induction cs with
          | nil => exact fun _ => WritesCached.refl _ _
          | cons c cs ihc => exact fun disk' => (ih c disk').trans (ihc _)
        refine (hfold node.children.keys disk).trans ?_
        intro k
        by_cases hk : k = hash.bytes
        · exact .inr ⟨hash, node, hk, hnode, by simp [DiskDB.Put, hk]⟩
        · exact .inl (by simp [DiskDB.Put, hk])

/-- A key that holds the blob of its cached node keeps it: every write to
it writes that blob. -/
theorem WritesCached.keep {db : Database} {disk disk' : DiskDB} (hw : WritesCached db disk disk')
    {h : Hash} {node : CachedNode} (hnode : db.nodes.lookup h = some node)
    (hk : disk h.bytes = node.blob) : disk' h.bytes = node.blob := by
  rcases hw h.bytes with e | ⟨h', node', hkey, hnode', e⟩
  · rw [e, hk]
  · obtain rfl : h = h' := Hash.ext hkey
    rw [hnode] at hnode'
    cases hnode'
    exact e

/-- Every node that `uncache` removes from a part of the cache has been
written by `commit` with its blob.

The root of the call: written last. The folds over the children, side by
side: the uncache fold runs on a shrinking part of the cache, the commit
fold on a growing disk. Removed at this child: written by its commit, and
kept after. -/
theorem uncache_written (db : Database) (fuel : Nat) (hash : Hash) :
    ∀ (nodes : AList (fun _ : Hash => CachedNode)) (disk : DiskDB), SubNodes nodes db.nodes →
      ∀ h node, nodes.lookup h = some node → (uncache fuel hash nodes).lookup h = none →
        db.commit fuel hash disk h.bytes = node.blob := by
  induction fuel generalizing hash with
  | zero => intro nodes disk _ h node hn hu; simp [uncache, hn] at hu
  | succ fuel ih =>
      intro nodes disk hsub h node hn hu
      have hdb := hsub h node hn
      simp only [uncache] at hu
      split at hu
      · rw [hn] at hu; cases hu
      rename_i rnode hr
      have hrdb := hsub hash rnode hr
      simp only [commit, hrdb]
      by_cases hh : h = hash
      · subst hh
        rw [hdb] at hrdb
        cases hrdb
        simp [DiskDB.Put]
      · rw [AList.lookup_erase_ne hh] at hu
        have hput : ∀ d : DiskDB, d h.bytes = node.blob →
            (d.Put hash.bytes rnode.blob) h.bytes = node.blob := by
          intro d hd
          have : h.bytes ≠ hash.bytes := fun e => hh (Hash.ext e)
          simp [DiskDB.Put, this, hd]
        apply hput
        suffices ∀ (cs : List Hash) (nodes' : AList (fun _ : Hash => CachedNode)) (disk' : DiskDB),
            SubNodes nodes' db.nodes → nodes'.lookup h = some node →
            (cs.foldl (fun nodes child => uncache fuel child nodes) nodes').lookup h = none →
            (cs.foldl (fun disk child => db.commit fuel child disk) disk') h.bytes = node.blob from
          this _ nodes disk hsub hn hu
        intro cs
        induction cs with
        | nil => intro nodes' _ _ hn' hu'; simp [hn'] at hu'
        | cons c cs ihc =>
            intro nodes' disk' hsub' hn' hu'
            simp only [List.foldl_cons] at hu' ⊢
            cases hc : (uncache fuel c nodes').lookup h with
            | none =>
                have hw := ih c nodes' disk' hsub' h node hn' hc
                have hfold : ∀ (cs : List Hash) (d : DiskDB),
                    WritesCached db d (cs.foldl (fun disk child => db.commit fuel child disk) d) := by
                  intro cs
                  induction cs with
                  | nil => exact fun _ => WritesCached.refl _ _
                  | cons c cs ihc' => exact fun d => (commit_writesCached db fuel c d).trans (ihc' _)
                exact (hfold cs _).keep hdb hw
            | some node' =>
                have hsame : node' = node := by
                  have := uncache_sub fuel c nodes' h node' hc
                  rw [hn'] at this
                  exact (Option.some_inj.1 this).symm
                subst hsame
                exact ihc _ _ ((uncache_sub fuel c nodes').trans hsub') hc hu'

/-- `Database.Commit` changes where a node is kept, not what `Node` returns.

Still cached, with the same entry. Never cached, so never written. -/
theorem Node_Commit (db : Database) (root h : Hash) : (db.Commit root).Node h = db.Node h := by
  simp only [Commit, Node]
  cases hu : (uncache db.nodes.keys.length root db.nodes).lookup h with
  | some node =>
      rw [uncache_sub _ _ _ h node hu]
  | none =>
      simp only
      cases hn : db.nodes.lookup h with
      | some node => exact uncache_written db _ root db.nodes db.diskdb (SubNodes.refl _) h node hn hu
      | none =>
          rcases commit_writesCached db db.nodes.keys.length root db.diskdb h.bytes with
            e | ⟨h', node', hkey, hnode', _⟩
          · exact e
          · obtain rfl : h = h' := Hash.ext hkey
            rw [hn] at hnode'
            cases hnode'

/-! ## What `insert` and `reference` keep -/

/-- `insert` leaves the lookup of every other hash alone, and a hash it
finds cached keeps its blob. -/
theorem Node_insert (db : Database) (hash : Hash) (blob : Bytes) (h : Hash) :
    (db.insert hash blob).Node h =
      if hash ∈ db.nodes then db.Node h else if h = hash then some blob else db.Node h := by
  unfold insert
  split
  · rfl
  · split
    · rename_i _ hh
      subst hh
      simp [Node, AList.lookup_insert]
    · rename_i _ hh
      simp [Node, AList.lookup_insert_ne hh]

/-- Two databases with the same disk and the same cached blobs return the
same nodes. -/
theorem Node_congr {diskdb : DiskDB} {nodes nodes' : AList (fun _ : Hash => CachedNode)}
    (hn : ∀ h, (nodes'.lookup h).map CachedNode.blob = (nodes.lookup h).map CachedNode.blob)
    (h : Hash) : Node ⟨diskdb, nodes'⟩ h = Node ⟨diskdb, nodes⟩ h := by
  have := hn h
  simp only [Node]
  cases e : nodes.lookup h <;> cases e' : nodes'.lookup h <;> simp_all

/-- Rewriting a cached entry with the same blob keeps every blob. -/
theorem blobs_insert {nodes : AList (fun _ : Hash => CachedNode)} {x : Hash} {n n' : CachedNode}
    (hx : nodes.lookup x = some n) (hb : n'.blob = n.blob) (y : Hash) :
    ((nodes.insert x n').lookup y).map CachedNode.blob = (nodes.lookup y).map CachedNode.blob := by
  by_cases hy : y = x
  · subst hy
    rw [AList.lookup_insert, hx]
    simp [hb]
  · rw [AList.lookup_insert_ne hy]

/-- `reference` changes reference counts, not blobs. -/
theorem blobs_reference (db : Database) (child parent h : Hash) :
    ((db.reference child parent).nodes.lookup h).map CachedNode.blob = (db.nodes.lookup h).map CachedNode.blob := by
  unfold reference
  split
  · rename_i node p hc _
    split
    · rfl
    · dsimp only
      have h1 := blobs_insert hc (show node.addParent.blob = node.blob from rfl)
      split
      · rename_i p' hp'
        rw [blobs_insert hp' (show (p'.addChild child).blob = p'.blob from rfl) h, h1 h]
      · exact h1 h
  · rfl

theorem reference_diskdb (db : Database) (child parent : Hash) : (db.reference child parent).diskdb = db.diskdb := by
  unfold reference
  split
  · split
    · rfl
    · dsimp only
      split <;> rfl
  · rfl

theorem Node_reference (db : Database) (child parent h : Hash) :
    (db.reference child parent).Node h = db.Node h :=
  calc (db.reference child parent).Node h = Node ⟨db.diskdb, (db.reference child parent).nodes⟩ h := by
        rw [← reference_diskdb db child parent]
    _ = Node ⟨db.diskdb, db.nodes⟩ h := Node_congr (blobs_reference db child parent) h

/-! ## The `nil` blob -/

/-- `insert` caches a blob that is not `nil`, so a `nil` blob of the cache
after it was there before. -/
theorem nil_of_insert {db : Database} {hash h : Hash} {blob : Bytes}
    (hn : ((db.insert hash blob).nodes.lookup h).map CachedNode.blob = some none) :
    (db.nodes.lookup h).map CachedNode.blob = some none := by
  unfold insert at hn
  split at hn
  · exact hn
  · by_cases hh : h = hash
    · subst hh
      simp [AList.lookup_insert] at hn
    · rwa [AList.lookup_insert_ne hh] at hn

/-- `Commit` only drops cached nodes. -/
theorem nil_of_Commit {db : Database} {root h : Hash}
    (hn : ((db.Commit root).nodes.lookup h).map CachedNode.blob = some none) :
    (db.nodes.lookup h).map CachedNode.blob = some none := by
  obtain ⟨n, hl, hb⟩ := Option.map_eq_some_iff.mp hn
  rw [uncache_sub _ _ _ h n hl]
  simp [hb]

end Database

end Lemochain.Trie
