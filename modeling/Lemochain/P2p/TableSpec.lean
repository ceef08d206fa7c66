import Mathlib.Data.List.Nodup
import Lemochain.P2p.Table

/-!
# What every run of the node table keeps, and what it does not

`NodesOk` is what a bucket's lists must satisfy: every node sits in the
bucket of its hash, there are at most `bucketSize` entries and
`maxReplacements` replacements, and no ID occurs twice among them. Each
method has one spec lemma that says which lists it leaves in the bucket it
works on (`bumpOrAdd_spec`, `addReplacement_spec`, `deleteInBucket_spec`,
`replace_spec`); with the list lemmas of `NodesOk` these give the invariant
of every operation, and by induction of every run (`run_ok`).

The address counters are another matter. `bumpOrAdd` counts the address of
the node it adds, also when the node comes from the replacements, where its
address is counted already; `deleteInBucket` stops counting the address of
the node it is given, also when no entry has that node's ID. So the counters
drift from the nodes the table holds, both ways (`table_ip_counters_drift`).

## Main results

* `run_ok` — every run keeps `Table.Ok`; with `newTable_ok`, every table a
  run of `newTable` reaches satisfies it.
* `table_ip_counters_drift` — two runs from `newTable` where a counter of a
  subnet is two: in the first the table holds one node of the subnet, in the
  second one bucket holds three, above `bucketIPLimit`.
-/

namespace Lemochain.Discover

open Lemochain.Netutil

open scoped List

/-- Bucket `b` with the lists `es` and `rs`. -/
def Table.withNodes (tab : Table) (b : Fin nBuckets) (es rs : List Node) : Table :=
  tab.setBucket b { tab.buckets b with entries := es, replacements := rs }

theorem SameNodes.withNodes {tab tab' : Table} (h : SameNodes tab tab') (b : Fin nBuckets) (es rs : List Node) :
    SameNodes (tab.withNodes b es rs) (tab'.withNodes b es rs) :=
  h.setBucket_congr b rfl rfl

/-! ## The lists of a bucket -/

/-- The lists of bucket `i`, seen from the local hash `selfSha`. -/
structure NodesOk (selfSha : Hash) (i : Fin nBuckets) (es rs : List Node) : Prop where
  placed : ∀ n ∈ es ++ rs, bucketOf selfSha n.sha = i
  entries_le : es.length ≤ bucketSize
  replacements_le : rs.length ≤ maxReplacements
  nodup : ((es ++ rs).map Node.ID).Nodup

/-- An ID of a list of distinct IDs is not among the others. -/
theorem ID_not_mem_of_nodup {l₁ l₂ : List Node} {x : Node} (h : ((l₁ ++ x :: l₂).map Node.ID).Nodup) :
    x.ID ∉ (l₁ ++ l₂).map Node.ID := by
  rw [List.map_append, List.map_cons] at h
  have h' := List.nodup_middle.mp h
  rw [List.map_append]
  exact (List.nodup_cons.mp h').1

/-- `deleteNode` removes the only node with `n`'s ID. -/
theorem ID_not_mem_deleteNode {l : List Node} (n : Node) (h : (l.map Node.ID).Nodup) :
    n.ID ∉ (deleteNode l n).map Node.ID := by
  by_cases hx : ∃ x ∈ l, x.ID = n.ID
  · obtain ⟨x, hx, hid⟩ := hx
    obtain ⟨y, l₁, l₂, -, hy, rfl, hdel⟩ :=
      @List.exists_of_eraseP _ (fun y => y.ID == n.ID) l x hx (by simpa using hid)
    have hy' : y.ID = n.ID := by simpa using hy
    rw [deleteNode, hdel, ← hy']
    exact ID_not_mem_of_nodup h
  · have hall : ∀ x ∈ l, ¬(x.ID == n.ID) = true := fun x hxl hxn => hx ⟨x, hxl, by simpa using hxn⟩
    rw [deleteNode, List.eraseP_of_forall_not hall]
    simpa using hx

theorem deleteNode_sublist (l : List Node) (n : Node) : deleteNode l n <+ l := List.eraseP_sublist

/-- `pushNode` puts the node in front of a part of the list that leaves room
for it. -/
theorem pushNode_fst {l : List Node} {max : Nat} (n : Node) (h : l.length ≤ max) (hmax : 0 < max) :
    ∃ l', (pushNode l n max).1 = n :: l' ∧ l' <+ l ∧ l'.length < max := by
  unfold pushNode
  split_ifs with hlt
  · exact ⟨l, rfl, List.Sublist.refl l, hlt⟩
  · refine ⟨l.dropLast, rfl, List.dropLast_sublist l, ?_⟩
    rw [List.length_dropLast]
    omega

namespace NodesOk

variable {selfSha : Hash} {i : Fin nBuckets} {es rs : List Node}

theorem sublist (h : NodesOk selfSha i es rs) {es' rs' : List Node} (he : es' <+ es) (hr : rs' <+ rs) :
    NodesOk selfSha i es' rs' where
  placed n hn := h.placed n ((he.append hr).subset hn)
  entries_le := Nat.le_trans he.length_le h.entries_le
  replacements_le := Nat.le_trans hr.length_le h.replacements_le
  nodup := h.nodup.sublist ((he.append hr).map _)

theorem perm_entries (h : NodesOk selfSha i es rs) {es' : List Node} (hp : es ~ es') : NodesOk selfSha i es' rs where
  placed n hn := h.placed n (((hp.append_right rs).mem_iff).mpr hn)
  entries_le := hp.length_eq ▸ h.entries_le
  replacements_le := h.replacements_le
  nodup := h.nodup.perm ((hp.append_right rs).map _)

/-- A new node, placed right and with an ID not yet there, in front of the
entries. -/
theorem cons_entry (h : NodesOk selfSha i es rs) {n : Node} (hn : bucketOf selfSha n.sha = i)
    (hid : n.ID ∉ (es ++ rs).map Node.ID) (hlen : es.length < bucketSize) : NodesOk selfSha i (n :: es) rs where
  placed x hx := by
    rcases List.mem_cons.mp hx with rfl | hx
    · exact hn
    · exact h.placed x hx
  entries_le := hlen
  replacements_le := h.replacements_le
  nodup := List.nodup_cons.mpr ⟨hid, h.nodup⟩

/-- The same in front of the replacements. -/
theorem cons_replacement (h : NodesOk selfSha i es rs) {n : Node} (hn : bucketOf selfSha n.sha = i)
    (hid : n.ID ∉ (es ++ rs).map Node.ID) (hlen : rs.length < maxReplacements) :
    NodesOk selfSha i es (n :: rs) where
  placed x hx := by
    rcases List.mem_append.mp hx with hx | hx
    · exact h.placed x (List.mem_append_left rs hx)
    · rcases List.mem_cons.mp hx with rfl | hx
      · exact hn
      · exact h.placed x (List.mem_append_right es hx)
  entries_le := h.entries_le
  replacements_le := hlen
  nodup := (List.nodup_cons.mpr ⟨hid, h.nodup⟩).perm (List.perm_middle.map Node.ID).symm

/-- What `bump` does to the entries: the entry `e` with `n`'s ID is taken out
and `n` put in front. -/
theorem bump {l₁ l₂ : List Node} {e n : Node} (h : NodesOk selfSha i (l₁ ++ e :: l₂) rs) (hid : e.ID = n.ID)
    (hn : bucketOf selfSha n.sha = i) : NodesOk selfSha i (n :: (l₁ ++ l₂)) rs := by
  have hsub : NodesOk selfSha i (l₁ ++ l₂) rs :=
    h.sublist ((List.Sublist.refl l₁).append (List.sublist_cons_self e l₂)) (List.Sublist.refl rs)
  have hnot : n.ID ∉ (l₁ ++ l₂ ++ rs).map Node.ID := by
    have hnd := h.nodup
    rw [List.append_assoc, List.cons_append] at hnd
    rw [List.append_assoc, ← hid]
    exact ID_not_mem_of_nodup hnd
  have hlen : (l₁ ++ l₂).length < bucketSize := by
    have := h.entries_le
    simp only [List.length_append, List.length_cons] at this ⊢
    omega
  exact hsub.cons_entry hn hnot hlen

/-- What `bumpOrAdd` does when it adds: `n` in front of the entries, and out
of the replacements. -/
theorem addEntry (h : NodesOk selfSha i es rs) {n : Node} (hnot : ∀ e ∈ es, e.ID ≠ n.ID)
    (hlen : es.length < bucketSize) (hn : bucketOf selfSha n.sha = i) :
    NodesOk selfSha i (n :: es) (deleteNode rs n) := by
  have hsub := h.sublist (List.Sublist.refl es) (deleteNode_sublist rs n)
  have hrs : (rs.map Node.ID).Nodup := h.nodup.sublist ((List.sublist_append_right es rs).map _)
  have hid : n.ID ∉ (es ++ deleteNode rs n).map Node.ID := by
    rw [List.map_append, List.mem_append, not_or]
    refine ⟨fun hm => ?_, ID_not_mem_deleteNode n hrs⟩
    obtain ⟨e, he, hid⟩ := List.mem_map.mp hm
    exact hnot e he hid
  exact hsub.cons_entry hn hid hlen

/-- What `addReplacement` does when it adds: `n` in front of the
replacements. -/
theorem addReplacement (h : NodesOk selfSha i es rs) {n : Node} (hes : ∀ e ∈ es, e.ID ≠ n.ID)
    (hrs : ∀ r ∈ rs, r.ID ≠ n.ID) (hn : bucketOf selfSha n.sha = i) :
    NodesOk selfSha i es (pushNode rs n maxReplacements).1 := by
  obtain ⟨rs', hpush, hsub, hlen⟩ := pushNode_fst n h.replacements_le (by decide)
  rw [hpush]
  have hid : n.ID ∉ (es ++ rs').map Node.ID := by
    intro hm
    obtain ⟨x, hx, hid⟩ := List.mem_map.mp hm
    rcases List.mem_append.mp hx with hx | hx
    · exact hes x hx hid
    · exact hrs x (hsub.subset hx) hid
  exact (h.sublist (List.Sublist.refl es) hsub).cons_replacement hn hid hlen

/-- What `deleteInBucket` does: an entry taken out. -/
theorem delete (h : NodesOk selfSha i es rs) (n : Node) : NodesOk selfSha i (deleteNode es n) rs :=
  h.sublist (deleteNode_sublist es n) (List.Sublist.refl rs)

/-- What `replace` does: the last entry replaced by a replacement, which
leaves the replacements. -/
theorem replace {l : List Node} {e rn : Node} (h : NodesOk selfSha i (l ++ [e]) rs) (hrn : rn ∈ rs) :
    NodesOk selfSha i (l ++ [rn]) (deleteNode rs rn) := by
  obtain ⟨x, r₁, r₂, -, hx, hrs, hdel⟩ :=
    @List.exists_of_eraseP _ (fun y => y.ID == rn.ID) rs rn hrn (by simp)
  have hxid : x.ID = rn.ID := by simpa using hx
  rw [deleteNode, hdel]
  have hsub : NodesOk selfSha i l (r₁ ++ r₂) := by
    refine h.sublist (List.sublist_append_left l [e]) ?_
    rw [hrs]
    exact (List.Sublist.refl r₁).append (List.sublist_cons_self x r₂)
  have hid : rn.ID ∉ (l ++ (r₁ ++ r₂)).map Node.ID := by
    have hnd := h.nodup
    rw [hrs, ← List.append_assoc] at hnd
    have hx' := ID_not_mem_of_nodup hnd
    rw [hxid] at hx'
    intro hm
    apply hx'
    simp only [List.map_append, List.mem_append] at hm ⊢
    tauto
  have hlen : l.length < bucketSize := by
    have := h.entries_le
    simp only [List.length_append, List.length_singleton] at this
    omega
  exact (hsub.cons_entry (h.placed rn (List.mem_append_right _ hrn)) hid hlen).perm_entries
    (List.perm_append_singleton rn l).symm

end NodesOk

/-! ## What each method leaves in its bucket -/

namespace Table

/-- `bumpOrAdd` bumps an entry, adds `n` in front, or changes no list.

No entry has `n`'s ID. -/
theorem bumpOrAdd_spec (tab : Table) (b : Fin nBuckets) (n : Node) :
    ((tab.bumpOrAdd b n).1 = true ∧ ∃ l₁ e l₂, (tab.buckets b).entries = l₁ ++ e :: l₂ ∧ e.ID = n.ID ∧
        SameNodes (tab.withNodes b (n :: (l₁ ++ l₂)) (tab.buckets b).replacements) (tab.bumpOrAdd b n).2) ∨
      ((tab.bumpOrAdd b n).1 = true ∧ (∀ e ∈ (tab.buckets b).entries, e.ID ≠ n.ID) ∧
        (tab.buckets b).entries.length < bucketSize ∧
        SameNodes (tab.withNodes b (n :: (tab.buckets b).entries) (deleteNode (tab.buckets b).replacements n))
          (tab.bumpOrAdd b n).2) ∨
      ((tab.bumpOrAdd b n).1 = false ∧ (∀ e ∈ (tab.buckets b).entries, e.ID ≠ n.ID) ∧
        SameNodes tab (tab.bumpOrAdd b n).2) := by
  unfold bumpOrAdd
  rcases hbump : (tab.buckets b).bump n with ⟨_ | _, bk⟩
  · obtain ⟨-, hnot⟩ := Bucket.bump_of_false (by rw [hbump])
    dsimp only
    split_ifs with hfull
    · exact .inr (.inr ⟨rfl, hnot, SameNodes.refl tab⟩)
    · have hs := addIP_nodes tab b n.IP
      rcases hadd : tab.addIP b n.IP with ⟨_ | _, tab'⟩
      · rw [hadd] at hs
        exact .inr (.inr ⟨rfl, hnot, hs⟩)
      · rw [hadd] at hs
        have hpush : (pushNode (tab'.buckets b).entries n bucketSize).1 = n :: (tab.buckets b).entries := by
          rw [hs.entries b]
          unfold pushNode
          rw [if_pos (by omega)]
        refine .inr (.inl ⟨rfl, hnot, by omega, ?_⟩)
        dsimp only
        rw [hpush, hs.replacements b]
        exact hs.withNodes b _ _
  · obtain ⟨l₁, e, l₂, hes, hid, hbk⟩ := Bucket.bump_spec (by rw [hbump])
    rw [hbump] at hbk
    refine .inl ⟨rfl, l₁, e, l₂, hes, hid, ?_⟩
    dsimp only
    rw [show bk = _ from hbk]
    exact SameNodes.refl _

/-- `addReplacement` puts `n` in front of the replacements or changes no
list. -/
theorem addReplacement_spec (tab : Table) (b : Fin nBuckets) (n : Node) :
    SameNodes tab (tab.addReplacement b n) ∨
      ((∀ r ∈ (tab.buckets b).replacements, r.ID ≠ n.ID) ∧
        SameNodes (tab.withNodes b (tab.buckets b).entries
          (pushNode (tab.buckets b).replacements n maxReplacements).1) (tab.addReplacement b n)) := by
  unfold addReplacement
  split_ifs with hany
  · exact .inl (SameNodes.refl tab)
  · have hnot : ∀ r ∈ (tab.buckets b).replacements, r.ID ≠ n.ID := by simpa using hany
    have hs := addIP_nodes tab b n.IP
    rcases hadd : tab.addIP b n.IP with ⟨_ | _, tab'⟩
    · rw [hadd] at hs
      exact .inl hs
    · rw [hadd] at hs
      refine .inr ⟨hnot, ?_⟩
      dsimp only
      have hbase : SameNodes (tab.withNodes b (tab.buckets b).entries
            (pushNode (tab.buckets b).replacements n maxReplacements).1)
          (tab'.setBucket b { tab'.buckets b with
            replacements := (pushNode (tab'.buckets b).replacements n maxReplacements).1 }) := by
        rw [hs.replacements b]
        exact hs.setBucket_congr b (hs.entries b) rfl
      split
      · exact hbase.trans (removeIP_nodes _ _ _)
      · exact hbase

/-- `deleteInBucket` takes the entry out. -/
theorem deleteInBucket_spec (tab : Table) (b : Fin nBuckets) (n : Node) :
    SameNodes (tab.withNodes b (deleteNode (tab.buckets b).entries n) (tab.buckets b).replacements)
      (tab.deleteInBucket b n) :=
  removeIP_nodes _ _ _

/-- `replace` changes no list, deletes the entry, or puts a replacement in
the place of the last entry. -/
theorem replace_spec (tab : Table) (b : Fin nBuckets) (last : Node) (r : Nat) :
    SameNodes tab (tab.replace b last r).2 ∨
      SameNodes (tab.withNodes b (deleteNode (tab.buckets b).entries last) (tab.buckets b).replacements)
        (tab.replace b last r).2 ∨
      ∃ l e rn, (tab.buckets b).entries = l ++ [e] ∧ rn ∈ (tab.buckets b).replacements ∧
        SameNodes (tab.withNodes b (l ++ [rn]) (deleteNode (tab.buckets b).replacements rn))
          (tab.replace b last r).2 := by
  unfold replace
  dsimp only
  split_ifs with hlast
  · exact .inl (SameNodes.refl tab)
  · split
    · exact .inr (.inl (deleteInBucket_spec tab b last))
    · rename_i r₀ rs hrs
      obtain ⟨e, he⟩ : ∃ e, (tab.buckets b).entries.getLast? = some e := by
        cases h : (tab.buckets b).entries.getLast? with
        | none => simp [h] at hlast
        | some e => exact ⟨e, rfl⟩
      obtain ⟨l, hl⟩ := List.getLast?_eq_some_iff.mp he
      refine .inr (.inr ⟨l, e, (r₀ :: rs).get ⟨r % (rs.length + 1), Nat.mod_lt _ (Nat.succ_pos _)⟩, hl,
        by rw [hrs]; exact List.get_mem _ _, ?_⟩)
      have hset : ∀ x : Node, (tab.buckets b).entries.set ((tab.buckets b).entries.length - 1) x = l ++ [x] := by
        intro x
        rw [hl]
        simp
      rw [hset, hrs]
      exact removeIP_nodes _ _ _

end Table

/-! ## The invariant of a run -/

/-- Every bucket's lists satisfy `NodesOk`. -/
def Table.Ok (tab : Table) : Prop :=
  ∀ i, NodesOk tab.self.sha i (tab.buckets i).entries (tab.buckets i).replacements

namespace Table.Ok

variable {tab : Table}

theorem of_sameNodes {tab' : Table} (hok : tab.Ok) (h : SameNodes tab tab') : tab'.Ok := by
  intro i
  rw [h.self, h.entries i, h.replacements i]
  exact hok i

/-- A method that leaves the lists `es` and `rs` in bucket `b`, and all else
as it was, keeps the invariant when these lists are right. -/
theorem step {tab' : Table} {b : Fin nBuckets} {es rs : List Node} (hok : tab.Ok)
    (h : NodesOk tab.self.sha b es rs) (hs : SameNodes (tab.withNodes b es rs) tab') : tab'.Ok := by
  apply of_sameNodes _ hs
  intro i
  simp only [withNodes, setBucket_self, setBucket_buckets]
  split_ifs with hi
  · subst hi
    exact h
  · exact hok i

theorem bumpOrAdd (hok : tab.Ok) {b : Fin nBuckets} {n : Node} (hb : bucketOf tab.self.sha n.sha = b) :
    (tab.bumpOrAdd b n).2.Ok := by
  rcases bumpOrAdd_spec tab b n with ⟨-, l₁, e, l₂, hes, hid, hs⟩ | ⟨-, hnot, hlen, hs⟩ | ⟨-, -, hs⟩
  · have h := hok b
    rw [hes] at h
    exact hok.step (h.bump hid hb) hs
  · exact hok.step ((hok b).addEntry hnot hlen hb) hs
  · exact hok.of_sameNodes hs

theorem addReplacement (hok : tab.Ok) {b : Fin nBuckets} {n : Node} (hb : bucketOf tab.self.sha n.sha = b)
    (hnot : ∀ e ∈ (tab.buckets b).entries, e.ID ≠ n.ID) : (tab.addReplacement b n).Ok := by
  rcases addReplacement_spec tab b n with hs | ⟨hrs, hs⟩
  · exact hok.of_sameNodes hs
  · exact hok.step ((hok b).addReplacement hnot hrs hb) hs

theorem replace (hok : tab.Ok) (b : Fin nBuckets) (last : Node) (r : Nat) : (tab.replace b last r).2.Ok := by
  rcases replace_spec tab b last r with hs | hs | ⟨l, e, rn, hes, hrn, hs⟩
  · exact hok.of_sameNodes hs
  · exact hok.step ((hok b).delete last) hs
  · have h := hok b
    rw [hes] at h
    exact hok.step (h.replace hrn) hs

/-- `add`: when `bumpOrAdd` fails, no entry has the node's ID, so it may
become a replacement. -/
theorem add (hok : tab.Ok) (n : Node) : (tab.add n).Ok := by
  unfold Table.add
  have hb : bucketOf tab.self.sha n.sha = tab.bucket n.sha := rfl
  rcases hres : tab.bumpOrAdd (tab.bucket n.sha) n with ⟨_ | _, tab'⟩
  · rcases bumpOrAdd_spec tab (tab.bucket n.sha) n with ⟨h, -⟩ | ⟨h, -⟩ | ⟨-, hnot, hs⟩
    · rw [hres] at h
      cases h
    · rw [hres] at h
      cases h
    · rw [hres] at hs
      have hok' : tab'.Ok := hok.of_sameNodes hs
      have hbucket : tab'.bucket n.sha = tab.bucket n.sha := by
        unfold bucket
        rw [hs.self]
      dsimp only
      rw [hbucket]
      refine hok'.addReplacement (by rw [hs.self]; exact hb) ?_
      rw [hs.entries]
      exact hnot
  · have h := hok.bumpOrAdd hb
    rw [hres] at h
    exact h

theorem stuffOne (hok : tab.Ok) (n : Node) : (tab.stuffOne n).Ok := by
  unfold Table.stuffOne
  split_ifs
  · exact hok
  · exact hok.bumpOrAdd rfl
  · exact hok

theorem stuff : ∀ (nodes : List Node) {tab : Table}, tab.Ok → (tab.stuff nodes).Ok
  | [], _, hok => hok
  | n :: nodes, _, hok => stuff nodes (hok.stuffOne n)

theorem delete (hok : tab.Ok) (n : Node) : (tab.delete n).Ok :=
  hok.step ((hok _).delete n) (deleteInBucket_spec _ _ _)

/-- The last step of `doRevalidate`, in the bucket of the node's hash. -/
theorem revalidated (hok : tab.Ok) {b : Fin nBuckets} {last : Node} (hb : bucketOf tab.self.sha last.sha = b)
    (ok : Bool) (r : Nat) : (tab.revalidated b last ok r).Ok := by
  unfold Table.revalidated
  split_ifs
  · rcases hf : ((tab.buckets b).bump last).1 with _ | _
    · rw [(Bucket.bump_of_false hf).1]
      exact hok.of_sameNodes (SameNodes.setBucket rfl rfl)
    · obtain ⟨l₁, e, l₂, hes, hid, hbk⟩ := Bucket.bump_spec hf
      have h := hok b
      rw [hes] at h
      rw [hbk]
      exact hok.step (h.bump hid hb) (SameNodes.refl _)
  · exact hok.replace b last r

theorem apply (hok : tab.Ok) : ∀ op : Op, (Op.apply tab op).Ok
  | .add n => hok.add n
  | .stuff nodes => stuff nodes hok
  | .delete n => hok.delete n
  | .revalidate _ ok r => hok.revalidated rfl ok r

end Table.Ok

/-- Every run keeps the invariant (induction on the operations). -/
theorem run_ok : ∀ (ops : List Op) {tab : Table}, tab.Ok → (run tab ops).Ok
  | [], _, hok => hok
  | op :: ops, _, hok => run_ok ops (hok.apply op)

theorem newTable_ok (self : Node) : (newTable self).Ok := fun _ =>
  ⟨fun _ hn => absurd hn List.not_mem_nil, Nat.zero_le _, Nat.zero_le _, List.nodup_nil⟩

/-! ## The address counters -/

/-- The held nodes of bucket `b` whose address its counter counts under the
key `k`. -/
def Bucket.held (b : Bucket) (k : Bytes) : Nat :=
  ((b.entries ++ b.replacements).filter fun n => !IsLAN n.IP && b.ips.key n.IP == k).length

/-- The nodes the table holds, bucket by bucket. -/
def Table.nodes (tab : Table) : List Node :=
  (List.finRange nBuckets).flatMap fun i => (tab.buckets i).entries ++ (tab.buckets i).replacements

/-- The held nodes whose address the table's counter counts under `k`. -/
def Table.held (tab : Table) (k : Bytes) : Nat :=
  (tab.nodes.filter fun n => !IsLAN n.IP && tab.ips.key n.IP == k).length

/-- A local node for the runs below, at hash zero. -/
def localNode : Node := ⟨[127, 0, 0, 1], [0], Hash.zero⟩

/-- A hash at the largest distance from zero, the distance of the last
bucket. -/
def farHash (k : UInt8) : Hash := ⟨0x80 :: List.replicate 30 0 ++ [k], by simp [HashLength]⟩

/-- The last bucket, of the nodes at `farHash`. -/
def lastBucket : Fin nBuckets := ⟨16, by decide⟩

/-- The key of the subnet `1.2.3.0/24` in either counter. -/
def subnetKey : Bytes := [0x34, 1, 2, 3]

/-- A node with the LAN address `10.0.0.k`. -/
def lanNode (k : UInt8) : Node := ⟨[10, 0, 0, k], [k], farHash k⟩

/-- A node with the address `1.2.3.k`. -/
def subnetNode (k : UInt8) : Node := ⟨[1, 2, 3, k], [k], farHash k⟩

/-- Sixteen LAN nodes fill the last bucket; `subnetNode 100` becomes a
replacement; an entry is deleted; added again, `subnetNode 100` moves from
the replacements to the entries, and `bumpOrAdd` counts its address a
second time. -/
def doubleCountRun : List Op :=
  ((List.range 16).map fun k => Op.add (lanNode (k + 1).toUInt8)) ++
    [.add (subnetNode 100), .delete (lanNode 1), .add (subnetNode 100)]

/-- Two nodes of `1.2.3.0/24`; the delete of a third one that the table does
not hold uncounts its address; a fourth is admitted. -/
def underCountRun : List Op :=
  [.add (subnetNode 1), .add (subnetNode 2), .delete (subnetNode 3), .add (subnetNode 4)]

/-- The counters do not count the held nodes. After `doubleCountRun` both
counters hold two for `1.2.3.0/24` and the table one node of it, so a
second node of the subnet is refused by the bucket. After `underCountRun`
the bucket counter holds two and the bucket three nodes of the subnet, above
`bucketIPLimit`. -/
theorem table_ip_counters_drift :
    ((run (newTable localNode) doubleCountRun).buckets lastBucket).ips.members subnetKey = 2 ∧
      ((run (newTable localNode) doubleCountRun).buckets lastBucket).held subnetKey = 1 ∧
      (run (newTable localNode) doubleCountRun).ips.members subnetKey = 2 ∧
      (run (newTable localNode) doubleCountRun).held subnetKey = 1 ∧
      ((run (newTable localNode) underCountRun).buckets lastBucket).ips.members subnetKey = 2 ∧
      ((run (newTable localNode) underCountRun).buckets lastBucket).held subnetKey = 3 ∧
      bucketIPLimit < ((run (newTable localNode) underCountRun).buckets lastBucket).held subnetKey := by
  decide +kernel

end Lemochain.Discover
