import Lemochain.P2p.Netutil

/-!
# The node table of discovery (`p2p/discover/table.go`)

The table keeps the nodes it knows in `nBuckets` buckets by their
logarithmic distance to the local node: the distances up to
`bucketMinDistance` share bucket 0, and each distance above has a bucket of
its own. A bucket holds at most `bucketSize` live entries, the most recently
seen first, and at most `maxReplacements` replacements, which take the place
of an entry that stops answering. Two `DistinctNetSet`s, one for the whole
table and one in each bucket, limit the addresses of the held nodes per /24
subnet; LAN addresses are not counted.

The methods are those of the source, each a function of the table that
returns the table it leaves; the bucket a method works on is given by its
index. A pointer to a node is a node value here: `bump` stores the node it is
given, as the source stores the pointer it is given. The `rand.Intn` of
`replace` is an argument, reduced modulo the number of replacements.

A run applies the operations the table serves under its lock: `add`,
`stuff`, `delete`, and the last step of `doRevalidate` once the ping of the
node it picked has returned, `bump` if the node answered and `replace` if
not. `doRevalidate` picks the last entry of a bucket, but other operations may
run during the ping; the step is taken here for any node, in the bucket of its
hash, which is the bucket the node was picked from.

## Main results

* `bump_spec` — a successful `bump` moves the entry of the node's ID to the
  front, as the given node.
* `addIP_of_false` — a refused address leaves the table as it was.
* `addIP_nodes`, `removeIP_nodes` — the address counters are the only part of
  the table the two change.
-/

namespace Lemochain.Discover

open Lemochain.Netutil

/-- `Node`: the fields the table reads. `sha` is the cached hash of the ID
by which distances are measured; the source's tests set it to any hash they
need. -/
structure Node where
  IP : Bytes
  ID : Bytes
  sha : Hash
  deriving DecidableEq

/-- `bucketSize`. -/
def bucketSize : Nat := 16

/-- `maxReplacements`. -/
def maxReplacements : Nat := 10

/-- `hashBits`. -/
def hashBits : Nat := HashLength * 8

/-- `nBuckets`: the buckets for the upper fifteenth of the distances. -/
def nBuckets : Nat := hashBits / 15

/-- `bucketMinDistance`: the distances up to this share the closest bucket. -/
def bucketMinDistance : Nat := hashBits - nBuckets

/-- `bucketIPLimit` and `bucketSubnet`: two addresses per /24 in a bucket. -/
def bucketIPLimit : Nat := 2

def bucketSubnet : Nat := 24

/-- `tableIPLimit` and `tableSubnet`: ten addresses per /24 in the table. -/
def tableIPLimit : Nat := 10

def tableSubnet : Nat := 24

/-- `lzcount`: the leading zero bits of a byte. -/
def lzcount (x : UInt8) : Nat :=
  if x ≥ 128 then 0 else if x ≥ 64 then 1 else if x ≥ 32 then 2 else if x ≥ 16 then 3
  else if x ≥ 8 then 4 else if x ≥ 4 then 5 else if x ≥ 2 then 6 else if x ≥ 1 then 7 else 8

/-- The loop of `logdist`: the leading zero bits of `a ^ b`, a byte at a
time up to the first that differs. -/
def leadingZeros : Bytes → Bytes → Nat
  | a :: as, b :: bs => if a ^^^ b = 0 then 8 + leadingZeros as bs else lzcount (a ^^^ b)
  | _, _ => 0

/-- `logdist`: the logarithmic distance of two hashes. -/
def logdist (a b : Hash) : Nat := a.bytes.length * 8 - leadingZeros a.bytes b.bytes

theorem logdist_le (a b : Hash) : logdist a b ≤ hashBits := by
  unfold logdist hashBits
  rw [a.length_eq]
  omega

/-- `bucket`: the live entries, the replacements and the address counter. -/
structure Bucket where
  entries : List Node
  replacements : List Node
  ips : DistinctNetSet

/-- `Table`: the buckets, the table-wide address counter and the local
node. -/
structure Table where
  buckets : Fin nBuckets → Bucket
  ips : DistinctNetSet
  self : Node

/-- The index of the bucket `Table.bucket` returns for the hash `sha`, seen
from the local hash `self`. -/
def bucketOf (self sha : Hash) : Fin nBuckets :=
  if logdist self sha ≤ bucketMinDistance then ⟨0, by decide⟩
  else
    ⟨logdist self sha - bucketMinDistance - 1, by
      have := logdist_le self sha
      unfold bucketMinDistance nBuckets at *
      unfold hashBits HashLength at *
      omega⟩

namespace Table

/-- `bucket`. -/
def bucket (tab : Table) (sha : Hash) : Fin nBuckets := bucketOf tab.self.sha sha

/-- Replace bucket `i`. -/
def setBucket (tab : Table) (i : Fin nBuckets) (b : Bucket) : Table :=
  { tab with buckets := Function.update tab.buckets i b }

@[simp] theorem setBucket_self (tab : Table) (i : Fin nBuckets) (b : Bucket) :
    (tab.setBucket i b).self = tab.self := rfl

@[simp] theorem setBucket_ips (tab : Table) (i : Fin nBuckets) (b : Bucket) :
    (tab.setBucket i b).ips = tab.ips := rfl

theorem setBucket_buckets (tab : Table) (i : Fin nBuckets) (b : Bucket) (j : Fin nBuckets) :
    (tab.setBucket i b).buckets j = if j = i then b else tab.buckets j := by
  simp only [setBucket, Function.update_apply]

end Table

/-- `pushNode`: put `n` in front, keeping at most `max` nodes; the node that
falls off the end, if one does. -/
def pushNode (list : List Node) (n : Node) (max : Nat) : List Node × Option Node :=
  if list.length < max then (n :: list, none)
  else (n :: list.dropLast, list.getLast?)

/-- `deleteNode`: remove the first node with `n`'s ID. -/
def deleteNode (list : List Node) (n : Node) : List Node := list.eraseP (·.ID == n.ID)

namespace Bucket

/-- `bump`: move the entry with `n`'s ID to the front, as `n`. -/
def bump (b : Bucket) (n : Node) : Bool × Bucket :=
  match b.entries.findIdx? (·.ID == n.ID) with
  | some i => (true, { b with entries := n :: b.entries.take i ++ b.entries.drop (i + 1) })
  | none => (false, b)

/-- A successful `bump` found an entry with `n`'s ID and put `n` in front in
its place. -/
theorem bump_spec {b : Bucket} {n : Node} (h : (b.bump n).1 = true) :
    ∃ l₁ e l₂, b.entries = l₁ ++ e :: l₂ ∧ e.ID = n.ID ∧
      (b.bump n).2 = { b with entries := n :: (l₁ ++ l₂) } := by
  unfold bump at h ⊢
  cases hf : b.entries.findIdx? (·.ID == n.ID) with
  | none =>
      rw [hf] at h
      cases h
  | some i =>
      obtain ⟨hlt, hp, -⟩ := List.findIdx?_eq_some_iff_getElem.mp hf
      refine ⟨b.entries.take i, b.entries[i], b.entries.drop (i + 1), ?_, ?_, ?_⟩
      · rw [List.getElem_cons_drop, List.take_append_drop]
      · simpa using hp
      · rfl

/-- A failed `bump` found no entry with `n`'s ID and changed nothing. -/
theorem bump_of_false {b : Bucket} {n : Node} (h : (b.bump n).1 = false) :
    (b.bump n).2 = b ∧ ∀ e ∈ b.entries, e.ID ≠ n.ID := by
  unfold bump at h ⊢
  cases hf : b.entries.findIdx? (·.ID == n.ID) with
  | none =>
      refine ⟨rfl, fun e he => ?_⟩
      simpa using List.findIdx?_eq_none_iff.mp hf e he
  | some i =>
      rw [hf] at h
      cases h

end Bucket

namespace Table

/-- `addIP`: count a non-LAN address in the table and in bucket `b`; `false`
if either is full for its subnet, the table's count being taken back. -/
def addIP (tab : Table) (b : Fin nBuckets) (ip : IP) : Bool × Table :=
  if IsLAN ip then (true, tab)
  else if (tab.ips.Add ip).1 = false then (false, tab)
  else if ((tab.buckets b).ips.Add ip).1 = false then (false, { tab with ips := (tab.ips.Add ip).2.Remove ip })
  else
    (true, { tab with ips := (tab.ips.Add ip).2 }.setBucket b
      { tab.buckets b with ips := ((tab.buckets b).ips.Add ip).2 })

/-- `removeIP`: stop counting a non-LAN address. -/
def removeIP (tab : Table) (b : Fin nBuckets) (ip : IP) : Table :=
  if IsLAN ip then tab
  else { tab with ips := tab.ips.Remove ip }.setBucket b { tab.buckets b with ips := (tab.buckets b).ips.Remove ip }

/-- `addReplacement`: put `n` in front of the replacements, unless it is
there already or its address is refused; the replacement that falls off
the end is no longer counted. -/
def addReplacement (tab : Table) (b : Fin nBuckets) (n : Node) : Table :=
  if (tab.buckets b).replacements.any (·.ID == n.ID) then tab
  else
    match addIP tab b n.IP with
    | (false, tab) => tab
    | (true, tab) =>
        let bk := tab.buckets b
        let tab' := tab.setBucket b { bk with replacements := (pushNode bk.replacements n maxReplacements).1 }
        match (pushNode bk.replacements n maxReplacements).2 with
        | some removed => tab'.removeIP b removed.IP
        | none => tab'

/-- `deleteInBucket`: remove the entry with `n`'s ID and stop counting `n`'s
address. -/
def deleteInBucket (tab : Table) (b : Fin nBuckets) (n : Node) : Table :=
  (tab.setBucket b { tab.buckets b with entries := deleteNode (tab.buckets b).entries n }).removeIP b n.IP

/-- `replace`: if `last` is still the last entry, a replacement takes its
place (the `r`-th, modulo their number), or without replacements the entry
is deleted. -/
def replace (tab : Table) (b : Fin nBuckets) (last : Node) (r : Nat) : Option Node × Table :=
  let bk := tab.buckets b
  if bk.entries.getLast?.map (·.ID) ≠ some last.ID then (none, tab)
  else
    match bk.replacements with
    | [] => (none, tab.deleteInBucket b last)
    | r₀ :: rs =>
        let rn := (r₀ :: rs).get ⟨r % (rs.length + 1), Nat.mod_lt _ (Nat.succ_pos _)⟩
        let tab := tab.setBucket b
          { bk with replacements := deleteNode (r₀ :: rs) rn,
                    entries := bk.entries.set (bk.entries.length - 1) rn }
        (some rn, tab.removeIP b last.IP)

/-- `bumpOrAdd`: bump `n`, or else add it in front of the entries if the
bucket is not full and its address is accepted, taking it out of the
replacements; `true` if `n` is then among the entries. -/
def bumpOrAdd (tab : Table) (b : Fin nBuckets) (n : Node) : Bool × Table :=
  match (tab.buckets b).bump n with
  | (true, bk) => (true, tab.setBucket b bk)
  | (false, _) =>
      if (tab.buckets b).entries.length ≥ bucketSize then (false, tab)
      else
        match addIP tab b n.IP with
        | (false, tab) => (false, tab)
        | (true, tab) =>
            let bk := tab.buckets b
            (true, tab.setBucket b
              { bk with entries := (pushNode bk.entries n bucketSize).1,
                        replacements := deleteNode bk.replacements n })

/-- `add`: bump or add `n` in its bucket, or else make it a replacement. -/
def add (tab : Table) (n : Node) : Table :=
  match tab.bumpOrAdd (tab.bucket n.sha) n with
  | (true, tab) => tab
  | (false, tab) => tab.addReplacement (tab.bucket n.sha) n

/-- One node of `stuff`: skip the local node and full buckets. -/
def stuffOne (tab : Table) (n : Node) : Table :=
  if n.ID = tab.self.ID then tab
  else if (tab.buckets (tab.bucket n.sha)).entries.length < bucketSize then
    (tab.bumpOrAdd (tab.bucket n.sha) n).2
  else tab

/-- `stuff`: add nodes to the buckets that are not full. -/
def stuff (tab : Table) (nodes : List Node) : Table := nodes.foldl stuffOne tab

/-- `delete`. -/
def delete (tab : Table) (n : Node) : Table := tab.deleteInBucket (tab.bucket n.sha) n

/-- The end of `doRevalidate` for the node `last` of bucket `b`: `bump` if
it answered the ping, `replace` if not. -/
def revalidated (tab : Table) (b : Fin nBuckets) (last : Node) (ok : Bool) (r : Nat) : Table :=
  if ok then tab.setBucket b ((tab.buckets b).bump last).2
  else (tab.replace b last r).2

end Table

/-- Two tables hold the same nodes: the same local node, and the same
entries and replacements in every bucket. -/
structure SameNodes (tab tab' : Table) : Prop where
  self : tab'.self = tab.self
  entries : ∀ i, (tab'.buckets i).entries = (tab.buckets i).entries
  replacements : ∀ i, (tab'.buckets i).replacements = (tab.buckets i).replacements

namespace SameNodes

theorem refl (tab : Table) : SameNodes tab tab := ⟨rfl, fun _ => rfl, fun _ => rfl⟩

theorem trans {tab tab' tab'' : Table} (h₁ : SameNodes tab tab') (h₂ : SameNodes tab' tab'') :
    SameNodes tab tab'' :=
  ⟨h₂.self.trans h₁.self, fun i => (h₂.entries i).trans (h₁.entries i),
    fun i => (h₂.replacements i).trans (h₁.replacements i)⟩

/-- Changing the address counter of the table. -/
theorem withIps (tab : Table) (s : DistinctNetSet) : SameNodes tab { tab with ips := s } :=
  ⟨rfl, fun _ => rfl, fun _ => rfl⟩

/-- Replacing a bucket by one with the same lists. -/
theorem setBucket {tab : Table} {b : Fin nBuckets} {bk : Bucket}
    (he : bk.entries = (tab.buckets b).entries) (hr : bk.replacements = (tab.buckets b).replacements) :
    SameNodes tab (tab.setBucket b bk) where
  self := rfl
  entries i := by
    rw [Table.setBucket_buckets]
    split_ifs with hi
    · subst hi
      exact he
    · rfl
  replacements i := by
    rw [Table.setBucket_buckets]
    split_ifs with hi
    · subst hi
      exact hr
    · rfl

/-- Two tables with the same nodes, each with bucket `b` replaced by the same
lists. -/
theorem setBucket_congr {tab tab' : Table} (h : SameNodes tab tab') (b : Fin nBuckets) {bk bk' : Bucket}
    (he : bk'.entries = bk.entries) (hr : bk'.replacements = bk.replacements) :
    SameNodes (tab.setBucket b bk) (tab'.setBucket b bk') where
  self := h.self
  entries i := by
    rw [Table.setBucket_buckets, Table.setBucket_buckets]
    split_ifs
    · exact he
    · exact h.entries i
  replacements i := by
    rw [Table.setBucket_buckets, Table.setBucket_buckets]
    split_ifs
    · exact hr
    · exact h.replacements i

end SameNodes

namespace Table

/-- The address counters are all `addIP` changes. -/
theorem addIP_nodes (tab : Table) (b : Fin nBuckets) (ip : IP) : SameNodes tab (tab.addIP b ip).2 := by
  unfold addIP
  split_ifs
  · exact SameNodes.refl tab
  · exact SameNodes.refl tab
  · exact SameNodes.withIps tab _
  · exact (SameNodes.withIps tab _).trans (SameNodes.setBucket (by rfl) (by rfl))

theorem removeIP_nodes (tab : Table) (b : Fin nBuckets) (ip : IP) : SameNodes tab (tab.removeIP b ip) := by
  unfold removeIP
  split_ifs
  · exact SameNodes.refl tab
  · exact (SameNodes.withIps tab _).trans (SameNodes.setBucket (by rfl) (by rfl))

/-- A refused address leaves the table as it was: the table's count, raised
before the bucket refused, is taken back. -/
theorem addIP_of_false {tab : Table} {b : Fin nBuckets} {ip : IP} (h : (tab.addIP b ip).1 = false) :
    (tab.addIP b ip).2 = tab := by
  unfold addIP at h ⊢
  split_ifs at h ⊢ with hlan htab
  · rfl
  · have hadd : (tab.ips.Add ip).1 = true := by simpa using htab
    show { tab with ips := (tab.ips.Add ip).2.Remove ip } = tab
    rw [DistinctNetSet.Remove_Add hadd]

end Table

/-- The table `newTable` makes, before it adds the seed nodes of its
database (which it does with `add`). -/
def newTable (self : Node) : Table where
  buckets := fun _ => ⟨[], [], ⟨bucketSubnet, bucketIPLimit, fun _ => 0⟩⟩
  ips := ⟨tableSubnet, tableIPLimit, fun _ => 0⟩
  self := self

/-- The operations a run of the table is made of. -/
inductive Op where
  | add (n : Node)
  | stuff (nodes : List Node)
  | delete (n : Node)
  | revalidate (last : Node) (ok : Bool) (r : Nat)

/-- One operation. -/
def Op.apply (tab : Table) : Op → Table
  | .add n => tab.add n
  | .stuff nodes => tab.stuff nodes
  | .delete n => tab.delete n
  | .revalidate last ok r => tab.revalidated (tab.bucket last.sha) last ok r

/-- A run: the operations one after the other. -/
def run (tab : Table) (ops : List Op) : Table := ops.foldl Op.apply tab

end Lemochain.Discover
