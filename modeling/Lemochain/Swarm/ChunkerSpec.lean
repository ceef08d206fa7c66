import Mathlib.Order.Lattice.Nat
import Lemochain.Swarm.Chunker
import Lemochain.Lib.Loop

/-!
# What the tree chunker stores and what `ReadAt` reads back

`Represents store depth treeSize chunk content` says that the subtree of
`chunk`, read the way `join` reads it, holds `content`: a leaf holds it after
its eight bytes of length, and a node holds the keys of its children, one
for each `treeSize` bytes of the content, each child retrievable from the
store and representing its part. `Split` makes such a tree (`split_ok`),
and `join` over a window of the content copies the window (`join_spec`).

A window that reaches past the part of the last child of a node is another
matter: the loop of `join` slices the key slot one past the node's keys,
out of the node's data, and panics (`join_past_last_child`). `ReadAt` asks
`join` for the whole buffer from `off`, whatever the size of the document,
so a buffer that reaches far enough past the end makes `ReadAt` panic.

## Main results

* `Split_ok`: `Split` keys every chunk it emits by the hash of its length
  and data, and returns the key of a tree of the document.
* `ReadAt_Split`: with a store that serves those chunks, `ReadAt` of a
  window within the document copies the window.
* `join_error`: on such a tree, `join` fails only by a panic.
* `ReadAt_past_last_child_panics`: `ReadAt` of a buffer that ends past the
  part of the root's last child panics.
-/

namespace Lemochain.Swarm

open Lemochain.Slice Lemochain.Loop

namespace TreeChunker

variable {self : TreeChunker}

/-- A chunker whose keys have a positive size, with at least two branches,
and whose hash of an eight-byte length and some data has `hashSize` bytes. -/
structure Lawful (chunker : TreeChunker) : Prop where
  hashSize_pos : 0 < chunker.hashSize
  two_le_branches : 2 ≤ chunker.branches
  length_hashFunc : ∀ span data, span.length = 8 → (chunker.hashFunc span data).length = chunker.hashSize

@[simp] theorem length_PutUint64 (v : UInt64) : (PutUint64 v).length = 8 := by
  simp [PutUint64]

@[simp] theorem length_keySlot (h : Bytes) : (self.keySlot h).length = self.hashSize := by
  simp [keySlot]

theorem keySlot_of_length {h : Bytes} (hl : h.length = self.hashSize) : self.keySlot h = h :=
  copy_of_length (by rw [hl, List.length_replicate])

theorem Lawful.chunkSize_pos (hl : self.Lawful) : 0 < self.chunkSize :=
  Nat.mul_pos hl.hashSize_pos (by have := hl.two_le_branches; omega)

/-! ## The depth loop -/

/-- The depth loop ends at the first tree size `t * branches ^ j` that
holds `size`, when one within the fuel does.

One more level: the bound is one power lower from `t * branches`. -/
theorem treeDepth_spec (size : Nat) :
    ∀ fuel d t, (∃ j < fuel, size ≤ t * self.branches ^ j) →
      ∃ j, self.treeDepth size fuel d t = some (d + j, t * self.branches ^ j) ∧
        size ≤ t * self.branches ^ j ∧ ∀ i < j, t * self.branches ^ i < size := by
  intro fuel
  induction fuel with
  | zero =>
      intro d t hf
      obtain ⟨j, hj, -⟩ := hf
      omega
  | succ fuel ih =>
      intro d t hf
      by_cases ht : t < size
      · obtain ⟨j, hj, hsize⟩ := hf
        cases j with
        | zero =>
            rw [Nat.pow_zero, Nat.mul_one] at hsize
            omega
        | succ j =>
            obtain ⟨j', hdepth, hle, hmin⟩ := ih (d + 1) (t * self.branches)
              ⟨j, by omega, by rwa [Nat.mul_assoc, ← Nat.pow_succ']⟩
            refine ⟨j' + 1, ?_, ?_, ?_⟩
            · rw [treeDepth, if_pos ht, hdepth, Nat.add_assoc, Nat.add_comm 1 j', Nat.mul_assoc, ← Nat.pow_succ']
            · rwa [Nat.pow_succ', ← Nat.mul_assoc]
            · intro i hi
              cases i with
              | zero => simpa using ht
              | succ i =>
                  have := hmin i (by omega)
                  rwa [Nat.pow_succ', ← Nat.mul_assoc]
      · refine ⟨0, ?_, by simpa using ht, fun i hi => by omega⟩
        rw [treeDepth, if_neg ht]
        simp

/-- The depth loop of `Split` and `ReadAt` ends for a lawful chunker. -/
theorem Lawful.treeDepth (hl : self.Lawful) (size : Nat) :
    ∃ j, self.treeDepth size (size + 1) 0 self.chunkSize = some (j, self.chunkSize * self.branches ^ j) ∧
      size ≤ self.chunkSize * self.branches ^ j ∧ ∀ i < j, self.chunkSize * self.branches ^ i < size := by
  have hbig : size ≤ self.chunkSize * self.branches ^ size :=
    calc size ≤ 2 ^ size := Nat.le_of_lt Nat.lt_two_pow_self
      _ ≤ self.branches ^ size := Nat.pow_le_pow_left hl.two_le_branches size
      _ ≤ self.chunkSize * self.branches ^ size := Nat.le_mul_of_pos_left _ hl.chunkSize_pos
  obtain ⟨j, h, hle, hmin⟩ := treeDepth_spec size (size + 1) 0 self.chunkSize
    ⟨size, by omega, hbig⟩
  exact ⟨j, by rw [h, Nat.zero_add], hle, hmin⟩

/-! ## The tree of a chunk -/

/-- The store holds every chunk of a list under its key. -/
def Serves (store : Bytes → Option Chunk) (chunks : List Chunk) : Prop := ∀ c ∈ chunks, store c.Key = some c

theorem Serves.mono {store : Bytes → Option Chunk} {cs cs' : List Chunk} (h : Serves store cs') (hsub : cs ⊆ cs') :
    Serves store cs := fun c hc => h c (hsub hc)

/-- A chunk as `hashChunk` keys it: its data starts with its size, and its
key is the hash of that length and of the rest of the data. -/
def Keyed (self : TreeChunker) (c : Chunk) : Prop :=
  c.SData.take 8 = PutUint64 (UInt64.ofNat c.Size) ∧
    c.Key = self.hashFunc (PutUint64 (UInt64.ofNat c.Size)) (c.SData.drop 8)

theorem Keyed.eight_le {c : Chunk} (h : self.Keyed c) : 8 ≤ c.SData.length := by
  have := congrArg List.length h.1
  rw [List.length_take, length_PutUint64] at this
  omega

theorem Lawful.length_key (hl : self.Lawful) {c : Chunk} (h : self.Keyed c) : c.Key.length = self.hashSize := by
  rw [h.2]
  exact hl.length_hashFunc _ _ (length_PutUint64 _)

theorem retrieve_of_serves {store : Bytes → Option Chunk} {cs : List Chunk} (hs : Serves store cs) {c : Chunk}
    (hc : c ∈ cs) (h8 : 8 ≤ c.SData.length) : retrieve store c.Key = some c := by
  have hne : c.SData.isEmpty = false := by
    cases hd : c.SData with
    | nil => rw [hd] at h8; cases h8
    | cons _ _ => rfl
  rw [retrieve, hs c hc]
  simp only [hne, Bool.false_eq_true, if_false]

/-- The number of children of a node over `size` bytes, `treeSize` each but
the last. -/
def branchCount (size treeSize : Nat) : Nat := (size + treeSize - 1) / treeSize

/-- The subtree of `chunk`, read at `depth` and `treeSize` the way `join`
reads it, holds `content`: a leaf after its eight bytes of length, a node in
the children its key slots name, one for each `treeSize` bytes. -/
def Represents (self : TreeChunker) (store : Bytes → Option Chunk) : Nat → Nat → Chunk → Bytes → Prop
  | 0, _, chunk, content => chunk.Size = content.length ∧ chunk.SData.length = 8 + content.length ∧
      chunk.SData.drop 8 = content
  | depth + 1, treeSize, chunk, content =>
    if chunk.Size < treeSize then Represents self store depth (treeSize / self.branches) chunk content
    else 0 < treeSize ∧ chunk.Size = content.length ∧
      chunk.SData.length = 8 + branchCount content.length treeSize * self.hashSize ∧
      ∀ j < branchCount content.length treeSize, ∃ child,
        get chunk.SData (8 + j * self.hashSize) (8 + (j + 1) * self.hashSize) = some child.Key ∧
        retrieve store child.Key = some child ∧
        Represents self store depth (treeSize / self.branches) child ((content.drop (j * treeSize)).take treeSize)

/-! ## What `split` stores -/

/-- The body of the loop of `split` over the children of a node. -/
def splitStep (self : TreeChunker) (depth treeSize size : Nat) (acc : Bytes × List Chunk × Bytes) (i : Nat) :
    Option (Bytes × List Chunk × Bytes) :=
  (self.split depth (treeSize / self.branches) (if size - i * treeSize < treeSize then size - i * treeSize else treeSize)
    acc.2.2).map fun r => (acc.1 ++ self.keySlot r.1, acc.2.1 ++ r.2.1, r.2.2)

theorem split_node {depth treeSize size : Nat} {data : Bytes} (h : ¬ size < treeSize) :
    self.split (depth + 1) treeSize size data =
      ((List.range (branchCount size treeSize)).foldlM (self.splitStep depth treeSize size) ([], [], data)).map
        fun r => (self.hashChunk (PutUint64 (UInt64.ofNat size) ++ r.1),
          r.2.1 ++ [⟨self.hashChunk (PutUint64 (UInt64.ofNat size) ++ r.1), PutUint64 (UInt64.ofNat size) ++ r.1, size⟩],
          r.2.2) := by
  rw [split, if_neg h]
  rfl

/-- What `split` makes of `size` bytes at `depth` and `treeSize`: it takes
them from the reader, keys every chunk it emits by its data, and emits a
chunk under the key it returns that heads a tree of the bytes. -/
def SplitOk (self : TreeChunker) (depth treeSize size : Nat) (data : Bytes) : Prop :=
  ∃ h cs, self.split depth treeSize size data = some (h, cs, data.drop size) ∧ (∀ c ∈ cs, self.Keyed c) ∧
    ∃ c ∈ cs, c.Key = h ∧ c.Size = size ∧ ∀ store, Serves store cs → self.Represents store depth treeSize c (data.take size)

/-- The part of the content child `j` of a node holds is the part the
loop of `split` reads for it. -/
theorem segment_eq (data : Bytes) (size t j : Nat) :
    ((data.take size).drop (j * t)).take t =
      (data.drop (j * t)).take (if size - j * t < t then size - j * t else t) := by
  rw [List.drop_take, List.take_take]
  congr 1
  split <;> omega

/-- The loop of `split` over the first `m` children of a node, when each
child's `split` does what `SplitOk` says.

Child `m` starts before the end of the node's bytes. An earlier child keeps
its slot. The new child's slot holds its key. -/
theorem split_children (hl : self.Lawful) {d t size : Nat} {data : Bytes} (ht : 0 < t)
    (hsize : size ≤ data.length)
    (ih : ∀ size' (data' : Bytes), size' ≤ data'.length → self.SplitOk d (t / self.branches) size' data') :
    ∀ m ≤ branchCount size t, ∃ keys cs,
      (List.range m).foldlM (self.splitStep d t size) ([], [], data) = some (keys, cs, data.drop (min size (m * t))) ∧
      keys.length = m * self.hashSize ∧ (∀ c ∈ cs, self.Keyed c) ∧
      ∀ j < m, ∃ c ∈ cs, get keys (j * self.hashSize) ((j + 1) * self.hashSize) = some c.Key ∧
        ∀ store, Serves store cs → self.Represents store d (t / self.branches) c (((data.take size).drop (j * t)).take t) := by
  intro m
  induction m with
  | zero =>
      intro _
      exact ⟨[], [], by simp, by simp, (fun _ h => by cases h), fun _ h => by omega⟩
  | succ m ih' =>
      intro hm
      obtain ⟨keys, cs, hfold, hlen, hkeyed, hkids⟩ := ih' (by omega)
      have hmt : m * t < size := by
        have := (Nat.le_div_iff_mul_le ht).mp (show m + 1 ≤ branchCount size t from hm)
        rw [Nat.add_mul, Nat.one_mul] at this
        omega
      have hsec : (if size - m * t < t then size - m * t else t) ≤ (data.drop (m * t)).length := by
        rw [List.length_drop]
        split <;> omega
      obtain ⟨h', cs', hsplit, hkeyed', c', hc', hkey', -, hrep'⟩ := ih _ _ hsec
      have hlen' : h'.length = self.hashSize := hkey' ▸ hl.length_key (hkeyed' c' hc')
      refine ⟨keys ++ self.keySlot h', cs ++ cs', ?_, ?_, ?_, ?_⟩
      · rw [List.range_succ, List.foldlM_append, hfold, Nat.min_eq_right (Nat.le_of_lt hmt)]
        simp only [Option.bind_eq_bind, Option.bind_some, List.foldlM_cons, List.foldlM_nil, splitStep, hsplit,
          Option.map_some, Option.bind_some, List.drop_drop]
        have hend : (m * t + if size - m * t < t then size - m * t else t) = min size ((m + 1) * t) := by
          rw [Nat.add_mul, Nat.one_mul]
          split <;> omega
        rw [hend]
        rfl
      · rw [List.length_append, hlen, length_keySlot, Nat.add_mul, Nat.one_mul]
      · intro c hc
        rcases List.mem_append.mp hc with hc | hc
        · exact hkeyed c hc
        · exact hkeyed' c hc
      · intro j hj
        by_cases hjm : j < m
        · obtain ⟨c, hc, hget, hrep⟩ := hkids j hjm
          refine ⟨c, List.mem_append_left _ hc, ?_, fun store hs => hrep store (hs.mono (List.subset_append_left _ _))⟩
          rw [get_append_left (by rw [hlen]; exact Nat.mul_le_mul_right _ hjm), hget]
        · have hjm' : j = m := by omega
          subst hjm'
          refine ⟨c', List.mem_append_right _ hc', ?_, fun store hs => ?_⟩
          · rw [← List.append_nil (keys ++ self.keySlot h'), get_append_of keys (self.keySlot h') [] (by rw [hlen])
              (by rw [hlen, length_keySlot, Nat.add_mul, Nat.one_mul]), keySlot_of_length hlen', hkey']
          · rw [segment_eq data size t j]
            exact hrep' store (hs.mono (List.subset_append_right _ _))

theorem le_branchCount_mul {size t : Nat} (ht : 0 < t) : size ≤ branchCount size t * t := by
  have := Nat.lt_div_mul_add (a := size + t - 1) ht
  rw [branchCount]
  omega

/-- `split` keys what it emits and heads with the key it returns a tree of
the bytes it reads, at every depth whose tree sizes stay positive.

A leaf: the length and the bytes. One turn of the loop that shrinks the
level. A node: its key slots name its children. -/
theorem split_ok (hl : self.Lawful) :
    ∀ d t size (data : Bytes), self.branches ^ d ≤ t → size ≤ data.length → self.SplitOk d t size data := by
  have hb : 0 < self.branches := by have := hl.two_le_branches; omega
  intro d
  induction d with
  | zero =>
      intro t size data _ hsize
      let chunkData := PutUint64 (UInt64.ofNat size) ++ data.take size
      refine ⟨self.hashChunk chunkData, [⟨self.hashChunk chunkData, chunkData, size⟩], by rw [split, if_pos hsize], ?_,
        _, List.mem_singleton_self _, rfl, rfl, fun store _ => ?_⟩
      · intro c hc
        rw [List.mem_singleton] at hc
        subst hc
        exact ⟨List.take_left' (length_PutUint64 _), by rw [hashChunk, List.take_left' (length_PutUint64 _),
          List.drop_left' (length_PutUint64 _)]⟩
      · refine ⟨by simp [hsize], by simp [chunkData, hsize], List.drop_left' (length_PutUint64 _)⟩
  | succ d ih =>
      intro t size data hdt hsize
      have hdt' : self.branches ^ d ≤ t / self.branches := by
        rw [Nat.le_div_iff_mul_le hb, ← Nat.pow_succ]
        exact hdt
      by_cases hst : size < t
      · obtain ⟨h, cs, hsplit, hkeyed, c, hc, hkey, hsz, hrep⟩ := ih (t / self.branches) size data hdt' hsize
        refine ⟨h, cs, by rw [split, if_pos hst, hsplit], hkeyed, c, hc, hkey, hsz, fun store hs => ?_⟩
        rw [Represents, if_pos (hsz ▸ hst)]
        exact hrep store hs
      · have ht : 0 < t := Nat.lt_of_lt_of_le (Nat.pow_pos hb) hdt
        obtain ⟨keys, cs, hfold, hlen, hkeyed, hkids⟩ :=
          split_children hl ht hsize (ih (t / self.branches) · · hdt') _ (Nat.le_refl _)
        have hmin : min size (branchCount size t * t) = size := Nat.min_eq_left (le_branchCount_mul ht)
        rw [hmin] at hfold
        have hcontent : (data.take size).length = size := by simp [hsize]
        let chunk := PutUint64 (UInt64.ofNat size) ++ keys
        refine ⟨self.hashChunk chunk, cs ++ [⟨self.hashChunk chunk, chunk, size⟩], by rw [split_node hst, hfold]; rfl,
          ?_, _, List.mem_append_right _ (List.mem_singleton_self _), rfl, rfl, fun store hs => ?_⟩
        · intro c hc
          rcases List.mem_append.mp hc with hc | hc
          · exact hkeyed c hc
          · rw [List.mem_singleton] at hc
            subst hc
            exact ⟨List.take_left' (length_PutUint64 _), by rw [hashChunk, List.take_left' (length_PutUint64 _),
              List.drop_left' (length_PutUint64 _)]⟩
        · rw [Represents, if_neg hst, hcontent]
          refine ⟨ht, rfl, by rw [List.length_append, length_PutUint64, hlen], fun j hj => ?_⟩
          obtain ⟨c, hc, hget, hrep⟩ := hkids j hj
          have hshift := get_append_shift (PutUint64 (UInt64.ofNat size)) keys (j * self.hashSize)
            ((j + 1) * self.hashSize)
          rw [length_PutUint64] at hshift
          exact ⟨c, hshift.trans hget, retrieve_of_serves hs (List.mem_append_left _ hc) (hkeyed c hc).eight_le,
            hrep store (hs.mono (List.subset_append_left _ _))⟩

/-! ## What `join` reads -/

theorem slice_of_le {s : Bytes} {lo hi : Nat} (h₁ : lo ≤ hi) (h₂ : hi ≤ s.length) :
    slice s lo hi = .ok ((s.drop lo).take (hi - lo)) := by
  rw [slice, get_of_le h₁ h₂]

theorem slice_of_gt {s : Bytes} {lo hi : Nat} (h : s.length < hi) : slice s lo hi = .error .panic := by
  rw [slice, get_eq_none_iff.mpr (Or.inr h)]

theorem slice_error {s : Bytes} {lo hi : Nat} {e : JoinError} (h : slice s lo hi = .error e) : e = .panic := by
  unfold slice at h
  split at h
  · cases h
  · cases h
    rfl

variable (store : Bytes → Option Chunk)

/-- The body of the loop of `join` over the children of a node. -/
def joinStep (self : TreeChunker) (depth treeSize : Nat) (chunk : Chunk) (off eoff : Nat) (b : Bytes) (i : Nat) :
    Except JoinError Bytes := do
  let roff := i * treeSize
  let soff := if roff < off then off else roff
  let seoff := if roff + treeSize > eoff then eoff else roff + treeSize
  let childKey ← slice chunk.SData (8 + i * self.hashSize) (8 + (i + 1) * self.hashSize)
  let child ← match retrieve store childKey with
    | some child => .ok child
    | none => .error .notFound
  let sub ← slice b (soff - off) (seoff - off)
  let res ← self.join store depth (treeSize / self.branches) child sub (soff - roff) (seoff - roff)
  pure (b.take (soff - off) ++ res ++ b.drop (seoff - off))

theorem join_node {depth treeSize : Nat} {chunk : Chunk} {b : Bytes} {off eoff : Nat} (h : ¬ chunk.Size < treeSize) :
    self.join store (depth + 1) treeSize chunk b off eoff =
      (List.range' (off / treeSize) ((eoff + treeSize - 1) / treeSize - off / treeSize)).foldlM
        (self.joinStep store depth treeSize chunk off eoff) b := by
  rw [join, if_neg h]
  rfl

/-- The bytes `[off, p)` of the content over the start of the buffer for
`[off, eoff)`: what the loop of `join` has written before the child that
starts at `p`. -/
def filled (content b : Bytes) (off p : Nat) : Bytes := (content.drop off).take (p - off) ++ b.drop (p - off)

/-- Two adjacent windows of a list make the window from the first start to
the second end. -/
theorem take_drop_append (l : Bytes) {a p q : Nat} (hap : a ≤ p) (hpq : p ≤ q) :
    (l.drop a).take (p - a) ++ (l.drop p).take (q - p) = (l.drop a).take (q - a) := by
  rw [show q - a = (p - a) + (q - p) by omega, List.take_add, List.drop_drop, Nat.add_sub_cancel' hap]

/-- The window `[x, y)` of child `i`'s part is the window of the content. -/
theorem segment_window (content : Bytes) {i t x y : Nat} (hx : i * t ≤ x) (hxy : x ≤ y) (hy : y ≤ i * t + t) :
    (((content.drop (i * t)).take t).drop (x - i * t)).take (y - i * t - (x - i * t)) = (content.drop x).take (y - x) := by
  rw [List.drop_take, List.take_take, List.drop_drop, Nat.add_sub_cancel' hx, Nat.min_eq_left (by omega)]
  congr 1
  omega

/-- One child of a node in the loop of `join`: from the buffer filled up to
the child's start, the child's window is filled in.

The buffer's filled part and the rest, at the child's start and end. The
child's bytes extend the filled part. -/
theorem joinStep_ok {d t : Nat} {chunk child : Chunk} {content b : Bytes} {off eoff i : Nat}
    (hoff : off ≤ eoff) (heoff : eoff ≤ content.length) (hb : b.length = eoff - off)
    (hi1 : off / t ≤ i) (hi2 : i * t < eoff) (ht : 0 < t)
    (hkey : get chunk.SData (8 + i * self.hashSize) (8 + (i + 1) * self.hashSize) = some child.Key)
    (hret : retrieve store child.Key = some child)
    (hjoin : ∀ b' off' eoff', off' ≤ eoff' → eoff' ≤ ((content.drop (i * t)).take t).length →
      b'.length = eoff' - off' →
      self.join store d (t / self.branches) child b' off' eoff' =
        .ok ((((content.drop (i * t)).take t).drop off').take (eoff' - off'))) :
    self.joinStep store d t chunk off eoff (filled content b off (max off (i * t))) i =
      .ok (filled content b off (min eoff (i * t + t))) := by
  have hti : off < i * t + t := by
    have := Nat.lt_div_mul_add (a := off) ht
    have := Nat.mul_le_mul_right t hi1
    omega
  have hsoff : (if i * t < off then off else i * t) = max off (i * t) := by split <;> omega
  have hseoff : (if i * t + t > eoff then eoff else i * t + t) = min eoff (i * t + t) := by split <;> omega
  have hfl : ((content.drop off).take (max off (i * t) - off)).length = max off (i * t) - off := by
    simp only [List.length_take, List.length_drop]
    omega
  have hsub : slice (filled content b off (max off (i * t))) (max off (i * t) - off) (min eoff (i * t + t) - off) =
      .ok ((b.drop (max off (i * t) - off)).take (min eoff (i * t + t) - max off (i * t))) := by
    rw [slice_of_le (by omega) (by rw [filled, List.length_append, List.length_drop, hfl]; omega), filled,
      List.drop_left' hfl]
    congr 2
    omega
  have hres := hjoin ((b.drop (max off (i * t) - off)).take (min eoff (i * t + t) - max off (i * t)))
    (max off (i * t) - i * t) (min eoff (i * t + t) - i * t) (by omega)
    (by simp only [List.length_take, List.length_drop]; omega) (by simp only [List.length_take, List.length_drop]; omega)
  rw [segment_window content (by omega) (by omega) (by omega)] at hres
  simp only [joinStep, hsoff, hseoff, slice, hkey, hret, bind, Except.bind, pure, Except.pure]
  rw [← slice, hsub]
  simp only [hres]
  congr 1
  have htake : (filled content b off (max off (i * t))).take (max off (i * t) - off) =
      (content.drop off).take (max off (i * t) - off) := by
    rw [filled, List.take_left' hfl]
  have hdrop : (filled content b off (max off (i * t))).drop (min eoff (i * t + t) - off) =
      b.drop (min eoff (i * t + t) - off) := by
    rw [filled, List.drop_append, List.drop_eq_nil_of_le (by omega), List.nil_append, hfl,
      List.drop_drop]
    congr 1
    omega
  rw [htake, hdrop, filled, take_drop_append content (by omega) (by omega)]

/-- `join` over a window within the content of a tree copies the window
into the buffer. The induction is on the depth; over a node, the loop of
`join` keeps the buffer filled up to the start of the next child.

The child at counter `x` starts before `eoff`. -/
theorem join_spec : ∀ d t (c : Chunk) (content : Bytes), self.Represents store d t c content →
    ∀ (b : Bytes) off eoff, off ≤ eoff → eoff ≤ content.length → b.length = eoff - off →
      self.join store d t c b off eoff = .ok ((content.drop off).take (eoff - off)) := by
  intro d
  induction d with
  | zero =>
      intro t c content hrep b off eoff hoff heoff hb
      obtain ⟨-, hlen, hdata⟩ := hrep
      have hclip : (if 8 + eoff > c.SData.length then c.SData.length - 8 else eoff) = eoff := if_neg (by omega)
      have hsrc : slice c.SData (8 + off) (8 + eoff) = .ok ((content.drop off).take (eoff - off)) := by
        rw [slice_of_le (by omega) (by omega), Nat.add_sub_add_left, ← hdata, List.drop_drop]
      simp only [join, hclip, hsrc, bind, Except.bind, pure, Except.pure]
      rw [copy_of_length (by simp only [List.length_take, List.length_drop]; omega)]
  | succ d ih =>
      intro t c content hrep b off eoff hoff heoff hb
      by_cases hs : c.Size < t
      · rw [Represents, if_pos hs] at hrep
        rw [join, if_pos hs]
        exact ih _ _ _ hrep b off eoff hoff heoff hb
      · rw [Represents, if_neg hs] at hrep
        obtain ⟨ht, -, -, hkids⟩ := hrep
        have hstart : off / t * t ≤ off := Nat.div_mul_le_self off t
        have hend : eoff ≤ (eoff + t - 1) / t * t := le_branchCount_mul ht
        have hse : off / t ≤ (eoff + t - 1) / t := Nat.div_le_div_right (by omega)
        have hbc : (eoff + t - 1) / t ≤ branchCount content.length t := Nat.div_le_div_right (by omega)
        obtain ⟨acc, hfold, hacc⟩ := foldlM_invariant (self.joinStep store d t c off eoff)
          (fun done acc => acc = filled content b off (max off (min eoff ((off / t + done.length) * t))))
          (List.range' (off / t) ((eoff + t - 1) / t - off / t)) b (by rw [List.length_nil, Nat.add_zero, Nat.min_eq_right (by omega), Nat.max_eq_left hstart]; simp [filled])
          (fun done x rest acc hsplit hI => by
            obtain ⟨rfl, hx⟩ := eq_of_range'_eq_append hsplit
            have hxe : (off / t + done.length) * t < eoff := by
              have := (Nat.le_div_iff_mul_le ht).mp (show off / t + done.length + 1 ≤ (eoff + t - 1) / t by omega)
              rw [Nat.add_mul, Nat.one_mul] at this
              omega
            obtain ⟨child, hkey, hret, hrep⟩ := hkids (off / t + done.length) (by omega)
            refine ⟨_, ?_, rfl⟩
            rw [hI, Nat.min_eq_right (Nat.le_of_lt hxe), List.length_append, List.length_singleton, ← Nat.add_assoc,
              Nat.add_mul (off / t + done.length) 1, Nat.one_mul]
            have hnext : max off (min eoff ((off / t + done.length) * t + t)) =
                min eoff ((off / t + done.length) * t + t) := Nat.max_eq_right (by
              have := Nat.lt_div_mul_add (a := off) ht
              have := Nat.mul_le_mul_right t (Nat.le_add_right (off / t) done.length)
              omega)
            rw [hnext]
            exact joinStep_ok store hoff heoff hb (Nat.le_add_right _ _) hxe ht hkey hret
              (fun b' off' eoff' h1 h2 h3 => ih _ _ _ hrep b' off' eoff' h1 h2 h3))
        rw [join_node store hs, hfold, hacc, List.length_range', Nat.add_sub_cancel' hse,
          Nat.min_eq_left hend, Nat.max_eq_right hoff, filled, List.drop_eq_nil_of_le (show b.length ≤ eoff - off by omega),
          List.append_nil]

/-- An iteration of the loop of `join` over a node fails only by a panic:
a child within the node is retrievable, and the key slot of one past it is
out of the node's data. -/
theorem joinStep_error (hh : 0 < self.hashSize) {d t : Nat} {c : Chunk} {content : Bytes} {off eoff : Nat}
    (hlen : c.SData.length = 8 + branchCount content.length t * self.hashSize)
    (hkids : ∀ j < branchCount content.length t, ∃ child,
      get c.SData (8 + j * self.hashSize) (8 + (j + 1) * self.hashSize) = some child.Key ∧
      retrieve store child.Key = some child ∧
      self.Represents store d (t / self.branches) child ((content.drop (j * t)).take t))
    (ih : ∀ (child : Chunk) (part : Bytes), self.Represents store d (t / self.branches) child part →
      ∀ (b : Bytes) off eoff e, self.join store d (t / self.branches) child b off eoff = .error e → e = .panic) :
    ∀ acc i e, self.joinStep store d t c off eoff acc i = .error e → e = .panic := by
  intro acc i e h
  by_cases hi : i < branchCount content.length t
  · obtain ⟨child, hkey, hret, hrep⟩ := hkids i hi
    have hk : slice c.SData (8 + i * self.hashSize) (8 + (i + 1) * self.hashSize) = .ok child.Key := by
      rw [slice, hkey]
    simp only [joinStep, hk, hret, bind, Except.bind] at h
    split at h
    · next e' hsub =>
        cases h
        exact slice_error hsub
    · split at h
      · next e' hjoin =>
          cases h
          exact ih child _ hrep _ _ _ _ hjoin
      · cases h
  · have hk : slice c.SData (8 + i * self.hashSize) (8 + (i + 1) * self.hashSize) = .error .panic := by
      apply slice_of_gt
      rw [hlen, Nat.add_mul, Nat.one_mul]
      have := Nat.mul_le_mul_right self.hashSize (Nat.le_of_not_lt hi)
      omega
    simp only [joinStep, hk, bind, Except.bind] at h
    cases h
    rfl

/-- On a tree, `join` fails only by a panic, whatever the window. -/
theorem join_error (hh : 0 < self.hashSize) : ∀ d t (c : Chunk) (content : Bytes), self.Represents store d t c content →
    ∀ (b : Bytes) off eoff e, self.join store d t c b off eoff = .error e → e = .panic := by
  intro d
  induction d with
  | zero =>
      intro t c content _ b off eoff e h
      simp only [join, bind, Except.bind] at h
      split at h
      · next e' hsrc =>
          cases h
          exact slice_error hsrc
      · cases h
  | succ d ih =>
      intro t c content hrep b off eoff e h
      by_cases hs : c.Size < t
      · rw [Represents, if_pos hs] at hrep
        rw [join, if_pos hs] at h
        exact ih _ _ _ hrep b off eoff e h
      · rw [Represents, if_neg hs] at hrep
        obtain ⟨-, -, hlen, hkids⟩ := hrep
        rw [join_node store hs] at h
        exact foldlM_error_of_steps _ (· = .panic) _
          (fun i _ acc e' => joinStep_error store hh hlen hkids (fun child part hrep => ih _ _ _ hrep) acc i e') b e h

/-- A window of a node that ends past the last child's part panics: the
loop of `join` reaches the key slot one past the node's keys.

The counter of the slot past the keys is in the loop's range. -/
theorem join_past_last_child (hh : 0 < self.hashSize) {d t : Nat} {c : Chunk} {content b : Bytes} {off eoff : Nat}
    (hrep : self.Represents store (d + 1) t c content) (hs : ¬ c.Size < t) (hoff : off ≤ content.length)
    (hpast : branchCount content.length t * t < eoff) :
    self.join store (d + 1) t c b off eoff = .error .panic := by
  rw [Represents, if_neg hs] at hrep
  obtain ⟨ht, -, hlen, hkids⟩ := hrep
  rw [join_node store hs]
  have hlo : off / t ≤ branchCount content.length t := Nat.div_le_div_right (by omega)
  have hhi : branchCount content.length t < (eoff + t - 1) / t := by
    apply (Nat.le_div_iff_mul_le ht).mpr
    rw [Nat.succ_mul]
    omega
  refine foldlM_error_of_mem _ (x := branchCount content.length t) (List.mem_range'_1.mpr ⟨hlo, by omega⟩)
    (fun acc => ?_) (fun i _ acc e h => joinStep_error store hh hlen hkids
      (fun child part hrep => join_error store hh _ _ _ _ hrep) acc i e h) b
  have hk : slice c.SData (8 + branchCount content.length t * self.hashSize)
      (8 + (branchCount content.length t + 1) * self.hashSize) = .error .panic := by
    apply slice_of_gt
    rw [hlen, Nat.add_mul, Nat.one_mul]
    omega
  simp only [joinStep, hk, bind, Except.bind]

/-! ## `Split` and `ReadAt` -/

/-- `Split` of a whole document keys every chunk by its data and returns
the key of a chunk that heads a tree of the document, at the depth of the
first tree size `chunkSize * branches ^ j` that holds it.

The children of the root cover `chunkSize * branches ^ (j - 1)` bytes each. -/
theorem Split_ok (hl : self.Lawful) (content : Bytes) :
    ∃ j key chunks, self.treeDepth content.length (content.length + 1) 0 self.chunkSize =
        some (j, self.chunkSize * self.branches ^ j) ∧
      content.length ≤ self.chunkSize * self.branches ^ j ∧
      (∀ i < j, self.chunkSize * self.branches ^ i < content.length) ∧
      self.Split content content.length = some (key, chunks) ∧ (∀ c ∈ chunks, self.Keyed c) ∧
      ∃ c ∈ chunks, c.Key = key ∧ c.Size = content.length ∧
        ∀ store, Serves store chunks →
          self.Represents store j (self.chunkSize * self.branches ^ j / self.branches) c content := by
  have hb : 0 < self.branches := by have := hl.two_le_branches; omega
  obtain ⟨j, hdepth, hle, hmin⟩ := hl.treeDepth content.length
  have hdt : self.branches ^ j ≤ self.chunkSize * self.branches ^ j / self.branches := by
    rw [Nat.le_div_iff_mul_le hb, chunkSize, Nat.mul_assoc, Nat.mul_comm self.branches, Nat.mul_comm]
    exact Nat.le_mul_of_pos_left _ hl.hashSize_pos
  obtain ⟨h, cs, hsplit, hkeyed, c, hc, hkey, hsz, hrep⟩ :=
    split_ok hl j _ content.length content hdt (Nat.le_refl _)
  have hslot : self.keySlot h = h := keySlot_of_length (hkey ▸ hl.length_key (hkeyed c hc))
  refine ⟨j, h, cs, hdepth, hle, hmin, ?_, hkeyed, c, hc, hkey, hsz, fun store hs => ?_⟩
  · rw [Split, if_neg (Nat.ne_of_gt hl.chunkSize_pos)]
    simp only [hdepth, hsplit, hslot, Option.bind_eq_bind, Option.bind_some, Option.pure_def]
  · simpa using hrep store hs

/-- The round trip of the chunker: with a store that serves the chunks of
`Split`, `ReadAt` of a window within the document copies the window, and
reports `io.EOF` when the window ends the document. -/
theorem ReadAt_Split (hl : self.Lawful) (content : Bytes) :
    ∃ key chunks, self.Split content content.length = some (key, chunks) ∧ (∀ c ∈ chunks, self.Keyed c) ∧
      ∀ store, Serves store chunks → ∀ (b : Bytes) off, 0 < b.length → off + b.length ≤ content.length →
        self.ReadAt store key b off =
          .ok (b.length, decide (off + b.length ≥ content.length), (content.drop off).take b.length) := by
  obtain ⟨j, key, cs, hdepth, -, -, hsplit, hkeyed, c, hc, hkey, hsz, hrep⟩ := Split_ok hl content
  refine ⟨key, cs, hsplit, hkeyed, fun store hs b off hb hend => ?_⟩
  have hret : retrieve store key = some c := hkey ▸ retrieve_of_serves hs hc (hkeyed c hc).eight_le
  have hjoin := join_spec store j _ c content (hrep store hs) b off (off + b.length) (Nat.le_add_right _ _) hend
    (by omega)
  rw [Nat.add_sub_cancel_left] at hjoin
  rw [ReadAt, if_neg (by omega), hret]
  simp only [hsz, hdepth, hjoin, bind, Except.bind, pure, Except.pure]

/-- `ReadAt` of a window that ends past the part of the last child of the
root panics, for every document of more than one chunk: `join` slices the
key slot one past the root's keys. The window's start is within the
document; `chunkSize * branches ^ k` is the part of a child of the root.

The depth of the document is `k + 1`. The window is not empty: it ends past
the document. -/
theorem ReadAt_past_last_child_panics (hl : self.Lawful) (content : Bytes) (k : Nat)
    (hk1 : self.chunkSize * self.branches ^ k < content.length)
    (hk2 : content.length ≤ self.chunkSize * self.branches ^ (k + 1)) (b : Bytes) (off : Nat)
    (hoff : off ≤ content.length)
    (hpast : branchCount content.length (self.chunkSize * self.branches ^ k) * (self.chunkSize * self.branches ^ k) <
      off + b.length) :
    ∃ key chunks, self.Split content content.length = some (key, chunks) ∧
      ∀ store, Serves store chunks → self.ReadAt store key b off = .error .panic := by
  have hb : 0 < self.branches := by have := hl.two_le_branches; omega
  obtain ⟨j, key, cs, hdepth, hle, hmin, hsplit, hkeyed, c, hc, hkey, hsz, hrep⟩ := Split_ok hl content
  have hj : j = k + 1 := by
    have hgt : k + 1 ≤ j := Nat.lt_of_not_le fun h =>
      absurd (Nat.le_trans hle (Nat.mul_le_mul_left _ (Nat.pow_le_pow_right hb h))) (Nat.not_le_of_lt hk1)
    have hlt : j ≤ k + 1 := Nat.le_of_not_lt fun h => absurd hk2 (Nat.not_le_of_lt (hmin (k + 1) h))
    omega
  subst hj
  have ht : self.chunkSize * self.branches ^ (k + 1) / self.branches = self.chunkSize * self.branches ^ k := by
    rw [Nat.pow_succ, ← Nat.mul_assoc, Nat.mul_div_cancel _ hb]
  have hbc : content.length ≤ branchCount content.length (self.chunkSize * self.branches ^ k) *
      (self.chunkSize * self.branches ^ k) := le_branchCount_mul (Nat.mul_pos hl.chunkSize_pos (Nat.pow_pos hb))
  refine ⟨key, cs, hsplit, fun store hs => ?_⟩
  have hret : retrieve store key = some c := hkey ▸ retrieve_of_serves hs hc (hkeyed c hc).eight_le
  have hrep' := hrep store hs
  rw [ht] at hrep'
  have hpanic := join_past_last_child store hl.hashSize_pos (t := self.chunkSize * self.branches ^ k) (b := b)
    hrep' (by omega) hoff hpast
  rw [ReadAt, if_neg (by omega), hret]
  simp only [hsz, hdepth, ht, hpanic, bind, Except.bind]

theorem ReadAt_past_last_child_panics_three :
    (⟨2, 1, fun span _ => [span.headD 0]⟩ : TreeChunker).Lawful ∧
      (⟨2, 1, fun span _ => [span.headD 0]⟩ : TreeChunker).chunkSize * 2 ^ 0 < [1, 2, 3].length ∧
      [1, 2, 3].length ≤ (⟨2, 1, fun span _ => [span.headD 0]⟩ : TreeChunker).chunkSize * 2 ^ (0 + 1) ∧
      0 ≤ [1, 2, 3].length ∧
      branchCount [1, 2, 3].length ((⟨2, 1, fun span _ => [span.headD 0]⟩ : TreeChunker).chunkSize * 2 ^ 0) *
        ((⟨2, 1, fun span _ => [span.headD 0]⟩ : TreeChunker).chunkSize * 2 ^ 0) < 0 + [0, 0, 0, 0, 0].length ∧
      ∃ key chunks, (⟨2, 1, fun span _ => [span.headD 0]⟩ : TreeChunker).Split [1, 2, 3] [1, 2, 3].length =
          some (key, chunks) ∧
        ∀ store, Serves store chunks →
          (⟨2, 1, fun span _ => [span.headD 0]⟩ : TreeChunker).ReadAt store key [0, 0, 0, 0, 0] 0 = .error .panic :=
  ⟨⟨by decide, by decide, fun _ _ _ => rfl⟩, by decide, by decide, by decide, by decide,
    ReadAt_past_last_child_panics ⟨by decide, by decide, fun _ _ _ => rfl⟩ [1, 2, 3] 0 (by decide) (by decide)
      [0, 0, 0, 0, 0] 0 (by decide) (by decide)⟩

end TreeChunker

end Lemochain.Swarm
