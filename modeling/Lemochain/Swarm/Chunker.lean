import Lemochain.Common.Types
import Lemochain.Lib.Slice

/-!
# The tree chunker of swarm storage (`swarm/storage/chunker.go`)

`TreeChunker.Split` cuts a document of `size` bytes into a tree of chunks.
A leaf holds up to `chunkSize = hashSize * branches` bytes of the document;
a node holds the keys of up to `branches` children, each over
`chunkSize * branches ^ k` bytes but the last. Every chunk's data starts with
the size of its subtree as eight little-endian bytes, and its key is the
hash of that length and the rest of the data. `Join` returns a
`LazyChunkReader` whose `ReadAt` walks the tree of a root key down to the
leaves that cover the bytes asked for, retrieving each chunk from the store
by the key its parent holds.

The model:

* the hasher of a chunk is `hashFunc span data`, the `Sum` after
  `ResetWithLength(span)` and `Write(data)`; the chunker's `hashSize` is a
  field, the `Size()` of the hasher in the source;
* the reader of `Split` is the list of bytes it delivers: a leaf takes the
  next `size` of them, however the reads are cut, and fails when they run
  out;
* the hash jobs, the workers and the goroutines of `join` run in the
  order of the recursion: each child of `join` writes its own part of the
  buffer, so the order does not change the bytes written;
* the store is a function from keys to chunks, `retrieve` its lookup;
* the depth loop of `Split` and `ReadAt`, `for ; treeSize < size; treeSize
  *= branches`, is given fuel, and a panic, a missing chunk and a loop that
  never ends are the errors of `JoinError`.

Sizes are natural numbers: the source's `int64` sizes do not overflow for
documents that fit in memory.
-/

namespace Lemochain.Swarm

open Lemochain.Slice

/-- `binary.LittleEndian.PutUint64`. -/
def PutUint64 (v : UInt64) : Bytes := (List.range 8).map fun i => (v >>> (8 * i).toUInt64).toUInt8

/-- `Chunk`: the key, the data and the size of the subtree. -/
structure Chunk where
  Key : Bytes
  SData : Bytes
  Size : Nat
  deriving DecidableEq, Repr

/-- `TreeChunker`: the branch count, the size of a key and the hasher. -/
structure TreeChunker where
  branches : Nat
  hashSize : Nat
  hashFunc : Bytes → Bytes → Bytes

namespace TreeChunker

variable (self : TreeChunker)

/-- `chunkSize`: `hashSize * branches`. -/
def chunkSize : Nat := self.hashSize * self.branches

/-- `hashChunk`: the key of a chunk's data, the hash of its eight bytes of
length and of the rest. -/
def hashChunk (chunk : Bytes) : Bytes := self.hashFunc (chunk.take 8) (chunk.drop 8)

/-- A key copied into a slot of `hashSize` bytes: `copy(job.key, h)`. -/
def keySlot (h : Bytes) : Bytes := copy (List.replicate self.hashSize 0) h

/-- The loop `for ; treeSize < size; treeSize *= branches { depth++ }`
of `Split` and `ReadAt`, with fuel: the depth of the tree and its size. -/
def treeDepth (size : Nat) : Nat → Nat → Nat → Option (Nat × Nat)
  | 0, _, _ => none
  | fuel + 1, depth, treeSize =>
    if treeSize < size then treeDepth size fuel (depth + 1) (treeSize * self.branches) else some (depth, treeSize)

/-- `TreeChunker.split` over the bytes the reader still delivers: the key of
the subtree, its chunks in the order their hash jobs are queued, and the
bytes after the subtree's; `none` when the reader runs out. A depth with a
size below the tree size takes one turn of the loop that shrinks the
level. A node's children each cover `treeSize` bytes but the last, and its
key slots are filled in their order. -/
def split : Nat → Nat → Nat → Bytes → Option (Bytes × List Chunk × Bytes)
  | 0, _, size, data =>
    if size ≤ data.length then
      let chunkData := PutUint64 (UInt64.ofNat size) ++ data.take size
      let h := self.hashChunk chunkData
      some (h, [⟨h, chunkData, size⟩], data.drop size)
    else none
  | depth + 1, treeSize, size, data =>
    if size < treeSize then split depth (treeSize / self.branches) size data
    else
      let branchCnt := (size + treeSize - 1) / treeSize
      let children := (List.range branchCnt).foldlM (fun (acc : Bytes × List Chunk × Bytes) i =>
        let pos := i * treeSize
        let secSize := if size - pos < treeSize then size - pos else treeSize
        (split depth (treeSize / self.branches) secSize acc.2.2).map fun r =>
          (acc.1 ++ self.keySlot r.1, acc.2.1 ++ r.2.1, r.2.2)) ([], [], data)
      children.map fun r =>
        let chunk := PutUint64 (UInt64.ofNat size) ++ r.1
        let h := self.hashChunk chunk
        (h, r.2.1 ++ [⟨h, chunk, size⟩], r.2.2)

/-- `TreeChunker.Split` of a document of `size` bytes: the root key and the
chunks sent to storage. `none` for the panic of an uninitialised chunker,
a reader that runs out and a depth loop that never ends. -/
def Split (data : Bytes) (size : Nat) : Option (Bytes × List Chunk) :=
  if self.chunkSize = 0 then none
  else do
    let (depth, treeSize) ← self.treeDepth size (size + 1) 0 self.chunkSize
    let (h, chunks, _) ← self.split depth (treeSize / self.branches) size data
    pure (self.keySlot h, chunks)

end TreeChunker

/-- How `ReadAt` fails: a run-time panic, a chunk the store does not
have, or a loop that never ends. -/
inductive JoinError where
  | panic
  | notFound
  | diverges
  deriving DecidableEq, Repr

/-- `retrieve`: the chunk the store holds under a key; a chunk without data
counts as missing. -/
def retrieve (store : Bytes → Option Chunk) (key : Bytes) : Option Chunk :=
  match store key with
  | some chunk => if chunk.SData.isEmpty then none else some chunk
  | none => none

/-- A slice expression, its panic an error. -/
def slice (s : Bytes) (lo hi : Nat) : Except JoinError Bytes :=
  match get s lo hi with
  | some t => .ok t
  | none => .error .panic

namespace TreeChunker

variable (self : TreeChunker) (store : Bytes → Option Chunk)

/-- `LazyChunkReader.join`: the buffer `b` for the bytes `[off, eoff)` of
the subtree of `chunk`, filled in. A leaf copies its bytes from `off`,
`eoff` clipped to its data; a node walks the children whose windows meet
`[off, eoff)`, each over the part of the buffer for its window, reading the
child's key from the slot `j` of its data. -/
def join : Nat → Nat → Chunk → Bytes → Nat → Nat → Except JoinError Bytes
  | 0, _, chunk, b, off, eoff => do
    let eoff := if 8 + eoff > chunk.SData.length then chunk.SData.length - 8 else eoff
    let src ← slice chunk.SData (8 + off) (8 + eoff)
    pure (copy b src)
  | depth + 1, treeSize, chunk, b, off, eoff =>
    if chunk.Size < treeSize then join depth (treeSize / self.branches) chunk b off eoff
    else
      let start := off / treeSize
      let «end» := (eoff + treeSize - 1) / treeSize
      (List.range' start («end» - start)).foldlM (fun b i => do
        let roff := i * treeSize
        let soff := if roff < off then off else roff
        let seoff := if roff + treeSize > eoff then eoff else roff + treeSize
        let childKey ← slice chunk.SData (8 + i * self.hashSize) (8 + (i + 1) * self.hashSize)
        let child ← match retrieve store childKey with
          | some child => .ok child
          | none => .error .notFound
        let sub ← slice b (soff - off) (seoff - off)
        let res ← join depth (treeSize / self.branches) child sub (soff - roff) (seoff - roff)
        pure (b.take (soff - off) ++ res ++ b.drop (seoff - off))) b

/-- `LazyChunkReader.ReadAt(b, off)` on the reader of a root key: the count
it returns, whether it returns `io.EOF`, and the buffer filled in. -/
def ReadAt (key : Bytes) (b : Bytes) (off : Nat) : Except JoinError (Nat × Bool × Bytes) :=
  if b.length = 0 then .ok (0, false, b)
  else
    match retrieve store key with
    | none => .error .notFound
    | some chunk =>
      match self.treeDepth chunk.Size (chunk.Size + 1) 0 self.chunkSize with
      | none => .error .diverges
      | some (depth, treeSize) => do
        let b' ← self.join store depth (treeSize / self.branches) chunk b off (off + b.length)
        pure (b.length, decide (off + b.length ≥ chunk.Size), b')

end TreeChunker

end Lemochain.Swarm
