import Lemochain.Rlp.Encode

/-!
# The encoder's buffer (`rlp/encode.go`)

The encoder does not write a list's header when it opens the list: it does
not know the size yet. `encbuf` keeps the string data `str` (everything but
list headers) and one `listhead` per list, at the offset in `str` where its
header belongs. `list` opens a list and records the `lhsize` of the moment,
the bytes of the headers closed so far; `listEnd` computes the payload size
as `size() - offset - lhsize at open` and adds the new header's length to
`lhsize`. The buffer is then flattened three ways: `toBytes` into one slice,
`toWriter` into the writes of an `io.Writer`, and `encReader`, the reader
`EncodeToReader` returns, into the reads of any buffers.

The model:

* a `*listhead` handed out by `list` is its index in `lheads`, and
  `listEnd` updates the header at that index;
* `sizebuf`, the scratch space of `putint`, is left out: a header is the
  bytes `puthead` writes;
* `writeItem` is the writer of an `Item`: `writeBytes` for a byte string
  and the writer of a slice or struct (`list`, the elements, `listEnd`)
  for a list;
* `toBytes` makes `out` with `size()` bytes and copies into it; the model
  appends the pieces, and `EncbufSpec` shows that they take exactly
  `size()` bytes, so no copy is cut short and no byte of `make` is left;
* the `io.Writer` of `toWriter` takes every write whole; the model returns
  the writes in order;
* `encReader.piece` is `[]` for `nil`: the reader never keeps an empty
  piece that is not `nil`;
* `Read` returns the bytes it copied into `b` and whether it returned
  `io.EOF`; its loop ends because each round takes a piece
  (`next_potential`).
-/

namespace Lemochain.Rlp

/-- `listhead`: the index of the header in the string data and, once the
list is closed, the size of its payload (while it is open, the `lhsize` of
the moment it was opened). -/
structure listhead where
  offset : Nat
  size : Nat
  deriving DecidableEq, Repr

/-- `listhead.encode`: the header of a list of `size` bytes. -/
def listhead.encode (head : listhead) : Bytes := puthead 0xC0 0xF7 head.size

/-- `encbuf`: the string data, the list headers and the sum of the sizes of
the headers of the closed lists. -/
structure encbuf where
  str : Bytes
  lheads : List listhead
  lhsize : Nat
  deriving DecidableEq, Repr

namespace encbuf

/-- `reset`: an empty buffer. -/
def reset (_w : encbuf) : encbuf := ⟨[], [], 0⟩

/-- `encodeString`: the string data gets the string's encoding. -/
def encodeString (w : encbuf) (b : Bytes) : encbuf := { w with str := w.str ++ Rlp.encodeString b }

/-- `list`: open a list at the end of the string data. -/
def list (w : encbuf) : encbuf × Nat :=
  ({ w with lheads := w.lheads ++ [⟨w.str.length, w.lhsize⟩] }, w.lheads.length)

/-- `size`: the bytes of the string data and of the closed lists' headers. -/
def size (w : encbuf) : Nat := w.str.length + w.lhsize

/-- `listEnd`: the payload of the list is everything written since it was
opened, string data and closed headers.

Length encoded into kind tag, or after it. -/
def listEnd (w : encbuf) (lh : Nat) : encbuf :=
  let head := w.lheads.getD lh ⟨0, 0⟩
  let size := w.size - head.offset - head.size
  { w with
    lheads := w.lheads.set lh { head with size := size }
    lhsize := w.lhsize + if size < 56 then 1 else 1 + intsize size }

mutual

/-- The writer of an item: `writeBytes` for a string, and for a list
`list`, the writers of the elements, then `listEnd`. -/
def writeItem : encbuf → Item → encbuf
  | w, .str b => w.encodeString b
  | w, .list items =>
      let (w, lh) := w.list
      (writeItems w items).listEnd lh

/-- The elements of a list, one after the other. -/
def writeItems : encbuf → List Item → encbuf
  | w, [] => w
  | w, it :: its => writeItems (writeItem w it) its

end

/-- `toBytes`: the string data with each header inserted at its offset.

Write string data before header, then the header. Copy string data after the
last list header. -/
def toBytes (w : encbuf) : Bytes :=
  let (out, strpos) := w.lheads.foldl (fun (out, strpos) head =>
      let s := (w.str.drop strpos).take (head.offset - strpos)
      (out ++ s ++ head.encode, strpos + s.length)) ([], 0)
  out ++ w.str.drop strpos

/-- `toWriter`: the writes `toBytes`'s pieces make, the string data before
a header only when there is some.

Write string data after the last list header. -/
def toWriter (w : encbuf) : List Bytes :=
  let (writes, strpos) := w.lheads.foldl (fun (writes, strpos) head =>
      let (writes, strpos) :=
        if head.offset - strpos > 0 then
          let s := (w.str.drop strpos).take (head.offset - strpos)
          (writes ++ [s], strpos + s.length)
        else (writes, strpos)
      (writes ++ [head.encode], strpos)) ([], 0)
  if strpos < w.str.length then writes ++ [w.str.drop strpos] else writes

end encbuf

/-- `encReader`: the buffer (`none` at EOF), the header and the string
position reached, and the rest of a piece that did not fit. -/
structure encReader where
  buf : Option encbuf
  lhpos : Nat
  strpos : Nat
  piece : Bytes
  deriving DecidableEq, Repr

namespace encReader

/-- `next`: the next piece of data to be read, `none` at EOF. A piece
left over from the last read comes first; then, while list headers remain,
the string data before the next header and then the header itself; after
the last header, the string data to the end. -/
def next (r : encReader) : Option Bytes × encReader :=
  match r.buf with
  | none => (none, r)
  | some buf =>
      if r.piece ≠ [] then (some r.piece, r)
      else
        match buf.lheads[r.lhpos]? with
        | some head =>
            let sizebefore := head.offset - r.strpos
            if sizebefore > 0 then
              (some ((buf.str.drop r.strpos).take (head.offset - r.strpos)),
                { r with strpos := r.strpos + sizebefore })
            else (some head.encode, { r with lhpos := r.lhpos + 1 })
        | none =>
            if r.strpos < buf.str.length then (some (buf.str.drop r.strpos), { r with strpos := buf.str.length })
            else (none, r)

/-- What is left of the reader's work: the piece it keeps, two for each
header left (the data before it and the header) and the data at the end. -/
def potential (r : encReader) : Nat :=
  match r.buf with
  | none => 0
  | some buf =>
      (if r.piece ≠ [] then 1 else 0) + 2 * (buf.lheads.length - r.lhpos) +
        match buf.lheads[r.lhpos]? with
        | some head => if r.strpos < head.offset then 1 else 0
        | none => if r.strpos < buf.str.length then 1 else 0

/-- What `next` can do when it returns a piece: hand back the piece it
keeps, the string data before the next header, the header, or the string
data at the end. -/
theorem next_some {r r' : encReader} {p : Bytes} (h : r.next = (some p, r')) :
    ∃ buf, r.buf = some buf ∧
      ((r.piece ≠ [] ∧ p = r.piece ∧ r' = r) ∨
        (r.piece = [] ∧ ∃ head, buf.lheads[r.lhpos]? = some head ∧
          ((r.strpos < head.offset ∧ p = (buf.str.drop r.strpos).take (head.offset - r.strpos) ∧
              r' = { r with strpos := head.offset }) ∨
            (head.offset ≤ r.strpos ∧ p = head.encode ∧ r' = { r with lhpos := r.lhpos + 1 }))) ∨
        (r.piece = [] ∧ buf.lheads[r.lhpos]? = none ∧ r.strpos < buf.str.length ∧ p = buf.str.drop r.strpos ∧
          r' = { r with strpos := buf.str.length })) := by
  unfold next at h
  cases hb : r.buf with
  | none =>
      rw [hb] at h
      cases h
  | some buf =>
      rw [hb] at h
      dsimp only at h
      refine ⟨buf, rfl, ?_⟩
      by_cases hp : r.piece = []
      · rw [if_neg (not_not.mpr hp)] at h
        cases hh : buf.lheads[r.lhpos]? with
        | none =>
            rw [hh] at h
            dsimp only at h
            split_ifs at h with hs
            · cases h
              exact .inr (.inr ⟨hp, rfl, hs, rfl, rfl⟩)
            · cases h
        | some head =>
            rw [hh] at h
            dsimp only at h
            split_ifs at h with hs
            · cases h
              exact .inr (.inl ⟨hp, head, rfl, .inl ⟨by omega, rfl, by congr 1; omega⟩⟩)
            · cases h
              exact .inr (.inl ⟨hp, head, rfl, .inr ⟨by omega, rfl, rfl⟩⟩)
      · rw [if_pos hp] at h
        cases h
        exact .inl ⟨hp, rfl, rfl⟩

/-- A piece taken whole leaves less work.

The piece kept. The string data before a header. A header: two less for it,
at most one more for the next. The string data at the end. -/
theorem next_potential {r r' : encReader} {p : Bytes} (h : r.next = (some p, r')) :
    potential { r' with piece := [] } < potential r := by
  obtain ⟨buf, hb, ⟨hp, -, rfl⟩ | ⟨hp, head, hh, ⟨hs, -, rfl⟩ | ⟨hs, -, rfl⟩⟩ | ⟨hp, hh, hs, -, rfl⟩⟩ := next_some h
  · simp [potential, hb, hp]
  · simp [potential, hb, hp, hh, hs]
  · have hlt := (List.getElem?_eq_some_iff.mp hh).1
    simp only [potential, hb, hp, hh, ne_eq, not_true_eq_false, if_false, Nat.zero_add, if_neg (Nat.not_lt.mpr hs)]
    split <;> split <;> omega
  · simp [potential, hb, hp, hh, hs]

/-- The loop of `Read` into a buffer of `k` bytes of which `out` are
filled: copy pieces until one does not fit or the data ends. At EOF the
encode buffer goes back to the pool; the rest of a piece that does not fit
is kept for the next read. -/
def readLoop (k : Nat) (r : encReader) (out : Bytes) : (Bytes × Bool) × encReader :=
  match h : r.next with
  | (none, r') =>
      ((out, true), { r' with piece := [], buf := none })
  | (some piece, r') =>
      let nn := min (k - out.length) piece.length
      let out := out ++ piece.take nn
      if nn < piece.length then ((out, false), { r' with piece := piece.drop nn })
      else readLoop k { r' with piece := [] } out
termination_by r.potential
decreasing_by exact next_potential h

/-- `Read` into a buffer of `k` bytes: the bytes read and whether the
reader returned `io.EOF`. -/
def Read (r : encReader) (k : Nat) : (Bytes × Bool) × encReader := readLoop k r []

/-- Reads into buffers of the sizes `ks`, one after the other. -/
def ReadAll (r : encReader) : List Nat → List (Bytes × Bool) × encReader
  | [] => ([], r)
  | k :: ks =>
      let (res, r) := r.Read k
      let (rest, r) := r.ReadAll ks
      (res :: rest, r)

end encReader

namespace Item

/-- `EncodeToBytes` of an item: `toBytes` of a reset buffer it was written
into. -/
def EncodeToBytes (it : Item) : Bytes := ((encbuf.reset ⟨[], [], 0⟩).writeItem it).toBytes

/-- `Encode` of an item: the writes the `io.Writer` gets. -/
def Encode (it : Item) : List Bytes := ((encbuf.reset ⟨[], [], 0⟩).writeItem it).toWriter

/-- `EncodeToReader` of an item: the size it reports and the reader. -/
def EncodeToReader (it : Item) : Nat × encReader :=
  let eb := (encbuf.reset ⟨[], [], 0⟩).writeItem it
  (eb.size, ⟨some eb, 0, 0, []⟩)

end Item

end Lemochain.Rlp
