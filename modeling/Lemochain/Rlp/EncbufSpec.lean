import Lemochain.Rlp.Encbuf
import Lemochain.Rlp.Decode

/-!
# The encoder's buffer refines `encode`

An item written into an `encbuf` leaves its string data `strData` at the
end of `str`, one header per list in `headsOf`, at the offsets where the
list's encoding starts, and `hdrLen` more bytes of closed headers in
`lhsize` (`writeItem_eq`): `listEnd` finds the size of each list's payload
because every list inside it was closed before it. `render` is what the
three outputs make of a buffer: the string data with each header at its
offset. An item's layout renders as its encoding (`render_item`), so
`toBytes`, the writes of `toWriter` and the reads of `encReader`, into
buffers of any sizes, give `encode` (`encbuf_outputs_eq_encode`).

## Main results

* `writeItem_eq`: what writing an item adds to the buffer.
* `toBytes_eq_render`, `toWriter_flatten`: `toBytes` and `toWriter` render
  the buffer; `toBytes_length`: they take the `size()` bytes of `out`.
* `render_item`: the layout of an item renders as its encoding.
* `Read_spec`: a read takes the first `k` of the bytes the reader has left
  and reports EOF when they are all taken.
* `encbuf_outputs_eq_encode`: the three outputs and `EncodeToReader`'s size
  agree with `encode`; `EncodeToBytes_eq_buffer`: the encoder of values
  writes through the buffer.
-/

namespace Lemochain.Rlp

/-! ## The layout of an item -/

mutual

/-- The string data an item leaves in the buffer: its strings' encodings. -/
def strData : Item → Bytes
  | .str b => encodeString b
  | .list items => strDataList items

def strDataList : List Item → Bytes
  | [] => []
  | it :: its => strData it ++ strDataList its

end

mutual

/-- The headers of an item's lists, written from offset `o` of the string
data, each with the size of its payload. -/
def headsOf : Item → Nat → List listhead
  | .str _, _ => []
  | .list items, o => ⟨o, (encodeList items).length⟩ :: headsOfList items o

def headsOfList : List Item → Nat → List listhead
  | [], _ => []
  | it :: its, o => headsOf it o ++ headsOfList its (o + (strData it).length)

end

mutual

/-- The bytes of an item's list headers. -/
def hdrLen : Item → Nat
  | .str _ => 0
  | .list items => (puthead 0xC0 0xF7 (encodeList items).length).length + hdrLenList items

def hdrLenList : List Item → Nat
  | [] => 0
  | it :: its => hdrLen it + hdrLenList its

end

mutual

/-- An encoding is the item's string data and its headers. -/
theorem encode_length_split : (it : Item) → (encode it).length = (strData it).length + hdrLen it
  | .str b => by simp [strData, hdrLen]
  | .list items => by
      rw [encode_list, List.length_append, strData, hdrLen, encodeList_length_split items]
      omega

theorem encodeList_length_split : (items : List Item) →
    (encodeList items).length = (strDataList items).length + hdrLenList items
  | [] => by simp [strDataList, hdrLenList]
  | it :: its => by
      rw [encodeList_cons, List.length_append, strDataList, hdrLenList, List.length_append,
        encode_length_split it, encodeList_length_split its]
      omega

end

theorem puthead_length (smalltag largetag : UInt8) (size : Nat) :
    (puthead smalltag largetag size).length = if size < 56 then 1 else 1 + intsize size := by
  unfold puthead
  split <;> simp [Nat.add_comm]

/-! ## Writing an item -/

theorem getD_append_singleton {α : Type} (l m : List α) (a d : α) : (l ++ a :: m).getD l.length d = a := by
  simp

theorem set_append_singleton {α : Type} (l m : List α) (a b : α) : (l ++ a :: m).set l.length b = l ++ b :: m := by
  simp

mutual

/-- Writing an item appends its string data, its headers at the offsets it
is written from, and the bytes of its headers.

The list's header is open while its items are written. The payload is what
was written since the list was opened. -/
theorem writeItem_eq : (w : encbuf) → (it : Item) →
    w.writeItem it = ⟨w.str ++ strData it, w.lheads ++ headsOf it w.str.length, w.lhsize + hdrLen it⟩
  | w, .str b => by simp [encbuf.writeItem, encbuf.encodeString, strData, headsOf, hdrLen]
  | w, .list items => by
      have hitems := writeItems_eq ⟨w.str, w.lheads ++ [⟨w.str.length, w.lhsize⟩], w.lhsize⟩ items
      rw [encbuf.writeItem, encbuf.list]
      dsimp only
      rw [hitems]
      simp only [encbuf.listEnd, encbuf.size, List.append_assoc, List.singleton_append, getD_append_singleton,
        set_append_singleton, List.length_append]
      have hsize : w.str.length + (strDataList items).length + (w.lhsize + hdrLenList items) -
          w.str.length - w.lhsize = (encodeList items).length := by
        rw [encodeList_length_split]
        omega
      rw [hsize, strData, headsOf, hdrLen, puthead_length]
      congr 1
      omega

theorem writeItems_eq : (w : encbuf) → (items : List Item) →
    w.writeItems items = ⟨w.str ++ strDataList items, w.lheads ++ headsOfList items w.str.length,
      w.lhsize + hdrLenList items⟩
  | w, [] => by simp [encbuf.writeItems, strDataList, headsOfList, hdrLenList]
  | w, it :: its => by
      rw [encbuf.writeItems, writeItems_eq (w.writeItem it) its, writeItem_eq w it]
      simp only [strDataList, headsOfList, hdrLenList, List.append_assoc, List.length_append]
      congr 1
      omega

end

/-! ## Rendering a buffer -/

/-- The bytes of the string data from `strpos` on with the headers `hs`
inserted at their offsets: the string data before the next header, the
header, and the rest. -/
def render (str : Bytes) : List listhead → Nat → Bytes
  | [], strpos => str.drop strpos
  | head :: hs, strpos =>
      let s := (str.drop strpos).take (head.offset - strpos)
      s ++ head.encode ++ render str hs (strpos + s.length)

theorem toBytes_foldl (str : Bytes) (hs : List listhead) (out : Bytes) (strpos : Nat) :
    let p := hs.foldl (fun (acc : Bytes × Nat) head =>
        let s := (str.drop acc.2).take (head.offset - acc.2)
        (acc.1 ++ s ++ head.encode, acc.2 + s.length)) (out, strpos)
    p.1 ++ str.drop p.2 = out ++ render str hs strpos := by
  induction hs generalizing out strpos with
  | nil => rfl
  | cons head hs ih =>
      refine (ih _ _).trans ?_
      rw [render]
      simp only [List.append_assoc]

/-- `toBytes` renders the buffer. -/
theorem toBytes_eq_render (w : encbuf) : w.toBytes = render w.str w.lheads 0 := by
  have h := toBytes_foldl w.str w.lheads [] 0
  rw [List.nil_append] at h
  rw [← h]
  rfl

/-- No write before a header at the string position: that piece is empty. -/
theorem toWriter_foldl (str : Bytes) (hs : List listhead) (writes : List Bytes) (strpos : Nat) :
    let p := hs.foldl (fun (acc : List Bytes × Nat) head =>
        let q := if head.offset - acc.2 > 0 then
            let s := (str.drop acc.2).take (head.offset - acc.2)
            (acc.1 ++ [s], acc.2 + s.length)
          else (acc.1, acc.2)
        (q.1 ++ [head.encode], q.2)) (writes, strpos)
    p.1.flatten ++ str.drop p.2 = writes.flatten ++ render str hs strpos := by
  induction hs generalizing writes strpos with
  | nil => rfl
  | cons head hs ih =>
      refine (ih _ _).trans ?_
      rw [render]
      by_cases hpos : head.offset - strpos > 0
      · simp [hpos]
      · have h0 : head.offset - strpos = 0 := by omega
        simp [h0]

/-- The writes of `toWriter` are the bytes of `toBytes`. -/
theorem toWriter_flatten (w : encbuf) : w.toWriter.flatten = w.toBytes := by
  have h := toWriter_foldl w.str w.lheads [] 0
  rw [List.flatten_nil, List.nil_append, ← toBytes_eq_render] at h
  rw [← h]
  unfold encbuf.toWriter
  dsimp only
  split
  · simp
  · rename_i hge
    rw [List.drop_eq_nil_of_le (Nat.le_of_not_lt hge), List.append_nil]

/-- Rendering from `o` is the string data up to `p` and rendering from
`p`, when no header stands before `p`.

The data before the header splits at `p`. And the string position after it
is the same from either start. -/
theorem render_split (str : Bytes) (hs : List listhead) {o p : Nat} (hop : o ≤ p) (hp : p ≤ str.length)
    (hhs : ∀ h ∈ hs, p ≤ h.offset) : render str hs o = (str.drop o).take (p - o) ++ render str hs p := by
  have hdrop : (str.drop o).drop (p - o) = str.drop p := by
    rw [List.drop_drop]
    congr 1
    omega
  cases hs with
  | nil =>
      simp only [render]
      rw [← hdrop, List.take_append_drop]
  | cons head hs =>
      have hhead : p ≤ head.offset := hhs head (List.mem_cons_self ..)
      have htake : (str.drop o).take (head.offset - o) = (str.drop o).take (p - o) ++ (str.drop p).take (head.offset - p) := by
        rw [show head.offset - o = (p - o) + (head.offset - p) by omega, List.take_add, hdrop]
      have hpos : o + ((str.drop o).take (head.offset - o)).length = p + ((str.drop p).take (head.offset - p)).length := by
        simp only [List.length_take, List.length_drop]
        omega
      simp only [render]
      rw [hpos, htake, List.append_assoc, List.append_assoc, List.append_assoc]

mutual

/-- The headers of an item lie within its string data. -/
theorem headsOf_offset : (it : Item) → (o : Nat) → ∀ h ∈ headsOf it o, o ≤ h.offset ∧ h.offset ≤ o + (strData it).length
  | .str _, _ => by simp [headsOf]
  | .list items, o => by
      intro h hmem
      rw [headsOf, List.mem_cons] at hmem
      rcases hmem with rfl | hmem
      · exact ⟨Nat.le_refl _, Nat.le_add_right _ _⟩
      · exact headsOfList_offset items o h hmem

theorem headsOfList_offset : (items : List Item) → (o : Nat) →
    ∀ h ∈ headsOfList items o, o ≤ h.offset ∧ h.offset ≤ o + (strDataList items).length
  | [], _ => by simp [headsOfList]
  | it :: its, o => by
      intro h hmem
      rw [headsOfList, List.mem_append] at hmem
      simp only [strDataList, List.length_append]
      rcases hmem with hmem | hmem
      · have := headsOf_offset it o h hmem
        omega
      · have := headsOfList_offset its (o + (strData it).length) h hmem
        omega

end

theorem encodeString_length_pos (b : Bytes) : 0 < (encodeString b).length := by
  unfold encodeString encodeStringHeader
  split
  · split <;> simp
  · simp only [puthead_length, List.length_append]
    split <;> omega

theorem take_split {l a b : Bytes} (h : l.take (a.length + b.length) = a ++ b) :
    l.take a.length = a ∧ (l.drop a.length).take b.length = b := by
  rw [List.take_add] at h
  have hlen : (l.take a.length).length = a.length := by
    have := congrArg List.length h
    simp only [List.length_append, List.length_take, List.length_drop] at this ⊢
    omega
  exact List.append_inj h hlen

theorem length_le_of_take {l a : Bytes} {o : Nat} (ha : 0 < a.length) (h : (l.drop o).take a.length = a) :
    o + a.length ≤ l.length := by
  have := congrArg List.length h
  simp only [List.length_take, List.length_drop] at this
  omega

mutual

/-- The layout of an item renders as its encoding: the string data it left
with its headers at their offsets.

The list's header comes first, at the offset of its data. -/
theorem render_item : (it : Item) → (str : Bytes) → (hs : List listhead) → (o : Nat) →
    (str.drop o).take (strData it).length = strData it → (∀ h ∈ hs, o + (strData it).length ≤ h.offset) →
    render str (headsOf it o ++ hs) o = encode it ++ render str hs (o + (strData it).length)
  | .str b, str, hs, o, hdata, hhs => by
      rw [strData] at hdata hhs ⊢
      rw [headsOf, List.nil_append, render_split str hs (Nat.le_add_right o _) (length_le_of_take (encodeString_length_pos b) hdata) hhs,
        Nat.add_sub_cancel_left, hdata, encode_str]
  | .list items, str, hs, o, hdata, hhs => by
      rw [headsOf, List.cons_append, render]
      simp only [Nat.sub_self, List.take_zero, List.nil_append, List.length_nil, Nat.add_zero]
      rw [render_items items str hs o hdata hhs, encode_list, List.append_assoc]
      rfl

/-- The first item's headers stand before those of the rest. -/
theorem render_items : (items : List Item) → (str : Bytes) → (hs : List listhead) → (o : Nat) →
    (str.drop o).take (strDataList items).length = strDataList items →
    (∀ h ∈ hs, o + (strDataList items).length ≤ h.offset) →
    render str (headsOfList items o ++ hs) o = encodeList items ++ render str hs (o + (strDataList items).length)
  | [], str, hs, o, _, _ => by simp [headsOfList, strDataList]
  | it :: its, str, hs, o, hdata, hhs => by
      simp only [strDataList, List.length_append] at hdata hhs
      obtain ⟨hdata1, hdata2⟩ := take_split hdata
      rw [List.drop_drop] at hdata2
      have hhs1 : ∀ h ∈ headsOfList its (o + (strData it).length) ++ hs, o + (strData it).length ≤ h.offset := by
        intro h hmem
        rcases List.mem_append.mp hmem with hmem | hmem
        · exact (headsOfList_offset its _ h hmem).1
        · have := hhs h hmem
          omega
      have hhs2 : ∀ h ∈ hs, o + (strData it).length + (strDataList its).length ≤ h.offset := by
        intro h hmem
        have := hhs h hmem
        omega
      rw [headsOfList, List.append_assoc, render_item it str _ o hdata1 hhs1, render_items its str hs _ hdata2 hhs2,
        encodeList_cons, strDataList, List.length_append, List.append_assoc, Nat.add_assoc]

end

/-! ## The three outputs -/

/-- `EncodeToBytes` writes the encoding. -/
theorem EncodeToBytes_eq_encode (it : Item) : it.EncodeToBytes = encode it := by
  have h := render_item it (strData it) [] 0 (by simp) (by simp)
  rw [List.append_nil, Nat.zero_add, render, List.drop_length, List.append_nil] at h
  rw [Item.EncodeToBytes, toBytes_eq_render, writeItem_eq]
  exact h

/-- `toBytes` fills the `size()` bytes it makes `out` with: no copy is cut
short and no byte of `make` is left. -/
theorem toBytes_length (it : Item) :
    ((encbuf.reset ⟨[], [], 0⟩).writeItem it).toBytes.length = ((encbuf.reset ⟨[], [], 0⟩).writeItem it).size := by
  rw [← Item.EncodeToBytes, EncodeToBytes_eq_encode, encode_length_split, writeItem_eq]
  simp [encbuf.size, encbuf.reset]

/-- `EncodeToBytes` of a value, which picks the writer of its type, writes
the value's item through the buffer. -/
theorem EncodeToBytes_eq_buffer (v : Val) : EncodeToBytes v = v.toItem.map Item.EncodeToBytes := by
  rw [EncodeToBytes]
  congr 1
  funext it
  rw [EncodeToBytes_eq_encode]

example : (Item.list [.str [1], .list [.str [0x80]]]).EncodeToBytes = [0xC4, 0x01, 0xC2, 0x81, 0x80] := by decide

/-! ## The reader -/

theorem drop_of_getElem? {α : Type} {l : List α} {i : Nat} {a : α} (h : l[i]? = some a) :
    l.drop i = a :: l.drop (i + 1) := by
  obtain ⟨hlt, heq⟩ := List.getElem?_eq_some_iff.mp h
  rw [List.drop_eq_getElem_cons hlt, heq]

namespace encReader

/-- The bytes the reader has yet to give: the piece it keeps, then the
buffer rendered from the header and the string position reached. -/
def pending (r : encReader) : Bytes :=
  match r.buf with
  | none => []
  | some buf => r.piece ++ render buf.str (buf.lheads.drop r.lhpos) r.strpos

/-- Every header of the reader's buffer lies within its string data. -/
def Inv (r : encReader) : Prop := ∀ buf, r.buf = some buf → ∀ h ∈ buf.lheads, h.offset ≤ buf.str.length

/-- `next` returns no piece only when nothing is left. -/
theorem next_none {r r' : encReader} (h : r.next = (none, r')) : r' = r ∧ r.pending = [] := by
  unfold next at h
  cases hb : r.buf with
  | none =>
      rw [hb] at h
      cases h
      simp [pending, hb]
  | some buf =>
      rw [hb] at h
      dsimp only at h
      by_cases hp : r.piece = []
      · rw [if_neg (not_not.mpr hp)] at h
        cases hh : buf.lheads[r.lhpos]? with
        | some head =>
            rw [hh] at h
            dsimp only at h
            split_ifs at h <;> cases h
        | none =>
            rw [hh] at h
            dsimp only at h
            split_ifs at h with hs
            · cases h
            · cases h
              have hdrop : buf.lheads.drop r.lhpos = [] :=
                List.drop_eq_nil_of_le (List.getElem?_eq_none_iff.mp hh)
              simp [pending, hb, hp, hdrop, render, List.drop_eq_nil_of_le (Nat.le_of_not_lt hs)]
      · rw [if_pos hp] at h
        cases h

/-- A piece `next` returns is the start of what is left, and the rest is
left after it.

The piece kept. The string data before a header, which lies within the
string data. A header. The string data at the end. -/
theorem next_pending {r r' : encReader} {p : Bytes} (hinv : r.Inv) (h : r.next = (some p, r')) :
    r.pending = p ++ { r' with piece := [] }.pending ∧ { r' with piece := [] }.Inv := by
  obtain ⟨buf, hb, ⟨hp, rfl, rfl⟩ | ⟨hp, head, hh, ⟨hs, rfl, rfl⟩ | ⟨hs, rfl, rfl⟩⟩ | ⟨hp, hh, hs, rfl, rfl⟩⟩ :=
    next_some h
  · exact ⟨by simp [pending, hb], hinv⟩
  · have hoff : head.offset ≤ buf.str.length := hinv buf hb head (List.mem_of_getElem? hh)
    refine ⟨?_, hinv⟩
    simp only [pending, hb, hp, List.nil_append, drop_of_getElem? hh, render, Nat.sub_self, List.take_zero,
      List.length_nil, Nat.add_zero, List.length_take, List.length_drop]
    rw [show r.strpos + min (head.offset - r.strpos) (buf.str.length - r.strpos) = head.offset by omega,
      List.append_assoc]
  · refine ⟨?_, hinv⟩
    simp only [pending, hb, hp, List.nil_append, drop_of_getElem? hh, render, Nat.sub_eq_zero_of_le hs,
      List.take_zero, List.length_nil, Nat.add_zero]
  · have hdrop : buf.lheads.drop r.lhpos = [] := List.drop_eq_nil_of_le (List.getElem?_eq_none_iff.mp hh)
    refine ⟨?_, hinv⟩
    simp [pending, hb, hp, hdrop, render]

/-- The piece a reader keeps comes before the rest of its data. -/
theorem pending_piece {r : encReader} {buf : encbuf} (hb : r.buf = some buf) (x : Bytes) :
    { r with piece := x }.pending = x ++ { r with piece := [] }.pending := by
  simp [pending, hb]

theorem next_some_buf {r r' : encReader} {p : Bytes} (h : r.next = (some p, r')) : ∃ buf, r'.buf = some buf := by
  obtain ⟨buf, hb, ⟨-, -, rfl⟩ | ⟨-, head, -, ⟨-, -, rfl⟩ | ⟨-, -, rfl⟩⟩ | ⟨-, -, -, -, rfl⟩⟩ := next_some h <;>
    exact ⟨buf, hb⟩

/-- The loop of `Read` fills the buffer from what is left, and reports EOF
when what is left fits.

Nothing is left: EOF. The piece fills the buffer and its rest is kept. The
piece is copied whole and the loop goes on. -/
theorem readLoop_spec (k : Nat) (r : encReader) (out : Bytes) (hinv : r.Inv) (hout : out.length ≤ k) :
    (readLoop k r out).1 = (out ++ r.pending.take (k - out.length), decide (r.pending.length ≤ k - out.length)) ∧
      (readLoop k r out).2.pending = r.pending.drop (k - out.length) ∧ (readLoop k r out).2.Inv := by
  fun_induction readLoop k r out with
  | case1 r out r' hnext =>
      obtain ⟨-, hnil⟩ := next_none hnext
      refine ⟨?_, by rw [hnil, List.drop_nil]; rfl, fun buf hb => by cases hb⟩
      rw [hnil, List.take_nil, List.append_nil, List.length_nil]
      simp
  | case2 r out piece r' hnext nn out' hlt =>
      obtain ⟨hpend, hinv'⟩ := next_pending hinv hnext
      obtain ⟨buf, hb⟩ := next_some_buf hnext
      have hnn : nn = k - out.length := by omega
      rw [hnn] at hlt
      refine ⟨?_, ?_, hinv'⟩
      · show (out', false) = _
        have hlong : ¬ (piece ++ { r' with piece := [] }.pending).length ≤ k - out.length := by
          rw [List.length_append]
          omega
        rw [hpend, List.take_append_of_le_length (Nat.le_of_lt hlt), decide_eq_false hlong]
        simp only [out', hnn]
      · show { r' with piece := piece.drop nn }.pending = _
        rw [pending_piece hb, hpend, List.drop_append_of_le_length (Nat.le_of_lt hlt), hnn]
  | case3 r out piece r' hnext nn out' hge ih =>
      obtain ⟨hpend, hinv'⟩ := next_pending hinv hnext
      have hnn : nn = piece.length := by omega
      have hle : piece.length ≤ k - out.length := by omega
      have hout' : out' = out ++ piece := by simp only [out', hnn, List.take_length]
      obtain ⟨h1, h2, h3⟩ := ih hinv' (by rw [hout', List.length_append]; omega)
      have hk : k - out'.length = k - out.length - piece.length := by rw [hout', List.length_append]; omega
      refine ⟨?_, ?_, h3⟩
      · rw [h1, hpend, hk, hout', List.take_append, List.take_of_length_le hle, List.append_assoc, List.length_append]
        simp only [Prod.mk.injEq, true_and, decide_eq_decide]
        omega
      · rw [h2, hpend, hk, List.drop_append, List.drop_eq_nil_of_le hle, List.nil_append]

/-- `Read` into a buffer of `k` bytes: the first `k` bytes left, and EOF
when they are all that is left. -/
theorem Read_spec (r : encReader) (hinv : r.Inv) (k : Nat) :
    (r.Read k).1 = (r.pending.take k, decide (r.pending.length ≤ k)) ∧
      (r.Read k).2.pending = r.pending.drop k ∧ (r.Read k).2.Inv := by
  have h := readLoop_spec k r [] hinv (Nat.zero_le k)
  unfold Read
  simpa only [List.length_nil, Nat.sub_zero, List.nil_append] using h

/-- Reads into buffers of the sizes `ks`: each takes the next bytes left, as
many as its buffer holds, and reports EOF when those are the last. -/
theorem ReadAll_getElem? (ks : List Nat) : ∀ (r : encReader), r.Inv → ∀ i, (r.ReadAll ks).1[i]? =
    ks[i]?.map fun k => ((r.pending.drop (ks.take i).sum).take k, decide (r.pending.length ≤ (ks.take i).sum + k)) := by
  induction ks with
  | nil => intro r _ i; simp [ReadAll]
  | cons k ks ih =>
      intro r hinv i
      obtain ⟨h1, h2, h3⟩ := Read_spec r hinv k
      cases i with
      | zero => simp [ReadAll, h1]
      | succ i =>
          simp only [ReadAll, List.getElem?_cons_succ, ih _ h3 i, h2, List.drop_drop, List.take_succ_cons,
            List.sum_cons, List.length_drop]
          congr 1
          funext k'
          have heof : r.pending.length - k ≤ (ks.take i).sum + k' ↔ r.pending.length ≤ k + (ks.take i).sum + k' := by
            omega
          simp only [heof]
          rfl

/-- The bytes of reads into buffers of the sizes `ks` are the first
`ks.sum` bytes left. -/
theorem ReadAll_flatten (ks : List Nat) : ∀ (r : encReader), r.Inv →
    ((r.ReadAll ks).1.map Prod.fst).flatten = r.pending.take ks.sum := by
  induction ks with
  | nil => intro r _; simp [ReadAll]
  | cons k ks ih =>
      intro r hinv
      obtain ⟨h1, h2, h3⟩ := Read_spec r hinv k
      simp only [ReadAll, List.map_cons, List.flatten_cons, h1, ih _ h3, h2, List.sum_cons, List.take_add]

end encReader

/-! ## `EncodeToReader` -/

theorem EncodeToReader_pending (it : Item) : it.EncodeToReader.2.pending = encode it := by
  rw [← EncodeToBytes_eq_encode, Item.EncodeToBytes, toBytes_eq_render]
  simp [Item.EncodeToReader, encReader.pending]

theorem EncodeToReader_inv (it : Item) : it.EncodeToReader.2.Inv := by
  intro buf hb
  cases hb
  intro h hmem
  simp only [writeItem_eq, encbuf.reset, List.nil_append, List.length_nil] at hmem ⊢
  have := (headsOf_offset it 0 h hmem).2
  omega

/-- The bytes `toBytes` returns, the writes `toWriter` makes and the reads
of the reader `EncodeToReader` returns, into buffers of any sizes, are the
encoding, and the reported size is its length.

The size is the string data and the closed headers. -/
theorem encbuf_outputs_eq_encode (it : Item) :
    it.EncodeToBytes = encode it ∧ it.Encode.flatten = encode it ∧ it.EncodeToReader.1 = (encode it).length ∧
      ∀ ks : List Nat,
        ((it.EncodeToReader.2.ReadAll ks).1.map Prod.fst).flatten = (encode it).take ks.sum ∧
          ∀ i, (it.EncodeToReader.2.ReadAll ks).1[i]? = ks[i]?.map fun k =>
            (((encode it).drop (ks.take i).sum).take k, decide ((encode it).length ≤ (ks.take i).sum + k)) := by
  have hbytes := EncodeToBytes_eq_encode it
  refine ⟨hbytes, ?_, ?_, fun ks => ⟨?_, fun i => ?_⟩⟩
  · rw [Item.Encode, toWriter_flatten, ← Item.EncodeToBytes, hbytes]
  · simp only [Item.EncodeToReader, encbuf.size, writeItem_eq, encbuf.reset, List.nil_append, Nat.zero_add]
    rw [encode_length_split]
  · rw [encReader.ReadAll_flatten ks _ (EncodeToReader_inv it), EncodeToReader_pending]
  · rw [encReader.ReadAll_getElem? ks _ (EncodeToReader_inv it), EncodeToReader_pending]

end Lemochain.Rlp
