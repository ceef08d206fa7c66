import Mathlib.Algebra.BigOperators.Group.List.Basic
import Mathlib.Algebra.Order.Ring.Nat
import Mathlib.Data.Nat.Cast.Order.Basic
import Mathlib.Order.Fin.Basic
import Lemochain.Common.Types

/-!
# Trie key encodings (`trie/encoding.go`)

The trie works with three encodings of a key:

* *KEYBYTES*: the raw key bytes handed to `Trie.Get` and `Trie.Update`;
* *HEX*: one nibble per element, closed by the terminator `16` when the key
  leads to a value — the form the in-memory nodes hold;
* *COMPACT*: the hex-prefix encoding of the Yellow Paper, used for the keys
  of short nodes in the database form.

A hex element is a `Nibble := Fin 17`: every hex key the source builds comes
from `keybytesToHex` or `compactToHex`, whose elements are nibbles `b / 16`,
`b % 16` or the terminator `16`, so the type rules out the out-of-range child
indices that the source would panic on. `compactToHex` of an empty input
indexes `base[0]` of an empty slice and panics; it returns `none` there.

## Main results

* `keybytesToHex_eq` — a hex key is its nibble string followed by the
  terminator.
* `prefixLen_spec` — the shared prefix found by `prefixLen` is maximal.
-/

namespace Lemochain.Trie

/-- An element of a hex key: a nibble `0..15` or the terminator `16`. -/
abbrev Nibble := Fin 17

/-- A key in hex form. -/
abbrev Hex := List Nibble

/-- The terminator flag that closes every value key. -/
def terminator : Nibble := 16

/-- The high nibble of a byte, `b / 16`. -/
def hiNibble (b : UInt8) : Nibble := ⟨b.toNat / 16, by have := UInt8.toNat_lt b; omega⟩

/-- The low nibble of a byte, `b % 16`. -/
def loNibble (b : UInt8) : Nibble := ⟨b.toNat % 16, by omega⟩

/-- A hex element as the byte the source stores it in. -/
def Nibble.toByte (n : Nibble) : UInt8 := n.val.toUInt8

/-- `keybytesToHex`: the two nibbles of every byte, high first, then the
terminator. -/
def keybytesToHex (str : Bytes) : Hex :=
  str.flatMap (fun b => [hiNibble b, loNibble b]) ++ [terminator]

/-- `hasTerm`: whether a hex key ends with the terminator. -/
def hasTerm (s : Hex) : Bool :=
  match s.getLast? with
  | some n => n == terminator
  | none => false

/-- `decodeNibbles`: pack pairs of nibbles into bytes, high nibble first.
The source loop reads `nibbles[ni+1]` without a bound check, so an odd input
would panic; both callers hand it an even number of nibbles. -/
def decodeNibbles : Hex → Bytes
  | a :: b :: rest => ((a.toByte <<< 4) ||| b.toByte) :: decodeNibbles rest
  | _ => []

/-- `hexToKeybytes`: drop the terminator and pack the nibbles; an odd
number of nibbles is a panic of the source (`none`). -/
def hexToKeybytes (hex : Hex) : Option Bytes :=
  let hex := if hasTerm hex then hex.dropLast else hex
  if hex.length % 2 ≠ 0 then none else some (decodeNibbles hex)

/-- `hexToCompact`: the flag byte carries the terminator bit (`0x20`) and the
odd bit (`0x10`) with the first nibble of an odd key, the remaining nibbles
follow in pairs. -/
def hexToCompact (hex : Hex) : Bytes :=
  let term : UInt8 := if hasTerm hex then 1 else 0
  let hex := if hasTerm hex then hex.dropLast else hex
  match hex.length % 2, hex with
  | 1, first :: rest => ((term <<< 5) ||| ((1 : UInt8) <<< 4) ||| first.toByte) :: decodeNibbles rest
  | _, hex => (term <<< 5) :: decodeNibbles hex

/-- `compactToHex`: expand every byte into nibbles, restore the terminator
when the flag nibble is at least `2`, and cut one or two leading nibbles by
the odd bit. The source panics on an empty input (`none`). -/
def compactToHex (compact : Bytes) : Option Hex :=
  match (keybytesToHex compact).dropLast with
  | [] => none
  | flag :: rest =>
      let base := if 2 ≤ flag.val then flag :: rest ++ [terminator] else flag :: rest
      some (base.drop (2 - flag.val % 2))

/-- `prefixLen`: the length of the common prefix of two keys. -/
def prefixLen : Hex → Hex → Nat
  | a :: as, b :: bs => if a = b then prefixLen as bs + 1 else 0
  | _, _ => 0

theorem prefixLen_nil_left (b : Hex) : prefixLen [] b = 0 := rfl

theorem prefixLen_nil_right (a : Hex) : prefixLen a [] = 0 := by
  cases a <;> rfl

theorem prefixLen_cons_cons (a b : Nibble) (as bs : Hex) :
    prefixLen (a :: as) (b :: bs) = if a = b then prefixLen as bs + 1 else 0 := rfl

/-- `concat`: a fresh slice holding `s1` followed by `s2`. -/
def concat (s1 s2 : Hex) : Hex := s1 ++ s2

/-! ## Structure of hex keys -/

/-- A value key below a node: nibbles `0..15` closed by the terminator. -/
def TermKey (key : Hex) : Prop := ∃ ns : Hex, (∀ n ∈ ns, n.val < 16) ∧ key = ns ++ [terminator]

theorem hiNibble_lt (b : UInt8) : (hiNibble b).val < 16 := by
  have := UInt8.toNat_lt b
  simp only [hiNibble]
  omega

theorem loNibble_lt (b : UInt8) : (loNibble b).val < 16 := by
  simp only [loNibble]
  omega

/-- A hex key is the nibble string of its bytes followed by the terminator. -/
theorem keybytesToHex_eq (str : Bytes) : TermKey (keybytesToHex str) := by
  refine ⟨str.flatMap (fun b => [hiNibble b, loNibble b]), ?_, rfl⟩
  intro n hn
  simp only [List.mem_flatMap, List.mem_cons, List.not_mem_nil, or_false] at hn
  obtain ⟨b, _, rfl | rfl⟩ := hn
  · exact hiNibble_lt b
  · exact loNibble_lt b

/-- A byte is determined by its two nibbles. -/
theorem eq_of_nibbles {x y : UInt8} (hh : hiNibble x = hiNibble y) (hl : loNibble x = loNibble y) :
    x = y := by
  have h1 := congrArg Fin.val hh
  have h2 := congrArg Fin.val hl
  simp only [hiNibble, loNibble] at h1 h2
  apply UInt8.toNat_inj.1
  omega

/-- Different byte keys have different hex keys. The induction is on the
first key, byte by byte. -/
theorem keybytesToHex_injective : Function.Injective keybytesToHex := by
  intro a b h
  have hpairs : a.flatMap (fun b => [hiNibble b, loNibble b]) =
      b.flatMap (fun b => [hiNibble b, loNibble b]) := List.append_cancel_right h
  clear h
  induction a generalizing b with
  | nil =>
      cases b with
      | nil => rfl
      | cons y b => simp at hpairs
  | cons x a ih =>
      cases b with
      | nil => simp at hpairs
      | cons y b =>
          simp only [List.flatMap_cons, List.cons_append, List.nil_append, List.cons.injEq] at hpairs
          rw [eq_of_nibbles hpairs.1 hpairs.2.1, ih hpairs.2.2]

theorem TermKey.ne_nil {key : Hex} (h : TermKey key) : key ≠ [] := by
  obtain ⟨ns, _, rfl⟩ := h
  simp

/-- A value key that starts with a nibble continues as a value key, or ends
right after the terminator. -/
theorem TermKey.tail {a : Nibble} {key : Hex} (h : TermKey (a :: key)) :
    (a.val < 16 ∧ TermKey key) ∨ (a = terminator ∧ key = []) := by
  obtain ⟨ns, hns, heq⟩ := h
  cases ns with
  | nil =>
      simp only [List.nil_append, List.cons.injEq] at heq
      exact .inr heq
  | cons b ns =>
      simp only [List.cons_append, List.cons.injEq] at heq
      obtain ⟨rfl, rfl⟩ := heq
      exact .inl ⟨hns a (by simp), ns, fun n hn => hns n (by simp [hn]), rfl⟩

/-- The terminator is the last element of a value key. -/
theorem TermKey.eq_of_terminator {a : Nibble} {key : Hex} (h : TermKey (a :: key))
    (ha : a = terminator) : key = [] := by
  rcases h.tail with ⟨hlt, _⟩ | ⟨_, hkey⟩
  · subst ha
    exact absurd hlt (by decide)
  · exact hkey

/-- No value key is a proper prefix of another. -/
theorem TermKey.eq_of_prefixOf {k₁ k₂ : Hex} (h₁ : TermKey k₁) (h₂ : TermKey k₂)
    (hpre : k₁ <+: k₂) : k₁ = k₂ := by
  induction k₁ generalizing k₂ with
  | nil => exact absurd rfl h₁.ne_nil
  | cons a k₁ ih =>
      obtain ⟨rest, rfl⟩ := hpre
      rcases h₁.tail with ⟨_, h₁'⟩ | ⟨ha, rfl⟩
      · have h₂' : TermKey (k₁ ++ rest) := by
          rcases (show TermKey (a :: (k₁ ++ rest)) from h₂).tail with ⟨_, h⟩ | ⟨_, h⟩
          · exact h
          · exact absurd (List.append_eq_nil_iff.1 h).1 h₁'.ne_nil
        have := ih h₁' h₂' (List.prefix_append k₁ rest)
        simp only [List.cons_append, List.cons.injEq, true_and]
        exact this
      · have := (show TermKey (a :: ([] ++ rest)) from h₂).eq_of_terminator ha
        simp only [List.nil_append] at this
        subst this
        rfl

/-! ## `prefixLen` -/

/-- The keys agree on the first `prefixLen` elements. -/
theorem prefixLen_take (a b : Hex) : a.take (prefixLen a b) = b.take (prefixLen a b) := by
  induction a generalizing b with
  | nil => simp [prefixLen_nil_left]
  | cons x a ih =>
      cases b with
      | nil => simp [prefixLen_nil_right]
      | cons y b =>
          by_cases hxy : x = y
          · subst hxy
            simp [prefixLen_cons_cons, ih]
          · simp [prefixLen_cons_cons, hxy]

theorem prefixLen_le_left (a b : Hex) : prefixLen a b ≤ a.length := by
  induction a generalizing b with
  | nil => simp [prefixLen_nil_left]
  | cons x a ih =>
      cases b with
      | nil => simp [prefixLen_nil_right]
      | cons y b =>
          simp only [prefixLen_cons_cons, List.length_cons]
          split
          · exact Nat.succ_le_succ (ih b)
          · omega

theorem prefixLen_le_right (a b : Hex) : prefixLen a b ≤ b.length := by
  induction a generalizing b with
  | nil => simp [prefixLen_nil_left]
  | cons x a ih =>
      cases b with
      | nil => simp [prefixLen_nil_right]
      | cons y b =>
          simp only [prefixLen_cons_cons, List.length_cons]
          split
          · exact Nat.succ_le_succ (ih b)
          · omega

/-- The shared prefix is maximal: where both keys go on, they differ. -/
theorem prefixLen_spec (a b : Hex) {x y : Nibble} (hx : a[prefixLen a b]? = some x)
    (hy : b[prefixLen a b]? = some y) : x ≠ y := by
  induction a generalizing b with
  | nil => simp at hx
  | cons u a ih =>
      cases b with
      | nil => simp at hy
      | cons v b =>
          by_cases huv : u = v
          · subst huv
            simp only [prefixLen_cons_cons] at hx hy
            exact ih b hx hy
          · simp only [prefixLen_cons_cons, huv, if_false, List.getElem?_cons_zero, Option.some.injEq] at hx hy
            subst hx
            subst hy
            exact huv

/-- A key that is a whole prefix match has `prefixLen` equal to its length. -/
theorem prefixLen_append (k rest : Hex) : prefixLen (k ++ rest) k = k.length := by
  induction k with
  | nil => simp [prefixLen_nil_right]
  | cons x k ih => simp [prefixLen_cons_cons, ih]

/-- Two keys that both go on past their common part: the common part, of
length `prefixLen`, then two different nibbles. -/
theorem prefixLen_split {a b : Hex} (ha : prefixLen a b < a.length) (hb : prefixLen a b < b.length) :
    ∃ p x y ra rb, x ≠ y ∧ a = p ++ x :: ra ∧ b = p ++ y :: rb ∧ p.length = prefixLen a b := by
  refine ⟨a.take (prefixLen a b), a[prefixLen a b], b[prefixLen a b], a.drop (prefixLen a b + 1),
    b.drop (prefixLen a b + 1),
    prefixLen_spec a b (List.getElem?_eq_getElem ha) (List.getElem?_eq_getElem hb), ?_, ?_, ?_⟩
  · rw [← List.drop_eq_getElem_cons ha, List.take_append_drop]
  · rw [prefixLen_take, ← List.drop_eq_getElem_cons hb, List.take_append_drop]
  · simp only [List.length_take]
    omega

/-! ## Compact keys

A short node's key is stored in compact form. `compactToHex` reads back what
`hexToCompact` writes for every key a short node of the trie carries
(`compactToHex_hexToCompact`): nibbles, closed by the terminator in a leaf.
The bytes of packed nibbles and of the flag byte are finite checks. -/

/-- The keys a short node of the trie carries: nibbles, optionally closed
by the terminator. -/
def ShortKey (hex : Hex) : Prop :=
  ∃ ns : Hex, (∀ n ∈ ns, n.val < 16) ∧ (hex = ns ∨ hex = ns ++ [terminator])

/-- Two nibbles packed by `decodeNibbles` are read back by `keybytesToHex`. -/
theorem pack_nibbles : ∀ a b : Nibble, a.val < 16 → b.val < 16 →
    hiNibble ((a.toByte <<< 4) ||| b.toByte) = a ∧ loNibble ((a.toByte <<< 4) ||| b.toByte) = b := by
  decide

/-- The flag byte of a key of odd length: the flag nibble `2 * term + 1`
and the first nibble. -/
theorem flag_odd : ∀ t : Bool, ∀ a : Nibble, a.val < 16 →
    hiNibble (((if t then 1 else 0 : UInt8) <<< 5) ||| ((1 : UInt8) <<< 4) ||| a.toByte) =
        (if t then 3 else 1) ∧
      loNibble (((if t then 1 else 0 : UInt8) <<< 5) ||| ((1 : UInt8) <<< 4) ||| a.toByte) = a := by
  decide

/-- The flag byte of a key of even length: the flag nibble `2 * term` and a
zero nibble. -/
theorem flag_even : ∀ t : Bool,
    hiNibble ((if t then 1 else 0 : UInt8) <<< 5) = (if t then 2 else 0) ∧
      loNibble ((if t then 1 else 0 : UInt8) <<< 5) = 0 := by
  decide

theorem flatMap_decodeNibbles (ns : Hex) (hns : ∀ n ∈ ns, n.val < 16) (heven : ns.length % 2 = 0) :
    (decodeNibbles ns).flatMap (fun b => [hiNibble b, loNibble b]) = ns := by
  induction ns using decodeNibbles.induct with
  | case1 a b rest ih =>
      obtain ⟨ha, hb⟩ := pack_nibbles a b (hns a (by simp)) (hns b (by simp))
      rw [decodeNibbles, List.flatMap_cons, ha, hb,
        ih (fun n hn => hns n (by simp [hn])) (by simp at heven; omega)]
      rfl
  | case2 ns hpair =>
      cases ns with
      | nil => rfl
      | cons a t =>
          cases t with
          | nil => simp at heven
          | cons b rest => exact absurd rfl (hpair a b rest)

theorem hasTerm_append_terminator (ns : Hex) : hasTerm (ns ++ [terminator]) = true := by
  simp [hasTerm]

theorem hasTerm_of_nibbles {ns : Hex} (hns : ∀ n ∈ ns, n.val < 16) : hasTerm ns = false := by
  unfold hasTerm
  cases hl : ns.getLast? with
  | none => rfl
  | some n =>
      have := hns n (List.mem_of_getLast? hl)
      simp only [beq_eq_false_iff_ne]
      rintro rfl
      exact absurd this (by decide)

theorem dropLast_keybytesToHex (c : Bytes) :
    (keybytesToHex c).dropLast = c.flatMap (fun b => [hiNibble b, loNibble b]) := by
  simp [keybytesToHex]

set_option maxRecDepth 4000 in
/-- Packing the two nibbles of a byte gives the byte back (`decodeNibbles`
on `keybytesToHex`), checked for every byte. -/
theorem toByte_nibbles_of_lt : ∀ n < 256,
    ((hiNibble n.toUInt8).toByte <<< 4) ||| (loNibble n.toUInt8).toByte = n.toUInt8 := by
  decide

theorem toByte_nibbles (x : UInt8) : ((hiNibble x).toByte <<< 4) ||| (loNibble x).toByte = x := by
  have h := toByte_nibbles_of_lt x.toNat (UInt8.toNat_lt x)
  simpa using h

theorem decodeNibbles_flatMap (b : Bytes) :
    decodeNibbles (b.flatMap fun x => [hiNibble x, loNibble x]) = b := by
  induction b with
  | nil => rfl
  | cons x xs ih =>
      rw [List.flatMap_cons, List.cons_append, List.cons_append, List.nil_append, decodeNibbles, ih,
        toByte_nibbles]

theorem hasTerm_keybytesToHex (b : Bytes) : hasTerm (keybytesToHex b) = true := by
  obtain ⟨ns, -, hns⟩ := keybytesToHex_eq b
  rw [hns, hasTerm_append_terminator]

theorem hexToKeybytes_keybytesToHex (b : Bytes) : hexToKeybytes (keybytesToHex b) = some b := by
  simp only [hexToKeybytes, keybytesToHex, hasTerm_append_terminator, if_true, List.dropLast_concat]
  rw [if_neg (by simp [List.length_flatMap]), decodeNibbles_flatMap]

/-- What `compactToHex` reads from a flag nibble and the nibbles after it. -/
theorem compactToHex_cons {x : UInt8} {xs : Bytes} (f : Nibble) (rest : Hex)
    (h : (x :: xs).flatMap (fun b => [hiNibble b, loNibble b]) = f :: rest) :
    compactToHex (x :: xs) =
      some ((if 2 ≤ f.val then f :: rest ++ [terminator] else f :: rest).drop (2 - f.val % 2)) := by
  rw [compactToHex, dropLast_keybytesToHex, h]

/-- `compactToHex` reads back what `hexToCompact` writes.

The terminator bit, and the nibbles without the terminator. Even length: a
flag byte `2 * term`, then the pairs. Odd length: the first nibble rides in
the flag byte. -/
theorem compactToHex_hexToCompact {hex : Hex} (h : ShortKey hex) :
    compactToHex (hexToCompact hex) = some hex := by
  obtain ⟨ns, hns, hhex⟩ := h
  obtain ⟨t, hterm, hdrop, hbase⟩ : ∃ t : Bool, hasTerm hex = t ∧
      (if hasTerm hex then hex.dropLast else hex) = ns ∧
      hex = ns ++ (if t then [terminator] else []) := by
    rcases hhex with rfl | rfl
    · exact ⟨false, hasTerm_of_nibbles hns, by simp [hasTerm_of_nibbles hns], by simp⟩
    · exact ⟨true, hasTerm_append_terminator ns, by simp [hasTerm_append_terminator], by simp⟩
  have hflag : (if hasTerm hex then 1 else 0 : UInt8) = if t then 1 else 0 := by rw [hterm]
  unfold hexToCompact
  simp only [hflag, hdrop]
  rcases Nat.mod_two_eq_zero_or_one ns.length with heven | hodd
  · obtain ⟨hhi, hlo⟩ := flag_even t
    rw [heven]
    show compactToHex (((if t then 1 else 0 : UInt8) <<< 5) :: decodeNibbles ns) = some hex
    have hpairs := flatMap_decodeNibbles ns hns heven
    rw [compactToHex_cons (if t then 2 else 0) (0 :: ns) (by
      rw [List.flatMap_cons, hhi, hlo, hpairs]; rfl)]
    cases t <;> simp [hbase]
  · obtain ⟨first, rest, rfl⟩ : ∃ first rest, ns = first :: rest := by
      cases ns with
      | nil => simp at hodd
      | cons a r => exact ⟨a, r, rfl⟩
    obtain ⟨hhi, hlo⟩ := flag_odd t first (hns first (by simp))
    have hpairs := flatMap_decodeNibbles rest (fun n hn => hns n (by simp [hn]))
      (by simp at hodd; omega)
    rw [hodd]
    show compactToHex ((((if t then 1 else 0 : UInt8) <<< 5) ||| ((1 : UInt8) <<< 4) ||| first.toByte) ::
      decodeNibbles rest) = some hex
    rw [compactToHex_cons (if t then 3 else 1) (first :: rest) (by
      rw [List.flatMap_cons, hhi, hlo, hpairs]; rfl)]
    cases t
    · simp [hbase]
    · rw [hbase]
      rfl

/-- The key encodings are inverse to each other: a byte key comes back from
its hex form, and every key a short node carries from its compact form. -/
theorem key_encodings_inverse :
    (∀ k : Bytes, hexToKeybytes (keybytesToHex k) = some k) ∧
      ∀ h : Hex, ShortKey h → compactToHex (hexToCompact h) = some h :=
  ⟨hexToKeybytes_keybytesToHex, fun _ h => compactToHex_hexToCompact h⟩

/-- A leaf key of odd length: the hex key `1 2 3` closed by the terminator. -/
theorem key_encodings_inverse_leaf :
    ShortKey [1, 2, 3, terminator] ∧
      compactToHex (hexToCompact [1, 2, 3, terminator]) = some [1, 2, 3, terminator] :=
  ⟨⟨[1, 2, 3], by decide, .inr rfl⟩, key_encodings_inverse.2 _ ⟨[1, 2, 3], by decide, .inr rfl⟩⟩

end Lemochain.Trie
