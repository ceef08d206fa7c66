import Lemochain.Lib.Keccak
import Lemochain.Vm.Contracts

/-!
# Log blooms (`core/types/bloom9.go`)

A bloom is 256 bytes, read as a 2048-bit number by `Big`. `bloom9` sets
three bits of that number, taken from the Keccak-256 hash of an item, and
`BloomLookup` asks whether all three bits of an item are set. `CreateBloom`
and `LogsBloom` hash the addresses and topics of the logs as they are, 20
and 32 bytes. `Add`, `Test` and `TestBytes` go through `*big.Int`, whose
`Bytes` drops leading zero bytes (`bigIntBytes`), so they hash an item
without its leading zeros.

`BloomLookup` takes a `bytesBacked`, an interface of one method `Bytes`; the
model takes what that method returns: all the bytes of an address or a hash,
the minimal bytes of a `*big.Int`.

The hash is the concrete Keccak-256 of `Lemochain.Keccak`, so a bloom of a
concrete log is computed by `decide +kernel`.

## Main results

* `BloomLookup_CreateBloom`: every address and topic of the logs of the
  receipts is found in their bloom.
* `Add_TestBytes`: after `Add`, `TestBytes` and `Test` find the item.
* `TestBytes_leading_zero`: `TestBytes` of the address `0x00…01` is false in
  the bloom of a log of that address.
-/

namespace Lemochain.Types

open Lemochain.Rlp Lemochain.Vm Lemochain.Keccak

/-- `BloomByteLength`. -/
def BloomByteLength : Nat := 256

/-- `BloomBitLength`. -/
def BloomBitLength : Nat := 8 * BloomByteLength

/-- `Bloom`: exactly `BloomByteLength` bytes. -/
structure Bloom where
  bytes : Bytes
  length_eq : bytes.length = BloomByteLength

/-- `Bloom.SetBytes`: the last bytes of the bloom replaced by `d`; `none` for
the panic on a `d` longer than the bloom. -/
def Bloom.SetBytes (b : Bloom) (d : Bytes) : Option Bloom :=
  if h : BloomByteLength < d.length then none
  else some ⟨b.bytes.take (BloomByteLength - d.length) ++ d, by
    have := b.length_eq
    simp only [List.length_append, List.length_take]
    omega⟩

/-- The zero bloom, `var bloom Bloom`. -/
def Bloom.zero : Bloom := ⟨List.replicate BloomByteLength 0, List.length_replicate⟩

/-- `BytesToBloom`. -/
def BytesToBloom (b : Bytes) : Option Bloom := Bloom.zero.SetBytes b

/-- `Bloom.Big`: the bloom as a big-endian number. -/
def Bloom.Big (b : Bloom) : Nat := beValue b.bytes

/-- `bloom9`: three bits, each from eleven bits of a pair of bytes of the
hash. The hash has 32 bytes (`length_keccak256`), so the defaults of
`getD` are never read. -/
def bloom9 (b : Bytes) : Nat :=
  let b := keccak256 b
  [0, 2, 4].foldl (fun r i => r ||| 1 <<< (((b.getD (i + 1) 0).toNat + (b.getD i 0).toNat <<< 8) &&& 2047)) 0

/-- `BloomLookup`: all the bits of the item are set in the bloom. -/
def BloomLookup (bin : Bloom) (topic : Bytes) : Bool :=
  let bloom := bin.Big
  let cmp := bloom9 topic
  (bloom &&& cmp) == cmp

/-- `Bloom.Add` of a `*big.Int`. -/
def Bloom.Add (b : Bloom) (d : Nat) : Option Bloom :=
  let bin := b.Big ||| bloom9 (bigIntBytes d)
  b.SetBytes (bigIntBytes bin)

/-- `Bloom.Test` of a `*big.Int`. -/
def Bloom.Test (b : Bloom) (test : Nat) : Bool := BloomLookup b (bigIntBytes test)

/-- `Bloom.TestBytes`: `Test` of `new(big.Int).SetBytes(test)`. -/
def Bloom.TestBytes (b : Bloom) (test : Bytes) : Bool := b.Test (beValue test)

/-- `Log`, with the fields the bloom reads. -/
structure Log where
  Address : Address
  Topics : List Hash

/-- `Receipt`, with the field the bloom reads. -/
structure Receipt where
  Logs : List Log

/-- One iteration of the loop of `LogsBloom`: the bits of the address and
of every topic of a log. -/
def logsBloomStep (bin : Nat) (log : Log) : Nat :=
  log.Topics.foldl (fun bin b => bin ||| bloom9 b.bytes) (bin ||| bloom9 log.Address.bytes)

/-- `LogsBloom`. -/
def LogsBloom (logs : List Log) : Nat := logs.foldl logsBloomStep 0

/-- One iteration of the loop of `CreateBloom`. -/
def createBloomStep (bin : Nat) (receipt : Receipt) : Nat := bin ||| LogsBloom receipt.Logs

/-- `CreateBloom`; `none` for the panic of `BytesToBloom`. -/
def CreateBloom (receipts : List Receipt) : Option Bloom :=
  BytesToBloom (bigIntBytes (receipts.foldl createBloomStep 0))

/-! ## Bits and sizes -/

/-- `cmp` has no bit that `bin` lacks. -/
def Covers (bin cmp : Nat) : Prop := bin &&& cmp = cmp

theorem covers_or_self (a c : Nat) : Covers (a ||| c) c := by
  unfold Covers
  apply Nat.eq_of_testBit_eq
  intro i
  rw [Nat.testBit_and, Nat.testBit_or]
  cases c.testBit i <;> simp

theorem Covers.or {a c : Nat} (h : Covers a c) (b : Nat) : Covers (a ||| b) c := by
  unfold Covers at h ⊢
  apply Nat.eq_of_testBit_eq
  intro i
  have hi := congrArg (Nat.testBit · i) h
  simp only [Nat.testBit_and] at hi
  rw [Nat.testBit_and, Nat.testBit_or]
  cases ha : a.testBit i <;> cases hc : c.testBit i <;> simp_all

/-- Each of the three bits is below `2048`. -/
theorem bloom9_lt (b : Bytes) : bloom9 b < 2 ^ BloomBitLength := by
  have hbit : ∀ k : Nat, 1 <<< (k &&& 2047) < 2 ^ BloomBitLength := by
    intro k
    have hk : k &&& 2047 < 2048 := Nat.lt_succ_of_le (Nat.and_le_right)
    rw [Nat.one_shiftLeft]
    exact Nat.pow_lt_pow_right (by decide) hk
  unfold bloom9
  simp only [List.foldl_cons, List.foldl_nil]
  exact Nat.or_lt_two_pow (Nat.or_lt_two_pow (Nat.or_lt_two_pow (Nat.two_pow_pos _) (hbit _)) (hbit _)) (hbit _)

theorem two_pow_BloomBitLength : 2 ^ BloomBitLength = 256 ^ BloomByteLength := by
  rw [BloomBitLength, Nat.pow_mul]

theorem Big_lt (b : Bloom) : b.Big < 2 ^ BloomBitLength := by
  have h := beValue_lt b.bytes
  rw [b.length_eq] at h
  rw [two_pow_BloomBitLength]
  exact h

/-- A number of at most 2048 bits fits the bloom, and the bloom reads it back.

The bytes before the new ones are zero, since the old value is below `x`. -/
theorem SetBytes_bigIntBytes (b : Bloom) {x : Nat} (hx : x < 2 ^ BloomBitLength) (hb : b.Big ≤ x) :
    ∃ b', b.SetBytes (bigIntBytes x) = some b' ∧ b'.Big = x := by
  have hlen : (bigIntBytes x).length ≤ BloomByteLength := length_bigIntBytes_le (by rwa [← BloomBitLength])
  refine ⟨_, dif_neg (by omega), ?_⟩
  have hzero : beValue (b.bytes.take (BloomByteLength - (bigIntBytes x).length)) = 0 := by
    apply beValue_take_eq_zero
    rw [b.length_eq, Nat.sub_sub_self hlen]
    calc beValue b.bytes ≤ x := hb
      _ < 256 ^ (bigIntBytes x).length := by
        have h := beValue_lt (bigIntBytes x)
        rwa [beValue_bigIntBytes] at h
  show beValue (_ ++ _) = x
  rw [beValue_append, hzero, Nat.zero_mul, Nat.zero_add, beValue_bigIntBytes]

/-! ## No false negatives -/

theorem Covers.refl (a : Nat) : Covers a a := Nat.and_self a

theorem Covers.trans {a b c : Nat} (hab : Covers a b) (hbc : Covers b c) : Covers a c := by
  unfold Covers at *
  rw [← hbc, ← Nat.and_assoc, hab]

/-- A loop that only adds bits covers where it started. -/
theorem covers_foldl {α : Type} {step : Nat → α → Nat} (hstep : ∀ acc x, Covers (step acc x) acc) :
    ∀ (l : List α) (acc : Nat), Covers (l.foldl step acc) acc := by
  intro l
  induction l with
  | nil => exact Covers.refl
  | cons x l ih => exact fun acc => (ih (step acc x)).trans (hstep acc x)

/-- A loop that only adds bits covers what any of its iterations adds. -/
theorem covers_foldl_of_mem {α : Type} {step : Nat → α → Nat} (hstep : ∀ acc x, Covers (step acc x) acc)
    {c : Nat} {x : α} (hc : ∀ acc, Covers (step acc x) c) :
    ∀ {l : List α}, x ∈ l → ∀ acc, Covers (l.foldl step acc) c := by
  intro l
  induction l with
  | nil => intro h; cases h
  | cons y l ih =>
      intro hx acc
      rcases List.mem_cons.mp hx with rfl | hx
      · exact (covers_foldl hstep l _).trans (hc acc)
      · exact ih hx _

theorem covers_topics (topics : List Hash) (acc : Nat) :
    Covers (topics.foldl (fun bin b => bin ||| bloom9 b.bytes) acc) acc :=
  covers_foldl (fun acc _ => (Covers.refl acc).or _) topics acc

theorem covers_topics_of_mem {topics : List Hash} {t : Hash} (ht : t ∈ topics) (acc : Nat) :
    Covers (topics.foldl (fun bin b => bin ||| bloom9 b.bytes) acc) (bloom9 t.bytes) :=
  covers_foldl_of_mem (fun acc (x : Hash) => (Covers.refl acc).or (bloom9 x.bytes))
    (fun acc => covers_or_self acc (bloom9 t.bytes)) ht acc

theorem covers_logsBloomStep (bin : Nat) (log : Log) : Covers (logsBloomStep bin log) bin :=
  (covers_topics _ _).trans ((Covers.refl bin).or _)

/-- The step of a log covers its address and its topics. -/
theorem logsBloomStep_covers (bin : Nat) (log : Log) :
    Covers (logsBloomStep bin log) (bloom9 log.Address.bytes) ∧
      ∀ t ∈ log.Topics, Covers (logsBloomStep bin log) (bloom9 t.bytes) :=
  ⟨(covers_topics _ _).trans (covers_or_self _ _), fun _ ht => covers_topics_of_mem ht _⟩

theorem covers_createBloomStep (bin : Nat) (receipt : Receipt) : Covers (createBloomStep bin receipt) bin :=
  (Covers.refl bin).or _

/-- A loop whose iterations stay below `n` ends below `n`. -/
theorem foldl_lt {α : Type} {step : Nat → α → Nat} {n : Nat} (hstep : ∀ acc x, acc < n → step acc x < n) :
    ∀ (l : List α) {acc : Nat}, acc < n → l.foldl step acc < n := by
  intro l
  induction l with
  | nil => exact id
  | cons x l ih => exact fun hacc => ih (hstep _ x hacc)

theorem logsBloomStep_lt {bin : Nat} (h : bin < 2 ^ BloomBitLength) (log : Log) :
    logsBloomStep bin log < 2 ^ BloomBitLength :=
  foldl_lt (fun _ b hacc => Nat.or_lt_two_pow hacc (bloom9_lt b.bytes)) log.Topics
    (Nat.or_lt_two_pow h (bloom9_lt _))

theorem LogsBloom_lt (logs : List Log) : LogsBloom logs < 2 ^ BloomBitLength :=
  foldl_lt (fun _ log hacc => logsBloomStep_lt hacc log) logs (Nat.two_pow_pos _)

theorem BloomLookup_iff (bin : Bloom) (topic : Bytes) : BloomLookup bin topic = true ↔ Covers bin.Big (bloom9 topic) :=
  beq_iff_eq

/-- `CreateBloom` does not panic, and its bloom reads back the or of the
blooms of the receipts. -/
theorem CreateBloom_spec (receipts : List Receipt) :
    ∃ bloom, CreateBloom receipts = some bloom ∧ bloom.Big = receipts.foldl createBloomStep 0 := by
  have hlt : receipts.foldl createBloomStep 0 < 2 ^ BloomBitLength :=
    foldl_lt (fun _ r hacc => Nat.or_lt_two_pow hacc (LogsBloom_lt r.Logs)) receipts (Nat.two_pow_pos _)
  have hzero : Bloom.zero.Big ≤ receipts.foldl createBloomStep 0 := by
    have : Bloom.zero.Big = 0 := by
      show beValue (List.replicate BloomByteLength 0) = 0
      generalize BloomByteLength = n
      induction n with
      | zero => rfl
      | succ n ih => rw [List.replicate_succ, beValue_cons, ih]; simp
    omega
  exact SetBytes_bigIntBytes Bloom.zero hlt hzero

/-- No false negative: every address and topic of the logs of the receipts
is found in their bloom.

What the receipt of a log covers, the bloom of all the receipts covers. -/
theorem BloomLookup_CreateBloom (receipts : List Receipt) :
    ∃ bloom, CreateBloom receipts = some bloom ∧
      ∀ r ∈ receipts, ∀ log ∈ r.Logs, BloomLookup bloom log.Address.bytes = true ∧
        ∀ t ∈ log.Topics, BloomLookup bloom t.bytes = true := by
  obtain ⟨bloom, hbloom, hbig⟩ := CreateBloom_spec receipts
  have hreceipt : ∀ r ∈ receipts, ∀ c, Covers (LogsBloom r.Logs) c → Covers bloom.Big c := by
    intro r hr c hc
    rw [hbig]
    exact covers_foldl_of_mem covers_createBloomStep (fun acc => (covers_or_self acc _).trans hc) hr 0
  refine ⟨bloom, hbloom, fun r hr log hlog => ⟨?_, fun t ht => ?_⟩⟩
  · rw [BloomLookup_iff]
    exact hreceipt r hr _
      (covers_foldl_of_mem covers_logsBloomStep (fun acc => (logsBloomStep_covers acc log).1) hlog 0)
  · rw [BloomLookup_iff]
    exact hreceipt r hr _
      (covers_foldl_of_mem covers_logsBloomStep (fun acc => (logsBloomStep_covers acc log).2 t ht) hlog 0)

/-- After `Add` of a byte string read as a number, `TestBytes` of the string
and `Test` of the number find it. -/
theorem Add_TestBytes (b : Bloom) (d : Bytes) :
    ∃ b', b.Add (beValue d) = some b' ∧ b'.TestBytes d = true ∧ b'.Test (beValue d) = true := by
  have hlt : b.Big ||| bloom9 (bigIntBytes (beValue d)) < 2 ^ BloomBitLength :=
    Nat.or_lt_two_pow (Big_lt b) (bloom9_lt _)
  obtain ⟨b', hb', hbig⟩ := SetBytes_bigIntBytes b hlt Nat.left_le_or
  have htest : b'.Test (beValue d) = true := by
    rw [Bloom.Test, BloomLookup_iff, hbig]
    exact covers_or_self _ _
  exact ⟨b', hb', htest, htest⟩

/-! ## Leading zeros -/

/-- The address `0x00…01` of a log is found by `BloomLookup` in the bloom of
the receipt, and not by `TestBytes`: the bloom holds the bits of the hash of
its twenty bytes, `TestBytes` looks for those of the hash of the byte `0x01`. -/
theorem TestBytes_leading_zero :
    (CreateBloom [⟨[⟨⟨List.replicate 19 0 ++ [1], rfl⟩, []⟩]⟩]).map
      (fun bloom => (BloomLookup bloom (List.replicate 19 0 ++ [1]), bloom.TestBytes (List.replicate 19 0 ++ [1]))) =
      some (true, false) := by
  decide +kernel

end Lemochain.Types
