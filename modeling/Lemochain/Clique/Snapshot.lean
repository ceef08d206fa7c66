import Mathlib.Data.Finset.Card
import Mathlib.Data.List.AList
import Lemochain.Common.Types
import Lemochain.Lib.ExchangeSort

/-!
# The voting snapshot of the clique engine (`consensus/clique/snapshot.go`)

A `Snapshot` is the state of the authorization voting after a block: the
set of signers, the recent signers by block number (a signer may seal only
once in a window of blocks), the votes in the order they were cast, and
their tally by the address voted on. `apply` runs it forward over a chain of
headers; each header's signer, recovered from its seal, must be a signer and
not a recent one, and the header votes on its coinbase through its nonce.

The addresses are a type with the linear order of `bytes.Compare`; the
signer of a header is given by `ecrecover`, a function of the header. The
engine's configuration is its epoch, which `New` makes positive; the block
hash, the signature cache and the JSON form of a snapshot are left out.
The maps of the source are finite maps (`AList`) and a `Finset`; `signers`
takes the keys of `Signers` in the order the map's iteration gives them,
which the source leaves unspecified.

The loops of `apply` that delete votes in place are written as recursions
over the list of votes: `discardVote` is the first loop, which stops at the
signer's vote on the coinbase, and `discardVotes` the loop over the votes of
a deauthorized signer. Each block of `apply` is a function of its own, in
the order of the source.
-/

namespace Lemochain.Clique

/-- `Vote`: a signer's vote, cast in a block, on authorizing an address. -/
structure Vote (A : Type) where
  Signer : A
  Block : Nat
  Address : A
  Authorize : Bool
  deriving DecidableEq

/-- `Tally`: the direction of the votes on an address and their number. -/
structure Tally where
  Authorize : Bool
  Votes : Nat
  deriving DecidableEq

/-- `Snapshot`. -/
structure Snapshot (A : Type) [DecidableEq A] where
  Number : Nat
  Signers : Finset A
  Recents : AList (fun _ : Nat => A)
  Votes : List (Vote A)
  Tally : AList (fun _ : A => Tally)

/-- The fields of a header that `apply` reads, and its extra data, which
holds the seal. -/
structure Header (A : Type) where
  Number : Nat
  Coinbase : A
  Nonce : Bytes
  Extra : Bytes

/-- The errors of `apply`, and those of recovering a signer. -/
inductive CliqueError where
  | errInvalidVotingChain
  | errUnauthorized
  | errInvalidVote
  | errMissingSignature
  | errRecover
  deriving DecidableEq, Repr

/-- `params.CliqueConfig`, as `New` makes it: the epoch is positive. -/
structure CliqueConfig where
  Epoch : Nat
  epoch_pos : 0 < Epoch

/-- `nonceAuthVote`. -/
def nonceAuthVote : Bytes := List.replicate 8 0xFF

/-- `nonceDropVote`. -/
def nonceDropVote : Bytes := List.replicate 8 0

variable {A : Type} [LinearOrder A]

/-- `newSnapshot`: a checkpoint, with no recent signers, votes or tally. -/
def newSnapshot (number : Nat) (signers : List A) : Snapshot A :=
  ⟨number, signers.toFinset, ∅, [], ∅⟩

namespace Snapshot

/-- `validVote`: a vote to add a non-signer or to drop a signer. -/
def validVote (s : Snapshot A) (address : A) (authorize : Bool) : Bool :=
  let signer := decide (address ∈ s.Signers)
  (signer && !authorize) || (!signer && authorize)

/-- `cast`: count a valid vote in the tally. -/
def cast (s : Snapshot A) (address : A) (authorize : Bool) : Bool × Snapshot A :=
  if !s.validVote address authorize then (false, s)
  else
    match s.Tally.lookup address with
    | some old => (true, { s with Tally := s.Tally.insert address { old with Votes := old.Votes + 1 } })
    | none => (true, { s with Tally := s.Tally.insert address ⟨authorize, 1⟩ })

/-- `uncast`: take a vote back from the tally, if it was counted. -/
def uncast (s : Snapshot A) (address : A) (authorize : Bool) : Bool × Snapshot A :=
  match s.Tally.lookup address with
  | none => (false, s)
  | some tally =>
      if tally.Authorize ≠ authorize then (false, s)
      else if tally.Votes > 1 then
        (true, { s with Tally := s.Tally.insert address { tally with Votes := tally.Votes - 1 } })
      else (true, { s with Tally := s.Tally.erase address })

/-- "Remove any votes on checkpoint blocks." -/
def resetEpoch (epoch number : Nat) (s : Snapshot A) : Snapshot A :=
  if number % epoch = 0 then { s with Votes := [], Tally := ∅ } else s

/-- "Delete the oldest signer from the recent list to allow it signing
again", the window being half the signers and one. -/
def trimRecents (number : Nat) (s : Snapshot A) : Snapshot A :=
  let limit := s.Signers.card / 2 + 1
  if number ≥ limit then { s with Recents := s.Recents.erase (number - limit) } else s

/-- The first loop over the votes: the signer's vote on `address`, if there
is one, is uncast and removed, and the loop stops. The tally is threaded
through; the votes the loop keeps are returned. -/
def discardVote (signer address : A) : List (Vote A) → Snapshot A → List (Vote A) × Snapshot A
  | [], s => ([], s)
  | v :: vs, s =>
      if v.Signer = signer ∧ v.Address = address then (vs, (s.uncast v.Address v.Authorize).2)
      else (v :: (discardVote signer address vs s).1, (discardVote signer address vs s).2)

theorem discardVote_cons (signer address : A) (v : Vote A) (vs : List (Vote A)) (s : Snapshot A) :
    discardVote signer address (v :: vs) s =
      if v.Signer = signer ∧ v.Address = address then (vs, (s.uncast v.Address v.Authorize).2)
      else (v :: (discardVote signer address vs s).1, (discardVote signer address vs s).2) :=
  rfl

/-- The loop over the votes of the deauthorized signer `c`: each is uncast
and removed. -/
def discardVotes (c : A) : List (Vote A) → Snapshot A → List (Vote A) × Snapshot A
  | [], s => ([], s)
  | v :: vs, s =>
      if v.Signer = c then discardVotes c vs (s.uncast v.Address v.Authorize).2
      else (v :: (discardVotes c vs s).1, (discardVotes c vs s).2)

theorem discardVotes_nil (c : A) (s : Snapshot A) : discardVotes c [] s = ([], s) := rfl

theorem discardVotes_cons (c : A) (v : Vote A) (vs : List (Vote A)) (s : Snapshot A) :
    discardVotes c (v :: vs) s =
      if v.Signer = c then discardVotes c vs (s.uncast v.Address v.Authorize).2
      else (v :: (discardVotes c vs s).1, (discardVotes c vs s).2) :=
  rfl

/-- "Tally up the new vote from the signer": a vote `cast` counts is
appended to the votes. -/
def castVote (signer : A) (number : Nat) (address : A) (authorize : Bool) (s : Snapshot A) : Snapshot A :=
  if (s.cast address authorize).1 then
    { (s.cast address authorize).2 with Votes := s.Votes ++ [⟨signer, number, address, authorize⟩] }
  else (s.cast address authorize).2

/-- "If the vote passed, update the list of signers": more than half the
signers voted. A deauthorized signer leaves the signers, the window of the
recent signers shrinks with them, and its votes are uncast; then the votes
on the address and its tally are dropped. -/
def passVote (number : Nat) (address : A) (s : Snapshot A) : Snapshot A :=
  let tally := (s.Tally.lookup address).getD ⟨false, 0⟩
  if tally.Votes > s.Signers.card / 2 then
    let s :=
      if tally.Authorize then { s with Signers := insert address s.Signers }
      else
        let s := trimRecents number { s with Signers := s.Signers.erase address }
        { (discardVotes address s.Votes s).2 with Votes := (discardVotes address s.Votes s).1 }
    { s with Votes := s.Votes.filter (·.Address ≠ address), Tally := s.Tally.erase address }
  else s

end Snapshot

/-- The vote of a nonce: `nonceAuthVote` or `nonceDropVote`. -/
def nonceVote (nonce : Bytes) : Except CliqueError Bool :=
  if nonce = nonceAuthVote then .ok true
  else if nonce = nonceDropVote then .ok false
  else .error .errInvalidVote

namespace Snapshot

/-- The body of the loop of `apply`, for one header. -/
def applyHeader (ecrecover : Header A → Except CliqueError A) (epoch : Nat) (s : Snapshot A)
    (header : Header A) : Except CliqueError (Snapshot A) :=
  let number := header.Number
  let s := trimRecents number (resetEpoch epoch number s)
  match ecrecover header with
  | .error e => .error e
  | .ok signer =>
      if signer ∉ s.Signers then .error .errUnauthorized
      else if s.Recents.entries.any (·.2 = signer) then .error .errUnauthorized
      else
        let s := { s with Recents := s.Recents.insert number signer }
        let s := { (discardVote signer header.Coinbase s.Votes s).2 with
          Votes := (discardVote signer header.Coinbase s.Votes s).1 }
        match nonceVote header.Nonce with
        | .error e => .error e
        | .ok authorize => .ok (passVote number header.Coinbase (castVote signer number header.Coinbase authorize s))

end Snapshot

/-- Consecutive block numbers. -/
def chained : List (Header A) → Bool
  | h :: h' :: hs => h'.Number == h.Number + 1 && chained (h' :: hs)
  | _ => true

namespace Snapshot

/-- `apply`: the headers must follow the snapshot's block one after the
other. -/
def apply (ecrecover : Header A → Except CliqueError A) (config : CliqueConfig) (s : Snapshot A)
    (headers : List (Header A)) : Except CliqueError (Snapshot A) :=
  match headers with
  | [] => .ok s
  | h₀ :: _ =>
      if chained headers = false then .error .errInvalidVotingChain
      else if h₀.Number ≠ s.Number + 1 then .error .errInvalidVotingChain
      else
        (headers.foldlM (applyHeader ecrecover config.Epoch) s).map fun snap =>
          { snap with Number := snap.Number + headers.length }

end Snapshot

/-- `signers`, for `keys` the signers in the order the iteration of the map
gives: the exchange sort of `bytes.Compare`. -/
def signers (keys : List A) : List A := ExchangeSort.sort keys

/-- `inturn`: the signer's place among the sorted signers is the height
modulo their number. With no signers the division panics (`none`). -/
def inturn (keys : List A) (number : Nat) (signer : A) : Option Bool :=
  if (signers keys).length = 0 then none
  else some (number % (signers keys).length == (signers keys).idxOf signer)

end Lemochain.Clique
