import Mathlib.Algebra.Group.Nat.Defs

/-!
# LES flow control buffers (`les/flowcontrol/control.go`)

A server gives each client a buffer of `BufLimit` that recharges at
`MinRecharge` per millisecond. The server side `ClientNode` keeps the
buffer value, `bufValue`, and the client side `ServerNode` an estimate of
it, `bufEstimate`. Both recharge by the same formula (`recalcBV`,
`recalcBLE`): the time since the last update in nanoseconds, times
`MinRecharge`, divided by the nanoseconds of a millisecond, added and
capped at `BufLimit`, all in `uint64`.

The model:

* `mclock.AbsTime` is an `int64` of nanoseconds, and the time a method reads
  from `mclock.Now()` is its argument;
* the client manager is not modelled: what its `accept` and `processed`
  return is an argument of `AcceptRequest` and `RequestProcessed`;
* `pending` is a function from request ids to the sum of costs after each;
* the float `canSend` returns is a `Float`, and its division by a zero
  `MinRecharge`, a run-time panic, is `none`.

## The product wraps

The recharge multiplies `MinRecharge` by the interval in `uint64`. Once the
product reaches `2 ^ 64` it wraps; at a multiple of `2 ^ 64` nothing at all
is recharged, where the exact formula fills the buffer (`recalcBV_wrap`).
At the rate of the server's default parameters that takes four days of
silence. A request queued at the full limit with a cost above it wraps the
estimate past the limit (`QueueRequest_wrap`).

## Main results

* `recharge_toNat`: the recharge in natural numbers, with its wraps.
* `recharge_exact`: without a wrap it is the exact formula.
* `bufValue_le_run`: every run of a client node keeps its value in
  `[0, BufLimit]`.
* `recalcBV_wrap`: a wrapped product recharges nothing.
* `QueueRequest_wrap`, `GotReply_le`: a request queued at once can wrap the
  estimate past the limit; a reply brings it back within.
-/

namespace Lemochain.Flowcontrol

/-- `fcTimeConst = time.Millisecond`, in nanoseconds. -/
def fcTimeConst : UInt64 := 1000000

/-- `safetyMargin = time.Millisecond`, in nanoseconds. -/
def safetyMargin : UInt64 := 1000000

/-- `ServerParams`. -/
structure ServerParams where
  BufLimit : UInt64
  MinRecharge : UInt64
  deriving DecidableEq, Repr

/-- `mclock.AbsTime`: nanoseconds, an `int64`. -/
abbrev AbsTime := Int64

/-- The interval `dt` of `recalcBV` and `recalcBLE`, `uint64(time -
lastTime)`, and zero for a time before `lastTime`. -/
def elapsed (lastTime time : AbsTime) : UInt64 := if time < lastTime then 0 else (time - lastTime).toUInt64

/-- The body that `recalcBV` and `recalcBLE` share: `value` recharged for
the time since `lastTime` and capped at `BufLimit`. -/
def recharge (params : ServerParams) (value : UInt64) (lastTime time : AbsTime) : UInt64 :=
  let value := value + params.MinRecharge * elapsed lastTime time / fcTimeConst
  if value > params.BufLimit then params.BufLimit else value

/-! ## The server's record of a client -/

/-- `ClientNode`, without its client manager. -/
structure ClientNode where
  params : ServerParams
  bufValue : UInt64
  lastTime : AbsTime
  deriving DecidableEq, Repr

/-- `NewClientNode`: a full buffer. -/
def NewClientNode (params : ServerParams) (now : AbsTime) : ClientNode := ⟨params, params.BufLimit, now⟩

namespace ClientNode

/-- `recalcBV`. -/
def recalcBV (peer : ClientNode) (time : AbsTime) : ClientNode :=
  { peer with bufValue := recharge peer.params peer.bufValue peer.lastTime time, lastTime := time }

/-- `AcceptRequest` at `time`: the buffer value, and what the client
manager's `accept` answers. -/
def AcceptRequest (peer : ClientNode) (time : AbsTime) (accept : Bool) : ClientNode × UInt64 × Bool :=
  let peer := peer.recalcBV time
  (peer, peer.bufValue, accept)

/-- `RequestProcessed` at `time`, given what the client manager's
`processed` returns: the cost is charged, and the value raised to what the
manager leaves of the limit. -/
def RequestProcessed (peer : ClientNode) (cost : UInt64) (time : AbsTime) (rcValue rcost : UInt64) :
    ClientNode × UInt64 × UInt64 :=
  let peer := peer.recalcBV time
  let peer := { peer with bufValue := peer.bufValue - cost }
  let peer := peer.recalcBV time
  let peer :=
    if rcValue < peer.params.BufLimit then
      let bv := peer.params.BufLimit - rcValue
      if bv > peer.bufValue then { peer with bufValue := bv } else peer
    else peer
  (peer, peer.bufValue, rcost)

end ClientNode

/-- A call on a client node: `AcceptRequest` at a time with the manager's
answer, or `RequestProcessed` of a cost at a time with the manager's. -/
inductive ClientCall where
  | accept (time : AbsTime) (answer : Bool)
  | processed (cost : UInt64) (time : AbsTime) (rcValue rcost : UInt64)

/-- One call on a client node. -/
def ClientNode.step (peer : ClientNode) : ClientCall → ClientNode
  | .accept time answer => (peer.AcceptRequest time answer).1
  | .processed cost time rcValue rcost => (peer.RequestProcessed cost time rcValue rcost).1

/-! ## The client's estimate of a server -/

/-- `ServerNode`. -/
structure ServerNode where
  bufEstimate : UInt64
  lastTime : AbsTime
  params : ServerParams
  sumCost : UInt64
  pending : UInt64 → Option UInt64

/-- `NewServerNode`: a full estimate and nothing pending. -/
def NewServerNode (params : ServerParams) (now : AbsTime) : ServerNode := ⟨params.BufLimit, now, params, 0, fun _ => none⟩

namespace ServerNode

/-- `recalcBLE`. -/
def recalcBLE (peer : ServerNode) (time : AbsTime) : ServerNode :=
  { peer with bufEstimate := recharge peer.params peer.bufEstimate peer.lastTime time, lastTime := time }

/-- `canSend` at `now`: the waiting time and the estimated buffer level
after the request, relative to the limit. -/
def canSend (peer : ServerNode) (maxCost : UInt64) (now : AbsTime) : ServerNode × Option (Int64 × Float) :=
  let peer := peer.recalcBLE now
  let maxCost := maxCost + safetyMargin * peer.params.MinRecharge / fcTimeConst
  let maxCost := if maxCost > peer.params.BufLimit then peer.params.BufLimit else maxCost
  if peer.bufEstimate ≥ maxCost then
    (peer, some (0, (peer.bufEstimate - maxCost).toFloat / peer.params.BufLimit.toFloat))
  else if peer.params.MinRecharge = 0 then (peer, none)
  else (peer, some (((maxCost - peer.bufEstimate) * fcTimeConst / peer.params.MinRecharge).toInt64, 0))

/-- `CanSend`, `canSend` under the read lock. -/
def CanSend (peer : ServerNode) (maxCost : UInt64) (now : AbsTime) : ServerNode × Option (Int64 × Float) :=
  peer.canSend maxCost now

/-- `QueueRequest`: the cost is charged to the estimate and recorded. -/
def QueueRequest (peer : ServerNode) (reqID maxCost : UInt64) : ServerNode :=
  let peer := { peer with bufEstimate := peer.bufEstimate - maxCost, sumCost := peer.sumCost + maxCost }
  { peer with pending := fun id => if id = reqID then some peer.sumCost else peer.pending id }

/-- `GotReply` at `now`: the estimate is the value the reply reports, less
the costs of the requests sent after it. -/
def GotReply (peer : ServerNode) (reqID bv : UInt64) (now : AbsTime) : ServerNode :=
  let bv := if bv > peer.params.BufLimit then peer.params.BufLimit else bv
  match peer.pending reqID with
  | none => peer
  | some sc =>
      let peer := { peer with pending := fun id => if id = reqID then none else peer.pending id }
      let cc := peer.sumCost - sc
      { peer with bufEstimate := if bv > cc then bv - cc else 0, lastTime := now }

end ServerNode

/-! ## The recharge in natural numbers -/

/-- The recharge with its wraps: the product and the sum are taken modulo
`2 ^ 64`. -/
theorem recharge_toNat (params : ServerParams) (value : UInt64) (lastTime time : AbsTime) :
    (recharge params value lastTime time).toNat =
      min params.BufLimit.toNat
        ((value.toNat + params.MinRecharge.toNat * (elapsed lastTime time).toNat % 2 ^ 64 / fcTimeConst.toNat) %
          2 ^ 64) := by
  rw [recharge]
  split
  · rename_i hgt
    rw [gt_iff_lt, UInt64.lt_iff_toNat_lt, UInt64.toNat_add, UInt64.toNat_div, UInt64.toNat_mul] at hgt
    omega
  · rename_i hle
    rw [gt_iff_lt, UInt64.lt_iff_toNat_lt, UInt64.toNat_add, UInt64.toNat_div, UInt64.toNat_mul] at hle
    rw [UInt64.toNat_add, UInt64.toNat_div, UInt64.toNat_mul]
    omega

theorem recharge_le (params : ServerParams) (value : UInt64) (lastTime time : AbsTime) :
    recharge params value lastTime time ≤ params.BufLimit := by
  rw [UInt64.le_iff_toNat_le, recharge_toNat]
  exact Nat.min_le_left _ _

/-- Without a wrap the recharge is the exact formula. -/
theorem recharge_exact (params : ServerParams) (value : UInt64) (lastTime time : AbsTime)
    (hmul : params.MinRecharge.toNat * (elapsed lastTime time).toNat < 2 ^ 64)
    (hadd : value.toNat + params.MinRecharge.toNat * (elapsed lastTime time).toNat / fcTimeConst.toNat < 2 ^ 64) :
    (recharge params value lastTime time).toNat =
      min params.BufLimit.toNat
        (value.toNat + params.MinRecharge.toNat * (elapsed lastTime time).toNat / fcTimeConst.toNat) := by
  rw [recharge_toNat, Nat.mod_eq_of_lt hmul, Nat.mod_eq_of_lt hadd]

/-! ## A client node stays within its limit -/

namespace ClientNode

@[simp] theorem recalcBV_params (peer : ClientNode) (time : AbsTime) : (peer.recalcBV time).params = peer.params := rfl

theorem recalcBV_le (peer : ClientNode) (time : AbsTime) : (peer.recalcBV time).bufValue ≤ peer.params.BufLimit :=
  recharge_le _ _ _ _

/-- A call leaves the parameters and a value within the limit.

After the second recharge the value is capped, and the manager's value is
below the limit. -/
theorem step_le (peer : ClientNode) (call : ClientCall) :
    (peer.step call).params = peer.params ∧ (peer.step call).bufValue ≤ peer.params.BufLimit := by
  cases call with
  | accept time answer => exact ⟨rfl, recalcBV_le peer time⟩
  | processed cost time rcValue rcost =>
      simp only [step, RequestProcessed]
      have hcap := recalcBV_le { peer.recalcBV time with bufValue := (peer.recalcBV time).bufValue - cost } time
      split
      · split
        · refine ⟨rfl, ?_⟩
          rename_i hlt _
          simp only [recalcBV_params] at hlt ⊢
          rw [UInt64.le_iff_toNat_le, UInt64.toNat_sub_of_le _ _ (UInt64.le_of_lt hlt)]
          omega
        · exact ⟨rfl, hcap⟩
      · exact ⟨rfl, hcap⟩

/-- Every run of calls from a value within the limit keeps it there. -/
theorem bufValue_le_run (calls : List ClientCall) :
    ∀ peer : ClientNode, peer.bufValue ≤ peer.params.BufLimit →
      (calls.foldl step peer).params = peer.params ∧ (calls.foldl step peer).bufValue ≤ peer.params.BufLimit := by
  induction calls with
  | nil => exact fun peer h => ⟨rfl, h⟩
  | cons call calls ih =>
      intro peer _
      obtain ⟨hparams, hle⟩ := step_le peer call
      obtain ⟨hparams', hle'⟩ := ih (peer.step call) (hparams ▸ hle)
      exact ⟨hparams'.trans hparams, hparams ▸ hle'⟩

end ClientNode

/-! ## A wrapped product -/

/-- When `MinRecharge` times the interval wraps past `2 ^ 64` to less than
a millisecond's worth, `recalcBV` recharges nothing, where the exact formula
recharges a value below the limit.

The exact recharge is at least one. -/
theorem recalcBV_wrap (peer : ClientNode) (time : AbsTime)
    (hwrap : 2 ^ 64 ≤ peer.params.MinRecharge.toNat * (elapsed peer.lastTime time).toNat)
    (hlost : peer.params.MinRecharge.toNat * (elapsed peer.lastTime time).toNat % 2 ^ 64 < fcTimeConst.toNat)
    (hlow : peer.bufValue < peer.params.BufLimit) :
    (peer.recalcBV time).bufValue = peer.bufValue ∧
      peer.bufValue.toNat < min peer.params.BufLimit.toNat
        (peer.bufValue.toNat + peer.params.MinRecharge.toNat * (elapsed peer.lastTime time).toNat / fcTimeConst.toNat) := by
  have hlow' := UInt64.lt_iff_toNat_lt.mp hlow
  have hv := peer.bufValue.toNat_lt
  have hfc : fcTimeConst.toNat = 1000000 := rfl
  have hexact : 1 ≤ peer.params.MinRecharge.toNat * (elapsed peer.lastTime time).toNat / fcTimeConst.toNat := by
    rw [hfc, Nat.le_div_iff_mul_le (by decide)]
    omega
  refine ⟨UInt64.toNat_inj.mp ?_, by omega⟩
  show (recharge peer.params peer.bufValue peer.lastTime time).toNat = peer.bufValue.toNat
  rw [recharge_toNat, Nat.div_eq_of_lt hlost, Nat.add_zero, Nat.mod_eq_of_lt hv]
  exact Nat.min_eq_right (Nat.le_of_lt hlow')

/-- A client node of the server's default parameters, empty at time zero. -/
def emptyDefaultNode : ClientNode := NewClientNode ⟨300000000, 50000⟩ 0 |>.RequestProcessed 300000000 0 300000000 0 |>.1

theorem recalcBV_wrap_emptyDefaultNode :
    2 ^ 64 ≤ emptyDefaultNode.params.MinRecharge.toNat * (elapsed emptyDefaultNode.lastTime 368934881474192).toNat ∧
      emptyDefaultNode.params.MinRecharge.toNat * (elapsed emptyDefaultNode.lastTime 368934881474192).toNat % 2 ^ 64 <
        fcTimeConst.toNat ∧
      emptyDefaultNode.bufValue < emptyDefaultNode.params.BufLimit ∧
      (emptyDefaultNode.recalcBV 368934881474192).bufValue = emptyDefaultNode.bufValue ∧
      emptyDefaultNode.bufValue.toNat < min emptyDefaultNode.params.BufLimit.toNat
        (emptyDefaultNode.bufValue.toNat + emptyDefaultNode.params.MinRecharge.toNat *
          (elapsed emptyDefaultNode.lastTime 368934881474192).toNat / fcTimeConst.toNat) :=
  ⟨by decide, by decide, by decide, recalcBV_wrap emptyDefaultNode 368934881474192 (by decide) (by decide) (by decide)⟩

/-! ## The estimate of a server -/

namespace ServerNode

/-- A reply sets the estimate within the limit. -/
theorem GotReply_le (peer : ServerNode) (reqID bv : UInt64) (now : AbsTime) (sc : UInt64)
    (hpending : peer.pending reqID = some sc) :
    (peer.GotReply reqID bv now).bufEstimate ≤ peer.params.BufLimit := by
  have hbv : (if bv > peer.params.BufLimit then peer.params.BufLimit else bv) ≤ peer.params.BufLimit := by
    split
    · exact UInt64.le_refl _
    · exact UInt64.not_lt.mp (by assumption)
  simp only [GotReply, hpending]
  generalize (if bv > peer.params.BufLimit then peer.params.BufLimit else bv) = bv' at hbv ⊢
  split
  · rename_i hgt
    rw [UInt64.le_iff_toNat_le, UInt64.toNat_sub_of_le _ _ (UInt64.le_of_lt hgt)]
    have := UInt64.le_iff_toNat_le.mp hbv
    omega
  · exact UInt64.zero_le

/-- At a full estimate `CanSend` lets a request above the limit go at once,
and queueing it wraps the estimate past the limit.

The cost compared is capped at the limit, which the estimate reaches. -/
theorem QueueRequest_wrap (peer : ServerNode) (now : AbsTime) (reqID maxCost : UInt64)
    (hfull : recharge peer.params peer.bufEstimate peer.lastTime now = peer.params.BufLimit)
    (hcost : peer.params.BufLimit < maxCost) :
    (peer.CanSend maxCost now).2.map Prod.fst = some 0 ∧
      peer.params.BufLimit < ((peer.CanSend maxCost now).1.QueueRequest reqID maxCost).bufEstimate := by
  have hcap : ∀ c : UInt64, (if c > peer.params.BufLimit then peer.params.BufLimit else c) ≤ peer.params.BufLimit := by
    intro c
    split
    · exact UInt64.le_refl _
    · exact UInt64.not_lt.mp (by assumption)
  simp only [CanSend, canSend, recalcBLE, hfull]
  rw [if_pos (hcap _)]
  refine ⟨rfl, ?_⟩
  simp only [QueueRequest]
  rw [UInt64.lt_iff_toNat_lt, UInt64.toNat_sub]
  have hlt := UInt64.lt_iff_toNat_lt.mp hcost
  have hmax := maxCost.toNat_lt
  omega

end ServerNode

/-- A server node of the default parameters, fresh at time zero. -/
def freshDefaultServer : ServerNode := NewServerNode ⟨300000000, 50000⟩ 0

example : freshDefaultServer.params.BufLimit <
    ((freshDefaultServer.CanSend 300000001 0).1.QueueRequest 1 300000001).bufEstimate := by decide

end Lemochain.Flowcontrol
