import Lemochain.Core.StateTransition

/-!
# The gas pool across a state transition

`preCheck` rejects a message for its nonce, for a balance below the price
of its gas, or for a pool that holds less than its gas; only its last step,
`buyGas`, touches the pool, and it does so only when it succeeds
(`preCheck_cases`, `preCheck_eq_none_iff`). Once the gas is bought, the
pool is reduced by `msg.Gas` and nothing before `refundGas` gives it back,
so the three errors that `TransitionDb` returns after that point, an
intrinsic gas above `uint64` or above the gas bought and a value transfer
the sender cannot pay, leave the pool reduced (`TransitionDb_pool_of_vm_error`),
as `ApplyMessage_out_of_gas_drains_pool` shows for a message whose gas is
below `TxGas`.

When the message runs, `refundGas` returns the gas left, refund included,
to the pool. With a virtual machine whose runs return at most the gas they
were given (`Evm.Bounded`), the gas left never exceeds the initial gas, the
refund is at most half the gas used, `AddGas` never panics, and the pool
ends reduced by exactly the gas used (`ApplyMessage_pool_of_success`).

## Main results

* `IntrinsicGas_eq`: the intrinsic gas, and its overflow check.
* `preCheck_eq_none_iff`: the messages that `preCheck` accepts.
* `TransitionDb_cases`: the ways `TransitionDb` ends.
* `TransitionDb_pool_of_rejected`, `TransitionDb_pool_of_vm_error`: the
  pool after an error.
* `refundGas_spec`, `ApplyMessage_isSome`, `ApplyMessage_pool_of_success`:
  the pool after a run.
* `ApplyMessage_out_of_gas_drains_pool`: a failed message that keeps its
  gas out of the pool.
-/

namespace Lemochain.Core

open Lemochain.Math Lemochain.Params Lemochain.Vm

/-! ## The sender's account -/

namespace StateDB

variable {α : Type} [DecidableEq α]

@[simp] theorem GetBalance_CreateAccount (s : StateDB α) (a : α) :
    (s.CreateAccount a).GetBalance a = s.GetBalance a := by
  simp only [CreateAccount, setObject, GetBalance, if_pos]

/-- A new account has nonce `0`, as a missing one reads. -/
theorem GetNonce_CreateAccount {s : StateDB α} {a : α} (h : s.Exist a = false) :
    (s.CreateAccount a).GetNonce a = s.GetNonce a := by
  simp only [Exist, Option.isSome_eq_false_iff, Option.isNone_iff_eq_none] at h
  simp only [CreateAccount, setObject, GetNonce, if_pos, h]

end StateDB

/-! ## The intrinsic gas -/

/-- The count of `IntrinsicGas`, a `uint64` that wraps. -/
theorem foldl_nonZero_toNat (data : Bytes) (k : UInt64) :
    (data.foldl (fun nz byt => if byt ≠ 0 then nz + 1 else nz) k).toNat =
      (k.toNat + data.countP (· ≠ 0)) % 2 ^ 64 := by
  induction data generalizing k with
  | nil => rw [List.foldl_nil, List.countP_nil, Nat.add_zero, Nat.mod_eq_of_lt k.toNat_lt]
  | cons b bs ih =>
      rw [List.foldl_cons, ih, List.countP_cons]
      by_cases hb : b ≠ 0
      · rw [if_pos hb, UInt64.toNat_add, UInt64.toNat_one, Nat.mod_add_mod, decide_eq_true hb, if_pos rfl]
        omega
      · rw [if_neg hb, decide_eq_false hb]
        simp

/-- `IntrinsicGas`: the base gas, `68` per non-zero byte and `4` per zero
byte, or `ErrOutOfGas` exactly when that reaches `2 ^ 64`.

The non-zero bytes: their gas fits iff the sum so far stays below `2 ^ 64`.
The zero bytes, on the sum of the base and the non-zero bytes. -/
theorem IntrinsicGas_eq (data : Bytes) (contractCreation homestead : Bool) (hlen : data.length < 2 ^ 64) :
    IntrinsicGas data contractCreation homestead =
      let total := (if contractCreation && homestead then TxGasContractCreation else TxGas).toNat +
        68 * data.countP (· ≠ 0) + 4 * (data.length - data.countP (· ≠ 0))
      if total < 2 ^ 64 then .ok total.toUInt64 else .error .ErrOutOfGas := by
  unfold IntrinsicGas
  have hnz : data.countP (· ≠ 0) ≤ data.length := List.countP_le_length
  have hfold := foldl_nonZero_toNat data 0
  rw [UInt64.toNat_zero, Nat.zero_add, Nat.mod_eq_of_lt (by omega)] at hfold
  have hbase : (if contractCreation && homestead then TxGasContractCreation else TxGas).toNat ≤ 53000 := by
    split <;> decide
  generalize (if contractCreation && homestead then TxGasContractCreation else TxGas) = gas at hbase ⊢
  generalize data.foldl (fun nz byt => if byt ≠ 0 then nz + 1 else nz) (0 : UInt64) = nz' at hfold ⊢
  generalize data.countP (· ≠ 0) = nz at hfold hnz ⊢
  have hroom : (MaxUint64 - gas).toNat = 2 ^ 64 - 1 - gas.toNat :=
    UInt64.toNat_sub_of_le _ _ (UInt64.le_iff_toNat_le.mpr (by rw [MaxUint64_toNat]; omega))
  dsimp only
  split
  · next hpos =>
      by_cases h₁ : (MaxUint64 - gas) / TxDataNonZeroGas < nz'
      · rw [UInt64.lt_iff_toNat_lt, UInt64.toNat_div, hroom, hfold] at h₁
        simp only [TxDataNonZeroGas, UInt64.reduceToNat] at h₁
        rw [if_pos (by simp only [UInt64.lt_iff_toNat_lt, UInt64.toNat_div, hroom, hfold, TxDataNonZeroGas,
          UInt64.reduceToNat]; exact h₁), if_neg (by omega)]
      · have h₁' : gas.toNat + 68 * nz < 2 ^ 64 := by
          rw [UInt64.lt_iff_toNat_lt, UInt64.toNat_div, hroom, hfold] at h₁
          simp only [TxDataNonZeroGas, UInt64.reduceToNat] at h₁
          omega
        rw [if_neg h₁]
        have hgas₁ : (gas + nz' * TxDataNonZeroGas).toNat = gas.toNat + 68 * nz := by
          rw [UInt64.toNat_add, UInt64.toNat_mul, hfold]
          simp only [TxDataNonZeroGas, UInt64.reduceToNat]
          rw [Nat.mod_eq_of_lt (by omega), Nat.mul_comm, Nat.mod_eq_of_lt (by omega)]
        have hlen64 := toNat_toUInt64_length hlen
        have hz : (data.length.toUInt64 - nz').toNat = data.length - nz := by
          rw [UInt64.toNat_sub_of_le _ _ (UInt64.le_iff_toNat_le.mpr (by rw [hlen64, hfold]; exact hnz)), hlen64, hfold]
        have hroom₂ : (MaxUint64 - (gas + nz' * TxDataNonZeroGas)).toNat = 2 ^ 64 - 1 - (gas.toNat + 68 * nz) := by
          rw [UInt64.toNat_sub_of_le _ _ (UInt64.le_iff_toNat_le.mpr (by rw [MaxUint64_toNat, hgas₁]; omega)),
            MaxUint64_toNat, hgas₁]
        by_cases h₂ : (MaxUint64 - (gas + nz' * TxDataNonZeroGas)) / TxDataZeroGas < data.length.toUInt64 - nz'
        · rw [if_pos h₂, if_neg]
          rw [UInt64.lt_iff_toNat_lt, UInt64.toNat_div, hroom₂, hz] at h₂
          simp only [TxDataZeroGas, UInt64.reduceToNat] at h₂
          omega
        · rw [if_neg h₂, if_pos]
          · rw [UInt64.lt_iff_toNat_lt, UInt64.toNat_div, hroom₂, hz] at h₂
            simp only [TxDataZeroGas, UInt64.reduceToNat] at h₂
            have htotal : gas.toNat + 68 * nz + 4 * (data.length - nz) < 2 ^ 64 := by omega
            refine congrArg Except.ok (UInt64.toNat_inj.mp ?_)
            rw [UInt64.toNat_add, UInt64.toNat_mul, hgas₁, hz, Nat.toUInt64_eq, UInt64.toNat_ofNat',
              Nat.mod_eq_of_lt htotal]
            simp only [TxDataZeroGas, UInt64.reduceToNat]
            omega
          · rw [UInt64.lt_iff_toNat_lt, UInt64.toNat_div, hroom₂, hz] at h₂
            simp only [TxDataZeroGas, UInt64.reduceToNat] at h₂
            omega
  · next hzero =>
      have hnil : data.length = 0 := by omega
      rw [if_pos (by omega), hnil, Nat.zero_sub, show nz = 0 by omega]
      simp only [Nat.mul_zero, Nat.add_zero, Nat.toUInt64_eq, UInt64.ofNat_toNat]

/-- A virtual machine whose runs return at most the gas they were given. -/
structure Evm.Bounded {α : Type} (evm : Evm α) : Prop where
  call : ∀ s caller addr input gas value, (evm.Call s caller addr input gas value).leftOverGas ≤ gas
  create : ∀ s caller code gas value, (evm.Create s caller code gas value).leftOverGas ≤ gas

namespace StateTransition

variable {α : Type}

/-! ## Transitions with the same pool -/

/-- Two transitions with the same message, pool and initial gas. -/
structure SamePool (st st' : StateTransition α) : Prop where
  msg : st'.msg = st.msg
  gp : st'.gp = st.gp
  initialGas : st'.initialGas = st.initialGas

/-- `st'` holds the gas of `st`'s message, bought from its pool: the pool is
reduced by it and it is the initial gas. -/
structure Bought (st st' : StateTransition α) : Prop where
  msg : st'.msg = st.msg
  le : st.msg.Gas ≤ st.gp
  gp : st'.gp = st.gp - st.msg.Gas
  initialGas : st'.initialGas = st.msg.Gas

theorem SamePool.refl (st : StateTransition α) : SamePool st st := ⟨rfl, rfl, rfl⟩

theorem SamePool.trans {st₁ st₂ st₃ : StateTransition α} (h₁ : SamePool st₁ st₂) (h₂ : SamePool st₂ st₃) :
    SamePool st₁ st₃ :=
  ⟨h₂.msg.trans h₁.msg, h₂.gp.trans h₁.gp, h₂.initialGas.trans h₁.initialGas⟩

theorem SamePool.trans_bought {st₁ st₂ st₃ : StateTransition α} (h₁ : SamePool st₁ st₂) (h₂ : Bought st₂ st₃) :
    Bought st₁ st₃ := by
  have hm := h₁.msg
  have hg := h₁.gp
  exact ⟨h₂.msg.trans hm, hm ▸ hg ▸ h₂.le, by rw [h₂.gp, hm, hg], by rw [h₂.initialGas, hm]⟩

theorem Bought.trans_samePool {st₁ st₂ st₃ : StateTransition α} (h₁ : Bought st₁ st₂) (h₂ : SamePool st₂ st₃) :
    Bought st₁ st₃ :=
  ⟨h₂.msg.trans h₁.msg, h₁.le, h₂.gp.trans h₁.gp, h₂.initialGas.trans h₁.initialGas⟩

/-- Only the state and the gas change. -/
theorem samePool_with (st : StateTransition α) (s : StateDB α) (g : UInt64) :
    SamePool st { st with state := s, gas := g } :=
  ⟨rfl, rfl, rfl⟩

/-! ## The sender -/

variable [DecidableEq α]

@[simp] theorem from'_snd (st : StateTransition α) : st.from'.2 = st.msg.From := by
  simp only [from']
  split <;> rfl

@[simp] theorem from'_gas (st : StateTransition α) : st.from'.1.gas = st.gas := by
  simp only [from']
  split <;> rfl

theorem from'_samePool (st : StateTransition α) : SamePool st st.from'.1 := by
  simp only [from']
  split
  · exact .refl st
  · exact samePool_with st _ st.gas

/-- Creating the sender keeps its balance and its nonce. -/
theorem from'_sender (st : StateTransition α) :
    st.from'.1.state.GetBalance st.msg.From = st.state.GetBalance st.msg.From ∧
      st.from'.1.state.GetNonce st.msg.From = st.state.GetNonce st.msg.From := by
  simp only [from']
  split
  · exact ⟨rfl, rfl⟩
  · next h => exact ⟨StateDB.GetBalance_CreateAccount _ _, StateDB.GetNonce_CreateAccount (by simpa using h)⟩

/-! ## Buying the gas -/

/-- What `buyGas` does: it fails on the balance or on the pool with the pool
as it was, or it buys the gas. -/
theorem buyGas_spec (st : StateTransition α) :
    (st.state.GetBalance st.msg.From < st.msg.Gas.toNat * st.msg.GasPrice ∧
        st.buyGas.2 = some .errInsufficientBalanceForGas ∧ SamePool st st.buyGas.1) ∨
      (st.msg.Gas.toNat * st.msg.GasPrice ≤ st.state.GetBalance st.msg.From ∧ st.gp < st.msg.Gas ∧
        st.buyGas.2 = some .ErrGasLimitReached ∧ SamePool st st.buyGas.1) ∨
      (st.msg.Gas.toNat * st.msg.GasPrice ≤ st.state.GetBalance st.msg.From ∧ st.msg.Gas ≤ st.gp ∧
        st.buyGas.2 = none ∧ Bought st st.buyGas.1 ∧ st.buyGas.1.gas = st.gas + st.msg.Gas) := by
  have hp := from'_samePool st
  have hb := (from'_sender st).1
  have hg := from'_gas st
  have hs := from'_snd st
  unfold buyGas
  generalize st.from' = p at hp hb hg hs ⊢
  obtain ⟨st₁, sender⟩ := p
  dsimp only at hp hb hg hs ⊢
  subst hs
  rw [← hb, ← hp.gp, ← hg, ← hp.msg]
  by_cases hbal : st₁.state.GetBalance st₁.msg.From < st₁.msg.Gas.toNat * st₁.msg.GasPrice
  · rw [if_pos hbal]
    exact .inl ⟨hbal, rfl, hp⟩
  · rw [if_neg hbal, GasPool.SubGas]
    have hbal' := Nat.le_of_not_lt hbal
    by_cases hgp : st₁.gp < st₁.msg.Gas
    · rw [if_pos hgp]
      exact .inr (.inl ⟨hbal', hgp, rfl, hp⟩)
    · rw [if_neg hgp]
      have hle : st₁.msg.Gas ≤ st₁.gp := UInt64.not_lt.mp hgp
      refine .inr (.inr ⟨hbal', hle, rfl, ?_, rfl⟩)
      exact hp.trans_bought ⟨rfl, hle, rfl, rfl⟩

/-- What `preCheck` does: it rejects a nonce that differs from the sender's,
when the message asks for the check, and is otherwise `buyGas`. -/
theorem preCheck_cases (st : StateTransition α) :
    (st.msg.CheckNonce = true ∧ st.state.GetNonce st.msg.From ≠ st.msg.Nonce ∧
        (st.preCheck.2 = some .ErrNonceTooHigh ∨ st.preCheck.2 = some .ErrNonceTooLow) ∧
        SamePool st st.preCheck.1) ∨
      ((st.msg.CheckNonce = true → st.state.GetNonce st.msg.From = st.msg.Nonce) ∧
        st.preCheck = st.from'.1.buyGas) := by
  have hp := from'_samePool st
  have hn := (from'_sender st).2
  have hs := from'_snd st
  unfold preCheck
  generalize st.from' = p at hp hn hs ⊢
  obtain ⟨st₁, sender⟩ := p
  dsimp only at hp hn hs ⊢
  subst hs
  rw [← hn]
  cases hc : st.msg.CheckNonce with
  | false => exact .inr ⟨nofun, rfl⟩
  | true =>
      rw [if_pos rfl]
      by_cases hhi : st₁.state.GetNonce st.msg.From < st.msg.Nonce
      · rw [if_pos hhi]
        exact .inl ⟨rfl, UInt64.ne_of_lt hhi, .inl rfl, hp⟩
      · by_cases hlo : st₁.state.GetNonce st.msg.From > st.msg.Nonce
        · rw [if_neg hhi, if_pos hlo]
          exact .inl ⟨rfl, (UInt64.ne_of_lt hlo).symm, .inr rfl, hp⟩
        · rw [if_neg hhi, if_neg hlo]
          exact .inr ⟨fun _ => UInt64.le_antisymm (UInt64.not_lt.mp hlo) (UInt64.not_lt.mp hhi), rfl⟩

/-- After `preCheck`: a rejection with the pool as it was, or the gas
bought. -/
theorem preCheck_spec (st : StateTransition α) :
    (∃ e, st.preCheck.2 = some e ∧ (∀ v, e ≠ .vm v) ∧ SamePool st st.preCheck.1) ∨
      (st.preCheck.2 = none ∧ Bought st st.preCheck.1 ∧ st.preCheck.1.gas = st.gas + st.msg.Gas) := by
  rcases preCheck_cases st with ⟨-, -, hnonce | hnonce, hp⟩ | ⟨-, hpre⟩
  · exact .inl ⟨_, hnonce, nofun, hp⟩
  · exact .inl ⟨_, hnonce, nofun, hp⟩
  · have hp := from'_samePool st
    rw [hpre]
    rcases buyGas_spec st.from'.1 with ⟨-, hbuy, hp'⟩ | ⟨-, -, hbuy, hp'⟩ | ⟨-, -, hbuy, hb, hgas⟩
    · exact .inl ⟨_, hbuy, nofun, hp.trans hp'⟩
    · exact .inl ⟨_, hbuy, nofun, hp.trans hp'⟩
    · exact .inr ⟨hbuy, hp.trans_bought hb, by rw [hgas, from'_gas, hp.msg]⟩

/-- The messages that `preCheck` accepts: the right nonce when it is
checked, a balance that pays for the gas, and a pool that holds it. -/
theorem preCheck_eq_none_iff (st : StateTransition α) :
    st.preCheck.2 = none ↔
      (st.msg.CheckNonce = true → st.state.GetNonce st.msg.From = st.msg.Nonce) ∧
        st.msg.Gas.toNat * st.msg.GasPrice ≤ st.state.GetBalance st.msg.From ∧ st.msg.Gas ≤ st.gp := by
  have hp := from'_samePool st
  have hb := (from'_sender st).1
  rcases preCheck_cases st with ⟨hc, hne, hnonce | hnonce, -⟩ | ⟨hnonce, hpre⟩
  · simp only [hnonce, reduceCtorEq, false_iff]
    exact fun h => hne (h.1 hc)
  · simp only [hnonce, reduceCtorEq, false_iff]
    exact fun h => hne (h.1 hc)
  · rw [hpre]
    rcases buyGas_spec st.from'.1 with ⟨hlt, hbuy, -⟩ | ⟨-, hlt, hbuy, -⟩ | ⟨hbal, hle, hbuy, -⟩
    · rw [hp.msg, hb] at hlt
      simp only [hbuy, reduceCtorEq, false_iff]
      exact fun h => Nat.not_le.mpr hlt h.2.1
    · rw [hp.msg, hp.gp] at hlt
      simp only [hbuy, reduceCtorEq, false_iff]
      exact fun h => UInt64.not_le.mpr hlt h.2.2
    · rw [hp.msg, hb] at hbal
      rw [hp.msg, hp.gp] at hle
      simp only [hbuy, true_iff]
      exact ⟨hnonce, hbal, hle⟩

/-- A `preCheck` without error has bought the gas. -/
theorem preCheck_bought {st : StateTransition α} (hnone : st.preCheck.2 = none) : Bought st st.preCheck.1 := by
  rcases preCheck_spec st with ⟨e, hpre, -, -⟩ | ⟨-, hb, -⟩
  · rw [hnone] at hpre
    cases hpre
  · exact hb

/-- An error of `preCheck` is none of the virtual machine's, and keeps the
pool. -/
theorem preCheck_rejected {st : StateTransition α} {e : TxError} (hpre : st.preCheck.2 = some e) :
    (∀ v, e ≠ .vm v) ∧ SamePool st st.preCheck.1 := by
  rcases preCheck_spec st with ⟨e', hpre', hne, hp⟩ | ⟨hnone, -, -⟩
  · rw [hpre] at hpre'
    cases hpre'
    exact ⟨hne, hp⟩
  · rw [hnone] at hpre
    cases hpre

/-! ## The refund -/

/-- `refundGas` of a transition whose gas is at most its initial gas and
whose pool can take the initial gas back: the refund is at most half the
gas used, so the gas stays at most the initial gas, and the pool takes the
gas back without a panic.

The refund, capped at half the gas used. The pool takes the gas back. -/
theorem refundGas_spec {st : StateTransition α} (hle : st.gas ≤ st.initialGas)
    (hfit : st.gp.toNat + st.initialGas.toNat < 2 ^ 64) :
    ∃ st', st.refundGas = some st' ∧ st'.msg = st.msg ∧ st'.initialGas = st.initialGas ∧
      st.gas.toNat ≤ st'.gas.toNat ∧ st'.gas.toNat ≤ st.gas.toNat + st.gasUsed.toNat / 2 ∧
      st'.gas.toNat ≤ st.initialGas.toNat ∧ st'.gp.toNat = st.gp.toNat + st'.gas.toNat := by
  have hused : st.gasUsed.toNat = st.initialGas.toNat - st.gas.toNat := UInt64.toNat_sub_of_le _ _ hle
  have hle' : st.gas.toNat ≤ st.initialGas.toNat := UInt64.le_iff_toNat_le.mp hle
  unfold refundGas
  dsimp only
  generalize hr : (if st.gasUsed / 2 > st.state.GetRefund then st.state.GetRefund else st.gasUsed / 2) = r
  have hhalf : r.toNat ≤ st.gasUsed.toNat / 2 := by
    rw [← hr]
    split
    · next h =>
        rw [gt_iff_lt, UInt64.lt_iff_toNat_lt, UInt64.toNat_div] at h
        exact Nat.le_of_lt h
    · rw [UInt64.toNat_div]
      rfl
  have hgas : (st.gas + r).toNat = st.gas.toNat + r.toNat := by
    rw [UInt64.toNat_add, Nat.mod_eq_of_lt (by have := st.initialGas.toNat_lt; omega)]
  have hp := from'_samePool { st with gas := st.gas + r }
  have hg := from'_gas { st with gas := st.gas + r }
  generalize ({ st with gas := st.gas + r } : StateTransition α).from' = q at hp hg ⊢
  obtain ⟨st₁, sender⟩ := q
  dsimp only at hg ⊢
  have hgp : st₁.gp = st.gp := hp.gp
  have hfits : ¬ st₁.gp > MaxUint64 - st₁.gas := by
    rw [hgp, hg, gt_iff_lt, UInt64.lt_iff_toNat_lt,
      UInt64.toNat_sub_of_le _ _ (UInt64.le_iff_toNat_le.mpr (by rw [hgas]; simp; omega)), hgas, MaxUint64_toNat]
    omega
  rw [GasPool.AddGas, if_neg hfits, Option.map_some]
  refine ⟨_, rfl, hp.msg, hp.initialGas, ?_, ?_, ?_, ?_⟩ <;> dsimp only <;> rw [hg, hgas]
  · omega
  · omega
  · omega
  · rw [UInt64.toNat_add, hgp, hgas, Nat.mod_eq_of_lt (by omega)]

/-! ## Running the message -/

variable [Inhabited α]

@[simp] theorem to'_gas (st : StateTransition α) : st.to'.1.gas = st.gas := by
  simp only [to']
  split
  · rfl
  · split <;> rfl

theorem to'_samePool (st : StateTransition α) : SamePool st st.to'.1 := by
  simp only [to']
  split
  · exact .refl st
  · split
    · exact .refl st
    · exact samePool_with st _ st.gas


/-- The run keeps the message, the pool and the initial gas. -/
theorem runEvm_samePool (evm : Evm α) (st : StateTransition α) (sender : α) (cc : Bool) :
    SamePool st (runEvm evm st sender cc).2.1 := by
  unfold runEvm
  split
  · exact samePool_with st _ _
  · exact (samePool_with st _ st.gas).trans ((to'_samePool _).trans (samePool_with _ _ _))

/-- A bounded machine returns at most the gas of the run.

The call gets the gas of `st`, which `to'` keeps. -/
theorem runEvm_gas_le {evm : Evm α} (hevm : evm.Bounded) (st : StateTransition α) (sender : α) (cc : Bool) :
    (runEvm evm st sender cc).2.1.gas ≤ st.gas := by
  unfold runEvm
  split
  · exact hevm.create _ _ _ _ _
  · refine (hevm.call _ _ _ _ _ _).trans_eq ?_
    simp only [to'_gas]

/-- The ways `TransitionDb` ends: rejected by `preCheck`; with an intrinsic
gas that does not fit in `uint64` or that is above the gas bought; with a
value transfer that failed; or with the refund.

The sender, as `from'` returns it, and its gas. -/
theorem TransitionDb_cases (evm : Evm α) (st : StateTransition α) :
    (∃ e, st.preCheck.2 = some e ∧ st.TransitionDb evm = some (⟨[], 0, false, some e⟩, st.preCheck.1)) ∨
      (st.preCheck.2 = none ∧ ∃ e, IntrinsicGas st.msg.Data st.msg.To.isNone evm.homestead = .error e ∧
        st.TransitionDb evm = some (⟨[], 0, false, some (.vm e)⟩, st.preCheck.1.from'.1)) ∨
      (st.preCheck.2 = none ∧ ∃ ig, IntrinsicGas st.msg.Data st.msg.To.isNone evm.homestead = .ok ig ∧
        st.preCheck.1.gas < ig ∧
        st.TransitionDb evm = some (⟨[], 0, false, some (.vm .ErrOutOfGas)⟩, st.preCheck.1.from'.1)) ∨
      (st.preCheck.2 = none ∧ ∃ ig, IntrinsicGas st.msg.Data st.msg.To.isNone evm.homestead = .ok ig ∧
        ig ≤ st.preCheck.1.gas ∧ ∃ ret st₃ vmerr,
          runEvm evm { st.preCheck.1.from'.1 with gas := st.preCheck.1.gas - ig } st.msg.From st.msg.To.isNone =
            (ret, st₃, vmerr) ∧
          ((vmerr = some .ErrInsufficientBalance ∧
              st.TransitionDb evm = some (⟨[], 0, false, some (.vm .ErrInsufficientBalance)⟩, st₃)) ∨
            (vmerr ≠ some .ErrInsufficientBalance ∧
              st.TransitionDb evm = st₃.refundGas.map fun st₄ =>
                (⟨ret, st₄.gasUsed, vmerr.isSome, none⟩,
                  { st₄ with state := st₄.state.AddBalance evm.Coinbase (st₄.gasUsed.toNat * st.msg.GasPrice) })))) := by
  have hmsg : st.preCheck.1.msg = st.msg := by
    rcases preCheck_spec st with ⟨-, -, -, hp⟩ | ⟨-, hb, -⟩
    · exact hp.msg
    · exact hb.msg
  unfold TransitionDb
  generalize st.preCheck = p at hmsg ⊢
  obtain ⟨st₁, err⟩ := p
  dsimp only at hmsg ⊢
  cases err with
  | some e => exact .inl ⟨e, rfl, rfl⟩
  | none =>
      refine .inr ?_
      have hs := from'_snd st₁
      have hg := from'_gas st₁
      generalize st₁.from' = q at hs hg ⊢
      obtain ⟨st₂, sender⟩ := q
      dsimp only at hs hg ⊢
      subst hs
      rw [hmsg]
      cases hig : IntrinsicGas st.msg.Data st.msg.To.isNone evm.homestead with
      | error e => exact .inl ⟨rfl, e, rfl, rfl⟩
      | ok ig =>
          unfold useGas
          rw [hg]
          dsimp only
          by_cases hlt : st₁.gas < ig
          · rw [if_pos hlt]
            exact .inr (.inl ⟨rfl, ig, rfl, hlt, rfl⟩)
          · rw [if_neg hlt]
            dsimp only
            refine .inr (.inr ⟨rfl, ig, rfl, UInt64.not_lt.mp hlt, ?_⟩)
            generalize runEvm evm { st₂ with gas := st₁.gas - ig } st.msg.From st.msg.To.isNone = r
            obtain ⟨ret, st₃, vmerr⟩ := r
            dsimp only
            refine ⟨ret, st₃, vmerr, rfl, ?_⟩
            by_cases hv : vmerr = some .ErrInsufficientBalance
            · rw [if_pos hv]
              exact .inl ⟨hv, rfl⟩
            · rw [if_neg hv]
              refine .inr ⟨hv, ?_⟩
              cases st₃.refundGas <;> rfl

/-! ## The pool after an error -/

/-- A message that fails before its gas is bought leaves the pool as it
was.

Rejected by `preCheck`, which keeps the pool. Every later error is an error
of the virtual machine. The run returned no error. -/
theorem TransitionDb_pool_of_rejected {evm : Evm α} {st st' : StateTransition α} {res : ExecutionResult}
    (h : st.TransitionDb evm = some (res, st')) {e : TxError} (he : res.err = some e) (hne : ∀ v, e ≠ .vm v) :
    st'.gp = st.gp := by
  rcases TransitionDb_cases evm st with ⟨e', hpre, hdb⟩ | ⟨-, e', -, hdb⟩ | ⟨-, ig, -, -, hdb⟩ |
      ⟨-, ig, -, -, ret, st₃, vmerr, -, ⟨-, hdb⟩ | ⟨-, hdb⟩⟩ <;> rw [hdb] at h
  · obtain ⟨rfl, rfl⟩ := Prod.mk.inj (Option.some.inj h)
    exact (preCheck_rejected hpre).2.gp
  · obtain ⟨rfl, -⟩ := Prod.mk.inj (Option.some.inj h)
    cases he
    exact absurd rfl (hne e')
  · obtain ⟨rfl, -⟩ := Prod.mk.inj (Option.some.inj h)
    cases he
    exact absurd rfl (hne _)
  · obtain ⟨rfl, -⟩ := Prod.mk.inj (Option.some.inj h)
    cases he
    exact absurd rfl (hne _)
  · obtain ⟨st₄, -, hst⟩ := Option.map_eq_some_iff.mp h
    obtain ⟨rfl, -⟩ := Prod.mk.inj hst
    cases he

/-- A message that fails after its gas is bought leaves the pool reduced by
its gas: nothing gives it back before `refundGas`.

`preCheck` returns no error of the virtual machine. The value transfer
failed: the run keeps the pool. -/
theorem TransitionDb_pool_of_vm_error {evm : Evm α} {st st' : StateTransition α} {res : ExecutionResult}
    (h : st.TransitionDb evm = some (res, st')) {v : VmError} (he : res.err = some (.vm v)) :
    st.msg.Gas ≤ st.gp ∧ st'.gp = st.gp - st.msg.Gas := by
  rcases TransitionDb_cases evm st with ⟨e', hpre, hdb⟩ | ⟨hnone, e', -, hdb⟩ | ⟨hnone, ig, -, -, hdb⟩ |
      ⟨hnone, ig, -, -, ret, st₃, vmerr, hr, ⟨-, hdb⟩ | ⟨-, hdb⟩⟩ <;> rw [hdb] at h
  · obtain ⟨rfl, -⟩ := Prod.mk.inj (Option.some.inj h)
    cases he
    exact absurd rfl ((preCheck_rejected hpre).1 v)
  · obtain ⟨-, rfl⟩ := Prod.mk.inj (Option.some.inj h)
    have hb := (preCheck_bought hnone).trans_samePool (from'_samePool _)
    exact ⟨hb.le, hb.gp⟩
  · obtain ⟨-, rfl⟩ := Prod.mk.inj (Option.some.inj h)
    have hb := (preCheck_bought hnone).trans_samePool (from'_samePool _)
    exact ⟨hb.le, hb.gp⟩
  · obtain ⟨-, rfl⟩ := Prod.mk.inj (Option.some.inj h)
    have hb := ((preCheck_bought hnone).trans_samePool (from'_samePool _)).trans_samePool
      ((samePool_with _ _ _).trans (hr ▸ runEvm_samePool evm _ _ _))
    exact ⟨hb.le, hb.gp⟩
  · obtain ⟨st₄, -, hst⟩ := Option.map_eq_some_iff.mp h
    obtain ⟨rfl, -⟩ := Prod.mk.inj hst
    cases he

/-! ## The pool after a run -/

/-- After the run of a message from a transition with no gas of its own,
and with a bounded machine, the refund succeeds: the gas left is at most
the message's gas, and the pool gets it back.

The run keeps the pool bought, and returns at most the gas left after the
intrinsic gas. -/
theorem refundGas_of_run {evm : Evm α} (hevm : evm.Bounded) {st : StateTransition α} (hgas : st.gas = 0)
    (hnone : st.preCheck.2 = none) {ig : UInt64} (hig : ig ≤ st.preCheck.1.gas) {ret : Bytes}
    {st₃ : StateTransition α} {vmerr : Option VmError}
    (hr : runEvm evm { st.preCheck.1.from'.1 with gas := st.preCheck.1.gas - ig } st.msg.From st.msg.To.isNone =
      (ret, st₃, vmerr)) :
    ∃ st₄, st₃.refundGas = some st₄ ∧ st₄.initialGas = st.msg.Gas ∧ st₄.gas.toNat ≤ st.msg.Gas.toNat ∧
      st₄.gp.toNat + (st.msg.Gas.toNat - st₄.gas.toNat) = st.gp.toNat := by
  have hgas₁ : st.preCheck.1.gas = st.msg.Gas := by
    rcases preCheck_spec st with ⟨e, hpre, -, -⟩ | ⟨-, -, hg⟩
    · rw [hnone] at hpre
      cases hpre
    · rw [hg, hgas, UInt64.zero_add]
  have hb₃ : Bought st st₃ := ((preCheck_bought hnone).trans_samePool (from'_samePool _)).trans_samePool
    ((samePool_with _ _ _).trans (hr ▸ runEvm_samePool evm _ _ _))
  have hle₃ := runEvm_gas_le hevm { st.preCheck.1.from'.1 with gas := st.preCheck.1.gas - ig } st.msg.From
    st.msg.To.isNone
  rw [hr] at hle₃
  have hG : st₃.gas.toNat ≤ st.msg.Gas.toNat := by
    have h₁ := UInt64.le_iff_toNat_le.mp hle₃
    dsimp only at h₁
    rw [UInt64.toNat_sub_of_le _ _ hig, hgas₁] at h₁
    omega
  have hpool : st₃.gp.toNat + st.msg.Gas.toNat = st.gp.toNat := by
    have := UInt64.le_iff_toNat_le.mp hb₃.le
    rw [hb₃.gp, UInt64.toNat_sub_of_le _ _ hb₃.le]
    omega
  have hle₃' : st₃.gas ≤ st₃.initialGas := by
    rw [hb₃.initialGas]
    exact UInt64.le_iff_toNat_le.mpr hG
  have hfit₃ : st₃.gp.toNat + st₃.initialGas.toNat < 2 ^ 64 := by
    rw [hb₃.initialGas, hpool]
    exact st.gp.toNat_lt
  obtain ⟨st₄, h₄, -, hinit, -, -, hle₄, hgp₄⟩ := refundGas_spec hle₃' hfit₃
  rw [hb₃.initialGas] at hinit hle₄
  refine ⟨st₄, h₄, hinit, hle₄, ?_⟩
  rw [hgp₄]
  omega

/-- With a bounded machine, `ApplyMessage` never panics.

The refund is the only step that can panic. -/
theorem ApplyMessage_isSome {evm : Evm α} (hevm : evm.Bounded) (state : StateDB α) (msg : Message α)
    (gp : GasPool) : (ApplyMessage evm state msg gp).isSome := by
  unfold ApplyMessage
  rcases TransitionDb_cases evm (NewStateTransition state msg gp) with ⟨e, -, hdb⟩ | ⟨-, e, -, hdb⟩ |
      ⟨-, ig, -, -, hdb⟩ | ⟨hnone, ig, -, hig, ret, st₃, vmerr, hr, ⟨-, hdb⟩ | ⟨-, hdb⟩⟩ <;> rw [hdb]
  · rfl
  · rfl
  · rfl
  · rfl
  · obtain ⟨st₄, h₄, -⟩ := refundGas_of_run hevm rfl hnone hig hr
    rw [h₄]
    rfl

/-- With a bounded machine, a message that runs leaves the pool reduced by
exactly the gas it used.

Every other ending returns an error. The gas used is the message's gas less
the gas returned. -/
theorem ApplyMessage_pool_of_success {evm : Evm α} (hevm : evm.Bounded) {state : StateDB α} {msg : Message α}
    {gp : GasPool} {res : ExecutionResult} {st' : StateTransition α}
    (h : ApplyMessage evm state msg gp = some (res, st')) (hok : res.err = none) :
    st'.gp.toNat + res.usedGas.toNat = gp.toNat := by
  unfold ApplyMessage at h
  rcases TransitionDb_cases evm (NewStateTransition state msg gp) with ⟨e, -, hdb⟩ | ⟨-, e, -, hdb⟩ |
      ⟨-, ig, -, -, hdb⟩ | ⟨hnone, ig, -, hig, ret, st₃, vmerr, hr, ⟨-, hdb⟩ | ⟨-, hdb⟩⟩ <;> rw [hdb] at h
  · obtain ⟨rfl, -⟩ := Prod.mk.inj (Option.some.inj h)
    cases hok
  · obtain ⟨rfl, -⟩ := Prod.mk.inj (Option.some.inj h)
    cases hok
  · obtain ⟨rfl, -⟩ := Prod.mk.inj (Option.some.inj h)
    cases hok
  · obtain ⟨rfl, -⟩ := Prod.mk.inj (Option.some.inj h)
    cases hok
  · obtain ⟨st₄, h₄, hinit, hle, hpool⟩ := refundGas_of_run hevm rfl hnone hig hr
    rw [h₄, Option.map_some] at h
    obtain ⟨rfl, rfl⟩ := Prod.mk.inj (Option.some.inj h)
    have hused : st₄.gasUsed.toNat = msg.Gas.toNat - st₄.gas.toNat := by
      rw [gasUsed, hinit, UInt64.toNat_sub_of_le _ _ (UInt64.le_iff_toNat_le.mpr hle)]
      rfl
    exact hused ▸ hpool

/-- A message whose gas is below `TxGas` buys its gas from the pool, fails
on the intrinsic gas, and leaves the pool without it.

`preCheck` accepts: no nonce check, gas at price zero, and a pool that holds
it. The intrinsic gas is above the gas bought: the error keeps the pool
reduced. -/
theorem ApplyMessage_out_of_gas_drains_pool (evm : Evm α) (state : StateDB α) (sender recipient : α) :
    ∃ st', ApplyMessage evm state ⟨sender, some recipient, 0, 20999, 0, 0, false, []⟩ 100000 =
        some (⟨[], 0, false, some (.vm .ErrOutOfGas)⟩, st') ∧ st'.gp = 79001 := by
  let st := NewStateTransition state ⟨sender, some recipient, 0, 20999, 0, 0, false, []⟩ 100000
  have hnone : st.preCheck.2 = none :=
    (preCheck_eq_none_iff st).mpr ⟨nofun, Nat.zero_le _, show (20999 : UInt64) ≤ 100000 by decide⟩
  have hgas : st.preCheck.1.gas = 20999 := by
    rcases preCheck_spec st with ⟨e, hpre, -, -⟩ | ⟨-, -, hg⟩
    · rw [hnone] at hpre
      cases hpre
    · rw [hg]
      show (0 : UInt64) + 20999 = 20999
      decide
  have hig : IntrinsicGas st.msg.Data st.msg.To.isNone evm.homestead = .ok 21000 := rfl
  rcases TransitionDb_cases evm st with ⟨e, hpre, -⟩ | ⟨-, e, hie, -⟩ | ⟨-, ig, hie, -, hdb⟩ |
      ⟨-, ig, hie, hle, -⟩
  · rw [hnone] at hpre
    cases hpre
  · rw [hig] at hie
    cases hie
  · refine ⟨_, hdb, ?_⟩
    have hb := (preCheck_bought hnone).trans_samePool (from'_samePool _)
    rw [hb.gp]
    show (100000 : UInt64) - 20999 = 79001
    decide
  · rw [hig] at hie
    cases hie
    rw [hgas] at hle
    exact absurd hle (by decide)

end StateTransition

end Lemochain.Core
