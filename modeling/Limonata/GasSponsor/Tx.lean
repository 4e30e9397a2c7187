import Limonata.GasSponsor.Keeper
import Limonata.Lib.Check
import Limonata.Lib.Machine

/-!
# EVM transactions — ante handler, execution and refund

A transaction pays the fee of its whole gas limit before it runs and gets the fee of the gas it did
not use back afterwards. The ante handler decides once who pays, and the flag it stores routes the
refund.

The interpreter is not modelled: what an execution does, and the gas it leaves, is an `Outcome`.
Coins it moves are moved by operations on the bank and on the escrows; module accounts receive coins
from accounts only through modules, so no operation pays the pool or the fee collector directly.
-/

namespace GasSponsor

open EncMempool (Bytes bytesOf)
open Machine (int64)

/-! ## Transactions and prices -/

/-- The transaction types that are accepted, with their price fields. -/
inductive FeeFields where
  | legacy (gasPrice : Nat)
  | accessList (gasPrice : Nat)
  | dynamicFee (gasTipCap gasFeeCap : Nat)
  | setCode (gasTipCap gasFeeCap : Nat)

namespace FeeFields

def gasTipCap : FeeFields → Nat
  | .legacy gasPrice | .accessList gasPrice => gasPrice
  | .dynamicFee tip _ | .setCode tip _ => tip

def gasFeeCap : FeeFields → Nat
  | .legacy gasPrice | .accessList gasPrice => gasPrice
  | .dynamicFee _ cap | .setCode _ cap => cap

/-- `tx.Type() >= DynamicFeeTxType`. -/
def isDynamic : FeeFields → Bool
  | .legacy _ | .accessList _ => false
  | .dynamicFee _ _ | .setCode _ _ => true

/-- `EffectiveGasTip`. -/
def effectiveGasTip (f : FeeFields) (baseFee : Nat) : Int :=
  min (f.gasTipCap : Int) (f.gasFeeCap - baseFee)

end FeeFields

structure EthTx where
  sender : Bytes
  /-- `none` creates a contract. -/
  toAddr : Option Bytes
  nonce : Nat
  value : Nat
  gas : Nat
  fees : FeeFields
  /-- `IntrinsicGas` of the data and the lists, `none` on overflow. -/
  intrinsicGas : Option Nat
  floorDataGas : Option Nat
  /-- The fee and the gas limit in the envelope, if it has them. -/
  txFeeInfo : Option (Nat × Nat)

namespace EthTx

/-- `GetFee`, at the highest price the sender accepts. -/
def getFee (tx : EthTx) : Nat := tx.gas * tx.fees.gasFeeCap

/-- `Cost`. -/
def cost (tx : EthTx) : Nat := tx.gas * tx.fees.gasFeeCap + tx.value

end EthTx

/-- What a transaction is checked against besides the state. Prices are in units of `10^-18`. -/
structure Env where
  checkTx : Bool
  /-- `none` before London. -/
  baseFee : Option Nat
  globalMinGasPrice : Nat
  createRestricted : Bool
  callRestricted : Bool
  isPrague : Bool
  maxGasWanted : Nat
  blockGasLimit : Nat
  virtualFeeCollection : Bool
  minGasMultiplier : Nat
  minGasMultiplier_le : minGasMultiplier ≤ 10 ^ 18
  /-- The checks of the envelope, of go-ethereum's transaction pool and of the signature. -/
  validTx : EthTx → Bool

namespace Env

variable (env : Env)

/-- `CheckGlobalFee`, with the effective fee for the types that have one. -/
def checkGlobalFee (tx : EthTx) : Prop :=
  let fee : Int := match env.baseFee with
    | some baseFee =>
      if tx.fees.isDynamic then tx.gas * (tx.fees.effectiveGasTip baseFee + baseFee) else tx.getFee
    | none => tx.getFee
  (env.globalMinGasPrice * tx.gas : Int) ≤ fee * 10 ^ 18

instance (tx : EthTx) : Decidable (env.checkGlobalFee tx) := inferInstanceAs (Decidable (_ ≤ _))

/-- `checkDisabledCreateCall`. -/
def checkDisabledCreateCall (tx : EthTx) : Bool :=
  match tx.toAddr with
  | none => !env.createRestricted
  | some _ => !env.callRestricted

/-- The fee of the whole gas limit. Without a base fee the handler panics, which rejects. -/
def verifyFee (tx : EthTx) : Option Nat :=
  match tx.intrinsicGas, env.baseFee with
  | some intrinsicGas, some baseFee =>
    if env.checkTx = true ∧ tx.gas < intrinsicGas then none
    else if tx.fees.gasFeeCap < baseFee then none
    else some (tx.gas * (tx.fees.effectiveGasTip baseFee + baseFee)).toNat
  | _, _ => none

/-- The price in the message of a transaction (`TransactionToMessage`). -/
def gasPrice (tx : EthTx) : Nat :=
  match env.baseFee with
  | some baseFee => min (tx.fees.gasTipCap + baseFee) tx.fees.gasFeeCap
  | none => tx.fees.gasFeeCap

/-- `UpdateCumulativeGasWanted` for the one message of a transaction. -/
def gasWanted (tx : EthTx) : Nat :=
  if env.checkTx = true ∧ env.maxGasWanted ≠ 0 then min tx.gas env.maxGasWanted else tx.gas

/-- `CheckTxFee` and `CheckBlockGasLimit`. -/
def checkTxFee (tx : EthTx) : Prop :=
  (∀ info ∈ tx.txFeeInfo, info = (tx.getFee, tx.gas)) ∧ env.gasWanted tx ≤ env.blockGasLimit

instance (tx : EthTx) : Decidable (env.checkTxFee tx) := inferInstanceAs (Decidable (_ ∧ _))

end Env

/-! ## Ante handler -/

namespace State

variable (s : State)

/-- `VerifyAccountBalance`: the sender is an externally owned account and can pay what it owes. -/
def verifyAccountBalance (tx : EthTx) (sponsored : Bool) : Prop :=
  s.code tx.sender ≠ .contract
    ∧ (if sponsored then tx.value else tx.cost) ≤ s.bank.spendable (.user tx.sender)

/-- `CanTransfer`; the base-fee check in front of it has been made by `verifyFee`. -/
def canTransfer (tx : EthTx) : Prop :=
  0 < tx.value → tx.value ≤ s.bank.spendable (.user tx.sender)

instance (tx : EthTx) (sponsored : Bool) : Decidable (s.verifyAccountBalance tx sponsored) :=
  inferInstanceAs (Decidable (_ ∧ _))

instance (tx : EthTx) : Decidable (s.canTransfer tx) := inferInstanceAs (Decidable (_ → _))

/-- `DeductTxCostsFromUserBalance`: the pool pays a sponsored fee, the sender any other. -/
def deductTxCosts (env : Env) (sender : Bytes) (fee : Nat) (sponsored : Bool) : Option Bank :=
  if fee = 0 then some s.bank
  else if sponsored then s.bank.send .gasPool .feeCollector fee
  else if env.virtualFeeCollection then s.bank.sendVirtual (.user sender) fee
  else s.bank.send (.user sender) .feeCollector fee

/-- `IncrementNonce`. -/
def incrementNonce (tx : EthTx) : Option State :=
  if tx.nonce ≠ s.sequence tx.sender ∨ s.sequence tx.sender = 2 ^ 64 - 1 then none
  else some { s with sequence := Function.update s.sequence tx.sender (s.sequence tx.sender + 1) }

/-- The decision who pays: the path that sponsors the transaction, if any, and the state with its
counters debited and the decision stored. -/
def decideSponsor (sponsorKeeper : Bool) (time : Nat) (tx : EthTx) (fee : Nat) :
    Option Path × State :=
  match if sponsorKeeper then s.isSponsored time tx.sender tx.toAddr fee else none with
  | none => (none, { s with txSponsored := false })
  | some (path, s) => (some path, { s with txSponsored := true })

/-- The balance checks and the payment that follow the decision. -/
def consumeFees (env : Env) (tx : EthTx) (fee : Nat) (sponsored : Bool) : Option State := do
  guard (s.verifyAccountBalance tx sponsored ∧ s.canTransfer tx)
  let b ← s.deductTxCosts env tx.sender fee sponsored
  { s with bank := b }.incrementNonce tx

/-- `MonoDecorator.AnteHandle`, with or without a sponsor keeper: `none` rejects, otherwise the path
that sponsors the transaction, if any, and the state. -/
def anteHandle (env : Env) (sponsorKeeper : Bool) (time : Nat) (tx : EthTx) :
    Option (Option Path × State) := do
  guard (env.validTx tx = true ∧ env.checkGlobalFee tx ∧ env.checkDisabledCreateCall tx = true)
  let fee ← env.verifyFee tx
  let decision := s.decideSponsor sponsorKeeper time tx fee
  let s ← decision.2.consumeFees env tx fee decision.1.isSome
  guard (env.checkTxFee tx)
  return (decision.1, s)

end State

/-! ## Execution -/

/-- What an execution, a hook or a message does to coins and escrows. -/
inductive Op where
  | transfer (src dst : Bytes) (amt : Nat)
  /-- An account pays a module: a delegation, a deposit. -/
  | toModule (src : Bytes) (amt : Nat)
  /-- A module pays an account: a reward, an unbonding. -/
  | fromModule (dst : Bytes) (amt : Nat)
  | lock (addr : Bytes) (amt : Nat)
  | deposit (payer sponsor contract : Bytes) (amt : Nat)
  | withdraw (sponsor contract : Bytes) (amt : Nat)
  | setCode (addr : Bytes) (code : Code)

inductive Hooks where
  | unset
  | fail
  | run (ops : List Op)

structure Outcome where
  /-- `ApplyMessageWithConfig` meets no error of its own; a VM error is not one. -/
  applies : Bool
  leftoverGas : Nat
  refundCounter : Nat
  failed : Bool
  ops : List Op
  hooks : Hooks

namespace State

/-- An operation; `none` when it fails. -/
def exec (s : State) : Op → Option State
  | .transfer src dst amt =>
    (s.bank.send (.user src) (.user dst) amt).map fun b => { s with bank := b }
  | .toModule src amt => (s.bank.send (.user src) .other amt).map fun b => { s with bank := b }
  | .fromModule dst amt => (s.bank.send .other (.user dst) amt).map fun b => { s with bank := b }
  | .lock addr amt => some { s with bank.locked := Function.update s.bank.locked addr amt }
  | .deposit payer sponsor contract amt =>
    (Escrows.depositFrom s.bank s.escrows payer sponsor contract amt).toOption.map
      fun (b, e) => { s with bank := b, escrows := e }
  | .withdraw sponsor contract amt =>
    (Escrows.withdraw s.bank s.escrows sponsor contract amt).toOption.map
      fun (b, e) => { s with bank := b, escrows := e }
  | .setCode addr code => some { s with code := Function.update s.code addr code }

/-- Operations one after the other; one that fails changes nothing. -/
def execAll (s : State) : List Op → State
  | [] => s
  | op :: ops => ((s.exec op).getD s).execAll ops

end State

/-- The operations of an outcome that are committed. -/
def Outcome.committed (out : Outcome) : List Op :=
  let ops := if out.failed then [] else out.ops
  match out.hooks with
  | .unset => ops
  | .fail => []
  | .run hookOps => ops ++ hookOps

namespace Env

variable (env : Env)

/-- `RefundQuotientEIP3529` from London on, `RefundQuotient` before. -/
def refundQuotient : Nat := if env.baseFee.isSome then 5 else 2

/-- `GasToRefund`. -/
def gasToRefund (availableRefund gasConsumed refundQuotient : Nat) : Nat :=
  min (gasConsumed / refundQuotient) availableRefund

/-- What the execution used, less its refund. -/
def temporaryGasUsed (tx : EthTx) (out : Outcome) : Nat :=
  let maxUsedGas := tx.gas - out.leftoverGas
  maxUsedGas - gasToRefund out.refundCounter maxUsedGas env.refundQuotient

/-- The checks of `ApplyMessageWithConfig`. -/
def checkMessage (tx : EthTx) (out : Outcome) : Prop :=
  out.applies = true ∧ (∃ intrinsicGas ∈ tx.intrinsicGas, intrinsicGas ≤ tx.gas)
    ∧ (env.isPrague = true → ∃ floorDataGas ∈ tx.floorDataGas, floorDataGas ≤ tx.gas)
    ∧ out.leftoverGas ≤ tx.gas ∧ tx.gas * env.minGasMultiplier / 10 ^ 18 < 2 ^ 64

instance (tx : EthTx) (out : Outcome) : Decidable (env.checkMessage tx out) :=
  inferInstanceAs (Decidable (_ ∧ _ ∧ _ ∧ _ ∧ _))

/-- The gas used that is reported: not below the minimum share of the gas limit. -/
def gasUsed (tx : EthTx) (out : Outcome) : Nat :=
  let minimumGasUsed : Int := tx.gas * env.minGasMultiplier
  (max (int64 (env.temporaryGasUsed tx out) * 10 ^ 18) minimumGasUsed / 10 ^ 18).toNat

/-- `ApplyMessageWithConfig`. -/
def applyMessage (tx : EthTx) (out : Outcome) : Option Nat :=
  if env.checkMessage tx out then some (env.gasUsed tx out) else none

end Env

namespace State

/-- `RefundGas`: the fee of the gas left goes back to the payer. -/
def refundGas (s : State) (env : Env) (tx : EthTx) (leftoverGas : Nat) : Option State :=
  let remaining := leftoverGas * env.gasPrice tx
  if remaining = 0 then some s
  else
    let b := if s.txSponsored then s.bank.send .feeCollector .gasPool remaining
      else if env.virtualFeeCollection then s.bank.sendFromVirtual (.user tx.sender) remaining
      else s.bank.send .feeCollector (.user tx.sender) remaining
    b.map fun b => { s with bank := b }

/-- `ApplyTransaction`: the gas used and the state. -/
def applyTransaction (s : State) (env : Env) (tx : EthTx) (out : Outcome) :
    Option (Nat × State) := do
  let gasUsed ← env.applyMessage tx out
  let s ← (s.execAll out.committed).refundGas env tx (tx.gas - gasUsed)
  return (gasUsed, s)

end State

/-! ## Prices and gas -/

namespace Env

variable {env : Env} {tx : EthTx} {out : Outcome} {fee : Nat}

theorem gasPrice_eq {baseFee : Nat} (hbase : env.baseFee = some baseFee) :
    env.gasPrice tx = min (tx.fees.gasTipCap + baseFee) tx.fees.gasFeeCap := by
  simp only [gasPrice, hbase]

theorem effectiveGasTip_add {baseFee : Nat} (hbase : env.baseFee = some baseFee) :
    tx.fees.effectiveGasTip baseFee + baseFee = env.gasPrice tx := by
  rw [gasPrice_eq hbase, FeeFields.effectiveGasTip]
  omega

theorem verifyFee_spec (h : env.verifyFee tx = some fee) :
    (∃ baseFee, env.baseFee = some baseFee ∧ baseFee ≤ tx.fees.gasFeeCap)
      ∧ fee = tx.gas * env.gasPrice tx := by
  unfold verifyFee at h
  split at h
  · rename_i intrinsicGas baseFee _ hbase
    split_ifs at h with hgas hcap
    rw [effectiveGasTip_add hbase] at h
    cases h
    exact ⟨⟨baseFee, hbase, Nat.not_lt.mp hcap⟩, by exact_mod_cast rfl⟩
  · cases h

theorem temporaryGasUsed_le : env.temporaryGasUsed tx out ≤ tx.gas :=
  (Nat.sub_le _ _).trans (Nat.sub_le _ _)

theorem gasUsed_le : env.gasUsed tx out ≤ tx.gas := by
  have htemp : env.temporaryGasUsed tx out ≤ tx.gas := temporaryGasUsed_le
  have hint := Machine.int64_cases (Int.natCast_nonneg (env.temporaryGasUsed tx out))
  have hmin : (tx.gas * env.minGasMultiplier : Int) ≤ tx.gas * 10 ^ 18 := by
    exact_mod_cast Nat.mul_le_mul_left _ env.minGasMultiplier_le
  unfold gasUsed
  simp only
  omega

end Env

/-! ## What a transaction does -/

/-- Who pays the fee. -/
def payer (sponsored : Bool) (sender : Bytes) : Account :=
  if sponsored then .gasPool else .user sender

/-- What the fee collector holds, with what it is credited with at the end of the block. -/
def Bank.collected (b : Bank) : Nat := b.balance .feeCollector + b.virtualFees

theorem Bank.collected_send {b b' : Bank} {src dst : Account} {amt : Nat}
    (h : b.send src dst amt = some b') (hsrc : src ≠ .feeCollector) (hdst : dst ≠ .feeCollector) :
    b'.collected = b.collected := by
  obtain ⟨-, hbal, -, hvirtual⟩ := Bank.send_spec h
  have hcol := hbal .feeCollector
  rw [if_neg hsrc.symm, if_neg hdst.symm] at hcol
  unfold collected
  omega

namespace State

variable {s s' : State} {env : Env} {sponsorKeeper : Bool} {time : Nat} {tx : EthTx} {out : Outcome}
  {fee gasUsed leftoverGas : Nat} {path : Option Path} {sponsored : Bool} {b : Bank} {sender : Bytes}

theorem deductTxCosts_spec (h : s.deductTxCosts env sender fee sponsored = some b) :
    (∀ x, x ≠ .feeCollector →
        b.balance x + (if x = payer sponsored sender then fee else 0) = s.bank.balance x)
      ∧ b.collected = s.bank.collected + fee ∧ b.locked = s.bank.locked := by
  unfold deductTxCosts at h
  have hsend : ∀ {src : Account}, src ≠ .feeCollector →
      s.bank.send src .feeCollector fee = some b →
      (∀ x, x ≠ .feeCollector → b.balance x + (if x = src then fee else 0) = s.bank.balance x)
        ∧ b.collected = s.bank.collected + fee ∧ b.locked = s.bank.locked := by
    intro src hsrc hsend
    obtain ⟨-, hbal, hlocked, hvirtual⟩ := Bank.send_spec hsend
    refine ⟨fun x hx => by simpa [hx] using hbal x, ?_, hlocked⟩
    have hcol := hbal .feeCollector
    rw [if_neg hsrc.symm, if_pos rfl] at hcol
    unfold Bank.collected
    omega
  split_ifs at h with hzero hspons hvirt
  · cases h
    simp [hzero]
  · rw [payer, if_pos hspons]
    exact hsend nofun h
  · rw [payer, if_neg hspons]
    obtain ⟨-, hbal, hlocked, hvirtual⟩ := Bank.sendVirtual_spec h
    refine ⟨fun x _ => hbal x, ?_, hlocked⟩
    have hcol := hbal .feeCollector
    rw [if_neg nofun] at hcol
    unfold Bank.collected
    omega
  · rw [payer, if_neg hspons]
    exact hsend nofun h

theorem refundGas_spec (h : s.refundGas env tx leftoverGas = some s') :
    ∃ b, s' = { s with bank := b }
      ∧ (∀ x, x ≠ .feeCollector → b.balance x = s.bank.balance x
          + if x = payer s.txSponsored tx.sender then leftoverGas * env.gasPrice tx else 0)
      ∧ b.collected + leftoverGas * env.gasPrice tx = s.bank.collected
      ∧ b.locked = s.bank.locked := by
  unfold refundGas at h
  simp only at h
  generalize leftoverGas * env.gasPrice tx = remaining at h ⊢
  have hsend : ∀ {dst : Account} {b : Bank}, dst ≠ .feeCollector →
      s.bank.send .feeCollector dst remaining = some b →
      (∀ x, x ≠ .feeCollector → b.balance x = s.bank.balance x + if x = dst then remaining else 0)
        ∧ b.collected + remaining = s.bank.collected ∧ b.locked = s.bank.locked := by
    intro dst b hdst hsend
    obtain ⟨-, hbal, hlocked, hvirtual⟩ := Bank.send_spec hsend
    refine ⟨fun x hx => by simpa [hx] using hbal x, ?_, hlocked⟩
    have hcol := hbal .feeCollector
    rw [if_pos rfl, if_neg hdst.symm] at hcol
    unfold Bank.collected
    omega
  split_ifs at h with hzero hspons hvirt
  · cases h
    exact ⟨s.bank, rfl, by simp [hzero], by omega, rfl⟩
  · obtain ⟨b, hb, rfl⟩ := Option.map_eq_some_iff.mp h
    rw [payer, if_pos hspons]
    exact ⟨b, rfl, hsend nofun hb⟩
  · obtain ⟨b, hb, rfl⟩ := Option.map_eq_some_iff.mp h
    rw [payer, if_neg hspons]
    obtain ⟨-, hbal, hlocked, hvirtual⟩ := Bank.sendFromVirtual_spec hb
    refine ⟨b, rfl, fun x _ => hbal x, ?_, hlocked⟩
    have hcol := hbal .feeCollector
    rw [if_neg nofun] at hcol
    unfold Bank.collected
    omega
  · obtain ⟨b, hb, rfl⟩ := Option.map_eq_some_iff.mp h
    rw [payer, if_neg hspons]
    exact ⟨b, rfl, hsend nofun hb⟩

theorem incrementNonce_eq_some : s.incrementNonce tx = some s'
    ↔ tx.nonce = s.sequence tx.sender ∧ s.sequence tx.sender ≠ 2 ^ 64 - 1
      ∧ s' = { s with
        sequence := Function.update s.sequence tx.sender (s.sequence tx.sender + 1) } := by
  unfold incrementNonce
  split_ifs with h
  · rw [false_iff]
    rintro ⟨hnonce, hmax, -⟩
    exact h.elim (absurd hnonce) hmax
  · rw [not_or, not_not] at h
    exact ⟨fun hs => ⟨h.1, h.2, (Option.some_inj.mp hs).symm⟩, fun hs => congrArg some hs.2.2.symm⟩

theorem consumeFees_eq_some : s.consumeFees env tx fee sponsored = some s'
    ↔ s.verifyAccountBalance tx sponsored ∧ s.canTransfer tx
      ∧ ∃ b, s.deductTxCosts env tx.sender fee sponsored = some b
        ∧ { s with bank := b }.incrementNonce tx = some s' := by
  unfold consumeFees
  simp only [Option.bind_eq_bind, Option.bind_eq_some_iff, Option.guard_eq_some', and_assoc,
    exists_const]

theorem anteHandle_eq_some : s.anteHandle env sponsorKeeper time tx = some (path, s')
    ↔ (env.validTx tx = true ∧ env.checkGlobalFee tx ∧ env.checkDisabledCreateCall tx = true)
      ∧ env.checkTxFee tx ∧ ∃ fee, env.verifyFee tx = some fee
        ∧ (s.decideSponsor sponsorKeeper time tx fee).1 = path
        ∧ (s.decideSponsor sponsorKeeper time tx fee).2.consumeFees env tx fee path.isSome
          = some s' := by
  unfold anteHandle
  simp only [Option.bind_eq_bind, Option.bind_eq_some_iff, Option.guard_eq_some', exists_const,
    Option.pure_def, Option.some_inj, Prod.mk.injEq]
  constructor
  · rintro ⟨hchecks, fee, hfee, s₁, hconsume, htx, rfl, rfl⟩
    exact ⟨hchecks, htx, fee, hfee, rfl, hconsume⟩
  · rintro ⟨hchecks, htx, fee, hfee, rfl, hconsume⟩
    exact ⟨hchecks, fee, hfee, s', hconsume, htx, rfl, rfl⟩

/-- The decision: the sender pays and nothing is charged, or a path covers the fee. -/
theorem decideSponsor_cases (s : State) (sponsorKeeper : Bool) (time : Nat) (tx : EthTx)
    (fee : Nat) :
    (s.decideSponsor sponsorKeeper time tx fee = (none, { s with txSponsored := false })
        ∧ (sponsorKeeper = true → ¬ s.Covered time tx.sender tx.toAddr fee))
      ∨ ∃ path s₁, s.decideSponsor sponsorKeeper time tx fee
            = (some path, { s₁ with txSponsored := true })
          ∧ sponsorKeeper = true ∧ s.isSponsored time tx.sender tx.toAddr fee = some (path, s₁) := by
  unfold decideSponsor
  cases sponsorKeeper with
  | false => exact .inl ⟨rfl, nofun⟩
  | true =>
    rw [if_pos rfl]
    cases h : s.isSponsored time tx.sender tx.toAddr fee with
    | none => exact .inl ⟨rfl, fun _ => isSponsored_eq_none.mp h⟩
    | some r => exact .inr ⟨r.1, r.2, rfl, rfl, rfl⟩

theorem decideSponsor_frame (s : State) (sponsorKeeper : Bool) (time : Nat) (tx : EthTx) (fee : Nat) :
    (s.decideSponsor sponsorKeeper time tx fee).2
      = { s with
        counters := (s.decideSponsor sponsorKeeper time tx fee).2.counters
        escrows := (s.decideSponsor sponsorKeeper time tx fee).2.escrows
        txSponsored := (s.decideSponsor sponsorKeeper time tx fee).1.isSome } := by
  obtain ⟨hdec, -⟩ | ⟨path, s₁, hdec, -, hspons⟩ := s.decideSponsor_cases sponsorKeeper time tx fee
  · rw [hdec]
    rfl
  · rw [hdec, (charge_of_isSponsored hspons).2.2.frame]
    rfl

/-- What an accepted transaction has debited: nothing if its sender pays, and otherwise the counters
or the escrow of one path, and the pool. -/
theorem anteHandle_cases (h : s.anteHandle env true time tx = some (path, s')) :
    s'.params = s.params
      ∧ ((path = none ∧ s'.counters = s.counters ∧ s'.escrows = s.escrows
          ∧ s'.poolBalance = s.poolBalance)
        ∨ ∃ p s₁, path = some p
          ∧ s.isSponsored time tx.sender tx.toAddr (tx.gas * env.gasPrice tx) = some (p, s₁)
          ∧ s'.counters = s₁.counters ∧ s'.escrows = s₁.escrows
          ∧ s'.poolBalance + tx.gas * env.gasPrice tx = s.poolBalance) := by
  obtain ⟨-, -, fee, hfee, rfl, hconsume⟩ := anteHandle_eq_some.mp h
  obtain rfl := (Env.verifyFee_spec hfee).2
  obtain ⟨-, -, b, hb, hnonce⟩ := consumeFees_eq_some.mp hconsume
  obtain ⟨-, -, rfl⟩ := incrementNonce_eq_some.mp hnonce
  have hpool := (deductTxCosts_spec hb).1 .gasPool nofun
  rw [decideSponsor_frame] at hpool
  refine ⟨by rw [decideSponsor_frame], ?_⟩
  obtain ⟨hdec, -⟩ | ⟨p, s₁, hdec, -, hspons⟩ :=
    s.decideSponsor_cases true time tx (tx.gas * env.gasPrice tx)
  · rw [hdec] at hpool ⊢
    simp only [payer, Option.isSome_none, Bool.false_eq_true, if_false, reduceCtorEq,
      Nat.add_zero] at hpool
    exact .inl ⟨rfl, rfl, rfl, hpool⟩
  · rw [hdec] at hpool ⊢
    simp only [payer, Option.isSome_some, if_true] at hpool
    exact .inr ⟨p, s₁, rfl, hspons, rfl, rfl, hpool⟩

theorem applyMessage_eq_some :
    env.applyMessage tx out = some gasUsed ↔ env.checkMessage tx out ∧ env.gasUsed tx out = gasUsed := by
  rw [Env.applyMessage, Option.ite_none_right_eq_some, Option.some_inj]

theorem applyTransaction_eq_some : s.applyTransaction env tx out = some (gasUsed, s')
    ↔ env.checkMessage tx out ∧ env.gasUsed tx out = gasUsed
      ∧ (s.execAll out.committed).refundGas env tx (tx.gas - gasUsed) = some s' := by
  unfold applyTransaction
  rw [← and_assoc, ← applyMessage_eq_some]
  generalize env.applyMessage tx out = message
  simp only [Option.bind_eq_bind, Option.bind_eq_some_iff, Option.pure_def, Option.some_inj,
    Prod.mk.injEq]
  constructor
  · rintro ⟨_, hmessage, _, hrefund, rfl, rfl⟩
    exact ⟨hmessage, hrefund⟩
  · rintro ⟨hmessage, hrefund⟩
    exact ⟨gasUsed, hmessage, s', hrefund, rfl, rfl⟩

theorem exec_frame {op : Op} (h : s.exec op = some s') :
    s' = { s with bank := s'.bank, escrows := s'.escrows, code := s'.code }
      ∧ s'.bank.collected = s.bank.collected := by
  cases op with
  | transfer src dst amt | toModule src amt | fromModule dst amt =>
    obtain ⟨b, hb, rfl⟩ := Option.map_eq_some_iff.mp h
    exact ⟨rfl, Bank.collected_send hb nofun nofun⟩
  | lock addr amt =>
    cases h
    exact ⟨rfl, rfl⟩
  | deposit payer sponsor contract amt =>
    obtain ⟨⟨b, e⟩, hdep, rfl⟩ := Option.map_eq_some_iff.mp h
    obtain ⟨-, hb, -⟩ := Escrows.depositFrom_eq_ok.mp (Check.toOption_eq_some.mp hdep)
    exact ⟨rfl, Bank.collected_send hb nofun nofun⟩
  | withdraw sponsor contract amt =>
    obtain ⟨⟨b, e⟩, hwd, rfl⟩ := Option.map_eq_some_iff.mp h
    obtain ⟨-, -, -, hb, -⟩ := Escrows.withdraw_eq_ok.mp (Check.toOption_eq_some.mp hwd)
    exact ⟨rfl, Bank.collected_send hb nofun nofun⟩
  | setCode addr code =>
    cases h
    exact ⟨rfl, rfl⟩

theorem execAll_frame (s : State) (ops : List Op) :
    s.execAll ops = { s with
        bank := (s.execAll ops).bank, escrows := (s.execAll ops).escrows,
        code := (s.execAll ops).code }
      ∧ (s.execAll ops).bank.collected = s.bank.collected := by
  induction ops generalizing s with
  | nil => exact ⟨rfl, rfl⟩
  | cons op ops ih =>
    rw [execAll]
    cases hexec : s.exec op with
    | none => exact ih s
    | some s₁ =>
      obtain ⟨hs₁, hcol⟩ := exec_frame hexec
      obtain ⟨hrest, hcol'⟩ := ih s₁
      rw [Option.getD_some]
      refine ⟨?_, hcol'.trans hcol⟩
      rw [hs₁] at hrest ⊢
      exact hrest

end State

end GasSponsor
