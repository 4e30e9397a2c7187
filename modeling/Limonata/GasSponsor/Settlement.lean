import Limonata.GasSponsor.Tx

/-!
# The fee of one transaction

A fee nets to the gas used at the price of the transaction, and one account bears it. A sponsored fee
is taken from the pool at a point where the decision can no longer be changed: a transaction the sender
could have paid for is rejected when the pool cannot.
-/

namespace GasSponsor

open EncMempool (Bytes bytesOf)

/-! ## A sample chain -/

namespace Sample

def alice : Bytes := [1]

def bob : Bytes := [2]

/-- The default settings, with the refill turned off. -/
def params : Params := { defaultParams with refillEnabled := false }

/-- A pool, one account that holds coins, no escrow and no counters. -/
def state (pool held : Nat) : State where
  bank := {
    balance := fun acc => if acc = .gasPool then pool else if acc = .user alice then held else 0
    locked := fun _ => 0
    virtualFees := 0 }
  params := params
  counters := ⟨.empty, .empty, .empty, .empty, .empty⟩
  escrows := { params := ⟨true, none⟩, escrow := .empty, contribution := .empty }
  showcase := fun _ => none
  squeeze := ⟨2000, 2000⟩
  sequence := fun _ => 0
  code := fun _ => .none
  txSponsored := false

def env : Env where
  checkTx := false
  baseFee := some 10
  globalMinGasPrice := 0
  createRestricted := false
  callRestricted := false
  isPrague := true
  maxGasWanted := 0
  blockGasLimit := 30000000
  virtualFeeCollection := true
  minGasMultiplier := 5 * 10 ^ 17
  minGasMultiplier_le := by decide
  validTx := fun _ => true

/-- A plain transfer with more gas than it needs. -/
def transferTx (sender dst : Bytes) (nonce value : Nat) : EthTx where
  sender := sender
  toAddr := some dst
  nonce := nonce
  value := value
  gas := 50000
  fees := .dynamicFee 2 100
  intrinsicGas := some 21000
  floorDataGas := some 21000
  txFeeInfo := none

/-- The execution of a transfer uses the intrinsic gas. -/
def transferOut (sender dst : Bytes) (value : Nat) : Outcome where
  applies := true
  leftoverGas := 29000
  refundCounter := 0
  failed := false
  ops := [.transfer sender dst value]
  hooks := .unset

end Sample

namespace State

variable {s s₁ s₂ : State} {env : Env} {sponsorKeeper : Bool} {time : Nat} {tx : EthTx}
  {out : Outcome} {path : Option Path} {gasUsed : Nat}

/-! ## Netting -/

/-- How the fee of a transaction is settled: `fee` is deducted before the execution, which takes `s₁`
to `e`, and `refund` is paid after it. -/
structure FeeSettled (env : Env) (tx : EthTx) (s s₁ e s₂ : State) (payer : Account)
    (fee refund gasUsed : Nat) : Prop where
  deducted : ∀ x, x ≠ .feeCollector →
    s₁.bank.balance x + (if x = payer then fee else 0) = s.bank.balance x
  refunded : ∀ x, x ≠ .feeCollector →
    s₂.bank.balance x = e.bank.balance x + if x = payer then refund else 0
  fee_eq : fee = gasUsed * env.gasPrice tx + refund
  gasUsed_le : gasUsed ≤ tx.gas
  collected : s₂.bank.collected = s.bank.collected + gasUsed * env.gasPrice tx

theorem anteHandle_bank (h : s.anteHandle env sponsorKeeper time tx = some (path, s₁)) :
    ∃ fee, env.verifyFee tx = some fee
      ∧ (∀ x, x ≠ .feeCollector →
        s₁.bank.balance x + (if x = payer path.isSome tx.sender then fee else 0)
          = s.bank.balance x)
      ∧ s₁.bank.collected = s.bank.collected + fee ∧ s₁.txSponsored = path.isSome := by
  obtain ⟨-, -, fee, hfee, rfl, hconsume⟩ := anteHandle_eq_some.mp h
  obtain ⟨-, -, b, hb, hnonce⟩ := consumeFees_eq_some.mp hconsume
  obtain ⟨-, -, rfl⟩ := incrementNonce_eq_some.mp hnonce
  obtain ⟨hbal, hcol, -⟩ := deductTxCosts_spec hb
  rw [decideSponsor_frame] at hbal hcol ⊢
  exact ⟨fee, hfee, hbal, hcol, rfl⟩

/-- The pool pays exactly when the sponsor keeper says so. -/
theorem anteHandle_path (h : s.anteHandle env sponsorKeeper time tx = some (path, s₁)) :
    ∃ fee, env.verifyFee tx = some fee ∧ (path.isSome = true
      ↔ sponsorKeeper = true ∧ (s.isSponsored time tx.sender tx.toAddr fee).isSome = true) := by
  obtain ⟨-, -, fee, hfee, rfl, -⟩ := anteHandle_eq_some.mp h
  refine ⟨fee, hfee, ?_⟩
  unfold decideSponsor
  cases sponsorKeeper with
  | false => simp
  | true => cases s.isSponsored time tx.sender tx.toAddr fee <;> simp

theorem feeSettled (hante : s.anteHandle env sponsorKeeper time tx = some (path, s₁))
    (happly : s₁.applyTransaction env tx out = some (gasUsed, s₂)) :
    FeeSettled env tx s s₁ (s₁.execAll out.committed) s₂ (payer path.isSome tx.sender)
      (tx.gas * env.gasPrice tx) ((tx.gas - gasUsed) * env.gasPrice tx) gasUsed := by
  obtain ⟨fee, hfee, hded, hcol, hflag⟩ := anteHandle_bank hante
  obtain rfl := (Env.verifyFee_spec hfee).2
  obtain ⟨-, rfl, hrefund⟩ := applyTransaction_eq_some.mp happly
  obtain ⟨b, rfl, hrefd, hcol', -⟩ := refundGas_spec hrefund
  have hgas : env.gasUsed tx out ≤ tx.gas := Env.gasUsed_le
  obtain ⟨hexec, hcolExec⟩ := s₁.execAll_frame out.committed
  -- the flag the ante handler stored is the one the refund reads
  have hflag' : (s₁.execAll out.committed).txSponsored = path.isSome := by rw [hexec, ← hflag]
  have hsplit : tx.gas * env.gasPrice tx = env.gasUsed tx out * env.gasPrice tx
      + (tx.gas - env.gasUsed tx out) * env.gasPrice tx := by
    rw [← Nat.add_mul, Nat.add_sub_cancel' hgas]
  refine ⟨hded, ?_, hsplit, hgas, ?_⟩
  · rw [← hflag']
    exact hrefd
  · show b.collected = _
    omega

/-- **Netting.** Whatever an accepted transaction does, and whether it is reverted or not, its fee is
the gas used at the price of its message. The pool bears it exactly when the transaction is sponsored
and the sender bears it otherwise; the fee collector gains it. -/
theorem fee_nets_to_gasUsed (hante : s.anteHandle env sponsorKeeper time tx = some (path, s₁))
    (happly : s₁.applyTransaction env tx out = some (gasUsed, s₂)) :
    ∃ fee baseFee refund, env.verifyFee tx = some fee ∧ env.baseFee = some baseFee
      ∧ fee = tx.gas * env.gasPrice tx
      ∧ env.gasPrice tx = min (tx.fees.gasTipCap + baseFee) tx.fees.gasFeeCap
      ∧ (∀ gasPrice, tx.fees = .legacy gasPrice ∨ tx.fees = .accessList gasPrice →
        env.gasPrice tx = gasPrice)
      ∧ FeeSettled env tx s s₁ (s₁.execAll out.committed) s₂ (payer path.isSome tx.sender) fee refund
        gasUsed
      ∧ (path.isSome = true ↔ sponsorKeeper = true
        ∧ (s.isSponsored time tx.sender tx.toAddr fee).isSome = true) := by
  obtain ⟨fee, hfee, hpath⟩ := anteHandle_path hante
  obtain ⟨⟨baseFee, hbase, -⟩, rfl⟩ := Env.verifyFee_spec hfee
  refine ⟨_, baseFee, _, hfee, hbase, rfl, Env.gasPrice_eq hbase, ?_, feeSettled hante happly, hpath⟩
  rintro gasPrice (hfees | hfees) <;>
    simp only [Env.gasPrice_eq hbase, hfees, FeeFields.gasTipCap, FeeFields.gasFeeCap] <;> omega

open Sample

/-- A transfer within the daily budget: the pool bears the gas used, here the minimum share of the gas
limit, at the tip on top of the base fee. -/
theorem fee_nets_to_gasUsed_transfer :
    ∃ s₁ s₂, (state (10 ^ 18) (10 ^ 18)).anteHandle Sample.env true 0
          (transferTx alice bob 0 5) = some (some .baseline, s₁)
      ∧ s₁.applyTransaction Sample.env (transferTx alice bob 0 5)
          (transferOut alice bob 5) = some (25000, s₂)
      ∧ s₂.bank.collected = (state (10 ^ 18) (10 ^ 18)).bank.collected + 25000 * 12 := by
  have hrun : (((state (10 ^ 18) (10 ^ 18)).anteHandle Sample.env true 0
      (transferTx alice bob 0 5)).bind fun r =>
        (r.2.applyTransaction Sample.env (transferTx alice bob 0 5)
          (transferOut alice bob 5)).map fun q => (r.1, q.1))
      = some (some .baseline, 25000) := by decide +kernel
  obtain ⟨⟨path, s₁⟩, hante, hrest⟩ := Option.bind_eq_some_iff.mp hrun
  obtain ⟨⟨gasUsed, s₂⟩, happly, heq⟩ := Option.map_eq_some_iff.mp hrest
  cases heq
  obtain ⟨fee, baseFee, refund, -, -, -, -, -, hsettled, -⟩ := fee_nets_to_gasUsed hante happly
  exact ⟨s₁, s₂, hante, happly, hsettled.collected⟩

/-! ## Acceptance -/

theorem anteHandle_isSome : (s.anteHandle env sponsorKeeper time tx).isSome = true
    ↔ (env.validTx tx = true ∧ env.checkGlobalFee tx ∧ env.checkDisabledCreateCall tx = true)
      ∧ env.checkTxFee tx ∧ ∃ fee, env.verifyFee tx = some fee
        ∧ s.verifyAccountBalance tx (s.decideSponsor sponsorKeeper time tx fee).1.isSome
        ∧ s.canTransfer tx
        ∧ (s.deductTxCosts env tx.sender fee
            (s.decideSponsor sponsorKeeper time tx fee).1.isSome).isSome = true
        ∧ tx.nonce = s.sequence tx.sender ∧ s.sequence tx.sender ≠ 2 ^ 64 - 1 := by
  rw [Option.isSome_iff_exists]
  constructor
  · rintro ⟨⟨path, s'⟩, h⟩
    obtain ⟨hchecks, htx, fee, hfee, rfl, hconsume⟩ := anteHandle_eq_some.mp h
    rw [decideSponsor_frame] at hconsume
    obtain ⟨hbal, hcan, b, hb, hnonce⟩ := consumeFees_eq_some.mp hconsume
    obtain ⟨hseq, hmax, -⟩ := incrementNonce_eq_some.mp hnonce
    exact ⟨hchecks, htx, fee, hfee, hbal, hcan, Option.isSome_iff_exists.mpr ⟨b, hb⟩, hseq, hmax⟩
  · rintro ⟨hchecks, htx, fee, hfee, hbal, hcan, hpay, hseq, hmax⟩
    obtain ⟨b, hb⟩ := Option.isSome_iff_exists.mp hpay
    have hconsume : ∃ s', (s.decideSponsor sponsorKeeper time tx fee).2.consumeFees env tx fee
        (s.decideSponsor sponsorKeeper time tx fee).1.isSome = some s' := by
      rw [decideSponsor_frame]
      exact ⟨_, consumeFees_eq_some.mpr
        ⟨hbal, hcan, b, hb, incrementNonce_eq_some.mpr ⟨hseq, hmax, rfl⟩⟩⟩
    obtain ⟨s', hs'⟩ := hconsume
    exact ⟨(_, s'), anteHandle_eq_some.mpr ⟨hchecks, htx, fee, hfee, rfl, hs'⟩⟩

/-- **Sponsorship and acceptance.** A transaction that is accepted when its sender has to pay is
accepted with the sponsor keeper exactly when the pool can pay its fee or no path covers it. -/
theorem anteHandle_sponsored_iff (h : (s.anteHandle env false time tx).isSome = true) :
    (s.anteHandle env true time tx).isSome = true
      ↔ tx.gas * env.gasPrice tx ≤ s.poolBalance
        ∨ ¬ s.Covered time tx.sender tx.toAddr (tx.gas * env.gasPrice tx) := by
  obtain ⟨hchecks, htx, fee, hfee, ⟨hcode, hcost⟩, hcan, hpay, hnonce⟩ := anteHandle_isSome.mp h
  rw [← (Env.verifyFee_spec hfee).2]
  have hnone : (s.decideSponsor false time tx fee).1 = none := rfl
  rw [hnone, Option.isSome_none] at hcost hpay
  obtain ⟨hdec, hnot⟩ | ⟨path, s₁, hdec, -, hspons⟩ := s.decideSponsor_cases true time tx fee
  · -- not covered: the two handlers take the same way
    refine iff_of_true (anteHandle_isSome.mpr ?_) (.inr (hnot rfl))
    refine ⟨hchecks, htx, fee, hfee, ?_⟩
    rw [hdec]
    exact ⟨⟨hcode, hcost⟩, hcan, hpay, hnonce⟩
  · have hcovered : s.Covered time tx.sender tx.toAddr fee := by
      by_contra hnot
      rw [isSponsored_eq_none.mpr hnot] at hspons
      cases hspons
    have hfee0 : fee ≠ 0 := hcovered.2.1
    have hpool : (s.deductTxCosts env tx.sender fee true).isSome = true ↔ fee ≤ s.poolBalance := by
      rw [deductTxCosts, if_neg hfee0, if_pos rfl]
      exact Bank.send_isSome
    rw [or_iff_left (not_not.mpr hcovered), ← hpool, anteHandle_isSome]
    constructor
    · rintro ⟨-, -, fee', hfee', -, -, hpay', -⟩
      obtain rfl := Option.some_inj.mp (hfee.symm.trans hfee')
      rw [hdec] at hpay'
      exact hpay'
    · intro hpay'
      refine ⟨hchecks, htx, fee, hfee, ?_⟩
      rw [hdec]
      -- what the sender owes of a sponsored transaction is part of what it could have paid
      have hvalue : tx.value ≤ tx.cost := Nat.le_add_left _ _
      exact ⟨⟨hcode, hvalue.trans hcost⟩, hcan, hpay', hnonce⟩

/-- A pool that can pay: a transfer within the daily budget is accepted either way. -/
theorem anteHandle_sponsored_iff_funded :
    ((state (10 ^ 18) (10 ^ 18)).anteHandle Sample.env false 0
        (transferTx alice bob 0 5)).isSome = true
      ∧ ((state (10 ^ 18) (10 ^ 18)).anteHandle Sample.env true 0
        (transferTx alice bob 0 5)).isSome = true := by
  have hoff : ((state (10 ^ 18) (10 ^ 18)).anteHandle Sample.env false 0
      (transferTx alice bob 0 5)).isSome = true := by decide +kernel
  exact ⟨hoff, (anteHandle_sponsored_iff hoff).mpr (.inl (by decide +kernel))⟩

/-- An empty pool: the sender holds enough for the transfer and its gas, and its daily budget covers
the fee, so the transfer is rejected. -/
theorem empty_pool_blocks_solvent_sender :
    ((state 0 (10 ^ 18)).anteHandle Sample.env false 0
        (transferTx alice bob 0 5)).isSome = true
      ∧ (state 0 (10 ^ 18)).anteHandle Sample.env true 0
        (transferTx alice bob 0 5) = none := by
  refine ⟨by decide +kernel, Option.isNone_iff_eq_none.mp (by decide +kernel)⟩

end State

/-! ## Floors of the gas used

The floor data gas of a message is a lower bound of its gas limit. It is not charged. -/

namespace Env

variable {env : Env} {tx : EthTx} {out : Outcome} {gasUsed : Nat}

/-- What was consumed, less the refund as it is from London on. -/
def consumedNet (tx : EthTx) (out : Outcome) : Nat :=
  let consumed := tx.gas - out.leftoverGas
  consumed - min out.refundCounter (consumed / 5)

/-- The gas used is within the limit, and the largest of the minimum share of the limit, the floor
data gas and the gas consumed. -/
structure GasFloors (env : Env) (tx : EthTx) (out : Outcome) (floorDataGas gasUsed : Nat) :
    Prop where
  le_limit : gasUsed ≤ tx.gas
  minimum_le : tx.gas * env.minGasMultiplier / 10 ^ 18 ≤ gasUsed
  floor_le : floorDataGas ≤ gasUsed
  eq_max : gasUsed
    = max (max (tx.gas * env.minGasMultiplier / 10 ^ 18) floorDataGas) (consumedNet tx out)

theorem temporaryGasUsed_eq (hlondon : env.baseFee.isSome = true) :
    env.temporaryGasUsed tx out = consumedNet tx out := by
  simp only [temporaryGasUsed, gasToRefund, refundQuotient, if_pos hlondon, consumedNet,
    Nat.min_comm]

theorem gasUsed_eq (hgas : tx.gas < 2 ^ 63) :
    env.gasUsed tx out
      = max (tx.gas * env.minGasMultiplier / 10 ^ 18) (env.temporaryGasUsed tx out) := by
  have hle : env.temporaryGasUsed tx out ≤ tx.gas := temporaryGasUsed_le
  have hint := Machine.int64_cases (Int.natCast_nonneg (env.temporaryGasUsed tx out))
  unfold gasUsed
  simp only
  omega

/-- Under Prague rules the floors hold exactly when another floor covers the floor data gas. -/
theorem gasFloors_iff (hprague : env.isPrague = true) (hlondon : env.baseFee.isSome = true)
    (hgas : tx.gas < 2 ^ 63) (happly : env.applyMessage tx out = some gasUsed) :
    ∃ floorDataGas, tx.floorDataGas = some floorDataGas
      ∧ (GasFloors env tx out floorDataGas gasUsed
        ↔ floorDataGas ≤ max (tx.gas * env.minGasMultiplier / 10 ^ 18) (consumedNet tx out)) := by
  obtain ⟨hcheck, rfl⟩ := State.applyMessage_eq_some.mp happly
  obtain ⟨floorDataGas, hfloor, -⟩ := hcheck.2.2.1 hprague
  have hle : env.gasUsed tx out ≤ tx.gas := gasUsed_le
  have heq : env.gasUsed tx out = _ := gasUsed_eq hgas
  rw [temporaryGasUsed_eq hlondon] at heq
  refine ⟨floorDataGas, hfloor, fun h => heq ▸ h.floor_le, fun h => ?_⟩
  exact ⟨hle, by omega, by omega, by omega⟩

theorem gasFloors_iff_transfer :
    GasFloors Sample.env (Sample.transferTx Sample.alice Sample.bob 0 5)
      (Sample.transferOut Sample.alice Sample.bob 5) 21000 25000 := by
  have happly : Sample.env.applyMessage (Sample.transferTx Sample.alice Sample.bob 0 5)
      (Sample.transferOut Sample.alice Sample.bob 5) = some 25000 := by decide +kernel
  obtain ⟨floorDataGas, hfloor, hiff⟩ := gasFloors_iff rfl rfl (by decide) happly
  cases hfloor
  exact hiff.mpr (by decide)

/-- A call with a thousand non-zero bytes of data that stops at once: its floor data gas is 61000 and
it is charged 37000. -/
theorem floorDataGas_not_charged :
    ∃ tx : EthTx, ∃ out : Outcome, tx.intrinsicGas = some 37000 ∧ tx.floorDataGas = some 61000
      ∧ out.leftoverGas ≤ tx.gas - 37000 ∧ Sample.env.applyMessage tx out = some 37000
      ∧ ¬ GasFloors Sample.env tx out 61000 37000 := by
  refine ⟨{ Sample.transferTx Sample.alice Sample.bob 0 0 with
      gas := 61000, intrinsicGas := some 37000, floorDataGas := some 61000 },
    { Sample.transferOut Sample.alice Sample.bob 0 with leftoverGas := 24000 }, rfl, rfl,
    by decide, by decide +kernel, fun h => absurd h.floor_le (by decide)⟩

end Env

end GasSponsor
