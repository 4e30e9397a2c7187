import Limonata.GasSponsor.Escrow

/-!
# The gas an escrow pays

The escrow of a contract is debited by the fee of the whole gas limit and is not credited with the
refund. It pays for the gas that was used exactly when the gas used is the gas limit: when the minimum
share of the limit is all of it, or the execution leaves nothing and refunds nothing.
-/

namespace GasSponsor

open EncMempool (Bytes bytesOf)
open Machine (int64)

/-! ## Gas used and gas limit -/

namespace Env

variable {env : Env} {tx : EthTx} {out : Outcome}

/-- **The whole limit is charged.** The minimum share is the whole limit, or the execution leaves no gas
and has no refund that would count, and the limit is a positive signed word. -/
def ChargesWholeLimit (env : Env) (tx : EthTx) (out : Outcome) : Prop :=
  env.minGasMultiplier = 10 ^ 18
    ∨ (out.leftoverGas = 0 ∧ (out.refundCounter = 0 ∨ tx.gas < env.refundQuotient)
      ∧ tx.gas < 2 ^ 63)

instance : Decidable (env.ChargesWholeLimit tx out) := inferInstanceAs (Decidable (_ ∨ _ ∧ _ ∧ _))

theorem temporaryGasUsed_eq_gas (hgas : 0 < tx.gas) (hle : out.leftoverGas ≤ tx.gas) :
    env.temporaryGasUsed tx out = tx.gas
      ↔ out.leftoverGas = 0 ∧ (out.refundCounter = 0 ∨ tx.gas < env.refundQuotient) := by
  have hq : 0 < env.refundQuotient := by
    unfold refundQuotient
    split_ifs <;> decide
  have hsub : env.temporaryGasUsed tx out = tx.gas ↔ out.leftoverGas = 0
      ∧ gasToRefund out.refundCounter (tx.gas - out.leftoverGas) env.refundQuotient = 0 := by
    have hrefund : gasToRefund out.refundCounter (tx.gas - out.leftoverGas) env.refundQuotient
        ≤ tx.gas - out.leftoverGas := (min_le_left _ _).trans (Nat.div_le_self _ _)
    unfold temporaryGasUsed
    simp only
    omega
  rw [hsub]
  refine and_congr_right fun hleft => ?_
  rw [hleft, Nat.sub_zero, gasToRefund, Nat.min_eq_zero_iff, Nat.div_eq_zero_iff_lt hq]
  exact or_comm

theorem minimumGasUsed_eq_gas (hgas : 0 < tx.gas) :
    tx.gas * env.minGasMultiplier / 10 ^ 18 = tx.gas ↔ env.minGasMultiplier = 10 ^ 18 := by
  constructor
  · intro h
    have hmul : tx.gas * 10 ^ 18 ≤ tx.gas * env.minGasMultiplier := by
      have := Nat.div_mul_le_self (tx.gas * env.minGasMultiplier) (10 ^ 18)
      rwa [h] at this
    exact le_antisymm env.minGasMultiplier_le (Nat.le_of_mul_le_mul_left hmul hgas)
  · intro h
    rw [h, Nat.mul_div_cancel _ (by decide)]

theorem gasUsed_eq_gas (hgas : 0 < tx.gas) (hle : out.leftoverGas ≤ tx.gas) :
    env.gasUsed tx out = tx.gas ↔ env.ChargesWholeLimit tx out := by
  have htemp : env.temporaryGasUsed tx out ≤ tx.gas := temporaryGasUsed_le
  have hword := Machine.int64_cases (Int.natCast_nonneg (env.temporaryGasUsed tx out))
  have hmin : tx.gas * env.minGasMultiplier / 10 ^ 18 ≤ tx.gas :=
    Nat.div_le_of_le_mul (by rw [Nat.mul_comm]; exact Nat.mul_le_mul_right _ env.minGasMultiplier_le)
  -- the larger of the two is the limit when one of them is
  have hmax : env.gasUsed tx out = tx.gas ↔ tx.gas * env.minGasMultiplier / 10 ^ 18 = tx.gas
      ∨ int64 (env.temporaryGasUsed tx out) = tx.gas := by
    have hcast : ((tx.gas * env.minGasMultiplier : Nat) : Int) = tx.gas * env.minGasMultiplier := by
      push_cast
      rfl
    unfold gasUsed
    simp only
    rw [← hcast]
    omega
  rw [hmax, minimumGasUsed_eq_gas hgas, ChargesWholeLimit, ← and_assoc,
    ← temporaryGasUsed_eq_gas hgas hle]
  refine or_congr_right ?_
  omega

end Env

/-! ## What an escrow pays -/

namespace Book

variable {Ok : Book → Nat → Prop} {b b' : Book}

theorem Charges.escrowOf {path : Path} {sender : Bytes} {toAddr : Option Bytes} {fee : Nat}
    {counters : Counters} {escrows : Escrows}
    (h : b.Charges path sender toAddr fee counters escrows) (d : Nat) (contract : Bytes) :
    escrows.escrowOf contract + Event.escrowFee contract (.paid d path sender toAddr fee)
      = b.escrows.escrowOf contract := by
  cases h with
  | escrow sender target fee hcovers =>
    have hspend := Escrows.escrowOf_spend hcovers.2.2.2 contract
    simpa [Event.escrowFee, eq_comm] using hspend
  | _ => rfl

/-- **The account of an escrow.** What was deposited was withdrawn, was paid in fees of the whole gas
limit, or is in the escrow. -/
theorem escrow_account_write {own : Nat} {contract : Bytes} (hw : Write Ok b b')
    (h : own + total (Event.depositedTo contract) b.events
      = total (Event.withdrawnFrom contract) b.events + b.escrows.escrowOf contract
        + total (Event.escrowFee contract) b.events) :
    own + total (Event.depositedTo contract) b'.events
      = total (Event.withdrawnFrom contract) b'.events + b'.escrows.escrowOf contract
        + total (Event.escrowFee contract) b'.events := by
  cases hw with
  | tick time hle => exact h
  | inflow pool hle => exact h
  | pay path sender toAddr fee counters escrows hcharge hpool hok =>
    have hpaid := hcharge.escrowOf (day b.time) contract
    simp only [total_append, total_singleton, Event.depositedTo, Event.withdrawnFrom]
    omega
  | refund path toAddr amt | mint amt htarget hday =>
    simp only [total_append, total_singleton, Event.depositedTo, Event.withdrawnFrom, Event.escrowFee]
    omega
  | deposit sponsor target amt =>
    have hfund : (b.escrows.fund sponsor target amt).escrowOf contract = _ :=
      Escrows.escrowOf_fund contract
    simp only [total_append, total_singleton, Event.depositedTo, Event.withdrawnFrom, Event.escrowFee]
    omega
  | withdraw sponsor target amt hc he hp =>
    have hunfund : (b.escrows.unfund sponsor target amt).escrowOf contract + _ = _ :=
      Escrows.escrowOf_unfund he contract
    simp only [total_append, total_singleton, Event.depositedTo, Event.withdrawnFrom, Event.escrowFee]
    omega

theorem escrow_account_run (contract : Bytes) (hrun : Run Ok b b') (hfresh : b.events = []) :
    b.escrows.escrowOf contract + total (Event.depositedTo contract) b'.events
      = total (Event.withdrawnFrom contract) b'.events + b'.escrows.escrowOf contract
        + total (Event.escrowFee contract) b'.events :=
  Reach.run_keeps (I := fun b' : Book => b.escrows.escrowOf contract
      + total (Event.depositedTo contract) b'.events
    = total (Event.withdrawnFrom contract) b'.events + b'.escrows.escrowOf contract
      + total (Event.escrowFee contract) b'.events)
    (fun _ _ => escrow_account_write) hrun (by simp [hfresh])

end Book

/-! ## Transactions and runs -/

section Deliver

variable {s s₁ s₂ : State} {time gasUsed : Nat} {env : Env} {tx : EthTx} {out : Outcome}
  {path : Option Path} {contract : Bytes}

theorem total_opEvents {f : Event → Nat} (hdep : ∀ sponsor target amt, f (.deposited sponsor target amt) = 0)
    (hwd : ∀ sponsor target amt, f (.withdrawn sponsor target amt) = 0) (s : State) (ops : List Op) :
    total f (s.opEvents ops) = 0 := by
  induction ops generalizing s with
  | nil => rfl
  | cons op ops ih =>
    rw [State.opEvents]
    cases s.exec op with
    | none => exact ih s
    | some s₁ =>
      rw [total_append, ih s₁, Nat.add_zero]
      cases op with
      | deposit payer sponsor target amt => exact (total_singleton f _).trans (hdep _ _ _)
      | withdraw sponsor target amt => exact (total_singleton f _).trans (hwd _ _ _)
      | _ => rfl

theorem deliver_eq (hante : s.anteHandle env true time tx = some (path, s₁))
    (happly : s₁.applyTransaction env tx out = some (gasUsed, s₂)) :
    s.deliver time env tx out = (s₂, paidEvents time env tx path ++ s₁.opEvents out.committed
      ++ refundEvents env tx path (tx.gas - gasUsed)) := by
  unfold State.deliver
  simp only [hante, happly]

theorem escrowOf_deliver (hante : s.anteHandle env true time tx = some (some .escrow, s₁))
    (happly : s₁.applyTransaction env tx out = some (gasUsed, s₂)) (hto : tx.toAddr = some contract) :
    s.escrows.escrowOf contract
        + total (Event.depositedTo contract) (s₁.opEvents out.committed)
      = total (Event.withdrawnFrom contract) (s₁.opEvents out.committed)
        + s₂.escrows.escrowOf contract + tx.gas * env.gasPrice tx := by
  have hrun : Book.Run (fun _ _ => True) (Chain.book ⟨time, s, []⟩)
      (Chain.book ⟨time, (s.deliver time env tx out).1, [] ++ (s.deliver time env tx out).2⟩) :=
    deliver_run fun _ => trivial
  rw [deliver_eq hante happly] at hrun
  have haccount := Book.escrow_account_run contract hrun rfl
  have hops : total (Event.escrowFee contract) (s₁.opEvents out.committed) = 0 :=
    total_opEvents (fun _ _ _ => rfl) (fun _ _ _ => rfl) s₁ out.committed
  simpa [Chain.book, paidEvents, refundEvents, Event.depositedTo, Event.withdrawnFrom,
    Event.escrowFee, hto, hops] using haccount

theorem fee_pos_of_escrow (hante : s.anteHandle env true time tx = some (path, s₁))
    (hpath : path.isSome = true) : 0 < tx.gas ∧ 0 < env.gasPrice tx := by
  obtain ⟨-, ⟨rfl, -⟩ | ⟨p, s', -, hspons, -⟩⟩ := State.anteHandle_cases hante
  · cases hpath
  · have hfee := (State.charge_of_isSponsored hspons).2.1
    exact ⟨Nat.pos_of_ne_zero (left_ne_zero_of_mul hfee),
      Nat.pos_of_ne_zero (right_ne_zero_of_mul hfee)⟩

end Deliver

namespace Chain

/-- A transaction that an escrow pays for is charged its whole gas limit. -/
def WholeLimit : Allow := fun c a => match a with
  | .deliver env tx out =>
    (∃ contract ∈ tx.toAddr, ¬ c.state.DappCovers c.time contract (tx.gas * env.gasPrice tx)
        ∧ c.state.escrows.Covers contract (tx.gas * env.gasPrice tx)) →
      env.ChargesWholeLimit tx out
  | _ => True

instance (c : Chain) : ∀ a, Decidable (WholeLimit c a)
  | .deliver .. => inferInstanceAs (Decidable (_ → _))
  | .beginBlock .. | .endBlock | .message .. | .cosmosFee .. | .setShowcase .. => .isTrue trivial

variable {time : Nat} {s : State} {c c' : Chain} {a : Action}

theorem escrowRefund_step (contract : Bytes) (hallow : WholeLimit c a) (hstep : c.step a = some c') :
    total (Event.escrowRefund contract) c'.events = total (Event.escrowRefund contract) c.events := by
  have hops : ∀ s ops, total (Event.escrowRefund contract) (State.opEvents s ops) = 0 :=
    total_opEvents (fun _ _ _ => rfl) (fun _ _ _ => rfl)
  cases a with
  | beginBlock t provisions allocates =>
    unfold step at hstep
    simp only at hstep
    split_ifs at hstep with hlt
    obtain ⟨⟨s', added⟩, hbegin, rfl⟩ := Option.map_eq_some_iff.mp hstep
    obtain ⟨s₁, s₂, b, -, -, -, rfl, -⟩ := beginBlock_spec hbegin
    rw [total_append]
    split_ifs <;> rfl
  | endBlock => cases hstep; rfl
  | message op =>
    cases hstep
    rw [total_append, hops, Nat.add_zero]
  | cosmosFee src amt => cases hstep; rfl
  | setShowcase target app => cases hstep; rfl
  | deliver env tx out =>
    cases hstep
    rw [total_append, Nat.add_eq_left]
    have hpaid : ∀ path, total (Event.escrowRefund contract) (paidEvents c.time env tx path) = 0 := by
      intro path
      cases path <;> rfl
    unfold State.deliver
    cases hante : c.state.anteHandle env true c.time tx with
    | none => rfl
    | some r =>
      obtain ⟨path, s₁⟩ := r
      cases happly : s₁.applyTransaction env tx out with
      | none =>
        simp only [happly]
        exact hpaid path
      | some r =>
        obtain ⟨gasUsed, s₂⟩ := r
        simp only [happly, total_append, hpaid, hops, Nat.zero_add]
        obtain ⟨-, ⟨rfl, -⟩ | ⟨p, s', rfl, hspons, -⟩⟩ := State.anteHandle_cases hante
        · rfl
        · obtain ⟨hcheck, rfl, -⟩ := State.applyTransaction_eq_some.mp happly
          have hgas := (fee_pos_of_escrow hante rfl).1
          cases (State.charge_of_isSponsored hspons).2.2 with
          | escrow target hto hdapp hcovers =>
            -- the whole limit is charged, so nothing comes back
            have hwhole : env.gasUsed tx out = tx.gas :=
              (Env.gasUsed_eq_gas hgas hcheck.2.2.2.1).mpr (hallow ⟨target, hto, hdapp, hcovers⟩)
            simp [refundEvents, Event.escrowRefund, hwhole]
          | _ => rfl

end Chain

namespace Sample

/-- A contract whose escrow pays for two calls. -/
def fundedState : State := (state 0 (2 * 10 ^ 18)).execAll [.deposit alice alice app 1200000]

/-- A call of the contract. -/
def callTx : EthTx := transferTx alice app 0 0

/-- An execution that runs out of gas. -/
def outOfGas : Outcome :=
  { applies := true, leftoverGas := 0, refundCounter := 0, failed := true, ops := [], hooks := .unset }

end Sample

/-- **What an escrow pays for.** A transaction that an escrow pays for debits it by the gas used, beside
what its own execution deposits and withdraws, exactly when the whole gas limit is charged. In a run in
which it always is, what was deposited and is neither withdrawn nor in the escrow is what the pool paid
for the contract, net of refunds. -/
theorem escrow_pays_gasUsed (contract : Bytes) :
    (∀ {s s₁ s₂ : State} {time gasUsed : Nat} {env : Env} {tx : EthTx} {out : Outcome},
      s.anteHandle env true time tx = some (some .escrow, s₁) →
      s₁.applyTransaction env tx out = some (gasUsed, s₂) → tx.toAddr = some contract →
      (s₂.escrows.escrowOf contract + gasUsed * env.gasPrice tx
          + total (Event.withdrawnFrom contract) (s₁.opEvents out.committed)
        = s.escrows.escrowOf contract
          + total (Event.depositedTo contract) (s₁.opEvents out.committed)
        ↔ env.ChargesWholeLimit tx out))
      ∧ ∀ {time : Nat} {s : State} {c : Chain},
        Chain.Runs Chain.WholeLimit (Chain.start time s) c →
        (s.escrows.escrowOf contract + total (Event.depositedTo contract) c.events : Int)
            - total (Event.withdrawnFrom contract) c.events - c.state.escrows.escrowOf contract
          = total (Event.escrowFee contract) c.events
            - total (Event.escrowRefund contract) c.events := by
  constructor
  · intro s s₁ s₂ time gasUsed env tx out hante happly hto
    have hdebit := escrowOf_deliver hante happly hto
    obtain ⟨hgas, hprice⟩ := fee_pos_of_escrow hante rfl
    obtain ⟨hcheck, rfl, -⟩ := State.applyTransaction_eq_some.mp happly
    rw [← Env.gasUsed_eq_gas hgas hcheck.2.2.2.1]
    have hcancel : env.gasUsed tx out * env.gasPrice tx = tx.gas * env.gasPrice tx
        ↔ env.gasUsed tx out = tx.gas := Nat.mul_left_inj hprice.ne'
    omega
  · intro time s c hrun
    have hbook : Book.Run (fun _ _ => True) (Chain.start time s).book c.book :=
      Chain.runs_run hrun fun _ _ _ _ _ _ => trivial
    have haccount := Book.escrow_account_run contract hbook rfl
    have hrefund : total (Event.escrowRefund contract) c.events = 0 :=
      Reach.run_keeps (I := fun c : Chain => total (Event.escrowRefund contract) c.events = 0)
        (fun c c' ⟨a, hallow, hstep⟩ h => (Chain.escrowRefund_step contract hallow hstep).trans h)
        hrun rfl
    simp only [Chain.book, Chain.start] at haccount
    omega

open Sample

/-- A call that runs out of gas uses its whole limit, and the escrow pays for that. -/
theorem escrow_pays_gasUsed_out_of_gas :
    (∃ s₁ s₂, fundedState.anteHandle env true 0 callTx = some (some .escrow, s₁)
        ∧ s₁.applyTransaction env callTx outOfGas = some (50000, s₂)
        ∧ s₂.escrows.escrowOf app + 50000 * 12 = fundedState.escrows.escrowOf app)
      ∧ ∃ c, Chain.Runs Chain.WholeLimit (Chain.start 0 fundedState) c
        ∧ total (Event.escrowFee app) c.events = 600000
        ∧ (fundedState.escrows.escrowOf app
            + total (Event.depositedTo app) c.events : Int)
            - total (Event.withdrawnFrom app) c.events - c.state.escrows.escrowOf app
          = total (Event.escrowFee app) c.events
            - total (Event.escrowRefund app) c.events := by
  constructor
  · have hplay : ((fundedState.anteHandle env true 0 callTx).bind fun r =>
        (r.2.applyTransaction env callTx outOfGas).map fun q => (r.1, q.1))
        = some (some .escrow, 50000) := by decide +kernel
    obtain ⟨⟨path, s₁⟩, hante, hrest⟩ := Option.bind_eq_some_iff.mp hplay
    obtain ⟨⟨gasUsed, s₂⟩, happly, heq⟩ := Option.map_eq_some_iff.mp hrest
    cases heq
    have hdebit := ((escrow_pays_gasUsed _).1 hante happly rfl).mpr (by decide +kernel)
    have hprice : env.gasPrice callTx = 12 := by decide +kernel
    have hops : s₁.opEvents outOfGas.committed = [] := rfl
    rw [hprice, hops] at hdebit
    exact ⟨s₁, s₂, hante, happly, hdebit⟩
  · have hreach : ∃ c, Chain.Runs Chain.WholeLimit (Chain.start 0 fundedState) c
        ∧ total (Event.escrowFee app) c.events = 600000 :=
      Chain.exists_runs [.deliver env callTx outOfGas] (by decide +kernel)
    obtain ⟨c, hrun, hfee⟩ := hreach
    exact ⟨c, hrun, hfee, (escrow_pays_gasUsed app).2 hrun⟩

/-- **A call that leaves gas.** Half of its fee goes back to the pool, and the escrow is debited by all
of it. -/
theorem escrow_refund_kept_by_pool :
    ∃ s₁ s₂, fundedState.anteHandle env true 0 callTx = some (some .escrow, s₁)
      ∧ s₁.applyTransaction env callTx (transferOut alice app 0)
        = some (25000, s₂)
      ∧ env.gasPrice callTx = 12
      ∧ fundedState.escrows.escrowOf app = s₂.escrows.escrowOf app + 600000
      ∧ s₂.poolBalance + 25000 * 12 = fundedState.poolBalance := by
  have hplay : ((fundedState.anteHandle env true 0 callTx).bind fun r =>
      (r.2.applyTransaction env callTx
        (transferOut alice app 0)).map fun q =>
          (r.1, q.1, q.2.escrows.escrowOf app, q.2.poolBalance))
      = some (some .escrow, 25000, 600000, 900000) := by decide +kernel
  obtain ⟨⟨path, s₁⟩, hante, hrest⟩ := Option.bind_eq_some_iff.mp hplay
  obtain ⟨⟨gasUsed, s₂⟩, happly, heq⟩ := Option.map_eq_some_iff.mp hrest
  simp only [Prod.mk.injEq] at heq
  obtain ⟨rfl, rfl, hescrow, hpool⟩ := heq
  refine ⟨s₁, s₂, hante, happly, by decide +kernel, ?_, ?_⟩
  · rw [hescrow]
    decide +kernel
  · rw [hpool]
    decide +kernel

/-- **The account of an escrow.** In every run, what was in the escrow and what was deposited
is withdrawn, there, or charged as fees. -/
theorem escrow_accounts (contract : Bytes) {allow : Chain.Allow} {time : Nat} {s : State} {c : Chain}
    (hrun : Chain.Runs allow (Chain.start time s) c) :
    s.escrows.escrowOf contract + total (Event.depositedTo contract) c.events
      = total (Event.withdrawnFrom contract) c.events + c.state.escrows.escrowOf contract
        + total (Event.escrowFee contract) c.events :=
  Book.escrow_account_run contract
    (@Chain.runs_run (fun _ _ => True) _ _ _ hrun fun _ _ _ _ _ _ => trivial) rfl

theorem escrow_accounts_charged : ∃ c,
    Chain.Runs (fun _ _ => True) (Chain.start 0 fundedState) c
    ∧ fundedState.escrows.escrowOf app + total (Event.depositedTo app) c.events
      = total (Event.withdrawnFrom app) c.events + c.state.escrows.escrowOf app
        + total (Event.escrowFee app) c.events := by
  obtain ⟨c, hrun, -⟩ : ∃ c, Chain.Runs (fun _ _ => True) (Chain.start 0 fundedState) c ∧ True :=
    Chain.exists_runs [.deliver env callTx outOfGas] (by decide +kernel)
  exact ⟨c, hrun, escrow_accounts app hrun⟩

end GasSponsor
