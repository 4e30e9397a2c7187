import Limonata.GasSponsor.Chain
import Limonata.GasSponsor.Settlement

/-!
# Budgets of the gas pool

The counters of x/gassponsor cover what the pool pays on each path, so the caps they are checked
against bound the payments of every run. They do not bound what a group of accounts is paid for: the
daily budget goes to an account for what it holds at the moment it sends, and the same coins can be
held by one account after the other.
-/

namespace GasSponsor

open EncMempool (Bytes bytesOf)

/-! ## Logs -/

/-- What the pool paid for approved dApps, by day and contract. -/
def dappLog (events : List Event) : List ((Nat ×ₗ Bytes) × Nat) := events.filterMap fun
  | .paid day .dapp _ (some contract) fee => some (toLex (day, contract), fee)
  | _ => none

/-- What it paid out of daily budgets, by day and account. -/
def baselineLog (events : List Event) : List ((Nat ×ₗ Bytes) × Nat) := events.filterMap fun
  | .paid day .baseline sender _ fee => some (toLex (day, sender), fee)
  | _ => none

/-- What it paid out of onboarding grants, by account. -/
def onboardingLog (events : List Event) : List (Bytes × Nat) := events.filterMap fun
  | .paid _ .onboarding sender _ fee => some (sender, fee)
  | _ => none

/-- What it paid out of onboarding grants, by day. -/
def grantedLog (events : List Event) : List (Nat × Nat) := events.filterMap fun
  | .paid day .onboarding _ _ fee => some (day, fee)
  | _ => none

/-- What the refill minted, by day. -/
def mintedLog (events : List Event) : List (Nat × Nat) := events.filterMap fun
  | .minted day amt _ => some (day, amt)
  | _ => none

/-! ## Allowances -/

/-- The amounts some allowance has room for. -/
def allowanceSet (p : Params) : LowerSet Nat where
  carrier := {n | ∃ held, (n : Int) ≤ effectiveAllowance p held}
  lower' := by
    rintro m n hle ⟨held, h⟩
    exact ⟨held, (Int.ofNat_le.mpr hle).trans h⟩

/-- The amounts the onboarding grant has room for. -/
def grantSet (p : Params) : LowerSet Nat where
  carrier := {n | (n : Int) ≤ (positive p.onboardingGrant).getD 0}
  lower' := fun _ _ hle h => (Int.ofNat_le.mpr hle).trans h

theorem exists_isGreatest_effectiveAllowance (p : Params) :
    ∃ allowance, IsGreatest (Set.range (effectiveAllowance p)) allowance ∧ 0 ≤ allowance := by
  cases hbudget : positive p.dailyBudget with
  | some budget =>
    have hpos := (State.mem_positive.mp hbudget).2
    refine ⟨budget, ⟨⟨((positive p.holdMinimum).getD 0).toNat + 1, ?_⟩, ?_⟩, hpos.le⟩
    · simp only [effectiveAllowance, hbudget]
      rw [if_pos ⟨Nat.succ_pos _, by omega⟩]
    · rintro _ ⟨held, rfl⟩
      simp only [effectiveAllowance, hbudget]
      split_ifs
      · exact le_rfl
      · exact hpos.le
  | none =>
    cases hbase : positive p.baselineDaily with
    | none =>
      refine ⟨0, ⟨⟨0, ?_⟩, ?_⟩, le_rfl⟩
      · simp only [effectiveAllowance, hbudget, hbase]
      · rintro _ ⟨held, rfl⟩
        simp only [effectiveAllowance, hbudget, hbase, le_refl]
    | some baseline =>
      have hpos := (State.mem_positive.mp hbase).2
      have hdiv : 0 < (positive p.balanceDivisor).getD 1 := by
        cases h : positive p.balanceDivisor with
        | none => exact one_pos
        | some div => exact (State.mem_positive.mp h).2
      -- enough coins take the scaled formula to its cap
      refine ⟨baseline, ⟨⟨((positive p.balanceDivisor).getD 1
        * (baseline + |p.coldStartDaily.getD 0|)).toNat, ?_⟩, ?_⟩, hpos.le⟩
      · simp only [effectiveAllowance, hbudget, hbase]
        have hcast : (0 : Int) ≤ (positive p.balanceDivisor).getD 1
            * (baseline + |p.coldStartDaily.getD 0|) := by positivity
        rw [Int.toNat_of_nonneg hcast, Int.mul_ediv_cancel_left _ hdiv.ne']
        have habs := neg_abs_le (p.coldStartDaily.getD 0)
        split_ifs with h
        · rfl
        · omega
      · rintro _ ⟨held, rfl⟩
        simp only [effectiveAllowance, hbudget, hbase]
        split_ifs with h
        · exact le_rfl
        · exact not_lt.mp h

/-! ## What the counters cover -/

/-- The counters cover the record, and the record is within the caps. -/
structure Book.Accounted (b : Book) : Prop where
  dapp : Metered (limitSet b.params.dappDailyCap) b.counters.dappSpent (dappLog b.events)
  baseline : Metered (allowanceSet b.params) b.counters.allowanceUsed (baselineLog b.events)
  onboarding : Metered (grantSet b.params) b.counters.onboardingUsed (onboardingLog b.events)
  granted : Metered (limitSet b.params.onboardingDailyCap) b.counters.granted (grantedLog b.events)
  minted : Metered (limitSet b.params.refillDailyMintCap) b.counters.minted (mintedLog b.events)
  ceiling : ∀ day amt pool, Event.minted day amt pool ∈ b.events →
    ∃ target ∈ b.params.minPoolBalance, (pool : Int) ≤ target

namespace Book

variable {Ok : Book → Nat → Prop} {b b' : Book}

theorem accounted_nil (hfresh : b.events = []) : b.Accounted := by
  obtain ⟨allowance, ⟨⟨held, hheld⟩, -⟩, hnonneg⟩ := exists_isGreatest_effectiveAllowance b.params
  have hgrant : (0 : Int) ≤ (positive b.params.onboardingGrant).getD 0 := by
    cases h : positive b.params.onboardingGrant with
    | none => exact le_rfl
    | some grant => exact (State.mem_positive.mp h).2.le
  have hallow : 0 ∈ allowanceSet b.params := ⟨held, hheld ▸ hnonneg⟩
  constructor
  all_goals rw [hfresh]
  · exact .nil (withinLimit_zero _) _
  · exact .nil hallow _
  · exact .nil hgrant _
  · exact .nil (withinLimit_zero _) _
  · exact .nil (withinLimit_zero _) _
  · exact fun _ _ _ h => absurd h List.not_mem_nil

theorem Accounted.pay {path : Path} {sender : Bytes} {toAddr : Option Bytes} {fee : Nat}
    {counters : Counters} {escrows : Escrows} (h : b.Accounted) (pool : Nat)
    (hcharge : b.Charges path sender toAddr fee counters escrows) :
    Accounted { b with
      pool, counters, escrows
      events := b.events ++ [.paid (day b.time) path sender toAddr fee] } := by
  have hceiling : ∀ d amt pool, Event.minted d amt pool
      ∈ b.events ++ [.paid (day b.time) path sender toAddr fee] →
      ∃ target ∈ b.params.minPoolBalance, (pool : Int) ≤ target := by
    intro d amt pool hmem
    exact h.ceiling d amt pool (by simpa using hmem)
  cases hcharge with
  | dapp sender contract fee hday =>
    exact {
      dapp := h.dapp.logged rfl hday
      baseline := h.baseline.append rfl
      onboarding := h.onboarding.append rfl
      granted := h.granted.append rfl
      minted := h.minted.append rfl
      ceiling := hceiling }
  | escrow sender contract fee hcovers =>
    exact {
      dapp := h.dapp.append rfl
      baseline := h.baseline.append rfl
      onboarding := h.onboarding.append rfl
      granted := h.granted.append rfl
      minted := h.minted.append rfl
      ceiling := hceiling }
  | baseline sender toAddr fee held hroom =>
    exact {
      dapp := h.dapp.append rfl
      baseline := h.baseline.logged rfl ⟨held, hroom⟩
      onboarding := h.onboarding.append rfl
      granted := h.granted.append rfl
      minted := h.minted.append rfl
      ceiling := hceiling }
  | onboarding sender toAddr fee hgrant hday =>
    obtain ⟨grant, hmem, hpos, hle⟩ := hgrant
    have hroom : b.counters.onboardingUsed.amount sender + fee ∈ grantSet b.params := by
      show _ ≤ (positive b.params.onboardingGrant).getD 0
      rw [State.mem_positive.mpr ⟨hmem, hpos⟩]
      exact hle
    exact {
      dapp := h.dapp.append rfl
      baseline := h.baseline.append rfl
      onboarding := h.onboarding.logged rfl hroom
      granted := h.granted.logged rfl hday
      minted := h.minted.append rfl
      ceiling := hceiling }

theorem Accounted.append (h : b.Accounted) (ev : List Event)
    (hpaid : dappLog ev = [] ∧ baselineLog ev = [] ∧ onboardingLog ev = [] ∧ grantedLog ev = [])
    (hminted : mintedLog ev = []) (time pool : Nat) (escrows : Escrows) :
    Accounted { b with time, pool, escrows, events := b.events ++ ev } where
  dapp := h.dapp.append hpaid.1
  baseline := h.baseline.append hpaid.2.1
  onboarding := h.onboarding.append hpaid.2.2.1
  granted := h.granted.append hpaid.2.2.2
  minted := h.minted.append hminted
  ceiling d amt pool hmem := by
    refine h.ceiling d amt pool ((List.mem_append.mp hmem).resolve_right fun he => ?_)
    cases List.filterMap_eq_nil_iff.mp hminted _ he

theorem Accounted.mint {amt : Nat} (h : b.Accounted)
    (htarget : ∃ target ∈ b.params.minPoolBalance, ((b.pool + amt : Nat) : Int) ≤ target)
    (hday : WithinLimit b.params.refillDailyMintCap (b.counters.minted.amount (day b.time) + amt)) :
    Accounted { b with
      pool := b.pool + amt
      counters := { b.counters with
        minted := b.counters.minted.assign (day b.time)
          (b.counters.minted.amount (day b.time) + amt) }
      events := b.events ++ [.minted (day b.time) amt (b.pool + amt)] } where
  dapp := h.dapp.append rfl
  baseline := h.baseline.append rfl
  onboarding := h.onboarding.append rfl
  granted := h.granted.append rfl
  minted := h.minted.logged rfl hday
  ceiling := by
    intro d a pool hmem
    rcases List.mem_append.mp hmem with hmem | hmem
    · exact h.ceiling d a pool hmem
    · cases List.mem_singleton.mp hmem
      exact htarget

/-- **Step.** -/
theorem Accounted.write (h : b.Accounted) (hw : Write Ok b b') : b'.Accounted := by
  cases hw with
  | tick time hle => simpa using h.append [] ⟨rfl, rfl, rfl, rfl⟩ rfl time b.pool b.escrows
  | inflow pool hle => simpa using h.append [] ⟨rfl, rfl, rfl, rfl⟩ rfl b.time pool b.escrows
  | pay path sender toAddr fee counters escrows hcharge hpool hok => exact h.pay _ hcharge
  | refund path toAddr amt | deposit sponsor contract amt
  | withdraw sponsor contract amt hc he hp =>
    exact h.append _ ⟨rfl, rfl, rfl, rfl⟩ rfl _ _ _
  | mint amt htarget hday => exact h.mint htarget hday

end Book

/-! ## Runs -/

/-- What the pool paid and what was minted is within the caps. -/
structure WithinBudgets (p : Params) (events : List Event) : Prop where
  dapp : ∀ day contract,
    WithinLimit p.dappDailyCap (charged (dappLog events) (toLex (day, contract)))
  baseline : ∃ allowance, IsGreatest (Set.range (effectiveAllowance p)) allowance
    ∧ ∀ day sender, (charged (baselineLog events) (toLex (day, sender)) : Int) ≤ allowance
  onboarding : ∀ sender,
    (charged (onboardingLog events) sender : Int) ≤ (positive p.onboardingGrant).getD 0
  granted : ∀ day, WithinLimit p.onboardingDailyCap (charged (grantedLog events) day)
  minted : ∀ day, WithinLimit p.refillDailyMintCap (charged (mintedLog events) day)
  ceiling : ∀ day amt pool, Event.minted day amt pool ∈ events →
    ∃ target ∈ p.minPoolBalance, (pool : Int) ≤ target

theorem Book.Accounted.withinBudgets {b : Book} (h : b.Accounted) :
    WithinBudgets b.params b.events := by
  refine ⟨fun d contract => h.dapp.within _, ?_, h.onboarding.within, h.granted.within,
    h.minted.within, h.ceiling⟩
  obtain ⟨allowance, hgreatest, -⟩ := exists_isGreatest_effectiveAllowance b.params
  refine ⟨allowance, hgreatest, fun d sender => ?_⟩
  obtain ⟨held, hheld⟩ := h.baseline.within (toLex (d, sender))
  exact hheld.trans (hgreatest.2 ⟨held, rfl⟩)

/-- The event records a payment of the pool. -/
def Event.isPaid : Event → Bool
  | .paid .. => true
  | _ => false

/-- **One path.** A delivered transaction is rejected, or its sender pays and nothing is debited, or it
is charged to one path: the counters or the escrow of that path are debited, and the pool pays the
fee. -/
inductive ChargedOnce (s : State) (time : Nat) (env : Env) (tx : EthTx) (out : Outcome) : Prop where
  | rejected (hdeliver : s.deliver time env tx out = (s, []))
  | senderPays (s₁ : State) (hante : s.anteHandle env true time tx = some (none, s₁))
      (hcounters : s₁.counters = s.counters) (hescrows : s₁.escrows = s.escrows)
      (hpool : s₁.poolBalance = s.poolBalance)
      (hevents : (s.deliver time env tx out).2.filter Event.isPaid = [])
  | sponsored (path : Path) (s₁ s₂ : State)
      (hante : s.anteHandle env true time tx = some (some path, s₁))
      (hcharge : s.Charge time tx.sender tx.toAddr (tx.gas * env.gasPrice tx) path s₂)
      (hcounters : s₁.counters = s₂.counters) (hescrows : s₁.escrows = s₂.escrows)
      (hpool : s₁.poolBalance + tx.gas * env.gasPrice tx = s.poolBalance)
      (hevents : (s.deliver time env tx out).2.filter Event.isPaid
        = [.paid (day time) path tx.sender tx.toAddr (tx.gas * env.gasPrice tx)])

theorem filter_isPaid_opEvents (s : State) (ops : List Op) :
    (s.opEvents ops).filter Event.isPaid = [] := by
  induction ops generalizing s with
  | nil => rfl
  | cons op ops ih =>
    rw [State.opEvents]
    cases s.exec op with
    | none => exact ih s
    | some s₁ =>
      rw [List.filter_append, ih s₁, List.append_nil]
      cases op <;> rfl

theorem filter_isPaid_deliver {s s₁ : State} {time : Nat} {env : Env} {tx : EthTx} {out : Outcome}
    {path : Option Path} (hante : s.anteHandle env true time tx = some (path, s₁)) :
    (s.deliver time env tx out).2.filter Event.isPaid = paidEvents time env tx path := by
  have hpaid : (paidEvents time env tx path).filter Event.isPaid = paidEvents time env tx path := by
    cases path <;> rfl
  have hrefund : ∀ leftoverGas, (refundEvents env tx path leftoverGas).filter Event.isPaid = [] := by
    intro leftoverGas
    cases path <;> rfl
  unfold State.deliver
  simp only [hante]
  cases s₁.applyTransaction env tx out with
  | none => exact hpaid
  | some r => simp only [List.filter_append, hpaid, hrefund, filter_isPaid_opEvents, List.append_nil]

theorem chargedOnce (s : State) (time : Nat) (env : Env) (tx : EthTx) (out : Outcome) :
    ChargedOnce s time env tx out := by
  cases hante : s.anteHandle env true time tx with
  | none => exact .rejected (by simp [State.deliver, hante])
  | some r =>
    obtain ⟨path, s₁⟩ := r
    have hevents : (s.deliver time env tx out).2.filter Event.isPaid = _ := filter_isPaid_deliver hante
    obtain ⟨-, ⟨rfl, hcounters, hescrows, hpool⟩ | ⟨p, s₂, rfl, hspons, hcounters, hescrows, hpool⟩⟩ :=
      State.anteHandle_cases hante
    · exact .senderPays s₁ hante hcounters hescrows hpool hevents
    · exact .sponsored p s₁ s₂ hante (State.charge_of_isSponsored hspons).2.2 hcounters hescrows hpool
        hevents

open Sample

/-- A delivered transfer. -/
def Sample.transfer (sender dst : Bytes) (nonce value : Nat) : Action :=
  .deliver env (transferTx sender dst nonce value) (transferOut sender dst value)

namespace Chain

/-- The start of a record. -/
def start (time : Nat) (s : State) : Chain := ⟨time, s, []⟩

variable {time : Nat} {s : State} {c : Chain}

/-- **Budgets bound the outflow of the pool.** In every run, what the pool paid on each path and what
was minted into it is within the caps, and every transaction is charged to one path or to none. -/
theorem budgets_bound_outflow (hrun : Runs Any (start time s) c) :
    WithinBudgets s.params c.events ∧ ∀ env tx out, ChargedOnce c.state c.time env tx out := by
  have hbook : Book.Run (fun _ _ => True) (start time s).book c.book :=
    runs_run hrun fun _ _ _ _ _ _ => trivial
  have hacc : c.book.Accounted := Reach.run_keeps (I := Book.Accounted)
    (fun _ _ hw h => h.write hw) hbook (Book.accounted_nil rfl)
  refine ⟨?_, fun env tx out => chargedOnce c.state c.time env tx out⟩
  have hwithin := hacc.withinBudgets
  rw [hbook.params_eq] at hwithin
  exact hwithin

/-- A transfer within the daily budget and a refill at the start of the next day. -/
theorem budgets_bound_outflow_transfer :
    ∃ c, Runs Any (start 0 { Sample.state (10 ^ 18) (10 ^ 18) with params := defaultParams }) c
      ∧ (charged (baselineLog c.events) (toLex (0, alice)) = 600000
        ∧ charged (mintedLog c.events) 1 = 200000000 * 10 ^ 18 - (10 ^ 18 - 300000 + 60000))
      ∧ WithinBudgets defaultParams c.events := by
  have hreach : ∃ c, Runs Any (start 0 { Sample.state (10 ^ 18) (10 ^ 18) with params := defaultParams }) c
      ∧ charged (baselineLog c.events) (toLex (0, alice)) = 600000
      ∧ charged (mintedLog c.events) 1 = 200000000 * 10 ^ 18 - (10 ^ 18 - 300000 + 60000) :=
    exists_runs [transfer alice bob 0 5, .beginBlock 86400 0 true]
      (by decide +kernel)
  obtain ⟨c, hrun, hcharged⟩ := hreach
  exact ⟨c, hrun, hcharged, (budgets_bound_outflow hrun).1⟩

end Chain

end GasSponsor
