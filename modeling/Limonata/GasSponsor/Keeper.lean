import Limonata.GasSponsor.Ledger

/-!
# x/gassponsor and x/squeeze

Who pays the fee of a transaction: the gas pool, through the first path that covers it, or the
sender. The paths are an approved dApp, the escrow of the contract called, the daily budget of the
sender, and the onboarding grant of an account that holds nothing. All but the escrow keep counters.

At the start of a block x/squeeze recycles a part of the collected fees into the pool, and then
x/gassponsor mints what the pool lacks.
-/

namespace GasSponsor

open EncMempool (Bytes bytesOf)

/-! ## State -/

/-- Amounts are `none` where the string does not parse. -/
structure Params where
  enabled : Bool
  baselineDaily : Option Int
  refillEnabled : Bool
  minPoolBalance : Option Int
  coldStartDaily : Option Int
  balanceDivisor : Option Int
  dappPerTxFeeCap : Option Int
  refillDailyMintCap : Option Int
  dappDailyCap : Option Int
  dailyBudget : Option Int
  holdMinimum : Option Int
  onboardingGrant : Option Int
  onboardingDailyCap : Option Int

/-- `DefaultParams`, which stands in for settings that are missing or do not decode. -/
def defaultParams : Params where
  enabled := true
  baselineDaily := some (10 ^ 18)
  refillEnabled := true
  minPoolBalance := some (200000000 * 10 ^ 18)
  coldStartDaily := some (10 ^ 17)
  balanceDivisor := some 1
  dappPerTxFeeCap := some (10 ^ 18)
  refillDailyMintCap := some 0
  dappDailyCap := some 0
  dailyBudget := some (10 ^ 18)
  holdMinimum := some (10 ^ 18)
  onboardingGrant := some (5 * 10 ^ 16)
  onboardingDailyCap := some 0

structure SqueezeParams where
  burnBps : Nat
  grantBps : Nat

/-- An entry of the showcase of x/contest. -/
structure ShowcaseApp where
  vm : String
  approved : Bool

/-- The counters of x/gassponsor; days are UTC days since the epoch. -/
structure Counters where
  /-- By day and account. -/
  allowanceUsed : KVStore (Nat ×ₗ Bytes) Nat
  /-- By day and contract. -/
  dappSpent : KVStore (Nat ×ₗ Bytes) Nat
  /-- By day, over all accounts. -/
  granted : KVStore Nat Nat
  /-- By account, for its whole life. -/
  onboardingUsed : KVStore Bytes Nat
  /-- By day. -/
  minted : KVStore Nat Nat

/-- The code of an account: an EIP-7702 delegation leaves it an externally owned one. -/
inductive Code where
  | none
  | delegation
  | contract
  deriving DecidableEq

structure State where
  bank : Bank
  params : Params
  counters : Counters
  escrows : Escrows
  showcase : Bytes → Option ShowcaseApp
  squeeze : SqueezeParams
  sequence : Bytes → Nat
  code : Bytes → Code
  /-- The object-store flag of the transaction in progress. -/
  txSponsored : Bool

/-- The UTC day of a unix time. -/
def day (time : Nat) : Nat := time / 86400

inductive Path where
  | dapp
  | escrow
  | baseline
  | onboarding
  deriving DecidableEq

/-! ## Allowances -/

/-- An amount if it is positive. -/
def positive (amt : Option Int) : Option Int := amt.filter (0 < ·)

/-- The daily budget of an account that holds `held`. -/
def effectiveAllowance (p : Params) (held : Nat) : Int :=
  match positive p.dailyBudget with
  | some budget =>
    let minHold := (positive p.holdMinimum).getD 0
    if 0 < held ∧ minHold ≤ held then budget else 0
  | none =>
    -- the formula that scales with what is held, from before there was a uniform budget
    match positive p.baselineDaily with
    | none => 0
    | some baseline =>
      let cold := p.coldStartDaily.getD 0
      let div := (positive p.balanceDivisor).getD 1
      let allow := cold + (held : Int) / div
      if baseline < allow then baseline else allow

/-! ## Sponsorship -/

namespace State

section

variable (s : State) (time : Nat) (sender : Bytes) (contract : Bytes) (amt : Nat)

def poolBalance : Nat := s.bank.balance .gasPool

/-- All an account holds, what it may not spend included. -/
def held (addr : Bytes) : Nat := s.bank.balance (.user addr)

def allowanceUsed (day : Nat) (sender : Bytes) : Nat :=
  s.counters.allowanceUsed.amount (toLex (day, sender))

def dappSpentToday (day : Nat) (contract : Bytes) : Nat :=
  s.counters.dappSpent.amount (toLex (day, contract))

def grantedToday (day : Nat) : Nat := s.counters.granted.amount day

def onboardingUsed : Nat := s.counters.onboardingUsed.amount sender

def mintedToday (day : Nat) : Nat := s.counters.minted.amount day

/-- The showcase lists the contract as an approved EVM app. -/
def Approved : Prop :=
  ∃ app ∈ s.showcase contract, app.approved = true ∧ (app.vm = "" ∨ app.vm = "evm")

instance (s : State) (contract : Bytes) : Decidable (s.Approved contract) :=
  match h : s.showcase contract with
  | none => .isFalse fun ⟨_, happ, _⟩ => by simp [h] at happ
  | some app => decidable_of_iff (app.approved = true ∧ (app.vm = "" ∨ app.vm = "evm"))
      ⟨fun hok => ⟨app, h, hok⟩, fun ⟨_, happ, hok⟩ => by
        rw [h, Option.mem_some] at happ
        exact happ ▸ hok⟩

/-- An approved dApp within its cap per transaction and its cap per day. -/
def DappCovers : Prop :=
  s.Approved contract ∧ WithinLimit s.params.dappPerTxFeeCap amt
    ∧ WithinLimit s.params.dappDailyCap (s.dappSpentToday (day time) contract + amt)

/-- A sender whose daily budget has room. -/
def BaselineCovers : Prop :=
  0 < effectiveAllowance s.params (s.held sender)
    ∧ (s.allowanceUsed (day time) sender + amt : Nat)
      ≤ effectiveAllowance s.params (s.held sender)

/-- A sender that holds nothing, whose onboarding grant and the grants of the day have room. -/
def OnboardingCovers : Prop :=
  (∃ grant ∈ s.params.onboardingGrant, 0 < grant ∧ (s.onboardingUsed sender + amt : Nat) ≤ grant)
    ∧ s.held sender = 0
    ∧ WithinLimit s.params.onboardingDailyCap (s.grantedToday (day time) + amt)

instance (s : State) (time : Nat) (contract : Bytes) (amt : Nat) :
    Decidable (s.DappCovers time contract amt) := inferInstanceAs (Decidable (_ ∧ _ ∧ _))

instance (s : State) (time : Nat) (sender : Bytes) (amt : Nat) :
    Decidable (s.BaselineCovers time sender amt) := inferInstanceAs (Decidable (_ ∧ _))

instance (s : State) (time : Nat) (sender : Bytes) (amt : Nat) :
    Decidable (s.OnboardingCovers time sender amt) := inferInstanceAs (Decidable (_ ∧ _ ∧ _))

def addDappSpent (day : Nat) (contract : Bytes) (amt : Nat) : State :=
  { s with
    counters.dappSpent := s.counters.dappSpent.assign (toLex (day, contract))
      (s.dappSpentToday day contract + amt) }

def setAllowanceUsed (day : Nat) (sender : Bytes) (amt : Nat) : State :=
  { s with counters.allowanceUsed := s.counters.allowanceUsed.assign (toLex (day, sender)) amt }

def setOnboardingUsed : State :=
  { s with counters.onboardingUsed := s.counters.onboardingUsed.assign sender amt }

def addGrantedToday (day amt : Nat) : State :=
  { s with counters.granted := s.counters.granted.assign day (s.grantedToday day + amt) }

def setMintedToday (day amt : Nat) : State :=
  { s with counters.minted := s.counters.minted.assign day amt }

def tryDapp : Option State :=
  if s.DappCovers time contract amt then some (s.addDappSpent (day time) contract amt) else none

def tryEscrow : Option State :=
  (s.escrows.reserve contract amt).map fun e => { s with escrows := e }

def tryBaseline : Option State :=
  if s.BaselineCovers time sender amt then
    some (s.setAllowanceUsed (day time) sender (s.allowanceUsed (day time) sender + amt))
  else none

def tryOnboarding : Option State :=
  if s.OnboardingCovers time sender amt then
    some ((s.setOnboardingUsed sender (s.onboardingUsed sender + amt)).addGrantedToday
      (day time) amt)
  else none

/-- The first path that covers the fee, with its counters debited; `none` leaves it to the sender.
A transaction that creates a contract has no `toAddr`. -/
def isSponsored (toAddr : Option Bytes) (amt : Nat) : Option (Path × State) :=
  if s.params.enabled = false ∨ amt = 0 then none
  else match toAddr.bind fun contract => s.tryDapp time contract amt with
    | some s => some (.dapp, s)
    | none => match toAddr.bind fun contract => s.tryEscrow contract amt with
      | some s => some (.escrow, s)
      | none => match s.tryBaseline time sender amt with
        | some s => some (.baseline, s)
        | none => (s.tryOnboarding time sender amt).map fun s => (.onboarding, s)

/-- What a sponsored fee does to the state, by the path that covers it. -/
inductive Charge (s : State) (time : Nat) (sender : Bytes) (toAddr : Option Bytes) (amt : Nat) :
    Path → State → Prop where
  | dapp (contract : Bytes) (hto : toAddr = some contract)
      (hcovers : s.DappCovers time contract amt) :
      Charge s time sender toAddr amt .dapp (s.addDappSpent (day time) contract amt)
  | escrow (contract : Bytes) (hto : toAddr = some contract)
      (hdapp : ¬ s.DappCovers time contract amt) (hcovers : s.escrows.Covers contract amt) :
      Charge s time sender toAddr amt .escrow { s with escrows := s.escrows.spend contract amt }
  | baseline (happ : ∀ contract ∈ toAddr,
        ¬ s.DappCovers time contract amt ∧ ¬ s.escrows.Covers contract amt)
      (hcovers : s.BaselineCovers time sender amt) :
      Charge s time sender toAddr amt .baseline
        (s.setAllowanceUsed (day time) sender (s.allowanceUsed (day time) sender + amt))
  | onboarding (happ : ∀ contract ∈ toAddr,
        ¬ s.DappCovers time contract amt ∧ ¬ s.escrows.Covers contract amt)
      (hbase : ¬ s.BaselineCovers time sender amt) (hcovers : s.OnboardingCovers time sender amt) :
      Charge s time sender toAddr amt .onboarding
        ((s.setOnboardingUsed sender (s.onboardingUsed sender + amt)).addGrantedToday
          (day time) amt)

/-- Some path covers the fee. -/
def Covered (toAddr : Option Bytes) (amt : Nat) : Prop :=
  s.params.enabled = true ∧ amt ≠ 0
    ∧ ((∃ contract ∈ toAddr, s.DappCovers time contract amt ∨ s.escrows.Covers contract amt)
      ∨ s.BaselineCovers time sender amt ∨ s.OnboardingCovers time sender amt)

end

variable {s s' : State} {time : Nat} {sender contract : Bytes} {toAddr : Option Bytes} {amt : Nat}
  {path : Path}

theorem tryEscrow_eq : s.tryEscrow contract amt
    = if s.escrows.Covers contract amt then some { s with escrows := s.escrows.spend contract amt }
      else none := by
  unfold tryEscrow Escrows.reserve
  split_ifs <;> rfl

theorem bind_ite_eq_some {P : Bytes → Prop} [DecidablePred P] {f : Bytes → State} :
    (toAddr.bind fun contract => if P contract then some (f contract) else none) = some s'
      ↔ ∃ contract ∈ toAddr, P contract ∧ f contract = s' := by
  simp [Option.bind_eq_some_iff]

theorem bind_ite_eq_none {P : Bytes → Prop} [DecidablePred P] {f : Bytes → State} :
    (toAddr.bind fun contract => if P contract then some (f contract) else none) = none
      ↔ ∀ contract ∈ toAddr, ¬ P contract := by
  simp [Option.bind_eq_none_iff]

/-- **The paths, in order.** What covers the fee when it is sponsored. -/
theorem charge_of_isSponsored (h : s.isSponsored time sender toAddr amt = some (path, s')) :
    s.params.enabled = true ∧ amt ≠ 0 ∧ s.Charge time sender toAddr amt path s' := by
  unfold isSponsored at h
  split_ifs at h with hoff
  rw [not_or, Bool.not_eq_false] at hoff
  refine ⟨hoff.1, hoff.2, ?_⟩
  -- each path is reached only when the ones before it declined
  simp only [tryDapp, tryEscrow_eq] at h
  split at h
  · rename_i s₁ hdapp
    obtain ⟨contract, hto, hcovers, rfl⟩ := bind_ite_eq_some.mp hdapp
    cases h
    exact .dapp contract hto hcovers
  rename_i hdapp
  have hdapp := bind_ite_eq_none.mp hdapp
  split at h
  · rename_i s₁ hescrow
    obtain ⟨contract, hto, hcovers, rfl⟩ := bind_ite_eq_some.mp hescrow
    cases h
    exact .escrow contract hto (hdapp contract hto) hcovers
  rename_i hescrow
  have hescrow := bind_ite_eq_none.mp hescrow
  have happ : ∀ contract ∈ toAddr,
      ¬ s.DappCovers time contract amt ∧ ¬ s.escrows.Covers contract amt :=
    fun contract hto => ⟨hdapp contract hto, hescrow contract hto⟩
  by_cases hbase : s.BaselineCovers time sender amt
  · rw [tryBaseline, if_pos hbase] at h
    cases h
    exact .baseline happ hbase
  · rw [tryBaseline, if_neg hbase] at h
    obtain ⟨s₁, honb, hs₁⟩ := Option.map_eq_some_iff.mp h
    cases hs₁
    unfold tryOnboarding at honb
    split_ifs at honb with hcovers
    cases honb
    exact .onboarding happ hbase hcovers

/-- Outside the counters and the escrows a charge changes nothing. -/
theorem Charge.frame (h : s.Charge time sender toAddr amt path s') :
    s' = { s with counters := s'.counters, escrows := s'.escrows } := by
  cases h <;> rfl

theorem isSponsored_eq_none :
    s.isSponsored time sender toAddr amt = none ↔ ¬ s.Covered time sender toAddr amt := by
  constructor
  · intro h hcov
    obtain ⟨hen, hamt, hpath⟩ := hcov
    unfold isSponsored at h
    rw [if_neg (by simp [hen, hamt])] at h
    simp only [tryDapp, tryEscrow_eq] at h
    split at h
    · cases h
    rename_i hdapp
    split at h
    · cases h
    rename_i hescrow
    obtain ⟨contract, hto, happ⟩ | hbase | honb := hpath
    · cases happ with
      | inl hd => exact bind_ite_eq_none.mp hdapp contract hto hd
      | inr he => exact bind_ite_eq_none.mp hescrow contract hto he
    · rw [tryBaseline, if_pos hbase] at h
      cases h
    · split at h
      · cases h
      · rw [tryOnboarding, if_pos honb] at h
        cases h
  · intro hcov
    cases h : s.isSponsored time sender toAddr amt with
    | none => rfl
    | some r =>
      obtain ⟨path, s₁⟩ := r
      obtain ⟨hen, hamt, hcharge⟩ := charge_of_isSponsored h
      refine absurd ⟨hen, hamt, ?_⟩ hcov
      cases hcharge with
      | dapp contract hto hcovers => exact .inl ⟨contract, hto, .inl hcovers⟩
      | escrow contract hto _ hcovers => exact .inl ⟨contract, hto, .inr hcovers⟩
      | baseline _ hcovers => exact .inr (.inl hcovers)
      | onboarding _ _ hcovers => exact .inr (.inr hcovers)

end State

/-! ## BeginBlock -/

namespace State

/-- `BeginBlock` of x/squeeze: burn a part of the collected fees, recycle a part into the pool and
leave the rest. -/
def squeezeBeginBlock (s : State) : Option State :=
  let amt := s.bank.balance .feeCollector
  let burnAmt := amt * s.squeeze.burnBps / 10000
  let grantAmt := amt * s.squeeze.grantBps / 10000
  if burnAmt + grantAmt = 0 then some s
  else do
    let b ← s.bank.send .feeCollector .squeeze (burnAmt + grantAmt)
    let b ← b.debit .squeeze burnAmt
    let b ← b.send .squeeze .gasPool grantAmt
    return { s with bank := b }

/-- What the refill mints: what the pool lacks of its target, up to what is left of the day's cap. -/
def refillAmount (s : State) (time : Nat) : Nat :=
  match positive s.params.minPoolBalance with
  | none => 0
  | some target =>
    if s.params.refillEnabled = false ∨ target ≤ s.poolBalance then 0
    else
      let deficit := (target - s.poolBalance).toNat
      match positive s.params.refillDailyMintCap with
      | none => deficit
      | some cap => min deficit (cap - s.mintedToday (day time)).toNat

/-- `BeginBlock` of x/gassponsor: mint to the module, move to the pool, count. -/
def refill (s : State) (time : Nat) : Option State :=
  let mintAmt := s.refillAmount time
  if mintAmt = 0 then some s
  else do
    let b ← (s.bank.credit .gasSponsor mintAmt).send .gasSponsor .gasPool mintAmt
    return { s with bank := b }.setMintedToday (day time) (s.mintedToday (day time) + mintAmt)

variable {s s' : State} {time : Nat}

theorem squeezeBeginBlock_spec (h : s.squeezeBeginBlock = some s') :
    ∃ b, s' = { s with bank := b } ∧ s.bank.balance .gasPool ≤ b.balance .gasPool
      ∧ ∀ addr, b.balance (.user addr) = s.bank.balance (.user addr) := by
  unfold squeezeBeginBlock at h
  simp only at h
  split_ifs at h
  · cases h
    exact ⟨s.bank, rfl, le_rfl, fun _ => rfl⟩
  · simp only [Option.bind_eq_bind, Option.bind_eq_some_iff, Option.pure_def, Option.some_inj] at h
    obtain ⟨b₁, hmove, b₂, hburn, b₃, hgrant, rfl⟩ := h
    have hmove := (Bank.send_spec hmove).2.1
    have hburn := (Bank.debit_spec hburn).2.1
    have hgrant := (Bank.send_spec hgrant).2.1
    refine ⟨b₃, rfl, ?_, fun addr => ?_⟩
    · have h₁ := hmove .gasPool
      have h₂ := hburn .gasPool
      have h₃ := hgrant .gasPool
      simp only [reduceCtorEq, if_false, if_true, Nat.add_zero] at h₁ h₂ h₃
      omega
    · have h₁ := hmove (.user addr)
      have h₂ := hburn (.user addr)
      have h₃ := hgrant (.user addr)
      simp only [reduceCtorEq, if_false, Nat.add_zero] at h₁ h₂ h₃
      rw [h₃, h₂, h₁]

theorem mem_positive {amt : Option Int} {c : Int} : c ∈ positive amt ↔ c ∈ amt ∧ 0 < c := by
  unfold positive
  rw [Option.mem_def, Option.filter_eq_some_iff, decide_eq_true_iff, Option.mem_def]

theorem withinLimit_iff {limit : Option Int} {n : Nat} :
    WithinLimit limit n ↔ ∀ c ∈ positive limit, (n : Int) ≤ c :=
  ⟨fun h c hc => h c (mem_positive.mp hc).1 (mem_positive.mp hc).2,
    fun h c hc hpos => h c (mem_positive.mpr ⟨hc, hpos⟩)⟩

theorem refillAmount_spec (hmint : s.refillAmount time ≠ 0) :
    (∃ target ∈ s.params.minPoolBalance,
        ((s.poolBalance + s.refillAmount time : Nat) : Int) ≤ target)
      ∧ WithinLimit s.params.refillDailyMintCap
        (s.mintedToday (day time) + s.refillAmount time) := by
  rw [withinLimit_iff]
  unfold refillAmount at hmint ⊢
  cases htarget : positive s.params.minPoolBalance with
  | none =>
    rw [htarget] at hmint
    exact absurd rfl hmint
  | some target =>
    rw [htarget] at hmint
    simp only at hmint ⊢
    split_ifs at hmint ⊢ with hoff
    · exact absurd rfl hmint
    rw [not_or] at hoff
    cases hcap : positive s.params.refillDailyMintCap with
    | none =>
      refine ⟨⟨target, (mem_positive.mp htarget).1, ?_⟩, nofun⟩
      show ((s.poolBalance + (target - s.poolBalance).toNat : Nat) : Int) ≤ target
      omega
    | some cap =>
      rw [hcap] at hmint
      simp only at hmint ⊢
      refine ⟨⟨target, (mem_positive.mp htarget).1, ?_⟩, fun c hc => ?_⟩
      · omega
      · cases hc
        omega

theorem refill_spec (h : s.refill time = some s') :
    (s.refillAmount time = 0 ∧ s' = s) ∨ (s.refillAmount time ≠ 0
      ∧ ∃ b, s' = { s with bank := b }.setMintedToday (day time)
          (s.mintedToday (day time) + s.refillAmount time)
        ∧ b.balance .gasPool = s.bank.balance .gasPool + s.refillAmount time
        ∧ ∀ addr, b.balance (.user addr) = s.bank.balance (.user addr)) := by
  unfold refill at h
  simp only at h
  split_ifs at h with hzero
  · cases h
    exact .inl ⟨hzero, rfl⟩
  · simp only [Option.bind_eq_bind, Option.bind_eq_some_iff, Option.pure_def, Option.some_inj] at h
    obtain ⟨b, hsend, rfl⟩ := h
    have hsend := (Bank.send_spec hsend).2.1
    refine .inr ⟨hzero, b, rfl, ?_, fun addr => ?_⟩
    · have hpool := hsend .gasPool
      simpa using hpool
    · have huser := hsend (.user addr)
      simpa using huser

end State

end GasSponsor
