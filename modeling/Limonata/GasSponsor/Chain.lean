import Limonata.GasSponsor.Book
import Limonata.GasSponsor.Tx

/-!
# Runs of the chain

Blocks, EVM transactions and everything else that moves coins, in any order. A run keeps a record of
what the pool paid, got back, minted and held for sponsors. Every step of a run is a run of writes to
the book of the pool.

The settings of the modules are those of the genesis: x/gassponsor and x/squeeze have no message that
changes them.
-/

namespace GasSponsor

open EncMempool (Bytes bytesOf)

/-! ## Steps -/

inductive Action where
  /-- `BeginBlock` of a block: what x/mint pays into the fee collector, and whether x/distribution
  allocates, which it does from the second block on. -/
  | beginBlock (time provisions : Nat) (allocates : Bool)
  /-- `EndBlock`, which credits the fees that were sent virtually. -/
  | endBlock
  | deliver (env : Env) (tx : EthTx) (out : Outcome)
  /-- A message of another transaction. -/
  | message (op : Op)
  /-- The fee of another transaction. -/
  | cosmosFee (src : Bytes) (amt : Nat)
  /-- A change of the showcase of x/contest. -/
  | setShowcase (contract : Bytes) (app : Option ShowcaseApp)

structure Chain where
  time : Nat
  state : State
  events : List Event

/-- What an operation adds to the record. -/
def Op.events : Op → List Event
  | .deposit _ sponsor contract amt => [.deposited sponsor contract amt]
  | .withdraw sponsor contract amt => [.withdrawn sponsor contract amt]
  | _ => []

/-- The event of a sponsored fee. -/
def paidEvents (time : Nat) (env : Env) (tx : EthTx) (path : Option Path) : List Event :=
  path.toList.map fun p => .paid (day time) p tx.sender tx.toAddr (tx.gas * env.gasPrice tx)

/-- The event of the refund of a sponsored fee. -/
def refundEvents (env : Env) (tx : EthTx) (path : Option Path) (leftoverGas : Nat) : List Event :=
  path.toList.map fun p => .refunded p tx.toAddr (leftoverGas * env.gasPrice tx)

namespace State

/-- What operations add to the record; one that fails adds nothing. -/
def opEvents (s : State) : List Op → List Event
  | [] => []
  | op :: ops => match s.exec op with
    | none => s.opEvents ops
    | some s' => op.events ++ s'.opEvents ops

/-- `BeginBlock` of x/mint, x/squeeze, x/gassponsor and x/distribution, in this order, and what it
adds to the record. -/
def beginBlock (s : State) (time provisions : Nat) (allocates : Bool) :
    Option (State × List Event) := do
  let s ← { s with bank := s.bank.credit .feeCollector provisions }.squeezeBeginBlock
  let mintAmt := s.refillAmount time
  let s ← s.refill time
  let events := if mintAmt = 0 then [] else [Event.minted (day time) mintAmt s.poolBalance]
  if allocates then
    let b ← s.bank.send .feeCollector .other (s.bank.balance .feeCollector)
    return ({ s with bank := b }, events)
  else return (s, events)

/-- A delivered transaction: rejected by the ante handler it changes nothing; accepted, it has paid
its fee, also when its execution meets an error. -/
def deliver (s : State) (time : Nat) (env : Env) (tx : EthTx) (out : Outcome) : State × List Event :=
  match s.anteHandle env true time tx with
  | none => (s, [])
  | some (path, s₁) =>
    let paid := paidEvents time env tx path
    match s₁.applyTransaction env tx out with
    | none => (s₁, paid)
    | some (gasUsed, s₂) =>
      (s₂, paid ++ s₁.opEvents out.committed ++ refundEvents env tx path (tx.gas - gasUsed))

end State

namespace Chain

/-- One step; `none` is a block that cannot begin. -/
def step (c : Chain) : Action → Option Chain
  | .beginBlock time provisions allocates =>
    if time < c.time then none
    else (c.state.beginBlock time provisions allocates).map fun (s, events) =>
      ⟨time, s, c.events ++ events⟩
  | .endBlock =>
    some { c with
      state.bank := { c.state.bank with virtualFees := 0 }.credit .feeCollector
        c.state.bank.virtualFees }
  | .deliver env tx out =>
    let r := c.state.deliver c.time env tx out
    some { c with state := r.1, events := c.events ++ r.2 }
  | .message op =>
    some { c with state := c.state.execAll [op], events := c.events ++ c.state.opEvents [op] }
  | .cosmosFee src amt =>
    some { c with state.bank := (c.state.bank.send (.user src) .feeCollector amt).getD c.state.bank }
  | .setShowcase contract app =>
    some { c with state.showcase := Function.update c.state.showcase contract app }

/-- Which steps a run may take. -/
abbrev Allow := Chain → Action → Prop

def Step (allow : Allow) (c c' : Chain) : Prop := ∃ a, allow c a ∧ c.step a = some c'

/-- The chain `c'` is reached from `c` by allowed steps. -/
abbrev Runs (allow : Allow) := Relation.ReflTransGen (Step allow)

/-- Any step. -/
def Any : Allow := fun _ _ => True

instance (c : Chain) (a : Action) : Decidable (Any c a) := .isTrue trivial

/-- What the book of the pool says of a chain. -/
def book (c : Chain) : Book where
  time := c.time
  pool := c.state.poolBalance
  params := c.state.params
  counters := c.state.counters
  escrows := c.state.escrows
  events := c.events

end Chain

/-! ## Steps are writes -/

section Writes

variable {Ok : Book → Nat → Prop} {s s' : State} {time : Nat} {events : List Event}

theorem poolBalance_send {b : Bank} {src dst : Account} {amt : Nat}
    (h : s.bank.send src dst amt = some b) (hsrc : src ≠ .gasPool) (hdst : dst ≠ .gasPool) :
    b.balance .gasPool = s.poolBalance := by
  have hbal := (Bank.send_spec h).2.1 .gasPool
  rw [if_neg hsrc.symm, if_neg hdst.symm] at hbal
  exact hbal

theorem run_of_eq {b b' : Book} (h : b' = b) : Book.Run Ok b b' := h ▸ .refl

theorem run_of_write {b b₁ b' : Book} (hw : Book.Write Ok b b₁) (h : b' = b₁) : Book.Run Ok b b' :=
  h ▸ .single hw

theorem exec_run {op : Op} (h : s.exec op = some s') :
    Book.Run Ok (Chain.book ⟨time, s, events⟩) (Chain.book ⟨time, s', events ++ op.events⟩) := by
  -- the operations that do not name an escrow leave the pool alone
  have hquiet : ∀ {b : Bank} {code : Bytes → Code}, b.balance .gasPool = s.poolBalance →
      Book.Run Ok (Chain.book ⟨time, s, events⟩)
        (Chain.book ⟨time, { s with bank := b, code := code }, events ++ []⟩) := by
    intro b code hpool
    apply run_of_eq
    simp [Chain.book, State.poolBalance, hpool]
  cases op with
  | transfer src dst amt | toModule src amt | fromModule dst amt =>
    obtain ⟨b, hb, rfl⟩ := Option.map_eq_some_iff.mp h
    exact hquiet (poolBalance_send hb nofun nofun)
  | lock addr amt =>
    cases h
    exact hquiet rfl
  | setCode addr code =>
    cases h
    exact hquiet rfl
  | deposit payer sponsor contract amt =>
    obtain ⟨⟨b, e⟩, hdep, rfl⟩ := Option.map_eq_some_iff.mp h
    obtain ⟨-, hb, rfl⟩ := Escrows.depositFrom_eq_ok.mp (Check.toOption_eq_some.mp hdep)
    have hpool : b.balance .gasPool = s.bank.balance .gasPool + amt := by
      simpa using (Bank.send_spec hb).2.1 .gasPool
    refine run_of_write (.deposit sponsor contract amt) ?_
    simp [Chain.book, State.poolBalance, Op.events, hpool]
  | withdraw sponsor contract amt =>
    obtain ⟨⟨b, e⟩, hwd, rfl⟩ := Option.map_eq_some_iff.mp h
    obtain ⟨-, hc, he, hb, rfl⟩ := Escrows.withdraw_eq_ok.mp (Check.toOption_eq_some.mp hwd)
    have hpool : b.balance .gasPool = s.bank.balance .gasPool - amt := by
      have hbal := (Bank.send_spec hb).2.1 .gasPool
      simp only [if_true, reduceCtorEq, if_false, Nat.add_zero] at hbal
      omega
    refine run_of_write (.withdraw sponsor contract amt hc he (Bank.send_spec hb).1) ?_
    simp [Chain.book, State.poolBalance, Op.events, hpool]

theorem execAll_run (s : State) (ops : List Op) (events : List Event) :
    Book.Run Ok (Chain.book ⟨time, s, events⟩)
      (Chain.book ⟨time, s.execAll ops, events ++ s.opEvents ops⟩) := by
  induction ops generalizing s events with
  | nil => exact run_of_eq (by simp [State.execAll, State.opEvents])
  | cons op ops ih =>
    rw [State.execAll, State.opEvents]
    cases hexec : s.exec op with
    | none => exact ih s events
    | some s₁ =>
      have hrest := ih s₁ (events ++ op.events)
      rw [List.append_assoc] at hrest
      exact (exec_run hexec).trans hrest

theorem charges_of_charge {sender : Bytes} {toAddr : Option Bytes} {fee : Nat} {path : Path}
    (h : s.Charge time sender toAddr fee path s') (events : List Event) :
    (Chain.book ⟨time, s, events⟩).Charges path sender toAddr fee s'.counters s'.escrows := by
  cases h with
  | dapp contract hto hcovers =>
    subst hto
    exact .dapp sender contract fee hcovers.2.2
  | escrow contract hto hdapp hcovers =>
    subst hto
    exact .escrow sender contract fee hcovers
  | baseline happ hcovers => exact .baseline sender toAddr fee (s.held sender) hcovers.2
  | onboarding happ hbase hcovers => exact .onboarding sender toAddr fee hcovers.1 hcovers.2.2

/-- A path other than the escrow covers the fee. -/
def State.PoolPays (s : State) (time : Nat) (sender : Bytes) (toAddr : Option Bytes) (fee : Nat) :
    Prop :=
  s.params.enabled = true ∧ fee ≠ 0
    ∧ ((∃ contract ∈ toAddr, s.DappCovers time contract fee)
      ∨ (∀ contract ∈ toAddr, ¬ s.escrows.Covers contract fee)
        ∧ (s.BaselineCovers time sender fee ∨ s.OnboardingCovers time sender fee))

instance (s : State) (time : Nat) (sender : Bytes) (toAddr : Option Bytes) (fee : Nat) :
    Decidable (s.PoolPays time sender toAddr fee) :=
  inferInstanceAs (Decidable (_ ∧ _ ∧ (_ ∨ _ ∧ _)))

theorem poolPays_of_charge {sender : Bytes} {toAddr : Option Bytes} {fee : Nat} {path : Path}
    (h : s.isSponsored time sender toAddr fee = some (path, s')) (hpath : path ≠ .escrow) :
    s.PoolPays time sender toAddr fee := by
  obtain ⟨hen, hfee, hcharge⟩ := State.charge_of_isSponsored h
  refine ⟨hen, hfee, ?_⟩
  cases hcharge with
  | dapp contract hto hcovers => exact .inl ⟨contract, hto, hcovers⟩
  | escrow => exact absurd rfl hpath
  | baseline happ hcovers => exact .inr ⟨fun contract hto => (happ contract hto).2, .inl hcovers⟩
  | onboarding happ _ hcovers => exact .inr ⟨fun contract hto => (happ contract hto).2, .inr hcovers⟩

variable {env : Env} {tx : EthTx} {out : Outcome} {path : Option Path}

theorem anteHandle_run (h : s.anteHandle env true time tx = some (path, s'))
    (hok : s.PoolPays time tx.sender tx.toAddr (tx.gas * env.gasPrice tx) →
      Ok (Chain.book ⟨time, s, events⟩) (tx.gas * env.gasPrice tx)) :
    Book.Run Ok (Chain.book ⟨time, s, events⟩)
      (Chain.book ⟨time, s', events ++ paidEvents time env tx path⟩) := by
  obtain ⟨hparams, ⟨rfl, hcounters, hescrows, hpool⟩ | ⟨p, s₁, rfl, hspons, hcounters, hescrows, hpool⟩⟩
    := State.anteHandle_cases h
  · apply run_of_eq
    simp [Chain.book, paidEvents, hparams, hcounters, hescrows, hpool]
  · obtain ⟨-, -, hcharge⟩ := State.charge_of_isSponsored hspons
    refine run_of_write (.pay p tx.sender tx.toAddr (tx.gas * env.gasPrice tx) s₁.counters s₁.escrows
      (charges_of_charge hcharge events) ?_ fun hp => hok (poolPays_of_charge hspons hp)) ?_
    · show _ ≤ s.poolBalance
      omega
    · have hpool' : s'.poolBalance = s.poolBalance - tx.gas * env.gasPrice tx := by omega
      simp [Chain.book, paidEvents, hparams, hcounters, hescrows, hpool']

theorem refundGas_run {leftoverGas : Nat} (h : s.refundGas env tx leftoverGas = some s')
    (hflag : s.txSponsored = path.isSome) :
    Book.Run Ok (Chain.book ⟨time, s, events⟩)
      (Chain.book ⟨time, s', events ++ refundEvents env tx path leftoverGas⟩) := by
  obtain ⟨b, rfl, hbal, -, -⟩ := State.refundGas_spec h
  have hpool := hbal .gasPool nofun
  rw [hflag] at hpool
  cases path with
  | none =>
    apply run_of_eq
    simp only [payer, Option.isSome_none, Bool.false_eq_true, if_false, reduceCtorEq,
      Nat.add_zero] at hpool
    simp [Chain.book, State.poolBalance, refundEvents, hpool]
  | some p =>
    simp only [payer, Option.isSome_some, if_true] at hpool
    refine run_of_write (.refund p tx.toAddr (leftoverGas * env.gasPrice tx)) ?_
    simp [Chain.book, State.poolBalance, refundEvents, hpool]

/-- The flag the ante handler stores is still there when the refund is paid. -/
theorem txSponsored_execAll (h : s.anteHandle env true time tx = some (path, s')) (ops : List Op) :
    (s'.execAll ops).txSponsored = path.isSome := by
  obtain ⟨-, -, fee, -, rfl, hconsume⟩ := State.anteHandle_eq_some.mp h
  obtain ⟨-, -, b, -, hnonce⟩ := State.consumeFees_eq_some.mp hconsume
  obtain ⟨-, -, rfl⟩ := State.incrementNonce_eq_some.mp hnonce
  rw [(State.execAll_frame _ ops).1, State.decideSponsor_frame]

theorem deliver_run (hok : s.PoolPays time tx.sender tx.toAddr (tx.gas * env.gasPrice tx) →
      Ok (Chain.book ⟨time, s, events⟩) (tx.gas * env.gasPrice tx)) :
    Book.Run Ok (Chain.book ⟨time, s, events⟩)
      (Chain.book ⟨time, (s.deliver time env tx out).1,
        events ++ (s.deliver time env tx out).2⟩) := by
  unfold State.deliver
  cases hante : s.anteHandle env true time tx with
  | none => exact run_of_eq (by simp)
  | some r =>
    obtain ⟨path, s₁⟩ := r
    have hpaid := anteHandle_run hante hok
    cases happly : s₁.applyTransaction env tx out with
    | none => simpa only [happly] using hpaid
    | some r =>
      obtain ⟨gasUsed, s₂⟩ := r
      obtain ⟨-, -, hrefund⟩ := State.applyTransaction_eq_some.mp happly
      have hall := hpaid.trans ((execAll_run s₁ out.committed _).trans
        (refundGas_run hrefund (txSponsored_execAll hante out.committed)))
      simpa only [happly, List.append_assoc] using hall

theorem refill_run (h : s.refill time = some s') :
    Book.Run Ok (Chain.book ⟨time, s, events⟩) (Chain.book ⟨time, s', events
      ++ if s.refillAmount time = 0 then []
        else [Event.minted (day time) (s.refillAmount time) s'.poolBalance]⟩) := by
  obtain ⟨hzero, rfl⟩ | ⟨hmint, b, rfl, hpool, -⟩ := State.refill_spec h
  · exact run_of_eq (by simp [hzero])
  · obtain ⟨htarget, hday⟩ := State.refillAmount_spec hmint
    refine run_of_write (.mint (s.refillAmount time) htarget hday) ?_
    simp [Chain.book, State.poolBalance, State.setMintedToday, State.mintedToday, hmint, hpool]

theorem beginBlock_spec {provisions : Nat} {allocates : Bool} {added : List Event}
    (h : s.beginBlock time provisions allocates = some (s', added)) :
    ∃ s₁ s₂ b, { s with bank := s.bank.credit .feeCollector provisions }.squeezeBeginBlock = some s₁
      ∧ s₁.refill time = some s₂ ∧ s' = { s₂ with bank := b }
      ∧ (added = if s₁.refillAmount time = 0 then []
        else [Event.minted (day time) (s₁.refillAmount time) s₂.poolBalance])
      ∧ b.balance .gasPool = s₂.poolBalance
      ∧ ∀ addr, b.balance (.user addr) = s₂.bank.balance (.user addr) := by
  unfold State.beginBlock at h
  simp only [Option.bind_eq_bind, Option.bind_eq_some_iff] at h
  obtain ⟨s₁, hsqueeze, s₂, hrefill, hrest⟩ := h
  cases allocates with
  | false =>
    cases hrest
    exact ⟨s₁, s', s'.bank, hsqueeze, hrefill, rfl, rfl, rfl, fun _ => rfl⟩
  | true =>
    simp only [if_true, Option.bind_eq_some_iff, Option.pure_def] at hrest
    obtain ⟨b, hsend, heq⟩ := hrest
    cases heq
    refine ⟨s₁, s₂, b, hsqueeze, hrefill, rfl, rfl, poolBalance_send hsend nofun nofun, fun addr => ?_⟩
    simpa using (Bank.send_spec hsend).2.1 (.user addr)

theorem beginBlock_run {time₀ provisions : Nat} {allocates : Bool} {added : List Event}
    (hle : time₀ ≤ time) (h : s.beginBlock time provisions allocates = some (s', added)) :
    Book.Run Ok (Chain.book ⟨time₀, s, events⟩) (Chain.book ⟨time, s', events ++ added⟩) := by
  obtain ⟨s₁, s₂, b', hsqueeze, hrefill, rfl, rfl, hpool', -⟩ := beginBlock_spec h
  obtain ⟨b, rfl, hpool, -⟩ := State.squeezeBeginBlock_spec hsqueeze
  have htick : Book.Write Ok (Chain.book ⟨time₀, s, events⟩) (Chain.book ⟨time, s, events⟩) :=
    .tick time hle
  have hin : Book.Write Ok (Chain.book ⟨time, s, events⟩)
      (Chain.book ⟨time, { s with bank := b }, events⟩) := by
    refine .inflow (b.balance .gasPool) ?_
    show s.bank.balance .gasPool ≤ _
    simpa using hpool
  have hmint := ((Relation.ReflTransGen.single htick).tail hin).trans (refill_run hrefill)
  -- what x/distribution allocates is not in the book
  refine hmint.trans (run_of_eq ?_)
  simp only [Chain.book]
  rw [State.poolBalance, hpool']

/-- **Steps are writes.** The restriction on fees is one on what a delivered transaction finds. -/
theorem Chain.step_run {c c' : Chain} {a : Action} (h : c.step a = some c')
    (hok : ∀ env tx out, a = .deliver env tx out →
      c.state.PoolPays c.time tx.sender tx.toAddr (tx.gas * env.gasPrice tx) →
      Ok c.book (tx.gas * env.gasPrice tx)) : Book.Run Ok c.book c'.book := by
  cases a with
  | beginBlock time provisions allocates =>
    unfold step at h
    simp only at h
    split_ifs at h with hlt
    obtain ⟨⟨s', added⟩, hbegin, rfl⟩ := Option.map_eq_some_iff.mp h
    exact beginBlock_run (Nat.not_lt.mp hlt) hbegin
  | endBlock =>
    cases h
    exact run_of_eq (by simp [book, State.poolBalance])
  | deliver env tx out =>
    cases h
    exact deliver_run (hok env tx out rfl)
  | message op =>
    cases h
    exact execAll_run c.state [op] c.events
  | cosmosFee src amt =>
    cases h
    apply run_of_eq
    cases hsend : c.state.bank.send (.user src) .feeCollector amt with
    | none => simp [book]
    | some b => simp [book, State.poolBalance, poolBalance_send hsend nofun nofun]
  | setShowcase contract app =>
    cases h
    exact .refl

/-- **Runs are runs of writes.** -/
theorem Chain.runs_run {allow : Allow} {c c' : Chain} (h : Runs allow c c')
    (hok : ∀ c env tx out, allow c (.deliver env tx out) →
      c.state.PoolPays c.time tx.sender tx.toAddr (tx.gas * env.gasPrice tx) →
      Ok c.book (tx.gas * env.gasPrice tx)) : Book.Run Ok c.book c'.book := by
  induction h with
  | refl => exact .refl
  | tail _ hstep ih =>
    obtain ⟨a, hallow, hstep⟩ := hstep
    exact ih.trans (step_run hstep fun env tx out ha => hok _ env tx out (ha ▸ hallow))

theorem Chain.exists_runs {allow : Allow} [∀ c a, Decidable (allow c a)] {c : Chain}
    (actions : List Action) {P : Chain → Prop} [DecidablePred P]
    (h : (Reach.play allow step c actions).any (fun c' => P c') = true) :
    ∃ c', Runs allow c c' ∧ P c' := Reach.exists_run actions h

end Writes

end GasSponsor
