import Limonata.GasSponsor.Budgets

/-!
# Holding as a gate

With a uniform daily budget an account is paid for while it holds the minimum. A set of accounts holds
the minimum as many times as its coins divide by it, and that many budgets is what the gate lets them
have, as long as no account of the set comes to hold the minimum during the day. Coins that are moved
from an account that has used its budget to one that has not are counted once more.
-/

namespace GasSponsor

open EncMempool (Bytes bytesOf)

/-! ## What accounts receive -/

/-- What an operation pays an account. -/
def Op.received (addr : Bytes) : Op → Nat
  | .transfer _ dst amt => if dst = addr then amt else 0
  | .fromModule dst amt => if dst = addr then amt else 0
  | .withdraw sponsor _ amt => if sponsor = addr then amt else 0
  | _ => 0

/-- The operations of an action. -/
def Action.ops : Action → List Op
  | .deliver _ _ out => out.committed
  | .message op => [op]
  | _ => []

/-- What the operations of an action pay an account. -/
def Action.received (a : Action) (addr : Bytes) : Nat := (a.ops.map (Op.received addr)).sum

/-- The operation pays an account of a set out of an account of the set, if it pays one. -/
def Op.Within (A : Finset Bytes) : Op → Prop
  | .transfer src dst _ => dst ∈ A → src ∈ A
  | .fromModule dst _ => dst ∉ A
  | .withdraw sponsor _ _ => sponsor ∉ A
  | _ => True

instance (A : Finset Bytes) : DecidablePred (Op.Within A)
  | .transfer src dst _ => inferInstanceAs (Decidable (dst ∈ A → src ∈ A))
  | .fromModule dst _ => inferInstanceAs (Decidable (dst ∉ A))
  | .withdraw sponsor _ _ => inferInstanceAs (Decidable (sponsor ∉ A))
  | .toModule .. | .lock .. | .deposit .. | .setCode .. => .isTrue trivial

namespace State

variable {s s' : State}

theorem held_send {b : Bank} {src dst : Account} {amt : Nat} (h : s.bank.send src dst amt = some b)
    (addr : Bytes) :
    b.balance (.user addr) ≤ s.bank.balance (.user addr) + if dst = .user addr then amt else 0 := by
  have hbal := (Bank.send_spec h).2.1 (.user addr)
  rw [if_congr (eq_comm (a := dst)) rfl rfl]
  omega

theorem held_exec {op : Op} (h : s.exec op = some s') (addr : Bytes) :
    s'.held addr ≤ s.held addr + op.received addr := by
  cases op with
  | transfer src dst amt | toModule src amt | fromModule dst amt =>
    obtain ⟨b, hb, rfl⟩ := Option.map_eq_some_iff.mp h
    simpa [Op.received, held] using held_send hb addr
  | lock _ amt | setCode _ code =>
    cases h
    exact Nat.le_add_right _ _
  | deposit payer sponsor contract amt =>
    obtain ⟨⟨b, e⟩, hdep, rfl⟩ := Option.map_eq_some_iff.mp h
    obtain ⟨-, hb, rfl⟩ := Escrows.depositFrom_eq_ok.mp (Check.toOption_eq_some.mp hdep)
    simpa [Op.received, held] using held_send hb addr
  | withdraw sponsor contract amt =>
    obtain ⟨⟨b, e⟩, hwd, rfl⟩ := Option.map_eq_some_iff.mp h
    obtain ⟨-, -, -, hb, rfl⟩ := Escrows.withdraw_eq_ok.mp (Check.toOption_eq_some.mp hwd)
    simpa [Op.received, held] using held_send hb addr

theorem held_execAll (s : State) (ops : List Op) (addr : Bytes) :
    (s.execAll ops).held addr ≤ s.held addr + (ops.map (Op.received addr)).sum := by
  induction ops generalizing s with
  | nil => exact le_rfl
  | cons op ops ih =>
    rw [execAll, List.map_cons, List.sum_cons]
    cases hexec : s.exec op with
    | none =>
      have hrest := ih s
      rw [Option.getD_none]
      omega
    | some s₁ =>
      have hrest := ih s₁
      have hop := held_exec hexec addr
      rw [Option.getD_some]
      omega

/-- A transaction brings its sender nothing of its own fee. -/
theorem held_deliver (s : State) (time : Nat) (env : Env) (tx : EthTx) (out : Outcome) (addr : Bytes) :
    (s.deliver time env tx out).1.held addr
      ≤ s.held addr + (out.committed.map (Op.received addr)).sum := by
  unfold deliver
  cases hante : s.anteHandle env true time tx with
  | none => exact Nat.le_add_right _ _
  | some r =>
    obtain ⟨path, s₁⟩ := r
    obtain ⟨fee, -, hded, -, -⟩ := anteHandle_bank hante
    have hante' : s₁.held addr ≤ s.held addr := by
      have h := hded (.user addr) nofun
      unfold held
      omega
    cases happly : s₁.applyTransaction env tx out with
    | none => simpa only [happly] using hante'.trans (Nat.le_add_right _ _)
    | some r =>
      obtain ⟨gasUsed, s₂⟩ := r
      simp only [happly]
      have hsettled := feeSettled hante happly
      have hfee := hsettled.deducted (.user addr) nofun
      have hback := hsettled.refunded (.user addr) nofun
      have hexec := s₁.held_execAll out.committed addr
      have hnet := hsettled.fee_eq
      unfold held at hexec ⊢
      split_ifs at hfee hback <;> omega

end State

theorem Chain.held_step {c c' : Chain} {a : Action} (h : c.step a = some c') (addr : Bytes) :
    c'.state.held addr ≤ c.state.held addr + a.received addr := by
  cases a with
  | beginBlock time provisions allocates =>
    unfold step at h
    simp only at h
    split_ifs at h with hlt
    obtain ⟨⟨s', added⟩, hbegin, rfl⟩ := Option.map_eq_some_iff.mp h
    obtain ⟨s₁, s₂, b', hsqueeze, hrefill, rfl, -, -, huser'⟩ := beginBlock_spec hbegin
    obtain ⟨b, rfl, -, huser⟩ := State.squeezeBeginBlock_spec hsqueeze
    have hheld : s₂.bank.balance (.user addr) = c.state.bank.balance (.user addr) := by
      obtain ⟨-, rfl⟩ | ⟨-, b₂, rfl, -, hmint⟩ := State.refill_spec hrefill
      · simpa using huser addr
      · show b₂.balance (.user addr) = _
        simpa using (hmint addr).trans (huser addr)
    show b'.balance (.user addr) ≤ _
    rw [huser', hheld]
    exact Nat.le_add_right _ _
  | endBlock =>
    cases h
    simp [State.held, Action.received, Action.ops]
  | deliver env tx out =>
    cases h
    exact c.state.held_deliver c.time env tx out addr
  | message op =>
    cases h
    exact c.state.held_execAll [op] addr
  | cosmosFee src amt =>
    cases h
    cases hsend : c.state.bank.send (.user src) .feeCollector amt with
    | none => exact Nat.le_add_right _ _
    | some b =>
      have hheld := State.held_send hsend addr
      simpa [State.held] using hheld.trans (Nat.le_add_right _ _)
  | setShowcase contract app =>
    cases h
    exact Nat.le_add_right _ _

/-! ## Who is paid for -/

/-- What the pool paid out of the daily budgets of a set of accounts on a day. -/
def baselineSpent (A : Finset Bytes) (d : Nat) (events : List Event) : Nat :=
  ∑ addr ∈ A, charged (baselineLog events) (toLex (d, addr))

/-- **No account is lifted over the minimum.** An account of the set that holds less than the minimum
is paid less than what it lacks. -/
def Chain.NoLift (A : Finset Bytes) (minimum : Int) : Chain.Allow := fun c a =>
  ∀ addr ∈ A, minimum ≤ c.state.held addr
    ∨ ((c.state.held addr + a.received addr : Nat) : Int) < minimum

instance (A : Finset Bytes) (minimum : Int) (c : Chain) (a : Action) :
    Decidable (Chain.NoLift A minimum c a) := inferInstanceAs (Decidable (∀ addr ∈ A, _ ∨ _))

/-- The set is paid nothing from outside. -/
def Chain.Closed (A : Finset Bytes) : Chain.Allow := fun _ a => ∀ op ∈ a.ops, op.Within A

instance (A : Finset Bytes) (c : Chain) (a : Action) : Decidable (Chain.Closed A c a) :=
  inferInstanceAs (Decidable (∀ op ∈ a.ops, op.Within A))

theorem baselineLog_filter (events : List Event) :
    baselineLog (events.filter Event.isPaid) = baselineLog events := by
  unfold baselineLog
  rw [List.filterMap_filter]
  congr 1
  funext ev
  cases ev <;> rfl

/-- A step adds nothing to the budget of an account that does not have one. -/
theorem Chain.charged_step {c c' : Chain} {a : Action} (h : c.step a = some c') (d : Nat)
    (addr : Bytes) :
    charged (baselineLog c'.events) (toLex (d, addr)) = charged (baselineLog c.events) (toLex (d, addr))
      ∨ 0 < effectiveAllowance c.state.params (c.state.held addr) := by
  -- only the payment of a delivered transaction can be in the log
  have hadd : ∀ added : List Event, added.filter Event.isPaid = [] →
      charged (baselineLog (c.events ++ added)) (toLex (d, addr))
        = charged (baselineLog c.events) (toLex (d, addr)) := by
    intro added hnone
    rw [baselineLog, List.filterMap_append, charged_append, ← baselineLog, ← baselineLog,
      ← baselineLog_filter added, hnone]
    rfl
  cases a with
  | beginBlock time provisions allocates =>
    unfold step at h
    simp only at h
    split_ifs at h with hlt
    obtain ⟨⟨s', added⟩, hbegin, rfl⟩ := Option.map_eq_some_iff.mp h
    obtain ⟨s₁, s₂, b, -, -, -, rfl, -⟩ := beginBlock_spec hbegin
    refine .inl (hadd _ ?_)
    split_ifs <;> rfl
  | deliver env tx out =>
    cases h
    cases chargedOnce c.state c.time env tx out with
    | rejected hdeliver => exact .inl (hadd _ (by rw [hdeliver]; rfl))
    | senderPays s₁ hante _ _ _ hevents => exact .inl (hadd _ hevents)
    | sponsored path s₁ s₂ hante hcharge _ _ _ hevents =>
      rw [baselineLog, List.filterMap_append, charged_append, ← baselineLog, ← baselineLog,
        ← baselineLog_filter (State.deliver _ _ _ _ _).2, hevents]
      cases hcharge with
      | baseline happ hcovers =>
        by_cases hsender : tx.sender = addr
        · subst hsender
          exact .inr hcovers.1
        · refine .inl ?_
          have hne : (toLex (day c.time, tx.sender) : Nat ×ₗ Bytes) ≠ toLex (d, addr) :=
            fun heq => hsender (congrArg Prod.snd (toLex.injective heq))
          simp [baselineLog, charged_singleton, hne]
      | _ => exact .inl rfl
  | message op =>
    cases h
    exact .inl (hadd _ (filter_isPaid_opEvents c.state [op]))
  | endBlock | cosmosFee src amt | setShowcase contract app => cases h; exact .inl rfl

/-! ## The gate -/

section Gate

variable {p : Params} {budget minimum : Int}

theorem effectiveAllowance_uniform (hbudget : positive p.dailyBudget = some budget)
    (hmin : positive p.holdMinimum = some minimum) (held : Nat) :
    effectiveAllowance p held ≤ budget ∧ (0 < effectiveAllowance p held → minimum ≤ held) := by
  have hpos := (State.mem_positive.mp hbudget).2
  simp only [effectiveAllowance, hbudget, hmin, Option.getD_some]
  split_ifs with h
  · exact ⟨le_rfl, fun _ => h.2⟩
  · exact ⟨hpos.le, fun h => absurd h (lt_irrefl _)⟩

namespace Chain

variable {A : Finset Bytes} {time : Nat} {s : State} {c : Chain}

/-- In a run that lifts no account over the minimum, who holds it and who was paid for held it at the
start. -/
theorem held_of_noLift (hbudget : positive s.params.dailyBudget = some budget)
    (hmin : positive s.params.holdMinimum = some minimum)
    (hrun : Runs (NoLift A minimum) (start time s) c) :
    c.state.params = s.params ∧ ∀ addr ∈ A, (minimum ≤ c.state.held addr → minimum ≤ s.held addr)
      ∧ ∀ d, charged (baselineLog c.events) (toLex (d, addr)) ≠ 0 → minimum ≤ s.held addr := by
  refine Reach.run_keeps (I := fun c : Chain => c.state.params = s.params ∧ ∀ addr ∈ A,
    (minimum ≤ c.state.held addr → minimum ≤ s.held addr)
      ∧ ∀ d, charged (baselineLog c.events) (toLex (d, addr)) ≠ 0 → minimum ≤ s.held addr)
    ?_ hrun ⟨rfl, fun addr _ => ⟨id, fun d h => absurd rfl h⟩⟩
  rintro c c' ⟨a, hlift, hstep⟩ ⟨hparams, hkeeps⟩
  have hbook : Book.Run (fun _ _ => True) c.book c'.book :=
    step_run hstep fun _ _ _ _ _ => trivial
  refine ⟨hbook.params_eq.trans hparams, fun addr haddr => ?_⟩
  obtain ⟨hheld, hpaid⟩ := hkeeps addr haddr
  have hstep' := held_step hstep addr
  refine ⟨fun hc' => ?_, fun d hd => ?_⟩
  · -- below the minimum before the step, it would be below it after
    rcases hlift addr haddr with h | h
    · exact hheld h
    · omega
  · rcases charged_step hstep d addr with hsame | hallow
    · exact hpaid d (hsame ▸ hd)
    · rw [hparams] at hallow
      exact hheld ((effectiveAllowance_uniform hbudget hmin _).2 hallow)

/-- **The gate.** As long as no account of the set comes to hold the minimum, the pool pays for the set
at most as many daily budgets as the coins the set holds at the start divide by the minimum. -/
theorem hold_gate_bounds_day (hbudget : positive s.params.dailyBudget = some budget)
    (hmin : positive s.params.holdMinimum = some minimum)
    (hrun : Runs (NoLift A minimum) (start time s) c) (d : Nat) :
    (baselineSpent A d c.events : Int) ≤ budget * ((∑ addr ∈ A, s.held addr : Nat) / minimum) := by
  have hpos := (State.mem_positive.mp hmin).2
  have hbudget0 := (State.mem_positive.mp hbudget).2
  obtain ⟨hparams, hkeeps⟩ := held_of_noLift hbudget hmin hrun
  -- each account is paid for up to its budget
  have hbook : Book.Run (fun _ _ => True) (start time s).book c.book :=
    runs_run hrun fun _ _ _ _ _ _ => trivial
  have hacc : c.book.Accounted := Reach.run_keeps (I := Book.Accounted)
    (fun _ _ hw h => h.write hw) hbook (Book.accounted_nil rfl)
  have heach : ∀ addr, (charged (baselineLog c.events) (toLex (d, addr)) : Int) ≤ budget := by
    intro addr
    obtain ⟨held, hle⟩ := hacc.baseline.within (toLex (d, addr))
    rw [hbook.params_eq] at hle
    exact hle.trans (effectiveAllowance_uniform hbudget hmin held).1
  -- and only those are that held the minimum at the start
  let E := A.filter fun addr => minimum ≤ s.held addr
  have hsum : baselineSpent A d c.events = ∑ addr ∈ E, charged (baselineLog c.events) (toLex (d, addr)) := by
    refine (Finset.sum_subset (Finset.filter_subset _ _) fun addr haddr hnot => ?_).symm
    by_contra hne
    exact hnot (Finset.mem_filter.mpr ⟨haddr, (hkeeps addr haddr).2 d hne⟩)
  have hspent : (baselineSpent A d c.events : Int) ≤ E.card * budget := by
    rw [hsum, Nat.cast_sum]
    calc ∑ addr ∈ E, (charged (baselineLog c.events) (toLex (d, addr)) : Int)
        ≤ E.card • budget := Finset.sum_le_card_nsmul E _ budget fun addr _ => heach addr
      _ = E.card * budget := nsmul_eq_mul _ _
  have hcoins : (E.card : Int) * minimum ≤ (∑ addr ∈ A, s.held addr : Nat) := by
    calc (E.card : Int) * minimum = E.card • minimum := (nsmul_eq_mul _ _).symm
      _ ≤ ∑ addr ∈ E, (s.held addr : Int) :=
        Finset.card_nsmul_le_sum E _ minimum fun addr haddr => (Finset.mem_filter.mp haddr).2
      _ ≤ ∑ addr ∈ A, (s.held addr : Int) :=
        Finset.sum_le_sum_of_subset_of_nonneg (Finset.filter_subset _ _)
          fun addr _ _ => Int.natCast_nonneg _
      _ = (∑ addr ∈ A, s.held addr : Nat) := (Nat.cast_sum _ _).symm
  have hcard : (E.card : Int) ≤ (∑ addr ∈ A, s.held addr : Nat) / minimum :=
    (Int.le_ediv_iff_mul_le hpos).mpr hcoins
  calc (baselineSpent A d c.events : Int) ≤ E.card * budget := hspent
    _ = budget * E.card := mul_comm _ _
    _ ≤ _ := mul_le_mul_of_nonneg_left hcard hbudget0.le

end Chain

end Gate

namespace Sample

/-- A daily budget of one transfer for those who hold a coin; no dApps, no escrows, no onboarding. -/
def gateState : State :=
  { state (10 ^ 18) (10 ^ 18) with
    params := { params with dailyBudget := some 600000, onboardingGrant := none } }

end Sample

open Sample

/-- A transfer that leaves the other account below the minimum, and one that it then cannot have
sponsored: one budget is paid. -/
theorem hold_gate_bounds_day_dust :
    ∃ c, Chain.Runs (Chain.NoLift {alice, bob} (10 ^ 18))
        (Chain.start 0 gateState) c
      ∧ baselineSpent {alice, bob} 0 c.events = 600000
      ∧ (baselineSpent {alice, bob} 0 c.events : Int)
        ≤ 600000 * ((∑ addr ∈ {alice, bob}, gateState.held addr : Nat) / 10 ^ 18) := by
  have hreach : ∃ c, Chain.Runs (Chain.NoLift {alice, bob} (10 ^ 18))
      (Chain.start 0 gateState) c
      ∧ baselineSpent {alice, bob} 0 c.events = 600000 :=
    Chain.exists_runs [transfer alice bob 0 (10 ^ 17),
      transfer bob alice 0 0] (by decide +kernel)
  obtain ⟨c, hrun, hspent⟩ := hreach
  exact ⟨c, hrun, hspent, Chain.hold_gate_bounds_day (by decide +kernel) (by decide +kernel) hrun 0⟩

/-- **The same coin, twice.** One account has its transfer sponsored and sends the coin it holds to the
other, which then has its own sponsored: two budgets are paid for accounts that hold one minimum and
are paid nothing from outside. -/
theorem coin_reused_for_budget :
    positive gateState.params.dailyBudget = some 600000
      ∧ positive gateState.params.holdMinimum = some (10 ^ 18)
      ∧ (∀ contract, gateState.showcase contract = none)
      ∧ gateState.escrows.backing = 0
      ∧ positive gateState.params.onboardingGrant = none
      ∧ ∃ c, Chain.Runs (Chain.Closed {alice, bob}) (Chain.start 0 gateState) c
        ∧ c.time = 0
        ∧ (600000 * ((∑ addr ∈ {alice, bob}, gateState.held addr : Nat)
            / 10 ^ 18) : Int)
          < baselineSpent {alice, bob} 0 c.events := by
  refine ⟨by decide +kernel, by decide +kernel, fun _ => rfl, rfl, rfl, ?_⟩
  exact Chain.exists_runs [transfer alice bob 0 (10 ^ 18),
    transfer bob alice 0 (10 ^ 18)] (by decide +kernel)

end GasSponsor
