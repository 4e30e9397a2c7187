import Limonata.Vm.Mirroring

/-!
# precompiles/valgrant — grants without a balance handler

The valgrant precompile has no balance handler: what its actions do to balances goes to the cached
multistore only. That is all there is to it for an account that the transaction does not touch otherwise.
A state object of the same account knows nothing of it, whether it was loaded before or is loaded from the
context later, and a commit writes the object over what the action did.
-/

namespace Vm

/-- A send of x/bank that leaves what is locked as it is. -/
structure Send where
  sender : Address
  recipient : Address
  amount : Nat

/-- The calls of the valgrant precompile that move coins. A clawback first undelegates, which moves
`staking` between the pools of x/staking and pays rewards, and then sweeps what is in the account. -/
inductive GrantCall where
  | issueGrant (grantee : Address) (lockedAmount gasAllowance : Nat)
  | clawback (grantee : Address) (staking : List Send) (sweep : Nat)
  | burnPool (amount : Nat)

namespace GrantCall

def send (w : World) (s : Send) : List BankOp :=
  [.spend s.sender s.amount (w.lockedCoins s.sender),
    .receive s.recipient s.amount (w.lockedCoins s.recipient)]

/-- The bank operations of a call in order. `IssueGrant` makes an account with the principal locked;
`Clawback` makes it an ordinary one before it sweeps. -/
def bankOps (pool : Address) (w : World) : GrantCall → List BankOp
  | issueGrant grantee lockedAmount gasAllowance =>
    [.spend pool lockedAmount 0, .receive grantee lockedAmount lockedAmount,
      .spend pool gasAllowance 0, .receive grantee gasAllowance lockedAmount]
  | clawback grantee staking sweep =>
    staking.flatMap (send w) ++ [.spend grantee sweep 0, .receive pool sweep 0]
  | burnPool amount => [.spend pool amount 0]

end GrantCall

namespace Db

variable {ctx w : World} {blocked : Address → Bool} {events : List Event} {s : StateDB Record}
  {policy : Policy} {nested : ActRel} {s₀ s₁ : Inner} {pool : Address} {ops : List BankOp}

/-- The action of a call. -/
def granted (pool : Address) (s : Inner) (call : GrantCall) : Inner :=
  (call.bankOps pool s.db.cache.current).foldl (fun s op => banked s false op) s

/-- Bank operations each of which has its coins. -/
def Funded (ops : List BankOp) (ledger : Ledger) : Prop :=
  match ops with
  | [] => True
  | op :: rest =>
    op.event.Covered ledger ∧ Ledger.Fits (op.event.settle ledger)
      ∧ Funded rest (op.event.settle ledger)

/-- The ledger after bank operations. -/
def settleAll (ops : List BankOp) (ledger : Ledger) : Ledger :=
  ops.foldl (fun ledger op => op.event.settle ledger) ledger

variable (s₁) in
theorem banked_eq (handler : Bool) {op : BankOp} (h : op.event.Covered s₁.db.cache.current.balance) :
    (banked s₁ handler op).db.cache.current.balance = op.event.settle s₁.db.cache.current.balance
      ∧ (banked s₁ handler op).journal = s₁.journal
      ∧ (banked s₁ handler op).record = s₁.record.bank handler op := by
  unfold banked BankOp.apply
  rw [if_pos h]
  exact ⟨congrArg World.balance (CacheStack.current_modify ..), rfl, rfl⟩

theorem nativeRun_foldl (hpolicy : ∀ s : Inner, s.journal = s₁.journal → ∀ op ∈ ops,
      policy.bank false s.db s.journal s.record op)
    (h : NativeRun blocked policy false nested s₀ s₁)
    (hfunded : Funded ops s₁.db.cache.current.balance) :
    NativeRun blocked policy false nested s₀ (ops.foldl (fun s op => banked s false op) s₁)
      ∧ (ops.foldl (fun s op => banked s false op) s₁).journal = s₁.journal
      ∧ (ops.foldl (fun s op => banked s false op) s₁).record.ledger
        = settleAll ops s₁.record.ledger := by
  induction ops generalizing s₁ with
  | nil => exact ⟨h, rfl, rfl⟩
  | cons op rest ih =>
    obtain ⟨hcovered, hfits, hrest⟩ := hfunded
    obtain ⟨hbalance, hjournal, hrecord⟩ := banked_eq s₁ false hcovered
    have hstep := nativeRun_banked op h (hpolicy s₁ rfl op List.mem_cons_self) hcovered hfits
    obtain ⟨hrun, hjournal', hledger⟩ := ih
      (fun s hs op hop => hpolicy s (hs.trans hjournal) op (List.mem_cons_of_mem _ hop)) hstep
      (hbalance ▸ hrest)
    refine ⟨hrun, hjournal'.trans hjournal, hledger.trans ?_⟩
    rw [hrecord]
    rfl

theorem transacts_granted {s' : StateDB Record} {db₀ : Db} {es₀ : List JournalEntry} (pool : Address)
    (call : GrantCall)
    (hpolicy : ∀ s' : Inner, s'.journal = (entered blocked s).journal →
      ∀ op ∈ call.bankOps pool (entered blocked s).db.cache.current,
        policy.bank false s'.db s'.journal s'.record op)
    (hrun : Transacts blocked policy s' s) (henters : policy.enters false)
    (henter : s.state.enterPrecompile blocked s.journal = some (db₀, es₀, true))
    (hfunded : Funded (call.bankOps pool (entered blocked s).db.cache.current)
      (entered blocked s).db.cache.current.balance) :
    Transacts blocked policy s' (left blocked false s (granted pool (entered blocked s) call))
      ∧ (left blocked false s (granted pool (entered blocked s) call)).record.ledger
        = settleAll (call.bankOps pool (entered blocked s).db.cache.current) s.record.ledger := by
  have hentered : entered blocked s = ⟨db₀, es₀ ++ s.journal, s.record⟩ := by
    unfold entered
    rw [henter]
  obtain ⟨hnative, hjournal, hledger⟩ := nativeRun_foldl hpolicy
    (.refl : NativeRun blocked policy false (Nested (actsTo blocked policy 0)) _ _) hfunded
  have hevents : db₀.events.length = s.state.events.length := by
    obtain ⟨-, w, processed, counter, rfl, -, -⟩ :=
      enterPrecompile_cases ⟨false, fun w => (w, [], true)⟩ henter
    simp [called]
  refine ⟨transacts_left 0 es₀ hrun henters henter hnative hevents rfl ?_, hledger.trans ?_⟩
  · refine hjournal.trans ?_
    rw [hentered]
  · rw [hentered]

/-- **The valgrant precompile conserves funds** in every transaction, with calls of it and of other
precompiles, whose moves and bank operations are exact: an account whose coins such a call moves is not
dirty before, and nothing touches it later. A commit then writes the ledger; in particular what a call
does to accounts that are not dirty is there if the transaction ends with it. -/
theorem grants_conserve (hfits : Ledger.Fits ctx.balance)
    (hrun : Transacts blocked (exactPolicy blocked fun _ => True) (begins ctx events) s) :
    (∀ w, s.state.commit blocked s.journal = some (w, true) →
      ∀ addr, w.balance addr = s.record.ledger addr)
    ∧ ∀ pool call db₀ es₀ w, s.state.enterPrecompile blocked s.journal = some (db₀, es₀, true) →
      (∀ op ∈ GrantCall.bankOps pool db₀.cache.current call, ¬ Dirty s.journal op.addr) →
      Funded (call.bankOps pool db₀.cache.current) s.record.ledger →
      (left blocked false s (granted pool (entered blocked s) call)).state.commit blocked
        (left blocked false s (granted pool (entered blocked s) call)).journal = some (w, true) →
      ∀ addr, w.balance addr = settleAll (call.bankOps pool db₀.cache.current) s.record.ledger addr := by
  have hcommit : ∀ {s w}, Transacts blocked (exactPolicy blocked fun _ => True) (begins ctx events) s →
      s.state.commit blocked s.journal = some (w, true) →
      ∀ addr, w.balance addr = s.record.ledger addr := by
    intro s w hrun hcommit
    have hsynced := executes_spec.discipline.invariant rfl (synced_begins hfits) hrun
    exact hsynced.commit hcommit
  refine ⟨fun w => hcommit hrun, fun pool call db₀ es₀ w henter hclean hfunded hdone => ?_⟩
  have hsynced := executes_spec.discipline.invariant rfl (synced_begins hfits) hrun
  have hacting := hsynced.enter false henter
  have hentered : entered blocked s = ⟨db₀, es₀ ++ s.journal, s.record⟩ := by
    unfold entered
    rw [henter]
  have hbalance : db₀.cache.current.balance = s.record.ledger := funext hacting.balance
  have hstore : (entered blocked s).db.cache.current = db₀.cache.current := by rw [hentered]
  have hexact : ∀ s' : Inner, s'.journal = (entered blocked s).journal →
      ∀ op ∈ call.bankOps pool (entered blocked s).db.cache.current,
        op.Exact blocked false s'.db s'.journal s'.record := by
    intro s' hjournal op hop hdirty
    rw [hstore] at hop
    rw [hjournal, hentered] at hdirty
    -- the entry of the call dirties nothing
    obtain ⟨rfl, -⟩ := enterPrecompile_cases ⟨false, fun w => (w, [], true)⟩ henter
    exact hclean op hop ((dirty_cons_of_ne fun he => (by cases he)).mp hdirty)
  have hfunded' : Funded (call.bankOps pool (entered blocked s).db.cache.current)
      (entered blocked s).db.cache.current.balance := by
    rw [hstore, hbalance]
    exact hfunded
  obtain ⟨hrun', hledger⟩ := transacts_granted pool call hexact hrun trivial henter hfunded'
  rw [hstore] at hledger
  rw [← hledger]
  exact hcommit hrun' hdone

/-! ## An admin, a grantee and the pool -/

/-- The admin at address 1 has 10 coins, the grantee at address 2 has 20 coins, all of them locked, and
the pool at address 3 has 50. -/
def founded : World where
  auth addr := if addr = 1 then some ⟨0, 0⟩ else if addr = 2 then some ⟨0, 20⟩
    else if addr = 3 then some ⟨0, 0⟩ else none
  balance := Ledger.credit (Ledger.credit (Ledger.credit (fun _ => 0) 1 10) 2 20) 3 50
  supply := 80
  codeHash _ := none
  code _ := none
  storage _ _ := none
  other _ := none

theorem sum_credits (a b c : Address) (x y z : Nat) :
    ∑ addr, Ledger.credit (Ledger.credit (Ledger.credit (fun _ => 0) a x) b y) c z addr = x + y + z := by
  rw [Ledger.sum_credit, Ledger.sum_credit, Ledger.sum_credit, Finset.sum_const_zero, Nat.zero_add]

theorem fits_founded : Ledger.Fits founded.balance := by
  have hsum : ∑ addr, founded.balance addr = 10 + 20 + 50 := sum_credits 1 2 3 10 20 50
  unfold Ledger.Fits
  rw [hsum]
  norm_num

/-- The admin issues a grant of 5 coins and 2 for gas to address 4. -/
def issue : GrantCall := .issueGrant 4 5 2

theorem funded_issue {ledger : Ledger} (hfits : ledger.Fits) (hpool : ledger 3 = 50) (hnew : ledger 4 = 0) :
    Funded (issue.bankOps 3 w) ledger := by
  have hfirst : Ledger.Fits ((ledger.debit 3 5).credit 4 5) := hfits.move (by omega)
  have hpool' : (ledger.debit 3 5).credit 4 5 3 = 45 := by
    rw [Ledger.credit_of_ne (by decide), Ledger.debit_self, hpool]
  have hnew' : ledger.debit 3 5 4 = 0 := by rw [Ledger.debit_of_ne (by decide), hnew]
  have hgrantee : ((ledger.debit 3 5).credit 4 5).debit 3 2 4 = 5 := by
    rw [Ledger.debit_of_ne (by decide), Ledger.credit_self, hnew']
  refine ⟨?_, hfits.debit, ?_, hfirst, ?_, hfirst.debit, ?_, hfirst.move ?_, trivial⟩
  · show 5 ≤ ledger 3
    omega
  · show ledger.debit 3 5 4 + 5 < 2 ^ 256
    rw [hnew']
    norm_num
  · show 2 ≤ (ledger.debit 3 5).credit 4 5 3
    omega
  · show ((ledger.debit 3 5).credit 4 5).debit 3 2 4 + 2 < 2 ^ 256
    rw [hgrantee]
    norm_num
  · omega

/-- The grant is all there after the commit. -/
theorem grants_conserve_issue :
    ∃ w, (left (fun _ => false) false (begins founded [])
          (granted 3 (entered (fun _ => false) (begins founded [])) issue)).state.commit (fun _ => false)
        (left (fun _ => false) false (begins founded [])
          (granted 3 (entered (fun _ => false) (begins founded [])) issue)).journal = some (w, true)
      ∧ w.balance 4 = 7 := by
  refine ⟨_, rfl, ?_⟩
  have hclean : ∀ addr, ¬ Dirty (begins founded []).journal addr := fun addr ⟨e, he, _⟩ => List.not_mem_nil he
  have hrun : Transacts (fun _ => false) (exactPolicy (fun _ => false) fun _ => True) (begins founded [])
      (begins founded []) := .refl
  exact (grants_conserve fits_founded hrun).2 3 issue _ _ _ rfl (fun op _ => hclean op.addr)
    (funded_issue fits_founded rfl rfl) rfl 4

/-- No restrictions. -/
def anything : Policy where
  move _ _ _ := True
  enters _ := True
  bank _ _ _ _ _ := True
  calls _ _ := True

/-- The admin sends the grantee a coin. -/
def tipped : StateDB Record := moved (begins founded []) (.transfer 1 2 1)

/-- The grant of 20 is clawed back. -/
def clawed : StateDB Record :=
  left (fun _ => false) false tipped (granted 3 (entered (fun _ => false) tipped) (.clawback 2 [] 20))

/-- A grant is issued to address 4, and the admin sends it a coin. -/
def topped : StateDB Record :=
  moved (left (fun _ => false) false (begins founded [])
    (granted 3 (entered (fun _ => false) (begins founded [])) issue)) (.transfer 1 4 1)

/-- **What the precompile loses.** A clawback of the grant after a coin was sent to the grantee is undone
by the commit: the grantee has 21 coins instead of 1, and the pool has the 20 too. And of a grant of 5 and 2
for gas, followed by a coin to the grantee, the 2 for gas are lost. -/
theorem grants_lost :
    (∃ w, Transacts (fun _ => false) anything (begins founded []) clawed
      ∧ clawed.state.commit (fun _ => false) clawed.journal = some (w, true)
      ∧ clawed.record.ledger 2 = 1 ∧ w.balance 2 = 21 ∧ w.balance 3 = 70)
    ∧ ∃ w, Transacts (fun _ => false) anything (begins founded []) topped
      ∧ topped.state.commit (fun _ => false) topped.journal = some (w, true)
      ∧ topped.record.ledger 4 = 8 ∧ w.balance 4 = 6 := by
  refine ⟨⟨_, ?_, rfl, rfl, rfl, rfl⟩, _, ?_, rfl, rfl, rfl⟩
  · have htipped : Transacts (fun _ => false) anything (begins founded []) tipped :=
      transacts_moved _ .refl trivial trivial rfl
    have hbalance : (entered (fun _ => false) tipped).db.cache.current.balance
        = Ledger.credit (Ledger.debit founded.balance 1 1) 2 1 := rfl
    have hfits : Ledger.Fits (Ledger.credit (Ledger.debit founded.balance 1 1) 2 1) :=
      fits_founded.move (by decide)
    refine (transacts_granted 3 (.clawback 2 [] 20) (fun _ _ _ _ => trivial) htipped trivial rfl ?_).1
    rw [hbalance]
    exact ⟨by decide, hfits.debit, by decide, hfits.move (by decide), trivial⟩
  · refine transacts_moved _ ?_ trivial trivial rfl
    refine (transacts_granted 3 issue (fun _ _ _ _ => trivial) .refl trivial rfl ?_).1
    exact funded_issue fits_founded rfl rfl

end Db

end Vm
