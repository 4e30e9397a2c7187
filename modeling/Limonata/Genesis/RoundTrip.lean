import Limonata.Contest.Keeper
import Limonata.GasSponsor.Escrow
import Limonata.NetCap.Window
import Limonata.ValGrant.Clawback

/-!
# Export and import of the modules' state

`ExportGenesis` and `InitGenesis` of x/valgrant, x/sponsorpool, x/contest, x/gassponsor and x/netcap,
with accounts, bank and staking carried over as they are. Each module exports its params; x/valgrant
adds the grants and x/contest the showcase. The other keyspaces come back empty: pending clawbacks,
escrows and contributions, the leaderboard with its marks and its flag, the counters of sponsored fees
and the windows of the net-seller cap. A round trip is lossless exactly when none of them holds
anything that a later operation would read.
-/

open EncMempool (Bytes bytesOf)

/-! ## The modules -/

namespace ValGrant

structure GenesisState where
  admin : Bytes
  grants : List Grant

namespace State

def exportGenesis (s : State) : GenesisState := ⟨s.admin, s.grants.entries⟩

/-- The module's store is built afresh beside the accounts, the bank and the staking state of `s`. -/
def initGenesis (s : State) (gs : GenesisState) : State :=
  { s with
    admin := gs.admin
    grants := gs.grants.foldl RecStore.put RecStore.empty
    pendings := RecStore.empty }

/-- The records that the end of a block sweeps. -/
def swept (E : Env) (ctx : Ctx) (s : State) : List PendingClawback :=
  s.pendings.entries.filter (matured E ctx.blockTime)

end State

end ValGrant

namespace GasSponsor

/-- x/sponsorpool: the genesis state is its params. -/
def Escrows.initGenesis (params : EscrowParams) : Escrows := ⟨params, RecStore.empty, RecStore.empty⟩

/-- x/gassponsor: the genesis state is its params. The fresh store has no counters. -/
def State.initGenesis (s : State) (params : Params) : State :=
  { s with
    params
    counters := ⟨RecStore.empty, RecStore.empty, RecStore.empty, RecStore.empty, RecStore.empty⟩ }

end GasSponsor

namespace Contest

structure GenesisState where
  params : Params
  showcase : List ShowcaseApp

namespace State

def exportGenesis (s : State) : GenesisState := ⟨s.params, s.showcase.entries⟩

def initGenesis (gs : GenesisState) : State where
  params := gs.params
  showcase := gs.showcase.foldl RecStore.put RecStore.empty
  devStats := RecStore.empty
  testerPoints := RecStore.empty
  dailyUAW := RecStore.empty
  snapshotDone := false

end State

end Contest

namespace NetCap

/-- The genesis state is the params. -/
def State.initGenesis (params : Params) : State := ⟨params, RecStore.empty⟩

end NetCap

namespace Genesis

/-! ## The application -/

/-- The modules side by side, each with its view of the chain. -/
structure App where
  valgrant : ValGrant.Chain
  /-- x/gassponsor and x/sponsorpool. -/
  sponsor : GasSponsor.Chain
  contest : Contest.Chain
  netcap : NetCap.Ledger

namespace App

/-- `InitGenesis` of what `ExportGenesis` wrote. -/
def exportImport (n : App) : App where
  valgrant :=
    { n.valgrant with state := n.valgrant.state.initGenesis n.valgrant.state.exportGenesis }
  sponsor :=
    { n.sponsor with
      state := { n.sponsor.state.initGenesis n.sponsor.state.params with
        escrows := .initGenesis n.sponsor.state.escrows.params } }
  contest := { n.contest with state := .initGenesis n.contest.state.exportGenesis }
  netcap := { n.netcap with state := .initGenesis n.netcap.state.params }

/-! ## Obligations -/

/-- Every pending clawback that was to be swept in some block still is. -/
def KeepsClawbacks (n : App) : Prop :=
  ∀ E ctx, ∀ pc ∈ n.valgrant.state.swept E ctx, pc ∈ n.exportImport.valgrant.state.swept E ctx

/-- Every sponsor can still withdraw what it could. -/
def KeepsWithdrawals (n : App) : Prop :=
  ∀ sponsor contract amt r,
    GasSponsor.Escrows.withdraw n.sponsor.state.bank n.sponsor.state.escrows sponsor contract amt
      = .ok r →
    ∃ r', GasSponsor.Escrows.withdraw n.exportImport.sponsor.state.bank
      n.exportImport.sponsor.state.escrows sponsor contract amt = .ok r'

/-- The leaderboard and its frozen flag are the same. -/
def KeepsLeaderboard (n : App) : Prop :=
  n.exportImport.contest.state.devStats = n.contest.state.devStats
    ∧ n.exportImport.contest.state.testerPoints = n.contest.state.testerPoints
    ∧ n.exportImport.contest.state.snapshotDone = n.contest.state.snapshotDone

/-- No account has more left of its onboarding grant, of its daily budget today or later, or of its
net-seller window at any later block time. -/
def KeepsBudgets (n : App) : Prop :=
  (∀ sender, n.sponsor.state.onboardingUsed sender
      ≤ n.exportImport.sponsor.state.onboardingUsed sender)
    ∧ (∀ d sender, GasSponsor.day n.sponsor.time ≤ d →
      n.sponsor.state.allowanceUsed d sender ≤ n.exportImport.sponsor.state.allowanceUsed d sender)
    ∧ ∀ now addr, n.netcap.now ≤ now →
      (n.netcap.state.currentWindow now addr).spent
        ≤ (n.exportImport.netcap.state.currentWindow now addr).spent

structure Lossless (n : App) : Prop where
  clawbacks : n.KeepsClawbacks
  withdrawals : n.KeepsWithdrawals
  leaderboard : n.KeepsLeaderboard
  budgets : n.KeepsBudgets

/-- Nothing waits in the keyspaces that the exports leave out. -/
structure Settled (n : App) : Prop where
  noClawback : n.valgrant.state.pendings.entries = []
  /-- No contribution to an escrow that still has coins, unless the gas pool has none. -/
  noDeposit : ∀ sponsor contract, n.sponsor.state.escrows.contributionOf sponsor contract = 0
    ∨ n.sponsor.state.escrows.escrowOf contract = 0 ∨ n.sponsor.state.poolBalance = 0
  noScore : n.contest.state.devStats.entries = [] ∧ n.contest.state.testerPoints.entries = []
  notFrozen : n.contest.state.snapshotDone = false
  noOnboarding : ∀ sender, n.sponsor.state.onboardingUsed sender = 0
  noAllowance : ∀ d sender, GasSponsor.day n.sponsor.time ≤ d →
    n.sponsor.state.allowanceUsed d sender = 0
  noWindow : ∀ addr, n.netcap.state.restarts n.netcap.now addr
    ∨ (n.netcap.state.getSpend addr).spent ≤ 0

/-! ## Each obligation is kept when there is none -/

theorem keepsClawbacks_iff (n : App) :
    n.KeepsClawbacks ↔ n.valgrant.state.pendings.entries = [] := by
  constructor
  · intro h
    by_contra hne
    obtain ⟨pc, hpc⟩ := List.exists_mem_of_ne_nil _ hne
    -- some block is late enough for the record
    obtain ⟨now, hnow⟩ : ∃ now : Int, ∀ e ∈ pc.entries, ValGrant.ofUnix e.completionUnix ≤ now := by
      induction pc.entries with
      | nil => exact ⟨0, by simp⟩
      | cons e es ih =>
        obtain ⟨now, hnow⟩ := ih
        refine ⟨max now (ValGrant.ofUnix e.completionUnix), ?_⟩
        exact List.forall_mem_cons.mpr ⟨le_max_right _ _, fun e he => (hnow e he).trans (le_max_left _ _)⟩
    have hswept := h ⟨fun _ => true, fun _ => false, []⟩ ⟨0, now, 0, 0⟩ pc
      (List.mem_filter.mpr ⟨hpc, by simpa [ValGrant.State.matured] using hnow⟩)
    exact absurd (List.mem_filter.mp hswept).1 (List.not_mem_nil)
  · intro h E ctx pc hpc
    rw [ValGrant.State.swept, h] at hpc
    exact absurd hpc (List.not_mem_nil)

theorem keepsWithdrawals_iff (n : App) :
    n.KeepsWithdrawals ↔
      ∀ sponsor contract, n.sponsor.state.escrows.contributionOf sponsor contract = 0
        ∨ n.sponsor.state.escrows.escrowOf contract = 0 ∨ n.sponsor.state.poolBalance = 0 := by
  constructor
  · intro h sponsor contract
    by_contra hnot
    push Not at hnot
    obtain ⟨hcontribution, hescrow, hpool⟩ := hnot
    -- a withdrawal of one coin goes through before and fails afterwards
    have hspendable : 1 ≤ n.sponsor.state.bank.spendable .gasPool := Nat.one_le_iff_ne_zero.mpr hpool
    have hsend : (n.sponsor.state.bank.send .gasPool (.user sponsor) 1).isSome = true :=
      GasSponsor.Bank.send_isSome.mpr hspendable
    obtain ⟨b, hb⟩ := Option.isSome_iff_exists.mp hsend
    obtain ⟨⟨b', e'⟩, hr⟩ := h sponsor contract 1 (b, _) (GasSponsor.Escrows.withdraw_eq_ok.mpr
      ⟨Nat.one_ne_zero, Nat.one_le_iff_ne_zero.mpr hcontribution,
        Nat.one_le_iff_ne_zero.mpr hescrow, hb, rfl⟩)
    have hle : 1 ≤ 0 := (GasSponsor.Escrows.withdraw_eq_ok.mp hr).2.1
    omega
  · intro h sponsor contract amt r hr
    obtain ⟨b, e⟩ := r
    obtain ⟨hamt, hcontribution, hescrow, hb, -⟩ := GasSponsor.Escrows.withdraw_eq_ok.mp hr
    have hpool : amt ≤ n.sponsor.state.poolBalance := (GasSponsor.Bank.send_spec hb).1
    rcases h sponsor contract with hzero | hzero | hzero <;> omega

theorem keepsLeaderboard_iff (n : App) :
    n.KeepsLeaderboard ↔
      (n.contest.state.devStats.entries = [] ∧ n.contest.state.testerPoints.entries = [])
        ∧ n.contest.state.snapshotDone = false := by
  have hempty : ∀ {K V : Type} [LinearOrder K] (s : KVStore K V),
      RecStore.empty = s ↔ s.entries = [] := by
    intro K V _ s
    constructor
    · rintro rfl
      rfl
    · intro h
      apply RecStore.ext_get?
      intro k
      simp [RecStore.get?, h]
  constructor
  · rintro ⟨hdev, htester, hdone⟩
    exact ⟨⟨(hempty _).mp hdev, (hempty _).mp htester⟩, hdone.symm⟩
  · rintro ⟨⟨hdev, htester⟩, hdone⟩
    exact ⟨(hempty _).mpr hdev, (hempty _).mpr htester, hdone.symm⟩

theorem restarts_mono {s : NetCap.State} {now now' : Int} {addr : Bytes} (hle : now ≤ now')
    (h : s.restarts now addr) : s.restarts now' addr := by
  rcases h with hzero | hexpired
  · exact .inl hzero
  · exact .inr (by omega)

theorem spent_initGenesis (p : NetCap.Params) (now : Int) (addr : Bytes) :
    ((NetCap.State.initGenesis p).currentWindow now addr).spent = 0 := by
  have hrestarts : (NetCap.State.initGenesis p).restarts now addr := .inl rfl
  rw [NetCap.State.currentWindow, if_pos hrestarts]

theorem keepsBudgets_iff (n : App) :
    n.KeepsBudgets ↔
      (∀ sender, n.sponsor.state.onboardingUsed sender = 0)
        ∧ (∀ d sender, GasSponsor.day n.sponsor.time ≤ d →
          n.sponsor.state.allowanceUsed d sender = 0)
        ∧ ∀ addr, n.netcap.state.restarts n.netcap.now addr
          ∨ (n.netcap.state.getSpend addr).spent ≤ 0 := by
  constructor
  · rintro ⟨honboarding, hallowance, hwindow⟩
    refine ⟨fun sender => ?_, fun d sender hd => ?_, fun addr => ?_⟩
    · exact Nat.le_zero.mp (honboarding sender)
    · exact Nat.le_zero.mp (hallowance d sender hd)
    · by_cases hrestarts : n.netcap.state.restarts n.netcap.now addr
      · exact .inl hrestarts
      · have hle := hwindow n.netcap.now addr le_rfl
        rw [NetCap.State.currentWindow, if_neg hrestarts] at hle
        exact .inr (hle.trans (spent_initGenesis _ _ _).le)
  · rintro ⟨honboarding, hallowance, hwindow⟩
    refine ⟨fun sender => ?_, fun d sender hd => ?_, fun now addr hnow => ?_⟩
    · rw [honboarding]
      exact Nat.zero_le _
    · rw [hallowance d sender hd]
      exact Nat.zero_le _
    · refine le_trans ?_ (spent_initGenesis n.netcap.state.params now addr).ge
      rw [NetCap.State.currentWindow]
      split_ifs with hrestarts
      · exact le_rfl
      · rcases hwindow addr with hold | hspent
        · exact absurd (restarts_mono hnow hold) hrestarts
        · exact hspent

/-- The round trip loses no obligation exactly when none waits in the keyspaces left out. -/
theorem lossless_iff_settled (n : App) : n.Lossless ↔ n.Settled := by
  constructor
  · rintro ⟨hclawbacks, hwithdrawals, hleaderboard, hbudgets⟩
    obtain ⟨hscore, hfrozen⟩ := n.keepsLeaderboard_iff.mp hleaderboard
    obtain ⟨honboarding, hallowance, hwindow⟩ := n.keepsBudgets_iff.mp hbudgets
    exact ⟨n.keepsClawbacks_iff.mp hclawbacks, n.keepsWithdrawals_iff.mp hwithdrawals, hscore,
      hfrozen, honboarding, hallowance, hwindow⟩
  · rintro ⟨hclawback, hdeposit, hscore, hfrozen, honboarding, hallowance, hwindow⟩
    exact ⟨n.keepsClawbacks_iff.mpr hclawback, n.keepsWithdrawals_iff.mpr hdeposit,
      n.keepsLeaderboard_iff.mpr ⟨hscore, hfrozen⟩,
      n.keepsBudgets_iff.mpr ⟨honboarding, hallowance, hwindow⟩⟩

/-! ## A round trip that loses everything -/

/-- Every module is in a state that its runs reach. -/
structure Reachable (n : App) : Prop where
  valgrant : ∃ E, ValGrant.Chain.Reachable E (fun _ _ _ => True) n.valgrant
  sponsor : ∃ time s, s = { s.initGenesis s.params with escrows := .initGenesis s.escrows.params }
    ∧ GasSponsor.Chain.Runs GasSponsor.Chain.Any (GasSponsor.Chain.start time s) n.sponsor
  contest : ∃ govAddr time gs, Contest.Chain.Runs govAddr ⟨time, .initGenesis gs⟩ n.contest
  netcap : ∃ p now, p.validate = .ok ()
    ∧ NetCap.Ledger.Runs NetCap.Ledger.Follows (NetCap.Ledger.start p now) n.netcap

/-- A contest with one approved app, over at the second 100000. -/
def contestGenesis : Contest.GenesisState where
  params := ⟨100000, some 1000, some 1000, 1, 1, some 1, 10, [], false⟩
  showcase := [⟨bytesOf "0xapp", bytesOf "dev", bytesOf "evm", true⟩]

/-- A call to the app. -/
def contestCall : Contest.Action :=
  .postHandle true [⟨some (bytesOf "0xapp"), bytesOf "0xuser"⟩]

/-- A grant that is being clawed back, a deposit of a sponsor, a call to an app of the showcase, a fee
paid from a daily budget and a sale under the net-seller cap are all forgotten. -/
theorem exportImport_loses :
    ∃ n : App, n.Reachable ∧ ¬ n.KeepsClawbacks ∧ ¬ n.KeepsWithdrawals ∧ ¬ n.KeepsLeaderboard
      ∧ ¬ n.KeepsBudgets := by
  obtain ⟨v, hv, hpending⟩ : ∃ v, ValGrant.Chain.Reachable ValGrant.Sample.env (fun _ _ _ => True) v
      ∧ v.state.pendings.entries ≠ [] :=
    ValGrant.Chain.exists_reachable (fun _ _ _ => True) ValGrant.Sample.genesis_genesis
      ValGrant.Sample.bonded (by decide +kernel)
  obtain ⟨g, hg, hcontribution, hescrow, hpool, hallowance⟩ :
      ∃ g, GasSponsor.Chain.Runs GasSponsor.Chain.Any
          (GasSponsor.Chain.start 0 (GasSponsor.Sample.state (10 ^ 18) (2 * 10 ^ 18))) g
        ∧ g.state.escrows.contributionOf GasSponsor.Sample.alice GasSponsor.Sample.app ≠ 0
        ∧ g.state.escrows.escrowOf GasSponsor.Sample.app ≠ 0
        ∧ g.state.poolBalance ≠ 0
        ∧ g.state.allowanceUsed (GasSponsor.day g.time) GasSponsor.Sample.alice ≠ 0 :=
    GasSponsor.Chain.exists_runs
      [GasSponsor.Sample.deposit 600000,
        GasSponsor.Sample.transfer GasSponsor.Sample.alice GasSponsor.Sample.bob 0 5]
      (by decide +kernel)
  obtain ⟨c, hc, hscore⟩ : ∃ c, Contest.Chain.Runs [] ⟨0, .initGenesis contestGenesis⟩ c
      ∧ c.state.devStats.entries ≠ [] :=
    Reach.exists_run [(10, contestCall), (10, .endBlock)] (by decide +kernel)
  obtain ⟨l, hl, hwindow⟩ : ∃ l, NetCap.Ledger.Runs NetCap.Ledger.Follows
        (NetCap.Ledger.start NetCap.Ledger.teamParams 1000) l
      ∧ ¬ (l.state.restarts l.now NetCap.Ledger.team
        ∨ (l.state.getSpend NetCap.Ledger.team).spent ≤ 0) :=
    Reach.exists_run [NetCap.Ledger.sells 1000 400] (by decide +kernel)
  refine ⟨⟨v, g, c, l⟩, ⟨⟨_, hv⟩, ⟨_, _, rfl, hg⟩, ⟨_, _, _, hc⟩, ⟨_, _, rfl, hl⟩⟩, ?_, ?_, ?_, ?_⟩
  · intro h
    exact hpending ((keepsClawbacks_iff _).mp h)
  · intro h
    rcases (keepsWithdrawals_iff _).mp h GasSponsor.Sample.alice GasSponsor.Sample.app with
      hzero | hzero | hzero
    · exact hcontribution hzero
    · exact hescrow hzero
    · exact hpool hzero
  · intro h
    exact hscore ((keepsLeaderboard_iff _).mp h).1.1
  · intro h
    exact hwindow (((keepsBudgets_iff _).mp h).2.2 NetCap.Ledger.team)

end App

end Genesis
