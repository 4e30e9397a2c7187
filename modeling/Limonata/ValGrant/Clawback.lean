import Limonata.ValGrant.Keeper
import Limonata.Lib.Reach

/-!
# x/valgrant — what a clawback recovers

The runs of the module: its messages, the staking operations of the accounts and the ends of blocks,
in any order and at any times that do not decrease. Every action treats the grantees apart, so a run
is followed through the file of one of them: its grant, its pending record, its stake and what it has
sent to the pool.
-/

namespace ValGrant

open RecStore

open EncMempool (Bytes bytesOf)

variable {E : Env} {g : Bytes} {amount : Nat} {now : Int} {h h' : Holder} {us : List Unbonding}
  {pc : PendingClawback}

/-- What can happen to the state. -/
inductive Action where
  | issueLocked (signer grantee : Bytes) (lockedAmount gasAllowance : Option Int)
      (validatorOp : Bytes)
  | clawback (signer grantee : Bytes)
  | burnPool (signer amount : Bytes) (parsed : Option Int)
  | updateParams (authority admin : Bytes)
  | delegate (who validator : Bytes) (amount : Nat)
  | undelegate (who validator : Bytes) (amount : Nat)
  | redelegate (who src dst : Bytes) (amount : Nat)
  | cancelUnbonding (who : Bytes) (i amount : Nat)
  /-- Rewards and transfers to an account, which is created if need be. -/
  | receive (who : Bytes) (amount : Nat)
  | fundPool (amount : Nat)
  | endBlock

namespace State

/-- A failed message leaves the state as it was. -/
def orElse (s : State) : Except MsgError State → State
  | .ok s' => s'
  | .error _ => s

/-- A failed staking operation leaves the state as it was. -/
def withHolder (s : State) (who : Bytes) : Option Holder → State
  | some h => s.setHolder who h
  | none => s

def step (E : Env) (ctx : Ctx) (s : State) : Action → State
  | .issueLocked signer grantee locked gas op =>
    s.orElse (s.issueLocked E ctx signer grantee locked gas op)
  | .clawback signer grantee => s.orElse ((s.msgClawback E ctx signer grantee).map (·.state))
  | .burnPool signer amount parsed => s.orElse (s.burnPool E signer amount parsed)
  | .updateParams authority admin => s.orElse (s.updateParams E authority admin)
  | .delegate who v amount => s.withHolder who ((s.holders who).delegate v amount)
  | .undelegate who v amount =>
    s.withHolder who (((s.holders who).undelegate ctx v amount).map Prod.fst)
  | .redelegate who src dst amount => s.withHolder who ((s.holders who).redelegate src dst amount)
  | .cancelUnbonding who i amount =>
    s.withHolder who ((s.holders who).cancelUnbonding ctx i amount)
  | .receive who amount =>
    let h := s.holders who
    s.setHolder who
      { h with account := some (h.account.getD .base), balance := h.balance + amount }
  | .fundPool amount => { s with pool := s.pool + amount }
  | .endBlock => s.endBlock E ctx

/-- What an account has sent to the pool. -/
def moved (s : State) (who : Bytes) : Nat :=
  ((s.transfers.filter (fun t => t.1 = who)).map Prod.snd).sum

end State

/-- The state with the time of the last block, and the exact completion times of the unbondings each
clawback made. Nothing reads those; the record keeps them truncated. -/
structure Chain where
  time : Int
  state : State
  due : Bytes → List Int

/-- Which actions a run may take, by the chain and the block they are applied in. -/
abbrev Allow := Chain → Ctx → Action → Prop

namespace Chain

def dueAfter (E : Env) (ctx : Ctx) (c : Chain) : Action → Bytes → List Int
  | .clawback signer grantee =>
    match c.state.msgClawback E ctx signer grantee with
    | .ok r => Function.update c.due grantee (r.unbonded.map Unbonding.completionTime)
    | .error _ => c.due
  | _ => c.due

def step (E : Env) (ctx : Ctx) (c : Chain) (a : Action) : Chain :=
  ⟨ctx.blockTime, c.state.step E ctx a, c.dueAfter E ctx a⟩

/-- One allowed action, not before the time reached. -/
def Step (E : Env) (allow : Allow) (c c' : Chain) : Prop :=
  ∃ ctx a, c.time ≤ ctx.blockTime ∧ allow c ctx a ∧ c' = c.step E ctx a

/-- A chain before its first clawback: every grant is active and funded into an account. -/
structure Genesis (c : Chain) : Prop where
  pendings : ∀ g, c.state.pendings.get? g = none
  transfers : c.state.transfers = []
  grants : ∀ g gr, c.state.grants.get? g = some gr → gr.status = .active ∧ 0 ≤ gr.lockedAmount
    ∧ (c.state.holders g).account.isSome = true

/-- The chains of the allowed runs from a genesis. -/
def Reachable (E : Env) (allow : Allow) (c : Chain) : Prop :=
  ∃ c₀, Genesis c₀ ∧ Relation.ReflTransGen (Step E allow) c₀ c

/-- **Invariant rule.** What holds at genesis and every allowed action keeps holds in every
reachable chain. -/
theorem Reachable.invariant {allow : Allow} {c : Chain} {I : Chain → Prop}
    (hreach : Reachable E allow c) (hinit : ∀ c₀, Genesis c₀ → I c₀)
    (hstep : ∀ c ctx a, c.time ≤ ctx.blockTime → allow c ctx a → I c → I (c.step E ctx a)) :
    I c := by
  obtain ⟨c₀, hgenesis, hrun⟩ := hreach
  refine Reach.run_keeps ?_ hrun (hinit c₀ hgenesis)
  rintro c c' ⟨ctx, a, hle, hallow, rfl⟩ hc
  exact hstep c ctx a hle hallow hc

theorem Reachable.mono {allow allow' : Allow} {c : Chain} (h : Reachable E allow c)
    (hle : ∀ c ctx a, allow c ctx a → allow' c ctx a) : Reachable E allow' c := by
  obtain ⟨c₀, hgenesis, hrun⟩ := h
  refine ⟨c₀, hgenesis, Relation.ReflTransGen.mono ?_ _ _ hrun⟩
  rintro c c' ⟨ctx, a, htime, hallow, rfl⟩
  exact ⟨ctx, a, htime, hle c ctx a hallow, rfl⟩

/-- Run a schedule of actions, as long as it is allowed and its times do not decrease. -/
def play (E : Env) (allow : Allow) [∀ c ctx a, Decidable (allow c ctx a)] (c : Chain) :
    List (Ctx × Action) → Option Chain
  | [] => some c
  | (ctx, a) :: rest =>
    if c.time ≤ ctx.blockTime ∧ allow c ctx a then play E allow (c.step E ctx a) rest else none

theorem play_run {allow : Allow} [∀ c ctx a, Decidable (allow c ctx a)]
    {schedule : List (Ctx × Action)} {c c' : Chain} (h : play E allow c schedule = some c') :
    Relation.ReflTransGen (Step E allow) c c' := by
  induction schedule generalizing c with
  | nil =>
    cases h
    exact .refl
  | cons act rest ih =>
    obtain ⟨ctx, a⟩ := act
    simp only [play] at h
    split_ifs at h with hok
    exact .head ⟨ctx, a, hok.1, hok.2, rfl⟩ (ih h)

theorem exists_reachable (allow : Allow) [∀ c ctx a, Decidable (allow c ctx a)] {c₀ : Chain}
    (hgenesis : Genesis c₀) (schedule : List (Ctx × Action)) {P : Chain → Prop} [DecidablePred P]
    (hplay : (play E allow c₀ schedule).any (fun c => P c) = true) :
    ∃ c, Reachable E allow c ∧ P c := by
  obtain ⟨c, hc, hP⟩ := Option.any_eq_true _ _ |>.mp hplay
  exact ⟨c, ⟨c₀, hgenesis, play_run hc⟩, of_decide_eq_true hP⟩

end Chain

/-! ## The file of a grantee -/

/-- What the chain holds on one grantee. -/
structure File where
  grant : Option Grant
  pending : Option PendingClawback
  holder : Holder
  moved : Nat

namespace State

variable {E : Env} {ctx : Ctx} {s s' : State} {g who : Bytes}

def file (s : State) (g : Bytes) : File :=
  ⟨s.grants.get? g, s.pendings.get? g, s.holders g, s.moved g⟩

theorem file_setHolder (s : State) (who : Bytes) (h : Holder) (g : Bytes) :
    (s.setHolder who h).file g = if g = who then { s.file g with holder := h } else s.file g := by
  unfold file setHolder moved
  split_ifs with hg
  · subst hg
    simp
  · simp [Function.update_of_ne hg]

end State

/-- The kind of an account after `unlockAccount`. -/
def unlocked : Option AccountKind → Option AccountKind
  | some _ => some .base
  | none => none

theorem unlocked_ne (k : Option AccountKind) : unlocked k ≠ some .permanentLocked := by
  cases k <;> simp [unlocked]

/-- The file after its account is unlocked and up to `amount` of its balance is swept. -/
def File.sweep (f : File) (amount : Int) : File :=
  let n := (min amount f.holder.balance).toNat
  { f with
    holder :=
      { f.holder with account := unlocked f.holder.account, balance := f.holder.balance - n }
    moved := f.moved + n }

/-- The file after staking paid out the unbondings that completed. -/
def File.payOut (f : File) (now : Int) : File :=
  { f with holder := f.holder.completeUnbonding now }

namespace State

variable {E : Env} {ctx : Ctx} {s s' : State} {g who : Bytes}

theorem unlockAccount_eq (s : State) (grantee : Bytes) :
    s.unlockAccount grantee = s.setHolder grantee
      { s.holders grantee with account := unlocked (s.holders grantee).account } := by
  unfold unlockAccount
  cases hacc : (s.holders grantee).account with
  | none =>
    have hsame : ({ s.holders grantee with account := none } : Holder) = s.holders grantee := by
      rw [← hacc]
    simp [unlocked, hacc, setHolder, hsame]
  | some kind =>
    cases kind with
    | base =>
      have hsame : ({ s.holders grantee with account := some .base } : Holder)
          = s.holders grantee := by
        rw [← hacc]
      simp [unlocked, hacc, setHolder, hsame]
    | permanentLocked => simp [unlocked, hacc]

theorem file_of_send {who : Bytes} (h : s.sendCoinsFromAccountToModule who amount = some s')
    (g : Bytes) :
    s'.grants = s.grants ∧ s'.pendings = s.pendings
      ∧ s'.file g = if g = who then
          { s.file g with
            holder :=
              { (s.file g).holder with balance := (s.file g).holder.balance - amount }
            moved := (s.file g).moved + amount }
        else s.file g := by
  unfold sendCoinsFromAccountToModule at h
  simp only at h
  split_ifs at h with hbad
  cases h
  refine ⟨rfl, rfl, ?_⟩
  by_cases hg : g = who
  · subst hg
    simp [file, setHolder, moved]
  · simp [file, setHolder, moved, hg, Ne.symm hg]

theorem sweepPrincipal_spec (s : State) (grantee : Bytes) (amount : Int) :
    ∃ s', s.sweepPrincipal grantee amount
        = some (s', min amount ((s.holders grantee).balance : Int))
      ∧ s'.grants = s.grants ∧ s'.pendings = s.pendings
      ∧ ∀ g, s'.file g = if g = grantee then (s.file g).sweep amount else s.file g := by
  have hholder : (s.unlockAccount grantee).holders grantee
      = { s.holders grantee with account := unlocked (s.holders grantee).account } := by
    rw [unlockAccount_eq]
    simp [setHolder]
  have hfile : ∀ g, (s.unlockAccount grantee).file g = if g = grantee then
      { s.file g with
        holder := { s.holders grantee with account := unlocked (s.holders grantee).account } }
      else s.file g := by
    intro g
    rw [unlockAccount_eq, file_setHolder]
  have hstores : (s.unlockAccount grantee).grants = s.grants
      ∧ (s.unlockAccount grantee).pendings = s.pendings := by
    rw [unlockAccount_eq]
    exact ⟨rfl, rfl⟩
  unfold sweepPrincipal
  simp only [hholder]
  by_cases hpos : 0 < min amount ((s.holders grantee).balance : Int)
  · have hsend : ∃ s', (s.unlockAccount grantee).sendCoinsFromAccountToModule grantee
        (min amount ((s.holders grantee).balance : Int)).toNat = some s' := by
      have hle : ¬ (s.holders grantee).balance
          < (min amount ((s.holders grantee).balance : Int)).toNat := by omega
      simp [sendCoinsFromAccountToModule, hholder, unlocked_ne, hle]
    obtain ⟨s', hs'⟩ := hsend
    rw [if_pos hpos, hs']
    have hafter := file_of_send hs'
    refine ⟨s', rfl, (hafter grantee).1.trans hstores.1, (hafter grantee).2.1.trans hstores.2,
      fun g => ?_⟩
    rw [(hafter g).2.2, hfile]
    split_ifs with hg
    · subst hg
      rfl
    · rfl
  · rw [if_neg hpos]
    refine ⟨_, rfl, hstores.1, hstores.2, fun g => ?_⟩
    have hzero : (min amount ((s.holders grantee).balance : Int)).toNat = 0 := by omega
    rw [hfile]
    split_ifs with hg
    · subst hg
      simp [File.sweep, file, hzero]
    · rfl

end State

/-! ## Staking operations -/

namespace Holder

variable {ctx : Ctx} {h h' : Holder}

theorem delegate_spec {v : Bytes} (hd : h.delegate v amount = some h') :
    h'.account = h.account ∧ h'.unbondings = h.unbondings := by
  unfold delegate at hd
  split_ifs at hd
  cases hd
  exact ⟨rfl, rfl⟩

theorem undelegate_spec {v : Bytes} {u : Unbonding} (hd : h.undelegate ctx v amount = some (h', u)) :
    h'.account = h.account ∧ h'.balance = h.balance ∧ h'.unbondings = h.unbondings ++ [u]
      ∧ u.completionTime = ctx.blockTime + ctx.unbondingTime ∧ u.amount = amount := by
  unfold undelegate at hd
  cases hlook : h.delegations.lookup v with
  | none => simp [hlook] at hd
  | some bonded =>
    simp only [hlook] at hd
    split_ifs at hd
    cases hd
    exact ⟨rfl, rfl, rfl, rfl, rfl⟩

theorem redelegate_spec {src dst : Bytes} (hd : h.redelegate src dst amount = some h') :
    h'.account = h.account ∧ h'.unbondings = h.unbondings := by
  unfold redelegate at hd
  cases hlook : h.delegations.lookup src with
  | none => simp [hlook] at hd
  | some bonded =>
    simp only [hlook] at hd
    split_ifs at hd
    cases hd
    exact ⟨rfl, rfl⟩

theorem cancelUnbonding_account {i : Nat} (hd : h.cancelUnbonding ctx i amount = some h') :
    h'.account = h.account := by
  unfold cancelUnbonding at hd
  cases hget : h.unbondings[i]? with
  | none => simp [hget] at hd
  | some u =>
    simp only [hget] at hd
    split_ifs at hd <;> cases hd <;> rfl

end Holder

namespace State

variable {E : Env} {ctx : Ctx} {s s' : State} {g who : Bytes}

/-! ## What a clawback does -/

/-- Undelegating leaves the account and the balance, and adds entries that complete together and
hold what was listed. -/
theorem undelegateAll_spec {ds : List (Bytes × Nat)} (hun : undelegateAll ctx ds h = some (h', us)) :
    h'.account = h.account ∧ h'.balance = h.balance ∧ h'.unbondings = h.unbondings ++ us
      ∧ (∀ u ∈ us, u.completionTime = ctx.blockTime + ctx.unbondingTime)
      ∧ us.map Unbonding.amount = ds.map Prod.snd := by
  induction ds generalizing h us with
  | nil =>
    cases hun
    simp
  | cons d ds ih =>
    obtain ⟨validator, shares⟩ := d
    rw [undelegateAll] at hun
    cases hfirst : h.undelegate ctx validator shares with
    | none => simp [hfirst] at hun
    | some r =>
      obtain ⟨h₁, u⟩ := r
      simp only [hfirst, Option.map_eq_some_iff, Prod.mk.injEq] at hun
      obtain ⟨⟨h₂, us₁⟩, hrest, rfl, rfl⟩ := hun
      obtain ⟨hacc, hbal, hunb, hdue, hamt⟩ := ih hrest
      obtain ⟨hacc₁, hbal₁, hunb₁, hdue₁, hamt₁⟩ := Holder.undelegate_spec hfirst
      refine ⟨hacc.trans hacc₁, hbal.trans hbal₁, ?_, ?_, ?_⟩
      · rw [hunb, hunb₁, List.append_assoc]
        rfl
      · rw [List.forall_mem_cons]
        exact ⟨hdue₁, hdue⟩
      · rw [List.map_cons, List.map_cons, hamt₁, hamt]

theorem immediateSweep_spec (s : State) (grantee : Bytes) (h : Holder) (amount : Int) :
    ∃ s' n, (if 0 < amount then (s.setHolder grantee h).sweepPrincipal grantee amount
        else some (s.setHolder grantee h, 0)) = some (s', n)
      ∧ s'.grants = s.grants ∧ s'.pendings = s.pendings
      ∧ (∀ g, g ≠ grantee → s'.file g = s.file g)
      ∧ (s'.holders grantee).unbondings = h.unbondings
      ∧ (s'.holders grantee).delegations = h.delegations
      ∧ ((s'.holders grantee).account.isSome = h.account.isSome)
      ∧ (s'.moved grantee : Int) = s.moved grantee + max 0 (min amount h.balance) := by
  have hfile : ∀ g, (s.setHolder grantee h).file g = _ := file_setHolder s grantee h
  split_ifs with hpos
  · obtain ⟨s', hs', hgrants, hpendings, hafter⟩ :=
      sweepPrincipal_spec (s.setHolder grantee h) grantee amount
    have hself : s'.file grantee = ({ s.file grantee with holder := h } : File).sweep amount := by
      rw [hafter, if_pos rfl, hfile, if_pos rfl]
    refine ⟨s', _, hs', hgrants, hpendings, fun g hg => ?_, ?_, ?_, ?_, ?_⟩
    · rw [hafter, if_neg hg, hfile, if_neg hg]
    · exact congrArg (fun f : File => f.holder.unbondings) hself
    · exact congrArg (fun f : File => f.holder.delegations) hself
    · refine (congrArg (fun f : File => f.holder.account.isSome) hself).trans ?_
      show (unlocked h.account).isSome = h.account.isSome
      cases h.account <;> rfl
    · have hmoved : s'.moved grantee = s.moved grantee + (min amount (h.balance : Int)).toNat :=
        congrArg File.moved hself
      omega
  · refine ⟨_, _, rfl, rfl, rfl, fun g hg => ?_, ?_, ?_, ?_, ?_⟩
    · rw [hfile, if_neg hg]
    · simp [setHolder]
    · simp [setHolder]
    · simp [setHolder]
    · have hmoved : (s.setHolder grantee h).moved grantee = s.moved grantee := rfl
      omega

/-- The file after a clawback. -/
structure Clawed (ctx : Ctx) (f f' : File) (bonded : Nat) (us : List Unbonding) : Prop where
  active : ∃ gr, f.grant = some gr ∧ gr.status = .active
    ∧ f'.grant = some { gr with status := .revoked }
    ∧ (0 < min (bonded : Int) gr.lockedAmount → ∃ pc, f'.pending = some pc
      ∧ pc.sweepAmount = min (bonded : Int) gr.lockedAmount
      ∧ pc.entries.map PendingClawbackEntry.completionUnix
        = us.map (fun u => unix u.completionTime))
    ∧ (min (bonded : Int) gr.lockedAmount ≤ 0 → f'.pending = f.pending)
    ∧ (f'.moved : Int) = f.moved
      + max 0 (min (gr.lockedAmount - min (bonded : Int) gr.lockedAmount) f.holder.balance)
  account : f.holder.account.isSome = true → f'.holder.account.isSome = true
  unbondings : f'.holder.unbondings = f.holder.unbondings ++ us
  completion : ∀ u ∈ us, u.completionTime = ctx.blockTime + ctx.unbondingTime
  bonded : (us.map Unbonding.amount).sum = bonded

theorem clawback_spec {grantee : Bytes} {r : ClawbackResult}
    (h : s.clawback E ctx grantee = .ok r) :
    E.validAddr grantee = true ∧ (∀ g, g ≠ grantee → r.state.file g = s.file g)
      ∧ Clawed ctx (s.file grantee) (r.state.file grantee)
        (((s.holders grantee).delegations.entries.take maxRetrieve).map Prod.snd).sum
        r.unbonded := by
  unfold clawback at h
  split_ifs at h with hvalid
  cases hget : s.grants.get? grantee with
  | none => simp [hget] at h
  | some gr =>
    simp only [hget] at h
    split_ifs at h with hrevoked
    cases hun : undelegateAll ctx ((s.holders grantee).delegations.entries.take maxRetrieve)
      (s.holders grantee) with
    | none => simp [hun] at h
    | some res =>
      obtain ⟨h₁, us⟩ := res
      obtain ⟨hacc, hbal, hunb, hdue, hamt⟩ := undelegateAll_spec hun
      simp only [hun, hamt] at h
      generalize hbonded :
        (((s.holders grantee).delegations.entries.take maxRetrieve).map Prod.snd).sum = bonded at h ⊢
      obtain ⟨s₁, n, hs₁, hgrants, hpendings, hothers, hunb₁, -, hacc₁, hmoved₁⟩ :=
        immediateSweep_spec s grantee h₁ (gr.lockedAmount - min (bonded : Int) gr.lockedAmount)
      simp only [hs₁] at h
      cases h
      have hkey : gr.grantee = grantee := key_of_get? hget
      refine ⟨eq_true_of_ne_false hvalid, fun g hg => ?_, ⟨⟨gr, hget, ?_, ?_, ?_, ?_, ?_⟩, ?_, ?_, hdue, ?_⟩⟩
      · have hgr : (s₁.grants.put { gr with status := .revoked }).get? g = s₁.grants.get? g := by
          rw [get?_put, if_neg (by rw [hkey]; exact hg)]
        rw [← hothers g hg]
        simp only [file, hgr]
        split_ifs with hpos
        · rw [get?_put, if_neg hg]
          rfl
        · rfl
      · cases hstatus : gr.status with
        | active => rfl
        | revoked => exact absurd hstatus hrevoked
      · show RecStore.get? _ grantee = _
        rw [get?_put, if_pos hkey.symm]
      · intro hpos
        refine ⟨{ grantee, sweepAmount := min (bonded : Int) gr.lockedAmount, initiatedAt := unix ctx.blockTime,
                  entries := us.map fun u => ⟨u.validator, u.amount, unix u.completionTime⟩ },
          ?_, rfl, by simp [Function.comp_def]⟩
        show RecStore.get? (ite _ _ _) grantee = _
        rw [if_pos hpos]
        exact get?_put_self s₁.pendings _
      · intro hneg
        show RecStore.get? (ite _ _ _) grantee = _
        rw [if_neg (Int.not_lt.mpr hneg), hpendings]
        rfl
      · rw [hbal] at hmoved₁
        exact hmoved₁
      · intro hsome
        exact hacc₁.trans (hacc ▸ hsome)
      · exact hunb₁.trans hunb
      · rw [hamt, hbonded]

/-! ## What the end of a block does -/

theorem sweepClawback_file (s : State) (pc : PendingClawback) (g : Bytes) :
    (s.sweepClawback pc).file g = if g = pc.grantee then
      { (s.file g).sweep pc.sweepAmount with pending := none } else s.file g := by
  obtain ⟨s', hs', hgrants, hpendings, hfile⟩ := sweepPrincipal_spec s pc.grantee pc.sweepAmount
  simp only [sweepClawback, hs']
  have hdel : ({ s' with pendings := s'.pendings.del pc.grantee } : State).file g
      = { s'.file g with pending := (s'.pendings.del pc.grantee).get? g } := rfl
  rw [hdel, get?_del, hfile]
  split_ifs with hg
  · rfl
  · rw [hpendings]
    rfl

theorem foldl_sweepClawback_file_of_ne {pcs : List PendingClawback} (s : State)
    (hne : ∀ pc ∈ pcs, pc.grantee ≠ g) : (pcs.foldl sweepClawback s).file g = s.file g := by
  induction pcs generalizing s with
  | nil => rfl
  | cons pc pcs ih =>
    rw [List.forall_mem_cons] at hne
    rw [List.foldl_cons, ih _ hne.2, sweepClawback_file, if_neg (Ne.symm hne.1)]

/-- Records of distinct grantees are swept apart. -/
theorem foldl_sweepClawback_file {pcs : List PendingClawback} (s : State)
    (hnodup : (pcs.map PendingClawback.grantee).Nodup) (hpc : pc ∈ pcs) :
    (pcs.foldl sweepClawback s).file pc.grantee
      = { (s.file pc.grantee).sweep pc.sweepAmount with pending := none } := by
  induction pcs generalizing s with
  | nil => cases hpc
  | cons pc' pcs ih =>
    rw [List.map_cons, List.nodup_cons] at hnodup
    rw [List.foldl_cons]
    cases List.mem_cons.mp hpc with
    | inl h =>
      subst h
      have hrest : ∀ pc' ∈ pcs, pc'.grantee ≠ pc.grantee := fun pc' hpc' heq =>
        hnodup.1 (heq ▸ List.mem_map_of_mem hpc')
      rw [foldl_sweepClawback_file_of_ne _ hrest, sweepClawback_file, if_pos rfl]
    | inr h =>
      have hne : pc.grantee ≠ pc'.grantee := fun heq =>
        hnodup.1 (heq ▸ List.mem_map_of_mem h)
      rw [ih _ hnodup.2 h, sweepClawback_file, if_neg hne]

theorem endBlock_file_of_matured {s : State} (hget : s.pendings.get? g = some pc)
    (hmat : matured E ctx.blockTime pc = true) :
    (s.endBlock E ctx).file g
      = { ((s.file g).payOut ctx.blockTime).sweep pc.sweepAmount with pending := none } := by
  have hnodup : ((s.pendings.entries.filter (matured E ctx.blockTime)).map
      PendingClawback.grantee).Nodup :=
    s.pendings.nodup_keys.sublist (List.filter_sublist.map _)
  obtain rfl : pc.grantee = g := key_of_get? hget
  exact foldl_sweepClawback_file _ hnodup
    (List.mem_filter.mpr ⟨mem_of_get? hget, hmat⟩)

theorem endBlock_file_of_not_matured {s : State}
    (hnot : ∀ pc, s.pendings.get? g = some pc → matured E ctx.blockTime pc = false) :
    (s.endBlock E ctx).file g = (s.file g).payOut ctx.blockTime := by
  refine foldl_sweepClawback_file_of_ne _ fun pc hpc hg => ?_
  obtain ⟨hmem, hmat⟩ := List.mem_filter.mp hpc
  have hget := (mem_entries_iff s.pendings pc).mp hmem
  rw [hg] at hget
  rw [hnot pc hget] at hmat
  cases hmat

end State

/-! ## What an action does to a file -/

/-- What the holder has unbonding until exactly `u`. -/
def Holder.dueAt (h : Holder) (u : Int) : Nat :=
  ((h.unbondings.filter (fun e => e.completionTime = u)).map Unbonding.amount).sum

theorem Holder.dueAt_append (hunb : h'.unbondings = h.unbondings ++ us) (u : Int) :
    h.dueAt u ≤ h'.dueAt u := by
  unfold Holder.dueAt
  rw [hunb, List.filter_append, List.map_append, List.sum_append]
  omega

theorem Holder.dueAt_congr (hunb : h'.unbondings = h.unbondings) (u : Int) :
    h'.dueAt u = h.dueAt u := by
  rw [Holder.dueAt, hunb, Holder.dueAt]

theorem Holder.dueAt_le_paid (h : Holder) {u : Int} (hu : u ≤ now) :
    h.dueAt u ≤ (h.completeUnbonding now).balance := by
  unfold Holder.dueAt Holder.completeUnbonding
  have hsum : ((h.unbondings.filter (fun e => e.completionTime = u)).map Unbonding.amount).sum
      ≤ ((h.unbondings.filter (fun e => e.completionTime ≤ now)).map Unbonding.amount).sum := by
    induction h.unbondings with
    | nil => exact le_rfl
    | cons e es ih =>
      by_cases heq : e.completionTime = u
      · have hle : e.completionTime ≤ now := heq ▸ hu
        simp only [List.filter_cons, heq, hu, decide_true, if_true, List.map_cons, List.sum_cons]
        omega
      · simp only [List.filter_cons, heq, decide_false, Bool.false_eq_true, if_false]
        split_ifs
        · simp only [List.map_cons, List.sum_cons]
          omega
        · exact ih
  simp only
  omega

theorem Holder.dueAt_completeUnbonding (h : Holder) {u : Int} (hu : now < u) :
    (h.completeUnbonding now).dueAt u = h.dueAt u := by
  unfold Holder.dueAt Holder.completeUnbonding
  simp only [List.filter_filter]
  congr 2
  refine List.filter_congr fun e _ => ?_
  by_cases heq : e.completionTime = u
  · simp [heq, hu]
  · simp [heq]

/-- What an action can do to the file of a grantee and to the completion times noted for it. -/
inductive FileStep (E : Env) (ctx : Ctx) (c : Chain) (g : Bytes) (a : Action) (f' : File) :
    List Int → Prop
  /-- It changes at most the stake and the balance, and only a cancellation takes from what is
  unbonding. -/
  | stake (h : Holder) (hfile : f' = { c.state.file g with holder := h })
      (hacc : (c.state.holders g).account.isSome = true → h.account.isSome = true)
      (hdue : (∃ i amount, a = .cancelUnbonding g i amount)
        ∨ ∀ u, (c.state.holders g).dueAt u ≤ h.dueAt u) : FileStep E ctx c g a f' (c.due g)
  /-- It issues a grant to a fresh account. -/
  | issue (gr : Grant) (h : Holder) (hfresh : (c.state.holders g).account = none)
      (hfile : f' = { c.state.file g with grant := some gr, holder := h })
      (hactive : gr.status = .active) (hlocked : 0 < gr.lockedAmount)
      (hacc : h.account.isSome = true) : FileStep E ctx c g a f' (c.due g)
  /-- It claws the grant back. -/
  | claw (signer : Bytes) (us : List Unbonding) (ha : a = .clawback signer g)
      (hvalid : E.validAddr g = true)
      (hclawed : State.Clawed ctx (c.state.file g) f'
        (((c.state.holders g).delegations.entries.take State.maxRetrieve).map Prod.snd).sum us) :
      FileStep E ctx c g a f' (us.map Unbonding.completionTime)
  /-- It ends a block. -/
  | block (ha : a = .endBlock) (hfile : f' = (c.state.endBlock E ctx).file g) :
      FileStep E ctx c g a f' (c.due g)

namespace Chain

variable {E : Env} {ctx : Ctx} {c : Chain} {g who : Bytes} {a : Action}

theorem fileStep_same {f' : File} (h : f' = c.state.file g) : FileStep E ctx c g a f' (c.due g) :=
  .stake (c.state.holders g) h (fun hacc => hacc) (.inr fun _ => le_rfl)

theorem fileStep_holder
    (hacc : (c.state.holders who).account.isSome = true → h.account.isSome = true)
    (hdue : (∃ i amount, a = .cancelUnbonding who i amount)
      ∨ ∀ u, (c.state.holders who).dueAt u ≤ h.dueAt u) :
    FileStep E ctx c g a ((c.state.setHolder who h).file g) (c.due g) := by
  rw [State.file_setHolder]
  split_ifs with hg
  · subst hg
    exact .stake h rfl hacc hdue
  · exact fileStep_same rfl

theorem fileStep_withHolder {o : Option Holder}
    (hacc : ∀ h, o = some h → h.account = (c.state.holders who).account)
    (hdue : ∀ h, o = some h → (∃ i amount, a = .cancelUnbonding who i amount)
      ∨ ∀ u, (c.state.holders who).dueAt u ≤ h.dueAt u) :
    FileStep E ctx c g a ((c.state.withHolder who o).file g) (c.due g) := by
  cases o with
  | none => exact fileStep_same rfl
  | some h =>
    apply fileStep_holder
    · rw [hacc h rfl]
      exact fun hsome => hsome
    · exact hdue h rfl

theorem fileStep_issueLocked {signer grantee op : Bytes} {locked gas : Option Int} :
    FileStep E ctx c g a
      ((c.state.orElse (c.state.issueLocked E ctx signer grantee locked gas op)).file g)
      (c.due g) := by
  unfold State.issueLocked
  split_ifs with hadmin
  · exact fileStep_same rfl
  cases locked with
  | none => exact fileStep_same rfl
  | some l =>
    cases gas with
    | none =>
      simp only
      split_ifs
      · exact fileStep_same rfl
      · exact fileStep_same rfl
    | some n =>
      simp only
      split_ifs with hl hn
      · exact fileStep_same rfl
      · exact fileStep_same rfl
      unfold State.issueGrant
      split_ifs with hvalid hacc hblocked hpool
      · exact fileStep_same rfl
      · exact fileStep_same rfl
      · exact fileStep_same rfl
      · exact fileStep_same rfl
      by_cases hg : g = grantee
      · subst hg
        refine .issue ⟨g, l, n, op, ctx.height, unix ctx.blockTime, .active⟩
          { c.state.holders g with
            account := some .permanentLocked
            balance := (c.state.holders g).balance + l.toNat + n.toNat }
          (Option.not_isSome_iff_eq_none.mp hacc) ?_ rfl (Int.not_le.mp hl) rfl
        simp [State.orElse, State.file, State.setHolder, State.moved]
      · refine fileStep_same ?_
        simp [State.orElse, State.file, State.setHolder, State.moved, get?_put, hg]

theorem fileStep_clawback {signer grantee : Bytes} (ha : a = .clawback signer grantee) :
    FileStep E ctx c g a
      ((c.state.orElse ((c.state.msgClawback E ctx signer grantee).map (·.state))).file g)
      (c.dueAfter E ctx a g) := by
  subst ha
  simp only [dueAfter]
  cases hmsg : c.state.msgClawback E ctx signer grantee with
  | error err => exact fileStep_same rfl
  | ok r =>
    have hclaw : c.state.clawback E ctx grantee = .ok r := by
      unfold State.msgClawback at hmsg
      split_ifs at hmsg
      cases hres : c.state.clawback E ctx grantee with
      | error err =>
        rw [hres] at hmsg
        cases hmsg
      | ok r' =>
        rw [hres] at hmsg
        cases hmsg
        rfl
    obtain ⟨hvalid, hothers, hclawed⟩ := State.clawback_spec hclaw
    by_cases hg : g = grantee
    · subst hg
      simp only [Function.update_self]
      exact .claw signer r.unbonded rfl hvalid hclawed
    · simp only [Function.update_of_ne hg]
      exact fileStep_same (hothers g hg)

theorem step_file (a : Action) :
    FileStep E ctx c g a ((c.step E ctx a).state.file g) ((c.step E ctx a).due g) := by
  cases a with
  | issueLocked signer grantee locked gas op => exact fileStep_issueLocked
  | clawback signer grantee => exact fileStep_clawback rfl
  | burnPool signer amount parsed =>
    simp only [step, State.step, State.burnPool, dueAfter]
    split_ifs
    · exact fileStep_same rfl
    · cases c.state.resolveBurn amount parsed with
      | error err => exact fileStep_same rfl
      | ok burnAmt =>
        simp only
        split_ifs
        · exact fileStep_same rfl
        · exact fileStep_same rfl
        · exact fileStep_same rfl
  | updateParams authority admin =>
    simp only [step, State.step, State.updateParams, dueAfter]
    split_ifs
    · exact fileStep_same rfl
    · exact fileStep_same rfl
  | delegate who v amount =>
    apply fileStep_withHolder
    · exact fun h hh => (Holder.delegate_spec hh).1
    · exact fun h hh => .inr fun u => (Holder.dueAt_congr (Holder.delegate_spec hh).2 u).ge
  | undelegate who v amount =>
    apply fileStep_withHolder
    · intro h hh
      obtain ⟨⟨h', u⟩, hu, rfl⟩ := Option.map_eq_some_iff.mp hh
      exact (Holder.undelegate_spec hu).1
    · intro h hh
      obtain ⟨⟨h', u⟩, hu, rfl⟩ := Option.map_eq_some_iff.mp hh
      exact .inr (Holder.dueAt_append (Holder.undelegate_spec hu).2.2.1)
  | redelegate who src dst amount =>
    apply fileStep_withHolder
    · exact fun h hh => (Holder.redelegate_spec hh).1
    · exact fun h hh => .inr fun u => (Holder.dueAt_congr (Holder.redelegate_spec hh).2 u).ge
  | cancelUnbonding who i amount =>
    apply fileStep_withHolder
    · exact fun h hh => Holder.cancelUnbonding_account hh
    · exact fun h hh => .inl ⟨i, amount, rfl⟩
  | receive who amount =>
    apply fileStep_holder
    · simp
    · exact .inr fun _ => le_rfl
  | fundPool amount => exact fileStep_same rfl
  | endBlock => exact .block rfl rfl

end Chain

/-! ## No more than the principal -/

/-- The principal the pending record has still to sweep. -/
def File.outstanding (f : File) : Int := (f.pending.map PendingClawback.sweepAmount).getD 0

/-- A grant has an account, nothing is swept before it is clawed back, and what is swept then and
later stays within the principal. The record keeps the completion times truncated. -/
structure File.Bounded (E : Env) (g : Bytes) (f : File) (due : List Int) : Prop where
  account : ∀ gr, f.grant = some gr → f.holder.account.isSome = true
  idle : (∀ gr, f.grant = some gr → gr.status = .active) → f.pending = none ∧ f.moved = 0
  locked : ∀ gr, f.grant = some gr → 0 ≤ gr.lockedAmount
  bound : ∀ gr, f.grant = some gr → (f.moved : Int) + f.outstanding ≤ gr.lockedAmount
  recorded : ∀ pc, f.pending = some pc → 0 < pc.sweepAmount ∧ E.validAddr g = true
    ∧ pc.entries.map PendingClawbackEntry.completionUnix = due.map unix

namespace File.Bounded

variable {E : Env} {ctx : Ctx} {g : Bytes} {f f' : File} {due : List Int}

theorem congr (h : f.Bounded E g due) (hgrant : f'.grant = f.grant) (hpending : f'.pending = f.pending)
    (hmoved : f'.moved = f.moved)
    (hacc : f.holder.account.isSome = true → f'.holder.account.isSome = true) :
    f'.Bounded E g due where
  account gr hgr := hacc (h.account gr (hgrant ▸ hgr))
  idle hall := by
    rw [hpending, hmoved]
    exact h.idle (hgrant ▸ hall)
  locked gr hgr := h.locked gr (hgrant ▸ hgr)
  bound gr hgr := by
    rw [hmoved, File.outstanding, hpending]
    exact h.bound gr (hgrant ▸ hgr)
  recorded pc hpc := h.recorded pc (hpending ▸ hpc)

/-- A clawback sweeps what is there and leaves the undelegated part of the principal outstanding. -/
theorem of_clawed (h : f.Bounded E g due) {bonded : Nat} (hc : State.Clawed ctx f f' bonded us) :
    ∃ gr, f.grant = some gr
      ∧ f'.grant = some { gr with status := .revoked } ∧ 0 ≤ gr.lockedAmount
      ∧ f'.outstanding = min (bonded : Int) gr.lockedAmount
      ∧ (f'.moved : Int) = max 0 (min (gr.lockedAmount - f'.outstanding) f.holder.balance)
      ∧ ∀ pc, f'.pending = some pc → 0 < f'.outstanding ∧ pc.sweepAmount = f'.outstanding
        ∧ pc.entries.map PendingClawbackEntry.completionUnix = us.map fun u => unix u.completionTime := by
  obtain ⟨gr, hgr, hactive, hgr', hsome, hnone, hmoved⟩ := hc.active
  have hidle := h.idle fun gr' hgr₁ => by
    obtain rfl := Option.some.inj (hgr.symm.trans hgr₁)
    exact hactive
  have hlocked := h.locked gr hgr
  rw [hidle.2, Nat.cast_zero, zero_add] at hmoved
  suffices f'.outstanding = min (bonded : Int) gr.lockedAmount ∧ ∀ pc, f'.pending = some pc →
      0 < min (bonded : Int) gr.lockedAmount ∧ pc.sweepAmount = min (bonded : Int) gr.lockedAmount
        ∧ pc.entries.map PendingClawbackEntry.completionUnix = us.map fun u => unix u.completionTime by
    rw [this.1]
    exact ⟨gr, hgr, hgr', hlocked, rfl, hmoved, this.2⟩
  unfold File.outstanding
  by_cases hpos : 0 < min (bonded : Int) gr.lockedAmount
  · obtain ⟨pc, hpc, hrecord⟩ := hsome hpos
    rw [hpc]
    refine ⟨hrecord.1, fun pc' hpc' => ?_⟩
    cases hpc'
    exact ⟨hpos, hrecord⟩
  · rw [hnone (Int.not_lt.mp hpos), hidle.1]
    refine ⟨?_, nofun⟩
    show (0 : Int) = _
    omega

theorem clawed (h : f.Bounded E g due) {bonded : Nat} (hvalid : E.validAddr g = true)
    (hc : State.Clawed ctx f f' bonded us) :
    f'.Bounded E g (us.map Unbonding.completionTime) := by
  obtain ⟨gr, hgr, hgr', hlocked, hout, hmoved, hpending⟩ := h.of_clawed hc
  refine ⟨fun gr' _ => hc.account (h.account gr hgr), fun hall => ?_, fun gr₁ hgr₁ => ?_,
    fun gr₁ hgr₁ => ?_, fun pc hpc => ?_⟩
  · cases hall _ hgr'
  · obtain rfl := Option.some.inj (hgr'.symm.trans hgr₁)
    exact hlocked
  · obtain rfl := Option.some.inj (hgr'.symm.trans hgr₁)
    show (f'.moved : Int) + f'.outstanding ≤ gr.lockedAmount
    omega
  · obtain ⟨hpos, hamount, hentries⟩ := hpending pc hpc
    rw [hamount, hentries, List.map_map]
    exact ⟨hpos, hvalid, rfl⟩

/-- A fresh account has no grant, so nothing is pending or swept. -/
theorem fresh (h : f.Bounded E g due) (hfresh : f.holder.account = none) :
    f.pending = none ∧ f.moved = 0 := by
  refine h.idle fun gr hgr => ?_
  have hsome := h.account gr hgr
  simp [hfresh] at hsome

theorem swept (h : f.Bounded E g due) (hpc : f.pending = some pc) :
    ({ f.sweep pc.sweepAmount with pending := none } : File).Bounded E g due := by
  have hpos := (h.recorded pc hpc).1
  refine ⟨fun gr hgr => ?_, fun hall => ?_, h.locked, fun gr hgr => ?_, nofun⟩
  · have hacc := h.account gr hgr
    show (unlocked f.holder.account).isSome = true
    cases hkind : f.holder.account with
    | none => simp [hkind] at hacc
    | some kind => rfl
  · rw [(h.idle hall).1] at hpc
    cases hpc
  · have hbound := h.bound gr hgr
    rw [File.outstanding, hpc, Option.map_some, Option.getD_some] at hbound
    show ((f.moved + (min pc.sweepAmount (f.holder.balance : Int)).toNat : Nat) : Int) + 0 ≤ _
    omega

theorem payOut (h : f.Bounded E g due) (now : Int) : (f.payOut now).Bounded E g due :=
  h.congr rfl rfl rfl fun hacc => hacc

end File.Bounded

namespace Chain

variable {E : Env} {ctx : Ctx} {c : Chain} {g : Bytes}

theorem Genesis.bounded (h : Genesis c) (g : Bytes) :
    (c.state.file g).Bounded E g (c.due g) := by
  have hmoved : c.state.moved g = 0 := by simp [State.moved, h.transfers]
  have hpending : (c.state.file g).pending = none := h.pendings g
  refine ⟨fun gr hgr => (h.grants g gr hgr).2.2, fun _ => ⟨hpending, hmoved⟩,
    fun gr hgr => (h.grants g gr hgr).2.1, fun gr hgr => ?_, fun pc hpc => ?_⟩
  · have hlocked := (h.grants g gr hgr).2.1
    have hzero : (c.state.file g).moved = 0 := hmoved
    rw [hzero, File.outstanding, hpending, Option.map_none, Option.getD_none]
    omega
  · rw [hpending] at hpc
    cases hpc

theorem bounded_step (h : ∀ g, (c.state.file g).Bounded E g (c.due g)) (a : Action) (g : Bytes) :
    ((c.step E ctx a).state.file g).Bounded E g ((c.step E ctx a).due g) := by
  have hg := h g
  have hstep : FileStep E ctx c g a _ _ := step_file a
  generalize (c.step E ctx a).state.file g = f' at hstep ⊢
  generalize (c.step E ctx a).due g = due' at hstep ⊢
  cases hstep with
  | stake h' hfile hacc hdue =>
    subst hfile
    exact hg.congr rfl rfl rfl hacc
  | issue gr h' hfresh hfile hactive hlocked hacc =>
    subst hfile
    obtain ⟨hpending, hmoved⟩ := hg.fresh hfresh
    refine ⟨fun _ _ => hacc, fun _ => ⟨hpending, hmoved⟩, fun gr' hgr' => ?_, fun gr' hgr' => ?_,
      fun pc hpc => ?_⟩
    · obtain rfl := Option.some.inj hgr'
      exact hlocked.le
    · obtain rfl := Option.some.inj hgr'
      show ((c.state.file g).moved : Int) + ((c.state.file g).pending.map _).getD 0 ≤ _
      rw [hpending, hmoved, Option.map_none, Option.getD_none]
      omega
    · rw [hpending] at hpc
      cases hpc
  | claw signer us ha hvalid hclawed => exact hg.clawed hvalid hclawed
  | block ha hfile =>
    subst hfile
    by_cases hmat : ∃ pc, c.state.pendings.get? g = some pc
        ∧ State.matured E ctx.blockTime pc = true
    · obtain ⟨pc, hpc, hmat⟩ := hmat
      rw [State.endBlock_file_of_matured hpc hmat]
      exact (hg.payOut ctx.blockTime).swept hpc
    · rw [State.endBlock_file_of_not_matured fun pc hpc => by
        by_contra hne
        exact hmat ⟨pc, hpc, eq_true_of_ne_false hne⟩]
      exact hg.payOut ctx.blockTime

theorem Reachable.bounded {allow : Allow} (h : Reachable E allow c) (g : Bytes) :
    (c.state.file g).Bounded E g (c.due g) := by
  revert g
  refine h.invariant (I := fun c : Chain => ∀ g, (c.state.file g).Bounded E g (c.due g)) ?_ ?_
  · exact fun c₀ h₀ g => h₀.bounded g
  · exact fun c ctx a _ _ hc g => bounded_step hc a g

/-! ## The deferred sweep -/

/-- No block ends within the truncated second of an unbonding that a record still waits for. -/
def NoTruncation : Allow := fun c ctx a =>
  match a with
  | .endBlock => ∀ pc ∈ c.state.pendings.entries, ∀ u ∈ c.due pc.grantee,
      ¬ (ofUnix (unix u) ≤ ctx.blockTime ∧ ctx.blockTime < u)
  | _ => True

instance (c : Chain) (ctx : Ctx) : ∀ a, Decidable (NoTruncation c ctx a)
  | .endBlock => inferInstanceAs (Decidable (∀ pc ∈ c.state.pendings.entries,
      ∀ u ∈ c.due pc.grantee, ¬ (ofUnix (unix u) ≤ ctx.blockTime ∧ ctx.blockTime < u)))
  | .issueLocked .. | .clawback .. | .burnPool .. | .updateParams .. | .delegate ..
  | .undelegate .. | .redelegate .. | .cancelUnbonding .. | .receive .. | .fundPool .. =>
    isTrue trivial

theorem matured_of_deleted (hpc : c.state.pendings.get? g = some pc)
    (hgone : (c.step E ctx .endBlock).state.pendings.get? g = none) :
    State.matured E ctx.blockTime pc = true := by
  by_contra hne
  have hkept : (c.state.endBlock E ctx).file g = (c.state.file g).payOut ctx.blockTime :=
    State.endBlock_file_of_not_matured fun pc' hpc' => by
      obtain rfl := Option.some.inj (hpc.symm.trans hpc')
      exact eq_false_of_ne_true hne
  have hpending : (c.step E ctx .endBlock).state.pendings.get? g = c.state.pendings.get? g :=
    congrArg File.pending hkept
  rw [hgone, hpc] at hpending
  cases hpending

/-- A matured record waits for nothing, unless the block falls into a truncated second. -/
theorem due_le_of_matured (hb : (c.state.file g).Bounded E g (c.due g))
    (hpc : c.state.pendings.get? g = some pc) (hmat : State.matured E ctx.blockTime pc = true)
    (hallow : NoTruncation c ctx .endBlock) :
    ∀ u ∈ c.due g, u ≤ ctx.blockTime := by
  intro u hu
  obtain ⟨-, -, hentries⟩ := hb.recorded pc hpc
  have hunix : unix u ∈ pc.entries.map PendingClawbackEntry.completionUnix := by
    rw [hentries]
    exact List.mem_map_of_mem hu
  obtain ⟨e, he, heq⟩ := List.mem_map.mp hunix
  have hpast : ofUnix (unix u) ≤ ctx.blockTime := by
    rw [State.matured, Bool.and_eq_true, List.all_eq_true] at hmat
    have hentry := hmat.1 e he
    rw [heq] at hentry
    simpa using hentry
  have hwindow := hallow pc (mem_of_get? hpc) u
    (by rw [key_of_get? hpc]; exact hu)
  by_contra hlate
  exact hwindow ⟨hpast, Int.not_le.mp hlate⟩

/-- The deferred sweep does not fire early in a run without truncation: a block that deletes a record
does not end before the completion of one of its unbondings. And in every run what a grantee has sent
to the pool stays within the principal. -/
theorem deferredSweep_in_time :
    (∀ c ctx, Reachable E NoTruncation c → c.time ≤ ctx.blockTime → NoTruncation c ctx .endBlock →
      ∀ g pc, c.state.pendings.get? g = some pc →
        (c.step E ctx .endBlock).state.pendings.get? g = none →
        ∀ u ∈ c.due g, u ≤ ctx.blockTime)
      ∧ ∀ c, Reachable E (fun _ _ _ => True) c → ∀ g gr, c.state.grants.get? g = some gr →
        (c.state.moved g : Int) ≤ gr.lockedAmount := by
  constructor
  · intro c ctx hreach _ hallow g pc hpc hgone
    exact due_le_of_matured (hreach.bounded g) hpc (matured_of_deleted hpc hgone) hallow
  · intro c hreach g gr hgr
    have hb := hreach.bounded g
    have hbound := hb.bound gr hgr
    have hout : 0 ≤ (c.state.file g).outstanding := by
      unfold File.outstanding
      cases hpending : (c.state.file g).pending with
      | none => simp
      | some pc => simpa using (hb.recorded pc hpending).1.le
    show ((c.state.file g).moved : Int) ≤ _
    omega

end Chain

/-! ## A sample grant -/

namespace Sample

def env : Env := { validAddr := fun _ => true, blockedAddr := fun _ => false, govAddr := [] }

def admin : Bytes := bytesOf "admin"

def grantee : Bytes := bytesOf "grantee"

def validator : Bytes := bytesOf "validator"

/-- An unfunded chain with a pool of a thousand tokens. -/
def genesis : Chain where
  time := 0
  state :=
    { admin := admin, grants := .empty, pendings := .empty, pool := 1000, transfers := []
      holders := fun _ => ⟨none, 0, .empty, []⟩ }
  due _ := []

theorem genesis_genesis : genesis.Genesis :=
  ⟨fun _ => rfl, rfl, nofun⟩

/-- A block at a time in milliseconds, with an unbonding time of 21 days. -/
def block (ms : Int) : Ctx :=
  { height := 1, blockTime := ms * 10 ^ 6, unbondingTime := 1814400 * 10 ^ 9, maxEntries := 7 }

/-- A grant of 100, bonded by its grantee and clawed back at 100.5 seconds. -/
def bonded : List (Ctx × Action) :=
  [(block 90000, .issueLocked admin grantee (some 100) (some 0) []),
   (block 95000, .delegate grantee validator 100),
   (block 100500, .clawback admin grantee),
   (block 100500, .endBlock)]

end Sample

open Sample

/-- The record of a clawback is swept in the second after its unbonding completed. -/
theorem deferredSweep_in_time_bonded :
    ∃ c, Chain.Reachable env Chain.NoTruncation c
      ∧ c.due grantee = [1814500500 * 10 ^ 6]
      ∧ (∀ u ∈ c.due grantee, u ≤ (block 1814501000).blockTime)
      ∧ (c.step env (block 1814501000) .endBlock).state.moved grantee = 100
      ∧ (c.state.moved grantee : Int) ≤ 100 := by
  obtain ⟨c, hreach, hdue, htime, hallow, hsome, hgone, hmoved, hgrant⟩ :=
    Chain.exists_reachable (E := env) Chain.NoTruncation genesis_genesis bonded
      (P := fun c => c.due grantee = [1814500500 * 10 ^ 6]
        ∧ c.time ≤ (block 1814501000).blockTime
        ∧ Chain.NoTruncation c (block 1814501000) .endBlock
        ∧ (c.state.pendings.get? grantee).isSome = true
        ∧ (c.step env (block 1814501000) .endBlock).state.pendings.get?
          grantee = none
        ∧ (c.step env (block 1814501000) .endBlock).state.moved grantee = 100
        ∧ (c.state.grants.get? grantee).map Grant.lockedAmount = some 100)
      (by decide +kernel)
  obtain ⟨pc, hpc⟩ := Option.isSome_iff_exists.mp hsome
  obtain ⟨gr, hgr, hlocked⟩ := Option.map_eq_some_iff.mp hgrant
  have hany : Chain.Reachable env (fun _ _ _ => True) c := hreach.mono fun _ _ _ _ => trivial
  refine ⟨c, hreach, hdue, ?_, hmoved, ?_⟩
  · exact Chain.deferredSweep_in_time.1 c _ hreach htime hallow _ pc hpc hgone
  · rw [← hlocked]
    exact Chain.deferredSweep_in_time.2 c hany _ gr hgr

/-- The completion at 1814500.5 seconds is recorded as 1814500: a block at 1814500.2 seconds deletes
the record before staking returns the coins, and the principal is never swept. -/
theorem deferredSweep_truncated :
    ∃ c, Chain.Reachable env (fun _ _ _ => True) c
      ∧ c.due grantee = [1814500500 * 10 ^ 6]
      ∧ c.time ≤ (block 1814500200).blockTime
      ∧ (c.state.pendings.get? grantee).isSome = true
      ∧ (c.step env (block 1814500200) .endBlock).state.pendings.get? grantee
        = none
      ∧ (block 1814500200).blockTime < 1814500500 * 10 ^ 6
      ∧ ((c.step env (block 1814500200) .endBlock).step env
        (block 1814501000) .endBlock).state.moved grantee = 0 := by
  exact Chain.exists_reachable (fun _ _ _ => True) genesis_genesis bonded
    (by decide +kernel)

/-! ## All of the principal -/

/-- The actions that leave no principal behind. A clawback finds the principal in the account and in
the delegations it undelegates. The grantee cancels no unbonding while a record waits for it. No
block ends within the truncated second of such an unbonding. -/
def Chain.Accounted : Allow := fun c ctx a =>
  match a with
  | .clawback _ g => ∀ gr ∈ c.state.grants.get? g, gr.lockedAmount ≤ (c.state.holders g).balance
      + ((((c.state.holders g).delegations.entries.take State.maxRetrieve).map Prod.snd).sum : Nat)
  | .cancelUnbonding g _ _ => c.state.pendings.get? g = none
  | _ => Chain.NoTruncation c ctx a

instance (c : Chain) (ctx : Ctx) : ∀ a, Decidable (Chain.Accounted c ctx a)
  | .clawback _ g => inferInstanceAs (Decidable (∀ gr ∈ c.state.grants.get? g, gr.lockedAmount ≤ _))
  | .cancelUnbonding g _ _ => inferInstanceAs (Decidable (c.state.pendings.get? g = none))
  | .endBlock => inferInstanceAs (Decidable (Chain.NoTruncation c ctx .endBlock))
  | .issueLocked .. | .burnPool .. | .updateParams .. | .delegate .. | .undelegate ..
  | .redelegate .. | .receive .. | .fundPool .. => isTrue trivial

/-- After its clawback a grant's principal is swept or outstanding, and what is outstanding is
unbonding until the times noted for the record, which are all the same. -/
structure File.Settled (f : File) (due : List Int) : Prop where
  settled : ∀ gr, f.grant = some gr → gr.status = .revoked →
    (f.moved : Int) + f.outstanding = gr.lockedAmount
  covered : ∀ pc, f.pending = some pc → ∃ u, u ∈ due ∧ (∀ v ∈ due, v = u)
    ∧ pc.sweepAmount ≤ f.holder.dueAt u

namespace File.Settled

variable {E : Env} {ctx : Ctx} {g : Bytes} {f f' : File} {due : List Int}

theorem clawed (hb : f.Bounded E g due) {bonded : Nat} (hc : State.Clawed ctx f f' bonded us)
    (hfound : ∀ gr, f.grant = some gr → gr.lockedAmount ≤ f.holder.balance + (bonded : Int)) :
    f'.Settled (us.map Unbonding.completionTime) := by
  obtain ⟨gr, hgr, hgr', hlocked, hout, hmoved, hpending⟩ := hb.of_clawed hc
  have hcover := hfound gr hgr
  refine ⟨fun gr₁ hgr₁ _ => ?_, fun pc hpc => ?_⟩
  · obtain rfl := Option.some.inj (hgr'.symm.trans hgr₁)
    show (f'.moved : Int) + f'.outstanding = gr.lockedAmount
    omega
  · obtain ⟨hpos, hamount, -⟩ := hpending pc hpc
    have hne : us ≠ [] := by
      rintro rfl
      have hzero : 0 = bonded := hc.bonded
      omega
    obtain ⟨e, he⟩ := List.exists_mem_of_ne_nil _ hne
    refine ⟨e.completionTime, List.mem_map_of_mem he, fun v hv => ?_, ?_⟩
    · obtain ⟨u, hu, rfl⟩ := List.mem_map.mp hv
      exact (hc.completion u hu).trans (hc.completion e he).symm
    -- every new entry completes at that time
    have hall : us.filter (fun u => u.completionTime = e.completionTime) = us := by
      rw [List.filter_eq_self]
      intro u hu
      rw [hc.completion u hu, hc.completion e he, decide_eq_true rfl]
    have hdueAt : bonded ≤ f'.holder.dueAt e.completionTime := by
      unfold Holder.dueAt
      rw [hc.unbondings, List.filter_append, List.map_append, List.sum_append, hall, hc.bonded]
      omega
    rw [hamount]
    omega

theorem swept (hs : f.Settled due) (hpc : f.pending = some pc) (hpos : 0 < pc.sweepAmount)
    (hpast : ∀ u ∈ due, u ≤ now) :
    ({ (f.payOut now).sweep pc.sweepAmount with pending := none } : File).Settled due := by
  refine ⟨fun gr hgr hrevoked => ?_, nofun⟩
  have hsettled := hs.settled gr hgr hrevoked
  obtain ⟨u, hu, -, hcovered⟩ := hs.covered pc hpc
  have hpaid := f.holder.dueAt_le_paid (hpast u hu)
  rw [File.outstanding, hpc, Option.map_some, Option.getD_some] at hsettled
  show ((f.moved + (min pc.sweepAmount
    ((f.holder.completeUnbonding now).balance : Int)).toNat : Nat) : Int) + 0 = gr.lockedAmount
  omega

theorem payOut (hs : f.Settled due) (hlater : ∀ u ∈ due, now < u) :
    (f.payOut now).Settled due := by
  refine ⟨hs.settled, fun pc hpc => ?_⟩
  obtain ⟨u, hu, hsame, hcovered⟩ := hs.covered pc hpc
  refine ⟨u, hu, hsame, ?_⟩
  show pc.sweepAmount ≤ ((f.holder.completeUnbonding now).dueAt u : Nat)
  rw [f.holder.dueAt_completeUnbonding (hlater u hu)]
  exact hcovered

end File.Settled

theorem ofUnix_unix_le (t : Int) : ofUnix (unix t) ≤ t := Int.ediv_mul_le t (by decide)

namespace Chain

variable {E : Env} {ctx : Ctx} {c : Chain} {g : Bytes}

theorem settled_endBlock (hb : (c.state.file g).Bounded E g (c.due g))
    (hs : (c.state.file g).Settled (c.due g)) (hallow : NoTruncation c ctx .endBlock) :
    ((c.state.endBlock E ctx).file g).Settled (c.due g) := by
  cases hpending : c.state.pendings.get? g with
  | none =>
    rw [State.endBlock_file_of_not_matured (by simp [hpending])]
    refine ⟨hs.settled, fun pc hpc => ?_⟩
    have hnone : (c.state.file g).pending = none := hpending
    cases hnone.symm.trans hpc
  | some pc =>
    obtain ⟨hpos, hvalid, hentries⟩ := hb.recorded pc hpending
    have hkey : pc.grantee = g := key_of_get? hpending
    cases hmat : State.matured E ctx.blockTime pc with
    | true =>
      rw [State.endBlock_file_of_matured hpending hmat]
      exact hs.swept hpending hpos (due_le_of_matured hb hpending hmat hallow)
    | false =>
      rw [State.endBlock_file_of_not_matured fun pc' hpc' => by
        obtain rfl := Option.some.inj (hpending.symm.trans hpc')
        exact hmat]
      apply hs.payOut
      obtain ⟨u, hu, hsame, -⟩ := hs.covered pc hpending
      -- some truncated completion lies ahead, and all of them are the same
      have hahead : ctx.blockTime < u := by
        rw [State.matured, hkey, hvalid, Bool.and_true, List.all_eq_false] at hmat
        obtain ⟨e, he, hlt⟩ := hmat
        have hunix : e.completionUnix ∈ (c.due g).map unix := by
          rw [← hentries]
          exact List.mem_map_of_mem he
        obtain ⟨v, hv, heq⟩ := List.mem_map.mp hunix
        obtain rfl := hsame v hv
        have hle := ofUnix_unix_le v
        rw [heq] at hle
        simp at hlt
        omega
      exact fun v hv => hsame v hv ▸ hahead

theorem settled_step (hb : ∀ g, (c.state.file g).Bounded E g (c.due g))
    (hs : ∀ g, (c.state.file g).Settled (c.due g)) {a : Action} (hallow : Accounted c ctx a)
    (g : Bytes) : ((c.step E ctx a).state.file g).Settled ((c.step E ctx a).due g) := by
  have hstep : FileStep E ctx c g a _ _ := step_file a
  generalize (c.step E ctx a).state.file g = f' at hstep ⊢
  generalize (c.step E ctx a).due g = due' at hstep ⊢
  cases hstep with
  | stake h' hfile hacc hdue =>
    subst hfile
    refine ⟨(hs g).settled, fun pc hpc => ?_⟩
    obtain ⟨u, hu, hsame, hcovered⟩ := (hs g).covered pc hpc
    refine ⟨u, hu, hsame, ?_⟩
    cases hdue with
    | inl hcancel =>
      -- no record waits while its grantee cancels
      obtain ⟨i, amount, rfl⟩ := hcancel
      have hnone : c.state.pendings.get? g = none := hallow
      cases hnone.symm.trans hpc
    | inr hmono => exact hcovered.trans (Int.ofNat_le.mpr (hmono u))
  | issue gr h' hfresh hfile hactive hlocked hacc =>
    subst hfile
    refine ⟨fun gr' hgr' hrevoked => ?_, fun pc hpc => ?_⟩
    · obtain rfl := Option.some.inj hgr'
      cases hactive.symm.trans hrevoked
    · cases ((hb g).fresh hfresh).1.symm.trans hpc
  | claw signer us ha hvalid hclawed =>
    subst ha
    exact .clawed (hb g) hclawed hallow
  | block ha hfile =>
    subst ha hfile
    exact settled_endBlock (hb g) (hs g) hallow

theorem Reachable.settled (h : Reachable E Accounted c) (g : Bytes) :
    (c.state.file g).Settled (c.due g) := by
  have hboth := h.invariant (I := fun c : Chain => ∀ g, (c.state.file g).Bounded E g (c.due g)
    ∧ (c.state.file g).Settled (c.due g)) ?_ ?_
  · exact (hboth g).2
  · intro c₀ h₀ g
    refine ⟨h₀.bounded g, fun gr hgr hrevoked => ?_, fun pc hpc => ?_⟩
    · cases (h₀.grants g gr hgr).1.symm.trans hrevoked
    · cases (h₀.pendings g).symm.trans hpc
  · intro c ctx a _ hallow hc g
    exact ⟨bounded_step (fun g => (hc g).1) a g,
      settled_step (fun g => (hc g).1) (fun g => (hc g).2) hallow g⟩

/-- A clawback recovers the whole locked principal in every run of accounted actions: once a revoked
grant's grantee has nothing unbonding, the coins it has sent to the pool are exactly the locked
amount. -/
theorem clawback_recovers_principal (hreach : Reachable E Accounted c) {gr : Grant}
    (hgr : c.state.grants.get? g = some gr) (hrevoked : gr.status = .revoked)
    (hdone : (c.state.holders g).unbondings = []) : (c.state.moved g : Int) = gr.lockedAmount := by
  have hs := hreach.settled g
  have hsettled := hs.settled gr hgr hrevoked
  have hnone : (c.state.file g).pending = none := by
    by_contra hsome
    obtain ⟨pc, hpc⟩ := Option.ne_none_iff_exists'.mp hsome
    obtain ⟨u, -, -, hcovered⟩ := hs.covered pc hpc
    have hpos := ((hreach.bounded g).recorded pc hpc).1
    have hzero : (c.state.file g).holder.dueAt u = 0 := by
      show (c.state.holders g).dueAt u = 0
      simp [Holder.dueAt, hdone]
    omega
  rw [File.outstanding, hnone, Option.map_none, Option.getD_none, add_zero] at hsettled
  exact hsettled

end Chain

/-- Of a principal of 100 the grantee bonded 60: 40 are swept at once and 60 after the unbonding. -/
theorem clawback_recovers_principal_split :
    ∃ c, Chain.Reachable env Chain.Accounted c
      ∧ (c.state.holders grantee).unbondings = []
      ∧ (c.state.moved grantee : Int) = 100 := by
  obtain ⟨c, hreach, hdone, hstatus, hlocked⟩ :=
    Chain.exists_reachable (E := env) Chain.Accounted genesis_genesis
      [(block 90000, .issueLocked admin grantee (some 100) (some 5) []),
       (block 95000, .delegate grantee validator 60),
       (block 100500, .clawback admin grantee),
       (block 100500, .endBlock),
       (block 1814501000, .endBlock)]
      (P := fun c => (c.state.holders grantee).unbondings = []
        ∧ (c.state.grants.get? grantee).map Grant.status = some .revoked
        ∧ (c.state.grants.get? grantee).map Grant.lockedAmount = some 100)
      (by decide +kernel)
  obtain ⟨gr, hgr, hrevoked⟩ := Option.map_eq_some_iff.mp hstatus
  refine ⟨c, hreach, hdone, ?_⟩
  rw [hgr, Option.map_some] at hlocked
  rw [Chain.clawback_recovers_principal hreach hgr hrevoked hdone, Option.some.inj hlocked]

/-- What a run leaves of a grant of 100 that was clawed back: nothing is unbonding and nothing
pending, yet nothing was swept. -/
def Chain.Lost (c : Chain) : Prop :=
  (c.state.grants.get? grantee).map Grant.status = some .revoked
    ∧ (c.state.grants.get? grantee).map Grant.lockedAmount = some 100
    ∧ (c.state.holders grantee).unbondings = []
    ∧ c.state.pendings.get? grantee = none
    ∧ c.state.moved grantee = 0

instance : DecidablePred Chain.Lost := fun _ => inferInstanceAs (Decidable (_ ∧ _ ∧ _ ∧ _ ∧ _))

/-- The principal is lost if the grantee was unbonding it before the clawback, and if the grantee
bonds it again by cancelling the unbonding the clawback made. -/
theorem clawback_loses_principal :
    (∃ c, Chain.Reachable env (fun _ _ _ => True) c ∧ c.Lost
        ∧ (c.state.holders grantee).balance = 100)
      ∧ ∃ c, Chain.Reachable env (fun _ _ _ => True) c ∧ c.Lost
        ∧ (c.state.holders grantee).delegations.lookup validator = some 100 := by
  constructor
  · exact Chain.exists_reachable (fun _ _ _ => True) genesis_genesis
      [(block 90000, .issueLocked admin grantee (some 100) (some 0) []),
       (block 95000, .delegate grantee validator 100),
       (block 96000, .undelegate grantee validator 100),
       (block 100500, .clawback admin grantee),
       (block 100500, .endBlock),
       (block 1814501000, .endBlock)]
      (by decide +kernel)
  · exact Chain.exists_reachable (fun _ _ _ => True) genesis_genesis
      (bonded ++ [(block 200000, .cancelUnbonding grantee 0 100),
        (block 1814501000, .endBlock)])
      (by decide +kernel)

end ValGrant
