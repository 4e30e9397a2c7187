import Limonata.EncMempool.Epochs
import Limonata.EncMempool.Recovery

/-!
# x/encmempool — the stake resolution of weighted committees

A weighted round carries its committee with the evaluation points it was given and the threshold
computed from them. This module follows every stored round back to the `EndBlockDKG` that opened it
and shows that it kept eight points per member and the threshold of that block's params.

The retry of a failed round inside the rekey gap is the exception: it reopens the stored committee,
which was selected under other params, with the budget of the current ones. `RetryFits` is what such
a retry has to meet.
-/

namespace EncMempool

open Machine Check RecStore

variable {X : External} {ctx : Ctx} {w : Wraps}

/-- The round as it was opened: its status is all that changes later. -/
def DkgRound.opened (r : DkgRound) : DkgRound := { r with status := .isOpen }

variable {s s' : State} {p : Params} {members : List RoundMember} {ep : Nat} {r : DkgRound}

namespace State

/-! ## Which round a block opens -/

/-- The committees a block may open a round with: the live one, or the stored one of a failed round
whose member set changed inside the rekey gap. -/
def Committee (X : External) (ctx : Ctx) (s : State) (p : Params) (members : List RoundMember) :
    Prop :=
  members = activeMembers ctx s p
    ∨ ∃ last, s.lastRound = some last ∧ last.status = .failed
      ∧ last.membersHash ≠ membersHash X (activeMembers ctx s p)
      ∧ rekeyDampened s p ctx.height = true ∧ members = last.members

/-- The state `s'` has the open round `r` of the epoch after that of `s`, for these members under
the params `p`. -/
structure Opened (X : External) (ctx : Ctx) (s : State) (p : Params) (members : List RoundMember)
    (s' : State) (r : DkgRound) : Prop where
  epoch : r.epoch = wrap64 (s.currentEpoch + 1)
  current : s'.currentEpoch = r.epoch
  stored : s'.rounds.get? r.epoch = some r
  isOpen : r.status = .isOpen
  height : r.openHeight = ctx.height
  sized : if p.dkgTransparent then
      allocateEvalPoints X.sha256 members p.effectiveShareBudget r.epoch = some r.members
        ∧ r.threshold = stakeThreshold r.members p.dkgStrictConcentration
    else r.members = members ∧ r.threshold = roundThreshold p members.length

theorem openRound_opened {base : State} {hash : Bytes} {attempt : Nat}
    (hbase : ∀ ep r, base.rounds.get? ep = some r → s.rounds.get? ep = some r)
    (hopen : base.openRound X (wrap64 (s.currentEpoch + 1)) members hash ctx.height p attempt
      = some s') (hr : s'.rounds.get? ep = some r) :
    s.rounds.get? ep = some r ∨ Opened X ctx s p members s' r := by
  obtain ⟨r', hep, hstatus, hheight, -, -, hsized, rfl⟩ := openRound_spec hopen
  obtain ⟨-, rfl⟩ | ⟨-, hold⟩ := get?_of_put hr
  · refine .inr ⟨hep, hep.symm, get?_put_self base.rounds r, hstatus, hheight, ?_⟩
    rwa [hep]
  · exact .inl (hbase ep r hold)

theorem purgeFailedRound_rounds {epoch : Nat}
    (hr : (s.purgeFailedRound epoch).rounds.get? ep = some r) : s.rounds.get? ep = some r :=
  get?_of_del hr

theorem purgeDealingsIfDrained_rounds (s : State) (p : Params) (epoch : Nat) :
    (s.purgeDealingsIfDrained p epoch).rounds = s.rounds := by
  obtain ⟨d, c, r, hframe⟩ := purgeDealingsIfDrained_frame s p epoch
  rw [hframe]

/-- The decision of the block: a stored round was there before, or it is the one just opened. -/
theorem rekeyStep_opened (hstep : s.rekeyStep X ctx p = some s') (hr : s'.rounds.get? ep = some r) :
    s.rounds.get? ep = some r
      ∨ ∃ members, Committee X ctx s p members ∧ Opened X ctx s p members s' r := by
  obtain rfl | hopens := rekeyStep_cases hstep
  · exact .inl hr
  cases hopens with
  | first _ hopen =>
    exact (openRound_opened (fun _ _ h => h) hopen hr).imp_right fun h => ⟨_, .inl rfl, h⟩
  | superseded _ _ _ ht hopen =>
    refine (openRound_opened (fun ep r h => ?_) hopen hr).imp_right fun h => ⟨_, .inl rfl, h⟩
    have hdrained := purgeDealingsIfDrained_rounds s p s.currentEpoch
    obtain rfl | rfl := ht <;> exact hdrained ▸ h
  | replaced _ _ _ hopen =>
    refine (openRound_opened (fun ep r h => ?_) hopen hr).imp_right fun h => ⟨_, .inl rfl, h⟩
    exact purgeFailedRound_rounds h
  | retried hlast hfailed hmembers hopen =>
    exact (openRound_opened (fun _ _ => purgeFailedRound_rounds) hopen hr).imp_right fun h =>
      ⟨_, hmembers.imp_right fun hm => ⟨_, hlast, hfailed, hm⟩, h⟩

/-! ## Closing rounds -/

/-- A round of the closed state was there before, with the same status or still open. -/
def ClosedFrom (s s' : State) : Prop :=
  ∀ ep r, s'.rounds.get? ep = some r →
    ∃ r₀, s.rounds.get? ep = some r₀ ∧ r₀.opened = r.opened ∧ (r₀ = r ∨ r₀.status = .isOpen)

theorem maybePruneEpoch_rounds {a : Nat}
    (hr : (s.maybePruneEpoch a).rounds.get? ep = some r) : s.rounds.get? ep = some r := by
  obtain ⟨heq, -⟩ | ⟨-, -, -, -, heq⟩ := s.maybePruneEpoch_cases a
  · rwa [heq] at hr
  · rw [heq] at hr
    exact get?_of_del hr

theorem finalizeIf_closedFrom (s : State) (due : DkgRound → Bool) :
    ClosedFrom s (s.finalizeIf X due) := by
  have hsame : ClosedFrom s s := fun ep r hr => ⟨r, hr, rfl, .inl rfl⟩
  unfold finalizeIf
  cases hlast : s.lastRound with
  | none => exact hsame
  | some round =>
    simp only
    split_ifs with hdue
    · -- the closed round is the latest one, and it was open
      have hput : ∀ status, ∀ ep r, (s.rounds.put { round with status := status }).get? ep = some r →
          ∃ r₀, s.rounds.get? ep = some r₀ ∧ r₀.opened = r.opened
            ∧ (r₀ = r ∨ r₀.status = .isOpen) := by
        intro status ep r hr
        obtain ⟨rfl, rfl⟩ | ⟨-, hold⟩ := get?_of_put hr
        · exact ⟨round, (get?_of_lastRound hlast).1, rfl, .inr hdue.1⟩
        · exact ⟨r, hold, rfl, .inl rfl⟩
      obtain ⟨err, -, heq⟩ | ⟨res, sk, cu, -, -, heq⟩ := @finalizeRound_cases X s round
      · rw [heq]
        exact hput _
      · rw [heq]
        exact fun ep r hr => hput .active ep r (maybePruneEpoch_rounds hr)
    · exact hsame

theorem ClosedFrom.trans {t u : State} (h : ClosedFrom s t) (h' : ClosedFrom t u) :
    ClosedFrom s u := by
  intro ep r hr
  obtain ⟨r₁, hr₁, hsame₁, hstatus₁⟩ := h' ep r hr
  obtain ⟨r₀, hr₀, hsame₀, hstatus₀⟩ := h ep r₁ hr₁
  refine ⟨r₀, hr₀, hsame₀.trans hsame₁, ?_⟩
  cases hstatus₀ with
  | inl heq => exact heq ▸ hstatus₁
  | inr hopen => exact .inr hopen

/-- **The rounds of an end-block.** A stored round was stored before, status apart, or it is the one
the block opened, with the live committee or with a stored one that was not active. -/
theorem endBlockDKG_opened (hr : (s.endBlockDKG X ctx).rounds.get? ep = some r) :
    (∃ r₀, s.rounds.get? ep = some r₀ ∧ r₀.opened = r.opened)
      ∨ ∃ members, Opened X ctx s s.params members (s.endBlockDKG X ctx) r
        ∧ (members = activeMembers ctx s s.params
          ∨ ∃ last, s.lastRound = some last ∧ last.status ≠ .active
            ∧ last.membersHash ≠ membersHash X (activeMembers ctx s s.params)
            ∧ rekeyDampened s s.params ctx.height = true ∧ members = last.members) := by
  -- the state the decision is taken in: rounds closed, the clock and the registry as before
  have hclosed : ClosedFrom s ((s.endBlockMaintenance X ctx).finalizeDue X ctx) := by
    obtain ⟨⟨_, _, _, _, _, hmaint⟩, -⟩ := @endBlockMaintenance_frame X ctx s
    have hdue : ClosedFrom (s.endBlockMaintenance X ctx)
        ((s.endBlockMaintenance X ctx).finalizeDue X ctx) :=
      (finalizeIf_closedFrom _ _).trans (finalizeIf_closedFrom _ _)
    unfold ClosedFrom at hdue ⊢
    rwa [show (s.endBlockMaintenance X ctx).rounds = s.rounds by rw [hmaint]] at hdue
  obtain ⟨hcur, hclock, -, hbonded⟩ := @finalizeDue_maintenance_keeps X ctx s
  have hlive := activeMembers_congr s.params hbonded
  obtain ⟨-, hsame⟩ | ⟨-, hend⟩ := @endBlockDKG_cases X ctx s
  · rw [hsame] at hr
    exact .inl ⟨r, hr, rfl⟩
  generalize (s.endBlockMaintenance X ctx).finalizeDue X ctx = u at *
  have hkept : ∀ ep r, u.rounds.get? ep = some r →
      ∃ r₀, s.rounds.get? ep = some r₀ ∧ r₀.opened = r.opened := fun ep r hu =>
    let ⟨r₀, hr₀, hsame, _⟩ := hclosed ep r hu
    ⟨r₀, hr₀, hsame⟩
  obtain heq | ⟨-, -, hstep⟩ := hend
  · exact .inl (hkept ep r (heq ▸ hr))
  obtain hold | ⟨members, hcommittee, hopened⟩ := rekeyStep_opened hstep hr
  · exact .inl (hkept ep r hold)
  refine .inr ⟨members, ⟨by rw [hopened.epoch, hcur], hopened.current, hopened.stored,
    hopened.isOpen, hopened.height, hopened.sized⟩, ?_⟩
  unfold Committee at hcommittee
  rw [hlive] at hcommittee
  refine hcommittee.imp_right ?_
  rintro ⟨last, hlast, hfailed, hchanged, hdamp, rfl⟩
  obtain ⟨hget, hep, hpos⟩ := get?_of_lastRound hlast
  obtain ⟨r₀, hr₀, hsame, hstatus⟩ := hclosed _ last hget
  refine ⟨r₀, ?_, ?_, ?_, ?_, ?_⟩
  · rw [lastRound, ← hcur, if_pos (by omega), ← hep]
    exact hr₀
  · cases hstatus with
    | inl heq => rw [heq, hfailed]; decide
    | inr hopen => rw [hopen]; decide
  · rwa [show r₀.membersHash = last.membersHash from
      (congrArg DkgRound.membersHash hsame : r₀.opened.membersHash = _)]
  · rwa [rekeyDampened, hclock] at hdamp
  · exact (congrArg DkgRound.members hsame : r₀.opened.members = _).symm

theorem step_rounds {a : Action} (ha : a ≠ .endBlockDKG)
    (hr : (s.step X ctx a).rounds.get? ep = some r) : s.rounds.get? ep = some r := by
  have hwrite : ∀ t t', Write X ctx ⟨True, True, False⟩ t t' → t'.rounds.get? ep = some r →
      t.rounds.get? ep = some r := by
    intro t t' hwrite ht
    cases hwrite with
    | ledger hcore => exact (congrArg State.rounds hcore : t'.core.rounds = _) ▸ ht
    | release =>
      have hkept := maybePruneEpoch_rounds ht
      exact hkept
    | openRound _ _ _ _ _ hend => exact hend.elim
    | failRound _ _ hend => exact hend.elim
    | activate _ _ _ _ _ _ hend => exact hend.elim
    | _ => exact ht
  have hrun : ∀ t, Writes X ctx ⟨True, True, False⟩ s t → t.rounds.get? ep = some r →
      s.rounds.get? ep = some r := by
    intro t hrun
    induction hrun with
    | refl => exact fun h => h
    | tail _ hstep ih => exact fun h => ih (hwrite _ _ hstep h)
  by_cases hparams : ∃ msg, a = .updateParams msg
  · obtain ⟨msg, rfl⟩ := hparams
    simp only [step] at hr
    cases hres : s.updateParams X ctx msg with
    | error err => rwa [hres] at hr
    | ok s' =>
      rw [hres] at hr
      obtain ⟨p, -, rfl, -⟩ := updateParams_spec hres
      exact hr
  by_cases hshare : ∃ msg, a = .submitDecryptionShare msg
  · obtain ⟨msg, rfl⟩ := hshare
    simp only [step] at hr
    cases hres : s.submitDecryptionShare ctx msg with
    | error err => rwa [hres] at hr
    | ok s' =>
      rw [hres] at hr
      obtain ⟨-, -, -, rfl⟩ := submitDecryptionShare_spec hres
      exact hr
  exact hrun _ (step_writes s (fun msg h => hparams ⟨msg, h⟩) (fun msg h => hshare ⟨msg, h⟩)
    (.inl trivial) (.inl trivial) (.inr ha)) hr

/-! ## Resolution -/

theorem length_numberMembers (index : Nat) (ms : List RoundMember) :
    (numberMembers index ms).length = ms.length := by
  induction ms generalizing index with
  | nil => rfl
  | cons m ms ih => rw [numberMembers, List.length_cons, List.length_cons, ih]

theorem not_weighted_numberMembers {index : Nat} {ms : List RoundMember}
    (hms : ∀ m ∈ ms, m.weighted = false) : ∀ m ∈ numberMembers index ms, m.weighted = false := by
  induction ms generalizing index with
  | nil => exact nofun
  | cons m ms ih =>
    intro x hx
    cases List.mem_cons.mp hx with
    | inl heq => exact heq ▸ hms m List.mem_cons_self
    | inr htail => exact ih (fun y hy => hms y (List.mem_cons_of_mem _ hy)) x htail

theorem transparentMembers_fit (ctx : Ctx) (s : State) (p : Params) :
    8 * (transparentMembers ctx s p).length ≤ p.effectiveShareBudget := by
  unfold transparentMembers
  simp only [length_numberMembers, List.length_map, List.length_insertionSort, List.length_take]
  have hdiv := Nat.mul_div_le p.effectiveShareBudget minShareBudgetPerMember
  have hmin : minShareBudgetPerMember = 8 := rfl
  rw [hmin] at hdiv ⊢
  omega

theorem activeMembers_not_weighted (ctx : Ctx) (s : State) (p : Params) :
    (activeMembers ctx s p).any RoundMember.weighted = false := by
  rw [List.any_eq_false]
  unfold activeMembers transparentMembers
  intro m hm
  rw [Bool.not_eq_true]
  split_ifs at hm
  · refine not_weighted_numberMembers (fun x hx => ?_) m hm
    obtain ⟨c, -, rfl⟩ := List.mem_map.mp hx
    rfl
  · refine not_weighted_numberMembers (fun x hx => ?_) m hm
    obtain ⟨d, -, rfl⟩ := List.mem_map.mp hx
    rfl

/-- What a retry with the stored committee has to meet: on the transparent path the budget in force
has eight points per stored member, on the declared path the stored committee is not weighted. -/
def RetryFits (X : External) : Allow := fun s ctx a =>
  match a with
  | .endBlockDKG => ∀ last ∈ s.lastRound, last.status ≠ .active →
    last.membersHash ≠ membersHash X (activeMembers ctx s s.params) →
    rekeyDampened s s.params ctx.height = true →
    if s.params.dkgTransparent then 8 * last.members.length ≤ s.params.effectiveShareBudget
    else last.members.any RoundMember.weighted = false
  | _ => True

instance (s : State) (ctx : Ctx) (a : Action) : Decidable (RetryFits X s ctx a) := by
  apply @Action.casesOn (fun a => Decidable (RetryFits X s ctx a)) a <;> intros <;>
    unfold RetryFits <;> infer_instance

end State

/-- A weighted round with this strict flag keeps its stake resolution. -/
structure DkgRound.Resolved (r : DkgRound) (strict : Bool) : Prop where
  points : 8 * r.members.length ≤ totalEvalPoints r.members
  threshold : r.threshold = stakeThreshold r.members strict
  strict_lt : strict = true → r.threshold < totalEvalPoints r.members

theorem DkgRound.Resolved.opened {r' : DkgRound} {strict : Bool} (h : r.Resolved strict)
    (hsame : r.opened = r'.opened) : r'.Resolved strict := by
  have hmembers : r.members = r'.members := (congrArg DkgRound.members hsame : r.opened.members = _)
  have hthreshold : r.threshold = r'.threshold :=
    (congrArg DkgRound.threshold hsame : r.opened.threshold = _)
  exact ⟨hmembers ▸ h.points, hmembers ▸ hthreshold ▸ h.threshold,
    hmembers ▸ hthreshold ▸ h.strict_lt⟩

theorem State.Opened.resolved (h : State.Opened X ctx s p members s' r)
    (hfits : if p.dkgTransparent then 8 * members.length ≤ p.effectiveShareBudget
      else members.any RoundMember.weighted = false)
    (hw : r.members.any RoundMember.weighted = true) :
    r.Resolved p.dkgStrictConcentration := by
  have hsized := h.sized
  split_ifs at hsized hfits with htransparent
  · obtain ⟨halloc, hthreshold⟩ := hsized
    obtain ⟨hall, htotal⟩ := allocateEvalPoints_weighted halloc hw
    have hlen : r.members.length = members.length := by
      simpa using congrArg List.length (allocateEvalPoints_plain halloc)
    have hpoints : 8 * r.members.length ≤ totalEvalPoints r.members := by omega
    refine ⟨hpoints, hthreshold, fun hstrict => ?_⟩
    rw [hthreshold, hstrict]
    refine stakeThreshold_strict_lt hall (fun hnil => ?_) hpoints
    simp [hnil] at hw
  · rw [hsized.1, hfits] at hw
    cases hw

/-! ## Imported rounds -/

theorem checkPoints_length {i : Nat} {ps seen seen' : List Nat}
    (h : checkPoints i seen ps = .ok seen') : seen'.length = seen.length + ps.length := by
  induction ps generalizing seen with
  | nil =>
    cases h
    rfl
  | cons p ps ih =>
    rw [checkPoints] at h
    split_ifs at h
    rw [ih h, List.length_cons, List.length_cons]
    omega

theorem checkWeightedMembers_spec {i : Nat} {seen seen' : List Nat} {total total' : Int}
    {ms : List RoundMember} (h : checkWeightedMembers i seen total ms = .ok (seen', total')) :
    (∀ m ∈ ms, m.weighted = true)
      ∧ seen'.length = seen.length + (ms.map fun m => m.evalPoints.length).sum := by
  induction ms generalizing i seen total with
  | nil =>
    cases h
    exact ⟨nofun, rfl⟩
  | cons m ms ih =>
    rw [checkWeightedMembers] at h
    by_cases hweighted : m.weighted = false
    · rw [if_pos hweighted] at h
      cases h
    rw [if_neg hweighted] at h
    by_cases hneg : m.weight < 0
    · rw [if_pos hneg] at h
      cases h
    rw [if_neg hneg] at h
    cases hadd : add256 total m.weight with
    | none => simp [hadd] at h
    | some total₁ =>
      simp only [hadd] at h
      split_ifs at h
      cases hpoints : checkPoints i seen m.evalPoints with
      | error err => simp [hpoints] at h
      | ok seen₁ =>
        simp only [hpoints] at h
        obtain ⟨hall, hlen⟩ := ih h
        rw [checkPoints_length hpoints] at hlen
        refine ⟨List.forall_mem_cons.mpr ⟨by simpa using hweighted, hall⟩, ?_⟩
        rw [hlen, List.map_cons, List.sum_cons]
        omega

theorem validateImportedRound_threshold (h : validateImportedRound X r = .ok ())
    (hw : r.members.any RoundMember.weighted = true) :
    r.threshold = stakeThreshold r.members false := by
  obtain ⟨-, -, -, hnonzero, hle, -, hweighted⟩ := validateImportedRound_eq_ok.mp h
  have hround := hweighted hw
  unfold validateWeightedRound at hround
  split at hround
  · cases hround
  · rename_i seen total hmembers
    simp only [bind_unit_eq_ok, rejectIf_eq_ok, not_not] at hround
    obtain ⟨hall, hlen⟩ := checkWeightedMembers_spec hmembers
    rw [List.length_nil, Nat.zero_add, ← totalEvalPoints_of_weighted hall] at hlen
    have hthreshold := hround.2.2
    rw [hlen] at hthreshold
    have hwrap := wrap32_le (2 * totalEvalPoints r.members / 3 + 1)
    unfold wantThreshold at hthreshold
    unfold stakeThreshold
    simp only [hw] at hthreshold ⊢
    rw [if_neg (by omega)] at hthreshold
    rw [if_neg (by omega), if_neg (by simp), if_neg (by simp), hthreshold]
    congr 1
    omega

/-! ## Runs -/

/-- The strict flag in force when the round `r` of the chain state `c` was opened: that of the state
whose end-block moved the chain to the epoch of `r` and stored it, later than which the run led to
`c`. A genesis does not record the flag; its check admits the lax threshold only. -/
def FlagAtOpening (X : External) (allow : Allow) (gs : GenesisState) (h : Nat) (c : Chain)
    (r : DkgRound) (strict : Bool) : Prop :=
  (∃ r₀ ∈ gs.dkgRounds, r₀.opened = r.opened ∧ strict = false)
    ∨ ∃ c₀ ctx, Chain.Reachable X allow gs h c₀ ∧ c₀.height ≤ ctx.height
      ∧ c₀.state.currentEpoch ≠ r.epoch
      ∧ (c₀.state.endBlockDKG X ctx).currentEpoch = r.epoch
      ∧ (c₀.state.endBlockDKG X ctx).rounds.get? r.epoch = some r.opened
      ∧ r.openHeight = ctx.height ∧ strict = c₀.state.params.dkgStrictConcentration
      ∧ Relation.ReflTransGen (Chain.Step X allow) ⟨ctx.height, c₀.state.endBlockDKG X ctx⟩ c

theorem FlagAtOpening.step {allow : Allow} {gs : GenesisState} {h : Nat} {c c' : Chain}
    {r' : DkgRound} {strict : Bool} (hflag : FlagAtOpening X allow gs h c r strict)
    (hstep : Chain.Step X allow c c') (hsame : r.opened = r'.opened) :
    FlagAtOpening X allow gs h c' r' strict := by
  have hepoch : r.epoch = r'.epoch := (congrArg DkgRound.epoch hsame : r.opened.epoch = _)
  have hheight : r.openHeight = r'.openHeight :=
    (congrArg DkgRound.openHeight hsame : r.opened.openHeight = _)
  refine hflag.imp ?_ ?_
  · rintro ⟨r₀, hr₀, hopened, hstrict⟩
    exact ⟨r₀, hr₀, hopened.trans hsame, hstrict⟩
  · rintro ⟨c₀, ctx, hreach, hle, hne, hcur, hstored, hopen, hstrict, hrun⟩
    rw [hepoch] at hne hcur hstored
    rw [hsame] at hstored
    rw [hheight] at hopen
    exact ⟨c₀, ctx, hreach, hle, hne, hcur, hstored, hopen, hstrict, hrun.tail hstep⟩

/-- **Weighted committees keep their stake resolution.** Along every run whose retries inside the
rekey gap fit, every stored weighted round has eight points per member and the threshold of its
members under the strict flag in force when it was opened, below the number of points if strict. The
rounds of the genesis have to bring their eight points per member. -/
theorem weightedRounds_resolved {gs : GenesisState}
    (hgs : ∀ r ∈ gs.dkgRounds, r.members.any RoundMember.weighted = true →
      8 * r.members.length ≤ totalEvalPoints r.members) {h : Nat} {c : Chain}
    (hreach : Chain.Reachable X (State.RetryFits X) gs h c) {ep : Nat} {r : DkgRound}
    (hr : c.state.rounds.get? ep = some r) (hw : r.members.any RoundMember.weighted = true) :
    8 * r.members.length ≤ totalEvalPoints r.members
      ∧ ∃ strict, FlagAtOpening X (State.RetryFits X) gs h c r strict
        ∧ r.threshold = stakeThreshold r.members strict
        ∧ (strict = true → r.threshold < totalEvalPoints r.members) := by
  have hinv : Chain.Reachable X (State.RetryFits X) gs h c
      ∧ ∀ ep r, c.state.rounds.get? ep = some r → r.members.any RoundMember.weighted = true →
        ∃ strict, FlagAtOpening X (State.RetryFits X) gs h c r strict ∧ r.Resolved strict := by
    refine hreach.invariant (I := fun c => Chain.Reachable X (State.RetryFits X) gs h c
      ∧ ∀ ep r, c.state.rounds.get? ep = some r → r.members.any RoundMember.weighted = true →
        ∃ strict, FlagAtOpening X (State.RetryFits X) gs h c r strict ∧ r.Resolved strict) ?_ ?_
    · intro s hs
      refine ⟨⟨s, hs, .refl⟩, fun ep r hr hw => ?_⟩
      have himp := State.initGenesis_imported hs
      obtain ⟨hmem, -⟩ := GenesisState.roundOf_spec ((himp.round ep).symm.trans hr)
      exact ⟨false, .inl ⟨r, hmem, rfl, rfl⟩, hgs r hmem hw,
        validateImportedRound_threshold (himp.accepted.round r hmem).2 hw, nofun⟩
    · rintro c ctx a hle hallow ⟨hc, hrounds⟩
      have hstep : Chain.Step X (State.RetryFits X) c ⟨ctx.height, c.state.step X ctx a⟩ :=
        ⟨ctx, a, hle, hallow, rfl⟩
      obtain ⟨s₀, hs₀, hrun⟩ := id hc
      refine ⟨⟨s₀, hs₀, hrun.tail hstep⟩, fun ep r hr hw => ?_⟩
      have hkept : ∀ r₀, c.state.rounds.get? ep = some r₀ → r₀.opened = r.opened →
          ∃ strict, FlagAtOpening X (State.RetryFits X) gs h ⟨ctx.height, c.state.step X ctx a⟩ r
            strict ∧ r.Resolved strict := by
        intro r₀ hr₀ hsame
        have hmembers : r₀.members = r.members :=
          (congrArg DkgRound.members hsame : r₀.opened.members = _)
        obtain ⟨strict, hflag, hres⟩ := hrounds ep r₀ hr₀ (hmembers ▸ hw)
        exact ⟨strict, hflag.step hstep hsame, hres.opened hsame⟩
      by_cases ha : a = .endBlockDKG
      · subst ha
        obtain ⟨r₀, hr₀, hsame⟩ | ⟨members, hopened, hcommittee⟩ := State.endBlockDKG_opened hr
        · exact hkept r₀ hr₀ hsame
        · have hself : r.opened = r := by
            unfold DkgRound.opened
            rw [← hopened.isOpen]
          have hfits : if c.state.params.dkgTransparent
              then 8 * members.length ≤ c.state.params.effectiveShareBudget
              else members.any RoundMember.weighted = false := by
            obtain rfl | ⟨last, hlast, hstatus, hchanged, hdamp, rfl⟩ := hcommittee
            · split_ifs with htransparent
              · rw [activeMembers, if_pos htransparent]
                exact State.transparentMembers_fit ctx c.state c.state.params
              · exact State.activeMembers_not_weighted ctx c.state c.state.params
            · exact hallow last hlast hstatus hchanged hdamp
          refine ⟨c.state.params.dkgStrictConcentration, .inr ⟨c, ctx, hc, hle, ?_, hopened.current,
            hself.symm ▸ hopened.stored, hopened.height, rfl, .refl⟩, hopened.resolved hfits hw⟩
          rw [hopened.epoch, wrap64]
          omega
      · exact hkept r (State.step_rounds ha hr) rfl
  obtain ⟨strict, hflag, hres⟩ := hinv.2 ep r hr hw
  exact ⟨hres.points, strict, hflag, hres.threshold, hres.strict_lt⟩

/-! ## A committee of five -/

namespace Sample

def crew : List Bytes :=
  [bytesOf "cosmosvaloper1daagtyym56cme37jmh508lsfzs0j5d2qj2jjwe",
   bytesOf "cosmosvaloper1ff2kq6mksxxf0g4dhrpuak0yalaq2yqm5he06a",
   bytesOf "cosmosvaloper1h8zvlkh97rasvyguyuer6jznte5hglu2kxgrk6",
   bytesOf "cosmosvaloper1jj064dwqe0twrm8hqgx3sgew89zy7kn946lnw9",
   bytesOf "cosmosvaloper1y5crk3j3t3nhylvgjw02nd9let27p6lk2g9gxs"]

def crewKeys : List EncKeyReg :=
  (crew.zip [1, 2, 3, 5, 7]).map fun p => { operator := p.1, key := point p.2 }

/-- The hash input of the first `n` of the crew. -/
def crewInput (n : Nat) : Bytes :=
  (crewKeys.take n).flatMap fun k => k.operator ++ [0] ++ k.key ++ [0]

/-- The tie-break digests of the crew in an epoch. -/
def crewTies (epoch : Nat) (digests : List Nat) : List (Bytes × Bytes) :=
  (crew.zip digests).map fun p =>
    (bytesOf "encmempool/dkg/remainder-seat-tiebreak/v1" ++ be64 epoch ++ p.1, beBytes 32 p.2)

def crewPrimitives : External :=
  .ofTables
    { points := points, accounts := [account]
      digests :=
        [(crewInput 5, beBytes 32 0xD4BF0954895C6BE8A57EFCCCF0B7F3545C2589957E12152C28B71F63904CE56B),
         (crewInput 4, beBytes 32 0xEE5073FD463343B0EE022B8580758A2FEA9A3961682F18F42FB24BBC94CF238C)]
        ++ crewTies 2
          [0x71183C7138673A56ABE52F79EFCC9AEBCA9C1F7CD813C61EFEB5412C1178A284,
           0x82168ABD99E1F43B027A27D95C6A002A3C14B0E8027E7CD033C4B78D1E67657C,
           0x4F2DA3B5FFE5AD30FDF2CB6036FF4FCC226F377547EFA1729DB7FF8CB74EBEEE,
           0xF45C96D935030F78F7E6D4D99703BA0412DD3AF53C2C9A428E567F9FD37B871B,
           0x77CD6AF84D1D222808529DC445727D09DD157FB0D914A4043A8E2D2C9CB6C26A]
        ++ crewTies 3
          [0x729C99E1493749B386BC6860D6992050C87FE435D456256D09E62B8983EF7B55,
           0xE24E43161DE84B0E5553A5E0C0F1F1D1614DF79DAB6BF4E8AAF43E4401FF6573,
           0xFF2E4EC555457C0C508245C5A33490CDF15AD08DF5CBAC90432B213F49FE28E7,
           0x2268567F3E0008FC153C2ECBE9F194EB94A76E2C45A1D40F518C53D09A0DF809,
           0x03AD4CD823AE99657551C3D185DAED63E0B2C981319EF5A046FFF5E4550ADEB0] }

/-- A block with the crew bonded and vote extensions on. -/
def crewBlock (height : Nat) (hheight : height < 2 ^ 63) : Ctx :=
  { block height hheight with
    bonded := crew.zip [50, 40, 30, 20, 10], bonded_nodup := by decide +kernel
    tokens_nonneg := by decide +kernel, voteExtEnableHeight := some 1 }

/-- A strict chain with room for the whole crew, after a failed round of somebody else. -/
def crewGenesis : GenesisState :=
  { dkgGenesis 1 0 0 [round 1 .failed] [] [] with
    params := { defaultParams with
      dkgEnabled := true, dkgTransparent := true, dkgStrictConcentration := true
      dkgMaxMembers := 5, dkgShareBudget := 40, dkgMinRekeyGap := 1000 }
    encSeq := 0, encTxs := [], encKeys := crewKeys }

/-- Governance cuts the committee to four and the budget with it. -/
def cutCrew : MsgUpdateParams :=
  { authority := bytesOf "cosmos10d07y265gmmuvt4z0w9aw880jnsr700j6zn9kn"
    params := some { crewGenesis.params with dkgMaxMembers := 4, dkgShareBudget := 32 } }

end Sample

open Sample

/-- The first round of the crew is resolved under the strict flag. -/
theorem weightedRounds_resolved_crew : ∃ c, ∃ r,
    Chain.Reachable crewPrimitives (State.RetryFits crewPrimitives)
      crewGenesis 9 c
    ∧ c.state.rounds.get? 2 = some r ∧ r.members.any RoundMember.weighted = true
    ∧ 8 * r.members.length ≤ totalEvalPoints r.members
    ∧ ∃ strict, FlagAtOpening crewPrimitives (State.RetryFits crewPrimitives)
        crewGenesis 9 c r strict ∧ r.threshold = stakeThreshold r.members strict
      ∧ (strict = true → r.threshold < totalEvalPoints r.members) := by
  obtain ⟨c, hreach, r, hr, hw⟩ : ∃ c,
      Chain.Reachable crewPrimitives (State.RetryFits crewPrimitives)
        crewGenesis 9 c
      ∧ ∃ r ∈ c.state.rounds.get? 2, r.members.any RoundMember.weighted = true :=
    Chain.exists_reachable [(crewBlock 10 (by decide), .endBlockDKG)] (by decide +kernel)
  exact ⟨c, r, hreach, hr, hw, weightedRounds_resolved (by decide +kernel) hreach hr hw⟩

/-- Governance lowers the budget while a round is open. When the round fails, its five members are
reopened inside the rekey gap with the 32 points of the new budget. -/
theorem weightedRounds_shrunk : ∃ c,
    Chain.Reachable crewPrimitives (fun _ _ _ => True) crewGenesis 9 c
    ∧ ∃ r ∈ c.state.rounds.get? 3, r.members.length = 5 ∧ totalEvalPoints r.members = 32
      ∧ ∀ m ∈ r.members, m.weighted = true :=
  Chain.exists_reachable
    [(crewBlock 10 (by decide), .endBlockDKG),
     (crewBlock 11 (by decide), .updateParams cutCrew),
     (crewBlock 100 (by decide), .endBlockDKG)]
    (by decide +kernel)

end EncMempool
