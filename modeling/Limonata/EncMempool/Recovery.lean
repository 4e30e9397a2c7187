import Limonata.EncMempool.Simulation

/-!
# x/encmempool — recovery from a poisoned key

A verified poison report and a run of stranded ciphertexts are both recorded as the strand streak
of an epoch; `EndBlockDKG` reads the streak of the serving round and opens a fresh epoch once it
reaches `decryptHealthStrandThreshold`. This module determines when an `EndBlockDKG` over an
active round opens the next epoch, and what the phases of one block do to the streak in between.

The stake arithmetic of `EndBlockDKG` panics above 256 bits. The bounds under which it does not
are a fact about the token amounts of the staking module, collected in `StakesFit`.
-/

namespace EncMempool

open Machine

variable {ms snapshot live : List RoundMember} {budget : Nat}

/-! ## Stake arithmetic within 256 bits -/

theorem stake_nonneg (hnn : ∀ m ∈ ms, 0 ≤ m.weight) : 0 ≤ stake ms :=
  List.sum_nonneg (by simpa using hnn)

theorem weight_le_stake (hnn : ∀ m ∈ ms, 0 ≤ m.weight) {m : RoundMember} (hm : m ∈ ms) :
    m.weight ≤ stake ms :=
  List.single_le_sum (by simpa using hnn) _ (List.mem_map_of_mem hm)

theorem sumWeights_eq {acc : Int} (hnn : ∀ m ∈ ms, 0 ≤ m.weight) (hacc : 0 ≤ acc)
    (hfits : acc + stake ms < 2 ^ 256) : sumWeights ms acc = some (acc + stake ms) := by
  induction ms generalizing acc with
  | nil => simp [sumWeights, stake]
  | cons m ms ih =>
    obtain ⟨hm, hnn⟩ := List.forall_mem_cons.mp hnn
    have hcons : stake (m :: ms) = m.weight + stake ms := by simp [stake]
    have hrest := stake_nonneg hnn
    rw [sumWeights, add256_eq_some.mpr ⟨by omega, rfl⟩, Option.bind_some, ih hnn (by omega) (by omega),
      hcons, add_assoc]

/-- The weight of an operator, zero if it is not in the list. -/
def weightAt (ms : List RoundMember) (op : Bytes) : Int := (weightOf? ms op).getD 0

def operators (ms : List RoundMember) : Finset Bytes := (ms.map RoundMember.operatorAddr).toFinset

theorem weightOf?_eq_none {op : Bytes} : weightOf? ms op = none ↔ op ∉ operators ms := by
  simp [weightOf?, operators]

section Loops

variable {ms snapshot live : List RoundMember}

theorem weightAt_nonneg (hnn : ∀ m ∈ ms, 0 ≤ m.weight) (op : Bytes) : 0 ≤ weightAt ms op := by
  unfold weightAt weightOf?
  cases hfind : ms.reverse.find? (fun m => m.operatorAddr = op) with
  | none => exact le_rfl
  | some m => exact hnn m (List.mem_reverse.mp (List.mem_of_find?_eq_some hfind))

theorem weightAt_le (hnn : ∀ m ∈ ms, 0 ≤ m.weight) (op : Bytes) : weightAt ms op ≤ stake ms := by
  unfold weightAt weightOf?
  cases hfind : ms.reverse.find? (fun m => m.operatorAddr = op) with
  | none => exact stake_nonneg hnn
  | some m => exact weight_le_stake hnn (List.mem_reverse.mp (List.mem_of_find?_eq_some hfind))

theorem int256_bind_add {a b : Int} (ha : 0 ≤ a) (hb : 0 ≤ b) :
    ((int256 a).bind fun x => int256 (x + b)) = int256 (a + b) := by
  unfold int256
  split_ifs with h₁ h₂
  · exact if_pos h₂
  · exact if_neg h₂
  · omega
  · rfl

theorem sum_abs_nonneg (g : RoundMember → Int) : 0 ≤ (ms.map fun m => |g m|).sum := by
  refine List.sum_nonneg fun x hx => ?_
  obtain ⟨m, -, rfl⟩ := List.mem_map.mp hx
  exact abs_nonneg _

/-- The live members that the snapshot lacks. -/
def newcomers (snapshot live : List RoundMember) : List RoundMember :=
  live.filter fun m => m.operatorAddr ∉ operators snapshot

variable {S L acc : Int} (hB : S * L < 2 ^ 256) (hS : 0 ≤ S) (hacc : 0 ≤ acc) (hlt : acc < 2 ^ 256)
include hB hS hacc hlt

/-- The loop over the snapshot: each product is at most `S * L`, so only the sum can panic. -/
theorem snapshotDrift_eq (hL : 0 ≤ L) (hlive : ∀ op, 0 ≤ weightAt live op ∧ weightAt live op ≤ L)
    (hms : ∀ m ∈ ms, 0 ≤ m.weight ∧ m.weight ≤ S) :
    snapshotDrift live S L ms acc
      = int256 (acc + (ms.map fun m => |weightAt live m.operatorAddr * S - m.weight * L|).sum) := by
  induction ms generalizing acc with
  | nil => simpa [snapshotDrift] using (int256_eq_some.mpr ⟨by omega, rfl⟩).symm
  | cons m ms ih =>
    obtain ⟨⟨hw0, hwS⟩, hms⟩ := List.forall_mem_cons.mp hms
    obtain ⟨hv0, hvL⟩ := hlive m.operatorAddr
    have ha0 : 0 ≤ weightAt live m.operatorAddr * S := mul_nonneg hv0 hS
    have ha : weightAt live m.operatorAddr * S ≤ S * L := by
      rw [mul_comm S L]
      exact mul_le_mul_of_nonneg_right hvL hS
    have hb0 : 0 ≤ m.weight * L := mul_nonneg hw0 hL
    have hb : m.weight * L ≤ S * L := mul_le_mul_of_nonneg_right hwS hL
    show (mul256 (weightAt live m.operatorAddr) S).bind _ = _
    rw [mul256_eq_some.mpr ⟨by omega, rfl⟩, Option.bind_some, mul256_eq_some.mpr ⟨by omega, rfl⟩,
      Option.bind_some, int256_eq_some.mpr ⟨by omega, rfl⟩, Option.bind_some, Int.natCast_natAbs,
      List.map_cons, List.sum_cons, ← add_assoc]
    have hd := abs_nonneg (weightAt live m.operatorAddr * S - m.weight * L)
    rw [← int256_bind_add (by omega) (sum_abs_nonneg _)]
    refine Option.bind_congr fun x hx => ?_
    obtain ⟨hfits, rfl⟩ := int256_eq_some.mp hx
    exact ih (by omega) (by omega) hms

theorem newcomerDrift_eq (hms : ∀ m ∈ ms, 0 ≤ m.weight ∧ m.weight ≤ L) :
    newcomerDrift snapshot S ms acc
      = int256 (acc + ((newcomers snapshot ms).map fun m => |m.weight * S|).sum) := by
  induction ms generalizing acc with
  | nil => simpa [newcomerDrift, newcomers] using (int256_eq_some.mpr ⟨by omega, rfl⟩).symm
  | cons m ms ih =>
    obtain ⟨⟨hw0, hwL⟩, hms⟩ := List.forall_mem_cons.mp hms
    rw [newcomerDrift]
    by_cases hin : m.operatorAddr ∈ operators snapshot
    · have hskip : newcomers snapshot (m :: ms) = newcomers snapshot ms :=
        List.filter_cons_of_neg (by simpa using hin)
      rw [if_pos (Option.isSome_iff_ne_none.mpr fun h => weightOf?_eq_none.mp h hin), hskip]
      exact ih hacc hlt hms
    · have htake : newcomers snapshot (m :: ms) = m :: newcomers snapshot ms :=
        List.filter_cons_of_pos (by simpa using hin)
      have ha0 : 0 ≤ m.weight * S := mul_nonneg hw0 hS
      have ha : m.weight * S ≤ S * L := by
        rw [mul_comm S L]
        exact mul_le_mul_of_nonneg_right hwL hS
      have hd := abs_nonneg (m.weight * S)
      rw [weightOf?_eq_none.mpr hin, if_neg nofun, mul256_eq_some.mpr ⟨by omega, rfl⟩, Option.bind_some,
        Int.natCast_natAbs, htake, List.map_cons, List.sum_cons, ← add_assoc,
        ← int256_bind_add (by omega) (sum_abs_nonneg _)]
      refine Option.bind_congr fun x hx => ?_
      obtain ⟨hfits, rfl⟩ := int256_eq_some.mp hx
      exact ih (by omega) (by omega) hms

end Loops

/-- The token amounts a rekey computes with stay within 256 bits: the snapshot of the serving
round, the live committee and the budget of the new round. -/
@[mk_iff] structure StakesFit (snapshot live : List RoundMember) (budget : Nat) : Prop where
  snapshot_nonneg : ∀ m ∈ snapshot, 0 ≤ m.weight
  snapshot_lt : stake snapshot < 2 ^ 256
  live_lt : stake live < 2 ^ 256
  seats : stake live * budget < 2 ^ 256
  drift : maxBpsDenominator * ((snapshot.length + live.length : Nat)
    * (stake snapshot * stake live)) < 2 ^ 256

instance (snapshot live : List RoundMember) (budget : Nat) :
    Decidable (StakesFit snapshot live budget) :=
  decidable_of_iff' _ (stakesFit_iff snapshot live budget)

theorem sum_abs_le {g : RoundMember → Int} {B : Int} (h : ∀ m ∈ ms, |g m| ≤ B) :
    (ms.map fun m => |g m|).sum ≤ ms.length * B := by
  rw [← nsmul_eq_mul, ← List.length_map (fun m => |g m|)]
  refine List.sum_le_card_nsmul _ B fun x hx => ?_
  obtain ⟨m, hm, rfl⟩ := List.mem_map.mp hx
  exact h m hm

theorem StakesFit.drift_eq_some (hfit : StakesFit snapshot live budget)
    (hlive : ∀ m ∈ live, 0 ≤ m.weight) (hne : live ≠ []) :
    ∃ bps, committeeMaxCoalitionDriftBps snapshot live = some bps := by
  have hS := stake_nonneg hfit.snapshot_nonneg
  have hL := stake_nonneg hlive
  have hB : 0 ≤ stake snapshot * stake live := mul_nonneg hS hL
  have hpos : 1 ≤ live.length := List.length_pos_iff.mpr hne
  unfold committeeMaxCoalitionDriftBps
  rw [sumWeights_eq hfit.snapshot_nonneg le_rfl (by have := hfit.snapshot_lt; omega), zero_add,
    Option.bind_some, sumWeights_eq hlive le_rfl (by have := hfit.live_lt; omega), zero_add,
    Option.bind_some]
  split_ifs
  · exact ⟨0, rfl⟩
  -- from here on every intermediate value is at most the bound of `hfit.drift`
  have hfit' := hfit.drift
  have hsplit : ((snapshot.length + live.length : Nat) : Int) * (stake snapshot * stake live)
      = snapshot.length * (stake snapshot * stake live)
        + live.length * (stake snapshot * stake live) := by push_cast; ring
  have hB' : stake snapshot * stake live ≤ live.length * (stake snapshot * stake live) :=
    le_mul_of_one_le_left hB (by exact_mod_cast hpos)
  have hrest : 0 ≤ (snapshot.length : Int) * (stake snapshot * stake live) :=
    mul_nonneg (by positivity) hB
  rw [hsplit] at hfit'
  simp only [maxBpsDenominator] at hfit' ⊢
  have hdiff (a b : Int) (ha : 0 ≤ a) (ha' : a ≤ stake snapshot * stake live) (hb : 0 ≤ b)
      (hb' : b ≤ stake snapshot * stake live) : |a - b| ≤ stake snapshot * stake live :=
    abs_le.mpr ⟨by omega, by omega⟩
  have hcross (op : Bytes) : weightAt live op * stake snapshot ≤ stake snapshot * stake live := by
    rw [mul_comm (stake snapshot)]
    exact mul_le_mul_of_nonneg_right (weightAt_le hlive op) hS
  have hkept := sum_abs_le fun m hm => hdiff _ _
    (mul_nonneg (weightAt_nonneg hlive m.operatorAddr) hS) (hcross m.operatorAddr)
    (mul_nonneg (hfit.snapshot_nonneg m hm) hL)
    (mul_le_mul_of_nonneg_right (weight_le_stake hfit.snapshot_nonneg hm) hL)
  have hnew := @sum_abs_le (newcomers snapshot live) (fun m => m.weight * stake snapshot)
      (stake snapshot * stake live) fun m hm => by
    have hm := List.mem_of_mem_filter hm
    rw [abs_of_nonneg (mul_nonneg (hlive m hm) hS), mul_comm (stake snapshot)]
    exact mul_le_mul_of_nonneg_right (weight_le_stake hlive hm) hS
  have hfew : ((newcomers snapshot live).length : Int) * (stake snapshot * stake live)
      ≤ live.length * (stake snapshot * stake live) :=
    mul_le_mul_of_nonneg_right (Int.ofNat_le.mpr (List.length_filter_le _ _)) hB
  have hkept0 := @sum_abs_nonneg snapshot fun m =>
    weightAt live m.operatorAddr * stake snapshot - m.weight * stake live
  have hnew0 := @sum_abs_nonneg (newcomers snapshot live) fun m => m.weight * stake snapshot
  rw [snapshotDrift_eq (by omega) hS le_rfl (by norm_num) hL
      (fun op => ⟨weightAt_nonneg hlive op, weightAt_le hlive op⟩)
      (fun m hm => ⟨hfit.snapshot_nonneg m hm, weight_le_stake hfit.snapshot_nonneg hm⟩), zero_add,
    int256_eq_some.mpr ⟨by omega, rfl⟩, Option.bind_some,
    newcomerDrift_eq (L := stake live) (by omega) hS hkept0 (by omega)
      (fun m hm => ⟨hlive m hm, weight_le_stake hlive hm⟩),
    int256_eq_some.mpr ⟨by omega, rfl⟩, Option.bind_some, mul256_eq_some.mpr ⟨by omega, rfl⟩,
    Option.bind_some, mul256_eq_some.mpr ⟨by omega, rfl⟩, Option.bind_some,
    mul256_eq_some.mpr ⟨by omega, rfl⟩]
  exact ⟨_, rfl⟩

theorem StakesFit.allocate_eq_some {sha256 : Bytes → Bytes} {epoch : Nat}
    (hfit : StakesFit snapshot live budget) (hlive : ∀ m ∈ live, 0 ≤ m.weight) :
    ∃ out, allocateEvalPoints sha256 live budget epoch = some out := by
  by_cases hweighted : 0 < budget ∧ 0 < stake live
  · refine ⟨_, allocateEvalPoints_eq sha256 epoch ⟨hlive, hweighted.2, hfit.live_lt,
      fun m hm => ?_, hweighted.1⟩⟩
    have hle : m.weight * budget ≤ stake live * budget :=
      mul_le_mul_of_nonneg_right (weight_le_stake hlive hm) (by positivity)
    exact lt_of_le_of_lt hle hfit.seats
  · refine ⟨live.map unweightedPoints, ?_⟩
    unfold allocateEvalPoints
    rw [totalPositiveWeight_eq hlive le_rfl (by have := hfit.live_lt; omega), Option.bind_some,
      if_pos (by omega)]

/-! ## When an active round is superseded -/

theorem activeMembers_congr {ctx : Ctx} {s s' : State} (p : Params)
    (hkeys : ∀ op ∈ ctx.bonded.map Prod.fst, s'.getEncPubKey op = s.getEncPubKey op) :
    activeMembers ctx s' p = activeMembers ctx s p := by
  have hcands : ∀ v ∈ ctx.bonded,
      (s'.getEncPubKey v.1).map (fun key => TransparentCandidate.mk v.1 v.2 key)
        = (s.getEncPubKey v.1).map (fun key => TransparentCandidate.mk v.1 v.2 key) :=
    fun v hv => by rw [hkeys v.1 (List.mem_map_of_mem hv)]
  unfold activeMembers transparentMembers
  rw [List.filterMap_congr hcands]

theorem weight_numberMembers {index : Nat} {P : Int → Prop} (hms : ∀ m ∈ ms, P m.weight) :
    ∀ m ∈ numberMembers index ms, P m.weight := by
  induction ms generalizing index with
  | nil => exact nofun
  | cons m ms ih =>
    intro x hx
    cases List.mem_cons.mp hx with
    | inl heq => exact heq ▸ hms m List.mem_cons_self
    | inr htail => exact ih (fun y hy => hms y (List.mem_cons_of_mem _ hy)) x htail

theorem activeMembers_weight_nonneg (ctx : Ctx) (s : State) (p : Params) :
    ∀ m ∈ activeMembers ctx s p, 0 ≤ m.weight := by
  unfold activeMembers transparentMembers
  split_ifs
  · apply weight_numberMembers
    intro m hm
    obtain ⟨c, hc, rfl⟩ := List.mem_map.mp hm
    have hranked := List.mem_of_mem_take (List.mem_of_mem_take
      ((List.perm_insertionSort _ _).mem_iff.mp hc))
    obtain ⟨v, hv, hcand⟩ := List.mem_filterMap.mp
      ((List.perm_insertionSort _ _).mem_iff.mp hranked)
    obtain ⟨key, -, rfl⟩ := Option.map_eq_some_iff.mp hcand
    exact ctx.tokens_nonneg v hv
  · apply weight_numberMembers
    intro m hm
    obtain ⟨d, -, rfl⟩ := List.mem_map.mp hm
    exact le_rfl

namespace State

variable {X : External} {ctx : Ctx}
variable {s : State} {round : DkgRound} {p : Params} {live : List RoundMember} {h : Nat}

/-- The block handler opened the epoch after the current one, at this height. -/
def OpensNext (ctx : Ctx) (s s' : State) : Prop :=
  s'.currentEpoch = s.currentEpoch + 1
    ∧ ∃ round, s'.lastRound = some round ∧ round.status = .isOpen ∧ round.openHeight = ctx.height

instance (s s' : State) : Decidable (OpensNext ctx s s') :=
  decidable_of_iff (s'.currentEpoch = s.currentEpoch + 1
      ∧ s'.lastRound.any (fun r => r.status = .isOpen ∧ r.openHeight = ctx.height) = true) (by
    simp [OpensNext, Option.any_eq_true])

/-- A transparent committee is serving: the DKG may run at this height, the latest round is
active and there are live members for a next one. -/
@[mk_iff] structure Serving (ctx : Ctx) (s : State) (round : DkgRound) : Prop where
  runnable : dkgRunnable ctx s.params = true
  transparent : s.params.dkgTransparent = true
  last : s.lastRound = some round
  active : round.status = .active
  members : activeMembers ctx s s.params ≠ []

instance (s : State) (round : DkgRound) : Decidable (Serving ctx s round) :=
  decidable_of_iff' _ (serving_iff ctx s round)

/-- Opening the next round succeeds unless the stake arithmetic panics, and it is the next epoch
unless the 64-bit epoch counter wraps. -/
theorem openRound_opensNext {u : State} {attempt : Nat} {members : List RoundMember}
    {hash : Bytes}
    (halloc : ∃ out, allocateEvalPoints X.sha256 members p.effectiveShareBudget
      (wrap64 (s.currentEpoch + 1)) = some out) :
    ∃ s', u.openRound X (wrap64 (s.currentEpoch + 1)) members hash ctx.height p attempt = some s'
      ∧ (OpensNext ctx s s' ↔ s.currentEpoch + 1 < 2 ^ 64) := by
  obtain ⟨out, halloc⟩ := halloc
  have hopened : ∃ s' round, u.openRound X (wrap64 (s.currentEpoch + 1)) members hash ctx.height p
        attempt = some s' ∧ s'.currentEpoch = wrap64 (s.currentEpoch + 1)
      ∧ s'.rounds.get? s'.currentEpoch = some round ∧ round.status = .isOpen
      ∧ round.openHeight = ctx.height := by
    unfold openRound
    cases p.dkgTransparent with
    | false => exact ⟨_, _, rfl, rfl, RecStore.get?_put_self _ _, rfl, rfl⟩
    | true =>
      rw [if_pos rfl, halloc]
      exact ⟨_, _, rfl, rfl, RecStore.get?_put_self _ _, rfl, rfl⟩
  obtain ⟨s', round, hsome, hcur, hround, hopen, hheight⟩ := hopened
  refine ⟨s', hsome, fun hnext => ?_, fun hroom => ?_⟩
  · rw [← hnext.1, hcur]
    exact wrap64_lt _
  · rw [wrap64_of_lt hroom] at hcur
    exact ⟨hcur, round, (if_pos (by omega)).trans hround, hopen, hheight⟩

/-- Whether the block handler supersedes the active `round`: after a change of the member set only
the dampener decides, otherwise the drift and health triggers do. -/
def Superseded (X : External) (ctx : Ctx) (s : State) (round : DkgRound) : Prop :=
  if round.membersHash ≠ membersHash X (activeMembers ctx s s.params) then
    rekeyDampened s s.params ctx.height = false
  else stakeDriftRekeyDue s round (activeMembers ctx s s.params) ctx.height s.params = some true

theorem not_opensNext_self (s : State) : ¬ OpensNext ctx s s := fun h => by
  have := h.1
  omega

theorem stakeDriftRekeyDue_isSome
    (hdrift : ∃ bps, committeeMaxCoalitionDriftBps round.members live = some bps) :
    ∃ due, stakeDriftRekeyDue s round live h p = some due := by
  obtain ⟨bps, hbps⟩ := hdrift
  unfold stakeDriftRekeyDue
  rw [hbps]
  split_ifs <;> exact ⟨_, rfl⟩

theorem rekeyStep_active (hlast : s.lastRound = some round)
    (hactive : round.status = .active)
    (halloc : ∃ out, allocateEvalPoints X.sha256 (activeMembers ctx s s.params)
      s.params.effectiveShareBudget (wrap64 (s.currentEpoch + 1)) = some out)
    (hdrift : ∃ bps, committeeMaxCoalitionDriftBps round.members (activeMembers ctx s s.params)
      = some bps) :
    ∃ s', s.rekeyStep X ctx s.params = some s'
      ∧ (OpensNext ctx s s' ↔ s.currentEpoch + 1 < 2 ^ 64 ∧ Superseded X ctx s round) := by
  unfold rekeyStep Superseded
  simp only [hlast, hactive]
  by_cases hchanged : round.membersHash ≠ membersHash X (activeMembers ctx s s.params)
  · rw [if_pos hchanged, if_pos hchanged]
    cases hdamp : rekeyDampened s s.params ctx.height with
    | true => exact ⟨s, rfl, by simp [not_opensNext_self]⟩
    | false =>
      obtain ⟨s', hopen, hiff⟩ := openRound_opensNext halloc
      exact ⟨s', hopen, by simp [hiff]⟩
  · rw [if_neg hchanged, if_neg hchanged]
    obtain ⟨due, hdue⟩ := stakeDriftRekeyDue_isSome (s := s) (p := s.params) (h := ctx.height) hdrift
    obtain ⟨bps, hbps⟩ := hdrift
    rw [hdue, hbps]
    cases due with
    | false => exact ⟨s, rfl, by simp [not_opensNext_self]⟩
    | true =>
      obtain ⟨s', hopen, hiff⟩ := openRound_opensNext halloc
      exact ⟨s', hopen, by simp [hiff]⟩

theorem finalizeDue_of_not_open (hlast : s.lastRound = some round)
    (hactive : round.status = .active) : s.finalizeDue X ctx = s := by
  have hskip : ∀ due : DkgRound → Bool, s.finalizeIf X due = s := fun due => by
    unfold finalizeIf
    rw [hlast]
    simp [hactive]
  unfold finalizeDue
  simp only [hskip]

theorem endBlockDKG_opensNext_iff (h : Serving ctx s round)
    (hfit : StakesFit round.members (activeMembers ctx s s.params) s.params.effectiveShareBudget) :
    OpensNext ctx s (s.endBlockDKG X ctx)
      ↔ s.currentEpoch + 1 < 2 ^ 64 ∧ Superseded X ctx s round := by
  obtain ⟨⟨sk, cu, ep, eo, er, hframe⟩, hkeys⟩ := @endBlockMaintenance_frame X ctx s
  have hlive := activeMembers_congr s.params hkeys
  have hnn := activeMembers_weight_nonneg ctx s s.params
  -- the maintained state: caches and key registry apart it is `s`
  generalize hm : s.endBlockMaintenance X ctx = t at hframe hlive
  have hlast : t.lastRound = some round := by rw [hframe]; exact h.last
  have hparams : t.params = s.params := by rw [hframe]
  have hcur : t.currentEpoch = s.currentEpoch := by rw [hframe]
  have hsup : Superseded X ctx t round ↔ Superseded X ctx s round := by
    unfold Superseded
    rw [hparams, hlive, hframe]
    exact Iff.rfl
  obtain ⟨s', hstep, hiff⟩ := @rekeyStep_active X ctx t round hlast h.active
    (by rw [hparams, hlive]; exact hfit.allocate_eq_some hnn)
    (by rw [hparams, hlive]; exact hfit.drift_eq_some hnn h.members)
  have hbody : s.endBlockBody X ctx = some s' := by
    unfold endBlockBody
    simp only [hm]
    rw [if_neg (by simp [h.runnable]), finalizeDue_of_not_open hlast h.active, hlast,
      if_neg (by simp [h.active]), hlive, if_neg (by simpa using h.members), ← hparams]
    exact hstep
  unfold endBlockDKG
  rw [hbody, Option.getD_some, ← hsup, ← hcur, ← hiff]
  unfold OpensNext
  rw [hcur]

/-- A streak at the threshold makes the health trigger fire, whatever the other triggers say. -/
theorem stakeDriftRekeyDue_of_streak (htransparent : p.dkgTransparent = true)
    (hstreak : decryptHealthStrandThreshold ≤ s.getDecryptStrandStreak round.epoch) :
    stakeDriftRekeyDue s round live h p = some true := by
  unfold stakeDriftRekeyDue
  rw [if_neg (by simp [htransparent]), if_pos hstreak]

/-- The health recovery fires in every block, except that a member-set change inside the rekey gap
makes the handler return before it looks at the streak. -/
theorem healthRekey_iff {s : State} {round : DkgRound} (h : Serving ctx s round)
    (hfit : StakesFit round.members (activeMembers ctx s s.params) s.params.effectiveShareBudget)
    (hstreak : decryptHealthStrandThreshold ≤ s.getDecryptStrandStreak s.currentEpoch) :
    OpensNext ctx s (s.endBlockDKG X ctx)
      ↔ s.currentEpoch + 1 < 2 ^ 64
        ∧ ¬ (round.membersHash ≠ membersHash X (activeMembers ctx s s.params)
            ∧ rekeyDampened s s.params ctx.height = true) := by
  rw [endBlockDKG_opensNext_iff h hfit]
  refine and_congr_right fun _ => ?_
  unfold Superseded
  by_cases hchanged : round.membersHash ≠ membersHash X (activeMembers ctx s s.params)
  · rw [if_pos hchanged]
    simp [hchanged]
  · have hepoch := (get?_of_lastRound h.last).2.1
    rw [if_neg hchanged, stakeDriftRekeyDue_of_streak h.transparent (hepoch ▸ hstreak)]
    simp [hchanged]

end State

namespace Sample

/-- The pair serves epoch 1 with a streak at the threshold, inside the rekey gap. -/
def strandedState : State :=
  { State.init with
    params := { pairGenesis.params with dkgTransparent := true }
    rounds := RecStore.empty.put (pairRound 1 .active)
    currentEpoch := 1, activeEpoch := 1, lastRekeyHeight := 10
    strandStreaks := State.init.strandStreaks.assign 1 16
    encPubKeys := (State.init.encPubKeys.assign operator (point 2)).assign dealerOperator (point 1) }

end Sample

namespace State

open Sample

theorem healthRekey_stranded : OpensNext (pairBlock 43 (by decide)) strandedState
    (strandedState.endBlockDKG pairPrimitives (pairBlock 43 (by decide))) :=
  (@healthRekey_iff _ _ _ (pairRound 1 .active) (by decide +kernel) (by decide +kernel)
    (by decide +kernel)).mpr (by decide +kernel)

theorem healthRekey_dampened : ∃ c,
    Chain.Reachable pairPrimitives (fun _ _ _ => True) pairGenesis 9 c
      ∧ (∃ round ∈ c.state.lastRound, Serving (dealerBlock 43 (by decide)) c.state round)
      ∧ decryptHealthStrandThreshold ≤ c.state.getDecryptStrandStreak c.state.currentEpoch
      ∧ ¬ OpensNext (dealerBlock 43 (by decide)) c.state
        (c.state.endBlockDKG pairPrimitives (dealerBlock 43 (by decide))) :=
  Chain.exists_reachable
    [(pairBlock 10 (by decide), .endBlockDKG),
     (pairBlock 11 (by decide), .dkgDeal (poisonedDeal 2)),
     (pairBlock 40 (by decide), .endBlockDKG),
     (pairBlock 41 (by decide), .updateParams goTransparent),
     (pairBlock 42 (by decide), .consumeVoteExtensions [poisonVote 2])]
    (by decide +kernel)

end State

end EncMempool
