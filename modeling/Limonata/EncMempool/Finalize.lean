import Limonata.EncMempool.Migration
import Limonata.EncMempool.ShareKeyCover
import Limonata.EncMempool.StakeResolution
import Limonata.EncMempool.Threshold

/-!
# x/encmempool — closing a round (`finalizeRound`)

A round gets a key exactly if the members with a well-formed stored dealing and no stored complaint own the
threshold together, and no coefficient of the sum of their polynomials is the point at infinity. The early
failure of `EndBlockDKG` counts everybody who dealt, so it never meets a round that would get a key.
-/

namespace EncMempool

open State

namespace State

/-- A member with a stored dealing of the round's degree whose commitments parse, and without a stored
complaint. -/
def Qualifies (X : External) (s : State) (round : DkgRound) (i : Nat) : Prop :=
  (∃ d ∈ s.dealings.entries, d.epoch = round.epoch ∧ d.dealerIndex = i
    ∧ d.commitments.length = round.threshold ∧ (parseCommitmentPoints X d.commitments).isSome = true)
  ∧ ∀ c ∈ s.complaints.entries, c.epoch = round.epoch → c.against ≠ i

instance (X : External) (s : State) (round : DkgRound) (i : Nat) : Decidable (Qualifies X s round i) :=
  inferInstanceAs (Decidable (_ ∧ _))

/-- The members that qualify. -/
def qualified (X : External) (s : State) (round : DkgRound) : List RoundMember :=
  round.members.filter fun m => Qualifies X s round m.index

/-- The sum of the `j`-th commitments of the members that qualify. -/
def aggregateAt (X : External) [AddCommGroup X.Point] (s : State) (round : DkgRound) (j : Nat) : X.Point :=
  ((s.qualified X round).map fun m =>
    ((dealingPoints X round.threshold (s.pubDealings round) m.index).getD []).getD j 0).sum

end State

/-! ## Dealings -/

section Dealings

variable {X : External} {degree : Nat}

theorem isSome_dealingPoints {ds : List PublicDealing} {i : Nat} :
    (dealingPoints X degree ds i).isSome = true ↔ ∃ d ∈ ds, d.dealer = i
      ∧ d.commitments.length = degree ∧ (parseCommitmentPoints X d.commitments).isSome = true := by
  constructor
  · intro h
    obtain ⟨pts, hpts⟩ := Option.isSome_iff_exists.mp h
    obtain ⟨d, hd, hdealer, hlen, hparse⟩ := exists_of_dealingPoints hpts
    exact ⟨d, hd, hdealer, hlen, by rw [hparse]; rfl⟩
  · rintro ⟨d, hd, rfl, rfl, hparse⟩
    obtain ⟨pts, hpts⟩ := Option.isSome_iff_exists.mp hparse
    unfold dealingPoints
    -- once a dealing has parsed, later ones only replace its points
    induction ds using List.reverseRecOn with
    | nil => cases hd
    | append_singleton ds e ih =>
      rw [List.foldl_append, List.foldl_cons, List.foldl_nil]
      obtain hmem | hlast := List.mem_append.mp hd
      · split_ifs
        · split
          · rfl
          · exact ih hmem
        · exact ih hmem
      · obtain rfl := List.mem_singleton.mp hlast
        rw [if_pos ⟨rfl, rfl⟩, hpts]
        rfl

theorem dealingPoints_perm {ds ds' : List PublicDealing} (hnd : (ds.map PublicDealing.dealer).Nodup)
    (hperm : ds'.Perm ds) : dealingPoints X degree ds' = dealingPoints X degree ds := by
  refine funext fun i => Option.ext fun pts => ?_
  have hsome (es : List PublicDealing) (hes : es.Perm ds) : dealingPoints X degree es i = some pts
      ↔ ∃ d ∈ ds, d.dealer = i ∧ d.commitments.length = degree
        ∧ parseCommitmentPoints X d.commitments = some pts := by
    constructor
    · intro h
      obtain ⟨d, hd, hrest⟩ := exists_of_dealingPoints h
      exact ⟨d, hes.mem_iff.mp hd, hrest⟩
    · rintro ⟨d, hd, hdealer, hlen, hparse⟩
      have hex : (dealingPoints X degree es i).isSome = true :=
        isSome_dealingPoints.mpr ⟨d, hes.mem_iff.mpr hd, hdealer, hlen, by rw [hparse]; rfl⟩
      obtain ⟨pts', hpts'⟩ := Option.isSome_iff_exists.mp hex
      obtain ⟨d', hd', hdealer', -, hparse'⟩ := exists_of_dealingPoints hpts'
      obtain rfl := List.inj_on_of_nodup_map hnd hd (hes.mem_iff.mp hd') (hdealer.trans hdealer'.symm)
      rw [hpts', ← hparse', hparse]
  exact (hsome ds' hperm).trans (hsome ds (.refl _)).symm

theorem finalizePublicWeighted_perm {members : List Nat} {ds ds' : List PublicDealing}
    {disq disq' : List Nat} {weightOf : Nat → Nat} {q : Nat}
    (hnd : (ds.map PublicDealing.dealer).Nodup) (hperm : ds'.Perm ds) (hdisq : disq'.Perm disq) :
    finalizePublicWeighted X members degree ds' disq' weightOf q
      = finalizePublicWeighted X members degree ds disq weightOf q := by
  have hcontains : disq'.contains = disq.contains :=
    funext fun m => Bool.eq_iff_iff.mpr (by simp [hdisq.mem_iff])
  unfold finalizePublicWeighted
  rw [dealingPoints_perm hnd hperm, hcontains]

theorem getD_aggregateCommitments [Field X.Scalar] [AddCommGroup X.Point] [Module X.Scalar X.Point]
    {G : X.Point} (hX : X.IsCurve G) {vs : List (List X.Point)} {V : List X.Point}
    (h : aggregateCommitments X vs = some V) (hlen : ∀ v ∈ vs, v.length = degree) (j : Nat) :
    V.getD j 0 = (vs.map fun v => v.getD j 0).sum := by
  have hadd : X.addPoint = (· + ·) := funext₂ hX.addPoint
  cases vs with
  | nil => cases h
  | cons v vs =>
    cases h
    rw [hadd, List.map_cons, List.sum_cons]
    rw [List.forall_mem_cons] at hlen
    obtain ⟨hv, hvs⟩ := hlen
    induction vs generalizing v with
    | nil => simp
    | cons w vs ih =>
      obtain ⟨hw, hvs⟩ := List.forall_mem_cons.mp hvs
      have hhead : (List.zipWith (· + ·) v w).getD j 0 = v.getD j 0 + w.getD j 0 := by
        simp only [List.getD_eq_getElem?_getD, List.getElem?_zipWith]
        by_cases hj : j < degree
        · simp [hv, hw, hj]
        · simp [hv, hw, hj]
      rw [List.foldl_cons, ih _ (by simp [hv, hw]) hvs, hhead, List.map_cons, List.sum_cons, add_assoc]

end Dealings

/-! ## The members that qualify -/

section Qualified

variable {X : External} {s : State} {round : DkgRound}

theorem qualifies_iff (i : Nat) :
    ((dealingPoints X round.threshold (s.pubDealings round) i).isSome
      && !(s.accused round).contains i) = decide (Qualifies X s round i) := by
  rw [Bool.eq_iff_iff, Bool.and_eq_true, isSome_dealingPoints, decide_eq_true_iff]
  refine and_congr ⟨?_, ?_⟩ ?_
  · rintro ⟨pd, hpd, hdealer, hlen, hparse⟩
    obtain ⟨d, hd, rfl⟩ := List.mem_map.mp hpd
    obtain ⟨hd, hepoch⟩ := List.mem_filter.mp hd
    exact ⟨d, hd, of_decide_eq_true hepoch, hdealer, hlen, hparse⟩
  · rintro ⟨d, hd, hepoch, hdealer, hlen, hparse⟩
    exact ⟨_, List.mem_map_of_mem (List.mem_filter.mpr ⟨hd, decide_eq_true hepoch⟩), hdealer, hlen, hparse⟩
  · simp [accused]

/-- The qualified indices in ascending order, as the aggregation lists them. -/
def qualOf (X : External) (s : State) (round : DkgRound) : List Nat :=
  ((round.members.map RoundMember.index).insertionSort (· ≤ ·)).filter fun i => Qualifies X s round i

theorem qualOf_perm : (qualOf X s round).Perm ((s.qualified X round).map RoundMember.index) := by
  refine ((List.perm_insertionSort _ _).filter _).trans (List.Perm.of_eq ?_)
  rw [List.filter_map]
  rfl

theorem qualOf_ascending (hnodup : (round.members.map RoundMember.index).Nodup) :
    (qualOf X s round).Pairwise (· < ·) := by
  have hsorted := List.pairwise_insertionSort (· ≤ ·) (round.members.map RoundMember.index)
  have hne := (List.perm_insertionSort (· ≤ ·) _).nodup_iff.mpr hnodup
  exact ((hsorted.and hne).imp fun h => lt_of_le_of_ne h.1 h.2).filter _

theorem memberPoints_of_mem {members : List RoundMember} (hnodup : (members.map RoundMember.index).Nodup)
    {m : RoundMember} (hm : m ∈ members) :
    memberPoints members m.index = some m.ownedEvalPoints.length := by
  unfold memberPoints
  have hsome : (members.reverse.find? fun x => x.index = m.index).isSome = true :=
    List.find?_isSome.mpr ⟨m, List.mem_reverse.mpr hm, by simp⟩
  obtain ⟨x, hx⟩ := Option.isSome_iff_exists.mp hsome
  have hxm := List.mem_reverse.mp (List.mem_of_find?_eq_some hx)
  obtain rfl := List.inj_on_of_nodup_map hnodup hxm hm (by simpa using List.find?_some hx)
  rw [hx, Option.map_some]

theorem qualOf_weight (hnodup : (round.members.map RoundMember.index).Nodup) :
    ((qualOf X s round).map fun i => (memberPoints round.members i).getD 1).sum
      = totalEvalPoints (s.qualified X round) := by
  rw [(qualOf_perm.map _).sum_eq, List.map_map, totalEvalPoints]
  refine congrArg List.sum (List.map_congr_left fun m hm => ?_)
  rw [Function.comp_apply, memberPoints_of_mem hnodup (List.mem_of_mem_filter hm), Option.getD_some]

theorem pubDealings_nodup : ((s.pubDealings round).map PublicDealing.dealer).Nodup := by
  unfold pubDealings
  rw [List.map_map, List.Nodup, List.pairwise_map]
  refine (s.dealings.sorted.filter _).imp_of_mem fun {d e} hd he hlt heq => ?_
  have hepoch := of_decide_eq_true (List.mem_filter.mp hd).2
  have hepoch' := of_decide_eq_true (List.mem_filter.mp he).2
  exact hlt.ne (key2_inj.mpr ⟨hepoch.trans hepoch'.symm, heq⟩)

/-- What the members that qualify must meet for a key. -/
def Succeeds (X : External) [AddCommGroup X.Point] (s : State) (round : DkgRound) : Prop :=
  1 ≤ round.threshold ∧ round.threshold ≤ totalEvalPoints (s.qualified X round)
    ∧ ∀ j < round.threshold, s.aggregateAt X round j ≠ 0

theorem qualOf_vectors : ∀ v ∈ (qualOf X s round).filterMap
    (dealingPoints X round.threshold (s.pubDealings round)), v.length = round.threshold := by
  intro v hv
  obtain ⟨i, -, hpts⟩ := List.mem_filterMap.mp hv
  obtain ⟨d, -, -, hlen, hparse⟩ := exists_of_dealingPoints hpts
  rw [parseCommitmentPoints_length hparse, hlen]

theorem qualOf_filterMap :
    (qualOf X s round).filterMap (dealingPoints X round.threshold (s.pubDealings round))
      = (qualOf X s round).map fun i =>
        (dealingPoints X round.threshold (s.pubDealings round) i).getD [] := by
  rw [← List.filterMap_eq_map]
  refine List.filterMap_congr fun i hi => ?_
  have hq := @qualifies_iff X s round i
  rw [(List.mem_filter.mp hi).2, Bool.and_eq_true] at hq
  obtain ⟨pts, hpts⟩ := Option.isSome_iff_exists.mp hq.1
  rw [Function.comp_apply, hpts, Option.getD_some]

variable [Field X.Scalar] [AddCommGroup X.Point] [Module X.Scalar X.Point] {G : X.Point}

theorem aggregateAt_eq (hX : X.IsCurve G) {V : List X.Point}
    (hV : aggregateCommitments X ((qualOf X s round).filterMap
      (dealingPoints X round.threshold (s.pubDealings round))) = some V) (j : Nat) :
    V.getD j 0 = s.aggregateAt X round j := by
  rw [getD_aggregateCommitments hX hV qualOf_vectors, qualOf_filterMap, List.map_map,
    (qualOf_perm.map _).sum_eq, List.map_map]
  rfl

theorem all_valid_iff (hX : X.IsCurve G) (V : List X.Point) :
    (V.map X.serializeCompressed).all (validCompressedPoint X) = true ↔ ∀ j < V.length, V.getD j 0 ≠ 0 := by
  rw [List.all_map, List.all_eq_true, List.forall_mem_iff_getElem]
  refine forall₂_congr fun j hj => ?_
  have hget : V.getD j 0 = V[j] := by simp [hj]
  rw [hget]
  refine ⟨hX.ne_zero_of_parse, fun hne => ?_⟩
  rw [Function.comp_apply, validCompressedPoint, hX.encodes _ hne]
  rfl

theorem finalizeResult_cases (hX : X.IsCurve G) (hnodup : (round.members.map RoundMember.index).Nodup) :
    (Succeeds X s round ∧ ∃ res, s.finalizeResult X round = .ok res ∧ res.qual = qualOf X s round)
    ∨ (¬ Succeeds X s round ∧ ∃ e, s.finalizeResult X round = .error e) := by
  have hqual : ((round.members.map RoundMember.index).insertionSort (· ≤ ·)).filter (fun i =>
      (dealingPoints X round.threshold (s.pubDealings round) i).isSome
        && !(s.accused round).contains i) = qualOf X s round :=
    List.filter_congr fun i _ => qualifies_iff i
  have hresult : s.finalizeResult X round = finalizePublicWeighted X (round.members.map RoundMember.index)
    round.threshold (s.pubDealings round) (s.accused round)
    (fun i => (memberPoints round.members i).getD 1) round.threshold := rfl
  rw [hresult, finalizePublicWeighted]
  by_cases ht : 1 ≤ round.threshold
  swap
  · rw [if_pos (by omega)]
    exact .inr ⟨fun h => ht h.1, _, rfl⟩
  rw [if_neg (by omega)]
  simp only [hqual, qualOf_weight hnodup]
  by_cases hweight : round.threshold ≤ totalEvalPoints (s.qualified X round)
  swap
  · refine .inr ⟨fun h => hweight h.2.1, ?_⟩
    split_ifs
    · exact ⟨_, rfl⟩
    · exact ⟨_, rfl⟩
    · omega
  have hne : (s.qualified X round) ≠ [] := by
    intro hnil
    simp [hnil, totalEvalPoints] at hweight
    omega
  have hmembers : (round.members.map RoundMember.index).length ≠ 0 := by
    intro hzero
    rw [List.length_map, List.length_eq_zero_iff] at hzero
    exact hne (by rw [qualified, hzero]; rfl)
  rw [if_neg hmembers, if_neg (by omega)]
  cases hV : aggregateCommitments X ((qualOf X s round).filterMap
      (dealingPoints X round.threshold (s.pubDealings round))) with
  | none =>
    rw [qualOf_filterMap] at hV
    cases hvs : qualOf X s round with
    | nil => exact absurd (List.map_eq_nil_iff.mp (hvs ▸ qualOf_perm).nil_eq.symm) hne
    | cons i is =>
      rw [hvs] at hV
      cases hV
  | some V =>
    have hlen : V.length = round.threshold := aggregateCommitments_length hV qualOf_vectors
    have hvalid := all_valid_iff hX V
    simp only [hlen, aggregateAt_eq hX hV] at hvalid
    simp only
    split_ifs with hall
    · exact .inl ⟨⟨ht, hweight, hvalid.mp hall⟩, _, rfl, rfl⟩
    · exact .inr ⟨fun h => hall (hvalid.mpr h.2.2), _, rfl⟩

end Qualified

/-! ## The complaint window -/

theorem endBlockDKG_activates_none {X : External} {ctx : Ctx} {s : State} {round : DkgRound}
    (hlast : s.lastRound = some round) (hnodup : (round.members.map RoundMember.index).Nodup)
    (hwindow : ctx.height < round.complaintDeadline) {ep : Nat} {r : DkgRound}
    (hr : (s.endBlockDKG X ctx).rounds.get? ep = some r) (hactive : r.status = .active) :
    s.rounds.get? ep = some r := by
  have hclosed : ((s.endBlockMaintenance X ctx).finalizeDue X ctx).rounds.get? ep = some r →
      s.rounds.get? ep = some r := by
    obtain ⟨⟨sk, cu, pk, eo, er, hframe⟩, -⟩ := @endBlockMaintenance_frame X ctx s
    have hsame : (s.endBlockMaintenance X ctx).lastRound = some round := by
      rw [hframe]
      exact hlast
    have hrounds : (s.endBlockMaintenance X ctx).rounds = s.rounds := by rw [hframe]
    intro hget
    obtain heq | ⟨closed, -, -, heq⟩ := @finalizeDue_of_noRoundDue X ctx (s.endBlockMaintenance X ctx)
      (fun x hx => Option.some.inj (hsame.symm.trans hx) ▸ hnodup)
      (fun x hx _ => Option.some.inj (hsame.symm.trans hx) ▸ hwindow)
    · rwa [heq, hrounds] at hget
    · rw [heq] at hget
      obtain ⟨-, rfl⟩ | ⟨-, hold⟩ := RecStore.get?_of_put hget
      · cases hactive
      · rwa [hrounds] at hold
  obtain ⟨-, hsame⟩ | ⟨-, heq | ⟨-, -, hstep⟩⟩ := @endBlockDKG_cases X ctx s
  · rwa [hsame] at hr
  · exact hclosed (heq ▸ hr)
  · obtain hold | ⟨members, -, hopened⟩ := rekeyStep_opened hstep hr
    · exact hclosed hold
    · rw [hopened.isOpen] at hactive
      cases hactive

/-- **Closing a round is exact.** A round with distinct member indices and a positive threshold gets a key
exactly if the members that qualify own the threshold and no aggregate commitment is the point at infinity;
the key lists them in ascending order, in whatever order dealings and complaints come. A round in which too
few points dealt fails, so no block inside the complaint window activates a round. -/
theorem finalizeRound_exact {X : External} [Field X.Scalar] [AddCommGroup X.Point]
    [Module X.Scalar X.Point] {G : X.Point} (hX : X.IsCurve G) (s : State) (round : DkgRound)
    (hnodup : (round.members.map RoundMember.index).Nodup) :
    (Succeeds X s round → ∃ ak,
      s.finalizeOutcome X round = (some ak, some { round with status := .active })
      ∧ ak.threshold = round.threshold ∧ ak.qual.Pairwise (· < ·)
      ∧ ∀ i, i ∈ ak.qual ↔ ∃ m ∈ round.members, m.index = i ∧ Qualifies X s round i)
    ∧ (¬ Succeeds X s round →
      s.finalizeRound X round = { s with rounds := s.rounds.put { round with status := .failed } })
    ∧ (∀ dealings disq, dealings.Perm (s.pubDealings round) → disq.Perm (s.accused round) →
      finalizePublicWeighted X (round.members.map RoundMember.index) round.threshold dealings disq
        (fun i => (memberPoints round.members i).getD 1) round.threshold = s.finalizeResult X round)
    ∧ (s.dealingWeightUpperBound round < round.threshold →
      s.finalizeRound X round = { s with rounds := s.rounds.put { round with status := .failed } })
    ∧ ∀ ctx, s.lastRound = some round → ctx.height < round.complaintDeadline →
      ∀ ep r, (s.endBlockDKG X ctx).rounds.get? ep = some r → r.status = .active →
        s.rounds.get? ep = some r := by
  refine ⟨fun h => ?_, fun h => ?_, fun dealings disq hperm hdisq => ?_, finalizeRound_of_few hnodup,
    fun ctx hlast hwindow ep r hr hactive => endBlockDKG_activates_none hlast hnodup hwindow hr hactive⟩
  · obtain ⟨-, res, hres, hqual⟩ | ⟨hnot, -⟩ := finalizeResult_cases (s := s) hX hnodup
    · refine ⟨installedKey round res, by rw [finalizeOutcome_eq, hres], rfl, ?_, fun i => ?_⟩
      · show res.qual.Pairwise _
        rw [hqual]
        exact qualOf_ascending hnodup
      · show i ∈ res.qual ↔ _
        rw [hqual, qualOf_perm.mem_iff, List.mem_map]
        constructor
        · rintro ⟨m, hm, rfl⟩
          obtain ⟨hm, hq⟩ := List.mem_filter.mp hm
          exact ⟨m, hm, rfl, of_decide_eq_true hq⟩
        · rintro ⟨m, hm, rfl, hq⟩
          exact ⟨m, List.mem_filter.mpr ⟨hm, decide_eq_true hq⟩, rfl⟩
    · exact absurd h hnot
  · obtain ⟨hyes, -⟩ | ⟨-, e, he⟩ := finalizeResult_cases (s := s) hX hnodup
    · exact absurd hyes h
    · obtain ⟨-, -, heq⟩ | ⟨res, -, -, hres, -⟩ := @State.finalizeRound_cases X s round
      · exact heq
      · exact absurd (he.symm.trans hres) nofun
  · exact finalizePublicWeighted_perm pubDealings_nodup hperm hdisq

namespace Sample

/-- Dealers 1 and 2 of the pair, in a state and in a round. -/
def dealtState (dealings : List Dealing) : State :=
  { State.init with dealings := dealings.foldl RecStore.put .empty }

def closingRound (members : List RoundMember) (threshold : Nat) : DkgRound :=
  ⟨1, 0, 0, 0, members, threshold, [], .isOpen, 0⟩

end Sample

open Sample

/-- Two members that dealt well and own the threshold. -/
theorem finalizeRound_exact_pair : ∃ ak,
    (dealtState ([1, 2].filterMap pairDealing)).finalizeOutcome scheme
        (closingRound [plainMember 1 [1] 0, plainMember 2 [2] 0] 2)
      = (some ak, some { closingRound [plainMember 1 [1] 0, plainMember 2 [2] 0] 2 with
        status := .active }) := by
  have hexact := finalizeRound_exact (External.ofGroup_isCurve schemeTables_wellFormed)
    (dealtState ([1, 2].filterMap pairDealing))
    (closingRound [plainMember 1 [1] 0, plainMember 2 [2] 0] 2) (by decide)
  obtain ⟨ak, hak, -⟩ := hexact.1 ⟨by decide, by decide +kernel, by decide +kernel⟩
  exact ⟨ak, hak⟩

/-- A round with threshold 0 gets no key; and with two members of one index a dealing counts twice, so a
round that fails the early test gets a key. -/
theorem finalizeRound_malformed :
    (State.init.finalizeRound scheme (closingRound [] 0)).rounds.get? 1
        = some { closingRound [] 0 with status := .failed }
    ∧ ((dealtState ([1].filterMap pairDealing)).dealingWeightUpperBound
        (closingRound [plainMember 1 [1] 0, plainMember 1 [2] 0] 2) < 2
      ∧ ((dealtState ([1].filterMap pairDealing)).finalizeRound scheme
          (closingRound [plainMember 1 [1] 0, plainMember 1 [2] 0] 2)).rounds.get? 1
        = some { closingRound [plainMember 1 [1] 0, plainMember 1 [2] 0] 2 with
          status := .active }) := by
  refine ⟨rfl, by decide, ?_⟩
  decide +kernel

end EncMempool
