import Limonata.EncMempool.Registry
import Limonata.EncMempool.ShareKeyCover
import Limonata.EncMempool.StakeResolution

/-!
# x/encmempool — an exported genesis is importable

`GenesisState.validate` re-derives what the handlers establish. Two of its checks disagree with what
the handlers write: it refuses a share that was verified on chain, which is what every share of a
vote extension is, and it expects the loose threshold of a weighted round also where the strict one
is in force. This module proves that, away from these and a few rarer inputs, every reachable state
exports a genesis the import accepts:

* what opening a round guarantees about its record (`openRound_importable`);
* the invariant of rounds, keys and dealings (`Committees`) and the one of ciphertexts and shares
  (`Pool`), each kept by every write of the keeper;
* `exportGenesis_importable`, which reads the two invariants back as the checks of the validator.
-/

namespace EncMempool

open Machine Check RecStore State

variable {X : External} {ctx : Ctx} {w : Wraps}
variable {ms out members : List RoundMember} {i budget epoch : Nat} {seenOp : List Bytes}
  {m : RoundMember} {s : State} {p : Params} {seen : List Nat} {sha256 : Bytes → Bytes}
  {r : DkgRound}
  {gs : GenesisState}

/-! ## Committees the import accepts -/

/-- A committee whose dealings have the same shape on both paths: members without an account and
with a stake, or unweighted members that hold the share at their own index. -/
def RegularMembers (ms : List RoundMember) : Prop :=
  (∀ m ∈ ms, m.accountAddr = [] ∧ 0 ≤ m.weight)
    ∨ ∀ m ∈ ms, m.weight = 0 ∧ m.weighted = false ∧ m.ownedEvalPoints = [m.index]

instance (ms : List RoundMember) : Decidable (RegularMembers ms) :=
  inferInstanceAs (Decidable (_ ∨ _))

theorem totalEvalPoints_of_single (h : ∀ m ∈ ms, m.ownedEvalPoints = [m.index]) :
    totalEvalPoints ms = ms.length := by
  unfold totalEvalPoints
  rw [List.map_congr_left fun m hm => congrArg List.length (h m hm)]
  simp

theorem checkRoundMembers_plain (i : Nat) (seenIdx : List Nat) (seenOp : List Bytes)
    (ms : List RoundMember) : checkRoundMembers X i seenIdx seenOp (ms.map RoundMember.plain)
      = checkRoundMembers X i seenIdx seenOp ms := by
  induction ms generalizing i seenIdx seenOp with
  | nil => rfl
  | cons m ms ih =>
    rw [List.map_cons, checkRoundMembers, checkRoundMembers, ← ih]
    rfl

theorem validateDkgMembers_sound {seenAcc : List Bytes} {ms : List DkgMember}
    (h : Params.validateDkgMembers X i seenOp seenAcc ms = .ok ()) :
    (ms.map DkgMember.operatorAddr).Nodup ∧ (∀ m ∈ ms, m.operatorAddr ∉ seenOp)
      ∧ ∀ m ∈ ms, m.operatorAddr ≠ [] ∧ validCompressedPoint X m.encPubKey = true := by
  induction ms generalizing i seenOp seenAcc with
  | nil => simp
  | cons m ms ih =>
    simp only [Params.validateDkgMembers, bind_unit_eq_ok, rejectIf_eq_ok] at h
    obtain ⟨haddr, -, hkey, hnew, hrest⟩ := h
    obtain ⟨hnodup, hseen, hall⟩ := ih hrest
    refine ⟨List.nodup_cons.mpr ⟨fun hmem => ?_, hnodup⟩, ?_, ?_⟩
    · obtain ⟨x, hx, heq⟩ := List.mem_map.mp hmem
      exact hseen x hx (heq ▸ List.mem_cons_self)
    · exact List.forall_mem_cons.mpr ⟨(not_or.mp hnew).1,
        fun x hx hmem => hseen x hx (.tail _ hmem)⟩
    · exact List.forall_mem_cons.mpr ⟨⟨(not_or.mp haddr).1, by simpa using hkey⟩, hall⟩

theorem mem_numberMembers {index : Nat} (h : m ∈ numberMembers index ms) :
    ∃ m' ∈ ms, ∃ i, index ≤ i ∧ m = { m' with index := i } := by
  induction ms generalizing index with
  | nil => cases h
  | cons x ms ih =>
    cases List.mem_cons.mp h with
    | inl heq => exact ⟨x, List.mem_cons_self, index, le_rfl, heq⟩
    | inr htail =>
      obtain ⟨m', hm', i, hi, heq⟩ := ih htail
      exact ⟨m', List.mem_cons_of_mem _ hm', i, by omega, heq⟩

theorem numberMembers_operatorAddr (index : Nat) (ms : List RoundMember) :
    (numberMembers index ms).map RoundMember.operatorAddr = ms.map RoundMember.operatorAddr := by
  induction ms generalizing index with
  | nil => rfl
  | cons m ms ih => rw [numberMembers, List.map_cons, List.map_cons, ih]

/-- Numbering members with distinct operators and valid keys gives a committee the import takes. -/
theorem checkRoundMembers_numberMembers (hnodup : (ms.map RoundMember.operatorAddr).Nodup)
    (hms : ∀ m ∈ ms, m.operatorAddr ≠ [] ∧ validCompressedPoint X m.encPubKey = true) :
    checkRoundMembers X 0 [] [] (numberMembers 1 ms) = .ok () := by
  refine checkRoundMembers_eq_ok.mpr ⟨fun m hm => ?_, ?_, ?_⟩
  · obtain ⟨m', hm', i, hi, rfl⟩ := mem_numberMembers hm
    exact ⟨by simp only; omega, List.not_mem_nil, (hms m' hm').1, List.not_mem_nil,
      fun _ => (hms m' hm').2⟩
  · rw [numberMembers_index]
    exact List.nodup_range'
  · rw [numberMembers_operatorAddr]
    exact hnodup

/-- The candidates of the transparent path are bonded validators with their stake and their
announced key. -/
theorem transparentMembers_spec (hX : EncodesPoints X) (hreg : s.RegistryInv X) (p : Params) :
    checkRoundMembers X 0 [] [] (transparentMembers ctx s p) = .ok ()
      ∧ ∀ m ∈ transparentMembers ctx s p, m.accountAddr = [] ∧ 0 ≤ m.weight := by
  unfold transparentMembers
  extract_lets cands ranked capped clamped sorted
  have hsub : clamped.Sublist ranked := (List.take_sublist _ _).trans (List.take_sublist _ _)
  have hperm : sorted.Perm clamped := List.perm_insertionSort _ _
  have hranked : ranked.Perm cands := List.perm_insertionSort _ _
  have hmem : ∀ c ∈ sorted, c ∈ cands := fun c hc =>
    hranked.mem_iff.mp (hsub.subset (hperm.mem_iff.mp hc))
  have hcand : ∀ c ∈ cands, (c.op, c.tokens) ∈ ctx.bonded ∧ s.encPubKeys.lookup c.op = some c.key := by
    intro c hc
    obtain ⟨v, hv, hc⟩ := List.mem_filterMap.mp hc
    obtain ⟨key, hkey, rfl⟩ := Option.map_eq_some_iff.mp hc
    rw [hreg.getEncPubKey hX] at hkey
    exact ⟨hv, hkey⟩
  have hops : (cands.map TransparentCandidate.op).Nodup := by
    refine List.pairwise_map.mpr (List.pairwise_filterMap.mpr ?_)
    refine (List.pairwise_map.mp ctx.bonded_nodup).imp fun hne c hc c' hc' => ?_
    obtain ⟨_, -, rfl⟩ := Option.map_eq_some_iff.mp hc
    obtain ⟨_, -, rfl⟩ := Option.map_eq_some_iff.mp hc'
    exact hne
  constructor
  · refine checkRoundMembers_numberMembers ?_ fun m hm => ?_
    · rw [List.map_map]
      exact ((hperm.map _).nodup_iff).mpr ((hsub.map _).nodup ((hranked.map _).nodup_iff.mpr hops))
    · obtain ⟨c, hc, rfl⟩ := List.mem_map.mp hm
      obtain ⟨-, hkey⟩ := hcand c (hmem c hc)
      exact ⟨hreg.operator _ _ hkey, hreg.key _ _ hkey⟩
  · intro m hm
    obtain ⟨m', hm', i, -, rfl⟩ := mem_numberMembers hm
    obtain ⟨c, hc, rfl⟩ := List.mem_map.mp hm'
    exact ⟨rfl, ctx.tokens_nonneg _ (hcand c (hmem c hc)).1⟩

theorem declaredMembers_spec (hvalid : p.validate X = .ok ()) (hdkg : p.dkgEnabled = true)
    (hdeclared : p.dkgTransparent = false) :
    checkRoundMembers X 0 [] [] (activeMembers ctx s p) = .ok ()
      ∧ (activeMembers ctx s p).length ≤ p.dkgMembers.length
      ∧ ∀ m ∈ activeMembers ctx s p,
        m.weight = 0 ∧ m.weighted = false ∧ m.ownedEvalPoints = [m.index] := by
  have hmembers : Params.validateDkgMembers X 0 [] [] p.dkgMembers = .ok () := by
    have hv := (Params.validate_parts hvalid).2.1 hdkg
    unfold Params.validateDkg at hv
    rw [if_pos hdeclared] at hv
    simp only [bind_unit_eq_ok] at hv
    exact hv.2.1
  obtain ⟨hnodup, -, hall⟩ := validateDkgMembers_sound hmembers
  unfold activeMembers
  rw [if_neg (by simp [hdeclared])]
  extract_lets chosen sorted
  have hperm : sorted.Perm chosen := List.perm_insertionSort _ _
  have hsub : chosen.Sublist p.dkgMembers := List.filter_sublist
  refine ⟨checkRoundMembers_numberMembers ?_ fun m hm => ?_, ?_, fun m hm => ?_⟩
  · rw [List.map_map]
    exact (hperm.map _).nodup_iff.mpr ((hsub.map _).nodup hnodup)
  · obtain ⟨d, hd, rfl⟩ := List.mem_map.mp hm
    exact hall d (hsub.subset (hperm.mem_iff.mp hd))
  · rw [length_numberMembers, List.length_map, hperm.length_eq]
    exact hsub.length_le
  · obtain ⟨m', hm', i, -, rfl⟩ := mem_numberMembers hm
    obtain ⟨d, -, rfl⟩ := List.mem_map.mp hm'
    exact ⟨rfl, rfl, rfl⟩

/-! ## Weighted committees -/

theorem checkPoints_complete {ps : List Nat} (hps : ∀ p ∈ ps, p ≠ 0 ∧ p ∉ seen) (hnodup : ps.Nodup)
    : checkPoints i seen ps = .ok (ps.reverse ++ seen) := by
  induction ps generalizing seen with
  | nil => rfl
  | cons p ps ih =>
    obtain ⟨⟨hzero, hnew⟩, hrest⟩ := List.forall_mem_cons.mp hps
    obtain ⟨hp, hnodup⟩ := List.nodup_cons.mp hnodup
    rw [checkPoints, if_neg hzero, if_neg hnew, ih ?_ hnodup, List.reverse_cons, List.append_assoc]
    · rfl
    · intro q hq
      refine ⟨(hrest q hq).1, List.not_mem_cons_of_ne_of_not_mem ?_ (hrest q hq).2⟩
      rintro rfl
      exact hp hq

theorem checkWeightedMembers_complete {total : Int} (hw : ∀ m ∈ ms, m.weighted = true)
    (hnn : ∀ m ∈ ms, 0 ≤ m.weight) (hpos : ∀ m ∈ ms, m.weight = 0 → m.evalPoints = [])
    (hps : ∀ p ∈ ms.flatMap RoundMember.evalPoints, p ≠ 0 ∧ p ∉ seen)
    (hnodup : (ms.flatMap RoundMember.evalPoints).Nodup) (htotal : 0 ≤ total)
    (hfits : total + stake ms < 2 ^ 256) :
    ∃ seen', checkWeightedMembers i seen total ms = .ok (seen', total + stake ms)
      ∧ seen'.Perm (ms.flatMap RoundMember.evalPoints ++ seen) := by
  induction ms generalizing i seen total with
  | nil => exact ⟨seen, by simp [checkWeightedMembers, stake], by simp⟩
  | cons m ms ih =>
    obtain ⟨hm, hw⟩ := List.forall_mem_cons.mp hw
    obtain ⟨hmnn, hnn⟩ := List.forall_mem_cons.mp hnn
    obtain ⟨hmpos, hpos⟩ := List.forall_mem_cons.mp hpos
    rw [List.flatMap_cons] at hps hnodup ⊢
    obtain ⟨hmps, hrest⟩ := List.forall_mem_append.mp hps
    obtain ⟨hmnodup, hnodup, hdisj⟩ := List.nodup_append.mp hnodup
    have hstake : stake (m :: ms) = m.weight + stake ms := by simp [stake]
    have hrestnn : 0 ≤ stake ms := List.sum_nonneg (by simpa using hnn)
    rw [hstake] at hfits ⊢
    have hadd : add256 total m.weight = some (total + m.weight) :=
      add256_eq_some.mpr ⟨by omega, rfl⟩
    have hfresh : ∀ p ∈ ms.flatMap RoundMember.evalPoints,
        p ≠ 0 ∧ p ∉ m.evalPoints.reverse ++ seen := by
      refine fun p hp => ⟨(hrest p hp).1, fun hmem => ?_⟩
      cases List.mem_append.mp hmem with
      | inl hin => exact hdisj p (List.mem_reverse.mp hin) p hp rfl
      | inr hold => exact (hrest p hp).2 hold
    obtain ⟨seen', hcheck, hperm⟩ : ∃ seen', checkWeightedMembers (i + 1)
        (m.evalPoints.reverse ++ seen) (total + m.weight) ms = .ok (seen', total + m.weight + stake ms)
        ∧ seen'.Perm _ := ih hw hnn hpos hfresh hnodup (by omega) (by omega)
    refine ⟨seen', ?_, hperm.trans ?_⟩
    · rw [checkWeightedMembers, if_neg (by simp [hm]), if_neg (by omega)]
      simp only [hadd]
      rw [if_neg, checkPoints_complete hmps hmnodup]
      · simp only [hcheck, add_assoc]
      · rintro ⟨hlen, hle⟩
        rw [hmpos (by omega)] at hlen
        simp at hlen
    · rw [List.append_assoc]
      refine (List.perm_append_comm_assoc _ _ _).trans ?_
      exact (List.reverse_perm _).append_right _

theorem apportionable_of_allocate (hnn : ∀ m ∈ ms, 0 ≤ m.weight)
    (h : allocateEvalPoints sha256 ms budget epoch = some out)
    (hw : out.any RoundMember.weighted = true) : Apportionable ms budget := by
  obtain ⟨total, htotal, h⟩ := Option.bind_eq_some_iff.mp h
  split_ifs at h with hflat
  · cases h
    simp [unweightedPoints] at hw
  obtain ⟨hbudget, hpos⟩ := not_or.mp hflat
  obtain ⟨seats, hseats, -⟩ := Option.map_eq_some_iff.mp h
  exact apportionable_of_seats hnn htotal (not_not.mp hpos) (by omega) hseats

theorem stakeThreshold_loose (hpos : 1 ≤ totalEvalPoints ms) (hlt : totalEvalPoints ms < 2 ^ 32) :
    stakeThreshold ms false = min (2 * totalEvalPoints ms / 3 + 1) (totalEvalPoints ms) := by
  unfold stakeThreshold
  simp only [Bool.false_eq_true, if_false]
  rw [if_neg (by omega)]
  split_ifs
  · exact wrap32_of_lt (by omega)
  · rw [wrap32_of_lt (by omega)]
    omega

theorem wantThreshold_eq {k : Nat} (hlt : k < 2 ^ 32) : wantThreshold k = min (2 * k / 3 + 1) k := by
  unfold wantThreshold
  rw [wrap32_of_lt (by omega), wrap32_of_lt hlt]
  show (if k < 2 * k / 3 + 1 then k else 2 * k / 3 + 1) = _
  split_ifs
  · omega
  · omega

theorem exists_of_plain (h : out.map RoundMember.plain = ms.map RoundMember.plain) (hm : m ∈ out) :
    ∃ m' ∈ ms, m'.accountAddr = m.accountAddr ∧ m'.weight = m.weight := by
  have hmem := List.mem_map_of_mem (f := RoundMember.plain) hm
  rw [h] at hmem
  obtain ⟨m', hm', heq⟩ := List.mem_map.mp hmem
  exact ⟨m', hm', (congrArg RoundMember.accountAddr heq :), (congrArg RoundMember.weight heq :)⟩

theorem stake_of_plain (h : out.map RoundMember.plain = ms.map RoundMember.plain) :
    stake out = stake ms := by
  have hweights := congrArg (List.map RoundMember.weight) h
  rw [List.map_map, List.map_map] at hweights
  exact congrArg List.sum hweights

theorem validateWeightedRound_allocated (hnn : ∀ m ∈ ms, 0 ≤ m.weight) (hbudget : budget < 2 ^ 32)
    (h : allocateEvalPoints sha256 ms budget epoch = some r.members)
    (hw : r.members.any RoundMember.weighted = true)
    (ht : r.threshold = stakeThreshold r.members false) : validateWeightedRound r = .ok () := by
  have hA := apportionable_of_allocate hnn h hw
  have hall := (allocateEvalPoints_weighted h hw).1
  have hstake := stake_of_plain (allocateEvalPoints_plain h)
  have hout : r.members = weightedAllocation sha256 epoch ms budget :=
    Option.some.inj (h.symm.trans (allocateEvalPoints_eq sha256 epoch hA))
  have hpts : r.members.flatMap RoundMember.evalPoints = List.range' 1 budget := by
    rw [hout]
    exact weightedAllocation_evalPoints sha256 epoch hA
  have htotal : totalEvalPoints r.members = budget := by
    rw [hout]
    exact totalEvalPoints_weightedAllocation sha256 epoch hA
  have hout_nn : ∀ m ∈ r.members, 0 ≤ m.weight := by
    intro m hm
    obtain ⟨m', hm', -, hweight⟩ := exists_of_plain (allocateEvalPoints_plain h) hm
    exact hweight ▸ hnn m' hm'
  have hzero : ∀ m ∈ r.members, m.weight = 0 → m.evalPoints = [] := by
    rw [hout]
    exact fun m hm => weightedAllocation_zero_weight sha256 epoch hA hm
  have hfresh : ∀ p ∈ r.members.flatMap RoundMember.evalPoints, p ≠ 0 ∧ p ∉ ([] : List Nat) := by
    rw [hpts]
    intro p hp
    obtain ⟨hp, -⟩ := List.mem_range'_1.mp hp
    exact ⟨by omega, List.not_mem_nil⟩
  have hfits := hA.stake_fits
  obtain ⟨seen, hcheck, hperm⟩ : ∃ seen, checkWeightedMembers 0 [] 0 r.members
      = .ok (seen, 0 + stake r.members) ∧ seen.Perm _ :=
    checkWeightedMembers_complete hall hout_nn hzero hfresh (hpts ▸ List.nodup_range') le_rfl
      (by omega)
  rw [List.append_nil, hpts] at hperm
  have hlen : seen.length = budget := by rw [hperm.length_eq, List.length_range']
  have hpos := hA.stake_pos
  unfold validateWeightedRound
  simp only [hcheck, bind_unit_eq_ok, rejectIf_eq_ok, not_not, hlen]
  refine ⟨fun p hp => hperm.mem_iff.mpr hp, by omega, ?_⟩
  have hbpos := hA.budget_pos
  rw [ht, stakeThreshold_loose (by omega) (by omega), wantThreshold_eq hbudget, htotal]

/-- What an allocation leaves of a committee the import accepts: the members, with points in
range. -/
theorem allocated_members (hcheck : checkRoundMembers X 0 [] [] ms = .ok ())
    (hreg : RegularMembers ms) (hne : ms ≠ []) (hlen : ms.length < 2 ^ 32)
    (hbudget : budget < 2 ^ 32) (h : allocateEvalPoints sha256 ms budget epoch = some out) :
    checkRoundMembers X 0 [] [] out = .ok () ∧ RegularMembers out ∧ out.length = ms.length
      ∧ 1 ≤ totalEvalPoints out ∧ totalEvalPoints out < 2 ^ 32 := by
  have hplain := allocateEvalPoints_plain h
  have hlength : out.length = ms.length := by simpa using congrArg List.length hplain
  have hpos := List.length_pos_iff.mpr hne
  refine ⟨?_, ?_, hlength, ?_⟩
  · rw [← checkRoundMembers_plain, hplain, checkRoundMembers_plain]
    exact hcheck
  · cases hreg with
    | inl hstaked =>
      refine .inl fun m hm => ?_
      obtain ⟨m', hm', haccount, hweight⟩ := exists_of_plain hplain hm
      rw [← haccount, ← hweight]
      exact hstaked m' hm'
    | inr hdeclared =>
      -- without stake the allocation falls back to one point per member
      refine .inr ?_
      obtain ⟨total, htotal, h⟩ := Option.bind_eq_some_iff.mp h
      have hzero : total = 0 := by
        have hsum := totalPositiveWeight_some htotal
        rw [List.map_congr_left fun m hm => congrArg Int.toNat (hdeclared m hm).1] at hsum
        simpa using hsum
      rw [if_pos (.inr (by omega))] at h
      cases h
      intro m hm
      obtain ⟨m', hm', rfl⟩ := List.mem_map.mp hm
      exact ⟨(hdeclared m' hm').1, rfl, rfl⟩
  · by_cases hw : out.any RoundMember.weighted = true
    · have hnn : ∀ m ∈ ms, 0 ≤ m.weight := fun m hm =>
        hreg.elim (fun hs => (hs m hm).2) fun hd => (hd m hm).1.ge
      have hA := apportionable_of_allocate hnn h hw
      rw [(allocateEvalPoints_weighted h hw).2]
      exact ⟨hA.budget_pos, hbudget⟩
    · obtain ⟨total, -, h⟩ := Option.bind_eq_some_iff.mp h
      split_ifs at h with hflat
      · cases h
        rw [totalEvalPoints_of_single fun m hm => ?_, List.length_map]
        · exact ⟨hpos, hlen⟩
        · obtain ⟨m', -, rfl⟩ := List.mem_map.mp hm
          rfl
      · obtain ⟨seats, -, rfl⟩ := Option.map_eq_some_iff.mp h
        obtain ⟨m, hm⟩ := List.exists_mem_of_length_pos (hlength ▸ hpos)
        exact absurd (List.any_eq_true.mpr ⟨m, hm, weighted_of_mem_layOutPoints hm⟩) hw

/-! ## Opening a round -/

theorem effectiveShareBudget_le (h : p.validateDkgWindows = .ok ()) :
    p.effectiveShareBudget ≤ maxDkgShareBudget := by
  simp only [Params.validateDkgWindows, bind_unit_eq_ok, rejectIf_eq_ok] at h
  obtain ⟨-, -, -, -, -, -, -, hbudget, -⟩ := h
  unfold Params.effectiveShareBudget
  split_ifs
  · decide
  · omega

/-- What the block handler needs so that the round it opens is importable. On the transparent path
the strict flag is off; on the declared path a word counts the members; and a round that may be
retried with its stored members is counted by a word, and not weighted on the declared path. -/
@[mk_iff] structure State.OpensImportable (s : State) : Prop where
  loose : s.params.dkgTransparent = true → s.params.dkgStrictConcentration = false
  declared : s.params.dkgTransparent = false → s.params.dkgMembers.length < 2 ^ 32
  retried : ∀ r ∈ s.lastRound, r.status ≠ .active → r.members.length < 2 ^ 32
    ∧ (s.params.dkgTransparent = false → r.members.any RoundMember.weighted = false)

instance (s : State) : Decidable s.OpensImportable :=
  decidable_of_iff' _ s.opensImportable_iff

/-- A committee that may be opened: the import accepts its members, and a word counts them. -/
structure Openable (X : External) (p : Params) (ms : List RoundMember) : Prop where
  nonempty : ms ≠ []
  checked : checkRoundMembers X 0 [] [] ms = .ok ()
  regular : RegularMembers ms
  counted : ms.length < 2 ^ 32
  unweighted : p.dkgTransparent = false → ms.any RoundMember.weighted = false

theorem roundThreshold_le (hne : ms ≠ []) (hcount : ms.length < 2 ^ 32)
    (hplain : ms.any RoundMember.weighted = false) :
    roundThreshold p ms.length ≠ 0 ∧ roundThreshold p ms.length ≤ totalEvalPoints ms := by
  have hpos := List.length_pos_iff.mpr hne
  have hpoints : ms.length ≤ totalEvalPoints ms := by
    have hone : ∀ m ∈ ms, 1 ≤ m.ownedEvalPoints.length := by
      intro m hm
      unfold RoundMember.ownedEvalPoints
      split_ifs with hlen hw
      · exact hlen
      · exact absurd hw (List.any_eq_false.mp hplain m hm)
      · exact le_rfl
    have hsum := List.card_nsmul_le_sum (ms.map fun m => m.ownedEvalPoints.length) 1
      (by simpa using hone)
    simpa [totalEvalPoints] using hsum
  unfold roundThreshold
  split_ifs with hthreshold
  · omega
  · rw [wrap32_of_lt (by omega)]
    omega

theorem Openable.round (h : Openable X p ms)
    (hwindows : p.validateDkgWindows = .ok ())
    (hloose : p.dkgTransparent = true → p.dkgStrictConcentration = false)
    (hopen : r.status = .isOpen) (hdeal : r.openHeight ≤ r.dealDeadline)
    (hcomplaint : r.dealDeadline ≤ r.complaintDeadline)
    (hsized : if p.dkgTransparent then
        allocateEvalPoints X.sha256 ms p.effectiveShareBudget r.epoch = some r.members
          ∧ r.threshold = stakeThreshold r.members p.dkgStrictConcentration
      else r.members = ms ∧ r.threshold = roundThreshold p ms.length) :
    validateImportedRound X r = .ok () ∧ Openable X p r.members := by
  by_cases htransparent : p.dkgTransparent = true
  · rw [if_pos htransparent] at hsized
    obtain ⟨halloc, hthreshold⟩ := hsized
    rw [hloose htransparent] at hthreshold
    have hbudget : p.effectiveShareBudget < 2 ^ 32 :=
      lt_of_le_of_lt (effectiveShareBudget_le hwindows) (by decide)
    obtain ⟨hchecked, hregular, hlength, hpos, hlt⟩ :=
      allocated_members h.checked h.regular h.nonempty h.counted hbudget halloc
    have hne : r.members ≠ [] := by
      rw [← List.length_pos_iff, hlength]
      exact List.length_pos_iff.mpr h.nonempty
    have hnn : ∀ m ∈ ms, 0 ≤ m.weight := fun m hm =>
      h.regular.elim (fun hs => (hs m hm).2) fun hd => (hd m hm).1.ge
    refine ⟨validateImportedRound_eq_ok.mpr ⟨by rw [hopen]; rfl, ⟨hdeal, hcomplaint⟩, hne, ?_, ?_,
      hchecked, fun hw => validateWeightedRound_allocated hnn hbudget halloc hw hthreshold⟩,
      hne, hchecked, hregular, by rw [hlength]; exact h.counted, fun hdeclared => ?_⟩
    · rw [hthreshold, stakeThreshold_loose hpos hlt]
      omega
    · rw [hthreshold, stakeThreshold_loose hpos hlt]
      omega
    · exact absurd (htransparent.symm.trans hdeclared) (by decide)
  · rw [if_neg htransparent] at hsized
    obtain ⟨hmembers, hthreshold⟩ := hsized
    have hplain := h.unweighted (Bool.not_eq_true _ ▸ htransparent)
    obtain ⟨hzero, hle⟩ := roundThreshold_le (p := p) h.nonempty h.counted hplain
    rw [← hmembers] at h hplain hzero hle hthreshold
    refine ⟨validateImportedRound_eq_ok.mpr ⟨by rw [hopen]; rfl, ⟨hdeal, hcomplaint⟩, h.nonempty,
      ?_, ?_, h.checked, fun hw => ?_⟩, h⟩
    · rw [hthreshold]
      exact hzero
    · rw [hthreshold]
      exact hle
    · exact absurd (hw.symm.trans hplain) (by decide)

theorem le_addSat {a b : Nat} (h : a < 2 ^ 64) : a ≤ addSat a b := by
  unfold addSat
  split_ifs
  · omega
  · omega

theorem addSat_lt (a b : Nat) : addSat a b < 2 ^ 64 := by
  unfold addSat
  split_ifs
  · decide
  · omega

/-! ## Dealings and keys -/

theorem allPoints_of_parse {cs : List Bytes} (h : (parseCommitmentPoints X cs).isSome = true) :
    allPoints X cs = true := by
  induction cs with
  | nil => rfl
  | cons c cs ih =>
    obtain ⟨comm, hcomm⟩ := Option.isSome_iff_exists.mp h
    obtain ⟨P, hP, hrest⟩ := Option.bind_eq_some_iff.mp hcomm
    obtain ⟨rest, hrest, -⟩ := Option.map_eq_some_iff.mp hrest
    have htail := ih (Option.isSome_iff_exists.mpr ⟨rest, hrest⟩)
    show (validCompressedPoint X c && allPoints X cs) = true
    rw [htail, Bool.and_true]
    exact Option.isSome_iff_exists.mpr ⟨P, hP⟩

theorem checkImportedShares_complete {round : DkgRound} {shares : List DkgStoredEncShare}
    (hnodup : (shares.map DkgStoredEncShare.memberIndex).Nodup)
    (hall : ∀ sh ∈ shares, evalPointOwner round.members sh.memberIndex ≠ 0
      ∧ validCompressedPoint X sh.a = true ∧ sh.nonce.length = nonceSize ∧ sh.body.length ≠ 0) :
    checkImportedShares X round shares = .ok () := by
  refine checkDistinct_complete hnodup (fun _ _ => List.not_mem_nil) fun sh hsh j => ?_
  obtain ⟨howner, ha, hnonce, hbody⟩ := hall sh hsh
  simp only [bind_unit_eq_ok, rejectIf_eq_ok]
  exact ⟨howner, by simp [ha], by simp [hnonce], hbody⟩

theorem memberByIndex_isSome {round : DkgRound} {P : RoundMember → Bool}
    (h : round.members.find? P = some m) : (memberByIndex round m.index).isSome = true := by
  unfold memberByIndex
  rw [List.find?_isSome]
  exact ⟨m, List.mem_of_find?_eq_some h, by simp⟩

/-- A member of a committee in which everybody owns their index owns the point of that index. -/
theorem evalPointOwner_of_single (hsingle : ∀ m ∈ members, m.ownedEvalPoints = [m.index])
    (hpos : ∀ m ∈ members, m.index ≠ 0) (hi : (members.find? (fun m => m.index = i)).isSome = true)
    : evalPointOwner members i ≠ 0 := by
  obtain ⟨m, hm, hmi⟩ := List.find?_isSome.mp hi
  have howns : (members.find? (fun m => m.ownsEvalPoint i)).isSome = true := by
    refine List.find?_isSome.mpr ⟨m, hm, ?_⟩
    rw [RoundMember.ownsEvalPoint_iff, hsingle m hm]
    simpa using (of_decide_eq_true hmi).symm
  obtain ⟨o, ho⟩ := Option.isSome_iff_exists.mp howns
  unfold evalPointOwner
  rw [ho]
  exact hpos o (List.mem_of_find?_eq_some ho)

/-- **A dealing admitted to a round is importable**, on either path. -/
theorem Admitted.importable {round : DkgRound} {d : Dealing} (hadm : Admitted X round d)
    (hdealer : d.dealerIndex ≠ 0) (hepoch : d.epoch = round.epoch)
    (hvalid : validateImportedRound X round = .ok ()) (hregular : RegularMembers round.members) :
    validateImportedDealing X d round = .ok () := by
  simp only [validateImportedDealing, bind_unit_eq_ok, rejectIf_eq_ok, not_not]
  cases hadm with
  | inl hvote =>
    obtain ⟨hindex, hshape⟩ := hvote
    simp only [validateDealingShape, bind_unit_eq_ok, rejectIf_eq_ok, not_not] at hshape
    obtain ⟨hlen, hparse, hshares, hsealed⟩ := hshape
    obtain ⟨hnodup, -, hall⟩ := checkDistinct_sound hsealed
    have hpoints := allPoints_of_parse (X := X) (Option.isSome_iff_ne_none.mpr (by simpa using hparse))
    refine ⟨hepoch, hdealer, ?_, hlen, by simp [hpoints], hshares,
      checkImportedShares_complete hnodup fun sh hsh => ?_⟩
    · rw [hindex] at hdealer ⊢
      unfold memberIndexByOperator at hdealer ⊢
      split_ifs at hdealer ⊢ with hop
      · exact absurd rfl hdealer
      · cases hfind : round.members.find? (fun m => m.operatorAddr = d.dealer) with
        | none => simp [hfind] at hdealer
        | some m => simp [Option.isNone_eq_false_iff.mpr (memberByIndex_isSome hfind)]
    · obtain ⟨j, howner, hpost⟩ := hall sh hsh
      simp only [bind_unit_eq_ok, rejectIf_eq_ok, not_not, not_or] at howner hpost
      exact ⟨howner, by simpa using hpost.1, hpost.2.1, hpost.2.2.1⟩
  | inr hmessage =>
    obtain ⟨haccount, hindex, hlen, hparse, hshares, hsealed⟩ := hmessage
    -- a dealer with an account is a member, so the committee is the declared one
    obtain ⟨m, hm⟩ : ∃ m, round.members.find? (fun m => m.accountAddr = d.dealer) = some m := by
      refine Option.ne_none_iff_exists'.mp fun hnone => hdealer ?_
      rw [hindex, memberIndexByAccount, hnone]
    have hindex : d.dealerIndex = m.index := by rw [hindex, memberIndexByAccount, hm]
    have hsingle : ∀ m ∈ round.members, m.ownedEvalPoints = [m.index] := by
      cases hregular with
      | inl hstaked =>
        have haddr : m.accountAddr = d.dealer := by simpa using List.find?_some hm
        exact absurd (haddr.symm.trans (hstaked m (List.mem_of_find?_eq_some hm)).1) haccount
      | inr hdeclared => exact fun m hm => (hdeclared m hm).2.2
    have hpos : ∀ m ∈ round.members, m.index ≠ 0 := by
      obtain ⟨-, -, -, -, -, hchecked, -⟩ := validateImportedRound_eq_ok.mp hvalid
      exact fun m hm => ((checkRoundMembers_eq_ok.mp hchecked).1 m hm).1
    obtain ⟨hnodup, -, hall⟩ := checkDistinct_sound hsealed
    refine ⟨hepoch, hdealer, ?_, hlen, by simp [allPoints_of_parse hparse], ?_,
      checkImportedShares_complete hnodup fun sh hsh => ?_⟩
    · rw [hindex]
      simp [Option.isNone_eq_false_iff.mpr (memberByIndex_isSome hm)]
    · rw [hshares, totalEvalPoints_of_single hsingle]
    · obtain ⟨j, hmember, hpost⟩ := hall sh hsh
      simp only [bind_unit_eq_ok, rejectIf_eq_ok, not_not] at hmember hpost
      refine ⟨evalPointOwner_of_single hsingle hpos ?_, by simpa using hpost.1, hpost.2.1, hpost.2.2⟩
      exact Option.isSome_iff_ne_none.mpr (by simpa [memberByIndex] using hmember)

theorem checkQual_complete {weight : Nat} {qs : List Nat}
    (hmem : ∀ q ∈ qs, q ∈ members.map RoundMember.index ∧ q ∉ seen) (hnodup : qs.Nodup) :
    checkQual members i seen weight qs
      = .ok (weight + (qs.map fun q => (memberPoints members q).getD 1).sum) := by
  induction qs generalizing i seen weight with
  | nil => rfl
  | cons q qs ih =>
    obtain ⟨⟨hq, hnew⟩, hrest⟩ := List.forall_mem_cons.mp hmem
    obtain ⟨hfresh, hnodup⟩ := List.nodup_cons.mp hnodup
    obtain ⟨n, hn⟩ := Option.isSome_iff_exists.mp (memberPoints_isSome hq)
    rw [checkQual, hn]
    simp only
    rw [if_neg hnew, ih (fun x hx => ⟨(hrest x hx).1, ?_⟩) hnodup, List.map_cons, List.sum_cons, hn]
    · simp [add_assoc]
    · refine List.not_mem_cons_of_ne_of_not_mem ?_ (hrest x hx).2
      rintro rfl
      exact hfresh hx

/-- **The key a round is finalized to is importable** with that round. -/
theorem installedKey_importable {round : DkgRound} {res : PublicResult}
    (hvalid : validateImportedRound X round = .ok ()) (hres : s.finalizeResult X round = .ok res) :
    validateImportedActiveKey X (installedKey round res) round = .ok () := by
  obtain ⟨hpos, hlen, hne⟩ := finalizePublicWeighted_length hres
  obtain ⟨hqual, hweight, V, -, -, hpub, hall⟩ := finalizePublicWeighted_spec hres
  obtain ⟨-, -, -, -, -, hchecked, -⟩ := validateImportedRound_eq_ok.mp hvalid
  have hnodup := (checkRoundMembers_eq_ok.mp hchecked).2.1
  have hhead : validCompressedPoint X res.pub = true := by
    obtain ⟨c, cs, hcs⟩ := List.exists_cons_of_length_pos (hlen ▸ hpos)
    rw [hpub, hcs, List.headD_cons]
    exact List.all_eq_true.mp hall c (hcs ▸ List.mem_cons_self)
  have hcheck : checkQual round.members 0 [] 0 (installedKey round res).qual
      = .ok (0 + (res.qual.map fun q => (memberPoints round.members q).getD 1).sum) := by
    show checkQual round.members 0 [] 0 res.qual = _
    refine checkQual_complete (fun q hq => ⟨?_, List.not_mem_nil⟩) ?_
    · rw [hqual] at hq
      exact (List.perm_insertionSort _ _).mem_iff.mp (List.mem_of_mem_filter hq)
    · rw [hqual]
      exact ((List.perm_insertionSort _ _).nodup_iff.mpr hnodup).filter _
  simp only [validateImportedActiveKey, bind_unit_eq_ok, rejectIf_eq_ok, not_not, hcheck, zero_add,
    Bool.not_eq_false, List.length_eq_zero_iff]
  exact ⟨Nat.ne_of_gt hpos, rfl, hhead, hlen, hall, hne, Nat.not_lt.mpr hweight⟩

/-! ## Rounds, keys and dealings -/

namespace State

variable {s s' t base : State} {round r : DkgRound} {status : DkgStatus}
  {members : List RoundMember}

/-- What the import checks of rounds, keys and dealings, with the order of the epochs and the
counters that pruning relies on. A key is stored for active rounds only. -/
structure Committees (X : External) (s : State) : Prop where
  counts : s.CountersCover X
  registry : s.RegistryInv X
  round : ∀ ep r, s.rounds.get? ep = some r → ep ≠ 0 ∧ ep ≤ s.currentEpoch
    ∧ validateImportedRound X r = .ok () ∧ RegularMembers r.members
  key : ∀ ep ak, s.activeKeys.get? ep = some ak → ∃ r, s.rounds.get? ep = some r
    ∧ r.status = .active ∧ validateImportedActiveKey X ak r = .ok ()
  needed : ∀ ep, s.Needed ep → (s.activeKeys.get? ep).isSome = true
  current : 0 < s.currentEpoch → (s.rounds.get? s.currentEpoch).isSome = true
  dealing : ∀ d ∈ s.dealings.entries, ∃ r, s.rounds.get? d.epoch = some r
    ∧ validateImportedDealing X d r = .ok ()

section

variable (h : s.Committees X)

include h

theorem Committees.congr (hcounts : s'.CountersCover X) (hregistry : s'.RegistryInv X)
    (hmaterial : s'.material = s.material) (hneeded : ∀ ep, s'.Needed ep → s.Needed ep) :
    s'.Committees X := by
  cases s
  cases s'
  cases hmaterial
  exact ⟨hcounts, hregistry, h.round, h.key, fun ep hn => h.needed ep (hneeded ep hn), h.current, h.dealing⟩

theorem Committees.maybePrune (ep : Nat) : (s.maybePruneEpoch ep).Committees X := by
  obtain ⟨heq, -⟩ | ⟨hactive, hcurrent, hcount, -, heq⟩ := s.maybePruneEpoch_cases ep
  · rw [heq]
    exact h
  rw [heq]
  refine ⟨h.counts.of_pool rfl, h.registry.congr rfl rfl, fun e r hr => ?_,
    fun e ak hak => ?_, fun e hn => ?_, fun hpos => ?_, fun d hd => ?_⟩
  · exact h.round e r (get?_of_del hr)
  · simp only [get?_del] at hak ⊢
    split_ifs at hak ⊢
    exact h.key e ak hak
  · have hne : e ≠ ep := h.counts.needed_ne hn hactive hcount
    rw [get?_del_of_ne hne]
    exact h.needed e hn
  · rw [get?_del_of_ne (Ne.symm hcurrent)]
    exact h.current hpos
  · obtain ⟨hmem, hkept⟩ := (mem_delWhere_iff _ _ _).mp hd
    have hne : d.epoch ≠ ep := of_decide_eq_false hkept
    rw [get?_del_of_ne hne]
    exact h.dealing d hmem

theorem Committees.restatus (hget : s.rounds.get? round.epoch = some round)
    (hknown : status.known = true) {rounds : RecStore DkgRound.epoch}
    (hrounds : rounds = s.rounds.put { round with status := status }) :
    (∀ ep r, rounds.get? ep = some r → ep ≠ 0 ∧ ep ≤ s.currentEpoch
      ∧ validateImportedRound X r = .ok () ∧ RegularMembers r.members)
    ∧ (0 < s.currentEpoch → (rounds.get? s.currentEpoch).isSome = true)
    ∧ ∀ d ∈ s.dealings.entries, ∃ r, rounds.get? d.epoch = some r
      ∧ validateImportedDealing X d r = .ok () := by
  subst hrounds
  refine ⟨forall_get?_put ?_ h.round, fun hpos => ?_, fun d hd => ?_⟩
  · obtain ⟨hzero, hle, hvalid, hregular⟩ := h.round _ _ hget
    refine ⟨hzero, hle, ?_, hregular⟩
    obtain ⟨-, hrest⟩ := validateImportedRound_eq_ok.mp hvalid
    exact validateImportedRound_eq_ok.mpr ⟨hknown, hrest⟩
  · rw [get?_put]
    split_ifs
    · rfl
    · exact h.current hpos
  · obtain ⟨r, hr, hvalid⟩ := h.dealing d hd
    rw [get?_put]
    split_ifs with heq
    · obtain rfl : round = r := Option.some.inj (hget.symm.trans ((congrArg _ heq.symm).trans hr))
      exact ⟨_, rfl, hvalid⟩
    · exact ⟨r, hr, hvalid⟩

/-- A round that is not active has no key, so no ciphertext is stamped with it and it does not
serve. -/
theorem Committees.no_key (hget : s.rounds.get? round.epoch = some round)
    (hstatus : round.status ≠ .active) :
    s.activeKeys.get? round.epoch = none ∧ ¬ s.Needed round.epoch := by
  have hnone : s.activeKeys.get? round.epoch = none := by
    by_contra hsome
    obtain ⟨ak, hak⟩ := Option.ne_none_iff_exists'.mp hsome
    obtain ⟨r, hr, hactive, -⟩ := h.key _ _ hak
    obtain rfl := Option.some.inj (hget.symm.trans hr)
    exact hstatus hactive
  refine ⟨hnone, fun hn => ?_⟩
  have hsome := h.needed _ hn
  rw [hnone] at hsome
  cases hsome

theorem Committees.failRound (hlast : s.lastRound = some round) (hopen : round.status = .isOpen) :
    Committees X { s with rounds := s.rounds.put { round with status := .failed } } := by
  obtain ⟨hget, -, -⟩ := get?_of_lastRound hlast
  have hnone := (h.no_key hget (by rw [hopen]; decide)).1
  have hknown : DkgStatus.failed.known = true := rfl
  obtain ⟨hround, hcurrent, hdealing⟩ := h.restatus hget hknown rfl
  refine ⟨h.counts.of_pool rfl, h.registry.congr rfl rfl, hround, fun ep ak hak => ?_,
    h.needed, hcurrent, hdealing⟩
  obtain ⟨r, hr, hkey⟩ := h.key ep ak hak
  refine ⟨r, ?_, hkey⟩
  refine (get?_put_of_ne ?_).trans hr
  rintro rfl
  exact absurd (hnone.symm.trans hak) nofun

theorem Committees.activate {res : PublicResult} (hlast : s.lastRound = some round)
    (hres : s.finalizeResult X round = .ok res) (hcounts : t.CountersCover X)
    (hregistry : t.RegistryInv X)
    (hrounds : t.rounds = s.rounds.put { round with status := .active })
    (hkeys : t.activeKeys = s.activeKeys.put (installedKey round res))
    (hdealings : t.dealings = s.dealings) (hcurrent : t.currentEpoch = s.currentEpoch)
    (hactive : t.activeEpoch = round.epoch) (htxs : t.encTxs = s.encTxs) : t.Committees X := by
  obtain ⟨hget, -, -⟩ := get?_of_lastRound hlast
  have hknown : DkgStatus.active.known = true := rfl
  obtain ⟨hround, hcur, hdealing⟩ := h.restatus hget hknown hrounds
  refine ⟨hcounts, hregistry, hcurrent ▸ hround, fun ep ak hak => ?_, fun ep hn => ?_,
    hcurrent ▸ hcur, hdealings ▸ hdealing⟩
  · rw [hkeys, get?_put] at hak
    rw [hrounds, get?_put]
    change (if ep = round.epoch then _ else _) = _ at hak
    by_cases hep : ep = round.epoch
    · rw [if_pos hep] at hak ⊢
      cases hak
      exact ⟨_, rfl, rfl, installedKey_importable (h.round _ _ hget).2.2.1 hres⟩
    · rw [if_neg hep] at hak ⊢
      exact h.key ep ak hak
  · rw [hkeys, get?_put]
    split_ifs with hep
    · rfl
    · refine h.needed ep ⟨hn.1, .inr ?_⟩
      obtain ⟨-, hserves | htx⟩ := hn
      · exact absurd (hserves.trans hactive) hep
      · rwa [htxs] at htx

/-- A round opened for the next epoch meets nothing stored for that epoch. -/
theorem Committees.opened (hbase : (base = s ∧ ∀ r, s.lastRound = some r → r.status = .active)
      ∨ (base = s.purgeFailedRound s.currentEpoch
        ∧ ∃ r, s.lastRound = some r ∧ r.status ≠ .active ∧ r.status ≠ .isOpen))
    (hepoch : r.epoch = s.currentEpoch + 1) (hvalid : validateImportedRound X r = .ok ())
    (hregular : RegularMembers r.members) (hcounts : s'.CountersCover X)
    (hregistry : s'.RegistryInv X)
    (hs' : s' = { base with rounds := base.rounds.put r, currentEpoch := r.epoch }) :
    s'.Committees X := by
  subst hs'
  have hfresh : ∀ ep, (s.rounds.get? ep).isSome = true → ep ≠ r.epoch := by
    rintro ep hsome rfl
    obtain ⟨x, hx⟩ := Option.isSome_iff_exists.mp hsome
    have := (h.round _ _ hx).2.1
    omega
  have hput : ∀ ep x, (s.rounds.put r).get? ep = some x → ep ≠ 0 ∧ ep ≤ r.epoch
      ∧ validateImportedRound X x = .ok () ∧ RegularMembers x.members := by
    refine forall_get?_put ⟨by omega, le_rfl, hvalid, hregular⟩ fun ep x hx => ?_
    obtain ⟨hzero, hle, hrest⟩ := h.round ep x hx
    exact ⟨hzero, by omega, hrest⟩
  obtain ⟨rfl, -⟩ | ⟨rfl, last, hlast, hnotActive, -⟩ := hbase
  · refine ⟨hcounts, hregistry, hput, fun ep ak hak => ?_, h.needed, fun _ => ?_, fun d hd => ?_⟩
    · obtain ⟨x, hx, hrest⟩ := h.key ep ak hak
      exact ⟨x, (get?_put_of_ne (hfresh ep (by rw [hx]; rfl))).trans hx, hrest⟩
    · simp
    · obtain ⟨x, hx, hrest⟩ := h.dealing d hd
      exact ⟨x, (get?_put_of_ne (hfresh _ (by rw [hx]; rfl))).trans hx, hrest⟩
  · -- the purged round was not active, so its epoch has no key and nobody needs it
    obtain ⟨hget, hcur, -⟩ := get?_of_lastRound hlast
    obtain ⟨hnone, -⟩ := h.no_key hget hnotActive
    rw [hcur] at hget hnone
    refine ⟨hcounts, hregistry, fun ep x hx => ?_, fun ep ak hak => ?_, h.needed, fun _ => ?_,
      fun d hd => ?_⟩
    · refine hput ep x ?_
      obtain ⟨rfl, rfl⟩ | ⟨hne, hold⟩ := get?_of_put hx
      · exact get?_put_self _ x
      · exact (get?_put_of_ne hne).trans (get?_of_del hold)
    · obtain ⟨x, hx, hrest⟩ := h.key ep ak hak
      have hne : ep ≠ s.currentEpoch := by
        rintro rfl
        exact absurd (hnone.symm.trans hak) nofun
      exact ⟨x, (get?_put_of_ne (hfresh ep (by rw [hx]; rfl))).trans
        ((get?_del_of_ne hne).trans hx), hrest⟩
    · simp
    · obtain ⟨hmem, hkept⟩ := (mem_delWhere_iff _ _ _).mp hd
      have hne : d.epoch ≠ s.currentEpoch := of_decide_eq_false hkept
      obtain ⟨x, hx, hrest⟩ := h.dealing d hmem
      exact ⟨x, (get?_put_of_ne (hfresh _ (by rw [hx]; rfl))).trans
        ((get?_del_of_ne hne).trans hx), hrest⟩

end

section

variable (hX : EncodesPoints X) (h : s.Committees X) (hdkg : s.params.dkgEnabled = true)
  (hopens : s.OpensImportable)

include hX h hdkg hopens

theorem Committees.openable (hmembers : (members = activeMembers ctx s s.params ∧ members.length ≠ 0)
      ∨ ∃ r, s.lastRound = some r ∧ r.status = .failed ∧ members = r.members) :
    Openable X s.params members := by
  obtain ⟨hactive, hne⟩ | ⟨r, hlast, hfailed, rfl⟩ := hmembers
  · have hnil : members ≠ [] := List.length_pos_iff.mp (Nat.pos_of_ne_zero hne)
    subst hactive
    by_cases htransparent : s.params.dkgTransparent = true
    · have heq : activeMembers ctx s s.params = transparentMembers ctx s s.params :=
        if_pos htransparent
      have hfit := transparentMembers_fit ctx s s.params
      have hbudget := effectiveShareBudget_le (Params.validate_dkg h.counts.params hdkg)
      rw [heq] at hnil ⊢
      obtain ⟨hchecked, hstaked⟩ :
          checkRoundMembers X 0 [] [] (transparentMembers ctx s s.params) = .ok () ∧ _ :=
        transparentMembers_spec hX h.registry s.params
      refine ⟨hnil, hchecked, .inl hstaked, ?_, fun hdeclared => ?_⟩
      · have hmax : maxDkgShareBudget = 1024 := rfl
        omega
      · exact absurd (htransparent.symm.trans hdeclared) (by decide)
    · have hdeclared : s.params.dkgTransparent = false := Bool.not_eq_true _ ▸ htransparent
      obtain ⟨hchecked, hle, hsingle⟩ :
          checkRoundMembers X 0 [] [] (activeMembers ctx s s.params) = .ok () ∧ _ :=
        declaredMembers_spec h.counts.params hdkg hdeclared
      refine ⟨hnil, hchecked, .inr hsingle, hle.trans_lt (hopens.declared hdeclared), fun _ => ?_⟩
      exact activeMembers_not_weighted ctx s s.params
  · obtain ⟨hget, -, -⟩ := get?_of_lastRound hlast
    obtain ⟨-, -, hvalid, hregular⟩ := h.round _ _ hget
    obtain ⟨-, -, hne, -, -, hchecked, -⟩ := validateImportedRound_eq_ok.mp hvalid
    obtain ⟨hcount, hplain⟩ := hopens.retried r hlast (by rw [hfailed]; decide)
    exact ⟨hne, hchecked, hregular, hcount, hplain⟩

theorem Committees.openRound {epoch attempt : Nat} {hash : Bytes}
    (hmembers : (members = activeMembers ctx s s.params ∧ members.length ≠ 0)
      ∨ ∃ r, s.lastRound = some r ∧ r.status = .failed ∧ members = r.members)
    (hopen : base.openRound X epoch members hash ctx.height s.params attempt = some s') :
    ∃ r : DkgRound, r.epoch = epoch ∧ r.status = .isOpen ∧ validateImportedRound X r = .ok ()
      ∧ Openable X s.params r.members
      ∧ s' = { base with rounds := base.rounds.put r, currentEpoch := epoch } := by
  obtain ⟨r, hepoch, hstatus, hheight, hdeal, hcomplaint, hsized, hs'⟩ := openRound_spec hopen
  have hlt : r.dealDeadline < 2 ^ 64 := hdeal ▸ addSat_lt _ _
  have hdeadline : r.openHeight ≤ r.dealDeadline := by
    rw [hheight, hdeal]
    exact le_addSat (lt_trans ctx.height_lt (by decide))
  have hcomplain : r.dealDeadline ≤ r.complaintDeadline := hcomplaint ▸ le_addSat hlt
  rw [← hepoch] at hsized
  obtain ⟨hvalid, hopenable⟩ := (h.openable hX hdkg hopens hmembers).round
    (Params.validate_dkg h.counts.params hdkg) hopens.loose hstatus hdeadline hcomplain hsized
  exact ⟨r, hepoch, hstatus, hvalid, hopenable, hs'⟩

end

/-- **Every write keeps rounds, keys and dealings importable**, as long as the epoch counter does
not wrap and the block handler opens importable rounds. -/
theorem Committees.write (hX : EncodesPoints X) (hw : ¬ w.epoch) (hwrite : Write X ctx w s s')
    (hopens : w.endBlock → s.OpensImportable) (h : s.Committees X) : s'.Committees X := by
  have hcounts := h.counts.write hwrite
  have hregistry := h.registry.write hX hwrite
  cases hwrite with
  | ledger hcore =>
    exact h.congr hcounts hregistry (congrArg material hcore :) fun ep hn => hn.of_core hcore
  | submit _ _ _ _ _ hepoch =>
    exact h.congr hcounts hregistry rfl fun ep hn =>
      hn.of_put rfl rfl fun hne => ⟨hne, .inl (hepoch.resolve_left hne)⟩
  | @stamp e bond denom he _ =>
    exact h.congr hcounts hregistry rfl fun ep hn =>
      hn.of_put rfl rfl fun hne => ⟨hne, .inr ⟨e, he, rfl⟩⟩
  | @release e he =>
    exact Committees.maybePrune (h.congr (h.counts.withoutEncTx he) (h.registry.congr rfl rfl) rfl
      fun ep hn => hn.of_withoutEncTx) e.epoch
  | purge =>
    refine ⟨hcounts, hregistry, h.round, h.key, h.needed, h.current, fun d hd => ?_⟩
    exact h.dealing d ((mem_delWhere_iff _ _ _).mp hd).1
  | openRound hbase hmembers henabled hnext hopen hend =>
    obtain ⟨r, hep, -, hvalid, hopenable, hs'⟩ :=
      h.openRound hX henabled (hopens hend) hmembers hopen
    rw [wrap64_of_lt (hnext.resolve_left hw)] at hep
    rw [wrap64_of_lt (hnext.resolve_left hw), ← hep] at hs'
    exact h.opened hbase hep hvalid hopenable.regular hcounts hregistry hs'
  | failRound hlast hopen => exact h.failRound hlast hopen
  | activate hlast hopen hres =>
    apply Committees.maybePrune
    exact h.activate hlast hres (h.counts.of_pool rfl) (h.registry.congr rfl rfl)
      rfl rfl rfl rfl rfl rfl
  | @deal round d hround hopen hdealer hadm =>
    refine ⟨hcounts, hregistry, h.round, h.key, h.needed, h.current, forall_mem_put ?_ h.dealing⟩
    obtain ⟨-, -, hvalid, hregular⟩ := h.round _ _ hround
    have hepoch := (key_of_get? hround).symm
    exact ⟨round, hround, hadm.importable hdealer hepoch hvalid hregular⟩
  | _ => exact h.congr hcounts hregistry rfl fun _ hn => hn

theorem OpensImportable.congr (h : s.OpensImportable) (hparams : s'.params = s.params)
    (hlast : ∀ r ∈ s'.lastRound, r.status ≠ .active →
      ∃ r' ∈ s.lastRound, r'.status ≠ .active ∧ r'.members = r.members) : s'.OpensImportable := by
  refine ⟨?_, ?_, fun r hr hstatus => ?_⟩
  · rw [hparams]
    exact h.loose
  · rw [hparams]
    exact h.declared
  · obtain ⟨r', hr', hstatus', hmembers⟩ := hlast r hr hstatus
    rw [hparams, ← hmembers]
    exact h.retried r' hr' hstatus'

theorem lastRound_of_get? (hpos : 0 < s.currentEpoch)
    (hget : s.rounds.get? s.currentEpoch = some round) : s.lastRound = some round := by
  rw [lastRound, if_pos hpos, hget]

theorem eq_of_mem_lastRound (hlast : s.lastRound = some round) (hr : r ∈ t.lastRound)
    (hrounds : t.rounds = s.rounds.put { round with status := status })
    (hcurrent : t.currentEpoch = s.currentEpoch) : r = { round with status := status } := by
  obtain ⟨-, hcur, -⟩ := get?_of_lastRound hlast
  obtain ⟨hget, hepoch, -⟩ := get?_of_lastRound hr
  rw [hepoch, hcurrent, ← hcur, hrounds] at hget
  have hput := get?_put_self s.rounds { round with status := status }
  exact Option.some.inj (hget.symm.trans hput)

theorem maybePruneEpoch_lastRound (s : State) (ep : Nat) :
    (s.maybePruneEpoch ep).lastRound = s.lastRound := by
  obtain ⟨heq, -⟩ | ⟨-, hcurrent, -, -, heq⟩ := s.maybePruneEpoch_cases ep
  · rw [heq]
  · rw [heq]
    unfold lastRound
    rw [get?_del_of_ne (Ne.symm hcurrent)]

/-- A block that may open importable rounds still may after each of its writes. -/
theorem OpensImportable.write (hX : EncodesPoints X) (hw : ¬ w.epoch) (hwrite : Write X ctx w s s')
    (hc : s.Committees X) (h : s.OpensImportable) : s'.OpensImportable := by
  have hparams := writes_params (.single hwrite)
  cases hwrite with
  | ledger hcore =>
    have hlast : s'.lastRound = s.lastRound := (congrArg lastRound hcore :)
    exact h.congr hparams fun r hr hstatus => ⟨r, hlast ▸ hr, hstatus, rfl⟩
  | @release e he =>
    have hlast : ((s.withoutEncTx e).maybePruneEpoch e.epoch).lastRound = s.lastRound :=
      maybePruneEpoch_lastRound _ _
    exact h.congr hparams fun r hr hstatus => ⟨r, hlast ▸ hr, hstatus, rfl⟩
  | openRound hbase hmembers henabled hnext hopen hend =>
    obtain ⟨r, hep, -, -, hopenable, hs'⟩ := hc.openRound hX henabled h hmembers hopen
    rw [wrap64_of_lt (hnext.resolve_left hw)] at hep hs'
    have hlast : s'.lastRound = some r := by
      rw [hs']
      refine lastRound_of_get? (Nat.succ_pos _) ?_
      show RecStore.get? _ (s.currentEpoch + 1) = _
      rw [← hep]
      exact get?_put_self _ _
    refine ⟨?_, ?_, fun x hx _ => ?_⟩
    · rw [hparams]
      exact h.loose
    · rw [hparams]
      exact h.declared
    · obtain rfl : r = x := Option.some.inj (hlast.symm.trans hx)
      rw [hparams]
      exact ⟨hopenable.counted, hopenable.unweighted⟩
  | @failRound round hlast hopen =>
    refine h.congr hparams fun r hr _ => ⟨round, hlast, by rw [hopen]; decide, ?_⟩
    rw [eq_of_mem_lastRound hlast hr rfl rfl]
  | @activate round res sk cu hlast hopen =>
    refine h.congr hparams fun r hr hstatus => absurd ?_ hstatus
    rw [maybePruneEpoch_lastRound] at hr
    rw [eq_of_mem_lastRound hlast hr rfl rfl]
  | _ => exact h.congr hparams fun r hr hstatus => ⟨r, hr, hstatus, rfl⟩

/-! ## Ciphertexts and shares -/

/-- What the import checks of ciphertexts, and of the shares that were not verified on chain. -/
structure Pool (X : External) (s : State) : Prop where
  attached : s.NoOrphans
  seq : ∀ e ∈ s.encTxs.entries, e.seq < s.encSeq
  tx : ∀ e ∈ s.encTxs.entries, validCompressedPoint X e.a = true ∧ e.nonce.length = nonceSize
    ∧ 0 < e.body.length ∧ (0 < e.bond → e.bondBurn ≤ e.bond)
  share : ∀ sh ∈ s.encShares.entries, sh.verified = false →
    sh.keyper ≠ [] ∧ sh.index ≠ 0 ∧ validCompressedPoint X sh.d = true

theorem Pool.congr (h : s.Pool X) (hattached : s'.NoOrphans) (hseq : s'.encSeq = s.encSeq)
    (htxs : ∀ e ∈ s'.encTxs.entries, e ∈ s.encTxs.entries)
    (hshares : ∀ sh ∈ s'.encShares.entries, sh ∈ s.encShares.entries) : s'.Pool X := by
  refine ⟨hattached, fun e he => ?_, fun e he => h.tx e (htxs e he),
    fun sh hsh => h.share sh (hshares sh hsh)⟩
  rw [hseq]
  exact h.seq e (htxs e he)

theorem Pool.of_inFlight (h : s.Pool X) (hattached : s'.NoOrphans)
    (heq : s'.inFlight = s.inFlight) : s'.Pool X := by
  cases s
  cases s'
  cases heq
  exact ⟨hattached, h.seq, h.tx, h.share⟩

/-- **Every write keeps ciphertexts and unverified shares importable**, as long as the sequence
number does not wrap. -/
theorem Pool.write (hw : ¬ w.seq) (hparams : s.params.validate X = .ok ())
    (hwrite : Write X ctx w s s') (h : s.Pool X) : s'.Pool X := by
  have hattached := h.attached.write hwrite
  cases hwrite with
  | ledger hcore =>
    exact h.of_inFlight hattached (congrArg inFlight hcore :)
  | @submit submitter a nonce body epoch _ _ ha hnonce hbody _ hseq =>
    have hroom := hseq.resolve_left hw
    have hnext : wrap64 (s.encSeq + 1) = s.encSeq + 1 := wrap64_of_lt hroom
    refine ⟨hattached, ?_, forall_mem_put ?_ h.tx, h.share⟩
    · show ∀ e : EncTx, e ∈ _ → e.seq < wrap64 (s.encSeq + 1)
      rw [hnext]
      exact forall_mem_put (Nat.lt_succ_self _) fun e he => Nat.lt_succ_of_lt (h.seq e he)
    · exact ⟨ha, hnonce, hbody, fun hpos => absurd hpos (Nat.lt_irrefl 0)⟩
  | @stamp e bond denom he henabled =>
    have hbps := Params.validate_burnBps hparams henabled
    obtain ⟨ha, hnonce, hbody, -⟩ := h.tx e he
    refine ⟨hattached, forall_mem_put (h.seq e he) h.seq,
      forall_mem_put ⟨ha, hnonce, hbody, fun _ => ?_⟩ h.tx, h.share⟩
    -- the burn is a fraction of the bond
    exact Nat.div_le_of_le_mul (by
      rw [Nat.mul_comm 10000]
      exact Nat.mul_le_mul_left bond hbps)
  | @release e he =>
    obtain ⟨d, c, rc, ak, sk, cu, st, r, hframe⟩ := maybePruneEpoch_frame (s.withoutEncTx e) e.epoch
    rw [hframe] at hattached ⊢
    exact h.congr hattached rfl (fun x hx => ((mem_del_iff _ _ _).mp hx).1)
      fun sh hsh => ((mem_delWhere_iff _ _ _).mp hsh).1
  | storeShare hclass => exact ⟨hattached, h.seq, h.tx, forall_mem_put nofun h.share⟩
  | openRound hbase _ _ _ hopen =>
    exact h.of_inFlight hattached (openRound_inFlight (hbase.imp And.left And.left) hopen)
  | activate => exact h.of_inFlight hattached (maybePruneEpoch_inFlight _ _)
  | _ => exact h.congr hattached rfl (fun _ he => he) fun _ hsh => hsh

end State

/-! ## Runs -/

/-- What the import does not check of a genesis: a word counts its ciphertexts, no round is above
the current epoch, keys belong to active rounds, and committees are regular. -/
structure GenesisState.Regular (gs : GenesisState) : Prop where
  room : gs.encTxs.length < 2 ^ 64
  ordered : ∀ r ∈ gs.dkgRounds, r.epoch ≤ gs.currentEpoch
  keyed : ∀ ak ∈ gs.activeKeys, ∀ r ∈ gs.dkgRounds, r.epoch = ak.epoch → r.status = .active
  members : ∀ r ∈ gs.dkgRounds, RegularMembers r.members

/-- The actions after which the state stays exportable. A submission does not take the last sequence
number; a legacy share is a point and names a stored ciphertext; the block handler does not run at
the last epoch and opens importable rounds. -/
def ExportSafe (X : External) : Allow := fun s _ a =>
  match a with
  | .submitEncrypted _ _ => s.encSeq + 1 < 2 ^ 64
  | .submitDecryptionShare msg => validCompressedPoint X msg.d = true
    ∧ (s.params.dkgEnabled = false → s.encTxs.has (key2 msg.decryptHeight msg.seq) = true)
  | .endBlockDKG => s.currentEpoch + 1 < 2 ^ 64 ∧ s.OpensImportable
  | _ => True

instance (s : State) (ctx : Ctx) : ∀ a, Decidable (ExportSafe X s ctx a)
  | .submitEncrypted _ _ => inferInstanceAs (Decidable (s.encSeq + 1 < 2 ^ 64))
  | .submitDecryptionShare msg => inferInstanceAs (Decidable (validCompressedPoint X msg.d = true
    ∧ (s.params.dkgEnabled = false → s.encTxs.has (key2 msg.decryptHeight msg.seq) = true)))
  | .endBlockDKG => inferInstanceAs (Decidable (s.currentEpoch + 1 < 2 ^ 64 ∧ s.OpensImportable))
  | .updateParams _ | .commitTx _ | .revealTx _ | .dkgDeal _ | .dkgComplaint _
  | .consumeVoteExtensions _ | .ingestDecryptShareFromVE _ _ | .beginBlock _ => isTrue trivial

namespace State

theorem Committees.genesis (hgs : gs.Regular) (h : initGenesis X gs = .ok s) : s.Committees X := by
  have himp := initGenesis_imported h
  refine ⟨(PoolInv.genesis hgs.room h).cover, (RegistryInv.genesis h).1, fun ep r hr => ?_,
    fun ep ak hak => ?_, fun ep hn => ?_, fun hpos => ?_, fun d hd => ?_⟩
  · rw [himp.round] at hr
    obtain ⟨hmem, rfl⟩ := GenesisState.roundOf_spec hr
    obtain ⟨hzero, hvalid⟩ := himp.accepted.round r hmem
    exact ⟨hzero, himp.current ▸ hgs.ordered r hmem, hvalid, hgs.members r hmem⟩
  · rw [himp.key] at hak
    obtain ⟨hmem, rfl⟩ := GenesisState.activeKeyOf_spec hak
    obtain ⟨-, r, hr, hvalid⟩ := himp.accepted.key ak hmem
    obtain ⟨hrmem, hrepoch⟩ := GenesisState.roundOf_spec hr
    exact ⟨r, (himp.round _).trans hr, hgs.keyed ak hmem r hrmem hrepoch, hvalid⟩
  · rw [himp.key]
    obtain ⟨hne, hserves | ⟨tx, htx, rfl⟩⟩ := hn
    · rw [himp.active] at hserves
      subst hserves
      obtain ⟨-, ak, -, -, hak⟩ := himp.accepted.active (Nat.pos_of_ne_zero hne)
      rw [hak]
      rfl
    · obtain ⟨ak, hak⟩ := himp.accepted.tx_key ((himp.tx tx).mp htx) (Nat.pos_of_ne_zero hne)
      rw [hak]
      rfl
  · rw [himp.round, himp.current]
    rw [himp.current] at hpos
    obtain ⟨r, hr⟩ := himp.accepted.current hpos
    rw [hr]
    rfl
  · obtain ⟨r, hr, hvalid⟩ := himp.accepted.dealing d (himp.dealing d hd)
    exact ⟨r, (himp.round _).trans hr, hvalid⟩

theorem Pool.genesis (h : initGenesis X gs = .ok s) : s.Pool X := by
  have himp := initGenesis_imported h
  refine ⟨.genesis h, fun e he => ?_, fun e he => ?_, fun sh hsh _ => ?_⟩
  · rw [himp.encSeq]
    exact himp.accepted.tx_seq e ((himp.tx e).mp he)
  · obtain ⟨i, hcheck⟩ := himp.accepted.tx e ((himp.tx e).mp he)
    simp only [GenesisState.checkEncTx, bind_unit_eq_ok, rejectIf_eq_ok, not_not] at hcheck
    obtain ⟨ha, hnonce, hbody, hburn, -⟩ := hcheck
    exact ⟨by simpa using ha, hnonce, Nat.pos_of_ne_zero hbody, by simpa using hburn⟩
  · obtain ⟨sh', hsh', rfl⟩ := himp.share sh hsh
    obtain ⟨i, hcheck⟩ := himp.accepted.share sh' hsh'
    simp only [GenesisState.checkShare, bind_unit_eq_ok, rejectIf_eq_ok] at hcheck
    obtain ⟨-, hkeyper, hindex, hd⟩ := hcheck
    exact ⟨hkeyper, hindex, by simpa using hd⟩

theorem exportable_writes (hX : EncodesPoints X) {s' : State} (hseq : ¬ w.seq) (hepoch : ¬ w.epoch)
    (hrun : Writes X ctx w s s') (hopens : w.endBlock → s.OpensImportable) (hc : s.Committees X)
    (hp : s.Pool X) : s'.Committees X ∧ s'.Pool X := by
  have hall := Reach.run_keeps
    (I := fun t : State => t.Committees X ∧ t.Pool X ∧ (w.endBlock → t.OpensImportable))
    (fun t t' hwrite ht => ⟨ht.1.write hX hepoch hwrite ht.2.2,
      ht.2.1.write hseq ht.1.counts.params hwrite,
      fun hend => (ht.2.2 hend).write hX hepoch hwrite ht.1⟩) hrun ⟨hc, hp, hopens⟩
  exact ⟨hall.1, hall.2.1⟩

/-- **Every safe action keeps the state exportable.** -/
theorem exportable_step (hX : EncodesPoints X) {a : Action} (hallow : ExportSafe X s ctx a)
    (hc : s.Committees X) (hp : s.Pool X) :
    (s.step X ctx a).Committees X ∧ (s.step X ctx a).Pool X := by
  have hrest : (∀ msg, a ≠ .updateParams msg) → (∀ msg, a ≠ .submitDecryptionShare msg) →
      a ≠ .endBlockDKG → SeqRoom s ctx a → EpochRoom s ctx a →
      (s.step X ctx a).Committees X ∧ (s.step X ctx a).Pool X := fun h1 h2 h3 hseq hepoch =>
    exportable_writes (w := ⟨False, False, False⟩) hX id id
      (step_writes s h1 h2 (.inr hseq) (.inr hepoch) (.inr h3)) (by simp) hc hp
  cases a with
  | updateParams msg =>
    simp only [step]
    cases hres : s.updateParams X ctx msg with
    | error err => exact ⟨hc, hp⟩
    | ok s' =>
      obtain ⟨p, hvalid, rfl, -⟩ := updateParams_spec hres
      refine ⟨hc.congr ?_ (hc.registry.congr rfl rfl) rfl fun _ hn => hn, ?_⟩
      · exact ⟨hvalid, hc.counts.cover, hc.counts.slack, hc.counts.room⟩
      · exact hp.congr ⟨hp.attached.share, hp.attached.marker⟩ rfl (fun _ he => he) fun _ hsh => hsh
  | submitDecryptionShare msg =>
    simp only [step]
    cases hres : s.submitDecryptionShare ctx msg with
    | error err => exact ⟨hc, hp⟩
    | ok s' =>
      obtain ⟨-, hindex, hon, rfl⟩ := submitDecryptionShare_spec hres
      refine ⟨hc.congr (hc.counts.of_pool rfl) (hc.registry.congr rfl rfl) rfl
        fun _ hn => hn, hp.attached.putShare ?_, hp.seq, hp.tx,
        forall_mem_put (fun _ => ⟨msg.keyper.2, hindex, hallow.1⟩) hp.share⟩
      cases hdkg : s.params.dkgEnabled with
      | true => exact hon hdkg
      | false => exact hallow.2 hdkg
  | endBlockDKG =>
    exact exportable_writes (w := ⟨False, False, True⟩) hX id id
      (step_writes s (by simp) (by simp) (.inr trivial) (.inr hallow.1) (.inl trivial))
      (fun _ => hallow.2) hc hp
  | submitEncrypted escrowed msg => exact hrest (by simp) (by simp) (by simp) hallow trivial
  | _ => exact hrest (by simp) (by simp) (by simp) trivial trivial

end State

theorem Chain.Reachable.exportable (hX : EncodesPoints X) (hgs : gs.Regular) {h : Nat} {c : Chain}
    (hreach : Chain.Reachable X (ExportSafe X) gs h c) :
    c.state.Committees X ∧ c.state.Pool X := by
  refine hreach.invariant (I := fun c : Chain => c.state.Committees X ∧ c.state.Pool X) ?_ ?_
  · exact fun s hs => ⟨.genesis hgs hs, .genesis hs⟩
  · exact fun c ctx a _ hallow hc => exportable_step hX hallow hc.1 hc.2

/-! ## The export -/

theorem GenesisState.checkEncKeys_complete {krs : List EncKeyReg}
    {seenKey : List Bytes} (hops : (krs.map EncKeyReg.operator).Nodup)
    (hkeys : (krs.map EncKeyReg.key).Nodup)
    (hall : ∀ kr ∈ krs, kr.operator ≠ [] ∧ validCompressedPoint X kr.key = true
      ∧ kr.operator ∉ seenOp ∧ kr.key ∉ seenKey) :
    GenesisState.checkEncKeys X i seenOp seenKey krs = .ok () := by
  induction krs generalizing i seenOp seenKey with
  | nil => rfl
  | cons kr krs ih =>
    obtain ⟨⟨hop, hkey, hnewOp, hnewKey⟩, hrest⟩ := List.forall_mem_cons.mp hall
    obtain ⟨hopFresh, hops⟩ := List.nodup_cons.mp hops
    obtain ⟨hkeyFresh, hkeys⟩ := List.nodup_cons.mp hkeys
    simp only [GenesisState.checkEncKeys, bind_unit_eq_ok, rejectIf_eq_ok]
    refine ⟨hop, hnewOp, by simp [hkey], hnewKey, ih hops hkeys fun x hx => ?_⟩
    obtain ⟨hxop, hxkey, hxnewOp, hxnewKey⟩ := hrest x hx
    refine ⟨hxop, hxkey, List.not_mem_cons_of_ne_of_not_mem (fun heq => hopFresh ?_) hxnewOp,
      List.not_mem_cons_of_ne_of_not_mem (fun heq => hkeyFresh ?_) hxnewKey⟩
    · exact heq ▸ List.mem_map_of_mem hx
    · exact heq ▸ List.mem_map_of_mem hx

namespace State

theorem roundOf_exportGenesis (s : State) (ep : Nat) :
    s.exportGenesis.roundOf ep = s.rounds.get? ep := rfl

theorem maxSeq_lt (hlt : ∀ e ∈ gs.encTxs, e.seq < gs.encSeq) (hne : 0 < gs.encTxs.length) :
    gs.maxSeq < gs.encSeq := by
  have hpos : 0 < gs.encSeq := by
    obtain ⟨e, he⟩ := List.exists_mem_of_length_pos hne
    exact lt_of_le_of_lt (Nat.zero_le _) (hlt e he)
  refine Reach.foldl_keeps (I := fun m : Nat => m < gs.encSeq) (fun m n hn hm => ?_) hpos
  obtain ⟨e, he, rfl⟩ := List.mem_map.mp hn
  exact max_lt hm (hlt e he)

theorem RegistryInv.checkEncKeys (h : s.RegistryInv X) :
    GenesisState.checkEncKeys X 0 [] [] s.exportGenesis.encKeys = .ok () := by
  have hlookup : ∀ p ∈ s.encPubKeys.entries, s.encPubKeys.lookup p.1 = some p.2 := fun p hp =>
    KVStore.lookup_of_mem _ hp
  refine GenesisState.checkEncKeys_complete ?_ ?_ fun kr hkr => ?_
  · have hkeys : (s.encPubKeys.entries.map Prod.fst).Nodup := nodup_keys _
    show ((s.encPubKeys.entries.map _).map _).Nodup
    rw [List.map_map]
    exact hkeys
  · show ((s.encPubKeys.entries.map _).map _).Nodup
    rw [List.map_map]
    refine List.Nodup.map_on (fun p hp q hq hkey => ?_) (nodup_entries _)
    have hkey : p.2 = q.2 := hkey
    -- the reverse index gives every key one operator
    have hop : p.1 = q.1 := h.paired.injective (hlookup p hp) (hkey ▸ hlookup q hq)
    exact Prod.ext hop hkey
  · obtain ⟨p, hp, rfl⟩ := List.mem_map.mp hkr
    exact ⟨h.operator _ _ (hlookup p hp), h.key _ _ (hlookup p hp), List.not_mem_nil,
      List.not_mem_nil⟩

/-- What the import checks of rounds, keys, dealings and references is what the invariants keep. -/
theorem Committees.validateDkgImportState (hc : s.Committees X) (hp : s.Pool X) :
    s.exportGenesis.validateDkgImportState X = .ok () := by
  have hget : ∀ r ∈ s.rounds.entries, s.rounds.get? r.epoch = some r := fun r hr =>
    (mem_entries_iff _ _).mp hr
  have hkey : ∀ ak ∈ s.activeKeys.entries, s.activeKeys.get? ak.epoch = some ak := fun ak hak =>
    (mem_entries_iff _ _).mp hak
  simp only [GenesisState.validateDkgImportState, bind_unit_eq_ok, rejectIf_eq_ok]
  refine ⟨?_, ?_, ?_, ?_, ?_, ?_, ?_, ?_, hc.registry.checkEncKeys⟩
  · refine checkDistinct_complete (nodup_keys _) (fun _ _ => List.not_mem_nil)
      fun r hr j => ?_
    obtain ⟨hzero, -, hvalid, -⟩ := hc.round _ _ (hget r hr)
    exact ⟨rejectIf_eq_ok.mpr hzero, hvalid⟩
  · refine checkDistinct_complete (nodup_keys _) (fun _ _ => List.not_mem_nil)
      fun ak hak j => ?_
    obtain ⟨r, hr, -, hvalid⟩ := hc.key _ _ (hkey ak hak)
    obtain ⟨hzero, -⟩ := hc.round _ _ hr
    refine ⟨rejectIf_eq_ok.mpr hzero, ?_⟩
    rw [roundOf_exportGenesis, hr]
    exact hvalid
  · rintro ⟨hpos, hnone⟩
    have hsome := hc.current hpos
    rw [roundOf_exportGenesis, Option.isNone_iff_eq_none] at hnone
    exact absurd ((congrArg Option.isSome hnone).symm.trans hsome) (by decide)
  · unfold GenesisState.checkActiveEpoch
    by_cases hzero : s.activeEpoch = 0
    · exact if_pos hzero
    · obtain ⟨ak, hak⟩ := Option.isSome_iff_exists.mp (hc.needed _ ⟨hzero, .inl rfl⟩)
      obtain ⟨r, hr, hactive, -⟩ := hc.key _ _ hak
      have hround : s.exportGenesis.roundOf s.exportGenesis.activeEpoch = some r := hr
      have hserves : s.exportGenesis.activeKeyOf s.exportGenesis.activeEpoch = some ak := hak
      refine (if_neg hzero).trans ?_
      rw [hround]
      simp only [hserves, bind_unit_eq_ok, rejectIf_eq_ok, not_not]
      exact ⟨hactive, by simp⟩
  · refine checkAll_complete fun d hd j => ?_
    obtain ⟨r, hr, hvalid⟩ := hc.dealing d hd
    unfold GenesisState.checkDealing
    rw [roundOf_exportGenesis, hr]
    exact hvalid
  · exact checkDistinct_complete (nodup_keys _) (fun _ _ => List.not_mem_nil)
      fun _ _ _ => ⟨rfl, rfl⟩
  · rintro ⟨hne, hle⟩
    have hlt : s.exportGenesis.maxSeq < s.exportGenesis.encSeq := maxSeq_lt hp.seq hne
    exact absurd hlt (Nat.not_lt.mpr hle)
  · refine checkDistinct_complete (nodup_keys _) (fun _ _ => List.not_mem_nil)
      fun sh hsh j => ⟨rfl, ?_⟩
    obtain ⟨e, he⟩ := has_iff.mp (hp.attached.share sh hsh)
    rw [rejectIf_eq_ok, not_not, ← key_of_get? he]
    exact List.mem_map_of_mem (mem_of_get? he)

theorem Committees.validate_exportGenesis (hc : s.Committees X) (hp : s.Pool X)
    (hunverified : ∀ sh ∈ s.encShares.entries, sh.verified = false) :
    s.exportGenesis.validate X = .ok () := by
  simp only [GenesisState.validate, bind_unit_eq_ok]
  refine ⟨hc.counts.params, hc.validateDkgImportState hp, ?_, ?_⟩
  · refine checkAll_complete fun sh hsh j => ?_
    have hverified := hunverified sh hsh
    obtain ⟨hkeyper, hindex, hd⟩ := hp.share sh hsh hverified
    simp only [GenesisState.checkShare, bind_unit_eq_ok, rejectIf_eq_ok]
    exact ⟨by simp [hverified], hkeyper, hindex, by simp [hd]⟩
  · refine checkAll_complete fun e he j => ?_
    obtain ⟨ha, hnonce, hbody, hburn⟩ := hp.tx e he
    have hmaterial : 0 < e.epoch → (s.rounds.get? e.epoch).isNone = false
        ∧ (s.activeKeys.get? e.epoch).isNone = false := by
      intro hpos
      obtain ⟨ak, hak⟩ := Option.isSome_iff_exists.mp
        (hc.needed e.epoch ⟨Nat.ne_of_gt hpos, .inr ⟨e, he, rfl⟩⟩)
      obtain ⟨r, hr, -⟩ := hc.key _ _ hak
      rw [hr, hak]
      exact ⟨rfl, rfl⟩
    simp only [GenesisState.checkEncTx, bind_unit_eq_ok, rejectIf_eq_ok, not_and, not_not, not_lt,
      Bool.not_eq_true, Bool.not_eq_false]
    exact ⟨ha, hnonce, Nat.ne_of_gt hbody, hburn, fun hpos => (hmaterial hpos).1,
      fun hpos => (hmaterial hpos).2⟩

end State

/-- **An exported genesis is importable.** From a regular genesis, in every state reached by safe
actions, the exported genesis passes the validation, and its import succeeds, exactly when no stored
share was verified on chain. -/
theorem exportGenesis_importable (hX : EncodesPoints X) {gs : GenesisState} (hgs : gs.Regular)
    {h : Nat} {c : Chain} (hreach : Chain.Reachable X (ExportSafe X) gs h c) :
    (c.state.exportGenesis.validate X = .ok ()
      ↔ ∀ sh ∈ c.state.encShares.entries, sh.verified = false)
    ∧ ((∀ sh ∈ c.state.encShares.entries, sh.verified = false) →
      ∃ s', initGenesis X c.state.exportGenesis = .ok s') := by
  obtain ⟨hc, hp⟩ := hreach.exportable hX hgs
  refine ⟨⟨fun hvalid sh hsh => ?_, hc.validate_exportGenesis hp⟩, fun hunverified => ?_⟩
  · obtain ⟨i, hcheck⟩ := (GenesisState.validate_spec hvalid).share sh hsh
    simp only [GenesisState.checkShare, bind_unit_eq_ok, rejectIf_eq_ok] at hcheck
    exact Bool.not_eq_true _ ▸ hcheck.1
  · refine ⟨c.state.exportGenesis.encTxs.foldl importEncTx
      (importRecords c.state.exportGenesis), ?_⟩
    exact bind_unit_eq_ok.mpr ⟨hc.validate_exportGenesis hp hunverified, rfl⟩

namespace Sample

/-- The crew's chain with the loose threshold. -/
def looseCrew : GenesisState :=
  { crewGenesis with params := { crewGenesis.params with dkgStrictConcentration := false } }

theorem looseCrew_regular : looseCrew.Regular :=
  ⟨by decide, by decide, by decide, by decide +kernel⟩

theorem crewPrimitives_encodesPoints : EncodesPoints crewPrimitives :=
  .ofTables (by decide +kernel) (by decide +kernel)

/-- The sample committee on the transparent path, with one ciphertext in flight. -/
def transparentGenesis : GenesisState :=
  let gs := dkgGenesis 1 1 1 [round 1 .active] [key 1] [dealing 1]
  { gs with params := { gs.params with dkgTransparent := true } }

/-- The member's extension with its decryption share. -/
def shareEntry : VEEntry :=
  { operator := operator
    ve := { encPubKey := [], encPubKeyPoP := [], dealing := none, shares := [voteShare]
            complaints := [], poisonReports := [] } }

end Sample

open Sample

/-- The first weighted round of the crew is exported and imported under the loose threshold. -/
theorem exportGenesis_importable_crew : ∃ c,
    Chain.Reachable crewPrimitives (ExportSafe crewPrimitives) looseCrew 9 c
      ∧ (∃ r ∈ c.state.rounds.get? 2, r.members.any RoundMember.weighted = true)
      ∧ c.state.exportGenesis.validate crewPrimitives = .ok () := by
  obtain ⟨c, hreach, hround, hshares⟩ : ∃ c,
      Chain.Reachable crewPrimitives (ExportSafe crewPrimitives) looseCrew 9 c
      ∧ (∃ r ∈ c.state.rounds.get? 2, r.members.any RoundMember.weighted = true)
      ∧ ∀ sh ∈ c.state.encShares.entries, sh.verified = false :=
    Chain.exists_reachable [(crewBlock 10 (by decide), .endBlockDKG)] (by decide +kernel)
  exact ⟨c, hreach, hround, (exportGenesis_importable crewPrimitives_encodesPoints
    looseCrew_regular hreach).1.mpr hshares⟩

/-- The import refuses the export of a chain that opened a weighted round under the strict
threshold, and of a chain that stored the share of a vote extension. -/
theorem exportGenesis_refused :
    (∃ c, Chain.Reachable crewPrimitives (fun _ _ _ => True) crewGenesis 9 c
      ∧ c.state.encShares.entries = []
      ∧ (c.state.exportGenesis.validate crewPrimitives).isOk = false)
    ∧ ∃ c, Chain.Reachable dkgPrimitives (fun _ _ _ => True) transparentGenesis 99 c
      ∧ voteShare.verifiedBy operator ∈ c.state.encShares.entries
      ∧ (c.state.exportGenesis.validate dkgPrimitives).isOk = false :=
  ⟨Chain.exists_reachable [(crewBlock 10 (by decide), .endBlockDKG)] (by decide +kernel),
   Chain.exists_reachable
    [(block 100 (by decide), .consumeVoteExtensions [shareEntry])]
    (by decide +kernel)⟩

end EncMempool
