import Limonata.EncMempool.ShareKeys
import Limonata.EncMempool.Recovery

/-!
# x/encmempool — coverage of the share-key cache

The share keys of an epoch are computed in chunks: the first one when its key is installed, the rest
by `EndBlockDKG`, which spends one chunk per block over all epochs that have a cursor. This module
proves that nothing falls between the two: under every installed key an index is cached with its
share key or at or above the cursor of its epoch, and the block handler works the cursors off at the
rate of one chunk per block.

An imported key is the exception. `InitGenesis` stores it with neither cache nor cursor, so none of
its indices is ever scheduled.
-/

namespace EncMempool

open Machine RecStore KVStore

variable {X : External} {ctx : Ctx} {w : Wraps}

/-! ## Warming a range -/

variable {comm : List X.Point}

theorem sharePubKey_isSome (hne : comm ≠ []) (index : Nat) :
    ∃ Y, sharePubKey X index comm = some Y := by
  cases comm with
  | nil => exact absurd rfl hne
  | cons c cs =>
    rw [sharePubKey]
    split <;> exact ⟨_, rfl⟩

theorem compressedShareKeys_length {index count : Nat} {ys : List Bytes}
    (h : compressedShareKeys X comm index count = some ys) : ys.length = count := by
  induction count generalizing index ys with
  | zero =>
    cases h
    rfl
  | succ count ih =>
    obtain ⟨Y, -, h⟩ := Option.bind_eq_some_iff.mp h
    obtain ⟨zs, hzs, rfl⟩ := Option.map_eq_some_iff.mp h
    rw [List.length_cons, ih hzs]

theorem compressedShareKeys_isSome (hne : comm ≠ []) (index count : Nat) :
    ∃ ys, compressedShareKeys X comm index count = some ys := by
  induction count generalizing index with
  | zero => exact ⟨[], rfl⟩
  | succ count ih =>
    obtain ⟨Y, hY⟩ := sharePubKey_isSome hne index
    obtain ⟨ys, hys⟩ := ih (index + 1)
    exact ⟨X.serializeCompressed Y :: ys, by rw [compressedShareKeys, hY, Option.bind_some, hys]; rfl⟩

/-- Commitments that have a share key at every index. -/
def HasShareKeys (X : External) (publicCommitments : List Bytes) : Prop :=
  ∃ comm, parseCommitmentPoints X publicCommitments = some comm ∧ comm ≠ []

variable {s s' : State} {c h ep : Nat} {round : DkgRound}

namespace State

/-- Warming a range caches every share key of the range and nothing else. -/
theorem warmShareKeyRange_lookup (s : State) (epoch : Nat) {publicCommitments : List Bytes}
    (hkeys : HasShareKeys X publicCommitments) {start : Nat} (stop : Nat) (hstart : 1 ≤ start) :
    ∃ sk, s.warmShareKeyRange X epoch publicCommitments start stop = { s with shareKeys := sk }
      ∧ (∀ i, start ≤ i → i ≤ stop →
        ∃ y, sk.lookup (key2 epoch i) = some y ∧ IsShareKey X publicCommitments i y)
      ∧ ∀ e i, ¬ (e = epoch ∧ start ≤ i ∧ i ≤ stop) →
        sk.lookup (key2 e i) = s.shareKeys.lookup (key2 e i) := by
  obtain ⟨comm, hparse, hne⟩ := hkeys
  obtain ⟨ys, hys⟩ := compressedShareKeys_isSome hne start (stop + 1 - start)
  have hlen := compressedShareKeys_length hys
  have hrange : shareKeysCompressedRange X publicCommitments start stop = some ys := by
    rw [shareKeysCompressedRange, hparse, Option.bind_some, Nat.max_eq_left hstart, hys]
  refine ⟨(s.setShareKeys epoch start ys).shareKeys, ?_, fun i hlow hhigh => ?_, fun e i hout => ?_⟩
  · rw [warmShareKeyRange, hrange]
    exact setShareKeys_eq ys s epoch start
  · have hin : i - start < ys.length := by omega
    have hy := List.getElem?_eq_getElem hin
    obtain ⟨Y, hY, heq⟩ := compressedShareKeys_getElem? hys hy
    rw [show start + (i - start) = i by omega] at hY
    exact ⟨_, by rw [setShareKeys_lookup, if_pos (by omega), hy], comm, Y, hparse, hY, heq⟩
  · rw [setShareKeys_lookup, if_neg (by omega)]

theorem setShareKeys_count (ys : List Bytes) (s : State) (epoch index : Nat)
    (p : Key2 × Bytes → Bool) :
    (s.setShareKeys epoch index ys).shareKeys.count p ≤ s.shareKeys.count p + ys.length := by
  induction ys generalizing s index with
  | nil => exact le_rfl
  | cons y ys ih =>
    rw [setShareKeys, List.length_cons]
    refine (ih _ _).trans ?_
    have hput : (s.shareKeys.assign (key2 epoch index) y).count p ≤ s.shareKeys.count p + 1 := by
      have hdel := s.shareKeys.count_del_le (key2 epoch index, y).1 p
      show RecStore.count (s.shareKeys.put (key2 epoch index, y)) p ≤ _
      rw [count_put]
      split_ifs <;> omega
    show RecStore.count (s.shareKeys.assign (key2 epoch index) y) p + ys.length ≤ _
    omega

theorem warmShareKeyRange_count (s : State) (epoch : Nat) (publicCommitments : List Bytes)
    {start : Nat} (stop : Nat) (hstart : 1 ≤ start) (p : Key2 × Bytes → Bool) :
    (s.warmShareKeyRange X epoch publicCommitments start stop).shareKeys.count p
      ≤ s.shareKeys.count p + (stop + 1 - start) := by
  unfold warmShareKeyRange
  cases hrange : shareKeysCompressedRange X publicCommitments start stop with
  | none => exact Nat.le_add_right _ _
  | some ys =>
    obtain ⟨comm, -, hys⟩ := Option.bind_eq_some_iff.mp hrange
    rw [Nat.max_eq_left hstart] at hys
    rw [← compressedShareKeys_length hys]
    exact setShareKeys_count ys s epoch start p

/-! ## Coverage -/

/-- The evaluation points of the round of an epoch. -/
def pointsOf (s : State) (ep : Nat) : Nat :=
  match s.rounds.get? ep with
  | some round => totalEvalPoints round.members
  | none => 0

/-- Where the epoch of an installed key stands: its round is active, its commitments have share
keys, and every index below the cursor is cached. -/
structure KeyCover (X : External) (s : State) (ep : Nat) (ak : ActiveThresholdKey) : Prop where
  settled : ep ≤ s.currentEpoch
  round : ∃ round, s.rounds.get? ep = some round ∧ round.status = .active
  keys : HasShareKeys X ak.publicCommitments
  warm : ∀ i, 1 ≤ i → i ≤ s.pointsOf ep → (∀ c, s.shareKeyCursors.lookup ep = some c → i < c) →
    ∃ y, s.shareKeys.lookup (key2 ep i) = some y ∧ IsShareKey X ak.publicCommitments i y

/-- The cache is covered: what the cursors have passed is cached, and what is cached or scheduled
belongs to an installed key. -/
structure Covered (X : External) (s : State) : Prop where
  cover : ∀ ep ak, s.activeKeys.get? ep = some ak → s.KeyCover X ep ak
  pending : ∀ ep c, s.shareKeyCursors.lookup ep = some c →
    1 ≤ c ∧ c ≤ s.pointsOf ep ∧ (s.activeKeys.get? ep).isSome = true
  cold : ∀ ep c i, s.shareKeyCursors.lookup ep = some c → c ≤ i →
    s.shareKeys.lookup (key2 ep i) = none
  owned : ∀ ep i, (s.shareKeys.lookup (key2 ep i)).isSome = true →
    (s.activeKeys.get? ep).isSome = true

theorem Covered.untouched (h : s.Covered X) (hnone : s.activeKeys.get? ep = none) :
    s.shareKeyCursors.lookup ep = none ∧ ∀ i, s.shareKeys.lookup (key2 ep i) = none := by
  refine ⟨?_, fun i => ?_⟩
  · cases hc : s.shareKeyCursors.lookup ep with
    | none => rfl
    | some c => simpa [hnone] using (h.pending ep c hc).2.2
  · cases hy : s.shareKeys.lookup (key2 ep i) with
    | none => rfl
    | some y => simpa [hnone] using h.owned ep i (by rw [hy]; rfl)

theorem Covered.no_key (h : s.Covered X)
    (hlast : s.lastRound = some round) (hstatus : round.status ≠ .active) :
    s.activeKeys.get? s.currentEpoch = none := by
  cases hak : s.activeKeys.get? s.currentEpoch with
  | none => rfl
  | some ak =>
    obtain ⟨r, hr, hactive⟩ := (h.cover _ ak hak).round
    obtain ⟨hget, hcur, -⟩ := get?_of_lastRound hlast
    rw [hcur, hr] at hget
    cases hget
    exact absurd hactive hstatus

theorem Covered.rounds (h : s.Covered X)
    (hrounds : ∀ ep, (s.activeKeys.get? ep).isSome = true → s'.rounds.get? ep = s.rounds.get? ep)
    (hcurrent : s.currentEpoch ≤ s'.currentEpoch) (hkeys : s'.activeKeys = s.activeKeys)
    (hshareKeys : s'.shareKeys = s.shareKeys)
    (hcursors : s'.shareKeyCursors = s.shareKeyCursors) : s'.Covered X := by
  have hpoints : ∀ ep, (s.activeKeys.get? ep).isSome = true → s'.pointsOf ep = s.pointsOf ep :=
    fun ep hep => by
      unfold pointsOf
      rw [hrounds ep hep]
  refine ⟨fun ep ak hak => ?_, ?_, ?_, ?_⟩
  · rw [hkeys] at hak
    have hsome : (s.activeKeys.get? ep).isSome = true := by rw [hak]; rfl
    obtain ⟨hsettled, hround, hcomm, hwarm⟩ := h.cover ep ak hak
    refine ⟨hsettled.trans hcurrent, by rwa [hrounds ep hsome], hcomm, ?_⟩
    rwa [hpoints ep hsome, hshareKeys, hcursors]
  · rw [hcursors, hkeys]
    intro ep c hc
    rw [hpoints ep (h.pending ep c hc).2.2]
    exact h.pending ep c hc
  · rw [hcursors, hshareKeys]
    exact h.cold
  · rw [hshareKeys, hkeys]
    exact h.owned

theorem Covered.congr (h : s.Covered X) (hrounds : s'.rounds = s.rounds)
    (hkeys : s'.activeKeys = s.activeKeys) (hcurrent : s'.currentEpoch = s.currentEpoch)
    (hshareKeys : s'.shareKeys = s.shareKeys)
    (hcursors : s'.shareKeyCursors = s.shareKeyCursors) : s'.Covered X :=
  h.rounds (fun ep _ => by rw [hrounds]) hcurrent.ge hkeys hshareKeys hcursors

/-- Where only the records of one epoch change, only that epoch is to be looked at. -/
theorem Covered.of_epoch (h : s.Covered X) (ep : Nat) (hcurrent : s'.currentEpoch = s.currentEpoch)
    (hrounds : ∀ e ≠ ep, s'.rounds.get? e = s.rounds.get? e)
    (hkeys : ∀ e ≠ ep, s'.activeKeys.get? e = s.activeKeys.get? e)
    (hcursors : ∀ e ≠ ep, s'.shareKeyCursors.lookup e = s.shareKeyCursors.lookup e)
    (hcache : ∀ e ≠ ep, ∀ i, s'.shareKeys.lookup (key2 e i) = s.shareKeys.lookup (key2 e i))
    (hcover : ∀ ak, s'.activeKeys.get? ep = some ak → s'.KeyCover X ep ak)
    (hpending : ∀ c, s'.shareKeyCursors.lookup ep = some c → 1 ≤ c ∧ c ≤ s'.pointsOf ep
      ∧ (s'.activeKeys.get? ep).isSome = true ∧ ∀ i, c ≤ i → s'.shareKeys.lookup (key2 ep i) = none)
    (howned : ∀ i, (s'.shareKeys.lookup (key2 ep i)).isSome = true →
      (s'.activeKeys.get? ep).isSome = true) : s'.Covered X := by
  have hpoints : ∀ e ≠ ep, s'.pointsOf e = s.pointsOf e := fun e hne => by
    unfold pointsOf
    rw [hrounds e hne]
  refine ⟨fun e ak hak => ?_, fun e c hc => ?_, fun e c i hc hle => ?_, fun e i hi => ?_⟩
  all_goals obtain rfl | hne := eq_or_ne e ep
  · exact hcover ak hak
  · rw [hkeys e hne] at hak
    obtain ⟨hsettled, hround, hcomm, hwarm⟩ := h.cover e ak hak
    refine ⟨hcurrent ▸ hsettled, by rwa [hrounds e hne], hcomm, fun i hlow hhigh hbelow => ?_⟩
    rw [hpoints e hne] at hhigh
    rw [hcursors e hne] at hbelow
    rw [hcache e hne]
    exact hwarm i hlow hhigh hbelow
  · obtain ⟨hpos, hle, hsome, -⟩ := hpending c hc
    exact ⟨hpos, hle, hsome⟩
  · rw [hcursors e hne] at hc
    rw [hpoints e hne, hkeys e hne]
    exact h.pending e c hc
  · exact (hpending c hc).2.2.2 i hle
  · rw [hcursors e hne] at hc
    rw [hcache e hne]
    exact h.cold e c i hc hle
  · exact howned i hi
  · rw [hcache e hne] at hi
    rw [hkeys e hne]
    exact h.owned e i hi

theorem Covered.maybePrune (h : s.Covered X) (a : Nat) : (s.maybePruneEpoch a).Covered X := by
  obtain ⟨heq, -⟩ | ⟨-, -, -, -, heq⟩ := s.maybePruneEpoch_cases a
  · rw [heq]
    exact h
  rw [heq]
  refine h.of_epoch a rfl (fun e hne => ?_) (fun e hne => ?_) (fun e hne => ?_) (fun e hne i => ?_)
    (fun ak hak => ?_) (fun c hc => ?_) (fun i hi => ?_)
  · exact get?_del_of_ne hne
  · exact get?_del_of_ne hne
  · exact (lookup_del _ _ _).trans (if_neg hne)
  · exact (lookup_delWhere _ _ _).trans (if_neg (by simp [hne]))
  -- nothing of the pruned epoch is left
  · simp at hak
  · simp [lookup_del] at hc
  · simp [lookup_delWhere] at hi

/-! ## One epoch's advance -/

/-- The cursor after `n` more indices of an epoch with `S` points: gone once the last one is done. -/
def movedCursor (cursors : KVStore Nat Nat) (ep S next : Nat) : KVStore Nat Nat :=
  if S < next then cursors.del ep else cursors.assign ep next

theorem lookup_movedCursor (cursors : KVStore Nat Nat) (ep S next e : Nat) :
    (movedCursor cursors ep S next).lookup e
      = if e = ep then (if S < next then none else some next) else cursors.lookup e := by
  unfold movedCursor
  by_cases hdone : S < next
  · rw [if_pos hdone, lookup_del]
    simp [hdone]
  · rw [if_neg hdone, lookup_assign]
    simp [hdone]

/-- What the advance of a pending epoch does: it warms the next indices from the cursor on, as many
as the budget and the points of the epoch allow, and moves the cursor past them. -/
theorem Covered.advance_eq (h : s.Covered X) (budget : Nat)
    (hc : s.shareKeyCursors.lookup ep = some c) (hbudget : 0 < budget) :
    ∃ ak sk, s.activeKeys.get? ep = some ak
      ∧ s.advanceEpochPrecompute X ep budget
        = ({ s with
            shareKeys := sk
            shareKeyCursors := movedCursor s.shareKeyCursors ep (s.pointsOf ep)
              (c + min budget (s.pointsOf ep + 1 - c)) }, min budget (s.pointsOf ep + 1 - c))
      ∧ (∀ i, c ≤ i → i < c + min budget (s.pointsOf ep + 1 - c) →
        ∃ y, sk.lookup (key2 ep i) = some y ∧ IsShareKey X ak.publicCommitments i y)
      ∧ ∀ e i, ¬ (e = ep ∧ c ≤ i ∧ i < c + min budget (s.pointsOf ep + 1 - c)) →
        sk.lookup (key2 e i) = s.shareKeys.lookup (key2 e i) := by
  obtain ⟨hpos, hle, hsome⟩ := h.pending ep c hc
  obtain ⟨ak, hak⟩ := Option.isSome_iff_exists.mp hsome
  obtain ⟨-, ⟨round, hround, -⟩, hkeys, -⟩ := h.cover ep ak hak
  have hS : s.pointsOf ep = totalEvalPoints round.members := by
    unfold pointsOf
    rw [hround]
  -- the inclusive end of the code's range
  have hstop : min (c + budget - 1) (s.pointsOf ep) + 1 = c + min budget (s.pointsOf ep + 1 - c) := by
    omega
  generalize hn : min (c + budget - 1) (s.pointsOf ep) = stop at hstop
  obtain ⟨sk, hsk, hin, hout⟩ := s.warmShareKeyRange_lookup ep hkeys stop hpos
  refine ⟨ak, sk, hak, ?_, fun i hlow hhigh => hin i hlow (by omega), fun e i hne =>
    hout e i (by omega)⟩
  unfold advanceEpochPrecompute
  simp only [hc, Option.getD_some, hak, hround]
  rw [if_neg (by omega), ← hS, if_neg (by omega), hn, hsk, ← hstop]
  unfold movedCursor
  congr 1
  · by_cases hdone : s.pointsOf ep ≤ stop
    · rw [if_pos hdone, if_pos (by omega)]
      rfl
    · rw [if_neg hdone, if_neg (by omega)]
  · omega

theorem Covered.advance (h : s.Covered X) (ep : Nat) {budget : Nat}
    (hbudget : 0 < budget) : (s.advanceEpochPrecompute X ep budget).1.Covered X := by
  cases hc : s.shareKeyCursors.lookup ep with
  | none =>
    unfold advanceEpochPrecompute
    simp only [hc, Option.getD_none, if_pos]
    exact h
  | some c =>
    obtain ⟨ak, sk, hak, heq, hin, hout⟩ := h.advance_eq budget hc hbudget
    obtain ⟨hpos, hle, hsome⟩ := h.pending ep c hc
    rw [heq]
    generalize min budget (s.pointsOf ep + 1 - c) = n at hin hout
    refine h.of_epoch ep rfl (fun _ _ => rfl) (fun _ _ => rfl) (fun e hne => ?_) (fun e hne i => ?_)
      (fun ak' hak' => ?_) (fun c' hc' => ?_) (fun i hi => hsome)
    · exact (lookup_movedCursor _ _ _ _ _).trans (if_neg hne)
    · exact hout e i fun hnew => hne hnew.1
    · obtain ⟨hsettled, hround, hkeys, hwarm⟩ := h.cover ep ak' hak'
      refine ⟨hsettled, hround, hkeys, fun i hlow hhigh hbelow => ?_⟩
      simp only [lookup_movedCursor, if_true] at hbelow
      by_cases hnew : ep = ep ∧ c ≤ i ∧ i < c + n
      · cases hak.symm.trans hak'
        exact hin i hnew.2.1 hnew.2.2
      · show ∃ y, sk.lookup (key2 ep i) = some y ∧ _
        rw [hout ep i hnew]
        refine hwarm i hlow hhigh fun c' hc' => ?_
        cases hc.symm.trans hc'
        by_contra hge
        have hpast : ¬ s.pointsOf ep < c + n := by
          have : i ≤ s.pointsOf ep := hhigh
          omega
        have := hbelow (c + n) (if_neg hpast)
        omega
    · simp only [lookup_movedCursor, if_true] at hc'
      split_ifs at hc' with hdone
      cases hc'
      refine ⟨by omega, Nat.not_lt.mp hdone, hsome, fun i hle' => ?_⟩
      exact (hout ep i (by omega)).trans (h.cold ep c i hc (by omega))

/-! ## Installing a key -/

end State

theorem parseCommitmentPoints_of_valid {cs : List Bytes}
    (hvalid : cs.all (validCompressedPoint X) = true) :
    ∃ comm, parseCommitmentPoints X cs = some comm ∧ comm.length = cs.length := by
  induction cs with
  | nil => exact ⟨[], rfl, rfl⟩
  | cons c cs ih =>
    rw [List.all_cons, Bool.and_eq_true] at hvalid
    obtain ⟨P, hP⟩ := Option.isSome_iff_exists.mp hvalid.1
    obtain ⟨comm, hcomm, hlen⟩ := ih hvalid.2
    exact ⟨P :: comm, by rw [parseCommitmentPoints, hP, Option.bind_some, hcomm]; rfl, by simp [hlen]⟩

theorem aggregateCommitments_length {vs : List (List X.Point)} {V : List X.Point} {n : Nat}
    (h : aggregateCommitments X vs = some V) (hlen : ∀ v ∈ vs, v.length = n) : V.length = n := by
  cases vs with
  | nil => cases h
  | cons v vs =>
    cases h
    refine Reach.foldl_keeps (I := fun acc : List X.Point => acc.length = n) ?_
      (hlen v List.mem_cons_self)
    intro acc u hu hacc
    rw [List.length_zipWith, hacc, hlen u (List.mem_cons_of_mem _ hu), Nat.min_self]

variable {res : PublicResult}

theorem finalizePublicWeighted_length {members : List Nat} {degree : Nat}
    {dealings : List PublicDealing} {disqualified : List Nat} {weightOf : Nat → Nat}
    {minQualWeight : Nat}
    (h : finalizePublicWeighted X members degree dealings disqualified weightOf minQualWeight
      = .ok res) : 1 ≤ degree ∧ res.publicCommitments.length = degree ∧ res.qual ≠ [] := by
  have hdegree : 1 ≤ degree := by
    unfold finalizePublicWeighted at h
    split_ifs at h with hlt
    exact Nat.not_lt.mp hlt
  obtain ⟨-, -, V, hV, hcomm, -, -⟩ := finalizePublicWeighted_spec h
  refine ⟨hdegree, ?_, fun hnil => ?_⟩
  · rw [hcomm, List.length_map]
    refine aggregateCommitments_length hV fun v hv => ?_
    obtain ⟨q, -, hq⟩ := List.mem_filterMap.mp hv
    obtain ⟨d, -, -, hd, hparse⟩ := exists_of_dealingPoints hq
    exact (parseCommitmentPoints_length hparse).trans hd
  · rw [hnil] at hV
    cases hV

theorem finalizePublicWeighted_hasShareKeys {members : List Nat} {degree : Nat}
    {dealings : List PublicDealing} {disqualified : List Nat} {weightOf : Nat → Nat}
    {minQualWeight : Nat}
    (h : finalizePublicWeighted X members degree dealings disqualified weightOf minQualWeight
      = .ok res) : HasShareKeys X res.publicCommitments := by
  obtain ⟨hdegree, hlen, -⟩ := finalizePublicWeighted_length h
  obtain ⟨-, -, V, -, -, -, hvalid⟩ := finalizePublicWeighted_spec h
  obtain ⟨comm, hparse, hcommlen⟩ := parseCommitmentPoints_of_valid hvalid
  refine ⟨comm, hparse, fun hnil => ?_⟩
  rw [hlen, hnil, List.length_nil] at hcommlen
  omega

variable {members : List RoundMember} {hash : Bytes} {p : Params}

namespace State

theorem precomputeShareKeys_lookup (s : State) (ep S : Nat) {publicCommitments : List Bytes}
    (hkeys : HasShareKeys X publicCommitments) :
    ∃ sk, s.precomputeShareKeys X ep publicCommitments S
        = { s with
            shareKeys := sk
            shareKeyCursors := if precomputeChunkSize < S
              then s.shareKeyCursors.assign ep (precomputeChunkSize + 1) else s.shareKeyCursors }
      ∧ (∀ i, 1 ≤ i → i ≤ min S precomputeChunkSize →
        ∃ y, sk.lookup (key2 ep i) = some y ∧ IsShareKey X publicCommitments i y)
      ∧ ∀ e i, ¬ (e = ep ∧ 1 ≤ i ∧ i ≤ min S precomputeChunkSize) →
        sk.lookup (key2 e i) = s.shareKeys.lookup (key2 e i) := by
  unfold precomputeShareKeys
  by_cases hzero : S = 0
  · subst hzero
    exact ⟨s.shareKeys, rfl, fun i hlow hhigh => by omega, fun _ _ _ => rfl⟩
  rw [if_neg hzero]
  obtain ⟨sk, hsk, hin, hout⟩ :=
    s.warmShareKeyRange_lookup ep hkeys (min S precomputeChunkSize) le_rfl
  refine ⟨sk, ?_, hin, hout⟩
  simp only [hsk]
  by_cases hmore : precomputeChunkSize < S
  · rw [if_pos hmore, if_pos (by omega), Nat.min_eq_right hmore.le]
  · rw [if_neg hmore, if_neg (by omega)]

theorem Covered.activate (h : s.Covered X)
    {sk : KVStore Key2 Bytes} {cu : KVStore Nat Nat} (hlast : s.lastRound = some round)
    (hopen : round.status = .isOpen) (hkeys : HasShareKeys X res.publicCommitments)
    (hwarm : { s with activeKeys := s.activeKeys.put (installedKey round res) }.precomputeShareKeys
        X round.epoch res.publicCommitments (totalEvalPoints round.members)
      = { s with
          activeKeys := s.activeKeys.put (installedKey round res)
          shareKeys := sk
          shareKeyCursors := cu }) :
    Covered X { s with
      activeKeys := s.activeKeys.put (installedKey round res)
      shareKeys := sk
      shareKeyCursors := cu
      activeEpoch := round.epoch
      rounds := s.rounds.put { round with status := .active } } := by
  obtain ⟨hget, hcur, -⟩ := get?_of_lastRound hlast
  obtain ⟨hnocursor, hnoentry⟩ := h.untouched (h.no_key hlast (by rw [hopen]; decide))
  rw [← hcur] at hnocursor hnoentry
  obtain ⟨sk', heq, hin, hout⟩ := { s with
    activeKeys := s.activeKeys.put (installedKey round res) }.precomputeShareKeys_lookup
      round.epoch (totalEvalPoints round.members) hkeys
  rw [hwarm] at heq
  obtain rfl : sk = sk' := congrArg State.shareKeys heq
  obtain rfl : cu = _ := congrArg State.shareKeyCursors heq
  have hround : (s.rounds.put { round with status := .active }).get? round.epoch
      = some { round with status := .active } := get?_put_self s.rounds _
  have hkey : (s.activeKeys.put (installedKey round res)).get? round.epoch
      = some (installedKey round res) := get?_put_self s.activeKeys _
  have hchunk : 0 < precomputeChunkSize := by decide
  refine h.of_epoch round.epoch rfl (fun e hne => ?_) (fun e hne => ?_) (fun e hne => ?_)
    (fun e hne i => ?_) (fun ak hak => ?_) (fun c hc => ?_) (fun i _ => by rw [hkey]; rfl)
  · exact get?_put_of_ne hne
  · exact get?_put_of_ne hne
  · split_ifs
    · exact (lookup_assign _ _ _ _).trans (if_neg hne)
    · rfl
  · exact hout e i fun hnew => hne hnew.1
  · cases hkey.symm.trans hak
    refine ⟨hcur.le, ⟨_, hround, rfl⟩, hkeys, fun i hlow hhigh hbelow => hin i hlow ?_⟩
    simp only [pointsOf, hround] at hhigh
    simp only at hbelow
    split_ifs at hbelow with hmore
    · have := hbelow (precomputeChunkSize + 1) (by simp [lookup_assign])
      omega
    · omega
  · simp only at hc
    split_ifs at hc with hmore
    · simp only [lookup_assign, if_true] at hc
      cases hc
      simp only [pointsOf, hround]
      refine ⟨by omega, hmore, by rw [hkey]; rfl, fun i hle => ?_⟩
      exact (hout _ i (by omega)).trans (hnoentry i)
    · cases hnocursor.symm.trans hc

/-- **Every write keeps the cache covered**, as long as the epoch counter does not wrap. -/
theorem Covered.write (hw : ¬ w.epoch) (hwrite : Write X ctx w s s')
    (h : s.Covered X) : s'.Covered X := by
  cases hwrite with
  | ledger hcore =>
    cases s
    cases s'
    cases hcore
    exact h.congr rfl rfl rfl rfl rfl
  | release =>
    apply Covered.maybePrune
    exact h.congr rfl rfl rfl rfl rfl
  | @openRound base _ members hash attempt hbase hmembers _ hnext hopen =>
    obtain ⟨r, hep, -, -, -, -, -, rfl⟩ := openRound_spec hopen
    rw [wrap64_of_lt (hnext.resolve_left hw)] at hep ⊢
    -- the next epoch has no key yet, and a purged round never got one
    have hnext : ∀ ep, (s.activeKeys.get? ep).isSome = true → ep ≠ r.epoch := by
      intro ep hsome heq
      obtain ⟨ak, hak⟩ := Option.isSome_iff_exists.mp hsome
      have := (h.cover ep ak hak).settled
      omega
    obtain ⟨rfl, -⟩ | ⟨rfl, last, hlast, hstatus, -⟩ := hbase
    · refine h.rounds (fun ep hsome => ?_) (Nat.le_succ _) rfl rfl rfl
      exact get?_put_of_ne (hnext ep hsome)
    · refine h.rounds (fun ep hsome => ?_) (Nat.le_succ _) rfl rfl rfl
      have hne : ep ≠ s.currentEpoch := fun heq => by
        simp [heq, h.no_key hlast hstatus] at hsome
      exact (get?_put_of_ne (hnext ep hsome)).trans (get?_del_of_ne hne)
  | @failRound round hlast hopen =>
    obtain ⟨-, hcur, -⟩ := get?_of_lastRound hlast
    refine h.rounds (fun ep hsome => ?_) le_rfl rfl rfl rfl
    have hne : ep ≠ round.epoch := fun heq => by
      simp [heq.trans hcur, h.no_key hlast (by rw [hopen]; decide)] at hsome
    exact get?_put_of_ne hne
  | @activate round res sk cu hlast hopen hres _ _ hwarm =>
    apply Covered.maybePrune
    exact h.activate hlast hopen (finalizePublicWeighted_hasShareKeys hres) hwarm
  | cache _ _ hadvance =>
    obtain ⟨ep, budget, hbudget, heq⟩ := hadvance
    rw [← heq]
    exact h.advance ep hbudget
  | _ => exact h.congr rfl rfl rfl rfl rfl

/-! ## The work left -/

/-- The indices of an epoch that have no cached share key. -/
def coldIndices (s : State) (ep : Nat) : List Nat :=
  (List.range' 1 (s.pointsOf ep)).filter fun i => (s.shareKeys.lookup (key2 ep i)).isNone

/-- The uncached indices over all epochs with a pending cursor. -/
def pendingCold (s : State) : Nat :=
  (s.shareKeyCursors.entries.map fun e => (s.coldIndices e.1).length).sum

/-- The share keys that `s'` has cached and `s` has not. -/
def warmedKeys (s s' : State) : Nat :=
  s'.shareKeys.count fun e => s.shareKeys.lookup e.1 ≠ some e.2

/-- The work behind a table of cursors, for epochs with these numbers of points. -/
def cursorWork (points : Nat → Nat) (cursors : KVStore Nat Nat) : Nat :=
  (cursors.entries.map fun e => points e.1 + 1 - e.2).sum

/-- The work behind the cursor of one epoch. -/
def epochWork (points : Nat → Nat) (cursors : KVStore Nat Nat) (ep : Nat) : Nat :=
  match cursors.lookup ep with
  | some c => points ep + 1 - c
  | none => 0

theorem length_filter_range' {S : Nat} (hpos : 1 ≤ c) (hle : c ≤ S + 1) :
    ((List.range' 1 S).filter fun i => c ≤ i).length = S + 1 - c := by
  have hsplit : List.range' 1 S = List.range' 1 (c - 1) ++ List.range' c (S + 1 - c) := by
    rw [show S = (c - 1) + (S + 1 - c) by omega, ← List.range'_append_1,
      show 1 + (c - 1) = c by omega, show c - 1 + (S + 1 - c) + 1 - c = S + 1 - c by omega]
  rw [hsplit, List.filter_append, List.length_append, List.filter_eq_nil_iff.mpr,
    List.filter_eq_self.mpr]
  · simp
  · intro i hi
    simpa using (List.mem_range'_1.mp hi).1
  · intro i hi
    have := (List.mem_range'_1.mp hi).2
    simp
    omega

theorem Covered.coldIndices_length (h : s.Covered X) (hc : s.shareKeyCursors.lookup ep = some c) :
    (s.coldIndices ep).length = s.pointsOf ep + 1 - c := by
  obtain ⟨hpos, hle, hsome⟩ := h.pending ep c hc
  obtain ⟨ak, hak⟩ := Option.isSome_iff_exists.mp hsome
  rw [← length_filter_range' hpos (hle.trans (Nat.le_succ _))]
  unfold coldIndices
  congr 1
  refine List.filter_congr fun i hi => ?_
  obtain ⟨hlow, hhigh⟩ := List.mem_range'_1.mp hi
  by_cases hci : c ≤ i
  · simp [h.cold ep c i hc hci, hci]
  · obtain ⟨y, hy, -⟩ := (h.cover ep ak hak).warm i hlow (by omega) fun c' hc' => by
      cases hc.symm.trans hc'
      omega
    simp [hy, hci]

theorem Covered.pendingCold_eq (h : s.Covered X) :
    s.pendingCold = cursorWork s.pointsOf s.shareKeyCursors := by
  unfold pendingCold cursorWork
  exact congrArg List.sum (List.map_congr_left fun e he =>
    h.coldIndices_length (s.shareKeyCursors.lookup_of_mem he))

theorem sum_epochWork (points : Nat → Nat) (cursors : KVStore Nat Nat) :
    ((cursors.entries.map Prod.fst).map (epochWork points cursors)).sum
      = cursorWork points cursors := by
  unfold cursorWork
  rw [List.map_map]
  refine congrArg List.sum (List.map_congr_left fun e he => ?_)
  simp only [Function.comp, epochWork, cursors.lookup_of_mem he]

theorem cursorWork_movedCursor {points : Nat → Nat} {cursors : KVStore Nat Nat}
    (hc : cursors.lookup ep = some c) {n : Nat} (hn : n ≤ points ep + 1 - c)
    (hle : c ≤ points ep) :
    cursorWork points (movedCursor cursors ep (points ep) (c + n)) + n = cursorWork points cursors := by
  obtain ⟨e, he, heq⟩ := Option.map_eq_some_iff.mp hc
  have hkey : e = (ep, c) := Prod.ext (key_of_get? he) heq
  have hold := (del_perm he).map fun e => points e.1 + 1 - e.2
  have hsum := hold.sum_eq
  rw [List.map_cons, List.sum_cons, hkey] at hsum
  simp only at hsum
  unfold cursorWork movedCursor
  by_cases hdone : points ep < c + n
  · rw [if_pos hdone, hsum]
    omega
  · have hnew := ((cursors.put_perm (ep, c + n)).map fun e => points e.1 + 1 - e.2).sum_eq
    rw [List.map_cons, List.sum_cons] at hnew
    rw [if_neg hdone, hsum, KVStore.assign, hnew]
    simp only
    omega

theorem epochWork_movedCursor (points : Nat → Nat) (cursors : KVStore Nat Nat) {e : Nat}
    (next : Nat) (hne : e ≠ ep) :
    epochWork points (movedCursor cursors ep (points ep) next) e = epochWork points cursors e := by
  unfold epochWork
  rw [lookup_movedCursor, if_neg hne]

/-- **The advance works off the budget.** Over distinct epochs it takes off the work behind their
cursors, or the whole budget if there is more. -/
theorem Covered.advanceEpochs {epochs : List Nat} (hnodup : epochs.Nodup)
    (h : s.Covered X) (budget : Nat) :
    (s.advanceEpochs X budget epochs).Covered X
      ∧ cursorWork s.pointsOf (s.advanceEpochs X budget epochs).shareKeyCursors
          + min budget (epochs.map (epochWork s.pointsOf s.shareKeyCursors)).sum
        = cursorWork s.pointsOf s.shareKeyCursors := by
  induction epochs generalizing s budget with
  | nil => exact ⟨h, by simp [State.advanceEpochs]⟩
  | cons ep epochs ih =>
    rw [List.nodup_cons] at hnodup
    unfold State.advanceEpochs
    by_cases hspent : budget = 0
    · rw [if_pos hspent]
      exact ⟨h, by simp [hspent]⟩
    rw [if_neg hspent]
    simp only
    have hnext := h.advance ep (Nat.pos_of_ne_zero hspent)
    obtain ⟨hcovered, hwork⟩ := ih hnodup.2 hnext
      (budget - (s.advanceEpochPrecompute X ep budget).2)
    refine ⟨hcovered, ?_⟩
    rw [List.map_cons, List.sum_cons]
    cases hc : s.shareKeyCursors.lookup ep with
    | none =>
      have hskip : s.advanceEpochPrecompute X ep budget = (s, 0) := by
        unfold advanceEpochPrecompute
        simp only [hc, Option.getD_none, if_pos]
      rw [hskip, Nat.sub_zero] at hwork
      rw [hskip, Nat.sub_zero, ← hwork]
      simp [epochWork, hc]
    | some c =>
      obtain ⟨-, sk, -, heq, -⟩ := h.advance_eq budget hc (Nat.pos_of_ne_zero hspent)
      have hle := (h.pending ep c hc).2.1
      have hwork' := cursorWork_movedCursor (n := min budget (s.pointsOf ep + 1 - c)) hc
        (Nat.min_le_right _ _) hle
      -- the epochs after this one keep their cursors
      have hrest : epochs.map (epochWork s.pointsOf (movedCursor s.shareKeyCursors ep
            (s.pointsOf ep) (c + min budget (s.pointsOf ep + 1 - c))))
          = epochs.map (epochWork s.pointsOf s.shareKeyCursors) :=
        List.map_congr_left fun e he => epochWork_movedCursor _ _ _ fun heq =>
          hnodup.1 (heq ▸ he)
      have hpoints : ∀ sk cu, pointsOf { s with shareKeys := sk, shareKeyCursors := cu }
          = s.pointsOf := fun _ _ => rfl
      rw [heq] at hwork ⊢
      simp only [hpoints, hrest] at hwork
      simp only [epochWork, hc]
      omega

theorem Covered.advancePrecompute (h : s.Covered X) : (s.advancePrecomputeShareKeys X).Covered X
      ∧ (s.advancePrecomputeShareKeys X).pendingCold + min s.pendingCold precomputeChunkSize
        = s.pendingCold := by
  obtain ⟨hcovered, hwork⟩ := h.advanceEpochs s.shareKeyCursors.nodup_keys precomputeChunkSize
  refine ⟨hcovered, ?_⟩
  obtain ⟨sk, cu, hframe⟩ := @advanceEpochs_frame X (s.shareKeyCursors.entries.map Prod.fst) s
    precomputeChunkSize
  have hpoints : (s.advanceEpochs X precomputeChunkSize
      (s.shareKeyCursors.entries.map Prod.fst)).pointsOf = s.pointsOf := by
    rw [hframe]
    rfl
  rw [sum_epochWork] at hwork
  unfold advancePrecomputeShareKeys
  rw [hcovered.pendingCold_eq, h.pendingCold_eq, hpoints, Nat.min_comm]
  exact hwork

theorem advanceEpochPrecompute_count (s : State) (ep : Nat) {budget : Nat} (hbudget : budget ≠ 0)
    (p : Key2 × Bytes → Bool) :
    (s.advanceEpochPrecompute X ep budget).1.shareKeys.count p
        ≤ s.shareKeys.count p + (s.advanceEpochPrecompute X ep budget).2
      ∧ (s.advanceEpochPrecompute X ep budget).2 ≤ budget := by
  unfold advanceEpochPrecompute
  simp only
  by_cases hcursor : (s.shareKeyCursors.lookup ep).getD 0 = 0
  · rw [if_pos hcursor]
    exact ⟨le_rfl, Nat.zero_le _⟩
  rw [if_neg hcursor]
  generalize (s.shareKeyCursors.lookup ep).getD 0 = c at hcursor
  split
  · rename_i ak round _ _
    by_cases hpast : totalEvalPoints round.members < c
    · rw [if_pos hpast]
      exact ⟨le_rfl, Nat.zero_le _⟩
    rw [if_neg hpast]
    have hwarm := @warmShareKeyRange_count X s ep ak.publicCommitments c
      (min (c + budget - 1) (totalEvalPoints round.members)) (by omega) p
    rw [show min (c + budget - 1) (totalEvalPoints round.members) + 1 - c
      = min (c + budget - 1) (totalEvalPoints round.members) - c + 1 by omega] at hwarm
    refine ⟨?_, by omega⟩
    split_ifs
    · exact hwarm
    · exact hwarm
  · exact ⟨le_rfl, Nat.zero_le _⟩

theorem advanceEpochs_count (epochs : List Nat) (s : State) (budget : Nat)
    (p : Key2 × Bytes → Bool) :
    (s.advanceEpochs X budget epochs).shareKeys.count p ≤ s.shareKeys.count p + budget := by
  induction epochs generalizing s budget with
  | nil => exact Nat.le_add_right _ _
  | cons ep epochs ih =>
    unfold State.advanceEpochs
    split_ifs with hspent
    · exact Nat.le_add_right _ _
    · obtain ⟨hone, hle⟩ := @advanceEpochPrecompute_count X s ep budget hspent p
      refine (ih _ _).trans ?_
      omega

/-! ## A block that closes no round -/

/-- No open round has reached its complaint deadline. -/
def NoRoundDue (ctx : Ctx) (s : State) : Prop :=
  ∀ round, s.lastRound = some round → round.status = .isOpen → ctx.height < round.complaintDeadline

theorem memberPoints_isSome {i : Nat}
    (hi : i ∈ members.map RoundMember.index) : (memberPoints members i).isSome = true := by
  obtain ⟨m, hm, rfl⟩ := List.mem_map.mp hi
  unfold memberPoints
  rw [Option.isSome_map, List.find?_isSome]
  exact ⟨m, List.mem_reverse.mpr hm, by simp⟩

/-- The qualified dealers weigh no more than everybody who dealt. -/
theorem qualWeight_le_dealingWeight (hnodup : (round.members.map RoundMember.index).Nodup)
    (hres : s.finalizeResult X round = .ok res) :
    (res.qual.map fun i => (memberPoints round.members i).getD 1).sum
      ≤ s.dealingWeightUpperBound round := by
  obtain ⟨hqual, -⟩ := finalizePublicWeighted_spec hres
  have hmem : ∀ q ∈ res.qual, q ∈ round.members.map RoundMember.index
      ∧ q ∈ (s.dealings.entries.filter (fun d => d.epoch = round.epoch)).map Dealing.dealerIndex := by
    intro q hq
    rw [hqual] at hq
    obtain ⟨hsorted, hdealt⟩ := List.mem_filter.mp hq
    refine ⟨(List.perm_insertionSort _ _).mem_iff.mp hsorted, ?_⟩
    rw [Bool.and_eq_true] at hdealt
    obtain ⟨pts, hpts⟩ := Option.isSome_iff_exists.mp hdealt.1
    obtain ⟨pd, hpd, rfl, -⟩ := exists_of_dealingPoints hpts
    obtain ⟨d, hd, rfl⟩ := List.mem_map.mp hpd
    exact List.mem_map_of_mem hd
  have hqnodup : res.qual.Nodup := by
    rw [hqual]
    exact ((List.perm_insertionSort _ _).nodup_iff.mpr hnodup).filter _
  -- qualified dealers are members, so the two defaults of the lookup do not matter
  have hweight : res.qual.map (fun i => (memberPoints round.members i).getD 1)
      = res.qual.map fun i => (memberPoints round.members i).getD 0 := by
    refine List.map_congr_left fun q hq => ?_
    obtain ⟨n, hn⟩ := Option.isSome_iff_exists.mp (memberPoints_isSome (hmem q hq).1)
    rw [hn]
    rfl
  obtain ⟨qs, hperm, hsub⟩ := hqnodup.subperm fun q hq => (hmem q hq).2
  rw [hweight, ← (hperm.map _).sum_eq]
  unfold dealingWeightUpperBound
  refine (List.Sublist.sum_le_sum (hsub.map _) fun _ _ => Nat.zero_le _).trans ?_
  rw [List.map_map]
  exact le_rfl

theorem finalizeRound_of_few (hnodup : (round.members.map RoundMember.index).Nodup)
    (hfew : s.dealingWeightUpperBound round < round.threshold) :
    s.finalizeRound X round = { s with rounds := s.rounds.put { round with status := .failed } } := by
  obtain ⟨-, -, heq⟩ | ⟨res, -, -, hres, -⟩ := @finalizeRound_cases X s round
  · exact heq
  · have hle := qualWeight_le_dealingWeight hnodup hres
    obtain ⟨-, hmin, -⟩ := finalizePublicWeighted_spec hres
    omega

/-- Without a round due, closing rounds is nothing or an early failure. -/
theorem finalizeDue_of_noRoundDue
    (hnumbered : ∀ r, s.lastRound = some r → (r.members.map RoundMember.index).Nodup)
    (hquiet : NoRoundDue ctx s) :
    s.finalizeDue X ctx = s
      ∨ ∃ round, s.lastRound = some round ∧ round.status = .isOpen
        ∧ s.finalizeDue X ctx
          = { s with rounds := s.rounds.put { round with status := .failed } } := by
  have hdeadline : s.finalizeIf X (fun r => r.complaintDeadline ≤ ctx.height) = s := by
    unfold finalizeIf
    cases hlast : s.lastRound with
    | none => rfl
    | some round =>
      refine if_neg fun hdue => ?_
      have := hquiet round hlast hdue.1
      have := of_decide_eq_true hdue.2
      omega
  unfold finalizeDue
  simp only [hdeadline]
  unfold finalizeIf
  cases hlast : s.lastRound with
  | none => exact .inl rfl
  | some round =>
    simp only
    split_ifs with hearly
    · have hfew := of_decide_eq_true hearly.2
      exact .inr ⟨round, rfl, hearly.1, finalizeRound_of_few (hnumbered round hlast) hfew.2.2⟩
    · exact .inl rfl

/-- The stores behind the cache are as they were. -/
structure KeepsCache (s s' : State) : Prop where
  shareKeys : s'.shareKeys = s.shareKeys
  cursors : s'.shareKeyCursors = s.shareKeyCursors
  keys : s'.activeKeys = s.activeKeys
  rounds : ∀ ep, (s.activeKeys.get? ep).isSome = true → s'.rounds.get? ep = s.rounds.get? ep

theorem KeepsCache.refl (s : State) : KeepsCache s s := ⟨rfl, rfl, rfl, fun _ _ => rfl⟩

theorem KeepsCache.trans {t u : State} (h : KeepsCache s t) (h' : KeepsCache t u) :
    KeepsCache s u :=
  ⟨h'.shareKeys.trans h.shareKeys, h'.cursors.trans h.cursors, h'.keys.trans h.keys,
    fun ep hsome => (h'.rounds ep (by rwa [h.keys])).trans (h.rounds ep hsome)⟩

theorem Covered.failRound_keepsCache (h : s.Covered X)
    (hlast : s.lastRound = some round) (hopen : round.status = .isOpen) :
    KeepsCache s { s with rounds := s.rounds.put { round with status := .failed } } := by
  obtain ⟨-, hcur, -⟩ := get?_of_lastRound hlast
  refine ⟨rfl, rfl, rfl, fun ep hsome => ?_⟩
  have hne : ep ≠ round.epoch := fun heq => by
    simp [heq.trans hcur, h.no_key hlast (by rw [hopen]; decide)] at hsome
  exact get?_put_of_ne hne

theorem Covered.openRound_keepsCache {base : State} (h : s.Covered X)
    (hroom : s.currentEpoch + 1 < 2 ^ 64) (hbase : KeepsCache s base)
    {height attempt : Nat}
    (hopen : base.openRound X (wrap64 (s.currentEpoch + 1)) members hash height p attempt
      = some s') : KeepsCache s s' := by
  obtain ⟨r, hep, -, -, -, -, -, rfl⟩ := openRound_spec hopen
  refine ⟨hbase.shareKeys, hbase.cursors, hbase.keys, fun ep hsome => ?_⟩
  obtain ⟨ak, hak⟩ := Option.isSome_iff_exists.mp hsome
  have hsettled := (h.cover ep ak hak).settled
  have hne : ep ≠ r.epoch := by
    rw [hep, wrap64_of_lt hroom]
    omega
  exact (get?_put_of_ne hne).trans (hbase.rounds ep hsome)

theorem Covered.purgeFailedRound_keepsCache (h : s.Covered X)
    (hlast : s.lastRound = some round) (hstatus : round.status ≠ .active) :
    KeepsCache s (s.purgeFailedRound s.currentEpoch) := by
  refine ⟨rfl, rfl, rfl, fun ep hsome => ?_⟩
  have hne : ep ≠ s.currentEpoch := fun heq => by simp [heq, h.no_key hlast hstatus] at hsome
  exact get?_del_of_ne hne

theorem purgeDealingsIfDrained_keepsCache (s : State) (p : Params) (epoch : Nat) :
    KeepsCache s (s.purgeDealingsIfDrained p epoch) := by
  obtain ⟨d, c, r, hframe⟩ := purgeDealingsIfDrained_frame s p epoch
  rw [hframe]
  exact ⟨rfl, rfl, rfl, fun _ _ => rfl⟩

theorem Covered.rekeyStep_keepsCache (h : s.Covered X)
    (hroom : s.currentEpoch + 1 < 2 ^ 64) (hstep : s.rekeyStep X ctx p = some s') :
    KeepsCache s s' := by
  obtain rfl | hopens := rekeyStep_cases hstep
  · exact .refl _
  cases hopens with
  | first _ hopen => exact h.openRound_keepsCache hroom (.refl s) hopen
  | superseded _ _ _ ht hopen =>
    have hdrained := purgeDealingsIfDrained_keepsCache s p s.currentEpoch
    refine h.openRound_keepsCache hroom ?_ hopen
    obtain rfl | rfl := ht <;>
      exact ⟨hdrained.shareKeys, hdrained.cursors, hdrained.keys, hdrained.rounds⟩
  | replaced hlast hstatus _ hopen =>
    have hpurge := h.purgeFailedRound_keepsCache hlast hstatus
    refine h.openRound_keepsCache hroom ?_ hopen
    exact ⟨hpurge.shareKeys, hpurge.cursors, hpurge.keys, hpurge.rounds⟩
  | retried hlast hfailed _ hopen =>
    exact h.openRound_keepsCache hroom
      (h.purgeFailedRound_keepsCache hlast (by rw [hfailed]; decide)) hopen

/-- The stakes a block computes with stay within 256 bits, for a round opened with the live members
and for a retry with the stored ones. -/
@[mk_iff] structure StakesInRange (ctx : Ctx) (s : State) : Prop where
  rekey : StakesFit ((s.lastRound.map DkgRound.members).getD []) (activeMembers ctx s s.params)
    s.params.effectiveShareBudget
  retry : StakesFit [] ((s.lastRound.map DkgRound.members).getD []) s.params.effectiveShareBudget

instance (ctx : Ctx) (s : State) : Decidable (StakesInRange ctx s) :=
  decidable_of_iff' _ (stakesInRange_iff ctx s)

instance (ctx : Ctx) (s : State) : Decidable (NoRoundDue ctx s) :=
  inferInstanceAs (Decidable (∀ round ∈ s.lastRound, round.status = .isOpen →
    ctx.height < round.complaintDeadline))

theorem openRound_isSome {epoch attempt : Nat}
    (halloc : ∃ out, allocateEvalPoints X.sha256 members p.effectiveShareBudget epoch = some out) :
    ∃ s', s.openRound X epoch members hash h p attempt = some s' := by
  obtain ⟨out, halloc⟩ := halloc
  unfold openRound
  cases p.dkgTransparent with
  | false => exact ⟨_, rfl⟩
  | true =>
    rw [if_pos rfl, halloc]
    exact ⟨_, rfl⟩

theorem retryFailedRound_isSome {epoch : Nat}
    (halloc : ∀ ep, ∃ out, allocateEvalPoints X.sha256 members p.effectiveShareBudget ep = some out) :
    ∃ s', s.retryFailedRound X epoch round members hash h p = some s' := by
  unfold retryFailedRound
  split_ifs
  · exact ⟨s, rfl⟩
  · exact openRound_isSome (halloc _)

theorem rekeyStep_isSome
    (hfit : StakesFit ((s.lastRound.map DkgRound.members).getD []) (activeMembers ctx s p)
      p.effectiveShareBudget)
    (hretry : StakesFit [] ((s.lastRound.map DkgRound.members).getD []) p.effectiveShareBudget)
    (hne : activeMembers ctx s p ≠ []) : ∃ s', s.rekeyStep X ctx p = some s' := by
  have hnn := activeMembers_weight_nonneg ctx s p
  have halloc : ∀ ep, ∃ out, allocateEvalPoints X.sha256 (activeMembers ctx s p)
      p.effectiveShareBudget ep = some out := fun ep => hfit.allocate_eq_some hnn
  have hstored : ∀ ep, ∃ out, allocateEvalPoints X.sha256
      ((s.lastRound.map DkgRound.members).getD []) p.effectiveShareBudget ep = some out :=
    fun ep => hretry.allocate_eq_some hfit.snapshot_nonneg
  obtain ⟨bps, hbps⟩ := hfit.drift_eq_some hnn hne
  unfold rekeyStep
  simp only
  cases hlast : s.lastRound with
  | none => exact openRound_isSome (halloc _)
  | some round =>
    simp only [hlast, Option.map_some, Option.getD_some] at hstored hbps ⊢
    obtain ⟨due, hdue⟩ := stakeDriftRekeyDue_isSome (s := s) (p := p) (h := ctx.height) ⟨bps, hbps⟩
    rw [hdue, hbps]
    simp only [Option.bind_some]
    split_ifs
    · exact retryFailedRound_isSome hstored
    · exact ⟨s, rfl⟩
    · exact openRound_isSome (halloc _)
    · exact openRound_isSome (halloc _)
    · exact openRound_isSome (halloc _)
    · exact ⟨s, rfl⟩
    · exact retryFailedRound_isSome halloc
    · exact ⟨s, rfl⟩

theorem Covered.pendingCold_of_keepsCache (h : s.Covered X) (hkeep : KeepsCache s s') :
    s'.pendingCold = s.pendingCold := by
  unfold pendingCold
  rw [hkeep.cursors]
  refine congrArg List.sum (List.map_congr_left fun e he => ?_)
  have hcursor := s.shareKeyCursors.lookup_of_mem he
  unfold coldIndices pointsOf
  rw [hkeep.shareKeys, hkeep.rounds e.1 (h.pending e.1 e.2 hcursor).2.2]

theorem gcStaleEncKeys_frame (s : State) : ∃ ep eo er, s.gcStaleEncKeys ctx
    = { s with encPubKeys := ep, encKeyOwners := eo, encKeyRotated := er } := by
  unfold gcStaleEncKeys
  refine Reach.foldl_keeps (I := fun t : State => ∃ ep eo er, t
    = { s with encPubKeys := ep, encKeyOwners := eo, encKeyRotated := er }) ?_ ?_
  · rintro t op - ⟨ep, eo, er, rfl⟩
    exact ⟨_, _, _, rfl⟩
  · exact ⟨s.encPubKeys, s.encKeyOwners, s.encKeyRotated, rfl⟩

theorem Covered.maintenance (h : s.Covered X) : (s.endBlockMaintenance X ctx).Covered X
      ∧ (s.endBlockMaintenance X ctx).pendingCold + min s.pendingCold precomputeChunkSize
        = s.pendingCold
      ∧ s.warmedKeys (s.endBlockMaintenance X ctx) ≤ precomputeChunkSize := by
  obtain ⟨hcovered, hwork⟩ := h.advancePrecompute
  have hcount := @advanceEpochs_count X (s.shareKeyCursors.entries.map Prod.fst) s
    precomputeChunkSize fun e => s.shareKeys.lookup e.1 ≠ some e.2
  have hnone : s.shareKeys.count (fun e => s.shareKeys.lookup e.1 ≠ some e.2) = 0 := by
    refine List.countP_eq_zero.mpr fun e he => ?_
    simp [s.shareKeys.lookup_of_mem he]
  rw [hnone, Nat.zero_add] at hcount
  unfold endBlockMaintenance
  simp only
  split_ifs
  · -- dropping stale encryption keys touches none of the stores of the cache
    obtain ⟨ep, eo, er, hframe⟩ := @gcStaleEncKeys_frame ctx (s.advancePrecomputeShareKeys X)
    rw [hframe]
    exact ⟨hcovered.congr rfl rfl rfl rfl rfl, hwork, hcount⟩
  · exact ⟨hcovered, hwork, hcount⟩

/-- **A block that closes no round** warms at most a chunk; if it does not panic either, it takes
exactly a chunk off the work left, or all of it. -/
theorem Covered.endBlockDKG (h : s.Covered X)
    (hnumbered : ∀ ep r, s.rounds.get? ep = some r → (r.members.map RoundMember.index).Nodup)
    (hroom : s.currentEpoch + 1 < 2 ^ 64) (hquiet : NoRoundDue ctx s) :
    s.warmedKeys (s.endBlockDKG X ctx) ≤ precomputeChunkSize
      ∧ (dkgRunnable ctx s.params = true → StakesInRange ctx s →
        (s.endBlockDKG X ctx).pendingCold = s.pendingCold - min s.pendingCold precomputeChunkSize) := by
  obtain ⟨⟨sk, cu, ep, eo, er, hframe⟩, hbonded⟩ := @endBlockMaintenance_frame X ctx s
  have hlive := activeMembers_congr s.params hbonded
  obtain ⟨hcovered, hwork, hcount⟩ := @Covered.maintenance X ctx s h
  have hself : s.warmedKeys s = 0 := by
    refine List.countP_eq_zero.mpr fun e he => ?_
    simp [s.shareKeys.lookup_of_mem he]
  generalize hm : s.endBlockMaintenance X ctx = t at *
  have hlast : t.lastRound = s.lastRound := by rw [hframe]; rfl
  have hcur : t.currentEpoch = s.currentEpoch := by rw [hframe]
  -- closing rounds leaves the cache and, status apart, the latest round
  obtain ⟨hclosed, hkeep, hcur', hmembers, hkeys⟩ : (t.finalizeDue X ctx).Covered X
      ∧ KeepsCache t (t.finalizeDue X ctx)
      ∧ (t.finalizeDue X ctx).currentEpoch = t.currentEpoch
      ∧ ((t.finalizeDue X ctx).lastRound.map DkgRound.members).getD []
        = (t.lastRound.map DkgRound.members).getD []
      ∧ (t.finalizeDue X ctx).encPubKeys = t.encPubKeys := by
    obtain heq | ⟨round, hround, hopen, heq⟩ := @finalizeDue_of_noRoundDue X ctx t
      (fun r hr => hnumbered _ r (get?_of_lastRound (hlast ▸ hr)).1) (fun r hr => hquiet r (hlast ▸ hr))
    · rw [heq]
      exact ⟨hcovered, .refl t, rfl, rfl, rfl⟩
    · rw [heq]
      have hk := hcovered.failRound_keepsCache hround hopen
      obtain ⟨-, hep, hpos⟩ := get?_of_lastRound hround
      refine ⟨hcovered.rounds hk.rounds le_rfl rfl rfl rfl, hk, rfl, ?_, rfl⟩
      have hself : (t.rounds.put { round with status := .failed }).get? t.currentEpoch
          = some { round with status := .failed } :=
        hep ▸ get?_put_self t.rounds { round with status := .failed }
      rw [hround, lastRound, if_pos (by simpa using hpos), hself]
      rfl
  have hactive : activeMembers ctx (t.finalizeDue X ctx) s.params = activeMembers ctx s s.params := by
    rw [← hlive]
    exact activeMembers_congr s.params fun op _ => by unfold getEncPubKey; rw [hkeys]
  generalize hu : t.finalizeDue X ctx = u at *
  -- what the block leaves is the closed state, or the state after the rekey decision
  have hend : (dkgRunnable ctx s.params = false ∨ s.endBlockBody X ctx = none)
      ∧ s.endBlockDKG X ctx = s ∨ KeepsCache t (s.endBlockDKG X ctx) := by
    obtain hsame | ⟨-, hrest⟩ := @endBlockDKG_cases X ctx s
    · exact .inl hsame
    rw [hm, hu] at hrest
    obtain heq | ⟨-, -, hstep⟩ := hrest
    · exact .inr (heq ▸ hkeep)
    · exact .inr (hkeep.trans (hclosed.rekeyStep_keepsCache (by omega) hstep))
  refine ⟨?_, fun hrun hstakes => ?_⟩
  · obtain ⟨-, hsame⟩ | hcache := hend
    · rw [hsame]
      exact hself.le.trans (Nat.zero_le _)
    · unfold warmedKeys at hcount ⊢
      rwa [hcache.shareKeys]
  · -- with the stakes in range the body runs through
    obtain ⟨s', hbody⟩ : ∃ s', s.endBlockBody X ctx = some s' := by
      unfold endBlockBody
      simp only [hm, hu]
      rw [if_neg (by simp [hrun])]
      split_ifs with hopen hempty
      · exact ⟨u, rfl⟩
      · exact ⟨u, rfl⟩
      · rw [hlast] at hmembers
        refine rekeyStep_isSome ?_ ?_ fun hnil => hempty (by rw [hnil]; rfl)
        · rw [hmembers, hactive]
          exact hstakes.rekey
        · rw [hmembers]
          exact hstakes.retry
    rw [hcovered.pendingCold_of_keepsCache (hend.resolve_left fun h => by simp [hrun, hbody] at h)]
    omega

theorem Covered.genesis {gs : GenesisState} (hgs : gs.activeKeys = [])
    (h : initGenesis X gs = .ok s) : s.Covered X := by
  have himp := initGenesis_imported h
  have hnone : ∀ ep, s.activeKeys.get? ep = none := fun ep => by
    rw [himp.key, GenesisState.activeKeyOf, hgs]
    rfl
  refine ⟨fun ep ak hak => ?_, fun ep c hc => ?_, fun ep c i hc => ?_, fun ep i hi => ?_⟩
  · rw [hnone] at hak
    cases hak
  · simp [himp.shareKeyCursors] at hc
  · simp [himp.shareKeyCursors] at hc
  · simp [himp.shareKeys] at hi

end State

theorem Chain.Reachable.covered {gs : GenesisState} (hgs : gs.activeKeys = []) {c : Chain}
    (hreach : Chain.Reachable X EpochRoom gs h c) : c.state.Covered X := by
  refine hreach.by_writes (w := ⟨True, False, True⟩) (I := fun _ s => s.Covered X) trivial (.inl trivial)
    (.inr fun _ _ _ hallow => hallow) (fun s hs => .genesis hgs hs) (fun _ _ _ _ hs => hs)
    (fun ctx s s' hwrite hs => hs.write id hwrite)
    (fun _ s p _ _ hs => hs.congr rfl rfl rfl rfl rfl) (fun ctx s s' msg _ hok hs => ?_)
  obtain ⟨-, -, -, rfl⟩ := State.submitDecryptionShare_spec hok
  exact hs.congr rfl rfl rfl rfl rfl

/-- **Share-key coverage.** From a genesis that imports no key, in every state reached while the
epoch counter does not wrap: an index of an installed key is cached with its share key or at or
above the cursor of its epoch, and once no work is left every index is cached. A block in which no
open round is due warms at most one chunk, and, with stakes in range, takes one chunk off the work
left or all of it. -/
theorem shareKeys_covered {gs : GenesisState} (hgs : gs.activeKeys = []) {h : Nat} {c : Chain}
    (hreach : Chain.Reachable X EpochRoom gs h c) :
    (∀ ep ak round, c.state.activeKeys.get? ep = some ak → c.state.rounds.get? ep = some round →
      ∀ i, 1 ≤ i → i ≤ totalEvalPoints round.members →
        (∃ y, c.state.shareKeys.lookup (key2 ep i) = some y ∧ IsShareKey X ak.publicCommitments i y)
        ∨ ((∃ cur, c.state.shareKeyCursors.lookup ep = some cur ∧ cur ≤ i)
          ∧ c.state.pendingCold ≠ 0))
    ∧ ∀ ctx, EpochRoom c.state ctx .endBlockDKG → State.NoRoundDue ctx c.state →
      c.state.warmedKeys (c.state.endBlockDKG X ctx) ≤ precomputeChunkSize
      ∧ (State.dkgRunnable ctx c.state.params = true → State.StakesInRange ctx c.state →
        (c.state.endBlockDKG X ctx).pendingCold
          = c.state.pendingCold - min c.state.pendingCold precomputeChunkSize) := by
  have hcovered := hreach.covered hgs
  refine ⟨fun ep ak round hak hround i hlow hhigh => ?_, fun ctx hroom hquiet => ?_⟩
  · have hpoints : c.state.pointsOf ep = totalEvalPoints round.members := by
      unfold State.pointsOf
      rw [hround]
    by_cases hbelow : ∀ cur, c.state.shareKeyCursors.lookup ep = some cur → i < cur
    · exact .inl ((hcovered.cover ep ak hak).warm i hlow (hpoints ▸ hhigh) hbelow)
    · push Not at hbelow
      obtain ⟨cur, hcur, hle⟩ := hbelow
      refine .inr ⟨⟨cur, hcur, hle⟩, fun hzero => ?_⟩
      -- a pending epoch has at least the index at its cursor left
      obtain ⟨e, he, heq⟩ := Option.map_eq_some_iff.mp hcur
      have hmem := mem_of_get? he
      have hcold := List.sum_eq_zero_iff.mp hzero _ (List.mem_map_of_mem hmem)
      have hkey : e.1 = ep := key_of_get? he
      rw [hkey, hcovered.coldIndices_length hcur] at hcold
      have := (hcovered.pending ep cur hcur).2.1
      omega
  · exact hcovered.endBlockDKG (hreach.cacheSound fun _ _ _ hallow => hallow).numbered hroom hquiet

namespace Sample

/-- The pair before its first round. -/
def freshPair : GenesisState :=
  { pairGenesis with
    dkgRounds := [], activeKeys := [], dealings := [], currentEpoch := 0, activeEpoch := 0 }

end Sample

open Sample

/-- The first key of the pair is covered when it is installed, and the block after that has nothing
left to do. -/
theorem shareKeys_covered_installed : ∃ c ak round,
    Chain.Reachable pairPrimitives EpochRoom freshPair 9 c
    ∧ c.state.activeKeys.get? 1 = some ak ∧ c.state.rounds.get? 1 = some round
    ∧ 2 ≤ totalEvalPoints round.members
    ∧ (∃ y, c.state.shareKeys.lookup (key2 1 2) = some y
      ∧ IsShareKey pairPrimitives ak.publicCommitments 2 y)
    ∧ c.state.warmedKeys (c.state.endBlockDKG pairPrimitives
      (pairBlock 41 (by decide))) ≤ precomputeChunkSize
    ∧ (c.state.endBlockDKG pairPrimitives (pairBlock 41 (by decide))).pendingCold
      = c.state.pendingCold - min c.state.pendingCold precomputeChunkSize := by
  obtain ⟨c, hreach, hkey, hround, hdone, hroom, hquiet, hrun, hstakes⟩ : ∃ c,
      Chain.Reachable pairPrimitives EpochRoom freshPair 9 c
      ∧ (∃ ak ∈ c.state.activeKeys.get? 1, True)
      ∧ (∃ round ∈ c.state.rounds.get? 1, 2 ≤ totalEvalPoints round.members)
      ∧ c.state.pendingCold = 0
      ∧ EpochRoom c.state (pairBlock 41 (by decide)) .endBlockDKG
      ∧ State.NoRoundDue (pairBlock 41 (by decide)) c.state
      ∧ State.dkgRunnable (pairBlock 41 (by decide)) c.state.params = true
      ∧ State.StakesInRange (pairBlock 41 (by decide)) c.state :=
    Chain.exists_reachable
      [(pairBlock 10 (by decide), .endBlockDKG),
       (pairBlock 11 (by decide), .dkgDeal (poisonedDeal 1)),
       (pairBlock 40 (by decide), .endBlockDKG)]
      (by decide +kernel)
  obtain ⟨ak, hak, -⟩ := hkey
  obtain ⟨round, hround, hpoints⟩ := hround
  obtain ⟨hcover, hblock⟩ := shareKeys_covered rfl hreach
  obtain ⟨hwarmed, hwork⟩ := hblock (pairBlock 41 (by decide)) hroom hquiet
  have hcached := hcover 1 ak round hak hround 2 (by decide) hpoints
  exact ⟨c, ak, round, hreach, hak, hround, hpoints, hcached.resolve_right fun h => h.2 hdone,
    hwarmed, hwork hrun hstakes⟩

/-- An imported key stays cold: after two blocks its only index is neither cached nor scheduled. -/
theorem shareKeys_cold_import : ∃ c,
    Chain.Reachable dkgPrimitives (fun _ _ _ => True)
      (dkgGenesis 1 1 1 [Sample.round 1 .active] [key 1] [dealing 1]) 9 c
    ∧ (c.state.activeKeys.get? 1).isSome = true
    ∧ (∃ round ∈ c.state.rounds.get? 1, totalEvalPoints round.members = 1)
    ∧ c.state.shareKeys.lookup (key2 1 1) = none ∧ c.state.shareKeyCursors.lookup 1 = none :=
  Chain.exists_reachable
    [(block 10 (by decide), .endBlockDKG), (block 11 (by decide), .endBlockDKG)]
    (by decide +kernel)

end EncMempool
