import Limonata.EncMempool.Keeper

/-!
# x/encmempool — the DKG round store (`keeper/dkg.go`)

The share-key cache with its per-epoch precompute cursor, the member set of a round (declared
members intersected with the bonded validators, or the bonded validators that announced a key),
and `finalizeRound`, which turns the dealings of an open round into the serving key or marks the
round failed.
-/

namespace EncMempool

open Machine

/-- What a handler reads from the block and from the other modules. -/
structure Ctx where
  /-- A block height is a positive `int64`. -/
  height : Nat
  height_lt : height < 2 ^ 63
  /-- The bonded validators in power order: operator and tokens. The staking module keeps one
  validator per operator and never a negative stake. -/
  bonded : List (Bytes × Int)
  bonded_nodup : (bonded.map Prod.fst).Nodup
  tokens_nonneg : ∀ v ∈ bonded, 0 ≤ v.2
  /-- `ConsensusParams.Abci.VoteExtensionsEnableHeight`; `none` when the section is absent. -/
  voteExtEnableHeight : Option Int
  /-- `ConsensusParams.Block.MaxBytes`; `none` when the section is absent. -/
  maxBlockBytes : Option Int
  /-- `ConsensusParams.Block.MaxGas`; `none` when the section is absent. -/
  maxBlockGas : Option Int
  chainID : Bytes

/-- Addition that saturates at the largest `uint64`. -/
def addSat (a b : Nat) : Nat := if 2 ^ 64 ≤ a + b then 2 ^ 64 - 1 else a + b

/-- The share keys computed per block. -/
def precomputeChunkSize : Nat := 128

namespace State

/-! ## Share-key cache -/

variable (X : External) (s : State) (epoch : Nat) (publicCommitments : List Bytes)

/-- Cache a list of share keys from `index` on. -/
def setShareKeys (s : State) (epoch index : Nat) : List Bytes → State
  | [] => s
  | y :: ys =>
    { s with shareKeys := s.shareKeys.assign (key2 epoch index) y }.setShareKeys epoch
      (index + 1) ys

/-- Compute and cache the share keys of `start .. stop`. -/
def warmShareKeyRange (start stop : Nat) : State :=
  match shareKeysCompressedRange X publicCommitments start stop with
  | none => s
  | some keys => s.setShareKeys epoch start keys

/-- Cache the first chunk of a fresh key and leave a cursor for the rest. -/
def precomputeShareKeys (S : Nat) : State :=
  if S = 0 then s
  else
    let stop := min S precomputeChunkSize
    let s := s.warmShareKeyRange X epoch publicCommitments 1 stop
    if stop < S then { s with shareKeyCursors := s.shareKeyCursors.assign epoch (stop + 1) } else s

def deleteShareKeyCursor : State :=
  { s with shareKeyCursors := s.shareKeyCursors.del epoch }

/-- Advance one epoch's precompute by at most `budget` keys; the second component is the number
of keys spent. -/
def advanceEpochPrecompute (epoch budget : Nat) : State × Nat :=
  let cursor := (s.shareKeyCursors.lookup epoch).getD 0
  if cursor = 0 then (s, 0)
  else match s.activeKeys.get? epoch, s.rounds.get? epoch with
    | some ak, some round =>
      let S := totalEvalPoints round.members
      if S < cursor then (s.deleteShareKeyCursor epoch, 0)
      else
        let stop := min (cursor + budget - 1) S
        let s := s.warmShareKeyRange X epoch ak.publicCommitments cursor stop
        let s := if S ≤ stop then s.deleteShareKeyCursor epoch
          else { s with shareKeyCursors := s.shareKeyCursors.assign epoch (stop + 1) }
        (s, stop - cursor + 1)
    | _, _ => (s.deleteShareKeyCursor epoch, 0)

/-- Spend `budget` keys over the epochs with a cursor, in epoch order. -/
def advanceEpochs (X : External) : State → Nat → List Nat → State
  | s, _, [] => s
  | s, budget, epoch :: epochs =>
    if budget = 0 then s
    else
      let r := s.advanceEpochPrecompute X epoch budget
      advanceEpochs X r.1 (budget - r.2) epochs

def advancePrecomputeShareKeys : State :=
  s.advanceEpochs X precomputeChunkSize (s.shareKeyCursors.entries.map Prod.fst)

/-! ## Member sets -/

/-- The announced key of an operator. -/
def getEncPubKey (operator : Bytes) : Option Bytes :=
  (s.encPubKeys.lookup operator).filter (fun k => 0 < k.length)

end State

/-- A bonded validator that has announced a key. -/
structure TransparentCandidate where
  op : Bytes
  tokens : Int
  key : Bytes
  deriving DecidableEq

/-- Higher stake first, then the operator. -/
def candidateLess (a b : TransparentCandidate) : Bool :=
  if a.tokens ≠ b.tokens then b.tokens < a.tokens else a.op < b.op

/-- Number members from `index` on. -/
def numberMembers (index : Nat) : List RoundMember → List RoundMember
  | [] => []
  | m :: ms => { m with index := index } :: numberMembers (index + 1) ms

theorem numberMembers_index (index : Nat) (ms : List RoundMember) :
    (numberMembers index ms).map RoundMember.index
      = List.range' index (numberMembers index ms).length := by
  induction ms generalizing index with
  | nil => rfl
  | cons m ms ih => simp [numberMembers, ih, List.range'_succ]

/-- The top bonded validators by stake that announced a key, in operator order. -/
def transparentMembers (ctx : Ctx) (s : State) (p : Params) : List RoundMember :=
  let cands := ctx.bonded.filterMap fun v =>
    (s.getEncPubKey v.1).map fun key => { op := v.1, tokens := v.2, key := key }
  let ranked := cands.insertionSort (fun a b => candidateLess b a = false)
  let capped := ranked.take p.effectiveMaxMembers
  let clamped := capped.take (p.effectiveShareBudget / minShareBudgetPerMember)
  let sorted := clamped.insertionSort (fun a b => a.op ≤ b.op)
  numberMembers 1 (sorted.map fun c =>
    { index := 0, operatorAddr := c.op, accountAddr := [], encPubKey := c.key, weight := c.tokens
      evalPoints := [], weighted := false })

/-- The member set a round opened now would have. -/
def activeMembers (ctx : Ctx) (s : State) (p : Params) : List RoundMember :=
  if p.dkgTransparent then transparentMembers ctx s p
  else
    let chosen := p.dkgMembers.filter fun m =>
      ctx.bonded.length = 0 ∨ m.operatorAddr ∈ ctx.bonded.map Prod.fst
    let sorted := chosen.insertionSort (fun a b => a.operatorAddr ≤ b.operatorAddr)
    numberMembers 1 (sorted.map fun m =>
      { index := 0, operatorAddr := m.operatorAddr, accountAddr := m.accountAddr
        encPubKey := m.encPubKey, weight := 0, evalPoints := [], weighted := false })

theorem activeMembers_index (ctx : Ctx) (s : State) (p : Params) :
    (activeMembers ctx s p).map RoundMember.index
      = List.range' 1 (activeMembers ctx s p).length := by
  unfold activeMembers transparentMembers
  split_ifs
  · exact numberMembers_index 1 _
  · exact numberMembers_index 1 _

/-- The hash of the operators and keys of a member set. -/
def membersHash (X : External) (members : List RoundMember) : Bytes :=
  X.sha256 (members.flatMap fun m => m.operatorAddr ++ [0] ++ m.encPubKey ++ [0])

/-- The threshold of the declared-member path. -/
def roundThreshold (p : Params) (n : Nat) : Nat :=
  if 1 ≤ p.dkgThreshold ∧ p.dkgThreshold ≤ n then p.dkgThreshold else wrap32 (n / 2 + 1)

/-- The number of evaluation points of the member with this index; the last one counts. -/
def memberPoints (members : List RoundMember) (index : Nat) : Option Nat :=
  (members.reverse.find? (fun m => m.index = index)).map fun m => m.ownedEvalPoints.length

namespace State

/-- The evaluation points of all members that dealt. -/
def dealingWeightUpperBound (s : State) (round : DkgRound) : Nat :=
  ((s.dealings.entries.filter (fun d => d.epoch = round.epoch)).map fun d =>
    (memberPoints round.members d.dealerIndex).getD 0).sum

/-- Turn the dealings of a round into the serving key, or mark the round failed. -/
def finalizeRound (X : External) (s : State) (round : DkgRound) : State :=
  let pubDealings : List PublicDealing :=
    (s.dealings.entries.filter (fun d => d.epoch = round.epoch)).map fun d =>
      { dealer := d.dealerIndex, commitments := d.commitments }
  let disq := (s.complaints.entries.filter (fun c => c.epoch = round.epoch)).map
    DkgComplaintRec.against
  match finalizePublicWeighted X (round.members.map RoundMember.index) round.threshold pubDealings
      disq (fun i => (memberPoints round.members i).getD 1) round.threshold with
  | .error _ => { s with rounds := s.rounds.put { round with status := .failed } }
  | .ok res =>
    let ak : ActiveThresholdKey :=
      { epoch := round.epoch, pub := res.pub, publicCommitments := res.publicCommitments
        threshold := round.threshold, qual := res.qual }
    let s := { s with activeKeys := s.activeKeys.put ak }
    let s := s.precomputeShareKeys X round.epoch ak.publicCommitments
      (totalEvalPoints round.members)
    let prevActive := s.activeEpoch
    let s := { s with
      activeEpoch := round.epoch
      rounds := s.rounds.put { round with status := .active } }
    if prevActive ≠ 0 ∧ prevActive ≠ round.epoch then s.maybePruneEpoch prevActive else s

end State

end EncMempool
