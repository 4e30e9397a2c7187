import Limonata.EncMempool.Dkg
import Limonata.EncMempool.StakeWeight

/-!
# x/encmempool — the DKG state machine (`keeper/endblock.go`)

`EndBlockDKG` closes an open round at its deadline and otherwise decides, in this order, whether
to open a round: none yet, member set changed (dampened by a minimum gap), stake drift or decrypt
health, retry of a failed round. The body runs on a cached store; a panic of the 256-bit stake
arithmetic (`none` here) discards every write of the block handler.
-/

namespace EncMempool

open Machine

def dkgBackoffCeilingBlocks : Nat := 1000
def minComplaintWindowBlocks : Nat := 2
def maxComplaintVerifiesPerAccuser : Nat := 8
def maxBpsDenominator : Nat := 10000
def maxEncKeyGCPerBlock : Nat := 64

/-- The complaint window a committee of `n` needs under the per-accuser quota. -/
def complaintWindowFloor (n : Nat) : Nat :=
  if n ≤ 1 then minComplaintWindowBlocks
  else max ((n - 1 + maxComplaintVerifiesPerAccuser - 1) / maxComplaintVerifiesPerAccuser + 1)
    minComplaintWindowBlocks

/-- Double `b` up to `n` times, stopping at the ceiling. -/
def backoffLoop (ceiling : Nat) : Nat → Nat → Nat
  | 0, b => b
  | n + 1, b =>
    let next := wrap64 (b * 2)
    if next < b ∨ ceiling ≤ next then ceiling else backoffLoop ceiling n next

/-- The blocks to wait after the failed attempt with this number. -/
def retryBackoff (p : Params) (failedAttempt : Nat) : Nat :=
  let base := max p.dkgRetryBackoff 1
  backoffLoop (max base dkgBackoffCeilingBlocks) (failedAttempt - 1) base

/-! ## Stake drift -/

/-- The weight of an operator; the last entry counts. -/
def weightOf? (members : List RoundMember) (operator : Bytes) : Option Int :=
  (members.reverse.find? (fun m => m.operatorAddr = operator)).map RoundMember.weight

/-- The absolute cross products over the members of the snapshot. -/
def snapshotDrift (live : List RoundMember) (wSnap wLive : Int) :
    List RoundMember → Int → Option Int
  | [], acc => some acc
  | m :: ms, acc =>
    (mul256 ((weightOf? live m.operatorAddr).getD 0) wSnap).bind fun a =>
      (mul256 m.weight wLive).bind fun b =>
        (int256 (a - b)).bind fun diff =>
          (add256 acc diff.natAbs).bind (snapshotDrift live wSnap wLive ms)

/-- The contribution of live members that are not in the snapshot. -/
def newcomerDrift (snapshot : List RoundMember) (wSnap : Int) :
    List RoundMember → Int → Option Int
  | [], acc => some acc
  | m :: ms, acc =>
    if (weightOf? snapshot m.operatorAddr).isSome then newcomerDrift snapshot wSnap ms acc
    else (mul256 m.weight wSnap).bind fun a =>
      (add256 acc a.natAbs).bind (newcomerDrift snapshot wSnap ms)

/-- The largest stake fraction any coalition gained or lost since the snapshot, in basis points. -/
def committeeMaxCoalitionDriftBps (snapshot live : List RoundMember) : Option Nat :=
  (sumWeights snapshot 0).bind fun wSnap =>
    (sumWeights live 0).bind fun wLive =>
      if wSnap ≤ 0 ∨ wLive ≤ 0 then some 0
      else
        (snapshotDrift live wSnap wLive snapshot 0).bind fun acc =>
          (newcomerDrift snapshot wSnap live acc).bind fun sumAbs =>
            (mul256 wSnap wLive).bind fun prod =>
              (mul256 prod 2).bind fun denom =>
                (mul256 sumAbs maxBpsDenominator).map fun num =>
                  min (num / denom).toNat maxBpsDenominator

/-- Whether the flap dampener holds back a rekey at `h`. -/
def rekeyDampened (s : State) (p : Params) (h : Nat) : Bool :=
  0 < p.dkgMinRekeyGap ∧ s.lastRekeyHeight ≠ 0 ∧ h < addSat s.lastRekeyHeight p.dkgMinRekeyGap

/-- Whether an active round must be rekeyed with the same member set. -/
def stakeDriftRekeyDue (s : State) (round : DkgRound) (live : List RoundMember) (h : Nat)
    (p : Params) : Option Bool :=
  if p.dkgTransparent = false then some false
  else if decryptHealthStrandThreshold ≤ s.getDecryptStrandStreak round.epoch then some true
  else if rekeyDampened s p h then some false
  else if p.dkgMaxEpochBlocks = 0 ∧ p.dkgRekeyOnStakeDriftBps = 0 then some false
  else if 0 < p.dkgMaxEpochBlocks ∧ addSat round.openHeight p.dkgMaxEpochBlocks ≤ h then some true
  else if 0 < p.dkgRekeyOnStakeDriftBps then
    (committeeMaxCoalitionDriftBps round.members live).map fun bps =>
      decide (p.dkgRekeyOnStakeDriftBps ≤ bps)
  else some false

namespace State

/-! ## Key registry GC -/

variable (X : External) (ctx : Ctx) (s : State)

/-- The reverse index without the key this operator announced. -/
def ownersWithout (operator : Bytes) : KVStore Bytes Bytes :=
  match s.getEncPubKey operator with
  | some key => s.encKeyOwners.del key
  | none => s.encKeyOwners

def deleteEncPubKey (operator : Bytes) : State :=
  { s with
    encKeyOwners := s.ownersWithout operator
    encPubKeys := s.encPubKeys.del operator
    encKeyRotated := s.encKeyRotated.del operator }

/-- Drop the keys of operators that are no longer bonded, boundedly many per block. -/
def gcStaleEncKeys : State :=
  let stale := ((s.encPubKeys.entries.map Prod.fst).filter fun op =>
    op ∉ ctx.bonded.map Prod.fst).take maxEncKeyGCPerBlock
  stale.foldl deleteEncPubKey s

/-! ## Rounds -/

/-- Open the round of `epoch` for these members. -/
def openRound (epoch : Nat) (members : List RoundMember) (hash : Bytes) (h : Nat) (p : Params)
    (attempt : Nat) : Option State :=
  (if p.dkgTransparent then
    (allocateEvalPoints X.sha256 members p.effectiveShareBudget epoch).map fun ms =>
      (ms, stakeThreshold ms p.dkgStrictConcentration)
   else some (members, roundThreshold p members.length)).map fun mt =>
    let dealDeadline := addSat h (max p.dkgDealWindow minComplaintWindowBlocks)
    let round : DkgRound :=
      { epoch := epoch, openHeight := h, dealDeadline := dealDeadline
        complaintDeadline := addSat dealDeadline
          (max p.dkgComplaintWindow (complaintWindowFloor mt.1.length))
        members := mt.1, threshold := mt.2, membersHash := hash, status := .isOpen
        attempt := attempt }
    { s with rounds := s.rounds.put round, currentEpoch := epoch }

/-- Reopen a failed round once its backoff has elapsed. -/
def retryFailedRound (prevEpoch : Nat) (lastRound : DkgRound) (members : List RoundMember)
    (hash : Bytes) (h : Nat) (p : Params) : Option State :=
  if h < addSat lastRound.complaintDeadline (retryBackoff p lastRound.attempt) then some s
  else (s.purgeFailedRound prevEpoch).openRound X (wrap64 (prevEpoch + 1)) members hash h p
    (wrap64 (lastRound.attempt + 1))

/-- The record of the latest opened round. -/
def lastRound : Option DkgRound :=
  if 0 < s.currentEpoch then s.rounds.get? s.currentEpoch else none

/-- Finalize the latest round if it is open and `due`. -/
def finalizeIf (due : DkgRound → Bool) : State :=
  match s.lastRound with
  | some round => if round.status = .isOpen ∧ due round then s.finalizeRound X round else s
  | none => s

/-- Whether too few evaluation points dealt, with the deal window over and complaints pending. -/
def failsEarly (h : Nat) (round : DkgRound) : Bool :=
  round.dealDeadline < h ∧ h < round.complaintDeadline
    ∧ s.dealingWeightUpperBound round < round.threshold

/-- The decision of the block: which round to open, if any. -/
def rekeyStep (p : Params) : Option State :=
  let h := ctx.height
  let cur := s.currentEpoch
  let active := activeMembers ctx s p
  let hash := membersHash X active
  match s.lastRound with
  | none => s.openRound X (wrap64 (cur + 1)) active hash h p 1
  | some lastRound =>
    if lastRound.membersHash ≠ hash then
      if rekeyDampened s p h then
        if lastRound.status = .failed then
          s.retryFailedRound X cur lastRound lastRound.members lastRound.membersHash h p
        else some s
      else
        let s := if lastRound.status = .active then s.purgeDealingsIfDrained p cur
          else s.purgeFailedRound cur
        { s with lastRekeyHeight := h }.openRound X (wrap64 (cur + 1)) active hash h p 1
    else if lastRound.status = .active then
      (stakeDriftRekeyDue s lastRound active h p).bind fun due =>
        if due then
          -- the drift is recomputed for the event, so it can panic here too
          (committeeMaxCoalitionDriftBps lastRound.members active).bind fun _ =>
            let s := { s.purgeDealingsIfDrained p cur with lastRekeyHeight := h }
            (s.resetDecryptStrandStreak cur).openRound X (wrap64 (cur + 1)) active hash h p 1
        else some s
    else if lastRound.status = .failed then
      s.retryFailedRound X cur lastRound active hash h p
    else some s

/-- Whether the DKG may run at this height. -/
def dkgRunnable (p : Params) : Bool :=
  p.dkgEnabled
    ∧ (p.dkgTransparent →
        (match ctx.voteExtEnableHeight with
          | none => false
          | some v => decide (v ≠ 0 ∧ v ≤ ctx.height)) = true
        ∧ (match ctx.maxBlockBytes with
          | none => true
          | some b => decide (b ≤ 0) || p.dkgInjectedCommitFitsMaxTxBytes b) = true)
    ∧ p.dkgStartHeight ≤ ctx.height

/-- The maintenance every runnable block does before looking at the rounds. -/
def endBlockMaintenance : State :=
  let s := s.advancePrecomputeShareKeys X
  if ctx.height % 64 = 0 then s.gcStaleEncKeys ctx else s

/-- Close the latest round if it is due. -/
def finalizeDue : State :=
  let s := s.finalizeIf X (fun r => r.complaintDeadline ≤ ctx.height)
  s.finalizeIf X (s.failsEarly ctx.height)

/-- The body of the block handler; `none` is a recovered panic. -/
def endBlockBody : Option State :=
  let p := s.params
  if dkgRunnable ctx p = false then some s
  else
    let s := (s.endBlockMaintenance X ctx).finalizeDue X ctx
    if s.lastRound.any (fun r => r.status = .isOpen) then some s
    else if (activeMembers ctx s p).length = 0 then some s
    else s.rekeyStep X ctx p

/-- The block handler: a panic rolls back every write. -/
def endBlockDKG : State :=
  (s.endBlockBody X ctx).getD s

end State

end EncMempool
