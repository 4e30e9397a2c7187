import Limonata.EncMempool.Chain

/-!
# x/encmempool — the abstract store: what a handler may write

`Write X ctx w s s'` is one write of the keeper at a block `ctx`, together with what the code has
checked by the time it makes it. Every handler but two is a run of such writes (`Simulation`), so an
invariant is proved once, by cases over the writes, and holds along every run of the chain. The two
left out are single writes of their own: a params update and a share on the legacy message path.

The writes are the coarsest ones every invariant survives: a ciphertext leaves together with its
shares, its references and, if it was the last one, its epoch; a round becomes active together with
its key, and the epoch that served before is pruned in the same write.
-/

namespace EncMempool

open Machine Check State

variable {X : External} {ctx : Ctx} {w : Wraps} {s s' : State} {epoch h attempt : Nat}
  {members : List RoundMember} {hash : Bytes} {p : Params}

/-- The state without what no rule on rounds, keys or ciphertexts depends on: the commit-reveal
records, the submit rates, the rekey clock and the logs. -/
def State.core (s : State) : State :=
  { s with
    seq := 0, commits := .empty, pending := .empty, globalCommitCount := none
    senderCommitCounts := .empty, submitRates := .empty, globalSubmitRates := .empty
    lastRekeyHeight := 0, bankOps := [], revealsExecuted := [] }

/-- The compressed public share key of a point under the commitments of a key. -/
def IsShareKey (X : External) (publicCommitments : List Bytes) (index : Nat) (y : Bytes) : Prop :=
  ∃ comm Y, parseCommitmentPoints X publicCommitments = some comm
    ∧ sharePubKey X index comm = some Y ∧ y = X.serializeCompressed Y

/-- How a stored dealing was admitted: on a vote extension, or by a message of a member's account. -/
def Admitted (X : External) (round : DkgRound) (d : Dealing) : Prop :=
  (d.dealerIndex = memberIndexByOperator round.members d.dealer
    ∧ validateDealingShape X round d.commitments d.encShares = .ok ())
  ∨ (d.dealer ≠ [] ∧ d.dealerIndex = memberIndexByAccount round d.dealer
    ∧ d.commitments.length = round.threshold
    ∧ (parseCommitmentPoints X d.commitments).isSome = true
    ∧ d.encShares.length = round.members.length
    ∧ checkDealShares X round d.encShares = .ok ())

/-- The outcome of the aggregation of a round's dealings. -/
def State.finalizeResult (X : External) (s : State) (round : DkgRound) :
    Except FinalizeError PublicResult :=
  finalizePublicWeighted X (round.members.map RoundMember.index) round.threshold
    ((s.dealings.entries.filter (fun d => d.epoch = round.epoch)).map fun d =>
      { dealer := d.dealerIndex, commitments := d.commitments })
    ((s.complaints.entries.filter (fun c => c.epoch = round.epoch)).map DkgComplaintRec.against)
    (fun i => (memberPoints round.members i).getD 1) round.threshold

/-- The store after a ciphertext left, before its epoch is considered for pruning. -/
def State.withoutEncTx (s : State) (e : EncTx) : State :=
  { s with
    encTxs := s.encTxs.del (key2 e.decryptHeight e.seq)
    encShares := s.encShares.delWhere (shareOf e.decryptHeight e.seq)
    rejectedShares := s.rejectedShares.delWhere (shareOf e.decryptHeight e.seq)
    globalEncCount := decCount s.globalEncCount
    submitterEncCounts := s.submitterEncCounts.update e.submitter decCount
    epochEncCounts := if 0 < e.epoch then s.epochEncCounts.update e.epoch decCount
      else s.epochEncCounts }

/-- The key installed for a round. -/
def installedKey (round : DkgRound) (res : PublicResult) : ActiveThresholdKey :=
  { epoch := round.epoch, pub := res.pub, publicCommitments := res.publicCommitments
    threshold := round.threshold, qual := res.qual }

/-- What a run of writes may do: wrap the 64-bit ciphertext sequence, wrap the epoch counter, and
make the writes of the end-block. -/
structure Wraps where
  seq : Prop
  epoch : Prop
  endBlock : Prop

/-- One write of the keeper, with what has been checked before it. -/
inductive Write (X : External) (ctx : Ctx) (w : Wraps) : State → State → Prop
  | ledger {s s' : State} (h : s'.core = s.core) : Write X ctx w s s'
  | announce {s : State} {operator key : Bytes} (hop : operator ≠ [])
      (hkey : validCompressedPoint X key = true)
      (howner : ∀ o, s.getEncKeyOwner key = some o → o = operator) :
      Write X ctx w s { s with
        encPubKeys := s.encPubKeys.assign operator key
        encKeyOwners := (s.ownersWithout operator).assign key operator
        encKeyRotated := s.encKeyRotated.assign operator ctx.height }
  | dropKey {s : State} (operator : Bytes) : Write X ctx w s (s.deleteEncPubKey operator)
  | submit {s : State} {submitter a nonce body : Bytes} {epoch : Nat}
      (henabled : s.params.encEnabled = true)
      (hroom : 0 < s.params.maxInFlightEncTx → s.getGlobalEncCount < s.params.maxInFlightEncTx)
      (ha : validCompressedPoint X a = true) (hnonce : nonce.length = nonceSize)
      (hbody : 0 < body.length) (hepoch : epoch = 0 ∨ epoch = s.activeEpoch)
      (hseq : w.seq ∨ s.encSeq + 1 < 2 ^ 64) :
      Write X ctx w s
        (s.submitEncTx submitter ctx.height s.params.decryptDelay a nonce body epoch).1
  | stamp {s : State} {e : EncTx} {bond : Nat} {denom : Bytes} (he : e ∈ s.encTxs.entries)
      (henabled : s.params.encEnabled = true) :
      Write X ctx w s
        (s.stampBond e bond denom (bond * s.params.encSubmitBondBurnBps / 10000))
  | release {s : State} {e : EncTx} (he : e ∈ s.encTxs.entries) :
      Write X ctx w s ((s.withoutEncTx e).maybePruneEpoch e.epoch)
  | storeShare {s : State} {operator : Bytes} {sh : VoteExtShare} {member : RoundMember} {e : EncTx}
      (hclass : s.classifyDecryptShare operator sh = some (member, e))
      (hmature : sh.decryptHeight ≤ ctx.height)
      (hproof : s.verifyDecryptShareDLEQ X e.epoch e.a sh.index sh.d sh.proof = true) :
      Write X ctx w s { s with encShares := s.encShares.put (sh.verifiedBy operator) }
  | rejectShare {s : State} {operator : Bytes} {sh : VoteExtShare} {member : RoundMember}
      {e : EncTx} (hclass : s.classifyDecryptShare operator sh = some (member, e)) :
      Write X ctx w s { s with
        rejectedShares := s.rejectedShares.assign (key3 sh.decryptHeight sh.seq sh.index) () }
  | purge {s : State} {round : DkgRound} (hlast : s.lastRound = some round)
      (hactive : round.status = .active)
      (hdrained : s.params.dkgRetainActiveDealings = true →
        s.currentEpoch ≠ s.activeEpoch ∧ s.getEpochEncCount s.currentEpoch = 0)
      (hend : w.endBlock) : Write X ctx w s (s.purgeDealings s.currentEpoch)
  | openRound {s base s' : State} {members : List RoundMember} {hash : Bytes} {attempt : Nat}
      (hbase : (base = s ∧ ∀ r, s.lastRound = some r → r.status = .active)
        ∨ (base = s.purgeFailedRound s.currentEpoch
          ∧ ∃ r, s.lastRound = some r ∧ r.status ≠ .active ∧ r.status ≠ .isOpen))
      (hmembers : (members = activeMembers ctx s s.params ∧ members.length ≠ 0)
        ∨ ∃ r, s.lastRound = some r ∧ r.status = .failed ∧ members = r.members)
      (henabled : s.params.dkgEnabled = true) (hnext : w.epoch ∨ s.currentEpoch + 1 < 2 ^ 64)
      (hopen : base.openRound X (wrap64 (s.currentEpoch + 1)) members hash ctx.height s.params
        attempt = some s') (hend : w.endBlock) : Write X ctx w s s'
  | failRound {s : State} {round : DkgRound} (hlast : s.lastRound = some round)
      (hopen : round.status = .isOpen) (hend : w.endBlock) :
      Write X ctx w s { s with rounds := s.rounds.put { round with status := .failed } }
  | activate {s : State} {round : DkgRound} {res : PublicResult} {sk : KVStore Key2 Bytes}
      {cu : KVStore Nat Nat} (hlast : s.lastRound = some round) (hopen : round.status = .isOpen)
      (hres : s.finalizeResult X round = .ok res)
      (hsk : ∀ e i y, sk.lookup (key2 e i) = some y → s.shareKeys.lookup (key2 e i) = some y
        ∨ (e = round.epoch ∧ IsShareKey X res.publicCommitments i y))
      (hcu : ∀ e, (cu.lookup e).isSome = true →
        (s.shareKeyCursors.lookup e).isSome = true ∨ e = round.epoch)
      (hwarm : { s with activeKeys := s.activeKeys.put (installedKey round res) }.precomputeShareKeys
          X round.epoch res.publicCommitments (totalEvalPoints round.members)
        = { s with
            activeKeys := s.activeKeys.put (installedKey round res)
            shareKeys := sk
            shareKeyCursors := cu })
      (hend : w.endBlock) :
      Write X ctx w s (maybePruneEpoch { s with
        activeKeys := s.activeKeys.put (installedKey round res)
        shareKeys := sk
        shareKeyCursors := cu
        activeEpoch := round.epoch
        rounds := s.rounds.put { round with status := .active } } s.activeEpoch)
  | deal {s : State} {round : DkgRound} {d : Dealing} (hround : s.rounds.get? d.epoch = some round)
      (hopen : round.status = .isOpen) (hdealer : d.dealerIndex ≠ 0) (hadm : Admitted X round d) :
      Write X ctx w s { s with dealings := s.dealings.put d }
  | complain {s : State} {c : DkgComplaintRec} (hround : (s.rounds.get? c.epoch).isSome = true) :
      Write X ctx w s { s with complaints := s.complaints.put c }
  | rejectComplaint {s : State} {epoch against accuser point : Nat}
      (hround : (s.rounds.get? epoch).isSome = true) :
      Write X ctx w s (s.setComplaintRejected epoch against accuser point)
  | streaks {s : State} {st : KVStore Nat Nat}
      (hst : ∀ e, (st.lookup e).isSome = true → (s.strandStreaks.lookup e).isSome = true
        ∨ (s.activeKeys.get? e).isSome = true ∨ ∃ tx ∈ s.encTxs.entries, tx.epoch = e) :
      Write X ctx w s { s with strandStreaks := st }
  | cache {s : State} {sk : KVStore Key2 Bytes} {cu : KVStore Nat Nat}
      (hsk : ∀ e i y, sk.lookup (key2 e i) = some y → s.shareKeys.lookup (key2 e i) = some y
        ∨ ((s.shareKeyCursors.lookup e).isSome = true
          ∧ ∃ ak, s.activeKeys.get? e = some ak ∧ IsShareKey X ak.publicCommitments i y))
      (hcu : ∀ e, (cu.lookup e).isSome = true → (s.shareKeyCursors.lookup e).isSome = true)
      (hadvance : ∃ epoch budget, 0 < budget ∧ (s.advanceEpochPrecompute X epoch budget).1
        = { s with shareKeys := sk, shareKeyCursors := cu }) (hend : w.endBlock) :
      Write X ctx w s { s with shareKeys := sk, shareKeyCursors := cu }

/-- A run of writes at one block. -/
abbrev Writes (X : External) (ctx : Ctx) (w : Wraps) : State → State → Prop :=
  Relation.ReflTransGen (Write X ctx w)

/-- The state without what the DKG and the share paths write. -/
def State.accounts (s : State) : State :=
  { s with
    encShares := .empty, rejectedShares := .empty, rounds := .empty, dealings := .empty
    complaints := .empty, rejectedComplaints := .empty, activeKeys := .empty
    shareKeys := .empty, shareKeyCursors := .empty, strandStreaks := .empty, currentEpoch := 0
    activeEpoch := 0, lastRekeyHeight := 0, encPubKeys := .empty, encKeyOwners := .empty
    encKeyRotated := .empty }

/-- The ciphertexts in flight and their counters. -/
def State.pool (s : State) : State :=
  { init with
    params := s.params, encSeq := s.encSeq, encTxs := s.encTxs, globalEncCount := s.globalEncCount
    submitterEncCounts := s.submitterEncCounts, epochEncCounts := s.epochEncCounts }

/-- The pool with the shares of its ciphertexts. -/
def State.inFlight (s : State) : State :=
  { s.pool with encShares := s.encShares, rejectedShares := s.rejectedShares }

/-- The rounds up to the current epoch, with their dealings and keys. -/
def State.material (s : State) : State :=
  { init with
    rounds := s.rounds, dealings := s.dealings, activeKeys := s.activeKeys
    currentEpoch := s.currentEpoch }

/-- The material with the other records of a round and those derived from its key. -/
def State.dkg (s : State) : State :=
  { s.material with
    complaints := s.complaints, rejectedComplaints := s.rejectedComplaints
    shareKeys := s.shareKeys, shareKeyCursors := s.shareKeyCursors
    strandStreaks := s.strandStreaks, activeEpoch := s.activeEpoch }

/-- A write of the DKG or of the share paths. -/
def DkgWrite (X : External) (ctx : Ctx) (w : Wraps) (s s' : State) : Prop :=
  Write X ctx w s s' ∧ s'.accounts = s.accounts

abbrev DkgWrites (X : External) (ctx : Ctx) (w : Wraps) : State → State → Prop :=
  Relation.ReflTransGen (DkgWrite X ctx w)

theorem DkgWrites.writes (h : DkgWrites X ctx w s s') : Writes X ctx w s s' :=
  Relation.ReflTransGen.mono (fun _ _ hwrite => hwrite.1) _ _ h

theorem DkgWrites.accounts (h : DkgWrites X ctx w s s') : s'.accounts = s.accounts :=
  Reach.run_keeps (I := fun t : State => t.accounts = s.accounts)
    (fun _ _ hwrite ht => hwrite.2.trans ht) h rfl

/-! ## What the coarse writes leave alone -/

/-- A prune leaves the store alone, or removes every record of an epoch that is neither zero,
serving, current nor counted. -/
theorem State.maybePruneEpoch_cases (s : State) (ep : Nat) :
    (s.maybePruneEpoch ep = s
      ∧ (ep = 0 ∨ ep = s.activeEpoch ∨ ep = s.currentEpoch ∨ s.getEpochEncCount ep ≠ 0))
    ∨ (ep ≠ s.activeEpoch ∧ ep ≠ s.currentEpoch ∧ s.getEpochEncCount ep = 0 ∧ ep ≠ 0
      ∧ s.maybePruneEpoch ep = { s with
        dealings := s.dealings.delWhere (fun k => keyHead k = ep)
        complaints := s.complaints.delWhere (fun k => keyHead k = ep)
        rejectedComplaints := s.rejectedComplaints.delWhere (fun k => keyHead k = ep)
        activeKeys := s.activeKeys.del ep
        shareKeys := s.shareKeys.delWhere (fun k => keyHead k = ep)
        shareKeyCursors := s.shareKeyCursors.del ep
        strandStreaks := s.strandStreaks.del ep
        rounds := s.rounds.del ep }) := by
  unfold State.maybePruneEpoch
  by_cases hzero : ep = 0
  · rw [if_pos hzero]
    exact .inl ⟨rfl, .inl hzero⟩
  rw [if_neg hzero]
  by_cases hlive : ep = s.activeEpoch ∨ ep = s.currentEpoch
  · rw [if_pos hlive]
    exact .inl ⟨rfl, .inr (hlive.imp_right .inl)⟩
  rw [if_neg hlive]
  by_cases hcount : s.getEpochEncCount ep ≠ 0
  · rw [if_pos hcount]
    exact .inl ⟨rfl, .inr (.inr (.inr hcount))⟩
  rw [if_neg hcount]
  exact .inr ⟨(not_or.mp hlive).1, (not_or.mp hlive).2, not_not.mp hcount, hzero, rfl⟩

theorem State.maybePruneEpoch_accounts (s : State) (epoch : Nat) :
    (s.maybePruneEpoch epoch).accounts = s.accounts := by
  unfold maybePruneEpoch
  split_ifs <;> rfl

theorem State.maybePruneEpoch_inFlight (s : State) (epoch : Nat) :
    (s.maybePruneEpoch epoch).inFlight = s.inFlight := by
  unfold maybePruneEpoch
  split_ifs <;> rfl

theorem State.maybePruneEpoch_frame (s : State) (epoch : Nat) :
    ∃ d c rc ak sk cu st r, s.maybePruneEpoch epoch = { s with
      dealings := d, complaints := c, rejectedComplaints := rc, activeKeys := ak, shareKeys := sk
      shareKeyCursors := cu, strandStreaks := st, rounds := r } := by
  unfold maybePruneEpoch
  split_ifs
  · exact ⟨_, _, _, _, _, _, _, _, rfl⟩
  · exact ⟨_, _, _, _, _, _, _, _, rfl⟩
  · exact ⟨_, _, _, _, _, _, _, _, rfl⟩
  · exact ⟨_, _, _, _, _, _, _, _, rfl⟩

theorem State.openRound_spec (hopen : s.openRound X epoch members hash h p attempt = some s') :
    ∃ r : DkgRound, r.epoch = epoch ∧ r.status = .isOpen ∧ r.openHeight = h
      ∧ r.dealDeadline = addSat h (max p.dkgDealWindow minComplaintWindowBlocks)
      ∧ r.complaintDeadline = addSat r.dealDeadline
        (max p.dkgComplaintWindow (complaintWindowFloor r.members.length))
      ∧ (if p.dkgTransparent then
          allocateEvalPoints X.sha256 members p.effectiveShareBudget epoch = some r.members
            ∧ r.threshold = stakeThreshold r.members p.dkgStrictConcentration
        else r.members = members ∧ r.threshold = roundThreshold p members.length)
      ∧ s' = { s with rounds := s.rounds.put r, currentEpoch := epoch } := by
  obtain ⟨mt, hmt, rfl⟩ := Option.map_eq_some_iff.mp hopen
  refine ⟨_, rfl, rfl, rfl, rfl, rfl, ?_, rfl⟩
  split_ifs at hmt ⊢ with htransparent
  · obtain ⟨ms, hms, rfl⟩ := Option.map_eq_some_iff.mp hmt
    exact ⟨hms, rfl⟩
  · cases hmt
    exact ⟨rfl, rfl⟩

theorem State.openRound_inFlight {base : State}
    (hbase : base = s ∨ base = s.purgeFailedRound s.currentEpoch)
    (hopen : base.openRound X epoch members hash h p attempt = some s') :
    s'.inFlight = s.inFlight := by
  obtain ⟨-, -, -, -, -, -, -, rfl⟩ := openRound_spec hopen
  obtain rfl | rfl := hbase <;> rfl

theorem State.openRound_accounts (hopen : s.openRound X epoch members hash h p attempt = some s') :
    s'.accounts = s.accounts := by
  obtain ⟨-, -, -, -, -, -, -, rfl⟩ := openRound_spec hopen
  rfl

end EncMempool
