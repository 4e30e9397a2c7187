import Limonata.EncMempool.Writes

/-!
# x/encmempool — every handler is a run of writes

For each handler one lemma says that its result is reached from its input by `Writes`. Loops go by
induction on their list; a panic and a rejection leave the state alone, which is the empty run.
`step_writes` collects them over the actions of the chain.
-/

namespace EncMempool

open Machine Check RecStore KVStore State
open Relation (ReflTransGen)

variable {X : External} {ctx : Ctx} {w : Wraps}

/-- The state without the commit-reveal records and the log of executed reveals. -/
def State.offReveal (s : State) : State :=
  { s with
    commits := .empty, pending := .empty, globalCommitCount := none
    senderCommitCounts := .empty, revealsExecuted := [] }

variable {s t s' : State} {round : DkgRound} {e : EncTx} {p : Params} {es : List EncTx}
    {exec : Executor}

namespace State

variable {msg : MsgSubmitEncrypted} {epoch cur : Nat} {escrowed execOn : Bool} {s₀ : State}
  {operator : Bytes} {es' : List EncTx}

/-! ## The commit-reveal half -/

theorem deleteCommit_offReveal (s : State) (height : Nat) (sender : Bytes) (seq : Nat) :
    (s.deleteCommit height sender seq).offReveal = s.offReveal := by
  unfold deleteCommit
  simp only
  split <;> rfl

theorem revealPhase_offReveal (cur : Nat) (s : State) (p : Params) :
    (revealPhase cur s p).offReveal = s.offReveal := by
  have hreveals : ∀ prs : List PendingReveal, ∀ t : State,
      (prs.foldl executeReveal t).offReveal = t.offReveal := fun prs t =>
    Reach.foldl_keeps (I := fun u : State => u.offReveal = t.offReveal)
      (fun u pr _ hu => (deleteCommit_offReveal _ _ _ _).trans hu) rfl
  have hstale : ∀ cs : List Commit, ∀ t : State,
      (cs.foldl dropStaleCommit t).offReveal = t.offReveal := fun cs t =>
    Reach.foldl_keeps (I := fun u : State => u.offReveal = t.offReveal)
      (fun u c _ hu => (deleteCommit_offReveal u _ _ _).trans hu) rfl
  unfold revealPhase
  simp only
  split
  · exact (hstale _ _).trans (hreveals _ _)
  · exact hreveals _ _

theorem revealPhase_frame (cur : Nat) (s : State) (p : Params) :
    ∃ c pr g sc l, revealPhase cur s p = { s with
      commits := c, pending := pr, globalCommitCount := g, senderCommitCounts := sc
      revealsExecuted := l } := by
  have hoff := revealPhase_offReveal cur s p
  generalize revealPhase cur s p = t at hoff ⊢
  refine ⟨t.commits, t.pending, t.globalCommitCount, t.senderCommitCounts, t.revealsExecuted, ?_⟩
  cases s
  cases t
  cases hoff
  rfl

theorem revealPhase_core (cur : Nat) (s : State) (p : Params) :
    (revealPhase cur s p).core = s.core :=
  (congrArg core (revealPhase_offReveal cur s p) : _)

theorem commitTx_frame {msg : MsgCommitTx} (h : s.commitTx ctx msg = .ok s') :
    ∃ n c g sc, s' = { s with
      seq := n, commits := s.commits.put c, globalCommitCount := g, senderCommitCounts := sc } := by
  simp only [commitTx, bind_unit_eq_ok] at h
  obtain ⟨-, -, -, h⟩ := h
  cases h
  unfold setCommit
  simp only
  split_ifs <;> exact ⟨_, _, _, _, rfl⟩

theorem revealTx_frame {msg : MsgRevealTx} (h : s.revealTx X ctx msg = .ok s') :
    ∃ pr, s' = { s with pending := s.pending.put pr } := by
  unfold revealTx at h
  split at h
  · cases h
  · simp only [bind_unit_eq_ok] at h
    obtain ⟨-, -, -, -, -, h⟩ := h
    cases h
    exact ⟨_, rfl⟩

/-! ## Messages on ciphertexts and rounds -/

/-- **What an accepted submission has passed.** -/
theorem admitSubmission_spec (h : s.admitSubmission X ctx msg = .ok (t, epoch)) :
    (∃ sr, t = { s with
        submitRates := sr
        globalSubmitRates := s.globalSubmitRates.assign ctx.height
          (wrap64 ((s.globalSubmitRates.lookup ctx.height).getD 0 + 1)) })
      ∧ wrap64 ((s.globalSubmitRates.lookup ctx.height).getD 0 + 1) ≤ maxEncSubmitsPerBlockGlobal
      ∧ s.params.encEnabled = true
      ∧ (0 < s.params.maxInFlightEncTx → s.getGlobalEncCount < s.params.maxInFlightEncTx)
      ∧ validCompressedPoint X msg.a = true ∧ msg.nonce.length = nonceSize
      ∧ 0 < msg.body.length ∧ (epoch = 0 ∨ epoch = s.activeEpoch) := by
  simp only [admitSubmission, bind_unit_eq_ok, rejectIf_eq_ok] at h
  obtain ⟨henabled, -, hne, ha, hnonce, -, h⟩ := h
  split at h
  · cases h
  · simp only [bind_unit_eq_ok, rejectIf_eq_ok] at h
    obtain ⟨hroom, -, -, hrate, -, h⟩ := h
    split at h
    · cases h
    · simp only [bind_unit_eq_ok, rejectIf_eq_ok, Except.ok.injEq, Prod.mk.injEq] at h
      obtain ⟨-, -, -, rfl, rfl⟩ := h
      refine ⟨⟨_, rfl⟩, Nat.not_lt.mp hrate, by simpa using henabled, fun hpos => ?_,
        by simpa using ha, by simpa using hnonce, by omega, ?_⟩
      · exact Nat.lt_of_not_le fun hle => hroom ⟨hpos, hle⟩
      · split_ifs
        · exact .inr rfl
        · exact .inl rfl

theorem submitEncrypted_writes (hseq : w.seq ∨ s.encSeq + 1 < 2 ^ 64)
    (h : s.submitEncrypted X ctx escrowed msg = .ok s') : Writes X ctx w s s' := by
  unfold submitEncrypted at h
  cases hadm : s.admitSubmission X ctx msg with
  | error err => simp [hadm] at h
  | ok r =>
    obtain ⟨⟨sr, hrates⟩, -, henabled, hroom, ha, hnonce, hbody, hepoch⟩ :=
      admitSubmission_spec hadm
    simp only [hadm, hrates] at h
    -- the checks read fields that the rate counters and the escrow log leave alone
    have hledger : ∀ sr gr ops, Write X ctx w s
      { s with submitRates := sr, globalSubmitRates := gr, bankOps := ops } := fun _ _ _ => .ledger rfl
    split_ifs at h with hbond
    · cases h
      exact .head (hledger _ _ _)
        (.single (.submit henabled hroom ha hnonce hbody hepoch hseq))
    · simp only [bind_unit_eq_ok] at h
      obtain ⟨-, -, -, h⟩ := h
      cases h
      refine .tail ?_ (.stamp ?_ ?_)
      · exact .head (hledger _ _ _)
          (.single (.submit henabled hroom ha hnonce hbody hepoch hseq))
      · exact (mem_put_iff _ _ _).mpr (.inl rfl)
      · exact henabled

/-- What an accepted submission writes. -/
theorem submitEncrypted_frame (h : s.submitEncrypted X ctx escrowed msg = .ok s') :
    ∃ sr gr txs q g sc ec ops, s' = { s with
      submitRates := sr, globalSubmitRates := gr, encTxs := txs, encSeq := q, globalEncCount := g
      submitterEncCounts := sc, epochEncCounts := ec, bankOps := ops } := by
  unfold submitEncrypted at h
  cases hadm : s.admitSubmission X ctx msg with
  | error err => simp [hadm] at h
  | ok r =>
    obtain ⟨⟨sr, hrates⟩, -⟩ := admitSubmission_spec hadm
    simp only [hadm, hrates] at h
    split_ifs at h
    · cases h
      exact ⟨_, _, _, _, _, _, _, _, rfl⟩
    · simp only [bind_unit_eq_ok] at h
      obtain ⟨-, -, -, h⟩ := h
      cases h
      exact ⟨_, _, _, _, _, _, _, _, rfl⟩

/-- An accepted dealing is one of an open round, in time. -/
theorem dkgDeal_spec {msg : MsgDkgDeal} (h : s.dkgDeal X ctx msg = .ok s') :
    ∃ round d, s.rounds.get? d.epoch = some round ∧ round.status = .isOpen
      ∧ ctx.height ≤ round.dealDeadline ∧ d.dealerIndex ≠ 0 ∧ Admitted X round d
      ∧ s' = { s with dealings := s.dealings.put d } := by
  simp only [dkgDeal, bind_unit_eq_ok] at h
  obtain ⟨-, -, h⟩ := h
  split at h
  · cases h
  · rename_i round hround
    simp only [bind_unit_eq_ok, rejectIf_eq_ok] at h
    obtain ⟨hopen, hdue, hidx, hcomm, hparse, hlen, hshares, -, h⟩ := h
    cases h
    refine ⟨round, _, hround, by simpa using hopen, Nat.not_lt.mp hdue, hidx,
      .inr ⟨msg.dealer.2, rfl, ?_⟩, rfl⟩
    exact ⟨by simpa using hcomm, by simpa [Option.isSome_iff_ne_none] using hparse,
      by simpa using hlen, hshares⟩

theorem dkgComplaint_spec {msg : MsgDkgComplaint} (h : s.dkgComplaint X ctx msg = .ok s') :
    ∃ c, (s.rounds.get? c.epoch).isSome = true
      ∧ s' = { s with complaints := s.complaints.put c } := by
  simp only [dkgComplaint, bind_unit_eq_ok] at h
  obtain ⟨-, -, h⟩ := h
  split at h
  · cases h
  · rename_i round hround
    simp only [bind_unit_eq_ok] at h
    obtain ⟨-, -, -, h⟩ := h
    split at h
    · cases h
    · simp only [bind_unit_eq_ok] at h
      obtain ⟨-, h⟩ := h
      cases h
      exact ⟨_, by rw [hround]; rfl, rfl⟩

theorem dkgDeal_writes {msg : MsgDkgDeal} (h : s.dkgDeal X ctx msg = .ok s') :
    DkgWrites X ctx w s s' := by
  obtain ⟨round, d, hround, hopen, -, hdealer, hadm, rfl⟩ := dkgDeal_spec h
  exact .single ⟨.deal hround hopen hdealer hadm, rfl⟩

theorem dkgComplaint_writes {msg : MsgDkgComplaint} (h : s.dkgComplaint X ctx msg = .ok s') :
    DkgWrites X ctx w s s' := by
  obtain ⟨c, hround, rfl⟩ := dkgComplaint_spec h
  exact .single ⟨.complain hround, rfl⟩

/-! ## Vote extensions -/

/-- What an announcement does: nothing, or an announced key that passed every check. -/
theorem recordEncPubKey_cases (s : State) (operator key pop : Bytes) :
    (s.recordEncPubKey X ctx operator key pop).1 = s
      ∨ (operator ≠ [] ∧ validCompressedPoint X key = true
        ∧ (∀ o, s.getEncKeyOwner key = some o → o = operator)
        ∧ (s.recordEncPubKey X ctx operator key pop).1 = { s with
          encPubKeys := s.encPubKeys.assign operator key
          encKeyOwners := (s.ownersWithout operator).assign key operator
          encKeyRotated := s.encKeyRotated.assign operator ctx.height }) := by
  unfold recordEncPubKey
  simp only
  split_ifs with hform hsame hpop howner hsoon
  · exact .inl rfl
  · exact .inl rfl
  · exact .inl rfl
  · exact .inl rfl
  · exact .inl rfl
  · simp only [not_or, Bool.not_eq_false] at hform
    refine .inr ⟨hform.1, hform.2.1, fun o ho => ?_, rfl⟩
    simpa [ho] using howner

theorem recordEncPubKey_writes (s : State) (operator key pop : Bytes) :
    DkgWrites X ctx w s (s.recordEncPubKey X ctx operator key pop).1 := by
  obtain hsame | ⟨hop, hkey, howner, hnew⟩ := @recordEncPubKey_cases X ctx s operator key pop
  · rw [hsame]
  · rw [hnew]
    exact .single ⟨.announce hop hkey howner, rfl⟩

theorem announcePhase_writes (s : State) (canon : List VEEntry) :
    DkgWrites X ctx w s (s.announcePhase X ctx canon) :=
  Reach.foldl_run (I := fun _ => True) (fun _ _ _ _ => trivial)
    (fun s _ _ _ => recordEncPubKey_writes s _ _ _) trivial

theorem get?_of_lastRound (h : s.lastRound = some round) :
    s.rounds.get? round.epoch = some round ∧ round.epoch = s.currentEpoch
      ∧ 0 < s.currentEpoch := by
  unfold lastRound at h
  split_ifs at h with hpos
  have hkey : round.epoch = s.currentEpoch := key_of_get? h
  exact ⟨hkey ▸ h, hkey, hpos⟩

theorem ingestDealingFromVE_writes
    (hround : s.rounds.get? round.epoch = some round) (hopen : round.status = .isOpen)
    (operator : Bytes) (d : VoteExtDealing) :
    DkgWrites X ctx w s (s.ingestDealingFromVE X round operator d).1 := by
  unfold ingestDealingFromVE
  simp only
  split_ifs with hepoch hidx hdup
  · exact .refl
  · exact .refl
  · exact .refl
  · split
    · exact .refl
    · rename_i hshape
      exact .single ⟨.deal hround hopen hidx (.inl ⟨rfl, hshape⟩), rfl⟩

@[simp] theorem ingestDealingFromVE_rounds (s : State) (round : DkgRound) (operator : Bytes)
    (d : VoteExtDealing) : (s.ingestDealingFromVE X round operator d).1.rounds = s.rounds := by
  unfold ingestDealingFromVE
  simp only
  split_ifs <;> try rfl
  split <;> rfl

theorem dealPhase_writes (s : State) (canon : List VEEntry) :
    DkgWrites X ctx w s (s.dealPhase X ctx canon) := by
  unfold dealPhase
  split
  · exact .refl
  · rename_i round hlast
    split_ifs with hdue
    · have hround := (get?_of_lastRound hlast).1
      refine Reach.foldl_run (I := fun t => t.rounds.get? round.epoch = some round) ?_ ?_ hround
      · intro t e _ ht
        split <;> simpa using ht
      · intro t e _ ht
        split
        · exact .refl
        · exact ingestDealingFromVE_writes ht hdue.1 _ _
    · exact .refl

/-- What the ingestion of complaints reads and never writes. -/
def SameRounds (s t : State) : Prop := t.rounds = s.rounds ∧ t.activeKeys = s.activeKeys

/-- A complaint does nothing, is stored, or burns the point. -/
theorem ingestComplaintFromVE_induct {P : ComplaintOutcome → Prop} {c : VoteExtComplaint}
    (hskip : P ⟨s, false, 0⟩)
    (hstore : ∀ a v, disputedPoint round operator c = some a →
      P ⟨s.setComplaint round.epoch c.against a.1, true, v⟩)
    (hreject : ∀ a v, disputedPoint round operator c = some a →
      P ⟨s.setComplaintRejected round.epoch c.against a.1 c.evalPoint, false, v⟩) :
    P (s.ingestComplaintFromVE X round operator c) := by
  unfold ingestComplaintFromVE
  split_ifs
  · exact hskip
  · split
    · exact hskip
    · rename_i hpoint
      split_ifs
      · exact hskip
      · exact hskip
      · split
        · exact hreject _ _ hpoint
        · simp only
          split_ifs
          · exact hstore _ _ hpoint
          · exact hreject _ _ hpoint

theorem ingestComplaintFromVE_writes
    (hround : s.rounds.get? round.epoch = some round) (operator : Bytes) (c : VoteExtComplaint) :
    DkgWrites X ctx w s (s.ingestComplaintFromVE X round operator c).state
      ∧ SameRounds s (s.ingestComplaintFromVE X round operator c).state := by
  have hsome : (s.rounds.get? round.epoch).isSome = true := by rw [hround]; rfl
  refine ingestComplaintFromVE_induct (P := fun o => DkgWrites X ctx w s o.state ∧ SameRounds s o.state)
    ⟨.refl, rfl, rfl⟩ (fun _ _ _ => ?_) fun _ _ _ => ?_
  · exact ⟨.single ⟨.complain hsome, rfl⟩, rfl, rfl⟩
  · exact ⟨.single ⟨.rejectComplaint hsome, rfl⟩, rfl, rfl⟩

theorem forceDecryptHealthRekey_writes (hkey : (s.activeKeys.get? epoch).isSome = true) :
    DkgWrites X ctx w s (s.forceDecryptHealthRekey epoch)
      ∧ SameRounds s (s.forceDecryptHealthRekey epoch) := by
  unfold forceDecryptHealthRekey
  split_ifs
  · exact ⟨.refl, rfl, rfl⟩
  · refine ⟨.single ⟨.streaks fun e he => ?_, rfl⟩, rfl, rfl⟩
    rw [lookup_assign] at he
    split_ifs at he with heq
    · exact .inr (.inl (heq ▸ hkey))
    · exact .inl he

/-- A report does nothing, is stored and forces the rekey of an installed key, or burns the point. -/
theorem ingestPoisonReportFromVE_induct {P : ComplaintOutcome → Prop} {c : VoteExtComplaint}
    (hskip : P ⟨s, false, 0⟩)
    (hstore : ∀ idx v, (s.activeKeys.get? round.epoch).isSome = true →
      P ⟨(s.setComplaint round.epoch c.against idx).forceDecryptHealthRekey round.epoch, true, v⟩)
    (hreject : ∀ idx v,
      P ⟨s.setComplaintRejected round.epoch c.against idx c.evalPoint, false, v⟩) :
    P (s.ingestPoisonReportFromVE X round operator c) := by
  unfold ingestPoisonReportFromVE
  split
  · exact hskip
  · split
    · exact hskip
    · split_ifs with hqual
      · exact hskip
      · exact hskip
      · exact hskip
      · split
        · exact hskip
        · simp only
          split_ifs
          · refine hstore _ _ ?_
            cases hak : s.activeKeys.get? round.epoch with
            | none => simp [hak] at hqual
            | some ak => rfl
          · exact hreject _ _

theorem ingestPoisonReportFromVE_writes
    (hround : s.rounds.get? round.epoch = some round) (operator : Bytes) (c : VoteExtComplaint) :
    DkgWrites X ctx w s (s.ingestPoisonReportFromVE X round operator c).state
      ∧ SameRounds s (s.ingestPoisonReportFromVE X round operator c).state := by
  have hsome : (s.rounds.get? round.epoch).isSome = true := by rw [hround]; rfl
  refine ingestPoisonReportFromVE_induct
    (P := fun o => DkgWrites X ctx w s o.state ∧ SameRounds s o.state) ⟨.refl, rfl, rfl⟩
    (fun idx _ hkey => ?_) fun _ _ => ⟨.single ⟨.rejectComplaint hsome, rfl⟩, rfl, rfl⟩
  have hforce := @forceDecryptHealthRekey_writes X ctx w (s.setComplaint round.epoch c.against idx)
    round.epoch hkey
  exact ⟨.head ⟨.complain hsome, rfl⟩ hforce.1, hforce.2⟩

theorem ingestComplaints_writes {ingest : State → VoteExtComplaint → ComplaintOutcome} (hstep : ∀ s c, SameRounds s₀ s →
      DkgWrites X ctx w s (ingest s c).state ∧ SameRounds s (ingest s c).state)
    (cs : List VoteExtComplaint) (verifies : Nat) (hs : SameRounds s₀ s) :
    DkgWrites X ctx w s (ingestComplaints ingest verifies s cs).1
      ∧ SameRounds s₀ (ingestComplaints ingest verifies s cs).1 := by
  induction cs generalizing verifies s with
  | nil => exact ⟨.refl, hs⟩
  | cons c cs ih =>
    unfold ingestComplaints
    split_ifs
    · exact ⟨.refl, hs⟩
    · obtain ⟨hhead, hsame⟩ := hstep s c hs
      have htail := ih (verifies + (ingest s c).verifies)
        ⟨hsame.1.trans hs.1, hsame.2.trans hs.2⟩
      exact ⟨hhead.trans htail.1, htail.2⟩

theorem ingestEntries_writes {ingest : State → VEEntry → State × Nat}
    (hstep : ∀ s e, SameRounds s₀ s →
      DkgWrites X ctx w s (ingest s e).1 ∧ SameRounds s₀ (ingest s e).1)
    (es : List VEEntry) (hs : SameRounds s₀ s) :
    DkgWrites X ctx w s (ingestEntries ingest s es).1 := by
  induction es generalizing s with
  | nil => exact .refl
  | cons e es ih =>
    obtain ⟨hhead, hsame⟩ := hstep s e hs
    exact hhead.trans (ih hsame)

theorem complaintPhase_writes (s : State) (canon : List VEEntry) :
    DkgWrites X ctx w s (s.complaintPhase X ctx canon) := by
  unfold complaintPhase
  split
  · exact .refl
  · rename_i round hlast
    have hround := (get?_of_lastRound hlast).1
    split_ifs
    · refine ingestEntries_writes (fun t e ht => ?_) canon ⟨rfl, rfl⟩
      refine ingestComplaints_writes (fun u c hu => ?_) _ 0 ht
      exact ingestComplaintFromVE_writes (hu.1 ▸ hround) e.operator c
    · exact .refl

theorem poisonPhase_writes (s : State) (canon : List VEEntry) :
    DkgWrites X ctx w s (s.poisonPhase X canon).1 := by
  unfold poisonPhase
  split_ifs
  · exact .refl
  · split
    · exact .refl
    · rename_i round hround
      have hepoch : round.epoch = s.activeEpoch := key_of_get? hround
      rw [← hepoch] at hround
      split_ifs
      · refine ingestEntries_writes (fun t e ht => ?_) canon ⟨rfl, rfl⟩
        refine ingestComplaints_writes (fun u c hu => ?_) _ 0 ht
        exact ingestPoisonReportFromVE_writes (hu.1 ▸ hround) e.operator c
      · exact .refl

theorem verifyAndStoreDecryptShare_writes {sh : VoteExtShare} {member : RoundMember}
    (hclass : s.classifyDecryptShare operator sh = some (member, e))
    (hmature : sh.decryptHeight ≤ ctx.height) :
    DkgWrites X ctx w s (s.verifyAndStoreDecryptShare X e.epoch e.a operator sh).1 := by
  unfold verifyAndStoreDecryptShare
  split_ifs with hproof
  · exact .single ⟨.rejectShare hclass, rfl⟩
  · exact .single ⟨.storeShare hclass hmature (by simpa using hproof), rfl⟩

theorem ingestDecryptShareFromVE_writes (s : State) (operator : Bytes) (sh : VoteExtShare) :
    DkgWrites X ctx w s (s.ingestDecryptShareFromVE X ctx operator sh).1 := by
  unfold ingestDecryptShareFromVE
  split_ifs with hearly
  · exact .refl
  · split
    · exact .refl
    · rename_i hclass
      exact verifyAndStoreDecryptShare_writes hclass (Nat.not_lt.mp hearly)

/-- One share of the extensions is verified: it is stored, or burned. -/
inductive ShareStep (X : External) (ctx : Ctx) (canon : List VEEntry) : State → State → Prop
  | verify {s : State} {en : VEEntry} {sh : VoteExtShare} {member : RoundMember} {e : EncTx}
      (hen : en ∈ canon) (hsh : sh ∈ en.ve.shares) (hmature : sh.decryptHeight ≤ ctx.height)
      (hclass : s.classifyDecryptShare en.operator sh = some (member, e)) :
    ShareStep X ctx canon s (s.verifyAndStoreDecryptShare X e.epoch e.a en.operator sh).1

theorem ingestShares_run {processed : List Key2} {canon : List VEEntry} {en : VEEntry}
    (hmature : ∀ k ∈ processed, keyHead k ≤ ctx.height) (hen : en ∈ canon)
    {shares : List VoteExtShare} (hsub : shares ⊆ en.ve.shares) (s : State) (b : VerifyBudget) :
    ReflTransGen (ShareStep X ctx canon) s (ingestShares X p processed en.operator s b shares).1 := by
  induction shares generalizing s b with
  | nil => exact .refl
  | cons sh rest ih =>
    obtain ⟨hsh, hrest⟩ := List.cons_subset.mp hsub
    unfold ingestShares
    simp only
    split_ifs with hfull hskip
    · exact .refl
    · exact ih hrest s b
    · split
      · exact ih hrest s b
      · rename_i hclass
        split_ifs
        · exact ih hrest s b
        · exact .refl
        · simp only [not_or, not_not] at hskip
          exact .head (.verify hen hsh (hmature _ hskip.1) hclass) (ih hrest _ _)

theorem processedCiphertexts_mature (s : State) (h : Nat) :
    ∀ k ∈ s.processedCiphertexts h, keyHead k ≤ h := by
  intro k hk
  obtain ⟨e, he, rfl⟩ := List.mem_map.mp hk
  have hle : e.decryptHeight ≤ h := by simpa using List.mem_takeWhile_imp he
  exact hle

theorem ingestDecryptSharesBounded_run (s : State) (p : Params) (canon : List VEEntry) :
    ReflTransGen (ShareStep X ctx canon) s (s.ingestDecryptSharesBounded X ctx p canon) := by
  have hmature := s.processedCiphertexts_mature ctx.height
  unfold ingestDecryptSharesBounded
  generalize s.processedCiphertexts ctx.height = processed at hmature
  -- the budget is threaded through the fold together with the state
  exact Reach.foldl_keeps (I := fun acc : State × VerifyBudget => ReflTransGen (ShareStep X ctx canon) s acc.1)
    (fun acc en hen hacc => hacc.trans (ingestShares_run hmature hen (List.take_subset _ _) acc.1 acc.2)) .refl

theorem ingestDecryptSharesBounded_writes (s : State) (p : Params) (canon : List VEEntry) :
    DkgWrites X ctx w s (s.ingestDecryptSharesBounded X ctx p canon) := by
  refine Reach.run_keeps (I := fun t => DkgWrites X ctx w s t) (fun t t' hstep ht => ht.trans ?_)
    (ingestDecryptSharesBounded_run s p canon) .refl
  cases hstep with
  | verify _ _ hmature hclass => exact verifyAndStoreDecryptShare_writes hclass hmature

theorem consumeVoteExtensions_writes (s : State) (entries : List VEEntry) :
    DkgWrites X ctx w s (s.consumeVoteExtensions X ctx entries) := by
  unfold consumeVoteExtensions
  simp only
  split_ifs
  · exact .refl
  · unfold consumeDkg
    exact ((announcePhase_writes s _).trans (dealPhase_writes _ _)).trans
      (((complaintPhase_writes _ _).trans (poisonPhase_writes _ _)).trans
        (ingestDecryptSharesBounded_writes _ _ _))

/-! ## The begin-block handler -/

@[simp] theorem maybePruneEpoch_params (s : State) (epoch : Nat) :
    (s.maybePruneEpoch epoch).params = s.params := by
  unfold maybePruneEpoch
  split_ifs <;> rfl

/-- A release deletes the ciphertext, prunes its epoch and settles the bond. -/
theorem releaseEncTx_eq (s : State) (e : EncTx) : ∃ ops, s.releaseEncTx X e
    = { (s.withoutEncTx e).maybePruneEpoch e.epoch with bankOps := ops } := by
  have hrefund (u : State) : ∃ ops, u.refundBond X e = { u with bankOps := ops } := by
    unfold refundBond
    split_ifs <;> exact ⟨_, rfl⟩
  unfold releaseEncTx withoutEncTx
  split_ifs with hpos
  · exact hrefund _
  · have hzero : e.epoch = 0 := by omega
    simpa [hzero, maybePruneEpoch] using hrefund _

theorem releaseEncTx_core (s : State) (e : EncTx) :
    (s.releaseEncTx X e).core = ((s.withoutEncTx e).maybePruneEpoch e.epoch).core := by
  obtain ⟨ops, heq⟩ := @releaseEncTx_eq X s e
  rw [heq]
  rfl

theorem releaseEncTx_writes (he : e ∈ s.encTxs.entries) : Writes X ctx w s (s.releaseEncTx X e) :=
  .head (.release he) (.single (.ledger (releaseEncTx_core s e)))

theorem releaseEncTx_spec (s : State) (e : EncTx) :
    (s.releaseEncTx X e).encTxs = s.encTxs.del e.key
      ∧ (s.releaseEncTx X e).encShares = s.encShares.delWhere (shareOf e.decryptHeight e.seq)
      ∧ (s.releaseEncTx X e).rejectedShares
        = s.rejectedShares.delWhere (shareOf e.decryptHeight e.seq) := by
  obtain ⟨ops, heq⟩ := @releaseEncTx_eq X s e
  obtain ⟨d, c, rc, ak, sk, cu, st, r, hframe⟩ := maybePruneEpoch_frame (s.withoutEncTx e) e.epoch
  rw [heq, hframe]
  exact ⟨rfl, rfl, rfl⟩

/-- The ciphertexts of a list are stored, each once. -/
def Held (s : State) (es : List EncTx) : Prop := (∀ e ∈ es, e ∈ s.encTxs.entries) ∧ es.Nodup

theorem Held.perm (h : Held s es) (hperm : es'.Perm es) : Held s es' :=
  ⟨fun e he => h.1 e (hperm.mem_iff.mp he), hperm.nodup_iff.mpr h.2⟩

theorem Held.sublist (h : Held s es) (hsub : es'.Sublist es) : Held s es' :=
  ⟨fun e he => h.1 e (hsub.subset he), h.2.sublist hsub⟩

theorem Held.congr (h : Held s es) (hst : t.encTxs = s.encTxs) : Held t es :=
  ⟨fun e he => hst ▸ h.1 e he, h.2⟩

theorem Held.release (h : Held s (e :: es)) : Held (s.releaseEncTx X e) es := by
  obtain ⟨hmem, hnodup⟩ := h
  obtain ⟨hnew, hnodup⟩ := List.nodup_cons.mp hnodup
  refine ⟨fun x hx => ?_, hnodup⟩
  rw [(releaseEncTx_spec s e).1, mem_del_iff]
  have hxs : x ∈ s.encTxs.entries := hmem x (.tail _ hx)
  exact ⟨hxs, fun hkey => hnew (eq_of_key hxs (hmem e List.mem_cons_self) hkey ▸ hx)⟩

/-- One write of the decryption half of the block handler. -/
inductive BlockStep (X : External) : State → State → Prop
  | strand {s : State} {e : EncTx} (he : e ∈ s.encTxs.entries) :
    BlockStep X s (s.bumpDecryptStrandStreak e.epoch)
  | heal {s : State} (epoch : Nat) : BlockStep X s (s.resetDecryptStrandStreak epoch)
  | release {s : State} {e : EncTx} (he : e ∈ s.encTxs.entries) (hok : e.bondPanics X = false) :
    BlockStep X s (s.releaseEncTx X e)

abbrev BlockRun (X : External) : State → State → Prop := Relation.ReflTransGen (BlockStep X)

theorem releaseAll_run {rest : List EncTx} (h : Held s (es ++ rest))
    (hrel : s.releaseAll X es = some s') : BlockRun X s s' ∧ Held s' rest := by
  induction es generalizing s with
  | nil =>
    cases hrel
    exact ⟨.refl, h⟩
  | cons e es ih =>
    obtain ⟨t, ht, hrest⟩ := Option.bind_eq_some_iff.mp hrel
    unfold release? at ht
    split_ifs at ht with hok
    cases ht
    obtain ⟨hrun, hheld⟩ := ih h.release hrest
    exact ⟨.head (.release (h.1 e List.mem_cons_self) (Bool.eq_false_iff.mpr hok)) hrun, hheld⟩

/-- An attempt writes streaks only and leaves the ciphertexts alone; whether the ciphertext is
released is up to the pass. -/
def attemptRun (X : External) (s : State) : Attempt → Prop
  | .candidate => True
  | .deferExec t => BlockRun X s t ∧ t.encTxs = s.encTxs
  | .consume t _ => BlockRun X s t ∧ t.encTxs = s.encTxs

theorem tryDecrypt_run {remaining : Nat} (he : e ∈ s.encTxs.entries) :
    attemptRun X s (s.tryDecrypt X exec execOn cur p remaining e) := by
  have hreset : BlockRun X s (s.resetDecryptStrandStreak e.epoch) := .single (.heal e.epoch)
  unfold tryDecrypt
  split
  · exact ⟨.refl, rfl⟩
  · split_ifs
    · exact ⟨.single (.strand he), rfl⟩
    · trivial
  · exact ⟨.refl, rfl⟩
  · split
    · exact ⟨.refl, rfl⟩
    · simp only
      split_ifs
      · exact ⟨hreset, rfl⟩
      · split
        · exact ⟨hreset, rfl⟩
        · exact ⟨hreset, rfl⟩
        · exact ⟨hreset, rfl⟩

theorem decryptPass_run {ceiling : Nat}
    {selected : List Nat} (todo : List (EncTx × Nat)) {gasUsed : Nat} {cands : List EncTx}
    {kept : List EncTx} (h : Held s (todo.map Prod.fst ++ cands))
    (hpass : s.decryptPass X exec execOn cur p ceiling selected todo gasUsed cands
      = some (s', kept)) : BlockRun X s s' ∧ Held s' kept := by
  induction todo generalizing gasUsed cands s with
  | nil =>
    cases hpass
    exact ⟨.refl, h⟩
  | cons entry rest ih =>
    obtain ⟨e, i⟩ := entry
    have hrest : Held s (rest.map Prod.fst ++ cands) := h.sublist (List.sublist_cons_self _ _)
    have hcands : Held s cands := hrest.sublist (List.sublist_append_right _ _)
    have he : e ∈ s.encTxs.entries := h.1 e List.mem_cons_self
    have htry := @tryDecrypt_run X s e p exec cur execOn (ceiling - gasUsed) he
    unfold decryptPass at hpass
    by_cases hsel : i ∉ selected
    · rw [if_pos hsel] at hpass
      exact ih hrest hpass
    rw [if_neg hsel] at hpass
    split_ifs at hpass with hgas
    · cases hpass
      exact ⟨.refl, hcands⟩
    · split at hpass
      · refine ih (h.perm ?_) hpass
        rw [← List.append_assoc]
        exact List.perm_append_singleton _ _
      · rename_i t heq
        rw [heq] at htry
        cases hpass
        exact ⟨htry.1, hcands.congr htry.2⟩
      · rename_i t g heq
        rw [heq] at htry
        obtain ⟨u, hu, hpass⟩ := Option.bind_eq_some_iff.mp hpass
        unfold release? at hu
        split_ifs at hu with hok
        cases hu
        have ht : Held t (e :: (rest.map Prod.fst ++ cands)) := h.congr htry.2
        obtain ⟨hrun, hkept⟩ := ih ht.release hpass
        have hrelease : BlockStep X t (t.releaseEncTx X e) :=
          .release (ht.1 e List.mem_cons_self) (Bool.eq_false_iff.mpr hok)
        exact ⟨(htry.1.tail hrelease).trans hrun, hkept⟩

theorem held_matured (s : State) (h limit : Nat) : Held s (s.collectMaturedUpTo h limit).1 := by
  have hsub : ((s.collectMaturedUpTo h limit).1).Sublist s.encTxs.entries :=
    (List.take_sublist _ _).trans List.filter_sublist
  exact ⟨fun e he => hsub.subset he, s.encTxs.nodup_entries.sublist hsub⟩

theorem decryptMatured_run (h : s.decryptMatured X ctx exec p = some s') : BlockRun X s s' := by
  unfold decryptMatured at h
  simp only at h
  have hheld := s.held_matured ctx.height maxDecryptScanPerBlock
  generalize (s.collectMaturedUpTo ctx.height maxDecryptScanPerBlock).1 = matured at h hheld
  generalize s.ceilingDrops p matured.length = drop at h
  obtain ⟨t, hdrop, h⟩ := Option.bind_eq_some_iff.mp h
  obtain ⟨⟨u, cands⟩, hpass, hshed⟩ := Option.bind_eq_some_iff.mp h
  -- the dropped tail and the kept head together are the matured list
  have hsplit : Held s (matured.reverse.take drop ++ matured.take (matured.length - drop)) := by
    refine hheld.perm ?_
    rw [List.take_reverse]
    refine (List.Perm.append_right _ (List.reverse_perm _)).trans ?_
    exact List.perm_append_comm.trans (List.Perm.of_eq (List.take_append_drop _ _))
  obtain ⟨hrun, hkept⟩ := releaseAll_run hsplit hdrop
  have htodo : Held t (((matured.take (matured.length - drop)).zipIdx).map Prod.fst ++ []) := by
    simpa using hkept
  obtain ⟨hrun', hcands⟩ := decryptPass_run _ htodo hpass
  have hsub : ((cands.zipIdx.filter (fun c => c.2 ∉
      selectFairDecrypts cands maxDeferredDecryptsPerBlock)).map Prod.fst).Sublist cands := by
    have := (List.filter_sublist (p := fun c : EncTx × Nat => decide (c.2 ∉
      selectFairDecrypts cands maxDeferredDecryptsPerBlock)) (l := cands.zipIdx)).map Prod.fst
    simpa using this
  have hlast := @releaseAll_run X _ _ _ [] (by simpa using hcands.sublist hsub) hshed
  exact (hrun.trans hrun').trans hlast.1

theorem beginBlock_run (exec : Executor) (s : State) :
    s.beginBlock X ctx exec = s
      ∨ BlockRun X (revealPhase ctx.height (s.gcEncSubmitRate ctx.height) s.params)
        (s.beginBlock X ctx exec) := by
  unfold beginBlock
  cases hbody : s.beginBlockBody X ctx exec with
  | none => exact .inl rfl
  | some s' =>
    right
    unfold beginBlockBody at hbody
    simp only at hbody
    split_ifs at hbody with hon hcount
    · exact decryptMatured_run hbody
    · have hheld := held_matured (revealPhase ctx.height (s.gcEncSubmitRate ctx.height) s.params)
        ctx.height maxDecryptScanPerBlock
      exact (@releaseAll_run X _ _ _ [] (by simpa using hheld) hbody).1
    · cases hbody
      exact .refl

theorem bumpDecryptStrandStreak_writes (he : e ∈ s.encTxs.entries) :
    Writes X ctx w s (s.bumpDecryptStrandStreak e.epoch) := by
  refine .single (.streaks fun epoch hsome => ?_)
  rw [lookup_update] at hsome
  split_ifs at hsome with heq
  · exact .inr (.inr ⟨e, he, heq.symm⟩)
  · exact .inl hsome

theorem resetDecryptStrandStreak_writes (s : State) (epoch : Nat) :
    DkgWrites X ctx w s (s.resetDecryptStrandStreak epoch) := by
  refine .single ⟨.streaks fun e hsome => .inl ?_, rfl⟩
  rw [lookup_del] at hsome
  split_ifs at hsome
  · cases hsome
  · exact hsome

theorem BlockRun.writes (h : BlockRun X s s') : Writes X ctx w s s' := by
  induction h with
  | refl => exact .refl
  | tail _ hstep ih =>
    refine ih.trans ?_
    cases hstep with
    | strand he => exact bumpDecryptStrandStreak_writes he
    | heal epoch => exact (resetDecryptStrandStreak_writes _ epoch).writes
    | release he _ => exact releaseEncTx_writes he

theorem beginBlock_writes (exec : Executor) (s : State) :
    Writes X ctx w s (s.beginBlock X ctx exec) := by
  cases beginBlock_run exec s with
  | inl hsame =>
    rw [hsame]
  | inr hrun =>
    have hcore : (revealPhase ctx.height (s.gcEncSubmitRate ctx.height) s.params).core = s.core :=
      revealPhase_core _ _ _
    exact .head (.ledger hcore) hrun.writes

/-! ## The end-block handler -/

end State

theorem compressedShareKeys_getElem? {comm : List X.Point} {count index j : Nat} {ys : List Bytes}
    {y : Bytes} (h : compressedShareKeys X comm index count = some ys) (hj : ys[j]? = some y) :
    ∃ Y, sharePubKey X (index + j) comm = some Y ∧ y = X.serializeCompressed Y := by
  induction count generalizing index j ys with
  | zero =>
    cases h
    simp at hj
  | succ count ih =>
    obtain ⟨Y, hY, h⟩ := Option.bind_eq_some_iff.mp h
    obtain ⟨zs, hzs, rfl⟩ := Option.map_eq_some_iff.mp h
    cases j with
    | zero =>
      refine ⟨Y, hY, ?_⟩
      simpa using hj.symm
    | succ j =>
      obtain ⟨Y', hY', hy⟩ := ih hzs (by simpa using hj)
      exact ⟨Y', by rwa [Nat.add_assoc, Nat.add_comm 1 j] at hY', hy⟩

namespace State

theorem setShareKeys_eq (ys : List Bytes) (s : State) (epoch index : Nat) :
    s.setShareKeys epoch index ys
      = { s with shareKeys := (s.setShareKeys epoch index ys).shareKeys } := by
  induction ys generalizing s index with
  | nil => rfl
  | cons y ys ih => exact ih _ _

theorem setShareKeys_lookup (ys : List Bytes) (s : State) (epoch index e i : Nat) :
    (s.setShareKeys epoch index ys).shareKeys.lookup (key2 e i)
      = if e = epoch ∧ index ≤ i ∧ i < index + ys.length then ys[i - index]?
        else s.shareKeys.lookup (key2 e i) := by
  induction ys generalizing s index with
  | nil =>
    rw [if_neg (by simp only [List.length_nil]; omega)]
    rfl
  | cons y ys ih =>
    rw [setShareKeys, ih, List.length_cons]
    by_cases he : e = epoch ∧ i = index
    · -- the entry just written is below the range of the tail
      obtain ⟨rfl, rfl⟩ := he
      rw [if_neg (by omega), if_pos (by omega), Nat.sub_self]
      simp [lookup_assign]
    by_cases htail : e = epoch ∧ index + 1 ≤ i ∧ i < index + 1 + ys.length
    · rw [if_pos htail, if_pos (by omega), show i - index = (i - (index + 1)) + 1 by omega,
        List.getElem?_cons_succ]
    · rw [if_neg htail, if_neg (by omega), lookup_assign,
        if_neg (fun heq => he (key2_inj.mp heq))]

theorem warmShareKeyRange_spec (s : State) (epoch : Nat) (publicCommitments : List Bytes)
    {start : Nat} (stop : Nat) (hstart : 1 ≤ start) :
    ∃ sk, s.warmShareKeyRange X epoch publicCommitments start stop = { s with shareKeys := sk }
      ∧ ∀ e i y, sk.lookup (key2 e i) = some y → s.shareKeys.lookup (key2 e i) = some y
        ∨ (e = epoch ∧ IsShareKey X publicCommitments i y) := by
  unfold warmShareKeyRange
  cases hrange : shareKeysCompressedRange X publicCommitments start stop with
  | none => exact ⟨s.shareKeys, rfl, fun e i y h => .inl h⟩
  | some ys =>
    obtain ⟨comm, hcomm, hys⟩ := Option.bind_eq_some_iff.mp hrange
    refine ⟨_, setShareKeys_eq ys s epoch start, fun e i y h => ?_⟩
    rw [setShareKeys_lookup] at h
    split_ifs at h with hnew
    · rw [Nat.max_eq_left hstart] at hys
      obtain ⟨Y, hY, hy⟩ := compressedShareKeys_getElem? hys h
      rw [Nat.add_sub_cancel' hnew.2.1] at hY
      exact .inr ⟨hnew.1, comm, Y, hcomm, hY, hy⟩
    · exact .inl h

theorem precomputeShareKeys_spec (s : State) (epoch : Nat) (publicCommitments : List Bytes)
    (S : Nat) : ∃ sk cu, s.precomputeShareKeys X epoch publicCommitments S
        = { s with shareKeys := sk, shareKeyCursors := cu }
      ∧ (∀ e i y, sk.lookup (key2 e i) = some y → s.shareKeys.lookup (key2 e i) = some y
        ∨ (e = epoch ∧ IsShareKey X publicCommitments i y))
      ∧ ∀ e, (cu.lookup e).isSome = true →
        (s.shareKeyCursors.lookup e).isSome = true ∨ e = epoch := by
  unfold precomputeShareKeys
  obtain ⟨sk, hsk, hlookup⟩ :=
    @warmShareKeyRange_spec X s epoch publicCommitments 1 (min S precomputeChunkSize) le_rfl
  simp only [hsk]
  split_ifs
  · exact ⟨s.shareKeys, s.shareKeyCursors, rfl, fun e i y h => .inl h, fun e h => .inl h⟩
  · refine ⟨sk, _, rfl, hlookup, fun e h => ?_⟩
    rw [lookup_assign] at h
    split_ifs at h with heq
    · exact .inr heq
    · exact .inl h
  · exact ⟨sk, s.shareKeyCursors, rfl, hlookup, fun e h => .inl h⟩

theorem advanceEpochPrecompute_spec (s : State) (epoch budget : Nat) :
    ∃ sk cu, (s.advanceEpochPrecompute X epoch budget).1
        = { s with shareKeys := sk, shareKeyCursors := cu }
      ∧ (∀ e i y, sk.lookup (key2 e i) = some y → s.shareKeys.lookup (key2 e i) = some y
        ∨ ((s.shareKeyCursors.lookup e).isSome = true
          ∧ ∃ ak, s.activeKeys.get? e = some ak ∧ IsShareKey X ak.publicCommitments i y))
      ∧ ∀ e, (cu.lookup e).isSome = true → (s.shareKeyCursors.lookup e).isSome = true := by
  have hdel : ∀ e, (KVStore.lookup (s.shareKeyCursors.del epoch) e).isSome = true →
      (s.shareKeyCursors.lookup e).isSome = true := by
    intro e h
    rw [lookup_del] at h
    split_ifs at h
    · cases h
    · exact h
  unfold advanceEpochPrecompute
  simp only
  by_cases hcursor : (s.shareKeyCursors.lookup epoch).getD 0 = 0
  · rw [if_pos hcursor]
    exact ⟨s.shareKeys, s.shareKeyCursors, rfl, fun e i y h => .inl h, fun e h => h⟩
  rw [if_neg hcursor]
  have hsome : (s.shareKeyCursors.lookup epoch).isSome = true := by
    cases hlk : s.shareKeyCursors.lookup epoch with
    | none => simp [hlk] at hcursor
    | some c => rfl
  generalize (s.shareKeyCursors.lookup epoch).getD 0 = cursor at hcursor
  split
  · rename_i ak round hak _
    by_cases hpast : totalEvalPoints round.members < cursor
    · rw [if_pos hpast]
      exact ⟨s.shareKeys, _, rfl, fun e i y h => .inl h, hdel⟩
    rw [if_neg hpast]
    obtain ⟨sk, hsk, hlookup⟩ := @warmShareKeyRange_spec X s epoch ak.publicCommitments cursor
      (min (cursor + budget - 1) (totalEvalPoints round.members)) (by omega)
    have hkeys : ∀ e i y, sk.lookup (key2 e i) = some y → s.shareKeys.lookup (key2 e i) = some y
        ∨ ((s.shareKeyCursors.lookup e).isSome = true
          ∧ ∃ ak, s.activeKeys.get? e = some ak ∧ IsShareKey X ak.publicCommitments i y) := by
      intro e i y h
      refine (hlookup e i y h).imp_right fun hnew => ?_
      obtain ⟨rfl, hkey⟩ := hnew
      exact ⟨hsome, ak, hak, hkey⟩
    simp only [hsk]
    split_ifs
    · exact ⟨sk, _, rfl, hkeys, hdel⟩
    · refine ⟨sk, _, rfl, hkeys, fun e h => ?_⟩
      rw [lookup_assign] at h
      split_ifs at h with heq
      · exact heq ▸ hsome
      · exact h
  · exact ⟨s.shareKeys, _, rfl, fun e i y h => .inl h, hdel⟩

theorem advanceEpochPrecompute_writes (hend : w.endBlock) (s : State) (epoch : Nat) {budget : Nat}
    (hbudget : 0 < budget) : DkgWrites X ctx w s (s.advanceEpochPrecompute X epoch budget).1 := by
  obtain ⟨sk, cu, heq, hsk, hcu⟩ := @advanceEpochPrecompute_spec X s epoch budget
  rw [heq]
  exact .single ⟨.cache hsk hcu ⟨epoch, budget, hbudget, heq⟩ hend, rfl⟩

theorem advanceEpochs_writes (hend : w.endBlock) (epochs : List Nat) (s : State) (budget : Nat) :
    DkgWrites X ctx w s (s.advanceEpochs X budget epochs) := by
  induction epochs generalizing s budget with
  | nil => exact .refl
  | cons epoch epochs ih =>
    unfold advanceEpochs
    split_ifs with hspent
    · exact .refl
    · exact (advanceEpochPrecompute_writes hend s epoch (Nat.pos_of_ne_zero hspent)).trans (ih _ _)

theorem endBlockMaintenance_writes (hend : w.endBlock) (s : State) :
    DkgWrites X ctx w s (s.endBlockMaintenance X ctx) := by
  have hadvance : DkgWrites X ctx w s (s.advancePrecomputeShareKeys X) :=
    advanceEpochs_writes hend _ _ _
  unfold endBlockMaintenance
  simp only
  split_ifs
  · refine hadvance.trans ?_
    exact Reach.foldl_run (I := fun _ => True) (fun _ _ _ _ => trivial)
      (fun _ op _ _ => .single ⟨.dropKey op, rfl⟩) trivial
  · exact hadvance

/-- **What closing a round does**: the round fails, or its key is installed, the start of its
share-key cache is filled and the epoch that served before is pruned. -/
theorem finalizeRound_cases (s : State) (round : DkgRound) :
    (∃ err, s.finalizeResult X round = .error err
      ∧ s.finalizeRound X round = { s with rounds := s.rounds.put { round with status := .failed } })
    ∨ ∃ res sk cu, s.finalizeResult X round = .ok res
      ∧ { s with activeKeys := s.activeKeys.put (installedKey round res) }.precomputeShareKeys X
          round.epoch res.publicCommitments (totalEvalPoints round.members)
        = { s with
            activeKeys := s.activeKeys.put (installedKey round res)
            shareKeys := sk, shareKeyCursors := cu }
      ∧ s.finalizeRound X round = maybePruneEpoch
        { s with
          activeKeys := s.activeKeys.put (installedKey round res)
          shareKeys := sk, shareKeyCursors := cu, activeEpoch := round.epoch
          rounds := s.rounds.put { round with status := .active } } s.activeEpoch := by
  have hresult : s.finalizeResult X round = finalizePublicWeighted X _ _ _ _ _ _ := rfl
  unfold finalizeRound
  simp only
  split
  · rename_i err herr
    exact .inl ⟨err, hresult.trans herr, rfl⟩
  · rename_i res hres
    obtain ⟨sk, cu, hwarm, -⟩ := @precomputeShareKeys_spec X
      { s with activeKeys := s.activeKeys.put (installedKey round res) } round.epoch
      res.publicCommitments (totalEvalPoints round.members)
    refine .inr ⟨res, sk, cu, hresult.trans hres, hwarm, ?_⟩
    simp only [installedKey] at hwarm ⊢
    rw [hwarm]
    -- pruning is the identity when no other epoch served before
    by_cases hprev : s.activeEpoch ≠ 0 ∧ s.activeEpoch ≠ round.epoch
    · rw [if_pos hprev]
    · rw [if_neg hprev]
      obtain h0 | heq := or_iff_not_and_not.mpr hprev
      · simp [maybePruneEpoch, h0]
      · simp [maybePruneEpoch, heq]

theorem finalizeRound_writes (hend : w.endBlock) (hlast : s.lastRound = some round)
    (hopen : round.status = .isOpen) : DkgWrites X ctx w s (s.finalizeRound X round) := by
  obtain ⟨err, -, heq⟩ | ⟨res, sk, cu, hres, hwarm, heq⟩ := @finalizeRound_cases X s round
  · rw [heq]
    exact .single ⟨.failRound hlast hopen hend, rfl⟩
  · obtain ⟨_, _, hspec, hsk, hcu⟩ := @precomputeShareKeys_spec X
      { s with activeKeys := s.activeKeys.put (installedKey round res) } round.epoch
      res.publicCommitments (totalEvalPoints round.members)
    cases hwarm.symm.trans hspec
    rw [heq]
    exact .single ⟨.activate hlast hopen hres hsk hcu hwarm hend, maybePruneEpoch_accounts _ _⟩

theorem finalizeIf_writes (hend : w.endBlock) (s : State) (due : DkgRound → Bool) :
    DkgWrites X ctx w s (s.finalizeIf X due) := by
  unfold finalizeIf
  split
  · rename_i round hlast
    split_ifs with hdue
    · exact finalizeRound_writes hend hlast hdue.1
    · exact .refl
  · exact .refl

theorem finalizeDue_writes (hend : w.endBlock) (s : State) :
    DkgWrites X ctx w s (s.finalizeDue X ctx) :=
  (finalizeIf_writes hend s _).trans (finalizeIf_writes hend _ _)

theorem purgeDealingsIfDrained_writes (hend : w.endBlock)
    (hlast : s.lastRound = some round) (hactive : round.status = .active) :
    DkgWrites X ctx w s (s.purgeDealingsIfDrained s.params s.currentEpoch) := by
  unfold purgeDealingsIfDrained
  split_ifs with hretain hserves
  · exact .single ⟨.purge hlast hactive (fun h => by simp [hretain] at h) hend, rfl⟩
  · exact .refl
  · refine .single ⟨.purge hlast hactive (fun _ => ?_) hend, rfl⟩
    simpa [not_or] using hserves

theorem purgeDealingsIfDrained_frame (s : State) (p : Params) (epoch : Nat) :
    ∃ d c r, s.purgeDealingsIfDrained p epoch
      = { s with dealings := d, complaints := c, rejectedComplaints := r } := by
  unfold purgeDealingsIfDrained
  split_ifs
  · exact ⟨_, _, _, rfl⟩
  · exact ⟨s.dealings, s.complaints, s.rejectedComplaints, rfl⟩
  · exact ⟨_, _, _, rfl⟩

/-- How the decision of a block opens the next epoch: without a round before, over an active round,
over one that is not active after a change of the member set, or again after a failed round. -/
inductive RekeyOpens (X : External) (ctx : Ctx) (s : State) (p : Params) (s' : State) : Prop
  | first (hlast : s.lastRound = none)
      (hopen : s.openRound X (wrap64 (s.currentEpoch + 1)) (activeMembers ctx s p)
        (membersHash X (activeMembers ctx s p)) ctx.height p 1 = some s')
  | superseded {round : DkgRound} {t : State} (hlast : s.lastRound = some round)
      (hactive : round.status = .active)
      (hdue : if round.membersHash ≠ membersHash X (activeMembers ctx s p)
        then rekeyDampened s p ctx.height = false
        else stakeDriftRekeyDue s round (activeMembers ctx s p) ctx.height p = some true)
      (ht : t = s.purgeDealingsIfDrained p s.currentEpoch
        ∨ t = (s.purgeDealingsIfDrained p s.currentEpoch).resetDecryptStrandStreak s.currentEpoch)
      (hopen : openRound X { t with lastRekeyHeight := ctx.height } (wrap64 (s.currentEpoch + 1))
        (activeMembers ctx s p) (membersHash X (activeMembers ctx s p)) ctx.height p 1 = some s')
  | replaced {round : DkgRound} (hlast : s.lastRound = some round)
      (hstatus : round.status ≠ .active) (hdamp : rekeyDampened s p ctx.height = false)
      (hopen : openRound X { s.purgeFailedRound s.currentEpoch with lastRekeyHeight := ctx.height }
        (wrap64 (s.currentEpoch + 1)) (activeMembers ctx s p) (membersHash X (activeMembers ctx s p))
        ctx.height p 1 = some s')
  | retried {round : DkgRound} {members : List RoundMember} {hash : Bytes}
      (hlast : s.lastRound = some round) (hfailed : round.status = .failed)
      (hmembers : members = activeMembers ctx s p
        ∨ round.membersHash ≠ membersHash X (activeMembers ctx s p)
          ∧ rekeyDampened s p ctx.height = true ∧ members = round.members)
      (hopen : (s.purgeFailedRound s.currentEpoch).openRound X (wrap64 (s.currentEpoch + 1)) members
        hash ctx.height p (wrap64 (round.attempt + 1)) = some s')

/-- **What the decision of a block does**: nothing, or it opens the next epoch. -/
theorem rekeyStep_cases (h : s.rekeyStep X ctx p = some s') : s' = s ∨ RekeyOpens X ctx s p s' := by
  have hretry : ∀ {round members hash}, s.lastRound = some round → round.status = .failed →
      (members = activeMembers ctx s p ∨ round.membersHash ≠ membersHash X (activeMembers ctx s p)
        ∧ rekeyDampened s p ctx.height = true ∧ members = round.members) →
      s.retryFailedRound X s.currentEpoch round members hash ctx.height p = some s' →
      s' = s ∨ RekeyOpens X ctx s p s' := by
    intro round members hash hlast hfailed hmembers h
    unfold retryFailedRound at h
    split_ifs at h
    · exact .inl (Option.some.inj h).symm
    · exact .inr (.retried hlast hfailed hmembers h)
  unfold rekeyStep at h
  simp only at h
  cases hlast : s.lastRound with
  | none =>
    rw [hlast] at h
    exact .inr (.first hlast h)
  | some round =>
    rw [hlast] at h
    simp only at h
    split_ifs at h with hchanged hdamp hfailed hactive hactive hfailed
    · exact hretry hlast hfailed (.inr ⟨hchanged, hdamp, rfl⟩) h
    · exact .inl (Option.some.inj h).symm
    · have hdue : rekeyDampened s p ctx.height = false := by simpa using hdamp
      exact .inr (.superseded hlast hactive (by rwa [if_pos hchanged]) (.inl rfl) h)
    · exact .inr (.replaced hlast hactive (by simpa using hdamp) h)
    · obtain ⟨due, hdue, h⟩ := Option.bind_eq_some_iff.mp h
      split_ifs at h with htrue
      · obtain ⟨-, -, h⟩ := Option.bind_eq_some_iff.mp h
        subst htrue
        exact .inr (.superseded hlast hactive (by rwa [if_neg hchanged]) (.inr rfl) h)
      · exact .inl (Option.some.inj h).symm
    · exact hretry hlast hfailed (.inl rfl) h
    · exact .inl (Option.some.inj h).symm

/-- A rekey of an active round: shed the drained dealings, then open the next epoch. The clock and
the streak written in between are read by neither. -/
theorem rekeyActive_writes (hend : w.endBlock) {hash : Bytes} {attempt : Nat}
    (henabled : s.params.dkgEnabled = true) (hnext : w.epoch ∨ s.currentEpoch + 1 < 2 ^ 64)
    (hlast : s.lastRound = some round) (hactive : round.status = .active) (hne : (activeMembers ctx s s.params).length ≠ 0)
    (ht : t = s.purgeDealingsIfDrained s.params s.currentEpoch
      ∨ t = (s.purgeDealingsIfDrained s.params s.currentEpoch).resetDecryptStrandStreak
        s.currentEpoch) (h : Nat)
    (hopen : openRound X { t with lastRekeyHeight := h } (wrap64 (s.currentEpoch + 1))
      (activeMembers ctx s s.params) hash ctx.height s.params attempt = some s') :
    DkgWrites X ctx w s s' := by
  have hpurge : DkgWrites X ctx w s t := by
    have h0 := @purgeDealingsIfDrained_writes X ctx w _ _ hend hlast hactive
    cases ht with
    | inl heq => exact heq ▸ h0
    | inr heq => exact heq ▸ h0.trans (resetDecryptStrandStreak_writes _ _)
  have hframe : ∃ d c r st, t = { s with
      dealings := d, complaints := c, rejectedComplaints := r, strandStreaks := st } := by
    obtain ⟨d, c, r, hpurged⟩ := purgeDealingsIfDrained_frame s s.params s.currentEpoch
    rw [hpurged] at ht
    cases ht with
    | inl heq => exact ⟨d, c, r, s.strandStreaks, heq⟩
    | inr heq => exact ⟨d, c, r, s.strandStreaks.del s.currentEpoch, heq⟩
  obtain ⟨d, c, r, st, rfl⟩ := hframe
  let u : State := { s with dealings := d, complaints := c, rejectedComplaints := r
                            strandStreaks := st, lastRekeyHeight := h }
  have hbase : ∀ r, u.lastRound = some r → r.status = .active := fun r hr => by
    have hsame : s.lastRound = some r := hr
    rw [hlast] at hsame
    exact Option.some.inj hsame ▸ hactive
  have hwrite : DkgWrite X ctx w u s' :=
    ⟨.openRound (.inl ⟨rfl, hbase⟩) (.inl ⟨rfl, hne⟩) henabled hnext hopen hend,
      openRound_accounts hopen⟩
  exact hpurge.trans (.head ⟨@Write.ledger X ctx w _ u rfl, rfl⟩ (.single hwrite))

theorem rekeyStep_writes (hend : w.endBlock) (henabled : s.params.dkgEnabled = true)
    (hnext : w.epoch ∨ s.currentEpoch + 1 < 2 ^ 64)
    (hne : (activeMembers ctx s s.params).length ≠ 0)
    (hclosed : ∀ r, s.lastRound = some r → r.status ≠ .isOpen)
    (h : s.rekeyStep X ctx s.params = some s') : DkgWrites X ctx w s s' := by
  obtain rfl | hopens := rekeyStep_cases h
  · exact .refl
  cases hopens with
  | first hlast hopen =>
    exact .single ⟨.openRound (.inl ⟨rfl, fun r hr => by rw [hlast] at hr; cases hr⟩)
      (.inl ⟨rfl, hne⟩) henabled hnext hopen hend, openRound_accounts hopen⟩
  | superseded hlast hactive _ ht hopen =>
    exact rekeyActive_writes hend henabled hnext hlast hactive hne ht _ hopen
  | replaced hlast hstatus _ hopen =>
    refine .head ⟨@Write.ledger X ctx w s { s with lastRekeyHeight := ctx.height } rfl, rfl⟩
      (.single ⟨?_, (openRound_accounts hopen).trans rfl⟩)
    exact .openRound (.inr ⟨rfl, _, hlast, hstatus, hclosed _ hlast⟩) (.inl ⟨rfl, hne⟩)
      henabled hnext hopen hend
  | retried hlast hfailed hmembers hopen =>
    refine .single ⟨.openRound (.inr ⟨rfl, _, hlast, by simp [hfailed], by simp [hfailed]⟩) ?_
      henabled hnext hopen hend, (openRound_accounts hopen).trans rfl⟩
    exact hmembers.imp (fun heq => ⟨heq, heq ▸ hne⟩) fun h => ⟨_, hlast, hfailed, h.2.2⟩

theorem writes_params (h : Writes X ctx w s s') : s'.params = s.params := by
  refine Reach.run_keeps (I := fun t => t.params = s.params) (fun t t' hwrite ht => ?_) h rfl
  refine Eq.trans ?_ ht
  cases hwrite with
  | ledger h => exact (congrArg params h : t'.core.params = _)
  | release => exact maybePruneEpoch_params _ _
  | activate => exact maybePruneEpoch_params _ _
  | openRound hbase _ _ _ hopen =>
    obtain ⟨mt, -, rfl⟩ := Option.map_eq_some_iff.mp hopen
    obtain ⟨rfl, -⟩ | ⟨rfl, -⟩ := hbase <;> rfl
  | _ => rfl

theorem advanceEpochs_frame (epochs : List Nat) (s : State) (budget : Nat) :
    ∃ sk cu, s.advanceEpochs X budget epochs
      = { s with shareKeys := sk, shareKeyCursors := cu } := by
  induction epochs generalizing s budget with
  | nil => exact ⟨s.shareKeys, s.shareKeyCursors, rfl⟩
  | cons epoch epochs ih =>
    unfold advanceEpochs
    split_ifs
    · exact ⟨s.shareKeys, s.shareKeyCursors, rfl⟩
    · obtain ⟨sk, cu, hone, -⟩ := @advanceEpochPrecompute_spec X s epoch budget
      obtain ⟨sk', cu', hrest⟩ := ih (s.advanceEpochPrecompute X epoch budget).1
        (budget - (s.advanceEpochPrecompute X epoch budget).2)
      refine ⟨sk', cu', hrest.trans ?_⟩
      rw [hone]

theorem getEncPubKey_deleteEncPubKey {op op' : Bytes} (hne : op ≠ op') :
    (s.deleteEncPubKey op').getEncPubKey op = s.getEncPubKey op := by
  unfold getEncPubKey deleteEncPubKey
  simp only [lookup_del, if_neg hne]

/-- The maintenance writes the share-key cache and the key registry, and takes no key from a bonded
operator. -/
theorem endBlockMaintenance_frame (s : State) :
    (∃ sk cu ep eo er, s.endBlockMaintenance X ctx = { s with
      shareKeys := sk, shareKeyCursors := cu, encPubKeys := ep, encKeyOwners := eo
      encKeyRotated := er })
    ∧ ∀ op ∈ ctx.bonded.map Prod.fst,
      (s.endBlockMaintenance X ctx).getEncPubKey op = s.getEncPubKey op := by
  obtain ⟨sk, cu, hadvance⟩ := @advanceEpochs_frame X (s.shareKeyCursors.entries.map Prod.fst) s
    precomputeChunkSize
  have hadvance' : s.advancePrecomputeShareKeys X
      = { s with shareKeys := sk, shareKeyCursors := cu } := hadvance
  unfold endBlockMaintenance
  simp only [hadvance']
  split_ifs
  · unfold gcStaleEncKeys
    refine Reach.foldl_keeps (I := fun t : State => (∃ sk cu ep eo er, t = { s with
      shareKeys := sk, shareKeyCursors := cu, encPubKeys := ep, encKeyOwners := eo
      encKeyRotated := er }) ∧ ∀ op ∈ ctx.bonded.map Prod.fst,
        t.getEncPubKey op = s.getEncPubKey op) ?_ ?_
    · rintro t stale hstale ⟨⟨sk, cu, ep, eo, er, rfl⟩, hkeys⟩
      refine ⟨⟨sk, cu, _, _, _, rfl⟩, fun op hop => ?_⟩
      have hunbonded : stale ∉ ctx.bonded.map Prod.fst := by
        simpa using (List.mem_filter.mp (List.mem_of_mem_take hstale)).2
      have hne : op ≠ stale := fun heq => hunbonded (heq ▸ hop)
      exact (getEncPubKey_deleteEncPubKey hne).trans (hkeys op hop)
    · exact ⟨⟨sk, cu, s.encPubKeys, s.encKeyOwners, s.encKeyRotated, rfl⟩, fun _ _ => rfl⟩
  · exact ⟨⟨sk, cu, s.encPubKeys, s.encKeyOwners, s.encKeyRotated, rfl⟩, fun _ _ => rfl⟩

theorem finalizeIf_frame (s : State) (due : DkgRound → Bool) :
    ∃ d c rc ak sk cu st r ae, s.finalizeIf X due = { s with
      dealings := d, complaints := c, rejectedComplaints := rc, activeKeys := ak, shareKeys := sk
      shareKeyCursors := cu, strandStreaks := st, rounds := r, activeEpoch := ae } := by
  unfold finalizeIf
  split
  · rename_i round _
    split_ifs
    · obtain ⟨err, -, heq⟩ | ⟨res, sk, cu, -, -, heq⟩ := @finalizeRound_cases X s round
      · exact ⟨_, _, _, _, _, _, _, _, _, heq⟩
      · obtain ⟨d, c, rc, ak, sk, cu, st, r, hprune⟩ := maybePruneEpoch_frame _ s.activeEpoch
        exact ⟨_, _, _, _, _, _, _, _, _, heq.trans hprune⟩
    · exact ⟨_, _, _, _, _, _, _, _, _, rfl⟩
  · exact ⟨_, _, _, _, _, _, _, _, _, rfl⟩

theorem finalizeDue_frame (s : State) :
    ∃ d c rc ak sk cu st r ae, s.finalizeDue X ctx = { s with
      dealings := d, complaints := c, rejectedComplaints := rc, activeKeys := ak, shareKeys := sk
      shareKeyCursors := cu, strandStreaks := st, rounds := r, activeEpoch := ae } := by
  unfold finalizeDue
  simp only
  obtain ⟨_, _, _, _, _, _, _, _, _, hfirst⟩ :=
    @finalizeIf_frame X s fun r => r.complaintDeadline ≤ ctx.height
  rw [hfirst]
  obtain ⟨_, _, _, _, _, _, _, _, _, hsecond⟩ := @finalizeIf_frame X _ (failsEarly _ ctx.height)
  rw [hsecond]
  exact ⟨_, _, _, _, _, _, _, _, _, rfl⟩

/-- What the decision of a block reads is as it was, the rounds apart. -/
theorem finalizeDue_maintenance_keeps (s : State) :
    ((s.endBlockMaintenance X ctx).finalizeDue X ctx).currentEpoch = s.currentEpoch
      ∧ ((s.endBlockMaintenance X ctx).finalizeDue X ctx).lastRekeyHeight = s.lastRekeyHeight
      ∧ ((s.endBlockMaintenance X ctx).finalizeDue X ctx).params = s.params
      ∧ ∀ op ∈ ctx.bonded.map Prod.fst,
        ((s.endBlockMaintenance X ctx).finalizeDue X ctx).getEncPubKey op = s.getEncPubKey op := by
  obtain ⟨⟨_, _, _, _, _, hmaint⟩, hbonded⟩ := @endBlockMaintenance_frame X ctx s
  obtain ⟨_, _, _, _, _, _, _, _, _, hdue⟩ := @finalizeDue_frame X ctx (s.endBlockMaintenance X ctx)
  rw [hdue]
  exact ⟨by rw [hmaint], by rw [hmaint], by rw [hmaint], hbonded⟩

/-- **What the end of a block does**: nothing, when the DKG is not runnable or the body panics; or,
with due rounds closed after the maintenance, it takes the decision unless a round is open or nobody
is eligible. -/
theorem endBlockDKG_cases (s : State) :
    (dkgRunnable ctx s.params = false ∨ s.endBlockBody X ctx = none) ∧ s.endBlockDKG X ctx = s
    ∨ dkgRunnable ctx s.params = true
      ∧ (s.endBlockDKG X ctx = (s.endBlockMaintenance X ctx).finalizeDue X ctx
        ∨ (∀ r, ((s.endBlockMaintenance X ctx).finalizeDue X ctx).lastRound = some r →
            r.status ≠ .isOpen)
          ∧ (activeMembers ctx ((s.endBlockMaintenance X ctx).finalizeDue X ctx) s.params).length ≠ 0
          ∧ ((s.endBlockMaintenance X ctx).finalizeDue X ctx).rekeyStep X ctx s.params
            = some (s.endBlockDKG X ctx)) := by
  unfold endBlockDKG
  cases hbody : s.endBlockBody X ctx with
  | none => exact .inl ⟨.inr rfl, rfl⟩
  | some s' =>
    rw [Option.getD_some]
    unfold endBlockBody at hbody
    simp only at hbody
    split_ifs at hbody with hrun hopen hempty
    · exact .inl ⟨.inl hrun, (Option.some.inj hbody).symm⟩
    · exact .inr ⟨by simpa using hrun, .inl (Option.some.inj hbody).symm⟩
    · exact .inr ⟨by simpa using hrun, .inl (Option.some.inj hbody).symm⟩
    · exact .inr ⟨by simpa using hrun, .inr ⟨fun r hr => by simpa [hr] using hopen, hempty, hbody⟩⟩

theorem endBlockDKG_writes (hend : w.endBlock) (hnext : w.epoch ∨ s.currentEpoch + 1 < 2 ^ 64) :
    DkgWrites X ctx w s (s.endBlockDKG X ctx) := by
  have hprep : DkgWrites X ctx w s ((s.endBlockMaintenance X ctx).finalizeDue X ctx) :=
    (endBlockMaintenance_writes hend s).trans (finalizeDue_writes hend _)
  obtain ⟨-, hsame⟩ | ⟨hrun, hclosed | ⟨hopen, hne, hstep⟩⟩ := @endBlockDKG_cases X ctx s
  · rw [hsame]
  · rwa [hclosed]
  obtain ⟨hcur, -, hparams, -⟩ := @finalizeDue_maintenance_keeps X ctx s
  generalize (s.endBlockMaintenance X ctx).finalizeDue X ctx = t at *
  simp only [dkgRunnable, decide_eq_true_iff] at hrun
  rw [← hparams] at hrun hne hstep
  exact hprep.trans (rekeyStep_writes hend hrun.1 (hcur ▸ hnext) hne hopen hstep)

/-! ## The actions of the chain -/

/-- A rejected message leaves the state alone. -/
theorem orElse_keeps {P : State → Prop} (hs : P s) {r : Except String State}
    (h : ∀ s', r = .ok s' → P s') : P (s.orElse r) := by
  cases r with
  | ok s' => exact h s' rfl
  | error err => exact hs

theorem updateParams_spec {msg : MsgUpdateParams} (h : s.updateParams X ctx msg = .ok s') :
    ∃ p : Params, p.validate X = .ok () ∧ s' = { s with params := p }
      ∧ (s.params.dkgRetainActiveDealings = true → p.dkgRetainActiveDealings = true) := by
  simp only [updateParams, bind_unit_eq_ok] at h
  obtain ⟨-, h⟩ := h
  split at h
  · cases h
  · rename_i p _
    simp only [bind_unit_eq_ok] at h
    obtain ⟨hvalid, -, -, h⟩ := h
    cases h
    -- validation does not read the two one-way switches
    refine ⟨_, ?_, rfl, fun hretain => ?_⟩
    · exact hvalid
    · simp [hretain]

theorem submitDecryptionShare_spec {msg : MsgSubmitDecryptionShare}
    (h : s.submitDecryptionShare ctx msg = .ok s') :
    msg.decryptHeight ≤ ctx.height ∧ msg.index ≠ 0
      ∧ (s.params.dkgEnabled = true →
        (s.encTxs.get? (key2 msg.decryptHeight msg.seq)).isSome = true)
      ∧ s' = { s with encShares := s.encShares.put msg.share } := by
  simp only [submitDecryptionShare, bind_unit_eq_ok, rejectIf_eq_ok] at h
  obtain ⟨-, -, -, hmature, h⟩ := h
  split at h
  · cases h
  · rename_i idx hidx
    simp only [bind_unit_eq_ok, rejectIf_eq_ok, not_not] at h
    obtain ⟨hindex, -, h⟩ := h
    cases h
    refine ⟨Nat.not_lt.mp hmature, ?_, fun hon => ?_, rfl⟩
    · unfold shareSignerIndex at hidx
      rw [hindex]
      split at hidx
      · split at hidx
        · cases hidx
        · split at hidx
          · cases hidx
          · simp only at hidx
            split_ifs at hidx with hzero
            cases hidx
            exact hzero
      · simp only at hidx
        split_ifs at hidx with hzero
        cases hidx
        exact hzero
    · unfold shareSignerIndex at hidx
      rw [if_pos hon] at hidx
      split at hidx
      · cases hidx
      · rename_i e he
        rw [he]
        rfl

end State

/-- No submission takes the last sequence number. -/
def SeqRoom : Allow := fun s _ a =>
  match a with
  | .submitEncrypted _ _ => s.encSeq + 1 < 2 ^ 64
  | _ => True

/-- The end-block handler never runs at the last epoch. -/
def EpochRoom : Allow := fun s _ a =>
  match a with
  | .endBlockDKG => s.currentEpoch + 1 < 2 ^ 64
  | _ => True

instance (s : State) (ctx : Ctx) (a : Action) : Decidable (SeqRoom s ctx a) := by
  apply @Action.casesOn (fun a => Decidable (SeqRoom s ctx a)) a <;> intros <;>
    unfold SeqRoom <;> infer_instance

instance (s : State) (ctx : Ctx) (a : Action) : Decidable (EpochRoom s ctx a) := by
  apply @Action.casesOn (fun a => Decidable (EpochRoom s ctx a)) a <;> intros <;>
    unfold EpochRoom <;> infer_instance

namespace State

/-- **The simulation.** Every action but a params update and a legacy share is a run of writes. -/
theorem step_writes (s : State) {a : Action} (hparams : ∀ msg, a ≠ .updateParams msg)
    (hshare : ∀ msg, a ≠ .submitDecryptionShare msg) (hseq : w.seq ∨ SeqRoom s ctx a)
    (hepoch : w.epoch ∨ EpochRoom s ctx a) (hend : w.endBlock ∨ a ≠ .endBlockDKG) :
    Writes X ctx w s (s.step X ctx a) := by
  cases a with
  | updateParams msg => exact absurd rfl (hparams msg)
  | submitDecryptionShare msg => exact absurd rfl (hshare msg)
  | commitTx msg =>
    refine orElse_keeps .refl fun s' h => ?_
    obtain ⟨_, _, _, _, rfl⟩ := commitTx_frame h
    exact .single (.ledger rfl)
  | revealTx msg =>
    refine orElse_keeps .refl fun s' h => ?_
    obtain ⟨_, rfl⟩ := revealTx_frame h
    exact .single (.ledger rfl)
  | submitEncrypted escrowed msg =>
    exact orElse_keeps .refl fun _ h => submitEncrypted_writes hseq h
  | dkgDeal msg => exact orElse_keeps .refl fun _ h => (dkgDeal_writes h).writes
  | dkgComplaint msg => exact orElse_keeps .refl fun _ h => (dkgComplaint_writes h).writes
  | consumeVoteExtensions entries => exact (consumeVoteExtensions_writes s entries).writes
  | ingestDecryptShareFromVE operator sh =>
    exact (ingestDecryptShareFromVE_writes s operator sh).writes
  | beginBlock exec => exact beginBlock_writes exec s
  | endBlockDKG => exact (endBlockDKG_writes (hend.resolve_right fun h => h rfl) hepoch).writes

end State

/-- **Invariants by writes.** To hold in every reachable state, a property of the height and the
state needs to hold of the imported state, survive the passing of time, and be kept by every write,
every params update and every legacy share. -/
theorem Chain.Reachable.by_writes {allow : Allow} {gs : GenesisState} {h : Nat} {c : Chain}
    {I : Nat → State → Prop} (hreach : Chain.Reachable X allow gs h c) (hend : w.endBlock)
    (hseq : w.seq ∨ ∀ s ctx a, allow s ctx a → SeqRoom s ctx a)
    (hepoch : w.epoch ∨ ∀ s ctx a, allow s ctx a → EpochRoom s ctx a)
    (hinit : ∀ s, initGenesis X gs = .ok s → I h s)
    (hmono : ∀ s m n, m ≤ n → I m s → I n s)
    (hwrite : ∀ ctx s s', Write X ctx w s s' → I ctx.height s → I ctx.height s')
    (hparams : ∀ n s p, p.validate X = .ok () →
      (s.params.dkgRetainActiveDealings = true → p.dkgRetainActiveDealings = true) →
      I n s → I n { s with params := p })
    (hshare : ∀ ctx s s' msg, allow s ctx (.submitDecryptionShare msg) →
      s.submitDecryptionShare ctx msg = .ok s' → I ctx.height s → I ctx.height s') :
    I c.height c.state := by
  refine hreach.invariant (I := fun c => I c.height c.state) hinit ?_
  intro c ctx a hle hallow hc
  have hnow : I ctx.height c.state := hmono _ _ _ hle hc
  have hrest : (∀ msg, a ≠ .updateParams msg) → (∀ msg, a ≠ .submitDecryptionShare msg) →
      I ctx.height (c.state.step X ctx a) := fun h1 h2 =>
    Reach.run_keeps (hwrite ctx) (step_writes c.state h1 h2
      (hseq.imp_right fun h => h _ _ _ hallow) (hepoch.imp_right fun h => h _ _ _ hallow) (.inl hend)) hnow
  cases a with
  | updateParams msg =>
    simp only [step]
    cases hres : c.state.updateParams X ctx msg with
    | error err => exact hnow
    | ok s' =>
      obtain ⟨p, hvalid, rfl, hretain⟩ := updateParams_spec hres
      exact hparams _ _ _ hvalid hretain hnow
  | submitDecryptionShare msg =>
    simp only [step]
    cases hres : c.state.submitDecryptionShare ctx msg with
    | error err => exact hnow
    | ok s' => exact hshare _ _ _ _ hallow hres hnow
  | _ => exact hrest (fun _ => nofun) (fun _ => nofun)

end EncMempool
