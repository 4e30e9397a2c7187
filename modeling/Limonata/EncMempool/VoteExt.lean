import Limonata.EncMempool.MsgServer

/-!
# x/encmempool — consuming vote extensions (`keeper/voteext.go`)

The transparent DKG has no messages: key announcements, dealings, complaints, poison reports and
decryption shares arrive on the validators' votes and are ingested by `ConsumeVoteExtensions`
before the block's transactions. The entries are put in operator order, one per operator, so the
result does not depend on the order of the votes.
-/

namespace EncMempool

open Machine Check

def maxEncShareBodyBytes : Nat := 128
def maxEncKeyPoPBytes : Nat := 128
def encKeyRotationCooldownBlocks : Nat := 200
def maxVerifyCiphertextsPerBlock : Nat := maxDeferredDecryptsPerBlock

structure VoteExtComplaint where
  epoch : Nat
  against : Nat
  evalPoint : Nat
  sharedPoint : Bytes
  dleqProof : Bytes
  deriving DecidableEq

structure VoteExtDealing where
  epoch : Nat
  commitments : List Bytes
  encShares : List DkgStoredEncShare
  deriving DecidableEq

structure VoteExtShare where
  epoch : Nat
  decryptHeight : Nat
  seq : Nat
  index : Nat
  d : Bytes
  proof : Bytes
  deriving DecidableEq

/-- The stored form of a share that passed verification. -/
def VoteExtShare.verifiedBy (sh : VoteExtShare) (operator : Bytes) : EncShare :=
  { keyper := operator, decryptHeight := sh.decryptHeight, seq := sh.seq, index := sh.index
    d := sh.d, proof := sh.proof, verified := true }

/-- What a validator's node attaches to its vote. -/
structure VoteExtension where
  encPubKey : Bytes
  encPubKeyPoP : Bytes
  dealing : Option VoteExtDealing
  shares : List VoteExtShare
  complaints : List VoteExtComplaint
  poisonReports : List VoteExtComplaint
  deriving DecidableEq

/-- An extension with the operator the app resolved it to. -/
structure VEEntry where
  operator : Bytes
  ve : VoteExtension
  deriving DecidableEq

/-- The sealed shares of a dealing: one per evaluation point. -/
def checkSealedShares (X : External) (round : DkgRound) :
    List DkgStoredEncShare → Except String Unit :=
  checkDistinct DkgStoredEncShare.memberIndex
    (fun _ sh => rejectIf (evalPointOwner round.members sh.memberIndex = 0)
      s!"enc_share for unowned eval point {sh.memberIndex}")
    (fun _ sh => s!"duplicate enc_share for eval point {sh.memberIndex}")
    (fun _ sh => do
      rejectIf (validCompressedPoint X sh.a = false)
        s!"enc_share for eval point {sh.memberIndex} has malformed A"
      rejectIf (sh.nonce.length ≠ nonceSize)
        s!"enc_share for eval point {sh.memberIndex} has bad nonce length {sh.nonce.length}"
      rejectIf (sh.body.length = 0 ∨ maxEncShareBodyBytes < sh.body.length)
        s!"enc_share body for eval point {sh.memberIndex} has bad length {sh.body.length}") 0 []

/-- A dealing has one commitment per degree and one sealed share per evaluation point. -/
def validateDealingShape (X : External) (round : DkgRound) (commitments : List Bytes)
    (encShares : List DkgStoredEncShare) : Except String Unit := do
  rejectIf (commitments.length ≠ round.threshold)
    s!"expected {round.threshold} commitments, got {commitments.length}"
  rejectIf ((parseCommitmentPoints X commitments).isNone = true) "malformed commitment"
  rejectIf (encShares.length ≠ totalEvalPoints round.members)
    s!"expected {totalEvalPoints round.members} enc_shares (one per eval point), got {encShares.length}"
  checkSealedShares X round encShares

namespace State

variable (X : External) (ctx : Ctx) (s : State)

def getEncKeyOwner (key : Bytes) : Option Bytes :=
  (s.encKeyOwners.lookup key).filter (fun op => 0 < op.length)

/-- Whether a rotation of this operator's key is still in its cooldown. -/
def rotationTooSoon (operator : Bytes) : Bool :=
  (s.encKeyRotated.lookup operator).any fun last =>
    ctx.height < last + encKeyRotationCooldownBlocks

/-- Record an announced key; the flag tells whether it was written. -/
def recordEncPubKey (operator key pop : Bytes) : State × Bool :=
  let cur := s.getEncPubKey operator
  if operator = [] ∨ validCompressedPoint X key = false ∨ maxEncKeyPoPBytes < pop.length then
    (s, false)
  else if cur = some key then (s, false)
  else if verifyEncKeyPoP X key operator pop = false then (s, false)
  else if (s.getEncKeyOwner key).any (fun owner => owner ≠ operator) then (s, false)
  else if cur.isSome ∧ s.rotationTooSoon ctx operator then (s, false)
  else
    ({ s with
       encPubKeys := s.encPubKeys.assign operator key
       encKeyOwners := (s.ownersWithout operator).assign key operator
       encKeyRotated := s.encKeyRotated.assign operator ctx.height }, true)

/-! ## Dealings and complaints -/

/-- Store a dealing for the open round, first one per dealer. -/
def ingestDealingFromVE (round : DkgRound) (operator : Bytes) (d : VoteExtDealing) : State × Bool :=
  let idx := memberIndexByOperator round.members operator
  if d.epoch ≠ round.epoch then (s, false)
  else if idx = 0 then (s, false)
  else if s.dealings.has (key2 round.epoch idx) then (s, false)
  else match validateDealingShape X round d.commitments d.encShares with
    | .error _ => (s, false)
    | .ok () =>
      let dealing : Dealing :=
        { epoch := round.epoch, dealerIndex := idx, dealer := operator
          commitments := d.commitments, encShares := d.encShares }
      ({ s with dealings := s.dealings.put dealing }, true)

def setComplaint (epoch against accuserIdx : Nat) : State :=
  let c : DkgComplaintRec := { epoch := epoch, against := against, accuserIndex := accuserIdx }
  { s with complaints := s.complaints.put c }

def setComplaintRejected (epoch against accuserIdx evalPoint : Nat) : State :=
  { s with rejectedComplaints :=
      s.rejectedComplaints.assign (key4 epoch against accuserIdx evalPoint) () }

/-- The outcome of one complaint: the state, whether it was stored, the verifications charged. -/
structure ComplaintOutcome where
  state : State
  stored : Bool
  verifies : Nat

/-- Whether the accuser may dispute this point of this dealer; the result is its index and its
encryption key. -/
def disputedPoint (round : DkgRound) (operator : Bytes) (c : VoteExtComplaint) :
    Option (Nat × Bytes) :=
  let accuserIdx := memberIndexByOperator round.members operator
  if accuserIdx = 0 ∨ c.against = 0 ∨ c.against = accuserIdx then none
  else if (memberByIndex round c.against).isNone then none
  else match memberByIndex round accuserIdx with
    | none => none
    | some accuser =>
      if accuser.ownsEvalPoint c.evalPoint then some (accuserIdx, accuser.encPubKey) else none

/-- Verify a complaint against a stored dealing. A missing sealed share convicts without proof. -/
def judgeComplaint (accuserEncPub : Bytes) (dealing : Dealing) (c : VoteExtComplaint) :
    Bool × Nat :=
  match dealing.encShares.find? (fun sh => sh.memberIndex = c.evalPoint) with
  | none => (true, 0)
  | some enc =>
    let verdict := verifyJustifiedComplaint X c.evalPoint accuserEncPub dealing.commitments
      enc.a enc.nonce enc.body c.sharedPoint c.dleqProof
    (verdict.1 && verdict.2, 1)

/-- Store a justified complaint against a dealer of the open round. -/
def ingestComplaintFromVE (round : DkgRound) (operator : Bytes) (c : VoteExtComplaint) :
    ComplaintOutcome :=
  if c.epoch ≠ round.epoch then ⟨s, false, 0⟩
  else match disputedPoint round operator c with
    | none => ⟨s, false, 0⟩
    | some (accuserIdx, encPub) =>
      if s.complaints.has (key3 round.epoch c.against accuserIdx) then ⟨s, false, 0⟩
      else if s.rejectedComplaints.has (key4 round.epoch c.against accuserIdx c.evalPoint) then
        ⟨s, false, 0⟩
      else match s.dealings.get? (key2 round.epoch c.against) with
        | none => ⟨s.setComplaintRejected round.epoch c.against accuserIdx c.evalPoint, false, 0⟩
        | some dealing =>
          let verdict := judgeComplaint X encPub dealing c
          if verdict.1 then ⟨s.setComplaint round.epoch c.against accuserIdx, true, verdict.2⟩
          else ⟨s.setComplaintRejected round.epoch c.against accuserIdx c.evalPoint, false,
            verdict.2⟩

/-- Store a justified report against a dealer of the installed key and force the recovery rekey. -/
def ingestPoisonReportFromVE (round : DkgRound) (operator : Bytes) (c : VoteExtComplaint) :
    ComplaintOutcome :=
  if round.status ≠ .active ∨ c.epoch ≠ round.epoch then ⟨s, false, 0⟩
  else match disputedPoint round operator c with
    | none => ⟨s, false, 0⟩
    | some (accuserIdx, encPub) =>
      if (s.activeKeys.get? round.epoch).all (fun ak => !ak.qual.contains c.against) then
        ⟨s, false, 0⟩
      else if s.complaints.has (key3 round.epoch c.against accuserIdx) then ⟨s, false, 0⟩
      else if s.rejectedComplaints.has (key4 round.epoch c.against accuserIdx c.evalPoint) then
        ⟨s, false, 0⟩
      else match s.dealings.get? (key2 round.epoch c.against) with
        | none => ⟨s, false, 0⟩
        | some dealing =>
          let verdict := judgeComplaint X encPub dealing c
          if verdict.1 then
            ⟨(s.setComplaint round.epoch c.against accuserIdx).forceDecryptHealthRekey
              round.epoch, true, verdict.2⟩
          else ⟨s.setComplaintRejected round.epoch c.against accuserIdx c.evalPoint, false,
            verdict.2⟩

/-! ## Decryption shares -/

/-- The authorization of a share: the operator is a member of the round of the ciphertext and owns
the point, and the slot is free. The result is the member and the ciphertext. -/
def classifyDecryptShare (operator : Bytes) (sh : VoteExtShare) : Option (RoundMember × EncTx) :=
  if sh.d.length = 0 then none
  else match s.encTxs.get? (key2 sh.decryptHeight sh.seq) with
    | none => none
    | some e =>
      if e.epoch = 0 ∨ e.epoch ≠ sh.epoch then none
      else match s.rounds.get? e.epoch with
        | none => none
        | some round =>
          let idx := memberIndexByOperator round.members operator
          if idx = 0 then none
          else match memberByIndex round idx with
            | none => none
            | some member =>
              if member.ownsEvalPoint sh.index = false then none
              else if s.encShares.has (key3 sh.decryptHeight sh.seq sh.index) then none
              else some (member, e)

theorem classifyDecryptShare_spec {s : State} {operator : Bytes} {sh : VoteExtShare}
    {member : RoundMember} {e : EncTx}
    (h : s.classifyDecryptShare operator sh = some (member, e)) :
    s.encTxs.get? (key2 sh.decryptHeight sh.seq) = some e ∧ e.epoch ≠ 0 ∧ e.epoch = sh.epoch
      ∧ ∃ round, s.rounds.get? e.epoch = some round
        ∧ memberByIndex round (memberIndexByOperator round.members operator) = some member
        ∧ memberIndexByOperator round.members operator ≠ 0
        ∧ member.ownsEvalPoint sh.index = true := by
  unfold classifyDecryptShare at h
  -- each step refutes the branch that drops the share
  by_cases hd : sh.d.length = 0
  · rw [if_pos hd] at h
    cases h
  rw [if_neg hd] at h
  cases htx : s.encTxs.get? (key2 sh.decryptHeight sh.seq) with
  | none => simp [htx] at h
  | some tx =>
    simp only [htx] at h
    by_cases hepoch : tx.epoch = 0 ∨ tx.epoch ≠ sh.epoch
    · rw [if_pos hepoch] at h
      cases h
    rw [if_neg hepoch] at h
    obtain ⟨hne, heq⟩ := not_or.mp hepoch
    cases hround : s.rounds.get? tx.epoch with
    | none => simp [hround] at h
    | some round =>
      simp only [hround] at h
      by_cases hidx : memberIndexByOperator round.members operator = 0
      · rw [if_pos hidx] at h
        cases h
      rw [if_neg hidx] at h
      cases hmember : memberByIndex round (memberIndexByOperator round.members operator) with
      | none => simp [hmember] at h
      | some m =>
        simp only [hmember] at h
        by_cases howns : m.ownsEvalPoint sh.index = false
        · rw [if_pos howns] at h
          cases h
        rw [if_neg howns] at h
        by_cases hhas : s.encShares.has (key3 sh.decryptHeight sh.seq sh.index) = true
        · rw [if_pos hhas] at h
          cases h
        rw [if_neg hhas] at h
        cases h
        exact ⟨rfl, hne, not_not.mp heq, round, hround, hmember, hidx, Bool.not_eq_false _ ▸ howns⟩

/-- The cached share key, if there is one and it parses. -/
def cachedShareKey (epoch index : Nat) : Option X.Point :=
  ((s.shareKeys.lookup (key2 epoch index)).filter (fun yb => 0 < yb.length)).bind X.parsePubKey

/-- Check the proof of a share against the public share key of its epoch. -/
def verifyDecryptShareDLEQ (epoch : Nat) (ctA : Bytes) (index : Nat) (d proofBz : Bytes) : Bool :=
  match s.activeKeys.get? epoch with
  | none => false
  | some ak =>
    if ak.publicCommitments.length = 0 then false
    else match parseDLEQProof X proofBz with
      | none => false
      | some proof =>
        match s.cachedShareKey X epoch index with
        | some Y => verifyDecryptShare X ctA index d Y proof
        | none =>
          match (parseCommitmentPoints X ak.publicCommitments).bind (sharePubKey X index) with
          | none => false
          | some Y => verifyDecryptShare X ctA index d Y proof

/-- Verify a share and store it, or mark its slot as rejected. -/
def verifyAndStoreDecryptShare (epoch : Nat) (ctA operator : Bytes) (sh : VoteExtShare) :
    State × Bool :=
  if s.verifyDecryptShareDLEQ X epoch ctA sh.index sh.d sh.proof = false then
    ({ s with rejectedShares :=
        s.rejectedShares.assign (key3 sh.decryptHeight sh.seq sh.index) () }, false)
  else
    ({ s with encShares := s.encShares.put (sh.verifiedBy operator) }, true)

/-- The single-share entry point. -/
def ingestDecryptShareFromVE (operator : Bytes) (sh : VoteExtShare) : State × Bool :=
  if ctx.height < sh.decryptHeight then (s, false)
  else match s.classifyDecryptShare operator sh with
    | none => (s, false)
    | some (_, e) => s.verifyAndStoreDecryptShare X e.epoch e.a operator sh

/-- The verification work of a block so far. -/
structure VerifyBudget where
  seen : List Key3
  spent : List (Bytes × Key2)
  globalSpent : Nat

variable (canon : List VEEntry)

/-- The global ceiling on verification work. -/
def verifyCeiling (p : Params) : Nat :=
  max (min (maxVerifyCiphertextsPerBlock * p.effectiveShareBudget) p.effectiveMaxVerifyOps)
    p.voteExtShareCap

/-- The matured ciphertexts that may receive shares in this block. -/
def processedCiphertexts (h : Nat) : List Key2 :=
  ((s.inFlightFrom (h - strandedDecryptGraceBlocks) maxVerifyCiphertextsPerBlock).takeWhile
    (fun e => e.decryptHeight ≤ h)).map EncTx.key

/-- The price of verifying a share: a cold share key costs the whole share budget. -/
def verifyCost (p : Params) (epoch index : Nat) : Nat :=
  if ((s.shareKeys.lookup (key2 epoch index)).getD []).length = 0 then p.effectiveShareBudget
  else 1

/-- Ingest the shares of one extension until the ceiling is reached. -/
def ingestShares (X : External) (p : Params) (processed : List Key2) (operator : Bytes) :
    State → VerifyBudget → List VoteExtShare → State × VerifyBudget
  | s, b, [] => (s, b)
  | s, b, sh :: rest =>
    let tk := key2 sh.decryptHeight sh.seq
    let slot := key3 sh.decryptHeight sh.seq sh.index
    if verifyCeiling p ≤ b.globalSpent then (s, b)
    else if tk ∉ processed ∨ slot ∈ b.seen ∨ s.rejectedShares.has slot then
      ingestShares X p processed operator s b rest
    else match s.classifyDecryptShare operator sh with
      | none => ingestShares X p processed operator s b rest
      | some (member, e) =>
        if member.ownedEvalPoints.length ≤ b.spent.count (operator, tk) then
          ingestShares X p processed operator s b rest
        else
          let cost := s.verifyCost p e.epoch sh.index
          if verifyCeiling p < b.globalSpent + cost then (s, b)
          else ingestShares X p processed operator
            (s.verifyAndStoreDecryptShare X e.epoch e.a operator sh).1
            { seen := slot :: b.seen, spent := (operator, tk) :: b.spent
              globalSpent := b.globalSpent + cost } rest

/-- Ingest the shares of all extensions under the bounds of the block. -/
def ingestDecryptSharesBounded (p : Params) (canon : List VEEntry) : State :=
  let processed := s.processedCiphertexts ctx.height
  (canon.foldl (fun acc e =>
    ingestShares X p processed e.operator acc.1 acc.2 (e.ve.shares.take p.voteExtShareCap))
    (s, ⟨[], [], 0⟩)).1

/-! ## The entry point -/

/-- The first entry of each operator, none without an operator. -/
def firstPerOperator : List Bytes → List VEEntry → List VEEntry
  | _, [] => []
  | seen, e :: es =>
    if e.operator = [] ∨ e.operator ∈ seen then firstPerOperator seen es
    else e :: firstPerOperator (e.operator :: seen) es

/-- The entries in operator order, one per operator. -/
def canonicalEntries (entries : List VEEntry) : List VEEntry :=
  firstPerOperator [] (entries.insertionSort (fun a b => a.operator ≤ b.operator))

/-- Ingest the complaints of one extension under the accuser's quota; the count is of those
stored. -/
def ingestComplaints (ingest : State → VoteExtComplaint → ComplaintOutcome) :
    Nat → State → List VoteExtComplaint → State × Nat
  | _, s, [] => (s, 0)
  | verifies, s, c :: cs =>
    if maxComplaintVerifiesPerAccuser ≤ verifies then (s, 0)
    else
      let r := ingest s c
      let q := ingestComplaints ingest (verifies + r.verifies) r.state cs
      (q.1, q.2 + if r.stored then 1 else 0)

/-- Ingest every entry, counting what was stored. -/
def ingestEntries (ingest : State → VEEntry → State × Nat) :
    State → List VEEntry → State × Nat
  | s, [] => (s, 0)
  | s, e :: es =>
    let r := ingest s e
    let q := ingestEntries ingest r.1 es
    (q.1, r.2 + q.2)

/-- Phase 1: key announcements. -/
def announcePhase : State :=
  canon.foldl (fun s e => (s.recordEncPubKey X ctx e.operator e.ve.encPubKey e.ve.encPubKeyPoP).1) s

/-- Phase 2: dealings for the open round. -/
def dealPhase : State :=
  match s.lastRound with
  | none => s
  | some round =>
    if round.status = .isOpen ∧ ctx.height ≤ round.dealDeadline then
      canon.foldl (fun s e => match e.ve.dealing with
        | none => s
        | some d => (s.ingestDealingFromVE X round e.operator d).1) s
    else s

/-- Phase 4: complaints against dealers of the open round. -/
def complaintPhase : State :=
  match s.lastRound with
  | none => s
  | some round =>
    if round.status = .isOpen ∧ round.dealDeadline < ctx.height
        ∧ ctx.height ≤ round.complaintDeadline then
      (ingestEntries (fun s e =>
        ingestComplaints (fun s c => s.ingestComplaintFromVE X round e.operator c) 0 s
          (e.ve.complaints.take round.members.length)) s canon).1
    else s

/-- Phase 5: poison reports against the serving key, with the number stored. -/
def poisonPhase : State × Nat :=
  if s.activeEpoch = 0 then (s, 0)
  else match s.rounds.get? s.activeEpoch with
    | none => (s, 0)
    | some round =>
      if round.status = .active then
        ingestEntries (fun s e =>
          ingestComplaints (fun s c => s.ingestPoisonReportFromVE X round e.operator c) 0 s
            (e.ve.poisonReports.take round.members.length)) s canon
      else (s, 0)

/-- The first three phases of the ingestion: everything before the poison reports. -/
def consumeDkg : State :=
  ((s.announcePhase X ctx canon).dealPhase X ctx canon).complaintPhase X ctx canon

/-- Ingest the resolved extensions of a block; a no-op unless the transparent path is on. -/
def consumeVoteExtensions (entries : List VEEntry) : State :=
  let p := s.params
  if p.dkgEnabled = false ∨ p.dkgTransparent = false then s
  else
    let canon := canonicalEntries entries
    let s := s.consumeDkg X ctx canon
    (s.poisonPhase X canon).1.ingestDecryptSharesBounded X ctx p canon

/-- The number of poison reports a block's extensions get accepted. -/
def poisonReportsAccepted (entries : List VEEntry) : Nat :=
  if s.params.dkgEnabled = false ∨ s.params.dkgTransparent = false then 0
  else
    let canon := canonicalEntries entries
    ((s.consumeDkg X ctx canon).poisonPhase X canon).2

end State

end EncMempool
