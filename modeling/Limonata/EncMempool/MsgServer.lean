import Limonata.EncMempool.BeginBlock

/-!
# x/encmempool — the message handlers (`keeper/msg_server.go`)

Each handler returns the new state or the error it rejects with; a rejected message leaves no
trace, because the transaction's branched store is discarded. A panic inside a handler is recovered
by the transaction runner, so it is a rejection too.
-/

namespace EncMempool

open Machine Check

/-- An account address that signed a message: the SDK refuses an empty one. -/
abbrev Signer := { a : Bytes // a ≠ [] }

structure MsgUpdateParams where
  authority : Bytes
  /-- The decoded params JSON; `none` when it does not decode. -/
  params : Option Params

structure MsgCommitTx where
  sender : Signer
  commitHash : Bytes

structure MsgRevealTx where
  sender : Signer
  commitHeight : Nat
  seq : Nat
  revealTx : Bytes
  salt : Bytes

structure MsgSubmitEncrypted where
  submitter : Signer
  a : Bytes
  nonce : Bytes
  body : Bytes
  pok : Bytes

structure MsgSubmitDecryptionShare where
  keyper : Signer
  decryptHeight : Nat
  seq : Nat
  index : Nat
  d : Bytes
  proof : Bytes

/-- The stored form of a legacy share: its proof is not checked. -/
def MsgSubmitDecryptionShare.share (msg : MsgSubmitDecryptionShare) : EncShare :=
  { keyper := msg.keyper, decryptHeight := msg.decryptHeight, seq := msg.seq, index := msg.index
    d := msg.d, proof := msg.proof, verified := false }

structure MsgDkgDeal where
  dealer : Signer
  epoch : Nat
  commitments : List Bytes
  encShares : List DkgStoredEncShare

structure MsgDkgComplaint where
  accuser : Signer
  epoch : Nat
  against : Nat
  sharedPoint : Bytes
  dleqProof : Bytes

/-- Whether the vote extensions the transparent DKG needs are unavailable at this height. -/
def transparentDkgRuntimeUnavailable (ctx : Ctx) (p : Params) : Option String :=
  if p.dkgEnabled = false ∨ p.dkgTransparent = false then none
  else if (match ctx.voteExtEnableHeight with
      | none => false
      | some v => decide (v ≠ 0 ∧ v < ctx.height)) = false then
    some "transparent DKG vote extensions are not active; encrypted submissions are unavailable until vote extensions are active"
  else match ctx.maxBlockBytes with
    | none => none
    | some b =>
      if 0 < b ∧ p.dkgInjectedCommitFitsMaxTxBytes b = false then
        some "transparent DKG vote-extension aggregate exceeds the current consensus max_tx_bytes; encrypted submissions are unavailable until dkg_max_members/dkg_share_budget or block max bytes is adjusted"
      else none

def keyperIndex (keypers : List Bytes) (addr : Bytes) : Nat :=
  match keypers.findIdx? (· = addr) with
  | some i => i + 1
  | none => 0

def memberIndexByAccount (round : DkgRound) (addr : Bytes) : Nat :=
  match round.members.find? (fun m => m.accountAddr = addr) with
  | some m => m.index
  | none => 0

def memberByIndex (round : DkgRound) (idx : Nat) : Option RoundMember :=
  round.members.find? (fun m => m.index = idx)

namespace State

variable (X : External) (ctx : Ctx) (s : State)

/-- Store new params, keeping the two one-way switches on. -/
def updateParams (msg : MsgUpdateParams) : Except String State := do
  rejectIf (msg.authority ≠ X.govAddr) "expected gov authority"
  match msg.params with
  | none => .error "invalid params json"
  | some p =>
    p.validate X
    let p := { p with
      dkgRetainActiveDealings := p.dkgRetainActiveDealings || s.params.dkgRetainActiveDealings
      dkgStrictConcentration := p.dkgStrictConcentration || s.params.dkgStrictConcentration }
    rejectIf (p.dkgEnabled ∧ p.dkgTransparent ∧ ctx.voteExtEnableHeight.getD 0 = 0)
      "dkg_transparent requires CometBFT vote extensions to be scheduled first (consensus param vote_extensions_enable_height must be non-zero)"
    rejectIf (p.dkgEnabled ∧ p.dkgTransparent ∧ 0 < ctx.maxBlockBytes.getD 0
        ∧ p.dkgInjectedCommitFitsMaxTxBytes (ctx.maxBlockBytes.getD 0) = false)
      s!"transparent DKG vote-extension aggregate is estimated at {p.dkgInjectedCommitBytesUpperBound} bytes; lower dkg_max_members/dkg_share_budget or raise consensus block max bytes"
    .ok { s with params := p }

def commitTx (msg : MsgCommitTx) : Except String State := do
  rejectIf (msg.commitHash.length ≠ 32) "commit_hash must be 32 bytes"
  rejectIf (maxInFlightCommits ≤ s.globalCommitCount.getD 0)
    s!"commit mempool full: {maxInFlightCommits} in-flight commits at the ceiling"
  rejectIf (maxCommitsPerSender ≤ (s.senderCommitCounts.lookup msg.sender.1).getD 0)
    s!"sender is at its in-flight commit ceiling ({maxCommitsPerSender} commits)"
  let c : Commit :=
    { sender := msg.sender, commitHash := msg.commitHash, height := ctx.height, seq := s.seq }
  .ok ({ s with seq := wrap64 (s.seq + 1) }.setCommit c)

def revealTx (X : External) (ctx : Ctx) (s : State) (msg : MsgRevealTx) : Except String State :=
  match s.commits.get? (toLex (msg.commitHeight, toLex (msg.sender.1, msg.seq))) with
  | none => .error "no matching commit for (sender, commit_height, seq)"
  | some c => do
    rejectIf (c.sender ≠ msg.sender.1) "sender is not the committer"
    rejectIf (ctx.height < addSat msg.commitHeight s.params.revealDelay) "reveal too early"
    rejectIf (maxCiphertextBodyBytes < msg.revealTx.length)
      s!"reveal_tx exceeds the {maxCiphertextBodyBytes}-byte cap (got {msg.revealTx.length})"
    rejectIf (maxRevealSaltBytes < msg.salt.length)
      s!"salt exceeds the {maxRevealSaltBytes}-byte cap (got {msg.salt.length})"
    rejectIf (X.sha256 (msg.revealTx ++ msg.salt) ≠ c.commitHash)
      "reveal does not match commitment hash"
    let pr : PendingReveal :=
      { sender := msg.sender, commitHeight := msg.commitHeight, seq := msg.seq
        revealTx := msg.revealTx, salt := msg.salt }
    .ok { s with pending := s.pending.put pr }

/-- Whether the active epoch's committee is too concentrated to accept submissions; `none` is a
panic of the stake arithmetic. -/
def committeeConcentrationBreached (epoch : Nat) (strict : Bool) : Option Bool :=
  if epoch = 0 then some false
  else match s.activeKeys.get? epoch with
    | none => some false
    | some ak =>
      if ak.threshold = 0 then some false
      else match s.rounds.get? epoch with
        | none => some false
        | some round =>
          if round.members.length = 0 then some false
          else
            let S := totalEvalPoints round.members
            let strandBar := if strict then S + 1 - ak.threshold else 0
            match operatorBreach ak.threshold strandBar round.members with
            | some b => some b
            | none => coalitionBelowTwoThirdsCanDecrypt round.members ak.threshold

/-- The admission checks of a ciphertext: the state with its rate counters bumped, and the epoch to
stamp it with. -/
def admitSubmission (msg : MsgSubmitEncrypted) : Except String (State × Nat) := do
  let p := s.params
  let submitter := msg.submitter.1
  rejectIf (p.encEnabled = false) "encrypted mempool is not enabled"
  rejectIf (p.encExecEnabled = false)
    "encrypted submissions are disabled while enc_exec_enabled is false: a matured ciphertext would be decrypted and consumed WITHOUT executing your transaction"
  rejectIf (msg.a.length = 0 ∨ msg.body.length = 0) "missing ciphertext (a/body)"
  rejectIf (validCompressedPoint X msg.a = false)
    "ciphertext ephemeral point A is not a valid compressed secp256k1 point"
  rejectIf (msg.nonce.length ≠ nonceSize)
    s!"nonce must be {nonceSize} bytes, got {msg.nonce.length}"
  rejectIf (maxCiphertextBodyBytes < msg.body.length)
    s!"ciphertext body exceeds the {maxCiphertextBodyBytes}-byte cap (got {msg.body.length})"
  match transparentDkgRuntimeUnavailable ctx p with
  | some reason => .error reason
  | none =>
    rejectIf (0 < p.maxInFlightEncTx ∧ p.maxInFlightEncTx ≤ s.getGlobalEncCount)
      s!"encrypted mempool full: {p.maxInFlightEncTx} in-flight ciphertexts at the global ceiling"
    rejectIf (0 < p.maxInFlightPerSubmitter
        ∧ p.maxInFlightPerSubmitter ≤ s.getSubmitterEncCount submitter)
      s!"submitter is at its in-flight ceiling ({p.maxInFlightPerSubmitter} ciphertexts)"
    let r := s.bumpEncSubmitsThisBlock submitter ctx.height
    rejectIf (maxEncSubmitsPerBlockPerSubmitter < r.2)
      s!"submitter exceeded the per-block admission rate ({maxEncSubmitsPerBlockPerSubmitter} ciphertexts this block)"
    let g := r.1.bumpGlobalEncSubmitsThisBlock ctx.height
    rejectIf (maxEncSubmitsPerBlockGlobal < g.2)
      s!"encrypted mempool exceeded the global per-block admission rate ({maxEncSubmitsPerBlockGlobal} ciphertexts this block)"
    let s := g.1
    let epoch := if p.dkgEnabled then s.activeEpoch else 0
    rejectIf (p.dkgEnabled ∧ epoch = 0) "DKG enabled but no active threshold key yet"
    match s.committeeConcentrationBreached epoch p.dkgStrictConcentration with
    | none => .error "panic: Int overflow"
    | some breached =>
      rejectIf (breached = true)
        "encrypted mempool unavailable: validator stake is too concentrated for confidentiality (a <=2/3-stake coalition holds enough decryption power) - send a normal transaction, or wait for the committee to decentralize"
      rejectIf (s.activeEpochCanDeriveShares p = false)
        "encrypted mempool unavailable: the active DKG epoch has no committed dealings, so no validator could derive a decryption share - send a normal transaction, or wait for the next rekey"
      rejectIf (verifyEncKeyPoK X ctx.chainID msg.a submitter msg.nonce msg.body msg.pok = false)
        "ciphertext key proof does not bind A to the submitter (same-A replay is rejected)"
      .ok (s, epoch)

/-- Accept a ciphertext: the admission checks, then the bond and the store writes. `escrowed` is
whether the bank could move the bond into the module account. -/
def submitEncrypted (escrowed : Bool) (s : State) (msg : MsgSubmitEncrypted) :
    Except String State :=
  let p := s.params
  let submitter := msg.submitter.1
  match s.admitSubmission X ctx msg with
  | .error err => .error err
  | .ok (s, epoch) =>
    let bond := p.encSubmitBond
    if bond = 0 then
      .ok (s.submitEncTx submitter ctx.height p.decryptDelay msg.a msg.nonce msg.body epoch).1
    else do
      rejectIf (X.validAccAddress submitter = false)
        "submitter must be a valid bech32 address to post the submit bond"
      rejectIf (X.validDenom p.encSubmitBondDenom = false) "panic: invalid denom"
      rejectIf (escrowed = false) "cannot escrow the submit bond"
      let s := { s with
        bankOps := s.bankOps ++ [BankOp.escrow submitter p.encSubmitBondDenom bond] }
      let r := s.submitEncTx submitter ctx.height p.decryptDelay msg.a msg.nonce msg.body epoch
      .ok (r.1.stampBond r.2 bond p.encSubmitBondDenom (bond * p.encSubmitBondBurnBps / 10000))

/-- The signer's index on the legacy share path: its member index in the round of the ciphertext,
or its keyper index when the DKG is off. -/
def shareSignerIndex (msg : MsgSubmitDecryptionShare) : Except String Nat :=
  if s.params.dkgEnabled then
    match s.encTxs.get? (key2 msg.decryptHeight msg.seq) with
    | none => .error "no matching encrypted tx for (decrypt_height, seq)"
    | some e =>
      match s.rounds.get? e.epoch with
      | none => .error s!"no DKG round for epoch {e.epoch}"
      | some round =>
        let idx := memberIndexByAccount round msg.keyper.1
        if idx = 0 then .error s!"signer is not a member of epoch {e.epoch}" else .ok idx
  else
    let idx := keyperIndex s.params.keypers msg.keyper.1
    if idx = 0 then .error "signer is not an authorized keyper" else .ok idx

/-- Record a keyper's share on the legacy path, unchecked. -/
def submitDecryptionShare (msg : MsgSubmitDecryptionShare) : Except String State := do
  rejectIf (s.params.encEnabled = false) "encrypted mempool is not enabled"
  rejectIf (s.params.dkgTransparent = true)
    "transparent DKG is active: the vote-extension share path replaces MsgSubmitDecryptionShare"
  rejectIf (msg.d.length = 0) "missing decryption share (d)"
  rejectIf (ctx.height < msg.decryptHeight)
    s!"decryption share submitted before maturity (decrypt_height {msg.decryptHeight} > current height {ctx.height})"
  match s.shareSignerIndex msg with
  | .error err => .error err
  | .ok idx =>
    rejectIf (msg.index ≠ idx) s!"index mismatch: expected {idx}, got {msg.index}"
    rejectIf (s.encShares.has (key3 msg.decryptHeight msg.seq msg.index) = true)
      s!"a decryption share is already recorded for (decrypt_height={msg.decryptHeight}, seq={msg.seq}, index={msg.index}); shares are write-once"
    .ok { s with encShares := s.encShares.put msg.share }

/-- The sealed shares of a legacy dealing: one per member index. -/
def checkDealShares (round : DkgRound) : List DkgStoredEncShare → Except String Unit :=
  checkDistinct DkgStoredEncShare.memberIndex
    (fun _ sh => rejectIf ((memberByIndex round sh.memberIndex).isNone = true)
      s!"enc_share for non-member index {sh.memberIndex}")
    (fun _ sh => s!"duplicate enc_share for member {sh.memberIndex}")
    (fun _ sh => do
      rejectIf (validCompressedPoint X sh.a = false)
        s!"enc_share for member {sh.memberIndex} has a malformed A (not a compressed secp256k1 point)"
      rejectIf (sh.nonce.length ≠ nonceSize)
        s!"enc_share for member {sh.memberIndex} has a {sh.nonce.length}-byte nonce, want {nonceSize}"
      rejectIf (sh.body.length = 0) s!"empty enc_share body for member {sh.memberIndex}") 0 []

def dkgDeal (msg : MsgDkgDeal) : Except String State := do
  rejectIf (s.params.dkgEnabled = false) "DKG is not enabled"
  rejectIf (s.params.dkgTransparent = true)
    "transparent DKG is active: the vote-extension deal path replaces MsgDkgDeal"
  match s.rounds.get? msg.epoch with
  | none => .error s!"no open DKG round for epoch {msg.epoch}"
  | some round =>
    rejectIf (round.status ≠ .isOpen) s!"no open DKG round for epoch {msg.epoch}"
    rejectIf (round.dealDeadline < ctx.height)
      s!"deal window closed for epoch {msg.epoch} (deadline {round.dealDeadline})"
    let idx := memberIndexByAccount round msg.dealer.1
    rejectIf (idx = 0) s!"dealer is not a member of epoch {msg.epoch}"
    rejectIf (msg.commitments.length ≠ round.threshold)
      s!"expected {round.threshold} commitments, got {msg.commitments.length}"
    rejectIf ((parseCommitmentPoints X msg.commitments).isNone = true)
      "malformed commitment (not a compressed secp256k1 point)"
    rejectIf (msg.encShares.length ≠ round.members.length)
      s!"expected {round.members.length} enc_shares, got {msg.encShares.length}"
    checkDealShares X round msg.encShares
    rejectIf (s.dealings.has (key2 msg.epoch idx) = true)
      s!"dealer already dealt for epoch {msg.epoch} (deals are first-wins)"
    let dealing : Dealing :=
      { epoch := msg.epoch, dealerIndex := idx, dealer := msg.dealer
        commitments := msg.commitments, encShares := msg.encShares }
    .ok { s with dealings := s.dealings.put dealing }

/-- The proof of a legacy complaint; a missing sealed share needs none. -/
def checkLegacyComplaint (accuserIdx : Nat) (encPub : Bytes) (dealing : Dealing)
    (msg : MsgDkgComplaint) : Except String Unit :=
  match dealing.encShares.find? (fun sh => sh.memberIndex = accuserIdx) with
  | none => .ok ()
  | some enc => do
    let verdict := verifyJustifiedComplaint X accuserIdx encPub dealing.commitments enc.a
      enc.nonce enc.body msg.sharedPoint msg.dleqProof
    rejectIf (verdict.2 = false) "invalid complaint proof (cannot frame a dealer)"
    rejectIf (verdict.1 = false) "dealer's share is valid; frivolous complaint"

def dkgComplaint (msg : MsgDkgComplaint) : Except String State := do
  rejectIf (s.params.dkgEnabled = false) "DKG is not enabled"
  rejectIf (s.params.dkgTransparent = true)
    "transparent DKG is active: the vote-extension complaint path replaces MsgDkgComplaint"
  match s.rounds.get? msg.epoch with
  | none => .error s!"no open DKG round for epoch {msg.epoch}"
  | some round =>
    rejectIf (round.status ≠ .isOpen) s!"no open DKG round for epoch {msg.epoch}"
    rejectIf (round.complaintDeadline < ctx.height)
      s!"complaint window closed for epoch {msg.epoch}"
    let accuserIdx := memberIndexByAccount round msg.accuser.1
    rejectIf (accuserIdx = 0) s!"accuser is not a member of epoch {msg.epoch}"
    let encPub := ((memberByIndex round accuserIdx).map RoundMember.encPubKey).getD []
    match s.dealings.get? (key2 msg.epoch msg.against) with
    | none => .error s!"no dealing from member {msg.against} in epoch {msg.epoch}"
    | some dealing =>
      checkLegacyComplaint X accuserIdx encPub dealing msg
      let rec_ : DkgComplaintRec :=
        { epoch := msg.epoch, against := msg.against, accuserIndex := accuserIdx }
      .ok { s with complaints := s.complaints.put rec_ }

end State

end EncMempool
