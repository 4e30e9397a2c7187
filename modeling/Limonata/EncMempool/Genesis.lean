import Limonata.EncMempool.VoteExt

/-!
# x/encmempool — genesis (`types/types.go`, `keeper/genesis.go`)

`GenesisState.validate` is the gate of an import: it re-derives the facts the handlers establish
(round thresholds, the qualified dealers' weight, references between shares, ciphertexts, rounds
and keys). `initGenesis` writes a validated genesis into an empty store and rebuilds the in-flight
counters; `exportGenesis` reads the exported stores back in key order.
-/

namespace EncMempool

open Machine Check RecStore

variable {X : External} {r : DkgRound} {gs : GenesisState} {ep : Nat} {ak : ActiveThresholdKey}
  {e : EncTx}

/-! ## Rounds -/

/-- The members of an imported round, with the indices and operators already seen. -/
def checkRoundMembers (X : External) :
    Nat → List Nat → List Bytes → List RoundMember → Except String Unit
  | _, _, _, [] => .ok ()
  | i, seenIdx, seenOp, m :: ms => do
    rejectIf (m.index = 0) s!"members[{i}]: index must be non-zero"
    rejectIf (m.index ∈ seenIdx) s!"members[{i}]: duplicate index {m.index}"
    rejectIf (m.operatorAddr = []) s!"members[{i}]: operator_addr is required"
    rejectIf (m.operatorAddr ∈ seenOp) s!"members[{i}]: duplicate operator_addr"
    rejectIf (0 < m.encPubKey.length ∧ validCompressedPoint X m.encPubKey = false)
      s!"members[{i}]: enc_pubkey is not a valid compressed secp256k1 point"
    checkRoundMembers X (i + 1) (m.index :: seenIdx) (m.operatorAddr :: seenOp) ms

theorem checkRoundMembers_eq_ok {i : Nat} {seenIdx : List Nat} {seenOp : List Bytes}
    {ms : List RoundMember} :
    checkRoundMembers X i seenIdx seenOp ms = .ok () ↔
      (∀ m ∈ ms, m.index ≠ 0 ∧ m.index ∉ seenIdx ∧ m.operatorAddr ≠ [] ∧ m.operatorAddr ∉ seenOp
        ∧ (0 < m.encPubKey.length → validCompressedPoint X m.encPubKey = true))
      ∧ (ms.map RoundMember.index).Nodup ∧ (ms.map RoundMember.operatorAddr).Nodup := by
  induction ms generalizing i seenIdx seenOp with
  | nil => simp [checkRoundMembers]
  | cons m ms ih =>
    rw [List.forall_mem_cons]
    simp only [checkRoundMembers, bind_unit_eq_ok, rejectIf_eq_ok, ih, List.map_cons,
      List.nodup_cons, List.mem_cons, not_or, List.mem_map, not_and, Bool.not_eq_false, not_exists]
    constructor
    · rintro ⟨h1, h2, h3, h4, h5, hall, hidx, hop⟩
      exact ⟨⟨⟨h1, h2, h3, h4, h5⟩, fun x hx => ⟨(hall x hx).1, (hall x hx).2.1.2,
        (hall x hx).2.2.1, (hall x hx).2.2.2.1.2, (hall x hx).2.2.2.2⟩⟩,
        ⟨fun x hx => (hall x hx).2.1.1, hidx⟩, fun x hx => (hall x hx).2.2.2.1.1, hop⟩
    · rintro ⟨⟨⟨h1, h2, h3, h4, h5⟩, hall⟩, ⟨hnidx, hidx⟩, hnop, hop⟩
      exact ⟨h1, h2, h3, h4, h5, fun x hx => ⟨(hall x hx).1, ⟨hnidx x hx, (hall x hx).2.1⟩,
        (hall x hx).2.2.1, ⟨hnop x hx, (hall x hx).2.2.2.1⟩, (hall x hx).2.2.2.2⟩, hidx, hop⟩

/-- The points of one weighted member; the result extends the points seen. -/
def checkPoints (i : Nat) : List Nat → List Nat → Except String (List Nat)
  | seen, [] => .ok seen
  | seen, p :: ps =>
    if p = 0 then .error s!"members[{i}]: eval point 0 is invalid"
    else if p ∈ seen then .error s!"members[{i}]: duplicate eval point {p}"
    else checkPoints i (p :: seen) ps

/-- The members of a weighted round: the points seen and the total weight. -/
def checkWeightedMembers :
    Nat → List Nat → Int → List RoundMember → Except String (List Nat × Int)
  | _, seen, total, [] => .ok (seen, total)
  | i, seen, total, m :: ms =>
    if m.weighted = false then .error s!"members[{i}]: mixed weighted/unweighted round"
    else if m.weight < 0 then .error s!"members[{i}]: negative weight"
    else match add256 total m.weight with
      | none => .error "panic: Int overflow"
      | some total =>
        if 0 < m.evalPoints.length ∧ m.weight ≤ 0 then
          .error s!"members[{i}]: weighted member owns eval points with non-positive weight"
        else match checkPoints i seen m.evalPoints with
          | .error err => .error err
          | .ok seen => checkWeightedMembers (i + 1) seen total ms

/-- The threshold an imported weighted round with `k` points must have. -/
def wantThreshold (k : Nat) : Nat :=
  let want := wrap32 (2 * k / 3 + 1)
  if k < want then wrap32 k else want

def validateWeightedRound (r : DkgRound) : Except String Unit :=
  match checkWeightedMembers 0 [] 0 r.members with
  | .error err => .error err
  | .ok (seen, total) => do
    let k := seen.length
    rejectIf (¬ ∀ p ∈ List.range' 1 k, p ∈ seen)
      s!"weighted eval points must be contiguous 1..{k}"
    rejectIf (total ≤ 0) "weighted round total weight must be positive"
    rejectIf (r.threshold ≠ wantThreshold k)
      s!"weighted threshold {r.threshold}, want strict >2/3 threshold {wantThreshold k} for {k} eval points"

def DkgStatus.known : DkgStatus → Bool
  | .other _ => false
  | _ => true

def validateImportedRound (X : External) (r : DkgRound) : Except String Unit := do
  rejectIf (r.status.known = false) "invalid status"
  rejectIf (r.dealDeadline < r.openHeight ∨ r.complaintDeadline < r.dealDeadline)
    s!"invalid deadlines: open={r.openHeight} deal={r.dealDeadline} complaint={r.complaintDeadline}"
  rejectIf (r.members.length = 0) "members must be non-empty"
  rejectIf (r.threshold = 0) "threshold must be non-zero"
  rejectIf (totalEvalPoints r.members < r.threshold)
    s!"threshold {r.threshold} exceeds total eval points {totalEvalPoints r.members}"
  checkRoundMembers X 0 [] [] r.members
  if r.members.any RoundMember.weighted then validateWeightedRound r else pure ()

theorem validateImportedRound_eq_ok :
    validateImportedRound X r = .ok () ↔
      r.status.known = true ∧ (r.openHeight ≤ r.dealDeadline ∧ r.dealDeadline ≤ r.complaintDeadline)
      ∧ r.members ≠ [] ∧ r.threshold ≠ 0 ∧ r.threshold ≤ totalEvalPoints r.members
      ∧ checkRoundMembers X 0 [] [] r.members = .ok ()
      ∧ (r.members.any RoundMember.weighted = true → validateWeightedRound r = .ok ()) := by
  have hlast : (if r.members.any RoundMember.weighted then validateWeightedRound r else pure ())
      = .ok () ↔ (r.members.any RoundMember.weighted = true → validateWeightedRound r = .ok ()) := by
    split_ifs with h
    · exact ⟨fun hok _ => hok, fun hok => hok h⟩
    · exact ⟨fun _ _ => by contradiction, fun _ => rfl⟩
  simp only [validateImportedRound, bind_unit_eq_ok, rejectIf_eq_ok, hlast, not_or, not_lt,
    List.length_eq_zero_iff, Bool.not_eq_false, ne_eq]

/-! ## Keys and dealings -/

def allPoints (X : External) (bs : List Bytes) : Bool := bs.all (validCompressedPoint X)

/-- The dealers of an imported key: members, each once; the result is their weight. -/
def checkQual (members : List RoundMember) :
    Nat → List Nat → Nat → List Nat → Except String Nat
  | _, _, weight, [] => .ok weight
  | i, seen, weight, q :: qs =>
    match memberPoints members q with
    | none => .error s!"qual[{i}]={q} is not a round member"
    | some w =>
      if q ∈ seen then .error s!"qual[{i}]={q} is duplicated"
      else checkQual members (i + 1) (q :: seen) (weight + w) qs

def validateImportedActiveKey (X : External) (ak : ActiveThresholdKey) (round : DkgRound) :
    Except String Unit := do
  rejectIf (ak.threshold = 0) "threshold must be non-zero"
  rejectIf (ak.threshold ≠ round.threshold)
    s!"threshold {ak.threshold} does not match round threshold {round.threshold}"
  rejectIf (validCompressedPoint X ak.pub = false) "pub is not a valid compressed secp256k1 point"
  rejectIf (ak.publicCommitments.length ≠ ak.threshold)
    s!"expected {ak.threshold} public commitments, got {ak.publicCommitments.length}"
  rejectIf (allPoints X ak.publicCommitments = false)
    "public_commitments: not a valid compressed secp256k1 point"
  rejectIf (ak.qual.length = 0) "qual must be non-empty"
  match checkQual round.members 0 [] 0 ak.qual with
  | .error err => .error err
  | .ok weight =>
    rejectIf (weight < ak.threshold)
      s!"qual owns {weight} eval points, below threshold {ak.threshold}"

/-- The sealed shares of an imported dealing: one per evaluation point. -/
def checkImportedShares (X : External) (round : DkgRound) :
    List DkgStoredEncShare → Except String Unit :=
  checkDistinct DkgStoredEncShare.memberIndex
    (fun i sh => rejectIf (evalPointOwner round.members sh.memberIndex = 0)
      s!"enc_shares[{i}]: eval point {sh.memberIndex} is not owned by any member")
    (fun i sh => s!"enc_shares[{i}]: duplicate eval point {sh.memberIndex}")
    (fun i sh => do
      rejectIf (validCompressedPoint X sh.a = false)
        s!"enc_shares[{i}]: A is not a valid compressed secp256k1 point"
      rejectIf (sh.nonce.length ≠ nonceSize)
        s!"enc_shares[{i}]: nonce length {sh.nonce.length}, want {nonceSize}"
      rejectIf (sh.body.length = 0) s!"enc_shares[{i}]: body is empty") 0 []

def validateImportedDealing (X : External) (d : Dealing) (round : DkgRound) :
    Except String Unit := do
  rejectIf (d.epoch ≠ round.epoch)
    s!"epoch {d.epoch} does not match round epoch {round.epoch}"
  rejectIf (d.dealerIndex = 0) "dealer_index must be non-zero"
  rejectIf ((memberByIndex round d.dealerIndex).isNone = true)
    s!"dealer_index {d.dealerIndex} is not a round member"
  rejectIf (d.commitments.length ≠ round.threshold)
    s!"expected {round.threshold} commitments, got {d.commitments.length}"
  rejectIf (allPoints X d.commitments = false)
    "commitments: not a valid compressed secp256k1 point"
  rejectIf (d.encShares.length ≠ totalEvalPoints round.members)
    s!"expected {totalEvalPoints round.members} encrypted shares, got {d.encShares.length}"
  checkImportedShares X round d.encShares

/-! ## The genesis state -/

namespace GenesisState

variable (X : External) (gs : GenesisState)

def roundOf (epoch : Nat) : Option DkgRound :=
  gs.dkgRounds.find? (fun r => r.epoch = epoch)

def activeKeyOf (epoch : Nat) : Option ActiveThresholdKey :=
  gs.activeKeys.find? (fun ak => ak.epoch = epoch)

def checkRounds : Except String Unit :=
  checkDistinct DkgRound.epoch
    (fun i r => rejectIf (r.epoch = 0) s!"dkg_rounds[{i}]: epoch must be non-zero")
    (fun i r => s!"dkg_rounds[{i}]: duplicate epoch {r.epoch}")
    (fun _ r => validateImportedRound X r) 0 [] gs.dkgRounds

def checkActiveKeys : Except String Unit :=
  checkDistinct ActiveThresholdKey.epoch
    (fun i ak => rejectIf (ak.epoch = 0) s!"active_keys[{i}]: epoch must be non-zero")
    (fun i ak => s!"active_keys[{i}]: duplicate epoch {ak.epoch}")
    (fun i ak => match gs.roundOf ak.epoch with
      | none => .error s!"active_keys[{i}]: no DKG round for epoch {ak.epoch}"
      | some round => validateImportedActiveKey X ak round) 0 [] gs.activeKeys

def checkActiveEpoch : Except String Unit :=
  if gs.activeEpoch = 0 then .ok ()
  else match gs.roundOf gs.activeEpoch with
    | none => .error s!"active_epoch {gs.activeEpoch} has no imported DKG round"
    | some r => do
      rejectIf (r.status ≠ .active) s!"active_epoch {gs.activeEpoch} round status is not active"
      rejectIf ((gs.activeKeyOf gs.activeEpoch).isNone = true)
        s!"active_epoch {gs.activeEpoch} has no imported active threshold key"

def checkDealing (i : Nat) (d : Dealing) : Except String Unit :=
  match gs.roundOf d.epoch with
  | none => .error s!"dealings[{i}]: no DKG round for epoch {d.epoch}"
  | some round => validateImportedDealing X d round

def checkEncTxKeys : Except String Unit :=
  checkDistinct EncTx.key (fun _ _ => .ok ())
    (fun i e => s!"enc_txs[{i}]: duplicate decrypt_height/seq ({e.decryptHeight},{e.seq})")
    (fun _ _ => .ok ()) 0 [] gs.encTxs

/-- The largest imported sequence number. -/
def maxSeq : Nat := (gs.encTxs.map EncTx.seq).foldl max 0

def checkShareKeys : Except String Unit :=
  checkDistinct EncShare.key (fun _ _ => .ok ())
    (fun i sh => s!"enc_shares[{i}]: duplicate decrypt_height/seq/index ({sh.decryptHeight},{sh.seq},{sh.index})")
    (fun i sh => rejectIf (key2 sh.decryptHeight sh.seq ∉ gs.encTxs.map EncTx.key)
      s!"enc_shares[{i}]: no imported enc tx for decrypt_height/seq ({sh.decryptHeight},{sh.seq})")
    0 [] gs.encShares

/-- The announced keys, with the operators and keys already seen. -/
def checkEncKeys (X : External) :
    Nat → List Bytes → List Bytes → List EncKeyReg → Except String Unit
  | _, _, _, [] => .ok ()
  | i, seenOp, seenKey, kr :: krs => do
    rejectIf (kr.operator = []) s!"enc_keys[{i}]: operator is required"
    rejectIf (kr.operator ∈ seenOp) s!"enc_keys[{i}]: duplicate operator"
    rejectIf (validCompressedPoint X kr.key = false)
      s!"enc_keys[{i}]: key is not a valid compressed secp256k1 point"
    rejectIf (kr.key ∈ seenKey) s!"enc_keys[{i}]: duplicate encryption key"
    checkEncKeys X (i + 1) (kr.operator :: seenOp) (kr.key :: seenKey) krs

def validateDkgImportState : Except String Unit := do
  gs.checkRounds X
  gs.checkActiveKeys X
  rejectIf (0 < gs.currentEpoch ∧ (gs.roundOf gs.currentEpoch).isNone = true)
    s!"current_epoch {gs.currentEpoch} has no imported DKG round"
  gs.checkActiveEpoch
  checkAll (gs.checkDealing X) 0 gs.dealings
  gs.checkEncTxKeys
  rejectIf (0 < gs.encTxs.length ∧ gs.encSeq ≤ gs.maxSeq)
    s!"enc_seq ({gs.encSeq}) must be greater than imported max enc tx seq ({gs.maxSeq})"
  gs.checkShareKeys
  checkEncKeys X 0 [] [] gs.encKeys

def checkShare (i : Nat) (sh : EncShare) : Except String Unit := do
  rejectIf (sh.verified = true)
    s!"enc_shares[{i}]: verified must be false in genesis (a share is only trusted after an on-chain DLEQ check, never by import)"
  rejectIf (sh.keyper = []) s!"enc_shares[{i}]: keyper is required"
  rejectIf (sh.index = 0) s!"enc_shares[{i}]: index must be non-zero"
  rejectIf (validCompressedPoint X sh.d = false)
    s!"enc_shares[{i}]: D is not a valid compressed secp256k1 point"

def checkEncTx (i : Nat) (e : EncTx) : Except String Unit := do
  rejectIf (validCompressedPoint X e.a = false)
    s!"enc_txs[{i}]: A is not a valid compressed secp256k1 point"
  rejectIf (e.nonce.length ≠ nonceSize)
    s!"enc_txs[{i}]: nonce length {e.nonce.length}, want {nonceSize}"
  rejectIf (e.body.length = 0) s!"enc_txs[{i}]: empty ciphertext body"
  rejectIf (0 < e.bond ∧ e.bond < e.bondBurn)
    s!"enc_txs[{i}]: bond_burn ({e.bondBurn}) exceeds bond ({e.bond})"
  rejectIf (0 < e.epoch ∧ (gs.roundOf e.epoch).isNone = true)
    s!"enc_txs[{i}]: epoch {e.epoch} has no imported DKG round"
  rejectIf (0 < e.epoch ∧ (gs.activeKeyOf e.epoch).isNone = true)
    s!"enc_txs[{i}]: epoch {e.epoch} has no imported active threshold key"

/-- Whether a genesis may be imported. -/
def validate : Except String Unit := do
  gs.params.validate X
  gs.validateDkgImportState X
  checkAll (checkShare X) 0 gs.encShares
  checkAll (gs.checkEncTx X) 0 gs.encTxs

end GenesisState

namespace State

/-- Store an imported ciphertext and take its references. -/
def importEncTx (s : State) (e : EncTx) : State :=
  { s with
    encTxs := s.encTxs.put e
    globalEncCount := incCount s.globalEncCount
    submitterEncCounts := s.submitterEncCounts.update e.submitter incCount
    epochEncCounts :=
      if 0 < e.epoch then s.epochEncCounts.update e.epoch incCount else s.epochEncCounts }

/-- The writes of an import, before the ciphertexts. -/
def importRecords (gs : GenesisState) : State :=
  let s := gs.commits.foldl setCommit { State.init with params := gs.params }
  { s with
    pending := gs.pending.foldl RecStore.put s.pending
    encSeq := gs.encSeq
    currentEpoch := gs.currentEpoch
    activeEpoch := gs.activeEpoch
    rounds := gs.dkgRounds.foldl RecStore.put .empty
    dealings := gs.dealings.foldl RecStore.put .empty
    activeKeys := gs.activeKeys.foldl RecStore.put .empty
    encPubKeys := gs.encKeys.foldl (fun st kr => KVStore.assign st kr.operator kr.key) .empty
    encKeyOwners := gs.encKeys.foldl (fun st kr => KVStore.assign st kr.key kr.operator) .empty
    encShares := (gs.encShares.map fun sh => { sh with verified := false }).foldl
      RecStore.put .empty }

/-- Import a validated genesis. -/
def initGenesis (X : External) (gs : GenesisState) : Except String State := do
  gs.validate X
  .ok (gs.encTxs.foldl importEncTx (importRecords gs))

/-- The exported genesis: every exported store in key order. -/
def exportGenesis (s : State) : GenesisState :=
  { params := s.params
    commits := s.commits.entries
    pending := s.pending.entries
    encSeq := s.encSeq
    encTxs := s.encTxs.entries
    encShares := s.encShares.entries
    dkgRounds := s.rounds.entries
    dealings := s.dealings.entries
    activeKeys := s.activeKeys.entries
    currentEpoch := s.currentEpoch
    activeEpoch := s.activeEpoch
    encKeys := s.encPubKeys.entries.map fun p => { operator := p.1, key := p.2 } }

end State

/-! ## What an accepted genesis has -/

/-- The facts a validated genesis carries, in the form the proofs use them. -/
structure GenesisState.Accepted (X : External) (gs : GenesisState) : Prop where
  params : gs.params.validate X = .ok ()
  rounds_nodup : (gs.dkgRounds.map DkgRound.epoch).Nodup
  round : ∀ r ∈ gs.dkgRounds, r.epoch ≠ 0 ∧ validateImportedRound X r = .ok ()
  keys_nodup : (gs.activeKeys.map ActiveThresholdKey.epoch).Nodup
  key : ∀ ak ∈ gs.activeKeys, ak.epoch ≠ 0
    ∧ ∃ r, gs.roundOf ak.epoch = some r ∧ validateImportedActiveKey X ak r = .ok ()
  current : 0 < gs.currentEpoch → ∃ r, gs.roundOf gs.currentEpoch = some r
  active : 0 < gs.activeEpoch → ∃ r ak, gs.roundOf gs.activeEpoch = some r ∧ r.status = .active
    ∧ gs.activeKeyOf gs.activeEpoch = some ak
  dealing : ∀ d ∈ gs.dealings, ∃ r, gs.roundOf d.epoch = some r
    ∧ validateImportedDealing X d r = .ok ()
  txs_nodup : (gs.encTxs.map EncTx.key).Nodup
  tx_seq : ∀ e ∈ gs.encTxs, e.seq < gs.encSeq
  shares_nodup : (gs.encShares.map EncShare.key).Nodup
  share_tx : ∀ sh ∈ gs.encShares, key2 sh.decryptHeight sh.seq ∈ gs.encTxs.map EncTx.key
  encKeys : GenesisState.checkEncKeys X 0 [] [] gs.encKeys = .ok ()
  share : ∀ sh ∈ gs.encShares, ∃ i, GenesisState.checkShare X i sh = .ok ()
  tx : ∀ e ∈ gs.encTxs, ∃ i, gs.checkEncTx X i e = .ok ()

theorem GenesisState.roundOf_spec (h : gs.roundOf ep = some r) : r ∈ gs.dkgRounds ∧ r.epoch = ep :=
  ⟨List.mem_of_find?_eq_some h, by simpa using List.find?_some h⟩

theorem GenesisState.activeKeyOf_spec (h : gs.activeKeyOf ep = some ak) :
    ak ∈ gs.activeKeys ∧ ak.epoch = ep :=
  ⟨List.mem_of_find?_eq_some h, by simpa using List.find?_some h⟩

theorem GenesisState.le_maxSeq (he : e ∈ gs.encTxs) : e.seq ≤ gs.maxSeq := by
  unfold maxSeq
  rw [List.foldl_eq_foldr]
  exact List.le_max_of_le' 0 (List.mem_map_of_mem he) le_rfl

theorem GenesisState.validate_spec (h : gs.validate X = .ok ()) : gs.Accepted X := by
  simp only [validate, validateDkgImportState, bind_unit_eq_ok, rejectIf_eq_ok] at h
  obtain ⟨hparams, ⟨hrounds, hkeys, hcur, hact, hdeal, htxs, hseq, hshares, henc⟩, hshare, htx⟩ := h
  obtain ⟨hrn, -, hround⟩ := checkDistinct_sound hrounds
  obtain ⟨hkn, -, hkey⟩ := checkDistinct_sound hkeys
  obtain ⟨htn, -, -⟩ := checkDistinct_sound htxs
  obtain ⟨hsn, -, hshtx⟩ := checkDistinct_sound hshares
  refine ⟨hparams, hrn, ?_, hkn, ?_, ?_, ?_, ?_, htn, ?_, hsn, ?_, henc, ?_, ?_⟩
  · intro r hr
    obtain ⟨i, hne, hvalid⟩ := hround r hr
    exact ⟨by simpa using hne, hvalid⟩
  · intro ak hak
    obtain ⟨i, hne, hvalid⟩ := hkey ak hak
    refine ⟨by simpa using hne, ?_⟩
    split at hvalid
    · cases hvalid
    · exact ⟨_, ‹_›, hvalid⟩
  · intro hpos
    simpa [hpos, Option.ne_none_iff_exists'] using hcur
  · intro hpos
    unfold checkActiveEpoch at hact
    rw [if_neg (by omega)] at hact
    split at hact
    · cases hact
    · rename_i r hr
      simp only [bind_unit_eq_ok, rejectIf_eq_ok, not_not] at hact
      obtain ⟨ak, hak⟩ := Option.ne_none_iff_exists'.mp (by simpa using hact.2)
      exact ⟨r, ak, hr, hact.1, hak⟩
  · intro d hd
    obtain ⟨i, hvalid⟩ := checkAll_sound hdeal d hd
    unfold checkDealing at hvalid
    split at hvalid
    · cases hvalid
    · exact ⟨_, ‹_›, hvalid⟩
  · intro e he
    have hlen : 0 < gs.encTxs.length := List.length_pos_of_mem he
    have hmax := le_maxSeq he
    omega
  · intro sh hsh
    obtain ⟨i, -, hmem⟩ := hshtx sh hsh
    simpa using hmem
  · exact checkAll_sound hshare
  · exact checkAll_sound htx

theorem GenesisState.Accepted.key_round (h : gs.Accepted X) (hak : gs.activeKeyOf ep = some ak) :
    ∃ r, gs.roundOf ep = some r ∧ ak.threshold = r.threshold := by
  obtain ⟨hmem, rfl⟩ := activeKeyOf_spec hak
  obtain ⟨-, r, hr, hvalid⟩ := h.key ak hmem
  simp only [validateImportedActiveKey, bind_unit_eq_ok, rejectIf_eq_ok, not_not] at hvalid
  exact ⟨r, hr, hvalid.2.1⟩

theorem GenesisState.Accepted.tx_key (h : gs.Accepted X) (he : e ∈ gs.encTxs) (hpos : 0 < e.epoch) :
    ∃ ak, gs.activeKeyOf e.epoch = some ak := by
  obtain ⟨i, hvalid⟩ := h.tx e he
  simp only [checkEncTx, bind_unit_eq_ok, rejectIf_eq_ok] at hvalid
  simpa [hpos, Option.ne_none_iff_exists'] using hvalid.2.2.2.2.2

namespace State

theorem initGenesis_spec {X : External} {gs : GenesisState} {s : State}
    (h : initGenesis X gs = .ok s) :
    gs.Accepted X ∧ s = gs.encTxs.foldl importEncTx (importRecords gs) := by
  simp only [initGenesis, bind_unit_eq_ok] at h
  cases h.2
  exact ⟨GenesisState.validate_spec h.1, rfl⟩

theorem foldl_setCommit_frame (cs : List Commit) (s : State) :
    ∃ c g sc, cs.foldl setCommit s = { s with
      commits := c, globalCommitCount := g, senderCommitCounts := sc } := by
  induction cs generalizing s with
  | nil => exact ⟨_, _, _, rfl⟩
  | cons x cs ih =>
    obtain ⟨c, g, sc, heq⟩ := ih (s.setCommit x)
    rw [List.foldl_cons, heq]
    unfold setCommit
    split_ifs
    · exact ⟨_, _, _, rfl⟩
    · exact ⟨_, _, _, rfl⟩

theorem importRecords_eq (gs : GenesisState) : ∃ c g sc, importRecords gs = { State.init with
    params := gs.params
    commits := c
    globalCommitCount := g
    senderCommitCounts := sc
    pending := gs.pending.foldl RecStore.put .empty
    encSeq := gs.encSeq
    currentEpoch := gs.currentEpoch
    activeEpoch := gs.activeEpoch
    rounds := gs.dkgRounds.foldl RecStore.put .empty
    dealings := gs.dealings.foldl RecStore.put .empty
    activeKeys := gs.activeKeys.foldl RecStore.put .empty
    encPubKeys := gs.encKeys.foldl (fun st kr => KVStore.assign st kr.operator kr.key) .empty
    encKeyOwners := gs.encKeys.foldl (fun st kr => KVStore.assign st kr.key kr.operator) .empty
    encShares := (gs.encShares.map fun sh => { sh with verified := false }).foldl
      RecStore.put .empty } := by
  obtain ⟨c, g, sc, heq⟩ := foldl_setCommit_frame gs.commits { State.init with params := gs.params }
  refine ⟨c, g, sc, ?_⟩
  unfold importRecords
  rw [heq]
  rfl

/-- Importing ciphertexts writes them and their counters, nothing else. -/
theorem foldl_importEncTx_frame (es : List EncTx) (s : State) :
    ∃ g sub ep, es.foldl importEncTx s = { s with
      encTxs := es.foldl RecStore.put s.encTxs
      globalEncCount := g, submitterEncCounts := sub, epochEncCounts := ep } := by
  induction es generalizing s with
  | nil => exact ⟨_, _, _, rfl⟩
  | cons e es ih =>
    obtain ⟨g, sub, ep, heq⟩ := ih (s.importEncTx e)
    exact ⟨g, sub, ep, heq⟩

/-- How an imported state reads its genesis. -/
structure Imported (X : External) (gs : GenesisState) (s : State) : Prop where
  accepted : gs.Accepted X
  params : s.params = gs.params
  encSeq : s.encSeq = gs.encSeq
  current : s.currentEpoch = gs.currentEpoch
  active : s.activeEpoch = gs.activeEpoch
  round : ∀ ep, s.rounds.get? ep = gs.roundOf ep
  key : ∀ ep, s.activeKeys.get? ep = gs.activeKeyOf ep
  tx : ∀ e, e ∈ s.encTxs.entries ↔ e ∈ gs.encTxs
  share : ∀ sh ∈ s.encShares.entries, ∃ sh' ∈ gs.encShares, sh = { sh' with verified := false }
  dealing : ∀ d ∈ s.dealings.entries, d ∈ gs.dealings
  dealt : ∀ d ∈ gs.dealings, s.dealings.has d.key = true
  encPubKeys : s.encPubKeys
    = gs.encKeys.foldl (fun st kr => KVStore.assign st kr.operator kr.key) .empty
  encKeyOwners : s.encKeyOwners
    = gs.encKeys.foldl (fun st kr => KVStore.assign st kr.key kr.operator) .empty
  complaints : s.complaints = .empty
  rejectedComplaints : s.rejectedComplaints = .empty
  rejectedShares : s.rejectedShares = .empty
  shareKeys : s.shareKeys = .empty
  shareKeyCursors : s.shareKeyCursors = .empty
  strandStreaks : s.strandStreaks = .empty

theorem mem_foldl_put_empty {K V : Type} [LinearOrder K] {key : V → K} {vs : List V} {v : V}
    (h : v ∈ (vs.foldl RecStore.put (.empty : RecStore key)).entries) : v ∈ vs :=
  (mem_of_mem_foldl_put h).resolve_left (by simp)

theorem initGenesis_imported {X : External} {gs : GenesisState} {s : State}
    (h : initGenesis X gs = .ok s) : Imported X gs s := by
  obtain ⟨hacc, rfl⟩ := initGenesis_spec h
  obtain ⟨c, g, sc, hrec⟩ := importRecords_eq gs
  obtain ⟨_, _, _, heq⟩ := foldl_importEncTx_frame gs.encTxs (importRecords gs)
  rw [hrec] at heq
  rw [hrec, heq]
  refine ⟨hacc, rfl, rfl, rfl, rfl, fun ep => ?_, fun ep => ?_, fun e => ?_, fun sh hsh => ?_,
    fun d hd => mem_foldl_put_empty hd, fun d hd => has_foldl_put (.inr ⟨d, hd, rfl⟩),
    rfl, rfl, rfl, rfl, rfl, rfl, rfl, rfl⟩
  · exact get?_foldl_put_empty hacc.rounds_nodup ep
  · exact get?_foldl_put_empty hacc.keys_nodup ep
  · refine ⟨fun he => mem_foldl_put_empty he, fun he => (mem_entries_iff _ _).mpr ?_⟩
    exact get?_foldl_put hacc.txs_nodup he
  · obtain ⟨sh', hsh', rfl⟩ := List.mem_map.mp (mem_foldl_put_empty hsh)
    exact ⟨sh', hsh', rfl⟩

end State

end EncMempool
