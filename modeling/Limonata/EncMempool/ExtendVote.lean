import Limonata.EncMempool.Threshold
import Limonata.EncMempool.VoteExt

/-!
# x/encmempool — the vote extension a node builds (`evmd/dkg_voteext.go`, `dkgnode/enckey.go`)

What `ExtendVote` attaches to a node's vote: its encryption key, its dealing for the open round,
decryption shares for matured ciphertexts, complaints against dealers of the open round and reports
against dealers of the serving key. Randomness, signing and sealing are the node's own; everything
else is read from the committed state.
-/

namespace EncMempool

open Machine

structure EncKey (X : External) where
  priv : X.Scalar
  pub : Bytes

/-- A qualified dealer without a good share for one of the node's points. -/
structure PoisonReport where
  dealer : Nat
  point : Nat
  deriving DecidableEq

/-- What a node has of its own. -/
structure Node (X : External) where
  encKey : Option (EncKey X)
  /-- The operator its consensus address resolves to, empty if there is none. -/
  myOperator : Bytes
  /-- The DER signature of a digest. -/
  ecdsaSign : X.Scalar → Bytes → Bytes
  /-- The nonce derived from the index, the secret, `A`, `D` and `Y` of a proof. -/
  deriveDLEQNonce : Nat → X.Scalar → X.Point → X.Point → X.Point → X.Scalar
  /-- AES-256-GCM `Seal` of a message under a key and a nonce. -/
  gcmSeal : Bytes → Bytes → Bytes → Bytes
  /-- The coefficients drawn for a dealing. -/
  coeff : Nat → RandScalar X
  /-- The randomness drawn for each sealed share. -/
  sealRand : Nat → RandScalar X × Nonce
  /-- The verdicts on the dealers of an epoch, once computed. -/
  dkgPoisonRpts : Nat → Option (List PoisonReport)

namespace Node

variable {X : External} (node : Node X)

/-! ## Proofs and signatures -/

/-- A partial decryption with the proof that it was made with the share. -/
def proveDecryptShare (share : Share X) (ctA : Bytes) : Option (Bytes × DLEQProof X) := do
  let ds ← computeShare X share ctA
  let A ← X.parsePubKey ctA
  let D ← X.parsePubKey ds.2
  let Y := X.baseMul share.xi
  let k := node.deriveDLEQNonce share.index share.xi A D Y
  let c := dleqChallenge X share.index A D Y (X.baseMul k) (X.mulPoint k A)
  some (ds.2, ⟨c, X.scalarAdd k (X.scalarMul c share.xi)⟩)

def marshalDLEQProof (proof : DLEQProof X) : Bytes := X.scalarBytes proof.c ++ X.scalarBytes proof.z

/-- The proof of possession of the encryption key, bound to the operator. -/
def signEncKeyPoP (encPriv : X.Scalar) (operator : Bytes) : Bytes :=
  if operator = [] then []
  else node.ecdsaSign encPriv
    (X.sha256 (bytesOf "LIMO-DKG-ENCKEY-POP\x00" ++ operator))

/-! ## The dealing -/

/-- Seal the share of each point to its owner, from the `i`-th draw on. -/
def sealShares (coeffs : List X.Scalar) : Nat → List (Bytes × Nat) → Option (List DkgStoredEncShare)
  | _, [] => some []
  | i, (encPub, p) :: rest => do
    let share ← evalPoly X p coeffs
    let ct ← encryptShareTo X node.gcmSeal encPub share (node.sealRand i).1 (node.sealRand i).2
    let more ← sealShares coeffs (i + 1) rest
    some ({ memberIndex := p, a := ct.a, nonce := ct.nonce, body := ct.body } :: more)

/-- The points of a round, each with the key of its owner. -/
def sealTargets (members : List RoundMember) : List (Bytes × Nat) :=
  members.flatMap fun m => m.ownedEvalPoints.map fun p => (m.encPubKey, p)

def buildDealing (epoch : Nat) (members : List RoundMember) (thr : Nat) : Option VoteExtDealing :=
  let coeffs := (List.range thr).map fun j => (node.coeff j).1
  if thr < 1 ∨ totalEvalPoints members = 0 then none
  else (node.sealShares coeffs 0 (sealTargets members)).map fun encShares =>
    { epoch := epoch
      commitments := coeffs.map fun a => X.serializeCompressed (X.baseMul a)
      encShares := encShares }

/-! ## Poisoned dealers -/

/-- Whether the share a dealer sealed to `p` opens and fits the commitments. -/
def opensGood (encPriv : X.Scalar) (dealing : Dealing) (p : Nat) : Bool :=
  match dealing.encShares.find? (fun e => e.memberIndex = p) with
  | none => false
  | some e =>
    match decryptShareFrom X encPriv p ⟨e.a, e.nonce, e.body⟩,
        parseCommitmentPoints X dealing.commitments with
    | some share, some commitments => verifyShare X commitments p share
    | _, _ => false

/-- The points and dealers whose share is missing, does not open or does not fit. -/
def detectPoisonedDealers (encPriv : X.Scalar) (qual : List Nat) (dealings : Nat → Option Dealing)
    (myEvalPoints : List Nat) : List PoisonReport :=
  myEvalPoints.flatMap fun p => qual.filterMap fun dealer =>
    (dealings dealer).bind fun d =>
      if opensGood encPriv d p then none else some { dealer := dealer, point := p }

/-- The verdict of an epoch is computed once. -/
def cachedPoisonReports (epoch : Nat) (encPriv : X.Scalar) (qual : List Nat)
    (dealings : Nat → Option Dealing) (myPoints : List Nat) : List PoisonReport :=
  (node.dkgPoisonRpts epoch).getD (detectPoisonedDealers encPriv qual dealings myPoints)

/-- The proof-bearing complaint about a sealed share. -/
def accuse (encPriv : X.Scalar) (epoch against p : Nat) (encA : Bytes) : Option VoteExtComplaint :=
  (node.proveDecryptShare ⟨p, encPriv⟩ encA).map fun proof =>
    { epoch := epoch, against := against, evalPoint := p
      sharedPoint := proof.1, dleqProof := marshalDLEQProof proof.2 }

/-- The complaint about a share that was never dealt carries no proof. -/
def noDeal (epoch against p : Nat) : VoteExtComplaint :=
  { epoch := epoch, against := against, evalPoint := p, sharedPoint := [], dleqProof := [] }

/-- The points this node owns in a round, with its index; nothing if it is not a member. -/
def myPoints (round : DkgRound) (operator : Bytes) : Option (Nat × List Nat) :=
  let idx := memberIndexByOperator round.members operator
  if idx = 0 then none
  else match memberByIndex round idx with
    | none => none
    | some m => if m.ownedEvalPoints = [] then none else some (idx, m.ownedEvalPoints)

variable (s : State) (ek : EncKey X) (operator : Bytes)

/-- The report on one poisoned share, unless it was made before or cannot be proved. -/
def reportOf (encPriv : X.Scalar) (epoch myIdx : Nat) (r : PoisonReport) :
    Option VoteExtComplaint :=
  if s.complaints.has (key3 epoch r.dealer myIdx)
      ∨ s.rejectedComplaints.has (key4 epoch r.dealer myIdx r.point) then none
  else match s.dealings.get? (key2 epoch r.dealer) with
    | none => none
    | some dealing =>
      match dealing.encShares.find? (fun e => e.memberIndex = r.point) with
      | none => some (noDeal epoch r.dealer r.point)
      | some enc => node.accuse encPriv epoch r.dealer r.point enc.a

/-- The reports, no more than the committee has members. -/
def collectReports (limit : Nat) (report : PoisonReport → Option VoteExtComplaint) :
    List VoteExtComplaint → List PoisonReport → List VoteExtComplaint
  | out, [] => out
  | out, r :: rest =>
    if limit ≤ out.length then out
    else match report r with
      | none => collectReports limit report out rest
      | some c => collectReports limit report (out ++ [c]) rest

def buildDkgPoisonReports : List VoteExtComplaint :=
  let epoch := s.activeEpoch
  if epoch = 0 then []
  else match s.rounds.get? epoch with
    | none => []
    | some round =>
      if round.status ≠ .active then []
      else match myPoints round operator, s.activeKeys.get? epoch with
        | some (myIdx, points), some ak =>
          collectReports round.members.length (node.reportOf s ek.priv epoch myIdx) []
            (node.cachedPoisonReports epoch ek.priv ak.qual
              (fun dealer => s.dealings.get? (key2 epoch dealer)) points)
        | _, _ => []

/-! ## Complaints -/

/-- The first owned point a dealer mistreats, with the complaint about it. -/
def firstComplaint (encPriv : X.Scalar) (epoch against : Nat) (dealing : Dealing)
    (commitments : List X.Point) : List Nat → Option VoteExtComplaint
  | [] => none
  | p :: ps =>
    match dealing.encShares.find? (fun e => e.memberIndex = p) with
    | none => some (noDeal epoch against p)
    | some enc =>
      if (decryptShareFrom X encPriv p ⟨enc.a, enc.nonce, enc.body⟩).any
          (fun share => verifyShare X commitments p share) then
        firstComplaint encPriv epoch against dealing commitments ps
      else match node.accuse encPriv epoch against p enc.a with
        | some c => some c
        | none => firstComplaint encPriv epoch against dealing commitments ps

def buildDkgComplaints (round : DkgRound) : List VoteExtComplaint :=
  match myPoints round operator with
  | none => []
  | some (myIdx, points) =>
    round.members.filterMap fun m =>
      if m.index = myIdx then none
      else (s.dealings.get? (key2 round.epoch m.index)).bind fun dealing =>
        (parseCommitmentPoints X dealing.commitments).bind fun commitments =>
          node.firstComplaint ek.priv round.epoch m.index dealing commitments points

/-! ## Decryption shares -/

/-- This node's shares of an epoch's key. A poisoned epoch is not served. -/
def deriveEpochShares (epoch : Nat) : Option (List (Share X)) :=
  match s.rounds.get? epoch with
  | none => none
  | some round =>
    match myPoints round operator, s.activeKeys.get? epoch with
    | some (_, points), some ak =>
      let dealings := fun dealer => s.dealings.get? (key2 epoch dealer)
      if node.cachedPoisonReports epoch ek.priv ak.qual dealings points ≠ [] then none
      else deriveShares X ek.priv ak.qual dealings points
    | _, _ => none

/-- Serve one ciphertext: the shares that are not stored yet, up to the cap. -/
def serveCiphertext (cap : Nat) (stored : List EncShare) (e : EncTx) :
    List VoteExtShare → List (Share X) → List VoteExtShare
  | out, [] => out
  | out, sh :: rest =>
    if cap ≤ out.length then out
    else if stored.any (fun st => st.index = sh.index) then serveCiphertext cap stored e out rest
    else match node.proveDecryptShare sh e.a with
      | none => serveCiphertext cap stored e out rest
      | some (d, proof) =>
        serveCiphertext cap stored e
          (out ++ [{ epoch := e.epoch, decryptHeight := e.decryptHeight, seq := e.seq
                     index := sh.index, d := d, proof := marshalDLEQProof proof }]) rest

/-- Serve the ciphertexts in maturity order, up to the first one that has not matured. -/
def serveCiphertexts (s : State) (ek : EncKey X) (operator : Bytes) (h cap : Nat) :
    List VoteExtShare → List EncTx → List VoteExtShare
  | out, [] => out
  | out, e :: rest =>
    if cap ≤ out.length then out
    else if h < e.decryptHeight then out
    else if e.epoch = 0 then serveCiphertexts s ek operator h cap out rest
    else match node.deriveEpochShares s ek operator e.epoch with
      | none => serveCiphertexts s ek operator h cap out rest
      | some shares =>
        let stored := s.collectShares e.decryptHeight e.seq
        if (s.activeKeys.get? e.epoch).any
            (fun ak => 0 < ak.threshold ∧ ak.threshold ≤ stored.length) then
          serveCiphertexts s ek operator h cap out rest
        else
          serveCiphertexts s ek operator h cap (node.serveCiphertext cap stored e out shares) rest

def buildDecryptShares (h : Nat) : List VoteExtShare :=
  let cap := s.params.voteExtShareCap
  node.serveCiphertexts s ek operator h cap []
    (s.inFlightFrom (h - strandedDecryptGraceBlocks) cap)

end Node

/-! ## The handler -/

/-- Whether vote extensions are active at a height. -/
def voteExtEnabledAt (enableHeight blockHeight : Int) : Bool :=
  enableHeight ≠ 0 ∧ enableHeight < blockHeight

/-- Whether the transparent DKG is switched on at this height. -/
def veActive (ctx : Ctx) (p : Params) : Bool :=
  p.dkgEnabled ∧ p.dkgTransparent
    ∧ ctx.voteExtEnableHeight.any (fun v => voteExtEnabledAt v ctx.height)

namespace Node

variable {X : External} (node : Node X)

/-- The dealing for the open round, if the node is a member and has not dealt. -/
def extendDealing (ctx : Ctx) (s : State) (operator : Bytes) : Option VoteExtDealing :=
  match s.lastRound with
  | none => none
  | some round =>
    if round.status = .isOpen ∧ ctx.height ≤ round.dealDeadline then
      let idx := memberIndexByOperator round.members operator
      if idx = 0 ∨ s.dealings.has (key2 round.epoch idx) then none
      else node.buildDealing round.epoch round.members round.threshold
    else none

/-- The complaints, inside the complaint window of the open round. -/
def extendComplaints (ctx : Ctx) (s : State) (ek : EncKey X) (operator : Bytes) :
    List VoteExtComplaint :=
  match s.lastRound with
  | none => []
  | some round =>
    if round.status = .isOpen ∧ round.dealDeadline < ctx.height
        ∧ ctx.height ≤ round.complaintDeadline then
      node.buildDkgComplaints s ek operator round
    else []

/-- `ExtendVote`: the node's extension, `none` when it attaches nothing. -/
def extendVote (ctx : Ctx) (s : State) : Option VoteExtension :=
  if veActive ctx s.params = false then none
  else match node.encKey with
    | none => none
    | some ek =>
      let operator := node.myOperator
      if operator = [] then none
      else some
        { encPubKey := ek.pub
          encPubKeyPoP := node.signEncKeyPoP ek.priv operator
          dealing := node.extendDealing ctx s operator
          shares := node.buildDecryptShares s ek operator ctx.height
          complaints := node.extendComplaints ctx s ek operator
          poisonReports := node.buildDkgPoisonReports s ek operator }

end Node

end EncMempool
