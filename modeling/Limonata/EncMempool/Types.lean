import Mathlib

/-!
# x/encmempool — the records of the module

The plain-JSON records of `types/types.go`: the params, the committee member of a DKG round, the
round, the dealing, the installed threshold key, the commit-reveal pair, the threshold ciphertext
and its decryption share, and the genesis state that carries them.

Go strings and byte slices are both `Bytes`; they are only compared, ordered bytewise (the order
of the store iterators) and hashed. A `uint64` is a `Nat`; wherever the code's arithmetic can leave
the range, the operation itself takes the remainder. A stake weight is an `Int`; a nil weight is
zero, as it is after the JSON round trip of the store.
-/

namespace EncMempool

/-- One byte of a Go string or slice. -/
abbrev Byte := Fin 256

/-- A Go string or byte slice. -/
abbrev Bytes := List Byte

instance byteSize : NeZero 256 := ⟨by decide⟩

instance bytesLawful : LawfulBEq Bytes := inferInstance

/-- The bytes of a string literal of the source. -/
def bytesOf (s : String) : Bytes := s.toUTF8.toList.map (fun b => Fin.ofNat 256 b.toNat)

/-- The last `len` bytes of a number, big-endian. -/
def beBytes (len n : Nat) : Bytes :=
  (List.range len).map (fun i => Fin.ofNat 256 (n / 256 ^ (len - 1 - i)))

/-- The big-endian 8 bytes of a `uint64`. -/
def be64 (n : Nat) : Bytes := beBytes 8 n

/-! ## Params -/

/-- A genesis-declared DKG participant. -/
structure DkgMember where
  operatorAddr : Bytes
  accountAddr : Bytes
  encPubKey : Bytes
  deriving DecidableEq

/-- The module params. -/
structure Params where
  revealDelay : Nat
  maxRevealWindow : Nat
  encEnabled : Bool
  encExecEnabled : Bool
  thresholdPub : Bytes
  threshold : Nat
  keypers : List Bytes
  decryptDelay : Nat
  maxInFlightEncTx : Nat
  maxInFlightPerSubmitter : Nat
  encSubmitBond : Nat
  encSubmitBondDenom : Bytes
  encSubmitBondBurnBps : Nat
  maxVerifyOpsPerBlock : Nat
  dkgEnabled : Bool
  dkgStartHeight : Nat
  dkgDealWindow : Nat
  dkgComplaintWindow : Nat
  dkgThreshold : Nat
  dkgMembers : List DkgMember
  dkgRetryBackoff : Nat
  dkgMaxAttempts : Nat
  dkgMinRekeyGap : Nat
  dkgTransparent : Bool
  dkgMaxMembers : Nat
  dkgShareBudget : Nat
  dkgMaxEpochBlocks : Nat
  dkgRekeyOnStakeDriftBps : Nat
  dkgRetainActiveDealings : Bool
  dkgStrictConcentration : Bool
  deriving DecidableEq

/-! ## Committee members -/

/-- A member of a round, with its index, its stake snapshot and its evaluation points. -/
structure RoundMember where
  index : Nat
  operatorAddr : Bytes
  accountAddr : Bytes
  encPubKey : Bytes
  weight : Int
  evalPoints : List Nat
  weighted : Bool
  deriving DecidableEq

namespace RoundMember

/-- The evaluation points the member holds a share at: its allocation, nothing for a weighted
member without one, and its own index on the unweighted path. -/
def ownedEvalPoints (m : RoundMember) : List Nat :=
  if 0 < m.evalPoints.length then m.evalPoints
  else if m.weighted then []
  else [m.index]

/-- The member without its points: who it is and how much it stakes. -/
def plain (m : RoundMember) : RoundMember := { m with evalPoints := [], weighted := false }

/-- Whether the member holds a share at `p`. -/
def ownsEvalPoint (m : RoundMember) (p : Nat) : Bool := m.ownedEvalPoints.contains p

end RoundMember

/-- The size of the round's evaluation-point domain. -/
def totalEvalPoints (members : List RoundMember) : Nat :=
  (members.map (fun m => m.ownedEvalPoints.length)).sum

/-- The index of the member that owns point `p`, 0 if nobody does. -/
def evalPointOwner (members : List RoundMember) (p : Nat) : Nat :=
  match members.find? (fun m => m.ownsEvalPoint p) with
  | some m => m.index
  | none => 0

/-- The index of the member with this operator, 0 if there is none. -/
def memberIndexByOperator (members : List RoundMember) (operator : Bytes) : Nat :=
  if operator = [] then 0
  else match members.find? (fun m => m.operatorAddr = operator) with
    | some m => m.index
    | none => 0

/-! ## DKG records -/

/-- The status string of a round. The code compares it with three constants and an imported
genesis may carry any other text. -/
inductive DkgStatus where
  | isOpen
  | active
  | failed
  | other (text : Bytes)
  deriving DecidableEq

/-- One DKG epoch's on-chain record. -/
structure DkgRound where
  epoch : Nat
  openHeight : Nat
  dealDeadline : Nat
  complaintDeadline : Nat
  members : List RoundMember
  threshold : Nat
  membersHash : Bytes
  status : DkgStatus
  attempt : Nat
  deriving DecidableEq

/-- One sealed point-to-point share of a dealing. -/
structure DkgStoredEncShare where
  memberIndex : Nat
  a : Bytes
  nonce : Bytes
  body : Bytes
  deriving DecidableEq

/-- A dealer's stored contribution for an epoch. -/
structure Dealing where
  epoch : Nat
  dealerIndex : Nat
  dealer : Bytes
  commitments : List Bytes
  encShares : List DkgStoredEncShare
  deriving DecidableEq

/-- A stored, already verified justified complaint. -/
structure DkgComplaintRec where
  epoch : Nat
  against : Nat
  accuserIndex : Nat
  deriving DecidableEq

/-- The DKG output installed for an epoch. -/
structure ActiveThresholdKey where
  epoch : Nat
  pub : Bytes
  publicCommitments : List Bytes
  threshold : Nat
  qual : List Nat
  deriving DecidableEq

/-! ## Commit-reveal and ciphertext records -/

/-- A recorded hash commitment to a future transaction. -/
structure Commit where
  sender : Bytes
  commitHash : Bytes
  height : Nat
  seq : Nat
  deriving DecidableEq

/-- A validated reveal queued for execution. -/
structure PendingReveal where
  sender : Bytes
  commitHeight : Nat
  seq : Nat
  revealTx : Bytes
  salt : Bytes
  deriving DecidableEq

/-- A threshold ciphertext in flight. -/
structure EncTx where
  submitter : Bytes
  submitHeight : Nat
  decryptHeight : Nat
  seq : Nat
  a : Bytes
  nonce : Bytes
  body : Bytes
  epoch : Nat
  bond : Nat
  bondDenom : Bytes
  bondBurn : Nat
  deriving DecidableEq

/-- A decryption share of one ciphertext. -/
structure EncShare where
  keyper : Bytes
  decryptHeight : Nat
  seq : Nat
  index : Nat
  d : Bytes
  proof : Bytes
  verified : Bool
  deriving DecidableEq

/-- A validator's announced encryption key, as the genesis carries it. -/
structure EncKeyReg where
  operator : Bytes
  key : Bytes
  deriving DecidableEq

/-- The module's genesis. -/
structure GenesisState where
  params : Params
  commits : List Commit
  pending : List PendingReveal
  encSeq : Nat
  encTxs : List EncTx
  encShares : List EncShare
  dkgRounds : List DkgRound
  dealings : List Dealing
  activeKeys : List ActiveThresholdKey
  currentEpoch : Nat
  activeEpoch : Nat
  encKeys : List EncKeyReg
  deriving DecidableEq

/-! ## Facts about committees -/

namespace RoundMember

theorem ownsEvalPoint_iff (m : RoundMember) (p : Nat) :
    m.ownsEvalPoint p = true ↔ p ∈ m.ownedEvalPoints := by
  simp [ownsEvalPoint]

theorem ownedEvalPoints_of_weighted {m : RoundMember} (hw : m.weighted = true) :
    m.ownedEvalPoints = m.evalPoints := by
  unfold ownedEvalPoints
  split_ifs with hlen
  · rfl
  · exact (List.length_eq_zero_iff.mp (Nat.le_zero.mp (Nat.not_lt.mp hlen))).symm

end RoundMember

end EncMempool
