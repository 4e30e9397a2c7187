import Limonata.Lib.RecStore
import Limonata.EncMempool.Params

/-!
# x/encmempool — the keeper's store and its accessors

`State` is the module's key-value store, one field per key prefix, plus two logs of what the store
does not keep: the bank operations on the submit bond and the reveals executed. The accessors are
those of `keeper/keeper.go` and `keeper/dkg.go`; each is a total function of the state.

Every counter record is deleted when it reaches zero, so a counter is an `Option Nat`; a missing
`uint64` record reads as zero.
-/

namespace EncMempool

open Machine

/-! ## Keys -/

abbrev Key2 := ℕ ×ₗ ℕ
abbrev Key3 := ℕ ×ₗ ℕ ×ₗ ℕ
abbrev Key4 := ℕ ×ₗ ℕ ×ₗ ℕ ×ₗ ℕ

instance key2Lawful : LawfulBEq Key2 := inferInstance

def key2 (a b : Nat) : Key2 := toLex (a, b)
def key3 (a b c : Nat) : Key3 := toLex (a, key2 b c)
def key4 (a b c d : Nat) : Key4 := toLex (a, key3 b c d)

/-- The first component of a composite key: the epoch or the decrypt height. -/
def keyHead {α : Type} (k : ℕ ×ₗ α) : Nat := (ofLex k).1

@[simp] theorem key2_inj {a b c d : Nat} : key2 a b = key2 c d ↔ a = c ∧ b = d := by
  simp [key2]

@[simp] theorem key3_inj {a b c d e f : Nat} : key3 a b c = key3 d e f ↔ a = d ∧ b = e ∧ c = f := by
  simp [key3]

@[simp] theorem key4_inj {a b c d e f g h : Nat} :
    key4 a b c d = key4 e f g h ↔ a = e ∧ b = f ∧ c = g ∧ d = h := by
  simp [key4]

@[simp] theorem keyHead_key2 (a b : Nat) : keyHead (key2 a b) = a := rfl
@[simp] theorem keyHead_key3 (a b c : Nat) : keyHead (key3 a b c) = a := rfl
@[simp] theorem keyHead_key4 (a b c d : Nat) : keyHead (key4 a b c d) = a := rfl

def EncTx.key (e : EncTx) : Key2 := key2 e.decryptHeight e.seq
def EncShare.key (s : EncShare) : Key3 := key3 s.decryptHeight s.seq s.index
def Dealing.key (d : Dealing) : Key2 := key2 d.epoch d.dealerIndex
def DkgComplaintRec.key (c : DkgComplaintRec) : Key3 := key3 c.epoch c.against c.accuserIndex
def Commit.key (c : Commit) : ℕ ×ₗ Bytes ×ₗ ℕ := toLex (c.height, toLex (c.sender, c.seq))
def PendingReveal.key (p : PendingReveal) : ℕ ×ₗ Bytes ×ₗ ℕ :=
  toLex (p.commitHeight, toLex (p.sender, p.seq))

/-- Whether a share key belongs to the ciphertext `(height, seq)`. -/
def shareOf (height seq : Nat) (k : Key3) : Bool :=
  (ofLex k).1 = height ∧ (ofLex (ofLex k).2).1 = seq

@[simp] theorem shareOf_key3 (height seq h q i : Nat) :
    shareOf height seq (key3 h q i) = true ↔ h = height ∧ q = seq := by
  unfold shareOf
  rw [decide_eq_true_iff]
  rfl

/-! ## The store -/

/-- A bank operation on the submit bond. -/
inductive BankOp where
  | escrow (submitter denom : Bytes) (amount : Nat)
  | burn (denom : Bytes) (amount : Nat)
  | refund (submitter denom : Bytes) (amount : Nat)
  deriving DecidableEq

structure State where
  params : Params
  seq : Nat
  commits : RecStore Commit.key
  pending : RecStore PendingReveal.key
  globalCommitCount : Option Nat
  senderCommitCounts : KVStore Bytes Nat
  encSeq : Nat
  encTxs : RecStore EncTx.key
  encShares : RecStore EncShare.key
  rejectedShares : KVStore Key3 Unit
  globalEncCount : Option Nat
  submitterEncCounts : KVStore Bytes Nat
  epochEncCounts : KVStore Nat Nat
  submitRates : KVStore (ℕ ×ₗ Bytes) Nat
  globalSubmitRates : KVStore Nat Nat
  rounds : RecStore DkgRound.epoch
  dealings : RecStore Dealing.key
  complaints : RecStore DkgComplaintRec.key
  rejectedComplaints : KVStore Key4 Unit
  activeKeys : RecStore ActiveThresholdKey.epoch
  shareKeys : KVStore Key2 Bytes
  shareKeyCursors : KVStore Nat Nat
  strandStreaks : KVStore Nat Nat
  currentEpoch : Nat
  activeEpoch : Nat
  lastRekeyHeight : Nat
  encPubKeys : KVStore Bytes Bytes
  encKeyOwners : KVStore Bytes Bytes
  encKeyRotated : KVStore Bytes Nat
  /-- Bank operations issued for the submit bond, oldest first. -/
  bankOps : List BankOp
  /-- Reveals executed by the block handler, oldest first. -/
  revealsExecuted : List PendingReveal

/-- The empty store; params read as the defaults until they are set. -/
def State.init : State :=
  { params := defaultParams, seq := 0, commits := .empty, pending := .empty
    globalCommitCount := none, senderCommitCounts := .empty, encSeq := 0, encTxs := .empty
    encShares := .empty, rejectedShares := .empty, globalEncCount := none
    submitterEncCounts := .empty, epochEncCounts := .empty, submitRates := .empty
    globalSubmitRates := .empty, rounds := .empty, dealings := .empty, complaints := .empty
    rejectedComplaints := .empty, activeKeys := .empty, shareKeys := .empty
    shareKeyCursors := .empty, strandStreaks := .empty, currentEpoch := 0, activeEpoch := 0
    lastRekeyHeight := 0, encPubKeys := .empty, encKeyOwners := .empty, encKeyRotated := .empty
    bankOps := [], revealsExecuted := [] }

/-! ## Counters -/

/-- One more; the stored word wraps at 64 bits. -/
def incCount (c : Option Nat) : Option Nat := some (wrap64 (c.getD 0 + 1))

/-- One less, saturating, with the record deleted at zero. -/
def decCount (c : Option Nat) : Option Nat :=
  if c.getD 0 ≤ 1 then none else some (c.getD 0 - 1)

/-- The strands of one epoch that force a rekey. -/
def decryptHealthStrandThreshold : Nat := 16

namespace State

variable (s : State) (epoch : Nat)

def getEpochEncCount : Nat := (s.epochEncCounts.lookup epoch).getD 0

def getGlobalEncCount : Nat := s.globalEncCount.getD 0

def getSubmitterEncCount (submitter : Bytes) : Nat :=
  (s.submitterEncCounts.lookup submitter).getD 0

def getDecryptStrandStreak : Nat :=
  (s.strandStreaks.lookup epoch).getD 0

def bumpDecryptStrandStreak : State :=
  { s with strandStreaks := s.strandStreaks.update epoch incCount }

def resetDecryptStrandStreak : State :=
  { s with strandStreaks := s.strandStreaks.del epoch }

def forceDecryptHealthRekey : State :=
  if decryptHealthStrandThreshold ≤ s.getDecryptStrandStreak epoch then s
  else { s with strandStreaks := s.strandStreaks.assign epoch decryptHealthStrandThreshold }

/-! ## Dealings, rounds and keys -/

/-- Delete the dealings, complaints and rejected-complaint markers of an epoch. -/
def purgeDealings : State :=
  { s with
    dealings := s.dealings.delWhere (fun k => keyHead k = epoch)
    complaints := s.complaints.delWhere (fun k => keyHead k = epoch)
    rejectedComplaints := s.rejectedComplaints.delWhere (fun k => keyHead k = epoch) }

/-- Shed the dealing bulk of an epoch, unless it still serves or is still referenced. -/
def purgeDealingsIfDrained (p : Params) (epoch : Nat) : State :=
  if p.dkgRetainActiveDealings = false then s.purgeDealings epoch
  else if epoch = s.activeEpoch ∨ s.getEpochEncCount epoch ≠ 0 then s
  else s.purgeDealings epoch

def hasAnyDealing : Bool :=
  s.dealings.entries.any (fun d => d.epoch = epoch)

/-- Whether the committee of the serving key can still re-derive its shares. -/
def activeEpochCanDeriveShares (p : Params) : Bool :=
  if p.dkgRetainActiveDealings = false then true
  else if p.dkgTransparent = false then true
  else if s.activeEpoch = 0 then true
  else s.hasAnyDealing s.activeEpoch

/-- Delete a failed round with its dealings. -/
def purgeFailedRound : State :=
  let s := s.purgeDealings epoch
  { s with rounds := s.rounds.del epoch }

/-- Delete an epoch's share-key cache, its cursor and its strand streak. -/
def deleteShareKeyCache : State :=
  { s with
    shareKeys := s.shareKeys.delWhere (fun k => keyHead k = epoch)
    shareKeyCursors := s.shareKeyCursors.del epoch
    strandStreaks := s.strandStreaks.del epoch }

def deleteActiveKey : State :=
  { s with activeKeys := s.activeKeys.del epoch }.deleteShareKeyCache epoch

/-- Delete everything of an epoch that neither serves, nor is current, nor is referenced. -/
def maybePruneEpoch : State :=
  if epoch = 0 then s
  else if epoch = s.activeEpoch ∨ epoch = s.currentEpoch then s
  else if s.getEpochEncCount epoch ≠ 0 then s
  else
    let s := (s.purgeDealings epoch).deleteActiveKey epoch
    { s with rounds := s.rounds.del epoch }

end State

end EncMempool
