import Limonata.EncMempool.State

/-!
# x/encmempool — ciphertexts, shares and commits (`keeper/keeper.go`)

A ciphertext enters through `submitEncTx`, which also takes one reference on the global, the
submitter's and the epoch's in-flight counter, and leaves only through `releaseEncTx`, which gives
all of them back, deletes the shares, prunes the epoch if this was its last ciphertext and settles
the bond. The commit-reveal records keep two counters of their own.
-/

namespace EncMempool

open Machine

/-! ## Admission limits -/

def maxDeferredDecryptsPerBlock : Nat := 128
def maxEncSubmitsPerBlockPerSubmitter : Nat := 4
def maxEncSubmitsPerBlockGlobal : Nat := maxDeferredDecryptsPerBlock
def maxCiphertextBodyBytes : Nat := 16384
def maxRevealSaltBytes : Nat := 64
def maxInFlightCommits : Nat := 32768
def maxCommitsPerSender : Nat := 64
def maxRateGCPerBlock : Nat := 8192

/-- Whether settling the bond panics: the coin constructor rejects an invalid denom. -/
def EncTx.bondPanics (X : External) (e : EncTx) : Bool :=
  e.bond ≠ 0 ∧ X.validDenom e.bondDenom = false
    ∧ (0 < min e.bondBurn e.bond ∨ X.validAccAddress e.submitter)

namespace State

/-! ## Commits and reveals -/

variable (X : External) (s : State) (e : EncTx) (submitter : Bytes)

def incCommitCount (sender : Bytes) : State :=
  { s with
    globalCommitCount := incCount s.globalCommitCount
    senderCommitCounts := s.senderCommitCounts.update sender incCount }

def decCommitCount (sender : Bytes) : State :=
  { s with
    globalCommitCount := decCount s.globalCommitCount
    senderCommitCounts := s.senderCommitCounts.update sender decCount }

/-- Store a commit; a new one takes a reference on the commit counters. -/
def setCommit (c : Commit) : State :=
  let s := if s.commits.has c.key then s else s.incCommitCount c.sender
  { s with commits := s.commits.put c }

/-- Delete a commit; only a stored one gives its reference back. -/
def deleteCommit (height : Nat) (sender : Bytes) (seq : Nat) : State :=
  let key : ℕ ×ₗ Bytes ×ₗ ℕ := toLex (height, toLex (sender, seq))
  let s := if s.commits.has key then s.decCommitCount sender else s
  { s with commits := s.commits.del key }

/-! ## Ciphertexts -/

/-- Assign a sequence number and a decrypt height, store the ciphertext and take its references. -/
def submitEncTx (submitHeight decryptDelay : Nat) (a nonce body : Bytes) (epoch : Nat) :
    State × EncTx :=
  let e : EncTx :=
    { submitter := submitter, submitHeight := submitHeight
      decryptHeight := submitHeight + decryptDelay, seq := s.encSeq, a := a, nonce := nonce
      body := body, epoch := epoch, bond := 0, bondDenom := [], bondBurn := 0 }
  ({ s with
     encSeq := wrap64 (s.encSeq + 1)
     encTxs := s.encTxs.put e
     epochEncCounts :=
       if 0 < epoch then s.epochEncCounts.update epoch incCount else s.epochEncCounts
     globalEncCount := incCount s.globalEncCount
     submitterEncCounts := s.submitterEncCounts.update submitter incCount }, e)

/-- Record the escrowed bond and its burn portion on a stored ciphertext. -/
def stampBond (bond : Nat) (denom : Bytes) (burn : Nat) : State :=
  { s with encTxs := s.encTxs.put { e with bond := bond, bondDenom := denom, bondBurn := burn } }

/-- Burn the stamped portion of the bond and refund the rest. -/
def refundBond : State :=
  if e.bond = 0 then s
  else
    let burn := min e.bondBurn e.bond
    let burned := if 0 < burn then [BankOp.burn e.bondDenom burn] else []
    let refunded := if 0 < e.bond - burn ∧ X.validAccAddress e.submitter then
      [BankOp.refund e.submitter e.bondDenom (e.bond - burn)] else []
    { s with bankOps := s.bankOps ++ burned ++ refunded }

/-- Remove a ciphertext with its shares and markers and give back all of its references. -/
def releaseEncTx : State :=
  let s := { s with
    encTxs := s.encTxs.del (key2 e.decryptHeight e.seq)
    encShares := s.encShares.delWhere (shareOf e.decryptHeight e.seq)
    rejectedShares := s.rejectedShares.delWhere (shareOf e.decryptHeight e.seq)
    globalEncCount := decCount s.globalEncCount
    submitterEncCounts := s.submitterEncCounts.update e.submitter decCount }
  let s := if 0 < e.epoch then
      { s with epochEncCounts := s.epochEncCounts.update e.epoch decCount }.maybePruneEpoch e.epoch
    else s
  s.refundBond X e

/-- Release as the block handler does it; `none` is the panic of the bond settlement. -/
def release? : Option State :=
  if e.bondPanics X then none else some (s.releaseEncTx X e)

/-- Up to `limit` ciphertexts matured by `h`, and whether more remain. -/
def collectMaturedUpTo (h limit : Nat) : List EncTx × Bool :=
  let matured := s.encTxs.entries.filter (fun e => e.decryptHeight ≤ h)
  (matured.take limit, limit < matured.length)

/-- Up to `limit` ciphertexts with a decrypt height of at least `minHeight`. -/
def inFlightFrom (minHeight limit : Nat) : List EncTx :=
  (s.encTxs.entries.filter (fun e => minHeight ≤ e.decryptHeight)).take limit

/-- The shares of one ciphertext. -/
def collectShares (height seq : Nat) : List EncShare :=
  s.encShares.entries.filter (fun sh => sh.decryptHeight = height ∧ sh.seq = seq)

/-! ## Submit rates -/

/-- Count one more submission of this submitter at this height. -/
def bumpEncSubmitsThisBlock (height : Nat) : State × Nat :=
  let cnt := wrap64 ((s.submitRates.lookup (toLex (height, submitter))).getD 0 + 1)
  ({ s with submitRates := s.submitRates.assign (toLex (height, submitter)) cnt }, cnt)

/-- Count one more submission at this height. -/
def bumpGlobalEncSubmitsThisBlock (height : Nat) : State × Nat :=
  let cnt := wrap64 ((s.globalSubmitRates.lookup height).getD 0 + 1)
  ({ s with globalSubmitRates := s.globalSubmitRates.assign height cnt }, cnt)

/-- Reclaim submit-rate entries of past blocks, oldest first, boundedly many. -/
def gcEncSubmitRate (currentHeight : Nat) : State :=
  let stale := ((s.submitRates.entries.map Prod.fst).takeWhile
    (fun k => keyHead k < currentHeight)).take maxRateGCPerBlock
  let staleGlobal := ((s.globalSubmitRates.entries.map Prod.fst).takeWhile
    (fun h => h < currentHeight)).take (maxRateGCPerBlock - stale.length)
  { s with
    submitRates := s.submitRates.delWhere (fun k => stale.contains k)
    globalSubmitRates := s.globalSubmitRates.delWhere (fun h => staleGlobal.contains h) }

end State

end EncMempool
