import Limonata.EncMempool.EndBlock

/-!
# x/encmempool — reveal execution and threshold decryption (`keeper/abci.go`)

`BeginBlock` executes the matured reveals, collects stale commits and decrypts the matured
ciphertexts in two passes: the first tries each selected ciphertext once and releases it, keeps it
as a deferral candidate, or stops at the execution gas ceiling; the second grants a bounded fair
share of the candidates another block and sheds the rest. A panic while one ciphertext is tried is
recovered and the ciphertext released; a panic outside discards the whole block handler.
-/

namespace EncMempool

open Machine

def maxDecryptAttemptsPerBlock : Nat := 2048
def maxDecryptScanPerBlock : Nat := 2 * maxDecryptAttemptsPerBlock
def absMaxInFlightEncTx : Nat := 2 ^ 20
def maxCeilingDropsPerBlock : Nat := maxDecryptScanPerBlock
def strandedDecryptGraceBlocks : Nat := 32
def maxLegacyRecoverCombos : Nat := 128
def defaultDecryptExecGasPerBlock : Nat := 30000000

/-! ## Fair selection -/

/-- One round-robin pass: take the head of each queue while the budget lasts. -/
def fairPass : Nat → List (List Nat) → List Nat × List (List Nat)
  | _, [] => ([], [])
  | 0, qs => ([], qs)
  | budget + 1, [] :: qs =>
    let r := fairPass (budget + 1) qs
    (r.1, [] :: r.2)
  | budget + 1, (i :: q) :: qs =>
    let r := fairPass budget qs
    (i :: r.1, q :: r.2)

/-- Repeat passes until the budget is spent or every queue is empty. -/
def fairLoop : Nat → Nat → List (List Nat) → List Nat
  | 0, _, _ => []
  | fuel + 1, budget, qs =>
    let r := fairPass budget qs
    if r.1.length = 0 then [] else r.1 ++ fairLoop fuel (budget - r.1.length) r.2

/-- The positions of `matured` selected within `budget`, round-robin over the submitters. -/
def selectFairDecrypts (matured : List EncTx) (budget : Nat) : List Nat :=
  if matured.length ≤ budget then List.range matured.length
  else
    let submitters := (matured.map EncTx.submitter).eraseDups
    let queues := submitters.map fun sub =>
      (matured.zipIdx.filter (fun p => p.1.submitter = sub)).map Prod.snd
    fairLoop budget budget queues

/-! ## Recovery of the shared secret -/

/-- The stake sums of `DecryptingSetMeetsStake`: over all members and over the present ones. -/
def stakeSums (present : List Nat) : List RoundMember → Int → Int → Option (Int × Int)
  | [], total, got => some (total, got)
  | m :: ms, total, got =>
    if 0 < m.weight then
      (add256 total m.weight).bind fun total' =>
        if m.index ∈ present then
          (add256 got m.weight).bind fun got' => stakeSums present ms total' got'
        else stakeSums present ms total' got
    else stakeSums present ms total got

/-- Whether the present members hold strictly more than two thirds of the snapshotted stake. -/
def decryptingSetMeetsStake (members : List RoundMember) (present : List Nat) : Option Bool :=
  (stakeSums present members 0 0).bind fun sums =>
    if 0 < sums.1 then
      (mul256 sums.2 3).bind fun a => (mul256 sums.1 2).map fun b => decide (b < a)
    else some true

/-- The outcome of a recovery attempt. -/
inductive Recovery (X : External) where
  | panicked
  /-- Not enough verified shares, or a stake minority: may still heal. -/
  | short
  | failed
  | shared (p : X.Point)

/-- The number of `k`-subsets of `n`, cut off above the limit. -/
def countCombosLoop (n : Nat) : Nat → Nat → Nat → Nat
  | 0, _, res => res
  | fuel + 1, i, res =>
    let res := res * (n - i) / (i + 1)
    if maxLegacyRecoverCombos < res then maxLegacyRecoverCombos + 1
    else countCombosLoop n fuel (i + 1) res

def countCombos (n k : Nat) : Nat :=
  if n < k then 0 else countCombosLoop n (min k (n - k)) 0 1

/-- The sub-lists of a given length, in lexicographic order of their positions. -/
def combos {α : Type} : Nat → List α → List (List α)
  | 0, _ => [[]]
  | _ + 1, [] => []
  | n + 1, x :: xs => (combos n xs).map (x :: ·) ++ combos (n + 1) xs

/-- Recover without proofs: search a combination whose key opens the body. -/
def legacyRecoverRobust (X : External) (e : EncTx) (shares : List EncShare) (need : Nat) :
    Option X.Point :=
  let combine := fun c : List EncShare => recover X (c.map fun sh => (sh.index, sh.d))
  let opens := fun c : List EncShare =>
    (combine c).filter fun P => (decrypt X P e.nonce e.body).isSome
  if maxLegacyRecoverCombos < countCombos shares.length need then opens (shares.take need)
  else match (combos need shares).findSome? opens with
    | some P => some P
    | none => combine (shares.take need)

namespace State

/-- Recover the shared point of a ciphertext from its stored shares. -/
def recoverSharedSecret (X : External) (s : State) (p : Params) (e : EncTx)
    (shares : List EncShare) : Recovery X :=
  if 0 < e.epoch then
    match s.activeKeys.get? e.epoch with
    | none => .failed
    | some ak =>
      if shares.length < ak.threshold then .short
      else
        let members := ((s.rounds.get? e.epoch).map DkgRound.members).getD []
        let present := (shares.map fun sh => evalPointOwner members sh.index).filter (· ≠ 0)
        match (if members.length = 0 then some true
            else decryptingSetMeetsStake members present) with
        | none => .panicked
        | some false => .short
        | some true =>
          match parseCommitmentPoints X ak.publicCommitments with
          | none => .failed
          | some comm =>
            let partials := shares.filterMap fun sh =>
              (parseDLEQProof X sh.proof).map fun pf =>
                ({ index := sh.index, d := sh.d, proof := some pf } : VerifiedShare X)
            let preVerified := fun i => shares.any fun sh =>
              sh.index = i ∧ sh.verified ∧ (parseDLEQProof X sh.proof).isSome
            match recoverVerifiedWithKeys X comm e.a ak.threshold partials
                (fun i => s.shareKeys.lookup (key2 e.epoch i)) preVerified with
            | .ok P => .shared P
            | .error .insufficientVerified => .short
            | .error _ => .failed
  else if shares.length < p.threshold then .short
  else match legacyRecoverRobust X e shares p.threshold with
    | some P => .shared P
    | none => .failed

end State

/-! ## Trying one ciphertext -/

/-- What the EVM does with a decrypted transaction under the remaining gas budget. -/
inductive ExecOutcome where
  | panicked
  /-- The transaction does not fit the remaining budget of this block. -/
  | gasDeferred
  /-- Refused or executed, with the gas charged to the block's budget. -/
  | consumed (gasUsed : Nat)
  deriving DecidableEq

/-- The execution side of a block: whether the keepers are wired, and the EVM. -/
structure Executor where
  wired : Bool
  run : EncTx → Bytes → Nat → ExecOutcome

/-- What becomes of a ciphertext that was tried. -/
inductive Attempt where
  /-- Kept as a candidate for a deferral slot. -/
  | candidate
  /-- Kept, and the pass stops: the execution budget is spent. -/
  | deferExec (s : State)
  /-- Consumed; the gas counts against the block's budget. -/
  | consume (s : State) (gasUsed : Nat)

/-- The gas ceiling for decrypted transactions: a quarter of the block's, at most the default. -/
def decryptExecGasCeiling (ctx : Ctx) : Nat :=
  match ctx.maxBlockGas with
  | none => defaultDecryptExecGasPerBlock
  | some g =>
    let frac := g.toNat / 4
    if 0 < g ∧ 0 < frac ∧ frac < defaultDecryptExecGasPerBlock then frac
    else defaultDecryptExecGasPerBlock

namespace State

variable (X : External) (ctx : Ctx) (exec : Executor) (s : State)

/-- Try to decrypt one matured ciphertext. -/
def tryDecrypt (execOn : Bool) (cur : Nat) (p : Params) (remaining : Nat) (s : State) (e : EncTx) :
    Attempt :=
  match s.recoverSharedSecret X p e (s.collectShares e.decryptHeight e.seq) with
  | .panicked => .consume s 0
  | .short =>
    if addSat e.decryptHeight strandedDecryptGraceBlocks ≤ cur then
      .consume (s.bumpDecryptStrandStreak e.epoch) 0
    else .candidate
  | .failed => .consume s 0
  | .shared P =>
    match decrypt X P e.nonce e.body with
    | none => .consume s 0
    | some plaintext =>
      let s := s.resetDecryptStrandStreak e.epoch
      if execOn = false then .consume s 0
      else match exec.run e plaintext remaining with
        | .panicked => .consume s 0
        | .gasDeferred => .deferExec s
        | .consumed gasUsed => .consume s gasUsed

/-- Release a list of ciphertexts in order. -/
def releaseAll (X : External) : State → List EncTx → Option State
  | s, [] => some s
  | s, e :: es => (s.release? X e).bind fun s => releaseAll X s es

/-- The first pass over the selected ciphertexts: the state, the deferral candidates. -/
def decryptPass (X : External) (exec : Executor) (execOn : Bool) (cur : Nat) (p : Params)
    (ceiling : Nat) (selected : List Nat) :
    List (EncTx × Nat) → Nat → List EncTx → State → Option (State × List EncTx)
  | [], _, cands, s => some (s, cands)
  | (e, i) :: rest, gasUsed, cands, s =>
    if i ∉ selected then decryptPass X exec execOn cur p ceiling selected rest gasUsed cands s
    else if execOn ∧ ceiling ≤ gasUsed then some (s, cands)
    else match s.tryDecrypt X exec execOn cur p (ceiling - gasUsed) e with
      | .candidate =>
        decryptPass X exec execOn cur p ceiling selected rest gasUsed (cands ++ [e]) s
      | .deferExec s' => some (s', cands)
      | .consume s' g =>
        (s'.release? X e).bind fun s'' =>
          decryptPass X exec execOn cur p ceiling selected rest (gasUsed + g) cands s''

/-- How many matured ciphertexts exceed the in-flight ceiling and are dropped. -/
def ceilingDrops (p : Params) (matured : Nat) : Nat :=
  let ceiling := if 0 < p.maxInFlightEncTx ∧ p.maxInFlightEncTx < absMaxInFlightEncTx then
    p.maxInFlightEncTx else absMaxInFlightEncTx
  min (min (s.getGlobalEncCount - ceiling) maxCeilingDropsPerBlock) matured

/-- Decrypt the matured ciphertexts. -/
def decryptMatured (p : Params) : Option State :=
  let cur := ctx.height
  let matured := (s.collectMaturedUpTo cur maxDecryptScanPerBlock).1
  let drop := s.ceilingDrops p matured.length
  -- newest scanned first
  (s.releaseAll X (matured.reverse.take drop)).bind fun s =>
    let matured := matured.take (matured.length - drop)
    let execOn := p.encExecEnabled && exec.wired
    (s.decryptPass X exec execOn cur p (decryptExecGasCeiling ctx)
        (selectFairDecrypts matured maxDecryptAttemptsPerBlock) matured.zipIdx 0 []).bind fun r =>
      let granted := selectFairDecrypts r.2 maxDeferredDecryptsPerBlock
      r.1.releaseAll X ((r.2.zipIdx.filter (fun c => c.2 ∉ granted)).map Prod.fst)

/-- Release the matured ciphertexts of a disabled path. -/
def drainDisabledEncTx : Option State :=
  s.releaseAll X (s.collectMaturedUpTo ctx.height maxDecryptScanPerBlock).1

/-! ## The block handler -/

/-- Execute one matured reveal and drop its records. -/
def executeReveal (pr : PendingReveal) : State :=
  let s := { s with
    revealsExecuted := s.revealsExecuted ++ [pr]
    pending := s.pending.del pr.key }
  s.deleteCommit pr.commitHeight pr.sender pr.seq

/-- Drop a commit whose reveal window is over, with its reveal if there is one. -/
def dropStaleCommit (c : Commit) : State :=
  let s := s.deleteCommit c.height c.sender c.seq
  { s with pending := s.pending.del c.key }

/-- The commit-reveal half of the block handler. -/
def revealPhase (cur : Nat) (s : State) (p : Params) : State :=
  let due := s.pending.entries.filter (fun pr => addSat pr.commitHeight p.revealDelay ≤ cur)
  let s := due.foldl executeReveal s
  if 0 < p.maxRevealWindow then
    (s.commits.entries.filter (fun c => addSat c.height p.maxRevealWindow < cur)).foldl
      dropStaleCommit s
  else s

/-- The body of the block handler; `none` is a recovered panic. -/
def beginBlockBody : Option State :=
  let p := s.params
  let s := revealPhase ctx.height (s.gcEncSubmitRate ctx.height) p
  if p.encEnabled ∧ (0 < p.threshold ∨ p.dkgEnabled) then s.decryptMatured X ctx exec p
  else if 0 < s.getGlobalEncCount then s.drainDisabledEncTx X ctx
  else some s

/-- The block handler: a panic rolls back every write. -/
def beginBlock : State :=
  (s.beginBlockBody X ctx exec).getD s

end State

end EncMempool
