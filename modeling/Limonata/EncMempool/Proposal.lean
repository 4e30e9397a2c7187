import Limonata.EncMempool.Types
import Limonata.Lib.Knapsack
import Limonata.Lib.Machine

/-!
# x/encmempool — the injected commit of a proposal (`evmd/dkg_voteext.go`)

With vote extensions active a proposer puts the extended commit of the previous height in front of its
transactions, behind a marker. A commit that is too large is trimmed to the extensions that carry two thirds
of the power. The wrapper takes the raw length of the blob off the budget of the inner handler, while a block
is measured with the protobuf framing of every transaction.
-/

namespace EncMempool

open Machine

/-! ## Commits -/

inductive BlockIDFlag where
  | unknown | absent | commit | nil
  deriving DecidableEq

structure ExtendedVoteInfo where
  address : Bytes
  power : Int
  blockIdFlag : BlockIDFlag
  voteExtension : Bytes
  extensionSignature : Bytes
  deriving DecidableEq

structure ExtendedCommitInfo where
  round : Int
  votes : List ExtendedVoteInfo
  deriving DecidableEq

def veInjectMarker : Bytes := bytesOf "\x00LIMO-DKG-VE\x00"

def perVoteMarshalOverhead : Int := 24

/-- One extending vote considered for the trim. -/
structure TrimCand where
  idx : Nat
  vp : Int
  cost : Int
  addr : Bytes
  deriving DecidableEq

/-- The votes with an extension and its signature. -/
def trimCands (votes : List ExtendedVoteInfo) : List TrimCand :=
  votes.zipIdx.filterMap fun (v, i) =>
    if v.blockIdFlag ≠ .commit ∨ v.voteExtension.length = 0 ∨ v.extensionSignature.length = 0 then none
    else some { idx := i, vp := v.power, addr := v.address
                cost := (v.voteExtension.length + v.extensionSignature.length : Nat)
                  + perVoteMarshalOverhead }

/-- The indices kept and their power. -/
structure Kept where
  keep : List Nat
  vp : Int

/-- Add a candidate to the ones kept. -/
def Kept.add (k : Kept) (c : TrimCand) : Kept := ⟨c.idx :: k.keep, int64 (k.vp + c.vp)⟩

/-- Fill the budget in the given order, from `used` bytes on. -/
def greedyFill (budget : Int) : List TrimCand → Int → Kept → Kept
  | [], _, k => k
  | c :: cs, used, k =>
    if budget < used + c.cost then greedyFill budget cs used k
    else greedyFill budget cs (used + c.cost) (k.add c)

/-- The cast of an `int64` to `uint64`. -/
def uint64 (x : Int) : Nat := (x % 2 ^ 64).toNat

/-- More power per byte first, by the 128-bit products, then the address. -/
def denserThan (l r : TrimCand) : Bool :=
  if uint64 l.vp * uint64 r.cost ≠ uint64 r.vp * uint64 l.cost then
    uint64 r.vp * uint64 l.cost < uint64 l.vp * uint64 r.cost
  else l.addr < r.addr

/-- More power first, then the address. -/
def strongerThan (l r : TrimCand) : Bool :=
  if l.vp ≠ r.vp then r.vp < l.vp else l.addr < r.addr

def byDensity (cs : List TrimCand) : List TrimCand := cs.insertionSort fun l r => denserThan r l = false

def byPower (cs : List TrimCand) : List TrimCand := cs.insertionSort fun l r => strongerThan r l = false

/-! ## The knapsack backstop -/

def knapsackBuckets : Int := 8192

/-- The scaled cost, rounded up and at least one bucket. -/
def scaledCost (gran : Int) (c : TrimCand) : Nat := max ((int64 (c.cost + gran - 1)).tdiv gran).toNat 1

/-- One item: which budgets take it, and the table after it. Going down from the largest budget, the entries
an update reads are those before the item. -/
def knapsackItem (B w : Nat) (v : Int) (dp : List Int) : List Bool × List Int :=
  let taken := (List.range (B + 1)).map fun b =>
    decide (w ≤ b ∧ dp.getD b 0 < int64 (dp.getD (b - w) 0 + v))
  (taken, (List.range (B + 1)).map fun b =>
    if taken.getD b false then int64 (dp.getD (b - w) 0 + v) else dp.getD b 0)

/-- The rows of the items, the last one first. -/
def knapsackRows (gran : Int) (B : Nat) : List TrimCand → List Int → List (TrimCand × List Bool) →
    List (TrimCand × List Bool)
  | [], _, rows => rows
  | c :: cs, dp, rows =>
    let r := knapsackItem B (scaledCost gran c) c.vp dp
    knapsackRows gran B cs r.2 ((c, r.1) :: rows)

/-- Walk back from the whole budget. -/
def knapsackBack (gran : Int) : List (TrimCand × List Bool) → Nat → Kept → Kept
  | [], _, k => k
  | (c, taken) :: rows, b, k =>
    if taken.getD b false then knapsackBack gran rows (b - scaledCost gran c) (k.add c)
    else knapsackBack gran rows b k

def knapsackKeepMaxPower (cands : List TrimCand) (budget : Int) : Kept :=
  if cands.length = 0 ∨ budget ≤ 0 then ⟨[], 0⟩
  else
    let gran := budget / knapsackBuckets + 1
    let B := (budget / gran).toNat
    knapsackBack gran (knapsackRows gran B cands (List.replicate (B + 1) 0) []) B ⟨[], 0⟩

/-! ### The backstop is a knapsack -/

/-- The cost in whole buckets, rounded up. -/
def wholeBuckets (gran : Int) (c : TrimCand) : Int := (c.cost + gran - 1) / gran

section Optimal

variable (gran : Int) (B : Nat)

/-- Where the best choice over `c :: l` takes `c`. -/
def takenRow (c : TrimCand) (l : List TrimCand) : List Bool :=
  (List.range (B + 1)).map fun b => decide (scaledCost gran c ≤ b
    ∧ Knapsack.best (scaledCost gran) TrimCand.vp l b
      < Knapsack.best (scaledCost gran) TrimCand.vp l (b - scaledCost gran c) + c.vp)

/-- The table after the candidates of `l`. -/
def bestRow (l : List TrimCand) : List Int :=
  (List.range (B + 1)).map (Knapsack.best (scaledCost gran) TrimCand.vp l)

def takenRows : List TrimCand → List (TrimCand × List Bool)
  | [] => []
  | c :: l => (c, takenRow gran B c l) :: takenRows l

variable {gran B}

theorem getD_row {α : Type} (f : Nat → α) (d : α) {b : Nat} (hb : b ≤ B) :
    ((List.range (B + 1)).map f).getD b d = f b := by
  simp [List.getD, Nat.lt_succ_of_le hb]

/-- Powers that are not negative and whose sum is a signed 64-bit number. -/
def PowersFit (l : List TrimCand) : Prop := (∀ c ∈ l, 0 ≤ c.vp) ∧ (l.map TrimCand.vp).sum < 2 ^ 63

theorem knapsackItem_eq {c : TrimCand} {l : List TrimCand} (h : PowersFit (c :: l)) :
    knapsackItem B (scaledCost gran c) c.vp (bestRow gran B l) = (takenRow gran B c l, bestRow gran B (c :: l)) := by
  have hsum : c.vp + (l.map TrimCand.vp).sum < 2 ^ 63 := by simpa using h.2
  have hc := h.1 c List.mem_cons_self
  -- an entry and one more power stay below the sum of the powers, so the addition does not wrap
  have hentry : ∀ b ≤ B, int64 ((bestRow gran B l).getD (b - scaledCost gran c) 0 + c.vp)
      = Knapsack.best (scaledCost gran) TrimCand.vp l (b - scaledCost gran c) + c.vp := by
    intro b hb
    have hbest := Knapsack.best_mem_Icc (scaledCost gran) (fun d hd => h.1 d (List.mem_cons_of_mem c hd))
      (b - scaledCost gran c)
    rw [bestRow, getD_row _ _ (by omega)]
    exact int64_of_lt (by omega) (by omega)
  have htaken : (knapsackItem B (scaledCost gran c) c.vp (bestRow gran B l)).1 = takenRow gran B c l := by
    refine List.map_congr_left fun b hb => ?_
    have hb := Nat.lt_succ_iff.mp (List.mem_range.mp hb)
    rw [hentry b hb, bestRow, getD_row _ _ hb]
  refine Prod.ext htaken (List.map_congr_left fun b hb => ?_)
  have hb := Nat.lt_succ_iff.mp (List.mem_range.mp hb)
  show (if (knapsackItem B (scaledCost gran c) c.vp (bestRow gran B l)).1.getD b false then _ else _) = _
  rw [htaken, hentry b hb, takenRow, getD_row _ _ hb, bestRow, getD_row _ _ hb, Knapsack.best]
  simp only [decide_eq_true_eq]

theorem knapsackRows_eq {cs l : List TrimCand} (h : PowersFit (cs.reverse ++ l)) :
    knapsackRows gran B cs (bestRow gran B l) (takenRows gran B l) = takenRows gran B (cs.reverse ++ l) := by
  induction cs generalizing l with
  | nil => rfl
  | cons c cs ih =>
    rw [List.reverse_cons, List.append_assoc, List.singleton_append] at h ⊢
    have hitem : PowersFit (c :: l) := by
      refine ⟨fun d hd => h.1 d (List.mem_append_right _ hd), lt_of_le_of_lt ?_ h.2⟩
      rw [List.map_append, List.sum_append]
      exact le_add_of_nonneg_left (List.sum_nonneg (List.forall_mem_map.mpr fun d hd =>
        h.1 d (List.mem_append_left _ hd)))
    show knapsackRows gran B cs (knapsackItem B _ c.vp _).2 ((c, (knapsackItem B _ c.vp _).1) :: _) = _
    rw [knapsackItem_eq hitem]
    exact ih h

theorem knapsackBack_eq (l : List TrimCand) {b : Nat} (hb : b ≤ B) (k : Kept) :
    knapsackBack gran (takenRows gran B l) b k
      = (Knapsack.chosen (scaledCost gran) TrimCand.vp l b).foldl Kept.add k := by
  induction l generalizing b k with
  | nil => rfl
  | cons c l ih =>
    rw [takenRows, knapsackBack, takenRow, getD_row _ _ hb, Knapsack.chosen]
    simp only [decide_eq_true_eq]
    split
    · exact ih (by omega) (k.add c)
    · exact ih hb k

theorem foldl_add_eq (l : List TrimCand) (k : Kept) :
    l.foldl Kept.add k = ⟨(l.map TrimCand.idx).reverse ++ k.keep,
      (l.map TrimCand.vp).foldl (fun acc x => int64 (acc + x)) k.vp⟩ := by
  induction l generalizing k with
  | nil => rfl
  | cons c l ih => simp [ih, Kept.add]

theorem knapsackKeepMaxPower_eq {cands : List TrimCand} {budget : Int} (hbudget : 0 < budget)
    (h : PowersFit cands) (hgran : budget / knapsackBuckets + 1 = gran) (hB : (budget / gran).toNat = B) :
    knapsackKeepMaxPower cands budget
      = (Knapsack.chosen (scaledCost gran) TrimCand.vp cands.reverse B).foldl Kept.add ⟨[], 0⟩ := by
  by_cases hlen : cands.length = 0
  · rw [List.length_eq_zero_iff.mp hlen]
    rfl
  · have hrev : PowersFit (cands.reverse ++ []) := by
      rw [List.append_nil]
      exact ⟨fun c hc => h.1 c (List.mem_reverse.mp hc), by simpa using h.2⟩
    have hzero : List.replicate (B + 1) 0 = bestRow gran B [] :=
      List.ext_getElem (by simp [bestRow]) fun _ _ _ => by simp [bestRow, Knapsack.best]
    have hrows : knapsackRows gran B cands (List.replicate (B + 1) 0) [] = takenRows gran B cands.reverse := by
      rw [hzero, ← List.append_nil cands.reverse]
      exact knapsackRows_eq hrev
    rw [knapsackKeepMaxPower, if_neg (by omega), hgran]
    simp only [hB]
    rw [hrows, knapsackBack_eq _ le_rfl]

theorem scaledCost_eq (hgran : 0 < gran) {c : TrimCand} (hcost : 0 ≤ c.cost)
    (hfit : c.cost + gran - 1 < 2 ^ 63) : (scaledCost gran c : Int) = max (wholeBuckets gran c) 1 := by
  have hnn : 0 ≤ c.cost + gran - 1 := by omega
  have hdiv := Int.ediv_nonneg hnn hgran.le
  rw [scaledCost, int64_of_lt hnn hfit, Int.tdiv_eq_ediv_of_nonneg hnn, wholeBuckets]
  omega

theorem cost_le_buckets (hgran : 0 < gran) (c : TrimCand) :
    c.cost ≤ gran * max (wholeBuckets gran c) 1 := by
  have hdiv := Int.mul_ediv_add_emod (c.cost + gran - 1) gran
  have hmod := Int.emod_lt_of_pos (c.cost + gran - 1) hgran
  have hmax := mul_le_mul_of_nonneg_left (le_max_left (wholeBuckets gran c) 1) hgran.le
  unfold wholeBuckets at *
  omega

end Optimal

section Inject

-- `ExtendedCommitInfo.Marshal`, with `none` for an error
variable (marshal : ExtendedCommitInfo → Option Bytes)

def marshalInjectedCommit (ec : ExtendedCommitInfo) : Option Bytes :=
  (marshal ec).map (veInjectMarker ++ ·)

/-- The commit with every vote that is not kept marked absent. -/
def trimmedCommit (ec : ExtendedCommitInfo) (keep : List Nat) : ExtendedCommitInfo :=
  { ec with votes := ec.votes.zipIdx.map fun (v, i) =>
      if i ∈ keep then v
      else { v with blockIdFlag := .absent, voteExtension := [], extensionSignature := [] } }

/-- The extensions to keep within the budget: by density, else by power, else by the knapsack, and then what
else fits, by power. -/
def chooseVotes (votes : List ExtendedVoteInfo) (requiredVP budget : Int) : Kept :=
  let cands := trimCands votes
  let marker : Int := veInjectMarker.length
  let dense := greedyFill budget (byDensity cands) marker ⟨[], 0⟩
  let strong := if dense.vp < requiredVP then greedyFill budget (byPower cands) marker ⟨[], 0⟩ else dense
  let kept := if strong.vp < requiredVP then knapsackKeepMaxPower cands (budget - marker) else strong
  let usedReal := marker + ((cands.filter fun c => c.idx ∈ kept.keep).map TrimCand.cost).sum
  greedyFill budget (byPower (cands.filter fun c => c.idx ∉ kept.keep)) usedReal kept

/-- The blob of the whole commit if it fits, or that of a trimmed one. -/
def boundedInjectedCommit (ec : ExtendedCommitInfo) (maxTxBytes : Int) : Option Bytes :=
  match (marshalInjectedCommit marshal ec).filter fun blob => blob.length < maxTxBytes with
  | some blob => some blob
  | none =>
    let budget := maxTxBytes - maxTxBytes.tdiv 8
    let totalVP := ec.votes.foldl (fun acc v => int64 (acc + v.power)) 0
    if budget ≤ veInjectMarker.length then none
    else if totalVP ≤ 0 then none
    else
      let requiredVP := (int64 (totalVP * 2)).tdiv 3 + 1
      let kept := chooseVotes ec.votes requiredVP budget
      if kept.vp < requiredVP then none
      else (marshalInjectedCommit marshal (trimmedCommit ec kept.keep)).filter fun blob =>
        blob.length < maxTxBytes

/-! ## The proposal -/

/-- What the wrapper reads of a request. -/
structure PrepareProposal where
  maxTxBytes : Int
  localLastCommit : ExtendedCommitInfo

variable {Err : Type}

/-- The handler around `inner`, at a height with the DKG `active` or not. -/
def wrapDkgPrepareProposal (active : Bool) (inner : PrepareProposal → Except Err (List Bytes))
    (req : PrepareProposal) : Except Err (List Bytes) :=
  if active = false ∨ req.localLastCommit.votes.length = 0 then inner req
  else match boundedInjectedCommit marshal req.localLastCommit req.maxTxBytes with
    | none => inner req
    | some blob =>
      (inner { req with maxTxBytes := req.maxTxBytes - blob.length }).map (blob :: ·)

end Inject

/-! ## The size of a block -/

/-- The bytes of a protobuf varint. -/
def varintLen (n : Nat) : Nat := (Nat.log2 (n ||| 1) + 7) / 7

/-- The framing of a transaction of this length: a tag and the length. -/
def framing (len : Nat) : Nat := 1 + varintLen len

/-- The size of a transaction list in a block. -/
def txsSize (txs : List Bytes) : Nat := (txs.map fun tx => tx.length + framing tx.length).sum

theorem two_le_framing (n : Nat) : 2 ≤ framing n := by
  unfold framing varintLen
  omega

section Fits

variable {marshal : ExtendedCommitInfo → Option Bytes} {Err : Type}

theorem length_boundedInjectedCommit {ec : ExtendedCommitInfo} {maxTxBytes : Int} {blob : Bytes}
    (h : boundedInjectedCommit marshal ec maxTxBytes = some blob) : (blob.length : Int) < maxTxBytes := by
  unfold boundedInjectedCommit at h
  split at h
  · rename_i whole hwhole
    cases h
    exact of_decide_eq_true (Option.filter_eq_some_iff.mp hwhole).2
  · simp only at h
    split_ifs at h
    exact of_decide_eq_true (Option.filter_eq_some_iff.mp h).2

/-- An inner handler that keeps to the limit it is given. -/
def KeepsLimit (inner : PrepareProposal → Except Err (List Bytes)) : Prop :=
  ∀ req txs, 0 ≤ req.maxTxBytes → inner req = .ok txs → (txsSize txs : Int) ≤ req.maxTxBytes

/-- The handler that fills its limit with empty transactions. -/
def fillEmpty (req : PrepareProposal) : Except Err (List Bytes) :=
  .ok (List.replicate (req.maxTxBytes / 2).toNat [])

theorem txsSize_fillEmpty (n : Nat) : txsSize (List.replicate n []) = 2 * n := by
  have hempty : ([] : Bytes).length + framing ([] : Bytes).length = 2 := by decide
  simp only [txsSize, List.map_replicate, hempty, List.sum_replicate, smul_eq_mul]
  omega

end Fits

/-- A request with a commit of one vote. -/
def oneVoteRequest (maxTxBytes : Int) : PrepareProposal :=
  ⟨maxTxBytes, ⟨0, [⟨[], 1, .commit, [], []⟩]⟩⟩

theorem oneVoteRequest_blob {maxTxBytes : Int} (h : 13 < maxTxBytes) : boundedInjectedCommit (fun _ => some [])
    (oneVoteRequest maxTxBytes).localLastCommit (oneVoteRequest maxTxBytes).maxTxBytes
      = some veInjectMarker := by
  have hlen : veInjectMarker.length = 13 := by decide +kernel
  have hwhole : (marshalInjectedCommit (fun _ => some []) (oneVoteRequest maxTxBytes).localLastCommit).filter
      (fun blob => blob.length < (oneVoteRequest maxTxBytes).maxTxBytes) = some veInjectMarker := by
    simp [marshalInjectedCommit, Option.filter, hlen, oneVoteRequest, h]
  rw [boundedInjectedCommit, hwhole]

theorem keepsLimit_empty : KeepsLimit fun _ => (.ok [] : Except Unit (List Bytes)) := by
  intro req txs hr h
  cases h
  exact hr

theorem oneVoteRequest_wrap {maxTxBytes : Int} (h : 13 < maxTxBytes) :
    wrapDkgPrepareProposal (fun _ => some []) true (fun _ => (.ok [] : Except Unit (List Bytes)))
      (oneVoteRequest maxTxBytes) = .ok [veInjectMarker] := by
  rw [wrapDkgPrepareProposal, if_neg (by simp [oneVoteRequest]), oneVoteRequest_blob h]
  rfl

end EncMempool
