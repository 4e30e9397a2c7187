import Limonata.Contest.Keeper
import Limonata.GasSponsor.Settlement

/-!
# x/contest — the score of a delivered transaction

The post-handler learns of a transaction only whether its message returned an error. A VM error is
part of the response of a message that returned none, so a reverted call scores like any other.
-/

namespace Contest

open EncMempool (Bytes bytesOf)
open GasSponsor (Env EthTx Outcome)

/-! ## Delivery -/

/-- `Failed` of the response: the execution ended with a VM error, or a hook failed. -/
def vmFailed (out : Outcome) : Bool :=
  match out.hooks with
  | .fail => true
  | .unset | .run _ => out.failed

/-- The transaction is applied without an error, and its response has a VM error. -/
structure Reverted (s : GasSponsor.State) (env : Env) (tx : EthTx) (out : Outcome) : Prop where
  applied : (s.applyTransaction env tx out).isSome = true
  failed : vmFailed out = true

/-- The post-handler of a delivered EVM transaction, which has one message. -/
def deliver (c : State) (s : GasSponsor.State) (env : Env) (time : Nat) (tx : EthTx)
    (out : Outcome) : State :=
  c.postHandle time (s.applyTransaction env tx out).isSome
    [⟨tx.toAddr.map hexAddr, hexAddr tx.sender⟩]

/-- The approved app a transaction calls. -/
def calledApp (c : State) (tx : EthTx) : Option ShowcaseApp :=
  (tx.toAddr.bind fun addr => c.showcase.get? (hexAddr addr)).filter (·.approved)

/-- Developer stats, tester points and daily markers are unchanged. -/
def SameScores (c c' : State) : Prop :=
  c'.devStats = c.devStats ∧ c'.testerPoints = c.testerPoints ∧ c'.dailyUAW = c.dailyUAW

/-! ## Reverted calls -/

/-- A volume of `uint64` changes when one is added to it. -/
theorem State.devStats_addDevTxVolume_ne (c : State) (dev : Bytes) :
    (c.addDevTxVolume dev 1).devStats ≠ c.devStats := by
  intro heq
  have hstats : (c.addDevTxVolume dev 1).getDev dev = c.getDev dev := by
    unfold State.getDev
    rw [heq]
  have hvolume : Machine.wrap64 ((c.getDev dev).txVolume + 1) = (c.getDev dev).txVolume := by
    simpa [State.addDevTxVolume, State.getDev, KVStore.lookup_assign]
      using congrArg DevStats.txVolume hstats
  unfold Machine.wrap64 at hvolume
  omega

theorem State.record_eq (c : State) (time : Nat) (tx : EthTx) :
    c.record time ⟨tx.toAddr.map hexAddr, hexAddr tx.sender⟩ = match calledApp c tx with
      | none => c
      | some app => (c.addDevTxVolume app.dev 1).markActiveToday (day time) (hexAddr tx.sender) := by
  unfold State.record calledApp
  cases tx.toAddr with
  | none => rfl
  | some addr =>
    simp only [Option.map_some, Option.bind_some]
    cases c.showcase.get? (hexAddr addr) with
    | none => rfl
    | some app => cases happ : app.approved <;> simp [happ, Option.filter]

variable {c : State} {s : GasSponsor.State} {e : Env} {tx : EthTx} {out : Outcome}

/-- A reverted call scores nothing exactly when no call scores: the leaderboard is frozen, or the
target is no approved app. -/
theorem reverted_sameScores_iff (time : Nat) (h : Reverted s e tx out) :
    SameScores c (deliver c s e time tx out)
      ↔ c.snapshotDone = true ∨ calledApp c tx = none := by
  unfold deliver State.postHandle
  rw [h.applied]
  cases hdone : c.snapshotDone with
  | true => simp [SameScores]
  | false =>
    simp only [Bool.true_eq_false, Bool.false_eq_true, or_self, if_false, false_or, List.foldl_cons,
      List.foldl_nil, State.record_eq]
    cases happ : calledApp c tx with
    | none => simp [SameScores]
    | some app =>
      refine iff_of_false (fun hsame => ?_) nofun
      apply c.devStats_addDevTxVolume_ne app.dev
      rw [← hsame.1]
      simp only [State.markActiveToday]
      split_ifs <;> rfl

namespace Sample

/-- A leaderboard with no scores, over a showcase of one app. -/
def board (app : ShowcaseApp) : State where
  params := ⟨1000, some 0, some 0, 1, 1, some 1, 10, [7], false⟩
  showcase := RecStore.empty.put app
  devStats := .empty
  testerPoints := .empty
  dailyUAW := .empty
  snapshotDone := false

def app (address : Bytes) (approved : Bool) : ShowcaseApp := ⟨address, [3], bytesOf "evm", approved⟩

open GasSponsor.Sample

def call : EthTx := transferTx alice bob 0 0

def outOfGas : Outcome := { transferOut alice bob 0 with leftoverGas := 0, failed := true }

theorem call_reverted : Reverted (state 0 0) env call outOfGas := ⟨by decide +kernel, rfl⟩

end Sample

open Sample GasSponsor.Sample

theorem reverted_sameScores_unapproved :
    SameScores (board (app (hexAddr bob) false))
      (deliver (board (app (hexAddr bob) false)) (state 0 0) env 0 call outOfGas) :=
  (reverted_sameScores_iff 0 call_reverted).mpr (.inr (by decide +kernel))

/-- The developer of an approved app is credited for a call that runs out of gas. -/
theorem reverted_call_scores :
    Reverted (state 0 0) env call outOfGas
      ∧ ¬ SameScores (board (app (hexAddr bob) true))
        (deliver (board (app (hexAddr bob) true)) (state 0 0) env 0 call outOfGas) :=
  ⟨call_reverted, fun hsame => absurd hsame.1 (by decide +kernel)⟩

end Contest
