import Limonata.EncMempool.Types
import Limonata.Lib.Machine
import Limonata.Lib.RecStore

/-!
# x/contest — the leaderboard

Calls to approved apps of the showcase score: each one adds to the transaction volume of the app's
developer and marks its sender active for the day. The end of a block turns the marks of the days
before into points, and freezes the leaderboard once the block time reaches the snapshot.

Times are in whole seconds. Volumes, points and weights are `uint64`, so their sums wrap. The
sponsored gas of a developer and the budgets are texts of integers in the store; here they are the
integers, a text that is none being `none`.
-/

namespace Contest

open EncMempool (Bytes bytesOf)
open Machine (wrap64)

/-! ## Records -/

/-- An app of the showcase, by its address. -/
structure ShowcaseApp where
  address : Bytes
  dev : Bytes
  vm : Bytes
  approved : Bool
  deriving DecidableEq

structure DevStats where
  txVolume : Nat
  gasSponsored : Int
  deriving DecidableEq

structure Params where
  snapshotUnix : Int
  devTrackBudget : Option Int
  testerTrackBudget : Option Int
  weightTxVolume : Nat
  weightGasSponsoredPer : Nat
  gasSponsoredDivisor : Option Int
  weightUAW : Nat
  admin : Bytes
  passkeyEnabled : Bool
  deriving DecidableEq

structure State where
  params : Params
  showcase : RecStore ShowcaseApp.address
  devStats : KVStore Bytes DevStats
  testerPoints : KVStore Bytes Nat
  /-- The testers active on a day, until they are rolled up. -/
  dailyUAW : KVStore (Nat ×ₗ Bytes) Unit
  snapshotDone : Bool

/-- The UTC day of a unix time. -/
def day (time : Nat) : Nat := time / 86400

/-- The digit of a number below 16, in lower case. -/
def hexDigit (n : Nat) : Fin 256 := Fin.ofNat 256 (if n < 10 then 48 + n else 87 + n)

/-- `strings.ToLower` of `Hex` of an EVM address. -/
def hexAddr (addr : Bytes) : Bytes :=
  bytesOf "0x" ++ addr.flatMap fun b => [hexDigit (b.val / 16), hexDigit (b.val % 16)]

namespace State

/-! ## Scores -/

variable (s : State)

def getDev (dev : Bytes) : DevStats := (s.devStats.lookup dev).getD ⟨0, 0⟩

def addDevTxVolume (dev : Bytes) (n : Nat) : State :=
  let stats := s.getDev dev
  { s with
    devStats := s.devStats.assign dev { stats with txVolume := wrap64 (stats.txVolume + n) } }

def addTesterPoints (tester : Bytes) (pts : Nat) : State :=
  { s with
    testerPoints := s.testerPoints.assign tester
      (wrap64 ((s.testerPoints.lookup tester).getD 0 + pts)) }

/-- Record a tester as active on a day; a second time changes nothing. -/
def markActiveToday (day : Nat) (tester : Bytes) : State :=
  if s.dailyUAW.has (toLex (day, tester)) then s
  else { s with dailyUAW := s.dailyUAW.assign (toLex (day, tester)) () }

/-- The message of an EVM transaction: the texts of its target, if it has one, and of its sender, in
lower case. -/
structure EthMsg where
  toAddr : Option Bytes
  sender : Bytes
  deriving DecidableEq

/-- Score one message. -/
def record (time : Nat) (s : State) (msg : EthMsg) : State :=
  match msg.toAddr with
  | none => s
  | some contract =>
    match s.showcase.get? contract with
    | none => s
    | some app =>
      if app.approved then
        (s.addDevTxVolume app.dev 1).markActiveToday (day time) msg.sender
      else s

/-- `RecordDecorator.PostHandle` of a delivered transaction. -/
def postHandle (time : Nat) (success : Bool) (msgs : List EthMsg) : State :=
  if success = false ∨ s.snapshotDone = true then s else msgs.foldl (record time) s

/-! ## End of a block -/

/-- Turn one mark into points. -/
def rollupMark (weight : Nat) (s : State) (mark : (Nat ×ₗ Bytes) × Unit) : State :=
  let s := s.addTesterPoints (ofLex mark.1).2 weight
  { s with dailyUAW := s.dailyUAW.del mark.1 }

/-- Turn the marks of all days before today into points. -/
def rollupUAW (today weight : Nat) : State :=
  (s.dailyUAW.entries.filter fun mark => (ofLex mark.1).1 < today).foldl (rollupMark weight) s

def endBlock (time : Nat) : State :=
  if s.snapshotDone then s
  else
    let s := s.rollupUAW (day time) s.params.weightUAW
    if 0 < s.params.snapshotUnix ∧ s.params.snapshotUnix ≤ time then
      { s with snapshotDone := true }
    else s

/-! ## Messages -/

inductive MsgError where
  | notConfigured
  | notAdmin
  | notGov
  | invalidAddress
  deriving DecidableEq

def requireAdmin (signer : Bytes) : Except MsgError Unit :=
  if s.params.admin = [] then .error .notConfigured
  else if signer ≠ s.params.admin then .error .notAdmin
  else .ok ()

/-- `strings.ToLower` of an ASCII text. -/
def toLower (addr : Bytes) : Bytes :=
  addr.map fun b => if 65 ≤ b.val ∧ b.val ≤ 90 then b + 32 else b

def normalizeAddr (addr vm : Bytes) : Bytes := if vm = bytesOf "evm" then toLower addr else addr

/-- `isHex` of a text: whether every byte is a hexadecimal digit. -/
def isHexDigit (b : Fin 256) : Bool :=
  (48 ≤ b.val && b.val ≤ 57) || (97 ≤ b.val && b.val ≤ 102) || (65 ≤ b.val && b.val ≤ 70)

/-- `common.IsHexAddress`: 40 digits, after an optional `0x` or `0X`. -/
def isHexAddress (addr : Bytes) : Bool :=
  let digits := if addr.take 2 = bytesOf "0x" ∨ addr.take 2 = bytesOf "0X" then addr.drop 2 else addr
  digits.length = 40 && digits.all isHexDigit

def registerShowcase (admin address dev vm : Bytes) : Except MsgError State :=
  match s.requireAdmin admin with
  | .error err => .error err
  | .ok () =>
    let vm := if vm = [] then bytesOf "evm" else vm
    if vm = bytesOf "evm" ∧ isHexAddress address = false then .error .invalidAddress
    else .ok
      { s with
        showcase := s.showcase.put
          { address := normalizeAddr address vm, dev, vm, approved := true } }

def removeShowcase (admin address : Bytes) : Except MsgError State :=
  match s.requireAdmin admin with
  | .error err => .error err
  | .ok () => .ok { s with showcase := s.showcase.del (normalizeAddr address (bytesOf "evm")) }

def setPasskeyEnabled (admin : Bytes) (enabled : Bool) : Except MsgError State :=
  match s.requireAdmin admin with
  | .error err => .error err
  | .ok () => .ok { s with params.passkeyEnabled := enabled }

def setAdmin (govAddr authority admin : Bytes) : Except MsgError State :=
  if authority ≠ govAddr then .error .notGov else .ok { s with params.admin := admin }

end State

/-! ## Runs -/

inductive Action where
  /-- The messages of a delivered transaction, and whether it succeeded. -/
  | postHandle (success : Bool) (msgs : List State.EthMsg)
  | endBlock
  | registerShowcase (admin address dev vm : Bytes)
  | removeShowcase (admin address : Bytes)
  | setPasskeyEnabled (admin : Bytes) (enabled : Bool)
  | setAdmin (authority admin : Bytes)

/-- The module's state in the block that is being executed. -/
structure Chain where
  time : Nat
  state : State

namespace Chain

/-- A failed message leaves the state as it was. -/
def orElse (s : State) : Except State.MsgError State → State
  | .ok s' => s'
  | .error _ => s

/-- An action at a time that does not go back. -/
def step (govAddr : Bytes) (c : Chain) : Nat × Action → Option Chain
  | (time, a) =>
    if time < c.time then none
    else some ⟨time, match a with
      | .postHandle success msgs => c.state.postHandle time success msgs
      | .endBlock => c.state.endBlock time
      | .registerShowcase admin address dev vm =>
        orElse c.state (c.state.registerShowcase admin address dev vm)
      | .removeShowcase admin address => orElse c.state (c.state.removeShowcase admin address)
      | .setPasskeyEnabled admin enabled =>
        orElse c.state (c.state.setPasskeyEnabled admin enabled)
      | .setAdmin authority admin => orElse c.state (c.state.setAdmin govAddr authority admin)⟩

/-- The chain `c'` is reached from `c`. -/
abbrev Runs (govAddr : Bytes) : Chain → Chain → Prop :=
  Relation.ReflTransGen fun c c' => ∃ a : Nat × Action, True ∧ c.step govAddr a = some c'

end Chain

end Contest
