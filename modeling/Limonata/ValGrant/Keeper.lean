import Limonata.EncMempool.Types
import Limonata.Lib.RecStore

/-!
# x/valgrant — locked grants and their clawback

A grant is a permanently locked account funded from the module's reserve pool. Its grantee may stake
the locked coins. A clawback undelegates what the grantee has bonded, sweeps the part of the locked
principal that is in the account and leaves the rest to a record; the end of a later block sweeps
that rest when the record's unbondings have matured.

Times are in nanoseconds. Accounts, bank balances and the staking state of the grantees stand in the
state beside the module's own stores. Staking never slashes, so a delegation is counted in tokens.
Amounts are those of the bond denom, and an address is identified with its account.
-/

namespace ValGrant

open EncMempool (Bytes bytesOf)

/-- The part of the application outside the module that does not change. -/
structure Env where
  /-- Whether the address codec accepts the address. -/
  validAddr : Bytes → Bool
  /-- Addresses that may not receive funds. -/
  blockedAddr : Bytes → Bool
  govAddr : Bytes

/-- The block an action is executed in, with the staking params in force. -/
structure Ctx where
  height : Nat
  blockTime : Int
  unbondingTime : Nat
  maxEntries : Nat

/-- `time.Time.Unix`: whole seconds, rounded down. -/
def unix (t : Int) : Int := t / 10 ^ 9

/-- `time.Unix` of a number of seconds. -/
def ofUnix (sec : Int) : Int := sec * 10 ^ 9

/-! ## Accounts, bank and staking -/

inductive AccountKind where
  | base
  | permanentLocked
  deriving DecidableEq

/-- One entry of an unbonding delegation. -/
structure Unbonding where
  validator : Bytes
  amount : Nat
  completionTime : Int
  deriving DecidableEq

/-- An address with its account, its balance and its stake. -/
structure Holder where
  account : Option AccountKind
  balance : Nat
  /-- Bonded tokens by validator. -/
  delegations : KVStore Bytes Nat
  unbondings : List Unbonding

namespace Holder

def addDelegation (h : Holder) (validator : Bytes) (amount : Nat) : Holder :=
  { h with
    delegations := h.delegations.assign validator
      ((h.delegations.lookup validator).getD 0 + amount) }

/-- The holder without `amount` of its `bonded` tokens at a validator; an empty delegation is
deleted. -/
def subDelegation (h : Holder) (validator : Bytes) (bonded amount : Nat) : Holder :=
  { h with
    delegations := if amount = bonded then h.delegations.del validator
      else h.delegations.assign validator (bonded - amount) }

def delegate (h : Holder) (validator : Bytes) (amount : Nat) : Option Holder :=
  if h.balance < amount then none
  else some { h.addDelegation validator amount with balance := h.balance - amount }

/-- `stakingKeeper.Undelegate`: an entry that completes after the unbonding time, unless the pair
already has as many entries as it may. -/
def undelegate (ctx : Ctx) (h : Holder) (validator : Bytes) (amount : Nat) :
    Option (Holder × Unbonding) :=
  match h.delegations.lookup validator with
  | none => none
  | some bonded =>
    if bonded < amount then none
    else if ctx.maxEntries ≤ h.unbondings.countP (fun u => u.validator = validator) then none
    else
      let u : Unbonding := ⟨validator, amount, ctx.blockTime + ctx.unbondingTime⟩
      some ({ h.subDelegation validator bonded amount with unbondings := h.unbondings ++ [u] }, u)

def redelegate (h : Holder) (src dst : Bytes) (amount : Nat) : Option Holder :=
  match h.delegations.lookup src with
  | none => none
  | some bonded =>
    if bonded < amount ∨ src = dst then none
    else some ((h.subDelegation src bonded amount).addDelegation dst amount)

/-- Bond a part of the unbonding entry at position `i` again, before it completes. -/
def cancelUnbonding (ctx : Ctx) (h : Holder) (i amount : Nat) : Option Holder :=
  match h.unbondings[i]? with
  | none => none
  | some u =>
    if u.amount < amount ∨ u.completionTime < ctx.blockTime then none
    else
      let rest := if amount = u.amount then h.unbondings.eraseIdx i
        else h.unbondings.set i { u with amount := u.amount - amount }
      some ({ h with unbondings := rest }.addDelegation u.validator amount)

/-- The entries that completed are paid out at the end of a block. -/
def completeUnbonding (now : Int) (h : Holder) : Holder :=
  { h with
    balance := h.balance
      + ((h.unbondings.filter (fun u => u.completionTime ≤ now)).map Unbonding.amount).sum
    unbondings := h.unbondings.filter (fun u => now < u.completionTime) }

end Holder

/-! ## The module's records -/

inductive GrantStatus where
  | active
  | revoked
  deriving DecidableEq

/-- A locked grant for a validator candidate. -/
structure Grant where
  grantee : Bytes
  lockedAmount : Int
  gasAllowance : Int
  validatorOp : Bytes
  issuedHeight : Nat
  issuedTime : Int
  status : GrantStatus
  deriving DecidableEq

structure PendingClawbackEntry where
  validator : Bytes
  amount : Nat
  completionUnix : Int
  deriving DecidableEq

/-- A clawback whose bonded principal is still unbonding. -/
structure PendingClawback where
  grantee : Bytes
  entries : List PendingClawbackEntry
  sweepAmount : Int
  initiatedAt : Int
  deriving DecidableEq

structure State where
  admin : Bytes
  grants : RecStore Grant.grantee
  pendings : RecStore PendingClawback.grantee
  /-- The balance of the module account. -/
  pool : Nat
  holders : Bytes → Holder
  /-- What accounts have sent to the module account. -/
  transfers : List (Bytes × Nat)

namespace State

variable (E : Env) (ctx : Ctx) (s : State)

def setHolder (who : Bytes) (h : Holder) : State :=
  { s with holders := Function.update s.holders who h }

/-- `SendCoinsFromAccountToModule`. The bank lets nothing go that is locked, and the balance of a
permanently locked account may be. -/
def sendCoinsFromAccountToModule (who : Bytes) (amount : Nat) : Option State :=
  let h := s.holders who
  if h.account = some .permanentLocked ∨ h.balance < amount then none
  else some
    { s.setHolder who { h with balance := h.balance - amount } with
      pool := s.pool + amount
      transfers := s.transfers ++ [(who, amount)] }

/-! ## Clawback -/

/-- Turn a permanently locked account into a plain one. -/
def unlockAccount (grantee : Bytes) : State :=
  let h := s.holders grantee
  if h.account = some .permanentLocked then
    s.setHolder grantee { h with account := some .base }
  else s

/-- Unlock the account and send up to `amount` of its balance to the pool. -/
def sweepPrincipal (grantee : Bytes) (amount : Int) : Option (State × Int) :=
  let s := s.unlockAccount grantee
  let sweep := min amount (s.holders grantee).balance
  if 0 < sweep then
    (s.sendCoinsFromAccountToModule grantee sweep.toNat).map fun s => (s, sweep)
  else some (s, sweep)

/-- Undelegate each of the listed delegations in full. -/
def undelegateAll (ctx : Ctx) : List (Bytes × Nat) → Holder → Option (Holder × List Unbonding)
  | [], h => some (h, [])
  | (validator, shares) :: rest, h =>
    match h.undelegate ctx validator shares with
    | none => none
    | some (h, u) => (undelegateAll ctx rest h).map fun r => (r.1, u :: r.2)

/-- How many delegations a clawback undelegates. -/
def maxRetrieve : Nat := 255

inductive ClawbackError where
  | invalidAddress
  | notFound
  | alreadyRevoked
  | undelegateFailed
  | immediateSweepFailed
  deriving DecidableEq

structure ClawbackResult where
  state : State
  undelegated : Int
  sweptNow : Int
  pending : Int
  /-- The unbonding entries the clawback made, with their exact completion times. -/
  unbonded : List Unbonding

def clawback (grantee : Bytes) : Except ClawbackError ClawbackResult :=
  if E.validAddr grantee = false then .error .invalidAddress
  else match s.grants.get? grantee with
    | none => .error .notFound
    | some grant =>
      if grant.status = .revoked then .error .alreadyRevoked
      else
        let lockedPrincipal := grant.lockedAmount
        -- (a) force-undelegate the bonded principal
        let h := s.holders grantee
        match undelegateAll ctx (h.delegations.entries.take maxRetrieve) h with
        | none => .error .undelegateFailed
        | some (h, unbonded) =>
          let undelegated : Int := ((unbonded.map Unbonding.amount).sum : Nat)
          let pendingPrincipal := min undelegated lockedPrincipal
          -- (b) sweep the principal that is in the account
          let immediatePrincipal := lockedPrincipal - pendingPrincipal
          let swept :=
            if 0 < immediatePrincipal then
              (s.setHolder grantee h).sweepPrincipal grantee immediatePrincipal
            else some (s.setHolder grantee h, 0)
          match swept with
          | none => .error .immediateSweepFailed
          | some (s, sweptNow) =>
            let pendings :=
              if 0 < pendingPrincipal then
                s.pendings.put
                  { grantee
                    entries := unbonded.map fun u =>
                      ⟨u.validator, u.amount, unix u.completionTime⟩
                    sweepAmount := pendingPrincipal
                    initiatedAt := unix ctx.blockTime }
              else s.pendings
            .ok
              { state :=
                  { s with pendings, grants := s.grants.put { grant with status := .revoked } }
                undelegated
                sweptNow
                pending := max 0 pendingPrincipal
                unbonded }

/-- Whether every entry of the record has matured, by its truncated completion time. -/
def matured (now : Int) (pc : PendingClawback) : Bool :=
  pc.entries.all (fun e => !(now < ofUnix e.completionUnix)) && E.validAddr pc.grantee

/-- Sweep one matured record. A failed send leaves it for the next block. -/
def sweepClawback (pc : PendingClawback) : State :=
  match s.sweepPrincipal pc.grantee pc.sweepAmount with
  | none => s.unlockAccount pc.grantee
  | some (s, _) => { s with pendings := s.pendings.del pc.grantee }

def sweepMaturedClawbacks : State :=
  (s.pendings.entries.filter (matured E ctx.blockTime)).foldl sweepClawback s

/-! ## Messages -/

inductive MsgError where
  | notAdmin
  | notGov
  | invalidLockedAmount
  | invalidGasAllowance
  | invalidAddress
  | accountExists
  | blocked
  | poolTooSmall
  | invalidBurnAmount
  | nothingToBurn
  | burnExceedsPool
  | clawback (err : ClawbackError)
  deriving DecidableEq

def requireAdmin (signer : Bytes) : Bool := s.admin ≠ [] ∧ signer = s.admin

/-- Fund a fresh permanently locked account from the pool. -/
def issueGrant (grantee : Bytes) (locked gas : Nat) : Except MsgError State :=
  if E.validAddr grantee = false then .error .invalidAddress
  else if (s.holders grantee).account.isSome then .error .accountExists
  else if E.blockedAddr grantee then .error .blocked
  else if s.pool < locked + gas then .error .poolTooSmall
  else
    let h := s.holders grantee
    .ok { s.setHolder grantee
            { h with account := some .permanentLocked, balance := h.balance + locked + gas } with
          pool := s.pool - (locked + gas) }

def issueLocked (signer grantee : Bytes) (lockedAmount gasAllowance : Option Int)
    (validatorOp : Bytes) : Except MsgError State :=
  if s.requireAdmin signer = false then .error .notAdmin
  else match lockedAmount, gasAllowance with
    | none, _ => .error .invalidLockedAmount
    | some locked, none =>
      if locked ≤ 0 then .error .invalidLockedAmount else .error .invalidGasAllowance
    | some locked, some gas =>
      if locked ≤ 0 then .error .invalidLockedAmount
      else if gas < 0 then .error .invalidGasAllowance
      else match s.issueGrant E grantee locked.toNat gas.toNat with
        | .error err => .error err
        | .ok s => .ok
            { s with
              grants := s.grants.put
                { grantee, lockedAmount := locked, gasAllowance := gas, validatorOp
                  issuedHeight := ctx.height, issuedTime := unix ctx.blockTime
                  status := .active } }

def msgClawback (signer grantee : Bytes) : Except MsgError ClawbackResult :=
  if s.requireAdmin signer = false then .error .notAdmin
  else (s.clawback E ctx grantee).mapError .clawback

/-- The amount of a burn: the whole pool for an empty or zero text, else the parsed one. -/
def resolveBurn (amount : Bytes) (parsed : Option Int) : Except MsgError Int :=
  if amount = [] ∨ amount = bytesOf "0" then .ok s.pool
  else match parsed with
    | none => .error .invalidBurnAmount
    | some amt => if amt ≤ 0 then .error .invalidBurnAmount else .ok amt

def burnPool (signer amount : Bytes) (parsed : Option Int) : Except MsgError State :=
  if signer ≠ E.govAddr ∧ s.requireAdmin signer = false then .error .notAdmin
  else match s.resolveBurn amount parsed with
    | .error err => .error err
    | .ok burnAmt =>
      if burnAmt ≤ 0 then .error .nothingToBurn
      else if (s.pool : Int) < burnAmt then .error .burnExceedsPool
      else .ok { s with pool := s.pool - burnAmt.toNat }

def updateParams (authority admin : Bytes) : Except MsgError State :=
  if authority ≠ E.govAddr then .error .notGov else .ok { s with admin }

/-! ## Blocks -/

/-- Staking pays out at the end of a block before the module sweeps. -/
def endBlock : State :=
  { s with holders := fun who => (s.holders who).completeUnbonding ctx.blockTime
  }.sweepMaturedClawbacks E ctx

end State

end ValGrant
