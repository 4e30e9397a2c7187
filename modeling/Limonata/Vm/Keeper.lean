import Limonata.EncMempool.Types

/-!
# x/vm — accounts over auth, bank and the EVM store

An account of the EVM lives in three stores: its sequence in x/auth, its coins in x/bank, its code
hash, code and storage in x/vm. The keeper reads an account with its spendable balance and writes it
back with the locked part added again.

Amounts are those of the EVM denom and do not overflow a bank balance. The code hash is taken to be
injective, so a hash is written as the bytes it is the hash of. `LockedCoins` of an account is a number
of the account; the block time does not change within a transaction. An account without a record has
nothing locked.
-/

namespace Vm

open EncMempool (Bytes bytesOf)

abbrev Address := Fin (2 ^ 160)

/-- A key or a value of contract storage. -/
abbrev Word := Fin (2 ^ 256)

instance addressSize : NeZero (2 ^ 160) := inferInstance

instance wordSize : NeZero (2 ^ 256) := inferInstance

abbrev CodeHash := Bytes

/-- Keccak-256 of a code. -/
def keccak256 (code : Bytes) : CodeHash := code

def emptyCodeHash : CodeHash := keccak256 []

/-- `ParseDelegation`: the marker of an EIP-7702 delegation and an address. -/
def isDelegation (code : Bytes) : Bool :=
  code.length = 23 && code.take 3 = [239, 1, 0]

/-! ## The stores -/

/-- The record of x/auth. -/
structure AuthAccount where
  sequence : Nat
  /-- `LockedCoins`: what a vesting account may not spend. -/
  locked : Nat
  deriving DecidableEq

/-- The contents of a multistore. -/
structure World where
  auth : Address → Option AuthAccount
  balance : Address → Nat
  /-- The total supply that x/bank keeps. -/
  supply : Nat
  codeHash : Address → Option CodeHash
  code : CodeHash → Option Bytes
  storage : Address → Word → Option Word
  /-- The stores of all other modules. -/
  other : Bytes → Option Bytes

/-- `statedb.Account`. -/
structure Account where
  nonce : Nat
  balance : Nat
  codeHash : CodeHash
  /-- The locked coins when the account was loaded; `none` if it was not. -/
  lockedBalance : Option Nat
  deriving DecidableEq

namespace World

variable (w : World) (addr : Address)

/-! ## Reading -/

def lockedCoins : Nat := ((w.auth addr).map AuthAccount.locked).getD 0

/-- Zero if more is locked than there is. -/
def spendableCoin : Nat := w.balance addr - w.lockedCoins addr

def getCodeHash : CodeHash := (w.codeHash addr).getD emptyCodeHash

/-- The code under a hash; `none` is Go's nil. -/
def getCode (hash : CodeHash) : Option Bytes := w.code hash

def getState (key : Word) : Word := (w.storage addr key).getD 0

def getAccount : Option Account :=
  (w.auth addr).map fun acct =>
    { nonce := acct.sequence
      balance := w.spendableCoin addr
      codeHash := w.getCodeHash addr
      lockedBalance := some (w.lockedCoins addr) }

/-- Code that is not a delegation. -/
def isContract : Bool :=
  let code := (w.getCode (w.getCodeHash addr)).getD []
  code ≠ [] && !isDelegation code

/-! ## Writing -/

variable (blocked : Address → Bool)

/-- `SetBalanceWithLocked`; `none` if a blocked address would receive funds. -/
def setBalanceWithLocked (amount locked : Nat) : Option World :=
  if w.spendableCoin addr < amount ∧ blocked addr = true then none
  else some { w with balance := Function.update w.balance addr (amount + locked) }

/-- The locked coins are those of the account, or looked up if it has none. -/
def setAccountBalance (account : Account) : Option World :=
  match account.lockedBalance with
  | none => w.setBalanceWithLocked addr blocked account.balance (w.lockedCoins addr)
  | some locked => w.setBalanceWithLocked addr blocked account.balance locked

/-- `SetAccount`: what was written, and whether there was no error. A new account has nothing
locked. -/
def setAccount (account : Account) : World × Bool :=
  let acct := (w.auth addr).getD ⟨0, 0⟩
  let w :=
    { w with
      codeHash := Function.update w.codeHash addr
        (if account.codeHash = emptyCodeHash then none else some account.codeHash)
      auth := Function.update w.auth addr (some { acct with sequence := account.nonce }) }
  match w.setAccountBalance addr blocked account with
  | none => (w, false)
  | some w => (w, true)

def setState (key : Word) (value : Option Word) : World :=
  { w with storage := Function.update w.storage addr (Function.update (w.storage addr) key value) }

def setCode (hash : CodeHash) (code : Option Bytes) : World :=
  { w with code := Function.update w.code hash code }

/-- `DeleteAccount`: what was written, and whether there was no error. -/
def deleteAccount : World × Bool :=
  match w.auth addr with
  | none => (w, true)
  | some acct =>
    -- only smart contracts can be self-destructed
    if w.isContract addr = false then (w, false)
    else
      -- a base account, so that the whole balance is spendable
      let w := { w with auth := Function.update w.auth addr (some { acct with locked := 0 }) }
      match w.setBalanceWithLocked addr blocked 0 0 with
      | none => (w, false)
      | some w =>
        ({ w with
            storage := Function.update w.storage addr fun _ => none
            codeHash := Function.update w.codeHash addr none
            auth := Function.update w.auth addr none }, true)

/-! ## What the writes leave -/

/-- The records of an account without its coins. -/
def setRecords (account : Account) : World :=
  { w with
    codeHash := Function.update w.codeHash addr
      (if account.codeHash = emptyCodeHash then none else some account.codeHash)
    auth := Function.update w.auth addr
      (some { (w.auth addr).getD ⟨0, 0⟩ with sequence := account.nonce }) }

/-- The coins of an account, with its locked part. -/
def fullBalance (account : Account) : Nat :=
  account.balance + account.lockedBalance.getD (w.lockedCoins addr)

/-- An account with nothing of it left but the code under its hash. -/
def removeAccount : World :=
  { w with
    auth := Function.update w.auth addr none
    balance := Function.update w.balance addr 0
    codeHash := Function.update w.codeHash addr none
    storage := Function.update w.storage addr fun _ => none }

variable {w addr blocked}

@[simp] theorem lockedCoins_setRecords {account : Account} :
    (w.setRecords addr account).lockedCoins addr = w.lockedCoins addr := by
  unfold lockedCoins setRecords
  cases w.auth addr <;> simp

theorem setAccount_eq {account : Account} :
    w.setAccount addr blocked account =
      if w.spendableCoin addr < account.balance ∧ blocked addr = true then
        (w.setRecords addr account, false)
      else ({ w.setRecords addr account with
        balance := Function.update w.balance addr (w.fullBalance addr account) }, true) := by
  have hspendable : (w.setRecords addr account).spendableCoin addr = w.spendableCoin addr := by
    unfold spendableCoin
    rw [lockedCoins_setRecords]
    rfl
  have hset : w.setAccount addr blocked account =
      match (w.setRecords addr account).setBalanceWithLocked addr blocked account.balance
        (account.lockedBalance.getD (w.lockedCoins addr)) with
      | none => (w.setRecords addr account, false)
      | some w => (w, true) := by
    unfold setAccount setAccountBalance
    cases hlocked : account.lockedBalance with
    | none =>
      have hlock : (w.setRecords addr account).lockedCoins addr = w.lockedCoins addr :=
        lockedCoins_setRecords
      simp only [Option.getD_none, ← hlock]
      rfl
    | some locked => rfl
  rw [hset, setBalanceWithLocked, hspendable]
  split_ifs <;> rfl

theorem getAccount_setAccount {account : Account}
    (hpays : ¬ (w.spendableCoin addr < account.balance ∧ blocked addr = true)) :
    (w.setAccount addr blocked account).1.getAccount addr =
      some { nonce := account.nonce
             balance := w.fullBalance addr account - w.lockedCoins addr
             codeHash := account.codeHash
             lockedBalance := some (w.lockedCoins addr) } := by
  have hlocked : (w.setAccount addr blocked account).1.lockedCoins addr = w.lockedCoins addr := by
    rw [setAccount_eq, if_neg hpays]
    exact lockedCoins_setRecords
  have hhash : (w.setAccount addr blocked account).1.getCodeHash addr = account.codeHash := by
    rw [setAccount_eq, if_neg hpays]
    simp only [getCodeHash, setRecords, Function.update_self]
    split_ifs with hempty
    · exact hempty.symm
    · rfl
  unfold getAccount spendableCoin
  rw [hlocked, hhash, setAccount_eq, if_neg hpays]
  simp [setRecords]

theorem deleteAccount_eq :
    w.deleteAccount addr blocked =
      if w.auth addr = none then (w, true)
      else if w.isContract addr = false then (w, false)
      else (w.removeAccount addr, true) := by
  unfold deleteAccount
  cases w.auth addr with
  | none => simp
  | some acct =>
    simp only [reduceCtorEq, if_false]
    split_ifs
    · rfl
    · simp only [setBalanceWithLocked, Nat.not_lt_zero, false_and, if_false, Function.update_idem]
      rfl

end World

end Vm
