import Limonata.EncMempool.Types
import Limonata.Lib.Meter

/-!
# The gas pool — coins and escrows

The coins of the fee denom and x/sponsorpool, the escrows that developers fund for the gas of their
contracts. Deposits land in the gas pool, the module account that pays every sponsored fee;
withdrawals come out of it. An escrow is an amount in the module's store, and a contract's escrow is
shared by all who deposited for it.

Amounts are natural numbers. An account is identified with its address, a contract with its
lower-case address.
-/

namespace GasSponsor

open EncMempool (Bytes bytesOf)

/-! ## Bank -/

/-- Who holds coins: accounts with a key or with code, and module accounts. -/
inductive Account where
  | user (addr : Bytes)
  | gasPool
  | feeCollector
  | squeeze
  | gasSponsor
  /-- The other module accounts, taken together. -/
  | other
  deriving DecidableEq

structure Bank where
  balance : Account → Nat
  /-- The part of an account's balance it may not spend. -/
  locked : Bytes → Nat
  /-- What the fee collector was sent virtually and is credited with at the end of the block. -/
  virtualFees : Nat

namespace Bank

section

variable (b : Bank) (acc src dst : Account) (amt : Nat)

def spendable : Account → Nat
  | .user addr => b.balance (.user addr) - b.locked addr
  | acc => b.balance acc

def credit : Bank :=
  { b with balance := Function.update b.balance acc (b.balance acc + amt) }

/-- Take coins from an account, `none` if it may not spend as much. -/
def debit : Option Bank :=
  if b.spendable acc < amt then none
  else some { b with balance := Function.update b.balance acc (b.balance acc - amt) }

def send : Option Bank :=
  (b.debit src amt).map fun b => b.credit dst amt

/-- `SendCoinsFromAccountToModuleVirtual` to the fee collector. -/
def sendVirtual : Option Bank :=
  (b.debit src amt).map fun b => { b with virtualFees := b.virtualFees + amt }

/-- `SendCoinsFromModuleToAccountVirtual` from the fee collector. -/
def sendFromVirtual : Option Bank :=
  if b.virtualFees < amt then none
  else some ({ b with virtualFees := b.virtualFees - amt }.credit dst amt)

end

variable {b b' : Bank} {acc src dst : Account} {amt : Nat}

@[simp] theorem balance_credit (b : Bank) (acc : Account) (amt : Nat) (x : Account) :
    (b.credit acc amt).balance x = b.balance x + if x = acc then amt else 0 := by
  unfold credit
  by_cases hx : x = acc
  · subst hx
    simp
  · simp [hx]

theorem spendable_le (b : Bank) (acc : Account) : b.spendable acc ≤ b.balance acc := by
  cases acc with
  | user addr => exact Nat.sub_le _ _
  | _ => exact le_rfl

theorem debit_spec (h : b.debit acc amt = some b') :
    amt ≤ b.spendable acc ∧ (∀ x, b'.balance x + (if x = acc then amt else 0) = b.balance x)
      ∧ b'.locked = b.locked ∧ b'.virtualFees = b.virtualFees := by
  unfold debit at h
  split_ifs at h with hshort
  cases h
  have hle := (Nat.not_lt.mp hshort).trans (b.spendable_le acc)
  refine ⟨Nat.not_lt.mp hshort, fun x => ?_, rfl, rfl⟩
  by_cases hx : x = acc
  · subst hx
    simpa using Nat.sub_add_cancel hle
  · simp [hx]

theorem send_spec (h : b.send src dst amt = some b') :
    amt ≤ b.spendable src
      ∧ (∀ x, b'.balance x + (if x = src then amt else 0)
        = b.balance x + if x = dst then amt else 0)
      ∧ b'.locked = b.locked ∧ b'.virtualFees = b.virtualFees := by
  obtain ⟨b₁, hdebit, rfl⟩ := Option.map_eq_some_iff.mp h
  obtain ⟨hle, hbal, hlocked, hvirtual⟩ := debit_spec hdebit
  refine ⟨hle, fun x => ?_, hlocked, hvirtual⟩
  rw [balance_credit, ← hbal x]
  omega

theorem sendVirtual_spec (h : b.sendVirtual src amt = some b') :
    amt ≤ b.spendable src ∧ (∀ x, b'.balance x + (if x = src then amt else 0) = b.balance x)
      ∧ b'.locked = b.locked ∧ b'.virtualFees = b.virtualFees + amt := by
  obtain ⟨b₁, hdebit, rfl⟩ := Option.map_eq_some_iff.mp h
  obtain ⟨hle, hbal, hlocked, hvirtual⟩ := debit_spec hdebit
  exact ⟨hle, hbal, hlocked, congrArg (· + amt) hvirtual⟩

theorem sendFromVirtual_spec (h : b.sendFromVirtual dst amt = some b') :
    amt ≤ b.virtualFees ∧ (∀ x, b'.balance x = b.balance x + if x = dst then amt else 0)
      ∧ b'.locked = b.locked ∧ b'.virtualFees + amt = b.virtualFees := by
  unfold sendFromVirtual at h
  split_ifs at h with hshort
  cases h
  have hle := Nat.not_lt.mp hshort
  exact ⟨hle, fun x => balance_credit _ _ _ _, rfl, Nat.sub_add_cancel hle⟩

theorem send_isSome : (b.send src dst amt).isSome = true ↔ amt ≤ b.spendable src := by
  unfold send debit
  split_ifs with h
  · simpa using h
  · simpa using h

end Bank

/-! ## x/sponsorpool -/

structure EscrowParams where
  enabled : Bool
  perTxCap : Option Int

/-- The store of x/sponsorpool: what funds the gas of a contract, and what a sponsor contributed to
it and may withdraw. -/
structure Escrows where
  params : EscrowParams
  escrow : KVStore Bytes Nat
  /-- By sponsor and contract. -/
  contribution : KVStore (Bytes ×ₗ Bytes) Nat

inductive EscrowError where
  | badAmount
  | insufficientContribution
  | insufficientEscrow
  | insufficientFunds
  deriving DecidableEq

namespace Escrows

section

variable (b : Bank) (e : Escrows) (payer sponsor contract : Bytes) (amt : Nat) (fee : Nat)

def escrowOf : Nat := e.escrow.amount contract

def contributionOf : Nat :=
  e.contribution.amount (toLex (sponsor, contract))

/-- The sum of all escrows. -/
def backing : Nat := e.escrow.total

/-- The store after a deposit. -/
def fund : Escrows :=
  { e with
    escrow := e.escrow.setAmount contract (e.escrowOf contract + amt)
    contribution := e.contribution.setAmount (toLex (sponsor, contract))
      (e.contributionOf sponsor contract + amt) }

/-- The store after a withdrawal. -/
def unfund : Escrows :=
  { e with
    escrow := e.escrow.setAmount contract (e.escrowOf contract - amt)
    contribution := e.contribution.setAmount (toLex (sponsor, contract))
      (e.contributionOf sponsor contract - amt) }

/-- Credit a deposit that `payer` pays to `sponsor`. -/
def depositFrom : Except EscrowError (Bank × Escrows) :=
  if amt = 0 then .error .badAmount
  else match b.send (.user payer) .gasPool amt with
    | none => .error .insufficientFunds
    | some b => .ok (b, e.fund sponsor contract amt)

def deposit : Except EscrowError (Bank × Escrows) :=
  depositFrom b e sponsor sponsor contract amt

/-- A sponsor takes back up to its own contribution, as far as the escrow goes. -/
def withdraw : Except EscrowError (Bank × Escrows) :=
  if amt = 0 then .error .badAmount
  else if e.contributionOf sponsor contract < amt then .error .insufficientContribution
  else if e.escrowOf contract < amt then .error .insufficientEscrow
  else match b.send .gasPool (.user sponsor) amt with
    | none => .error .insufficientFunds
    | some b => .ok (b, e.unfund sponsor contract amt)

/-- The store after a reservation. -/
def spend : Escrows :=
  { e with escrow := e.escrow.setAmount contract (e.escrowOf contract - fee) }

/-- Whether the escrow of a contract pays a fee. -/
def Covers : Prop :=
  e.params.enabled = true ∧ fee ≠ 0 ∧ WithinLimit e.params.perTxCap fee ∧ fee ≤ e.escrowOf contract

instance (e : Escrows) (contract : Bytes) (fee : Nat) : Decidable (e.Covers contract fee) :=
  inferInstanceAs (Decidable (_ ∧ _ ∧ _ ∧ _))

/-- Debit the escrow of a contract by a fee that the gas pool will pay; `none` declines. -/
def reserve : Option Escrows :=
  if e.Covers contract fee then some (e.spend contract fee) else none

end

variable {e e' : Escrows} {b b' : Bank} {sponsor contract payer : Bytes} {amt fee : Nat}

theorem escrowOf_fund (j : Bytes) : (e.fund sponsor contract amt).escrowOf j
    = e.escrowOf j + if j = contract then amt else 0 := by
  have hset := e.escrow.amount_setAmount contract j (e.escrowOf contract + amt)
  by_cases hj : j = contract
  · subst hj
    rw [if_pos rfl] at hset ⊢
    exact hset
  · rw [if_neg hj] at hset ⊢
    exact hset

theorem amount_setAmount_sub (hle : amt ≤ e.escrowOf contract) (j : Bytes) :
    (e.escrow.setAmount contract (e.escrowOf contract - amt)).amount j
      + (if j = contract then amt else 0) = e.escrowOf j := by
  rw [KVStore.amount_setAmount]
  by_cases hj : j = contract
  · subst hj
    rw [if_pos rfl, if_pos rfl, Nat.sub_add_cancel hle]
  · rw [if_neg hj, if_neg hj]
    rfl

theorem escrowOf_unfund (hle : amt ≤ e.escrowOf contract) (j : Bytes) :
    (e.unfund sponsor contract amt).escrowOf j + (if j = contract then amt else 0)
      = e.escrowOf j := amount_setAmount_sub hle j

theorem escrowOf_spend (hle : fee ≤ e.escrowOf contract) (j : Bytes) :
    (e.spend contract fee).escrowOf j + (if j = contract then fee else 0) = e.escrowOf j :=
  amount_setAmount_sub hle j

theorem backing_fund : (e.fund sponsor contract amt).backing = e.backing + amt := by
  have h : (e.fund sponsor contract amt).backing + e.escrowOf contract
      = e.backing + (e.escrowOf contract + amt) := e.escrow.total_setAmount contract _
  omega

theorem total_setAmount_sub (hle : amt ≤ e.escrowOf contract) :
    (e.escrow.setAmount contract (e.escrowOf contract - amt)).total + amt = e.backing := by
  have h : (e.escrow.setAmount contract (e.escrowOf contract - amt)).total + e.escrowOf contract
      = e.backing + (e.escrowOf contract - amt) := e.escrow.total_setAmount contract _
  omega

theorem backing_unfund (hle : amt ≤ e.escrowOf contract) :
    (e.unfund sponsor contract amt).backing + amt = e.backing := total_setAmount_sub hle

theorem backing_spend (hle : fee ≤ e.escrowOf contract) :
    (e.spend contract fee).backing + fee = e.backing := total_setAmount_sub hle

theorem escrowOf_le_backing (e : Escrows) (contract : Bytes) : e.escrowOf contract ≤ e.backing :=
  e.escrow.amount_le_total contract

theorem depositFrom_eq_ok : depositFrom b e payer sponsor contract amt = .ok (b', e')
    ↔ amt ≠ 0 ∧ b.send (.user payer) .gasPool amt = some b' ∧ e' = e.fund sponsor contract amt := by
  unfold depositFrom
  split_ifs with hzero
  · simp [hzero]
  · cases b.send (.user payer) .gasPool amt <;> simp [hzero, eq_comm]

theorem withdraw_eq_ok : withdraw b e sponsor contract amt = .ok (b', e')
    ↔ amt ≠ 0 ∧ amt ≤ e.contributionOf sponsor contract ∧ amt ≤ e.escrowOf contract
      ∧ b.send .gasPool (.user sponsor) amt = some b' ∧ e' = e.unfund sponsor contract amt := by
  unfold withdraw
  split_ifs with hzero hcontrib hescrow
  · simp [hzero]
  · simp [Nat.not_le.mpr hcontrib]
  · simp [Nat.not_le.mpr hescrow]
  · cases b.send .gasPool (.user sponsor) amt <;>
      simp [hzero, Nat.not_lt.mp hcontrib, Nat.not_lt.mp hescrow, eq_comm]

theorem reserve_eq_some : e.reserve contract fee = some e'
    ↔ e.Covers contract fee ∧ e' = e.spend contract fee := by
  unfold reserve
  split_ifs with h <;> simp [h, eq_comm]

end Escrows

end GasSponsor
