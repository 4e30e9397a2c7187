import Limonata.GasSponsor.Keeper
import Limonata.Lib.Reach

/-!
# The book of the gas pool

What the accounting of the pool is about, without transactions, accounts and fees: the balance of the
pool, the counters, the escrows, and a record of everything that was paid, refunded, minted, deposited
and withdrawn. The book changes by a few writes; each invariant is shown for one write and holds in
every run of them.
-/

namespace GasSponsor

open EncMempool (Bytes bytesOf)

/-! ## Events -/

inductive Event where
  /-- The pool paid a sponsored fee. -/
  | paid (day : Nat) (path : Path) (sender : Bytes) (toAddr : Option Bytes) (fee : Nat)
  /-- The pool got a part of a sponsored fee back. -/
  | refunded (path : Path) (toAddr : Option Bytes) (amt : Nat)
  /-- The pool was refilled to `pool`. -/
  | minted (day amt pool : Nat)
  | deposited (sponsor contract : Bytes) (amt : Nat)
  | withdrawn (sponsor contract : Bytes) (amt : Nat)

/-- The sum of a quantity over a record. -/
def total (f : Event → Nat) (events : List Event) : Nat := (events.map f).sum

@[simp] theorem total_nil (f : Event → Nat) : total f [] = 0 := rfl

@[simp] theorem total_append (f : Event → Nat) (events events' : List Event) :
    total f (events ++ events') = total f events + total f events' := by
  simp [total]

@[simp] theorem total_cons (f : Event → Nat) (ev : Event) (events : List Event) :
    total f (ev :: events) = f ev + total f events := by
  simp [total]

@[simp] theorem total_singleton (f : Event → Nat) (ev : Event) : total f [ev] = f ev := by
  simp [total]

/-! ## Writes -/

structure Book where
  time : Nat
  pool : Nat
  params : Params
  counters : Counters
  escrows : Escrows
  events : List Event

namespace Book

/-- A fee charged to a path: what the path lets through, and the counters and escrows after it. -/
inductive Charges (b : Book) : Path → Bytes → Option Bytes → Nat → Counters → Escrows → Prop where
  | dapp (sender contract : Bytes) (fee : Nat)
      (hday : WithinLimit b.params.dappDailyCap
        (b.counters.dappSpent.amount (toLex (day b.time, contract)) + fee)) :
      Charges b .dapp sender (some contract) fee
        { b.counters with
          dappSpent := b.counters.dappSpent.assign (toLex (day b.time, contract))
            (b.counters.dappSpent.amount (toLex (day b.time, contract)) + fee) }
        b.escrows
  | escrow (sender contract : Bytes) (fee : Nat) (hcovers : b.escrows.Covers contract fee) :
      Charges b .escrow sender (some contract) fee b.counters (b.escrows.spend contract fee)
  | baseline (sender : Bytes) (toAddr : Option Bytes) (fee held : Nat)
      (hroom : ((b.counters.allowanceUsed.amount (toLex (day b.time, sender)) + fee : Nat) : Int)
        ≤ effectiveAllowance b.params held) :
      Charges b .baseline sender toAddr fee
        { b.counters with
          allowanceUsed := b.counters.allowanceUsed.assign (toLex (day b.time, sender))
            (b.counters.allowanceUsed.amount (toLex (day b.time, sender)) + fee) }
        b.escrows
  | onboarding (sender : Bytes) (toAddr : Option Bytes) (fee : Nat)
      (hgrant : ∃ grant ∈ b.params.onboardingGrant, 0 < grant
        ∧ ((b.counters.onboardingUsed.amount sender + fee : Nat) : Int) ≤ grant)
      (hday : WithinLimit b.params.onboardingDailyCap
        (b.counters.granted.amount (day b.time) + fee)) :
      Charges b .onboarding sender toAddr fee
        { b.counters with
          onboardingUsed := b.counters.onboardingUsed.assign sender
            (b.counters.onboardingUsed.amount sender + fee)
          granted := b.counters.granted.assign (day b.time)
            (b.counters.granted.amount (day b.time) + fee) }
        b.escrows

/-- One write. `Ok` restricts the fees that are not charged to an escrow. -/
inductive Write (Ok : Book → Nat → Prop) (b : Book) : Book → Prop where
  | tick (time : Nat) (hle : b.time ≤ time) : Write Ok b { b with time }
  | inflow (pool : Nat) (hle : b.pool ≤ pool) : Write Ok b { b with pool }
  | pay (path : Path) (sender : Bytes) (toAddr : Option Bytes) (fee : Nat) (counters : Counters)
      (escrows : Escrows) (hcharge : b.Charges path sender toAddr fee counters escrows)
      (hpool : fee ≤ b.pool) (hok : path ≠ .escrow → Ok b fee) :
      Write Ok b { b with
        pool := b.pool - fee
        counters, escrows
        events := b.events ++ [.paid (day b.time) path sender toAddr fee] }
  | refund (path : Path) (toAddr : Option Bytes) (amt : Nat) :
      Write Ok b { b with
        pool := b.pool + amt
        events := b.events ++ [.refunded path toAddr amt] }
  | deposit (sponsor contract : Bytes) (amt : Nat) :
      Write Ok b { b with
        pool := b.pool + amt
        escrows := b.escrows.fund sponsor contract amt
        events := b.events ++ [.deposited sponsor contract amt] }
  | withdraw (sponsor contract : Bytes) (amt : Nat)
      (hcontribution : amt ≤ b.escrows.contributionOf sponsor contract)
      (hescrow : amt ≤ b.escrows.escrowOf contract) (hpool : amt ≤ b.pool) :
      Write Ok b { b with
        pool := b.pool - amt
        escrows := b.escrows.unfund sponsor contract amt
        events := b.events ++ [.withdrawn sponsor contract amt] }
  | mint (amt : Nat) (htarget : ∃ target ∈ b.params.minPoolBalance, ((b.pool + amt : Nat) : Int) ≤ target)
      (hday : WithinLimit b.params.refillDailyMintCap (b.counters.minted.amount (day b.time) + amt)) :
      Write Ok b { b with
        pool := b.pool + amt
        counters := { b.counters with
          minted := b.counters.minted.assign (day b.time)
            (b.counters.minted.amount (day b.time) + amt) }
        events := b.events ++ [.minted (day b.time) amt (b.pool + amt)] }

abbrev Run (Ok : Book → Nat → Prop) := Relation.ReflTransGen (Write Ok)

variable {Ok : Book → Nat → Prop} {b b' : Book}

theorem Write.params_eq (h : Write Ok b b') : b'.params = b.params := by
  cases h <;> rfl

theorem Run.params_eq (h : Run Ok b b') : b'.params = b.params :=
  Reach.run_keeps (I := fun b' : Book => b'.params = b.params)
    (fun _ _ hw hb => hw.params_eq.trans hb) h rfl

end Book

end GasSponsor
