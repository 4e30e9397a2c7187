import Limonata.GasSponsor.Budgets

/-!
# Escrows and the pool

Escrows are deposited into the account that pays all sponsored fees. What is beyond them is the pool's
own. A fee that an escrow pays takes as much out of the escrows as out of the pool, and so does a
withdrawal: neither touches what is the pool's own, and neither makes the refill mint.

Two things go wrong. A fee of another path may take coins that back an escrow. And the refund of a fee
that an escrow paid goes to the pool's own part.
-/

namespace GasSponsor

open EncMempool (Bytes bytesOf)

/-! ## Sums over the record -/

namespace Event

/-- What was minted. -/
def mintedAmt : Event → Nat
  | .minted _ amt _ => amt
  | _ => 0

/-- What the pool paid on a path other than the escrow. -/
def poolFee : Event → Nat
  | .paid _ path _ _ fee => if path = .escrow then 0 else fee
  | _ => 0

/-- What the pool paid out of the escrow of a contract. -/
def escrowFee (contract : Bytes) : Event → Nat
  | .paid _ .escrow _ toAddr fee => if toAddr = some contract then fee else 0
  | _ => 0

/-- What came back of it. -/
def escrowRefund (contract : Bytes) : Event → Nat
  | .refunded .escrow toAddr amt => if toAddr = some contract then amt else 0
  | _ => 0

def depositedTo (contract : Bytes) : Event → Nat
  | .deposited _ target amt => if contract = target then amt else 0
  | _ => 0

def withdrawnFrom (contract : Bytes) : Event → Nat
  | .withdrawn _ target amt => if contract = target then amt else 0
  | _ => 0

end Event

/-! ## The pool's own part -/

namespace Book

variable {Ok : Book → Nat → Prop} {b b' : Book}

theorem Charges.backing {path : Path} {sender : Bytes} {toAddr : Option Bytes} {fee : Nat}
    {counters : Counters} {escrows : Escrows}
    (h : b.Charges path sender toAddr fee counters escrows) :
    escrows.backing + (if path = .escrow then fee else 0) = b.escrows.backing := by
  cases h with
  | escrow sender contract fee hcovers => exact Escrows.backing_spend hcovers.2.2.2
  | _ => rfl

/-- **Backing.** Fees that find their amount beyond the escrows leave the escrows backed. -/
theorem backing_le_pool_write (hw : Write (fun b fee => b.escrows.backing + fee ≤ b.pool) b b')
    (h : b.escrows.backing ≤ b.pool) : b'.escrows.backing ≤ b'.pool := by
  cases hw with
  | tick time hle => exact h
  | inflow pool hle => exact h.trans hle
  | pay path sender toAddr fee counters escrows hcharge hpool hok =>
    have hback := hcharge.backing
    show escrows.backing ≤ b.pool - fee
    by_cases hpath : path = .escrow
    · rw [if_pos hpath] at hback
      omega
    · rw [if_neg hpath] at hback
      have hroom := hok hpath
      omega
  | refund path toAddr amt => exact h.trans (Nat.le_add_right _ _)
  | deposit sponsor contract amt =>
    show (b.escrows.fund sponsor contract amt).backing ≤ b.pool + amt
    rw [Escrows.backing_fund]
    omega
  | withdraw sponsor contract amt hc he hp =>
    have hback : (b.escrows.unfund sponsor contract amt).backing + amt = b.escrows.backing :=
      Escrows.backing_unfund he
    show (b.escrows.unfund sponsor contract amt).backing ≤ b.pool - amt
    omega
  | mint amt htarget hday => exact h.trans (Nat.le_add_right _ _)

/-- **Potential.** What was minted is in the pool's own part, or was paid out of it. -/
theorem minted_potential_write {own : Nat} (hw : Write Ok b b')
    (h : own + total Event.mintedAmt b.events + b.escrows.backing
      ≤ b.pool + total Event.poolFee b.events) :
    own + total Event.mintedAmt b'.events + b'.escrows.backing
      ≤ b'.pool + total Event.poolFee b'.events := by
  cases hw with
  | tick time hle => exact h
  | inflow pool hle => exact h.trans (Nat.add_le_add_right hle _)
  | pay path sender toAddr fee counters escrows hcharge hpool hok =>
    have hback := hcharge.backing
    simp only [total_append, total_singleton, Event.mintedAmt, Event.poolFee]
    by_cases hpath : path = .escrow
    · rw [if_pos hpath] at hback ⊢
      omega
    · rw [if_neg hpath] at hback ⊢
      omega
  | refund path toAddr amt | mint amt htarget hday =>
    simp only [total_append, total_singleton, Event.mintedAmt, Event.poolFee]
    omega
  | deposit sponsor contract amt =>
    simp only [total_append, total_singleton, Event.mintedAmt, Event.poolFee, Escrows.backing_fund]
    omega
  | withdraw sponsor contract amt hc he hp =>
    have hback : (b.escrows.unfund sponsor contract amt).backing + amt = b.escrows.backing :=
      Escrows.backing_unfund he
    simp only [total_append, total_singleton, Event.mintedAmt, Event.poolFee]
    omega

/-- A mint leaves the pool at most at its target, so the potential bounds what was minted by then. -/
theorem minted_bound_write {own : Nat} {target : Int} (hw : Write Ok b b')
    (htarget : b.params.minPoolBalance = some target)
    (hpot : own + total Event.mintedAmt b.events + b.escrows.backing
      ≤ b.pool + total Event.poolFee b.events)
    (h : (total Event.mintedAmt b.events : Int)
      ≤ max 0 (target - own) + total Event.poolFee b.events) :
    (total Event.mintedAmt b'.events : Int)
      ≤ max 0 (target - own) + total Event.poolFee b'.events := by
  cases hw with
  | tick time hle => exact h
  | inflow pool hle => exact h
  | pay path sender toAddr fee counters escrows hcharge hpool hok =>
    simp only [total_append, total_singleton, Event.mintedAmt]
    omega
  | refund path toAddr amt | deposit sponsor contract amt | withdraw sponsor contract amt hc he hp =>
    simp only [total_append, total_singleton, Event.mintedAmt, Event.poolFee]
    omega
  | mint amt hceiling hday =>
    obtain ⟨t, ht, hle⟩ := hceiling
    obtain rfl := Option.some_inj.mp (htarget.symm.trans ht)
    simp only [total_append, total_singleton, Event.mintedAmt, Event.poolFee]
    omega

end Book

/-! ## Runs -/

namespace Sample

/-- A contract with an escrow. -/
def app : Bytes := [9]

/-- A message that deposits for the contract. -/
def deposit (amt : Nat) : Action := .message (.deposit alice alice app amt)

/-- The default settings with a small pool that is refilled. -/
def refilledState : State :=
  { state 1000000 (2 * 10 ^ 18) with
    params := { defaultParams with minPoolBalance := some 1000000 } }

end Sample

namespace Chain

variable {time : Nat} {s : State} {c : Chain}

/-- **The pool pays out of its own part.** A transaction that a path other than the escrow covers
finds its fee in the pool beyond the escrows. -/
def OwnFunds : Allow := fun c a => match a with
  | .deliver env tx _ =>
    c.state.PoolPays c.time tx.sender tx.toAddr (tx.gas * env.gasPrice tx) →
      c.state.escrows.backing + tx.gas * env.gasPrice tx ≤ c.state.poolBalance
  | _ => True

instance (c : Chain) : ∀ a, Decidable (OwnFunds c a)
  | .deliver .. => inferInstanceAs (Decidable (_ → _))
  | .beginBlock .. | .endBlock | .message .. | .cosmosFee .. | .setShowcase .. => .isTrue trivial

/-- **Escrows stay backed.** If the pool pays the fees of its other paths out of its own part, the pool
holds the sum of all escrows in every state of a run, and a sponsor can withdraw what its contribution
and the escrow allow. -/
theorem escrows_stay_backed (hstart : s.escrows.backing ≤ s.poolBalance)
    (hrun : Runs OwnFunds (start time s) c) :
    c.state.escrows.backing ≤ c.state.poolBalance
      ∧ ∀ sponsor contract amt, 0 < amt → amt ≤ c.state.escrows.contributionOf sponsor contract →
        amt ≤ c.state.escrows.escrowOf contract →
        ∃ r, Escrows.withdraw c.state.bank c.state.escrows sponsor contract amt = .ok r := by
  have hbook : Book.Run (fun b fee => b.escrows.backing + fee ≤ b.pool) (start time s).book c.book :=
    runs_run hrun fun c env tx out hallow hpays => hallow hpays
  have hback : c.book.escrows.backing ≤ c.book.pool :=
    Reach.run_keeps (I := fun b : Book => b.escrows.backing ≤ b.pool)
      (fun _ _ => Book.backing_le_pool_write) hbook hstart
  refine ⟨hback, fun sponsor contract amt hpos hcontribution hescrow => ?_⟩
  have hpool : amt ≤ c.state.bank.spendable .gasPool :=
    hescrow.trans ((c.state.escrows.escrowOf_le_backing contract).trans hback)
  obtain ⟨b, hb⟩ := Option.isSome_iff_exists.mp (Bank.send_isSome.mpr hpool)
  exact ⟨(b, _), Escrows.withdraw_eq_ok.mpr ⟨hpos.ne', hcontribution, hescrow, hb, rfl⟩⟩

open Sample

/-- A transaction that the escrow pays, in a pool that has nothing of its own: what is left of the
deposit can be withdrawn. -/
theorem escrows_stay_backed_after_call :
    ∃ c, Runs OwnFunds (start 0 (Sample.state 0 (2 * 10 ^ 18))) c
      ∧ (c.state.escrows.escrowOf app = 600000
        ∧ 600000 ≤ c.state.escrows.contributionOf alice app)
      ∧ ∃ r, Escrows.withdraw c.state.bank c.state.escrows alice app 600000 = .ok r := by
  have hreach : ∃ c, Runs OwnFunds (start 0 (Sample.state 0 (2 * 10 ^ 18))) c
      ∧ c.state.escrows.escrowOf app = 600000
      ∧ 600000 ≤ c.state.escrows.contributionOf alice app :=
    exists_runs [deposit 1200000, transfer alice app 0 0]
      (by decide +kernel)
  obtain ⟨c, hrun, hescrow, hcontribution⟩ := hreach
  have hstart : (Sample.state 0 (2 * 10 ^ 18)).escrows.backing
      ≤ (Sample.state 0 (2 * 10 ^ 18)).poolBalance := by decide +kernel
  exact ⟨c, hrun, ⟨hescrow, hcontribution⟩, (escrows_stay_backed hstart hrun).2 _ _ _ (by decide)
    hcontribution hescrow.ge⟩

/-- **An escrow that is not backed.** With the refill off, a transfer that the daily budget of its
sender covers is paid with coins of an escrow, and the escrow cannot be withdrawn. -/
theorem escrow_spent_on_budget :
    (Sample.state 0 (2 * 10 ^ 18)).escrows.backing = 0
      ∧ ∃ c, Runs Any (start 0 (Sample.state 0 (2 * 10 ^ 18))) c
        ∧ c.state.poolBalance < c.state.escrows.backing
        ∧ c.state.escrows.contributionOf alice app = 600000
        ∧ c.state.escrows.escrowOf app = 600000
        ∧ (Escrows.withdraw c.state.bank c.state.escrows alice app
          600000).toOption.isNone = true := by
  refine ⟨by decide +kernel, ?_⟩
  exact exists_runs [deposit 600000, transfer alice bob 0 5]
    (by decide +kernel)

/-- **Escrow-funded gas mints nothing.** What x/gassponsor mints in a run is at most what the pool
lacked of its target at the start and what it paid on the paths other than the escrow. -/
theorem minted_le_pool_fees {target : Int} (htarget : s.params.minPoolBalance = some target)
    (hstart : s.escrows.backing = 0) (hrun : Runs Any (start time s) c) :
    (total Event.mintedAmt c.events : Int)
      ≤ max 0 (target - s.poolBalance) + total Event.poolFee c.events := by
  have hbook : Book.Run (fun _ _ => True) (start time s).book c.book :=
    runs_run hrun fun _ _ _ _ _ _ => trivial
  -- the bound needs the potential of the state before each mint
  have hkeeps : (c.book.params = s.params
      ∧ s.poolBalance + total Event.mintedAmt c.book.events + c.book.escrows.backing
        ≤ c.book.pool + total Event.poolFee c.book.events)
      ∧ (total Event.mintedAmt c.book.events : Int)
        ≤ max 0 (target - s.poolBalance) + total Event.poolFee c.book.events := by
    refine Reach.run_keeps (I := fun b : Book => (b.params = s.params
      ∧ s.poolBalance + total Event.mintedAmt b.events + b.escrows.backing
        ≤ b.pool + total Event.poolFee b.events)
      ∧ (total Event.mintedAmt b.events : Int)
        ≤ max 0 (target - s.poolBalance) + total Event.poolFee b.events) ?_ hbook ?_
    · rintro b b' hw ⟨⟨hparams, hpot⟩, hbound⟩
      exact ⟨⟨hw.params_eq.trans hparams, Book.minted_potential_write hw hpot⟩,
        Book.minted_bound_write hw (hparams ▸ htarget) hpot hbound⟩
    · refine ⟨⟨rfl, ?_⟩, ?_⟩
      · show s.poolBalance + 0 + s.escrows.backing ≤ s.poolBalance + 0
        omega
      · exact le_trans (le_max_left _ _) (Int.le_add_of_nonneg_right (Int.natCast_nonneg _))
  exact hkeeps.2

/-- A deposit, a transaction that the escrow pays, two that the daily budget covers, a withdrawal and
a refill. -/
theorem minted_le_pool_fees_refill :
    ∃ c, Runs Any (start 0 refilledState) c
      ∧ (0 < total Event.mintedAmt c.events ∧ total Event.poolFee c.events = 1200000)
      ∧ (total Event.mintedAmt c.events : Int)
        ≤ max 0 (1000000 - refilledState.poolBalance) + total Event.poolFee c.events := by
  have hreach : ∃ c, Runs Any (start 0 refilledState) c
      ∧ 0 < total Event.mintedAmt c.events ∧ total Event.poolFee c.events = 1200000 :=
    exists_runs [deposit 1200000, transfer alice app 0 0,
      transfer alice bob 1 5, transfer alice bob 2 5,
      .message (.withdraw alice app 600000), .beginBlock 10 0 true] (by decide +kernel)
  obtain ⟨c, hrun, hsums⟩ := hreach
  exact ⟨c, hrun, hsums, minted_le_pool_fees rfl (by decide +kernel) hrun⟩

end Chain

end GasSponsor
