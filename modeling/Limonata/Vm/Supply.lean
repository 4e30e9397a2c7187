import Limonata.Vm.Transact

/-!
# x/vm — the EVM and the supply

An EVM execution without precompile calls moves coins and makes none: what a commit leaves sums up to
what was there, and only accounts that were paid have more.

This is so for accounts that survive being loaded and written back. `SpendableCoin` is zero for an
account with more locked than it has, and the locked part is added again when it is written: the account
then has all that is locked. And a contract that destroys itself in favour of itself takes its coins
along, without the supply being told.
-/

namespace Vm

open Journaled (Undoes)

namespace World

variable {w : World} {addr : Address} {blocked : Address → Bool} {account : Account}

/-- An account that is written back as it was loaded keeps its coins if and only if what is locked of it
is there. -/
theorem setAccount_getAccount_iff (hget : w.getAccount addr = some account) :
    (w.setAccount addr blocked account).1.balance = w.balance
      ↔ w.lockedCoins addr ≤ w.balance addr := by
  obtain ⟨acct, -, rfl⟩ := Option.map_eq_some_iff.mp hget
  rw [setAccount_eq, if_neg fun h => lt_irrefl _ h.1]
  show Function.update w.balance addr (w.spendableCoin addr + w.lockedCoins addr) = w.balance ↔ _
  rw [Function.update_eq_self_iff, spendableCoin]
  omega

end World

/-! ## Payments -/

/-- No act but moves: the restrictions of EVM executions without precompile calls. -/
def noCalls (move : Db → Record → Move → Prop) : Policy where
  move := move
  enters _ := False
  bank _ _ _ _ _ := False
  calls _ _ := False

/-- The ledger of a record has what a ledger has, moved to accounts that were paid. -/
structure Record.Moved (before : Ledger) (g : Record) : Prop where
  sum : ∑ addr, g.ledger addr = ∑ addr, before addr
  unpaid : ∀ addr, addr ∉ g.paid → g.ledger addr ≤ before addr

namespace Db

variable {ctx w : World} {blocked : Address → Bool} {db db' : Db} {journal es : List JournalEntry}
  {g g' : Record} {addr sender recipient : Address} {amount : Nat}

theorem pay_unpaid (h : addr ∉ (g.pay sender recipient amount).paid) :
    addr ∉ g.paid ∧ (g.pay sender recipient amount).ledger addr ≤ g.ledger addr := by
  by_cases hzero : amount = 0
  · subst hzero
    refine ⟨h, ?_⟩
    show (g.ledger.debit sender 0).credit recipient 0 addr ≤ _
    rw [Ledger.credit_zero, Ledger.debit_zero]
  · replace h : addr ∉ insert recipient g.paid := by simpa [Record.pay, hzero] using h
    obtain ⟨hne, hunpaid⟩ := not_or.mp (mt Finset.mem_insert.mpr h)
    refine ⟨hunpaid, ?_⟩
    show (g.ledger.debit sender amount).credit recipient amount addr ≤ _
    rw [Ledger.credit_of_ne hne]
    rcases eq_or_ne addr sender with rfl | hne'
    · rw [Ledger.debit_self]
      exact Nat.sub_le _ _
    · rw [Ledger.debit_of_ne hne']

theorem post_unpaid {m : Move} (h : addr ∉ (m.post db g).paid) :
    addr ∉ g.paid ∧ (m.post db g).ledger addr ≤ g.ledger addr := by
  cases m with
  | op o => exact ⟨h, le_rfl⟩
  | transfer sender recipient amount => exact pay_unpaid h
  | selfDestruct this beneficiary =>
    simp only [Move.post] at h ⊢
    split_ifs at h ⊢
    · exact ⟨h, le_rfl⟩
    · exact pay_unpaid h

theorem executes_noCalls {move : Db → Record → Move → Prop}
    (h : Executes blocked (noCalls move) db journal g db' es g') :
    ∃ m : Move, m.Issued db ∧ move db g m ∧ m.run db = some (db', es) ∧ g' = m.post db g := by
  obtain ⟨depth, hact⟩ := h
  cases depth <;>
    cases hact with
    | move m hissued hpolicy hrun => exact ⟨m, hissued, hpolicy, hrun, rfl⟩
    | native handler hpolicy => exact hpolicy.elim
    | failed handler hpolicy => exact hpolicy.elim

/-- Moves that the ledger follows; which addresses a commit refuses to pay does not matter. -/
def exactMoves : Policy := noCalls fun db g m => m.Exact (fun _ => false) db g

theorem inStep_exactMoves : InStep ctx (fun _ => false) (Executes blocked exactMoves) := by
  intro db journal g db' es g' h hact
  obtain ⟨m, hissued, hexact, hrun, rfl⟩ := executes_noCalls hact
  exact h.move_spec hissued hexact hrun

/-- Executions without calls leave the cached multistore alone and move coins to accounts that they
pay. -/
theorem exactMoves_discipline : Journaled.Discipline (AsGood True) undo
    (fun db journal g => Synced ctx (fun _ => false) db journal g
      ∧ db.cache.current = ctx ∧ g.Moved ctx.balance)
    (Executes blocked exactMoves) := by
  refine inStep_exactMoves.discipline.and (fun db t journal g hgood h => ?_) ?_
  · exact ⟨hgood.cache ▸ h.1, h.2⟩
  · rintro db journal g db' es g' h ⟨hctx, hmoved⟩ hact
    obtain ⟨m, hissued, hexact, hrun, rfl⟩ := executes_noCalls hact
    have hspec := move_spec h.viewed h.sound h.fits hissued hexact hrun
    obtain ⟨-, hcache, -, -⟩ := hspec.changes.contexts
    refine ⟨hcache ▸ hctx, hspec.sum.trans hmoved.sum, fun addr hunpaid => ?_⟩
    obtain ⟨hbefore, hle⟩ := post_unpaid hunpaid
    exact hle.trans (hmoved.unpaid addr hbefore)

/-- **The EVM preserves the supply.** In every run of an EVM execution without precompile calls whose
moves are all exact, over a context whose supply is the sum of all balances, a commit leaves the supply
equal to the sum of all balances, and no account that was not paid with more than it had. An account that
is written back as it was loaded keeps its coins if and only if what is locked of it is there. -/
theorem commit_preserves_supply {events : List Event} {s : StateDB Record}
    (hsupply : ctx.supply = ∑ addr, ctx.balance addr) (hrange : ctx.supply < 2 ^ 256)
    (hrun : Transacts blocked exactMoves (begins ctx events) s)
    (hcommit : s.state.commit blocked s.journal = some (w, true)) :
    w.supply = ∑ addr, w.balance addr
      ∧ (∀ addr, addr ∉ s.record.paid → w.balance addr ≤ ctx.balance addr)
      ∧ ∀ addr account, ctx.getAccount addr = some account →
        ((ctx.setAccount addr blocked account).1.balance = ctx.balance
          ↔ ctx.lockedCoins addr ≤ ctx.balance addr) := by
  have hfits : Ledger.Fits ctx.balance := by
    unfold Ledger.Fits
    rwa [← hsupply]
  obtain ⟨hsynced, hctx, hmoved⟩ := exactMoves_discipline.invariant rfl
    ⟨synced_begins hfits, rfl, rfl, fun _ _ => le_rfl⟩ hrun
  have hbalance : w.balance = s.record.ledger := funext (hsynced.commit hcommit)
  refine ⟨?_, fun addr hunpaid => ?_, fun addr account => World.setAccount_getAccount_iff⟩
  · rw [commitWithCtx_supply hcommit, hctx, hsupply, hbalance, hmoved.sum]
  · rw [hbalance]
    exact hmoved.unpaid addr hunpaid

/-- Address 1 sends its 5 coins to address 2. -/
theorem commit_preserves_supply_sent :
    ∃ w, (moved (begins (.holder 1 5 0) []) (.transfer 1 2 5)).state.commit (fun _ => false)
        (moved (begins (.holder 1 5 0) []) (.transfer 1 2 5)).journal = some (w, true)
      ∧ w.supply = ∑ addr, w.balance addr := by
  have hmirrored : ∀ addr : Address, addr = 1 ∨ addr = 2 →
      Mirrored (.holder 1 5 0) (fun _ => false) ∅ addr := by
    rintro addr (rfl | rfl) <;> exact ⟨rfl, by simp, ⟨by decide, by decide⟩⟩
  have hrun : Transacts (fun _ => false) exactMoves (begins (.holder 1 5 0) [])
      (moved (begins (.holder 1 5 0) []) (.transfer 1 2 5)) :=
    transacts_moved _ .refl trivial ⟨hmirrored 1 (.inl rfl), hmirrored 2 (.inr rfl), .inr rfl⟩ rfl
  exact ⟨_, rfl, (commit_preserves_supply (sum_holder 1 5 0).symm (by decide) hrun rfl).1⟩

/-- Address 1 creates a contract at address 2 with its 5 coins. -/
def endowed : StateDB Record :=
  moved (moved (moved (begins (.holder 1 5 0) []) (.op (.createAccount 2))) (.op (.createContract 2)))
    (.transfer 1 2 5)

/-- **What breaks the supply.** A contract that destroys itself in favour of itself burns its coins, and
the supply still counts them; an account with 7 of its 5 coins locked has 7 after it was written back as
it was loaded. -/
theorem commit_breaks_supply :
    (∃ s w, Transacts (fun _ => false) (noCalls fun _ _ _ => True) (begins (.holder 1 5 0) []) s
      ∧ (World.holder 1 5 0).supply = ∑ addr, (World.holder 1 5 0).balance addr
      ∧ s.state.commit (fun _ => false) s.journal = some (w, true)
      ∧ w.supply = 5 ∧ ∑ addr, w.balance addr = 0)
    ∧ ∃ account, (World.holder 1 5 7).getAccount 1 = some account
      ∧ ((World.holder 1 5 7).setAccount 1 (fun _ => false) account).1.balance 1 = 7 := by
  refine ⟨⟨moved endowed (.selfDestruct 2 2), _, ?_, (sum_holder 1 5 0).symm, rfl, rfl, ?_⟩, _, rfl, by decide⟩
  · refine transacts_moved _ (transacts_moved _ (transacts_moved _ (transacts_moved _ .refl ⟨rfl, nofun, ?_⟩
      trivial rfl) ⟨rfl, nofun, nofun⟩ trivial rfl) trivial trivial rfl) trivial trivial rfl
    rintro addr heq
    cases heq
    rfl
  · have hsum := Ledger.sum_update (World.holder 1 5 0).balance 1 0
    rw [sum_holder, show (World.holder 1 5 0).balance 1 = 5 from rfl] at hsum
    show ∑ addr, Function.update (World.holder 1 5 0).balance 1 0 addr = 0
    omega

end Db

end Vm
