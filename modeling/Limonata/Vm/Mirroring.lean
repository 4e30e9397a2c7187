import Limonata.Vm.Transact

/-!
# precompiles/common — balance handlers

A precompile with a balance handler replays the bank events of its actions on the state objects. In a
transaction with precompiles of this kind only, the replay never panics, leaves the database showing what
is spendable in the cached multistore, and a commit writes what the transfers and the bank operations
come to.

Two things break it. `SubBalance` of a vesting account that delegates locked coins finds less than it
subtracts, since the object holds what is spendable only. And a nested EVM call between two bank
operations ends in `FlushToCacheCtx`, which counts the events so far as processed although no object has
seen them, and writes the dirty objects over what the bank wrote.
-/

namespace Vm

/-- The databases at which EVM code starts to run: that of the transaction, and those of the EVM calls
nested in native actions, with nothing to revert to. -/
inductive Opens (blocked : Address → Bool) (policy : Policy) (ctx : World) (events : List Event) :
    StateDB Record → Prop where
  | begins : Opens blocked policy ctx events (begins ctx events)
  | nested {base s : StateDB Record} {handler : Bool} {db₀ : Db} {es₀ : List JournalEntry} {s₁ : Inner}
      (h : Opens blocked policy ctx events base) (hrun : Transacts blocked policy base s)
      (henters : policy.enters handler)
      (henter : s.state.enterPrecompile blocked s.journal = some (db₀, es₀, true))
      (hnative : NativeRun blocked policy handler (Nested (Executes blocked policy))
        ⟨db₀, es₀ ++ s.journal, s.record⟩ s₁)
      (hcalls : policy.calls handler s₁.db) :
      Opens blocked policy ctx events ⟨s₁.db, s₁.journal, s₁.record, [], 0⟩

namespace Db

variable {ctx w : World} {blocked : Address → Bool} {events : List Event} {base s : StateDB Record}
  {enters : Bool → Prop} {policy : Policy} {nested : ActRel} {handler : Bool}

/-! ## Records -/

section Record

variable {J : Record → Prop} (hmove : ∀ db g m, J g → J (Move.post db g m))
  (hbank : ∀ handler g op, policy.enters handler → J g → J (g.bank handler op))

include hmove hbank

omit hmove in
theorem nativeRun_record {s s' : Inner}
    (hnested : ∀ db journal g db' es g', J g → nested db journal g db' es g' → J g')
    (henters : policy.enters handler) (hrun : NativeRun blocked policy handler nested s s')
    (hs : J s.record) : J s'.record := by
  refine Reach.run_keeps (I := fun s : Inner => J s.record) ?_ hrun hs
  intro s s' hstep hs
  cases hstep with
  | bank op hpolicy hop hfits => exact hbank handler _ op henters hs
  | write store kind => exact hs
  | call hpolicy hrun hflush => exact hnested _ _ _ _ _ _ hs hrun

theorem act_record (hnested : ∀ db journal g db' es g', J g → nested db journal g db' es g' → J g') :
    ∀ db journal g db' es g', J g → Act blocked policy nested db journal g db' es g' → J g' := by
  intro db journal g db' es g' hg hact
  cases hact with
  | move m hissued hpolicy hrun => exact hmove db g m hg
  | native handler hpolicy henter hrun hleave hes =>
    exact nativeRun_record hbank hnested hpolicy hrun hg
  | failed handler hpolicy henter hrun hes hundo => exact hg

theorem executes_record : ∀ db journal g db' es g', J g →
    Executes blocked policy db journal g db' es g' → J g' := by
  have hall : ∀ depth db journal g db' es g', J g →
      actsTo blocked policy depth db journal g db' es g' → J g' := by
    intro depth
    induction depth with
    | zero => exact act_record hmove hbank fun _ _ _ _ _ _ _ hrun => hrun.elim
    | succ depth ih =>
      refine act_record hmove hbank ?_
      rintro db journal g db' es g' hg ⟨s, hrun, -, -, rfl⟩
      exact Journaled.runs_record ih hrun hg rfl
  rintro db journal g db' es g' hg ⟨depth, hact⟩
  exact hall depth db journal g db' es g' hg hact

theorem nested_record : ∀ db journal g db' es g', J g →
    Nested (Executes blocked policy) db journal g db' es g' → J g' := by
  rintro db journal g db' es g' hg ⟨s, hrun, -, -, rfl⟩
  exact Journaled.runs_record (executes_record hmove hbank) hrun hg rfl

end Record

/-- With balance handlers only, no account is left behind. -/
def handled (blocked : Address → Bool) : Policy := exactPolicy blocked fun handler => handler = true

theorem post_unmirrored {db : Db} {g : Record} {m : Move} : (m.post db g).unmirrored = g.unmirrored := by
  cases m with
  | selfDestruct this beneficiary =>
    simp only [Move.post]
    split_ifs <;> rfl
  | _ => rfl

theorem bank_unmirrored (handler : Bool) (g : Record) (op : BankOp)
    (henters : (handled blocked).enters handler) (h : g.unmirrored = ∅) :
    (g.bank handler op).unmirrored = ∅ := by
  obtain rfl : handler = true := henters
  exact h

theorem unmirrored_of_transacts (hrun : Transacts blocked (handled blocked) base s)
    (hbase : base.record.unmirrored = ∅) (hrevisions : base.validRevisions = []) :
    s.record.unmirrored = ∅ :=
  Journaled.runs_record (J := fun g => g.unmirrored = ∅)
    (executes_record (fun _ _ _ h => post_unmirrored.trans h) bank_unmirrored) hrun hbase hrevisions

theorem unmirrored_of_nativeRun {s s' : Inner} (henters : (handled blocked).enters handler)
    (hrun : NativeRun blocked (handled blocked) handler (Nested (Executes blocked (handled blocked))) s s')
    (hs : s.record.unmirrored = ∅) : s'.record.unmirrored = ∅ :=
  nativeRun_record (J := fun g => g.unmirrored = ∅) bank_unmirrored
    (nested_record (fun _ _ _ h => post_unmirrored.trans h) bank_unmirrored) henters hrun hs

/-! ## Where EVM code runs -/

theorem synced_of_opens (hfits : Ledger.Fits ctx.balance)
    (h : Opens blocked (handled blocked) ctx events base) :
    Synced ctx blocked base.state base.journal base.record ∧ base.record.unmirrored = ∅
      ∧ base.validRevisions = [] := by
  induction h with
  | begins => exact ⟨synced_begins hfits, rfl, rfl⟩
  | @nested base s handler db₀ es₀ s₁ h hrun henters henter hnative hcalls ih =>
    obtain ⟨hsynced, hmirrored, hrevisions⟩ := ih
    have hsynced' := executes_spec.discipline.invariant hrevisions hsynced hrun
    have hmirrored' : s.record.unmirrored = ∅ := unmirrored_of_transacts hrun hmirrored hrevisions
    obtain ⟨⟨ledger, hacting⟩, -⟩ := nativeRun_spec (nested_spec executes_spec)
      (hsynced'.enter handler henter) hnative
    refine ⟨hacting.synced hcalls, ?_, rfl⟩
    exact unmirrored_of_nativeRun henters hnative hmirrored'

/-- **Balance handlers are exact.** Wherever EVM code of a transaction with balance handlers only is, with
moves and bank operations that are exact and nested calls made only while no bank event waits: an action
that succeeds can be replayed, the database then shows of every address that is not blocked what is
spendable in the cached multistore, and a commit writes the ledger. -/
theorem mirroring_exact (hfits : Ledger.Fits ctx.balance)
    (hauth : ∀ addr, ctx.auth addr = none → ctx.balance addr = 0)
    (hopens : Opens blocked (handled blocked) ctx events base)
    (hrun : Transacts blocked (handled blocked) base s) :
    (∀ db₀ es₀ s₁, s.state.enterPrecompile blocked s.journal = some (db₀, es₀, true) →
      NativeRun blocked (handled blocked) true (Nested (Executes blocked (handled blocked)))
        ⟨db₀, es₀ ++ s.journal, s.record⟩ s₁ →
      ∃ db' fs, s₁.db.afterBalanceChange blocked db₀.events.length = some (db', fs)
        ∧ ∀ addr, blocked addr = false →
          db'.getBalance addr = db'.cache.current.spendableCoin addr)
    ∧ ∀ w, s.state.commit blocked s.journal = some (w, true) →
      ∀ addr, w.balance addr = s.record.ledger addr := by
  obtain ⟨hbase, hmirrored, hrevisions⟩ := synced_of_opens hfits hopens
  have hsynced := executes_spec.discipline.invariant hrevisions hbase hrun
  have hmirrored' : s.record.unmirrored = ∅ := unmirrored_of_transacts hrun hmirrored hrevisions
  refine ⟨fun db₀ es₀ s₁ henter hnative => ?_, fun w hcommit => hsynced.commit hcommit⟩
  obtain ⟨⟨ledger, hacting⟩, -⟩ :=
    nativeRun_spec (nested_spec executes_spec) (hsynced.enter true henter) hnative
  have hmirrored₁ : s₁.record.unmirrored = ∅ := unmirrored_of_nativeRun rfl hnative hmirrored'
  obtain ⟨db', fs, hleave, hsynced', -, hbalance⟩ := hacting.leave
  refine ⟨db', fs, hleave, fun addr hb => ?_⟩
  refine hsynced'.viewed.getBalance_eq hsynced'.sound hsynced'.cached hbalance (hauth addr) hb ?_
  rw [hmirrored₁]
  exact Finset.notMem_empty addr

/-- A native action sends 5 coins of address 1 to address 2. -/
def sends (s : Inner) (locked : Nat) : Inner :=
  banked (banked s true (.spend 1 5 locked)) true (.receive 2 5 0)

theorem fits_holder (locked : Nat) : Ledger.Fits (World.holder 1 10 locked).balance := by
  unfold Ledger.Fits
  rw [sum_holder]
  norm_num

theorem nativeRun_sends {s : Inner} {locked locked' : Nat}
    (hbalance : s.db.cache.current.balance = (World.holder 1 10 locked).balance)
    (hspend : policy.bank true s.db s.journal s.record (.spend 1 5 locked'))
    (hreceive : policy.bank true (banked s true (.spend 1 5 locked')).db
      (banked s true (.spend 1 5 locked')).journal (banked s true (.spend 1 5 locked')).record
      (.receive 2 5 0)) :
    NativeRun blocked policy true nested s (sends s locked') := by
  have hcovered : (BankOp.spend 1 5 locked').event.Covered s.db.cache.current.balance := by
    rw [hbalance]
    show 5 ≤ 10
    norm_num
  have hspent : (banked s true (.spend 1 5 locked')).db.cache.current.balance
      = Ledger.debit (World.holder 1 10 locked).balance 1 5 := by
    unfold banked BankOp.apply
    rw [← hbalance, if_pos hcovered]
    exact congrArg World.balance (CacheStack.current_modify ..)
  refine nativeRun_banked _ (nativeRun_banked _ .refl hspend hcovered ?_) hreceive ?_ ?_
  · rw [hbalance]
    exact (fits_holder locked).debit
  · rw [hspent]
    show 0 + 5 < 2 ^ 256
    norm_num
  · rw [hspent]
    exact (fits_holder locked).move (show 5 ≤ 10 by norm_num)

theorem mirroring_exact_sends :
    ∃ db' fs, (sends (entered (fun _ => false) (begins (.holder 1 10 0) [])) 0).db.afterBalanceChange
        (fun _ => false) 0 = some (db', fs)
      ∧ db'.getBalance 1 = db'.cache.current.spendableCoin 1 := by
  have hauth : ∀ addr, (World.holder 1 10 0).auth addr = none →
      (World.holder 1 10 0).balance addr = 0 := by
    intro addr hnone
    by_cases heq : addr = 1
    · simp [World.holder, heq] at hnone
    · simp [World.holder, heq]
  have hmirrored : ∀ addr : Address, addr = 1 ∨ addr = 2 →
      Mirrored (.holder 1 10 0) (fun _ => false) ∅ addr := by
    rintro addr (rfl | rfl) <;> exact ⟨rfl, by simp, ⟨by decide, by decide⟩⟩
  have hrun : NativeRun (fun _ => false) (handled fun _ => false) true
      (Nested (Executes (fun _ => false) (handled fun _ => false)))
      (entered (fun _ => false) (begins (.holder 1 10 0) []))
      (sends (entered (fun _ => false) (begins (.holder 1 10 0) [])) 0) := by
    refine nativeRun_sends rfl ⟨fun addr haddr _ => ?_, fun _ => ⟨rfl, ?_⟩⟩
      ⟨fun addr haddr _ => ?_, fun _ => ⟨rfl, by simp⟩⟩
    · cases haddr
      exact ⟨hmirrored 1 (.inl rfl), rfl⟩
    · rintro addr amount locked heq
      cases heq
      show 5 ≤ 10 - 0
      norm_num
    · cases haddr
      exact ⟨hmirrored 2 (.inr rfl), rfl⟩
  obtain ⟨db', fs, hafter, hshown⟩ :=
    (mirroring_exact (fits_holder 0) hauth .begins .refl).1 _ _ _ rfl hrun
  exact ⟨db', fs, hafter, hshown 1 rfl⟩

/-- No restrictions, but that every precompile has a balance handler. -/
def anyHandled : Policy where
  move _ _ _ := True
  enters handler := handler = true
  bank _ _ _ _ _ := True
  calls _ _ := True

/-- Address 1 has sent a transaction: its nonce was set. -/
def sent : StateDB Record := moved (begins (.holder 1 10 0) []) (.op (.setNonce 1 1))

/-- **What balance handlers miss.** The replay of a delegation of 5 coins by an account that has all its 10
coins locked panics. And if an action sends 5 coins of the sender of the transaction and then runs a
nested EVM call, the call's flush writes the coins back and the replay passes over the events: the sender
has 10 coins after the commit, and the 5 that were sent are there too. -/
theorem mirroring_fails :
    (∃ s₁, NativeRun (fun _ => false) anyHandled true (Nested (Executes (fun _ => false) anyHandled))
        (entered (fun _ => false) (begins (.holder 1 10 10) [])) s₁
      ∧ s₁.db.afterBalanceChange (fun _ => false) 0 = none)
    ∧ ∃ s w, Transacts (fun _ => false) anyHandled (begins (.holder 1 10 0) []) s
      ∧ s.state.commit (fun _ => false) s.journal = some (w, true)
      ∧ s.record.ledger 1 = 5 ∧ w.balance 1 = 10 ∧ w.balance 2 = 5 := by
  refine ⟨⟨sends (entered (fun _ => false) (begins (.holder 1 10 10) [])) 5,
    nativeRun_sends rfl trivial trivial, rfl⟩,
    left (fun _ => false) true sent (flushed (fun _ => false) (sends (entered (fun _ => false) sent) 0)), _,
    ?_, rfl, rfl, rfl, rfl⟩
  have hsent : Transacts (fun _ => false) anyHandled (begins (.holder 1 10 0) []) sent :=
    transacts_moved _ .refl ⟨rfl, nofun, nofun⟩ trivial rfl
  have hbalance : (entered (fun _ => false) sent).db.cache.current.balance
      = (World.holder 1 10 0).balance := by
    -- the flush wrote the account of the sender as it was
    show Function.update (World.holder 1 10 0).balance 1 10 = _
    exact Function.update_eq_self_iff.mpr rfl
  exact transacts_left 0 [sent.state.callEntry] hsent rfl rfl
    (nativeRun_flushed (nativeRun_sends hbalance trivial trivial) trivial rfl) rfl rfl rfl

end Db

end Vm
