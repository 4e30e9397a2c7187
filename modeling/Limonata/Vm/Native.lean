import Limonata.Vm.Sync

/-!
# precompiles/common — native actions against the ledger

While a native action runs, the cached multistore has what the ledger says of every account, and the
state objects are behind by the bank events that were not replayed yet (`Db.Acting`). The replay brings
them up to date (`Db.Viewed.afterBalanceChange`): it subtracts from an object what the bank subtracted
from the account, so it never finds too little, if the bank took only what was spendable.
-/

namespace Vm

open Journaled (Undoes)

/-! ## Events that can be replayed -/

/-- The account that a bank event names. -/
def Event.addr : Event → Option Address
  | coinSpent spender _ => some spender
  | coinReceived receiver _ => some receiver
  | other _ => none

/-- The coins of an event are there; what is spent of an account that is not blocked is not locked. -/
def Event.Spendable (blocked : Address → Bool) (ctx : World) (ledger : Ledger) : Event → Prop
  | coinSpent spender amount =>
    blocked spender = false → amount = 0 ∨ amount + ctx.lockedCoins spender ≤ ledger spender
  | coinReceived receiver amount => ledger receiver + amount < 2 ^ 256
  | other _ => True

/-- Bank events, each with its coins, lead from a ledger to another. -/
def Replays (blocked : Address → Bool) (ctx : World) : List Event → Ledger → Ledger → Prop
  | [], base, ledger => ledger = base
  | event :: rest, base, ledger =>
    event.Spendable blocked ctx base ∧ Replays blocked ctx rest (event.settle base) ledger

section Replays

variable {blocked : Address → Bool} {ctx : World} {events : List Event} {base ledger : Ledger}

theorem Replays.snoc {event : Event} (h : Replays blocked ctx events base ledger)
    (hspendable : event.Spendable blocked ctx ledger) :
    Replays blocked ctx (events ++ [event]) base (event.settle ledger) := by
  induction events generalizing base with
  | nil =>
    obtain rfl : ledger = base := h
    exact ⟨hspendable, rfl⟩
  | cons first rest ih => exact ⟨h.1, ih h.2⟩

/-- Events of other modules change nothing. -/
theorem Replays.eq_of_other (h : Replays blocked ctx events base ledger)
    (hother : ∀ event ∈ events, event.addr = none) : ledger = base := by
  induction events generalizing base with
  | nil => exact h
  | cons first rest ih =>
    obtain ⟨hfirst, hrest⟩ := List.forall_mem_cons.mp hother
    cases first with
    | other kind => exact ih h.2 hrest
    | coinSpent spender amount => cases hfirst
    | coinReceived receiver amount => cases hfirst

end Replays

/-- A bank event names a blocked account, or one that the database can hold and that is not destroyed. -/
def Event.Payable (blocked : Address → Bool) (db : Db) (unmirrored : Finset Address) (event : Event) :
    Prop :=
  ∀ addr, event.addr = some addr → blocked addr = false →
    Mirrored db.ctx blocked unmirrored addr ∧ db.hasSelfDestructed addr = false

/-- The operation takes only what is spendable and leaves what is locked as it is. -/
def BankOp.Unlocked (w : World) (op : BankOp) : Prop :=
  op.locked = w.lockedCoins op.addr
    ∧ ∀ addr amount locked, op = .spend addr amount locked → amount ≤ w.spendableCoin addr

/-- A bank operation that the ledger follows. With a balance handler, its event can be replayed and takes
nothing that is locked, unless the account is blocked; without, the account is not dirty. -/
def BankOp.Exact (blocked : Address → Bool) (handler : Bool) (db : Db) (journal : List JournalEntry)
    (g : Record) (op : BankOp) : Prop :=
  if handler then
    op.event.Payable blocked db g.unmirrored
      ∧ (blocked op.addr = false → op.Unlocked db.cache.current)
  else ¬ Dirty journal op.addr

/-- The restrictions under which the ledger is followed: exact moves and bank operations, and nested EVM
calls in actions with a balance handler only while no bank event of the action waits for its replay. -/
def exactPolicy (blocked : Address → Bool) (enters : Bool → Prop) : Policy where
  move db g m := m.Exact blocked db g
  enters := enters
  bank handler db journal g op := op.Exact blocked handler db journal g
  calls handler db :=
    handler = true → ∀ event ∈ db.events.drop db.processedEventsCount, event.addr = none

namespace Db

variable {ctx w w' : World} {blocked : Address → Bool} {unmirrored : Finset Address}
  {base base' ledger : Ledger} {db db' t : Db} {journal es : List JournalEntry} {addr : Address}
  {obj : StateObject} {g g' : Record} {event : Event} {events : List Event} {handler : Bool}
  {enters : Bool → Prop} {nested : ActRel} {prevEventsLen depth : Nat} {s s' : Inner}

/-! ## The replay -/

theorem settle_of_ne (h : event.addr ≠ some addr) : event.settle ledger addr = ledger addr := by
  cases event with
  | coinSpent spender amount => exact Ledger.debit_of_ne fun heq => h (congrArg some heq.symm)
  | coinReceived receiver amount => exact Ledger.credit_of_ne fun heq => h (congrArg some heq.symm)
  | other kind => rfl

theorem Viewed.mirror (h : Viewed ctx blocked unmirrored base db journal) (hsound : db.Sound journal)
    (hpayable : event.Payable blocked db unmirrored)
    (hspendable : event.Spendable blocked ctx base) :
    ∃ db' es, db.mirror blocked event = some (db', es)
      ∧ Pays ctx blocked unmirrored (event.settle base) db journal db' es := by
  obtain rfl := h.ctx_eq
  -- a blocked account is passed over, and its coins are not looked at
  have hpassed : (∀ addr, event.addr = some addr → blocked addr = true) →
      Pays db.ctx blocked unmirrored (event.settle base) db journal db [] := by
    intro hblocked
    refine ⟨.nil, h.congr fun addr hb _ => settle_of_ne fun heq => ?_, fun _ => rfl⟩
    rw [hblocked addr heq] at hb
    cases hb
  cases event with
  | other kind => exact ⟨db, [], rfl, hpassed nofun⟩
  | coinSpent spender amount =>
    cases hb : blocked spender with
    | true =>
      refine ⟨db, [], by simp [Db.mirror, hb], hpassed fun addr haddr => ?_⟩
      cases haddr
      exact hb
    | false =>
      obtain ⟨hm, -⟩ := hpayable spender rfl hb
      obtain ⟨db', es, hsub, hpays⟩ := h.subBalance hsound hm (hspendable hb)
      exact ⟨db', es, by simpa [Db.mirror, hb] using hsub, hpays⟩
  | coinReceived receiver amount =>
    cases hb : blocked receiver with
    | true =>
      refine ⟨db, [], by simp [Db.mirror, hb], hpassed fun addr haddr => ?_⟩
      cases haddr
      exact hb
    | false =>
      obtain ⟨hm, hlive⟩ := hpayable receiver rfl hb
      obtain ⟨db', es, hadd, hpays⟩ := h.addBalance hsound hm hspendable (.inr hlive)
      exact ⟨db', es, by simpa [Db.mirror, hb] using hadd, hpays⟩

theorem Viewed.mirrorFrom {eventIdx : Nat} (h : Viewed ctx blocked unmirrored base db journal)
    (hsound : db.Sound journal) (hidx : db.processedEventsCount ≤ eventIdx)
    (hreplays : Replays blocked ctx events base ledger)
    (hpayable : ∀ event ∈ events, event.Payable blocked db unmirrored) :
    ∃ db' es, mirrorFrom blocked eventIdx events db = some (db', es)
      ∧ Pays ctx blocked unmirrored ledger db journal db' es := by
  induction events generalizing db base journal eventIdx with
  | nil =>
    obtain rfl : ledger = base := hreplays
    exact ⟨db, [], rfl, .nil, h, fun _ => rfl⟩
  | cons event rest ih =>
    obtain ⟨hspendable, hreplays⟩ := hreplays
    obtain ⟨hfirst, hrest⟩ := List.forall_mem_cons.mp hpayable
    obtain ⟨db₁, fs, hmirror, hpays⟩ := h.mirror hsound hfirst hspendable
    obtain ⟨hctx, -, -, hprocessed⟩ := hpays.changes.contexts
    have hpayable₁ : ∀ event ∈ rest, event.Payable blocked db₁ unmirrored := by
      intro event hevent addr haddr hb
      rw [hctx, hpays.destroyed]
      exact hrest event hevent addr haddr hb
    have hidx₁ : db₁.processedEventsCount ≤ eventIdx + 1 := by omega
    obtain ⟨db₂, gs, hfrom, hpays'⟩ := ih hpays.viewed (hpays.changes.sound hsound).1 hidx₁ hreplays
      hpayable₁
    refine ⟨db₂, gs ++ fs, ?_, hpays.changes.append hpays'.changes, ?_,
      fun addr => (hpays'.destroyed addr).trans (hpays.destroyed addr)⟩
    · simp only [Db.mirrorFrom, if_neg (Nat.not_lt.mpr hidx), hmirror, Option.bind_some, hfrom,
        Option.map_some]
    · rw [List.append_assoc]
      exact hpays'.viewed

theorem mirrorFrom_append {eventIdx : Nat} {processed rest : List Event}
    (h : eventIdx + processed.length ≤ db.processedEventsCount) :
    mirrorFrom blocked eventIdx (processed ++ rest) db
      = mirrorFrom blocked (eventIdx + processed.length) rest db := by
  induction processed generalizing eventIdx with
  | nil => rfl
  | cons event processed ih =>
    rw [List.length_cons] at h ⊢
    rw [List.cons_append, mirrorFrom, if_pos (by omega), ih (by omega)]
    congr 1
    omega

/-- **AfterBalanceChange** replays what was not processed. -/
theorem Viewed.afterBalanceChange (h : Viewed ctx blocked unmirrored base db journal)
    (hsound : db.Sound journal) (hprev : prevEventsLen ≤ db.processedEventsCount)
    (hprocessed : db.processedEventsCount ≤ db.events.length)
    (hreplays : Replays blocked ctx (db.events.drop db.processedEventsCount) base ledger)
    (hpayable : ∀ event ∈ db.events.drop db.processedEventsCount,
      event.Payable blocked db unmirrored) :
    ∃ db' es, db.afterBalanceChange blocked prevEventsLen = some (db', es)
      ∧ Pays ctx blocked unmirrored ledger db journal db' es := by
  have hsplit : db.events.drop prevEventsLen
      = (db.events.drop prevEventsLen).take (db.processedEventsCount - prevEventsLen)
        ++ db.events.drop db.processedEventsCount := by
    have hdrop := List.take_append_drop (db.processedEventsCount - prevEventsLen)
      (db.events.drop prevEventsLen)
    rw [List.drop_drop, Nat.add_sub_cancel' hprev] at hdrop
    exact hdrop.symm
  have hlen : ((db.events.drop prevEventsLen).take (db.processedEventsCount - prevEventsLen)).length
      = db.processedEventsCount - prevEventsLen := by
    rw [List.length_take, List.length_drop]
    omega
  unfold Db.afterBalanceChange
  rw [hsplit, mirrorFrom_append (by omega)]
  exact h.mirrorFrom hsound (by omega) hreplays hpayable

/-- Where the cached multistore has what the objects show, the balance of an account is what is
spendable there. -/
theorem Viewed.getBalance_eq (h : Viewed ctx blocked unmirrored ledger db journal)
    (hsound : db.Sound journal) (hcached : Cached ctx blocked unmirrored w)
    (hbalance : ∀ addr, w.balance addr = ledger addr)
    (hauth : ctx.auth addr = none → ctx.balance addr = 0) (hb : blocked addr = false)
    (hu : addr ∉ unmirrored) : db.getBalance addr = w.spendableCoin addr := by
  rw [World.spendableCoin, hbalance, hcached.locked addr hb hu]
  by_cases hdirty : Dirty journal addr
  · have hcoins := h.getBalance hsound (h.mirrored addr hdirty)
    omega
  · rw [← h.untouched addr hdirty hb hu]
    cases hget : db.getStateObject addr with
    | none =>
      have hnone := Option.map_eq_none_iff.mp (h.ctx_eq ▸ (getStateObject_eq_none.mp hget).2)
      rw [Db.getBalance, hget, hauth hnone, Nat.zero_sub]
      rfl
    | some obj =>
      obtain ⟨haccount, -⟩ := h.clean addr obj hget hdirty
      obtain ⟨acct, -, heq⟩ := Option.map_eq_some_iff.mp haccount
      rw [Db.getBalance_eq hget, ← heq]
      rfl

/-! ## An action on its way -/

/-- **While an action runs**, the cached multistore agrees with the ledger, and the objects with the
ledger before the events that wait for their replay. -/
structure Acting (ctx : World) (blocked : Address → Bool) (handler : Bool) (prevEventsLen depth : Nat)
    (base : Ledger) (s : Inner) : Prop where
  sound : s.db.Sound s.journal
  viewed : Viewed ctx blocked s.record.unmirrored base s.db s.journal
  cached : Cached ctx blocked s.record.unmirrored s.db.cache.current
  balance : ∀ addr, s.db.cache.current.balance addr = s.record.ledger addr
  fits : s.record.ledger.Fits
  prev : prevEventsLen ≤ s.db.processedEventsCount
  processed : s.db.processedEventsCount ≤ s.db.events.length
  depth : depth < s.db.cache.layers.length
  /-- With a balance handler, the objects are behind by the events that wait. -/
  behind : handler = true →
    Replays blocked ctx (s.db.events.drop s.db.processedEventsCount) base s.record.ledger
    ∧ ∀ event ∈ s.db.events.drop s.db.processedEventsCount,
      event.Payable blocked s.db s.record.unmirrored
  /-- Without, they are up to date where they can be. -/
  upToDate : handler = false → ∀ addr, blocked addr = false → addr ∉ s.record.unmirrored →
    base addr = s.record.ledger addr

theorem Synced.acting (h : Synced ctx blocked db journal g)
    (hcommit : commitWithCtx blocked db.stateObjects (sortedDirties journal) db.cache.current
      = some (w, true))
    (hctx : db'.ctx = db.ctx) (hobjects : db'.stateObjects = db.stateObjects)
    (haccess : db'.accessList = db.accessList) (hcache : db'.cache.current = w)
    (hprocessed : db'.processedEventsCount = db'.events.length)
    (hprev : prevEventsLen ≤ db'.events.length) (hdepth : depth < db'.cache.layers.length) :
    Acting ctx blocked handler prevEventsLen depth g.ledger ⟨db', journal, g⟩ := by
  obtain ⟨hbalance, hcached⟩ := h.flush hcommit
  have hnothing : db'.events.drop db'.processedEventsCount = [] := by
    rw [hprocessed, List.drop_length]
  refine ⟨h.sound.congr hctx hobjects haccess, h.viewed.recontext hctx hobjects, hcache ▸ hcached,
    hcache ▸ hbalance, h.fits, hprocessed ▸ hprev, hprocessed.le, hdepth, fun _ => ?_,
    fun _ _ _ _ => rfl⟩
  show Replays blocked ctx (db'.events.drop db'.processedEventsCount) g.ledger g.ledger
    ∧ ∀ event ∈ db'.events.drop db'.processedEventsCount, _
  rw [hnothing]
  exact ⟨rfl, fun event h => absurd h List.not_mem_nil⟩

/-- What an action leaves before a nested call: nothing waits, so EVM code finds all in step. -/
theorem Acting.synced (h : Acting ctx blocked handler prevEventsLen depth base s)
    (hcalls : handler = true →
      ∀ event ∈ s.db.events.drop s.db.processedEventsCount, event.addr = none) :
    Synced ctx blocked s.db s.journal s.record := by
  refine ⟨h.sound, h.viewed.congr fun addr hb hu => ?_, h.cached, fun addr _ => h.balance addr, h.fits⟩
  cases handler with
  | true =>
    obtain ⟨hreplays, -⟩ := h.behind rfl
    rw [hreplays.eq_of_other (hcalls rfl)]
  | false => exact (h.upToDate rfl addr hb hu).symm

theorem drop_append_pending (h : db.processedEventsCount ≤ db.events.length) :
    (db.act w events).events.drop (db.act w events).processedEventsCount
      = db.events.drop db.processedEventsCount ++ events :=
  List.drop_append_of_le_length h

theorem Acting.write {store : EncMempool.Bytes → Option EncMempool.Bytes} {kind : EncMempool.Bytes}
    (h : Acting ctx blocked handler prevEventsLen depth base s) :
    Acting ctx blocked handler prevEventsLen depth base
      { s with db := s.db.act { s.db.cache.current with other := store } [.other kind] } where
  sound := h.sound.congr rfl rfl rfl
  viewed := h.viewed.recontext rfl rfl
  cached := by
    rw [show (s.db.act _ _).cache.current = _ from CacheStack.current_modify ..]
    exact ⟨h.cached.locked, h.cached.auth⟩
  balance := by
    rw [show (s.db.act _ _).cache.current = _ from CacheStack.current_modify ..]
    exact h.balance
  fits := h.fits
  prev := h.prev
  processed := h.processed.trans (by simp [act])
  depth := by simpa [act] using h.depth
  behind hhandler := by
    obtain ⟨hreplays, hpayable⟩ := h.behind hhandler
    rw [drop_append_pending h.processed]
    refine ⟨hreplays.snoc trivial, fun event hevent => ?_⟩
    rcases List.mem_append.mp hevent with hold | hnew
    · exact hpayable event hold
    · rw [List.mem_singleton.mp hnew]
      exact nofun
  upToDate := h.upToDate

theorem bankOp_apply {op : BankOp} (h : op.apply w = some w') :
    op.event.Covered w.balance ∧ w'.balance = op.event.settle w.balance
      ∧ w'.auth = Function.update w.auth op.addr (op.account (w.auth op.addr)) := by
  unfold BankOp.apply at h
  split_ifs at h with hcovered
  cases h
  exact ⟨hcovered, rfl, rfl⟩

theorem addr_event (op : BankOp) : op.event.addr = some op.addr := by
  cases op <;> rfl

/-- A bank operation keeps what is kept of the multistore, if it leaves what is locked where the database
can hold the account. -/
theorem Cached.bank {op : BankOp} (h : Cached ctx blocked unmirrored w)
    (hop : op.apply w = some w') (hmono : unmirrored ⊆ g'.unmirrored)
    (hlocked : blocked op.addr = false → op.addr ∉ g'.unmirrored →
      op.locked = ctx.lockedCoins op.addr) :
    Cached ctx blocked g'.unmirrored w' := by
  obtain ⟨hcovered, hbalance, hauth⟩ := bankOp_apply hop
  refine ⟨fun addr hb hu => ?_, fun addr hm hnone => ?_⟩
  · rcases eq_or_ne addr op.addr with rfl | hne
    · have hsame := h.locked op.addr hb fun hin => hu (hmono hin)
      have hop := hlocked hb hu
      rw [World.lockedCoins, hauth, Function.update_self]
      cases op with
      | spend addr amount locked =>
        replace hsame : ((w.auth addr).map AuthAccount.locked).getD 0 = ctx.lockedCoins addr := hsame
        show (((w.auth addr).map fun acct => { acct with locked }).map AuthAccount.locked).getD 0 = _
        cases hacct : w.auth addr with
        | none =>
          rw [hacct] at hsame
          exact hsame
        | some acct => exact hop
      | receive addr amount locked => exact hop
    · rw [World.lockedCoins, hauth, Function.update_of_ne hne]
      exact h.locked addr hb fun hin => hu (hmono hin)
  · have hm' : Mirrored ctx blocked unmirrored addr :=
      ⟨hm.blocked, fun hin => hm.mirrored (hmono hin), hm.settled⟩
    rcases eq_or_ne addr op.addr with rfl | hne
    · rw [hauth, Function.update_self] at hnone
      cases op with
      | spend addr amount locked =>
        -- there was no account, so there are no coins to spend
        have hzero : w.balance addr = 0 := h.auth addr hm' (Option.map_eq_none_iff.mp hnone)
        rw [hbalance]
        show Ledger.debit w.balance addr amount addr = 0
        rw [Ledger.debit_self, hzero, Nat.zero_sub]
      | receive addr amount locked => cases hnone
    · rw [hauth, Function.update_of_ne hne] at hnone
      rw [hbalance, settle_of_ne]
      · exact h.auth addr hm' hnone
      · rw [addr_event]
        exact fun heq => hne (Option.some.inj heq).symm

theorem Acting.bank {op : BankOp} (h : Acting ctx blocked handler prevEventsLen depth base s)
    (hexact : op.Exact blocked handler s.db s.journal s.record)
    (hop : op.apply s.db.cache.current = some w) (hfits : Ledger.Fits w.balance) :
    Acting ctx blocked handler prevEventsLen depth base
      { s with db := s.db.act w [op.event], record := s.record.bank handler op } := by
  obtain ⟨hcovered, hbalance, -⟩ := bankOp_apply hop
  have hledger : s.db.cache.current.balance = s.record.ledger := funext h.balance
  rw [hledger] at hcovered hbalance
  have hcurrent : (s.db.act w [op.event]).cache.current = w := CacheStack.current_modify ..
  have hsound : (s.db.act w [op.event]).Sound s.journal := h.sound.congr rfl rfl rfl
  have hbalance' : ∀ addr, (s.db.act w [op.event]).cache.current.balance addr
      = op.event.settle s.record.ledger addr := by
    intro addr
    rw [hcurrent, hbalance]
  have hfits' : Ledger.Fits (op.event.settle s.record.ledger) := hbalance ▸ hfits
  have hprocessed : (s.db.act w [op.event]).processedEventsCount
      ≤ (s.db.act w [op.event]).events.length := h.processed.trans (by simp [act])
  have hdepth : depth < (s.db.act w [op.event]).cache.layers.length := by simpa [act] using h.depth
  cases handler with
  | true =>
    obtain ⟨hpayable, hunlocked⟩ := hexact
    have hspendable : op.event.Spendable blocked ctx s.record.ledger := by
      cases op with
      | receive addr amount locked => exact hcovered
      | spend addr amount locked =>
        intro hb
        obtain ⟨hm, -⟩ := hpayable addr rfl hb
        have hle := (hunlocked hb).2 addr amount locked rfl
        rw [World.spendableCoin, h.cached.locked addr hb hm.mirrored, h.balance] at hle
        omega
    refine ⟨hsound, h.viewed.recontext rfl rfl, ?_, hbalance', hfits', h.prev, hprocessed, hdepth,
      fun _ => ?_, nofun⟩
    · rw [hcurrent]
      refine h.cached.bank hop (fun _ hin => hin) fun hb hu => ?_
      exact (hunlocked hb).1.trans (h.cached.locked op.addr hb hu)
    · obtain ⟨hreplays, hwaiting⟩ := h.behind rfl
      show Replays blocked ctx ((s.db.act w [op.event]).events.drop (s.db.act w [op.event]).processedEventsCount) _ _
        ∧ ∀ event ∈ (s.db.act w [op.event]).events.drop (s.db.act w [op.event]).processedEventsCount, _
      rw [drop_append_pending h.processed]
      refine ⟨hreplays.snoc hspendable, fun event hevent => ?_⟩
      rcases List.mem_append.mp hevent with hold | hnew
      · exact hwaiting event hold
      · rw [List.mem_singleton.mp hnew]
        exact hpayable
  | false =>
    -- the account is not dirty and becomes one that the database cannot hold
    have hclean : ¬ Dirty s.journal op.addr := hexact
    have hmono : s.record.unmirrored ⊆ (s.record.bank false op).unmirrored :=
      Finset.subset_insert _ _
    have hviewed : Viewed ctx blocked (s.record.bank false op).unmirrored base s.db s.journal := by
      refine ⟨h.viewed.ctx_eq, h.viewed.locked, fun addr hd => ?_, h.viewed.dirty, h.viewed.clean,
        fun addr hd hb hu => h.viewed.untouched addr hd hb fun hin => hu (hmono hin), h.viewed.destroyed⟩
      obtain ⟨hb, hu, hsettled⟩ := h.viewed.mirrored addr hd
      refine ⟨hb, fun hin => ?_, hsettled⟩
      rcases Finset.mem_insert.mp hin with rfl | hin
      · exact hclean hd
      · exact hu hin
    refine ⟨hsound, hviewed.recontext rfl rfl, ?_, hbalance', hfits', h.prev, hprocessed, hdepth,
      nofun, fun _ addr hb hu => ?_⟩
    · rw [hcurrent]
      exact h.cached.bank hop hmono fun _ hu => absurd (Finset.mem_insert_self _ _) hu
    · rw [h.upToDate rfl addr hb fun hin => hu (hmono hin)]
      refine (settle_of_ne ?_).symm
      rw [addr_event]
      rintro heq
      exact hu (Finset.mem_insert.mpr (.inl (Option.some.inj heq).symm))

end Db

end Vm
