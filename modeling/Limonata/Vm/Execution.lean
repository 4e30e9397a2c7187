import Limonata.Vm.Commit

/-!
# x/vm — transactions with native calls

A transaction as the state database sees it. EVM code moves value, changes accounts, takes snapshots and
reverts to them, and calls precompiles. A precompile runs a native action on the cached context: bank
operations, which emit their events, writes of other modules, and nested EVM calls on the same database,
each ending in `FlushToCacheCtx`.

The bank writes of an action have no journal entry of their own: they go with the caches that the entry
of the call pops. An action is therefore one act of the EVM code that made the call, and the EVM code of
a nested call reverts to its own snapshots only. Acts are indexed by how deep they nest.

Beside the database stands what the transaction should do to the balances: a single ledger, to which
every transfer and every bank operation is applied as it happens, and which a revert takes back.
-/

namespace Vm

open EncMempool (Bytes)

/-! ## The ledger -/

/-- The balances of all accounts. -/
abbrev Ledger := Address → Nat

namespace Ledger

def credit (ledger : Ledger) (addr : Address) (amount : Nat) : Ledger :=
  Function.update ledger addr (ledger addr + amount)

def debit (ledger : Ledger) (addr : Address) (amount : Nat) : Ledger :=
  Function.update ledger addr (ledger addr - amount)

/-- All coins together are an amount of x/bank. -/
def Fits (ledger : Ledger) : Prop := ∑ addr, ledger addr < 2 ^ 256

end Ledger

/-- What is said of a transaction beside its database. -/
structure Record where
  ledger : Ledger
  /-- The accounts that EVM code paid. -/
  paid : Finset Address
  /-- The accounts whose coins moved in actions of precompiles without a balance handler. -/
  unmirrored : Finset Address

/-- The record after EVM code paid an amount. -/
def Record.pay (g : Record) (sender recipient : Address) (amount : Nat) : Record :=
  { g with
    ledger := (g.ledger.debit sender amount).credit recipient amount
    paid := if amount = 0 then g.paid else insert recipient g.paid }

/-! ## Moves of EVM code -/

namespace Db

/-- `Transfer` of the EVM. -/
def transfer (db : Db) (sender recipient : Address) (amount : Nat) : Effect :=
  (db.subBalance sender amount).bind fun (db, es) =>
    (db.addBalance recipient amount).map fun (db, fs) => (db, fs ++ es)

/-- SELFDESTRUCT as of EIP-6780: the balance goes to the beneficiary, and a contract of this transaction
is destroyed. -/
def selfDestructTo (db : Db) (this beneficiary : Address) : Effect :=
  let moved :=
    if this = beneficiary then some (db, []) else db.transfer this beneficiary (db.getBalance this)
  if db.isNewContract this then
    moved.bind fun (db, es) => (db.selfDestruct this).map fun (db, fs) => (db, fs ++ es)
  else moved

end Db

inductive Move where
  /-- An operation that moves no value. -/
  | op (op : Op)
  | transfer (sender recipient : Address) (amount : Nat)
  | selfDestruct (this beneficiary : Address)

namespace Move

def run (db : Db) : Move → Db.Effect
  | op o => o.apply db
  | transfer sender recipient amount => db.transfer sender recipient amount
  | selfDestruct this beneficiary => db.selfDestructTo this beneficiary

def Issued (db : Db) : Move → Prop
  | op o => o.pays = none ∧ (∀ addr, o ≠ .selfDestruct addr) ∧ db.Fresh o
  | _ => True

/-- The record after a move. -/
def post (db : Db) (g : Record) : Move → Record
  | op _ => g
  | transfer sender recipient amount => g.pay sender recipient amount
  | selfDestruct this beneficiary =>
    if this = beneficiary then g else g.pay this beneficiary (db.getBalance this)

end Move

/-! ## Native actions -/

namespace Event

/-- The ledger after what the event tells of. -/
def settle (ledger : Ledger) : Event → Ledger
  | coinSpent spender amount => ledger.debit spender amount
  | coinReceived receiver amount => ledger.credit receiver amount
  | other _ => ledger

/-- The spender has the coins, and the receiver can hold them. -/
def Covered (ledger : Ledger) : Event → Prop
  | coinSpent spender amount => amount ≤ ledger spender
  | coinReceived receiver amount => ledger receiver + amount < 2 ^ 256
  | other _ => True

instance (ledger : Ledger) : (event : Event) → Decidable (event.Covered ledger)
  | coinSpent spender amount => inferInstanceAs (Decidable (amount ≤ ledger spender))
  | coinReceived receiver amount => inferInstanceAs (Decidable (ledger receiver + amount < 2 ^ 256))
  | other _ => inferInstanceAs (Decidable True)

end Event

/-- A change of one balance by x/bank, and what the account has locked after it. A delegation of a
vesting account takes locked coins first, so it spends more than is spendable and unlocks. -/
inductive BankOp where
  | spend (addr : Address) (amount locked : Nat)
  | receive (addr : Address) (amount locked : Nat)

namespace BankOp

def addr : BankOp → Address
  | spend addr _ _ | receive addr _ _ => addr

/-- What the account has locked after the operation. -/
def locked : BankOp → Nat
  | spend _ _ locked | receive _ _ locked => locked

def event : BankOp → Event
  | spend addr amount _ => .coinSpent addr amount
  | receive addr amount _ => .coinReceived addr amount

/-- The record of x/auth after the operation: x/bank makes one for a receiver. -/
def account (acct : Option AuthAccount) : BankOp → Option AuthAccount
  | spend _ _ locked => acct.map fun acct => { acct with locked }
  | receive _ _ locked => some { acct.getD ⟨0, 0⟩ with locked }

/-- `none` if there are not the coins. -/
def apply (w : World) (op : BankOp) : Option World :=
  if op.event.Covered w.balance then
    some { w with
      balance := op.event.settle w.balance
      auth := Function.update w.auth op.addr (op.account (w.auth op.addr)) }
  else none

end BankOp

/-- The record after a bank operation of an action, with or without a balance handler. -/
def Record.bank (g : Record) (handler : Bool) (op : BankOp) : Record :=
  { g with
    ledger := op.event.settle g.ledger
    unmirrored := if handler then g.unmirrored else insert op.addr g.unmirrored }

/-- `runNativeAction` after the action: a balance handler replays the events of the action. -/
def Db.leavePrecompile (blocked : Address → Bool) (handler : Bool) (prevEventsLen : Nat) (db : Db) :
    Db.Effect :=
  if handler then db.afterBalanceChange blocked prevEventsLen else some (db, [])

/-! ## Acts -/

/-- What EVM code can do to a database with a journal and a record, with the entries it appends. -/
abbrev ActRel := Db → List JournalEntry → Record → Db → List JournalEntry → Record → Prop

/-- Restrictions of what a transaction does. -/
structure Policy where
  move : Db → Record → Move → Prop
  /-- Precompiles with or without a balance handler may be called. -/
  enters : Bool → Prop
  bank : Bool → Db → List JournalEntry → Record → BankOp → Prop
  /-- An action may run a nested EVM call. -/
  calls : Bool → Db → Prop

/-- A native action on its way. -/
structure Inner where
  db : Db
  journal : List JournalEntry
  record : Record

/-- The steps of a native action. -/
inductive NativeStep (blocked : Address → Bool) (policy : Policy) (handler : Bool) (nested : ActRel)
    (s : Inner) : Inner → Prop where
  | bank (op : BankOp) {w : World} (hpolicy : policy.bank handler s.db s.journal s.record op)
      (hop : op.apply s.db.cache.current = some w) (hfits : Ledger.Fits w.balance) :
      NativeStep blocked policy handler nested s
        { s with db := s.db.act w [op.event], record := s.record.bank handler op }
  | write (store : Bytes → Option Bytes) (kind : Bytes) :
      NativeStep blocked policy handler nested s
        { s with db := s.db.act { s.db.cache.current with other := store } [.other kind] }
  | call {db db' : Db} {es : List JournalEntry} {g : Record} (hpolicy : policy.calls handler s.db)
      (hrun : nested s.db s.journal s.record db es g)
      (hflush : db.flushToCacheCtx blocked (es ++ s.journal) = some (db', true)) :
      NativeStep blocked policy handler nested s ⟨db', es ++ s.journal, g⟩

/-- A native action from `s` on. -/
abbrev NativeRun (blocked : Address → Bool) (policy : Policy) (handler : Bool) (nested : ActRel) :
    Inner → Inner → Prop :=
  Relation.ReflTransGen (NativeStep blocked policy handler nested)

/-- The acts of EVM code: a move, a precompile call that succeeds, and one that fails, after which the
EVM undoes what the call journaled. -/
inductive Act (blocked : Address → Bool) (policy : Policy) (nested : ActRel) (db : Db)
    (journal : List JournalEntry) (g : Record) : Db → List JournalEntry → Record → Prop where
  | move (m : Move) {db' : Db} {es : List JournalEntry} (hissued : m.Issued db)
      (hpolicy : policy.move db g m) (hrun : m.run db = some (db', es)) :
      Act blocked policy nested db journal g db' es (m.post db g)
  | native (handler : Bool) {db₀ db' : Db} {es₀ fs es : List JournalEntry} {s : Inner}
      (hpolicy : policy.enters handler)
      (henter : db.enterPrecompile blocked journal = some (db₀, es₀, true))
      (hrun : NativeRun blocked policy handler nested ⟨db₀, es₀ ++ journal, g⟩ s)
      (hleave : s.db.leavePrecompile blocked handler db₀.events.length = some (db', fs))
      (hes : fs ++ s.journal = es ++ journal) :
      Act blocked policy nested db journal g db' es s.record
  | failed (handler : Bool) {db₀ db' : Db} {es₀ es : List JournalEntry} {ok : Bool} {s : Inner}
      (hpolicy : policy.enters handler)
      (henter : db.enterPrecompile blocked journal = some (db₀, es₀, ok))
      (hrun : s = ⟨db₀, es₀ ++ journal, g⟩
        ∨ ok = true ∧ NativeRun blocked policy handler nested ⟨db₀, es₀ ++ journal, g⟩ s)
      (hes : s.journal = es ++ journal)
      (hundo : Journaled.undoAll Db.undo es s.db = some db') :
      Act blocked policy nested db journal g db' [] g

/-- A nested EVM call: acts, snapshots and reverts to its own snapshots. -/
def Nested (act : ActRel) : ActRel := fun db journal g db' es g' =>
  ∃ s, Journaled.Runs Db.undo act ⟨db, journal, g, [], 0⟩ s ∧ s.state = db'
    ∧ s.journal = es ++ journal ∧ s.record = g'

/-- The acts whose actions nest at most to a depth. -/
def actsTo (blocked : Address → Bool) (policy : Policy) : Nat → ActRel
  | 0 => Act blocked policy fun _ _ _ _ _ _ => False
  | depth + 1 => Act blocked policy (Nested (actsTo blocked policy depth))

/-- The acts of a transaction. -/
def Executes (blocked : Address → Bool) (policy : Policy) : ActRel := fun db journal g db' es g' =>
  ∃ depth, actsTo blocked policy depth db journal g db' es g'

/-- A transaction over a context, before any EVM code. -/
def begins (ctx : World) (events : List Event) : StateDB Record :=
  Journaled.fresh (Db.new ctx events) ⟨ctx.balance, ∅, ∅⟩

/-- The transactions of EVM code, with snapshots and reverts. -/
abbrev Transacts (blocked : Address → Bool) (policy : Policy) : StateDB Record → StateDB Record → Prop :=
  Journaled.Runs Db.undo (Executes blocked policy)

/-! ## Runs step by step -/

namespace Db

variable {blocked : Address → Bool} {policy : Policy} {s₀ s : StateDB Record}

/-- What a move leaves; nothing if it panics. -/
def moved (s : StateDB Record) (m : Move) : StateDB Record :=
  match m.run s.state with
  | none => s
  | some (db, es) =>
    { s with state := db, journal := es ++ s.journal, record := m.post s.state s.record }

theorem transacts_moved (m : Move) (h : Transacts blocked policy s₀ s) (hissued : m.Issued s.state)
    (hpolicy : policy.move s.state s.record m) (hsome : (m.run s.state).isSome = true) :
    Transacts blocked policy s₀ (moved s m) := by
  obtain ⟨⟨db, es⟩, hrun⟩ := Option.isSome_iff_exists.mp hsome
  have hmoved : moved s m
      = { s with state := db, journal := es ++ s.journal, record := m.post s.state s.record } := by
    unfold moved
    rw [hrun]
  rw [hmoved]
  exact h.tail (.act ⟨0, .move m hissued hpolicy hrun⟩)

/-- A native action before its first step; nothing if the call fails before it. -/
def entered (blocked : Address → Bool) (s : StateDB Record) : Inner :=
  match s.state.enterPrecompile blocked s.journal with
  | some (db, es, true) => ⟨db, es ++ s.journal, s.record⟩
  | _ => ⟨s.state, s.journal, s.record⟩

/-- What a bank operation leaves; nothing if there are not the coins. -/
def banked (s : Inner) (handler : Bool) (op : BankOp) : Inner :=
  match op.apply s.db.cache.current with
  | none => s
  | some w => { s with db := s.db.act w [op.event], record := s.record.bank handler op }

theorem nativeRun_banked {handler : Bool} {nested : ActRel} {s₀ s : Inner} (op : BankOp)
    (h : NativeRun blocked policy handler nested s₀ s)
    (hpolicy : policy.bank handler s.db s.journal s.record op)
    (hcovered : op.event.Covered s.db.cache.current.balance)
    (hfits : Ledger.Fits (op.event.settle s.db.cache.current.balance)) :
    NativeRun blocked policy handler nested s₀ (banked s handler op) := by
  have hop : op.apply s.db.cache.current = some { s.db.cache.current with
      balance := op.event.settle s.db.cache.current.balance
      auth := Function.update s.db.cache.current.auth op.addr
        (op.account (s.db.cache.current.auth op.addr)) } := if_pos hcovered
  unfold banked
  rw [hop]
  exact h.tail (.bank op hpolicy hop hfits)

/-- What a nested EVM call that does nothing leaves: its flush. -/
def flushed (blocked : Address → Bool) (s : Inner) : Inner :=
  match s.db.flushToCacheCtx blocked s.journal with
  | some (db, true) => { s with db }
  | _ => s

theorem nativeRun_flushed {handler : Bool} {act : ActRel} {s₀ s : Inner} {db : Db}
    (h : NativeRun blocked policy handler (Nested act) s₀ s) (hpolicy : policy.calls handler s.db)
    (hflush : s.db.flushToCacheCtx blocked s.journal = some (db, true)) :
    NativeRun blocked policy handler (Nested act) s₀ (flushed blocked s) := by
  have hflushed : flushed blocked s = ⟨db, [] ++ s.journal, s.record⟩ := by
    unfold flushed
    rw [hflush]
    rfl
  rw [hflushed]
  exact h.tail (.call hpolicy ⟨_, .refl, rfl, rfl, rfl⟩ hflush)

/-- What a native action leaves on its return; nothing if the replay panics. -/
def left (blocked : Address → Bool) (handler : Bool) (s : StateDB Record) (s₁ : Inner) :
    StateDB Record :=
  match s₁.db.leavePrecompile blocked handler s.state.events.length with
  | none => s
  | some (db, fs) => { s with state := db, journal := fs ++ s₁.journal, record := s₁.record }

theorem transacts_left {handler : Bool} {db₀ db : Db} {es₀ fs : List JournalEntry} {s₁ : Inner}
    (depth : Nat) (es : List JournalEntry) (h : Transacts blocked policy s₀ s)
    (henters : policy.enters handler)
    (henter : s.state.enterPrecompile blocked s.journal = some (db₀, es₀, true))
    (hrun : NativeRun blocked policy handler (Nested (actsTo blocked policy depth)) (entered blocked s) s₁)
    (hevents : db₀.events.length = s.state.events.length)
    (hleave : s₁.db.leavePrecompile blocked handler s.state.events.length = some (db, fs))
    (hes : s₁.journal = es ++ s.journal) :
    Transacts blocked policy s₀ (left blocked handler s s₁) := by
  have hleft : left blocked handler s s₁
      = { s with state := db, journal := (fs ++ es) ++ s.journal, record := s₁.record } := by
    unfold left
    rw [hleave, hes, List.append_assoc]
  have hentered : entered blocked s = ⟨db₀, es₀ ++ s.journal, s.record⟩ := by
    unfold entered
    rw [henter]
  rw [hleft]
  refine h.tail (.act ⟨depth + 1, .native handler henters henter (hentered ▸ hrun) (hevents ▸ hleave) ?_⟩)
  rw [hes, List.append_assoc]

end Db

/-- A context in which one account has coins. -/
def World.holder (addr : Address) (amount locked : Nat) : World where
  auth a := if a = addr then some ⟨0, locked⟩ else none
  balance a := if a = addr then amount else 0
  supply := amount
  codeHash _ := none
  code _ := none
  storage _ _ := none
  other _ := none

theorem sum_holder (addr : Address) (amount locked : Nat) :
    ∑ a, (World.holder addr amount locked).balance a = amount := by
  simp [World.holder]

end Vm
