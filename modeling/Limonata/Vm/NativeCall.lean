import Limonata.Vm.StateDB

/-!
# precompiles/common — native actions

A stateful precompile runs a native action on the cached context. Before it, the cached multistore is
snapshotted, the call is journaled and the dirty objects are flushed; after it, a precompile with a
balance handler replays the bank events of the action on the state objects.

An action is a function of the multistore: what it leaves there, the events it emits, and whether it
returned no error. An action that runs out of gas, while it runs or when its gas is charged, is one that
failed.
-/

namespace Vm

def maxPrecompileCalls : Nat := 20

structure NativeCall where
  /-- The precompile has a `BalanceHandlerFactory`. -/
  balanceHandler : Bool
  action : World → World × List Event × Bool

namespace Db

section

variable (blocked : Address → Bool) (db : Db) (journal : List JournalEntry)

/-- `AddPrecompileFn`: the entry is journaled even if the limit of calls is reached. -/
def addPrecompileFn (snapshot : Nat) : Db × JournalEntry × Bool :=
  let counter := (db.precompileCallsCounter + 1) % 2 ^ 8
  ({ db with precompileCallsCounter := counter },
    .precompileCall snapshot db.events db.processedEventsCount, counter ≤ maxPrecompileCalls)

/-- `runNativeAction` up to the action, and whether there was no error. -/
def enterPrecompile : Option (Db × List JournalEntry × Bool) :=
  let snapshot := db.cache.layers.length
  match { db with cache := db.cache.snapshot }.addPrecompileFn snapshot with
  | (db, entry, true) =>
    (db.flushToCacheCtx blocked (entry :: journal)).map fun (db, ok) => (db, [entry], ok)
  | (db, entry, false) => some (db, [entry], false)

/-- The replay of one event; those of blocked addresses are passed over. -/
def mirror : Event → Effect
  | .coinSpent spender amount =>
    if blocked spender then some (db, []) else db.subBalance spender amount
  | .coinReceived receiver amount =>
    if blocked receiver then some (db, []) else db.addBalance receiver amount
  | .other _ => some (db, [])

/-- The loop of `AfterBalanceChange`, from an index on. -/
def mirrorFrom (blocked : Address → Bool) (eventIdx : Nat) : List Event → Db → Effect
  | [], db => some (db, [])
  | event :: rest, db =>
    if eventIdx < db.processedEventsCount then mirrorFrom blocked (eventIdx + 1) rest db
    else
      (db.mirror blocked event).bind fun (db, es) =>
        (mirrorFrom blocked (eventIdx + 1) rest db).map fun (db, fs) => (db, fs ++ es)

def afterBalanceChange (prevEventsLen : Nat) : Effect :=
  mirrorFrom blocked prevEventsLen (db.events.drop prevEventsLen) db

/-- What an action leaves in the cached context. -/
def act (w : World) (events : List Event) : Db :=
  { db with cache := db.cache.modify fun _ => w, events := db.events ++ events }

/-- `runNativeAction`, and whether there was no error. -/
def runNativeAction (call : NativeCall) : Option (Db × List JournalEntry × Bool) :=
  (db.enterPrecompile blocked journal).bind fun (db, es, ok) =>
    if ok = false then some (db, es, false)
    else
      let (w, events, ok) := call.action db.cache.current
      let prevEventsLen := db.events.length
      let db := db.act w events
      if ok = false then some (db, es, false)
      else if call.balanceHandler then
        (db.afterBalanceChange blocked prevEventsLen).map fun (db, fs) => (db, fs ++ es, true)
      else some (db, es, true)

end

/-! ## What a native action leaves -/

variable {blocked : Address → Bool} {db db' : Db} {journal es : List JournalEntry}
  {call : NativeCall}
  {ok : Bool}

/-- The database after a native action, before the replay of its events. -/
def called (db : Db) (w : World) (events : List Event) (processed counter : Nat) : Db :=
  { db with
    cache := db.cache.snapshot.modify fun _ => w
    events := db.events ++ events
    processedEventsCount := processed
    precompileCallsCounter := counter }

/-- The entry of a native action. -/
def callEntry (db : Db) : JournalEntry :=
  .precompileCall db.cache.layers.length db.events db.processedEventsCount

/-- What a call can leave in the cached multistore: nothing, what a flush wrote, or what the action
made of it. -/
inductive CacheAfter (blocked : Address → Bool) (db : Db) (journal : List JournalEntry)
    (call : NativeCall) : World → Prop where
  | limit : CacheAfter blocked db journal call db.cache.current
  | flush {w : World} {ok : Bool}
      (hflush : commitWithCtx blocked db.stateObjects (sortedDirties journal) db.cache.current
        = some (w, ok)) : CacheAfter blocked db journal call w
  | action {w : World}
      (hflush : commitWithCtx blocked db.stateObjects (sortedDirties journal) db.cache.current
        = some (w, true)) : CacheAfter blocked db journal call (call.action w).1

theorem current_called {w : World} {events : List Event} {processed counter : Nat} :
    (db.called w events processed counter).cache.current = w := rfl

theorem called_act {w w' : World} {events events' : List Event} {processed counter : Nat} :
    (db.called w events processed counter).act w' events'
      = db.called w' (events ++ events') processed counter := by
  unfold called act
  simp only [List.append_assoc]
  rfl

theorem enterPrecompile_cases (call : NativeCall)
    (h : db.enterPrecompile blocked journal = some (db', es, ok)) :
    es = [db.callEntry] ∧ ∃ w processed counter, db' = db.called w [] processed counter
      ∧ (ok = true → processed = db.events.length
        ∧ commitWithCtx blocked db.stateObjects (sortedDirties journal) db.cache.current
          = some (w, true))
      ∧ CacheAfter blocked db journal call w := by
  have hnil : db.events ++ [] = db.events := List.append_nil _
  let counter := (db.precompileCallsCounter + 1) % 2 ^ 8
  simp only [enterPrecompile, addPrecompileFn] at h
  cases hlimit : decide ((db.precompileCallsCounter + 1) % 2 ^ 8 ≤ maxPrecompileCalls) with
  | true =>
    rw [hlimit] at h
    obtain ⟨⟨db₁, ok₁⟩, hflush, heq⟩ := Option.map_eq_some_iff.mp h
    cases heq
    obtain ⟨⟨w, ok₂⟩, hcommit, heq⟩ := Option.map_eq_some_iff.mp hflush
    -- the entry of the call dirties no account
    have hcommit' : commitWithCtx blocked db.stateObjects (sortedDirties journal) db.cache.current
        = some (w, ok₂) := hcommit
    cases ok₂ with
    | true =>
      cases heq
      refine ⟨rfl, w, db.events.length, counter, ?_, fun _ => ⟨rfl, hcommit'⟩, .flush hcommit'⟩
      unfold called
      rw [hnil]
    | false =>
      cases heq
      refine ⟨rfl, w, db.processedEventsCount, counter, ?_, fun hok => ?_, .flush hcommit'⟩
      · unfold called
        rw [hnil]
      · cases hok
  | false =>
    rw [hlimit] at h
    cases h
    refine ⟨rfl, db.cache.current, db.processedEventsCount, counter, ?_, fun hok => ?_, .limit⟩
    · unfold called
      rw [hnil]
      rfl
    · cases hok

/-- **What a native action does**: one entry, a cache on top of the cached multistore, and the replay of
its events. -/
theorem runNativeAction_cases (h : db.runNativeAction blocked journal call = some (db', es, ok)) :
    ∃ w events processed counter fs, es = fs ++ [db.callEntry]
      ∧ CacheAfter blocked db journal call w
      ∧ (db' = db.called w events processed counter ∧ fs = []
        ∨ (db.called w events processed counter).afterBalanceChange blocked db.events.length
          = some (db', fs)) := by
  obtain ⟨⟨db₁, es₁, ok₁⟩, henter, hrest⟩ := Option.bind_eq_some_iff.mp h
  obtain ⟨rfl, w, processed, counter, rfl, hok, hafter⟩ := enterPrecompile_cases call henter
  simp only [current_called, called_act] at hrest
  split_ifs at hrest with hfail hfail' hhandler
  · cases hrest
    exact ⟨w, [], processed, counter, [], rfl, hafter, .inl ⟨rfl, rfl⟩⟩
  all_goals
    obtain ⟨-, hflush⟩ := hok (by simpa using hfail)
  · cases hrest
    exact ⟨_, (call.action w).2.1, processed, counter, [], rfl, .action hflush, .inl ⟨rfl, rfl⟩⟩
  · obtain ⟨⟨db₂, fs⟩, hmirror, heq⟩ := Option.map_eq_some_iff.mp hrest
    cases heq
    refine ⟨_, (call.action w).2.1, processed, counter, fs, rfl, .action hflush, .inr ?_⟩
    have hlen : (db.called w [] processed counter).events.length = db.events.length := by
      simp [called]
    rwa [hlen] at hmirror
  · cases hrest
    exact ⟨_, (call.action w).2.1, processed, counter, [], rfl, .action hflush, .inl ⟨rfl, rfl⟩⟩

end Db

end Vm
