import Limonata.Vm.Execution

/-!
# x/vm — undoing inside a native action

A native action writes to the cached context without journaling it, so the entries since do not lead back
to the database that was there: the top cache and the events differ. They lead back to it up to those
(`Db.Below`), and the entry of the call then pops the cache and restores the events.
-/

namespace Vm

namespace Db

open Journaled (Undoes)

variable {db db' t u : Db} {e : JournalEntry} {es journal : List JournalEntry} {height : Nat}

/-- `db` with the cached context of `t`. -/
def recontext (db t : Db) : Db :=
  { db with cache := t.cache, events := t.events, processedEventsCount := t.processedEventsCount }

/-- `t` stands for `db` up to the events and the caches above a height. -/
structure Below (height : Nat) (db t : Db) : Prop where
  cache : db.cache.SameBelow height t.cache
  good : (db.recontext t).AsGood True t

theorem recontext_eq (hcache : t.cache = db.cache) (hevents : t.events = db.events)
    (hprocessed : t.processedEventsCount = db.processedEventsCount) : db.recontext t = db := by
  unfold recontext
  rw [hcache, hevents, hprocessed]

theorem AsGood.recontext (h : db.AsGood True t) : (db.recontext u).AsGood True (t.recontext u) :=
  ⟨h.ctx, rfl, rfl, rfl, h.transientStorage, h.refund, h.logs, h.accessList, h.live, h.absent,
    fun addr obj hobj => (h.object addr obj hobj).imp fun _ hp => ⟨hp.1, hp.2.congr rfl⟩⟩

theorem AsGood.below (h : db.AsGood True t) : db.Below height t := by
  refine ⟨?_, ?_⟩
  · rw [h.cache]
    exact .refl
  · rw [recontext_eq h.cache h.events h.processedEventsCount]
    exact h

theorem AsGood.trans_below (h : db.AsGood True t) (h' : t.Below height u) : db.Below height u :=
  ⟨h.cache ▸ h'.cache, h.recontext.trans h'.good⟩

/-- With the same events and the same caches, nothing is left that could differ. -/
theorem Below.asGood (h : db.Below db.cache.layers.length t) (hevents : t.events = db.events)
    (hprocessed : t.processedEventsCount = db.processedEventsCount) : db.AsGood True t := by
  rw [← recontext_eq (t := t) h.cache.eq hevents hprocessed]
  exact h.good

/-! ## Changes -/

theorem Change.recontext (h : Change db db' e) (t : Db) :
    Change (db.recontext t) (db'.recontext t) e := by
  cases h with
  | createObject addr habsent => exact .createObject addr habsent
  | object addr hget hobj =>
    refine .object addr hget ?_
    cases hobj with
    | balance amount => exact .balance amount
    | nonce nonce => exact .nonce nonce
    | code code => exact .code code
    | storage key value => exact .storage key value
    | selfDestruct => exact .selfDestruct
    | createContract hold => exact .createContract hold
  | outside hout =>
    refine .outside ?_
    cases hout with
    | transient addr key value => exact .transient addr key value
    | refund refund => exact .refund refund
    | addLog log => exact .addLog log
    | addAddress addr habsent => exact .addAddress addr habsent
    | addSlot addr slot hpresent hnew => exact .addSlot addr slot hpresent hnew

/-- Changes without restriction. -/
abbrev AnyChanges : Db → Db → List JournalEntry → Prop := Changes fun _ _ _ => True

theorem Changes.recontext (h : AnyChanges db db' es) (t : Db) :
    AnyChanges (db.recontext t) (db'.recontext t) es := by
  induction h with
  | nil => exact .nil
  | snoc _ hchange _ ih => exact .snoc ih (hchange.recontext t) trivial

theorem Changes.contexts (h : AnyChanges db db' es) :
    db'.ctx = db.ctx ∧ db'.cache = db.cache ∧ db'.events = db.events
      ∧ db'.processedEventsCount = db.processedEventsCount := by
  induction h with
  | nil => exact ⟨rfl, rfl, rfl, rfl⟩
  | snoc _ hchange _ ih =>
    cases hchange with
    | createObject addr habsent => exact ih
    | object addr hget hobj => exact ih
    | outside hout => cases hout <;> exact ih

/-- What undoing relies on is nothing of the cached context. -/
theorem Sound.congr (h : db.Sound journal) (hctx : db'.ctx = db.ctx)
    (hobjects : db'.stateObjects = db.stateObjects) (haccess : db'.accessList = db.accessList) :
    db'.Sound journal := by
  have hget : ∀ addr, db'.getStateObject addr = db.getStateObject addr := by
    intro addr
    rw [getStateObject, getStateObject, hobjects, hctx]
  refine ⟨haccess ▸ h.indexed, fun addr obj hobj => ?_, hobjects ▸ h.live⟩
  exact (h.object addr obj (hget addr ▸ hobj)).congr hctx

theorem Changes.sound (h : AnyChanges db db' es) (hsound : db.Sound journal) :
    db'.Sound (es ++ journal) ∧ Undoes (AsGood True) undo es db' db := by
  have hundone : (db'.Sound (es ++ journal) ∧ True) ∧ Undoes (AsGood True) undo es db' db :=
    h.undoes (I := fun _ _ => True) (fun _ _ _ _ => .inl trivial) (fun _ _ _ _ _ _ _ _ => trivial) hsound
      trivial
  exact ⟨hundone.1.1, hundone.2⟩

theorem Changes.undoes_below (h : AnyChanges db db' es) (hsound : db.Sound journal) :
    Undoes (Below height) undo es db' db := by
  intro t ht
  obtain ⟨-, hcache, -, -⟩ := h.contexts
  have hsound' : (db.recontext t).Sound journal := hsound.congr rfl rfl rfl
  obtain ⟨t', hundo, hgood⟩ := ((h.recontext t).sound hsound').2 t ht.good
  have hsame : db.recontext t' = db.recontext t := by
    unfold Db.recontext
    rw [hgood.cache, hgood.events, hgood.processedEventsCount]
    rfl
  refine ⟨t', hundo, ?_, hsame ▸ hgood⟩
  rw [hgood.cache]
  exact hcache ▸ ht.cache

/-! ## The cached context -/

theorem undoes_below_nil (hcontext : ∀ t, db'.recontext t = db.recontext t)
    (hcache : db.cache.SameBelow height db'.cache) : Undoes (Below height) undo [] db' db :=
  Undoes.nil fun t ht => ⟨hcache.trans ht.cache, hcontext t ▸ ht.good⟩

theorem Below.undo_callEntry {w : World} {events : List Event} {processed counter : Nat}
    (h : (db.called w events processed counter).Below height t)
    (hheight : height ≤ db.cache.layers.length) :
    ∃ t', undo db.callEntry t = some t' ∧ db.Below height t' ∧ t'.events = db.events
      ∧ t'.processedEventsCount = db.processedEventsCount := by
  obtain ⟨cache, hrevert, hsame⟩ := h.cache.revertTo (fun _ => w) hheight
  refine ⟨{ t with
      cache, events := db.events, processedEventsCount := db.processedEventsCount }, ?_,
    ⟨hsame, ?_⟩, rfl, rfl⟩
  · simp only [undo, callEntry, hrevert, Option.map_some]
  · have hgood := h.good.recontext (u := { t with
      cache, events := db.events, processedEventsCount := db.processedEventsCount })
    exact ⟨hgood.ctx, rfl, rfl, rfl, hgood.transientStorage, hgood.refund, hgood.logs,
      hgood.accessList, hgood.live, hgood.absent,
      fun addr obj hobj => (hgood.object addr obj hobj).imp fun _ hp => ⟨hp.1, hp.2.congr rfl⟩⟩

theorem undoes_call {w : World} {events : List Event} {processed counter : Nat}
    (hinside : ∀ height ≤ db.cache.layers.length,
      Undoes (Below height) undo es db' (db.called w events processed counter)) :
    Undoes (AsGood True) undo (es ++ [db.callEntry]) db' db
      ∧ ∀ height ≤ db.cache.layers.length,
        Undoes (Below height) undo (es ++ [db.callEntry]) db' db := by
  constructor
  · intro t ht
    obtain ⟨t₁, hundo₁, hbelow₁⟩ := hinside _ le_rfl t ht.below
    obtain ⟨t₂, hundo₂, hbelow₂, hevents, hprocessed⟩ := hbelow₁.undo_callEntry le_rfl
    refine ⟨t₂, ?_, hbelow₂.asGood hevents hprocessed⟩
    rw [Journaled.undoAll_append, hundo₁, Option.bind_some, Journaled.undoAll, hundo₂]
    rfl
  · intro height hheight
    refine (hinside height hheight).append (Undoes.single fun t ht => ?_)
    obtain ⟨t', hundo, hbelow, -, -⟩ := ht.undo_callEntry hheight
    exact ⟨t', hundo, hbelow⟩

end Db

end Vm
