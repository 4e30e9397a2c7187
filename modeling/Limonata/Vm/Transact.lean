import Limonata.Vm.Native

/-!
# x/vm — transactions against the ledger

An act of EVM code that starts with database, cached multistore and ledger in step leaves them in step,
and its entries undo it. Both are shown of an act given that they hold of the EVM calls nested in it, and
of a nested call given that they hold of its acts, so they hold at every depth (`executes_spec`) and along
every transaction (`InStep.discipline`).
-/

namespace Vm

open Journaled (Undoes)

namespace Db

variable {ctx w : World} {blocked : Address → Bool} {base : Ledger} {db db₀ db' : Db}
  {journal es es₀ : List JournalEntry} {g g' : Record} {handler ok : Bool} {enters : Bool → Prop}
  {nested act : ActRel} {prevEventsLen depth : Nat} {s s' : Inner}

/-- What an act of EVM code leaves: all in step again, at least the caches and the events there were, and
entries that undo the act. -/
structure ActSpec (ctx : World) (blocked : Address → Bool) (db : Db) (journal : List JournalEntry)
    (db' : Db) (es : List JournalEntry) (g' : Record) : Prop where
  synced : Synced ctx blocked db' (es ++ journal) g'
  layers : db.cache.layers.length ≤ db'.cache.layers.length
  events : db.events.length ≤ db'.events.length
  undoes : Undoes (AsGood True) undo es db' db
  below : ∀ height ≤ db.cache.layers.length, Undoes (Below height) undo es db' db

/-- Acts that keep the database in step with the ledger. -/
def InStep (ctx : World) (blocked : Address → Bool) (act : ActRel) : Prop :=
  ∀ db journal g db' es g', Synced ctx blocked db journal g → act db journal g db' es g' →
    ActSpec ctx blocked db journal db' es g'

/-! ## Into an action -/

theorem flushToCacheCtx_ok (h : db.flushToCacheCtx blocked journal = some (db', true)) :
    ∃ w, commitWithCtx blocked db.stateObjects (sortedDirties journal) db.cache.current = some (w, true)
      ∧ db' = { db with
        cache := db.cache.modify fun _ => w, processedEventsCount := db.events.length } := by
  obtain ⟨⟨w, ok⟩, hcommit, heq⟩ := Option.map_eq_some_iff.mp h
  cases ok with
  | true =>
    cases heq
    exact ⟨w, hcommit, rfl⟩
  | false => cases heq

/-- The entry of a call dirties nothing. -/
theorem Synced.callEntry (h : Synced ctx blocked db journal g) :
    Synced ctx blocked db (db.callEntry :: journal) g where
  sound := ⟨h.sound.indexed, h.sound.object,
    List.forall_mem_cons.mpr ⟨fun _ haddr => (by cases haddr), h.sound.live⟩⟩
  viewed := h.viewed.keep (fun _ obj hobj => ⟨obj, hobj, rfl, rfl⟩) rfl rfl
  cached := h.cached
  balance addr hd := h.balance addr (not_dirty_cons hd).2
  fits := h.fits

variable (handler) in
theorem Synced.enter (h : Synced ctx blocked db journal g)
    (henter : db.enterPrecompile blocked journal = some (db₀, es₀, true)) :
    Acting ctx blocked handler db₀.events.length db.cache.layers.length g.ledger
      ⟨db₀, es₀ ++ journal, g⟩ := by
  obtain ⟨rfl, w, processed, counter, rfl, hok, -⟩ :=
    enterPrecompile_cases ⟨handler, fun w => (w, [], true)⟩ henter
  obtain ⟨rfl, hcommit⟩ := hok rfl
  refine h.callEntry.acting hcommit rfl rfl rfl rfl ?_ le_rfl ?_
  · simp [called]
  · simp [called]

/-! ## Steps of an action -/

theorem undoes_below_act {events : List Event} {height : Nat} (h : height < db.cache.layers.length) :
    Undoes (Below height) undo [] (db.act w events) db :=
  undoes_below_nil (fun _ => rfl) (CacheStack.sameBelow_modify (fun _ => w) h)

section

variable (hnested : InStep ctx blocked nested)
  (h : Acting ctx blocked handler prevEventsLen depth base s)

include hnested h

/-- A step of an action keeps what holds while it runs, and its entries undo it up to the cached
context. -/
theorem nativeStep_spec
    (hstep : NativeStep blocked (exactPolicy blocked enters) handler nested s s') :
    (∃ base', Acting ctx blocked handler prevEventsLen depth base' s')
      ∧ ∃ es, s'.journal = es ++ s.journal
        ∧ ∀ height ≤ depth, Undoes (Below height) undo es s'.db s.db := by
  cases hstep with
  | bank op hpolicy hop hfits =>
    refine ⟨⟨base, h.bank hpolicy hop hfits⟩, [], rfl, fun height hheight => ?_⟩
    exact undoes_below_act (hheight.trans_lt h.depth)
  | write store kind =>
    refine ⟨⟨base, h.write⟩, [], rfl, fun height hheight => ?_⟩
    exact undoes_below_act (hheight.trans_lt h.depth)
  | @call db db' es g hpolicy hrun hflush =>
    have hspec := hnested _ _ _ _ _ _ (h.synced hpolicy) hrun
    obtain ⟨w, hcommit, rfl⟩ := flushToCacheCtx_ok hflush
    have hdepth : depth < db.cache.layers.length := h.depth.trans_le hspec.layers
    have hprev : prevEventsLen ≤ db.events.length := h.prev.trans (h.processed.trans hspec.events)
    refine ⟨⟨_, hspec.synced.acting hcommit rfl rfl rfl (CacheStack.current_modify ..) rfl hprev ?_⟩, es,
      rfl, fun height hheight => ?_⟩
    · rw [CacheStack.length_modify]
      exact hdepth
    · -- the flush first, then the nested call
      have hflushed : Undoes (Below height) undo [] { db with
          cache := db.cache.modify fun _ => w, processedEventsCount := db.events.length } db :=
        undoes_below_nil (fun _ => rfl) (CacheStack.sameBelow_modify (fun _ => w) (hheight.trans_lt hdepth))
      exact hflushed.append (hspec.below height (hheight.trans h.depth.le))

theorem nativeRun_spec (hrun : NativeRun blocked (exactPolicy blocked enters) handler nested s s') :
    (∃ base', Acting ctx blocked handler prevEventsLen depth base' s')
      ∧ ∃ es, s'.journal = es ++ s.journal
        ∧ ∀ height ≤ depth, Undoes (Below height) undo es s'.db s.db := by
  refine Reach.run_keeps (I := fun s' => (∃ base',
    Acting ctx blocked handler prevEventsLen depth base' s') ∧ ∃ es, s'.journal = es ++ s.journal
      ∧ ∀ height ≤ depth, Undoes (Below height) undo es s'.db s.db) ?_ hrun
    ⟨⟨base, h⟩, [], rfl, fun _ _ => Undoes.nil fun _ ht => ht⟩
  rintro s₁ s₂ hstep ⟨⟨base₁, h₁⟩, es₁, hjournal₁, hundoes₁⟩
  obtain ⟨h₂, es₂, hjournal₂, hundoes₂⟩ := nativeStep_spec hnested h₁ hstep
  refine ⟨h₂, es₂ ++ es₁, ?_, fun height hheight =>
    (hundoes₂ height hheight).append (hundoes₁ height hheight)⟩
  rw [hjournal₂, hjournal₁, List.append_assoc]

end

/-- **The return of an action**: the replay does not panic and leaves all in step, with the cached
multistore as the ledger. -/
theorem Acting.leave (h : Acting ctx blocked handler prevEventsLen depth base s) :
    ∃ db' fs, s.db.leavePrecompile blocked handler prevEventsLen = some (db', fs)
      ∧ Synced ctx blocked db' (fs ++ s.journal) s.record ∧ AnyChanges s.db db' fs
      ∧ ∀ addr, db'.cache.current.balance addr = s.record.ledger addr := by
  cases handler with
  | true =>
    obtain ⟨hreplays, hpayable⟩ := h.behind rfl
    obtain ⟨db', fs, hafter, hpays⟩ :=
      h.viewed.afterBalanceChange h.sound h.prev h.processed hreplays hpayable
    obtain ⟨-, hcache, -, -⟩ := hpays.changes.contexts
    have hbalance : ∀ addr, db'.cache.current.balance addr = s.record.ledger addr := hcache ▸ h.balance
    exact ⟨db', fs, hafter, ⟨(hpays.changes.sound h.sound).1, hpays.viewed, hcache ▸ h.cached,
      fun addr _ => hbalance addr, h.fits⟩, hpays.changes, hbalance⟩
  | false =>
    refine ⟨s.db, [], rfl, ⟨h.sound, ?_, h.cached, fun addr _ => h.balance addr, h.fits⟩, .nil, h.balance⟩
    exact h.viewed.congr fun addr hb hu => (h.upToDate rfl addr hb hu).symm

/-! ## Acts -/

theorem Synced.move_spec {m : Move} (h : Synced ctx blocked db journal g) (hissued : m.Issued db)
    (hexact : m.Exact blocked db g) (hrun : m.run db = some (db', es)) :
    ActSpec ctx blocked db journal db' es (m.post db g) := by
  obtain ⟨hsynced, hchanges⟩ := h.move hissued hexact hrun
  obtain ⟨-, hcache, hevents, -⟩ := hchanges.contexts
  exact ⟨hsynced, (congrArg (·.layers.length) hcache).ge, (congrArg List.length hevents).ge,
    (hchanges.sound h.sound).2, fun _ _ => hchanges.undoes_below h.sound⟩

theorem Synced.undone (h : Synced ctx blocked db journal g) (hgood : db.AsGood True db') :
    ActSpec ctx blocked db journal db' [] g where
  synced := h.asGood hgood
  layers := (congrArg (·.layers.length) hgood.cache).ge
  events := (congrArg List.length hgood.events).ge
  undoes := Undoes.nil fun _ ht => hgood.trans ht
  below _ _ := Undoes.nil fun _ ht => hgood.trans_below ht

/-- **An act of EVM code** keeps all in step and can be undone, if the nested calls of its actions do. -/
theorem act_spec (hnested : InStep ctx blocked nested) :
    InStep ctx blocked (Act blocked (exactPolicy blocked enters) nested) := by
  intro db journal g db' es g' h hact
  cases hact with
  | move m hissued hpolicy hrun => exact h.move_spec hissued hpolicy hrun
  | @native handler db₀ db' es₀ fs es s hpolicy henter hrun hleave hes =>
    have hacting := h.enter handler henter
    obtain ⟨⟨base, hacting'⟩, es₁, hjournal, hundoes⟩ := nativeRun_spec hnested hacting hrun
    obtain ⟨_, _, hleave', hsynced, hchanges, -⟩ := hacting'.leave
    rw [hleave] at hleave'
    cases hleave'
    obtain ⟨-, hcache, hevents, -⟩ := hchanges.contexts
    obtain ⟨rfl, w, processed, counter, rfl, -, -⟩ :=
      enterPrecompile_cases ⟨handler, fun w => (w, [], true)⟩ henter
    obtain rfl : es = (fs ++ es₁) ++ [db.callEntry] := by
      refine (List.append_cancel_right (hes.symm.trans ?_ : es ++ journal = _ ++ journal))
      rw [hjournal]
      simp only [List.append_assoc]
    obtain ⟨hstrict, hbelow⟩ := undoes_call fun height hheight =>
      (hchanges.undoes_below hacting'.sound).append (hundoes height hheight)
    refine ⟨hes ▸ hsynced, ?_, ?_, hstrict, hbelow⟩
    · rw [hcache]
      exact hacting'.depth.le
    · rw [hevents]
      refine le_trans ?_ (hacting'.prev.trans hacting'.processed)
      simp [called]
  | @failed handler db₀ db' es₀ es ok s hpolicy henter hrun hes hundo =>
    -- what was done inside is undone up to the cached context, and the entry of the call does the rest
    have hinside : ∃ es₁, s.journal = es₁ ++ (es₀ ++ journal)
        ∧ ∀ height ≤ db.cache.layers.length, Undoes (Below height) undo es₁ s.db db₀ := by
      rcases hrun with rfl | ⟨rfl, hrun⟩
      · exact ⟨[], rfl, fun _ _ => Undoes.nil fun _ ht => ht⟩
      · exact (nativeRun_spec hnested (h.enter handler henter) hrun).2
    obtain ⟨es₁, hjournal, hundoes⟩ := hinside
    obtain ⟨rfl, w, processed, counter, rfl, -, -⟩ :=
      enterPrecompile_cases ⟨handler, fun w => (w, [], true)⟩ henter
    obtain rfl : es = es₁ ++ [db.callEntry] := by
      refine (List.append_cancel_right (hes.symm.trans ?_ : es ++ journal = _ ++ journal))
      rw [hjournal]
      simp only [List.append_assoc]
    obtain ⟨t, hundo', hgood⟩ := (undoes_call hundoes).1 s.db (.refl _)
    rw [hundo] at hundo'
    cases hundo'
    exact h.undone hgood

/-! ## Nested calls and transactions -/

theorem inStep_discipline (hact : InStep ctx blocked act) (layers events : Nat) :
    Journaled.Discipline (AsGood True) undo
      (fun db journal g => Synced ctx blocked db journal g ∧ layers ≤ db.cache.layers.length
        ∧ events ≤ db.events.length) act where
  refl := AsGood.refl
  trans _ _ _ := AsGood.trans
  replace db t journal g hgood h :=
    ⟨h.1.asGood hgood, hgood.cache ▸ h.2.1, hgood.events ▸ h.2.2⟩
  keep db journal g db' es g' h hrun := by
    have hspec := hact _ _ _ _ _ _ h.1 hrun
    exact ⟨hspec.synced, h.2.1.trans hspec.layers, h.2.2.trans hspec.events⟩
  undoes db journal g db' es g' h hrun := (hact _ _ _ _ _ _ h.1 hrun).undoes

/-- **A nested EVM call** keeps all in step and can be undone, if its acts do. -/
theorem nested_spec (hact : InStep ctx blocked act) : InStep ctx blocked (Nested act) := by
  rintro db journal g db' es g' h ⟨s, hrun, rfl, hjournal, rfl⟩
  have D := inStep_discipline hact db.cache.layers.length db.events.length
  have hinit : Synced ctx blocked db journal g ∧ db.cache.layers.length ≤ db.cache.layers.length
      ∧ db.events.length ≤ db.events.length := ⟨h, le_rfl, le_rfl⟩
  obtain ⟨hsynced, hlayers, hevents⟩ := D.invariant rfl hinit hrun
  have hback : ∀ R' : Db → Db → Prop, (∀ s t u : Db, AsGood True s t → R' t u → R' s u) →
      (∀ s j g s' es g', (Synced ctx blocked s j g ∧ db.cache.layers.length ≤ s.cache.layers.length
        ∧ db.events.length ≤ s.events.length) → act s j g s' es g' → Undoes R' undo es s' s) →
      Undoes R' undo es s.state db := by
    intro R' hR' hundoes
    obtain ⟨es', hes', hback⟩ := D.runs_undoes hR' hundoes rfl hinit hrun
    have heq : es' = es := List.append_cancel_right (hes'.symm.trans hjournal)
    exact heq ▸ hback
  refine ⟨hjournal ▸ hsynced, hlayers, hevents, hback _ (fun _ _ _ => AsGood.trans) ?_,
    fun height hheight => hback _ (fun _ _ _ => AsGood.trans_below) ?_⟩
  · exact fun s j g s' es g' hI hrun => (hact _ _ _ _ _ _ hI.1 hrun).undoes
  · exact fun s j g s' es g' hI hrun =>
      (hact _ _ _ _ _ _ hI.1 hrun).below height (hheight.trans hI.2.1)

/-- **Acts at every depth** keep all in step. -/
theorem actsTo_spec (depth : Nat) :
    InStep ctx blocked (actsTo blocked (exactPolicy blocked enters) depth) := by
  induction depth with
  | zero => exact act_spec fun _ _ _ _ _ _ _ hrun => hrun.elim
  | succ depth ih => exact act_spec (nested_spec ih)

theorem executes_spec : InStep ctx blocked (Executes blocked (exactPolicy blocked enters)) :=
  fun _ _ _ _ _ _ h ⟨depth, hact⟩ => actsTo_spec depth _ _ _ _ _ _ h hact

theorem InStep.discipline (hact : InStep ctx blocked act) :
    Journaled.Discipline (AsGood True) undo (Synced ctx blocked) act := by
  have D := inStep_discipline hact 0 0
  simpa only [Nat.zero_le, and_true] using D

end Db

end Vm
