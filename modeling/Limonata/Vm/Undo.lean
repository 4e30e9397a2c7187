import Limonata.Vm.Change

/-!
# x/vm — the journal undoes what it records

Undoing does not restore a state object to the bit. A storage key that was written stays dirty with the
value it had, and a code that was set stays dirty with the code it had; an object that was created is
forgotten. `Db.AsGood` says what is restored: everything that can be observed, and a dirty part that
can only have grown by what the context already holds.

`SelfDestruct` journals no previous flag and its undo clears the flag, so a second destruction that is
undone takes the first with it. `lenient` allows for that.
-/

namespace Vm

open EncMempool (Bytes)

/-! ## Access list -/

namespace AccessList

/-- Every index is that of a set of slots with a slot in it. -/
def Indexed (al : AccessList) : Prop :=
  ∀ addr idx, al.addresses addr = some (some idx) → ∃ slots, al.slots[idx]? = some slots ∧ slots ≠ ∅

variable {al : AccessList} {addr : Address} {slot : Word}

theorem deleteAddress_addAddress (h : al.addresses addr = none) :
    (al.addAddress addr).1.deleteAddress addr = al := by
  obtain ⟨addresses, slots⟩ := al
  rw [Db.addAddress_of_absent h]
  simp only [deleteAddress, Function.update_idem, mk.injEq, and_true]
  exact Function.update_eq_self_iff.mpr h.symm

theorem deleteSlot_addSlot (hindexed : al.Indexed) (hpresent : al.addresses addr ≠ none)
    (hnew : (al.addSlot addr slot).2.2 = true) :
    (al.addSlot addr slot).1.deleteSlot addr slot = some al := by
  cases haddr : al.addresses addr with
  | none => exact absurd haddr hpresent
  | some idx =>
    cases idx with
    | none =>
      -- the slot is the only one of its set, which is the last
      have hself : Function.update al.addresses addr (some none) = al.addresses :=
        Function.update_eq_self_iff.mpr haddr.symm
      simp [addSlot, haddr, deleteSlot, hself]
    | some idx =>
      obtain ⟨slots, hslots, hne⟩ := hindexed addr idx haddr
      have hlt : idx < al.slots.length := (List.getElem?_eq_some_iff.mp hslots).1
      have hget : al.slots.getD idx ∅ = slots := by simp [List.getD, hslots]
      have hnotin : slot ∉ slots := by
        intro hin
        simp only [addSlot, haddr, hget, if_pos hin] at hnew
        cases hnew
      have hadd : al.addSlot addr slot
          = ({ al with slots := al.slots.set idx (insert slot slots) }, false, true) := by
        simp only [addSlot, haddr, hget, if_neg hnotin]
      have herase : (insert slot slots).erase slot = slots := Finset.erase_insert hnotin
      have hset : al.slots.set idx slots = al.slots := by
        rw [← (List.getElem?_eq_some_iff.mp hslots).2, List.set_getElem_self]
      rw [hadd]
      simp only [deleteSlot, haddr, List.getElem?_set_self hlt, herase, if_neg hne, List.set_set, hset]

theorem Indexed.addAddress (hindexed : al.Indexed) : (al.addAddress addr).1.Indexed := by
  intro other idx hother
  unfold AccessList.addAddress at hother ⊢
  split_ifs at hother ⊢
  · exact hindexed other idx hother
  · by_cases heq : other = addr
    · subst heq
      simp at hother
    · simp only [Function.update_of_ne heq] at hother
      exact hindexed other idx hother

theorem Indexed.addSlot (hindexed : al.Indexed) : (al.addSlot addr slot).1.Indexed := by
  have hnew : (⟨Function.update al.addresses addr (some (some al.slots.length)),
      al.slots ++ [{slot}]⟩ : AccessList).Indexed := by
    intro other idx hother
    by_cases heq : other = addr
    · subst heq
      simp only [Function.update_self, Option.some.injEq] at hother
      subst hother
      exact ⟨{slot}, by simp, by simp⟩
    · simp only [Function.update_of_ne heq] at hother
      obtain ⟨slots, hslots, hne⟩ := hindexed other idx hother
      exact ⟨slots, List.getElem?_append_left (List.getElem?_eq_some_iff.mp hslots).1 ▸ hslots, hne⟩
  unfold AccessList.addSlot
  split
  · next i hi =>
    simp only
    split_ifs
    · exact hindexed
    · intro other idx hother
      obtain ⟨slots, hslots, hne⟩ := hindexed other idx hother
      by_cases heq : i = idx
      · subst heq
        have hlt := (List.getElem?_eq_some_iff.mp hslots).1
        exact ⟨_, List.getElem?_set_self hlt, Finset.insert_ne_empty _ _⟩
      · exact ⟨slots, by rw [List.getElem?_set_ne heq]; exact hslots, hne⟩
  · exact hnew

end AccessList

/-! ## Databases that are as good -/

/-- `obj'` stands for `obj` after changes of it were undone. -/
structure StateObject.AsGood (lenient : Prop) (db : Db) (addr : Address) (obj obj' : StateObject) :
    Prop where
  account : obj'.account = obj.account
  newContract : obj'.newContract = obj.newContract
  selfDestructed : obj'.selfDestructed = obj.selfDestructed ∨ lenient ∧ obj'.selfDestructed = false
  readCode : db.code obj' = db.code obj
  code : (obj'.dirtyCode = obj.dirtyCode ∧ obj'.code = obj.code)
    ∨ (obj.dirtyCode = false ∧ obj'.dirtyCode = true ∧ obj'.code = db.code obj)
  storage : ∀ key, obj'.dirtyStorage key = obj.dirtyStorage key
    ∨ (obj.dirtyStorage key = none ∧ obj'.dirtyStorage key = some (db.ctx.getState addr key))

namespace Db

/-- `t` stands for `db` after what was done since was undone. -/
structure AsGood (lenient : Prop) (db t : Db) : Prop where
  ctx : t.ctx = db.ctx
  cache : t.cache = db.cache
  events : t.events = db.events
  processedEventsCount : t.processedEventsCount = db.processedEventsCount
  transientStorage : t.transientStorage = db.transientStorage
  refund : t.refund = db.refund
  logs : t.logs = db.logs
  accessList : t.accessList = db.accessList
  live : ∀ addr, db.stateObjects addr ≠ none → t.stateObjects addr ≠ none
  absent : ∀ addr, db.getStateObject addr = none → t.getStateObject addr = none
  object : ∀ addr obj, db.getStateObject addr = some obj →
    ∃ obj', t.getStateObject addr = some obj' ∧ obj.AsGood lenient db addr obj'

end Db

variable {lenient : Prop} {db db' t u : Db} {addr : Address} {obj obj' obj'' : StateObject}
  {e : JournalEntry} {es : List JournalEntry}

theorem StateObject.AsGood.congr (h : obj.AsGood lenient db addr obj') (hctx : db'.ctx = db.ctx) :
    obj.AsGood lenient db' addr obj' := by
  have hcode : ∀ obj, db'.code obj = db.code obj := fun obj => by simp only [Db.code, hctx]
  exact ⟨h.account, h.newContract, h.selfDestructed, by rw [hcode, hcode, h.readCode],
    by rw [hcode]; exact h.code, by rw [hctx]; exact h.storage⟩

theorem StateObject.AsGood.refl (obj : StateObject) : obj.AsGood lenient db addr obj :=
  ⟨rfl, rfl, .inl rfl, rfl, .inl ⟨rfl, rfl⟩, fun _ => .inl rfl⟩

theorem StateObject.AsGood.trans (h : obj.AsGood lenient db addr obj')
    (h' : obj'.AsGood lenient db addr obj'') : obj.AsGood lenient db addr obj'' where
  account := h'.account.trans h.account
  newContract := h'.newContract.trans h.newContract
  selfDestructed := by
    rcases h'.selfDestructed with heq | hclear
    · rw [heq]
      exact h.selfDestructed
    · exact .inr hclear
  readCode := h'.readCode.trans h.readCode
  code := by
    rcases h'.code with ⟨hdirty, hcode⟩ | ⟨hclean, hdirty, hcode⟩
    · rw [hdirty, hcode]
      exact h.code
    · rcases h.code with ⟨hdirty', -⟩ | ⟨-, hdirty', -⟩
      · exact .inr ⟨hdirty' ▸ hclean, hdirty, hcode.trans h.readCode⟩
      · rw [hclean] at hdirty'
        cases hdirty'
  storage key := by
    rcases h'.storage key with heq | ⟨hnone, hsome⟩
    · rw [heq]
      exact h.storage key
    · rcases h.storage key with heq' | ⟨-, hsome'⟩
      · exact .inr ⟨heq' ▸ hnone, hsome⟩
      · rw [hnone] at hsome'
        cases hsome'

theorem StateObject.AsGood.selfDestructed_eq (h : obj.AsGood False db addr obj') :
    obj'.selfDestructed = obj.selfDestructed := h.selfDestructed.resolve_right fun hfalse => hfalse.1

namespace Db.AsGood

theorem object_back (h : db.AsGood lenient t) (hobj' : t.getStateObject addr = some obj') :
    ∃ obj, db.getStateObject addr = some obj ∧ obj.AsGood lenient db addr obj' := by
  cases hobj : db.getStateObject addr with
  | none =>
    rw [h.absent addr hobj] at hobj'
    cases hobj'
  | some obj =>
    obtain ⟨p, hp, hgood⟩ := h.object addr obj hobj
    rw [hp] at hobj'
    cases hobj'
    exact ⟨obj, rfl, hgood⟩

theorem refl (db : Db) : db.AsGood lenient db :=
  ⟨rfl, rfl, rfl, rfl, rfl, rfl, rfl, rfl, fun _ h => h, fun _ h => h,
    fun _ obj h => ⟨obj, h, .refl obj⟩⟩

theorem trans (h : db.AsGood lenient t) (h' : t.AsGood lenient u) : db.AsGood lenient u where
  ctx := h'.ctx.trans h.ctx
  cache := h'.cache.trans h.cache
  events := h'.events.trans h.events
  processedEventsCount := h'.processedEventsCount.trans h.processedEventsCount
  transientStorage := h'.transientStorage.trans h.transientStorage
  refund := h'.refund.trans h.refund
  logs := h'.logs.trans h.logs
  accessList := h'.accessList.trans h.accessList
  live addr hlive := h'.live addr (h.live addr hlive)
  absent addr habsent := h'.absent addr (h.absent addr habsent)
  object addr obj hobj := by
    obtain ⟨obj', hobj', hgood⟩ := h.object addr obj hobj
    obtain ⟨obj'', hobj'', hgood'⟩ := h'.object addr obj' hobj'
    exact ⟨obj'', hobj'', hgood.trans (hgood'.congr h.ctx.symm)⟩

end Db.AsGood

/-! ## Undoing a change -/

namespace Db

open Journaled (Undoes)

variable {w : World} {events : List Event} {processed counter : Nat} {journal : List JournalEntry}

theorem live_set {other : Address} (h : db.stateObjects other ≠ none) :
    (db.setStateObject addr obj).stateObjects other ≠ none := by
  by_cases heq : other = addr
  · subst heq
    simp [setStateObject]
  · simpa [setStateObject, Function.update_of_ne heq] using h

theorem AsGood.update {g : StateObject → StateObject} (hget : db.getStateObject addr = some obj)
    (hg : ∀ p, obj'.AsGood lenient db addr p → obj.AsGood lenient db addr (g p))
    (h : (db.setStateObject addr obj').AsGood lenient t) :
    ∃ t', t.updateObject addr g = some t' ∧ db.AsGood lenient t' := by
  obtain ⟨p, hp, hgood⟩ := h.object addr obj' getStateObject_set_self
  refine ⟨t.setStateObject addr (g p), by simp only [updateObject, hp, Option.map_some], ?_⟩
  refine ⟨h.ctx, h.cache, h.events, h.processedEventsCount, h.transientStorage, h.refund, h.logs,
    h.accessList, fun other hlive => live_set (h.live other (live_set hlive)), ?_, ?_⟩
  · intro other habsent
    have hne : other ≠ addr := by
      rintro rfl
      rw [hget] at habsent
      cases habsent
    rw [getStateObject_set_of_ne hne]
    exact h.absent other (by rwa [getStateObject_set_of_ne hne])
  · intro other o ho
    by_cases hne : other = addr
    · subst hne
      rw [hget] at ho
      cases ho
      exact ⟨g p, getStateObject_set_self, hg p (hgood.congr rfl)⟩
    · obtain ⟨q, hq, hgood'⟩ := h.object other o (by rwa [getStateObject_set_of_ne hne])
      exact ⟨q, by rwa [getStateObject_set_of_ne hne], hgood'.congr rfl⟩

/-- A dirty code is what is read, also where it is nil. -/
def CodeSettled (db : Db) (obj : StateObject) : Prop := obj.dirtyCode = true → db.code obj = obj.code

theorem objectChange_undoes (hget : db.getStateObject addr = some obj)
    (h : ObjectChange db addr obj obj' e) (hcode : db.CodeSettled obj)
    (hdestroyed : e = .selfDestruct addr → lenient ∨ obj.selfDestructed = false) :
    Undoes (AsGood lenient) undo [e] (db.setStateObject addr obj') db := by
  refine Undoes.single fun t ht => ?_
  cases h with
  | balance amount | nonce nonce =>
    refine AsGood.update hget (fun p hp => ?_) ht
    refine ⟨by rw [hp.account], hp.newContract, hp.selfDestructed, hp.readCode, hp.code, hp.storage⟩
  | code code =>
    refine AsGood.update hget (fun p hp => ?_) ht
    refine ⟨by simp only [hp.account], hp.newContract, hp.selfDestructed, ?_, ?_, hp.storage⟩
    · -- a nil code is read from the context again
      cases hread : db.code obj with
      | some c => rfl
      | none =>
        have hnil : obj.code = none := by
          cases hobj : obj.code with
          | none => rfl
          | some c =>
            rw [Db.code, hobj] at hread
            cases hread
        rw [Db.code, hnil] at hread
        exact hread
    · cases hdirty : obj.dirtyCode with
      | true => exact .inl ⟨rfl, hcode hdirty⟩
      | false => exact .inr ⟨rfl, rfl, rfl⟩
  | storage key value =>
    refine AsGood.update hget (fun p hp => ?_) ht
    refine ⟨hp.account, hp.newContract, hp.selfDestructed, hp.readCode, hp.code, fun k => ?_⟩
    by_cases hk : k = key
    · subst hk
      cases hdirty : obj.dirtyStorage k with
      | none => exact .inr ⟨rfl, by simp [objState, hdirty]⟩
      | some v => exact .inl (by simp [objState, hdirty])
    · simpa only [Function.update_of_ne hk] using hp.storage k
  | selfDestruct =>
    have hundo : undo (.selfDestruct addr) t
        = t.updateObject addr fun obj => { obj with selfDestructed := false } := by
      obtain ⟨p, hp, -⟩ := ht.object addr _ getStateObject_set_self
      simp only [undo, updateObject, hp, Option.map_some]
    rw [hundo]
    refine AsGood.update hget (fun p hp => ?_) ht
    refine ⟨hp.account, hp.newContract, ?_, hp.readCode, hp.code, hp.storage⟩
    rcases hdestroyed rfl with hlenient | hfalse
    · exact .inr ⟨hlenient, rfl⟩
    · exact .inl hfalse.symm
  | createContract hold =>
    refine AsGood.update hget (fun p hp => ?_) ht
    exact ⟨hp.account, hold.symm, hp.selfDestructed, hp.readCode, hp.code, hp.storage⟩

theorem createObject_undoes (habsent : db.getStateObject addr = none) :
    Undoes (AsGood lenient) undo [.createObject addr]
      (db.setStateObject addr (newObject emptyAccount)) db := by
  refine Undoes.single fun t ht => ⟨_, rfl, ?_⟩
  have hother : ∀ other, other ≠ addr →
      ({ t with stateObjects := Function.update t.stateObjects addr none } : Db).getStateObject other
        = t.getStateObject other := by
    intro other hne
    simp [getStateObject, Function.update_of_ne hne]
  refine ⟨ht.ctx, ht.cache, ht.events, ht.processedEventsCount, ht.transientStorage, ht.refund,
    ht.logs, ht.accessList, ?_, ?_, ?_⟩
  · intro other hlive
    have hne : other ≠ addr := by
      rintro rfl
      exact hlive (getStateObject_eq_none.mp habsent).1
    simpa [Function.update_of_ne hne] using ht.live other (live_set hlive)
  · intro other hnone
    by_cases hne : other = addr
    · subst hne
      refine getStateObject_eq_none.mpr ⟨Function.update_self .., ?_⟩
      rw [show t.ctx = db.ctx from ht.ctx]
      exact (getStateObject_eq_none.mp habsent).2
    · rw [hother other hne]
      exact ht.absent other (by rwa [getStateObject_set_of_ne hne])
  · intro other o ho
    have hne : other ≠ addr := by
      rintro rfl
      rw [habsent] at ho
      cases ho
    obtain ⟨q, hq, hgood⟩ := ht.object other o (by rwa [getStateObject_set_of_ne hne])
    exact ⟨q, (hother other hne).trans hq, hgood.congr rfl⟩

theorem outsideChange_undoes (h : OutsideChange db db' e) (hindexed : db.accessList.Indexed) :
    Undoes (AsGood lenient) undo [e] db' db := by
  refine Undoes.single fun t ht => ?_
  have hobject : ∀ addr obj, db.getStateObject addr = some obj →
      ∃ obj', t.getStateObject addr = some obj' ∧ obj.AsGood lenient db addr obj' := by
    intro addr obj hobj
    cases h <;> exact (ht.object addr obj hobj).imp fun _ hp => ⟨hp.1, hp.2.congr rfl⟩
  cases h with
  | transient addr key value =>
    refine ⟨_, rfl, ht.ctx, ht.cache, ht.events, ht.processedEventsCount, ?_, ht.refund, ht.logs,
      ht.accessList, ht.live, ht.absent, hobject⟩
    have hinner : Function.update (Function.update (db.transientStorage addr) key value) key
        (db.transientStorage addr key) = db.transientStorage addr := by simp
    simp only [ht.transientStorage, Function.update_self, Function.update_idem, hinner,
      Function.update_eq_self]
  | refund refund =>
    exact ⟨_, rfl, ht.ctx, ht.cache, ht.events, ht.processedEventsCount, ht.transientStorage, rfl,
      ht.logs, ht.accessList, ht.live, ht.absent, hobject⟩
  | addLog log =>
    have hlogs : t.logs = db.logs ++ [log] := ht.logs
    refine ⟨{ t with logs := t.logs.dropLast }, ?_, ht.ctx, ht.cache, ht.events,
      ht.processedEventsCount, ht.transientStorage, ht.refund, ?_, ht.accessList, ht.live, ht.absent,
      hobject⟩
    · simp [undo, hlogs]
    · simp [hlogs]
  | addAddress addr habsent =>
    refine ⟨_, rfl, ht.ctx, ht.cache, ht.events, ht.processedEventsCount, ht.transientStorage,
      ht.refund, ht.logs, ?_, ht.live, ht.absent, hobject⟩
    simp only [ht.accessList]
    exact AccessList.deleteAddress_addAddress habsent
  | addSlot addr slot hpresent hnew =>
    refine ⟨{ t with accessList := db.accessList }, ?_, ht.ctx, ht.cache, ht.events,
      ht.processedEventsCount, ht.transientStorage, ht.refund, ht.logs, rfl, ht.live, ht.absent, hobject⟩
    simp only [undo, ht.accessList, AccessList.deleteSlot_addSlot hindexed hpresent hnew,
      Option.map_some]

/-- **A change can be undone.** -/
theorem change_undoes (h : Change db db' e) (hindexed : db.accessList.Indexed)
    (hcode : ∀ addr obj, db.getStateObject addr = some obj → db.CodeSettled obj)
    (hdestroyed : ∀ addr, e = .selfDestruct addr → lenient ∨ db.hasSelfDestructed addr = false) :
    Undoes (AsGood lenient) undo [e] db' db := by
  cases h with
  | createObject addr habsent => exact createObject_undoes habsent
  | object addr hget h =>
    refine objectChange_undoes hget h (hcode _ _ hget) fun he => ?_
    refine (hdestroyed addr he).imp id fun hfalse => ?_
    simpa [hasSelfDestructed, hget] using hfalse
  | outside h => exact outsideChange_undoes h hindexed

theorem called_undoes :
    Undoes (AsGood lenient) undo [db.callEntry] (db.called w events processed counter) db := by
  refine Undoes.single fun t ht => ?_
  have hcache : t.cache.revertTo db.cache.layers.length = some db.cache := by
    rw [ht.cache]
    exact CacheStack.revertTo_snapshot ..
  refine ⟨{ t with
      cache := db.cache, events := db.events, processedEventsCount := db.processedEventsCount }, ?_,
    ht.ctx, rfl, rfl, rfl, ht.transientStorage, ht.refund, ht.logs, ht.accessList, ht.live, ht.absent,
    fun addr obj hobj => (ht.object addr obj hobj).imp fun _ hp => ⟨hp.1, hp.2.congr rfl⟩⟩
  simp only [undo, callEntry, hcache, Option.map_some]

/-! ## What every change keeps -/

/-- A state object as the changes leave it: its code is nil until it is set, and what is read once it
is. -/
structure ObjectSound (db : Db) (addr : Address) (obj : StateObject) : Prop where
  clean : obj.dirtyCode = false → obj.code = none
  settled : db.CodeSettled obj
  origin : obj.dirtyCode = false →
    obj.account.codeHash = db.ctx.getCodeHash addr ∨ obj.account.codeHash = emptyCodeHash

/-- What the undoing of changes relies on. -/
structure Sound (db : Db) (journal : List JournalEntry) : Prop where
  indexed : db.accessList.Indexed
  object : ∀ addr obj, db.getStateObject addr = some obj → db.ObjectSound addr obj
  live : ∀ e ∈ journal, ∀ addr, e.dirtied = some addr → db.stateObjects addr ≠ none

theorem ObjectSound.newObject {account : Account}
    (h : account.codeHash = db.ctx.getCodeHash addr ∨ account.codeHash = emptyCodeHash) :
    db.ObjectSound addr (newObject account) :=
  ⟨fun _ => rfl, fun h => absurd h Bool.false_ne_true, fun _ => h⟩

theorem sound_new {ctx : World} : (new ctx events).Sound [] := by
  refine ⟨fun addr idx h => (by cases h), fun addr obj hobj => ?_, fun e he => (by cases he)⟩
  obtain ⟨account, haccount, rfl⟩ := Option.map_eq_some_iff.mp hobj
  obtain ⟨acct, -, rfl⟩ := Option.map_eq_some_iff.mp haccount
  exact .newObject (.inl rfl)

theorem ObjectSound.change (hobj : db.ObjectSound addr obj) (h : ObjectChange db addr obj obj' e) :
    db.ObjectSound addr obj' := by
  cases h with
  | code code =>
    refine ⟨fun h => (by cases h), fun _ => ?_, fun h => (by cases h)⟩
    cases code with
    | some c => rfl
    | none => simp [Db.code, emptyCodeHash]
  | _ => exact ⟨hobj.clean, hobj.settled, hobj.origin⟩

theorem ObjectSound.asGood (h : db.ObjectSound addr obj) (hgood : obj.AsGood lenient db addr obj') :
    db.ObjectSound addr obj' := by
  rcases hgood.code with ⟨hdirty, hcode⟩ | ⟨-, hdirty, hcode⟩
  · refine ⟨fun hc => ?_, fun hd => ?_, fun hc => ?_⟩
    · rw [hcode]
      exact h.clean (hdirty ▸ hc)
    · rw [hgood.readCode, hcode]
      exact h.settled (hdirty ▸ hd)
    · rw [hgood.account]
      exact h.origin (hdirty ▸ hc)
  · refine ⟨fun hc => ?_, fun _ => hgood.readCode.trans hcode.symm, fun hc => ?_⟩ <;>
      · rw [hdirty] at hc
        cases hc

theorem ObjectSound.congr (h : db.ObjectSound addr obj) (hctx : db'.ctx = db.ctx) :
    db'.ObjectSound addr obj := by
  have hcode : db'.code obj = db.code obj := by simp only [Db.code, hctx]
  exact ⟨h.clean, fun hd => hcode.trans (h.settled hd), by rw [hctx]; exact h.origin⟩

theorem Sound.set (h : db.Sound journal) (hobj : db.ObjectSound addr obj)
    (he : ∀ other, e.dirtied = some other → other = addr) :
    (db.setStateObject addr obj).Sound (e :: journal) where
  indexed := h.indexed
  object other o ho := by
    obtain ⟨rfl, rfl⟩ | ⟨-, ho⟩ := getStateObject_of_set ho
    · exact hobj.congr rfl
    · exact (h.object other o ho).congr rfl
  live := by
    refine List.forall_mem_cons.mpr ⟨fun other hother => ?_, fun e he other hother =>
      live_set (h.live e he other hother)⟩
    rw [he other hother]
    simp [setStateObject]

/-- **Every change keeps what undoing relies on.** -/
theorem Sound.change (h : db.Sound journal) (hchange : Change db db' e) :
    db'.Sound (e :: journal) := by
  cases hchange with
  | createObject addr habsent => exact h.set (.newObject (.inr rfl)) fun other ho => by cases ho; rfl
  | object addr hget hobj =>
    refine h.set ((h.object addr _ hget).change hobj) fun other ho => ?_
    cases hobj <;> cases ho <;> rfl
  | outside hout =>
    have hlive : ∀ e' ∈ e :: journal, ∀ addr, e'.dirtied = some addr → db.stateObjects addr ≠ none := by
      refine List.forall_mem_cons.mpr ⟨fun other ho => ?_, h.live⟩
      cases hout <;> cases ho
    have hobject : ∀ addr obj, db.getStateObject addr = some obj → db.ObjectSound addr obj := h.object
    cases hout with
    | addAddress addr habsent =>
      exact ⟨h.indexed.addAddress, fun a o ho => (hobject a o ho).congr rfl, hlive⟩
    | addSlot addr slot hpresent hnew =>
      exact ⟨h.indexed.addSlot, fun a o ho => (hobject a o ho).congr rfl, hlive⟩
    | _ => exact ⟨h.indexed, fun a o ho => (hobject a o ho).congr rfl, hlive⟩

theorem Sound.asGood (h : db.Sound journal) (hgood : db.AsGood lenient t) : t.Sound journal where
  indexed := hgood.accessList ▸ h.indexed
  object addr obj' hobj' := by
    obtain ⟨obj, hobj, hgood'⟩ := hgood.object_back hobj'
    exact ((h.object addr obj hobj).asGood hgood').congr hgood.ctx
  live e he addr haddr := hgood.live addr (h.live e he addr haddr)

theorem Sound.called (h : db.Sound journal) :
    (db.called w events processed counter).Sound (db.callEntry :: journal) where
  indexed := h.indexed
  object addr obj hobj := (h.object addr obj hobj).congr rfl
  live := List.forall_mem_cons.mpr ⟨fun _ haddr => (by cases haddr), h.live⟩

/-- **Changes can be undone**, and keep what every one of them keeps. -/
theorem Changes.undoes {P : Db → Db → JournalEntry → Prop} {I : Db → List JournalEntry → Prop}
    (hdestroyed : ∀ db db' addr, P db db' (.selfDestruct addr) →
      lenient ∨ db.hasSelfDestructed addr = false)
    (hI : ∀ db journal db' e, db.Sound journal → I db journal → Change db db' e → P db db' e →
      I db' (e :: journal))
    (h : Changes P db db' es) (hsound : db.Sound journal) (hdb : I db journal) :
    (db'.Sound (es ++ journal) ∧ I db' (es ++ journal))
      ∧ Undoes (AsGood lenient) undo es db' db := by
  induction h with
  | nil => exact ⟨⟨hsound, hdb⟩, Undoes.nil fun _ ht => ht⟩
  | snoc _ hchange hP ih =>
    obtain ⟨⟨hsound', hdb'⟩, hundoes⟩ := ih
    refine ⟨⟨hsound'.change hchange, hI _ _ _ _ hsound' hdb' hchange hP⟩, ?_⟩
    have hlast : Undoes (AsGood lenient) undo _ _ _ := change_undoes hchange hsound'.indexed
      (fun addr obj hobj => (hsound'.object addr obj hobj).settled)
      fun addr he => hdestroyed _ _ addr (he ▸ hP)
    exact hlast.append hundoes

end Db

end Vm
