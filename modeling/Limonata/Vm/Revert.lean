import Limonata.Vm.Commit

/-!
# x/vm — a revert is exact

The runs of a database are operations of the EVM, native actions, snapshots and reverts. A revert to a
snapshot makes the database read as it did when the snapshot was taken, and what a commit then persists
is what it would have persisted there, if

* no account is destroyed that is destroyed already: the undo of the second destruction clears the mark
  of the first;
* native actions leave the storage and the codes of x/vm alone: a storage key that was written and
  reverted stays dirty, so a commit writes its old value over what the action left;
* no account with a stored code is destroyed.
-/

namespace Vm

open EncMempool (Bytes)

/-- What is done with a database between snapshots and reverts. -/
inductive Action where
  | op (op : Op)
  | native (call : NativeCall)

namespace Action

/-- The database after an action and the entries it appended; `none` is a panic. -/
def run (blocked : Address → Bool) (db : Db) (journal : List JournalEntry) : Action → Db.Effect
  | .op o => o.apply db
  | .native call => (db.runNativeAction blocked journal call).map fun (db, es, _) => (db, es)

/-- `CreateAccount` is for an account that is not there. -/
def Issued (db : Db) : Action → Prop
  | .op o => db.Fresh o
  | .native _ => True

/-- The actions that a revert can take back exactly. -/
def Undoable (db : Db) : Action → Prop
  | .op (.selfDestruct addr) =>
    db.hasSelfDestructed addr = false ∧ db.ctx.getCodeHash addr = emptyCodeHash
  | .op _ => True
  | .native call => ∀ w, (call.action w).1.code = w.code ∧ (call.action w).1.storage = w.storage

end Action

namespace Db

/-- Actions with a property. -/
def Acts (blocked : Address → Bool) (allow : Db → Action → Prop) (db : Db)
    (journal : List JournalEntry) (_ : Unit) (db' : Db) (es : List JournalEntry) (_ : Unit) : Prop :=
  ∃ action, allow db action ∧ action.run blocked db journal = some (db', es)

abbrev Runs (blocked : Address → Bool) (allow : Db → Action → Prop) :
    StateDB Unit → StateDB Unit → Prop :=
  Journaled.Runs undo (Acts blocked allow)

/-! ## What can be observed -/

/-- All observations of the two databases are the same. -/
structure SameView (db t : Db) : Prop where
  getBalance : ∀ addr, t.getBalance addr = db.getBalance addr
  getNonce : ∀ addr, t.getNonce addr = db.getNonce addr
  getCode : ∀ addr, t.getCode addr = db.getCode addr
  getState : ∀ addr key, t.getState addr key = db.getState addr key
  getTransientState : t.transientStorage = db.transientStorage
  getRefund : t.refund = db.refund
  logs : t.logs = db.logs
  addressInAccessList : ∀ addr, t.accessList.containsAddress addr = db.accessList.containsAddress addr
  slotInAccessList : ∀ addr slot, t.accessList.contains addr slot = db.accessList.contains addr slot
  hasSelfDestructed : ∀ addr, t.hasSelfDestructed addr = db.hasSelfDestructed addr
  isNewContract : ∀ addr, t.isNewContract addr = db.isNewContract addr
  cacheCtx : t.cache.current = db.cache.current
  events : t.events = db.events
  processedEventsCount : t.processedEventsCount = db.processedEventsCount

/-- Two commits end alike, and what they persist reads the same. -/
def SameCommit (blocked : Address → Bool) (s t : StateDB Unit) : Prop :=
  ∃ w w' ok, s.state.commit blocked s.journal = some (w, ok)
    ∧ t.state.commit blocked t.journal = some (w', ok)
    ∧ (∀ addr, w'.getAccount addr = w.getAccount addr)
    ∧ (∀ hash, w'.getCode hash = w.getCode hash)
    ∧ ∀ addr key, w'.getState addr key = w.getState addr key

variable {blocked : Address → Bool} {db db' t : Db} {addr : Address} {obj obj' : StateObject}
  {e : JournalEntry} {journal es : List JournalEntry}

theorem objState_asGood (hgood : obj.AsGood False db addr obj') (hctx : t.ctx = db.ctx) (key : Word) :
    t.objState addr obj' key = db.objState addr obj key := by
  unfold objState
  rw [hctx]
  rcases hgood.storage key with heq | ⟨hnone, hsome⟩
  · rw [heq]
  · rw [hnone, hsome, Option.getD_some, Option.getD_none]

theorem AsGood.sameView (h : db.AsGood False t) : db.SameView t := by
  -- every reading of an object is of the object that stands for it
  have hread : ∀ {α : Type} (f g : StateObject → α) (addr : Address),
      (∀ obj obj', obj.AsGood False db addr obj' → g obj' = f obj) →
      (t.getStateObject addr).map g = (db.getStateObject addr).map f := by
    intro α f g addr hfg
    cases hobj : db.getStateObject addr with
    | none => rw [h.absent addr hobj, Option.map_none, Option.map_none]
    | some obj =>
      obtain ⟨p, hp, hgood⟩ := h.object addr obj hobj
      rw [hp, Option.map_some, Option.map_some, hfg obj p hgood]
  refine ⟨fun addr => ?_, fun addr => ?_, fun addr => ?_, fun addr key => ?_, h.transientStorage,
    h.refund, h.logs, fun addr => by rw [h.accessList], fun addr slot => by rw [h.accessList],
    fun addr => ?_, fun addr => ?_, by rw [h.cache], h.events, h.processedEventsCount⟩
  · unfold getBalance
    rw [hread (fun obj => obj.account.balance) _ addr fun _ _ hgood => by rw [hgood.account]]
  · unfold getNonce
    rw [hread (fun obj => obj.account.nonce) _ addr fun _ _ hgood => by rw [hgood.account]]
  · have hcode : ∀ o p : StateObject, o.AsGood False db addr p → t.code p = db.code o := by
      intro o p hgood
      rw [← hgood.readCode]
      simp only [Db.code, h.ctx]
    unfold getCode
    cases hobj : db.getStateObject addr with
    | none => rw [h.absent addr hobj, Option.bind_none, Option.bind_none]
    | some obj =>
      obtain ⟨p, hp, hgood⟩ := h.object addr obj hobj
      rw [hp, Option.bind_some, Option.bind_some, hcode obj p hgood]
  · unfold getState
    rw [hread (fun obj => db.objState addr obj key) _ addr fun _ _ hgood =>
      objState_asGood hgood h.ctx key]
  · unfold hasSelfDestructed
    rw [hread StateObject.selfDestructed _ addr fun _ _ hgood => hgood.selfDestructed_eq]
  · unfold isNewContract
    rw [hread StateObject.newContract _ addr fun _ _ hgood => hgood.newContract]

/-! ## What the undoable actions keep -/

/-- The storage of `w` is that of the context, but for dirty keys and destroyed accounts. -/
def KeepsState (db : Db) (w : World) : Prop :=
  ∀ addr key, w.getState addr key ≠ db.ctx.getState addr key →
    ∃ obj, db.getStateObject addr = some obj
      ∧ (obj.dirtyStorage key ≠ none ∨ obj.selfDestructed = true)

/-- What makes the dirty part that a revert leaves harmless: a commit writes what is there. -/
structure Harmless (db : Db) : Prop where
  codeStored : db.ctx.CodeStored
  hashed : ∀ addr obj, db.getStateObject addr = some obj → Hashed obj
  cacheCode : db.ctx.KeepsCode db.cache.current
  cacheStored : db.cache.current.CodeStored
  cacheState : db.KeepsState db.cache.current
  destroyed : ∀ addr obj, db.getStateObject addr = some obj → obj.selfDestructed = true →
    db.ctx.getCodeHash addr = emptyCodeHash

/-- The restriction of the changes. -/
def DestroysNew (db _ : Db) (e : JournalEntry) : Prop :=
  ∀ addr, e = .selfDestruct addr →
    db.hasSelfDestructed addr = false ∧ db.ctx.getCodeHash addr = emptyCodeHash

theorem destroysNew_of_plain (hplain : e.plain = true) : DestroysNew db db' e := by
  rintro addr rfl
  cases hplain

theorem harmless_new {ctx : World} {events : List Event} (hctx : ctx.CodeStored) :
    (new ctx events).Harmless := by
  have hloaded : ∀ addr obj, (new ctx events).getStateObject addr = some obj →
      ∃ account, obj = newObject account := by
    intro addr obj hobj
    obtain ⟨account, -, rfl⟩ := Option.map_eq_some_iff.mp hobj
    exact ⟨account, rfl⟩
  refine ⟨hctx, fun addr obj hobj => ?_, .refl, hctx, fun addr key hne => absurd rfl hne,
    fun addr obj hobj hdestroyed => ?_⟩
  · obtain ⟨account, rfl⟩ := hloaded addr obj hobj
    exact fun hdirty => absurd hdirty Bool.false_ne_true
  · obtain ⟨account, rfl⟩ := hloaded addr obj hobj
    exact absurd hdestroyed Bool.false_ne_true

theorem Hashed.change (h : Hashed obj) (hchange : ObjectChange db addr obj obj' e) : Hashed obj' := by
  cases hchange with
  | code code =>
    rintro - c rfl
    rfl
  | _ => exact h

/-- A write of an object keeps `Harmless` if the object is hashed, nothing of it becomes clean and, if it
is destroyed, it has no stored code. -/
theorem Harmless.set (h : db.Harmless) (hhashed : Hashed obj')
    (hgrow : ∀ obj, db.getStateObject addr = some obj →
      (∀ key, obj.dirtyStorage key ≠ none → obj'.dirtyStorage key ≠ none)
        ∧ (obj.selfDestructed = true → obj'.selfDestructed = true))
    (hdestroyed : obj'.selfDestructed = true → db.ctx.getCodeHash addr = emptyCodeHash) :
    (db.setStateObject addr obj').Harmless where
  codeStored := h.codeStored
  hashed other o ho := by
    obtain ⟨rfl, rfl⟩ | ⟨-, ho⟩ := getStateObject_of_set ho
    · exact hhashed
    · exact h.hashed other o ho
  cacheCode := h.cacheCode
  cacheStored := h.cacheStored
  cacheState other key hne' := by
    obtain ⟨o, ho, hor⟩ := h.cacheState other key hne'
    by_cases hne : other = addr
    · subst hne
      obtain ⟨hdirty, hflag⟩ := hgrow o ho
      exact ⟨obj', getStateObject_set_self, hor.imp (hdirty key) hflag⟩
    · exact ⟨o, by rwa [getStateObject_set_of_ne hne], hor⟩
  destroyed other o ho hflag := by
    obtain ⟨rfl, rfl⟩ | ⟨-, ho⟩ := getStateObject_of_set ho
    · exact hdestroyed hflag
    · exact h.destroyed other o ho hflag

theorem Harmless.change (h : db.Harmless) (hchange : Change db db' e) (hP : DestroysNew db db' e) :
    db'.Harmless := by
  cases hchange with
  | createObject addr habsent =>
    refine h.set (fun hdirty => absurd hdirty Bool.false_ne_true) (fun obj hobj => ?_)
      fun hflag => absurd hflag Bool.false_ne_true
    rw [habsent] at hobj
    cases hobj
  | @object addr obj obj' _ hget hobj =>
    refine h.set ((h.hashed addr obj hget).change hobj) (fun o ho => ?_) fun hflag => ?_
    · rw [hget] at ho
      cases ho
      cases hobj with
      | storage key value =>
        refine ⟨fun k hk => ?_, id⟩
        by_cases heq : k = key
        · subst heq
          simp
        · simpa [Function.update_of_ne heq] using hk
      | selfDestruct => exact ⟨fun _ hk => hk, fun _ => rfl⟩
      | _ => exact ⟨fun _ hk => hk, id⟩
    · cases hobj with
      | selfDestruct => exact (hP addr rfl).2
      | _ => exact h.destroyed addr obj hget hflag
  | outside hout =>
    cases hout <;>
      exact ⟨h.codeStored, h.hashed, h.cacheCode, h.cacheStored, h.cacheState, h.destroyed⟩

theorem Harmless.asGood (h : db.Harmless) (hsound : db.Sound journal) (hgood : db.AsGood False t) :
    t.Harmless := by
  refine ⟨hgood.ctx ▸ h.codeStored, fun addr obj' hobj' => ?_, ?_, ?_, fun addr key hne => ?_,
    fun addr obj' hobj' hflag => ?_⟩
  · obtain ⟨obj, hobj, hgood'⟩ := hgood.object_back hobj'
    intro hdirty code hcode
    rw [hgood'.account]
    rcases hgood'.code with ⟨hd, hc⟩ | ⟨hclean, -, hc⟩
    · exact h.hashed addr obj hobj (hd ▸ hdirty) code (hc ▸ hcode)
    · -- the code was read from the context
      have hnil : obj.code = none := (hsound.object addr obj hobj).clean hclean
      rw [hc, Db.code, hnil] at hcode
      simp only at hcode
      split_ifs at hcode
      exact h.codeStored _ _ hcode
  · rw [hgood.cache, hgood.ctx]
    exact h.cacheCode
  · rw [hgood.cache]
    exact h.cacheStored
  · rw [hgood.cache, hgood.ctx] at hne
    obtain ⟨obj, hobj, hor⟩ := h.cacheState addr key hne
    obtain ⟨obj', hobj', hgood'⟩ := hgood.object addr obj hobj
    refine ⟨obj', hobj', hor.imp (fun hdirty => ?_) fun hflag => hgood'.selfDestructed_eq.trans hflag⟩
    rcases hgood'.storage key with heq | ⟨hnone, -⟩
    · rwa [heq]
    · exact absurd hnone hdirty
  · obtain ⟨obj, hobj, hgood'⟩ := hgood.object_back hobj'
    rw [hgood.ctx]
    exact h.destroyed addr obj hobj (hgood'.selfDestructed_eq.symm.trans hflag)

theorem commitObject_keepsState {w : World} (hget : db.getStateObject addr = some obj)
    (h : db.KeepsState w) : db.KeepsState (commitObject blocked w addr obj).1 := by
  intro other key hne
  by_cases heq : other = addr
  · subst heq
    cases hflag : obj.selfDestructed with
    | true => exact ⟨obj, hget, .inr hflag⟩
    | false =>
      refine ⟨obj, hget, .inl fun hclean => ?_⟩
      have hsame : w.getState other key ≠ db.ctx.getState other key := by
        unfold World.getState at hne ⊢
        rwa [commitObject_clean hflag hclean] at hne
      obtain ⟨o, ho, hor⟩ := h other key hsame
      rw [hget] at ho
      cases ho
      rcases hor with hdirty | hdestroyed
      · exact hdirty hclean
      · rw [hflag] at hdestroyed
        cases hdestroyed
  · rw [(commitObject_sameAt heq).getState] at hne
    exact h other key hne

theorem Harmless.commit {w : World} {ok : Bool} (h : db.Harmless)
    (hcommit : db.commit blocked journal = some (w, ok)) :
    db.ctx.KeepsCode w ∧ w.CodeStored ∧ db.KeepsState w := by
  refine commitWithCtx_keeps (I := fun w => db.ctx.KeepsCode w ∧ w.CodeStored ∧ db.KeepsState w) ?_
    hcommit ⟨h.cacheCode, h.cacheStored, h.cacheState⟩
  rintro addr - obj hlive w ⟨hcode, hstored, hstate⟩
  have hget : db.getStateObject addr = some obj := getStateObject_of_live hlive
  have hhashed : Hashed obj := h.hashed addr obj hget
  exact ⟨commitObject_keepsCode h.codeStored hhashed hcode, commitObject_codeStored hhashed hstored,
    commitObject_keepsState hget hstate⟩

theorem Harmless.cacheAfter {call : NativeCall} {w : World} (h : db.Harmless)
    (hcall : (Action.native call).Undoable db) (hw : CacheAfter blocked db journal call w) :
    db.ctx.KeepsCode w ∧ w.CodeStored ∧ db.KeepsState w := by
  cases hw with
  | limit => exact ⟨h.cacheCode, h.cacheStored, h.cacheState⟩
  | flush hflush => exact h.commit hflush
  | action hflush =>
    obtain ⟨hcode, hstored, hstate⟩ := h.commit hflush
    obtain ⟨hsameCode, hsameStorage⟩ := hcall _
    unfold World.KeepsCode World.CodeStored KeepsState World.getState
    rw [hsameCode, hsameStorage]
    exact ⟨hcode, hstored, hstate⟩

open Journaled (Undoes)

theorem changes_spec (h : Changes DestroysNew db db' es) (hsound : db.Sound journal)
    (hharmless : db.Harmless) :
    (db'.Sound (es ++ journal) ∧ db'.Harmless) ∧ Undoes (AsGood False) undo es db' db :=
  h.undoes (I := fun db _ => db.Harmless) (fun _ _ addr hP => .inr (hP addr rfl).1)
    (fun _ _ _ _ _ hI hchange hP => hI.change hchange hP) hsound hharmless

theorem action_spec {action : Action} (hissued : action.Issued db) (hundoable : action.Undoable db)
    (hrun : action.run blocked db journal = some (db', es)) (hsound : db.Sound journal)
    (hharmless : db.Harmless) :
    (db'.Sound (es ++ journal) ∧ db'.Harmless) ∧ Undoes (AsGood False) undo es db' db := by
  have hplain : ∀ addr, PlainAt DestroysNew addr :=
    PlainAt.of_all fun _ _ _ h => destroysNew_of_plain h
  have hbalance : ∀ addr, BalanceAt DestroysNew addr := by
    rintro addr db obj amount - other heq
    cases heq
  cases action with
  | op o =>
    refine changes_spec (op_changes (hplain _) (fun addr _ => hbalance addr) hissued ?_ ?_ ?_ hrun) hsound hharmless
    · rintro addr code rfl db₁ obj - - other heq
      cases heq
    · rintro addr rfl obj - other heq
      cases heq
    · rintro addr rfl obj - other heq
      cases heq
      exact hundoable
  | native call =>
    obtain ⟨⟨db₁, es₁, ok⟩, hcall, heq⟩ := Option.map_eq_some_iff.mp hrun
    cases heq
    obtain ⟨w, events, processed, counter, fs, rfl, hcache, hmirror⟩ := runNativeAction_cases hcall
    obtain ⟨hcode, hstored, hstate⟩ := hharmless.cacheAfter hundoable hcache
    have hcalled : (db.called w events processed counter).Harmless :=
      ⟨hharmless.codeStored, hharmless.hashed, hcode, hstored, hstate, hharmless.destroyed⟩
    -- the replay of the events is undone first, then the call
    have hreplay : Changes DestroysNew (db.called w events processed counter) db' fs := by
      rcases hmirror with ⟨rfl, rfl⟩ | hmirror
      · exact .nil
      · exact mirrorFrom_changes (fun addr => hplain addr) hbalance hmirror
    obtain ⟨hinv, hundoes⟩ := changes_spec hreplay hsound.called hcalled
    rw [List.append_assoc]
    exact ⟨hinv, hundoes.append called_undoes⟩

theorem undoable_discipline : Journaled.Discipline (AsGood False) undo
    (fun db journal (_ : Unit) => db.Sound journal ∧ db.Harmless)
    (Acts blocked fun db action => action.Issued db ∧ action.Undoable db) where
  refl := AsGood.refl
  trans _ _ _ := AsGood.trans
  replace _ _ _ _ hgood h := ⟨h.1.asGood hgood, h.2.asGood h.1 hgood⟩
  keep := by
    rintro db journal - db' es - ⟨hsound, hharmless⟩ ⟨action, ⟨hissued, hundoable⟩, hrun⟩
    exact (action_spec hissued hundoable hrun hsound hharmless).1
  undoes := by
    rintro db journal - db' es - ⟨hsound, hharmless⟩ ⟨action, ⟨hissued, hundoable⟩, hrun⟩
    exact (action_spec hissued hundoable hrun hsound hharmless).2

end Db

/-! ## What a commit of the reverted database persists -/

namespace World

variable {w w' : World} {addr : Address} {blocked : Address → Bool} {account : Account}

/-- `w'` differs from `w` in storage keys that read the same. -/
structure ReadsAs (w w' : World) : Prop where
  storage : w' = { w with storage := w'.storage }
  getState : ∀ addr key, w'.getState addr key = w.getState addr key

theorem ReadsAs.refl : w.ReadsAs w := ⟨rfl, fun _ _ => rfl⟩

theorem ReadsAs.code (h : w.ReadsAs w') : w'.code = w.code := by rw [h.storage]

theorem ReadsAs.getAccount (h : w.ReadsAs w') (addr : Address) :
    w'.getAccount addr = w.getAccount addr := by
  rw [h.storage]
  rfl

theorem ReadsAs.setCode (h : w.ReadsAs w') (hash : CodeHash) (code : Option Bytes) :
    (w.setCode hash code).ReadsAs (w'.setCode hash code) := by
  refine ⟨?_, h.getState⟩
  rw [h.storage]
  rfl

theorem ReadsAs.setAccount (h : w.ReadsAs w') :
    (w.setAccount addr blocked account).1.ReadsAs (w'.setAccount addr blocked account).1
      ∧ (w'.setAccount addr blocked account).2 = (w.setAccount addr blocked account).2 := by
  have hspendable : w'.spendableCoin addr = w.spendableCoin addr := by
    rw [h.storage]
    rfl
  have hfull : w'.fullBalance addr account = w.fullBalance addr account := by
    rw [h.storage]
    rfl
  rw [setAccount_eq, setAccount_eq, hspendable, hfull]
  split_ifs
  · refine ⟨⟨?_, h.getState⟩, rfl⟩
    rw [h.storage]
    rfl
  · refine ⟨⟨?_, h.getState⟩, rfl⟩
    rw [h.storage]
    rfl

theorem ReadsAs.deleteAccount (h : w.ReadsAs w') :
    (w.deleteAccount addr blocked).1.ReadsAs (w'.deleteAccount addr blocked).1
      ∧ (w'.deleteAccount addr blocked).2 = (w.deleteAccount addr blocked).2 := by
  have hauth : w'.auth addr = w.auth addr := by rw [h.storage]
  have hcontract : w'.isContract addr = w.isContract addr := by
    rw [h.storage]
    rfl
  rw [deleteAccount_eq, deleteAccount_eq, hauth, hcontract]
  split_ifs
  · exact ⟨h, rfl⟩
  · exact ⟨h, rfl⟩
  · refine ⟨⟨?_, fun other key => ?_⟩, rfl⟩
    · rw [h.storage]
      rfl
    · unfold World.getState removeAccount
      by_cases heq : other = addr
      · subst heq
        simp
      · simp only [Function.update_of_ne heq]
        exact h.getState other key

end World

namespace Db

variable {blocked : Address → Bool} {db t : Db} {w w' : World} {addr : Address}
  {obj obj' : StateObject} {journal : List JournalEntry}

theorem andThen_readsAs {r r' : World × Bool} {f g : World → World × Bool}
    (hr : r.1.ReadsAs r'.1 ∧ r'.2 = r.2)
    (hf : ∀ w w', r = (w, true) → w.ReadsAs w' → (f w).1.ReadsAs (g w').1 ∧ (g w').2 = (f w).2) :
    (andThen r f).1.ReadsAs (andThen r' g).1 ∧ (andThen r' g).2 = (andThen r f).2 := by
  unfold andThen
  rw [hr.2]
  split_ifs with hok
  · exact hf _ _ (by rw [← hok]) hr.1
  · exact ⟨hr.1, rfl⟩

theorem commitCode_readsAs (hgood : obj.AsGood False db addr obj') (hsound : db.ObjectSound addr obj)
    (hstored : db.ctx.CodeStored) (hcode : db.ctx.KeepsCode w) (hw : w.ReadsAs w') :
    (commitCode w obj).ReadsAs (commitCode w' obj') := by
  rcases hgood.code with ⟨hdirty, hsame⟩ | ⟨hclean, hdirty, hread⟩
  · unfold commitCode
    rw [hdirty, hsame, hgood.account]
    split
    · exact hw.setCode ..
    · exact hw.setCode ..
    · exact hw
  · have hobj : commitCode w obj = w := by
      unfold commitCode
      rw [hclean]
    rw [hobj]
    cases hcode' : obj'.code with
    | none =>
      unfold commitCode
      rw [hcode', hdirty]
      exact hw
    | some code =>
      have hnil : obj.code = none := hsound.clean hclean
      rw [hcode', Db.code, hnil] at hread
      simp only at hread
      split_ifs at hread with hempty
      have hstore : db.ctx.code obj.account.codeHash = some code := hread.symm
      have hpresent : w'.code obj.account.codeHash = some code := by
        rw [hw.code]
        exact hcode _ _ hstore hempty
      have hnonempty : code ≠ [] := by
        rintro rfl
        exact hempty (hstored _ _ hstore)
      have hsame : commitCode w' obj' = w' := by
        unfold commitCode
        rw [hdirty, hcode', hgood.account]
        cases code with
        | nil => exact absurd rfl hnonempty
        | cons byte rest =>
          simp only [World.setCode]
          rw [Function.update_eq_self_iff.mpr hpresent.symm]
      rw [hsame]
      exact hw

theorem writeStorage_readsAs (hgood : obj.AsGood False db addr obj')
    (hstate : ∀ key, obj.dirtyStorage key = none → w.getState addr key = db.ctx.getState addr key)
    (hw : w.ReadsAs w') :
    (writeStorage w addr obj.dirtyStorage).ReadsAs (writeStorage w' addr obj'.dirtyStorage) := by
  refine ⟨?_, fun other key => ?_⟩
  · rw [hw.storage]
    rfl
  · unfold World.getState writeStorage
    by_cases heq : other = addr
    · subst heq
      simp only [Function.update_self]
      rcases hgood.storage key with hsame | ⟨hnone, hsome⟩
      · rw [hsame]
        cases obj.dirtyStorage key with
        | some value => rfl
        | none => exact hw.getState other key
      · rw [hsome, hnone]
        exact (hstate key hnone).symm
    · simp only [Function.update_of_ne heq]
      exact hw.getState other key

variable (blocked) in
/-- **One account**: the commit of an object and of one that stands for it read the same. -/
theorem commitObject_readsAs (hgood : obj.AsGood False db addr obj')
    (hsound : db.ObjectSound addr obj) (hstored : db.ctx.CodeStored) (hcode : db.ctx.KeepsCode w)
    (hstate : obj.selfDestructed = false →
      ∀ key, obj.dirtyStorage key = none → w.getState addr key = db.ctx.getState addr key)
    (hdestroyed : obj.selfDestructed = true → db.ctx.getCodeHash addr = emptyCodeHash)
    (hw : w.ReadsAs w') :
    (commitObject blocked w addr obj).1.ReadsAs (commitObject blocked w' addr obj').1
      ∧ (commitObject blocked w' addr obj').2 = (commitObject blocked w addr obj).2 := by
  have hset : ((commitCode w obj).setAccount addr blocked obj.account).1.ReadsAs
        ((commitCode w' obj').setAccount addr blocked obj'.account).1
      ∧ ((commitCode w' obj').setAccount addr blocked obj'.account).2
        = ((commitCode w obj).setAccount addr blocked obj.account).2 := by
    rw [hgood.account]
    exact (commitCode_readsAs hgood hsound hstored hcode hw).setAccount
  unfold commitObject
  rw [hgood.selfDestructed_eq]
  cases hflag : obj.selfDestructed with
  | true =>
    -- a destroyed account has no stored code, so a clean one has none
    have hsame : (obj'.dirtyCode = true ∧ obj'.code.getD [] ≠ [])
        ↔ (obj.dirtyCode = true ∧ obj.code.getD [] ≠ []) := by
      rcases hgood.code with ⟨hdirty, hcode'⟩ | ⟨hclean, -, hread⟩
      · rw [hdirty, hcode']
      · have hempty : obj.account.codeHash = emptyCodeHash := by
          rcases hsound.origin hclean with horigin | hempty
          · exact horigin.trans (hdestroyed hflag)
          · exact hempty
        have hnone : obj'.code = none := by
          rw [hread, Db.code, hsound.clean hclean]
          simp [hempty]
        simp [hnone, hclean]
    simp only [if_true, hsame]
    split_ifs
    · exact andThen_readsAs hset fun w w' _ h => h.deleteAccount
    · exact hw.deleteAccount
  | false =>
    simp only [Bool.false_eq_true, if_false]
    refine andThen_readsAs hset fun w₁ w₁' heq h => ⟨writeStorage_readsAs hgood ?_ h, rfl⟩
    intro key hclean
    rw [← hstate hflag key hclean]
    have hstorage : w₁.storage = w.storage := by
      have hfst := congrArg (fun r : World × Bool => r.1.storage) heq
      simpa using hfst.symm
    unfold World.getState
    rw [hstorage]

variable (blocked) in
/-- **All accounts.** Commits of a database and of one that stands for it read the same. -/
theorem commitWithCtx_readsAs (hsound : db.Sound journal) (hharmless : db.Harmless)
    (hgood : db.AsGood False t) {addrs : List Address} (hnodup : addrs.Nodup)
    (hlive : ∀ addr ∈ addrs, db.stateObjects addr ≠ none) (hcode : db.ctx.KeepsCode w)
    (hstate : ∀ addr ∈ addrs, ∀ obj, db.getStateObject addr = some obj → obj.selfDestructed = false →
      ∀ key, obj.dirtyStorage key = none → w.getState addr key = db.ctx.getState addr key)
    (hw : w.ReadsAs w') :
    ∃ v v' ok, commitWithCtx blocked db.stateObjects addrs w = some (v, ok)
      ∧ commitWithCtx blocked t.stateObjects addrs w' = some (v', ok) ∧ v.ReadsAs v' := by
  induction addrs generalizing w w' with
  | nil => exact ⟨w, w', true, rfl, rfl, hw⟩
  | cons addr rest ih =>
    obtain ⟨hnotin, hnodup⟩ := List.nodup_cons.mp hnodup
    obtain ⟨obj, hobj⟩ := Option.ne_none_iff_exists'.mp (hlive addr List.mem_cons_self)
    obtain ⟨obj', hobj'⟩ := Option.ne_none_iff_exists'.mp
      (hgood.live addr (hlive addr List.mem_cons_self))
    have hget : db.getStateObject addr = some obj := getStateObject_of_live hobj
    have hobjgood : obj.AsGood False db addr obj' := by
      obtain ⟨p, hp, hpgood⟩ := hgood.object addr obj hget
      rw [getStateObject_of_live hobj'] at hp
      cases hp
      exact hpgood
    obtain ⟨hfirst, hok⟩ := commitObject_readsAs blocked hobjgood
      (hsound.object addr obj hget) hharmless.codeStored hcode
      (hstate addr List.mem_cons_self obj hget) (hharmless.destroyed addr obj hget) hw
    unfold commitWithCtx
    rw [hobj, hobj', Option.bind_some, Option.bind_some]
    simp only [hok]
    split_ifs
    · refine ih hnodup (fun a ha => hlive a (List.mem_cons_of_mem _ ha))
        (commitObject_keepsCode hharmless.codeStored (hharmless.hashed addr obj hget) hcode) ?_ hfirst
      intro a ha o ho hflag key hclean
      have hne : a ≠ addr := fun heq => hnotin (heq ▸ ha)
      rw [(commitObject_sameAt hne).getState]
      exact hstate a (List.mem_cons_of_mem _ ha) o ho hflag key hclean
    · exact ⟨_, _, false, rfl, rfl, hfirst⟩

theorem AsGood.sameCommit {s u : StateDB Unit} (hsound : s.state.Sound s.journal)
    (hharmless : s.state.Harmless) (hgood : s.state.AsGood False u.state)
    (hjournal : u.journal = s.journal) : SameCommit blocked s u := by
  have hlive : ∀ addr ∈ sortedDirties s.journal, s.state.stateObjects addr ≠ none := by
    intro addr haddr
    obtain ⟨e, he, hdirtied⟩ := mem_sortedDirties.mp haddr
    exact hsound.live e he addr hdirtied
  have hstate : ∀ addr ∈ sortedDirties s.journal, ∀ obj, s.state.getStateObject addr = some obj →
      obj.selfDestructed = false → ∀ key, obj.dirtyStorage key = none →
      s.state.cache.current.getState addr key = s.state.ctx.getState addr key := by
    intro addr _ obj hobj hflag key hclean
    by_contra hne
    obtain ⟨o, ho, hor⟩ := hharmless.cacheState addr key hne
    rw [hobj] at ho
    cases ho
    rcases hor with hdirty | hdestroyed
    · exact hdirty hclean
    · rw [hflag] at hdestroyed
      cases hdestroyed
  obtain ⟨w, w', ok, hw, hw', hreads⟩ := commitWithCtx_readsAs blocked hsound hharmless hgood
    (nodup_sortedDirties _) hlive hharmless.cacheCode hstate .refl
  refine ⟨w, w', ok, hw, ?_, hreads.getAccount, fun hash => ?_, hreads.getState⟩
  · unfold commit
    rw [hjournal, hgood.cache]
    exact hw'
  · unfold World.getCode
    rw [hreads.code]

/-! ## Reverts -/

/-- **A revert is exact.** From a database over a context, by actions that a revert can take back, let a
snapshot be taken of `base` and let it still be valid in `s`. The revert to it succeeds, all observations
are those of `base`, and so is what a commit persists. -/
theorem revertToSnapshot_exact {ctx : World} {events : List Event} (hctx : ctx.CodeStored)
    {base s : StateDB Unit}
    (hbase : Runs blocked (fun db action => action.Issued db ∧ action.Undoable db)
      (start ctx events) base)
    (hrun : Runs blocked (fun db action => action.Issued db ∧ action.Undoable db) base.snapshot s)
    (hvalid : ∃ r ∈ s.validRevisions, r.id = base.nextRevisionID) :
    ∃ t, s.revert undo base.nextRevisionID = some t ∧ base.state.SameView t.state
      ∧ SameCommit blocked base t := by
  have hinit : (new ctx events).Sound [] ∧ (new ctx events).Harmless := ⟨sound_new, harmless_new hctx⟩
  obtain ⟨hsound, hharmless⟩ := undoable_discipline.invariant rfl hinit hbase
  obtain ⟨t, ht, hgood, hjournal, -, -⟩ := undoable_discipline.revert_exact ⟨hsound, hharmless⟩
    (undoable_discipline.marked rfl hinit hbase) (undoable_discipline.trail_of_runs rfl hinit hbase).1 hrun
    hvalid
  exact ⟨t, ht, hgood.sameView, hgood.sameCommit hsound hharmless hjournal⟩

/-! ## Runs on a blank context -/

/-- A context without accounts. -/
def blank : World :=
  ⟨fun _ => none, fun _ => 0, 0, fun _ => none, fun _ => none, fun _ _ => none, fun _ => none⟩

/-- What an action leaves; nothing if it panics. -/
def after (s : StateDB Unit) (action : Action) : StateDB Unit :=
  match action.run (fun _ => false) s.state s.journal with
  | none => s
  | some (db, es) => { s with state := db, journal := es ++ s.journal }

theorem runs_after {allow : Db → Action → Prop} {s₀ s : StateDB Unit} (action : Action)
    (h : Runs (fun _ => false) allow s₀ s) (hallow : allow s.state action)
    (hsome : (action.run (fun _ => false) s.state s.journal).isSome = true) :
    Runs (fun _ => false) allow s₀ (after s action) := by
  obtain ⟨⟨db, es⟩, hrun⟩ := Option.isSome_iff_exists.mp hsome
  have hafter : after s action = { s with state := db, journal := es ++ s.journal } := by
    unfold after
    rw [hrun]
  rw [hafter]
  exact h.tail (.act ⟨action, hallow, hrun⟩)

/-- A contract deployed at address 1, as the EVM does it. -/
def deployed : StateDB Unit :=
  after (after (start blank []) (.op (.createAccount 1))) (.op (.createContract 1))

theorem runs_deployed {allow : Db → Action → Prop}
    (hallow : ∀ db action, (∀ addr, action ≠ .op (.selfDestruct addr)) → (∀ call, action ≠ .native call) →
      action.Issued db → allow db action) :
    Runs (fun _ => false) allow (start blank []) deployed := by
  refine runs_after _ (runs_after _ .refl (hallow _ _ nofun nofun ?_) rfl)
    (hallow _ _ nofun nofun ?_) rfl
  · rintro addr heq
    cases heq
    rfl
  · rintro addr heq
    cases heq

/-- The contract is destroyed by a call that is reverted. -/
theorem revertToSnapshot_exact_destroyed :
    ∃ t, (after deployed.snapshot (.op (.selfDestruct 1))).revert undo 0 = some t
      ∧ deployed.state.SameView t.state ∧ SameCommit (fun _ => false) deployed t := by
  have hctx : blank.CodeStored := fun hash code h => by cases h
  refine revertToSnapshot_exact hctx (runs_deployed fun db action hnot hnot' hissued => ⟨hissued, ?_⟩)
    (runs_after _ .refl ⟨fun addr heq => ?_, rfl, rfl⟩ rfl) ⟨_, List.mem_cons_self, rfl⟩
  · cases action with
    | native call => exact absurd rfl (hnot' call)
    | op o =>
      cases o with
      | selfDestruct addr => exact absurd rfl (hnot addr)
      | _ => trivial
  · cases heq

/-- The contract of address 1, destroyed. -/
def destroyed : StateDB Unit := after deployed (.op (.selfDestruct 1))

/-- A native action writes 7 under key 0 of the contract. -/
def written : StateDB Unit :=
  after deployed (.native ⟨false, fun w => (w.setState 1 0 (some 7), [], true)⟩)

/-- A second destruction that is reverted takes back the first, and a storage write that is reverted
overwrites what a native action left. -/
theorem revertToSnapshot_inexact :
    (Runs (fun _ => false) (fun db action => action.Issued db) (start blank []) destroyed
      ∧ ∃ s t, Runs (fun _ => false) (fun db action => action.Issued db) destroyed.snapshot s
        ∧ s.revert undo destroyed.nextRevisionID = some t
        ∧ destroyed.state.hasSelfDestructed 1 = true ∧ t.state.hasSelfDestructed 1 = false)
    ∧ (Runs (fun _ => false) (fun db action => action.Issued db) (start blank []) written
      ∧ ∃ s t, Runs (fun _ => false) (fun db action => action.Issued db) written.snapshot s
        ∧ s.revert undo written.nextRevisionID = some t
        ∧ (written.state.commit (fun _ => false) written.journal).map (fun r => r.1.getState 1 0)
          = some 7
        ∧ (t.state.commit (fun _ => false) t.journal).map (fun r => r.1.getState 1 0) = some 0) := by
  have hdeployed : Runs (fun _ => false) (fun db action => action.Issued db) (start blank []) deployed :=
    runs_deployed fun _ _ _ _ hissued => hissued
  refine ⟨⟨runs_after _ hdeployed (fun addr heq => by cases heq) rfl, _, _,
    runs_after (.op (.selfDestruct 1)) .refl (fun addr heq => by cases heq) rfl, rfl, rfl, rfl⟩,
    runs_after _ hdeployed trivial rfl, _, _,
    runs_after (.op (.setState 1 0 5)) .refl (fun addr heq => by cases heq) rfl, rfl, ?_, ?_⟩
  · decide +kernel
  · decide +kernel

end Db

end Vm
