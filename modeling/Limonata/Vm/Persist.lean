import Limonata.Vm.Commit

/-!
# x/vm — a commit persists the view

For the operations that the EVM issues in a transaction without precompile calls, `Commit` writes what
the database shows: a fresh database over the context that it leaves shows the same, and an account that
was destroyed is gone.

The one obstacle is the deletion of an account. `DeleteAccount` refuses an account that is there and has
no code, so a contract that destroys itself while it is constructed cannot be deleted if its address had
an account before: the commit fails exactly then.
-/

namespace Vm

open EncMempool (Bytes)

/-! ## Codes and their hashes -/

namespace World

variable {w w' ctx : World} {addr : Address} {hash : CodeHash} {code : Bytes}

/-- Every code is under its own hash, and every hash of an account has its code. -/
structure CodeOk (w : World) : Prop where
  stored : w.CodeStored
  held : ∀ addr hash, w.codeHash addr = some hash → hash ≠ emptyCodeHash → ∃ code, w.code hash = some code

/-- The code under a hash, which is empty for the hash of the empty code. -/
def codeAt (w : World) (hash : CodeHash) : Bytes :=
  if hash = emptyCodeHash then [] else (w.getCode hash).getD []

theorem CodeStored.getD_emptyCodeHash (h : w.CodeStored) : (w.getCode emptyCodeHash).getD [] = [] := by
  cases hcode : w.getCode emptyCodeHash with
  | none => rfl
  | some code => exact (keccak256_injective (h _ _ hcode)).symm

theorem CodeStored.codeAt_eq (h : w.CodeStored) : w.codeAt hash = (w.getCode hash).getD [] := by
  unfold codeAt
  split_ifs with hempty
  · rw [hempty, h.getD_emptyCodeHash]
  · rfl

theorem CodeOk.keccak256_codeAt (h : w.CodeOk) :
    keccak256 (w.codeAt (w.getCodeHash addr)) = w.getCodeHash addr := by
  unfold codeAt
  split_ifs with hempty
  · exact hempty.symm
  · unfold getCodeHash at hempty ⊢
    cases hhash : w.codeHash addr with
    | none => simp [hhash] at hempty
    | some hash =>
      rw [hhash, Option.getD_some] at hempty
      obtain ⟨code, hcode⟩ := h.held addr hash hhash hempty
      rw [Option.getD_some, getCode, hcode, Option.getD_some]
      exact (h.stored _ _ hcode).symm

theorem CodeOk.isContract_eq (h : w.CodeOk) :
    w.isContract addr = (w.codeAt (w.getCodeHash addr) ≠ []
      && !isDelegation (w.codeAt (w.getCodeHash addr)) : Bool) := by
  unfold isContract
  rw [h.stored.codeAt_eq]

theorem CodeOk.isContract_congr (h : w.CodeOk) (h' : w'.CodeOk)
    (hsame : w'.codeHash addr = w.codeHash addr) : w'.isContract addr = w.isContract addr := by
  have hhash : w'.getCodeHash addr = w.getCodeHash addr := by rw [getCodeHash, getCodeHash, hsame]
  have hcode : w'.codeAt (w'.getCodeHash addr) = w.codeAt (w.getCodeHash addr) :=
    keccak256_injective (h'.keccak256_codeAt.trans (hhash.trans h.keccak256_codeAt.symm))
  rw [h.isContract_eq, h'.isContract_eq, hcode]

end World

namespace Db

variable {blocked : Address → Bool} {w w' ctx : World} {addr other : Address} {obj : StateObject}

/-! ## The loop over the accounts -/

/-- **Commit rule.** If the commit of every object succeeds where an invariant holds and its account is
as in the context, keeps the invariant and leaves the account as required, so does the commit of all. -/
theorem commitWithCtx_all {objs : Address → Option StateObject} {I : World → Prop}
    {Q : Address → World → Prop} {addrs : List Address}
    (hQ : ∀ addr w w', w.SameAt w' addr → Q addr w → Q addr w')
    (hstep : ∀ addr ∈ addrs, ∃ obj, objs addr = some obj ∧ ∀ w, I w → ctx.SameAt w addr →
      (commitObject blocked w addr obj).2 = true ∧ I (commitObject blocked w addr obj).1
        ∧ Q addr (commitObject blocked w addr obj).1)
    (hnodup : addrs.Nodup) (hw : I w) (hsame : ∀ addr ∈ addrs, ctx.SameAt w addr) :
    ∃ w', commitWithCtx blocked objs addrs w = some (w', true) ∧ I w' ∧ (∀ addr ∈ addrs, Q addr w')
      ∧ ∀ addr, addr ∉ addrs → w.SameAt w' addr := by
  induction addrs generalizing w with
  | nil => exact ⟨w, rfl, hw, fun addr h => absurd h List.not_mem_nil, fun _ _ => .refl⟩
  | cons addr rest ih =>
    obtain ⟨hnotin, hnodup⟩ := List.nodup_cons.mp hnodup
    obtain ⟨obj, hobj, hcommit⟩ := hstep addr List.mem_cons_self
    obtain ⟨hok, hI, hdone⟩ := hcommit w hw (hsame addr List.mem_cons_self)
    obtain ⟨w', hrest, hI', hall, hframe⟩ := ih (fun a ha => hstep a (List.mem_cons_of_mem _ ha))
      hnodup hI fun a ha => (hsame a (List.mem_cons_of_mem _ ha)).trans
        (commitObject_sameAt fun heq => hnotin (heq ▸ ha))
    refine ⟨w', ?_, hI', List.forall_mem_cons.mpr ⟨hQ _ _ _ (hframe addr hnotin) hdone, hall⟩, ?_⟩
    · unfold commitWithCtx
      rw [hobj, Option.bind_some]
      simp only [hok, if_true]
      exact hrest
    · intro a ha
      obtain ⟨hne, hnot⟩ := not_or.mp (mt List.mem_cons.mpr ha)
      exact (commitObject_sameAt hne).trans (hframe a hnot)

/-! ## The operations of the EVM -/

/-- `GetCodeHash`; `none` is the zero hash of an account that is not there. -/
def getCodeHash (db : Db) (addr : Address) : Option CodeHash :=
  (db.getStateObject addr).map fun obj => obj.account.codeHash

/-- An operation as the EVM issues it, in a transaction without precompile calls: an account is created
if it is not there, a contract at an address without nonce, code and storage; only a contract created in
the transaction is destroyed (EIP-6780); the code of such a contract is no delegation (EIP-3541), and
other code is set where there was none or a delegation (EIP-7702). -/
def Issues (db : Db) : Op → Prop
  | .createAccount addr => db.exist addr = false
  | .createContract addr =>
    db.getNonce addr = 0 ∧ (∀ hash, db.getCodeHash addr = some hash → hash = emptyCodeHash)
      ∧ ∀ key, db.ctx.storage addr key = none
  | .selfDestruct addr => db.isNewContract addr = true
  | .setCode addr code =>
    if db.isNewContract addr then isDelegation (code.getD []) = false
    else db.getCode addr = [] ∨ isDelegation (db.getCode addr) = true
  | _ => True

def EvmActs (db : Db) (_ : List JournalEntry) (_ : Unit) (db' : Db) (es : List JournalEntry)
    (_ : Unit) : Prop := ∃ op : Op, db.Issues op ∧ op.apply db = some (db', es)

abbrev EvmRuns : StateDB Unit → StateDB Unit → Prop := Journaled.Runs undo EvmActs

/-- A fresh database over `w` shows what `db` shows, and nothing of a destroyed account. -/
def Persists (db : Db) (w : World) : Prop :=
  ∀ addr, if db.hasSelfDestructed addr then
      (new w []).exist addr = false ∧ ∀ key, w.storage addr key = none
    else
      (new w []).getBalance addr = db.getBalance addr ∧ (new w []).getNonce addr = db.getNonce addr
        ∧ (new w []).getCode addr = db.getCode addr
        ∧ ∀ key, (new w []).getState addr key = db.getState addr key

/-! ## What the operations keep -/

variable {db db' t : Db} {obj' : StateObject} {e : JournalEntry} {journal es : List JournalEntry}

/-- The code that is read of an object. -/
def readCode (db : Db) (obj : StateObject) : Bytes := (db.code obj).getD []

/-- What the operations of the EVM keep of a state object over a context. -/
structure ObjectTracked (ctx : World) (db : Db) (addr : Address) (obj : StateObject) : Prop where
  hash : obj.account.codeHash = keccak256 (db.readCode obj)
  locked : obj.account.lockedBalance = (ctx.getAccount addr).bind Account.lockedBalance
  moved : ctx.auth addr ≠ none → obj.account.codeHash = ctx.getCodeHash addr ∨ ctx.isContract addr = false
  contract : obj.newContract = true → isDelegation (db.readCode obj) = false
    ∧ (ctx.auth addr ≠ none → ctx.isContract addr = false) ∧ ∀ key, ctx.storage addr key = none
  destroyed : obj.selfDestructed = true → obj.newContract = true

/-- An object that shows what the context has. -/
structure Untouched (ctx : World) (addr : Address) (obj : StateObject) : Prop where
  account : ctx.getAccount addr = some obj.account
  storage : ∀ key, obj.dirtyStorage key = none ∨ obj.dirtyStorage key = some (ctx.getState addr key)
  selfDestructed : obj.selfDestructed = false

structure Tracked (ctx : World) (db : Db) (journal : List JournalEntry) : Prop where
  ctx_eq : db.ctx = ctx
  cache : db.cache.current = ctx
  object : ∀ addr obj, db.getStateObject addr = some obj → ObjectTracked ctx db addr obj
  untouched : ∀ addr obj, db.getStateObject addr = some obj →
    (∀ e ∈ journal, e.dirtied ≠ some addr) → Untouched ctx addr obj

theorem readCode_newObject {account : Account} :
    db.readCode (newObject account) = db.ctx.codeAt account.codeHash := by
  unfold readCode Db.code newObject World.codeAt
  simp only
  split_ifs <;> rfl

theorem tracked_new {events : List Event} (hctx : ctx.CodeOk) : Tracked ctx (new ctx events) [] := by
  refine ⟨rfl, rfl, fun addr obj hobj => ?_, fun addr obj hobj _ => ?_⟩
  · obtain ⟨account, haccount, rfl⟩ := Option.map_eq_some_iff.mp hobj
    have hhash : account.codeHash = ctx.getCodeHash addr := by
      obtain ⟨acct, -, rfl⟩ := Option.map_eq_some_iff.mp haccount
      rfl
    refine ⟨?_, ?_, fun _ => .inl hhash, nofun, nofun⟩
    · rw [readCode_newObject]
      show account.codeHash = keccak256 (ctx.codeAt account.codeHash)
      rw [hhash, hctx.keccak256_codeAt]
    · rw [show ctx.getAccount addr = some account from haccount]
      rfl
  · obtain ⟨account, haccount, rfl⟩ := Option.map_eq_some_iff.mp hobj
    exact ⟨haccount, fun _ => .inl rfl, rfl⟩

/-- The restriction of the changes that the EVM issues. -/
def EvmChange (db db' : Db) : JournalEntry → Prop
  | .selfDestruct addr => db.isNewContract addr = true
  | .createContract addr =>
    (∀ hash, db.getCodeHash addr = some hash → hash = emptyCodeHash)
      ∧ ∀ key, db.ctx.storage addr key = none
  | .code addr _ _ =>
    if db.isNewContract addr then isDelegation (db'.getCode addr) = false
    else db.getCode addr = [] ∨ isDelegation (db.getCode addr) = true
  | _ => True

theorem getCode_eq (h : db.getStateObject addr = some obj) : db.getCode addr = db.readCode obj := by
  rw [getCode, h, Option.bind_some, readCode]

theorem isNewContract_eq (h : db.getStateObject addr = some obj) :
    db.isNewContract addr = obj.newContract := by
  rw [isNewContract, h, Option.map_some, Option.getD_some]

theorem isContract_of_hash (hctx : ctx.CodeOk) (hhash : obj.account.codeHash = keccak256 (db.readCode obj))
    (hsame : obj.account.codeHash = ctx.getCodeHash addr)
    (hcode : db.readCode obj = [] ∨ isDelegation (db.readCode obj) = true) :
    ctx.isContract addr = false := by
  have hread : ctx.codeAt (ctx.getCodeHash addr) = db.readCode obj :=
    keccak256_injective (hctx.keccak256_codeAt.trans (hsame.symm.trans hhash))
  rw [hctx.isContract_eq, hread]
  rcases hcode with hempty | hdelegation
  · simp [hempty]
  · simp [hdelegation]

theorem ObjectTracked.change (hctx : ctx.CodeOk) (hdb : db.ctx = ctx)
    (hget : db.getStateObject addr = some obj) (h : ObjectTracked ctx db addr obj)
    (hchange : ObjectChange db addr obj obj' e) (hP : EvmChange db (db.setStateObject addr obj') e) :
    ObjectTracked ctx db addr obj' := by
  cases hchange with
  | code code =>
    have hread : db.readCode { obj with
        code, account.codeHash := keccak256 (code.getD []), dirtyCode := true } = code.getD [] := by
      cases code with
      | some c => rfl
      | none => simp [readCode, Db.code, emptyCodeHash]
    simp only [EvmChange, isNewContract_eq hget, getCode_eq hget, getCode_eq getStateObject_set_self]
      at hP
    refine ⟨by rw [hread], h.locked, fun hauth => .inr ?_, fun hnew => ?_, h.destroyed⟩
    · cases hnew : obj.newContract with
      | true => exact (h.contract hnew).2.1 hauth
      | false =>
        rw [hnew, if_neg Bool.false_ne_true] at hP
        rcases h.moved hauth with hsame | hnot
        · exact isContract_of_hash hctx h.hash hsame hP
        · exact hnot
    · replace hnew : obj.newContract = true := hnew
      rw [hnew, if_pos rfl] at hP
      exact ⟨hP, (h.contract hnew).2⟩
  | selfDestruct =>
    rw [EvmChange, isNewContract_eq hget] at hP
    exact ⟨h.hash, h.locked, h.moved, h.contract, fun _ => hP⟩
  | createContract hold =>
    obtain ⟨hhash, hstorage⟩ := hP
    have hempty : obj.account.codeHash = emptyCodeHash := hhash _ (by rw [getCodeHash, hget]; rfl)
    have hread : db.readCode obj = [] := keccak256_injective (h.hash.symm.trans hempty)
    refine ⟨h.hash, h.locked, h.moved, fun _ => ⟨?_, fun hauth => ?_, hdb ▸ hstorage⟩, fun _ => rfl⟩
    · show isDelegation (db.readCode obj) = false
      rw [hread]
      rfl
    · rcases h.moved hauth with hsame | hnot
      · exact isContract_of_hash hctx h.hash hsame (.inl hread)
      · exact hnot
  | _ => exact ⟨h.hash, h.locked, h.moved, h.contract, h.destroyed⟩

theorem ObjectTracked.congr (h : ObjectTracked ctx db addr obj) (heq : db'.ctx = db.ctx) :
    ObjectTracked ctx db' addr obj := by
  have hread : db'.readCode obj = db.readCode obj := by simp only [readCode, Db.code, heq]
  exact ⟨by rw [hread]; exact h.hash, h.locked, h.moved, by rw [hread]; exact h.contract, h.destroyed⟩

theorem Tracked.set (h : Tracked ctx db journal) (hobj : ObjectTracked ctx db addr obj)
    (huntouched : e.dirtied ≠ some addr → (∀ e ∈ journal, e.dirtied ≠ some addr) →
      Untouched ctx addr obj) :
    Tracked ctx (db.setStateObject addr obj) (e :: journal) where
  ctx_eq := h.ctx_eq
  cache := h.cache
  object other o ho := by
    obtain ⟨rfl, rfl⟩ | ⟨-, ho⟩ := getStateObject_of_set ho
    · exact hobj.congr rfl
    · exact (h.object other o ho).congr rfl
  untouched other o ho hclean := by
    obtain ⟨he, hclean⟩ := List.forall_mem_cons.mp hclean
    obtain ⟨rfl, rfl⟩ | ⟨-, ho⟩ := getStateObject_of_set ho
    · exact huntouched he hclean
    · exact h.untouched other o ho hclean

theorem Tracked.change (hctx : ctx.CodeOk) (h : Tracked ctx db journal) (hchange : Change db db' e)
    (hP : EvmChange db db' e) : Tracked ctx db' (e :: journal) := by
  cases hchange with
  | createObject addr habsent =>
    have hnone : ctx.getAccount addr = none := h.ctx_eq ▸ (getStateObject_eq_none.mp habsent).2
    refine h.set ⟨?_, by rw [hnone]; rfl, fun hauth => ?_, nofun, nofun⟩ fun he => absurd rfl he
    · rw [readCode_newObject, World.codeAt]
      rfl
    · exact absurd (Option.map_eq_none_iff.mp hnone) hauth
  | @object addr obj obj' _ hget hobj =>
    refine h.set ((h.object addr obj hget).change hctx h.ctx_eq hget hobj hP) fun he hclean => ?_
    cases hobj with
    | createContract hold =>
      -- the flag of a new contract is not part of what the context has
      have hold' := h.untouched addr obj hget hclean
      exact ⟨hold'.account, hold'.storage, hold'.selfDestructed⟩
    | _ => exact absurd rfl he
  | outside hout =>
    have huntouched : ∀ addr obj, db.getStateObject addr = some obj →
        (∀ e' ∈ e :: journal, e'.dirtied ≠ some addr) → Untouched ctx addr obj :=
      fun addr obj hobj hclean => h.untouched addr obj hobj (List.forall_mem_cons.mp hclean).2
    cases hout <;>
      exact ⟨h.ctx_eq, h.cache, fun a o ho => (h.object a o ho).congr rfl, huntouched⟩

theorem Tracked.asGood {lenient : Prop} (h : Tracked ctx db journal) (hgood : db.AsGood lenient t) :
    Tracked ctx t journal where
  ctx_eq := hgood.ctx.trans h.ctx_eq
  cache := by
    rw [hgood.cache]
    exact h.cache
  object addr obj' hobj' := by
    obtain ⟨obj, hobj, hgood'⟩ := hgood.object_back hobj'
    have hold := h.object addr obj hobj
    have hread : db.readCode obj' = db.readCode obj := by rw [readCode, readCode, hgood'.readCode]
    refine ObjectTracked.congr ⟨?_, ?_, ?_, ?_, fun hflag => ?_⟩ hgood.ctx
    · rw [hgood'.account, hread]
      exact hold.hash
    · rw [hgood'.account]
      exact hold.locked
    · rw [hgood'.account]
      exact hold.moved
    · rw [hgood'.newContract, hread]
      exact hold.contract
    · rw [hgood'.newContract]
      rcases hgood'.selfDestructed with heq | ⟨-, hclear⟩
      · exact hold.destroyed (heq ▸ hflag)
      · rw [hclear] at hflag
        cases hflag
  untouched addr obj' hobj' hclean := by
    obtain ⟨obj, hobj, hgood'⟩ := hgood.object_back hobj'
    have hold := h.untouched addr obj hobj hclean
    refine ⟨hgood'.account ▸ hold.account, fun key => ?_, ?_⟩
    · rcases hgood'.storage key with heq | ⟨-, hsome⟩
      · rw [heq]
        exact hold.storage key
      · exact .inr (h.ctx_eq ▸ hsome)
    · rcases hgood'.selfDestructed with heq | ⟨-, hclear⟩
      · exact heq.trans hold.selfDestructed
      · exact hclear

theorem evmChange_of_plain (hplain : e.plain = true) : EvmChange db db' e := by
  cases e with
  | selfDestruct addr => cases hplain
  | code addr prevcode prevhash => cases hplain
  | createContract addr => cases hplain
  | _ => trivial

theorem issues_changes {op : Op} (hissues : db.Issues op) (h : op.apply db = some (db', es)) :
    Changes EvmChange db db' es := by
  refine op_changes (PlainAt.of_all (fun _ _ _ h => evmChange_of_plain h) _)
    (fun _ _ _ _ _ _ => trivial) ?_ ?_ ?_ ?_ h
  · rintro addr rfl
    exact hissues
  · rintro addr code rfl db₁ obj hor hget
    have hread : (db₁.setStateObject addr { obj with
        code, account.codeHash := keccak256 (code.getD []), dirtyCode := true }).getCode addr
          = code.getD [] := by
      rw [getCode_eq getStateObject_set_self]
      cases code with
      | some c => rfl
      | none => simp [readCode, Db.code, emptyCodeHash]
    rw [EvmChange, hread]
    rcases hor with rfl | rfl
    · exact hissues
    · -- the object was created for the code
      have hold : db₁.isNewContract addr = false := isNewContract_eq hget
      rw [hold, if_neg Bool.false_ne_true, getCode_eq hget, readCode_newObject]
      exact .inl rfl
  · rintro addr rfl obj -
    exact hissues.2
  · rintro addr rfl obj -
    exact hissues

theorem evm_discipline (hctx : ctx.CodeOk) : Journaled.Discipline (AsGood True) undo
    (fun db journal (_ : Unit) => db.Sound journal ∧ Tracked ctx db journal) EvmActs := by
  have hspec : ∀ db journal db' es, db.Sound journal → Tracked ctx db journal →
      Changes EvmChange db db' es → (db'.Sound (es ++ journal) ∧ Tracked ctx db' (es ++ journal))
        ∧ Journaled.Undoes (AsGood True) undo es db' db :=
    fun db journal db' es hsound htracked h => h.undoes (fun _ _ _ _ => .inl trivial)
      (fun _ _ _ _ _ hI hchange hP => hI.change hctx hchange hP) hsound htracked
  refine ⟨AsGood.refl, fun _ _ _ => AsGood.trans, ?_, ?_, ?_⟩
  · exact fun _ _ _ _ hgood h => ⟨h.1.asGood hgood, h.2.asGood hgood⟩
  · rintro db journal - db' es - ⟨hsound, htracked⟩ ⟨op, hissues, hop⟩
    exact (hspec _ _ _ _ hsound htracked (issues_changes hissues hop)).1
  · rintro db journal - db' es - ⟨hsound, htracked⟩ ⟨op, hissues, hop⟩
    exact (hspec _ _ _ _ hsound htracked (issues_changes hissues hop)).2

/-! ## The commit of one account -/

/-- The code store on the way of a commit. -/
def CommitOk (ctx w : World) : Prop := w.CodeOk ∧ ctx.KeepsCode w

theorem ObjectTracked.hashed (h : ObjectTracked ctx db addr obj) (hsound : db.ObjectSound addr obj) :
    Hashed obj := by
  intro hdirty code hcode
  rw [h.hash, readCode, hsound.settled hdirty, hcode, Option.getD_some]

theorem commitCode_holds (hdb : db.ctx = ctx) (h : ObjectTracked ctx db addr obj)
    (hsound : db.ObjectSound addr obj) (hw : ctx.KeepsCode w)
    (hne : obj.account.codeHash ≠ emptyCodeHash) :
    (commitCode w obj).code obj.account.codeHash = some (db.readCode obj) := by
  have hnonempty : db.readCode obj ≠ [] := by
    intro hempty
    rw [h.hash, hempty] at hne
    exact hne rfl
  have hread : db.code obj = some (db.readCode obj) := by
    unfold readCode at hnonempty ⊢
    cases hcode : db.code obj with
    | none =>
      rw [hcode] at hnonempty
      exact absurd rfl hnonempty
    | some code => rfl
  cases hdirty : obj.dirtyCode with
  | true =>
    have hcode : obj.code = some (db.readCode obj) := (hsound.settled hdirty).symm.trans hread
    unfold commitCode
    rw [hdirty, hcode]
    cases hbytes : db.readCode obj with
    | nil => exact absurd hbytes hnonempty
    | cons byte rest => simp [World.setCode]
  | false =>
    have hclean : commitCode w obj = w := by
      unfold commitCode
      rw [hdirty]
    rw [hclean]
    refine hw _ _ ?_ hne
    rw [Db.code, hsound.clean hdirty] at hread
    simp only [if_neg hne, hdb] at hread
    exact hread

variable (blocked w addr obj) in
theorem commitObject_codeHash :
    (commitObject blocked w addr obj).1.codeHash addr = w.codeHash addr
      ∨ (commitObject blocked w addr obj).1.codeHash addr = none
      ∨ (commitObject blocked w addr obj).1.codeHash addr = some obj.account.codeHash
        ∧ (commitObject blocked w addr obj).1.code = (commitCode w obj).code := by
  have hset : ((commitCode w obj).setAccount addr blocked obj.account).1.codeHash addr = none
      ∨ ((commitCode w obj).setAccount addr blocked obj.account).1.codeHash addr
          = some obj.account.codeHash
        ∧ ((commitCode w obj).setAccount addr blocked obj.account).1.code = (commitCode w obj).code := by
    rw [World.setAccount_code, World.setAccount_eq, World.setRecords]
    split_ifs <;> simp
  have hdelete : ∀ w : World, (w.deleteAccount addr blocked).1.codeHash addr = w.codeHash addr
      ∨ (w.deleteAccount addr blocked).1.codeHash addr = none := by
    intro w
    rw [World.deleteAccount_eq, World.removeAccount]
    split_ifs <;> simp
  unfold commitObject
  split_ifs
  · refine .inr (andThen_keeps (I := fun w' => w'.codeHash addr = none
      ∨ w'.codeHash addr = some obj.account.codeHash ∧ w'.code = (commitCode w obj).code) hset ?_)
    intro w' h
    rcases hdelete w' with hsame | hnone
    · rw [hsame, World.deleteAccount_code]
      exact h
    · exact .inl hnone
  · exact (hdelete w).imp id .inl
  · exact .inr (andThen_keeps (I := fun w' => w'.codeHash addr = none
      ∨ w'.codeHash addr = some obj.account.codeHash ∧ w'.code = (commitCode w obj).code) hset
      fun w' h => h)

theorem commitObject_commitOk (hctx : ctx.CodeOk) (hdb : db.ctx = ctx)
    (h : ObjectTracked ctx db addr obj) (hsound : db.ObjectSound addr obj) (hw : CommitOk ctx w) :
    CommitOk ctx (commitObject blocked w addr obj).1 := by
  have hhashed := h.hashed hsound
  obtain ⟨hok, hkeeps⟩ := hw
  have hself : w.KeepsCode (commitObject blocked w addr obj).1 :=
    commitObject_keepsCode hok.stored hhashed .refl
  refine ⟨⟨commitObject_codeStored hhashed hok.stored, fun other hash hhash hne => ?_⟩,
    commitObject_keepsCode hctx.stored hhashed hkeeps⟩
  have hbefore : w.codeHash other = some hash →
      ∃ code, (commitObject blocked w addr obj).1.code hash = some code := by
    intro hold
    obtain ⟨code, hcode⟩ := hok.held other hash hold hne
    exact ⟨code, hself hash code hcode hne⟩
  by_cases heq : other = addr
  · subst heq
    rcases commitObject_codeHash blocked w other obj with hsame | hnone | ⟨hnew, hcode⟩
    · exact hbefore (hsame ▸ hhash)
    · rw [hnone] at hhash
      cases hhash
    · rw [hnew] at hhash
      cases hhash
      exact ⟨_, by rw [hcode]; exact commitCode_holds hdb h hsound hkeeps hne⟩
  · rw [(commitObject_sameAt heq).codeHash] at hhash
    exact hbefore hhash

/-- `w` has of an account what its object shows. -/
structure Shown (db : Db) (addr : Address) (obj : StateObject) (w : World) : Prop where
  getAccount : ∃ account, w.getAccount addr = some account
    ∧ account.nonce = obj.account.nonce ∧ account.balance = obj.account.balance
    ∧ account.codeHash = obj.account.codeHash
  getState : ∀ key, w.getState addr key = db.objState addr obj key

/-- Nothing of an account is left. -/
def Gone (addr : Address) (w : World) : Prop := w.auth addr = none ∧ ∀ key, w.storage addr key = none

theorem Shown.congr (hsame : w.SameAt w' addr) (h : Shown db addr obj w) : Shown db addr obj w' :=
  ⟨by rw [hsame.getAccount]; exact h.getAccount, fun key => by rw [hsame.getState]; exact h.getState key⟩

theorem Gone.congr (hsame : w.SameAt w' addr) (h : Gone addr w) : Gone addr w' :=
  ⟨hsame.auth.trans h.1, fun key => by rw [hsame.storage]; exact h.2 key⟩

theorem ObjectTracked.locked_getD (h : ObjectTracked ctx db addr obj) :
    obj.account.lockedBalance.getD (ctx.lockedCoins addr) = ctx.lockedCoins addr := by
  rw [h.locked]
  unfold World.getAccount
  cases ctx.auth addr <;> rfl

theorem setAccount_commitCode (h : ObjectTracked ctx db addr obj) (hsame : ctx.SameAt w addr)
    (hgain : blocked addr = true → obj.account.balance ≤ ctx.spendableCoin addr) :
    ((commitCode w obj).setAccount addr blocked obj.account).2 = true
      ∧ (∃ account, ((commitCode w obj).setAccount addr blocked obj.account).1.getAccount addr
          = some account ∧ account.nonce = obj.account.nonce
        ∧ account.balance = obj.account.balance ∧ account.codeHash = obj.account.codeHash)
      ∧ ((commitCode w obj).setAccount addr blocked obj.account).1.storage = w.storage := by
  have hsame' : ctx.SameAt (commitCode w obj) addr := hsame.trans commitCode_sameAt
  have hpays : ¬ ((commitCode w obj).spendableCoin addr < obj.account.balance
      ∧ blocked addr = true) := by
    rw [hsame'.spendableCoin]
    exact fun hlt => absurd (hgain hlt.2) (Nat.not_le.mpr hlt.1)
  have hfull : (commitCode w obj).fullBalance addr obj.account
      = obj.account.balance + ctx.lockedCoins addr := by
    rw [World.fullBalance, hsame'.lockedCoins, h.locked_getD]
  refine ⟨?_, ⟨_, World.getAccount_setAccount hpays, rfl, ?_, rfl⟩, ?_⟩
  · rw [World.setAccount_eq, if_neg hpays]
  · rw [hfull, hsame'.lockedCoins, Nat.add_sub_cancel]
  · rw [World.setAccount_storage, commitCode_storage]

theorem commitObject_stays (hdb : db.ctx = ctx) (h : ObjectTracked ctx db addr obj)
    (hstays : obj.selfDestructed = false) (hsame : ctx.SameAt w addr)
    (hgain : blocked addr = true → obj.account.balance ≤ ctx.spendableCoin addr) :
    (commitObject blocked w addr obj).2 = true
      ∧ Shown db addr obj (commitObject blocked w addr obj).1 := by
  obtain ⟨hok, haccount, hstorage⟩ := setAccount_commitCode h hsame hgain
  unfold commitObject andThen
  rw [if_neg (by simp [hstays]), if_pos hok]
  refine ⟨rfl, haccount, fun key => ?_⟩
  simp only [World.getState, writeStorage, Function.update_self, objState, hdb]
  cases obj.dirtyStorage key with
  | some value => rfl
  | none =>
    simp only [hstorage, hsame.storage]
    rfl

theorem commitObject_deletes (hdb : db.ctx = ctx) (h : ObjectTracked ctx db addr obj)
    (hsound : db.ObjectSound addr obj) (hdestroyed : obj.selfDestructed = true)
    (hdirty : obj.dirtyCode = true) (hcode : db.readCode obj ≠ []) (hw : CommitOk ctx w)
    (hsame : ctx.SameAt w addr)
    (hgain : blocked addr = true → obj.account.balance ≤ ctx.spendableCoin addr) :
    (commitObject blocked w addr obj).2 = true ∧ Gone addr (commitObject blocked w addr obj).1 := by
  obtain ⟨hok, ⟨account, haccount, -, -, hhash⟩, -⟩ := setAccount_commitCode h hsame hgain
  have hne : obj.account.codeHash ≠ emptyCodeHash := by
    rw [h.hash]
    exact fun heq => hcode (keccak256_injective heq)
  have hnew : obj.dirtyCode = true ∧ obj.code.getD [] ≠ [] := by
    refine ⟨hdirty, ?_⟩
    rwa [← hsound.settled hdirty]
  have hauth : ((commitCode w obj).setAccount addr blocked obj.account).1.auth addr ≠ none := by
    intro hnone
    rw [World.getAccount, hnone] at haccount
    cases haccount
  have hcontract : ((commitCode w obj).setAccount addr blocked obj.account).1.isContract addr = true := by
    have hcodeHash : ((commitCode w obj).setAccount addr blocked obj.account).1.getCodeHash addr
        = obj.account.codeHash := by
      obtain ⟨acct, -, rfl⟩ := Option.map_eq_some_iff.mp haccount
      exact hhash
    unfold World.isContract World.getCode
    rw [hcodeHash, World.setAccount_code, commitCode_holds hdb h hsound hw.2 hne]
    simp [hcode, (h.contract (h.destroyed hdestroyed)).1]
  have hdelete : commitObject blocked w addr obj
      = (((commitCode w obj).setAccount addr blocked obj.account).1.removeAccount addr, true) := by
    unfold commitObject andThen
    rw [if_pos hdestroyed, if_pos hnew, if_pos hok]
    simp only [World.deleteAccount_eq, if_neg hauth, hcontract, Bool.true_eq_false, if_false]
  rw [hdelete]
  exact ⟨rfl, Function.update_self .., fun key => by simp [World.removeAccount]⟩

section

variable (hctx : ctx.CodeOk) (hdb : db.ctx = ctx) (h : ObjectTracked ctx db addr obj)
  (hsound : db.ObjectSound addr obj)

include hctx hdb h hsound

theorem ObjectTracked.readCode_of_old (hdestroyed : obj.selfDestructed = true)
    (hold : ¬ (obj.dirtyCode = true ∧ obj.code.getD [] ≠ [])) (hauth : ctx.auth addr ≠ none) :
    db.readCode obj = [] := by
  cases hdirty : obj.dirtyCode with
  | true =>
    rw [readCode, hsound.settled hdirty]
    by_contra hne
    exact hold ⟨hdirty, hne⟩
  | false =>
    obtain ⟨hdelegation, hcontract, -⟩ := h.contract (h.destroyed hdestroyed)
    rcases hsound.origin hdirty with hsame | hempty
    · have hread : ctx.codeAt (ctx.getCodeHash addr) = db.readCode obj := by
        refine keccak256_injective (hctx.keccak256_codeAt.trans ?_)
        rw [← h.hash, hsame, hdb]
      have hnot := hcontract hauth
      rw [hctx.isContract_eq, hread, hdelegation] at hnot
      simpa using hnot
    · exact keccak256_injective (h.hash.symm.trans hempty)

/-- **A destroyed account** is deleted if and only if it was not there before or has code. -/
theorem commitObject_destroyed (hdestroyed : obj.selfDestructed = true) (hw : CommitOk ctx w)
    (hsame : ctx.SameAt w addr)
    (hgain : blocked addr = true → obj.account.balance ≤ ctx.spendableCoin addr) :
    if ctx.auth addr = none ∨ db.readCode obj ≠ [] then
      (commitObject blocked w addr obj).2 = true ∧ Gone addr (commitObject blocked w addr obj).1
    else (commitObject blocked w addr obj).2 = false := by
  obtain ⟨-, hcontract, hstorage⟩ := h.contract (h.destroyed hdestroyed)
  by_cases hnew : obj.dirtyCode = true ∧ obj.code.getD [] ≠ []
  · have hcode : db.readCode obj ≠ [] := by
      rw [readCode, hsound.settled hnew.1]
      exact hnew.2
    rw [if_pos (.inr hcode)]
    exact commitObject_deletes hdb h hsound hdestroyed hnew.1 hcode hw hsame hgain
  · have hcommit : commitObject blocked w addr obj = w.deleteAccount addr blocked := by
      unfold commitObject
      rw [if_pos hdestroyed, if_neg hnew]
    rw [hcommit, World.deleteAccount_eq, hsame.auth]
    by_cases hauth : ctx.auth addr = none
    · rw [if_pos (.inl hauth), if_pos hauth]
      exact ⟨rfl, hsame.auth.trans hauth, fun key => by rw [hsame.storage]; exact hstorage key⟩
    · -- `DeleteAccount` finds an account without code
      have hcode : db.readCode obj = [] := h.readCode_of_old hctx hdb hsound hdestroyed hnew hauth
      have hnot : w.isContract addr = false :=
        (hctx.isContract_congr hw.1 hsame.codeHash).trans (hcontract hauth)
      rw [if_neg (by simp [hauth, hcode]), if_neg hauth, if_pos hnot]

end

/-! ## The commit of all accounts -/

/-- No blocked address has more than it had. -/
def NoBlockedGain (blocked : Address → Bool) (ctx : World) (db : Db) : Prop :=
  ∀ addr, blocked addr = true → db.getBalance addr ≤ (new ctx []).getBalance addr

theorem getBalance_new_le {events : List Event} :
    (new ctx events).getBalance addr ≤ ctx.spendableCoin addr := by
  unfold getBalance getStateObject new World.getAccount
  cases ctx.auth addr with
  | none => exact Nat.zero_le _
  | some acct => exact le_rfl

theorem Shown.persists (hw : w.CodeOk) (hget : db.getStateObject addr = some obj)
    (hhash : obj.account.codeHash = keccak256 (db.readCode obj)) (h : Shown db addr obj w) :
    (new w []).getBalance addr = db.getBalance addr ∧ (new w []).getNonce addr = db.getNonce addr
      ∧ (new w []).getCode addr = db.getCode addr
      ∧ ∀ key, (new w []).getState addr key = db.getState addr key := by
  obtain ⟨account, haccount, hnonce, hbalance, hcodeHash⟩ := h.getAccount
  have hfresh : (new w []).getStateObject addr = some (newObject account) := by
    show (w.getAccount addr).map newObject = _
    rw [haccount, Option.map_some]
  have hstored : w.getCodeHash addr = account.codeHash := by
    obtain ⟨acct, -, rfl⟩ := Option.map_eq_some_iff.mp haccount
    rfl
  refine ⟨?_, ?_, ?_, fun key => ?_⟩
  · rw [getBalance, getBalance, hfresh, hget]
    exact hbalance
  · rw [getNonce, getNonce, hfresh, hget]
    exact hnonce
  · -- both codes have the hash of the account
    rw [getCode_eq hfresh, getCode_eq hget, readCode_newObject]
    refine keccak256_injective ?_
    show keccak256 (w.codeAt account.codeHash) = _
    rw [← hstored, hw.keccak256_codeAt, hstored, hcodeHash, hhash]
  · rw [Db.getState, Db.getState, hfresh, hget]
    exact h.getState key

theorem Untouched.shown (hdb : db.ctx = ctx) (h : Untouched ctx addr obj) : Shown db addr obj ctx := by
  refine ⟨⟨_, h.account, rfl, rfl, rfl⟩, fun key => ?_⟩
  rw [objState, hdb]
  rcases h.storage key with hnone | hsome
  · rw [hnone, Option.getD_none]
  · rw [hsome, Option.getD_some]

/-- Destroyed accounts can be deleted: each was not there before the transaction, or has code. -/
def Deletable (ctx : World) (db : Db) : Prop :=
  ∀ addr, db.hasSelfDestructed addr = true → ctx.auth addr = none ∨ db.getCode addr ≠ []

/-- What the commit of an account has to leave. -/
def Committed (db : Db) (addr : Address) (w : World) : Prop :=
  ∀ obj, db.getStateObject addr = some obj →
    if obj.selfDestructed then Gone addr w else Shown db addr obj w

theorem Committed.persists (hsound : db.Sound journal) (htracked : Tracked ctx db journal)
    (hw : w.CodeOk) (hdirty : ∀ addr ∈ sortedDirties journal, db.Committed addr w)
    (hclean : ∀ addr, addr ∉ sortedDirties journal → ctx.SameAt w addr) : db.Persists w := by
  intro addr
  cases hget : db.getStateObject addr with
  | none =>
    -- neither database has the account
    obtain ⟨hlive, hnone⟩ := getStateObject_eq_none.mp hget
    have hmem : addr ∉ sortedDirties journal := by
      intro hmem
      obtain ⟨e, he, hdirtied⟩ := mem_sortedDirties.mp hmem
      exact hsound.live e he addr hdirtied hlive
    have hfresh : (new w []).getStateObject addr = none := by
      show (w.getAccount addr).map newObject = none
      rw [(hclean addr hmem).getAccount, ← htracked.ctx_eq, hnone, Option.map_none]
    have hflag : db.hasSelfDestructed addr = false := by rw [hasSelfDestructed, hget]; rfl
    rw [hflag, if_neg Bool.false_ne_true]
    simp only [getBalance, getNonce, getCode, getState, hfresh, hget, Option.map_none, Option.bind_none,
      Option.getD_none, implies_true, and_self]
  | some obj =>
    have hflag : db.hasSelfDestructed addr = obj.selfDestructed := by
      rw [hasSelfDestructed, hget, Option.map_some, Option.getD_some]
    have hhash := (htracked.object addr obj hget).hash
    rw [hflag]
    by_cases hmem : addr ∈ sortedDirties journal
    · have hdone := hdirty addr hmem obj hget
      split_ifs at hdone ⊢
      · obtain ⟨hauth, hstorage⟩ := hdone
        refine ⟨?_, hstorage⟩
        show ((w.getAccount addr).map newObject).isSome = false
        rw [World.getAccount, hauth]
        rfl
      · exact hdone.persists hw hget hhash
    · have huntouched : Untouched ctx addr obj := by
        refine htracked.untouched addr obj hget fun e he hdirtied => hmem ?_
        exact mem_sortedDirties.mpr ⟨e, he, hdirtied⟩
      rw [if_neg (by simp [huntouched.selfDestructed])]
      exact ((huntouched.shown htracked.ctx_eq).congr (hclean addr hmem)).persists hw hget hhash

section Commit

variable (hctx : ctx.CodeOk) (hsound : db.Sound journal) (htracked : Tracked ctx db journal)
  (hblocked : NoBlockedGain blocked ctx db)

include hblocked in
theorem NoBlockedGain.balance_le (hobj : db.getStateObject addr = some obj) (hb : blocked addr = true) :
    obj.account.balance ≤ ctx.spendableCoin addr := by
  have hle := (hblocked addr hb).trans getBalance_new_le
  rwa [getBalance, hobj] at hle

include htracked in
theorem Tracked.mem_of_destroyed (hobj : db.getStateObject addr = some obj)
    (hflag : obj.selfDestructed = true) : addr ∈ sortedDirties journal := by
  by_contra hmem
  have hclean := htracked.untouched addr obj hobj fun e he hdirtied =>
    hmem (mem_sortedDirties.mpr ⟨e, he, hdirtied⟩)
  rw [hclean.selfDestructed] at hflag
  cases hflag

theorem object_of_destroyed (h : db.hasSelfDestructed addr = true) :
    ∃ obj, db.getStateObject addr = some obj ∧ obj.selfDestructed = true := by
  cases hobj : db.getStateObject addr with
  | none =>
    rw [hasSelfDestructed, hobj] at h
    cases h
  | some obj =>
    rw [hasSelfDestructed, hobj] at h
    exact ⟨obj, rfl, h⟩

include hctx hsound htracked

theorem Tracked.commitOk (hobj : db.getStateObject addr = some obj) (hw : CommitOk ctx w) :
    CommitOk ctx (commitObject blocked w addr obj).1 :=
  commitObject_commitOk hctx htracked.ctx_eq (htracked.object addr obj hobj)
    (hsound.object addr obj hobj) hw

include hblocked

/-- The commit of a dirty account leaves it as it has to be, if it can be deleted should it be
destroyed. -/
theorem Tracked.committed (hobj : db.getStateObject addr = some obj)
    (hdeletable : obj.selfDestructed = true → ctx.auth addr = none ∨ db.readCode obj ≠ [])
    (hw : CommitOk ctx w) (hsame : ctx.SameAt w addr) :
    (commitObject blocked w addr obj).2 = true
      ∧ db.Committed addr (commitObject blocked w addr obj).1 := by
  have htracked' := htracked.object addr obj hobj
  have hgain : blocked addr = true → obj.account.balance ≤ ctx.spendableCoin addr :=
    hblocked.balance_le hobj
  have honly : ∀ P : StateObject → Prop, P obj → ∀ o, db.getStateObject addr = some o → P o := by
    intro P hP o ho
    rw [hobj] at ho
    cases ho
    exact hP
  cases hflag : obj.selfDestructed with
  | true =>
    have hspec := commitObject_destroyed hctx htracked.ctx_eq htracked' (hsound.object addr obj hobj)
      hflag hw hsame hgain
    rw [if_pos (hdeletable hflag)] at hspec
    exact ⟨hspec.1, honly _ (by rw [if_pos hflag]; exact hspec.2)⟩
  | false =>
    have hspec := commitObject_stays htracked.ctx_eq htracked' hflag hsame hgain
    exact ⟨hspec.1, honly _ (by rw [if_neg (by simp [hflag])]; exact hspec.2)⟩

theorem Tracked.deletable_of_commit (hcommit : db.commit blocked journal = some (w, true)) :
    Deletable ctx db := by
  intro addr hdestroyed
  obtain ⟨obj, hobj, hflag⟩ := object_of_destroyed hdestroyed
  rw [getCode_eq hobj]
  unfold commit at hcommit
  rw [htracked.cache] at hcommit
  obtain ⟨w₁, o, ho, hok, hsame, hdone, -⟩ := (commitWithCtx_ok
    (fun a _ o ho w hw => htracked.commitOk hctx hsound (getStateObject_of_live ho) hw)
    (nodup_sortedDirties _) (⟨hctx, .refl⟩ : CommitOk ctx ctx) hcommit).1 addr
    (htracked.mem_of_destroyed hobj hflag)
  rw [getStateObject_of_live ho] at hobj
  cases hobj
  have hobj := getStateObject_of_live ho
  have hspec := commitObject_destroyed hctx htracked.ctx_eq (htracked.object addr _ hobj)
    (hsound.object addr _ hobj) hflag hok hsame (hblocked.balance_le hobj)
  by_contra hnot
  rw [if_neg hnot, hdone] at hspec
  cases hspec

theorem Tracked.commit_of_deletable (hdeletable : Deletable ctx db) :
    ∃ w, db.commit blocked journal = some (w, true) ∧ db.Persists w := by
  have hstep : ∀ addr ∈ sortedDirties journal, ∃ obj, db.stateObjects addr = some obj ∧
      ∀ w, CommitOk ctx w → ctx.SameAt w addr → (commitObject blocked w addr obj).2 = true
        ∧ CommitOk ctx (commitObject blocked w addr obj).1
        ∧ db.Committed addr (commitObject blocked w addr obj).1 := by
    intro addr hmem
    obtain ⟨e, he, hdirtied⟩ := mem_sortedDirties.mp hmem
    obtain ⟨obj, ho⟩ := Option.ne_none_iff_exists'.mp (hsound.live e he addr hdirtied)
    have hobj := getStateObject_of_live ho
    have hdel : obj.selfDestructed = true → ctx.auth addr = none ∨ db.readCode obj ≠ [] := by
      intro hflag
      rw [← getCode_eq hobj]
      exact hdeletable addr (by rw [hasSelfDestructed, hobj]; exact hflag)
    refine ⟨obj, ho, fun w hw hsame => ?_⟩
    obtain ⟨hok, hdone⟩ := htracked.committed hctx hsound hblocked hobj hdel hw hsame
    exact ⟨hok, htracked.commitOk hctx hsound hobj hw, hdone⟩
  have hcongr : ∀ addr w w', w.SameAt w' addr → db.Committed addr w → db.Committed addr w' := by
    intro addr w w' hsame h obj hobj
    have hdone := h obj hobj
    split_ifs at hdone ⊢
    · exact hdone.congr hsame
    · exact hdone.congr hsame
  obtain ⟨w, hcommit, hok, hdone, hrest⟩ := commitWithCtx_all hcongr hstep (nodup_sortedDirties _)
    (⟨hctx, .refl⟩ : CommitOk ctx ctx) fun _ _ => .refl
  refine ⟨w, ?_, Committed.persists hsound htracked hok.1 hdone hrest⟩
  rw [commit, htracked.cache]
  exact hcommit

end Commit

/-- **Commit persists the view**, if and only if the destroyed accounts can be deleted. For every run of
operations that the EVM issues in a transaction without precompile calls, in which no blocked address
gains, `Commit` succeeds and a fresh database over what it leaves shows the same, but for the destroyed
accounts, which are gone. -/
theorem commit_persists_iff {events : List Event} (hctx : ctx.CodeOk) {s : StateDB Unit}
    (hrun : EvmRuns (start ctx events) s) (hblocked : NoBlockedGain blocked ctx s.state) :
    (∃ w, s.state.commit blocked s.journal = some (w, true) ∧ s.state.Persists w)
      ↔ Deletable ctx s.state := by
  obtain ⟨hsound, htracked⟩ := (evm_discipline hctx).invariant rfl ⟨sound_new, tracked_new hctx⟩ hrun
  constructor
  · rintro ⟨w, hcommit, -⟩
    exact htracked.deletable_of_commit hctx hsound hblocked hcommit
  · intro hdeletable
    exact htracked.commit_of_deletable hctx hsound hblocked hdeletable

/-! ## A contract at a funded address -/

/-- The account of address 1 was made by a transfer of 5. -/
def funded : World where
  auth addr := if addr = 1 then some ⟨0, 0⟩ else none
  balance addr := if addr = 1 then 5 else 0
  supply := 5
  codeHash _ := none
  code _ := none
  storage _ _ := none
  other _ := none

theorem codeOk_funded : funded.CodeOk := ⟨nofun, nofun⟩

/-- What an operation leaves; nothing if it panics. -/
def perform (s : StateDB Unit) (op : Op) : StateDB Unit :=
  match op.apply s.state with
  | none => s
  | some (db, es) => { s with state := db, journal := es ++ s.journal }

theorem evmRuns_perform {s₀ s : StateDB Unit} (op : Op) (h : EvmRuns s₀ s) (hissues : s.state.Issues op)
    (hsome : (op.apply s.state).isSome = true) : EvmRuns s₀ (perform s op) := by
  obtain ⟨⟨db, es⟩, hop⟩ := Option.isSome_iff_exists.mp hsome
  have hperform : perform s op = { s with state := db, journal := es ++ s.journal } := by
    unfold perform
    rw [hop]
  rw [hperform]
  exact h.tail (.act ⟨op, hissues, hop⟩)

/-- The constructor of a contract runs at address 1. -/
def constructing : StateDB Unit :=
  perform (perform (start funded []) (.createContract 1)) (.setNonce 1 1)

theorem evmRuns_constructing : EvmRuns (start funded []) constructing := by
  refine evmRuns_perform _ (evmRuns_perform _ .refl ⟨rfl, ?_, fun _ => rfl⟩ rfl) trivial rfl
  intro hash hhash
  cases hhash
  rfl

/-- The contract is deployed with a code and destroyed in the same transaction. -/
def shortLived : StateDB Unit :=
  perform (perform constructing (.setCode 1 (some [0]))) (.selfDestruct 1)

theorem commit_persists_iff_shortLived :
    ∃ w, shortLived.state.commit (fun _ => false) shortLived.journal = some (w, true)
      ∧ shortLived.state.Persists w := by
  have hrun : EvmRuns (start funded []) shortLived :=
    evmRuns_perform _ (evmRuns_perform _ evmRuns_constructing rfl rfl) rfl rfl
  refine (commit_persists_iff codeOk_funded hrun fun _ hb => absurd hb Bool.false_ne_true).mpr
    fun addr hdestroyed => ?_
  by_cases heq : addr = 1
  · subst heq
    exact .inr (by decide)
  · exact .inl (if_neg heq)

/-- The contract destroys itself in its constructor, after it sent its coins to address 2: the account
of the address has no code to be deleted with, and the commit fails. -/
theorem commit_fails_in_constructor :
    ∃ s, EvmRuns (start funded []) s ∧ NoBlockedGain (fun _ => false) funded s.state
      ∧ ∃ w, s.state.commit (fun _ => false) s.journal = some (w, false) := by
  refine ⟨perform (perform (perform constructing (.subBalance 1 5)) (.addBalance 2 5)) (.selfDestruct 1),
    ?_, fun _ hb => absurd hb Bool.false_ne_true, ?_⟩
  · refine evmRuns_perform _ (evmRuns_perform _ (evmRuns_perform _ evmRuns_constructing trivial rfl)
      trivial rfl) ?_ rfl
    rfl
  · exact ⟨_, rfl⟩

end Db

end Vm
