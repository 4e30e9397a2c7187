import Limonata.Vm.Unwind

/-!
# x/vm — the database against the ledger

The coins of an account are in two places: in its state object, split into what is spendable and what
was locked when it was loaded, and in the cached multistore. `Db.Viewed` says that the objects agree with
a ledger, `Db.Cached` what is kept of the cached multistore, and `Db.Synced` that both agree with the
ledger of the record while EVM code runs: the object where the account is dirty, the store where it is
not.

An account can be in the database only if it survives being loaded and written back (`Mirrored`): it is
not blocked, what is locked is there, and its coins have an account.
-/

namespace Vm

/-! ## Sums -/

namespace Ledger

variable {ledger : Ledger} {addr other : Address} {amount : Nat}

@[simp] theorem credit_self : ledger.credit addr amount addr = ledger addr + amount :=
  Function.update_self ..

@[simp] theorem debit_self : ledger.debit addr amount addr = ledger addr - amount :=
  Function.update_self ..

theorem credit_of_ne (h : other ≠ addr) : ledger.credit addr amount other = ledger other :=
  Function.update_of_ne h ..

theorem debit_of_ne (h : other ≠ addr) : ledger.debit addr amount other = ledger other :=
  Function.update_of_ne h ..

@[simp] theorem credit_zero : ledger.credit addr 0 = ledger := Function.update_eq_self ..

@[simp] theorem debit_zero : ledger.debit addr 0 = ledger := Function.update_eq_self ..

theorem sum_update (ledger : Ledger) (addr : Address) (balance : Nat) :
    ∑ a, Function.update ledger addr balance a + ledger addr = ∑ a, ledger a + balance := by
  have hrest : ∑ a ∈ Finset.univ.erase addr, Function.update ledger addr balance a
      = ∑ a ∈ Finset.univ.erase addr, ledger a :=
    Finset.sum_congr rfl fun a ha => Function.update_of_ne (Finset.ne_of_mem_erase ha) ..
  rw [← Finset.sum_erase_add _ _ (Finset.mem_univ addr), hrest, Function.update_self,
    ← Finset.sum_erase_add _ ledger (Finset.mem_univ addr)]
  omega

theorem sum_credit : ∑ a, ledger.credit addr amount a = ∑ a, ledger a + amount := by
  have h := sum_update ledger addr (ledger addr + amount)
  unfold credit
  omega

theorem sum_debit (h : amount ≤ ledger addr) :
    ∑ a, ledger.debit addr amount a + amount = ∑ a, ledger a := by
  have h := sum_update ledger addr (ledger addr - amount)
  unfold debit
  omega

theorem le_sum : ledger addr ≤ ∑ a, ledger a :=
  Finset.single_le_sum (fun _ _ => Nat.zero_le _) (Finset.mem_univ addr)

theorem sum_move (h : amount ≤ ledger addr) :
    ∑ a, (ledger.debit addr amount).credit other amount a = ∑ a, ledger a := by
  rw [sum_credit, sum_debit h]

theorem Fits.lt (h : ledger.Fits) : ledger addr < 2 ^ 256 := le_sum.trans_lt h

theorem Fits.debit (h : ledger.Fits) : (ledger.debit addr amount).Fits := by
  have hsum := sum_update ledger addr (ledger addr - amount)
  unfold Fits at h ⊢
  unfold Ledger.debit
  omega

theorem Fits.move (h : ledger.Fits) (hle : amount ≤ ledger addr) :
    ((ledger.debit addr amount).credit other amount).Fits := by
  unfold Fits
  rw [sum_move hle]
  exact h

end Ledger

/-! ## Accounts that the database can hold -/

/-- What is locked of an account is there, and its coins have an account. -/
structure World.Settled (w : World) (addr : Address) : Prop where
  locked : w.lockedCoins addr ≤ w.balance addr
  auth : w.auth addr = none → w.balance addr = 0

/-- A journal names the account as dirty. -/
def Dirty (journal : List JournalEntry) (addr : Address) : Prop :=
  ∃ e ∈ journal, e.dirtied = some addr

structure Mirrored (ctx : World) (blocked : Address → Bool) (unmirrored : Finset Address)
    (addr : Address) : Prop where
  blocked : blocked addr = false
  mirrored : addr ∉ unmirrored
  settled : ctx.Settled addr

namespace Db

variable {ctx w w' : World} {blocked : Address → Bool} {unmirrored : Finset Address}
  {base base' : Ledger} {db db' t : Db} {journal es : List JournalEntry} {addr other : Address}
  {obj obj' : StateObject} {e : JournalEntry} {amount : Nat}

/-! ## The objects -/

/-- The state objects agree with a ledger. -/
structure Viewed (ctx : World) (blocked : Address → Bool) (unmirrored : Finset Address) (base : Ledger)
    (db : Db) (journal : List JournalEntry) : Prop where
  ctx_eq : db.ctx = ctx
  locked : ∀ addr obj, db.getStateObject addr = some obj →
    obj.account.lockedBalance = (ctx.getAccount addr).bind Account.lockedBalance
  mirrored : ∀ addr, Dirty journal addr → Mirrored ctx blocked unmirrored addr
  dirty : ∀ addr obj, db.getStateObject addr = some obj → Dirty journal addr →
    obj.account.balance + ctx.lockedCoins addr = base addr
  clean : ∀ addr obj, db.getStateObject addr = some obj → ¬ Dirty journal addr →
    ctx.getAccount addr = some obj.account ∧ obj.selfDestructed = false
  untouched : ∀ addr, ¬ Dirty journal addr → blocked addr = false → addr ∉ unmirrored →
    ctx.balance addr = base addr
  destroyed : ∀ addr obj, db.getStateObject addr = some obj → obj.selfDestructed = true →
    base addr = 0 ∧ ctx.lockedCoins addr = 0

theorem viewed_new {events : List Event} : Viewed ctx blocked unmirrored ctx.balance (new ctx events) [] := by
  have hloaded : ∀ addr obj, (new ctx events).getStateObject addr = some obj →
      ctx.getAccount addr = some obj.account ∧ obj.selfDestructed = false := by
    intro addr obj hobj
    obtain ⟨account, haccount, rfl⟩ := Option.map_eq_some_iff.mp hobj
    exact ⟨haccount, rfl⟩
  have hclean : ∀ addr, ¬ Dirty [] addr := fun addr ⟨e, he, _⟩ => List.not_mem_nil he
  refine ⟨rfl, fun addr obj hobj => ?_, fun addr hd => absurd hd (hclean addr),
    fun addr obj _ hd => absurd hd (hclean addr), fun addr obj hobj _ => hloaded addr obj hobj,
    fun _ _ _ _ => rfl, fun addr obj hobj hflag => ?_⟩
  · obtain ⟨haccount, -⟩ := hloaded addr obj hobj
    rw [haccount]
    obtain ⟨acct, -, heq⟩ := Option.map_eq_some_iff.mp haccount
    rw [← heq]
    rfl
  · rw [(hloaded addr obj hobj).2] at hflag
    cases hflag

theorem Dirty.cons (h : Dirty journal addr) : Dirty (e :: journal) addr :=
  h.imp fun _ he => ⟨List.mem_cons_of_mem _ he.1, he.2⟩

theorem not_dirty_cons (h : ¬ Dirty (e :: journal) addr) :
    e.dirtied ≠ some addr ∧ ¬ Dirty journal addr :=
  ⟨fun he => h ⟨e, List.mem_cons_self, he⟩, fun hd => h (Dirty.cons hd)⟩

theorem dirty_cons_of_ne (hne : e.dirtied ≠ some addr) :
    Dirty (e :: journal) addr ↔ Dirty journal addr := by
  simp [Dirty, hne]

section

variable (h : Viewed ctx blocked unmirrored base db journal)

include h

theorem Viewed.coins (hm : Mirrored ctx blocked unmirrored addr)
    (hget : db.getStateObject addr = some obj) :
    obj.account.balance + ctx.lockedCoins addr = base addr := by
  by_cases hdirty : Dirty journal addr
  · exact h.dirty addr obj hget hdirty
  · obtain ⟨haccount, -⟩ := h.clean addr obj hget hdirty
    obtain ⟨acct, -, heq⟩ := Option.map_eq_some_iff.mp haccount
    rw [← heq, ← h.untouched addr hdirty hm.blocked hm.mirrored]
    exact Nat.sub_add_cancel hm.settled.locked

theorem Viewed.absent (hsound : db.Sound journal) (hm : Mirrored ctx blocked unmirrored addr)
    (hget : db.getStateObject addr = none) : base addr = 0 ∧ ctx.lockedCoins addr = 0 := by
  obtain ⟨hlive, hnone⟩ := getStateObject_eq_none.mp hget
  have hclean : ¬ Dirty journal addr := fun ⟨e, he, hd⟩ => hsound.live e he addr hd hlive
  have hauth : ctx.auth addr = none := Option.map_eq_none_iff.mp (h.ctx_eq ▸ hnone)
  refine ⟨?_, by rw [World.lockedCoins, hauth]; rfl⟩
  rw [← h.untouched addr hclean hm.blocked hm.mirrored]
  exact hm.settled.auth hauth

theorem Viewed.congr
    (heq : ∀ addr, blocked addr = false → addr ∉ unmirrored → base' addr = base addr) :
    Viewed ctx blocked unmirrored base' db journal := by
  refine ⟨h.ctx_eq, h.locked, h.mirrored, fun addr obj hobj hd => ?_, h.clean, fun addr hd hb hu => ?_,
    fun addr obj hobj hflag => ?_⟩
  · have hm := h.mirrored addr hd
    rw [heq addr hm.blocked hm.mirrored]
    exact h.dirty addr obj hobj hd
  · rw [heq addr hb hu]
    exact h.untouched addr hd hb hu
  · have hd : Dirty journal addr := by
      by_contra hnot
      rw [(h.clean addr obj hobj hnot).2] at hflag
      cases hflag
    have hm := h.mirrored addr hd
    rw [heq addr hm.blocked hm.mirrored]
    exact h.destroyed addr obj hobj hflag

/-- The view is nothing of the cached context. -/
theorem Viewed.recontext (hctx : db'.ctx = db.ctx) (hobjects : db'.stateObjects = db.stateObjects) :
    Viewed ctx blocked unmirrored base db' journal := by
  have hget : ∀ addr, db'.getStateObject addr = db.getStateObject addr := by
    intro addr
    rw [getStateObject, getStateObject, hobjects, hctx]
  exact ⟨hctx.trans h.ctx_eq, fun addr obj hobj => h.locked addr obj (hget addr ▸ hobj), h.mirrored,
    fun addr obj hobj => h.dirty addr obj (hget addr ▸ hobj),
    fun addr obj hobj => h.clean addr obj (hget addr ▸ hobj), h.untouched,
    fun addr obj hobj => h.destroyed addr obj (hget addr ▸ hobj)⟩

theorem Viewed.asGood (hgood : db.AsGood True t) :
    Viewed ctx blocked unmirrored base t journal where
  ctx_eq := hgood.ctx.trans h.ctx_eq
  locked addr obj' hobj' := by
    obtain ⟨obj, hobj, hgood'⟩ := hgood.object_back hobj'
    rw [hgood'.account]
    exact h.locked addr obj hobj
  mirrored := h.mirrored
  dirty addr obj' hobj' hd := by
    obtain ⟨obj, hobj, hgood'⟩ := hgood.object_back hobj'
    rw [hgood'.account]
    exact h.dirty addr obj hobj hd
  clean addr obj' hobj' hd := by
    obtain ⟨obj, hobj, hgood'⟩ := hgood.object_back hobj'
    obtain ⟨haccount, hflag⟩ := h.clean addr obj hobj hd
    refine ⟨hgood'.account ▸ haccount, ?_⟩
    rcases hgood'.selfDestructed with heq | ⟨-, hclear⟩
    · exact heq.trans hflag
    · exact hclear
  untouched := h.untouched
  destroyed addr obj' hobj' hflag := by
    obtain ⟨obj, hobj, hgood'⟩ := hgood.object_back hobj'
    rcases hgood'.selfDestructed with heq | ⟨-, hclear⟩
    · exact h.destroyed addr obj hobj (heq ▸ hflag)
    · rw [hclear] at hflag
      cases hflag

/-! ## Changes of the objects -/

/-- **An object is written**: the ledger changes at its account only. -/
theorem Viewed.set (hm : Mirrored ctx blocked unmirrored addr)
    (hlocked : obj.account.lockedBalance = (ctx.getAccount addr).bind Account.lockedBalance)
    (hcoins : obj.account.balance + ctx.lockedCoins addr = base' addr)
    (hother : ∀ other, other ≠ addr → base' other = base other)
    (hdestroyed : obj.selfDestructed = true → base' addr = 0 ∧ ctx.lockedCoins addr = 0)
    (he : e.dirtied = some addr) :
    Viewed ctx blocked unmirrored base' (db.setStateObject addr obj) (e :: journal) := by
  have hrest : ∀ other, other ≠ addr → e.dirtied ≠ some other := by
    intro other hne heq
    rw [he] at heq
    exact hne (Option.some.inj heq).symm
  refine ⟨h.ctx_eq, fun other o ho => ?_, fun other hd => ?_, fun other o ho hd => ?_,
    fun other o ho hd => ?_, fun other hd hb hu => ?_, fun other o ho hflag => ?_⟩
  · obtain ⟨rfl, rfl⟩ | ⟨-, ho⟩ := getStateObject_of_set ho
    · exact hlocked
    · exact h.locked other o ho
  · rcases eq_or_ne other addr with rfl | hne
    · exact hm
    · exact h.mirrored other ((dirty_cons_of_ne (hrest other hne)).mp hd)
  · obtain ⟨rfl, rfl⟩ | ⟨hne, ho⟩ := getStateObject_of_set ho
    · exact hcoins
    · rw [hother other hne]
      exact h.dirty other o ho ((dirty_cons_of_ne (hrest other hne)).mp hd)
  · obtain ⟨rfl, -⟩ | ⟨-, ho⟩ := getStateObject_of_set ho
    · exact absurd he (not_dirty_cons hd).1
    · exact h.clean other o ho (not_dirty_cons hd).2
  · rcases eq_or_ne other addr with rfl | hne
    · exact absurd he (not_dirty_cons hd).1
    · rw [hother other hne]
      exact h.untouched other (not_dirty_cons hd).2 hb hu
  · obtain ⟨rfl, rfl⟩ | ⟨hne, ho⟩ := getStateObject_of_set ho
    · exact hdestroyed hflag
    · rw [hother other hne]
      exact h.destroyed other o ho hflag

theorem Viewed.keep (hobjects : ∀ addr obj', db'.getStateObject addr = some obj' → ∃ obj,
      db.getStateObject addr = some obj ∧ obj'.account = obj.account
        ∧ obj'.selfDestructed = obj.selfDestructed)
    (hctx : db'.ctx = db.ctx) (he : e.dirtied = none) :
    Viewed ctx blocked unmirrored base db' (e :: journal) := by
  have hdirty : ∀ addr, Dirty (e :: journal) addr ↔ Dirty journal addr :=
    fun addr => dirty_cons_of_ne (by rw [he]; nofun)
  refine ⟨hctx.trans h.ctx_eq, fun addr o ho => ?_, fun addr hd => h.mirrored addr ((hdirty addr).mp hd),
    fun addr o ho hd => ?_, fun addr o ho hd => ?_,
    fun addr hd => h.untouched addr (mt (hdirty addr).mpr hd), fun addr o ho hflag => ?_⟩
  all_goals obtain ⟨obj, hobj, haccount, hflags⟩ := hobjects addr o ho
  · rw [haccount]
    exact h.locked addr obj hobj
  · rw [haccount]
    exact h.dirty addr obj hobj ((hdirty addr).mp hd)
  · rw [haccount, hflags]
    exact h.clean addr obj hobj (mt (hdirty addr).mpr hd)
  · exact h.destroyed addr obj hobj (hflags ▸ hflag)

end

/-- A change of an account that the database can hold, of neither its balance nor its flag. -/
def ValueFree (ctx : World) (blocked : Address → Bool) (unmirrored : Finset Address)
    (_ _ : Db) (e : JournalEntry) : Prop :=
  (∀ addr, e.dirtied = some addr → Mirrored ctx blocked unmirrored addr)
    ∧ (∀ addr prev, e ≠ .balance addr prev) ∧ ∀ addr, e ≠ .selfDestruct addr

theorem Viewed.change (h : Viewed ctx blocked unmirrored base db journal) (hsound : db.Sound journal)
    (hchange : Change db db' e) (hfree : ValueFree ctx blocked unmirrored db db' e) :
    Viewed ctx blocked unmirrored base db' (e :: journal) := by
  obtain ⟨hmirrored, hbalance, hdestroy⟩ := hfree
  cases hchange with
  | createObject addr habsent =>
    have hm := hmirrored addr rfl
    obtain ⟨hzero, hunlocked⟩ := h.absent hsound hm habsent
    have hnone : ctx.getAccount addr = none := h.ctx_eq ▸ (getStateObject_eq_none.mp habsent).2
    refine h.set hm (by rw [hnone]; rfl) ?_ (fun _ _ => rfl) nofun rfl
    show 0 + ctx.lockedCoins addr = base addr
    rw [hzero, hunlocked]
  | @object addr obj obj' _ hget hobj =>
    have hplain : ∀ obj', obj'.account.lockedBalance = obj.account.lockedBalance →
        obj'.account.balance = obj.account.balance → obj'.selfDestructed = obj.selfDestructed →
        e.dirtied = some addr →
        Viewed ctx blocked unmirrored base (db.setStateObject addr obj') (e :: journal) := by
      intro obj' hl hb hf he
      refine h.set (hmirrored addr he) (hl.trans (h.locked addr obj hget)) ?_ (fun _ _ => rfl) ?_ he
      · rw [hb]
        exact h.coins (hmirrored addr he) hget
      · rw [hf]
        exact h.destroyed addr obj hget
    cases hobj with
    | balance amount => exact absurd rfl (hbalance addr _)
    | nonce nonce | code code | storage key value => exact hplain _ rfl rfl rfl rfl
    | selfDestruct => exact absurd rfl (hdestroy addr)
    | createContract hold =>
      refine h.keep (fun other o ho => ?_) rfl rfl
      obtain ⟨rfl, rfl⟩ | ⟨-, ho⟩ := getStateObject_of_set ho
      · exact ⟨obj, hget, rfl, rfl⟩
      · exact ⟨o, ho, rfl, rfl⟩
  | outside hout =>
    have hsame : ∀ addr o, db.getStateObject addr = some o → ∃ obj, db.getStateObject addr = some obj
        ∧ o.account = obj.account ∧ o.selfDestructed = obj.selfDestructed :=
      fun addr o ho => ⟨o, ho, rfl, rfl⟩
    cases hout <;> exact h.keep hsame rfl rfl

/-! ## Changes of balances -/

theorem getBalance_eq (h : db.getStateObject addr = some obj) : db.getBalance addr = obj.account.balance := by
  rw [getBalance, h, Option.map_some, Option.getD_some]

theorem hasSelfDestructed_eq (h : db.getStateObject addr = some obj) :
    db.hasSelfDestructed addr = obj.selfDestructed := by
  rw [hasSelfDestructed, h, Option.map_some, Option.getD_some]

theorem Viewed.getBalance (h : Viewed ctx blocked unmirrored base db journal) (hsound : db.Sound journal)
    (hm : Mirrored ctx blocked unmirrored addr) :
    db.getBalance addr + ctx.lockedCoins addr = base addr := by
  cases hget : db.getStateObject addr with
  | none =>
    obtain ⟨hzero, hunlocked⟩ := h.absent hsound hm hget
    rw [Db.getBalance, hget, hzero, hunlocked]
    rfl
  | some obj =>
    rw [getBalance_eq hget]
    exact h.coins hm hget

/-- What a change of balances does: the objects agree with another ledger, and no account is
destroyed. -/
structure Pays (ctx : World) (blocked : Address → Bool) (unmirrored : Finset Address) (base' : Ledger)
    (db : Db) (journal : List JournalEntry) (db' : Db) (es : List JournalEntry) : Prop where
  changes : AnyChanges db db' es
  viewed : Viewed ctx blocked unmirrored base' db' (es ++ journal)
  destroyed : ∀ addr, db'.hasSelfDestructed addr = db.hasSelfDestructed addr

theorem hasSelfDestructed_set (hobj : obj.selfDestructed = db.hasSelfDestructed addr) (other : Address) :
    (db.setStateObject addr obj).hasSelfDestructed other = db.hasSelfDestructed other := by
  rcases eq_or_ne other addr with rfl | hne
  · rw [hasSelfDestructed_eq getStateObject_set_self, hobj]
  · rw [hasSelfDestructed, hasSelfDestructed, getStateObject_set_of_ne hne]

theorem Viewed.onObject (h : Viewed ctx blocked unmirrored base db journal) (hsound : db.Sound journal)
    (hm : Mirrored ctx blocked unmirrored addr) :
    ∃ db₁ obj fs, db₁.getStateObject addr = some obj
      ∧ Pays ctx blocked unmirrored base db journal db₁ fs
      ∧ ∀ k, db.onObject addr k = (k db₁ obj).map fun r => (r.1, r.2 ++ fs) := by
  cases hget : db.getStateObject addr with
  | some obj =>
    refine ⟨db, obj, [], hget, ⟨.nil, h, fun _ => rfl⟩, fun k => ?_⟩
    simp [Db.onObject, hget]
  | none =>
    have hchange : Change db _ _ := .createObject addr hget
    have hfree : ValueFree ctx blocked unmirrored db (db.setStateObject addr (newObject emptyAccount))
        (.createObject addr) := by
      refine ⟨fun other ho => ?_, nofun, nofun⟩
      cases ho
      exact hm
    refine ⟨_, newObject emptyAccount, [.createObject addr], getStateObject_set_self,
      ⟨.single hchange trivial, h.change hsound hchange hfree, hasSelfDestructed_set ?_⟩, fun k => ?_⟩
    · rw [hasSelfDestructed, hget]
      rfl
    · simp [Db.onObject, hget]

theorem Viewed.setObjBalance {fs : List JournalEntry}
    (hget : db'.getStateObject addr = some obj) (h : Pays ctx blocked unmirrored base db journal db' fs)
    (hm : Mirrored ctx blocked unmirrored addr) (hcoins : amount + ctx.lockedCoins addr = base' addr)
    (hother : ∀ other, other ≠ addr → base' other = base other)
    (hlive : obj.selfDestructed = true → base' addr = 0 ∧ ctx.lockedCoins addr = 0) :
    Pays ctx blocked unmirrored base' db journal
      (db'.setStateObject addr { obj with account.balance := amount })
      (.balance addr obj.account.balance :: fs) where
  changes := .snoc h.changes (.object addr hget (.balance amount)) trivial
  viewed := h.viewed.set hm (h.viewed.locked addr obj hget) hcoins hother hlive rfl
  destroyed other := by
    refine (hasSelfDestructed_set ?_ other).trans (h.destroyed other)
    exact (hasSelfDestructed_eq hget).symm

section

variable (h : Viewed ctx blocked unmirrored base db journal) (hsound : db.Sound journal)
  (hm : Mirrored ctx blocked unmirrored addr)

include h hsound hm

/-- **SubBalance** of what is there. -/
theorem Viewed.subBalance (hle : amount = 0 ∨ amount + ctx.lockedCoins addr ≤ base addr) :
    ∃ db' es, db.subBalance addr amount = some (db', es)
      ∧ Pays ctx blocked unmirrored (base.debit addr amount) db journal db' es := by
  obtain ⟨db₁, obj, fs, hget, hpays, honObject⟩ := h.onObject hsound hm
  have hcoins := hpays.viewed.coins hm hget
  unfold Db.subBalance
  rw [honObject]
  by_cases hzero : amount = 0
  · subst hzero
    exact ⟨db₁, fs, rfl, by simpa using hpays⟩
  · have hnot : ¬ obj.account.balance < amount := by omega
    refine ⟨_, _, by rw [if_neg hzero, if_neg hnot]; rfl, ?_⟩
    refine Viewed.setObjBalance hget hpays hm ?_ (fun _ hne => Ledger.debit_of_ne hne) fun hflag => ?_
    · rw [Ledger.debit_self]
      omega
    · -- a destroyed account has nothing to spend
      have := (hpays.viewed.destroyed addr obj hget hflag).1
      omega

/-- **AddBalance** of what fits, to an account that is not destroyed. -/
theorem Viewed.addBalance (hfits : base addr + amount < 2 ^ 256)
    (hlive : amount = 0 ∨ db.hasSelfDestructed addr = false) :
    ∃ db' es, db.addBalance addr amount = some (db', es)
      ∧ Pays ctx blocked unmirrored (base.credit addr amount) db journal db' es := by
  obtain ⟨db₁, obj, fs, hget, hpays, honObject⟩ := h.onObject hsound hm
  have hcoins := hpays.viewed.coins hm hget
  unfold Db.addBalance
  rw [honObject]
  by_cases hzero : amount = 0
  · subst hzero
    exact ⟨db₁, fs, rfl, by simpa using hpays⟩
  · have hwrap : (obj.account.balance + amount) % 2 ^ 256 = obj.account.balance + amount :=
      Nat.mod_eq_of_lt (by omega)
    refine ⟨_, _, by rw [if_neg hzero, hwrap]; rfl, ?_⟩
    refine Viewed.setObjBalance hget hpays hm ?_ (fun _ hne => Ledger.credit_of_ne hne) fun hflag => ?_
    · rw [Ledger.credit_self]
      omega
    · have hdb := hlive.resolve_left hzero
      rw [← hpays.destroyed, hasSelfDestructed_eq hget, hflag] at hdb
      cases hdb

end

theorem le_of_subBalance (h : db.subBalance addr amount = some (db', es)) :
    amount ≤ db.getBalance addr := by
  unfold Db.subBalance Db.onObject at h
  cases hget : db.getStateObject addr with
  | some obj =>
    simp only [hget] at h
    split_ifs at h with hzero hlt
    · omega
    · rw [getBalance_eq hget]
      omega
  | none =>
    simp only [hget] at h
    split_ifs at h with hzero hlt
    · omega
    · cases h
    · -- a new object has no balance
      simp only [newObject, emptyAccount] at hlt
      omega

/-- **Transfer.** The coins move on the ledger. -/
theorem Viewed.transfer {sender recipient : Address}
    (h : Viewed ctx blocked unmirrored base db journal) (hsound : db.Sound journal)
    (hsender : Mirrored ctx blocked unmirrored sender)
    (hrecipient : Mirrored ctx blocked unmirrored recipient) (hfits : base.Fits)
    (hlive : amount = 0 ∨ db.hasSelfDestructed recipient = false)
    (hrun : db.transfer sender recipient amount = some (db', es)) :
    amount ≤ db.getBalance sender
      ∧ Pays ctx blocked unmirrored ((base.debit sender amount).credit recipient amount) db journal
        db' es := by
  obtain ⟨⟨db₁, fs⟩, hsub, hrun⟩ := Option.bind_eq_some_iff.mp hrun
  obtain ⟨⟨db₂, gs⟩, hadd, heq⟩ := Option.map_eq_some_iff.mp hrun
  cases heq
  have hle := le_of_subBalance hsub
  have hbalance := h.getBalance hsound hsender
  have hcovered : amount = 0 ∨ amount + ctx.lockedCoins sender ≤ base sender := by omega
  obtain ⟨_, _, hsub', hpaid⟩ := h.subBalance hsound hsender hcovered
  rw [hsub] at hsub'
  cases hsub'
  have hroom : base.debit sender amount recipient + amount < 2 ^ 256 := by
    have hmoved : ((base.debit sender amount).credit recipient amount).Fits := hfits.move (by omega)
    exact Ledger.credit_self ▸ hmoved.lt
  obtain ⟨_, _, hadd', hreceived⟩ := hpaid.viewed.addBalance (hpaid.changes.sound hsound).1 hrecipient
    hroom (hlive.imp id fun hflag => (hpaid.destroyed recipient).trans hflag)
  rw [hadd] at hadd'
  cases hadd'
  refine ⟨hle, hpaid.changes.append hreceived.changes, ?_,
    fun addr => (hreceived.destroyed addr).trans (hpaid.destroyed addr)⟩
  rw [List.append_assoc]
  exact hreceived.viewed

/-! ## Moves -/

end Db

/-- A move that the ledger follows: it touches accounts that the database can hold, pays no destroyed
account, and destroys no account with coins. -/
def Move.Exact (blocked : Address → Bool) (db : Db) (g : Record) : Move → Prop
  | op o => ∀ addr, o.touches = some addr → Mirrored db.ctx blocked g.unmirrored addr
  | transfer sender recipient amount =>
    Mirrored db.ctx blocked g.unmirrored sender ∧ Mirrored db.ctx blocked g.unmirrored recipient
      ∧ (amount = 0 ∨ db.hasSelfDestructed recipient = false)
  | selfDestruct this beneficiary =>
    Mirrored db.ctx blocked g.unmirrored this ∧ Mirrored db.ctx blocked g.unmirrored beneficiary
      ∧ (db.getBalance this = 0 ∨ db.hasSelfDestructed beneficiary = false)
      ∧ (db.isNewContract this = true →
        db.ctx.lockedCoins this = 0 ∧ (this = beneficiary → db.getBalance this = 0))

namespace Db

variable {ctx w w' : World} {blocked : Address → Bool} {unmirrored : Finset Address}
  {base base' : Ledger} {db db' t : Db} {journal es : List JournalEntry} {addr other : Address}
  {obj obj' : StateObject} {e : JournalEntry} {amount : Nat} {g : Record}

theorem Viewed.selfDestruct (h : Viewed ctx blocked unmirrored base db journal)
    (hm : Mirrored ctx blocked unmirrored addr) (hzero : base addr = 0)
    (hunlocked : ctx.lockedCoins addr = 0) (hrun : db.selfDestruct addr = some (db', es)) :
    AnyChanges db db' es ∧ Viewed ctx blocked unmirrored base db' (es ++ journal) := by
  refine ⟨selfDestruct_changes (fun _ _ => trivial) hrun, ?_⟩
  unfold Db.selfDestruct at hrun
  cases hget : db.getStateObject addr with
  | none =>
    rw [hget] at hrun
    cases hrun
    exact h
  | some obj =>
    have hcoins := h.coins hm hget
    rw [hget] at hrun
    cases hrun
    exact h.set hm (h.locked addr obj hget) hcoins (fun _ _ => rfl) (fun _ => ⟨hzero, hunlocked⟩) rfl

theorem Viewed.op {o : Op} (h : Viewed ctx blocked unmirrored base db journal)
    (hsound : db.Sound journal) (hissued : (Move.op o).Issued db)
    (hmirrored : ∀ addr, o.touches = some addr → Mirrored ctx blocked unmirrored addr)
    (hrun : o.apply db = some (db', es)) :
    AnyChanges db db' es ∧ Viewed ctx blocked unmirrored base db' (es ++ journal) := by
  obtain ⟨hpays, hdestroy, hfresh⟩ := hissued
  have hchanges : Changes (ValueFree ctx blocked unmirrored) db db' es := by
    refine op_changes (fun db db' e hplain hdirtied => ?_) (fun addr hpay => ?_) hfresh ?_ ?_ ?_ hrun
    · refine ⟨fun addr ha => hmirrored addr (hdirtied addr ha), ?_, ?_⟩
      · rintro addr prev rfl
        cases hplain
      · rintro addr rfl
        cases hplain
    · rw [hpays] at hpay
      cases hpay
    · rintro addr code rfl db₁ obj - -
      refine ⟨fun other ho => ?_, nofun, nofun⟩
      cases ho
      exact hmirrored addr rfl
    · exact fun addr _ obj _ => ⟨nofun, nofun, nofun⟩
    · exact fun addr heq => absurd heq (hdestroy addr)
  have hundone : (db'.Sound (es ++ journal) ∧ Viewed ctx blocked unmirrored base db' (es ++ journal))
      ∧ Journaled.Undoes (AsGood True) undo es db' db :=
    hchanges.undoes (I := fun db journal => Viewed ctx blocked unmirrored base db journal)
      (fun _ _ _ _ => .inl trivial) (fun _ _ _ _ hsound h hchange hfree => h.change hsound hchange hfree)
      hsound h
  exact ⟨hchanges.imp fun _ _ _ _ _ => trivial, hundone.1.2⟩

/-- What a move leaves. -/
structure MoveSpec (ctx : World) (blocked : Address → Bool) (db : Db) (journal : List JournalEntry)
    (g : Record) (db' : Db) (es : List JournalEntry) (g' : Record) : Prop where
  changes : AnyChanges db db' es
  viewed : Viewed ctx blocked g.unmirrored g'.ledger db' (es ++ journal)
  sum : ∑ addr, g'.ledger addr = ∑ addr, g.ledger addr
  outside : ∀ addr, blocked addr = true ∨ addr ∈ g.unmirrored → g'.ledger addr = g.ledger addr
  unmirrored : g'.unmirrored = g.unmirrored

theorem pay_outside {sender recipient : Address} (hsender : Mirrored ctx blocked g.unmirrored sender)
    (hrecipient : Mirrored ctx blocked g.unmirrored recipient)
    (haddr : blocked addr = true ∨ addr ∈ g.unmirrored) :
    (g.pay sender recipient amount).ledger addr = g.ledger addr := by
  have hne : ∀ a, Mirrored ctx blocked g.unmirrored a → addr ≠ a := by
    rintro a hm rfl
    rcases haddr with hb | hu
    · rw [hm.blocked] at hb
      cases hb
    · exact hm.mirrored hu
  show ((g.ledger.debit sender amount).credit recipient amount) addr = _
  rw [Ledger.credit_of_ne (hne _ hrecipient), Ledger.debit_of_ne (hne _ hsender)]

theorem transfer_spec {sender recipient : Address}
    (h : Viewed ctx blocked g.unmirrored g.ledger db journal) (hsound : db.Sound journal)
    (hfits : g.ledger.Fits) (hsender : Mirrored ctx blocked g.unmirrored sender)
    (hrecipient : Mirrored ctx blocked g.unmirrored recipient)
    (hlive : amount = 0 ∨ db.hasSelfDestructed recipient = false)
    (hrun : db.transfer sender recipient amount = some (db', es)) :
    MoveSpec ctx blocked db journal g db' es (g.pay sender recipient amount) := by
  obtain ⟨hle, hpays⟩ := h.transfer hsound hsender hrecipient hfits hlive hrun
  have hbalance := h.getBalance hsound hsender
  exact ⟨hpays.changes, hpays.viewed, Ledger.sum_move (by omega),
    fun addr haddr => pay_outside hsender hrecipient haddr, rfl⟩

/-- **Moves** that are exact are on the ledger. -/
theorem move_spec {m : Move} (h : Viewed ctx blocked g.unmirrored g.ledger db journal)
    (hsound : db.Sound journal) (hfits : g.ledger.Fits) (hissued : m.Issued db)
    (hexact : m.Exact blocked db g) (hrun : m.run db = some (db', es)) :
    MoveSpec ctx blocked db journal g db' es (m.post db g) := by
  obtain rfl := h.ctx_eq
  cases m with
  | op o =>
    obtain ⟨hchanges, hviewed⟩ := h.op hsound hissued hexact hrun
    exact ⟨hchanges, hviewed, rfl, fun _ _ => rfl, rfl⟩
  | transfer sender recipient amount =>
    obtain ⟨hsender, hrecipient, hlive⟩ := hexact
    exact transfer_spec h hsound hfits hsender hrecipient hlive hrun
  | selfDestruct this beneficiary =>
    obtain ⟨hthis, hbeneficiary, hlive, hnew⟩ := hexact
    have hbalance := h.getBalance hsound hthis
    -- first the coins go to the beneficiary
    have hmoved : ∀ db₁ fs, (if this = beneficiary then some (db, [])
        else db.transfer this beneficiary (db.getBalance this)) = some (db₁, fs) →
        MoveSpec db.ctx blocked db journal g db₁ fs ((Move.selfDestruct this beneficiary).post db g) := by
      intro db₁ fs hrun
      simp only [Move.post]
      split_ifs at hrun ⊢ with heq
      · cases hrun
        exact ⟨.nil, h, rfl, fun _ _ => rfl, rfl⟩
      · exact transfer_spec h hsound hfits hthis hbeneficiary hlive hrun
    replace hrun : db.selfDestructTo this beneficiary = some (db', es) := hrun
    by_cases hcontract : db.isNewContract this = true
    · simp only [selfDestructTo, hcontract, if_true] at hrun
      obtain ⟨⟨db₁, fs⟩, hfirst, hrun⟩ := Option.bind_eq_some_iff.mp hrun
      obtain ⟨⟨db₂, gs⟩, hdestroy, heq⟩ := Option.map_eq_some_iff.mp hrun
      cases heq
      obtain ⟨hunlocked, hself⟩ := hnew hcontract
      have hspec := hmoved _ _ hfirst
      -- then nothing is left
      have hzero : ((Move.selfDestruct this beneficiary).post db g).ledger this = 0 := by
        simp only [Move.post]
        split_ifs with heq
        · have := hself heq
          omega
        · show ((g.ledger.debit this (db.getBalance this)).credit beneficiary _) this = 0
          rw [Ledger.credit_of_ne heq, Ledger.debit_self]
          omega
      obtain ⟨hchanges, hviewed⟩ := hspec.viewed.selfDestruct hthis hzero hunlocked hdestroy
      refine ⟨hspec.changes.append hchanges, ?_, hspec.sum, hspec.outside, hspec.unmirrored⟩
      rw [List.append_assoc]
      exact hviewed
    · simp only [selfDestructTo, hcontract, Bool.false_eq_true, if_false] at hrun
      exact hmoved _ _ hrun

end Db

end Vm
