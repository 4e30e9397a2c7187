import Limonata.Vm.Ledger

/-!
# x/vm — the cached multistore against the ledger

While EVM code runs, the cached multistore has the coins of the accounts that are not dirty, and a flush
or a commit writes those of the dirty ones: then it has what the ledger says of every account
(`Db.Synced.flush`). A destroyed account has nothing on the ledger and nothing after a flush.
-/

namespace Vm

namespace World

variable {w w' : World} {addr : Address} {blocked : Address → Bool} {account : Account}

theorem deleteAccount_coins (hok : (w.deleteAccount addr blocked).2 = true) :
    (w.deleteAccount addr blocked).1.auth addr = none
      ∧ ((w.deleteAccount addr blocked).1.balance addr = 0
        ∨ w.auth addr = none ∧ (w.deleteAccount addr blocked).1.balance addr = w.balance addr) := by
  rw [deleteAccount_eq] at hok ⊢
  split_ifs at hok ⊢ with hauth
  · exact ⟨hauth, .inr ⟨hauth, rfl⟩⟩
  · exact ⟨Function.update_self .., .inl (Function.update_self ..)⟩

theorem setAccount_coins (hok : (w.setAccount addr blocked account).2 = true) :
    (w.setAccount addr blocked account).1.balance addr = w.fullBalance addr account
      ∧ (w.setAccount addr blocked account).1.lockedCoins addr = w.lockedCoins addr
      ∧ (w.setAccount addr blocked account).1.auth addr ≠ none := by
  rw [setAccount_eq] at hok ⊢
  split_ifs at hok ⊢
  refine ⟨Function.update_self .., lockedCoins_setRecords, ?_⟩
  simp [setRecords]

theorem setAccount_supply : (w.setAccount addr blocked account).1.supply = w.supply := by
  rw [setAccount_eq]
  split_ifs <;> rfl

theorem deleteAccount_supply : (w.deleteAccount addr blocked).1.supply = w.supply := by
  rw [deleteAccount_eq]
  split_ifs <;> rfl

end World

namespace Db

variable {ctx w w' : World} {blocked : Address → Bool} {unmirrored : Finset Address} {db db' t : Db}
  {journal es : List JournalEntry} {addr : Address} {obj : StateObject} {g : Record} {ok : Bool}

/-! ## The commit of one account -/

theorem commitCode_supply : (commitCode w obj).supply = w.supply := by
  unfold commitCode
  split <;> rfl

theorem andThen_ok {r : World × Bool} {f : World → World × Bool} (h : (andThen r f).2 = true) :
    r.2 = true ∧ andThen r f = f r.1 := by
  unfold andThen at h ⊢
  split_ifs at h with hr
  exact ⟨hr, if_pos hr⟩

theorem commitObject_coins (hstays : obj.selfDestructed = false)
    (hok : (commitObject blocked w addr obj).2 = true) :
    (commitObject blocked w addr obj).1.balance addr = w.fullBalance addr obj.account
      ∧ (commitObject blocked w addr obj).1.lockedCoins addr = w.lockedCoins addr
      ∧ (commitObject blocked w addr obj).1.auth addr ≠ none := by
  have hsame : w.SameAt (commitCode w obj) addr := commitCode_sameAt
  unfold commitObject at hok ⊢
  rw [if_neg (by simp [hstays])] at hok ⊢
  obtain ⟨hset, heq⟩ := andThen_ok hok
  obtain ⟨hbalance, hlocked, hauth⟩ := World.setAccount_coins hset
  rw [heq]
  refine ⟨hbalance.trans ?_, hlocked.trans hsame.lockedCoins, hauth⟩
  rw [World.fullBalance, World.fullBalance, hsame.lockedCoins]

theorem commitObject_coins_destroyed (hdestroyed : obj.selfDestructed = true)
    (hok : (commitObject blocked w addr obj).2 = true) :
    (commitObject blocked w addr obj).1.auth addr = none
      ∧ ((commitObject blocked w addr obj).1.balance addr = 0
        ∨ w.auth addr = none ∧ (commitObject blocked w addr obj).1.balance addr = w.balance addr) := by
  unfold commitObject at hok ⊢
  rw [if_pos hdestroyed] at hok ⊢
  split_ifs at hok ⊢
  · -- the account was written first, so it is there
    obtain ⟨hset, heq⟩ := andThen_ok hok
    rw [heq] at hok ⊢
    obtain ⟨hauth, hzero | ⟨hnone, -⟩⟩ := World.deleteAccount_coins hok
    · exact ⟨hauth, .inl hzero⟩
    · exact absurd hnone (World.setAccount_coins hset).2.2
  · exact World.deleteAccount_coins hok

theorem commitObject_supply : (commitObject blocked w addr obj).1.supply = w.supply := by
  have hset : ((commitCode w obj).setAccount addr blocked obj.account).1.supply = w.supply :=
    World.setAccount_supply.trans commitCode_supply
  unfold commitObject
  split_ifs
  · exact andThen_keeps (I := fun w' => w'.supply = w.supply) hset fun w' h =>
      World.deleteAccount_supply.trans h
  · exact World.deleteAccount_supply
  · exact andThen_keeps (I := fun w' => w'.supply = w.supply) hset fun w' h => h

theorem commitWithCtx_supply {objs : Address → Option StateObject} {addrs : List Address}
    (h : commitWithCtx blocked objs addrs w = some (w', ok)) : w'.supply = w.supply :=
  commitWithCtx_keeps (I := fun w' => w'.supply = w.supply)
    (fun _ _ _ _ _ hw => commitObject_supply.trans hw) h rfl

/-! ## The cached multistore -/

/-- What is kept of the cached multistore at the accounts that the database can hold: what is locked, and
that their coins have an account. -/
structure Cached (ctx : World) (blocked : Address → Bool) (unmirrored : Finset Address) (w : World) :
    Prop where
  locked : ∀ addr, blocked addr = false → addr ∉ unmirrored →
    w.lockedCoins addr = ctx.lockedCoins addr
  auth : ∀ addr, Mirrored ctx blocked unmirrored addr → w.auth addr = none → w.balance addr = 0

/-- **While EVM code runs**, objects and cached multistore agree with the ledger. -/
structure Synced (ctx : World) (blocked : Address → Bool) (db : Db) (journal : List JournalEntry)
    (g : Record) : Prop where
  sound : db.Sound journal
  viewed : Viewed ctx blocked g.unmirrored g.ledger db journal
  cached : Cached ctx blocked g.unmirrored db.cache.current
  balance : ∀ addr, ¬ Dirty journal addr → db.cache.current.balance addr = g.ledger addr
  fits : g.ledger.Fits

theorem synced_begins {events : List Event} (hfits : Ledger.Fits ctx.balance) :
    Synced ctx blocked (begins ctx events).state (begins ctx events).journal (begins ctx events).record :=
  ⟨sound_new, viewed_new, ⟨fun _ _ _ => rfl, fun _ hm => hm.settled.auth⟩, fun _ _ => rfl, hfits⟩

theorem Synced.asGood (h : Synced ctx blocked db journal g) (hgood : db.AsGood True t) :
    Synced ctx blocked t journal g :=
  ⟨h.sound.asGood hgood, h.viewed.asGood hgood, hgood.cache ▸ h.cached, hgood.cache ▸ h.balance, h.fits⟩

/-- **A flush** leaves on the cached multistore what the ledger says, whichever addresses it refuses to
pay. -/
theorem Synced.flush {refused : Address → Bool} (h : Synced ctx blocked db journal g)
    (hcommit : commitWithCtx refused db.stateObjects (sortedDirties journal) db.cache.current
      = some (w, true)) :
    (∀ addr, w.balance addr = g.ledger addr) ∧ Cached ctx blocked g.unmirrored w := by
  obtain ⟨hdone, hframe⟩ := commitWithCtx_ok (I := fun _ => True) (fun _ _ _ _ _ _ => trivial)
    (nodup_sortedDirties journal) trivial hcommit
  -- what the commit of a dirty account leaves
  have hdirty : ∀ addr, Dirty journal addr → w.balance addr = g.ledger addr
      ∧ w.lockedCoins addr = ctx.lockedCoins addr ∧ (w.auth addr = none → w.balance addr = 0) := by
    intro addr hd
    have hm := h.viewed.mirrored addr hd
    have hlocked := h.cached.locked addr hm.blocked hm.mirrored
    obtain ⟨w₁, obj, hobj, -, hsame, hok, hfinal⟩ := hdone addr (mem_sortedDirties.mpr hd)
    have hget := getStateObject_of_live hobj
    have hcoins := h.viewed.dirty addr obj hget hd
    have hlocked₁ : w₁.lockedCoins addr = ctx.lockedCoins addr :=
      hsame.lockedCoins.trans hlocked
    rw [hfinal.balance, hfinal.auth, hfinal.lockedCoins]
    cases hflag : obj.selfDestructed with
    | false =>
      obtain ⟨hbalance, hlock, hauth⟩ := commitObject_coins hflag hok
      have hfull : w₁.fullBalance addr obj.account = obj.account.balance + ctx.lockedCoins addr := by
        rw [World.fullBalance, h.viewed.locked addr obj hget, hlocked₁]
        unfold World.getAccount
        cases ctx.auth addr <;> rfl
      exact ⟨hbalance.trans (hfull.trans hcoins), hlock.trans hlocked₁, fun hnone => absurd hnone hauth⟩
    | true =>
      obtain ⟨hzero, hunlocked⟩ := h.viewed.destroyed addr obj hget hflag
      obtain ⟨hauth, hbalance⟩ := commitObject_coins_destroyed hflag hok
      have hnothing : (commitObject refused w₁ addr obj).1.balance addr = 0 := by
        rcases hbalance with hbalance | ⟨hnone, hbalance⟩
        · exact hbalance
        · rw [hbalance, hsame.balance]
          exact h.cached.auth addr hm (hsame.auth ▸ hnone)
      refine ⟨hnothing.trans hzero.symm, ?_, fun _ => hnothing⟩
      rw [World.lockedCoins, hauth, hunlocked]
      rfl
  have hclean : ∀ addr, ¬ Dirty journal addr → db.cache.current.SameAt w addr :=
    fun addr hd => hframe addr (mt mem_sortedDirties.mp hd)
  refine ⟨fun addr => ?_, fun addr hb hu => ?_, fun addr hm hnone => ?_⟩
  · by_cases hd : Dirty journal addr
    · exact (hdirty addr hd).1
    · rw [(hclean addr hd).balance]
      exact h.balance addr hd
  · by_cases hd : Dirty journal addr
    · exact (hdirty addr hd).2.1
    · rw [(hclean addr hd).lockedCoins]
      exact h.cached.locked addr hb hu
  · by_cases hd : Dirty journal addr
    · exact (hdirty addr hd).2.2 hnone
    · rw [(hclean addr hd).balance]
      exact h.cached.auth addr hm ((hclean addr hd).auth ▸ hnone)

/-- **A commit** writes the ledger. -/
theorem Synced.commit {refused : Address → Bool} (h : Synced ctx blocked db journal g)
    (hcommit : db.commit refused journal = some (w, true)) (addr : Address) :
    w.balance addr = g.ledger addr := (h.flush hcommit).1 addr

/-- **A move** keeps everything in step. -/
theorem Synced.move {m : Move} (h : Synced ctx blocked db journal g) (hissued : m.Issued db)
    (hexact : m.Exact blocked db g) (hrun : m.run db = some (db', es)) :
    Synced ctx blocked db' (es ++ journal) (m.post db g) ∧ AnyChanges db db' es := by
  have hspec := move_spec h.viewed h.sound h.fits hissued hexact hrun
  obtain ⟨-, hcache, -, -⟩ := hspec.changes.contexts
  have hunmirrored := hspec.unmirrored
  refine ⟨⟨(hspec.changes.sound h.sound).1, hunmirrored ▸ hspec.viewed, ?_, fun addr hd => ?_, ?_⟩,
    hspec.changes⟩
  · rw [hcache, hunmirrored]
    exact h.cached
  · have hd' : ¬ Dirty journal addr :=
      fun hd' => hd (hd'.imp fun _ he => ⟨List.mem_append_right _ he.1, he.2⟩)
    rw [hcache, h.balance addr hd']
    by_cases hout : blocked addr = true ∨ addr ∈ g.unmirrored
    · exact (hspec.outside addr hout).symm
    · -- an account that is not dirty has what it had before the transaction
      obtain ⟨hb, hu⟩ := not_or.mp hout
      rw [← h.viewed.untouched addr hd' (by simpa using hb) hu,
        hspec.viewed.untouched addr hd (by simpa using hb) hu]
  · unfold Ledger.Fits
    rw [hspec.sum]
    exact h.fits

end Db

end Vm
