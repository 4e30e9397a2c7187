import Limonata.Vm.Undo

/-!
# x/vm — what a commit writes

A commit writes the dirty accounts one after the other. Each of them changes its own records, coins and
storage and nothing of another account (`commitObject_sameAt`), and the code under one hash
(`commitObject_code`). A code is written under its own hash, so what the context holds under a hash
stays there (`commitObject_keepsCode`).
-/

namespace Vm

open EncMempool (Bytes)

namespace World

variable {w w' ctx : World} {addr other : Address} {blocked : Address → Bool} {account : Account}

/-- The two worlds have the same of an account. -/
structure SameAt (w w' : World) (addr : Address) : Prop where
  auth : w'.auth addr = w.auth addr
  balance : w'.balance addr = w.balance addr
  codeHash : w'.codeHash addr = w.codeHash addr
  storage : w'.storage addr = w.storage addr

theorem SameAt.refl : w.SameAt w addr := ⟨rfl, rfl, rfl, rfl⟩

theorem SameAt.trans {w'' : World} (h : w.SameAt w' addr) (h' : w'.SameAt w'' addr) :
    w.SameAt w'' addr :=
  ⟨h'.auth.trans h.auth, h'.balance.trans h.balance, h'.codeHash.trans h.codeHash,
    h'.storage.trans h.storage⟩

theorem SameAt.getAccount (h : w.SameAt w' addr) : w'.getAccount addr = w.getAccount addr := by
  unfold World.getAccount spendableCoin lockedCoins getCodeHash
  rw [h.auth, h.balance, h.codeHash]

theorem SameAt.getState (h : w.SameAt w' addr) (key : Word) :
    w'.getState addr key = w.getState addr key := by
  unfold World.getState
  rw [h.storage]

theorem SameAt.lockedCoins (h : w.SameAt w' addr) : w'.lockedCoins addr = w.lockedCoins addr := by
  unfold World.lockedCoins
  rw [h.auth]

theorem SameAt.spendableCoin (h : w.SameAt w' addr) :
    w'.spendableCoin addr = w.spendableCoin addr := by
  unfold World.spendableCoin
  rw [h.lockedCoins, h.balance]

theorem setAccount_sameAt (hne : other ≠ addr) :
    w.SameAt (w.setAccount addr blocked account).1 other := by
  rw [setAccount_eq]
  unfold setRecords
  split_ifs <;> constructor <;> simp [Function.update_of_ne hne]

theorem deleteAccount_sameAt (hne : other ≠ addr) :
    w.SameAt (w.deleteAccount addr blocked).1 other := by
  rw [deleteAccount_eq]
  unfold removeAccount
  split_ifs <;> constructor <;> simp [Function.update_of_ne hne]

@[simp] theorem setAccount_code : (w.setAccount addr blocked account).1.code = w.code := by
  rw [setAccount_eq]
  split_ifs <;> rfl

@[simp] theorem deleteAccount_code : (w.deleteAccount addr blocked).1.code = w.code := by
  rw [deleteAccount_eq]
  split_ifs <;> rfl

@[simp] theorem setAccount_storage : (w.setAccount addr blocked account).1.storage = w.storage := by
  rw [setAccount_eq]
  split_ifs <;> rfl

/-- Every code of the store is under its own hash. -/
def CodeStored (w : World) : Prop := ∀ hash code, w.code hash = some code → hash = keccak256 code

/-- The codes of `ctx` are in `w`, but for an empty one. -/
def KeepsCode (ctx w : World) : Prop :=
  ∀ hash code, ctx.code hash = some code → hash ≠ emptyCodeHash → w.code hash = some code

theorem KeepsCode.refl : ctx.KeepsCode ctx := fun _ _ h _ => h

end World

theorem keccak256_injective : Function.Injective keccak256 := Function.injective_id

namespace Db

variable {blocked : Address → Bool} {w w' ctx : World} {addr other : Address} {obj : StateObject}

/-! ## One account -/

theorem andThen_keeps {I : World → Prop} {r : World × Bool} {f : World → World × Bool} (hr : I r.1)
    (hf : ∀ w, I w → I (f w).1) : I (andThen r f).1 := by
  unfold andThen
  split_ifs
  · exact hf _ hr
  · exact hr

theorem commitCode_sameAt : w.SameAt (commitCode w obj) other := by
  unfold commitCode
  split <;> exact ⟨rfl, rfl, rfl, rfl⟩

@[simp] theorem commitCode_storage : (commitCode w obj).storage = w.storage := by
  unfold commitCode
  split <;> rfl

/-- A key that is not dirty is not written, unless the account is destroyed. -/
theorem commitObject_clean {key : Word} (hstays : obj.selfDestructed = false)
    (hclean : obj.dirtyStorage key = none) :
    (commitObject blocked w addr obj).1.storage addr key = w.storage addr key := by
  unfold commitObject
  rw [if_neg (by simp [hstays])]
  refine andThen_keeps (I := fun w' => w'.storage addr key = w.storage addr key) (by simp) ?_
  intro w' h
  simpa [writeStorage, hclean] using h

theorem commitObject_sameAt (hne : other ≠ addr) :
    w.SameAt (commitObject blocked w addr obj).1 other := by
  have hset : w.SameAt ((commitCode w obj).setAccount addr blocked obj.account).1 other :=
    commitCode_sameAt.trans (World.setAccount_sameAt hne)
  unfold commitObject
  split_ifs
  · exact andThen_keeps (I := fun w' => w.SameAt w' other) hset fun w' h =>
      h.trans (World.deleteAccount_sameAt hne)
  · exact World.deleteAccount_sameAt hne
  · refine andThen_keeps (I := fun w' => w.SameAt w' other) hset fun w' h =>
      h.trans ⟨rfl, rfl, rfl, ?_⟩
    exact Function.update_of_ne hne ..

variable (w obj) in
theorem commitCode_eq :
    (commitCode w obj).code = w.code
      ∨ obj.dirtyCode = true ∧ ∃ code, obj.code = some code ∧ (commitCode w obj).code
        = Function.update w.code obj.account.codeHash (if code = [] then none else some code) := by
  unfold commitCode
  split
  · next hdirty hcode => exact .inr ⟨hdirty, [], hcode, rfl⟩
  · next code hne hdirty hcode =>
    have hnonempty : code ≠ [] := hne
    exact .inr ⟨hdirty, code, hcode, by rw [if_neg hnonempty]; rfl⟩
  · exact .inl rfl

/-- What the code store keeps when an object writes its code, it keeps when the object is committed. -/
theorem commitObject_code {I : (CodeHash → Option Bytes) → Prop} (hw : I w.code)
    (hcode : I (commitCode w obj).code) : I (commitObject blocked w addr obj).1.code := by
  have hset : I ((commitCode w obj).setAccount addr blocked obj.account).1.code := by
    rwa [World.setAccount_code]
  unfold commitObject
  split_ifs
  · exact andThen_keeps (I := fun w => I w.code) hset fun w' h => by rwa [World.deleteAccount_code]
  · rwa [World.deleteAccount_code]
  · exact andThen_keeps (I := fun w => I w.code) hset fun w' h => h

/-- The hash of an object is that of its code, once the code is set. -/
def Hashed (obj : StateObject) : Prop :=
  obj.dirtyCode = true → ∀ code, obj.code = some code → obj.account.codeHash = keccak256 code

theorem commitObject_keepsCode (hctx : ctx.CodeStored) (hhashed : Hashed obj) (h : ctx.KeepsCode w) :
    ctx.KeepsCode (commitObject blocked w addr obj).1 := by
  refine commitObject_code (I := fun store => ∀ hash code, ctx.code hash = some code →
    hash ≠ emptyCodeHash → store hash = some code) h fun hash code hcode hne => ?_
  rcases commitCode_eq w obj with hsame | ⟨hdirty, c, hc, hupdate⟩
  · rw [hsame]
    exact h hash code hcode hne
  · rw [hupdate]
    by_cases heq : hash = obj.account.codeHash
    · -- the same hash is the hash of the same code
      have hcodes : code = c :=
        keccak256_injective ((hctx hash code hcode).symm.trans (heq.trans (hhashed hdirty c hc)))
      subst hcodes
      have hnonempty : code ≠ [] := by
        rintro rfl
        exact hne (hctx hash [] hcode)
      rw [heq, Function.update_self, if_neg hnonempty]
    · rw [Function.update_of_ne heq]
      exact h hash code hcode hne

theorem commitObject_codeStored (hhashed : Hashed obj) (h : w.CodeStored) :
    (commitObject blocked w addr obj).1.CodeStored := by
  refine commitObject_code (I := fun store => ∀ hash code, store hash = some code →
    hash = keccak256 code) h fun hash code hcode => ?_
  rcases commitCode_eq w obj with hsame | ⟨hdirty, c, hc, hupdate⟩
  · rw [hsame] at hcode
    exact h hash code hcode
  · rw [hupdate] at hcode
    by_cases heq : hash = obj.account.codeHash
    · subst heq
      rw [Function.update_self] at hcode
      split_ifs at hcode
      cases hcode
      exact hhashed hdirty _ hc
    · rw [Function.update_of_ne heq] at hcode
      exact h hash code hcode

/-! ## All dirty accounts -/

theorem nodup_sortedDirties (journal : List JournalEntry) : (sortedDirties journal).Nodup :=
  (List.perm_insertionSort _ _).nodup_iff.mpr (List.nodup_dedup _)

theorem mem_sortedDirties {journal : List JournalEntry} :
    addr ∈ sortedDirties journal ↔ ∃ e ∈ journal, e.dirtied = some addr := by
  simp [sortedDirties, List.mem_insertionSort]

/-- **Commit rule.** What the commit of every object keeps, the commit keeps. -/
theorem commitWithCtx_keeps {objs : Address → Option StateObject} {I : World → Prop}
    {addrs : List Address} {ok : Bool}
    (hobj : ∀ addr ∈ addrs, ∀ obj, objs addr = some obj → ∀ w, I w →
      I (commitObject blocked w addr obj).1)
    (h : commitWithCtx blocked objs addrs w = some (w', ok)) (hw : I w) : I w' := by
  induction addrs generalizing w with
  | nil =>
    cases h
    exact hw
  | cons addr rest ih =>
    unfold commitWithCtx at h
    obtain ⟨obj, hget, h⟩ := Option.bind_eq_some_iff.mp h
    have hfirst := hobj addr List.mem_cons_self obj hget w hw
    simp only at h
    split_ifs at h
    · exact ih (fun a ha => hobj a (List.mem_cons_of_mem _ ha)) h hfirst
    · cases h
      exact hfirst

/-- A commit that succeeds has committed every object, each where the invariant held and its account was
as before, and left it as that commit did. -/
theorem commitWithCtx_ok {objs : Address → Option StateObject} {I : World → Prop}
    {addrs : List Address}
    (hobj : ∀ addr ∈ addrs, ∀ obj, objs addr = some obj → ∀ w, I w →
      I (commitObject blocked w addr obj).1)
    (hnodup : addrs.Nodup) (hw : I w) (h : commitWithCtx blocked objs addrs w = some (w', true)) :
    (∀ addr ∈ addrs, ∃ w₁ obj, objs addr = some obj ∧ I w₁ ∧ w.SameAt w₁ addr
      ∧ (commitObject blocked w₁ addr obj).2 = true
      ∧ (commitObject blocked w₁ addr obj).1.SameAt w' addr)
    ∧ ∀ addr, addr ∉ addrs → w.SameAt w' addr := by
  induction addrs generalizing w with
  | nil =>
    cases h
    exact ⟨fun addr h => absurd h List.not_mem_nil, fun _ _ => .refl⟩
  | cons addr rest ih =>
    obtain ⟨hnotin, hnodup⟩ := List.nodup_cons.mp hnodup
    unfold commitWithCtx at h
    obtain ⟨obj, hget, h⟩ := Option.bind_eq_some_iff.mp h
    simp only at h
    split_ifs at h with hok
    · obtain ⟨hall, hframe⟩ := ih (fun a ha => hobj a (List.mem_cons_of_mem _ ha)) hnodup
        (hobj addr List.mem_cons_self obj hget w hw) h
      refine ⟨List.forall_mem_cons.mpr ⟨⟨w, obj, hget, hw, .refl, hok, hframe addr hnotin⟩, ?_⟩, ?_⟩
      · intro a ha
        obtain ⟨w₁, o, ho, hI, hsame, hrest⟩ := hall a ha
        have hfirst : w.SameAt (commitObject blocked w addr obj).1 a :=
          commitObject_sameAt fun heq => hnotin (heq ▸ ha)
        exact ⟨w₁, o, ho, hI, hfirst.trans hsame, hrest⟩
      · intro a ha
        obtain ⟨hne, hnot⟩ := not_or.mp (mt List.mem_cons.mpr ha)
        exact (commitObject_sameAt hne).trans (hframe a hnot)
    · cases h

end Db

end Vm
