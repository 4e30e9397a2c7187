import Limonata.Vm.NativeCall

/-!
# x/vm — what an operation changes

Every operation of the database is a sequence of changes with one journal entry each. The changes are
listed here once: those of one state object (`ObjectChange`), those beside the objects
(`OutsideChange`), and the creation of an object. What is proved of a change holds of every operation
and of the replay of bank events.
-/

namespace Vm

open EncMempool (Bytes)

namespace Db

variable {db db' : Db} {addr other : Address} {obj obj' : StateObject} {e : JournalEntry}
  {es : List JournalEntry}

/-! ## State objects after a write -/

@[simp] theorem getStateObject_set_self : (db.setStateObject addr obj).getStateObject addr = some obj := by
  simp [getStateObject, setStateObject]

@[simp] theorem getStateObject_set_of_ne (h : other ≠ addr) :
    (db.setStateObject addr obj).getStateObject other = db.getStateObject other := by
  simp [getStateObject, setStateObject, Function.update_of_ne h]

theorem getStateObject_of_set {o : StateObject}
    (h : (db.setStateObject addr obj).getStateObject other = some o) :
    (other = addr ∧ o = obj) ∨ (other ≠ addr ∧ db.getStateObject other = some o) := by
  by_cases hne : other = addr
  · subst hne
    exact .inl ⟨rfl, (Option.some.inj (getStateObject_set_self.symm.trans h)).symm⟩
  · exact .inr ⟨hne, (getStateObject_set_of_ne hne).symm.trans h⟩

@[simp] theorem ctx_set : (db.setStateObject addr obj).ctx = db.ctx := rfl

@[simp] theorem cache_set : (db.setStateObject addr obj).cache = db.cache := rfl

@[simp] theorem code_set : (db.setStateObject addr obj).code obj' = db.code obj' := rfl

@[simp] theorem set_set :
    (db.setStateObject addr obj).setStateObject addr obj' = db.setStateObject addr obj' := by
  simp [setStateObject]

theorem getStateObject_eq_none :
    db.getStateObject addr = none ↔ db.stateObjects addr = none ∧ db.ctx.getAccount addr = none := by
  unfold getStateObject
  cases db.stateObjects addr <;> simp

theorem getStateObject_of_live (h : db.stateObjects addr = some obj) :
    db.getStateObject addr = some obj := by
  rw [getStateObject, h]

/-! ## Changes -/

/-- The changes of a state object, with their entries. -/
inductive ObjectChange (db : Db) (addr : Address) (obj : StateObject) :
    StateObject → JournalEntry → Prop where
  | balance (amount : Nat) :
      ObjectChange db addr obj { obj with account.balance := amount } (.balance addr obj.account.balance)
  | nonce (nonce : Nat) :
      ObjectChange db addr obj { obj with account.nonce := nonce } (.nonce addr obj.account.nonce)
  | code (code : Option Bytes) :
      ObjectChange db addr obj
        { obj with code, account.codeHash := keccak256 (code.getD []), dirtyCode := true }
        (.code addr (db.code obj) obj.account.codeHash)
  | storage (key value : Word) :
      ObjectChange db addr obj
        { obj with dirtyStorage := Function.update obj.dirtyStorage key (some value) }
        (.storage addr key (db.objState addr obj key))
  | selfDestruct : ObjectChange db addr obj { obj with selfDestructed := true } (.selfDestruct addr)
  | createContract (hold : obj.newContract = false) :
      ObjectChange db addr obj { obj with newContract := true } (.createContract addr)

/-- The changes beside the state objects. -/
inductive OutsideChange (db : Db) : Db → JournalEntry → Prop where
  | transient (addr : Address) (key value : Word) :
      OutsideChange db
        { db with
          transientStorage := Function.update db.transientStorage addr
            (Function.update (db.transientStorage addr) key value) }
        (.transientStorage addr key (db.transientStorage addr key))
  | refund (refund : Nat) : OutsideChange db { db with refund } (.refund db.refund)
  | addLog (log : Bytes) : OutsideChange db { db with logs := db.logs ++ [log] } .addLog
  | addAddress (addr : Address) (habsent : db.accessList.addresses addr = none) :
      OutsideChange db { db with accessList := (db.accessList.addAddress addr).1 }
        (.accessListAddAccount addr)
  | addSlot (addr : Address) (slot : Word) (hpresent : db.accessList.addresses addr ≠ none)
      (hnew : (db.accessList.addSlot addr slot).2.2 = true) :
      OutsideChange db { db with accessList := (db.accessList.addSlot addr slot).1 }
        (.accessListAddSlot addr slot)

inductive Change (db : Db) : Db → JournalEntry → Prop where
  | createObject (addr : Address) (h : db.getStateObject addr = none) :
      Change db (db.setStateObject addr (newObject emptyAccount)) (.createObject addr)
  | object (addr : Address) {obj obj' : StateObject} {e : JournalEntry}
      (hget : db.getStateObject addr = some obj) (h : ObjectChange db addr obj obj' e) :
      Change db (db.setStateObject addr obj') e
  | outside {db' : Db} {e : JournalEntry} (h : OutsideChange db db' e) : Change db db' e

/-- Changes one after the other, each with a property, and their entries, the newest first. -/
inductive Changes (P : Db → Db → JournalEntry → Prop) : Db → Db → List JournalEntry → Prop where
  | nil {db : Db} : Changes P db db []
  | snoc {db db' db'' : Db} {e : JournalEntry} {es : List JournalEntry} (h : Changes P db db' es)
      (hchange : Change db' db'' e) (hP : P db' db'' e) : Changes P db db'' (e :: es)

variable {P : Db → Db → JournalEntry → Prop}

theorem Changes.single (h : Change db db' e) (hP : P db db' e) : Changes P db db' [e] := .snoc .nil h hP

theorem Changes.append {db'' : Db} {fs : List JournalEntry} (h : Changes P db db' es)
    (h' : Changes P db' db'' fs) : Changes P db db'' (fs ++ es) := by
  induction h' with
  | nil => exact h
  | snoc _ hchange hP ih => exact .snoc ih hchange hP

theorem Changes.imp {Q : Db → Db → JournalEntry → Prop}
    (hPQ : ∀ db db' e, Change db db' e → P db db' e → Q db db' e) (h : Changes P db db' es) :
    Changes Q db db' es := by
  induction h with
  | nil => exact .nil
  | snoc _ hchange hP ih => exact .snoc ih hchange (hPQ _ _ _ hchange hP)

end Db

/-- The account that an operation changes. -/
def Op.touches : Op → Option Address
  | addBalance addr _ | subBalance addr _ | setBalance addr _ | setNonce addr _ | setCode addr _
  | setState addr _ _ | createAccount addr | createContract addr | selfDestruct addr => some addr
  | setTransientState .. | addRefund _ | subRefund _ | addLog _ | addAddressToAccessList _
  | addSlotToAccessList .. => none

/-- The account whose balance an operation sets. -/
def Op.pays : Op → Option Address
  | addBalance addr _ | subBalance addr _ | setBalance addr _ => some addr
  | _ => none

/-- The entries of changes that are restricted nowhere. -/
def JournalEntry.plain : JournalEntry → Bool
  | .balance .. | .selfDestruct _ | .code .. | .createContract _ => false
  | _ => true

namespace Db

variable {db db' : Db} {addr : Address} {es : List JournalEntry} {P : Db → Db → JournalEntry → Prop}

/-! ## Operations are changes -/

/-- `P` holds of the plain changes of an account, and of those of none. -/
def PlainAt (P : Db → Db → JournalEntry → Prop) (addr : Option Address) : Prop :=
  ∀ db db' e, JournalEntry.plain e = true → (∀ other, e.dirtied = some other → addr = some other) →
    P db db' e

theorem PlainAt.of_all (h : ∀ db db' e, JournalEntry.plain e = true → P db db' e)
    (addr : Option Address) : PlainAt P addr := fun db db' e hplain _ => h db db' e hplain

/-- `P` holds of the changes of the balance of an account. -/
def BalanceAt (P : Db → Db → JournalEntry → Prop) (addr : Address) : Prop :=
  ∀ (db : Db) obj amount, db.getStateObject addr = some obj →
    P db (db.setStateObject addr { obj with account.balance := amount }) (.balance addr obj.account.balance)

section Plain

variable (hplain : PlainAt P (some addr))

include hplain

theorem onObject_changes {k : Db → StateObject → Effect}
    (hk : ∀ db₁ obj db₂ fs, (db₁ = db ∨ obj = newObject emptyAccount) →
      db₁.getStateObject addr = some obj → k db₁ obj = some (db₂, fs) → Changes P db₁ db₂ fs)
    (h : db.onObject addr k = some (db', es)) : Changes P db db' es := by
  unfold onObject at h
  split at h
  · next obj hobj => exact hk db obj db' es (.inl rfl) hobj h
  · next hobj =>
    obtain ⟨⟨db₂, fs⟩, hfs, heq⟩ := Option.map_eq_some_iff.mp h
    cases heq
    have hcreate : Changes P db _ _ := .single (.createObject addr hobj) (hplain _ _ _ rfl fun _ h => h)
    exact hcreate.append (hk _ _ _ _ (.inr rfl) getStateObject_set_self hfs)

omit hplain in
theorem setObjBalance_changes {amount : Nat} {obj : StateObject} (hbalance : BalanceAt P addr)
    (hget : db.getStateObject addr = some obj) (h : setObjBalance addr amount db obj = some (db', es)) :
    Changes P db db' es := by
  cases h
  exact .single (.object addr hget (.balance amount)) (hbalance db obj amount hget)

theorem addBalance_changes {amount : Nat} (hbalance : BalanceAt P addr)
    (h : db.addBalance addr amount = some (db', es)) :
    Changes P db db' es := by
  refine onObject_changes hplain (fun db₁ obj db₂ fs _ hget hk => ?_) h
  split_ifs at hk
  · cases hk
    exact .nil
  · exact setObjBalance_changes hbalance hget hk

theorem subBalance_changes {amount : Nat} (hbalance : BalanceAt P addr)
    (h : db.subBalance addr amount = some (db', es)) :
    Changes P db db' es := by
  refine onObject_changes hplain (fun db₁ obj db₂ fs _ hget hk => ?_) h
  split_ifs at hk
  · cases hk
    exact .nil
  · exact setObjBalance_changes hbalance hget hk

theorem setBalance_changes {amount : Nat} (hbalance : BalanceAt P addr)
    (h : db.setBalance addr amount = some (db', es)) :
    Changes P db db' es :=
  onObject_changes hplain (fun _ _ _ _ _ hget hk => setObjBalance_changes hbalance hget hk) h

theorem setNonce_changes {nonce : Nat} (h : db.setNonce addr nonce = some (db', es)) :
    Changes P db db' es := by
  refine onObject_changes hplain (fun db₁ obj db₂ fs _ hget hk => ?_) h
  cases hk
  exact .single (.object addr hget (.nonce nonce)) (hplain _ _ _ rfl fun _ h => h)

theorem setState_changes {key value : Word} (h : db.setState addr key value = some (db', es)) :
    Changes P db db' es := by
  refine onObject_changes hplain (fun db₁ obj db₂ fs _ hget hk => ?_) h
  simp only at hk
  split_ifs at hk
  · cases hk
    exact .nil
  · cases hk
    exact .single (.object addr hget (.storage key value)) (hplain _ _ _ rfl fun _ h => h)

theorem setCode_changes {code : Option Bytes}
    (hP : ∀ db₁ obj, (db₁ = db ∨ obj = newObject emptyAccount) → db₁.getStateObject addr = some obj →
      P db₁ (db₁.setStateObject addr
          { obj with code, account.codeHash := keccak256 (code.getD []), dirtyCode := true })
        (.code addr (db₁.code obj) obj.account.codeHash))
    (h : db.setCode addr code = some (db', es)) : Changes P db db' es := by
  refine onObject_changes hplain (fun db₁ obj db₂ fs hor hget hk => ?_) h
  cases hk
  exact .single (.object addr hget (.code code)) (hP db₁ obj hor hget)

theorem createAccount_changes (hnew : db.exist addr = false)
    (h : db.createAccount addr = some (db', es)) : Changes P db db' es := by
  cases h
  exact .single (.createObject addr (by simpa [exist] using hnew)) (hplain _ _ _ rfl fun _ h => h)

end Plain

section Outside

variable (hplain : PlainAt P none)

include hplain

theorem setTransientState_changes {key value : Word}
    (h : db.setTransientState addr key value = some (db', es)) : Changes P db db' es := by
  simp only [setTransientState] at h
  split_ifs at h
  · cases h
    exact .nil
  · cases h
    exact .single (.outside (.transient addr key value)) (hplain _ _ _ rfl nofun)

theorem addRefund_changes {gas : Nat} (h : db.addRefund gas = some (db', es)) : Changes P db db' es := by
  cases h
  exact .single (.outside (.refund _)) (hplain _ _ _ rfl nofun)

theorem subRefund_changes {gas : Nat} (h : db.subRefund gas = some (db', es)) : Changes P db db' es := by
  unfold subRefund at h
  split_ifs at h
  cases h
  exact .single (.outside (.refund _)) (hplain _ _ _ rfl nofun)

theorem addLog_changes {log : Bytes} (h : db.addLog log = some (db', es)) : Changes P db db' es := by
  cases h
  exact .single (.outside (.addLog log)) (hplain _ _ _ rfl nofun)

omit hplain in
theorem addAddress_eq_self {al : AccessList} (h : al.addresses addr ≠ none) :
    al.addAddress addr = (al, false) := by
  simp [AccessList.addAddress, AccessList.containsAddress, Option.isSome_iff_ne_none, h]

omit hplain in
theorem addAddress_of_absent {al : AccessList} (h : al.addresses addr = none) :
    al.addAddress addr = ({ al with addresses := Function.update al.addresses addr (some none) }, true) := by
  simp [AccessList.addAddress, AccessList.containsAddress, h]

theorem addAddressToAccessList_changes (h : db.addAddressToAccessList addr = some (db', es)) :
    Changes P db db' es := by
  unfold addAddressToAccessList at h
  by_cases habsent : db.accessList.addresses addr = none
  · have hchange : OutsideChange db _ _ := .addAddress addr habsent
    rw [addAddress_of_absent habsent] at h hchange
    cases h
    exact .single (.outside hchange) (hplain _ _ _ rfl nofun)
  · rw [addAddress_eq_self habsent] at h
    cases h
    exact .nil

theorem addSlotToAccessList_changes {slot : Word}
    (h : db.addSlotToAccessList addr slot = some (db', es)) : Changes P db db' es := by
  unfold addSlotToAccessList at h
  by_cases habsent : db.accessList.addresses addr = none
  · have haddr : OutsideChange db _ _ := .addAddress addr habsent
    rw [addAddress_of_absent habsent] at haddr
    simp only [AccessList.addSlot, habsent] at h
    cases h
    refine .snoc (.single (.outside haddr) (hplain _ _ _ rfl nofun)) (.outside ?_)
      (hplain _ _ _ rfl nofun)
    have hslot : OutsideChange { db with
        accessList := { db.accessList with
          addresses := Function.update db.accessList.addresses addr (some none) } } _ _ :=
      .addSlot addr slot (by simp) (by simp [AccessList.addSlot])
    simpa [AccessList.addSlot] using hslot
  · cases hnew : (db.accessList.addSlot addr slot).2.2 with
    | true =>
      have hold : (db.accessList.addSlot addr slot).2.1 = false := by
        unfold AccessList.addSlot
        cases hidx : db.accessList.addresses addr with
        | none => exact absurd hidx habsent
        | some idx =>
          cases idx with
          | none => rfl
          | some idx =>
            simp only
            split_ifs <;> rfl
      simp only [hnew, hold] at h
      cases h
      exact .single (.outside (.addSlot addr slot habsent hnew)) (hplain _ _ _ rfl nofun)
    | false =>
      have hsame : db.accessList.addSlot addr slot = (db.accessList, false, false) := by
        unfold AccessList.addSlot at hnew ⊢
        cases hidx : db.accessList.addresses addr with
        | none => exact absurd hidx habsent
        | some idx =>
          cases idx with
          | none => simp [hidx] at hnew
          | some idx =>
            simp only [hidx] at hnew ⊢
            split_ifs at hnew ⊢
            rfl
      rw [hsame] at h
      cases h
      exact .nil

end Outside

section Mirror

variable (hplain : ∀ addr, PlainAt P (some addr)) (hbalance : ∀ addr, BalanceAt P addr)

include hplain hbalance

theorem mirror_changes {blocked : Address → Bool} {event : Event}
    (h : db.mirror blocked event = some (db', es)) : Changes P db db' es := by
  cases event with
  | coinSpent spender amount =>
    simp only [mirror] at h
    split_ifs at h
    · cases h
      exact .nil
    · exact subBalance_changes (hplain spender) (hbalance spender) h
  | coinReceived receiver amount =>
    simp only [mirror] at h
    split_ifs at h
    · cases h
      exact .nil
    · exact addBalance_changes (hplain receiver) (hbalance receiver) h
  | other kind =>
    cases h
    exact .nil

theorem mirrorFrom_changes {blocked : Address → Bool} {eventIdx : Nat} {events : List Event}
    (h : mirrorFrom blocked eventIdx events db = some (db', es)) : Changes P db db' es := by
  induction events generalizing db es eventIdx with
  | nil =>
    cases h
    exact .nil
  | cons event rest ih =>
    unfold mirrorFrom at h
    split_ifs at h
    · exact ih h
    · obtain ⟨⟨db₁, fs⟩, hfirst, hrest⟩ := Option.bind_eq_some_iff.mp h
      obtain ⟨⟨db₂, gs⟩, hgs, heq⟩ := Option.map_eq_some_iff.mp hrest
      cases heq
      exact (mirror_changes hplain hbalance hfirst).append (ih hgs)

end Mirror

theorem createContract_changes
    (hP : ∀ obj, db.getStateObject addr = some obj → P db
      (db.setStateObject addr { obj with newContract := true }) (.createContract addr))
    (h : db.createContract addr = some (db', es)) : Changes P db db' es := by
  obtain ⟨obj, hobj, heq⟩ := Option.map_eq_some_iff.mp h
  split_ifs at heq with hnew
  · cases heq
    exact .nil
  · cases heq
    exact .single (.object addr hobj (.createContract (by simpa using hnew))) (hP obj hobj)

theorem selfDestruct_changes
    (hP : ∀ obj, db.getStateObject addr = some obj → P db
      (db.setStateObject addr { obj with selfDestructed := true }) (.selfDestruct addr))
    (h : db.selfDestruct addr = some (db', es)) : Changes P db db' es := by
  unfold selfDestruct at h
  split at h
  · cases h
    exact .nil
  · next obj hobj =>
    cases h
    exact .single (.object addr hobj .selfDestruct) (hP obj hobj)

/-- What the EVM never does: `CreateAccount` of an account that is there. -/
def Fresh (db : Db) (op : Op) : Prop := ∀ addr, op = .createAccount addr → db.exist addr = false

/-- **Every operation is changes**, with what is known of the three that are restricted. -/
theorem op_changes {op : Op} (hplain : PlainAt P op.touches)
    (hbalance : ∀ addr, op.pays = some addr → BalanceAt P addr) (hfresh : db.Fresh op)
    (hcode : ∀ addr code, op = .setCode addr code → ∀ db₁ obj,
      (db₁ = db ∨ obj = newObject emptyAccount) → db₁.getStateObject addr = some obj →
      P db₁ (db₁.setStateObject addr
          { obj with code, account.codeHash := keccak256 (code.getD []), dirtyCode := true })
        (.code addr (db₁.code obj) obj.account.codeHash))
    (hcontract : ∀ addr, op = .createContract addr → ∀ obj, db.getStateObject addr = some obj →
      P db (db.setStateObject addr { obj with newContract := true }) (.createContract addr))
    (hdestroy : ∀ addr, op = .selfDestruct addr → ∀ obj, db.getStateObject addr = some obj →
      P db (db.setStateObject addr { obj with selfDestructed := true }) (.selfDestruct addr))
    (h : op.apply db = some (db', es)) : Changes P db db' es := by
  cases op with
  | addBalance addr amount => exact addBalance_changes hplain (hbalance addr rfl) h
  | subBalance addr amount => exact subBalance_changes hplain (hbalance addr rfl) h
  | setBalance addr amount => exact setBalance_changes hplain (hbalance addr rfl) h
  | setNonce addr nonce => exact setNonce_changes hplain h
  | setCode addr code => exact setCode_changes hplain (hcode addr code rfl) h
  | setState addr key value => exact setState_changes hplain h
  | setTransientState addr key value => exact setTransientState_changes hplain h
  | addRefund gas => exact addRefund_changes hplain h
  | subRefund gas => exact subRefund_changes hplain h
  | addLog log => exact addLog_changes hplain h
  | addAddressToAccessList addr => exact addAddressToAccessList_changes hplain h
  | addSlotToAccessList addr slot => exact addSlotToAccessList_changes hplain h
  | createAccount addr => exact createAccount_changes hplain (hfresh addr rfl) h
  | createContract addr => exact createContract_changes (hcontract addr rfl) h
  | selfDestruct addr => exact selfDestruct_changes (hdestroy addr rfl) h

end Db

end Vm
