import Limonata.Lib.CacheStack
import Limonata.Lib.Journal
import Limonata.Lib.Machine
import Limonata.Vm.Keeper

/-!
# x/vm — the state database of a transaction

The EVM works on state objects, copies of accounts that are loaded from the context of the
transaction when they are first touched. Every change is journaled and can be undone; `Commit` writes
the accounts that the journal names. A precompile call works on a cached multistore instead: the
journaled changes are flushed into it before the call, and what the call did can be popped again.

The context does not change before `Commit`, so an object that is not in the live set reads as it
will be loaded, and a cached multistore that was not made yet reads as the context. What an object
remembers of the committed storage is left out for the same reason.
-/

namespace Vm

open EncMempool (Bytes bytesOf)
open Machine (wrap64)

/-! ## State objects -/

structure StateObject where
  account : Account
  /-- `none` is Go's nil. -/
  code : Option Bytes
  dirtyStorage : Word → Option Word
  dirtyCode : Bool
  selfDestructed : Bool
  newContract : Bool

/-- `newObject` of an account. -/
def newObject (account : Account) : StateObject := ⟨account, none, fun _ => none, false, false, false⟩

/-- The empty account of `createObject`. -/
def emptyAccount : Account := ⟨0, 0, emptyCodeHash, none⟩

/-! ## Access list -/

/-- The addresses, each with the index of its slots if it has any, and the sets of slots. -/
structure AccessList where
  addresses : Address → Option (Option Nat)
  slots : List (Finset Word)

namespace AccessList

variable (al : AccessList) (addr : Address) (slot : Word)

def containsAddress : Bool := (al.addresses addr).isSome

def contains : Bool × Bool :=
  match al.addresses addr with
  | none => (false, false)
  | some none => (true, false)
  | some (some idx) => (true, slot ∈ al.slots.getD idx ∅)

/-- The list with the address, and whether it is a change. -/
def addAddress : AccessList × Bool :=
  if al.containsAddress addr then (al, false)
  else ({ al with addresses := Function.update al.addresses addr (some none) }, true)

/-- The list with the slot, and whether the address and the slot are changes. -/
def addSlot : AccessList × Bool × Bool :=
  match al.addresses addr with
  | some (some idx) =>
    let slotmap := al.slots.getD idx ∅
    if slot ∈ slotmap then (al, false, false)
    else ({ al with slots := al.slots.set idx (insert slot slotmap) }, false, true)
  | present =>
    ({ addresses := Function.update al.addresses addr (some (some al.slots.length))
       slots := al.slots ++ [{slot}] }, present.isNone, true)

/-- `none` is the panic of a slot that was not added last. -/
def deleteSlot : Option AccessList :=
  match al.addresses addr with
  | some (some idx) =>
    match al.slots[idx]? with
    | none => none
    | some slotmap =>
      let slotmap := slotmap.erase slot
      if slotmap = ∅ then some
        { addresses := Function.update al.addresses addr (some none)
          slots := al.slots.take idx }
      else some { al with slots := al.slots.set idx slotmap }
  | _ => none

def deleteAddress : AccessList :=
  { al with addresses := Function.update al.addresses addr none }

end AccessList

/-! ## Journal -/

/-- An event of a context; those of x/bank name an account and an amount of the EVM denom. -/
inductive Event where
  | coinSpent (spender : Address) (amount : Nat)
  | coinReceived (receiver : Address) (amount : Nat)
  | other (kind : Bytes)
  deriving DecidableEq

inductive JournalEntry where
  | createObject (account : Address)
  | selfDestruct (account : Address)
  | balance (account : Address) (prev : Nat)
  | nonce (account : Address) (prev : Nat)
  | storage (account : Address) (key prevalue : Word)
  | transientStorage (account : Address) (key prevalue : Word)
  | code (account : Address) (prevcode : Option Bytes) (prevhash : CodeHash)
  | refund (prev : Nat)
  | addLog
  | accessListAddAccount (address : Address)
  | accessListAddSlot (address : Address) (slot : Word)
  | precompileCall (snapshot : Nat) (prevEvents : List Event) (prevProcessedEventCount : Nat)
  | createContract (account : Address)

namespace JournalEntry

/-- `Dirtied`: the account that the entry changed. -/
def dirtied : JournalEntry → Option Address
  | createObject account | selfDestruct account | balance account _ | nonce account _
  | storage account _ _ | code account _ _ => some account
  | transientStorage .. | refund _ | addLog | accessListAddAccount _ | accessListAddSlot ..
  | precompileCall .. | createContract _ => none

end JournalEntry

/-- The dirty addresses in the order of `sortedDirties`. -/
def sortedDirties (journal : List JournalEntry) : List Address :=
  (journal.filterMap JournalEntry.dirtied).dedup.insertionSort (· ≤ ·)

/-! ## The database -/

/-- The fields of `StateDB` beside the journal and the revisions. -/
structure Db where
  /-- The context of the transaction. -/
  ctx : World
  /-- The multistore of the cached context of precompile calls. -/
  cache : CacheStack World
  /-- The events of the cached context. -/
  events : List Event
  processedEventsCount : Nat
  stateObjects : Address → Option StateObject
  transientStorage : Address → Word → Word
  refund : Nat
  logs : List Bytes
  accessList : AccessList
  precompileCallsCounter : Nat

/-- `G` is what is said about a run beside the database, nothing in the database itself. -/
abbrev StateDB (G : Type) := Journaled Db JournalEntry G

namespace Db

/-- `New`: a database over a context with some events. -/
def new (ctx : World) (events : List Event) : Db where
  ctx := ctx
  cache := ⟨ctx, []⟩
  events := events
  processedEventsCount := events.length
  stateObjects _ := none
  transientStorage _ _ := 0
  refund := 0
  logs := []
  accessList := ⟨fun _ => none, []⟩
  precompileCallsCounter := 0

/-- A database over a context, before any operation. -/
def start (ctx : World) (events : List Event) : StateDB Unit := Journaled.fresh (new ctx events) ()

/-! ## Reading -/

section

variable (db : Db) (addr : Address)

def getStateObject : Option StateObject :=
  match db.stateObjects addr with
  | some obj => some obj
  | none => (db.ctx.getAccount addr).map newObject

/-- The code of an object, from the context if it was not set; `none` is Go's nil. -/
def code (obj : StateObject) : Option Bytes :=
  match obj.code with
  | some code => some code
  | none => if obj.account.codeHash = emptyCodeHash then none else db.ctx.getCode obj.account.codeHash

/-- `stateObject.GetState`. -/
def objState (obj : StateObject) (key : Word) : Word :=
  (obj.dirtyStorage key).getD (db.ctx.getState addr key)

def exist : Bool := (db.getStateObject addr).isSome

def getBalance : Nat :=
  ((db.getStateObject addr).map fun obj => obj.account.balance).getD 0

def getNonce : Nat :=
  ((db.getStateObject addr).map fun obj => obj.account.nonce).getD 0

def getCode : Bytes :=
  ((db.getStateObject addr).bind db.code).getD []

def getState (key : Word) : Word :=
  ((db.getStateObject addr).map fun obj => db.objState addr obj key).getD 0

def hasSelfDestructed : Bool :=
  ((db.getStateObject addr).map StateObject.selfDestructed).getD false

def isNewContract : Bool :=
  ((db.getStateObject addr).map StateObject.newContract).getD false

/-! ## Undoing -/

def setStateObject (obj : StateObject) : Db :=
  { db with stateObjects := Function.update db.stateObjects addr (some obj) }

/-- Change a state object that must be there; `none` is a nil dereference. -/
def updateObject (f : StateObject → StateObject) : Option Db :=
  (db.getStateObject addr).map fun obj => db.setStateObject addr (f obj)

end

/-- `JournalEntry.Revert`. -/
def undo : JournalEntry → Db → Option Db
  | .createObject account, db =>
    some { db with stateObjects := Function.update db.stateObjects account none }
  | .selfDestruct account, db =>
    match db.getStateObject account with
    | none => some db
    | some obj => some (db.setStateObject account { obj with selfDestructed := false })
  | .balance account prev, db => db.updateObject account fun obj => { obj with account.balance := prev }
  | .nonce account prev, db => db.updateObject account fun obj => { obj with account.nonce := prev }
  | .storage account key prevalue, db =>
    db.updateObject account fun obj =>
      { obj with dirtyStorage := Function.update obj.dirtyStorage key (some prevalue) }
  | .transientStorage account key prevalue, db =>
    some { db with
      transientStorage := Function.update db.transientStorage account
        (Function.update (db.transientStorage account) key prevalue) }
  | .code account prevcode prevhash, db =>
    db.updateObject account fun obj =>
      { obj with code := prevcode, account.codeHash := prevhash, dirtyCode := true }
  | .refund prev, db => some { db with refund := prev }
  | .addLog, db => if db.logs = [] then none else some { db with logs := db.logs.dropLast }
  | .accessListAddAccount address, db =>
    some { db with accessList := db.accessList.deleteAddress address }
  | .accessListAddSlot address slot, db =>
    (db.accessList.deleteSlot address slot).map fun al => { db with accessList := al }
  | .precompileCall snapshot prevEvents prevCount, db =>
    (db.cache.revertTo snapshot).map fun cache =>
      { db with cache, events := prevEvents, processedEventsCount := prevCount }
  | .createContract account, db => db.updateObject account fun obj => { obj with newContract := false }

/-! ## Changing

An operation gives the database after it and the entries it appended, the newest first; `none` is a
panic. -/

abbrev Effect := Option (Db × List JournalEntry)

/-- `getOrNewStateObject`, and what is then done with the object. -/
def onObject (db : Db) (addr : Address) (k : Db → StateObject → Effect) : Effect :=
  match db.getStateObject addr with
  | some obj => k db obj
  | none =>
    let obj := newObject emptyAccount
    (k (db.setStateObject addr obj) obj).map fun r => (r.1, r.2 ++ [.createObject addr])

/-- `stateObject.SetBalance`. -/
def setObjBalance (addr : Address) (amount : Nat) (db : Db) (obj : StateObject) : Effect :=
  some (db.setStateObject addr { obj with account.balance := amount }, [.balance addr obj.account.balance])

section

variable (db : Db) (addr : Address)

def addBalance (amount : Nat) : Effect :=
  db.onObject addr fun db obj =>
    if amount = 0 then some (db, [])
    else setObjBalance addr ((obj.account.balance + amount) % 2 ^ 256) db obj

def subBalance (amount : Nat) : Effect :=
  db.onObject addr fun db obj =>
    if amount = 0 then some (db, [])
    else if obj.account.balance < amount then none
    else setObjBalance addr (obj.account.balance - amount) db obj

def setBalance (amount : Nat) : Effect :=
  db.onObject addr (setObjBalance addr amount)

def setNonce (nonce : Nat) : Effect :=
  db.onObject addr fun db obj =>
    some (db.setStateObject addr { obj with account.nonce := nonce }, [.nonce addr obj.account.nonce])

/-- `none` for the code is Go's nil. -/
def setCode (code : Option Bytes) : Effect :=
  db.onObject addr fun db obj =>
    some (db.setStateObject addr
        { obj with code, account.codeHash := keccak256 (code.getD []), dirtyCode := true },
      [.code addr (db.code obj) obj.account.codeHash])

def setState (key value : Word) : Effect :=
  db.onObject addr fun db obj =>
    let prev := db.objState addr obj key
    if prev = value then some (db, [])
    else some (db.setStateObject addr
        { obj with dirtyStorage := Function.update obj.dirtyStorage key (some value) },
      [.storage addr key prev])

def setTransientState (key value : Word) : Effect :=
  let prev := db.transientStorage addr key
  if prev = value then some (db, [])
  else some ({ db with
      transientStorage := Function.update db.transientStorage addr
        (Function.update (db.transientStorage addr) key value) },
    [.transientStorage addr key prev])

def addRefund (gas : Nat) : Effect :=
  some ({ db with refund := wrap64 (db.refund + gas) }, [.refund db.refund])

def subRefund (gas : Nat) : Effect :=
  if db.refund < gas then none
  else some ({ db with refund := db.refund - gas }, [.refund db.refund])

def addLog (log : Bytes) : Effect := some ({ db with logs := db.logs ++ [log] }, [.addLog])

def addAddressToAccessList : Effect :=
  let (al, change) := db.accessList.addAddress addr
  some ({ db with accessList := al }, if change then [.accessListAddAccount addr] else [])

def addSlotToAccessList (slot : Word) : Effect :=
  let (al, addrMod, slotMod) := db.accessList.addSlot addr slot
  some ({ db with accessList := al },
    (if slotMod then [.accessListAddSlot addr slot] else [])
      ++ if addrMod then [.accessListAddAccount addr] else [])

def createAccount : Effect :=
  some (db.setStateObject addr (newObject emptyAccount), [.createObject addr])

def createContract : Effect :=
  (db.getStateObject addr).map fun obj =>
    if obj.newContract then (db, [])
    else (db.setStateObject addr { obj with newContract := true }, [.createContract addr])

/-- The change is journaled even if the account is destroyed already. -/
def selfDestruct : Effect :=
  match db.getStateObject addr with
  | none => some (db, [])
  | some obj => some (db.setStateObject addr { obj with selfDestructed := true }, [.selfDestruct addr])

end

/-! ## Committing -/

/-- The keys of the dirty storage are written, a zero like any other value. -/
def writeStorage (w : World) (addr : Address) (dirty : Word → Option Word) : World :=
  { w with
    storage := Function.update w.storage addr fun key =>
      match dirty key with
      | some value => some value
      | none => w.storage addr key }

/-- A code that was set is written under the hash of the object; an empty one is deleted there. -/
def commitCode (w : World) (obj : StateObject) : World :=
  match obj.dirtyCode, obj.code with
  | true, some [] => w.setCode obj.account.codeHash none
  | true, some code => w.setCode obj.account.codeHash code
  | _, _ => w

/-- A write after another, if that had no error. -/
def andThen (r : World × Bool) (f : World → World × Bool) : World × Bool :=
  if r.2 then f r.1 else (r.1, false)

/-- The body of the loop of `commitWithCtx`: what was written, and whether there was no error. -/
def commitObject (blocked : Address → Bool) (w : World) (addr : Address) (obj : StateObject) :
    World × Bool :=
  if obj.selfDestructed then
    -- code and account are written first, for the check of `DeleteAccount` to see them
    if obj.dirtyCode = true ∧ obj.code.getD [] ≠ [] then
      andThen ((commitCode w obj).setAccount addr blocked obj.account) fun w =>
        w.deleteAccount addr blocked
    else w.deleteAccount addr blocked
  else
    andThen ((commitCode w obj).setAccount addr blocked obj.account) fun w =>
      (writeStorage w addr obj.dirtyStorage, true)

/-- `commitWithCtx` over the dirty addresses; the first error ends it, and what was written before
stays. `none` is the nil dereference of an object that is not live. -/
def commitWithCtx (blocked : Address → Bool) (objs : Address → Option StateObject) :
    List Address → World → Option (World × Bool)
  | [], w => some (w, true)
  | addr :: rest, w =>
    (objs addr).bind fun obj =>
      let (w, ok) := commitObject blocked w addr obj
      if ok then commitWithCtx blocked objs rest w else some (w, false)

/-- `Commit`: the cached multistore is written to the context, then the dirty objects are. -/
def commit (blocked : Address → Bool) (db : Db) (journal : List JournalEntry) :
    Option (World × Bool) :=
  commitWithCtx blocked db.stateObjects (sortedDirties journal) db.cache.current

/-- `FlushToCacheCtx`, and whether there was no error. -/
def flushToCacheCtx (blocked : Address → Bool) (db : Db) (journal : List JournalEntry) :
    Option (Db × Bool) :=
  (commitWithCtx blocked db.stateObjects (sortedDirties journal) db.cache.current).map fun (w, ok) =>
    let db := { db with cache := db.cache.modify fun _ => w }
    if ok then ({ db with processedEventsCount := db.events.length }, true) else (db, false)

end Db

/-! ## Operations -/

/-- The operations of the EVM on the database that change it. -/
inductive Op where
  | addBalance (addr : Address) (amount : Nat)
  | subBalance (addr : Address) (amount : Nat)
  | setBalance (addr : Address) (amount : Nat)
  | setNonce (addr : Address) (nonce : Nat)
  | setCode (addr : Address) (code : Option Bytes)
  | setState (addr : Address) (key value : Word)
  | setTransientState (addr : Address) (key value : Word)
  | addRefund (gas : Nat)
  | subRefund (gas : Nat)
  | addLog (log : Bytes)
  | addAddressToAccessList (addr : Address)
  | addSlotToAccessList (addr : Address) (slot : Word)
  | createAccount (addr : Address)
  | createContract (addr : Address)
  | selfDestruct (addr : Address)

def Op.apply (db : Db) : Op → Db.Effect
  | addBalance addr amount => db.addBalance addr amount
  | subBalance addr amount => db.subBalance addr amount
  | setBalance addr amount => db.setBalance addr amount
  | setNonce addr nonce => db.setNonce addr nonce
  | setCode addr code => db.setCode addr code
  | setState addr key value => db.setState addr key value
  | setTransientState addr key value => db.setTransientState addr key value
  | addRefund gas => db.addRefund gas
  | subRefund gas => db.subRefund gas
  | addLog log => db.addLog log
  | addAddressToAccessList addr => db.addAddressToAccessList addr
  | addSlotToAccessList addr slot => db.addSlotToAccessList addr slot
  | createAccount addr => db.createAccount addr
  | createContract addr => db.createContract addr
  | selfDestruct addr => db.selfDestruct addr

end Vm
