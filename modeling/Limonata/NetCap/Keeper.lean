import Limonata.EncMempool.Types
import Limonata.Lib.Check
import Limonata.Lib.Machine
import Limonata.Lib.RecStore
import Limonata.Lib.Reach

/-!
# x/netcap — the net-seller cap

A restricted address may send out at most `CapPerWindow` of the native coin in a window of
`WindowSeconds`. The accumulator of an address is the start of its current window and what was sent
in it; the first spend after the window expired starts a new one.

Block times are in whole seconds and an address is its text. A nil amount is zero: `CheckAndRecord`
treats the two alike.
-/

namespace NetCap

open EncMempool (Bytes bytesOf)
open Machine

/-! ## Params and state -/

structure Params where
  enabled : Bool
  restrictedAddresses : List Bytes
  whitelist : List Bytes
  windowSeconds : Int
  /-- The cap as `NewIntFromString` reads it; `none` is a text that is no integer. -/
  capPerWindow : Option Int

inductive GenesisError where
  | windowSeconds
  | capPerWindow
  deriving DecidableEq

/-- `GenesisState.Validate`; the genesis state holds the params and nothing else. -/
def Params.validate (p : Params) : Except GenesisError Unit :=
  if p.enabled = false then .ok ()
  else if p.windowSeconds ≤ 0 then .error .windowSeconds
  else match p.capPerWindow with
    | none => .error .capPerWindow
    | some v => if v < 0 then .error .capPerWindow else .ok ()

/-- The accumulator of a restricted address. -/
structure WindowSpend where
  windowStartUnix : Int
  spent : Int
  deriving DecidableEq

structure State where
  params : Params
  spends : KVStore Bytes WindowSpend

structure Ctx where
  /-- `ctx.BlockTime().Unix()`. -/
  blockTime : Int
  /-- A `CheckTx` or `ReCheckTx`. -/
  isCheckTx : Bool
  /-- Whether the account keeper has a module account at the address. -/
  isModuleAccount : Bytes → Bool

/-! ## `CheckAndRecord` -/

namespace State

section

variable (ctx : Ctx) (s : State) (now : Int) (addr : Bytes)

def getSpend : WindowSpend := (s.spends.lookup addr).getD ⟨0, 0⟩

def setSpend (ws : WindowSpend) : State :=
  { s with spends := s.spends.assign addr ws }

/-- Whether a spend of the address starts a new window. A start of zero stands for no window. -/
def restarts : Prop :=
  (s.getSpend addr).windowStartUnix = 0
    ∨ s.params.windowSeconds ≤ now - (s.getSpend addr).windowStartUnix

instance (s : State) (now : Int) (addr : Bytes) : Decidable (s.restarts now addr) :=
  inferInstanceAs (Decidable (_ ∨ _))

/-- The window that a spend of the address counts in. -/
def currentWindow : WindowSpend :=
  if s.restarts now addr then ⟨now, 0⟩ else s.getSpend addr

inductive CapError where
  | netCapExceeded (fromAddr : Bytes) (spent amount capAmt windowSeconds : Int)
  /-- The panic of an addition beyond 256 bits. -/
  | overflow
  deriving DecidableEq

def checkAndRecord (fromAddr toAddr : Bytes) (amount : Int) : Except CapError State :=
  let p := s.params
  if p.enabled = false ∨ amount ≤ 0 then .ok s
  else if fromAddr ∉ p.restrictedAddresses then .ok s
  else if toAddr ∈ p.whitelist ∨ ctx.isModuleAccount toAddr = true then .ok s
  else match p.capPerWindow with
    -- a misconfigured cap fails open
    | none => .ok s
    | some capAmt =>
      let ws := s.currentWindow ctx.blockTime fromAddr
      match add256 ws.spent amount with
      | none => .error .overflow
      | some newSpent =>
        if capAmt < newSpent then
          .error (.netCapExceeded fromAddr ws.spent amount capAmt p.windowSeconds)
        else if ctx.isCheckTx then .ok s
        else .ok (s.setSpend fromAddr { ws with spent := newSpent })

end

/-- Whether the cap applies to a transfer. -/
def Capped (ctx : Ctx) (p : Params) (fromAddr toAddr : Bytes) (amount : Int) : Prop :=
  p.enabled = true ∧ 0 < amount ∧ fromAddr ∈ p.restrictedAddresses ∧ toAddr ∉ p.whitelist
    ∧ ctx.isModuleAccount toAddr = false

instance (ctx : Ctx) (p : Params) (fromAddr toAddr : Bytes) (amount : Int) :
    Decidable (Capped ctx p fromAddr toAddr amount) :=
  inferInstanceAs (Decidable (_ ∧ _ ∧ _ ∧ _ ∧ _))

variable {ctx : Ctx} {s s' : State} {fromAddr toAddr : Bytes} {amount capAmt : Int}

theorem getSpend_setSpend (s : State) (addr : Bytes) (ws : WindowSpend) (x : Bytes) :
    (s.setSpend addr ws).getSpend x = if x = addr then ws else s.getSpend x := by
  unfold getSpend setSpend
  rw [KVStore.lookup_assign]
  split_ifs <;> rfl

theorem checkAndRecord_of_not_capped
    (h : ¬ Capped ctx s.params fromAddr toAddr amount) :
    s.checkAndRecord ctx fromAddr toAddr amount = .ok s := by
  unfold checkAndRecord
  by_cases henabled : s.params.enabled = false ∨ amount ≤ 0
  · exact if_pos henabled
  by_cases hfrom : fromAddr ∉ s.params.restrictedAddresses
  · simp only [if_neg henabled, if_pos hfrom]
  by_cases hto : toAddr ∈ s.params.whitelist ∨ ctx.isModuleAccount toAddr = true
  · simp only [if_neg henabled, if_neg hfrom, if_pos hto]
  · push Not at henabled hfrom hto
    have henabled' := (Bool.not_eq_false _).mp henabled.1
    exact absurd ⟨henabled', henabled.2, hfrom, hto.1, (Bool.not_eq_true _).mp hto.2⟩ h

/-- What a delivered transfer under the cap does: it is admitted if its window has room, and then
recorded. -/
theorem checkAndRecord_capped (hcheck : ctx.isCheckTx = false)
    (hcapped : Capped ctx s.params fromAddr toAddr amount)
    (hcap : s.params.capPerWindow = some capAmt)
    (h : s.checkAndRecord ctx fromAddr toAddr amount = .ok s') :
    let ws := s.currentWindow ctx.blockTime fromAddr
    ws.spent + amount ≤ capAmt
      ∧ s' = s.setSpend fromAddr ⟨ws.windowStartUnix, ws.spent + amount⟩ := by
  obtain ⟨henabled, hpos, hfrom, hwhite, hmodule⟩ := hcapped
  unfold checkAndRecord at h
  simp only [henabled, hfrom, hwhite, hmodule, hcap, Bool.true_eq_false, Bool.false_eq_true,
    not_le.mpr hpos, not_true, or_self, if_false] at h
  cases hadd : add256 (s.currentWindow ctx.blockTime fromAddr).spent amount with
  | none => simp [hadd] at h
  | some newSpent =>
    obtain ⟨-, rfl⟩ := add256_eq_some.mp hadd
    simp only [hadd, hcheck, Bool.false_eq_true, if_false] at h
    split_ifs at h with hroom
    exact ⟨not_lt.mp hroom, (Except.ok.inj h).symm⟩

end State

end NetCap
