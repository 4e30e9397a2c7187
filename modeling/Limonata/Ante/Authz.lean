import Limonata.Lib.Check

/-!
# ante — the authz limiter

Before a Cosmos transaction runs, the authz limiter walks its messages, which nest: a `MsgExec` holds
a list of messages. It refuses a message of a disabled type inside a `MsgExec`, a `MsgGrant` for a
disabled type, and nesting that is too deep.

The level it measures is a counter of the loop over a list of messages, raised at every `MsgExec`
and not lowered behind it, so a `MsgExec` counts the ones before it in its list as well.
-/

namespace Ante

/-- A message, as far as the limiter looks into it. -/
inductive Msg where
  | exec (msgs : List Msg)
  | grant (authorization : String)
  | other (typeURL : String)

def maxNestedMsgs : Nat := 7

/-- The types that `newCosmosAnteHandler` disables. -/
def disabledMsgTypes : List String :=
  ["/cosmos.evm.vm.v1.MsgEthereumTx", "/cosmos.vesting.v1beta1.MsgCreateVestingAccount"]

def Msg.msgTypeURL : Msg → String
  | exec _ => "/cosmos.authz.v1beta1.MsgExec"
  | grant _ => "/cosmos.authz.v1beta1.MsgGrant"
  | other url => url

def isDisabledMsg (disabled : List String) (msgTypeURL : String) : Bool :=
  disabled.any fun disabledType => msgTypeURL == disabledType

/-- The test at the head of `checkDisabledMsgs`. -/
def checkNestedLvl (nestedLvl : Nat) : Except String Unit :=
  rejectIf (maxNestedMsgs ≤ nestedLvl)
    s!"found more nested msgs than permitted; got: {nestedLvl}, expected: <{maxNestedMsgs}"

def disabledMsgError (url : String) : String := s!"found disabled msg type: {url}"

/-- The loop of `checkDisabledMsgs`, with its counter. -/
def checkMsgs (disabled : List String) (isAuthzInnerMsg : Bool) (nestedLvl : Nat) :
    List Msg → Except String Unit
  | [] => .ok ()
  | .exec innerMsgs :: msgs => do
    checkNestedLvl (nestedLvl + 1)
    checkMsgs disabled true (nestedLvl + 1) innerMsgs
    -- the counter stays raised for the messages that follow
    checkMsgs disabled isAuthzInnerMsg (nestedLvl + 1) msgs
  | .grant authorization :: msgs => do
    rejectIf (isDisabledMsg disabled authorization) (disabledMsgError authorization)
    checkMsgs disabled isAuthzInnerMsg nestedLvl msgs
  | .other url :: msgs => do
    rejectIf (isAuthzInnerMsg && isDisabledMsg disabled url) (disabledMsgError url)
    checkMsgs disabled isAuthzInnerMsg nestedLvl msgs

def checkDisabledMsgs (disabled : List String) (msgs : List Msg) (isAuthzInnerMsg : Bool)
    (nestedLvl : Nat) : Except String Unit := do
  checkNestedLvl nestedLvl
  checkMsgs disabled isAuthzInnerMsg nestedLvl msgs

/-! ## What a list of messages holds -/

/-- The message occurs in the list under this many nested `MsgExec`. -/
def OccursAt (m : Msg) : Nat → List Msg → Prop
  | 0, msgs => m ∈ msgs
  | d + 1, msgs => ∃ inner, Msg.exec inner ∈ msgs ∧ OccursAt m d inner

/-- No message of a disabled type inside a `MsgExec`, no `MsgGrant` for one, and no chain of nested
`MsgExec` that takes the level of the innermost messages to the maximum. -/
@[mk_iff] structure Permitted (disabled : List String) (msgs : List Msg) : Prop where
  inner : ∀ m d, OccursAt m (d + 1) msgs → m.msgTypeURL ∉ disabled
  grants : ∀ url d, OccursAt (.grant url) d msgs → url ∉ disabled
  nesting : ∀ inner d, OccursAt (.exec inner) d msgs → 1 + (d + 1) < maxNestedMsgs

/-- The depth of the messages when a `MsgExec` counts as nested in the ones before it in its list. -/
def siblingDepth : List Msg → Nat
  | [] => 0
  | .exec inner :: msgs => max (siblingDepth inner) (siblingDepth msgs) + 1
  | .grant _ :: msgs | .other _ :: msgs => siblingDepth msgs

variable {disabled : List String} {m x : Msg} {msgs inner : List Msg} {d lvl : Nat}

theorem not_occursAt_nil : ¬ OccursAt m d [] := by
  cases d with
  | zero | succ => simp [OccursAt]

/-- A fact about every occurrence, from the head, its inner messages, and the rest. -/
theorem forall_occursAt_cons {P : Msg → Nat → Prop} :
    (∀ m d, OccursAt m d (x :: msgs) → P m d)
      ↔ P x 0 ∧ (∀ inner, x = .exec inner → ∀ m d, OccursAt m d inner → P m (d + 1))
        ∧ ∀ m d, OccursAt m d msgs → P m d := by
  constructor
  · intro h
    refine ⟨h x 0 List.mem_cons_self, ?_, ?_⟩
    · rintro inner rfl m d hocc
      exact h m (d + 1) ⟨inner, List.mem_cons_self, hocc⟩
    · intro m d hocc
      apply h m d
      cases d with
      | zero => exact List.mem_cons_of_mem _ hocc
      | succ d =>
        obtain ⟨inner, hmem, hocc⟩ := hocc
        exact ⟨inner, List.mem_cons_of_mem _ hmem, hocc⟩
  · rintro ⟨hhead, hinner, hrest⟩ m (_ | d) hocc
    · rcases List.mem_cons.mp hocc with rfl | hmem
      · exact hhead
      · exact hrest m 0 hmem
    · obtain ⟨inner, hmem, hocc⟩ := hocc
      rcases List.mem_cons.mp hmem with heq | hmem
      · exact hinner inner heq.symm m d hocc
      · exact hrest m (d + 1) ⟨inner, hmem, hocc⟩

theorem occursAt_congr {msgs' : List Msg} (h : ∀ m, m ∈ msgs' ↔ m ∈ msgs) :
    OccursAt m d msgs' ↔ OccursAt m d msgs := by
  cases d with
  | zero => exact h m
  | succ e => simp only [OccursAt, h]

theorem siblingDepth_exec (hmem : Msg.exec inner ∈ msgs) :
    siblingDepth inner < siblingDepth msgs := by
  induction msgs with
  | nil => cases hmem
  | cons x msgs ih =>
    cases x with
    | exec other =>
      simp only [List.mem_cons, Msg.exec.injEq] at hmem
      simp only [siblingDepth]
      rcases hmem with rfl | hmem
      · omega
      · have := ih hmem
        omega
    | grant url | other url => simpa [siblingDepth] using ih (by simpa using hmem)

theorem lt_siblingDepth (h : OccursAt (.exec inner) d msgs) : d < siblingDepth msgs := by
  induction d generalizing msgs with
  | zero => exact Nat.zero_lt_of_lt (siblingDepth_exec h)
  | succ d ih =>
    obtain ⟨outer, hmem, hocc⟩ := h
    have := ih hocc
    have := siblingDepth_exec hmem
    omega

/-! ## What the walk accepts -/

/-- The test of the walk on a message under this many `MsgExec`. -/
def Passes (disabled : List String) (isAuthzInnerMsg : Bool) : Msg → Nat → Prop
  | .exec _, _ => True
  | .grant url, _ => url ∉ disabled
  | .other url, d => isAuthzInnerMsg = true ∨ d ≠ 0 → url ∉ disabled

theorem passes_succ {isInner : Bool} :
    Passes disabled isInner m (d + 1) ↔ Passes disabled true m d := by
  cases m with
  | exec | grant => exact Iff.rfl
  | other => simp [Passes]

theorem isDisabledMsg_iff {url : String} : isDisabledMsg disabled url = true ↔ url ∈ disabled := by
  simp [isDisabledMsg]

theorem checkNestedLvl_ok : checkNestedLvl lvl = .ok () ↔ lvl < maxNestedMsgs := by
  simp [checkNestedLvl]

/-- The walk accepts a list exactly when every message passes and the siblings' depth fits. -/
theorem checkMsgs_ok (isInner : Bool) (hlvl : lvl < maxNestedMsgs) :
    checkMsgs disabled isInner lvl msgs = .ok ()
      ↔ (∀ m d, OccursAt m d msgs → Passes disabled isInner m d)
        ∧ lvl + siblingDepth msgs < maxNestedMsgs := by
  fun_induction checkMsgs disabled isInner lvl msgs with
  | case1 isInner lvl => simpa [not_occursAt_nil, siblingDepth] using hlvl
  | case2 isInner lvl inner msgs ihInner ihRest =>
    simp only [Check.bind_unit_eq_ok, checkNestedLvl_ok, forall_occursAt_cons, siblingDepth,
      Msg.exec.injEq, forall_eq', passes_succ]
    constructor
    · rintro ⟨hnext, hinner, hrest⟩
      obtain ⟨hpass, hdepth⟩ := (ihInner hnext).mp hinner
      obtain ⟨hpass', hdepth'⟩ := (ihRest hnext).mp hrest
      exact ⟨⟨trivial, hpass, hpass'⟩, by omega⟩
    · rintro ⟨⟨-, hpass, hpass'⟩, hdepth⟩
      have hnext : lvl + 1 < maxNestedMsgs := by omega
      exact ⟨hnext, (ihInner hnext).mpr ⟨hpass, by omega⟩, (ihRest hnext).mpr ⟨hpass', by omega⟩⟩
  | case3 isInner lvl url msgs ih =>
    simp [isDisabledMsg_iff, ih hlvl, forall_occursAt_cons, siblingDepth, Passes, and_assoc]
  | case4 isInner lvl url msgs ih =>
    simp [isDisabledMsg_iff, ih hlvl, forall_occursAt_cons, siblingDepth, Passes, and_assoc]

/-- What the deployed limiter accepts: the permitted lists that also fit with their siblings. -/
theorem checkDisabledMsgs_ok : checkDisabledMsgs disabledMsgTypes msgs false 1 = .ok ()
    ↔ Permitted disabledMsgTypes msgs ∧ 1 + siblingDepth msgs < maxNestedMsgs := by
  have hstart : 1 < maxNestedMsgs := by decide
  simp only [checkDisabledMsgs, Check.bind_unit_eq_ok, checkNestedLvl_ok, hstart, true_and,
    checkMsgs_ok false hstart]
  refine and_congr_left fun hdepth => ⟨fun h => ⟨?_, ?_, ?_⟩, fun h m d hocc => ?_⟩
  · intro m d hocc
    have := h m (d + 1) hocc
    cases m with
    | exec | grant => simp [Msg.msgTypeURL, disabledMsgTypes]
    | other url => exact this (.inr (Nat.succ_ne_zero d))
  · intro url d hocc
    exact h (.grant url) d hocc
  · intro inner d hocc
    have := lt_siblingDepth hocc
    omega
  · cases m with
    | exec => trivial
    | grant url => exact h.grants url d hocc
    | other url =>
      rintro (hfalse | hd)
      · cases hfalse
      · obtain ⟨e, rfl⟩ := Nat.exists_eq_succ_of_ne_zero hd
        exact h.inner (.other url) e hocc

end Ante
