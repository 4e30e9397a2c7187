import Limonata.NetCap.Window

/-!
# Which outflows the cap sees

Native value leaves an account in the EVM: by the call or the creation that a transaction makes at
its top level, and by calls, creations and self-destructs of code that runs at the account. The cap
looks at the fields of the transaction only, in `NetCapEVMDecorator.AnteHandle` and in the same words
in `executeDecryptedTx`: the value of a call is checked and recorded, a creation is skipped, and what
code does is not seen.

An execution is a run of what the interpreter can do, with its stack of frames. What the code is, is
left open: a frame in which code runs may take any step.
-/

namespace NetCap

open EncMempool (Bytes bytesOf)

/-! ## Executions -/

/-- The fields of a transaction that matter here. -/
structure Tx where
  sender : Bytes
  /-- `none` creates a contract. -/
  toAddr : Option Bytes
  value : Nat
  /-- The valid EIP-7702 authorizations: the authority, and whether it gets a delegation or loses
  it. -/
  authorizations : List (Bytes × Bool)

structure World where
  balance : Bytes → Nat
  /-- Whether there is code at an address, its own or that of a delegation. -/
  hasCode : Bytes → Bool

/-- A value transfer of an execution. -/
structure Move where
  src : Bytes
  dst : Bytes
  amount : Nat
  deriving DecidableEq

/-- A frame of the interpreter: the account it acts for, whether code runs in it, whether it deploys
what it returns, and what a revert restores. -/
structure Frame where
  self : Bytes
  runs : Bool
  deploys : Bool
  world : World
  moved : List Move

/-- The chain within a transaction. -/
structure Exec where
  ledger : Ledger
  world : World
  ctx : Ctx
  /-- The transfers of the transaction in progress that were not reverted. -/
  moved : List Move
  /-- What `CheckAndRecord` recorded in the transaction in progress. -/
  recorded : List Admitted
  frames : List Frame

namespace World

def transfer (w : World) (src dst : Bytes) (amount : Nat) : World :=
  let w := { w with balance := Function.update w.balance src (w.balance src - amount) }
  { w with balance := Function.update w.balance dst (w.balance dst + amount) }

def setCode (w : World) (addr : Bytes) (code : Bool) : World :=
  { w with hasCode := Function.update w.hasCode addr code }

def applyAuthorizations (w : World) (auths : List (Bytes × Bool)) : World :=
  auths.foldl (fun w auth => w.setCode auth.1 auth.2) w

@[simp] theorem hasCode_transfer (w : World) (src dst : Bytes) (amount : Nat) :
    (w.transfer src dst amount).hasCode = w.hasCode := rfl

theorem hasCode_setCode (w : World) (addr : Bytes) (code : Bool) (x : Bytes) :
    (w.setCode addr code).hasCode x = if x = addr then code else w.hasCode x := by
  unfold setCode
  by_cases hx : x = addr
  · subst hx
    simp
  · simp [hx]

end World

inductive Action where
  /-- A transaction that reaches execution, on either path, in a block. A contract it creates is at
  `created`. -/
  | begin (ctx : Ctx) (tx : Tx) (created : Bytes)
  | call (dst : Bytes) (value : Nat)
  /-- Run the code of another account for the same one. -/
  | delegateCall (code : Bytes)
  | create (created : Bytes) (value : Nat)
  | selfDestruct (beneficiary : Bytes)
  /-- End a frame; a creation deploys what it returns, which may be empty. -/
  | ret (code : Bool)
  | revert

namespace Exec

/-- The net-seller check of both paths. -/
def netCapCheck (l : Ledger) (ctx : Ctx) (tx : Tx) : Option Ledger :=
  match tx.toAddr with
  -- contract creation or zero-value call: not a native send
  | none => some l
  | some toAddr =>
    if tx.value = 0 then some l
    else match l.state.checkAndRecord ctx tx.sender toAddr tx.value with
      | .error _ => none
      | .ok _ => some (l.deliver ⟨ctx, tx.sender, toAddr, tx.value⟩)

/-- Enter a frame with a value transfer. -/
def enter (n : Exec) (src dst : Bytes) (value : Nat) (runs deploys : Bool) : Option Exec :=
  if n.world.balance src < value then none
  else some
    { n with
      world := n.world.transfer src dst value
      moved := n.moved ++ [⟨src, dst, value⟩]
      frames := ⟨dst, runs, deploys, n.world, n.moved⟩ :: n.frames }

/-- Start a transaction between two others. -/
def begin (n : Exec) (ctx : Ctx) (tx : Tx) (created : Bytes) : Option Exec :=
  match netCapCheck n.ledger ctx tx with
  | none => none
  | some ledger =>
    let n : Exec :=
      { ledger, ctx
        world := n.world.applyAuthorizations tx.authorizations
        moved := []
        recorded := ledger.admitted.drop n.ledger.admitted.length
        frames := [] }
    match tx.toAddr with
    | none => n.enter tx.sender created tx.value true true
    | some toAddr => n.enter tx.sender toAddr tx.value (n.world.hasCode toAddr) false

/-- What the code of a frame may do; a frame in which no code runs only ends. -/
def stepFrame (n : Exec) (f : Frame) (rest : List Frame) : Action → Option Exec
  | .begin .. => none
  | .call dst value => if f.runs then n.enter f.self dst value (n.world.hasCode dst) false else none
  | .delegateCall code =>
    if f.runs then
      some { n with frames := ⟨f.self, n.world.hasCode code, false, n.world, n.moved⟩ :: n.frames }
    else none
  | .create created value => if f.runs then n.enter f.self created value true true else none
  | .selfDestruct beneficiary =>
    if f.runs then some
      { n with
        world := n.world.transfer f.self beneficiary (n.world.balance f.self)
        moved := n.moved ++ [⟨f.self, beneficiary, n.world.balance f.self⟩]
        frames := rest }
    else none
  | .ret code =>
    some { n with
      world := if f.deploys then n.world.setCode f.self code else n.world
      frames := rest }
  | .revert => some { n with world := f.world, moved := f.moved, frames := rest }

def step (n : Exec) (a : Action) : Option Exec :=
  match n.frames with
  | [] => match a with
    | .begin ctx tx created => n.begin ctx tx created
    | _ => none
  | f :: rest => n.stepFrame f rest a

abbrev Runs (allow : Exec → Action → Prop) : Exec → Exec → Prop :=
  Relation.ReflTransGen fun n n' => ∃ a, allow n a ∧ n.step a = some n'

/-- A chain between transactions, with no recorded spend. -/
def start (p : Params) (ctx : Ctx) (world : World) : Exec :=
  ⟨.start p ctx.blockTime, world, ctx, [], [], []⟩

/-- What the transfers take from an address, to others that are neither whitelisted nor module
accounts. -/
def outflow (ctx : Ctx) (p : Params) (a : Bytes) (moves : List Move) : Nat :=
  ((moves.filter fun m => m.src = a ∧ m.dst ≠ a ∧ m.dst ∉ p.whitelist
    ∧ ctx.isModuleAccount m.dst = false).map Move.amount).sum

/-- The transaction in progress recorded what it took from the restricted addresses, in the window
of each. -/
def Covered (p : Params) (n : Exec) : Prop :=
  ∀ a ∈ p.restrictedAddresses, (outflow n.ctx p a n.moved : Int) ≤ sent a n.recorded
    ∧ sent a n.recorded ≤ (n.ledger.state.getSpend a).spent

/-- Transactions are delivered, in a block that is not before the last. -/
def Delivered (n : Exec) : Action → Prop
  | .begin ctx tx created => n.ledger.Follows ⟨ctx, tx.sender, created, tx.value⟩
  | _ => True

instance (n : Exec) : ∀ a, Decidable (Delivered n a)
  | .begin .. => inferInstanceAs (Decidable (_ ∧ _))
  | .call .. | .delegateCall .. | .create .. | .selfDestruct .. | .ret .. | .revert => .isTrue trivial

/-- No code comes to a restricted address, by an authorization or a creation, and no restricted
address creates a contract with value. -/
def NoCode (p : Params) : Action → Prop
  | .begin _ tx created =>
    (∀ auth ∈ tx.authorizations, auth.2 = true → auth.1 ∉ p.restrictedAddresses)
      ∧ (tx.toAddr = none → created ∉ p.restrictedAddresses
        ∧ (tx.sender ∈ p.restrictedAddresses → tx.value = 0))
  | .create created _ => created ∉ p.restrictedAddresses
  | _ => True

instance (p : Params) : ∀ a, Decidable (NoCode p a)
  | .begin .. => inferInstanceAs (Decidable (_ ∧ (_ → _ ∧ (_ → _))))
  | .create .. => inferInstanceAs (Decidable (¬ _))
  | .call .. | .delegateCall .. | .selfDestruct .. | .ret .. | .revert => .isTrue trivial

variable {p : Params} {c : Int} {n n' : Exec} {ctx : Ctx} {tx : Tx} {created : Bytes}

/-! ## What the check records -/

theorem outflow_append (ctx : Ctx) (p : Params) (a : Bytes) (xs ys : List Move) :
    outflow ctx p a (xs ++ ys) = outflow ctx p a xs + outflow ctx p a ys := by
  simp [outflow]

theorem outflow_of_ne {a src : Bytes} (h : src ≠ a) (dst : Bytes) (amount : Nat) :
    outflow ctx p a [⟨src, dst, amount⟩] = 0 := by
  simp [outflow, h]

/-- A transfer is an outflow of its source if the cap applies to it, and else of none. -/
theorem outflow_singleton {src dst : Bytes} {amount : Nat} (henabled : p.enabled = true) {a : Bytes}
    (ha : a ∈ p.restrictedAddresses) (hcapped : ¬ State.Capped ctx p src dst amount) :
    outflow ctx p a [⟨src, dst, amount⟩] = 0 := by
  by_cases hsrc : src = a
  · subst hsrc
    by_cases hcounts : dst ≠ src ∧ dst ∉ p.whitelist ∧ ctx.isModuleAccount dst = false
    · have hzero : amount = 0 := by
        by_contra hne
        have hpos : (0 : Int) < amount := by omega
        exact hcapped ⟨henabled, hpos, ha, hcounts.2⟩
      simp [outflow, hzero, hcounts]
    · have hfilter : ([⟨src, dst, amount⟩] : List Move).filter (fun m => m.src = src ∧ m.dst ≠ src
          ∧ m.dst ∉ p.whitelist ∧ ctx.isModuleAccount m.dst = false) = [] := by
        rw [List.filter_eq_nil_iff]
        intro m hm hin
        rw [List.mem_singleton.mp hm] at hin
        exact hcounts (of_decide_eq_true hin).2
      rw [outflow, hfilter]
      rfl
  · exact outflow_of_ne hsrc _ _

theorem outflow_singleton_le (ctx : Ctx) (p : Params) (a src dst : Bytes) (amount : Nat) :
    outflow ctx p a [⟨src, dst, amount⟩] ≤ if src = a then amount else 0 := by
  by_cases hsrc : src = a
  · rw [if_pos hsrc]
    simp only [outflow, List.filter_cons, List.filter_nil]
    split_ifs <;> simp
  · rw [outflow_of_ne hsrc, if_neg hsrc]

/-- The spends in the store are not negative, and the settings are those of the start. -/
structure Recording (p : Params) (s : State) : Prop where
  params : s.params = p
  nonneg : ∀ a, 0 ≤ (s.getSpend a).spent

theorem Recording.currentWindow_nonneg {s : State} (h : Recording p s) (now : Int) (a : Bytes) :
    0 ≤ (s.currentWindow now a).spent := by
  unfold State.currentWindow
  split_ifs
  · exact le_rfl
  · exact h.nonneg a

theorem netCapCheck_call {l l' : Ledger} {toAddr : Bytes} (hrec : Recording p l.state)
    (henabled : p.enabled = true) (hcap : p.capPerWindow = some c)
    (hcheck : ctx.isCheckTx = false) (hto : tx.toAddr = some toAddr)
    (h : netCapCheck l ctx tx = some l') :
    Recording p l'.state ∧ ∀ a ∈ p.restrictedAddresses,
      (outflow ctx p a [⟨tx.sender, toAddr, tx.value⟩] : Int)
          ≤ sent a (l'.admitted.drop l.admitted.length)
        ∧ sent a (l'.admitted.drop l.admitted.length) ≤ (l'.state.getSpend a).spent := by
  have hnone : ¬ State.Capped ctx p tx.sender toAddr tx.value → l'.state = l.state →
      l'.admitted = l.admitted → Recording p l'.state ∧ ∀ a ∈ p.restrictedAddresses,
        (outflow ctx p a [⟨tx.sender, toAddr, tx.value⟩] : Int)
            ≤ sent a (l'.admitted.drop l.admitted.length)
          ∧ sent a (l'.admitted.drop l.admitted.length) ≤ (l'.state.getSpend a).spent := by
    intro hcapped hstate hadmitted
    rw [hstate, hadmitted, List.drop_length]
    refine ⟨hrec, fun a ha => ⟨?_, hrec.nonneg a⟩⟩
    rw [outflow_singleton henabled ha hcapped]
    exact le_rfl
  unfold netCapCheck at h
  simp only [hto] at h
  split_ifs at h with hzero
  · cases h
    exact hnone (fun hcapped => absurd hcapped.2.1 (by simp [hzero])) rfl rfl
  · cases hres : l.state.checkAndRecord ctx tx.sender toAddr tx.value with
    | error err => simp [hres] at h
    | ok s =>
      simp only [hres, Option.some.injEq] at h
      by_cases hcapped : State.Capped ctx p tx.sender toAddr tx.value
      · -- the value is recorded in the sender's window
        have hcapped' := hcapped
        rw [← hrec.params] at hcap hcapped'
        obtain ⟨-, hs⟩ := State.checkAndRecord_capped hcheck hcapped' hcap hres
        have hl' : l' = ⟨s, ctx.blockTime,
            l.admitted ++ [⟨tx.sender, ctx.blockTime, tx.value⟩]⟩ := by
          rw [← h, Ledger.deliver]
          simp only [hres, if_pos hcapped']
        have hnonneg := hrec.currentWindow_nonneg ctx.blockTime tx.sender
        rw [hl', List.drop_left]
        refine ⟨⟨?_, fun a => ?_⟩, fun a ha => ⟨?_, ?_⟩⟩
        · rw [hs]
          exact hrec.params
        · rw [hs, State.getSpend_setSpend]
          split_ifs
          · exact add_nonneg hnonneg (Int.natCast_nonneg _)
          · exact hrec.nonneg a
        · have hle := outflow_singleton_le ctx p a tx.sender toAddr tx.value
          rw [sent_cons]
          simp only [sent, List.filter_nil, List.map_nil, List.sum_nil, add_zero]
          split_ifs at hle ⊢ <;> omega
        · rw [hs, State.getSpend_setSpend, sent_cons]
          simp only [sent, List.filter_nil, List.map_nil, List.sum_nil, add_zero]
          by_cases hfrom : a = tx.sender
          · rw [if_pos hfrom.symm, if_pos hfrom]
            exact le_add_of_nonneg_left hnonneg
          · rw [if_neg (Ne.symm hfrom), if_neg hfrom]
            exact hrec.nonneg a
      · have hcapped' : ¬ State.Capped ctx l.state.params tx.sender toAddr tx.value := by
          rw [hrec.params]
          exact hcapped
        have hs := State.checkAndRecord_of_not_capped hcapped'
        rw [hres] at hs
        cases hs
        refine hnone hcapped ?_ ?_ <;> rw [← h, Ledger.deliver] <;> simp [hres, hcapped']

/-! ## Executions without code at restricted addresses -/

/-- No code at a restricted address. -/
def Clean (p : Params) (w : World) : Prop := ∀ a ∈ p.restrictedAddresses, w.hasCode a = false

theorem Clean.setCode {w : World} (h : Clean p w) {addr : Bytes} {code : Bool}
    (haddr : code = true → addr ∉ p.restrictedAddresses) : Clean p (w.setCode addr code) := by
  intro a ha
  rw [World.hasCode_setCode]
  split_ifs with heq
  · cases code with
    | false => rfl
    | true => exact absurd (heq ▸ ha) (haddr rfl)
  · exact h a ha

theorem Clean.applyAuthorizations {w : World} (h : Clean p w) {auths : List (Bytes × Bool)}
    (hauths : ∀ auth ∈ auths, auth.2 = true → auth.1 ∉ p.restrictedAddresses) :
    Clean p (w.applyAuthorizations auths) :=
  Reach.foldl_keeps (fun _ auth hauth hw => hw.setCode (hauths auth hauth)) h

theorem Clean.runs {w : World} (h : Clean p w) {addr : Bytes} (hcode : w.hasCode addr = true) :
    addr ∉ p.restrictedAddresses := by
  intro ha
  rw [h addr ha] at hcode
  cases hcode

/-- What holds of a frame: its snapshot is clean and covered, and no code runs in it for a restricted
address. -/
structure FrameOk (p : Params) (ctx : Ctx) (recorded : List Admitted) (f : Frame) : Prop where
  clean : Clean p f.world
  idle : f.runs = true → f.self ∉ p.restrictedAddresses
  deploys : f.deploys = true → f.self ∉ p.restrictedAddresses
  covered : ∀ a ∈ p.restrictedAddresses, (outflow ctx p a f.moved : Int) ≤ sent a recorded

structure Covering (p : Params) (n : Exec) : Prop where
  recording : Recording p n.ledger.state
  clean : Clean p n.world
  frames : ∀ f ∈ n.frames, FrameOk p n.ctx n.recorded f
  covered : Covered p n

namespace Covering

/-- Outside a restricted address nothing that moves is an outflow. -/
theorem moves (h : Covering p n) {src : Bytes} (hsrc : src ∉ p.restrictedAddresses) (dst : Bytes)
    (amount : Nat) : ∀ a ∈ p.restrictedAddresses,
      (outflow n.ctx p a (n.moved ++ [⟨src, dst, amount⟩]) : Int) ≤ sent a n.recorded := by
  intro a ha
  have hne : src ≠ a := fun heq => hsrc (heq ▸ ha)
  rw [outflow_append, outflow_of_ne hne, Nat.add_zero]
  exact (h.covered a ha).1

theorem enter (h : Covering p n) {src dst : Bytes} {value : Nat} {runs deploys : Bool}
    (hruns : runs = true → dst ∉ p.restrictedAddresses)
    (hdeploys : deploys = true → dst ∉ p.restrictedAddresses)
    (hout : ∀ a ∈ p.restrictedAddresses,
      (outflow n.ctx p a (n.moved ++ [⟨src, dst, value⟩]) : Int) ≤ sent a n.recorded)
    (henter : n.enter src dst value runs deploys = some n') : Covering p n' := by
  unfold Exec.enter at henter
  split_ifs at henter
  cases henter
  refine ⟨h.recording, h.clean, ?_, fun a ha => ⟨hout a ha, (h.covered a ha).2⟩⟩
  refine List.forall_mem_cons.mpr ⟨?_, h.frames⟩
  exact ⟨h.clean, hruns, hdeploys, fun a ha => (h.covered a ha).1⟩

theorem begin (h : Covering p n) (henabled : p.enabled = true) (hcap : p.capPerWindow = some c)
    (hfollows : Delivered n (.begin ctx tx created)) (hallow : NoCode p (.begin ctx tx created))
    (hbegin : n.begin ctx tx created = some n') : Covering p n' := by
  obtain ⟨hauths, hcreate⟩ := hallow
  have hclean := h.clean.applyAuthorizations hauths
  unfold Exec.begin at hbegin
  cases hcheck : netCapCheck n.ledger ctx tx with
  | none => simp [hcheck] at hbegin
  | some ledger =>
    simp only [hcheck] at hbegin
    cases hto : tx.toAddr with
    | none =>
      -- a creation is not checked; it carries nothing out of a restricted address
      have hledger : ledger = n.ledger := by
        unfold netCapCheck at hcheck
        simp only [hto, Option.some.injEq] at hcheck
        exact hcheck.symm
      subst hledger
      simp only [hto, List.drop_length] at hbegin
      have h₀ : Covering p ⟨n.ledger, n.world.applyAuthorizations tx.authorizations, ctx, [], [], []⟩ :=
        ⟨h.recording, hclean, by simp, fun a _ => ⟨le_rfl, h.recording.nonneg a⟩⟩
      refine h₀.enter (fun _ => (hcreate hto).1) (fun _ => (hcreate hto).1) ?_ hbegin
      intro a ha
      have hle := outflow_singleton_le ctx p a tx.sender created tx.value
      have hzero : tx.sender = a → tx.value = 0 := fun heq => (hcreate hto).2 (heq ▸ ha)
      show (outflow ctx p a [⟨tx.sender, created, tx.value⟩] : Int) ≤ 0
      split_ifs at hle with hsender
      · have := hzero hsender
        omega
      · omega
    | some toAddr =>
      obtain ⟨hrecording, hcovers⟩ :=
        netCapCheck_call h.recording henabled hcap hfollows.1 hto hcheck
      simp only [hto] at hbegin
      have h₀ : Covering p ⟨ledger, n.world.applyAuthorizations tx.authorizations, ctx, [],
          ledger.admitted.drop n.ledger.admitted.length, []⟩ := by
        refine ⟨hrecording, hclean, by simp, fun a ha => ⟨?_, (hcovers a ha).2⟩⟩
        exact (Int.natCast_nonneg _).trans (hcovers a ha).1
      exact h₀.enter hclean.runs (fun hno => absurd hno Bool.false_ne_true) (fun a ha => (hcovers a ha).1) hbegin

theorem stepFrame (h : Covering p n) {f : Frame} {rest : List Frame} (hframes : n.frames = f :: rest)
    {a : Action} (hallow : NoCode p a) (hstep : n.stepFrame f rest a = some n') :
    Covering p n' := by
  have hall := h.frames
  rw [hframes] at hall
  obtain ⟨hf, hrest⟩ := List.forall_mem_cons.mp hall
  cases a with
  | begin ctx tx created => cases hstep
  | call dst value =>
    simp only [Exec.stepFrame] at hstep
    split_ifs at hstep with hruns
    exact h.enter h.clean.runs (fun hno => absurd hno Bool.false_ne_true) (h.moves (hf.idle hruns) dst value) hstep
  | delegateCall code =>
    simp only [Exec.stepFrame] at hstep
    split_ifs at hstep with hruns
    cases hstep
    refine ⟨h.recording, h.clean, List.forall_mem_cons.mpr ⟨?_, h.frames⟩, h.covered⟩
    exact ⟨h.clean, fun _ => hf.idle hruns, fun hno => absurd hno Bool.false_ne_true, fun a ha => (h.covered a ha).1⟩
  | create created value =>
    simp only [Exec.stepFrame] at hstep
    split_ifs at hstep with hruns
    exact h.enter (fun _ => hallow) (fun _ => hallow) (h.moves (hf.idle hruns) created value) hstep
  | selfDestruct beneficiary =>
    simp only [Exec.stepFrame] at hstep
    split_ifs at hstep with hruns
    cases hstep
    refine ⟨h.recording, h.clean, hrest, fun a ha => ⟨?_, (h.covered a ha).2⟩⟩
    exact h.moves (hf.idle hruns) beneficiary _ a ha
  | ret code =>
    cases hstep
    refine ⟨h.recording, ?_, hrest, h.covered⟩
    show Clean p (if f.deploys then n.world.setCode f.self code else n.world)
    split_ifs with hdeploys
    · exact h.clean.setCode fun _ => hf.deploys hdeploys
    · exact h.clean
  | revert =>
    cases hstep
    exact ⟨h.recording, hf.clean, hrest, fun a ha => ⟨hf.covered a ha, (h.covered a ha).2⟩⟩

theorem step (h : Covering p n) (henabled : p.enabled = true) (hcap : p.capPerWindow = some c)
    {a : Action} (hdelivered : Delivered n a) (hallow : NoCode p a) (hstep : n.step a = some n') :
    Covering p n' := by
  unfold Exec.step at hstep
  cases hframes : n.frames with
  | nil =>
    simp only [hframes] at hstep
    cases a with
    | begin ctx tx created => exact h.begin henabled hcap hdelivered hallow hstep
    | _ => cases hstep
  | cons f rest =>
    simp only [hframes] at hstep
    exact h.stepFrame hframes hallow hstep

end Covering

/-- As long as no code comes to a restricted address and none of them creates a contract with value,
every transaction records what it takes from a restricted address. -/
theorem outflow_recorded (p : Params) (hvalid : p.validate = .ok ()) (henabled : p.enabled = true)
    (ctx : Ctx) (world : World) (hworld : ∀ a ∈ p.restrictedAddresses, world.hasCode a = false)
    (n : Exec) (hrun : Runs (fun n a => Delivered n a ∧ NoCode p a) (start p ctx world) n) :
    Covered p n := by
  obtain ⟨c, hcap⟩ : ∃ c, p.capPerWindow = some c := by
    cases hcap : p.capPerWindow with
    | none =>
      unfold Params.validate at hvalid
      simp only [henabled, hcap, Bool.true_eq_false, if_false] at hvalid
      split_ifs at hvalid
    | some c => exact ⟨c, rfl⟩
  have hstart : Covering p (start p ctx world) :=
    ⟨⟨rfl, fun _ => le_rfl⟩, hworld, by simp [start], fun _ _ => ⟨le_rfl, le_rfl⟩⟩
  have hstep : ∀ n n' : Exec, (∃ a, (Delivered n a ∧ NoCode p a) ∧ n.step a = some n') →
      Covering p n → Covering p n' := by
    rintro n n' ⟨a, ⟨hdelivered, hallow⟩, hstep⟩ h
    exact h.step henabled hcap hdelivered hallow hstep
  exact (Reach.run_keeps hstep hrun hstart).covered

/-! The team address again, with a relayer that pays for the transactions of others. -/

def relayer : Bytes := bytesOf "relayer"

def block : Ctx := ⟨1000, false, fun _ => false⟩

/-- Coins at every address, code at none. -/
def funded : World := ⟨fun _ => 10000, fun _ => false⟩

/-- A call with value is recorded. -/
theorem outflow_recorded_call :
    ∃ n, (Runs (fun n a => Delivered n a ∧ NoCode Ledger.teamParams a)
        (start Ledger.teamParams block funded) n
      ∧ outflow n.ctx Ledger.teamParams Ledger.team n.moved = 400) ∧ Covered Ledger.teamParams n := by
  obtain ⟨n, hrun, hout⟩ : ∃ n, Runs (fun n a => Delivered n a ∧ NoCode Ledger.teamParams a)
        (start Ledger.teamParams block funded) n
      ∧ outflow n.ctx Ledger.teamParams Ledger.team n.moved = 400 :=
    Reach.exists_run [.begin block ⟨Ledger.team, some Ledger.market, 400, []⟩ [], .ret false]
      (by decide +kernel)
  exact ⟨n, ⟨hrun, hout⟩,
    outflow_recorded Ledger.teamParams rfl rfl block funded (fun _ _ => rfl) n hrun⟩

/-- The team takes out ten times its cap unseen: in the value of a contract it creates, or by a call of
the code that its EIP-7702 delegation runs at its address, in a transaction of another account. -/
theorem outflow_unrecorded :
    (Ledger.teamParams.validate = .ok () ∧ Ledger.teamParams.enabled = true
      ∧ ∀ a, funded.hasCode a = false)
    ∧ (∃ n, Runs Delivered (start Ledger.teamParams block funded) n
      ∧ outflow n.ctx Ledger.teamParams Ledger.team n.moved = 10000
      ∧ n.recorded = [] ∧ n.frames.length = 0 ∧ n.world.hasCode Ledger.team = false)
    ∧ ∃ n, Runs Delivered (start Ledger.teamParams block funded) n
      ∧ outflow n.ctx Ledger.teamParams Ledger.team n.moved = 10000
      ∧ n.recorded = [] ∧ n.frames.length = 0 ∧ n.world.hasCode Ledger.team = true := by
  refine ⟨⟨rfl, rfl, fun _ => rfl⟩, ?_, ?_⟩
  · exact Reach.exists_run
      [.begin block ⟨Ledger.team, none, 10000, []⟩ Ledger.market, .ret true] (by decide +kernel)
  · exact Reach.exists_run
      [.begin block ⟨relayer, some Ledger.team, 0, [(Ledger.team, true)]⟩ [],
        .call Ledger.market 10000, .ret false, .ret false] (by decide +kernel)

end Exec

end NetCap
