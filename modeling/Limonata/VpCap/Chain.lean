import Limonata.VpCap.Cap

/-!
# x/vpcap — the set the consensus engine runs

The application sends the updates of one block after the other, and the consensus engine applies them
to its set. The bonded validators and the params may be any at the end of any block.

The engine runs the capped set as long as the mirror the updates are computed from is the engine's
set. A block with the cap on leaves the two in agreement. A block with the cap off moves the engine's
set alone, so it is the blocks that switch the cap on which can go wrong: at the first the mirror is
empty, and later it is the one of the block that switched the cap off.
-/

namespace VpCap

open EncMempool (Bytes bytesOf)

/-- The end of a block. -/
structure Block (consAddr : Bytes → Bytes) where
  params : Params
  bonded : Bonded consAddr
  /-- The order the map of departed validators is iterated in. -/
  order : List ValidatorUpdate → List ValidatorUpdate
  order_perm : ∀ l, (order l).Perm l

/-- The tables a run carries from block to block. -/
structure Chain (consAddr : Bytes → Bytes) where
  /-- The powers x/staking last reported, by its own account. -/
  lastPowers : ValSet consAddr
  /-- The set x/vpcap last sent, by its own account. -/
  mirror : ValSet consAddr
  /-- The set of the consensus engine. -/
  comet : ValSet consAddr

variable {consAddr : Bytes → Bytes}

namespace Chain

/-- `EndBlocker`: the updates of x/staking, or the capped ones in their place. -/
def endBlocker (c : Chain consAddr) (b : Block consAddr) :
    List ValidatorUpdate × ValSet consAddr :=
  match computeCappedValidatorUpdates b.params b.order b.bonded c.mirror with
  | some capped => capped
  | none => (stakingUpdates c.lastPowers b.bonded, c.mirror)

/-- A block; `none` is an update the consensus engine refuses. -/
def step (c : Chain consAddr) (b : Block consAddr) : Option (Chain consAddr) :=
  (c.comet.changeAll ValidatorUpdate.power (c.endBlocker b).1).map fun comet =>
    { lastPowers := toSet consAddr b.bonded.validators, mirror := (c.endBlocker b).2, comet }

/-- `InitChain` hands the genesis validators to the engine under their raw powers. -/
def init (b : Bonded consAddr) : Chain consAddr where
  lastPowers := toSet consAddr b.validators
  mirror := .empty
  comet := toSet consAddr b.validators

/-- Which blocks a run may take. -/
abbrev Allow (consAddr : Bytes → Bytes) := Chain consAddr → Block consAddr → Prop

def Step (allow : Allow consAddr) (c c' : Chain consAddr) : Prop :=
  ∃ b, allow c b ∧ c.step b = some c'

/-- The chains of the allowed runs. -/
def Reachable (allow : Allow consAddr) (c : Chain consAddr) : Prop :=
  ∃ b, Relation.ReflTransGen (Step allow) (init b) c

/-- **The mirror may be used.** A block with the cap on finds the engine's set in the mirror, or it
finds an empty mirror and no validator of the engine's set has left the bonded set. -/
def InSync : Allow consAddr := fun c b => b.params.Active →
  (∀ a, c.mirror.weightAt ValidatorUpdate.power a = c.comet.weightAt ValidatorUpdate.power a)
    ∨ ((∀ a, c.mirror.has a = false)
      ∧ ∀ a, c.comet.has a = true → a ∈ b.bonded.validators.map (address consAddr))

variable {c c' : Chain consAddr} {b : Block consAddr}

/-! ## One block -/

theorem has_capped (b : Bonded consAddr) (bps : Nat) (a : Bytes) :
    (toSet consAddr (b.capped bps)).has a = (toSet consAddr b.validators).has a := by
  rw [Bool.eq_iff_iff, has_toSet, has_toSet, b.capped_addresses]

theorem step_active (hactive : b.params.Active) (hsync : InSync c b) :
    ∃ c', c.step b = some c' ∧ c'.lastPowers = toSet consAddr b.bonded.validators
      ∧ c'.mirror = toSet consAddr (b.bonded.capped b.params.perValidatorCapBps)
      ∧ ∀ a, c'.comet.weightAt ValidatorUpdate.power a = c'.mirror.weightAt ValidatorUpdate.power a := by
  obtain ⟨updates, hcompute, hdiff⟩ :=
    computeCappedValidatorUpdates_spec hactive b.order_perm b.bonded c.mirror
  have happlied : ∃ t, c.comet.changeAll ValidatorUpdate.power updates = some t
      ∧ ∀ a, t.weightAt ValidatorUpdate.power a
        = (toSet consAddr (b.bonded.capped b.params.perValidatorCapBps)).weightAt
          ValidatorUpdate.power a := by
    rcases hsync hactive with hagree | ⟨hempty, hstay⟩
    · exact hdiff.changeAll_of_agree fun a => (hagree a).symm
    · refine hdiff.changeAll_of_empty hempty fun a ha => ?_
      rw [has_capped, has_toSet]
      exact hstay a ha
  obtain ⟨t, ht, hweights⟩ := happlied
  refine ⟨⟨toSet consAddr b.bonded.validators,
    toSet consAddr (b.bonded.capped b.params.perValidatorCapBps), t⟩, ?_, rfl, rfl, hweights⟩
  simp only [step, endBlocker, hcompute, ht]
  rfl

theorem step_inactive (hinactive : ¬ b.params.Active)
    (hkeys : ∀ a, c.comet.has a = c.lastPowers.has a) :
    ∃ c', c.step b = some c' ∧ c'.lastPowers = toSet consAddr b.bonded.validators
      ∧ c'.mirror = c.mirror ∧ ∀ a, c'.comet.has a = c'.lastPowers.has a := by
  have hnone : computeCappedValidatorUpdates b.params b.order b.bonded c.mirror = none := if_neg hinactive
  obtain ⟨t, ht, hkeys⟩ := (stakingUpdates_isDiff c.lastPowers b.bonded).changeAll_keys hkeys
  refine ⟨⟨toSet consAddr b.bonded.validators, c.mirror, t⟩, ?_, rfl, rfl, hkeys⟩
  simp only [step, endBlocker, hnone, ht]
  rfl

theorem inSync_of_active (hactive : b.params.Active) (hsync : InSync c b) (hstep : c.step b = some c')
    (b' : Block consAddr) : InSync c' b' := by
  obtain ⟨c₁, hc₁, -, -, hagree⟩ := step_active hactive hsync
  rw [hstep] at hc₁
  cases hc₁
  exact fun _ => .inl fun a => (hagree a).symm

/-! ## Runs -/

theorem Reachable.keys (hreach : Reachable InSync c) :
    ∀ a, c.comet.has a = c.lastPowers.has a := by
  obtain ⟨b₀, hrun⟩ := hreach
  refine Reach.run_keeps (I := fun c : Chain consAddr => ∀ a, c.comet.has a = c.lastPowers.has a)
    ?_ hrun fun a => rfl
  rintro c c' ⟨b, hsync, hstep⟩ hkeys
  by_cases hactive : b.params.Active
  · obtain ⟨c₁, hc₁, hlast, hmirror, hagree⟩ := step_active hactive hsync
    rw [hstep] at hc₁
    cases hc₁
    intro a
    rw [← RecStore.weightAt_isSome ValidatorUpdate.power, hagree, RecStore.weightAt_isSome, hmirror,
      has_capped, hlast]
  · obtain ⟨c₁, hc₁, -, -, hkeys'⟩ := step_inactive hactive hkeys
    rw [hstep] at hc₁
    cases hc₁
    exact hkeys'

/-- **The engine runs the capped set.** In a run whose blocks find the mirror usable no update is ever
refused, and after a block with the cap on the engine's set is the bonded validators under the powers
`capPowers` assigns. -/
theorem comet_runs_capped_set (hreach : Reachable InSync c) (hsync : InSync c b) :
    ∃ c', c.step b = some c' ∧ (b.params.Active → ∀ a, c'.comet.weightAt ValidatorUpdate.power a
      = (toSet consAddr (b.bonded.capped b.params.perValidatorCapBps)).weightAt
        ValidatorUpdate.power a) := by
  by_cases hactive : b.params.Active
  · obtain ⟨c', hc', -, hmirror, hagree⟩ := step_active hactive hsync
    exact ⟨c', hc', fun _ a => by rw [hagree, hmirror]⟩
  · obtain ⟨c', hc', -⟩ := step_inactive hactive hreach.keys
    exact ⟨c', hc', fun h => absurd h hactive⟩

/-- The blocks of a list, one after the other. -/
def run (c : Chain consAddr) : List (Block consAddr) → Option (Chain consAddr)
  | [] => some c
  | b :: blocks => (c.step b).bind fun c => c.run blocks

theorem run_spec {blocks : List (Block consAddr)} (h : c.run blocks = some c') :
    Relation.ReflTransGen (Step fun _ _ => True) c c' := by
  induction blocks generalizing c with
  | nil =>
    cases h
    exact .refl
  | cons b blocks ih =>
    obtain ⟨c₁, hstep, hrest⟩ := Option.bind_eq_some_iff.mp h
    exact .head ⟨b, trivial, hstep⟩ (ih hrest)

theorem exists_reachable (b₀ : Bonded consAddr) (blocks : List (Block consAddr))
    {P : Chain consAddr → Prop} [DecidablePred P]
    (hrun : ((init b₀).run blocks).any (fun c => P c) = true) :
    ∃ c, Reachable (fun _ _ => True) c ∧ P c := by
  obtain ⟨c, hc, hP⟩ := Option.any_eq_true _ _ |>.mp hrun
  exact ⟨c, ⟨b₀, run_spec hc⟩, of_decide_eq_true hP⟩

end Chain

/-! ## Sample validators -/

namespace Sample

/-- An address is the first 20 bytes of the key. -/
def cut : Bytes → Bytes := List.take 20

def alice : Bytes := bytesOf "alice"

def bob : Bytes := bytesOf "bob"

def pair : Bonded cut := ⟨[⟨alice, 10⟩, ⟨bob, 10⟩], by decide +kernel, by decide⟩

def raised : Bonded cut := ⟨[⟨alice, 12⟩, ⟨bob, 10⟩], by decide +kernel, by decide⟩

def alone : Bonded cut := ⟨[⟨alice, 10⟩], by decide +kernel, by decide⟩

/-- The end of a block with the cap at half of the total, on or off. -/
def block (enabled : Bool) (bonded : Bonded cut) : Block cut :=
  ⟨⟨enabled, 5000⟩, bonded, id, fun _ => .refl _⟩

end Sample

open Sample

/-- With the cap on from the first block, in which nobody leaves, the departure of a validator in the
second block reaches the engine. -/
theorem comet_runs_capped_set_departure :
    ∃ c c' : Chain cut, Chain.Reachable Chain.InSync c
      ∧ c.comet.weightAt ValidatorUpdate.power bob = some 10
      ∧ c.step (block true alone) = some c'
      ∧ c'.comet.weightAt ValidatorUpdate.power bob = none
      ∧ c'.comet.weightAt ValidatorUpdate.power alice = some 1 := by
  have hfirst : Chain.InSync (Chain.init pair) (block true raised) := fun _ =>
    .inr ⟨fun _ => rfl, fun a ha => by
      show a ∈ pair.validators.map (address cut)
      exact has_toSet.mp ha⟩
  have hactive : (block true raised).params.Active := by decide
  obtain ⟨c, hc, -, hmirror, hagree⟩ := Chain.step_active hactive hfirst
  have hreach : Chain.Reachable Chain.InSync c :=
    ⟨pair, .single ⟨block true raised, hfirst, hc⟩⟩
  obtain ⟨c', hc', hset⟩ := Chain.comet_runs_capped_set hreach
    (Chain.inSync_of_active hactive hfirst hc (block true alone))
  refine ⟨c, c', hreach, ?_, hc', ?_, ?_⟩
  · rw [hagree, hmirror]
    decide +kernel
  · rw [hset (by decide)]
    decide +kernel
  · rw [hset (by decide)]
    decide +kernel

/-- **The mirror fails the engine when the cap is switched on.** A validator that leaves in the first
block with the cap on stays in the engine's set. After the cap was off and is on again, a validator
that left in between is removed a second time, which the engine refuses, and a power that changed in
between and is back at the mirrored value is not sent. -/
theorem mirror_out_of_sync :
    (∃ c : Chain cut, Chain.Reachable (fun _ _ => True) c
      ∧ ((c.step (block true alone)).map fun c' =>
        c'.comet.weightAt ValidatorUpdate.power bob) = some (some 10))
      ∧ (∃ c : Chain cut, Chain.Reachable (fun _ _ => True) c
        ∧ (c.step (block true alone)).isNone = true)
      ∧ ∃ c : Chain cut, Chain.Reachable (fun _ _ => True) c
        ∧ ((c.step (block true pair)).map fun c' =>
          c'.comet.weightAt ValidatorUpdate.power alice) = some (some 12)
        ∧ (toSet cut (pair.capped 5000)).weightAt ValidatorUpdate.power alice
          = some 10 := by
  refine ⟨?_, ?_, ?_⟩
  · exact Chain.exists_reachable pair [block false pair] (by decide +kernel)
  · exact Chain.exists_reachable pair
      [block true pair, block false alone] (by decide +kernel)
  · exact Chain.exists_reachable pair
      [block true pair, block false raised] (by decide +kernel)

end VpCap
