import Limonata.ValGrant.Clawback

/-!
# x/valgrant — the stake a clawback leaves bonded

A clawback reads one page of the grantee's delegations and undelegates each of them in full; the first
refusal aborts it. So what it does to the stake is decided by the position the grantee arranged
before: how many delegations there are, and how many unbonding entries each of their validators
already has.
-/

namespace ValGrant

open RecStore KVStore

open EncMempool (Bytes bytesOf)

/-! ## Undelegating in full -/

/-- The pair may take one more unbonding entry. -/
def Holder.HasRoom (ctx : Ctx) (h : Holder) (validator : Bytes) : Prop :=
  h.unbondings.countP (fun u => u.validator = validator) < ctx.maxEntries

instance (ctx : Ctx) (h : Holder) : DecidablePred (h.HasRoom ctx) := fun _ =>
  inferInstanceAs (Decidable (_ < _))

namespace Holder

variable {ctx : Ctx} {h h' : Holder}

theorem undelegate_full {v : Bytes} {bonded : Nat} (hv : h.delegations.lookup v = some bonded)
    (hroom : h.HasRoom ctx v) :
    ∃ h' u, h.undelegate ctx v bonded = some (h', u) ∧ u.validator = v
      ∧ h'.delegations = h.delegations.del v ∧ h'.unbondings = h.unbondings ++ [u] := by
  have hfits : ¬ ctx.maxEntries ≤ h.unbondings.countP (fun u => u.validator = v) :=
    Nat.not_le.mpr hroom
  let u : Unbonding := ⟨v, bonded, ctx.blockTime + ctx.unbondingTime⟩
  refine ⟨{ h.subDelegation v bonded bonded with unbondings := h.unbondings ++ [u] }, u, ?_, rfl,
    ?_, rfl⟩
  · simp only [undelegate, hv, Nat.lt_irrefl, if_false, if_neg hfits]
    rfl
  · simp [subDelegation]

theorem undelegate_inv {v : Bytes} {amount : Nat} {u : Unbonding}
    (hd : h.undelegate ctx v amount = some (h', u)) : h.HasRoom ctx v ∧ u.validator = v := by
  unfold undelegate at hd
  cases hlook : h.delegations.lookup v with
  | none => simp [hlook] at hd
  | some bonded =>
    simp only [hlook] at hd
    split_ifs at hd with hshort hfull
    cases hd
    exact ⟨Nat.not_le.mp hfull, rfl⟩

theorem hasRoom_append {u : Unbonding} (hunb : h'.unbondings = h.unbondings ++ [u]) {v : Bytes}
    (hne : u.validator ≠ v) : h'.HasRoom ctx v ↔ h.HasRoom ctx v := by
  unfold HasRoom
  rw [hunb, List.countP_append]
  simp [hne]

end Holder

namespace State

variable {E : Env} {ctx : Ctx} {s : State} {g signer : Bytes}

/-- Delegations at distinct validators that all have room are undelegated, and nothing else of the
stake changes. -/
theorem undelegateAll_of_hasRoom {ds : List (Bytes × Nat)} {h : Holder}
    (hnodup : (ds.map Prod.fst).Nodup) (hbonded : ∀ d ∈ ds, h.delegations.lookup d.1 = some d.2)
    (hroom : ∀ d ∈ ds, h.HasRoom ctx d.1) :
    ∃ h' us, undelegateAll ctx ds h = some (h', us)
      ∧ ∀ v, h'.delegations.lookup v
        = if v ∈ ds.map Prod.fst then none else h.delegations.lookup v := by
  induction ds generalizing h with
  | nil => exact ⟨h, [], rfl, fun v => by simp⟩
  | cons d ds ih =>
    obtain ⟨hnew, hnodup⟩ := List.nodup_cons.mp hnodup
    obtain ⟨hd, hds⟩ := List.forall_mem_cons.mp hbonded
    obtain ⟨hroomd, hroomds⟩ := List.forall_mem_cons.mp hroom
    obtain ⟨h₁, u, hfirst, hu, hdel, hunb⟩ := Holder.undelegate_full hd hroomd
    -- the other validators of the list are untouched by the first step
    have hne : ∀ e ∈ ds, e.1 ≠ d.1 := fun e he heq => hnew (heq ▸ List.mem_map_of_mem he)
    have hds₁ : ∀ e ∈ ds, h₁.delegations.lookup e.1 = some e.2 := fun e he => by
      rw [hdel, lookup_del, if_neg (hne e he), hds e he]
    have hroom₁ : ∀ e ∈ ds, h₁.HasRoom ctx e.1 := fun e he =>
      (Holder.hasRoom_append hunb (hu ▸ (hne e he).symm)).mpr (hroomds e he)
    obtain ⟨h', us, hrest, hlook⟩ := ih hnodup hds₁ hroom₁
    refine ⟨h', u :: us, ?_, fun v => ?_⟩
    · simp only [undelegateAll, hfirst, hrest, Option.map_some]
    · have hmem : v ∈ (d :: ds).map Prod.fst ↔ v = d.1 ∨ v ∈ ds.map Prod.fst := by
        rw [List.map_cons, List.mem_cons]
      rw [hlook, hdel, lookup_del]
      by_cases hv : v = d.1
      · rw [if_pos hv, ite_self, if_pos (hmem.mpr (.inl hv))]
      · rw [if_neg hv]
        exact if_congr (hmem.trans (or_iff_right hv)).symm rfl rfl

theorem hasRoom_of_undelegateAll {ds : List (Bytes × Nat)} {h h' : Holder} {us : List Unbonding}
    (hnodup : (ds.map Prod.fst).Nodup) (hun : undelegateAll ctx ds h = some (h', us)) :
    ∀ d ∈ ds, h.HasRoom ctx d.1 := by
  induction ds generalizing h h' us with
  | nil => simp
  | cons d ds ih =>
    obtain ⟨hnew, hnodup⟩ := List.nodup_cons.mp hnodup
    rw [undelegateAll] at hun
    cases hfirst : h.undelegate ctx d.1 d.2 with
    | none => simp [hfirst] at hun
    | some r =>
      obtain ⟨h₁, u⟩ := r
      simp only [hfirst, Option.map_eq_some_iff] at hun
      obtain ⟨⟨h₂, us₁⟩, hrest, -⟩ := hun
      have hunb : h₁.unbondings = h.unbondings ++ [u] := (Holder.undelegate_spec hfirst).2.2.1
      obtain ⟨hroomd, hu⟩ := Holder.undelegate_inv hfirst
      rw [List.forall_mem_cons]
      refine ⟨hroomd, fun e he => ?_⟩
      have hne : u.validator ≠ e.1 := fun heq => hnew (hu ▸ heq ▸ List.mem_map_of_mem he)
      exact (Holder.hasRoom_append hunb hne).mp (ih hnodup hrest e he)

/-! ## Clawing back -/

/-- A clawback of an active grant goes through exactly if the page of delegations is undelegated, and
it leaves the delegations that remain after that. -/
theorem clawback_delegations {gr : Grant} (hvalid : E.validAddr g = true)
    (hgr : s.grants.get? g = some gr) (hactive : gr.status = .active) :
    (∀ h' us, undelegateAll ctx ((s.holders g).delegations.entries.take maxRetrieve) (s.holders g)
        = some (h', us) → ∃ r, s.clawback E ctx g = .ok r
          ∧ (r.state.holders g).delegations = h'.delegations)
      ∧ ∀ r, s.clawback E ctx g = .ok r → ∃ h' us,
        undelegateAll ctx ((s.holders g).delegations.entries.take maxRetrieve) (s.holders g)
          = some (h', us) ∧ (r.state.holders g).delegations = h'.delegations := by
  have hnr : gr.status ≠ .revoked := by rw [hactive]; decide
  unfold clawback
  simp only [hvalid, Bool.true_eq_false, if_false, hgr, if_neg hnr]
  cases hun : undelegateAll ctx ((s.holders g).delegations.entries.take maxRetrieve)
    (s.holders g) with
  | none => exact ⟨nofun, nofun⟩
  | some res =>
    obtain ⟨h₁, us⟩ := res
    obtain ⟨s₁, n, hs₁, -, -, -, -, hdel, -⟩ := immediateSweep_spec s g h₁
      (gr.lockedAmount - min (((us.map Unbonding.amount).sum : Nat) : Int) gr.lockedAmount)
    simp only [hs₁]
    constructor
    · intro h' us' heq
      cases heq
      exact ⟨_, rfl, hdel⟩
    · intro r hr
      cases hr
      exact ⟨h₁, us, rfl, hdel⟩

/-- The delegations a clawback reads. -/
def page (s : State) (g : Bytes) : List (Bytes × Nat) :=
  (s.holders g).delegations.entries.take maxRetrieve

theorem mem_of_mem_page {d : Bytes × Nat} (hd : d ∈ s.page g) :
    d ∈ (s.holders g).delegations.entries := List.mem_of_mem_take hd

theorem nodup_page : ((s.page g).map Prod.fst).Nodup := by
  unfold page
  rw [List.map_take]
  exact (nodup_keys _).sublist (List.take_sublist _ _)

theorem msgClawback_eq_ok (hadmin : s.requireAdmin signer = true) {r : ClawbackResult} :
    s.msgClawback E ctx signer g = .ok r ↔ s.clawback E ctx g = .ok r := by
  unfold msgClawback
  rw [if_neg (by simp [hadmin])]
  cases s.clawback E ctx g <;> simp [Except.mapError]

/-- With room at every validator of the page the clawback goes through and undelegates the page; the
delegations behind it stay bonded. -/
theorem msgClawback_of_hasRoom {gr : Grant} (hadmin : s.requireAdmin signer = true)
    (hvalid : E.validAddr g = true) (hgr : s.grants.get? g = some gr) (hactive : gr.status = .active)
    (hroom : ∀ d ∈ s.page g, (s.holders g).HasRoom ctx d.1) :
    ∃ r, s.msgClawback E ctx signer g = .ok r ∧ ∀ v, (r.state.holders g).delegations.lookup v
      = if v ∈ (s.page g).map Prod.fst then none else (s.holders g).delegations.lookup v := by
  have hbonded : ∀ d ∈ s.page g, (s.holders g).delegations.lookup d.1 = some d.2 := fun d hd =>
    lookup_of_mem _ (mem_of_mem_page hd)
  obtain ⟨h', us, hun, hlook⟩ := undelegateAll_of_hasRoom nodup_page hbonded hroom
  obtain ⟨r, hr, hdel⟩ := (clawback_delegations hvalid hgr hactive).1 h' us hun
  exact ⟨r, (msgClawback_eq_ok hadmin).mpr hr, fun v => by rw [hdel, hlook]⟩

theorem hasRoom_of_msgClawback {gr : Grant} {r : ClawbackResult}
    (hadmin : s.requireAdmin signer = true) (hvalid : E.validAddr g = true)
    (hgr : s.grants.get? g = some gr) (hactive : gr.status = .active)
    (hr : s.msgClawback E ctx signer g = .ok r) :
    ∀ d ∈ s.page g, (s.holders g).HasRoom ctx d.1 := by
  obtain ⟨h', us, hun, -⟩ :=
    (clawback_delegations hvalid hgr hactive).2 r ((msgClawback_eq_ok hadmin).mp hr)
  exact hasRoom_of_undelegateAll nodup_page hun

theorem length_le_of_forall_mem_page (h : ∀ d ∈ (s.holders g).delegations.entries,
    d.1 ∈ (s.page g).map Prod.fst) : (s.holders g).delegations.entries.length ≤ maxRetrieve := by
  have hsubset : (s.holders g).delegations.entries.map Prod.fst ⊆ (s.page g).map Prod.fst := by
    intro v hv
    obtain ⟨d, hd, rfl⟩ := List.mem_map.mp hv
    exact h d hd
  have hlen := ((nodup_keys _).subperm hsubset).length_le
  rw [List.length_map, List.length_map, page, List.length_take] at hlen
  exact hlen.trans (Nat.min_le_left _ _)

end State

open Sample

namespace Sample

/-- A grant of 300 of which the grantee bonds one token at each of 256 validators. -/
def spread : List (Ctx × Action) :=
  (block 90000, .issueLocked admin grantee (some 300) (some 0) [])
    :: (List.range 256).map fun i => (block 95000, .delegate grantee [Fin.ofNat 256 (255 - i)] 1)

end Sample

end ValGrant
