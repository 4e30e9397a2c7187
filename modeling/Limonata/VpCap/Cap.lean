import Limonata.EncMempool.Types
import Limonata.Lib.Changes
import Limonata.Lib.Machine
import Limonata.Lib.Reach

/-!
# x/vpcap — capped consensus powers

While the cap is on, the application replaces the validator updates of x/staking by its own: it caps
the power of every bonded validator, sends the differences to the set it last sent, and remembers
the new set. The set last sent is the module's mirror of what the consensus engine runs; it is
written while the cap is on and by nothing else.

The consensus engine identifies a validator by its address, which `consAddr` computes from the
public key. A table of validators is stored under that address.
-/

namespace VpCap

open RecStore

open EncMempool (Bytes bytesOf)
open Machine (int64)

/-- A public key with a power: an update sent to the consensus engine, a record of the set last
sent, and an entry of the engine's own set. -/
structure ValidatorUpdate where
  pubKey : Bytes
  power : Int
  deriving DecidableEq

/-- The address of the validator an update is about. -/
def address (consAddr : Bytes → Bytes) (u : ValidatorUpdate) : Bytes := consAddr u.pubKey

/-- A table of validators under their consensus addresses. -/
abbrev ValSet (consAddr : Bytes → Bytes) : Type := RecStore (address consAddr)

structure Params where
  enabled : Bool
  perValidatorCapBps : Nat
  deriving DecidableEq

/-- Whether the params put the cap in force. -/
def Params.Active (p : Params) : Prop :=
  p.enabled = true ∧ p.perValidatorCapBps ≠ 0 ∧ p.perValidatorCapBps < 10000

instance (p : Params) : Decidable p.Active := inferInstanceAs (Decidable (_ ∧ _ ∧ _))

/-! ## Capping -/

/-- The sum of the powers, in machine words. -/
def totalPower (powers : List Int) : Int := powers.foldl (fun total e => int64 (total + e)) 0

/-- The cap at a total power, at least one. -/
def capAt (bps total : Int) : Int :=
  let capPow := (int64 (total * bps)).tdiv 10000
  if capPow < 1 then 1 else capPow

/-- A raw power under a cap. A bonded validator keeps a power of at least one. -/
def capEntry (capPow raw : Int) : Int :=
  let nv := if capPow < raw then capPow else raw
  if 0 < raw ∧ nv < 1 then 1 else nv

def capRounds (bps : Int) (raw : List Int) : Nat → List Int → List Int
  | 0, effective => effective
  | rounds + 1, effective =>
    let total := totalPower effective
    if total ≤ 0 then effective
    else
      let capped := raw.map (capEntry (capAt bps total))
      if capped = effective then effective else capRounds bps raw rounds capped

/-- Cap every power at a share of the effective total: shedding power shrinks the total, so the cap
is taken again until nothing changes, for at most 64 rounds. -/
def capPowers (raw : List Int) (bps : Int) : List Int := capRounds bps raw 64 raw

/-- One round of the loop. -/
def capStep (bps : Int) (raw effective : List Int) : List Int :=
  raw.map (capEntry (capAt bps (totalPower effective)))

theorem capEntry_pos {capPow raw : Int} (hraw : 0 < raw) : 0 < capEntry capPow raw := by
  unfold capEntry
  simp only
  split_ifs <;> omega

theorem capEntry_eq_min {capPow : Int} (hcap : 1 ≤ capPow) (raw : Int) :
    capEntry capPow raw = min raw capPow := by
  unfold capEntry
  simp only
  split_ifs <;> omega

theorem one_le_capAt (bps total : Int) : 1 ≤ capAt bps total := by
  unfold capAt
  simp only
  split_ifs <;> omega

section Rounds

variable {bps : Int} {raw : List Int}

/-- What a round keeps, the loop keeps, wherever it stops. -/
theorem capRounds_keeps {P : List Int → Prop}
    (hstep : ∀ effective, P effective → P (capStep bps raw effective)) (n : Nat)
    {effective : List Int} (h : P effective) : P (capRounds bps raw n effective) := by
  induction n generalizing effective with
  | zero => exact h
  | succ n ih =>
    simp only [capRounds]
    split_ifs
    · exact h
    · exact h
    · exact ih (hstep effective h)

/-! ## What the cap enforces -/

variable (hnn : ∀ x ∈ raw, 0 ≤ x) (hpos : 0 < raw.sum)

include hnn

theorem map_min_sum : raw.map (min · raw.sum) = raw :=
  (List.map_congr_left fun x hx => min_eq_left (List.single_le_sum hnn x hx)).trans (List.map_id' raw)

include hpos in
/-- The outputs are the raw powers under one cap. -/
theorem capPowers_eq_min (bps : Int) : ∃ c, 1 ≤ c ∧ capPowers raw bps = raw.map (min · c) := by
  refine capRounds_keeps (P := fun effective => ∃ c, 1 ≤ c ∧ effective = raw.map (min · c))
    (fun effective _ => ?_) 64 ⟨raw.sum, hpos, (map_min_sum hnn).symm⟩
  refine ⟨_, one_le_capAt bps (totalPower effective), ?_⟩
  exact List.map_congr_left fun x _ => capEntry_eq_min (one_le_capAt _ _) x

/-- The cap that a share of the powers under a cap `c` gives, over exact numbers. -/
def nextCap (bps : Int) (raw : List Int) (c : Int) : Int :=
  max 1 ((raw.map (min · c)).sum * bps / 10000)

variable (htotal : raw.sum ≤ (2 ^ 63 - 1) / 8) (hbps : 1 ≤ bps) (hfits : raw.sum * bps < 2 ^ 63)

include htotal hbps hfits

theorem capStep_eq {c : Int} (hc : 1 ≤ c) :
    capStep bps raw (raw.map (min · c)) = raw.map (min · (nextCap bps raw c)) := by
  have hpowers : ∀ x ∈ raw.map (min · c), 0 ≤ x := fun x hx => by
    obtain ⟨y, hy, rfl⟩ := List.mem_map.mp hx
    exact le_min (hnn y hy) (by omega)
  have hle : (raw.map (min · c)).sum ≤ raw.sum := by
    simpa using List.sum_le_sum (f := (min · c)) (g := id) fun x (_ : x ∈ raw) => min_le_left x c
  have hsum := List.sum_nonneg hpowers
  have hprod := Int.mul_le_mul_of_nonneg_right hle (by omega : 0 ≤ bps)
  have hcap : capAt bps (totalPower (raw.map (min · c))) = nextCap bps raw c := by
    have hpow : totalPower (raw.map (min · c)) = (raw.map (min · c)).sum := by
      rw [totalPower, Machine.foldl_int64_add hpowers (le_refl 0) (by omega), Int.zero_add]
    have hnonneg := Int.mul_nonneg hsum (by omega : 0 ≤ bps)
    unfold capAt nextCap
    rw [hpow, Machine.int64_of_lt hnonneg (by omega), Int.tdiv_eq_ediv_of_nonneg hnonneg]
    simp only
    split_ifs <;> omega
  rw [capStep, hcap]
  exact List.map_congr_left fun x _ => capEntry_eq_min (le_max_left _ _) x

include hpos in
/-- While no product wraps, the cap only ever falls. -/
theorem capPowers_nextCap_le (hshare : bps ≤ 9999) :
    ∃ c, 1 ≤ c ∧ capPowers raw bps = raw.map (min · c) ∧ nextCap bps raw c ≤ c := by
  refine capRounds_keeps
    (P := fun effective => ∃ c, 1 ≤ c ∧ effective = raw.map (min · c) ∧ nextCap bps raw c ≤ c)
    ?_ 64 ⟨raw.sum, hpos, (map_min_sum hnn).symm, ?_⟩
  · rintro effective ⟨c, hc, rfl, hle⟩
    refine ⟨_, le_max_left _ _, capStep_eq hnn htotal hbps hfits hc, max_le_max_left 1 ?_⟩
    have hsum : (raw.map (min · (nextCap bps raw c))).sum ≤ (raw.map (min · c)).sum :=
      List.sum_le_sum fun x _ => min_le_min_left x hle
    exact Int.ediv_le_ediv (by decide) (Int.mul_le_mul_of_nonneg_right hsum (by omega))
  · have hprod := Int.mul_le_mul_of_nonneg_left hshare hpos.le
    rw [nextCap, map_min_sum hnn]
    omega

end Rounds

/-- The validators bonded at the end of a block, as staking iterates them: of distinct addresses and
of positive consensus power. -/
structure Bonded (consAddr : Bytes → Bytes) where
  validators : List ValidatorUpdate
  nodup : (validators.map (address consAddr)).Nodup
  positive : ∀ v ∈ validators, 0 < v.power

variable {consAddr : Bytes → Bytes}

/-- The validators under new powers. -/
def assignPowers (validators : List ValidatorUpdate) (powers : List Int) : List ValidatorUpdate :=
  List.zipWith (fun v power => { v with power }) validators powers

/-- The bonded validators, each under its capped power. -/
def Bonded.capped (b : Bonded consAddr) (bps : Nat) : List ValidatorUpdate :=
  assignPowers b.validators (capPowers (b.validators.map ValidatorUpdate.power) bps)

/-- A list of validators as a table. -/
def toSet (consAddr : Bytes → Bytes) (vs : List ValidatorUpdate) : ValSet consAddr :=
  vs.foldl RecStore.put .empty

theorem assignPowers_addresses {validators : List ValidatorUpdate} {powers : List Int}
    (hlen : powers.length = validators.length) :
    (assignPowers validators powers).map (address consAddr)
      = validators.map (address consAddr) := by
  induction validators generalizing powers with
  | nil => rfl
  | cons v vs ih =>
    cases powers with
    | nil => cases hlen
    | cons p ps => exact congrArg₂ List.cons rfl (ih (Nat.succ.inj hlen))

theorem power_of_mem_assignPowers {validators : List ValidatorUpdate} {powers : List Int}
    {v : ValidatorUpdate} (hv : v ∈ assignPowers validators powers) : v.power ∈ powers := by
  induction validators generalizing powers with
  | nil => simp [assignPowers] at hv
  | cons u us ih =>
    cases powers with
    | nil => simp [assignPowers] at hv
    | cons p ps =>
      rcases List.mem_cons.mp hv with rfl | hv
      · exact List.mem_cons_self
      · exact .tail _ (ih hv)

namespace Bonded

variable (b : Bonded consAddr) (bps : Nat)

theorem capPowers_spec :
    (capPowers (b.validators.map ValidatorUpdate.power) bps).length = b.validators.length
      ∧ ∀ x ∈ capPowers (b.validators.map ValidatorUpdate.power) bps, 0 < x := by
  have hraw : ∀ x ∈ b.validators.map ValidatorUpdate.power, 0 < x := fun x hx => by
    obtain ⟨v, hv, rfl⟩ := List.mem_map.mp hx
    exact b.positive v hv
  refine capRounds_keeps (P := fun powers => powers.length = b.validators.length ∧ ∀ x ∈ powers, 0 < x)
    (fun effective _ => ⟨?_, fun x hx => ?_⟩) 64 ⟨List.length_map _, hraw⟩
  · rw [capStep, List.length_map, List.length_map]
  · obtain ⟨r, hr, rfl⟩ := List.mem_map.mp hx
    exact capEntry_pos (hraw r hr)

theorem capped_addresses :
    (b.capped bps).map (address consAddr) = b.validators.map (address consAddr) :=
  assignPowers_addresses (b.capPowers_spec bps).1

theorem capped_nodup : ((b.capped bps).map (address consAddr)).Nodup := by
  rw [capped_addresses]
  exact b.nodup

theorem capped_positive {v : ValidatorUpdate} (hv : v ∈ b.capped bps) : 0 < v.power :=
  (b.capPowers_spec bps).2 _ (power_of_mem_assignPowers hv)

end Bonded

theorem mem_toSet {vs : List ValidatorUpdate} (hnodup : (vs.map (address consAddr)).Nodup)
    {v : ValidatorUpdate} : v ∈ (toSet consAddr vs).entries ↔ v ∈ vs := by
  constructor
  · intro hv
    rcases mem_of_mem_foldl_put hv with hnone | hin
    · cases hnone
    · exact hin
  · intro hv
    exact mem_of_get? (get?_foldl_put hnodup hv)

theorem has_toSet {vs : List ValidatorUpdate} {a : Bytes} :
    (toSet consAddr vs).has a = true ↔ a ∈ vs.map (address consAddr) := by
  rw [List.mem_map]
  constructor
  · intro ha
    obtain ⟨v, hv⟩ := has_iff.mp ha
    rcases mem_of_mem_foldl_put (mem_of_get? hv) with hnone | hin
    · cases hnone
    · exact ⟨v, hin, key_of_get? hv⟩
  · exact fun hv => has_foldl_put (.inr hv)

/-! ## The updates of a block -/

/-- The state of the loop over the bonded validators: the updates so far, what of the set last sent
is not met yet, and the store of that set. -/
structure Diff (consAddr : Bytes → Bytes) where
  updates : List ValidatorUpdate
  last : ValSet consAddr
  sent : ValSet consAddr

/-- Meet one validator under its capped power. -/
def Diff.visit (d : Diff consAddr) (u : ValidatorUpdate) : Diff consAddr where
  updates := if d.last.weightAt ValidatorUpdate.power (address consAddr u) = some u.power
    then d.updates else d.updates ++ [u]
  last := d.last.del (address consAddr u)
  sent := d.sent.put u

/-- The update that removes a validator. -/
def removal (u : ValidatorUpdate) : ValidatorUpdate := { u with power := 0 }

/-- The updates of `ComputeCappedValidatorUpdates` with the set it leaves in the store; `none` while
the cap is off. The departed validators come in the order the map is iterated in. -/
def computeCappedValidatorUpdates (p : Params) (order : List ValidatorUpdate → List ValidatorUpdate)
    (b : Bonded consAddr) (mirror : ValSet consAddr) :
    Option (List ValidatorUpdate × ValSet consAddr) :=
  if p.Active then
    let d := (b.capped p.perValidatorCapBps).foldl Diff.visit ⟨[], mirror, mirror⟩
    let departed := order d.last.entries
    some (d.updates ++ departed.map removal,
      departed.foldl (fun sent u => sent.del (address consAddr u)) d.sent)
  else none

/-- The updates of x/staking: what changed between the powers of the last block and the bonded
validators. -/
def stakingUpdates (last : ValSet consAddr) (b : Bonded consAddr) : List ValidatorUpdate :=
  b.validators.filter (fun u => last.weightAt ValidatorUpdate.power (address consAddr u) ≠ some u.power)
    ++ (last.entries.filter fun u =>
      address consAddr u ∉ b.validators.map (address consAddr)).map removal

theorem foldl_visit {us : List ValidatorUpdate} {d : Diff consAddr}
    (hnodup : (us.map (address consAddr)).Nodup) :
    (us.foldl Diff.visit d).updates = d.updates ++ us.filter (fun u =>
        d.last.weightAt ValidatorUpdate.power (address consAddr u) ≠ some u.power)
      ∧ (us.foldl Diff.visit d).sent = us.foldl RecStore.put d.sent
      ∧ ∀ a, (us.foldl Diff.visit d).last.get? a
        = if a ∈ us.map (address consAddr) then none else d.last.get? a := by
  induction us generalizing d with
  | nil => exact ⟨by simp, rfl, fun a => by simp⟩
  | cons u us ih =>
    obtain ⟨hnew, hnodup⟩ := List.nodup_cons.mp hnodup
    obtain ⟨hupdates, hsent, hlast⟩ := ih (d := d.visit u) hnodup
    have hne : ∀ v ∈ us, address consAddr v ≠ address consAddr u := fun v hv heq =>
      hnew (heq ▸ List.mem_map_of_mem hv)
    -- the first validator hides no other one from the comparison
    have hfilter : us.filter (fun v => (d.visit u).last.weightAt ValidatorUpdate.power
          (address consAddr v) ≠ some v.power)
        = us.filter (fun v => d.last.weightAt ValidatorUpdate.power (address consAddr v)
          ≠ some v.power) := by
      refine List.filter_congr fun v hv => ?_
      rw [RecStore.weightAt, Diff.visit, get?_del, if_neg (hne v hv)]
      rfl
    refine ⟨?_, hsent, fun a => ?_⟩
    · rw [List.foldl_cons, hupdates, hfilter, List.filter_cons]
      by_cases hsame : d.last.weightAt ValidatorUpdate.power (address consAddr u) = some u.power
      · simp [Diff.visit, hsame]
      · simp [Diff.visit, hsame]
    · rw [List.foldl_cons, hlast, Diff.visit, get?_del]
      have hmem : a ∈ (u :: us).map (address consAddr)
          ↔ a = address consAddr u ∨ a ∈ us.map (address consAddr) := by
        rw [List.map_cons, List.mem_cons]
      by_cases ha : a = address consAddr u
      · rw [if_pos ha, ite_self, if_pos (hmem.mpr (.inl ha))]
      · rw [if_neg ha]
        exact if_congr (hmem.trans (or_iff_right ha)).symm rfl rfl

theorem isDiff_append {old : ValSet consAddr} {vs : List ValidatorUpdate}
    {departed : List ValidatorUpdate} (hnodup : (vs.map (address consAddr)).Nodup)
    (hpos : ∀ v ∈ vs, 0 < v.power)
    (hdeparted : ∀ u, u ∈ departed ↔ u ∈ old.entries ∧ address consAddr u ∉ vs.map (address consAddr))
    (hdistinct : (departed.map (address consAddr)).Nodup) :
    RecStore.IsDiff ValidatorUpdate.power old (toSet consAddr vs)
      (vs.filter (fun u => old.weightAt ValidatorUpdate.power (address consAddr u) ≠ some u.power)
        ++ departed.map removal) := by
  have hlacks : ∀ u ∈ departed, (toSet consAddr vs).has (address consAddr u) = false := fun u hu => by
    rw [← Bool.not_eq_true, has_toSet]
    exact ((hdeparted u).mp hu).2
  refine ⟨?_, fun u hu => ?_, fun u hu => ?_, fun u hu hgone => ?_⟩
  · have hremoved : (departed.map removal).map (address consAddr) = departed.map (address consAddr) := by
      rw [List.map_map]
      rfl
    rw [List.map_append, hremoved, List.nodup_append]
    refine ⟨hnodup.sublist (List.filter_sublist.map _), hdistinct, fun a ha b hb heq => ?_⟩
    obtain ⟨v, hv, rfl⟩ := List.mem_map.mp ha
    obtain ⟨u, hu, rfl⟩ := List.mem_map.mp hb
    exact ((hdeparted u).mp hu).2 (heq ▸ List.mem_map_of_mem (List.mem_of_mem_filter hv))
  · rcases List.mem_append.mp hu with hsent | hgone
    · have hin : u ∈ vs := List.mem_of_mem_filter hsent
      exact .inl ⟨(mem_toSet hnodup).mpr hin, hpos u hin⟩
    · obtain ⟨v, hv, rfl⟩ := List.mem_map.mp hgone
      have hold : old.has (address consAddr v) = true := has_of_mem ((hdeparted v).mp hv).1
      exact .inr ⟨rfl, hold, hlacks v hv⟩
  · by_cases hsame : old.weightAt ValidatorUpdate.power (address consAddr u) = some u.power
    · exact .inr hsame
    · refine .inl (List.mem_append_left _ (List.mem_filter.mpr ⟨(mem_toSet hnodup).mp hu, ?_⟩))
      simpa using hsame
  · have hout : address consAddr u ∉ vs.map (address consAddr) := by
      rw [← has_toSet, hgone]
      decide
    exact ⟨removal u, List.mem_append_right _ (List.mem_map_of_mem ((hdeparted u).mpr ⟨hu, hout⟩)),
      rfl⟩

theorem stakingUpdates_isDiff (last : ValSet consAddr) (b : Bonded consAddr) :
    RecStore.IsDiff ValidatorUpdate.power last (toSet consAddr b.validators)
      (stakingUpdates last b) := by
  refine isDiff_append b.nodup b.positive (fun u => ?_) ?_
  · simp [List.mem_filter]
  · exact last.nodup_keys.sublist (List.filter_sublist.map _)

/-- **What the capped updates are.** A diff of the set last sent and the capped set, and the capped
set is what the store holds afterwards. -/
theorem computeCappedValidatorUpdates_spec {p : Params} (hactive : p.Active)
    {order : List ValidatorUpdate → List ValidatorUpdate} (horder : ∀ l, (order l).Perm l)
    (b : Bonded consAddr) (mirror : ValSet consAddr) :
    ∃ updates, computeCappedValidatorUpdates p order b mirror
        = some (updates, toSet consAddr (b.capped p.perValidatorCapBps))
      ∧ RecStore.IsDiff ValidatorUpdate.power mirror
        (toSet consAddr (b.capped p.perValidatorCapBps)) updates := by
  have hnodup := b.capped_nodup p.perValidatorCapBps
  generalize hcaps : b.capped p.perValidatorCapBps = caps at hnodup ⊢
  obtain ⟨hupdates, hsent, hlast⟩ := foldl_visit (d := ⟨[], mirror, mirror⟩) hnodup
  have hdeparted : ∀ u, u ∈ order (caps.foldl Diff.visit ⟨[], mirror, mirror⟩).last.entries
      ↔ u ∈ mirror.entries ∧ address consAddr u ∉ caps.map (address consAddr) := fun u => by
    rw [(horder _).mem_iff, mem_entries_iff, hlast, mem_entries_iff]
    split_ifs with hin
    · simp [hin]
    · simp [hin]
  generalize hgone : order (caps.foldl Diff.visit ⟨[], mirror, mirror⟩).last.entries = departed
    at hdeparted
  -- the store: the validators met were written, the others deleted
  have hstore : departed.foldl (fun sent u => sent.del (address consAddr u))
      (caps.foldl RecStore.put mirror) = toSet consAddr caps := by
    refine ext_get? fun a => ?_
    rw [get?_foldl_del]
    by_cases ha : a ∈ caps.map (address consAddr)
    · obtain ⟨v, hv, rfl⟩ := List.mem_map.mp ha
      have hkept : address consAddr v ∉ departed.map (address consAddr) := fun hin => by
        obtain ⟨u, hu, heq⟩ := List.mem_map.mp hin
        exact ((hdeparted u).mp hu).2 (heq ▸ ha)
      rw [if_neg hkept, get?_foldl_put hnodup hv, toSet, get?_foldl_put hnodup hv]
    · have hfresh : ∀ v ∈ caps, address consAddr v ≠ a := fun v hv heq =>
        ha (heq ▸ List.mem_map_of_mem hv)
      rw [get?_foldl_put_of_fresh hfresh, toSet, get?_foldl_put_of_fresh hfresh,
        get?_empty]
      split_ifs with hin
      · rfl
      · by_contra hsome
        obtain ⟨u, hu⟩ := Option.ne_none_iff_exists'.mp hsome
        have hkey : address consAddr u = a := key_of_get? hu
        refine hin (List.mem_map.mpr ⟨u, (hdeparted u).mpr ⟨mem_of_get? hu, ?_⟩, hkey⟩)
        rw [hkey]
        exact ha
  refine ⟨_, ?_, isDiff_append hnodup (fun v hv => b.capped_positive _ (hcaps ▸ hv)) hdeparted ?_⟩
  · rw [computeCappedValidatorUpdates, if_pos hactive, hcaps]
    simp only [hupdates, hsent, hgone, hstore, List.nil_append]
  · rw [← hgone]
    exact ((horder _).map _).nodup_iff.mpr (nodup_keys _)

end VpCap
