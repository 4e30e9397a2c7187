import Limonata.Lib.RecStore

/-!
# Change lists for weighted records

Two parties keep the same table of weighted records. One sends the other a list of changes: a record
of positive weight is stored, a record of weight zero removes the key it stands for, and it is an
error to remove a key that is not there.

A list of changes is a *diff* of two tables if it tells every difference and nothing else. The
results say where a diff leads the receiver: to the new table if it held the old one, and also if
the sender took the old table to be empty and the receiver held no key that the new one lacks.
-/

namespace RecStore

variable {K V : Type} [LinearOrder K] {key : V → K} (weight : V → Int)

/-- Apply one change. -/
def change (s : RecStore key) (v : V) : Option (RecStore key) :=
  if weight v < 0 then none
  else if weight v = 0 then if s.has (key v) then some (s.del (key v)) else none
  else some (s.put v)

/-- Apply the changes in order; the first error fails them all. -/
def changeAll (s : RecStore key) (vs : List V) : Option (RecStore key) :=
  vs.foldlM (change weight) s

/-- The weight stored under a key. -/
def weightAt (s : RecStore key) (k : K) : Option Int := (s.get? k).map weight

theorem weightAt_isSome (s : RecStore key) (k : K) : (s.weightAt weight k).isSome = s.has k := by
  simp [weightAt, has]

variable {weight}

theorem weightAt_eq_none {s : RecStore key} {k : K} :
    s.weightAt weight k = none ↔ s.has k = false := by
  rw [← weightAt_isSome weight, Option.isSome_eq_false_iff, Option.isNone_iff_eq_none]

theorem weightAt_of_mem {s : RecStore key} {v : V} (hv : v ∈ s.entries) :
    s.weightAt weight (key v) = some (weight v) := by
  rw [weightAt, (s.mem_entries_iff v).mp hv, Option.map_some]

theorem exists_mem_of_has {s : RecStore key} {k : K} (h : s.has k = true) :
    ∃ v ∈ s.entries, key v = k := by
  obtain ⟨v, hv⟩ := has_iff.mp h
  exact ⟨v, mem_of_get? hv, key_of_get? hv⟩

/-! ## Applying changes -/

/-- A change that is no error sets what is stored under its key and nothing else. -/
theorem change_spec {s : RecStore key} {v : V} (hweight : 0 ≤ weight v)
    (hgone : weight v = 0 → s.has (key v) = true) :
    ∃ t, s.change weight v = some t
      ∧ t.weightAt weight (key v) = (if weight v = 0 then none else some (weight v))
      ∧ ∀ k, k ≠ key v → t.get? k = s.get? k := by
  unfold change
  rw [if_neg (Int.not_lt.mpr hweight)]
  by_cases hzero : weight v = 0
  · rw [if_pos hzero, if_pos (hgone hzero)]
    refine ⟨_, rfl, ?_, fun k hk => ?_⟩
    · rw [if_pos hzero, weightAt, get?_del_self, Option.map_none]
    · rw [get?_del_of_ne hk]
  · rw [if_neg hzero]
    refine ⟨_, rfl, ?_, fun k hk => ?_⟩
    · rw [if_neg hzero, weightAt, get?_put_self, Option.map_some]
    · rw [get?_put_of_ne hk]

theorem changeAll_spec {vs : List V} {s : RecStore key} (hnodup : (vs.map key).Nodup)
    (hweight : ∀ v ∈ vs, 0 ≤ weight v) (hgone : ∀ v ∈ vs, weight v = 0 → s.has (key v) = true) :
    ∃ t, s.changeAll weight vs = some t
      ∧ (∀ v ∈ vs, t.weightAt weight (key v) = if weight v = 0 then none else some (weight v))
      ∧ ∀ k, (∀ v ∈ vs, key v ≠ k) → t.get? k = s.get? k := by
  induction vs generalizing s with
  | nil => exact ⟨s, rfl, nofun, fun _ _ => rfl⟩
  | cons v vs ih =>
    obtain ⟨hnew, hnodup⟩ := List.nodup_cons.mp hnodup
    obtain ⟨hv, hvs⟩ := List.forall_mem_cons.mp hweight
    obtain ⟨hgonev, hgonevs⟩ := List.forall_mem_cons.mp hgone
    have hne : ∀ u ∈ vs, key u ≠ key v := fun u hu heq => hnew (heq ▸ List.mem_map_of_mem hu)
    obtain ⟨s₁, hs₁, hset, hkeep⟩ := change_spec hv hgonev
    have hgone₁ : ∀ u ∈ vs, weight u = 0 → s₁.has (key u) = true := fun u hu hzero => by
      rw [has, hkeep _ (hne u hu)]
      exact hgonevs u hu hzero
    obtain ⟨t, ht, htset, htkeep⟩ := ih hnodup hvs hgone₁
    refine ⟨t, ?_, List.forall_mem_cons.mpr ⟨?_, htset⟩, fun k hk => ?_⟩
    · rw [changeAll, List.foldlM_cons, hs₁]
      exact ht
    · rw [weightAt, htkeep _ hne]
      exact hset
    · obtain ⟨hkv, hkvs⟩ := List.forall_mem_cons.mp hk
      rw [htkeep k hkvs, hkeep k (Ne.symm hkv)]

/-! ## Diffs -/

variable (weight) in
/-- The changes that lead from one table to another. -/
structure IsDiff (old new : RecStore key) (vs : List V) : Prop where
  nodup : (vs.map key).Nodup
  /-- Every change is a record of the new table or removes a key the new table lacks. -/
  sound : ∀ v ∈ vs, (v ∈ new.entries ∧ 0 < weight v)
    ∨ (weight v = 0 ∧ old.has (key v) = true ∧ new.has (key v) = false)
  /-- A record of the new table that is not sent has the weight it had. -/
  stored : ∀ v ∈ new.entries, v ∈ vs ∨ old.weightAt weight (key v) = some (weight v)
  removed : ∀ v ∈ old.entries, new.has (key v) = false → ∃ u ∈ vs, key u = key v

namespace IsDiff

variable {old new s : RecStore key} {vs : List V}

/-- **Where a diff leads.** It is applied to any table that has the keys it removes; what is stored
afterwards is as in the new table, except where the sender saw no change and sent none. -/
theorem changeAll (h : IsDiff weight old new vs)
    (hs : ∀ k, old.has k = true → new.has k = false → s.has k = true) :
    ∃ t, s.changeAll weight vs = some t
      ∧ (∀ v ∈ new.entries, t.weightAt weight (key v) = some (weight v)
        ∨ (t.weightAt weight (key v) = s.weightAt weight (key v)
          ∧ old.weightAt weight (key v) = some (weight v)))
      ∧ ∀ k, new.has k = false →
        t.weightAt weight k = if old.has k then none else s.weightAt weight k := by
  have hweight : ∀ v ∈ vs, 0 ≤ weight v := fun v hv => by
    rcases h.sound v hv with ⟨-, hpos⟩ | ⟨hzero, -⟩ <;> omega
  have hgone : ∀ v ∈ vs, weight v = 0 → s.has (key v) = true := fun v hv hzero => by
    rcases h.sound v hv with ⟨-, hpos⟩ | ⟨-, hold, hnew⟩
    · omega
    · exact hs _ hold hnew
  obtain ⟨t, ht, hset, hkeep⟩ := changeAll_spec h.nodup hweight hgone
  refine ⟨t, ht, fun v hv => ?_, fun k hk => ?_⟩
  · -- a record of the new table: sent, or untouched
    have hhas : new.has (key v) = true := has_of_mem hv
    by_cases hsent : ∃ u ∈ vs, key u = key v
    · obtain ⟨u, hu, hkey⟩ := hsent
      rcases h.sound u hu with ⟨hmem, hpos⟩ | ⟨-, -, hlacks⟩
      · have heq : u = v := List.inj_on_of_nodup_map new.nodup_keys hmem hv hkey
        subst heq
        exact .inl (by rw [hset u hu, if_neg (by omega)])
      · rw [hkey, hhas] at hlacks
        cases hlacks
    · rcases h.stored v hv with hin | hsame
      · exact absurd ⟨v, hin, rfl⟩ hsent
      · refine .inr ⟨?_, hsame⟩
        rw [weightAt, hkeep _ fun u hu heq => hsent ⟨u, hu, heq⟩]
        rfl
  · -- a key the new table lacks: removed if the sender knew it
    split_ifs with hold
    · obtain ⟨v, hv, rfl⟩ := exists_mem_of_has hold
      obtain ⟨u, hu, hkey⟩ := h.removed v hv hk
      rcases h.sound u hu with ⟨hmem, -⟩ | ⟨hzero, -, -⟩
      · have hhas : new.has (key u) = true := has_of_mem hmem
        rw [hkey, hk] at hhas
        cases hhas
      · rw [← hkey, hset u hu, if_pos hzero]
    · rw [weightAt, hkeep]
      · rfl
      · intro u hu hkey
        rcases h.sound u hu with ⟨hmem, -⟩ | ⟨-, hhad, -⟩
        · have hhas : new.has (key u) = true := has_of_mem hmem
          rw [hkey, hk] at hhas
          cases hhas
        · rw [hkey] at hhad
          exact hold hhad

theorem changeAll_of_agree (h : IsDiff weight old new vs)
    (hs : ∀ k, s.weightAt weight k = old.weightAt weight k) :
    ∃ t, s.changeAll weight vs = some t ∧ ∀ k, t.weightAt weight k = new.weightAt weight k := by
  have hhas : ∀ k, s.has k = old.has k := fun k => by
    rw [← weightAt_isSome weight, ← weightAt_isSome weight, hs]
  obtain ⟨t, ht, hstored, hlacks⟩ := h.changeAll fun k hold _ => (hhas k).trans hold
  refine ⟨t, ht, fun k => ?_⟩
  cases hk : new.has k with
  | true =>
    obtain ⟨v, hv, rfl⟩ := exists_mem_of_has hk
    rw [weightAt_of_mem hv]
    rcases hstored v hv with hset | ⟨hkept, hsame⟩
    · exact hset
    · rw [hkept, hs, hsame]
  | false =>
    rw [hlacks k hk, weightAt_eq_none.mpr hk]
    split_ifs with hold
    · rfl
    · rw [hs, weightAt_eq_none.mpr (by simpa using hold)]

/-- A sender that starts from an empty table sends the new one in full: that leads a receiver to it
whose keys the new table all has. -/
theorem changeAll_of_empty (h : IsDiff weight old new vs) (hempty : ∀ k, old.has k = false)
    (hs : ∀ k, s.has k = true → new.has k = true) :
    ∃ t, s.changeAll weight vs = some t ∧ ∀ k, t.weightAt weight k = new.weightAt weight k := by
  obtain ⟨t, ht, hstored, hlacks⟩ := h.changeAll fun k hold _ => by simp [hempty] at hold
  refine ⟨t, ht, fun k => ?_⟩
  cases hk : new.has k with
  | true =>
    obtain ⟨v, hv, rfl⟩ := exists_mem_of_has hk
    rw [weightAt_of_mem hv]
    rcases hstored v hv with hset | ⟨-, hsame⟩
    · exact hset
    · rw [weightAt_eq_none.mpr (hempty _)] at hsame
      cases hsame
  | false =>
    have hout : s.has k = false := by
      by_contra hin
      rw [hs k (by simpa using hin)] at hk
      cases hk
    rw [hlacks k hk, hempty, if_neg (by simp), weightAt_eq_none.mpr hout, weightAt_eq_none.mpr hk]

/-- A receiver with the keys of the old table, at whatever weights, ends with those of the new. -/
theorem changeAll_keys (h : IsDiff weight old new vs) (hs : ∀ k, s.has k = old.has k) :
    ∃ t, s.changeAll weight vs = some t ∧ ∀ k, t.has k = new.has k := by
  obtain ⟨t, ht, hstored, hlacks⟩ := h.changeAll fun k hold _ => (hs k).trans hold
  refine ⟨t, ht, fun k => ?_⟩
  rw [← weightAt_isSome weight]
  cases hk : new.has k with
  | true =>
    obtain ⟨v, hv, rfl⟩ := exists_mem_of_has hk
    rcases hstored v hv with hset | ⟨hkept, hsame⟩
    · rw [hset, Option.isSome_some]
    · rw [hkept, weightAt_isSome, hs, ← weightAt_isSome weight, hsame, Option.isSome_some]
  | false =>
    rw [hlacks k hk]
    split_ifs with hold
    · rfl
    · rw [weightAt_isSome, hs]
      simpa using hold

end IsDiff

end RecStore
