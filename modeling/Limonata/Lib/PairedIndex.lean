import Limonata.Lib.RecStore

/-!
# Two key-value stores as inverse indexes

A forward index `fwd` from `K` to `V` and a reverse index `rev` from `V` to `K` are `Paired` when
each entry of one is the entry of the other read backwards: both are then injective, and they are
inverse bijections between the keys of one and the keys of the other.
-/

variable {K V : Type} [LinearOrder K] [LinearOrder V]

namespace KVStore

/-- Each entry of one index is an entry of the other, read backwards. -/
def Paired (fwd : KVStore K V) (rev : KVStore V K) : Prop :=
  ∀ k v, lookup fwd k = some v ↔ lookup rev v = some k

/-- The reverse index without the value that `k` maps to. -/
def unlink (fwd : KVStore K V) (rev : KVStore V K) (k : K) : KVStore V K :=
  match lookup fwd k with
  | some v => rev.del v
  | none => rev

namespace Paired

variable {fwd : KVStore K V} {rev : KVStore V K}

theorem lookup_unlink (h : Paired fwd rev) (k : K) (v : V) :
    lookup (unlink fwd rev k) v = if lookup rev v = some k then none else lookup rev v := by
  unfold unlink
  cases hk : lookup fwd k with
  | none =>
    have hne : lookup rev v ≠ some k := fun hv => by
      rw [(h k v).mpr hv] at hk
      cases hk
    rw [if_neg hne]
  | some w =>
    have hw : lookup rev w = some k := (h k w).mp hk
    simp only [lookup_del]
    by_cases hv : v = w
    · rw [if_pos hv, if_pos (hv ▸ hw)]
    · have hne : lookup rev v ≠ some k := fun hk' => by
        rw [(h k v).mpr hk'] at hk
        exact hv (Option.some.inj hk)
      rw [if_neg hv, if_neg hne]

theorem del (h : Paired fwd rev) (k : K) : Paired (fwd.del k) (unlink fwd rev k) := by
  intro j v
  rw [h.lookup_unlink, lookup_del]
  by_cases hj : j = k
  · rw [if_pos hj]
    refine ⟨nofun, fun hv => ?_⟩
    split_ifs at hv with hk
    exact absurd (hj ▸ hv) hk
  · rw [if_neg hj, h j v]
    split_ifs with hk
    · refine ⟨fun hv => ?_, nofun⟩
      rw [hk] at hv
      exact absurd (Option.some.inj hv).symm hj
    · exact Iff.rfl

theorem assign (h : Paired fwd rev) {k : K} {v : V} (hfree : ∀ j, lookup rev v = some j → j = k) :
    Paired (KVStore.assign fwd k v) (KVStore.assign (unlink fwd rev k) v k) := by
  intro j w
  rw [lookup_assign, lookup_assign, h.lookup_unlink]
  by_cases hj : j = k
  · subst hj
    rw [if_pos rfl]
    by_cases hw : w = v
    · rw [if_pos hw, hw]
      simp
    · rw [if_neg hw]
      refine ⟨fun heq => absurd (Option.some.inj heq).symm hw, fun hrev => ?_⟩
      split_ifs at hrev with hold
      exact absurd hrev hold
  · rw [if_neg hj, h j w]
    by_cases hw : w = v
    · subst hw
      rw [if_pos rfl]
      refine ⟨fun hrev => absurd (hfree j hrev) hj, fun heq => ?_⟩
      exact absurd (Option.some.inj heq).symm hj
    · rw [if_neg hw]
      split_ifs with hold
      · refine ⟨fun hrev => ?_, nofun⟩
        rw [hold] at hrev
        exact absurd (Option.some.inj hrev).symm hj
      · exact Iff.rfl

theorem injective (h : Paired fwd rev) {j k : K} {v : V} (hj : lookup fwd j = some v)
    (hk : lookup fwd k = some v) : j = k := by
  have hrev : lookup rev v = some j := (h j v).mp hj
  rw [(h k v).mp hk] at hrev
  exact (Option.some.inj hrev).symm

theorem rev_unique {rev' : KVStore V K} (h : Paired fwd rev) (h' : Paired fwd rev') :
    rev = rev' := by
  refine ext_lookup fun v => ?_
  refine Option.ext fun k => ?_
  rw [← h k v, ← h' k v]

end Paired

variable {α : Type} (f : α → K) (g : α → V)

omit [LinearOrder V] in
theorem lookup_foldl_assign {as : List α} (hnodup : (as.map f).Nodup) (k : K) (v : V) :
    lookup (as.foldl (fun st a => KVStore.assign st (f a) (g a)) (RecStore.empty : KVStore K V)) k
      = some v ↔ ∃ a ∈ as, f a = k ∧ g a = v := by
  have hload : as.foldl (fun st a => KVStore.assign st (f a) (g a))
      (RecStore.empty : KVStore K V)
      = (as.map fun a => (f a, g a)).foldl RecStore.put RecStore.empty := by
    rw [List.foldl_map]
    rfl
  have hkeys : ((as.map fun a => (f a, g a)).map Prod.fst).Nodup := by
    rw [List.map_map]
    exact hnodup
  rw [hload]
  unfold lookup
  rw [RecStore.get?_foldl_put_empty hkeys]
  constructor
  · intro h
    obtain ⟨p, hp, hv⟩ := Option.map_eq_some_iff.mp h
    obtain ⟨a, ha, rfl⟩ := List.mem_map.mp (List.mem_of_find?_eq_some hp)
    exact ⟨a, ha, by simpa using List.find?_some hp, hv⟩
  · rintro ⟨a, ha, rfl, rfl⟩
    have hmem : (f a, g a) ∈ as.map fun a => (f a, g a) := List.mem_map_of_mem ha
    have hget := RecStore.get?_foldl_put (s := (RecStore.empty : KVStore K V)) hkeys hmem
    rw [RecStore.get?_foldl_put_empty hkeys] at hget
    rw [hget]
    rfl

theorem Paired.load {as : List α} (hf : (as.map f).Nodup) (hg : (as.map g).Nodup) :
    Paired (as.foldl (fun st a => KVStore.assign st (f a) (g a)) (RecStore.empty : KVStore K V))
      (as.foldl (fun st a => KVStore.assign st (g a) (f a)) (RecStore.empty : KVStore V K)) := by
  intro k v
  rw [lookup_foldl_assign f g hf, lookup_foldl_assign g f hg]
  exact ⟨fun ⟨a, ha, hk, hv⟩ => ⟨a, ha, hv, hk⟩, fun ⟨a, ha, hv, hk⟩ => ⟨a, ha, hk, hv⟩⟩

end KVStore
