import Mathlib

/-!
# Ordered stores of records

A record store holds records under a key that is computed from the record itself, and its
iterator yields them in ascending key order. It is represented by its iteration order: a list of
records with strictly ascending keys. A store that holds a key twice, iterates out of order, or
holds a record under a foreign key cannot be built.

* `get?`, `put`, `del` are the point operations, `delWhere` deletes a key range;
* `get?_put`, `get?_del`, `get?_delWhere` say what each of them reads back;
* `put_perm` and `del_perm` relate the record lists up to permutation, for counting arguments.

`KVStore` is the special case of plain key-value pairs.
-/

/-- Records under their own keys, with ascending iteration order. -/
structure RecStore {K V : Type} [LinearOrder K] (key : V → K) where
  entries : List V
  sorted : entries.Pairwise (fun a b => key a < key b)

namespace RecStore

variable {K V : Type} [LinearOrder K] {key : V → K}
variable {v x w : V} {es vs : List V} {s : RecStore key} {k : K}

instance [DecidableEq V] : DecidableEq (RecStore key) := fun s t =>
  decidable_of_iff (s.entries = t.entries)
    ⟨fun h => by cases s; cases t; cases h; rfl, fun h => by rw [h]⟩

def empty : RecStore key := ⟨[], List.Pairwise.nil⟩

/-! ## The record list -/

/-- Write `v` into an ascending record list, replacing the record under its key. -/
def insertEntry (key : V → K) (v : V) : List V → List V
  | [] => [v]
  | e :: es =>
    if key v < key e then v :: e :: es
    else if key e = key v then v :: es
    else e :: insertEntry key v es

theorem mem_insertEntry (hx : x ∈ insertEntry key v es) : x = v ∨ x ∈ es := by
  induction es with
  | nil => exact Or.inl (by simpa [insertEntry] using hx)
  | cons e es ih =>
    unfold insertEntry at hx
    split_ifs at hx with hlt heq
    · simpa using hx
    · rcases List.mem_cons.mp hx with h | h
      · exact Or.inl h
      · exact Or.inr (List.mem_cons_of_mem _ h)
    · rcases List.mem_cons.mp hx with h | h
      · exact Or.inr (h ▸ List.mem_cons_self)
      · exact (ih h).imp_right (List.mem_cons_of_mem _)

theorem sorted_insertEntry (v : V) (hs : es.Pairwise (fun a b => key a < key b)) :
    (insertEntry key v es).Pairwise (fun a b => key a < key b) := by
  induction es with
  | nil => simp [insertEntry]
  | cons e es ih =>
    obtain ⟨he, hes⟩ := List.pairwise_cons.mp hs
    unfold insertEntry
    split_ifs with hlt heq
    · refine List.pairwise_cons.mpr ⟨fun x hx => ?_, hs⟩
      rcases List.mem_cons.mp hx with rfl | hx
      · exact hlt
      · exact hlt.trans (he x hx)
    · exact List.pairwise_cons.mpr ⟨fun x hx => heq ▸ he x hx, hes⟩
    · refine List.pairwise_cons.mpr ⟨fun x hx => ?_, ih hes⟩
      rcases mem_insertEntry hx with rfl | hx
      · exact lt_of_le_of_ne (not_lt.mp hlt) heq
      · exact he x hx

/-! ## Operations -/

/-- The record stored under `k`. -/
def get? (s : RecStore key) (k : K) : Option V := s.entries.find? (fun e => key e = k)

/-- Whether `k` is stored. -/
def has (s : RecStore key) (k : K) : Bool := (s.get? k).isSome

/-- Store `v` under its key. -/
def put (s : RecStore key) (v : V) : RecStore key :=
  ⟨insertEntry key v s.entries, sorted_insertEntry v s.sorted⟩

/-- Delete every key that satisfies `p`. -/
def delWhere (s : RecStore key) (p : K → Bool) : RecStore key :=
  ⟨s.entries.filter (fun e => !p (key e)), s.sorted.filter _⟩

/-- Delete `k`; no change when it is not stored. -/
def del (s : RecStore key) (k : K) : RecStore key := s.delWhere (fun x => x = k)

/-! ## Reading back -/

theorem nodup_keys (s : RecStore key) : (s.entries.map key).Nodup := by
  rw [List.nodup_iff_pairwise_ne, List.pairwise_map]
  exact s.sorted.imp (fun h => ne_of_lt h)

theorem nodup_entries (s : RecStore key) : s.entries.Nodup := s.nodup_keys.of_map _

/-- Keys are distinct. -/
theorem eq_of_key {w : V} (hv : v ∈ s.entries) (hw : w ∈ s.entries) (h : key v = key w) : v = w :=
  List.inj_on_of_nodup_map s.nodup_keys hv hw h

theorem key_of_get? (h : s.get? k = some v) : key v = k := by
  simpa using List.find?_some h

theorem mem_of_get? (h : s.get? k = some v) :
    v ∈ s.entries := List.mem_of_find?_eq_some h

theorem mem_entries_iff (s : RecStore key) (v : V) : v ∈ s.entries ↔ s.get? (key v) = some v := by
  constructor
  · intro hmem
    obtain ⟨e, hfind⟩ : ∃ e, s.get? (key v) = some e := by
      rw [← Option.isSome_iff_exists, get?, List.find?_isSome]
      exact ⟨v, hmem, by simp⟩
    rw [hfind, eq_of_key (mem_of_get? hfind) hmem (key_of_get? hfind)]
  · exact mem_of_get?

theorem ext_get? {t : RecStore key} (h : ∀ k, s.get? k = t.get? k) : s = t := by
  have hmem : ∀ v, v ∈ s.entries ↔ v ∈ t.entries := fun v => by
    rw [mem_entries_iff, mem_entries_iff, h]
  have hperm : s.entries.Perm t.entries :=
    (List.perm_ext_iff_of_nodup s.nodup_entries t.nodup_entries).mpr hmem
  have heq : s.entries = t.entries :=
    hperm.eq_of_pairwise (fun a b _ _ hab hba => absurd hab (not_lt_of_gt hba)) s.sorted t.sorted
  cases s; cases t; cases heq; rfl

@[simp] theorem get?_empty (k : K) : (empty : RecStore key).get? k = none := rfl

@[simp] theorem entries_empty : (empty : RecStore key).entries = [] := rfl

theorem get?_put (s : RecStore key) (v : V) (j : K) :
    (s.put v).get? j = if j = key v then some v else s.get? j := by
  unfold get? put
  simp only
  induction s.entries with
  | nil => by_cases h : j = key v <;> simp [insertEntry, h, eq_comm]
  | cons e es ih => grind [insertEntry]

@[simp] theorem get?_put_self (s : RecStore key) (v : V) : (s.put v).get? (key v) = some v := by
  simp [get?_put]

theorem get?_put_of_ne (h : k ≠ key v) : (s.put v).get? k = s.get? k := by
  rw [get?_put, if_neg h]

/-- A record read after a write is the one written, or was there. -/
theorem get?_of_put (h : (s.put v).get? k = some w) :
    (k = key v ∧ w = v) ∨ (k ≠ key v ∧ s.get? k = some w) := by
  by_cases hk : k = key v
  · subst hk
    exact .inl ⟨rfl, (Option.some.inj ((get?_put_self s v).symm.trans h)).symm⟩
  · exact .inr ⟨hk, (get?_put_of_ne hk).symm.trans h⟩

theorem forall_get?_put {P : K → V → Prop} (hv : P (key v) v) (h : ∀ k x, s.get? k = some x → P k x) :
    ∀ k x, (s.put v).get? k = some x → P k x := by
  intro k x hx
  obtain ⟨rfl, rfl⟩ | ⟨-, hold⟩ := get?_of_put hx
  · exact hv
  · exact h k x hold

theorem put_put (hkey : key v = key w) : (s.put v).put w = s.put w := by
  refine ext_get? fun j => ?_
  rw [get?_put, get?_put, get?_put, hkey]
  split_ifs
  · rfl
  · rfl

theorem get?_delWhere (s : RecStore key) (p : K → Bool) (j : K) :
    (s.delWhere p).get? j = if p j then none else s.get? j := by
  unfold get? delWhere
  simp only
  induction s.entries with
  | nil => simp
  | cons e es ih => grind

theorem get?_del (s : RecStore key) (k j : K) :
    (s.del k).get? j = if j = k then none else s.get? j := by
  simp [del, get?_delWhere]

@[simp] theorem get?_del_self (s : RecStore key) (k : K) : (s.del k).get? k = none := by
  simp [get?_del]

theorem get?_del_of_ne {j : K} (h : j ≠ k) : (s.del k).get? j = s.get? j := by
  rw [get?_del, if_neg h]

theorem get?_of_del {j : K} (h : (s.del k).get? j = some v) : s.get? j = some v := by
  rw [get?_del] at h
  split_ifs at h
  exact h

theorem has_iff : s.has k = true ↔ ∃ v, s.get? k = some v := by
  simp [has, Option.isSome_iff_exists]

theorem has_eq_false : s.has k = false ↔ s.get? k = none := by
  simp [has]

section

variable (s : RecStore key)

theorem mem_put_iff (v x : V) :
    x ∈ (s.put v).entries ↔ x = v ∨ (x ∈ s.entries ∧ key x ≠ key v) := by
  rw [mem_entries_iff, mem_entries_iff, get?_put]
  by_cases h : key x = key v
  · simp [h, eq_comm]
  · simp only [h, if_false, ne_eq, not_false_eq_true, and_true]
    exact ⟨Or.inr, fun hx => hx.elim (fun he => absurd (congrArg key he) h) id⟩

theorem mem_delWhere_iff (p : K → Bool) (x : V) :
    x ∈ (s.delWhere p).entries ↔ x ∈ s.entries ∧ p (key x) = false := by
  simp [delWhere, List.mem_filter]

theorem mem_del_iff (k : K) (x : V) : x ∈ (s.del k).entries ↔ x ∈ s.entries ∧ key x ≠ k := by
  simp [del, mem_delWhere_iff]

theorem has_put (v : V) (k : K) : (s.put v).has k = true ↔ k = key v ∨ s.has k = true := by
  unfold has
  rw [get?_put]
  split_ifs with h <;> simp [h]

theorem has_del (k j : K) : (s.del k).has j = true ↔ j ≠ k ∧ s.has j = true := by
  unfold has
  rw [get?_del]
  split_ifs with h <;> simp [h]

end

theorem forall_mem_put {P : V → Prop} (hv : P v) (h : ∀ x ∈ s.entries, P x) :
    ∀ x ∈ (s.put v).entries, P x := by
  intro x hx
  cases (s.mem_put_iff v x).mp hx with
  | inl heq => exact heq ▸ hv
  | inr hold => exact h x hold.1

theorem has_of_mem (h : v ∈ s.entries) : s.has (key v) = true :=
  has_iff.mpr ⟨v, (s.mem_entries_iff v).mp h⟩

/-! ## Loading a list of records -/

theorem mem_of_mem_foldl_put (h : x ∈ (vs.foldl put s).entries) : x ∈ s.entries ∨ x ∈ vs := by
  induction vs generalizing s with
  | nil => exact .inl h
  | cons v vs ih =>
    cases ih h with
    | inl hput =>
      cases (mem_put_iff s v x).mp hput with
      | inl heq => exact .inr (heq ▸ List.mem_cons_self)
      | inr hold => exact .inl hold.1
    | inr htail => exact .inr (.tail _ htail)

theorem has_foldl_put (h : s.has k = true ∨ ∃ v ∈ vs, key v = k) :
    (vs.foldl put s).has k = true := by
  induction vs generalizing s with
  | nil => exact h.resolve_right (by simp)
  | cons v vs ih =>
    refine ih ?_
    rw [has_put]
    rcases h with hold | ⟨u, hu, rfl⟩
    · exact .inl (.inr hold)
    · rcases List.mem_cons.mp hu with rfl | hu
      · exact .inl (.inl rfl)
      · exact .inr ⟨u, hu, rfl⟩

theorem get?_foldl_put_of_fresh (h : ∀ v ∈ vs, key v ≠ k) : (vs.foldl put s).get? k = s.get? k := by
  induction vs generalizing s with
  | nil => rfl
  | cons v vs ih =>
    obtain ⟨hv, hvs⟩ := List.forall_mem_cons.mp h
    rw [List.foldl_cons, ih hvs, get?_put_of_ne hv.symm]

theorem get?_foldl_put_of_agree (hagree : ∀ u ∈ vs, key u = key v → u = v)
    (hv : s.get? (key v) = some v ∨ v ∈ vs) : (vs.foldl put s).get? (key v) = some v := by
  induction vs generalizing s with
  | nil => exact hv.resolve_right (by simp)
  | cons u vs ih =>
    obtain ⟨hu, hvs⟩ := List.forall_mem_cons.mp hagree
    refine ih hvs ?_
    rw [get?_put]
    by_cases hkey : key v = key u
    · left
      rw [if_pos hkey, hu hkey.symm]
    · rw [if_neg hkey]
      refine hv.imp_right fun hmem => (List.mem_cons.mp hmem).resolve_left ?_
      rintro rfl
      exact hkey rfl

theorem get?_foldl_put (hnodup : (vs.map key).Nodup) (hv : v ∈ vs) :
    (vs.foldl put s).get? (key v) = some v :=
  get?_foldl_put_of_agree (fun _ hu hkey => List.inj_on_of_nodup_map hnodup hu hv hkey) (.inr hv)

theorem get?_foldl_put_empty (hnodup : (vs.map key).Nodup) (k : K) :
    (vs.foldl put (empty : RecStore key)).get? k = vs.find? (fun v => key v = k) := by
  cases hfind : vs.find? (fun v => key v = k) with
  | none =>
    rw [List.find?_eq_none] at hfind
    rw [get?_foldl_put_of_fresh (fun v hv hkey => hfind v hv (by simpa using hkey)), get?_empty]
  | some v =>
    have hkey : key v = k := by simpa using List.find?_some hfind
    rw [← hkey, get?_foldl_put hnodup (List.mem_of_find?_eq_some hfind)]

theorem get?_load_map (s : RecStore key) {f : V → V} (hf : ∀ v, key (f v) = key v) (k : K) :
    ((s.entries.map f).foldl put (empty : RecStore key)).get? k = (s.get? k).map f := by
  have hkeys : (s.entries.map f).map key = s.entries.map key := by
    rw [List.map_map]
    exact List.map_congr_left fun v _ => hf v
  rw [get?_foldl_put_empty (hkeys ▸ s.nodup_keys), List.find?_map]
  simp only [Function.comp_def, hf]
  rfl

theorem load_entries (s : RecStore key) : s.entries.foldl put (empty : RecStore key) = s :=
  ext_get? fun k => get?_foldl_put_empty s.nodup_keys k

theorem get?_foldl_del (vs : List V) (s : RecStore key) (k : K) :
    (vs.foldl (fun t v => t.del (key v)) s).get? k = if k ∈ vs.map key then none else s.get? k := by
  induction vs generalizing s with
  | nil => simp
  | cons v vs ih =>
    rw [List.foldl_cons, ih, get?_del]
    by_cases hk : k = key v
    · simp [hk]
    · simp [hk]

/-! ## Counting records -/

theorem put_perm (s : RecStore key) (v : V) :
    (s.put v).entries.Perm (v :: (s.del (key v)).entries) := by
  have hfresh : v ∉ (s.del (key v)).entries := by simp [mem_del_iff]
  rw [List.perm_ext_iff_of_nodup (nodup_entries _)
    (List.nodup_cons.mpr ⟨hfresh, nodup_entries _⟩)]
  intro x
  rw [List.mem_cons, mem_put_iff, mem_del_iff]

theorem del_perm (hget : s.get? k = some w) : s.entries.Perm (w :: (s.del k).entries) := by
  have hkey : key w = k := key_of_get? hget
  have hfresh : w ∉ (s.del k).entries := by simp [mem_del_iff, hkey]
  rw [List.perm_ext_iff_of_nodup (nodup_entries _)
    (List.nodup_cons.mpr ⟨hfresh, nodup_entries _⟩)]
  intro x
  rw [List.mem_cons, mem_del_iff]
  by_cases hx : key x = k
  · rw [mem_entries_iff, hx, hget]
    simp [eq_comm]
  · simp only [hx, ne_eq, not_false_eq_true, and_true]
    exact ⟨Or.inr, fun h => h.elim (fun he => absurd (he ▸ hkey) hx) id⟩

theorem del_of_get?_none (hget : s.get? k = none) : s.del k = s := by
  refine ext_get? (fun j => ?_)
  rw [get?_del]
  split_ifs with h
  · rw [h, hget]
  · rfl

/-- The number of records that satisfy `p`. -/
def count (s : RecStore key) (p : V → Bool) : Nat := s.entries.countP p

theorem count_put (s : RecStore key) (v : V) (p : V → Bool) :
    (s.put v).count p = (s.del (key v)).count p + if p v then 1 else 0 := by
  unfold count
  rw [(s.put_perm v).countP_eq, List.countP_cons]

theorem count_del (hget : s.get? k = some w) (p : V → Bool) :
    (s.del k).count p + (if p w then 1 else 0) = s.count p := by
  unfold count
  rw [(del_perm hget).countP_eq, List.countP_cons]

theorem count_del_le (s : RecStore key) (k : K) (p : V → Bool) : (s.del k).count p ≤ s.count p :=
  List.Sublist.countP_le List.filter_sublist

theorem count_put_fresh (hget : s.get? (key v) = none) (p : V → Bool) :
    (s.put v).count p = s.count p + if p v then 1 else 0 := by
  rw [count_put, del_of_get?_none hget]

/-- Overwriting a record by one that `p` does not tell apart leaves the count alone. -/
theorem count_put_replace (hget : s.get? (key v) = some w) (p : V → Bool) (hp : p v = p w) :
    (s.put v).count p = s.count p := by
  rw [count_put, hp, count_del hget]

theorem count_pos_iff {p : V → Bool} :
    0 < s.count p ↔ ∃ v ∈ s.entries, p v = true := List.countP_pos_iff

end RecStore

/-! ## Key-value stores -/

/-- A store of plain key-value pairs. -/
abbrev KVStore (K V : Type) [LinearOrder K] : Type := RecStore (Prod.fst : K × V → K)

namespace KVStore

variable {K V : Type} [LinearOrder K]

/-- The value stored under `k`. -/
def lookup (s : KVStore K V) (k : K) : Option V := (s.get? k).map Prod.snd

/-- Store `v` under `k`. -/
def assign (s : KVStore K V) (k : K) (v : V) : KVStore K V := s.put (k, v)

@[simp] theorem lookup_empty (k : K) : lookup (RecStore.empty : KVStore K V) k = none := rfl

theorem lookup_assign (s : KVStore K V) (k j : K) (v : V) :
    lookup (assign s k v) j = if j = k then some v else lookup s j := by
  unfold lookup assign
  rw [RecStore.get?_put]
  split_ifs <;> rfl

theorem ext_lookup {s t : KVStore K V} (h : ∀ k, lookup s k = lookup t k) : s = t := by
  have hget (s : KVStore K V) (k : K) : s.get? k = (lookup s k).map fun v => (k, v) := by
    unfold lookup
    cases hk : s.get? k with
    | none => rfl
    | some p =>
      have hkey : p.1 = k := RecStore.key_of_get? hk
      simp [← hkey]
  exact RecStore.ext_get? fun k => by rw [hget, hget, h]

theorem lookup_delWhere (s : KVStore K V) (p : K → Bool) (j : K) :
    lookup (s.delWhere p) j = if p j then none else lookup s j := by
  unfold lookup
  rw [RecStore.get?_delWhere]
  split_ifs <;> rfl

theorem lookup_del (s : KVStore K V) (k j : K) :
    lookup (s.del k) j = if j = k then none else lookup s j := by
  unfold lookup
  rw [RecStore.get?_del]
  split_ifs <;> rfl

theorem lookup_of_mem (s : KVStore K V) {e : K × V} (he : e ∈ s.entries) :
    s.lookup e.1 = some e.2 := by
  rw [lookup, (RecStore.mem_entries_iff _ e).mp he]
  rfl

/-- Replace the entry of `k` by `f` of it; `none` is the absent entry on both sides. -/
def update (s : KVStore K V) (k : K) (f : Option V → Option V) : KVStore K V :=
  match f (lookup s k) with
  | some v => assign s k v
  | none => s.del k

theorem lookup_update (s : KVStore K V) (k j : K) (f : Option V → Option V) :
    lookup (update s k f) j = if j = k then f (lookup s k) else lookup s j := by
  unfold update
  cases h : f (lookup s k) with
  | some v => exact lookup_assign s k j v
  | none => exact lookup_del s k j

end KVStore
