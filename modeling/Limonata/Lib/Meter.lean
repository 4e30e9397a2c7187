import Limonata.Lib.RecStore

/-!
# Amounts in a store, and meters

A store of amounts reads an absent key as zero. `totalOn` sums it over some keys, `total` over all.

A meter is a store of amounts that counts what was charged under each key, with a set of amounts that
a key may be charged. The charges themselves are a log. `Metered` ties the two: the store covers the
log, so a charge that the store has room for keeps the log within what is allowed.
-/

namespace KVStore

variable {K : Type} [LinearOrder K]

/-! ## Amounts -/

/-- The amount under a key, zero if there is none. -/
def amount (s : KVStore K Nat) (k : K) : Nat := (s.lookup k).getD 0

/-- Write an amount; zero is the absent key. -/
def setAmount (s : KVStore K Nat) (k : K) (v : Nat) : KVStore K Nat :=
  if v = 0 then s.del k else s.assign k v

/-- The sum of the amounts under some keys. -/
def totalOn (P : K → Prop) [DecidablePred P] (s : KVStore K Nat) : Nat :=
  (s.entries.map fun e => if P e.1 then e.2 else 0).sum

/-- The sum of all amounts. -/
def total (s : KVStore K Nat) : Nat := totalOn (fun _ => True) s

@[simp] theorem amount_empty (k : K) : amount (RecStore.empty : KVStore K Nat) k = 0 := rfl

@[simp] theorem total_empty : total (RecStore.empty : KVStore K Nat) = 0 := rfl

theorem amount_assign (s : KVStore K Nat) (k j : K) (v : Nat) :
    amount (assign s k v) j = if j = k then v else amount s j := by
  unfold amount
  rw [lookup_assign]
  split_ifs <;> rfl

theorem amount_setAmount (s : KVStore K Nat) (k j : K) (v : Nat) :
    amount (setAmount s k v) j = if j = k then v else amount s j := by
  unfold setAmount
  split_ifs with hv hj hj
  · subst hv
    rw [amount, lookup_del, if_pos hj, Option.getD_none]
  · rw [amount, lookup_del, if_neg hj, amount]
  · rw [amount_assign, if_pos hj]
  · rw [amount_assign, if_neg hj]

section Total

variable (P : K → Prop) [DecidablePred P] (s : KVStore K Nat)

theorem totalOn_del (k : K) :
    totalOn P (s.del k) + (if P k then amount s k else 0) = totalOn P s := by
  unfold amount lookup
  cases hget : s.get? k with
  | none => simp [RecStore.del_of_get?_none hget]
  | some e =>
    have hkey : e.1 = k := RecStore.key_of_get? hget
    have hsum := ((RecStore.del_perm hget).map fun e => if P e.1 then e.2 else 0).sum_eq
    rw [List.map_cons, List.sum_cons, hkey] at hsum
    simp only [totalOn, Option.map_some, Option.getD_some]
    omega

theorem totalOn_assign (k : K) (v : Nat) :
    totalOn P (assign s k v) + (if P k then amount s k else 0)
      = totalOn P s + if P k then v else 0 := by
  have hput := ((s.put_perm (k, v)).map fun e => if P e.1 then e.2 else 0).sum_eq
  rw [List.map_cons, List.sum_cons] at hput
  have hdel := totalOn_del P s k
  simp only [totalOn, assign] at hput hdel ⊢
  omega

theorem totalOn_setAmount (k : K) (v : Nat) :
    totalOn P (setAmount s k v) + (if P k then amount s k else 0)
      = totalOn P s + if P k then v else 0 := by
  unfold setAmount
  by_cases hv : v = 0
  · rw [if_pos hv, totalOn_del, hv, ite_self, Nat.add_zero]
  · rw [if_neg hv]
    exact totalOn_assign P s k v

theorem total_setAmount (k : K) (v : Nat) : total (setAmount s k v) + amount s k = total s + v := by
  simpa [total] using totalOn_setAmount (fun _ => True) s k v

variable {P}

theorem amount_le_totalOn {k : K} (hk : P k) : amount s k ≤ totalOn P s := by
  have hdel := totalOn_del P s k
  rw [if_pos hk] at hdel
  omega

theorem amount_le_total (k : K) : amount s k ≤ total s := amount_le_totalOn s trivial

theorem totalOn_eq_amount {k : K} (hk : P k) (hzero : ∀ j, P j → j ≠ k → amount s j = 0) :
    totalOn P s = amount s k := by
  have hdel := totalOn_del P s k
  rw [if_pos hk] at hdel
  have hrest : totalOn P (s.del k) = 0 := by
    refine List.sum_eq_zero fun x hx => ?_
    obtain ⟨e, he, rfl⟩ := List.mem_map.mp hx
    obtain ⟨hmem, hne⟩ := (s.mem_del_iff k e).mp he
    split_ifs with hP
    · have hamount := hzero e.1 hP hne
      rwa [amount, lookup_of_mem s hmem, Option.getD_some] at hamount
    · rfl
  omega

end Total

end KVStore

/-! ## Limits -/

/-- Within a limit that is in force only if it is present and positive. -/
def WithinLimit (limit : Option Int) (n : Nat) : Prop := ∀ c ∈ limit, 0 < c → (n : Int) ≤ c

instance (limit : Option Int) (n : Nat) : Decidable (WithinLimit limit n) :=
  match limit with
  | none => .isTrue nofun
  | some c => decidable_of_iff (0 < c → (n : Int) ≤ c)
      ⟨fun h _ hc => Option.mem_some.mp hc ▸ h, fun h => h c rfl⟩

theorem WithinLimit.mono {limit : Option Int} {m n : Nat} (h : WithinLimit limit n) (hle : m ≤ n) :
    WithinLimit limit m := fun c hc hpos => (Int.ofNat_le.mpr hle).trans (h c hc hpos)

theorem withinLimit_zero (limit : Option Int) : WithinLimit limit 0 := fun _ _ hpos => le_of_lt hpos

/-- The amounts within a limit. -/
def limitSet (limit : Option Int) : LowerSet Nat where
  carrier := {n | WithinLimit limit n}
  lower' := fun _ _ hle h => WithinLimit.mono h hle

@[simp] theorem mem_limitSet {limit : Option Int} {n : Nat} :
    n ∈ limitSet limit ↔ WithinLimit limit n := Iff.rfl

/-! ## Meters -/

section Meter

variable {K : Type} [LinearOrder K]

/-- What a log of charges says was charged under a key. -/
def charged (log : List (K × Nat)) (k : K) : Nat :=
  ((log.filter fun e => e.1 = k).map Prod.snd).sum

@[simp] theorem charged_nil (k : K) : charged ([] : List (K × Nat)) k = 0 := rfl

theorem charged_append (log log' : List (K × Nat)) (k : K) :
    charged (log ++ log') k = charged log k + charged log' k := by
  simp [charged]

theorem charged_singleton (e : K × Nat) (k : K) :
    charged [e] k = if e.1 = k then e.2 else 0 := by
  by_cases h : e.1 = k <;> simp [charged, h]

/-- The store covers what the log charges, and the log charges what is allowed. -/
structure Metered (allowed : LowerSet Nat) (store : KVStore K Nat) (log : List (K × Nat)) :
    Prop where
  covered : ∀ k, charged log k ≤ store.amount k
  within : ∀ k, charged log k ∈ allowed

theorem Metered.nil {allowed : LowerSet Nat} (h : 0 ∈ allowed) (store : KVStore K Nat) :
    Metered allowed store ([] : List (K × Nat)) :=
  ⟨fun _ => Nat.zero_le _, fun _ => h⟩

/-- **Charging rule.** A charge the store has room for keeps the log within what is allowed. -/
theorem Metered.charge {allowed : LowerSet Nat} {store : KVStore K Nat} {log : List (K × Nat)}
    (h : Metered allowed store log) {k : K} {n : Nat} (hroom : store.amount k + n ∈ allowed) :
    Metered allowed (store.assign k (store.amount k + n)) (log ++ [(k, n)]) := by
  have hlog : ∀ j, charged (log ++ [(k, n)]) j = charged log j + if k = j then n else 0 := fun j => by
    rw [charged_append, charged_singleton]
  refine ⟨fun j => ?_, fun j => ?_⟩
  · rw [hlog, KVStore.amount_assign]
    have hcov := h.covered j
    by_cases hj : j = k
    · subst hj
      simpa using hcov
    · simpa [hj, Ne.symm hj] using hcov
  · rw [hlog]
    by_cases hj : k = j
    · subst hj
      rw [if_pos rfl]
      exact allowed.lower (Nat.add_le_add_right (h.covered k) n) hroom
    · rw [if_neg hj]
      exact h.within j

/-! ### Logs kept of a run of events -/

variable {E : Type} {f : E → Option (K × Nat)} {events : List E} {allowed : LowerSet Nat}
  {store : KVStore K Nat}

theorem Metered.append (h : Metered allowed store (events.filterMap f)) {ev : List E}
    (hev : ev.filterMap f = []) : Metered allowed store ((events ++ ev).filterMap f) := by
  rwa [List.filterMap_append, hev, List.append_nil]

theorem Metered.logged (h : Metered allowed store (events.filterMap f)) {ev : E} {k : K} {n : Nat}
    (hev : f ev = some (k, n)) (hroom : store.amount k + n ∈ allowed) :
    Metered allowed (store.assign k (store.amount k + n)) ((events ++ [ev]).filterMap f) := by
  have hlog : [ev].filterMap f = [(k, n)] := by simp [hev]
  rw [List.filterMap_append, hlog]
  exact h.charge hroom

end Meter
