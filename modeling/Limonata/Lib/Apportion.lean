import Mathlib

/-!
# Largest-remainder apportionment

`S` indivisible seats are split over a list of claimants in proportion to their weights. Every
claimant first gets the floor of its exact quota; the seats the floors leave over go, one each,
to the claimants with the largest remainders. Everything here is over an arbitrary claimant type
and an arbitrary order of the claimants that is descending in the remainder, so a tie-break rule
is free to be anything.

* `sum_alloc`: no seat is lost, none is created;
* `leftover_lt_length`: fewer seats are left over than there are claimants;
* `rem_pos_of_winner`: a left-over seat goes to a claimant with a positive remainder, so a
  claimant of weight zero gets none;
* `alloc_eq_quota_or`: a claimant gets the floor of its quota, or its ceiling;
* `alloc_mono`: more weight gets at least as many seats;
* `coalition_alloc_lt`: a coalition's seats exceed its floored quota by fewer than the number of
  claimants.
-/

namespace Apportion

variable {α : Type}
variable {wt : α → Nat} {xs order : List α} {S W : Nat}

/-- The floor of the exact quota of weight `w` in `S` seats of total weight `W`. -/
def quota (S W w : Nat) : Nat := w * S / W

/-- The remainder of the exact quota, scaled by `W`. -/
def remainder (S W w : Nat) : Nat := w * S % W

/-- The total weight of a list of claimants. -/
def total (wt : α → Nat) (xs : List α) : Nat := (xs.map wt).sum

/-- The seats the floors leave over. -/
def leftover (S W : Nat) (wt : α → Nat) (xs : List α) : Nat :=
  S - (xs.map (fun a => quota S W (wt a))).sum

/-! ## Floors and remainders -/

theorem sum_quota_add_sum_remainder (S W : Nat) (wt : α → Nat) (xs : List α) :
    W * (xs.map (fun a => quota S W (wt a))).sum
      + (xs.map (fun a => remainder S W (wt a))).sum = total wt xs * S := by
  unfold total
  induction xs with
  | nil => simp
  | cons a xs ih =>
    have hdiv : W * quota S W (wt a) + remainder S W (wt a) = wt a * S := Nat.div_add_mod _ _
    simp only [List.map_cons, List.sum_cons, Nat.mul_add, Nat.add_mul]
    omega

/-- The floors never hand out more than `S` seats. -/
theorem sum_quota_le (hW : total wt xs = W) (hpos : 0 < W) :
    (xs.map (fun a => quota S W (wt a))).sum ≤ S := by
  have hsum := sum_quota_add_sum_remainder S W wt xs
  rw [hW] at hsum
  exact Nat.le_of_mul_le_mul_left (by omega) hpos

theorem mul_leftover (hW : total wt xs = W) (hpos : 0 < W) :
    W * leftover S W wt xs = (xs.map (fun a => remainder S W (wt a))).sum := by
  have hsum := sum_quota_add_sum_remainder S W wt xs
  have hle := sum_quota_le (S := S) hW hpos
  rw [hW] at hsum
  unfold leftover
  rw [Nat.mul_sub]
  omega

/-- Remainders are below `W`, so their sum is at most `W - 1` per claimant with a positive one. -/
theorem sum_remainder_le (S : Nat) (wt : α → Nat) (xs : List α) (hpos : 0 < W) :
    (xs.map (fun a => remainder S W (wt a))).sum
      ≤ xs.countP (fun a => 0 < remainder S W (wt a)) * (W - 1) := by
  induction xs with
  | nil => simp
  | cons a xs ih =>
    have hlt : remainder S W (wt a) < W := Nat.mod_lt _ hpos
    rw [List.map_cons, List.sum_cons, List.countP_cons]
    by_cases hr : 0 < remainder S W (wt a)
    · simp only [hr, decide_true, if_true, Nat.add_mul, Nat.one_mul]
      omega
    · rw [if_neg (by simpa using hr), Nat.add_zero]
      omega

/-- Either nothing is left over, or fewer seats are left over than claimants have a positive
remainder. -/
theorem leftover_eq_zero_or_lt (hW : total wt xs = W) (hpos : 0 < W) :
    leftover S W wt xs = 0
      ∨ leftover S W wt xs < xs.countP (fun a => 0 < remainder S W (wt a)) := by
  have hmul := mul_leftover (S := S) hW hpos
  have hle := sum_remainder_le S wt xs hpos
  rw [← hmul] at hle
  set P := xs.countP (fun a => 0 < remainder S W (wt a)) with hP
  rcases Nat.eq_zero_or_pos P with hP0 | hPpos
  · left
    rw [hP0, Nat.zero_mul] at hle
    rcases Nat.mul_eq_zero.mp (Nat.le_zero.mp hle) with h | h
    · omega
    · exact h
  · right
    -- `W * leftover ≤ P * (W - 1) < P * W`
    have hlt : W * leftover S W wt xs < W * P := by
      calc W * leftover S W wt xs ≤ P * (W - 1) := hle
        _ < P * W := Nat.mul_lt_mul_of_pos_left (by omega) hPpos
        _ = W * P := Nat.mul_comm _ _
    exact Nat.lt_of_mul_lt_mul_left hlt

theorem leftover_lt_length (hW : total wt xs = W) (hpos : 0 < W) :
    leftover S W wt xs < xs.length := by
  have hlen : 0 < xs.length := by
    cases xs with
    | nil => simp [total] at hW; omega
    | cons _ _ => simp
  rcases leftover_eq_zero_or_lt (S := S) hW hpos with h | h
  · omega
  · exact h.trans_le List.countP_le_length

theorem coalition_quota_le {k m : Nat} {C : List α} (hpos : 0 < W) (hm : 0 < m)
    (hC : m * total wt C ≤ k * W) :
    (C.map (fun a => quota S W (wt a))).sum ≤ k * S / m := by
  have hfloor : W * (C.map (fun a => quota S W (wt a))).sum ≤ total wt C * S := by
    unfold total
    induction C with
    | nil => simp
    | cons a C ih =>
      have hdiv : W * quota S W (wt a) ≤ wt a * S := Nat.mul_div_le _ _
      simp only [List.map_cons, List.sum_cons, Nat.mul_add, Nat.add_mul]
      have hC' : m * total wt C ≤ k * W := by
        unfold total at hC ⊢
        rw [List.map_cons, List.sum_cons, Nat.mul_add] at hC
        omega
      have := ih hC'
      omega
  rw [Nat.le_div_iff_mul_le hm]
  set q := (C.map (fun a => quota S W (wt a))).sum with hq
  have hscaled : W * (q * m) ≤ W * (k * S) := by
    calc W * (q * m) = m * (W * q) := by ring
      _ ≤ m * (total wt C * S) := Nat.mul_le_mul_left _ hfloor
      _ = m * total wt C * S := by ring
      _ ≤ k * W * S := Nat.mul_le_mul_right _ hC
      _ = W * (k * S) := by ring
  exact Nat.le_of_mul_le_mul_left hscaled hpos

/-! ## The left-over seats -/

/-- A claimant among the first `leftover` of a remainder-descending order has a positive
remainder. -/
theorem rem_pos_of_winner (hW : total wt xs = W) (hpos : 0 < W) (hperm : order.Perm xs)
    (hdesc : order.Pairwise (fun a b => remainder S W (wt b) ≤ remainder S W (wt a))) {a : α}
    (ha : a ∈ order.take (leftover S W wt xs)) : 0 < remainder S W (wt a) := by
  by_contra hzero
  set R := leftover S W wt xs with hR
  rcases leftover_eq_zero_or_lt (S := S) hW hpos with h | hlt
  · rw [← hR] at h
    simp [h] at ha
  -- everything after `a` has remainder zero, so the positive ones all lie before it
  have hdrop : ∀ b ∈ order.drop R, ¬ 0 < remainder S W (wt b) := by
    intro b hb
    rw [← List.take_append_drop R order, List.pairwise_append] at hdesc
    have := hdesc.2.2 a ha b hb
    omega
  have hcount : xs.countP (fun a => 0 < remainder S W (wt a))
      = (order.take R).countP (fun a => 0 < remainder S W (wt a)) := by
    rw [← hperm.countP_eq]
    conv_lhs => rw [← List.take_append_drop R order]
    have htail : (order.drop R).countP (fun a => 0 < remainder S W (wt a)) = 0 :=
      List.countP_eq_zero.mpr (by simpa using hdrop)
    rw [List.countP_append, htail, Nat.add_zero]
  have hle := List.countP_le_length (p := fun a => decide (0 < remainder S W (wt a)))
    (l := order.take R)
  rw [← hcount, List.length_take] at hle
  omega

theorem sum_map_add (xs : List α) (f g : α → Nat) :
    (xs.map (fun a => f a + g a)).sum = (xs.map f).sum + (xs.map g).sum := by
  induction xs with
  | nil => simp
  | cons a xs ih =>
    simp only [List.map_cons, List.sum_cons]
    omega

variable [DecidableEq α]

/-- The seats of `a`, given the claimants that receive a left-over seat. -/
def alloc (S W : Nat) (wt : α → Nat) (winners : List α) (a : α) : Nat :=
  quota S W (wt a) + if a ∈ winners then 1 else 0

theorem sum_indicator (xs ys : List α) :
    (xs.map (fun a => if a ∈ ys then 1 else 0)).sum = xs.countP (fun a => a ∈ ys) := by
  induction xs with
  | nil => simp
  | cons a xs ih =>
    rw [List.map_cons, List.sum_cons, List.countP_cons, ih]
    by_cases h : a ∈ ys <;> simp [h]
    omega

theorem countP_mem_take (hperm : order.Perm xs) (hnd : xs.Nodup) {n : Nat} (hn : n ≤ xs.length) :
    xs.countP (fun a => a ∈ order.take n) = n := by
  have hndo : (order.take n ++ order.drop n).Nodup := by
    rw [List.take_append_drop]; exact hperm.nodup_iff.mpr hnd
  have hdisj := (List.nodup_append.mp hndo).2.2
  rw [← hperm.countP_eq]
  conv_lhs => rw [← List.take_append_drop n order]
  rw [List.countP_append, List.countP_eq_length.mpr (by simp), List.countP_eq_zero.mpr,
    List.length_take, hperm.length_eq]
  · omega
  · intro b hb hmem
    exact hdisj b (by simpa using hmem) b hb rfl

/-- **No seat is lost or created.** -/
theorem sum_alloc (hW : total wt xs = W) (hpos : 0 < W) (hperm : order.Perm xs) (hnd : xs.Nodup) :
    (xs.map (alloc S W wt (order.take (leftover S W wt xs)))).sum = S := by
  have hle := sum_quota_le (S := S) hW hpos
  have hlt := leftover_lt_length (S := S) hW hpos
  unfold alloc
  rw [sum_map_add, sum_indicator, countP_mem_take hperm hnd hlt.le]
  unfold leftover
  omega

/-- **Quota.** A claimant gets the floor of its quota, or one more if the quota is not whole. -/
theorem alloc_eq_quota_or (hW : total wt xs = W) (hpos : 0 < W) (hperm : order.Perm xs)
    (hdesc : order.Pairwise (fun a b => remainder S W (wt b) ≤ remainder S W (wt a))) (a : α) :
    alloc S W wt (order.take (leftover S W wt xs)) a = quota S W (wt a)
      ∨ (0 < remainder S W (wt a)
        ∧ alloc S W wt (order.take (leftover S W wt xs)) a = quota S W (wt a) + 1) := by
  unfold alloc
  split_ifs with hwin
  · exact .inr ⟨rem_pos_of_winner hW hpos hperm hdesc hwin, rfl⟩
  · exact .inl rfl

/-- **Monotonicity.** With an equal floor the larger weight has the larger remainder, and comes first. -/
theorem alloc_mono (hS : 0 < S)
    (hdesc : order.Pairwise (fun a b => remainder S W (wt b) ≤ remainder S W (wt a))) {a b : α}
    (ha : a ∈ order) (hlt : wt b < wt a) (n : Nat) :
    alloc S W wt (order.take n) b ≤ alloc S W wt (order.take n) a := by
  have hmul : wt b * S < wt a * S := Nat.mul_lt_mul_of_pos_right hlt hS
  have hquota : quota S W (wt b) ≤ quota S W (wt a) := Nat.div_le_div_right hmul.le
  have hdiva : W * quota S W (wt a) + remainder S W (wt a) = wt a * S := Nat.div_add_mod _ _
  have hdivb : W * quota S W (wt b) + remainder S W (wt b) = wt b * S := Nat.div_add_mod _ _
  unfold alloc
  split_ifs with hb hwin
  · omega
  · have hdrop : a ∈ order.drop n := by
      rw [← List.take_append_drop n order] at ha
      exact (List.mem_append.mp ha).resolve_left hwin
    rw [← List.take_append_drop n order, List.pairwise_append] at hdesc
    have hrem := hdesc.2.2 b hb a hdrop
    have hne : quota S W (wt b) ≠ quota S W (wt a) := by
      intro heq
      rw [heq] at hdivb
      omega
    omega
  · omega
  · omega

/-! ## Coalitions -/

/-- **Coalition bound.** A coalition of at most `k / m` of the weight gets fewer than
`k * S / m` plus the number of claimants seats. -/
theorem coalition_alloc_lt {k m : Nat} {C : List α} (hW : total wt xs = W) (hpos : 0 < W)
    (hperm : order.Perm xs) (hnd : xs.Nodup) (hsub : C.Sublist xs) (hm : 0 < m)
    (hC : m * total wt C ≤ k * W) :
    (C.map (alloc S W wt (order.take (leftover S W wt xs)))).sum < k * S / m + xs.length := by
  have hquota := coalition_quota_le (S := S) hpos hm hC
  have hlt := leftover_lt_length (S := S) hW hpos
  have hbonus : C.countP (fun a => a ∈ order.take (leftover S W wt xs))
      ≤ leftover S W wt xs := by
    calc C.countP (fun a => a ∈ order.take (leftover S W wt xs))
        ≤ xs.countP (fun a => a ∈ order.take (leftover S W wt xs)) := hsub.countP_le
      _ = leftover S W wt xs := countP_mem_take hperm hnd hlt.le
  unfold alloc
  rw [sum_map_add, sum_indicator]
  omega

end Apportion
