import Mathlib

/-!
# Choosing items within a weight

The 0/1 knapsack over a list of items, decided item by item: the best value within a weight, the items that
reach it, and that no other choice within the weight is worth more.
-/

namespace Knapsack

variable {α : Type*} (w : α → Nat) (v : α → Int)

/-- The best value within the weight `b`. -/
def best : List α → Nat → Int
  | [], _ => 0
  | c :: cs, b => if w c ≤ b ∧ best cs b < best cs (b - w c) + v c then best cs (b - w c) + v c else best cs b

/-- The items that reach it. -/
def chosen : List α → Nat → List α
  | [], _ => []
  | c :: cs, b =>
    if w c ≤ b ∧ best w v cs b < best w v cs (b - w c) + v c then c :: chosen cs (b - w c) else chosen cs b

theorem chosen_sublist (l : List α) (b : Nat) : (chosen w v l b).Sublist l := by
  induction l generalizing b with
  | nil => exact .slnil
  | cons c cs ih =>
    rw [chosen]
    split
    · exact (ih _).cons_cons c
    · exact (ih b).cons c

theorem weight_chosen (l : List α) (b : Nat) : ((chosen w v l b).map w).sum ≤ b := by
  induction l generalizing b with
  | nil => exact Nat.zero_le b
  | cons c cs ih =>
    rw [chosen]
    split
    · have := ih (b - w c)
      rw [List.map_cons, List.sum_cons]
      omega
    · exact ih b

theorem value_chosen (l : List α) (b : Nat) : ((chosen w v l b).map v).sum = best w v l b := by
  induction l generalizing b with
  | nil => rfl
  | cons c cs ih =>
    rw [chosen, best]
    split
    · rw [List.map_cons, List.sum_cons, ih, add_comm]
    · exact ih b

/-- No choice within the weight is worth more. -/
theorem value_le_best {s l : List α} (h : s.Sublist l) {b : Nat} (hb : (s.map w).sum ≤ b) :
    (s.map v).sum ≤ best w v l b := by
  induction h generalizing b with
  | slnil => exact le_rfl
  | cons c _ ih =>
    have := ih hb
    rw [best]
    split <;> omega
  | cons_cons c _ ih =>
    rw [List.map_cons, List.sum_cons] at hb
    have := @ih (b - w c) (by omega)
    rw [best, List.map_cons, List.sum_cons]
    split <;> omega

variable {v} in
theorem best_mem_Icc {l : List α} (hv : ∀ c ∈ l, 0 ≤ v c) (b : Nat) :
    0 ≤ best w v l b ∧ best w v l b ≤ (l.map v).sum := by
  refine ⟨value_le_best w v l.nil_sublist (Nat.zero_le b), ?_⟩
  rw [← value_chosen]
  exact ((chosen_sublist w v l b).map v).sum_le_sum (List.forall_mem_map.mpr hv)

end Knapsack
