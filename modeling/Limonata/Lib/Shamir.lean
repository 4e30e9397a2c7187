import Mathlib

/-!
# Polynomial sharing in a module

A polynomial over a field is shared by its values, and committed to by the multiples of a base
vector with its coefficients. Horner's rule evaluates both forms, in the field and in the module.
The value at zero comes back from the values at enough distinct points, weighted by their Lagrange
coefficients at zero; the same weights recover the multiple of any vector by that value.
-/

namespace Shamir

open Polynomial

section Horner

variable {F V : Type*} [Field F] [AddCommGroup V] [Module F V]

/-- The polynomial with the given coefficients, lowest first. -/
noncomputable def ofCoeffs : List F → F[X]
  | [] => 0
  | a :: as => X * ofCoeffs as + C a

/-- Horner's rule for coefficients in a module, lowest first. -/
def horner (z : F) : List V → V
  | [] => 0
  | c :: cs => z • horner z cs + c

theorem eval_ofCoeffs (z : F) (as : List F) : (ofCoeffs as).eval z = horner z as := by
  induction as with
  | nil => simp [ofCoeffs, horner]
  | cons a as ih => simp [ofCoeffs, horner, ih]

theorem horner_zero (cs : List V) : horner (0 : F) cs = cs.headD 0 := by
  cases cs <;> simp [horner]

theorem degree_ofCoeffs_lt (as : List F) : (ofCoeffs as).degree < as.length := by
  induction as with
  | nil => simp [ofCoeffs]
  | cons a as ih =>
    refine lt_of_le_of_lt (degree_add_le _ _) (max_lt ?_ ?_)
    · rw [degree_mul, degree_X, List.length_cons, Nat.cast_succ, add_comm]
      exact WithBot.add_lt_add_right (by decide) ih
    · have hpos : (0 : WithBot ℕ) < (as.length + 1 : ℕ) := by exact_mod_cast as.length.succ_pos
      exact lt_of_le_of_lt degree_C_le hpos

theorem horner_smul (z : F) (as : List F) (g : V) :
    horner z (as.map (· • g)) = horner z as • g := by
  induction as with
  | nil => simp [horner]
  | cons a as ih => simp [horner, ih, add_smul, mul_smul]

theorem horner_zipWith_add (z : F) : ∀ {v w : List V}, v.length = w.length →
    horner z (List.zipWith (· + ·) v w) = horner z v + horner z w
  | [], [], _ => by simp [horner]
  | c :: v, d :: w, hlen => by
    have ih := horner_zipWith_add z (Nat.succ.inj hlen)
    simp only [List.zipWith_cons_cons, horner, ih, smul_add]
    abel

theorem length_foldl_zipWith_add {n : Nat} {vs : List (List V)} {v : List V} (hv : v.length = n)
    (hvs : ∀ w ∈ vs, w.length = n) : (vs.foldl (List.zipWith (· + ·)) v).length = n := by
  induction vs generalizing v with
  | nil => exact hv
  | cons w vs ih =>
    rw [List.forall_mem_cons] at hvs
    exact ih (by rw [List.length_zipWith, hv, hvs.1, Nat.min_self]) hvs.2

theorem horner_foldl_zipWith_add (z : F) {n : Nat} {vs : List (List V)} {v : List V}
    (hv : v.length = n) (hvs : ∀ w ∈ vs, w.length = n) :
    horner z (vs.foldl (List.zipWith (· + ·)) v) = horner z v + (vs.map (horner z)).sum := by
  induction vs generalizing v with
  | nil => simp
  | cons w vs ih =>
    rw [List.forall_mem_cons] at hvs
    have hlen : (List.zipWith (· + ·) v w).length = n := by
      rw [List.length_zipWith, hv, hvs.1, Nat.min_self]
    rw [List.foldl_cons, ih hlen hvs.2, horner_zipWith_add z (hv.trans hvs.1.symm), List.map_cons,
      List.sum_cons, add_assoc]

end Horner

section Reconstruction

variable {F V : Type*} [Field F] [DecidableEq F] [AddCommGroup V] [Module F V]

/-- The Lagrange coefficient at zero of `x` among the points `xs`. -/
def lagrangeAtZero (xs : List F) (x : F) : F :=
  (xs.filter (· ≠ x)).prod * ((xs.filter (· ≠ x)).map (· - x)).prod⁻¹

theorem lagrangeAtZero_eq_eval_basis {xs : List F} (hnodup : xs.Nodup) (x : F) :
    lagrangeAtZero xs x = (Lagrange.basis xs.toFinset id x).eval 0 := by
  have hothers : xs.toFinset.erase x = (xs.filter (· ≠ x)).toFinset := by
    ext y
    simp [and_comm]
  have hfactor : ∀ y, (Lagrange.basisDivisor x y).eval 0 = y * (y - x)⁻¹ := by
    intro y
    simp only [Lagrange.basisDivisor, eval_mul, eval_C, eval_sub, eval_X, zero_sub]
    rw [← neg_sub y x, inv_neg, neg_mul_neg, mul_comm]
  rw [Lagrange.basis, eval_prod, hothers, List.prod_toFinset _ (hnodup.filter _)]
  simp only [id, hfactor, lagrangeAtZero]
  induction xs.filter (· ≠ x) with
  | nil => simp
  | cons y ys ih =>
    simp only [List.map_cons, List.prod_cons, ← ih, mul_inv]
    ring

theorem reconstruct {xs : List F} (hnodup : xs.Nodup) {p : F[X]} (hdeg : p.degree < xs.length) :
    (xs.map fun x => lagrangeAtZero xs x * p.eval x).sum = p.eval 0 := by
  have hcard : xs.toFinset.card = xs.length := List.toFinset_card_of_nodup hnodup
  have hinterp : p = Lagrange.interpolate xs.toFinset id (fun x => p.eval x) :=
    Lagrange.eq_interpolate_of_eval_eq _ (Set.injOn_id _) (by rw [hcard]; exact hdeg)
      (fun _ _ => rfl)
  conv_rhs => rw [hinterp, Lagrange.interpolate_apply, eval_finsetSum]
  rw [← List.sum_toFinset _ hnodup]
  refine Finset.sum_congr rfl fun x _ => ?_
  rw [lagrangeAtZero_eq_eval_basis hnodup, eval_mul, eval_C, mul_comm]

theorem reconstruct_smul {xs : List F} (hnodup : xs.Nodup) {as : List F}
    (hlen : as.length ≤ xs.length) (a : V) :
    (xs.map fun x => lagrangeAtZero xs x • (horner x as • a)).sum = as.headD 0 • a := by
  have hdeg : (ofCoeffs as).degree < xs.length :=
    lt_of_lt_of_le (degree_ofCoeffs_lt as) (by exact_mod_cast hlen)
  have hsecret := reconstruct hnodup hdeg
  simp only [eval_ofCoeffs, horner_zero] at hsecret
  rw [← hsecret, List.sum_smul, List.map_map]
  simp only [Function.comp_def, mul_smul]

end Reconstruction

end Shamir
