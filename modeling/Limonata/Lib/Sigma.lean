import Mathlib

/-!
# Sigma protocols for discrete logarithms

The algebra of Schnorr and Chaum-Pedersen proofs in a vector space over the field of the scalars: with the
commitment `k • P` and the response `k + c * x` the verifier gets the commitment back, and two responses to
different challenges under one commitment give the logarithm away.
-/

namespace Sigma

variable {F M : Type*} [Field F] [AddCommGroup M] [Module F M]

/-- **Completeness.** The verifier reconstructs the commitment. -/
theorem reconstruct (k c x : F) (P : M) : (k + c * x) • P + -c • x • P = k • P := by
  rw [add_smul, mul_smul, neg_smul, add_neg_cancel_right]

/-- The scalar that two responses to different challenges give away. -/
def extract (c z c' z' : F) : F := (z - z') / (c - c')

/-- **Special soundness.** Equal commitments with different challenges have one logarithm. -/
theorem eq_extract_smul {c z c' z' : F} {P Q : M} (h : z • P + -c • Q = z' • P + -c' • Q) (hc : c ≠ c') :
    Q = extract c z c' z' • P := by
  have hsub : c - c' ≠ 0 := sub_ne_zero.mpr hc
  have hscaled : (z - z') • P = (c - c') • Q := by
    rw [sub_smul, sub_smul, sub_eq_sub_iff_add_eq_add]
    rw [neg_smul, neg_smul, ← sub_eq_add_neg, ← sub_eq_add_neg, sub_eq_sub_iff_add_eq_add] at h
    rw [h, add_comm]
  rw [extract, div_eq_inv_mul, mul_smul, hscaled, smul_smul, inv_mul_cancel₀ hsub, one_smul]

end Sigma
