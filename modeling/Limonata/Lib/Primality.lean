import Mathlib

/-!
# Primality of large numbers by Lucas's test

A generator of the units modulo `p` of order `p - 1` shows that `p` is prime. The test runs on the
powers `powMod` computes by repeated squaring, so the kernel evaluates it on numbers of hundreds of
bits; the prime factors of `p - 1` are shown prime first.
-/

namespace Primality

/-- The power of `base` modulo `m`, over the lowest `bits` bits of the exponent. -/
def powMod (m : Nat) : Nat → Nat → Nat → Nat
  | 0, _, _ => 1 % m
  | bits + 1, base, e =>
    let rest := powMod m bits (base * base % m) (e / 2)
    if e % 2 = 1 then base * rest % m else rest

theorem powMod_eq (m : Nat) {bits : Nat} : ∀ {base e : Nat}, e < 2 ^ bits →
    powMod m bits base e = base ^ e % m := by
  induction bits with
  | zero =>
    intro base e he
    obtain rfl : e = 0 := by omega
    rw [powMod, pow_zero]
  | succ bits ih =>
    intro base e he
    have hrest : powMod m bits (base * base % m) (e / 2) = (base ^ 2) ^ (e / 2) % m := by
      rw [ih (by omega), ← Nat.pow_mod, sq]
    simp only [powMod, hrest]
    have hsplit : e = 2 * (e / 2) + e % 2 := (Nat.div_add_mod e 2).symm
    split_ifs with hodd
    · rw [hodd] at hsplit
      conv_rhs => rw [hsplit, pow_succ, pow_mul, mul_comm]
      rw [Nat.mul_mod_mod]
    · conv_rhs => rw [hsplit, show e % 2 = 0 by omega, add_zero, pow_mul]

theorem cast_pow_eq_one_iff {p : Nat} (hp : 1 < p) {bits a e : Nat} (he : e < 2 ^ bits) :
    (a : ZMod p) ^ e = 1 ↔ powMod p bits a e = 1 := by
  rw [powMod_eq p he, ← Nat.cast_pow, ← Nat.cast_one, ZMod.natCast_eq_natCast_iff',
    Nat.mod_eq_of_lt hp]

theorem prime_of_generator (bits : Nat) {p : Nat} (a : Nat) (factors : List Nat)
    (hprime : ∀ q ∈ factors, q.Prime) (hsize : 1 < p ∧ p < 2 ^ bits)
    (hprod : factors.prod = p - 1) (hone : powMod p bits a (p - 1) = 1)
    (hne : ∀ q ∈ factors, powMod p bits a ((p - 1) / q) ≠ 1) : p.Prime := by
  have hlt : ∀ e, e ≤ p - 1 → e < 2 ^ bits := by
    intro e he
    omega
  apply lucas_primality p (a : ZMod p)
  · exact (cast_pow_eq_one_iff hsize.1 (hlt _ le_rfl)).mpr hone
  · intro q hq hdvd hpow
    -- a prime divisor of the product is one of its prime factors
    rw [← hprod] at hdvd
    obtain ⟨r, hr, hqr⟩ := hq.prime.dvd_prod_iff.mp hdvd
    obtain rfl := (Nat.prime_dvd_prime_iff_eq hq (hprime r hr)).mp hqr
    exact hne q hr ((cast_pow_eq_one_iff hsize.1 (hlt _ (Nat.div_le_self _ _))).mp hpow)

end Primality
