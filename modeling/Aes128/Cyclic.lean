import Mathlib
/-!
# Products of polynomials modulo `x^n - 1`

Modulo `x^n - 1` exponents count modulo `n`, so multiplication by a polynomial is
the circulant matrix of its coefficients.
-/

open Polynomial Matrix

namespace Cyclic

variable {R : Type*} [CommRing R] {n : ℕ}

theorem dvd_monomial_sub (m : ℕ) (v : R) : (X ^ n - 1 : R[X]) ∣ monomial m v - monomial (m % n) v := by
  have hpow : (X ^ m : R[X]) = X ^ (m % n) * (X ^ n) ^ (m / n) := by
    rw [← pow_mul, ← pow_add, Nat.mod_add_div]
  have h : monomial m v - monomial (m % n) v = C v * X ^ (m % n) * ((X ^ n) ^ (m / n) - 1) := by
    rw [← C_mul_X_pow_eq_monomial, ← C_mul_X_pow_eq_monomial, hpow]
    ring
  rw [h]
  exact (sub_one_dvd_pow_sub_one _ _).mul_left _

theorem monic_X_pow_sub_one [NeZero n] : (X ^ n - 1 : R[X]).Monic := by
  rw [← C_1]
  exact monic_X_pow_sub_C 1 (NeZero.ne n)

variable [DecidableEq R]

theorem ofFn_mul (a b : Fin n → R) :
    ofFn n a * ofFn n b = ∑ k, ∑ i, monomial (i.val + k.val) (a i * b k) := by
  rw [ofFn_eq_sum_monomial, ofFn_eq_sum_monomial, Finset.sum_mul_sum, Finset.sum_comm]
  simp only [monomial_mul_monomial]

/-- The product of the matrix, with the terms of `b k` together. -/
theorem ofFn_circulant [NeZero n] (a b : Fin n → R) :
    ofFn n (circulant a *ᵥ b) = ∑ k, ∑ i, monomial (i + k).val (a i * b k) := by
  simp only [ofFn_eq_sum_monomial, mulVec, dotProduct, circulant_apply, map_sum]
  rw [Finset.sum_comm]
  refine Finset.sum_congr rfl fun k _ => ?_
  rw [← Equiv.sum_comp (Equiv.addRight k)]
  simp only [Equiv.coe_addRight, add_sub_cancel_right]

theorem ofFn_mul_modByMonic [NeZero n] (a b : Fin n → R) :
    (ofFn n a * ofFn n b) %ₘ (X ^ n - 1) = ofFn n (circulant a *ᵥ b) := by
  nontriviality R
  have hdvd : (X ^ n - 1 : R[X]) ∣ ofFn n a * ofFn n b - ofFn n (circulant a *ᵥ b) := by
    rw [ofFn_mul, ofFn_circulant, ← Finset.sum_sub_distrib]
    refine Finset.dvd_sum fun k _ => ?_
    rw [← Finset.sum_sub_distrib]
    refine Finset.dvd_sum fun i _ => ?_
    rw [Fin.val_add]
    exact dvd_monomial_sub _ _
  have hdeg : (X ^ n - 1 : R[X]).degree = n := by
    rw [← C_1]
    exact degree_X_pow_sub_C (Nat.pos_of_neZero n) 1
  rw [modByMonic_eq_of_dvd_sub monic_X_pow_sub_one hdvd, modByMonic_eq_self_iff monic_X_pow_sub_one, hdeg]
  exact ofFn_degree_lt _

end Cyclic
