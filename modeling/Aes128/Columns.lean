import Aes128.Cyclic
import Aes128.Stages
/-!
# MixColumns as a product of polynomials

Section 4.3 of the standard: a column is a polynomial over GF(2^8), and it is
multiplied by a fixed polynomial modulo `x^4 + 1`. `MixColumnsAddRoundKey` does
that to every column, and adds the round key.
-/

open Polynomial

namespace Fips197

/-- The field of the bytes. -/
abbrev GF256 := AdjoinRoot (Gf256.toPoly Gf256.modulus)

open scoped Classical in
/-- Column `c` of the state. The first byte is the constant coefficient. -/
noncomputable def columnPoly (s : Block) (c : Fin 4) : GF256[X] := ofFn 4 fun r => Gf256.toField (byte s r c)

/-- `{03}x^3 + {01}x^2 + {01}x + {02}`. -/
noncomputable def mixPoly : GF256[X] :=
  C (Gf256.toField 0x03#8) * X ^ 3 + C (Gf256.toField 0x01#8) * X ^ 2 + C (Gf256.toField 0x01#8) * X +
    C (Gf256.toField 0x02#8)

/-- The coefficients of `mixPoly`, the constant one first. -/
def mixCoeff : Fin 4 → Byte := ![0x02#8, 0x01#8, 0x01#8, 0x03#8]

open scoped Classical in
theorem mixPoly_eq : mixPoly = ofFn 4 fun r => Gf256.toField (mixCoeff r) := by
  rw [ofFn_eq_sum_monomial, Fin.sum_univ_four]
  simp only [← C_mul_X_pow_eq_monomial]
  change mixPoly = C (Gf256.toField 0x02#8) * X ^ 0 + C (Gf256.toField 0x01#8) * X ^ 1 +
    C (Gf256.toField 0x01#8) * X ^ 2 + C (Gf256.toField 0x03#8) * X ^ 3
  rw [mixPoly]
  ring

/-- The matrix of section 5.1.3 is that of the product. -/
theorem mixMatrix_eq : ∀ r k : Fin 4, mixMatrix r k = mixCoeff (r - k) := by
  decide

theorem toField_dot (m v : Fin 4 → Byte) :
    Gf256.toField (dot m v) = ∑ k, Gf256.toField (m k) * Gf256.toField (v k) := by
  simp only [dot, Gf256.toField_xor, Gf256.toField_mul, Fin.sum_univ_four]

theorem X_pow_add_one (n : ℕ) : (X ^ n + 1 : GF256[X]) = X ^ n - 1 :=
  (ZModModule.sub_eq_add _ _).symm

theorem columnPoly_mixColumns (s : Block) (c : Fin 4) :
    columnPoly (mixColumns s) c = (mixPoly * columnPoly s c) %ₘ (X ^ 4 + 1) := by
  classical
  rw [mixPoly_eq, X_pow_add_one, columnPoly, columnPoly, Cyclic.ofFn_mul_modByMonic]
  refine congrArg (ofFn 4) (funext fun r => ?_)
  simp only [mixColumns, byte_ofBytes, toField_dot, mixMatrix_eq]
  rfl

theorem columnPoly_injective {s t : Block} (h : ∀ c, columnPoly s c = columnPoly t c) : s = t := by
  apply eq_of_byte
  intro r c
  exact Gf256.toField_injective (congrFun (injective_ofFn 4 (h c)) r)

end Fips197

open Fips197

namespace Aes128

/-- On every state and round key, `out_state` is the round key added to the state whose columns are the
products, and there is one such state. -/
theorem out_state_product (in_state roundKey : BitVec 128) :
    (∃! M : Block, ∀ c, columnPoly M c = (mixPoly * columnPoly in_state c) %ₘ (X ^ 4 + 1)) ∧
    ∀ M : Block, (∀ c, columnPoly M c = (mixPoly * columnPoly in_state c) %ₘ (X ^ 4 + 1)) →
      MixColumnsAddRoundKey.out_state in_state roundKey = roundKey ^^^ M := by
  have hunique (M : Block) (hM : ∀ c, columnPoly M c = (mixPoly * columnPoly in_state c) %ₘ (X ^ 4 + 1)) :
      M = mixColumns in_state :=
    columnPoly_injective fun c => by rw [hM, columnPoly_mixColumns]
  constructor
  · exact ⟨mixColumns in_state, columnPoly_mixColumns in_state, hunique⟩
  · intro M hM
    rw [out_state_eq, hunique M hM, addRoundKey, BitVec.xor_comm]

end Aes128
