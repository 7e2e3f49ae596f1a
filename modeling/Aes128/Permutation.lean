import Aes128.Stages
/-!
# Every round is a permutation

Each transformation of the standard has an inverse on the left, so the rounds,
and with them `encrypt` under any key, are injective in the block.
-/

namespace Fips197

/-! ## SubBytes -/

theorem invAffine_affine (b : Byte) : Aes128.invAffine (affine b) = b := by
  revert b; decide +kernel

theorem affine_injective : Function.Injective affine := Function.LeftInverse.injective invAffine_affine

/-- A byte is the only one with its inverse. -/
theorem inv_injective : Function.Injective Gf256.inv := by
  intro b c h
  have hz {b : Byte} (hb : b ≠ 0#8) : Gf256.inv b ≠ 0#8 := by
    intro h0
    have hm := Aes128.mul_inv hb
    rw [h0, Gf256.mul_comm, Gf256.zero_mul] at hm
    exact absurd hm (by decide)
  by_cases hb : b = 0#8
  · by_contra hc
    exact hz (fun h0 => hc (hb.trans h0.symm)) (by rw [← h, hb, Gf256.inv_zero])
  · have hc : c ≠ 0#8 := by
      rintro rfl
      exact hz hb (h.trans Gf256.inv_zero)
    calc b = Gf256.mul (Gf256.mul c (Gf256.inv c)) b := by rw [Aes128.mul_inv hc, Gf256.one_mul]
      _ = Gf256.mul c (Gf256.mul b (Gf256.inv b)) := by rw [← h, Gf256.mul_assoc, Gf256.mul_comm (Gf256.inv b)]
      _ = c := by rw [Aes128.mul_inv hb, Gf256.mul_comm, Gf256.one_mul]

theorem sbox_injective : Function.Injective sbox := affine_injective.comp inv_injective

theorem byte_congr {f g : Fin 4 → Fin 4 → Byte} (h : ofBytes f = ofBytes g) (r c : Fin 4) : f r c = g r c := by
  rw [← byte_ofBytes f, h, byte_ofBytes]

theorem subBytes_injective : Function.Injective subBytes := by
  intro s t h
  exact eq_of_byte fun r c => sbox_injective (byte_congr h r c)

/-! ## ShiftRows -/

theorem shiftRows_injective : Function.Injective shiftRows := by
  intro s t h
  refine eq_of_byte fun r c => ?_
  have := byte_congr h r (c - r)
  rwa [sub_add_cancel] at this

/-! ## MixColumns -/

/-- The matrix of section 5.3.3. -/
def invMixMatrix : Fin 4 → Fin 4 → Byte :=
  ![![0xe#8, 0xb#8, 0xd#8, 0x9#8],
    ![0x9#8, 0xe#8, 0xb#8, 0xd#8],
    ![0xd#8, 0x9#8, 0xe#8, 0xb#8],
    ![0xb#8, 0xd#8, 0x9#8, 0xe#8]]

theorem invMixMatrix_mul_mixMatrix : ∀ r c : Fin 4,
    dot (invMixMatrix r) (fun k => mixMatrix k c) = if r = c then 1#8 else 0#8 := by
  decide +kernel

/-- Two matrices in turn are their product. -/
theorem dot_dot (m : Fin 4 → Byte) (n : Fin 4 → Fin 4 → Byte) (v : Fin 4 → Byte) :
    dot m (fun k => dot (n k) v) = dot (fun c => dot m (fun k => n k c)) v := by
  apply Gf256.toField_injective
  simp only [dot, Gf256.toField_xor, Gf256.toField_mul]
  ring

theorem dot_one (v : Fin 4 → Byte) (r : Fin 4) : dot (fun c => if r = c then 1#8 else 0#8) v = v r := by
  fin_cases r <;> simp [dot, Gf256.one_mul, Gf256.zero_mul]

theorem mixColumns_injective : Function.Injective mixColumns := by
  have hinv (s : Block) (r c : Fin 4) :
      dot (invMixMatrix r) (fun k => byte (mixColumns s) k c) = byte s r c := by
    have hb (k : Fin 4) : byte (mixColumns s) k c = dot (mixMatrix k) (fun j => byte s j c) := by
      rw [mixColumns, byte_ofBytes]
    simp only [hb]
    rw [dot_dot]
    simp only [invMixMatrix_mul_mixMatrix, dot_one]
  intro s t h
  refine eq_of_byte fun r c => ?_
  rw [← hinv s, h, hinv]

/-! ## The cipher -/

theorem addRoundKey_injective (k : Block) : Function.Injective fun s => addRoundKey s k := by
  intro s t h
  exact BitVec.xor_left_inj k |>.1 h

theorem round_injective (k : Block) : Function.Injective fun s => round s k :=
  (addRoundKey_injective k).comp (mixColumns_injective.comp (shiftRows_injective.comp subBytes_injective))

theorem finalRound_injective (k : Block) : Function.Injective fun s => finalRound s k :=
  (addRoundKey_injective k).comp (shiftRows_injective.comp subBytes_injective)

theorem afterRounds_injective (rk : ℕ → Block) (r : ℕ) : Function.Injective fun s => afterRounds rk s r := by
  induction r with
  | zero => exact Function.injective_id
  | succ r ih => exact (round_injective _).comp ih

/-- With any round keys. -/
theorem rounds_injective (rk : ℕ → Block) : Function.Injective (rounds rk) := by
  intro s t h
  rw [rounds_eq, rounds_eq] at h
  exact afterRounds_injective rk 9 (finalRound_injective _ h)

theorem rounds_bijective (rk : ℕ → Block) : Function.Bijective (rounds rk) :=
  Finite.injective_iff_bijective.1 (rounds_injective rk)

theorem encrypt_injective (K : Block) : Function.Injective (encrypt K) :=
  (rounds_injective _).comp (addRoundKey_injective _)

end Fips197
