import Aes128.Datapath
/-!
# The combinational modules compute the transformations of the standard

Each module of the datapath, on every input, is the FIPS 197 function it is
named after. `sbox.mif` is checked entry by entry: the affine map undone, the
entry at `b` is the inverse of `b` in GF(2^8).
-/

open Fips197

namespace Aes128

/-! ## ShiftRow, MixColumnsAddRoundKey -/

theorem ShiftRow_eq (s : BitVec 128) : ShiftRow s = shiftRows s := rfl

theorem xtime_eq (b : BitVec 8) : MixColumnsAddRoundKey.xtime b = Gf256.double b := by
  revert b; decide +kernel

theorem out_state_eq (s k : BitVec 128) :
    MixColumnsAddRoundKey.out_state s k = addRoundKey (mixColumns s) k := by
  unfold MixColumnsAddRoundKey.out_state addRoundKey
  congr 1
  simp only [mixColumns, dot, mixMatrix, ofBytes, MixColumnsAddRoundKey.mix_state, MixColumnsAddRoundKey.mult3, xtime_eq,
    Matrix.cons_val_zero, Matrix.cons_val_one, Matrix.cons_val, Gf256.one_mul, Gf256.two_mul, Gf256.three_mul]
  rfl

/-! ## sbox.mif and S_box

The table is evaluated once, in `sbox_mif_check`. -/

/-- The inverse of `affine`. -/
def invAffine (b : Byte) : Byte := b.rotateLeft 1 ^^^ b.rotateLeft 3 ^^^ b.rotateLeft 6 ^^^ 0x05#8

theorem sbox_mif_zero : sbox_mif.get (0#8).toFin = affine 0#8 := by decide +kernel

theorem sbox_mif_check : ∀ b : BitVec 8, b = 0#8 ∨
    (Gf256.mul b (invAffine (sbox_mif.get b.toFin)) = 1#8 ∧
      affine (invAffine (sbox_mif.get b.toFin)) = sbox_mif.get b.toFin) := by
  decide +kernel

theorem sbox_mif_eq (b : BitVec 8) : sbox_mif.get b.toFin = sbox b := by
  rcases sbox_mif_check b with rfl | ⟨hm, ha⟩
  · rw [sbox_mif_zero, sbox, Gf256.inv_zero]
  · rw [sbox, Gf256.inv_eq hm, ha]

theorem mul_inv {b : Byte} (hb : b ≠ 0#8) : Gf256.mul b (Gf256.inv b) = 1#8 := by
  rcases sbox_mif_check b with rfl | ⟨hm, -⟩
  · exact absurd rfl hb
  · rw [Gf256.inv_eq hm, hm]

/-- One clock after it was given `addr`, the ROM shows `SubBytes` of it. -/
theorem S_box_value (addr : BitVec 128) : (S_box.posedge addr).value = subBytes addr := by
  simp only [S_box.value, S_box.posedge, ROM_2port.posedge, ROM_2port.q_a, ROM_2port.q_b, sbox_mif_eq]
  rfl

/-! ## The key expansion -/

theorem RotWord_eq (word : BitVec 32) : RotWord word = rotWord word := rfl

theorem rcon_val_eq (r : Fin 10) : RoundKeyExpander.rcon_val (BitVec.ofNat 4 (r + 1)) = rcon (r + 1) := by
  revert r; decide +kernel

theorem lastColumn (s : Block) : s.extractLsb' 0 32 = byte s 0 3 ++ byte s 1 3 ++ byte s 2 3 ++ byte s 3 3 := by
  unfold byte
  repeat rw [BitVec.extractLsb'_append_extractLsb'_eq_extractLsb' (by decide)]
  rfl

/-- The 32-bit word that goes to the S-box is zero-extended, and only its lanes are read. -/
theorem subBytes_word (word : Word) : (subBytes (0#96 ++ word)).extractLsb' 0 32 = subWord word := by
  have hb (k : Nat) (hk : k + 8 ≤ 32) : (0#96 ++ word).extractLsb' k 8 = word.extractLsb' k 8 :=
    BitVec.extractLsb'_append_eq_of_add_le hk
  rw [lastColumn]
  simp only [subBytes, byte_ofBytes]
  rw [show byte (0#96 ++ word) 0 3 = word.extractLsb' 24 8 from hb 24 (by decide),
    show byte (0#96 ++ word) 1 3 = word.extractLsb' 16 8 from hb 16 (by decide),
    show byte (0#96 ++ word) 2 3 = word.extractLsb' 8 8 from hb 8 (by decide),
    show byte (0#96 ++ word) 3 3 = word.extractLsb' 0 8 from hb 0 (by decide)]
  rfl

theorem roundKey_words (key : Block) (r : Nat) :
    (roundKey key r).extractLsb 127 96 = w key (4 * r) ∧ (roundKey key r).extractLsb 95 64 = w key (4 * r + 1) ∧
      (roundKey key r).extractLsb 63 32 = w key (4 * r + 2) ∧ (roundKey key r).extractLsb 31 0 = w key (4 * r + 3) := by
  unfold roundKey BitVec.extractLsb
  refine ⟨?_, ?_, ?_, ?_⟩
  · repeat rw [BitVec.extractLsb'_append_eq_of_le (by decide)]
    exact BitVec.extractLsb'_eq_self
  · repeat rw [BitVec.extractLsb'_append_eq_of_le (by decide)]
    rw [BitVec.extractLsb'_append_eq_of_add_le (by decide)]
    exact BitVec.extractLsb'_eq_self
  · repeat rw [BitVec.extractLsb'_append_eq_of_le (by decide)]
    rw [BitVec.extractLsb'_append_eq_of_add_le (by decide)]
    exact BitVec.extractLsb'_eq_self
  · rw [BitVec.extractLsb'_append_eq_of_add_le (by decide)]
    exact BitVec.extractLsb'_eq_self

/-- With the substituted word on the S-box lanes, the expander gives the next round key. -/
theorem new_round_key_eq (key : Block) (r : Fin 10) (d : BitVec 128)
    (hd : d.extractLsb 31 0 = subWord (rotWord (w key (4 * r + 3)))) :
    RoundKeyExpander.new_round_key true (roundKey key r) (BitVec.ofNat 4 (r + 1)) d = roundKey key (r + 1) := by
  obtain ⟨h0, h1, h2, h3⟩ := roundKey_words key r
  obtain ⟨n0, n1, n2, n3⟩ := w_next key r
  rw [← rcon_val_eq] at n0
  simp only [RoundKeyExpander.new_round_key, h0, h1, h2, h3, hd, if_true]
  rw [BitVec.xor_assoc, ← n0, ← n1, ← n2, ← n3]
  rfl
end Aes128
