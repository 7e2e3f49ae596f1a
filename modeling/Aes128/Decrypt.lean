import Aes128.Permutation
import Aes128.Soundness
/-!
# The way back

The inverse cipher of the standard (section 5.3), and that it undoes the cipher with
any round keys. So whoever has the keys that were in the registers when the core
was started gets the block back from the ciphertext, whatever the inputs did: the
whitening key of InputInterface, and the ten key registers from the first on.
-/

open Fips197 Clocked Rounds

namespace Fips197

/-! ## The inverse transformations -/

def invSbox (b : Byte) : Byte := Gf256.inv (Aes128.invAffine b)

def invSubBytes (s : Block) : Block := ofBytes fun r c => invSbox (byte s r c)

/-- Row `r` is rotated right by `r` columns. -/
def invShiftRows (s : Block) : Block := ofBytes fun r c => byte s r (c - r)

/-- Every column is multiplied by `invMixMatrix`. -/
def invMixColumns (s : Block) : Block := ofBytes fun r c => dot (invMixMatrix r) fun k => byte s k c

/-- `InvCipher` on the round keys `rk 0` to `rk 10`. -/
def invCipher (rk : ℕ → Block) (C : Block) : Block :=
  let s := (List.range 9).foldl
    (fun s i => invMixColumns (addRoundKey (invSubBytes (invShiftRows s)) (rk (9 - i)))) (addRoundKey C (rk 10))
  addRoundKey (invSubBytes (invShiftRows s)) (rk 0)

/-- AES-128 decryption of `C` under `key`. -/
def decrypt (key C : Block) : Block := invCipher (roundKey key) C

/-! ## They undo the transformations -/

theorem inv_inv (b : Byte) : Gf256.inv (Gf256.inv b) = b := by
  by_cases hb : b = 0#8
  · rw [hb, Gf256.inv_zero, Gf256.inv_zero]
  · have hinv : Gf256.inv b ≠ 0#8 := fun h => hb (inv_injective (h.trans Gf256.inv_zero.symm))
    calc Gf256.inv (Gf256.inv b)
      _ = Gf256.mul (Gf256.mul b (Gf256.inv b)) (Gf256.inv (Gf256.inv b)) := by rw [Aes128.mul_inv hb, Gf256.one_mul]
      _ = Gf256.mul (Gf256.mul (Gf256.inv b) (Gf256.inv (Gf256.inv b))) b := by
        rw [Gf256.mul_assoc, Gf256.mul_comm b]
      _ = b := by rw [Aes128.mul_inv hinv, Gf256.one_mul]

theorem invSbox_sbox (b : Byte) : invSbox (sbox b) = b := by
  rw [invSbox, sbox, invAffine_affine, inv_inv]

theorem invSubBytes_subBytes (s : Block) : invSubBytes (subBytes s) = s := by
  apply eq_of_byte
  intro r c
  simp only [invSubBytes, subBytes, byte_ofBytes, invSbox_sbox]

theorem invShiftRows_shiftRows (s : Block) : invShiftRows (shiftRows s) = s := by
  apply eq_of_byte
  intro r c
  simp only [invShiftRows, shiftRows, byte_ofBytes, sub_add_cancel]

theorem invMixColumns_mixColumns (s : Block) : invMixColumns (mixColumns s) = s := by
  apply eq_of_byte
  intro r c
  simp only [invMixColumns, mixColumns, byte_ofBytes]
  rw [dot_dot]
  simp only [invMixMatrix_mul_mixMatrix, dot_one]

theorem addRoundKey_addRoundKey (s k : Block) : addRoundKey (addRoundKey s k) k = s := by
  rw [addRoundKey, addRoundKey, BitVec.xor_assoc, BitVec.xor_self, BitVec.xor_zero]

/-- The first `i` rounds back: `9 - i` of the nine equal rounds are left, and the substitution of the next one. -/
theorem foldl_invRound (rk : ℕ → Block) (s : Block) {i : ℕ} (hi : i ≤ 9) :
    (List.range i).foldl (fun s i => invMixColumns (addRoundKey (invSubBytes (invShiftRows s)) (rk (9 - i))))
      (addRoundKey (rounds rk s) (rk 10)) = shiftRows (subBytes (afterRounds rk s (9 - i))) := by
  induction i with
  | zero => rw [rounds_eq, finalRound, addRoundKey_addRoundKey]; rfl
  | succ i ih =>
    rw [List.range_succ, List.foldl_append, ih (by omega), List.foldl_cons, List.foldl_nil, invShiftRows_shiftRows,
      invSubBytes_subBytes, show 9 - i = 9 - (i + 1) + 1 by omega, afterRounds, round, addRoundKey_addRoundKey,
      invMixColumns_mixColumns]

/-- With any round keys. -/
theorem invCipher_rounds (rk : ℕ → Block) (s : Block) : invCipher rk (rounds rk s) = addRoundKey s (rk 0) := by
  rw [invCipher, foldl_invRound rk s (Nat.le_refl 9), invShiftRows_shiftRows, invSubBytes_subBytes]
  rfl

theorem invCipher_cipher (rk : ℕ → Block) (P : Block) : invCipher rk (cipher rk P) = P := by
  rw [cipher, invCipher_rounds, addRoundKey_addRoundKey]

theorem cipher_eq_encrypt {rk : ℕ → Block} {K : Block} (h : ∀ r ≤ 10, rk r = roundKey K r) (P : Block) :
    cipher rk P = encrypt K P := by
  rw [encrypt, cipher, cipher, h 0 (Nat.zero_le 10), rounds_congr fun r _ hr => h r hr]

theorem decrypt_encrypt (K P : Block) : decrypt K (encrypt K P) = P := invCipher_cipher _ P

end Fips197

namespace Aes128

/-! ## From the ciphertext to the block -/

/-- The round keys of a block that is started now: round key 0 is `Key` of InputInterface, and not `key_reg[0]`. -/
def AES_Top.startKeys (s : AES_Top) (r : ℕ) : BitVec 128 :=
  if r = 0 then s.ins_inputinterface.Key else s.ins_KeyLogic.stored r

namespace Refines
variable {s : AES_Top} {e : Engine} (h : Refines s e) (hp : e.phase = .prc)
include h hp

theorem startKeys_eq {r : ℕ} (hr : 0 < r) (hr' : r ≤ 10) : s.startKeys r = e.store r := by
  obtain ⟨hv, hs⟩ := Engine.valid_shown_of_none (e := e) (by rw [hp]; rfl)
  rw [AES_Top.startKeys, if_neg hr.ne', KeyLogic.stored, h.keys r (by omega), hs]
  rfl

theorem cipher_startKeys : rounds e.store (e.Data ^^^ e.Key) = cipher s.startKeys s.ins_inputinterface.Data := by
  rw [cipher, rounds_congr fun r hr hr' => (h.startKeys_eq hp hr hr').symm, addRoundKey, AES_Top.startKeys, if_pos rfl,
    h.inputs]

/-- Where the store belongs to `Key`, they are its schedule. -/
theorem startKeys_consistent (hc : e.Consistent) : ∀ r ≤ 10, s.startKeys r = roundKey s.ins_inputinterface.Key r := by
  intro r hr
  rcases Nat.eq_zero_or_pos r with rfl | hpos
  · rw [AES_Top.startKeys, if_pos rfl, roundKey_zero]
  · rw [Engine.Consistent, Engine.Holds, hp] at hc
    rw [h.startKeys_eq hp hpos hr, hc, h.inputs]

end Refines

/-- Whatever the inputs do, the inverse cipher with the round keys of the start gives back the block that was started
21 cycles before; where these are the schedule of a key, its whitening included, decryption under this key does. -/
theorem ciphertext_undone (x : BitVec 128) (rom : S_box) (ins : ℕ → AES_Top.Inputs) (n : ℕ) (C : BitVec 128)
    (hC : (run (AES_Top.step x) (.reset rom) ins n).CipherText = some C) :
    ∃ p, n = p + 21 ∧
      let s := run (AES_Top.step x) (.reset rom) ins p
      s.pcore_start = true ∧ invCipher s.startKeys C = s.ins_inputinterface.Data ∧
        ∀ K, (∀ r ≤ 10, s.startKeys r = roundKey K r) → decrypt K C = s.ins_inputinterface.Data := by
  obtain ⟨e, h0, hrun, he⟩ := exists_engine_reset x rom ins
  rw [(he n).cipherText_eq] at hC
  obtain ⟨B, hB, rfl⟩ := Engine.output_eq.1 hC
  obtain ⟨p, hp, hprc, rfl, hstore, -⟩ := Engine.encryption_ago hrun (by rw [h0]; rfl) hB
  refine ⟨p, hp, (he p).pcore_start_iff.2 hprc, ?_, fun K hK => ?_⟩
  · rw [hstore, (he p).cipher_startKeys hprc, invCipher_cipher]
  · rw [hstore, (he p).cipher_startKeys hprc, cipher_eq_encrypt hK, decrypt_encrypt]

/-- The block 9, under the key 7: the ciphertext is decrypted under it. -/
theorem ciphertext_undone_nine :
    let s := run (AES_Top.step 0#128) (.reset (.posedge 0#128)) load_key_then_data
    (s 44).CipherText = some (encrypt 7#128 9#128) ∧ (∀ r ≤ 10, (s 23).startKeys r = roundKey 7#128 r) ∧
      decrypt 7#128 (encrypt 7#128 9#128) = (s 23).ins_inputinterface.Data := by
  intro s
  obtain ⟨e, h0, h, he⟩ := exists_engine_reset 0#128 (.posedge 0#128) load_key_then_data
  have hprc : (e 23).phase = .prc := (he 23).pcore_start_iff.1 (by decide +kernel)
  have hregs : (s 23).ins_inputinterface = ⟨7#128, 9#128⟩ := by decide +kernel
  have hKey : (e 23).Key = 7#128 := congrArg InputInterface.Key ((he 23).inputs.symm.trans hregs)
  have hData : (e 23).Data = 9#128 := congrArg InputInterface.Data ((he 23).inputs.symm.trans hregs)
  have hc : (e 23).Consistent := by
    refine consistent_run h (fun n hl => ?_) (show 0 < 23 by decide) rfl
    have hn : n = 0 := by simpa [load_key_then_data] using hl
    rw [hn, h0]
    rfl
  have hkeys : ∀ r ≤ 10, (s 23).startKeys r = roundKey 7#128 r := by
    have hschedule := (he 23).startKeys_consistent hprc hc
    rwa [hregs] at hschedule
  have hshown : (s 44).CipherText = some (encrypt 7#128 9#128) := by
    rw [(he 44).cipherText_eq, encrypt_ahead h hprc hc, hKey, hData]
  obtain ⟨p, hp, -, -, hdecrypt⟩ := ciphertext_undone 0#128 (.posedge 0#128) load_key_then_data 44 _ hshown
  obtain rfl : p = 23 := by omega
  exact ⟨hshown, hkeys, hdecrypt 7#128 hkeys⟩

end Aes128
