import Aes128.Permutation
import Aes128.Soundness
/-!
# The core is a permutation

Whatever `Key` and the key registers hold, `Data` gets to `CipherText` through a
permutation of the 128-bit blocks, so no two blocks have the same ciphertext.
-/

open Fips197 Clocked Rounds

namespace Aes128

/-- A state of AES_Top with other keys and another block in the registers. -/
def AES_Top.withBlock (s : AES_Top) (key_reg : Vector (BitVec 128) 11) (K P : Block) : AES_Top :=
  { s.withKeys key_reg with ins_inputinterface := ⟨K, P⟩ }

/-- In a start cycle the relation asks nothing of the block either. -/
theorem Refines.withBlock {s : AES_Top} {e : Engine} (h : Refines s e) (hp : e.phase = .prc)
    (key_reg : Vector (BitVec 128) 11) (K P : Block) :
    Refines (s.withBlock key_reg K P)
      { e with Key := K, Data := P, store := (s.withKeys key_reg).ins_KeyLogic.stored } :=
  let hk := h.withKeys hp key_reg
  { system := hk.system
    inputs := rfl
    keyController := hk.keyController
    coreController := hk.coreController
    keys := hk.keys
    state := hk.state
    keyLookup := hk.keyLookup
    coreLookup := hk.coreLookup }

/-- In `s` an encryption of `P` starts, with `K` in `Key` and the round keys `rk` in `key_reg[1..10]`. -/
def AES_Top.StartsOn (x : BitVec 128) (K : Block) (rk : ℕ → Block) (P : Block) (s : AES_Top) : Prop :=
  ∃ (s₀ : AES_Top) (key_reg : Vector (BitVec 128) 11), s₀.Reachable x ∧ s₀.pcore_start = true ∧
    (∀ i, 0 < i → i ≤ 10 → key_reg[i]? = some (rk i)) ∧ s = s₀.withBlock key_reg K P

theorem exists_startsOn (x : BitVec 128) (K : Block) (rk : ℕ → Block) (P : Block) :
    ∃ s : AES_Top, s.StartsOn x K rk P := by
  let s₀ : AES_Top := .step x ⟨0#128, false, false⟩ (.step x ⟨0#128, false, true⟩ (.reset (.posedge 0#128)))
  refine ⟨_, s₀, .ofFn fun i => rk i, .step _ (.step _ (.init ⟨_, rfl⟩)), rfl, fun i _ hi => ?_, rfl⟩
  rw [Vector.getElem?_ofFn, dif_pos (by omega)]

theorem AES_Top.StartsOn.ciphertext {x : BitVec 128} {K : Block} {rk : ℕ → Block} {P : Block} {s : AES_Top}
    (h : s.StartsOn x K rk P) (ins : ℕ → Inputs) :
    (∀ j, 0 < j → j < 21 → (run (step x) s ins j).CTValid = false) ∧ (run (step x) s ins 21).CTValid = true ∧
      (run (step x) s ins 21).CipherText = some (rounds rk (P ^^^ K)) := by
  obtain ⟨s₀, key_reg, hs, hstart, hk, rfl⟩ := h
  obtain ⟨e, he⟩ := hs.refines
  have hp := he.pcore_start_iff.1 hstart
  have hrk (B : Block) : rounds (s₀.withKeys key_reg).ins_KeyLogic.stored B = rounds rk B := by
    refine rounds_congr (fun i hi hi' => ?_) B
    simp only [withKeys, KeyLogic.stored]
    rw [hk i hi hi']
    rfl
  rw [← hrk]
  exact (he.withBlock hp key_reg K P).ciphertext_ahead hp x ins

/-- For every `Key` and every contents of `key_reg[1..10]`, the core takes the block to the ciphertext by
a permutation, and encryptions of different blocks, wherever they start, show different ciphertexts. -/
theorem core_permutation (x : BitVec 128) (K : Block) (rk : ℕ → Block) :
    (∀ P, ∃ s : AES_Top, s.StartsOn x K rk P) ∧
    (∃ π : Block → Block, Function.Bijective π ∧
      ∀ P (s : AES_Top), s.StartsOn x K rk P → ∀ ins : ℕ → AES_Top.Inputs,
        (∀ j, 0 < j → j < 21 → (run (AES_Top.step x) s ins j).CTValid = false) ∧
        (run (AES_Top.step x) s ins 21).CTValid = true ∧
        (run (AES_Top.step x) s ins 21).CipherText = some (π P)) ∧
    ∀ P P' : Block, P ≠ P' → ∀ s s' : AES_Top, s.StartsOn x K rk P → s'.StartsOn x K rk P' →
      ∀ ins ins' : ℕ → AES_Top.Inputs,
        (run (AES_Top.step x) s ins 21).CipherText ≠ (run (AES_Top.step x) s' ins' 21).CipherText := by
  have hbij : Function.Bijective fun P => rounds rk (P ^^^ K) :=
    (rounds_bijective rk).comp (Finite.injective_iff_bijective.1 (addRoundKey_injective K))
  refine ⟨exists_startsOn x K rk, ⟨_, hbij, fun P s hs ins => hs.ciphertext ins⟩, ?_⟩
  intro P P' hne s s' hs hs' ins ins' heq
  rw [(hs.ciphertext ins).2.2, (hs'.ciphertext ins').2.2] at heq
  exact hne (hbij.injective (Option.some_inj.1 heq))

end Aes128
