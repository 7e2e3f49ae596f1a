import Aes128.Refine
/-!
# Every ciphertext is the encryption of a block under a key

`encryption_run` is about one run of the core, with whatever the key registers
hold. `ciphertext_sound` is about whole runs of AES_Top: with keys loaded only
when it is ready, `CipherText` is FIPS 197 encryption of the block and the key
that were loaded last when the core was started.
-/

open Fips197 Clocked Rounds

namespace Aes128

/-! ## One encryption -/

/-- The round keys that the registers hold. -/
def KeyLogic.stored (k : KeyLogic) (i : ℕ) : Block := k.key_reg[i]?.getD 0#128

/-- A state of AES_Top with other keys in the registers. -/
def AES_Top.withKeys (s : AES_Top) (key_reg : Vector (BitVec 128) 11) : AES_Top :=
  { s with ins_KeyLogic := { s.ins_KeyLogic with key_reg := key_reg } }

/-- In a start cycle the relation asks nothing of the keys. -/
theorem Refines.withKeys {s : AES_Top} {e : Engine} (h : Refines s e) (hp : e.phase = .prc)
    (key_reg : Vector (BitVec 128) 11) :
    Refines (s.withKeys key_reg) { e with store := (s.withKeys key_reg).ins_KeyLogic.stored } where
  system := h.system
  inputs := h.inputs
  keyController := h.keyController
  coreController := h.coreController
  keys := by
    intro i hi
    simp only [Engine.valid, Engine.shown, hp] at hi ⊢
    simp only [KeyLogic.stored]
    rw [Vector.getElem?_eq_getElem hi]
    rfl
  state := by intro B b hb; rw [hp] at hb; cases hb
  keyLookup := by intro K r hr; rw [hp] at hr; cases hr
  coreLookup := by intro B r hr; rw [hp] at hr; cases hr

/-- From a start cycle, the ciphertext of the whitened block is shown 21 cycles later and not before. -/
theorem Refines.ciphertext_ahead {s : AES_Top} {e : Engine} (h : Refines s e) (hp : e.phase = .prc) (x : BitVec 128)
    (ins : ℕ → AES_Top.Inputs) :
    (∀ j, 0 < j → j < 21 → (Clocked.run (AES_Top.step x) s ins j).CTValid = false) ∧
      (Clocked.run (AES_Top.step x) s ins 21).CTValid = true ∧
      (Clocked.run (AES_Top.step x) s ins 21).CipherText = some (rounds e.store (e.Data ^^^ e.Key)) := by
  have hr (n : ℕ) := h.run x ins n
  obtain ⟨hout, hbefore⟩ := Engine.encryption_ahead (isRun_run e ins) (p := 0) hp
  rw [Nat.zero_add] at hout hbefore
  refine ⟨fun j hj hj' => ?_, ?_, ?_⟩
  · rw [(hr j).ctValid_eq, hbefore j hj hj']
    rfl
  · rw [(hr 21).ctValid_eq, hout]
    rfl
  · rw [(hr 21).cipherText_eq, hout]
    rfl

/-- From a start cycle, with any keys in the registers and whatever the inputs do, the ciphertext
is shown 21 cycles later and not before: the reference rounds, with the round keys in order, of
the whitened block. -/
theorem encryption_run (x : BitVec 128) (s : AES_Top) (hs : s.Reachable x) (hp : s.pcore_start = true)
    (key_reg : Vector (BitVec 128) 11) (ins : ℕ → AES_Top.Inputs) :
    let s' := run (AES_Top.step x) (s.withKeys key_reg) ins
    (∀ j, 0 < j → j < 21 → (s' j).CTValid = false) ∧ (s' 21).CTValid = true ∧
      (s' 21).CipherText = some (rounds (s.withKeys key_reg).ins_KeyLogic.stored
        (s.ins_inputinterface.Data ^^^ s.ins_inputinterface.Key)) := by
  intro s'
  obtain ⟨e, he⟩ := hs.refines
  have hprc := he.pcore_start_iff.1 hp
  rw [he.inputs]
  exact (he.withKeys hprc key_reg).ciphertext_ahead hprc x ins

/-- The key 7 in cycle 0 and the block 9 in cycle 1, as in the testbench. -/
def load_key_then_data (n : ℕ) : AES_Top.Inputs := ⟨if n = 0 then 7#128 else 9#128, n == 0, n == 1⟩

theorem encryption_run_replicate :
    let s := run (AES_Top.step 0#128) (.reset (.posedge 0#128)) load_key_then_data 23
    let s' := run (AES_Top.step 0#128) (s.withKeys (.replicate 11 5#128)) load_key_then_data
    (∀ j, 0 < j → j < 21 → (s' j).CTValid = false) ∧ (s' 21).CTValid = true ∧
      (s' 21).CipherText = some (rounds (s.withKeys (.replicate 11 5#128)).ins_KeyLogic.stored
        (s.ins_inputinterface.Data ^^^ s.ins_inputinterface.Key)) :=
  encryption_run 0#128 _ (.run (.init ⟨_, rfl⟩) _ 23) (by decide +kernel) _ _

/-! ## Runs from reset -/

theorem encrypt_eq (K P : Block) : encrypt K P = rounds (roundKey K) (P ^^^ K) := by
  rw [encrypt, cipher, addRoundKey, roundKey_zero]

/-- Once a key has been loaded, with keys loaded only when the engine is idle. -/
theorem consistent_run {ins : ℕ → AES_Top.Inputs} {e : ℕ → Engine} (h : IsRun Engine.step ins e)
    (hready : ∀ n, (ins n).Load_Key = true → (e n).phase = .idle) {k n : ℕ} (hkn : k < n)
    (hk : (ins k).Load_Key = true) : (e n).Consistent := by
  induction n with
  | zero => omega
  | succ n ih =>
    rw [h n]
    rcases Nat.lt_succ_iff_lt_or_eq.1 hkn with hkn | rfl
    · exact (ih hkn).step fun hl => .inl (hready n hl)
    · exact Engine.consistent_of_load (hready k hk) hk

/-- The end of an encryption in a consistent state. -/
theorem output_eq_encrypt {e : Engine} {K P : Block} (hp : e.phase = .waitPCore (P ^^^ K) .finish) (hK : e.Key = K)
    (hc : e.Consistent) : e.output = some (encrypt K P) := by
  rw [Engine.Consistent, Engine.Holds, hp, hK] at hc
  rw [Engine.output_eq.2 ⟨_, hp, rfl⟩, hc, encrypt_eq]

/-- An encryption started in a consistent state. -/
theorem encrypt_ahead {ins : ℕ → AES_Top.Inputs} {e : ℕ → Engine} (h : IsRun Engine.step ins e) {p : ℕ}
    (hp : (e p).phase = .prc) (hc : (e p).Consistent) :
    (e (p + 21)).output = some (encrypt (e p).Key (e p).Data) := by
  rw [Engine.Consistent, Engine.Holds, hp] at hc
  rw [(Engine.encryption_ahead h hp).1, encrypt_eq, hc]

/-- In every run from reset in which keys are loaded only when the engine is ready, never together
with a block, and before the first block, every ciphertext is that of the block and the key
loaded last when its encryption was started, 21 cycles before. -/
theorem ciphertext_sound (x : BitVec 128) (rom : S_box) (ins : ℕ → AES_Top.Inputs)
    (hboth : ∀ n, ¬((ins n).Load_Key = true ∧ (ins n).Load_Data = true))
    (hready : ∀ n, (ins n).Load_Key = true → (run (AES_Top.step x) (.reset rom) ins n).Ready_new_input = true)
    (hfirst : ∀ d, (ins d).Load_Data = true → ∃ k < d, (ins k).Load_Key = true)
    (n : ℕ) (hv : (run (AES_Top.step x) (.reset rom) ins n).CTValid = true) :
    ∃ p k d, n = p + 21 ∧ (run (AES_Top.step x) (.reset rom) ins p).pcore_start = true ∧
      IsLast (fun j => (ins j).Load_Key = true) k p ∧ IsLast (fun j => (ins j).Load_Data = true) d p ∧
      (run (AES_Top.step x) (.reset rom) ins n).CipherText =
        some (encrypt (ins k).in_data (ins d).in_data) := by
  obtain ⟨e, h0, hrun, he⟩ := exists_engine_reset x rom ins
  obtain ⟨B, hB⟩ := (he n).ctValid_iff.1 hv
  obtain ⟨p, hp, hprc, rfl, hstore, -⟩ := Engine.encryption_ago hrun (by rw [h0]; rfl) hB
  -- the block that was waiting at `p`, and the key before it
  have hwait : (e p).in_loaded = true := Engine.in_loaded_of_prc hrun (by rw [h0]; rfl) hprc
  obtain ⟨d₀, hd₀, hload, -⟩ := Engine.exists_load hrun (by rw [h0]; rfl) hwait
  obtain ⟨k₀, hk₀, hkey⟩ := hfirst d₀ hload
  obtain ⟨k, hk⟩ := exists_isLast (P := fun j => (ins j).Load_Key = true) (show k₀ < p by omega) hkey
  obtain ⟨d, hd⟩ := exists_isLast (P := fun j => (ins j).Load_Data = true) hd₀ hload
  have hc := consistent_run hrun (fun n hl => (he n).ready_eq.1 (hready n hl)) (show k₀ < p by omega) hkey
  rw [Engine.Consistent, Engine.Holds, hprc] at hc
  have hdata : (fun j => (ins j).Load_Data = true) = fun j => (ins j).Load_Data = true ∧ (ins j).Load_Key = false := by
    funext j
    have := hboth j
    cases hl : (ins j).Load_Key <;> simp_all
  refine ⟨p, k, d, hp, (he p).pcore_start_iff.2 hprc, hk, hd, ?_⟩
  rw [hdata] at hd
  rw [(he n).cipherText_eq, Engine.output_eq.2 ⟨_, hB, rfl⟩, hstore, hc, Engine.Key_eq hrun hk,
    Engine.Data_eq hrun hd, encrypt_eq]

theorem ciphertext_sound_first :
    ∃ p k d, 44 = p + 21 ∧
      (run (AES_Top.step 0#128) (.reset (.posedge 0#128)) load_key_then_data p).pcore_start = true ∧
      IsLast (fun j => (load_key_then_data j).Load_Key = true) k p ∧
      IsLast (fun j => (load_key_then_data j).Load_Data = true) d p ∧
      (run (AES_Top.step 0#128) (.reset (.posedge 0#128)) load_key_then_data 44).CipherText =
        some (encrypt (load_key_then_data k).in_data (load_key_then_data d).in_data) := by
  have key (n : ℕ) : (load_key_then_data n).Load_Key = true ↔ n = 0 := by simp [load_key_then_data]
  have data (n : ℕ) : (load_key_then_data n).Load_Data = true ↔ n = 1 := by simp [load_key_then_data]
  refine ciphertext_sound _ _ _ (fun n => ?_) (fun n hn => ?_) (fun n hn => ?_) 44 (by decide +kernel)
  · rw [key, data]
    omega
  · rw [(key n).1 hn]
    rfl
  · exact ⟨0, by rw [(data n).1 hn]; decide, (key 0).2 rfl⟩

end Aes128
