import Aes128.Soundness
/-!
# The key schedule, backwards

Every round of the key expansion can be undone, so a key register holds as much
as the key itself: loading a key is a permutation of the 128-bit words for each
of the eleven registers.
-/

open Fips197 Clocked

namespace Fips197

/-- A round of the key expansion, undone: round key `j - 1` from round key `j`. -/
def unexpand (j : Nat) (k : Block) : Block :=
  let a := k.extractLsb 127 96
  let b := k.extractLsb 95 64
  let c := k.extractLsb 63 32
  let d := k.extractLsb 31 0
  (a ^^^ (subWord (rotWord (d ^^^ c)) ^^^ rcon j)) ++ (b ^^^ a) ++ (c ^^^ b) ++ (d ^^^ c)

/-- The key from round key `r`. -/
def unwind : Nat → Block → Block
  | 0, k => k
  | r + 1, k => unwind r (unexpand (r + 1) k)

theorem unexpand_roundKey (key : Block) (r : Nat) : unexpand (r + 1) (roundKey key (r + 1)) = roundKey key r := by
  obtain ⟨h0, h1, h2, h3⟩ := Aes128.roundKey_words key (r + 1)
  obtain ⟨n0, n1, n2, n3⟩ := w_next key r
  have hxor (u v : Word) : (u ^^^ v) ^^^ v = u := by rw [BitVec.xor_assoc, BitVec.xor_self, BitVec.xor_zero]
  simp only [unexpand, h0, h1, h2, h3]
  rw [show 4 * (r + 1) = 4 * r + 4 by omega]
  simp only [Nat.add_assoc, Nat.reduceAdd]
  have hd : w key (4 * r + 7) ^^^ w key (4 * r + 6) = w key (4 * r + 3) := by rw [n3, hxor]
  have hc : w key (4 * r + 6) ^^^ w key (4 * r + 5) = w key (4 * r + 2) := by rw [n2, hxor]
  have hb : w key (4 * r + 5) ^^^ w key (4 * r + 4) = w key (4 * r + 1) := by rw [n1, hxor]
  rw [hd, hc, hb, n0, hxor]
  rfl

theorem unwind_roundKey (key : Block) (r : Nat) : unwind r (roundKey key r) = key := by
  induction r with
  | zero => exact roundKey_zero key
  | succ r ih => rw [unwind, unexpand_roundKey, ih]

theorem roundKey_bijective (r : Nat) : Function.Bijective fun key => roundKey key r := by
  apply Finite.injective_iff_bijective.1
  intro K K' h
  rw [← unwind_roundKey K r, ← unwind_roundKey K' r]
  exact congrArg (unwind r) h

end Fips197

namespace Aes128

/-- The inputs `ins`, with the load of `K` in the first cycle. -/
def load_key (K : Block) (ins : ℕ → AES_Top.Inputs) : ℕ → AES_Top.Inputs
  | 0 => { ins 0 with in_data := K, Load_Key := true }
  | n + 1 => ins (n + 1)

/-- Whatever else comes in, 23 cycles after a key was loaded in a ready state the registers hold its schedule. -/
theorem stored_after_load {x : BitVec 128} {s : AES_Top} (hs : s.Reachable x) (hready : s.Ready_new_input = true)
    (K : Block) (ins : ℕ → AES_Top.Inputs) {i : ℕ} (hi : i < 11) :
    (run (AES_Top.step x) s (load_key K ins) 23).ins_KeyLogic.key_reg[i]? = some (roundKey K i) := by
  obtain ⟨e, he⟩ := hs.refines
  let f := run Engine.step e (load_key K ins)
  have hf : IsRun Engine.step (load_key K ins) f := isRun_run _ _
  have hrun : Refines (run (AES_Top.step x) s (load_key K ins) 23) (f 23) := he.run x (load_key K ins) 23
  have hstart : (f 1).phase = .keyExpand := Engine.next_idle_key (he.ready_eq.1 hready) rfl
  have hK : (f 1).Key = K := rfl
  have hend : (f 22).phase = .waitKeyex K .finish := hK ▸ (Engine.expansion_ahead hf hstart).1
  have hstore : (f 23).store = roundKey K := by
    rw [hf 22, Engine.step, Engine.expanded_eq.2 hend, Option.elim]
  have hidle : Engine.keyUnit (f 23).phase = none := by
    rw [hf 22, Engine.step_phase, Engine.next_waitKeyex hend]
    exact (Engine.units_resume _).1
  obtain ⟨hv, hshown⟩ := Engine.valid_shown_of_none hidle
  rw [← hstore, ← hshown]
  exact hrun.keys i (by rw [hv]; exact hi)

/-- From any ready state, loading a key is a permutation for each of the registers. What a register holds is
the key after the rounds before it, and the key can be had back from it. -/
theorem key_load_permutation (x : BitVec 128) (s : AES_Top) (hs : s.Reachable x) (hready : s.Ready_new_input = true)
    (ins : ℕ → AES_Top.Inputs) (i : ℕ) (hi : i < 11) :
    let held (K : Block) := (run (AES_Top.step x) s (load_key K ins) 23).ins_KeyLogic.stored i
    Function.Bijective held ∧ ∀ K, unwind i (held K) = K := by
  intro held
  have hheld (K : Block) : held K = roundKey K i := by
    simp only [held, KeyLogic.stored, stored_after_load hs hready K ins hi, Option.getD_some]
  constructor
  · rw [funext hheld]
    exact roundKey_bijective i
  · intro K
    rw [hheld, unwind_roundKey]

/-- The last round key, with other words on the bus behind the key. -/
theorem key_load_permutation_last :
    let held (K : Block) := (run (AES_Top.step 0#128) (.reset (.posedge 0#128))
      (load_key K fun _ => ⟨9#128, true, false⟩) 23).ins_KeyLogic.stored 10
    Function.Bijective held ∧ ∀ K, unwind 10 (held K) = K :=
  key_load_permutation 0#128 (.reset (.posedge 0#128)) (.init ⟨_, rfl⟩) rfl (fun _ => ⟨9#128, true, false⟩) 10
    (by decide)

end Aes128
