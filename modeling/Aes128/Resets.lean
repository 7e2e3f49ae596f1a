import Aes128.Invariants
import Aes128.Registers
import Aes128.Results
import Aes128.TwoRuns
/-!
# Resets in the middle of things

Runs from any state at all, such as the registers have at power-up, with resets
wherever they strike. From the last reset on, such a run is one from the reset
state, so what was under way before it leaves no trace.
-/

open Fips197 Clocked Rounds

namespace Aes128

namespace wrapper_finalv2

/-- The reset is on in this cycle, or goes on. -/
def Event.reset : Event → Bool
  | .clk iReset_n _ => !iReset_n
  | .rst _ => true

def Event.bus : Event → Inputs
  | .clk _ i => i
  | .rst i => i

theorem event_reset (x : BitVec 128) {ev : Event} (h : ev.reset = true) (w : wrapper_finalv2) :
    ∃ rom, event x ev w = reset rom := by
  rcases ev with ⟨_ | _, i⟩ | i
  · exact ⟨.posedge (w.inst.muxout x), rfl⟩
  · cases h
  · exact ⟨w.inst.ins_SBox, rfl⟩

theorem event_step (x : BitVec 128) {ev : Event} (h : ev.reset = false) (w : wrapper_finalv2) :
    event x ev w = w.step x ev.bus := by
  rcases ev with ⟨_ | _, i⟩ | i
  · cases h
  · rfl
  · cases h

/-- From the last reset on, a run is one from the reset state. -/
theorem run_since_reset (x : BitVec 128) (w₀ : wrapper_finalv2) (trace : ℕ → Event) {r n : ℕ}
    (hr : IsLast (fun j => (trace j).reset = true) r n) :
    ∃ rom, ∀ k, r + 1 + k ≤ n → run (event x) w₀ trace (r + 1 + k) =
      run (step x) (reset rom) (fun j => (trace (r + 1 + j)).bus) k := by
  obtain ⟨-, hreset, hlast⟩ := hr
  obtain ⟨rom, hrom⟩ := event_reset x hreset (run (event x) w₀ trace r)
  refine ⟨rom, fun k hk => ?_⟩
  rw [run_add, run_succ, hrom]
  apply run_congr
  intro j hj w
  exact event_step x (Bool.eq_false_iff.2 (hlast _ (by omega) (by omega))) w

/-! ## The ciphertexts since -/

/-- What is made from the commands before cycle `q` depends on nothing else. -/
theorem Computes.congr {bus : ℕ → Inputs} {st w : ℕ → wrapper_finalv2} {q : ℕ} {C : Block}
    (hst : ∀ j ≤ q, st j = w j) (h : Computes bus st q C) : Computes bus w q C := by
  obtain ⟨B, K, store, hB, hK, hS, hC⟩ := h
  refine ⟨B, K, store, hB.congr (fun _ _ => Iff.rfl) fun j hj => ?_, hK.congr (fun _ _ => Iff.rfl) fun j hj => ?_,
    hS.congr (fun j hj => ?_) fun j hj => ?_, hC⟩
  · rw [hst j hj.le]
  · rw [hst j hj.le]
  · rw [hst (j + 1) hj]
  · rw [hst j hj.le]

/-- `C`, shown in cycle `n`, is made from what the bus did after the reset in cycle `r`: the block is that of the
command `d`, the keys are those of the commands since, and all of them are in words written since. -/
def MadeSince (trace : ℕ → Event) (w : ℕ → wrapper_finalv2) (r n : ℕ) (C : Block) : Prop :=
  let bus (j : ℕ) := (trace (r + 1 + j)).bus
  let st (j : ℕ) := w (r + 1 + j)
  ∃ q d, n = r + 1 + (q + 22) ∧ IsLast (fun j => (bus j).dataCommand = true) d q ∧
    (∀ j ≤ q, ∀ i < 4, LastWritten bus (BitVec.ofNat 4 i) j (word (st j).in_data i)) ∧ Computes bus st q C

/-- A ciphertext after a reset comes from a command: the pulse that its encryption was started for. -/
theorem exists_command (x : BitVec 128) (rom : S_box) (bus : ℕ → Inputs) {q : ℕ}
    (hv : (run (step x) (reset rom) bus (q + 22)).CTValid = true) :
    ∃ d, d + 2 ≤ q ∧ (bus d).dataCommand = true := by
  obtain ⟨e, h0, h, he⟩ := exists_engine x rom bus
  obtain ⟨B, hB⟩ := (he _).ctValid_iff.1 hv
  obtain ⟨p, hp, hprc, -⟩ := Engine.encryption_ago h (by rw [h0]; rfl) hB
  have hqp : p = q + 1 := Nat.add_right_cancel (hp.symm.trans (show q + 22 = q + 1 + 21 from rfl))
  rw [hqp, h q] at hprc
  obtain ⟨hl, -⟩ := Engine.next_eq_prc hprc
  obtain ⟨d, hd, hload, -⟩ := Engine.exists_load h (by rw [h0]; rfl) hl
  rcases d with _ | d
  · cases hload
  · refine ⟨d, hd, ?_⟩
    rw [inst_inputs_Load_Data, run_succ, step_Load_Data] at hload
    exact hload

theorem madeSince_of_shown (x : BitVec 128) (w₀ : wrapper_finalv2) (trace : ℕ → Event) {r c n : ℕ}
    (hr : IsLast (fun j => (trace j).reset = true) r n) (hc : r + 1 + c ≤ n) :
    let w := run (event x) w₀ trace
    (w (r + 1 + c)).CTValid = true → r + 25 ≤ r + 1 + c ∧
      ∃ C, (w (r + 1 + c)).CipherText = some C ∧ MadeSince trace w r (r + 1 + c) C := by
  intro w hv
  obtain ⟨rom, hsince⟩ := run_since_reset x w₀ trace hr
  have hst (j : ℕ) (hj : j ≤ c) := hsince j (show r + 1 + j ≤ n by omega)
  have hrun : IsRun (step x) (fun j => (trace (r + 1 + j)).bus)
      (run (step x) (reset rom) fun j => (trace (r + 1 + j)).bus) := isRun_run _ _
  obtain ⟨e, h0, h, he⟩ := exists_engine x rom fun j => (trace (r + 1 + j)).bus
  dsimp only [w] at hv ⊢
  rw [hst c (Nat.le_refl c)] at hv ⊢
  obtain ⟨q, C, rfl, htext, hcomp⟩ := computes_of_shown hrun ⟨rfl, rfl⟩ h0 h he hv
  obtain ⟨d₀, hd₀, hcommand⟩ := exists_command x rom _ hv
  obtain ⟨d, hd⟩ := exists_isLast (P := fun j => (trace (r + 1 + j)).bus.dataCommand = true) (n := q)
    (show d₀ < q by omega) hcommand
  refine ⟨by omega, C, htext, q, d, rfl, hd, fun j hj i hi => ?_, hcomp.congr fun j hj => (hst j (by omega)).symm⟩
  dsimp only
  rw [hst j (by omega)]
  exact lastWritten_word hrun rfl j hi

theorem reachable_inst {x : BitVec 128} {w : wrapper_finalv2} (h : w.Reachable x) : Interlock x w.inst := by
  obtain ⟨e, he⟩ := h.inst.refines
  exact he.interlock x

/-- What the result register holds is a ciphertext that was shown. -/
theorem shown_of_result (x : BitVec 128) (rom : S_box) (bus : ℕ → Inputs) (n : ℕ) :
    let w := run (step x) (reset rom) bus
    (w n).temp_result = 0#128 ∨
      ∃ c < n, (w c).CTValid = true ∧ (w c).CipherText = some (w n).temp_result := by
  intro w
  have hlast := latest (P := fun j => (w j).CTValid = true) (f := fun j => (w j).temp_result)
    (v := fun j => (w j).CipherText.getD x) (fun j hj => (step_temp_result x (bus j) (w j)).trans (if_pos hj))
    (fun j hj => (step_temp_result x (bus j) (w j)).trans (if_neg hj)) n
  rcases hlast with ⟨c, ⟨hcn, hv, -⟩, hC⟩ | ⟨-, h0⟩
  · right
    have hdriven : (w c).CipherText.isSome = true :=
      (reachable_inst (.run (.init ⟨rom, rfl⟩) bus c)).drivenResult hv
    obtain ⟨C, htext⟩ := Option.isSome_iff_exists.1 hdriven
    refine ⟨c, hcn, hv, ?_⟩
    rw [show (w n).temp_result = (w c).CipherText.getD x from hC, htext, Option.getD_some]
  · exact .inl h0

/-- From any state: nothing is left of what was under way when the last reset came. The state is a reachable
one, with its interlock; a ciphertext is made from what the bus did since; and so is what the result registers hold. -/
theorem reset_recovers (x : BitVec 128) (w₀ : wrapper_finalv2) (trace : ℕ → Event) (r n : ℕ)
    (hr : IsLast (fun j => (trace j).reset = true) r n) :
    let w := run (event x) w₀ trace
    (w n).Reachable x ∧ Interlock x (w n).inst ∧
      ((w n).CTValid = true → r + 25 ≤ n ∧ ∃ C, (w n).CipherText = some C ∧ MadeSince trace w r n C) ∧
      ((w n).tmp_valid = true → ∃ c, r + 25 ≤ c ∧ c < n ∧ (w c).CTValid = true) ∧
      ((w n).temp_result = 0#128 ∨ ∃ c, r + 25 ≤ c ∧ c < n ∧ (w c).CTValid = true ∧
        (w c).CipherText = some (w n).temp_result ∧ MadeSince trace w r c (w n).temp_result) := by
  intro w
  obtain ⟨rom, hsince⟩ := run_since_reset x w₀ trace hr
  have hrun : ∀ k, r + 1 + k ≤ n → w (r + 1 + k) = _ := hsince
  obtain ⟨m, rfl⟩ := Nat.exists_eq_add_of_le (show r + 1 ≤ n from hr.1)
  have hreach : (w (r + 1 + m)).Reachable x := by
    rw [hrun m (Nat.le_refl _)]
    exact Reachable.run (.init ⟨rom, rfl⟩) _ m
  have hshown (c : ℕ) (hc : c ≤ m) := madeSince_of_shown x w₀ trace hr (show r + 1 + c ≤ r + 1 + m by omega)
  refine ⟨hreach, reachable_inst hreach, hshown m (Nat.le_refl m), fun hv => ?_, ?_⟩
  · rw [hrun m (Nat.le_refl _), flagged_iff (isRun_run _ _) ⟨rfl, rfl⟩] at hv
    obtain ⟨c, hc, hcv, -⟩ := hv
    rw [← hrun c (by omega)] at hcv
    exact ⟨r + 1 + c, (hshown c hc.le hcv).1, by omega, hcv⟩
  · rw [hrun m (Nat.le_refl _)]
    rcases shown_of_result x rom (fun j => (trace (r + 1 + j)).bus) m with h0 | ⟨c, hc, hcv, htext⟩
    · exact .inl h0
    · rw [← hrun c (by omega)] at hcv htext
      obtain ⟨hlate, C, hC, hmade⟩ := hshown c hc.le hcv
      obtain rfl : C = _ := Option.some_injective _ (hC.symm.trans htext)
      exact .inr ⟨r + 1 + c, hlate, by omega, hcv, htext, hmade⟩

/-- A reset in cycle 3, the word 9 written after it, and two commands. -/
def reset_then_commands (n : ℕ) : Event :=
  if n = 3 then .rst .idle
  else .clk true (if n = 4 then .writing 3#4 9#32 else if n = 5 ∨ n = 10 then .writing 4#4 0#32 else .idle)

/-- A block and a result of before, and the ciphertexts of cycles 29 and 52 after the reset. -/
theorem reset_recovers_flagged :
    let w₀ := { reset (.posedge 0#128) with
      in_data := 7#128, Load_Data := true, tmp_valid := true, temp_result := 7#128 }
    let w := run (event 0#128) w₀ reset_then_commands
    ((w 29).CTValid = true ∧ (w 52).CTValid = true ∧ (w 52).tmp_valid = true) ∧
      (w 52).Reachable 0#128 ∧ Interlock 0#128 (w 52).inst ∧
      ((w 52).CTValid = true → 3 + 25 ≤ 52 ∧
        ∃ C, (w 52).CipherText = some C ∧ MadeSince reset_then_commands w 3 52 C) ∧
      ((w 52).tmp_valid = true → ∃ c, 3 + 25 ≤ c ∧ c < 52 ∧ (w c).CTValid = true) ∧
      ((w 52).temp_result = 0#128 ∨ ∃ c, 3 + 25 ≤ c ∧ c < 52 ∧ (w c).CTValid = true ∧
        (w c).CipherText = some (w 52).temp_result ∧ MadeSince reset_then_commands w 3 c (w 52).temp_result) := by
  intro w₀ w
  refine ⟨by decide +kernel, reset_recovers 0#128 w₀ reset_then_commands 3 52 ⟨by decide, rfl, fun j hj _ => ?_⟩⟩
  simp only [reset_then_commands, if_neg (show ¬ j = 3 by omega)]
  exact Bool.false_ne_true

end wrapper_finalv2

end Aes128
