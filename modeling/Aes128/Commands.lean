import Aes128.Soundness
import Aes128.Wrapper
/-!
# Commands on the bus

What one cycle of the bus does to the registers of the wrapper, and the engine
that runs inside it: a command written in one cycle is a pulse, and a clear of
the flag, in the next.
-/

open Fips197 Clocked Rounds

namespace Aes128

namespace wrapper_finalv2

namespace Inputs

/-! The three bus cycles of a master. -/

def idle : Inputs := ⟨true, true, true, 0#4, 0#32⟩

def writing (a : BitVec 4) (d : BitVec 32) : Inputs := ⟨false, false, true, a, d⟩

def reading (a : BitVec 4) : Inputs := ⟨false, true, false, a, 0#32⟩

/-- A write of address 4. -/
def dataCommand (i : Inputs) : Bool := i.write && i.iAddress == 4#4

/-- A write of address 5. -/
def keyCommand (i : Inputs) : Bool := i.write && i.iAddress == 5#4

def command (i : Inputs) : Bool := i.write && (i.iAddress == 4#4 || i.iAddress == 5#4)

theorem command_eq (i : Inputs) : i.command = (i.dataCommand || i.keyCommand) := by
  unfold command dataCommand keyCommand
  cases i.write <;> rfl

theorem command_of_data {i : Inputs} (h : i.dataCommand = true) : i.command = true := by
  rw [command_eq, h, Bool.true_or]

theorem command_of_key {i : Inputs} (h : i.keyCommand = true) : i.command = true := by
  rw [command_eq, h, Bool.or_true]

theorem keyCommand_of_data {i : Inputs} (h : i.dataCommand = true) : i.keyCommand = false := by
  simp only [dataCommand, keyCommand, Bool.and_eq_true, beq_iff_eq] at h ⊢
  rw [h.2, Bool.and_eq_false_iff]
  exact .inr rfl

theorem not_command {i : Inputs} (h : i.command = false) : i.dataCommand = false ∧ i.keyCommand = false := by
  rwa [command_eq, Bool.or_eq_false_iff] at h

end Inputs

/-! ## One cycle -/

section Step
variable (x : BitVec 128) (i : Inputs) (w : wrapper_finalv2)

theorem step_Load_Data : (w.step x i).Load_Data = i.dataCommand := rfl

theorem step_Load_Key : (w.step x i).Load_Key = i.keyCommand := rfl

theorem step_reset_flag : (w.step x i).reset_flag = i.command := rfl

/-- A command leaves the words as they are. -/
theorem step_in_data (h : i.command = true) : (w.step x i).in_data = w.in_data := by
  simp only [Inputs.command, Bool.and_eq_true, Bool.or_eq_true, beq_iff_eq] at h
  obtain ⟨hw, ha⟩ := h
  simp only [step, posedge_clk, always, hw, write_word]
  rcases ha with ha | ha <;> rw [ha] <;> rfl

theorem step_tmp_valid :
    (w.step x i).tmp_valid = if w.reset_flag then false else if w.CTValid then true else w.tmp_valid := rfl

theorem step_temp_result :
    (w.step x i).temp_result = if w.CTValid then w.CipherText.getD x else w.temp_result := rfl

theorem step_oData (hr : i.read = true) : (w.step x i).oData = w.read_word i.iAddress := if_pos hr

end Step

/-- No pulse, and no clear of the flag. -/
structure Quiet (w : wrapper_finalv2) : Prop where
  key : w.Load_Key = false
  data : w.Load_Data = false
  flag : w.reset_flag = false

section Quiet
variable {x : BitVec 128} {i : Inputs} {w : wrapper_finalv2} {e : Engine}

theorem quiet_step (h : i.command = false) : (w.step x i).Quiet where
  key := (Inputs.not_command h).2
  data := (Inputs.not_command h).1
  flag := h

theorem Quiet.in_loaded (h : Quiet w) (hp : e.phase ≠ .prc) : (e.step w.inst_inputs).in_loaded = e.in_loaded := by
  rw [Engine.step_in_loaded hp, inst_inputs_Load_Data, h.data, Bool.false_or]

end Quiet

theorem flag_word (b : Bool) : 0#31 ++ BitVec.ofBool b = 1#32 ↔ b = true := by
  cases b <;> decide

/-! ## The engine inside -/

/-- The engine that runs in a run of the wrapper, on the inputs the wrapper gives it. -/
theorem exists_engine (x : BitVec 128) (rom : S_box) (bus : ℕ → Inputs) :
    ∃ e : ℕ → Engine, e 0 = .init ∧ IsRun Engine.step (fun n => (run (step x) (reset rom) bus n).inst_inputs) e ∧
      ∀ n, Refines (run (step x) (reset rom) bus n).inst (e n) := by
  let ins (n : ℕ) := (run (step x) (reset rom) bus n).inst_inputs
  refine ⟨run Engine.step .init ins, rfl, isRun_run _ _, fun n => ?_⟩
  induction n with
  | zero => exact refines_reset rom
  | succ n ih => exact ih.step x (ins n)

/-- The cycle in which the ciphertext is shown. -/
theorem result_of_output {x : BitVec 128} {i : Inputs} {w : wrapper_finalv2} {e : Engine}
    (h : Refines w.inst e) {C : Block} (ho : e.output = some C) (hf : w.reset_flag = false) :
    (w.step x i).tmp_valid = true ∧ (w.step x i).temp_result = C := by
  have hv : w.CTValid = true := by rw [CTValid, h.ctValid_eq, ho]; rfl
  rw [step_tmp_valid, step_temp_result, hv, hf, CipherText, h.cipherText_eq, ho]
  exact ⟨rfl, rfl⟩

/-- A cycle in which no ciphertext is shown. -/
theorem result_of_no_output {x : BitVec 128} {i : Inputs} {w : wrapper_finalv2} {e : Engine}
    (h : Refines w.inst e) (ho : e.output = none) (hf : w.reset_flag = false) :
    (w.step x i).tmp_valid = w.tmp_valid ∧ (w.step x i).temp_result = w.temp_result := by
  have hv : w.CTValid = false := by rw [CTValid, h.ctValid_eq, ho]; rfl
  rw [step_tmp_valid, step_temp_result, hv, hf]
  exact ⟨rfl, rfl⟩

end wrapper_finalv2

end Aes128
