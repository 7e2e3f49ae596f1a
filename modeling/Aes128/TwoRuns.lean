import Aes128.Refine
import Aes128.Wrapper
/-!
# Two runs of the wrapper

`reset_erases`: after a reset the outputs do not depend on what was before it.
`handshake_public`: when the engine is ready, and when a result appears, does
not depend on the data written. Both are a relation kept by every step.
-/

open Fips197 Clocked Rounds

namespace Aes128

namespace wrapper_finalv2

/-! ## What happens after a reset -/

/-- A clock edge with the level of the reset, or the edge that asserts it. -/
inductive Event where
  | clk (iReset_n : Bool) (i : Inputs)
  | rst (i : Inputs)

def event (x : BitVec 128) : Event → wrapper_finalv2 → wrapper_finalv2
  | .clk iReset_n i, w => w.posedge_clk x iReset_n i
  | .rst i, w => w.negedge_reset x i

/-- The same registers around engines that do the same. -/
structure Agree (w₁ w₂ : wrapper_finalv2) : Prop where
  in_data : w₁.in_data = w₂.in_data
  temp_result : w₁.temp_result = w₂.temp_result
  Load_Data : w₁.Load_Data = w₂.Load_Data
  Load_Key : w₁.Load_Key = w₂.Load_Key
  tmp_valid : w₁.tmp_valid = w₂.tmp_valid
  reset_flag : w₁.reset_flag = w₂.reset_flag
  oData : w₁.oData = w₂.oData
  inst : ∃ e, Refines w₁.inst e ∧ Refines w₂.inst e

theorem agree_reset (rom₁ rom₂ : S_box) : Agree (reset rom₁) (reset rom₂) where
  in_data := rfl
  temp_result := rfl
  Load_Data := rfl
  Load_Key := rfl
  tmp_valid := rfl
  reset_flag := rfl
  oData := rfl
  inst := ⟨.init, refines_reset _, refines_reset _⟩

theorem Agree.step {w₁ w₂ : wrapper_finalv2} (h : Agree w₁ w₂) (x y : BitVec 128) (i : Inputs) :
    Agree (w₁.step x i) (w₂.step y i) := by
  obtain ⟨e, h₁, h₂⟩ := h.inst
  have hready : w₁.Ready_new_input = w₂.Ready_new_input := by
    rw [Bool.eq_iff_iff]
    exact h₁.ready_eq.trans h₂.ready_eq.symm
  have hvalid : w₁.CTValid = w₂.CTValid := h₁.ctValid_eq.trans h₂.ctValid_eq.symm
  have htext : w₁.CipherText = w₂.CipherText := h₁.cipherText_eq.trans h₂.cipherText_eq.symm
  have hdriven : w₂.CTValid = true → w₂.CipherText.isSome := by
    intro hv
    rw [CipherText, h₂.cipherText_eq, ← h₂.ctValid_eq]
    exact hv
  have hinputs : w₁.inst_inputs = w₂.inst_inputs := by
    rw [inst_inputs, inst_inputs, h.in_data, h.Load_Key, h.Load_Data]
  constructor
  case inst => exact ⟨_, h₁.step x w₁.inst_inputs, hinputs ▸ h₂.step y w₂.inst_inputs⟩
  case temp_result =>
    simp only [wrapper_finalv2.step, posedge_clk, always, hvalid, htext, h.temp_result]
    split
    · rfl
    · split
      next hv =>
        obtain ⟨C, hC⟩ := Option.isSome_iff_exists.1 (hdriven hv)
        rw [hC]
        rfl
      next => rfl
  case oData =>
    simp only [wrapper_finalv2.step, posedge_clk, always, read_word, h.in_data, h.temp_result, h.tmp_valid, hready,
      h.oData]
  all_goals simp only [wrapper_finalv2.step, posedge_clk, always, h.in_data, h.reset_flag, h.tmp_valid, hvalid]

theorem Agree.event {w₁ w₂ : wrapper_finalv2} (h : Agree w₁ w₂) (x y : BitVec 128) (ev : Event) :
    Agree (event x ev w₁) (event y ev w₂) := by
  rcases ev with ⟨_ | _, i⟩ | i
  · exact agree_reset (.posedge (w₁.inst.muxout x)) (.posedge (w₂.inst.muxout y))
  · exact h.step x y i
  · exact agree_reset w₁.inst.ins_SBox w₂.inst.ins_SBox

/-- From any two states: after a reset, the same events give the same `oData`. -/
theorem reset_erases (x y : BitVec 128) (w₁ w₂ : wrapper_finalv2) (i₁ i₂ : Inputs) (trace : ℕ → Event) (n : ℕ) :
    (run (event x) (w₁.negedge_reset x i₁) trace n).oData = (run (event y) (w₂.negedge_reset y i₂) trace n).oData := by
  have hs (ev ev' : Event) (u v : wrapper_finalv2) (hev : ev = ev') (h : Agree u v) :
      Agree (event x ev u) (event y ev' v) := hev ▸ h.event x y ev
  have h0 : Agree (w₁.negedge_reset x i₁) (w₂.negedge_reset y i₂) := agree_reset w₁.inst.ins_SBox w₂.inst.ins_SBox
  exact (run_rel Agree Eq h0 hs (fun n => (rfl : trace n = trace n)) n).oData

/-! ## What the data cannot change -/

/-- The bus in two cycles that differ in `iData` at most. -/
structure SameControl (i j : Inputs) : Prop where
  iChipSelect_n : i.iChipSelect_n = j.iChipSelect_n
  iWrite_n : i.iWrite_n = j.iWrite_n
  iRead_n : i.iRead_n = j.iRead_n
  iAddress : i.iAddress = j.iAddress

/-- The same pulses, flags and controllers. -/
structure Lockstep (w₁ w₂ : wrapper_finalv2) : Prop where
  Load_Data : w₁.Load_Data = w₂.Load_Data
  Load_Key : w₁.Load_Key = w₂.Load_Key
  tmp_valid : w₁.tmp_valid = w₂.tmp_valid
  reset_flag : w₁.reset_flag = w₂.reset_flag
  system : w₁.inst.ins_systemcontroller = w₂.inst.ins_systemcontroller
  keyController : w₁.inst.ins_KeyLogic.controller = w₂.inst.ins_KeyLogic.controller
  coreController : w₁.inst.ins_ProcessingCore.controller = w₂.inst.ins_ProcessingCore.controller

theorem Lockstep.ready {w₁ w₂ : wrapper_finalv2} (h : Lockstep w₁ w₂) : w₁.Ready_new_input = w₂.Ready_new_input :=
  congrArg SystemController.Ready_new_input h.system

theorem Lockstep.valid {w₁ w₂ : wrapper_finalv2} (h : Lockstep w₁ w₂) : w₁.CTValid = w₂.CTValid :=
  congrArg ProcessingCoreController.done h.coreController

/-- `new_key`, which compares the key with the data, goes nowhere. -/
theorem posedge_new_key (rst : Bool) (i : SystemController.Inputs) (b : Bool) (c : SystemController) :
    c.posedge rst { i with new_key := b } = c.posedge rst i := rfl

theorem Lockstep.step {w₁ w₂ : wrapper_finalv2} (h : Lockstep w₁ w₂) (x y : BitVec 128) {i j : Inputs}
    (hij : SameControl i j) : Lockstep (w₁.step x i) (w₂.step y j) := by
  have hwrite : i.write = j.write := by rw [Inputs.write, Inputs.write, hij.iChipSelect_n, hij.iWrite_n]
  have hvalid := h.valid
  have hdone : w₁.inst.keyex_done = w₂.inst.keyex_done := congrArg KeyLogicController.expansion_done h.keyController
  have hstartKey : w₁.inst.keylogic_start = w₂.inst.keylogic_start := congrArg SystemController.KeyLogicStart h.system
  have hstartCore : w₁.inst.pcore_start = w₂.inst.pcore_start := congrArg SystemController.PCoreStart h.system
  constructor
  case system =>
    change w₁.inst.ins_systemcontroller.posedge false
        ⟨w₁.inst.keyex_done, w₁.CTValid, w₁.inst.newkey w₁.inst_inputs, w₁.Load_Data, w₁.Load_Key⟩ =
      w₂.inst.ins_systemcontroller.posedge false
        ⟨w₂.inst.keyex_done, w₂.CTValid, w₂.inst.newkey w₂.inst_inputs, w₂.Load_Data, w₂.Load_Key⟩
    rw [h.system, hdone, hvalid, h.Load_Data, h.Load_Key]
    exact (posedge_new_key false _ _ _).symm
  case keyController =>
    change w₁.inst.ins_KeyLogic.controller.posedge false w₁.inst.keylogic_start =
      w₂.inst.ins_KeyLogic.controller.posedge false w₂.inst.keylogic_start
    rw [h.keyController, hstartKey]
  case coreController =>
    change w₁.inst.ins_ProcessingCore.controller.posedge false w₁.inst.pcore_start =
      w₂.inst.ins_ProcessingCore.controller.posedge false w₂.inst.pcore_start
    rw [h.coreController, hstartCore]
  all_goals simp only [wrapper_finalv2.step, posedge_clk, always, hwrite, hij.iAddress, hvalid, h.reset_flag, h.tmp_valid]

theorem lockstep_reset (rom₁ rom₂ : S_box) : Lockstep (reset rom₁) (reset rom₂) :=
  ⟨rfl, rfl, rfl, rfl, rfl, rfl, rfl⟩

/-- In two runs from reset on buses that differ in `iData` only, the handshake and what reads of
addresses 10 and 15 return are the same in every cycle. -/
theorem handshake_public (x y : BitVec 128) (rom₁ rom₂ : S_box) (bus₁ bus₂ : ℕ → Inputs)
    (hbus : ∀ n, SameControl (bus₁ n) (bus₂ n)) (n : ℕ) :
    let w₁ := run (step x) (reset rom₁) bus₁
    let w₂ := run (step y) (reset rom₂) bus₂
    (w₁ n).Ready_new_input = (w₂ n).Ready_new_input ∧ (w₁ n).CTValid = (w₂ n).CTValid ∧
      (w₁ n).tmp_valid = (w₂ n).tmp_valid ∧
      ((bus₁ n).read = true → (bus₁ n).iAddress = 10#4 ∨ (bus₁ n).iAddress = 15#4 →
        (w₁ (n + 1)).oData = (w₂ (n + 1)).oData) := by
  intro w₁ w₂
  have h := run_rel Lockstep SameControl (lockstep_reset rom₁ rom₂) (fun i j u v hij h => h.step x y hij) hbus n
  refine ⟨h.ready, h.valid, h.tmp_valid, fun hread haddr => ?_⟩
  have hread₂ : (bus₂ n).read = true := by
    rw [← hread, Inputs.read, Inputs.read, (hbus n).iChipSelect_n, (hbus n).iRead_n]
  have hdata : (w₁ n).read_word (bus₁ n).iAddress = (w₂ n).read_word (bus₁ n).iAddress := by
    rcases haddr with ha | ha
    · simp only [ha, read_word, h.tmp_valid, w₁, w₂]
    · simp only [ha, read_word, h.ready, w₁, w₂]
  change (if (bus₁ n).read = true then _ else _) = if (bus₂ n).read = true then _ else _
  rw [if_pos hread, if_pos hread₂, hdata, (hbus n).iAddress]

/-- Loads the key 5, writes the word `d` over it and loads that in cycle 26; the other cycles read address 15. -/
def reload (d : BitVec 32) (n : ℕ) : Inputs :=
  let a := if n = 0 ∨ n = 2 then 3#4 else if n = 1 ∨ n = 26 then 5#4 else 15#4
  ⟨false, a == 15#4, a != 15#4, a, if n = 2 then d else 5#32⟩

/-- The same key loaded again, and another key. -/
theorem handshake_public_reload :
    let w₁ := run (step 0#128) (reset (.posedge 0#128)) (reload 5#32)
    let w₂ := run (step 1#128) (reset (.posedge 1#128)) (reload 6#32)
    ((w₁ 30).inst.ins_inputinterface.Key = 5#128 ∧ (w₂ 30).inst.ins_inputinterface.Key = 6#128) ∧
      (w₁ 30).Ready_new_input = (w₂ 30).Ready_new_input ∧ (w₁ 30).CTValid = (w₂ 30).CTValid ∧
      (w₁ 30).tmp_valid = (w₂ 30).tmp_valid ∧
      ((reload 5#32 30).read = true → (reload 5#32 30).iAddress = 10#4 ∨ (reload 5#32 30).iAddress = 15#4 →
        (w₁ 31).oData = (w₂ 31).oData) :=
  ⟨by decide +kernel,
    handshake_public 0#128 1#128 _ _ (reload 5#32) (reload 6#32) (fun _ => ⟨rfl, rfl, rfl, rfl⟩) 30⟩

end wrapper_finalv2

end Aes128
