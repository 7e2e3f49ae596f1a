import Aes128.Engine
import Aes128.Stages
/-!
# AES_Top refines the engine

`Refines s e` relates a state of AES_Top to a state of the engine: the three
controllers stand where the phase says, the key registers written so far hold
the round keys, `stateReg` holds the rounds done so far, and in an `update`
cycle the S-box ROM shows the word or the state that was looked up. One clock
of AES_Top is one step of the engine (`Refines.step`).
-/

open Fips197 Clocked Rounds

namespace Aes128

/-! ## The controllers -/

/-- The state register in each phase. -/
def Phase.code : Phase → SystemController.State
  | .idle => .IDLE
  | .keyExpand => .Key_Expand
  | .waitKeyex _ _ => .wait_Keyex
  | .prc => .PCore_Prc
  | .waitPCore _ _ => .wait_PCore

/-- The controller of the key expansion unit. -/
def KeyLogicController.ofUnit : Option (Block × Beat 10) → KeyLogicController
  | none => ⟨.IDLE, 1#4⟩
  | some (_, .lookup r) => ⟨.ROTWORD, BitVec.ofNat 4 (r + 1)⟩
  | some (_, .update r) => ⟨.KEYEXPAND, BitVec.ofNat 4 (r + 1)⟩
  | some (_, .finish) => ⟨.DONE, 11#4⟩

/-- The controller of the encryption unit. Idle, its counter is whatever the last run left. -/
def ProcessingCoreController.Tracks (c : ProcessingCoreController) : Option (Block × Beat 10) → Prop
  | none => c.state = .IDLE
  | some (_, .lookup r) => c = ⟨.PHASE0, BitVec.ofNat 4 (r + 1)⟩
  | some (_, .update r) => c = ⟨.PHASE1, BitVec.ofNat 4 (r + 1)⟩
  | some (_, .finish) => c = ⟨.FINISH, 11#4⟩

theorem toNat_round (r : Fin 10) : (BitVec.ofNat 4 (r.val + 1)).toNat = r + 1 := by
  rw [BitVec.toNat_ofNat, Nat.mod_eq_of_lt (by omega)]

theorem roundCount_eq_ten (r : Fin 10) : BitVec.ofNat 4 (r.val + 1) = 10#4 ↔ r.val + 1 = 10 := by
  revert r
  decide

/-! What the controllers show of the unit. -/

theorem KeyLogicController.ofUnit_idle (u : Option (Block × Beat 10)) : (ofUnit u).state = .IDLE ↔ u = none := by
  rcases u with _ | ⟨K, _ | _ | _⟩ <;> simp [ofUnit]

theorem KeyLogicController.ofUnit_phase (u : Option (Block × Beat 10)) :
    (ofUnit u).phase = true ↔ ∃ K r, u = some (K, .update r) := by
  rcases u with _ | ⟨K, _ | _ | _⟩ <;> simp [ofUnit, phase]

theorem KeyLogicController.ofUnit_round_num (K : Block) (b : Beat 10) :
    (ofUnit (some (K, b))).round_num.toNat = b.round := by
  rcases b with r | r | _
  · exact toNat_round r
  · exact toNat_round r
  · rfl

theorem ProcessingCoreController.Tracks.idle {c : ProcessingCoreController} {u : Option (Block × Beat 10)}
    (h : c.Tracks u) : c.state = .IDLE ↔ u = none := by
  rcases u with _ | ⟨B, _ | _ | _⟩ <;> simp only [Tracks] at h <;> simp [h]

theorem ProcessingCoreController.Tracks.phase_eq {c : ProcessingCoreController} {u : Option (Block × Beat 10)}
    (h : c.Tracks u) : c.phase = true ↔ ∃ B r, u = some (B, .update r) := by
  rcases u with _ | ⟨B, _ | _ | _⟩ <;> simp only [Tracks] at h <;> simp [h, ProcessingCoreController.phase]

theorem KeyLogicController.posedge_ofUnit (start : Option Block) (u : Option (Block × Beat 10)) :
    (ofUnit u).posedge false start.isSome = ofUnit (advance start u) := by
  rcases u with _ | ⟨K, r | r | _⟩
  · cases start <;> rfl
  · rfl
  · fin_cases r <;> rfl
  · rfl

theorem ProcessingCoreController.Tracks.posedge {c : ProcessingCoreController} {u : Option (Block × Beat 10)}
    (h : c.Tracks u) (start : Option Block) : (c.posedge false start.isSome).Tracks (advance start u) := by
  rcases u with _ | ⟨B, r | r | _⟩
  · have hc : c.state = .IDLE := h
    cases start <;> simp [ProcessingCoreController.posedge, next_state, hc, advance, Tracks]
  · have hc : c = _ := h
    subst hc; rfl
  · have hc : c = _ := h
    subst hc; fin_cases r <;> rfl
  · have hc : c = _ := h
    subst hc; rfl

theorem Engine.code_next (e : Engine) (i : AES_Top.Inputs) (n : Bool) :
    SystemController.next_state ⟨e.expanded.isSome, e.output.isSome, n, i.Load_Data, i.Load_Key⟩
      ⟨e.in_loaded, e.key_generated, e.phase.code⟩ = (e.next i).code := by
  have hr : e.resume.code = if e.in_loaded = true then .PCore_Prc else .IDLE := by
    unfold resume
    split <;> rfl
  rcases hp : e.phase with _ | _ | ⟨K, b⟩ | _ | ⟨B, b⟩
  · rw [next_idle hp, apply_ite Phase.code, hr]; rfl
  · rw [next_keyExpand hp]; rfl
  · rw [next_waitKeyex hp, expanded, hp]
    cases b with
    | lookup r => rfl
    | update r => dsimp only [Beat.next]; split <;> rfl
    | finish => exact hr.symm
  · rw [next_prc hp]; rfl
  · rw [next_waitPCore hp, output, hp]
    cases b with
    | lookup r => rfl
    | update r => dsimp only [Beat.next]; split <;> rfl
    | finish => rfl

/-! ## The relation -/

/-- How many key registers hold a key of the schedule shown. -/
def Engine.valid (e : Engine) : ℕ :=
  match e.phase with
  | .waitKeyex _ b => b.round
  | _ => 11

/-- The round keys in the key registers. -/
def Engine.shown (e : Engine) : ℕ → Block :=
  match e.phase with
  | .waitKeyex K _ => roundKey K
  | _ => e.store

/-- The rounds done by beat `b`. -/
def progress (rk : ℕ → Block) (B : Block) : Beat 10 → Block
  | .lookup r => afterRounds rk B r
  | .update r => afterRounds rk B r
  | .finish => rounds rk B

theorem Engine.valid_shown_of_none {e : Engine} (h : keyUnit e.phase = none) : e.valid = 11 ∧ e.shown = e.store := by
  unfold valid shown
  rcases hp : e.phase with _ | _ | ⟨K, b⟩ | _ | ⟨B, b⟩ <;> simp [hp, keyUnit] at h ⊢

theorem Engine.valid_shown {e : Engine} {K : Block} {b : Beat 10} (h : e.phase = .waitKeyex K b) :
    e.valid = b.round ∧ e.shown = roundKey K := by
  simp only [valid, shown, h, and_self]

structure Refines (s : AES_Top) (e : Engine) : Prop where
  system : s.ins_systemcontroller = ⟨e.in_loaded, e.key_generated, e.phase.code⟩
  inputs : s.ins_inputinterface = ⟨e.Key, e.Data⟩
  keyController : s.ins_KeyLogic.controller = .ofUnit (Engine.keyUnit e.phase)
  coreController : s.ins_ProcessingCore.controller.Tracks (Engine.coreUnit e.phase)
  keys : ∀ i < e.valid, s.ins_KeyLogic.key_reg[i]? = some (e.shown i)
  state : ∀ B b, e.phase = .waitPCore B b → s.ins_ProcessingCore.stateReg = progress e.store B b
  keyLookup : ∀ K r, e.phase = .waitKeyex K (.update r) →
    s.sbox_out.extractLsb 31 0 = subWord (rotWord (w K (4 * r + 3)))
  coreLookup : ∀ B r, e.phase = .waitPCore B (.update r) →
    s.sbox_out = shiftRows (subBytes (afterRounds e.store B r))

theorem AES_Top.sbox_out_step (x : BitVec 128) (i : AES_Top.Inputs) (s : AES_Top) :
    (s.step x i).sbox_out = subBytes (s.muxout x) := S_box_value _

namespace Refines

variable {s : AES_Top} {e : Engine} (h : Refines s e)
include h

/-! ## The wires -/

theorem keylogic_start_eq : s.keylogic_start = e.keyStart.isSome := by
  simp only [AES_Top.keylogic_start, SystemController.KeyLogicStart, h.system, Engine.keyStart]
  cases e.phase <;> rfl

theorem pcore_start_eq : s.pcore_start = e.coreStart.isSome := by
  simp only [AES_Top.pcore_start, SystemController.PCoreStart, h.system, Engine.coreStart]
  cases e.phase <;> rfl

theorem mode_eq : s.mode = (Engine.keyUnit e.phase).isNone := by
  simp only [AES_Top.mode, SystemController.KeyLogicMode, h.system]
  cases e.phase <;> rfl

theorem ready_eq : s.Ready_new_input = true ↔ e.phase = .idle := by
  simp only [AES_Top.Ready_new_input, SystemController.Ready_new_input, h.system]
  cases e.phase <;> simp [Phase.code]

theorem tempbus_eq : s.tempbus = e.keyStart.or e.coreStart := by
  simp only [AES_Top.tempbus, InputInterface.out_data, h.keylogic_start_eq, h.pcore_start_eq, h.inputs,
    Engine.keyStart, Engine.coreStart]
  cases e.phase <;> rfl

theorem keyex_done_eq : s.keyex_done = e.expanded.isSome := by
  simp only [AES_Top.keyex_done, KeyLogic.expansion_done, KeyLogicController.expansion_done, h.keyController,
    Engine.expanded]
  rcases e.phase with _ | _ | ⟨K, _ | _ | _⟩ | _ | ⟨B, b⟩ <;> rfl

theorem ctValid_eq : s.CTValid = e.output.isSome := by
  have hc := h.coreController
  simp only [AES_Top.CTValid, ProcessingCore.cTValid, ProcessingCoreController.done, Engine.output]
  rcases hp : e.phase with _ | _ | ⟨K, b⟩ | _ | ⟨B, _ | _ | _⟩ <;>
    simp only [hp, Engine.coreUnit, ProcessingCoreController.Tracks] at hc <;> rw [hc] <;> rfl

theorem cipherText_eq : s.CipherText = e.output := by
  have hc := h.ctValid_eq
  simp only [AES_Top.CTValid, ProcessingCore.cTValid] at hc
  simp only [AES_Top.CipherText, ProcessingCore.cipherText, hc]
  rcases ho : e.output with _ | C
  · rfl
  · obtain ⟨B, hB, hC⟩ := Engine.output_eq.1 ho
    rw [h.state B .finish hB, progress, hC]
    rfl

/-! The same, by phase. -/

theorem keylogic_start_iff : s.keylogic_start = true ↔ e.phase = .keyExpand := by
  rw [h.keylogic_start_eq, Engine.keyStart]
  cases e.phase <;> simp

theorem pcore_start_iff : s.pcore_start = true ↔ e.phase = .prc := by
  rw [h.pcore_start_eq, Engine.coreStart]
  cases e.phase <;> simp

theorem keyex_done_iff : s.keyex_done = true ↔ ∃ K, e.phase = .waitKeyex K .finish := by
  rw [h.keyex_done_eq, Option.isSome_iff_exists]
  simp only [Engine.expanded_eq]

theorem ctValid_iff : s.CTValid = true ↔ ∃ B, e.phase = .waitPCore B .finish := by
  rw [h.ctValid_eq, Option.isSome_iff_exists]
  simp only [Engine.output_eq]
  exact ⟨fun ⟨_, B, hB, _⟩ => ⟨B, hB⟩, fun ⟨B, hB⟩ => ⟨_, B, hB, rfl⟩⟩

/-! ## One clock -/

theorem system_step (x : BitVec 128) (i : AES_Top.Inputs) :
    (s.step x i).ins_systemcontroller = ⟨(e.step i).in_loaded, (e.step i).key_generated, (e.step i).phase.code⟩ := by
  change SystemController.posedge false ⟨s.keyex_done, s.CTValid, s.newkey i, i.Load_Data, i.Load_Key⟩
    s.ins_systemcontroller = _
  rw [h.keyex_done_eq, h.ctValid_eq, h.system, SystemController.posedge, Engine.code_next]
  have hl : (if e.phase.code = .PCore_Prc then false else if i.Load_Data then true else e.in_loaded) =
      (e.step i).in_loaded := by
    simp only [Engine.step]
    rcases e.phase <;> cases i.Load_Data <;> rfl
  have hg : (if e.phase.code = .wait_Keyex && e.expanded.isSome then true else e.key_generated) =
      (e.step i).key_generated := by
    rcases hp : e.phase with _ | _ | ⟨K, _ | _ | _⟩ | _ | ⟨B, b⟩ <;> simp [Engine.step, Engine.expanded, hp, Phase.code]
  rw [hl, hg]
  rfl

theorem inputs_step (x : BitVec 128) (i : AES_Top.Inputs) :
    (s.step x i).ins_inputinterface = ⟨(e.step i).Key, (e.step i).Data⟩ := by
  change InputInterface.posedge false i.in_data i.Load_Key i.Load_Data s.ins_inputinterface = _
  rw [h.inputs, InputInterface.posedge]
  simp only [Engine.step]
  cases i.Load_Key <;> cases i.Load_Data <;> rfl

theorem keyController_step (x : BitVec 128) (i : AES_Top.Inputs) :
    (s.step x i).ins_KeyLogic.controller = .ofUnit (Engine.keyUnit (e.step i).phase) := by
  change s.ins_KeyLogic.controller.posedge false s.keylogic_start = _
  rw [h.keyController, h.keylogic_start_eq, KeyLogicController.posedge_ofUnit, Engine.keyUnit_step]

theorem coreController_step (x : BitVec 128) (i : AES_Top.Inputs) :
    (s.step x i).ins_ProcessingCore.controller.Tracks (Engine.coreUnit (e.step i).phase) := by
  change (s.ins_ProcessingCore.controller.posedge false s.pcore_start).Tracks _
  rw [h.pcore_start_eq, Engine.coreUnit_step]
  exact h.coreController.posedge _

/-! ## The key store -/

theorem prev_key_eq {K : Block} {b : Beat 10} (hp : e.phase = .waitKeyex K b) {r : Fin 10} (hr : b.round = r + 1)
    (hn : s.ins_KeyLogic.controller.round_num = BitVec.ofNat 4 (r + 1)) :
    s.ins_KeyLogic.prev_key = some (roundKey K r) := by
  have hi : (BitVec.setWidth 32 (BitVec.ofNat 4 (r.val + 1)) - 1#32).toNat = r := by
    clear hr hn
    fin_cases r <;> rfl
  have hk := h.keys r (by simp only [Engine.valid, hp, hr]; omega)
  simp only [Engine.shown, hp] at hk
  rw [KeyLogic.prev_key, hn, hi, hk]

/-- What a clock writes to the key registers. -/
theorem key_reg_step (x : BitVec 128) (i : AES_Top.Inputs) :
    (s.step x i).ins_KeyLogic.key_reg = match e.phase with
      | .keyExpand => s.ins_KeyLogic.key_reg.setIfInBounds 0 e.Key
      | .waitKeyex K (.update r) => s.ins_KeyLogic.key_reg.setIfInBounds (r + 1) (roundKey K (r + 1))
      | _ => s.ins_KeyLogic.key_reg := by
  have hc := h.keyController
  change (s.ins_KeyLogic.posedge x false s.keylogic_start s.tempbus s.sbox_out).key_reg = _
  rw [KeyLogic.posedge, h.keylogic_start_eq, h.tempbus_eq, Engine.keyStart]
  rcases hp : e.phase with _ | _ | ⟨K, r | r | _⟩ | _ | ⟨B, b⟩ <;>
    simp only [hp, Engine.keyUnit, KeyLogicController.ofUnit] at hc
  case waitKeyex.update =>
    have hprev := prev_key_eq h hp rfl (by rw [hc])
    simp [-BitVec.toNat_ofNat, KeyLogic.new_round_key_comb, KeyLogicController.phase, hc, toNat_round, hprev,
      new_round_key_eq K r _ (h.keyLookup K r hp)]
  all_goals simp [KeyLogicController.phase, hc]

theorem keys_step (x : BitVec 128) (i : AES_Top.Inputs) :
    ∀ j < (e.step i).valid, (s.step x i).ins_KeyLogic.key_reg[j]? = some ((e.step i).shown j) := by
  have hk := h.keys
  have hu := Engine.keyUnit_step i e
  rw [key_reg_step h]
  rcases hp : e.phase with _ | _ | ⟨K, b⟩ | _ | ⟨B, b⟩
  case keyExpand =>
    obtain ⟨hv, hs⟩ := Engine.valid_shown (e := e.step i) (Engine.next_keyExpand hp i)
    intro j hj
    rw [hv, Beat.round] at hj
    rw [hs, show j = 0 by simpa using hj, Vector.getElem?_setIfInBounds, if_pos rfl, if_pos (by decide), roundKey_zero]
  case waitKeyex =>
    obtain ⟨hv, hs⟩ := Engine.valid_shown hp
    rw [hv, hs] at hk
    cases b with
    | lookup r =>
      obtain ⟨hv', hs'⟩ := Engine.valid_shown (e := e.step i) (Engine.next_waitKeyex hp i)
      rw [hv', hs']
      exact hk
    | update r =>
      obtain ⟨c, hc, hr⟩ := Beat.next_update r
      obtain ⟨hv', hs'⟩ := Engine.valid_shown (e := e.step i) (K := K) (b := c)
        ((Engine.next_waitKeyex hp i).trans (by rw [hc]; rfl))
      intro j hj
      rw [hv', hr] at hj
      rw [hs', Vector.getElem?_setIfInBounds]
      rcases Nat.lt_succ_iff_lt_or_eq.1 hj with hj | rfl
      · rw [if_neg (by omega)]
        exact hk j hj
      · rw [if_pos rfl, if_pos (by omega)]
    | finish =>
      have hst : (e.step i).store = roundKey K := by simp only [Engine.step, Engine.expanded, hp, Option.elim]
      obtain ⟨hv', hs'⟩ := Engine.valid_shown_of_none (e := e.step i) (by rw [hu, Engine.keyStart, hp]; rfl)
      rw [hv', hs', hst]
      exact hk
  all_goals
    have hst : (e.step i).store = e.store := by simp only [Engine.step, Engine.expanded, hp, Option.elim]
    obtain ⟨hv, hs⟩ := Engine.valid_shown_of_none (e := e) (by rw [hp]; rfl)
    obtain ⟨hv', hs'⟩ := Engine.valid_shown_of_none (e := e.step i) (by rw [hu, Engine.keyStart, hp]; rfl)
    rw [hv, hs] at hk
    rw [hv', hs', hst]
    exact hk

/-! ## The encryption -/

theorem roundkey_eq {B : Block} {r : Fin 10} (hp : e.phase = .waitPCore B (.update r)) :
    s.roundkey_keylogic_to_pcore = some (e.store (r + 1)) := by
  have hc := h.coreController
  simp only [hp, Engine.coreUnit, ProcessingCoreController.Tracks] at hc
  obtain ⟨hv, hs⟩ := Engine.valid_shown_of_none (e := e) (by rw [hp]; rfl)
  have hk := h.keys (r + 1) (by rw [hv]; omega)
  rw [AES_Top.roundkey_keylogic_to_pcore, KeyLogic.round_key, h.mode_eq, hp, AES_Top.roundcount_pcore_to_keylogic,
    ProcessingCore.roundCount_to_KeyLogic, ProcessingCoreController.roundCount, hc, toNat_round, hk, hs]
  rfl

/-- What a clock writes to `stateReg`. -/
theorem stateReg_step (x : BitVec 128) (i : AES_Top.Inputs) :
    (s.step x i).ins_ProcessingCore.stateReg = match e.phase with
      | .prc => e.Data ^^^ e.Key
      | .waitPCore B (.update r) =>
        if r.val + 1 = 10 then rounds e.store B else afterRounds e.store B (r + 1)
      | _ => s.ins_ProcessingCore.stateReg := by
  have hc := h.coreController
  change (s.ins_ProcessingCore.posedge x false s.pcore_start s.tempbus s.roundkey_keylogic_to_pcore s.sbox_out).stateReg = _
  rw [ProcessingCore.posedge, h.pcore_start_eq, h.tempbus_eq, Engine.coreStart, Engine.keyStart]
  rcases hp : e.phase with _ | _ | ⟨K, b⟩ | _ | ⟨B, r | r | _⟩ <;>
    simp only [hp, Engine.coreUnit, ProcessingCoreController.Tracks] at hc
  case waitPCore.update =>
    rw [h.roundkey_eq hp, h.coreLookup B r hp]
    simp only [ProcessingCoreController.phase, ProcessingCoreController.roundCount, hc, ProcessingCore.mixAdd_out,
      Option.map_some, Option.getD_some, out_state_eq, roundCount_eq_ten, Option.isSome_none, Bool.false_eq_true,
      if_false, decide_true, if_true]
    split
    next hr => rw [rounds_eq, hr, show r.val = 9 by omega]; rfl
    next => rfl
  all_goals simp [ProcessingCoreController.phase, hc]

theorem state_step (x : BitVec 128) (i : AES_Top.Inputs) (B : Block) (b : Beat 10)
    (hb : (e.step i).phase = .waitPCore B b) :
    (s.step x i).ins_ProcessingCore.stateReg = progress (e.step i).store B b := by
  have hu := (Engine.coreUnit_step i e).symm.trans (Engine.coreUnit_eq.2 hb)
  rw [stateReg_step h]
  rcases hc : Engine.coreUnit e.phase with _ | ⟨B', c⟩
  · rw [hc, advance, Option.map_eq_some_iff] at hu
    obtain ⟨_, hs, ⟨⟩⟩ := hu
    obtain ⟨hp, rfl⟩ := Engine.coreStart_eq.1 hs
    rw [hp]
    rfl
  · rw [hc, advance, Option.map_eq_some_iff] at hu
    obtain ⟨_, hn, ⟨⟩⟩ := hu
    have hp := Engine.coreUnit_eq.1 hc
    have hst : (e.step i).store = e.store := by
      rw [Engine.step, Engine.expanded_eq_none (.inr ⟨_, _, hp⟩), Option.elim]
    rw [hst, hp]
    cases c with
    | lookup r =>
      cases hn
      exact h.state B (.lookup r) hp
    | update r =>
      simp only [Beat.next] at hn
      split at hn <;> cases hn
      · exact if_neg (by omega)
      · exact if_pos (by omega)
    | finish => cases hn

/-! ## The S-box -/

theorem keyLookup_step (x : BitVec 128) (i : AES_Top.Inputs) (K : Block) (r : Fin 10)
    (hr : (e.step i).phase = .waitKeyex K (.update r)) :
    (s.step x i).sbox_out.extractLsb 31 0 = subWord (rotWord (w K (4 * r + 3))) := by
  have hp := Engine.lookup_of_keyUpdate hr
  have hc := h.keyController
  rw [hp] at hc
  obtain ⟨-, -, -, hw⟩ := roundKey_words K r
  rw [AES_Top.sbox_out_step, AES_Top.muxout, mux_2to1_128bit, h.mode_eq, hp, AES_Top.mux0, KeyLogic.rotword_out,
    prev_key_eq h hp rfl (by rw [hc]; rfl), Option.getD_some, hw, RotWord_eq]
  exact subBytes_word _

theorem coreLookup_step (x : BitVec 128) (i : AES_Top.Inputs) (B : Block) (r : Fin 10)
    (hr : (e.step i).phase = .waitPCore B (.update r)) :
    (s.step x i).sbox_out = shiftRows (subBytes (afterRounds (e.step i).store B r)) := by
  have hp := Engine.lookup_of_coreUpdate hr
  have hst : (e.step i).store = e.store := by
    rw [Engine.step, Engine.expanded_eq_none (.inr ⟨_, _, hp⟩), Option.elim]
  rw [AES_Top.sbox_out_step, AES_Top.muxout, mux_2to1_128bit, h.mode_eq, hp, AES_Top.mux1, ProcessingCore.shift_out,
    h.state B _ hp, ShiftRow_eq, hst, ← subBytes_shiftRows]
  rfl

/-- One clock of AES_Top is one step of the engine. -/
theorem step (x : BitVec 128) (i : AES_Top.Inputs) : Refines (s.step x i) (e.step i) where
  system := h.system_step x i
  inputs := h.inputs_step x i
  keyController := h.keyController_step x i
  coreController := h.coreController_step x i
  keys := h.keys_step x i
  state := h.state_step x i
  keyLookup := h.keyLookup_step x i
  coreLookup := h.coreLookup_step x i

theorem run (x : BitVec 128) (ins : ℕ → AES_Top.Inputs) (n : ℕ) :
    Refines (Clocked.run (AES_Top.step x) s ins n) (Clocked.run Engine.step e ins n) :=
  run_rel Refines Eq h (fun i _ _ _ hi h => hi ▸ h.step x i) (fun _ => rfl) n

end Refines

/-! ## From reset -/

theorem refines_reset (rom : S_box) : Refines (.reset rom) .init where
  system := rfl
  inputs := rfl
  keyController := rfl
  coreController := rfl
  keys := fun i hi => Vector.getElem?_replicate_of_lt (n := 11) hi
  state := by rintro B b ⟨⟩
  keyLookup := by rintro K r ⟨⟩
  coreLookup := by rintro B r ⟨⟩

theorem AES_Top.Reachable.refines {x : BitVec 128} {s : AES_Top} (h : s.Reachable x) : ∃ e, Refines s e := by
  induction h with
  | init h =>
    obtain ⟨rom, rfl⟩ := h
    exact ⟨_, refines_reset rom⟩
  | step i _ ih =>
    obtain ⟨e, he⟩ := ih
    exact ⟨_, he.step x i⟩

/-- The engine of a run. -/
theorem AES_Top.Reachable.exists_engine {x : BitVec 128} {s : AES_Top} (h : s.Reachable x) (ins : ℕ → Inputs) :
    ∃ e : ℕ → Engine, IsRun Engine.step ins e ∧ ∀ n, Refines (run (step x) s ins n) (e n) := by
  obtain ⟨e, he⟩ := h.refines
  exact ⟨_, isRun_run e ins, he.run x ins⟩

theorem exists_engine_reset (x : BitVec 128) (rom : S_box) (ins : ℕ → AES_Top.Inputs) :
    ∃ e : ℕ → Engine, e 0 = .init ∧ IsRun Engine.step ins e ∧
      ∀ n, Refines (run (AES_Top.step x) (.reset rom) ins n) (e n) :=
  ⟨_, rfl, isRun_run _ ins, (refines_reset rom).run x ins⟩

end Aes128
