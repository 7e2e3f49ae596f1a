import Aes128.Refine
import Aes128.Wrapper
/-!
# Invariants of the reachable states

The interlock of the three controllers, and what the key registers hold. Both
are read off the refinement: a reachable state refines some state of the engine.
-/

open Fips197 Clocked Rounds

namespace Aes128

/-! ## The interlock -/

structure Interlock (x : BitVec 128) (s : AES_Top) : Prop where
  used : s.ins_systemcontroller.state ∈
    [.IDLE, .Key_Expand, .wait_Keyex, .PCore_Prc, .wait_PCore]
  keyActive : s.ins_KeyLogic.controller.state ≠ .IDLE ↔ s.ins_systemcontroller.state = .wait_Keyex
  coreActive : s.ins_ProcessingCore.controller.state ≠ .IDLE ↔ s.ins_systemcontroller.state = .wait_PCore
  exclusive : s.ins_KeyLogic.controller.state = .IDLE ∨ s.ins_ProcessingCore.controller.state = .IDLE
  startIdle : s.keylogic_start = true ∨ s.pcore_start = true →
    s.ins_KeyLogic.controller.state = .IDLE ∧ s.ins_ProcessingCore.controller.state = .IDLE
  routeKey : s.ins_KeyLogic.controller.state ≠ .IDLE → s.muxout x = s.mux0 x
  routeCore : s.ins_ProcessingCore.controller.state ≠ .IDLE → s.muxout x = s.mux1
  round_num : s.ins_KeyLogic.controller.round_num.toNat ∈ Set.Icc 1 11
  roundWrite : s.ins_KeyLogic.controller.phase = true → s.ins_KeyLogic.controller.round_num.toNat ∈ Set.Icc 1 10
  roundRead : s.ins_ProcessingCore.controller.phase = true →
    s.ins_ProcessingCore.controller.roundCount.toNat ∈ Set.Icc 1 10
  /-- The buses that `key_reg[0]`, `key_reg[r]`, `stateReg` and `temp_result` capture. -/
  drivenKey : s.keylogic_start = true → s.tempbus.isSome
  drivenPrev : s.ins_KeyLogic.controller.phase = true → s.ins_KeyLogic.prev_key.isSome
  drivenBlock : s.pcore_start = true → s.tempbus.isSome
  drivenRound : s.ins_ProcessingCore.controller.phase = true → s.roundkey_keylogic_to_pcore.isSome
  drivenResult : s.CTValid = true → s.CipherText.isSome

theorem Refines.interlock {s : AES_Top} {e : Engine} (h : Refines s e) (x : BitVec 128) : Interlock x s := by
  have hk : s.ins_KeyLogic.controller.state = .IDLE ↔ Engine.keyUnit e.phase = none := by
    rw [h.keyController, KeyLogicController.ofUnit_idle]
  have hc := h.coreController.idle
  have hkp : s.ins_KeyLogic.controller.phase = true ↔ ∃ K r, e.phase = .waitKeyex K (.update r) := by
    simp only [h.keyController, KeyLogicController.ofUnit_phase, Engine.keyUnit_eq]
  have hcp : s.ins_ProcessingCore.controller.phase = true ↔ ∃ B r, e.phase = .waitPCore B (.update r) := by
    simp only [h.coreController.phase_eq, Engine.coreUnit_eq]
  constructor
  case used => rw [h.system]; cases e.phase <;> simp [Phase.code]
  case keyActive => rw [ne_eq, hk, h.system]; cases e.phase <;> simp [Phase.code, Engine.keyUnit]
  case coreActive => rw [ne_eq, hc, h.system]; cases e.phase <;> simp [Phase.code, Engine.coreUnit]
  case exclusive => rw [hk, hc]; cases e.phase <;> simp [Engine.keyUnit, Engine.coreUnit]
  case startIdle =>
    rw [h.keylogic_start_eq, h.pcore_start_eq, hk, hc, Engine.keyStart, Engine.coreStart]
    cases e.phase <;> simp [Engine.keyUnit, Engine.coreUnit]
  case routeKey =>
    rw [ne_eq, hk, AES_Top.muxout, mux_2to1_128bit, h.mode_eq]
    cases e.phase <;> simp [Engine.keyUnit]
  case routeCore =>
    rw [ne_eq, hc, AES_Top.muxout, mux_2to1_128bit, h.mode_eq]
    cases e.phase <;> simp [Engine.keyUnit, Engine.coreUnit]
  case round_num =>
    rw [h.keyController]
    rcases Engine.keyUnit e.phase with _ | ⟨K, b⟩
    · exact ⟨Nat.le_refl 1, by decide⟩
    · rw [KeyLogicController.ofUnit_round_num]
      exact b.round_mem
  case roundWrite =>
    rw [hkp]
    rintro ⟨K, r, hp⟩
    rw [h.keyController, hp, Engine.keyUnit, KeyLogicController.ofUnit_round_num]
    exact ⟨Nat.le_add_left 1 r, r.isLt⟩
  case roundRead =>
    rw [hcp]
    rintro ⟨B, r, hp⟩
    have ht := h.coreController
    rw [hp] at ht
    rw [show s.ins_ProcessingCore.controller = _ from ht, ProcessingCoreController.roundCount, toNat_round]
    exact ⟨Nat.le_add_left 1 r, r.isLt⟩
  case drivenKey =>
    rw [h.keylogic_start_eq, h.tempbus_eq]
    cases e.keyStart <;> simp
  case drivenPrev =>
    rw [hkp]
    rintro ⟨K, r, hp⟩
    rw [h.prev_key_eq hp rfl (by rw [h.keyController, hp]; rfl)]
    rfl
  case drivenBlock =>
    rw [h.pcore_start_eq, h.tempbus_eq]
    cases e.keyStart <;> cases e.coreStart <;> simp
  case drivenRound =>
    rw [hcp]
    rintro ⟨B, r, hp⟩
    rw [h.roundkey_eq hp]
    rfl
  case drivenResult =>
    rw [h.ctValid_eq, h.cipherText_eq]
    exact id

/-- The interlock holds in every reachable state of AES_Top, and of the wrapper around it. -/
theorem reachable_interlock (x : BitVec 128) :
    (∀ s : AES_Top, s.Reachable x → Interlock x s) ∧
      ∀ w : wrapper_finalv2, w.Reachable x → Interlock x w.inst ∧ (w.CTValid = true → w.CipherText.isSome) := by
  have hs (s : AES_Top) (h : s.Reachable x) : Interlock x s := by
    obtain ⟨e, he⟩ := h.refines
    exact he.interlock x
  exact ⟨hs, fun w h => ⟨hs w.inst h.inst, (hs w.inst h.inst).drivenResult⟩⟩

/-- In the first cycle of an expansion. -/
theorem reachable_interlock_expanding :
    Interlock 0#128 (.step 0#128 ⟨0#128, false, true⟩ (.step 0#128 ⟨1#128, true, false⟩
      (.reset (.posedge 0#128)))) :=
  (reachable_interlock 0#128).1 _ (.step _ (.step _ (.init ⟨_, rfl⟩)))

/-! ## The key store -/

section KeyStore
variable {ins : ℕ → AES_Top.Inputs} {s : ℕ → AES_Top} {e : ℕ → Engine} (he : ∀ n, Refines (s n) (e n))
  (h : IsRun Engine.step ins e)

include he h in
/-- An idle key store that has been filled holds the schedule of its first key. -/
theorem filled_schedule {m n : ℕ} (hmn : m < n) (hm : (s m).keyex_done = true)
    (hidle : (s n).ins_KeyLogic.controller.state = .IDLE) :
    ∃ K, (s n).ins_KeyLogic.key_reg[0]? = some K ∧
      ∀ i < 11, (s n).ins_KeyLogic.key_reg[i]? = some (roundKey K i) := by
  rw [(he n).keyController, KeyLogicController.ofUnit_idle] at hidle
  rw [(he m).keyex_done_eq] at hm
  obtain ⟨K, hK⟩ := Engine.scheduled h hmn hm
  obtain ⟨hv, hs⟩ := Engine.valid_shown_of_none hidle
  have hk := (he n).keys
  rw [hv, hs, hK] at hk
  exact ⟨K, by rw [hk 0 (by decide), roundKey_zero], hk⟩

include he h in
/-- A store being filled holds the part of the schedule of the key it was started with. -/
theorem partial_schedule (h0 : Engine.keyUnit (e 0).phase = none) {n : ℕ}
    (hbusy : (s n).ins_KeyLogic.controller.state ≠ .IDLE) :
    ∃ t, IsLast (fun j => (s j).keylogic_start = true) t n ∧
      ∀ i < (s n).ins_KeyLogic.controller.round_num.toNat,
        (s n).ins_KeyLogic.key_reg[i]? = some (roundKey (s t).ins_inputinterface.Key i) := by
  rw [(he n).keyController, ne_eq, KeyLogicController.ofUnit_idle] at hbusy
  obtain ⟨⟨K, b⟩, hu⟩ := Option.ne_none_iff_exists'.1 hbusy
  have hp := Engine.keyUnit_eq.1 hu
  obtain ⟨t, ht, hx, hK, hbetween⟩ := Engine.expansion_ago h h0 hp
  obtain ⟨hv, hs⟩ := Engine.valid_shown hp
  refine ⟨t, ⟨?_, ?_, ?_⟩, ?_⟩
  · have := b.elapsed_pos
    omega
  · exact (he t).keylogic_start_iff.2 hx
  · intro j hj hjn hstart
    obtain ⟨c, hc⟩ := hbetween j hj hjn.le
    have hp := (he j).keylogic_start_iff.1 hstart
    rw [hc] at hp
    cases hp
  · intro i hi
    rw [(he n).keyController, hu, KeyLogicController.ofUnit_round_num, ← hv] at hi
    rw [(he n).keys i hi, hs, (he t).inputs, hK]

include he h in
/-- Filling the store takes 21 cycles. -/
theorem expansion_length {n : ℕ} (hstart : (s n).keylogic_start = true) :
    (s (n + 21)).keyex_done = true ∧ ∀ j, n < j → j < n + 21 → (s j).keyex_done = false := by
  obtain ⟨hf, hbetween⟩ := Engine.expansion_ahead h ((he n).keylogic_start_iff.1 hstart)
  refine ⟨(he _).keyex_done_iff.2 ⟨_, hf⟩, fun j hj hjn => ?_⟩
  rw [← Bool.not_eq_true, (he j).keyex_done_iff]
  rintro ⟨K, hK⟩
  obtain ⟨b, hb, hne⟩ := hbetween j hj hjn
  rw [hb] at hK
  cases hK
  exact hne rfl

end KeyStore

/-- In every run from reset: an idle key store that has been filled holds the schedule of its
first key, a store being filled holds the part of the schedule of the key it was started with,
and filling it takes 21 cycles. -/
theorem key_store (x : BitVec 128) (rom : S_box) (ins : ℕ → AES_Top.Inputs) (n : ℕ) :
    let s := run (AES_Top.step x) (.reset rom) ins
    ((s n).ins_KeyLogic.controller.state = .IDLE → (∃ m < n, (s m).keyex_done = true) →
      ∃ K, (s n).ins_KeyLogic.key_reg[0]? = some K ∧
        ∀ i < 11, (s n).ins_KeyLogic.key_reg[i]? = some (roundKey K i)) ∧
    ((s n).ins_KeyLogic.controller.state ≠ .IDLE →
      ∃ t, IsLast (fun j => (s j).keylogic_start = true) t n ∧
        ∀ i < (s n).ins_KeyLogic.controller.round_num.toNat,
          (s n).ins_KeyLogic.key_reg[i]? = some (roundKey (s t).ins_inputinterface.Key i)) ∧
    ((s n).keylogic_start = true → (s (n + 21)).keyex_done = true ∧
      ∀ j, n < j → j < n + 21 → (s j).keyex_done = false) := by
  intro s
  obtain ⟨e, h0, h, he⟩ := exists_engine_reset x rom ins
  refine ⟨?_, partial_schedule he h (by rw [h0]; rfl), expansion_length he h⟩
  rintro hidle ⟨m, hmn, hm⟩
  exact filled_schedule he h hmn hm hidle

end Aes128
