import Aes128.Counting
import Aes128.Starts
import Aes128.Waits
/-!
# Coming to rest

What happens after the last pulse. The blocks that are owed then, the one that is in
the core and the one that waits, come out and nothing else does; after 44 cycles the
engine is ready and empty, and one cycle later not a bit of it changes any more.
-/

open Fips197 Clocked Rounds Counting Finset

namespace Aes128

namespace Engine

/-! ## What is owed -/

/-- The ciphertexts of the block in the core and of the one that waits. -/
def owed (e : Engine) : ℕ :=
  match e.phase with
  | .prc => 1
  | .waitPCore _ _ => 1 + e.in_loaded.toNat
  | _ => e.in_loaded.toNat

/-- Cycles left at most until nothing is to do. -/
def untilRest (e : Engine) : ℕ :=
  match e.phase with
  | .idle => 23 * e.in_loaded.toNat
  | .waitPCore _ b => 22 - b.elapsed + 23 * e.in_loaded.toNat
  | φ => remaining φ

def Resting (e : Engine) : Prop := e.phase = .idle ∧ e.in_loaded = false

theorem untilRest_le (e : Engine) : e.untilRest ≤ 44 := by
  have hl := Bool.toNat_le e.in_loaded
  rcases hp : e.phase with _ | _ | ⟨K, b⟩ | _ | ⟨B, b⟩ <;> simp only [untilRest, hp]
  case idle => omega
  case waitPCore =>
    have := b.elapsed_pos
    omega
  all_goals exact remaining_le _

section Step
variable {e : Engine} {i : AES_Top.Inputs}

theorem owed_resume {e' : Engine} (hp : e'.phase = e.resume) (hl : e'.in_loaded = e.in_loaded) :
    e'.owed = e.in_loaded.toNat := by
  rcases resume_cases e with ⟨hin, h⟩ | ⟨hin, h⟩
  · simp only [owed, hp, h, hin, Bool.toNat_true]
  · simp only [owed, hp, h, hl]

theorem untilRest_resume {e' : Engine} (hp : e'.phase = e.resume) (hl : e'.in_loaded = e.in_loaded) :
    e'.untilRest = 22 * e.in_loaded.toNat := by
  rcases resume_cases e with ⟨hin, h⟩ | ⟨hin, h⟩
  · simp only [untilRest, hp, h, hin, remaining, Bool.toNat_true]
  · simp only [untilRest, hp, h, hl, hin, Bool.toNat_false]

variable (hk : i.Load_Key = false) (hd : i.Load_Data = false)
include hk hd

theorem owed_step : (e.step i).owed + (if e.output.isSome = true then 1 else 0) = e.owed := by
  have hl (h : e.phase ≠ .prc) : (e.step i).in_loaded = e.in_loaded := by
    rw [step_in_loaded h, hd, Bool.false_or]
  have hnext := step_phase i e
  rcases hp : e.phase with _ | _ | ⟨K, b⟩ | _ | ⟨B, b⟩
  · rw [next_idle hp, hk, if_neg Bool.false_ne_true] at hnext
    rw [owed_resume hnext (hl (by rw [hp]; rintro ⟨⟩))]
    simp only [owed, output, hp]
    rfl
  · rw [next_keyExpand hp] at hnext
    simp only [owed, output, hp, hnext, hl (by rw [hp]; rintro ⟨⟩)]
    rfl
  · have hno : e.output = none := output_eq_none_of_coreUnit (by rw [hp]; rfl)
    rw [next_waitKeyex hp] at hnext
    rcases hb : b.next with _ | c <;> rw [hb] at hnext
    · rw [owed_resume hnext (hl (by rw [hp]; rintro ⟨⟩)), hno]
      simp only [owed, hp]
      rfl
    · simp only [owed, hp, Option.elim] at hnext ⊢
      simp only [hnext, hno, hl (by rw [hp]; rintro ⟨⟩)]
      rfl
  · rw [next_prc hp] at hnext
    simp only [owed, output, hp, hnext, step_in_loaded_prc hp]
    rfl
  · rw [next_waitPCore hp] at hnext
    rcases hb : b.next with _ | c <;> rw [hb] at hnext
    · have hout : e.output.isSome = true := by
        rw [output_eq.2 ⟨B, by rw [hp, Beat.next_eq_none.1 hb], rfl⟩]
        rfl
      simp only [owed, hp, Option.elim] at hnext ⊢
      simp only [hnext, hout, hl (by rw [hp]; rintro ⟨⟩), if_true]
      omega
    · have hno : e.output = none := output_eq_none hp (Beat.ne_finish_of_next hb)
      simp only [owed, hp, Option.elim] at hnext ⊢
      simp only [hnext, hno, hl (by rw [hp]; rintro ⟨⟩)]
      rfl

theorem untilRest_step (h : ¬ e.Resting) : (e.step i).untilRest < e.untilRest := by
  have hl (h : e.phase ≠ .prc) : (e.step i).in_loaded = e.in_loaded := by
    rw [step_in_loaded h, hd, Bool.false_or]
  have hnext := step_phase i e
  rcases hp : e.phase with _ | _ | ⟨K, b⟩ | _ | ⟨B, b⟩
  · have hin : e.in_loaded = true := by
      rw [← Bool.not_eq_false]
      exact fun hin => h ⟨hp, hin⟩
    rw [next_idle hp, hk, if_neg Bool.false_ne_true] at hnext
    rw [untilRest_resume hnext (hl (by rw [hp]; rintro ⟨⟩))]
    simp only [untilRest, hp, hin, Bool.toNat_true]
    omega
  · rw [next_keyExpand hp] at hnext
    simp only [untilRest, hp, hnext, remaining, Beat.elapsed]
    omega
  · have hle := b.elapsed_le
    rw [next_waitKeyex hp] at hnext
    rcases hb : b.next with _ | c <;> rw [hb] at hnext
    · have hlt := Bool.toNat_le e.in_loaded
      rw [untilRest_resume hnext (hl (by rw [hp]; rintro ⟨⟩))]
      simp only [untilRest, hp, remaining]
      omega
    · have := Beat.elapsed_next hb
      simp only [untilRest, hp, hnext, Option.elim, remaining]
      omega
  · rw [next_prc hp] at hnext
    simp only [untilRest, hp, hnext, step_in_loaded_prc hp, remaining, Beat.elapsed, Bool.toNat_false]
    omega
  · have hle := b.elapsed_le
    rw [next_waitPCore hp] at hnext
    rcases hb : b.next with _ | c <;> rw [hb] at hnext
    · simp only [untilRest, hp, hnext, Option.elim, hl (by rw [hp]; rintro ⟨⟩)]
      omega
    · have := Beat.elapsed_next hb
      simp only [untilRest, hp, hnext, Option.elim, hl (by rw [hp]; rintro ⟨⟩)]
      omega

theorem Resting.step (h : e.Resting) : (e.step i).Resting := by
  obtain ⟨hp, hl⟩ := h
  constructor
  · rw [step_phase, next_idle_empty hp hk hl]
  · rw [step_in_loaded (by rw [hp]; rintro ⟨⟩), hd, hl]
    rfl

end Step

section Run
variable {ins : ℕ → AES_Top.Inputs} {e : ℕ → Engine} (h : IsRun step ins e)
  (hquiet : ∀ n, (ins n).Load_Key = false ∧ (ins n).Load_Data = false)

include h hquiet in
theorem resting_run {n : ℕ} (hn : 44 ≤ n) : (e n).Resting := by
  obtain ⟨m, -, hm, -, hrest⟩ := leads_to (P := fun j => (e j).Resting) (Q := fun _ => True)
    (f := fun j => (e j).untilRest) (n := 0) trivial fun j _ _ hj => ⟨trivial, by
      rw [h j]
      exact untilRest_step (hquiet j).1 (hquiet j).2 hj⟩
  have hle : m ≤ n := by
    have := (e 0).untilRest_le
    omega
  clear hn
  induction n, hle using Nat.le_induction with
  | base => exact hrest
  | succ j _ ih =>
    rw [h j]
    exact ih.step (hquiet j).1 (hquiet j).2

end Run

end Engine

/-! ## The registers at rest -/

/-- The ciphertexts that are still to come. -/
def AES_Top.pending (s : AES_Top) : ℕ :=
  (if s.ins_systemcontroller.state = .PCore_Prc ∨ s.ins_systemcontroller.state = .wait_PCore then 1 else 0) +
    if s.ins_systemcontroller.in_loaded = true ∧ s.ins_systemcontroller.state ≠ .PCore_Prc then 1 else 0

/-- The last two things that settle: the round counter of the core and the addresses of the S-box. -/
def AES_Top.settled (s : AES_Top) : AES_Top where
  ins_systemcontroller := s.ins_systemcontroller
  ins_inputinterface := s.ins_inputinterface
  ins_KeyLogic := s.ins_KeyLogic
  ins_ProcessingCore := ⟨s.ins_ProcessingCore.stateReg, ⟨.IDLE, 1#4⟩⟩
  ins_SBox := .posedge s.mux1

namespace Refines
variable {s : AES_Top} {e : Engine} (h : Refines s e)
include h

theorem pending_eq : s.pending = e.owed := by
  rw [AES_Top.pending, h.system, Engine.owed]
  rcases e.phase with _ | _ | ⟨K, b⟩ | _ | ⟨B, b⟩ <;> cases e.in_loaded <;> rfl

theorem step_of_rest (hrest : e.Resting) (x : BitVec 128) {i : AES_Top.Inputs} (hk : i.Load_Key = false)
    (hd : i.Load_Data = false) : s.step x i = s.settled := by
  obtain ⟨hp, hl⟩ := id hrest
  obtain ⟨hp', hl'⟩ := hrest.step hk hd
  have hsystem : (s.step x i).ins_systemcontroller = s.ins_systemcontroller := by
    rw [h.system_step, h.system, hp', hl', hp, hl, Engine.step, Engine.expanded, hp]
    rfl
  have hinputs : (s.step x i).ins_inputinterface = s.ins_inputinterface := by
    rw [h.inputs_step, h.inputs, Engine.step_Key hk, Engine.step_Data hd]
  have hkeys : (s.step x i).ins_KeyLogic = s.ins_KeyLogic := by
    have hreg := h.key_reg_step x i
    have hctl := h.keyController_step x i
    rw [hp] at hreg
    rw [hp', ← hp, ← h.keyController] at hctl
    exact congrArg₂ KeyLogic.mk hreg hctl
  have hcore : (s.step x i).ins_ProcessingCore = ⟨s.ins_ProcessingCore.stateReg, ⟨.IDLE, 1#4⟩⟩ := by
    have hreg := h.stateReg_step x i
    have hidle := h.coreController
    rw [hp] at hreg hidle
    refine congrArg₂ ProcessingCore.mk hreg ?_
    rw [h.pcore_start_eq, Engine.coreStart, hp, ProcessingCoreController.posedge, ProcessingCoreController.next_state,
      show s.ins_ProcessingCore.controller.state = .IDLE from hidle]
    rfl
  have hsbox : (s.step x i).ins_SBox = .posedge s.mux1 := by
    change S_box.posedge (s.muxout x) = _
    rw [AES_Top.muxout, h.mode_eq, hp]
    rfl
  calc s.step x i = ⟨(s.step x i).ins_systemcontroller, (s.step x i).ins_inputinterface, (s.step x i).ins_KeyLogic,
        (s.step x i).ins_ProcessingCore, (s.step x i).ins_SBox⟩ := rfl
    _ = s.settled := by rw [hsystem, hinputs, hkeys, hcore, hsbox]; rfl

end Refines

/-! ## The run -/

/-- From every reachable state, whatever is on `in_data`. -/
theorem comes_to_rest (x : BitVec 128) (s : AES_Top) (hs : s.Reachable x) (ins : ℕ → AES_Top.Inputs)
    (hquiet : ∀ n, (ins n).Load_Key = false ∧ (ins n).Load_Data = false) :
    let st := run (AES_Top.step x) s ins
    (∀ n, Nat.count (fun j => (st j).CTValid = true) n + (st n).pending = s.pending) ∧
      (∀ n ≥ 44, (st n).Ready_new_input = true ∧ (st n).pending = 0) ∧ ∀ n ≥ 45, st n = st 45 := by
  intro st
  obtain ⟨e, h, he⟩ := hs.exists_engine ins
  refine ⟨fun n => ?_, fun n hn => ?_, fun n hn => ?_⟩
  · have hbalance := balance (f := fun j => (st j).pending) (c := fun _ => 0)
      (d := fun j => if (st j).CTValid = true then 1 else 0) (fun j => by
        rw [(he j).ctValid_eq, (he j).pending_eq, (he (j + 1)).pending_eq, h j,
          Engine.owed_step (hquiet j).1 (hquiet j).2, Nat.add_zero]) n
    rw [sum_const_zero, Nat.add_zero, ← count_eq_sum, Nat.add_comm] at hbalance
    exact hbalance
  · obtain ⟨hp, hl⟩ := Engine.resting_run h hquiet hn
    refine ⟨(he n).ready_eq.2 hp, ?_⟩
    rw [(he n).pending_eq, Engine.owed, hp, hl]
    rfl
  · have hsettle (j : ℕ) (hj : 44 ≤ j) : st (j + 1) = (st j).settled :=
      (he j).step_of_rest (Engine.resting_run h hquiet hj) x (hquiet j).1 (hquiet j).2
    induction n, hn using Nat.le_induction with
    | base => rfl
    | succ n hn ih =>
      obtain ⟨j, rfl⟩ := Nat.exists_eq_add_of_lt (show 44 < n by omega)
      rw [hsettle _ (by omega), ← ih, hsettle _ (by omega)]
      rfl

/-- From the first cycle of an encryption, with another block waiting. -/
theorem comes_to_rest_waiting :
    let s := run (AES_Top.step 0#128) (.reset (.posedge 0#128)) (fun n => ⟨7#128, false, n != 1⟩) 4
    let ins (n : ℕ) : AES_Top.Inputs := ⟨BitVec.ofNat 128 n, false, false⟩
    let st := run (AES_Top.step 0#128) s ins
    (∀ n, Nat.count (fun j => (st j).CTValid = true) n + (st n).pending = s.pending) ∧
      (∀ n ≥ 44, (st n).Ready_new_input = true ∧ (st n).pending = 0) ∧ ∀ n ≥ 45, st n = st 45 :=
  comes_to_rest 0#128 _ (.run (.init ⟨_, rfl⟩) _ 4) _ fun _ => ⟨rfl, rfl⟩

end Aes128
