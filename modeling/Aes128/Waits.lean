import Aes128.Refine
/-!
# Every wait ends

A unit shows that it is done in one cycle only, and nothing latches the pulse. It
is never missed: the controller is in the wait state of a unit for as long as the
unit is busy. `untilReady` bounds the cycles until AES_Top is ready again, from the
three state registers and the two round counters.
-/

open Clocked Rounds

namespace Aes128

/-! ## The measure -/

/-- Cycles until `expansion_done`. -/
def KeyLogicController.untilDone (k : KeyLogicController) : ℕ :=
  match k.state with
  | .ROTWORD => 22 - 2 * k.round_num.toNat
  | .KEYEXPAND => 21 - 2 * k.round_num.toNat
  | _ => 0

/-- Cycles until `done`. -/
def ProcessingCoreController.untilDone (c : ProcessingCoreController) : ℕ :=
  match c.state with
  | .PHASE0 => 22 - 2 * c.roundCount_reg.toNat
  | .PHASE1 => 21 - 2 * c.roundCount_reg.toNat
  | _ => 0

/-- Cycles until `Ready_new_input` at most: an expansion may lead to an encryption. -/
def AES_Top.untilReady (s : AES_Top) : ℕ :=
  match s.ins_systemcontroller.state with
  | .Key_Expand => 44
  | .wait_Keyex => s.ins_KeyLogic.controller.untilDone + 23
  | .PCore_Prc => 22
  | .wait_PCore => s.ins_ProcessingCore.controller.untilDone + 1
  | _ => 0

theorem KeyLogicController.untilDone_ofUnit (K : BitVec 128) (b : Beat 10) :
    (ofUnit (some (K, b))).untilDone = 21 - b.elapsed := by
  rcases b with r | r | _
  · simp only [untilDone, ofUnit, toNat_round, Beat.elapsed]
    omega
  · simp only [untilDone, ofUnit, toNat_round, Beat.elapsed]
    omega
  · rfl

theorem ProcessingCoreController.Tracks.untilDone {c : ProcessingCoreController} {B : BitVec 128} {b : Beat 10}
    (h : c.Tracks (some (B, b))) : c.untilDone = 21 - b.elapsed := by
  rcases b with r | r | _ <;> simp only [Tracks] at h <;> subst h
  · simp only [ProcessingCoreController.untilDone, toNat_round, Beat.elapsed]
    omega
  · simp only [ProcessingCoreController.untilDone, toNat_round, Beat.elapsed]
    omega
  · rfl

namespace Refines

variable {s : AES_Top} {e : Engine} (h : Refines s e)
include h

theorem state_eq : s.ins_systemcontroller.state = e.phase.code := by
  rw [h.system]

theorem idle_iff : s.ins_systemcontroller.state = .IDLE ↔ e.phase = .idle := by
  rw [h.state_eq]
  cases e.phase <;> simp [Phase.code]

theorem wait_Keyex_iff : s.ins_systemcontroller.state = .wait_Keyex ↔ (Engine.keyUnit e.phase).isSome = true := by
  rw [h.state_eq]
  cases e.phase <;> simp [Phase.code, Engine.keyUnit]

theorem wait_PCore_iff : s.ins_systemcontroller.state = .wait_PCore ↔ (Engine.coreUnit e.phase).isSome = true := by
  rw [h.state_eq]
  cases e.phase <;> simp [Phase.code, Engine.coreUnit]

/-- The two done pulses, as the `finish` cycles of the units. -/
theorem keyex_done_finish : s.keyex_done = true ↔ ∃ K, Engine.keyUnit e.phase = some (K, .finish) := by
  simp only [h.keyex_done_iff, Engine.keyUnit_eq]

theorem ctValid_finish : s.CTValid = true ↔ ∃ B, Engine.coreUnit e.phase = some (B, .finish) := by
  simp only [h.ctValid_iff, Engine.coreUnit_eq]

theorem untilReady_eq : s.untilReady = Engine.remaining e.phase := by
  have hk := h.keyController
  have hc := h.coreController
  rw [AES_Top.untilReady, h.state_eq]
  cases hp : e.phase with
  | idle => rfl
  | keyExpand => rfl
  | waitKeyex K b =>
    have hle := b.elapsed_le
    rw [hp] at hk
    simp only [Phase.code, hk, Engine.keyUnit, KeyLogicController.untilDone_ofUnit, Engine.remaining]
    omega
  | prc => rfl
  | waitPCore B b =>
    have hle := b.elapsed_le
    rw [hp] at hc
    have hd := ProcessingCoreController.Tracks.untilDone hc
    simp only [Phase.code, hd, Engine.remaining]
    omega

end Refines

/-! ## The two waits -/

/-- From any cycle in the state `wait`, the pulse `done` comes within 20 cycles; the state is `wait`
until then, and not after. -/
def AES_Top.WaitEnds (st : ℕ → AES_Top) (wait : SystemController.State) (done : AES_Top → Bool) : Prop :=
  ∀ n, (st n).ins_systemcontroller.state = wait → ∃ m, n ≤ m ∧ m ≤ n + 20 ∧ done (st m) = true ∧
    (∀ j, n ≤ j → j ≤ m → (st j).ins_systemcontroller.state = wait) ∧
    (st (m + 1)).ins_systemcontroller.state ≠ wait

/-- The wait for a unit ends, when the state is `wait` in the cycles in which the unit is busy and `done`
shows its `finish` cycle. -/
theorem waitEnds_of_unit {st : ℕ → AES_Top} {wait : SystemController.State} {done : AES_Top → Bool}
    {start : ℕ → Option (BitVec 128)} {u : ℕ → Option (BitVec 128 × Beat 10)}
    (hu : ∀ n, u (n + 1) = advance (start n) (u n))
    (hwait : ∀ n, (st n).ins_systemcontroller.state = wait ↔ (u n).isSome = true)
    (hdone : ∀ n, done (st n) = true ↔ ∃ a, u n = some (a, .finish)) : AES_Top.WaitEnds st wait done := by
  intro n hn
  obtain ⟨m, hm, hle, hf, hbusy, hidle⟩ := busy_ends hu ((hwait n).1 hn)
  refine ⟨m, hm, hle, (hdone m).2 hf, fun j hj hjm => (hwait j).2 (hbusy j hj hjm), ?_⟩
  rw [ne_eq, hwait, hidle]
  decide

/-! ## No deadlock -/

/-- The done pulses come in the wait states they are for, and end them, and no cycle is far from an idle one. -/
structure AES_Top.NoDeadlock (st : ℕ → AES_Top) : Prop where
  keyexInWait : ∀ n, (st n).keyex_done = true → (st n).ins_systemcontroller.state = .wait_Keyex
  coreInWait : ∀ n, (st n).CTValid = true → (st n).ins_systemcontroller.state = .wait_PCore
  keyexEnds : AES_Top.WaitEnds st .wait_Keyex AES_Top.keyex_done
  coreEnds : AES_Top.WaitEnds st .wait_PCore AES_Top.CTValid
  progress : ∀ n, (st n).ins_systemcontroller.state ≠ .IDLE → (st (n + 1)).untilReady < (st n).untilReady
  ready : ∀ n, ∃ m, n ≤ m ∧ m < n + 45 ∧ (st m).Ready_new_input = true

/-- From every reachable state, whatever the inputs do. -/
theorem no_deadlock (x : BitVec 128) (s : AES_Top) (hs : s.Reachable x) (ins : ℕ → AES_Top.Inputs) :
    AES_Top.NoDeadlock (run (AES_Top.step x) s ins) := by
  obtain ⟨e, h, he⟩ := hs.exists_engine ins
  constructor
  case keyexInWait =>
    intro n hd
    obtain ⟨K, hf⟩ := (he n).keyex_done_finish.1 hd
    rw [(he n).wait_Keyex_iff, hf, Option.isSome_some]
  case coreInWait =>
    intro n hd
    obtain ⟨B, hf⟩ := (he n).ctValid_finish.1 hd
    rw [(he n).wait_PCore_iff, hf, Option.isSome_some]
  case keyexEnds =>
    exact waitEnds_of_unit (u := fun n => Engine.keyUnit (e n).phase) (Engine.keyUnit_run h)
      (fun n => (he n).wait_Keyex_iff) fun n => (he n).keyex_done_finish
  case coreEnds =>
    exact waitEnds_of_unit (u := fun n => Engine.coreUnit (e n).phase) (Engine.coreUnit_run h)
      (fun n => (he n).wait_PCore_iff) fun n => (he n).ctValid_finish
  case progress =>
    intro n hn
    have hp : (e n).phase ≠ .idle := fun hp => hn ((he n).idle_iff.2 hp)
    rw [(he n).untilReady_eq, (he (n + 1)).untilReady_eq, h n]
    exact Engine.remaining_step hp (ins n)
  case ready =>
    intro n
    obtain ⟨m, hm, hle, hidle⟩ := Engine.exists_idle h n
    have := Engine.remaining_le (e n).phase
    exact ⟨m, hm, by omega, (he m).ready_eq.2 hidle⟩

/-- From the first cycle of an expansion. -/
theorem no_deadlock_expanding :
    AES_Top.NoDeadlock (run (AES_Top.step 0#128) (.step 0#128 ⟨1#128, true, true⟩ (.reset (.posedge 0#128)))
      fun n => ⟨BitVec.ofNat 128 n, n % 3 == 0, n % 5 == 0⟩) :=
  no_deadlock 0#128 _ (.step _ (.init ⟨_, rfl⟩)) _

end Aes128
