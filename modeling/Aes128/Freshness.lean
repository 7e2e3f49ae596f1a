import Aes128.Commands
import Aes128.Permutation
/-!
# Freshness of the valid flag

The flag is cleared by `reset_flag`, one cycle after the command, and the engine
sees the command one cycle late. So a read in the cycle after the command still
returns the old flag, and a command given in the last cycle before a waiting
block is started comes too late for the engine. In every other case a set flag
belongs to the block of the last command.
-/

open Fips197 Clocked Rounds

namespace Aes128

namespace wrapper_finalv2

/-- Commands are written in cycles in which the engine is ready, and the first one loads a key. -/
structure PoliteBus (x : BitVec 128) (rom : S_box) (bus : ℕ → Inputs) : Prop where
  ready : ∀ n, (bus n).command = true → (run (step x) (reset rom) bus n).Ready_new_input = true
  keyFirst : ∀ n, (bus n).dataCommand = true → ∃ k < n, (bus k).keyCommand = true

/-- When `c` is the last command before cycle `r`, and it loads a block, and a read of address 10 in
cycle `r` returns 1, then `temp_result` is the ciphertext of that block, under the last key loaded. -/
def FreshFlag (x : BitVec 128) (rom : S_box) (bus : ℕ → Inputs) (c r : ℕ) : Prop :=
  let w := run (step x) (reset rom) bus
  (bus c).dataCommand = true → (∀ j, c < j → j < r → (bus j).command = false) →
    (bus r).read = true → (bus r).iAddress = 10#4 → (w (r + 1)).oData = 1#32 →
      ∃ k, IsLast (fun j => (bus j).keyCommand = true) k r ∧
        (w r).temp_result = encrypt (w k).in_data (w c).in_data

section Run
variable {x : BitVec 128} {bus : ℕ → Inputs} {w : ℕ → wrapper_finalv2} {e : ℕ → Engine}
  (hw : IsRun (step x) bus w) (h : IsRun Engine.step (fun n => (w n).inst_inputs) e)
  (he : ∀ n, Refines (w n).inst (e n))
  (hready : ∀ n, (bus n).command = true → (e n).phase = .idle)
  (hlate : ∀ n, (bus n).command = true → (e n).in_loaded = true → (w n).Load_Key = true)

include hw h hready hlate in
/-- The pulse of a command comes to an engine that is still idle, or that has just been given a key. -/
theorem pulse_phase {n : ℕ} (hn : (bus n).command = true) :
    (e (n + 1)).phase = .idle ∨ (e (n + 1)).phase = .keyExpand ∧ (e (n + 1)).Key = (w (n + 1)).in_data := by
  have hphase := Engine.next_idle (hready n hn) (w n).inst_inputs
  rw [← Engine.step_phase, ← h n] at hphase
  by_cases hk : (w n).Load_Key = true
  · right
    refine ⟨hphase.trans (if_pos hk), ?_⟩
    rw [hw n, step_in_data _ _ _ hn, h n, Engine.step]
    exact if_pos hk
  · left
    rw [hphase]
    refine (if_neg hk).trans ?_
    rcases Engine.resume_cases (e n) with ⟨hl, -⟩ | ⟨-, hr⟩
    · exact absurd (hlate n hn hl) hk
    · exact hr

include hw h hready hlate in
/-- The key of the last key command is in `in_data`, with its pulse, or in `Key`, together with its schedule. -/
theorem key_loaded {k n : ℕ} (hk : IsLast (fun j => (bus j).keyCommand = true) k n) :
    ((w n).Load_Key = true → (w n).in_data = (w k).in_data) ∧
      ((w n).Load_Key = false → (e n).Key = (w k).in_data ∧ (e n).Consistent) := by
  induction n with
  | zero => exact absurd hk.1 (Nat.not_lt_zero k)
  | succ n ih =>
    have hpulse : (w (n + 1)).Load_Key = (bus n).keyCommand := by rw [hw n, step_Load_Key]
    rw [hpulse]
    rcases hk.of_succ with ⟨rfl, hk⟩ | ⟨hk, hno⟩
    · refine ⟨fun _ => ?_, fun hno => absurd hk (by rw [hno]; decide)⟩
      rw [hw k, step_in_data _ _ _ (Inputs.command_of_key hk)]
    · refine ⟨fun hyes => absurd hyes hno, fun _ => ?_⟩
      obtain ⟨hpend, hdone⟩ := ih hk
      by_cases hload : (w n).Load_Key = true
      · have hKey : (e (n + 1)).Key = (w n).in_data := by
          rw [h n, Engine.step]
          exact if_pos hload
        refine ⟨hKey.trans (hpend hload), ?_⟩
        -- the pulse comes from a command in the cycle before
        obtain ⟨m, rfl⟩ : ∃ m, n = m + 1 := Nat.exists_eq_succ_of_ne_zero (by have := hk.1; omega)
        have hm : (bus m).keyCommand = true := by rw [← hload, hw m, step_Load_Key]
        rw [h]
        rcases pulse_phase hw h hready hlate (Inputs.command_of_key hm) with hidle | ⟨hexp, hK⟩
        · exact Engine.consistent_of_load hidle hload
        · refine Engine.Consistent.step ?_ fun _ => .inr hK.symm
          rw [Engine.Consistent, Engine.Holds, hexp]
      · have hload := Bool.eq_false_iff.2 hload
        obtain ⟨hK, hc⟩ := hdone hload
        rw [h n]
        exact ⟨(Engine.step_Key hload).trans hK, hc.step fun hl => absurd (hload.symm.trans hl) (by decide)⟩

/-- How far the block `B`, to be encrypted under `K`, has come. -/
inductive Underway (K B : Block) (w : wrapper_finalv2) (e : Engine) : Prop
  | waiting (hv : w.tmp_valid = false) (hl : e.in_loaded = true) (hd : e.Data = B)
    (hp : Engine.coreUnit e.phase = none)
  | core {b : Beat 10} (hv : w.tmp_valid = false) (hl : e.in_loaded = false) (hp : e.phase = .waitPCore (B ^^^ K) b)
  | done (hv : w.tmp_valid = true) (hr : w.temp_result = encrypt K B) (hl : e.in_loaded = false) (hp : e.phase = .idle)

theorem Underway.result {K B : Block} {w : wrapper_finalv2} {e : Engine} (hu : Underway K B w e)
    (hv : w.tmp_valid = true) : w.temp_result = encrypt K B := by
  cases hu with
  | waiting hv' => rw [hv] at hv'; cases hv'
  | core hv' => rw [hv] at hv'; cases hv'
  | done _ hr => exact hr

/-- Without commands, the block goes on its way, and then stays where it is. -/
theorem Underway.step {K B : Block} {w : wrapper_finalv2} {e : Engine} (hu : Underway K B w e)
    (hr : Refines w.inst e) (hK : e.Key = K) (hc : e.Consistent) (hq : Quiet w) (x : BitVec 128) (i : Inputs) :
    Underway K B (w.step x i) (e.step w.inst_inputs) := by
  have hphase := Engine.step_phase w.inst_inputs e
  have hno (ho : e.output = none) := result_of_no_output (x := x) (i := i) hr ho hq.flag
  cases hu with
  | waiting hv hl hd hp =>
    have hv' := (hno (Engine.output_eq_none_of_coreUnit hp)).1.trans hv
    by_cases hprc : e.phase = .prc
    · rw [Engine.next_prc hprc, hd, hK] at hphase
      exact .core hv' (Engine.step_in_loaded_prc hprc _) hphase
    · refine .waiting hv' ((hq.in_loaded hprc).trans hl) ((Engine.step_Data hq.data).trans hd) ?_
      exact Engine.coreUnit_step_none hp hprc _
  | @core b hv hl hp =>
    have hl' := (hq.in_loaded (by simp [hp])).trans hl
    rw [Engine.next_waitPCore hp] at hphase
    rcases hb : b.next with _ | c <;> rw [hb] at hphase
    · -- the ciphertext is shown, and taken at the end of the cycle
      rw [Beat.next_eq_none.1 hb] at hp
      obtain ⟨hv, ht⟩ := result_of_output (x := x) (i := i) hr (output_eq_encrypt hp hK hc) hq.flag
      exact .done hv ht hl' hphase
    · exact .core ((hno (Engine.output_eq_none hp (Beat.ne_finish_of_next hb))).1.trans hv) hl' hphase
  | done hv ht hl hp =>
    obtain ⟨hv', ht'⟩ := hno (by simp only [Engine.output, hp])
    refine .done (hv'.trans hv) (ht'.trans ht) ((hq.in_loaded (by simp [hp])).trans hl) ?_
    exact hphase.trans (Engine.next_idle_empty hp hq.key hl)

/-- The last key before a block command is the last key until the next command. -/
theorem isLast_key_of_no_command {k c n : ℕ} (hk : IsLast (fun j => (bus j).keyCommand = true) k c)
    (hc : (bus c).dataCommand = true) (hn : c < n) (hno : ∀ j, c < j → j < n → (bus j).command = false) :
    IsLast (fun j => (bus j).keyCommand = true) k n := by
  refine ⟨Nat.lt_trans hk.1 hn, hk.2.1, fun j hj hjn => ?_⟩
  rw [Bool.not_eq_true]
  rcases Nat.lt_trichotomy j c with hjc | rfl | hjc
  · exact Bool.eq_false_iff.2 (hk.2.2 j hj hjc)
  · exact Inputs.keyCommand_of_data hc
  · exact (Inputs.not_command (hno j hjc hjn)).2

include hw h hready hlate in
/-- Two cycles after the command the block waits, and the flag has been cleared. -/
theorem underway_start {K : Block} {c : ℕ} (hc : (bus c).dataCommand = true) :
    Underway K (w c).in_data (w (c + 2)) (e (c + 2)) := by
  have hcmd := Inputs.command_of_data hc
  have hLD : (w (c + 1)).Load_Data = true := by rw [hw c, step_Load_Data, hc]
  have hLK : (w (c + 1)).Load_Key = false := by rw [hw c, step_Load_Key, Inputs.keyCommand_of_data hc]
  have hin : (w (c + 1)).in_data = (w c).in_data := by rw [hw c, step_in_data _ _ _ hcmd]
  have hrf : (w (c + 1)).reset_flag = true := by rw [hw c, step_reset_flag, hcmd]
  -- the pulse finds the core neither started nor busy
  have hcore : (e (c + 1)).phase ≠ .prc ∧ Engine.coreUnit (e (c + 1)).phase = none := by
    rcases pulse_phase hw h hready hlate hcmd with hp | ⟨hp, -⟩ <;> simp [hp, Engine.coreUnit]
  rw [hw (c + 1), h (c + 1)]
  refine .waiting ?_ ?_ ?_ (Engine.coreUnit_step_none hcore.2 hcore.1 _)
  · rw [step_tmp_valid, hrf]
    rfl
  · rw [Engine.step_in_loaded hcore.1, inst_inputs_Load_Data, hLD]
    rfl
  · simp [Engine.step, hLD, hLK, hin]

include hw h he hready hlate in
theorem underway {k c n : ℕ} (hk : IsLast (fun j => (bus j).keyCommand = true) k c)
    (hc : (bus c).dataCommand = true) (hn : c + 2 ≤ n) (hno : ∀ j, c < j → j < n → (bus j).command = false) :
    Underway (w k).in_data (w c).in_data (w n) (e n) := by
  induction n, hn using Nat.le_induction with
  | base => exact underway_start hw h hready hlate hc
  | succ n hn ih =>
    -- the cycle before `n` had no command, so there is no pulse in cycle `n`
    obtain ⟨m, rfl⟩ : ∃ m, n = m + 1 := Nat.exists_eq_succ_of_ne_zero (by omega)
    have hq : Quiet (w (m + 1)) := by rw [hw m]; exact quiet_step (hno m (by omega) (by omega))
    have hlast := isLast_key_of_no_command hk hc (n := m + 1) (by omega) fun j hj hjn => hno j hj (by omega)
    obtain ⟨hK, hcons⟩ := (key_loaded hw h hready hlate hlast).2 hq.key
    rw [hw (m + 1), h (m + 1)]
    exact (ih fun j hj hjn => hno j hj (by omega)).step (he _) hK hcons hq x _

end Run

/-- No command is written while a block waits, unless a key is just being loaded. -/
def InTime (x : BitVec 128) (rom : S_box) (bus : ℕ → Inputs) : Prop :=
  ∀ n, (bus n).command = true → (run (step x) (reset rom) bus n).inst.ins_systemcontroller.in_loaded = true →
    (run (step x) (reset rom) bus n).Load_Key = true

theorem result_of_flag {x : BitVec 128} {rom : S_box} {bus : ℕ → Inputs} (hp : PoliteBus x rom bus)
    (ht : InTime x rom bus) {c n : ℕ} (hc : (bus c).dataCommand = true) (hn : c + 2 ≤ n)
    (hno : ∀ j, c < j → j < n → (bus j).command = false)
    (hv : (run (step x) (reset rom) bus n).tmp_valid = true) :
    ∃ k, IsLast (fun j => (bus j).keyCommand = true) k n ∧
      (run (step x) (reset rom) bus n).temp_result =
        encrypt (run (step x) (reset rom) bus k).in_data (run (step x) (reset rom) bus c).in_data := by
  obtain ⟨e, -, h, he⟩ := exists_engine x rom bus
  have hready (m : ℕ) (hm : (bus m).command = true) : (e m).phase = .idle := (he m).ready_eq.1 (hp.ready m hm)
  have hlate (m : ℕ) (hm : (bus m).command = true) (hl : (e m).in_loaded = true) :
      (run (step x) (reset rom) bus m).Load_Key = true := ht m hm (by rw [(he m).system]; exact hl)
  obtain ⟨k₀, hk₀, hkey⟩ := hp.keyFirst c hc
  obtain ⟨k, hk⟩ := exists_isLast (P := fun j => (bus j).keyCommand = true) hk₀ hkey
  have hu := underway (isRun_run _ _) h he hready hlate hk hc hn hno
  exact ⟨k, isLast_key_of_no_command hk hc (by omega) hno, hu.result hv⟩

/-- In every run on a polite bus with its commands in time, the flag is fresh for every read that does
not follow the command directly. -/
theorem flag_fresh (x : BitVec 128) (rom : S_box) (bus : ℕ → Inputs) (hp : PoliteBus x rom bus)
    (ht : InTime x rom bus) (c r : ℕ) (hcr : c + 2 ≤ r) : FreshFlag x rom bus c r := by
  intro hc hno hread haddr hone
  refine result_of_flag hp ht hc hcr hno ?_
  rw [run_succ, step_oData _ _ _ hread, haddr] at hone
  exact (flag_word _).1 hone

/-! ## A fixed trace -/

/-- The key 0, the block 0, and after its ciphertext the block 1, with reads of the flag in the cycle
after that command and later. -/
def two_commands (n : ℕ) : Inputs :=
  match n with
  | 0 => .writing 5#4 1#32
  | 30 => .writing 4#4 1#32
  | 60 => .writing 3#4 1#32
  | 61 => .writing 4#4 1#32
  | 62 => .reading 10#4
  | 90 => .reading 10#4
  | _ => .idle

theorem command_two_commands {n : ℕ} (h : (two_commands n).command = true) : n = 0 ∨ n = 30 ∨ n = 61 := by
  unfold two_commands at h
  split at h <;> first | omega | cases h

theorem polite_two_commands : PoliteBus 0#128 (.posedge 0#128) two_commands where
  ready n hn := by
    rcases command_two_commands hn with rfl | rfl | rfl <;> decide +kernel
  keyFirst n hn := by
    rcases command_two_commands (Inputs.command_of_data hn) with rfl | rfl | rfl
    · cases hn
    · exact ⟨0, by decide, rfl⟩
    · exact ⟨0, by decide, rfl⟩

theorem inTime_two_commands : InTime 0#128 (.posedge 0#128) two_commands := by
  intro n hn
  rcases command_two_commands hn with rfl | rfl | rfl <;> decide +kernel

theorem no_command_after {c r : ℕ} (hc : 61 ≤ c) : ∀ j, c < j → j < r → (two_commands j).command = false := by
  intro j hj _
  refine Bool.eq_false_iff.2 fun h => ?_
  have := command_two_commands h
  omega

theorem flag_fresh_two_commands :
    ∃ k, IsLast (fun j => (two_commands j).keyCommand = true) k 90 ∧
      (run (step 0#128) (reset (.posedge 0#128)) two_commands 90).temp_result =
        encrypt (run (step 0#128) (reset (.posedge 0#128)) two_commands k).in_data
          (run (step 0#128) (reset (.posedge 0#128)) two_commands 61).in_data :=
  flag_fresh _ _ _ polite_two_commands inTime_two_commands 61 90 (by decide) rfl (no_command_after (Nat.le_refl 61))
    rfl rfl (by decide +kernel)

/-- The read right after the command returns the flag of the block before. -/
theorem flag_stale :
    PoliteBus 0#128 (.posedge 0#128) two_commands ∧ ¬ FreshFlag 0#128 (.posedge 0#128) two_commands 61 62 := by
  refine ⟨polite_two_commands, fun hfresh => ?_⟩
  let w := run (step 0#128) (reset (.posedge 0#128)) two_commands
  have hkey {k n : ℕ} (hk : IsLast (fun j => (two_commands j).keyCommand = true) k n) : k = 0 := by
    have hk := hk.2.1
    rcases command_two_commands (Inputs.command_of_key hk) with rfl | rfl | rfl
    · rfl
    · cases hk
    · cases hk
  -- the result of the first block, which is still there in cycle 62
  have hno : ∀ j, 30 < j → j < 61 → (two_commands j).command = false := fun j hj hj' =>
    Bool.eq_false_iff.2 fun h => by have := command_two_commands h; omega
  obtain ⟨k, hk, hold⟩ := result_of_flag (n := 61) polite_two_commands inTime_two_commands (c := 30) rfl (by decide) hno
    (by decide +kernel)
  have hstay : (w 62).temp_result = (w 61).temp_result := by
    change (step 0#128 (two_commands 61) (w 61)).temp_result = _
    rw [step_temp_result, if_neg (by decide +kernel)]
  -- what freshness says about it
  obtain ⟨l, hl, hnew⟩ := hfresh rfl (no_command_after (Nat.le_refl 61)) rfl rfl (by decide +kernel)
  rw [hkey hk] at hold
  rw [hkey hl, hstay, hold] at hnew
  have hblock := encrypt_injective _ hnew
  revert hblock
  decide +kernel

end wrapper_finalv2

end Aes128
