import Aes128.Results
import Aes128.Sessions
/-!
# wrapper_final.v

The version of the wrapper before wrapper_finalv2; wrapper.v is the same text under
another name. It has no `reset_flag`, so nothing clears the valid flag, and it does
not show `Ready_new_input`. The two versions are compared on the same bus, and source.c
is run on the older one.
-/

open Clocked Rounds Master

namespace Aes128

structure wrapper_final where
  in_data : BitVec 128
  temp_result : BitVec 128
  Load_Data : Bool
  Load_Key : Bool
  tmp_valid : Bool
  oData : BitVec 32
  inst : AES_Top

namespace wrapper_final

open wrapper_finalv2 (Inputs write_word)

variable (x : BitVec 128)

def CTValid (w : wrapper_final) : Bool := w.inst.CTValid

def CipherText (w : wrapper_final) : Bus := w.inst.CipherText

/-- The input ports of `inst`. -/
def inst_inputs (w : wrapper_final) : AES_Top.Inputs where
  in_data := w.in_data
  Load_Key := w.Load_Key
  Load_Data := w.Load_Data

/-- The case of the read block. -/
def read_word (iAddress : BitVec 4) (w : wrapper_final) : BitVec 32 :=
  match iAddress with
  | 6#4 => w.temp_result.extractLsb 127 96
  | 7#4 => w.temp_result.extractLsb 95 64
  | 8#4 => w.temp_result.extractLsb 63 32
  | 9#4 => w.temp_result.extractLsb 31 0
  | 10#4 => 0#31 ++ BitVec.ofBool w.tmp_valid
  | 11#4 => w.in_data.extractLsb 127 96
  | 12#4 => w.in_data.extractLsb 95 64
  | 13#4 => w.in_data.extractLsb 63 32
  | 14#4 => w.in_data.extractLsb 31 0
  | _ => 0#32

/-- A cycle with the reset off. -/
def step (i : Inputs) (w : wrapper_final) : wrapper_final where
  in_data := if i.write then write_word i w.in_data else w.in_data
  temp_result := if w.CTValid then w.CipherText.getD x else w.temp_result
  Load_Data := i.write && i.iAddress == 4#4
  Load_Key := i.write && i.iAddress == 5#4
  tmp_valid := if w.CTValid then true else w.tmp_valid
  oData := if i.read then w.read_word i.iAddress else w.oData
  inst := w.inst.step x w.inst_inputs

/-- The state a reset leaves, with the ROM addresses `rom`. -/
def reset (rom : S_box) : wrapper_final where
  in_data := 0#128
  temp_result := 0#128
  Load_Data := false
  Load_Key := false
  tmp_valid := false
  oData := 0#32
  inst := .reset rom

/-- The wrapper as its master sees it. -/
def device : Device wrapper_final (BitVec 4) (BitVec 32) where
  idle := step x .idle
  write a d := step x (.writing a d)
  read a := step x (.reading a)
  data := oData
  command a := a == 4#4 || a == 5#4
  test d := d &&& 0x1#32 != 0#32

/-! ## On the same bus -/

/-- All registers but the flag and `oData` are the same. -/
structure Matches (u : wrapper_final) (v : wrapper_finalv2) : Prop where
  in_data : u.in_data = v.in_data
  temp_result : u.temp_result = v.temp_result
  Load_Data : u.Load_Data = v.Load_Data
  Load_Key : u.Load_Key = v.Load_Key
  inst : u.inst = v.inst

variable {x : BitVec 128} {i : Inputs} {u : wrapper_final} {v : wrapper_finalv2}

theorem Matches.step (h : Matches u v) : Matches (u.step x i) (v.step x i) where
  in_data := by simp only [wrapper_final.step, wrapper_finalv2.step, wrapper_finalv2.posedge_clk,
    wrapper_finalv2.always, h.in_data]; rfl
  temp_result := by
    simp only [wrapper_final.step, CTValid, CipherText, h.inst, h.temp_result]
    rfl
  Load_Data := rfl
  Load_Key := rfl
  inst := by
    have hinputs : u.inst_inputs = v.inst_inputs := by
      rw [inst_inputs, wrapper_finalv2.inst_inputs, h.in_data, h.Load_Key, h.Load_Data]
    simp only [wrapper_final.step, h.inst, hinputs]
    rfl

theorem Matches.read_word (h : Matches u v) {a : BitVec 4} (h10 : a ≠ 10#4) (h15 : a ≠ 15#4) :
    u.read_word a = v.read_word a := by
  obtain ⟨k, hk, rfl⟩ : ∃ k < 16, a = BitVec.ofNat 4 k := ⟨a.toNat, a.isLt, (BitVec.ofNat_toNat 4 a).symm⟩
  unfold wrapper_final.read_word wrapper_finalv2.read_word
  rw [h.in_data, h.temp_result]
  interval_cases k <;> first | rfl | exact absurd rfl h10 | exact absurd rfl h15

theorem step_oData (hr : i.read = true) : (u.step x i).oData = u.read_word i.iAddress := if_pos hr

theorem matches_run (x : BitVec 128) (rom : S_box) (bus : ℕ → Inputs) (n : ℕ) :
    Matches (run (wrapper_final.step x) (reset rom) bus n)
      (run (wrapper_finalv2.step x) (wrapper_finalv2.reset rom) bus n) := by
  refine run_rel Matches Eq ⟨rfl, rfl, rfl, rfl, rfl⟩ (fun i j u v hij h => ?_) (fun _ => rfl) n
  subst hij
  exact h.step

/-- Once a ciphertext has been shown, the flag stays set. -/
theorem tmp_valid_iff {bus : ℕ → Inputs} {u : ℕ → wrapper_final} (hu : IsRun (wrapper_final.step x) bus u)
    (h0 : (u 0).tmp_valid = false) (n : ℕ) : (u n).tmp_valid = true ↔ ∃ c < n, (u c).CTValid = true := by
  induction n with
  | zero => simp [h0]
  | succ n ih =>
    have hstep : (u (n + 1)).tmp_valid = if (u n).CTValid then true else (u n).tmp_valid := by
      rw [hu n]
      rfl
    rw [hstep]
    by_cases hv : (u n).CTValid = true
    · rw [if_pos hv]
      exact ⟨fun _ => ⟨n, Nat.lt_succ_self n, hv⟩, fun _ => rfl⟩
    · rw [if_neg hv, ih]
      constructor
      · rintro ⟨c, hc, hcv⟩
        exact ⟨c, Nat.lt_succ_of_lt hc, hcv⟩
      · rintro ⟨c, hc, hcv⟩
        rcases Nat.lt_succ_iff_lt_or_eq.1 hc with hc | rfl
        · exact ⟨c, hc, hcv⟩
        · exact absurd hcv hv

/-- On every trace of the bus the two versions hold the same words, results and engine, and reads differ at two
addresses only: at 15, which the older one reads as 0, and at 10, when a command has cleared the flag of the
newer one since a ciphertext was shown. -/
theorem versions_agree (x : BitVec 128) (rom : S_box) (bus : ℕ → Inputs) (n : ℕ) :
    let u := run (wrapper_final.step x) (reset rom) bus
    let v := run (wrapper_finalv2.step x) (wrapper_finalv2.reset rom) bus
    Matches (u n) (v n) ∧
      ((bus n).read = true →
        ((bus n).iAddress ≠ 10#4 → (bus n).iAddress ≠ 15#4 → (u (n + 1)).oData = (v (n + 1)).oData) ∧
        ((bus n).iAddress = 15#4 → (u (n + 1)).oData = 0#32) ∧
        ((bus n).iAddress = 10#4 → ((u (n + 1)).oData ≠ (v (n + 1)).oData ↔
          (∃ c < n, (v c).CTValid = true) ∧ ¬ wrapper_finalv2.Flagged bus v n))) := by
  intro u v
  have hmatches (k : ℕ) : Matches (u k) (v k) := matches_run x rom bus k
  have hv : IsRun (wrapper_finalv2.step x) bus v := isRun_run _ _
  refine ⟨hmatches n, fun hr => ?_⟩
  have hu : (u (n + 1)).oData = (u n).read_word (bus n).iAddress := step_oData hr
  rw [hu, hv n, wrapper_finalv2.step_oData _ _ _ hr]
  refine ⟨fun h10 h15 => (hmatches n).read_word h10 h15, fun h15 => by rw [h15]; rfl, fun h10 => ?_⟩
  have hshown : (u n).tmp_valid = true ↔ ∃ c < n, (v c).CTValid = true := by
    rw [tmp_valid_iff (isRun_run _ _) rfl]
    refine exists_congr fun c => and_congr_right fun _ => ?_
    rw [CTValid, (hmatches c).inst, wrapper_finalv2.CTValid]
  have hcleared : (v n).tmp_valid = true → (u n).tmp_valid = true := by
    rw [hshown, wrapper_finalv2.flagged_iff hv ⟨rfl, rfl⟩]
    rintro ⟨c, hc, hcv, -⟩
    exact ⟨c, hc, hcv⟩
  rw [← hshown, ← wrapper_finalv2.flagged_iff hv ⟨rfl, rfl⟩, h10]
  simp only [wrapper_final.read_word, wrapper_finalv2.read_word]
  revert hcleared
  cases (u n).tmp_valid <;> cases (v n).tmp_valid <;> simp

/-! ## source.c on the older version -/

/-- No command has been given, and the engine waits for one. -/
def Idle (u : wrapper_final) : Prop :=
  u.Load_Key = false ∧ u.Load_Data = false ∧ ∃ e, Refines u.inst e ∧ e.phase = .idle ∧ e.in_loaded = false

theorem Idle.step (h : u.Idle) (hi : i.write = false) : (u.step x i).Idle := by
  obtain ⟨hk, hd, e, hr, hp, hl⟩ := h
  refine ⟨by simp [wrapper_final.step, hi], by simp [wrapper_final.step, hi], e.step u.inst_inputs,
    hr.step x u.inst_inputs, ?_, ?_⟩
  · rw [Engine.step_phase, Engine.next_idle_empty hp hk hl]
  · rw [Engine.step_in_loaded (by simp [hp]), hl, Bool.or_false]
    exact hd

def idle (x : BitVec 128) : Condition (device x) where
  holds _ u := u.Idle
  idle h := h.step rfl
  read _ h := h.step rfl

theorem test_ready (x : BitVec 128) (u : wrapper_final) :
    (device x).test ((device x).data ((device x).read 15#4 u)) = false := by
  have hdata : ((device x).read 15#4 u).oData = u.read_word 15#4 := step_oData rfl
  have hword : u.read_word 15#4 = 0#32 := rfl
  simp only [device] at hdata ⊢
  rw [hdata, hword]
  rfl

/-- On the older version source.c does not get past its first loop, and the engine is ready all the time. -/
theorem source_stuck (x : BitVec 128) (rom : S_box) (op : Op) (ops : List Op) (sched : ℕ → Bool) (n : ℕ) :
    let σ := run (Session.step (device x)) (Session.start (reset rom) (program (op :: ops))) sched
    (σ n).results = [] ∧ ¬ (σ n).finished ∧ (σ n).state.inst.Ready_new_input = true := by
  intro σ
  have hfirst : ∃ prog, program (op :: ops) = .fetch (.poll 15#4) :: prog := by
    cases op <;> exact ⟨_, rfl⟩
  obtain ⟨prog, hprog⟩ := hfirst
  have hreset : (idle x).holds none (reset rom) := ⟨rfl, rfl, .init, refines_reset rom, rfl, rfl⟩
  have hstuck : Stuck (idle x) 15#4 prog (σ n) := by
    simp only [σ, hprog]
    exact poll_stuck (fun _ u _ => test_ready x u) hreset sched n
  cases hstuck with
  | next hp ht hr hC =>
    obtain ⟨-, -, e, he, hphase, -⟩ := hC
    refine ⟨hr, fun hf => ?_, he.ready_eq.2 hphase⟩
    rw [hf.1] at ht
    cases ht
  | poll hp ht htest hr hC =>
    obtain ⟨-, -, e, he, hphase, -⟩ := hC
    refine ⟨hr, fun hf => ?_, he.ready_eq.2 hphase⟩
    rw [hf.2] at hp
    cases hp

end wrapper_final

end Aes128
