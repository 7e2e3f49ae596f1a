import Aes128.Driver
import Aes128.Origins
/-!
# Reading the results

What reads of addresses 6 to 10 return, on every trace of the bus, in terms of the
commands written before. The ciphertext is that of the commands 22 cycles before
it is shown. The flag is set from that cycle on, but for the clear of a command:
one written in the cycle before, or in the same one, takes the flag away for good,
and the result stays without one.
-/

open Fips197 Clocked Rounds

namespace Aes128

namespace wrapper_finalv2

/-- `C` is made from the commands before cycle `q`: the block and the whitening key of the last ones, and the
schedule of the last key whose pulse found the engine ready. -/
def Computes (bus : ℕ → Inputs) (w : ℕ → wrapper_finalv2) (q : ℕ) (C : Block) : Prop :=
  ∃ B K store, Latest (fun j => (bus j).dataCommand = true) (fun j => (w j).in_data) 0#128 q B ∧
    Latest (fun j => (bus j).keyCommand = true) (fun j => (w j).in_data) 0#128 q K ∧
    Latest (fun j => (bus j).keyCommand = true ∧ (w (j + 1)).Ready_new_input = true)
      (fun j => roundKey (w j).in_data) (fun _ => 0#128) q store ∧
    C = rounds store (B ^^^ K)

/-- `C` is the last ciphertext shown before cycle `n`, or 0. -/
def LastShown (bus : ℕ → Inputs) (w : ℕ → wrapper_finalv2) (n : ℕ) (C : Block) : Prop :=
  (∃ q, IsLast (fun j => (w j).CTValid = true) (q + 22) n ∧ Computes bus w q C) ∨
    (∀ j < n, (w j).CTValid = false) ∧ C = 0#128

/-- A ciphertext was shown before cycle `n`, and no command has cleared the flag since. -/
def Flagged (bus : ℕ → Inputs) (w : ℕ → wrapper_finalv2) (n : ℕ) : Prop :=
  ∃ c < n, (w c).CTValid = true ∧ ∀ j, c ≤ j + 1 → j + 1 < n → (bus j).command = false

structure ResultFile (bus : ℕ → Inputs) (w : ℕ → wrapper_finalv2) : Prop where
  text : ∀ n, (bus n).read = true → ∃ C, LastShown bus w n C ∧
    ∀ i < 4, (bus n).iAddress = BitVec.ofNat 4 (6 + i) → (w (n + 1)).oData = word C i
  flag : ∀ n, (bus n).read = true → (bus n).iAddress = 10#4 → ((w (n + 1)).oData = 1#32 ↔ Flagged bus w n)

section Run
variable {x : BitVec 128} {bus : ℕ → Inputs} {w : ℕ → wrapper_finalv2} (hw : IsRun (step x) bus w)

/-! ## The flag -/

include hw in
theorem flagged_iff (h0 : (w 0).tmp_valid = false ∧ (w 0).reset_flag = false) (n : ℕ) :
    (w n).tmp_valid = true ↔ Flagged bus w n := by
  induction n with
  | zero =>
    rw [h0.1]
    constructor
    · rintro ⟨⟩
    · rintro ⟨c, hc, -⟩
      exact absurd hc (Nat.not_lt_zero c)
  | succ n ih =>
    have hflag : (w n).reset_flag = true ↔ ∃ m, n = m + 1 ∧ (bus m).command = true := by
      rcases n with _ | m
      · simp [h0.2]
      · rw [hw m, step_reset_flag]
        simp
    rw [hw n, step_tmp_valid]
    by_cases hf : (w n).reset_flag = true
    · obtain ⟨m, rfl, hm⟩ := hflag.1 hf
      rw [if_pos hf]
      constructor
      · rintro ⟨⟩
      · rintro ⟨c, hc, -, hno⟩
        rw [hno m (by omega) (by omega)] at hm
        cases hm
    · have hquiet : ∀ m, n = m + 1 → (bus m).command = false := by
        intro m hm
        rw [← Bool.not_eq_true]
        exact fun hc => hf (hflag.2 ⟨m, hm, hc⟩)
      rw [if_neg hf]
      by_cases hv : (w n).CTValid = true
      · rw [if_pos hv]
        exact ⟨fun _ => ⟨n, Nat.lt_succ_self n, hv, fun j _ hj => hquiet j (by omega)⟩, fun _ => rfl⟩
      · rw [if_neg hv, ih]
        constructor
        · rintro ⟨c, hc, hcv, hno⟩
          refine ⟨c, by omega, hcv, fun j hj hjn => ?_⟩
          rcases Nat.lt_succ_iff_lt_or_eq.1 hjn with hjn | rfl
          · exact hno j hj hjn
          · exact hquiet j rfl
        · rintro ⟨c, hc, hcv, hno⟩
          rcases Nat.lt_succ_iff_lt_or_eq.1 hc with hc | rfl
          · exact ⟨c, hc, hcv, fun j hj hjn => hno j hj (by omega)⟩
          · exact absurd hcv hv

/-! ## The ciphertext -/

include hw in
theorem computes_of_shown (h0 : (w 0).Load_Data = false ∧ (w 0).Load_Key = false) {e : ℕ → Engine} (he0 : e 0 = .init)
    (h : IsRun Engine.step (fun n => (w n).inst_inputs) e) (he : ∀ n, Refines (w n).inst (e n)) {c : ℕ}
    (hv : (w c).CTValid = true) : ∃ q C, c = q + 22 ∧ (w c).CipherText = some C ∧ Computes bus w q C := by
  obtain ⟨A, hA⟩ := (he c).ctValid_iff.1 hv
  obtain ⟨p, hp, hprc, rfl, hstore, -⟩ := Engine.encryption_ago h (by rw [he0]; rfl) hA
  obtain ⟨q, rfl⟩ : ∃ q, p = q + 1 := by
    refine Nat.exists_eq_succ_of_ne_zero ?_
    rintro rfl
    rw [he0] at hprc
    cases hprc
  have hdata (j : ℕ) : (w (j + 1)).Load_Data = (bus j).dataCommand := by rw [hw j, step_Load_Data]
  have hkey (j : ℕ) : (w (j + 1)).Load_Key = (bus j).keyCommand := by rw [hw j, step_Load_Key]
  have hin {j : ℕ} (hj : (bus j).command = true) : (w (j + 1)).in_data = (w j).in_data := by
    rw [hw j, step_in_data x _ _ hj]
  have hB := Engine.Data_latest h he0 (q + 1)
  have hK := Engine.Key_latest h he0 (q + 1)
  have hS := Engine.store_latest h he0 hprc
  simp only [inst_inputs_Load_Data, inst_inputs_Load_Key, inst_inputs_in_data] at hB hK hS
  refine ⟨q, _, hp, ?_, _, _, _, hB.of_succ ?_ (fun j => ?_) (fun j hj => hin (Inputs.command_of_data hj)),
    hK.of_succ ?_ (fun j => ?_) (fun j hj => hin (Inputs.command_of_key hj)),
    hS.of_succ ?_ (fun j => ?_) (fun j hj => ?_), rfl⟩
  · rw [CipherText, (he c).cipherText_eq, Engine.output_eq.2 ⟨_, hA, rfl⟩, hstore]
  · simp [h0.1]
  · rw [hdata, hkey]
    exact ⟨fun hj => hj.1, fun hj => ⟨hj, Inputs.keyCommand_of_data hj⟩⟩
  · simp [h0.2]
  · rw [hkey]
  · simp [h0.2]
  · rw [hkey, ← (he (j + 1)).ready_eq]
    rfl
  · rw [hin (Inputs.command_of_key hj.1)]

include hw in
theorem lastShown (h0 : (w 0).Load_Data = false ∧ (w 0).Load_Key = false) (ht : (w 0).temp_result = 0#128)
    {e : ℕ → Engine} (he0 : e 0 = .init) (h : IsRun Engine.step (fun n => (w n).inst_inputs) e)
    (he : ∀ n, Refines (w n).inst (e n)) (n : ℕ) : LastShown bus w n (w n).temp_result := by
  have hlast := latest (P := fun j => (w j).CTValid = true) (f := fun j => (w j).temp_result)
    (v := fun j => (w j).CipherText.getD x) (fun j hj => by rw [hw j, step_temp_result, if_pos hj])
    (fun j hj => by rw [hw j, step_temp_result, if_neg hj]) n
  rcases hlast with ⟨c, hc, hC⟩ | ⟨hnone, hC⟩
  · obtain ⟨q, C, rfl, htext, hcomp⟩ := computes_of_shown hw h0 he0 h he hc.2.1
    left
    refine ⟨q, hc, ?_⟩
    dsimp only at hC
    rwa [hC, htext]
  · right
    exact ⟨fun j hj => Bool.eq_false_iff.2 (hnone j hj), hC.trans ht⟩

end Run

/-- On every trace of the bus from reset. -/
theorem result_file (x : BitVec 128) (rom : S_box) (bus : ℕ → Inputs) :
    ResultFile bus (run (step x) (reset rom) bus) := by
  have hw : IsRun (step x) bus (run (step x) (reset rom) bus) := isRun_run _ _
  obtain ⟨e, he0, h, he⟩ := exists_engine x rom bus
  constructor
  · intro n hread
    refine ⟨_, lastShown hw ⟨rfl, rfl⟩ rfl he0 h he n, fun i hi ha => ?_⟩
    rw [hw n, step_oData x _ _ hread, ha, read_result hi]
  · intro n hread ha
    rw [hw n, step_oData x _ _ hread, ha, ← flagged_iff hw ⟨rfl, rfl⟩]
    exact flag_word _

end wrapper_finalv2

end Aes128
