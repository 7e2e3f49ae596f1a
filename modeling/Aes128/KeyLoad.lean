import Aes128.Soundness
/-!
# A key load while the engine is busy

`InputInterface` takes the key in any state, and the controller starts an
expansion from `IDLE` only. So a key that arrives while the engine is busy gets
to `Key` and not to the key registers: the two stay together exactly when it is
the key that was there before.
-/

open Fips197 Clocked Rounds

namespace Aes128

namespace AES_Top

/-- `Key` is `K`, and the key registers are its schedule. -/
def HasKey (K : Block) (s : AES_Top) : Prop :=
  s.ins_inputinterface.Key = K ∧ ∀ i < 11, s.ins_KeyLogic.key_reg[i]? = some (roundKey K i)

/-- An expansion of `Key` starts, is running, or is done. -/
def Expanded (s : AES_Top) : Prop :=
  s.keylogic_start = true ∨
  (s.ins_KeyLogic.controller.state ≠ .IDLE ∧ s.ins_KeyLogic.key_reg[0]? = some s.ins_inputinterface.Key) ∨
  (s.ins_KeyLogic.controller.state = .IDLE ∧
    ∀ i < 11, s.ins_KeyLogic.key_reg[i]? = some (roundKey s.ins_inputinterface.Key i))

/-- Whatever comes after `K₁` was loaded, but another key: every block is started with the old
key in both places or with the new key in both. -/
def AllOrNothing (x : BitVec 128) (s : AES_Top) (K₁ : Block) : Prop :=
  ∀ ins : ℕ → Inputs, (ins 0).Load_Key = true → (ins 0).in_data = K₁ → (∀ n > 0, (ins n).Load_Key = false) →
    ∀ n > 0, (run (step x) s ins n).pcore_start = true →
      (run (step x) s ins n).HasKey s.ins_inputinterface.Key ∨ (run (step x) s ins n).HasKey K₁

end AES_Top

/-! ## The store of a reachable state -/

/-- Empty, or the schedule of some key. -/
def Engine.Filled (e : Engine) : Prop := (e.store = fun _ => 0#128) ∨ ∃ K, e.store = roundKey K

theorem Engine.Filled.step {e : Engine} (h : e.Filled) (i : AES_Top.Inputs) : (e.step i).Filled := by
  rcases hx : e.expanded with _ | K
  · rwa [Filled, step_store hx]
  · exact .inr ⟨K, by rw [Engine.step, hx, Option.elim]⟩

theorem AES_Top.Reachable.refines_filled {x : BitVec 128} {s : AES_Top} (h : s.Reachable x) :
    ∃ e, Refines s e ∧ e.Filled := by
  induction h with
  | init h =>
    obtain ⟨rom, rfl⟩ := h
    exact ⟨_, refines_reset rom, .inl rfl⟩
  | step i _ ih =>
    obtain ⟨e, he, hf⟩ := ih
    exact ⟨_, he.step x i, hf.step i⟩

/-- An empty store is no schedule. -/
theorem roundKey_one_ne_zero : roundKey 0#128 1 ≠ 0#128 := by
  have hb : sbox 0#8 = 0x63#8 := by
    rw [sbox, Gf256.inv_zero]
    rfl
  have hsub : subWord (rotWord (w 0#128 3)) = 0x63636363#32 :=
    calc subWord (rotWord (w 0#128 3)) = (sbox 0#8 ++ sbox 0#8 ++ sbox 0#8 ++ sbox 0#8 : BitVec 32) := rfl
      _ = 0x63636363#32 := by rw [hb]; rfl
  have hw : w 0#128 4 = 0x62636363#32 := by
    rw [(w_next 0#128 0).1, hsub]
    decide +kernel
  intro h
  have h4 := (roundKey_words 0#128 1).1
  rw [h, hw] at h4
  exact absurd h4 (by decide)

theorem Engine.Filled.eq_roundKey {e : Engine} (h : e.Filled) {K : Block} (hK : ∀ i < 11, e.store i = roundKey K i) :
    e.store = roundKey K := by
  have h0 := hK 0 (by decide)
  rw [roundKey_zero] at h0
  rcases h with h | ⟨K', h⟩
  · rw [h] at h0 hK
    rw [← h0] at hK
    exact absurd (hK 1 (by decide)).symm roundKey_one_ne_zero
  · rw [h, roundKey_zero] at h0
    rw [h, h0]

namespace Refines

variable {s : AES_Top} {e : Engine} (h : Refines s e)
include h

theorem consistent_of_expanded (hf : e.Filled) (hbusy : e.phase ≠ .idle) (hx : s.Expanded) : e.Consistent := by
  have hk : s.ins_KeyLogic.controller.state = .IDLE ↔ Engine.keyUnit e.phase = none := by
    rw [h.keyController, KeyLogicController.ofUnit_idle]
  rw [AES_Top.Expanded, h.keylogic_start_iff, hk, h.inputs] at hx
  have hrest (hu : Engine.keyUnit e.phase = none) (hne : e.phase ≠ .keyExpand) : e.store = roundKey e.Key := by
    obtain ⟨hv, hs⟩ := Engine.valid_shown_of_none hu
    refine hf.eq_roundKey fun i hi => ?_
    rcases hx with hx | ⟨hx, -⟩ | ⟨-, hx⟩
    · exact absurd hx hne
    · exact absurd (hk.2 hu) hx
    · exact Option.some_inj.1 (by rw [← hx i hi, h.keys i (by rw [hv]; exact hi), hs])
  rw [Engine.Consistent, Engine.Holds]
  cases hp : e.phase with
  | idle => exact absurd hp hbusy
  | keyExpand => rfl
  | waitKeyex K b =>
    obtain ⟨hv, hs⟩ := Engine.valid_shown hp
    have hk0 := h.keys 0 (by rw [hv]; exact b.round_mem.1)
    rw [hs, roundKey_zero] at hk0
    rw [hp] at hx
    rcases hx with hx | ⟨-, hx⟩ | ⟨hx, -⟩
    · cases hx
    · exact Option.some_inj.1 (hk0.symm.trans hx)
    · cases hx
  | prc => exact hrest (by rw [hp]; rfl) (by simp [hp])
  | waitPCore B b => exact hrest (by rw [hp]; rfl) (by simp [hp])

theorem hasKey_iff (hp : e.phase = .prc) {K' : Block} (hst : e.store = roundKey K') (K : Block) :
    s.HasKey K ↔ e.Key = K ∧ K' = K := by
  obtain ⟨hv, hs⟩ := Engine.valid_shown_of_none (e := e) (by rw [hp]; rfl)
  have hk := h.keys
  rw [hv, hs, hst] at hk
  rw [AES_Top.HasKey, h.inputs]
  constructor
  · rintro ⟨hKey, hreg⟩
    have h0 := (hk 0 (by decide)).symm.trans (hreg 0 (by decide))
    rw [roundKey_zero, roundKey_zero, Option.some_inj] at h0
    exact ⟨hKey, h0⟩
  · rintro ⟨hKey, rfl⟩
    exact ⟨hKey, hk⟩

end Refines

/-! ## After the load -/

section Run
variable {ins : ℕ → AES_Top.Inputs} {e : ℕ → Engine} (h : IsRun Engine.step ins e)
  (hlater : ∀ n > 0, (ins n).Load_Key = false)
include h hlater

theorem Key_after_load (hload : (ins 0).Load_Key = true) {n : ℕ} (hn : 0 < n) : (e n).Key = (ins 0).in_data := by
  refine Engine.Key_eq h ⟨hn, hload, fun j hj _ => ?_⟩
  simp [hlater j hj]

/-- The key does not get to the store. -/
theorem holds_after_load (hbusy : (e 0).phase ≠ .idle) (hc : (e 0).Consistent) (n : ℕ) : (e n).Holds (e 0).Key := by
  induction n with
  | zero => exact hc
  | succ n ih =>
    rw [h n]
    refine ih.step fun hidle => ?_
    rcases Nat.eq_zero_or_pos n with rfl | hn
    · exact absurd hidle hbusy
    · exact hlater n hn

/-- Blocks that keep coming are started. -/
theorem exists_prc (hdata : ∀ n > 0, (ins n).Load_Data = true) : ∃ n > 0, (e n).phase = .prc := by
  obtain ⟨m, hm, -, hidle⟩ := Engine.exists_idle h 1
  have hphase (n : ℕ) : (e (n + 1)).phase = (e n).next (ins n) := by rw [h n, Engine.step_phase]
  by_cases hl : (e m).in_loaded = true
  · exact ⟨m + 1, by omega, (hphase m).trans (Engine.next_idle_waiting hidle (hlater m hm) hl)⟩
  · have hidle₁ := (hphase m).trans (Engine.next_idle_empty hidle (hlater m hm) (Bool.eq_false_iff.2 hl))
    have hloaded : (e (m + 1)).in_loaded = true := by
      rw [h m, Engine.step_in_loaded (by simp [hidle]), hdata m hm, Bool.true_or]
    exact ⟨m + 2, by omega, (hphase (m + 1)).trans (Engine.next_idle_waiting hidle₁ (hlater _ (by omega)) hloaded)⟩

end Run

/-- In a busy state with its key expanded, or being expanded: a key load is all or nothing exactly when
it loads the key that is there. -/
theorem all_or_nothing_iff (x : BitVec 128) (s : AES_Top) (hs : s.Reachable x) (hbusy : s.Ready_new_input = false)
    (hx : s.Expanded) (K₁ : Block) : s.AllOrNothing x K₁ ↔ K₁ = s.ins_inputinterface.Key := by
  obtain ⟨e, he, hf⟩ := hs.refines_filled
  have hne : e.phase ≠ .idle := by
    rw [ne_eq, ← he.ready_eq, hbusy]
    decide
  have hc := he.consistent_of_expanded hf hne hx
  have hKey : s.ins_inputinterface.Key = e.Key := congrArg InputInterface.Key he.inputs
  -- in a start cycle after the load, `Key` is `K₁` and the registers are those of the old key
  have hstart (ins : ℕ → AES_Top.Inputs) (hload : (ins 0).Load_Key = true) (hdata : (ins 0).in_data = K₁)
      (hlater : ∀ n > 0, (ins n).Load_Key = false) (n : ℕ) (hn : 0 < n)
      (hp : (run Engine.step e ins n).phase = .prc) (K : Block) :
      (run (AES_Top.step x) s ins n).HasKey K ↔ K₁ = K ∧ e.Key = K := by
    have hrun : IsRun Engine.step ins (run Engine.step e ins) := isRun_run _ _
    have hh := holds_after_load hrun hlater hne hc n
    rw [Engine.Holds, hp] at hh
    rw [(he.run x ins n).hasKey_iff hp hh, Key_after_load hrun hlater hload hn, hdata]
    rfl
  rw [hKey]
  constructor
  · intro hall
    let ins (n : ℕ) : AES_Top.Inputs := ⟨K₁, n == 0, true⟩
    have hlater : ∀ n > 0, (ins n).Load_Key = false := fun n hn => by simp [ins]; omega
    obtain ⟨n, hn, hp⟩ := exists_prc (isRun_run e ins) hlater fun _ _ => rfl
    have hpair := hall ins rfl rfl hlater n hn ((he.run x ins n).pcore_start_iff.2 hp)
    rw [hstart ins rfl rfl hlater n hn hp, hstart ins rfl rfl hlater n hn hp, hKey] at hpair
    rcases hpair with ⟨h, -⟩ | ⟨-, h⟩
    · exact h
    · exact h.symm
  · rintro rfl ins hload hdata hlater n hn hp
    left
    rw [hKey]
    exact (hstart ins hload hdata hlater n hn ((he.run x ins n).pcore_start_iff.1 hp) e.Key).2 ⟨rfl, rfl⟩

/-- An expansion of the key 7 is running. -/
theorem all_or_nothing_iff_expanding :
    (run (AES_Top.step 0#128) (.reset (.posedge 0#128)) load_key_then_data 5).AllOrNothing 0#128 1#128 ↔
      1#128 = (run (AES_Top.step 0#128) (.reset (.posedge 0#128)) load_key_then_data 5).ins_inputinterface.Key :=
  all_or_nothing_iff _ _ (.run (.init ⟨_, rfl⟩) _ 5) (by decide +kernel)
    (.inr (.inl ⟨by decide +kernel, by decide +kernel⟩)) _

/-- The key 1 comes in the fifth cycle of a run on the key 7: the block is whitened with 1, and its
rounds use 7. -/
theorem busy_load_splits :
    let s := run (AES_Top.step 0#128) (.reset (.posedge 0#128)) load_key_then_data 5
    s.Reachable 0#128 ∧ s.Ready_new_input = false ∧ s.Expanded ∧ ¬ s.AllOrNothing 0#128 1#128 := by
  intro s
  refine ⟨.run (.init ⟨_, rfl⟩) _ 5, by decide +kernel, .inr (.inl ⟨by decide +kernel, by decide +kernel⟩), fun hall => ?_⟩
  let ins (n : ℕ) : AES_Top.Inputs := ⟨1#128, n == 0, false⟩
  have hlater : ∀ n > 0, (ins n).Load_Key = false := fun n hn => by simp [ins]; omega
  -- the block that was loaded before is started 18 cycles later
  rcases hall ins rfl rfl hlater 18 (by decide) (by decide +kernel) with ⟨hKey, -⟩ | ⟨-, hreg⟩
  · revert hKey
    decide +kernel
  · have h0 := hreg 0 (by decide)
    rw [roundKey_zero] at h0
    revert h0
    decide +kernel

end Aes128
