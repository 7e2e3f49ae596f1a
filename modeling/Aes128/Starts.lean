import Aes128.Soundness
/-!
# When the core is started

`in_loaded` carries a block from its `Load_Data` to the start of the core. The
pulse is kept in every cycle but the start cycle of a block, whose clear comes
last. `key_generated` is set at the end of every expansion and read nowhere, so
a block that comes before the first key is put through an empty key store.
-/

open Fips197 Clocked Rounds

namespace Aes128

namespace Engine

/-! ## From a waiting block to its start -/

/-- Cycles until a waiting block is started at most, when a key that is loaded first takes `k` cycles. -/
def untilStart (k : ℕ) : Phase → ℕ
  | .idle => k + 1
  | .keyExpand => 22
  | .waitKeyex _ b => 22 - b.elapsed
  | .prc => 0
  | .waitPCore _ b => k + 23 - b.elapsed

theorem untilStart_le (k : ℕ) (φ : Phase) : untilStart k φ ≤ k + 22 := by
  rcases φ with _ | _ | ⟨K, b⟩ | _ | ⟨B, b⟩ <;> simp only [untilStart]
  case waitPCore =>
    have := b.elapsed_pos
    omega
  all_goals omega

theorem untilStart_step {e : Engine} (hl : e.in_loaded = true) (hp : e.phase ≠ .prc) {i : AES_Top.Inputs} {k : ℕ}
    (hk : i.Load_Key = true → 22 ≤ k) : untilStart k (e.step i).phase < untilStart k e.phase := by
  have hr : e.resume = .prc := if_pos hl
  rw [step_phase]
  rcases hphase : e.phase with _ | _ | ⟨K, b⟩ | _ | ⟨B, b⟩
  · rw [next_idle hphase, hr]
    split
    next hkey => exact Nat.lt_succ_of_le (hk hkey)
    next => exact Nat.succ_pos k
  · rw [next_keyExpand hphase]
    exact Nat.lt_succ_self 21
  · have hle := b.elapsed_le
    rw [next_waitKeyex hphase]
    rcases hb : b.next with _ | c
    · simp only [Option.elim, hr, untilStart]
      omega
    · have := Beat.elapsed_next hb
      simp only [Option.elim, untilStart]
      omega
  · exact absurd hphase hp
  · have hle := b.elapsed_le
    rw [next_waitPCore hphase]
    rcases hb : b.next with _ | c
    · simp only [Option.elim, untilStart]
      omega
    · have := Beat.elapsed_next hb
      simp only [Option.elim, untilStart]
      omega

section Quiet
variable {ins : ℕ → AES_Top.Inputs} {e : ℕ → Engine} (h : IsRun step ins e) {n : ℕ}
  (hquiet : ∀ j, n ≤ j → (ins j).Load_Key = false ∧ (ins j).Load_Data = false)

include h hquiet in
/-- A waiting block is started, as it is in `Data`. -/
theorem exists_start (hl : (e n).in_loaded = true) :
    ∃ p, n ≤ p ∧ p ≤ n + 22 ∧ (e p).phase = .prc ∧ (e p).Data = (e n).Data := by
  obtain ⟨p, hp, hle, ⟨-, hdata⟩, hprc⟩ := leads_to (P := fun j => (e j).phase = .prc)
    (Q := fun j => (e j).in_loaded = true ∧ (e j).Data = (e n).Data) (f := fun j => untilStart 0 (e j).phase)
    ⟨hl, rfl⟩ (fun j hj ⟨hlj, hdj⟩ hpj => by
      obtain ⟨hk, hd⟩ := hquiet j hj
      rw [h j, step_in_loaded hpj, step_Data hd, hd, hlj]
      exact ⟨⟨rfl, hdj⟩, untilStart_step hlj hpj fun hkey => absurd hkey (Bool.eq_false_iff.1 hk)⟩)
  have := untilStart_le 0 (e n).phase
  exact ⟨p, hp, by omega, hprc, hdata⟩

include h hquiet in
/-- Without a block, nothing is started. -/
theorem no_start (hl : (e n).in_loaded = false) (hp : (e n).phase ≠ .prc) {p : ℕ} (hnp : n ≤ p) :
    (e p).phase ≠ .prc := by
  suffices (e p).in_loaded = false ∧ (e p).phase ≠ .prc from this.2
  induction p, hnp using Nat.le_induction with
  | base => exact ⟨hl, hp⟩
  | succ j hj ih =>
    obtain ⟨hlj, hpj⟩ := ih
    rw [h j]
    constructor
    · rw [step_in_loaded hpj, (hquiet j hj).2, hlj]
      rfl
    · intro hstart
      have hlt := (next_eq_prc hstart).1
      rw [hlj] at hlt
      cases hlt

end Quiet

end Engine

/-! ## A block alone -/

theorem Refines.tempbus_of_prc {s : AES_Top} {e : Engine} (h : Refines s e) (hp : e.phase = .prc) :
    s.tempbus = some (e.Data ^^^ s.ins_inputinterface.Key) := by
  rw [h.tempbus_eq, h.inputs, Engine.keyStart, Engine.coreStart, hp]
  rfl

/-- After cycle 0 the core is started within 24 cycles, on the block `P` whitened with `Key`. -/
def AES_Top.Starts (x : BitVec 128) (s : AES_Top) (ins : ℕ → Inputs) (P : Block) : Prop :=
  ∃ p > 0, p ≤ 24 ∧ (run (step x) s ins p).pcore_start = true ∧
    (run (step x) s ins p).tempbus = some (P ^^^ (run (step x) s ins p).ins_inputinterface.Key)

/-- A start cycle drops the pulse: nothing is started after it. -/
theorem start_drops_load {x : BitVec 128} {s : AES_Top} (hs : s.Reachable x) (hstart : s.pcore_start = true)
    {ins : ℕ → AES_Top.Inputs} (hquiet : ∀ n > 0, (ins n).Load_Key = false ∧ (ins n).Load_Data = false) {p : ℕ}
    (hp : 0 < p) : (run (AES_Top.step x) s ins p).pcore_start = false := by
  obtain ⟨e, h, he⟩ := hs.exists_engine ins
  have hprc : (e 0).phase = .prc := (he 0).pcore_start_iff.1 hstart
  have hl : (e 1).in_loaded = false := by rw [h 0, Engine.step_in_loaded_prc hprc]
  have hbusy : (e 1).phase ≠ .prc := by
    rw [h 0, Engine.step_phase, Engine.next_prc hprc]
    rintro ⟨⟩
  rw [← Bool.not_eq_true, (he p).pcore_start_iff]
  exact Engine.no_start h hquiet hl hbusy hp

/-- A `Load_Data` pulse with no load after it is dropped exactly when it comes in the start cycle
of a block. -/
theorem load_starts_iff (x : BitVec 128) (s : AES_Top) (hs : s.Reachable x) (P : Block) (ins : ℕ → AES_Top.Inputs)
    (hload : ins 0 = ⟨P, false, true⟩)
    (hquiet : ∀ n > 0, (ins n).Load_Key = false ∧ (ins n).Load_Data = false) :
    s.Starts x ins P ↔ s.pcore_start = false := by
  constructor
  · rintro ⟨p, hp, -, hstart, -⟩
    by_contra hs0
    rw [start_drops_load hs (Bool.eq_true_of_not_eq_false hs0) hquiet hp] at hstart
    cases hstart
  · intro hs0
    obtain ⟨e, h, he⟩ := hs.exists_engine ins
    have hne : (e 0).phase ≠ .prc := fun hp => Bool.eq_false_iff.1 hs0 ((he 0).pcore_start_iff.2 hp)
    have hl : (e 1).in_loaded = true := by rw [h 0, Engine.step_in_loaded hne, hload, Bool.true_or]
    have hdata : (e 1).Data = P := by
      rw [h 0, hload]
      rfl
    obtain ⟨p, hp, hle, hprc, hkept⟩ := Engine.exists_start h hquiet hl
    refine ⟨p, by omega, by omega, (he p).pcore_start_iff.2 hprc, ?_⟩
    rw [(he p).tempbus_of_prc hprc, hkept, hdata]

/-- The block 5 in cycle 0, and no other load. -/
def one_block (n : ℕ) : AES_Top.Inputs := ⟨5#128, false, n == 0⟩

theorem one_block_quiet : ∀ n > 0, (one_block n).Load_Key = false ∧ (one_block n).Load_Data = false := by
  intro n hn
  exact ⟨rfl, beq_false_of_ne (by omega)⟩

/-- In the fifth cycle of an expansion. -/
theorem load_starts_iff_expanding :
    let s := run (AES_Top.step 0#128) (.reset (.posedge 0#128)) load_key_then_data 5
    s.Starts 0#128 one_block 5#128 ↔ s.pcore_start = false :=
  load_starts_iff _ _ (.run (.init ⟨_, rfl⟩) _ 5) _ _ rfl one_block_quiet

/-- The key 7 has been expanded, and the block 9 is started in cycle 23: the block 5 that comes then is
not started in any later cycle. -/
theorem start_drops_five :
    let s := run (AES_Top.step 0#128) (.reset (.posedge 0#128)) load_key_then_data
    (s 22).keyex_done = true ∧ (s 23).Reachable 0#128 ∧ ¬ (s 23).Starts 0#128 one_block 5#128 ∧
      ∀ p > 0, (run (AES_Top.step 0#128) (s 23) one_block p).pcore_start = false := by
  intro s
  have hs : (s 23).Reachable 0#128 := .run (.init ⟨_, rfl⟩) _ 23
  have hnever : ∀ p > 0, (run (AES_Top.step 0#128) (s 23) one_block p).pcore_start = false :=
    fun p hp => start_drops_load hs (by decide +kernel) one_block_quiet hp
  refine ⟨by decide +kernel, hs, ?_, hnever⟩
  rintro ⟨p, hp, -, hstart, -⟩
  rw [hnever p hp] at hstart
  cases hstart

/-! ## A block before the first key -/

namespace Engine

/-- A key has been expanded, or its expansion is on its way. -/
def Provided (e : Engine) : Prop :=
  e.key_generated = true ∨ e.phase = .keyExpand ∨ ∃ K b, e.phase = .waitKeyex K b

theorem Provided.step {e : Engine} (h : e.Provided) (i : AES_Top.Inputs) : (e.step i).Provided := by
  rcases h with h | h | ⟨K, b, h⟩
  · left
    simp only [Engine.step, h, Bool.or_true]
  · right; right
    exact ⟨e.Key, .lookup 0, next_keyExpand h i⟩
  · have hphase := next_waitKeyex h i
    rcases hb : b.next with _ | c
    · left
      rw [Beat.next_eq_none.1 hb] at h
      simp only [Engine.step, expanded_eq.2 h, Option.isSome_some, Bool.true_or]
    · right; right
      rw [hb] at hphase
      exact ⟨K, c, hphase⟩

theorem Provided.of_prc {e : Engine} (h : e.Provided) (hp : e.phase = .prc) : e.key_generated = true := by
  rcases h with h | h | ⟨K, b, h⟩
  · exact h
  · rw [hp] at h; cases h
  · rw [hp] at h; cases h

section Run
variable {ins : ℕ → AES_Top.Inputs} {e : ℕ → Engine} (h : IsRun step ins e) (h0 : e 0 = .init)
include h h0

/-- The flag tells of an expansion since the reset. -/
theorem key_generated_iff (n : ℕ) : (e n).key_generated = true ↔ ∃ m < n, (e m).expanded.isSome = true := by
  induction n with
  | zero =>
    rw [h0]
    constructor
    · rintro ⟨⟩
    · rintro ⟨m, hm, -⟩
      exact absurd hm (Nat.not_lt_zero m)
  | succ n ih =>
    simp only [h n, step, Bool.or_eq_true, ih]
    constructor
    · rintro (hx | ⟨m, hm, hx⟩)
      · exact ⟨n, Nat.lt_succ_self n, hx⟩
      · exact ⟨m, by omega, hx⟩
    · rintro ⟨m, hm, hx⟩
      rcases Nat.lt_succ_iff_lt_or_eq.1 hm with hm | rfl
      · exact .inr ⟨m, hm, hx⟩
      · exact .inl hx

/-- With a key for every block, the engine is idle until the first key. -/
theorem provided_or_idle (hkey : ∀ d, (ins d).Load_Data = true → ∃ k ≤ d + 1, (ins k).Load_Key = true) (n : ℕ) :
    (e n).Provided ∨ ((e n).phase = .idle ∧ ∀ k < n, (ins k).Load_Key = false) := by
  induction n with
  | zero =>
    right
    rw [h0]
    exact ⟨rfl, fun k hk => absurd hk (Nat.not_lt_zero k)⟩
  | succ n ih =>
    rcases ih with hp | ⟨hidle, hnone⟩
    · left
      rw [h n]
      exact hp.step (ins n)
    · by_cases hk : (ins n).Load_Key = true
      · left; right; left
        rw [h n, step_phase, next_idle_key hidle hk]
      · right
        have hk := Bool.eq_false_iff.2 hk
        have hnone' (k : ℕ) (hkn : k < n + 1) : (ins k).Load_Key = false := by
          rcases Nat.lt_succ_iff_lt_or_eq.1 hkn with hkn | rfl
          · exact hnone k hkn
          · exact hk
        -- a waiting block would have its key by now
        have hl : (e n).in_loaded = false := by
          rw [← Bool.not_eq_true]
          intro hl
          obtain ⟨d, hd, hload, -⟩ := exists_load h (by rw [h0]; rfl) hl
          obtain ⟨k, hkd, hkey⟩ := hkey d hload
          rw [hnone' k (by omega)] at hkey
          cases hkey
        refine ⟨?_, hnone'⟩
        rw [h n, step_phase, next_idle_empty hidle hk hl]

/-- Before the first load the engine is as the reset left it. -/
theorem idle_before_load {d : ℕ} (hnone : ∀ j < d, (ins j).Load_Key = false ∧ (ins j).Load_Data = false) {n : ℕ}
    (hn : n ≤ d) : (e n).phase = .idle ∧ (e n).in_loaded = false := by
  induction n with
  | zero => rw [h0]; exact ⟨rfl, rfl⟩
  | succ n ih =>
    obtain ⟨hidle, hl⟩ := ih (by omega)
    obtain ⟨hk, hd⟩ := hnone n (by omega)
    rw [h n]
    constructor
    · rw [step_phase, next_idle_empty hidle hk hl]
    · rw [step_in_loaded (by rw [hidle]; rintro ⟨⟩), hd, hl]
      rfl

/-- The first block is started two cycles later, when no key has come. -/
theorem start_without_key {d : ℕ} (hd : (ins d).Load_Data = true) (hfirst : ∀ j < d, (ins j).Load_Data = false)
    (hnone : ∀ k ≤ d + 1, (ins k).Load_Key = false) : (e (d + 2)).phase = .prc ∧ (e (d + 2)).key_generated = false := by
  obtain ⟨hidle, hl⟩ := idle_before_load h h0 (fun j hj => ⟨hnone j (by omega), hfirst j hj⟩) (Nat.le_refl d)
  have hidle₁ : (e (d + 1)).phase = .idle := by
    rw [h d, step_phase, next_idle_empty hidle (hnone d (by omega)) hl]
  have hl₁ : (e (d + 1)).in_loaded = true := by
    rw [h d, step_in_loaded (by rw [hidle]; rintro ⟨⟩), hd, Bool.true_or]
  constructor
  · rw [h (d + 1), step_phase, next_idle_waiting hidle₁ (hnone _ (Nat.le_refl _)) hl₁]
  · rw [← Bool.not_eq_true, key_generated_iff h h0]
    rintro ⟨m, hm, hx⟩
    have hphase : (e m).phase = .idle := by
      rcases Nat.lt_succ_iff_lt_or_eq.1 hm with hm | rfl
      · exact (idle_before_load h h0 (fun j hj => ⟨hnone j (by omega), hfirst j hj⟩) (Nat.le_of_lt_succ hm)).1
      · exact hidle₁
    simp [expanded, hphase] at hx

end Run

end Engine

/-- In a run from reset, every start of the core comes after an expansion exactly when every block comes
after a key, together with one, or in the cycle right before one. -/
theorem starts_keyed_iff (x : BitVec 128) (rom : S_box) (ins : ℕ → AES_Top.Inputs) :
    let s := run (AES_Top.step x) (.reset rom) ins
    (∀ n, (s n).pcore_start = true →
      (s n).ins_systemcontroller.key_generated = true ∧ ∃ m < n, (s m).keyex_done = true) ↔
    ∀ d, (ins d).Load_Data = true → ∃ k ≤ d + 1, (ins k).Load_Key = true := by
  intro s
  obtain ⟨e, h0, h, he⟩ := exists_engine_reset x rom ins
  have hflag (n : ℕ) : (s n).ins_systemcontroller.key_generated = (e n).key_generated := by rw [(he n).system]
  constructor
  · intro hkeyed
    by_contra hnone
    -- the first block without a key
    push Not at hnone
    obtain ⟨d, hd, hk⟩ := hnone
    have hex : ∃ j, (ins j).Load_Data = true := ⟨d, hd⟩
    have hle : Nat.find hex ≤ d := Nat.find_min' hex hd
    have hfirst (j : ℕ) (hj : j < Nat.find hex) : (ins j).Load_Data = false :=
      Bool.eq_false_iff.2 (Nat.find_min hex hj)
    obtain ⟨hprc, hgen⟩ := Engine.start_without_key h h0 (Nat.find_spec hex) hfirst
      fun k hkd => Bool.eq_false_iff.2 (hk k (by omega))
    have htrue := (hkeyed _ ((he _).pcore_start_iff.2 hprc)).1
    rw [hflag, hgen] at htrue
    cases htrue
  · intro hkey n hstart
    have hprc := (he n).pcore_start_iff.1 hstart
    have hgen : (e n).key_generated = true := by
      rcases Engine.provided_or_idle h h0 hkey n with hp | ⟨hidle, -⟩
      · exact hp.of_prc hprc
      · rw [hidle] at hprc
        cases hprc
    obtain ⟨m, hm, hx⟩ := (Engine.key_generated_iff h h0 n).1 hgen
    exact ⟨(hflag n).trans hgen, m, hm, (he m).keyex_done_eq.trans hx⟩

/-- The block 9 in cycle 0 and the key 7 in cycle 30. -/
def data_then_key (n : ℕ) : AES_Top.Inputs := ⟨if n = 0 then 9#128 else 7#128, n == 30, n == 0⟩

/-- The block is started in cycle 2, and every key register is 0. -/
theorem start_unkeyed :
    let s := run (AES_Top.step 0#128) (.reset (.posedge 0#128)) data_then_key
    (s 2).pcore_start = true ∧ (s 2).ins_systemcontroller.key_generated = false ∧
      (s 2).ins_KeyLogic.key_reg = .replicate 11 0#128 := by
  decide +kernel

end Aes128
