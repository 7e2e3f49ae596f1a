import Aes128.Counting
import Aes128.Starts
/-!
# Accounts

What becomes of everything that AES_Top is given. A block is encrypted by the
first start after it, unless another block came first, and again by the next
start when that was asked for without a new block. Every `Load_Key` is expanded
once or came while the engine was busy. The cycles are accounted for too: the
ones that are not ready are 22 for each finished job.
-/

open Fips197 Clocked Rounds Counting Finset

namespace Aes128

namespace Engine

/-! ## Jobs and their ends -/

section Jobs
variable {ins : ℕ → AES_Top.Inputs} {e : ℕ → Engine} (h : IsRun step ins e)

include h in
/-- A ciphertext is shown 21 cycles after a start, and at no other time. -/
theorem output_iff_prc (h0 : coreUnit (e 0).phase = none) (n : ℕ) :
    (e (n + 21)).output.isSome = true ↔ (e n).phase = .prc := by
  constructor
  · intro ho
    obtain ⟨C, hC⟩ := Option.isSome_iff_exists.1 ho
    obtain ⟨B, hB, -⟩ := output_eq.1 hC
    obtain ⟨p, hp, hprc, -⟩ := encryption_ago h h0 hB
    rw [show n = p from Nat.add_right_cancel hp]
    exact hprc
  · intro hp
    rw [(encryption_ahead h hp).1]
    rfl

include h in
theorem output_early (h0 : coreUnit (e 0).phase = none) {n : ℕ} (hn : n < 21) : (e n).output.isSome = false := by
  rw [← Bool.not_eq_true]
  intro ho
  obtain ⟨C, hC⟩ := Option.isSome_iff_exists.1 ho
  obtain ⟨B, hB, -⟩ := output_eq.1 hC
  obtain ⟨p, hp, -⟩ := encryption_ago h h0 hB
  simp only [Beat.elapsed] at hp
  omega

include h in
theorem expanded_iff_keyExpand (h0 : keyUnit (e 0).phase = none) (n : ℕ) :
    (e (n + 21)).expanded.isSome = true ↔ (e n).phase = .keyExpand := by
  constructor
  · intro hx
    obtain ⟨K, hK⟩ := Option.isSome_iff_exists.1 hx
    obtain ⟨p, hp, hkey, -⟩ := expansion_ago h h0 (expanded_eq.1 hK)
    rw [show n = p from Nat.add_right_cancel hp]
    exact hkey
  · intro hp
    rw [expanded_eq.2 (expansion_ahead h hp).1]
    rfl

include h in
theorem expanded_early (h0 : (e 0).phase = .idle) {n : ℕ} (hn : n < 22) : (e n).expanded.isSome = false := by
  rw [← Bool.not_eq_true]
  intro hx
  obtain ⟨K, hK⟩ := Option.isSome_iff_exists.1 hx
  obtain ⟨p, hp, hkey, -⟩ := expansion_ago h (by rw [h0]; rfl) (expanded_eq.1 hK)
  simp only [Beat.elapsed] at hp
  rw [show p = 0 by omega, h0] at hkey
  cases hkey

theorem resume_ne_keyExpand (e : Engine) : e.resume ≠ .keyExpand := by
  rcases resume_cases e with ⟨-, h⟩ | ⟨-, h⟩ <;> rw [h] <;> rintro ⟨⟩

/-- A key is accepted in idle cycles only. -/
theorem next_eq_keyExpand {i : AES_Top.Inputs} {e : Engine} :
    e.next i = .keyExpand ↔ e.phase = .idle ∧ i.Load_Key = true := by
  constructor
  · intro hn
    rcases hp : e.phase with _ | _ | ⟨K, b⟩ | _ | ⟨B, b⟩
    · rw [next_idle hp] at hn
      split at hn
      next hk => exact ⟨rfl, hk⟩
      next => exact absurd hn (resume_ne_keyExpand e)
    · rw [next_keyExpand hp] at hn; cases hn
    · rw [next_waitKeyex hp] at hn
      rcases hb : b.next with _ | c <;> rw [hb] at hn
      · exact absurd hn (resume_ne_keyExpand e)
      · cases hn
    · rw [next_prc hp] at hn; cases hn
    · rw [next_waitPCore hp] at hn
      rcases hb : b.next with _ | c <;> rw [hb] at hn <;> cases hn
  · rintro ⟨hp, hk⟩
    exact next_idle_key hp hk

include h in
theorem expanded_iff_accepted (h0 : (e 0).phase = .idle) (n : ℕ) :
    (e (n + 22)).expanded.isSome = true ↔ (e n).phase = .idle ∧ (ins n).Load_Key = true := by
  rw [show n + 22 = n + 1 + 21 from rfl, expanded_iff_keyExpand h (by rw [h0]; rfl), h n, step_phase,
    next_eq_keyExpand]

end Jobs

/-! ## From a pulse to its start -/

/-- A pulse that does not come in a start cycle is followed by a start, whatever else comes: a key is
expanded before it at most. -/
theorem exists_start_of_pulse {ins : ℕ → AES_Top.Inputs} {e : ℕ → Engine} (h : IsRun step ins e) {n : ℕ}
    (hd : (ins n).Load_Data = true) (hp : (e n).phase ≠ .prc) : ∃ p, n < p ∧ p ≤ n + 45 ∧ (e p).phase = .prc := by
  have hl : (e (n + 1)).in_loaded = true := by rw [h n, step_in_loaded hp, hd, Bool.true_or]
  obtain ⟨p, hnp, hle, -, hprc⟩ := leads_to (P := fun j => (e j).phase = .prc) (Q := fun j => (e j).in_loaded = true)
    (f := fun j => untilStart 22 (e j).phase) hl fun j _ hlj hj => by
      rw [h j]
      exact ⟨by rw [step_in_loaded hj, hlj, Bool.or_true], untilStart_step hlj hj fun _ => Nat.le_refl 22⟩
  have hbound := untilStart_le 22 (e (n + 1)).phase
  exact ⟨p, hnp, by omega, hprc⟩

/-! ## Time spent -/

/-- Cycles spent on the job at hand. -/
def spent : Phase → ℕ
  | .waitKeyex _ b => b.elapsed
  | .waitPCore _ b => b.elapsed
  | _ => 0

theorem spent_lt (φ : Phase) : spent φ < 22 := by
  rcases φ with _ | _ | ⟨K, b⟩ | _ | ⟨B, b⟩
  case waitKeyex => exact Nat.lt_succ_of_le b.elapsed_le
  case waitPCore => exact Nat.lt_succ_of_le b.elapsed_le
  all_goals exact Nat.zero_lt_succ 21

theorem spent_resume (e : Engine) : spent e.resume = 0 := by
  rcases resume_cases e with ⟨-, h⟩ | ⟨-, h⟩ <;> rw [h] <;> rfl

end Engine

/-! ## What one cycle does to the accounts -/

/-- A pulse sets `in_loaded` and a start clears it; a pulse in a start cycle, or while `in_loaded` is set, is lost. -/
theorem AES_Top.in_loaded_balance {s : AES_Top} (hl : s.pcore_start = true → s.ins_systemcontroller.in_loaded = true)
    (x : BitVec 128) (i : Inputs) :
    (s.step x i).ins_systemcontroller.in_loaded.toNat + ((if s.pcore_start = true then 1 else 0) +
        (if i.Load_Data = true ∧ s.pcore_start = true then 1 else 0) +
        if i.Load_Data = true ∧ s.ins_systemcontroller.in_loaded = true ∧ s.pcore_start = false then 1 else 0) =
      s.ins_systemcontroller.in_loaded.toNat + if i.Load_Data = true then 1 else 0 := by
  have hstep : (s.step x i).ins_systemcontroller.in_loaded =
      if s.pcore_start = true then false else if i.Load_Data then true else s.ins_systemcontroller.in_loaded := by
    simp only [pcore_start, SystemController.PCoreStart, decide_eq_true_eq]
    rfl
  rw [hstep]
  cases hp : s.pcore_start
  · cases i.Load_Data <;> cases s.ins_systemcontroller.in_loaded <;> rfl
  · rw [hl hp]
    cases i.Load_Data <;> rfl

namespace Refines
variable {s : AES_Top} {e : Engine} (h : Refines s e)
include h

/-- Every cycle is idle, or one more of a job of 22. -/
theorem spent_balance (i : AES_Top.Inputs) :
    Engine.spent (e.step i).phase + ((if s.Ready_new_input = true then 1 else 0) +
        22 * ((if s.keyex_done = true then 1 else 0) + if s.CTValid = true then 1 else 0)) =
      Engine.spent e.phase + 1 := by
  have hr := h.ready_eq
  have hx := h.keyex_done_iff
  have hc := h.ctValid_iff
  rw [Engine.step_phase]
  rcases hp : e.phase with _ | _ | ⟨K, b⟩ | _ | ⟨B, b⟩ <;> rw [hp] at hr hx hc
  · have hs : Engine.spent (e.next i) = 0 := by
      rw [Engine.next_idle hp]
      split
      · rfl
      · exact Engine.spent_resume e
    rw [hs]
    simp [hr, hx, hc, Engine.spent]
  · rw [Engine.next_keyExpand hp]
    simp [hr, hx, hc, Engine.spent, Beat.elapsed]
  · rw [Engine.next_waitKeyex hp]
    rcases hb : b.next with _ | c
    · rw [Option.elim, Engine.spent_resume]
      simp [hr, hx, hc, Beat.next_eq_none.1 hb, Engine.spent, Beat.elapsed]
    · simp [hr, hx, hc, Engine.spent, Beat.elapsed_next hb, Beat.ne_finish_of_next hb]
  · rw [Engine.next_prc hp]
    simp [hr, hx, hc, Engine.spent, Beat.elapsed]
  · rw [Engine.next_waitPCore hp]
    rcases hb : b.next with _ | c
    · simp [hr, hx, hc, Beat.next_eq_none.1 hb, Engine.spent, Beat.elapsed]
    · simp [hr, hx, hc, Engine.spent, Beat.elapsed_next hb, Beat.ne_finish_of_next hb]

end Refines

/-! ## Blocks and starts -/

namespace AES_Top

/-- InputInterface takes the word for a block. A word that comes with `Load_Key` is taken for a key only. -/
def Inputs.IsBlock (i : Inputs) : Prop := i.Load_Data = true ∧ i.Load_Key = false

variable (ins : ℕ → Inputs) (st : ℕ → AES_Top)

/-- The start in cycle `p` takes the block of cycle `k`, the last one before it. -/
def Takes (p k : ℕ) : Prop := (st p).pcore_start = true ∧ IsLast (fun j => (ins j).IsBlock) k p

/-- `p` is the first start after cycle `k`. -/
def NextStart (k p : ℕ) : Prop :=
  (st p).pcore_start = true ∧ k < p ∧ ∀ q, k < q → q < p → (st q).pcore_start = false

/-- What becomes of the blocks. -/
structure BlockAccount : Prop where
  /-- Every `Load_Data` is shown as a ciphertext, is lost in the start cycle of another block, is merged with
  the one that was waiting already, or is waiting itself. -/
  pulses : ∀ n, Nat.count (fun j => (ins j).Load_Data = true) n =
    Nat.count (fun j => (st j).CTValid = true) (n + 21) +
      Nat.count (fun j => (ins j).Load_Data = true ∧ (st j).pcore_start = true) n +
      Nat.count (fun j => (ins j).Load_Data = true ∧ (st j).ins_systemcontroller.in_loaded = true ∧
        (st j).pcore_start = false) n +
      (st n).ins_systemcontroller.in_loaded.toNat
  /-- There is a ciphertext 21 cycles after every start, and no other. -/
  shown : ∀ n, (st n).CTValid = true ↔ ∃ p, n = p + 21 ∧ (st p).pcore_start = true
  /-- It is that of the block taken, or of 0 when there has been none. -/
  encrypted : ∀ p B, (st p).pcore_start = true →
    Latest (fun j => (ins j).IsBlock) (fun j => (ins j).in_data) 0#128 p B →
    (st (p + 21)).CipherText = some (rounds (st p).ins_KeyLogic.stored (B ^^^ (st p).ins_inputinterface.Key))
  /-- A start is asked for by a `Load_Data`, each by one of its own. -/
  asked : ∀ p, (st p).pcore_start = true →
    ∃ j < p, (ins j).Load_Data = true ∧ ∀ q, j ≤ q → q < p → (st q).pcore_start = false
  /-- A `Load_Data` is followed by a start, unless it comes in the cycle of one. -/
  starts : ∀ k, (ins k).Load_Data = true → (st k).pcore_start = false → ∃ p, p ≤ k + 45 ∧ NextStart st k p
  /-- The first start after a block takes it, or another block came first and it is never taken. -/
  fate : ∀ k p, (ins k).IsBlock → NextStart st k p →
    Takes ins st p k ∨ (∃ j, k < j ∧ j < p ∧ (ins j).IsBlock) ∧ ∀ q, ¬ Takes ins st q k
  /-- The next start takes the same block again exactly when every `Load_Data` since came with a key. -/
  again : ∀ k p q, Takes ins st p k → NextStart st p q →
    (Takes ins st q k ↔ ∀ j, p ≤ j → j < q → (ins j).Load_Data = true → (ins j).Load_Key = true)

end AES_Top

/-! ## The accounts of a run -/

theorem ctValid_iff_start (x : BitVec 128) (rom : S_box) (ins : ℕ → AES_Top.Inputs) (n : ℕ) :
    let s := run (AES_Top.step x) (.reset rom) ins
    (s (n + 21)).CTValid = true ↔ (s n).pcore_start = true := by
  intro s
  obtain ⟨e, h0, h, he⟩ := exists_engine_reset x rom ins
  rw [(he _).ctValid_eq, (he n).pcore_start_iff]
  exact Engine.output_iff_prc h (by rw [h0]; rfl) n

theorem ctValid_early (x : BitVec 128) (rom : S_box) (ins : ℕ → AES_Top.Inputs) {n : ℕ} (hn : n < 21) :
    ¬ (run (AES_Top.step x) (.reset rom) ins n).CTValid = true := by
  obtain ⟨e, h0, h, he⟩ := exists_engine_reset x rom ins
  rw [(he n).ctValid_eq, Engine.output_early h (by rw [h0]; rfl) hn]
  exact Bool.false_ne_true

theorem count_Load_Data (x : BitVec 128) (rom : S_box) (ins : ℕ → AES_Top.Inputs) (n : ℕ) :
    let s := run (AES_Top.step x) (.reset rom) ins
    Nat.count (fun j => (ins j).Load_Data = true) n =
      Nat.count (fun j => (s j).CTValid = true) (n + 21) +
        Nat.count (fun j => (ins j).Load_Data = true ∧ (s j).pcore_start = true) n +
        Nat.count (fun j => (ins j).Load_Data = true ∧ (s j).ins_systemcontroller.in_loaded = true ∧
          (s j).pcore_start = false) n +
        (s n).ins_systemcontroller.in_loaded.toNat := by
  intro s
  obtain ⟨e, h0, h, he⟩ := exists_engine_reset x rom ins
  have hshown : Nat.count (fun j => (s j).CTValid = true) (n + 21) =
      Nat.count (fun j => (s j).pcore_start = true) n :=
    count_add_eq (ctValid_iff_start x rom ins) (fun j hj => ctValid_early x rom ins hj) n
  have hwaiting (j : ℕ) (hj : (s j).pcore_start = true) : (s j).ins_systemcontroller.in_loaded = true := by
    rw [(he j).system]
    exact Engine.in_loaded_of_prc h (by rw [h0]; rfl) ((he j).pcore_start_iff.1 hj)
  have hbalance := balance (f := fun j => (s j).ins_systemcontroller.in_loaded.toNat)
    (fun j => AES_Top.in_loaded_balance (hwaiting j) x (ins j)) n
  have hempty : (s 0).ins_systemcontroller.in_loaded.toNat = 0 := rfl
  rw [sum_add_distrib, sum_add_distrib, ← count_eq_sum, ← count_eq_sum, ← count_eq_sum, ← count_eq_sum] at hbalance
  omega

/-- A start encrypts with the keys that the registers hold. -/
theorem Refines.ciphertext_stored {s : AES_Top} {e : Engine} (h : Refines s e) (hp : e.phase = .prc) (x : BitVec 128)
    (ins : ℕ → AES_Top.Inputs) : (Clocked.run (AES_Top.step x) s ins 21).CipherText =
      some (rounds s.ins_KeyLogic.stored (e.Data ^^^ e.Key)) :=
  ((h.withKeys hp s.ins_KeyLogic.key_reg).ciphertext_ahead hp x ins).2.2

/-- The first start after a block takes it, when no other block comes in between. -/
theorem AES_Top.takes_or_replaced {ins : ℕ → Inputs} {st : ℕ → AES_Top} {k p : ℕ} (hk : (ins k).IsBlock)
    (hp : NextStart st k p) :
    Takes ins st p k ∨ (∃ j, k < j ∧ j < p ∧ (ins j).IsBlock) ∧ ∀ q, ¬ Takes ins st q k := by
  obtain ⟨hstart, hkp, hfirst⟩ := hp
  by_cases hex : ∃ j, k < j ∧ j < p ∧ (ins j).IsBlock
  · obtain ⟨j, hkj, hjp, hj⟩ := hex
    refine .inr ⟨⟨j, hkj, hjp, hj⟩, ?_⟩
    rintro q ⟨hq, hkq, -, hlast⟩
    -- a start that takes `k` comes before `j`, so before the first one
    have hqj : q ≤ j := by
      by_contra hjq
      exact hlast j hkj (by omega) hj
    rw [hfirst q hkq (by omega)] at hq
    cases hq
  · exact .inl ⟨hstart, hkp, hk, fun j hkj hjp hj => hex ⟨j, hkj, hjp, hj⟩⟩

theorem AES_Top.takes_again {ins : ℕ → Inputs} {st : ℕ → AES_Top} {k p q : ℕ} (hp : Takes ins st p k)
    (hq : NextStart st p q) :
    Takes ins st q k ↔ ∀ j, p ≤ j → j < q → (ins j).Load_Data = true → (ins j).Load_Key = true := by
  obtain ⟨-, hkp, hk, hlast⟩ := hp
  obtain ⟨hstart, hpq, -⟩ := hq
  constructor
  · rintro ⟨-, -, -, hnone⟩ j hpj hjq hd
    rw [← Bool.not_eq_false]
    exact fun hkey => hnone j (by omega) hjq ⟨hd, hkey⟩
  · intro hkeys
    refine ⟨hstart, by omega, hk, fun j hkj hjq hj => ?_⟩
    rcases Nat.lt_or_ge j p with hjp | hpj
    · exact hlast j hkj hjp hj
    · have hkey := hkeys j hpj hjq hj.1
      rw [hj.2] at hkey
      cases hkey

/-- In every run from reset, whatever the inputs do. -/
theorem block_account (x : BitVec 128) (rom : S_box) (ins : ℕ → AES_Top.Inputs) :
    AES_Top.BlockAccount ins (run (AES_Top.step x) (.reset rom) ins) := by
  obtain ⟨e, h0, h, he⟩ := exists_engine_reset x rom ins
  have hidle : (e 0).phase = .idle := by rw [h0]; rfl
  constructor
  case pulses => exact count_Load_Data x rom ins
  case shown =>
    intro n
    constructor
    · intro hv
      have hn : 21 ≤ n := Nat.le_of_not_lt fun hn => ctValid_early x rom ins hn hv
      obtain ⟨p, rfl⟩ := Nat.exists_eq_add_of_le' hn
      exact ⟨p, rfl, (ctValid_iff_start x rom ins p).1 hv⟩
    · rintro ⟨p, rfl, hp⟩
      exact (ctValid_iff_start x rom ins p).2 hp
  case encrypted =>
    intro p B hp hB
    have hprc := (he p).pcore_start_iff.1 hp
    rw [run_add, (he p).ciphertext_stored hprc, hB.unique (Engine.Data_latest h h0 p), (he p).inputs]
  case asked =>
    intro p hp
    have hprc := (he p).pcore_start_iff.1 hp
    obtain ⟨j, hj, hd, hno⟩ := Engine.exists_load h (by rw [h0]; rfl) (Engine.in_loaded_of_prc h hidle hprc)
    refine ⟨j, hj, hd, fun q hjq hqp => ?_⟩
    rw [← Bool.not_eq_true, (he q).pcore_start_iff]
    exact hno q hjq hqp
  case starts =>
    intro k hd hk
    rw [← Bool.not_eq_true, (he k).pcore_start_iff] at hk
    obtain ⟨p, hkp, hle, hprc⟩ := Engine.exists_start_of_pulse h hd hk
    obtain ⟨q, hkq, hq, hfirst⟩ := exists_first (P := fun j => (e j).phase = .prc) (n := k + 1) ⟨p, hkp, hprc⟩
    have hqp : q ≤ p := by
      by_contra hpq
      exact hfirst p hkp (by omega) hprc
    refine ⟨q, by omega, (he q).pcore_start_iff.2 hq, hkq, fun j hkj hjq => ?_⟩
    rw [← Bool.not_eq_true, (he j).pcore_start_iff]
    exact hfirst j hkj hjq
  case fate => exact fun k p hk hp => AES_Top.takes_or_replaced hk hp
  case again => exact fun k p q hp hq => AES_Top.takes_again hp hq

/-- A `Load_Data` that comes with a key gets the block of before encrypted again. -/
example :
    let ins (n : ℕ) : AES_Top.Inputs := ⟨9#128, n == 24, n == 0 || n == 24⟩
    let s := run (AES_Top.step 0#128) (.reset (.posedge 0#128)) ins
    AES_Top.Takes ins s 2 0 ∧ AES_Top.Takes ins s 47 0 := by
  intro ins s
  have honly (j : ℕ) (hj : 0 < j) : ¬ (ins j).IsBlock := by
    rintro ⟨hd, hk⟩
    simp [ins] at hd hk
    omega
  exact ⟨⟨by decide +kernel, by decide, ⟨rfl, rfl⟩, fun j hj _ => honly j hj⟩,
    ⟨by decide +kernel, by decide, ⟨rfl, rfl⟩, fun j hj _ => honly j hj⟩⟩

/-- The expansions are those of the keys that came in ready cycles, 22 cycles later. -/
theorem count_keyex_done (x : BitVec 128) (rom : S_box) (ins : ℕ → AES_Top.Inputs) (n : ℕ) :
    let s := run (AES_Top.step x) (.reset rom) ins
    Nat.count (fun j => (s j).keyex_done = true) (n + 22) =
      Nat.count (fun j => (ins j).Load_Key = true ∧ (s j).Ready_new_input = true) n := by
  intro s
  obtain ⟨e, h0, h, he⟩ := exists_engine_reset x rom ins
  have hidle : (e 0).phase = .idle := by rw [h0]; rfl
  apply count_add_eq
  · intro j
    rw [(he _).keyex_done_eq, (he j).ready_eq, and_comm]
    exact Engine.expanded_iff_accepted h hidle j
  · intro j hj
    rw [(he j).keyex_done_eq, Engine.expanded_early h hidle hj]
    exact Bool.false_ne_true

/-- Every `Load_Key` is expanded, 22 cycles later, or came while the engine was busy. -/
theorem key_account (x : BitVec 128) (rom : S_box) (ins : ℕ → AES_Top.Inputs) (n : ℕ) :
    let s := run (AES_Top.step x) (.reset rom) ins
    Nat.count (fun j => (ins j).Load_Key = true) n =
      Nat.count (fun j => (s j).keyex_done = true) (n + 22) +
        Nat.count (fun j => (ins j).Load_Key = true ∧ (s j).Ready_new_input = false) n := by
  intro s
  rw [count_keyex_done, count_eq_sum, count_eq_sum, count_eq_sum, ← sum_add_distrib]
  apply sum_congr rfl
  intro j _
  cases (ins j).Load_Key <;> cases (s j).Ready_new_input <;> rfl

/-- After a ciphertext the engine is ready. -/
theorem Refines.ready_of_shown (x : BitVec 128) {s : AES_Top} {e : Engine} (h : Refines s e) (hv : s.CTValid = true)
    (i : AES_Top.Inputs) : (s.step x i).Ready_new_input = true := by
  obtain ⟨B, hB⟩ := h.ctValid_iff.1 hv
  rw [(h.step x i).ready_eq, Engine.step_phase, Engine.next_waitPCore hB]
  rfl

/-- The cycles that are not ready are 22 for each finished expansion and encryption, and those of the job
at hand. Each expansion, and each encryption, takes a ready cycle of its own, too. -/
theorem cycle_account (x : BitVec 128) (rom : S_box) (ins : ℕ → AES_Top.Inputs) (n : ℕ) :
    let s := run (AES_Top.step x) (.reset rom) ins
    let ready := Nat.count (fun j => (s j).Ready_new_input = true) n
    let expanded := Nat.count (fun j => (s j).keyex_done = true) n
    let shown := Nat.count (fun j => (s j).CTValid = true) n
    expanded + shown = (n - ready) / 22 ∧ expanded ≤ ready ∧ shown ≤ ready := by
  intro s ready expanded shown
  obtain ⟨e, h0, h, he⟩ := exists_engine_reset x rom ins
  refine ⟨?_, ?_, ?_⟩
  · have hlt := Engine.spent_lt (e n).phase
    have hbalance : Engine.spent (e n).phase + (ready + 22 * (expanded + shown)) = n := by
      have hn := balance (f := fun j => Engine.spent (e j).phase) (c := fun _ => 1)
        (fun j => by rw [h j]; exact (he j).spent_balance (ins j)) n
      rw [sum_add_distrib, ← mul_sum, sum_add_distrib, ← count_eq_sum, ← count_eq_sum, ← count_eq_sum] at hn
      rw [hn, h0]
      simp [Engine.init, Engine.spent]
    omega
  · calc expanded ≤ Nat.count (fun j => (s j).keyex_done = true) (n + 22) :=
          Nat.count_monotone _ (Nat.le_add_right n 22)
      _ = Nat.count (fun j => (ins j).Load_Key = true ∧ (s j).Ready_new_input = true) n :=
          count_keyex_done x rom ins n
      _ ≤ ready := Nat.count_mono_left fun j _ hj => hj.2
  · have hafter : shown ≤ Nat.count (fun j => (s (j + 1)).Ready_new_input = true) n :=
      Nat.count_mono_left fun j _ hj => (he j).ready_of_shown x hj (ins j)
    have hfirst : (s 0).Ready_new_input = true := rfl
    have hsucc := Nat.count_succ' (fun j => (s j).Ready_new_input = true) n
    have hlast := Nat.count_succ (fun j => (s j).Ready_new_input = true) n
    rw [if_pos hfirst] at hsucc
    split at hlast <;> omega

end Aes128
