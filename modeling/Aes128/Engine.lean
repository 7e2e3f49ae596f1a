import Aes128.Clocked
import Aes128.Rounds
import Aes128.Top
/-!
# The engine

What AES_Top is for, without its pipelines. A key expansion and an encryption
are units of ten rounds that take their key, or their whitened block, when they
start; the key store changes in one piece when an expansion ends. `Key`, `Data`
and `in_loaded` are registers that the inputs write in any phase.

The lemmas read a run backwards (`expansion_ago`, `encryption_ago`) and forwards
(`expansion_ahead`, `encryption_ahead`).
-/

open Fips197 Clocked Rounds

namespace Aes128

inductive Phase where
  | idle
  | keyExpand
  | waitKeyex (key : Block) (b : Beat 10)
  | prc
  | waitPCore (block : Block) (b : Beat 10)

structure Engine where
  phase : Phase
  in_loaded : Bool
  key_generated : Bool
  Key : Block
  Data : Block
  /-- The round keys of the last finished expansion. -/
  store : ℕ → Block

namespace Engine

def init : Engine := ⟨.idle, false, false, 0#128, 0#128, fun _ => 0#128⟩

/-- Where a finished expansion, or an idle cycle without `Load_Key`, leads. -/
def resume (e : Engine) : Phase := if e.in_loaded then .prc else .idle

def next (i : AES_Top.Inputs) (e : Engine) : Phase :=
  match e.phase with
  | .idle => if i.Load_Key then .keyExpand else e.resume
  | .keyExpand => .waitKeyex e.Key (.lookup 0)
  | .waitKeyex K b => b.next.elim e.resume (.waitKeyex K)
  | .prc => .waitPCore (e.Data ^^^ e.Key) (.lookup 0)
  | .waitPCore B b => b.next.elim .idle (.waitPCore B)

/-- The key whose expansion ends in this cycle. -/
def expanded (e : Engine) : Option Block :=
  match e.phase with
  | .waitKeyex K .finish => some K
  | _ => none

/-- The ciphertext, in the cycle in which it is shown. -/
def output (e : Engine) : Option Block :=
  match e.phase with
  | .waitPCore B .finish => some (rounds e.store B)
  | _ => none

def step (i : AES_Top.Inputs) (e : Engine) : Engine where
  phase := e.next i
  in_loaded := match e.phase with
    | .prc => false
    | _ => i.Load_Data || e.in_loaded
  key_generated := e.expanded.isSome || e.key_generated
  Key := if i.Load_Key then i.in_data else e.Key
  Data := if i.Load_Data && !i.Load_Key then i.in_data else e.Data
  store := e.expanded.elim e.store roundKey

section Step
variable {e : Engine}

theorem next_idle (h : e.phase = .idle) (i : AES_Top.Inputs) :
    e.next i = if i.Load_Key then .keyExpand else e.resume := by
  simp only [next, h]

theorem next_keyExpand (h : e.phase = .keyExpand) (i : AES_Top.Inputs) : e.next i = .waitKeyex e.Key (.lookup 0) := by
  simp only [next, h]

theorem next_waitKeyex {K : Block} {b : Beat 10} (h : e.phase = .waitKeyex K b) (i : AES_Top.Inputs) :
    e.next i = b.next.elim e.resume (.waitKeyex K) := by
  simp only [next, h]

theorem next_prc (h : e.phase = .prc) (i : AES_Top.Inputs) :
    e.next i = .waitPCore (e.Data ^^^ e.Key) (.lookup 0) := by
  simp only [next, h]

theorem next_waitPCore {B : Block} {b : Beat 10} (h : e.phase = .waitPCore B b) (i : AES_Top.Inputs) :
    e.next i = b.next.elim .idle (.waitPCore B) := by
  simp only [next, h]

theorem step_phase (i : AES_Top.Inputs) (e : Engine) : (e.step i).phase = e.next i := rfl

theorem step_in_loaded (h : e.phase ≠ .prc) (i : AES_Top.Inputs) :
    (e.step i).in_loaded = (i.Load_Data || e.in_loaded) := by
  simp only [step]

theorem step_in_loaded_prc (h : e.phase = .prc) (i : AES_Top.Inputs) : (e.step i).in_loaded = false := by
  simp only [step, h]

theorem step_Key {i : AES_Top.Inputs} (h : i.Load_Key = false) : (e.step i).Key = e.Key := by
  simp [step, h]

theorem step_Data {i : AES_Top.Inputs} (h : i.Load_Data = false) : (e.step i).Data = e.Data := by
  simp [step, h]

theorem step_store (h : e.expanded = none) (i : AES_Top.Inputs) : (e.step i).store = e.store := by
  rw [step, h, Option.elim]

theorem resume_cases (e : Engine) :
    (e.in_loaded = true ∧ e.resume = .prc) ∨ (e.in_loaded = false ∧ e.resume = .idle) := by
  unfold resume
  cases e.in_loaded
  · exact .inr ⟨rfl, rfl⟩
  · exact .inl ⟨rfl, rfl⟩

theorem next_idle_key (h : e.phase = .idle) {i : AES_Top.Inputs} (hk : i.Load_Key = true) :
    e.next i = .keyExpand := by
  rw [next_idle h, if_pos hk]

theorem next_idle_waiting (h : e.phase = .idle) {i : AES_Top.Inputs} (hk : i.Load_Key = false)
    (hl : e.in_loaded = true) : e.next i = .prc := by
  rw [next_idle h, hk, resume, if_neg Bool.false_ne_true, if_pos hl]

theorem next_idle_empty (h : e.phase = .idle) {i : AES_Top.Inputs} (hk : i.Load_Key = false)
    (hl : e.in_loaded = false) : e.next i = .idle := by
  rw [next_idle h, hk, resume, hl, if_neg Bool.false_ne_true, if_neg Bool.false_ne_true]

/-- An encryption is started by a block that waited, in an idle cycle or after an expansion. -/
theorem next_eq_prc {i : AES_Top.Inputs} (h : e.next i = .prc) :
    e.in_loaded = true ∧ (e.phase = .idle ∧ i.Load_Key = false ∨ ∃ K, e.phase = .waitKeyex K .finish) := by
  have hr (hr : e.resume = .prc) : e.in_loaded = true := by
    rcases resume_cases e with ⟨hl, -⟩ | ⟨-, hi⟩
    · exact hl
    · rw [hi] at hr; cases hr
  rcases hp : e.phase with _ | _ | ⟨K, b⟩ | _ | ⟨B, b⟩
  · rw [next_idle hp] at h
    split at h
    next => cases h
    next hk => exact ⟨hr h, .inl ⟨rfl, by simpa using hk⟩⟩
  · rw [next_keyExpand hp] at h; cases h
  · rw [next_waitKeyex hp] at h
    rcases hb : b.next with _ | c
    · rw [hb] at h
      exact ⟨hr h, .inr ⟨K, by rw [Beat.next_eq_none.1 hb]⟩⟩
    · rw [hb] at h; cases h
  · rw [next_prc hp] at h; cases h
  · rw [next_waitPCore hp] at h
    rcases hb : b.next with _ | c <;> rw [hb] at h <;> cases h

end Step

/-! ## The two units -/

def keyUnit : Phase → Option (Block × Beat 10)
  | .waitKeyex K b => some (K, b)
  | _ => none

def coreUnit : Phase → Option (Block × Beat 10)
  | .waitPCore B b => some (B, b)
  | _ => none

def keyStart (e : Engine) : Option Block :=
  match e.phase with
  | .keyExpand => some e.Key
  | _ => none

def coreStart (e : Engine) : Option Block :=
  match e.phase with
  | .prc => some (e.Data ^^^ e.Key)
  | _ => none

theorem keyUnit_eq {φ : Phase} {K : Block} {b : Beat 10} : keyUnit φ = some (K, b) ↔ φ = .waitKeyex K b := by
  cases φ <;> simp [keyUnit]

theorem coreUnit_eq {φ : Phase} {B : Block} {b : Beat 10} : coreUnit φ = some (B, b) ↔ φ = .waitPCore B b := by
  cases φ <;> simp [coreUnit]

theorem keyStart_eq {e : Engine} {K : Block} : e.keyStart = some K ↔ e.phase = .keyExpand ∧ e.Key = K := by
  unfold keyStart
  cases e.phase <;> simp

theorem coreStart_eq {e : Engine} {B : Block} : e.coreStart = some B ↔ e.phase = .prc ∧ e.Data ^^^ e.Key = B := by
  unfold coreStart
  cases e.phase <;> simp

theorem output_eq {e : Engine} {C : Block} :
    e.output = some C ↔ ∃ B, e.phase = .waitPCore B .finish ∧ rounds e.store B = C := by
  unfold output
  rcases e.phase with _ | _ | ⟨K, b⟩ | _ | ⟨B, _ | _ | _⟩ <;> simp

/-- Nothing is shown before the `finish` cycle. -/
theorem output_eq_none {e : Engine} {B : Block} {b : Beat 10} (h : e.phase = .waitPCore B b) (hb : b ≠ .finish) :
    e.output = none := by
  rw [Option.eq_none_iff_forall_ne_some]
  intro C hC
  obtain ⟨B', hB, -⟩ := output_eq.1 hC
  rw [h] at hB
  cases hB
  exact hb rfl

theorem output_eq_none_of_coreUnit {e : Engine} (h : coreUnit e.phase = none) : e.output = none := by
  rw [Option.eq_none_iff_forall_ne_some]
  intro C hC
  obtain ⟨B, hB, -⟩ := output_eq.1 hC
  rw [coreUnit_eq.2 hB] at h
  cases h

theorem expanded_eq {e : Engine} {K : Block} : e.expanded = some K ↔ e.phase = .waitKeyex K .finish := by
  unfold expanded
  rcases e.phase with _ | _ | ⟨K, _ | _ | _⟩ | _ | ⟨B, b⟩ <;> simp

theorem units_resume (e : Engine) : keyUnit e.resume = none ∧ coreUnit e.resume = none := by
  rcases resume_cases e with ⟨-, h⟩ | ⟨-, h⟩ <;> rw [h] <;> exact ⟨rfl, rfl⟩

theorem keyUnit_step (i : AES_Top.Inputs) (e : Engine) :
    keyUnit (e.step i).phase = advance e.keyStart (keyUnit e.phase) := by
  have hr := (units_resume e).1
  change keyUnit (e.next i) = _
  rcases h : e.phase with _ | _ | ⟨K, b⟩ | _ | ⟨B, b⟩ <;> simp only [keyStart, h]
  · rw [next_idle h]
    split
    · rfl
    · exact hr
  · rw [next_keyExpand h]; rfl
  · rw [next_waitKeyex h, keyUnit, advance]
    rcases b.next with _ | c
    · exact hr
    · rfl
  · rw [next_prc h]; rfl
  · rw [next_waitPCore h]
    rcases b.next with _ | c <;> rfl

theorem coreUnit_step (i : AES_Top.Inputs) (e : Engine) :
    coreUnit (e.step i).phase = advance e.coreStart (coreUnit e.phase) := by
  have hr := (units_resume e).2
  change coreUnit (e.next i) = _
  rcases h : e.phase with _ | _ | ⟨K, b⟩ | _ | ⟨B, b⟩ <;> simp only [coreStart, h]
  · rw [next_idle h]
    split
    · rfl
    · exact hr
  · rw [next_keyExpand h]; rfl
  · rw [next_waitKeyex h]
    rcases b.next with _ | c
    · exact hr
    · rfl
  · rw [next_prc h]; rfl
  · rw [next_waitPCore h, coreUnit, advance]
    rcases b.next with _ | c <;> rfl

/-- The core stays idle when it is not started. -/
theorem coreUnit_step_none {e : Engine} (h : coreUnit e.phase = none) (hp : e.phase ≠ .prc) (i : AES_Top.Inputs) :
    coreUnit (e.step i).phase = none := by
  have hs : e.coreStart = none := by
    rw [Option.eq_none_iff_forall_ne_some]
    intro B hB
    exact hp (coreStart_eq.1 hB).1
  rw [coreUnit_step, h, hs]
  rfl

/-- An `update` cycle follows a `lookup` cycle. -/
theorem lookup_of_keyUpdate {i : AES_Top.Inputs} {e : Engine} {K : Block} {r : Fin 10}
    (h : (e.step i).phase = .waitKeyex K (.update r)) : e.phase = .waitKeyex K (.lookup r) :=
  keyUnit_eq.1 (advance_eq_update ((keyUnit_step i e).symm.trans (keyUnit_eq.2 h)))

theorem lookup_of_coreUpdate {i : AES_Top.Inputs} {e : Engine} {B : Block} {r : Fin 10}
    (h : (e.step i).phase = .waitPCore B (.update r)) : e.phase = .waitPCore B (.lookup r) :=
  coreUnit_eq.1 (advance_eq_update ((coreUnit_step i e).symm.trans (coreUnit_eq.2 h)))

/-! ## Runs -/

section Runs
variable {ins : ℕ → AES_Top.Inputs} {e : ℕ → Engine}

theorem keyUnit_run (h : IsRun step ins e) (n : ℕ) :
    keyUnit (e (n + 1)).phase = advance (e n).keyStart (keyUnit (e n).phase) := by
  rw [h n, keyUnit_step]

theorem coreUnit_run (h : IsRun step ins e) (n : ℕ) :
    coreUnit (e (n + 1)).phase = advance (e n).coreStart (coreUnit (e n).phase) := by
  rw [h n, coreUnit_step]

theorem store_hold (h : IsRun step ins e) (n : ℕ) (hn : ¬ (e n).expanded.isSome) : (e (n + 1)).store = (e n).store := by
  rw [h n, step]
  rcases hx : (e n).expanded with _ | K
  · rfl
  · simp [hx] at hn

/-- While the encryption unit is started or busy, no expansion ends. -/
theorem expanded_eq_none {e : Engine} (h : e.phase = .prc ∨ ∃ B b, e.phase = .waitPCore B b) : e.expanded = none := by
  rcases h with h | ⟨B, b, h⟩ <;> simp only [expanded, h]

/-- The key store stays while an encryption is running. -/
theorem store_unchanged (h : IsRun step ins e) {p n : ℕ} (hp : (e p).phase = .prc) (hpn : p ≤ n)
    (hbusy : ∀ j, p < j → j < n → ∃ B b, (e j).phase = .waitPCore B b) : (e n).store = (e p).store := by
  refine unchanged (f := fun n => (e n).store) (store_hold h) hpn fun j hj hjn => ?_
  rcases Nat.eq_or_lt_of_le hj with rfl | hj
  · simp [expanded_eq_none (.inl hp)]
  · simp [expanded_eq_none (.inr (hbusy j hj hjn))]

/-- An expansion works on the `Key` of the cycle it was started in. -/
theorem expansion_ago (h : IsRun step ins e) (h0 : keyUnit (e 0).phase = none) {n : ℕ} {K : Block} {b : Beat 10}
    (hn : (e n).phase = .waitKeyex K b) :
    ∃ p, n = p + b.elapsed ∧ (e p).phase = .keyExpand ∧ (e p).Key = K ∧
      ∀ j, p < j → j ≤ n → ∃ c, (e j).phase = .waitKeyex K c := by
  obtain ⟨p, hp, hs, hbusy⟩ := ago (u := fun n => keyUnit (e n).phase) (keyUnit_run h) h0 (keyUnit_eq.2 hn)
  obtain ⟨hx, hK⟩ := keyStart_eq.1 hs
  refine ⟨p, hp, hx, hK, fun j hj hjn => ?_⟩
  obtain ⟨c, hc⟩ := hbusy j hj hjn
  exact ⟨c, keyUnit_eq.1 hc⟩

theorem expansion_ahead (h : IsRun step ins e) {p : ℕ} (hp : (e p).phase = .keyExpand) :
    (e (p + 21)).phase = .waitKeyex (e p).Key .finish ∧
      ∀ j, p < j → j < p + 21 → ∃ b, (e j).phase = .waitKeyex (e p).Key b ∧ b ≠ .finish := by
  obtain ⟨hf, hbusy⟩ := ahead_finish (u := fun n => keyUnit (e n).phase) (keyUnit_run h) (by simp only [hp, keyUnit])
    (keyStart_eq.2 ⟨hp, rfl⟩)
  refine ⟨keyUnit_eq.1 hf, fun j hj hjn => ?_⟩
  obtain ⟨b, hb, hne⟩ := hbusy j hj hjn
  exact ⟨b, keyUnit_eq.1 hb, hne⟩

/-- An encryption works on `Data` and `Key` of the cycle it was started in, and the key store stays. -/
theorem encryption_ago (h : IsRun step ins e) (h0 : coreUnit (e 0).phase = none) {n : ℕ} {B : Block} {b : Beat 10}
    (hn : (e n).phase = .waitPCore B b) :
    ∃ p, n = p + b.elapsed ∧ (e p).phase = .prc ∧ (e p).Data ^^^ (e p).Key = B ∧ (e n).store = (e p).store ∧
      ∀ j, p < j → j ≤ n → ∃ c, (e j).phase = .waitPCore B c := by
  obtain ⟨p, hp, hs, hbusy⟩ := ago (u := fun n => coreUnit (e n).phase) (coreUnit_run h) h0 (coreUnit_eq.2 hn)
  obtain ⟨hx, hB⟩ := coreStart_eq.1 hs
  have hphase (j) (hj : p < j) (hjn : j ≤ n) : ∃ c, (e j).phase = .waitPCore B c := by
    obtain ⟨c, hc⟩ := hbusy j hj hjn
    exact ⟨c, coreUnit_eq.1 hc⟩
  refine ⟨p, hp, hx, hB, store_unchanged h hx (by omega) fun j hj hjn => ?_, hphase⟩
  obtain ⟨c, hc⟩ := hphase j hj hjn.le
  exact ⟨B, c, hc⟩

theorem encryption_ahead (h : IsRun step ins e) {p : ℕ} (hp : (e p).phase = .prc) :
    (e (p + 21)).output = some (rounds (e p).store ((e p).Data ^^^ (e p).Key)) ∧
      ∀ j, p < j → j < p + 21 → (e j).output = none := by
  obtain ⟨hf, hbusy⟩ := ahead_finish (u := fun n => coreUnit (e n).phase) (coreUnit_run h) (by simp only [hp, coreUnit])
    (coreStart_eq.2 ⟨hp, rfl⟩)
  have hphase (j) (hj : p < j) (hjn : j < p + 21) :
      ∃ b, (e j).phase = .waitPCore ((e p).Data ^^^ (e p).Key) b ∧ b ≠ .finish := by
    obtain ⟨b, hb, hne⟩ := hbusy j hj hjn
    exact ⟨b, coreUnit_eq.1 hb, hne⟩
  constructor
  · refine output_eq.2 ⟨_, coreUnit_eq.1 hf, ?_⟩
    rw [store_unchanged h hp (by omega) fun j hj hjn => ?_]
    obtain ⟨b, hb, -⟩ := hphase j hj hjn
    exact ⟨_, b, hb⟩
  · intro j hj hjn
    obtain ⟨b, hb, hne⟩ := hphase j hj hjn
    exact output_eq_none hb hne

/-- Once an expansion has ended, the store is a key schedule for ever. -/
theorem scheduled (h : IsRun step ins e) {m n : ℕ} (hmn : m < n) (hm : (e m).expanded.isSome) :
    ∃ K, (e n).store = roundKey K := by
  induction n with
  | zero => omega
  | succ n ih =>
    rw [h n, step]
    rcases hx : (e n).expanded with _ | K
    · refine ih (Nat.lt_of_le_of_ne (by omega) ?_)
      rintro rfl
      rw [hx] at hm
      cases hm
    · exact ⟨K, rfl⟩

/-! ## The registers -/

theorem Key_eq (h : IsRun step ins e) {k n : ℕ} (hk : IsLast (fun j => (ins j).Load_Key = true) k n) :
    (e n).Key = (ins k).in_data := by
  refine hk.held (f := fun n => (e n).Key) (v := fun n => (ins n).in_data) (fun j hj => ?_) (fun j hj => ?_)
  · rw [h j, step, if_pos hj]
  · rw [h j, step, if_neg hj]

theorem Data_eq (h : IsRun step ins e) {d n : ℕ}
    (hd : IsLast (fun j => (ins j).Load_Data = true ∧ (ins j).Load_Key = false) d n) :
    (e n).Data = (ins d).in_data := by
  refine hd.held (f := fun n => (e n).Data) (v := fun n => (ins n).in_data) (fun j hj => ?_) (fun j hj => ?_)
  · obtain ⟨hj, hk⟩ := hj
    simp [h j, step, hj, hk]
  · have hj : ((ins j).Load_Data && !(ins j).Load_Key) = false := by
      cases hd : (ins j).Load_Data <;> cases hk : (ins j).Load_Key <;> simp_all
    simp [h j, step, hj]

theorem Key_latest (h : IsRun step ins e) (h0 : e 0 = .init) (n : ℕ) :
    Latest (fun j => (ins j).Load_Key = true) (fun j => (ins j).in_data) 0#128 n (e n).Key := by
  have hk := latest (P := fun j => (ins j).Load_Key = true) (f := fun j => (e j).Key) (v := fun j => (ins j).in_data)
    (fun j hj => by rw [h j, step, if_pos hj]) (fun j hj => by rw [h j, step, if_neg hj]) n
  rwa [h0] at hk

theorem Data_latest (h : IsRun step ins e) (h0 : e 0 = .init) (n : ℕ) :
    Latest (fun j => (ins j).Load_Data = true ∧ (ins j).Load_Key = false) (fun j => (ins j).in_data) 0#128 n
      (e n).Data := by
  have hd := latest (P := fun j => (ins j).Load_Data = true ∧ (ins j).Load_Key = false) (f := fun j => (e j).Data)
    (v := fun j => (ins j).in_data) (fun j ⟨hj, hk⟩ => by simp [h j, step, hj, hk]) (fun j hj => by
      have hno : ((ins j).Load_Data && !(ins j).Load_Key) = false := by
        cases hd : (ins j).Load_Data <;> cases hk : (ins j).Load_Key <;> simp_all
      simp [h j, step, hno]) n
  rwa [h0] at hd

/-- A block that waits has been loaded, and no start has come since. -/
theorem exists_load (h : IsRun step ins e) (h0 : (e 0).in_loaded = false) {n : ℕ} (hn : (e n).in_loaded = true) :
    ∃ d < n, (ins d).Load_Data = true ∧ ∀ q, d ≤ q → q < n → (e q).phase ≠ .prc := by
  induction n with
  | zero => rw [h0] at hn; cases hn
  | succ n ih =>
    have hne : (e n).phase ≠ .prc := by
      intro hp
      rw [h n, step_in_loaded_prc hp] at hn
      cases hn
    rw [h n, step_in_loaded hne, Bool.or_eq_true] at hn
    rcases hn with hd | hl
    · exact ⟨n, Nat.lt_succ_self n, hd, fun q hq hqn => by rwa [show q = n by omega]⟩
    · obtain ⟨d, hdn, hd, hno⟩ := ih hl
      refine ⟨d, by omega, hd, fun q hq hqn => ?_⟩
      rcases Nat.lt_succ_iff_lt_or_eq.1 hqn with hqn | rfl
      · exact hno q hq hqn
      · exact hne

theorem in_loaded_of_prc (h : IsRun step ins e) (h0 : (e 0).phase = .idle) {n : ℕ} (hn : (e n).phase = .prc) :
    (e n).in_loaded = true := by
  cases n with
  | zero => rw [h0] at hn; cases hn
  | succ n =>
    rw [h n] at hn ⊢
    obtain ⟨hl, hp⟩ := next_eq_prc hn
    rcases hp with ⟨hp, -⟩ | ⟨K, hp⟩ <;> simp [step, hp, hl]

end Runs

/-! ## The key register and the key store -/

/-- The store holds the schedule of `K`, or an expansion that will see to it is on its way. -/
def Holds (K : Block) (e : Engine) : Prop :=
  match e.phase with
  | .keyExpand => e.Key = K
  | .waitKeyex K' _ => K' = K
  | _ => e.store = roundKey K

theorem holds_resume {e e' : Engine} {K : Block} (hp : e'.phase = e.resume) (hs : e'.store = roundKey K) :
    e'.Holds K := by
  rcases resume_cases e with ⟨-, h⟩ | ⟨-, h⟩ <;> rw [Holds, hp, h] <;> exact hs

/-- Only a key loaded in an idle cycle gets to the store. -/
theorem Holds.step {e : Engine} {K : Block} (h : e.Holds K) {i : AES_Top.Inputs}
    (hk : e.phase = .idle → i.Load_Key = false) : (e.step i).Holds K := by
  have hphase := step_phase i e
  rcases hp : e.phase with _ | _ | ⟨K', b⟩ | _ | ⟨B, b⟩ <;> rw [Holds, hp] at h
  · rw [next_idle hp, hk hp, if_neg Bool.false_ne_true] at hphase
    exact holds_resume hphase (by rw [step_store (by simp only [expanded, hp]), h])
  · rw [Holds, hphase, next_keyExpand hp]
    exact h
  · rw [next_waitKeyex hp] at hphase
    rcases hb : b.next with _ | c <;> rw [hb] at hphase
    · refine holds_resume hphase ?_
      rw [Engine.step, expanded_eq.2 (hp.trans (by rw [Beat.next_eq_none.1 hb])), Option.elim, h]
    · rw [Holds, hphase]
      exact h
  · rw [Holds, hphase, next_prc hp, step_store (expanded_eq_none (.inl hp))]
    exact h
  · rw [next_waitPCore hp] at hphase
    rw [Holds, hphase, step_store (expanded_eq_none (.inr ⟨B, b, hp⟩))]
    rcases b.next with _ | c <;> exact h

/-- The store belongs to `Key`. -/
def Consistent (e : Engine) : Prop := e.Holds e.Key

theorem consistent_of_load {e : Engine} (hp : e.phase = .idle) {i : AES_Top.Inputs} (hk : i.Load_Key = true) :
    (e.step i).Consistent := by
  rw [Consistent, Holds, step_phase, next_idle_key hp hk]

/-- A key loaded in an idle cycle is expanded, so the two stay together. -/
theorem Consistent.step {e : Engine} (h : e.Consistent) {i : AES_Top.Inputs}
    (hk : i.Load_Key = true → e.phase = .idle ∨ i.in_data = e.Key) : (e.step i).Consistent := by
  by_cases hidle : e.phase = .idle ∧ i.Load_Key = true
  · exact consistent_of_load hidle.1 hidle.2
  · have hKey : (e.step i).Key = e.Key := by
      simp only [Engine.step]
      split
      next hl => exact (hk hl).resolve_left fun hp => hidle ⟨hp, hl⟩
      next => rfl
    rw [Consistent, hKey]
    exact Holds.step h fun hp => Bool.eq_false_iff.2 fun hl => hidle ⟨hp, hl⟩

/-! ## Busy cycles -/

/-- Cycles left at most until the engine is idle. -/
def remaining : Phase → ℕ
  | .idle => 0
  | .keyExpand => 44
  | .waitKeyex _ b => 44 - b.elapsed
  | .prc => 22
  | .waitPCore _ b => 22 - b.elapsed

theorem remaining_le (φ : Phase) : remaining φ ≤ 44 := by
  cases φ <;> simp only [remaining] <;> omega

theorem remaining_step {e : Engine} (h : e.phase ≠ .idle) (i : AES_Top.Inputs) :
    remaining (e.step i).phase < remaining e.phase := by
  rw [step_phase]
  rcases hp : e.phase with _ | _ | ⟨K, b⟩ | _ | ⟨B, b⟩
  · exact absurd hp h
  · rw [next_keyExpand hp]
    exact Nat.lt_succ_self 43
  · have hle := b.elapsed_le
    rw [next_waitKeyex hp]
    rcases hb : b.next with _ | c
    · rcases resume_cases e with ⟨-, hr⟩ | ⟨-, hr⟩ <;> simp only [Option.elim, hr, remaining] <;> omega
    · have := Beat.elapsed_next hb
      simp only [Option.elim, remaining]
      omega
  · rw [next_prc hp]
    exact Nat.lt_succ_self 21
  · have hle := b.elapsed_le
    rw [next_waitPCore hp]
    rcases hb : b.next with _ | c
    · simp only [Option.elim, remaining]
      omega
    · have := Beat.elapsed_next hb
      simp only [Option.elim, remaining]
      omega

/-- The engine is idle again after `remaining` cycles at most. -/
theorem exists_idle {ins : ℕ → AES_Top.Inputs} {e : ℕ → Engine} (h : IsRun step ins e) (n : ℕ) :
    ∃ m, n ≤ m ∧ m ≤ n + remaining (e n).phase ∧ (e m).phase = .idle := by
  obtain ⟨m, hm, hle, -, hidle⟩ := leads_to (P := fun j => (e j).phase = .idle) (Q := fun _ => True)
    (f := fun j => remaining (e j).phase) (n := n) trivial fun j _ _ hj => ⟨trivial, by
      rw [h j]
      exact remaining_step hj (ins j)⟩
  exact ⟨m, hm, hle, hidle⟩

end Engine

end Aes128
