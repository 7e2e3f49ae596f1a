import Aes128.Accounts
/-!
# Where a ciphertext comes from

`cipherText_eq_some_iff` says what is shown in every run from reset, with no
condition on the inputs. Three values make a ciphertext, and each has its own
last event before the start: the block, the key that whitens it, and the key
whose schedule is in the store. The last two part company when a key comes while
the engine is busy.

`stream_encrypted` is the other extreme, one key and a `Load_Data` that is held:
a ciphertext every 23 cycles, and exactly which blocks of the stream they are.
-/

open Fips197 Clocked Rounds

namespace Aes128

namespace Engine

/-! ## The key in the store -/

section Run
variable {ins : ℕ → AES_Top.Inputs} {e : ℕ → Engine} (h : IsRun step ins e) (h0 : e 0 = .init)

include h in
/-- The last key that was accepted is in the store, or will be when its expansion ends. -/
theorem holds_accepted {k n : ℕ} (hk : IsLast (fun j => (ins j).Load_Key = true ∧ (e j).phase = .idle) k n) :
    (e n).Holds (ins k).in_data := by
  induction n with
  | zero => exact absurd hk.1 (Nat.not_lt_zero k)
  | succ n ih =>
    rw [h n]
    rcases hk.of_succ with ⟨rfl, hl, hp⟩ | ⟨hk, hno⟩
    · have hc := consistent_of_load hp hl
      rw [Consistent] at hc
      convert hc using 1
      simp [step, hl]
    · refine (ih hk).step fun hp => Bool.eq_false_iff.2 fun hl => hno ⟨hl, hp⟩

include h h0 in
/-- Before the first one, the store is empty. -/
theorem store_of_none_accepted {n : ℕ} (hnone : ∀ j < n, ¬((ins j).Load_Key = true ∧ (e j).phase = .idle)) :
    (e n).store = fun _ => 0#128 := by
  have hidle : (e 0).phase = .idle := by rw [h0]; rfl
  have hempty : (e 0).store = fun _ => 0#128 := by rw [h0]; rfl
  rw [← hempty]
  refine unchanged (P := fun j => (e j).expanded.isSome = true) (f := fun j => (e j).store) (store_hold h)
    (Nat.zero_le n) fun j _ hj hx => ?_
  by_cases hlt : j < 22
  · rw [expanded_early h hidle hlt] at hx
    cases hx
  · obtain ⟨k, rfl⟩ := Nat.exists_eq_add_of_le' (show 22 ≤ j by omega)
    exact hnone k (by omega) ((expanded_iff_accepted h hidle k).1 hx).symm

include h h0 in
/-- In a start cycle no expansion is under way, so the store is the schedule of the last accepted key. -/
theorem store_latest {p : ℕ} (hp : (e p).phase = .prc) :
    Latest (fun j => (ins j).Load_Key = true ∧ (e j).phase = .idle) (fun j => roundKey (ins j).in_data)
      (fun _ => 0#128) p (e p).store := by
  by_cases hex : ∃ j < p, (ins j).Load_Key = true ∧ (e j).phase = .idle
  · obtain ⟨j, hj, ha⟩ := hex
    obtain ⟨k, hk⟩ := exists_isLast (P := fun j => (ins j).Load_Key = true ∧ (e j).phase = .idle) hj ha
    have hs := holds_accepted h hk
    rw [Holds, hp] at hs
    exact .inl ⟨k, hk, hs⟩
  · have hnone : ∀ j < p, ¬((ins j).Load_Key = true ∧ (e j).phase = .idle) := fun j hj ha => hex ⟨j, hj, ha⟩
    exact .inr ⟨hnone, store_of_none_accepted h h0 hnone⟩

end Run

end Engine

/-- In every run from reset, whatever the inputs: `C` is shown in cycle `n` exactly when the core was started
21 cycles before, and `C` is the rounds, with the schedule of the last key that came in a ready cycle, of the
last block, whitened with the last key of all. What has not come yet is 0. -/
theorem cipherText_eq_some_iff (x : BitVec 128) (rom : S_box) (ins : ℕ → AES_Top.Inputs) (n : ℕ) (C : Block) :
    let s := run (AES_Top.step x) (.reset rom) ins
    (s n).CipherText = some C ↔ ∃ p B K store, n = p + 21 ∧ (s p).pcore_start = true ∧
      Latest (fun j => (ins j).Load_Data = true ∧ (ins j).Load_Key = false) (fun j => (ins j).in_data) 0#128 p B ∧
      Latest (fun j => (ins j).Load_Key = true) (fun j => (ins j).in_data) 0#128 p K ∧
      Latest (fun j => (ins j).Load_Key = true ∧ (s j).Ready_new_input = true) (fun j => roundKey (ins j).in_data)
        (fun _ => 0#128) p store ∧
      C = rounds store (B ^^^ K) := by
  intro s
  obtain ⟨e, h0, h, he⟩ := exists_engine_reset x rom ins
  have hready : (fun j => (ins j).Load_Key = true ∧ (s j).Ready_new_input = true) =
      fun j => (ins j).Load_Key = true ∧ (e j).phase = .idle := by
    funext j
    rw [(he j).ready_eq]
  rw [hready, (he n).cipherText_eq]
  constructor
  · intro ho
    obtain ⟨B, hB, rfl⟩ := Engine.output_eq.1 ho
    obtain ⟨p, hp, hprc, rfl, hstore, -⟩ := Engine.encryption_ago h (by rw [h0]; rfl) hB
    exact ⟨p, _, _, _, hp, (he p).pcore_start_iff.2 hprc, Engine.Data_latest h h0 p, Engine.Key_latest h h0 p,
      Engine.store_latest h h0 hprc, by rw [hstore]⟩
  · rintro ⟨p, B, K, store, rfl, hp, hB, hK, hstore, rfl⟩
    have hprc := (he p).pcore_start_iff.1 hp
    rw [(Engine.encryption_ahead h hprc).1, hB.unique (Engine.Data_latest h h0 p), hK.unique (Engine.Key_latest h h0 p),
      hstore.unique (Engine.store_latest h h0 hprc)]

/-! ## A stream of blocks -/

namespace Engine

theorem keyless_step {e : Engine} (hu : keyUnit e.phase = none) (hp : e.phase ≠ .keyExpand) {i : AES_Top.Inputs}
    (hk : i.Load_Key = false) : keyUnit (e.step i).phase = none ∧ (e.step i).phase ≠ .keyExpand ∧
      (e.step i).store = e.store ∧ (e.step i).Key = e.Key := by
  have hs : e.keyStart = none := by
    rw [Option.eq_none_iff_forall_ne_some]
    intro K hK
    exact hp (keyStart_eq.1 hK).1
  have hx : e.expanded = none := by
    rw [Option.eq_none_iff_forall_ne_some]
    intro K hK
    rw [keyUnit_eq.2 (expanded_eq.1 hK)] at hu
    cases hu
  refine ⟨?_, fun hn => ?_, step_store hx i, step_Key hk⟩
  · rw [keyUnit_step, hs, hu]
    rfl
  · have := (next_eq_keyExpand.1 hn).2
    rw [hk] at this
    cases this

section Stream
variable {ins : ℕ → AES_Top.Inputs} {e : ℕ → Engine} (h : IsRun step ins e)

include h in
/-- Without keys, the key and its schedule stay. -/
theorem keyless_run (hkey : ∀ n, (ins n).Load_Key = false) (hp : (e 0).phase = .idle) (n : ℕ) :
    keyUnit (e n).phase = none ∧ (e n).phase ≠ .keyExpand ∧ (e n).store = (e 0).store ∧ (e n).Key = (e 0).Key := by
  induction n with
  | zero => rw [hp]; exact ⟨rfl, by rintro ⟨⟩, rfl, rfl⟩
  | succ n ih =>
    obtain ⟨hu, hne, hs, hK⟩ := ih
    obtain ⟨hu', hne', hs', hK'⟩ := keyless_step hu hne (hkey n)
    rw [h n]
    exact ⟨hu', hne', hs'.trans hs, hK'.trans hK⟩

include h in
/-- The core is busy with its block for 21 cycles. -/
theorem waitPCore_ahead {p : ℕ} (hp : (e p).phase = .prc) :
    (e (p + 21)).phase = .waitPCore ((e p).Data ^^^ (e p).Key) .finish ∧
      ∀ j, p < j → j ≤ p + 21 → ∃ B b, (e j).phase = .waitPCore B b := by
  obtain ⟨hf, hbusy⟩ := ahead_finish (u := fun n => coreUnit (e n).phase) (coreUnit_run h) (by simp only [hp, coreUnit])
    (coreStart_eq.2 ⟨hp, rfl⟩)
  refine ⟨coreUnit_eq.1 hf, fun j hj hjn => ?_⟩
  rcases Nat.eq_or_lt_of_le hjn with rfl | hjn
  · exact ⟨_, _, coreUnit_eq.1 hf⟩
  · obtain ⟨b, hb, -⟩ := hbusy j hj hjn
    exact ⟨_, b, coreUnit_eq.1 hb⟩

variable (hload : ∀ n, (ins n).Load_Data = true) (hkey : ∀ n, (ins n).Load_Key = false)

include h hload hkey in
/-- From an idle cycle with a waiting block to the next one. -/
theorem stream_next {t : ℕ} (hp : (e t).phase = .idle) (hl : (e t).in_loaded = true) :
    (e (t + 1)).phase = .prc ∧ (e (t + 1)).Data = (ins t).in_data ∧
      (∀ j, t + 1 < j → j < t + 23 → ∃ B b, (e j).phase = .waitPCore B b) ∧
      (e (t + 23)).phase = .idle ∧ (e (t + 23)).in_loaded = true := by
  have hprc : (e (t + 1)).phase = .prc := by rw [h t, step_phase, next_idle_waiting hp (hkey t) hl]
  obtain ⟨hf, hbusy⟩ := waitPCore_ahead h hprc
  refine ⟨hprc, ?_, fun j hj hjn => hbusy j hj (by omega), ?_, ?_⟩
  · simp [h t, step, hload, hkey]
  · rw [h (t + 22), step_phase, next_waitPCore hf]
    rfl
  · rw [h (t + 22), step_in_loaded (by rw [hf]; rintro ⟨⟩), hload]
    rfl

include h hload hkey in
theorem stream_idle {t : ℕ} (hp : (e t).phase = .idle) (hl : (e t).in_loaded = true) (k : ℕ) :
    (e (t + 23 * k)).phase = .idle ∧ (e (t + 23 * k)).in_loaded = true := by
  induction k with
  | zero => exact ⟨hp, hl⟩
  | succ k ih =>
    obtain ⟨-, -, -, hp', hl'⟩ := stream_next h hload hkey ih.1 ih.2
    exact ⟨hp', hl'⟩

include h hload hkey in
/-- The starts of a stream. -/
theorem stream_prc {t : ℕ} (hp : (e t).phase = .idle) (hl : (e t).in_loaded = true) {n : ℕ} (hn : t ≤ n) :
    (e n).phase = .prc ↔ ∃ k, n = t + 23 * k + 1 := by
  obtain ⟨m, rfl⟩ := Nat.exists_eq_add_of_le hn
  have hm := Nat.div_add_mod m 23
  have hlt := Nat.mod_lt m (show 0 < 23 by decide)
  obtain ⟨hpk, hlk⟩ := stream_idle h hload hkey hp hl (m / 23)
  obtain ⟨hprc, -, hbusy, -⟩ := stream_next h hload hkey hpk hlk
  constructor
  · intro hphase
    rcases Nat.lt_trichotomy (m % 23) 1 with hr | hr | hr
    · rw [show t + m = t + 23 * (m / 23) by omega, hpk] at hphase
      cases hphase
    · exact ⟨m / 23, by omega⟩
    · obtain ⟨B, b, hb⟩ := hbusy (t + m) (by omega) (by omega)
      rw [hb] at hphase
      cases hphase
  · rintro ⟨k, hk⟩
    obtain ⟨hpk, hlk⟩ := stream_idle h hload hkey hp hl k
    rw [hk]
    exact (stream_next h hload hkey hpk hlk).1

end Stream

end Engine

/-- From the state `s` on, a ciphertext is shown every 23 cycles and in no other, and the `k`-th is that of the
block on `in_data` 22 cycles before it, under `Key`. The first block is a cycle late when none was waiting. -/
def AES_Top.EncryptsStream (x : BitVec 128) (s : AES_Top) (ins : ℕ → Inputs) : Prop :=
  let s' := run (step x) s ins
  let c := if s.ins_systemcontroller.in_loaded then 0 else 1
  (∀ n, (s' n).CTValid = true ↔ ∃ k, n = c + 23 * k + 22) ∧
    ∀ k, (s' (c + 23 * k + 22)).CipherText = some (encrypt s.ins_inputinterface.Key (ins (c + 23 * k)).in_data)

/-- With `Load_Data` held at 1 and no key, from a ready state whose key registers hold the schedule of `Key`. -/
theorem stream_encrypted (x : BitVec 128) (s : AES_Top) (hs : s.Reachable x) (hready : s.Ready_new_input = true)
    (hkeys : ∀ i ≤ 10, s.ins_KeyLogic.key_reg[i]? = some (roundKey s.ins_inputinterface.Key i))
    (ins : ℕ → AES_Top.Inputs) (hload : ∀ n, (ins n).Load_Data = true) (hkey : ∀ n, (ins n).Load_Key = false) :
    s.EncryptsStream x ins := by
  unfold AES_Top.EncryptsStream
  intro s' c
  obtain ⟨e, h, he⟩ := hs.exists_engine ins
  have hr : Refines s (e 0) := he 0
  have hp : (e 0).phase = .idle := hr.ready_eq.1 hready
  have hsys : s.ins_systemcontroller.in_loaded = (e 0).in_loaded := by rw [hr.system]
  have hc : c ≤ 1 ∧ (e c).phase = .idle ∧ (e c).in_loaded = true := by
    rcases hl : (e 0).in_loaded with _ | _
    · have hc : c = 1 := by simp only [c, hsys, hl]; rfl
      rw [hc, h 0]
      exact ⟨Nat.le_refl 1, Engine.next_idle_empty hp (hkey 0) hl,
        by rw [Engine.step_in_loaded (by rw [hp]; rintro ⟨⟩), hload, Bool.true_or]⟩
    · have hc : c = 0 := by simp only [c, hsys, hl]; rfl
      rw [hc]
      exact ⟨Nat.zero_le 1, hp, hl⟩
  obtain ⟨hc1, hpc, hlc⟩ := hc
  have hprc (n : ℕ) : (e n).phase = .prc ↔ ∃ k, n = c + 23 * k + 1 := by
    by_cases hn : c ≤ n
    · exact Engine.stream_prc h hload hkey hpc hlc hn
    · rw [show n = 0 by omega, hp]
      exact ⟨by rintro ⟨⟩, by omega⟩
  have hu : Engine.coreUnit (e 0).phase = none := by rw [hp]; rfl
  constructor
  · intro n
    rw [(he n).ctValid_eq]
    by_cases hn : n < 21
    · rw [Engine.output_early h hu hn]
      exact ⟨by rintro ⟨⟩, by omega⟩
    · obtain ⟨m, rfl⟩ := Nat.exists_eq_add_of_le' (show 21 ≤ n by omega)
      rw [Engine.output_iff_prc h hu, hprc]
      constructor <;> rintro ⟨k, hk⟩ <;> exact ⟨k, by omega⟩
  · intro k
    obtain ⟨hpk, hlk⟩ := Engine.stream_idle h hload hkey hpc hlc k
    obtain ⟨hstart, hdata, -⟩ := Engine.stream_next h hload hkey hpk hlk
    obtain ⟨-, -, hstore, hKey⟩ := Engine.keyless_run h hkey hp (c + 23 * k + 1)
    have hschedule : ∀ i, 0 < i → i ≤ 10 → (e 0).store i = roundKey (e 0).Key i := by
      intro i _ hi
      obtain ⟨hv, hshown⟩ := Engine.valid_shown_of_none (e := e 0) (by rw [hp]; rfl)
      have hk := hr.keys i (by rw [hv]; omega)
      rw [hkeys i hi, hshown, hr.inputs] at hk
      exact (Option.some.inj hk).symm
    rw [(he _).cipherText_eq, show c + 23 * k + 22 = c + 23 * k + 1 + 21 from rfl, (Engine.encryption_ahead h hstart).1,
      hstore, hKey, hdata, hr.inputs, encrypt_eq, rounds_congr hschedule]

/-- The blocks 0, 1, 2, ... after the expansion of the key 7. -/
theorem stream_encrypted_counter :
    let s := run (AES_Top.step 0#128) (.reset (.posedge 0#128)) (fun n => ⟨7#128, n == 0, false⟩) 23
    s.EncryptsStream 0#128 fun n => ⟨BitVec.ofNat 128 n, false, true⟩ := by
  intro s
  refine stream_encrypted 0#128 s (.run (.init ⟨_, rfl⟩) _ 23) (by decide +kernel) (fun i hi => ?_) _ (fun _ => rfl)
    fun _ => rfl
  obtain ⟨e, h0, h, he⟩ := exists_engine_reset 0#128 (.posedge 0#128) fun n => ⟨7#128, n == 0, false⟩
  have hidle : (e 23).phase = .idle := (he 23).ready_eq.1 (by decide +kernel)
  have hlast : IsLast (fun j => (j == 0) = true ∧ (e j).phase = .idle) 0 23 :=
    ⟨by decide, ⟨rfl, by rw [h0]; rfl⟩, fun j hj _ hl => by simp at hl; omega⟩
  have hholds := Engine.holds_accepted h hlast
  obtain ⟨hv, hshown⟩ := Engine.valid_shown_of_none (e := e 23) (by rw [hidle]; rfl)
  rw [Engine.Holds, hidle] at hholds
  rw [(he 23).keys i (by rw [hv]; omega), hshown, hholds]
  rfl

end Aes128
