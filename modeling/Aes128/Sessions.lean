import Aes128.Driver
/-!
# Sessions of the driver

The conditions of the wrapper between the accesses of source.c, with the engine
inside: `Free` when nothing is under way, `Loading` and `Encrypting` from a
command to its end, with the cycles since the command. Every program of
`SetKey` and `Encrypt` is verified with them, for every schedule of the bus.
-/

open Fips197 Clocked Rounds Master Session

namespace Aes128

namespace wrapper_finalv2

/-! ## Conditions -/

/-- The key of the session, with its schedule. -/
def Keyed (k : Option Block) (e : Engine) : Prop := ∀ K ∈ k, e.Key = K ∧ e.Consistent

structure Free (k : Option Block) (w : wrapper_finalv2) (e : Engine) : Prop where
  quiet : Quiet w
  idle : e.phase = .idle
  empty : e.in_loaded = false
  key : Keyed k e

/-- After a key command. -/
inductive Loading (K : Block) : Option ℕ → wrapper_finalv2 → Engine → Prop
  | pulse {w : wrapper_finalv2} {e : Engine} (hk : w.Load_Key = true) (hd : w.Load_Data = false)
    (hin : w.in_data = K) (hp : e.phase = .idle) (hl : e.in_loaded = false) : Loading K (some 1) w e
  | expand {w : wrapper_finalv2} {e : Engine} (hq : Quiet w) (hk : Keyed (some K) e) (hp : e.phase = .keyExpand)
    (hl : e.in_loaded = false) : Loading K (some 2) w e
  | busy {w : wrapper_finalv2} {e : Engine} {K' : Block} {b : Beat 10} (hq : Quiet w) (hk : Keyed (some K) e)
    (hp : e.phase = .waitKeyex K' b) (hl : e.in_loaded = false) : Loading K (some (b.elapsed + 2)) w e
  | done {w : wrapper_finalv2} {e : Engine} {m : ℕ} (h : Free (some K) w e) (hm : 24 ≤ m) : Loading K (some m) w e

/-- After a data command. -/
inductive Encrypting (K P : Block) : Option ℕ → wrapper_finalv2 → Engine → Prop
  | pulse {w : wrapper_finalv2} {e : Engine} (hk : w.Load_Key = false) (hd : w.Load_Data = true)
    (hf : w.reset_flag = true) (hin : w.in_data = P) (h : Keyed (some K) e) (hp : e.phase = .idle)
    (hl : e.in_loaded = false) : Encrypting K P (some 1) w e
  | loaded {w : wrapper_finalv2} {e : Engine} (hq : Quiet w) (hv : w.tmp_valid = false) (h : Keyed (some K) e)
    (hd : e.Data = P) (hp : e.phase = .idle) (hl : e.in_loaded = true) : Encrypting K P (some 2) w e
  | start {w : wrapper_finalv2} {e : Engine} (hq : Quiet w) (hv : w.tmp_valid = false) (h : Keyed (some K) e)
    (hd : e.Data = P) (hp : e.phase = .prc) : Encrypting K P (some 3) w e
  | busy {w : wrapper_finalv2} {e : Engine} {b : Beat 10} (hq : Quiet w) (hv : w.tmp_valid = false)
    (h : Keyed (some K) e) (hp : e.phase = .waitPCore (P ^^^ K) b) (hl : e.in_loaded = false) :
    Encrypting K P (some (b.elapsed + 3)) w e
  | done {w : wrapper_finalv2} {e : Engine} {m : ℕ} (h : Free (some K) w e) (hv : w.tmp_valid = true)
    (hr : w.temp_result = encrypt K P) (hm : 25 ≤ m) : Encrypting K P (some m) w e

/-! ## One cycle -/

section Step
variable {x : BitVec 128} {i : Inputs} {w : wrapper_finalv2} {e : Engine}

theorem Keyed.step {k : Option Block} (h : Keyed k e) (hk : w.Load_Key = false) :
    Keyed k (e.step w.inst_inputs) := by
  intro K hK
  obtain ⟨hKey, hc⟩ := h K hK
  refine ⟨(Engine.step_Key hk).trans hKey, hc.step fun hl => ?_⟩
  rw [inst_inputs_Load_Key, hk] at hl
  cases hl

theorem Free.next {k : Option Block} (h : Free k w e) : (e.step w.inst_inputs).phase = .idle := by
  rw [Engine.step_phase, Engine.next_idle_empty h.idle h.quiet.key h.empty]

/-- Nothing happens by itself. -/
theorem Free.step {k : Option Block} (h : Free k w e) (hi : i.command = false) :
    Free k (w.step x i) (e.step w.inst_inputs) where
  quiet := quiet_step hi
  idle := h.next
  empty := (h.quiet.in_loaded (by simp [h.idle])).trans h.empty
  key := h.key.step h.quiet.key

theorem Free.result {k : Option Block} (h : Free k w e) (hr : Refines w.inst e) :
    (w.step x i).tmp_valid = w.tmp_valid ∧ (w.step x i).temp_result = w.temp_result :=
  result_of_no_output hr (by simp only [Engine.output, h.idle]) h.quiet.flag

theorem Loading.step {K : Block} {t : Option ℕ} (h : Loading K t w e) (hi : i.command = false) :
    Loading K (tick t) (w.step x i) (e.step w.inst_inputs) := by
  have hphase := Engine.step_phase w.inst_inputs e
  cases h with
  | pulse hk hd hin hp hl =>
    rw [Engine.next_idle_key hp hk] at hphase
    refine .expand (quiet_step hi) ?_ hphase ?_
    · rintro K' ⟨⟩
      refine ⟨?_, Engine.consistent_of_load hp hk⟩
      simp [Engine.step, hk, hin]
    · rw [Engine.step_in_loaded (by simp [hp]), hl, inst_inputs_Load_Data, hd]
      rfl
  | expand hq hk hp hl =>
    rw [Engine.next_keyExpand hp] at hphase
    exact .busy (quiet_step hi) (hk.step hq.key) hphase ((hq.in_loaded (by simp [hp])).trans hl)
  | @busy _ _ K' b hq hk hp hl =>
    have hl' := (hq.in_loaded (by simp [hp])).trans hl
    rw [Engine.next_waitKeyex hp] at hphase
    rcases hb : b.next with _ | c <;> rw [hb] at hphase
    · rw [Beat.next_eq_none.1 hb]
      refine .done ⟨quiet_step hi, hphase.trans ?_, hl', hk.step hq.key⟩ (Nat.le_refl 24)
      rw [Option.elim, Engine.resume, hl, if_neg Bool.false_ne_true]
    · have hm : tick (some (b.elapsed + 2)) = some (c.elapsed + 2) := by
        rw [Beat.elapsed_next hb]
        rfl
      rw [hm]
      exact .busy (quiet_step hi) (hk.step hq.key) hphase hl'
  | done h hm => exact .done (h.step hi) (Nat.le_succ_of_le hm)

theorem Encrypting.step {K P : Block} {t : Option ℕ} (h : Encrypting K P t w e) (hr : Refines w.inst e)
    (hi : i.command = false) : Encrypting K P (tick t) (w.step x i) (e.step w.inst_inputs) := by
  have hphase := Engine.step_phase w.inst_inputs e
  cases h with
  | pulse hk hd hf hin h hp hl =>
    rw [Engine.next_idle_empty hp hk hl] at hphase
    refine .loaded (quiet_step hi) (by rw [step_tmp_valid, hf]; rfl) (h.step hk) ?_ hphase ?_
    · simp [Engine.step, hk, hd, hin]
    · rw [Engine.step_in_loaded (by simp [hp]), inst_inputs_Load_Data, hd]
      rfl
  | loaded hq hv h hd hp hl =>
    have hres := result_of_no_output (x := x) (i := i) hr (by simp only [Engine.output, hp]) hq.flag
    rw [Engine.next_idle_waiting hp hq.key hl] at hphase
    exact .start (quiet_step hi) (hres.1.trans hv) (h.step hq.key) ((Engine.step_Data hq.data).trans hd) hphase
  | start hq hv h hd hp =>
    have hres := result_of_no_output (x := x) (i := i) hr (by simp only [Engine.output, hp]) hq.flag
    rw [Engine.next_prc hp, hd, (h K rfl).1] at hphase
    exact .busy (quiet_step hi) (hres.1.trans hv) (h.step hq.key) hphase (Engine.step_in_loaded_prc hp _)
  | @busy _ _ b hq hv h hp hl =>
    have hl' := (hq.in_loaded (by simp [hp])).trans hl
    rw [Engine.next_waitPCore hp] at hphase
    rcases hb : b.next with _ | c <;> rw [hb] at hphase
    · rw [Beat.next_eq_none.1 hb] at hp ⊢
      obtain ⟨hK, hc⟩ := h K rfl
      obtain ⟨hv, ht⟩ := result_of_output (x := x) (i := i) hr (output_eq_encrypt hp hK hc) hq.flag
      exact .done ⟨quiet_step hi, hphase, hl', h.step hq.key⟩ hv ht (Nat.le_refl 25)
    · have hm : tick (some (b.elapsed + 3)) = some (c.elapsed + 3) := by
        rw [Beat.elapsed_next hb]
        rfl
      have ho := Engine.output_eq_none hp (Beat.ne_finish_of_next hb)
      have hres := result_of_no_output (x := x) (i := i) hr ho hq.flag
      rw [hm]
      exact .busy (quiet_step hi) (hres.1.trans hv) (h.step hq.key) hphase hl'
  | done h hv ht hm =>
    have hres := h.result (x := x) (i := i) hr
    exact .done (h.step hi) (hres.1.trans hv) (hres.2.trans ht) (Nat.le_succ_of_le hm)

end Step

/-! ## The conditions of the logic -/

/-- A condition on the wrapper and on the engine inside. -/
def inside (x : BitVec 128) (P : Option ℕ → wrapper_finalv2 → Engine → Prop)
    (keep : ∀ {t w e i}, i.write = false → Refines w.inst e → P t w e →
      P (tick t) (w.step x i) (e.step w.inst_inputs)) : Condition (device x) where
  holds t w := ∃ e, Refines w.inst e ∧ P t w e
  idle := fun ⟨_, hr, h⟩ => ⟨_, hr.step x _, keep rfl hr h⟩
  read := fun _ ⟨_, hr, h⟩ => ⟨_, hr.step x _, keep rfl hr h⟩

theorem Inputs.command_of_write {i : Inputs} (h : i.write = false) : i.command = false := by
  rw [command, h, Bool.false_and]

theorem step_in_data_of_write (x : BitVec 128) {i : Inputs} (h : i.write = false) (w : wrapper_finalv2) :
    (w.step x i).in_data = w.in_data := by
  simp [step, posedge_clk, always, h]

section Conditions
variable (x : BitVec 128)

def free (k : Option Block) : Condition (device x) :=
  inside x (fun _ => Free k) fun hi _ h => h.step (Inputs.command_of_write hi)

/-- The first `j` words of `B` have been written. -/
def written (k : Option Block) (B : Block) (j : ℕ) : Condition (device x) :=
  inside x (fun _ w e => Free k w e ∧ ∀ i < j, word w.in_data i = word B i) fun hi _ h =>
    ⟨h.1.step (Inputs.command_of_write hi), by rw [step_in_data_of_write x hi]; exact h.2⟩

def loading (K : Block) : Condition (device x) :=
  inside x (Loading K) fun hi _ h => h.step (Inputs.command_of_write hi)

def encrypting (K P : Block) : Condition (device x) :=
  inside x (Encrypting K P) fun hi hr h => h.step hr (Inputs.command_of_write hi)

/-- The ciphertext can be read. -/
def shown (K C : Block) : Condition (device x) :=
  inside x (fun _ w e => Free (some K) w e ∧ w.temp_result = C) fun hi hr h =>
    ⟨h.1.step (Inputs.command_of_write hi), (h.1.result hr).2.trans h.2⟩

end Conditions

/-! ## The accesses -/

section Accesses
variable {x : BitVec 128} {k : Option Block} {t : Option ℕ} {w : wrapper_finalv2}

theorem test_bit (d : BitVec 32) : (d &&& 0x1#32 != 0#32) = d.getLsbD 0 := by
  rw [BitVec.and_one_eq_setWidth_ofBool_getLsbD]
  cases d.getLsbD 0 <;> rfl

theorem test_ready (w : wrapper_finalv2) :
    (device x).test ((device x).data ((device x).read 15#4 w)) = w.Ready_new_input := by
  change ((0#31 ++ BitVec.ofBool w.Ready_new_input) &&& 0x1#32 != 0#32) = _
  cases w.Ready_new_input <;> rfl

theorem test_valid (w : wrapper_finalv2) :
    (device x).test ((device x).data ((device x).read 10#4 w)) = w.tmp_valid := by
  change ((0#31 ++ BitVec.ofBool w.tmp_valid) &&& 0x1#32 != 0#32) = _
  cases w.tmp_valid <;> rfl

theorem Loading.free {K : Block} {e : Engine} (h : Loading K t w e) (h1 : t ≠ some 1) (hp : e.phase = .idle) :
    Free (some K) w e := by
  cases h with
  | pulse => exact absurd rfl h1
  | expand _ _ hp' => rw [hp] at hp'; cases hp'
  | busy _ _ hp' => rw [hp] at hp'; cases hp'
  | done h => exact h

theorem Loading.late {K : Block} {e : Engine} (h : Loading K t w e) (hl : Late 25 t) : e.phase = .idle := by
  cases h with
  | pulse => have := hl 1 rfl; omega
  | expand => have := hl 2 rfl; omega
  | busy _ _ _ _ => have := hl _ rfl; have := Beat.elapsed_le ‹_›; omega
  | done h => exact h.idle

theorem Encrypting.shown {K P : Block} {e : Engine} (h : Encrypting K P t w e) (h1 : t ≠ some 1)
    (hv : w.tmp_valid = true) : Free (some K) w e ∧ w.temp_result = encrypt K P := by
  cases h with
  | pulse => exact absurd rfl h1
  | loaded _ hv' => rw [hv] at hv'; cases hv'
  | start _ hv' => rw [hv] at hv'; cases hv'
  | busy _ hv' => rw [hv] at hv'; cases hv'
  | done h _ hr => exact ⟨h, hr⟩

theorem Encrypting.late {K P : Block} {e : Engine} (h : Encrypting K P t w e) (hl : Late 25 t) :
    w.tmp_valid = true := by
  cases h with
  | pulse => have := hl 1 rfl; omega
  | loaded => have := hl 2 rfl; omega
  | start => have := hl 3 rfl; omega
  | busy _ _ _ _ _ => have := hl _ rfl; have := Beat.elapsed_le ‹_›; omega
  | done _ hv => exact hv

/-- Between two operations. -/
structure Between (k : Option Block) (C : Condition (device x)) : Prop where
  exit : ∀ {t w}, t ≠ some 1 → C.holds t w → w.Ready_new_input = true → (free x k).holds t w
  late : ∀ {t w}, C.holds t w → Late 25 t → w.Ready_new_input = true

theorem between_free : Between k (free x k) where
  exit _ h _ := h
  late := fun ⟨_, hr, h⟩ _ => hr.ready_eq.2 h.idle

theorem between_loading {K : Block} : Between (some K) (loading x K) where
  exit := fun h1 ⟨e, hr, h⟩ hready => ⟨e, hr, h.free h1 (hr.ready_eq.1 hready)⟩
  late := fun ⟨_, hr, h⟩ hl => hr.ready_eq.2 (h.late hl)

theorem between_shown {K C : Block} : Between (some K) (shown x K C) where
  exit := fun _ ⟨e, hr, h⟩ _ => ⟨e, hr, h.1⟩
  late := fun ⟨_, hr, h⟩ _ => hr.ready_eq.2 h.1.idle

theorem write_written {B : Block} {j : ℕ} (hj : j < 4) (h : (written x k B j).holds t w) :
    (written x k B (j + 1)).holds (after (device x) (BitVec.ofNat 4 j) t)
      ((device x).write (BitVec.ofNat 4 j) (word B j) w) := by
  obtain ⟨e, hr, hfree, hw⟩ := h
  have hno : (Inputs.writing (BitVec.ofNat 4 j) (word B j)).command = false := by
    interval_cases j <;> rfl
  refine ⟨_, hr.step x _, hfree.step hno, fun i hi => ?_⟩
  rw [show ((device x).write (BitVec.ofNat 4 j) (word B j) w).in_data =
    write_word (.writing (BitVec.ofNat 4 j) (word B j)) w.in_data from rfl, word_write hj (by omega)]
  split
  next h => rw [h]
  next h => exact hw i (by omega)

theorem write_key {K : Block} (h : (written x k K 4).holds t w) :
    (loading x K).holds (after (device x) 5#4 t) ((device x).write 5#4 1#32 w) := by
  obtain ⟨e, hr, hfree, hw⟩ := h
  refine ⟨_, hr.step x _, .pulse rfl rfl ?_ hfree.next ?_⟩
  · exact eq_of_words hw
  · exact (hfree.quiet.in_loaded (by simp [hfree.idle])).trans hfree.empty

theorem write_data {K P : Block} (h : (written x (some K) P 4).holds t w) :
    (encrypting x K P).holds (after (device x) 4#4 t) ((device x).write 4#4 1#32 w) := by
  obtain ⟨e, hr, hfree, hw⟩ := h
  refine ⟨_, hr.step x _, .pulse rfl rfl rfl ?_ (hfree.key.step hfree.quiet.key) hfree.next ?_⟩
  · exact eq_of_words hw
  · exact (hfree.quiet.in_loaded (by simp [hfree.idle])).trans hfree.empty

end Accesses

/-! ## The program -/

section Program
variable {x : BitVec 128} {k : Option Block} {C : Condition (device x)}
  {prog : List (Access (BitVec 4) (BitVec 32))} {out : List (BitVec 32)}

theorem Between.poll (hC : Between k C) (h : Verified (device x) 25 (free x k) prog out) :
    Verified (device x) 25 C (.fetch (.poll 15#4) :: prog) out := by
  refine .poll (fun t w h1 hw ht => ?_) (fun t w _ hw hl => ?_) h
  · rw [test_ready] at ht
    exact hC.exit h1 hw ht
  · rw [test_ready]
    exact hC.late hw hl

theorem verified_words (B : Block) (h : Verified (device x) 25 (written x k B 4) prog out) :
    Verified (device x) 25 (free x k) (write_words B ++ prog) out := by
  refine (Verified.writes (written x k B) (fun j hj t w hw => write_written hj hw) h).of_imp fun t w => ?_
  rintro ⟨e, hr, hw⟩
  exact ⟨e, hr, hw, fun i hi => absurd hi (Nat.not_lt_zero i)⟩

theorem verified_setKey {K : Block} (hC : Between k C) (h : Verified (device x) 25 (loading x K) prog out) :
    Verified (device x) 25 C ((Op.SetKey K).accesses ++ prog) out := by
  rw [Op.accesses, List.cons_append, List.append_assoc]
  exact hC.poll (verified_words K (.write (fun t w hw => write_key hw) h))

theorem verified_encrypt {K P : Block} (hC : Between (some K) C)
    (h : Verified (device x) 25 (shown x K (encrypt K P)) prog out) :
    Verified (device x) 25 C ((Op.Encrypt P).accesses ++ prog) (words (encrypt K P) ++ out) := by
  rw [Op.accesses, List.cons_append, List.append_assoc]
  refine hC.poll (verified_words P (.write (fun t w hw => write_data hw) ?_))
  refine .poll (B := shown x K (encrypt K P)) (fun t w h1 hw ht => ?_) (fun t w _ hw hl => ?_) ?_
  · rw [test_valid] at ht
    obtain ⟨e, hr, hw⟩ := hw
    exact ⟨e, hr, hw.shown h1 ht⟩
  · rw [test_valid]
    obtain ⟨e, hr, hw⟩ := hw
    exact hw.late hl
  · refine .reads (fun i hi t w _ hw => ?_) h
    obtain ⟨e, -, -, hw⟩ := hw
    rw [← hw]
    exact read_result hi w

theorem verified_program (K : Block) (ops : List Op) (hC : Between (some K) C) :
    Verified (device x) 25 C (program ops) (expected K ops) := by
  induction ops generalizing K C with
  | nil => exact .nil C
  | cons op ops ih =>
    cases op with
    | SetKey K' => exact verified_setKey hC (ih K' between_loading)
    | Encrypt P => exact verified_encrypt hC (ih K between_shown)

/-- Sessions that begin with a key. -/
theorem verified_session (x : BitVec 128) (K : Block) (ops : List Op) :
    Verified (device x) 25 (free x none) (program (.SetKey K :: ops)) (expected K ops) :=
  verified_setKey between_free (verified_program K ops between_loading)

end Program

theorem free_reset (x : BitVec 128) (rom : S_box) : (free x none).holds none (reset rom) :=
  ⟨.init, refines_reset rom, ⟨rfl, rfl, rfl⟩, rfl, rfl, fun _ h => by cases h⟩

/-- In every session, whatever the schedule, the reads return the ciphertexts of its blocks under the keys
set before them. A poll ends that is 25 cycles or more behind the last command, and so does the session,
as long as its master is let go again and again. -/
theorem session_correct (x : BitVec 128) (rom : S_box) (K : Block) (ops : List Op) (sched : ℕ → Bool) :
    let σ := run (Session.step (device x)) (start (reset rom) (program (.SetKey K :: ops))) sched
    (∀ n, (σ n).results <+: expected K ops) ∧ (∀ n, (σ n).finished → (σ n).results = expected K ops) ∧
      (∀ n a prog m, (σ n).pending = none → (σ n).todo = .fetch (.poll a) :: prog → (σ n).since = some m → 25 ≤ m →
        sched n = true → (σ (n + 1)).pending = some (.poll a) ∧ (σ (n + 1)).state.oData.getLsbD 0 = true ∧
          (σ (n + 2)).todo = prog) ∧
      ((∀ m, ∃ n ≥ m, sched n = true) → ∃ n, (σ n).finished) := by
  intro σ
  have hv := verified_session x K ops
  have hs := free_reset x rom
  refine ⟨hv.results_prefix hs sched, fun n => hv.results_finished hs sched, ?_, hv.exists_finished hs⟩
  intro n a prog m hp ht hm h25 hgo
  have h1 : (σ n).since ≠ some 1 := by
    rw [hm]
    rintro ⟨⟩
    omega
  have hl : Late 25 (σ n).since := by
    rw [hm]
    rintro _ ⟨⟩
    exact h25
  obtain ⟨hpend, htest, htodo⟩ := hv.poll_ends hs rfl hp ht h1 hl hgo
  refine ⟨hpend, ?_, htodo⟩
  rw [← test_bit]
  exact htest

end wrapper_finalv2

end Aes128
