import Mathlib.Data.Nat.Count
import Aes128.Driver
/-!
# The registers of the bus

What a master sees of the wrapper over a whole trace, whatever it does on the bus:
four words that read back as they were written, two commands whose writes become
pulses one cycle later, and the block that each command captures.
-/

open Fips197 Clocked

namespace Aes128

namespace wrapper_finalv2

namespace Inputs

/-- A write of address `a`. -/
def writesTo (a : BitVec 4) (i : Inputs) : Bool := i.write && i.iAddress == a

/-- The cycle without its read. -/
def unread (i : Inputs) : Inputs := { i with iRead_n := true }

end Inputs

/-! ## What the registers should do -/

/-- `d` is the value written to address `a` last before cycle `n`, or 0. -/
def LastWritten (bus : ℕ → Inputs) (a : BitVec 4) (n : ℕ) (d : BitVec 32) : Prop :=
  Latest (fun j => (bus j).writesTo a = true) (fun j => (bus j).iData) 0#32 n d

/-- `pulse` is 1 in the cycles after the writes of address `a`, as often as there are such writes. -/
structure Pulses (bus : ℕ → Inputs) (st : ℕ → wrapper_finalv2) (a : BitVec 4) (pulse : wrapper_finalv2 → Bool) :
    Prop where
  after : ∀ n, pulse (st n) = true ↔ ∃ c, n = c + 1 ∧ (bus c).writesTo a = true
  count : ∀ n, Nat.count (fun j => pulse (st j) = true) (n + 1) = Nat.count (fun j => (bus j).writesTo a = true) n

/-- From two cycles after a write of address `a` until two cycles after the next one, `reg` holds the four
words written last before it. -/
def Captures (bus : ℕ → Inputs) (st : ℕ → wrapper_finalv2) (a : BitVec 4) (reg : InputInterface → Block) : Prop :=
  ∀ c n, IsLast (fun j => (bus j).writesTo a = true) c n →
    ∀ i < 4, LastWritten bus (BitVec.ofNat 4 i) c (word (reg (st (n + 1)).inst.ins_inputinterface) i)

/-- All but `oData`. -/
def hidden (w : wrapper_finalv2) : wrapper_finalv2 := { w with oData := 0#32 }

/-! ## The words -/

section Step
variable (x : BitVec 128) (i : Inputs) (w : wrapper_finalv2)

/-- Writes of the other addresses leave the words. -/
theorem write_word_other (h : 4 ≤ i.iAddress.toNat) (B : BitVec 128) : write_word i B = B := by
  unfold write_word
  split <;> simp_all

theorem step_word {k : ℕ} (hk : k < 4) :
    word (w.step x i).in_data k = if i.writesTo (BitVec.ofNat 4 k) then i.iData else word w.in_data k := by
  have hstep : (w.step x i).in_data = if i.write then write_word i w.in_data else w.in_data := rfl
  rw [hstep, Inputs.writesTo]
  cases hw : i.write with
  | false => rfl
  | true =>
    have ha : i.iAddress = BitVec.ofNat 4 i.iAddress.toNat := by simp
    rw [if_pos rfl, Bool.true_and]
    rcases Nat.lt_or_ge i.iAddress.toNat 4 with hlt | hge
    · have hword := word_write hlt hk i.iData w.in_data
      rw [← ha] at hword
      have heq : (i.iAddress == BitVec.ofNat 4 k) = true ↔ k = i.iAddress.toNat := by
        rw [beq_iff_eq, ← BitVec.toNat_inj, BitVec.toNat_ofNat, Nat.mod_eq_of_lt (by omega), eq_comm]
      simp only [heq]
      exact hword
    · have hne : (i.iAddress == BitVec.ofNat 4 k) = false := by
        rw [beq_eq_false_iff_ne]
        intro h
        rw [h, BitVec.toNat_ofNat] at hge
        omega
      rw [hne, write_word_other i hge]
      rfl

theorem read_in_data {k : ℕ} (hk : k < 4) : w.read_word (BitVec.ofNat 4 (11 + k)) = word w.in_data k := by
  interval_cases k <;> rfl

theorem step_inputs : (w.step x i).inst.ins_inputinterface =
    w.inst.ins_inputinterface.posedge false w.in_data w.Load_Key w.Load_Data := rfl

/-- A read changes `oData` only, and `oData` is not read. -/
theorem hidden_step : (w.step x i).hidden = (w.hidden.step x i.unread).hidden := rfl

end Step

/-! ## Runs -/

section Run
variable {x : BitVec 128} {bus : ℕ → Inputs} {st : ℕ → wrapper_finalv2} (h : IsRun (step x) bus st)

include h in
theorem lastWritten_word (h0 : (st 0).in_data = 0#128) (n : ℕ) {i : ℕ} (hi : i < 4) :
    LastWritten bus (BitVec.ofNat 4 i) n (word (st n).in_data i) := by
  have hw := latest (P := fun j => (bus j).writesTo (BitVec.ofNat 4 i) = true) (f := fun j => word (st j).in_data i)
    (v := fun j => (bus j).iData) (fun j hj => ?_) (fun j hj => ?_) n
  · rw [show word (st 0).in_data i = 0#32 by rw [h0, word, BitVec.extractLsb'_zero]] at hw
    exact hw
  · rw [h j, step_word x _ _ hi, if_pos hj]
  · rw [h j, step_word x _ _ hi, if_neg hj]

include h in
/-- A register of the wrapper that is 1 after the writes of address `a`. -/
theorem pulses {a : BitVec 4} {pulse : wrapper_finalv2 → Bool} (h0 : pulse (st 0) = false)
    (hstep : ∀ i w, pulse (step x i w) = i.writesTo a) : Pulses bus st a pulse := by
  have hsucc (n : ℕ) : pulse (st (n + 1)) = (bus n).writesTo a := by rw [h n, hstep]
  constructor
  · intro n
    cases n with
    | zero => simp [h0]
    | succ n => simp [hsucc]
  · intro n
    rw [Nat.count_succ', if_neg (Bool.eq_false_iff.1 h0), Nat.add_zero]
    simp only [hsucc]

include h in
theorem exclusive (h0 : (st 0).Load_Data = false) (n : ℕ) : ¬ ((st n).Load_Data = true ∧ (st n).Load_Key = true) := by
  rintro ⟨hd, hk⟩
  cases n with
  | zero => rw [h0] at hd; cases hd
  | succ n =>
    rw [h n, step_Load_Data] at hd
    rw [h n, step_Load_Key, Inputs.keyCommand_of_data hd] at hk
    cases hk

include h in
/-- A register of InputInterface that takes `in_data` at the pulses of the command `a`: no word is written
between the command and its pulse. -/
theorem captures (pulse : wrapper_finalv2 → Bool) {a : BitVec 4} {reg : InputInterface → Block}
    (h0 : (st 0).in_data = 0#128) (ha : ∀ i : Inputs, i.writesTo a = true → i.command = true)
    (hstep : ∀ i w, pulse (step x i w) = i.writesTo a)
    (hload : ∀ n, pulse (st n) = true → reg (st (n + 1)).inst.ins_inputinterface = (st n).in_data)
    (hhold : ∀ n, pulse (st n) = false →
      reg (st (n + 1)).inst.ins_inputinterface = reg (st n).inst.ins_inputinterface) : Captures bus st a reg := by
  have hpulse (n : ℕ) : pulse (st (n + 1)) = (bus n).writesTo a := by rw [h n, hstep]
  intro c n hlast i hi
  have hreg : reg (st (n + 1)).inst.ins_inputinterface = (st c).in_data := by
    refine hlast.held (f := fun n => reg (st (n + 1)).inst.ins_inputinterface) (v := fun n => (st n).in_data)
      (fun j hj => ?_) (fun j hj => ?_)
    · have hwords : (st (j + 1)).in_data = (st j).in_data := by rw [h j, step_in_data x _ _ (ha _ hj)]
      rw [hload (j + 1) ((hpulse j).trans hj), hwords]
    · exact hhold (j + 1) ((hpulse j).trans (Bool.eq_false_iff.2 hj))
  rw [hreg]
  exact lastWritten_word h h0 c hi

end Run

/-! ## The whole register file -/

/-- What the states `st` show of the bus cycles `bus`: the words read back as they were written, and the
commands pulse and capture. -/
structure RegisterFile (bus : ℕ → Inputs) (st : ℕ → wrapper_finalv2) : Prop where
  readBack : ∀ n, ∀ i < 4, (bus n).read = true → (bus n).iAddress = BitVec.ofNat 4 (11 + i) →
    LastWritten bus (BitVec.ofNat 4 i) n (st (n + 1)).oData
  dataPulses : Pulses bus st 4#4 Load_Data
  keyPulses : Pulses bus st 5#4 Load_Key
  exclusive : ∀ n, ¬ ((st n).Load_Data = true ∧ (st n).Load_Key = true)
  dataCaptured : Captures bus st 4#4 InputInterface.Data
  keyCaptured : Captures bus st 5#4 InputInterface.Key

/-- Every trace of bus cycles from reset keeps to the register file, and the trace without its reads has the
same states but for `oData`. -/
theorem register_file (x : BitVec 128) (rom : S_box) (bus : ℕ → Inputs) :
    RegisterFile bus (run (step x) (reset rom) bus) ∧
      ∀ n, (run (step x) (reset rom) bus n).hidden =
        (run (step x) (reset rom) (fun j => (bus j).unread) n).hidden := by
  have h : IsRun (step x) bus (run (step x) (reset rom) bus) := isRun_run _ _
  constructor
  · constructor
    case readBack =>
      intro n i hi hr ha
      rw [h n, step_oData x _ _ hr, ha, read_in_data _ hi]
      exact lastWritten_word h rfl n hi
    case dataPulses => exact pulses h rfl fun i w => rfl
    case keyPulses => exact pulses h rfl fun i w => rfl
    case exclusive => exact exclusive h rfl
    case dataCaptured =>
      refine captures h Load_Data rfl (fun i => Inputs.command_of_data) (fun i w => rfl)
        (fun n hd => ?_) (fun n hd => ?_)
      · have hk : (run (step x) (reset rom) bus n).Load_Key = false :=
          Bool.eq_false_iff.2 fun hk => exclusive h rfl n ⟨hd, hk⟩
        rw [h n, step_inputs, hd, hk]
        rfl
      · rw [h n, step_inputs, hd]
        cases (run (step x) (reset rom) bus n).Load_Key <;> rfl
    case keyCaptured =>
      refine captures h Load_Key rfl (fun i => Inputs.command_of_key) (fun i w => rfl)
        (fun n hk => ?_) (fun n hk => ?_)
      · rw [h n, step_inputs, hk]
        rfl
      · rw [h n, step_inputs, hk]
        cases (run (step x) (reset rom) bus n).Load_Data <;> rfl
  · intro n
    induction n with
    | zero => rfl
    | succ n ih => rw [run_succ, hidden_step, ih, run_succ]; rfl

end wrapper_finalv2

end Aes128
