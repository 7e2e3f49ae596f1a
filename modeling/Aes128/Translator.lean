import Mathlib
import Aes128.Clocked
/-!
# altera_merlin_slave_translator.sv

The timing of an Avalon slave that neither waits nor pipelines: a counter holds
the request of the interconnect back, and opens the windows in which the slave
sees it. `requests_served` says which cycles these are, for all wait, setup and hold
cycles whose sums the module can count to.

The configuration is that of `IP_slave_0` in the other parameters: no
`waitrequest` and no `readdatavalid` of the slave, no read latency, no bursts.
-/

open Clocked

namespace Aes128

namespace altera_merlin_slave_translator

/-- The four timing parameters. Their sums are 32-bit integers, and `clog2_plusone` takes them for signed ones. -/
structure Parameters where
  AV_READ_WAIT_CYCLES : ℕ
  AV_WRITE_WAIT_CYCLES : ℕ
  AV_SETUP_WAIT_CYCLES : ℕ
  AV_DATA_HOLD_CYCLES : ℕ
  read_lt : AV_SETUP_WAIT_CYCLES + AV_READ_WAIT_CYCLES + 1 < 2 ^ 31
  hold_lt : AV_SETUP_WAIT_CYCLES + AV_WRITE_WAIT_CYCLES + AV_DATA_HOLD_CYCLES + 1 < 2 ^ 31

/-- The loop of `clog2_plusone`: shifts the integer `i` until nothing is left. -/
def shifts : ℕ → BitVec 32 → ℕ
  | 0, _ => 0
  | fuel + 1, i => if i.toInt > 0 then shifts fuel (i >>> 1) + 1 else 0

/-- The number of bits of `Depth`, in 31 rounds at most; 0 for a `Depth` that is negative as an integer. -/
def clog2_plusone (Depth : BitVec 32) : ℕ := shifts 31 Depth

namespace Parameters
variable (p : Parameters)

def AV_READ_WAIT_INDEXED : ℕ := p.AV_SETUP_WAIT_CYCLES + p.AV_READ_WAIT_CYCLES

def AV_WRITE_WAIT_INDEXED : ℕ := p.AV_SETUP_WAIT_CYCLES + p.AV_WRITE_WAIT_CYCLES

def AV_DATA_HOLD_INDEXED : ℕ := p.AV_WRITE_WAIT_INDEXED + p.AV_DATA_HOLD_CYCLES

def LOG2_OF_LATENCY_SUM : ℕ :=
  max (clog2_plusone (BitVec.ofNat 32 (p.AV_READ_WAIT_INDEXED + 1)))
    (clog2_plusone (BitVec.ofNat 32 (p.AV_DATA_HOLD_INDEXED + 1)))

end Parameters

end altera_merlin_slave_translator

/-- The parameters of `ip_slave_0_avalon_slave_0_translator`. -/
def ip_slave_0_parameters : altera_merlin_slave_translator.Parameters where
  AV_READ_WAIT_CYCLES := 1
  AV_WRITE_WAIT_CYCLES := 0
  AV_SETUP_WAIT_CYCLES := 0
  AV_DATA_HOLD_CYCLES := 0
  read_lt := by decide
  hold_lt := by decide

namespace altera_merlin_slave_translator

/-- The universal Avalon port in one cycle. -/
structure Inputs where
  uav_address : BitVec 17
  uav_writedata : BitVec 32
  uav_write : Bool
  uav_read : Bool
  deriving DecidableEq

end altera_merlin_slave_translator

open altera_merlin_slave_translator in
structure altera_merlin_slave_translator where
  wait_latency_counter : ℕ
  waitrequest_reset_override : Bool
  av_readdata_pre : BitVec 32
  read_latency_shift_reg : Bool

namespace altera_merlin_slave_translator

def Inputs.request (u : Inputs) : Bool := u.uav_read || u.uav_write

/-! ## The wires -/

section Wires
variable (p : Parameters) (u : Inputs) (t : altera_merlin_slave_translator)

def av_waitrequest_generated : Bool :=
  if p.LOG2_OF_LATENCY_SUM > 1 then
    if u.uav_write then t.wait_latency_counter != p.AV_DATA_HOLD_INDEXED
    else t.wait_latency_counter != p.AV_READ_WAIT_INDEXED
  else if p.LOG2_OF_LATENCY_SUM = 1 then false
  else true

def uav_waitrequest : Bool := t.av_waitrequest_generated p u || t.waitrequest_reset_override

def av_read : Bool :=
  if p.LOG2_OF_LATENCY_SUM > 1 then decide (p.AV_SETUP_WAIT_CYCLES ≤ t.wait_latency_counter) && u.uav_read
  else u.uav_read

def av_write : Bool :=
  if p.LOG2_OF_LATENCY_SUM > 1 then
    decide (p.AV_SETUP_WAIT_CYCLES ≤ t.wait_latency_counter) && u.uav_write &&
      decide (t.wait_latency_counter ≤ p.AV_WRITE_WAIT_INDEXED)
  else u.uav_write

/-- Without read latency, `av_chipselect_pre` is never set. -/
def av_chipselect : Bool := u.request

/-- Words of four symbols: the two lowest bits of the address are dropped. -/
def av_address : BitVec 4 := u.uav_address.extractLsb' 2 4

def uav_readdatavalid : Bool := t.read_latency_shift_reg

def uav_readdata : BitVec 32 := t.av_readdata_pre

/-- A cycle with the reset off. -/
def step (av_readdata : BitVec 32) : altera_merlin_slave_translator where
  -- a counter of LOG2_OF_LATENCY_SUM bits; the clear is the last assignment of the block
  wait_latency_counter :=
    if !t.uav_waitrequest p u || t.waitrequest_reset_override then 0
    else if u.request then (t.wait_latency_counter + 1) % 2 ^ p.LOG2_OF_LATENCY_SUM
    else 0
  waitrequest_reset_override := false
  av_readdata_pre := av_readdata
  read_latency_shift_reg := u.uav_read && !t.uav_waitrequest p u && !t.waitrequest_reset_override

end Wires

/-- The state a reset leaves. -/
def reset : altera_merlin_slave_translator := ⟨0, true, 0#32, false⟩

/-! ## The width of the counter -/

theorem lt_two_pow_shifts (fuel : ℕ) (i : BitVec 32) (hi : i.toNat < 2 ^ fuel) (hfuel : fuel ≤ 31) :
    i.toNat < 2 ^ shifts fuel i := by
  induction fuel generalizing i with
  | zero => exact hi
  | succ fuel ih =>
    have hint : i.toInt = i.toNat := by
      have hle : 2 ^ (fuel + 1) ≤ 2 ^ 31 := Nat.pow_le_pow_right (by decide) hfuel
      rw [BitVec.toInt_eq_toNat_cond, if_pos (by omega)]
    unfold shifts
    split
    · have hhalf : (i >>> 1).toNat = i.toNat / 2 := by
        rw [BitVec.toNat_ushiftRight, Nat.shiftRight_eq_div_pow, Nat.pow_one]
      have hrest := ih (i >>> 1) (by rw [hhalf]; omega) (by omega)
      rw [Nat.pow_succ]
      omega
    · rw [show i.toNat = 0 by omega]
      exact Nat.one_pos

theorem lt_two_pow_clog2_plusone {n : ℕ} (h : n < 2 ^ 31) : n < 2 ^ clog2_plusone (BitVec.ofNat 32 n) := by
  have hn : (BitVec.ofNat 32 n).toNat = n := by
    rw [BitVec.toNat_ofNat, Nat.mod_eq_of_lt (by omega)]
  have hlt := lt_two_pow_shifts 31 (BitVec.ofNat 32 n) (by rw [hn]; exact h) (Nat.le_refl 31)
  rwa [hn] at hlt

namespace Parameters
variable (p : Parameters)

/-- The counter does not wrap before either of its goals. -/
theorem lt_two_pow : p.AV_READ_WAIT_INDEXED + 1 < 2 ^ p.LOG2_OF_LATENCY_SUM ∧
    p.AV_DATA_HOLD_INDEXED + 1 < 2 ^ p.LOG2_OF_LATENCY_SUM := by
  constructor
  · exact Nat.lt_of_lt_of_le (lt_two_pow_clog2_plusone p.read_lt)
      (Nat.pow_le_pow_right (by decide) (Nat.le_max_left _ _))
  · exact Nat.lt_of_lt_of_le (lt_two_pow_clog2_plusone p.hold_lt)
      (Nat.pow_le_pow_right (by decide) (Nat.le_max_right _ _))

theorem log2_pos : 0 < p.LOG2_OF_LATENCY_SUM := by
  have h := p.lt_two_pow.1
  rcases hw : p.LOG2_OF_LATENCY_SUM with _ | n
  · rw [hw] at h
    omega
  · exact Nat.succ_pos n

/-- A counter of one bit never counts. -/
theorem eq_zero_of_log2 (h : ¬ p.LOG2_OF_LATENCY_SUM > 1) :
    p.AV_READ_WAIT_INDEXED = 0 ∧ p.AV_DATA_HOLD_INDEXED = 0 := by
  have hpos := p.log2_pos
  have hlt := p.lt_two_pow
  rw [show p.LOG2_OF_LATENCY_SUM = 1 by omega] at hlt
  omega

end Parameters

/-! ## One request -/

/-- The cycle of a request in which it is accepted. -/
def Inputs.latency (p : Parameters) (u : Inputs) : ℕ :=
  if u.uav_write then p.AV_DATA_HOLD_INDEXED else p.AV_READ_WAIT_INDEXED

theorem Inputs.latency_lt (p : Parameters) (u : Inputs) : u.latency p + 1 < 2 ^ p.LOG2_OF_LATENCY_SUM := by
  unfold latency
  split
  · exact p.lt_two_pow.2
  · exact p.lt_two_pow.1

section Wires
variable {p : Parameters} {u : Inputs} {t : altera_merlin_slave_translator}
  (hc : t.wait_latency_counter ≤ u.latency p)

theorem bne_of_le {c l : ℕ} (h : c ≤ l) : (c != l) = decide (c < l) := by
  rw [Bool.eq_iff_iff, bne_iff_ne, decide_eq_true_eq]
  omega

include hc in
theorem waitrequest_eq (ho : t.waitrequest_reset_override = false) :
    t.uav_waitrequest p u = decide (t.wait_latency_counter < u.latency p) := by
  rw [uav_waitrequest, ho, Bool.or_false, av_waitrequest_generated]
  unfold Inputs.latency at hc ⊢
  by_cases hlog : p.LOG2_OF_LATENCY_SUM > 1
  · rw [if_pos hlog]
    split at hc
    next hw => rw [if_pos hw, if_pos hw, bne_of_le hc]
    next hw => rw [if_neg hw, if_neg hw, bne_of_le hc]
  · have hpos := p.log2_pos
    obtain ⟨hr, hd⟩ := p.eq_zero_of_log2 hlog
    rw [if_neg hlog, if_pos (by omega), hr, hd]
    split <;> rfl

include hc in
theorem av_write_eq : t.av_write p u = (u.uav_write && decide (p.AV_SETUP_WAIT_CYCLES ≤ t.wait_latency_counter ∧
    t.wait_latency_counter ≤ p.AV_WRITE_WAIT_INDEXED)) := by
  unfold av_write
  by_cases hlog : p.LOG2_OF_LATENCY_SUM > 1
  · rw [if_pos hlog, Bool.decide_and, Bool.and_comm (decide _) u.uav_write, Bool.and_assoc]
  · obtain ⟨hr, hd⟩ := p.eq_zero_of_log2 hlog
    have hs : p.AV_SETUP_WAIT_CYCLES = 0 := Nat.eq_zero_of_add_eq_zero_right hr
    have h0 : t.wait_latency_counter = 0 := by
      unfold Inputs.latency at hc
      split at hc <;> omega
    rw [if_neg hlog, hs, h0, decide_eq_true ⟨Nat.le_refl 0, Nat.zero_le _⟩, Bool.and_true]

theorem av_read_eq :
    t.av_read p u = (u.uav_read && decide (p.AV_SETUP_WAIT_CYCLES ≤ t.wait_latency_counter)) := by
  unfold av_read
  by_cases hlog : p.LOG2_OF_LATENCY_SUM > 1
  · rw [if_pos hlog, Bool.and_comm]
  · obtain ⟨hr, hd⟩ := p.eq_zero_of_log2 hlog
    have hs : p.AV_SETUP_WAIT_CYCLES = 0 := Nat.eq_zero_of_add_eq_zero_right hr
    rw [if_neg hlog, hs, decide_eq_true (Nat.zero_le _), Bool.and_true]

/-- While a request waits, it is counted. -/
theorem counter_step (hlt : t.wait_latency_counter < u.latency p) (ho : t.waitrequest_reset_override = false)
    (hr : u.request = true) (d : BitVec 32) :
    (t.step p u d).wait_latency_counter = t.wait_latency_counter + 1 := by
  have hw : t.uav_waitrequest p u = true := by
    rw [waitrequest_eq (Nat.le_of_lt hlt) ho, decide_eq_true hlt]
  have hwidth := u.latency_lt p
  simp only [step, hw, ho, hr]
  exact Nat.mod_eq_of_lt (by omega)

/-- In any other cycle, the count is over. -/
theorem counter_step_zero (h : t.uav_waitrequest p u = false ∨ t.waitrequest_reset_override = true ∨ u.request = false)
    (d : BitVec 32) : (t.step p u d).wait_latency_counter = 0 := by
  unfold step
  rcases h with h | h | h <;> simp [h]

end Wires

/-! ## Runs -/

/-- The request that is first there in cycle `m`: it is held until it is accepted, the slave sees it in the
windows of the parameters, and the answer to a read is what the slave shows when it is accepted. -/
structure Served (p : Parameters) (u : ℕ → Inputs) (d : ℕ → BitVec 32) (t : ℕ → altera_merlin_slave_translator)
    (m : ℕ) : Prop where
  held : ∀ j ≤ (u m).latency p, u (m + j) = u m
  wait : ∀ j ≤ (u m).latency p, (t (m + j)).uav_waitrequest p (u (m + j)) = decide (j < (u m).latency p)
  write : ∀ j ≤ (u m).latency p, (t (m + j)).av_write p (u (m + j)) =
    ((u m).uav_write && decide (p.AV_SETUP_WAIT_CYCLES ≤ j ∧ j ≤ p.AV_WRITE_WAIT_INDEXED))
  read : ∀ j ≤ (u m).latency p, (t (m + j)).av_read p (u (m + j)) =
    ((u m).uav_read && decide (p.AV_SETUP_WAIT_CYCLES ≤ j))
  answer : (t (m + (u m).latency p + 1)).uav_readdatavalid = (u m).uav_read ∧
    (t (m + (u m).latency p + 1)).uav_readdata = d (m + (u m).latency p)

section Run
variable {p : Parameters} {u : ℕ → Inputs} {d : ℕ → BitVec 32} {t : ℕ → altera_merlin_slave_translator}
  (h : ∀ n, t (n + 1) = (t n).step p (u n) (d n))
  (hold : ∀ n, (u n).request = true → (t n).uav_waitrequest p (u n) = true → u (n + 1) = u n)

include h in
theorem override_off {n : ℕ} (hn : 0 < n) : (t n).waitrequest_reset_override = false := by
  obtain ⟨m, rfl⟩ := Nat.exists_eq_succ_of_ne_zero (Nat.ne_of_gt hn)
  rw [h m]
  rfl

include h hold in
/-- The counter counts the cycles of the request. -/
theorem counter_eq {m : ℕ} (hm : 0 < m) (hc : (t m).wait_latency_counter = 0) (hr : (u m).request = true) {j : ℕ}
    (hj : j ≤ (u m).latency p) : (t (m + j)).wait_latency_counter = j ∧ u (m + j) = u m := by
  induction j with
  | zero => exact ⟨hc, rfl⟩
  | succ j ih =>
    obtain ⟨hcj, huj⟩ := ih (by omega)
    have ho := override_off h (show 0 < m + j by omega)
    have hlt : (t (m + j)).wait_latency_counter < (u (m + j)).latency p := by
      rw [hcj, huj]
      omega
    have hrj : (u (m + j)).request = true := by rw [huj, hr]
    rw [← Nat.add_assoc]
    constructor
    · rw [h, counter_step hlt ho hrj, hcj]
    · rw [hold _ hrj (by rw [waitrequest_eq (Nat.le_of_lt hlt) ho, decide_eq_true hlt]), huj]

include h hold in
theorem served {m : ℕ} (hm : 0 < m) (hc : (t m).wait_latency_counter = 0) (hr : (u m).request = true) :
    Served p u d t m := by
  have hcount (j : ℕ) (hj : j ≤ (u m).latency p) := counter_eq h hold hm hc hr hj
  have hle (j : ℕ) (hj : j ≤ (u m).latency p) :
      (t (m + j)).wait_latency_counter ≤ (u (m + j)).latency p := by
    obtain ⟨hcj, huj⟩ := hcount j hj
    rw [hcj, huj]
    exact hj
  have hwait (j : ℕ) (hj : j ≤ (u m).latency p) :
      (t (m + j)).uav_waitrequest p (u (m + j)) = decide (j < (u m).latency p) := by
    obtain ⟨hcj, huj⟩ := hcount j hj
    rw [waitrequest_eq (hle j hj) (override_off h (by omega)), hcj, huj]
  refine ⟨fun j hj => (hcount j hj).2, hwait, fun j hj => ?_, fun j hj => ?_, ?_, ?_⟩
  · obtain ⟨hcj, huj⟩ := hcount j hj
    rw [av_write_eq (hle j hj), hcj, huj]
  · obtain ⟨hcj, huj⟩ := hcount j hj
    rw [av_read_eq, hcj, huj]
  · have hlast := hwait _ (Nat.le_refl _)
    rw [h, uav_readdatavalid, step, hlast, override_off h (by omega), (hcount _ (Nat.le_refl _)).2]
    simp
  · rw [h]
    rfl

include h hold in
/-- Every request is in the course of one that was first there when the counter was 0. -/
theorem exists_start (h0 : (t 0).waitrequest_reset_override = true) {n : ℕ} (hn : 0 < n) (hr : (u n).request = true) :
    ∃ m, 0 < m ∧ m ≤ n ∧ n ≤ m + (u m).latency p ∧ Served p u d t m := by
  induction n using Nat.strongRecOn with
  | ind n ih =>
    by_cases hc : (t n).wait_latency_counter = 0
    · exact ⟨n, hn, Nat.le_refl n, Nat.le_add_right n _, served h hold hn hc hr⟩
    · obtain ⟨k, rfl⟩ := Nat.exists_eq_succ_of_ne_zero (Nat.ne_of_gt hn)
      -- the counter has just counted cycle `k`, so the request was there, and waited
      have hcounted : ¬((t k).uav_waitrequest p (u k) = false ∨ (t k).waitrequest_reset_override = true ∨
          (u k).request = false) := fun hz => hc (by rw [h k, counter_step_zero hz])
      simp only [not_or, Bool.not_eq_false, Bool.not_eq_true] at hcounted
      obtain ⟨hw, ho, hrk⟩ := hcounted
      have hk : 0 < k := by
        refine Nat.pos_of_ne_zero ?_
        rintro rfl
        rw [h0] at ho
        cases ho
      obtain ⟨m, hm, hmk, hkm, hs⟩ := ih k (Nat.lt_succ_self k) hk hrk
      refine ⟨m, hm, by omega, ?_, hs⟩
      have hne : k - m ≠ (u m).latency p := by
        intro hj
        have hlast := hs.wait (k - m) (Nat.le_of_eq hj)
        rw [show m + (k - m) = k by omega, hw, hj] at hlast
        simp at hlast
      omega

/-- A cycle is in the course of one request only. -/
theorem Served.unique {m m' n : ℕ} (hs : Served p u d t m) (hs' : Served p u d t m') (hm : m ≤ n)
    (hn : n ≤ m + (u m).latency p) (hm' : m' ≤ n) (hn' : n ≤ m' + (u m').latency p) : ¬ m < m' := by
  intro hlt
  have hu := hs.held (n - m) (by omega)
  have hu' := hs'.held (n - m') (by omega)
  rw [show m + (n - m) = n by omega] at hu
  rw [show m' + (n - m') = n by omega, hu] at hu'
  have hlast := hs.wait ((u m).latency p) (Nat.le_refl _)
  have hwait := hs'.wait (m + (u m).latency p - m') (by rw [← hu']; omega)
  rw [show m' + (m + (u m).latency p - m') = m + (u m).latency p by omega, hlast, ← hu'] at hwait
  simp only [Nat.lt_irrefl, decide_false] at hwait
  rw [eq_comm, decide_eq_false_iff_not] at hwait
  omega

end Run

/-- Whatever the timing parameters: when the master keeps its request while it has to wait, it has to wait in the
first cycle after the reset, and from the next one on every request is in the course of exactly one that is served. -/
theorem requests_served (p : Parameters) (u : ℕ → Inputs) (d : ℕ → BitVec 32)
    (hold : ∀ n, (u n).request = true →
      (run (fun (i : Inputs × BitVec 32) t => t.step p i.1 i.2) reset (fun n => (u n, d n)) n).uav_waitrequest p (u n) =
        true → u (n + 1) = u n) :
    let t := run (fun (i : Inputs × BitVec 32) t => t.step p i.1 i.2) reset fun n => (u n, d n)
    (t 0).uav_waitrequest p (u 0) = true ∧
      ∀ n, 0 < n → (u n).request = true → ∃! m, 0 < m ∧ m ≤ n ∧ n ≤ m + (u m).latency p ∧ Served p u d t m := by
  intro t
  refine ⟨Bool.or_true _, fun n hn hr => ?_⟩
  obtain ⟨m, hm, hmn, hnm, hs⟩ := exists_start (fun _ => rfl) hold rfl hn hr
  refine ⟨m, ⟨hm, hmn, hnm, hs⟩, ?_⟩
  rintro m' ⟨-, hmn', hnm', hs'⟩
  exact Nat.le_antisymm (Nat.le_of_not_lt (hs.unique hs' hmn hnm hmn' hnm'))
    (Nat.le_of_not_lt (hs'.unique hs hmn' hnm' hmn hnm))

/-- A read that comes with the end of the reset: one cycle for that, and one wait cycle. -/
theorem requests_served_read :
    let u (n : ℕ) : Inputs := ⟨0x11028#17, 0#32, false, decide (n < 3)⟩
    let t := run (fun (i : Inputs × BitVec 32) t => t.step ip_slave_0_parameters i.1 i.2) reset fun n => (u n, 7#32)
    (t 0).uav_waitrequest ip_slave_0_parameters (u 0) = true ∧
      ∀ n, 0 < n → (u n).request = true → ∃! m, 0 < m ∧ m ≤ n ∧ n ≤ m + (u m).latency ip_slave_0_parameters ∧
        Served ip_slave_0_parameters u (fun _ => 7#32) t m := by
  intro u
  refine requests_served ip_slave_0_parameters u (fun _ => 7#32) fun n hr hw => ?_
  have hn : n < 3 := by simpa [u, Inputs.request] using hr
  interval_cases n
  · rfl
  · rfl
  · revert hw
    decide

end altera_merlin_slave_translator

end Aes128
