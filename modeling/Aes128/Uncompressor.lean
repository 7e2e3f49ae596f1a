import Mathlib
import Aes128.Fifo
/-!
# altera_merlin_burst_uncompressor.sv

A burst of reads is one beat on its way to the slave, and one beat for each word on
its way back. Here the one becomes the many again: it stays at the front of the
response FIFO while the byte count falls and the address goes up and wraps.

For any widths, what comes out is the beats of one burst after the other, however
the slave and the network stall.
-/

open Clocked

namespace Aes128

namespace altera_merlin_burst_uncompressor

/-- `BURST_SIZE_W` is left at its 3. The lengths of a transfer are cut out of 64 bits, and the symbols out of 32. -/
structure Parameters where
  ADDR_W : ℕ
  BURSTWRAP_W : ℕ
  BYTE_CNT_W : ℕ
  PKT_SYMBOLS : ℕ
  addr_le : ADDR_W ≤ 64
  byte_cnt_le : BYTE_CNT_W ≤ 32

/-- What is at the front of the response FIFO. -/
structure Sink (p : Parameters) where
  startofpacket : Bool
  endofpacket : Bool
  addr : BitVec p.ADDR_W
  burstwrap : BitVec p.BURSTWRAP_W
  byte_cnt : BitVec p.BYTE_CNT_W
  is_compressed : Bool
  burstsize : BitVec 3

structure Inputs (p : Parameters) where
  sink : Sink p
  sink_valid : Bool
  source_ready : Bool

/-- One beat of a response. -/
structure Source (p : Parameters) where
  startofpacket : Bool
  endofpacket : Bool
  addr : BitVec p.ADDR_W
  burstwrap : BitVec p.BURSTWRAP_W
  byte_cnt : BitVec p.BYTE_CNT_W
  is_compressed : Bool
  burstsize : BitVec 3

end altera_merlin_burst_uncompressor

open altera_merlin_burst_uncompressor in
structure altera_merlin_burst_uncompressor (p : Parameters) where
  burst_uncompress_busy : Bool
  burst_uncompress_byte_counter : BitVec p.BYTE_CNT_W
  burst_uncompress_address_base : BitVec p.ADDR_W
  burst_uncompress_address_offset : BitVec p.ADDR_W

namespace altera_merlin_burst_uncompressor

def bytes_in_transfer (axsize : BitVec 3) : BitVec 64 :=
  match axsize with
  | 0b000#3 => 0x01#64
  | 0b001#3 => 0x02#64
  | 0b010#3 => 0x04#64
  | 0b011#3 => 0x08#64
  | 0b100#3 => 0x10#64
  | 0b101#3 => 0x20#64
  | 0b110#3 => 0x40#64
  | 0b111#3 => 0x80#64

section Wires
variable {p : Parameters} (i : Inputs p) (u : altera_merlin_burst_uncompressor p)

def num_symbols (p : Parameters) : BitVec p.BYTE_CNT_W := (BitVec.ofNat 32 p.PKT_SYMBOLS).setWidth p.BYTE_CNT_W

def first_packet_beat : Bool := i.sink_valid && !u.burst_uncompress_busy

def source_byte_cnt : BitVec p.BYTE_CNT_W :=
  if u.first_packet_beat i then i.sink.byte_cnt else u.burst_uncompress_byte_counter

def source_valid : Bool := i.sink_valid

def last_packet_beat : Bool :=
  !i.sink.is_compressed ||
    if u.burst_uncompress_busy then i.sink_valid && u.burst_uncompress_byte_counter == num_symbols p
    else i.sink_valid && i.sink.byte_cnt == num_symbols p

def addr_width_burstwrap (k : Sink p) : BitVec p.ADDR_W := k.burstwrap.signExtend p.ADDR_W

def decoded_burstsize (k : Sink p) : BitVec p.ADDR_W := (bytes_in_transfer k.burstsize).setWidth p.ADDR_W

def p1_burst_uncompress_address_offset : BitVec p.ADDR_W :=
  ((if u.first_packet_beat i then i.sink.addr else u.burst_uncompress_address_offset) + decoded_burstsize i.sink) &&&
    addr_width_burstwrap i.sink

def source_addr : BitVec p.ADDR_W :=
  if u.first_packet_beat i then i.sink.addr
  else u.burst_uncompress_address_base ||| u.burst_uncompress_address_offset

def source : Source p where
  startofpacket := i.sink.startofpacket && !u.burst_uncompress_busy
  endofpacket := i.sink.endofpacket && u.last_packet_beat i
  addr := u.source_addr i
  burstwrap := i.sink.burstwrap
  byte_cnt := u.source_byte_cnt i
  is_compressed := false
  burstsize := i.sink.burstsize

def sink_ready : Bool := source_valid i && i.source_ready && u.last_packet_beat i

def step : altera_merlin_burst_uncompressor p where
  burst_uncompress_busy :=
    if source_valid i && i.source_ready && i.sink_valid then !u.last_packet_beat i else u.burst_uncompress_busy
  burst_uncompress_byte_counter :=
    if source_valid i && i.source_ready && i.sink_valid then
      if u.last_packet_beat i then 0#p.BYTE_CNT_W
      else if u.burst_uncompress_busy then
        if u.burst_uncompress_byte_counter ≠ 0#p.BYTE_CNT_W then u.burst_uncompress_byte_counter - num_symbols p
        else i.sink.byte_cnt - num_symbols p
      else i.sink.byte_cnt - num_symbols p
    else u.burst_uncompress_byte_counter
  burst_uncompress_address_base :=
    if u.first_packet_beat i && i.source_ready then i.sink.addr &&& ~~~addr_width_burstwrap i.sink
    else u.burst_uncompress_address_base
  burst_uncompress_address_offset :=
    if i.source_ready && source_valid i then u.p1_burst_uncompress_address_offset i
    else u.burst_uncompress_address_offset

def reset : altera_merlin_burst_uncompressor p := ⟨false, 0#p.BYTE_CNT_W, 0#p.ADDR_W, 0#p.ADDR_W⟩

/-- The beat that goes out in a cycle. -/
def beat : Option (Source p) := if source_valid i && i.source_ready then some (u.source i) else none

end Wires

/-! ## Masks -/

section Mask
variable {w : ℕ} {m : BitVec w} {e : ℕ}

/-- Wrapping an address before or after the addition is the same. -/
theorem and_add_and (hm : m.toNat + 1 = 2 ^ e) (x y : BitVec w) : ((x &&& m) + y) &&& m = (x + y) &&& m := by
  have hmask : m.toNat = 2 ^ e - 1 := by omega
  have hdvd : 2 ^ e ∣ 2 ^ w := Nat.pow_dvd_pow 2 ((Nat.pow_le_pow_iff_right Nat.one_lt_two).1 (hm ▸ m.isLt))
  apply BitVec.eq_of_toNat_eq
  simp only [BitVec.toNat_and, BitVec.toNat_add, hmask, Nat.and_two_pow_sub_one_eq_mod, Nat.mod_mod_of_dvd _ hdvd,
    Nat.mod_add_mod]

/-- A mask of low bits stays one when its highest bit is extended. -/
theorem exists_signExtend (hm : m.toNat + 1 = 2 ^ e) (v : ℕ) : ∃ e', (m.signExtend v).toNat + 1 = 2 ^ e' := by
  cases hmsb : m.msb
  · have hmask : m.toNat = 2 ^ e - 1 := by omega
    rw [BitVec.signExtend_eq_setWidth_of_msb_false hmsb, BitVec.toNat_setWidth, hmask]
    rcases Nat.le_total e v with hev | hve
    · have hle : 2 ^ e ≤ 2 ^ v := Nat.pow_le_pow_right Nat.two_pos hev
      have hpos : 0 < 2 ^ e := Nat.two_pow_pos e
      exact ⟨e, by rw [Nat.mod_eq_of_lt (by omega)]; omega⟩
    · refine ⟨v, ?_⟩
      have hpos : 0 < 2 ^ v := Nat.two_pow_pos v
      rw [← Nat.and_two_pow_sub_one_eq_mod, Nat.and_comm, Nat.and_two_pow_sub_one_eq_mod,
        Nat.mod_eq_of_lt (by have := Nat.pow_le_pow_right Nat.two_pos hve; omega)]
      omega
  · have hle : e ≤ w := (Nat.pow_le_pow_iff_right Nat.one_lt_two).1 (hm ▸ m.isLt)
    have hge : w < e + 1 := by
      have := BitVec.msb_eq_true_iff_two_mul_ge.1 hmsb
      refine (Nat.pow_lt_pow_iff_right Nat.one_lt_two).1 ?_
      rw [Nat.pow_succ]
      omega
    obtain rfl : e = w := by omega
    have hones : m = BitVec.allOnes e := by
      apply BitVec.eq_of_toNat_eq
      rw [BitVec.toNat_allOnes]
      omega
    have hall : m.signExtend v = BitVec.allOnes v := by
      apply BitVec.eq_of_getLsbD_eq
      intro i hi
      rw [BitVec.getLsbD_signExtend, hmsb, hones]
      by_cases hie : i < e <;> simp [hi, hie]
    refine ⟨v, ?_⟩
    rw [hall, BitVec.toNat_allOnes]
    have := Nat.two_pow_pos v
    omega

end Mask

/-! ## A burst -/

namespace Sink
variable {p : Parameters} (k : Sink p)

/-- The number of words. -/
def length : ℕ := if k.is_compressed then k.byte_cnt.toNat / p.PKT_SYMBOLS else 1

/-- The address of word `j`: it wraps in the bits of the mask. -/
def address (j : ℕ) : BitVec p.ADDR_W :=
  (k.addr &&& ~~~addr_width_burstwrap k) |||
    ((k.addr + BitVec.ofNat p.ADDR_W j * decoded_burstsize k) &&& addr_width_burstwrap k)

/-- The beat of word `j`. -/
def word (j : ℕ) : Source p where
  startofpacket := k.startofpacket && j == 0
  endofpacket := k.endofpacket && j + 1 == k.length
  addr := k.address j
  burstwrap := k.burstwrap
  byte_cnt := k.byte_cnt - BitVec.ofNat p.BYTE_CNT_W (j * p.PKT_SYMBOLS)
  is_compressed := false
  burstsize := k.burstsize

def words : List (Source p) := (List.range k.length).map k.word

/-- A burst of whole words, which wraps at a power of two. -/
structure WellFormed : Prop where
  bytes : k.is_compressed = true → 0 < k.byte_cnt.toNat ∧ p.PKT_SYMBOLS ∣ k.byte_cnt.toNat
  wraps : k.is_compressed = true → ∃ e, k.burstwrap.toNat + 1 = 2 ^ e

theorem address_zero : k.address 0 = k.addr := by
  unfold address
  apply BitVec.eq_of_getLsbD_eq
  intro i hi
  simp only [BitVec.zero_mul, BitVec.add_zero, BitVec.getLsbD_or, BitVec.getLsbD_and, BitVec.getLsbD_not, hi,
    decide_true, Bool.true_and]
  cases k.addr.getLsbD i <;> cases (addr_width_burstwrap k).getLsbD i <;> rfl

variable {k}

theorem length_of_single (h : k.is_compressed = false) : k.length = 1 := by
  rw [length, h]
  rfl

theorem WellFormed.length_mul (h : k.WellFormed) (hc : k.is_compressed = true) :
    k.length * p.PKT_SYMBOLS = k.byte_cnt.toNat := by
  rw [length, hc]
  exact Nat.div_mul_cancel (h.bytes hc).2

theorem WellFormed.length_pos (h : k.WellFormed) : 0 < k.length := by
  cases hc : k.is_compressed
  · rw [length_of_single hc]
    exact Nat.one_pos
  · refine Nat.pos_of_ne_zero fun hzero => ?_
    have hmul := h.length_mul hc
    rw [hzero, Nat.zero_mul] at hmul
    exact (h.bytes hc).1.ne hmul

theorem WellFormed.symbols_pos (h : k.WellFormed) (hc : k.is_compressed = true) : 0 < p.PKT_SYMBOLS := by
  have hmul := h.length_mul hc
  exact Nat.pos_of_mul_pos_left (hmul ▸ (h.bytes hc).1)

/-- The bytes that are left before word `j`. -/
theorem WellFormed.bytes_left (h : k.WellFormed) (hc : k.is_compressed = true) {j : ℕ} (hj : j ≤ k.length) :
    (k.byte_cnt - BitVec.ofNat p.BYTE_CNT_W (j * p.PKT_SYMBOLS)).toNat = (k.length - j) * p.PKT_SYMBOLS := by
  have hle : j * p.PKT_SYMBOLS ≤ k.byte_cnt.toNat := h.length_mul hc ▸ Nat.mul_le_mul_right _ hj
  have hlt := k.byte_cnt.isLt
  rw [BitVec.toNat_sub_of_le, BitVec.toNat_ofNat, Nat.mod_eq_of_lt (by omega), ← h.length_mul hc, Nat.sub_mul]
  rw [BitVec.le_def, BitVec.toNat_ofNat, Nat.mod_eq_of_lt (by omega)]
  exact hle

end Sink

/-! ## Word by word -/

theorem num_symbols_eq {p : Parameters} (hS : p.PKT_SYMBOLS < 2 ^ 32) :
    num_symbols p = BitVec.ofNat p.BYTE_CNT_W p.PKT_SYMBOLS := by
  apply BitVec.eq_of_toNat_eq
  rw [num_symbols, BitVec.toNat_setWidth, BitVec.toNat_ofNat, BitVec.toNat_ofNat, Nat.mod_eq_of_lt hS]

/-- Word `j` of `k` is the next. -/
structure At {p : Parameters} (k : Sink p) (j : ℕ) (u : altera_merlin_burst_uncompressor p) : Prop where
  room : j < k.length
  busy : u.burst_uncompress_busy = decide (0 < j)
  counter : 0 < j → u.burst_uncompress_byte_counter = k.byte_cnt - BitVec.ofNat p.BYTE_CNT_W (j * p.PKT_SYMBOLS)
  base : 0 < j → u.burst_uncompress_address_base = k.addr &&& ~~~addr_width_burstwrap k
  offset : 0 < j → u.burst_uncompress_address_offset =
    (k.addr + BitVec.ofNat p.ADDR_W j * decoded_burstsize k) &&& addr_width_burstwrap k

section Word
variable {p : Parameters} {k : Sink p} {j : ℕ} {u : altera_merlin_burst_uncompressor p} {i : Inputs p}

theorem at_zero (hk : k.WellFormed) (hbusy : u.burst_uncompress_busy = false) : At k 0 u :=
  ⟨hk.length_pos, hbusy, by rintro ⟨⟩, by rintro ⟨⟩, by rintro ⟨⟩⟩

/-- The byte count on the way out. -/
theorem At.byte_cnt_eq (h : At k j u) :
    (if u.burst_uncompress_busy then u.burst_uncompress_byte_counter else k.byte_cnt) =
      k.byte_cnt - BitVec.ofNat p.BYTE_CNT_W (j * p.PKT_SYMBOLS) := by
  rw [h.busy]
  rcases Nat.eq_zero_or_pos j with rfl | hj
  · simp
  · rw [decide_eq_true hj, if_pos rfl, h.counter hj]

variable (hk : k.WellFormed) (hS : p.PKT_SYMBOLS < 2 ^ 32) (hi : i.sink = k) (hv : i.sink_valid = true)
include hk hS hi hv

theorem At.last_packet_beat_eq (h : At k j u) : u.last_packet_beat i = decide (j + 1 = k.length) := by
  have hroom := h.room
  cases hc : k.is_compressed
  · have hlength := Sink.length_of_single hc
    rw [last_packet_beat, hi, hc, hlength]
    exact (decide_eq_true (by omega)).symm
  · have hcount : u.last_packet_beat i = decide
        (k.byte_cnt - BitVec.ofNat p.BYTE_CNT_W (j * p.PKT_SYMBOLS) = num_symbols p) := by
      rw [← h.byte_cnt_eq, last_packet_beat, hi, hc, hv]
      cases u.burst_uncompress_busy <;> rfl
    rw [hcount, decide_eq_decide, ← BitVec.toNat_inj, hk.bytes_left hc hroom.le]
    have hone : 1 * p.PKT_SYMBOLS ≤ k.length * p.PKT_SYMBOLS := Nat.mul_le_mul_right _ hk.length_pos
    have hlt : p.PKT_SYMBOLS < 2 ^ p.BYTE_CNT_W := by
      have := k.byte_cnt.isLt
      have := hk.length_mul hc
      omega
    rw [num_symbols_eq hS, BitVec.toNat_ofNat, Nat.mod_eq_of_lt hlt, Nat.mul_eq_right (hk.symbols_pos hc).ne']
    omega

/-- The beat that is shown. -/
theorem At.source_eq (h : At k j u) : u.source i = k.word j := by
  have hfirst : u.first_packet_beat i = decide (j = 0) := by
    rw [first_packet_beat, hv, h.busy]
    rcases Nat.eq_zero_or_pos j with rfl | hj
    · rfl
    · simp [hj, hj.ne']
  unfold source Sink.word
  rw [h.last_packet_beat_eq hk hS hi hv, h.busy, hi]
  congr 1
  · rcases Nat.eq_zero_or_pos j with rfl | hj
    · rfl
    · simp [hj, hj.ne']
  · rw [source_addr, hfirst, hi]
    rcases Nat.eq_zero_or_pos j with rfl | hj
    · exact k.address_zero.symm
    · rw [decide_eq_false hj.ne', h.base hj, h.offset hj]
      rfl
  · rw [← h.byte_cnt_eq, source_byte_cnt, first_packet_beat, hv, hi]
    cases u.burst_uncompress_busy <;> rfl

/-- On to the next word. -/
theorem At.step_next (h : At k j u) (hr : i.source_ready = true) (hj : j + 1 < k.length) : At k (j + 1) (u.step i) := by
  have hlast : u.last_packet_beat i = false := by
    rw [h.last_packet_beat_eq hk hS hi hv]
    exact decide_eq_false hj.ne
  have hc : k.is_compressed = true := by
    refine Bool.eq_true_of_not_eq_false fun hc => ?_
    rw [Sink.length_of_single hc] at hj
    omega
  obtain ⟨e, he⟩ := hk.wraps hc
  obtain ⟨e', he'⟩ := exists_signExtend he p.ADDR_W
  have hcount : k.byte_cnt - BitVec.ofNat p.BYTE_CNT_W (j * p.PKT_SYMBOLS) - num_symbols p =
      k.byte_cnt - BitVec.ofNat p.BYTE_CNT_W ((j + 1) * p.PKT_SYMBOLS) := by
    rw [num_symbols_eq hS, sub_sub, Nat.succ_mul, BitVec.ofNat_add]
  refine ⟨hj, ?_, fun _ => ?_, fun _ => ?_, fun _ => ?_⟩
  · simp [step, source_valid, hv, hr, hlast]
  · simp only [step, source_valid, hv, hr, hlast, h.busy, hi]
    rcases Nat.eq_zero_or_pos j with rfl | hj0
    · simpa using hcount
    · have hne : k.byte_cnt - BitVec.ofNat p.BYTE_CNT_W (j * p.PKT_SYMBOLS) ≠ 0#p.BYTE_CNT_W := fun hzero => by
        have hleft := hk.bytes_left hc h.room.le
        rw [hzero, BitVec.toNat_zero] at hleft
        exact absurd hleft.symm (Nat.mul_ne_zero (by omega) (hk.symbols_pos hc).ne')
      simp [hj0, h.counter hj0, hne, hcount]
  · simp only [step, first_packet_beat, hv, hr, h.busy, hi]
    rcases Nat.eq_zero_or_pos j with rfl | hj0
    · rfl
    · simp [hj0, h.base hj0]
  · simp only [step, source_valid, p1_burst_uncompress_address_offset, first_packet_beat, hv, hr, h.busy, hi]
    rcases Nat.eq_zero_or_pos j with rfl | hj0
    · simp
    · have hnext : k.addr + BitVec.ofNat p.ADDR_W j * decoded_burstsize k + decoded_burstsize k =
          k.addr + BitVec.ofNat p.ADDR_W (j + 1) * decoded_burstsize k := by
        rw [BitVec.ofNat_add, add_mul, add_assoc]
        simp
      have hwrap := and_add_and he' (k.addr + BitVec.ofNat p.ADDR_W j * decoded_burstsize k) (decoded_burstsize k)
      rw [hnext] at hwrap
      simp only [hj0, decide_true, h.offset hj0]
      exact hwrap

/-- The last word is the end of the burst. -/
theorem At.step_last (h : At k j u) (hr : i.source_ready = true) (hj : j + 1 = k.length) :
    (u.step i).burst_uncompress_busy = false := by
  have hlast : u.last_packet_beat i = true := by
    rw [h.last_packet_beat_eq hk hS hi hv]
    exact decide_eq_true hj
  simp only [step, source_valid, hv, hr, hlast]
  rfl

end Word

/-! ## Burst by burst -/

section Run
variable {p : Parameters}

/-- The ports when burst `n` of `items` is at the front: it is there or not, and the network takes a beat or not. -/
def ports (items : ℕ → Sink p) (env : Bool × Bool) (n : ℕ) : Inputs p := ⟨items n, env.1, env.2⟩

/-- A cycle in front of a queue of bursts: `sink_ready` takes the one at the front away. -/
def feed (items : ℕ → Sink p) (env : Bool × Bool) (s : altera_merlin_burst_uncompressor p × ℕ) :
    altera_merlin_burst_uncompressor p × ℕ :=
  (s.1.step (ports items env s.2), if s.1.sink_ready (ports items env s.2) then s.2 + 1 else s.2)

variable {items : ℕ → Sink p} (hitems : ∀ n, (items n).WellFormed) (hS : p.PKT_SYMBOLS < 2 ^ 32)

/-- Nothing happens without a beat. -/
theorem At.stall {k : Sink p} {j : ℕ} {u : altera_merlin_burst_uncompressor p} {i : Inputs p} (h : At k j u)
    (hno : (i.sink_valid && i.source_ready) = false) :
    At k j (u.step i) ∧ u.sink_ready i = false ∧ u.beat i = none := by
  have hstep : u.step i = u := by
    rcases u with ⟨busy, counter, base, offset⟩
    have hno' : (i.source_ready && i.sink_valid) = false := by rw [Bool.and_comm]; exact hno
    have hfirst : (i.sink_valid && !busy && i.source_ready) = false := by
      cases busy <;> simp_all
    simp only [step, source_valid, first_packet_beat, hno, hno', hfirst]
    rfl
  rw [hstep]
  refine ⟨h, ?_, ?_⟩
  · rw [sink_ready, source_valid, hno]
    rfl
  · rw [beat, source_valid, hno]
    rfl

include hitems hS

/-- One cycle: nothing, or the next word of the burst at the front. -/
theorem feed_cases {n j : ℕ} {u : altera_merlin_burst_uncompressor p} (h : At (items n) j u) (env : Bool × Bool) :
    (u.beat (ports items env n) = none ∧ (env.1 && env.2) = false ∧ (feed items env (u, n)).2 = n ∧
        At (items n) j (feed items env (u, n)).1) ∨
      (u.beat (ports items env n) = some ((items n).word j) ∧ (env.1 && env.2) = true ∧
        ((j + 1 < (items n).length ∧ (feed items env (u, n)).2 = n ∧
            At (items n) (j + 1) (feed items env (u, n)).1) ∨
          (j + 1 = (items n).length ∧ (feed items env (u, n)).2 = n + 1 ∧
            At (items (n + 1)) 0 (feed items env (u, n)).1))) := by
  cases hgo : env.1 && env.2
  · obtain ⟨hat, hready, hbeat⟩ := h.stall (i := ports items env n) hgo
    refine .inl ⟨hbeat, rfl, ?_, hat⟩
    rw [feed, hready]
    rfl
  · obtain ⟨hv, hr⟩ := Bool.and_eq_true_iff.1 hgo
    have hbeat : u.beat (ports items env n) = some ((items n).word j) := by
      rw [beat, source_valid, ports, hgo, if_pos rfl, h.source_eq (hitems n) hS rfl hv]
    have hready : u.sink_ready (ports items env n) = decide (j + 1 = (items n).length) := by
      rw [sink_ready, h.last_packet_beat_eq (hitems n) hS rfl hv, source_valid, ports, hgo]
      rfl
    refine .inr ⟨hbeat, rfl, ?_⟩
    rcases Nat.lt_or_ge (j + 1) (items n).length with hj | hj
    · refine .inl ⟨hj, ?_, h.step_next (hitems n) hS rfl hv hr hj⟩
      rw [feed, hready, decide_eq_false hj.ne]
      rfl
    · have hlast : j + 1 = (items n).length := Nat.le_antisymm h.room hj
      refine .inr ⟨hlast, ?_, at_zero (hitems (n + 1)) (h.step_last (hitems n) hS rfl hv hr hlast)⟩
      rw [feed, hready, decide_eq_true hlast]
      rfl

section Log
variable {env : ℕ → Bool × Bool} {st : ℕ → altera_merlin_burst_uncompressor p × ℕ} (hst : IsRun (feed items) env st)
  (h0 : (st 0).1.burst_uncompress_busy = false) (hn0 : (st 0).2 = 0)
include hst h0 hn0

/-- What has gone out is all of the bursts that are gone, and the first words of the one at the front. -/
theorem log_beats (t : ℕ) :
    ∃ j, At (items (st t).2) j (st t).1 ∧
      Queue.log (fun s => (st s).1.beat (ports items (env s) (st s).2)) t =
        (List.range (st t).2).flatMap (fun n => (items n).words) ++ (items (st t).2).words.take j := by
  induction t with
  | zero =>
    refine ⟨0, at_zero (hitems _) h0, ?_⟩
    rw [hn0]
    rfl
  | succ t ih =>
    obtain ⟨j, hat, hlog⟩ := ih
    have htake : (items (st t).2).words.take (j + 1) = (items (st t).2).words.take j ++ [(items (st t).2).word j] := by
      have hroom := hat.room
      rw [List.take_add_one]
      simp [Sink.words, hroom]
    rw [Queue.log_succ, hlog, hst t]
    rcases feed_cases hitems hS hat (env t) with
      ⟨hbeat, -, hn, hat'⟩ | ⟨hbeat, -, ⟨-, hn, hat'⟩ | ⟨hj, hn, hat'⟩⟩
    · refine ⟨j, by rw [hn]; exact hat', ?_⟩
      rw [hbeat, hn]
      exact List.append_nil _
    · refine ⟨j + 1, by rw [hn]; exact hat', ?_⟩
      rw [hbeat, hn, htake, List.append_assoc]
      rfl
    · refine ⟨0, by rw [hn]; exact hat', ?_⟩
      have hall : (items (st t).2).words.take j ++ [(items (st t).2).word j] = (items (st t).2).words := by
        rw [← htake]
        refine List.take_of_length_le ?_
        simp [Sink.words, hj]
      rw [hbeat, hn, List.range_succ, List.flatMap_append, List.append_assoc]
      simp [hall]

omit h0 hn0 in
/-- The next word goes out when there is a beat. -/
theorem exists_word {m j : ℕ} (hat : At (items (st m).2) j (st m).1) (hgo : ∃ t ≥ m, ((env t).1 && (env t).2) = true) :
    ∃ t > m, (j + 1 < (items (st m).2).length ∧ (st t).2 = (st m).2 ∧ At (items (st t).2) (j + 1) (st t).1) ∨
      (st t).2 = (st m).2 + 1 := by
  obtain ⟨t, hmt, ht⟩ := hgo
  -- nothing changes until the cycle of the beat
  obtain ⟨u, hu, -, ⟨hn, hat', -⟩, hbeat⟩ := leads_to (P := fun s => ((env s).1 && (env s).2) = true)
    (Q := fun s => (st s).2 = (st m).2 ∧ At (items (st s).2) j (st s).1 ∧ s ≤ t) (f := fun s => t - s) (n := m)
    ⟨rfl, hat, hmt⟩ fun s hs hQ hno => by
      obtain ⟨hn, hats, hst'⟩ := hQ
      have hne : s ≠ t := by
        rintro rfl
        exact hno ht
      rw [hst s]
      rcases feed_cases hitems hS hats (env s) with ⟨-, -, hn', hat'⟩ | ⟨-, hgo, -⟩
      · exact ⟨⟨hn'.trans hn, by rw [hn']; exact hat', by omega⟩, by omega⟩
      · exact absurd hgo hno
  refine ⟨u + 1, Nat.lt_succ_of_le hu, ?_⟩
  rw [hst u]
  rcases feed_cases hitems hS hat' (env u) with ⟨-, hno, -⟩ | ⟨-, -, ⟨hj, hn', hnext⟩ | ⟨-, hn', -⟩⟩
  · rw [hbeat] at hno
    cases hno
  · exact .inl ⟨hn ▸ hj, hn'.trans hn, by rw [hn']; exact hnext⟩
  · exact .inr (hn'.trans (by rw [hn]))

/-- A network that takes beats again and again takes every burst. -/
theorem exists_burst (hfair : ∀ m, ∃ t ≥ m, ((env t).1 && (env t).2) = true) (n : ℕ) : ∃ t, (st t).2 = n := by
  induction n with
  | zero => exact ⟨0, hn0⟩
  | succ n ih =>
    obtain ⟨m, hm⟩ := ih
    obtain ⟨j, hat, -⟩ := log_beats hitems hS hst h0 hn0 m
    -- by the number of words that are left
    generalize hr : (items n).length - j = r
    induction r generalizing m j with
    | zero =>
      have := hat.room
      rw [hm] at this
      omega
    | succ r ihr =>
      obtain ⟨t, -, ⟨hj, hsame, hnext⟩ | hdone⟩ := exists_word hitems hS hst hat (hfair m)
      · exact ihr t (hsame.trans hm) (j + 1) hnext (by omega)
      · exact ⟨t, by rw [hdone, hm]⟩

end Log

end Run

/-- For any widths and any stalls: the beats that have gone out are the words of the bursts, one after the other, and
a network that takes beats again and again gets them all. -/
theorem bursts_expanded (p : Parameters) (hS : p.PKT_SYMBOLS < 2 ^ 32) (items : ℕ → Sink p)
    (hitems : ∀ n, (items n).WellFormed) (env : ℕ → Bool × Bool) :
    let st := run (feed items) (reset, 0) env
    (∀ t, ∃ j < (items (st t).2).length,
      Queue.log (fun s => (st s).1.beat (ports items (env s) (st s).2)) t =
        (List.range (st t).2).flatMap (fun n => (items n).words) ++ (items (st t).2).words.take j) ∧
      ((∀ m, ∃ t ≥ m, ((env t).1 && (env t).2) = true) → ∀ n, ∃ t, (st t).2 = n) := by
  intro st
  have hst : IsRun (feed items) env st := isRun_run _ _
  refine ⟨fun t => ?_, exists_burst hitems hS hst rfl rfl⟩
  obtain ⟨j, hat, hlog⟩ := log_beats hitems hS hst rfl rfl t
  exact ⟨j, hat.room, hlog⟩

/-- Bursts of three words, and a network that takes a beat in every other cycle. -/
theorem bursts_expanded_three :
    let p : Parameters := ⟨16, 3, 4, 4, by decide, by decide⟩
    let items (_ : ℕ) : Sink p := ⟨true, true, 16#16, 7#3, 12#4, true, 2#3⟩
    let env (t : ℕ) := (true, t % 2 == 0)
    let st := run (feed items) (reset, 0) env
    (∀ t, ∃ j < (items (st t).2).length,
      Queue.log (fun s => (st s).1.beat (ports items (env s) (st s).2)) t =
        (List.range (st t).2).flatMap (fun n => (items n).words) ++ (items (st t).2).words.take j) ∧
      ((∀ m, ∃ t ≥ m, ((env t).1 && (env t).2) = true) → ∀ n, ∃ t, (st t).2 = n) :=
  bursts_expanded ⟨16, 3, 4, 4, by decide, by decide⟩ (by decide) (fun _ => ⟨true, true, 16#16, 7#3, 12#4, true, 2#3⟩)
    (fun _ => ⟨fun _ => ⟨by decide, by decide⟩, fun _ => ⟨3, rfl⟩⟩) fun t => (true, t % 2 == 0)

end altera_merlin_burst_uncompressor

end Aes128
