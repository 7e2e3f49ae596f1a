import Mathlib
import Aes128.Arbitrator
import Aes128.Fifo
/-!
# system_cmd_xbar_mux.sv

Where the instruction master and the data master meet in front of a slave that both
use. The arbitrator gives the bus to one of them, and it keeps it to the end of its
packet, or longer while it holds the lock.

`Bus` is who has the bus, and `Holds` is how the registers show it. So packets pass
whole, and a master with a beat to send waits for one packet of the other at most.
-/

open Clocked RoundRobin FirstBit

namespace Aes128

structure system_cmd_xbar_mux where
  locked : BitVec 2
  packet_in_progress : Bool
  share_count : BitVec 1
  share_count_zero_flag : Bool
  saved_grant : BitVec 2
  prev_request : BitVec 2
  arb : altera_merlin_arbitrator 2

namespace system_cmd_xbar_mux

/-- What comes in at `sink0` and `sink1`. -/
structure Sink where
  valid : Bool
  data : BitVec 88
  channel : BitVec 4
  startofpacket : Bool
  endofpacket : Bool

structure Inputs where
  sink : Fin 2 → Sink
  src_ready : Bool

def PKT_TRANS_LOCK : ℕ := 57
def PIPELINE_ARB : ℕ := 1

def Sink.lock (k : Sink) : Bool := k.data.getLsbD PKT_TRANS_LOCK

def Sink.payload (k : Sink) : BitVec 94 :=
  k.channel ++ k.data ++ BitVec.ofBool k.startofpacket ++ BitVec.ofBool k.endofpacket

/-- A bit for each sink. -/
def bits (f : Fin 2 → Bool) : BitVec 2 := BitVec.ofBool (f 1) ++ BitVec.ofBool (f 0)

section Wires
variable (i : Inputs) (m : system_cmd_xbar_mux)

def valid : BitVec 2 := bits fun k => (i.sink k).valid

def eop : BitVec 2 := bits fun k => (i.sink k).endofpacket

def lock : BitVec 2 := bits fun k => (i.sink k).lock

def grant : BitVec 2 := m.saved_grant

def src_valid : Bool := m.grant &&& valid i ≠ 0#2

def src_payload : BitVec 94 :=
  (i.sink 0).payload &&& BitVec.fill 94 (m.grant.getLsbD 0) |||
    (i.sink 1).payload &&& BitVec.fill 94 (m.grant.getLsbD 1)

def src_endofpacket : Bool := (m.src_payload i).getLsbD 0

def sink_ready (k : Fin 2) : Bool := i.src_ready && m.grant.getLsbD k

def last_cycle : Bool := m.src_valid i && i.src_ready && m.src_endofpacket i && !(lock i &&& m.grant ≠ 0#2 : Bool)

def update_grant : Bool :=
  (!m.packet_in_progress && !m.src_valid i) || (m.last_cycle i && m.share_count_zero_flag)

def request : BitVec 2 :=
  if PIPELINE_ARB = 1 then valid i ||| m.locked else m.prev_request ||| valid i ||| m.locked

/-- The parameters of `arb`. -/
def arb_parameters : altera_merlin_arbitrator.Parameters := ⟨.round_robin, true⟩

def arb_inputs : altera_merlin_arbitrator.Inputs 2 where
  request := m.request i
  increment_top_priority := m.update_grant i
  save_top_priority := m.src_valid i

def next_grant : BitVec 2 := m.arb.grant arb_parameters (m.arb_inputs i)

def share (_ : Fin 2) : BitVec 1 := 0#1

def next_grant_share : BitVec 1 :=
  share 0 &&& BitVec.fill 1 ((m.next_grant i).getLsbD 0) ||| share 1 &&& BitVec.fill 1 ((m.next_grant i).getLsbD 1)

def p1_share_count : BitVec 1 := if m.share_count_zero_flag then 0#1 else m.share_count - 1#1

def step : system_cmd_xbar_mux where
  locked := m.next_grant i &&& lock i
  packet_in_progress := if m.last_cycle i then false else if m.src_valid i then true else m.packet_in_progress
  share_count :=
    if m.update_grant i then m.next_grant_share i
    else if m.last_cycle i then m.p1_share_count
    else m.share_count
  share_count_zero_flag :=
    if m.update_grant i then m.next_grant_share i = 0#1
    else if m.last_cycle i then m.p1_share_count = 0#1
    else m.share_count_zero_flag
  saved_grant := if m.update_grant i then m.next_grant i else m.saved_grant
  prev_request := m.request i &&& ~~~(valid i &&& eop i)
  arb := m.arb.step arb_parameters (m.arb_inputs i)

def reset : system_cmd_xbar_mux := ⟨0#2, false, 0#1, true, 0#2, 0#2, .reset⟩

/-- What sink `k` gets rid of in a cycle. -/
def taken (k : Fin 2) : Option (BitVec 94) :=
  if (i.sink k).valid && m.sink_ready i k then some (i.sink k).payload else none

/-- What the slave is given in a cycle. -/
def sent : Option (BitVec 94) := if m.src_valid i && i.src_ready then some (m.src_payload i) else none

end Wires

/-! ## Who has the bus -/

/-- The beat with which the bus is given up. -/
def Sink.last (k : Sink) : Bool := k.endofpacket && !k.lock

/-- Nobody has it and it is the turn of `turn`, or `k` has it and is in a packet or not. -/
inductive Bus
  | free (turn : Fin 2)
  | held (k : Fin 2) (busy : Bool)

namespace Bus

def turn : Bus → Fin 2
  | free t => t
  | held k _ => k + 1

def grant : Bus → BitVec 2
  | free _ => 0#2
  | held k _ => BitVec.twoPow 2 k

def busy : Bus → Bool
  | free _ => false
  | held _ b => b

/-- Whether it is given to the next one at the end of the cycle. -/
def update (i : Inputs) : Bus → Bool
  | free _ => true
  | held k b => if (i.sink k).valid then i.src_ready && (i.sink k).last else !b

/-- A cycle, with the requests `R`. -/
inductive Step (i : Inputs) (R : Set (Fin 2)) : Bus → Bus → Prop
  | keep {k : Fin 2} {b : Bool} : (held k b).update i = false → Step i R (held k b) (held k true)
  | give {b : Bus} {j : Fin 2} : b.update i = true → Picks b.turn R j → Step i R b (held j false)
  | rest {b : Bus} : b.update i = true → R = ∅ → Step i R b (free b.turn)

/-- Of two, it is the other's turn. -/
theorem turn_held : ∀ (k j : Fin 2) (c : Bool), (held k c).turn = j ↔ k ≠ j := by decide

end Bus

structure Holds (b : Bus) (m : system_cmd_xbar_mux) : Prop where
  grant : m.saved_grant = b.grant
  turn : m.arb.top_priority_reg = BitVec.twoPow 2 b.turn
  busy : m.packet_in_progress = b.busy
  share : m.share_count_zero_flag = true

/-- The registers tell. -/
theorem Holds.unique {b b' : Bus} {m : system_cmd_xbar_mux} (h : Holds b m) (h' : Holds b' m) : b = b' := by
  have hg := h.grant.symm.trans h'.grant
  have ht := twoPow_injective (h.turn.symm.trans h'.turn)
  have hb := h.busy.symm.trans h'.busy
  have hzero : ∀ k : Fin 2, 0#2 ≠ BitVec.twoPow 2 k := by decide
  rcases b with t | ⟨k, c⟩ <;> rcases b' with t' | ⟨k', c'⟩ <;> simp only [Bus.grant, Bus.turn, Bus.busy] at hg ht hb
  · rw [ht]
  · exact absurd hg (hzero k')
  · exact absurd hg.symm (hzero k)
  · rw [twoPow_injective hg, hb]

theorem getLsbD_bits (f : Fin 2 → Bool) (k : Fin 2) : (bits f).getLsbD k = f k := by
  have h : ∀ x y : Bool, (BitVec.ofBool y ++ BitVec.ofBool x).getLsbD 0 = x ∧
      (BitVec.ofBool y ++ BitVec.ofBool x).getLsbD 1 = y := by decide
  fin_cases k
  · exact (h (f 0) (f 1)).1
  · exact (h (f 0) (f 1)).2

theorem bits_and_twoPow (f : Fin 2 → Bool) (k : Fin 2) : (BitVec.twoPow 2 k &&& bits f ≠ 0#2 : Bool) = f k := by
  have h : ∀ (x : BitVec 2) (k : Fin 2), decide (BitVec.twoPow 2 k &&& x ≠ 0#2) = x.getLsbD k := by decide
  rw [h, getLsbD_bits]

theorem Sink.getLsbD_payload (k : Sink) : k.payload.getLsbD 0 = k.endofpacket := by
  rw [Sink.payload, BitVec.getLsbD_append, if_pos (by decide)]
  cases k.endofpacket <;> rfl

theorem next_grant_share_eq (i : Inputs) (m : system_cmd_xbar_mux) : m.next_grant_share i = 0#1 := by
  simp [next_grant_share, share]

section Cycle
variable {b : Bus} {m : system_cmd_xbar_mux} {k : Fin 2} {c : Bool} (i : Inputs)

theorem Holds.sink_ready_eq (h : Holds b m) (k : Fin 2) :
    m.sink_ready i k = true ↔ i.src_ready = true ∧ ∃ c, b = .held k c := by
  rw [sink_ready, Bool.and_eq_true, system_cmd_xbar_mux.grant, h.grant]
  refine and_congr_right fun _ => ?_
  rcases b with t | ⟨j, c⟩
  · simp [Bus.grant]
  · rw [Bus.grant, getLsbD_twoPow_fin]
    simp

theorem Holds.src_valid_free {t : Fin 2} (h : Holds (.free t) m) : m.src_valid i = false := by
  simp [src_valid, system_cmd_xbar_mux.grant, h.grant, Bus.grant]

section Held
variable (h : Holds (.held k c) m)
include h

theorem Holds.src_valid_held : m.src_valid i = (i.sink k).valid := by
  rw [src_valid, system_cmd_xbar_mux.grant, h.grant, Bus.grant, valid, bits_and_twoPow]

theorem Holds.src_payload_held : m.src_payload i = (i.sink k).payload := by
  rw [src_payload, system_cmd_xbar_mux.grant, h.grant, Bus.grant]
  fin_cases k <;> simp [BitVec.fill_eq, -BitVec.reduceAllOnes]

theorem Holds.last_cycle_held : m.last_cycle i = ((i.sink k).valid && i.src_ready && (i.sink k).last) := by
  rw [last_cycle, h.src_valid_held, src_endofpacket, h.src_payload_held, Sink.getLsbD_payload, BitVec.and_comm,
    system_cmd_xbar_mux.grant, h.grant, Bus.grant, lock, bits_and_twoPow, Bool.and_assoc, Sink.last]

end Held

theorem Holds.last_cycle_free {t : Fin 2} (h : Holds (.free t) m) : m.last_cycle i = false := by
  simp [last_cycle, h.src_valid_free]

theorem Holds.update_grant_eq (h : Holds b m) : m.update_grant i = b.update i := by
  rw [update_grant, h.busy, h.share]
  rcases b with t | ⟨k, c⟩
  · rw [h.src_valid_free]
    rfl
  · rw [h.src_valid_held, h.last_cycle_held, Bus.update, Bus.busy]
    cases (i.sink k).valid <;> simp

/-- The packet is over, or there is none, when the bus is given on. -/
theorem Holds.packet_in_progress_step (h : Holds b m) : (m.step i).packet_in_progress = !b.update i := by
  have hupdate := h.update_grant_eq i
  rw [← hupdate, system_cmd_xbar_mux.step, update_grant, h.share]
  cases m.last_cycle i <;> cases m.src_valid i <;> cases m.packet_in_progress <;> rfl

theorem Holds.share_step (h : Holds b m) : (m.step i).share_count_zero_flag = true := by
  simp [system_cmd_xbar_mux.step, next_grant_share_eq, p1_share_count, h.share]

/-- One clock. -/
theorem Holds.step (h : Holds b m) : ∃ b', Holds b' (m.step i) ∧ Bus.Step i (ones (m.request i)) b b' := by
  have hgrant : (m.step i).saved_grant = if b.update i then m.next_grant i else m.saved_grant := by
    rw [← h.update_grant_eq]
    rfl
  have hbusy := h.packet_in_progress_step i
  have hcases := altera_merlin_arbitrator.step_cases h.turn true (m.arb_inputs i)
  have hinc : (m.arb_inputs i).increment_top_priority = b.update i := h.update_grant_eq i
  rw [hinc] at hcases
  cases hu : b.update i
  · rcases b with t | ⟨k, c⟩
    · cases hu
    · refine ⟨.held k true, ⟨?_, ?_, ?_, h.share_step i⟩, .keep hu⟩
      · rw [hgrant, hu]
        exact h.grant
      · rcases hcases with ⟨-, j, -, -, hreg⟩ | ⟨-, -, hreg⟩
        · rw [hu] at hreg
          exact hreg
        · exact hreg
      · rw [hbusy, hu]
        rfl
  · rcases hcases with ⟨-, j, hj, hg, hreg⟩ | ⟨hr, hg, hreg⟩
    · refine ⟨.held j false, ⟨?_, ?_, ?_, h.share_step i⟩, .give hu hj⟩
      · rw [hgrant, hu]
        exact hg
      · rw [hu] at hreg
        exact hreg
      · rw [hbusy, hu]
        rfl
    · refine ⟨.free b.turn, ⟨?_, hreg, ?_, h.share_step i⟩, .rest hu ?_⟩
      · rw [hgrant, hu]
        exact hg
      · rw [hbusy, hu]
        rfl
      · exact (ones_eq_empty _).2 hr

end Cycle

section Inversion
variable {i : Inputs} {R : Set (Fin 2)} {b b' : Bus}

theorem Bus.Step.of_keep (h : b.Step i R b') (hu : b.update i = false) :
    ∃ k c, b = held k c ∧ b' = held k true := by
  cases h with
  | keep => exact ⟨_, _, rfl, rfl⟩
  | give hu' => rw [hu] at hu'; cases hu'
  | rest hu' => rw [hu] at hu'; cases hu'

theorem Bus.Step.into_busy (h : b.Step i R (.held k true)) :
    ∃ c, b = held k c ∧ b.update i = false := by
  cases h with
  | keep hu => exact ⟨_, rfl, hu⟩

theorem Bus.Step.of_update (h : b.Step i R b') (hu : b.update i = true) (hR : R.Nonempty) :
    ∃ j, Picks b.turn R j ∧ b' = held j false := by
  cases h with
  | keep hu' => rw [hu] at hu'; cases hu'
  | give _ hj => exact ⟨_, hj, rfl⟩
  | rest _ hempty => exact absurd hempty hR.ne_empty

end Inversion

/-! ## Whole packets -/

/-- The beat that passes in a cycle, and whose it is. -/
def Bus.beat (i : Inputs) : Bus → Option (Fin 2 × Sink)
  | free _ => none
  | held k _ => if (i.sink k).valid && i.src_ready then some (k, i.sink k) else none

theorem Bus.beat_eq_some {b : Bus} {i : Inputs} {x : Fin 2 × Sink} (h : b.beat i = some x) :
    (∃ c, b = held x.1 c) ∧ i.sink x.1 = x.2 ∧ x.2.valid = true ∧ i.src_ready = true := by
  rcases b with t | ⟨k, c⟩
  · cases h
  · rw [Bus.beat] at h
    split at h
    next hgo =>
      cases h
      rw [Bool.and_eq_true] at hgo
      exact ⟨⟨c, rfl⟩, rfl, hgo⟩
    next => cases h

/-- Without its last beat. -/
theorem Bus.update_of_beat {i : Inputs} {k : Fin 2} {c : Bool} {x : Fin 2 × Sink}
    (h : (held k c).beat i = some x) (hx : x.2.last = false) : (held k c).update i = false := by
  obtain ⟨⟨-, ⟨⟩⟩, hs, hv, hr⟩ := beat_eq_some h
  rw [update, hs, hv, hx, Bool.and_false]
  rfl

/-- In the middle of a packet. -/
theorem Bus.update_of_busy {i : Inputs} {k : Fin 2} (h : (held k true).beat i = none) :
    (held k true).update i = false := by
  simp only [Bus.beat, ite_eq_right_iff, reduceCtorEq, imp_false, Bool.not_eq_true] at h
  rw [update]
  split
  next hv =>
    rw [hv, Bool.true_and] at h
    rw [h]
    rfl
  next => rfl

theorem Holds.sent_eq {b : Bus} {m : system_cmd_xbar_mux} (h : Holds b m) (i : Inputs) :
    m.sent i = (b.beat i).map fun x => x.2.payload := by
  rcases b with t | ⟨k, c⟩
  · rw [sent, h.src_valid_free]
    rfl
  · rw [sent, h.src_valid_held, h.src_payload_held, Bus.beat]
    split <;> rfl

theorem Holds.taken_eq {b : Bus} {m : system_cmd_xbar_mux} (h : Holds b m) (i : Inputs) (k : Fin 2) :
    m.taken i k = ((b.beat i).filter fun x => x.1 = k).map fun x => x.2.payload := by
  have hready := h.sink_ready_eq i k
  rcases b with t | ⟨j, c⟩
  · have hno : m.sink_ready i k = false := by
      rw [← Bool.not_eq_true, hready]
      rintro ⟨-, c, ⟨⟩⟩
    rw [taken, hno, Bool.and_false]
    rfl
  · by_cases hjk : j = k
    · subst hjk
      have hyes : m.sink_ready i j = i.src_ready := by
        rw [Bool.eq_iff_iff, hready]
        exact and_iff_left ⟨c, rfl⟩
      rw [taken, hyes, Bus.beat]
      split <;> simp
    · have hno : m.sink_ready i k = false := by
        rw [← Bool.not_eq_true, hready]
        rintro ⟨-, c', ⟨⟩⟩
        exact hjk rfl
      rw [taken, hno, Bool.and_false, if_neg Bool.false_ne_true, Bus.beat]
      split <;> simp [hjk]

section Run
variable {ins : ℕ → Inputs} {m : ℕ → system_cmd_xbar_mux} (hm : IsRun step ins m)

include hm in
/-- Who has the bus in each cycle. -/
theorem exists_bus {b₀ : Bus} (h0 : Holds b₀ (m 0)) :
    ∃ b : ℕ → Bus, b 0 = b₀ ∧
      ∀ t, Holds (b t) (m t) ∧ Bus.Step (ins t) (ones ((m t).request (ins t))) (b t) (b (t + 1)) := by
  have hex (t : ℕ) : ∃ b, Holds b (m t) := by
    induction t with
    | zero => exact ⟨b₀, h0⟩
    | succ t ih =>
      obtain ⟨b, hb⟩ := ih
      obtain ⟨b', hb', -⟩ := hb.step (ins t)
      exact ⟨b', hm t ▸ hb'⟩
  choose b hb using hex
  refine ⟨b, (hb 0).unique h0, fun t => ⟨hb t, ?_⟩⟩
  obtain ⟨b', hb', hstep⟩ := (hb t).step (ins t)
  rwa [(hb (t + 1)).unique (hm t ▸ hb')]

/-- A packet that has been begun keeps the bus. -/
theorem isChain_beats {b : ℕ → Bus} {R : ℕ → Set (Fin 2)}
    (hb : ∀ t, Bus.Step (ins t) (R t) (b t) (b (t + 1))) (n : ℕ) :
    (Queue.log (fun t => (b t).beat (ins t)) n).IsChain (fun x y => x.2.last = false → y.1 = x.1) ∧
      ∀ x ∈ (Queue.log (fun t => (b t).beat (ins t)) n).getLast?, x.2.last = false → b n = .held x.1 true := by
  induction n with
  | zero => exact ⟨.nil, by rintro x ⟨⟩⟩
  | succ n ih =>
    obtain ⟨hchain, hlast⟩ := ih
    have hstep := hb n
    rw [Queue.log_succ]
    cases hbeat : (b n).beat (ins n) with
    | none =>
      rw [Option.toList_none, List.append_nil]
      refine ⟨hchain, fun x hx hopen => ?_⟩
      have hheld := hlast x hx hopen
      rw [hheld] at hbeat hstep
      obtain ⟨k, c, ⟨⟩, hnext⟩ := hstep.of_keep (Bus.update_of_busy hbeat)
      exact hnext
    | some y =>
      obtain ⟨⟨c, hheld⟩, -⟩ := Bus.beat_eq_some hbeat
      rw [Option.toList_some]
      constructor
      · refine hchain.append (.singleton y) fun x hx z hz hopen => ?_
        cases hz
        exact (Bus.held.inj (hheld.symm.trans (hlast x hx hopen))).1
      · intro x hx hopen
        rw [List.getLast?_append_of_ne_nil _ (List.cons_ne_nil y []), List.getLast?_singleton,
          Option.mem_some_iff] at hx
        subst hx
        rw [hheld] at hbeat hstep
        obtain ⟨k, c, ⟨⟩, hnext⟩ := hstep.of_keep (Bus.update_of_beat hbeat hopen)
        exact hnext

end Run

theorem holds_reset : Holds (.free 0) reset := ⟨rfl, rfl, rfl, rfl⟩

/-- What the slave is given is what the two masters get rid of, each in its own order, and a packet that one of
them has begun goes on to its last beat before one of the other begins. -/
theorem packets_whole (ins : ℕ → Inputs) :
    let m := run step reset ins
    ∃ beats : ℕ → List (Fin 2 × Sink), ∀ n,
      Queue.log (fun t => (m t).sent (ins t)) n = (beats n).map (fun x => x.2.payload) ∧
      (∀ k, Queue.log (fun t => (m t).taken (ins t) k) n =
        ((beats n).filter fun x => x.1 = k).map fun x => x.2.payload) ∧
      (beats n).IsChain fun x y => x.2.last = false → y.1 = x.1 := by
  intro m
  obtain ⟨b, -, hb⟩ := exists_bus (isRun_run _ _ : IsRun step ins m) holds_reset
  refine ⟨Queue.log fun t => (b t).beat (ins t), fun n => ⟨?_, fun k => ?_, (isChain_beats (fun t => (hb t).2) n).1⟩⟩
  · rw [← Queue.log_map]
    congr 1
    funext t
    exact (hb t).1.sent_eq (ins t)
  · rw [← Queue.log_filter, ← Queue.log_map]
    congr 1
    funext t
    exact (hb t).1.taken_eq (ins t) k

/-! ## Nobody starves -/

/-- What the masters and the slave promise: a beat is shown until it is taken, a packet that has been begun comes to
its last beat, and the slave is ready again and again. -/
structure Courteous (ins : ℕ → Inputs) (m : ℕ → system_cmd_xbar_mux) : Prop where
  holds : ∀ t k, ((ins t).sink k).valid = true → (m t).sink_ready (ins t) k = false →
    (ins (t + 1)).sink k = (ins t).sink k
  ends : ∀ t k, ((ins t).sink k).valid = true → (m t).sink_ready (ins t) k = true → ((ins t).sink k).last = false →
    ∃ u > t, ((ins u).sink k).valid = true ∧ ((ins u).sink k).last = true
  goes : ∀ t, ∃ u ≥ t, (ins u).src_ready = true

/-- A packet ends. -/
def Bus.last (i : Inputs) : Bus → Bool
  | free _ => false
  | held k _ => (i.sink k).valid && i.src_ready && (i.sink k).last

theorem Holds.last_cycle_eq {b : Bus} {m : system_cmd_xbar_mux} (h : Holds b m) (i : Inputs) :
    m.last_cycle i = b.last i := by
  rcases b with t | ⟨k, c⟩
  · exact h.last_cycle_free i
  · exact h.last_cycle_held i

theorem Bus.update_of_last {b : Bus} {i : Inputs} (h : b.last i = true) : b.update i = true := by
  rcases b with t | ⟨k, c⟩
  · rfl
  · rw [last, Bool.and_eq_true, Bool.and_eq_true] at h
    rw [update, h.1.1, h.1.2, h.2]
    rfl

theorem mem_request {i : Inputs} {m : system_cmd_xbar_mux} {k : Fin 2} (h : (i.sink k).valid = true) :
    k ∈ ones (m.request i) := by
  change (valid i ||| m.locked).getLsbD k = true
  rw [BitVec.getLsbD_or, valid, getLsbD_bits, h, Bool.true_or]

section Fair
variable {ins : ℕ → Inputs} {m : ℕ → system_cmd_xbar_mux} {b : ℕ → Bus}
  (hb : ∀ t, Holds (b t) (m t) ∧ Bus.Step (ins t) (ones ((m t).request (ins t))) (b t) (b (t + 1)))
  (h : Courteous ins m)

include hb h in
/-- Who does not have the bus waits. -/
theorem sink_waits {t w : ℕ} {j : Fin 2} (hv : ((ins t).sink j).valid = true) (htw : t ≤ w)
    (hno : ∀ v, t ≤ v → v < w → (ins v).src_ready = true → ∀ c, b v ≠ .held j c) :
    (ins w).sink j = (ins t).sink j := by
  induction w, htw using Nat.le_induction with
  | base => rfl
  | succ w hw ih =>
    have hsame := ih fun v hv hvw => hno v hv (by omega)
    rw [← hsame]
    refine h.holds w j (hsame ▸ hv) ?_
    rw [← Bool.not_eq_true, (hb w).1.sink_ready_eq]
    rintro ⟨hr, c, hc⟩
    exact hno w hw (Nat.lt_succ_self w) hr c hc

include hb in
/-- Who has the bus keeps it until it is given on. -/
theorem holder_keeps {t w : ℕ} {k : Fin 2} {c : Bool} (hk : b t = .held k c) (htw : t ≤ w)
    (hno : ∀ v, t ≤ v → v < w → ∀ c, b v = .held k c → (b v).update (ins v) = false) : ∃ c, b w = .held k c := by
  induction w, htw using Nat.le_induction with
  | base => exact ⟨c, hk⟩
  | succ w hw ih =>
    obtain ⟨c, hc⟩ := ih fun v hv hvw => hno v hv (by omega)
    obtain ⟨k', c', hheld, hnext⟩ := (hb w).2.of_keep (hno w hw (Nat.lt_succ_self w) c hc)
    rw [hc] at hheld
    cases hheld
    exact ⟨true, hnext⟩

include hb h in
/-- A beat of the one that has the bus is taken, and nothing ends before. -/
theorem holder_served {t : ℕ} {k : Fin 2} {c : Bool} (hk : b t = .held k c) (hv : ((ins t).sink k).valid = true) :
    ∃ u ≥ t, (∃ c, b u = .held k c) ∧ (ins u).sink k = (ins t).sink k ∧ (ins u).src_ready = true ∧
      ∀ v, t ≤ v → v < u → (b v).last (ins v) = false := by
  obtain ⟨u, hu, hr, hbefore⟩ := exists_first (h.goes t)
  have hsame (w : ℕ) (htw : t ≤ w) (hwu : w ≤ u) : (ins w).sink k = (ins t).sink k :=
    sink_waits hb h hv htw fun v hv hvw hr => absurd hr (hbefore v hv (by omega))
  have hkeep (v : ℕ) (htv : t ≤ v) (hvu : v < u) (c : Bool) (hc : b v = .held k c) : (b v).update (ins v) = false := by
    rw [hc, Bus.update, hsame v htv hvu.le, hv, Bool.eq_false_iff.2 (hbefore v htv hvu)]
    rfl
  refine ⟨u, hu, holder_keeps hb hk hu hkeep, hsame u hu (Nat.le_refl u), hr, fun v htv hvu => ?_⟩
  obtain ⟨c, hc⟩ := holder_keeps hb hk htv fun w hw hwv => hkeep w hw (by omega)
  exact Bool.eq_false_iff.2 fun hlast => Bool.eq_false_iff.1 (hkeep v htv hvu c hc) (Bus.update_of_last hlast)

include hb h in
/-- After a beat within a packet the bus is given on at some time. -/
theorem packet_ends {s : ℕ} {x : Fin 2 × Sink} (hx : (b s).beat (ins s) = some x) (hopen : x.2.last = false) :
    ∃ u > s, (b u).update (ins u) = true := by
  obtain ⟨⟨c, hheld⟩, hs, hv, hr⟩ := Bus.beat_eq_some hx
  by_contra hnone
  have hno (v : ℕ) (hsv : s ≤ v) : (b v).update (ins v) = false := by
    rcases Nat.lt_or_eq_of_le hsv with hlt | rfl
    · exact Bool.eq_false_iff.2 fun hu => hnone ⟨v, hlt, hu⟩
    · rw [hheld] at hx ⊢
      exact Bus.update_of_beat hx hopen
  have hready : (m s).sink_ready (ins s) x.1 = true := ((hb s).1.sink_ready_eq _ _).2 ⟨hr, c, hheld⟩
  obtain ⟨u, hu, hvu, hlast⟩ := h.ends s x.1 (hs ▸ hv) hready (hs ▸ hopen)
  obtain ⟨cu, hcu⟩ := holder_keeps hb hheld hu.le fun v hv _ _ _ => hno v hv
  obtain ⟨r, hr, ⟨cr, hcr⟩, hsame, hgo, -⟩ := holder_served hb h hcu hvu
  have hupdate := hno r (by omega)
  rw [hcr, Bus.update, hsame, hvu, hgo, hlast] at hupdate
  cases hupdate

include hb h in
/-- The bus is in a packet because of a beat that is there, or that was. -/
theorem open_packet (h0 : (b 0).busy = false) {t : ℕ} {k : Fin 2} (hk : b t = .held k true) :
    ((ins t).sink k).valid = true ∨ ∃ s < t, ∃ x, (b s).beat (ins s) = some x ∧ x.2.last = false ∧
      ∀ v, s ≤ v → v < t → (b v).update (ins v) = false := by
  induction t with
  | zero =>
    rw [hk] at h0
    cases h0
  | succ t ih =>
    obtain ⟨c, hc, hu⟩ := (hk ▸ (hb t).2 : Bus.Step _ _ _ (.held k true)).into_busy
    rcases hv : ((ins t).sink k).valid
    · -- nothing is shown, so it is the packet of before
      rw [hc, Bus.update, hv] at hu
      obtain rfl : c = true := by simpa using hu
      rcases ih hc with hv' | ⟨s, hs, x, hx, hopen, hno⟩
      · rw [hv] at hv'
        cases hv'
      · refine .inr ⟨s, by omega, x, hx, hopen, fun v hsv hvt => ?_⟩
        rcases Nat.lt_succ_iff_lt_or_eq.1 hvt with hvt | rfl
        · exact hno v hsv hvt
        · rw [hc, Bus.update, hv]
          rfl
    · rcases hr : (ins t).src_ready
      · left
        rw [h.holds t k hv (Bool.eq_false_iff.2 fun hready => ?_)]
        · exact hv
        · rw [(hb t).1.sink_ready_eq, hr] at hready
          cases hready.1
      · right
        refine ⟨t, Nat.lt_succ_self t, (k, (ins t).sink k), ?_, ?_, fun v htv hvt => ?_⟩
        · rw [hc, Bus.beat, hv, hr]
          rfl
        · rw [hc, Bus.update, hv, hr] at hu
          exact hu
        · rw [show v = t by omega]
          exact hu

include hb h in
/-- The bus is given on again and again. -/
theorem gives_on (h0 : (b 0).busy = false) (t : ℕ) : ∃ u ≥ t, (b u).update (ins u) = true := by
  rcases hheld : b t with t' | ⟨k, c⟩
  · exact ⟨t, Nat.le_refl t, by rw [hheld]; rfl⟩
  · by_cases hv : ((ins t).sink k).valid = true
    · obtain ⟨u, hu, ⟨c', hc'⟩, hsame, hr, -⟩ := holder_served hb h hheld hv
      rcases hlast : ((ins u).sink k).last
      · obtain ⟨w, hw, hupdate⟩ := packet_ends hb h (s := u) (x := (k, (ins u).sink k))
          (by rw [hc', Bus.beat, hsame, hv, hr]; rfl) hlast
        exact ⟨w, by omega, hupdate⟩
      · refine ⟨u, hu, ?_⟩
        rw [hc', Bus.update, hr, hlast, hsame, hv]
        rfl
    · rcases c with _ | _
      · refine ⟨t, Nat.le_refl t, ?_⟩
        rw [hheld, Bus.update, if_neg hv]
        rfl
      · rcases open_packet hb h h0 hheld with hv' | ⟨s, hs, x, hx, hopen, hno⟩
        · exact absurd hv' hv
        · obtain ⟨u, hu, hupdate⟩ := packet_ends hb h hx hopen
          refine ⟨u, Nat.le_of_not_lt fun hut => ?_, hupdate⟩
          rw [hno u hu.le hut] at hupdate
          cases hupdate

include hb h in
/-- Whose turn it is gets the bus as soon as it is given on. -/
theorem turn_served (h0 : (b 0).busy = false) {t : ℕ} {j : Fin 2} (hv : ((ins t).sink j).valid = true)
    (hturn : (b t).turn = j) :
    ∃ u ≥ t, b (u + 1) = .held j false ∧ (ins (u + 1)).sink j = (ins t).sink j ∧
      ∀ v, t ≤ v → v < u → (b v).last (ins v) = false := by
  obtain ⟨u, hu, hupdate, hbefore⟩ := exists_first (gives_on hb h h0 t)
  have hturns (v : ℕ) (htv : t ≤ v) (hvu : v ≤ u) : (b v).turn = j := by
    rcases hheld : b t with t' | ⟨k, c⟩
    · have hfirst : u = t := by
        by_contra hne
        exact hbefore t (Nat.le_refl t) (by omega) (by rw [hheld]; rfl)
      rw [show v = t by omega]
      exact hturn
    · obtain ⟨c', hc'⟩ := holder_keeps hb hheld htv fun w hw hwv _ _ =>
        Bool.eq_false_iff.2 (hbefore w hw (by omega))
      rw [hc', ← hturn, hheld]
      rfl
  have hother (v : ℕ) (htv : t ≤ v) (hvu : v ≤ u) (c : Bool) : b v ≠ .held j c := by
    intro hc
    have hj := hturns v htv hvu
    rw [hc, Bus.turn_held] at hj
    exact hj rfl
  have hsame (w : ℕ) (htw : t ≤ w) (hwu : w ≤ u + 1) : (ins w).sink j = (ins t).sink j :=
    sink_waits hb h hv htw fun v htv hvw _ => hother v htv (by omega)
  have hj : j ∈ ones ((m u).request (ins u)) := mem_request (hsame u hu (Nat.le_succ u) ▸ hv)
  obtain ⟨k, hk, hnext⟩ := (hb u).2.of_update hupdate ⟨j, hj⟩
  rw [hturns u hu (Nat.le_refl u)] at hk
  rw [hk.unique (Picks.of_turn hj)] at hnext
  refine ⟨u, hu, hnext, hsame (u + 1) (by omega) (Nat.le_refl _), fun v htv hvu => ?_⟩
  exact Bool.eq_false_iff.2 fun hlast => hbefore v htv hvu (Bus.update_of_last hlast)

include hb h in
/-- A beat is taken after one packet of the other master at most. -/
theorem bus_served (h0 : (b 0).busy = false) {t : ℕ} {j : Fin 2} (hv : ((ins t).sink j).valid = true) :
    ∃ u ≥ t, (∃ c, b u = .held j c) ∧ (ins u).sink j = (ins t).sink j ∧ (ins u).src_ready = true ∧
      {v | t ≤ v ∧ v < u ∧ (b v).last (ins v) = true}.Subsingleton := by
  -- once the bus is held by `j`, nothing ends before its beat is taken
  have hserve {w : ℕ} (htw : t ≤ w) {c : Bool} (hheld : b w = .held j c) (hsame : (ins w).sink j = (ins t).sink j)
      (hsub : {v | t ≤ v ∧ v < w ∧ (b v).last (ins v) = true}.Subsingleton) :
      ∃ u ≥ t, (∃ c, b u = .held j c) ∧ (ins u).sink j = (ins t).sink j ∧ (ins u).src_ready = true ∧
        {v | t ≤ v ∧ v < u ∧ (b v).last (ins v) = true}.Subsingleton := by
    obtain ⟨u, hu, hc, hsame', hr, hno⟩ := holder_served hb h hheld (hsame ▸ hv)
    refine ⟨u, htw.trans hu, hc, hsame'.trans hsame, hr, hsub.anti fun v ⟨htv, hvu, hlast⟩ => ⟨htv, ?_, hlast⟩⟩
    by_contra hwv
    rw [hno v (by omega) hvu] at hlast
    cases hlast
  -- from its turn on, one packet ends at most
  have hwait {s : ℕ} (hts : t ≤ s) (hturn : (b s).turn = j) (hsame : (ins s).sink j = (ins t).sink j)
      (hno : ∀ v, t ≤ v → v < s → (b v).last (ins v) = false) :
      ∃ u ≥ t, (∃ c, b u = .held j c) ∧ (ins u).sink j = (ins t).sink j ∧ (ins u).src_ready = true ∧
        {v | t ≤ v ∧ v < u ∧ (b v).last (ins v) = true}.Subsingleton := by
    obtain ⟨u, hu, hheld, hsame', hno'⟩ := turn_served hb h h0 (hsame ▸ hv) hturn
    have honly (v : ℕ) (htv : t ≤ v) (hvu : v < u + 1) (hlast : (b v).last (ins v) = true) : v = u := by
      by_contra hne
      rcases Nat.lt_or_ge v s with hvs | hsv
      · rw [hno v htv hvs] at hlast
        cases hlast
      · rw [hno' v hsv (by omega)] at hlast
        cases hlast
    refine hserve (by omega) hheld (hsame'.trans hsame) fun v ⟨htv, hvu, hv⟩ w ⟨htw, hwu, hw⟩ => ?_
    rw [honly v htv hvu hv, honly w htw hwu hw]
  by_cases hturn : (b t).turn = j
  · exact hwait (Nat.le_refl t) hturn rfl fun v htv hvt => absurd hvt (Nat.not_lt.2 htv)
  · rcases hheld : b t with t' | ⟨k, c⟩
    · have hfree : (b t).last (ins t) = false := by rw [hheld]; rfl
      have hno (v : ℕ) (htv : t ≤ v) (hvt : v < t + 1) : (b v).last (ins v) = false := by
        rw [show v = t by omega, hfree]
      have hsame : (ins (t + 1)).sink j = (ins t).sink j :=
        sink_waits hb h hv (Nat.le_succ t) fun v htv hvt _ c hc => by
          rw [show v = t by omega, hheld] at hc
          cases hc
      obtain ⟨k, -, hnext⟩ := (hb t).2.of_update (by rw [hheld]; rfl) ⟨j, mem_request hv⟩
      by_cases hk : k = j
      · subst hk
        refine hserve (Nat.le_succ t) hnext hsame fun v ⟨htv, hvt, hv⟩ => ?_
        rw [hno v htv hvt] at hv
        cases hv
      · refine hwait (Nat.le_succ t) ?_ hsame hno
        rw [hnext]
        exact (Bus.turn_held k j false).2 hk
    · have hkj : k = j := by
        rw [hheld, Bus.turn_held] at hturn
        exact not_not.1 hturn
      subst hkj
      exact hserve (Nat.le_refl t) hheld rfl fun v ⟨htv, hvt, _⟩ => absurd hvt (Nat.not_lt.2 htv)

end Fair

/-- Whoever shows a beat gets rid of it, and the other ends one packet before that at most. -/
theorem beat_served (ins : ℕ → Inputs) (h : Courteous ins (run step reset ins)) (t : ℕ) (j : Fin 2)
    (hv : ((ins t).sink j).valid = true) :
    let m := run step reset ins
    ∃ u ≥ t, (m u).taken (ins u) j = some ((ins t).sink j).payload ∧
      {v | t ≤ v ∧ v < u ∧ (m v).last_cycle (ins v) = true}.Subsingleton := by
  intro m
  obtain ⟨b, h0, hb⟩ := exists_bus (isRun_run _ _ : IsRun step ins m) holds_reset
  obtain ⟨u, hu, ⟨c, hc⟩, hsame, hr, hsub⟩ := bus_served hb h (by rw [h0]; rfl) hv
  refine ⟨u, hu, ?_, ?_⟩
  · rw [taken, hsame, hv, ((hb u).1.sink_ready_eq (ins u) j).2 ⟨hr, c, hc⟩]
    rfl
  · refine hsub.anti fun v ⟨htv, hvu, hlast⟩ => ⟨htv, hvu, ?_⟩
    rwa [← (hb v).1.last_cycle_eq]

/-- Both masters fetch words all the time, and the slave takes one in every third cycle. -/
theorem beat_served_words :
    let ins (t : ℕ) : Inputs := ⟨fun k => ⟨true, BitVec.ofNat 88 k, 1#4, true, true⟩, t % 3 == 0⟩
    let m := run step reset ins
    ∃ u ≥ 4, (m u).taken (ins u) 1 = some ((ins 4).sink 1).payload ∧
      {v | 4 ≤ v ∧ v < u ∧ (m v).last_cycle (ins v) = true}.Subsingleton := by
  intro ins
  have hlast : ∀ k : Fin 2, ((ins 0).sink k).last = true := by decide
  refine beat_served ins ⟨fun _ _ _ _ => rfl, fun t k _ _ hopen => ?_, fun t => ⟨3 * t, by omega, ?_⟩⟩ 4 1 rfl
  · exact absurd ((hlast k).symm.trans hopen) (by decide)
  · exact beq_iff_eq.2 (Nat.mul_mod_right 3 t)

end system_cmd_xbar_mux

end Aes128
