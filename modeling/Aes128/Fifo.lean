import Mathlib
import Aes128.Clocked
/-!
# altera_avalon_sc_fifo.v

The FIFO behind the agent of each slave, which keeps what belongs to a read until
its answer comes. It is a shift register: the contents are at the low end, and the
occupancy bits are contiguous. The configuration is the register-based one without
output stage, of any depth, with an empty latency of 0 or 1.

Every cycle of it is a cycle of a queue, so nothing is lost, doubled or reordered.
-/

open Clocked

/-! ## Queues -/

namespace Queue

variable {α : Type*}

/-- A cycle: a write at the end, and then a read at the front. -/
def next (push : Option α) (pop : Bool) (q : List α) : List α := (q ++ push.toList).drop (if pop then 1 else 0)

/-- What is read in that cycle. -/
def front (push : Option α) (pop : Bool) (q : List α) : List α := (q ++ push.toList).take (if pop then 1 else 0)

theorem front_append_next (push : Option α) (pop : Bool) (q : List α) :
    front push pop q ++ next push pop q = q ++ push.toList := List.take_append_drop _ _

/-- What has gone through a port before cycle `n`. -/
def log (port : ℕ → Option α) (n : ℕ) : List α := (List.range n).flatMap fun j => (port j).toList

theorem log_succ (port : ℕ → Option α) (n : ℕ) : log port (n + 1) = log port n ++ (port n).toList := by
  simp [log, List.range_succ]

theorem log_prefix (port : ℕ → Option α) {m n : ℕ} (h : m ≤ n) : log port m <+: log port n := by
  induction n, h using Nat.le_induction with
  | base => exact List.prefix_refl _
  | succ n _ ih =>
    rw [log_succ]
    exact ih.trans (List.prefix_append _ _)

theorem log_map {β : Type*} (f : α → β) (port : ℕ → Option α) (n : ℕ) :
    log (fun j => (port j).map f) n = (log port n).map f := by
  induction n with
  | zero => rfl
  | succ n ih => rw [log_succ, log_succ, ih, List.map_append, Option.toList_map]

theorem log_filter (p : α → Bool) (port : ℕ → Option α) (n : ℕ) :
    log (fun j => (port j).filter p) n = (log port n).filter p := by
  induction n with
  | zero => rfl
  | succ n ih => rw [log_succ, log_succ, ih, List.filter_append, Option.toList_filter]

end Queue

namespace Aes128

structure altera_avalon_sc_fifo (α : Type*) where
  /-- Slots from the depth on are not there. -/
  mem : ℕ → α
  mem_used : ℕ → Bool

namespace altera_avalon_sc_fifo

/-- A larger latency puts another stage behind the queue. -/
structure Parameters where
  DEPTH : ℕ
  EMPTY_LATENCY : ℕ
  latency_le : EMPTY_LATENCY ≤ 1

/-- The ports of both sides in one cycle. -/
structure Inputs (α : Type*) where
  in_payload : α
  in_valid : Bool
  out_ready : Bool

section Wires
variable {α : Type*} (p : Parameters) (i : Inputs α) (f : altera_avalon_sc_fifo α)

def empty : Bool := if p.EMPTY_LATENCY = 0 then !f.mem_used 0 && !i.in_valid else !f.mem_used 0

def out_valid : Bool := !f.empty p i

def out_payload : α := if p.EMPTY_LATENCY = 0 ∧ (!f.mem_used 0 && i.in_valid) then i.in_payload else f.mem 0

def read : Bool := (i.out_ready || !f.out_valid p i) && f.out_valid p i

def full : Bool := if p.DEPTH = 1 then f.mem_used 0 && !f.read p i else f.mem_used (p.DEPTH - 1)

def in_ready : Bool := !f.full p i

def write : Bool := f.in_ready p i && i.in_valid

def step : altera_avalon_sc_fifo α where
  mem j :=
    if j + 1 < p.DEPTH then
      if f.read p i || !f.mem_used j then
        if !f.mem_used (j + 1) then i.in_payload else f.mem (j + 1)
      else f.mem j
    else if p.DEPTH = 1 ∧ f.write p i then i.in_payload
    else if !f.mem_used j then i.in_payload
    else f.mem j
  mem_used j :=
    if f.write p i ^^ f.read p i then
      if j = 0 then
        if f.write p i then true else if p.DEPTH > 1 then f.mem_used 1 else false
      else if j = p.DEPTH - 1 then
        if f.write p i then f.mem_used (p.DEPTH - 2) else false
      else if f.write p i then f.mem_used (j - 1)
      else f.mem_used (j + 1)
    else f.mem_used j

/-- The state a reset leaves. -/
def reset (zero : α) : altera_avalon_sc_fifo α := ⟨fun _ => zero, fun _ => false⟩

/-- What is written in a cycle. -/
def push : Option α := if f.write p i then some i.in_payload else none

/-- What is read in a cycle. -/
def pop : Option α := if f.read p i then some (f.out_payload p i) else none

end Wires

/-! ## The queue in the shift register -/

/-- The low slots hold `q`. -/
structure Holds {α : Type*} (p : Parameters) (q : List α) (f : altera_avalon_sc_fifo α) : Prop where
  room : q.length ≤ p.DEPTH
  used : ∀ j < p.DEPTH, f.mem_used j = decide (j < q.length)
  mem : ∀ j < q.length, q[j]? = some (f.mem j)

section Step
variable {α : Type*} {p : Parameters} {i : Inputs α} {q : List α} {f : altera_avalon_sc_fifo α}

theorem holds_reset (p : Parameters) (zero : α) : Holds p [] (reset zero) :=
  ⟨Nat.zero_le _, fun _ _ => rfl, fun _ hj => absurd hj (Nat.not_lt_zero _)⟩

theorem read_eq (p : Parameters) (i : Inputs α) (f : altera_avalon_sc_fifo α) :
    f.read p i = (i.out_ready && f.out_valid p i) := by
  unfold read
  cases i.out_ready <;> cases f.out_valid p i <;> rfl

theorem Holds.used_zero (h : Holds p q f) (hp : 0 < p.DEPTH) : f.mem_used 0 = !q.isEmpty := by
  rw [h.used 0 hp]
  cases q <;> simp

theorem Holds.out_valid_eq (h : Holds p q f) (hp : 0 < p.DEPTH) :
    f.out_valid p i = (!q.isEmpty || (p.EMPTY_LATENCY == 0 && i.in_valid)) := by
  unfold out_valid empty
  rw [h.used_zero hp]
  by_cases h0 : p.EMPTY_LATENCY = 0 <;> simp [h0]

theorem Holds.in_ready_eq (h : Holds p q f) (hp : 0 < p.DEPTH) :
    f.in_ready p i = if p.DEPTH = 1 then q.isEmpty || f.read p i else decide (q.length < p.DEPTH) := by
  unfold in_ready full
  split
  · rw [h.used_zero hp]
    simp
  · rw [h.used _ (by omega)]
    have := h.room
    rw [← decide_not, decide_eq_decide]
    omega

/-- There is room for a write, or a read makes room in the only slot. -/
theorem Holds.room_of_write (h : Holds p q f) (hp : 0 < p.DEPTH) (hw : f.write p i = true) :
    q.length < p.DEPTH ∨ p.DEPTH = 1 ∧ q.length = 1 ∧ f.read p i = true := by
  have hroom := h.room
  unfold write at hw
  rw [h.in_ready_eq hp, Bool.and_eq_true] at hw
  obtain ⟨hw, -⟩ := hw
  split at hw
  next h1 =>
    rw [Bool.or_eq_true, List.isEmpty_iff] at hw
    rcases hw with rfl | hr
    · exact .inl hp
    · by_cases hq : q.length = 1
      · exact .inr ⟨h1, hq, hr⟩
      · exact .inl (by omega)
  next => exact .inl (of_decide_eq_true hw)

/-- An empty queue is read in the cycle of a write only. -/
theorem Holds.write_of_read (h : Holds p [] f) (hp : 0 < p.DEPTH) (hr : f.read p i = true) :
    f.write p i = true ∧ f.out_payload p i = i.in_payload := by
  have hvalid : f.out_valid p i = true := by
    rw [read_eq, Bool.and_eq_true] at hr
    exact hr.2
  rw [h.out_valid_eq hp] at hvalid
  simp only [List.isEmpty_nil, Bool.not_true, Bool.false_or, Bool.and_eq_true, beq_iff_eq] at hvalid
  obtain ⟨h0, hin⟩ := hvalid
  constructor
  · rw [write, h.in_ready_eq hp, hin]
    simp [hp]
  · rw [out_payload, h.used_zero hp, h0, hin]
    simp

theorem Holds.out_payload_eq (h : Holds p q f) (hq : q ≠ []) (hp : 0 < p.DEPTH) :
    q.head? = some (f.out_payload p i) := by
  have hlen : 0 < q.length := List.length_pos_iff.2 hq
  rw [out_payload, h.used 0 hp, List.head?_eq_getElem?, h.mem 0 hlen]
  simp [hlen]

/-- What is read is the front of the queue. -/
theorem Holds.front_eq (h : Holds p q f) (hp : 0 < p.DEPTH) :
    Queue.front (f.push p i) (f.read p i) q = (f.pop p i).toList := by
  unfold Queue.front pop
  split
  next hr =>
    rcases q with _ | ⟨a, q⟩
    · obtain ⟨hw, hout⟩ := h.write_of_read hp hr
      simp [push, hw, hout]
    · have hout := h.out_payload_eq (i := i) (List.cons_ne_nil a q) hp
      rw [List.head?_cons, Option.some_inj] at hout
      simp [hout]
  next => exact List.take_zero

/-! The cycles of the shift register. -/

theorem Holds.step_none (h : Holds p q f) (hw : f.write p i = false) (hr : f.read p i = false) :
    Holds p q (f.step p i) where
  room := h.room
  used := by
    intro j hj
    simp only [step, hw, hr, Bool.xor_self, Bool.false_eq_true, if_false]
    exact h.used j hj
  mem := by
    intro j hj
    have hj' := h.used j (Nat.lt_of_lt_of_le hj h.room)
    rw [decide_eq_true hj] at hj'
    simp [step, hw, hr, hj', h.mem j hj]

theorem Holds.step_write (h : Holds p q f) (hp : 0 < p.DEPTH) (hw : f.write p i = true) (hr : f.read p i = false) :
    Holds p (q ++ [i.in_payload]) (f.step p i) := by
  have hlen : q.length < p.DEPTH := by
    rcases h.room_of_write hp hw with hlen | ⟨-, -, hr'⟩
    · exact hlen
    · rw [hr] at hr'
      cases hr'
  have hused := h.used
  have hmem := h.mem
  constructor
  · rw [List.length_append, List.length_singleton]
    exact hlen
  · intro j hj
    simp only [step, hw, hr, Bool.xor_false, if_true, List.length_append, List.length_singleton]
    grind
  · intro j hj
    simp only [step, hw, hr, List.length_append, List.length_singleton] at hj ⊢
    grind

theorem Holds.step_read (h : Holds p q f) (hp : 0 < p.DEPTH) (hw : f.write p i = false) (hr : f.read p i = true) :
    Holds p q.tail (f.step p i) := by
  have hroom := h.room
  have hused := h.used
  have hmem := h.mem
  constructor
  · rw [List.length_tail]
    omega
  · intro j hj
    simp only [step, hw, hr, Bool.false_xor, if_true, List.length_tail]
    grind
  · intro j hj
    rw [List.length_tail] at hj
    simp only [step, hw, hr, List.getElem?_tail]
    grind

theorem Holds.step_both (h : Holds p q f) (hp : 0 < p.DEPTH) (hw : f.write p i = true) (hr : f.read p i = true)
    (hq : q ≠ []) : Holds p (q.tail ++ [i.in_payload]) (f.step p i) := by
  have hlen := h.room_of_write hp hw
  have hpos : 0 < q.length := List.length_pos_iff.2 hq
  have hroom := h.room
  have hused := h.used
  have hmem := h.mem
  have htail : (q.tail ++ [i.in_payload]).length = q.length := by
    rw [List.length_append, List.length_tail, List.length_singleton]
    omega
  constructor
  · rw [htail]
    exact hroom
  · intro j hj
    simp only [step, hw, hr, Bool.xor_self, Bool.false_eq_true, if_false, htail]
    exact hused j hj
  · intro j hj
    rw [htail] at hj
    simp only [step, hw, hr]
    grind

/-- A payload that passes an empty FIFO. -/
theorem Holds.step_through (h : Holds p [] f) (hw : f.write p i = true) (hr : f.read p i = true) :
    Holds p [] (f.step p i) where
  room := h.room
  used := by
    intro j hj
    simp only [step, hw, hr, Bool.xor_self, Bool.false_eq_true, if_false]
    exact h.used j hj
  mem := fun j hj => absurd hj (Nat.not_lt_zero j)

/-- A cycle of the shift register is a cycle of the queue. -/
theorem Holds.step (h : Holds p q f) (hp : 0 < p.DEPTH) :
    Holds p (Queue.next (f.push p i) (f.read p i) q) (f.step p i) := by
  unfold Queue.next push
  rcases hw : f.write p i <;> rcases hr : f.read p i
  · simpa using h.step_none hw hr
  · simpa using h.step_read hp hw hr
  · simpa using h.step_write hp hw hr
  · by_cases hq : q = []
    · subst hq
      exact h.step_through hw hr
    · obtain ⟨a, q, rfl⟩ := List.exists_cons_of_ne_nil hq
      simpa using h.step_both hp hw hr hq

end Step

/-! ## Runs -/

section Run
variable {α : Type*} {p : Parameters} (hp : 0 < p.DEPTH) {ins : ℕ → Inputs α} {f : ℕ → altera_avalon_sc_fifo α}
  (hf : IsRun (step p) ins f)

include hp hf in
/-- What has been written is what has been read and what is still there. -/
theorem exists_queue (h0 : Holds p [] (f 0)) (n : ℕ) :
    ∃ q, Holds p q (f n) ∧
      Queue.log (fun j => (f j).push p (ins j)) n = Queue.log (fun j => (f j).pop p (ins j)) n ++ q := by
  induction n with
  | zero => exact ⟨[], h0, rfl⟩
  | succ n ih =>
    obtain ⟨q, hq, hlog⟩ := ih
    refine ⟨_, hf n ▸ hq.step hp, ?_⟩
    rw [Queue.log_succ, Queue.log_succ, hlog, List.append_assoc, List.append_assoc, ← hq.front_eq hp,
      Queue.front_append_next]

include hp hf in
/-- A reader that is ready again and again gets everything. -/
theorem exists_read (h0 : Holds p [] (f 0)) (hready : ∀ m, ∃ n ≥ m, (ins n).out_ready = true) (n k : ℕ)
    (hk : k ≤ (Queue.log (fun j => (f j).push p (ins j)) n).length) :
    ∃ m ≥ n, k ≤ (Queue.log (fun j => (f j).pop p (ins j)) m).length := by
  induction k with
  | zero => exact ⟨n, Nat.le_refl n, Nat.zero_le _⟩
  | succ k ih =>
    obtain ⟨m, hm, hkm⟩ := ih (Nat.le_of_succ_le hk)
    obtain ⟨r, hr, hgo⟩ := hready m
    have hentered := (Queue.log_prefix (fun j => (f j).push p (ins j)) (show n ≤ r by omega)).length_le
    have hleft := (Queue.log_prefix (fun j => (f j).pop p (ins j)) hr).length_le
    by_cases hlt : k + 1 ≤ (Queue.log (fun j => (f j).pop p (ins j)) r).length
    · exact ⟨r, by omega, hlt⟩
    · obtain ⟨q, hq, hlog⟩ := exists_queue hp hf h0 r
      have hne : q ≠ [] := by
        rintro rfl
        rw [List.append_nil] at hlog
        rw [hlog] at hentered
        omega
      have hread : (f r).read p (ins r) = true := by
        rw [read_eq, hgo, hq.out_valid_eq hp]
        simp [hne]
      refine ⟨r + 1, by omega, ?_⟩
      rw [Queue.log_succ, List.length_append, pop, if_pos hread]
      simp only [Option.toList_some, List.length_singleton]
      omega

end Run

/-- Whatever the depth, and with or without lookahead: the FIFO holds what has been written and not yet been
read, in order, and never more than its depth; its two flags say so; and a reader that is ready again and again
gets everything that was written. -/
theorem fifo_in_order {α : Type*} (p : Parameters) (hp : 0 < p.DEPTH) (zero : α) (ins : ℕ → Inputs α) :
    let f := run (step p) (reset zero) ins
    let entered := Queue.log fun j => (f j).push p (ins j)
    let left := Queue.log fun j => (f j).pop p (ins j)
    (∀ n, ∃ q, entered n = left n ++ q ∧ q.length ≤ p.DEPTH ∧
      (f n).in_ready p (ins n) =
        (if p.DEPTH = 1 then q.isEmpty || (f n).read p (ins n) else decide (q.length < p.DEPTH)) ∧
      (f n).out_valid p (ins n) = (!q.isEmpty || (p.EMPTY_LATENCY == 0 && (ins n).in_valid)) ∧
      (q ≠ [] → q.head? = some ((f n).out_payload p (ins n)))) ∧
    ((∀ m, ∃ n ≥ m, (ins n).out_ready = true) → ∀ n, ∃ m, entered n <+: left m) := by
  intro f entered left
  have h0 : Holds p [] (f 0) := holds_reset p zero
  have hf : IsRun (step p) ins f := isRun_run _ _
  constructor
  · intro n
    obtain ⟨q, hq, hlog⟩ := exists_queue hp hf h0 n
    exact ⟨q, hlog, hq.room, hq.in_ready_eq hp, hq.out_valid_eq hp, fun hne => hq.out_payload_eq hne hp⟩
  · intro hready n
    obtain ⟨m, hm, hlen⟩ := exists_read hp hf h0 hready n _ (Nat.le_refl _)
    obtain ⟨q, -, hlog⟩ := exists_queue hp hf h0 m
    have hleft : left m <+: entered m := ⟨q, hlog.symm⟩
    exact ⟨m, List.prefix_of_prefix_length_le (Queue.log_prefix _ hm) hleft hlen⟩

/-- The FIFO of `ip_slave_0`, with a reader that is ready in every third cycle. -/
theorem fifo_in_order_rsp :
    let p : Parameters := ⟨2, 1, by decide⟩
    let ins (n : ℕ) : Inputs (BitVec 91) := ⟨BitVec.ofNat 91 n, true, n % 3 == 0⟩
    let f := run (step p) (reset 0#91) ins
    let entered := Queue.log fun j => (f j).push p (ins j)
    let left := Queue.log fun j => (f j).pop p (ins j)
    (∀ n, ∃ q, entered n = left n ++ q ∧ q.length ≤ p.DEPTH ∧
      (f n).in_ready p (ins n) =
        (if p.DEPTH = 1 then q.isEmpty || (f n).read p (ins n) else decide (q.length < p.DEPTH)) ∧
      (f n).out_valid p (ins n) = (!q.isEmpty || (p.EMPTY_LATENCY == 0 && (ins n).in_valid)) ∧
      (q ≠ [] → q.head? = some ((f n).out_payload p (ins n)))) ∧
    ((∀ m, ∃ n ≥ m, (ins n).out_ready = true) → ∀ n, ∃ m, entered n <+: left m) :=
  fifo_in_order ⟨2, 1, by decide⟩ (by decide) 0#91 _

end altera_avalon_sc_fifo

end Aes128
