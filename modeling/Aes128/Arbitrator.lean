import Mathlib
import Aes128.Clocked
import Aes128.RoundRobin
/-!
# altera_merlin_arbitrator.sv

The arbitrator of the crossbars, for any number of requesters. The priority is one
bit, and the grant is the first request from it on, in a circle: an addition on the
requests twice in a row finds it. In the round-robin scheme the priority goes behind
the one that was granted, so whoever keeps requesting is granted after fewer than
`n` others.
-/

open Clocked RoundRobin FirstBit

namespace Aes128

/-! ## The adder -/

namespace altera_merlin_arb_adder

variable {w : ℕ} (a b : BitVec w)

def cout : ℕ → Bool
  | 0 => a.getLsbD 0 && b.getLsbD 0
  | i + 1 => (a.getLsbD (i + 1) && b.getLsbD (i + 1)) || (cout i && (a.getLsbD (i + 1) ^^ b.getLsbD (i + 1)))

def sum_bit : ℕ → Bool
  | 0 => a.getLsbD 0 ^^ b.getLsbD 0
  | i + 1 => (a.getLsbD (i + 1) ^^ b.getLsbD (i + 1)) ^^ cout a b i

/-- A full adder where it is narrow, a carry chain where it is wide. -/
def sum : BitVec w := if w ≤ 8 then BitVec.ofFnLE fun i => sum_bit a b i else a + b

theorem cout_eq (i : ℕ) : cout a b i = BitVec.carry (i + 1) a b false := by
  induction i with
  | zero => simp [cout, BitVec.carry_succ]
  | succ i ih =>
    rw [BitVec.carry_succ, cout, ih]
    generalize BitVec.carry (i + 1) a b false = c
    cases a.getLsbD (i + 1) <;> cases b.getLsbD (i + 1) <;> cases c <;> rfl

theorem sum_bit_eq {i : ℕ} (hi : i < w) : sum_bit a b i = (a + b).getLsbD i := by
  rw [BitVec.getLsbD_add hi]
  rcases i with _ | i
  · simp [sum_bit]
  · rw [sum_bit, cout_eq, Bool.xor_assoc]

/-- Both add. -/
theorem sum_eq : sum a b = a + b := by
  unfold sum
  split
  · apply BitVec.eq_of_getLsbD_eq
    intro i hi
    rw [← sum_bit_eq a b hi]
    simp [hi]
  · rfl

end altera_merlin_arb_adder

/-! ## The arbitrator -/

structure altera_merlin_arbitrator (n : ℕ) where
  top_priority_reg : BitVec n

namespace altera_merlin_arbitrator

inductive Scheme
  | round_robin
  | fixed_priority
  | no_arb
  deriving DecidableEq

structure Parameters where
  SCHEME : Scheme
  PIPELINE : Bool

structure Inputs (n : ℕ) where
  request : BitVec n
  increment_top_priority : Bool
  save_top_priority : Bool

section Wires
variable {n : ℕ} (p : Parameters) (i : Inputs n) (a : altera_merlin_arbitrator n)

def top_priority : BitVec n := if p.SCHEME = .round_robin ∧ n > 1 then a.top_priority_reg else 1#n

def result : BitVec (n + n) :=
  altera_merlin_arb_adder.sum (~~~i.request ++ ~~~i.request) (0#n ++ a.top_priority p)

def grant_double_vector : BitVec (n + n) := (i.request ++ i.request) &&& a.result p i

def grant : BitVec n :=
  if p.SCHEME = .no_arb then i.request
  else (a.grant_double_vector p i).extractLsb' 0 n ||| (a.grant_double_vector p i).extractLsb' n n

def step : altera_merlin_arbitrator n where
  top_priority_reg :=
    if p.PIPELINE then
      if i.increment_top_priority then
        if i.request ≠ 0#n then (a.grant p i).rotateLeft 1 else a.top_priority_reg
      else a.top_priority_reg
    else if i.increment_top_priority then
      if i.request ≠ 0#n then (a.grant p i).rotateLeft 1 else a.top_priority_reg.rotateLeft 1
    else if i.save_top_priority then a.grant p i
    else a.top_priority_reg

def reset : altera_merlin_arbitrator n := ⟨1#n⟩

end Wires

/-! ## One arbitration -/

section Grant
variable {n : ℕ} {p : Parameters} {i : Inputs n} {a : altera_merlin_arbitrator n} {turn k : Fin n}
  (hp : p.SCHEME ≠ .no_arb) (h : a.top_priority p = BitVec.twoPow n turn)
include hp h

theorem getLsbD_grant : (a.grant p i).getLsbD k = true ↔ Picks turn (ones i.request) k := by
  have hdouble : a.grant_double_vector p i = circle i.request turn := by
    rw [grant_double_vector, result, altera_merlin_arb_adder.sum_eq, h, append_twoPow, circle, BitVec.not_append]
  rw [grant, if_neg hp, hdouble, ← circle_halves]
  simp

/-- The grant is the bit of the one that is picked. -/
theorem grant_eq_twoPow : a.grant p i = BitVec.twoPow n k ↔ Picks turn (ones i.request) k := by
  have : NeZero n := ⟨k.pos.ne'⟩
  rw [eq_twoPow_iff]
  constructor
  · intro hg
    exact (getLsbD_grant hp h).1 ((hg k).2 rfl)
  · intro hk j
    rw [getLsbD_grant hp h]
    constructor
    · exact hk.unique
    · rintro rfl
      exact hk

theorem grant_cases :
    i.request = 0#n ∧ a.grant p i = 0#n ∨
      i.request ≠ 0#n ∧ ∃ k, Picks turn (ones i.request) k ∧ a.grant p i = BitVec.twoPow n k := by
  by_cases hr : i.request = 0#n
  · refine .inl ⟨hr, BitVec.eq_of_getLsbD_eq fun j hj => ?_⟩
    rw [BitVec.getLsbD_zero]
    refine Bool.eq_false_iff.2 fun hg => ?_
    have hpick := (getLsbD_grant (k := ⟨j, hj⟩) hp h).1 hg
    rw [(ones_eq_empty _).2 hr] at hpick
    exact hpick.1
  · obtain ⟨k, hk⟩ := exists_picks turn (Set.nonempty_iff_ne_empty.2 fun hempty => hr ((ones_eq_empty _).1 hempty))
    exact .inr ⟨hr, k, hk, (grant_eq_twoPow hp h).2 hk⟩

theorem grant_eq_zero : a.grant p i = 0#n ↔ i.request = 0#n := by
  rcases grant_cases hp h (i := i) with ⟨hr, hg⟩ | ⟨hr, k, -, hg⟩
  · exact iff_of_true hg hr
  · refine iff_of_false (fun hzero => ?_) hr
    have hbit := (getLsbD_twoPow_fin k k).2 rfl
    rw [← hg, hzero, BitVec.getLsbD_zero] at hbit
    cases hbit

end Grant

/-! ## Round-robin -/

section RoundRobin
variable {n : ℕ} {PIPELINE : Bool}

theorem top_priority_eq {a : altera_merlin_arbitrator n} {turn : Fin n}
    (h : a.top_priority_reg = BitVec.twoPow n turn) :
    a.top_priority ⟨.round_robin, PIPELINE⟩ = BitVec.twoPow n turn := by
  unfold top_priority
  split
  next => exact h
  next hn =>
    have hone : n = 1 := by
      have := turn.pos
      simp at hn
      omega
    subst hone
    rw [Fin.fin_one_eq_zero turn]
    rfl

section Step
variable {a : altera_merlin_arbitrator n} {turn : Fin n} (h : a.top_priority_reg = BitVec.twoPow n turn)
include h

/-- What one cycle does to the priority. -/
theorem step_cases [NeZero n] (PIPELINE : Bool) (i : Inputs n) :
    (i.request ≠ 0#n ∧ ∃ k, Picks turn (ones i.request) k ∧ a.grant ⟨.round_robin, PIPELINE⟩ i = BitVec.twoPow n k ∧
        (a.step ⟨.round_robin, PIPELINE⟩ i).top_priority_reg =
          if i.increment_top_priority then BitVec.twoPow n (k + 1 : Fin n)
          else if !PIPELINE && i.save_top_priority then BitVec.twoPow n k
          else BitVec.twoPow n turn) ∨
      (i.request = 0#n ∧ a.grant ⟨.round_robin, PIPELINE⟩ i = 0#n ∧
        (a.step ⟨.round_robin, PIPELINE⟩ i).top_priority_reg =
          if PIPELINE then BitVec.twoPow n turn
          else if i.increment_top_priority then BitVec.twoPow n (turn + 1 : Fin n)
          else if i.save_top_priority then 0#n
          else BitVec.twoPow n turn) := by
  have hcases := grant_cases (p := ⟨.round_robin, PIPELINE⟩) (i := i) (by rintro ⟨⟩) (top_priority_eq h)
  rcases hcases with ⟨hr, hg⟩ | ⟨hr, k, hk, hg⟩
  · refine .inr ⟨hr, hg, ?_⟩
    simp only [step, hr, hg, h, rotateLeft_twoPow]
    simp
  · refine .inl ⟨hr, k, hk, hg, ?_⟩
    simp only [step, hg, h, rotateLeft_twoPow, if_pos hr]
    cases PIPELINE <;> simp

end Step

section Run
variable {ins : ℕ → Inputs n} {a : ℕ → altera_merlin_arbitrator n}
  (ha : IsRun (step ⟨.round_robin, PIPELINE⟩) ins a)
  (hsave : PIPELINE = false → ∀ t, (ins t).save_top_priority = true → (ins t).request ≠ 0#n)
include ha

include hsave in
/-- The priority is one bit, whatever happens. -/
theorem exists_turn [NeZero n] (h0 : ∃ turn : Fin n, (a 0).top_priority_reg = BitVec.twoPow n turn) (t : ℕ) :
    ∃ turn : Fin n, (a t).top_priority_reg = BitVec.twoPow n turn := by
  induction t with
  | zero => exact h0
  | succ t ih =>
    obtain ⟨turn, h⟩ := ih
    rw [ha t]
    rcases step_cases h PIPELINE (ins t) with ⟨-, k, -, -, hstep⟩ | ⟨hr, -, hstep⟩
    · rw [hstep]
      split_ifs
      · exact ⟨k + 1, rfl⟩
      · exact ⟨k, rfl⟩
      · exact ⟨turn, rfl⟩
    · rw [hstep]
      split_ifs with hp hi hs
      · exact ⟨turn, rfl⟩
      · exact ⟨turn + 1, rfl⟩
      · exact absurd hr (hsave (Bool.eq_false_iff.2 hp) t hs)
      · exact ⟨turn, rfl⟩

/-- Whoever keeps requesting is passed by those only that were before it. -/
theorem count_increment [NeZero n] {turn : ℕ → Fin n} (h : ∀ t, (a t).top_priority_reg = BitVec.twoPow n (turn t))
    {j : Fin n} {m : ℕ} (hj : ∀ t < m, (ins t).request.getLsbD j = true)
    (hno : ∀ t < m, (ins t).increment_top_priority = true →
      ((a t).grant ⟨.round_robin, PIPELINE⟩ (ins t)).getLsbD j = false) :
    Nat.count (fun t => (ins t).increment_top_priority = true) m ≤ gap (turn 0) j := by
  have hstep (t : ℕ) (ht : t < m) : ∃ k, Picks (turn t) (ones (ins t).request) k ∧
      (a t).grant ⟨.round_robin, PIPELINE⟩ (ins t) = BitVec.twoPow n k ∧
      BitVec.twoPow n (turn (t + 1)) =
        if (ins t).increment_top_priority then BitVec.twoPow n (k + 1 : Fin n)
        else if !PIPELINE && (ins t).save_top_priority then BitVec.twoPow n k
        else BitVec.twoPow n (turn t) := by
    rcases step_cases (h t) PIPELINE (ins t) with ⟨-, k, hk, hg, hs⟩ | ⟨hr, -⟩
    · exact ⟨k, hk, hg, by rw [← h (t + 1), ha t, hs]⟩
    · have hj' := hj t ht
      rw [hr] at hj'
      simp at hj'
  refine (Nat.le_add_right _ _).trans (count_pass (R := fun t => ones (ins t).request) hj ?_ ?_)
  · intro t ht hpass
    obtain ⟨k, hk, -, hs⟩ := hstep t ht
    rw [if_neg hpass] at hs
    split at hs
    · rw [twoPow_injective hs]
      exact .inr hk
    · exact .inl (twoPow_injective hs)
  · intro t ht hpass
    obtain ⟨k, hk, hg, hs⟩ := hstep t ht
    rw [if_pos hpass] at hs
    refine ⟨k, hk, ?_, twoPow_injective hs⟩
    rintro rfl
    have := hno t ht hpass
    rw [hg, (getLsbD_twoPow_fin k k).2 rfl] at this
    cases this

end Run

/-- Either adder adds. In every run the priority is one bit; the grant is the bit of the first request from it on,
in the circle, or nothing where there is none; and whoever keeps requesting is passed by those only that are before
it in the circle. -/
theorem round_robin (n : ℕ) (hn : 0 < n) (PIPELINE : Bool) (ins : ℕ → Inputs n)
    (hsave : PIPELINE = false → ∀ t, (ins t).save_top_priority = true → (ins t).request ≠ 0#n) :
    let p : Parameters := ⟨.round_robin, PIPELINE⟩
    let a := run (step p) reset ins
    (∀ (w : ℕ) (b c : BitVec w), altera_merlin_arb_adder.sum b c = b + c) ∧
    ∃ turn : ℕ → Fin n, ∀ t, (a t).top_priority_reg = BitVec.twoPow n (turn t) ∧
      (∀ k : Fin n, (a t).grant p (ins t) = BitVec.twoPow n k ↔ Picks (turn t) (ones (ins t).request) k) ∧
      ((a t).grant p (ins t) = 0#n ↔ (ins t).request = 0#n) ∧
      ∀ (j : Fin n) (m : ℕ), (∀ s < m, (ins (t + s)).request.getLsbD j = true ∧
          ((ins (t + s)).increment_top_priority = true → ((a (t + s)).grant p (ins (t + s))).getLsbD j = false)) →
        Nat.count (fun s => (ins (t + s)).increment_top_priority = true) m ≤ gap (turn t) j := by
  have : NeZero n := ⟨hn.ne'⟩
  intro p a
  have ha : IsRun (step p) ins a := isRun_run _ _
  choose turn hturn using exists_turn ha hsave ⟨0, BitVec.twoPow_zero.symm⟩
  refine ⟨fun w => altera_merlin_arb_adder.sum_eq, turn, fun t => ⟨hturn t, fun k => ?_, ?_, fun j m h => ?_⟩⟩
  · exact grant_eq_twoPow (by rintro ⟨⟩) (top_priority_eq (hturn t))
  · exact grant_eq_zero (by rintro ⟨⟩) (top_priority_eq (hturn t))
  · have hat : IsRun (step p) (fun s => ins (t + s)) fun s => a (t + s) := fun s => ha (t + s)
    have hturnt (s : ℕ) : (a (t + s)).top_priority_reg = BitVec.twoPow n (turn (t + s)) := hturn (t + s)
    exact count_increment hat hturnt (fun s hs => (h s hs).1) fun s hs => (h s hs).2

/-- Two of four, of which one has just been granted. -/
theorem round_robin_four :
    let p : Parameters := ⟨.round_robin, false⟩
    let ins (t : ℕ) : Inputs 4 := ⟨5#4, t % 3 == 0, true⟩
    let a := run (step p) reset ins
    (∀ (w : ℕ) (b c : BitVec w), altera_merlin_arb_adder.sum b c = b + c) ∧
    ∃ turn : ℕ → Fin 4, ∀ t, (a t).top_priority_reg = BitVec.twoPow 4 (turn t) ∧
      (∀ k : Fin 4, (a t).grant p (ins t) = BitVec.twoPow 4 k ↔ Picks (turn t) (ones (ins t).request) k) ∧
      ((a t).grant p (ins t) = 0#4 ↔ (ins t).request = 0#4) ∧
      ∀ (j : Fin 4) (m : ℕ), (∀ s < m, (ins (t + s)).request.getLsbD j = true ∧
          ((ins (t + s)).increment_top_priority = true → ((a (t + s)).grant p (ins (t + s))).getLsbD j = false)) →
        Nat.count (fun s => (ins (t + s)).increment_top_priority = true) m ≤ gap (turn t) j :=
  round_robin 4 (by decide) false _ fun _ _ _ => (by decide : 5#4 ≠ 0#4)

end RoundRobin

end altera_merlin_arbitrator

end Aes128
