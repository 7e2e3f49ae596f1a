import Mathlib
/-!
# Units that work in rounds of two cycles

A unit is started with a job and runs `N` rounds on it. Each round takes a
`lookup` cycle, in which a table is given its address, and an `update` cycle,
in which the result is taken. A `finish` cycle ends the run, and the unit is
idle (`none`) until the next start.

`Beat.elapsed` counts the cycles from the start, and `ago` and `busy_ahead` read
it in the two directions.
-/

namespace Rounds

inductive Beat (N : ℕ) where
  | lookup (r : Fin N)
  | update (r : Fin N)
  | finish
  deriving DecidableEq

variable {N : ℕ}

namespace Beat

/-- Cycles since the start. -/
def elapsed : Beat N → ℕ
  | lookup r => 2 * r + 1
  | update r => 2 * r + 2
  | finish => 2 * N + 1

/-- Rounds are counted from 1, and the counter stands at `N + 1` in the `finish` cycle. -/
def round : Beat N → ℕ
  | lookup r => r + 1
  | update r => r + 1
  | finish => N + 1

def next : Beat N → Option (Beat N)
  | lookup r => some (update r)
  | update r => if h : r.val + 1 < N then some (lookup ⟨r.val + 1, h⟩) else some finish
  | finish => none

theorem elapsed_pos (b : Beat N) : 0 < b.elapsed := by
  cases b <;> exact Nat.succ_pos _

theorem elapsed_le (b : Beat N) : b.elapsed ≤ 2 * N + 1 := by
  cases b with
  | lookup r => have := r.isLt; simp only [elapsed]; omega
  | update r => have := r.isLt; simp only [elapsed]; omega
  | finish => exact Nat.le_refl _

theorem round_mem (b : Beat N) : 1 ≤ b.round ∧ b.round ≤ N + 1 := by
  cases b with
  | lookup r => have := r.isLt; simp only [round]; omega
  | update r => have := r.isLt; simp only [round]; omega
  | finish => simp only [round]; omega

theorem elapsed_injective : Function.Injective (elapsed (N := N)) := by
  intro b c h
  rcases b with r | r | _ <;> rcases c with q | q | _ <;> simp only [elapsed] at h <;>
    first | rfl | omega | exact congrArg _ (Fin.ext (by omega))

theorem elapsed_next {b c : Beat N} (h : b.next = some c) : c.elapsed = b.elapsed + 1 := by
  cases b with
  | lookup r => cases h; rfl
  | update r =>
    simp only [next] at h
    split at h <;> cases h <;> have := r.isLt <;> simp only [elapsed] <;> omega
  | finish => cases h

theorem next_eq_none {b : Beat N} : b.next = none ↔ b = finish := by
  cases b with
  | lookup r => simp [next]
  | update r => simp only [next]; split <;> simp
  | finish => simp [next]

theorem ne_finish_of_next {b c : Beat N} (h : b.next = some c) : b ≠ finish := by
  rintro rfl
  cases h

theorem next_update (r : Fin N) : ∃ c, (update r).next = some c ∧ c.round = r + 2 := by
  simp only [next]
  split
  · exact ⟨_, rfl, rfl⟩
  · exact ⟨_, rfl, by have := r.isLt; simp only [round]; omega⟩

end Beat

open Beat

/-! ## Units -/

variable {α : Type*} [NeZero N]

/-- The unit one cycle later: `start` is the job it is started with, if any. -/
def advance (start : Option α) : Option (α × Beat N) → Option (α × Beat N)
  | none => start.map fun a => (a, lookup 0)
  | some (a, b) => b.next.map fun c => (a, c)

theorem advance_eq_update {start : Option α} {u : Option (α × Beat N)} {a : α} {r : Fin N}
    (h : advance start u = some (a, update r)) : u = some (a, lookup r) := by
  rcases u with _ | ⟨a', b⟩
  · rw [advance, Option.map_eq_some_iff] at h
    obtain ⟨_, _, ⟨⟩⟩ := h
  · rw [advance, Option.map_eq_some_iff] at h
    obtain ⟨c, hc, ⟨⟩⟩ := h
    cases b with
    | lookup q => cases hc; rfl
    | update q => simp only [next] at hc; split at hc <;> cases hc
    | finish => cases hc

variable {start : ℕ → Option α} {u : ℕ → Option (α × Beat N)}

/-- Where a busy unit comes from: it was started with its job `elapsed` cycles ago, and has
been busy since. -/
theorem ago (hu : ∀ n, u (n + 1) = advance (start n) (u n)) (h0 : u 0 = none) {n : ℕ} {a : α} {b : Beat N}
    (hb : u n = some (a, b)) :
    ∃ p, n = p + b.elapsed ∧ start p = some a ∧ ∀ j, p < j → j ≤ n → ∃ c, u j = some (a, c) := by
  induction n generalizing b with
  | zero => rw [h0] at hb; cases hb
  | succ n ih =>
    rw [hu] at hb
    rcases hn : u n with _ | ⟨a', c⟩
    · rw [hn, advance, Option.map_eq_some_iff] at hb
      obtain ⟨_, hs, ⟨⟩⟩ := hb
      refine ⟨n, rfl, hs, fun j hj hjn => ⟨lookup 0, ?_⟩⟩
      rw [show j = n + 1 by omega, hu, hn, advance, hs, Option.map_some]
    · rw [hn, advance, Option.map_eq_some_iff] at hb
      obtain ⟨_, hc, ⟨⟩⟩ := hb
      obtain ⟨p, hp, hs, hbusy⟩ := ih hn
      refine ⟨p, by rw [elapsed_next hc]; omega, hs, fun j hj hjn => ?_⟩
      rcases Nat.le_succ_iff.1 hjn with hjn | rfl
      · exact hbusy j hj hjn
      · exact ⟨b, by rw [hu, hn, advance, hc, Option.map_some]⟩

/-- A busy unit keeps its job, and is one beat further each cycle. -/
theorem busy_ahead (hu : ∀ n, u (n + 1) = advance (start n) (u n)) {n : ℕ} {a : α} {b : Beat N}
    (hb : u n = some (a, b)) {k : ℕ} (hk : b.elapsed + k ≤ 2 * N + 1) :
    ∃ c, u (n + k) = some (a, c) ∧ c.elapsed = b.elapsed + k := by
  induction k with
  | zero => exact ⟨b, hb, rfl⟩
  | succ k ih =>
    obtain ⟨c, hc, hce⟩ := ih (by omega)
    rcases hn : c.next with _ | d
    · rw [next_eq_none.1 hn, elapsed] at hce
      omega
    · refine ⟨d, ?_, by rw [elapsed_next hn, hce, Nat.add_assoc]⟩
      rw [← Nat.add_assoc, hu, hc, advance, hn, Option.map_some]

/-- A busy unit gets to its `finish` cycle. -/
theorem finish_ahead (hu : ∀ n, u (n + 1) = advance (start n) (u n)) {n : ℕ} {a : α} {b : Beat N}
    (hb : u n = some (a, b)) :
    u (n + (2 * N + 1 - b.elapsed)) = some (a, finish) ∧
      ∀ j < 2 * N + 1 - b.elapsed, ∃ c, u (n + j) = some (a, c) ∧ c ≠ finish := by
  have hle := b.elapsed_le
  constructor
  · obtain ⟨c, hc, hce⟩ := busy_ahead hu hb (k := 2 * N + 1 - b.elapsed) (by omega)
    have hf : c = finish := elapsed_injective (by rw [hce, elapsed]; omega)
    rw [hc, hf]
  · intro j hj
    obtain ⟨c, hc, hce⟩ := busy_ahead hu hb (k := j) (by omega)
    refine ⟨c, hc, ?_⟩
    rintro rfl
    change 2 * N + 1 = _ at hce
    omega

/-- A busy unit gets to its `finish` cycle, busy all the time, and is idle after it. -/
theorem busy_ends (hu : ∀ n, u (n + 1) = advance (start n) (u n)) {n : ℕ} (hn : (u n).isSome = true) :
    ∃ m, n ≤ m ∧ m ≤ n + 2 * N ∧ (∃ a, u m = some (a, finish)) ∧
      (∀ j, n ≤ j → j ≤ m → (u j).isSome = true) ∧ u (m + 1) = none := by
  obtain ⟨⟨a, b⟩, hb⟩ := Option.isSome_iff_exists.1 hn
  obtain ⟨hf, hbefore⟩ := finish_ahead hu hb
  have hpos := b.elapsed_pos
  refine ⟨n + (2 * N + 1 - b.elapsed), by omega, by omega, ⟨a, hf⟩, fun j hj hjm => ?_, ?_⟩
  · obtain ⟨k, rfl⟩ := Nat.exists_eq_add_of_le hj
    rcases Nat.eq_or_lt_of_le hjm with hjm | hjm
    · rw [hjm, hf]
      rfl
    · obtain ⟨c, hc, -⟩ := hbefore k (by omega)
      rw [hc]
      rfl
  · rw [hu, hf]
    rfl

/-- A unit started at `p` is in its `finish` cycle `2 * N + 1` cycles later, and not before. -/
theorem ahead_finish (hu : ∀ n, u (n + 1) = advance (start n) (u n)) {p : ℕ} {a : α} (hp : u p = none)
    (hs : start p = some a) :
    u (p + (2 * N + 1)) = some (a, finish) ∧
      ∀ j, p < j → j < p + (2 * N + 1) → ∃ b, u j = some (a, b) ∧ b ≠ finish := by
  have h1 : u (p + 1) = some (a, lookup 0) := by rw [hu, hp, advance, hs, Option.map_some]
  have he : 2 * N + 1 - (lookup (0 : Fin N)).elapsed = 2 * N := by simp [elapsed]
  obtain ⟨hf, hbefore⟩ := finish_ahead hu h1
  rw [he] at hf hbefore
  constructor
  · rw [← hf]
    congr 1
    omega
  · intro j hj hjn
    obtain ⟨k, rfl⟩ := Nat.exists_eq_add_of_lt hj
    obtain ⟨b, hb, hne⟩ := hbefore k (by omega)
    exact ⟨b, by rw [← hb]; congr 1; omega, hne⟩

end Rounds
