import Mathlib.Algebra.BigOperators.Group.Finset.Piecewise
import Mathlib.Data.Nat.Count
import Mathlib.Tactic.Common
/-!
# Counting events

`Nat.count P n` is the number of the cycles before `n` with `P`. Two ways to
account for them: events of one kind that follow those of another at a fixed
distance, and a balance that every cycle keeps.
-/

namespace Counting

open Finset

variable {P Q : ℕ → Prop} [DecidablePred P] [DecidablePred Q]

/-! ## Events at a distance -/

/-- Every `P` is followed by a `Q` at the distance `d`, and every `Q` follows a `P`. -/
theorem count_add_eq {d : ℕ} (h : ∀ n, Q (n + d) ↔ P n) (h0 : ∀ n < d, ¬ Q n) (n : ℕ) :
    Nat.count Q (n + d) = Nat.count P n := by
  rw [Nat.count_add', Nat.count_iff_forall_not.2 h0, Nat.add_zero]
  exact Nat.le_antisymm (Nat.count_mono_left fun k _ => (h k).1) (Nat.count_mono_left fun k _ => (h k).2)

/-! ## Balances -/

theorem count_eq_sum (P : ℕ → Prop) [DecidablePred P] (n : ℕ) :
    Nat.count P n = ∑ j ∈ range n, if P j then 1 else 0 := by
  rw [Nat.count_eq_card_filter_range, card_filter]

/-- What has come in is what has gone out and what is still there. -/
theorem balance {f c d : ℕ → ℕ} (h : ∀ n, f (n + 1) + d n = f n + c n) (n : ℕ) :
    f n + ∑ j ∈ range n, d j = f 0 + ∑ j ∈ range n, c j := by
  induction n with
  | zero => rfl
  | succ n ih =>
    have hn := h n
    rw [sum_range_succ, sum_range_succ]
    omega

end Counting
