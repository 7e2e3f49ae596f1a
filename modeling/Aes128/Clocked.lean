import Mathlib.Data.Nat.Find
import Mathlib.Tactic.Common
import Mathlib.Order.Basic
/-!
# Runs of clocked machines

A machine is a step function from an input and a state to the next state. A
`run` gives it one input per cycle; `run step s ins n` is the state in cycle
`n`, before the clock edge that ends it.

`IsLast P k n` is the most recent event before cycle `n`: a register that is
loaded at the events holds the value of that one.
-/

namespace Clocked

variable {I J S T V : Type*} {step : I → S → S}

/-! ## Runs -/

/-- The state in cycle `n` of the run from `s`. -/
def run (step : I → S → S) (s : S) (ins : ℕ → I) : ℕ → S
  | 0 => s
  | n + 1 => step (ins n) (run step s ins n)

theorem run_succ (s : S) (ins : ℕ → I) (n : ℕ) : run step s ins (n + 1) = step (ins n) (run step s ins n) := rfl

/-- A run goes on from where it is. -/
theorem run_add (s : S) (ins : ℕ → I) (m n : ℕ) :
    run step s ins (m + n) = run step (run step s ins m) (fun j => ins (m + j)) n := by
  induction n with
  | zero => rfl
  | succ n ih => rw [← Nat.add_assoc, run_succ, ih, run_succ]

/-- Two machines that do the same in every cycle. -/
theorem run_congr {step' : J → S → S} {s : S} {ins : ℕ → I} {jns : ℕ → J} {n : ℕ}
    (h : ∀ j < n, ∀ s, step (ins j) s = step' (jns j) s) : run step s ins n = run step' s jns n := by
  induction n with
  | zero => rfl
  | succ n ih => rw [run_succ, run_succ, ih fun j hj => h j (by omega), h n (Nat.lt_succ_self n)]

/-- A sequence of states in which every cycle is a step. -/
def IsRun (step : I → S → S) (ins : ℕ → I) (st : ℕ → S) : Prop := ∀ n, st (n + 1) = step (ins n) (st n)

theorem isRun_run (s : S) (ins : ℕ → I) : IsRun step ins (run step s ins) := fun _ => rfl

/-- An invariant kept by every step holds in every cycle. -/
theorem run_inv (Inv : S → Prop) {s : S} (h0 : Inv s) (hs : ∀ i s, Inv s → Inv (step i s)) (ins : ℕ → I) (n : ℕ) :
    Inv (run step s ins n) := by
  induction n with
  | zero => exact h0
  | succ n ih => exact hs _ _ ih

/-- Two machines in lockstep: a relation kept by every pair of steps on related inputs. -/
theorem run_rel {step' : J → T → T} (R : S → T → Prop) (Q : I → J → Prop) {s : S} {t : T} {ins : ℕ → I} {jns : ℕ → J}
    (h0 : R s t) (hs : ∀ i j s t, Q i j → R s t → R (step i s) (step' j t)) (hq : ∀ n, Q (ins n) (jns n)) (n : ℕ) :
    R (run step s ins n) (run step' t jns n) := by
  induction n with
  | zero => exact h0
  | succ n ih => exact hs _ _ _ _ (hq n) ih

/-! ## Progress -/

/-- An invariant and a measure that falls until the event lead to it. -/
theorem leads_to {P Q : ℕ → Prop} {f : ℕ → ℕ} {n : ℕ} (hn : Q n)
    (hs : ∀ j, n ≤ j → Q j → ¬ P j → Q (j + 1) ∧ f (j + 1) < f j) :
    ∃ m, n ≤ m ∧ m ≤ n + f n ∧ Q m ∧ P m := by
  generalize hr : f n = r
  induction r using Nat.strongRecOn generalizing n with
  | ind r ih =>
    by_cases hP : P n
    · exact ⟨n, Nat.le_refl n, Nat.le_add_right n r, hn, hP⟩
    · obtain ⟨hn', hlt⟩ := hs n (Nat.le_refl n) hn hP
      rw [hr] at hlt
      obtain ⟨m, hm, hm', hQ, hP⟩ := ih _ hlt hn' (fun j hj => hs j (by omega)) rfl
      exact ⟨m, by omega, by omega, hQ, hP⟩

theorem exists_first {P : ℕ → Prop} {n : ℕ} (h : ∃ m ≥ n, P m) : ∃ m ≥ n, P m ∧ ∀ j, n ≤ j → j < m → ¬ P j := by
  classical
  obtain ⟨hm, hP⟩ := Nat.find_spec h
  exact ⟨Nat.find h, hm, hP, fun j hj hjm hPj => Nat.find_min h hjm ⟨hj, hPj⟩⟩

/-! ## Reachable states -/

/-- The states of the runs from the states of `init`. -/
inductive Reachable (init : S → Prop) (step : I → S → S) : S → Prop
  | init {s : S} : init s → Reachable init step s
  | step {s : S} (i : I) : Reachable init step s → Reachable init step (step i s)

theorem Reachable.run {init : S → Prop} {s : S} (h : Reachable init step s) (ins : ℕ → I) (n : ℕ) :
    Reachable init step (run step s ins n) :=
  run_inv (Reachable init step) h (fun i _ => .step i) ins n

/-! ## The most recent event -/

/-- `k` is the last cycle before `n` with `P`. -/
def IsLast (P : ℕ → Prop) (k n : ℕ) : Prop := k < n ∧ P k ∧ ∀ j, k < j → j < n → ¬ P j

variable {P : ℕ → Prop}

theorem isLast_self {n : ℕ} (h : P n) : IsLast P n (n + 1) :=
  ⟨Nat.lt_succ_self n, h, fun _ _ _ => by omega⟩

/-- A cycle without the event changes nothing. -/
theorem IsLast.succ {k n : ℕ} (h : IsLast P k n) (hn : ¬ P n) : IsLast P k (n + 1) := by
  obtain ⟨hk, hP, hlast⟩ := h
  refine ⟨by omega, hP, fun j hkj hj => ?_⟩
  rcases Nat.lt_succ_iff_lt_or_eq.1 hj with hj | rfl
  · exact hlast j hkj hj
  · exact hn

theorem IsLast.of_succ {k n : ℕ} (h : IsLast P k (n + 1)) : (k = n ∧ P n) ∨ (IsLast P k n ∧ ¬ P n) := by
  obtain ⟨hk, hP, hlast⟩ := h
  rcases Nat.lt_succ_iff_lt_or_eq.1 hk with hk | rfl
  · exact .inr ⟨⟨hk, hP, fun j hkj hj => hlast j hkj (by omega)⟩, hlast n hk (Nat.lt_succ_self n)⟩
  · exact .inl ⟨rfl, hP⟩

theorem exists_isLast {m n : ℕ} (hm : m < n) (hP : P m) : ∃ k, IsLast P k n := by
  induction n with
  | zero => omega
  | succ n ih =>
    by_cases hn : P n
    · exact ⟨n, isLast_self hn⟩
    · rcases Nat.lt_succ_iff_lt_or_eq.1 hm with hm | rfl
      · obtain ⟨k, hk⟩ := ih hm
        exact ⟨k, hk.succ hn⟩
      · exact absurd hP hn

/-- Only the cycles before count. -/
theorem IsLast.congr {Q : ℕ → Prop} {k n : ℕ} (hQ : ∀ j < n, Q j ↔ P j) (h : IsLast P k n) : IsLast Q k n := by
  obtain ⟨hk, hP, hlast⟩ := h
  exact ⟨hk, (hQ k hk).2 hP, fun j hkj hj hQj => hlast j hkj hj ((hQ j hj).1 hQj)⟩

theorem IsLast.unique {j k n : ℕ} (hj : IsLast P j n) (hk : IsLast P k n) : j = k := by
  obtain ⟨hjn, hPj, hjlast⟩ := hj
  obtain ⟨hkn, hPk, hklast⟩ := hk
  rcases Nat.lt_trichotomy j k with hlt | heq | hgt
  · exact absurd hPk (hjlast k hlt hkn)
  · exact heq
  · exact absurd hPj (hklast j hgt hjn)

/-- A register that takes `v` at the events holds the value of the last one. -/
theorem IsLast.held {f v : ℕ → V} (load : ∀ n, P n → f (n + 1) = v n) (hold : ∀ n, ¬ P n → f (n + 1) = f n)
    {k n : ℕ} (h : IsLast P k n) : f n = v k := by
  induction n with
  | zero => exact absurd h.1 (Nat.not_lt_zero k)
  | succ n ih =>
    rcases h.of_succ with ⟨rfl, hP⟩ | ⟨h, hP⟩
    · exact load k hP
    · rw [hold n hP, ih h]

/-- A register that no event touches from `m` on. -/
theorem unchanged {f : ℕ → V} (hold : ∀ n, ¬ P n → f (n + 1) = f n) {m n : ℕ} (hmn : m ≤ n)
    (h : ∀ j, m ≤ j → j < n → ¬ P j) : f n = f m := by
  induction n with
  | zero => rw [Nat.le_zero.1 hmn]
  | succ n ih =>
    rcases Nat.le_succ_iff.1 hmn with hmn | rfl
    · rw [hold n (h n hmn (Nat.lt_succ_self n)), ih hmn fun j hj hjn => h j hj (by omega)]
    · rfl

/-- `y` is the value that the last event before `n` gave, or `v₀` when there was none. -/
def Latest (P : ℕ → Prop) (v : ℕ → V) (v₀ : V) (n : ℕ) (y : V) : Prop :=
  (∃ k, IsLast P k n ∧ y = v k) ∨ ((∀ j < n, ¬ P j) ∧ y = v₀)

/-- A register that takes `v` at the events. -/
theorem latest {f v : ℕ → V} (load : ∀ n, P n → f (n + 1) = v n) (hold : ∀ n, ¬ P n → f (n + 1) = f n) (n : ℕ) :
    Latest P v (f 0) n (f n) := by
  by_cases h : ∃ j < n, P j
  · obtain ⟨j, hj, hP⟩ := h
    obtain ⟨k, hk⟩ := exists_isLast hj hP
    exact .inl ⟨k, hk, hk.held load hold⟩
  · have hnone (j : ℕ) (hj : j < n) : ¬ P j := fun hP => h ⟨j, hj, hP⟩
    exact .inr ⟨hnone, unchanged hold (Nat.zero_le n) fun j _ => hnone j⟩

theorem Latest.unique {v : ℕ → V} {v₀ : V} {n : ℕ} {y z : V} (hy : Latest P v v₀ n y) (hz : Latest P v v₀ n z) :
    y = z := by
  rcases hy with ⟨j, hj, rfl⟩ | ⟨hnone, rfl⟩ <;> rcases hz with ⟨k, hk, rfl⟩ | ⟨hnone', rfl⟩
  · rw [hj.unique hk]
  · exact absurd hj.2.1 (hnone' j hj.1)
  · exact absurd hk.2.1 (hnone k hk.1)
  · rfl

theorem Latest.congr {Q : ℕ → Prop} {u v : ℕ → V} {v₀ : V} {n : ℕ} {y : V} (hQ : ∀ j < n, Q j ↔ P j)
    (hv : ∀ j < n, u j = v j) (h : Latest P v v₀ n y) : Latest Q u v₀ n y := by
  rcases h with ⟨k, hk, rfl⟩ | ⟨hnone, rfl⟩
  · exact .inl ⟨k, hk.congr hQ, (hv k hk.1).symm⟩
  · exact .inr ⟨fun j hj hQj => hnone j hj ((hQ j hj).1 hQj), rfl⟩

/-- The same events, seen one cycle later. -/
theorem Latest.of_succ {Q : ℕ → Prop} {u v : ℕ → V} {v₀ : V} {n : ℕ} {y : V} (h0 : ¬ Q 0)
    (hQ : ∀ j, Q (j + 1) ↔ P j) (hv : ∀ j, P j → u (j + 1) = v j) (h : Latest Q u v₀ (n + 1) y) :
    Latest P v v₀ n y := by
  rcases h with ⟨k, ⟨hk, hQk, hlast⟩, rfl⟩ | ⟨hnone, rfl⟩
  · rcases k with _ | k
    · exact absurd hQk h0
    · have hP := (hQ k).1 hQk
      exact .inl ⟨k, ⟨by omega, hP, fun j hj hjn hPj => hlast (j + 1) (by omega) (by omega) ((hQ j).2 hPj)⟩, hv k hP⟩
  · exact .inr ⟨fun j hj hPj => hnone (j + 1) (by omega) ((hQ j).2 hPj), rfl⟩

end Clocked
