import Mathlib
/-!
# Turns in a circle

Round-robin among `n` places: the one that is served is the first at or after the
turn that asks, and the turn goes on to the place behind it. Whoever asks comes
nearer with every service of another, so fewer than `n` are served before it.

`FirstBit` makes the choice by an addition: `x & (~x + 2 ^ p)` is the first bit of
`x` from `p` on, and with `x` twice in a row it is the first one in the circle.
-/

namespace RoundRobin

variable {n : ℕ} {p j k : Fin n} {R : Set (Fin n)}

/-- How far `j` is after `p`. -/
def gap (p j : Fin n) : ℕ := (j - p).val

theorem gap_lt (p j : Fin n) : gap p j < n := (j - p).isLt

theorem gap_of_le (h : p ≤ j) : gap p j = j - p := Fin.sub_val_of_le h

theorem gap_of_lt (h : j < p) : gap p j = n + j - p := Fin.coe_sub_iff_lt.2 h

/-- `k` is the first of `R` from `p` on. -/
def Picks (p : Fin n) (R : Set (Fin n)) (k : Fin n) : Prop := k ∈ R ∧ ∀ j ∈ R, gap p k ≤ gap p j

theorem exists_picks (p : Fin n) (h : R.Nonempty) : ∃ k, Picks p R k := by
  obtain ⟨k, hk, hmin⟩ := Set.exists_min_image R (gap p) (Set.toFinite R) h
  exact ⟨k, hk, hmin⟩

variable [NeZero n]

theorem gap_injective (p : Fin n) : Function.Injective (gap p) := by
  intro j k h
  exact sub_left_injective (Fin.ext h)

theorem Picks.unique (hj : Picks p R j) (hk : Picks p R k) : j = k :=
  gap_injective p (Nat.le_antisymm (hj.2 k hk.1) (hk.2 j hj.1))

/-- The place at the turn, when it asks. -/
theorem Picks.of_turn (h : p ∈ R) : Picks p R p := by
  refine ⟨h, fun j _ => ?_⟩
  rw [gap, sub_self]
  exact Nat.zero_le _

/-! ## Waiting -/

/-- From a place before `j`. -/
theorem gap_from (h : gap p k ≤ gap p j) : gap k j + gap p k = gap p j := by
  have hval : (j - k).val = (j - p).val - (k - p).val := by
    rw [← sub_sub_sub_cancel_right j k p]
    exact Fin.sub_val_of_le h
  unfold gap at h ⊢
  omega

/-- From behind another place. -/
theorem gap_behind (h : k ≠ j) : gap (k + 1) j + 1 = gap k j := by
  have hpos : 0 < (j - k).val := Nat.pos_of_ne_zero fun h0 => sub_ne_zero.2 h.symm (Fin.ext h0)
  have hone : (1 : Fin n).val = 1 := by
    have := (j - k).isLt
    rw [Fin.val_one', Nat.mod_eq_of_lt (by omega)]
  have hval : (j - (k + 1)).val = (j - k).val - (1 : Fin n).val := by
    rw [← sub_sub]
    exact Fin.sub_val_of_le (by rw [Fin.le_def, hone]; exact hpos)
  unfold gap
  omega

/-- The turn stays with the one that is served: nobody that asks is farther away than before. -/
theorem Picks.stay (h : Picks p R k) (hj : j ∈ R) : gap k j ≤ gap p j := by
  have := gap_from (h.2 j hj)
  omega

/-- The turn goes behind the one that is served: everybody else that asks is nearer. -/
theorem Picks.pass (h : Picks p R k) (hj : j ∈ R) (hne : k ≠ j) : gap (k + 1) j + 1 ≤ gap p j := by
  have := gap_from (h.2 j hj)
  have := gap_behind hne
  omega

/-- Those that are served before `j`, and those that are still before it, are no more than were before it at first. -/
theorem count_pass {p : ℕ → Fin n} {R : ℕ → Set (Fin n)} {pass : ℕ → Prop} [DecidablePred pass] {m : ℕ}
    (hj : ∀ t < m, j ∈ R t) (hhold : ∀ t < m, ¬ pass t → p (t + 1) = p t ∨ Picks (p t) (R t) (p (t + 1)))
    (hpass : ∀ t < m, pass t → ∃ k, Picks (p t) (R t) k ∧ k ≠ j ∧ p (t + 1) = k + 1) :
    Nat.count pass m + gap (p m) j ≤ gap (p 0) j := by
  induction m with
  | zero => simp
  | succ m ih =>
    have hm := Nat.lt_succ_self m
    have hle := ih (fun t ht => hj t (by omega)) (fun t ht => hhold t (by omega)) fun t ht => hpass t (by omega)
    rw [Nat.count_succ]
    split
    next hp =>
      obtain ⟨k, hk, hne, hturn⟩ := hpass m hm hp
      have := hk.pass (hj m hm) hne
      rw [hturn]
      omega
    next hp =>
      rcases hhold m hm hp with hturn | hturn
      · rw [hturn]
        exact hle
      · have := hturn.stay (hj m hm)
        omega

end RoundRobin

namespace FirstBit

open RoundRobin

/-! ## The first bit from a place on -/

section Line
variable {w p : ℕ}

/-- The carry of `2 ^ p` goes through the ones from `p` on. -/
theorem carry_twoPow (hp : p < w) (x : BitVec w) (i : ℕ) :
    BitVec.carry i x (BitVec.twoPow w p) false = true ↔ p < i ∧ ∀ j, p ≤ j → j < i → x.getLsbD j = true := by
  induction i with
  | zero => simp
  | succ i ih =>
    rw [BitVec.carry_succ, BitVec.getLsbD_twoPow, decide_eq_true hp, Bool.true_and]
    by_cases hi : p = i
    · subst hi
      have hc : BitVec.carry p x (BitVec.twoPow w p) false = false := by
        rw [← Bool.not_eq_true, ih]
        exact fun h => Nat.lt_irrefl p h.1
      rw [hc, decide_eq_true rfl, Bool.atLeastTwo_false_right, Bool.and_true]
      constructor
      · intro h
        refine ⟨Nat.lt_succ_self p, fun j hj hji => ?_⟩
        rwa [show j = p by omega]
      · exact fun h => h.2 p (Nat.le_refl p) (Nat.lt_succ_self p)
    · rw [decide_eq_false hi, Bool.atLeastTwo_false_mid, Bool.and_eq_true, ih]
      constructor
      · rintro ⟨hx, hlt, hall⟩
        refine ⟨Nat.lt_succ_of_lt hlt, fun j hj hji => ?_⟩
        rcases Nat.lt_succ_iff_lt_or_eq.1 hji with hji | rfl
        · exact hall j hj hji
        · exact hx
      · rintro ⟨hlt, hall⟩
        exact ⟨hall i (by omega) (Nat.lt_succ_self i), by omega, fun j hj hji => hall j hj (by omega)⟩

theorem getLsbD_first (hp : p < w) (x : BitVec w) (i : ℕ) :
    (x &&& (~~~x + BitVec.twoPow w p)).getLsbD i = true ↔
      p ≤ i ∧ x.getLsbD i = true ∧ ∀ j, p ≤ j → j < i → x.getLsbD j = false := by
  by_cases hx : x.getLsbD i = true
  · have hi : i < w := BitVec.lt_of_getLsbD hx
    have hcarry : BitVec.carry i (~~~x) (BitVec.twoPow w p) false = true ↔
        p < i ∧ ∀ j, p ≤ j → j < i → x.getLsbD j = false := by
      rw [carry_twoPow hp]
      refine and_congr_right fun _ => forall_congr' fun j => forall_congr' fun _ => forall_congr' fun hj => ?_
      simp [show j < w by omega]
    rw [BitVec.getLsbD_and, BitVec.getLsbD_add hi, BitVec.getLsbD_not, BitVec.getLsbD_twoPow, hx]
    by_cases hpi : p = i
    · subst hpi
      have hc : BitVec.carry p (~~~x) (BitVec.twoPow w p) false = false := by
        rw [← Bool.not_eq_true, hcarry]
        exact fun h => Nat.lt_irrefl p h.1
      rw [hc]
      simp [hp]
      omega
    · simp [hpi, hcarry, hi]
      omega
  · simp [hx]

end Line

/-! ## The first bit in the circle -/

section Circle
variable {n : ℕ} (x : BitVec n) (p k : Fin n)

/-- The places of the ones. -/
def ones (x : BitVec n) : Set (Fin n) := {k | x.getLsbD k = true}

theorem ones_eq_empty : ones x = ∅ ↔ x = 0#n := by
  constructor
  · intro h
    refine BitVec.eq_of_getLsbD_eq fun j hj => ?_
    rw [BitVec.getLsbD_zero]
    exact Bool.eq_false_iff.2 (Set.eq_empty_iff_forall_notMem.1 h ⟨j, hj⟩)
  · rintro rfl
    simp [ones]

/-- The sum on `x` twice in a row. -/
def circle (p : Fin n) : BitVec (n + n) := (x ++ x) &&& (~~~(x ++ x) + BitVec.twoPow (n + n) p)

theorem getLsbD_twice : (x ++ x).getLsbD (p + gap p k) = x.getLsbD k := by
  rw [BitVec.getLsbD_append]
  rcases Fin.le_or_lt p k with h | h
  · rw [gap_of_le h, if_pos (by omega)]
    congr 1
    omega
  · rw [gap_of_lt h, if_neg (by omega)]
    congr 1
    omega

theorem getLsbD_circle : (circle x p).getLsbD (p + gap p k) = true ↔ Picks p (ones x) k := by
  have : NeZero n := ⟨p.pos.ne'⟩
  rw [circle, getLsbD_first (by omega), getLsbD_twice]
  constructor
  · rintro ⟨-, hk, hfirst⟩
    refine ⟨hk, fun j hj => Nat.le_of_not_lt fun hlt => ?_⟩
    have hj' : x.getLsbD j = false := by
      rw [← getLsbD_twice x p j]
      exact hfirst _ (Nat.le_add_right _ _) (by omega)
    exact absurd (hj.symm.trans hj') (by decide)
  · rintro ⟨hk, hmin⟩
    refine ⟨Nat.le_add_right _ _, hk, fun i hpi hi => ?_⟩
    have := gap_lt p k
    have hgap : gap p (p + ⟨i - p, by omega⟩) = i - p := by rw [gap, add_sub_cancel_left]
    rw [← Bool.not_eq_true, show i = p + gap p (p + ⟨i - p, by omega⟩) by omega, getLsbD_twice]
    intro hx
    have := hmin _ hx
    omega

/-- One half or the other has it. -/
theorem circle_halves :
    (circle x p).getLsbD k = true ∨ (circle x p).getLsbD (n + k) = true ↔ Picks p (ones x) k := by
  rw [← getLsbD_circle]
  rcases Fin.le_or_lt p k with h | h
  · rw [show p.val + gap p k = k by rw [gap_of_le h]; omega]
    refine or_iff_left_of_imp fun hk => ?_
    rw [circle, getLsbD_first (by omega), BitVec.getLsbD_append, if_neg (by omega), Nat.add_sub_cancel_left] at hk
    obtain ⟨-, hx, hfirst⟩ := hk
    have hx' := hfirst k h (by omega)
    rw [BitVec.getLsbD_append, if_pos k.isLt, hx] at hx'
    cases hx'
  · rw [show p.val + gap p k = n + k by rw [gap_of_lt h]; omega]
    refine or_iff_right fun hk => ?_
    rw [circle, getLsbD_first (by omega)] at hk
    omega

end Circle

/-! ## The turn as a bit -/

section OneBit
variable {n : ℕ}

theorem getLsbD_twoPow_fin (k j : Fin n) : (BitVec.twoPow n k).getLsbD j = true ↔ k = j := by
  rw [BitVec.getLsbD_twoPow, decide_eq_true k.isLt, Bool.true_and, decide_eq_true_eq, Fin.val_inj]

/-- The bits that are 0 but for one. -/
theorem eq_twoPow_iff {x : BitVec n} {k : Fin n} :
    x = BitVec.twoPow n k ↔ ∀ j : Fin n, x.getLsbD j = true ↔ k = j := by
  constructor
  · rintro rfl j
    exact getLsbD_twoPow_fin k j
  · intro h
    apply BitVec.eq_of_getLsbD_eq
    intro j hj
    rw [Bool.eq_iff_iff, h ⟨j, hj⟩, ← getLsbD_twoPow_fin]

theorem twoPow_injective {j k : Fin n} (h : BitVec.twoPow n j = BitVec.twoPow n k) : j = k :=
  (getLsbD_twoPow_fin j k).1 (h ▸ (getLsbD_twoPow_fin k k).2 rfl)

theorem append_twoPow (k : Fin n) : 0#n ++ BitVec.twoPow n k = BitVec.twoPow (n + n) k := by
  apply BitVec.eq_of_getLsbD_eq
  intro j hj
  rw [BitVec.getLsbD_append, BitVec.getLsbD_twoPow, BitVec.getLsbD_twoPow]
  split
  · simp [show k.val < n + n by omega]
  · simp
    omega

theorem rotateLeft_twoPow [NeZero n] (k : Fin n) :
    (BitVec.twoPow n k).rotateLeft 1 = BitVec.twoPow n (k + 1 : Fin n) := by
  rw [eq_twoPow_iff]
  intro j
  rw [BitVec.getLsbD_rotateLeft, Fin.ext_iff, Fin.val_add, Fin.val_one', Nat.add_mod_mod]
  have hj := j.isLt
  rcases Nat.lt_or_eq_of_le (NeZero.one_le (n := n)) with hn | rfl
  · rw [Nat.mod_eq_of_lt hn, Bool.cond_eq_ite, BitVec.getLsbD_twoPow, BitVec.getLsbD_twoPow, decide_eq_true k.isLt]
    rcases Nat.lt_or_eq_of_le (Nat.succ_le_of_lt k.isLt) with hk | hk
    · rw [Nat.mod_eq_of_lt hk]
      split <;> grind
    · rw [← Nat.succ_eq_add_one, hk, Nat.mod_self]
      split <;> grind
  · simp

end OneBit
end FirstBit
