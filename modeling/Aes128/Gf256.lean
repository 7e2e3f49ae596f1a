import Mathlib
/-!
# The field GF(2^8)

A byte is a polynomial over GF(2) of degree below 8, bit `i` the coefficient
of `t^i` (`toPoly`). The product of two bytes is the carry-less product of the
polynomials, reduced by long division modulo `t^8 + t^4 + t^3 + t + 1`.

`toField` maps a byte to its class in the quotient ring. It is injective and
turns `^^^` and `mul` into `+` and `*`, so the laws of `mul` are those of the
ring.
-/

open Polynomial

namespace Gf256

/-! ## The product -/

/-- The product of two polynomials of degree below 8. -/
def clmul (a b : BitVec 8) : BitVec 16 :=
  (List.range 8).foldl (fun p i => if a.getLsbD i then p ^^^ (b.setWidth 16 <<< i) else p) 0#16

/-- `t^8 + t^4 + t^3 + t + 1`. -/
def modulus : BitVec 9 := 0x11b#9

/-- Step `i` of the long division by `modulus`: clear coefficient `15 - i`. -/
def divStep (p : BitVec 16) (i : Nat) : BitVec 16 :=
  if p.getLsbD (15 - i) then p ^^^ (modulus.setWidth 16 <<< (7 - i)) else p

/-- The remainder modulo `modulus`. -/
def reduce (p : BitVec 16) : BitVec 8 := ((List.range 8).foldl divStep p).setWidth 8

def mul (a b : BitVec 8) : BitVec 8 := reduce (clmul a b)

/-! ## Polynomials -/

/-- The polynomial over GF(2) whose coefficient of `t^i` is bit `i`. -/
noncomputable def toPoly {n : Nat} (v : BitVec n) : (ZMod 2)[X] :=
  ∑ i ∈ Finset.range n, if v.getLsbD i then X ^ i else 0

theorem coeff_toPoly {n : Nat} (v : BitVec n) (d : Nat) : (toPoly v).coeff d = if v.getLsbD d then 1 else 0 := by
  simp only [toPoly, finsetSum_coeff, apply_ite (fun p : (ZMod 2)[X] => p.coeff d), coeff_X_pow, coeff_zero]
  by_cases hd : d < n
  · rw [Finset.sum_eq_single d (by intro i _ hi; simp [hi.symm]) (by simp [hd])]
    simp
  · rw [BitVec.getLsbD_of_ge _ _ (by omega)]
    refine Finset.sum_eq_zero fun i hi => ?_
    simp only [Finset.mem_range] at hi
    simp [show d ≠ i by omega]

theorem toPoly_injective {n : Nat} : Function.Injective (toPoly (n := n)) := by
  intro v u h
  apply BitVec.eq_of_getLsbD_eq
  intro i _
  have hi := congrArg (fun p => p.coeff i) h
  simp only [coeff_toPoly] at hi
  cases hv : v.getLsbD i <;> cases hu : u.getLsbD i <;> simp_all

theorem toPoly_xor {n : Nat} (v u : BitVec n) : toPoly (v ^^^ u) = toPoly v + toPoly u := by
  ext d
  simp only [coeff_add, coeff_toPoly, BitVec.getLsbD_xor]
  cases v.getLsbD d <;> cases u.getLsbD d <;> decide

theorem toPoly_zero {n : Nat} : toPoly 0#n = 0 := by
  ext d; simp [coeff_toPoly]

/-- Widening and shifting left by `i` multiplies by `t^i`. -/
theorem toPoly_shift {n m : Nat} (v : BitVec n) (i : Nat) (h : n + i ≤ m) :
    toPoly (v.setWidth m <<< i) = X ^ i * toPoly v := by
  ext d
  simp only [coeff_X_pow_mul', coeff_toPoly, BitVec.getLsbD_shiftLeft, BitVec.getLsbD_setWidth]
  by_cases hd : i ≤ d
  · by_cases hn : d - i < n
    · simp [hd, show ¬ d < i by omega, show d < m by omega, show d - i < m by omega]
    · simp [hd, BitVec.getLsbD_of_ge v (d - i) (by omega)]
  · simp [hd, show d < i by omega]

theorem degree_toPoly_lt {n : Nat} (v : BitVec n) : (toPoly v).degree < n := by
  rw [degree_lt_iff_coeff_zero]
  intro d hd
  rw [coeff_toPoly, BitVec.getLsbD_of_ge _ _ hd]; rfl

theorem toPoly_modulus : toPoly modulus = X ^ 8 + X ^ 4 + X ^ 3 + X + 1 := by
  simp [toPoly, Finset.sum_range_succ, modulus]
  ring

theorem degree_modulus : (toPoly modulus).degree = 8 := by
  rw [toPoly_modulus]
  compute_degree!

/-! ## The two steps of the product -/

/-- The first `k` partial products. -/
theorem toPoly_clmul_steps (a b : BitVec 8) (k : Nat) (hk : k ≤ 8) :
    toPoly ((List.range k).foldl (fun (p : BitVec 16) i => if a.getLsbD i then p ^^^ (b.setWidth 16 <<< i) else p) 0#16) =
      (∑ i ∈ Finset.range k, if a.getLsbD i then X ^ i else 0) * toPoly b := by
  induction k with
  | zero => rw [Finset.range_zero, Finset.sum_empty, zero_mul]; exact toPoly_zero
  | succ k ih =>
    rw [List.range_succ, List.foldl_append, Finset.sum_range_succ, add_mul, ← ih (by omega)]
    simp only [List.foldl_cons, List.foldl_nil]
    split
    · rw [toPoly_xor, toPoly_shift b k (by omega)]
    · simp

theorem toPoly_clmul (a b : BitVec 8) : toPoly (clmul a b) = toPoly a * toPoly b :=
  toPoly_clmul_steps a b 8 le_rfl

theorem divStep_mod (p : BitVec 16) (i : Nat) (hi : i < 8) : toPoly modulus ∣ toPoly (divStep p i) - toPoly p := by
  unfold divStep
  split
  · rw [toPoly_xor, toPoly_shift modulus (7 - i) (by omega), add_sub_cancel_left]
    exact Dvd.intro_left _ rfl
  · simp

/-- Step `i` clears coefficient `15 - i` and leaves those above it clear. -/
theorem divStep_clear (p : BitVec 16) (i : Nat) (hi : i < 8) (h : ∀ d, 16 - i ≤ d → p.getLsbD d = false) :
    ∀ d, 16 - (i + 1) ≤ d → (divStep p i).getLsbD d = false := by
  intro d hd
  have htop : modulus.getLsbD 8 = true := by decide
  have hm : ∀ j, 8 < j → modulus.getLsbD j = false := fun j hj => BitVec.getLsbD_of_ge _ _ (by omega)
  unfold divStep
  rcases Nat.lt_or_ge d 16 with hd16 | hd16
  swap
  · exact BitVec.getLsbD_of_ge _ _ hd16
  have hs : (modulus.setWidth 16 <<< (7 - i)).getLsbD d = modulus.getLsbD (d - (7 - i)) := by
    rw [BitVec.getLsbD_shiftLeft, BitVec.getLsbD_setWidth]
    simp [hd16, show ¬ d < 7 - i by omega, show d - (7 - i) < 16 by omega]
  split
  next hb =>
    rw [BitVec.getLsbD_xor, hs]
    rcases Nat.eq_or_lt_of_le hd with rfl | hd'
    · rw [show 16 - (i + 1) = 15 - i by omega, hb, show 15 - i - (7 - i) = 8 by omega, htop]; rfl
    · rw [h d (by omega), hm _ (by omega)]; rfl
  next hb =>
    rcases Nat.eq_or_lt_of_le hd with rfl | hd'
    · simpa [show 16 - (i + 1) = 15 - i by omega] using hb
    · exact h d (by omega)

theorem divSteps (p : BitVec 16) (k : Nat) (hk : k ≤ 8) :
    toPoly modulus ∣ toPoly ((List.range k).foldl divStep p) - toPoly p ∧
      ∀ d, 16 - k ≤ d → ((List.range k).foldl divStep p).getLsbD d = false := by
  induction k with
  | zero => exact ⟨by simp, fun d hd => BitVec.getLsbD_of_ge _ _ hd⟩
  | succ k ih =>
    obtain ⟨hm, hz⟩ := ih (by omega)
    rw [List.range_succ, List.foldl_append, List.foldl_cons, List.foldl_nil]
    refine ⟨?_, divStep_clear _ k hk hz⟩
    have := dvd_add (divStep_mod ((List.range k).foldl divStep p) k hk) hm
    rwa [sub_add_sub_cancel] at this

/-- `reduce` keeps the class modulo `modulus`. -/
theorem toPoly_reduce (p : BitVec 16) : toPoly modulus ∣ toPoly (reduce p) - toPoly p := by
  obtain ⟨hm, hz⟩ := divSteps p 8 le_rfl
  have hw : toPoly (reduce p) = toPoly ((List.range 8).foldl divStep p) := by
    ext d
    rw [coeff_toPoly, coeff_toPoly, reduce, BitVec.getLsbD_setWidth]
    by_cases hd : d < 8
    · simp [hd]
    · rw [hz d (by omega)]; simp [hd]
  rwa [hw]

/-! ## The quotient ring -/

/-- The class of a byte in GF(2)[t] modulo `modulus`. -/
noncomputable def toField (b : BitVec 8) : AdjoinRoot (toPoly modulus) := AdjoinRoot.mk _ (toPoly b)

theorem toField_injective : Function.Injective toField := by
  intro a b h
  have hd : toPoly modulus ∣ toPoly a - toPoly b := AdjoinRoot.mk_eq_mk.1 h
  rw [CharTwo.sub_eq_add, ← toPoly_xor] at hd
  have h0 : toPoly (a ^^^ b) = 0 :=
    eq_zero_of_dvd_of_degree_lt hd (by rw [degree_modulus]; exact degree_toPoly_lt _)
  exact BitVec.xor_eq_zero_iff.1 (toPoly_injective (h0.trans toPoly_zero.symm))

theorem toField_xor (a b : BitVec 8) : toField (a ^^^ b) = toField a + toField b := by
  simp only [toField, toPoly_xor, map_add]

theorem toField_mul (a b : BitVec 8) : toField (mul a b) = toField a * toField b := by
  have h : AdjoinRoot.mk (toPoly modulus) (toPoly (reduce (clmul a b))) =
      AdjoinRoot.mk (toPoly modulus) (toPoly (clmul a b)) := AdjoinRoot.mk_eq_mk.2 (toPoly_reduce _)
  rw [toPoly_clmul, map_mul] at h
  exact h

theorem mul_comm (a b : BitVec 8) : mul a b = mul b a :=
  toField_injective (by simp only [toField_mul]; ring)

theorem mul_assoc (a b c : BitVec 8) : mul (mul a b) c = mul a (mul b c) :=
  toField_injective (by simp only [toField_mul]; ring)

theorem mul_xor (a b c : BitVec 8) : mul a (b ^^^ c) = mul a b ^^^ mul a c :=
  toField_injective (by simp only [toField_mul, toField_xor]; ring)

theorem one_mul (b : BitVec 8) : mul 1#8 b = b := by
  have h1 : toPoly 1#8 = 1 := by
    ext d
    rw [coeff_toPoly, coeff_one, BitVec.getLsbD_one]
    simp
  apply toField_injective
  rw [toField_mul, show toField 1#8 = 1 by rw [toField, h1, map_one]]
  simp

theorem zero_mul (b : BitVec 8) : mul 0#8 b = 0#8 := by
  apply toField_injective
  rw [toField_mul, show toField 0#8 = 0 by rw [toField, toPoly_zero, map_zero]]
  simp

/-! ## Small constants and inverses -/

/-- Multiplication by `t`: a shift, and the modulus taken off when a bit falls out. -/
def double (b : BitVec 8) : BitVec 8 := (b <<< 1) ^^^ (if b.msb then 0x1b#8 else 0#8)

theorem two_mul (b : BitVec 8) : mul 2#8 b = double b := by
  revert b; decide +kernel

theorem three_mul (b : BitVec 8) : mul 3#8 b = double b ^^^ b := by
  rw [mul_comm, show 3#8 = 2#8 ^^^ 1#8 from rfl, mul_xor, mul_comm b 2#8, mul_comm b 1#8, two_mul, one_mul]

/-- The multiplicative inverse, and `0` for `0`. -/
def inv (b : BitVec 8) : BitVec 8 :=
  (((List.range 256).map (BitVec.ofNat 8)).find? fun x => mul b x == 1#8).getD 0#8

theorem inv_eq {b x : BitVec 8} (h : mul b x = 1#8) : inv b = x := by
  unfold inv
  cases hf : ((List.range 256).map (BitVec.ofNat 8)).find? fun x => mul b x == 1#8 with
  | none =>
    have hx := List.find?_eq_none.1 hf x (List.mem_map.2 ⟨x.toNat, List.mem_range.2 x.isLt, by simp⟩)
    simp [h] at hx
  | some y =>
    have hy : mul b y = 1#8 := by simpa using List.find?_some hf
    calc y = mul (mul b x) y := by rw [h, one_mul]
      _ = mul (mul b y) x := by rw [mul_assoc, mul_comm x y, ← mul_assoc]
      _ = x := by rw [hy, one_mul]

theorem inv_zero : inv 0#8 = 0#8 := by
  have hf : ((List.range 256).map (BitVec.ofNat 8)).find? (fun x => mul 0#8 x == 1#8) = none :=
    List.find?_eq_none.2 fun x _ => by simp [zero_mul]
  rw [inv, hf]
  rfl

end Gf256
