import Mathlib
/-!
# Fields of a word

Records packed in a word: a field is a range of its bits. `put` replaces one field
and leaves the others as they are.
-/

namespace Fields

variable {n len len' lo lo' i : ℕ} (w : BitVec n)

/-- Bits `lo` to `lo + len - 1`. -/
def get (lo len : ℕ) : BitVec len := w.extractLsb' lo len

def put (lo : ℕ) (v : BitVec len) : BitVec n :=
  BitVec.ofFnLE fun i => if lo ≤ i.val ∧ i.val < lo + len then v.getLsbD (i.val - lo) else w.getLsbD i.val

/-- A field of one bit. -/
def putBit (lo : ℕ) (b : Bool) : BitVec n := put w lo (BitVec.ofBool b)

/-! ## Bits -/

theorem getLsbD_get : (get w lo len).getLsbD i = (decide (i < len) && w.getLsbD (lo + i)) := by
  rw [get, BitVec.getLsbD_extractLsb']

theorem getLsbD_put (hi : i < n) (v : BitVec len) :
    (put w lo v).getLsbD i = if lo ≤ i ∧ i < lo + len then v.getLsbD (i - lo) else w.getLsbD i := by
  rw [put, BitVec.getLsbD_ofFnLE]
  exact dif_pos hi

theorem getLsbD_put_of_ne (h : i < lo ∨ lo + len ≤ i) (v : BitVec len) : (put w lo v).getLsbD i = w.getLsbD i := by
  by_cases hi : i < n
  · rw [getLsbD_put w hi, if_neg (by omega)]
  · rw [BitVec.getLsbD_of_ge _ _ (Nat.not_lt.1 hi), BitVec.getLsbD_of_ge _ _ (Nat.not_lt.1 hi)]

theorem getLsbD_putBit_of_ne (h : i ≠ lo) (b : Bool) : (putBit w lo b).getLsbD i = w.getLsbD i :=
  getLsbD_put_of_ne w (by omega) _

theorem getLsbD_putBit (hlo : lo < n) (b : Bool) : (putBit w lo b).getLsbD lo = b := by
  rw [putBit, getLsbD_put w hlo, if_pos ⟨Nat.le_refl lo, Nat.lt_succ_self lo⟩, Nat.sub_self]
  cases b <;> rfl

/-! ## Fields -/

theorem get_put (h : lo + len ≤ n) (v : BitVec len) : get (put w lo v) lo len = v := by
  apply BitVec.eq_of_getLsbD_eq
  intro i hi
  rw [getLsbD_get, getLsbD_put w (by omega), if_pos (by omega), Nat.add_sub_cancel_left]
  simp [hi]

theorem get_put_of_disjoint (h : lo + len ≤ lo' ∨ lo' + len' ≤ lo) (v : BitVec len) :
    get (put w lo v) lo' len' = get w lo' len' := by
  apply BitVec.eq_of_getLsbD_eq
  intro i hi
  rw [getLsbD_get, getLsbD_get, getLsbD_put_of_ne w (by omega)]

theorem get_setWidth {m : ℕ} (h : lo + len ≤ m) : get (w.setWidth m) lo len = get w lo len := by
  apply BitVec.eq_of_getLsbD_eq
  intro i hi
  have hlt : lo + i < m := by omega
  rw [getLsbD_get, getLsbD_get, BitVec.getLsbD_setWidth, decide_eq_true hlt, Bool.true_and]

theorem get_putBit_of_disjoint (h : lo < lo' ∨ lo' + len' ≤ lo) (b : Bool) :
    get (putBit w lo b) lo' len' = get w lo' len' :=
  get_put_of_disjoint w (by omega) _

end Fields
