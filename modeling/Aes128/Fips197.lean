import Aes128.Gf256
/-!
# FIPS 197, the AES-128 cipher

The standard's own definitions, on 128-bit blocks. Byte 0 of a block is its
most significant byte, and the state array is filled column by column: the
byte in row `r` and column `c` is byte `r + 4 * c` (section 3.4).
-/

namespace Fips197

abbrev Byte := BitVec 8
abbrev Word := BitVec 32
abbrev Block := BitVec 128

/-! ## The state array -/

/-- The byte in row `r` and column `c` of the state. -/
def byte (s : Block) (r c : Fin 4) : Byte := s.extractLsb' (120 - 8 * (r.val + 4 * c.val)) 8

/-- The state with the byte `f r c` in row `r` and column `c`. -/
def ofBytes (f : Fin 4 → Fin 4 → Byte) : Block :=
  f 0 0 ++ f 1 0 ++ f 2 0 ++ f 3 0 ++ f 0 1 ++ f 1 1 ++ f 2 1 ++ f 3 1 ++
    f 0 2 ++ f 1 2 ++ f 2 2 ++ f 3 2 ++ f 0 3 ++ f 1 3 ++ f 2 3 ++ f 3 3

/-! ## The transformations of the state (section 5.1) -/

/-- The affine map of section 5.1.1. -/
def affine (b : Byte) : Byte :=
  b ^^^ b.rotateLeft 1 ^^^ b.rotateLeft 2 ^^^ b.rotateLeft 3 ^^^ b.rotateLeft 4 ^^^ 0x63#8

/-- The S-box: the inverse in GF(2^8), then the affine map. -/
def sbox (b : Byte) : Byte := affine (Gf256.inv b)

def subBytes (s : Block) : Block := ofBytes fun r c => sbox (byte s r c)

/-- Row `r` is rotated left by `r` columns. -/
def shiftRows (s : Block) : Block := ofBytes fun r c => byte s r (c + r)

/-- The matrix of section 5.1.3. -/
def mixMatrix : Fin 4 → Fin 4 → Byte :=
  ![![2#8, 3#8, 1#8, 1#8],
    ![1#8, 2#8, 3#8, 1#8],
    ![1#8, 1#8, 2#8, 3#8],
    ![3#8, 1#8, 1#8, 2#8]]

/-- A row of a matrix times a column. -/
def dot (m v : Fin 4 → Byte) : Byte :=
  Gf256.mul (m 0) (v 0) ^^^ Gf256.mul (m 1) (v 1) ^^^ Gf256.mul (m 2) (v 2) ^^^ Gf256.mul (m 3) (v 3)

/-- Every column is multiplied by `mixMatrix`. -/
def mixColumns (s : Block) : Block := ofBytes fun r c => dot (mixMatrix r) fun k => byte s k c

/-- The first round of appendix B. -/
example : mixColumns (shiftRows 0xd42711aee0bf98f1b8b45de51e415230#128) = 0x046681e5e0cb199a48f8d37a2806264c#128 := by
  decide +kernel

def addRoundKey (s k : Block) : Block := s ^^^ k

/-! ## The key schedule (section 5.2) -/

def subWord (w : Word) : Word :=
  sbox (w.extractLsb' 24 8) ++ sbox (w.extractLsb' 16 8) ++ sbox (w.extractLsb' 8 8) ++ sbox (w.extractLsb' 0 8)

/-- `[a0, a1, a2, a3]` becomes `[a1, a2, a3, a0]`. -/
def rotWord (w : Word) : Word := w.extractLsb' 0 24 ++ w.extractLsb' 24 8

/-- `[x^(j-1), 0, 0, 0]`. -/
def rcon (j : Nat) : Word := (Gf256.mul 2#8)^[j - 1] 1#8 ++ 0#24

/-- The words `w[i]`, `w[i+1]`, `w[i+2]`, `w[i+3]` of the schedule of `key`. -/
def window (key : Block) : Nat → Word × Word × Word × Word
  | 0 => (key.extractLsb' 96 32, key.extractLsb' 64 32, key.extractLsb' 32 32, key.extractLsb' 0 32)
  | i + 1 =>
    let (a, b, c, d) := window key i
    let temp := if (i + 4) % 4 = 0 then subWord (rotWord d) ^^^ rcon ((i + 4) / 4) else d
    (b, c, d, a ^^^ temp)

/-- Word `w[i]` of the schedule of `key`. -/
def w (key : Block) (i : Nat) : Word := (window key i).1

/-- Round key `r`: the words `w[4r]` to `w[4r+3]`. -/
def roundKey (key : Block) (r : Nat) : Block :=
  w key (4 * r) ++ w key (4 * r + 1) ++ w key (4 * r + 2) ++ w key (4 * r + 3)

/-- The key of appendix A.1. -/
example : roundKey 0x2b7e151628aed2a6abf7158809cf4f3c#128 1 = 0xa0fafe1788542cb123a339392a6c7605#128 := by
  decide +kernel

/-! ## The cipher (section 5.1) -/

def round (s k : Block) : Block := addRoundKey (mixColumns (shiftRows (subBytes s))) k

def finalRound (s k : Block) : Block := addRoundKey (shiftRows (subBytes s)) k

/-- The ten rounds with the round keys `rk 1` to `rk 10`. -/
def rounds (rk : Nat → Block) (s : Block) : Block :=
  finalRound ((List.range 9).foldl (fun s i => round s (rk (i + 1))) s) (rk 10)

/-- The state after the first `r` of the nine equal rounds. -/
def afterRounds (rk : Nat → Block) (s : Block) : Nat → Block
  | 0 => s
  | r + 1 => round (afterRounds rk s r) (rk (r + 1))

/-- `Cipher` on the round keys `rk 0` to `rk 10`. -/
def cipher (rk : Nat → Block) (input : Block) : Block := rounds rk (addRoundKey input (rk 0))

/-- AES-128 encryption of `input` under `key`. -/
def encrypt (key input : Block) : Block := cipher (roundKey key) input

/-! ## Reading and building states -/

theorem byte_ofBytes (f : Fin 4 → Fin 4 → Byte) (r c : Fin 4) : byte (ofBytes f) r c = f r c := by
  unfold byte ofBytes
  fin_cases r <;> fin_cases c <;> dsimp only [Fin.mk_one, Fin.reduceFinMk, Fin.zero_eta, Fin.isValue] <;>
  · repeat rw [BitVec.extractLsb'_append_eq_of_le (by decide)]
    try rw [BitVec.extractLsb'_append_eq_of_add_le (by decide)]
    exact BitVec.extractLsb'_eq_self

theorem ofBytes_byte (s : Block) : ofBytes (byte s) = s := by
  unfold byte ofBytes
  repeat rw [BitVec.extractLsb'_append_extractLsb'_eq_extractLsb' (by decide)]
  exact BitVec.extractLsb'_eq_self

/-- A state is its sixteen bytes. -/
theorem eq_of_byte {s t : Block} (h : ∀ r c, byte s r c = byte t r c) : s = t := by
  rw [← ofBytes_byte s, ← ofBytes_byte t]
  congr 1
  funext r c
  exact h r c

theorem subBytes_shiftRows (s : Block) : subBytes (shiftRows s) = shiftRows (subBytes s) := by
  apply eq_of_byte
  intro r c
  simp only [subBytes, shiftRows, byte_ofBytes]

/-! ## The schedule, four words at a time -/

theorem window_eq (key : Block) (i : Nat) :
    window key i = (w key i, w key (i + 1), w key (i + 2), w key (i + 3)) := rfl

/-- The recurrence of section 5.2. -/
theorem w_add_four (key : Block) (i : Nat) :
    w key (i + 4) = w key i ^^^
      if (i + 4) % 4 = 0 then subWord (rotWord (w key (i + 3))) ^^^ rcon ((i + 4) / 4) else w key (i + 3) := by
  show (window key i).1 ^^^ _ = _
  rw [window_eq]

/-- The words of round key `r + 1` from those of round key `r`. -/
theorem w_next (key : Block) (r : Nat) :
    w key (4 * r + 4) = w key (4 * r) ^^^ (subWord (rotWord (w key (4 * r + 3))) ^^^ rcon (r + 1)) ∧
      w key (4 * r + 5) = w key (4 * r + 1) ^^^ w key (4 * r + 4) ∧
      w key (4 * r + 6) = w key (4 * r + 2) ^^^ w key (4 * r + 5) ∧
      w key (4 * r + 7) = w key (4 * r + 3) ^^^ w key (4 * r + 6) := by
  refine ⟨?_, ?_, ?_, ?_⟩
  · rw [w_add_four, if_pos (by omega), show (4 * r + 4) / 4 = r + 1 by omega]
  · rw [show 4 * r + 5 = 4 * r + 1 + 4 by omega, w_add_four, if_neg (by omega)]
  · rw [show 4 * r + 6 = 4 * r + 2 + 4 by omega, w_add_four, if_neg (by omega)]
  · rw [show 4 * r + 7 = 4 * r + 3 + 4 by omega, w_add_four, if_neg (by omega)]

/-! ## The rounds, one at a time -/

theorem foldl_round (rk : Nat → Block) (s : Block) (r : Nat) :
    (List.range r).foldl (fun s i => round s (rk (i + 1))) s = afterRounds rk s r := by
  induction r with
  | zero => rfl
  | succ r ih => rw [List.range_succ, List.foldl_append, ih]; rfl

theorem rounds_eq (rk : Nat → Block) (s : Block) : rounds rk s = finalRound (afterRounds rk s 9) (rk 10) := by
  rw [rounds, foldl_round]

/-- The rounds use the round keys 1 to 10. -/
theorem rounds_congr {rk rk' : Nat → Block} (h : ∀ i, 0 < i → i ≤ 10 → rk i = rk' i) (s : Block) :
    rounds rk s = rounds rk' s := by
  have hr (r : Nat) (hr : r ≤ 9) : afterRounds rk s r = afterRounds rk' s r := by
    induction r with
    | zero => rfl
    | succ r ih => rw [afterRounds, afterRounds, ih (by omega), h (r + 1) (by omega) (by omega)]
  rw [rounds_eq, rounds_eq, hr 9 (by omega), h 10 (by omega) (by omega)]

theorem roundKey_zero (key : Block) : roundKey key 0 = key := by
  show key.extractLsb' 96 32 ++ key.extractLsb' 64 32 ++ key.extractLsb' 32 32 ++ key.extractLsb' 0 32 = key
  repeat rw [BitVec.extractLsb'_append_extractLsb'_eq_extractLsb' (by decide)]
  exact BitVec.extractLsb'_eq_self

end Fips197
