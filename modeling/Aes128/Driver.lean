import Aes128.Commands
import Aes128.Master
/-!
# source.c

The two halves of `main` as operations on the bus: `SetKey` is the part up to
the write of address 5, `Encrypt` the part from there to the last read. The
device under them is the wrapper.
-/

open Fips197

namespace Aes128

/-- `key[i]` of source.c: the words of a block, the first one first. -/
def word (B : Block) (i : ℕ) : BitVec 32 := B.extractLsb' (96 - 32 * i) 32

theorem eq_of_words {A B : Block} (h : ∀ i < 4, word A i = word B i) : A = B := by
  apply BitVec.eq_of_getLsbD_eq
  intro b hb
  have hw := congrArg (BitVec.getLsbD · (b % 32)) (h (3 - b / 32) (by omega))
  simp only [word, BitVec.getLsbD_extractLsb', show b % 32 < 32 by omega, decide_true, Bool.true_and,
    show 96 - 32 * (3 - b / 32) + b % 32 = b by omega] at hw
  exact hw

def words (B : Block) : List (BitVec 32) := (List.range 4).map (word B)

namespace wrapper_finalv2

/-- A stored word takes its 32 bits, and leaves the others. -/
theorem write_word_bit {i : ℕ} (hi : i < 4) (d : BitVec 32) (B : Block) {b : ℕ} (hb : b < 128) :
    (write_word (.writing (BitVec.ofNat 4 i) d) B).getLsbD b =
      if b / 32 = 3 - i then d.getLsbD (b % 32) else B.getLsbD b := by
  interval_cases i <;> simp only [write_word, Inputs.writing] <;> refine BitVec.getLsbD_append.trans ?_ <;>
    simp only [BitVec.getLsbD_extractLsb, BitVec.getLsbD_append] <;> grind

theorem word_write {i j : ℕ} (hi : i < 4) (hj : j < 4) (d : BitVec 32) (B : Block) :
    word (write_word (.writing (BitVec.ofNat 4 i) d) B) j = if j = i then d else word B j := by
  apply BitVec.eq_of_getLsbD_eq
  intro b hb
  rw [word, BitVec.getLsbD_extractLsb', write_word_bit hi d B (by omega)]
  by_cases hji : j = i
  · rw [if_pos (by omega), if_pos hji, show (96 - 32 * j + b) % 32 = b by omega, decide_eq_true hb, Bool.true_and]
  · rw [if_neg (by omega), if_neg hji, word, BitVec.getLsbD_extractLsb']

theorem read_result {i : ℕ} (hi : i < 4) (w : wrapper_finalv2) :
    w.read_word (BitVec.ofNat 4 (6 + i)) = word w.temp_result i := by
  interval_cases i <;> rfl

/-- The wrapper as its master sees it. -/
def device (x : BitVec 128) : Master.Device wrapper_finalv2 (BitVec 4) (BitVec 32) where
  idle := step x .idle
  write a d := step x (.writing a d)
  read a := step x (.reading a)
  data := oData
  command a := a == 4#4 || a == 5#4
  test d := d &&& 0x1#32 != 0#32

end wrapper_finalv2

/-! ## The program -/

inductive Op where
  | SetKey (K : Block)
  | Encrypt (P : Block)

open Master in
/-- The first four writes of both halves. -/
def write_words (B : Block) : List (Access (BitVec 4) (BitVec 32)) :=
  (List.range 4).map fun i => .write (BitVec.ofNat 4 i) (word B i)

open Master in
def Op.accesses : Op → List (Access (BitVec 4) (BitVec 32))
  | SetKey K => .fetch (.poll 15#4) :: (write_words K ++ [.write 5#4 1#32])
  | Encrypt P =>
    .fetch (.poll 15#4) :: (write_words P ++ .write 4#4 1#32 :: .fetch (.poll 10#4) ::
      (List.range 4).map fun i => .fetch (.read (BitVec.ofNat 4 (6 + i))))

def program (ops : List Op) : List (Master.Access (BitVec 4) (BitVec 32)) := ops.flatMap Op.accesses

/-- The words that the reads of a session return, when the key is `K`. -/
def expected : Block → List Op → List (BitVec 32)
  | _, [] => []
  | _, .SetKey K :: ops => expected K ops
  | K, .Encrypt P :: ops => words (encrypt K P) ++ expected K ops

end Aes128
