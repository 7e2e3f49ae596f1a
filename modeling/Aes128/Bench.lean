import Aes128.Refine
/-!
# tb_KeyLogic.sv

KeyLogic outside AES_Top, with the S-box of the testbench behind it: a register
that takes the substituted word at each clock. What the testbench prints is the
key schedule of FIPS 197, for every key it could be given.
-/

open Fips197 Rounds

namespace Aes128

/-! ## One expansion of KeyLogic -/

namespace KeyLogic

/-- Beat `b` of the expansion of `K`, with what the S-box shows. -/
structure Expands (K : Block) (b : Beat 10) (sbox_data_in : BitVec 128) (k : KeyLogic) : Prop where
  controller : k.controller = .ofUnit (some (K, b))
  keys : ∀ i < b.round, k.key_reg[i]? = some (roundKey K i)
  lookup : ∀ r, b = .update r → sbox_data_in.extractLsb 31 0 = subWord (rotWord (w K (4 * r + 3)))

/-- Idle, with the schedule of `K`. -/
structure Stores (K : Block) (k : KeyLogic) : Prop where
  controller : k.controller = .ofUnit none
  keys : ∀ i < 11, k.key_reg[i]? = some (roundKey K i)

variable {K : Block} {b : Beat 10} {sbox_data_in : BitVec 128} {k : KeyLogic}

theorem Expands.prev_key (h : Expands K b sbox_data_in k) {r : Fin 10} (hr : b.round = r + 1) :
    k.prev_key = some (roundKey K r) := by
  have hn : (BitVec.setWidth 32 k.controller.round_num - 1#32).toNat = r := by
    have hround := KeyLogicController.ofUnit_round_num K b
    rw [← h.controller, hr] at hround
    have hround' : k.controller.round_num = BitVec.ofNat 4 (r + 1) :=
      BitVec.eq_of_toNat_eq (hround.trans (toNat_round r).symm)
    rw [hround']
    clear hround hr
    fin_cases r <;> rfl
  rw [KeyLogic.prev_key, hn, h.keys r (by omega)]

/-- Nothing is written without a start and out of the phase. -/
theorem key_reg_posedge (hphase : k.controller.phase = false) (x : BitVec 128) (cipher_key : Bus) :
    (k.posedge x false false cipher_key sbox_data_in).key_reg = k.key_reg := by
  simp only [posedge, hphase, Bool.false_eq_true, if_false]

/-- A start, in an idle state. -/
theorem expands_start (hk : k.controller = .ofUnit none) (x K : BitVec 128) (d sbox_data_in : BitVec 128) :
    Expands K (.lookup 0) d (k.posedge x false true (some K) sbox_data_in) where
  controller := by
    rw [posedge, hk]
    rfl
  keys := by
    intro i hi
    rw [show i = 0 by simpa [Beat.round] using hi, posedge, roundKey_zero]
    simp
  lookup := by rintro r ⟨⟩

/-- A cycle of an expansion: the S-box answers with the word that was on `rotword_out`. -/
theorem Expands.step (h : Expands K b sbox_data_in k) {c : Beat 10} (hc : b.next = some c) (x : BitVec 128)
    (cipher_key : Bus) {d : BitVec 128} (hd : d.extractLsb 31 0 = subWord (k.rotword_out x)) :
    Expands K c d (k.posedge x false false cipher_key sbox_data_in) := by
  have hcontroller : (k.posedge x false false cipher_key sbox_data_in).controller = .ofUnit (some (K, c)) := by
    have hposedge := KeyLogicController.posedge_ofUnit none (some (K, b))
    rw [← h.controller, advance, hc] at hposedge
    exact hposedge
  cases b with
  | lookup r =>
    obtain rfl : Beat.update r = c := Option.some_inj.1 hc
    refine ⟨hcontroller, fun i hi => ?_, ?_⟩
    · rw [key_reg_posedge (by rw [h.controller]; rfl)]
      exact h.keys i hi
    · rintro q ⟨⟩
      rw [hd, rotword_out, h.prev_key rfl, Option.getD_some, (roundKey_words K r).2.2.2, RotWord_eq]
  | update r =>
    have hphase : k.controller.phase = true := by rw [h.controller]; rfl
    have hround : k.controller.round_num = BitVec.ofNat 4 (r + 1) := by rw [h.controller]; rfl
    obtain ⟨c', hc', hr⟩ := Beat.next_update r
    obtain rfl : c' = c := Option.some_inj.1 (hc'.symm.trans hc)
    refine ⟨hcontroller, fun i hi => ?_, ?_⟩
    · rw [hr] at hi
      simp only [posedge, hphase, if_true, Bool.false_eq_true, if_false, hround, toNat_round, new_round_key_comb,
        h.prev_key rfl, Option.getD_some, new_round_key_eq K r sbox_data_in (h.lookup r rfl)]
      rw [Vector.getElem?_setIfInBounds]
      rcases Nat.lt_succ_iff_lt_or_eq.1 hi with hi | rfl
      · rw [if_neg (by omega)]
        exact h.keys i hi
      · rw [if_pos rfl, if_pos (by omega)]
    · rintro q rfl
      simp only [Beat.next] at hc
      split at hc <;> cases hc
  | finish => cases hc

/-- The end of an expansion. -/
theorem Expands.stores (h : Expands K .finish sbox_data_in k) (x : BitVec 128) (cipher_key : Bus) :
    Stores K (k.posedge x false false cipher_key sbox_data_in) where
  controller := by
    rw [posedge, h.controller]
    rfl
  keys := by
    rw [key_reg_posedge (by rw [h.controller]; rfl)]
    exact h.keys

theorem Stores.step (h : Stores K k) (x : BitVec 128) (cipher_key : Bus) :
    Stores K (k.posedge x false false cipher_key sbox_data_in) where
  controller := by
    rw [posedge, h.controller]
    rfl
  keys := by
    rw [key_reg_posedge (by rw [h.controller]; rfl)]
    exact h.keys

end KeyLogic

/-! ## The testbench -/

structure tb_KeyLogic where
  sbox_data_in : BitVec 128
  uut : KeyLogic

namespace tb_KeyLogic

/-- The table that the testbench fills in is that of sbox.mif. -/
def sbox_rom (b : BitVec 8) : BitVec 8 := sbox_mif.get b.toFin

def subWord (din : BitVec 32) : BitVec 32 :=
  sbox_rom (din.extractLsb 31 24) ++ sbox_rom (din.extractLsb 23 16) ++ sbox_rom (din.extractLsb 15 8) ++
    sbox_rom (din.extractLsb 7 0)

variable (x : BitVec 128) (cipher_key : BitVec 128)

def posedge (reset load_key : Bool) (t : tb_KeyLogic) : tb_KeyLogic where
  sbox_data_in := 0#96 ++ subWord (t.uut.rotword_out x)
  uut := t.uut.posedge x reset load_key (some cipher_key) t.sbox_data_in

/-- `#10` with everything low. -/
def delay (t : tb_KeyLogic) : tb_KeyLogic := t.posedge x cipher_key false false

/-- `while ((mode == 0) && (!expansion_done))` -/
def wait : ℕ → tb_KeyLogic → Option tb_KeyLogic
  | 0, _ => none
  | fuel + 1, t => if !t.uut.expansion_done then wait fuel (t.delay x cipher_key) else some t

/-- The loop over the rounds, in read mode: what it prints from round `i` on. -/
def read (i : ℕ) : ℕ → tb_KeyLogic → List Bus
  | 0, _ => []
  | n + 1, t =>
    let t := t.delay x cipher_key
    t.uut.round_key true (BitVec.ofNat 4 i) :: read (i + 1) n t

/-- The test sequence, from the clocks under reset to the last line. -/
def test (fuel : ℕ) (t : tb_KeyLogic) : Option (List Bus) := do
  let t := (t.posedge x cipher_key true false).posedge x cipher_key true false
  let t := (t.delay x cipher_key).posedge x cipher_key false true
  let t ← wait x cipher_key fuel t
  let t := (t.delay x cipher_key).delay x cipher_key
  return read x cipher_key 0 11 t

variable {x cipher_key : BitVec 128} {t : tb_KeyLogic}

theorem subWord_eq (din : BitVec 32) : subWord din = Fips197.subWord din := by
  simp only [subWord, sbox_rom, sbox_mif_eq]
  rfl

theorem sbox_answer (din : BitVec 32) : (0#96 ++ subWord din).extractLsb 31 0 = Fips197.subWord din := by
  rw [BitVec.extractLsb, BitVec.extractLsb'_append_eq_of_add_le (by decide), BitVec.extractLsb'_eq_self, subWord_eq]

/-- The loop ends when the expansion does. -/
theorem wait_eq {K : Block} {b : Beat 10} (h : t.uut.Expands K b t.sbox_data_in) {fuel : ℕ}
    (hfuel : 22 ≤ fuel + b.elapsed) :
    ∃ t', wait x cipher_key fuel t = some t' ∧ t'.uut.Expands K .finish t'.sbox_data_in := by
  induction fuel generalizing t b with
  | zero =>
    have := b.elapsed_le
    omega
  | succ fuel ih =>
    have hdone : t.uut.expansion_done = true ↔ b = .finish := by
      rw [KeyLogic.expansion_done, h.controller]
      cases b <;> simp [KeyLogicController.ofUnit, KeyLogicController.expansion_done]
    rw [wait]
    rcases hb : b.next with _ | c
    · obtain rfl := Beat.next_eq_none.1 hb
      rw [hdone.2 rfl]
      exact ⟨t, rfl, h⟩
    · rw [Bool.eq_false_iff.2 fun hd => Beat.ne_finish_of_next hb (hdone.1 hd)]
      refine ih (h.step hb x (some cipher_key) (sbox_answer _)) ?_
      have := Beat.elapsed_next hb
      omega

theorem read_eq {K : Block} (h : t.uut.Stores K) (n i : ℕ) (hi : i + n ≤ 11) :
    read x cipher_key i n t = (List.range' i n).map fun r => some (roundKey K r) := by
  induction n generalizing t i with
  | zero => rfl
  | succ n ih =>
    have hnext : (t.delay x cipher_key).uut.Stores K := h.step x (some cipher_key)
    have hround : (t.delay x cipher_key).uut.round_key true (BitVec.ofNat 4 i) = some (roundKey K i) := by
      rw [KeyLogic.round_key, if_pos rfl, BitVec.toNat_ofNat, Nat.mod_eq_of_lt (by omega), hnext.keys i (by omega)]
    rw [read, hround, ih hnext (i + 1) (by omega)]
    rfl

/-- For every key, and whatever the registers hold at first, the loop of the testbench ends and the eleven
lines that it prints are the round keys. -/
theorem test_prints (x cipher_key : BitVec 128) (t : tb_KeyLogic) (fuel : ℕ) (hfuel : 21 ≤ fuel) :
    test x cipher_key fuel t = some ((List.range 11).map fun r => some (roundKey cipher_key r)) := by
  let t₁ := ((t.posedge x cipher_key true false).posedge x cipher_key true false).delay x cipher_key
  have hidle : t₁.uut.controller = .ofUnit none := rfl
  have hload : (t₁.posedge x cipher_key false true).uut.Expands cipher_key (.lookup 0)
      (t₁.posedge x cipher_key false true).sbox_data_in := KeyLogic.expands_start hidle x cipher_key _ _
  obtain ⟨t', ht, h⟩ := wait_eq (x := x) hload (show 22 ≤ fuel + 1 by omega)
  have hstores : (t'.delay x cipher_key).uut.Stores cipher_key := h.stores x (some cipher_key)
  have hstores' : ((t'.delay x cipher_key).delay x cipher_key).uut.Stores cipher_key :=
    hstores.step x (some cipher_key)
  rw [List.range_eq_range', ← read_eq (x := x) hstores' 11 0 (by decide), test, ht]
  rfl

/-- The key of the testbench, from the state with zeros everywhere. -/
theorem test_prints_fips :
    test 0#128 0x2b7e151628aed2a6abf7158809cf4f3c#128 21 ⟨0#128, ⟨.replicate 11 0#128, .ofUnit none⟩⟩ =
      some ((List.range 11).map fun r => some (roundKey 0x2b7e151628aed2a6abf7158809cf4f3c#128 r)) :=
  test_prints 0#128 _ _ 21 (Nat.le_refl 21)

end tb_KeyLogic

end Aes128
