import Mathlib.Data.Nat.Count
import Aes128.Permutation
import Aes128.Soundness
/-!
# The handshake of AES_Top

`Ready_new_input` stays 1 for one cycle after a `Load_Data`, while the block
waits in `in_loaded`. A block or a key given in that cycle replaces the waiting
block, or its key. Without such loads the handshake is in order: the ciphertexts
are those of the blocks, one by one, each under the key that was there first.

`Ledger` is the invariant: how many blocks are in flight in each phase, which
block it is, and under which key.
-/

open Fips197 Clocked Rounds

namespace Aes128

/-- The inputs keep to `Ready_new_input`, and the first load is a key. -/
structure Polite (x : BitVec 128) (rom : S_box) (ins : ℕ → AES_Top.Inputs) : Prop where
  ready : ∀ n, (ins n).Load_Key = true ∨ (ins n).Load_Data = true →
    (run (AES_Top.step x) (.reset rom) ins n).Ready_new_input = true
  exclusive : ∀ n, ¬((ins n).Load_Key = true ∧ (ins n).Load_Data = true)
  keyFirst : ∀ d, (ins d).Load_Data = true → ∃ k < d, (ins k).Load_Key = true

/-- The `i`-th ciphertext is that of the `i`-th block, under the key loaded last before the block. -/
def InOrder (x : BitVec 128) (rom : S_box) (ins : ℕ → AES_Top.Inputs) : Prop :=
  let s := run (AES_Top.step x) (.reset rom) ins
  ∀ n, (s n).CTValid = true → ∃ d k, (ins d).Load_Data = true ∧
    Nat.count (fun j => (ins j).Load_Data = true) d = Nat.count (fun j => (s j).CTValid = true) n ∧
    IsLast (fun j => (ins j).Load_Key = true) k d ∧
    (s n).CipherText = some (encrypt (ins k).in_data (ins d).in_data)

/-- Every block gets its ciphertext. -/
def NoneLost (x : BitVec 128) (rom : S_box) (ins : ℕ → AES_Top.Inputs) : Prop :=
  let s := run (AES_Top.step x) (.reset rom) ins
  ∀ d, (ins d).Load_Data = true → ∃ n > d, (s n).CTValid = true ∧
    Nat.count (fun j => (s j).CTValid = true) n = Nat.count (fun j => (ins j).Load_Data = true) d

namespace Engine

section Ledger
variable (ins : ℕ → AES_Top.Inputs) (e : ℕ → Engine)

/-- Blocks loaded before cycle `n`. -/
def loads (n : ℕ) : ℕ := Nat.count (fun j => (ins j).Load_Data = true) n

/-- Ciphertexts shown before cycle `n`. -/
def shows (n : ℕ) : ℕ := Nat.count (fun j => (e j).output.isSome = true) n

/-- The block of cycle `d`, to be encrypted under the key of cycle `k`, is the one in flight. -/
structure Job (n d k : ℕ) : Prop where
  load : (ins d).Load_Data = true
  before : d < n
  index : loads ins d = shows e n
  last : loads ins n = shows e n + 1
  key : IsLast (fun j => (ins j).Load_Key = true) k d

def Ledger (n : ℕ) : Prop :=
  match (e n).phase with
  | .idle =>
    if (e n).in_loaded then
      ∃ d k, Job ins e n d k ∧ n = d + 1 ∧ (e n).Data = (ins d).in_data ∧ (e n).Key = (ins k).in_data
    else loads ins n = shows e n
  | .keyExpand => (e n).in_loaded = false ∧ loads ins n = shows e n
  | .waitKeyex _ _ => (e n).in_loaded = false ∧ loads ins n = shows e n
  | .prc => ∃ d k, Job ins e n d k ∧ (e n).Data = (ins d).in_data ∧ (e n).Key = (ins k).in_data
  | .waitPCore B _ => (e n).in_loaded = false ∧
    ∃ d k, Job ins e n d k ∧ B = (ins d).in_data ^^^ (ins k).in_data ∧ (e n).store = roundKey (ins k).in_data

end Ledger

section Run
variable {ins : ℕ → AES_Top.Inputs} {e : ℕ → Engine} (h : IsRun step ins e)
  (hready : ∀ n, (ins n).Load_Key = true ∨ (ins n).Load_Data = true → (e n).phase = .idle)
  (hexcl : ∀ n, ¬((ins n).Load_Key = true ∧ (ins n).Load_Data = true))
  (hfirst : ∀ d, (ins d).Load_Data = true → ∃ k < d, (ins k).Load_Key = true)
  (hgap : ∀ n, (ins n).Load_Data = true → (ins (n + 1)).Load_Key = false ∧ (ins (n + 1)).Load_Data = false)

theorem loads_succ (ins : ℕ → AES_Top.Inputs) (n : ℕ) :
    loads ins (n + 1) = loads ins n + if (ins n).Load_Data = true then 1 else 0 :=
  Nat.count_succ _ n

theorem shows_succ (e : ℕ → Engine) (n : ℕ) :
    shows e (n + 1) = shows e n + if (e n).output.isSome = true then 1 else 0 :=
  Nat.count_succ _ n

/-- A cycle without a load and without a ciphertext. -/
theorem Job.succ {n d k : ℕ} (hj : Job ins e n d k) (hl : (ins n).Load_Data = false) (ho : (e n).output = none) :
    Job ins e (n + 1) d k where
  load := hj.load
  before := by have := hj.before; omega
  index := by rw [shows_succ, ho]; exact hj.index
  last := by rw [loads_succ, shows_succ, ho, hl]; exact hj.last
  key := hj.key

theorem settled_succ {n : ℕ} (hs : loads ins n = shows e n) (hl : (ins n).Load_Data = false)
    (ho : (e n).output = none) : loads ins (n + 1) = shows e (n + 1) := by
  rw [loads_succ, shows_succ, ho, hl]
  exact hs

theorem Ledger.of_settled {n : ℕ} (hp : (e n).phase = .idle) (hin : (e n).in_loaded = false)
    (hs : loads ins n = shows e n) : Ledger ins e n := by
  rw [Ledger, hp]
  dsimp only
  rw [if_neg (Bool.eq_false_iff.1 hin)]
  exact hs

include hready in
theorem no_load {n : ℕ} (hp : (e n).phase ≠ .idle) : (ins n).Load_Key = false ∧ (ins n).Load_Data = false := by
  constructor
  · exact Bool.eq_false_iff.2 fun hk => hp (hready n (.inl hk))
  · exact Bool.eq_false_iff.2 fun hd => hp (hready n (.inr hd))

include h in
theorem in_loaded_succ {n : ℕ} (hp : (e n).phase ≠ .prc) :
    (e (n + 1)).in_loaded = ((ins n).Load_Data || (e n).in_loaded) := by
  rw [h n, step_in_loaded hp]

include h in
theorem in_loaded_succ_false {n : ℕ} (hp : (e n).phase ≠ .prc) (hd : (ins n).Load_Data = false)
    (hin : (e n).in_loaded = false) : (e (n + 1)).in_loaded = false := by
  rw [in_loaded_succ h hp, hd, hin]
  rfl

include h hgap in
/-- A block has waited since the last cycle, so nothing is loaded now. -/
theorem Ledger.succ_waiting {d k : ℕ} (hp : (e (d + 1)).phase = .idle) (hin : (e (d + 1)).in_loaded = true)
    (hj : Job ins e (d + 1) d k) (hdata : (e (d + 1)).Data = (ins d).in_data)
    (hkey : (e (d + 1)).Key = (ins k).in_data) : Ledger ins e (d + 1 + 1) := by
  obtain ⟨hk, hd⟩ := hgap d hj.load
  have hphase : (e (d + 1 + 1)).phase = .prc := by
    rw [h (d + 1), step_phase, next_idle_waiting hp hk hin]
  rw [Ledger, hphase]
  refine ⟨d, k, hj.succ hd (by simp only [output, hp]), ?_, ?_⟩
  · rw [h, step_Data hd, hdata]
  · rw [h, step_Key hk, hkey]

include h hexcl hfirst in
/-- Nothing is in flight, and a key, a block or nothing is loaded. -/
theorem Ledger.succ_idle {n : ℕ} (hp : (e n).phase = .idle) (hin : (e n).in_loaded = false)
    (hs : loads ins n = shows e n) : Ledger ins e (n + 1) := by
  have ho : (e n).output = none := by simp only [output, hp]
  have hphase : (e (n + 1)).phase = (e n).next (ins n) := by rw [h n, step_phase]
  have hloaded := in_loaded_succ h (n := n) (by simp [hp])
  rw [hin, Bool.or_false] at hloaded
  by_cases hk : (ins n).Load_Key = true
  · have hd : (ins n).Load_Data = false := Bool.eq_false_iff.2 fun hd => hexcl n ⟨hk, hd⟩
    rw [Ledger, hphase.trans (next_idle_key hp hk)]
    exact ⟨hloaded.trans hd, settled_succ hs hd ho⟩
  · have hk := Bool.eq_false_iff.2 hk
    replace hphase := hphase.trans (next_idle_empty hp hk hin)
    by_cases hd : (ins n).Load_Data = true
    · obtain ⟨k₀, hk₀, hkey⟩ := hfirst n hd
      obtain ⟨k, hlast⟩ := exists_isLast (P := fun j => (ins j).Load_Key = true) hk₀ hkey
      have hloads : loads ins (n + 1) = loads ins n + 1 := by rw [loads_succ, if_pos hd]
      have hshows : shows e (n + 1) = shows e n := by rw [shows_succ, ho]; rfl
      rw [Ledger, hphase]
      dsimp only
      rw [if_pos (hloaded.trans hd)]
      refine ⟨n, k, ⟨hd, Nat.lt_succ_self n, hs.trans hshows.symm, by rw [hloads, hshows, hs], hlast⟩, rfl, ?_, ?_⟩
      · exact Data_eq h (isLast_self ⟨hd, hk⟩)
      · rw [h, step_Key hk, Key_eq h hlast]
    · have hd := Bool.eq_false_iff.2 hd
      exact .of_settled hphase (hloaded.trans hd) (settled_succ hs hd ho)

include h hready in
theorem Ledger.succ_keyExpand {n : ℕ} (hp : (e n).phase = .keyExpand) (hin : (e n).in_loaded = false)
    (hs : loads ins n = shows e n) : Ledger ins e (n + 1) := by
  have hd := (no_load hready (n := n) (by simp [hp])).2
  rw [Ledger, h n, step_phase, next_keyExpand hp, ← h n]
  exact ⟨in_loaded_succ_false h (by simp [hp]) hd hin, settled_succ hs hd (by simp only [output, hp])⟩

include h hready in
theorem Ledger.succ_waitKeyex {n : ℕ} {K : Block} {b : Beat 10} (hp : (e n).phase = .waitKeyex K b)
    (hin : (e n).in_loaded = false) (hs : loads ins n = shows e n) : Ledger ins e (n + 1) := by
  have hd := (no_load hready (n := n) (by simp [hp])).2
  have hs' := settled_succ hs hd (by simp only [output, hp])
  have hin' := in_loaded_succ_false h (by simp [hp]) hd hin
  have hphase : (e (n + 1)).phase = (e n).next (ins n) := by rw [h n, step_phase]
  rw [next_waitKeyex hp, resume, hin, if_neg Bool.false_ne_true] at hphase
  rcases hb : b.next with _ | c <;> rw [hb] at hphase
  · exact .of_settled hphase hin' hs'
  · rw [Ledger, hphase]
    exact ⟨hin', hs'⟩

include h hready hfirst in
/-- The waiting block goes to the core, with the store of its key. -/
theorem Ledger.succ_prc {n d k : ℕ} (hp : (e n).phase = .prc) (hj : Job ins e n d k)
    (hdata : (e n).Data = (ins d).in_data) (hkey : (e n).Key = (ins k).in_data) : Ledger ins e (n + 1) := by
  have hd := (no_load hready (n := n) (by simp [hp])).2
  obtain ⟨k₀, hk₀, hk₀'⟩ := hfirst d hj.load
  have hk₀n : k₀ < n := by
    have := hj.before
    omega
  have hc := consistent_run h (fun n hl => hready n (.inl hl)) hk₀n hk₀'
  rw [Consistent, Holds, hp] at hc
  rw [Ledger, h n, step_phase, next_prc hp, ← h n]
  refine ⟨by rw [h, step_in_loaded_prc hp], d, k, hj.succ hd (by simp only [output, hp]), by rw [hdata, hkey], ?_⟩
  rw [h, step_store (expanded_eq_none (.inl hp)), hc, hkey]

include h hready in
theorem Ledger.succ_waitPCore {n d k : ℕ} {B : Block} {b : Beat 10} (hp : (e n).phase = .waitPCore B b)
    (hin : (e n).in_loaded = false) (hj : Job ins e n d k) (hB : B = (ins d).in_data ^^^ (ins k).in_data)
    (hst : (e n).store = roundKey (ins k).in_data) : Ledger ins e (n + 1) := by
  have hd := (no_load hready (n := n) (by simp [hp])).2
  have hin' := in_loaded_succ_false h (by simp [hp]) hd hin
  have hphase : (e (n + 1)).phase = (e n).next (ins n) := by rw [h n, step_phase]
  rw [next_waitPCore hp] at hphase
  rcases hb : b.next with _ | c <;> rw [hb] at hphase
  · -- the ciphertext is shown in this cycle, and nothing is in flight any more
    rw [Beat.next_eq_none.1 hb] at hp
    refine .of_settled hphase hin' ?_
    rw [loads_succ, shows_succ, output_eq.2 ⟨B, hp, rfl⟩, hd, hj.last]
    rfl
  · rw [Ledger, hphase]
    refine ⟨hin', d, k, hj.succ hd (output_eq_none hp (Beat.ne_finish_of_next hb)), hB, ?_⟩
    rw [h, step_store (expanded_eq_none (.inr ⟨B, b, hp⟩)), hst]

include h hready hexcl hfirst hgap in
theorem Ledger.succ {n : ℕ} (hl : Ledger ins e n) : Ledger ins e (n + 1) := by
  cases hp : (e n).phase <;> rw [Ledger, hp] at hl
  case idle =>
    dsimp only at hl
    split at hl
    next hin =>
      obtain ⟨d, k, hj, rfl, hdata, hkey⟩ := hl
      exact succ_waiting h hgap hp hin hj hdata hkey
    next hin => exact succ_idle h hexcl hfirst hp (Bool.eq_false_iff.2 hin) hl
  case keyExpand => exact succ_keyExpand h hready hp hl.1 hl.2
  case waitKeyex => exact succ_waitKeyex h hready hp hl.1 hl.2
  case prc =>
    obtain ⟨d, k, hj, hdata, hkey⟩ := hl
    exact succ_prc h hready hfirst hp hj hdata hkey
  case waitPCore =>
    obtain ⟨hin, d, k, hj, hB, hst⟩ := hl
    exact succ_waitPCore h hready hp hin hj hB hst

include h hready hexcl hfirst hgap in
theorem ledger (h0 : e 0 = .init) (n : ℕ) : Ledger ins e n := by
  induction n with
  | zero => rw [Ledger, h0]; rfl
  | succ n ih => exact ih.succ h hready hexcl hfirst hgap

include h hready hexcl hfirst hgap in
/-- A block is accepted in an idle cycle in which no other one waits, and shown 23 cycles later. -/
theorem shown_after_load (h0 : e 0 = .init) {d : ℕ} (hd : (ins d).Load_Data = true) :
    (e (d + 23)).output.isSome = true ∧ shows e (d + 23) = loads ins d := by
  obtain ⟨hk₁, hd₁⟩ := hgap d hd
  have hp := hready d (.inr hd)
  have hk : (ins d).Load_Key = false := Bool.eq_false_iff.2 fun hk => hexcl d ⟨hk, hd⟩
  have hl := ledger h hready hexcl hfirst hgap h0 d
  rw [Ledger, hp] at hl
  dsimp only at hl
  split at hl
  next hin =>
    obtain ⟨d', k, hj, rfl, -⟩ := hl
    rw [(hgap d' hj.load).2] at hd
    cases hd
  next hin =>
    have hp₁ : (e (d + 1)).phase = .idle := by
      rw [h d, step_phase, next_idle_empty hp hk (Bool.eq_false_iff.2 hin)]
    have hin₁ : (e (d + 1)).in_loaded = true := by
      rw [h d, step_in_loaded (by simp [hp]), hd, Bool.true_or]
    have hp₂ : (e (d + 2)).phase = .prc := by
      rw [h (d + 1), step_phase, next_idle_waiting hp₁ hk₁ hin₁]
    obtain ⟨hout, hbetween⟩ := encryption_ahead h hp₂
    refine ⟨by rw [hout, Option.isSome_some], ?_⟩
    rw [hl]
    refine unchanged (f := shows e) (P := fun j => (e j).output.isSome = true) (fun j hj => ?_) (by omega) ?_
    · rw [shows_succ, if_neg hj, Nat.add_zero]
    · intro j hj hjn
      have : j = d ∨ j = d + 1 ∨ j = d + 2 ∨ d + 2 < j := by omega
      rcases this with rfl | rfl | rfl | hj
      · simp [output, hp]
      · simp [output, hp₁]
      · simp [output, hp₂]
      · simp [hbetween j hj (by omega)]

end Run

end Engine

/-- The handshake is in order in every run in which nothing is loaded in the cycle after a block. -/
theorem handshake_in_order (x : BitVec 128) (rom : S_box) (ins : ℕ → AES_Top.Inputs) (hp : Polite x rom ins)
    (hgap : ∀ n, (ins n).Load_Data = true → (ins (n + 1)).Load_Key = false ∧ (ins (n + 1)).Load_Data = false) :
    InOrder x rom ins ∧ NoneLost x rom ins := by
  obtain ⟨e, h0, hrun, he⟩ := exists_engine_reset x rom ins
  have hready n hl := (he n).ready_eq.1 (hp.ready n hl)
  have hcount (n : ℕ) : Nat.count (fun j => (run (AES_Top.step x) (.reset rom) ins j).CTValid = true) n =
      Engine.shows e n := by
    simp only [Engine.shows, (he _).ctValid_eq]
  constructor
  · intro n hv
    obtain ⟨B, hB⟩ := (he n).ctValid_iff.1 hv
    have hl := Engine.ledger hrun hready hp.exclusive hp.keyFirst hgap h0 n
    rw [Engine.Ledger, hB] at hl
    obtain ⟨-, d, k, hj, rfl, hst⟩ := hl
    refine ⟨d, k, hj.load, ?_, hj.key, ?_⟩
    · rw [hcount, ← hj.index, Engine.loads]
    · rw [(he n).cipherText_eq, Engine.output_eq.2 ⟨_, hB, rfl⟩, hst, encrypt_eq]
  · intro d hd
    obtain ⟨hout, hshows⟩ := Engine.shown_after_load hrun hready hp.exclusive hp.keyFirst hgap h0 hd
    exact ⟨d + 23, by omega, (he _).ctValid_eq.trans hout, by rw [hcount, hshows, Engine.loads]⟩

/-! ## Fixed runs -/

/-- The key 0 in cycle 0, and the blocks `a` and `b` in these cycles. -/
def two_blocks (a b n : ℕ) : AES_Top.Inputs := ⟨BitVec.ofNat 128 n, n == 0, n == a || n == b⟩

theorem polite_two_blocks {a b : ℕ} (ha : 0 < a) (hb : 0 < b)
    (hra : (run (AES_Top.step 0#128) (.reset (.posedge 0#128)) (two_blocks a b) a).Ready_new_input = true)
    (hrb : (run (AES_Top.step 0#128) (.reset (.posedge 0#128)) (two_blocks a b) b).Ready_new_input = true) :
    Polite 0#128 (.posedge 0#128) (two_blocks a b) where
  ready n hl := by
    simp only [two_blocks, beq_iff_eq, Bool.or_eq_true] at hl
    rcases hl with rfl | rfl | rfl
    · rfl
    · exact hra
    · exact hrb
  exclusive n hl := by
    simp only [two_blocks, beq_iff_eq, Bool.or_eq_true] at hl
    omega
  keyFirst d hd := by
    simp only [two_blocks, beq_iff_eq, Bool.or_eq_true] at hd
    exact ⟨0, by omega, rfl⟩

theorem handshake_in_order_two_blocks :
    InOrder 0#128 (.posedge 0#128) (two_blocks 30 60) ∧ NoneLost 0#128 (.posedge 0#128) (two_blocks 30 60) := by
  refine handshake_in_order _ _ _ (polite_two_blocks (by decide) (by decide) (by decide +kernel) (by decide +kernel))
    fun n hn => ?_
  simp only [two_blocks, beq_iff_eq, Bool.or_eq_true, beq_eq_false_iff_ne, Bool.or_eq_false_iff] at hn ⊢
  omega

/-- Two blocks in neighbouring cycles, both of them ready: the first ciphertext is that of the second block. -/
theorem handshake_merges :
    Polite 0#128 (.posedge 0#128) (two_blocks 30 31) ∧ ¬ InOrder 0#128 (.posedge 0#128) (two_blocks 30 31) := by
  refine ⟨polite_two_blocks (by decide) (by decide) (by decide +kernel) (by decide +kernel), fun hin => ?_⟩
  let ins := two_blocks 30 31
  let s := run (AES_Top.step 0#128) (.reset (.posedge 0#128)) ins
  -- what the order gives for the first ciphertext, in cycle 53
  obtain ⟨d, k, hd, hcount, hk, htext⟩ := hin 53 (by decide +kernel)
  have hd30 : d = 30 := by
    simp only [two_blocks, beq_iff_eq, Bool.or_eq_true] at hd
    rcases hd with rfl | rfl
    · rfl
    · revert hcount
      decide +kernel
  have hk0 : k = 0 := by simpa [two_blocks] using hk.2.1
  -- what the engine does
  obtain ⟨e, hrun, he, hkey, hdata⟩ : ∃ e, IsRun Engine.step ins e ∧ (∀ n, Refines (s n) (e n)) ∧
      (e 32).Key = 0#128 ∧ (e 32).Data = 31#128 :=
    ⟨run Engine.step .init ins, isRun_run _ _, (refines_reset (.posedge 0#128)).run 0#128 ins, by decide +kernel,
      by decide +kernel⟩
  have hprc : (e 32).phase = .prc := (he 32).pcore_start_iff.1 (by decide +kernel)
  have hc : (e 32).Consistent := by
    refine consistent_run (k := 0) hrun (fun n hl => ?_) (by decide) rfl
    rw [← (he n).ready_eq, show n = 0 by simpa [ins, two_blocks] using hl]
    rfl
  have hout := encrypt_ahead hrun hprc hc
  rw [hkey, hdata, ← (he 53).cipherText_eq, htext, hd30, hk0] at hout
  exact absurd (encrypt_injective 0#128 (Option.some_inj.1 hout)) (by decide)

end Aes128
