import Mathlib.Data.Nat.Init
import Aes128.Clocked
/-!
# Programs of a bus master

A device has one register port. A write takes one cycle, and a read two: the
data of its first cycle is on the port in the second. A master works through a
list of accesses, with idle cycles between them as the schedule has it, and
leaves a cycle idle between a command and a read.

`Verified C prog out` is a program logic for such programs, with one rule per
access: from a state with `C`, the program reads `out`. A condition is kept by
the cycles in which nothing is written, so the rules say nothing about timing,
but for the polls: a poll must end by itself.
-/

namespace Master

variable {S A D : Type*}

/-- One cycle of each kind, and the port. -/
structure Device (S A D : Type*) where
  idle : S → S
  write : A → D → S → S
  read : A → S → S
  data : S → D
  /-- Writes of these addresses start something. -/
  command : A → Bool
  /-- What a poll waits for. -/
  test : D → Bool

inductive Fetch (A : Type*) where
  | read (a : A)
  /-- Repeated until the test holds. -/
  | poll (a : A)

def Fetch.address : Fetch A → A
  | read a => a
  | poll a => a

inductive Access (A D : Type*) where
  | write (a : A) (d : D)
  | fetch (f : Fetch A)

/-- A master at work. -/
structure Session (S A D : Type*) where
  state : S
  todo : List (Access A D)
  /-- The read that is in its second cycle. -/
  pending : Option (Fetch A)
  /-- Cycles since the last command. -/
  since : Option ℕ
  results : List D

namespace Session
variable (dev : Device S A D)

def start (s : S) (todo : List (Access A D)) : Session S A D := ⟨s, todo, none, none, []⟩

def finished (σ : Session S A D) : Prop := σ.todo = [] ∧ σ.pending = none

def tick (t : Option ℕ) : Option ℕ := t.map (· + 1)

def after (a : A) (t : Option ℕ) : Option ℕ := if dev.command a then some 1 else tick t

def rest (σ : Session S A D) : Session S A D := { σ with state := dev.idle σ.state, since := tick σ.since }

/-- The second cycle of a read. -/
def complete (f : Fetch A) (σ : Session S A D) : Session S A D where
  state := dev.read f.address σ.state
  todo := match f with
    | .read _ => σ.todo
    | .poll _ => if dev.test (dev.data σ.state) then σ.todo else .fetch f :: σ.todo
  pending := none
  since := tick σ.since
  results := match f with
    | .read _ => σ.results ++ [dev.data σ.state]
    | .poll _ => σ.results

/-- A cycle; `go` lets the master start its next access. -/
def step (go : Bool) (σ : Session S A D) : Session S A D :=
  match σ.pending, go, σ.todo with
  | some f, _, _ => σ.complete dev f
  | none, true, .write a d :: prog =>
    { σ with state := dev.write a d σ.state, todo := prog, since := after dev a σ.since }
  | none, true, .fetch f :: prog =>
    if σ.since = some 1 then σ.rest dev
    else { σ with state := dev.read f.address σ.state, todo := prog, pending := some f, since := tick σ.since }
  | none, _, _ => σ.rest dev

section Step
variable {dev} {go : Bool} {σ : Session S A D}

theorem step_pending {f : Fetch A} (h : σ.pending = some f) : σ.step dev go = σ.complete dev f := by
  simp only [step, h]

theorem step_write {a : A} {d : D} {prog : List (Access A D)} (h : σ.pending = none) (ht : σ.todo = .write a d :: prog) :
    σ.step dev true = ⟨dev.write a d σ.state, prog, none, after dev a σ.since, σ.results⟩ := by
  simp only [step, h, ht]

theorem step_fetch {f : Fetch A} {prog : List (Access A D)} (h : σ.pending = none) (ht : σ.todo = .fetch f :: prog)
    (h1 : σ.since ≠ some 1) :
    σ.step dev true = ⟨dev.read f.address σ.state, prog, some f, tick σ.since, σ.results⟩ := by
  simp only [step, h, ht, if_neg h1]

theorem step_wait {f : Fetch A} {prog : List (Access A D)} (h : σ.pending = none) (ht : σ.todo = .fetch f :: prog)
    (h1 : σ.since = some 1) : σ.step dev go = σ.rest dev := by
  cases go <;> simp only [step, h, ht, if_pos h1]

theorem step_false (h : σ.pending = none) : σ.step dev false = σ.rest dev := by
  simp only [step, h]

theorem step_finished (h : σ.finished) : σ.step dev go = σ.rest dev := by
  cases go <;> simp only [step, h.1, h.2]

/-- What a cycle can be. -/
theorem step_cases (dev : Device S A D) (go : Bool) (σ : Session S A D) :
    (∃ f, σ.pending = some f ∧ σ.step dev go = σ.complete dev f) ∨
    (σ.pending = none ∧ σ.step dev go = σ.rest dev) ∨
    (σ.pending = none ∧ ∃ a d prog, σ.todo = .write a d :: prog ∧
      σ.step dev go = ⟨dev.write a d σ.state, prog, none, after dev a σ.since, σ.results⟩) ∨
    (σ.pending = none ∧ σ.since ≠ some 1 ∧ ∃ f prog, σ.todo = .fetch f :: prog ∧
      σ.step dev go = ⟨dev.read f.address σ.state, prog, some f, tick σ.since, σ.results⟩) := by
  rcases hp : σ.pending with _ | f
  · right
    cases go with
    | false => exact .inl ⟨rfl, step_false hp⟩
    | true =>
      rcases ht : σ.todo with _ | ⟨⟨a, d⟩ | f, prog⟩
      · exact .inl ⟨rfl, step_finished ⟨ht, hp⟩⟩
      · exact .inr (.inl ⟨rfl, a, d, prog, rfl, step_write hp ht⟩)
      · by_cases h1 : σ.since = some 1
        · exact .inl ⟨rfl, step_wait hp ht h1⟩
        · exact .inr (.inr ⟨rfl, h1, f, prog, rfl, step_fetch hp ht h1⟩)
  · exact .inl ⟨f, rfl, step_pending hp⟩

end Step

end Session

open Session Clocked

/-! ## The logic -/

/-- A condition on the time and the state that lasts until something is written. -/
structure Condition (dev : Device S A D) where
  holds : Option ℕ → S → Prop
  idle : ∀ {t s}, holds t s → holds (tick t) (dev.idle s)
  read : ∀ {t s} (a : A), holds t s → holds (tick t) (dev.read a s)

/-- Late enough for a poll to end. -/
def Late (bound : ℕ) (t : Option ℕ) : Prop := ∀ m, t = some m → bound ≤ m

inductive Verified (dev : Device S A D) (bound : ℕ) : Condition dev → List (Access A D) → List D → Prop
  | nil (C : Condition dev) : Verified dev bound C [] []
  | write {C B : Condition dev} {a : A} {d : D} {prog : List (Access A D)} {out : List D}
    (store : ∀ t s, C.holds t s → B.holds (after dev a t) (dev.write a d s)) (next : Verified dev bound B prog out) :
    Verified dev bound C (.write a d :: prog) out
  | read {C : Condition dev} {a : A} {v : D} {prog : List (Access A D)} {out : List D}
    (value : ∀ t s, t ≠ some 1 → C.holds t s → dev.data (dev.read a s) = v) (next : Verified dev bound C prog out) :
    Verified dev bound C (.fetch (.read a) :: prog) (v :: out)
  | poll {C B : Condition dev} {a : A} {prog : List (Access A D)} {out : List D}
    (exit : ∀ t s, t ≠ some 1 → C.holds t s → dev.test (dev.data (dev.read a s)) = true → B.holds t s)
    (prompt : ∀ t s, t ≠ some 1 → C.holds t s → Late bound t → dev.test (dev.data (dev.read a s)) = true)
    (next : Verified dev bound B prog out) :
    Verified dev bound C (.fetch (.poll a) :: prog) out

section Rules
variable {dev : Device S A D} {bound : ℕ} {prog : List (Access A D)} {out : List D}

/-- The rule of consequence. -/
theorem Verified.of_imp {C B : Condition dev} (h : Verified dev bound C prog out)
    (hB : ∀ t s, B.holds t s → C.holds t s) : Verified dev bound B prog out := by
  induction h with
  | nil => exact .nil B
  | write store next => exact .write (fun t s hs => store t s (hB t s hs)) next
  | read value _ ih => exact .read (fun t s h1 hs => value t s h1 (hB t s hs)) (ih hB)
  | poll exit prompt next =>
    exact .poll (fun t s h1 hs => exit t s h1 (hB t s hs)) (fun t s h1 hs => prompt t s h1 (hB t s hs)) next

/-- A loop of writes, with its invariant. -/
theorem Verified.writes (C : ℕ → Condition dev) {a : ℕ → A} {d : ℕ → D} {n : ℕ}
    (store : ∀ i < n, ∀ t s, (C i).holds t s → (C (i + 1)).holds (after dev (a i) t) (dev.write (a i) (d i) s))
    (next : Verified dev bound (C n) prog out) :
    Verified dev bound (C 0) ((List.range n).map (fun i => .write (a i) (d i)) ++ prog) out := by
  have loop (k j : ℕ) (hj : j + k = n) :
      Verified dev bound (C j) ((List.range' j k).map (fun i => .write (a i) (d i)) ++ prog) out := by
    induction k generalizing j with
    | zero => rwa [show j = n by omega]
    | succ k ih => exact .write (store j (by omega)) (ih (j + 1) (by omega))
  rw [List.range_eq_range']
  exact loop n 0 (Nat.zero_add n)

/-- A loop of reads. -/
theorem Verified.reads {C : Condition dev} {a : ℕ → A} {v : ℕ → D} {n : ℕ}
    (value : ∀ i < n, ∀ t s, t ≠ some 1 → C.holds t s → dev.data (dev.read (a i) s) = v i)
    (next : Verified dev bound C prog out) :
    Verified dev bound C ((List.range n).map (fun i => .fetch (.read (a i))) ++ prog)
      ((List.range n).map v ++ out) := by
  have loop (k j : ℕ) (hj : j + k = n) :
      Verified dev bound C ((List.range' j k).map (fun i => .fetch (.read (a i))) ++ prog)
        ((List.range' j k).map v ++ out) := by
    induction k generalizing j with
    | zero => exact next
    | succ k ih => exact .read (value j (by omega)) (ih (j + 1) (by omega))
  rw [List.range_eq_range']
  exact loop n 0 (Nat.zero_add n)

end Rules

/-! ## Soundness -/

section Sound
variable {dev : Device S A D} {bound : ℕ}

/-- A session with `out` still to come. -/
inductive Sound (dev : Device S A D) (bound : ℕ) (out : List D) (σ : Session S A D) : Prop
  | next {C : Condition dev} (h : σ.pending = none) (hv : Verified dev bound C σ.todo out)
    (hC : C.holds σ.since σ.state)
  | read {C : Condition dev} {a : A} {out' : List D} (h : σ.pending = some (.read a))
    (hout : out = dev.data σ.state :: out') (hv : Verified dev bound C σ.todo out') (hC : C.holds σ.since σ.state)
  | poll {C B : Condition dev} {a : A} {t : Option ℕ} (h : σ.pending = some (.poll a)) (ht : σ.since = tick t)
    (hlate : Late bound t → dev.test (dev.data σ.state) = true)
    (hpoll : Verified dev bound C (.fetch (.poll a) :: σ.todo) out) (hC : C.holds σ.since σ.state)
    (hv : Verified dev bound B σ.todo out) (hB : dev.test (dev.data σ.state) = true → B.holds σ.since σ.state)

theorem Sound.step {out : List D} {σ : Session S A D} (h : Sound dev bound out σ) (go : Bool) :
    ∃ out', Sound dev bound out' (σ.step dev go) ∧ (σ.step dev go).results ++ out' = σ.results ++ out := by
  cases h with
  | @next C hp hv hC =>
    rcases step_cases dev go σ with ⟨f, hf, -⟩ | ⟨-, he⟩ | ⟨-, a, d, prog, ht, he⟩ | ⟨-, h1, f, prog, ht, he⟩
    · rw [hp] at hf; cases hf
    · rw [he]
      exact ⟨out, .next hp hv (C.idle hC), rfl⟩
    · rw [ht] at hv
      rw [he]
      cases hv with
      | write store next => exact ⟨out, .next rfl next (store _ _ hC), rfl⟩
    · rw [ht] at hv
      rw [he]
      cases hv with
      | read value next => exact ⟨_, .read rfl (by rw [← value _ _ h1 hC]; rfl) next (C.read _ hC), rfl⟩
      | @poll _ B _ _ _ exit prompt next =>
        exact ⟨out, .poll rfl rfl (prompt _ _ h1 hC) (.poll exit prompt next) (C.read _ hC) next
          fun ht => B.read _ (exit _ _ h1 hC ht), rfl⟩
  | @read C a out' hp hout hv hC =>
    rw [step_pending hp, hout]
    exact ⟨out', .next rfl hv (C.read a hC), by simp [complete]⟩
  | @poll C B a t hp ht hlate hpoll hC hv hB =>
    rw [step_pending hp]
    refine ⟨out, ?_, rfl⟩
    by_cases htest : dev.test (dev.data σ.state) = true
    · exact .next rfl (by simpa [complete, htest] using hv) (B.read a (hB htest))
    · exact .next rfl (by simpa [complete, htest] using hpoll) (C.read a hC)

variable {C : Condition dev} {prog : List (Access A D)} {out : List D} {s : S}
  (hv : Verified dev bound C prog out) (hs : C.holds none s) (sched : ℕ → Bool)

include hv hs in
theorem Verified.sound (n : ℕ) :
    ∃ out', Sound dev bound out' (run (Session.step dev) (start s prog) sched n) ∧
      (run (Session.step dev) (start s prog) sched n).results ++ out' = out := by
  induction n with
  | zero => exact ⟨out, .next rfl hv hs, rfl⟩
  | succ n ih =>
    obtain ⟨out₁, h₁, ho₁⟩ := ih
    obtain ⟨out₂, h₂, ho₂⟩ := h₁.step (sched n)
    exact ⟨out₂, h₂, ho₂.trans ho₁⟩

include hv hs in
/-- The results come in order. -/
theorem Verified.results_prefix (n : ℕ) : (run (Session.step dev) (start s prog) sched n).results <+: out := by
  obtain ⟨out', -, ho⟩ := hv.sound hs sched n
  exact ⟨out', ho⟩

include hv hs in
/-- And at the end they are complete. -/
theorem Verified.results_finished {n : ℕ} (h : (run (Session.step dev) (start s prog) sched n).finished) :
    (run (Session.step dev) (start s prog) sched n).results = out := by
  obtain ⟨out', hsound, ho⟩ := hv.sound hs sched n
  cases hsound with
  | next hp hv hC =>
    rw [h.1] at hv
    cases hv
    rwa [List.append_nil] at ho
  | read hp => rw [h.2] at hp; cases hp
  | poll hp => rw [h.2] at hp; cases hp

/-- A late poll ends. -/
theorem Sound.late {σ : Session S A D} (h : Sound dev bound out σ) {a : A} {prog : List (Access A D)}
    (hp : σ.pending = none) (ht : σ.todo = .fetch (.poll a) :: prog) (h1 : σ.since ≠ some 1)
    (hl : Late bound σ.since) : dev.test (dev.data (dev.read a σ.state)) = true := by
  cases h with
  | next _ hv hC =>
    rw [ht] at hv
    cases hv with
    | poll exit prompt next => exact prompt _ _ h1 hC hl
  | read h => rw [hp] at h; cases h
  | poll h => rw [hp] at h; cases h

end Sound

/-! ## Termination -/

section Finish
variable {dev : Device S A D} {bound : ℕ}

/-- Accesses left. -/
def Session.left (σ : Session S A D) : ℕ := σ.todo.length + σ.pending.elim 0 fun _ => 1

theorem Session.left_step_le (go : Bool) (σ : Session S A D) : (σ.step dev go).left ≤ σ.left := by
  rcases step_cases dev go σ with ⟨f, hf, he⟩ | ⟨hp, he⟩ | ⟨hp, a, d, prog, ht, he⟩ | ⟨hp, h1, f, prog, ht, he⟩
  · rw [he]
    cases f with
    | read a => simp [left, complete, hf]
    | poll a => simp only [left, complete, hf]; split <;> simp
  · rw [he]
    exact Nat.le_refl _
  · simp [he, left, ht, hp]
  · simp [he, left, ht, hp]

/-- A cycle in which no access ends takes time, and nothing else. -/
theorem Session.since_step {go : Bool} {σ : Session S A D} (h : (σ.step dev go).left = σ.left) :
    (σ.step dev go).since = tick σ.since := by
  rcases step_cases dev go σ with ⟨f, hf, he⟩ | ⟨hp, he⟩ | ⟨hp, a, d, prog, ht, he⟩ | ⟨hp, h1, f, prog, ht, he⟩
  · rw [he]
    cases f <;> rfl
  · rw [he, rest]
  · simp [he, left, ht, hp] at h
  · rw [he]

/-- Two cycles after the poll has become late, the master gets on with its program. -/
theorem Sound.left_lt {out : List D} {σ : Session S A D} (h : Sound dev bound out σ) (hf : ¬ σ.finished)
    (hl : Late (bound + 2) σ.since) (go : Bool) : ((σ.step dev true).step dev go).left < σ.left := by
  have h1 : σ.since ≠ some 1 := by
    intro h
    have := hl 1 h
    omega
  rcases hp : σ.pending with _ | ⟨a⟩ | ⟨a⟩
  · rcases ht : σ.todo with _ | ⟨⟨a, d⟩ | ⟨a⟩ | ⟨a⟩, prog⟩
    · exact absurd ⟨ht, hp⟩ hf
    · refine Nat.lt_of_le_of_lt (left_step_le go _) ?_
      simp [step_write hp ht, left, ht, hp]
    · rw [step_fetch hp ht h1, step_pending rfl]
      simp [complete, left, ht, hp]
    · have htest := h.late hp ht h1 fun m hm => by have := hl m hm; omega
      rw [step_fetch hp ht h1, step_pending rfl]
      simp [complete, Fetch.address, htest, left, ht, hp]
  · refine Nat.lt_of_le_of_lt (left_step_le go _) ?_
    simp [step_pending hp, complete, left, hp]
  · refine Nat.lt_of_le_of_lt (left_step_le go _) ?_
    have htest : dev.test (dev.data σ.state) = true := by
      cases h with
      | next h => rw [hp] at h; cases h
      | read h => rw [hp] at h; cases h
      | poll h ht hlate =>
        refine hlate fun m hm => ?_
        have := hl (m + 1) (by rw [ht, hm]; rfl)
        omega
    simp [step_pending hp, complete, htest, left, hp]

variable {σ : ℕ → Session S A D} {sched : ℕ → Bool} (hσ : IsRun (Session.step dev) sched σ)

include hσ in
theorem left_antitone {m n : ℕ} (h : m ≤ n) : (σ n).left ≤ (σ m).left := by
  induction n, h using Nat.le_induction with
  | base => exact Nat.le_refl _
  | succ n _ ih => rw [hσ n]; exact Nat.le_trans (left_step_le _ _) ih

include hσ in
/-- While no access ends, time passes. -/
theorem since_add {n k : ℕ} (h : ∀ j ≤ k, (σ (n + j)).left = (σ n).left) :
    (σ (n + k)).since = (σ n).since.map (· + k) := by
  induction k with
  | zero => simp
  | succ k ih =>
    have hleft : ((σ (n + k)).step dev (sched (n + k))).left = (σ (n + k)).left := by
      rw [← hσ (n + k), Nat.add_assoc, h (k + 1) (Nat.le_refl _), h k (Nat.le_succ k)]
    rw [← Nat.add_assoc, hσ (n + k), since_step hleft, ih fun j hj => h j (Nat.le_succ_of_le hj), tick, Option.map_map]
    rfl

include hσ in
theorem since_run {n : ℕ} (h : ∀ k, n ≤ k → (σ k).left = (σ n).left) (k : ℕ) :
    (σ (n + k)).since = (σ n).since.map (· + k) :=
  since_add hσ fun j _ => h (n + j) (Nat.le_add_right n j)

include hσ in
/-- A sound session whose master is let go again and again comes to its end. -/
theorem exists_finished (hs : ∀ n, ∃ out, Sound dev bound out (σ n)) (hfair : ∀ m, ∃ n ≥ m, sched n = true) (n : ℕ) :
    ∃ m, (σ m).finished := by
  generalize hN : (σ n).left = N
  induction N using Nat.strong_induction_on generalizing n with
  | _ N ih =>
    by_cases hless : ∃ k, n ≤ k ∧ (σ k).left < N
    · obtain ⟨k, -, hk⟩ := hless
      exact ih _ hk k rfl
    · simp only [not_exists, not_and, Nat.not_lt] at hless
      have hconst (k : ℕ) (hk : n ≤ k) : (σ k).left = (σ n).left :=
        Nat.le_antisymm (left_antitone hσ hk) (hN ▸ hless k hk)
      obtain ⟨k, hk, hgo⟩ := hfair (n + (bound + 2))
      obtain ⟨j, rfl⟩ := Nat.exists_eq_add_of_le (show n ≤ k by omega)
      refine ⟨n + j, by_contra fun hf => ?_⟩
      obtain ⟨out, hsound⟩ := hs (n + j)
      have hlate : Late (bound + 2) (σ (n + j)).since := by
        rw [since_run hσ hconst j]
        intro m hm
        obtain ⟨i, -, rfl⟩ := Option.map_eq_some_iff.1 hm
        omega
      have hlt := hsound.left_lt hf hlate (sched (n + j + 1))
      rw [← hgo, ← hσ (n + j), ← hσ (n + j + 1), hconst (n + j) (by omega), hN] at hlt
      exact absurd hlt (Nat.not_lt.2 (hless (n + j + 1 + 1) (by omega)))

/-! With a bound on the idle cycles of the master, there is one on the whole session. -/

theorem Session.finished_iff_left (σ : Session S A D) : σ.finished ↔ σ.left = 0 := by
  unfold finished left
  rcases σ.pending with _ | f <;> simp

section Time
variable (hs : ∀ n, ∃ out, Sound dev bound out (σ n)) {w : ℕ} (hgap : ∀ m, ∃ n ≥ m, n < m + w ∧ sched n = true)

include hσ hs hgap in
theorem left_lt_within {n : ℕ} (hn : (σ n).left ≠ 0) : (σ (n + (bound + w + 3))).left < (σ n).left := by
  by_contra hge
  have hconst (j : ℕ) (hj : j ≤ bound + w + 3) : (σ (n + j)).left = (σ n).left := by
    have h₁ := left_antitone hσ (show n ≤ n + j by omega)
    have h₂ := left_antitone hσ (show n + j ≤ n + (bound + w + 3) by omega)
    omega
  obtain ⟨k, hk, hkw, hgo⟩ := hgap (n + (bound + 2))
  obtain ⟨j, rfl⟩ := Nat.exists_eq_add_of_le (show n ≤ k by omega)
  obtain ⟨out, hsound⟩ := hs (n + j)
  have hlate : Late (bound + 2) (σ (n + j)).since := by
    rw [since_add hσ fun i hi => hconst i (by omega)]
    intro m hm
    obtain ⟨i, -, rfl⟩ := Option.map_eq_some_iff.1 hm
    omega
  have hbusy : ¬ (σ (n + j)).finished := by
    rw [finished_iff_left, hconst j (by omega)]
    exact hn
  have hlt := hsound.left_lt hbusy hlate (sched (n + j + 1))
  rw [← hgo, ← hσ (n + j), ← hσ (n + j + 1), Nat.add_assoc n, Nat.add_assoc n, hconst j (by omega),
    hconst (j + 1 + 1) (by omega)] at hlt
  exact Nat.lt_irrefl _ hlt

include hσ hs hgap in
/-- Each access takes at most `bound + w + 3` cycles. -/
theorem finished_within {n N : ℕ} (hN : (σ n).left ≤ N) {m : ℕ} (hm : n + (bound + w + 3) * N ≤ m) :
    (σ m).finished := by
  induction N generalizing n with
  | zero =>
    have hle := left_antitone hσ (show n ≤ m by omega)
    rw [finished_iff_left]
    omega
  | succ N ih =>
    by_cases hn : (σ n).left = 0
    · have hle := left_antitone hσ (show n ≤ m by rw [Nat.mul_succ] at hm; omega)
      rw [finished_iff_left]
      omega
    · have hlt := left_lt_within hσ hs hgap hn
      refine ih (n := n + (bound + w + 3)) (by omega) ?_
      rw [Nat.mul_succ] at hm
      omega

end Time

end Finish

/-! ## Polls without an end -/

section Stuck
variable {dev : Device S A D} {C : Condition dev} {a : A} {prog : List (Access A D)}

/-- A session at a poll. -/
inductive Stuck (C : Condition dev) (a : A) (prog : List (Access A D)) (σ : Session S A D) : Prop
  | next (hp : σ.pending = none) (ht : σ.todo = .fetch (.poll a) :: prog) (hr : σ.results = [])
    (hC : C.holds σ.since σ.state)
  | poll (hp : σ.pending = some (.poll a)) (ht : σ.todo = prog) (htest : dev.test (dev.data σ.state) = false)
    (hr : σ.results = []) (hC : C.holds σ.since σ.state)

theorem Stuck.step (hno : ∀ t s, C.holds t s → dev.test (dev.data (dev.read a s)) = false) {σ : Session S A D}
    (h : Stuck C a prog σ) (go : Bool) : Stuck C a prog (σ.step dev go) := by
  cases h with
  | next hp ht hr hC =>
    rcases step_cases dev go σ with ⟨f, hf, -⟩ | ⟨-, he⟩ | ⟨-, b, d, prog', ht', -⟩ | ⟨-, -, f, prog', ht', he⟩
    · rw [hp] at hf; cases hf
    · rw [he]
      exact .next hp ht hr (C.idle hC)
    · rw [ht] at ht'; cases ht'
    · rw [ht] at ht'
      cases ht'
      rw [he]
      exact .poll rfl rfl (hno _ _ hC) hr (C.read a hC)
  | poll hp ht htest hr hC =>
    rw [step_pending hp]
    exact .next rfl (by simp [complete, htest, ht]) hr (C.read a hC)

/-- When no state of the condition lets a poll end, no session gets past it. -/
theorem poll_stuck (hno : ∀ t s, C.holds t s → dev.test (dev.data (dev.read a s)) = false) {s : S}
    (hs : C.holds none s) (sched : ℕ → Bool) (n : ℕ) :
    Stuck C a prog (run (Session.step dev) (start s (.fetch (.poll a) :: prog)) sched n) := by
  induction n with
  | zero => exact .next rfl rfl rfl hs
  | succ n ih => exact ih.step hno (sched n)

end Stuck

/-- A verified program ends. -/
theorem Verified.exists_finished {dev : Device S A D} {bound : ℕ} {C : Condition dev} {prog : List (Access A D)}
    {out : List D} {s : S} (hv : Verified dev bound C prog out) (hs : C.holds none s) {sched : ℕ → Bool}
    (hfair : ∀ m, ∃ n ≥ m, sched n = true) : ∃ n, (run (Session.step dev) (start s prog) sched n).finished := by
  have hsound (n : ℕ) : ∃ out', Sound dev bound out' (run (Session.step dev) (start s prog) sched n) := by
    obtain ⟨out', h, -⟩ := hv.sound hs sched n
    exact ⟨out', h⟩
  exact Master.exists_finished (isRun_run _ _) hsound hfair 0

/-- And within a bound, when the master is let go once in every `w` cycles. -/
theorem Verified.finished_within {dev : Device S A D} {bound : ℕ} {C : Condition dev} {prog : List (Access A D)}
    {out : List D} {s : S} (hv : Verified dev bound C prog out) (hs : C.holds none s) {sched : ℕ → Bool} {w : ℕ}
    (hgap : ∀ m, ∃ n ≥ m, n < m + w ∧ sched n = true) {n : ℕ} (hn : (bound + w + 3) * prog.length ≤ n) :
    (run (Session.step dev) (start s prog) sched n).finished := by
  have hsound (n : ℕ) : ∃ out', Sound dev bound out' (run (Session.step dev) (start s prog) sched n) := by
    obtain ⟨out', h, -⟩ := hv.sound hs sched n
    exact ⟨out', h⟩
  exact Master.finished_within (isRun_run _ _) hsound hgap (n := 0) (N := prog.length) (Nat.le_refl _) (by omega)

/-- And its polls end once they are late. -/
theorem Verified.poll_ends {dev : Device S A D} {bound : ℕ} {C : Condition dev} {prog : List (Access A D)}
    {out : List D} {s : S} (hv : Verified dev bound C prog out) (hs : C.holds none s) {σ : ℕ → Session S A D}
    {sched : ℕ → Bool} (hσ : σ = run (Session.step dev) (start s prog) sched) {n : ℕ} {a : A}
    {prog' : List (Access A D)} (hp : (σ n).pending = none) (ht : (σ n).todo = .fetch (.poll a) :: prog')
    (h1 : (σ n).since ≠ some 1) (hl : Late bound (σ n).since) (hgo : sched n = true) :
    (σ (n + 1)).pending = some (.poll a) ∧ dev.test (dev.data (σ (n + 1)).state) = true ∧
      (σ (n + 2)).todo = prog' := by
  have hstep (k : ℕ) : σ (k + 1) = (σ k).step dev (sched k) := by
    subst hσ
    rfl
  obtain ⟨out', hsound, -⟩ := hv.sound hs sched n
  rw [← hσ] at hsound
  have htest := hsound.late hp ht h1 hl
  have hnext : σ (n + 1) = ⟨dev.read a (σ n).state, prog', some (.poll a), tick (σ n).since, (σ n).results⟩ := by
    rw [hstep, hgo, step_fetch hp ht h1]
    rfl
  have hnext' : σ (n + 2) = (σ (n + 1)).complete dev (.poll a) := by
    rw [hstep, step_pending (by rw [hnext])]
  rw [hnext', hnext]
  exact ⟨rfl, htest, if_pos htest⟩

end Master
