import Aes128.Sessions
import Aes128.Translator
/-!
# source.c on the Qsys system

The path of a C access in system.v: the byte address of `IORD` and `IOWR`, the
address router of the data master, the translator of the slave, the wrapper. The
host holds its request until the translator accepts it, and waits for the answer
of a read before it goes on. The agents and crossbars between the router and the
translator pass a request on; what they take of time is part of the schedule here,
and modelled in Interconnect.lean.

One cycle of the system is one cycle of a session (`Sim.step`), so what is proved
of sessions holds of the system.
-/

open Clocked Master

namespace Aes128

/-! ## Addresses -/

/-- system.h -/
def IP_SLAVE_0_BASE : BitVec 17 := 0x11000#17

/-- io.h: registers are words of `SYSTEM_BUS_WIDTH`, 32 bits. -/
def IO_CALC_ADDRESS_NATIVE (BASE : BitVec 17) (REGNUM : BitVec 4) : BitVec 17 := BASE + REGNUM.setWidth 17 * 4#17

/-- system_addr_router_001.sv: one bit for each slave. The assignments are made one after the other. -/
def system_addr_router_001.src_channel (address : BitVec 17) : BitVec 4 := Id.run do
  let mut src_channel := 0b0010#4
  if address.extractLsb 16 15 ++ 0#15 = 0x8000#17 then src_channel := 0b0010#4
  if address.extractLsb 16 11 ++ 0#11 = 0x10800#17 then src_channel := 0b0001#4
  if address.extractLsb 16 6 ++ 0#6 = 0x11000#17 then src_channel := 0b1000#4
  if address.extractLsb 16 3 ++ 0#3 = 0x11048#17 then src_channel := 0b0100#4
  return src_channel

/-! ## The host -/

namespace Host

/-- What the host does in a cycle. -/
inductive Port where
  | free
  | request (a : Access (BitVec 4) (BitVec 32))
  /-- The read has been accepted, and its answer has not come yet. -/
  | waiting (f : Fetch (BitVec 4))

end Host

structure Host where
  port : Host.Port
  todo : List (Access (BitVec 4) (BitVec 32))
  results : List (BitVec 32)

namespace Host

/-- The start of the next access. -/
def issue (go : Bool) (h : Host) : Host :=
  match go, h.todo with
  | true, a :: prog => { h with port := .request a, todo := prog }
  | _, _ => { h with port := .free }

theorem issue_free {go : Bool} {h : Host} (hno : go = false ∨ h.todo = []) : h.issue go = { h with port := .free } := by
  rcases hno with rfl | hno
  · rfl
  · cases go <;> simp only [issue, hno]

theorem issue_cons {h : Host} {a : Access (BitVec 4) (BitVec 32)} {prog : List (Access (BitVec 4) (BitVec 32))}
    (ht : h.todo = a :: prog) : h.issue true = { h with port := .request a, todo := prog } := by
  simp only [issue, ht]

/-- The answer of a read; a poll whose test fails is made again. -/
def take (f : Fetch (BitVec 4)) (d : BitVec 32) (h : Host) : Host :=
  match f with
  | .read _ => { h with results := h.results ++ [d] }
  | .poll _ => if d &&& 0x1#32 != 0#32 then h else { h with todo := .fetch f :: h.todo }

/-- The words that have been read are kept. -/
theorem results_take (f : Fetch (BitVec 4)) (d : BitVec 32) (h : Host) : h.results <+: (h.take f d).results := by
  cases f with
  | read a => exact List.prefix_append _ _
  | poll a =>
    simp only [take]
    split <;> exact List.prefix_refl _

/-- A read never follows a command without a cycle between them: the Nios II/e always leaves one. -/
def may_follow (a : BitVec 4) : List (Access (BitVec 4) (BitVec 32)) → Bool
  | .fetch _ :: _ => !(a == 4#4 || a == 5#4)
  | _ => true

/-- A cycle; `go` lets the host start its next access. In the last cycle of a write of address 4 or 5 it does not let
it start a read, so that there is a cycle between the two, whatever the schedule says. -/
def step (go uav_waitrequest uav_readdatavalid : Bool) (uav_readdata : BitVec 32) (h : Host) : Host :=
  match h.port with
  | .free => h.issue go
  | .request a =>
    if uav_waitrequest then h
    else match a with
      | .write a _ => h.issue (go && may_follow a h.todo)
      | .fetch f => { h with port := .waiting f }
  | .waiting f => if uav_readdatavalid then (h.take f uav_readdata).issue go else h

/-- The request, as far as the router lets it through to the slave. -/
def uav (h : Host) : altera_merlin_slave_translator.Inputs :=
  match h.port with
  | .request (.write a d) =>
    let address := IO_CALC_ADDRESS_NATIVE IP_SLAVE_0_BASE a
    ⟨address, d, (system_addr_router_001.src_channel address).getLsbD 3, false⟩
  | .request (.fetch f) =>
    let address := IO_CALC_ADDRESS_NATIVE IP_SLAVE_0_BASE f.address
    ⟨address, 0#32, false, (system_addr_router_001.src_channel address).getLsbD 3⟩
  | _ => ⟨0#17, 0#32, false, false⟩

def start (prog : List (Access (BitVec 4) (BitVec 32))) : Host := ⟨.free, prog, []⟩

def finished (h : Host) : Prop := h.port = .free ∧ h.todo = []

end Host

/-! ## system.v -/

structure system where
  host : Host
  ip_slave_0_avalon_slave_0_translator : altera_merlin_slave_translator
  ip_slave_0 : wrapper_finalv2

namespace system

/-- The port of the slave. -/
def avalon_anti_slave_0 (s : system) : wrapper_finalv2.Inputs where
  iChipSelect_n := !altera_merlin_slave_translator.av_chipselect s.host.uav
  iWrite_n := !s.ip_slave_0_avalon_slave_0_translator.av_write ip_slave_0_parameters s.host.uav
  iRead_n := !s.ip_slave_0_avalon_slave_0_translator.av_read ip_slave_0_parameters s.host.uav
  iAddress := altera_merlin_slave_translator.av_address s.host.uav
  iData := s.host.uav.uav_writedata

def step (x : BitVec 128) (go : Bool) (s : system) : system where
  host := s.host.step go (s.ip_slave_0_avalon_slave_0_translator.uav_waitrequest ip_slave_0_parameters s.host.uav)
    s.ip_slave_0_avalon_slave_0_translator.uav_readdatavalid s.ip_slave_0_avalon_slave_0_translator.uav_readdata
  ip_slave_0_avalon_slave_0_translator :=
    s.ip_slave_0_avalon_slave_0_translator.step ip_slave_0_parameters s.host.uav s.ip_slave_0.oData
  ip_slave_0 := s.ip_slave_0.step x s.avalon_anti_slave_0

/-- After a reset, with a program for the host. -/
def reset (rom : S_box) (prog : List (Access (BitVec 4) (BitVec 32))) : system :=
  ⟨.start prog, .reset, .reset rom⟩

end system

/-! ## The three cycles of the slave -/

theorem src_channel_register (a : BitVec 4) :
    (system_addr_router_001.src_channel (IO_CALC_ADDRESS_NATIVE IP_SLAVE_0_BASE a)).getLsbD 3 = true := by
  revert a
  decide +kernel

theorem register_address (a : BitVec 4) (d : BitVec 32) (w r : Bool) :
    altera_merlin_slave_translator.av_address ⟨IO_CALC_ADDRESS_NATIVE IP_SLAVE_0_BASE a, d, w, r⟩ = a := by
  change (IO_CALC_ADDRESS_NATIVE IP_SLAVE_0_BASE a).extractLsb' 2 4 = a
  revert a
  decide +kernel

namespace system
variable {s : system}

theorem uav_write {a : BitVec 4} {d : BitVec 32} (hp : s.host.port = .request (.write a d)) :
    s.host.uav = ⟨IO_CALC_ADDRESS_NATIVE IP_SLAVE_0_BASE a, d, true, false⟩ := by
  simp only [Host.uav, hp, src_channel_register]

theorem uav_fetch {f : Fetch (BitVec 4)} (hp : s.host.port = .request (.fetch f)) :
    s.host.uav = ⟨IO_CALC_ADDRESS_NATIVE IP_SLAVE_0_BASE f.address, 0#32, false, true⟩ := by
  simp only [Host.uav, hp, src_channel_register]

theorem uav_none (hr : ∀ a, s.host.port ≠ .request a) : s.host.uav = ⟨0#17, 0#32, false, false⟩ := by
  unfold Host.uav
  rcases hp : s.host.port with _ | a | f
  · rfl
  · exact absurd hp (hr a)
  · rfl

theorem avalon_idle (hr : ∀ a, s.host.port ≠ .request a) : s.avalon_anti_slave_0 = .idle := by
  unfold avalon_anti_slave_0 altera_merlin_slave_translator.av_write altera_merlin_slave_translator.av_read
  rw [uav_none hr]
  simp [wrapper_finalv2.Inputs.idle, altera_merlin_slave_translator.av_chipselect,
    altera_merlin_slave_translator.Inputs.request, altera_merlin_slave_translator.av_address]

/-- A write is seen, and accepted, in its only cycle. -/
theorem avalon_write {a : BitVec 4} {d : BitVec 32} (hp : s.host.port = .request (.write a d))
    (hc : s.ip_slave_0_avalon_slave_0_translator.wait_latency_counter = 0)
    (ho : s.ip_slave_0_avalon_slave_0_translator.waitrequest_reset_override = false) :
    s.avalon_anti_slave_0 = .writing a d ∧
      s.ip_slave_0_avalon_slave_0_translator.uav_waitrequest ip_slave_0_parameters s.host.uav = false := by
  have hle : s.ip_slave_0_avalon_slave_0_translator.wait_latency_counter ≤
      s.host.uav.latency ip_slave_0_parameters := by
    rw [hc]
    exact Nat.zero_le _
  constructor
  · unfold avalon_anti_slave_0
    rw [altera_merlin_slave_translator.av_write_eq hle, altera_merlin_slave_translator.av_read_eq, uav_write hp, hc,
      register_address]
    rfl
  · rw [altera_merlin_slave_translator.waitrequest_eq hle ho, uav_write hp, hc]
    rfl

/-- A read is seen in two cycles, and accepted in the second. -/
theorem avalon_read {f : Fetch (BitVec 4)} (hp : s.host.port = .request (.fetch f))
    (hc : s.ip_slave_0_avalon_slave_0_translator.wait_latency_counter ≤ 1)
    (ho : s.ip_slave_0_avalon_slave_0_translator.waitrequest_reset_override = false) :
    s.avalon_anti_slave_0 = .reading f.address ∧
      s.ip_slave_0_avalon_slave_0_translator.uav_waitrequest ip_slave_0_parameters s.host.uav =
        decide (s.ip_slave_0_avalon_slave_0_translator.wait_latency_counter < 1) := by
  have hlat : s.host.uav.latency ip_slave_0_parameters = 1 := by
    rw [uav_fetch hp]
    rfl
  have hle : s.ip_slave_0_avalon_slave_0_translator.wait_latency_counter ≤
      s.host.uav.latency ip_slave_0_parameters := by
    rw [hlat]
    exact hc
  constructor
  · unfold avalon_anti_slave_0
    rw [altera_merlin_slave_translator.av_write_eq hle, altera_merlin_slave_translator.av_read_eq, uav_fetch hp,
      register_address]
    rfl
  · rw [altera_merlin_slave_translator.waitrequest_eq hle ho, hlat]

/-! ## The system and the session -/

/-- The session that the system is in. The answer of a read is in the session one cycle before it is at the host. -/
inductive Sim (s : system) : Session wrapper_finalv2 (BitVec 4) (BitVec 32) → Prop
  | free {t : Option ℕ} (hp : s.host.port = .free) (h0 : t ≠ some 0) :
    Sim s ⟨s.ip_slave_0, s.host.todo, none, t, s.host.results⟩
  | first {t : Option ℕ} {a : Access (BitVec 4) (BitVec 32)} (hp : s.host.port = .request a)
    (hc : s.ip_slave_0_avalon_slave_0_translator.wait_latency_counter = 0)
    (ho : s.ip_slave_0_avalon_slave_0_translator.waitrequest_reset_override = false) (h0 : t ≠ some 0)
    (h1 : ∀ f, a = .fetch f → t ≠ some 1) :
    Sim s ⟨s.ip_slave_0, a :: s.host.todo, none, t, s.host.results⟩
  | second {t : Option ℕ} {f : Fetch (BitVec 4)} (hp : s.host.port = .request (.fetch f))
    (hc : s.ip_slave_0_avalon_slave_0_translator.wait_latency_counter = 1)
    (ho : s.ip_slave_0_avalon_slave_0_translator.waitrequest_reset_override = false) (h0 : t ≠ some 0) :
    Sim s ⟨s.ip_slave_0, s.host.todo, some f, t, s.host.results⟩
  | waiting {t : Option ℕ} {f : Fetch (BitVec 4)} (hp : s.host.port = .waiting f)
    (hv : s.ip_slave_0_avalon_slave_0_translator.read_latency_shift_reg = true) (h0 : t ≠ some 0) :
    Sim s ⟨s.ip_slave_0, (s.host.take f s.ip_slave_0_avalon_slave_0_translator.av_readdata_pre).todo, none, t,
      (s.host.take f s.ip_slave_0_avalon_slave_0_translator.av_readdata_pre).results⟩

/-- Cycles in which the session gets on with its program. -/
def moves (s : system) : Bool :=
  match s.host.port with
  | .free => s.host.todo.isEmpty
  | .request _ => s.ip_slave_0_avalon_slave_0_translator.wait_latency_counter == 0
  | .waiting _ => false

theorem tick_ne_zero (t : Option ℕ) : Session.tick t ≠ some 0 := by
  cases t <;> simp [Session.tick]

theorem tick_ne_one {t : Option ℕ} (h0 : t ≠ some 0) : Session.tick t ≠ some 1 := by
  cases t <;> simp_all [Session.tick]

/-- The start of the next access, in a cycle that ends the last one. -/
theorem Sim.issue {s : system} {h : Host} {go : Bool} {t : Option ℕ} (hs : s.host = h.issue go)
    (hc : s.ip_slave_0_avalon_slave_0_translator.wait_latency_counter = 0)
    (ho : s.ip_slave_0_avalon_slave_0_translator.waitrequest_reset_override = false) (h0 : t ≠ some 0)
    (h1 : ∀ f prog, go = true → h.todo = .fetch f :: prog → t ≠ some 1) :
    Sim s ⟨s.ip_slave_0, h.todo, none, t, h.results⟩ := by
  have hfree (hh : s.host = { h with port := .free }) : Sim s ⟨s.ip_slave_0, h.todo, none, t, h.results⟩ := by
    have hsim := Sim.free (s := s) (by rw [hh]) h0
    rwa [hh] at hsim
  cases go with
  | false => exact hfree (by rw [hs, Host.issue_free (.inl rfl)])
  | true =>
    rcases htodo : h.todo with _ | ⟨a, prog⟩
    · rw [← htodo]
      exact hfree (by rw [hs, Host.issue_free (.inr htodo)])
    · have hh := hs.trans (Host.issue_cons htodo)
      have hsim := Sim.first (s := s) (by rw [hh]) hc ho h0 fun f hf => h1 f prog rfl (by rw [htodo, hf])
      rwa [hh] at hsim

/-- A cycle without a request. -/
theorem step_idle {s : system} (hr : ∀ a, s.host.port ≠ .request a) (x : BitVec 128) (go : Bool) :
    (s.step x go).ip_slave_0_avalon_slave_0_translator.wait_latency_counter = 0 ∧
      (s.step x go).ip_slave_0 = s.ip_slave_0.step x .idle := by
  constructor
  · refine altera_merlin_slave_translator.counter_step_zero (.inr (.inr ?_)) _
    rw [uav_none hr]
    rfl
  · rw [← avalon_idle hr]
    rfl

/-- The cycle in which a read is accepted. -/
theorem step_second {s : system} {f : Fetch (BitVec 4)} (hp : s.host.port = .request (.fetch f))
    (hc : s.ip_slave_0_avalon_slave_0_translator.wait_latency_counter = 1)
    (ho : s.ip_slave_0_avalon_slave_0_translator.waitrequest_reset_override = false) (x : BitVec 128) (go : Bool) :
    (s.step x go).host = { s.host with port := .waiting f } := by
  have hwait := (avalon_read hp (Nat.le_of_eq hc) ho).2
  rw [hc] at hwait
  simp only [system.step, Host.step, hp, hwait]
  rfl

/-- The cycle of an answer. -/
theorem step_waiting {s : system} {f : Fetch (BitVec 4)} (hp : s.host.port = .waiting f)
    (hv : s.ip_slave_0_avalon_slave_0_translator.read_latency_shift_reg = true) (x : BitVec 128) (go : Bool) :
    (s.step x go).host = (s.host.take f s.ip_slave_0_avalon_slave_0_translator.av_readdata_pre).issue go := by
  simp only [system.step, Host.step, hp, altera_merlin_slave_translator.uav_readdatavalid, hv,
    altera_merlin_slave_translator.uav_readdata, if_true]

/-- A cycle in which the host has nothing under way. -/
theorem step_free {s : system} (hp : s.host.port = .free) (x : BitVec 128) (go : Bool) :
    (s.step x go).host = s.host.issue go := by
  simp only [system.step, Host.step, hp]

open Session in
/-- One cycle of the system is one cycle of the session. -/
theorem Sim.step {s : system} {σ : Session wrapper_finalv2 (BitVec 4) (BitVec 32)} (h : Sim s σ) (x : BitVec 128)
    (go : Bool) : Sim (s.step x go) (σ.step (wrapper_finalv2.device x) s.moves) := by
  cases h with
  | @free t hp h0 =>
    obtain ⟨hc, hslave⟩ := step_idle (by rw [hp]; rintro a ⟨⟩) x go
    have hmoves : s.moves = s.host.todo.isEmpty := by simp only [moves, hp]
    have hrest : Session.step (wrapper_finalv2.device x) s.moves ⟨s.ip_slave_0, s.host.todo, none, t, s.host.results⟩ =
        ⟨(s.step x go).ip_slave_0, s.host.todo, none, tick t, s.host.results⟩ := by
      rw [hslave, hmoves]
      rcases htodo : s.host.todo with _ | ⟨a, prog⟩
      · exact step_finished ⟨rfl, rfl⟩
      · exact step_false rfl
    rw [hrest]
    exact Sim.issue (step_free hp x go) hc rfl (tick_ne_zero t) fun _ _ _ _ => tick_ne_one h0
  | @first t a hp hc ho h0 h1 =>
    have hmoves : s.moves = true := by simp only [moves, hp, hc, beq_self_eq_true]
    rw [hmoves]
    cases a with
    | write a d =>
      obtain ⟨hwrite, hwait⟩ := avalon_write hp hc ho
      have hslave : (s.step x go).ip_slave_0 = s.ip_slave_0.step x (.writing a d) := by rw [← hwrite]; rfl
      have hhost : (s.step x go).host = s.host.issue (go && Host.may_follow a s.host.todo) := by
        simp only [system.step, Host.step, hp, hwait, Bool.false_eq_true, if_false]
      rw [step_write rfl rfl]
      change Sim _ ⟨s.ip_slave_0.step x (.writing a d), _, _, _, _⟩
      rw [← hslave]
      refine Sim.issue hhost (altera_merlin_slave_translator.counter_step_zero (.inl hwait) _) rfl ?_ ?_
      · unfold after
        split
        · rintro ⟨⟩
        · exact tick_ne_zero t
      · intro f prog hgo htodo
        rw [htodo, Bool.and_eq_true] at hgo
        have hcommand : (wrapper_finalv2.device x).command a = false := by
          simpa [Host.may_follow, wrapper_finalv2.device] using hgo.2
        rw [after, hcommand]
        exact tick_ne_one h0
    | fetch f =>
      obtain ⟨hread, hwait⟩ := avalon_read hp (by rw [hc]; exact Nat.zero_le 1) ho
      rw [hc] at hwait
      have hslave : (s.step x go).ip_slave_0 = s.ip_slave_0.step x (.reading f.address) := by rw [← hread]; rfl
      have hhost : (s.step x go).host = s.host := by
        simp only [system.step, Host.step, hp, hwait]
        rfl
      have hcount : (s.step x go).ip_slave_0_avalon_slave_0_translator.wait_latency_counter = 1 := by
        have hlt : s.ip_slave_0_avalon_slave_0_translator.wait_latency_counter <
            s.host.uav.latency ip_slave_0_parameters := by
          rw [hc, uav_fetch hp]
          exact Nat.one_pos
        refine (altera_merlin_slave_translator.counter_step hlt ho ?_ _).trans (by rw [hc])
        rw [uav_fetch hp]
        rfl
      rw [step_fetch rfl rfl (h1 f rfl)]
      change Sim _ ⟨s.ip_slave_0.step x (.reading f.address), _, _, _, _⟩
      rw [← hslave, ← hhost]
      exact .second (by rw [hhost, hp]) hcount rfl (tick_ne_zero t)
  | @second t f hp hc ho h0 =>
    obtain ⟨hread, hwait⟩ := avalon_read hp (Nat.le_of_eq hc) ho
    rw [hc] at hwait
    have hslave : (s.step x go).ip_slave_0 = s.ip_slave_0.step x (.reading f.address) := by rw [← hread]; rfl
    have hhost := step_second hp hc ho x go
    have hvalid : (s.step x go).ip_slave_0_avalon_slave_0_translator.read_latency_shift_reg = true := by
      change (s.host.uav.uav_read && !s.ip_slave_0_avalon_slave_0_translator.uav_waitrequest ip_slave_0_parameters
        s.host.uav && !s.ip_slave_0_avalon_slave_0_translator.waitrequest_reset_override) = true
      rw [hwait, ho, uav_fetch hp]
      rfl
    rw [step_pending rfl]
    have hsim := Sim.waiting (s := s.step x go) (t := tick t) (by rw [hhost]) hvalid (tick_ne_zero t)
    have hdata : (s.step x go).ip_slave_0_avalon_slave_0_translator.av_readdata_pre = s.ip_slave_0.oData := rfl
    rw [hdata, hhost, hslave] at hsim
    cases f with
    | read a => exact hsim
    | poll a =>
      convert hsim using 1
      by_cases htest : (s.ip_slave_0.oData &&& 0x1#32 != 0#32) = true <;>
        simp [complete, Host.take, wrapper_finalv2.device, Fetch.address, htest]
  | @waiting t f hp hv h0 =>
    obtain ⟨hc, hslave⟩ := step_idle (by rw [hp]; rintro a ⟨⟩) x go
    have hmoves : s.moves = false := by simp only [moves, hp]
    rw [hmoves, step_false rfl]
    change Sim _ ⟨s.ip_slave_0.step x .idle, _, _, _, _⟩
    rw [← hslave]
    exact Sim.issue (step_waiting hp hv x go) hc rfl (tick_ne_zero t) fun _ _ _ _ => tick_ne_one h0

theorem Sim.results {s : system} {σ : Session wrapper_finalv2 (BitVec 4) (BitVec 32)} (h : Sim s σ) :
    s.host.results <+: σ.results := by
  cases h with
  | free | first | second => exact List.prefix_refl _
  | waiting => exact Host.results_take _ _ _

/-- The session ends one cycle before the host does, or with it. -/
theorem Sim.finished {s : system} {σ : Session wrapper_finalv2 (BitVec 4) (BitVec 32)} (h : Sim s σ) :
    (s.host.finished → σ.finished ∧ σ.results = s.host.results) ∧
      (σ.finished → ∀ x go, (s.step x go).host.finished ∨ s.host.finished) := by
  constructor
  · rintro ⟨hp', ht'⟩
    cases h with
    | free hp => exact ⟨⟨ht', rfl⟩, rfl⟩
    | first hp | second hp | waiting hp => rw [hp] at hp'; cases hp'
  · rintro ⟨ht', hp'⟩ x go
    cases h with
    | free hp => exact .inr ⟨hp, ht'⟩
    | first hp => cases ht'
    | second hp => cases hp'
    | @waiting t f hp hv =>
      left
      rw [step_waiting hp hv, Host.issue_free (.inr ht')]
      exact ⟨rfl, ht'⟩

/-! ## Runs -/

section Run
variable {x : BitVec 128} {sched : ℕ → Bool} {s : ℕ → system} (hs : IsRun (step x) sched s)

theorem moves_issue {s : system} {h : Host} (hh : s.host = h.issue true) (htodo : h.todo ≠ [])
    (hc : s.ip_slave_0_avalon_slave_0_translator.wait_latency_counter = 0) : s.moves = true := by
  obtain ⟨a, prog, htodo⟩ := List.exists_cons_of_ne_nil htodo
  rw [Host.issue_cons htodo] at hh
  simp only [moves, hh, hc, beq_self_eq_true]

/-- After a cycle that ends an access, the host is free or gets on. -/
theorem free_or_moves {s : system} {h : Host} {go : Bool} (hh : s.host = h.issue go)
    (hc : s.ip_slave_0_avalon_slave_0_translator.wait_latency_counter = 0) :
    s.host.port = .free ∨ s.moves = true := by
  by_cases hno : go = false ∨ h.todo = []
  · left
    rw [hh, Host.issue_free hno]
  · right
    simp only [not_or, Bool.not_eq_false] at hno
    obtain ⟨rfl, htodo⟩ := hno
    exact moves_issue hh htodo hc

include hs in
/-- A host that is let go gets on. -/
theorem exists_moves_free {m n : ℕ} (hm : (s m).host.port = .free) (hmn : m ≤ n) (hn : sched n = true) :
    ∃ k ≥ m, k ≤ n + 1 ∧ (s k).moves = true := by
  -- the host stays free until the cycle in which it is let go, `n` or one before it
  obtain ⟨j, hj, -, ⟨hfree, hjn⟩, hend⟩ := leads_to (P := fun j => sched j = true ∨ (s j).host.todo = [])
    (Q := fun j => (s j).host.port = .free ∧ j ≤ n) (f := fun j => n - j) ⟨hm, hmn⟩ fun j _ hQ hP => by
      obtain ⟨hfree, hjn⟩ := hQ
      simp only [not_or, Bool.not_eq_true] at hP
      have hne : j ≠ n := by
        rintro rfl
        rw [hn] at hP
        cases hP.1
      refine ⟨⟨?_, by omega⟩, by omega⟩
      rw [hs j, step_free hfree, Host.issue_free (.inl hP.1)]
  by_cases htodo : (s j).host.todo = []
  · exact ⟨j, hj, Nat.le_succ_of_le hjn, by simp only [moves, hfree, htodo, List.isEmpty_nil]⟩
  · have hgo := hend.resolve_right htodo
    refine ⟨j + 1, Nat.le_succ_of_le hj, Nat.succ_le_succ hjn, ?_⟩
    rw [hs j, hgo]
    exact moves_issue (step_free hfree x true) htodo (step_idle (by rw [hfree]; rintro a ⟨⟩) x true).1

include hs in
/-- A read is over after two cycles. -/
theorem exists_free_or_moves (hsim : ∀ n, ∃ σ, Sim (s n) σ) (m : ℕ) :
    ∃ k ≥ m, k ≤ m + 2 ∧ ((s k).host.port = .free ∨ (s k).moves = true) := by
  have hwaiting (m : ℕ) {f : Fetch (BitVec 4)} (hp : (s m).host.port = .waiting f) :
      (s (m + 1)).host.port = .free ∨ (s (m + 1)).moves = true := by
    obtain ⟨σ, hσ⟩ := hsim m
    cases hσ with
    | free hp' | first hp' | second hp' => rw [hp] at hp'; cases hp'
    | waiting hp' hv =>
      rw [hs m]
      exact free_or_moves (step_waiting hp' hv x (sched m)) (step_idle (by rw [hp]; rintro a ⟨⟩) x (sched m)).1
  obtain ⟨σ, hσ⟩ := hsim m
  cases hσ with
  | free hp => exact ⟨m, Nat.le_refl m, Nat.le_add_right m 2, .inl hp⟩
  | first hp hc =>
    exact ⟨m, Nat.le_refl m, Nat.le_add_right m 2, .inr (by simp only [moves, hp, hc, beq_self_eq_true])⟩
  | @second t f hp hc ho =>
    have hnext : (s (m + 1)).host.port = .waiting f := by
      rw [hs m, step_second hp hc ho]
    exact ⟨m + 2, by omega, Nat.le_refl _, hwaiting (m + 1) hnext⟩
  | waiting hp => exact ⟨m + 1, Nat.le_succ m, by omega, hwaiting m hp⟩

include hs in
theorem exists_moves (hsim : ∀ n, ∃ σ, Sim (s n) σ) (hfair : ∀ m, ∃ n ≥ m, sched n = true) (m : ℕ) :
    ∃ k ≥ m, (s k).moves = true := by
  obtain ⟨k, hk, -, hm | hm⟩ := exists_free_or_moves hs hsim m
  · obtain ⟨n, hkn, hn⟩ := hfair k
    obtain ⟨j, hj, -, hmoves⟩ := exists_moves_free hs hm hkn hn
    exact ⟨j, by omega, hmoves⟩
  · exact ⟨k, hk, hm⟩

include hs in
theorem exists_moves_within (hsim : ∀ n, ∃ σ, Sim (s n) σ) {g : ℕ}
    (hgap : ∀ m, ∃ n ≥ m, n < m + g ∧ sched n = true) (m : ℕ) : ∃ k ≥ m, k < m + (g + 3) ∧ (s k).moves = true := by
  obtain ⟨k, hk, hkm, hm | hm⟩ := exists_free_or_moves hs hsim m
  · obtain ⟨n, hkn, hng, hn⟩ := hgap k
    obtain ⟨j, hj, hjn, hmoves⟩ := exists_moves_free hs hm hkn hn
    exact ⟨j, by omega, by omega, hmoves⟩
  · exact ⟨k, hk, by omega, hm⟩

theorem sim_run (x : BitVec 128) (rom : S_box) (prog : List (Access (BitVec 4) (BitVec 32))) (sched : ℕ → Bool)
    (n : ℕ) : Sim (run (step x) (reset rom prog) sched n)
      (run (Session.step (wrapper_finalv2.device x)) (Session.start (wrapper_finalv2.reset rom) prog)
        (fun k => (run (step x) (reset rom prog) sched k).moves) n) := by
  induction n with
  | zero => exact .free rfl (by rintro ⟨⟩)
  | succ n ih => exact ih.step x (sched n)

end Run

section Program
variable (x : BitVec 128) (rom : S_box) (K : Fips197.Block) (ops : List Op) (sched : ℕ → Bool)

theorem program_results (n : ℕ) :
    (run (step x) (reset rom (program (.SetKey K :: ops))) sched n).host.results <+: expected K ops := by
  have hv := wrapper_finalv2.verified_session x K ops
  have hfree := wrapper_finalv2.free_reset x rom
  exact (sim_run x rom _ sched n).results.trans (hv.results_prefix hfree _ n)

theorem program_finished {n : ℕ}
    (hf : (run (step x) (reset rom (program (.SetKey K :: ops))) sched n).host.finished) :
    (run (step x) (reset rom (program (.SetKey K :: ops))) sched n).host.results = expected K ops := by
  obtain ⟨hσ, hres⟩ := (sim_run x rom _ sched n).finished.1 hf
  rw [← hres]
  exact (wrapper_finalv2.verified_session x K ops).results_finished (wrapper_finalv2.free_reset x rom) _ hσ

theorem exists_program_finished (hfair : ∀ m, ∃ n ≥ m, sched n = true) :
    ∃ n, (run (step x) (reset rom (program (.SetKey K :: ops))) sched n).host.finished := by
  have hsim := sim_run x rom (program (.SetKey K :: ops)) sched
  have hmoves := exists_moves (isRun_run _ _) (fun n => ⟨_, hsim n⟩) hfair
  obtain ⟨n, hn⟩ :=
    (wrapper_finalv2.verified_session x K ops).exists_finished (wrapper_finalv2.free_reset x rom) hmoves
  rcases (hsim n).finished.2 hn x (sched n) with hf | hf
  · exact ⟨n + 1, hf⟩
  · exact ⟨n, hf⟩

end Program

/-- The program of source.c on the system, with a cycle between a command and a read that follows it (`may_follow`)
and on any schedule otherwise: the words it reads are the ciphertexts of its blocks, in order, and no others; and it comes
to its end, as long as the host is let go again and again. -/
theorem program_on_system (x : BitVec 128) (rom : S_box) (K : Fips197.Block) (ops : List Op) (sched : ℕ → Bool) :
    let s := run (step x) (reset rom (program (.SetKey K :: ops))) sched
    (∀ n, (s n).host.results <+: expected K ops) ∧
      (∀ n, (s n).host.finished → (s n).host.results = expected K ops) ∧
      ((∀ m, ∃ n ≥ m, sched n = true) → ∃ n, (s n).host.finished) :=
  ⟨program_results x rom K ops sched, fun _ => program_finished x rom K ops sched,
    exists_program_finished x rom K ops sched⟩

/-- When the host is let go once in every `g` cycles, but for the cycles that `may_follow` holds it back in, the
program takes at most `31 + g` cycles for each of its accesses, polls included, and one more. -/
theorem program_time (x : BitVec 128) (rom : S_box) (K : Fips197.Block) (ops : List Op) (sched : ℕ → Bool) (g : ℕ)
    (hgap : ∀ m, ∃ n ≥ m, n < m + g ∧ sched n = true) (n : ℕ)
    (hn : (31 + g) * (program (.SetKey K :: ops)).length < n) :
    (run (step x) (reset rom (program (.SetKey K :: ops))) sched n).host.finished := by
  have hsim := sim_run x rom (program (.SetKey K :: ops)) sched
  have hmoves := exists_moves_within (isRun_run _ _) (fun n => ⟨_, hsim n⟩) hgap
  have hv := wrapper_finalv2.verified_session x K ops
  obtain ⟨m, rfl⟩ := Nat.exists_eq_succ_of_ne_zero (Nat.ne_zero_of_lt hn)
  have hend := hv.finished_within (wrapper_finalv2.free_reset x rom) hmoves (n := m) (by
    rw [show 25 + (g + 3) + 3 = 31 + g by omega]
    exact Nat.le_of_lt_succ hn)
  rcases (hsim m).finished.2 hend x (sched m) with hf | ⟨hp, ht⟩
  · exact hf
  · rw [run_succ]
    refine ⟨?_, ?_⟩
    · rw [step_free hp, Host.issue_free (.inr ht)]
    · rw [step_free hp, Host.issue_free (.inr ht)]
      exact ht

/-- One key and one block, without idle cycles of the host. -/
theorem program_time_one : (run (step 0#128) (reset (.posedge 0#128) (program [.SetKey 5#128, .Encrypt 7#128]))
    (fun _ => true) 545).host.finished :=
  program_time 0#128 (.posedge 0#128) 5#128 [.Encrypt 7#128] (fun _ => true) 1
    (fun m => ⟨m, Nat.le_refl m, Nat.lt_succ_self m, rfl⟩) 545 (by decide)

end system

end Aes128
