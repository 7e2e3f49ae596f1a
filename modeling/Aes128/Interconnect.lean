import Mathlib
import Aes128.Agents
/-!
# The way from the data master to the slave

The whole path of system.v: translator and agent of the data master, address router and
command crossbar, agent, response FIFO and translator of `IP_slave_0`, the wrapper, and
the way back. The host also uses the other slaves, which may take and answer as they
like, but answer only reads that they have taken.

However these accesses are mixed, the slave sees what it sees in `system`: a write in
one cycle, a read in two.
-/

open Clocked Master Fields

namespace Aes128

/-! ## The data master -/

namespace DataMaster

/-- An access that the router sends to another slave. -/
structure Elsewhere where
  av_address : BitVec 17
  av_write : Bool
  av_writedata : BitVec 32
  av_byteenable : BitVec 4
  av_debugaccess : Bool
  elsewhere : (system_addr_router_001.src_channel av_address).getLsbD 3 = false

/-- What the data master does in a cycle. -/
inductive Port where
  | free
  | slave (a : Access (BitVec 4) (BitVec 32))
  | elsewhere (e : Elsewhere)

/-- What it does when it is free to choose. -/
inductive Next where
  | rest
  | program
  | elsewhere (e : Elsewhere)

def Next.is_program : Next → Bool
  | .program => true
  | _ => false

end DataMaster

structure DataMaster where
  port : DataMaster.Port
  todo : List (Access (BitVec 4) (BitVec 32))
  results : List (BitVec 32)

namespace DataMaster

def start (next : Next) (h : DataMaster) : DataMaster :=
  match next, h.todo with
  | .program, a :: prog => { h with port := .slave a, todo := prog }
  | .elsewhere e, _ => { h with port := .elsewhere e }
  | _, _ => { h with port := .free }

/-- The answer of a read; a poll whose test fails is made again. -/
def take (f : Fetch (BitVec 4)) (d : BitVec 32) (h : DataMaster) : DataMaster :=
  match f with
  | .read _ => { h with results := h.results ++ [d] }
  | .poll _ => if d &&& 0x1#32 != 0#32 then h else { h with todo := .fetch f :: h.todo }

/-- A request is held while it has to wait. -/
def step (next : Next) (av_waitrequest : Bool) (av_readdata : BitVec 32) (h : DataMaster) : DataMaster :=
  match h.port with
  | .free => h.start next
  | .slave (.write _ _) => if av_waitrequest then h else h.start next
  | .slave (.fetch f) => if av_waitrequest then h else (h.take f av_readdata).start next
  | .elsewhere _ => if av_waitrequest then h else h.start next

def master (h : DataMaster) : altera_merlin_master_translator.Master :=
  match h.port with
  | .free => ⟨0#17, false, false, 0#32, 0#4, false⟩
  | .slave (.write a d) => ⟨IO_CALC_ADDRESS_NATIVE IP_SLAVE_0_BASE a, true, false, d, 0xf#4, false⟩
  | .slave (.fetch f) => ⟨IO_CALC_ADDRESS_NATIVE IP_SLAVE_0_BASE f.address, false, true, 0#32, 0xf#4, false⟩
  | .elsewhere e => ⟨e.av_address, e.av_write, !e.av_write, e.av_writedata, e.av_byteenable, e.av_debugaccess⟩

end DataMaster

/-! ## system.v -/

/-- The register-based FIFO of the slave agent. -/
def rsp_fifo_parameters : altera_avalon_sc_fifo.Parameters := ⟨2, 1, by decide⟩

structure interconnect where
  data_master : DataMaster
  data_master_translator : altera_merlin_master_translator
  data_master_agent : altera_merlin_master_agent
  rsp_fifo : altera_avalon_sc_fifo altera_merlin_slave_agent.Rf
  uncompressor : altera_merlin_burst_uncompressor altera_merlin_slave_agent.uncompressor_parameters
  ip_slave_0_avalon_slave_0_translator : altera_merlin_slave_translator
  ip_slave_0 : wrapper_finalv2

namespace interconnect

/-- What the host and the other slaves do in a cycle. -/
structure Env where
  next : DataMaster.Next
  /-- `src2_ready` to `src0_ready` of the command crossbar. -/
  ready : BitVec 3
  /-- The other sinks of the response crossbar. -/
  sink : Fin 3 → system_rsp_xbar_mux_001.Sink

section Wires
variable (e : Env) (f : interconnect)

/-! The command. -/

def master : altera_merlin_master_translator.Master := f.data_master.master

def uav_read : Bool := f.data_master_translator.uav_read f.master

def uav_write : Bool := f.data_master_translator.uav_write f.master

def cp_data : Packet := altera_merlin_master_agent.cp_data f.master f.uav_write f.uav_read

def src_channel : BitVec 4 := system_addr_router_001.src_channel f.cp_data.ADDR

/-- What comes to the agent of the slave. -/
def cp : altera_merlin_slave_agent.Cp where
  valid := system_cmd_xbar_demux_001.src_valid f.src_channel
    (altera_merlin_master_agent.cp_valid f.uav_write f.uav_read) 3
  data := system_addr_router_001.src_data f.cp_data
  startofpacket := true
  endofpacket := true

/-- The FIFO has more than one slot and no lookahead, so its ports do not depend on its inputs. -/
def rsp_fifo_idle : altera_avalon_sc_fifo.Inputs altera_merlin_slave_agent.Rf := ⟨⟨0#89, false, false⟩, false, false⟩

def rf_source_ready : Bool := f.rsp_fifo.in_ready rsp_fifo_parameters rsp_fifo_idle

/-- What comes to the translator of the slave. -/
def m0 : altera_merlin_slave_translator.Inputs where
  uav_address := altera_merlin_slave_agent.m0_address f.cp
  uav_writedata := altera_merlin_slave_agent.m0_writedata f.cp
  uav_write := altera_merlin_slave_agent.m0_write f.cp f.rf_source_ready
  uav_read := altera_merlin_slave_agent.m0_read f.cp f.rf_source_ready

def m0_waitrequest : Bool := f.ip_slave_0_avalon_slave_0_translator.uav_waitrequest ip_slave_0_parameters f.m0

def cp_ready : Bool :=
  system_cmd_xbar_demux_001.sink_ready f.src_channel
    (BitVec.ofBool (altera_merlin_slave_agent.cp_ready f.rf_source_ready f.m0_waitrequest) ++ e.ready)

def uav_waitrequest : Bool := f.data_master_agent.av_waitrequest (f.cp_ready e)

/-- The port of the slave. -/
def avalon_anti_slave_0 : wrapper_finalv2.Inputs where
  iChipSelect_n := !altera_merlin_slave_translator.av_chipselect f.m0
  iWrite_n := !f.ip_slave_0_avalon_slave_0_translator.av_write ip_slave_0_parameters f.m0
  iRead_n := !f.ip_slave_0_avalon_slave_0_translator.av_read ip_slave_0_parameters f.m0
  iAddress := altera_merlin_slave_translator.av_address f.m0
  iData := f.m0.uav_writedata

/-! The response. -/

def rf_sink : altera_merlin_slave_agent.Rf := f.rsp_fifo.out_payload rsp_fifo_parameters rsp_fifo_idle

def rf_sink_valid : Bool := f.rsp_fifo.out_valid rsp_fifo_parameters rsp_fifo_idle

/-- There is no FIFO for the data: source and sink are wired together. -/
def rdata_fifo_valid : Bool :=
  altera_merlin_slave_agent.rdata_fifo_src_valid f.ip_slave_0_avalon_slave_0_translator.uav_readdatavalid

def rdata_fifo_data : BitVec 34 :=
  altera_merlin_slave_agent.rdata_fifo_src_data f.ip_slave_0_avalon_slave_0_translator.uav_readdata

def rp_valid : Bool := altera_merlin_slave_agent.rp_valid f.rf_sink f.rf_sink_valid f.rdata_fifo_valid

def rp_data : Packet :=
  altera_merlin_slave_agent.rp_data f.rf_sink f.rf_sink_valid f.rdata_fifo_data f.rdata_fifo_valid f.uncompressor

def rp_channel : BitVec 4 := system_id_router_003.src_channel f.rp_data

/-- The sinks of `rsp_xbar_mux_001`. -/
def sink (k : Fin 4) : system_rsp_xbar_mux_001.Sink :=
  Fin.lastCases ⟨system_rsp_xbar_demux_003.src0_valid f.rp_channel f.rp_valid, f.rp_data⟩ e.sink k

def rp_ready : Bool :=
  system_rsp_xbar_demux_003.sink_ready f.rp_channel
    (system_rsp_xbar_mux_001.sink_ready (f.sink e) altera_merlin_master_agent.rp_ready (Fin.last 3))

def rf_sink_ready : Bool :=
  altera_merlin_slave_agent.rf_sink_ready f.rf_sink f.rf_sink_valid f.rdata_fifo_valid f.uncompressor (f.rp_ready e)

def uav_readdatavalid : Bool :=
  altera_merlin_master_agent.av_readdatavalid (system_rsp_xbar_mux_001.src_valid (f.sink e))
    (system_rsp_xbar_mux_001.src_data (f.sink e))

def uav_readdata : BitVec 32 :=
  altera_merlin_master_agent.av_readdata (system_rsp_xbar_mux_001.src_data (f.sink e))

def av_waitrequest : Bool :=
  f.data_master_translator.av_waitrequest f.master (f.uav_waitrequest e) (f.uav_readdatavalid e)

def rsp_fifo_inputs : altera_avalon_sc_fifo.Inputs altera_merlin_slave_agent.Rf where
  in_payload := altera_merlin_slave_agent.rf_source f.cp
  in_valid := altera_merlin_slave_agent.rf_source_valid f.cp f.rf_source_ready f.m0_waitrequest
  out_ready := f.rf_sink_ready e

end Wires

def step (x : BitVec 128) (e : Env) (f : interconnect) : interconnect where
  data_master := f.data_master.step e.next (f.av_waitrequest e) (f.uav_readdata e)
  data_master_translator := f.data_master_translator.step f.master (f.uav_waitrequest e) (f.uav_readdatavalid e)
  data_master_agent := .step
  rsp_fifo := f.rsp_fifo.step rsp_fifo_parameters (f.rsp_fifo_inputs e)
  uncompressor := f.uncompressor.step
    (altera_merlin_slave_agent.uncompressor_inputs f.rf_sink f.rf_sink_valid f.rdata_fifo_valid (f.rp_ready e))
  ip_slave_0_avalon_slave_0_translator :=
    f.ip_slave_0_avalon_slave_0_translator.step ip_slave_0_parameters f.m0 f.ip_slave_0.oData
  ip_slave_0 := f.ip_slave_0.step x f.avalon_anti_slave_0

/-- After a reset, with a program for the host. -/
def reset (rom : S_box) (prog : List (Access (BitVec 4) (BitVec 32))) : interconnect where
  data_master := ⟨.free, prog, []⟩
  data_master_translator := .reset
  data_master_agent := .reset
  rsp_fifo := .reset ⟨0#89, false, false⟩
  uncompressor := .reset
  ip_slave_0_avalon_slave_0_translator := .reset
  ip_slave_0 := .reset rom

end interconnect

/-! ## Addresses -/

theorem src_channel_slave (a : BitVec 4) :
    system_addr_router_001.src_channel (IO_CALC_ADDRESS_NATIVE IP_SLAVE_0_BASE a) = 0b1000#4 := by
  revert a
  decide +kernel

theorem aligned_slave (a : BitVec 4) :
    altera_merlin_master_agent.av_address_aligned (IO_CALC_ADDRESS_NATIVE IP_SLAVE_0_BASE a) =
      IO_CALC_ADDRESS_NATIVE IP_SLAVE_0_BASE a := by
  revert a
  decide +kernel

/-- The router does not look at the bits that are dropped. -/
theorem src_channel_aligned (address : BitVec 17) :
    system_addr_router_001.src_channel (altera_merlin_master_agent.av_address_aligned address) =
      system_addr_router_001.src_channel address := by
  have hbits (l : ℕ) (hl : 2 ≤ l) (hl' : l ≤ 16) :
      (altera_merlin_master_agent.av_address_aligned address).extractLsb 16 l = address.extractLsb 16 l := by
    apply BitVec.eq_of_getLsbD_eq
    intro i hi
    have hbit : (altera_merlin_master_agent.av_address_aligned address).getLsbD (l + i) = address.getLsbD (l + i) := by
      refine BitVec.getLsbD_append.trans ?_
      rw [if_neg (by omega), BitVec.getLsbD_extractLsb, Nat.add_sub_cancel' (by omega : 2 ≤ l + i)]
      have hlt : l + i - 2 < 15 := by omega
      simp [hlt]
    rw [BitVec.getLsbD_extractLsb, BitVec.getLsbD_extractLsb, hbit]
  unfold system_addr_router_001.src_channel
  rw [hbits 15 (by omega) (by omega), hbits 11 (by omega) (by omega), hbits 6 (by omega) (by omega),
    hbits 3 (by omega) (by omega)]

namespace interconnect

/-! ## The slave at rest -/

section Wires
variable {f : interconnect}

/-- Nothing is kept for an answer, and none is on its way. -/
structure Empty (f : interconnect) : Prop where
  fifo : altera_avalon_sc_fifo.Holds rsp_fifo_parameters [] f.rsp_fifo
  answer : f.ip_slave_0_avalon_slave_0_translator.read_latency_shift_reg = false

theorem Empty.ready (h : Empty f) : f.rf_source_ready = true := by
  rw [rf_source_ready, h.fifo.in_ready_eq (by decide)]
  rfl

theorem Empty.rf_sink_valid (h : Empty f) : f.rf_sink_valid = false := by
  rw [interconnect.rf_sink_valid, h.fifo.out_valid_eq (by decide)]
  rfl

theorem Empty.rp_valid (h : Empty f) : f.rp_valid = false := by
  rw [interconnect.rp_valid, altera_merlin_slave_agent.rp_valid, h.rf_sink_valid, rdata_fifo_valid,
    altera_merlin_slave_translator.uav_readdatavalid, h.answer]
  rfl

theorem Empty.read_eq (h : Empty f) (i : altera_avalon_sc_fifo.Inputs altera_merlin_slave_agent.Rf) :
    f.rsp_fifo.read rsp_fifo_parameters i = false := by
  rw [altera_avalon_sc_fifo.read_eq, h.fifo.out_valid_eq (by decide), Bool.and_eq_false_iff]
  exact .inr rfl

/-- No other slave answers, and so nobody does. -/
theorem Empty.uav_readdatavalid (h : Empty f) {e : Env} (he : ∀ k, (e.sink k).valid = false) :
    f.uav_readdatavalid e = false := by
  have hsilent : system_rsp_xbar_mux_001.src_valid (f.sink e) = false := by
    apply system_rsp_xbar_mux_001.src_valid_of_silent
    intro k
    induction k using Fin.lastCases with
    | last =>
      rw [sink, Fin.lastCases_last, system_rsp_xbar_demux_003.src0_valid, h.rp_valid, Bool.and_false]
    | cast k => rw [sink, Fin.lastCases_castSucc, he k]
  rw [interconnect.uav_readdatavalid, altera_merlin_master_agent.av_readdatavalid, hsilent, ite_self]

/-! ## Requests -/

theorem cp_valid_of_slave {a : BitVec 4} (ha : f.master.av_address = IO_CALC_ADDRESS_NATIVE IP_SLAVE_0_BASE a)
    (hreq : (f.uav_write || f.uav_read) = true) : f.cp.valid = true := by
  simp only [cp, src_channel, cp_data, altera_merlin_master_agent.cp_data_ADDR, ha, aligned_slave, src_channel_slave,
    system_cmd_xbar_demux_001.src_valid, altera_merlin_master_agent.cp_valid, hreq]
  rfl

/-- A request of the data master to the slave, with what it carries. -/
theorem m0_of_slave {a : BitVec 4} (hready : f.rf_source_ready = true)
    (ha : f.master.av_address = IO_CALC_ADDRESS_NATIVE IP_SLAVE_0_BASE a) (hreq : (f.uav_write || f.uav_read) = true) :
    f.m0 = ⟨IO_CALC_ADDRESS_NATIVE IP_SLAVE_0_BASE a, f.master.av_writedata, f.uav_write, f.uav_read⟩ := by
  have hvalid := cp_valid_of_slave ha hreq
  have haddress : altera_merlin_slave_agent.m0_address f.cp = IO_CALC_ADDRESS_NATIVE IP_SLAVE_0_BASE a := by
    have hcp : f.cp.data.ADDR = IO_CALC_ADDRESS_NATIVE IP_SLAVE_0_BASE a := by
      simp only [cp, cp_data, system_addr_router_001.src_data_ADDR, altera_merlin_master_agent.cp_data_ADDR, ha,
        aligned_slave]
    rw [altera_merlin_slave_agent.m0_address, hcp]
    exact aligned_slave a
  simp only [m0, haddress, altera_merlin_slave_agent.m0_writedata, altera_merlin_slave_agent.m0_write,
    altera_merlin_slave_agent.m0_read, altera_merlin_slave_agent.local_write, altera_merlin_slave_agent.local_read,
    altera_merlin_slave_agent.local_compressed_read, hvalid, hready]
  simp [cp, cp_data, altera_merlin_slave_agent.ready_for_command, altera_merlin_slave_agent.byteen_asserted]

/-- The answer to the request is that of the translator of the slave. -/
theorem uav_waitrequest_of_slave {a : BitVec 4} {e : Env} (hready : f.rf_source_ready = true)
    (hhold : f.data_master_agent.hold_waitrequest = false)
    (ha : f.master.av_address = IO_CALC_ADDRESS_NATIVE IP_SLAVE_0_BASE a) :
    f.uav_waitrequest e = f.m0_waitrequest := by
  have hchannel : f.src_channel = 0b1000#4 := by
    rw [src_channel, cp_data, altera_merlin_master_agent.cp_data_ADDR, ha, aligned_slave, src_channel_slave]
  have hmask (b : Bool) (r : BitVec 3) : (0b1000#4 &&& (BitVec.ofBool b ++ r) ≠ 0#4 : Bool) = b := by
    revert b r
    decide
  rw [uav_waitrequest, altera_merlin_master_agent.av_waitrequest, hhold, cp_ready, hchannel,
    system_cmd_xbar_demux_001.sink_ready, hmask, altera_merlin_slave_agent.cp_ready, hready]
  cases f.m0_waitrequest <;> rfl

theorem src_channel_master (f : interconnect) :
    f.src_channel = system_addr_router_001.src_channel f.master.av_address := by
  rw [src_channel, cp_data, altera_merlin_master_agent.cp_data_ADDR, src_channel_aligned]

/-- Nothing comes to the slave: the data master asks for nothing, or for something elsewhere. -/
theorem cp_valid_of_elsewhere (h : (f.uav_write || f.uav_read) = false ∨
    (system_addr_router_001.src_channel f.master.av_address).getLsbD 3 = false) : f.cp.valid = false := by
  change (f.src_channel.getLsbD 3 && (f.uav_write || f.uav_read)) = false
  rw [src_channel_master]
  rcases h with h | h
  · rw [h, Bool.and_false]
  · rw [h, Bool.false_and]

theorem request_of_quiet (h : f.cp.valid = false) : f.m0.uav_write = false ∧ f.m0.uav_read = false := by
  simp [m0, altera_merlin_slave_agent.m0_write, altera_merlin_slave_agent.m0_read,
    altera_merlin_slave_agent.local_write, altera_merlin_slave_agent.local_read,
    altera_merlin_slave_agent.local_compressed_read, h]

end Wires

/-! ## One cycle of the slave -/

/-- What the link of `system` and the path have in common: the slave, the program, and an idle uncompressor. -/
structure Same (f : interconnect) (s : system) : Prop where
  translator : s.ip_slave_0_avalon_slave_0_translator = f.ip_slave_0_avalon_slave_0_translator
  slave : s.ip_slave_0 = f.ip_slave_0
  todo : s.host.todo = f.data_master.todo
  results : s.host.results = f.data_master.results
  busy : f.uncompressor.burst_uncompress_busy = false

/-- The slave sees the same request, or none. -/
def Agrees (f : interconnect) (s : system) : Prop :=
  f.m0 = s.host.uav ∨ (f.cp.valid = false ∧ ∀ a, s.host.port ≠ .request a)

section Slave
variable {f : interconnect} {s : system} (x : BitVec 128) (e : Env) (go : Bool)

theorem translator_congr {t : altera_merlin_slave_translator} {u u' : altera_merlin_slave_translator.Inputs}
    (hw : u.uav_write = u'.uav_write) (hr : u.uav_read = u'.uav_read) (p : altera_merlin_slave_translator.Parameters)
    (d : BitVec 32) : t.step p u d = t.step p u' d := by
  obtain ⟨address, data, w, r⟩ := u
  obtain ⟨address', data', w', r'⟩ := u'
  subst hw hr
  rfl

/-- What is on the other wires of a slave that is not selected does not matter. -/
theorem step_deselected {w : wrapper_finalv2} {i : wrapper_finalv2.Inputs} (h : i.iChipSelect_n = true) :
    w.step x i = w.step x .idle := by
  have hwrite : i.write = false := by
    rw [wrapper_finalv2.Inputs.write, h]
    rfl
  have hread : i.read = false := by
    rw [wrapper_finalv2.Inputs.read, h]
    rfl
  simp only [wrapper_finalv2.step, wrapper_finalv2.posedge_clk, wrapper_finalv2.always, hwrite, hread]
  rfl

theorem avalon_eq (hs : Same f s) (h : f.m0 = s.host.uav) : f.avalon_anti_slave_0 = s.avalon_anti_slave_0 := by
  rw [avalon_anti_slave_0, system.avalon_anti_slave_0, h, hs.translator]

theorem deselected_of_quiet (hcp : f.cp.valid = false) : f.avalon_anti_slave_0.iChipSelect_n = true := by
  obtain ⟨hw, hr⟩ := request_of_quiet hcp
  rw [avalon_anti_slave_0, altera_merlin_slave_translator.av_chipselect,
    altera_merlin_slave_translator.Inputs.request, hw, hr]
  rfl

theorem avalon_of_agrees (hs : Same f s) (h : Agrees f s) :
    f.ip_slave_0.step x f.avalon_anti_slave_0 = s.ip_slave_0.step x s.avalon_anti_slave_0 := by
  rcases h with h | ⟨hcp, hport⟩
  · rw [avalon_eq hs h, hs.slave]
  · rw [system.avalon_idle hport, hs.slave]
    exact step_deselected x (deselected_of_quiet hcp)

theorem slave_step (hs : Same f s) (h : Agrees f s) :
    (s.step x go).ip_slave_0_avalon_slave_0_translator = (f.step x e).ip_slave_0_avalon_slave_0_translator ∧
      (s.step x go).ip_slave_0 = (f.step x e).ip_slave_0 := by
  refine ⟨?_, (avalon_of_agrees x hs h).symm⟩
  change s.ip_slave_0_avalon_slave_0_translator.step _ _ _ = f.ip_slave_0_avalon_slave_0_translator.step _ _ _
  rw [hs.translator, hs.slave]
  rcases h with h | ⟨hcp, hport⟩
  · rw [h]
  · obtain ⟨hw, hr⟩ := request_of_quiet hcp
    rw [system.uav_none hport]
    exact translator_congr hw.symm hr.symm _ _

end Slave

/-! ## One cycle of the agent -/

section Agent
variable {f : interconnect} (x : BitVec 128) (e : Env)

/-- Without an answer the uncompressor does nothing. -/
theorem Empty.busy_step (h : Empty f) :
    (f.step x e).uncompressor.burst_uncompress_busy = f.uncompressor.burst_uncompress_busy := by
  simp [step, altera_merlin_burst_uncompressor.step, altera_merlin_burst_uncompressor.source_valid,
    altera_merlin_slave_agent.uncompressor_inputs, h.rf_sink_valid]

/-- The response FIFO takes what the agent gives it, or stays as it is. -/
theorem Empty.fifo_step (h : Empty f) :
    altera_avalon_sc_fifo.Holds rsp_fifo_parameters
      (if altera_merlin_slave_agent.rf_source_valid f.cp f.rf_source_ready f.m0_waitrequest then
        [altera_merlin_slave_agent.rf_source f.cp] else [])
      (f.step x e).rsp_fifo := by
  have hready (i : altera_avalon_sc_fifo.Inputs altera_merlin_slave_agent.Rf) :
      f.rsp_fifo.in_ready rsp_fifo_parameters i = true := by
    rw [h.fifo.in_ready_eq (by decide)]
    rfl
  have hread := h.read_eq (f.rsp_fifo_inputs e)
  have hwrite : f.rsp_fifo.write rsp_fifo_parameters (f.rsp_fifo_inputs e) =
      altera_merlin_slave_agent.rf_source_valid f.cp f.rf_source_ready f.m0_waitrequest := by
    rw [altera_avalon_sc_fifo.write, hready, Bool.true_and]
    rfl
  split
  next hv => exact h.fifo.step_write (by decide) (hwrite.trans hv) hread
  next hv => exact h.fifo.step_none (hwrite.trans (Bool.eq_false_iff.2 hv)) hread

/-- Nothing is kept of a cycle without a command. -/
theorem rf_source_valid_of_quiet (hcp : f.cp.valid = false) :
    altera_merlin_slave_agent.rf_source_valid f.cp f.rf_source_ready f.m0_waitrequest = false := by
  simp [altera_merlin_slave_agent.rf_source_valid, altera_merlin_slave_agent.local_read,
    altera_merlin_slave_agent.local_compressed_read, altera_merlin_slave_agent.nonposted_write_endofpacket,
    altera_merlin_slave_agent.local_write, hcp]

/-- Only a read that is accepted is kept. -/
theorem rf_source_valid_eq (h : f.rf_source_ready = true) :
    altera_merlin_slave_agent.rf_source_valid f.cp f.rf_source_ready f.m0_waitrequest =
      (f.cp.valid && f.uav_read && !f.m0_waitrequest) := by
  rw [h]
  simp [altera_merlin_slave_agent.rf_source_valid, altera_merlin_slave_agent.local_read,
    altera_merlin_slave_agent.local_compressed_read, altera_merlin_slave_agent.nonposted_write_endofpacket,
    altera_merlin_slave_agent.local_write, altera_merlin_slave_agent.ready_for_command,
    altera_merlin_slave_agent.cp_ready, altera_merlin_slave_agent.byteen_asserted, cp, cp_data]
  cases f.uav_write <;> simp

theorem counter_of_quiet (hcp : f.cp.valid = false) :
    (f.step x e).ip_slave_0_avalon_slave_0_translator.wait_latency_counter = 0 := by
  obtain ⟨hw, hr⟩ := request_of_quiet hcp
  refine altera_merlin_slave_translator.counter_step_zero (.inr (.inr ?_)) _
  rw [altera_merlin_slave_translator.Inputs.request, hw, hr]
  rfl

/-- A cycle in which nothing is asked of the slave. -/
theorem Empty.quiet_step (h : Empty f) (hcp : f.cp.valid = false) : Empty (f.step x e) := by
  have hfifo := h.fifo_step x e
  rw [rf_source_valid_of_quiet hcp] at hfifo
  refine ⟨hfifo, ?_⟩
  change (f.m0.uav_read && _ && _) = false
  rw [(request_of_quiet hcp).2, Bool.false_and, Bool.false_and]

/-! The answer of a read. -/

variable {r : altera_merlin_slave_agent.Rf} (hfifo : altera_avalon_sc_fifo.Holds rsp_fifo_parameters [r] f.rsp_fifo)
  (hr : altera_merlin_slave_agent.IsRead r)
  (hv : f.ip_slave_0_avalon_slave_0_translator.read_latency_shift_reg = true)
  (he : ∀ k, (e.sink k).valid = false)

include hfifo in
theorem rf_sink_eq : f.rf_sink = r ∧ f.rf_sink_valid = true := by
  constructor
  · have hhead := hfifo.out_payload_eq (i := rsp_fifo_idle) (List.cons_ne_nil r []) (by decide)
    exact (Option.some_inj.1 hhead).symm
  · rw [rf_sink_valid, hfifo.out_valid_eq (by decide)]
    rfl

include hfifo hr hv

/-- Source and destination are swapped, so it goes to the data master. -/
theorem rp_channel_eq : f.rp_channel = 1#4 ∧ f.rp_valid = true := by
  constructor
  · have hdest : f.rp_data.DEST_ID = 0#2 := by
      rw [rp_data, altera_merlin_slave_agent.rp_data_DEST_ID, (rf_sink_eq hfifo).1, hr.source]
      rfl
    rw [rp_channel, system_id_router_003.src_channel, hdest]
    rfl
  · rw [rp_valid, altera_merlin_slave_agent.rp_valid, rdata_fifo_valid,
      altera_merlin_slave_translator.uav_readdatavalid, hv]
    rfl

include he

theorem sink_valid_eq (k : Fin 4) : (f.sink e k).valid = decide (k = 3) := by
  obtain ⟨hchannel, hvalid⟩ := rp_channel_eq hfifo hr hv
  induction k using Fin.lastCases with
  | last =>
    rw [sink, Fin.lastCases_last, hchannel, hvalid]
    rfl
  | cast k =>
    rw [sink, Fin.lastCases_castSucc, he k]
    exact (decide_eq_false (Fin.castSucc_lt_last k).ne).symm

/-- It comes back with the word of the slave. -/
theorem answer_eq : f.uav_readdatavalid e = true ∧
    f.uav_readdata e = f.ip_slave_0_avalon_slave_0_translator.av_readdata_pre := by
  obtain ⟨hvalid, hdata, -⟩ := system_rsp_xbar_mux_001.src_of_last (sink_valid_eq e hfifo hr hv he)
  have hlast : (f.sink e 3).data = f.rp_data := rfl
  constructor
  · rw [uav_readdatavalid, altera_merlin_master_agent.av_readdatavalid, hvalid, hdata, hlast, rp_data,
      altera_merlin_slave_agent.rp_data_TRANS_WRITE, (rf_sink_eq hfifo).1, hr.write]
    rfl
  · rw [uav_readdata, altera_merlin_master_agent.av_readdata, hdata, hlast, rp_data,
      altera_merlin_slave_agent.rp_data_DATA, rdata_fifo_data, altera_merlin_slave_agent.setWidth_rdata]
    rfl

/-- And the command leaves the response FIFO. -/
theorem answer_step (hcp : f.cp.valid = false) :
    Empty (f.step x e) ∧ (f.step x e).uncompressor.burst_uncompress_busy = false := by
  obtain ⟨hsink, hsinkv⟩ := rf_sink_eq hfifo
  obtain ⟨hchannel, -⟩ := rp_channel_eq hfifo hr hv
  have hready : f.rp_ready e = true := by
    have hmux := (system_rsp_xbar_mux_001.src_of_last (sink_valid_eq e hfifo hr hv he)).2.2
    have hlast : Fin.last 3 = (3 : Fin 4) := rfl
    rw [rp_ready, hchannel, altera_merlin_master_agent.rp_ready, hlast, hmux]
    rfl
  have hvalid : f.rdata_fifo_valid = true := by
    rw [rdata_fifo_valid, altera_merlin_slave_translator.uav_readdatavalid, hv]
    rfl
  have hlast (i : Bool) : f.uncompressor.last_packet_beat
      (altera_merlin_slave_agent.uncompressor_inputs f.rf_sink f.rf_sink_valid f.rdata_fifo_valid i) = true := by
    rw [hsink, altera_merlin_burst_uncompressor.last_packet_beat]
    change (!(altera_merlin_slave_agent.rf_packet r).TRANS_COMPRESSED_READ || _) = true
    rw [hr.single]
    rfl
  have hpop : f.rf_sink_ready e = true := by
    rw [rf_sink_ready, altera_merlin_slave_agent.rf_sink_ready, altera_merlin_burst_uncompressor.sink_ready, hlast,
      altera_merlin_burst_uncompressor.source_valid]
    simp [altera_merlin_slave_agent.uncompressor_inputs, hsinkv, hvalid, hready]
  obtain ⟨hw, hrd⟩ := request_of_quiet hcp
  have hread : f.rsp_fifo.read rsp_fifo_parameters (f.rsp_fifo_inputs e) = true := by
    rw [altera_avalon_sc_fifo.read_eq, hfifo.out_valid_eq (by decide), rsp_fifo_inputs, hpop]
    rfl
  have hwrite : f.rsp_fifo.write rsp_fifo_parameters (f.rsp_fifo_inputs e) = false := by
    rw [altera_avalon_sc_fifo.write, rsp_fifo_inputs, rf_source_valid_of_quiet hcp, Bool.and_false]
  refine ⟨⟨hfifo.step_read (by decide) hwrite hread, ?_⟩, ?_⟩
  · change (f.m0.uav_read && _ && _) = false
    rw [hrd, Bool.false_and, Bool.false_and]
  · simp only [step, altera_merlin_burst_uncompressor.step, hlast]
    simp [altera_merlin_burst_uncompressor.source_valid, altera_merlin_slave_agent.uncompressor_inputs, hsinkv, hvalid,
      hready]

end Agent

/-! ## The course of an access -/

/-- A read elsewhere has been taken, and its answer has not come. -/
def awaits (f : interconnect) : Bool :=
  match f.data_master.port with
  | .elsewhere a => !a.av_write && f.data_master_translator.read_accepted
  | _ => false

/-- The other slaves answer only what has been asked of them. -/
def Answers (f : interconnect) (e : Env) : Prop := f.awaits = false → ∀ k, (e.sink k).valid = false

/-- The data master goes on in this cycle. -/
def resumes (e : Env) (f : interconnect) : Bool :=
  match f.data_master.port with
  | .free => true
  | _ => !f.av_waitrequest e

/-- It goes on with its program. -/
def goes (e : Env) (f : interconnect) : Bool := f.resumes e && e.next.is_program

/-- Where the access of the data master is, and what the host of `system` does meanwhile. -/
inductive Course (f : interconnect) : Host.Port → Prop
  | free (hp : f.data_master.port = .free) (ht : f.data_master_translator = ⟨false, false, false⟩) (h : Empty f) :
    Course f .free
  | elsewhere {a : DataMaster.Elsewhere} (hp : f.data_master.port = .elsewhere a)
    (ht : f.data_master_translator.Fits a.av_write) (h : Empty f) : Course f .free
  | write {a : BitVec 4} {d : BitVec 32} (hp : f.data_master.port = .slave (.write a d))
    (ht : f.data_master_translator = ⟨false, false, false⟩)
    (hc : f.ip_slave_0_avalon_slave_0_translator.wait_latency_counter = 0)
    (ho : f.ip_slave_0_avalon_slave_0_translator.waitrequest_reset_override = false)
    (hh : f.data_master_agent.hold_waitrequest = false) (h : Empty f) : Course f (.request (.write a d))
  | written {a : BitVec 4} {d : BitVec 32} (hp : f.data_master.port = .slave (.write a d))
    (ht : f.data_master_translator = ⟨false, true, false⟩) (h : Empty f) : Course f .free
  | read {g : Fetch (BitVec 4)} (hp : f.data_master.port = .slave (.fetch g))
    (hr : f.data_master_translator.read_accepted = false) (hw : f.data_master_translator.write_accepted = false)
    (hc : f.ip_slave_0_avalon_slave_0_translator.wait_latency_counter ≤ 1)
    (hb : f.data_master_translator.end_begintransfer = false →
      f.ip_slave_0_avalon_slave_0_translator.wait_latency_counter = 0)
    (ho : f.ip_slave_0_avalon_slave_0_translator.waitrequest_reset_override = false)
    (hh : f.data_master_agent.hold_waitrequest = false) (h : Empty f) : Course f (.request (.fetch g))
  | answer {g : Fetch (BitVec 4)} {r : altera_merlin_slave_agent.Rf} (hp : f.data_master.port = .slave (.fetch g))
    (ht : f.data_master_translator = ⟨true, false, false⟩)
    (hfifo : altera_avalon_sc_fifo.Holds rsp_fifo_parameters [r] f.rsp_fifo)
    (hr : altera_merlin_slave_agent.IsRead r)
    (hv : f.ip_slave_0_avalon_slave_0_translator.read_latency_shift_reg = true) : Course f (.waiting g)

/-- The path and the link of `system`. -/
structure Link (f : interconnect) (s : system) : Prop where
  same : Same f s
  course : Course f s.host.port

section Master
variable {f : interconnect} {e : Env}

theorem master_free (hp : f.data_master.port = .free) : f.master = ⟨0#17, false, false, 0#32, 0#4, false⟩ := by
  simp only [master, DataMaster.master, hp]

theorem master_write {a : BitVec 4} {d : BitVec 32} (hp : f.data_master.port = .slave (.write a d)) :
    f.master = ⟨IO_CALC_ADDRESS_NATIVE IP_SLAVE_0_BASE a, true, false, d, 0xf#4, false⟩ := by
  simp only [master, DataMaster.master, hp]

theorem master_read {g : Fetch (BitVec 4)} (hp : f.data_master.port = .slave (.fetch g)) :
    f.master = ⟨IO_CALC_ADDRESS_NATIVE IP_SLAVE_0_BASE g.address, false, true, 0#32, 0xf#4, false⟩ := by
  simp only [master, DataMaster.master, hp]

theorem master_elsewhere {a : DataMaster.Elsewhere} (hp : f.data_master.port = .elsewhere a) :
    f.master = ⟨a.av_address, a.av_write, !a.av_write, a.av_writedata, a.av_byteenable, a.av_debugaccess⟩ := by
  simp only [master, DataMaster.master, hp]

section Access
variable {a : Access (BitVec 4) (BitVec 32)} (hp : f.data_master.port = .slave a)

include hp

theorem awaits_of_slave : f.awaits = false := by
  simp only [awaits, hp]

theorem resumes_of_slave : f.resumes e = !f.av_waitrequest e := by
  simp only [resumes, hp]

/-- Nobody answers while nothing is kept for an answer. -/
theorem Empty.silent (h : Empty f) (he : Answers f e) : f.uav_readdatavalid e = false :=
  h.uav_readdatavalid (he (awaits_of_slave hp))

end Access

/-- One cycle of the flags, while the master is busy. -/
theorem flags_step (hm : f.master.av_read = !f.master.av_write) (hr : f.resumes e = !f.av_waitrequest e)
    (hfits : f.data_master_translator.Fits f.master.av_write)
    (hanswer : (f.master.av_read && f.data_master_translator.read_accepted) = false → f.uav_readdatavalid e = false)
    (x : BitVec 128) :
    (f.step x e).data_master_translator.Fits f.master.av_write ∧
      (f.resumes e = true → (f.step x e).data_master_translator = ⟨false, false, false⟩) := by
  have hflags := hfits.step hm (f.uav_waitrequest e) hanswer
  rw [hr]
  rcases hwait : f.av_waitrequest e with _ | _
  · rw [if_neg (by rw [← av_waitrequest, hwait]; exact Bool.false_ne_true)] at hflags
    have hidle : (f.step x e).data_master_translator = ⟨false, false, false⟩ := hflags
    rw [hidle]
    exact ⟨altera_merlin_master_translator.fits_idle _, fun _ => rfl⟩
  · rw [if_pos (by rw [← av_waitrequest, hwait])] at hflags
    exact ⟨hflags, by rintro ⟨⟩⟩

/-- The flags of the translator fit what the master does, and are down when it may go on. -/
theorem Course.flags {p : Host.Port} (h : Course f p) (he : Answers f e) (x : BitVec 128) :
    (f.step x e).data_master_translator.Fits f.master.av_write ∧
      (f.resumes e = true → (f.step x e).data_master_translator = ⟨false, false, false⟩) := by
  cases h with
  | free hp ht hE =>
    have hm := master_free hp
    have hidle : (f.step x e).data_master_translator = ⟨false, false, false⟩ := by
      change f.data_master_translator.step _ _ _ = _
      rw [hm, ht]
      simp [altera_merlin_master_translator.step, altera_merlin_master_translator.av_waitrequest,
        altera_merlin_master_translator.internal_begintransfer, altera_merlin_master_translator.uav_write,
        altera_merlin_master_translator.uav_read]
    rw [hidle]
    exact ⟨altera_merlin_master_translator.fits_idle _, fun _ => rfl⟩
  | elsewhere hp ht hE =>
    have hm := master_elsewhere hp
    refine flags_step (by rw [hm]) (by simp only [resumes, hp]) (by rw [hm]; exact ht) (fun hno => ?_) x
    rw [hm] at hno
    refine hE.uav_readdatavalid (he ?_)
    simp only [awaits, hp]
    exact hno
  | write hp ht hc ho hh hE =>
    have hm := master_write hp
    refine flags_step (by rw [hm]; rfl) (resumes_of_slave hp) ?_ (fun _ => hE.silent hp he) x
    rw [ht]
    exact altera_merlin_master_translator.fits_idle _
  | written hp ht hE =>
    have hm := master_write hp
    refine flags_step (by rw [hm]; rfl) (resumes_of_slave hp) ?_ (fun _ => hE.silent hp he) x
    rw [ht, hm]
    exact ⟨Bool.noConfusion, fun _ => rfl, fun _ => rfl⟩
  | read hp hr hw hc hb ho hh hE =>
    have hm := master_read hp
    refine flags_step (by rw [hm]; rfl) (resumes_of_slave hp) ?_ (fun _ => hE.silent hp he) x
    rw [hm]
    refine ⟨fun _ => rfl, fun h => absurd h ?_, fun h => absurd h ?_⟩
    · rw [hw]
      exact Bool.false_ne_true
    · rw [hr, hw]
      exact Bool.false_ne_true
  | answer hp ht hfifo hr hv =>
    have hm := master_read hp
    refine flags_step (by rw [hm]; rfl) (resumes_of_slave hp) ?_ (fun hno => ?_) x
    · rw [hm, ht]
      exact ⟨fun _ => rfl, Bool.noConfusion, fun _ => rfl⟩
    · rw [hm, ht] at hno
      cases hno

end Master

/-! ## One cycle of the path -/

theorem take_congr {h : DataMaster} {h' : Host} (ht : h'.todo = h.todo) (hr : h'.results = h.results)
    (g : Fetch (BitVec 4)) (d : BitVec 32) :
    (h'.take g d).todo = (h.take g d).todo ∧ (h'.take g d).results = (h.take g d).results := by
  cases g with
  | read a => exact ⟨ht, congrArg (· ++ [d]) hr⟩
  | poll a =>
    by_cases htest : (d &&& 0x1#32 != 0#32) = true
    · simp only [Host.take, DataMaster.take, htest, if_true]
      exact ⟨ht, hr⟩
    · simp only [Host.take, DataMaster.take, htest]
      exact ⟨congrArg _ ht, hr⟩

section Step
variable {f : interconnect} {s : system} {x : BitVec 128} {e : Env}

/-- The start of the next access, in a cycle that ends the last one. -/
theorem Link.start {go : Bool} {h : DataMaster} {h' : Host} (hs : Same f s) (ha : Agrees f s)
    (hbusy : (f.step x e).uncompressor.burst_uncompress_busy = false) (hempty : Empty (f.step x e))
    (hflags : (f.step x e).data_master_translator = ⟨false, false, false⟩)
    (hcount : (f.step x e).ip_slave_0_avalon_slave_0_translator.wait_latency_counter = 0)
    (hmaster : (f.step x e).data_master = h.start e.next) (hhost : (s.step x go).host = h'.issue e.next.is_program)
    (ht : h'.todo = h.todo) (hr : h'.results = h.results) : Link (f.step x e) (s.step x go) := by
  obtain ⟨htranslator, hslave⟩ := slave_step x e go hs ha
  have hfree (hp : (s.step x go).host = { h' with port := .free }) (hd : (f.step x e).data_master.todo = h.todo)
      (hd' : (f.step x e).data_master.results = h.results) (hc : Course (f.step x e) .free) :
      Link (f.step x e) (s.step x go) :=
    ⟨⟨htranslator, hslave, by rw [hp, hd, ← ht], by rw [hp, hd', ← hr], hbusy⟩, by rw [hp]; exact hc⟩
  have hrest (hp : (s.step x go).host = { h' with port := .free })
      (hd : (f.step x e).data_master = { h with port := .free }) : Link (f.step x e) (s.step x go) :=
    hfree hp (by rw [hd]) (by rw [hd]) (.free (by rw [hd]) hflags hempty)
  rcases hnext : e.next with _ | _ | a <;> rw [hnext] at hmaster hhost
  · exact hrest (hhost.trans (Host.issue_free (.inl rfl))) hmaster
  · rcases htodo : h.todo with _ | ⟨a, prog⟩
    · refine hrest (hhost.trans (Host.issue_free (.inr (ht.trans htodo)))) (hmaster.trans ?_)
      simp only [DataMaster.start, htodo]
    · have hd : (f.step x e).data_master = { h with port := .slave a, todo := prog } := by
        rw [hmaster]
        simp only [DataMaster.start, htodo]
      have hp : (s.step x go).host = { h' with port := .request a, todo := prog } :=
        hhost.trans (Host.issue_cons (ht.trans htodo))
      refine ⟨⟨htranslator, hslave, by rw [hp, hd], by rw [hp, hd, ← hr], hbusy⟩, ?_⟩
      rw [hp]
      cases a with
      | write a d => exact .write (by rw [hd]) hflags hcount rfl rfl hempty
      | fetch g =>
        exact .read (by rw [hd]) (by rw [hflags]) (by rw [hflags]) (by rw [hcount]; exact Nat.zero_le 1)
          (fun _ => hcount) rfl rfl hempty
  · refine hfree (hhost.trans (Host.issue_free (.inl rfl))) (by rw [hmaster]; rfl) (by rw [hmaster]; rfl) ?_
    refine .elsewhere (a := a) (by rw [hmaster]; rfl) ?_ hempty
    rw [hflags]
    exact altera_merlin_master_translator.fits_idle _

theorem master_resumes (h : f.resumes e = true) (hne : ∀ g, f.data_master.port ≠ .slave (.fetch g)) :
    (f.step x e).data_master = f.data_master.start e.next := by
  change f.data_master.step _ _ _ = _
  rw [resumes] at h
  rw [DataMaster.step]
  split at h
  next hp => rw [hp]
  next hp =>
    rw [Bool.not_eq_true'] at h
    rw [h]
    split
    · rfl
    · rfl
    next g hp' => exact absurd hp' (hne g)
    · rfl

theorem master_waits (h : f.resumes e = false) : (f.step x e).data_master = f.data_master := by
  change f.data_master.step _ _ _ = _
  rw [resumes] at h
  rw [DataMaster.step]
  split at h
  · cases h
  next hp =>
    rw [Bool.not_eq_false'] at h
    rw [h]
    split
    next hp' => exact absurd hp' hp
    · rfl
    · rfl
    · rfl

/-- A cycle in which the data master has to wait. -/
theorem Link.waits {go : Bool} (hs : Same f s) (ha : Agrees f s)
    (hbusy : (f.step x e).uncompressor.burst_uncompress_busy = false) (hr : f.resumes e = false)
    (ht : (s.step x go).host.todo = s.host.todo) (hres : (s.step x go).host.results = s.host.results)
    (hc : Course (f.step x e) (s.step x go).host.port) : Link (f.step x e) (s.step x go) := by
  obtain ⟨htranslator, hslave⟩ := slave_step x e go hs ha
  refine ⟨⟨htranslator, hslave, ?_, ?_, hbusy⟩, hc⟩
  · rw [ht, hs.todo, master_waits hr]
  · rw [hres, hs.results, master_waits hr]

/-- The end of an access in a cycle in which nothing is asked of the slave, other than by the answer of a read. -/
theorem Link.quiet_resumes (hs : Same f s) (hp : s.host.port = .free) (h : Empty f) (hcp : f.cp.valid = false)
    (hr : f.resumes e = true) (hne : ∀ g, f.data_master.port ≠ .slave (.fetch g))
    (hflags : (f.step x e).data_master_translator = ⟨false, false, false⟩) :
    Link (f.step x e) (s.step x (f.goes e)) := by
  have hgo : f.goes e = e.next.is_program := by rw [goes, hr, Bool.true_and]
  refine Link.start hs (.inr ⟨hcp, by rw [hp]; rintro a ⟨⟩⟩) ((h.busy_step x e).trans hs.busy)
    (h.quiet_step x e hcp) hflags (counter_of_quiet x e hcp) (master_resumes hr hne) ?_ hs.todo hs.results
  rw [system.step_free hp, hgo]

theorem free_quiet (hd : f.data_master.port = .free) : f.cp.valid = false := by
  refine cp_valid_of_elsewhere (.inl ?_)
  rw [uav_write, uav_read, master_free hd]
  rfl

theorem elsewhere_quiet {a : DataMaster.Elsewhere} (hd : f.data_master.port = .elsewhere a) : f.cp.valid = false := by
  refine cp_valid_of_elsewhere (.inr ?_)
  rw [master_elsewhere hd]
  exact a.elsewhere

theorem Link.step_free (hs : Same f s) (hp : s.host.port = .free) (hd : f.data_master.port = .free) (h : Empty f)
    (hflags : f.resumes e = true → (f.step x e).data_master_translator = ⟨false, false, false⟩) :
    Link (f.step x e) (s.step x (f.goes e)) := by
  have hr : f.resumes e = true := by simp only [resumes, hd]
  refine Link.quiet_resumes hs hp h (free_quiet hd) hr ?_ (hflags hr)
  rw [hd]
  rintro g ⟨⟩

theorem written_resumes {a : BitVec 4} {d : BitVec 32} (hd : f.data_master.port = .slave (.write a d))
    (ht : f.data_master_translator = ⟨false, true, false⟩) : f.resumes e = true := by
  simp only [resumes, hd, av_waitrequest, master_write hd, ht]
  simp [altera_merlin_master_translator.av_waitrequest]

theorem written_quiet {a : BitVec 4} {d : BitVec 32} (hd : f.data_master.port = .slave (.write a d))
    (ht : f.data_master_translator = ⟨false, true, false⟩) : f.cp.valid = false := by
  refine cp_valid_of_elsewhere (.inl ?_)
  rw [uav_write, uav_read, master_write hd, ht]
  rfl

/-- The second cycle of a write: the slave has taken it, and the master is told. -/
theorem Link.step_written {a : BitVec 4} {d : BitVec 32} (hs : Same f s) (hp : s.host.port = .free)
    (hd : f.data_master.port = .slave (.write a d)) (ht : f.data_master_translator = ⟨false, true, false⟩)
    (h : Empty f) (hflags : f.resumes e = true → (f.step x e).data_master_translator = ⟨false, false, false⟩) :
    Link (f.step x e) (s.step x (f.goes e)) := by
  have hr := written_resumes (e := e) hd ht
  refine Link.quiet_resumes hs hp h (written_quiet hd ht) hr ?_ (hflags hr)
  rw [hd]
  rintro g ⟨⟩

theorem Link.step_elsewhere {a : DataMaster.Elsewhere} (hs : Same f s) (hp : s.host.port = .free)
    (hd : f.data_master.port = .elsewhere a) (h : Empty f)
    (hflags : (f.step x e).data_master_translator.Fits f.master.av_write ∧
      (f.resumes e = true → (f.step x e).data_master_translator = ⟨false, false, false⟩)) :
    Link (f.step x e) (s.step x (f.goes e)) := by
  have hcp := elsewhere_quiet hd
  rcases hr : f.resumes e with _ | _
  · have hgo : f.goes e = false := by rw [goes, hr, Bool.false_and]
    have hhost : (s.step x (f.goes e)).host = s.host := by
      rw [system.step_free hp, hgo, Host.issue_free (.inl rfl), ← hp]
    refine Link.waits hs (.inr ⟨hcp, by rw [hp]; rintro a ⟨⟩⟩) ((h.busy_step x e).trans hs.busy) hr
      (congrArg Host.todo hhost) (congrArg Host.results hhost) ?_
    rw [hhost, hp]
    refine .elsewhere (by rw [master_waits hr, hd]) ?_ (h.quiet_step x e hcp)
    have hfits := hflags.1
    rw [master_elsewhere hd] at hfits
    exact hfits
  · refine Link.quiet_resumes hs hp h hcp hr ?_ (hflags.2 hr)
    rw [hd]
    rintro g ⟨⟩

section Write
variable {a : BitVec 4} {d : BitVec 32} (hs : Same f s) (hp : s.host.port = .request (.write a d))
  (hd : f.data_master.port = .slave (.write a d)) (ht : f.data_master_translator = ⟨false, false, false⟩)
  (hc : f.ip_slave_0_avalon_slave_0_translator.wait_latency_counter = 0)
  (ho : f.ip_slave_0_avalon_slave_0_translator.waitrequest_reset_override = false)
  (hh : f.data_master_agent.hold_waitrequest = false) (h : Empty f)

include hs hp hd ht hc ho h

/-- The slave takes a write at once. -/
theorem write_request : f.m0 = s.host.uav ∧ f.m0_waitrequest = false := by
  have hm := master_write hd
  have hw : f.uav_write = true := by
    rw [uav_write, hm, ht]
    rfl
  have hr : f.uav_read = false := by
    rw [uav_read, hm]
    rfl
  have hm0 : f.m0 = s.host.uav := by
    rw [m0_of_slave h.ready (by rw [hm]) (by rw [hw, Bool.true_or]), hm, hw, hr, system.uav_write hp]
  refine ⟨hm0, ?_⟩
  rw [m0_waitrequest, hm0, ← hs.translator]
  exact (system.avalon_write hp (by rw [hs.translator, hc]) (by rw [hs.translator, ho])).2

omit hs hp hc ho h in
/-- But the master is not told in this cycle. -/
theorem write_waits : f.resumes e = false := by
  have hav : f.av_waitrequest e = true := by
    rw [av_waitrequest, master_write hd, ht]
    rfl
  rw [resumes_of_slave hd, hav, Bool.not_true]

include hh

theorem write_step : (f.step x e).data_master_translator = ⟨false, true, false⟩ := by
  have hm := master_write hd
  have hwait := (write_request hs hp hd ht hc ho h).2
  change f.data_master_translator.step _ _ _ = _
  rw [hm, ht, uav_waitrequest_of_slave h.ready hh (by rw [hm]), hwait]
  rfl

/-- The first cycle of a write. -/
theorem Link.step_write : Link (f.step x e) (s.step x (f.goes e)) := by
  obtain ⟨hm0, hwait⟩ := write_request hs hp hd ht hc ho h
  have hres := write_waits (e := e) hd ht
  have hhost : (s.step x (f.goes e)).host = { s.host with port := .free } := by
    change s.host.step _ _ _ _ = _
    rw [← hm0, hs.translator, ← m0_waitrequest, hwait, goes, hres, Bool.false_and, Host.step, hp]
    exact Host.issue_free (.inl rfl)
  have hr : f.uav_read = false := by
    rw [uav_read, master_write hd]
    rfl
  have hfifo := h.fifo_step x e
  rw [rf_source_valid_eq h.ready, hr, Bool.and_false, Bool.false_and] at hfifo
  have hempty : Empty (f.step x e) := by
    refine ⟨hfifo, ?_⟩
    change (f.m0.uav_read && _ && _) = false
    rw [hm0, system.uav_write hp]
    rfl
  refine Link.waits hs (.inl hm0) ((h.busy_step x e).trans hs.busy) hres (by rw [hhost]) (by rw [hhost]) ?_
  rw [hhost]
  exact .written (by rw [master_waits hres, hd]) (write_step hs hp hd ht hc ho hh h) hempty

end Write

section Read
variable {g : Fetch (BitVec 4)} (hs : Same f s) (hp : s.host.port = .request (.fetch g))
  (hd : f.data_master.port = .slave (.fetch g)) (hra : f.data_master_translator.read_accepted = false)
  (hwa : f.data_master_translator.write_accepted = false)
  (hc : f.ip_slave_0_avalon_slave_0_translator.wait_latency_counter ≤ 1)
  (ho : f.ip_slave_0_avalon_slave_0_translator.waitrequest_reset_override = false)
  (hh : f.data_master_agent.hold_waitrequest = false) (h : Empty f) (he : Answers f e)

include hd h he in
theorem read_waits : f.resumes e = false := by
  have hav : f.av_waitrequest e = true := by
    rw [av_waitrequest, master_read hd, h.silent hd he]
    rfl
  rw [resumes_of_slave hd, hav, Bool.not_true]

include hd hra

theorem read_uav : f.uav_read = true := by
  rw [uav_read, master_read hd, altera_merlin_master_translator.uav_read, hra]
  rfl

include hs hp hc ho h

/-- The slave takes a read in its second cycle. -/
theorem read_request : f.m0 = s.host.uav ∧
    f.m0_waitrequest = decide (f.ip_slave_0_avalon_slave_0_translator.wait_latency_counter < 1) := by
  have hm := master_read hd
  have hr := read_uav hd hra
  have hw : f.uav_write = false := by
    rw [uav_write, hm]
    rfl
  have hm0 : f.m0 = s.host.uav := by
    rw [m0_of_slave h.ready (by rw [hm]) (by rw [hr, Bool.or_true]), hm, hw, hr, system.uav_fetch hp]
  refine ⟨hm0, ?_⟩
  rw [m0_waitrequest, hm0, ← hs.translator]
  exact (system.avalon_read hp (by rw [hs.translator]; exact hc) (by rw [hs.translator, ho])).2

theorem read_counter (hc0 : f.ip_slave_0_avalon_slave_0_translator.wait_latency_counter = 0) :
    (f.step x e).ip_slave_0_avalon_slave_0_translator.wait_latency_counter = 1 := by
  have hm0 := (read_request hs hp hd hra hc ho h).1
  have hlt : f.ip_slave_0_avalon_slave_0_translator.wait_latency_counter < f.m0.latency ip_slave_0_parameters := by
    rw [hc0, hm0, system.uav_fetch hp]
    exact Nat.one_pos
  have hrequest : f.m0.request = true := by
    rw [hm0, system.uav_fetch hp]
    rfl
  exact (altera_merlin_slave_translator.counter_step hlt ho hrequest _).trans (by rw [hc0])

include hwa hh he

/-- Translator, response FIFO and answer after a cycle of the request. -/
theorem read_step : (f.step x e).data_master_translator.read_accepted = !f.m0_waitrequest ∧
    (f.step x e).data_master_translator.write_accepted = false ∧
    (f.step x e).data_master_translator.end_begintransfer = f.m0_waitrequest ∧
    altera_avalon_sc_fifo.Holds rsp_fifo_parameters
      (if !f.m0_waitrequest then [altera_merlin_slave_agent.rf_source f.cp] else []) (f.step x e).rsp_fifo ∧
    (f.step x e).ip_slave_0_avalon_slave_0_translator.read_latency_shift_reg = !f.m0_waitrequest := by
  have hm := master_read hd
  have hr := read_uav hd hra
  obtain ⟨hm0, hwait⟩ := read_request hs hp hd hra hc ho h
  have huav := uav_waitrequest_of_slave (e := e) h.ready hh (by rw [hm])
  have hav : f.av_waitrequest e = true := by
    have hres := read_waits hd h he
    rwa [resumes_of_slave hd, Bool.not_eq_false'] at hres
  refine ⟨?_, ?_, ?_, ?_, ?_⟩
  · change (f.data_master_translator.step _ _ _).read_accepted = _
    rw [altera_merlin_master_translator.step, hra, ← av_waitrequest, hav, hm, huav]
    simp
  · change (f.data_master_translator.step _ _ _).write_accepted = false
    simp [altera_merlin_master_translator.step, hm, altera_merlin_master_translator.uav_write, hwa]
  · change (f.data_master_translator.step _ _ _).end_begintransfer = _
    rw [altera_merlin_master_translator.step, huav, altera_merlin_master_translator.internal_begintransfer]
    change (if ((f.uav_write || f.uav_read) && _ && _) = true then _ else _) = _
    rw [hr, Bool.or_true]
    cases f.m0_waitrequest <;> cases f.data_master_translator.end_begintransfer <;> rfl
  · have hfifo := h.fifo_step x e
    rwa [rf_source_valid_eq h.ready, cp_valid_of_slave (by rw [hm]) (by rw [hr, Bool.or_true]), hr, Bool.true_and,
      Bool.true_and] at hfifo
  · change (f.m0.uav_read && !f.m0_waitrequest && !_) = _
    rw [hm0, system.uav_fetch hp, ho, Bool.true_and, Bool.not_false, Bool.and_true]

/-- The cycles of a read until it is accepted. -/
theorem Link.step_read : Link (f.step x e) (s.step x (f.goes e)) := by
  obtain ⟨hm0, hwait⟩ := read_request hs hp hd hra hc ho h
  obtain ⟨haccepted, hwritten, hended, hfifo, hvalid⟩ := read_step (x := x) hs hp hd hra hwa hc ho hh h he
  have hres := read_waits hd h he
  have hmaster := (congrArg DataMaster.port (master_waits (x := x) hres)).trans hd
  have hbusy := (h.busy_step x e).trans hs.busy
  rcases Nat.le_one_iff_eq_zero_or_eq_one.1 hc with hc0 | hc1
  · -- it is held
    rw [hc0] at hwait
    replace hwait : f.m0_waitrequest = true := hwait
    rw [hwait] at haccepted hended hfifo hvalid
    have hhost : (s.step x (f.goes e)).host = s.host := by
      change s.host.step _ _ _ _ = _
      rw [← hm0, hs.translator, ← m0_waitrequest, hwait, Host.step, hp]
      rfl
    refine Link.waits hs (.inl hm0) hbusy hres (by rw [hhost]) (by rw [hhost]) ?_
    rw [hhost, hp]
    refine .read hmaster haccepted hwritten ?_ ?_ rfl rfl ⟨hfifo, hvalid⟩
    · exact Nat.le_of_eq (read_counter hs hp hd hra hc ho h hc0)
    · intro hno
      rw [hended] at hno
      cases hno
  · -- it is accepted
    rw [hc1] at hwait
    replace hwait : f.m0_waitrequest = false := hwait
    rw [hwait] at haccepted hended hfifo hvalid
    have hhost := system.step_second hp (by rw [hs.translator, hc1]) (by rw [hs.translator, ho]) x (f.goes e)
    have hw : f.uav_write = false := by
      rw [uav_write, master_read hd]
      rfl
    refine Link.waits hs (.inl hm0) hbusy hres (by rw [hhost]) (by rw [hhost]) ?_
    rw [hhost]
    refine .answer hmaster (altera_merlin_master_translator.ext haccepted hwritten hended) hfifo ?_ hvalid
    apply altera_merlin_slave_agent.isRead_source <;> simp [cp, cp_data, hw]

end Read

theorem answer_quiet {g : Fetch (BitVec 4)} (hd : f.data_master.port = .slave (.fetch g))
    (ht : f.data_master_translator = ⟨true, false, false⟩) : f.cp.valid = false := by
  refine cp_valid_of_elsewhere (.inl ?_)
  rw [uav_write, uav_read, master_read hd, ht]
  rfl

theorem answer_resumes {g : Fetch (BitVec 4)} (hd : f.data_master.port = .slave (.fetch g))
    (hanswer : f.uav_readdatavalid e = true) : f.av_waitrequest e = false ∧ f.resumes e = true := by
  have hav : f.av_waitrequest e = false := by
    rw [av_waitrequest, master_read hd, hanswer]
    rfl
  exact ⟨hav, by rw [resumes_of_slave hd, hav, Bool.not_false]⟩

/-- The cycle of an answer. -/
theorem Link.step_answer {g : Fetch (BitVec 4)} {r : altera_merlin_slave_agent.Rf} (hs : Same f s)
    (hp : s.host.port = .waiting g) (hd : f.data_master.port = .slave (.fetch g))
    (ht : f.data_master_translator = ⟨true, false, false⟩)
    (hfifo : altera_avalon_sc_fifo.Holds rsp_fifo_parameters [r] f.rsp_fifo) (hr : altera_merlin_slave_agent.IsRead r)
    (hv : f.ip_slave_0_avalon_slave_0_translator.read_latency_shift_reg = true) (he : Answers f e)
    (hflags : f.resumes e = true → (f.step x e).data_master_translator = ⟨false, false, false⟩) :
    Link (f.step x e) (s.step x (f.goes e)) := by
  have hcp := answer_quiet hd ht
  have hsilent := he (awaits_of_slave hd)
  obtain ⟨hanswer, hdata⟩ := answer_eq e hfifo hr hv hsilent
  obtain ⟨hempty, hbusy⟩ := answer_step x e hfifo hr hv hsilent hcp
  obtain ⟨hav, hres⟩ := answer_resumes hd hanswer
  have hgo : f.goes e = e.next.is_program := by rw [goes, hres, Bool.true_and]
  obtain ⟨htodo, hresults⟩ := take_congr hs.todo hs.results g (f.uav_readdata e)
  refine Link.start hs (.inr ⟨hcp, by rw [hp]; rintro a ⟨⟩⟩) hbusy hempty (hflags hres) (counter_of_quiet x e hcp) ?_ ?_
    htodo hresults
  · change f.data_master.step _ _ _ = _
    simp only [DataMaster.step, hd, hav]
    rfl
  · rw [system.step_waiting hp (by rw [hs.translator, hv]), hgo, hs.translator, ← hdata]

theorem Link.step (h : Link f s) (he : Answers f e) : Link (f.step x e) (s.step x (f.goes e)) := by
  obtain ⟨hs, hc⟩ := h
  have hflags := hc.flags he x
  generalize hp : s.host.port = port at hc
  cases hc with
  | free hd ht h => exact Link.step_free hs hp hd h hflags.2
  | elsewhere hd ht h => exact Link.step_elsewhere hs hp hd h hflags
  | write hd ht hc ho hh h => exact Link.step_write hs hp hd ht hc ho hh h
  | written hd ht h => exact Link.step_written hs hp hd ht h hflags.2
  | read hd hra hwa hc hb ho hh h => exact Link.step_read hs hp hd hra hwa hc ho hh h he
  | answer hd ht hfifo hr hv => exact Link.step_answer hs hp hd ht hfifo hr hv he hflags.2

/-! ## What the slave sees -/

/-- How far an access to the slave has come. -/
def stage (f : interconnect) : ℕ :=
  match f.data_master.port with
  | .slave (.write _ _) => if f.data_master_translator.write_accepted then 1 else 0
  | .slave (.fetch _) =>
    if f.data_master_translator.read_accepted then 2
    else f.ip_slave_0_avalon_slave_0_translator.wait_latency_counter
  | _ => 0

/-- A cycle of an access that began `k` cycles before it: the slave sees a write in one cycle and a read in two, and
after them the master goes on. -/
def Shows (f : interconnect) (e : Env) (k : ℕ) : Prop :=
  match f.data_master.port with
  | .slave (.write a d) => k ≤ 1 ∧ f.resumes e = decide (k = 1) ∧
      if k < 1 then f.avalon_anti_slave_0 = .writing a d else f.avalon_anti_slave_0.iChipSelect_n = true
  | .slave (.fetch g) => k ≤ 2 ∧ f.resumes e = decide (k = 2) ∧
      if k < 2 then f.avalon_anti_slave_0 = .reading g.address else f.avalon_anti_slave_0.iChipSelect_n = true
  | _ => f.avalon_anti_slave_0.iChipSelect_n = true

theorem Link.shows (h : Link f s) (he : Answers f e) : f.Shows e f.stage := by
  obtain ⟨hs, hc⟩ := h
  generalize hp : s.host.port = port at hc
  cases hc with
  | free hd =>
    simp only [Shows, hd]
    exact deselected_of_quiet (free_quiet hd)
  | elsewhere hd =>
    simp only [Shows, hd]
    exact deselected_of_quiet (elsewhere_quiet hd)
  | write hd ht hc ho hh h =>
    have havalon := avalon_eq hs (write_request hs hp hd ht hc ho h).1
    simp only [Shows, stage, hd, ht]
    refine ⟨Nat.zero_le 1, write_waits hd ht, havalon.trans ?_⟩
    exact (system.avalon_write hp (by rw [hs.translator, hc]) (by rw [hs.translator, ho])).1
  | written hd ht h =>
    simp only [Shows, stage, hd, ht]
    exact ⟨Nat.le_refl 1, written_resumes hd ht, deselected_of_quiet (written_quiet hd ht)⟩
  | read hd hra hwa hc hb ho hh h =>
    have havalon := avalon_eq hs (read_request hs hp hd hra hc ho h).1
    simp only [Shows, stage, hd, hra]
    refine ⟨Nat.le_succ_of_le hc, ?_, ?_⟩
    · rw [read_waits hd h he]
      exact (decide_eq_false (Nat.ne_of_lt (Nat.lt_succ_of_le hc))).symm
    · rw [if_neg Bool.false_ne_true, if_pos (Nat.lt_succ_of_le hc), havalon]
      exact (system.avalon_read hp (by rw [hs.translator]; exact hc) (by rw [hs.translator, ho])).1
  | answer hd ht hfifo hr hv =>
    have hanswer := (answer_eq e hfifo hr hv (he (awaits_of_slave hd))).1
    simp only [Shows, stage, hd, ht]
    exact ⟨Nat.le_refl 2, (answer_resumes hd hanswer).2, deselected_of_quiet (answer_quiet hd ht)⟩

/-- In its last cycle a read has the word that the slave showed in the cycle before. -/
theorem Link.readdata (h : Link f s) (he : Answers f e) {g : Fetch (BitVec 4)}
    (hg : f.data_master.port = .slave (.fetch g)) (hstage : f.stage = 2) :
    f.uav_readdata e = f.ip_slave_0_avalon_slave_0_translator.av_readdata_pre := by
  have hc := h.course
  generalize s.host.port = port at hc
  cases hc with
  | free hd => rw [hd] at hg; cases hg
  | elsewhere hd => rw [hd] at hg; cases hg
  | write hd => rw [hd] at hg; cases hg
  | written hd => rw [hd] at hg; cases hg
  | read hd hra hwa hc =>
    simp only [stage, hd, hra] at hstage
    rw [if_neg Bool.false_ne_true] at hstage
    omega
  | answer hd ht hfifo hr hv => exact (answer_eq e hfifo hr hv (he (awaits_of_slave hd))).2

theorem Link.stage_resumes (h : Link f s) (he : Answers f e) (hr : f.resumes e = true) : (f.step x e).stage = 0 := by
  have hflags := (h.course.flags he x).2 hr
  have hnext := (h.step (x := x) he).course
  generalize (s.step x (f.goes e)).host.port = port at hnext
  cases hnext with
  | free hd => simp only [stage, hd]
  | elsewhere hd => simp only [stage, hd]
  | write hd ht => simp only [stage, hd, ht]; rfl
  | written hd ht => rw [hflags] at ht; cases ht
  | read hd hra hwa hc hb =>
    simp only [stage, hd, hra]
    exact hb (by rw [hflags])
  | answer hd ht => rw [hflags] at ht; cases ht

theorem Link.stage_waits (h : Link f s) (he : Answers f e) (hr : f.resumes e = false)
    {a : Access (BitVec 4) (BitVec 32)} (ha : f.data_master.port = .slave a) : (f.step x e).stage = f.stage + 1 := by
  obtain ⟨hs, hc⟩ := h
  have hmaster := congrArg DataMaster.port (master_waits (x := x) hr)
  generalize hp : s.host.port = port at hc
  cases hc with
  | free hd => rw [hd] at ha; cases ha
  | elsewhere hd => rw [hd] at ha; cases ha
  | write hd ht hc ho hh h =>
    simp only [stage, hmaster, hd, ht, write_step hs hp hd ht hc ho hh h]
    rfl
  | written hd ht => rw [written_resumes hd ht] at hr; cases hr
  | read hd hra hwa hc hb ho hh h =>
    have hwait := (read_request hs hp hd hra hc ho h).2
    have haccepted := (read_step (x := x) hs hp hd hra hwa hc ho hh h he).1
    simp only [stage, hmaster, hd, haccepted, hra, hwait]
    rcases Nat.le_one_iff_eq_zero_or_eq_one.1 hc with hc0 | hc1
    · rw [read_counter hs hp hd hra hc ho h hc0, hc0]
      rfl
    · rw [hc1]
      rfl
  | answer hd ht hfifo hrd hv =>
    have hanswer := (answer_eq e hfifo hrd hv (he (awaits_of_slave hd))).1
    rw [(answer_resumes hd hanswer).2] at hr
    cases hr

/-! ## The end of an access elsewhere -/

/-- What the data master does elsewhere, it began in this cycle or goes on with. -/
theorem elsewhere_of_step {a : DataMaster.Elsewhere} (h : (f.step x e).data_master.port = .elsewhere a) :
    e.next = .elsewhere a ∨ f.resumes e = false ∧ f.data_master.port = .elsewhere a := by
  have hstart {g : DataMaster} (hg : (g.start e.next).port = .elsewhere a) : e.next = .elsewhere a := by
    unfold DataMaster.start at hg
    split at hg
    next => cases hg
    next hnext =>
      cases hg
      exact hnext
    next => cases hg
  rcases hr : f.resumes e with _ | _
  · rw [master_waits hr] at h
    exact .inr ⟨rfl, h⟩
  · left
    change (f.data_master.step _ _ _).port = _ at h
    rw [resumes] at hr
    rw [DataMaster.step] at h
    split at hr
    next hp =>
      rw [hp] at h
      exact hstart h
    next =>
      rw [Bool.not_eq_true'] at hr
      rw [hr] at h
      split at h <;> exact hstart h

section Write
variable {a : DataMaster.Elsewhere} (hd : f.data_master.port = .elsewhere a) (hw : a.av_write = true)
include hd hw

/-- A write to another slave is over in the cycle after it was taken, at the latest. -/
theorem taken_resumes (ht : f.data_master_translator.write_accepted = true) : f.resumes e = true := by
  simp only [resumes, hd, av_waitrequest, master_elsewhere hd, hw]
  simp [altera_merlin_master_translator.av_waitrequest, ht]

theorem write_taken (hready : f.uav_waitrequest e = false) (hr : f.resumes e = false) :
    (f.step x e).data_master_translator.write_accepted = true := by
  have hav : f.av_waitrequest e = true := by simpa only [resumes, hd, Bool.not_eq_false'] using hr
  change (f.data_master_translator.step _ _ _).write_accepted = true
  rw [altera_merlin_master_translator.step, ← av_waitrequest, hav, hready]
  cases ht : f.data_master_translator.write_accepted <;>
    simp [altera_merlin_master_translator.uav_write, master_elsewhere hd, hw, ht]

end Write

end Step

/-! ## Runs -/

theorem link_reset (rom : S_box) (prog : List (Access (BitVec 4) (BitVec 32))) :
    Link (reset rom prog) (system.reset rom prog) :=
  ⟨⟨rfl, rfl, rfl, rfl, rfl⟩, .free rfl rfl ⟨altera_avalon_sc_fifo.holds_reset _ _, rfl⟩⟩

/-- The cycles since the data master last went on. -/
def age (f : ℕ → interconnect) (env : ℕ → Env) : ℕ → ℕ
  | 0 => 0
  | n + 1 => if (f n).resumes (env n) then 0 else age f env n + 1

/-- The program has come to its end. -/
def finished (f : interconnect) : Prop := f.data_master.todo = [] ∧ ∀ a, f.data_master.port ≠ .slave a

/-- Link and path end together, or the path one cycle later. -/
theorem Link.finished {f : interconnect} {s : system} {e : Env} {x : BitVec 128} (h : Link f s) (he : Answers f e) :
    (f.finished → s.host.finished) ∧ (s.host.finished → f.finished ∨ (f.step x e).finished) := by
  obtain ⟨hs, hc⟩ := h
  have hflags := (hc.flags he x).2
  generalize hp : s.host.port = port at hc
  constructor
  · rintro ⟨htodo, hport⟩
    refine ⟨?_, hs.todo.trans htodo⟩
    cases hc with
    | free => exact hp
    | elsewhere => exact hp
    | write hd => exact absurd hd (hport _)
    | written hd => exact absurd hd (hport _)
    | read hd => exact absurd hd (hport _)
    | answer hd => exact absurd hd (hport _)
  · rintro ⟨hfree, htodo⟩
    rw [hs.todo] at htodo
    cases hc with
    | free hd => exact .inl ⟨htodo, by rw [hd]; rintro a ⟨⟩⟩
    | elsewhere hd => exact .inl ⟨htodo, by rw [hd]; rintro a ⟨⟩⟩
    | written hd ht =>
      -- the master is told of the last write
      right
      have hmaster := master_resumes (x := x) (written_resumes (e := e) hd ht) (by rw [hd]; rintro g ⟨⟩)
      rcases hnext : e.next with _ | _ | a <;>
        simp only [interconnect.finished, hmaster, DataMaster.start, hnext, htodo] <;> exact ⟨trivial, by rintro a ⟨⟩⟩
    | write => rw [hp] at hfree; cases hfree
    | read => rw [hp] at hfree; cases hfree
    | answer => rw [hp] at hfree; cases hfree

section Run
variable {x : BitVec 128} {rom : S_box} {prog : List (Access (BitVec 4) (BitVec 32))} {env : ℕ → Env}
  (hanswers : ∀ n, (run (step x) (reset rom prog) env n).Answers (env n))

include hanswers

/-- The path is in lockstep with `system`, where the host is let go when it goes on with its program. -/
theorem link_run (n : ℕ) : Link (run (step x) (reset rom prog) env n)
    (run (system.step x) (system.reset rom prog) (fun k => (run (step x) (reset rom prog) env k).goes (env k)) n) := by
  induction n with
  | zero => exact link_reset rom prog
  | succ n ih => exact ih.step (hanswers n)

theorem age_eq (n : ℕ) {a : Access (BitVec 4) (BitVec 32)}
    (ha : (run (step x) (reset rom prog) env n).data_master.port = .slave a) :
    age (run (step x) (reset rom prog) env) env n = (run (step x) (reset rom prog) env n).stage := by
  induction n with
  | zero => cases ha
  | succ n ih =>
    have hlink := link_run hanswers n
    rw [age]
    rcases hr : (run (step x) (reset rom prog) env n).resumes (env n) with _ | _
    · have ha' := ha
      rw [run_succ, master_waits hr] at ha'
      rw [if_neg Bool.false_ne_true, ih ha', run_succ, hlink.stage_waits (hanswers n) hr ha']
    · rw [if_pos rfl, run_succ, hlink.stage_resumes (hanswers n) hr]

theorem shows_run (n : ℕ) :
    (run (step x) (reset rom prog) env n).Shows (env n) (age (run (step x) (reset rom prog) env) env n) := by
  have hshows := (link_run hanswers n).shows (hanswers n)
  rcases hport : (run (step x) (reset rom prog) env n).data_master.port with _ | a | a
  · simp only [Shows, hport] at hshows ⊢
    exact hshows
  · rw [age_eq hanswers n hport]
    exact hshows
  · simp only [Shows, hport] at hshows ⊢
    exact hshows

/-- An access to the slave is over in its third cycle at the latest. -/
theorem slave_resumes {n : ℕ} {a : Access (BitVec 4) (BitVec 32)}
    (ha : (run (step x) (reset rom prog) env n).data_master.port = .slave a) :
    ∃ m, n ≤ m ∧ m ≤ n + 2 ∧ (run (step x) (reset rom prog) env m).resumes (env m) = true := by
  let f := run (step x) (reset rom prog) env
  obtain ⟨m, hm, hle, -, hr⟩ := leads_to (P := fun j => (f j).resumes (env j) = true)
    (Q := fun j => (f j).data_master.port = .slave a) (f := fun j => 2 - age f env j) ha fun j _ hj hr => by
      rw [Bool.not_eq_true] at hr
      have hlt : age f env j < 2 := by
        have hshows := shows_run hanswers j
        cases a with
        | write a d =>
          simp only [Shows, show (run (step x) (reset rom prog) env j).data_master.port = _ from hj] at hshows
          exact Nat.lt_succ_of_le hshows.1
        | fetch g =>
          simp only [Shows, show (run (step x) (reset rom prog) env j).data_master.port = _ from hj] at hshows
          obtain ⟨hle, hres, -⟩ := hshows
          refine Nat.lt_of_le_of_ne hle fun htwo => ?_
          rw [show (run (step x) (reset rom prog) env j).resumes (env j) = false from hr, htwo] at hres
          cases hres
      have hage : age f env (j + 1) = age f env j + 1 := by rw [age, hr, if_neg Bool.false_ne_true]
      exact ⟨(congrArg DataMaster.port (master_waits hr)).trans hj, by omega⟩
  exact ⟨m, hm, by omega, hr⟩

end Run

/-! ## A run with another slave -/

/-- A read or a write of the memory. -/
def memory_access (av_write : Bool) : DataMaster.Elsewhere := ⟨0x8000#17, av_write, 1#32, 0xf#4, false, by decide⟩

/-- A host that reads the memory first, which answers in cycle 2, and goes on with its program then, but for a write
to the memory in every fourth cycle. -/
def by_turns (n : ℕ) : Env where
  next := if n = 0 then .elsewhere (memory_access false) else if n % 4 = 0 then .elsewhere (memory_access true)
    else .program
  ready := 0b111#3
  sink := fun k => ⟨n == 2 && k.val == 1, 0#88⟩

def by_turns_run : ℕ → interconnect :=
  run (step 5#128) (reset (.posedge 0#128) (program [.SetKey 1#128, .Encrypt 2#128])) by_turns

/-- The read was taken in cycle 1, and ends with its answer. -/
theorem memory_answers : (by_turns_run 2).awaits = true ∧ (by_turns_run 2).resumes (by_turns 2) = true := by
  decide +kernel

theorem answers_by_turns (n : ℕ) : (by_turns_run n).Answers (by_turns n) := by
  intro hawaits k
  have hn : n ≠ 2 := by
    rintro rfl
    rw [memory_answers.1] at hawaits
    cases hawaits
  simp [by_turns, hn]

/-- After the read, it is only written to the memory. -/
theorem elsewhere_by_turns {n : ℕ} (hn : 3 ≤ n) {a : DataMaster.Elsewhere}
    (ha : (by_turns_run n).data_master.port = .elsewhere a) : a = memory_access true := by
  induction n, hn using Nat.le_induction with
  | base =>
    rcases elsewhere_of_step (f := by_turns_run 2) ha with hnext | ⟨hr, -⟩
    · cases hnext
    · rw [memory_answers.2] at hr
      cases hr
  | succ n hn ih =>
    rcases elsewhere_of_step (f := by_turns_run n) ha with hnext | ⟨-, hn⟩
    · rw [by_turns, if_neg (by omega)] at hnext
      split at hnext <;> cases hnext
      rfl
    · exact ih hn

/-- The memory takes every write at once. -/
theorem memory_ready {n : ℕ} {a : DataMaster.Elsewhere} (hn : 0 < n)
    (ha : (by_turns_run n).data_master.port = .elsewhere a) (hm : a = memory_access true) :
    (by_turns_run n).uav_waitrequest (by_turns n) = false := by
  obtain ⟨k, rfl⟩ := Nat.exists_eq_succ_of_ne_zero (Nat.ne_of_gt hn)
  have hhold : (by_turns_run (k + 1)).data_master_agent = ⟨false⟩ := rfl
  have hchannel : (by_turns_run (k + 1)).src_channel = 0b0010#4 := by
    rw [src_channel_master, master_elsewhere ha, hm]
    rfl
  have hmask (b : Bool) : (0b0010#4 &&& (BitVec.ofBool b ++ 0b111#3) ≠ 0#4 : Bool) = true := by
    revert b
    decide
  rw [uav_waitrequest, altera_merlin_master_agent.av_waitrequest, hhold, cp_ready, hchannel,
    system_cmd_xbar_demux_001.sink_ready, show (by_turns (k + 1)).ready = 0b111#3 from rfl, hmask]
  rfl

/-- The data master goes on within three cycles. -/
theorem resumes_by_turns {n : ℕ} (hn : 3 ≤ n) :
    ∃ m, n ≤ m ∧ m ≤ n + 2 ∧ (by_turns_run m).resumes (by_turns m) = true := by
  rcases hp : (by_turns_run n).data_master.port with _ | a | a
  · exact ⟨n, Nat.le_refl n, Nat.le_add_right n 2, by simp only [resumes, hp]⟩
  · exact slave_resumes answers_by_turns hp
  · have hm := elsewhere_by_turns hn hp
    have hw : a.av_write = true := by rw [hm]; rfl
    rcases hr : (by_turns_run n).resumes (by_turns n) with _ | _
    · have hd : (by_turns_run (n + 1)).data_master.port = .elsewhere a :=
        (congrArg DataMaster.port (master_waits hr)).trans hp
      have htaken := write_taken (x := 5#128) hp hw (memory_ready (by omega) hp hm) hr
      exact ⟨n + 1, Nat.le_succ n, by omega, taken_resumes hd hw htaken⟩
    · exact ⟨n, Nat.le_refl n, Nat.le_add_right n 2, hr⟩

/-- One of four cycles is for the memory, so it goes on with its program again and again. -/
theorem goes_by_turns (m : ℕ) : ∃ n ≥ m, (by_turns_run n).goes (by_turns n) = true := by
  have hgoes {n : ℕ} (hn : n % 4 ≠ 0) (hr : (by_turns_run n).resumes (by_turns n) = true) :
      (by_turns_run n).goes (by_turns n) = true := by
    have hnext : (by_turns n).next = .program := by
      rw [by_turns, if_neg (fun h0 => hn (by rw [h0])), if_neg hn]
    rw [goes, hr, hnext]
    rfl
  obtain ⟨n, hmn, -, hr⟩ := resumes_by_turns (n := m + 3) (by omega)
  by_cases hn : n % 4 = 0
  · obtain ⟨k, hnk, hk, hrk⟩ := resumes_by_turns (n := n + 1) (by omega)
    exact ⟨k, by omega, hgoes (by omega) hrk⟩
  · exact ⟨n, by omega, hgoes hn hr⟩

/-- The first access to the slave, a poll, is in cycles 3 to 5. -/
theorem poll_by_turns : (by_turns_run 5).data_master.port = .slave (.fetch (.poll 15#4)) ∧
    age by_turns_run by_turns 5 = 2 := by
  obtain ⟨hawaits, hresumes⟩ := memory_answers
  obtain ⟨a, hread⟩ : ∃ a, (by_turns_run 2).data_master.port = .elsewhere a := by
    unfold awaits at hawaits
    split at hawaits
    next a ha => exact ⟨a, ha⟩
    next => cases hawaits
  have hheld : (by_turns_run 2).data_master = (by_turns_run 1).data_master := by
    rcases elsewhere_of_step (f := by_turns_run 1) hread with hnext | ⟨hr, -⟩
    · cases hnext
    · exact master_waits hr
  have hstart : (by_turns_run 3).data_master = (by_turns_run 2).data_master.start .program :=
    master_resumes (f := by_turns_run 2) hresumes (by rw [hread]; rintro g ⟨⟩)
  have hport : (by_turns_run 3).data_master.port = .slave (.fetch (.poll 15#4)) := by
    rw [hstart, hheld]
    rfl
  have hage : age by_turns_run by_turns 3 = 0 := by rw [age, hresumes, if_pos rfl]
  -- a read that has not come to its third cycle waits
  have hwaits {n k : ℕ} (hp : (by_turns_run n).data_master.port = .slave (.fetch (.poll 15#4)))
      (hk : age by_turns_run by_turns n = k) (hlt : k < 2) :
      (by_turns_run (n + 1)).data_master.port = .slave (.fetch (.poll 15#4)) ∧
        age by_turns_run by_turns (n + 1) = k + 1 := by
    have hshows : (by_turns_run n).Shows (by_turns n) (age by_turns_run by_turns n) := shows_run answers_by_turns n
    simp only [Shows, hp, hk] at hshows
    have hr : (by_turns_run n).resumes (by_turns n) = false := hshows.2.1.trans (decide_eq_false (Nat.ne_of_lt hlt))
    exact ⟨(congrArg DataMaster.port (master_waits hr)).trans hp, by rw [age, hr, if_neg Bool.false_ne_true, hk]⟩
  obtain ⟨hport, hage⟩ := hwaits hport hage (by decide)
  exact hwaits hport hage (by decide)

/-! ## Over the whole path -/

/-- Every access to the slave in every run, whatever the host does elsewhere in between: a write is on the port of the
slave in its first cycle and over in the next; a read is on it in its first two, and over in the third with the word
that the slave shows in the second. In all other cycles the slave is not selected. -/
theorem accesses_served (x : BitVec 128) (rom : S_box) (prog : List (Access (BitVec 4) (BitVec 32))) (env : ℕ → Env)
    (hanswers : ∀ n, (run (step x) (reset rom prog) env n).Answers (env n)) (n : ℕ) :
    let f := run (step x) (reset rom prog) env
    (f n).Shows (env n) (age f env n) ∧
      ∀ g, (f n).data_master.port = .slave (.fetch g) → age f env n = 2 →
        ∃ m, n = m + 1 ∧ (f n).uav_readdata (env n) = (f m).ip_slave_0.oData := by
  intro f
  refine ⟨shows_run hanswers n, fun g hg hage => ?_⟩
  have hstage := (age_eq hanswers n hg).symm.trans hage
  have hdata := (link_run hanswers n).readdata (hanswers n) hg hstage
  cases n with
  | zero => cases hg
  | succ m => exact ⟨m, rfl, hdata⟩

/-- The last cycle of the first poll: the word read is the one that the slave shows in the cycle before. -/
theorem accesses_served_by_turns :
    ((by_turns_run 5).data_master.port = .slave (.fetch (.poll 15#4)) ∧ age by_turns_run by_turns 5 = 2) ∧
      (by_turns_run 5).Shows (by_turns 5) (age by_turns_run by_turns 5) ∧
      ∀ g, (by_turns_run 5).data_master.port = .slave (.fetch g) → age by_turns_run by_turns 5 = 2 →
        ∃ m, 5 = m + 1 ∧ (by_turns_run 5).uav_readdata (by_turns 5) = (by_turns_run m).ip_slave_0.oData :=
  ⟨poll_by_turns,
    accesses_served 5#128 (.posedge 0#128) (program [.SetKey 1#128, .Encrypt 2#128]) by_turns answers_by_turns 5⟩

/-- The program of source.c over the whole path, mixed with accesses elsewhere: the words it reads are the ciphertexts
of its blocks, in order, and no others, and it comes to its end, as long as the host goes on with it again and again. -/
theorem program_on_interconnect (x : BitVec 128) (rom : S_box) (K : Fips197.Block) (ops : List Op) (env : ℕ → Env)
    (hanswers : ∀ n, (run (step x) (reset rom (program (.SetKey K :: ops))) env n).Answers (env n)) :
    let f := run (step x) (reset rom (program (.SetKey K :: ops))) env
    (∀ n, (f n).data_master.results <+: expected K ops) ∧
      (∀ n, (f n).finished → (f n).data_master.results = expected K ops) ∧
      ((∀ m, ∃ n ≥ m, (f n).goes (env n) = true) → ∃ n, (f n).finished) := by
  intro f
  have hlink := link_run hanswers
  refine ⟨fun n => ?_, fun n hf => ?_, fun hfair => ?_⟩
  · rw [← (hlink n).same.results]
    exact system.program_results x rom K ops _ n
  · rw [← (hlink n).same.results]
    exact system.program_finished x rom K ops _ (((hlink n).finished (x := x) (hanswers n)).1 hf)
  · obtain ⟨n, hn⟩ := system.exists_program_finished x rom K ops (fun k => (f k).goes (env k)) hfair
    rcases ((hlink n).finished (x := x) (hanswers n)).2 hn with hf | hf
    · exact ⟨n, hf⟩
    · exact ⟨n + 1, hf⟩

/-- One key and one block. -/
theorem program_on_interconnect_by_turns : ∃ n, (by_turns_run n).finished ∧
    (by_turns_run n).data_master.results = expected 1#128 [.Encrypt 2#128] := by
  obtain ⟨-, hresults, hend⟩ := program_on_interconnect 5#128 (.posedge 0#128) 1#128 [.Encrypt 2#128] by_turns
    answers_by_turns
  obtain ⟨n, hn⟩ := hend goes_by_turns
  exact ⟨n, hn, hresults n hn⟩

end interconnect

end Aes128
