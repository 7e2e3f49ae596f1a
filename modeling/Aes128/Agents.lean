import Mathlib
import Aes128.Fields
import Aes128.Uncompressor
import Aes128.Arbitrator
import Aes128.Qsys
/-!
# Translators, agents and routers

What lies between the data master of the processor and the translator of `IP_slave_0`
in system.v. A request is packed into a word of 88 bits, gets its channel from its
address, and is unpacked at the slave; the answer of a read comes back the same way.

All parameters are those of the instances in system.v. What no part of the path reads
is left out: burst counts, byte enables, locks and debug accesses at the ports.
-/

open Fields

namespace Aes128

/-! ## Packets -/

abbrev Packet := BitVec 88

namespace Packet

def DATA (k : Packet) : BitVec 32 := get k 0 32
def BYTEEN (k : Packet) : BitVec 4 := get k 32 4
def ADDR (k : Packet) : BitVec 17 := get k 36 17
def TRANS_COMPRESSED_READ (k : Packet) : Bool := k.getLsbD 53
def TRANS_POSTED (k : Packet) : Bool := k.getLsbD 54
def TRANS_WRITE (k : Packet) : Bool := k.getLsbD 55
def TRANS_READ (k : Packet) : Bool := k.getLsbD 56
def BYTE_CNT (k : Packet) : BitVec 3 := get k 59 3
def BURSTWRAP (k : Packet) : BitVec 3 := get k 62 3
def BURST_SIZE (k : Packet) : BitVec 3 := get k 65 3
def SRC_ID (k : Packet) : BitVec 2 := get k 74 2
def DEST_ID (k : Packet) : BitVec 2 := get k 76 2
def PROTECTION (k : Packet) : BitVec 3 := get k 79 3

end Packet

/-! ## altera_merlin_master_translator.sv -/

/-- `AV_REGISTERINCOMINGSIGNALS` is 1: a write that is accepted at once is shown to the master one cycle later. -/
@[ext] structure altera_merlin_master_translator where
  read_accepted : Bool
  write_accepted : Bool
  end_begintransfer : Bool

namespace altera_merlin_master_translator

/-- The port of the master. -/
structure Master where
  av_address : BitVec 17
  av_write : Bool
  av_read : Bool
  av_writedata : BitVec 32
  av_byteenable : BitVec 4
  av_debugaccess : Bool

section Wires
variable (m : Master) (uav_waitrequest uav_readdatavalid : Bool) (t : altera_merlin_master_translator)

def uav_read : Bool := m.av_read && !t.read_accepted

def uav_write : Bool := m.av_write && !t.write_accepted

def internal_begintransfer : Bool := (t.uav_write m || t.uav_read m) && !t.end_begintransfer

def av_waitrequest : Bool :=
  if m.av_read then !uav_readdatavalid
  else if m.av_write then (t.internal_begintransfer m || uav_waitrequest) && !t.write_accepted
  else true

def step : altera_merlin_master_translator where
  read_accepted :=
    if t.read_accepted then !uav_readdatavalid
    else if t.av_waitrequest m uav_waitrequest uav_readdatavalid then m.av_read && !uav_waitrequest
    else false
  write_accepted :=
    if !t.av_waitrequest m uav_waitrequest uav_readdatavalid then false
    else if t.uav_write m && !uav_waitrequest then true
    else t.write_accepted
  end_begintransfer :=
    if t.internal_begintransfer m && uav_waitrequest then true
    else if uav_waitrequest then t.end_begintransfer
    else false

def reset : altera_merlin_master_translator := ⟨false, false, false⟩

end Wires

end altera_merlin_master_translator

/-! ## altera_merlin_master_agent.sv -/

structure altera_merlin_master_agent where
  hold_waitrequest : Bool

namespace altera_merlin_master_agent

def ID : BitVec 2 := 0#2
def BURSTWRAP_VALUE : BitVec 3 := 7#3
def BURST_SIZE : BitVec 3 := 2#3
def INCR : BitVec 2 := 1#2
/-- The burst count of the translator: one word of four symbols. -/
def symbols_per_word : BitVec 3 := 4#3

/-- Addresses of whole words. -/
def av_address_aligned (av_address : BitVec 17) : BitVec 17 := av_address.extractLsb 16 2 ++ 0#2

def cp_valid (av_write av_read : Bool) : Bool := av_write || av_read

/-- A word at a time is no burst, and the write is posted: nothing asks for its response. -/
def cp_data (m : altera_merlin_master_translator.Master) (av_write av_read : Bool) : Packet :=
  let cp_data := 0#88
  let cp_data := putBit cp_data 79 m.av_debugaccess
  let cp_data := putBit cp_data 80 true
  let cp_data := putBit cp_data 81 false
  let cp_data := put cp_data 62 BURSTWRAP_VALUE
  let cp_data := put cp_data 59 symbols_per_word
  let cp_data := put cp_data 36 (av_address_aligned m.av_address)
  let cp_data := putBit cp_data 58 false
  let cp_data := putBit cp_data 57 false
  let cp_data := putBit cp_data 53 (av_read && false)
  let cp_data := putBit cp_data 56 av_read
  let cp_data := putBit cp_data 55 av_write
  let cp_data := putBit cp_data 54 (av_write && !false)
  let cp_data := put cp_data 0 m.av_writedata
  let cp_data := put cp_data 32 m.av_byteenable
  let cp_data := put cp_data 65 BURST_SIZE
  let cp_data := put cp_data 68 INCR
  let cp_data := put cp_data 74 ID
  cp_data

def av_waitrequest (cp_ready : Bool) (a : altera_merlin_master_agent) : Bool := a.hold_waitrequest || !cp_ready

def rp_ready : Bool := true

def av_readdata (rp_data : Packet) : BitVec 32 := rp_data.DATA

def av_readdatavalid (rp_valid : Bool) (rp_data : Packet) : Bool := if rp_data.TRANS_WRITE then false else rp_valid

def step : altera_merlin_master_agent := ⟨false⟩

def reset : altera_merlin_master_agent := ⟨true⟩

end altera_merlin_master_agent

/-! ## Routers and crossbars -/

/-- The destination that goes with the channel of `system_addr_router_001.src_channel`. -/
def system_addr_router_001.destination_id (address : BitVec 17) : BitVec 2 := Id.run do
  let mut destination_id := 3#2
  if address.extractLsb 16 15 ++ 0#15 = 0x8000#17 then destination_id := 3#2
  if address.extractLsb 16 11 ++ 0#11 = 0x10800#17 then destination_id := 2#2
  if address.extractLsb 16 6 ++ 0#6 = 0x11000#17 then destination_id := 0#2
  if address.extractLsb 16 3 ++ 0#3 = 0x11048#17 then destination_id := 1#2
  return destination_id

def system_addr_router_001.src_data (sink_data : Packet) : Packet :=
  put sink_data 76 (destination_id sink_data.ADDR)

namespace system_cmd_xbar_demux_001

def src_valid (sink_channel : BitVec 4) (sink_valid : Bool) (k : ℕ) : Bool := sink_channel.getLsbD k && sink_valid

def sink_ready (sink_channel ready_vector : BitVec 4) : Bool := sink_channel &&& ready_vector ≠ 0#4

end system_cmd_xbar_demux_001

def system_id_router_003.src_channel (sink_data : Packet) : BitVec 4 := Id.run do
  let mut src_channel := 1#4 <<< 0
  if sink_data.DEST_ID = 0#2 then src_channel := 1#4
  return src_channel

namespace system_rsp_xbar_demux_003

def src0_valid (sink_channel : BitVec 4) (sink_valid : Bool) : Bool := sink_channel.getLsbD 0 && sink_valid

def sink_ready (sink_channel : BitVec 4) (src0_ready : Bool) : Bool :=
  sink_channel &&& (0#3 ++ BitVec.ofBool src0_ready) ≠ 0#4

end system_rsp_xbar_demux_003

namespace system_rsp_xbar_mux_001

structure Sink where
  valid : Bool
  data : Packet

section Wires
variable (sink : Fin 4 → Sink)

def valid : BitVec 4 := BitVec.ofFnLE fun k => (sink k).valid

/-- There is no arbitration: who requests is granted. -/
def grant : BitVec 4 := altera_merlin_arbitrator.grant ⟨.no_arb, false⟩ ⟨valid sink, false, false⟩ .reset

def src_valid : Bool := grant sink &&& valid sink ≠ 0#4

/-- All sinks, each behind its grant. -/
def src_data : Packet :=
  Fin.foldl 4 (fun data k => data ||| (sink k).data &&& BitVec.fill 88 ((grant sink).getLsbD k)) 0#88

def sink_ready (src_ready : Bool) (k : Fin 4) : Bool := src_ready && (grant sink).getLsbD k

end Wires

end system_rsp_xbar_mux_001

/-! ## altera_merlin_slave_agent.sv -/

namespace altera_merlin_slave_agent

def uncompressor_parameters : altera_merlin_burst_uncompressor.Parameters where
  ADDR_W := 17
  BURSTWRAP_W := 3
  BYTE_CNT_W := 3
  PKT_SYMBOLS := 4
  addr_le := by decide
  byte_cnt_le := by decide

/-- A command packet at the sink. -/
structure Cp where
  valid : Bool
  data : Packet
  startofpacket : Bool
  endofpacket : Bool

/-- What is kept of a command until its answer comes: the packet behind the bit that asks for an answer of the
agent's own. -/
structure Rf where
  data : BitVec 89
  startofpacket : Bool
  endofpacket : Bool

section Command
variable (cp : Cp) (rf_source_ready m0_waitrequest : Bool)

/-- `PREVENT_FIFO_OVERFLOW` is 1. -/
def ready_for_command : Bool := rf_source_ready

/-- `SUPPRESS_0_BYTEEN_CMD` is 0. -/
def byteen_asserted : Bool := true

def cp_ready : Bool := (!m0_waitrequest || !byteen_asserted) && ready_for_command rf_source_ready

def local_write : Bool := cp.valid && cp.data.TRANS_WRITE

def local_read : Bool := cp.valid && cp.data.TRANS_READ

def local_compressed_read : Bool := cp.valid && cp.data.TRANS_COMPRESSED_READ

def nonposted_write_endofpacket : Bool := !cp.data.TRANS_POSTED && local_write cp && cp.endofpacket

def m0_address : BitVec 17 := cp.data.ADDR.extractLsb 16 2 ++ 0#2

def m0_writedata : BitVec 32 := cp.data.DATA

def m0_read : Bool :=
  ready_for_command rf_source_ready && byteen_asserted && (local_compressed_read cp || local_read cp)

def m0_write : Bool := ready_for_command rf_source_ready && local_write cp && byteen_asserted

def needs_response_synthesis : Bool :=
  ((local_read cp || local_compressed_read cp) && !byteen_asserted) || nonposted_write_endofpacket cp

def rf_source_valid : Bool :=
  (local_read cp || local_compressed_read cp || nonposted_write_endofpacket cp) &&
    ready_for_command rf_source_ready && cp_ready rf_source_ready m0_waitrequest

def rf_source_data : BitVec 89 :=
  let rf_source_data := 0#1 ++ cp.data
  let rf_source_data := putBit rf_source_data 88 (needs_response_synthesis cp)
  let rf_source_data := put rf_source_data 0 0#32
  let rf_source_data := put rf_source_data 32 cp.data.BYTEEN
  let rf_source_data := put rf_source_data 36 cp.data.ADDR
  let rf_source_data := putBit rf_source_data 53 cp.data.TRANS_COMPRESSED_READ
  let rf_source_data := putBit rf_source_data 54 cp.data.TRANS_POSTED
  let rf_source_data := putBit rf_source_data 55 cp.data.TRANS_WRITE
  let rf_source_data := putBit rf_source_data 56 cp.data.TRANS_READ
  let rf_source_data := put rf_source_data 74 cp.data.SRC_ID
  let rf_source_data := put rf_source_data 76 cp.data.DEST_ID
  let rf_source_data := put rf_source_data 59 cp.data.BYTE_CNT
  let rf_source_data := put rf_source_data 62 cp.data.BURSTWRAP
  let rf_source_data := put rf_source_data 65 cp.data.BURST_SIZE
  let rf_source_data := put rf_source_data 79 0#3
  let rf_source_data := putBit rf_source_data 79 (cp.data.PROTECTION.getLsbD 0)
  rf_source_data

def rf_source : Rf := ⟨rf_source_data cp, cp.startofpacket, cp.endofpacket⟩

end Command

/-- The slave gives no write responses, and no response status. -/
def rdata_fifo_src_valid (m0_readdatavalid : Bool) : Bool := m0_readdatavalid || false

def rdata_fifo_src_data (m0_readdata : BitVec 32) : BitVec 34 := 0#2 ++ m0_readdata

section Response
variable (rf_sink : Rf) (rf_sink_valid : Bool) (rdata_fifo_sink_data : BitVec 34) (rdata_fifo_sink_valid : Bool)
  (u : altera_merlin_burst_uncompressor uncompressor_parameters)

def generate_response : Bool := rf_sink.data.getLsbD 88

/-- The packet in the response FIFO. -/
def rf_packet : Packet := rf_sink.data.setWidth 88

/-- The ports of `uncompressor`. What it shows does not depend on `rp_ready`. -/
def uncompressor_inputs (rp_ready : Bool) : altera_merlin_burst_uncompressor.Inputs uncompressor_parameters where
  sink :=
    { startofpacket := if (rf_packet rf_sink).TRANS_WRITE then true else rf_sink.startofpacket
      endofpacket := rf_sink.endofpacket
      addr := (rf_packet rf_sink).ADDR
      burstwrap := (rf_packet rf_sink).BURSTWRAP
      byte_cnt := (rf_packet rf_sink).BYTE_CNT
      is_compressed := (rf_packet rf_sink).TRANS_COMPRESSED_READ
      burstsize := (rf_packet rf_sink).BURST_SIZE }
  sink_valid := rf_sink_valid && (rdata_fifo_sink_valid || generate_response rf_sink)
  source_ready := rp_ready

def rp_valid : Bool :=
  rdata_fifo_sink_valid || altera_merlin_burst_uncompressor.source_valid
    (uncompressor_inputs rf_sink rf_sink_valid rdata_fifo_sink_valid false)

def rf_sink_ready (rp_ready : Bool) : Bool :=
  u.sink_ready (uncompressor_inputs rf_sink rf_sink_valid rdata_fifo_sink_valid rp_ready)

def rp_data : Packet :=
  let rp := u.source (uncompressor_inputs rf_sink rf_sink_valid rdata_fifo_sink_valid false)
  let k := rf_packet rf_sink
  let rp_data := k
  let rp_data := put rp_data 0 (rdata_fifo_sink_data.setWidth 32)
  let rp_data := putBit rp_data 54 k.TRANS_POSTED
  let rp_data := putBit rp_data 55 k.TRANS_WRITE
  let rp_data := put rp_data 74 k.DEST_ID
  let rp_data := put rp_data 76 k.SRC_ID
  let rp_data := put rp_data 32 k.BYTEEN
  let rp_data := put rp_data 79 k.PROTECTION
  let rp_data := put rp_data 36 rp.addr
  let rp_data := put rp_data 62 rp.burstwrap
  let rp_data := put rp_data 59 rp.byte_cnt
  let rp_data := putBit rp_data 56 (k.TRANS_READ || k.TRANS_COMPRESSED_READ)
  let rp_data := putBit rp_data 53 rp.is_compressed
  let rp_data := put rp_data 86 (rdata_fifo_sink_data.extractLsb 33 32)
  let rp_data := put rp_data 65 rp.burstsize
  rp_data

end Response

end altera_merlin_slave_agent

/-! ## The flags of the master translator -/

namespace altera_merlin_master_translator

/-- The flags while the master holds a write, or a read. -/
structure Fits (av_write : Bool) (t : altera_merlin_master_translator) : Prop where
  read : t.read_accepted = true → av_write = false
  write : t.write_accepted = true → av_write = true
  begun : (t.read_accepted || t.write_accepted) = true → t.end_begintransfer = false

theorem fits_idle (w : Bool) : Fits w ⟨false, false, false⟩ := by
  constructor <;> rintro ⟨⟩

/-- They are down again when the master may go on. No answer comes before a read is accepted. -/
theorem Fits.step {t : altera_merlin_master_translator} {m : Master} (h : t.Fits m.av_write)
    (hm : m.av_read = !m.av_write) (uav_waitrequest : Bool) {uav_readdatavalid : Bool}
    (ha : (m.av_read && t.read_accepted) = false → uav_readdatavalid = false) :
    if t.av_waitrequest m uav_waitrequest uav_readdatavalid then
      (t.step m uav_waitrequest uav_readdatavalid).Fits m.av_write
    else t.step m uav_waitrequest uav_readdatavalid = ⟨false, false, false⟩ := by
  obtain ⟨ra, wa, eb⟩ := t
  obtain ⟨address, w, r, data, byteenable, debug⟩ := m
  obtain ⟨hread, hwrite, hbegun⟩ := h
  simp only at hm hread hwrite hbegun ha
  subst hm
  unfold av_waitrequest altera_merlin_master_translator.step internal_begintransfer uav_write uav_read
  cases w with
  | false =>
    -- a read is accepted first, and ends with its answer
    cases wa with
    | true => exact absurd (hwrite rfl) Bool.false_ne_true
    | false =>
      cases ra with
      | false =>
        rw [ha rfl]
        constructor <;> cases uav_waitrequest <;> simp
      | true =>
        rw [hbegun rfl]
        cases uav_readdatavalid with
        | false => exact ⟨fun _ => rfl, fun h => h, fun _ => by simp⟩
        | true => simp
  | true =>
    -- a write is held for a cycle more when it is accepted in its first
    cases ra with
    | true => exact absurd (hread rfl) Bool.noConfusion
    | false =>
      cases wa with
      | false => cases uav_waitrequest <;> cases eb <;> simp <;> constructor <;> simp
      | true => simp [hbegun rfl, av_waitrequest]

end altera_merlin_master_translator

/-! ## What the packets carry -/

namespace altera_merlin_master_agent
variable (m : altera_merlin_master_translator.Master) (w r : Bool)

@[simp] theorem cp_data_ADDR : (cp_data m w r).ADDR = av_address_aligned m.av_address := by
  simp (disch := decide) only [cp_data, Packet.ADDR, get_put, get_put_of_disjoint, get_putBit_of_disjoint]

@[simp] theorem cp_data_DATA : (cp_data m w r).DATA = m.av_writedata := by
  simp (disch := decide) only [cp_data, Packet.DATA, get_put, get_put_of_disjoint]

@[simp] theorem cp_data_SRC_ID : (cp_data m w r).SRC_ID = ID := by
  simp (disch := decide) only [cp_data, Packet.SRC_ID, get_put]

@[simp] theorem cp_data_TRANS_WRITE : (cp_data m w r).TRANS_WRITE = w := by
  simp (disch := decide) only [cp_data, Packet.TRANS_WRITE, getLsbD_putBit, getLsbD_putBit_of_ne, getLsbD_put_of_ne]

@[simp] theorem cp_data_TRANS_READ : (cp_data m w r).TRANS_READ = r := by
  simp (disch := decide) only [cp_data, Packet.TRANS_READ, getLsbD_putBit, getLsbD_putBit_of_ne, getLsbD_put_of_ne]

@[simp] theorem cp_data_TRANS_POSTED : (cp_data m w r).TRANS_POSTED = w := by
  simp (disch := decide) only [cp_data, Packet.TRANS_POSTED, getLsbD_putBit, getLsbD_put_of_ne, Bool.not_false,
    Bool.and_true]

@[simp] theorem cp_data_TRANS_COMPRESSED_READ : (cp_data m w r).TRANS_COMPRESSED_READ = false := by
  simp (disch := decide) only [cp_data, Packet.TRANS_COMPRESSED_READ, getLsbD_putBit, getLsbD_putBit_of_ne,
    getLsbD_put_of_ne, Bool.and_false]

end altera_merlin_master_agent

namespace system_addr_router_001
variable (k : Packet)

/-- The router writes the destination and nothing else. -/
theorem get_src_data {lo len : ℕ} (h : lo + len ≤ 76 ∨ 78 ≤ lo) : get (src_data k) lo len = get k lo len :=
  get_put_of_disjoint k (by omega) _

theorem getLsbD_src_data {i : ℕ} (h : i < 76 ∨ 78 ≤ i) : (src_data k).getLsbD i = k.getLsbD i :=
  getLsbD_put_of_ne k (by omega) _

@[simp] theorem src_data_ADDR : (src_data k).ADDR = k.ADDR := get_src_data k (by omega)
@[simp] theorem src_data_DATA : (src_data k).DATA = k.DATA := get_src_data k (by omega)
@[simp] theorem src_data_SRC_ID : (src_data k).SRC_ID = k.SRC_ID := get_src_data k (by omega)
@[simp] theorem src_data_TRANS_WRITE : (src_data k).TRANS_WRITE = k.TRANS_WRITE := getLsbD_src_data k (by omega)
@[simp] theorem src_data_TRANS_READ : (src_data k).TRANS_READ = k.TRANS_READ := getLsbD_src_data k (by omega)
@[simp] theorem src_data_TRANS_POSTED : (src_data k).TRANS_POSTED = k.TRANS_POSTED := getLsbD_src_data k (by omega)
@[simp] theorem src_data_TRANS_COMPRESSED_READ : (src_data k).TRANS_COMPRESSED_READ = k.TRANS_COMPRESSED_READ :=
  getLsbD_src_data k (by omega)

end system_addr_router_001

namespace system_rsp_xbar_mux_001
variable {sink : Fin 4 → Sink}

theorem getLsbD_grant (k : Fin 4) : (grant sink).getLsbD k = (sink k).valid := by
  change (valid sink).getLsbD k = _
  rw [valid, BitVec.getLsbD_ofFnLE]
  exact dif_pos k.isLt

theorem src_valid_of_silent (h : ∀ k, (sink k).valid = false) : src_valid sink = false := by
  have hzero : grant sink = 0#4 := by
    apply BitVec.eq_of_getLsbD_eq
    intro i hi
    rw [getLsbD_grant ⟨i, hi⟩, h, BitVec.getLsbD_zero]
  rw [src_valid, hzero]
  simp

/-- Where only one sink has a packet, it goes through as it is. -/
theorem src_of_last (h : ∀ k : Fin 4, (sink k).valid = decide (k = 3)) :
    src_valid sink = true ∧ src_data sink = (sink 3).data ∧ sink_ready sink true 3 = true := by
  have h0 : (grant sink).getLsbD 0 = false := (getLsbD_grant 0).trans (h 0)
  have h1 : (grant sink).getLsbD 1 = false := (getLsbD_grant 1).trans (h 1)
  have h2 : (grant sink).getLsbD 2 = false := (getLsbD_grant 2).trans (h 2)
  have h3 : (grant sink).getLsbD 3 = true := (getLsbD_grant 3).trans (h 3)
  refine ⟨?_, ?_, ?_⟩
  · refine decide_eq_true fun hzero => ?_
    have hbit : (grant sink &&& valid sink).getLsbD 3 = true := by
      rw [BitVec.getLsbD_and, h3, Bool.true_and]
      exact h3
    rw [hzero] at hbit
    cases hbit
  · have hoff : BitVec.fill 88 false = 0#88 := rfl
    have hon : BitVec.fill 88 true = BitVec.allOnes 88 := rfl
    have hall : src_data sink = 0#88 ||| (sink 0).data &&& BitVec.fill 88 ((grant sink).getLsbD 0) |||
        (sink 1).data &&& BitVec.fill 88 ((grant sink).getLsbD 1) |||
        (sink 2).data &&& BitVec.fill 88 ((grant sink).getLsbD 2) |||
        (sink 3).data &&& BitVec.fill 88 ((grant sink).getLsbD 3) := rfl
    rw [hall, h0, h1, h2, h3, hoff, hon]
    simp only [BitVec.and_zero, BitVec.zero_or, BitVec.and_allOnes]
  · exact h3

end system_rsp_xbar_mux_001

namespace altera_merlin_slave_agent

/-- The command of a single read of the data master, in the response FIFO. -/
structure IsRead (r : Rf) : Prop where
  write : (rf_packet r).TRANS_WRITE = false
  single : (rf_packet r).TRANS_COMPRESSED_READ = false
  source : (rf_packet r).SRC_ID = altera_merlin_master_agent.ID
  answered : generate_response r = false

theorem isRead_source {cp : Cp} (hw : cp.data.TRANS_WRITE = false) (hc : cp.data.TRANS_COMPRESSED_READ = false)
    (hs : cp.data.SRC_ID = altera_merlin_master_agent.ID) : IsRead (rf_source cp) := by
  refine ⟨?_, ?_, ?_, ?_⟩
  · rw [← hw, rf_packet, Packet.TRANS_WRITE, BitVec.getLsbD_setWidth]
    simp (disch := decide) only [rf_source, rf_source_data, getLsbD_putBit, getLsbD_putBit_of_ne, getLsbD_put_of_ne]
    rfl
  · rw [← hc, rf_packet, Packet.TRANS_COMPRESSED_READ, BitVec.getLsbD_setWidth]
    simp (disch := decide) only [rf_source, rf_source_data, getLsbD_putBit, getLsbD_putBit_of_ne, getLsbD_put_of_ne]
    rfl
  · rw [← hs, rf_packet, Packet.SRC_ID, get_setWidth _ (by decide)]
    simp (disch := decide) only [rf_source, rf_source_data, get_put, get_put_of_disjoint, get_putBit_of_disjoint]
  · have hno : needs_response_synthesis cp = false := by
      simp [needs_response_synthesis, byteen_asserted, nonposted_write_endofpacket, local_write, hw]
    rw [← hno, generate_response]
    simp (disch := decide) only [rf_source, rf_source_data, getLsbD_putBit, getLsbD_putBit_of_ne, getLsbD_put_of_ne]

section Response
variable (rf_sink : Rf) (rf_sink_valid : Bool) (rdata : BitVec 34) (rdata_valid : Bool)
  (u : altera_merlin_burst_uncompressor uncompressor_parameters)

@[simp] theorem rp_data_DATA : (rp_data rf_sink rf_sink_valid rdata rdata_valid u).DATA = rdata.setWidth 32 := by
  simp (disch := decide) only [rp_data, Packet.DATA, get_put, get_put_of_disjoint, get_putBit_of_disjoint]

@[simp] theorem rp_data_TRANS_WRITE :
    (rp_data rf_sink rf_sink_valid rdata rdata_valid u).TRANS_WRITE = (rf_packet rf_sink).TRANS_WRITE := by
  rw [Packet.TRANS_WRITE]
  simp (disch := decide) only [rp_data, getLsbD_putBit, getLsbD_putBit_of_ne, getLsbD_put_of_ne]

theorem setWidth_rdata (d : BitVec 32) : (rdata_fifo_src_data d).setWidth 32 = d := by
  apply BitVec.eq_of_getLsbD_eq
  intro i hi
  rw [BitVec.getLsbD_setWidth, decide_eq_true hi, Bool.true_and]
  exact BitVec.getLsbD_append.trans (if_pos hi)

/-- The answer goes to where the command came from. -/
@[simp] theorem rp_data_DEST_ID :
    (rp_data rf_sink rf_sink_valid rdata rdata_valid u).DEST_ID = (rf_packet rf_sink).SRC_ID := by
  rw [Packet.DEST_ID]
  simp (disch := decide) only [rp_data, get_put, get_put_of_disjoint, get_putBit_of_disjoint]

end Response

end altera_merlin_slave_agent

end Aes128
