import Aes128.Top
/-!
# wrapper_finalv2.v

The bus interface of AES_Top: four words of input, two command addresses whose
writes become one-cycle pulses, and the result with its valid flag. Chip
select, write and read are active low, and so is the reset.
-/

namespace Aes128

structure wrapper_finalv2 where
  in_data : BitVec 128
  temp_result : BitVec 128
  Load_Data : Bool
  Load_Key : Bool
  tmp_valid : Bool
  reset_flag : Bool
  oData : BitVec 32
  inst : AES_Top

namespace wrapper_finalv2

/-- The bus in one cycle. -/
structure Inputs where
  iChipSelect_n : Bool
  iWrite_n : Bool
  iRead_n : Bool
  iAddress : BitVec 4
  iData : BitVec 32
  deriving DecidableEq

variable (x : BitVec 128)

def Ready_new_input (w : wrapper_finalv2) : Bool := w.inst.Ready_new_input

def CTValid (w : wrapper_finalv2) : Bool := w.inst.CTValid

def CipherText (w : wrapper_finalv2) : Bus := w.inst.CipherText

/-- The input ports of `inst`. -/
def inst_inputs (w : wrapper_finalv2) : AES_Top.Inputs where
  in_data := w.in_data
  Load_Key := w.Load_Key
  Load_Data := w.Load_Data

@[simp] theorem inst_inputs_in_data (w : wrapper_finalv2) : w.inst_inputs.in_data = w.in_data := rfl

@[simp] theorem inst_inputs_Load_Key (w : wrapper_finalv2) : w.inst_inputs.Load_Key = w.Load_Key := rfl

@[simp] theorem inst_inputs_Load_Data (w : wrapper_finalv2) : w.inst_inputs.Load_Data = w.Load_Data := rfl

namespace Inputs

def write (i : Inputs) : Bool := !i.iChipSelect_n && !i.iWrite_n

def read (i : Inputs) : Bool := !i.iChipSelect_n && !i.iRead_n

end Inputs

/-- The case of the write block that stores a word. -/
def write_word (i : Inputs) (in_data : BitVec 128) : BitVec 128 :=
  match i.iAddress with
  | 0#4 => i.iData ++ in_data.extractLsb 95 0
  | 1#4 => in_data.extractLsb 127 96 ++ i.iData ++ in_data.extractLsb 63 0
  | 2#4 => in_data.extractLsb 127 64 ++ i.iData ++ in_data.extractLsb 31 0
  | 3#4 => in_data.extractLsb 127 32 ++ i.iData
  | _ => in_data

/-- The case of the read block. -/
def read_word (iAddress : BitVec 4) (w : wrapper_finalv2) : BitVec 32 :=
  match iAddress with
  | 6#4 => w.temp_result.extractLsb 127 96
  | 7#4 => w.temp_result.extractLsb 95 64
  | 8#4 => w.temp_result.extractLsb 63 32
  | 9#4 => w.temp_result.extractLsb 31 0
  | 10#4 => 0#31 ++ BitVec.ofBool w.tmp_valid
  | 11#4 => w.in_data.extractLsb 127 96
  | 12#4 => w.in_data.extractLsb 95 64
  | 13#4 => w.in_data.extractLsb 63 32
  | 14#4 => w.in_data.extractLsb 31 0
  | 15#4 => 0#31 ++ BitVec.ofBool w.Ready_new_input
  | _ => 0#32

/-- The clocked blocks of the wrapper; `inst` is left as it is. -/
def always (iReset_n : Bool) (i : Inputs) (w : wrapper_finalv2) : wrapper_finalv2 where
  in_data := if !iReset_n then 0#128 else if i.write then write_word i w.in_data else w.in_data
  temp_result := if !iReset_n then 0#128 else if w.CTValid then w.CipherText.getD x else w.temp_result
  Load_Data := if !iReset_n then false else i.write && i.iAddress == 4#4
  Load_Key := if !iReset_n then false else i.write && i.iAddress == 5#4
  -- the clear by reset_flag is the last assignment of the block, so it wins
  tmp_valid :=
    if !iReset_n then false else if w.reset_flag then false else if w.CTValid then true else w.tmp_valid
  reset_flag := if !iReset_n then false else i.write && (i.iAddress == 4#4 || i.iAddress == 5#4)
  oData := if !iReset_n then 0#32 else if i.read then w.read_word i.iAddress else w.oData
  inst := w.inst

/-- A clock edge. -/
def posedge_clk (iReset_n : Bool) (i : Inputs) (w : wrapper_finalv2) : wrapper_finalv2 :=
  { w.always x iReset_n i with inst := w.inst.posedge_clk x (!iReset_n) w.inst_inputs }

/-- The edge that asserts the reset. -/
def negedge_reset (i : Inputs) (w : wrapper_finalv2) : wrapper_finalv2 :=
  { w.always x false i with inst := w.inst.posedge_rst x w.inst_inputs }

/-- A cycle with the reset off. -/
def step (i : Inputs) (w : wrapper_finalv2) : wrapper_finalv2 := w.posedge_clk x true i

/-- The state a reset leaves, with the ROM addresses `rom`. -/
def reset (rom : S_box) : wrapper_finalv2 where
  in_data := 0#128
  temp_result := 0#128
  Load_Data := false
  Load_Key := false
  tmp_valid := false
  reset_flag := false
  oData := 0#32
  inst := .reset rom

theorem negedge_reset_eq (i : Inputs) (w : wrapper_finalv2) : w.negedge_reset x i = reset w.inst.ins_SBox := rfl

/-- The states of the runs from reset. -/
def Reachable : wrapper_finalv2 → Prop := Clocked.Reachable (fun w => ∃ rom, w = reset rom) (step x)

theorem Reachable.inst {x : BitVec 128} {w : wrapper_finalv2} (h : w.Reachable x) : w.inst.Reachable x := by
  induction h with
  | init h =>
    obtain ⟨rom, rfl⟩ := h
    exact .init ⟨rom, rfl⟩
  | @step w i _ ih => exact .step w.inst_inputs ih

end wrapper_finalv2

end Aes128
