import Aes128.Clocked
import Aes128.Datapath
/-!
# The sequential modules and AES_Top

One structure per module: its registers and the instances inside it. The wires
are functions of the registers and the inputs, and `posedge` is the module's
`always @(posedge clk or posedge reset)` blocks: it runs at a clock edge with
the level of the reset, and at the edge of the reset itself with `true`.

`Bus` is a net that may have no driver. A register that captures such a net
takes an arbitrary value `x`, the same for the whole run, and the model is a
function of `x`.
-/

namespace Aes128

/-- A 128-bit net: `none` is `128'bz`, or a word outside the memory it selects from. -/
abbrev Bus := Option (BitVec 128)

/-! ## KeyLogicController.v -/

namespace KeyLogicController

inductive State where
  | IDLE
  | ROTWORD
  | KEYEXPAND
  | DONE
  deriving DecidableEq

end KeyLogicController

structure KeyLogicController where
  state : KeyLogicController.State
  round_num : BitVec 4
  deriving DecidableEq

namespace KeyLogicController

def next_state (load_key : Bool) (k : KeyLogicController) : State :=
  match k.state with
  | .IDLE => if load_key then .ROTWORD else .IDLE
  | .ROTWORD => .KEYEXPAND
  | .KEYEXPAND => if k.round_num = 10#4 then .DONE else .ROTWORD
  | .DONE => .IDLE

def phase (k : KeyLogicController) : Bool := k.state = .KEYEXPAND

def expansion_done (k : KeyLogicController) : Bool := k.state = .DONE

def posedge (reset load_key : Bool) (k : KeyLogicController) : KeyLogicController where
  state := if reset then .IDLE else k.next_state load_key
  round_num :=
    if reset then 1#4
    else if k.state = .KEYEXPAND then k.round_num + 1#4
    else if k.state = .DONE then 1#4
    else k.round_num

end KeyLogicController

/-! ## KeyLogic.v -/

structure KeyLogic where
  key_reg : Vector (BitVec 128) 11
  controller : KeyLogicController

namespace KeyLogic
variable (x : BitVec 128)

/-- `key_reg[controller_round - 1]`: the literal makes the index 32 bits wide. -/
def prev_key (k : KeyLogic) : Bus := k.key_reg[(k.controller.round_num.setWidth 32 - 1#32).toNat]?

def rotword_out (k : KeyLogic) : BitVec 32 := RotWord ((k.prev_key.getD x).extractLsb 31 0)

def new_round_key_comb (sbox_data_in : BitVec 128) (k : KeyLogic) : BitVec 128 :=
  RoundKeyExpander.new_round_key k.controller.phase (k.prev_key.getD x) k.controller.round_num sbox_data_in

def round_key (mode : Bool) (sel_round : BitVec 4) (k : KeyLogic) : Bus :=
  if mode = true then k.key_reg[sel_round.toNat]? else none

def expansion_done (k : KeyLogic) : Bool := k.controller.expansion_done

def posedge (reset load_key : Bool) (cipher_key : Bus) (sbox_data_in : BitVec 128) (k : KeyLogic) : KeyLogic where
  key_reg :=
    if reset then Vector.replicate 11 0#128
    else if load_key then k.key_reg.setIfInBounds 0 (cipher_key.getD x)
    else if k.controller.phase then
      k.key_reg.setIfInBounds k.controller.round_num.toNat (k.new_round_key_comb x sbox_data_in)
    else k.key_reg
  controller := k.controller.posedge reset load_key

end KeyLogic

/-! ## ProcessingCoreController.v -/

namespace ProcessingCoreController

inductive State where
  | IDLE
  | PHASE0
  | PHASE1
  | FINISH
  deriving DecidableEq

end ProcessingCoreController

structure ProcessingCoreController where
  state : ProcessingCoreController.State
  roundCount_reg : BitVec 4
  deriving DecidableEq

namespace ProcessingCoreController

def next_state (start : Bool) (c : ProcessingCoreController) : State :=
  match c.state with
  | .IDLE => if start then .PHASE0 else .IDLE
  | .PHASE0 => .PHASE1
  | .PHASE1 => if c.roundCount_reg = 10#4 then .FINISH else .PHASE0
  | .FINISH => .IDLE

def phase (c : ProcessingCoreController) : Bool := c.state = .PHASE1

def done (c : ProcessingCoreController) : Bool := c.state = .FINISH

def roundCount (c : ProcessingCoreController) : BitVec 4 := c.roundCount_reg

def posedge (reset start : Bool) (c : ProcessingCoreController) : ProcessingCoreController where
  state := if reset then .IDLE else c.next_state start
  roundCount_reg :=
    if reset then 1#4
    else if c.state = .PHASE1 then c.roundCount_reg + 1#4
    else if c.state = .IDLE then 1#4
    else c.roundCount_reg

end ProcessingCoreController

/-! ## ProcessingCore.v -/

structure ProcessingCore where
  stateReg : BitVec 128
  controller : ProcessingCoreController
  deriving DecidableEq

namespace ProcessingCore
variable (x : BitVec 128)

def roundCount_to_KeyLogic (c : ProcessingCore) : BitVec 4 := c.controller.roundCount

def shift_out (c : ProcessingCore) : BitVec 128 := ShiftRow c.stateReg

def mixAdd_out (roundKey : Bus) (subShift_data_in : BitVec 128) : Bus :=
  roundKey.map (MixColumnsAddRoundKey.out_state subShift_data_in)

def cTValid (c : ProcessingCore) : Bool := c.controller.done

def cipherText (c : ProcessingCore) : Bus := if c.controller.done then some c.stateReg else none

def posedge (reset start : Bool) (inputBlk roundKey : Bus) (subShift_data_in : BitVec 128) (c : ProcessingCore) :
    ProcessingCore where
  stateReg :=
    if reset then 0#128
    else if start then inputBlk.getD x
    else if c.controller.phase = true then
      if c.controller.roundCount = 10#4 then (roundKey.map (subShift_data_in ^^^ ·)).getD x
      else (mixAdd_out roundKey subShift_data_in).getD x
    else c.stateReg
  controller := c.controller.posedge reset start

end ProcessingCore

/-! ## InputInterface.v -/

structure InputInterface where
  Key : BitVec 128
  Data : BitVec 128
  deriving DecidableEq

namespace InputInterface

def out_data (KeyLogic_start PCore_start : Bool) (r : InputInterface) : Bus :=
  if KeyLogic_start then some r.Key
  else if PCore_start then some (r.Data ^^^ r.Key)
  else none

def new_key (in_data : BitVec 128) (Load_Key : Bool) (r : InputInterface) : Bool :=
  if !Load_Key then false else if r.Key = in_data then false else true

def posedge (rst : Bool) (in_data : BitVec 128) (Load_Key Load_Data : Bool) (r : InputInterface) : InputInterface :=
  if rst then ⟨0#128, 0#128⟩
  else if Load_Key then { r with Key := in_data }
  else if Load_Data then { r with Data := in_data }
  else r

end InputInterface

/-! ## SystemController.v -/

namespace SystemController

/-- The codes of the 3-bit state register: the six localparams, and `010` and
`101`, which have no name. -/
inductive State where
  | IDLE
  | Key_Expand
  | wait_Keyex
  | PCore_Prc
  | wait_PCore
  | Finish
  | code010
  | code101
  deriving DecidableEq

end SystemController

structure SystemController where
  in_loaded : Bool
  key_generated : Bool
  state : SystemController.State
  deriving DecidableEq

namespace SystemController

structure Inputs where
  KeyLogic_Done : Bool
  PCore_Done : Bool
  new_key : Bool
  Load_Data : Bool
  Load_Key : Bool

def next_state (i : Inputs) (c : SystemController) : State :=
  match c.state with
  | .IDLE => if i.Load_Key then .Key_Expand else if c.in_loaded then .PCore_Prc else .IDLE
  | .Key_Expand => .wait_Keyex
  | .wait_Keyex =>
    if !i.KeyLogic_Done then .wait_Keyex
    else if c.in_loaded then .PCore_Prc
    else .IDLE
  | .PCore_Prc => .wait_PCore
  | .wait_PCore => if !i.PCore_Done then .wait_PCore else .IDLE
  -- no case and no default: next_state is a latch, and holds what the state was loaded from
  | s => s

def KeyLogicStart (c : SystemController) : Bool := c.state = .Key_Expand

def PCoreStart (c : SystemController) : Bool := c.state = .PCore_Prc

def KeyLogicMode (c : SystemController) : Bool := if c.state = .wait_Keyex then false else true

def Ready_new_input (c : SystemController) : Bool := c.state = .IDLE

def posedge (rst : Bool) (i : Inputs) (c : SystemController) : SystemController :=
  if rst then { in_loaded := false, key_generated := false, state := .IDLE }
  else {
    state := c.next_state i
    -- the clear by PCore_Prc is the last assignment of the block, so it wins
    in_loaded := if c.state = .PCore_Prc then false else if i.Load_Data then true else c.in_loaded
    key_generated := if c.state = .wait_Keyex && i.KeyLogic_Done then true else c.key_generated }

end SystemController

/-! ## AES_Top.v -/

structure AES_Top where
  ins_systemcontroller : SystemController
  ins_inputinterface : InputInterface
  ins_KeyLogic : KeyLogic
  ins_ProcessingCore : ProcessingCore
  ins_SBox : S_box

namespace AES_Top

structure Inputs where
  in_data : BitVec 128
  Load_Key : Bool
  Load_Data : Bool
  deriving DecidableEq

variable (x : BitVec 128)

/-! The wires of AES_Top. -/

def keylogic_start (s : AES_Top) : Bool := s.ins_systemcontroller.KeyLogicStart

def pcore_start (s : AES_Top) : Bool := s.ins_systemcontroller.PCoreStart

def mode (s : AES_Top) : Bool := s.ins_systemcontroller.KeyLogicMode

def Ready_new_input (s : AES_Top) : Bool := s.ins_systemcontroller.Ready_new_input

def keyex_done (s : AES_Top) : Bool := s.ins_KeyLogic.expansion_done

def CTValid (s : AES_Top) : Bool := s.ins_ProcessingCore.cTValid

def CipherText (s : AES_Top) : Bus := s.ins_ProcessingCore.cipherText

def tempbus (s : AES_Top) : Bus := s.ins_inputinterface.out_data s.keylogic_start s.pcore_start

def newkey (i : Inputs) (s : AES_Top) : Bool := s.ins_inputinterface.new_key i.in_data i.Load_Key

def roundcount_pcore_to_keylogic (s : AES_Top) : BitVec 4 := s.ins_ProcessingCore.roundCount_to_KeyLogic

def roundkey_keylogic_to_pcore (s : AES_Top) : Bus :=
  s.ins_KeyLogic.round_key s.mode s.roundcount_pcore_to_keylogic

def mux0 (s : AES_Top) : BitVec 128 := 0#96 ++ s.ins_KeyLogic.rotword_out x

def mux1 (s : AES_Top) : BitVec 128 := s.ins_ProcessingCore.shift_out

def muxout (s : AES_Top) : BitVec 128 := mux_2to1_128bit s.mode (s.mux0 x) s.mux1

def sbox_out (s : AES_Top) : BitVec 128 := s.ins_SBox.value

/-- The clocked blocks of all instances; the ROMs have no reset and are left as they are. -/
def always (rst : Bool) (i : Inputs) (s : AES_Top) : AES_Top where
  ins_systemcontroller := s.ins_systemcontroller.posedge rst
    { KeyLogic_Done := s.keyex_done
      PCore_Done := s.CTValid
      new_key := s.newkey i
      Load_Data := i.Load_Data
      Load_Key := i.Load_Key }
  ins_inputinterface := s.ins_inputinterface.posedge rst i.in_data i.Load_Key i.Load_Data
  ins_KeyLogic := s.ins_KeyLogic.posedge x rst s.keylogic_start s.tempbus s.sbox_out
  ins_ProcessingCore :=
    s.ins_ProcessingCore.posedge x rst s.pcore_start s.tempbus s.roundkey_keylogic_to_pcore s.sbox_out
  ins_SBox := s.ins_SBox

/-- A clock edge. -/
def posedge_clk (rst : Bool) (i : Inputs) (s : AES_Top) : AES_Top :=
  { s.always x rst i with ins_SBox := .posedge (s.muxout x) }

/-- An edge of the asynchronous reset. -/
def posedge_rst (i : Inputs) (s : AES_Top) : AES_Top := s.always x true i

/-- A cycle with the reset off. -/
def step (i : Inputs) (s : AES_Top) : AES_Top := s.posedge_clk x false i

/-- The state a reset leaves, with the ROM addresses `rom`. -/
def reset (rom : S_box) : AES_Top where
  ins_systemcontroller := ⟨false, false, .IDLE⟩
  ins_inputinterface := ⟨0#128, 0#128⟩
  ins_KeyLogic := ⟨Vector.replicate 11 0#128, ⟨.IDLE, 1#4⟩⟩
  ins_ProcessingCore := ⟨0#128, ⟨.IDLE, 1#4⟩⟩
  ins_SBox := rom

/-- Everything is cleared but the ROM addresses. -/
theorem posedge_rst_eq (i : Inputs) (s : AES_Top) : s.posedge_rst x i = reset s.ins_SBox := rfl

/-- The states of the runs from reset. -/
def Reachable : AES_Top → Prop := Clocked.Reachable (fun s => ∃ rom, s = reset rom) (step x)

end AES_Top

end Aes128
