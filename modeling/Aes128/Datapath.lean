import Aes128.Fips197
/-!
# The combinational modules and the S-box ROM

One definition per Verilog module, under its name, from its inputs to its
output. A part select `v[hi:lo]` is `v.extractLsb hi lo` and a concatenation
`{a, b}` is `a ++ b`.
-/

namespace Aes128

/-! ## RotWord.v, RoundKeyExpander.v -/

def RotWord (word : BitVec 32) : BitVec 32 := word.extractLsb 23 0 ++ word.extractLsb 31 24

namespace RoundKeyExpander

def rcon_val (round_num : BitVec 4) : BitVec 32 :=
  match round_num with
  | 1#4 => 0x01#8 ++ 0#24
  | 2#4 => 0x02#8 ++ 0#24
  | 3#4 => 0x04#8 ++ 0#24
  | 4#4 => 0x08#8 ++ 0#24
  | 5#4 => 0x10#8 ++ 0#24
  | 6#4 => 0x20#8 ++ 0#24
  | 7#4 => 0x40#8 ++ 0#24
  | 8#4 => 0x80#8 ++ 0#24
  | 9#4 => 0x1B#8 ++ 0#24
  | 10#4 => 0x36#8 ++ 0#24
  | _ => 0#32

def new_round_key (phase : Bool) (prev_key : BitVec 128) (round_num : BitVec 4) (sbox_data_in : BitVec 128) :
    BitVec 128 :=
  let W0 := prev_key.extractLsb 127 96
  let W1 := prev_key.extractLsb 95 64
  let W2 := prev_key.extractLsb 63 32
  let W3 := prev_key.extractLsb 31 0
  let substituted_word := sbox_data_in.extractLsb 31 0
  let temp := W0 ^^^ substituted_word ^^^ rcon_val round_num
  if phase then temp ++ (W1 ^^^ temp) ++ (W2 ^^^ (W1 ^^^ temp)) ++ (W3 ^^^ (W2 ^^^ (W1 ^^^ temp))) else prev_key

end RoundKeyExpander

/-! ## ShiftRow.v -/

def ShiftRow (in_state : BitVec 128) : BitVec 128 :=
  let s0 := in_state.extractLsb 127 120
  let s1 := in_state.extractLsb 119 112
  let s2 := in_state.extractLsb 111 104
  let s3 := in_state.extractLsb 103 96
  let s4 := in_state.extractLsb 95 88
  let s5 := in_state.extractLsb 87 80
  let s6 := in_state.extractLsb 79 72
  let s7 := in_state.extractLsb 71 64
  let s8 := in_state.extractLsb 63 56
  let s9 := in_state.extractLsb 55 48
  let s10 := in_state.extractLsb 47 40
  let s11 := in_state.extractLsb 39 32
  let s12 := in_state.extractLsb 31 24
  let s13 := in_state.extractLsb 23 16
  let s14 := in_state.extractLsb 15 8
  let s15 := in_state.extractLsb 7 0
  s0 ++ s5 ++ s10 ++ s15 ++
    s4 ++ s9 ++ s14 ++ s3 ++
    s8 ++ s13 ++ s2 ++ s7 ++
    s12 ++ s1 ++ s6 ++ s11

/-! ## MixColumnsAddRoundKey.v -/

namespace MixColumnsAddRoundKey

def xtime (b : BitVec 8) : BitVec 8 :=
  (b.extractLsb 6 0 ++ 0#1) ^^^ (0x1b#8 &&& (b.extractLsb 7 7).replicate 8)

def mult3 (b : BitVec 8) : BitVec 8 := xtime b ^^^ b

def mix_state (in_state : BitVec 128) : BitVec 128 :=
  let s0 := in_state.extractLsb 127 120
  let s1 := in_state.extractLsb 119 112
  let s2 := in_state.extractLsb 111 104
  let s3 := in_state.extractLsb 103 96
  let s4 := in_state.extractLsb 95 88
  let s5 := in_state.extractLsb 87 80
  let s6 := in_state.extractLsb 79 72
  let s7 := in_state.extractLsb 71 64
  let s8 := in_state.extractLsb 63 56
  let s9 := in_state.extractLsb 55 48
  let s10 := in_state.extractLsb 47 40
  let s11 := in_state.extractLsb 39 32
  let s12 := in_state.extractLsb 31 24
  let s13 := in_state.extractLsb 23 16
  let s14 := in_state.extractLsb 15 8
  let s15 := in_state.extractLsb 7 0
  let r0 := xtime s0 ^^^ mult3 s1 ^^^ s2 ^^^ s3
  let r1 := s0 ^^^ xtime s1 ^^^ mult3 s2 ^^^ s3
  let r2 := s0 ^^^ s1 ^^^ xtime s2 ^^^ mult3 s3
  let r3 := mult3 s0 ^^^ s1 ^^^ s2 ^^^ xtime s3
  let r4 := xtime s4 ^^^ mult3 s5 ^^^ s6 ^^^ s7
  let r5 := s4 ^^^ xtime s5 ^^^ mult3 s6 ^^^ s7
  let r6 := s4 ^^^ s5 ^^^ xtime s6 ^^^ mult3 s7
  let r7 := mult3 s4 ^^^ s5 ^^^ s6 ^^^ xtime s7
  let r8 := xtime s8 ^^^ mult3 s9 ^^^ s10 ^^^ s11
  let r9 := s8 ^^^ xtime s9 ^^^ mult3 s10 ^^^ s11
  let r10 := s8 ^^^ s9 ^^^ xtime s10 ^^^ mult3 s11
  let r11 := mult3 s8 ^^^ s9 ^^^ s10 ^^^ xtime s11
  let r12 := xtime s12 ^^^ mult3 s13 ^^^ s14 ^^^ s15
  let r13 := s12 ^^^ xtime s13 ^^^ mult3 s14 ^^^ s15
  let r14 := s12 ^^^ s13 ^^^ xtime s14 ^^^ mult3 s15
  let r15 := mult3 s12 ^^^ s13 ^^^ s14 ^^^ xtime s15
  r0 ++ r1 ++ r2 ++ r3 ++ r4 ++ r5 ++ r6 ++ r7 ++ r8 ++ r9 ++ r10 ++ r11 ++ r12 ++ r13 ++ r14 ++ r15

def out_state (in_state roundKey : BitVec 128) : BitVec 128 := mix_state in_state ^^^ roundKey

end MixColumnsAddRoundKey

/-! ## mux_2to1_128bit.v -/

def mux_2to1_128bit (s : Bool) (in0 in1 : BitVec 128) : BitVec 128 := if s = false then in0 else in1

/-! ## ROM_2port.v, S_box.v -/

set_option maxRecDepth 4000 in
/-- The contents of `sbox.mif`, by address. -/
def sbox_mif : Vector (BitVec 8) 256 := #v[
  99, 124, 119, 123, 242, 107, 111, 197, 48, 1, 103, 43, 254, 215, 171, 118,
  202, 130, 201, 125, 250, 89, 71, 240, 173, 212, 162, 175, 156, 164, 114, 192,
  183, 253, 147, 38, 54, 63, 247, 204, 52, 165, 229, 241, 113, 216, 49, 21,
  4, 199, 35, 195, 24, 150, 5, 154, 7, 18, 128, 226, 235, 39, 178, 117,
  9, 131, 44, 26, 27, 110, 90, 160, 82, 59, 214, 179, 41, 227, 47, 132,
  83, 209, 0, 237, 32, 252, 177, 91, 106, 203, 190, 57, 74, 76, 88, 207,
  208, 239, 170, 251, 67, 77, 51, 133, 69, 249, 2, 127, 80, 60, 159, 168,
  81, 163, 64, 143, 146, 157, 56, 245, 188, 182, 218, 33, 16, 255, 243, 210,
  205, 12, 19, 236, 95, 151, 68, 23, 196, 167, 126, 61, 100, 93, 25, 115,
  96, 129, 79, 220, 34, 42, 144, 136, 70, 238, 184, 20, 222, 94, 11, 219,
  224, 50, 58, 10, 73, 6, 36, 92, 194, 211, 172, 98, 145, 149, 228, 121,
  231, 200, 55, 109, 141, 213, 78, 169, 108, 86, 244, 234, 101, 122, 174, 8,
  186, 120, 37, 46, 28, 166, 180, 198, 232, 221, 116, 31, 75, 189, 139, 138,
  112, 62, 181, 102, 72, 3, 246, 14, 97, 53, 87, 185, 134, 193, 29, 158,
  225, 248, 152, 17, 105, 217, 142, 148, 155, 30, 135, 233, 206, 85, 40, 223,
  140, 161, 137, 13, 191, 230, 66, 104, 65, 153, 45, 15, 176, 84, 187, 22]

/-- `ROM_2port`: an `altsyncram` of 256 bytes with both addresses registered on
the clock, no clear and unregistered outputs. -/
structure ROM_2port where
  address_a : BitVec 8
  address_b : BitVec 8
  deriving DecidableEq

namespace ROM_2port

def posedge (address_a address_b : BitVec 8) : ROM_2port := ⟨address_a, address_b⟩

def q_a (r : ROM_2port) : BitVec 8 := sbox_mif.get r.address_a.toFin

def q_b (r : ROM_2port) : BitVec 8 := sbox_mif.get r.address_b.toFin

end ROM_2port

structure S_box where
  b7 : ROM_2port
  b6 : ROM_2port
  b5 : ROM_2port
  b4 : ROM_2port
  b3 : ROM_2port
  b2 : ROM_2port
  b1 : ROM_2port
  b0 : ROM_2port
  deriving DecidableEq

namespace S_box

def posedge (addr : BitVec 128) : S_box where
  b7 := .posedge (addr.extractLsb 127 120) (addr.extractLsb 119 112)
  b6 := .posedge (addr.extractLsb 111 104) (addr.extractLsb 103 96)
  b5 := .posedge (addr.extractLsb 95 88) (addr.extractLsb 87 80)
  b4 := .posedge (addr.extractLsb 79 72) (addr.extractLsb 71 64)
  b3 := .posedge (addr.extractLsb 63 56) (addr.extractLsb 55 48)
  b2 := .posedge (addr.extractLsb 47 40) (addr.extractLsb 39 32)
  b1 := .posedge (addr.extractLsb 31 24) (addr.extractLsb 23 16)
  b0 := .posedge (addr.extractLsb 15 8) (addr.extractLsb 7 0)

def value (r : S_box) : BitVec 128 :=
  r.b7.q_a ++ r.b7.q_b ++ r.b6.q_a ++ r.b6.q_b ++ r.b5.q_a ++ r.b5.q_b ++ r.b4.q_a ++ r.b4.q_b ++
    r.b3.q_a ++ r.b3.q_b ++ r.b2.q_a ++ r.b2.q_b ++ r.b1.q_a ++ r.b1.q_b ++ r.b0.q_a ++ r.b0.q_b

end S_box

end Aes128
