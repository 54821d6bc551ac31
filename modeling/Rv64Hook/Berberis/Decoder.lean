import Rv64Hook.Lib.Rv64

/-! The instruction decoder of berberis: which callbacks of its consumer one instruction fires.
The arguments of the callbacks that the relocator does not look at are left out. -/
namespace Rv64Hook.Berberis
open ByteMem Rv64

inductive Callback where
  | auipc (dst : Reg) (imm : BitVec 32)
  | compareAndBranch (opcode : BitVec 3) (src1 src2 : Reg) (offset : BitVec 16)
  | jumpAndLink (dst : Reg) (offset : BitVec 32) (insnLen : ℕ)
  | jumpAndLinkRegister (dst base : Reg) (offset : BitVec 16) (insnLen : ℕ)
  | amo | csr | fcvt | fma | fence | fenceI | load | lui | nop | op | opSingleInput | opFp
  | opFpGpRegisterTargetNoRounding | opFpGpRegisterTargetSingleInputNoRounding
  | opFpNoRounding | fmvFloatToInteger | fmvIntegerToFloat | opFpSingleInput
  | opFpSingleInputNoRounding | opImm | opVector | vsetivli | vsetvl | vsetvli | store | system
  | undefined
  deriving DecidableEq

namespace Decoder

/-- `GetBits<start, size>()` -/
def getBits (code : BitVec 32) (start size : ℕ) : BitVec size :=
  ((code <<< (32 - start - size)) >>> (32 - size)).setWidth size

/-- `SignExtend<size>` of a value that is then widened to `w` bits. -/
def signExtend (size w : ℕ) {v : ℕ} (value : BitVec v) : BitVec w :=
  (value.setWidth size).signExtend w

/-! ### Compressed instructions -/

def kAddi4spnHigh : List (BitVec 8) :=
  [0x0, 0x40, 0x80, 0xc0, 0x4, 0x44, 0x84, 0xc4, 0x8, 0x48, 0x88, 0xc8, 0xc, 0x4c, 0x8c, 0xcc]

def kAddi4spnLow : List (BitVec 8) :=
  [0x0, 0x2, 0x1, 0x3, 0x10, 0x12, 0x11, 0x13, 0x20, 0x22, 0x21, 0x23, 0x30, 0x32, 0x31, 0x33]

def kBHigh : List (BitVec 16) := [0x0, 0x8, 0x10, 0x18, 0x100, 0x108, 0x110, 0x118]

def kBLow : List (BitVec 8) :=
  [0x00, 0x20, 0x02, 0x22, 0x04, 0x24, 0x06, 0x26, 0x40, 0x60, 0x42,
   0x62, 0x44, 0x64, 0x46, 0x66, 0x80, 0xa0, 0x82, 0xa2, 0x84, 0xa4,
   0x86, 0xa6, 0xc0, 0xe0, 0xc2, 0xe2, 0xc4, 0xe4, 0xc6, 0xe6]

def kJHigh : List (BitVec 16) :=
  [0x0,    0x400,  0x100,  0x500,  0x200,  0x600,  0x300,  0x700,  0x10,   0x410,  0x110,
   0x510,  0x210,  0x610,  0x310,  0x710,  0xf800, 0xfc00, 0xf900, 0xfd00, 0xfa00, 0xfe00,
   0xfb00, 0xff00, 0xf810, 0xfc10, 0xf910, 0xfd10, 0xfa10, 0xfe10, 0xfb10, 0xff10]

def kJLow : List (BitVec 8) :=
  [0x0,  0x20, 0x2,  0x22, 0x4,  0x24, 0x6,  0x26, 0x8,  0x28, 0xa,  0x2a, 0xc,
   0x2c, 0xe,  0x2e, 0x80, 0xa0, 0x82, 0xa2, 0x84, 0xa4, 0x86, 0xa6, 0x88, 0xa8,
   0x8a, 0xaa, 0x8c, 0xac, 0x8e, 0xae, 0x40, 0x60, 0x42, 0x62, 0x44, 0x64, 0x46,
   0x66, 0x48, 0x68, 0x4a, 0x6a, 0x4c, 0x6c, 0x4e, 0x6e, 0xc0, 0xe0, 0xc2, 0xe2,
   0xc4, 0xe4, 0xc6, 0xe6, 0xc8, 0xe8, 0xca, 0xea, 0xcc, 0xec, 0xce, 0xee]

def decodeCompressedAddi4spn (code : BitVec 32) : List Callback :=
  let high := kAddi4spnHigh.getD (getBits code 9 4).toNat 0
  let low := kAddi4spnLow.getD (getBits code 5 4).toNat 0
  if (high ||| low).setWidth 16 <<< 2 = 0 then [.undefined] else [.opImm]

/-- Also for `c.nop` and hints, where two callbacks fire. -/
def decodeCompressedAddi (code : BitVec 32) : List Callback :=
  let lowImm := getBits code 2 5
  let highImm := getBits code 12 1
  let imm : BitVec 8 := signExtend 6 8 (highImm.setWidth 32 <<< 5 ||| lowImm.setWidth 32)
  let r := getBits code 7 5
  if r = 0 ∨ imm = 0 then [.nop, .opImm] else [.opImm]

def decodeCompressedLuiAddi16sp (code : BitVec 32) : List Callback :=
  if getBits code 7 5 ≠ 2 then [.lui] else [.opImm]

def decodeCompressedMiscAlu (code : BitVec 32) : List Callback :=
  let lowImm := getBits code 2 5
  let zcHighOpcodeBits := getBits code 10 3
  let zcOpcode : BitVec 16 := lowImm.setWidth 16 ||| zcHighOpcodeBits.setWidth 16 <<< 5
  if zcOpcode ∈ [0b11111010, 0b11111000, 0b11111100, 0b11111001, 0b11111011] then
    [.opSingleInput]
  else if getBits code 10 2 ≠ 3 then [.opImm]
  else if getBits code 12 1 = 0 then [.op]
  else if getBits code 5 2 = 0 ∨ getBits code 5 2 = 1 then [.op]
  else [.undefined]

def decodeCompressedJ (code : BitVec 32) : List Callback :=
  let high := kJHigh.getD (getBits code 8 5).toNat 0
  let low := kJLow.getD (getBits code 2 6).toNat 0
  [.jumpAndLink 0 (high.signExtend 32 ||| low.setWidth 32) 2]

def decodeCompressedBeqzBnez (code : BitVec 32) : List Callback :=
  let high := kBHigh.getD (getBits code 10 3).toNat 0
  let low := kBLow.getD (getBits code 2 5).toNat 0
  let rs := getBits code 7 3
  [.compareAndBranch ((getBits code 13 1).setWidth 3) (8 + rs.setWidth 5) 0
    (signExtend 9 16 (high.setWidth 32 + low.setWidth 32))]

def decodeCompressedJr_Jalr_Mv_Add (code : BitVec 32) : List Callback :=
  let r := getBits code 7 5
  let rs2 := getBits code 2 5
  if getBits code 12 1 = 1 then
    if r = 0 ∧ rs2 = 0 then [.system]
    else if rs2 = 0 then [.jumpAndLinkRegister 1 r 0 2]
    else [.op]
  else if rs2 = 0 then [.jumpAndLinkRegister 0 r 0 2]
  else [.op]

/-- The switch over the compressed opcodes; `DecodeCompressedLoadStore`, `-Loadsp`, `-Storesp`,
`-Addiw`, `-Li` and `-Slli` each fire one callback. -/
def decodeCompressedInstruction (code : BitVec 32) : List Callback :=
  let opcodeBits : BitVec 5 :=
    (getBits code 13 3).setWidth 5 <<< 2 ||| (getBits code 0 2).setWidth 5
  if opcodeBits = 0b00000 then decodeCompressedAddi4spn code
  else if opcodeBits ∈ [0b00100, 0b01000, 0b01100] then [.load]
  else if opcodeBits ∈ [0b10100, 0b11000, 0b11100] then [.store]
  else if opcodeBits = 0b00001 then decodeCompressedAddi code
  else if opcodeBits ∈ [0b00101, 0b01001] then [.opImm]
  else if opcodeBits = 0b01101 then decodeCompressedLuiAddi16sp code
  else if opcodeBits = 0b10001 then decodeCompressedMiscAlu code
  else if opcodeBits = 0b10101 then decodeCompressedJ code
  else if opcodeBits ∈ [0b11001, 0b11101] then decodeCompressedBeqzBnez code
  else if opcodeBits = 0b00010 then [.opImm]
  else if opcodeBits ∈ [0b00110, 0b01010, 0b01110] then [.load]
  else if opcodeBits = 0b10010 then decodeCompressedJr_Jalr_Mv_Add code
  else if opcodeBits ∈ [0b10110, 0b11010, 0b11110] then [.store]
  else [.undefined]

/-! ### Base instructions -/

def decodeMiscMem (code : BitVec 32) : List Callback :=
  if getBits code 12 3 = 0 then [.fence]
  else if getBits code 12 3 = 1 then [.fenceI]
  else [.undefined]

/-- `DecodeOp<OpOpcode>` and `DecodeOp<Op32Opcode>`; only `kZexth` has a single input. -/
def decodeOp (code : BitVec 32) : List Callback :=
  let lowOpcode := getBits code 12 3
  let highOpcode := getBits code 25 7
  let opcodeBits : BitVec 16 := lowOpcode.setWidth 16 ||| highOpcode.setWidth 16 <<< 3
  if opcodeBits = 0b0000100100 then
    if getBits code 20 5 ≠ 0 then [.undefined] else [.opSingleInput]
  else [.op]

def decodeAmo (code : BitVec 32) : List Callback :=
  if getBits code 27 5 = 0b00010 ∧ getBits code 20 5 ≠ 0 then [.undefined] else [.amo]

/-- Whether a width of `kLoadStoreWidthToOperandType` belongs to a vector instruction. -/
def isVectorInstruction (width : BitVec 3) : Bool := width ∈ [0b000#3, 0b101, 0b110, 0b111]

/-- `DecodeLoad<FloatOperandType>` and `DecodeStore<FloatOperandType>`. -/
def decodeFpMemory (scalar : Callback) (code : BitVec 32) : List Callback :=
  if isVectorInstruction (getBits code 12 3) then
    if getBits code 28 1 = 1 then [.undefined] else [.opVector]
  else [scalar]

def decodeAuipc (code : BitVec 32) : List Callback :=
  [.auipc (getBits code 7 5) ((getBits code 12 20).setWidth 32 <<< 12)]

def decodeBranch (code : BitVec 32) : List Callback :=
  let lowImm := getBits code 8 4
  let midImm := getBits code 25 6
  let bit11Imm := getBits code 7 1
  let bit12Imm := getBits code 31 1
  let offset : BitVec 16 := (lowImm.setWidth 32 ||| midImm.setWidth 32 <<< 4 |||
    bit11Imm.setWidth 32 <<< 10 ||| bit12Imm.setWidth 32 <<< 11).setWidth 16
  [.compareAndBranch (getBits code 12 3) (getBits code 15 5) (getBits code 20 5)
    (signExtend 13 16 (offset.signExtend 32 * 2))]

def decodeJumpAndLink (code : BitVec 32) : List Callback :=
  let lowImm := getBits code 21 10
  let midImm := getBits code 12 8
  let bit11Imm := getBits code 20 1
  let bit20Imm := getBits code 31 1
  let offset : BitVec 32 := lowImm.setWidth 32 ||| bit11Imm.setWidth 32 <<< 10 |||
    midImm.setWidth 32 <<< 11 ||| bit20Imm.setWidth 32 <<< 19
  [.jumpAndLink (getBits code 7 5) (signExtend 21 32 (offset * 2)) 4]

def decodeJumpAndLinkRegister (code : BitVec 32) : List Callback :=
  if getBits code 12 3 ≠ 0 then [.undefined]
  else
    let offset := ((getBits code 20 12).setWidth 16 <<< 4).sshiftRight 4
    [.jumpAndLinkRegister (getBits code 7 5) (getBits code 15 5) offset 4]

def decodeOpFp (code : BitVec 32) : List Callback :=
  let operandType := getBits code 25 2
  let opcodeBits := getBits code 27 2
  let rs1 := getBits code 15 5
  let rs2 := getBits code 20 5
  let rm := getBits code 12 3
  let form := getBits code 29 3
  if form = 0b000 then [.opFp]
  else if form = 0b001 then
    if opcodeBits = 0 ∧ rm = 0 ∧ rs1 = rs2 then [.opFpSingleInputNoRounding]
    else [.opFpNoRounding]
  else if form = 0b010 then
    if opcodeBits = 0 then
      if operandType.setWidth 5 = rs2 ∨ rs2 > 0b11 then [.undefined] else [.fcvt]
    else [.opFpSingleInput]
  else if form = 0b101 then [.opFpGpRegisterTargetNoRounding]
  else if form = 0b110 then
    if opcodeBits = 0b00 ∨ opcodeBits = 0b10 then [.fcvt] else [.undefined]
  else if form = 0b111 then
    if rm = 0b001 then [.opFpGpRegisterTargetSingleInputNoRounding]
    else if rm = 0b000 then
      if opcodeBits = 0b00 then [.fmvFloatToInteger]
      else if opcodeBits = 0b10 then [.fmvIntegerToFloat]
      else [.undefined]
    else [.undefined]
  else [.undefined]

/-- A reserved `vset` encoding fires no callback. -/
def decodeOpV (code : BitVec 32) : List Callback :=
  if getBits code 12 3 ≠ 0b111 then [.opVector]
  else if getBits code 31 1 = 0 then [.vsetvli]
  else if getBits code 30 1 = 1 then [.vsetivli]
  else if getBits code 25 6 = 0 then [.vsetvl]
  else []

def decodeSystem (code : BitVec 32) : List Callback :=
  if getBits code 12 2 = 0 then [.system] else [.csr]

/-- The switch over the base opcodes; `DecodeLoad` and `DecodeStore` of integers, `DecodeLui`,
`DecodeFma` and the immediate `DecodeOp` each fire one callback. -/
def decodeBaseInstruction (code : BitVec 32) : List Callback :=
  let opcodeBits := getBits code 2 5
  if opcodeBits = 0b00000 then [.load]
  else if opcodeBits = 0b00001 then decodeFpMemory .load code
  else if opcodeBits = 0b00011 then decodeMiscMem code
  else if opcodeBits = 0b00100 then [.opImm]
  else if opcodeBits = 0b00101 then decodeAuipc code
  else if opcodeBits = 0b00110 then [.opImm]
  else if opcodeBits = 0b01000 then [.store]
  else if opcodeBits = 0b01001 then decodeFpMemory .store code
  else if opcodeBits = 0b01011 then decodeAmo code
  else if opcodeBits = 0b01100 then decodeOp code
  else if opcodeBits = 0b01101 then [.lui]
  else if opcodeBits = 0b01110 then decodeOp code
  else if opcodeBits ∈ [0b10000, 0b10001, 0b10010, 0b10011] then [.fma]
  else if opcodeBits = 0b10100 then decodeOpFp code
  else if opcodeBits = 0b10101 then decodeOpV code
  else if opcodeBits = 0b11000 then decodeBranch code
  else if opcodeBits = 0b11001 then decodeJumpAndLinkRegister code
  else if opcodeBits = 0b11011 then decodeJumpAndLink code
  else if opcodeBits = 0b11100 then decodeSystem code
  else [.undefined]

def getInsnSize (parcel : BitVec 16) : ℕ := if parcel &&& 0b11 ≠ 0b11 then 2 else 4

/-- `Decode(code)`: the callbacks fired, in order, and the size returned. -/
def decode (code : Mem) (address : Word) : List Callback × ℕ :=
  let parcel : BitVec 16 := load 16 code address
  if getInsnSize parcel = 2 then (decodeCompressedInstruction (parcel.setWidth 32), 2)
  else (decodeBaseInstruction (load 32 code address), 4)

end Decoder

/-! ### Agreement with the ISA -/

/-- A callback that makes no use of the program counter. -/
def Callback.plain : Callback → Prop
  | .auipc .. | .jumpAndLink .. => False
  | .compareAndBranch opcode .. => branchCond opcode = none
  | _ => True

def Plain (cbs : List Callback) : Prop := ∀ cb ∈ cbs, cb.plain

theorem Plain.nil : Plain [] := fun _ hcb => absurd hcb List.not_mem_nil

theorem Plain.cons {cb : Callback} {cbs : List Callback} (h : cb.plain) (hcbs : Plain cbs) :
    Plain (cb :: cbs) :=
  List.forall_mem_cons.mpr ⟨h, hcbs⟩

theorem Plain.single {cb : Callback} (h : cb.plain) : Plain [cb] := Plain.nil.cons h

theorem Plain.ite {c : Prop} [Decidable c] {xs ys : List Callback} (hx : Plain xs)
    (hy : Plain ys) : Plain (if c then xs else ys) := by
  split
  · exact hx
  · exact hy

/-- What the callbacks for an instruction have to say about it. -/
def Reports (cbs : List Callback) : Instr → Prop
  | .auipc rd imm => ∃ imm', cbs = [.auipc rd imm'] ∧ imm'.signExtend 64 = imm
  | .jal rd offset =>
    ∃ offset' n, cbs = [.jumpAndLink rd offset' n] ∧ offset'.signExtend 64 = offset
  | .branch cond rs1 rs2 offset => ∃ opcode offset', branchCond opcode = some cond ∧
      cbs = [.compareAndBranch opcode rs1 rs2 offset'] ∧ offset'.signExtend 64 = offset
  | _ => Plain cbs

namespace Decoder

theorem getBits_eq (code : BitVec 32) {start size : ℕ} (h : start + size ≤ 32) :
    getBits code start size = code.extractLsb' start size := by
  apply BitVec.eq_of_getLsbD_eq
  intro i hi
  have h1 : 32 - size + i - (32 - start - size) = start + i := by omega
  have h2 : ¬ 32 - size + i < 32 - start - size := by omega
  have h3 : 32 - size + i < 32 := by omega
  simp only [getBits, BitVec.getLsbD_setWidth, BitVec.getLsbD_shiftLeft,
    BitVec.getLsbD_ushiftRight, BitVec.getLsbD_extractLsb', hi, h1, h2, h3, decide_true,
    decide_false, Bool.true_and, Bool.not_false]

theorem auipc_imm (code : BitVec 32) :
    ((code.extractLsb' 12 20).setWidth 32 <<< 12).signExtend 64 = immU code := by
  have h : (code.extractLsb' 12 20).setWidth 32 <<< 12 = code.extractLsb' 12 20 ++ 0#12 := by
    apply BitVec.eq_of_getLsbD_eq
    intro i hi
    rw [BitVec.getLsbD_append]
    interval_cases i <;> simp
  exact congrArg (BitVec.signExtend 64) h

theorem mul_two_eq_shift (v : BitVec 32) : v * (2 : BitVec 32) = v <<< 1 := by
  apply BitVec.eq_of_toNat_eq
  rw [BitVec.toNat_mul, BitVec.toNat_shiftLeft, Nat.shiftLeft_eq]
  rfl

theorem signExtend_signExtend {w k : ℕ} (m : ℕ) (v : BitVec w) (h : w ≤ k) :
    (v.signExtend k).signExtend m = v.signExtend m := by
  change BitVec.ofInt m (v.signExtend k).toInt = BitVec.ofInt m v.toInt
  rw [BitVec.toInt_signExtend_of_le h]

theorem branch_offset (code : BitVec 32) :
    (signExtend 13 16 ((((code.extractLsb' 8 4).setWidth 32 |||
      (code.extractLsb' 25 6).setWidth 32 <<< 4 ||| (code.extractLsb' 7 1).setWidth 32 <<< 10 |||
      (code.extractLsb' 31 1).setWidth 32 <<< 11).setWidth 16).signExtend 32 * 2)).signExtend 64 =
    immB code := by
  have h : (((((code.extractLsb' 8 4).setWidth 32 |||
      (code.extractLsb' 25 6).setWidth 32 <<< 4 ||| (code.extractLsb' 7 1).setWidth 32 <<< 10 |||
      (code.extractLsb' 31 1).setWidth 32 <<< 11).setWidth 16).signExtend 32 * 2)).setWidth 13 =
      code.extractLsb' 31 1 ++ code.extractLsb' 7 1 ++ code.extractLsb' 25 6 ++
        code.extractLsb' 8 4 ++ 0#1 := by
    rw [mul_two_eq_shift]
    apply BitVec.eq_of_getLsbD_eq
    intro i hi
    simp only [BitVec.getLsbD_append]
    interval_cases i <;> simp [BitVec.getElem_signExtend]
  rw [signExtend, h, signExtend_signExtend _ _ (by decide)]
  rfl

theorem jump_offset (code : BitVec 32) :
    (signExtend 21 32 (((code.extractLsb' 21 10).setWidth 32 |||
      (code.extractLsb' 20 1).setWidth 32 <<< 10 ||| (code.extractLsb' 12 8).setWidth 32 <<< 11 |||
      (code.extractLsb' 31 1).setWidth 32 <<< 19) * 2)).signExtend 64 = immJ code := by
  have h : (((code.extractLsb' 21 10).setWidth 32 |||
      (code.extractLsb' 20 1).setWidth 32 <<< 10 ||| (code.extractLsb' 12 8).setWidth 32 <<< 11 |||
      (code.extractLsb' 31 1).setWidth 32 <<< 19) * 2).setWidth 21 =
      code.extractLsb' 31 1 ++ code.extractLsb' 12 8 ++ code.extractLsb' 20 1 ++
        code.extractLsb' 21 10 ++ 0#1 := by
    rw [mul_two_eq_shift]
    apply BitVec.eq_of_getLsbD_eq
    intro i hi
    simp only [BitVec.getLsbD_append]
    interval_cases i <;> simp
  rw [signExtend, h, signExtend_signExtend _ _ (by decide)]
  rfl

/-- The table of the high bits of `c.j` holds them sign-extended. -/
theorem kJHigh_eq : ∀ v : BitVec 5, kJHigh.getD v.toNat 0 =
    (v.extractLsb' 4 1 ++ v.extractLsb' 0 1 ++ v.extractLsb' 1 2 ++ 0#3 ++ v.extractLsb' 3 1 ++
      0#4).signExtend 16 := by
  decide

theorem kJLow_eq : ∀ v : BitVec 6, kJLow.getD v.toNat 0 =
    v.extractLsb' 4 1 ++ v.extractLsb' 5 1 ++ v.extractLsb' 0 1 ++ 0#1 ++ v.extractLsb' 1 3 ++
      0#1 := by
  decide

theorem kBHigh_add_kBLow : ∀ (u : BitVec 3) (v : BitVec 5),
    (kBHigh.getD u.toNat 0).setWidth 32 + (kBLow.getD v.toNat 0).setWidth 32 =
      (u.extractLsb' 2 1 ++ v.extractLsb' 3 2 ++ v.extractLsb' 0 1 ++ u.extractLsb' 0 2 ++
        v.extractLsb' 1 2 ++ 0#1).setWidth 32 := by
  decide

theorem compressed_jump_offset (p : BitVec 16) :
    ((kJHigh.getD (p.extractLsb' 8 5).toNat 0).signExtend 32 |||
      (kJLow.getD (p.extractLsb' 2 6).toNat 0).setWidth 32).signExtend 64 = immCJ p := by
  have h : (kJHigh.getD (p.extractLsb' 8 5).toNat 0).signExtend 32 |||
      (kJLow.getD (p.extractLsb' 2 6).toNat 0).setWidth 32 =
      (p.extractLsb' 12 1 ++ p.extractLsb' 8 1 ++ p.extractLsb' 9 2 ++ p.extractLsb' 6 1 ++
        p.extractLsb' 7 1 ++ p.extractLsb' 2 1 ++ p.extractLsb' 11 1 ++ p.extractLsb' 3 3 ++
        0#1).signExtend 32 := by
    rw [kJHigh_eq, kJLow_eq, signExtend_signExtend _ _ (by decide)]
    apply BitVec.eq_of_getLsbD_eq
    intro i hi
    simp only [BitVec.getLsbD_or, BitVec.getLsbD_signExtend, BitVec.getLsbD_append,
      BitVec.getLsbD_setWidth, BitVec.msb_append, BitVec.getLsbD_extractLsb']
    interval_cases i <;> simp
  rw [h, signExtend_signExtend _ _ (by decide)]
  rfl

theorem compressed_branch_offset (p : BitVec 16) :
    (signExtend 9 16 ((kBHigh.getD (p.extractLsb' 10 3).toNat 0).setWidth 32 +
      (kBLow.getD (p.extractLsb' 2 5).toNat 0).setWidth 32)).signExtend 64 = immCB p := by
  have h : ((kBHigh.getD (p.extractLsb' 10 3).toNat 0).setWidth 32 +
      (kBLow.getD (p.extractLsb' 2 5).toNat 0).setWidth 32).setWidth 9 =
      p.extractLsb' 12 1 ++ p.extractLsb' 5 2 ++ p.extractLsb' 2 1 ++ p.extractLsb' 10 2 ++
        p.extractLsb' 3 2 ++ 0#1 := by
    rw [kBHigh_add_kBLow]
    apply BitVec.eq_of_getLsbD_eq
    intro i hi
    simp only [BitVec.getLsbD_append, BitVec.getLsbD_setWidth, BitVec.getLsbD_extractLsb']
    interval_cases i <;> simp
  rw [signExtend, h, signExtend_signExtend _ _ (by decide)]
  rfl

theorem getBits_setWidth (p : BitVec 16) {start size : ℕ} (h : start + size ≤ 32) :
    getBits (p.setWidth 32) start size = p.extractLsb' start size := by
  rw [getBits_eq _ h]
  apply BitVec.eq_of_getLsbD_eq
  intro i hi
  have h1 : start + i < 32 := by omega
  simp only [BitVec.getLsbD_extractLsb', BitVec.getLsbD_setWidth, h1, decide_true, Bool.true_and]

theorem append_three_inj : ∀ b c : BitVec 5, b ++ 3#2 = c ++ 3#2 ↔ b = c := by
  decide

/-- The opcode of a base instruction is its five-bit opcode, followed by `11`. -/
theorem opcode_eq_iff {code : BitVec 32} (h : code.extractLsb' 0 2 = 3) (b : BitVec 5) :
    code.extractLsb' 0 7 = b ++ 3#2 ↔ code.extractLsb' 2 5 = b := by
  have hs : code.extractLsb' 2 5 ++ code.extractLsb' 0 2 = code.extractLsb' 0 7 :=
    BitVec.extractLsb'_append_extractLsb'_eq_extractLsb' rfl
  rw [← hs, h]
  exact append_three_inj _ _

theorem reports_plain {cbs : List Callback} {i : Instr} (hcbs : Plain cbs)
    (hi : ∀ rd imm, i ≠ .auipc rd imm) (hj : ∀ rd offset, i ≠ .jal rd offset)
    (hb : ∀ cond rs1 rs2 offset, i ≠ .branch cond rs1 rs2 offset) : Reports cbs i := by
  cases i with
  | auipc rd imm => exact absurd rfl (hi rd imm)
  | jal rd offset => exact absurd rfl (hj rd offset)
  | branch cond rs1 rs2 offset => exact absurd rfl (hb cond rs1 rs2 offset)
  | lui | jalr | ld | other => exact hcbs

theorem decodeBranch_reports {code : BitVec 32} :
    Reports (decodeBranch code) (match branchCond (code.extractLsb' 12 3) with
      | some cond => .branch cond (rs1Field code) (rs2Field code) (immB code)
      | none => .other) := by
  unfold decodeBranch
  simp only [getBits_eq code, Nat.reduceAdd, Nat.reduceLeDiff]
  cases hc : branchCond (code.extractLsb' 12 3) with
  | none =>
    exact Plain.single hc
  | some cond => exact ⟨_, _, hc, rfl, branch_offset code⟩

/-- Every base instruction but `auipc`, the branches and `jal` fires plain callbacks. -/
theorem decodeBaseInstruction_plain {code : BitVec 32} (hauipc : getBits code 2 5 ≠ 0b00101)
    (hbranch : getBits code 2 5 ≠ 0b11000) (hjal : getBits code 2 5 ≠ 0b11011) :
    Plain (decodeBaseInstruction code) := by
  unfold decodeBaseInstruction
  dsimp only
  rw [if_neg hauipc, if_neg hbranch, if_neg hjal]
  repeat' apply Plain.ite
  all_goals first
    | exact Plain.single trivial
    | exact Plain.nil

theorem decodeBaseInstruction_reports {code : BitVec 32} (h : code.extractLsb' 0 2 = 3) :
    Reports (decodeBaseInstruction code) (decode32 code) := by
  have ho := opcode_eq_iff h
  have hlui : code.extractLsb' 0 7 = 0x37 ↔ code.extractLsb' 2 5 = 0b01101 := ho 0b01101
  have hauipc : code.extractLsb' 0 7 = 0x17 ↔ code.extractLsb' 2 5 = 0b00101 := ho 0b00101
  have hjal : code.extractLsb' 0 7 = 0x6f ↔ code.extractLsb' 2 5 = 0b11011 := ho 0b11011
  have hjalr : code.extractLsb' 0 7 = 0x67 ↔ code.extractLsb' 2 5 = 0b11001 := ho 0b11001
  have hbranch : code.extractLsb' 0 7 = 0x63 ↔ code.extractLsb' 2 5 = 0b11000 := ho 0b11000
  have hload : code.extractLsb' 0 7 = 0x03 ↔ code.extractLsb' 2 5 = 0b00000 := ho 0b00000
  have hb := getBits_eq code (by decide : 2 + 5 ≤ 32)
  simp only [decode32, hlui, hauipc, hjal, hjalr, hbranch, hload, ← hb]
  by_cases h5 : getBits code 2 5 = 0b00101
  · have hcbs : decodeBaseInstruction code = decodeAuipc code := by
      unfold decodeBaseInstruction
      rw [h5]
      rfl
    rw [hcbs, h5]
    refine ⟨_, congrArg₂ (fun r i => [Callback.auipc r (BitVec.setWidth 32 i <<< 12)])
      (getBits_eq code (by decide)) (getBits_eq code (by decide)), auipc_imm code⟩
  by_cases h24 : getBits code 2 5 = 0b11000
  · have hcbs : decodeBaseInstruction code = decodeBranch code := by
      unfold decodeBaseInstruction
      rw [h24]
      rfl
    rw [hcbs, h24]
    exact decodeBranch_reports
  by_cases h27 : getBits code 2 5 = 0b11011
  · have hcbs : decodeBaseInstruction code = decodeJumpAndLink code := by
      unfold decodeBaseInstruction
      rw [h27]
      rfl
    rw [hcbs, h27]
    refine ⟨_, 4, ?_, jump_offset code⟩
    simp only [decodeJumpAndLink, getBits_eq code, Nat.reduceAdd, Nat.reduceLeDiff]
    rfl
  rw [if_neg h5, if_neg h24, if_neg h27]
  have hp := decodeBaseInstruction_plain h5 h24 h27
  split_ifs <;> exact hp

/-- Every compressed instruction but `c.j`, `c.beqz` and `c.bnez` fires plain callbacks. -/
theorem decodeCompressedInstruction_plain {p : BitVec 16}
    (h : p.extractLsb' 0 2 ≠ 1 ∨ p.extractLsb' 13 3 ∉ [5#3, 6, 7]) :
    Plain (decodeCompressedInstruction (p.setWidth 32)) := by
  have hop : ∀ (u : BitVec 3) (v : BitVec 2), v ≠ 1 ∨ u ∉ [5#3, 6, 7] →
      u.setWidth 5 <<< 2 ||| v.setWidth 5 ≠ 0b10101 ∧
      u.setWidth 5 <<< 2 ||| v.setWidth 5 ∉ ([0b11001, 0b11101] : List (BitVec 5)) := by
    decide
  obtain ⟨hj, hb⟩ := hop _ _ h
  unfold decodeCompressedInstruction
  dsimp only
  rw [getBits_setWidth _ (by decide), getBits_setWidth _ (by decide), if_neg hj, if_neg hb]
  repeat' apply Plain.ite
  all_goals first
    | exact Plain.single trivial
    | exact Plain.cons trivial (Plain.single trivial)

theorem decodeCompressedBeqzBnez_eq {p : BitVec 16} {u : BitVec 3} {cond : BranchCond}
    (hu : p.extractLsb' 13 3 = u) (hc : branchCond ((u.extractLsb' 0 1).setWidth 3) = some cond) :
    Reports (decodeCompressedBeqzBnez (p.setWidth 32))
      (.branch cond (creg (p.extractLsb' 7 3)) 0 (immCB p)) := by
  have hcreg : ∀ r : BitVec 3, 8 + r.setWidth 5 = creg r := by
    decide
  have hu' : p.extractLsb' 13 1 = u.extractLsb' 0 1 := by
    rw [← hu]
    apply BitVec.eq_of_getLsbD_eq
    intro i hi
    interval_cases i
    simp
  refine ⟨_, _, hc, ?_, compressed_branch_offset p⟩
  simp only [decodeCompressedBeqzBnez, getBits_setWidth, Nat.reduceAdd, Nat.reduceLeDiff, hcreg,
    hu']

theorem decodeCompressedInstruction_reports (p : BitVec 16) :
    Reports (decodeCompressedInstruction (p.setWidth 32)) (decode16 p) := by
  by_cases hq : p.extractLsb' 0 2 = 1 ∧ p.extractLsb' 13 3 ∈ [5#3, 6, 7]
  · obtain ⟨h1, hf⟩ := hq
    simp only [List.mem_cons, List.not_mem_nil, or_false] at hf
    rcases hf with hf | hf | hf
    all_goals
      unfold decodeCompressedInstruction decode16
      rw [getBits_setWidth _ (by decide), getBits_setWidth _ (by decide), h1, hf]
    · refine ⟨_, 2, ?_, compressed_jump_offset p⟩
      change decodeCompressedJ (p.setWidth 32) = _
      unfold decodeCompressedJ
      rw [getBits_setWidth _ (by decide), getBits_setWidth _ (by decide)]
    · exact decodeCompressedBeqzBnez_eq hf rfl
    · exact decodeCompressedBeqzBnez_eq hf rfl
  · have hp := decodeCompressedInstruction_plain (p := p) (by tauto)
    simp only [List.mem_cons, List.not_mem_nil, or_false, not_and, not_or] at hq
    unfold decode16
    dsimp only
    rw [if_neg fun h => (hq h.1).1 h.2, if_neg fun h => (hq h.1).2.1 h.2,
      if_neg fun h => (hq h.1).2.2 h.2]
    split_ifs <;> exact hp

theorem getInsnSize_eq (parcel : BitVec 16) : getInsnSize parcel = insnLen parcel := by
  have h : parcel &&& 0b11 = (parcel.extractLsb' 0 2).setWidth 16 := by
    apply BitVec.eq_of_getLsbD_eq
    intro i hi
    interval_cases i <;> simp
  have h3 : ∀ v : BitVec 2, v.setWidth 16 = 0b11 ↔ v = 3 := by
    decide
  unfold getInsnSize insnLen
  rw [h, ite_not]
  simp only [h3]

/-- The decoder reports the instruction at an address as the ISA has it, with its size. -/
theorem decode_reports (code : Mem) (address : Word) :
    Reports (decode code address).1 (Rv64.decode (fetch code address)) ∧
      (decode code address).2 = lenAt code address := by
  have hlow : (load 16 code address).extractLsb' 0 2 = (load 32 code address).extractLsb' 0 2 := by
    rw [← setWidth_load code address (by decide : 16 ≤ 32) (by decide)]
    apply BitVec.eq_of_getLsbD_eq
    intro i hi
    interval_cases i <;> simp
  unfold decode Rv64.decode fetch lenAt
  dsimp only
  rw [getInsnSize_eq]
  by_cases h3 : (load 16 code address).extractLsb' 0 2 = 3
  · have h4 : insnLen (load 16 code address) = 4 := if_pos h3
    rw [h4, if_neg (by decide), if_pos rfl, if_pos (hlow ▸ h3)]
    exact ⟨decodeBaseInstruction_reports (hlow ▸ h3), rfl⟩
  · have h2 : insnLen (load 16 code address) = 2 := if_neg h3
    have hw : ((load 16 code address).setWidth 32).extractLsb' 0 2 ≠ 3 := by
      rwa [← getBits_eq _ (by decide), getBits_setWidth _ (by decide)]
    rw [h2, if_pos rfl, if_neg (by decide : ¬ 2 = 4), if_neg hw,
      BitVec.setWidth_setWidth_of_le _ (by decide), BitVec.setWidth_eq]
    exact ⟨decodeCompressedInstruction_reports _, rfl⟩

end Decoder
end Rv64Hook.Berberis
