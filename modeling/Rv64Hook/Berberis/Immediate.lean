import Rv64Hook.Lib.ByteMem

/-! The immediates of the assembler, in the form in which they are OR-ed into an instruction. -/
namespace Rv64Hook.Berberis

/-- What the immediate classes differ in. A negative value must have every bit of the input
mask set, except those in `lowBits`, which are zero in every accepted value. -/
structure ImmediateFormat where
  unsigned64bitInputMask : BitVec 64
  lowBits : BitVec 64
  makeRaw : BitVec 32 → BitVec 32

namespace ImmediateFormat

/-- `AccetableValue` for an unsigned type of `w` bits. -/
def accetableUnsigned (k : ImmediateFormat) {w : ℕ} (value : BitVec w) : Bool :=
  value &&& k.unsigned64bitInputMask.setWidth w == 0

/-- `AccetableValue` for a signed type of `w` bits. -/
def accetableSigned (k : ImmediateFormat) {w : ℕ} (value : BitVec w) : Bool :=
  let mask := k.unsigned64bitInputMask.setWidth w
  value &&& mask == 0 || value &&& mask == mask &&& ~~~k.lowBits.setWidth w

/-- The encoded value of the immediate made from an unsigned value, unless its `CHECK` fails. -/
def ofUnsigned (k : ImmediateFormat) {w : ℕ} (value : BitVec w) : Option (BitVec 32) :=
  if k.accetableUnsigned value then some (k.makeRaw (value.setWidth 32)) else none

def ofSigned (k : ImmediateFormat) {w : ℕ} (value : BitVec w) : Option (BitVec 32) :=
  if k.accetableSigned value then some (k.makeRaw (value.setWidth 32)) else none

end ImmediateFormat

def bImmediate : ImmediateFormat where
  unsigned64bitInputMask := 0xfffffffffffff001
  lowBits := 1
  makeRaw value := (value &&& 0x80000000) ||| (value &&& 0x00000800).sshiftRight 4 |||
    (value &&& 0x0000001f) <<< 7 ||| (value &&& 0x000007e0) <<< 20

def iImmediate : ImmediateFormat where
  unsigned64bitInputMask := 0xfffffffffffff800
  lowBits := 0
  makeRaw value := value <<< 20

def jImmediate : ImmediateFormat where
  unsigned64bitInputMask := 0xfffffffffff00001
  lowBits := 1
  makeRaw value := (value &&& 0x800ff000) ||| (value &&& 0x00000800) <<< 9 |||
    (value &&& 0x000007fe) <<< 20

def sImmediate : ImmediateFormat where
  unsigned64bitInputMask := 0xfffffffffffff800
  lowBits := 0
  makeRaw value := (value &&& 0xffffffe0) <<< 20 ||| (value &&& 0x0000001f) <<< 7

def uImmediate : ImmediateFormat where
  unsigned64bitInputMask := 0xffffffff80000fff
  lowBits := 0xfff
  makeRaw value := value

/-- A sign-extended value of twelve bits is an acceptable I-immediate. -/
theorem iImmediate_ofSigned_signExtend (v : BitVec 12) :
    iImmediate.ofSigned (v.signExtend 32) = some (v.signExtend 32 <<< 20) := by
  have hmask : iImmediate.unsigned64bitInputMask.setWidth 32 = 0xfffff800#32 := by decide
  have hlow : iImmediate.lowBits.setWidth 32 = 0#32 := by decide
  have hacc : iImmediate.accetableSigned (v.signExtend 32) = true := by
    simp only [ImmediateFormat.accetableSigned, hmask, hlow, Bool.or_eq_true, beq_iff_eq]
    cases hv : v.getLsbD 11 with
    | false =>
      left
      apply BitVec.eq_of_getLsbD_eq
      intro i hi
      have hmsb : v.msb = false := by simpa [BitVec.msb_eq_getLsbD_last] using hv
      interval_cases i <;> simp [BitVec.getElem_signExtend, hmsb]
      exact hv
    | true =>
      right
      apply BitVec.eq_of_getLsbD_eq
      intro i hi
      have hmsb : v.msb = true := by simpa [BitVec.msb_eq_getLsbD_last] using hv
      interval_cases i <;> simp [BitVec.getElem_signExtend, hmsb]
      exact hv
  rw [ImmediateFormat.ofSigned, if_pos hacc]
  simp [iImmediate]

end Rv64Hook.Berberis
