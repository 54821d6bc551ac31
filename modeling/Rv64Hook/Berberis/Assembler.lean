import Rv64Hook.Lib.Rv64
import Rv64Hook.Berberis.Immediate

/-! The machine-code buffer, the labels and the RISC-V assembler of berberis, as far as the
relocator uses them. A `CHECK` that fails gives `none`. -/
namespace Rv64Hook.Berberis
open ByteMem Rv64

/-- A label made by `MakeLabel`, or the label the relocator keeps for one address. -/
inductive Label where
  | made (n : ℕ)
  | address (key : BitVec 64)
  deriving DecidableEq

structure Jump where
  label : Label
  pc : BitVec 32

/-- Position of a label that is not bound. -/
def kInvalid : BitVec 32 := 0xffffffff

structure Assembler where
  code : List Byte := []
  jumps : List Jump := []
  position : Label → BitVec 32 := fun _ => kInvalid
  madeLabels : ℕ := 0

namespace Assembler

/-- `code_offset()`: the size of the code, as a `uint32_t`. -/
def pc (a : Assembler) : BitVec 32 := BitVec.ofNat 32 a.code.length

def emit16 (a : Assembler) (v : BitVec 16) : Assembler := { a with code := a.code ++ toBytes 2 v }
def emit32 (a : Assembler) (v : BitVec 32) : Assembler := { a with code := a.code ++ toBytes 4 v }
def emit64 (a : Assembler) (v : BitVec 64) : Assembler := { a with code := a.code ++ toBytes 8 v }

def makeLabel (a : Assembler) : Label × Assembler :=
  (.made a.madeLabels, { a with madeLabels := a.madeLabels + 1 })

def bind (a : Assembler) (label : Label) : Option Assembler :=
  if a.position label = kInvalid then
    some { a with position := Function.update a.position label a.pc }
  else none

/-- Record that the instruction emitted next refers to the label. -/
def pushJump (a : Assembler) (label : Label) : Assembler :=
  { a with jumps := a.jumps ++ [⟨label, a.pc⟩] }

/-! ### Operands -/

def rdOperand (r : Reg) : BitVec 32 := r.setWidth 32 <<< 7
def rs1Operand (r : Reg) : BitVec 32 := r.setWidth 32 <<< 15
def rs2Operand (r : Reg) : BitVec 32 := r.setWidth 32 <<< 20

def uType (opcode : BitVec 32) (rd : Reg) (imm : BitVec 32) : BitVec 32 :=
  opcode ||| rdOperand rd ||| imm

def iType (opcode : BitVec 32) (rd rs1 : Reg) (imm : BitVec 32) : BitVec 32 :=
  opcode ||| rdOperand rd ||| rs1Operand rs1 ||| imm

def bType (opcode : BitVec 32) (rs1 rs2 : Reg) (imm : BitVec 32) : BitVec 32 :=
  opcode ||| rs1Operand rs1 ||| rs2Operand rs2 ||| imm

def jType (opcode : BitVec 32) (rd : Reg) (imm : BitVec 32) : BitVec 32 :=
  opcode ||| rdOperand rd ||| imm

/-! ### Instructions that refer to labels -/

/-- `ld` from a label: an `auipc` and an `ld` through the destination register. -/
def ld (a : Assembler) (rd : Reg) (label : Label) : Assembler :=
  ((a.pushJump label).emit32 (uType 0x00000017 rd 0)).emit32 (iType 0x00003003 rd rd 0)

/-- The conditional jumps to a label, which differ in their opcode only. -/
def conditional (opcode : BitVec 32) (a : Assembler) (rs1 rs2 : Reg) (label : Label) : Assembler :=
  (a.pushJump label).emit32 (bType opcode rs1 rs2 0)

def beq : Assembler → Reg → Reg → Label → Assembler := conditional 0x00000063
def bge : Assembler → Reg → Reg → Label → Assembler := conditional 0x00005063
def bgeu : Assembler → Reg → Reg → Label → Assembler := conditional 0x00007063
def blt : Assembler → Reg → Reg → Label → Assembler := conditional 0x00004063
def bltu : Assembler → Reg → Reg → Label → Assembler := conditional 0x00006063
def bne : Assembler → Reg → Reg → Label → Assembler := conditional 0x00001063

def beqz (a : Assembler) (rs1 : Reg) (label : Label) : Assembler := a.beq rs1 0 label
def bnez (a : Assembler) (rs1 : Reg) (label : Label) : Assembler := a.bne rs1 0 label
def bgez (a : Assembler) (rs1 : Reg) (label : Label) : Assembler := a.bge rs1 0 label
def bltz (a : Assembler) (rs1 : Reg) (label : Label) : Assembler := a.blt rs1 0 label

def jal (a : Assembler) (rd : Reg) (label : Label) : Assembler :=
  (a.pushJump label).emit32 (0x0000006f ||| rdOperand rd)

/-- `imm` is the encoded value of the immediate operand. -/
def jalr (a : Assembler) (rd rs1 : Reg) (imm : BitVec 32) : Assembler :=
  a.emit32 (iType 0x00000067 rd rs1 imm)

def jr (a : Assembler) (rs1 : Reg) : Assembler := a.jalr 0 rs1 0

/-! ### Resolving the jumps -/

/-- The 32-bit word at an offset of the code. -/
def wordAt (code : List Byte) (offset : ℕ) : Option (BitVec 32) :=
  if offset + 4 ≤ code.length then some (ofBytes 32 ((code.drop offset).take 4)) else none

/-- `*AddrAs<int32_t>(offset) |= v` -/
def orWordAt (code : List Byte) (offset : ℕ) (v : BitVec 32) : Option (List Byte) :=
  (wordAt code offset).map fun w =>
    code.take offset ++ toBytes 4 (w ||| v) ++ code.drop (offset + 4)

/-- The part of an offset that goes into the `auipc`, with the sign of the low part added. -/
def topPart (offset : BitVec 32) : BitVec 32 :=
  (offset + (offset &&& 1#32 <<< 11) * 2) &&& 0xfffff000#32

/-- The sign-extended low twelve bits of an offset. -/
def bottomPart (offset : BitVec 32) : BitVec 32 := (offset.setWidth 12).signExtend 32

/-- Patch the offset of one jump into the code. -/
def resolveJump (position : Label → BitVec 32) (code : List Byte) (jump : Jump) :
    Option (List Byte) :=
  if position jump.label = kInvalid then none
  else do
    let pc := jump.pc.toNat
    let offset := position jump.label - jump.pc
    let w ← wordAt code pc
    if w &&& 16 ≠ 0 then
      match uImmediate.ofSigned offset with
      | some imm => orWordAt code pc imm
      | none =>
        let top ← uImmediate.ofSigned (topPart offset)
        let code ← orWordAt code pc top
        let w ← wordAt code (pc + 4)
        let bottom ← (if w &&& 96 = 32 then sImmediate.ofSigned (bottomPart offset)
          else iImmediate.ofSigned (bottomPart offset))
        orWordAt code (pc + 4) bottom
    else if w &&& 4 ≠ 0 then do
      let imm ← jImmediate.ofSigned offset
      orWordAt code pc imm
    else do
      let imm ← bImmediate.ofSigned offset
      orWordAt code pc imm

def resolveJumps (position : Label → BitVec 32) : List Jump → List Byte → Option (List Byte)
  | [], code => some code
  | jump :: rest, code => (resolveJump position code jump).bind (resolveJumps position rest)

def finalize (a : Assembler) : Option Assembler :=
  (resolveJumps a.position a.jumps a.code).map fun code => { a with code := code }

/-! ### Patching a word in the middle of the code -/

variable {position : Label → BitVec 32} {pre : List Byte} {w w' imm : BitVec 32}

theorem wordAt_append {offset : ℕ} {post : List Byte} (h : pre.length = offset) :
    wordAt (pre ++ (toBytes 4 w ++ post)) offset = some w := by
  subst h
  have ht : ((pre ++ (toBytes 4 w ++ post)).drop pre.length).take 4 = toBytes 4 w := by
    rw [List.drop_left, List.take_left' (length_toBytes 4 w)]
  rw [wordAt, ht, ofBytes_toBytes w (by decide), if_pos (by simp)]

theorem orWordAt_append {offset : ℕ} {post : List Byte} (h : pre.length = offset) :
    orWordAt (pre ++ (toBytes 4 w ++ post)) offset imm =
      some (pre ++ (toBytes 4 (w ||| imm) ++ post)) := by
  have hd : (pre ++ (toBytes 4 w ++ post)).drop (pre.length + 4) = post := by
    rw [← List.append_assoc]
    exact List.drop_left' (by simp)
  subst h
  rw [orWordAt, wordAt_append rfl, Option.map_some, List.take_left, hd, List.append_assoc]

theorem toNat_and_top (v : BitVec 32) : (v &&& 0xfffff000#32).toNat = v.toNat / 4096 * 4096 := by
  have h : v &&& 0xfffff000#32 = (v >>> 12) <<< 12 := by
    apply BitVec.eq_of_getLsbD_eq
    intro i hi
    interval_cases i <;> simp
  have hv := v.isLt
  rw [h, BitVec.toNat_shiftLeft, BitVec.toNat_ushiftRight, Nat.shiftLeft_eq,
    Nat.shiftRight_eq_div_pow]
  omega

theorem toNat_and_bit11 (v : BitVec 32) :
    (v &&& 1#32 <<< 11).toNat = v.toNat / 2048 % 2 * 2048 := by
  have h : v &&& 1#32 <<< 11 = ((v >>> 11).setWidth 1).setWidth 32 <<< 11 := by
    apply BitVec.eq_of_getLsbD_eq
    intro i hi
    interval_cases i <;> simp
  rw [h, BitVec.toNat_shiftLeft, BitVec.toNat_setWidth, BitVec.toNat_setWidth,
    BitVec.toNat_ushiftRight, Nat.shiftLeft_eq, Nat.shiftRight_eq_div_pow]
  omega

/-- The top part is the offset rounded to a multiple of 4096, ties upwards. -/
theorem toNat_topPart {offset : BitVec 32} (h : offset.toNat + 2048 < 2 ^ 32) :
    (topPart offset).toNat = (offset.toNat + 2048) / 4096 * 4096 := by
  have h2 : BitVec.toNat (2 : BitVec 32) = 2 := rfl
  rw [topPart, toNat_and_top, BitVec.toNat_add, BitVec.toNat_mul, toNat_and_bit11, h2]
  rcases Nat.mod_two_eq_zero_or_one (offset.toNat / 2048) with hb | hb <;> rw [hb] <;> omega

theorem uImmediate_topPart (offset : BitVec 32) :
    uImmediate.ofSigned (topPart offset) = some (topPart offset) := by
  have hmask : uImmediate.unsigned64bitInputMask.setWidth 32 = 0x80000fff#32 := by decide
  have hlow : uImmediate.lowBits.setWidth 32 = 0xfff#32 := by decide
  have hacc : uImmediate.accetableSigned (topPart offset) = true := by
    simp only [ImmediateFormat.accetableSigned, hmask, hlow, Bool.or_eq_true, beq_iff_eq, topPart]
    generalize offset + (offset &&& 1#32 <<< 11) * 2 = v
    cases hv : v.getLsbD 31 with
    | false =>
      left
      apply BitVec.eq_of_getLsbD_eq
      intro i hi
      interval_cases i <;> simp
      exact hv
    | true =>
      right
      apply BitVec.eq_of_getLsbD_eq
      intro i hi
      interval_cases i <;> simp
      exact hv
  rw [ImmediateFormat.ofSigned, if_pos hacc]
  simp [uImmediate]

/-- An offset that is itself an acceptable U-immediate has no low part. -/
theorem parts_of_uImmediate {offset imm : BitVec 32} (h : uImmediate.ofSigned offset = some imm) :
    imm = topPart offset ∧ bottomPart offset = 0 := by
  have hmask : uImmediate.unsigned64bitInputMask.setWidth 32 = 0x80000fff#32 := by decide
  have hlow : uImmediate.lowBits.setWidth 32 = 0xfff#32 := by decide
  unfold ImmediateFormat.ofSigned at h
  split at h
  · rename_i hacc
    have himm : imm = offset := by simpa [uImmediate] using (Option.some.inj h).symm
    have hz : offset.setWidth 12 = 0#12 := by
      simp only [ImmediateFormat.accetableSigned, hmask, hlow, Bool.or_eq_true, beq_iff_eq] at hacc
      apply BitVec.eq_of_getLsbD_eq
      intro i hi
      rcases hacc with hacc | hacc
      all_goals
        have hg := congrArg (fun v : BitVec 32 => v.getLsbD i) hacc
        interval_cases i <;> simpa using hg
    have hlt := congrArg BitVec.toNat hz
    rw [BitVec.toNat_setWidth, BitVec.toNat_ofNat] at hlt
    refine ⟨?_, by rw [bottomPart, hz]; decide⟩
    have ho := offset.isLt
    apply BitVec.eq_of_toNat_eq
    rw [himm, toNat_topPart (by omega)]
    omega
  · exact absurd h (by simp)

/-- Resolving the `auipc` pair of a label splits the offset between the two instructions,
whether or not the low part is zero. -/
theorem resolveJump_upper (post : List Byte) {label : Label} {pc : BitVec 32}
    (hpc : pre.length = pc.toNat)
    (hbound : position label ≠ kInvalid) (hw : w &&& 16 ≠ 0) (hw' : w' &&& 96 ≠ 32) :
    resolveJump position (pre ++ (toBytes 4 w ++ (toBytes 4 w' ++ post))) ⟨label, pc⟩ =
      some (pre ++ (toBytes 4 (w ||| topPart (position label - pc)) ++
        (toBytes 4 (w' ||| bottomPart (position label - pc) <<< 20) ++ post))) := by
  generalize ho : position label - pc = offset
  simp only [resolveJump, if_neg hbound, wordAt_append hpc, ho, Option.bind_eq_bind,
    Option.bind_some, if_pos hw]
  cases hu : uImmediate.ofSigned offset with
  | some imm =>
    obtain ⟨himm, hbot⟩ := parts_of_uImmediate hu
    rw [himm, hbot]
    simp only [orWordAt_append hpc]
    simp
  | none =>
    have hmid : ∀ v : BitVec 32, pre ++ (toBytes 4 v ++ (toBytes 4 w' ++ post)) =
        (pre ++ toBytes 4 v) ++ (toBytes 4 w' ++ post) := fun v => by simp
    have hlen : ∀ v : BitVec 32, (pre ++ toBytes 4 v).length = pc.toNat + 4 := fun v => by
      simp [hpc]
    have hb : iImmediate.ofSigned (bottomPart offset) = some (bottomPart offset <<< 20) :=
      iImmediate_ofSigned_signExtend _
    simp only [uImmediate_topPart, Option.bind_some, orWordAt_append hpc]
    rw [hmid]
    simp only [wordAt_append (hlen _), Option.bind_some, if_neg hw', hb,
      orWordAt_append (hlen _)]
    simp

theorem resolveJump_jal (post : List Byte) {label : Label} {pc : BitVec 32}
    (hpc : pre.length = pc.toNat)
    (hbound : position label ≠ kInvalid) (h16 : w &&& 16 = 0) (h4 : w &&& 4 ≠ 0)
    (himm : jImmediate.ofSigned (position label - pc) = some imm) :
    resolveJump position (pre ++ (toBytes 4 w ++ post)) ⟨label, pc⟩ =
      some (pre ++ (toBytes 4 (w ||| imm) ++ post)) := by
  simp only [resolveJump, if_neg hbound, wordAt_append hpc, Option.bind_eq_bind,
    Option.bind_some, if_neg (not_not.mpr h16), if_pos h4, himm, orWordAt_append hpc]

theorem resolveJump_branch (post : List Byte) {label : Label} {pc : BitVec 32}
    (hpc : pre.length = pc.toNat)
    (hbound : position label ≠ kInvalid) (h16 : w &&& 16 = 0) (h4 : w &&& 4 = 0)
    (himm : bImmediate.ofSigned (position label - pc) = some imm) :
    resolveJump position (pre ++ (toBytes 4 w ++ post)) ⟨label, pc⟩ =
      some (pre ++ (toBytes 4 (w ||| imm) ++ post)) := by
  simp only [resolveJump, if_neg hbound, wordAt_append hpc, Option.bind_eq_bind,
    Option.bind_some, if_neg (not_not.mpr h16), if_neg (not_not.mpr h4), himm,
    orWordAt_append hpc]

theorem resolveJumps_append (xs ys : List Jump) (code : List Byte) :
    resolveJumps position (xs ++ ys) code =
      (resolveJumps position xs code).bind (resolveJumps position ys) := by
  induction xs generalizing code with
  | nil => rfl
  | cons x xs ih =>
    simp only [List.cons_append, resolveJumps, Option.bind_assoc]
    congr 1
    funext c
    exact ih c

theorem length_orWordAt {code code' : List Byte} {offset : ℕ} {v : BitVec 32}
    (h : orWordAt code offset v = some code') : code'.length = code.length := by
  unfold orWordAt wordAt at h
  split at h
  · obtain rfl := Option.some.inj h
    simp only [List.length_append, List.length_take, List.length_drop, length_toBytes]
    omega
  · cases h

theorem length_resolveJump {code code' : List Byte} {jump : Jump}
    (h : resolveJump position code jump = some code') : code'.length = code.length := by
  unfold resolveJump at h
  split at h
  · cases h
  · obtain ⟨w, -, h⟩ := Option.bind_eq_some_iff.mp h
    split at h
    · split at h
      · exact length_orWordAt h
      · obtain ⟨top, -, h⟩ := Option.bind_eq_some_iff.mp h
        obtain ⟨c, hc, h⟩ := Option.bind_eq_some_iff.mp h
        obtain ⟨w', -, h⟩ := Option.bind_eq_some_iff.mp h
        obtain ⟨bottom, -, h⟩ := Option.bind_eq_some_iff.mp h
        exact (length_orWordAt h).trans (length_orWordAt hc)
    · split at h
      all_goals
        obtain ⟨imm, -, h⟩ := Option.bind_eq_some_iff.mp h
        exact length_orWordAt h

theorem length_resolveJumps {code code' : List Byte} {jumps : List Jump}
    (h : resolveJumps position jumps code = some code') : code'.length = code.length := by
  induction jumps generalizing code with
  | nil => rw [Option.some.inj h]
  | cons jump jumps ih =>
    obtain ⟨c, hc, h⟩ := Option.bind_eq_some_iff.mp h
    exact (ih h).trans (length_resolveJump hc)

end Assembler
end Rv64Hook.Berberis
