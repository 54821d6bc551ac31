import Rv64Hook.Lib.ByteMem

/-! User-level RV64 states, and the control transfers, `lui`, `auipc` and `ld` of RV64GC. What
every other instruction does to the state is a parameter of the machine. -/
namespace Rv64
open ByteMem

abbrev Word := BitVec 64
abbrev Reg := BitVec 5

def ra : Reg := 1
def sp : Reg := 2
def t3 : Reg := 28

/-- Everything but the program counter. `rest` stands for the control and vector state. -/
structure Core (Ω : Type) where
  x : Reg → Word
  f : Reg → Word
  rest : Ω
  mem : Mem

structure State (Ω : Type) where
  pc : Word
  core : Core Ω

variable {Ω : Type}

namespace Core

/-- Register `x0` reads as zero. -/
def reg (c : Core Ω) (r : Reg) : Word := if r = 0 then 0 else c.x r

def setReg (c : Core Ω) (r : Reg) (v : Word) : Core Ω :=
  if r = 0 then c else { c with x := Function.update c.x r v }

/-- The two states differ at most in register `r`. -/
structure AgreeOff (r : Reg) (c d : Core Ω) : Prop where
  x : ∀ i, i ≠ r → d.x i = c.x i
  f : d.f = c.f
  rest : d.rest = c.rest
  mem : d.mem = c.mem

end Core

inductive BranchCond where
  | beq | bne | blt | bge | bltu | bgeu
  deriving DecidableEq

def BranchCond.holds : BranchCond → Word → Word → Bool
  | .beq, a, b => a == b
  | .bne, a, b => a != b
  | .blt, a, b => a.slt b
  | .bge, a, b => !a.slt b
  | .bltu, a, b => a.ult b
  | .bgeu, a, b => !a.ult b

inductive Instr where
  | lui (rd : Reg) (imm : Word)
  | auipc (rd : Reg) (imm : Word)
  | jal (rd : Reg) (offset : Word)
  | jalr (rd rs1 : Reg) (offset : Word)
  | branch (cond : BranchCond) (rs1 rs2 : Reg) (offset : Word)
  | ld (rd rs1 : Reg) (offset : Word)
  | other
  deriving DecidableEq

def rdField (w : BitVec 32) : Reg := w.extractLsb' 7 5
def rs1Field (w : BitVec 32) : Reg := w.extractLsb' 15 5
def rs2Field (w : BitVec 32) : Reg := w.extractLsb' 20 5

def immI (w : BitVec 32) : Word := (w.extractLsb' 20 12).signExtend 64
def immU (w : BitVec 32) : Word := (w.extractLsb' 12 20 ++ 0#12).signExtend 64

def immB (w : BitVec 32) : Word :=
  (w.extractLsb' 31 1 ++ w.extractLsb' 7 1 ++ w.extractLsb' 25 6 ++ w.extractLsb' 8 4 ++
    0#1).signExtend 64

def immJ (w : BitVec 32) : Word :=
  (w.extractLsb' 31 1 ++ w.extractLsb' 12 8 ++ w.extractLsb' 20 1 ++ w.extractLsb' 21 10 ++
    0#1).signExtend 64

def branchCond (funct3 : BitVec 3) : Option BranchCond :=
  if funct3 = 0 then some .beq
  else if funct3 = 1 then some .bne
  else if funct3 = 4 then some .blt
  else if funct3 = 5 then some .bge
  else if funct3 = 6 then some .bltu
  else if funct3 = 7 then some .bgeu
  else none

def decode32 (w : BitVec 32) : Instr :=
  let opcode := w.extractLsb' 0 7
  let funct3 := w.extractLsb' 12 3
  if opcode = 0x37 then .lui (rdField w) (immU w)
  else if opcode = 0x17 then .auipc (rdField w) (immU w)
  else if opcode = 0x6f then .jal (rdField w) (immJ w)
  else if opcode = 0x67 then
    if funct3 = 0 then .jalr (rdField w) (rs1Field w) (immI w) else .other
  else if opcode = 0x63 then
    match branchCond funct3 with
    | some cond => .branch cond (rs1Field w) (rs2Field w) (immB w)
    | none => .other
  else if opcode = 0x03 then
    if funct3 = 3 then .ld (rdField w) (rs1Field w) (immI w) else .other
  else .other

/-- Offset of `c.j`. -/
def immCJ (w : BitVec 16) : Word :=
  (w.extractLsb' 12 1 ++ w.extractLsb' 8 1 ++ w.extractLsb' 9 2 ++ w.extractLsb' 6 1 ++
    w.extractLsb' 7 1 ++ w.extractLsb' 2 1 ++ w.extractLsb' 11 1 ++ w.extractLsb' 3 3 ++
    0#1).signExtend 64

/-- Offset of `c.beqz` and `c.bnez`. -/
def immCB (w : BitVec 16) : Word :=
  (w.extractLsb' 12 1 ++ w.extractLsb' 5 2 ++ w.extractLsb' 2 1 ++ w.extractLsb' 10 2 ++
    w.extractLsb' 3 2 ++ 0#1).signExtend 64

/-- The register a three-bit field of a compressed instruction names. -/
def creg (r : BitVec 3) : Reg := 1#2 ++ r

def decode16 (w : BitVec 16) : Instr :=
  let quadrant := w.extractLsb' 0 2
  let funct3 := w.extractLsb' 13 3
  let rs1 := w.extractLsb' 7 5
  if quadrant = 1 ∧ funct3 = 5 then .jal 0 (immCJ w)
  else if quadrant = 1 ∧ funct3 = 6 then .branch .beq (creg (w.extractLsb' 7 3)) 0 (immCB w)
  else if quadrant = 1 ∧ funct3 = 7 then .branch .bne (creg (w.extractLsb' 7 3)) 0 (immCB w)
  else if quadrant = 2 ∧ funct3 = 4 ∧ w.extractLsb' 2 5 = 0 ∧ rs1 ≠ 0 then
    .jalr (if w.extractLsb' 12 1 = 0 then 0 else 1) rs1 0
  else .other

/-- Length in bytes of the instruction that starts with this parcel. -/
def insnLen (parcel : BitVec 16) : ℕ := if parcel.extractLsb' 0 2 = 3 then 4 else 2

/-- The instruction bits at `pc`; a compressed instruction has zeros above bit 15. -/
def fetch (code : Mem) (pc : Word) : BitVec 32 :=
  if insnLen (load 16 code pc) = 4 then load 32 code pc else (load 16 code pc).setWidth 32

def lenAt (code : Mem) (pc : Word) : ℕ := insnLen (load 16 code pc)

def decode (raw : BitVec 32) : Instr :=
  if raw.extractLsb' 0 2 = 3 then decode32 raw else decode16 (raw.setWidth 16)

/-- Whether an instruction let the control fall through, or sent it elsewhere with a link
register (`x0` where it has none). -/
inductive Event where
  | fall
  | jump (link : Reg)
  deriving DecidableEq

/-- One instruction. `sem` gives the effect of the instructions that `decode` calls `other`. -/
def exec (sem : BitVec 32 → Core Ω → Core Ω) (raw : BitVec 32) (len : ℕ) (s : State Ω) :
    State Ω × Event :=
  let next := s.pc + BitVec.ofNat 64 len
  match decode raw with
  | .lui rd imm => (⟨next, s.core.setReg rd imm⟩, .fall)
  | .auipc rd imm => (⟨next, s.core.setReg rd (s.pc + imm)⟩, .fall)
  | .jal rd offset => (⟨s.pc + offset, s.core.setReg rd next⟩, .jump rd)
  | .jalr rd rs1 offset =>
    (⟨(s.core.reg rs1 + offset) &&& ~~~1#64, s.core.setReg rd next⟩, .jump rd)
  | .branch cond rs1 rs2 offset =>
    if cond.holds (s.core.reg rs1) (s.core.reg rs2) then (⟨s.pc + offset, s.core⟩, .jump 0)
    else (⟨next, s.core⟩, .fall)
  | .ld rd rs1 offset =>
    (⟨next, s.core.setReg rd (load 64 s.core.mem (s.core.reg rs1 + offset))⟩, .fall)
  | .other => (⟨next, sem raw s.core⟩, .fall)

/-- One step of the machine whose instruction fetch sees the image `code`. -/
def step (sem : BitVec 32 → Core Ω → Core Ω) (code : Mem) (s : State Ω) : State Ω × Event :=
  exec sem (fetch code s.pc) (lenAt code s.pc) s

theorem lenAt_cases (code : Mem) (pc : Word) : lenAt code pc = 2 ∨ lenAt code pc = 4 := by
  unfold lenAt insnLen
  split
  · exact Or.inr rfl
  · exact Or.inl rfl

/-- Where control falls through to. -/
theorem exec_fall {sem : BitVec 32 → Core Ω → Core Ω} {raw : BitVec 32} {len : ℕ} {s u : State Ω}
    (h : exec sem raw len s = (u, .fall)) : u.pc = s.pc + BitVec.ofNat 64 len := by
  unfold exec at h
  cases hd : decode raw with
  | jal | jalr =>
    rw [hd] at h
    exact absurd (congrArg Prod.snd h) (by simp)
  | branch cond rs1 rs2 offset =>
    rw [hd] at h
    dsimp only at h
    split at h
    · exact absurd (congrArg Prod.snd h) (by simp)
    · exact (congrArg (State.pc ∘ Prod.fst) h).symm
  | lui | auipc | ld | other =>
    rw [hd] at h
    exact (congrArg (State.pc ∘ Prod.fst) h).symm

/-- A jump writes its link register and nothing else. -/
theorem exec_jump {sem : BitVec 32 → Core Ω → Core Ω} {raw : BitVec 32} {len : ℕ} {s u : State Ω}
    {link : Reg} (h : exec sem raw len s = (u, .jump link)) :
    u.core = s.core.setReg link (s.pc + BitVec.ofNat 64 len) := by
  unfold exec at h
  cases hd : decode raw with
  | jal | jalr =>
    rw [hd] at h
    obtain ⟨hu, hl⟩ := Prod.mk.inj h
    obtain rfl := Event.jump.inj hl
    exact (congrArg State.core hu).symm
  | branch cond rs1 rs2 offset =>
    rw [hd] at h
    dsimp only at h
    split at h
    · obtain ⟨hu, hl⟩ := Prod.mk.inj h
      obtain rfl := Event.jump.inj hl
      exact (congrArg State.core hu).symm
    · exact absurd (congrArg Prod.snd h) (by simp)
  | lui | auipc | ld | other =>
    rw [hd] at h
    exact absurd (congrArg Prod.snd h) (by simp)

/-! ### Alignment -/

def Aligned (pc : Word) : Prop := pc.toNat % 2 = 0

instance (pc : Word) : Decidable (Aligned pc) :=
  inferInstanceAs (Decidable (pc.toNat % 2 = 0))

theorem Aligned.add {a b : Word} (ha : Aligned a) (hb : Aligned b) : Aligned (a + b) := by
  unfold Aligned at *
  rw [BitVec.toNat_add]
  omega

theorem aligned_iff {a : Word} : Aligned a ↔ a.getLsbD 0 = false := by
  unfold Aligned BitVec.getLsbD
  rw [Nat.testBit_zero, decide_eq_false_iff_not]
  omega

/-- A jump through a register goes to an aligned address unchanged. -/
theorem Aligned.and_not_one {a : Word} (h : Aligned a) : a &&& ~~~1#64 = a := by
  apply BitVec.eq_of_getLsbD_eq
  intro i hi
  cases i with
  | zero => simpa using (aligned_iff.mp h).symm
  | succ i =>
    simp only [BitVec.getLsbD_and, BitVec.getLsbD_not, BitVec.getLsbD_one, hi]
    simp

theorem aligned_signExtend_append {w : ℕ} (v : BitVec w) :
    Aligned ((v ++ 0#1).signExtend 64) := by
  rw [aligned_iff, BitVec.getLsbD_signExtend, BitVec.getLsbD_append]
  simp

/-- The targets of branches and of `jal` lie at even distances. -/
theorem aligned_of_decode {raw : BitVec 32} {offset : Word}
    (h : (∃ rd, decode raw = .jal rd offset) ∨
      ∃ cond rs1 rs2, decode raw = .branch cond rs1 rs2 offset) : Aligned offset := by
  have hb : ∀ w, Aligned (immB w) := fun w => aligned_signExtend_append _
  have hj : ∀ w, Aligned (immJ w) := fun w => aligned_signExtend_append _
  have hcj : ∀ w, Aligned (immCJ w) := fun w => aligned_signExtend_append _
  have hcb : ∀ w, Aligned (immCB w) := fun w => aligned_signExtend_append _
  rcases h with ⟨rd, h⟩ | ⟨cond, rs1, rs2, h⟩
  · unfold decode at h
    split at h
    · unfold decode32 at h
      dsimp only at h
      split_ifs at h
      · exact (Instr.jal.inj h).2 ▸ hj _
      · split at h <;> cases h
    · unfold decode16 at h
      dsimp only at h
      split_ifs at h
      exact (Instr.jal.inj h).2 ▸ hcj _
  · unfold decode at h
    split at h
    · unfold decode32 at h
      dsimp only at h
      split_ifs at h
      split at h
      · exact (Instr.branch.inj h).2.2.2 ▸ hb _
      · cases h
    · unfold decode16 at h
      dsimp only at h
      split_ifs at h
      · exact (Instr.branch.inj h).2.2.2 ▸ hcb _
      · exact (Instr.branch.inj h).2.2.2 ▸ hcb _

/-! ### Registers -/

namespace Core

variable {c d : Core Ω} {r i : Reg} {v : Word}

@[simp] theorem reg_zero (c : Core Ω) : c.reg 0 = 0 := rfl

@[simp] theorem setReg_zero (c : Core Ω) (v : Word) : c.setReg 0 v = c := rfl

@[simp] theorem setReg_mem (c : Core Ω) (r : Reg) (v : Word) : (c.setReg r v).mem = c.mem := by
  unfold setReg
  split <;> rfl

@[simp] theorem setReg_f (c : Core Ω) (r : Reg) (v : Word) : (c.setReg r v).f = c.f := by
  unfold setReg
  split <;> rfl

@[simp] theorem setReg_rest (c : Core Ω) (r : Reg) (v : Word) : (c.setReg r v).rest = c.rest := by
  unfold setReg
  split <;> rfl

theorem reg_of_ne (hr : r ≠ 0) : c.reg r = c.x r := if_neg hr

theorem setReg_x_self (hr : r ≠ 0) : (c.setReg r v).x r = v := by
  rw [setReg, if_neg hr]
  exact Function.update_self r v c.x

theorem setReg_x_of_ne (h : i ≠ r) : (c.setReg r v).x i = c.x i := by
  unfold setReg
  split
  · rfl
  · simp [Function.update_of_ne h]

theorem reg_setReg_self (hr : r ≠ 0) : (c.setReg r v).reg r = v := by
  rw [reg_of_ne hr, setReg_x_self hr]

theorem reg_setReg_of_ne (h : i ≠ r) : (c.setReg r v).reg i = c.reg i := by
  unfold reg
  rw [setReg_x_of_ne h]

/-- Writes to two registers can be swapped. -/
theorem setReg_comm (c : Core Ω) {i j : Reg} (h : i ≠ j) (u v : Word) :
    (c.setReg i u).setReg j v = (c.setReg j v).setReg i u := by
  by_cases hi : i = 0
  · rw [hi, setReg_zero, setReg_zero]
  by_cases hj : j = 0
  · rw [hj, setReg_zero, setReg_zero]
  simp only [setReg, if_neg hi, if_neg hj, Function.update_comm h]

theorem setReg_setReg (c : Core Ω) (r : Reg) (u v : Word) :
    (c.setReg r u).setReg r v = c.setReg r v := by
  unfold setReg
  split
  · rfl
  · simp

@[ext] theorem ext (hx : c.x = d.x) (hf : c.f = d.f) (hr : c.rest = d.rest)
    (hm : c.mem = d.mem) : c = d := by
  cases c
  cases d
  simp_all

namespace AgreeOff

theorem refl (r : Reg) (c : Core Ω) : AgreeOff r c c := ⟨fun _ _ => rfl, rfl, rfl, rfl⟩

theorem trans {e : Core Ω} (h : AgreeOff r c d) (h' : AgreeOff r d e) : AgreeOff r c e :=
  ⟨fun i hi => (h'.x i hi).trans (h.x i hi), h'.f.trans h.f, h'.rest.trans h.rest,
    h'.mem.trans h.mem⟩

theorem reg (h : AgreeOff r c d) (hi : i ≠ r) : d.reg i = c.reg i := by
  unfold Core.reg
  rw [h.x i hi]

/-- Writing one value to one register keeps the agreement. -/
theorem setReg (h : AgreeOff r c d) (i : Reg) (v : Word) :
    AgreeOff r (c.setReg i v) (d.setReg i v) := by
  refine ⟨fun j hj => ?_, by simp [h.f], by simp [h.rest], by simp [h.mem]⟩
  by_cases hi : i = 0
  · rw [hi, setReg_zero, setReg_zero, h.x j hj]
  · by_cases hji : j = i
    · rw [hji, setReg_x_self hi, setReg_x_self hi]
    · rw [setReg_x_of_ne hji, setReg_x_of_ne hji, h.x j hj]

/-- The register the states may differ in can be overwritten on the right alone. -/
theorem setReg_right (h : AgreeOff r c d) (v : Word) : AgreeOff r c (d.setReg r v) :=
  ⟨fun _ hj => (setReg_x_of_ne hj).trans (h.x _ hj), by simp [h.f], by simp [h.rest],
    by simp [h.mem]⟩

/-- States that agree off a register are related by a write to it. -/
theorem eq_setReg (h : AgreeOff r c d) (hr : r ≠ 0) : d = c.setReg r (d.x r) := by
  apply Core.ext
  · funext j
    by_cases hj : j = r
    · rw [hj, setReg_x_self hr]
    · rw [setReg_x_of_ne hj, h.x j hj]
  · simp [h.f]
  · simp [h.rest]
  · simp [h.mem]

end AgreeOff
end Core
end Rv64
