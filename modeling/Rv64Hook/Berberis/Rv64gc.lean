import Rv64Hook.Berberis.Decoder

/-! The instructions of RV64GC, and that the decoder fires one callback for each of them but the
no-operations among the forms of `c.addi`. -/
namespace Rv64Hook.Berberis
open ByteMem Rv64

namespace Rv64gc

def opcode (w : BitVec 32) : BitVec 5 := w.extractLsb' 2 5

def funct3 (w : BitVec 32) : BitVec 3 := w.extractLsb' 12 3

def funct5 (w : BitVec 32) : BitVec 5 := w.extractLsb' 27 5

def funct7 (w : BitVec 32) : BitVec 7 := w.extractLsb' 25 7

/-- The precision of a floating-point instruction, single or double. -/
def fmt (w : BitVec 32) : BitVec 2 := w.extractLsb' 25 2

/-- The field of `funct3` is a rounding mode. -/
def Rounds (w : BitVec 32) : Prop := funct3 w ≠ 0b101 ∧ funct3 w ≠ 0b110

/-- The 32-bit instructions of I, M, A, F, D, Zicsr and Zifencei, hints included. -/
inductive Base (w : BitVec 32) : Prop where
  | load (h : opcode w = 0b00000) (hf : funct3 w ≠ 0b111)
  | loadFp (h : opcode w = 0b00001) (hf : funct3 w = 0b010 ∨ funct3 w = 0b011)
  | fence (h : opcode w = 0b00011) (hf : funct3 w = 0b000 ∨ funct3 w = 0b001)
  | opImm (h : opcode w = 0b00100) (hf : funct3 w ≠ 0b001 ∧ funct3 w ≠ 0b101)
  | shiftImm (h : opcode w = 0b00100) (hf : funct3 w = 0b001 ∧ w.extractLsb' 26 6 = 0 ∨
      funct3 w = 0b101 ∧ (w.extractLsb' 26 6 = 0 ∨ w.extractLsb' 26 6 = 0b010000))
  | auipc (h : opcode w = 0b00101)
  | addiw (h : opcode w = 0b00110) (hf : funct3 w = 0b000)
  | shiftImm32 (h : opcode w = 0b00110) (hf : funct3 w = 0b001 ∧ funct7 w = 0 ∨
      funct3 w = 0b101 ∧ (funct7 w = 0 ∨ funct7 w = 0b0100000))
  | store (h : opcode w = 0b01000) (hf : funct3 w ≤ 0b011)
  | storeFp (h : opcode w = 0b01001) (hf : funct3 w = 0b010 ∨ funct3 w = 0b011)
  | loadReserved (h : opcode w = 0b01011) (hf : funct3 w = 0b010 ∨ funct3 w = 0b011)
      (h5 : funct5 w = 0b00010) (hrs2 : rs2Field w = 0)
  | amo (h : opcode w = 0b01011) (hf : funct3 w = 0b010 ∨ funct3 w = 0b011)
      (h5 : funct5 w ∈ [0b00000, 0b00001, 0b00011, 0b00100, 0b01000, 0b01100, 0b10000, 0b10100,
        0b11000, 0b11100])
  | op (h : opcode w = 0b01100) (hf : funct7 w = 0 ∨ funct7 w = 1 ∨
      funct7 w = 0b0100000 ∧ (funct3 w = 0b000 ∨ funct3 w = 0b101))
  | lui (h : opcode w = 0b01101)
  | op32 (h : opcode w = 0b01110) (hf : funct7 w = 0 ∧ funct3 w ∈ [0b000, 0b001, 0b101] ∨
      funct7 w = 1 ∧ funct3 w ∈ [0b000, 0b100, 0b101, 0b110, 0b111] ∨
      funct7 w = 0b0100000 ∧ funct3 w ∈ [0b000, 0b101])
  | fma (h : opcode w ∈ [0b10000, 0b10001, 0b10010, 0b10011]) (hw : fmt w ≤ 1) (hr : Rounds w)
  | opFp (h : opcode w = 0b10100) (hw : fmt w ≤ 1) (h5 : funct5 w ≤ 0b00011) (hr : Rounds w)
  | fsgnj (h : opcode w = 0b10100) (hw : fmt w ≤ 1) (h5 : funct5 w = 0b00100)
      (hf : funct3 w ≤ 0b010)
  | fminFmax (h : opcode w = 0b10100) (hw : fmt w ≤ 1) (h5 : funct5 w = 0b00101)
      (hf : funct3 w ≤ 0b001)
  | fcvtFloat (h : opcode w = 0b10100) (h5 : funct5 w = 0b01000)
      (hw : fmt w = 0 ∧ rs2Field w = 1 ∨ fmt w = 1 ∧ rs2Field w = 0) (hr : Rounds w)
  | fsqrt (h : opcode w = 0b10100) (hw : fmt w ≤ 1) (h5 : funct5 w = 0b01011)
      (hrs2 : rs2Field w = 0) (hr : Rounds w)
  | fcompare (h : opcode w = 0b10100) (hw : fmt w ≤ 1) (h5 : funct5 w = 0b10100)
      (hf : funct3 w ≤ 0b010)
  | fcvtInteger (h : opcode w = 0b10100) (hw : fmt w ≤ 1)
      (h5 : funct5 w = 0b11000 ∨ funct5 w = 0b11010) (hrs2 : rs2Field w ≤ 3) (hr : Rounds w)
  | fmvToInteger (h : opcode w = 0b10100) (hw : fmt w ≤ 1) (h5 : funct5 w = 0b11100)
      (hrs2 : rs2Field w = 0) (hf : funct3 w ≤ 0b001)
  | fmvFromInteger (h : opcode w = 0b10100) (hw : fmt w ≤ 1) (h5 : funct5 w = 0b11110)
      (hrs2 : rs2Field w = 0) (hf : funct3 w = 0b000)
  | branch (h : opcode w = 0b11000) (hf : funct3 w ≠ 0b010 ∧ funct3 w ≠ 0b011)
  | jalr (h : opcode w = 0b11001) (hf : funct3 w = 0b000)
  | jal (h : opcode w = 0b11011)
  | ecall (h : w = 0x00000073)
  | ebreak (h : w = 0x00100073)
  | csr (h : opcode w = 0b11100) (hf : funct3 w ≠ 0b000 ∧ funct3 w ≠ 0b100)

/-- The quadrant of a compressed instruction. -/
def quadrant (p : BitVec 16) : BitVec 2 := p.extractLsb' 0 2

def cfunct3 (p : BitVec 16) : BitVec 3 := p.extractLsb' 13 3

/-- `rd`, or `rd/rs1`. -/
def crd (p : BitVec 16) : BitVec 5 := p.extractLsb' 7 5

/-- The low bits of an immediate, or `rs2`. -/
def cimmLow (p : BitVec 16) : BitVec 5 := p.extractLsb' 2 5

def cimmHigh (p : BitVec 16) : BitVec 1 := p.extractLsb' 12 1

/-- The instructions of C, hints included. -/
inductive Compressed (p : BitVec 16) : Prop where
  | addi4spn (h : quadrant p = 0) (hf : cfunct3 p = 0b000) (himm : p.extractLsb' 5 8 ≠ 0)
  | load (h : quadrant p = 0) (hf : cfunct3 p ∈ [0b001, 0b010, 0b011])
  | store (h : quadrant p = 0) (hf : cfunct3 p ∈ [0b101, 0b110, 0b111])
  | addi (h : quadrant p = 1) (hf : cfunct3 p = 0b000)
  | addiw (h : quadrant p = 1) (hf : cfunct3 p = 0b001) (hrd : crd p ≠ 0)
  | li (h : quadrant p = 1) (hf : cfunct3 p = 0b010)
  | luiAddi16sp (h : quadrant p = 1) (hf : cfunct3 p = 0b011)
      (himm : cimmHigh p ≠ 0 ∨ cimmLow p ≠ 0)
  | shiftAndi (h : quadrant p = 1) (hf : cfunct3 p = 0b100) (ho : p.extractLsb' 10 2 ≠ 0b11)
  | arith (h : quadrant p = 1) (hf : cfunct3 p = 0b100) (ho : p.extractLsb' 10 2 = 0b11)
      (hw : cimmHigh p = 0 ∨ p.extractLsb' 5 2 = 0b00 ∨ p.extractLsb' 5 2 = 0b01)
  | j (h : quadrant p = 1) (hf : cfunct3 p = 0b101)
  | branch (h : quadrant p = 1) (hf : cfunct3 p = 0b110 ∨ cfunct3 p = 0b111)
  | slli (h : quadrant p = 2) (hf : cfunct3 p = 0b000)
  | fldsp (h : quadrant p = 2) (hf : cfunct3 p = 0b001)
  | loadsp (h : quadrant p = 2) (hf : cfunct3 p = 0b010 ∨ cfunct3 p = 0b011) (hrd : crd p ≠ 0)
  | jump (h : quadrant p = 2) (hf : cfunct3 p = 0b100) (hrd : crd p ≠ 0) (hrs2 : cimmLow p = 0)
  | ebreak (h : quadrant p = 2) (hf : cfunct3 p = 0b100) (hhigh : cimmHigh p = 1)
      (hrd : crd p = 0) (hrs2 : cimmLow p = 0)
  | mvAdd (h : quadrant p = 2) (hf : cfunct3 p = 0b100) (hrs2 : cimmLow p ≠ 0)
  | storesp (h : quadrant p = 2) (hf : cfunct3 p ∈ [0b101, 0b110, 0b111])

/-- `c.nop` and the hints among the forms of `c.addi`. -/
def AddiHint (p : BitVec 16) : Prop :=
  quadrant p = 1 ∧ cfunct3 p = 0b000 ∧ (crd p = 0 ∨ cimmHigh p = 0 ∧ cimmLow p = 0)

end Rv64gc

/-- A callback that the relocator can make something of. -/
def Callback.served : Callback → Prop
  | .undefined => False
  | .compareAndBranch opcode .. => branchCond opcode ≠ none
  | _ => True

namespace Decoder

open Rv64gc

/-- Exactly one callback, and one that is served. -/
def Single (cbs : List Callback) : Prop := ∃ cb, cbs = [cb] ∧ cb.served

theorem Single.of {cb : Callback} (h : cb.served) : Single [cb] := ⟨cb, rfl, h⟩

section Compressed
variable {p : BitVec 16}

theorem addi4spn_table : ∀ v : BitVec 8,
    (kAddi4spnHigh.getD (v.extractLsb' 4 4).toNat 0 |||
      kAddi4spnLow.getD (v.extractLsb' 0 4).toNat 0).setWidth 16 <<< 2 = (0 : BitVec 16) ↔
      v = 0 := by
  decide

theorem decodeCompressedAddi4spn_single (himm : p.extractLsb' 5 8 ≠ 0) :
    Single (decodeCompressedAddi4spn (p.setWidth 32)) := by
  have hhigh : p.extractLsb' 9 4 = (p.extractLsb' 5 8).extractLsb' 4 4 := by
    apply BitVec.eq_of_getLsbD_eq
    intro i hi
    interval_cases i <;> simp
  have hlow : p.extractLsb' 5 4 = (p.extractLsb' 5 8).extractLsb' 0 4 := by
    apply BitVec.eq_of_getLsbD_eq
    intro i hi
    interval_cases i <;> simp
  unfold decodeCompressedAddi4spn
  dsimp only
  rw [getBits_setWidth _ (by decide), getBits_setWidth _ (by decide), hhigh, hlow,
    if_neg fun h => himm ((addi4spn_table _).mp h)]
  exact .of trivial

/-- The immediate of `c.addi` is zero where both its parts are. -/
theorem addi_immediate : ∀ (u : BitVec 1) (v : BitVec 5),
    (signExtend 6 8 (u.setWidth 32 <<< 5 ||| v.setWidth 32) : BitVec 8) = 0 ↔ u = 0 ∧ v = 0 := by
  decide

theorem decodeCompressedAddi_eq : decodeCompressedAddi (p.setWidth 32) =
    if crd p = 0 ∨ cimmHigh p = 0 ∧ cimmLow p = 0 then [.nop, .opImm] else [.opImm] := by
  unfold decodeCompressedAddi
  dsimp only
  rw [getBits_setWidth _ (by decide), getBits_setWidth _ (by decide),
    getBits_setWidth _ (by decide)]
  simp only [addi_immediate]
  rfl

theorem decodeCompressedLuiAddi16sp_single :
    Single (decodeCompressedLuiAddi16sp (p.setWidth 32)) := by
  unfold decodeCompressedLuiAddi16sp
  split <;> exact .of trivial

theorem decodeCompressedMiscAlu_single (ho : p.extractLsb' 10 2 ≠ 0b11 ∨ cimmHigh p = 0 ∨
    p.extractLsb' 5 2 = 0b00 ∨ p.extractLsb' 5 2 = 0b01) :
    Single (decodeCompressedMiscAlu (p.setWidth 32)) := by
  unfold decodeCompressedMiscAlu
  dsimp only
  rw [getBits_setWidth p (by decide : 10 + 2 ≤ 32), getBits_setWidth p (by decide : 12 + 1 ≤ 32),
    getBits_setWidth p (by decide : 5 + 2 ≤ 32)]
  split_ifs with h1 h2 h3 h4
  · exact .of trivial
  · exact .of trivial
  · exact .of trivial
  · exact .of trivial
  · exact absurd ho (by
      rw [not_or, not_or, not_or]
      exact ⟨h2, h3, not_or.mp h4⟩)

theorem decodeCompressedJr_Jalr_Mv_Add_single :
    Single (decodeCompressedJr_Jalr_Mv_Add (p.setWidth 32)) := by
  unfold decodeCompressedJr_Jalr_Mv_Add
  dsimp only
  split_ifs <;> exact .of trivial

/-- The decoder fires one callback for a compressed instruction, unless it is a no-operation among
the forms of `c.addi`. -/
theorem decodeCompressedInstruction_single (h : Compressed p) (hn : ¬ AddiHint p) :
    Single (decodeCompressedInstruction (p.setWidth 32)) := by
  unfold decodeCompressedInstruction
  dsimp only
  rw [getBits_setWidth _ (by decide), getBits_setWidth _ (by decide),
    show p.extractLsb' 13 3 = cfunct3 p from rfl, show p.extractLsb' 0 2 = quadrant p from rfl]
  cases h with
  | addi4spn h hf himm =>
    rw [h, hf]
    exact decodeCompressedAddi4spn_single himm
  | load h hf =>
    simp only [List.mem_cons, List.not_mem_nil, or_false] at hf
    rcases hf with hf | hf | hf
    all_goals
      rw [h, hf]
      exact .of trivial
  | store h hf =>
    simp only [List.mem_cons, List.not_mem_nil, or_false] at hf
    rcases hf with hf | hf | hf
    all_goals
      rw [h, hf]
      exact .of trivial
  | addi h hf =>
    rw [h, hf]
    change Single (decodeCompressedAddi (p.setWidth 32))
    rw [decodeCompressedAddi_eq, if_neg fun hrd => hn ⟨h, hf, hrd⟩]
    exact .of trivial
  | addiw h hf =>
    rw [h, hf]
    exact .of trivial
  | li h hf =>
    rw [h, hf]
    exact .of trivial
  | luiAddi16sp h hf =>
    rw [h, hf]
    exact decodeCompressedLuiAddi16sp_single
  | shiftAndi h hf ho =>
    rw [h, hf]
    exact decodeCompressedMiscAlu_single (.inl ho)
  | arith h hf ho hw =>
    rw [h, hf]
    exact decodeCompressedMiscAlu_single (.inr hw)
  | j h hf =>
    rw [h, hf]
    exact .of trivial
  | branch h hf =>
    have hbit : ∀ b : BitVec 1, branchCond (b.setWidth 3) ≠ none := by decide
    rcases hf with hf | hf
    all_goals
      rw [h, hf]
      exact ⟨_, rfl, hbit _⟩
  | slli h hf =>
    rw [h, hf]
    exact .of trivial
  | fldsp h hf =>
    rw [h, hf]
    exact .of trivial
  | loadsp h hf =>
    rcases hf with hf | hf
    all_goals
      rw [h, hf]
      exact .of trivial
  | jump h hf | ebreak h hf | mvAdd h hf =>
    rw [h, hf]
    exact decodeCompressedJr_Jalr_Mv_Add_single
  | storesp h hf =>
    simp only [List.mem_cons, List.not_mem_nil, or_false] at hf
    rcases hf with hf | hf | hf
    all_goals
      rw [h, hf]
      exact .of trivial

end Compressed
section Base
variable {w : BitVec 32}

/-- The two fields that the decoder makes of `funct5`. -/
theorem funct5_fields (w : BitVec 32) :
    w.extractLsb' 29 3 = (funct5 w).extractLsb' 2 3 ∧
      w.extractLsb' 27 2 = (funct5 w).extractLsb' 0 2 := by
  constructor
  all_goals
    apply BitVec.eq_of_getLsbD_eq
    intro i hi
    interval_cases i <;> simp [funct5]

/-- `zext.h` is the only instruction of `DecodeOp` with a single input. -/
theorem zexth_fields : ∀ (u : BitVec 3) (v : BitVec 7),
    u.setWidth 16 ||| v.setWidth 16 <<< 3 = (0b0000100100 : BitVec 16) → v = 0b0000100 := by
  decide

theorem decodeOp_single (h : funct7 w ≠ 0b0000100) : Single (decodeOp w) := by
  unfold decodeOp
  dsimp only
  rw [getBits_eq w (by decide : 12 + 3 ≤ 32), getBits_eq w (by decide : 25 + 7 ≤ 32),
    if_neg fun hz => h (zexth_fields (w.extractLsb' 12 3) (w.extractLsb' 25 7) hz)]
  exact .of trivial

theorem decodeFpMemory_single {cb : Callback} (hcb : cb.served)
    (hf : funct3 w = 0b010 ∨ funct3 w = 0b011) : Single (decodeFpMemory cb w) := by
  unfold decodeFpMemory
  rw [getBits_eq w (by decide : 12 + 3 ≤ 32), show w.extractLsb' 12 3 = funct3 w from rfl]
  rcases hf with hf | hf
  all_goals
    rw [hf]
    exact .of hcb

theorem decodeAmo_single (h : funct5 w ≠ 0b00010 ∨ rs2Field w = 0) : Single (decodeAmo w) := by
  unfold decodeAmo
  rw [getBits_eq _ (by decide), getBits_eq _ (by decide), if_neg]
  · exact .of trivial
  · rintro ⟨h1, h2⟩
    exact h.elim (fun h => h h1) h2

/-- The floating-point instructions that `DecodeOpFp` takes. -/
theorem decodeOpFp_single (h : funct5 w ≤ 0b00111 ∨
    funct5 w = 0b01000 ∧ (fmt w).setWidth 5 ≠ rs2Field w ∧ ¬ rs2Field w > 0b11 ∨
    funct5 w = 0b01011 ∨ funct5 w = 0b10100 ∨ funct5 w = 0b11000 ∨ funct5 w = 0b11010 ∨
    funct5 w = 0b11100 ∧ funct3 w ≤ 0b001 ∨ funct5 w = 0b11110 ∧ funct3 w = 0b000) :
    Single (decodeOpFp w) := by
  obtain ⟨hform, hbits⟩ := funct5_fields w
  unfold decodeOpFp
  dsimp only
  rw [getBits_eq w (by decide : 29 + 3 ≤ 32), getBits_eq w (by decide : 27 + 2 ≤ 32),
    getBits_eq w (by decide : 12 + 3 ≤ 32), getBits_eq w (by decide : 25 + 2 ≤ 32),
    getBits_eq w (by decide : 20 + 5 ≤ 32), hform, hbits,
    show w.extractLsb' 12 3 = funct3 w from rfl, show w.extractLsb' 25 2 = fmt w from rfl,
    show w.extractLsb' 20 5 = rs2Field w from rfl]
  rcases h with h | ⟨h, hne, hgt⟩ | h | h | h | h | ⟨h, hf⟩ | ⟨h, hf⟩
  · have hsmall : ∀ b : BitVec 5, b ≤ 0b00111 → b.extractLsb' 2 3 = 0b000 ∨
        b.extractLsb' 2 3 = 0b001 := by
      decide
    rcases hsmall _ h with hz | hz
    · rw [hz]
      exact .of trivial
    · rw [hz, if_neg (by decide), if_pos rfl]
      split <;> exact .of trivial
  · rw [h, if_neg (by decide), if_neg (by decide), if_pos (by decide), if_pos (by decide),
      if_neg (not_or.mpr ⟨hne, hgt⟩)]
    exact .of trivial
  · rw [h]
    exact .of trivial
  · rw [h]
    exact .of trivial
  · rw [h]
    exact .of trivial
  · rw [h]
    exact .of trivial
  · have hcases : ∀ f : BitVec 3, f ≤ 0b001 → f = 0b000 ∨ f = 0b001 := by
      decide
    rcases hcases _ hf with hf | hf
    all_goals
      rw [h, hf]
      exact .of trivial
  · rw [h, hf]
    exact .of trivial

theorem decodeBranch_single (hf : funct3 w ≠ 0b010 ∧ funct3 w ≠ 0b011) :
    Single (decodeBranch w) := by
  have hcond : ∀ f : BitVec 3, f ≠ 0b010 ∧ f ≠ 0b011 → branchCond f ≠ none := by
    decide
  refine ⟨_, rfl, ?_⟩
  change branchCond (getBits w 12 3) ≠ none
  rw [getBits_eq w (by decide)]
  exact hcond _ hf

/-- The decoder fires one callback for every 32-bit instruction. -/
theorem decodeBaseInstruction_single (h : Base w) : Single (decodeBaseInstruction w) := by
  unfold decodeBaseInstruction
  dsimp only
  rw [getBits_eq w (by decide : 2 + 5 ≤ 32), show w.extractLsb' 2 5 = opcode w from rfl]
  cases h with
  | load h | opImm h | shiftImm h | auipc h | addiw h | shiftImm32 h | store h | lui h | jal h =>
    rw [h]
    exact .of trivial
  | loadFp h hf =>
    rw [h]
    exact decodeFpMemory_single trivial hf
  | storeFp h hf =>
    rw [h]
    exact decodeFpMemory_single trivial hf
  | fence h hf =>
    rw [h]
    change Single (decodeMiscMem w)
    unfold decodeMiscMem
    rw [getBits_eq w (by decide), show w.extractLsb' 12 3 = funct3 w from rfl]
    rcases hf with hf | hf
    all_goals
      rw [hf]
      exact .of trivial
  | loadReserved h hf h5 hrs2 =>
    rw [h]
    exact decodeAmo_single (.inr hrs2)
  | amo h hf h5 =>
    rw [h]
    refine decodeAmo_single (.inl fun h2 => ?_)
    rw [h2] at h5
    exact absurd h5 (by decide)
  | op h hf =>
    rw [h]
    refine decodeOp_single fun h4 => ?_
    rw [h4] at hf
    exact absurd hf (by simp)
  | op32 h hf =>
    rw [h]
    refine decodeOp_single fun h4 => ?_
    rw [h4] at hf
    exact absurd hf (by simp)
  | fma h =>
    simp only [List.mem_cons, List.not_mem_nil, or_false] at h
    rcases h with h | h | h | h
    all_goals
      rw [h]
      exact .of trivial
  | opFp h hw h5 =>
    rw [h]
    exact decodeOpFp_single (.inl (by bv_omega))
  | fsgnj h hw h5 =>
    rw [h]
    exact decodeOpFp_single (.inl (h5 ▸ by decide))
  | fminFmax h hw h5 =>
    rw [h]
    exact decodeOpFp_single (.inl (h5 ▸ by decide))
  | fcvtFloat h h5 hw =>
    rw [h]
    refine decodeOpFp_single (.inr (.inl ⟨h5, ?_⟩))
    rcases hw with ⟨hw, hrs2⟩ | ⟨hw, hrs2⟩
    all_goals
      rw [hw, hrs2]
      decide
  | fsqrt h hw h5 =>
    rw [h]
    exact decodeOpFp_single (by simp [h5])
  | fcompare h hw h5 =>
    rw [h]
    exact decodeOpFp_single (by simp [h5])
  | fcvtInteger h hw h5 =>
    rw [h]
    refine decodeOpFp_single ?_
    rcases h5 with h5 | h5 <;> simp [h5]
  | fmvToInteger h hw h5 hrs2 hf =>
    rw [h]
    exact decodeOpFp_single (by simpa [h5] using hf)
  | fmvFromInteger h hw h5 hrs2 hf =>
    rw [h]
    exact decodeOpFp_single (by simp [h5, hf])
  | branch h hf =>
    rw [h]
    exact decodeBranch_single hf
  | jalr h hf =>
    rw [h]
    change Single (decodeJumpAndLinkRegister w)
    unfold decodeJumpAndLinkRegister
    rw [getBits_eq w (by decide : 12 + 3 ≤ 32), show w.extractLsb' 12 3 = funct3 w from rfl, hf]
    exact .of trivial
  | ecall h | ebreak h =>
    rw [h]
    exact .of trivial
  | csr h hf =>
    rw [h]
    change Single (decodeSystem w)
    unfold decodeSystem
    split <;> exact .of trivial

end Base

/-! ### The instruction at an address -/

/-- An instruction of RV64GC starts at the address. -/
def ValidAt (code : Mem) (p : Word) : Prop :=
  if lenAt code p = 4 then Base (load 32 code p) else Compressed (load 16 code p)

/-- A no-operation among the forms of `c.addi` starts at the address. -/
def AddiHintAt (code : Mem) (p : Word) : Prop :=
  lenAt code p = 2 ∧ AddiHint (load 16 code p)

variable {code : Mem} {p : Word}

theorem decode_single (h : ValidAt code p) (hn : ¬ AddiHintAt code p) :
    Single (decode code p).1 := by
  unfold ValidAt at h
  unfold decode
  dsimp only
  rw [getInsnSize_eq, show insnLen (load 16 code p) = lenAt code p from rfl]
  rcases lenAt_cases code p with hlen | hlen
  · rw [if_neg (by omega)] at h
    rw [if_pos hlen]
    exact decodeCompressedInstruction_single h fun hhint => hn ⟨hlen, hhint⟩
  · rw [if_pos hlen] at h
    rw [if_neg (by omega)]
    exact decodeBaseInstruction_single h

/-- The decoder calls `Nop` and then `OpImm`. -/
theorem decode_addiHint (h : AddiHintAt code p) : (decode code p).1 = [.nop, .opImm] := by
  obtain ⟨hlen, hq, hf, himm⟩ := h
  unfold decode
  dsimp only
  rw [getInsnSize_eq, show insnLen (load 16 code p) = lenAt code p from rfl, if_pos hlen]
  dsimp only
  unfold decodeCompressedInstruction
  dsimp only
  rw [getBits_setWidth _ (by decide), getBits_setWidth _ (by decide),
    show (load 16 code p).extractLsb' 13 3 = _ from hf,
    show (load 16 code p).extractLsb' 0 2 = _ from hq]
  change decodeCompressedAddi ((load 16 code p).setWidth 32) = _
  rw [decodeCompressedAddi_eq, if_pos himm]

end Decoder
end Rv64Hook.Berberis
