import Rv64Hook.Lib.Run
import Rv64Hook.Relocator.Layout

/-! What the words that the relocator emits do when they are executed. -/
namespace Rv64Hook
open ByteMem Rv64 Berberis Berberis.Assembler Machine

/-! ### Decoding the emitted words -/

theorem extract_rdOperand (r : Reg) :
    (rdOperand r).extractLsb' 0 7 = 0 ∧ (rdOperand r).extractLsb' 7 5 = r ∧
      (rdOperand r).extractLsb' 12 3 = 0 ∧ (rdOperand r).extractLsb' 15 5 = 0 ∧
      (rdOperand r).extractLsb' 20 12 = 0 ∧ (rdOperand r).extractLsb' 12 20 = 0 := by
  decide +revert

theorem extract_rs1Operand (r : Reg) :
    (rs1Operand r).extractLsb' 0 7 = 0 ∧ (rs1Operand r).extractLsb' 7 5 = 0 ∧
      (rs1Operand r).extractLsb' 12 3 = 0 ∧ (rs1Operand r).extractLsb' 15 5 = r ∧
      (rs1Operand r).extractLsb' 20 5 = 0 ∧ (rs1Operand r).extractLsb' 20 12 = 0 ∧
      (rs1Operand r).extractLsb' 25 7 = 0 := by
  decide +revert

theorem extract_rs2Operand (r : Reg) :
    (rs2Operand r).extractLsb' 0 7 = 0 ∧ (rs2Operand r).extractLsb' 7 5 = 0 ∧
      (rs2Operand r).extractLsb' 12 3 = 0 ∧ (rs2Operand r).extractLsb' 15 5 = 0 ∧
      (rs2Operand r).extractLsb' 20 5 = r ∧ (rs2Operand r).extractLsb' 25 7 = 0 := by
  decide +revert

theorem extract_topPart (offset : BitVec 32) :
    (topPart offset).extractLsb' 0 7 = 0 ∧ (topPart offset).extractLsb' 7 5 = 0 ∧
      (topPart offset).extractLsb' 12 20 ++ 0#12 = topPart offset := by
  unfold topPart
  generalize offset + (offset &&& 1#32 <<< 11) * 2 = v
  refine ⟨?_, ?_, ?_⟩
  · apply BitVec.eq_of_getLsbD_eq
    intro i hi
    interval_cases i <;> simp
  · apply BitVec.eq_of_getLsbD_eq
    intro i hi
    interval_cases i <;> simp
  · apply BitVec.eq_of_getLsbD_eq
    intro i hi
    rw [BitVec.getLsbD_append]
    interval_cases i <;> simp

theorem extract_iImmediate (v : BitVec 12) :
    (v.signExtend 32 <<< 20).extractLsb' 0 7 = 0 ∧ (v.signExtend 32 <<< 20).extractLsb' 7 5 = 0 ∧
      (v.signExtend 32 <<< 20).extractLsb' 12 3 = 0 ∧
      (v.signExtend 32 <<< 20).extractLsb' 15 5 = 0 ∧
      (v.signExtend 32 <<< 20).extractLsb' 20 12 = v := by
  refine ⟨?_, ?_, ?_, ?_, ?_⟩
  all_goals
    apply BitVec.eq_of_getLsbD_eq
    intro i hi
    interval_cases i <;> simp [BitVec.getElem_signExtend]

theorem low_bits_of_opcode {w : BitVec 32} {op : BitVec 7} (h : w.extractLsb' 0 7 = op)
    (h3 : op.extractLsb' 0 2 = 3) : w.extractLsb' 0 2 = 3 := by
  rw [← h3, ← h]
  apply BitVec.eq_of_getLsbD_eq
  intro i hi
  interval_cases i <;> simp

theorem decode_of_opcode {w : BitVec 32} {op : BitVec 7} (h : w.extractLsb' 0 7 = op)
    (h3 : op.extractLsb' 0 2 = 3) : decode w = decode32 w :=
  if_pos (low_bits_of_opcode h h3)

theorem fields_uType (word : BitVec 32) (op : BitVec 7) (h0 : word.extractLsb' 0 7 = op)
    (h7 : word.extractLsb' 7 5 = 0) (h12 : word.extractLsb' 12 20 = 0) (rd : Reg)
    (offset : BitVec 32) :
    (uType word rd (topPart offset)).extractLsb' 0 7 = op ∧
      rdField (uType word rd (topPart offset)) = rd ∧
      immU (uType word rd (topPart offset)) = (topPart offset).signExtend 64 := by
  obtain ⟨r0, r7, -, -, -, r12⟩ := extract_rdOperand rd
  obtain ⟨t0, t7, t12⟩ := extract_topPart offset
  have himm : (uType word rd (topPart offset)).extractLsb' 12 20 =
      (topPart offset).extractLsb' 12 20 := by
    rw [uType, BitVec.extractLsb'_or, BitVec.extractLsb'_or, h12, r12]
    simp
  refine ⟨?_, ?_, by rw [immU, himm, t12]⟩
  · rw [uType, BitVec.extractLsb'_or, BitVec.extractLsb'_or, h0, r0, t0]
    simp
  · rw [rdField, uType, BitVec.extractLsb'_or, BitVec.extractLsb'_or, h7, r7, t7]
    simp

theorem decode_auipc (rd : Reg) (offset : BitVec 32) :
    (uType 0x00000017 rd (topPart offset)).extractLsb' 0 7 = 0x17 ∧
      decode (uType 0x00000017 rd (topPart offset)) =
        .auipc rd ((topPart offset).signExtend 64) := by
  obtain ⟨hop, hrd, himm⟩ := fields_uType 0x00000017 0x17 (by decide) (by decide) (by decide)
    rd offset
  refine ⟨hop, ?_⟩
  rw [decode_of_opcode hop (by decide), decode32, hop, hrd, himm]
  rfl

theorem decode_lui (rd : Reg) (offset : BitVec 32) :
    (uType 0x00000037 rd (topPart offset)).extractLsb' 0 7 = 0x37 ∧
      decode (uType 0x00000037 rd (topPart offset)) =
        .lui rd ((topPart offset).signExtend 64) := by
  obtain ⟨hop, hrd, himm⟩ := fields_uType 0x00000037 0x37 (by decide) (by decide) (by decide)
    rd offset
  refine ⟨hop, ?_⟩
  rw [decode_of_opcode hop (by decide), decode32, hop, hrd, himm]
  rfl

theorem fields_iType (word : BitVec 32) (op : BitVec 7) (f : BitVec 3)
    (h0 : word.extractLsb' 0 7 = op) (h7 : word.extractLsb' 7 5 = 0)
    (h12 : word.extractLsb' 12 3 = f) (h15 : word.extractLsb' 15 5 = 0)
    (h20 : word.extractLsb' 20 12 = 0) (rd rs1 : Reg) (v : BitVec 12) :
    (iType word rd rs1 (v.signExtend 32 <<< 20)).extractLsb' 0 7 = op ∧
      (iType word rd rs1 (v.signExtend 32 <<< 20)).extractLsb' 12 3 = f ∧
      rdField (iType word rd rs1 (v.signExtend 32 <<< 20)) = rd ∧
      rs1Field (iType word rd rs1 (v.signExtend 32 <<< 20)) = rs1 ∧
      immI (iType word rd rs1 (v.signExtend 32 <<< 20)) = v.signExtend 64 := by
  obtain ⟨d0, d7, d12, d15, d20, -⟩ := extract_rdOperand rd
  obtain ⟨s0, s7, s12, s15, -, s20, -⟩ := extract_rs1Operand rs1
  obtain ⟨v0, v7, v12, v15, v20⟩ := extract_iImmediate v
  simp only [rdField, rs1Field, immI, iType, BitVec.extractLsb'_or, d0, d7, d12, d15, d20, s0, s7,
    s12, s15, s20, v0, v7, v12, v15, v20, h0, h7, h12, h15, h20]
  simp

theorem decode_ld (rd rs1 : Reg) (v : BitVec 12) :
    (iType 0x00003003 rd rs1 (v.signExtend 32 <<< 20)).extractLsb' 0 7 = 0x03 ∧
      decode (iType 0x00003003 rd rs1 (v.signExtend 32 <<< 20)) =
        .ld rd rs1 (v.signExtend 64) := by
  obtain ⟨hop, hf, hrd, hrs1, himm⟩ := fields_iType 0x00003003 0x03 3 (by decide) (by decide)
    (by decide) (by decide) (by decide) rd rs1 v
  refine ⟨hop, ?_⟩
  rw [decode_of_opcode hop (by decide), decode32, hop, hf, hrd, hrs1, himm]
  rfl

theorem decode_jalr (rd rs1 : Reg) (v : BitVec 12) :
    (iType 0x00000067 rd rs1 (v.signExtend 32 <<< 20)).extractLsb' 0 7 = 0x67 ∧
      decode (iType 0x00000067 rd rs1 (v.signExtend 32 <<< 20)) =
        .jalr rd rs1 (v.signExtend 64) := by
  obtain ⟨hop, hf, hrd, hrs1, himm⟩ := fields_iType 0x00000067 0x67 0 (by decide) (by decide)
    (by decide) (by decide) (by decide) rd rs1 v
  refine ⟨hop, ?_⟩
  rw [decode_of_opcode hop (by decide), decode32, hop, hf, hrd, hrs1, himm]
  rfl

/-- The offset of a branch from the two fields that hold it. -/
theorem immB_eq (w : BitVec 32) : immB w =
    ((w.extractLsb' 25 7).extractLsb' 6 1 ++ (w.extractLsb' 7 5).extractLsb' 0 1 ++
      (w.extractLsb' 25 7).extractLsb' 0 6 ++ (w.extractLsb' 7 5).extractLsb' 1 4 ++
      0#1).signExtend 64 := by
  have h : ∀ s n t k, t + k ≤ n →
      (w.extractLsb' s n).extractLsb' t k = w.extractLsb' (s + t) k := by
    intro s n t k hk
    apply BitVec.eq_of_getLsbD_eq
    intro i hi
    have hti : t + i < n := by omega
    simp only [BitVec.getLsbD_extractLsb', hi, hti, decide_true, Bool.true_and, Nat.add_assoc]
  rw [h _ _ _ _ (by decide), h _ _ _ _ (by decide), h _ _ _ _ (by decide), h _ _ _ _ (by decide)]
  rfl

/-- The branch of a relocated branch goes over the `jal` behind it. -/
theorem decode_skip (cond : BranchCond) (rs1 rs2 : Reg) :
    (bType (branchWord cond) rs1 rs2 0x400).extractLsb' 0 7 = 0x63 ∧
      decode (bType (branchWord cond) rs1 rs2 0x400) = .branch cond rs1 rs2 8 := by
  obtain ⟨a0, a7, a12, a15, a20, -, a25⟩ := extract_rs1Operand rs1
  obtain ⟨b0, b7, b12, b15, b20, b25⟩ := extract_rs2Operand rs2
  have hor : ∀ s n, (bType (branchWord cond) rs1 rs2 0x400).extractLsb' s n =
      (branchWord cond).extractLsb' s n ||| (rs1Operand rs1).extractLsb' s n |||
        (rs2Operand rs2).extractLsb' s n ||| (0x400 : BitVec 32).extractLsb' s n := by
    intro s n
    rw [bType, BitVec.extractLsb'_or, BitVec.extractLsb'_or, BitVec.extractLsb'_or]
  have hop : (bType (branchWord cond) rs1 rs2 0x400).extractLsb' 0 7 = 0x63 := by
    rw [hor, a0, b0]
    cases cond <;> decide
  have hrs1 : rs1Field (bType (branchWord cond) rs1 rs2 0x400) = rs1 := by
    rw [rs1Field, hor, a15, b15]
    cases cond <;> simp [branchWord]
  have hrs2 : rs2Field (bType (branchWord cond) rs1 rs2 0x400) = rs2 := by
    rw [rs2Field, hor, a20, b20]
    cases cond <;> simp [branchWord]
  have hf : branchCond ((bType (branchWord cond) rs1 rs2 0x400).extractLsb' 12 3) = some cond := by
    rw [hor, a12, b12]
    cases cond <;> decide
  have himm : immB (bType (branchWord cond) rs1 rs2 0x400) = 8 := by
    rw [immB_eq, hor 25 7, hor 7 5, a7, b7, a25, b25]
    cases cond <;> decide
  refine ⟨hop, ?_⟩
  rw [decode_of_opcode hop (by decide), decode32, hop, hf, hrs1, hrs2, himm]
  rfl

theorem decode_over : decode 0x0100006f#32 = .jal 0 16 := by
  decide

/-! ### Executing the emitted words -/

section Execute
variable {Ω : Type} {sem : BitVec 32 → Core Ω → Core Ω} {code : Mem} {w : BitVec 32} {pc : Word}

/-- The state after one instruction. -/
def next (sem : BitVec 32 → Core Ω → Core Ω) (code : Mem) (s : State Ω) : State Ω :=
  (step sem code s).1

theorem fetch_word (h : Holds code pc (toBytes 4 w)) (h3 : w.extractLsb' 0 2 = 3) :
    fetch code pc = w ∧ lenAt code pc = 4 := by
  have h32 : load 32 code pc = w := h.load_eq rfl
  have h16 : load 16 code pc = w.setWidth 16 := by
    rw [← h32, setWidth_load code pc (by decide) (by decide)]
  have hlen : insnLen (load 16 code pc) = 4 := by
    rw [h16]
    refine if_pos (Eq.trans ?_ h3)
    apply BitVec.eq_of_getLsbD_eq
    intro i hi
    interval_cases i <;> simp
  exact ⟨by rw [fetch, if_pos hlen, h32], hlen⟩

theorem step_word (h : Holds code pc (toBytes 4 w)) {op : BitVec 7}
    (hop : w.extractLsb' 0 7 = op) (h3 : op.extractLsb' 0 2 = 3) (c : Core Ω) :
    step sem code ⟨pc, c⟩ = exec sem w 4 ⟨pc, c⟩ := by
  obtain ⟨hf, hl⟩ := fetch_word h (low_bits_of_opcode hop h3)
  rw [step, hf, hl]

/-- The two parts of an offset add up to it. -/
theorem signExtend_parts {offset : BitVec 32} (h : offset.toNat < 0x7ffff800) :
    (topPart offset).signExtend 64 + (offset.setWidth 12).signExtend 64 = offset.setWidth 64 := by
  have ht : (topPart offset).toNat = _ := toNat_topPart (by omega)
  apply BitVec.eq_of_toNat_eq
  rw [BitVec.toNat_add, BitVec.toNat_signExtend, BitVec.toNat_signExtend, BitVec.msb_eq_decide,
    BitVec.msb_eq_decide, BitVec.toNat_setWidth, BitVec.toNat_setWidth, BitVec.toNat_setWidth,
    BitVec.toNat_setWidth, ht]
  have htop : ¬ 2 ^ (32 - 1) ≤ (offset.toNat + 2048) / 4096 * 4096 := by omega
  by_cases hm : 2 ^ (12 - 1) ≤ offset.toNat % 2 ^ 12
  · simp only [htop, hm, decide_true, decide_false, Bool.false_eq_true, if_true, if_false]
    omega
  · simp only [htop, hm, decide_false, Bool.false_eq_true, if_false]
    omega

theorem decode_fetch (h : Holds code pc (toBytes 4 w)) {op : BitVec 7}
    (hop : w.extractLsb' 0 7 = op) (h3 : op.extractLsb' 0 2 = 3) :
    decode (fetch code pc) = decode w := by
  rw [(fetch_word h (low_bits_of_opcode hop h3)).1]

theorem next_auipc (sem : BitVec 32 → Core Ω → Core Ω) {rd : Reg} {offset : BitVec 32}
    (h : Holds code pc (toBytes 4 (uType 0x00000017 rd (topPart offset)))) (c : Core Ω) :
    decode (fetch code pc) = .auipc rd ((topPart offset).signExtend 64) ∧
      next sem code ⟨pc, c⟩ = ⟨pc + 4#64, c.setReg rd (pc + (topPart offset).signExtend 64)⟩ := by
  obtain ⟨hop, hd⟩ := decode_auipc rd offset
  refine ⟨(decode_fetch h hop (by decide)).trans hd, ?_⟩
  rw [next, step_word h hop (by decide), exec, hd]

theorem next_ld (sem : BitVec 32 → Core Ω → Core Ω) {rd rs1 : Reg} {offset : BitVec 32}
    (h : Holds code pc (toBytes 4 (iType 0x00003003 rd rs1 (bottomPart offset <<< 20))))
    (c : Core Ω) :
    decode (fetch code pc) = .ld rd rs1 ((offset.setWidth 12).signExtend 64) ∧
      next sem code ⟨pc, c⟩ = ⟨pc + 4#64,
        c.setReg rd (load 64 c.mem (c.reg rs1 + (offset.setWidth 12).signExtend 64))⟩ := by
  obtain ⟨hop, hd⟩ : _ ∧ decode (iType 0x00003003 rd rs1 (bottomPart offset <<< 20)) = _ :=
    decode_ld rd rs1 (offset.setWidth 12)
  refine ⟨(decode_fetch h hop (by decide)).trans hd, ?_⟩
  rw [next, step_word h hop (by decide), exec, hd]

/-- `auipc` and `ld` load the word stored at the offset; `x0` stays as it is. -/
theorem run_ldBytes {region : State Ω → Prop} {rd : Reg} {offset : BitVec 32} {key : Word}
    {c : Core Ω} (hcode : Holds code pc (ldBytes rd offset)) (hlt : offset.toNat < 2 ^ 30)
    (hkey : Holds c.mem (pc + offset.setWidth 64) (toBytes 8 key))
    (hregion : ∀ d : Core Ω, region ⟨pc, d⟩ ∧ region ⟨pc + 4#64, d⟩) :
    RunsWithin (next sem code) region ⟨pc, c⟩ ⟨pc + 8#64, c.setReg rd key⟩ := by
  obtain ⟨h1, h2⟩ := holds_append.mp hcode
  rw [length_toBytes] at h2
  obtain ⟨-, hs1⟩ := next_auipc sem h1 c
  obtain ⟨-, hs2⟩ := next_ld sem h2 (c.setReg rd (pc + (topPart offset).signExtend 64))
  have haddr : pc + (topPart offset).signExtend 64 + (offset.setWidth 12).signExtend 64 =
      pc + offset.setWidth 64 := by
    rw [BitVec.add_assoc, signExtend_parts (by omega)]
  have hload : load 64 c.mem (pc + offset.setWidth 64) = key := hkey.load_eq rfl
  have hpc : pc + 4#64 + 4#64 = pc + 8#64 := by
    rw [BitVec.add_assoc]
    rfl
  have hcore : (c.setReg rd (pc + (topPart offset).signExtend 64)).setReg rd
      (load 64 (c.setReg rd (pc + (topPart offset).signExtend 64)).mem
        ((c.setReg rd (pc + (topPart offset).signExtend 64)).reg rd +
          (offset.setWidth 12).signExtend 64)) = c.setReg rd key := by
    by_cases hrd : rd = 0
    · subst hrd
      simp only [Core.setReg_zero]
    · rw [Core.reg_setReg_self hrd, Core.setReg_mem, haddr, hload, Core.setReg_setReg]
  refine .head (hregion c).1 (hs1 ▸ .single (hregion _).2 (hs2.trans ?_))
  rw [hcore]
  exact congrArg (State.mk · _) hpc

/-- The branch goes to the long jump behind the `jal`, or to the `jal`, which goes over it. -/
theorem next_skip (sem : BitVec 32 → Core Ω → Core Ω) {cond : BranchCond} {rs1 rs2 : Reg}
    (h : Holds code pc (skipBytes cond rs1 rs2)) (c : Core Ω) :
    (decode (fetch code pc) = .branch cond rs1 rs2 8 ∧
      next sem code ⟨pc, c⟩ =
        ⟨if cond.holds (c.reg rs1) (c.reg rs2) then pc + 8#64 else pc + 4#64, c⟩) ∧
    decode (fetch code (pc + 4#64)) = .jal 0 16 ∧
      next sem code ⟨pc + 4#64, c⟩ = ⟨pc + 20#64, c⟩ := by
  obtain ⟨h1, h2⟩ := holds_append.mp h
  rw [length_toBytes] at h2
  obtain ⟨hop, hd⟩ := decode_skip cond rs1 rs2
  have hop' : (0x0100006f#32).extractLsb' 0 7 = 0x6f := by decide
  have hpc : pc + 4#64 + 16#64 = pc + 20#64 := by
    rw [BitVec.add_assoc]
    rfl
  refine ⟨⟨(decode_fetch h1 hop (by decide)).trans hd, ?_⟩,
    (decode_fetch h2 hop' (by decide)).trans decode_over, ?_⟩
  · rw [next, step_word h1 hop (by decide), exec, hd]
    dsimp only
    split <;> rfl
  · rw [next, step_word h2 hop' (by decide), exec, decode_over]
    exact congrArg (State.mk · c) hpc

theorem run_jalr {region : State Ω → Prop} {rd rs1 : Reg} {c : Core Ω}
    (hcode : Holds code pc (jalrBytes rd rs1)) (hregion : region ⟨pc, c⟩) :
    RunsWithin (next sem code) region ⟨pc, c⟩
      ⟨c.reg rs1 &&& ~~~1#64, c.setReg rd (pc + 4#64)⟩ := by
  obtain ⟨hop, hd⟩ : _ ∧ decode (iType 0x00000067 rd rs1 0) = .jalr rd rs1 0 :=
    decode_jalr rd rs1 0
  refine .single hregion ?_
  rw [next, step_word hcode hop (by decide), exec, hd]
  dsimp only
  rw [show c.reg rs1 + 0 = c.reg rs1 from BitVec.add_zero _]

/-- A load of `t3` and a jump through it, which clears the lowest bit. -/
theorem run_loadJump {region : State Ω → Prop} {rd : Reg} {offset : BitVec 32} {target : Word}
    {c : Core Ω} (hcode : Holds code pc (ldBytes t3 offset ++ jalrBytes rd t3))
    (hlt : offset.toNat < 2 ^ 30)
    (hkey : Holds c.mem (pc + offset.setWidth 64) (toBytes 8 target))
    (hregion : ∀ d : Core Ω, ∀ j < 12, region ⟨pc + BitVec.ofNat 64 j, d⟩) :
    RunsWithin (next sem code) region ⟨pc, c⟩
      ⟨target &&& ~~~1#64, (c.setReg t3 target).setReg rd (pc + 12#64)⟩ := by
  obtain ⟨h1, h2⟩ := holds_append.mp hcode
  rw [length_ldBytes] at h2
  have hzero : ∀ d, region ⟨pc, d⟩ := fun d => by
    simpa using hregion d 0 (by decide)
  have hload : RunsWithin (next sem code) region ⟨pc, c⟩ ⟨pc + 8#64, c.setReg t3 target⟩ :=
    run_ldBytes h1 hlt hkey fun d => ⟨hzero d, hregion d 4 (by decide)⟩
  have hjump : RunsWithin (next sem code) region ⟨pc + 8#64, c.setReg t3 target⟩
      ⟨(c.setReg t3 target).reg t3 &&& ~~~1#64,
        (c.setReg t3 target).setReg rd (pc + 8#64 + 4#64)⟩ :=
    run_jalr h2 (hregion (c.setReg t3 target) 8 (by decide))
  have hpc : pc + 8#64 + 4#64 = pc + 12#64 := by
    rw [BitVec.add_assoc]
    rfl
  rw [Core.reg_setReg_self (by decide), hpc] at hjump
  exact hload.trans hjump

/-- The same, for an aligned target. -/
theorem run_longJump {region : State Ω → Prop} {rd : Reg} {offset : BitVec 32} {target : Word}
    {c : Core Ω} (hcode : Holds code pc (ldBytes t3 offset ++ jalrBytes rd t3))
    (hlt : offset.toNat < 2 ^ 30)
    (hkey : Holds c.mem (pc + offset.setWidth 64) (toBytes 8 target)) (heven : Aligned target)
    (hregion : ∀ d : Core Ω, ∀ j < 12, region ⟨pc + BitVec.ofNat 64 j, d⟩) :
    RunsWithin (next sem code) region ⟨pc, c⟩
      ⟨target, (c.setReg t3 target).setReg rd (pc + 12#64)⟩ := by
  have hrun : RunsWithin (next sem code) region ⟨pc, c⟩ _ := run_loadJump hcode hlt hkey hregion
  rwa [heven.and_not_one] at hrun

/-- Bytes copied from elsewhere are the same instruction. -/
theorem fetch_copy {code' : Mem} {pc' : Word}
    (h : Holds code pc (bytesAt code' pc' (lenAt code' pc'))) :
    fetch code pc = fetch code' pc' ∧ lenAt code pc = lenAt code' pc' := by
  unfold Holds at h
  rw [length_bytesAt] at h
  have h16 : load 16 code pc = load 16 code' pc' := by
    have ht : ∀ m p n, 2 ≤ n → (bytesAt m p n).take 2 = bytesAt m p 2 := by
      intro m p n hn
      obtain ⟨k, rfl⟩ := Nat.exists_eq_add_of_le hn
      rw [bytesAt_add]
      exact List.take_left' (length_bytesAt _ _ _)
    have hn : 2 ≤ lenAt code' pc' := by
      rcases lenAt_cases code' pc' with hl | hl <;> omega
    unfold load
    rw [← ht code pc _ hn, ← ht code' pc' _ hn, h]
  have hlen : lenAt code pc = lenAt code' pc' := by
    rw [lenAt, h16, ← lenAt]
  refine ⟨?_, hlen⟩
  unfold fetch
  rw [h16]
  split
  · rename_i h4
    have hl : lenAt code' pc' = 4 := h4
    rw [hl] at h
    rw [load, load, h]
  · rfl

end Execute
end Rv64Hook
