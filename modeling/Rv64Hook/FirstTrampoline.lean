import Rv64Hook.Relocator.Execution

/-! The first trampoline, the jump that is written over the first bytes of a hooked function: its
three encoders, the function that selects one of them, and that every choice reaches its target. -/
namespace Rv64Hook
open ByteMem Rv64 Berberis Berberis.Assembler Machine

/-- `kDefault` is `kPC32`. -/
inductive TrampolineType where
  | kCustom | kWide | kPC20 | kPC32 | kVA32
  deriving DecidableEq

/-- `Memory::Copy`: all bytes are written, or none where the range is not writable. -/
def Memory.copy (writable : Addr → ℕ → Bool) (m : Mem) (addr : Addr) (src : List Byte) :
    Bool × Mem :=
  if writable addr src.length then (true, store m addr src) else (false, m)

theorem Memory.copy_eq (writable : Addr → ℕ → Bool) (m : Mem) (addr : Addr) (src : List Byte) :
    Memory.copy writable m addr src = (writable addr src.length,
      if writable addr src.length then store m addr src else m) := by
  unfold Memory.copy
  cases writable addr src.length <;> rfl

namespace Trampoline

/-- An upper immediate, with the instruction bits `op`, and a jump through it; a failed `CHECK`
gives `none`. -/
def write32BitJumpInstruction (writable : Addr → ℕ → Bool) (m : Mem) (op : BitVec 32)
    (address : Word) (v : BitVec 32) : Option (Bool × Mem) := do
  let base := v >>> 12
  let add := v &&& ~~~0xfffff000
  let (base, add) :=
    if (0x800 : BitVec 32).sle add then (base + 1, -(0x1000 - add)) else (base, add)
  let upper ← uImmediate.ofUnsigned (base <<< 12)
  let lower ← iImmediate.ofSigned add
  return Memory.copy writable m address
    (toBytes 4 (uType op t3 upper) ++ toBytes 4 (iType 0x67 0 t3 lower))

def getSuggestedTrampolineType (address target : Word) : TrampolineType :=
  let off := target - address
  if -0xffffe ≤ off.toInt ∧ off.toInt ≤ 0xffffe then .kPC20
  else if target.toNat < 0x7ffff800 then .kVA32
  else if 0 < off.toInt ∧ off.toInt < 0x7ffff800 then .kPC32
  else .kWide

/-- `auipc t3, 0; ld t3, 10(t3); jr t3; .quad address`, packed. -/
def wideTrampoline (address : Word) : List Byte :=
  toBytes 4 0x00000e17#32 ++ toBytes 4 0x00ae3e03#32 ++ toBytes 2 0x8e02#16 ++ toBytes 8 address

def getFirstTrampolineSize : TrampolineType → ℕ
  | .kPC20 => 4
  | .kPC32 | .kVA32 => 8
  | _ => (wideTrampoline 0).length

/-- What `WriteFirstTrampoline` returns, the memory it leaves, and the number of bytes it clears
from the instruction cache. -/
structure Written where
  copied : Bool
  mem : Mem
  size : ℕ

/-- `WriteFirstTrampoline`; `none` is an abort. -/
def writeFirstTrampoline (writable : Addr → ℕ → Bool) (m : Mem) (address target : Word)
    (type : TrampolineType) : Option Written :=
  let off := target - address
  match type with
  | .kPC20 =>
    if -0xffffe ≤ off.toInt ∧ off.toInt ≤ 0xffffe then do
      let imm ← jImmediate.ofSigned off
      let (copied, m) := Memory.copy writable m address (toBytes 4 (jType 0x6f 0 imm))
      return ⟨copied, m, 4⟩
    else none
  | .kPC32 =>
    if 0 < off.toInt ∧ off.toInt < 0x7ffff800 then do
      let (copied, m) ← write32BitJumpInstruction writable m 0x17 address (off.setWidth 32)
      return ⟨copied, m, 8⟩
    else none
  | .kVA32 =>
    if target.toNat < 0x7ffff800 then do
      let (copied, m) ← write32BitJumpInstruction writable m 0x37 address (target.setWidth 32)
      return ⟨copied, m, 8⟩
    else none
  | _ =>
    let (copied, m) := Memory.copy writable m address (wideTrampoline target)
    some ⟨copied, m, 0⟩

/-! ### The encoders -/

/-- A signed value of 21 bits whose lowest bit is clear is an acceptable J-immediate. -/
theorem jImmediate_ofSigned_signExtend (v : BitVec 21) (h : v.getLsbD 0 = false) :
    jImmediate.ofSigned (v.signExtend 64) = some (jImmediate.makeRaw (v.signExtend 32)) := by
  have hmask : jImmediate.unsigned64bitInputMask.setWidth 64 = 0xfffffffffff00001#64 := by decide
  have hlow : jImmediate.lowBits.setWidth 64 = 1#64 := by decide
  have h0 : v[0] = false := h
  have hacc : jImmediate.accetableSigned (v.signExtend 64) = true := by
    simp only [ImmediateFormat.accetableSigned, hmask, hlow, Bool.or_eq_true, beq_iff_eq]
    cases hv : v.getLsbD 20 with
    | false =>
      left
      have hmsb : v.msb = false := by simpa [BitVec.msb_eq_getLsbD_last] using hv
      have h20 : v[20] = false := hv
      apply BitVec.eq_of_getLsbD_eq
      intro i hi
      interval_cases i <;> simp [BitVec.getElem_signExtend, hmsb, h0, h20]
    | true =>
      right
      have hmsb : v.msb = true := by simpa [BitVec.msb_eq_getLsbD_last] using hv
      have h20 : v[20] = true := hv
      apply BitVec.eq_of_getLsbD_eq
      intro i hi
      interval_cases i <;> simp [BitVec.getElem_signExtend, hmsb, h0, h20]
  have hnarrow : (v.signExtend 64).setWidth 32 = v.signExtend 32 := by
    apply BitVec.eq_of_getLsbD_eq
    intro i hi
    interval_cases i <;> simp [BitVec.getElem_signExtend]
  rw [ImmediateFormat.ofSigned, if_pos hacc, hnarrow]

theorem decode_jal (v : BitVec 21) (h : v.getLsbD 0 = false) :
    (jType 0x6f 0 (jImmediate.makeRaw (v.signExtend 32))).extractLsb' 0 7 = 0x6f ∧
      decode (jType 0x6f 0 (jImmediate.makeRaw (v.signExtend 32))) =
        .jal 0 (v.signExtend 64) := by
  have hop : (jType 0x6f 0 (jImmediate.makeRaw (v.signExtend 32))).extractLsb' 0 7 = 0x6f := by
    apply BitVec.eq_of_getLsbD_eq
    intro i hi
    interval_cases i <;> simp [jType, jImmediate, rdOperand]
  have hrd : rdField (jType 0x6f 0 (jImmediate.makeRaw (v.signExtend 32))) = 0 := by
    apply BitVec.eq_of_getLsbD_eq
    intro i hi
    interval_cases i <;> simp [rdField, jType, jImmediate, rdOperand]
  have himm : immJ (jType 0x6f 0 (jImmediate.makeRaw (v.signExtend 32))) = v.signExtend 64 := by
    refine congrArg (BitVec.signExtend 64) (BitVec.eq_of_getLsbD_eq fun i hi => ?_)
    have h0 : v[0] = false := h
    have hmsb : v.msb = v[20] := BitVec.msb_eq_getLsbD_last v
    simp only [BitVec.getLsbD_append]
    interval_cases i <;> simp [jType, jImmediate, rdOperand, BitVec.getElem_signExtend, h0, hmsb]
  refine ⟨hop, ?_⟩
  rw [decode_of_opcode hop (by decide), decode32, hop, hrd, himm]
  rfl

theorem uImmediate_ofUnsigned_topPart {v : BitVec 32} (h : v.toNat < 0x7ffff800) :
    uImmediate.ofUnsigned (topPart v) = some (topPart v) := by
  have hmask : uImmediate.unsigned64bitInputMask.setWidth 32 = 0x80000fff#32 := by decide
  have hmsb : (topPart v).getLsbD 31 = false := by
    have hlt : 2 * (topPart v).toNat < 2 ^ 32 := by
      rw [toNat_topPart (by omega)]
      omega
    exact (BitVec.msb_eq_getLsbD_last _).symm.trans (BitVec.msb_eq_false_iff_two_mul_lt.mpr hlt)
  have hacc : uImmediate.accetableUnsigned (topPart v) = true := by
    simp only [ImmediateFormat.accetableUnsigned, hmask, beq_iff_eq]
    unfold topPart at hmsb ⊢
    generalize v + (v &&& 1#32 <<< 11) * 2 = u at *
    have h31 : u[31] = false := by simpa using hmsb
    apply BitVec.eq_of_getLsbD_eq
    intro i hi
    interval_cases i <;> simp [h31]
  rw [ImmediateFormat.ofUnsigned, if_pos hacc]
  simp [uImmediate]

/-- The bytes of an upper immediate and of the jump through it. -/
def longBytes (op v : BitVec 32) : List Byte :=
  toBytes 4 (uType op t3 (topPart v)) ++ toBytes 4 (iType 0x67 0 t3 (bottomPart v <<< 20))

theorem toNat_bottomPart (v : BitVec 32) : (bottomPart v).toNat =
    if 2048 ≤ v.toNat % 4096 then 2 ^ 32 - 4096 + v.toNat % 4096 else v.toNat % 4096 := by
  have hlow : (v.setWidth 12).toNat = v.toNat % 4096 := BitVec.toNat_setWidth 12 v
  rw [bottomPart, BitVec.toNat_signExtend, BitVec.toNat_setWidth, BitVec.msb_eq_decide, hlow]
  have hlt : v.toNat % 4096 < 4096 := Nat.mod_lt _ (by decide)
  split_ifs <;> simp_all <;> omega

/-- The split of a value into `base` and `add` is the one into its top and bottom part. -/
theorem base_add_eq {v : BitVec 32} (h : v.toNat < 0x7ffff800) :
    (if (0x800 : BitVec 32).sle (v &&& ~~~0xfffff000) then
        (v >>> 12 + 1, -(0x1000 - (v &&& ~~~0xfffff000)))
      else (v >>> 12, v &&& ~~~0xfffff000)) = (topPart v >>> 12, bottomPart v) := by
  have hmask : ~~~(0xfffff000 : BitVec 32) = 0xfff#32 := by decide
  have hadd : (v &&& ~~~0xfffff000).toNat = v.toNat % 4096 := by
    rw [hmask, BitVec.toNat_and]
    exact Nat.and_two_pow_sub_one_eq_mod v.toNat 12
  have hbase : (v >>> 12).toNat = v.toNat / 4096 := by
    rw [BitVec.toNat_ushiftRight, Nat.shiftRight_eq_div_pow]
  have htop : (topPart v >>> 12).toNat = (v.toNat + 2048) / 4096 := by
    rw [BitVec.toNat_ushiftRight, Nat.shiftRight_eq_div_pow, toNat_topPart (by omega)]
    exact Nat.mul_div_cancel _ (by decide)
  have hbottom := toNat_bottomPart v
  generalize v &&& ~~~0xfffff000 = add at *
  have hsle : (0x800 : BitVec 32).sle add = decide (2048 ≤ v.toNat % 4096) := by
    have hint : add.toInt = add.toNat := BitVec.toInt_eq_toNat_of_lt (by omega)
    rw [BitVec.sle_eq_decide, hint, hadd]
    exact decide_eq_decide.mpr Int.ofNat_le
  rw [hsle]
  by_cases hlow : 2048 ≤ v.toNat % 4096
  · rw [if_pos hlow] at hbottom
    rw [if_pos (decide_eq_true hlow)]
    refine Prod.ext (BitVec.eq_of_toNat_eq ?_) (BitVec.eq_of_toNat_eq ?_)
    · rw [htop, BitVec.toNat_add, hbase]
      change (v.toNat / 4096 + 1) % 2 ^ 32 = _
      omega
    · rw [hbottom, BitVec.toNat_neg, BitVec.toNat_sub, hadd]
      change (2 ^ 32 - (2 ^ 32 - v.toNat % 4096 + 4096) % 2 ^ 32) % 2 ^ 32 = _
      omega
  · rw [if_neg hlow] at hbottom
    rw [if_neg (by simpa using hlow)]
    refine Prod.ext (BitVec.eq_of_toNat_eq ?_) (BitVec.eq_of_toNat_eq ?_)
    · rw [htop, hbase]
      omega
    · rw [hbottom, hadd]

theorem topPart_shift (v : BitVec 32) : topPart v >>> 12 <<< 12 = topPart v := by
  unfold topPart
  generalize v + (v &&& 1#32 <<< 11) * 2 = u
  apply BitVec.eq_of_getLsbD_eq
  intro i hi
  interval_cases i <;> simp

/-- Below the limit of the range tests no `CHECK` fails. -/
theorem write32BitJumpInstruction_eq (writable : Addr → ℕ → Bool) (m : Mem) (op : BitVec 32)
    (address : Word) {v : BitVec 32} (h : v.toNat < 0x7ffff800) :
    write32BitJumpInstruction writable m op address v =
      some (Memory.copy writable m address (longBytes op v)) := by
  have hlower : iImmediate.ofSigned (bottomPart v) = some (bottomPart v <<< 20) :=
    iImmediate_ofSigned_signExtend _
  simp only [write32BitJumpInstruction, base_add_eq h, topPart_shift,
    uImmediate_ofUnsigned_topPart h, hlower]
  rfl

/-! ### Executing the first trampoline -/

/-- Executed at `a`, where the data memory holds them too, the bytes send control to `b` and
change `t3` only. -/
def JumpsTo (bytes : List Byte) (a b : Word) : Prop :=
  ∀ {Ω : Type} (sem : BitVec 32 → Core Ω → Core Ω) (code : Mem) (c : Core Ω),
    Holds code a bytes → Holds c.mem a bytes →
      ∃ d, Core.AgreeOff t3 c d ∧
        RunsWithin (next sem code) (fun s => InRange a bytes.length s.pc) ⟨a, c⟩ ⟨b, d⟩

theorem jumpsTo_short {a b : Word} (hb : Aligned (b - a)) (hlow : -0xffffe ≤ (b - a).toInt)
    (hhigh : (b - a).toInt ≤ 0xffffe) :
    ∃ imm, jImmediate.ofSigned (b - a) = some imm ∧
      JumpsTo (toBytes 4 (jType 0x6f 0 imm)) a b := by
  obtain ⟨v, hv⟩ : ∃ v : BitVec 21, b - a = v.signExtend 64 := by
    refine ⟨(b - a).setWidth 21, BitVec.eq_of_toInt_eq ?_⟩
    rw [BitVec.toInt_signExtend_of_le (by decide), BitVec.toInt_setWidth]
    have hmod : ((b - a).toNat : Int).bmod (2 ^ 21) = (b - a).toInt.bmod (2 ^ 21) := by
      rw [BitVec.toInt_eq_toNat_bmod, Int.bmod_bmod_of_dvd (by decide)]
    rw [hmod, Int.bmod_eq_of_le (by omega) (by omega)]
  have h0 : v.getLsbD 0 = false := by
    rw [aligned_iff, hv, BitVec.getLsbD_signExtend] at hb
    simpa using hb
  refine ⟨_, hv ▸ jImmediate_ofSigned_signExtend v h0, fun sem code c hcode _ => ⟨c, .refl _ c, ?_⟩⟩
  obtain ⟨hop, hd⟩ := decode_jal v h0
  have hrange : InRange a (toBytes 4 (jType 0x6f 0 (jImmediate.makeRaw (v.signExtend 32)))).length
      a := by
    simp [InRange]
  refine .single hrange ?_
  rw [next, step_word hcode hop (by decide), exec, hd]
  have htarget : a + v.signExtend 64 = b := by
    rw [← hv, BitVec.add_comm, BitVec.sub_add_cancel]
  exact congrArg (State.mk · c) htarget

/-- The jump through `t3` behind an upper immediate. -/
theorem run_through {Ω : Type} {sem : BitVec 32 → Core Ω → Core Ω} {code : Mem}
    {region : State Ω → Prop} {p q target : Word} {v : BitVec 32} {c : Core Ω}
    (hv : v.toNat < 0x7ffff800)
    (hcode : Holds code p (toBytes 4 (iType 0x67 0 t3 (bottomPart v <<< 20))))
    (htarget : q + v.setWidth 64 = target) (haligned : Aligned target)
    (hregion : ∀ d, region ⟨p, d⟩) :
    RunsWithin (next sem code) region ⟨p, c.setReg t3 (q + (topPart v).signExtend 64)⟩
      ⟨target, c.setReg t3 (q + (topPart v).signExtend 64)⟩ := by
  obtain ⟨hop, hd⟩ : _ ∧ decode (iType 0x67 0 t3 (bottomPart v <<< 20)) = _ :=
    decode_jalr 0 t3 (v.setWidth 12)
  refine .single (hregion _) ?_
  rw [next, step_word hcode hop (by decide), exec, hd]
  dsimp only
  rw [Core.reg_setReg_self (by decide), BitVec.add_assoc, signExtend_parts hv, htarget,
    haligned.and_not_one, Core.setReg_zero]

/-- With `lui` the value is the target itself, with `auipc` the distance to it. -/
theorem jumpsTo_long {a b : Word} {op v : BitVec 32} (hv : v.toNat < 0x7ffff800) (hb : Aligned b)
    (h : op = 0x37 ∧ b = v.setWidth 64 ∨ op = 0x17 ∧ b = a + v.setWidth 64) :
    JumpsTo (longBytes op v) a b := by
  intro Ω sem code c hcode _
  have hlen : (longBytes op v).length = 8 := by simp [longBytes]
  rw [hlen]
  obtain ⟨h1, h2⟩ := holds_append.mp hcode
  rw [length_toBytes] at h2
  have hfirst : InRange a 8 a := by simp [InRange]
  have hsecond : InRange a 8 (a + 4#64) := inRange_add (by decide)
  rcases h with ⟨rfl, hvalue⟩ | ⟨rfl, hvalue⟩
  · obtain ⟨hop, hd⟩ := decode_lui t3 v
    have hstep : next sem code ⟨a, c⟩ = ⟨a + 4#64, c.setReg t3 (0 + (topPart v).signExtend 64)⟩ := by
      rw [next, step_word h1 hop (by decide), exec, hd]
      dsimp only
      rw [show 0 + (topPart v).signExtend 64 = (topPart v).signExtend 64 from BitVec.zero_add _]
    exact ⟨_, (Core.AgreeOff.refl t3 c).setReg_right _, .head hfirst (hstep ▸
      run_through hv h2 ((BitVec.zero_add _).trans hvalue.symm) hb fun _ => hsecond)⟩
  · obtain ⟨hop, hd⟩ := decode_auipc t3 v
    have hstep : next sem code ⟨a, c⟩ = ⟨a + 4#64, c.setReg t3 (a + (topPart v).signExtend 64)⟩ := by
      rw [next, step_word h1 hop (by decide), exec, hd]
    exact ⟨_, (Core.AgreeOff.refl t3 c).setReg_right _, .head hfirst (hstep ▸
      run_through hv h2 hvalue.symm hb fun _ => hsecond)⟩

theorem fetch_half {code : Mem} {pc : Word} {w : BitVec 16} (h : Holds code pc (toBytes 2 w))
    (h3 : w.extractLsb' 0 2 ≠ 3) : fetch code pc = w.setWidth 32 ∧ lenAt code pc = 2 := by
  have h16 : load 16 code pc = w := h.load_eq rfl
  have hlen : insnLen (load 16 code pc) = 2 := by
    rw [h16]
    exact if_neg h3
  exact ⟨by rw [fetch, hlen, h16]; rfl, hlen⟩

theorem jumpsTo_wide {a b : Word} (hb : Aligned b) : JumpsTo (wideTrampoline b) a b := by
  intro Ω sem code c hcode hdata
  have hlen : (wideTrampoline b).length = 18 := by simp [wideTrampoline]
  rw [hlen]
  obtain ⟨hcode, -⟩ := holds_append.mp hcode
  obtain ⟨hcode, h3⟩ := holds_append.mp hcode
  obtain ⟨h1, h2⟩ := holds_append.mp hcode
  obtain ⟨-, h4⟩ := holds_append.mp hdata
  simp only [List.length_append, length_toBytes, Nat.reduceAdd] at h2 h3 h4
  have hload : load 64 c.mem (a + 10#64) = b := h4.load_eq rfl
  have hs1 : next sem code ⟨a, c⟩ = ⟨a + 4#64, c.setReg t3 a⟩ := by
    have hop : (0x00000e17#32).extractLsb' 0 7 = 0x17 := by decide
    have hd : decode 0x00000e17#32 = .auipc t3 0 := by decide
    rw [next, step_word h1 hop (by decide), exec, hd]
    dsimp only
    rw [show a + 0 = a from BitVec.add_zero a]
  have hs2 : next sem code ⟨a + 4#64, c.setReg t3 a⟩ = ⟨a + 8#64, c.setReg t3 b⟩ := by
    have hop : (0x00ae3e03#32).extractLsb' 0 7 = 0x03 := by decide
    have hd : decode 0x00ae3e03#32 = .ld t3 t3 10#64 := by decide
    rw [next, step_word h2 hop (by decide), exec, hd]
    dsimp only
    rw [Core.reg_setReg_self (by decide), Core.setReg_mem, hload, Core.setReg_setReg,
      add_ofNat_add]
  have hs3 : next sem code ⟨a + 8#64, c.setReg t3 b⟩ = ⟨b, c.setReg t3 b⟩ := by
    obtain ⟨hf, hl⟩ := fetch_half h3 (by decide)
    have hd : decode ((0x8e02#16).setWidth 32) = .jalr 0 t3 0 := by decide
    rw [next, step, hf, hl, exec, hd]
    dsimp only
    rw [Core.reg_setReg_self (by decide), show b + 0 = b from BitVec.add_zero b, hb.and_not_one,
      Core.setReg_zero]
  refine ⟨_, (Core.AgreeOff.refl t3 c).setReg_right b, .head (by simp [InRange]) (hs1 ▸ ?_)⟩
  refine .head (inRange_add (by decide)) (hs2 ▸ ?_)
  exact .single (inRange_add (by decide)) hs3

/-! ### What is written -/

theorem write32BitJumpInstruction_written {writable : Addr → ℕ → Bool} {m m' : Mem}
    {op v : BitVec 32} {a : Word} {copied : Bool}
    (hw : write32BitJumpInstruction writable m op a v = some (copied, m')) :
    ∃ bs : List Byte, bs.length = 8 ∧ copied = writable a bs.length ∧
      m' = if copied then store m a bs else m := by
  obtain ⟨upper, -, hw⟩ := Option.bind_eq_some_iff.mp hw
  obtain ⟨lower, -, hw⟩ := Option.bind_eq_some_iff.mp hw
  have hw := Option.some.inj hw
  rw [Memory.copy_eq] at hw
  obtain ⟨rfl, rfl⟩ := Prod.mk.inj hw
  exact ⟨_, by simp, rfl, rfl⟩

/-- What a call of `WriteFirstTrampoline` writes and clears: behind a wide trampoline, nothing is
cleared from the instruction cache. -/
theorem writeFirstTrampoline_written {writable : Addr → ℕ → Bool} {m : Mem} {a b : Word}
    {type : TrampolineType} {w : Written} (h : writeFirstTrampoline writable m a b type = some w) :
    ∃ bs : List Byte, bs.length = getFirstTrampolineSize type ∧ w.copied = writable a bs.length ∧
      w.mem = (if w.copied then store m a bs else m) ∧
      w.size = if type = .kWide ∨ type = .kCustom then 0 else bs.length := by
  have hwide : some (⟨(Memory.copy writable m a (wideTrampoline b)).1,
      (Memory.copy writable m a (wideTrampoline b)).2, 0⟩ : Written) = some w →
      ∃ bs : List Byte, bs.length = (wideTrampoline 0).length ∧ w.copied = writable a bs.length ∧
        w.mem = (if w.copied then store m a bs else m) ∧ w.size = 0 := by
    intro hw
    obtain rfl := Option.some.inj hw
    rw [Memory.copy_eq]
    exact ⟨_, by simp [wideTrampoline], rfl, rfl, rfl⟩
  cases type with
  | kPC20 =>
    rw [writeFirstTrampoline] at h
    dsimp only at h
    split at h
    · obtain ⟨imm, -, h⟩ := Option.bind_eq_some_iff.mp h
      obtain rfl := Option.some.inj h
      rw [Memory.copy_eq]
      exact ⟨_, by simp [getFirstTrampolineSize], rfl, rfl, by simp⟩
    · cases h
  | kPC32 =>
    rw [writeFirstTrampoline] at h
    dsimp only at h
    split at h
    · obtain ⟨⟨copied, m'⟩, hw, h⟩ := Option.bind_eq_some_iff.mp h
      obtain rfl := Option.some.inj h
      obtain ⟨bs, hlen, hcopied, hmem⟩ := write32BitJumpInstruction_written hw
      exact ⟨bs, hlen, hcopied, hmem, by simp [hlen]⟩
    · cases h
  | kVA32 =>
    rw [writeFirstTrampoline] at h
    dsimp only at h
    split at h
    · obtain ⟨⟨copied, m'⟩, hw, h⟩ := Option.bind_eq_some_iff.mp h
      obtain rfl := Option.some.inj h
      obtain ⟨bs, hlen, hcopied, hmem⟩ := write32BitJumpInstruction_written hw
      exact ⟨bs, hlen, hcopied, hmem, by simp [hlen]⟩
    · cases h
  | kWide =>
    obtain ⟨bs, hlen, hcopied, hmem, hsize⟩ := hwide h
    exact ⟨bs, hlen, hcopied, hmem, by simp [hsize]⟩
  | kCustom =>
    obtain ⟨bs, hlen, hcopied, hmem, hsize⟩ := hwide h
    exact ⟨bs, hlen, hcopied, hmem, by simp [hsize]⟩

end Trampoline

open Trampoline in
/-- The suggested first trampoline is written without an abort, as exactly as many bytes as its
type says, and it reaches its target from every state. -/
theorem writeFirstTrampoline_jumpsTo {a b : Word} (ha : Aligned a) (hb : Aligned b)
    (writable : Addr → ℕ → Bool) (m : Mem) :
    ∃ bytes size, bytes.length = getFirstTrampolineSize (getSuggestedTrampolineType a b) ∧
      writeFirstTrampoline writable m a b (getSuggestedTrampolineType a b) =
        some ⟨writable a bytes.length,
          if writable a bytes.length then store m a bytes else m, size⟩ ∧
      Holds (store m a bytes) a bytes ∧ JumpsTo bytes a b := by
  have hdiff : Aligned (b - a) := by
    unfold Aligned at *
    rw [BitVec.toNat_sub]
    omega
  have hlong : ∀ op v, (longBytes op v).length = 8 := fun op v => by simp [longBytes]
  unfold getSuggestedTrampolineType
  dsimp only
  split_ifs with hshort hlow hnear
  · obtain ⟨imm, himm, hjump⟩ := jumpsTo_short hdiff hshort.1 hshort.2
    refine ⟨_, 4, by simp [getFirstTrampolineSize], ?_, holds_store _ _ (by simp), hjump⟩
    simp only [writeFirstTrampoline, if_pos hshort, himm, Memory.copy_eq]
    rfl
  · have hv : (b.setWidth 32).toNat = b.toNat := by
      rw [BitVec.toNat_setWidth]
      omega
    have hb' : b = (b.setWidth 32).setWidth 64 := by
      apply BitVec.eq_of_toNat_eq
      rw [BitVec.toNat_setWidth, hv]
      omega
    refine ⟨longBytes 0x37 (b.setWidth 32), 8, hlong _ _, ?_, holds_store _ _ (by simp [hlong]),
      jumpsTo_long (hv ▸ hlow) hb (.inl ⟨rfl, hb'⟩)⟩
    simp only [writeFirstTrampoline, if_pos hlow, write32BitJumpInstruction_eq _ _ _ _ (hv ▸ hlow),
      Memory.copy_eq]
    rfl
  · have hnat : ((b - a).toNat : Int) = (b - a).toInt := by
      rw [BitVec.toInt_eq_toNat_cond] at hnear ⊢
      split_ifs at hnear ⊢ <;> omega
    have hv : ((b - a).setWidth 32).toNat = (b - a).toNat := by
      rw [BitVec.toNat_setWidth]
      omega
    have hb' : b = a + ((b - a).setWidth 32).setWidth 64 := by
      have hwide : ((b - a).setWidth 32).setWidth 64 = b - a := by
        apply BitVec.eq_of_toNat_eq
        rw [BitVec.toNat_setWidth, hv]
        omega
      rw [hwide, BitVec.add_comm, BitVec.sub_add_cancel]
    have hlt : ((b - a).setWidth 32).toNat < 0x7ffff800 := by omega
    refine ⟨longBytes 0x17 ((b - a).setWidth 32), 8, hlong _ _, ?_,
      holds_store _ _ (by simp [hlong]), jumpsTo_long hlt hb (.inr ⟨rfl, hb'⟩)⟩
    simp only [writeFirstTrampoline, if_pos hnear, write32BitJumpInstruction_eq _ _ _ _ hlt,
      Memory.copy_eq]
    rfl
  · have hlen : (wideTrampoline b).length = 18 := by simp [wideTrampoline]
    refine ⟨wideTrampoline b, 0, by simp [getFirstTrampolineSize, wideTrampoline], ?_,
      holds_store _ _ (by simp [hlen]), jumpsTo_wide hb⟩
    simp only [writeFirstTrampoline, Memory.copy_eq]

open Trampoline in
/-- From `0x1000` a single `jal` reaches `0x2000`. -/
theorem writeFirstTrampoline_jumpsTo_near :
    ∃ bytes size, bytes.length = 4 ∧
      writeFirstTrampoline (fun _ _ => true) (fun _ => 0) 0x1000 0x2000 .kPC20 =
        some ⟨true, store (fun _ => 0) 0x1000 bytes, size⟩ ∧
      Holds (store (fun _ => 0) 0x1000 bytes) 0x1000 bytes ∧ JumpsTo bytes 0x1000 0x2000 := by
  have htype : getSuggestedTrampolineType 0x1000 0x2000 = .kPC20 := by decide
  have h := writeFirstTrampoline_jumpsTo (a := 0x1000) (b := 0x2000) (by decide) (by decide)
    (fun _ _ => true) fun _ => 0
  rwa [htype] at h

end Rv64Hook
