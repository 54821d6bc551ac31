import Rv64Hook.Lib.Rv64

/-! Straight-line assembly: memory accesses and moves between registers, and frames that registers
are saved in. -/
namespace Asm
open ByteMem Rv64

/-- What is beyond the scalar registers: the first element of each vector register, and the rest. -/
structure Ext (Ω : Type) where
  v : Reg → Word
  rest : Ω

abbrev Cpu (Ω : Type) := Core (Ext Ω)

/-- Loads extend by the sign; `loadSym` is relative to the data that belong to the code. The vector
unit handles one element of 64 bits. -/
inductive Insn where
  | load (w : ℕ) (rd : Reg) (offset : Word) (rs1 : Reg)
  | loadSym (w : ℕ) (rd : Reg) (sym : Word)
  | sd (rs2 : Reg) (offset : Word) (rs1 : Reg)
  | fld (fd : Reg) (offset : Word) (rs1 : Reg)
  | fsd (fs2 : Reg) (offset : Word) (rs1 : Reg)
  | addi (rd rs1 : Reg) (imm : Word)
  | fmvDX (fd rs1 : Reg)
  | fmvXD (rd fs1 : Reg)
  | vsetivli
  | vle64 (vd rs1 : Reg)
  | vmvXS (rd vs2 : Reg)
  deriving DecidableEq

namespace Insn

abbrev lb := load 8
abbrev lh := load 16
abbrev lw := load 32
abbrev ld := load 64

end Insn

variable {Ω : Type}

def exec (data : Word) (c : Cpu Ω) : Insn → Cpu Ω
  | .load w rd offset rs1 => c.setReg rd ((load w c.mem (c.reg rs1 + offset)).signExtend 64)
  | .loadSym w rd sym => c.setReg rd ((load w c.mem (data + sym)).signExtend 64)
  | .sd rs2 offset rs1 =>
    { c with mem := store c.mem (c.reg rs1 + offset) (toBytes 8 (c.reg rs2)) }
  | .fld fd offset rs1 =>
    { c with f := Function.update c.f fd (load 64 c.mem (c.reg rs1 + offset)) }
  | .fsd fs2 offset rs1 =>
    { c with mem := store c.mem (c.reg rs1 + offset) (toBytes 8 (c.f fs2)) }
  | .addi rd rs1 imm => c.setReg rd (c.reg rs1 + imm)
  | .fmvDX fd rs1 => { c with f := Function.update c.f fd (c.reg rs1) }
  | .fmvXD rd fs1 => c.setReg rd (c.f fs1)
  | .vsetivli => c
  | .vle64 vd rs1 =>
    { c with rest := { c.rest with v := Function.update c.rest.v vd (load 64 c.mem (c.reg rs1)) } }
  | .vmvXS rd vs2 => c.setReg rd (c.rest.v vs2)

/-- One instruction after the other. -/
def execAll (data : Word) (c : Cpu Ω) (is : List Insn) : Cpu Ω := is.foldl (exec data) c

theorem execAll_append (data : Word) (c : Cpu Ω) (is js : List Insn) :
    execAll data c (is ++ js) = execAll data (execAll data c is) js := List.foldl_append

/-! ### Words in memory -/

theorem load_store_self (m : Mem) (a v : Word) : load 64 (store m a (toBytes 8 v)) a = v :=
  (holds_store m a (by rw [length_toBytes]; decide)).load_eq rfl

/-- A store elsewhere. -/
theorem load_of_agree {w : ℕ} {m m' : Mem} {a : Word}
    (h : ∀ p, InRange a (w / 8) p → m' p = m p) : load w m' a = load w m a :=
  load_congr fun _ hi => h _ (inRange_add hi)

theorem load_store_apart {m : Mem} {b v : Word} {i j w : ℕ} (hi : i + w / 8 ≤ 2 ^ 64)
    (hj : j + 8 ≤ 2 ^ 64) (h : i + w / 8 ≤ j ∨ j + 8 ≤ i) :
    load w (store m (b + BitVec.ofNat 64 j) (toBytes 8 v)) (b + BitVec.ofNat 64 i) =
      load w m (b + BitVec.ofNat 64 i) := by
  refine load_of_agree fun p hp => store_of_not_inRange fun hin => ?_
  rw [inRange_offset hi] at hp
  rw [length_toBytes, inRange_offset hj] at hin
  omega

/-! ### Frames -/

/-- A register that is saved in a slot of eight bytes. -/
inductive Register where
  | x (r : Reg)
  | f (r : Reg)
  deriving DecidableEq

def Register.value (c : Cpu Ω) : Register → Word
  | .x r => c.reg r
  | .f r => c.f r

/-- Save a register in a slot of the frame. -/
def saveAt (base : Reg) (r : Register) (k : ℕ) : Insn :=
  match r with
  | .x r => .sd r (BitVec.ofNat 64 (8 * k)) base
  | .f r => .fsd r (BitVec.ofNat 64 (8 * k)) base

/-- Restore a register from a slot of the frame. -/
def restoreAt (base : Reg) (r : Register) (k : ℕ) : Insn :=
  match r with
  | .x r => .ld r (BitVec.ofNat 64 (8 * k)) base
  | .f r => .fld r (BitVec.ofNat 64 (8 * k)) base

/-- The word in a slot. -/
def slotAt (m : Mem) (b : Word) (k : ℕ) : Word := load 64 m (b + BitVec.ofNat 64 (8 * k))

section Frame
variable {data b : Word} {base : Reg} {slot : ℕ → Register} {ks : List ℕ} {n : ℕ} {c : Cpu Ω}

theorem exec_saveAt (data : Word) (c : Cpu Ω) (base : Reg) (r : Register) (k : ℕ) :
    exec data c (saveAt base r k) =
      { c with
        mem := store c.mem (c.reg base + BitVec.ofNat 64 (8 * k)) (toBytes 8 (r.value c)) } := by
  cases r <;> rfl

/-- Saving registers changes slots of the frame only, each to its register. -/
theorem execAll_save (hb : c.reg base = b) (hn : 8 * n ≤ 2 ^ 64) (hks : ∀ k ∈ ks, k < n) :
    ∃ m, execAll data c (ks.map fun k => saveAt base (slot k) k) = { c with mem := m } ∧
      (∀ k < n, slotAt m b k = if k ∈ ks then (slot k).value c else slotAt c.mem b k) ∧
      ∀ p, ¬ InRange b (8 * n) p → m p = c.mem p := by
  induction ks generalizing c with
  | nil => exact ⟨c.mem, rfl, fun k _ => (if_neg List.not_mem_nil).symm, fun _ _ => rfl⟩
  | cons j ks ih =>
    have hj : j < n := hks j List.mem_cons_self
    let m₁ := store c.mem (b + BitVec.ofNat 64 (8 * j)) (toBytes 8 ((slot j).value c))
    have hvalue : ∀ r : Register, r.value { c with mem := m₁ } = r.value c := by
      rintro (r | r) <;> rfl
    obtain ⟨m, hm, hslots, hframe⟩ := @ih { c with mem := m₁ } hb
      fun k hk => hks k (List.mem_cons_of_mem j hk)
    refine ⟨m, ?_, fun k hk => ?_, fun p hp => ?_⟩
    · change execAll data (exec data c (saveAt base (slot j) j)) _ = _
      rw [exec_saveAt, hb]
      exact hm
    · rw [hslots k hk, hvalue]
      by_cases hmem : k ∈ ks
      · rw [if_pos hmem, if_pos (List.mem_cons_of_mem j hmem)]
      · rw [if_neg hmem]
        by_cases hkj : k = j
        · subst hkj
          rw [if_pos List.mem_cons_self]
          exact load_store_self _ _ _
        · rw [if_neg (fun h => (List.mem_cons.mp h).elim hkj hmem)]
          exact load_store_apart (by omega) (by omega) (by omega)
    · rw [hframe p hp]
      refine store_of_not_inRange fun hin => hp ?_
      rw [length_toBytes, inRange_offset (by omega)] at hin
      exact hin.2.trans_le (by omega)

/-- The register has what is in the slot. -/
def Register.set (c : Cpu Ω) (v : Word) : Register → Cpu Ω
  | .x r => c.setReg r v
  | .f r => { c with f := Function.update c.f r v }

theorem exec_restoreAt (data : Word) (c : Cpu Ω) (base : Reg) (r : Register) (k : ℕ) :
    exec data c (restoreAt base r k) = r.set c (slotAt c.mem (c.reg base) k) := by
  cases r with
  | x r =>
    change c.setReg r _ = c.setReg r _
    rw [BitVec.signExtend_eq]
    rfl
  | f r => rfl

theorem Register.set_mem (c : Cpu Ω) (v : Word) (r : Register) : (r.set c v).mem = c.mem := by
  cases r with
  | x r => exact Core.setReg_mem c r v
  | f r => rfl

theorem Register.set_rest (c : Cpu Ω) (v : Word) (r : Register) : (r.set c v).rest = c.rest := by
  cases r with
  | x r => exact Core.setReg_rest c r v
  | f r => rfl

theorem Register.value_set (c : Cpu Ω) (v : Word) {q r : Register} (h0 : r ≠ .x 0) :
    q.value (r.set c v) = if q = r then v else q.value c := by
  cases r with
  | x r =>
    have hr : r ≠ 0 := fun h => h0 (congrArg _ h)
    cases q with
    | x q =>
      by_cases hq : q = r
      · rw [hq, if_pos rfl]
        exact Core.reg_setReg_self hr
      · rw [if_neg fun h => hq (Register.x.inj h)]
        exact Core.reg_setReg_of_ne hq
    | f q =>
      rw [if_neg nofun]
      exact congrFun (Core.setReg_f c r v) q
  | f r =>
    cases q with
    | x q =>
      rw [if_neg nofun]
      rfl
    | f q =>
      change Function.update c.f r v q = _
      simp only [Function.update_apply, Register.f.injEq]
      rfl

/-- Restoring registers gives each what its slot holds, and leaves the others alone. -/
theorem execAll_restore (hb : c.reg base = b) (hks : ∀ k ∈ ks, slot k ≠ .x base ∧ slot k ≠ .x 0)
    (hinj : ∀ j ∈ ks, ∀ k ∈ ks, slot j = slot k → j = k) :
    (execAll data c (ks.map fun k => restoreAt base (slot k) k)).mem = c.mem ∧
      (execAll data c (ks.map fun k => restoreAt base (slot k) k)).rest = c.rest ∧
      (∀ k ∈ ks, (slot k).value (execAll data c (ks.map fun k => restoreAt base (slot k) k)) =
        slotAt c.mem b k) ∧
      ∀ r : Register, (∀ k ∈ ks, r ≠ slot k) →
        r.value (execAll data c (ks.map fun k => restoreAt base (slot k) k)) = r.value c := by
  induction ks generalizing c with
  | nil => exact ⟨rfl, rfl, nofun, fun _ _ => rfl⟩
  | cons j ks ih =>
    obtain ⟨hbase, hzero⟩ := hks j List.mem_cons_self
    have hstep : ∀ is, execAll data c (restoreAt base (slot j) j :: is) =
        execAll data ((slot j).set c (slotAt c.mem b j)) is := fun is => by
      change execAll data (exec data c (restoreAt base (slot j) j)) is = _
      rw [exec_restoreAt, hb]
    have hb' : ((slot j).set c (slotAt c.mem b j)).reg base = b := by
      have hvalue := Register.value_set c (slotAt c.mem b j) (q := .x base) hzero
      rw [if_neg hbase.symm] at hvalue
      exact hvalue.trans hb
    obtain ⟨hmem, hrest, hin, hout⟩ := ih hb' (fun k hk => hks k (List.mem_cons_of_mem j hk))
      fun i hi k hk => hinj i (List.mem_cons_of_mem j hi) k (List.mem_cons_of_mem j hk)
    rw [Register.set_mem] at hmem hin
    rw [List.map_cons, hstep]
    refine ⟨hmem, hrest.trans (Register.set_rest ..), fun k hk => ?_, fun r hr => ?_⟩
    · by_cases hmemk : k ∈ ks
      · exact hin k hmemk
      · obtain rfl : k = j := (List.mem_cons.mp hk).resolve_right hmemk
        rw [hout (slot k) fun i hi heq => ?_, Register.value_set c _ hzero, if_pos rfl]
        have hki := hinj k hk i (List.mem_cons_of_mem k hi) heq
        exact hmemk (hki ▸ hi)
    · rw [hout r fun i hi => hr i (List.mem_cons_of_mem j hi), Register.value_set c _ hzero,
        if_neg (hr j List.mem_cons_self)]

end Frame

end Asm
