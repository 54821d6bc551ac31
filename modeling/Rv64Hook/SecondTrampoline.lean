import Rv64Hook.Lib.Asm

/-! The second trampoline, as `trampoline_riscv64.S` has it. The full set of floating-point
registers is packed. -/
namespace Rv64Hook
open ByteMem Rv64 Asm

namespace SecondTrampoline

def gp : Reg := 3
def tp : Reg := 4
def t0 : Reg := 5
def t1 : Reg := 6
def t2 : Reg := 7
def s0 : Reg := 8
def s1 : Reg := 9
def a0 : Reg := 10
def a1 : Reg := 11
def a2 : Reg := 12
def a3 : Reg := 13
def a4 : Reg := 14
def a5 : Reg := 15
def a6 : Reg := 16
def a7 : Reg := 17
def s2 : Reg := 18
def s3 : Reg := 19
def s4 : Reg := 20
def s5 : Reg := 21
def s6 : Reg := 22
def s7 : Reg := 23
def s8 : Reg := 24
def s9 : Reg := 25
def s10 : Reg := 26
def s11 : Reg := 27
def t4 : Reg := 29
def t5 : Reg := 30
def t6 : Reg := 31

def ft0 : Reg := 0
def ft1 : Reg := 1
def ft2 : Reg := 2
def ft3 : Reg := 3
def ft4 : Reg := 4
def ft5 : Reg := 5
def ft6 : Reg := 6
def ft7 : Reg := 7
def fs0 : Reg := 8
def fs1 : Reg := 9
def fa0 : Reg := 10
def fa1 : Reg := 11
def fa2 : Reg := 12
def fa3 : Reg := 13
def fa4 : Reg := 14
def fa5 : Reg := 15
def fa6 : Reg := 16
def fa7 : Reg := 17
def fs2 : Reg := 18
def fs3 : Reg := 19
def fs4 : Reg := 20
def fs5 : Reg := 21
def fs6 : Reg := 22
def fs7 : Reg := 23
def fs8 : Reg := 24
def fs9 : Reg := 25
def fs10 : Reg := 26
def fs11 : Reg := 27
def ft8 : Reg := 28
def ft9 : Reg := 29
def ft10 : Reg := 30
def ft11 : Reg := 31

/-- `TMP_VECTOR_REGISTER` -/
def v28 : Reg := 28

/-! ### Macros -/

def sdp (r1 r2 : Reg) (off : Word) (rs1 : Reg) : List Insn := [.sd r1 off rs1, .sd r2 (off + 8) rs1]

def sdt (r1 r2 r3 r4 : Reg) (off : Word) (rs1 : Reg) : List Insn :=
  sdp r1 r2 off rs1 ++ sdp r3 r4 (off + 16) rs1

def ldp (r1 r2 : Reg) (off : Word) (rs1 : Reg) : List Insn := [.ld r2 (off + 8) rs1, .ld r1 off rs1]

def ldt (r1 r2 r3 r4 : Reg) (off : Word) (rs1 : Reg) : List Insn :=
  ldp r3 r4 (off + 16) rs1 ++ ldp r1 r2 off rs1

def fsdp (r1 r2 : Reg) (off : Word) (rs1 : Reg) : List Insn :=
  [.fsd r1 off rs1, .fsd r2 (off + 8) rs1]

def fsdt (r1 r2 r3 r4 : Reg) (off : Word) (rs1 : Reg) : List Insn :=
  fsdp r1 r2 off rs1 ++ fsdp r3 r4 (off + 16) rs1

def fldp (r1 r2 : Reg) (off : Word) (rs1 : Reg) : List Insn :=
  [.fld r2 (off + 8) rs1, .fld r1 off rs1]

def fldt (r1 r2 r3 r4 : Reg) (off : Word) (rs1 : Reg) : List Insn :=
  fldp r3 r4 (off + 16) rs1 ++ fldp r1 r2 off rs1

def sregs (storeRa : Bool) : List Insn :=
  [.sd sp (-(8 * 63)) sp, .addi sp sp (-(8 * 65))] ++
  (if storeRa then [.sd ra (8 * 1) sp] else []) ++
  sdt gp tp t0 t1 (8 * 3) sp ++
  sdt t2 s0 s1 a0 (8 * 7) sp ++
  sdt a1 a2 a3 a4 (8 * 11) sp ++
  sdt a5 a6 a7 s2 (8 * 15) sp ++
  sdt s3 s4 s5 s6 (8 * 19) sp ++
  sdt s7 s8 s9 s10 (8 * 23) sp ++
  sdt s11 t3 t4 t5 (8 * 27) sp ++
  [.sd t6 (8 * 31) sp] ++
  fsdt ft0 ft1 ft2 ft3 (8 * 32) sp ++
  fsdt ft4 ft5 ft6 ft7 (8 * 36) sp ++
  fsdt fs0 fs1 fa0 fa1 (8 * 40) sp ++
  fsdt fa2 fa3 fa4 fa5 (8 * 44) sp ++
  fsdt fa6 fa7 fs2 fs3 (8 * 48) sp ++
  fsdt fs4 fs5 fs6 fs7 (8 * 52) sp ++
  fsdt fs8 fs9 fs10 fs11 (8 * 56) sp ++
  fsdt ft8 ft9 ft10 ft11 (8 * 60) sp

def pregs : List Insn :=
  fldt ft8 ft9 ft10 ft11 (8 * 60) sp ++
  fldt fs8 fs9 fs10 fs11 (8 * 56) sp ++
  fldt fs4 fs5 fs6 fs7 (8 * 52) sp ++
  fldt fa6 fa7 fs2 fs3 (8 * 48) sp ++
  fldt fa2 fa3 fa4 fa5 (8 * 44) sp ++
  fldt fs0 fs1 fa0 fa1 (8 * 40) sp ++
  fldt ft4 ft5 ft6 ft7 (8 * 36) sp ++
  fldt ft0 ft1 ft2 ft3 (8 * 32) sp ++
  [.ld t6 (8 * 31) sp] ++
  ldt s11 t3 t4 t5 (8 * 27) sp ++
  ldt s7 s8 s9 s10 (8 * 23) sp ++
  ldt s3 s4 s5 s6 (8 * 19) sp ++
  ldt a5 a6 a7 s2 (8 * 15) sp ++
  ldt a1 a2 a3 a4 (8 * 11) sp ++
  ldt t2 s0 s1 a0 (8 * 7) sp ++
  ldt gp tp t0 t1 (8 * 3) sp ++
  [.ld ra (8 * 1) sp, .ld sp (8 * 2) sp]

/-! ### Offsets -/

def handleNext : Word := 8 * 4
def handlePreHandler : Word := 8 * 6
def handlePostHandler : Word := 8 * 7
def handleData : Word := 8 * 8
def handleEnabled : Word := 8 * 10

def dataRootHandle : Word := 0
def dataHook : Word := 8
def dataBackup : Word := 16
def dataGetspecific : Word := 24
def dataSetspecific : Word := 32
def dataTlsKey : Word := 40
def dataPostHandlers : Word := 44
def dataEnabled : Word := 46

/-! ### Code -/

/-- Where the trampoline calls something. -/
inductive Site where
  | preHandler | setspecific | backup | getspecific | postHandler
  deriving DecidableEq

/-- What surrounds the code: its data, the build flag `USE_VECTOR_EXTENSION`, the return address of
each call, and what has become of the state when the callee returns. -/
structure Setting (Ω : Type) where
  data : Word
  vector : Bool
  link : Site → Word
  callee : Site → Word → Cpu Ω → Cpu Ω

/-- A call, with the state that the callee is entered in. -/
structure Called (Ω : Type) where
  site : Site
  target : Word
  cpu : Cpu Ω

/-- The calls that have been made, and the state. -/
structure Progress (Ω : Type) where
  calls : List (Called Ω)
  cpu : Cpu Ω

/-- The code is left with `ret`, or by a jump. -/
structure Finished (Ω : Type) where
  calls : List (Called Ω)
  returned : Bool
  target : Word
  cpu : Cpu Ω

variable {Ω : Type}

namespace Progress

def execAll (e : Setting Ω) (p : Progress Ω) (is : List Insn) : Progress Ω :=
  { p with cpu := Asm.execAll e.data p.cpu is }

/-- `jalr t3` -/
def jalr (e : Setting Ω) (site : Site) (p : Progress Ω) : Progress Ω :=
  let target := p.cpu.reg t3
  let cpu := p.cpu.setReg ra (e.link site)
  { calls := p.calls ++ [⟨site, target, cpu⟩], cpu := e.callee site target cpu }

def jr (p : Progress Ω) : Finished Ω := ⟨p.calls, false, p.cpu.reg t3, p.cpu⟩

def ret (p : Progress Ω) : Finished Ω := ⟨p.calls, true, p.cpu.reg ra, p.cpu⟩

end Progress

/-- `callrh` from label `1` to its end. -/
def callrhRound (e : Setting Ω) (site : Site) (off : Word) (p : Progress Ω) : Progress Ω :=
  let p := p.execAll e [.ld t3 handleNext a1, .sd t3 0 sp, .lb t3 handleEnabled a1]
  let p :=
    if p.cpu.reg t3 = 0 then p
    else
      let p := p.execAll e [.ld t3 off a1]
      if p.cpu.reg t3 = 0 then p
      else (p.execAll e [.addi a0 sp 8, .ld a2 handleData a1]).jalr e site
  p.execAll e [.ld a1 0 sp]

def callrhLoop (e : Setting Ω) (site : Site) (off : Word) : ℕ → Progress Ω → Option (Progress Ω)
  | 0, _ => none
  | fuel + 1, p =>
    let p := callrhRound e site off p
    if p.cpu.reg a1 ≠ 0 then callrhLoop e site off fuel p else some p

def callrh (e : Setting Ω) (site : Site) (off handle : Word) (fuel : ℕ) (p : Progress Ω) :
    Option (Progress Ω) :=
  callrhLoop e site off fuel (p.execAll e [.loadSym 64 a1 handle])

/-- `.L.jump_backup` -/
def jumpBackup (e : Setting Ω) (p : Progress Ω) : Finished Ω :=
  (p.execAll e [.loadSym 64 t3 dataBackup]).jr

/-- `.L.call_post_register_handlers` -/
def callPostRegisterHandlers (e : Setting Ω) (fuel : ℕ) (p : Progress Ω) : Option (Finished Ω) := do
  let p ← callrh e .postHandler handlePostHandler dataRootHandle fuel p
  return (p.execAll e pregs).ret

/-- From `getspecific` to `.L.call_post_register_handlers` -/
def loadRa (e : Setting Ω) (p : Progress Ω) : Progress Ω :=
  let p := p.execAll e [.loadSym 64 t3 dataGetspecific]
  if p.cpu.reg t3 = 0 then
    if e.vector then p.execAll e [.vsetivli, .vmvXS t3 v28, .sd t3 (8 * 1) sp]
    else p.execAll e [.fmvXD ra ft11]
  else
    ((p.execAll e [.loadSym 32 a0 dataTlsKey]).jalr e .getspecific).execAll e [.sd a0 (8 * 1) sp]

/-- `.L.pop_pre_registers` -/
def popPreRegisters (e : Setting Ω) (fuel : ℕ) (p : Progress Ω) : Option (Finished Ω) :=
  let p := p.execAll e (.lb t3 (8 * 64) sp :: pregs)
  if p.cpu.reg t3 ≠ 0 then some p.ret
  else
    let p := p.execAll e [.loadSym 16 t3 dataPostHandlers]
    if p.cpu.reg t3 = 0 then some (jumpBackup e p)
    else
      let p := (p.execAll e [.loadSym 64 t3 dataBackup]).jalr e .backup
      callPostRegisterHandlers e fuel (loadRa e (p.execAll e (sregs false)))

/-- From `setspecific` to `.L.pop_pre_registers` -/
def storeRa (e : Setting Ω) (p : Progress Ω) : Progress Ω :=
  let p := p.execAll e [.loadSym 64 t3 dataSetspecific]
  if p.cpu.reg t3 = 0 then
    if e.vector then p.execAll e [.vsetivli, .addi t3 sp (8 * 1), .vle64 v28 t3]
    else p.execAll e [.fmvDX ft11 ra]
  else (p.execAll e [.loadSym 32 a0 dataTlsKey, .ld a1 (8 * 1) sp]).jalr e .setspecific

/-- `.L.call_register_handlers` -/
def callRegisterHandlers (e : Setting Ω) (fuel : ℕ) (p : Progress Ω) : Option (Finished Ω) := do
  let p := p.execAll e (sregs true ++ [.sd 0 (8 * 64) sp])
  let p ← callrh e .preHandler handlePreHandler dataRootHandle fuel p
  popPreRegisters e fuel (storeRa e p)

/-- `trampoline`; the fuel is for the loops over the handles. -/
def trampoline (e : Setting Ω) (fuel : ℕ) (c : Cpu Ω) : Option (Finished Ω) :=
  let p : Progress Ω := ⟨[], c⟩
  let p := p.execAll e [.loadSym 8 t3 dataEnabled]
  if p.cpu.reg t3 = 0 then some (jumpBackup e p)
  else
    let p := p.execAll e [.loadSym 64 t3 dataHook]
    if p.cpu.reg t3 = 0 then callRegisterHandlers e fuel p else some p.jr

/-! ### The frame -/

/-- The register that a slot of the frame is for. -/
def slotOf (k : ℕ) : Register :=
  if k < 32 then .x (BitVec.ofNat 5 k) else .f (BitVec.ofNat 5 (k - 32))

theorem sregs_eq (storeRa : Bool) :
    sregs storeRa = [.sd sp (-(8 * 63)) sp, .addi sp sp (-(8 * 65))] ++
      ((if storeRa then [1] else []) ++ List.range' 3 61).map fun k => saveAt sp (slotOf k) k := by
  cases storeRa <;> rfl

theorem pregs_eq :
    pregs = ((List.range' 3 61).reverse ++ [1]).map (fun k => restoreAt sp (slotOf k) k) ++
      [.ld sp (8 * 2) sp] := by
  rfl

end SecondTrampoline
end Rv64Hook
