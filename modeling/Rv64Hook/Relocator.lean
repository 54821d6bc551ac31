import Rv64Hook.Berberis.Assembler
import Rv64Hook.Berberis.Decoder
import Rv64Hook.Memory

/-! The instruction relocator: the callbacks of `RV64Relocator` and `RV64Relocator::Relocate`. -/
namespace Rv64Hook
open ByteMem Rv64 Berberis

/-- `TMP_GENERIC_REGISTER`, which is `t3`. -/
abbrev tmpGenericRegister : Reg := t3

inductive RelocationState where
  | kNone | kSkipped | kRelocated | kError
  deriving DecidableEq

/-- The keys of `addresses_` are kept in ascending order; the label of a key is `.address key`. -/
structure RV64Relocator where
  assembler : Assembler := {}
  addresses : List Word := []
  pc : Word := 0
  state : RelocationState := .kNone
  returned : Bool := false

/-- What ends a relocation early: a failed `CHECK` or a write through a null pointer, or the
return of zero. -/
inductive Failure where
  | abort | refused
  deriving DecidableEq

namespace RV64Relocator

/-- The keys of a map after `operator[]`. -/
def insertKey (key : Word) (keys : List Word) : List Word :=
  if key ∈ keys then keys else keys.orderedInsert (· ≤ ·) key

def setNewState (r : RV64Relocator) (state : RelocationState) : RV64Relocator :=
  { r with state := if r.state = .kNone then state else .kError }

def skip (r : RV64Relocator) : RV64Relocator := r.setNewState .kSkipped

/-- After a return instruction, data may follow the code. -/
def undefined (r : RV64Relocator) : RV64Relocator :=
  if r.returned then r.skip else r.setNewState .kError

def jumpAddress (r : RV64Relocator) (address : Word) : RV64Relocator :=
  { r with
    assembler := (r.assembler.ld tmpGenericRegister (.address address)).jr tmpGenericRegister
    addresses := insertKey address r.addresses }

def auipc (r : RV64Relocator) (dst : Reg) (imm : BitVec 32) : RV64Relocator :=
  let address := r.pc + imm.signExtend 64
  setNewState { r with
    assembler := r.assembler.ld dst (.address address)
    addresses := insertKey address r.addresses } .kRelocated

/-- The switch over the branch opcodes; a reserved opcode emits nothing. -/
def branchTo (a : Assembler) (opcode : BitVec 3) (src1 src2 : Reg) (label : Label) :
    Option Assembler :=
  if opcode = 0b000 then some (if src2 = 0 then a.beqz src1 label else a.beq src1 src2 label)
  else if opcode = 0b001 then some (if src2 = 0 then a.bnez src1 label else a.bne src1 src2 label)
  else if opcode = 0b100 then some (if src2 = 0 then a.bltz src1 label else a.blt src1 src2 label)
  else if opcode = 0b101 then some (if src2 = 0 then a.bgez src1 label else a.bge src1 src2 label)
  else if opcode = 0b110 then some (a.bltu src1 src2 label)
  else if opcode = 0b111 then some (a.bgeu src1 src2 label)
  else none

def compareAndBranch (r : RV64Relocator) (opcode : BitVec 3) (src1 src2 : Reg)
    (offset : BitVec 16) : Option RV64Relocator :=
  let address := r.pc + offset.signExtend 64
  let (label, a) := r.assembler.makeLabel
  let (branchLabel, a) := a.makeLabel
  match branchTo a opcode src1 src2 branchLabel with
  | none => some (undefined { r with assembler := a })
  | some a => do
    let a ← (a.jal 0 label).bind branchLabel
    let r := jumpAddress { r with assembler := a } address
    let a ← r.assembler.bind label
    some (setNewState { r with assembler := a } .kRelocated)

def jumpAndLink (r : RV64Relocator) (dst : Reg) (offset : BitVec 32) : RV64Relocator :=
  let address := r.pc + offset.signExtend 64
  setNewState { r with
    assembler :=
      (r.assembler.ld tmpGenericRegister (.address address)).jalr dst tmpGenericRegister 0
    addresses := insertKey address r.addresses } .kRelocated

def jumpAndLinkRegister (r : RV64Relocator) (dst base : Reg) (offset : BitVec 16) :
    RV64Relocator :=
  skip { r with returned := r.returned || (dst = 0 && base = 1 && offset = 0) }

/-- One callback of the decoder; those not listed skip. -/
def consume (r : RV64Relocator) : Callback → Option RV64Relocator
  | .auipc dst imm => some (r.auipc dst imm)
  | .compareAndBranch opcode src1 src2 offset => r.compareAndBranch opcode src1 src2 offset
  | .jumpAndLink dst offset _ => some (r.jumpAndLink dst offset)
  | .jumpAndLinkRegister dst base offset _ => some (r.jumpAndLinkRegister dst base offset)
  | .undefined => some r.undefined
  | _ => some r.skip

def emitAddresses (r : RV64Relocator) : Option Assembler :=
  r.addresses.foldlM (fun a key => (a.bind (.address key)).map (·.emit64 key)) r.assembler

/-- One turn of the loop of `Relocate`, with the count that `Decode` returns. -/
def relocateInsn (code : Mem) (address : Word) (r : RV64Relocator) :
    Except Failure (RV64Relocator × ℕ) :=
  let (callbacks, count) := Decoder.decode code address
  match callbacks.foldlM consume { r with pc := address } with
  | none => .error .abort
  | some r' =>
    let state := r'.state
    let r' := { r' with state := .kNone }
    if state = .kSkipped then
      let a := r'.assembler.emit16 (load 16 code address)
      let a := if count = 4 then a.emit16 (load 16 code (address + 2)) else a
      .ok ({ r' with assembler := a }, count)
    else if state ≠ .kRelocated then .error .refused
    else .ok (r', count)

structure Window where
  relocator : RV64Relocator := {}
  address : Word
  overwriteSize : ℕ := 0

/-- `while (size > 0)`. Every turn takes at least one byte off `size`, so that `size.toNat` turns
are enough. -/
def relocateWindow (code : Mem) : ℕ → Int → Window → Except Failure Window
  | 0, _, w => .ok w
  | fuel + 1, size, w =>
    if 0 < size then do
      let (r, count) ← relocateInsn code w.address w.relocator
      relocateWindow code fuel (size - count)
        ⟨r, w.address + BitVec.ofNat 64 count, w.overwriteSize + count⟩
    else .ok w

end RV64Relocator

/-- `Memory::Alloc(size)`; `heaps` tells where the heaps have room for an allocation. -/
def Memory.alloc (heaps : ℕ → Option Word) (size : ℕ) : Option Word :=
  if kHeapSize / 2 ≤ size then none else heaps size

/-- A finished relocation: what `Relocate` returns, what it puts into `*relocated`, and the bytes
installed there. -/
structure Relocated where
  overwriteSize : ℕ
  backup : Word
  block : List Byte

def orAbort {α : Type} : Option α → Except Failure α
  | some a => .ok a
  | none => .error .abort

open RV64Relocator in
/-- `RV64Relocator::Relocate` on the code in memory. A null allocation, or one that the installed
code overruns, ends in a fault. -/
def relocate (heaps : ℕ → Option Word) (code : Mem) (address : Word) (size : Int) :
    Except Failure Relocated := do
  let w ← relocateWindow code size.toNat size { address := address }
  let a ← orAbort (w.relocator.jumpAddress w.address).emitAddresses
  let a ← orAbort a.finalize
  let installSize := a.pc.toNat
  let backup ← orAbort (Memory.alloc heaps installSize)
  if installSize = a.code.length then .ok ⟨w.overwriteSize, backup, a.code⟩ else .error .abort

end Rv64Hook
