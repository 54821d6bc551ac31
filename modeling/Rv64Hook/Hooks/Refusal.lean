import Rv64Hook.Hooks.Failure

/-! Refused writes of trampolines: when they leave everything as it was. -/
namespace Rv64Hook
open ByteMem Rv64 Process Trampoline

/-- A call on the function at `address` has changed neither a byte of the function, nor its record,
nor the blocks in use. -/
structure Unchanged (s s' : Process) (address : Word) : Prop where
  bytes : ∀ p, InRange address 32 p → s'.mem p = s.mem p
  record : s'.records address = s.records address
  blocks : s'.blocks = s.blocks

/-- The call is refused before it touches the record, or it gives the record what it has. -/
def RefusedClean (e : System) (s : Process) (address hook : Word) : Prop :=
  (address = 0 ∨ hook = 0) ∨ ∃ record, s.records address = some record ∧
    (record.isModified s.mem address = false ∨ e.readable = false ∧ record.backupTrampoline = 0 ∧
      record.overwriteSize = FunctionRecord.writtenSize address hook)

variable {e : System} {s s' : Process} {address hook backup : Word}
  {record record' : FunctionRecord} {msg : Option String}

theorem unchanged_refl (s : Process) (address : Word) : Unchanged s s address :=
  ⟨fun _ _ => rfl, rfl, rfl⟩

namespace FunctionRecord

/-- A write that is refused after the function has been read leaves its hash in the record. -/
theorem refused_hash (hs : record.writeTrampoline e s address hook backup =
      some (.error msg, record', s')) (hreadable : e.readable = true) :
    record'.overwriteSize = writtenSize address hook ∧
      record'.originalFunctionHash = computeHash (bytesAt s.mem address (writtenSize address hook)) := by
  rcases writeTrampoline_cases hs with ⟨h, -⟩ | ⟨-, ⟨-, copied, c, -, -, rfl, -⟩ | ⟨-, hs⟩⟩
  · exact absurd (h.symm.trans hreadable) (by decide)
  · exact ⟨rfl, rfl⟩
  · rcases hs with ⟨-, -, -, rfl⟩ | ⟨rel, c, -, ⟨-, -, -, rfl⟩ | ⟨-, copied, c', -, -, rfl, -⟩⟩ <;>
      exact ⟨rfl, rfl⟩

/-- A record that matches the function is not modified. -/
theorem not_isModified_of_hash {n : ℕ} (hsize : record.overwriteSize = n)
    (hhash : record.originalFunctionHash = computeHash (bytesAt s.mem address n)) :
    record.isModified s.mem address = false := by
  unfold isModified
  rw [hsize, hhash]
  simp

end FunctionRecord

/-- A process with a record that matches its function. -/
def matchedProcess : Process :=
  { initial nopMemory fun _ => 0 with
    records := Function.update (fun _ => none) 0x1000 (some
      { functionBackup := []
        originalFunctionHash := FunctionRecord.computeHash (bytesAt nopMemory 0x1000 4)
        overwriteSize := 4 }) }

end Rv64Hook
