import Rv64Hook.Relocator.Errors
import Rv64Hook.Hooks.Failure

/-! The messages of the interface: which calls that fail say why. -/
namespace Rv64Hook
open ByteMem Rv64 Process Trampoline

/-! ### The calls on the error state -/

/-- The message that a result comes with. -/
def reportError {α : Type} (res : Except (Option String) α) (err : ErrorState) : ErrorState :=
  match res with
  | .error (some message) => err.setError "Hook" message
  | _ => err

/-- `DoHook` on the error state. -/
def doHookError (e : System) (s : Process) (address : Word) (args : HookArgs)
    (err : ErrorState) : ErrorState :=
  let err := err.clearError
  let err :=
    if s.lookup address = none ∧ e.readable ∧ e.trampoline ≠ 0 then
      relocateError (allocSecondTrampoline e s).mem address
        (getFirstTrampolineSize (getSuggestedTrampolineType address e.trampoline)) err
    else err
  match doHook e s address args with
  | some (res, _) => reportError res err
  | none => err

/-- `InlineHook` on the error state. -/
def inlineHookError (e : System) (s : Process) (address hook backup : Word) (err : ErrorState) :
    ErrorState :=
  if address = 0 ∨ hook = 0 then err.setError "Hook" "Invalid argument"
  else doHookError e s address { hook := hook, userBackupAddr := backup } err

/-- `InlineInstrument` on the error state. -/
def inlineInstrumentError (e : System) (s : Process)
    (address preHandler postHandler data backup : Word) (err : ErrorState) : ErrorState :=
  if address = 0 ∨ (preHandler = 0 ∧ postHandler = 0) then
    err.setError "Hook" "Invalid argument"
  else if address = e.pthreadGetspecific ∨ address = e.pthreadSetspecific then
    err.setError "Hook" "Unsupported function"
  else
    doHookError e s address
      { preHandler := preHandler
        postHandler := postHandler
        data := data
        userBackupAddr := backup } err

/-- `FunctionRecord::WriteTrampoline` on the error state. -/
def FunctionRecord.writeTrampolineError (e : System) (s : Process) (record : FunctionRecord)
    (address hook backup : Word) (err : ErrorState) : ErrorState :=
  let err :=
    if e.readable ∧ backup ≠ 0 then
      relocateError s.mem address
        (getFirstTrampolineSize (getSuggestedTrampolineType address hook)) err
    else err
  match record.writeTrampoline e s address hook backup with
  | some (res, _) => reportError res err
  | none => err

/-- `WriteTrampoline` on the error state. -/
def writeTrampolineError (e : System) (s : Process) (address hook backup : Word)
    (err : ErrorState) : ErrorState :=
  if address = 0 ∨ hook = 0 then err.setError "Hook" "Invalid argument"
  else
    let err := err.clearError
    match s.records address with
    | some record =>
      if !record.isModified s.mem address then err.setError "Hook" "Too many hooks"
      else record.writeTrampolineError e s address hook backup err
    | none =>
      FunctionRecord.writeTrampolineError e s { functionBackup := e.uninitialized } address hook
        backup err

/-! ### Calls whose message agrees with their result -/

/-- `GetLastError` tells after the call whether it has failed, by a message of its own. -/
def MessageAgrees {α : Type} (res : Except (Option String) α) (call : ErrorState → ErrorState) :
    Prop :=
  match res with
  | .ok _ => Reported call none
  | .error _ => ∃ message, Reported call (some message)

/-- A new function for which no second trampoline is found, or whose window is refused in
silence. -/
def SilentHook (e : System) (s : Process) (address : Word) : Prop :=
  s.hooks address = none ∧ e.readable = true ∧ (e.trampoline = 0 ∨
    SilentWindow (store s.mem e.trampoline e.secondTrampoline) address
      (getFirstTrampolineSize (firstType e address)) False)

/-- A backup is asked for, of a window that is refused in silence. -/
def SilentWrite (e : System) (s : Process) (address hook backup : Word) : Prop :=
  (∀ record, s.records address = some record → record.isModified s.mem address = true) ∧
    e.readable = true ∧ backup ≠ 0 ∧
    SilentWindow s.mem address (FunctionRecord.writtenSize address hook) False

variable {e : System} {s s' : Process} {address hook backup : Word} {args : HookArgs}

section Messages
variable {α : Type} {res : Except (Option String) α} {call : ErrorState → ErrorState}

theorem reported_setError {tag message : String}
    (h : ∀ err, call err = err.setError tag message) : ∃ message, Reported call (some message) :=
  ⟨_, fun err => by rw [h]; rfl⟩

theorem reported_none (h : ∀ err, call err = err.clearError) : Reported call none :=
  fun err => by rw [h]; rfl

theorem not_messageAgrees_error {message : Option String}
    (h : ∀ err, call err = err.clearError) :
    ¬ MessageAgrees (.error message : Except (Option String) α) call := by
  rintro ⟨text, ht⟩
  have hnone := reported_none h ⟨"", false⟩
  rw [ht ⟨"", false⟩] at hnone
  cases hnone

end Messages

/-- What `DoHook` returns for a new function. -/
theorem doHook_new_result {res : HookResult} (hs : doHook e s address args = some (res, s'))
    (hnew : s.hooks address = none) :
    e.readable = false ∧ res = .error (some "Function is not readable") ∨
      e.readable = true ∧ e.trampoline = 0 ∧ res = .error none ∨
      e.readable = true ∧ e.trampoline ≠ 0 ∧
        (hookRelocation e s address = .error .refused ∧ res = .error none ∨
          ∃ r c, hookRelocation e s address = .ok (r, c) ∧
            (res = .ok e.handle ∨ res = .error (some "Function is not writable"))) := by
  rcases doHook_new hs hnew with ⟨hearly, -⟩ | ⟨hreadable, htrampoline, hcases⟩
  · rw [doHook, lookup, hnew] at hs
    dsimp only at hs
    split at hs
    · rename_i hreadable
      exact .inl ⟨by simpa using hreadable, (Prod.mk.inj (Option.some.inj hs)).1.symm⟩
    · rename_i hreadable
      have hreadable : e.readable = true := by simpa using hreadable
      have htrampoline : e.trampoline = 0 :=
        hearly.resolve_left fun h => absurd (h.symm.trans hreadable) (by decide)
      rw [if_pos htrampoline] at hs
      exact .inr (.inl ⟨hreadable, htrampoline, (Prod.mk.inj (Option.some.inj hs)).1.symm⟩)
  refine .inr (.inr ⟨hreadable, htrampoline, ?_⟩)
  rcases hcases with ⟨hrel, -⟩ | ⟨r, c, hrel, hcases⟩
  · refine .inl ⟨hrel, ?_⟩
    rw [doHook, lookup, hnew] at hs
    dsimp only at hs
    rw [if_neg (by simp [hreadable]), if_neg htrampoline] at hs
    unfold hookRelocation firstType at hrel
    rw [hrel] at hs
    exact (Prod.mk.inj (Option.some.inj hs)).1.symm
  · refine .inr ⟨r, c, hrel, ?_⟩
    rcases hcases with ⟨hsize, -⟩ | ⟨-, copied, c', -, hcases⟩
    · have hle := (hookRelocation_size hrel).1
      rw [hsize] at hle
      exact absurd hle (by cases firstType e address <;> decide)
    · split at hcases
      · exact .inl hcases.1
      · exact .inr hcases.1

theorem refused_of_relocate {heaps : ℕ → Option Word} {c : CodeMemory} {size : Int}
    (h : c.relocate heaps address size = .error .refused) :
    Rv64Hook.relocate heaps c.mem address size = .error .refused := by
  unfold CodeMemory.relocate at h
  cases hr : Rv64Hook.relocate heaps c.mem address size with
  | ok r =>
    rw [hr] at h
    cases h
  | error f =>
    rw [hr] at h
    have hf : f = .refused := Except.error.inj h
    rw [hf]

/-- The message of `DoHook` agrees with its result, but for silent hooks. -/
theorem doHook_message_iff {res : HookResult} (hs : doHook e s address args = some (res, s')) :
    MessageAgrees res (doHookError e s address args) ↔ ¬ SilentHook e s address := by
  unfold doHookError
  rw [hs]
  dsimp only
  cases hi : s.hooks address with
  | some i =>
    have hskip : ¬ (s.lookup address = none ∧ e.readable = true ∧ e.trampoline ≠ 0) := by
      rintro ⟨h, -⟩
      exact nomatch hi.symm.trans h
    have hsilent : ¬ SilentHook e s address := fun h => nomatch hi.symm.trans h.1
    simp only [if_neg hskip, hsilent, not_false_eq_true, iff_true]
    obtain ⟨info, -, ⟨-, rfl, -⟩ | ⟨-, rfl, -⟩⟩ := doHook_known hs hi
    · exact reported_setError fun err => rfl
    · exact reported_none fun err => rfl
  | none =>
    rcases doHook_new_result hs hi with
      ⟨hreadable, rfl⟩ | ⟨hreadable, htrampoline, rfl⟩ | ⟨hreadable, htrampoline, hcases⟩
    · have hsilent : ¬ SilentHook e s address := fun h =>
        absurd (hreadable.symm.trans h.2.1) (by decide)
      simp only [hsilent, not_false_eq_true, iff_true]
      exact reported_setError fun err => rfl
    · have hskip : ¬ (s.lookup address = none ∧ e.readable = true ∧ e.trampoline ≠ 0) :=
        fun h => h.2.2 htrampoline
      have hsilent : SilentHook e s address := ⟨hi, hreadable, .inl htrampoline⟩
      simp only [if_neg hskip, hsilent, not_true_eq_false, iff_false]
      exact not_messageAgrees_error fun err => rfl
    · have htaken : s.lookup address = none ∧ e.readable = true ∧ e.trampoline ≠ 0 :=
        ⟨hi, hreadable, htrampoline⟩
      have hsilent : SilentHook e s address ↔ SilentWindow (allocSecondTrampoline e s).mem address
          (getFirstTrampolineSize (firstType e address)) False := by
        unfold SilentHook
        rw [allocSecondTrampoline_mem, and_iff_right hi, and_iff_right hreadable,
          or_iff_right htrampoline]
      simp only [if_pos htaken, hsilent]
      change MessageAgrees res (fun err => reportError res (relocateError
        (allocSecondTrampoline e s).mem address
          (getFirstTrampolineSize (firstType e address)) err.clearError)) ↔ _
      rcases hcases with ⟨hrel, rfl⟩ | ⟨r, c, hrel, hres⟩
      · rcases relocate_errors.2 (refused_of_relocate hrel) with
          ⟨hwindow, herr⟩ | ⟨hwindow, tag, message, herr⟩
        · simp only [hwindow, not_true_eq_false, iff_false]
          exact not_messageAgrees_error fun err => herr _
        · simp only [hwindow, not_false_eq_true, iff_true]
          exact reported_setError fun err => herr _
      · obtain ⟨hwindow, herr⟩ := relocate_errors.1 r (relocate_eq hrel).1
        simp only [hwindow, not_false_eq_true, iff_true]
        rcases hres with rfl | rfl
        · exact reported_none fun err => herr _
        · exact reported_setError fun err => rfl

namespace FunctionRecord

variable {record record' : FunctionRecord} {res : Except (Option String) ℕ}

/-- The message of `FunctionRecord::WriteTrampoline` agrees with its result, but for a backup of a
silent window. -/
theorem writeTrampoline_message_iff
    (hs : record.writeTrampoline e s address hook backup = some (res, record', s')) :
    MessageAgrees res (fun err =>
        record.writeTrampolineError e s address hook backup err.clearError) ↔
      ¬ (e.readable = true ∧ backup ≠ 0 ∧
        SilentWindow s.mem address (writtenSize address hook) False) := by
  have hmem : (record.released s).mem = s.mem := by
    unfold released
    split <;> rfl
  have hwritten : ∀ {t : Process} {k : FunctionRecord} {call : ErrorState → ErrorState},
      Writes e t k address hook res record' s' → (∀ err, call err = err.clearError) →
      MessageAgrees res (fun err => reportError res (call err)) := by
    rintro t k call ⟨copied, c, -, -, -, rfl⟩ hcall
    cases copied with
    | true => exact reported_none fun err => hcall err
    | false => exact reported_setError fun err => rfl
  unfold writeTrampolineError
  rw [hs]
  dsimp only
  rcases writeTrampoline_cases hs with
    ⟨hreadable, rfl, -⟩ | ⟨hreadable, ⟨hbackup, hw⟩ | ⟨hbackup, hcases⟩⟩
  · have hno : ¬ (e.readable = true ∧ backup ≠ 0 ∧
        SilentWindow s.mem address (writtenSize address hook) False) := fun h =>
      absurd (hreadable.symm.trans h.1) (by decide)
    simp only [hno, not_false_eq_true, iff_true]
    exact reported_setError fun err => rfl
  · have hskip : ¬ (e.readable = true ∧ backup ≠ 0) := fun h => h.2 hbackup
    have hno : ¬ (e.readable = true ∧ backup ≠ 0 ∧
        SilentWindow s.mem address (writtenSize address hook) False) := fun h => h.2.1 hbackup
    simp only [if_neg hskip, hno, not_false_eq_true, iff_true]
    exact hwritten hw fun err => rfl
  · have htaken : e.readable = true ∧ backup ≠ 0 := ⟨hreadable, hbackup⟩
    simp only [if_pos htaken]
    rw [and_iff_right hreadable, and_iff_right hbackup]
    change MessageAgrees res (fun err => reportError res (relocateError s.mem address
      (writtenSize address hook) err.clearError)) ↔ _
    rcases hcases with ⟨hrel, rfl, -⟩ | ⟨rel, c, hrel, hcases⟩
    · have hrefused := refused_of_relocate hrel
      rw [show (record.released s).toCodeMemory.mem = s.mem from hmem] at hrefused
      rcases relocate_errors.2 hrefused with ⟨hwindow, herr⟩ | ⟨hwindow, tag, message, herr⟩
      · simp only [hwindow, not_true_eq_false, iff_false]
        exact not_messageAgrees_error fun err => herr _
      · simp only [hwindow, not_false_eq_true, iff_true]
        exact reported_setError fun err => herr _
    · obtain ⟨hok, -⟩ := relocate_eq hrel
      rw [show (record.released s).toCodeMemory.mem = s.mem from hmem] at hok
      obtain ⟨hwindow, herr⟩ := relocate_errors.1 rel hok
      simp only [hwindow, not_false_eq_true, iff_true]
      rcases hcases with ⟨hsize, -⟩ | ⟨-, hw⟩
      · have hle := (relocate_overwriteSize hok).1
        rw [hsize] at hle
        exact absurd hle (by
          unfold writtenSize
          cases getSuggestedTrampolineType address hook <;> decide)
      · exact hwritten hw fun err => herr _

end FunctionRecord

/-- The message of `WriteTrampoline` agrees with its result, but for silent writes. -/
theorem writeTrampoline_message_iff {res : Except (Option String) ℕ}
    (hs : writeTrampoline e s address hook backup = some (res, s')) :
    MessageAgrees res (writeTrampolineError e s address hook backup) ↔
      ¬ ((address ≠ 0 ∧ hook ≠ 0) ∧ SilentWrite e s address hook backup) := by
  unfold writeTrampoline at hs
  unfold writeTrampolineError
  split at hs
  · rename_i hargs
    obtain ⟨rfl, -⟩ := Prod.mk.inj (Option.some.inj hs)
    have hno : ¬ ((address ≠ 0 ∧ hook ≠ 0) ∧ SilentWrite e s address hook backup) :=
      fun h => hargs.elim h.1.1 h.1.2
    simp only [if_pos hargs, hno, not_false_eq_true, iff_true]
    exact reported_setError fun err => rfl
  rename_i hargs
  simp only [if_neg hargs]
  rw [and_iff_right (not_or.mp hargs)]
  unfold SilentWrite
  cases hr : s.records address with
  | some record =>
    rw [hr] at hs
    dsimp only at hs ⊢
    simp only [Option.some.injEq, forall_eq']
    split at hs
    · rename_i hsame
      obtain ⟨rfl, -⟩ := Prod.mk.inj (Option.some.inj hs)
      have hmodified : record.isModified s.mem address = false := by simpa using hsame
      simp only [hmodified, Bool.not_false, if_true, Bool.false_eq_true, false_and,
        not_false_eq_true, iff_true]
      exact reported_setError fun err => rfl
    · rename_i hchanged
      obtain ⟨⟨res', record', t⟩, ht, hs⟩ := Option.bind_eq_some_iff.mp hs
      obtain ⟨rfl, -⟩ := Prod.mk.inj (Option.some.inj hs)
      have hmodified : record.isModified s.mem address = true := by simpa using hchanged
      simp only [hmodified, Bool.not_true, Bool.false_eq_true, if_false, true_and]
      exact FunctionRecord.writeTrampoline_message_iff ht
  | none =>
    rw [hr] at hs
    dsimp only at hs ⊢
    obtain ⟨⟨res', record', t⟩, ht, hs⟩ := Option.bind_eq_some_iff.mp hs
    obtain ⟨rfl, -⟩ := Prod.mk.inj (Option.some.inj hs)
    simp only [reduceCtorEq, false_implies, implies_true, true_and]
    exact FunctionRecord.writeTrampoline_message_iff ht

/-- `c.nop` everywhere. -/
def compressedNops : Mem := fun p => if p.toNat % 2 = 0 then 1 else 0

end Rv64Hook
