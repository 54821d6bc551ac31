import Rv64Hook.Hooks.Effects
import Rv64Hook.Lib.Calls

/-! The calls of the library, and what a call of `DoHook` goes through. -/
namespace Rv64Hook
open ByteMem Rv64 LinkedList Calls

open Process Trampoline

/-- A call of the interface, with what the system gives to it. -/
inductive LibraryCall where
  | inlineHook (e : System) (address hook backup : Word)
  | inlineInstrument (e : System) (address preHandler postHandler data backup : Word)
  | unhook (e : System) (handle : Word)
  | unhookAll (e : System) (handle : Word)
  | setEnabled (handle : Word) (enabled : Bool)
  | setEnabledAll (handle : Word) (enabled : Bool)
  | inlineUnhook (e : System) (address : Word)
  | writeTrampoline (e : System) (address hook backup : Word)

def LibraryCall.step : LibraryCall → Process → Option Process
  | inlineHook e address hook backup, s => do
    let (_, s) ← Rv64Hook.inlineHook e s address hook backup
    some s
  | inlineInstrument e address preHandler postHandler data backup, s => do
    let (_, s) ← Rv64Hook.inlineInstrument e s address preHandler postHandler data backup
    some s
  | unhook e handle, s => do
    let (_, s) ← unhookExt e s handle
    some s
  | unhookAll e handle, s => do
    let (_, s) ← unhookAllExt e s handle
    some s
  | setEnabled handle enabled, s => do
    let (_, s) ← setEnabledExt s handle enabled
    some s
  | setEnabledAll handle enabled, s => do
    let (_, s) ← setEnabledAllExt s handle enabled
    some s
  | inlineUnhook e address, s => do
    let (_, s) ← Rv64Hook.inlineUnhook e s address
    some s
  | writeTrampoline e address hook backup, s => do
    let (_, s) ← Rv64Hook.writeTrampoline e s address hook backup
    some s

variable {e : System} {s s' : Process} {address i p : Word} {args : HookArgs} {info : HookInfo}
  {td : TrampolineData} {h : HookHandleExt}

/-- The type of the first trampoline of a hook. -/
def firstType (e : System) (address : Word) : TrampolineType :=
  getSuggestedTrampolineType address e.trampoline

/-- The relocation that `DoHook` asks for. -/
def hookRelocation (e : System) (s : Process) (address : Word) :
    Except Failure (Relocated × CodeMemory) :=
  (allocSecondTrampoline e s).relocate e.heaps address
    (getFirstTrampolineSize (firstType e address))

/-- The process once `DoHook` has registered the info of a new function. -/
def createdProcess (e : System) (s : Process) (address : Word) (r : Relocated) (c : CodeMemory) :
    Process :=
  create e { allocSecondTrampoline e s with toCodeMemory := c } address r.backup
    (BitVec.ofNat 8 r.overwriteSize)

/-- The ways through `DoHook` for a function that has an info. -/
theorem doHook_known {res : HookResult} (hs : doHook e s address args = some (res, s'))
    (hi : s.hooks address = some i) :
    ∃ info, s.infos i = some info ∧
      (info.handleCount = 0xffff ∧ res = .error (some "Too many hooks") ∧ s' = s ∨
        info.handleCount ≠ 0xffff ∧ res = .ok e.handle ∧ newHookHandle e s i args = some s') := by
  rw [doHook, lookup, hi] at hs
  obtain ⟨info, hinfo, hs⟩ := Option.bind_eq_some_iff.mp hs
  refine ⟨info, hinfo, ?_⟩
  split at hs
  · rename_i hcount
    obtain ⟨rfl, rfl⟩ := Prod.mk.inj (Option.some.inj hs)
    exact .inl ⟨hcount, rfl, rfl⟩
  · rename_i hcount
    obtain ⟨t, ht, hs⟩ := Option.bind_eq_some_iff.mp hs
    obtain ⟨rfl, rfl⟩ := Prod.mk.inj (Option.some.inj hs)
    exact .inr ⟨hcount, rfl, ht⟩

/-- The ways through `DoHook` for a new function. -/
theorem doHook_new {res : HookResult} (hs : doHook e s address args = some (res, s'))
    (hi : s.hooks address = none) :
    (e.readable = false ∨ e.trampoline = 0) ∧ s' = s ∨ e.readable = true ∧ e.trampoline ≠ 0 ∧
      (hookRelocation e s address = .error .refused ∧ s' = allocSecondTrampoline e s ∨
        ∃ r c, hookRelocation e s address = .ok (r, c) ∧
          (r.overwriteSize = 0 ∧ s' = { allocSecondTrampoline e s with toCodeMemory := c } ∨
            r.overwriteSize ≠ 0 ∧ ∃ copied c',
              (createdProcess e s address r c).writeFirstTrampoline e.writable address
                e.trampoline (firstType e address) = some (copied, c') ∧
              if copied then
                res = .ok e.handle ∧
                  newHookHandle e { createdProcess e s address r c with toCodeMemory := c' }
                    e.info args = some s'
              else
                res = .error (some "Function is not writable") ∧
                  unhookInfo e { createdProcess e s address r c with toCodeMemory := c' } e.info
                    false = some s')) := by
  rw [doHook, lookup, hi] at hs
  split at hs
  · rename_i heq
    cases heq
  split at hs
  · rename_i hreadable
    obtain ⟨-, rfl⟩ := Prod.mk.inj (Option.some.inj hs)
    exact .inl ⟨.inl (by simpa using hreadable), rfl⟩
  rename_i hreadable
  split at hs
  · rename_i htrampoline
    obtain ⟨-, rfl⟩ := Prod.mk.inj (Option.some.inj hs)
    exact .inl ⟨.inr htrampoline, rfl⟩
  rename_i htrampoline
  refine .inr ⟨by simpa using hreadable, htrampoline, ?_⟩
  dsimp only at hs
  split at hs
  · cases hs
  · rename_i hrel
    obtain ⟨-, rfl⟩ := Prod.mk.inj (Option.some.inj hs)
    exact .inl ⟨hrel, rfl⟩
  rename_i r c hrel
  refine .inr ⟨r, c, hrel, ?_⟩
  split at hs
  · rename_i hsize
    obtain ⟨-, rfl⟩ := Prod.mk.inj (Option.some.inj hs)
    exact .inl ⟨hsize, rfl⟩
  rename_i hsize
  refine .inr ⟨hsize, ?_⟩
  obtain ⟨⟨copied, c'⟩, hwrite, hs⟩ := Option.bind_eq_some_iff.mp hs
  refine ⟨copied, c', hwrite, ?_⟩
  dsimp only at hs
  split at hs
  · rename_i hcopied
    rw [if_pos hcopied]
    obtain ⟨t, ht, hs⟩ := Option.bind_eq_some_iff.mp hs
    obtain ⟨rfl, rfl⟩ := Prod.mk.inj (Option.some.inj hs)
    exact ⟨rfl, ht⟩
  · rename_i hcopied
    rw [if_neg hcopied]
    obtain ⟨t, ht, hs⟩ := Option.bind_eq_some_iff.mp hs
    obtain ⟨rfl, rfl⟩ := Prod.mk.inj (Option.some.inj hs)
    exact ⟨rfl, ht⟩

/-! ### The calls of the interface -/

namespace LibraryCall

variable {hook backup preHandler postHandler data : Word} {enabled : Bool}

theorem step_inlineHook (hs : (inlineHook e address hook backup).step s = some s') :
    (address = 0 ∨ hook = 0) ∧ s' = s ∨ address ≠ 0 ∧ hook ≠ 0 ∧
      ∃ r, doHook e s address { hook := hook, userBackupAddr := backup } = some (r, s') := by
  obtain ⟨⟨r, t⟩, ht, hs⟩ := Option.bind_eq_some_iff.mp hs
  obtain rfl := Option.some.inj hs
  unfold Rv64Hook.inlineHook at ht
  split at ht
  · rename_i hargs
    obtain ⟨-, rfl⟩ := Prod.mk.inj (Option.some.inj ht)
    exact .inl ⟨hargs, rfl⟩
  · rename_i hargs
    exact .inr ⟨fun h => hargs (.inl h), fun h => hargs (.inr h), r, ht⟩

theorem step_inlineInstrument
    (hs : (inlineInstrument e address preHandler postHandler data backup).step s = some s') :
    ((address = 0 ∨ preHandler = 0 ∧ postHandler = 0) ∨ address = e.pthreadGetspecific ∨
        address = e.pthreadSetspecific) ∧ s' = s ∨
      address ≠ 0 ∧ (preHandler ≠ 0 ∨ postHandler ≠ 0) ∧ address ≠ e.pthreadGetspecific ∧
      address ≠ e.pthreadSetspecific ∧
      ∃ r, doHook e s address
        { preHandler := preHandler
          postHandler := postHandler
          data := data
          userBackupAddr := backup } = some (r, s') := by
  obtain ⟨⟨r, t⟩, ht, hs⟩ := Option.bind_eq_some_iff.mp hs
  obtain rfl := Option.some.inj hs
  unfold Rv64Hook.inlineInstrument at ht
  split at ht
  · rename_i hargs
    obtain ⟨-, rfl⟩ := Prod.mk.inj (Option.some.inj ht)
    exact .inl ⟨.inl hargs, rfl⟩
  rename_i hargs
  split at ht
  · rename_i hunsupported
    obtain ⟨-, rfl⟩ := Prod.mk.inj (Option.some.inj ht)
    exact .inl ⟨.inr hunsupported, rfl⟩
  rename_i hsupported
  refine .inr ⟨fun h => hargs (.inl h), ?_, fun h => hsupported (.inl h),
    fun h => hsupported (.inr h), r, ht⟩
  by_contra hno
  exact hargs (.inr (by simpa using hno))

theorem step_unhook (hs : (unhook e p).step s = some s') :
    ∃ r, unhookExt e s p = some (r, s') := by
  obtain ⟨⟨r, t⟩, ht, hs⟩ := Option.bind_eq_some_iff.mp hs
  obtain rfl := Option.some.inj hs
  exact ⟨r, ht⟩

theorem step_unhookAll (hs : (unhookAll e p).step s = some s') :
    ∃ r, unhookAllExt e s p = some (r, s') := by
  obtain ⟨⟨r, t⟩, ht, hs⟩ := Option.bind_eq_some_iff.mp hs
  obtain rfl := Option.some.inj hs
  exact ⟨r, ht⟩

theorem step_setEnabled (hs : (setEnabled p enabled).step s = some s') :
    ∃ h, s.handles p = some h ∧ s' = s.setHandle p { h with enabled := enabled } := by
  obtain ⟨⟨r, t⟩, ht, hs⟩ := Option.bind_eq_some_iff.mp hs
  obtain rfl := Option.some.inj hs
  obtain ⟨h, hh, ht⟩ := Option.bind_eq_some_iff.mp ht
  obtain ⟨-, rfl⟩ := Prod.mk.inj (Option.some.inj ht)
  exact ⟨h, hh, rfl⟩

theorem step_setEnabledAll (hs : (setEnabledAll p enabled).step s = some s') :
    s' = s ∨ ∃ h info td, s.handles p = some h ∧ s.infos h.info = some info ∧
      s.trampolines info.trampoline = some td ∧
      s' = s.setTrampolineData info.trampoline { td with enabled := enabled } := by
  obtain ⟨⟨r, t⟩, ht, hs⟩ := Option.bind_eq_some_iff.mp hs
  obtain rfl := Option.some.inj hs
  obtain ⟨h, hh, ht⟩ := Option.bind_eq_some_iff.mp ht
  split at ht
  · obtain ⟨-, rfl⟩ := Prod.mk.inj (Option.some.inj ht)
    exact .inl rfl
  obtain ⟨info, hi, ht⟩ := Option.bind_eq_some_iff.mp ht
  obtain ⟨td, htd, ht⟩ := Option.bind_eq_some_iff.mp ht
  obtain ⟨-, rfl⟩ := Prod.mk.inj (Option.some.inj ht)
  exact .inr ⟨h, info, td, hh, hi, htd, rfl⟩

theorem step_inlineUnhook (hs : (inlineUnhook e address).step s = some s') :
    (address = 0 ∨ s.records address = none) ∧ s' = s ∨ address ≠ 0 ∧
      ((∃ i info r, s.hooks address = some i ∧ s.infos i = some info ∧ info.rootHandle ≠ 0 ∧
          unhookAllExt e s info.rootHandle = some (r, s')) ∨
        (∀ i info, s.hooks address = some i → s.infos i = some info → info.rootHandle = 0) ∧
          ∃ record, s.records address = some record ∧
            s' = { record.unhook e s address with
              records := Function.update (record.unhook e s address).records address none }) := by
  obtain ⟨⟨r, t⟩, ht, hs⟩ := Option.bind_eq_some_iff.mp hs
  obtain rfl := Option.some.inj hs
  unfold Rv64Hook.inlineUnhook at ht
  split at ht
  · rename_i hzero
    obtain ⟨-, rfl⟩ := Prod.mk.inj (Option.some.inj ht)
    exact .inl ⟨.inl hzero, rfl⟩
  rename_i haddress
  have hrecords : ∀ o : Option (Bool × Process), o = some (r, t) →
      (∀ record, s.records address = some record → o = some (true, { record.unhook e s address with
        records := Function.update (record.unhook e s address).records address none })) →
      (s.records address = none → o = some (false, s)) →
      (address = 0 ∨ s.records address = none) ∧ t = s ∨ ∃ record, s.records address = some record ∧
        t = { record.unhook e s address with
          records := Function.update (record.unhook e s address).records address none } := by
    intro o ho hsome hnone
    cases hrecord : s.records address with
    | none =>
      obtain ⟨-, rfl⟩ := Prod.mk.inj (Option.some.inj (ho.symm.trans (hnone hrecord)))
      exact .inl ⟨.inr rfl, rfl⟩
    | some record =>
      obtain ⟨-, rfl⟩ := Prod.mk.inj (Option.some.inj (ho.symm.trans (hsome record hrecord)))
      exact .inr ⟨record, rfl, rfl⟩
  dsimp only at ht
  split at ht
  · rename_i i hi
    obtain ⟨info, hinfo, ht⟩ := Option.bind_eq_some_iff.mp ht
    split at ht
    · rename_i hroot
      obtain ⟨⟨r', u⟩, hu, ht⟩ := Option.bind_eq_some_iff.mp ht
      obtain ⟨-, rfl⟩ := Prod.mk.inj (Option.some.inj ht)
      exact .inr ⟨haddress, .inl ⟨i, info, r', hi, hinfo, hroot, hu⟩⟩
    · rename_i hroot
      have hfound := hrecords _ ht (fun _ h => by rw [h]) fun h => by rw [h]
      refine hfound.imp_right fun hrecord => ⟨haddress, .inr ⟨fun j info' hj hinfo' => ?_,
        hrecord⟩⟩
      obtain rfl := Option.some.inj (hi.symm.trans hj)
      obtain rfl := Option.some.inj (hinfo.symm.trans hinfo')
      exact not_not.mp hroot
  · rename_i hi
    have hfound := hrecords _ ht (fun _ h => by rw [h]) fun h => by rw [h]
    refine hfound.imp_right fun hrecord => ⟨haddress, .inr ⟨fun j info' hj _ => ?_,
      hrecord⟩⟩
    rw [show s.hooks address = none from hi] at hj
    cases hj

end LibraryCall

/-! ### Records -/

namespace FunctionRecord

/-- The process once the trampoline of an earlier write is freed. -/
def released (record : FunctionRecord) (s : Process) : Process :=
  if record.backupTrampoline ≠ 0 then { s with toCodeMemory := s.free record.backupTrampoline }
  else s

/-- The size of the trampoline that `WriteTrampoline` writes. -/
def writtenSize (address hook : Word) : ℕ :=
  getFirstTrampolineSize (getSuggestedTrampolineType address hook)

/-- The record once it has saved the bytes of the function. -/
def saved (record : FunctionRecord) (m : Mem) (address hook : Word) : FunctionRecord where
  functionBackup := bytesAt m address (writtenSize address hook) ++
    record.functionBackup.drop (writtenSize address hook)
  originalFunctionHash := computeHash (bytesAt m address (writtenSize address hook))
  overwriteSize := writtenSize address hook

variable {record record' : FunctionRecord} {hook backup : Word} {r : Except (Option String) ℕ}

/-- What `WriteTrampoline` does after its relocation. -/
def Writes (e : System) (s : Process) (record : FunctionRecord) (address hook : Word)
    (r : Except (Option String) ℕ) (record' : FunctionRecord) (s' : Process) : Prop :=
  ∃ copied c, s.writeFirstTrampoline e.writable address hook
      (getSuggestedTrampolineType address hook) = some (copied, c) ∧
    s' = { s with toCodeMemory := c } ∧ record' = record ∧
    r = if copied then .ok (writtenSize address hook)
      else .error (some "Function is not writable")

/-- The ways through `FunctionRecord::WriteTrampoline`. -/
theorem writeTrampoline_cases
    (hs : record.writeTrampoline e s address hook backup = some (r, record', s')) :
    e.readable = false ∧ r = .error (some "Function is not readable") ∧ s' = record.released s ∧
        record' = { record with
          backupTrampoline := 0
          overwriteSize := writtenSize address hook } ∨
      e.readable = true ∧
        (backup = 0 ∧ Writes e (record.released s) (record.saved s.mem address hook) address hook r
            record' s' ∨
          backup ≠ 0 ∧
            ((record.released s).relocate e.heaps address (writtenSize address hook) =
                .error .refused ∧ r = .error none ∧ s' = record.released s ∧
                record' = record.saved s.mem address hook ∨
              ∃ rel c, (record.released s).relocate e.heaps address (writtenSize address hook) =
                  .ok (rel, c) ∧
                (rel.overwriteSize = 0 ∧ r = .error none ∧
                    s' = ({ record.released s with toCodeMemory := c } : Process).setVar backup
                      rel.backup ∧
                    record' = record.saved s.mem address hook ∨
                  rel.overwriteSize ≠ 0 ∧
                    Writes e (({ record.released s with toCodeMemory := c } : Process).setVar
                        backup rel.backup)
                      { record.saved s.mem address hook with backupTrampoline := rel.backup }
                      address hook r record' s'))) := by
  have hmem : (record.released s).mem = s.mem := by
    unfold released
    split <;> rfl
  have hwrite : ∀ {t : Process} {k : FunctionRecord},
      ((t.writeFirstTrampoline e.writable address hook
          (getSuggestedTrampolineType address hook)).bind fun w =>
        if w.1 then some (Except.ok (writtenSize address hook), k, { t with toCodeMemory := w.2 })
        else some (.error (some "Function is not writable"), k, { t with toCodeMemory := w.2 })) =
          some (r, record', s') →
      Writes e t k address hook r record' s' := by
    intro t k hk
    obtain ⟨⟨copied, c⟩, hw, hk⟩ := Option.bind_eq_some_iff.mp hk
    refine ⟨copied, c, hw, ?_⟩
    dsimp only at hk
    split at hk
    · rename_i hcopied
      obtain ⟨rfl, hk'⟩ := Prod.mk.inj (Option.some.inj hk)
      obtain ⟨rfl, rfl⟩ := Prod.mk.inj hk'
      exact ⟨rfl, rfl, by rw [if_pos hcopied]⟩
    · rename_i hcopied
      obtain ⟨rfl, hk'⟩ := Prod.mk.inj (Option.some.inj hk)
      obtain ⟨rfl, rfl⟩ := Prod.mk.inj hk'
      exact ⟨rfl, rfl, by rw [if_neg hcopied]⟩
  rw [writeTrampoline, ← released] at hs
  dsimp only at hs
  rw [hmem] at hs
  split at hs
  · rename_i hreadable
    obtain ⟨rfl, hs'⟩ := Prod.mk.inj (Option.some.inj hs)
    obtain ⟨rfl, rfl⟩ := Prod.mk.inj hs'
    exact .inl ⟨by simpa using hreadable, rfl, rfl, rfl⟩
  rename_i hreadable
  refine .inr ⟨by simpa using hreadable, ?_⟩
  split at hs
  · rename_i hbackup
    refine .inr ⟨hbackup, ?_⟩
    split at hs
    · cases hs
    · rename_i hrel
      obtain ⟨rfl, hs'⟩ := Prod.mk.inj (Option.some.inj hs)
      obtain ⟨rfl, rfl⟩ := Prod.mk.inj hs'
      exact .inl ⟨hrel, rfl, rfl, rfl⟩
    · rename_i rel c hrel
      refine .inr ⟨rel, c, hrel, ?_⟩
      split at hs
      · rename_i hsize
        obtain ⟨rfl, hs'⟩ := Prod.mk.inj (Option.some.inj hs)
        obtain ⟨rfl, rfl⟩ := Prod.mk.inj hs'
        exact .inl ⟨hsize, rfl, rfl, rfl⟩
      · rename_i hsize
        exact .inr ⟨hsize, hwrite hs⟩
  · rename_i hbackup
    exact .inl ⟨not_not.mp hbackup, hwrite hs⟩

theorem released_frame (record : FunctionRecord) (s : Process) :
    record.released s = { s with toCodeMemory := (record.released s).toCodeMemory } := by
  unfold released
  split <;> rfl

/-- `FunctionRecord::WriteTrampoline` leaves hooks, handles and the records of others alone. -/
theorem writeTrampoline_frame
    (hs : record.writeTrampoline e s address hook backup = some (r, record', s')) :
    s' = { s with
      toCodeMemory := s'.toCodeMemory
      vars := s'.vars } := by
  have hreleased := released_frame record s
  rcases writeTrampoline_cases hs with ⟨-, -, rfl, -⟩ | ⟨-, ⟨-, copied, c, -, rfl, -⟩ | ⟨-, hs⟩⟩
  · rw [hreleased]
  · rw [hreleased]
  · rcases hs with ⟨-, -, rfl, -⟩ | ⟨rel, c, -, ⟨-, -, rfl, -⟩ | ⟨-, copied, c', -, rfl, -⟩⟩ <;>
      rw [hreleased] <;> rfl

end FunctionRecord

/-- The ways through `WriteTrampoline`. -/
theorem writeTrampoline_ways {hook backup : Word} {r : Except (Option String) ℕ}
    (hs : writeTrampoline e s address hook backup = some (r, s')) :
    ((address = 0 ∨ hook = 0) ∨
        ∃ record, s.records address = some record ∧ record.isModified s.mem address = false) ∧
      (∃ msg, r = .error msg) ∧ s' = s ∨ address ≠ 0 ∧ hook ≠ 0 ∧ ∃ record record' t,
      (s.records address = some record ∧ record.isModified s.mem address = true ∨
        s.records address = none ∧ record = { functionBackup := e.uninitialized }) ∧
      record.writeTrampoline e s address hook backup = some (r, record', t) ∧
      s' = { t with records := Function.update t.records address (some record') } := by
  unfold writeTrampoline at hs
  split at hs
  · rename_i hargs
    obtain ⟨rfl, rfl⟩ := Prod.mk.inj (Option.some.inj hs)
    exact .inl ⟨.inl hargs, ⟨_, rfl⟩, rfl⟩
  rename_i hargs
  split at hs
  · rename_i record hrecord
    split at hs
    · rename_i hsame
      obtain ⟨rfl, rfl⟩ := Prod.mk.inj (Option.some.inj hs)
      exact .inl ⟨.inr ⟨record, hrecord, by simpa using hsame⟩, ⟨_, rfl⟩, rfl⟩
    · rename_i hmodified
      obtain ⟨⟨r', record', u⟩, hu, hs⟩ := Option.bind_eq_some_iff.mp hs
      obtain ⟨rfl, rfl⟩ := Prod.mk.inj (Option.some.inj hs)
      exact .inr ⟨fun h => hargs (.inl h), fun h => hargs (.inr h), record, record', u,
        .inl ⟨hrecord, by simpa using hmodified⟩, hu, rfl⟩
  · rename_i hrecord
    obtain ⟨⟨r', record', u⟩, hu, hs⟩ := Option.bind_eq_some_iff.mp hs
    obtain ⟨rfl, rfl⟩ := Prod.mk.inj (Option.some.inj hs)
    exact .inr ⟨fun h => hargs (.inl h), fun h => hargs (.inr h), _, record', u,
      .inr ⟨hrecord, rfl⟩, hu, rfl⟩

namespace LibraryCall

variable {hook backup : Word}

theorem step_writeTrampoline (hs : (writeTrampoline e address hook backup).step s = some s') :
    ((address = 0 ∨ hook = 0) ∨
        ∃ record, s.records address = some record ∧ record.isModified s.mem address = false) ∧
      s' = s ∨ address ≠ 0 ∧ hook ≠ 0 ∧ ∃ record r record' t,
      (s.records address = some record ∧ record.isModified s.mem address = true ∨
        s.records address = none ∧ record = { functionBackup := e.uninitialized }) ∧
      record.writeTrampoline e s address hook backup = some (r, record', t) ∧
      s' = { t with records := Function.update t.records address (some record') } := by
  obtain ⟨⟨r, t⟩, ht, hs⟩ := Option.bind_eq_some_iff.mp hs
  obtain rfl := Option.some.inj hs
  rcases writeTrampoline_ways ht with ⟨hno, -, rfl⟩ | ⟨h1, h2, record, record', u, hw⟩
  · exact .inl ⟨hno, rfl⟩
  · exact .inr ⟨h1, h2, record, r, record', u, hw⟩

theorem step_writeTrampoline_frame
    (hs : (writeTrampoline e address hook backup).step s = some s') :
    s' = { s with
      toCodeMemory := s'.toCodeMemory
      vars := s'.vars
      records := s'.records } := by
  rcases step_writeTrampoline hs with ⟨-, rfl⟩ | ⟨-, -, record, r, record', t, -, ht, rfl⟩
  · rfl
  · rw [FunctionRecord.writeTrampoline_frame ht]

end LibraryCall

/-! ### New objects -/

/-- Every object of the second process is in the first or allocated with the environment. -/
structure Allocates (e : System) (s s' : Process) : Prop where
  handles : ∀ q, s'.handles q ≠ none → s.handles q ≠ none ∨ q = e.handle
  infos : ∀ i, s'.infos i ≠ none → s.infos i ≠ none ∨ i = e.info

theorem newHookHandle_allocates (hs : newHookHandle e s i args = some s') :
    (∀ q, s'.handles q ≠ none → s.handles q ≠ none ∨ q = e.handle) ∧
      ∀ j, s'.infos j ≠ none → s.infos j ≠ none := by
  obtain ⟨info, td, hi, -, ha⟩ := newHookHandle_added hs
  refine ⟨fun q hq => ?_, fun j hj => ?_⟩
  · by_cases hqe : q = e.handle
    · exact .inr hqe
    · refine .inl fun hnone => hq ?_
      have hcore := ha.handles q
      rw [if_neg hqe, hnone] at hcore
      exact Option.map_eq_none_iff.mp hcore
  · rw [ha.infos] at hj
    by_cases hji : j = i
    · rw [hji, hi]
      simp
    · rwa [Function.update_of_ne hji] at hj

theorem unhookInfo_allocates {initialized : Bool} (hs : unhookInfo e s i initialized = some s') :
    s'.handles = s.handles ∧ s'.infos = s.infos := by
  obtain ⟨info, td, -, -, hhandles, hinfos, -⟩ := unhookInfo_eq hs
  exact ⟨hhandles, hinfos⟩

theorem doHook_allocates {r : HookResult} (hs : doHook e s address args = some (r, s')) :
    Allocates e s s' := by
  cases hi : s.hooks address with
  | some i =>
    obtain ⟨info, hinfo, ⟨-, -, rfl⟩ | ⟨-, -, hs'⟩⟩ := doHook_known hs hi
    · exact ⟨fun q hq => .inl hq, fun j hj => .inl hj⟩
    · obtain ⟨hhandles, hinfos⟩ := newHookHandle_allocates hs'
      exact ⟨hhandles, fun j hj => .inl (hinfos j hj)⟩
  | none =>
    rcases doHook_new hs hi with ⟨-, rfl⟩ | ⟨-, -, ⟨-, rfl⟩ | ⟨rel, c, hrel, hcases⟩⟩
    · exact ⟨fun q hq => .inl hq, fun j hj => .inl hj⟩
    · exact ⟨fun q hq => .inl hq, fun j hj => .inl hj⟩
    rcases hcases with ⟨-, rfl⟩ | ⟨-, copied, c', hwrite, hcases⟩
    · exact ⟨fun q hq => .inl hq, fun j hj => .inl hj⟩
    have hcreated : ∀ j, (createdProcess e s address rel c).infos j ≠ none →
        s.infos j ≠ none ∨ j = e.info := by
      intro j hj
      by_cases hje : j = e.info
      · exact .inr hje
      · refine .inl ?_
        rwa [show (createdProcess e s address rel c).infos j = s.infos j from
          Function.update_of_ne hje ..] at hj
    split at hcases
    · obtain ⟨hhandles, hinfos⟩ := newHookHandle_allocates hcases.2
      exact ⟨hhandles, fun j hj => hcreated j (hinfos j hj)⟩
    · obtain ⟨hhandles, hinfos⟩ := unhookInfo_allocates hcases.2
      exact ⟨fun q hq => .inl (hhandles ▸ hq), fun j hj => hcreated j (hinfos ▸ hj)⟩

theorem unhookAllExt_allocates {r : Bool} (hs : unhookAllExt e s p = some (r, s')) :
    (∀ q, s'.handles q ≠ none → s.handles q ≠ none) ∧ s'.infos = s.infos := by
  obtain ⟨h, -, ⟨-, rfl⟩ | ⟨-, info, xs, t, -, -, hdel, hrest, hu⟩⟩ := unhookAllExt_cases hs
  · exact ⟨fun q hq => hq, rfl⟩
  obtain ⟨hhandles, hinfos⟩ := unhookInfo_allocates hu
  refine ⟨fun q hq hnone => hq ?_, hinfos.trans (by rw [hrest])⟩
  rw [hhandles, hdel, hnone, ite_self]

namespace LibraryCall

/-- The environment from which a call takes new objects. -/
def system : LibraryCall → Option System
  | inlineHook e _ _ _ | inlineInstrument e _ _ _ _ _ => some e
  | _ => none

theorem step_allocates {c : LibraryCall} (hs : c.step s = some s') :
    (∃ e, c.system = some e ∧ Allocates e s s') ∨
      (∀ q, s'.handles q ≠ none → s.handles q ≠ none) ∧ ∀ i, s'.infos i ≠ none → s.infos i ≠ none := by
  cases c with
  | inlineHook e address hook backup =>
    rcases step_inlineHook hs with ⟨-, rfl⟩ | ⟨-, -, r, ht⟩
    · exact .inr ⟨fun q hq => hq, fun i hi => hi⟩
    · exact .inl ⟨e, rfl, doHook_allocates ht⟩
  | inlineInstrument e address preHandler postHandler data backup =>
    rcases step_inlineInstrument hs with ⟨-, rfl⟩ | ⟨-, -, -, -, r, ht⟩
    · exact .inr ⟨fun q hq => hq, fun i hi => hi⟩
    · exact .inl ⟨e, rfl, doHook_allocates ht⟩
  | unhook e p =>
    obtain ⟨r, ht⟩ := step_unhook hs
    obtain ⟨h, hh, ⟨-, rfl⟩ | ⟨-, info, hi, hcases⟩⟩ := unhookExt_cases ht
    · exact .inr ⟨fun q hq => hq, fun i hi => hi⟩
    rcases hcases with ⟨-, hu⟩ | ⟨-, td, -, hm⟩
    · obtain ⟨hhandles, hinfos⟩ := unhookInfo_allocates hu
      refine .inr ⟨fun q hq hnone => hq ?_, fun i hi => hinfos ▸ hi⟩
      rw [hhandles, deleteHandle_handles]
      by_cases hqp : q = p
      · rw [hqp, Function.update_self]
      · rw [Function.update_of_ne hqp, hnone]
    · refine .inr ⟨fun q hq hnone => hq ?_, fun i hi' => ?_⟩
      · have hcore := hm.handles q
        rw [hnone] at hcore
        exact Option.map_eq_none_iff.mp (hcore.trans (ite_self none))
      · rw [hm.infos] at hi'
        by_cases hih : i = h.info
        · rw [hih, hi]
          simp
        · rwa [Function.update_of_ne hih] at hi'
  | unhookAll e p =>
    obtain ⟨r, ht⟩ := step_unhookAll hs
    obtain ⟨hhandles, hinfos⟩ := unhookAllExt_allocates ht
    exact .inr ⟨hhandles, fun i hi => hinfos ▸ hi⟩
  | setEnabled p enabled =>
    obtain ⟨h, hh, rfl⟩ := step_setEnabled hs
    refine .inr ⟨fun q hq hnone => hq ?_, fun i hi => hi⟩
    have hqp : q ≠ p := by
      rintro rfl
      rw [hh] at hnone
      cases hnone
    rw [setHandle_handles, Function.update_of_ne hqp, hnone]
  | setEnabledAll p enabled =>
    rcases step_setEnabledAll hs with rfl | ⟨h, info, td, -, -, -, rfl⟩ <;>
      exact .inr ⟨fun q hq => hq, fun i hi => hi⟩
  | inlineUnhook e address =>
    rcases step_inlineUnhook hs with ⟨-, rfl⟩ | ⟨-, ⟨i, info, r, -, -, -, ht⟩ | ⟨-, record, -, rfl⟩⟩
    · exact .inr ⟨fun q hq => hq, fun i hi => hi⟩
    · obtain ⟨hhandles, hinfos⟩ := unhookAllExt_allocates ht
      exact .inr ⟨hhandles, fun i hi => hinfos ▸ hi⟩
    · exact .inr ⟨fun q hq => hq, fun i hi => hi⟩
  | writeTrampoline e address hook backup =>
    rw [step_writeTrampoline_frame hs]
    exact .inr ⟨fun q hq => hq, fun i hi => hi⟩

/-- The objects after a run are those before it and those that its calls allocate. -/
theorem run_allocates {ok : Process → LibraryCall → Prop} {cs : List LibraryCall}
    (hrun : Run LibraryCall.step ok s cs s') :
    (∀ q, s'.handles q ≠ none → s.handles q ≠ none ∨ ∃ c ∈ cs, ∃ e, c.system = some e ∧
      q = e.handle) ∧
    ∀ i, s'.infos i ≠ none → s.infos i ≠ none ∨ ∃ c ∈ cs, ∃ e, c.system = some e ∧
      i = e.info := by
  induction hrun with
  | nil => exact ⟨fun q hq => .inl hq, fun i hi => .inl hi⟩
  | @cons s t u c cs _ hs _ ih =>
    obtain ⟨hhandles, hinfos⟩ := ih
    refine ⟨fun q hq => ?_, fun i hi => ?_⟩
    · rcases hhandles q hq with hq | ⟨d, hd, e, he, rfl⟩
      · rcases step_allocates hs with ⟨e, he, ha⟩ | ⟨ha, -⟩
        · exact (ha.handles q hq).imp_right fun heq => ⟨c, List.mem_cons_self, e, he, heq⟩
        · exact .inl (ha q hq)
      · exact .inr ⟨d, List.mem_cons_of_mem _ hd, e, he, rfl⟩
    · rcases hinfos i hi with hi | ⟨d, hd, e, he, rfl⟩
      · rcases step_allocates hs with ⟨e, he, ha⟩ | ⟨-, ha⟩
        · exact (ha.infos i hi).imp_right fun heq => ⟨c, List.mem_cons_self, e, he, heq⟩
        · exact .inl (ha i hi)
      · exact .inr ⟨d, List.mem_cons_of_mem _ hd, e, he, rfl⟩

end LibraryCall
end Rv64Hook
