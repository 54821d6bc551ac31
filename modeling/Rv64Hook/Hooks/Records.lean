import Rv64Hook.Hooks.Bytes

/-! Trampolines written by the user: what `InlineUnhook` restores, and how long the backups live. -/
namespace Rv64Hook
open ByteMem Rv64 LinkedList Calls Process Trampoline

/-- A call of the interface to function records, with what the system gives to it. -/
inductive RecordCall where
  | writeTrampoline (e : System) (address hook backup : Word)
  | inlineUnhook (e : System) (address : Word)

/-- The process, and the backups that the user has got for each function until it is unhooked. -/
structure RecordState where
  process : Process
  handedOut : List (Word × Word) := []

def RecordCall.step : RecordCall → RecordState → Option RecordState
  | writeTrampoline e address hook backup, s => do
    let (r, t) ← Rv64Hook.writeTrampoline e s.process address hook backup
    let handedOut := match r with
      | .ok _ => if backup ≠ 0 then (address, t.vars backup) :: s.handedOut else s.handedOut
      | .error _ => s.handedOut
    some { process := t, handedOut := handedOut }
  | inlineUnhook e address, s => do
    let (_, t) ← Rv64Hook.inlineUnhook e s.process address
    some { process := t, handedOut := s.handedOut.filter (·.1 ≠ address) }

/-- The bytes of a function that its record has saved. -/
def FunctionRecord.Window (record : FunctionRecord) (address p : Word) : Prop :=
  InRange address record.overwriteSize p

instance (record : FunctionRecord) (address p : Word) : Decidable (record.Window address p) :=
  inferInstanceAs (Decidable (InRange ..))

namespace RecordState

/-- Outside the heaps, only windows of functions with a record differ from the original, and no
backup in the hands of the user is freed. -/
structure Undone (orig : Mem) (heap : Addr → Prop) (s : RecordState) : Prop where
  bytes : ∀ p, ¬ heap p → s.process.mem p ≠ orig p →
    ∃ a record, s.process.records a = some record ∧ record.Window a p
  backups : ∀ a b, (a, b) ∈ s.handedOut → s.process.blocks b = true

/-- Every record has saved the original bytes of its window and owns the backup of its function. -/
structure Undoable (orig : Mem) (heap : Addr → Prop) (s : RecordState) : Prop where
  saved : ∀ a record, s.process.records a = some record →
    record.functionBackup.take record.overwriteSize = bytesAt orig a record.overwriteSize
  noHeap : ∀ a record p, s.process.records a = some record → record.Window a p → ¬ heap p
  disjoint : ∀ a b record record' p, s.process.records a = some record →
    s.process.records b = some record' → record.Window a p → record'.Window b p → a = b
  outside : ∀ p, ¬ heap p →
    (∀ a record, s.process.records a = some record → ¬ record.Window a p) →
    s.process.mem p = orig p
  live : ∀ a record, s.process.records a = some record → record.backupTrampoline ≠ 0 →
    s.process.blocks record.backupTrampoline = true
  distinct : ∀ a b record record', s.process.records a = some record →
    s.process.records b = some record' → record.backupTrampoline = record'.backupTrampoline →
    record.backupTrampoline ≠ 0 → a = b
  handedOut : ∀ a b, (a, b) ∈ s.handedOut → b ≠ 0 ∧ ∃ record, s.process.records a = some record ∧
    record.backupTrampoline = b
  hooks : ∀ a, s.process.hooks a = none

variable {orig : Mem} {heap : Addr → Prop} {e : System} {s s' : RecordState} {t : Process}
  {address hook backup p : Word} {record : FunctionRecord}

theorem undoable_initial (mem : Mem) (vars : Word → Word) (heap : Addr → Prop) :
    Undoable mem heap { process := initial mem vars } :=
  ⟨fun _ _ h => (nomatch h), fun _ _ _ h => (nomatch h), fun _ _ _ _ _ h => (nomatch h),
    fun _ _ _ => rfl, fun _ _ h => (nomatch h), fun _ _ _ _ h => (nomatch h),
    fun _ _ h => (nomatch h), fun _ => rfl⟩

theorem Undoable.undone (hu : Undoable orig heap s) : Undone orig heap s := by
  refine ⟨fun p hp hne => ?_, fun a b hab => ?_⟩
  · by_contra hno
    refine hne (hu.outside p hp fun a record hrecord hw => hno ⟨a, record, hrecord, hw⟩)
  · obtain ⟨hb, record, hrecord, rfl⟩ := hu.handedOut a b hab
    exact hu.live a record hrecord hb

/-- A new record that has saved the bytes of its function. -/
theorem Undoable.written {handedOut : List (Word × Word)} (hu : Undoable orig heap s)
    (hnew : s.process.records address = none)
    (hwindow : ∀ p, record.Window address p → ¬ heap p ∧
      ∀ a other, s.process.records a = some other → ¬ other.Window a p)
    (hsaved : record.functionBackup.take record.overwriteSize =
      bytesAt s.process.mem address record.overwriteSize)
    (hmem : ∀ p, ¬ heap p → ¬ record.Window address p → t.mem p = s.process.mem p)
    (hblocks : ∀ b, s.process.blocks b = true → t.blocks b = true)
    (hbackup : record.backupTrampoline ≠ 0 → t.blocks record.backupTrampoline = true ∧
      s.process.blocks record.backupTrampoline = false)
    (hrecords : t.records = Function.update s.process.records address (some record))
    (hhooks : t.hooks = s.process.hooks)
    (hhanded : ∀ a b, (a, b) ∈ handedOut → (a, b) ∈ s.handedOut ∨
      a = address ∧ b = record.backupTrampoline ∧ b ≠ 0) :
    Undoable orig heap { process := t, handedOut := handedOut } := by
  have hcases : ∀ a other, t.records a = some other → a = address ∧ other = record ∨
      a ≠ address ∧ s.process.records a = some other := by
    intro a other ha
    rw [hrecords] at ha
    by_cases h : a = address
    · rw [h, Function.update_self] at ha
      exact .inl ⟨h, (Option.some.inj ha).symm⟩
    · rw [Function.update_of_ne h] at ha
      exact .inr ⟨h, ha⟩
  have hold : ∀ a other, s.process.records a = some other → t.records a = some other := by
    intro a other ha
    rw [hrecords, Function.update_of_ne]
    · exact ha
    · rintro rfl
      rw [hnew] at ha
      cases ha
  have hself : t.records address = some record := by rw [hrecords, Function.update_self]
  -- a backup of another record is in use, the new one was not
  have hother : ∀ a other, s.process.records a = some other → record.backupTrampoline ≠ 0 →
      other.backupTrampoline ≠ record.backupTrampoline := by
    intro a other ha hne heq
    have hlive := hu.live a other ha (heq ▸ hne)
    rw [heq, (hbackup hne).2] at hlive
    cases hlive
  refine ⟨fun a other ha => ?_, fun a other p ha hw => ?_, fun a b k k' p ha hb hw hw' => ?_,
    fun p hp hout => ?_, fun a other ha hne => ?_, fun a b k k' ha hb heq hne => ?_,
    fun a b hab => ?_, fun a => ?_⟩
  · rcases hcases a other ha with ⟨rfl, rfl⟩ | ⟨-, ha⟩
    · rw [hsaved]
      refine bytesAt_congr fun p hw => ?_
      obtain ⟨hp, hno⟩ := hwindow p hw
      exact hu.outside p hp hno
    · exact hu.saved a other ha
  · rcases hcases a other ha with ⟨rfl, rfl⟩ | ⟨-, ha⟩
    · exact (hwindow p hw).1
    · exact hu.noHeap a other p ha hw
  · rcases hcases a k ha with ⟨rfl, rfl⟩ | ⟨-, ha⟩ <;> rcases hcases b k' hb with ⟨rfl, rfl⟩ | ⟨-, hb⟩
    · rfl
    · exact absurd hw' ((hwindow p hw).2 b k' hb)
    · exact absurd hw ((hwindow p hw').2 a k ha)
    · exact hu.disjoint a b k k' p ha hb hw hw'
  · rw [hmem p hp (hout address record hself)]
    exact hu.outside p hp fun a other ha => hout a other (hold a other ha)
  · rcases hcases a other ha with ⟨rfl, rfl⟩ | ⟨-, ha⟩
    · exact (hbackup hne).1
    · exact hblocks _ (hu.live a other ha hne)
  · rcases hcases a k ha with ⟨rfl, rfl⟩ | ⟨-, ha⟩ <;> rcases hcases b k' hb with ⟨rfl, rfl⟩ | ⟨-, hb⟩
    · rfl
    · exact absurd heq.symm (hother b k' hb hne)
    · exact absurd heq (hother a k ha (heq ▸ hne))
    · exact hu.distinct a b k k' ha hb heq hne
  · rcases hhanded a b hab with hab | ⟨rfl, rfl, hne⟩
    · obtain ⟨hb, other, ha, rfl⟩ := hu.handedOut a b hab
      exact ⟨hb, other, hold a other ha, rfl⟩
    · exact ⟨hne, record, hself, rfl⟩
  · rw [hhooks]
    exact hu.hooks a

/-- The removal of a record. -/
theorem Undoable.unhook (hu : Undoable orig heap s)
    (hrecord : s.process.records address = some record)
    (hwritable : e.writable address record.overwriteSize = true) :
    Undoable orig heap
      { process := { record.unhook e s.process address with
          records := Function.update (record.unhook e s.process address).records address none }
        handedOut := s.handedOut.filter (·.1 ≠ address) } := by
  have hsaved := hu.saved address record hrecord
  have hlen := congrArg List.length hsaved
  rw [length_bytesAt] at hlen
  generalize ht : ({ record.unhook e s.process address with
    records := Function.update (record.unhook e s.process address).records address none } :
    Process) = t
  have hmem : ∀ p, t.mem p = if record.Window address p then orig p else s.process.mem p := by
    intro p
    refine Eq.trans ?_ (store_bytesAt s.process.mem orig address record.overwriteSize p)
    rw [← hsaved, ← ht]
    unfold FunctionRecord.unhook CodeMemory.copy
    rw [hlen, if_pos hwritable]
    dsimp only
    split <;> rfl
  have hblocks : ∀ b, s.process.blocks b = true → b ≠ record.backupTrampoline →
      t.blocks b = true := by
    intro b hb hne
    rw [← ht]
    unfold FunctionRecord.unhook CodeMemory.copy
    rw [hlen, if_pos hwritable]
    dsimp only
    split
    · exact (Function.update_of_ne hne ..).trans hb
    · exact hb
  have hrecords : t.records = Function.update s.process.records address none := by
    rw [← ht]
    rfl
  have hcases : ∀ a other, t.records a = some other →
      a ≠ address ∧ s.process.records a = some other := by
    intro a other ha
    rw [hrecords] at ha
    by_cases h : a = address
    · rw [h, Function.update_self] at ha
      cases ha
    · rw [Function.update_of_ne h] at ha
      exact ⟨h, ha⟩
  refine ⟨fun a other ha => hu.saved a other (hcases a other ha).2,
    fun a other p ha => hu.noHeap a other p (hcases a other ha).2,
    fun a b k k' p ha hb => hu.disjoint a b k k' p (hcases a k ha).2 (hcases b k' hb).2,
    fun p hp hout => ?_, fun a other ha hne => ?_,
    fun a b k k' ha hb => hu.distinct a b k k' (hcases a k ha).2 (hcases b k' hb).2,
    fun a b hab => ?_, fun a => ?_⟩
  · rw [hmem]
    split
    · rfl
    · rename_i hw
      refine hu.outside p hp fun a other ha hwa => ?_
      by_cases h : a = address
      · rw [h, hrecord] at ha
        obtain rfl := Option.some.inj ha
        exact hw (h ▸ hwa)
      · exact hout a other (by rw [hrecords, Function.update_of_ne h, ha]) hwa
  · obtain ⟨h, ha⟩ := hcases a other ha
    refine hblocks _ (hu.live a other ha hne) fun heq => h ?_
    exact hu.distinct a address other record ha hrecord heq hne
  · obtain ⟨hab, hne⟩ := List.mem_filter.mp hab
    obtain ⟨hb, other, ha, hback⟩ := hu.handedOut a b hab
    have h : a ≠ address := by simpa using hne
    exact ⟨hb, other, by rw [hrecords, Function.update_of_ne h, ha], hback⟩
  · rw [← ht]
    exact hu.hooks a

end RecordState

/-- What the system gives to a call that writes a trampoline: the window of the function is apart
from the heaps and from the windows of other records, and a relocated block is new. -/
structure RecordRoom (heap : Addr → Prop) (e : System) (s : Process) (address hook : Word) :
    Prop where
  window : ∀ p, InRange address (FunctionRecord.writtenSize address hook) p → ¬ heap p ∧
    ∀ a record, s.records a = some record → a ≠ address → ¬ record.Window a p
  block : ∀ r c, s.relocate e.heaps address (FunctionRecord.writtenSize address hook) = .ok (r, c) →
    r.backup ≠ 0 ∧ s.blocks r.backup = false ∧ ∀ p, InRange r.backup r.block.length p → heap p

namespace RecordCall

def Room (heap : Addr → Prop) (s : RecordState) : RecordCall → Prop
  | writeTrampoline e address hook _ => RecordRoom heap e s.process address hook
  | inlineUnhook _ _ => True

/-- A trampoline is written only to a function without a record, whose bytes can be read, and the
bytes of a record can be copied back. -/
def KeepsOriginal (s : RecordState) : RecordCall → Prop
  | writeTrampoline e address hook _ => address ≠ 0 → hook ≠ 0 →
      match s.process.records address with
      | some record => record.isModified s.process.mem address = false
      | none => e.readable = true
  | inlineUnhook e address => ∀ record, s.process.records address = some record →
      e.writable address record.overwriteSize = true

open RecordState

variable {orig : Mem} {heap : Addr → Prop} {s s' : RecordState}

/-- The trampoline is written to the window of the function. -/
theorem writes_frame {e : System} {s s' : Process} {record record' : FunctionRecord}
    {address hook : Word} {r : Except (Option String) ℕ}
    (hw : FunctionRecord.Writes e s record address hook r record' s') :
    record' = record ∧ s'.blocks = s.blocks ∧ s'.vars = s.vars ∧
      ∀ p, ¬ InRange address (FunctionRecord.writtenSize address hook) p → s'.mem p = s.mem p := by
  obtain ⟨copied, c, hw, rfl, rfl, -⟩ := hw
  obtain ⟨bs, hlen, -, hmem, -, hblocks, -⟩ := writeFirstTrampoline_eq hw
  refine ⟨rfl, hblocks, rfl, fun p hp => ?_⟩
  change c.mem p = s.mem p
  rw [hmem]
  split
  · exact store_of_not_inRange fun hin => hp (hin.mono hlen.le)
  · rfl

/-- What a call on a function without a record leaves: a record with the bytes of the function, and
a new block for the backup. -/
theorem written_record {e : System} {s s' : Process} {address hook backup : Word}
    {r : Except (Option String) ℕ} {record : FunctionRecord} (hreadable : e.readable = true)
    (hroom : RecordRoom heap e s address hook)
    (hs : FunctionRecord.writeTrampoline e s { functionBackup := e.uninitialized } address hook
      backup = some (r, record, s')) :
    record.overwriteSize = FunctionRecord.writtenSize address hook ∧
      record.functionBackup.take record.overwriteSize =
        bytesAt s.mem address record.overwriteSize ∧
      (∀ p, ¬ heap p → ¬ record.Window address p → s'.mem p = s.mem p) ∧
      (∀ b, s.blocks b = true → s'.blocks b = true) ∧
      (record.backupTrampoline ≠ 0 → s'.blocks record.backupTrampoline = true ∧
        s.blocks record.backupTrampoline = false) ∧
      (∀ n, r = .ok n → backup ≠ 0 →
        s'.vars backup = record.backupTrampoline ∧ record.backupTrampoline ≠ 0) := by
  set start : FunctionRecord := { functionBackup := e.uninitialized }
  have hreleased : start.released s = s := rfl
  have htake : (start.saved s.mem address hook).functionBackup.take
      (FunctionRecord.writtenSize address hook) =
      bytesAt s.mem address (FunctionRecord.writtenSize address hook) := by
    have hlen := length_bytesAt s.mem address (FunctionRecord.writtenSize address hook)
    exact List.take_left' hlen
  rcases FunctionRecord.writeTrampoline_cases hs with ⟨hno, -⟩ | ⟨-, ⟨rfl, hw⟩ | ⟨hbackup, hcases⟩⟩
  · rw [hreadable] at hno
    cases hno
  · obtain ⟨rfl, hblocks, -, hmem⟩ := writes_frame hw
    refine ⟨rfl, htake, fun p _ hp => hmem p hp, fun b hb => hblocks ▸ hb, fun hne => ?_,
      fun _ _ hne => absurd rfl hne⟩
    exact absurd rfl hne
  rcases hcases with ⟨-, rfl, rfl, rfl⟩ | ⟨rel, c, hrel, hcases⟩
  · exact ⟨rfl, htake, fun _ _ _ => rfl, fun _ hb => hb, fun hne => absurd rfl hne,
      fun _ hr => (nomatch hr)⟩
  obtain ⟨hne, hfree, hheap⟩ := hroom.block rel c hrel
  obtain ⟨-, rfl⟩ := relocate_eq hrel
  have hc : ∀ p, ¬ heap p → store s.mem rel.backup rel.block p = s.mem p :=
    fun p hp => store_of_not_inRange fun hin => hp (hheap p hin)
  have hkeep : ∀ b, s.blocks b = true → Function.update s.blocks rel.backup true b = true := by
    intro b hb
    by_cases h : b = rel.backup
    · rw [h, Function.update_self]
    · rw [Function.update_of_ne h, hb]
  rcases hcases with ⟨-, rfl, rfl, rfl⟩ | ⟨-, hw⟩
  · exact ⟨rfl, htake, fun p hp _ => hc p hp, hkeep, fun hne => absurd rfl hne,
      fun _ hr => (nomatch hr)⟩
  · obtain ⟨rfl, hblocks, hvars, hmem⟩ := writes_frame hw
    refine ⟨rfl, htake, fun p hp hw => (hmem p hw).trans (hc p hp), fun b hb => ?_,
      fun _ => ⟨?_, hfree⟩, fun _ _ _ => ⟨?_, hne⟩⟩
    · rw [hblocks]
      exact hkeep b hb
    · rw [hblocks]
      exact Function.update_self ..
    · rw [hvars]
      exact Function.update_self ..

theorem step_undoable {c : RecordCall} (hu : Undoable orig heap s) (hroom : c.Room heap s)
    (hkeeps : c.KeepsOriginal s) (hs : c.step s = some s') : Undoable orig heap s' := by
  cases c with
  | writeTrampoline e address hook backup =>
    obtain ⟨⟨r, t⟩, ht, hs⟩ := Option.bind_eq_some_iff.mp hs
    obtain rfl := Option.some.inj hs
    rcases writeTrampoline_ways ht with ⟨-, ⟨msg, rfl⟩, rfl⟩ | ⟨h1, h2, start, record, u, hstart, hw,
      rfl⟩
    · exact hu
    have hkeeps := hkeeps h1 h2
    rcases hstart with ⟨hstart, hmodified⟩ | ⟨hnew, rfl⟩
    · rw [hstart] at hkeeps
      exact absurd (hkeeps.symm.trans hmodified) (by decide)
    rw [hnew] at hkeeps
    obtain ⟨hsize, hsaved, hmem, hblocks, hbackup, hout⟩ := written_record hkeeps hroom hw
    have hframe := FunctionRecord.writeTrampoline_frame hw
    refine hu.written hnew (fun p hp => ?_) hsaved hmem hblocks hbackup ?_ ?_ fun a b hab => ?_
    · rw [FunctionRecord.Window, hsize] at hp
      obtain ⟨hp, hno⟩ := hroom.window p hp
      refine ⟨hp, fun a other ha => hno a other ha ?_⟩
      rintro rfl
      rw [hnew] at ha
      cases ha
    · rw [show u.records = s.process.records by rw [hframe]]
    · rw [hframe]
    · cases r with
      | error msg => exact .inl hab
      | ok n =>
        dsimp only at hab
        split at hab
        · rename_i hne
          obtain ⟨hvar, hb⟩ := hout n rfl hne
          rcases List.mem_cons.mp hab with heq | hab
          · obtain ⟨rfl, rfl⟩ := Prod.mk.inj heq
            exact .inr ⟨rfl, hvar, hvar.trans_ne hb⟩
          · exact .inl hab
        · exact .inl hab
  | inlineUnhook e address =>
    obtain ⟨⟨r, t⟩, ht, hs⟩ := Option.bind_eq_some_iff.mp hs
    obtain rfl := Option.some.inj hs
    have hstep : (LibraryCall.inlineUnhook e address).step s.process = some t :=
      Option.bind_eq_some_iff.mpr ⟨(r, t), ht, rfl⟩
    rcases LibraryCall.step_inlineUnhook hstep with ⟨-, rfl⟩ | ⟨-, ⟨i, info, -, hi, -⟩ |
      ⟨-, record, hrecord, rfl⟩⟩
    · refine ⟨hu.saved, hu.noHeap, hu.disjoint, hu.outside, hu.live, hu.distinct,
        fun a b hab => ?_, hu.hooks⟩
      exact hu.handedOut a b (List.mem_filter.mp hab).1
    · rw [hu.hooks] at hi
      cases hi
    · exact hu.unhook hrecord (hkeeps record hrecord)

/-- The bytes of a function when its record is removed. -/
theorem inlineUnhook_restores {e : System} {address p : Word} {record : FunctionRecord}
    (hu : Undoable orig heap s) (hrecord : s.process.records address = some record)
    (hwritable : e.writable address record.overwriteSize = true)
    (hs : (inlineUnhook e address).step s = some s') (hremoved : s'.process.records address = none)
    (hw : record.Window address p) : s'.process.mem p = orig p := by
  have hu' : Undoable orig heap s' := by
    refine step_undoable (c := .inlineUnhook e address) hu trivial (fun other hother => ?_) hs
    obtain rfl := Option.some.inj (hrecord.symm.trans hother)
    exact hwritable
  obtain ⟨⟨r, t⟩, ht, hs⟩ := Option.bind_eq_some_iff.mp hs
  obtain rfl := Option.some.inj hs
  have hstep : (LibraryCall.inlineUnhook e address).step s.process = some t :=
    Option.bind_eq_some_iff.mpr ⟨(r, t), ht, rfl⟩
  refine hu'.outside p (hu.noHeap address record p hrecord hw) fun a k ha hwa => ?_
  rcases LibraryCall.step_inlineUnhook hstep with ⟨-, rfl⟩ | ⟨-, ⟨i, info, -, hi, -⟩ |
    ⟨-, other, -, rfl⟩⟩
  · rw [show s.process.records address = none from hremoved] at hrecord
    cases hrecord
  · rw [hu.hooks] at hi
    cases hi
  · have hne : a ≠ address := by
      rintro rfl
      rw [hremoved] at ha
      cases ha
    have hold : s.process.records a = some k := by
      rw [← ha]
      exact (Function.update_of_ne hne ..).symm
    exact hne (hu.disjoint a address k record p hold hrecord hwa hw)

end RecordCall

def recordSystem (block : Word) : System := { hookSystem with heaps := fun _ => some block }

/-- The function is patched once more between its first trampoline and its removal. -/
def rewriteCalls : List RecordCall :=
  [.writeTrampoline (recordSystem 0x3000) 0x1000 0x4000 0x50,
    .writeTrampoline (recordSystem 0x3100) 0x1000 0x4100 0x50, .inlineUnhook hookSystem 0x1000]

def rewriteStart : RecordState := { process := initial nopMemory fun _ => 0 }

/-- The room of a write of the sample, from the values that decide it. -/
theorem recordRoom_of_values {s : RecordState} {b hook : Word} {n : ℕ}
    (hsize : FunctionRecord.writtenSize 0x1000 hook = 4)
    (hrel : (s.process.relocate (recordSystem b).heaps 0x1000 4).map
      (fun x => (x.1.backup, x.1.block.length)) = .ok (b, n))
    (hb : 0x2000 ≤ b.toNat) (hn : b.toNat + n ≤ 0x8000) (hfree : s.process.blocks b = false)
    (hrecords : ∀ a, a ≠ 0x1000 → s.process.records a = none) :
    RecordRoom sampleHeap (recordSystem b) s.process 0x1000 hook := by
  refine ⟨fun p hp => ⟨fun hheap => ?_, fun a record ha hne => ?_⟩, fun r c hr => ?_⟩
  · rw [hsize] at hp
    unfold InRange at hp
    rw [BitVec.toNat_sub] at hp
    unfold sampleHeap at hheap
    have hlt := p.isLt
    have h1000 : (0x1000 : Word).toNat = 0x1000 := rfl
    omega
  · rw [hrecords a hne] at ha
    cases ha
  · rw [hsize] at hr
    rw [show s.process.relocate (recordSystem b).heaps 0x1000 4 = .ok (r, c) from hr] at hrel
    obtain ⟨hback, hlen⟩ := Prod.mk.inj (Except.ok.inj hrel)
    dsimp only at hback hlen
    refine ⟨?_, hback ▸ hfree, fun p hp => ?_⟩
    · rintro hzero
      rw [← hback, hzero] at hb
      exact absurd hb (by decide)
    · rw [hback, hlen] at hp
      exact sampleHeap_block hb hn hp

end Rv64Hook
