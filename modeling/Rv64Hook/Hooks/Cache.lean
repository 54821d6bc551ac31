import Rv64Hook.Hooks.Bytes

/-! The instruction cache: which calls leave bytes behind that were written and not cleared. -/
namespace Rv64Hook
open ByteMem Rv64 LinkedList Calls

/-- No byte that was written waits for a clear of the instruction cache. -/
def CodeMemory.Coherent (c : CodeMemory) : Prop := ∀ p, c.stale p = false

namespace CodeMemory

variable {c c' : CodeMemory} {a target : Word} {bs : List Byte} {n : ℕ}
  {writable : Addr → ℕ → Bool} {type : TrampolineType} {copied : Bool}

/-- Clearing what was written leaves nothing stale. -/
theorem Coherent.write_clearCache (hc : c.Coherent) (hn : bs.length ≤ n) :
    ((c.write a bs).clearCache a n).Coherent := by
  intro p
  have hp : c.stale p = false := hc p
  simp only [clearCache, write, hp, Bool.false_or]
  by_cases hin : InRange a bs.length p
  · simp [hin.mono hn]
  · simp [hin]

theorem Coherent.clearCache (hc : c.Coherent) : (c.clearCache a n).Coherent := by
  intro p
  simp [CodeMemory.clearCache, hc p]

/-- Restoring the bytes of a window and clearing it. -/
theorem Coherent.copy_clearCache (hc : c.Coherent) (hn : bs.length ≤ n) :
    ((c.copy writable a bs).2.clearCache a n).Coherent := by
  unfold copy
  split
  · exact hc.write_clearCache hn
  · exact hc.clearCache

/-- After `WriteFirstTrampoline`, the trampoline is stale exactly when it was written and is
wide. -/
theorem writeFirstTrampoline_stale (hc : c.Coherent) (htype : type ≠ .kCustom)
    (hw : c.writeFirstTrampoline writable a target type = some (copied, c')) :
    c'.Coherent ↔ ¬(type = .kWide ∧
      writable a (Trampoline.getFirstTrampolineSize type) = true) := by
  obtain ⟨bs, hlen, hcopied, -, hstale, -⟩ := Process.writeFirstTrampoline_eq hw
  rw [hlen] at hcopied
  unfold Coherent
  rw [hstale]
  constructor
  · rintro hall ⟨rfl, hwritable⟩
    have hp := hall a
    have hin : InRange a bs.length a := by
      rw [hlen]
      unfold InRange
      rw [BitVec.sub_self]
      decide
    have hnil : c.stale a = false ∧ bs = [] := by
      simpa [hcopied, hwritable, hin, InRange] using hp
    rw [hnil.2] at hlen
    exact absurd hlen (by decide)
  · intro hnot p
    have hp : c.stale p = false := hc p
    dsimp only
    rw [hp, Bool.false_or]
    by_cases hwide : type = .kWide
    · have hfalse : copied = false := by
        rw [hcopied]
        exact Bool.eq_false_iff.mpr fun h => hnot ⟨hwide, h⟩
      rw [hfalse]
      rfl
    · have hother : ¬(type = .kWide ∨ type = .kCustom) := fun h => h.elim hwide htype
      rw [if_neg hother]
      cases copied <;> simp

end CodeMemory

open Process Trampoline

variable {e : System} {s s' : Process} {address i p : Word} {args : HookArgs} {r : Relocated}
  {c : CodeMemory}

theorem getSuggestedTrampolineType_ne_custom (a b : Word) :
    getSuggestedTrampolineType a b ≠ .kCustom := by
  unfold getSuggestedTrampolineType
  dsimp only
  split_ifs <;> decide

theorem allocSecondTrampoline_coherent (hs : s.Coherent) :
    (allocSecondTrampoline e s).Coherent := by
  unfold allocSecondTrampoline
  dsimp only
  refine CodeMemory.Coherent.write_clearCache (fun p => ?_) le_rfl
  split <;> exact hs p

theorem relocate_coherent {heaps : ℕ → Option Word} {size : Int} {c₀ : CodeMemory}
    (hc : c₀.Coherent) (hrel : c₀.relocate heaps address size = .ok (r, c)) : c.Coherent := by
  obtain ⟨-, rfl⟩ := relocate_eq hrel
  exact CodeMemory.Coherent.write_clearCache hc le_rfl

theorem unhookInfo_coherent {initialized : Bool} (hs : s.Coherent)
    (hu : unhookInfo e s i initialized = some s') : s'.Coherent := by
  obtain ⟨info, td, -, -, -, -, -, -, -, -, hstale⟩ := unhookInfo_eq hu
  intro p
  rw [hstale]
  cases initialized with
  | false => exact hs p
  | true =>
    refine CodeMemory.Coherent.copy_clearCache hs ?_ p
    exact (List.length_take_le ..)

theorem newHookHandle_coherent (hs : s.Coherent) (hn : newHookHandle e s i args = some s') :
    s'.Coherent := by
  obtain ⟨info, td, -, -, ha⟩ := newHookHandle_added hn
  rw [ha.code]
  exact hs

/-- `DoHook` writes a wide first trampoline. -/
def WritesWide (e : System) (s : Process) (address : Word) : Prop :=
  s.hooks address = none ∧ e.readable = true ∧ e.trampoline ≠ 0 ∧
    (∃ r c, hookRelocation e s address = .ok (r, c) ∧ r.overwriteSize ≠ 0) ∧
    firstType e address = .kWide ∧ e.writable address (getFirstTrampolineSize .kWide) = true

/-- A successful or failed `DoHook` leaves bytes stale exactly when it writes a wide trampoline. -/
theorem doHook_coherent_iff {res : HookResult} (hs : s.Coherent)
    (hd : doHook e s address args = some (res, s')) :
    s'.Coherent ↔ ¬ WritesWide e s address := by
  cases hi : s.hooks address with
  | some i =>
    have hnot : ¬ WritesWide e s address := by
      rintro ⟨hnone, -⟩
      rw [hi] at hnone
      cases hnone
    refine ⟨fun _ => hnot, fun _ => ?_⟩
    obtain ⟨info, -, ⟨-, -, rfl⟩ | ⟨-, -, hn⟩⟩ := doHook_known hd hi
    · exact hs
    · exact newHookHandle_coherent hs hn
  | none =>
    have halloc := allocSecondTrampoline_coherent (e := e) hs
    rcases doHook_new hd hi with ⟨hno, rfl⟩ | ⟨hreadable, htrampoline, ⟨hrel, rfl⟩ |
      ⟨r, c, hrel, hcases⟩⟩
    · refine ⟨fun _ hw => ?_, fun _ => hs⟩
      rcases hno with hno | hno
      · exact absurd (hno.symm.trans hw.2.1) (by decide)
      · exact hw.2.2.1 hno
    · refine ⟨fun _ ⟨_, _, _, ⟨r, c, hok, _⟩, _⟩ => ?_, fun _ => halloc⟩
      rw [hrel] at hok
      cases hok
    have hc := relocate_coherent halloc hrel
    rcases hcases with ⟨hsize, rfl⟩ | ⟨hsize, copied, c', hwrite, hcases⟩
    · refine ⟨fun _ ⟨_, _, _, ⟨r', c', hok, hne⟩, _⟩ => hne ?_, fun _ => hc⟩
      rw [hrel] at hok
      obtain ⟨rfl, -⟩ := Prod.mk.inj (Except.ok.inj hok)
      exact hsize
    have hiff := CodeMemory.writeFirstTrampoline_stale hc
      (getSuggestedTrampolineType_ne_custom address e.trampoline) hwrite
    have hwide : WritesWide e s address ↔
        firstType e address = .kWide ∧
          e.writable address (getFirstTrampolineSize (firstType e address)) = true := by
      constructor
      · rintro ⟨-, -, -, -, htype, hwritable⟩
        rw [htype]
        exact ⟨rfl, hwritable⟩
      · rintro ⟨htype, hwritable⟩
        rw [htype] at hwritable
        exact ⟨hi, hreadable, htrampoline, ⟨r, c, hrel, hsize⟩, htype, hwritable⟩
    rw [hwide, ← firstType] at *
    rw [← hiff]
    split at hcases
    · obtain ⟨info, td, -, -, ha⟩ := newHookHandle_added hcases.2
      rw [ha.code]
    · obtain ⟨info, td, -, -, -, -, -, -, -, -, hstale⟩ := unhookInfo_eq hcases.2
      unfold CodeMemory.Coherent
      rw [hstale]
      rfl

theorem unhookAllExt_coherent {res : Bool} (hs : s.Coherent)
    (hu : unhookAllExt e s p = some (res, s')) : s'.Coherent := by
  obtain ⟨h, -, ⟨-, rfl⟩ | ⟨-, info, xs, t, -, -, -, hrest, hu⟩⟩ := unhookAllExt_cases hu
  · exact hs
  · refine unhookInfo_coherent ?_ hu
    rw [hrest]
    exact hs

namespace FunctionRecord

variable {record record' : FunctionRecord} {hook backup : Word} {res : Except (Option String) ℕ}

/-- `WriteTrampoline` writes a wide first trampoline. -/
def WritesWide (e : System) (s : Process) (record : FunctionRecord) (address hook backup : Word) :
    Prop :=
  e.readable = true ∧
    (backup ≠ 0 → ∃ rel c, (record.released s).relocate e.heaps address
      (writtenSize address hook) = .ok (rel, c) ∧ rel.overwriteSize ≠ 0) ∧
    getSuggestedTrampolineType address hook = .kWide ∧
    e.writable address (getFirstTrampolineSize .kWide) = true

theorem released_coherent (hs : s.Coherent) : (record.released s).Coherent := by
  unfold released
  split
  · exact hs
  · exact hs

theorem Writes.coherent_iff (hs : s.Coherent)
    (hw : Writes e s record address hook res record' s') :
    s'.Coherent ↔ ¬(getSuggestedTrampolineType address hook = .kWide ∧
      e.writable address (getFirstTrampolineSize .kWide) = true) := by
  obtain ⟨copied, c, hwrite, rfl, -, -⟩ := hw
  rw [CodeMemory.writeFirstTrampoline_stale hs (getSuggestedTrampolineType_ne_custom address hook)
    hwrite]
  refine not_congr (and_congr_right fun htype => ?_)
  rw [htype]

/-- A call of `WriteTrampoline` leaves bytes stale exactly when it writes a wide trampoline. -/
theorem writeTrampoline_coherent_iff (hs : s.Coherent)
    (hw : record.writeTrampoline e s address hook backup = some (res, record', s')) :
    s'.Coherent ↔ ¬ WritesWide e s record address hook backup := by
  have hreleased : (record.released s).Coherent := released_coherent hs
  rcases writeTrampoline_cases hw with ⟨hno, -, rfl, -⟩ |
    ⟨hreadable, ⟨hbackup, hwrites⟩ | ⟨hbackup, hcases⟩⟩
  · refine ⟨fun _ hwide => ?_, fun _ => hreleased⟩
    exact absurd (hno.symm.trans hwide.1) (by decide)
  · rw [hwrites.coherent_iff hreleased]
    refine not_congr ⟨fun h => ⟨hreadable, fun hne => absurd hbackup hne, h⟩, fun h => h.2.2⟩
  rcases hcases with ⟨hrel, -, rfl, -⟩ | ⟨rel, c, hrel, ⟨hsize, -, rfl, -⟩ | ⟨hsize, hwrites⟩⟩
  · refine ⟨fun _ hwide => ?_, fun _ => hreleased⟩
    obtain ⟨rel, c, hok, -⟩ := hwide.2.1 hbackup
    rw [hrel] at hok
    cases hok
  · refine ⟨fun _ hwide => ?_, fun _ => relocate_coherent hreleased hrel⟩
    obtain ⟨rel', c', hok, hne⟩ := hwide.2.1 hbackup
    rw [hrel] at hok
    obtain ⟨rfl, -⟩ := Prod.mk.inj (Except.ok.inj hok)
    exact hne hsize
  · rw [hwrites.coherent_iff (relocate_coherent hreleased hrel)]
    refine not_congr ⟨fun h => ⟨hreadable, fun _ => ⟨rel, c, hrel, hsize⟩, h⟩, fun h => h.2.2⟩

/-- The bytes that the removal of a record writes back. -/
def restoredBytes (record : FunctionRecord) : List Byte :=
  record.functionBackup.take record.overwriteSize

/-- The removal of a record clears nothing. -/
theorem unhook_coherent_iff (hs : s.Coherent) :
    (record.unhook e s address).Coherent ↔
      ¬(record.restoredBytes ≠ [] ∧
        e.writable address record.restoredBytes.length = true) := by
  have hstale : (record.unhook e s address).stale =
      (s.copy e.writable address record.restoredBytes).2.stale := by
    unfold unhook restoredBytes
    dsimp only
    split <;> rfl
  unfold CodeMemory.Coherent
  rw [hstale]
  unfold CodeMemory.copy
  split
  · rename_i hwritable
    simp only [CodeMemory.write, hs _, Bool.false_or]
    constructor
    · rintro hall ⟨hne, -⟩
      have hin : InRange address record.restoredBytes.length address := by
        unfold InRange
        rw [BitVec.sub_self]
        exact List.length_pos_iff.mpr hne
      exact absurd hin (by simpa using hall address)
    · intro hnot p
      have hnil : record.restoredBytes = [] := by
        by_contra hne
        exact hnot ⟨hne, hwritable⟩
      rw [hnil]
      exact decide_eq_false (Nat.not_lt_zero _)
  · rename_i hwritable
    exact ⟨fun _ h => hwritable h.2, fun _ => hs⟩

end FunctionRecord

namespace LibraryCall

/-- The call writes a wide first trampoline, or it removes the record of a function. -/
def LeavesStale (s : Process) : LibraryCall → Prop
  | inlineHook e address hook _ => address ≠ 0 ∧ hook ≠ 0 ∧ WritesWide e s address
  | inlineInstrument e address preHandler postHandler _ _ =>
    address ≠ 0 ∧ (preHandler ≠ 0 ∨ postHandler ≠ 0) ∧ address ≠ e.pthreadGetspecific ∧
      address ≠ e.pthreadSetspecific ∧ WritesWide e s address
  | inlineUnhook e address => address ≠ 0 ∧
      (∀ i info, s.hooks address = some i → s.infos i = some info → info.rootHandle = 0) ∧
      ∃ record, s.records address = some record ∧ record.restoredBytes ≠ [] ∧
        e.writable address record.restoredBytes.length = true
  | writeTrampoline e address hook backup => address ≠ 0 ∧ hook ≠ 0 ∧
      ∃ record, (s.records address = some record ∧ record.isModified s.mem address = true ∨
        s.records address = none ∧ record = { functionBackup := e.uninitialized }) ∧
        record.WritesWide e s address hook backup
  | _ => False

theorem step_coherent_iff {c : LibraryCall} (hs : s.Coherent) (ht : c.step s = some s') :
    s'.Coherent ↔ ¬ c.LeavesStale s := by
  cases c with
  | inlineHook e address hook backup =>
    rcases step_inlineHook ht with ⟨hno, rfl⟩ | ⟨h1, h2, res, hd⟩
    · exact ⟨fun _ h => hno.elim h.1 h.2.1, fun _ => hs⟩
    · rw [doHook_coherent_iff hs hd]
      exact not_congr ⟨fun h => ⟨h1, h2, h⟩, fun h => h.2.2⟩
  | inlineInstrument e address preHandler postHandler data backup =>
    rcases step_inlineInstrument ht with ⟨hno, rfl⟩ | ⟨h1, h2, h3, h4, res, hd⟩
    · refine ⟨fun _ ⟨h1, h2, h3, h4, _⟩ => ?_, fun _ => hs⟩
      rcases hno with (h | ⟨h, h'⟩) | h | h
      · exact h1 h
      · exact h2.elim (fun hne => hne h) fun hne => hne h'
      · exact h3 h
      · exact h4 h
    · rw [doHook_coherent_iff hs hd]
      exact not_congr ⟨fun h => ⟨h1, h2, h3, h4, h⟩, fun h => h.2.2.2.2⟩
  | unhook e p =>
    refine ⟨fun _ h => h, fun _ => ?_⟩
    obtain ⟨res, hu⟩ := step_unhook ht
    obtain ⟨h, -, ⟨-, rfl⟩ | ⟨-, info, -, ⟨-, hu⟩ | ⟨-, td, -, hm⟩⟩⟩ := unhookExt_cases hu
    · exact hs
    · exact unhookInfo_coherent (s := s.deleteHandle p) hs hu
    · rw [hm.code]
      exact hs
  | unhookAll e p =>
    obtain ⟨res, hu⟩ := step_unhookAll ht
    exact ⟨fun _ h => h, fun _ => unhookAllExt_coherent hs hu⟩
  | setEnabled p enabled =>
    obtain ⟨h, -, rfl⟩ := step_setEnabled ht
    exact ⟨fun _ h => h, fun _ => hs⟩
  | setEnabledAll p enabled =>
    refine ⟨fun _ h => h, fun _ => ?_⟩
    rcases step_setEnabledAll ht with rfl | ⟨h, info, td, -, -, -, rfl⟩
    · exact hs
    · exact hs
  | inlineUnhook e address =>
    rcases step_inlineUnhook ht with ⟨hno, rfl⟩ | ⟨haddress, ⟨i, info, res, hi, hinfo, hroot, hu⟩ |
      ⟨hnone, record, hrecord, rfl⟩⟩
    · refine ⟨fun _ ⟨h1, _, record, hrecord, _⟩ => ?_, fun _ => hs⟩
      rcases hno with h | h
      · exact h1 h
      · rw [h] at hrecord
        cases hrecord
    · refine ⟨fun _ ⟨_, h, _⟩ => hroot (h i info hi hinfo), fun _ => unhookAllExt_coherent hs hu⟩
    · refine (FunctionRecord.unhook_coherent_iff hs).trans (not_congr ⟨fun h => ?_, ?_⟩)
      · exact ⟨haddress, hnone, record, hrecord, h⟩
      · rintro ⟨-, -, record', hrecord', h⟩
        obtain rfl := Option.some.inj (hrecord.symm.trans hrecord')
        exact h
  | writeTrampoline e address hook backup =>
    rcases step_writeTrampoline ht with ⟨hno, rfl⟩ | ⟨h1, h2, record, res, record', t, hrecord, hw,
      rfl⟩
    · refine ⟨fun _ ⟨h1, h2, record, hrecord, _⟩ => ?_, fun _ => hs⟩
      rcases hno with (h | h) | ⟨record', hrecord', hsame⟩
      · exact h1 h
      · exact h2 h
      · rcases hrecord with ⟨hrecord, hmodified⟩ | ⟨hrecord, -⟩
        · obtain rfl := Option.some.inj (hrecord.symm.trans hrecord')
          exact absurd (hsame.symm.trans hmodified) (by decide)
        · rw [hrecord] at hrecord'
          cases hrecord'
    · refine (FunctionRecord.writeTrampoline_coherent_iff hs hw).trans
        (not_congr ⟨fun h => ⟨h1, h2, record, hrecord, h⟩, ?_⟩)
      rintro ⟨-, -, record₂, hrecord₂, h⟩
      rcases hrecord with ⟨hr, -⟩ | ⟨hr, rfl⟩ <;> rcases hrecord₂ with ⟨hr₂, -⟩ | ⟨hr₂, rfl⟩
      · obtain rfl := Option.some.inj (hr.symm.trans hr₂)
        exact h
      · rw [hr] at hr₂
        cases hr₂
      · rw [hr] at hr₂
        cases hr₂
      · exact h

end LibraryCall

/-- A second trampoline that is out of reach of `auipc` and `lui`. -/
def farSystem : System := { hookSystem with trampoline := 0x100000000000 }

end Rv64Hook
