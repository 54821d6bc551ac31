import Rv64Hook.Hooks.Bytes
import Rv64Hook.Relocator.Pool
import Rv64Hook.Memory.Reach

/-! The overwritten window: its size, the buffers that keep its bytes, and the pages that are made
writable for it. -/
namespace Rv64Hook
open ByteMem Rv64 Berberis Machine Calls RV64Relocator Trampoline

/-! ### The loop of the relocator -/

/-- The length of `k` instructions from `a` on, as `Decoder::Decode` sizes them. -/
def decodedSize (code : Mem) (a : Word) : ℕ → ℕ
  | 0 => 0
  | k + 1 =>
    let size := decodedSize code a k
    size + (Decoder.decode code (a + BitVec.ofNat 64 size)).2

theorem decodedSize_eq (code : Mem) (a : Word) (k : ℕ) :
    decodedSize code a k = (mark code a k).1 := by
  induction k with
  | zero => rfl
  | succ k ih =>
    rw [decodedSize, mark_succ, ih]
    exact congrArg ((mark code a k).1 + ·) (Decoder.decode_reports code _).2

/-- The loop ends: once there are as many turns as bytes, more turns change nothing. -/
theorem relocateWindow_ends {code : Mem} {n fuel : ℕ} {size : Int} (w : Window)
    (hn : size.toNat ≤ n) (hfuel : size.toNat ≤ fuel) :
    relocateWindow code fuel size w = relocateWindow code n size w := by
  have hdone : ∀ (k : ℕ) (size : Int) (w : Window), ¬ 0 < size →
      relocateWindow code k size w = .ok w := by
    intro k size w hsize
    cases k with
    | zero => rfl
    | succ k => rw [relocateWindow, if_neg hsize]
  induction fuel generalizing n size w with
  | zero => rw [hdone 0 size w (by omega), hdone n size w (by omega)]
  | succ fuel ih =>
    by_cases hpos : 0 < size
    · obtain ⟨n, rfl⟩ := Nat.exists_eq_succ_of_ne_zero (by omega : n ≠ 0)
      unfold relocateWindow
      rw [if_pos hpos, if_pos hpos]
      cases hi : relocateInsn code w.address w.relocator with
      | error f => rfl
      | ok p =>
        obtain ⟨r, count⟩ := p
        obtain ⟨s, -, hcount, -⟩ := relocateInsn_cases hi
        obtain rfl := hcount.trans (Decoder.decode_reports code w.address).2
        have hlen := lenAt_cases code w.address
        exact ih _ (by omega) (by omega)
    · rw [hdone _ size w hpos, hdone _ size w hpos]

/-- The block of a relocation ends with a jump: whoever arrives behind the last relocated
instruction is sent to the address, with the lowest bit cleared. -/
def TailJumps (code : Mem) (a : Word) (r : Relocated) (target : Word) : Prop :=
  ∃ k, decodedSize code a k = r.overwriteSize ∧ ∃ offset, offset + 12 ≤ r.block.length ∧
    ∀ (Ω : Type) (sem : BitVec 32 → Core Ω → Core Ω) (blk : Mem) (c : Core Ω),
      Holds blk r.backup r.block → Holds c.mem r.backup r.block →
      RunsWithin (next sem blk) (InBlock r) ⟨r.backup + BitVec.ofNat 64 offset, c⟩
        ⟨target &&& ~~~1#64, c.setReg t3 target⟩

variable {heaps : ℕ → Option Word} {code : Mem} {a : Word} {r : Relocated}

theorem relocate_tailJumps {size : Int} (hok : relocate heaps code a size = .ok r) :
    TailJumps code a r (a + BitVec.ofNat 64 r.overwriteSize) := by
  obtain ⟨xs, position, pool, hi⟩ := relocate_installed hok
  obtain ⟨k, hk⟩ := hi.translation.exists_end
  have hfront := hi.front_length hk
  have hblock := hi.block
  rw [← tailPiece] at hblock
  refine ⟨k, (decodedSize_eq code a k).trans hk, (mark code a k).2, ?_,
    fun Ω sem blk c hblk hmem => ?_⟩
  · rw [hblock, List.length_append, hfront]
    exact Nat.le_add_right _ _
  · rw [hi.translation.mark_end hk]
    exact run_tailJump hi hblk hmem

theorem decodedSize_even (code : Mem) (a : Word) (k : ℕ) : 2 ∣ decodedSize code a k := by
  induction k with
  | zero => exact dvd_zero 2
  | succ k ih =>
    have hcount := (Decoder.decode_reports code (a + BitVec.ofNat 64 (decodedSize code a k))).2
    rw [decodedSize, hcount]
    rcases lenAt_cases code (a + BitVec.ofNat 64 (decodedSize code a k)) with hl | hl <;>
      rw [hl] <;> omega

/-- The window covers the requested bytes, and at most two more. -/
theorem relocate_extent {size : ℕ} (heven : 2 ∣ size) (hok : relocate heaps code a size = .ok r) :
    size ≤ r.overwriteSize ∧ r.overwriteSize ≤ size + 2 := by
  obtain ⟨hle, hlt⟩ := relocate_overwriteSize hok
  obtain ⟨k, hk, -⟩ := relocate_tailJumps hok
  have hr := decodedSize_even code a k
  rw [hk] at hr
  omega

/-! ### The buffers -/

def kMaxFirstTrampolineSize : ℕ := 28

/-- The window of every type of trampoline fits into the buffers. -/
theorem relocate_fits {type : TrampolineType}
    (hok : relocate heaps code a (getFirstTrampolineSize type) = .ok r) :
    r.overwriteSize ≤ kMaxFirstTrampolineSize := by
  have hlt := (relocate_overwriteSize hok).2
  have hmax := getFirstTrampolineSize_le type
  unfold kMaxFirstTrampolineSize
  omega

/-- Hooked functions have an address, and what is saved of them fits into the buffers. -/
structure WindowsFit (s : Process) : Prop where
  infos : ∀ i info, s.infos i = some info → info.address ≠ 0 ∧
    info.functionBackupSize.toNat ≤ kMaxFirstTrampolineSize ∧
    info.functionBackup.length = info.functionBackupSize.toNat
  records : ∀ a record, s.records a = some record → a ≠ 0 ∧
    record.overwriteSize ≤ kMaxFirstTrampolineSize

variable {e : System} {s s' : Process} {address i p : Word} {args : HookArgs} {c : CodeMemory}

open Process

/-- A write of a record gives it the size of the trampoline, whether it succeeds or not. -/
theorem FunctionRecord.writeTrampoline_overwriteSize {record record' : FunctionRecord}
    {hook backup : Word} {res : Except (Option String) ℕ}
    (hs : record.writeTrampoline e s address hook backup = some (res, record', s')) :
    record'.overwriteSize = writtenSize address hook := by
  rcases writeTrampoline_cases hs with ⟨-, -, -, rfl⟩ | ⟨-, ⟨-, copied, c, -, -, rfl, -⟩ | ⟨-, hs⟩⟩
  · rfl
  · rfl
  · rcases hs with ⟨-, -, -, rfl⟩ | ⟨rel, c, -, ⟨-, -, -, rfl⟩ | ⟨-, copied, c', -, -, rfl, -⟩⟩ <;>
      rfl

theorem windowsFit_initial (mem : Mem) (vars : Word → Word) : WindowsFit (initial mem vars) :=
  ⟨fun _ _ h => (nomatch h), fun _ _ h => (nomatch h)⟩

/-- A step that changes neither what is saved nor the records. -/
theorem WindowsFit.congr (hf : WindowsFit s)
    (hinfos : ∀ i, (s'.infos i).map HookInfo.backup = (s.infos i).map HookInfo.backup)
    (hrecords : s'.records = s.records) : WindowsFit s' := by
  refine ⟨fun i info hi => ?_, fun a record ha => hf.records a record (hrecords ▸ ha)⟩
  have hsame := hinfos i
  rw [hi] at hsame
  obtain ⟨info', hi', heq⟩ := Option.map_eq_some_iff.mp hsame.symm
  obtain ⟨haddress, hrest⟩ := Prod.mk.inj heq
  obtain ⟨hsize, hbackup⟩ := Prod.mk.inj hrest
  rw [← haddress, ← hsize, ← hbackup]
  exact hf.infos i info' hi'

theorem WindowsFit.unhookInfo {initialized : Bool} (hf : WindowsFit s)
    (hs : unhookInfo e s i initialized = some s') : WindowsFit s' := by
  obtain ⟨info, td, -, -, -, hinfos, hrecords, -⟩ := unhookInfo_eq hs
  exact hf.congr (fun j => by rw [hinfos]) hrecords

theorem WindowsFit.newHookHandle (hf : WindowsFit s) (hs : newHookHandle e s i args = some s') :
    WindowsFit s' := by
  obtain ⟨info, td, hi, -, ha⟩ := newHookHandle_added hs
  refine hf.congr (fun j => ?_) ha.records
  rw [ha.infos]
  by_cases hj : j = i
  · rw [hj, Function.update_self, hi]
    rfl
  · rw [Function.update_of_ne hj]

/-- The info of a new function. -/
theorem WindowsFit.created (hf : WindowsFit s) (haddress : address ≠ 0)
    (hrel : hookRelocation e s address = .ok (r, c)) :
    WindowsFit (createdProcess e s address r c) := by
  obtain ⟨-, hsize⟩ := hookRelocation_size hrel
  have hfits := relocate_fits (relocate_eq hrel).1
  refine ⟨fun i info hi => ?_, hf.records⟩
  by_cases hie : i = e.info
  · rw [hie, show (createdProcess e s address r c).infos e.info = _ from
      Function.update_self ..] at hi
    obtain rfl := Option.some.inj hi
    refine ⟨haddress, ?_, length_bytesAt ..⟩
    change (BitVec.ofNat 8 r.overwriteSize).toNat ≤ _
    rwa [hsize]
  · rw [show (createdProcess e s address r c).infos i = s.infos i from
      Function.update_of_ne hie ..] at hi
    exact hf.infos i info hi

theorem WindowsFit.doHook {res : HookResult} (hf : WindowsFit s) (haddress : address ≠ 0)
    (hs : doHook e s address args = some (res, s')) : WindowsFit s' := by
  cases hi : s.hooks address with
  | some i =>
    obtain ⟨info, -, ⟨-, -, rfl⟩ | ⟨-, -, hs'⟩⟩ := doHook_known hs hi
    · exact hf
    · exact hf.newHookHandle hs'
  | none =>
    rcases doHook_new hs hi with ⟨-, rfl⟩ | ⟨-, -, ⟨-, rfl⟩ | ⟨r, c, hrel, hcases⟩⟩
    · exact hf
    · exact hf.congr (fun _ => rfl) rfl
    rcases hcases with ⟨-, rfl⟩ | ⟨-, copied, c', -, hcases⟩
    · exact hf.congr (fun _ => rfl) rfl
    have hcreated : WindowsFit { createdProcess e s address r c with toCodeMemory := c' } :=
      (hf.created haddress hrel).congr (fun _ => rfl) rfl
    split at hcases
    · exact hcreated.newHookHandle hcases.2
    · exact hcreated.unhookInfo hcases.2

theorem WindowsFit.unhookAllExt {res : Bool} (hf : WindowsFit s)
    (hs : unhookAllExt e s p = some (res, s')) : WindowsFit s' := by
  obtain ⟨h, -, ⟨-, rfl⟩ | ⟨-, info, xs, t, -, -, -, hrest, hu⟩⟩ := unhookAllExt_cases hs
  · exact hf
  · refine WindowsFit.unhookInfo (s := t) (hf.congr (fun j => ?_) ?_) hu <;> rw [hrest]

theorem WindowsFit.step {c : LibraryCall} (hf : WindowsFit s) (hs : c.step s = some s') :
    WindowsFit s' := by
  cases c with
  | inlineHook e address hook backup =>
    rcases LibraryCall.step_inlineHook hs with ⟨-, rfl⟩ | ⟨haddress, -, res, ht⟩
    · exact hf
    · exact hf.doHook haddress ht
  | inlineInstrument e address preHandler postHandler data backup =>
    rcases LibraryCall.step_inlineInstrument hs with ⟨-, rfl⟩ | ⟨haddress, -, -, -, res, ht⟩
    · exact hf
    · exact hf.doHook haddress ht
  | unhook e p =>
    obtain ⟨res, ht⟩ := LibraryCall.step_unhook hs
    obtain ⟨h, -, ⟨-, rfl⟩ | ⟨-, info, hi, ⟨-, hu⟩ | ⟨-, td, -, hm⟩⟩⟩ := unhookExt_cases ht
    · exact hf
    · exact WindowsFit.unhookInfo (s := s.deleteHandle p) (hf.congr (fun _ => rfl) rfl) hu
    · refine hf.congr (fun j => ?_) hm.records
      rw [hm.infos]
      by_cases hj : j = h.info
      · rw [hj, Function.update_self, hi]
        rfl
      · rw [Function.update_of_ne hj]
  | unhookAll e p =>
    obtain ⟨res, ht⟩ := LibraryCall.step_unhookAll hs
    exact hf.unhookAllExt ht
  | setEnabled p enabled =>
    obtain ⟨h, -, rfl⟩ := LibraryCall.step_setEnabled hs
    exact hf.congr (fun _ => rfl) rfl
  | setEnabledAll p enabled =>
    rcases LibraryCall.step_setEnabledAll hs with rfl | ⟨h, info, td, -, -, -, rfl⟩
    · exact hf
    · exact hf.congr (fun _ => rfl) rfl
  | inlineUnhook e address =>
    rcases LibraryCall.step_inlineUnhook hs with ⟨-, rfl⟩ | ⟨-, ⟨i, info, res, -, -, -, ht⟩ |
      ⟨-, record, -, rfl⟩⟩
    · exact hf
    · exact hf.unhookAllExt ht
    · refine ⟨hf.infos, fun b record' hb => ?_⟩
      change Function.update s.records address none b = some record' at hb
      by_cases hba : b = address
      · rw [hba, Function.update_self] at hb
        cases hb
      · rw [Function.update_of_ne hba] at hb
        exact hf.records b record' hb
  | writeTrampoline e address hook backup =>
    rcases LibraryCall.step_writeTrampoline hs with ⟨-, rfl⟩ |
      ⟨haddress, -, record, res, record', t, -, ht, rfl⟩
    · exact hf
    have hframe := FunctionRecord.writeTrampoline_frame ht
    refine ⟨fun i info hi => hf.infos i info ?_, fun b k hb => ?_⟩
    · rw [← hi, hframe]
    · change Function.update t.records address (some record') b = some k at hb
      by_cases hba : b = address
      · rw [hba, Function.update_self] at hb
        obtain rfl := Option.some.inj hb
        refine ⟨hba ▸ haddress, ?_⟩
        rw [FunctionRecord.writeTrampoline_overwriteSize ht]
        have hmax := getFirstTrampolineSize_le (getSuggestedTrampolineType address hook)
        unfold FunctionRecord.writtenSize kMaxFirstTrampolineSize
        omega
      · rw [Function.update_of_ne hba, show t.records = s.records by rw [hframe]] at hb
        exact hf.records b k hb

/-! ### The pages -/

/-- The range that the constructor of `ScopedRWXMemory` makes writable; its size is a `uint32_t`,
and the page size an `int`. -/
def scopedRwxMemory (pageSize : BitVec 32) (address : Word) : Option (Word × BitVec 32) :=
  if address = 0 then none
  else
    let page := pageSize.signExtend 64
    let start := HeapState.alignDown address page
    let finish :=
      HeapState.alignUp (address + BitVec.ofNat 64 kMaxFirstTrampolineSize) page
    some (start, (finish - start).setWidth 32)

/-- The bytes are made writable for the function. -/
def MadeWritable (pageSize : BitVec 32) (address : Word) (n : ℕ) : Prop :=
  ∃ start size, scopedRwxMemory pageSize address = some (start, size) ∧
    ∀ p, InRange address n p → InRange start size.toNat p

/-- The pages cover what can be written to a function, also where they wrap. -/
theorem madeWritable {n k : ℕ} (hk : k < 31) (haddress : address ≠ 0)
    (hn : n ≤ kMaxFirstTrampolineSize) : MadeWritable (BitVec.twoPow 32 k) address n := by
  have hpow : 2 ^ k ≤ 2 ^ 30 := Nat.pow_le_pow_right (by decide) (by omega)
  have hpage : ((BitVec.twoPow 32 k).signExtend 64).toNat = 2 ^ k := by
    have hnat : (BitVec.twoPow 32 k).toNat = 2 ^ k := by
      rw [BitVec.toNat_twoPow, Nat.mod_eq_of_lt (by omega)]
    have hmsb : (BitVec.twoPow 32 k).msb = false := by
      rw [BitVec.msb_eq_decide, hnat, decide_eq_false_iff_not]
      omega
    rw [BitVec.signExtend_eq_setWidth_of_msb_false hmsb, BitVec.toNat_setWidth, hnat,
      Nat.mod_eq_of_lt (by omega)]
  have hpos : (0 : Word) < (BitVec.twoPow 32 k).signExtend 64 := by
    rw [BitVec.lt_def, hpage]
    exact Nat.two_pow_pos k
  unfold MadeWritable scopedRwxMemory
  rw [if_neg haddress]
  refine ⟨_, _, rfl, fun p hp => ?_⟩
  generalize (BitVec.twoPow 32 k).signExtend 64 = page at *
  have hdown : HeapState.alignDown address page = address - (address &&& (page - 1)) :=
    alignDown_eq_sub address page
  have hup : HeapState.alignUp (address + BitVec.ofNat 64 kMaxFirstTrampolineSize) page = _ :=
    alignDown_eq_sub (address + BitVec.ofNat 64 kMaxFirstTrampolineSize + (page - 1)) page
  have hcut := toNat_and_pred_lt address hpos
  have hcut' := toNat_and_pred_lt
    (address + BitVec.ofNat 64 kMaxFirstTrampolineSize + (page - 1)) hpos
  rw [hdown, hup]
  generalize address &&& (page - 1) = cut at *
  generalize (address + BitVec.ofNat 64 kMaxFirstTrampolineSize + (page - 1)) &&& (page - 1) =
    cut' at *
  unfold InRange at *
  have hone : (page - 1).toNat = page.toNat - 1 :=
    BitVec.toNat_sub_of_le (BitVec.le_def.mpr (BitVec.lt_def.mp hpos))
  have hmax : (BitVec.ofNat 64 kMaxFirstTrampolineSize).toNat = kMaxFirstTrampolineSize := rfl
  have h28 : kMaxFirstTrampolineSize = 28 := rfl
  have hpage0 : 0 < page.toNat := BitVec.lt_def.mp hpos
  have hsize : address + BitVec.ofNat 64 kMaxFirstTrampolineSize + (page - 1) - cut' -
      (address - cut) = BitVec.ofNat 64 kMaxFirstTrampolineSize + (page - 1) - cut' + cut := by
    ring
  have hsize' : (BitVec.ofNat 64 kMaxFirstTrampolineSize + (page - 1) - cut' + cut).toNat =
      28 + (page.toNat - 1) - cut'.toNat + cut.toNat := by
    rw [BitVec.toNat_add, BitVec.toNat_sub, BitVec.toNat_add, hmax, hone, h28]
    omega
  have hoffset : p - (address - cut) = p - address + cut := by
    ring
  rw [hsize, BitVec.toNat_setWidth, hsize', hoffset, BitVec.toNat_add]
  omega

/-! ### The whole -/

theorem writeFirstTrampoline_inWindow {writable : Addr → ℕ → Bool} {m : Mem} {target q : Word}
    {type : TrampolineType} {w : Written}
    (hw : writeFirstTrampoline writable m address target type = some w) (hq : w.mem q ≠ m q) :
    InRange address (getFirstTrampolineSize type) q := by
  obtain ⟨bs, hlen, -, hmem, -⟩ := writeFirstTrampoline_written hw
  by_contra hout
  refine hq ?_
  rw [hmem]
  split
  · rw [← hlen] at hout
    exact store_of_not_inRange hout
  · rfl

/-- The window of a relocation is the requested one up to the end of its last instruction, and all
that is saved of it and written to it fits into the buffers and into the writable pages. -/
theorem overwrite_window :
    (∀ heaps code address (size : ℕ), 0 < size → 2 ∣ size →
      (∀ w fuel, size ≤ fuel →
        relocateWindow code fuel size w = relocateWindow code size size w) ∧
      ∀ r, relocate heaps code address size = .ok r → 0 < r.overwriteSize →
        (size ≤ r.overwriteSize ∧ r.overwriteSize ≤ size + 2) ∧
          TailJumps code address r (address + BitVec.ofNat 64 r.overwriteSize)) ∧
    (∀ heaps code address type r,
      relocate heaps code address (getFirstTrampolineSize type) = .ok r →
        r.overwriteSize ≤ kMaxFirstTrampolineSize) ∧
    (∀ mem vars cs s, Run LibraryCall.step (fun _ _ => True) (initial mem vars) cs s →
      WindowsFit s ∧ ∀ k < 31,
        (∀ i info, s.infos i = some info →
          MadeWritable (BitVec.twoPow 32 k) info.address info.functionBackupSize.toNat) ∧
        ∀ address record, s.records address = some record →
          MadeWritable (BitVec.twoPow 32 k) address record.overwriteSize) ∧
    ∀ k address, k < 31 → address ≠ 0 → ∀ writable m target type w q,
      writeFirstTrampoline writable m address target type = some w → w.mem q ≠ m q →
        ∃ n, InRange address n q ∧ MadeWritable (BitVec.twoPow 32 k) address n := by
  refine ⟨fun heaps code address size _ heven => ⟨fun w fuel hfuel => ?_, fun r hok _ => ?_⟩,
    fun heaps code address type r hok => relocate_fits hok, fun mem vars cs s hrun => ?_,
    fun k address hk haddress writable m target type w q hw hq => ?_⟩
  · exact relocateWindow_ends w (by omega) (by omega)
  · exact ⟨relocate_extent heven hok, relocate_tailJumps hok⟩
  · have hf : WindowsFit s :=
      hrun.invariant (fun _ _ _ hf _ hs => hf.step hs) (windowsFit_initial mem vars)
    refine ⟨hf, fun k hk => ⟨fun i info hi => ?_, fun address record hrecord => ?_⟩⟩
    · obtain ⟨haddress, hsize, -⟩ := hf.infos i info hi
      exact madeWritable hk haddress hsize
    · obtain ⟨haddress, hsize⟩ := hf.records address record hrecord
      exact madeWritable hk haddress hsize
  · have hmax := getFirstTrampolineSize_le type
    exact ⟨_, writeFirstTrampoline_inWindow hw hq,
      madeWritable hk haddress (hmax.trans (by decide))⟩

/-- The window of a `jal`, of which four bytes are asked for. -/
theorem overwrite_window_sample : TailJumps jalSample 0x1000 jalRelocated 0x1004 :=
  ((overwrite_window.1 (fun _ => some 0x20000) jalSample 0x1000 4 (by decide) (by decide)).2
    jalRelocated relocate_jalSample (by decide)).2

end Rv64Hook
