import Rv64Hook.Hooks.Registry
import Rv64Hook.Relocator.Internal

/-! The bytes of hooked functions: only the window of a function with a live handle can differ from
the original code, as long as no removal of all handles of a function strays to those of another. -/
namespace Rv64Hook
open ByteMem Rv64 LinkedList Calls

/-- The bytes of its function that an info has saved. -/
def HookInfo.Window (info : HookInfo) (p : Addr) : Prop :=
  InRange info.address info.functionBackupSize.toNat p

instance (info : HookInfo) (p : Addr) : Decidable (info.Window p) :=
  inferInstanceAs (Decidable (InRange ..))

/-- What an info has saved, and where. -/
def HookInfo.backup (info : HookInfo) : Word × BitVec 8 × List Byte :=
  (info.address, info.functionBackupSize, info.functionBackup)

namespace Process

/-- Outside the heaps, only windows of functions with a live handle differ from the original. -/
def BytesRestored (orig : Mem) (heap : Addr → Prop) (s : Process) : Prop :=
  ∀ p, ¬ heap p → s.mem p ≠ orig p →
    ∃ q h info, s.handles q = some h ∧ s.infos h.info = some info ∧ info.address = h.address ∧
      info.Window p

/-- Every info has saved the original bytes of its window, and the window holds them, unless there
are live handles and their number is known. The handles of info `j` are still to come. -/
structure RestorableExcept (orig : Mem) (heap : Addr → Prop) (s : Process) (j : Option Word) :
    Prop where
  saved : ∀ i info, s.infos i = some info →
    info.functionBackup = bytesAt orig info.address info.functionBackupSize.toNat
  noHeap : ∀ i info p, s.infos i = some info → info.Window p → ¬ heap p
  disjoint : ∀ i k info info' p, s.infos i = some info → s.infos k = some info' →
    info.Window p → info'.Window p → i = k
  outside : ∀ p, ¬ heap p → (∀ i info, s.infos i = some info → ¬ info.Window p) →
    s.mem p = orig p
  hooked : ∀ i info, s.infos i = some info → (∀ p, info.Window p → s.mem p = orig p) ∨
    ∃ xs, Entry s info.address i info xs ∧ (some i ≠ j → xs ≠ [])
  known : ∀ p h, s.handles p = some h → ∃ info, s.infos h.info = some info ∧
    info.address = h.address
  records : ∀ a, s.records a = none

abbrev Restorable (orig : Mem) (heap : Addr → Prop) (s : Process) : Prop :=
  RestorableExcept orig heap s none

variable {orig : Mem} {heap : Addr → Prop} {e : System} {s s' t : Process}
  {a address i p : Word} {j j' : Option Word} {args : HookArgs} {info : HookInfo}
  {td : TrampolineData} {h : HookHandleExt} {xs : List Word}

theorem restorable_initial (mem : Mem) (vars : Word → Word) (heap : Addr → Prop) :
    Restorable mem heap (initial mem vars) :=
  ⟨fun _ _ h => (nomatch h), fun _ _ _ h => (nomatch h), fun _ _ _ _ _ h => (nomatch h),
    fun _ _ _ => rfl, fun _ _ h => (nomatch h), fun _ _ h => (nomatch h), fun _ => rfl⟩

theorem RestorableExcept.restored (hr : Restorable orig heap s) : BytesRestored orig heap s := by
  intro p hp hne
  by_cases hwindow : ∀ i info, s.infos i = some info → ¬ info.Window p
  · exact absurd (hr.outside p hp hwindow) hne
  simp only [not_forall, not_not] at hwindow
  obtain ⟨i, info, hi, hw⟩ := hwindow
  rcases hr.hooked i info hi with hrestored | ⟨xs, he, hxs⟩
  · exact absurd (hrestored p hw) hne
  obtain ⟨q, qs, rfl⟩ := List.exists_cons_of_ne_nil (hxs (by simp))
  obtain ⟨h, hh, rfl⟩ := exists_handle_of_field ((he.live q).mpr List.mem_cons_self)
  obtain ⟨info', hi', haddr⟩ := hr.known q h hh
  obtain rfl := Option.some.inj (hi.symm.trans hi')
  exact ⟨q, h, info, hh, hi, haddr, hw⟩

/-- A step that keeps what is saved, and all bytes outside the heaps. -/
theorem RestorableExcept.step (hr : RestorableExcept orig heap s j)
    (hinfos : ∀ i, (s'.infos i).map HookInfo.backup = (s.infos i).map HookInfo.backup)
    (hmem : ∀ p, ¬ heap p → s'.mem p = s.mem p)
    (hhooked : ∀ i info xs, Entry s info.address i info xs → (some i ≠ j → xs ≠ []) →
      ∃ info' xs', Entry s' info.address i info' xs' ∧ (some i ≠ j' → xs' ≠ []))
    (hknown : ∀ p h, s'.handles p = some h → ∃ info, s.infos h.info = some info ∧
      info.address = h.address)
    (hrecords : s'.records = s.records) : RestorableExcept orig heap s' j' := by
  have hback : ∀ i info', s'.infos i = some info' → ∃ info, s.infos i = some info ∧
      info.address = info'.address ∧ info.functionBackupSize = info'.functionBackupSize ∧
      info.functionBackup = info'.functionBackup := by
    intro i info' hi
    have hmap := hinfos i
    rw [hi, Option.map_some] at hmap
    obtain ⟨info, hinfo, heq⟩ := Option.map_eq_some_iff.mp hmap.symm
    obtain ⟨h1, h23⟩ := Prod.mk.inj heq
    obtain ⟨h2, h3⟩ := Prod.mk.inj h23
    exact ⟨info, hinfo, h1, h2, h3⟩
  have hforth : ∀ i info, s.infos i = some info → ∃ info', s'.infos i = some info' ∧
      info'.address = info.address ∧ info'.functionBackupSize = info.functionBackupSize := by
    intro i info hi
    have hmap := hinfos i
    rw [hi, Option.map_some] at hmap
    obtain ⟨info', hinfo, heq⟩ := Option.map_eq_some_iff.mp hmap
    obtain ⟨h1, h23⟩ := Prod.mk.inj heq
    exact ⟨info', hinfo, h1, (Prod.mk.inj h23).1⟩
  have hwindow : ∀ {info info' : HookInfo} {p : Addr}, info.address = info'.address →
      info.functionBackupSize = info'.functionBackupSize → info'.Window p → info.Window p := by
    intro info info' p h1 h2 hw
    unfold HookInfo.Window at hw ⊢
    rwa [h1, h2]
  refine ⟨fun i info' hi => ?_, fun i info' p hi hw => ?_, fun i k info' info'' p hi hk hw hw' => ?_,
    fun p hp hout => ?_, fun i info' hi => ?_, fun p h hh => ?_, fun a => ?_⟩
  · obtain ⟨info, hinfo, h1, h2, h3⟩ := hback i info' hi
    rw [← h1, ← h2, ← h3]
    exact hr.saved i info hinfo
  · obtain ⟨info, hinfo, h1, h2, -⟩ := hback i info' hi
    exact hr.noHeap i info p hinfo (hwindow h1 h2 hw)
  · obtain ⟨k1, hk1, h1, h2, -⟩ := hback i info' hi
    obtain ⟨k2, hk2, h3, h4, -⟩ := hback k info'' hk
    exact hr.disjoint i k k1 k2 p hk1 hk2 (hwindow h1 h2 hw) (hwindow h3 h4 hw')
  · rw [hmem p hp]
    refine hr.outside p hp fun i info hi hw => ?_
    obtain ⟨info', hi', h1, h2⟩ := hforth i info hi
    exact hout i info' hi' (hwindow h1 h2 hw)
  · obtain ⟨info, hinfo, h1, h2, -⟩ := hback i info' hi
    rcases hr.hooked i info hinfo with hrestored | ⟨xs, he, hxs⟩
    · refine .inl fun p hw => ?_
      rw [hmem p (hr.noHeap i info p hinfo (hwindow h1 h2 hw))]
      exact hrestored p (hwindow h1 h2 hw)
    · obtain ⟨k, xs', he', hxs'⟩ := hhooked i info xs he hxs
      obtain rfl := Option.some.inj (hi.symm.trans he'.hasInfo)
      exact .inr ⟨xs', ⟨hi, rfl, he'.nodup, he'.count, he'.live⟩, hxs'⟩
  · obtain ⟨info, hinfo, h1⟩ := hknown p h hh
    obtain ⟨info', hi', h2, -⟩ := hforth h.info info hinfo
    exact ⟨info', hi', h2.trans h1⟩
  · rw [hrecords]
    exact hr.records a

/-- A step that changes neither handles nor infos. -/
theorem RestorableExcept.congr (hr : RestorableExcept orig heap s j)
    (hhandles : s'.handles = s.handles) (hinfos : s'.infos = s.infos)
    (hmem : ∀ p, ¬ heap p → s'.mem p = s.mem p) (hrecords : s'.records = s.records) :
    RestorableExcept orig heap s' j := by
  have hinfo : s'.infoOf = s.infoOf := by
    unfold infoOf field
    rw [hhandles]
  refine hr.step (fun i => by rw [hinfos]) hmem (fun i info xs he hxs => ?_)
    (fun p h hh => hr.known p h (hhandles ▸ hh)) hrecords
  refine ⟨info, xs, ⟨hinfos ▸ he.hasInfo, rfl, he.nodup, he.count, fun q => ?_⟩, hxs⟩
  rw [hinfo]
  exact he.live q

/-- A registration for info `i`. -/
theorem Added.restorable (ha : Added e s i info td args s')
    (hr : RestorableExcept orig heap s (some i)) (hi : s.infos i = some info)
    (hfresh : s.handles e.handle = none) (hcount : info.handleCount ≠ 0xffff) :
    Restorable orig heap s' := by
  have hmem : s'.mem = s.mem := congrArg CodeMemory.mem ha.code
  refine hr.step (fun k => ?_) (fun p _ => by rw [hmem]) (fun k info' xs he hxs => ?_)
    (fun p h hh => ?_) ha.records
  · rw [ha.infos]
    by_cases hk : k = i
    · rw [hk, Function.update_self, hi]
      rfl
    · rw [Function.update_of_ne hk]
  · obtain ⟨k', he'⟩ := ha.entry hi hfresh hcount he
    refine ⟨k', _, he', fun _ => ?_⟩
    by_cases hk : k = i
    · rw [if_pos hk]
      simp
    · rw [if_neg hk]
      exact hxs fun heq => hk (Option.some.inj heq)
  · have hcore := ha.handles p
    rw [hh] at hcore
    by_cases hp : p = e.handle
    · rw [if_pos hp] at hcore
      obtain ⟨h1, h2, -⟩ := fields_of_core (Option.some.inj hcore)
      refine ⟨info, ?_, h2.symm⟩
      rw [h1]
      exact hi
    · rw [if_neg hp] at hcore
      obtain ⟨k, hk, heq⟩ := Option.map_eq_some_iff.mp hcore.symm
      obtain ⟨h1, h2, -⟩ := fields_of_core heq
      rw [← h1, ← h2]
      exact hr.known p k hk

/-- The removal of a handle that is not the last one of its info. -/
theorem Removed.restorable (hm : Removed s info td p h s') (hr : Restorable orig heap s)
    (hh : s.handles p = some h) (hi : s.infos h.info = some info) (hcount : info.handleCount ≠ 1) :
    Restorable orig heap s' := by
  have hmem : s'.mem = s.mem := congrArg CodeMemory.mem hm.code
  refine hr.step (fun k => ?_) (fun q _ => by rw [hmem]) (fun k info' xs he hxs => ?_)
    (fun q k hk => ?_) hm.records
  · rw [hm.infos]
    by_cases hk : k = h.info
    · rw [hk, Function.update_self, hi]
      rfl
    · rw [Function.update_of_ne hk]
  · obtain ⟨k', he', hxs'⟩ := hm.entry hh hi hcount he (hxs (by simp))
    exact ⟨k', _, he', fun _ => hxs'⟩
  · have hcore := hm.handles q
    rw [hk] at hcore
    by_cases hq : q = p
    · rw [if_pos hq] at hcore
      cases hcore
    · rw [if_neg hq] at hcore
      obtain ⟨l, hl, heq⟩ := Option.map_eq_some_iff.mp hcore.symm
      obtain ⟨h1, h2, -⟩ := fields_of_core heq
      rw [← h1, ← h2]
      exact hr.known q l hl

/-- `HookInfo::Unhook`, after the deletion of handles of its own. -/
theorem RestorableExcept.unhookInfo (hr : Restorable orig heap s)
    (hdel : ∀ q, t.handles q = s.handles q ∨ t.handles q = none ∧ s.infoOf q = some i)
    (hrest : t = { s with handles := t.handles })
    (hwritable : ∀ a n, e.writable a n = true) (hs : unhookInfo e t i true = some s') :
    Restorable orig heap s' := by
  obtain ⟨info, td, hi, -, hhandles, hinfos, hrecords, -, -, hmem, -⟩ := unhookInfo_eq hs
  have hinfos' : s'.infos = s.infos := by rw [hinfos, hrest]
  have hi' : s.infos i = some info := by rw [← hinfos', hinfos, hi]
  have hmem' : ∀ p, s'.mem p = if info.Window p then orig p else s.mem p := by
    intro p
    have hlen := congrArg List.length (hr.saved i info hi')
    rw [length_bytesAt] at hlen
    rw [hmem, if_pos rfl, CodeMemory.copy, if_pos (hwritable _ _),
      List.take_of_length_le hlen.le, hr.saved i info hi', hrest]
    exact store_bytesAt ..
  have hinfoOf : ∀ q, s'.infoOf q = s.infoOf q ∨ s'.infoOf q = none ∧ s.infoOf q = some i := by
    intro q
    have hq := hdel q
    rw [← hhandles] at hq
    rcases hq with hq | ⟨hq, hown⟩
    · exact .inl (by rw [infoOf, infoOf, field, field, hq])
    · exact .inr ⟨by rw [infoOf, field, hq]; rfl, hown⟩
  refine ⟨fun k info' hk => hr.saved k info' (hinfos' ▸ hk),
    fun k info' p hk => hr.noHeap k info' p (hinfos' ▸ hk),
    fun k l info' info'' p hk hl => hr.disjoint k l info' info'' p (hinfos' ▸ hk) (hinfos' ▸ hl),
    fun p hp hout => ?_, fun k info' hk => ?_, fun q k hk => ?_, fun a => ?_⟩
  · rw [hmem', if_neg (hout i info (hinfos' ▸ hi'))]
    exact hr.outside p hp fun k info' hk => hout k info' (hinfos' ▸ hk)
  · rw [hinfos'] at hk
    by_cases hki : k = i
    · subst hki
      obtain rfl := Option.some.inj (hi'.symm.trans hk)
      exact .inl fun p hw => by rw [hmem', if_pos hw]
    rcases hr.hooked k info' hk with hrestored | ⟨xs, he, hxs⟩
    · refine .inl fun p hw => ?_
      rw [hmem', if_neg fun hw' => hki (hr.disjoint k i info' info p hk hi' hw hw')]
      exact hrestored p hw
    · refine .inr ⟨xs, ⟨hinfos' ▸ hk, rfl, he.nodup, he.count, fun q => ?_⟩, hxs⟩
      rw [← he.live q]
      rcases hinfoOf q with hq | ⟨hq, hown⟩
      · rw [hq]
      · rw [hq, hown]
        exact ⟨fun heq => (by cases heq), fun heq => absurd (Option.some.inj heq).symm hki⟩
  · have hq := hdel q
    rw [← hhandles] at hq
    rcases hq with hq | ⟨hq, -⟩
    · rw [hq] at hk
      rw [hinfos']
      exact hr.known q k hk
    · rw [hq] at hk
      cases hk
  · rw [hrecords, hrest]
    exact hr.records a

end Process
/-! ### New functions -/

open Process Trampoline

variable {orig : Mem} {heap : Addr → Prop} {e : System} {s s' : Process} {a address p : Word}
  {args : HookArgs} {r : Relocated} {c c' : CodeMemory}

/-- What the system gives to a call that hooks a function: new objects, writable code, and blocks in
the heaps, which are apart from the window of the function; the windows of two functions are
disjoint. -/
structure HookRoom (heap : Addr → Prop) (e : System) (s : Process) (address : Word) : Prop where
  objects : NewObjects e s
  writable : ∀ a n, e.writable a n = true
  trampoline : ∀ p, InRange e.trampoline e.secondTrampoline.length p → heap p
  block : ∀ r c p, s.hooks address = none → hookRelocation e s address = .ok (r, c) →
    InRange r.backup r.block.length p → heap p
  window : ∀ r c p, s.hooks address = none → hookRelocation e s address = .ok (r, c) →
    InRange address r.overwriteSize p →
      ¬ heap p ∧ ∀ i info, s.infos i = some info → ¬ info.Window p

theorem allocSecondTrampoline_mem (e : System) (s : Process) :
    (allocSecondTrampoline e s).mem = store s.mem e.trampoline e.secondTrampoline := by
  unfold allocSecondTrampoline
  dsimp only
  split <;> rfl

theorem relocate_eq {heaps : ℕ → Option Word} {size : Int} {c₀ : CodeMemory}
    (hrel : c₀.relocate heaps address size = .ok (r, c)) :
    Rv64Hook.relocate heaps c₀.mem address size = .ok r ∧
      c = ((c₀.alloc r.backup).write r.backup r.block).clearCache r.backup r.block.length := by
  obtain ⟨r', hr', hc⟩ := bind_eq_ok hrel
  obtain ⟨rfl, rfl⟩ := Prod.mk.inj (Except.ok.inj hc)
  exact ⟨hr', rfl⟩

/-- The allocations of a call that hooks change the heaps only. -/
theorem HookRoom.mem_eq (hroom : HookRoom heap e s address) (hnew : s.hooks address = none)
    (hp : ¬ heap p) :
    (allocSecondTrampoline e s).mem p = s.mem p ∧
      ∀ r c, hookRelocation e s address = .ok (r, c) → c.mem p = s.mem p := by
  have halloc : (allocSecondTrampoline e s).mem p = s.mem p := by
    rw [allocSecondTrampoline_mem]
    exact store_of_not_inRange fun hin => hp (hroom.trampoline p hin)
  refine ⟨halloc, fun r c hrel => ?_⟩
  obtain ⟨-, rfl⟩ := relocate_eq hrel
  refine Eq.trans ?_ halloc
  exact store_of_not_inRange fun hin => hp (hroom.block r _ p hnew hrel hin)

theorem getFirstTrampolineSize_le (type : TrampolineType) : getFirstTrampolineSize type ≤ 18 := by
  cases type <;> decide

/-- The window of a new function covers its first trampoline. -/
theorem hookRelocation_size (hrel : hookRelocation e s address = .ok (r, c)) :
    getFirstTrampolineSize (firstType e address) ≤ r.overwriteSize ∧
      (BitVec.ofNat 8 r.overwriteSize).toNat = r.overwriteSize := by
  obtain ⟨hr, -⟩ := relocate_eq hrel
  obtain ⟨hle, hlt⟩ := relocate_overwriteSize hr
  have hmax := getFirstTrampolineSize_le (firstType e address)
  refine ⟨hle, ?_⟩
  rw [BitVec.toNat_ofNat]
  exact Nat.mod_eq_of_lt (by omega)

/-- A new function, saved and patched, without handles. -/
theorem Process.RestorableExcept.created (hr : Restorable orig heap s)
    (hroom : HookRoom heap e s address) (hnew : s.hooks address = none) {copied : Bool}
    (hrel : hookRelocation e s address = .ok (r, c))
    (hwrite : (createdProcess e s address r c).writeFirstTrampoline e.writable address
      e.trampoline (firstType e address) = some (copied, c')) :
    RestorableExcept orig heap { createdProcess e s address r c with toCodeMemory := c' }
      (some e.info) := by
  obtain ⟨hle, hsize⟩ := hookRelocation_size hrel
  obtain ⟨bs, hlen, -, hmem, -⟩ := writeFirstTrampoline_eq hwrite
  obtain ⟨-, hinfo, -, -⟩ := hroom.objects
  have hwindow := fun p => hroom.window r c p hnew hrel
  -- outside the heaps, the trampoline is the only change
  have hc : ∀ p, ¬ heap p → c.mem p = s.mem p := fun p hp => (hroom.mem_eq hnew hp).2 r c hrel
  have hc' : ∀ p, ¬ InRange address r.overwriteSize p → c'.mem p = c.mem p := by
    intro p hp
    rw [hmem]
    split
    · exact store_of_not_inRange fun hin => hp (hin.mono (hlen.trans_le hle))
    · rfl
  generalize ht : ({ createdProcess e s address r c with toCodeMemory := c' } : Process) = t
  have htmem : t.mem = c'.mem := by rw [← ht]
  have hthandles : t.handles = s.handles := by
    rw [← ht]
    rfl
  have htinfos : t.infos = Function.update s.infos e.info (some
      { address := address
        rootHandle := 0
        trampoline := e.trampoline
        customFree := if e.isUserAlloc then e.customFree else 0
        customData := if e.isUserAlloc then e.customData else 0
        relocated := r.backup
        handleCount := 0
        functionBackupSize := BitVec.ofNat 8 r.overwriteSize
        functionBackup := bytesAt c.mem address (BitVec.ofNat 8 r.overwriteSize).toNat }) := by
    rw [← ht]
    rfl
  have hold : ∀ k info, s.infos k = some info → k ≠ e.info := by
    rintro k info hk rfl
    rw [hinfo] at hk
    cases hk
  have hcases : ∀ k info, t.infos k = some info →
      k = e.info ∧ (∀ p, info.Window p ↔ InRange address r.overwriteSize p) ∧
        info.address = address ∧ info.handleCount = 0 ∧
        info.functionBackup = bytesAt c.mem info.address info.functionBackupSize.toNat ∨
      s.infos k = some info := by
    intro k info hk
    rw [htinfos] at hk
    by_cases hki : k = e.info
    · rw [hki, Function.update_self] at hk
      obtain rfl := Option.some.inj hk
      refine .inl ⟨hki, fun p => ?_, rfl, rfl, rfl⟩
      unfold HookInfo.Window
      rw [hsize]
    · rw [Function.update_of_ne hki] at hk
      exact .inr hk
  have hinfoOf : t.infoOf = s.infoOf := by
    unfold infoOf field
    rw [hthandles]
  refine ⟨fun k info hk => ?_, fun k info p hk hw => ?_, fun k l info info' p hk hl hw hw' => ?_,
    fun p hp hout => ?_, fun k info hk => ?_, fun q h hh => ?_, fun a => ?_⟩
  · rcases hcases k info hk with ⟨-, hwin, -, -, hbackup⟩ | hk
    · rw [hbackup]
      refine bytesAt_congr fun p hw => ?_
      obtain ⟨hp, hother⟩ := hwindow p ((hwin p).mp hw)
      rw [hc p hp]
      exact hr.outside p hp hother
    · exact hr.saved k info hk
  · rcases hcases k info hk with ⟨-, hwin, -⟩ | hk
    · exact (hwindow p ((hwin p).mp hw)).1
    · exact hr.noHeap k info p hk hw
  · rcases hcases k info hk with ⟨rfl, hwin, -⟩ | hk <;>
      rcases hcases l info' hl with ⟨rfl, hwin', -⟩ | hl
    · rfl
    · exact absurd hw' ((hwindow p ((hwin p).mp hw)).2 l info' hl)
    · exact absurd hw ((hwindow p ((hwin' p).mp hw')).2 k info hk)
    · exact hr.disjoint k l info info' p hk hl hw hw'
  · have hnotNew : ¬ InRange address r.overwriteSize p := by
      intro hin
      refine hout e.info _ (by rw [htinfos, Function.update_self]) ?_
      unfold HookInfo.Window
      rwa [hsize]
    rw [htmem, hc' p hnotNew, hc p hp]
    refine hr.outside p hp fun k info hk => hout k info ?_
    rw [htinfos, Function.update_of_ne (hold k info hk), hk]
  · rcases hcases k info hk with ⟨rfl, -, -, hcount, -⟩ | hks
    · refine .inr ⟨[], ⟨hk, rfl, List.nodup_nil, by rw [hcount]; rfl, fun q => ?_⟩,
        fun hne => absurd rfl hne⟩
      rw [hinfoOf]
      refine ⟨fun hq => ?_, fun hq => (nomatch hq)⟩
      obtain ⟨h, hh, hi⟩ := exists_handle_of_field hq
      obtain ⟨info', hi', -⟩ := hr.known q h hh
      exact absurd hi (hold _ _ hi')
    · rcases hr.hooked k info hks with hrestored | ⟨xs, he, hxs⟩
      · refine .inl fun p hw => ?_
        have hp := hr.noHeap k info p hks hw
        rw [htmem, hc' p fun hin => (hwindow p hin).2 k info hks hw, hc p hp]
        exact hrestored p hw
      · refine .inr ⟨xs, ⟨hk, rfl, he.nodup, he.count, fun q => ?_⟩, fun _ => hxs (by simp)⟩
        rw [hinfoOf]
        exact he.live q
  · rw [hthandles] at hh
    obtain ⟨info, hi, haddr⟩ := hr.known q h hh
    exact ⟨info, by rw [htinfos, Function.update_of_ne (hold _ _ hi), hi], haddr⟩
  · rw [← ht]
    exact hr.records a

/-! ### Runs -/

theorem doHook_restorable {res : HookResult} (hr : Restorable orig heap s)
    (hroom : HookRoom heap e s address) (hs : doHook e s address args = some (res, s')) :
    Restorable orig heap s' := by
  obtain ⟨-, -, -, hfresh⟩ := hroom.objects
  cases hi : s.hooks address with
  | some i =>
    obtain ⟨info, hinfo, ⟨-, -, rfl⟩ | ⟨hcount, -, hs'⟩⟩ := doHook_known hs hi
    · exact hr
    obtain ⟨info', td, hinfo', -, ha⟩ := newHookHandle_added hs'
    obtain rfl := Option.some.inj (hinfo.symm.trans hinfo')
    refine ha.restorable ⟨hr.saved, hr.noHeap, hr.disjoint, hr.outside, fun k info' hk => ?_,
      hr.known, hr.records⟩ hinfo hfresh hcount
    exact (hr.hooked k info' hk).imp_right fun ⟨xs, he, hxs⟩ => ⟨xs, he, fun _ => hxs (by simp)⟩
  | none =>
    rcases doHook_new hs hi with ⟨-, rfl⟩ | ⟨-, -, ⟨-, rfl⟩ | ⟨r, c, hrel, hcases⟩⟩
    · exact hr
    · exact hr.congr rfl rfl (fun p hp => (hroom.mem_eq hi hp).1) rfl
    rcases hcases with ⟨-, rfl⟩ | ⟨-, copied, c', hwrite, hcases⟩
    · exact hr.congr rfl rfl (fun p hp => (hroom.mem_eq hi hp).2 r c hrel) rfl
    have hcreated := hr.created hroom hi hrel hwrite
    obtain ⟨bs, -, hcopied, -⟩ := writeFirstTrampoline_eq hwrite
    rw [hroom.writable] at hcopied
    rw [if_pos hcopied] at hcases
    obtain ⟨info, td, hinfo, -, ha⟩ := newHookHandle_added hcases.2
    refine ha.restorable hcreated hinfo hfresh ?_
    obtain rfl := Option.some.inj (hinfo.symm.trans (Function.update_self ..))
    change (0 : BitVec 16) ≠ 0xffff
    decide

/-- From the root of the function of the handle, `next_` leads to handles of that function only. -/
def Process.WalksOwn (s : Process) (p : Word) : Prop :=
  ∀ h info xs, s.handles p = some h → s.infos h.info = some info →
    Seg s.nextOf info.rootHandle xs 0 → ∀ q ∈ xs, s.infoOf q = some h.info

theorem unhookAllExt_restorable {res : Bool} (hr : Restorable orig heap s)
    (hwritable : ∀ a n, e.writable a n = true) (hown : s.WalksOwn p)
    (hs : unhookAllExt e s p = some (res, s')) : Restorable orig heap s' := by
  obtain ⟨h, hh, ⟨-, rfl⟩ | ⟨-, info, xs, t, hi, hseg, hdel, hrest, hu⟩⟩ := unhookAllExt_cases hs
  · exact hr
  refine hr.unhookInfo (fun q => ?_) hrest hwritable hu
  rw [hdel]
  by_cases hq : q ∈ xs
  · rw [if_pos hq]
    exact .inr ⟨rfl, hown h info xs hh hi hseg q hq⟩
  · rw [if_neg hq]
    exact .inl rfl

namespace LibraryCall

/-- What the system gives to a call; trampolines of the user are not written. -/
def Room (heap : Addr → Prop) (s : Process) : LibraryCall → Prop
  | inlineHook e address _ _ | inlineInstrument e address _ _ _ _ => HookRoom heap e s address
  | unhook e _ | unhookAll e _ | inlineUnhook e _ => ∀ a n, e.writable a n = true
  | setEnabled _ _ | setEnabledAll _ _ => True
  | writeTrampoline _ _ _ _ => False

/-- A call that removes all handles of a function removes no others. -/
def RemovesOwn (s : Process) : LibraryCall → Prop
  | unhookAll _ p => s.WalksOwn p
  | inlineUnhook _ address => ∀ i info, s.hooks address = some i → s.infos i = some info →
      s.WalksOwn info.rootHandle
  | _ => True

theorem step_restorable {c : LibraryCall} (hr : Restorable orig heap s) (hroom : c.Room heap s)
    (hown : c.RemovesOwn s) (hs : c.step s = some s') : Restorable orig heap s' := by
  cases c with
  | inlineHook e address hook backup =>
    rcases step_inlineHook hs with ⟨-, rfl⟩ | ⟨-, -, res, ht⟩
    · exact hr
    · exact doHook_restorable hr hroom ht
  | inlineInstrument e address preHandler postHandler data backup =>
    rcases step_inlineInstrument hs with ⟨-, rfl⟩ | ⟨-, -, -, -, res, ht⟩
    · exact hr
    · exact doHook_restorable hr hroom ht
  | unhook e p =>
    obtain ⟨res, ht⟩ := step_unhook hs
    obtain ⟨h, hh, ⟨-, rfl⟩ | ⟨-, info, hi, hcases⟩⟩ := unhookExt_cases ht
    · exact hr
    rcases hcases with ⟨-, hu⟩ | ⟨hcount, td, -, hm⟩
    · refine hr.unhookInfo (fun q => ?_) rfl hroom hu
      by_cases hq : q = p
      · rw [hq]
        exact .inr ⟨Function.update_self .., by rw [infoOf, field_eq hh]⟩
      · exact .inl (Function.update_of_ne hq ..)
    · exact hm.restorable hr hh hi hcount
  | unhookAll e p =>
    obtain ⟨res, ht⟩ := step_unhookAll hs
    exact unhookAllExt_restorable hr hroom hown ht
  | setEnabled p enabled =>
    obtain ⟨h, hh, rfl⟩ := step_setEnabled hs
    have hinfo : (s.setHandle p { h with enabled := enabled }).infoOf = s.infoOf :=
      field_setHandle_same hh rfl
    refine hr.step (fun _ => rfl) (fun _ _ => rfl) (fun i info xs he hxs => ?_)
      (fun q k hk => ?_) rfl
    · exact ⟨info, xs, ⟨he.hasInfo, rfl, he.nodup, he.count, fun q => hinfo ▸ he.live q⟩, hxs⟩
    · by_cases hq : q = p
      · rw [hq, setHandle_handles, Function.update_self] at hk
        obtain rfl := Option.some.inj hk
        exact hr.known p h hh
      · rw [setHandle_handles, Function.update_of_ne hq] at hk
        exact hr.known q k hk
  | setEnabledAll p enabled =>
    rcases step_setEnabledAll hs with rfl | ⟨h, info, td, -, -, -, rfl⟩
    · exact hr
    · exact hr.congr rfl rfl (fun _ _ => rfl) rfl
  | inlineUnhook e address =>
    rcases step_inlineUnhook hs with ⟨-, rfl⟩ | ⟨-, ⟨i, info, res, hi, hinfo, -, ht⟩ |
      ⟨-, record, hrecord, -⟩⟩
    · exact hr
    · exact unhookAllExt_restorable hr hroom (hown i info hi hinfo) ht
    · rw [hr.records] at hrecord
      cases hrecord
  | writeTrampoline e address hook backup => exact hroom.elim

end LibraryCall

/-- In a run whose calls remove handles of their own function only, the bytes of every function
without a live handle are the original ones. -/
theorem bytes_restored (heap : Addr → Prop) (mem : Mem) (vars : Word → Word)
    (cs : List LibraryCall) (s : Process)
    (hrun : Run LibraryCall.step (fun s c => c.Room heap s ∧ c.RemovesOwn s) (initial mem vars)
      cs s) : BytesRestored mem heap s :=
  (hrun.invariant (fun _ _ _ hr hc hs => LibraryCall.step_restorable hr hc.1 hc.2 hs)
    (restorable_initial mem vars heap)).restored

/-! ### Two functions -/

def sampleHeap (p : Addr) : Prop := 0x2000 ≤ p.toNat ∧ p.toNat < 0x8000

def firstSystem (handle : Word) : System :=
  { hookSystem with
    info := handle + 0x10
    handle := handle }

def secondSystem : System :=
  { hookSystem with
    trampoline := 0x2800
    heaps := fun _ => some 0x3800
    info := 0x20 }

/-- Two of three hooks of the first function are removed; in between, a hook of the second function
gets the address of the first hook, and its function is unhooked afterwards. -/
def strayCalls : List LibraryCall :=
  [.inlineHook (firstSystem 0x100) 0x1000 0x4000 0, .inlineHook (firstSystem 0x200) 0x1000 0x4100 0,
    .inlineHook (firstSystem 0x300) 0x1000 0x4200 0, .unhook hookSystem 0x100,
    .inlineHook secondSystem 0x1100 0x4300 0, .unhook hookSystem 0x200,
    .inlineUnhook hookSystem 0x1100]

def strayStart : Process := initial nopMemory fun _ => 0

theorem eq_of_map_result {α : Type} {cs : List LibraryCall} {t : Process} {f : Process → α} {v : α}
    (ht : result LibraryCall.step strayStart cs = some t)
    (hv : (result LibraryCall.step strayStart cs).map f = some v) : f t = v := by
  rw [ht] at hv
  exact Option.some.inj hv

/-- A relocated block of the sample is in the heap. -/
theorem sampleHeap_block {b p : Word} {n : ℕ} (hb : 0x2000 ≤ b.toNat) (hn : b.toNat + n ≤ 0x8000)
    (hp : InRange b n p) : sampleHeap p := by
  unfold InRange at hp
  rw [BitVec.toNat_sub] at hp
  have hlt := p.isLt
  unfold sampleHeap
  omega

/-- The room of a call that hooks, from the values that decide it. -/
theorem hookRoom_of_values {e : System} {t : Process} {address b : Word} {n k : ℕ}
    (hobjects : NewObjects e t) (hwritable : e.writable = fun _ _ => true)
    (hcode : e.secondTrampoline = [])
    (hrel : t.hooks address = none → (hookRelocation e t address).map
      (fun x => (x.1.backup, x.1.block.length, x.1.overwriteSize)) = .ok (b, n, k))
    (hb : 0x2000 ≤ b.toNat) (hn : b.toNat + n ≤ 0x8000) (hk : address.toNat + k ≤ 0x2000)
    (hinfos : t.hooks address = none → ∀ i info, t.infos i = some info →
      info.address.toNat + info.functionBackupSize.toNat ≤ address.toNat) :
    HookRoom sampleHeap e t address := by
  have hvalues : ∀ r c, t.hooks address = none → hookRelocation e t address = .ok (r, c) →
      r.backup = b ∧ r.block.length = n ∧ r.overwriteSize = k := by
    intro r c hnew hr
    have hval := hrel hnew
    rw [hr] at hval
    obtain ⟨h1, h23⟩ := Prod.mk.inj (Except.ok.inj hval)
    exact ⟨h1, Prod.mk.inj h23⟩
  refine ⟨hobjects, fun a n => by rw [hwritable], fun p hp => ?_, fun r c p hnew hr hp => ?_,
    fun r c p hnew hr hp => ?_⟩
  · rw [hcode] at hp
    exact absurd hp (Nat.not_lt_zero _)
  · obtain ⟨h1, h2, -⟩ := hvalues r c hnew hr
    rw [h1, h2] at hp
    exact sampleHeap_block hb hn hp
  · obtain ⟨-, -, h3⟩ := hvalues r c hnew hr
    rw [h3] at hp
    unfold InRange at hp
    rw [BitVec.toNat_sub] at hp
    have hlt := p.isLt
    have ha := address.isLt
    refine ⟨fun hheap => ?_, fun i info hi hw => ?_⟩
    · unfold sampleHeap at hheap
      omega
    · have hle := hinfos hnew i info hi
      unfold HookInfo.Window InRange at hw
      rw [BitVec.toNat_sub] at hw
      have hi' := info.address.isLt
      omega

/-- The room of each call of the sample. -/
theorem strayCalls_room :
    Allowed LibraryCall.step (fun s c => c.Room sampleHeap s) strayStart strayCalls := by
  refine allowed_of_result fun ds c es hcs t ht => ?_
  have hlen := congrArg List.length hcs
  rw [List.length_append, List.length_cons] at hlen
  have hds : ds = strayCalls.take ds.length := by
    rw [hcs, List.take_left]
  have hc : strayCalls[ds.length]? = some c := by
    rw [hcs, List.getElem?_append_right le_rfl, Nat.sub_self]
    rfl
  have hseven : strayCalls.length = 7 := rfl
  have hlt : ds.length < 7 := by omega
  generalize hn : ds.length = n at hds hc hlt
  rw [hds] at ht
  interval_cases n
  · obtain rfl := Option.some.inj hc
    obtain rfl := Option.some.inj ht
    refine hookRoom_of_values (b := 0x3000) (n := 24) (k := 4) ⟨by decide, rfl, by decide, rfl⟩ rfl
      rfl (fun _ => rfl) (by decide) (by decide) (by decide) fun _ i info hi => (nomatch hi)
  · obtain rfl := Option.some.inj hc
    have hinfo : t.infos 0x210 = none := eq_of_map_result ht (f := (·.infos 0x210)) rfl
    have hhandle : t.handles 0x200 = none := eq_of_map_result ht (f := (·.handles 0x200)) rfl
    have hknown : t.hooks 0x1000 = some 0x110 := eq_of_map_result ht (f := (·.hooks 0x1000)) rfl
    refine hookRoom_of_values (b := 0x3000) (n := 0) (k := 0) ⟨by decide, hinfo, by decide, hhandle⟩
      rfl rfl (fun h => ?_) (by decide) (by decide) (by decide) fun h => ?_ <;>
      · rw [hknown] at h
        cases h
  · obtain rfl := Option.some.inj hc
    have hinfo : t.infos 0x310 = none := eq_of_map_result ht (f := (·.infos 0x310)) rfl
    have hhandle : t.handles 0x300 = none := eq_of_map_result ht (f := (·.handles 0x300)) rfl
    have hknown : t.hooks 0x1000 = some 0x110 := eq_of_map_result ht (f := (·.hooks 0x1000)) rfl
    refine hookRoom_of_values (b := 0x3000) (n := 0) (k := 0) ⟨by decide, hinfo, by decide, hhandle⟩
      rfl rfl (fun h => ?_) (by decide) (by decide) (by decide) fun h => ?_ <;>
      · rw [hknown] at h
        cases h
  · obtain rfl := Option.some.inj hc
    exact fun _ _ => rfl
  · obtain rfl := Option.some.inj hc
    have hinfo : t.infos 0x20 = none := eq_of_map_result ht (f := (·.infos 0x20)) rfl
    have hhandle : t.handles 0x100 = none := eq_of_map_result ht (f := (·.handles 0x100)) rfl
    have hrel := eq_of_map_result ht (f := fun t => (hookRelocation secondSystem t 0x1100).map
      fun x => (x.1.backup, x.1.block.length, x.1.overwriteSize)) (v := .ok (0x3800, 24, 4)) rfl
    have hvalues := eq_of_map_result ht (f := fun t => (t.infos 0x110).map
      fun info => (info.address, info.functionBackupSize)) (v := some (0x1000, 4)) rfl
    have hnone : t.infos 0x210 = none ∧ t.infos 0x310 = none :=
      ⟨eq_of_map_result ht (f := (·.infos 0x210)) rfl,
        eq_of_map_result ht (f := (·.infos 0x310)) rfl⟩
    refine hookRoom_of_values (b := 0x3800) (n := 24) (k := 4) ⟨by decide, hinfo, by decide, hhandle⟩
      rfl rfl (fun _ => hrel) (by decide) (by decide) (by decide) fun _ i info hi => ?_
    have hi110 : i = 0x110 := by
      have hrun : Run LibraryCall.step (fun _ _ => True) strayStart (strayCalls.take 4) t :=
        Run.of_result (allowed_of_result fun _ _ _ _ _ _ => trivial) ht
      rcases (LibraryCall.run_allocates hrun).2 i (by simp [hi]) with hne | ⟨c, hc, e, he, rfl⟩
      · exact absurd rfl hne
      · have hlist : strayCalls.take 4 = [.inlineHook (firstSystem 0x100) 0x1000 0x4000 0,
          .inlineHook (firstSystem 0x200) 0x1000 0x4100 0,
          .inlineHook (firstSystem 0x300) 0x1000 0x4200 0, .unhook hookSystem 0x100] := rfl
        rw [hlist] at hc
        simp only [List.mem_cons, List.not_mem_nil, or_false] at hc
        rcases hc with rfl | rfl | rfl | rfl
        · obtain rfl := Option.some.inj he
          rfl
        · obtain rfl := Option.some.inj he
          rw [show (firstSystem 0x200).info = 0x210 from rfl, hnone.1] at hi
          cases hi
        · obtain rfl := Option.some.inj he
          rw [show (firstSystem 0x300).info = 0x310 from rfl, hnone.2] at hi
          cases hi
        · cases he
    rw [hi110] at hi
    rw [hi] at hvalues
    obtain ⟨haddr, hsize⟩ := Prod.mk.inj (Option.some.inj hvalues)
    rw [haddr, hsize]
    decide
  · obtain rfl := Option.some.inj hc
    exact fun _ _ => rfl
  · obtain rfl := Option.some.inj hc
    exact fun _ _ => rfl

theorem bytes_restored_sample : ∃ s, result LibraryCall.step strayStart
    [.inlineHook (firstSystem 0x100) 0x1000 0x4000 0, .unhook hookSystem 0x100] = some s ∧
    BytesRestored nopMemory sampleHeap s ∧ s.mem 0x1000 = 0x13 := by
  have hroom : HookRoom sampleHeap (firstSystem 0x100) strayStart 0x1000 :=
    hookRoom_of_values (b := 0x3000) (n := 24) (k := 4) ⟨by decide, rfl, by decide, rfl⟩ rfl rfl
      (fun _ => rfl) (by decide) (by decide) (by decide) fun _ i info hi => (nomatch hi)
  refine ⟨_, rfl, bytes_restored sampleHeap nopMemory (fun _ => 0)
    [.inlineHook (firstSystem 0x100) 0x1000 0x4000 0, .unhook hookSystem 0x100] _
    (.cons ⟨hroom, trivial⟩ rfl (.cons ⟨fun _ _ => rfl, trivial⟩ rfl (.nil _))), rfl⟩

/-- Unhooking the second function deletes the last handle of the first one, whose trampoline
stays. -/
theorem bytes_not_restored : ∃ s, Run LibraryCall.step (fun s c => c.Room sampleHeap s) strayStart
    strayCalls s ∧ ¬ BytesRestored nopMemory sampleHeap s := by
  have hsome : (result LibraryCall.step strayStart strayCalls).isSome = true := rfl
  obtain ⟨s, hs⟩ := Option.isSome_iff_exists.mp hsome
  have hrun := Run.of_result strayCalls_room hs
  refine ⟨s, hrun, fun h => ?_⟩
  have hchanged : s.mem 0x1000 = 0x6f := eq_of_map_result hs (f := (·.mem 0x1000)) rfl
  have hdead : s.handles 0x100 = none ∧ s.handles 0x200 = none ∧ s.handles 0x300 = none :=
    ⟨eq_of_map_result hs (f := (·.handles 0x100)) rfl,
      eq_of_map_result hs (f := (·.handles 0x200)) rfl,
      eq_of_map_result hs (f := (·.handles 0x300)) rfl⟩
  obtain ⟨q, k, info, hq, -⟩ := h 0x1000 (fun hheap => absurd hheap.1 (by decide))
    (by rw [hchanged]; decide)
  rcases (LibraryCall.run_allocates hrun).1 q (by simp [hq]) with hne | ⟨c, hc, e, he, rfl⟩
  · exact hne rfl
  · simp only [strayCalls, List.mem_cons, List.not_mem_nil, or_false] at hc
    rcases hc with rfl | rfl | rfl | rfl | rfl | rfl | rfl
    · obtain rfl := Option.some.inj he
      rw [show (firstSystem 0x100).handle = 0x100 from rfl, hdead.1] at hq
      cases hq
    · obtain rfl := Option.some.inj he
      rw [show (firstSystem 0x200).handle = 0x200 from rfl, hdead.2.1] at hq
      cases hq
    · obtain rfl := Option.some.inj he
      rw [show (firstSystem 0x300).handle = 0x300 from rfl, hdead.2.2] at hq
      cases hq
    · cases he
    · obtain rfl := Option.some.inj he
      rw [show secondSystem.handle = 0x100 from rfl, hdead.1] at hq
      cases hq
    · cases he
    · cases he

end Rv64Hook
