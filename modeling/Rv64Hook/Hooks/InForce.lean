import Rv64Hook.Hooks.Bytes
import Rv64Hook.Relocator.Locality

/-! Hooks in force: the first bytes of a function with a live handle lead to its second trampoline,
the trampoline is whole, and the backup does what the function did before. -/
namespace Rv64Hook
open ByteMem Rv64 Berberis LinkedList Calls Machine

/-! ### What the hooks of a function need -/

namespace Trampoline

/-- The 32 bits that a long jump takes are the whole of a small value. -/
theorem setWidth_low {x : Word} (hx : x.toNat < 2 ^ 32) : (x.setWidth 32).setWidth 64 = x := by
  apply BitVec.eq_of_toNat_eq
  rw [BitVec.toNat_setWidth, BitVec.toNat_setWidth]
  omega

/-- A first trampoline of any type reaches its target. -/
theorem written_jumpsTo {writable : Addr → ℕ → Bool} {m : Mem} {a b : Word} {type : TrampolineType}
    {w : Written} (ha : Aligned a) (hb : Aligned b)
    (hw : writeFirstTrampoline writable m a b type = some w) :
    ∃ bs : List Byte, bs.length = getFirstTrampolineSize type ∧
      w.mem = (if w.copied then store m a bs else m) ∧ JumpsTo bs a b := by
  have hdiff : Aligned (b - a) := by
    unfold Aligned at *
    rw [BitVec.toNat_sub]
    omega
  have hwide : some (⟨(Memory.copy writable m a (wideTrampoline b)).1,
      (Memory.copy writable m a (wideTrampoline b)).2, 0⟩ : Written) = some w →
      ∃ bs : List Byte, bs.length = (wideTrampoline 0).length ∧
        w.mem = (if w.copied then store m a bs else m) ∧ JumpsTo bs a b := by
    intro h
    obtain rfl := Option.some.inj h
    rw [Memory.copy_eq]
    exact ⟨_, by simp [wideTrampoline], rfl, jumpsTo_wide hb⟩
  cases type with
  | kPC20 =>
    rw [writeFirstTrampoline] at hw
    dsimp only at hw
    split at hw
    · rename_i hshort
      obtain ⟨imm, himm, hjump⟩ := jumpsTo_short hdiff hshort.1 hshort.2
      rw [himm] at hw
      obtain rfl := Option.some.inj hw
      rw [Memory.copy_eq]
      exact ⟨_, by simp [getFirstTrampolineSize], rfl, hjump⟩
    · cases hw
  | kPC32 =>
    rw [writeFirstTrampoline] at hw
    dsimp only at hw
    split at hw
    · rename_i hnear
      have hnat : ((b - a).toNat : Int) = (b - a).toInt := by
        rw [BitVec.toInt_eq_toNat_cond] at hnear ⊢
        split_ifs at hnear ⊢ <;> omega
      have hlt : ((b - a).setWidth 32).toNat < 0x7ffff800 := by
        rw [BitVec.toNat_setWidth]
        omega
      have hoffset : ((b - a).setWidth 32).setWidth 64 = b - a := setWidth_low (by omega)
      have htarget : b = a + ((b - a).setWidth 32).setWidth 64 := by
        rw [hoffset, BitVec.add_comm, BitVec.sub_add_cancel]
      rw [write32BitJumpInstruction_eq _ _ _ _ hlt] at hw
      obtain rfl := Option.some.inj hw
      rw [Memory.copy_eq]
      exact ⟨_, by simp [longBytes, getFirstTrampolineSize], rfl,
        jumpsTo_long hlt hb (.inr ⟨rfl, htarget⟩)⟩
    · cases hw
  | kVA32 =>
    rw [writeFirstTrampoline] at hw
    dsimp only at hw
    split at hw
    · rename_i hlow
      have hlt : (b.setWidth 32).toNat < 0x7ffff800 := by
        rw [BitVec.toNat_setWidth]
        omega
      have htarget : b = (b.setWidth 32).setWidth 64 := (setWidth_low (by omega)).symm
      rw [write32BitJumpInstruction_eq _ _ _ _ hlt] at hw
      obtain rfl := Option.some.inj hw
      rw [Memory.copy_eq]
      exact ⟨_, by simp [longBytes, getFirstTrampolineSize], rfl,
        jumpsTo_long hlt hb (.inl ⟨rfl, htarget⟩)⟩
    · cases hw
  | kWide => exact hwide hw
  | kCustom => exact hwide hw

end Trampoline

theorem CodeMemory.written_jumpsTo {writable : Addr → ℕ → Bool} {c c' : CodeMemory}
    {a target : Word} {type : TrampolineType} {copied : Bool} (ha : Aligned a)
    (htarget : Aligned target)
    (hw : c.writeFirstTrampoline writable a target type = some (copied, c')) :
    ∃ bs : List Byte, bs.length = Trampoline.getFirstTrampolineSize type ∧
      c'.mem = (if copied then store c.mem a bs else c.mem) ∧
      Trampoline.JumpsTo bs a target := by
  obtain ⟨w, hw, hc⟩ := Option.bind_eq_some_iff.mp hw
  obtain ⟨bs, hlen, hmem, hjump⟩ := Trampoline.written_jumpsTo ha htarget hw
  obtain ⟨rfl, rfl⟩ := Prod.mk.inj (Option.some.inj hc)
  exact ⟨bs, hlen, hmem, hjump⟩

/-- The relocation that an info was created with, of the original code. -/
structure HookInfo.BlockOf (orig : Mem) (info : HookInfo) (r : Relocated) : Prop where
  relocation : ∃ heaps size, relocate heaps orig info.address size = .ok r
  backup : r.backup = info.relocated
  window : r.overwriteSize = info.functionBackupSize.toNat

/-- The bytes in the heaps that the hooks of a function need: the code of its second trampoline, and
its relocated block. -/
def HookInfo.Needs (orig : Mem) (code : List Byte) (info : HookInfo) (p : Addr) : Prop :=
  InRange info.trampoline code.length p ∨
    ∃ r, info.BlockOf orig r ∧ InRange info.relocated r.block.length p

/-- The memory holds what the hooks of a function need. -/
structure HookInfo.InForce (orig : Mem) (heap : Addr → Prop) (code : List Byte) (m : Mem)
    (info : HookInfo) : Prop where
  aligned : Aligned info.address
  entry : ∃ bs : List Byte, bs.length ≤ info.functionBackupSize.toNat ∧ Holds m info.address bs ∧
    Trampoline.JumpsTo bs info.address info.trampoline
  trampoline : Holds m info.trampoline code
  block : ∃ r, info.BlockOf orig r ∧ Holds m info.relocated r.block
  heap : ∀ p, info.Needs orig code p → heap p

/-- Where an info has its trampoline and its block, and its window. -/
def HookInfo.places (info : HookInfo) : Word × Word × Word × BitVec 8 :=
  (info.address, info.trampoline, info.relocated, info.functionBackupSize)

variable {orig m m' : Mem} {heap : Addr → Prop} {code : List Byte} {info info' : HookInfo}

theorem HookInfo.eq_of_places (h : info'.places = info.places) :
    info'.address = info.address ∧ info'.trampoline = info.trampoline ∧
      info'.relocated = info.relocated ∧ info'.functionBackupSize = info.functionBackupSize := by
  simpa [HookInfo.places] using h

theorem HookInfo.BlockOf.congr {r : Relocated} (hr : info.BlockOf orig r)
    (h : info'.places = info.places) : info'.BlockOf orig r := by
  obtain ⟨h1, -, h3, h4⟩ := HookInfo.eq_of_places h
  constructor
  · rw [h1]
    exact hr.relocation
  · rw [h3]
    exact hr.backup
  · rw [h4]
    exact hr.window

theorem HookInfo.Needs.congr {p : Addr} (hp : info.Needs orig code p)
    (h : info'.places = info.places) : info'.Needs orig code p := by
  obtain ⟨-, h2, h3, -⟩ := HookInfo.eq_of_places h
  unfold HookInfo.Needs
  rw [h2, h3]
  apply hp.imp_right
  rintro ⟨r, hr, hin⟩
  exact ⟨r, hr.congr h, hin⟩

/-- Hooks stay in force in a memory with the same bytes where they need them. -/
theorem HookInfo.InForce.congr (hf : info.InForce orig heap code m)
    (hplaces : info'.places = info.places)
    (hmem : ∀ p, info.Window p ∨ info.Needs orig code p → m' p = m p) :
    info'.InForce orig heap code m' := by
  obtain ⟨h1, h2, h3, h4⟩ := HookInfo.eq_of_places hplaces
  constructor
  · rw [h1]
    exact hf.aligned
  · obtain ⟨bs, hlen, hholds, hjump⟩ := hf.entry
    refine ⟨bs, by rwa [h4], ?_, ?_⟩
    · rw [h1]
      exact holds_congr hholds fun p hp => hmem p (.inl (hp.mono hlen))
    · rw [h1, h2]
      exact hjump
  · rw [h2]
    exact holds_congr hf.trampoline fun p hp => hmem p (.inr (.inl hp))
  · obtain ⟨r, hr, hholds⟩ := hf.block
    refine ⟨r, hr.congr hplaces, ?_⟩
    rw [h3]
    exact holds_congr hholds fun p hp => hmem p (.inr (.inr ⟨r, hr, hp⟩))
  · intro p hp
    exact hf.heap p (hp.congr hplaces.symm)

/-! ### Steps -/

namespace Process

/-- The info has a live handle. -/
def Live (s : Process) (i : Word) : Prop := ∃ q, s.infoOf q = some i

/-- The bytes in the heaps that the hooks of functions with a live handle need. -/
def InUse (orig : Mem) (code : List Byte) (s : Process) (p : Addr) : Prop :=
  ∃ i info, s.infos i = some info ∧ s.Live i ∧ info.Needs orig code p

/-- The infos of a set know their handles, and their hooks are in force. -/
structure ForcedOn (orig : Mem) (heap : Addr → Prop) (code : List Byte) (s : Process)
    (l : Word → Prop) : Prop where
  entry : ∀ i info, s.infos i = some info → l i → ∃ xs, Entry s info.address i info xs
  force : ∀ i info, s.infos i = some info → l i → info.InForce orig heap code s.mem

/-- Every info with a live handle knows its handles, and its hooks are in force. -/
abbrev Forced (orig : Mem) (heap : Addr → Prop) (code : List Byte) (s : Process) : Prop :=
  ForcedOn orig heap code s s.Live

variable {e : System} {s s' t : Process} {i p address : Word} {h : HookHandleExt}
  {td : TrampolineData} {args : HookArgs} {l l' : Word → Prop}

theorem forced_initial (mem : Mem) (vars : Word → Word) (heap : Addr → Prop) (code : List Byte) :
    Forced mem heap code (initial mem vars) := by
  constructor
  · intro i info hi
    cases hi
  · intro i info hi
    cases hi

/-- An entry stays one where its info and its live handles do. -/
theorem Entry.congr {a : Word} {xs : List Word} (he : Entry s a i info xs)
    (hi : s'.infos i = some info) (hlive : ∀ q, s'.infoOf q = some i ↔ s.infoOf q = some i) :
    Entry s' a i info xs := by
  constructor
  · exact hi
  · exact he.address
  · exact he.nodup
  · exact he.count
  · intro q
    rw [hlive q]
    exact he.live q

/-- A step after which the infos that count have counted before, with their places, and what their
hooks need is unchanged. -/
theorem ForcedOn.step (hf : ForcedOn orig heap code s l)
    (hinfos : ∀ k info', s'.infos k = some info' → l' k →
      l k ∧ ∃ info, s.infos k = some info ∧ info'.places = info.places)
    (hentry : ∀ k info xs, l' k → Entry s info.address k info xs →
      ∃ info' xs', Entry s' info.address k info' xs')
    (hmem : ∀ k info p, s.infos k = some info → l' k → info.Window p ∨ info.Needs orig code p →
      s'.mem p = s.mem p) : ForcedOn orig heap code s' l' := by
  constructor
  · intro k info' hk hl
    obtain ⟨hlk, info, hinfo, hplaces⟩ := hinfos k info' hk hl
    obtain ⟨xs, he⟩ := hf.entry k info hinfo hlk
    obtain ⟨info'', xs', he'⟩ := hentry k info xs hl he
    obtain rfl := Option.some.inj (hk.symm.trans he'.hasInfo)
    exact ⟨xs', he'.hasInfo, rfl, he'.nodup, he'.count, he'.live⟩
  · intro k info' hk hl
    obtain ⟨hlk, info, hinfo, hplaces⟩ := hinfos k info' hk hl
    exact (hf.force k info hinfo hlk).congr hplaces fun p hp => hmem k info p hinfo hl hp

/-- A step that changes neither handles nor infos. -/
theorem ForcedOn.congr (hf : ForcedOn orig heap code s l) (hhandles : s'.handles = s.handles)
    (hinfos : s'.infos = s.infos)
    (hmem : ∀ k info p, s.infos k = some info → l k → info.Window p ∨ info.Needs orig code p →
      s'.mem p = s.mem p) : ForcedOn orig heap code s' l := by
  have hinfoOf : s'.infoOf = s.infoOf := by
    unfold infoOf field
    rw [hhandles]
  refine hf.step (fun k info' hk hl => ⟨hl, info', hinfos ▸ hk, rfl⟩)
    (fun k info xs _ he => ?_) hmem
  refine ⟨info, xs, he.congr (hinfos ▸ he.hasInfo) fun q => ?_⟩
  rw [hinfoOf]

/-- A registration for info `i`. -/
theorem Added.forced (ha : Added e s i info td args s') (hf : ForcedOn orig heap code s l)
    (hlive : ∀ k, s.Live k → l k) (hl : l i) (hi : s.infos i = some info)
    (hfresh : s.handles e.handle = none) (hcount : info.handleCount ≠ 0xffff) :
    Forced orig heap code s' := by
  have hinfoOf : s'.infoOf = Function.update s.infoOf e.handle (some i) := ha.field fun _ => rfl
  have hlive' : ∀ k, s'.Live k → l k := by
    rintro k ⟨q, hq⟩
    rw [hinfoOf] at hq
    by_cases hqe : q = e.handle
    · rw [hqe, Function.update_self] at hq
      obtain rfl := Option.some.inj hq
      exact hl
    · rw [Function.update_of_ne hqe] at hq
      exact hlive k ⟨q, hq⟩
  have hmem : s'.mem = s.mem := congrArg CodeMemory.mem ha.code
  refine hf.step (fun k info' hk hk' => ⟨hlive' k hk', ?_⟩) (fun k info' xs _ he => ?_)
    (fun k info' p _ _ _ => by rw [hmem])
  · rw [ha.infos] at hk
    by_cases hki : k = i
    · rw [hki, Function.update_self] at hk
      obtain rfl := Option.some.inj hk
      exact ⟨info, hki ▸ hi, rfl⟩
    · rw [Function.update_of_ne hki] at hk
      exact ⟨info', hk, rfl⟩
  · obtain ⟨k', he'⟩ := ha.entry hi hfresh hcount he
    exact ⟨k', _, he'⟩

/-- The removal of a handle that is not the last one of its info. -/
theorem Removed.forced (hm : Removed s info td p h s') (hf : Forced orig heap code s)
    (hh : s.handles p = some h) (hi : s.infos h.info = some info) (hcount : info.handleCount ≠ 1) :
    Forced orig heap code s' := by
  have hinfoOf : s'.infoOf = Function.update s.infoOf p none := hm.field fun _ => rfl
  have hlive : ∀ k, s'.Live k → s.Live k := by
    rintro k ⟨q, hq⟩
    rw [hinfoOf] at hq
    by_cases hqp : q = p
    · rw [hqp, Function.update_self] at hq
      cases hq
    · rw [Function.update_of_ne hqp] at hq
      exact ⟨q, hq⟩
  have hmem : s'.mem = s.mem := congrArg CodeMemory.mem hm.code
  refine hf.step (fun k info' hk hk' => ⟨hlive k hk', ?_⟩) (fun k info' xs hk' he => ?_)
    (fun k info' q _ _ _ => by rw [hmem])
  · rw [hm.infos] at hk
    by_cases hki : k = h.info
    · rw [hki, Function.update_self] at hk
      obtain rfl := Option.some.inj hk
      exact ⟨info, hki ▸ hi, rfl⟩
    · rw [Function.update_of_ne hki] at hk
      exact ⟨info', hk, rfl⟩
  · obtain ⟨q, hq⟩ := hlive k hk'
    have hxs : xs ≠ [] := List.ne_nil_of_mem ((he.live q).mp hq)
    obtain ⟨k', he', -⟩ := hm.entry hh hi hcount he hxs
    exact ⟨k', _, he'⟩

/-- `HookInfo::Unhook`, after the deletion of all handles of its own. -/
theorem ForcedOn.unhookInfo (hf : Forced orig heap code s) (hr : Restorable orig heap s)
    (hdel : ∀ q, t.handles q = s.handles q ∨ t.handles q = none ∧ s.infoOf q = some i)
    (hall : ∀ q, s.infoOf q = some i → t.handles q = none)
    (hrest : t = { s with handles := t.handles })
    (hwritable : ∀ a n, e.writable a n = true) (hs : unhookInfo e t i true = some s') :
    Forced orig heap code s' := by
  obtain ⟨info, td, hi, -, hhandles, hinfos, -, -, -, hmem, -⟩ := unhookInfo_eq hs
  have hinfos' : s'.infos = s.infos := by rw [hinfos, hrest]
  have hi' : s.infos i = some info := by rw [← hinfos', hinfos, hi]
  have hmem' : ∀ p, ¬ info.Window p → s'.mem p = s.mem p := by
    intro p hp
    have hlen := congrArg List.length (hr.saved i info hi')
    rw [length_bytesAt] at hlen
    rw [hmem, if_pos rfl, CodeMemory.copy, if_pos (hwritable _ _),
      List.take_of_length_le hlen.le, hrest]
    apply store_of_not_inRange
    rwa [hlen]
  have hinfoOf : ∀ k q, k ≠ i → (s'.infoOf q = some k ↔ s.infoOf q = some k) := by
    intro k q hki
    have hq := hdel q
    rw [← hhandles] at hq
    rcases hq with hq | ⟨hq, hown⟩
    · rw [infoOf, infoOf, field, field, hq]
    · rw [hown, infoOf, field, hq]
      refine ⟨fun heq => (by cases heq), fun heq => absurd (Option.some.inj heq).symm hki⟩
  have hlive : ∀ k, s'.Live k → k ≠ i ∧ s.Live k := by
    rintro k ⟨q, hq⟩
    have hki : k ≠ i := by
      rintro rfl
      obtain ⟨h, hh, -⟩ := exists_handle_of_field hq
      rw [hhandles] at hh
      rcases hdel q with hsame | ⟨hnone, -⟩
      · have hown : s.infoOf q = some k := by
          rw [← hq, infoOf, infoOf, field, field, hhandles, hsame]
        rw [hall q hown] at hh
        cases hh
      · rw [hnone] at hh
        cases hh
    exact ⟨hki, q, (hinfoOf k q hki).mp hq⟩
  refine hf.step (fun k info' hk hk' => ⟨(hlive k hk').2, info', hinfos' ▸ hk, rfl⟩)
    (fun k info' xs hk' he => ⟨info', xs, he.congr (hinfos' ▸ he.hasInfo) fun q =>
      hinfoOf k q (hlive k hk').1⟩) (fun k info' p hk hk' hp => ?_)
  obtain ⟨hki, hk'⟩ := hlive k hk'
  apply hmem'
  intro hw
  rcases hp with hp | hp
  · exact hki (hr.disjoint k i info' info p hk hi' hp hw)
  · exact hr.noHeap i info p hi' hw ((hf.force k info' hk hk').heap p hp)

end Process

/-! ### New functions -/

open Process Trampoline

variable {e : System} {s s' : Process} {i p address : Word} {args : HookArgs} {r : Relocated}
  {c c' : CodeMemory}

/-- The room of a call that hooks a function, with blocks that no hook in force needs. -/
structure ForceRoom (orig : Mem) (heap : Addr → Prop) (code : List Byte) (e : System) (s : Process)
    (address : Word) : Prop extends HookRoom heap e s address where
  function : Aligned address
  aligned : Aligned e.trampoline
  secondTrampoline : e.secondTrampoline = code
  trampolineFree : ∀ p, s.hooks address = none → InRange e.trampoline code.length p →
    ¬ s.InUse orig code p
  blockFree : ∀ r c p, s.hooks address = none → hookRelocation e s address = .ok (r, c) →
    InRange r.backup r.block.length p →
      ¬ s.InUse orig code p ∧ ¬ InRange e.trampoline code.length p

/-- The allocations of a call that hooks keep what the hooks in force need. -/
theorem ForceRoom.mem_eq_of_live (hroom : ForceRoom orig heap code e s address)
    (hr : Restorable orig heap s) (hnew : s.hooks address = none) (hi : s.infos i = some info)
    (hl : s.Live i) (hp : info.Window p ∨ info.Needs orig code p) :
    (allocSecondTrampoline e s).mem p = s.mem p ∧
      ∀ r c, hookRelocation e s address = .ok (r, c) → c.mem p = s.mem p := by
  rcases hp with hp | hp
  · exact hroom.mem_eq hnew (hr.noHeap i info p hi hp)
  have huse : s.InUse orig code p := ⟨i, info, hi, hl, hp⟩
  have halloc : (allocSecondTrampoline e s).mem p = s.mem p := by
    rw [allocSecondTrampoline_mem]
    apply store_of_not_inRange
    intro hin
    rw [hroom.secondTrampoline] at hin
    exact hroom.trampolineFree p hnew hin huse
  refine ⟨halloc, fun r c hrel => ?_⟩
  obtain ⟨-, rfl⟩ := relocate_eq hrel
  refine Eq.trans ?_ halloc
  apply store_of_not_inRange
  intro hin
  exact (hroom.blockFree r _ p hnew hrel hin).1 huse

/-- The block of a new function is the relocation of its original code. -/
theorem ForceRoom.relocation (hroom : ForceRoom orig heap code e s address)
    (hr : Restorable orig heap s) (hnew : s.hooks address = none)
    (hrel : hookRelocation e s address = .ok (r, c)) :
    Rv64Hook.relocate e.heaps orig address (getFirstTrampolineSize (firstType e address)) =
      .ok r := by
  obtain ⟨hok, -⟩ := relocate_eq hrel
  apply relocate_window hok
  intro p hp
  obtain ⟨hheap, hout⟩ := hroom.window r c p hnew hrel hp
  rw [(hroom.mem_eq hnew hheap).1]
  exact (hr.outside p hheap hout).symm

/-- The code of the second trampoline and the block are installed. -/
theorem ForceRoom.installed (hroom : ForceRoom orig heap code e s address)
    (hcode : code.length ≤ 2 ^ 64) (hnew : s.hooks address = none)
    (hrel : hookRelocation e s address = .ok (r, c)) :
    Holds c.mem e.trampoline code ∧ Holds c.mem r.backup r.block := by
  have hblock := hroom.blockFree r c
  obtain ⟨hok, rfl⟩ := relocate_eq hrel
  constructor
  · have halloc : Holds (allocSecondTrampoline e s).mem e.trampoline code := by
      rw [allocSecondTrampoline_mem, hroom.secondTrampoline]
      exact holds_store _ _ hcode
    apply holds_congr halloc
    intro p hp
    apply store_of_not_inRange
    intro hin
    exact (hblock p hnew hrel hin).2 hp
  · obtain ⟨_, _, b, -, -, -, halloc, -, hb⟩ := relocate_cases hok
    have hlt := length_lt_of_alloc halloc
    have hhalf : kHeapSize / 2 = 524288 := rfl
    apply holds_store
    rw [hb]
    omega

/-- A new function without handles. -/
theorem Process.ForcedOn.created (hf : Forced orig heap code s) (hr : Restorable orig heap s)
    (hroom : ForceRoom orig heap code e s address) (hcode : code.length ≤ 2 ^ 64)
    (hnew : s.hooks address = none) (hrel : hookRelocation e s address = .ok (r, c))
    (hwrite : (createdProcess e s address r c).writeFirstTrampoline e.writable address
      e.trampoline (firstType e address) = some (true, c')) :
    ForcedOn orig heap code { createdProcess e s address r c with toCodeMemory := c' }
      (fun k => s.Live k ∨ k = e.info) := by
  obtain ⟨hle, hsize⟩ := hookRelocation_size hrel
  obtain ⟨bs, hlen, hmem, hjump⟩ :=
    CodeMemory.written_jumpsTo hroom.function hroom.aligned hwrite
  obtain ⟨-, hinfo, -, -⟩ := hroom.objects
  have hmem : c'.mem = store c.mem address bs := hmem
  have hc' : ∀ p, ¬ InRange address r.overwriteSize p → c'.mem p = c.mem p := by
    intro p hp
    rw [hmem]
    exact store_of_not_inRange fun hin => hp (hin.mono (hlen.trans_le hle))
  have hheap : ∀ p, heap p → c'.mem p = c.mem p := by
    intro p hp
    exact hc' p fun hin => (hroom.window r c p hnew hrel hin).1 hp
  generalize ht : ({ createdProcess e s address r c with toCodeMemory := c' } : Process) = t
  have htmem : t.mem = c'.mem := by rw [← ht]
  have hinfoOf : t.infoOf = s.infoOf := by
    rw [← ht]
    rfl
  have htinfos : t.infos = Function.update s.infos e.info (some
      { address := address
        rootHandle := 0
        trampoline := e.trampoline
        customFree := if e.isUserAlloc then e.customFree else 0
        customData := if e.isUserAlloc then e.customData else 0
        relocated := r.backup
        handleCount := 0
        functionBackupSize := BitVec.ofNat 8 r.overwriteSize
        functionBackup := bytesAt c.mem address (BitVec.ofNat 8 r.overwriteSize).toNat }) := by
    rw [← ht]
    rfl
  have hold : ∀ k info, t.infos k = some info → k ≠ e.info → s.infos k = some info := by
    intro k info hk hne
    rwa [htinfos, Function.update_of_ne hne] at hk
  obtain ⟨htrampoline, hblock⟩ := hroom.installed hcode hnew hrel
  constructor
  · intro k info hk hl
    by_cases hki : k = e.info
    · subst hki
      have hk' := hk
      rw [htinfos, Function.update_self] at hk'
      refine ⟨[], hk, rfl, List.nodup_nil, ?_, fun q => ?_⟩
      · rw [← Option.some.inj hk']
        rfl
      · rw [hinfoOf]
        refine ⟨fun hq => ?_, fun hq => (by cases hq)⟩
        obtain ⟨h, hh, hi⟩ := exists_handle_of_field hq
        obtain ⟨info', hi', -⟩ := hr.known q h hh
        rw [show h.info = e.info from hi, hinfo] at hi'
        cases hi'
    · obtain ⟨xs, he⟩ := hf.entry k info (hold k info hk hki) (hl.resolve_right hki)
      refine ⟨xs, he.congr hk fun q => ?_⟩
      rw [hinfoOf]
  · intro k info hk hl
    rw [htmem]
    by_cases hki : k = e.info
    · rw [htinfos, hki, Function.update_self] at hk
      obtain rfl := Option.some.inj hk
      have hof := hroom.relocation hr hnew hrel
      constructor
      · exact hroom.function
      · refine ⟨bs, ?_, ?_, hjump⟩
        · rw [hsize, hlen]
          exact hle
        · rw [hmem]
          apply holds_store
          have hmax := getFirstTrampolineSize_le (firstType e address)
          omega
      · refine holds_congr htrampoline fun p hp => hheap p (hroom.trampoline p ?_)
        rwa [hroom.secondTrampoline]
      · exact ⟨r, ⟨⟨_, _, hof⟩, rfl, hsize.symm⟩,
          holds_congr hblock fun p hp => hheap p (hroom.block r c p hnew hrel hp)⟩
      · rintro p (hp | ⟨r', ⟨⟨heaps, size, hof'⟩, hbackup, hwindow⟩, hp⟩)
        · apply hroom.trampoline
          rwa [hroom.secondTrampoline]
        · have hsame : r'.block = r.block := relocate_block_unique hof' hof (hwindow.trans hsize)
          apply hroom.block r c p hnew hrel
          rwa [hsame] at hp
    · have hks := hold k info hk hki
      have hlk := hl.resolve_right hki
      refine (hf.force k info hks hlk).congr rfl fun p hp => ?_
      have hsame := (hroom.mem_eq_of_live hr hnew hks hlk hp).2 r c hrel
      rw [← hsame]
      apply hc'
      intro hin
      obtain ⟨hnoHeap, hout⟩ := hroom.window r c p hnew hrel hin
      rcases hp with hp | hp
      · exact hout k info hks hp
      · exact hnoHeap ((hf.force k info hks hlk).heap p hp)

/-! ### Runs -/

theorem doHook_forced {res : HookResult} (hf : Forced orig heap code s)
    (hr : Restorable orig heap s) (hroom : ForceRoom orig heap code e s address)
    (hcode : code.length ≤ 2 ^ 64) (hlive : ∀ i, s.hooks address = some i → s.Live i)
    (hs : doHook e s address args = some (res, s')) : Forced orig heap code s' := by
  obtain ⟨-, -, -, hfresh⟩ := hroom.objects
  cases hi : s.hooks address with
  | some i =>
    obtain ⟨info, hinfo, ⟨-, -, rfl⟩ | ⟨hcount, -, hs'⟩⟩ := doHook_known hs hi
    · exact hf
    obtain ⟨info', td, hinfo', -, ha⟩ := newHookHandle_added hs'
    obtain rfl := Option.some.inj (hinfo.symm.trans hinfo')
    exact ha.forced hf (fun _ hk => hk) (hlive i hi) hinfo hfresh hcount
  | none =>
    rcases doHook_new hs hi with ⟨-, rfl⟩ | ⟨-, -, ⟨-, rfl⟩ | ⟨r, c, hrel, hcases⟩⟩
    · exact hf
    · exact hf.congr rfl rfl fun k info p hk hl hp => (hroom.mem_eq_of_live hr hi hk hl hp).1
    rcases hcases with ⟨-, rfl⟩ | ⟨-, copied, c', hwrite, hcases⟩
    · exact hf.congr rfl rfl fun k info p hk hl hp =>
        (hroom.mem_eq_of_live hr hi hk hl hp).2 r c hrel
    obtain ⟨bs, -, hcopied, -⟩ := writeFirstTrampoline_eq hwrite
    rw [hroom.writable] at hcopied
    subst hcopied
    have hcreated := hf.created hr hroom hcode hi hrel hwrite
    rw [if_pos rfl] at hcases
    obtain ⟨info, td, hinfo, -, ha⟩ := newHookHandle_added hcases.2
    refine ha.forced hcreated (fun _ hk => .inl hk) (.inr rfl) hinfo hfresh ?_
    obtain rfl := Option.some.inj (hinfo.symm.trans (Function.update_self ..))
    change (0 : BitVec 16) ≠ 0xffff
    decide

/-- From the root of the function of the handle, `next_` leads to the handles of that function. -/
def Process.WalksExactly (s : Process) (p : Word) : Prop :=
  ∀ h info xs, s.handles p = some h → s.infos h.info = some info →
    Seg s.nextOf info.rootHandle xs 0 → ∀ q, q ∈ xs ↔ s.infoOf q = some h.info

theorem unhookAllExt_forced {res : Bool} (hf : Forced orig heap code s)
    (hr : Restorable orig heap s) (hwritable : ∀ a n, e.writable a n = true)
    (hwalk : s.WalksExactly p) (hs : unhookAllExt e s p = some (res, s')) :
    Forced orig heap code s' := by
  obtain ⟨h, hh, ⟨-, rfl⟩ | ⟨-, info, xs, t, hi, hseg, hdel, hrest, hu⟩⟩ := unhookAllExt_cases hs
  · exact hf
  have hown := hwalk h info xs hh hi hseg
  refine hf.unhookInfo hr (fun q => ?_) (fun q hq => ?_) hrest hwritable hu
  · rw [hdel]
    by_cases hq : q ∈ xs
    · rw [if_pos hq]
      exact .inr ⟨rfl, (hown q).mp hq⟩
    · rw [if_neg hq]
      exact .inl rfl
  · rw [hdel, if_pos ((hown q).mpr hq)]

/-- The only handle of an info. -/
theorem Process.Entry.eq_of_count {a : Word} {xs : List Word} (he : Entry s a i info xs)
    (hcount : info.handleCount = 1) {q : Word} (hp : s.infoOf p = some i)
    (hq : s.infoOf q = some i) : q = p := by
  have hlen := he.count
  rw [hcount] at hlen
  obtain ⟨x, rfl⟩ := List.length_eq_one_iff.mp hlen.symm
  have hpx := (he.live p).mp hp
  have hqx := (he.live q).mp hq
  rw [List.mem_singleton] at hpx hqx
  rw [hpx, hqx]

namespace LibraryCall

/-- What the system gives to a call. -/
def ForceRoom (orig : Mem) (heap : Addr → Prop) (code : List Byte) (s : Process) :
    LibraryCall → Prop
  | inlineHook e address _ _ | inlineInstrument e address _ _ _ _ =>
    Rv64Hook.ForceRoom orig heap code e s address
  | c => c.Room heap s

/-- A call does not hook a function again whose handles have been removed, and one that removes all
handles of a function finds these handles on its way. -/
def Orderly (s : Process) : LibraryCall → Prop
  | inlineHook _ address _ _ | inlineInstrument _ address _ _ _ _ =>
    ∀ i, s.hooks address = some i → s.Live i
  | unhookAll _ p => s.WalksExactly p
  | inlineUnhook _ address => ∀ i info, s.hooks address = some i → s.infos i = some info →
      s.WalksExactly info.rootHandle
  | _ => True

theorem ForceRoom.room {c : LibraryCall} (hroom : c.ForceRoom orig heap code s) :
    c.Room heap s := by
  cases c with
  | inlineHook e address hook backup => exact hroom.toHookRoom
  | inlineInstrument e address preHandler postHandler data backup => exact hroom.toHookRoom
  | _ => exact hroom

theorem Orderly.removesOwn {c : LibraryCall} (ho : c.Orderly s) : c.RemovesOwn s := by
  cases c with
  | unhookAll e p =>
    intro h info xs hh hi hseg q hq
    exact (ho h info xs hh hi hseg q).mp hq
  | inlineUnhook e address =>
    intro i info hi hinfo h k xs hh hk hseg q hq
    exact (ho i info hi hinfo h k xs hh hk hseg q).mp hq
  | _ => trivial

theorem step_forced {c : LibraryCall} (hf : Forced orig heap code s)
    (hr : Restorable orig heap s) (hcode : code.length ≤ 2 ^ 64)
    (hroom : c.ForceRoom orig heap code s) (ho : c.Orderly s) (hs : c.step s = some s') :
    Forced orig heap code s' := by
  cases c with
  | inlineHook e address hook backup =>
    rcases step_inlineHook hs with ⟨-, rfl⟩ | ⟨-, -, res, ht⟩
    · exact hf
    · exact doHook_forced hf hr hroom hcode ho ht
  | inlineInstrument e address preHandler postHandler data backup =>
    rcases step_inlineInstrument hs with ⟨-, rfl⟩ | ⟨-, -, -, -, res, ht⟩
    · exact hf
    · exact doHook_forced hf hr hroom hcode ho ht
  | unhook e p =>
    obtain ⟨res, ht⟩ := step_unhook hs
    obtain ⟨h, hh, ⟨-, rfl⟩ | ⟨-, info, hi, hcases⟩⟩ := unhookExt_cases ht
    · exact hf
    rcases hcases with ⟨hcount, hu⟩ | ⟨hcount, td, -, hm⟩
    · have hown : s.infoOf p = some h.info := by rw [infoOf, field_eq hh]
      obtain ⟨xs, he⟩ := hf.entry h.info info hi ⟨p, hown⟩
      refine hf.unhookInfo hr (fun q => ?_) (fun q hq => ?_) rfl hroom hu
      · by_cases hqp : q = p
        · rw [hqp]
          exact .inr ⟨Function.update_self .., hown⟩
        · exact .inl (Function.update_of_ne hqp ..)
      · rw [he.eq_of_count hcount hown hq]
        exact Function.update_self ..
    · exact hm.forced hf hh hi hcount
  | unhookAll e p =>
    obtain ⟨res, ht⟩ := step_unhookAll hs
    exact unhookAllExt_forced hf hr hroom ho ht
  | setEnabled p enabled =>
    obtain ⟨h, hh, rfl⟩ := step_setEnabled hs
    have hinfo : (s.setHandle p { h with enabled := enabled }).infoOf = s.infoOf :=
      field_setHandle_same hh rfl
    refine hf.step (fun k info' hk hl => ⟨?_, info', hk, rfl⟩) (fun k info xs _ he => ?_)
      (fun _ _ _ _ _ _ => rfl)
    · unfold Live at hl ⊢
      rwa [hinfo] at hl
    · refine ⟨info, xs, he.congr he.hasInfo fun q => ?_⟩
      rw [hinfo]
  | setEnabledAll p enabled =>
    rcases step_setEnabledAll hs with rfl | ⟨h, info, td, -, -, -, rfl⟩
    · exact hf
    · exact hf.congr rfl rfl fun _ _ _ _ _ _ => rfl
  | inlineUnhook e address =>
    rcases step_inlineUnhook hs with ⟨-, rfl⟩ | ⟨-, ⟨i, info, res, hi, hinfo, -, ht⟩ |
      ⟨-, record, hrecord, -⟩⟩
    · exact hf
    · exact unhookAllExt_forced hf hr hroom (ho i info hi hinfo) ht
    · rw [hr.records] at hrecord
      cases hrecord
  | writeTrampoline e address hook backup => exact hroom.elim

end LibraryCall

/-- The first bytes of the function lead to its second trampoline, whose code is whole, and the
relocated block that its hooks get as backup runs to the same exit as the code that the function
had before, with the same state but for `t3` and a link register. -/
structure HookInfo.Serves (orig : Mem) (code : List Byte) (m : Mem) (info : HookInfo) : Prop where
  entry : ∃ bs, Holds m info.address bs ∧ JumpsTo bs info.address info.trampoline
  trampoline : Holds m info.trampoline code
  backup : ∃ r : Relocated, r.backup = info.relocated ∧
    r.overwriteSize = info.functionBackupSize.toNat ∧ Holds m info.relocated r.block ∧
    ∀ {Ω : Type} (sem : BitVec 32 → Core Ω → Core Ω) (u : State Ω) (d : Core Ω),
      Relocatable sem orig info.address r.overwriteSize → u.pc = info.address →
      Core.AgreeOff t3 u.core d → Holds u.core.mem r.backup r.block →
      Undisturbed sem orig info.address r.overwriteSize r.backup r.block.length u →
      ∃ t link t', Leaves sem orig info.address r.overwriteSize u t link ∧
        RunsWithin (next sem m) (InBlock r) ⟨info.relocated, d⟩ t' ∧
        Follows orig info.address r link t t'

theorem HookInfo.InForce.serves (hf : info.InForce orig heap code m) :
    info.Serves orig code m := by
  obtain ⟨bs, -, hholds, hjump⟩ := hf.entry
  obtain ⟨r, ⟨⟨heaps, size, hrel⟩, hbackup, hwindow⟩, hblock⟩ := hf.block
  refine ⟨⟨bs, hholds, hjump⟩, hf.trampoline, r, hbackup, hwindow, hblock, ?_⟩
  intro Ω sem u d hrelocatable hpc hagree hmem hun
  obtain ⟨xs, position, pool, hinst⟩ := relocate_installed hrel
  have hstart : u.pc = info.address + BitVec.ofNat 64 (mark orig info.address 0).1 := by
    rw [hpc]
    exact (BitVec.add_zero _).symm
  have hfollows := follows_from hinst hf.aligned hrelocatable (hbackup ▸ hblock) r.overwriteSize
    (i := 0) (Nat.zero_add _) hstart hagree hmem hun
  have hbase : r.backup + BitVec.ofNat 64 (mark orig info.address 0).2 = info.relocated := by
    rw [hbackup]
    exact BitVec.add_zero _
  rwa [hbase] at hfollows

/-- A trampoline that consists of one instruction. -/
def nopCode : List Byte := toBytes 4 0x13#32

def nopSystem : System := { hookSystem with secondTrampoline := nopCode }

def nopStart : Process := initial nopMemory fun _ => 0

theorem nopStart_relocation (hrel : hookRelocation nopSystem nopStart 0x1000 = .ok (r, c)) :
    r.backup = 0x3000 ∧ r.block.length = 24 ∧ r.overwriteSize = 4 := by
  have hvalues : (hookRelocation nopSystem nopStart 0x1000).map
      (fun x => (x.1.backup, x.1.block.length, x.1.overwriteSize)) = .ok (0x3000, 24, 4) := rfl
  rw [hrel] at hvalues
  obtain ⟨h1, h23⟩ := Prod.mk.inj (Except.ok.inj hvalues)
  exact ⟨h1, Prod.mk.inj h23⟩

theorem nopStart_inUse (p : Addr) : ¬ nopStart.InUse nopMemory nopCode p := by
  rintro ⟨i, info, hi, -⟩
  cases hi

theorem nopStart_window {p : Addr} (hp : InRange 0x1000 4 p) : ¬ sampleHeap p := by
  intro hheap
  unfold sampleHeap at hheap
  unfold InRange at hp
  rw [BitVec.toNat_sub] at hp
  have hlt := p.isLt
  have hbase : (0x1000 : Word).toNat = 4096 := rfl
  omega

theorem nopStart_blocks {p : Addr} (hp : InRange 0x3000 24 p) : ¬ InRange 0x2000 4 p := by
  intro hin
  unfold InRange at hp hin
  rw [BitVec.toNat_sub] at hp hin
  have hlt := p.isLt
  have hblock : (0x3000 : Word).toNat = 12288 := rfl
  have htrampoline : (0x2000 : Word).toNat = 8192 := rfl
  omega

theorem nopStart_room : HookRoom sampleHeap nopSystem nopStart 0x1000 := by
  constructor
  · exact ⟨by decide, rfl, by decide, rfl⟩
  · intro a n
    rfl
  · intro p hp
    exact sampleHeap_block (b := 0x2000) (n := 4) (by decide) (by decide) hp
  · intro r c p _ hrel hp
    obtain ⟨h1, h2, -⟩ := nopStart_relocation hrel
    rw [h1, h2] at hp
    exact sampleHeap_block (by decide) (by decide) hp
  · intro r c p _ hrel hp
    obtain ⟨-, -, h3⟩ := nopStart_relocation hrel
    rw [h3] at hp
    refine ⟨nopStart_window hp, fun i info hi => ?_⟩
    cases hi

theorem nopStart_forceRoom : ForceRoom nopMemory sampleHeap nopCode nopSystem nopStart 0x1000 := by
  constructor
  · exact nopStart_room
  · decide
  · decide
  · rfl
  · intro p _ _
    exact nopStart_inUse p
  · intro r c p _ hrel hp
    obtain ⟨h1, h2, -⟩ := nopStart_relocation hrel
    rw [h1, h2] at hp
    exact ⟨nopStart_inUse p, nopStart_blocks hp⟩

end Rv64Hook
