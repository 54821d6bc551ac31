import Rv64Hook.Hooks.Api
import Rv64Hook.Hooks.Chain

/-! The registry of hooked functions: as long as no call reaches `HookInfo::Unhook`, it has an entry
for exactly the functions with a live handle. -/
namespace Rv64Hook
open ByteMem Rv64 LinkedList Calls

namespace Process

def addressOf (s : Process) : Word → Option Word := s.field (·.address)

/-- The info `i` is that of the function at `a`, and `xs` are its live handles. -/
structure Entry (s : Process) (a i : Word) (info : HookInfo) (xs : List Word) : Prop where
  hasInfo : s.infos i = some info
  address : info.address = a
  nodup : xs.Nodup
  count : info.handleCount.toNat = xs.length
  live : ∀ p, s.infoOf p = some i ↔ p ∈ xs

/-- Every entry of the registry has live handles, except that of `j`, and every live handle has
its entry. -/
structure RegistryExcept (s : Process) (j : Word) : Prop where
  entry : ∀ a i, s.hooks a = some i → ∃ info xs, Entry s a i info xs ∧ (i ≠ j → xs ≠ [])
  handle : ∀ p a i, s.addressOf p = some a → s.infoOf p = some i → s.hooks a = some i

structure Registry (s : Process) : Prop where
  entry : ∀ a i, s.hooks a = some i → ∃ info xs, Entry s a i info xs ∧ xs ≠ []
  handle : ∀ p a i, s.addressOf p = some a → s.infoOf p = some i → s.hooks a = some i

/-- An address has an entry exactly when it has a live handle, and the entry is the info of its
handles. -/
structure RegistryExact (s : Process) : Prop where
  entry_iff : ∀ a, (∃ i, s.hooks a = some i) ↔ ∃ p h, s.handles p = some h ∧ h.address = a
  info : ∀ p h, s.handles p = some h → s.hooks h.address = some h.info

variable {e : System} {s s' : Process} {a address i j p : Word} {args : HookArgs}
  {info : HookInfo} {td : TrampolineData} {h : HookHandleExt} {xs : List Word}

theorem Registry.except (hr : Registry s) (j : Word) : RegistryExcept s j :=
  ⟨fun a i hi => by
    obtain ⟨info, xs, he, hxs⟩ := hr.entry a i hi
    exact ⟨info, xs, he, fun _ => hxs⟩, hr.handle⟩

/-- The address of a handle is that of its info. -/
theorem RegistryExcept.address_eq (hr : RegistryExcept s j) (hh : s.handles p = some h)
    (hi : s.infos h.info = some info) : h.address = info.address := by
  have hhook := hr.handle p h.address h.info (field_eq hh) (field_eq hh)
  obtain ⟨info', xs, he, -⟩ := hr.entry _ _ hhook
  obtain rfl := Option.some.inj (hi.symm.trans he.hasInfo)
  exact he.address.symm

theorem Registry.exact (hr : Registry s) : RegistryExact s where
  entry_iff := by
    intro a
    constructor
    · rintro ⟨i, hi⟩
      obtain ⟨info, xs, he, hxs⟩ := hr.entry a i hi
      obtain ⟨p, ps, rfl⟩ := List.exists_cons_of_ne_nil hxs
      obtain ⟨h, hh, rfl⟩ := exists_handle_of_field ((he.live p).mpr List.mem_cons_self)
      refine ⟨p, h, hh, ?_⟩
      rw [(hr.except 0).address_eq hh he.hasInfo, he.address]
    · rintro ⟨p, h, hh, rfl⟩
      exact ⟨h.info, hr.handle p _ _ (field_eq hh) (field_eq hh)⟩
  info := fun p h hh => hr.handle p _ _ (field_eq hh) (field_eq hh)

/-- The registry depends on handles, infos and hooks only. -/
theorem Registry.congr (hr : Registry s) (hhandles : s'.handles = s.handles)
    (hinfos : s'.infos = s.infos) (hhooks : s'.hooks = s.hooks) : Registry s' := by
  have hfield : ∀ {α : Type} (f : HookHandleExt → α), s'.field f = s.field f := by
    intro α f
    funext q
    rw [field, field, hhandles]
  refine ⟨fun a i hi => ?_, fun p a i hpa hpi => ?_⟩
  · obtain ⟨info, xs, he, hxs⟩ := hr.entry a i (hhooks ▸ hi)
    refine ⟨info, xs, ⟨hinfos ▸ he.hasInfo, he.address, he.nodup, he.count, fun p => ?_⟩, hxs⟩
    rw [infoOf, hfield]
    exact he.live p
  · rw [addressOf, hfield] at hpa
    rw [infoOf, hfield] at hpi
    rw [hhooks]
    exact hr.handle p a i hpa hpi

theorem registry_initial (mem : Mem) (vars : Word → Word) : Registry (initial mem vars) :=
  ⟨fun _ _ h => (nomatch h), fun _ _ _ h => (nomatch h)⟩

/-- A registration for info `i` adds a handle to its entry. -/
theorem Added.entry (ha : Added e s i info td args s') (hi : s.infos i = some info)
    (hfresh : s.handles e.handle = none) (hcount : info.handleCount ≠ 0xffff) {k : HookInfo}
    (he : Entry s a j k xs) :
    ∃ k', Entry s' a j k' (if j = i then xs ++ [e.handle] else xs) := by
  have hinfoOf : s'.infoOf = Function.update s.infoOf e.handle (some i) := ha.field fun _ => rfl
  have hnew : e.handle ∉ xs := by
    intro hmem
    obtain ⟨h, hh, -⟩ := exists_handle_of_field ((he.live _).mpr hmem)
    rw [hfresh] at hh
    cases hh
  by_cases hji : j = i
  · subst hji
    obtain rfl := Option.some.inj (hi.symm.trans he.hasInfo)
    rw [if_pos rfl]
    refine ⟨_, by rw [ha.infos, Function.update_self], ?_, ?_, ?_, fun q => ?_⟩
    · exact he.address
    · exact List.nodup_append.mpr ⟨he.nodup, List.nodup_singleton _, fun q hq r hr => by
        rintro rfl
        exact hnew (List.mem_singleton.mp hr ▸ hq)⟩
    · rw [List.length_append, List.length_singleton, ← he.count]
      exact toNat_add_one hcount
    · rw [hinfoOf, List.mem_append, List.mem_singleton]
      by_cases hq : q = e.handle
      · rw [hq, Function.update_self]
        exact ⟨fun _ => .inr rfl, fun _ => rfl⟩
      · rw [Function.update_of_ne hq]
        exact (he.live q).trans ⟨.inl, fun h => h.resolve_right hq⟩
  · rw [if_neg hji]
    refine ⟨k, ?_, he.address, he.nodup, he.count, fun q => ?_⟩
    · rw [ha.infos, Function.update_of_ne hji, he.hasInfo]
    · rw [hinfoOf]
      by_cases hq : q = e.handle
      · rw [hq, Function.update_self]
        exact ⟨fun heq => absurd (Option.some.inj heq).symm hji, fun hmem => absurd hmem hnew⟩
      · rw [Function.update_of_ne hq]
        exact he.live q

/-- The removal of a handle that is not the last one leaves an entry with live handles. -/
theorem Removed.entry (hm : Removed s info td p h s') (hh : s.handles p = some h)
    (hi : s.infos h.info = some info) (hcount : info.handleCount ≠ 1) {k : HookInfo}
    (he : Entry s a j k xs) (hxs : xs ≠ []) :
    ∃ k', Entry s' a j k' (if j = h.info then xs.erase p else xs) ∧
      (if j = h.info then xs.erase p else xs) ≠ [] := by
  have hinfoOf : s'.infoOf = Function.update s.infoOf p none := hm.field fun _ => rfl
  by_cases hji : j = h.info
  · subst hji
    obtain rfl := Option.some.inj (hi.symm.trans he.hasInfo)
    have hmem : p ∈ xs := (he.live p).mp (by rw [infoOf, field_eq hh])
    have hlen := List.length_erase_of_mem hmem
    have hpos := List.length_pos_of_mem hmem
    have hmore : xs.length ≠ 1 := by
      rw [← he.count]
      exact fun heq => hcount (BitVec.eq_of_toNat_eq heq)
    rw [if_pos rfl]
    refine ⟨_, ⟨by rw [hm.infos, Function.update_self], ?_, he.nodup.erase p, ?_, fun q => ?_⟩, ?_⟩
    · exact he.address
    · have hlt := info.handleCount.isLt
      have hcount' := he.count
      rw [BitVec.toNat_sub, show (1 : BitVec 16).toNat = 1 from rfl]
      omega
    · rw [hinfoOf, he.nodup.mem_erase_iff]
      by_cases hq : q = p
      · rw [hq, Function.update_self]
        exact ⟨fun heq => (by cases heq), fun hne => absurd rfl hne.1⟩
      · rw [Function.update_of_ne hq, he.live]
        exact ⟨fun hmem => ⟨hq, hmem⟩, fun hmem => hmem.2⟩
    · intro hnil
      rw [hnil, List.length_nil] at hlen
      omega
  · rw [if_neg hji]
    refine ⟨k, ⟨?_, he.address, he.nodup, he.count, fun q => ?_⟩, hxs⟩
    · rw [hm.infos, Function.update_of_ne hji, he.hasInfo]
    · rw [hinfoOf]
      by_cases hq : q = p
      · rw [hq, Function.update_self]
        refine ⟨fun heq => (by cases heq), fun hmem => ?_⟩
        have hp := (he.live p).mpr (hq ▸ hmem)
        rw [infoOf, field_eq hh] at hp
        exact absurd (Option.some.inj hp).symm hji
      · rw [Function.update_of_ne hq]
        exact he.live q

/-- A registration for info `i` completes its entry. -/
theorem Added.registry (ha : Added e s i info td args s') (hr : RegistryExcept s i)
    (hi : s.infos i = some info) (hhook : s.hooks info.address = some i)
    (hfresh : s.handles e.handle = none) (hcount : info.handleCount ≠ 0xffff) : Registry s' := by
  have hinfoOf : s'.infoOf = Function.update s.infoOf e.handle (some i) := ha.field fun _ => rfl
  have haddr : s'.addressOf = Function.update s.addressOf e.handle (some info.address) :=
    ha.field fun _ => rfl
  refine ⟨fun a j hj => ?_, fun p a j hpa hpi => ?_⟩
  · rw [ha.hooks] at hj
    obtain ⟨k, xs, he, hxs⟩ := hr.entry a j hj
    obtain ⟨k', he'⟩ := ha.entry hi hfresh hcount he
    refine ⟨k', _, he', ?_⟩
    by_cases hji : j = i
    · rw [if_pos hji]
      simp
    · rw [if_neg hji]
      exact hxs hji
  · rw [ha.hooks]
    rw [haddr] at hpa
    rw [hinfoOf] at hpi
    by_cases hp : p = e.handle
    · rw [hp, Function.update_self] at hpa hpi
      rw [← Option.some.inj hpa, ← Option.some.inj hpi, hhook]
    · rw [Function.update_of_ne hp] at hpa hpi
      exact hr.handle p a j hpa hpi

theorem Removed.registry (hm : Removed s info td p h s') (hr : Registry s)
    (hh : s.handles p = some h) (hi : s.infos h.info = some info) (hcount : info.handleCount ≠ 1) :
    Registry s' := by
  have hinfoOf : s'.infoOf = Function.update s.infoOf p none := hm.field fun _ => rfl
  have haddr : s'.addressOf = Function.update s.addressOf p none := hm.field fun _ => rfl
  refine ⟨fun a j hj => ?_, fun q a j hqa hqi => ?_⟩
  · rw [hm.hooks] at hj
    obtain ⟨k, xs, he, hxs⟩ := hr.entry a j hj
    obtain ⟨k', he', hxs'⟩ := hm.entry hh hi hcount he hxs
    exact ⟨k', _, he', hxs'⟩
  · rw [hm.hooks]
    rw [haddr] at hqa
    rw [hinfoOf] at hqi
    have hqp : q ≠ p := by
      rintro rfl
      rw [Function.update_self] at hqa
      cases hqa
    rw [Function.update_of_ne hqp] at hqa hqi
    exact hr.handle q a j hqa hqi

/-- The entry of a new function, as long as it has no handle. -/
theorem Registry.created (hr : Registry s) (hnew : s.hooks address = none)
    (hinfo : s.infos e.info = none) (r : Relocated) (c c' : CodeMemory) :
    RegistryExcept { createdProcess e s address r c with toCodeMemory := c' } e.info := by
  have hhooks : (createdProcess e s address r c).hooks =
      Function.update s.hooks address (some e.info) := by
    unfold createdProcess create
    dsimp only
    rw [show (allocSecondTrampoline e s).hooks = s.hooks from rfl, hnew]
    rfl
  have hold : ∀ a j, s.hooks a = some j → a ≠ address ∧ j ≠ e.info := by
    intro a j hj
    obtain ⟨info, xs, he, -⟩ := hr.entry a j hj
    constructor
    · rintro rfl
      rw [hnew] at hj
      cases hj
    · rintro rfl
      rw [he.hasInfo] at hinfo
      cases hinfo
  refine ⟨fun a j hj => ?_, fun p a j hpa hpi => ?_⟩
  · change (createdProcess e s address r c).hooks a = some j at hj
    rw [hhooks] at hj
    by_cases ha : a = address
    · rw [ha, Function.update_self] at hj
      obtain rfl := Option.some.inj hj
      refine ⟨_, [], ⟨Function.update_self .., ha.symm, List.nodup_nil, rfl, fun p => ?_⟩,
        fun hne => absurd rfl hne⟩
      refine ⟨fun hp => ?_, fun hp => (nomatch hp)⟩
      obtain ⟨h, hh, hi⟩ := exists_handle_of_field (s := s) (f := (·.info)) hp
      exact absurd hi (hold _ _ (hr.handle p h.address h.info (field_eq hh) (field_eq hh))).2
    · rw [Function.update_of_ne ha] at hj
      obtain ⟨info, xs, he, hxs⟩ := hr.entry a j hj
      refine ⟨info, xs, ⟨?_, he.address, he.nodup, he.count, he.live⟩, fun _ => hxs⟩
      exact (Function.update_of_ne (hold a j hj).2 _ _).trans he.hasInfo
  · have hj := hr.handle p a j hpa hpi
    change (createdProcess e s address r c).hooks a = some j
    rw [hhooks, Function.update_of_ne (hold a j hj).1, hj]

end Process

open Process Trampoline

variable {e : System} {s s' : Process} {address : Word} {args : HookArgs}

/-- `DoHook` creates an info and cannot patch the function. -/
def PatchFails (e : System) (s : Process) (address : Word) : Prop :=
  s.hooks address = none ∧ e.readable = true ∧ e.trampoline ≠ 0 ∧
    (∃ r c, hookRelocation e s address = .ok (r, c) ∧ r.overwriteSize ≠ 0) ∧
    e.writable address (getFirstTrampolineSize (firstType e address)) = false

/-- The objects that a call allocates are new. -/
def NewObjects (e : System) (s : Process) : Prop :=
  e.info ≠ 0 ∧ s.infos e.info = none ∧ e.handle ≠ 0 ∧ s.handles e.handle = none

namespace LibraryCall

/-- The call reaches `HookInfo::Unhook`. -/
def ReachesUnhook (s : Process) : LibraryCall → Prop
  | inlineHook e address hook _ => address ≠ 0 ∧ hook ≠ 0 ∧ PatchFails e s address
  | inlineInstrument e address preHandler postHandler _ _ =>
    address ≠ 0 ∧ (preHandler ≠ 0 ∨ postHandler ≠ 0) ∧ address ≠ e.pthreadGetspecific ∧
      address ≠ e.pthreadSetspecific ∧ PatchFails e s address
  | unhook _ p => ∃ h info, s.handles p = some h ∧ h.info ≠ 0 ∧ s.infos h.info = some info ∧
      info.handleCount = 1
  | unhookAll _ p => ∃ h, s.handles p = some h ∧ h.info ≠ 0
  | inlineUnhook _ address => address ≠ 0 ∧ ∃ i info, s.hooks address = some i ∧
      s.infos i = some info ∧ info.rootHandle ≠ 0
  | _ => False

/-- What the allocations of a call give. -/
def Fresh (s : Process) : LibraryCall → Prop
  | inlineHook e _ _ _ | inlineInstrument e _ _ _ _ _ => NewObjects e s
  | _ => True

end LibraryCall

theorem doHook_registry {r : HookResult} (hr : Registry s) (hnew : NewObjects e s)
    (hs : doHook e s address args = some (r, s')) (hpatch : ¬ PatchFails e s address) :
    Registry s' := by
  obtain ⟨-, hinfo, hzero, hfresh⟩ := hnew
  cases hi : s.hooks address with
  | some i =>
    obtain ⟨info, hi', hcases⟩ := doHook_known hs hi
    rcases hcases with ⟨-, -, rfl⟩ | ⟨hcount, -, hs'⟩
    · exact hr
    obtain ⟨info', td, hinfo', -, ha⟩ := newHookHandle_added hs'
    obtain rfl := Option.some.inj (hi'.symm.trans hinfo')
    obtain ⟨info', xs, he, -⟩ := hr.entry address i hi
    obtain rfl := Option.some.inj (hi'.symm.trans he.hasInfo)
    exact ha.registry (hr.except i) hi' (he.address ▸ hi) hfresh hcount
  | none =>
    rcases doHook_new hs hi with ⟨-, rfl⟩ | ⟨hreadable, htrampoline, hcases⟩
    · exact hr
    rcases hcases with ⟨-, rfl⟩ | ⟨r, c, hrel, hcases⟩
    · exact hr.congr rfl rfl rfl
    rcases hcases with ⟨-, rfl⟩ | ⟨hsize, copied, c', hwrite, hcases⟩
    · exact hr.congr rfl rfl rfl
    obtain ⟨bs, hlen, hcopied, -⟩ := writeFirstTrampoline_eq hwrite
    have hcopied' : copied = true := by
      by_contra hne
      refine hpatch ⟨hi, hreadable, htrampoline, ⟨r, c, hrel, hsize⟩, ?_⟩
      rw [← hlen, ← hcopied]
      exact Bool.eq_false_iff.mpr hne
    rw [if_pos hcopied'] at hcases
    obtain ⟨info, td, hinfo', -, ha⟩ := newHookHandle_added hcases.2
    have hcreated := hr.created hi hinfo r c c'
    have hentry : ({ createdProcess e s address r c with toCodeMemory := c' } : Process).hooks
        address = some e.info := by
      change (if (s.hooks address).isSome then s.hooks
        else Function.update s.hooks address (some e.info)) address = some e.info
      rw [hi]
      exact Function.update_self ..
    obtain ⟨info', xs, he, -⟩ := hcreated.entry _ _ hentry
    obtain rfl := Option.some.inj (hinfo'.symm.trans he.hasInfo)
    refine ha.registry hcreated hinfo' (he.address ▸ hentry) hfresh ?_
    obtain rfl := Option.some.inj (hinfo'.symm.trans (Function.update_self ..))
    change (0 : BitVec 16) ≠ 0xffff
    decide

/-- A handle keeps its address and its info when it is disabled or enabled. -/
theorem Process.Registry.setEnabled (hr : Registry s) {p : Word} {h : HookHandleExt}
    (hh : s.handles p = some h) (enabled : Bool) :
    Registry (s.setHandle p { h with enabled := enabled }) := by
  have haddr : (s.setHandle p { h with enabled := enabled }).addressOf = s.addressOf :=
    field_setHandle_same hh rfl
  have hinfo : (s.setHandle p { h with enabled := enabled }).infoOf = s.infoOf :=
    field_setHandle_same hh rfl
  refine ⟨fun a i hi => ?_, fun q a i hqa hqi => hr.handle q a i (haddr ▸ hqa) (hinfo ▸ hqi)⟩
  obtain ⟨info, xs, he, hxs⟩ := hr.entry a i hi
  exact ⟨info, xs, ⟨he.hasInfo, he.address, he.nodup, he.count, fun q => hinfo ▸ he.live q⟩, hxs⟩

theorem LibraryCall.step_registry {c : LibraryCall} (hr : Registry s) (hfresh : c.Fresh s)
    (hreach : ¬ c.ReachesUnhook s) (hs : c.step s = some s') : Registry s' := by
  cases c with
  | inlineHook e address hook backup =>
    rcases step_inlineHook hs with ⟨-, rfl⟩ | ⟨h1, h2, r, ht⟩
    · exact hr
    · exact doHook_registry hr hfresh ht fun hpatch => hreach ⟨h1, h2, hpatch⟩
  | inlineInstrument e address preHandler postHandler data backup =>
    rcases step_inlineInstrument hs with ⟨-, rfl⟩ | ⟨h1, h2, h3, h4, r, ht⟩
    · exact hr
    · exact doHook_registry hr hfresh ht fun hpatch => hreach ⟨h1, h2, h3, h4, hpatch⟩
  | unhook e p =>
    obtain ⟨r, ht⟩ := step_unhook hs
    obtain ⟨h, hh, ⟨-, rfl⟩ | ⟨hne, info, hi, hcases⟩⟩ := unhookExt_cases ht
    · exact hr
    rcases hcases with ⟨hcount, -⟩ | ⟨hcount, td, -, hm⟩
    · exact absurd ⟨h, info, hh, hne, hi, hcount⟩ hreach
    · exact hm.registry hr hh hi hcount
  | unhookAll e p =>
    obtain ⟨r, ht⟩ := step_unhookAll hs
    obtain ⟨h, hh, ⟨-, rfl⟩ | ⟨hne, -⟩⟩ := unhookAllExt_cases ht
    · exact hr
    · exact absurd ⟨h, hh, hne⟩ hreach
  | setEnabled p enabled =>
    obtain ⟨h, hh, rfl⟩ := step_setEnabled hs
    exact hr.setEnabled hh enabled
  | setEnabledAll p enabled =>
    rcases step_setEnabledAll hs with rfl | ⟨h, info, td, -, -, -, rfl⟩
    · exact hr
    · exact hr.congr rfl rfl rfl
  | inlineUnhook e address =>
    rcases step_inlineUnhook hs with ⟨-, rfl⟩ | ⟨h1, ⟨i, info, r, hi, hinfo, hroot, -⟩ |
      ⟨-, record, -, rfl⟩⟩
    · exact hr
    · exact absurd ⟨h1, i, info, hi, hinfo, hroot⟩ hreach
    · exact hr.congr rfl rfl rfl
  | writeTrampoline e address hook backup =>
    rw [step_writeTrampoline_frame hs]
    exact hr.congr rfl rfl rfl

/-- As long as no call reaches `HookInfo::Unhook`, the registry stays exact. -/
theorem registry_exact (mem : Mem) (vars : Word → Word) (cs : List LibraryCall) (s : Process)
    (hrun : Run LibraryCall.step (fun s c => c.Fresh s ∧ ¬ c.ReachesUnhook s) (initial mem vars)
      cs s) : RegistryExact s :=
  (hrun.invariant (fun _ _ _ hr hc hs => LibraryCall.step_registry hr hc.1 hc.2 hs)
    (registry_initial mem vars)).exact

/-- Code that consists of `nop` instructions. -/
def nopMemory : Mem := fun p => if p &&& 3 = 0 then 0x13 else 0

def hookSystem : System where
  trampoline := 0x2000
  heaps := fun _ => some 0x3000
  info := 0x10
  handle := 0x100
  pthreadGetspecific := 0x9000
  pthreadSetspecific := 0x9100

theorem registry_exact_sample : ∃ s, LibraryCall.step (.inlineHook hookSystem 0x1000 0x4000 0)
    (initial nopMemory fun _ => 0) = some s ∧ RegistryExact s := by
  have hfresh : NewObjects hookSystem (initial nopMemory fun _ => 0) :=
    ⟨by decide, rfl, by decide, rfl⟩
  refine ⟨_, rfl, registry_exact nopMemory (fun _ => 0)
    [.inlineHook hookSystem 0x1000 0x4000 0] _ (.cons ⟨hfresh, ?_⟩ rfl (.nil _))⟩
  rintro ⟨-, -, -, -, -, -, hwritable⟩
  exact absurd hwritable (by decide)

/-- The entry of a function stays when its only hook is removed. -/
theorem registry_not_exact : ∃ s, Run LibraryCall.step (fun s c => c.Fresh s)
    (initial nopMemory fun _ => 0)
    [.inlineHook hookSystem 0x1000 0x4000 0, .unhook hookSystem 0x100] s ∧ ¬ RegistryExact s := by
  refine ⟨_, .cons ⟨by decide, rfl, by decide, rfl⟩ rfl (.cons trivial rfl (.nil _)), fun h => ?_⟩
  obtain ⟨p, h, hh, -⟩ := (h.entry_iff 0x1000).mp ⟨0x10, rfl⟩
  change Function.update (Function.update (Function.update (fun _ => none) 0x100 _) 0x100 _) 0x100
    none p = some h at hh
  by_cases hp : p = 0x100 <;> simp [hp] at hh

end Rv64Hook
