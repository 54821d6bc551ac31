import Rv64Hook.Hooks.Dispatch
import Rv64Hook.Lib.Calls

/-! The entry target of a list of handles in which hooks may be registered more than once, when one
of its handles is removed. -/
namespace Rv64Hook
open ByteMem Rv64 LinkedList Calls

namespace Process

variable {e : System} {s s' : Process} {i p : Word} {info : HookInfo} {td : TrampolineData}
  {args : HookArgs} {xs ys zs : List Word} {h : HookHandleExt}

/-! ### Registrations -/

/-- A registration on info `i`. -/
def register (i : Word) (c : System × HookArgs) (s : Process) : Option Process :=
  newHookHandle c.1 s i c.2

/-- What `DoHook` promises for a registration: a new object, fewer handles than the counter can
count, and a hook or handlers but not both. -/
def Registrable (i : Word) (s : Process) (c : System × HookArgs) : Prop :=
  s.handles c.1.handle = none ∧ c.1.handle ≠ 0 ∧ (c.2.hook ≠ 0 → c.2.postHandler = 0) ∧
    ∀ info, s.infos i = some info → info.handleCount ≠ 0xffff

/-- The handles that registrations have made, from zeroed trampoline data on. -/
structure Built (s : Process) (i : Word) (info : HookInfo) (td : TrampolineData)
    (xs : List Word) : Prop where
  wellFormed : WellFormed s i info td xs
  dispatch : xs ≠ [] → Dispatch s info.relocated td xs
  zeroed : xs = [] → td = {}
  backup : td.hook ≠ 0 → td.backup = 0

/-- `td->backup` stays null while every handle has a hook. -/
theorem laterData_backup (hb : td.hook ≠ 0 → td.backup = 0) (args : HookArgs) (backup : Word) :
    (laterData td args backup).hook ≠ 0 → (laterData td args backup).backup = 0 := by
  unfold laterData
  split_ifs with hhook htd
  · exact fun _ => hb htd
  · exact fun h => absurd h htd
  all_goals exact fun h => absurd rfl h

theorem Built.register {c : System × HookArgs} (hb : Built s i info td xs)
    (hc : Registrable i s c) (hs : register i c s = some s') :
    ∃ info' td', Built s' i info' td' (xs ++ [c.1.handle]) ∧ info'.relocated = info.relocated ∧
      s'.hookOf c.1.handle = c.2.hook ∧ ∀ q ∈ xs, s'.hookOf q = s.hookOf q := by
  obtain ⟨hfresh, hzero, hargs, hfull⟩ := hc
  have hcount := hfull info hb.wellFormed.hasInfo
  obtain ⟨t, ht, hr⟩ := newHookHandle_registered hb.wellFormed.toListed hfresh hzero c.2
  obtain rfl := Option.some.inj (hs.symm.trans ht)
  have hw := hr.wellFormed hb.wellFormed hcount hfresh
  have hnew := hb.wellFormed.notMem hfresh
  refine ⟨_, _, ⟨hw, fun _ => ?_, fun h => absurd h (by simp), ?_⟩, rfl,
    hr.valueOf_new fun _ _ => rfl, fun q hq => hr.hookOf_of_ne ?_⟩
  · by_cases hxs : xs = []
    · subst hxs
      obtain rfl := hb.zeroed rfl
      exact hr.dispatch_first hargs
    · simp only [if_neg hxs]
      refine hr.dispatch_later hnew (hb.dispatch hxs) hargs ?_
      have hlt := info.handleCount.isLt
      have hne : info.handleCount.toNat ≠ 0xffff := fun heq => hcount (BitVec.eq_of_toNat_eq heq)
      have hlength := hb.wellFormed.count
      omega
  · by_cases hxs : xs = []
    · obtain rfl := hb.zeroed hxs
      rw [if_pos hxs]
      obtain ⟨hhook, hbackup, -⟩ := firstData_eq c.1 c.2 info.relocated
      rw [hhook, hbackup]
      exact fun hne => if_pos hne
    · rw [if_neg hxs]
      exact laterData_backup hb.backup _ _
  · rintro rfl
    exact hnew hq

theorem built_nil (hl : Listed s i info {} []) : Built s i info {} [] :=
  ⟨⟨hl, rfl⟩, fun h => absurd rfl h, fun _ => rfl, fun h => absurd rfl h⟩

/-- A process holds one list of handles for an info. -/
theorem Listed.unique {info' : HookInfo} {td' : TrampolineData} (hl : Listed s i info td xs)
    (hl' : Listed s i info' td' ys) : info' = info ∧ td' = td ∧ ys = xs := by
  obtain rfl := Option.some.inj (hl'.hasInfo.symm.trans hl.hasInfo)
  obtain rfl := Option.some.inj (hl'.hasData.symm.trans hl.hasData)
  exact ⟨rfl, rfl, hl'.next.unique (field_null hl.null) hl.next⟩

/-! ### Removals -/

/-- The entry after a removal: it stays where a later handle has a hook, and it is the last hook that
is left, or the relocated function where none is. -/
def EntryKept (s s' : Process) (info : HookInfo) (td : TrampolineData) (ys zs : List Word) : Prop :=
  ∃ td', s'.trampolines info.trampoline = some td' ∧
    ((∃ q ∈ zs, s.hookOf q ≠ 0) → entryTarget td' = entryTarget td) ∧ entryTarget td' ≠ 0 ∧
    entryTarget td' = lastHook info.relocated ((ys ++ zs).map s.hookOf)

/-- The handle has no hook, or no later handle has one, or the last hook is another function; or the
entry is set to the same function again. -/
def NotAliased (s : Process) (info : HookInfo) (td : TrampolineData) (h : HookHandleExt)
    (ys zs : List Word) : Prop :=
  h.hook = 0 ∨ (∀ q ∈ zs, s.hookOf q = 0) ∨ lastHook 0 (zs.map s.hookOf) ≠ h.hook ∨
    lastHook (if td.hook ≠ 0 then 0 else info.relocated) (ys.map s.hookOf) = h.hook

theorem lastHook_ne_zero {b : Word} (hb : b ≠ 0) (ks : List Word) : lastHook b ks ≠ 0 := by
  by_cases hsome : ∃ k ∈ ks, k ≠ 0
  · exact (lastHook_of_hook hsome b).2.2
  · rw [lastHook_eq_self fun k hk => not_not.mp fun hne => hsome ⟨k, hk, hne⟩]
    exact hb

/-- The entry where the removed handle has the function of the last hook. -/
theorem entry_of_aliased (hd : Dispatch s info.relocated td (ys ++ p :: zs))
    (hb : td.hook ≠ 0 → td.backup = 0) (hh : s.handles p = some h) (hhook : h.hook ≠ 0)
    (hsome : ∃ k ∈ zs.map s.hookOf, k ≠ 0) (hlast : lastHook 0 (zs.map s.hookOf) = h.hook)
    (isRoot : Bool) :
    entryTarget (unhookData td h isRoot (lastHook 0 (ys.map s.hookOf))
        (lastHook info.relocated (ys.map s.hookOf))) =
      lastHook (if td.hook ≠ 0 then 0 else info.relocated) (ys.map s.hookOf) := by
  have hentry := hd.entry
  rw [List.map_append, List.map_cons, hookOf_eq hh, lastHook_append, lastHook_cons,
    if_pos hhook, (lastHook_of_hook hsome _).1, hlast] at hentry
  unfold entryTarget at hentry ⊢
  rw [Unregistered.unhookData_hook, Unregistered.unhookData_backup]
  by_cases htd : td.hook = 0
  · rw [if_neg (not_not.mpr htd)] at hentry
    have hkeep : ¬(h.hook ≠ 0 ∧ td.hook = h.hook) := fun hc => hhook (hc.2.symm.trans htd)
    have hgone : h.hook ≠ 0 ∧ td.backup = h.hook := ⟨hhook, hentry⟩
    rw [if_neg hkeep, if_neg (not_not.mpr htd), if_pos hgone, if_neg (not_not.mpr htd)]
  · rw [if_pos htd] at hentry
    have hkeep : ¬(h.hook ≠ 0 ∧ td.backup = h.hook) := fun hc =>
      hhook (hc.2.symm.trans (hb htd))
    have hgone : h.hook ≠ 0 ∧ td.hook = h.hook := ⟨hhook, hentry⟩
    rw [if_pos hgone, if_neg hkeep, hb htd, if_pos htd]
    split_ifs with hprevious
    · rfl
    · exact (not_not.mp hprevious).symm

/-- The entry after a removal is the last hook that is left exactly where no alias misleads it. -/
theorem entry_eq_iff (hd : Dispatch s info.relocated td (ys ++ p :: zs))
    (hb : td.hook ≠ 0 → td.backup = 0) (hne : ys ++ zs ≠ []) (hh : s.handles p = some h)
    (isRoot : Bool) :
    entryTarget (unhookData td h isRoot (lastHook 0 (ys.map s.hookOf))
        (lastHook info.relocated (ys.map s.hookOf))) =
      lastHook info.relocated ((ys ++ zs).map s.hookOf) ↔ NotAliased s info td h ys zs := by
  by_cases hhook : h.hook = 0
  · exact ⟨fun _ => .inl hhook, fun _ => Unregistered.entry_of_no_hook hd hh hhook isRoot⟩
  by_cases hsome : ∃ k ∈ zs.map s.hookOf, k ≠ 0
  · by_cases hlast : lastHook 0 (zs.map s.hookOf) = h.hook
    · rw [entry_of_aliased hd hb hh hhook hsome hlast, List.map_append, lastHook_append,
        (lastHook_of_hook hsome _).1, hlast]
      refine ⟨fun heq => .inr (.inr (.inr heq)), fun halias => ?_⟩
      rcases halias with hzero | hnone | hother | heq
      · exact absurd hzero hhook
      · obtain ⟨k, hk, hk0⟩ := hsome
        obtain ⟨q, hq, rfl⟩ := List.mem_map.mp hk
        exact absurd (hnone q hq) hk0
      · exact absurd hlast hother
      · exact heq
    · exact ⟨fun _ => .inr (.inr (.inl hlast)),
        fun _ => Unregistered.entry_of_hook hd (fun _ => hlast) hne hh hhook isRoot⟩
  · refine ⟨fun _ => .inr (.inl fun q hq => ?_),
      fun _ => Unregistered.entry_of_hook hd (fun h => absurd h hsome) hne hh hhook isRoot⟩
    by_contra hq0
    exact hsome ⟨_, List.mem_map_of_mem hq, hq0⟩

theorem Built.entryKept_iff (hb : Built s i info td (ys ++ p :: zs))
    (hrelocated : info.relocated ≠ 0) (hne : ys ++ zs ≠ []) (hh : s.handles p = some h)
    (e : System) :
    (∃ s', unhookExt e s p = some (true, s') ∧ EntryKept s s' info td ys zs) ↔
      NotAliased s info td h ys zs := by
  have hw := hb.wellFormed
  have hd := hb.dispatch (by simp)
  obtain ⟨s', hs', hu⟩ := unhookExt_unregistered (e := e) hw.toListed hne hh (hw.back hh)
  have hdata := congrFun hu.trampolines info.trampoline
  rw [Function.update_self] at hdata
  rw [← entry_eq_iff hd hb.backup hne hh (info.rootHandle = p)]
  constructor
  · rintro ⟨t, ht, td', htd', -, -, heq⟩
    obtain ⟨-, rfl⟩ := Prod.mk.inj (Option.some.inj (hs'.symm.trans ht))
    obtain rfl := Option.some.inj (hdata.symm.trans htd')
    exact heq
  · intro heq
    refine ⟨s', hs', _, hdata, fun ⟨q, hq, hq0⟩ => ?_, ?_, heq⟩
    · have hsome : ∃ k ∈ zs.map s.hookOf, k ≠ 0 := ⟨_, List.mem_map_of_mem hq, hq0⟩
      rw [heq, hd.entry, List.map_append, List.map_append, List.map_cons, lastHook_append,
        lastHook_append, lastHook_cons]
      exact (lastHook_of_hook hsome _).1.trans (lastHook_of_hook hsome _).1.symm
    · rw [heq]
      exact lastHook_ne_zero hrelocated _

/-- After any registrations, removing a handle that is not the only one keeps the entry at the last
hook exactly where the function of the handle is not that of the last hook, or the entry is set to
the same function again. -/
theorem removal_entry_iff (e : System) (i : Word) (s₀ s : Process) (info₀ info : HookInfo)
    (td : TrampolineData) (cs : List (System × HookArgs)) (ys zs : List Word) (p : Word)
    (h : HookHandleExt) (hl : Listed s₀ i info₀ {} []) (hrelocated : info₀.relocated ≠ 0)
    (hrun : Run (register i) (Registrable i) s₀ cs s)
    (hw : WellFormed s i info td (ys ++ p :: zs)) (hne : ys ++ zs ≠ [])
    (hh : s.handles p = some h) :
    (∃ s', unhookExt e s p = some (true, s') ∧ EntryKept s s' info td ys zs) ↔
      NotAliased s info td h ys zs := by
  obtain ⟨info', td', xs, hb, hkept⟩ := hrun.invariant
    (P := fun s => ∃ info td xs, Built s i info td xs ∧ info.relocated = info₀.relocated)
    (fun s c t ⟨info, td, xs, hb, hkept⟩ hc ht => by
      obtain ⟨info', td', hb', hkept', -⟩ := hb.register hc ht
      exact ⟨info', td', _, hb', hkept'.trans hkept⟩)
    ⟨info₀, {}, [], built_nil hl, rfl⟩
  obtain ⟨rfl, rfl, rfl⟩ := hw.toListed.unique hb.wellFormed.toListed
  exact hb.entryKept_iff (hkept ▸ hrelocated) hne hh e

/-- Two hooks on one function. -/
def hookPair (hook : Word) : List (System × HookArgs) :=
  [(sampleSystem 0x100, { hook := 0x4000 }), (sampleSystem 0x200, { hook := hook })]

theorem hookPair_built (hook : Word) : ∃ s info td,
    Run (register 0x10) (Registrable 0x10) sampleProcess (hookPair hook) s ∧
      Built s 0x10 info td [0x100, 0x200] ∧ info.relocated = 0x3000 ∧
      s.hookOf 0x100 = 0x4000 ∧ s.hookOf 0x200 = hook := by
  have hb₀ := built_nil sampleProcess_listed
  have hc₁ : Registrable 0x10 sampleProcess (sampleSystem 0x100, { hook := 0x4000 }) := by
    refine ⟨rfl, by decide, fun _ => rfl, fun info hinfo => ?_⟩
    obtain rfl := Option.some.inj (hinfo.symm.trans sampleProcess_listed.hasInfo)
    decide
  obtain ⟨s₁, hs₁⟩ : ∃ s₁, register 0x10 (sampleSystem 0x100, { hook := 0x4000 }) sampleProcess =
    some s₁ := ⟨_, rfl⟩
  obtain ⟨info₁, td₁, hb₁, hkept₁, hhook₁, -⟩ := hb₀.register hc₁ hs₁
  have hc₂ : Registrable 0x10 s₁ (sampleSystem 0x200, { hook := hook }) := by
    refine ⟨?_, show (0x200 : Word) ≠ 0 by decide, fun _ => rfl, fun info hinfo => ?_⟩
    · obtain rfl := Option.some.inj (hs₁.symm.trans rfl)
      rfl
    · obtain rfl := Option.some.inj (hinfo.symm.trans hb₁.wellFormed.hasInfo)
      intro heq
      have hcount := hb₁.wellFormed.count
      rw [heq] at hcount
      cases hcount
  obtain ⟨s₂, hs₂, -⟩ := newHookHandle_registered hb₁.wellFormed.toListed hc₂.1 hc₂.2.1
    { hook := hook }
  obtain ⟨info₂, td₂, hb₂, hkept₂, hhook₂, hothers⟩ := hb₁.register hc₂ hs₂
  exact ⟨s₂, info₂, td₂, .cons hc₁ hs₁ (.cons hc₂ hs₂ (.nil s₂)), hb₂, hkept₂.trans hkept₁,
    (hothers 0x100 (by simp [sampleSystem])).trans hhook₁, hhook₂⟩

/-- The first of two different hooks is removed. -/
theorem removal_entry_iff_sample : ∃ s info td s',
    unhookExt (sampleSystem 0) s 0x100 = some (true, s') ∧ EntryKept s s' info td [] [0x200] := by
  obtain ⟨s, info, td, hrun, hb, hrelocated, hhook, hhook'⟩ := hookPair_built 0x4100
  obtain ⟨h, hh, -⟩ := hb.wellFormed.exists_handle (show (0x100 : Word) ∈ _ from List.mem_cons_self)
  have halias : NotAliased s info td h [] [0x200] := by
    refine .inr (.inr (.inl ?_))
    rw [List.map_singleton, hhook', ← hookOf_eq hh, hhook]
    decide
  obtain ⟨s', hs', hkept⟩ := (removal_entry_iff (sampleSystem 0) 0x10 sampleProcess s sampleInfo info
    td (hookPair 0x4100) [] [0x200] 0x100 h sampleProcess_listed (by decide) hrun hb.wellFormed
    (by simp) hh).mpr halias
  exact ⟨s, info, td, s', hs', hkept⟩

/-- A function is hooked twice with the same hook; the removal of the first handle leaves the second
trampoline without an entry. -/
theorem removal_loses_entry : ∃ s info td,
    Run (register 0x10) (Registrable 0x10) sampleProcess (hookPair 0x4000) s ∧
      WellFormed s 0x10 info td ([] ++ 0x100 :: [0x200]) ∧
      ¬ ∃ s', unhookExt (sampleSystem 0) s 0x100 = some (true, s') ∧
        EntryKept s s' info td [] [0x200] := by
  obtain ⟨s, info, td, hrun, hb, hrelocated, hhook, hhook'⟩ := hookPair_built 0x4000
  obtain ⟨h, hh, -⟩ := hb.wellFormed.exists_handle (show (0x100 : Word) ∈ _ from List.mem_cons_self)
  refine ⟨s, info, td, hrun, hb.wellFormed, fun hkept => ?_⟩
  have hh0 : h.hook = 0x4000 := (hookOf_eq hh).symm.trans hhook
  rw [hb.entryKept_iff (by rw [hrelocated]; decide) (by simp) hh] at hkept
  rcases hkept with hzero | hnone | hother | hsame
  · rw [hh0] at hzero
    cases hzero
  · have hzero := hnone 0x200 List.mem_cons_self
    rw [hhook'] at hzero
    cases hzero
  · rw [List.map_singleton, hhook', hh0] at hother
    exact hother rfl
  · rw [List.map_nil, lastHook_nil, hrelocated, hh0] at hsame
    split_ifs at hsame <;> exact absurd hsame (by decide)

end Process
end Rv64Hook
