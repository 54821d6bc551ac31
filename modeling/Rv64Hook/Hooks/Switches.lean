import Rv64Hook.Hooks.Removal

/-! A hooked function as its user sees it: the registrations in their order, with a switch for each and
one for the function. The handles, the info and the data of the trampoline refine it. -/
namespace Rv64Hook
open ByteMem Rv64 LinkedList Calls

/-- What has been registered, and its switch. -/
structure Registration where
  handle : Word
  args : HookArgs
  enabled : Bool

/-- What the trampoline reads of a handle, besides the links. -/
def Registration.settings (r : Registration) : Word × Word × Word × Word × Bool :=
  (r.args.hook, r.args.preHandler, r.args.postHandler, r.args.data, r.enabled)

/-- A function with its registrations in order, and its switch. -/
structure Hooked where
  relocated : Word
  registrations : List Registration
  enabled : Bool

/-- The calls that leave a function hooked. -/
inductive HookedOp where
  | register (e : System) (args : HookArgs)
  | setEnabled (p : Word) (enabled : Bool)
  | setEnabledAll (p : Word) (enabled : Bool)

/-- A call that leaves a function hooked, where the handle registered last is removed first. -/
inductive StackOp where
  | keep (op : HookedOp)
  | unhook (e : System) (p : Word)

namespace Hooked

def handles (a : Hooked) : List Word := a.registrations.map (·.handle)

def hooks (a : Hooked) : List Word := a.registrations.map (·.args.hook)

/-- The hook that is registered last, or the original. -/
def target (a : Hooked) : Word := Process.lastHook a.relocated a.hooks

def register (a : Hooked) (handle : Word) (args : HookArgs) : Hooked :=
  { a with
    registrations := a.registrations ++ [⟨handle, args, true⟩]
    enabled := if a.registrations.isEmpty then true else a.enabled }

def setEnabled (a : Hooked) (p : Word) (enabled : Bool) : Hooked :=
  { a with
    registrations := a.registrations.map fun r =>
      if r.handle = p then { r with enabled := enabled } else r }

def apply (a : Hooked) : HookedOp → Hooked
  | .register e args => a.register e.handle args
  | .setEnabled p enabled => a.setEnabled p enabled
  | .setEnabledAll _ enabled => { a with enabled := enabled }

end Hooked

namespace Process

def applyOp (i : Word) : HookedOp → Process → Option Process
  | .register e args, s => newHookHandle e s i args
  | .setEnabled p enabled, s => (setEnabledExt s p enabled).map Prod.snd
  | .setEnabledAll p enabled, s => (setEnabledAllExt s p enabled).map Prod.snd

/-- A registration is one that `DoHook` makes, and a switch is one of a live handle. -/
def Applicable (i : Word) (s : Process) : HookedOp → Prop
  | .register e args => Registrable i s (e, args)
  | .setEnabled p _ => s.infoOf p = some i
  | .setEnabledAll p _ => s.infoOf p = some i

def settings (h : HookHandleExt) : Word × Word × Word × Word × Bool :=
  (h.hook, h.preHandler, h.postHandler, h.data, h.enabled)

/-- The info `i` is of the hooked function `a`. -/
structure Refines (s : Process) (i : Word) (info : HookInfo) (td : TrampolineData) (a : Hooked) :
    Prop where
  built : Built s i info td a.handles
  relocated : info.relocated = a.relocated
  settings : ∀ r ∈ a.registrations, s.field settings r.handle = some r.settings
  enabled : a.registrations ≠ [] → td.enabled = a.enabled
  hookOnly : a.registrations ≠ [] → (td.hook ≠ 0 ↔ ∀ k ∈ a.hooks, k ≠ 0)

variable {e : System} {s s' : Process} {i p : Word} {info : HookInfo} {td : TrampolineData}
  {args : HookArgs} {a : Hooked} {xs : List Word}

namespace Refines

theorem handles_ne_nil (h : a.registrations ≠ []) : a.handles ≠ [] := by
  simpa [Hooked.handles] using h

theorem hookOf (hr : Refines s i info td a) {r : Registration} (h : r ∈ a.registrations) :
    s.hookOf r.handle = r.args.hook := by
  obtain ⟨k, hk, hs⟩ := exists_handle_of_field (hr.settings r h)
  rw [hookOf_eq hk]
  exact congrArg Prod.fst hs

theorem map_hookOf (hr : Refines s i info td a) : a.handles.map s.hookOf = a.hooks := by
  rw [Hooked.handles, Hooked.hooks, List.map_map]
  exact List.map_congr_left fun r h => hr.hookOf h

/-- The entry of the trampoline is the last hook. -/
theorem entry (hr : Refines s i info td a) (h : a.registrations ≠ []) :
    entryTarget td = a.target := by
  rw [(hr.built.dispatch (handles_ne_nil h)).entry, hr.map_hookOf, hr.relocated]
  rfl

/-- A disabled function continues at the last hook, and nowhere if every handle has a hook. -/
theorem backup (hr : Refines s i info td a) (h : a.registrations ≠ []) :
    td.backup = if ∀ k ∈ a.hooks, k ≠ 0 then 0 else a.target := by
  have hentry := hr.entry h
  unfold entryTarget at hentry
  by_cases hhook : td.hook = 0
  · rw [if_neg (not_not.mpr hhook)] at hentry
    rw [if_neg fun hall => (hr.hookOnly h).mpr hall hhook]
    exact hentry
  · rw [if_pos ((hr.hookOnly h).mp hhook)]
    exact hr.built.backup hhook

end Refines

/-! ### Registrations -/

theorem firstData_enabled (e : System) (td : TrampolineData) (args : HookArgs) (relocated : Word) :
    (firstData e td args relocated).enabled = true := by
  unfold firstData
  cases e.tlsKey <;> rfl

theorem laterData_enabled (td : TrampolineData) (args : HookArgs) (backup : Word) :
    (laterData td args backup).enabled = td.enabled := by
  unfold laterData
  split_ifs <;> rfl

theorem laterData_hook_iff (td : TrampolineData) (args : HookArgs) (backup : Word) :
    (laterData td args backup).hook ≠ 0 ↔ td.hook ≠ 0 ∧ args.hook ≠ 0 := by
  unfold laterData
  split_ifs <;> simp_all

theorem refines_register (hr : Refines s i info td a) (hok : Registrable i s (e, args)) :
    ∃ s' info' td', newHookHandle e s i args = some s' ∧
      Refines s' i info' td' (a.register e.handle args) := by
  have hfresh : s.handles e.handle = none := hok.1
  obtain ⟨s', hs', hreg⟩ := newHookHandle_registered hr.built.wellFormed.toListed hfresh hok.2.1 args
  obtain ⟨info', td', hb, hrelocated, -, -⟩ := hr.built.register hok hs'
  have hnew : e.handle ∉ a.handles := hr.built.wellFormed.notMem hfresh
  have hhandles : (a.register e.handle args).handles = a.handles ++ [e.handle] := by
    simp [Hooked.register, Hooked.handles]
  have hinfo' : info' = { info with
      handleCount := info.handleCount + 1
      rootHandle := if a.handles = [] then e.handle else info.rootHandle } := by
    have hinfos := hb.wellFormed.hasInfo
    rw [hreg.infos, Function.update_self] at hinfos
    exact (Option.some.inj hinfos).symm
  have htd' : td' = if a.handles = [] then firstData e td args info.relocated
      else laterData td args (lastHook info.relocated (a.handles.map s.hookOf)) := by
    have hdata := hb.wellFormed.hasData
    rw [hinfo', hreg.trampolines, Function.update_self] at hdata
    exact (Option.some.inj hdata).symm
  refine ⟨s', info', td', hs', ?_⟩
  constructor
  · rw [hhandles]
    exact hb
  · exact hrelocated.trans hr.relocated
  · intro r hmem
    rw [hreg.field settings fun _ _ => rfl]
    rcases List.mem_append.mp hmem with hmem | hmem
    · have hne : r.handle ≠ e.handle := fun heq => hnew (heq ▸ List.mem_map_of_mem hmem)
      rw [Function.update_of_ne hne]
      exact hr.settings r hmem
    · rw [List.mem_singleton.mp hmem]
      exact Function.update_self ..
  · intro _
    rw [htd']
    by_cases hnil : a.registrations = []
    · rw [if_pos (by simp [Hooked.handles, hnil]), firstData_enabled]
      simp [Hooked.register, hnil]
    · rw [if_neg (Refines.handles_ne_nil hnil), laterData_enabled, hr.enabled hnil]
      simp [Hooked.register, hnil]
  · intro _
    rw [htd']
    by_cases hnil : a.registrations = []
    · obtain rfl := hr.built.zeroed (by simp [Hooked.handles, hnil])
      rw [if_pos (by simp [Hooked.handles, hnil]), (firstData_eq e args info.relocated).1]
      simp [Hooked.register, Hooked.hooks, hnil]
    · rw [if_neg (Refines.handles_ne_nil hnil), laterData_hook_iff, hr.hookOnly hnil]
      simp only [Hooked.register, Hooked.hooks, List.map_append, List.map_singleton,
        List.forall_mem_append, List.forall_mem_singleton]

/-! ### Switches -/

/-- A handle that keeps everything but its switch. -/
theorem Built.switch {h : HookHandleExt} (hb : Built s i info td xs) (hh : s.handles p = some h)
    (enabled : Bool) : Built (s.setHandle p { h with enabled := enabled }) i info td xs := by
  have hfield : ∀ {α : Type} (f : HookHandleExt → α), f { h with enabled := enabled } = f h →
      (s.setHandle p { h with enabled := enabled }).field f = s.field f :=
    fun f hf => field_setHandle_same hh hf
  have hvalue : ∀ f : HookHandleExt → Word, f { h with enabled := enabled } = f h →
      (s.setHandle p { h with enabled := enabled }).valueOf f = s.valueOf f := fun f hf => by
    funext q
    exact valueOf_congr (congrFun (hfield f hf) q)
  have hw := hb.wellFormed
  have hhook : (s.setHandle p { h with enabled := enabled }).hookOf = s.hookOf := hvalue _ rfl
  have hpost : (s.setHandle p { h with enabled := enabled }).postHandlerOf = s.postHandlerOf :=
    hvalue _ rfl
  constructor
  · refine ⟨⟨?_, hw.id, hw.hasInfo, hw.hasData, ?_, hw.count, hw.root, fun q => ?_⟩, ?_⟩
    · exact (Function.update_of_ne (ne_zero_of_handle hw.null hh).symm _ _).trans hw.null
    · rw [nextOf, hfield (·.next) rfl]
      exact hw.next
    · rw [infoOf, hfield (·.info) rfl]
      exact hw.live q
    · rw [previousOf, hfield (·.previous) rfl]
      exact hw.previous
  · intro hne
    have hd := hb.dispatch hne
    constructor
    · intro ys q zs hsplit
      rw [hhook, ← hd.backups ys q zs hsplit]
      exact congrFun (hvalue (·.backup) rfl) q
    · rw [hhook]
      exact hd.entry
    · rw [hhook]
      exact hd.hookOnly
    · rw [hpost]
      exact hd.posts
  · exact hb.zeroed
  · exact hb.backup

theorem refines_setEnabled (hr : Refines s i info td a) (hp : s.infoOf p = some i)
    (enabled : Bool) : ∃ h, s.handles p = some h ∧
      Refines (s.setHandle p { h with enabled := enabled }) i info td (a.setEnabled p enabled) := by
  obtain ⟨h, hh, -⟩ := exists_handle_of_field hp
  have hhandles : (a.setEnabled p enabled).handles = a.handles := by
    unfold Hooked.setEnabled Hooked.handles
    rw [List.map_map]
    exact List.map_congr_left fun r _ => by
      dsimp only [Function.comp_apply]
      split_ifs <;> rfl
  have hhooks : (a.setEnabled p enabled).hooks = a.hooks := by
    unfold Hooked.setEnabled Hooked.hooks
    rw [List.map_map]
    exact List.map_congr_left fun r _ => by
      dsimp only [Function.comp_apply]
      split_ifs <;> rfl
  have hnil : (a.setEnabled p enabled).registrations ≠ [] → a.registrations ≠ [] := by
    simp [Hooked.setEnabled]
  refine ⟨h, hh, ?_⟩
  constructor
  · rw [hhandles]
    exact hr.built.switch hh enabled
  · exact hr.relocated
  · intro r hr'
    obtain ⟨r, hmem, rfl⟩ := List.mem_map.mp hr'
    have hkept := hr.settings r hmem
    rw [field_setHandle]
    split_ifs with hrp
    · subst hrp
      rw [field_eq hh] at hkept
      obtain ⟨h1, h2, h3, h4, -⟩ : h.hook = r.args.hook ∧ h.preHandler = r.args.preHandler ∧
          h.postHandler = r.args.postHandler ∧ h.data = r.args.data ∧ h.enabled = r.enabled := by
        simpa [Process.settings, Registration.settings] using hkept
      rw [Function.update_self]
      simp [Process.settings, Registration.settings, h1, h2, h3, h4]
    · rw [Function.update_of_ne hrp]
      exact hkept
  · exact fun hne => hr.enabled (hnil hne)
  · rw [hhooks]
    exact fun hne => hr.hookOnly (hnil hne)

theorem refines_setEnabledAll (hr : Refines s i info td a) (hp : s.infoOf p = some i)
    (enabled : Bool) :
    Refines (s.setTrampolineData info.trampoline { td with enabled := enabled }) i info
      { td with enabled := enabled } { a with enabled := enabled } := by
  have hw := hr.built.wellFormed
  have hne : a.handles ≠ [] := List.ne_nil_of_mem ((hw.live p).mp hp)
  have hd := hr.built.dispatch hne
  refine ⟨⟨⟨⟨hw.null, hw.id, hw.hasInfo, ?_, hw.next, hw.count, hw.root, hw.live⟩, hw.previous⟩,
    fun _ => ⟨hd.backups, hd.entry, hd.hookOnly, hd.posts⟩, fun h => absurd h hne,
    hr.built.backup⟩, hr.relocated, hr.settings, fun _ => rfl, hr.hookOnly⟩
  exact Function.update_self ..

/-! ### Runs -/

theorem refines_apply {op : HookedOp} (hr : Refines s i info td a) (hok : Applicable i s op) :
    ∃ s' info' td', applyOp i op s = some s' ∧ Refines s' i info' td' (a.apply op) := by
  cases op with
  | register e args => exact refines_register hr hok
  | setEnabled p enabled =>
    obtain ⟨h, hh, hr'⟩ := refines_setEnabled hr hok enabled
    refine ⟨_, info, td, ?_, hr'⟩
    simp [applyOp, setEnabledExt, hh]
  | setEnabledAll p enabled =>
    obtain ⟨h, hh, hinfo⟩ := exists_handle_of_field hok
    have hw := hr.built.wellFormed
    refine ⟨_, info, _, ?_, refines_setEnabledAll hr hok enabled⟩
    subst hinfo
    have hid : h.info ≠ 0 := hw.id
    rw [applyOp, setEnabledAllExt, hh, Option.bind_eq_bind, Option.bind_some, if_neg hid]
    simp [hw.hasInfo, hw.hasData]

/-- Every sequence of registrations and switches succeeds, and what it leaves is what the user has
asked for. -/
theorem refines_run (ops : List HookedOp) (hr : Refines s i info td a)
    (hok : Allowed (applyOp i) (Applicable i) s ops) :
    ∃ s' info' td', result (applyOp i) s ops = some s' ∧
      Refines s' i info' td' (ops.foldl Hooked.apply a) := by
  induction ops generalizing s info td a with
  | nil => exact ⟨s, info, td, rfl, hr⟩
  | cons op ops ih =>
    obtain ⟨hop, hops⟩ := hok
    obtain ⟨t, info₁, td₁, ht, hr₁⟩ := refines_apply hr hop
    obtain ⟨s', info', td', hs', hr'⟩ := ih hr₁ (hops t ht)
    refine ⟨s', info', td', ?_, hr'⟩
    rw [result, ht, Option.bind_some, hs']

/-! ### Removals of the last handle -/

def applyStackOp (i : Word) : StackOp → Process → Option Process
  | .keep op, s => applyOp i op s
  | .unhook e p, s => (unhookExt e s p).map Prod.snd

/-- The handle is the last one, and not the only one. -/
def Stacked (i : Word) (s : Process) : StackOp → Prop
  | .keep op => Applicable i s op
  | .unhook _ p => s.infoOf p = some i ∧ s.nextOf p = some 0 ∧
      ∀ info, s.infos i = some info → info.rootHandle ≠ p

theorem built_apply {op : HookedOp} (hb : Built s i info td xs) (hok : Applicable i s op) :
    ∃ s' info' td' xs', applyOp i op s = some s' ∧ Built s' i info' td' xs' ∧
      info'.relocated = info.relocated ∧ xs' ≠ [] := by
  cases op with
  | register e args =>
    obtain ⟨s', hs', -⟩ := newHookHandle_registered hb.wellFormed.toListed hok.1 hok.2.1 args
    obtain ⟨info', td', hb', hrelocated, -⟩ := hb.register hok hs'
    exact ⟨s', info', td', _, hs', hb', hrelocated, by simp⟩
  | setEnabled p enabled =>
    obtain ⟨h, hh, -⟩ := exists_handle_of_field hok
    refine ⟨_, info, td, xs, ?_, hb.switch hh enabled, rfl, ?_⟩
    · simp [applyOp, setEnabledExt, hh]
    · exact List.ne_nil_of_mem ((hb.wellFormed.live p).mp hok)
  | setEnabledAll p enabled =>
    obtain ⟨h, hh, hinfo⟩ := exists_handle_of_field hok
    have hw := hb.wellFormed
    have hne : xs ≠ [] := List.ne_nil_of_mem ((hw.live p).mp hok)
    have hd := hb.dispatch hne
    refine ⟨s.setTrampolineData info.trampoline { td with enabled := enabled }, info,
      { td with enabled := enabled }, xs, ?_,
      ⟨⟨⟨hw.null, hw.id, hw.hasInfo, Function.update_self .., hw.next, hw.count, hw.root, hw.live⟩,
        hw.previous⟩, fun _ => ⟨hd.backups, hd.entry, hd.hookOnly, hd.posts⟩,
        fun h => absurd h hne, hb.backup⟩, rfl, hne⟩
    subst hinfo
    have hid : h.info ≠ 0 := hw.id
    rw [applyOp, setEnabledAllExt, hh, Option.bind_eq_bind, Option.bind_some, if_neg hid]
    simp [hw.hasInfo, hw.hasData]

/-- A removal sets the backup only where the data have no hook. -/
theorem unhookData_hookBackup (hb : td.hook ≠ 0 → td.backup = 0) (h : HookHandleExt)
    (isRoot : Bool) (previous newBackup : Word) :
    (unhookData td h isRoot previous newBackup).hook ≠ 0 →
      (unhookData td h isRoot previous newBackup).backup = 0 := by
  rw [Unregistered.unhookData_hook, Unregistered.unhookData_backup]
  intro hhook
  have htd : td.hook ≠ 0 := by
    intro hzero
    split_ifs at hhook with hc
    · exact hc.1 (hc.2.symm.trans hzero)
    · exact hhook hzero
  rw [if_neg, hb htd]
  rintro ⟨hne, heq⟩
  exact hne (heq.symm.trans (hb htd))

theorem built_unhook (hb : Built s i info td xs) (hp : s.infoOf p = some i)
    (hlast : s.nextOf p = some 0) (hroot : info.rootHandle ≠ p) :
    ∃ s' info' td' xs', unhookExt e s p = some (true, s') ∧ Built s' i info' td' xs' ∧
      info'.relocated = info.relocated ∧ xs' ≠ [] := by
  have hw := hb.wellFormed
  obtain ⟨ys, zs, rfl⟩ := List.append_of_mem ((hw.live p).mp hp)
  obtain ⟨h, hh, -⟩ := exists_handle_of_field hp
  obtain ⟨u, hu, hseg⟩ := seg_append.mp hw.next
  obtain ⟨rfl, r, hr, hrest⟩ := hseg
  obtain rfl := Option.some.inj (hlast.symm.trans hr)
  have hzs : zs = [] := Seg.eq_nil (field_null hw.null) hrest
  subst hzs
  have hys : ys ≠ [] := by
    rintro rfl
    exact hroot hu
  obtain ⟨s', hs', hun⟩ := unhookExt_unregistered (e := e) hw.toListed (by simpa using hys) hh
    (hw.back hh)
  refine ⟨s', _, _, _, hs', ⟨hun.wellFormed hw, fun hne => ?_, fun h => absurd h (by simpa using hys),
    unhookData_hookBackup hb.backup h _ _ _⟩, rfl, by simpa using hys⟩
  exact hun.dispatch_of_ne (hb.dispatch (by simp)) (by simp) hw.nodup (by simpa using hys) hh

theorem built_stackOp {op : StackOp} (hb : Built s i info td xs) (hok : Stacked i s op) :
    ∃ s' info' td' xs', applyStackOp i op s = some s' ∧ Built s' i info' td' xs' ∧
      info'.relocated = info.relocated ∧ xs' ≠ [] := by
  cases op with
  | keep op => exact built_apply hb hok
  | unhook e p =>
    obtain ⟨hp, hlast, hroot⟩ := hok
    obtain ⟨s', info', td', xs', hs', hb'⟩ := built_unhook hb hp hlast
      (hroot info hb.wellFormed.hasInfo)
    exact ⟨s', info', td', xs', by rw [applyStackOp, hs', Option.map_some], hb'⟩

theorem built_run (ops : List StackOp) (hb : Built s i info td xs)
    (hok : Allowed (applyStackOp i) (Stacked i) s ops) :
    ∃ s' info' td' xs', result (applyStackOp i) s ops = some s' ∧ Built s' i info' td' xs' ∧
      info'.relocated = info.relocated ∧ (xs ≠ [] ∨ ops ≠ [] → xs' ≠ []) := by
  induction ops generalizing s info td xs with
  | nil => exact ⟨s, info, td, xs, rfl, hb, rfl, fun h => h.resolve_right fun h => h rfl⟩
  | cons op ops ih =>
    obtain ⟨hop, hops⟩ := hok
    obtain ⟨t, info₁, td₁, xs₁, ht, hb₁, hrelocated₁, hne₁⟩ := built_stackOp hb hop
    obtain ⟨s', info', td', xs', hs', hb', hrelocated, hne⟩ := ih hb₁ (hops t ht)
    refine ⟨s', info', td', xs', ?_, hb', hrelocated.trans hrelocated₁, fun _ => hne (.inl hne₁)⟩
    rw [result, ht, Option.bind_some, hs']

end Process
end Rv64Hook
