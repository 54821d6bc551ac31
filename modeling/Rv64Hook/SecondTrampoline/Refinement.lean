import Rv64Hook.SecondTrampoline.Runs
import Rv64Hook.Hooks.Switches

/-! The second trampoline on the data that the hook handles keep: a call of a hooked function goes where
its registrations and switches say. -/
namespace Rv64Hook
open ByteMem Rv64 Asm LinkedList Calls

namespace SecondTrampoline

variable {Ω : Type} {e : Setting Ω} {c : Cpu Ω} {td : TrampolineData} {s : Process} {i : Word}
  {info : HookInfo} {a : Hooked} {fuel : ℕ} {site : Site}

/-- The handler of a registration at one of the two sites. -/
def handlerOf (site : Site) (args : HookArgs) : Word :=
  match site with
  | .preHandler => args.preHandler
  | _ => args.postHandler

/-- The calls for the registrations that are enabled and have a handler, in their order. -/
def registeredCalls (site : Site) (b : Word) (a : Hooked) : List HandlerCall :=
  a.registrations.filterMap fun r =>
    if r.enabled = true ∧ handlerOf site r.args ≠ 0 then
      some ⟨site, handlerOf site r.args, b + 8, r.handle, r.args.data, b⟩
    else none

theorem handlerCalls_eq (hr : Process.Refines s i info td a) (site : Site) (b : Word) :
    handlerCalls site b s.handles a.handles = registeredCalls site b a := by
  unfold handlerCalls registeredCalls Hooked.handles
  rw [List.filterMap_map]
  refine List.filterMap_congr fun r hmem => ?_
  obtain ⟨h, hh, hsettings⟩ := Process.exists_handle_of_field (hr.settings r hmem)
  obtain ⟨-, h2, h3, h4, h5⟩ : h.hook = r.args.hook ∧ h.preHandler = r.args.preHandler ∧
      h.postHandler = r.args.postHandler ∧ h.data = r.args.data ∧ h.enabled = r.enabled := by
    simpa [Process.settings, Registration.settings] using hsettings
  have hhandler : handlerAt site h = handlerOf site r.args := by
    cases site with
    | preHandler => exact h2
    | _ => exact h3
  dsimp only [Function.comp_apply]
  rw [hh, Option.bind_some, hhandler, h4, h5]

/-- Post handlers are called for exactly when a registration has one. -/
theorem postHandlers_eq_zero_iff (hr : Process.Refines s i info td a) (ha : a.registrations ≠ []) :
    td.postHandlers = 0 ↔ ∀ r ∈ a.registrations, r.args.postHandler = 0 := by
  have hposts := (hr.built.dispatch (Process.Refines.handles_ne_nil ha)).posts
  have hzero : td.postHandlers = 0 ↔ td.postHandlers.toNat = 0 :=
    ⟨fun h => by rw [h]; rfl, fun h => BitVec.eq_of_toNat_eq h⟩
  rw [hzero, hposts, List.countP_eq_zero, Hooked.handles, List.forall_mem_map]
  refine forall₂_congr fun r hmem => ?_
  obtain ⟨h, hh, hsettings⟩ := Process.exists_handle_of_field (hr.settings r hmem)
  have hpost : s.postHandlerOf r.handle = r.args.postHandler :=
    (Process.valueOf_eq hh).trans (congrArg (fun v => v.2.2.1) hsettings)
  rw [hpost]
  simp

/-- What a call of the hooked function does, from its entry to where control leaves the trampoline. -/
structure Follows (e : Setting Ω) (c : Cpu Ω) (a : Hooked) (out : Finished Ω) : Prop where
  disabled : a.enabled = false →
    out.calls = [] ∧ out.returned = false ∧ out.target = if ∀ k ∈ a.hooks, k ≠ 0 then 0 else a.target
  hooks : a.enabled = true → (∀ k ∈ a.hooks, k ≠ 0) →
    out.calls = [] ∧ out.returned = false ∧ out.target = a.target
  instruments : a.enabled = true → (∃ k ∈ a.hooks, k = 0) →
    (∀ r ∈ a.registrations, r.args.postHandler = 0) →
    out.returned = false ∧ out.target = a.target ∧ ∃ pre keys, out.calls = pre ++ keys ∧
      pre.map Called.handlerCall = registeredCalls .preHandler (frameBase c) a ∧
      ∀ k ∈ keys, k.site = .setspecific
  posts : a.enabled = true → (∃ k ∈ a.hooks, k = 0) →
    (∃ r ∈ a.registrations, r.args.postHandler ≠ 0) →
    out.returned = true ∧ ∃ pre keys k keys' post,
      out.calls = pre ++ keys ++ [k] ++ keys' ++ post ∧
      pre.map Called.handlerCall = registeredCalls .preHandler (frameBase c) a ∧
      (∀ k ∈ keys, k.site = .setspecific) ∧ k.site = .backup ∧ k.target = a.target ∧
      (∀ k ∈ keys', k.site = .getspecific) ∧
      post.map Called.handlerCall = registeredCalls .postHandler (frameBase c) a

theorem PreHandled.keys {handles : Word → Option HookHandleExt} {xs : List Word}
    {handlers keys : List (Called Ω)} {p : Progress Ω}
    (h : PreHandled e c td handles xs handlers keys p) : ∀ k ∈ keys, k.site = .setspecific := by
  intro k hk
  by_cases hkey : td.setspecific = 0
  · rw [(h.withoutKey hkey).1] at hk
    cases hk
  · obtain ⟨j, hkeys, hj, -⟩ := h.withKey hkey
    rw [hkeys, List.mem_singleton] at hk
    rw [hk]
    exact hj.site

theorem PostHandled.keys {handles : Word → Option HookHandleExt} {xs : List Word}
    {handlers keys : List (Called Ω)} {value : Word} {out : Finished Ω}
    (h : PostHandled e c td handles xs keys handlers value out) :
    ∀ k ∈ keys, k.site = .getspecific := by
  intro k hk
  by_cases hkey : td.getspecific = 0
  · rw [(h.withoutKey hkey).1] at hk
    cases hk
  · obtain ⟨j, hkeys, hj, -⟩ := h.withKey hkey
    rw [hkeys, List.mem_singleton] at hk
    rw [hk]
    exact hj.site

theorem entered_of_refines (hr : Process.Refines s i info td a) (ha : a.registrations ≠ [])
    (himage : ImageAt c.mem e.data td s.handles a.handles)
    (hapart : ∀ p, Occupied e.data a.handles p → ¬ InRange (frameBase c) frameSize p)
    (hobeys : Obeys e (Occupied e.data a.handles)) : Entered e c td s.handles a.handles where
  image := himage
  null := hr.built.wellFormed.null
  linked := by
    rw [hr.built.wellFormed.root]
    exact hr.built.wellFormed.next
  nonempty := Process.Refines.handles_ne_nil ha
  apart := hapart
  obeys := hobeys

/-- On the data of a hooked function, the code does what the registrations and switches say. -/
theorem follows_of_refines (hr : Process.Refines s i info td a) (ha : a.registrations ≠ [])
    (h : Entered e c td s.handles a.handles) (hsp : KeepsSlot e .preHandler 2)
    (ht3 : KeepsSlot e .preHandler 28) (hfuel : a.registrations.length ≤ fuel) :
    ∃ out, trampoline e fuel c = some out ∧ Follows e c a out := by
  have hlen : a.handles.length ≤ fuel := by
    rw [Hooked.handles, List.length_map]
    exact hfuel
  have hbase : frameBase (c.setReg t3 0) = frameBase c := frameBase_setReg c (by decide) 0
  cases henabled : td.enabled with
  | false =>
    have hoff : a.enabled = false := (hr.enabled ha).symm.trans henabled
    refine ⟨⟨[], false, td.backup, c.setReg t3 td.backup⟩, ?_, ?_⟩
    · rw [trampoline_entry h.image, if_pos henabled]
    · refine ⟨fun _ => ⟨rfl, rfl, hr.backup ha⟩, ?_, ?_, ?_⟩ <;>
        exact fun hon => absurd (hoff.symm.trans hon) (by decide)
  | true =>
    have hon : a.enabled = true := (hr.enabled ha).symm.trans henabled
    have hnotOff : ¬ a.enabled = false := by simp [hon]
    by_cases hhook : td.hook = 0
    · have hsome : ¬ ∀ k ∈ a.hooks, k ≠ 0 := fun hall => (hr.hookOnly ha).mpr hall hhook
      have htarget : td.backup = a.target := (hr.backup ha).trans (if_neg hsome)
      have hslot : ∀ {handlers keys p}, PreHandled e (c.setReg t3 0) td s.handles a.handles handlers
          keys p → slotAt p.cpu.mem (frameBase c) 28 = 0 := by
        intro handlers keys p hpre
        have hkept := hpre.kept 28 (by decide) (by decide) ht3
        rw [hbase] at hkept
        exact hkept.trans (Core.reg_setReg_self (by decide))
      by_cases hposts : td.postHandlers = 0
      · obtain ⟨p, handlers, keys, d, hpre, -, hrun⟩ :=
          trampoline_without_post h henabled hhook hposts hlen
        rw [if_pos (hslot hpre)] at hrun
        have hnone := (postHandlers_eq_zero_iff hr ha).mp hposts
        refine ⟨_, hrun, fun hoff => absurd hoff hnotOff, fun _ hall => absurd hall hsome,
          fun _ _ _ => ⟨rfl, htarget, handlers, keys, hpre.calls, ?_, hpre.keys⟩, ?_⟩
        · rw [hpre.dispatched, hbase, handlerCalls_eq hr]
        · rintro - - ⟨r, hmem, hne⟩
          exact absurd (hnone r hmem) hne
      · obtain ⟨p, handlers, keys, d, hpre, -, -, -, hgo⟩ :=
          trampoline_with_post h henabled hhook hposts hsp hlen
        obtain ⟨out, keys', handlers', value, hrun, hcalls, hframe, hpost⟩ := hgo (hslot hpre)
        refine ⟨out, hrun, fun hoff => absurd hoff hnotOff, fun _ hall => absurd hall hsome,
          fun _ _ hnone => absurd ((postHandlers_eq_zero_iff hr ha).mpr hnone) hposts,
          fun _ _ _ => ⟨hpost.returned, handlers, keys, backupCall e td d, keys', handlers', ?_, ?_,
            hpre.keys, rfl, htarget, hpost.keys, ?_⟩⟩
        · rw [hcalls, hpre.calls]
        · rw [hpre.dispatched, hbase, handlerCalls_eq hr]
        · rw [hpost.dispatched, hframe, handlerCalls_eq hr]
    · have hall := (hr.hookOnly ha).mp hhook
      have htarget : td.hook = a.target := by
        have hentry := hr.entry ha
        rwa [Process.entryTarget, if_pos hhook] at hentry
      refine ⟨⟨[], false, td.hook, c.setReg t3 td.hook⟩, ?_, fun hoff => absurd hoff hnotOff,
        fun _ _ => ⟨rfl, rfl, htarget⟩, ?_, ?_⟩
      · rw [trampoline_entry h.image, if_neg (by simp [henabled]), if_pos hhook]
      · rintro - ⟨k, hk, hzero⟩
        exact absurd hzero (hall k hk)
      · rintro - ⟨k, hk, hzero⟩
        exact absurd hzero (hall k hk)

section Runs
variable {s₀ : Process} {info₀ : HookInfo} {ops : List HookedOp}

theorem refines_of_listed (hl : Process.Listed s₀ i info₀ {} [])
    (hok : Allowed (Process.applyOp i) (Process.Applicable i) s₀ ops) :
    ∃ s info td, result (Process.applyOp i) s₀ ops = some s ∧
      Process.Refines s i info td (ops.foldl Hooked.apply ⟨info₀.relocated, [], false⟩) := by
  have hr₀ : Process.Refines s₀ i info₀ {} ⟨info₀.relocated, [], false⟩ :=
    ⟨Process.built_nil hl, rfl, nofun, fun h => absurd rfl h, fun h => absurd rfl h⟩
  exact Process.refines_run ops hr₀ hok

/-- Whatever has been registered and switched, a call of the function on an image of the objects
follows the registrations. -/
theorem hooked_function_follows (hl : Process.Listed s₀ i info₀ {} [])
    (hok : Allowed (Process.applyOp i) (Process.Applicable i) s₀ ops)
    (ha : (ops.foldl Hooked.apply ⟨info₀.relocated, [], false⟩).registrations ≠ []) :
    ∃ s info td a, result (Process.applyOp i) s₀ ops = some s ∧
      a = ops.foldl Hooked.apply ⟨info₀.relocated, [], false⟩ ∧ s.infos i = some info ∧
      s.trampolines info.trampoline = some td ∧
      ∀ (e : Setting Ω) (c : Cpu Ω) (fuel : ℕ), ImageAt c.mem e.data td s.handles a.handles →
        (∀ p, Occupied e.data a.handles p → ¬ InRange (frameBase c) frameSize p) →
        Obeys e (Occupied e.data a.handles) → KeepsSlot e .preHandler 2 →
        KeepsSlot e .preHandler 28 → a.registrations.length ≤ fuel →
        ∃ out, trampoline e fuel c = some out ∧ Follows e c a out := by
  obtain ⟨s, info, td, hs, hr⟩ := refines_of_listed hl hok
  refine ⟨s, info, td, _, hs, rfl, hr.built.wellFormed.hasInfo, hr.built.wellFormed.hasData, ?_⟩
  intro e c fuel himage hapart hobeys hsp ht3 hfuel
  exact follows_of_refines hr ha (entered_of_refines hr ha himage hapart hobeys) hsp ht3 hfuel

/-- One instrument, switched on or off. -/
def sampleOps (enabled : Bool) : List HookedOp :=
  [.register (Process.sampleSystem 0x1000)
      { preHandler := 0x5000, postHandler := 0x6000, data := 0x7000 },
    .setEnabledAll 0x1000 enabled]

def sampleRegistered (enabled : Bool) : TrampolineData where
  rootHandle := 0x1000
  backup := 0x3000
  postHandlers := 1
  enabled := enabled

theorem sampleOps_allowed (enabled : Bool) : Allowed (Process.applyOp 0x10) (Process.Applicable 0x10)
    Process.sampleProcess (sampleOps enabled) := by
  refine ⟨⟨rfl, by decide, fun h => absurd rfl h, fun info hinfo => ?_⟩, fun t ht => ⟨?_,
    fun _ _ => trivial⟩⟩
  · obtain rfl := Option.some.inj (hinfo.symm.trans Process.sampleProcess_listed.hasInfo)
    decide
  · obtain rfl := Option.some.inj (ht.symm.trans rfl)
    rfl

theorem sampleRegistered_image (enabled : Bool) :
    Entered sampleSetting (sampleCpu (sampleRegistered enabled)) (sampleRegistered enabled)
      sampleHandles [0x1000] := by
  cases enabled <;> exact sample_entered rfl (by constructor <;> decide) (by constructor <;> decide)

theorem hooked_function_follows_sample : ∃ out,
    trampoline sampleSetting 1 (sampleCpu (sampleRegistered true)) = some out ∧
      Follows sampleSetting (sampleCpu (sampleRegistered true))
        ((sampleOps true).foldl Hooked.apply ⟨0x3000, [], false⟩) out := by
  obtain ⟨s, info, td, a, hs, rfl, hinfo, hdata, hfollows⟩ :=
    hooked_function_follows Process.sampleProcess_listed (sampleOps_allowed true)
      (by simp [sampleOps, Hooked.apply, Hooked.register])
  obtain rfl := Option.some.inj (hs.symm.trans rfl)
  obtain rfl := Option.some.inj (hinfo.symm.trans rfl)
  obtain rfl : sampleRegistered true = td := Option.some.inj hdata
  have hentered := sampleRegistered_image true
  refine hfollows sampleSetting (sampleCpu (sampleRegistered true)) 1 ⟨hentered.image.data, ?_⟩
    hentered.apart hentered.obeys (sample_keepsSlot _ 2) (sample_keepsSlot _ 28) le_rfl
  intro x hx h hh
  obtain rfl : x = 0x1000 := by simpa [sampleOps, Hooked.apply, Hooked.register, Hooked.handles,
    Process.sampleSystem] using hx
  obtain rfl := Option.some.inj (hh.symm.trans rfl)
  constructor <;> decide

theorem target_ne_zero {a : Hooked} (h : a.relocated ≠ 0) : a.target ≠ 0 :=
  Process.lastHook_ne_zero h a.hooks

/-- The last hook is the original exactly when there is no hook. -/
theorem target_eq_relocated_iff {a : Hooked} (h : ∀ k ∈ a.hooks, k ≠ a.relocated) :
    a.target = a.relocated ↔ ∀ k ∈ a.hooks, k = 0 := by
  constructor
  · intro heq k hk
    by_contra hne
    obtain ⟨-, hmem, -⟩ := Process.lastHook_of_hook ⟨k, hk, hne⟩ a.relocated
    exact h _ hmem heq
  · exact fun hall => Process.lastHook_eq_self hall

theorem foldl_relocated (ops : List HookedOp) (a : Hooked) :
    (ops.foldl Hooked.apply a).relocated = a.relocated := by
  induction ops generalizing a with
  | nil => rfl
  | cons op ops ih =>
    rw [List.foldl_cons, ih]
    cases op <;> rfl

/-- While the function is disabled, a call jumps to the last hook if some handle has none, and to the
null address if every handle has one. So it reaches the original only where there is no hook. -/
theorem disabled_target_iff (hl : Process.Listed s₀ i info₀ {} [])
    (hok : Allowed (Process.applyOp i) (Process.Applicable i) s₀ ops)
    (ha : (ops.foldl Hooked.apply ⟨info₀.relocated, [], false⟩).registrations ≠ [])
    (hoff : (ops.foldl Hooked.apply ⟨info₀.relocated, [], false⟩).enabled = false)
    (hrelocated : info₀.relocated ≠ 0)
    (hhooks : ∀ k ∈ (ops.foldl Hooked.apply ⟨info₀.relocated, [], false⟩).hooks,
      k ≠ (ops.foldl Hooked.apply ⟨info₀.relocated, [], false⟩).relocated) :
    ∃ s info td a, result (Process.applyOp i) s₀ ops = some s ∧
      a = ops.foldl Hooked.apply ⟨info₀.relocated, [], false⟩ ∧ s.infos i = some info ∧
      s.trampolines info.trampoline = some td ∧
      (∀ (e : Setting Ω) (c : Cpu Ω) (fuel : ℕ) (xs : List Word),
        ImageAt c.mem e.data td s.handles xs →
        trampoline e fuel c = some ⟨[], false, td.backup, c.setReg t3 td.backup⟩) ∧
      (td.backup = 0 ↔ ∀ k ∈ a.hooks, k ≠ 0) ∧
      (td.backup = a.relocated ↔ ∀ k ∈ a.hooks, k = 0) := by
  obtain ⟨s, info, td, hs, hr⟩ := refines_of_listed hl hok
  have hrel : (ops.foldl Hooked.apply ⟨info₀.relocated, [], false⟩).relocated = info₀.relocated :=
    foldl_relocated ops _
  have hne := hrel.symm ▸ hrelocated
  generalize ops.foldl Hooked.apply ⟨info₀.relocated, [], false⟩ = a at *
  have hnil : a.hooks ≠ [] := by simpa [Hooked.hooks] using ha
  obtain ⟨k₀, hk₀⟩ := List.exists_mem_of_ne_nil _ hnil
  refine ⟨s, info, td, a, hs, rfl, hr.built.wellFormed.hasInfo, hr.built.wellFormed.hasData, ?_, ?_, ?_⟩
  · intro e c fuel xs himage
    rw [trampoline_entry himage, if_pos ((hr.enabled ha).trans hoff)]
  · rw [hr.backup ha]
    split_ifs with hall
    · exact ⟨fun _ => hall, fun _ => rfl⟩
    · exact ⟨fun h => absurd h (target_ne_zero hne), fun h => absurd h hall⟩
  · rw [hr.backup ha]
    split_ifs with hall
    · exact ⟨fun h => absurd h.symm hne, fun h => absurd (h k₀ hk₀) (hall k₀ hk₀)⟩
    · exact target_eq_relocated_iff hhooks

theorem disabled_target_iff_sample :
    trampoline sampleSetting 0 (sampleCpu (sampleRegistered false)) =
      some ⟨[], false, 0x3000, (sampleCpu (sampleRegistered false)).setReg t3 0x3000⟩ := by
  have hhook : ∀ k ∈ ((sampleOps false).foldl Hooked.apply ⟨0x3000, [], false⟩).hooks, k = 0 := by
    simp [sampleOps, Hooked.apply, Hooked.register, Hooked.hooks]
  obtain ⟨s, info, td, a, hs, rfl, hinfo, hdata, hrun, -, htarget⟩ :=
    disabled_target_iff (Ω := Word) Process.sampleProcess_listed (sampleOps_allowed false)
      (by simp [sampleOps, Hooked.apply, Hooked.register])
      (by simp [sampleOps, Hooked.apply, Hooked.register]) (by decide)
      (fun k hk => by rw [hhook k hk]; exact show (0 : Word) ≠ 0x3000 by decide)
  obtain rfl := Option.some.inj (hs.symm.trans rfl)
  obtain rfl := Option.some.inj (hinfo.symm.trans rfl)
  obtain rfl : sampleRegistered false = td := Option.some.inj hdata
  exact hrun sampleSetting (sampleCpu (sampleRegistered false)) 0 []
    ⟨(sampleRegistered_image false).image.data, fun _ hx => absurd hx List.not_mem_nil⟩

end Runs

end SecondTrampoline
end Rv64Hook
