import Rv64Hook.SecondTrampoline.PostHandlers

/-! Whole invocations of the second trampoline: what is called, in which state control leaves it, and
where it returns to. -/
namespace Rv64Hook
open ByteMem Rv64 Asm LinkedList

namespace SecondTrampoline

variable {Ω : Type} {e : Setting Ω} {c : Cpu Ω} {td : TrampolineData}
  {handles : Word → Option HookHandleExt} {xs : List Word} {fuel : ℕ}

theorem frameBase_setReg (c : Cpu Ω) {r : Reg} (hr : r ≠ sp) (v : Word) :
    frameBase (c.setReg r v) = frameBase c :=
  congrArg (· - BitVec.ofNat 64 frameSize) (Core.reg_setReg_of_ne hr.symm)

theorem Entered.setReg (h : Entered e c td handles xs) {r : Reg} (hr : r ≠ sp) (v : Word) :
    Entered e (c.setReg r v) td handles xs where
  image := h.image.congr fun q _ => congrFun (Core.setReg_mem ..) q
  null := h.null
  linked := h.linked
  nonempty := h.nonempty
  apart := by
    rw [frameBase_setReg c hr]
    exact h.apart
  obeys := h.obeys

/-- With handlers, an invocation comes to the restoration of the registers. -/
theorem trampoline_handled (h : Entered e c td handles xs) (henabled : td.enabled = true)
    (hhook : td.hook = 0) (hfuel : xs.length ≤ fuel) :
    ∃ p handlers keys, trampoline e fuel c = popPreRegisters e fuel p ∧
      InFrame e (frameBase c) td handles xs p ∧
      PreHandled e (c.setReg t3 0) td handles xs handlers keys p := by
  obtain ⟨p, handlers, keys, hrun, hin, hpre⟩ :=
    callRegisterHandlers_spec (h.setReg (r := t3) (by decide) 0) hfuel
  rw [frameBase_setReg c (by decide)] at hin
  refine ⟨p, handlers, keys, ?_, hin, hpre⟩
  rw [trampoline_entry h.image, henabled, hhook, if_neg (by decide), if_neg (not_not.mpr rfl)]
  exact hrun

/-- A handle with both handlers, the data of a trampoline for it, and callees that return at once. -/
def sampleHandle : HookHandleExt where
  address := 0
  backup := 0
  info := 0
  previous := 0
  next := 0
  hook := 0
  preHandler := 0x5000
  postHandler := 0x6000
  data := 0x7000
  userBackupAddr := 0
  enabled := true

def sampleHandles (p : Word) : Option HookHandleExt := if p = 0x1000 then some sampleHandle else none

def sampleData (posts : BitVec 16) (getspecific setspecific : Word) : TrampolineData where
  rootHandle := 0x1000
  backup := 0x2000
  getspecific := getspecific
  setspecific := setspecific
  tlsKey := 1
  postHandlers := posts
  enabled := true

def sampleSetting : Setting Word where
  data := 0x3000
  vector := true
  link := fun _ => 0
  callee := fun site _ c =>
    match site with
    | .setspecific => { c with rest := { c.rest with rest := c.reg a1 } }
    | .getspecific => c.setReg a0 c.rest.rest
    | _ => c

def sampleMemory (td : TrampolineData) : Mem :=
  store (store (fun _ => 0) 0x3000 (toBytes 8 td.rootHandle ++ toBytes 8 td.hook ++
      toBytes 8 td.backup ++ toBytes 8 td.getspecific ++ toBytes 8 td.setspecific ++
      toBytes 4 td.tlsKey ++ toBytes 2 td.postHandlers ++ [if td.enabled then 1 else 0]))
    0x1030 (toBytes 8 sampleHandle.preHandler ++ toBytes 8 sampleHandle.postHandler ++
      toBytes 8 sampleHandle.data ++ toBytes 8 (0 : Word) ++ [1])

def sampleCpu (td : TrampolineData) : Cpu Word where
  x := fun r => if r = sp then 0x9000 else if r = ra then 0x8000 else 0
  f := fun _ => 0
  rest := ⟨fun _ => 0, 0⟩
  mem := sampleMemory td

theorem sample_entered {td : TrampolineData} (hroot : td.rootHandle = 0x1000)
    (hdata : DataAt (sampleMemory td) 0x3000 td)
    (hhandle : HandleAt (sampleMemory td) 0x1000 sampleHandle) :
    Entered sampleSetting (sampleCpu td) td sampleHandles [0x1000] where
  image := by
    refine ⟨hdata, fun x hx h hh => ?_⟩
    rw [List.mem_singleton] at hx
    subst hx
    obtain rfl : sampleHandle = h := Option.some.inj hh
    exact hhandle
  null := rfl
  linked := by
    rw [hroot]
    exact ⟨rfl, 0, rfl, rfl⟩
  nonempty := by simp
  apart := by
    intro p hp hin
    have hsp : (sampleCpu td).reg sp = 0x9000 := rfl
    have hin' : (p - (0x9000 - 520)).toNat < 520 := by
      rw [frameBase, hsp] at hin
      exact hin
    rcases hp with hp | ⟨x, hx, hp⟩
    · have hp' : (p - 0x3000).toNat < 48 := hp
      bv_omega
    · rw [List.mem_singleton] at hx
      subst hx
      have hp' : (p - 0x1000).toNat < 88 := hp
      bv_omega
  obeys := by constructor <;> rintro (_ | _ | _ | _ | _) <;> intros <;> rfl

theorem sample_keepsSlot (site : Site) (j : ℕ) : KeepsSlot sampleSetting site j := by
  rintro target c
  cases site with
  | getspecific => exact congrArg (slotAt · _ j) (Core.setReg_mem ..)
  | _ => rfl

theorem sample_entered_key (posts : BitVec 16) (hposts : posts = 0 ∨ posts = 1) :
    Entered sampleSetting (sampleCpu (sampleData posts 0x100 0x200)) (sampleData posts 0x100 0x200)
      sampleHandles [0x1000] := by
  rcases hposts with rfl | rfl <;>
    exact sample_entered rfl (by constructor <;> decide) (by constructor <;> decide)

/-- Without post handlers the handlers are called and the registers are those of the context: by the
slot of `t3` control goes to the backup, or returns. -/
theorem trampoline_without_post (h : Entered e c td handles xs) (henabled : td.enabled = true)
    (hhook : td.hook = 0) (hposts : td.postHandlers = 0) (hfuel : xs.length ≤ fuel) :
    ∃ p handlers keys d, PreHandled e (c.setReg t3 0) td handles xs handlers keys p ∧
      Restored p.cpu.mem (frameBase c) d ∧
      trampoline e fuel c = some (if slotAt p.cpu.mem (frameBase c) 28 = 0
        then ⟨p.calls, false, td.backup, d.setReg t3 td.backup⟩
        else ⟨p.calls, true, slotAt p.cpu.mem (frameBase c) 1, d⟩) := by
  obtain ⟨p, handlers, keys, hrun, hin, hpre⟩ := trampoline_handled h henabled hhook hfuel
  by_cases ht3 : slotAt p.cpu.mem (frameBase c) 28 = 0
  · obtain ⟨d, hd, -, hpop⟩ := popPreRegisters_goes_on fuel hin ht3
    refine ⟨p, handlers, keys, d, hpre, hd, ?_⟩
    rw [hrun, hpop, if_pos hposts, if_pos ht3]
  · obtain ⟨d, hpop, hd, -⟩ := popPreRegisters_returns fuel hin ht3
    refine ⟨p, handlers, keys, d, hpre, hd, ?_⟩
    rw [hrun, hpop, if_neg ht3]

/-- The call of the backup, with the registers of the context. -/
def backupCall (e : Setting Ω) (td : TrampolineData) (d : Cpu Ω) : Called Ω :=
  ⟨.backup, td.backup, (d.setReg t3 td.backup).setReg ra (e.link .backup)⟩

theorem backupCall_reg (e : Setting Ω) (td : TrampolineData) (d : Cpu Ω) {r : Reg} (hra : r ≠ ra)
    (ht3 : r ≠ t3) : (backupCall e td d).cpu.reg r = d.reg r :=
  (Core.reg_setReg_of_ne hra).trans (Core.reg_setReg_of_ne ht3)

theorem backupCall_mem (e : Setting Ω) (td : TrampolineData) (d : Cpu Ω) :
    (backupCall e td d).cpu.mem = d.mem :=
  (Core.setReg_mem ..).trans (Core.setReg_mem ..)

theorem backupCall_rest (e : Setting Ω) (td : TrampolineData) (d : Cpu Ω) :
    (backupCall e td d).cpu.rest = d.rest :=
  (Core.setReg_rest ..).trans (Core.setReg_rest ..)

/-- With post handlers and the slot of `t3` empty, the backup is called, and the post handlers get
what it has left. With the slot filled, neither is called. -/
theorem trampoline_with_post (h : Entered e c td handles xs) (henabled : td.enabled = true)
    (hhook : td.hook = 0) (hposts : td.postHandlers ≠ 0) (hsp : KeepsSlot e .preHandler 2)
    (hfuel : xs.length ≤ fuel) :
    ∃ p handlers keys d, PreHandled e (c.setReg t3 0) td handles xs handlers keys p ∧
      Restored p.cpu.mem (frameBase c) d ∧ d.rest = p.cpu.rest ∧
      (slotAt p.cpu.mem (frameBase c) 28 ≠ 0 →
        trampoline e fuel c = some ⟨p.calls, true, slotAt p.cpu.mem (frameBase c) 1, d⟩) ∧
      (slotAt p.cpu.mem (frameBase c) 28 = 0 → ∃ out keys' handlers' value,
        trampoline e fuel c = some out ∧
        out.calls = p.calls ++ [backupCall e td d] ++ keys' ++ handlers' ∧
        frameBase ((backupCall e td d).after e) = frameBase c ∧
        PostHandled e ((backupCall e td d).after e) td handles xs keys' handlers' value out) := by
  obtain ⟨p, handlers, keys, hrun, hin, hpre⟩ := trampoline_handled h henabled hhook hfuel
  by_cases ht3 : slotAt p.cpu.mem (frameBase c) 28 = 0
  · obtain ⟨d, hd, hrest, hpop⟩ := popPreRegisters_goes_on fuel hin ht3
    refine ⟨p, handlers, keys, d, hpre, hd, hrest, fun hne => absurd ht3 hne, fun _ => ?_⟩
    let k := backupCall e td d
    -- the stack pointer of the context is the one of the entry
    have hslot : slotAt p.cpu.mem (frameBase c) 2 = c.reg sp := by
      have hkept := hpre.kept 2 (by decide) (by decide) hsp
      rw [frameBase_setReg c (by decide)] at hkept
      exact hkept.trans (Core.reg_setReg_of_ne (by decide))
    have hdsp : d.reg sp = c.reg sp := (hd.reg (r := sp) (by decide)).trans hslot
    have hksp : k.cpu.reg sp = c.reg sp :=
      (backupCall_reg e td d (by decide) (by decide)).trans hdsp
    have hafter : (k.after e).reg sp = c.reg sp := (h.obeys.sp ..).trans hksp
    have hbase : frameBase (k.after e) = frameBase c :=
      congrArg (· - BitVec.ofNat 64 frameSize) hafter
    have hmem : k.cpu.mem = p.cpu.mem := (backupCall_mem e td d).trans hd.mem
    have hentered : Entered e (k.after e) td handles xs := by
      refine ⟨hin.image.congr fun q hq => ?_, h.null, h.linked, h.nonempty, ?_, h.obeys⟩
      · exact (h.obeys.occupied _ _ _ q hq).trans (congrFun hmem q)
      · rw [hbase]
        exact h.apart
    obtain ⟨out, keys', handlers', value, hout, hcalls, hpost⟩ :=
      callPostRegisterHandlers_spec hentered hfuel (p.calls ++ [k])
    refine ⟨out, keys', handlers', value, ?_, hcalls, hbase, hpost⟩
    have hjalr : (⟨p.calls, d.setReg t3 td.backup⟩ : Progress Ω).jalr e .backup =
        ⟨p.calls ++ [k], k.after e⟩ := by
      unfold Progress.jalr
      dsimp only
      rw [show (d.setReg t3 td.backup).reg t3 = td.backup from Core.reg_setReg_self (by decide)]
      rfl
    rw [hrun, hpop, if_neg hposts, hjalr]
    exact hout
  · obtain ⟨d, hpop, hd, hrest⟩ := popPreRegisters_returns fuel hin ht3
    exact ⟨p, handlers, keys, d, hpre, hd, hrest, fun _ => hrun.trans hpop, fun h => absurd h ht3⟩

/-- A whole invocation: where the trampoline goes, what it has called, and with which registers. -/
theorem invocation (h : Entered e c td handles xs) (hsp : KeepsSlot e .preHandler 2)
    (hfuel : xs.length ≤ fuel) :
    ∃ out, trampoline e fuel c = some out ∧
      (td.enabled = false → out = ⟨[], false, td.backup, c.setReg t3 td.backup⟩) ∧
      (td.enabled = true → td.hook ≠ 0 → out = ⟨[], false, td.hook, c.setReg t3 td.hook⟩) ∧
      (td.enabled = true → td.hook = 0 → ∃ p handlers keys d,
        PreHandled e (c.setReg t3 0) td handles xs handlers keys p ∧
        Restored p.cpu.mem (frameBase c) d ∧
        (slotAt p.cpu.mem (frameBase c) 28 ≠ 0 →
          out = ⟨p.calls, true, slotAt p.cpu.mem (frameBase c) 1, d⟩) ∧
        (slotAt p.cpu.mem (frameBase c) 28 = 0 → td.postHandlers = 0 →
          out = ⟨p.calls, false, td.backup, d.setReg t3 td.backup⟩) ∧
        (slotAt p.cpu.mem (frameBase c) 28 = 0 → td.postHandlers ≠ 0 → ∃ keys' handlers' value,
          out.calls = p.calls ++ [backupCall e td d] ++ keys' ++ handlers' ∧
          frameBase ((backupCall e td d).after e) = frameBase c ∧
          PostHandled e ((backupCall e td d).after e) td handles xs keys' handlers' value out)) := by
  cases henabled : td.enabled with
  | false =>
    refine ⟨_, ?_, fun _ => rfl, nofun, nofun⟩
    rw [trampoline_entry h.image, if_pos henabled]
  | true =>
    by_cases hhook : td.hook = 0
    · by_cases hposts : td.postHandlers = 0
      · obtain ⟨p, handlers, keys, d, hpre, hd, hrun⟩ :=
          trampoline_without_post h henabled hhook hposts hfuel
        refine ⟨_, hrun, nofun, fun _ hne => absurd hhook hne,
          fun _ _ => ⟨p, handlers, keys, d, hpre, hd, ?_, ?_, fun _ hne => absurd hposts hne⟩⟩
        · exact fun ht3 => if_neg ht3
        · exact fun ht3 _ => if_pos ht3
      · obtain ⟨p, handlers, keys, d, hpre, hd, -, hstop, hgo⟩ :=
          trampoline_with_post h henabled hhook hposts hsp hfuel
        by_cases ht3 : slotAt p.cpu.mem (frameBase c) 28 = 0
        · obtain ⟨out, keys', handlers', value, hrun, hcalls, hframe, hpost⟩ := hgo ht3
          exact ⟨out, hrun, nofun, fun _ hne => absurd hhook hne,
            fun _ _ => ⟨p, handlers, keys, d, hpre, hd, fun hne => absurd ht3 hne,
              fun _ hzero => absurd hzero hposts,
              fun _ _ => ⟨keys', handlers', value, hcalls, hframe, hpost⟩⟩⟩
        · exact ⟨_, hstop ht3, nofun, fun _ hne => absurd hhook hne,
            fun _ _ => ⟨p, handlers, keys, d, hpre, hd, fun _ => rfl, fun hzero => absurd hzero ht3,
              fun hzero => absurd hzero ht3⟩⟩
    · refine ⟨_, ?_, nofun, fun _ _ => rfl, fun _ hzero => absurd hzero hhook⟩
      rw [trampoline_entry h.image, if_neg (by simp [henabled]), if_pos hhook]

theorem invocation_sample : ∃ out p handlers keys,
    trampoline sampleSetting 1 (sampleCpu (sampleData 1 0x100 0x200)) = some out ∧
      PreHandled sampleSetting ((sampleCpu (sampleData 1 0x100 0x200)).setReg t3 0)
        (sampleData 1 0x100 0x200) sampleHandles [0x1000] handlers keys p := by
  obtain ⟨out, hrun, -, -, hhandled⟩ := invocation (sample_entered_key 1 (.inr rfl))
    (sample_keepsSlot .preHandler 2) (le_refl 1)
  obtain ⟨p, handlers, keys, d, hpre, -⟩ := hhandled rfl rfl
  exact ⟨out, p, handlers, keys, hrun, hpre⟩

/-! ### Return addresses -/

/-- The functions of the thread library, as far as the key of the trampoline goes. -/
structure Key (e : Setting Ω) (td : TrampolineData) (tls : Ext Ω → Word) : Prop where
  set : ∀ c, c.reg a0 = td.tlsKey.signExtend 64 →
    tls (e.callee .setspecific td.setspecific c).rest = c.reg a1
  get : ∀ c, c.reg a0 = td.tlsKey.signExtend 64 →
    (e.callee .getspecific td.getspecific c).reg a0 = tls c.rest
  keeps : KeepsRest e .getspecific tls

/-- A function with post handlers, whose handlers leave the return address, the stack pointer and
`t3` of the context alone. -/
structure Instrumented (e : Setting Ω) (td : TrampolineData) : Prop where
  enabled : td.enabled = true
  hook : td.hook = 0
  posts : td.postHandlers ≠ 0
  preRa : KeepsSlot e .preHandler 1
  preSp : KeepsSlot e .preHandler 2
  preT3 : KeepsSlot e .preHandler 28
  postRa : KeepsSlot e .postHandler 1

/-- An invocation that calls the backup and returns. -/
structure Passed (e : Setting Ω) (c : Cpu Ω) (td : TrampolineData) (fuel : ℕ) (k : Called Ω)
    (out : Finished Ω) : Prop where
  run : trampoline e fuel c = some out
  backup : k ∈ out.calls ∧ k.site = .backup
  target : k.target = td.backup
  x : ∀ r : Reg, r ≠ 0 → r ≠ Rv64.ra → r ≠ t3 → KeepsSlot e .preHandler r.toNat →
    k.cpu.x r = c.x r
  f : ∀ r : Reg, KeepsSlot e .preHandler (32 + r.toNat) → k.cpu.f r = c.f r
  returned : out.returned = true
  backX : ∀ r : Reg, r ≠ 0 → r ≠ Rv64.ra → KeepsSlot e .postHandler r.toNat →
    out.cpu.x r = (k.after e).x r
  backF : ∀ r : Reg, KeepsSlot e .postHandler (32 + r.toNat) → out.cpu.f r = (k.after e).f r
  only : ∀ j ∈ out.calls, j.site = .backup → j = k
  withKey : ∀ tls, Key e td tls → td.setspecific ≠ 0 → td.getspecific ≠ 0 →
    tls k.cpu.rest = c.reg Rv64.ra ∧ out.target = tls (k.after e).rest
  ra : slotAt k.cpu.mem (frameBase c) 1 = c.reg Rv64.ra
  vector : td.setspecific = 0 → e.vector = true → k.cpu.rest.v v28 = c.reg Rv64.ra
  withoutKey : td.getspecific = 0 → out.target =
    if e.vector then (k.after e).rest.v v28 else slotAt (k.after e).mem (frameBase c) 1
  rest : ∀ f, KeepsRest e .getspecific f → KeepsRest e .postHandler f →
    f out.cpu.rest = f (k.after e).rest

theorem site_of_handlerCalls {site : Site} {b : Word} {handlers : List (Called Ω)}
    (h : handlers.map Called.handlerCall = handlerCalls site b handles xs) :
    ∀ k ∈ handlers, k.site = site ∧ k.cpu.reg sp = b := by
  intro k hk
  have hmem : k.handlerCall ∈ handlerCalls site b handles xs := h ▸ List.mem_map_of_mem hk
  obtain ⟨x, -, hx⟩ := List.mem_filterMap.mp hmem
  obtain ⟨g, -, hg⟩ := Option.bind_eq_some_iff.mp hx
  split_ifs at hg
  have heq := Option.some.inj hg
  exact ⟨(congrArg HandlerCall.site heq).symm, (congrArg HandlerCall.sp heq).symm⟩

/-- The stack pointer at the calls before the restoration of the registers. -/
theorem PreHandled.site {handlers keys : List (Called Ω)} {p : Progress Ω}
    (h : PreHandled e c td handles xs handlers keys p) :
    ∀ k ∈ p.calls, k.site ≠ .backup ∧ k.cpu.reg sp = frameBase c := by
  intro k hk
  rw [h.calls] at hk
  rcases List.mem_append.mp hk with hk | hk
  · obtain ⟨hsite, hsp⟩ := site_of_handlerCalls h.dispatched k hk
    exact ⟨by simp [hsite], hsp⟩
  · by_cases hkey : td.setspecific = 0
    · rw [(h.withoutKey hkey).1] at hk
      cases hk
    · obtain ⟨j, hkeys, hj, -⟩ := h.withKey hkey
      rw [hkeys, List.mem_singleton] at hk
      subst hk
      exact ⟨by simp [hj.site], hj.sp⟩

/-- The stack pointer at the calls after the backup. -/
theorem PostHandled.site {handlers keys : List (Called Ω)} {value : Word} {out : Finished Ω}
    (h : PostHandled e c td handles xs keys handlers value out) :
    ∀ k ∈ keys ++ handlers, k.site ≠ .backup ∧ k.cpu.reg sp = frameBase c := by
  intro k hk
  rcases List.mem_append.mp hk with hk | hk
  · by_cases hkey : td.getspecific = 0
    · rw [(h.withoutKey hkey).1] at hk
      cases hk
    · obtain ⟨j, hkeys, hj, -⟩ := h.withKey hkey
      rw [hkeys, List.mem_singleton] at hk
      subst hk
      exact ⟨by simp [hj.site], hj.sp⟩
  · obtain ⟨hsite, hsp⟩ := site_of_handlerCalls h.dispatched k hk
    exact ⟨by simp [hsite], hsp⟩

theorem trampoline_passes (h : Entered e c td handles xs) (hi : Instrumented e td)
    (hfuel : xs.length ≤ fuel) : ∃ k out, Passed e c td fuel k out := by
  obtain ⟨p, handlers, keys, d, hpre, hd, hrest, -, hgo⟩ :=
    trampoline_with_post h hi.enabled hi.hook hi.posts hi.preSp hfuel
  have hbase : frameBase (c.setReg t3 0) = frameBase c := frameBase_setReg c (by decide) 0
  have hra : slotAt p.cpu.mem (frameBase c) 1 = c.reg ra := by
    have hkept := hpre.kept 1 (by decide) (by decide) hi.preRa
    rw [hbase] at hkept
    exact hkept.trans (Core.reg_setReg_of_ne (by decide))
  have ht3 : slotAt p.cpu.mem (frameBase c) 28 = 0 := by
    have hkept := hpre.kept 28 (by decide) (by decide) hi.preT3
    rw [hbase] at hkept
    exact hkept.trans (Core.reg_setReg_self (by decide))
  obtain ⟨out, keys', handlers', value, hrun, hcalls, hframe, hpost⟩ := hgo ht3
  let k := backupCall e td d
  have htarget : out.target = value := by
    rw [hpost.target]
    exact hpost.keptRa hi.postRa
  have hslot : slotAt k.cpu.mem (frameBase c) 1 = c.reg ra := by
    rw [show k.cpu.mem = p.cpu.mem from (backupCall_mem e td d).trans hd.mem]
    exact hra
  have hx : ∀ r : Reg, r ≠ 0 → r ≠ ra → r ≠ t3 → KeepsSlot e .preHandler r.toNat →
      k.cpu.x r = c.x r := by
    intro r h0 hra ht3 hkeep
    have hlt : r.toNat < 32 := r.isLt
    have hpos : r.toNat ≠ 0 := fun h => h0 (BitVec.eq_of_toNat_eq h)
    have hkept := hpre.kept r.toNat (by omega) (by omega) hkeep
    rw [hbase, slotOf_x] at hkept
    have hreg : k.cpu.reg r = c.reg r := by
      rw [backupCall_reg e td d hra ht3, hd.reg h0]
      exact hkept.trans (Core.reg_setReg_of_ne ht3)
    rw [← Core.reg_of_ne h0, ← Core.reg_of_ne h0]
    exact hreg
  have hf : ∀ r : Reg, KeepsSlot e .preHandler (32 + r.toNat) → k.cpu.f r = c.f r := by
    intro r hkeep
    have hlt : r.toNat < 32 := r.isLt
    have hkept := hpre.kept (32 + r.toNat) (by omega) (by omega) hkeep
    rw [hbase, slotOf_f] at hkept
    have hkf : k.cpu.f = d.f := (Core.setReg_f ..).trans (Core.setReg_f ..)
    rw [hkf, hd.f r, hkept]
    exact congrFun (Core.setReg_f ..) r
  have hbackX : ∀ r : Reg, r ≠ 0 → r ≠ ra → KeepsSlot e .postHandler r.toNat →
      out.cpu.x r = (k.after e).x r := by
    intro r h0 hra hkeep
    have hlt : r.toNat < 32 := r.isLt
    have hpos : r.toNat ≠ 0 := fun h => h0 (BitVec.eq_of_toNat_eq h)
    have hne : r.toNat ≠ 1 := fun h => hra (BitVec.eq_of_toNat_eq h)
    rw [hpost.restored.x r h0, hpost.kept r.toNat (by omega) (by omega) hkeep, slotOf_x]
    exact Core.reg_of_ne h0
  have hbackF : ∀ r : Reg, KeepsSlot e .postHandler (32 + r.toNat) →
      out.cpu.f r = (k.after e).f r := by
    intro r hkeep
    have hlt : r.toNat < 32 := r.isLt
    rw [hpost.restored.f r, hpost.kept (32 + r.toNat) (by omega) (by omega) hkeep, slotOf_f]
    rfl
  refine ⟨k, out, hrun, ⟨?_, rfl⟩, rfl, hx, hf, hpost.returned, hbackX, hbackF,
    fun j hj hsite => ?_, ?_, hslot, ?_, ?_, hpost.rest⟩
  · rw [hcalls]
    simp [k]
  · rw [hcalls, List.append_assoc, List.append_assoc] at hj
    rcases List.mem_append.mp hj with hj | hj
    · exact absurd hsite (hpre.site j hj).1
    · rcases List.mem_append.mp hj with hj | hj
      · exact List.mem_singleton.mp hj
      · exact absurd hsite (hpost.site j hj).1
  · intro tls hkey hset hget
    obtain ⟨j, -, hstores, hcpu⟩ := hpre.withKey hset
    obtain ⟨j', -, hloads, hrest', hvalue⟩ := hpost.withKey hget
    constructor
    · rw [backupCall_rest, hrest, hcpu, Called.after, hstores.site, hstores.target,
        hkey.set _ hstores.key, hstores.value, hbase, hra]
    · rw [htarget, hvalue, Called.after, hloads.site, hloads.target, hkey.get _ hloads.key, hrest']
  · intro hset hvector
    have hv := (hpre.withoutKey hset).2 hvector
    rw [hbase, hra] at hv
    rw [backupCall_rest, hrest]
    exact hv
  · intro hget
    rw [htarget, (hpost.withoutKey hget).2, hframe]

theorem sample_instrumented (getspecific setspecific : Word) :
    Instrumented sampleSetting (sampleData 1 getspecific setspecific) :=
  ⟨rfl, rfl, (by decide : (1 : BitVec 16) ≠ 0), sample_keepsSlot _ _, sample_keepsSlot _ _,
    sample_keepsSlot _ _, sample_keepsSlot _ _⟩

theorem sample_key (td : TrampolineData) : Key sampleSetting td fun s => s.rest where
  set _ _ := rfl
  get _ _ := Core.reg_setReg_self (by decide)
  keeps _ _ := congrArg Ext.rest (Core.setReg_rest ..)

/-- Without a key the way back hangs on what the backup leaves in `v28`, in the vector build, and else
on a word that is below its stack pointer. -/
theorem return_address_without_key (h : Entered e c td handles xs) (hi : Instrumented e td)
    (hset : td.setspecific = 0) (hget : td.getspecific = 0) (hfuel : xs.length ≤ fuel) :
    ∃ k out, Passed e c td fuel k out ∧
      (out.target = c.reg ra ↔
        if e.vector then (k.after e).rest.v v28 = k.cpu.rest.v v28
        else slotAt (k.after e).mem (frameBase c) 1 = slotAt k.cpu.mem (frameBase c) 1) := by
  obtain ⟨k, out, hp⟩ := trampoline_passes h hi hfuel
  refine ⟨k, out, hp, ?_⟩
  rw [hp.withoutKey hget, hp.ra]
  cases hvector : e.vector with
  | true =>
    rw [hp.vector hset hvector]
    simp
  | false => simp

theorem return_address_without_key_sample : ∃ k out,
    Passed sampleSetting (sampleCpu (sampleData 1 0 0)) (sampleData 1 0 0) 1 k out ∧
      (out.target = 0x8000 ↔ (k.after sampleSetting).rest.v v28 = k.cpu.rest.v v28) := by
  have hentered : Entered sampleSetting (sampleCpu (sampleData 1 0 0)) (sampleData 1 0 0)
      sampleHandles [0x1000] :=
    sample_entered rfl (by constructor <;> decide) (by constructor <;> decide)
  obtain ⟨k, out, hp, hiff⟩ :=
    return_address_without_key hentered (sample_instrumented 0 0) rfl rfl (le_refl 1)
  exact ⟨k, out, hp, hiff⟩

/-- The return address of the invocation that is started last, among one and those that its backup
leads to: after the last of these the backup leaves the key alone. -/
inductive LastRa (e : Setting Ω) (td : TrampolineData) (fuel : ℕ) (tls : Ext Ω → Word) :
    Cpu Ω → Word → Prop
  | alone {c k out} : Passed e c td fuel k out → tls (k.after e).rest = tls k.cpu.rest →
    LastRa e td fuel tls c (c.reg ra)
  | nested {c k out c' k' out' v} : Passed e c td fuel k out → LastRa e td fuel tls c' v →
    Passed e c' td fuel k' out' → tls (k.after e).rest = tls out'.cpu.rest →
    LastRa e td fuel tls c v

theorem Passed.unique {k k' : Called Ω} {out out' : Finished Ω} (h : Passed e c td fuel k out)
    (h' : Passed e c td fuel k' out') : k' = k ∧ out' = out := by
  obtain rfl : out' = out := Option.some.inj (h'.run.symm.trans h.run)
  exact ⟨h.only k' h'.backup.1 h'.backup.2, rfl⟩

end SecondTrampoline
end Rv64Hook
