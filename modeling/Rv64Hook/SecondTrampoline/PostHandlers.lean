import Rv64Hook.SecondTrampoline.Invocation

/-! The second half of an invocation of the second trampoline: the backup has returned. -/
namespace Rv64Hook
open ByteMem Rv64 Asm LinkedList

namespace SecondTrampoline

variable {Ω : Type}

/-- The call that loads the return address. -/
structure LoadsRa (td : TrampolineData) (b : Word) (k : Called Ω) : Prop where
  site : k.site = .getspecific
  target : k.target = td.getspecific
  key : k.cpu.reg a0 = td.tlsKey.signExtend 64
  sp : k.cpu.reg Rv64.sp = b

/-- Something beyond the scalar registers that the callees of a site leave alone. -/
def KeepsRest (e : Setting Ω) (site : Site) (f : Ext Ω → Word) : Prop :=
  ∀ target c, f (e.callee site target c).rest = f c.rest

/-- What `loadRa` does: only the slot of the return address changes. It gets what `getspecific`
returns; without a key, what `v28` holds in the vector build, and nothing in the other. -/
structure RaLoaded (e : Setting Ω) (td : TrampolineData) (b : Word) (p q : Progress Ω) : Prop where
  rest : ∀ f : Ext Ω → Word, KeepsRest e .getspecific f → f q.cpu.rest = f p.cpu.rest
  slots : ∀ k, k ≠ 1 → k < frameSlots → slotAt q.cpu.mem b k = slotAt p.cpu.mem b k
  withKey : td.getspecific ≠ 0 → ∃ k, q.calls = p.calls ++ [k] ∧ LoadsRa td b k ∧
    k.cpu.rest = p.cpu.rest ∧
    slotAt q.cpu.mem b 1 = (k.after e).reg a0
  withoutKey : td.getspecific = 0 → q.calls = p.calls ∧
    slotAt q.cpu.mem b 1 = if e.vector then p.cpu.rest.v v28 else slotAt p.cpu.mem b 1

section
variable {e : Setting Ω} {c d : Cpu Ω} {td : TrampolineData}
  {handles : Word → Option HookHandleExt} {xs : List Word} {p : Progress Ω} {b : Word} {fuel : ℕ}

/-- A word is stored in the slot of the return address. -/
theorem inFrame_store (hapart : ∀ q, Occupied e.data xs q → ¬ InRange b frameSize q)
    (hp : InFrame e b td handles xs p) (v : Word) {q : Progress Ω}
    (hq : q.cpu = { p.cpu with mem := store p.cpu.mem (b + BitVec.ofNat 64 (8 * 1)) (toBytes 8 v) }) :
    InFrame e b td handles xs q ∧ slotAt q.cpu.mem b 1 = v ∧
      ∀ k, k ≠ 1 → k < frameSlots → slotAt q.cpu.mem b k = slotAt p.cpu.mem b k := by
  refine ⟨⟨?_, ?_⟩, ?_, fun k h1 hk => ?_⟩
  · rw [hq]
    exact hp.sp
  · rw [hq]
    refine hp.image.congr fun a ha => store_of_not_inRange fun hin => hapart a ha ?_
    rw [length_toBytes] at hin
    exact (inRange_slot (k := 1) (by decide) hin).1
  · rw [hq]
    exact load_store_self _ _ _
  · have hk' : k < 65 := hk
    rw [hq]
    exact load_store_apart (by omega) (by omega) (by omega)

theorem stable_rest {site : Site} {f : Ext Ω → Word} (hkeep : KeepsRest e site f) (b value : Word) :
    Stable e site b fun p => f p.cpu.rest = value where
  quiet _ _ hp hq := (congrArg f hq.rest).trans hp
  call p hp _ := (hkeep _ _).trans ((congrArg f (Core.setReg_rest ..)).trans hp)

theorem loadRa_spec (ho : Obeys e (Occupied e.data xs))
    (hapart : ∀ q, Occupied e.data xs q → ¬ InRange b frameSize q)
    (hp : InFrame e b td handles xs p) :
    InFrame e b td handles xs (loadRa e p) ∧ RaLoaded e td b p (loadRa e p) := by
  have hfirst : p.execAll e [.loadSym 64 t3 dataGetspecific] =
      { p with cpu := p.cpu.setReg t3 td.getspecific } :=
    congrArg (Progress.mk p.calls) (exec_loadSym p.cpu t3 _ hp.image.data.getspecific)
  let c₁ := p.cpu.setReg t3 td.getspecific
  have hmem₁ : c₁.mem = p.cpu.mem := Core.setReg_mem ..
  have hrest₁ : c₁.rest = p.cpu.rest := Core.setReg_rest ..
  have hsp₁ : c₁.reg sp = b := (Core.reg_setReg_of_ne (by decide)).trans hp.sp
  have ht3₁ : c₁.reg t3 = td.getspecific := Core.reg_setReg_self (by decide)
  unfold loadRa
  dsimp only
  rw [hfirst]
  by_cases hkey : td.getspecific = 0
  · rw [if_pos (ht3₁.trans hkey)]
    cases hvector : e.vector with
    | true =>
      let v := p.cpu.rest.v v28
      let c₂ := c₁.setReg t3 v
      let c₃ : Cpu Ω :=
        { c₂ with mem := store c₂.mem (b + BitVec.ofNat 64 (8 * 1)) (toBytes 8 v) }
      have hmem₂ : c₂.mem = p.cpu.mem := (Core.setReg_mem ..).trans hmem₁
      have hsp₂ : c₂.reg sp = b := (Core.reg_setReg_of_ne (by decide)).trans hsp₁
      have hp₂ : InFrame e b td handles xs ⟨p.calls, c₂⟩ :=
        ⟨hsp₂, hp.image.congr fun q _ => congrFun hmem₂ q⟩
      have hall : ({ p with cpu := c₁ } : Progress Ω).execAll e
          [.vsetivli, .vmvXS t3 v28, .sd t3 (8 * 1) sp] = { p with cpu := c₃ } := by
        have h1 : exec e.data c₁ .vsetivli = c₁ := rfl
        have h2 : exec e.data c₁ (.vmvXS t3 v28) = c₂ := by
          change c₁.setReg t3 (c₁.rest.v v28) = _
          rw [hrest₁]
        have h3 : exec e.data c₂ (.sd t3 (8 * 1) sp) = c₃ := by
          change ({ c₂ with
            mem := store c₂.mem (c₂.reg sp + 8 * 1) (toBytes 8 (c₂.reg t3)) } : Cpu Ω) = _
          rw [hsp₂, show c₂.reg t3 = v from Core.reg_setReg_self (by decide)]
          rfl
        have hcpu : Asm.execAll e.data c₁ [.vsetivli, .vmvXS t3 v28, .sd t3 (8 * 1) sp] = c₃ := by
          simp only [Asm.execAll, List.foldl_cons, List.foldl_nil, h1, h2, h3]
        exact congrArg (Progress.mk p.calls) hcpu
      obtain ⟨hin, hslot, hslots⟩ := inFrame_store hapart hp₂ v (q := ⟨p.calls, c₃⟩) rfl
      rw [if_pos rfl, hall]
      have hrest₃ : c₃.rest = p.cpu.rest := (Core.setReg_rest ..).trans hrest₁
      refine ⟨hin, fun f _ => congrArg f hrest₃, fun k h1 hk => ?_, fun h => absurd hkey h,
        fun _ => ⟨rfl, ?_⟩⟩
      · have hkeep := hslots k h1 hk
        dsimp only at hkeep
        rw [hmem₂] at hkeep
        exact hkeep
      · rw [hvector, if_pos rfl]
        exact hslot
    | false =>
      rw [if_neg Bool.false_ne_true]
      let c₂ := c₁.setReg ra (c₁.f ft11)
      have hcpu : ({ p with cpu := c₁ } : Progress Ω).execAll e [.fmvXD ra ft11] =
          { p with cpu := c₂ } := rfl
      have hmem₂ : c₂.mem = p.cpu.mem := (Core.setReg_mem ..).trans hmem₁
      have hsp₂ : c₂.reg sp = b := (Core.reg_setReg_of_ne (by decide)).trans hsp₁
      have hslots : ∀ k, slotAt c₂.mem b k = slotAt p.cpu.mem b k := fun k =>
        congrArg (slotAt · b k) hmem₂
      have hrest₂ : c₂.rest = p.cpu.rest := (Core.setReg_rest ..).trans hrest₁
      rw [hcpu]
      refine ⟨⟨hsp₂, hp.image.congr fun q _ => congrFun hmem₂ q⟩, fun f _ => congrArg f hrest₂,
        fun k _ _ => hslots k, fun h => absurd hkey h, fun _ => ⟨rfl, ?_⟩⟩
      rw [hvector, if_neg Bool.false_ne_true]
      exact hslots 1
  · rw [if_neg fun h => hkey (ht3₁.symm.trans h)]
    let key : Word := td.tlsKey.signExtend 64
    let c₂ := c₁.setReg a0 key
    have hmem₂ : c₂.mem = p.cpu.mem := (Core.setReg_mem ..).trans hmem₁
    have hrest₂ : c₂.rest = p.cpu.rest := (Core.setReg_rest ..).trans hrest₁
    have hsp₂ : c₂.reg sp = b := (Core.reg_setReg_of_ne (by decide)).trans hsp₁
    have ht3₂ : c₂.reg t3 = td.getspecific := (Core.reg_setReg_of_ne (by decide)).trans ht3₁
    have ha0₂ : c₂.reg a0 = key := Core.reg_setReg_self (by decide)
    have hall : ({ p with cpu := c₁ } : Progress Ω).execAll e [.loadSym 32 a0 dataTlsKey] =
        { p with cpu := c₂ } := by
      have hcpu : exec e.data c₁ (.loadSym 32 a0 dataTlsKey) = c₂ := by
        change c₁.setReg a0 ((load 32 c₁.mem (e.data + dataTlsKey)).signExtend 64) = _
        rw [hmem₁, hp.image.data.tlsKey]
      exact congrArg (Progress.mk p.calls) hcpu
    have hp₂ : InFrame e b td handles xs { p with cpu := c₂ } :=
      ⟨hsp₂, hp.image.congr fun q _ => congrFun hmem₂ q⟩
    rw [hall]
    let k : Called Ω := ⟨.getspecific, c₂.reg t3, c₂.setReg ra (e.link .getspecific)⟩
    let d := e.callee .getspecific k.target k.cpu
    have hcall : ({ p with cpu := c₂ } : Progress Ω).jalr e .getspecific = ⟨p.calls ++ [k], d⟩ := rfl
    have hlink : ∀ r, r ≠ ra → k.cpu.reg r = c₂.reg r := fun r hr => Core.reg_setReg_of_ne hr
    have hkmem : k.cpu.mem = p.cpu.mem := (Core.setReg_mem ..).trans hmem₂
    have hksp : k.cpu.reg sp = b := (hlink sp (by decide)).trans hsp₂
    have hp₃ : InFrame e b td handles xs ⟨p.calls ++ [k], d⟩ := by
      rw [← hcall]
      exact (inFrame_jalr ho (by decide) hp₂).1
    have hstore : (⟨p.calls ++ [k], d⟩ : Progress Ω).execAll e [.sd a0 (8 * 1) sp] =
        ⟨p.calls ++ [k],
          { d with mem := store d.mem (b + BitVec.ofNat 64 (8 * 1)) (toBytes 8 (d.reg a0)) }⟩ := by
      have hcpu : exec e.data d (.sd a0 (8 * 1) sp) =
          { d with mem := store d.mem (b + BitVec.ofNat 64 (8 * 1)) (toBytes 8 (d.reg a0)) } := by
        change ({ d with
          mem := store d.mem (d.reg sp + 8 * 1) (toBytes 8 (d.reg a0)) } : Cpu Ω) = _
        rw [hp₃.sp]
        rfl
      exact congrArg (Progress.mk (p.calls ++ [k])) hcpu
    rw [hcall, hstore]
    obtain ⟨hin, hslot, hslots⟩ := inFrame_store hapart hp₃ (d.reg a0)
      (q := ⟨p.calls ++ [k],
        { d with mem := store d.mem (b + BitVec.ofNat 64 (8 * 1)) (toBytes 8 (d.reg a0)) }⟩) rfl
    have hframe : ∀ j < frameSlots, slotAt d.mem b j = slotAt p.cpu.mem b j := by
      intro j hj
      refine load_of_agree fun a ha => ?_
      have hkept := ho.key .getspecific k.target k.cpu a (.inr rfl)
        (hksp.symm ▸ (inRange_slot hj ha).1)
      exact hkept.trans (congrFun hkmem a)
    have hkrest : k.cpu.rest = p.cpu.rest := (Core.setReg_rest ..).trans hrest₂
    refine ⟨hin, fun f hf => (hf k.target k.cpu).trans (congrArg f hkrest),
      fun j h1 hj => (hslots j h1 hj).trans (hframe j hj), fun _ => ?_, fun h => absurd h hkey⟩
    exact ⟨k, rfl, ⟨rfl, ht3₂, (hlink a0 (by decide)).trans ha0₂, hksp⟩,
      hkrest, hslot⟩

/-- What has happened when the trampoline returns after the post handlers: the return address has been
loaded, the first post handler has found it and the registers that the backup has left, and the
registers are those of the context. -/
structure PostHandled (e : Setting Ω) (c : Cpu Ω) (td : TrampolineData)
    (handles : Word → Option HookHandleExt) (xs : List Word) (keys handlers : List (Called Ω))
    (value : Word) (out : Finished Ω) : Prop where
  returned : out.returned = true
  target : out.target = slotAt out.cpu.mem (frameBase c) 1
  restored : Restored out.cpu.mem (frameBase c) out.cpu
  dispatched :
    handlers.map Called.handlerCall = handlerCalls .postHandler (frameBase c) handles xs
  first : ∀ k ∈ handlers.head?, slotAt k.cpu.mem (frameBase c) 1 = value ∧
    ∀ j, 2 ≤ j → j < 64 → slotAt k.cpu.mem (frameBase c) j = (slotOf j).value c
  withKey : td.getspecific ≠ 0 → ∃ k, keys = [k] ∧ LoadsRa td (frameBase c) k ∧
    k.cpu.rest = c.rest ∧ value = (k.after e).reg a0
  withoutKey : td.getspecific = 0 → keys = [] ∧
    value = if e.vector then c.rest.v v28 else slotAt c.mem (frameBase c) 1
  rest : ∀ f : Ext Ω → Word, KeepsRest e .getspecific f → KeepsRest e .postHandler f →
    f out.cpu.rest = f c.rest
  keptRa : KeepsSlot e .postHandler 1 → slotAt out.cpu.mem (frameBase c) 1 = value
  kept : ∀ j, 2 ≤ j → j < 64 → KeepsSlot e .postHandler j →
    slotAt out.cpu.mem (frameBase c) j = (slotOf j).value c

theorem callPostRegisterHandlers_spec (h : Entered e c td handles xs) (hfuel : xs.length ≤ fuel)
    (calls : List (Called Ω)) :
    ∃ out keys handlers value,
      callPostRegisterHandlers e fuel
        (loadRa e ((⟨calls, c⟩ : Progress Ω).execAll e (sregs false))) = some out ∧
      out.calls = calls ++ keys ++ handlers ∧
      PostHandled e c td handles xs keys handlers value out := by
  have hsaved := sregs_saved e.data c false
  have hbegin : (⟨calls, c⟩ : Progress Ω).execAll e (sregs false) =
      ⟨calls, execAll e.data c (sregs false)⟩ := rfl
  rw [hbegin]
  generalize execAll e.data c (sregs false) = d at hsaved
  have hd : InFrame e (frameBase c) td handles xs ⟨calls, d⟩ :=
    ⟨hsaved.sp, h.image.congr fun q hq => hsaved.frame q (h.apart q hq)⟩
  obtain ⟨hin, hra⟩ := loadRa_spec h.obeys h.apart hd
  obtain ⟨q, handlers, hq, hin', hcalls, hhandlers, hstable⟩ :=
    callrh_spec h.obeys h.apart (show Site.postHandler ≠ .backup by decide) h.null h.linked
      h.nonempty hin hfuel
  let value := slotAt (loadRa e ⟨calls, d⟩).cpu.mem (frameBase c) 1
  have hslot : ∀ j, 2 ≤ j → j < 64 →
      slotAt (loadRa e ⟨calls, d⟩).cpu.mem (frameBase c) j = (slotOf j).value c := by
    intro j h2 hj
    have hmem : j ∈ savedSlots false := mem_savedSlots.mpr (.inr ⟨h2, hj⟩)
    rw [hra.slots j (by omega) (hj.trans (by decide)), hsaved.slots j (hj.trans (by decide)),
      if_pos hmem]
  have hbefore : FirstFinds (frameBase c) (fun j => slotAt (loadRa e ⟨calls, d⟩).cpu.mem (frameBase c) j)
      (loadRa e ⟨calls, d⟩).calls (loadRa e ⟨calls, d⟩) :=
    ⟨[], (List.append_nil _).symm, fun _ _ _ _ => rfl, nofun⟩
  have hfirst := (hstable _ (stable_first ..) hbefore).first hcalls
  -- the registers come back, and the code returns
  obtain ⟨hmem, hrest, hx, hf⟩ := pregs_restores e.data hin'.sp
  let last := execAll e.data q.cpu pregs
  let out : Finished Ω := ⟨q.calls, true, last.reg ra, last⟩
  have hrun : callPostRegisterHandlers e fuel (loadRa e ⟨calls, d⟩) = some out := by
    change (callrh e .postHandler (handlerOffset .postHandler) dataRootHandle fuel _).bind
      (fun p => some (p.execAll e pregs).ret) = _
    rw [hq]
    rfl
  have hrestored : Restored out.cpu.mem (frameBase c) out.cpu := by
    constructor
    · rfl
    · intro r hr
      change last.x r = slotAt last.mem _ _
      rw [show last.mem = q.cpu.mem from hmem]
      exact hx r hr
    · intro r
      change last.f r = slotAt last.mem _ _
      rw [show last.mem = q.cpu.mem from hmem]
      exact hf r
  have hkept : ∀ j, 1 ≤ j → j < 64 → KeepsSlot e .postHandler j →
      slotAt out.cpu.mem (frameBase c) j =
        slotAt (loadRa e ⟨calls, d⟩).cpu.mem (frameBase c) j := by
    intro j h1 hj hkeep
    have hslot := hstable _ (stable_slot h1 (hj.trans (by decide)) hkeep (frameBase c) _) rfl
    change slotAt last.mem _ _ = _
    rw [show last.mem = q.cpu.mem from hmem]
    exact hslot
  have hkeys : ∃ keys, (loadRa e ⟨calls, d⟩).calls = calls ++ keys ∧
      (td.getspecific ≠ 0 → ∃ k, keys = [k] ∧ LoadsRa td (frameBase c) k ∧ k.cpu.rest = c.rest ∧
        value = (k.after e).reg a0) ∧
      (td.getspecific = 0 → keys = [] ∧
        value = if e.vector then c.rest.v v28 else slotAt c.mem (frameBase c) 1) := by
    by_cases hkey : td.getspecific = 0
    · obtain ⟨hc, hvalue⟩ := hra.withoutKey hkey
      refine ⟨[], hc.trans (List.append_nil _).symm, fun h => absurd hkey h, fun _ => ⟨rfl, ?_⟩⟩
      have hstale : slotAt d.mem (frameBase c) 1 = slotAt c.mem (frameBase c) 1 := by
        rw [hsaved.slots 1 (by decide)]
        exact if_neg fun h => by simp [mem_savedSlots] at h
      dsimp only at hvalue
      rw [hsaved.rest, hstale] at hvalue
      exact hvalue
    · obtain ⟨k, hc, hloads, hrest, hvalue⟩ := hra.withKey hkey
      exact ⟨[k], hc, fun _ => ⟨k, rfl, hloads, hrest.trans hsaved.rest, hvalue⟩,
        fun h => absurd h hkey⟩
  obtain ⟨keys, hkeycalls, hwith, hwithout⟩ := hkeys
  have hlastRest : ∀ f : Ext Ω → Word, KeepsRest e .getspecific f → KeepsRest e .postHandler f →
      f out.cpu.rest = f c.rest := by
    intro f hget hpost
    have hloop := hstable _ (stable_rest hpost (frameBase c) _) rfl
    change f last.rest = _
    rw [show last.rest = q.cpu.rest from hrest]
    exact hloop.trans ((hra.rest f hget).trans (congrArg f hsaved.rest))
  refine ⟨out, keys, handlers, value, hrun, hcalls.trans (congrArg (· ++ handlers) hkeycalls), ?_⟩
  constructor
  · rfl
  · exact hrestored.reg (r := ra) (by decide)
  · exact hrestored
  · exact hhandlers
  · intro k hk
    refine ⟨hfirst k hk 1 le_rfl (by decide), fun j h2 hj => ?_⟩
    exact (hfirst k hk j (by omega) (hj.trans (by decide))).trans (hslot j h2 hj)
  · exact hwith
  · exact hwithout
  · exact hlastRest
  · exact hkept 1 le_rfl (by decide)
  · exact fun j h2 hj hkeep => (hkept j (by omega) hj hkeep).trans (hslot j h2 hj)

end

end SecondTrampoline
end Rv64Hook
