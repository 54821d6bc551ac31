import Rv64Hook.SecondTrampoline.Frame
import Rv64Hook.Hooks
import Rv64Hook.Lib.LinkedList

/-! The loops of the second trampoline over the handles. -/
namespace Rv64Hook
open ByteMem Rv64 Asm LinkedList

namespace SecondTrampoline

variable {Ω : Type}

/-- The object is in memory, as far as the trampoline reads it. -/
structure HandleAt (m : Mem) (p : Word) (h : HookHandleExt) : Prop where
  next : load 64 m (p + handleNext) = h.next
  preHandler : load 64 m (p + handlePreHandler) = h.preHandler
  postHandler : load 64 m (p + handlePostHandler) = h.postHandler
  data : load 64 m (p + handleData) = h.data
  enabled : load 8 m (p + handleEnabled) = if h.enabled then 1 else 0

/-- The handler that is called at one of the two sites. -/
def handlerAt (site : Site) (h : HookHandleExt) : Word :=
  match site with
  | .preHandler => h.preHandler
  | _ => h.postHandler

def handlerOffset (site : Site) : Word :=
  match site with
  | .preHandler => handlePreHandler
  | _ => handlePostHandler

/-- A call of a handler, with its arguments and the stack pointer. -/
structure HandlerCall where
  site : Site
  handler : Word
  ctx : Word
  handle : Word
  data : Word
  sp : Word

/-- What the callee finds in the argument registers. -/
def Called.handlerCall (k : Called Ω) : HandlerCall where
  site := k.site
  handler := k.target
  ctx := k.cpu.reg a0
  handle := k.cpu.reg a1
  data := k.cpu.reg a2
  sp := k.cpu.reg sp

/-- The calls for the enabled handles that have a handler, in the order of the list. -/
def handlerCalls (site : Site) (b : Word) (handles : Word → Option HookHandleExt)
    (xs : List Word) : List HandlerCall :=
  xs.filterMap fun x => (handles x).bind fun h =>
    if h.enabled = true ∧ handlerAt site h ≠ 0 then
      some ⟨site, handlerAt site h, b + 8, x, h.data, b⟩
    else none

/-- The states differ in what `callrh` uses: four registers, and the lowest slot of the frame. -/
structure Quiet (b : Word) (c d : Cpu Ω) : Prop where
  x : ∀ r, r ≠ a0 → r ≠ a1 → r ≠ a2 → r ≠ t3 → d.x r = c.x r
  f : d.f = c.f
  rest : d.rest = c.rest
  mem : ∀ p, ¬ InRange b 8 p → d.mem p = c.mem p

section Quiet
variable {b v : Word} {c d : Cpu Ω} {r : Reg}

theorem Quiet.trans {e : Cpu Ω} (h : Quiet b c d) (h' : Quiet b d e) : Quiet b c e :=
  ⟨fun r h0 h1 h2 h3 => (h'.x r h0 h1 h2 h3).trans (h.x r h0 h1 h2 h3), h'.f.trans h.f,
    h'.rest.trans h.rest, fun p hp => (h'.mem p hp).trans (h.mem p hp)⟩

theorem quiet_setReg (c : Cpu Ω) (b v : Word) (hr : r = a0 ∨ r = a1 ∨ r = a2 ∨ r = t3) :
    Quiet b c (c.setReg r v) := by
  refine ⟨fun q h0 h1 h2 h3 => Core.setReg_x_of_ne ?_, Core.setReg_f .., Core.setReg_rest ..,
    fun _ _ => congrFun (Core.setReg_mem ..) _⟩
  rintro rfl
  rcases hr with h | h | h | h
  · exact h0 h
  · exact h1 h
  · exact h2 h
  · exact h3 h

theorem quiet_store (c : Cpu Ω) (b v : Word) :
    Quiet b c { c with mem := store c.mem b (toBytes 8 v) } :=
  ⟨fun _ _ _ _ _ => rfl, rfl, rfl, fun _ hp =>
    store_of_not_inRange fun hin => hp (by rwa [length_toBytes] at hin)⟩

theorem Quiet.sp (h : Quiet b c d) : d.reg sp = c.reg sp :=
  h.x Rv64.sp (by decide) (by decide) (by decide) (by decide)

end Quiet

/-- What has to hold around the loop: the stack pointer stays at the frame, the handles stay in
memory, and a handler leaves the lowest slot alone. -/
structure LoopInvariant (e : Setting Ω) (site : Site) (b : Word)
    (handles : Word → Option HookHandleExt) (xs : List Word) (I : Progress Ω → Prop) : Prop where
  sp : ∀ p, I p → p.cpu.reg Rv64.sp = b
  image : ∀ p, I p → ∀ x ∈ xs, ∀ h, handles x = some h → HandleAt p.cpu.mem x h
  quiet : ∀ p c, I p → Quiet b p.cpu c → I { p with cpu := c }
  call : ∀ p, I p → ∀ x ∈ xs, ∀ h, handles x = some h → h.enabled = true → handlerAt site h ≠ 0 →
    p.cpu.reg t3 = handlerAt site h → p.cpu.reg a0 = b + 8 → p.cpu.reg a1 = x →
    p.cpu.reg a2 = h.data →
    I (p.jalr e site) ∧ slotAt (p.jalr e site).cpu.mem b 0 = slotAt p.cpu.mem b 0

section Loop
variable {e : Setting Ω} {site : Site} {b : Word} {handles : Word → Option HookHandleExt}
  {xs : List Word} {I : Progress Ω → Prop} {p : Progress Ω} {h : HookHandleExt} {x : Word}

theorem signExtend_enabled (enabled : Bool) :
    (if enabled then 1 else 0 : BitVec 8).signExtend 64 = (if enabled then 1 else 0 : Word) := by
  cases enabled <;> rfl

theorem HandleAt.handler (site : Site) {m : Mem} (hat : HandleAt m x h) :
    load 64 m (x + handlerOffset site) = handlerAt site h := by
  cases site with
  | preHandler => exact hat.preHandler
  | _ => exact hat.postHandler

/-- One round: the handler of the handle is called, or nothing is, and the next handle is loaded. -/
theorem callrhRound_spec (hI : LoopInvariant e site b handles xs I) (hp : I p) (hx : x ∈ xs)
    (hh : handles x = some h) (ha1 : p.cpu.reg a1 = x) :
    I (callrhRound e site (handlerOffset site) p) ∧
      (callrhRound e site (handlerOffset site) p).cpu.reg a1 = h.next ∧
      ∃ new, (callrhRound e site (handlerOffset site) p).calls = p.calls ++ new ∧
        new.map Called.handlerCall = handlerCalls site b handles [x] := by
  -- the next handle goes to the lowest slot, the flag to `t3`
  let c₁ := p.cpu.setReg t3 h.next
  let c₂ : Cpu Ω := { c₁ with mem := store c₁.mem b (toBytes 8 h.next) }
  let c₃ := c₂.setReg t3 (if h.enabled then 1 else 0)
  have hsp₁ : c₁.reg sp = b := (Core.reg_setReg_of_ne (by decide)).trans (hI.sp p hp)
  have hq₂ : Quiet b p.cpu c₂ := (quiet_setReg p.cpu b h.next (by simp)).trans (quiet_store c₁ b _)
  have hat₂ : HandleAt c₂.mem x h := hI.image _ (hI.quiet p c₂ hp hq₂) x hx h hh
  have ha1₁ : c₁.reg a1 = p.cpu.reg a1 := Core.reg_setReg_of_ne (by decide)
  have ha1₂ : c₂.reg a1 = x := ha1₁.trans ha1
  have hthree : p.execAll e [.ld t3 handleNext a1, .sd t3 0 sp, .lb t3 handleEnabled a1] =
      { p with cpu := c₃ } := by
    have h1 : exec e.data p.cpu (.ld t3 handleNext a1) = c₁ := by
      change p.cpu.setReg t3 ((load 64 p.cpu.mem (p.cpu.reg a1 + handleNext)).signExtend 64) = c₁
      rw [BitVec.signExtend_eq, ha1, (hI.image p hp x hx h hh).next]
    have h2 : exec e.data c₁ (.sd t3 0 sp) = c₂ := by
      change ({ c₁ with mem := store c₁.mem (c₁.reg sp + 0) (toBytes 8 (c₁.reg t3)) } : Cpu Ω) = c₂
      rw [hsp₁, show b + 0 = b from BitVec.add_zero b,
        show c₁.reg t3 = h.next from Core.reg_setReg_self (by decide)]
    have h3 : exec e.data c₂ (.lb t3 handleEnabled a1) = c₃ := by
      change c₂.setReg t3 ((load 8 c₂.mem (c₂.reg a1 + handleEnabled)).signExtend 64) = c₃
      rw [ha1₂, hat₂.enabled, signExtend_enabled]
    have hall : execAll e.data p.cpu
        [.ld t3 handleNext a1, .sd t3 0 sp, .lb t3 handleEnabled a1] = c₃ := by
      simp only [execAll, List.foldl_cons, List.foldl_nil, h1, h2, h3]
    exact congrArg (Progress.mk p.calls) hall
  have hq₃ : Quiet b p.cpu c₃ := hq₂.trans (quiet_setReg c₂ b _ (by simp))
  have hI₃ : I { p with cpu := c₃ } := hI.quiet p c₃ hp hq₃
  have hslot₃ : slotAt c₃.mem b 0 = h.next := by
    change slotAt (c₂.setReg t3 _).mem b 0 = _
    rw [Core.setReg_mem, slotAt, show b + BitVec.ofNat 64 (8 * 0) = b from BitVec.add_zero b]
    exact load_store_self _ _ _
  have ht3₃ : c₃.reg t3 = if h.enabled then 1 else 0 := Core.reg_setReg_self (by decide)
  -- the last load
  have hlast : ∀ q : Progress Ω, I q → slotAt q.cpu.mem b 0 = h.next →
      I (q.execAll e [.ld a1 0 sp]) ∧ (q.execAll e [.ld a1 0 sp]).cpu.reg a1 = h.next := by
    intro q hq hslot
    have hcpu : (q.execAll e [.ld a1 0 sp]).cpu = q.cpu.setReg a1 h.next := by
      change q.cpu.setReg a1 ((load 64 q.cpu.mem (q.cpu.reg sp + 0)).signExtend 64) = _
      rw [BitVec.signExtend_eq, hI.sp q hq]
      exact congrArg (q.cpu.setReg a1) hslot
    constructor
    · have hquiet := hI.quiet q _ hq (quiet_setReg q.cpu b h.next (.inr (.inl rfl)))
      rw [← hcpu] at hquiet
      exact hquiet
    · rw [hcpu]
      exact Core.reg_setReg_self (by decide)
  have hcalls : handlerCalls site b handles [x] =
      if h.enabled = true ∧ handlerAt site h ≠ 0 then
        [⟨site, handlerAt site h, b + 8, x, h.data, b⟩] else [] := by
    simp only [handlerCalls, List.filterMap_cons, List.filterMap_nil, hh, Option.bind_some]
    split_ifs <;> rfl
  unfold callrhRound
  dsimp only
  rw [hthree]
  dsimp only
  cases henabled : h.enabled with
  | false =>
    rw [henabled] at ht3₃ hcalls
    have hzero : c₃.reg t3 = 0 := ht3₃
    rw [if_pos hzero, hcalls, if_neg (fun h => Bool.false_ne_true h.1)]
    obtain ⟨hIq, hnext⟩ := hlast _ hI₃ hslot₃
    exact ⟨hIq, hnext, [], (List.append_nil _).symm, rfl⟩
  | true =>
    rw [henabled] at ht3₃ hcalls
    have hne : c₃.reg t3 ≠ 0 := by
      rw [ht3₃]
      decide
    rw [if_neg hne]
    -- the handler goes to `t3`
    let c₄ := c₃.setReg t3 (handlerAt site h)
    have hfour : ({ p with cpu := c₃ } : Progress Ω).execAll e [.ld t3 (handlerOffset site) a1] =
        { p with cpu := c₄ } := by
      have ha1₃ : c₃.reg a1 = x := (Core.reg_setReg_of_ne (by decide)).trans ha1₂
      have hload : exec e.data c₃ (.ld t3 (handlerOffset site) a1) = c₄ := by
        change c₃.setReg t3 ((load 64 c₃.mem (c₃.reg a1 + handlerOffset site)).signExtend 64) = c₄
        rw [BitVec.signExtend_eq, ha1₃, (hI.image _ hI₃ x hx h hh).handler site]
      exact congrArg (Progress.mk p.calls) hload
    have hq₄ : Quiet b c₃ c₄ := quiet_setReg c₃ b _ (by simp)
    have hI₄ : I { p with cpu := c₄ } := hI.quiet ⟨p.calls, c₃⟩ c₄ hI₃ hq₄
    have ht3₄ : c₄.reg t3 = handlerAt site h := Core.reg_setReg_self (by decide)
    have hslot₄ : slotAt c₄.mem b 0 = h.next := by
      change slotAt (c₃.setReg t3 _).mem b 0 = _
      rw [Core.setReg_mem]
      exact hslot₃
    rw [hfour]
    dsimp only
    by_cases hzero : handlerAt site h = 0
    · rw [if_pos (ht3₄.trans hzero), hcalls, if_neg (fun h => h.2 hzero)]
      obtain ⟨hIq, hnext⟩ := hlast _ hI₄ hslot₄
      exact ⟨hIq, hnext, [], (List.append_nil _).symm, rfl⟩
    · rw [if_neg (fun h => hzero (ht3₄.symm.trans h)), hcalls, if_pos ⟨rfl, hzero⟩]
      -- the arguments
      let c₅ := (c₄.setReg a0 (b + 8)).setReg a2 h.data
      have ha1₄ : c₄.reg a1 = x := (Core.reg_setReg_of_ne (by decide)).trans
        ((Core.reg_setReg_of_ne (by decide)).trans ha1₂)
      have hfive : ({ p with cpu := c₄ } : Progress Ω).execAll e
          [.addi a0 sp 8, .ld a2 handleData a1] = { p with cpu := c₅ } := by
        have h1 : exec e.data c₄ (.addi a0 sp 8) = c₄.setReg a0 (b + 8) := by
          change c₄.setReg a0 (c₄.reg sp + 8) = _
          rw [hI.sp _ hI₄]
        have h2 : exec e.data (c₄.setReg a0 (b + 8)) (.ld a2 handleData a1) = c₅ := by
          change Core.setReg _ a2 ((load 64 (c₄.setReg a0 (b + 8)).mem
            ((c₄.setReg a0 (b + 8)).reg a1 + handleData)).signExtend 64) = c₅
          rw [BitVec.signExtend_eq, Core.setReg_mem, Core.reg_setReg_of_ne (by decide), ha1₄,
            (hI.image _ hI₄ x hx h hh).data]
        have hall : execAll e.data c₄ [.addi a0 sp 8, .ld a2 handleData a1] = c₅ := by
          simp only [execAll, List.foldl_cons, List.foldl_nil, h1, h2]
        exact congrArg (Progress.mk p.calls) hall
      have hq₅ : Quiet b c₄ c₅ :=
        (quiet_setReg c₄ b _ (by simp)).trans (quiet_setReg _ b _ (by simp))
      have hI₅ : I { p with cpu := c₅ } := hI.quiet ⟨p.calls, c₄⟩ c₅ hI₄ hq₅
      have ha0₅ : c₅.reg a0 = b + 8 :=
        (Core.reg_setReg_of_ne (by decide)).trans (Core.reg_setReg_self (by decide))
      have ha1₅ : c₅.reg a1 = x := (Core.reg_setReg_of_ne (by decide)).trans
        ((Core.reg_setReg_of_ne (by decide)).trans ha1₄)
      have ha2₅ : c₅.reg a2 = h.data := Core.reg_setReg_self (by decide)
      have ht3₅ : c₅.reg t3 = handlerAt site h := (Core.reg_setReg_of_ne (by decide)).trans
        ((Core.reg_setReg_of_ne (by decide)).trans ht3₄)
      have hslot₅ : slotAt c₅.mem b 0 = h.next := by
        change slotAt ((c₄.setReg a0 (b + 8)).setReg a2 h.data).mem b 0 = _
        rw [Core.setReg_mem, Core.setReg_mem]
        exact hslot₄
      obtain ⟨hI₆, hslot₆⟩ := hI.call _ hI₅ x hx h hh henabled hzero ht3₅ ha0₅ ha1₅ ha2₅
      obtain ⟨hIq, hnext⟩ := hlast _ hI₆ (hslot₆.trans hslot₅)
      rw [hfive]
      refine ⟨hIq, hnext, [⟨site, c₅.reg t3, c₅.setReg ra (e.link site)⟩], rfl, ?_⟩
      have hlink : ∀ r, r ≠ ra → (c₅.setReg ra (e.link site)).reg r = c₅.reg r := fun r hr =>
        Core.reg_setReg_of_ne hr
      rw [List.map_singleton, Called.handlerCall, hlink a0 (by decide), hlink a1 (by decide),
        hlink a2 (by decide), hlink sp (by decide), ht3₅, ha0₅, ha1₅, ha2₅, hI.sp _ hI₅]

theorem handlerCalls_cons (site : Site) (b : Word) (handles : Word → Option HookHandleExt)
    (x : Word) (xs : List Word) :
    handlerCalls site b handles (x :: xs) =
      handlerCalls site b handles [x] ++ handlerCalls site b handles xs := by
  unfold handlerCalls
  rw [← List.filterMap_append]
  rfl

/-- The loop ends, and has called the handlers of the enabled handles in the order of the list. -/
theorem callrhLoop_spec {ys : List Word} {fuel : ℕ} {a : Word}
    (hI : LoopInvariant e site b handles xs I) (hp : I p) (hsub : ∀ y ∈ ys, y ∈ xs)
    (hnull : handles 0 = none) (hseg : Seg (fun x => (handles x).map (·.next)) a ys 0)
    (hne : ys ≠ []) (ha1 : p.cpu.reg a1 = a) (hfuel : ys.length ≤ fuel) :
    ∃ q new, callrhLoop e site (handlerOffset site) fuel p = some q ∧ I q ∧
      q.calls = p.calls ++ new ∧
      new.map Called.handlerCall = handlerCalls site b handles ys := by
  induction ys generalizing p a fuel with
  | nil => exact absurd rfl hne
  | cons y ys ih =>
    obtain ⟨rfl, r, hr, hrest⟩ := hseg
    obtain ⟨h, hh, hnext⟩ := Option.map_eq_some_iff.mp hr
    obtain ⟨fuel, rfl⟩ : ∃ n, fuel = n + 1 := ⟨fuel - 1, by simp at hfuel; omega⟩
    obtain ⟨hIq, hload, new, hcalls, hnew⟩ :=
      callrhRound_spec hI hp (hsub a List.mem_cons_self) hh ha1
    rw [hnext] at hload
    unfold callrhLoop
    dsimp only
    rw [hload]
    cases ys with
    | nil =>
      obtain rfl : r = 0 := hrest
      rw [if_neg (not_not.mpr rfl)]
      exact ⟨_, new, rfl, hIq, hcalls, hnew⟩
    | cons z zs =>
      have hr0 : r ≠ 0 := by
        rintro rfl
        obtain ⟨rfl, u, hu, -⟩ := hrest
        have hdead : (handles 0).map (·.next) = some u := hu
        rw [hnull] at hdead
        cases hdead
      rw [if_pos hr0]
      obtain ⟨q, new', hq, hI', hcalls', hnew'⟩ := ih hIq
        (fun y hy => hsub y (List.mem_cons_of_mem _ hy)) hrest (by simp) hload
        (Nat.le_of_succ_le_succ hfuel)
      refine ⟨q, new ++ new', hq, hI', ?_, ?_⟩
      · rw [hcalls', hcalls, List.append_assoc]
      · rw [List.map_append, hnew, hnew', ← handlerCalls_cons]

end Loop

end SecondTrampoline
end Rv64Hook
