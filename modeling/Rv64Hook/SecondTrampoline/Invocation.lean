import Rv64Hook.SecondTrampoline.Handlers

/-! One invocation of the second trampoline, from its entry to the jump that leaves it. -/
namespace Rv64Hook
open ByteMem Rv64 Asm LinkedList

namespace SecondTrampoline

variable {Ω : Type}

/-- The data of the trampoline are in memory. -/
structure DataAt (m : Mem) (data : Word) (td : TrampolineData) : Prop where
  rootHandle : load 64 m (data + dataRootHandle) = td.rootHandle
  hook : load 64 m (data + dataHook) = td.hook
  backup : load 64 m (data + dataBackup) = td.backup
  getspecific : load 64 m (data + dataGetspecific) = td.getspecific
  setspecific : load 64 m (data + dataSetspecific) = td.setspecific
  tlsKey : load 32 m (data + dataTlsKey) = td.tlsKey
  postHandlers : load 16 m (data + dataPostHandlers) = td.postHandlers
  enabled : load 8 m (data + dataEnabled) = if td.enabled then 1 else 0

/-- The data and the handles are in memory. -/
structure ImageAt (m : Mem) (data : Word) (td : TrampolineData)
    (handles : Word → Option HookHandleExt) (xs : List Word) : Prop where
  data : DataAt m data td
  handles : ∀ x ∈ xs, ∀ h, handles x = some h → HandleAt m x h

/-- The bytes that the data and the handles are in. -/
def Occupied (data : Word) (xs : List Word) (p : Addr) : Prop :=
  InRange data 48 p ∨ ∃ x ∈ xs, InRange x 88 p

/-- The calling convention, as far as the trampoline relies on it: the stack pointer comes back, the
data and the handles stay, and of the frame a handler leaves the lowest slot alone, which is not in
its context; accesses to the key do not write to the frame. -/
structure Obeys (e : Setting Ω) (occupied : Addr → Prop) : Prop where
  sp : ∀ site target c, (e.callee site target c).reg Rv64.sp = c.reg Rv64.sp
  occupied : ∀ site target c p, occupied p → (e.callee site target c).mem p = c.mem p
  lowest : ∀ site target c, site ≠ .backup →
    slotAt (e.callee site target c).mem (c.reg Rv64.sp) 0 = slotAt c.mem (c.reg Rv64.sp) 0
  key : ∀ site target c p, site = .setspecific ∨ site = .getspecific →
    InRange (c.reg Rv64.sp) frameSize p → (e.callee site target c).mem p = c.mem p

/-- A function is entered whose trampoline has these data and these handles. -/
structure Entered (e : Setting Ω) (c : Cpu Ω) (td : TrampolineData)
    (handles : Word → Option HookHandleExt) (xs : List Word) : Prop where
  image : ImageAt c.mem e.data td handles xs
  null : handles 0 = none
  linked : Seg (fun x => (handles x).map (·.next)) td.rootHandle xs 0
  nonempty : xs ≠ []
  apart : ∀ p, Occupied e.data xs p → ¬ InRange (frameBase c) frameSize p
  obeys : Obeys e (Occupied e.data xs)

/-- The registers are those of the slots, and the memory has not changed. -/
structure Restored (m : Mem) (b : Word) (d : Cpu Ω) : Prop where
  mem : d.mem = m
  x : ∀ r : Reg, r ≠ 0 → d.x r = slotAt m b r.toNat
  f : ∀ r : Reg, d.f r = slotAt m b (32 + r.toNat)

section Image
variable {m m' : Mem} {data a : Word} {td : TrampolineData} {xs : List Word}
  {handles : Word → Option HookHandleExt} {h : HookHandleExt}

/-- A field of an object keeps its value with the bytes of the object. -/
theorem load_field {w size : ℕ} (off : Word) (hw : off.toNat + w / 8 ≤ size) (hsize : size ≤ 2 ^ 64)
    (h : ∀ p, InRange a size p → m' p = m p) : load w m' (a + off) = load w m (a + off) := by
  apply load_of_agree
  intro p hp
  apply h
  have hoff : off = BitVec.ofNat 64 off.toNat := by simp
  rw [hoff, inRange_offset (hw.trans hsize)] at hp
  exact hp.2.trans_le hw

theorem HandleAt.congr (hat : HandleAt m a h) (hm : ∀ p, InRange a 88 p → m' p = m p) :
    HandleAt m' a h where
  next := (load_field handleNext (by decide) (by decide) hm).trans hat.next
  preHandler := (load_field handlePreHandler (by decide) (by decide) hm).trans hat.preHandler
  postHandler := (load_field handlePostHandler (by decide) (by decide) hm).trans hat.postHandler
  data := (load_field handleData (by decide) (by decide) hm).trans hat.data
  enabled := (load_field handleEnabled (by decide) (by decide) hm).trans hat.enabled

theorem DataAt.congr (hat : DataAt m a td) (hm : ∀ p, InRange a 48 p → m' p = m p) :
    DataAt m' a td where
  rootHandle := (load_field dataRootHandle (by decide) (by decide) hm).trans hat.rootHandle
  hook := (load_field dataHook (by decide) (by decide) hm).trans hat.hook
  backup := (load_field dataBackup (by decide) (by decide) hm).trans hat.backup
  getspecific := (load_field dataGetspecific (by decide) (by decide) hm).trans hat.getspecific
  setspecific := (load_field dataSetspecific (by decide) (by decide) hm).trans hat.setspecific
  tlsKey := (load_field dataTlsKey (by decide) (by decide) hm).trans hat.tlsKey
  postHandlers := (load_field dataPostHandlers (by decide) (by decide) hm).trans hat.postHandlers
  enabled := (load_field dataEnabled (by decide) (by decide) hm).trans hat.enabled

theorem ImageAt.congr (hat : ImageAt m data td handles xs)
    (hm : ∀ p, Occupied data xs p → m' p = m p) : ImageAt m' data td handles xs where
  data := hat.data.congr fun p hp => hm p (.inl hp)
  handles x hx h hh := (hat.handles x hx h hh).congr fun p hp => hm p (.inr ⟨x, hx, hp⟩)

end Image

section Invocation
variable {e : Setting Ω} {c d : Cpu Ω} {td : TrampolineData}
  {handles : Word → Option HookHandleExt} {xs : List Word} {p : Progress Ω} {b : Word} {fuel : ℕ}
  {site : Site}

/-! ### The way in -/

theorem signExtend_eq_zero_iff {w : ℕ} (v : BitVec w) (hw : w ≤ 64) :
    v.signExtend 64 = 0 ↔ v = 0 := by
  constructor
  · intro h
    have hint := congrArg BitVec.toInt h
    rw [BitVec.toInt_signExtend_of_le hw] at hint
    exact BitVec.eq_of_toInt_eq (hint.trans (by simp))
  · rintro rfl
    apply BitVec.eq_of_toInt_eq
    rw [BitVec.toInt_signExtend_of_le hw]
    simp

/-- A word of the data is loaded. -/
theorem exec_loadSym (c : Cpu Ω) (rd : Reg) (sym : Word) {v : Word}
    (h : load 64 c.mem (e.data + sym) = v) : exec e.data c (.loadSym 64 rd sym) = c.setReg rd v := by
  change c.setReg rd ((load 64 c.mem (e.data + sym)).signExtend 64) = _
  rw [BitVec.signExtend_eq, h]

/-- Disabled, it jumps to the backup; with a hook, to the hook; else it calls the handlers. -/
theorem trampoline_entry (himage : ImageAt c.mem e.data td handles xs) :
    trampoline e fuel c =
      if td.enabled = false then some ⟨[], false, td.backup, c.setReg t3 td.backup⟩
      else if td.hook ≠ 0 then some ⟨[], false, td.hook, c.setReg t3 td.hook⟩
      else callRegisterHandlers e fuel ⟨[], c.setReg t3 0⟩ := by
  have hflag : exec e.data c (.loadSym 8 t3 dataEnabled) =
      c.setReg t3 (if td.enabled then 1 else 0) := by
    change c.setReg t3 ((load 8 c.mem (e.data + dataEnabled)).signExtend 64) = _
    rw [himage.data.enabled, signExtend_enabled]
  have hload : ∀ (u v : Word) sym, load 64 c.mem (e.data + sym) = v →
      exec e.data (c.setReg t3 u) (.loadSym 64 t3 sym) = c.setReg t3 v := by
    intro u v sym hv
    rw [exec_loadSym (c.setReg t3 u) t3 sym ((congrArg (load 64 · _) (Core.setReg_mem ..)).trans hv),
      Core.setReg_setReg]
  have hreg : ∀ v, (c.setReg t3 v).reg t3 = v := fun v => Core.reg_setReg_self (by decide)
  unfold trampoline jumpBackup
  simp only [Progress.execAll, execAll, List.foldl_cons, List.foldl_nil, hflag, Progress.jr, hreg]
  cases henabled : td.enabled with
  | false =>
    simp only [Bool.false_eq_true, if_false, if_true, hload 0 _ _ himage.data.backup, hreg]
  | true =>
    simp only [if_true, Bool.true_eq_false, if_false, hload 1 _ _ himage.data.hook, hreg]
    rw [if_neg (by decide)]
    by_cases hhook : td.hook = 0
    · rw [if_pos hhook, if_neg (not_not.mpr hhook), hhook]
    · rw [if_neg hhook, if_pos hhook]

/-- The frame with the registers in their slots. -/
structure Opened (c d : Cpu Ω) : Prop where
  sp : d.reg Rv64.sp = frameBase c
  slots : ∀ k, 1 ≤ k → k < 64 → slotAt d.mem (frameBase c) k = (slotOf k).value c
  flag : slotAt d.mem (frameBase c) 64 = 0
  frame : ∀ p, ¬ InRange (frameBase c) frameSize p → d.mem p = c.mem p

theorem opened_of_saved (data : Word) (hsaved : Saved true c d) :
    Opened c (execAll data d [.sd 0 (8 * 64) sp]) := by
  have hlast : execAll data d [.sd 0 (8 * 64) sp] =
      { d with mem := store d.mem (d.reg sp + BitVec.ofNat 64 (8 * 64)) (toBytes 8 (0 : Word)) } :=
    rfl
  rw [hlast, hsaved.sp]
  refine ⟨hsaved.sp, fun k h1 h64 => ?_, load_store_self _ _ _, fun p hp => ?_⟩
  · have hin : k ∈ savedSlots true := by
      rcases Nat.eq_or_lt_of_le h1 with rfl | h2
      · exact mem_savedSlots.mpr (.inl ⟨rfl, rfl⟩)
      · exact mem_savedSlots.mpr (.inr ⟨h2, h64⟩)
    have hslot := hsaved.slots k (h64.trans (by decide))
    rw [if_pos hin] at hslot
    exact (load_store_apart (by omega) (by decide) (by omega)).trans hslot
  · refine (store_of_not_inRange fun hin => hp ?_).trans (hsaved.frame p hp)
    rw [length_toBytes, inRange_offset (by decide)] at hin
    exact hin.2

theorem opened (data : Word) (c : Cpu Ω) :
    Opened c (execAll data c (sregs true ++ [.sd 0 (8 * 64) sp])) := by
  rw [execAll_append]
  exact opened_of_saved data (sregs_saved data c true)

/-- The bytes of a slot are in the frame, and those of another slot are not in the lowest one. -/
theorem inRange_slot {p : Addr} {k : ℕ} (hk : k < frameSlots)
    (h : InRange (b + BitVec.ofNat 64 (8 * k)) 8 p) :
    InRange b frameSize p ∧ (k ≠ 0 → ¬ InRange b 8 p) := by
  have hk' : k < 65 := hk
  rw [inRange_offset (by omega)] at h
  constructor
  · exact h.2.trans_le (by unfold frameSize; omega)
  · intro h0 hin
    have hlt : (p - b).toNat < 8 := hin
    omega

theorem Quiet.slot (h : Quiet b c d) {k : ℕ} (h0 : k ≠ 0) (hk : k < frameSlots) :
    slotAt d.mem b k = slotAt c.mem b k :=
  load_of_agree fun p hp => h.mem p ((inRange_slot hk hp).2 h0)

/-! ### The loops -/

/-- What holds around the calls from the frame. -/
structure InFrame (e : Setting Ω) (b : Word) (td : TrampolineData)
    (handles : Word → Option HookHandleExt) (xs : List Word) (p : Progress Ω) : Prop where
  sp : p.cpu.reg Rv64.sp = b
  image : ImageAt p.cpu.mem e.data td handles xs

/-- A property of the progress that neither `callrh` itself nor a handler spoils. -/
structure Stable (e : Setting Ω) (site : Site) (b : Word) (G : Progress Ω → Prop) : Prop where
  quiet : ∀ p c, G p → Quiet b p.cpu c → G { p with cpu := c }
  call : ∀ p, G p → p.cpu.reg Rv64.sp = b → G (p.jalr e site)

theorem inFrame_jalr (ho : Obeys e (Occupied e.data xs)) (hsite : site ≠ .backup)
    (hp : InFrame e b td handles xs p) :
    InFrame e b td handles xs (p.jalr e site) ∧
      slotAt (p.jalr e site).cpu.mem b 0 = slotAt p.cpu.mem b 0 := by
  let d := p.cpu.setReg ra (e.link site)
  have hsp : d.reg sp = b := (Core.reg_setReg_of_ne (by decide)).trans hp.sp
  have hmem : d.mem = p.cpu.mem := Core.setReg_mem ..
  have hlowest := ho.lowest site (p.cpu.reg t3) d hsite
  rw [hsp, hmem] at hlowest
  refine ⟨⟨(ho.sp ..).trans hsp, hp.image.congr fun q hq => ?_⟩, hlowest⟩
  exact (ho.occupied site (p.cpu.reg t3) d q hq).trans (congrFun hmem q)

theorem loopInvariant {G : Progress Ω → Prop} (ho : Obeys e (Occupied e.data xs))
    (hapart : ∀ q, Occupied e.data xs q → ¬ InRange b frameSize q) (hsite : site ≠ .backup)
    (hG : Stable e site b G) :
    LoopInvariant e site b handles xs fun p => InFrame e b td handles xs p ∧ G p where
  sp p hp := hp.1.sp
  image p hp := hp.1.image.handles
  quiet p c hp hq := by
    refine ⟨⟨hq.sp.trans hp.1.sp, hp.1.image.congr fun q ho => hq.mem q fun hin => ?_⟩,
      hG.quiet p c hp.2 hq⟩
    exact hapart q ho (hin.mono (by decide))
  call p hp _ _ _ _ _ _ _ _ _ _ := by
    obtain ⟨hframe, hslot⟩ := inFrame_jalr ho hsite hp.1
    exact ⟨⟨hframe, hG.call p hp.2 hp.1.sp⟩, hslot⟩

/-- `callrh` calls the handlers of the enabled handles in the order of the list, and keeps what is
stable. -/
theorem callrh_spec (ho : Obeys e (Occupied e.data xs))
    (hapart : ∀ q, Occupied e.data xs q → ¬ InRange b frameSize q) (hsite : site ≠ .backup)
    (hnull : handles 0 = none)
    (hseg : Seg (fun x => (handles x).map (·.next)) td.rootHandle xs 0) (hne : xs ≠ [])
    (hp : InFrame e b td handles xs p) (hfuel : xs.length ≤ fuel) :
    ∃ q new, callrh e site (handlerOffset site) dataRootHandle fuel p = some q ∧
      InFrame e b td handles xs q ∧ q.calls = p.calls ++ new ∧
      new.map Called.handlerCall = handlerCalls site b handles xs ∧
      ∀ G, Stable e site b G → G p → G q := by
  have hroot : p.execAll e [.loadSym 64 a1 dataRootHandle] =
      { p with cpu := p.cpu.setReg a1 td.rootHandle } :=
    congrArg (Progress.mk p.calls) (exec_loadSym p.cpu a1 _ hp.image.data.rootHandle)
  have hquiet : Quiet b p.cpu (p.cpu.setReg a1 td.rootHandle) := quiet_setReg _ _ _ (by simp)
  have hrun : ∀ G, Stable e site b G → G p → ∃ q new,
      callrh e site (handlerOffset site) dataRootHandle fuel p = some q ∧
      (InFrame e b td handles xs q ∧ G q) ∧ q.calls = p.calls ++ new ∧
      new.map Called.handlerCall = handlerCalls site b handles xs := by
    intro G hG hp'
    have hI : LoopInvariant e site b handles xs
        fun p => InFrame e b td handles xs p ∧ G p := loopInvariant ho hapart hsite hG
    unfold callrh
    rw [hroot]
    exact callrhLoop_spec hI (hI.quiet p _ ⟨hp, hp'⟩ hquiet) (fun _ hy => hy) hnull hseg hne
      (Core.reg_setReg_self (by decide)) hfuel
  obtain ⟨q, new, hq, hI, hcalls, hnew⟩ := hrun (fun _ => True) ⟨fun _ _ _ _ => trivial,
    fun _ _ _ => trivial⟩ trivial
  refine ⟨q, new, hq, hI.1, hcalls, hnew, fun G hG hp' => ?_⟩
  obtain ⟨q', -, hq', hI', -⟩ := hrun G hG hp'
  obtain rfl := Option.some.inj (hq.symm.trans hq')
  exact hI'.2

/-! ### The return address and the way out -/

/-- The state that a callee leaves. -/
def Called.after (e : Setting Ω) (k : Called Ω) : Cpu Ω := e.callee k.site k.target k.cpu

/-- The call that stores the return address under the key. -/
structure StoresRa (td : TrampolineData) (b value : Word) (k : Called Ω) : Prop where
  site : k.site = .setspecific
  target : k.target = td.setspecific
  key : k.cpu.reg a0 = td.tlsKey.signExtend 64
  value : k.cpu.reg a1 = value
  sp : k.cpu.reg Rv64.sp = b

/-- What `storeRa` does: with a key it is one call, without one the vector build has the return
address in `v28`. -/
structure RaStored (e : Setting Ω) (td : TrampolineData) (b : Word) (p q : Progress Ω) : Prop where
  frame : ∀ a, InRange b frameSize a → q.cpu.mem a = p.cpu.mem a
  withKey : td.setspecific ≠ 0 → ∃ k, q.calls = p.calls ++ [k] ∧ StoresRa td b (slotAt p.cpu.mem b 1) k ∧
    q.cpu = k.after e
  withoutKey : td.setspecific = 0 → q.calls = p.calls ∧ q.cpu.mem = p.cpu.mem ∧
    (e.vector = true → q.cpu.rest.v v28 = slotAt p.cpu.mem b 1)

theorem storeRa_spec (ho : Obeys e (Occupied e.data xs)) (hp : InFrame e b td handles xs p) :
    InFrame e b td handles xs (storeRa e p) ∧ RaStored e td b p (storeRa e p) := by
  have hfirst : p.execAll e [.loadSym 64 t3 dataSetspecific] =
      { p with cpu := p.cpu.setReg t3 td.setspecific } :=
    congrArg (Progress.mk p.calls) (exec_loadSym p.cpu t3 _ hp.image.data.setspecific)
  let c₁ := p.cpu.setReg t3 td.setspecific
  have hmem₁ : c₁.mem = p.cpu.mem := Core.setReg_mem ..
  have hsp₁ : c₁.reg sp = b := (Core.reg_setReg_of_ne (by decide)).trans hp.sp
  have hra₁ : c₁.reg t3 = td.setspecific := Core.reg_setReg_self (by decide)
  unfold storeRa
  dsimp only
  rw [hfirst]
  by_cases hkey : td.setspecific = 0
  · rw [if_pos (hra₁.trans hkey)]
    cases hvector : e.vector with
    | true =>
      let c₂ := c₁.setReg t3 (b + 8)
      let c₃ : Cpu Ω := { c₂ with
        rest := { c₂.rest with
          v := Function.update c₂.rest.v v28 (load 64 c₂.mem (c₂.reg t3)) } }
      have hall : ({ p with cpu := c₁ } : Progress Ω).execAll e
          [.vsetivli, .addi t3 sp (8 * 1), .vle64 v28 t3] = { p with cpu := c₃ } := by
        have h2 : exec e.data c₁ (.addi t3 sp (8 * 1)) = c₂ := by
          change c₁.setReg t3 (c₁.reg sp + 8 * 1) = _
          rw [hsp₁]
          rfl
        have h1 : exec e.data c₁ .vsetivli = c₁ := rfl
        have h3 : exec e.data c₂ (.vle64 v28 t3) = c₃ := rfl
        have hcpu : Asm.execAll e.data c₁ [.vsetivli, .addi t3 sp (8 * 1), .vle64 v28 t3] = c₃ := by
          simp only [Asm.execAll, List.foldl_cons, List.foldl_nil, h1, h2, h3]
        exact congrArg (Progress.mk p.calls) hcpu
      have hmem₃ : c₃.mem = p.cpu.mem := (Core.setReg_mem c₁ t3 (b + 8)).trans hmem₁
      have hsp₃ : c₃.reg sp = b := by
        have hkeep : c₂.reg sp = c₁.reg sp := Core.reg_setReg_of_ne (by decide)
        exact hkeep.trans hsp₁
      rw [if_pos rfl, hall]
      refine ⟨⟨hsp₃, hp.image.congr fun q _ => congrFun hmem₃ q⟩, fun a _ => congrFun hmem₃ a,
        fun h => absurd hkey h, fun _ => ⟨rfl, hmem₃, fun _ => ?_⟩⟩
      have hload : load 64 c₂.mem (c₂.reg t3) = slotAt p.cpu.mem b 1 := by
        rw [show c₂.reg t3 = b + 8 from Core.reg_setReg_self (by decide),
          show c₂.mem = p.cpu.mem from hmem₃]
        rfl
      change Function.update c₂.rest.v v28 (load 64 c₂.mem (c₂.reg t3)) v28 = _
      rw [hload]
      exact Function.update_self ..
    | false =>
      rw [if_neg Bool.false_ne_true]
      have hsp₂ : ((({ p with cpu := c₁ } : Progress Ω).execAll e [.fmvDX ft11 ra]).cpu).reg sp = b :=
        hsp₁
      refine ⟨⟨hsp₂, hp.image.congr fun q _ => congrFun hmem₁ q⟩, fun a _ => congrFun hmem₁ a,
        fun h => absurd hkey h, fun _ => ⟨rfl, hmem₁, fun h => ?_⟩⟩
      rw [hvector] at h
      cases h
  · rw [if_neg fun h => hkey (hra₁.symm.trans h)]
    let key : Word := td.tlsKey.signExtend 64
    let c₂ := c₁.setReg a0 key
    let c₃ := c₂.setReg a1 (slotAt p.cpu.mem b 1)
    have hmem₂ : c₂.mem = p.cpu.mem := (Core.setReg_mem ..).trans hmem₁
    have hmem₃ : c₃.mem = p.cpu.mem := (Core.setReg_mem ..).trans hmem₂
    have hsp₂ : c₂.reg sp = b := (Core.reg_setReg_of_ne (by decide)).trans hsp₁
    have hsp₃ : c₃.reg sp = b := (Core.reg_setReg_of_ne (by decide)).trans hsp₂
    have ht3₃ : c₃.reg t3 = td.setspecific := (Core.reg_setReg_of_ne (by decide)).trans
      ((Core.reg_setReg_of_ne (by decide)).trans hra₁)
    have ha0₃ : c₃.reg a0 = key := (Core.reg_setReg_of_ne (by decide)).trans
      (Core.reg_setReg_self (by decide))
    have ha1₃ : c₃.reg a1 = slotAt p.cpu.mem b 1 := Core.reg_setReg_self (by decide)
    have hall : ({ p with cpu := c₁ } : Progress Ω).execAll e
        [.loadSym 32 a0 dataTlsKey, .ld a1 (8 * 1) sp] = { p with cpu := c₃ } := by
      have h1 : exec e.data c₁ (.loadSym 32 a0 dataTlsKey) = c₂ := by
        change c₁.setReg a0 ((load 32 c₁.mem (e.data + dataTlsKey)).signExtend 64) = _
        rw [hmem₁, hp.image.data.tlsKey]
      have h2 : exec e.data c₂ (.ld a1 (8 * 1) sp) = c₃ := by
        change c₂.setReg a1 ((load 64 c₂.mem (c₂.reg sp + 8 * 1)).signExtend 64) = _
        rw [BitVec.signExtend_eq, hmem₂, hsp₂]
        rfl
      have hcpu : Asm.execAll e.data c₁ [.loadSym 32 a0 dataTlsKey, .ld a1 (8 * 1) sp] = c₃ := by
        simp only [Asm.execAll, List.foldl_cons, List.foldl_nil, h1, h2]
      exact congrArg (Progress.mk p.calls) hcpu
    have hp₃ : InFrame e b td handles xs { p with cpu := c₃ } :=
      ⟨hsp₃, hp.image.congr fun q _ => congrFun hmem₃ q⟩
    rw [hall]
    refine ⟨(inFrame_jalr ho (by decide) hp₃).1, fun a ha => ?_, fun _ => ?_, fun h => absurd h hkey⟩
    · have hlink : (c₃.setReg ra (e.link .setspecific)).reg sp = b :=
        (Core.reg_setReg_of_ne (by decide)).trans hsp₃
      refine (ho.key .setspecific _ _ a (.inl rfl) (hlink.symm ▸ ha)).trans ?_
      exact congrFun ((Core.setReg_mem ..).trans hmem₃) a
    · have hlink : ∀ r, r ≠ ra → (c₃.setReg ra (e.link .setspecific)).reg r = c₃.reg r :=
        fun r hr => Core.reg_setReg_of_ne hr
      exact ⟨_, rfl, ⟨rfl, ht3₃, (hlink a0 (by decide)).trans ha0₃,
        (hlink a1 (by decide)).trans ha1₃, (hlink sp (by decide)).trans hsp₃⟩, rfl⟩

/-- `pregs` after the flag: every register has what is in its slot. -/
theorem popped (e : Setting Ω) (hsp : p.cpu.reg sp = b) :
    ∃ d, p.execAll e (.lb t3 (8 * 64) sp :: pregs) = ⟨p.calls, d⟩ ∧ Restored p.cpu.mem b d ∧
      d.rest = p.cpu.rest := by
  let v : Word := (load 8 p.cpu.mem (p.cpu.reg sp + 8 * 64)).signExtend 64
  let c₁ := p.cpu.setReg t3 v
  have hfirst : exec e.data p.cpu (.lb t3 (8 * 64) sp) = c₁ := rfl
  have hsp₁ : c₁.reg sp = b := (Core.reg_setReg_of_ne (by decide)).trans hsp
  obtain ⟨hmem, hrest, hx, hf⟩ := pregs_restores e.data hsp₁
  have hmem₁ : c₁.mem = p.cpu.mem := Core.setReg_mem ..
  rw [hmem₁] at hmem hx hf
  refine ⟨execAll e.data c₁ pregs, ?_, ⟨hmem, hx, hf⟩, hrest.trans (Core.setReg_rest ..)⟩
  rw [← hfirst]
  rfl

theorem Restored.reg {m : Mem} (h : Restored m b d) {r : Reg} (hr : r ≠ 0) :
    d.reg r = slotAt m b r.toNat := (Core.reg_of_ne hr).trans (h.x r hr)

theorem popPreRegisters_eq {q : Progress Ω} (h : p.execAll e (.lb t3 (8 * 64) sp :: pregs) = q) :
    popPreRegisters e fuel p =
      if q.cpu.reg t3 ≠ 0 then some q.ret
      else
        let p := q.execAll e [.loadSym 16 t3 dataPostHandlers]
        if p.cpu.reg t3 = 0 then some (jumpBackup e p)
        else
          let p := (p.execAll e [.loadSym 64 t3 dataBackup]).jalr e .backup
          callPostRegisterHandlers e fuel (loadRa e (p.execAll e (sregs false))) := by
  unfold popPreRegisters
  rw [h]

/-- With the slot of `t3` filled, the trampoline returns. -/
theorem popPreRegisters_returns (fuel : ℕ) (hp : InFrame e b td handles xs p)
    (ht3 : slotAt p.cpu.mem b 28 ≠ 0) :
    ∃ d, popPreRegisters e fuel p = some ⟨p.calls, true, slotAt p.cpu.mem b 1, d⟩ ∧
      Restored p.cpu.mem b d ∧ d.rest = p.cpu.rest := by
  obtain ⟨d, hd, hrestored, hrest⟩ := popped e hp.sp
  have ht3' : d.reg t3 = slotAt p.cpu.mem b 28 := hrestored.reg (by decide)
  have hra : d.reg ra = slotAt p.cpu.mem b 1 := hrestored.reg (by decide)
  have hne : d.reg t3 ≠ 0 := fun h => ht3 (ht3'.symm.trans h)
  refine ⟨d, ?_, hrestored, hrest⟩
  rw [popPreRegisters_eq hd, ← hra]
  exact if_pos hne

/-- The decision after the registers have been restored with the slot of `t3` empty. -/
theorem popPreRegisters_goes_on (fuel : ℕ) (hp : InFrame e b td handles xs p)
    (ht3 : slotAt p.cpu.mem b 28 = 0) :
    ∃ d, Restored p.cpu.mem b d ∧ d.rest = p.cpu.rest ∧
      popPreRegisters e fuel p =
        if td.postHandlers = 0 then some ⟨p.calls, false, td.backup, d.setReg t3 td.backup⟩
        else callPostRegisterHandlers e fuel (loadRa e
          (((⟨p.calls, d.setReg t3 td.backup⟩ : Progress Ω).jalr e .backup).execAll e
            (sregs false))) := by
  obtain ⟨d, hd, hrestored, hrest⟩ := popped e hp.sp
  have himage : DataAt d.mem e.data td := hp.image.data.congr fun q _ => congrFun hrestored.mem q
  let c₁ := d.setReg t3 (td.postHandlers.signExtend 64)
  have hposts : (⟨p.calls, d⟩ : Progress Ω).execAll e [.loadSym 16 t3 dataPostHandlers] =
      ⟨p.calls, c₁⟩ := by
    have hcpu : exec e.data d (.loadSym 16 t3 dataPostHandlers) = c₁ := by
      change d.setReg t3 ((load 16 d.mem (e.data + dataPostHandlers)).signExtend 64) = _
      rw [himage.postHandlers]
    exact congrArg (Progress.mk p.calls) hcpu
  have hbackup : (⟨p.calls, c₁⟩ : Progress Ω).execAll e [.loadSym 64 t3 dataBackup] =
      ⟨p.calls, d.setReg t3 td.backup⟩ := by
    have hload : load 64 c₁.mem (e.data + dataBackup) = td.backup :=
      (congrArg (load 64 · _) (Core.setReg_mem ..)).trans himage.backup
    have hcpu : exec e.data c₁ (.loadSym 64 t3 dataBackup) = d.setReg t3 td.backup :=
      (exec_loadSym c₁ t3 dataBackup hload).trans (Core.setReg_setReg ..)
    exact congrArg (Progress.mk p.calls) hcpu
  have ht3₁ : c₁.reg t3 = td.postHandlers.signExtend 64 := Core.reg_setReg_self (by decide)
  have ht3' : d.reg t3 = slotAt p.cpu.mem b 28 := hrestored.reg (by decide)
  refine ⟨d, hrestored, hrest, ?_⟩
  rw [popPreRegisters_eq hd, if_neg (not_not.mpr (ht3'.trans ht3))]
  dsimp only
  rw [hposts]
  dsimp only
  rw [ht3₁]
  by_cases hzero : td.postHandlers = 0
  · rw [if_pos hzero, if_pos ((signExtend_eq_zero_iff _ (by decide)).mpr hzero)]
    unfold jumpBackup Progress.jr
    rw [hbackup]
    dsimp only
    rw [Core.reg_setReg_self (by decide)]
  · rw [if_neg hzero, if_neg fun h => hzero ((signExtend_eq_zero_iff _ (by decide)).mp h), hbackup]

/-! ### Up to the way out -/

/-- A slot of the frame that the callees of a site leave alone. -/
def KeepsSlot (e : Setting Ω) (site : Site) (k : ℕ) : Prop :=
  ∀ target c, slotAt (e.callee site target c).mem (c.reg sp) k = slotAt c.mem (c.reg sp) k

/-- What has happened when the registers are about to be restored: the handlers of the enabled handles
have been called in order, the first with the registers of the entry in its context, and the return
address of the context has been stored. -/
structure PreHandled (e : Setting Ω) (c : Cpu Ω) (td : TrampolineData)
    (handles : Word → Option HookHandleExt) (xs : List Word) (handlers keys : List (Called Ω))
    (p : Progress Ω) : Prop where
  calls : p.calls = handlers ++ keys
  dispatched :
    handlers.map Called.handlerCall = handlerCalls .preHandler (frameBase c) handles xs
  first : ∀ k ∈ handlers.head?, ∀ j, 1 ≤ j → j < 64 →
    slotAt k.cpu.mem (frameBase c) j = (slotOf j).value c
  withKey : td.setspecific ≠ 0 → ∃ k, keys = [k] ∧
    StoresRa td (frameBase c) (slotAt p.cpu.mem (frameBase c) 1) k ∧
    p.cpu = k.after e
  withoutKey : td.setspecific = 0 → keys = [] ∧
    (e.vector = true → p.cpu.rest.v v28 = slotAt p.cpu.mem (frameBase c) 1)
  kept : ∀ j, 1 ≤ j → j < 64 → KeepsSlot e .preHandler j →
    slotAt p.cpu.mem (frameBase c) j = (slotOf j).value c

/-- The first of the calls that come after the earlier ones finds the slots as they are before it. -/
def FirstFinds (b : Word) (values : ℕ → Word) (earlier : List (Called Ω)) (p : Progress Ω) : Prop :=
  ∃ new, p.calls = earlier ++ new ∧
    (new = [] → ∀ j, 1 ≤ j → j < frameSlots → slotAt p.cpu.mem b j = values j) ∧
    ∀ k ∈ new.head?, ∀ j, 1 ≤ j → j < frameSlots → slotAt k.cpu.mem b j = values j

theorem stable_first (e : Setting Ω) (site : Site) (b : Word) (values : ℕ → Word)
    (earlier : List (Called Ω)) : Stable e site b (FirstFinds b values earlier) where
  quiet p c hp hq := by
    obtain ⟨new, hcalls, hnone, hfirst⟩ := hp
    refine ⟨new, hcalls, fun h j h1 hj => ?_, hfirst⟩
    exact (hq.slot (by omega) hj).trans (hnone h j h1 hj)
  call p hp _ := by
    obtain ⟨new, hcalls, hnone, hfirst⟩ := hp
    let k : Called Ω := ⟨site, p.cpu.reg t3, p.cpu.setReg ra (e.link site)⟩
    refine ⟨new ++ [k], ?_, ?_, ?_⟩
    · change p.calls ++ [k] = _
      rw [hcalls, List.append_assoc]
    · intro h
      simp at h
    · cases new with
      | nil =>
        simp only [List.nil_append, List.head?_cons, Option.mem_def, Option.some.injEq,
          forall_eq']
        rw [show k.cpu.mem = p.cpu.mem from Core.setReg_mem ..]
        exact hnone rfl
      | cons a as => simpa using hfirst

theorem FirstFinds.first {values : ℕ → Word} {earlier new : List (Called Ω)}
    (h : FirstFinds b values earlier p) (hcalls : p.calls = earlier ++ new) :
    ∀ k ∈ new.head?, ∀ j, 1 ≤ j → j < frameSlots → slotAt k.cpu.mem b j = values j := by
  obtain ⟨new', hcalls', -, hfirst⟩ := h
  obtain rfl : new' = new := List.append_cancel_left (hcalls'.symm.trans hcalls)
  exact hfirst

theorem stable_slot {j : ℕ} (h1 : 1 ≤ j) (hj : j < frameSlots) (hkeep : KeepsSlot e site j)
    (b value : Word) : Stable e site b fun p => slotAt p.cpu.mem b j = value where
  quiet p c hp hq := (hq.slot (by omega) hj).trans hp
  call p hp hsp := by
    let d := p.cpu.setReg ra (e.link site)
    have hsp' : d.reg sp = b := (Core.reg_setReg_of_ne (by decide)).trans hsp
    have hkept := hkeep (p.cpu.reg t3) d
    rw [hsp', show d.mem = p.cpu.mem from Core.setReg_mem ..] at hkept
    exact hkept.trans hp

theorem callRegisterHandlers_spec (h : Entered e c td handles xs) (hfuel : xs.length ≤ fuel) :
    ∃ p handlers keys, callRegisterHandlers e fuel ⟨[], c⟩ = popPreRegisters e fuel p ∧
      InFrame e (frameBase c) td handles xs p ∧
      PreHandled e c td handles xs handlers keys p := by
  let d := execAll e.data c (sregs true ++ [.sd 0 (8 * 64) sp])
  have hopened : Opened c d := opened e.data c
  have hd : InFrame e (frameBase c) td handles xs ⟨[], d⟩ :=
    ⟨hopened.sp, h.image.congr fun q hq => hopened.frame q (h.apart q hq)⟩
  obtain ⟨q, handlers, hq, hin, hcalls, hhandlers, hstable⟩ :=
    callrh_spec h.obeys h.apart (show Site.preHandler ≠ .backup by decide) h.null h.linked
      h.nonempty hd hfuel
  obtain ⟨hin', hra⟩ := storeRa_spec h.obeys hin
  have hslots : ∀ j < frameSlots, slotAt (storeRa e q).cpu.mem (frameBase c) j =
      slotAt q.cpu.mem (frameBase c) j := fun j hj =>
    load_of_agree fun a ha => hra.frame a (inRange_slot hj ha).1
  have hcalls' : q.calls = handlers := hcalls.trans (List.nil_append _)
  have hfirst := (hstable _ (stable_first e .preHandler (frameBase c)
    (fun j => slotAt d.mem (frameBase c) j) []) ⟨[], rfl, fun _ _ _ _ => rfl, nofun⟩).first hcalls
  have hrun : callRegisterHandlers e fuel ⟨[], c⟩ = popPreRegisters e fuel (storeRa e q) := by
    change (callrh e .preHandler (handlerOffset .preHandler) dataRootHandle fuel ⟨[], d⟩).bind
      (fun p => popPreRegisters e fuel (storeRa e p)) = _
    rw [hq]
    rfl
  have hkept : ∀ j, 1 ≤ j → j < 64 → KeepsSlot e .preHandler j →
      slotAt (storeRa e q).cpu.mem (frameBase c) j = (slotOf j).value c := by
    intro j h1 hj hkeep
    have hj' : j < frameSlots := hj.trans (by decide)
    rw [hslots j hj']
    exact hstable _ (stable_slot h1 hj' hkeep (frameBase c) ((slotOf j).value c))
      (hopened.slots j h1 hj)
  have hsees : ∀ k ∈ handlers.head?, ∀ j, 1 ≤ j → j < 64 →
      slotAt k.cpu.mem (frameBase c) j = (slotOf j).value c := fun k hk j h1 hj =>
    (hfirst k hk j h1 (hj.trans (by decide))).trans (hopened.slots j h1 hj)
  by_cases hkey : td.setspecific = 0
  · obtain ⟨hc, -, hv⟩ := hra.withoutKey hkey
    refine ⟨storeRa e q, handlers, [], hrun, hin', ?_⟩
    constructor
    · exact (hc.trans hcalls').trans (List.append_nil _).symm
    · exact hhandlers
    · exact hsees
    · exact fun h => absurd hkey h
    · intro _
      refine ⟨rfl, fun hvector => ?_⟩
      rw [hv hvector, hslots 1 (by decide)]
    · exact hkept
  · obtain ⟨k, hc, hstores, hcpu⟩ := hra.withKey hkey
    refine ⟨storeRa e q, handlers, [k], hrun, hin', ?_⟩
    constructor
    · exact hc.trans (congrArg (· ++ [k]) hcalls')
    · exact hhandlers
    · exact hsees
    · intro _
      rw [hslots 1 (by decide)]
      exact ⟨k, rfl, hstores, hcpu⟩
    · exact fun h => absurd h hkey
    · exact hkept

end Invocation

end SecondTrampoline
end Rv64Hook
