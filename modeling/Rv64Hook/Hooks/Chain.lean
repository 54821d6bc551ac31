import Rv64Hook.Hooks.Loops

/-! The list of handles of one hook info, and what `NewHookHandle` and `UnhookExt` do to it. -/
namespace Rv64Hook
open ByteMem Rv64 LinkedList

namespace Process

/-- The live handles of info `i` are those of the list, in registration order along `next_`. -/
structure Listed (s : Process) (i : Word) (info : HookInfo) (td : TrampolineData)
    (xs : List Word) : Prop where
  null : s.handles 0 = none
  id : i ≠ 0
  hasInfo : s.infos i = some info
  hasData : s.trampolines info.trampoline = some td
  next : Seg s.nextOf info.rootHandle xs 0
  count : info.handleCount.toNat = xs.length
  root : td.rootHandle = info.rootHandle
  live : ∀ p, s.infoOf p = some i ↔ p ∈ xs

/-- Moreover `previous_` leads through the same handles backwards. -/
structure WellFormed (s : Process) (i : Word) (info : HookInfo) (td : TrampolineData)
    (xs : List Word) : Prop extends Listed s i info td xs where
  previous : Seg s.previousOf (xs.reverse.headD 0) xs.reverse 0

namespace Listed

variable {s : Process} {i p : Word} {info : HookInfo} {td : TrampolineData} {xs ys : List Word}

theorem nodup (hl : Listed s i info td xs) : xs.Nodup := hl.next.nodup (field_null hl.null)

theorem exists_handle (hl : Listed s i info td xs) (hp : p ∈ xs) :
    ∃ h, s.handles p = some h ∧ h.info = i :=
  exists_handle_of_field ((hl.live p).mpr hp)

theorem ne_zero (hl : Listed s i info td xs) (hp : p ∈ xs) : p ≠ 0 := by
  obtain ⟨h, hh, -⟩ := hl.exists_handle hp
  exact ne_zero_of_handle hl.null hh

/-- A handle that is about to be allocated is not in the list. -/
theorem notMem (hl : Listed s i info td xs) (hp : s.handles p = none) : p ∉ xs := by
  intro hmem
  obtain ⟨h, hh, -⟩ := hl.exists_handle hmem
  rw [hp] at hh
  cases hh

theorem length_lt (hl : Listed s i info td xs) : xs.length < maxObjects := by
  have hlt := info.handleCount.isLt
  rw [hl.count] at hlt
  exact hlt.trans (by decide)

theorem rootHandle_eq_zero_iff (hl : Listed s i info td xs) : info.rootHandle = 0 ↔ xs = [] := by
  constructor
  · intro hroot
    exact Seg.eq_nil (field_null hl.null) (hroot ▸ hl.next)
  · rintro rfl
    exact hl.next

end Listed

variable {e : System} {s : Process} {i y : Word} {info : HookInfo} {td : TrampolineData}
  {args : HookArgs} {ys : List Word} {h : HookHandleExt}

/-! ### Registration -/

/-- The count after a registration, which `DoHook` refuses at the limit. -/
theorem toNat_add_one {c : BitVec 16} (hc : c ≠ 0xffff) : (c + 1).toNat = c.toNat + 1 := by
  have hne : c.toNat ≠ 0xffff := fun heq => hc (BitVec.eq_of_toNat_eq heq)
  rw [BitVec.toNat_add, show (1 : BitVec 16).toNat = 1 from rfl]
  omega

theorem newHookHandle_first (hl : Listed s i info td []) :
    newHookHandle e s i args = some
      ((((s.setHandle e.handle { newHandle i info.address args with backup := info.relocated
          }).setInfo i { info with
            handleCount := info.handleCount + 1
            rootHandle := e.handle }).setBackupVar args.userBackupAddr
          info.relocated).setTrampolineData info.trampoline
            (firstData e td args info.relocated)) := by
  have hroot : info.rootHandle = 0 := hl.next
  rw [newHookHandle, hl.hasInfo]
  simp only [Option.bind_eq_bind, Option.bind_some, hl.hasData, hroot]
  simp [setInfo, setHandle, setBackupVar, setVar, setTrampolineData]

theorem newHookHandle_later (hl : Listed s i info td (ys ++ [y])) (hy : s.handles y = some h)
    (hfresh : s.handles e.handle = none) (hzero : e.handle ≠ 0) :
    newHookHandle e s i args = some
      (((((s.setHandle y { h with next := e.handle }).setHandle e.handle
          { newHandle i info.address args with
            previous := y
            backup := lastHook info.relocated ((ys ++ [y]).map s.hookOf) }).setInfo i { info with
              handleCount := info.handleCount + 1 }).setBackupVar args.userBackupAddr
          (lastHook info.relocated ((ys ++ [y]).map s.hookOf))).setTrampolineData info.trampoline
            (laterData td args (lastHook info.relocated ((ys ++ [y]).map s.hookOf)))) := by
  have hroot : info.rootHandle ≠ 0 := fun hzero => by
    have hempty := hl.rootHandle_eq_zero_iff.mp hzero
    simp at hempty
  have hnew : e.handle ∉ ys ++ [y] := hl.notMem hfresh
  have hne : e.handle ≠ y := fun heq => hnew (heq ▸ by simp)
  rw [newHookHandle, hl.hasInfo]
  simp only [Option.bind_eq_bind, Option.bind_some, hl.hasData, if_pos hroot]
  generalize hs : (s.setHandle e.handle (newHandle i info.address args)).setInfo i
    { info with handleCount := info.handleCount + 1 } = t
  have hfield : ∀ {α : Type} (f : HookHandleExt → α), t.field f =
      Function.update (s.field f) e.handle (some (f (newHandle i info.address args))) := by
    intro α f
    rw [← hs]
    exact field_setHandle s e.handle _
  have hnull : t.handles 0 = none := by
    rw [← hs]
    exact (Function.update_of_ne hzero.symm _ _).trans hl.null
  have hnext : Seg t.nextOf info.rootHandle (ys ++ [y]) 0 := by
    rw [nextOf, hfield]
    exact hl.next.update hnew
  have hhook : (ys ++ [y]).map t.hookOf = (ys ++ [y]).map s.hookOf := by
    refine List.map_congr_left fun q hq => ?_
    have hqe : q ≠ e.handle := by
      rintro rfl
      exact hnew hq
    exact valueOf_congr (by rw [hfield, Function.update_of_ne hqe])
  have hlen := hl.length_lt
  rw [List.length_append, List.length_singleton] at hlen
  have hty : t.handles y = some h := by
    rw [← hs]
    exact (Function.update_of_ne hne.symm _ _).trans hy
  have htnew : t.handles e.handle = some (newHandle i info.address args) := by
    rw [← hs]
    exact Function.update_self ..
  rw [appendHandle_eq hnull hnext (by omega) hty htnew hne, hhook]
  simp only [Option.bind_some, setHandle_handles, Function.update_self]
  have hhandles : ∀ k₁ k₂ : HookHandleExt,
      Function.update (Function.update (Function.update (Function.update s.handles e.handle
        (some (newHandle i info.address args))) y (some { h with next := e.handle })) e.handle
        (some k₁)) e.handle (some k₂) =
      Function.update (Function.update s.handles y (some { h with next := e.handle })) e.handle
        (some k₂) := by
    intro k₁ k₂
    rw [Function.update_idem, Function.update_comm hne, Function.update_idem]
  rw [← hs]
  simp only [setHandle, setInfo, setBackupVar, setVar, setTrampolineData, hhandles]

/-- The handle that a registration behind the handles `xs` makes. -/
def registeredHandle (s : Process) (i : Word) (info : HookInfo) (args : HookArgs)
    (xs : List Word) : HookHandleExt :=
  { newHandle i info.address args with
    previous := xs.reverse.headD 0
    backup := lastHook info.relocated (xs.map s.hookOf) }

/-- What a registration does to the process. -/
structure Registered (e : System) (s : Process) (i : Word) (info : HookInfo) (td : TrampolineData)
    (args : HookArgs) (xs : List Word) (s' : Process) : Prop where
  field : ∀ {α : Type} (f : HookHandleExt → α), (∀ h v, f { h with next := v } = f h) →
    s'.field f =
      Function.update (s.field f) e.handle (some (f (registeredHandle s i info args xs)))
  next : Seg s'.nextOf (if xs = [] then e.handle else info.rootHandle) (xs ++ [e.handle]) 0
  null : s'.handles 0 = none
  infos : s'.infos = Function.update s.infos i (some { info with
    handleCount := info.handleCount + 1
    rootHandle := if xs = [] then e.handle else info.rootHandle })
  trampolines : s'.trampolines = Function.update s.trampolines info.trampoline (some
    (if xs = [] then firstData e td args info.relocated
      else laterData td args (lastHook info.relocated (xs.map s.hookOf))))
  vars : s'.vars = (s.setBackupVar args.userBackupAddr
    (lastHook info.relocated (xs.map s.hookOf))).vars
  hooks : s'.hooks = s.hooks
  records : s'.records = s.records
  code : s'.toCodeMemory = s.toCodeMemory

theorem setBackupVar_cases (s : Process) (addr v : Word) :
    s.setBackupVar addr v = { s with vars := (s.setBackupVar addr v).vars } := by
  unfold setBackupVar
  split_ifs <;> rfl

/-- Every registration succeeds. -/
theorem newHookHandle_registered {xs : List Word} (hl : Listed s i info td xs)
    (hfresh : s.handles e.handle = none) (hzero : e.handle ≠ 0) (args : HookArgs) :
    ∃ s', newHookHandle e s i args = some s' ∧ Registered e s i info td args xs s' := by
  have hnew := hl.notMem hfresh
  rcases List.eq_nil_or_concat' xs with rfl | ⟨ys, y, rfl⟩
  · refine ⟨_, newHookHandle_first hl, ?_⟩
    rw [setBackupVar_cases]
    refine ⟨fun f _ => field_setHandle s e.handle _, ?_, ?_, rfl, rfl, ?_, rfl, rfl, rfl⟩
    · refine ⟨rfl, 0, ?_, rfl⟩
      exact (congrFun (field_setHandle s e.handle _) e.handle).trans (Function.update_self ..)
    · exact (Function.update_of_ne hzero.symm _ _).trans hl.null
    · unfold setBackupVar
      split_ifs <;> rfl
  · obtain ⟨h, hy, -⟩ := hl.exists_handle (show y ∈ ys ++ [y] by simp)
    have hne : e.handle ≠ y := by
      rintro rfl
      exact hnew (by simp)
    have hnil : ys ++ [y] ≠ [] := by simp
    have hhead : (ys ++ [y]).reverse.headD 0 = y := by simp
    refine ⟨_, newHookHandle_later hl hy hfresh hzero, ?_⟩
    rw [setBackupVar_cases]
    have hfield : ∀ {α : Type} (f : HookHandleExt → α) (k : HookHandleExt),
        ((s.setHandle y { h with next := e.handle }).setHandle e.handle k).field f =
          Function.update (Function.update (s.field f) y (some (f { h with next := e.handle })))
            e.handle (some (f k)) := by
      intro α f k
      rw [field_setHandle, field_setHandle]
    refine ⟨fun f hf => ?_, ?_, ?_, ?_, ?_, ?_, rfl, rfl, rfl⟩
    · refine (hfield f _).trans ?_
      rw [hf, ← field_eq hy, Function.update_eq_self, registeredHandle, hhead]
    · rw [if_neg hnil]
      refine (congrArg (Seg · info.rootHandle (ys ++ [y] ++ [e.handle]) 0) (hfield _ _)).mpr ?_
      rw [Function.update_comm hne.symm]
      refine Seg.concat ?_ (hl.next.update hnew) ?_
      · rw [Function.update_of_ne hzero.symm]
        exact field_null hl.null
      · rw [Function.update_of_ne hne, Function.update_self]
        rfl
    · exact (Function.update_of_ne hzero.symm _ _).trans
        ((Function.update_of_ne (hl.ne_zero (by simp)).symm _ _).trans hl.null)
    · simp only [if_neg hnil]
      rfl
    · simp only [if_neg hnil]
      rfl
    · unfold setBackupVar
      split_ifs <;> rfl

theorem firstData_rootHandle (e : System) (td : TrampolineData) (args : HookArgs)
    (relocated : Word) : (firstData e td args relocated).rootHandle = e.handle := by
  unfold firstData
  cases e.tlsKey <;> dsimp only <;> split_ifs <;> rfl

theorem laterData_rootHandle (td : TrampolineData) (args : HookArgs) (backup : Word) :
    (laterData td args backup).rootHandle = td.rootHandle := by
  unfold laterData
  split_ifs <;> rfl

namespace Registered

variable {xs : List Word} {s' : Process}

/-- The info and the trampoline data after the registration. -/
theorem listed (hr : Registered e s i info td args xs s') (hl : Listed s i info td xs)
    (hcount : info.handleCount ≠ 0xffff) :
    Listed s' i { info with
        handleCount := info.handleCount + 1
        rootHandle := if xs = [] then e.handle else info.rootHandle }
      (if xs = [] then firstData e td args info.relocated
        else laterData td args (lastHook info.relocated (xs.map s.hookOf))) (xs ++ [e.handle]) where
  null := hr.null
  id := hl.id
  hasInfo := by rw [hr.infos, Function.update_self]
  hasData := by rw [hr.trampolines, Function.update_self]
  next := hr.next
  count := by
    rw [List.length_append, List.length_singleton, ← hl.count]
    exact toNat_add_one hcount
  root := by
    split_ifs
    · exact firstData_rootHandle ..
    · exact (laterData_rootHandle ..).trans hl.root
  live := by
    intro p
    rw [infoOf, hr.field (·.info) (fun _ _ => rfl), List.mem_append, List.mem_singleton]
    by_cases hp : p = e.handle
    · rw [hp, Function.update_self]
      exact ⟨fun _ => .inr rfl, fun _ => rfl⟩
    · rw [Function.update_of_ne hp]
      exact (hl.live p).trans ⟨.inl, fun h => h.resolve_right hp⟩

theorem wellFormed (hr : Registered e s i info td args xs s') (hw : WellFormed s i info td xs)
    (hcount : info.handleCount ≠ 0xffff) (hfresh : s.handles e.handle = none) :
    WellFormed s' i { info with
        handleCount := info.handleCount + 1
        rootHandle := if xs = [] then e.handle else info.rootHandle }
      (if xs = [] then firstData e td args info.relocated
        else laterData td args (lastHook info.relocated (xs.map s.hookOf))) (xs ++ [e.handle]) where
  toListed := hr.listed hw.toListed hcount
  previous := by
    have hnew : e.handle ∉ xs.reverse := by simpa using hw.notMem hfresh
    rw [List.reverse_append, List.reverse_singleton, List.singleton_append, List.headD_cons,
      previousOf, hr.field (·.previous) (fun _ _ => rfl)]
    exact ⟨rfl, _, Function.update_self .., hw.previous.update hnew⟩

end Registered

/-! ### Removal -/

/-- What the removal of a handle, with the handles `ys` before and `zs` behind it, does to the
process. -/
structure Unregistered (s : Process) (i : Word) (info : HookInfo) (td : TrampolineData)
    (ys : List Word) (p : Word) (h : HookHandleExt) (zs : List Word) (s' : Process) : Prop where
  field : ∀ {α : Type} (f : HookHandleExt → α), (∀ h v, f { h with next := v } = f h) →
    (∀ h, f (shape h) = f h) → s'.field f = Function.update (s.field f) p none
  next : Seg s'.nextOf (if info.rootHandle = p then h.next else info.rootHandle) (ys ++ zs) 0
  null : s'.handles 0 = none
  infos : s'.infos = Function.update s.infos i (some { info with
    handleCount := info.handleCount - 1
    rootHandle := if info.rootHandle = p then h.next else info.rootHandle })
  trampolines : s'.trampolines = Function.update s.trampolines info.trampoline (some
    (unhookData td h (info.rootHandle = p) (lastHook 0 (ys.map s.hookOf))
      (lastHook info.relocated (ys.map s.hookOf))))
  backups : ∀ q, q ≠ p → s'.backupOf q =
    if q ∈ upToHook s.hookOf zs then lastHook info.relocated (ys.map s.hookOf) else s.backupOf q
  tracks : DistinctVars s (ys ++ p :: zs) → (∀ q ∈ ys ++ p :: zs, Tracks s q) →
    (∀ q, q ≠ p → s'.userBackupAddrOf q = s.userBackupAddrOf q) ∧ ∀ q ∈ ys ++ zs, Tracks s' q
  hooks : s'.hooks = s.hooks
  records : s'.records = s.records
  code : s'.toCodeMemory = s.toCodeMemory

/-- Linking the predecessor of a handle to its successor takes the handle out of the list. -/
theorem relink {t : Process} {p root : Word} {zs : List Word} (hnull : t.handles 0 = none)
    (hseg : Seg t.nextOf root (ys ++ p :: zs) 0) (hp : t.nextOf p = some h.next)
    (hlive : ∀ q ∈ ys, ∃ k, t.handles q = some k)
    (hback : Seg s.previousOf h.previous ys.reverse 0) :
    ∃ t', relinkPrevious t h.previous h.next = some t' ∧
      (∀ {α : Type} (f : HookHandleExt → α), (∀ h v, f { h with next := v } = f h) →
        t'.field f = t.field f) ∧
      Seg (Function.update t'.nextOf p none) (if root = p then h.next else root) (ys ++ zs) 0 ∧
      t' = { t with handles := t'.handles } ∧ t'.handles 0 = none := by
  have hnodup := hseg.nodup (field_null hnull)
  rcases List.eq_nil_or_concat' ys with rfl | ⟨us, y, rfl⟩
  · have hprev : h.previous = 0 := hback
    obtain ⟨rfl, r, hr, hzs⟩ := hseg
    obtain rfl := Option.some.inj (hp.symm.trans hr)
    refine ⟨t, if_neg (not_not.mpr hprev), fun _ _ => rfl, ?_, rfl, hnull⟩
    rw [if_pos rfl]
    exact hzs.update (List.nodup_cons.mp hnodup).1
  · rw [List.reverse_append] at hback
    obtain ⟨hprev, -⟩ := hback
    obtain ⟨k, hk⟩ := hlive y (by simp)
    have hroot : root ≠ p := by
      rintro rfl
      have hne : us ++ [y] ≠ [] := by simp
      obtain ⟨x, vs, hx⟩ := List.exists_cons_of_ne_nil hne
      rw [hx] at hseg hnodup
      obtain rfl := Seg.head_eq hseg
      exact (List.nodup_cons.mp hnodup).1 (by simp)
    have hp' : p ∉ us ++ y :: zs := by
      rw [show us ++ [y] ++ p :: zs = us ++ y :: p :: zs by simp, List.nodup_append,
        List.nodup_cons, List.nodup_cons] at hnodup
      obtain ⟨-, ⟨hy, hz, -⟩, hdisj⟩ := hnodup
      intro hmem
      rcases List.mem_append.mp hmem with hmem | hmem
      · exact hdisj p hmem p (by simp) rfl
      · rcases List.mem_cons.mp hmem with rfl | hmem
        · exact hy List.mem_cons_self
        · exact hz hmem
    refine ⟨t.setHandle y { k with next := h.next }, ?_, fun f hf => ?_, ?_, rfl, ?_⟩
    · rw [relinkPrevious, hprev, if_pos (ne_zero_of_handle hnull hk), hk]
      rfl
    · exact field_setHandle_same hk (hf k h.next)
    · rw [if_neg hroot, nextOf, field_setHandle]
      rw [show us ++ [y] ++ p :: zs = us ++ y :: p :: zs by simp] at hseg
      rw [show us ++ [y] ++ zs = us ++ y :: zs by simp]
      exact (Seg.remove (field_null hnull) hseg hp).update hp'
    · exact (Function.update_of_ne (ne_zero_of_handle hnull hk).symm _ _).trans hnull

/-- Removing a handle that is not the only one succeeds when `previous_` leads from it through the
handles before it. -/
theorem unhookExt_unregistered {p : Word} {zs : List Word}
    (hl : Listed s i info td (ys ++ p :: zs)) (hne : ys ++ zs ≠ []) (hp : s.handles p = some h)
    (hback : Seg s.previousOf h.previous ys.reverse 0) :
    ∃ s', unhookExt e s p = some (true, s') ∧ Unregistered s i info td ys p h zs s' := by
  obtain ⟨h', hp', hinfo⟩ := hl.exists_handle (show p ∈ ys ++ p :: zs by simp)
  obtain rfl := Option.some.inj (hp.symm.trans hp')
  have hlen := hl.length_lt
  have hcount := hl.count
  rw [List.length_append, List.length_cons] at hlen hcount
  have hmore : info.handleCount ≠ 1 := by
    intro hone
    rw [hone] at hcount
    have hpos := List.length_pos_iff.mpr hne
    rw [List.length_append] at hpos
    exact absurd hcount (by rw [show (1 : BitVec 16).toNat = 1 from rfl]; omega)
  have hprev : previousHook (s.setInfo i { info with
        handleCount := info.handleCount - 1
        rootHandle := if info.rootHandle = p then h.next else info.rootHandle }) maxObjects
      h.previous = some (lastHook 0 (ys.map s.hookOf)) :=
    previousHook_eq hl.null hback (by omega)
  obtain ⟨u, hys, hu, r, hr, hzs⟩ := seg_append.mp hl.next
  obtain rfl := Option.some.inj ((nextOf_eq hp).symm.trans hr)
  obtain ⟨t, ht, hshape, hbackups, htracks⟩ := updateBackups_eq
    (s := s.setInfo i { info with
      handleCount := info.handleCount - 1
      rootHandle := if info.rootHandle = p then h.next else info.rootHandle })
    (b := lastHook info.relocated (ys.map s.hookOf)) (n := maxObjects) hl.null hzs (by omega)
  have hrun : unhookExt e s p = (do
      let t := t.setTrampolineData info.trampoline (unhookData td h (info.rootHandle = p)
        (lastHook 0 (ys.map s.hookOf)) (lastHook info.relocated (ys.map s.hookOf)))
      let t ← relinkPrevious t h.previous h.next
      some (true, t.deleteHandle p)) := by
    rw [unhookExt, hp]
    simp only [Option.bind_eq_bind, Option.bind_some, hinfo, if_neg hl.id, hl.hasInfo,
      if_neg hmore, hl.hasData, hprev, ← lastHook_eq_ite]
    rw [ht]
    rfl
  have hlive : ∀ q ∈ ys, ∃ k, t.handles q = some k := by
    intro q hq
    obtain ⟨k, hk, -⟩ := hl.exists_handle (show q ∈ ys ++ p :: zs by simp [hq])
    have hq' := hshape.handles q
    rw [show (s.setInfo i { info with
      handleCount := info.handleCount - 1
      rootHandle := if info.rootHandle = p then h.next else info.rootHandle }).handles q = some k
        from hk] at hq'
    obtain ⟨k', hk', -⟩ := Option.map_eq_some_iff.mp hq'
    exact ⟨k', hk'⟩
  obtain ⟨t', ht', hkeep, hnext', hrest, hnull'⟩ := relink (s := s)
    (t := t.setTrampolineData info.trampoline (unhookData td h (info.rootHandle = p)
      (lastHook 0 (ys.map s.hookOf)) (lastHook info.relocated (ys.map s.hookOf))))
    (hshape.null hl.null) (hshape.nextOf ▸ hl.next) (hshape.nextOf ▸ nextOf_eq hp) hlive hback
  have hpzero := hl.ne_zero (show p ∈ ys ++ p :: zs by simp)
  refine ⟨t'.deleteHandle p, ?_, ?_⟩
  · rw [hrun]
    simp only [Option.bind_eq_bind, ht', Option.bind_some]
  have hback' : ∀ {α : Type} (f : HookHandleExt → α), (∀ h v, f { h with next := v } = f h) →
      (t'.deleteHandle p).field f = Function.update (t.field f) p none := by
    intro α f hf
    rw [field_deleteHandle, hkeep f hf]
    rfl
  refine ⟨fun f hf hfs => ?_, ?_, ?_, ?_, ?_, fun q hq => ?_, fun hd htr => ?_, ?_, ?_, ?_⟩
  · rw [hback' f hf, hshape.field hfs]
    rfl
  · rw [nextOf, field_deleteHandle]
    exact hnext'
  · exact (Function.update_of_ne hpzero.symm _ _).trans hnull'
  · rw [hrest]
    exact hshape.infos
  · rw [hrest]
    exact congrArg (Function.update · info.trampoline _) hshape.trampolines
  · refine (valueOf_congr ?_).trans (hbackups q)
    rw [hback' (·.backup) (fun _ _ => rfl), Function.update_of_ne hq]
  · obtain ⟨haddr, htr'⟩ := htracks (ys ++ p :: zs) (fun q hq => by simp [hq]) hd htr
    have haddr' : ∀ q, q ≠ p → (t'.deleteHandle p).userBackupAddrOf q = t.userBackupAddrOf q := by
      intro q hq
      refine valueOf_congr ?_
      rw [hback' (·.userBackupAddr) (fun _ _ => rfl), Function.update_of_ne hq]
    refine ⟨fun q hq => (haddr' q hq).trans (congrFun haddr q), fun q hq => ?_⟩
    have hqp : q ≠ p := by
      rintro rfl
      have hnodup := hl.nodup
      rw [List.nodup_middle, List.nodup_cons] at hnodup
      exact hnodup.1 hq
    have hq' := htr' q (by
      rcases List.mem_append.mp hq with hq | hq <;> simp [hq])
    have hbackup : (t'.deleteHandle p).backupOf q = t.backupOf q := by
      refine valueOf_congr ?_
      rw [hback' (·.backup) (fun _ _ => rfl), Function.update_of_ne hqp]
    unfold Tracks at hq' ⊢
    rw [haddr' q hqp, hbackup, hrest]
    exact hq'
  · rw [hrest]
    exact hshape.hooks
  · rw [hrest]
    exact hshape.records
  · rw [hrest]
    exact hshape.code

theorem unhookData_rootHandle (td : TrampolineData) (h : HookHandleExt) (isRoot : Bool)
    (previous newBackup : Word) : (unhookData td h isRoot previous newBackup).rootHandle =
      if isRoot then h.next else td.rootHandle := by
  unfold unhookData
  dsimp only
  split_ifs <;> rfl

namespace Unregistered

variable {s' : Process} {p : Word} {zs : List Word}

theorem listed (hu : Unregistered s i info td ys p h zs s')
    (hl : Listed s i info td (ys ++ p :: zs)) :
    Listed s' i { info with
        handleCount := info.handleCount - 1
        rootHandle := if info.rootHandle = p then h.next else info.rootHandle }
      (unhookData td h (info.rootHandle = p) (lastHook 0 (ys.map s.hookOf))
        (lastHook info.relocated (ys.map s.hookOf))) (ys ++ zs) where
  null := hu.null
  id := hl.id
  hasInfo := by rw [hu.infos, Function.update_self]
  hasData := by rw [hu.trampolines, Function.update_self]
  next := hu.next
  count := by
    have hcount := hl.count
    rw [List.length_append, List.length_cons] at hcount
    rw [List.length_append, BitVec.toNat_sub, show (1 : BitVec 16).toNat = 1 from rfl]
    omega
  root := by
    rw [unhookData_rootHandle, hl.root]
    simp only [decide_eq_true_eq]
  live := by
    intro q
    have hnodup := hl.nodup
    rw [List.nodup_middle, List.nodup_cons] at hnodup
    rw [infoOf, hu.field (·.info) (fun _ _ => rfl) (fun _ => rfl)]
    by_cases hq : q = p
    · rw [hq, Function.update_self]
      exact ⟨fun hnone => absurd hnone (by simp), fun hmem => absurd hmem hnodup.1⟩
    · rw [Function.update_of_ne hq]
      refine (hl.live q).trans ?_
      simp [hq]

/-- The back links stay intact when the last handle is removed. -/
theorem wellFormed (hu : Unregistered s i info td ys p h [] s')
    (hw : WellFormed s i info td (ys ++ [p])) :
    WellFormed s' i { info with
        handleCount := info.handleCount - 1
        rootHandle := if info.rootHandle = p then h.next else info.rootHandle }
      (unhookData td h (info.rootHandle = p) (lastHook 0 (ys.map s.hookOf))
        (lastHook info.relocated (ys.map s.hookOf))) (ys ++ []) where
  toListed := hu.listed hw.toListed
  previous := by
    have hnodup := hw.nodup
    rw [List.nodup_append] at hnodup
    have hp' : p ∉ ys.reverse := fun hmem =>
      hnodup.2.2 p (List.mem_reverse.mp hmem) p (List.mem_singleton_self p) rfl
    have hprev := hw.previous
    rw [List.reverse_append, List.reverse_singleton, List.singleton_append] at hprev
    obtain ⟨-, r, hr, hseg⟩ := hprev
    have hhead : r = ys.reverse.headD 0 := by
      cases hys : ys.reverse with
      | nil =>
        rw [hys] at hseg
        exact hseg
      | cons y us =>
        rw [hys] at hseg
        exact hseg.1
    rw [List.append_nil, previousOf, hu.field (·.previous) (fun _ _ => rfl) (fun _ => rfl),
      ← hhead]
    exact hseg.update hp'

end Unregistered

/-- From a handle of a well-formed list, `previous_` leads through the handles before it. -/
theorem WellFormed.back {p : Word} {zs : List Word} (hw : WellFormed s i info td (ys ++ p :: zs))
    (hp : s.handles p = some h) : Seg s.previousOf h.previous ys.reverse 0 := by
  have hprev := hw.previous
  rw [List.reverse_append, List.reverse_cons, List.append_assoc] at hprev
  obtain ⟨u, -, hu⟩ := seg_append.mp hprev
  obtain ⟨rfl, r, hr, hseg⟩ := hu
  obtain rfl := Option.some.inj ((previousOf_eq hp).symm.trans hr)
  exact hseg

end Process
end Rv64Hook
