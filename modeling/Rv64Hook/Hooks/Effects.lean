import Rv64Hook.Hooks.Loops

/-! What the operations on handles do whatever the links between the handles are. -/
namespace Rv64Hook
open ByteMem Rv64 LinkedList

namespace Process

/-- The fields of a handle that the operations on other handles leave alone. -/
def core (h : HookHandleExt) : HookHandleExt :=
  { h with
    backup := 0
    previous := 0
    next := 0
    userBackupAddr := 0 }

theorem fields_of_core {h k : HookHandleExt} (heq : core k = core h) :
    k.info = h.info ∧ k.address = h.address ∧ k.hook = h.hook := by
  have hinfo := congrArg HookHandleExt.info heq
  have haddress := congrArg HookHandleExt.address heq
  have hhook := congrArg HookHandleExt.hook heq
  exact ⟨hinfo, haddress, hhook⟩

/-- The processes differ at most in links, backups and variables of the user. -/
structure SameCore (s s' : Process) : Prop where
  handles : ∀ q, (s'.handles q).map core = (s.handles q).map core
  infos : s'.infos = s.infos
  trampolines : s'.trampolines = s.trampolines
  hooks : s'.hooks = s.hooks
  records : s'.records = s.records
  code : s'.toCodeMemory = s.toCodeMemory

variable {e : System} {s s' t : Process} {i p q root new b : Word} {h k : HookHandleExt}
  {info : HookInfo} {td : TrampolineData} {args : HookArgs} {n : ℕ} {initialized : Bool}

namespace SameCore

theorem refl (s : Process) : SameCore s s := ⟨fun _ => rfl, rfl, rfl, rfl, rfl, rfl⟩

theorem trans (h : SameCore s s') (h' : SameCore s' t) : SameCore s t :=
  ⟨fun q => (h'.handles q).trans (h.handles q), h'.infos.trans h.infos,
    h'.trampolines.trans h.trampolines, h'.hooks.trans h.hooks, h'.records.trans h.records,
    h'.code.trans h.code⟩

end SameCore

theorem SameShape.sameCore (h : SameShape s s') : SameCore s s' := by
  refine ⟨fun q => ?_, h.infos, h.trampolines, h.hooks, h.records, h.code⟩
  have hcomp : core ∘ shape = core := rfl
  have hq := congrArg (Option.map core) (h.handles q)
  rwa [Option.map_map, Option.map_map, hcomp] at hq

theorem sameCore_setHandle (hp : s.handles p = some h) (hk : core k = core h) :
    SameCore s (s.setHandle p k) := by
  refine ⟨fun q => ?_, rfl, rfl, rfl, rfl, rfl⟩
  by_cases hq : q = p
  · rw [hq, setHandle_handles, Function.update_self, hp]
    exact congrArg some hk
  · rw [setHandle_handles, Function.update_of_ne hq]

/-- The loop of `NewHookHandle` changes links only. -/
theorem appendHandle_sameCore (hs : appendHandle new n p b s = some (s', q)) : SameCore s s' := by
  induction n generalizing p b with
  | zero => cases hs
  | succ n ih =>
    rw [appendHandle] at hs
    split at hs
    · obtain ⟨rfl, -⟩ := Prod.mk.inj (Option.some.inj hs)
      exact .refl s
    · obtain ⟨h, hp, hs⟩ := Option.bind_eq_some_iff.mp hs
      dsimp only at hs
      split at hs
      · obtain ⟨k, hk, hs⟩ := Option.bind_eq_some_iff.mp hs
        obtain ⟨rfl, -⟩ := Prod.mk.inj (Option.some.inj hs)
        exact (sameCore_setHandle hp (k := { h with next := new }) rfl).trans
          (sameCore_setHandle hk rfl)
      · exact ih hs

theorem relinkPrevious_sameCore (hs : relinkPrevious s p q = some s') : SameCore s s' := by
  unfold relinkPrevious at hs
  split at hs
  · obtain ⟨h, hp, hs⟩ := Option.bind_eq_some_iff.mp hs
    obtain rfl := Option.some.inj hs
    exact sameCore_setHandle hp rfl
  · obtain rfl := Option.some.inj hs
    exact .refl s

/-- What a registration does. -/
structure Added (e : System) (s : Process) (i : Word) (info : HookInfo) (td : TrampolineData)
    (args : HookArgs) (s' : Process) : Prop where
  handles : ∀ q, (s'.handles q).map core =
    if q = e.handle then some (core (newHandle i info.address args)) else (s.handles q).map core
  infos : s'.infos = Function.update s.infos i (some { info with
    handleCount := info.handleCount + 1
    rootHandle := if info.rootHandle = 0 then e.handle else info.rootHandle })
  data : ∃ b, s'.trampolines = Function.update s.trampolines info.trampoline (some
    (if info.rootHandle = 0 then firstData e td args info.relocated else laterData td args b))
  hooks : s'.hooks = s.hooks
  records : s'.records = s.records
  code : s'.toCodeMemory = s.toCodeMemory

/-- What the removal of a handle does that is not the last one of its info. -/
structure Removed (s : Process) (info : HookInfo) (td : TrampolineData) (p : Word)
    (h : HookHandleExt) (s' : Process) : Prop where
  handles : ∀ q, (s'.handles q).map core = if q = p then none else (s.handles q).map core
  infos : s'.infos = Function.update s.infos h.info (some { info with
    handleCount := info.handleCount - 1
    rootHandle := if info.rootHandle = p then h.next else info.rootHandle })
  data : ∃ previous newBackup, s'.trampolines = Function.update s.trampolines info.trampoline
    (some (unhookData td h (info.rootHandle = p) previous newBackup))
  hooks : s'.hooks = s.hooks
  records : s'.records = s.records
  code : s'.toCodeMemory = s.toCodeMemory

theorem setBackupVar_sameCore (s : Process) (addr v : Word) :
    SameCore s (s.setBackupVar addr v) := by
  unfold setBackupVar setVar
  split_ifs <;> exact ⟨fun _ => rfl, rfl, rfl, rfl, rfl, rfl⟩

theorem newHookHandle_added (hs : newHookHandle e s i args = some s') :
    ∃ info td, s.infos i = some info ∧ s.trampolines info.trampoline = some td ∧
      Added e s i info td args s' := by
  obtain ⟨info, hinfo, hs⟩ := Option.bind_eq_some_iff.mp hs
  obtain ⟨td, htd, hs⟩ := Option.bind_eq_some_iff.mp hs
  refine ⟨info, td, hinfo, htd, ?_⟩
  dsimp only at hs
  have hnew : ∀ q, (((s.setHandle e.handle (newHandle i info.address args)).handles q).map core) =
      if q = e.handle then some (core (newHandle i info.address args))
      else (s.handles q).map core := by
    intro q
    by_cases hq : q = e.handle
    · rw [if_pos hq, hq, setHandle_handles, Function.update_self]
      rfl
    · rw [if_neg hq, setHandle_handles, Function.update_of_ne hq]
  split at hs
  · rename_i hroot
    have hroot' : info.rootHandle ≠ 0 := hroot
    obtain ⟨⟨t, b⟩, ht, hs⟩ := Option.bind_eq_some_iff.mp hs
    obtain ⟨h, hh, hs⟩ := Option.bind_eq_some_iff.mp hs
    obtain rfl := Option.some.inj hs
    have hcore := ((appendHandle_sameCore ht).trans (sameCore_setHandle hh (k := { h with
      backup := b }) rfl)).trans (setBackupVar_sameCore _ args.userBackupAddr b)
    refine ⟨fun q => (hcore.handles q).trans (hnew q), ?_, ⟨b, ?_⟩, hcore.hooks, hcore.records,
      hcore.code⟩
    · rw [if_neg hroot']
      exact hcore.infos
    · rw [if_neg hroot']
      exact congrArg (Function.update · info.trampoline _) hcore.trampolines
  · rename_i hroot
    have hroot' : info.rootHandle = 0 := not_not.mp hroot
    obtain ⟨h, hh, hs⟩ := Option.bind_eq_some_iff.mp hs
    obtain rfl := Option.some.inj hs
    have hcore := (sameCore_setHandle hh (k := { h with backup := info.relocated }) rfl).trans
      (setBackupVar_sameCore _ args.userBackupAddr info.relocated)
    refine ⟨fun q => (hcore.handles q).trans (hnew q), ?_, ⟨0, ?_⟩, hcore.hooks, hcore.records,
      hcore.code⟩
    · rw [if_pos hroot']
      exact hcore.infos.trans (Function.update_idem ..)
    · rw [if_pos hroot']
      exact congrArg (Function.update · info.trampoline _) hcore.trampolines

theorem field_eq_map_core {α : Type} {f : HookHandleExt → α} (hf : ∀ k, f (core k) = f k)
    (s : Process) (q : Word) : s.field f q = ((s.handles q).map core).map f := by
  rw [Option.map_map, show f ∘ core = f from funext hf]
  rfl

theorem Added.field {α : Type} {f : HookHandleExt → α} (ha : Added e s i info td args s')
    (hf : ∀ k, f (core k) = f k) :
    s'.field f = Function.update (s.field f) e.handle
      (some (f (newHandle i info.address args))) := by
  funext q
  rw [field_eq_map_core hf, ha.handles]
  by_cases hq : q = e.handle
  · rw [if_pos hq, hq, Function.update_self, Option.map_some, hf]
  · rw [if_neg hq, Function.update_of_ne hq, field_eq_map_core hf]

theorem Removed.field {α : Type} {f : HookHandleExt → α} (hr : Removed s info td p h s')
    (hf : ∀ k, f (core k) = f k) : s'.field f = Function.update (s.field f) p none := by
  funext q
  rw [field_eq_map_core hf, hr.handles]
  by_cases hq : q = p
  · rw [if_pos hq, hq, Function.update_self]
    rfl
  · rw [if_neg hq, Function.update_of_ne hq, field_eq_map_core hf]

/-- `WriteFirstTrampoline` writes the bytes of the trampoline, or nothing, and it clears them from
the instruction cache unless the trampoline is wide. -/
theorem writeFirstTrampoline_eq {writable : Addr → ℕ → Bool} {c c' : CodeMemory} {a target : Word}
    {type : TrampolineType} {copied : Bool}
    (hw : c.writeFirstTrampoline writable a target type = some (copied, c')) :
    ∃ bs : List Byte, bs.length = Trampoline.getFirstTrampolineSize type ∧
      copied = writable a bs.length ∧
      c'.mem = (if copied then store c.mem a bs else c.mem) ∧
      (c'.stale = fun q => (c.stale q || (copied && decide (InRange a bs.length q))) &&
        !decide (InRange a (if type = .kWide ∨ type = .kCustom then 0 else bs.length) q)) ∧
      c'.blocks = c.blocks ∧ c'.userBlocks = c.userBlocks := by
  obtain ⟨w, hw, hc⟩ := Option.bind_eq_some_iff.mp hw
  obtain ⟨bs, hlen, hcopied, hmem, hsize⟩ := Trampoline.writeFirstTrampoline_written hw
  obtain ⟨rfl, rfl⟩ := Prod.mk.inj (Option.some.inj hc)
  refine ⟨bs, hlen, hcopied, hmem, ?_, rfl, rfl⟩
  rw [← hsize, hlen]
  rfl

/-- `HookInfo::Unhook` keeps handles, infos and records, and it restores the saved bytes. -/
theorem unhookInfo_eq (hs : unhookInfo e s i initialized = some s') :
    ∃ info td, s.infos i = some info ∧ s.trampolines info.trampoline = some td ∧
      s'.handles = s.handles ∧ s'.infos = s.infos ∧ s'.records = s.records ∧
      s'.trampolines = Function.update s.trampolines info.trampoline none ∧
      s'.hooks = Function.update s.hooks i none ∧
      (s'.mem = if initialized then (s.copy e.writable info.address
        (info.functionBackup.take info.functionBackupSize.toNat)).2.mem else s.mem) ∧
      (s'.stale = if initialized then ((s.copy e.writable info.address
        (info.functionBackup.take info.functionBackupSize.toNat)).2.clearCache info.address
          info.functionBackupSize.toNat).stale else s.stale) := by
  obtain ⟨info, hinfo, hs⟩ := Option.bind_eq_some_iff.mp hs
  obtain ⟨td, htd, hs⟩ := Option.bind_eq_some_iff.mp hs
  obtain rfl := Option.some.inj hs
  refine ⟨info, td, hinfo, htd, rfl, rfl, rfl, rfl, rfl, ?_, ?_⟩
  · cases initialized <;> dsimp only <;> split <;> rfl
  · cases initialized <;> dsimp only <;> split <;> rfl

theorem unhookExt_cases {r : Bool} (hs : unhookExt e s p = some (r, s')) :
    ∃ h, s.handles p = some h ∧ (h.info = 0 ∧ s' = s ∨
      h.info ≠ 0 ∧ ∃ info, s.infos h.info = some info ∧
        (info.handleCount = 1 ∧ unhookInfo e (s.deleteHandle p) h.info true = some s' ∨
          info.handleCount ≠ 1 ∧ ∃ td, s.trampolines info.trampoline = some td ∧
            Removed s info td p h s')) := by
  obtain ⟨h, hp, hs⟩ := Option.bind_eq_some_iff.mp hs
  refine ⟨h, hp, ?_⟩
  split at hs
  · rename_i hinfo
    obtain ⟨-, rfl⟩ := Prod.mk.inj (Option.some.inj hs)
    exact .inl ⟨hinfo, rfl⟩
  rename_i hinfo
  obtain ⟨info, hi, hs⟩ := Option.bind_eq_some_iff.mp hs
  refine .inr ⟨hinfo, info, hi, ?_⟩
  split at hs
  · rename_i hcount
    obtain ⟨t, ht, hs⟩ := Option.bind_eq_some_iff.mp hs
    obtain ⟨-, rfl⟩ := Prod.mk.inj (Option.some.inj hs)
    exact .inl ⟨hcount, ht⟩
  rename_i hcount
  obtain ⟨td, htd, hs⟩ := Option.bind_eq_some_iff.mp hs
  dsimp only at hs
  obtain ⟨previous, -, hs⟩ := Option.bind_eq_some_iff.mp hs
  obtain ⟨t, ht, hs⟩ := Option.bind_eq_some_iff.mp hs
  obtain ⟨u, hu, hs⟩ := Option.bind_eq_some_iff.mp hs
  obtain ⟨-, rfl⟩ := Prod.mk.inj (Option.some.inj hs)
  have hcore := (updateBackups_sameShape ht).sameCore
  have hcore' := relinkPrevious_sameCore hu
  refine .inr ⟨hcount, td, htd, fun q => ?_, ?_, ⟨previous,
    if previous ≠ 0 then previous else info.relocated, ?_⟩, ?_, ?_, ?_⟩
  · by_cases hq : q = p
    · rw [if_pos hq, hq, deleteHandle_handles, Function.update_self]
      rfl
    · rw [if_neg hq, deleteHandle_handles, Function.update_of_ne hq]
      exact (hcore'.handles q).trans (hcore.handles q)
  · exact hcore'.infos.trans hcore.infos
  · exact hcore'.trampolines.trans (congrArg (Function.update · _ _) hcore.trampolines)
  · exact hcore'.hooks.trans hcore.hooks
  · exact hcore'.records.trans hcore.records
  · exact hcore'.code.trans hcore.code

/-- The loop of `UnhookAllExt` deletes the handles of a list. -/
theorem deleteHandles_eq (hs : deleteHandles n p s = some s') :
    ∃ xs, Seg s.nextOf p xs 0 ∧ (∀ q, s'.handles q = if q ∈ xs then none else s.handles q) ∧
      s' = { s with handles := s'.handles } := by
  induction n generalizing p s with
  | zero => cases hs
  | succ n ih =>
    obtain ⟨h, hp, hs⟩ := Option.bind_eq_some_iff.mp hs
    dsimp only at hs
    split at hs
    · rename_i hnext
      obtain rfl := Option.some.inj hs
      refine ⟨[p], ⟨rfl, h.next, nextOf_eq hp, hnext⟩, fun q => ?_, rfl⟩
      by_cases hq : q = p
      · rw [if_pos (by simp [hq]), hq, deleteHandle_handles, Function.update_self]
      · rw [if_neg (by simp [hq]), deleteHandle_handles, Function.update_of_ne hq]
    · obtain ⟨xs, hseg, hhandles, hrest⟩ := ih hs
      have hdead : (s.deleteHandle p).nextOf p = none := by
        rw [nextOf, field_deleteHandle, Function.update_self]
      have hpxs : p ∉ xs := by
        intro hmem
        obtain ⟨r, hr⟩ := hseg.live hmem
        rw [hdead] at hr
        cases hr
      refine ⟨p :: xs, ⟨rfl, h.next, nextOf_eq hp, ?_⟩, fun q => ?_, hrest⟩
      · refine hseg.congr fun q hq => ?_
        have hqp : q ≠ p := by
          rintro rfl
          exact hpxs hq
        rw [nextOf, nextOf, field_deleteHandle, Function.update_of_ne hqp]
      · rw [hhandles]
        by_cases hq : q ∈ xs
        · rw [if_pos hq, if_pos (List.mem_cons_of_mem _ hq)]
        · rw [if_neg hq]
          by_cases hqp : q = p
          · rw [if_pos (by simp [hqp]), hqp, deleteHandle_handles, Function.update_self]
          · rw [if_neg (by simp [hq, hqp]), deleteHandle_handles, Function.update_of_ne hqp]

theorem unhookAllExt_cases {r : Bool} (hs : unhookAllExt e s p = some (r, s')) :
    ∃ h, s.handles p = some h ∧ (h.info = 0 ∧ s' = s ∨
      h.info ≠ 0 ∧ ∃ info xs t, s.infos h.info = some info ∧ Seg s.nextOf info.rootHandle xs 0 ∧
        (∀ q, t.handles q = if q ∈ xs then none else s.handles q) ∧
        t = { s with handles := t.handles } ∧ unhookInfo e t h.info true = some s') := by
  obtain ⟨h, hp, hs⟩ := Option.bind_eq_some_iff.mp hs
  refine ⟨h, hp, ?_⟩
  split at hs
  · rename_i hinfo
    obtain ⟨-, rfl⟩ := Prod.mk.inj (Option.some.inj hs)
    exact .inl ⟨hinfo, rfl⟩
  rename_i hinfo
  obtain ⟨info, hi, hs⟩ := Option.bind_eq_some_iff.mp hs
  obtain ⟨t, ht, hs⟩ := Option.bind_eq_some_iff.mp hs
  obtain ⟨u, hu, hs⟩ := Option.bind_eq_some_iff.mp hs
  obtain ⟨-, rfl⟩ := Prod.mk.inj (Option.some.inj hs)
  obtain ⟨xs, hseg, hhandles, hrest⟩ := deleteHandles_eq ht
  exact .inr ⟨hinfo, info, xs, t, hi, hseg, hhandles, hrest, hu⟩

end Process
end Rv64Hook
