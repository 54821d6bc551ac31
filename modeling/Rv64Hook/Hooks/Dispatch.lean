import Rv64Hook.Hooks.Chain

/-! The chain of backups and the entry target, through registrations and removals. -/
namespace Rv64Hook
open ByteMem Rv64 LinkedList

namespace Process

/-- Where the second trampoline sends a call of the hooked function. -/
def entryTarget (td : TrampolineData) : Word := if td.hook ≠ 0 then td.hook else td.backup

/-- Every handle continues with the hook registered before it, the entry is the last hook, and
the post handlers are counted. -/
structure Dispatch (s : Process) (relocated : Word) (td : TrampolineData) (xs : List Word) :
    Prop where
  backups : ∀ ys p zs, xs = ys ++ p :: zs → s.backupOf p = lastHook relocated (ys.map s.hookOf)
  entry : entryTarget td = lastHook relocated (xs.map s.hookOf)
  hookOnly : td.hook ≠ 0 → ∀ p ∈ xs, s.hookOf p ≠ 0
  posts : td.postHandlers.toNat = xs.countP fun p => s.postHandlerOf p ≠ 0

variable {e : System} {s s' : Process} {i p : Word} {info : HookInfo} {td : TrampolineData}
  {args : HookArgs} {xs ys zs : List Word} {h : HookHandleExt}

namespace Registered

theorem field_of_ne {α : Type} {f : HookHandleExt → α} (hr : Registered e s i info td args xs s')
    (hf : ∀ h v, f { h with next := v } = f h) (hp : p ≠ e.handle) :
    s'.field f p = s.field f p := by
  rw [hr.field f hf, Function.update_of_ne hp]

theorem valueOf_new {f : HookHandleExt → Word} (hr : Registered e s i info td args xs s')
    (hf : ∀ h v, f { h with next := v } = f h) :
    s'.valueOf f e.handle = f (registeredHandle s i info args xs) := by
  rw [valueOf, hr.field f hf, Function.update_self]
  rfl

theorem hookOf_of_ne (hr : Registered e s i info td args xs s') (hp : p ≠ e.handle) :
    s'.hookOf p = s.hookOf p := valueOf_congr (hr.field_of_ne (fun _ _ => rfl) hp)

theorem map_hookOf (hr : Registered e s i info td args xs s') (hnew : e.handle ∉ ys) :
    ys.map s'.hookOf = ys.map s.hookOf := by
  refine List.map_congr_left fun q hq => hr.hookOf_of_ne ?_
  rintro rfl
  exact hnew hq

/-- The new handle continues with the last hook before it. -/
theorem backups (hr : Registered e s i info td args xs s') (hnew : e.handle ∉ xs)
    (hd : ∀ ys p zs, xs = ys ++ p :: zs →
      s.backupOf p = lastHook info.relocated (ys.map s.hookOf)) :
    ∀ ys p zs, xs ++ [e.handle] = ys ++ p :: zs →
      s'.backupOf p = lastHook info.relocated (ys.map s'.hookOf) := by
  intro ys p zs hsplit
  rcases List.eq_nil_or_concat' zs with rfl | ⟨us, z, rfl⟩
  · obtain ⟨rfl, hp⟩ := List.append_inj' hsplit rfl
    obtain rfl := List.singleton_inj.mp hp
    rw [hr.map_hookOf hnew]
    exact hr.valueOf_new fun _ _ => rfl
  · rw [show ys ++ p :: (us ++ [z]) = ys ++ p :: us ++ [z] by simp] at hsplit
    obtain ⟨rfl, -⟩ := List.append_inj' hsplit rfl
    have hp : p ≠ e.handle := by
      rintro rfl
      exact hnew (by simp)
    have hys : e.handle ∉ ys := fun hmem => hnew (by simp [hmem])
    rw [hr.map_hookOf hys, ← hd ys p us rfl]
    exact valueOf_congr (hr.field_of_ne (fun _ _ => rfl) hp)

theorem posts (hr : Registered e s i info td args xs s') (hnew : e.handle ∉ xs) :
    (xs ++ [e.handle]).countP (fun p => s'.postHandlerOf p ≠ 0) =
      xs.countP (fun p => s.postHandlerOf p ≠ 0) + if args.postHandler ≠ 0 then 1 else 0 := by
  have hnewPost : s'.postHandlerOf e.handle = args.postHandler := hr.valueOf_new fun _ _ => rfl
  rw [List.countP_append, List.countP_singleton, hnewPost]
  congr 1
  · refine List.countP_congr fun q hq => ?_
    have hqe : q ≠ e.handle := by
      rintro rfl
      exact hnew hq
    rw [show s'.postHandlerOf q = s.postHandlerOf q from
      valueOf_congr (hr.field_of_ne (fun _ _ => rfl) hqe)]
  · simp only [decide_eq_true_eq]

end Registered

theorem firstData_eq (e : System) (args : HookArgs) (relocated : Word) :
    (firstData e {} args relocated).hook = args.hook ∧
      (firstData e {} args relocated).backup = (if args.hook ≠ 0 then 0 else relocated) ∧
      (firstData e {} args relocated).postHandlers =
        if args.hook ≠ 0 then 0 else if args.postHandler ≠ 0 then 1 else 0 := by
  unfold firstData
  cases e.tlsKey <;> dsimp only <;> split_ifs with h <;> simp_all

/-- The first registration, with zeroed trampoline data, sets up the dispatch. -/
theorem Registered.dispatch_first (hr : Registered e s i info {} args [] s')
    (hargs : args.hook ≠ 0 → args.postHandler = 0) :
    Dispatch s' info.relocated (firstData e {} args info.relocated) [e.handle] := by
  obtain ⟨hhook, hbackup, hposts⟩ := firstData_eq e args info.relocated
  have hnewHook : s'.hookOf e.handle = args.hook := hr.valueOf_new fun _ _ => rfl
  refine ⟨hr.backups List.not_mem_nil (by simp), ?_, fun hne p hp => ?_, ?_⟩
  · rw [entryTarget, hhook, hbackup, List.map_singleton, hnewHook, lastHook_cons, lastHook_nil]
    split_ifs <;> rfl
  · rw [List.mem_singleton.mp hp, hnewHook]
    rwa [hhook] at hne
  · have hcount := hr.posts (by simp)
    rw [List.nil_append] at hcount
    rw [hcount, hposts]
    by_cases hh : args.hook = 0
    · rw [if_neg (not_not.mpr hh), List.countP_nil]
      split_ifs <;> rfl
    · rw [if_pos hh, if_neg (not_not.mpr (hargs hh))]
      rfl

/-- A further registration keeps the dispatch. -/
theorem Registered.dispatch_later (hr : Registered e s i info td args xs s')
    (hnew : e.handle ∉ xs) (hd : Dispatch s info.relocated td xs)
    (hargs : args.hook ≠ 0 → args.postHandler = 0) (hlen : xs.length < 0xffff) :
    Dispatch s' info.relocated (laterData td args (lastHook info.relocated (xs.map s.hookOf)))
      (xs ++ [e.handle]) := by
  have hnewHook : s'.hookOf e.handle = args.hook := hr.valueOf_new fun _ _ => rfl
  have hmap := hr.map_hookOf hnew
  refine ⟨hr.backups hnew hd.backups, ?_, fun hne p hp => ?_, ?_⟩
  · rw [List.map_append, List.map_singleton, hnewHook, lastHook_concat, hmap, ← hd.entry]
    unfold laterData entryTarget
    split_ifs <;> simp_all
  · have hboth : args.hook ≠ 0 ∧ td.hook ≠ 0 := by
      unfold laterData at hne
      split_ifs at hne with h₁ h₂
      · exact ⟨h₁, h₂⟩
      · exact absurd hne h₂
      all_goals exact absurd rfl hne
    rcases List.mem_append.mp hp with hp | hp
    · have hpe : p ≠ e.handle := by
        rintro rfl
        exact hnew hp
      rw [hr.hookOf_of_ne hpe]
      exact hd.hookOnly hboth.2 p hp
    · rw [List.mem_singleton.mp hp, hnewHook]
      exact hboth.1
  · have hposts := hd.posts
    have hle := List.countP_le_length (p := fun p => decide (s.postHandlerOf p ≠ 0)) (l := xs)
    rw [hr.posts hnew, ← hposts]
    have hne : td.postHandlers ≠ 0xffff := by
      intro heq
      rw [heq] at hposts
      have hval : (0xffff : BitVec 16).toNat = 65535 := rfl
      omega
    unfold laterData
    by_cases hh : args.hook = 0
    · rw [if_neg (not_not.mpr hh)]
      split_ifs
      · exact toNat_add_one hne
      · rfl
    · rw [if_pos hh, if_neg (not_not.mpr (hargs hh))]
      split_ifs <;> rfl

/-! ### Removal -/

/-- No two handles of the list have the same hook. -/
def DistinctHooks (s : Process) (xs : List Word) : Prop :=
  ∀ p ∈ xs, ∀ q ∈ xs, s.hookOf p ≠ 0 → s.hookOf p = s.hookOf q → p = q

theorem upToHook_subset (hook : Word → Word) (xs : List Word) :
    ∀ q ∈ upToHook hook xs, q ∈ xs := by
  induction xs with
  | nil => exact fun q hq => hq
  | cons x xs ih =>
    intro q hq
    unfold upToHook at hq
    split_ifs at hq
    · rw [List.mem_singleton.mp hq]
      exact List.mem_cons_self
    · rcases List.mem_cons.mp hq with rfl | hq
      · exact List.mem_cons_self
      · exact List.mem_cons_of_mem _ (ih q hq)

/-- A handle is reached exactly when no handle before it has a hook. -/
theorem mem_upToHook_iff (hook : Word → Word) {q : Word} (hq : q ∉ ys) :
    q ∈ upToHook hook (ys ++ q :: zs) ↔ ∀ k ∈ ys.map hook, k = 0 := by
  induction ys with
  | nil =>
    rw [List.nil_append, upToHook]
    split_ifs <;> simp
  | cons y ys ih =>
    rw [List.mem_cons, not_or] at hq
    rw [List.cons_append, upToHook, List.map_cons, List.forall_mem_cons]
    split_ifs with hy
    · rw [List.mem_singleton]
      exact ⟨fun heq => absurd heq hq.1, fun h => absurd h.1 hy⟩
    · rw [List.mem_cons, ih hq.2]
      simp [hq.1, not_not.mp hy]

namespace Unregistered

theorem field_of_ne {α : Type} {f : HookHandleExt → α} {q : Word}
    (hu : Unregistered s i info td ys p h zs s') (hf : ∀ h v, f { h with next := v } = f h)
    (hs : ∀ h, f (shape h) = f h) (hq : q ≠ p) : s'.field f q = s.field f q := by
  rw [hu.field f hf hs, Function.update_of_ne hq]

theorem hookOf_of_ne {q : Word} (hu : Unregistered s i info td ys p h zs s') (hq : q ≠ p) :
    s'.hookOf q = s.hookOf q :=
  valueOf_congr (hu.field_of_ne (fun _ _ => rfl) (fun _ => rfl) hq)

theorem map_hookOf {us : List Word} (hu : Unregistered s i info td ys p h zs s') (hp : p ∉ us) :
    us.map s'.hookOf = us.map s.hookOf := by
  refine List.map_congr_left fun q hq => hu.hookOf_of_ne ?_
  rintro rfl
  exact hp hq

/-- Every handle that is left continues with the hook that is left before it. -/
theorem backups_eq (hu : Unregistered s i info td ys p h zs s') (hnodup : (ys ++ p :: zs).Nodup)
    (hd : ∀ us q vs, ys ++ p :: zs = us ++ q :: vs →
      s.backupOf q = lastHook info.relocated (us.map s.hookOf)) :
    ∀ us q vs, ys ++ zs = us ++ q :: vs →
      s'.backupOf q = lastHook info.relocated (us.map s'.hookOf) := by
  rw [List.nodup_middle, List.nodup_cons] at hnodup
  obtain ⟨hp, hnodup⟩ := hnodup
  intro us q vs hsplit
  have hq : q ≠ p := by
    rintro rfl
    exact hp (hsplit ▸ by simp)
  have hus : p ∉ us := fun hmem => hp (hsplit ▸ by simp [hmem])
  rw [hu.backups q hq, hu.map_hookOf hus]
  rcases List.append_eq_append_iff.mp hsplit with ⟨ws, rfl, rfl⟩ | ⟨ws, rfl, hws⟩
  · have hqws : q ∉ ws := by
      rw [List.nodup_append, List.nodup_append] at hnodup
      exact fun hmem => hnodup.2.1.2.2 q hmem q List.mem_cons_self rfl
    simp only [mem_upToHook_iff s.hookOf hqws, List.map_append]
    rw [lastHook_append]
    by_cases hnone : ∀ k ∈ ws.map s.hookOf, k = 0
    · rw [if_pos hnone, lastHook_eq_self hnone]
    · rw [if_neg hnone, hd (ys ++ p :: ws) q vs (by simp), List.map_append, List.map_cons,
        lastHook_append, lastHook_cons]
      have hsome : ∃ k ∈ ws.map s.hookOf, k ≠ 0 := by
        by_contra hno
        exact hnone fun k hk => not_not.mp fun hk0 => hno ⟨k, hk, hk0⟩
      rw [(lastHook_of_hook hsome _).1, ← (lastHook_of_hook hsome _).1]
  · cases ws with
    | nil =>
      obtain rfl : q :: vs = zs := hws
      have hqzs : q ∈ upToHook s.hookOf ([] ++ q :: vs) :=
        (mem_upToHook_iff s.hookOf List.not_mem_nil).mpr (by simp)
      rw [List.nil_append] at hqzs
      rw [if_pos hqzs, List.append_nil]
    | cons w ws =>
      obtain ⟨rfl, rfl⟩ := List.cons.inj hws
      have hqzs : q ∉ upToHook s.hookOf zs := fun hmem => by
        rw [List.nodup_append] at hnodup
        exact hnodup.2.2 q (by simp) q (upToHook_subset _ _ q hmem) rfl
      rw [if_neg hqzs]
      exact hd us q (ws ++ p :: zs) (by simp)

theorem posts (hu : Unregistered s i info td ys p h zs s') (hp : p ∉ ys ++ zs)
    (hh : s.handles p = some h) :
    (ys ++ p :: zs).countP (fun q => s.postHandlerOf q ≠ 0) =
      (ys ++ zs).countP (fun q => s'.postHandlerOf q ≠ 0) + if h.postHandler ≠ 0 then 1 else 0 := by
  have hkeep : (ys ++ zs).countP (fun q => decide (s'.postHandlerOf q ≠ 0)) =
      (ys ++ zs).countP fun q => decide (s.postHandlerOf q ≠ 0) := by
    refine List.countP_congr fun q hq => ?_
    have hqp : q ≠ p := by
      rintro rfl
      exact hp hq
    rw [show s'.postHandlerOf q = s.postHandlerOf q from
      valueOf_congr (hu.field_of_ne (fun _ _ => rfl) (fun _ => rfl) hqp)]
  rw [hkeep, List.countP_append, List.countP_append, List.countP_cons,
    show s.postHandlerOf p = h.postHandler from valueOf_eq hh, ← Nat.add_assoc]
  simp only [decide_eq_true_eq]

theorem unhookData_hook (td : TrampolineData) (h : HookHandleExt) (isRoot : Bool)
    (previous newBackup : Word) : (unhookData td h isRoot previous newBackup).hook =
      if h.hook ≠ 0 ∧ td.hook = h.hook then previous else td.hook := by
  unfold unhookData
  dsimp only
  split_ifs <;> simp_all

theorem unhookData_backup (td : TrampolineData) (h : HookHandleExt) (isRoot : Bool)
    (previous newBackup : Word) : (unhookData td h isRoot previous newBackup).backup =
      if h.hook ≠ 0 ∧ td.backup = h.hook then newBackup else td.backup := by
  unfold unhookData
  dsimp only
  split_ifs <;> simp_all

theorem unhookData_postHandlers (td : TrampolineData) (h : HookHandleExt) (isRoot : Bool)
    (previous newBackup : Word) : (unhookData td h isRoot previous newBackup).postHandlers =
      if h.postHandler ≠ 0 then td.postHandlers - 1 else td.postHandlers := by
  unfold unhookData
  dsimp only
  split_ifs <;> rfl

/-- Where no two handles have the same hook, a later hook is not the one of the handle. -/
theorem lastHook_ne (hdist : DistinctHooks s (ys ++ p :: zs)) (hnodup : (ys ++ p :: zs).Nodup)
    (hh : s.handles p = some h) (hhook : h.hook ≠ 0) (hsome : ∃ k ∈ zs.map s.hookOf, k ≠ 0) :
    lastHook 0 (zs.map s.hookOf) ≠ h.hook := by
  have hpzs : p ∉ zs := by
    rw [List.nodup_middle, List.nodup_cons] at hnodup
    exact fun hmem => hnodup.1 (by simp [hmem])
  obtain ⟨-, hmem, -⟩ := lastHook_of_hook hsome 0
  obtain ⟨q, hq, hqk⟩ := List.mem_map.mp hmem
  intro heq
  rw [heq] at hqk
  have hqp := hdist p (by simp) q (by simp [hq]) (by rwa [hookOf_eq hh]) (by rw [hookOf_eq hh, hqk])
  exact hpzs (hqp ▸ hq)

/-- The entry target after the removal of a handle with a hook that is not the last hook again. -/
theorem entry_of_hook (hd : Dispatch s info.relocated td (ys ++ p :: zs))
    (hother : (∃ k ∈ zs.map s.hookOf, k ≠ 0) → lastHook 0 (zs.map s.hookOf) ≠ h.hook)
    (hne : ys ++ zs ≠ []) (hh : s.handles p = some h) (hhook : h.hook ≠ 0) (isRoot : Bool) :
    entryTarget (unhookData td h isRoot (lastHook 0 (ys.map s.hookOf))
        (lastHook info.relocated (ys.map s.hookOf))) =
      lastHook info.relocated ((ys ++ zs).map s.hookOf) := by
  have hentry := hd.entry
  rw [List.map_append, List.map_cons, hookOf_eq hh, lastHook_append, lastHook_cons,
    if_pos hhook] at hentry
  rw [List.map_append, lastHook_append]
  unfold entryTarget
  rw [unhookData_hook, unhookData_backup]
  unfold entryTarget at hentry
  by_cases hsome : ∃ k ∈ zs.map s.hookOf, k ≠ 0
  · -- a later hook stays the entry target, and it is not the one removed
    obtain ⟨hlast, -⟩ := lastHook_of_hook hsome h.hook
    have hother := hother hsome
    rw [← hlast] at hother
    rw [(lastHook_of_hook hsome _).1, ← hlast, ← hentry]
    rw [← hentry] at hother
    by_cases htd : td.hook = 0
    · have hkeep : ¬(h.hook ≠ 0 ∧ td.hook = h.hook) := fun hc => hhook (hc.2.symm.trans htd)
      rw [if_neg (not_not.mpr htd)] at hother ⊢
      have hkeep' : ¬(h.hook ≠ 0 ∧ td.backup = h.hook) := fun hc => hother hc.2
      rw [if_neg hkeep, if_neg hkeep', if_neg (not_not.mpr htd)]
    · rw [if_pos htd] at hother ⊢
      have hkeep : ¬(h.hook ≠ 0 ∧ td.hook = h.hook) := fun hc => hother hc.2
      rw [if_neg hkeep, if_pos htd]
  · have hnone : ∀ k ∈ zs.map s.hookOf, k = 0 := by
      intro k hk
      by_contra hk0
      exact hsome ⟨k, hk, hk0⟩
    rw [lastHook_eq_self hnone] at hentry ⊢
    by_cases htd : td.hook = 0
    · rw [if_neg (not_not.mpr htd)] at hentry
      have hkeep : ¬(h.hook ≠ 0 ∧ td.hook = h.hook) := fun hc => hhook (hc.2.symm.trans htd)
      have hgone : h.hook ≠ 0 ∧ td.backup = h.hook := ⟨hhook, hentry⟩
      rw [if_neg hkeep, if_neg (not_not.mpr htd), if_pos hgone]
    · -- every handle has a hook, so that the one removed is the last
      rw [if_pos htd] at hentry
      have hzs : zs = [] := by
        rcases zs with - | ⟨z, zs⟩
        · rfl
        · exact absurd (hnone _ (by simp)) (hd.hookOnly htd z (by simp))
      have hys : ∃ k ∈ ys.map s.hookOf, k ≠ 0 := by
        rcases ys with - | ⟨y, ys⟩
        · exact absurd hzs (by simpa using hne)
        · exact ⟨_, by simp, hd.hookOnly htd y (by simp)⟩
      obtain ⟨hlast, -, hlast0⟩ := lastHook_of_hook hys info.relocated
      have hgone : h.hook ≠ 0 ∧ td.hook = h.hook := ⟨hhook, hentry⟩
      rw [if_pos hgone, ← hlast, if_pos hlast0]

/-- Without a hook, a handle does not matter for the entry. -/
theorem entry_of_no_hook (hd : Dispatch s info.relocated td (ys ++ p :: zs))
    (hh : s.handles p = some h) (hhook : h.hook = 0) (isRoot : Bool) {previous newBackup : Word} :
    entryTarget (unhookData td h isRoot previous newBackup) =
      lastHook info.relocated ((ys ++ zs).map s.hookOf) := by
  have hentry := hd.entry
  rw [List.map_append, List.map_cons, hookOf_eq hh, lastHook_append, lastHook_cons,
    if_neg (not_not.mpr hhook), ← lastHook_append, ← List.map_append] at hentry
  have hkeep : ¬(h.hook ≠ 0 ∧ td.hook = h.hook) := fun hc => hc.1 hhook
  have hkeep' : ¬(h.hook ≠ 0 ∧ td.backup = h.hook) := fun hc => hc.1 hhook
  rw [← hentry, entryTarget, unhookData_hook, unhookData_backup, if_neg hkeep, if_neg hkeep']
  rfl

/-- A removal keeps the dispatch, if the hook is not the last one again. -/
theorem dispatch_of_ne (hu : Unregistered s i info td ys p h zs s')
    (hd : Dispatch s info.relocated td (ys ++ p :: zs))
    (hother : h.hook ≠ 0 → (∃ k ∈ zs.map s.hookOf, k ≠ 0) → lastHook 0 (zs.map s.hookOf) ≠ h.hook)
    (hnodup : (ys ++ p :: zs).Nodup)
    (hne : ys ++ zs ≠ []) (hh : s.handles p = some h) :
    Dispatch s' info.relocated (unhookData td h (info.rootHandle = p)
      (lastHook 0 (ys.map s.hookOf)) (lastHook info.relocated (ys.map s.hookOf))) (ys ++ zs) := by
  have hp : p ∉ ys ++ zs := by
    rw [List.nodup_middle, List.nodup_cons] at hnodup
    exact hnodup.1
  refine ⟨hu.backups_eq hnodup hd.backups, ?_, fun hhook q hq => ?_, ?_⟩
  · rw [hu.map_hookOf hp]
    by_cases hhook : h.hook = 0
    · exact entry_of_no_hook hd hh hhook _
    · exact entry_of_hook hd (hother hhook) hne hh hhook _
  · have hqp : q ≠ p := by
      rintro rfl
      exact hp hq
    rw [unhookData_hook] at hhook
    have htd : td.hook ≠ 0 := by
      split_ifs at hhook with hc
      · exact fun hzero => hc.1 (hc.2.symm.trans hzero)
      · exact hhook
    rw [hu.hookOf_of_ne hqp]
    refine hd.hookOnly htd q ?_
    rcases List.mem_append.mp hq with hq | hq <;> simp [hq]
  · have hposts := hd.posts
    rw [hu.posts hp hh] at hposts
    rw [unhookData_postHandlers]
    split_ifs at hposts ⊢
    · rw [BitVec.toNat_sub, show (1 : BitVec 16).toNat = 1 from rfl]
      have hlt := td.postHandlers.isLt
      omega
    · exact hposts

/-- A removal keeps the dispatch. -/
theorem dispatch (hu : Unregistered s i info td ys p h zs s')
    (hd : Dispatch s info.relocated td (ys ++ p :: zs))
    (hdist : DistinctHooks s (ys ++ p :: zs)) (hnodup : (ys ++ p :: zs).Nodup)
    (hne : ys ++ zs ≠ []) (hh : s.handles p = some h) :
    Dispatch s' info.relocated (unhookData td h (info.rootHandle = p)
      (lastHook 0 (ys.map s.hookOf)) (lastHook info.relocated (ys.map s.hookOf))) (ys ++ zs) :=
  hu.dispatch_of_ne hd (lastHook_ne hdist hnodup hh) hnodup hne hh

end Unregistered

/-! ### The variables of the user -/

/-- Each handle has a variable of its own, or none, and the variable holds its backup. -/
structure OwnVars (s : Process) (xs : List Word) : Prop where
  distinct : DistinctVars s xs
  tracks : ∀ q ∈ xs, Tracks s q

theorem ownVars_nil (s : Process) : OwnVars s [] := ⟨by simp [DistinctVars], by simp⟩

theorem setBackupVar_vars (s : Process) (addr v a : Word) :
    (s.setBackupVar addr v).vars a = if addr ≠ 0 ∧ a = addr then v else s.vars a := by
  unfold setBackupVar setVar
  by_cases haddr : addr = 0
  · simp [haddr]
  · rw [if_pos haddr]
    by_cases ha : a = addr
    · rw [ha, if_pos ⟨haddr, rfl⟩]
      exact Function.update_self ..
    · rw [if_neg fun hc => ha hc.2]
      exact Function.update_of_ne ha ..

/-- A new handle with a variable that no other handle has. -/
theorem Registered.ownVars (hr : Registered e s i info td args xs s') (hnew : e.handle ∉ xs)
    (hv : OwnVars s xs)
    (hargs : args.userBackupAddr ≠ 0 → ∀ q ∈ xs, s.userBackupAddrOf q ≠ args.userBackupAddr) :
    OwnVars s' (xs ++ [e.handle]) := by
  have hnewAddr : s'.userBackupAddrOf e.handle = args.userBackupAddr :=
    hr.valueOf_new fun _ _ => rfl
  have hnewBackup : s'.backupOf e.handle = lastHook info.relocated (xs.map s.hookOf) :=
    hr.valueOf_new fun _ _ => rfl
  have hne : ∀ q ∈ xs, q ≠ e.handle := by
    rintro q hq rfl
    exact hnew hq
  have haddr : ∀ q ∈ xs, s'.userBackupAddrOf q = s.userBackupAddrOf q := fun q hq =>
    valueOf_congr (hr.field_of_ne (fun _ _ => rfl) (hne q hq))
  have hbackup : ∀ q ∈ xs, s'.backupOf q = s.backupOf q := fun q hq =>
    valueOf_congr (hr.field_of_ne (fun _ _ => rfl) (hne q hq))
  constructor
  · intro p hp q hq hp0 heq
    rcases List.mem_append.mp hp with hp | hp <;> rcases List.mem_append.mp hq with hq | hq
    · rw [haddr p hp] at hp0 heq
      rw [haddr q hq] at heq
      exact hv.distinct p hp q hq hp0 heq
    · rw [List.mem_singleton.mp hq, hnewAddr, haddr p hp] at heq
      rw [haddr p hp, heq] at hp0
      exact absurd heq (hargs hp0 p hp)
    · rw [List.mem_singleton.mp hp, hnewAddr] at hp0 heq
      rw [haddr q hq] at heq
      exact absurd heq.symm (hargs hp0 q hq)
    · rw [List.mem_singleton.mp hp, List.mem_singleton.mp hq]
  · intro q hq hq0
    rw [hr.vars, setBackupVar_vars]
    rcases List.mem_append.mp hq with hq | hq
    · rw [haddr q hq] at hq0 ⊢
      rw [hbackup q hq, if_neg fun hc => hargs hc.1 q hq hc.2]
      exact hv.tracks q hq hq0
    · rw [List.mem_singleton.mp hq, hnewAddr] at hq0 ⊢
      rw [hnewBackup, if_pos ⟨hq0, rfl⟩]

/-- The handles that are left keep their variables. -/
theorem Unregistered.ownVars (hu : Unregistered s i info td ys p h zs s')
    (hp : p ∉ ys ++ zs) (hv : OwnVars s (ys ++ p :: zs)) : OwnVars s' (ys ++ zs) := by
  obtain ⟨haddr, htracks⟩ := hu.tracks hv.distinct hv.tracks
  have hmem : ∀ q ∈ ys ++ zs, q ≠ p ∧ q ∈ ys ++ p :: zs := by
    intro q hq
    refine ⟨?_, ?_⟩
    · rintro rfl
      exact hp hq
    · rcases List.mem_append.mp hq with hq | hq <;> simp [hq]
  refine ⟨fun q hq r hr hq0 heq => ?_, htracks⟩
  rw [haddr q (hmem q hq).1] at hq0 heq
  rw [haddr r (hmem r hr).1] at heq
  exact hv.distinct q (hmem q hq).2 r (hmem r hr).2 hq0 heq

/-! ### The invariant -/

/-- The handles `xs` of info `i` are listed, and calls pass through their hooks. -/
structure ChainInv (s : Process) (i : Word) (info : HookInfo) (td : TrampolineData)
    (xs : List Word) : Prop extends Listed s i info td xs, Dispatch s info.relocated td xs

/-- The first registration establishes the invariant; every further one and every removal that
leaves a handle keep it. -/
theorem chainInv_preserved (e : System) (s : Process) (i : Word) (info : HookInfo)
    (hzero : e.handle ≠ 0) :
    (∀ args : HookArgs, Listed s i info {} [] → s.handles e.handle = none →
      (args.hook ≠ 0 → args.postHandler = 0) →
      ∃ s' info' td', newHookHandle e s i args = some s' ∧ info'.relocated = info.relocated ∧
        WellFormed s' i info' td' [e.handle] ∧ ChainInv s' i info' td' [e.handle] ∧
        OwnVars s' [e.handle]) ∧
    (∀ (args : HookArgs) (td : TrampolineData) (xs : List Word), xs ≠ [] →
      WellFormed s i info td xs → ChainInv s i info td xs → s.handles e.handle = none →
      info.handleCount ≠ 0xffff → (args.hook ≠ 0 → args.postHandler = 0) →
      ∃ s' info' td', newHookHandle e s i args = some s' ∧ info'.relocated = info.relocated ∧
        WellFormed s' i info' td' (xs ++ [e.handle]) ∧ ChainInv s' i info' td' (xs ++ [e.handle]) ∧
        (OwnVars s xs → (args.userBackupAddr ≠ 0 →
            ∀ q ∈ xs, s.userBackupAddrOf q ≠ args.userBackupAddr) →
          OwnVars s' (xs ++ [e.handle]))) ∧
    (∀ (td : TrampolineData) (ys : List Word) (p : Word) (zs : List Word), ys ++ zs ≠ [] →
      WellFormed s i info td (ys ++ p :: zs) → ChainInv s i info td (ys ++ p :: zs) →
      DistinctHooks s (ys ++ p :: zs) →
      ∃ s' info' td', unhookExt e s p = some (true, s') ∧ info'.relocated = info.relocated ∧
        ChainInv s' i info' td' (ys ++ zs) ∧
        (OwnVars s (ys ++ p :: zs) → OwnVars s' (ys ++ zs))) := by
  refine ⟨fun args hl hfresh hargs => ?_, fun args td xs hxs hw hc hfresh hcount hargs => ?_,
    fun td ys p zs hne hw hc hdist => ?_⟩
  · obtain ⟨s', hs', hr⟩ := newHookHandle_registered hl hfresh hzero args
    have hcount : info.handleCount ≠ 0xffff := by
      intro heq
      have hlen := hl.count
      rw [heq] at hlen
      cases hlen
    have hw := hr.wellFormed ⟨hl, rfl⟩ hcount hfresh
    refine ⟨s', _, _, hs', ?_, hw, ⟨hw.toListed, hr.dispatch_first hargs⟩,
      hr.ownVars List.not_mem_nil (ownVars_nil s) (by simp)⟩
    rfl
  · obtain ⟨s', hs', hr⟩ := newHookHandle_registered hw.toListed hfresh hzero args
    have hnew := hw.notMem hfresh
    have hlen : xs.length < 0xffff := by
      have hlt := info.handleCount.isLt
      have hne : info.handleCount.toNat ≠ 0xffff := fun heq => hcount (BitVec.eq_of_toNat_eq heq)
      have hlength := hw.count
      omega
    have hd := hr.dispatch_later hnew hc.toDispatch hargs hlen
    have hw' := hr.wellFormed hw hcount hfresh
    simp only [if_neg hxs] at hw'
    refine ⟨s', _, _, hs', ?_, hw', ⟨hw'.toListed, hd⟩, hr.ownVars hnew⟩
    rfl
  · obtain ⟨h, hh, -⟩ := hw.exists_handle (show p ∈ ys ++ p :: zs by simp)
    obtain ⟨s', hs', hu⟩ := unhookExt_unregistered (e := e) hw.toListed hne hh (hw.back hh)
    have hnodup := hw.nodup
    have hp : p ∉ ys ++ zs := by
      rw [List.nodup_middle, List.nodup_cons] at hnodup
      exact hnodup.1
    refine ⟨s', _, _, hs', ?_, ⟨hu.listed hw.toListed,
      hu.dispatch hc.toDispatch hdist hnodup hne hh⟩, hu.ownVars hp⟩
    rfl

/-- An info of a function that has no handle yet. -/
def sampleInfo : HookInfo where
  address := 0x1000
  rootHandle := 0
  trampoline := 0x20
  customFree := 0
  customData := 0
  relocated := 0x3000
  handleCount := 0
  functionBackupSize := 8
  functionBackup := []

def sampleSystem (handle : Word) : System where
  handle := handle
  pthreadGetspecific := 0x9000
  pthreadSetspecific := 0x9100

def sampleProcess : Process :=
  ((initial (fun _ => 0) (fun _ => 0)).setInfo 0x10 sampleInfo).setTrampolineData 0x20 {}

theorem sampleProcess_listed : Listed sampleProcess 0x10 sampleInfo {} [] :=
  ⟨rfl, by decide, rfl, rfl, rfl, rfl, rfl, fun _ => by simp [infoOf, field, sampleProcess,
    setTrampolineData, setInfo, initial]⟩

/-- A hook, then an instrument in front of it, and the removal of the hook. -/
theorem chainInv_preserved_sample : ∃ s₁ s₂ s₃ info td,
    newHookHandle (sampleSystem 0x100) sampleProcess 0x10 { hook := 0x4000 } = some s₁ ∧
    newHookHandle (sampleSystem 0x200) s₁ 0x10 { preHandler := 0x5000 } = some s₂ ∧
    unhookExt (sampleSystem 0) s₂ 0x100 = some (true, s₃) ∧ ChainInv s₃ 0x10 info td [0x200] := by
  have hzero : (sampleSystem 0x100).handle ≠ 0 := by decide
  have hzero' : (sampleSystem 0x200).handle ≠ 0 := by decide
  obtain ⟨s₁, info₁, td₁, hs₁, -, hw₁, hc₁, -⟩ :=
    (chainInv_preserved (sampleSystem 0x100) sampleProcess 0x10 sampleInfo hzero).1
      { hook := 0x4000 } sampleProcess_listed rfl (fun _ => rfl)
  have hfresh : s₁.handles 0x200 = none := by
    obtain rfl := Option.some.inj (hs₁.symm.trans rfl)
    rfl
  have hcount : info₁.handleCount ≠ 0xffff := by
    intro heq
    have hlen := hw₁.count
    rw [heq] at hlen
    cases hlen
  obtain ⟨s₂, info₂, td₂, hs₂, -, hw₂, hc₂, -⟩ :=
    (chainInv_preserved (sampleSystem 0x200) s₁ 0x10 info₁ hzero').2.1
      { preHandler := 0x5000 } td₁ [0x100] (by simp) hw₁ hc₁ hfresh hcount (fun _ => rfl)
  have hdist : DistinctHooks s₂ [0x100, 0x200] := by
    have hhooks : ((newHookHandle (sampleSystem 0x100) sampleProcess 0x10 { hook := 0x4000 }).bind
        fun s => (newHookHandle (sampleSystem 0x200) s 0x10 { preHandler := 0x5000 }).map
          fun s => (s.hookOf 0x100, s.hookOf 0x200)) = some (0x4000, 0) := rfl
    rw [hs₁, Option.bind_some, hs₂] at hhooks
    obtain ⟨hhook₁, hhook₂⟩ := Prod.mk.inj (Option.some.inj hhooks)
    intro p hp q hq hp0 heq
    simp only [List.mem_cons, List.not_mem_nil, or_false] at hp hq
    rcases hp with rfl | rfl <;> rcases hq with rfl | rfl
    · rfl
    · rw [hhook₁, hhook₂] at heq
      cases heq
    · exact absurd hhook₂ hp0
    · rfl
  obtain ⟨s₃, info₃, td₃, hs₃, -, hc₃, -⟩ :=
    (chainInv_preserved (sampleSystem 0x100) s₂ 0x10 info₂ hzero).2.2 td₂ [] 0x100 [0x200]
      (by simp) hw₂ hc₂ hdist
  exact ⟨s₁, s₂, s₃, info₃, td₃, hs₁, hs₂, hs₃, hc₃⟩

end Process
end Rv64Hook
