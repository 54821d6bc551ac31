import Rv64Hook.Relocator.Emission
import Rv64Hook.Hooks.Registry
import Rv64Hook.SecondTrampoline.Refinement

/-! What a call of the hooked function finds while a registration or a removal writes the data of the
trampoline, one field after the other. -/
namespace Rv64Hook
open ByteMem Rv64 Asm LinkedList Calls

abbrev DataWrite := TrampolineData → TrampolineData

namespace DataWrite

/-- The data after the first `k` writes. -/
def after (td : TrampolineData) (ws : List DataWrite) (k : ℕ) : TrampolineData :=
  (ws.take k).foldl (fun td (w : DataWrite) => w td) td

/-- The key for the return address, where there is one, and the functions that use it. -/
def key (e : System) : List DataWrite :=
  match e.tlsKey with
  | some key =>
    [fun td => { td with tlsKey := key },
      fun td => { td with getspecific := e.pthreadGetspecific },
      fun td => { td with setspecific := e.pthreadSetspecific }]
  | none => []

/-- A hook, or the backup and a counter for the post handlers. -/
def firstTarget (args : HookArgs) (relocated : Word) : List DataWrite :=
  if args.hook ≠ 0 then [fun td => { td with hook := args.hook }]
  else if args.postHandler ≠ 0 then
    [fun td => { td with backup := relocated }, fun td => { td with postHandlers := 1 }]
  else [fun td => { td with backup := relocated }]

/-- The writes of `NewHookHandle` for the first handle. -/
def first (e : System) (args : HookArgs) (relocated : Word) : List DataWrite :=
  (fun td => { td with rootHandle := e.handle }) ::
    (key e ++ (firstTarget args relocated ++ [fun td => { td with enabled := true }]))

/-- The writes of `NewHookHandle` for any other handle. -/
def later (args : HookArgs) (backup : Word) : List DataWrite :=
  if args.hook ≠ 0 then
    [fun td => if td.hook ≠ 0 then { td with hook := args.hook } else { td with backup := args.hook }]
  else if args.postHandler ≠ 0 then
    [fun td => { td with hook := 0 }, fun td => { td with backup := backup },
      fun td => { td with postHandlers := td.postHandlers + 1 }]
  else [fun td => { td with hook := 0 }, fun td => { td with backup := backup }]

/-- The hook and the backup, where they are the hook that is removed. -/
def unhookTarget (h : HookHandleExt) (previousHook newBackup : Word) : List DataWrite :=
  if h.hook ≠ 0 then
    [fun td => if td.hook = h.hook then { td with hook := previousHook } else td,
      fun td => if td.backup = h.hook then { td with backup := newBackup } else td]
  else []

def unhookPost (h : HookHandleExt) : List DataWrite :=
  if h.postHandler ≠ 0 then [fun td => { td with postHandlers := td.postHandlers - 1 }] else []

def unhookRoot (h : HookHandleExt) (isRoot : Bool) : List DataWrite :=
  if isRoot then [fun td => { td with rootHandle := h.next }] else []

/-- The writes of `UnhookExt`. -/
def unhook (h : HookHandleExt) (isRoot : Bool) (previousHook newBackup : Word) : List DataWrite :=
  unhookPost h ++ unhookRoot h isRoot ++ unhookTarget h previousHook newBackup

theorem after_nil (td : TrampolineData) (k : ℕ) : after td [] k = td := by
  rw [after, List.take_nil, List.foldl_nil]

theorem after_succ (td : TrampolineData) (w : DataWrite) (ws : List DataWrite) (k : ℕ) :
    after td (w :: ws) (k + 1) = after (w td) ws k := rfl

/-- What every write keeps holds between the writes. -/
theorem after_keeps {P : TrampolineData → Prop} {td : TrampolineData} {ws : List DataWrite}
    (hws : ∀ w ∈ ws, ∀ td, P td → P (w td)) (h : P td) (k : ℕ) : P (after td ws k) := by
  induction ws generalizing td k with
  | nil => exact (after_nil td k).symm ▸ h
  | cons w ws ih =>
    cases k with
    | zero => exact h
    | succ k => exact ih (fun v hv => hws v (List.mem_cons_of_mem _ hv)) (hws w List.mem_cons_self td h) k

theorem after_append_left (td : TrampolineData) {ws : List DataWrite} (vs : List DataWrite) {k : ℕ}
    (hk : k ≤ ws.length) : after td (ws ++ vs) k = after td ws k := by
  rw [after, after, List.take_append_of_le_length hk]

theorem after_append_right (td : TrampolineData) (ws vs : List DataWrite) (k : ℕ) :
    after td (ws ++ vs) (ws.length + k) = after (after td ws ws.length) vs k := by
  rw [after, List.take_length_add_append, List.foldl_append, after, after, List.take_length]

/-- Where a property holds between the writes. -/
theorem forall_after_cons (P : TrampolineData → Prop) (td : TrampolineData) (w : DataWrite)
    (ws : List DataWrite) :
    (∀ k, P (after td (w :: ws) k)) ↔ P td ∧ ∀ k, P (after (w td) ws k) := by
  constructor
  · exact fun h => ⟨h 0, fun k => h (k + 1)⟩
  · rintro ⟨h0, h⟩ (- | k)
    · exact h0
    · exact h k

theorem forall_after_append (P : TrampolineData → Prop) (td : TrampolineData)
    (ws vs : List DataWrite) : (∀ k, P (after td (ws ++ vs) k)) ↔
      (∀ k, P (after td ws k)) ∧ ∀ k, P (after (after td ws ws.length) vs k) := by
  induction ws generalizing td with
  | nil =>
    constructor
    · exact fun h => ⟨fun k => (after_nil td k).symm ▸ h 0, h⟩
    · exact fun h => h.2
  | cons w ws ih =>
    simp only [List.cons_append, forall_after_cons, ih, List.length_cons, after_succ, and_assoc]

theorem forall_after_nil (P : TrampolineData → Prop) (td : TrampolineData) :
    (∀ k, P (after td [] k)) ↔ P td := by
  simp [after_nil]

/-- All the writes together are what the functions do. -/
theorem after_first (e : System) (td : TrampolineData) (args : HookArgs) (relocated : Word) :
    after td (first e args relocated) (first e args relocated).length =
      Process.firstData e td args relocated := by
  rw [after, List.take_length]
  unfold first key firstTarget Process.firstData
  cases e.tlsKey <;> split_ifs <;> rfl

theorem after_later (td : TrampolineData) (args : HookArgs) (backup : Word) :
    after td (later args backup) (later args backup).length =
      Process.laterData td args backup := by
  rw [after, List.take_length]
  unfold later Process.laterData
  split_ifs <;> simp_all

theorem after_unhook (td : TrampolineData) (h : HookHandleExt) (isRoot : Bool)
    (previousHook newBackup : Word) :
    after td (unhook h isRoot previousHook newBackup)
      (unhook h isRoot previousHook newBackup).length =
        Process.unhookData td h isRoot previousHook newBackup := by
  rw [after, List.take_length]
  unfold unhook unhookPost unhookRoot unhookTarget Process.unhookData
  obtain ⟨_, hook, backup, _, _, _, _, _⟩ := td
  by_cases hhook : hook = h.hook <;> by_cases hbackup : backup = h.hook <;> cases isRoot <;>
    split_ifs <;> simp_all

end DataWrite

namespace SecondTrampoline
open DataWrite

variable {Ω : Type} {e : Setting Ω} {c : Cpu Ω} {td : TrampolineData} {s : Process} {i p : Word}
  {info : HookInfo} {a : Hooked} {fuel : ℕ} {args : HookArgs} {ys zs : List Word} {h : HookHandleExt}

/-- Where a call goes that runs against these data: by a jump, or by the call of the backup. -/
def sentTo (td : TrampolineData) : Word :=
  if td.enabled = true ∧ td.hook ≠ 0 then td.hook else td.backup

/-- A call is not sent to the null address, and the loop over the handles does not begin there. -/
def Safe (td : TrampolineData) : Prop :=
  sentTo td ≠ 0 ∧ (td.enabled = true → td.hook = 0 → td.rootHandle ≠ 0)

instance : DecidablePred Safe := fun _ => inferInstanceAs (Decidable (_ ∧ _))

theorem safe_of_hook (henabled : td.enabled = true) (hhook : td.hook ≠ 0) : Safe td := by
  refine ⟨?_, fun _ hzero => absurd hzero hhook⟩
  rw [sentTo, if_pos ⟨henabled, hhook⟩]
  exact hhook

theorem safe_of_backup (hhook : td.hook = 0) (hbackup : td.backup ≠ 0)
    (hroot : td.rootHandle ≠ 0) : Safe td := by
  refine ⟨?_, fun _ _ => hroot⟩
  rw [sentTo, if_neg fun h => h.2 hhook]
  exact hbackup

theorem not_safe (hbackup : td.backup = 0) (h : td.enabled = false ∨ td.hook = 0) : ¬Safe td := by
  rintro ⟨hsent, -⟩
  refine hsent ?_
  rw [sentTo, if_neg, hbackup]
  rintro ⟨henabled, hhook⟩
  rcases h with h | h
  · rw [henabled] at h
    cases h
  · exact hhook h

/-- A call finds the same in both. -/
structure Alike (td td' : TrampolineData) : Prop where
  enabled : td'.enabled = td.enabled
  hook : td'.hook = td.hook
  backup : td'.backup = td.backup
  root : td.rootHandle ≠ 0
  root' : td'.rootHandle ≠ 0

namespace Alike

variable {td td' : TrampolineData} {ws : List DataWrite} {h : HookHandleExt} {isRoot : Bool}

theorem safe (ha : Alike td td') : Safe td' ↔ Safe td := by
  unfold Safe sentTo
  rw [ha.enabled, ha.hook, ha.backup]
  exact and_congr_right fun _ => iff_of_true (fun _ _ => ha.root') fun _ _ => ha.root

theorem refl (hroot : td.rootHandle ≠ 0) : Alike td td := ⟨rfl, rfl, rfl, hroot, hroot⟩

theorem trans {td'' : TrampolineData} (h : Alike td td') (h' : Alike td' td'') : Alike td td'' :=
  ⟨h'.enabled.trans h.enabled, h'.hook.trans h.hook, h'.backup.trans h.backup, h.root, h'.root'⟩

/-- Writes that a call does not notice. -/
theorem of_silent (hws : ∀ w ∈ ws, ∀ td, td.rootHandle ≠ 0 → Alike td (w td))
    (hroot : td.rootHandle ≠ 0) (k : ℕ) : Alike td (after td ws k) :=
  after_keeps (fun w hw _ ha => ha.trans (hws w hw _ ha.root')) (refl hroot) k

theorem after_writes (hws : ∀ w ∈ ws, ∀ td td', Alike td td' → Alike (w td) (w td'))
    (ha : Alike td td') (k : ℕ) : Alike (after td ws k) (after td' ws k) := by
  induction ws generalizing td td' k with
  | nil =>
    rw [after_nil, after_nil]
    exact ha
  | cons w ws ih =>
    cases k with
    | zero => exact ha
    | succ k =>
      exact ih (fun v hv => hws v (List.mem_cons_of_mem _ hv))
        (hws w List.mem_cons_self td td' ha) k

/-- The counter and the root are not noticed, while the root is not null. -/
theorem silent (hnext : isRoot = true → h.next ≠ 0) :
    ∀ w ∈ unhookPost h ++ unhookRoot h isRoot, ∀ td, td.rootHandle ≠ 0 → Alike td (w td) := by
  intro w hw td hroot
  unfold unhookPost unhookRoot at hw
  rcases List.mem_append.mp hw with hw | hw
  · split_ifs at hw
    · obtain rfl := List.mem_singleton.mp hw
      exact ⟨rfl, rfl, rfl, hroot, hroot⟩
    · cases hw
  · split_ifs at hw with hisRoot
    · obtain rfl := List.mem_singleton.mp hw
      exact ⟨rfl, rfl, rfl, hroot, hnext hisRoot⟩
    · cases hw

theorem target {previous newBackup : Word} :
    ∀ w ∈ unhookTarget h previous newBackup, ∀ td td', Alike td td' → Alike (w td) (w td') := by
  intro w hw td td' ha
  unfold unhookTarget at hw
  split_ifs at hw
  · simp only [List.mem_cons, List.not_mem_nil, or_false] at hw
    rcases hw with rfl | rfl
    · dsimp only
      rw [ha.hook]
      split_ifs
      · exact ⟨ha.enabled, rfl, ha.backup, ha.root, ha.root'⟩
      · exact ha
    · dsimp only
      rw [ha.backup]
      split_ifs
      · exact ⟨ha.enabled, ha.hook, rfl, ha.root, ha.root'⟩
      · exact ha
  · cases hw

end Alike

/-- A removal is safe throughout if its writes to the hook and the backup are. -/
theorem unhook_safe {isRoot : Bool} {previous newBackup : Word} (hroot : td.rootHandle ≠ 0)
    (hnext : isRoot = true → h.next ≠ 0) :
    (∀ k, Safe (after td (unhook h isRoot previous newBackup) k)) ↔
      ∀ k, Safe (after td (unhookTarget h previous newBackup) k) := by
  have hsilent := Alike.of_silent (Alike.silent hnext) hroot
  have htarget : ∀ k, Alike (after td (unhookTarget h previous newBackup) k) (after (after td
      (unhookPost h ++ unhookRoot h isRoot) (unhookPost h ++ unhookRoot h isRoot).length)
      (unhookTarget h previous newBackup) k) :=
    Alike.after_writes Alike.target (hsilent _)
  rw [unhook, forall_after_append]
  constructor
  · exact fun hall k => (htarget k).safe.mp (hall.2 k)
  · exact fun hall => ⟨fun k => (hsilent k).safe.mpr (hall 0), fun k => (htarget k).safe.mpr (hall k)⟩

/-- Where the data have no hook, a removal goes from backup to backup. -/
theorem target_safe {previous newBackup : Word} (hroot : td.rootHandle ≠ 0) (hhook : td.hook = 0)
    (hbackup : td.backup ≠ 0) (hnew : newBackup ≠ 0) (k : ℕ) :
    Safe (after td (unhookTarget h previous newBackup) k) := by
  revert k
  unfold unhookTarget
  split_ifs with hne
  · have hother : td.hook ≠ h.hook := hhook ▸ hne.symm
    simp only [forall_after_cons, forall_after_nil, if_neg hother]
    refine ⟨safe_of_backup hhook hbackup hroot, safe_of_backup hhook hbackup hroot, ?_⟩
    split_ifs
    · exact safe_of_backup hhook hnew hroot
    · exact safe_of_backup hhook hbackup hroot
  · rw [forall_after_nil Safe]
    exact safe_of_backup hhook hbackup hroot

/-- Where every handle has a hook, a removal goes from hook to hook, if there is another one. -/
theorem target_safe_iff {previous newBackup : Word} (hhook : td.hook ≠ 0) (hbackup : td.backup = 0)
    (hne : h.hook ≠ 0) :
    (∀ k, Safe (after td (unhookTarget h previous newBackup) k)) ↔
      td.enabled = true ∧ ¬(previous = 0 ∧ td.hook = h.hook) := by
  have hother : td.backup ≠ h.hook := hbackup ▸ hne.symm
  unfold unhookTarget
  rw [if_pos hne]
  simp only [forall_after_cons, forall_after_nil]
  by_cases henabled : td.enabled = true
  · by_cases heq : td.hook = h.hook
    · rw [if_pos heq, if_neg hother]
      by_cases hprevious : previous = 0
      · have hnull : ¬Safe { td with hook := previous } := not_safe hbackup (.inr hprevious)
        exact iff_of_false (fun h => hnull h.2.1) fun h => h.2 ⟨hprevious, heq⟩
      · have hsafe : Safe { td with hook := previous } := safe_of_hook henabled hprevious
        exact iff_of_true ⟨safe_of_hook henabled hhook, hsafe, hsafe⟩
          ⟨henabled, fun h => hprevious h.1⟩
    · rw [if_neg heq, if_neg hother]
      have hsafe := safe_of_hook henabled hhook
      exact iff_of_true ⟨hsafe, hsafe, hsafe⟩ ⟨henabled, fun h => heq h.2⟩
  · refine iff_of_false ?_ fun h => henabled h.1
    rintro ⟨h, -⟩
    exact not_safe hbackup (.inl (Bool.not_eq_true _ ▸ henabled)) h

section Built

variable {xs : List Word}

theorem root_ne_zero (hb : Process.Built s i info td xs) (hxs : xs ≠ []) : td.rootHandle ≠ 0 := by
  rw [hb.wellFormed.root]
  exact fun hzero => hxs (hb.wellFormed.rootHandle_eq_zero_iff.mp hzero)

/-- Where some handle has been without a hook, the backup is the last hook. -/
theorem backup_ne_zero (hb : Process.Built s i info td xs) (hxs : xs ≠ [])
    (hrelocated : info.relocated ≠ 0) (hhook : td.hook = 0) : td.backup ≠ 0 := by
  have hentry := (hb.dispatch hxs).entry
  rw [Process.entryTarget, if_neg (not_not.mpr hhook)] at hentry
  rw [hentry]
  exact Process.lastHook_ne_zero hrelocated _

/-- Between two calls of the library, a function is safe if it is enabled or its data have no hook. -/
theorem safe_iff (hb : Process.Built s i info td xs) (hxs : xs ≠ [])
    (hrelocated : info.relocated ≠ 0) : Safe td ↔ td.enabled = true ∨ td.hook = 0 := by
  have hroot := root_ne_zero hb hxs
  by_cases hhook : td.hook = 0
  · have hbackup := backup_ne_zero hb hxs hrelocated hhook
    simp_all [Safe, sentTo]
  · have hbackup := hb.backup hhook
    by_cases henabled : td.enabled = true <;> simp_all [Safe, sentTo]

/-- A registration behind others is safe throughout if the data have no hook, or if a hook replaces
another one while the function is enabled. -/
theorem later_safe_iff (hb : Process.Built s i info td xs) (hxs : xs ≠ [])
    (hrelocated : info.relocated ≠ 0) (args : HookArgs) {backup : Word} (hbackup : backup ≠ 0) :
    (∀ k, Safe (after td (later args backup) k)) ↔
      td.hook = 0 ∨ td.enabled = true ∧ args.hook ≠ 0 := by
  have hquiet := safe_iff hb hxs hrelocated
  have hroot := root_ne_zero hb hxs
  have hzero := backup_ne_zero hb hxs hrelocated
  have hnull := hb.backup
  unfold later
  split_ifs with hhook hpost
  · simp only [forall_after_cons, forall_after_nil, hquiet]
    by_cases htd : td.hook = 0
    · simp_all [Safe, sentTo]
    · by_cases henabled : td.enabled = true <;> simp_all [Safe, sentTo]
  all_goals
    simp only [forall_after_cons, forall_after_nil, hquiet]
    by_cases htd : td.hook = 0
    · simp_all [Safe, sentTo]
    · by_cases henabled : td.enabled = true <;> simp_all [Safe, sentTo]

/-- The successor of the first handle is not null, unless the handle is the only one. -/
theorem next_ne_zero (hb : Process.Built s i info td (ys ++ p :: zs)) (hne : ys ++ zs ≠ [])
    (hh : s.handles p = some h) (hroot : info.rootHandle = p) : h.next ≠ 0 := by
  have hw := hb.wellFormed
  have hys : ys = [] := by
    cases ys with
    | nil => rfl
    | cons y ys =>
      obtain ⟨hy, -⟩ := hw.next
      have hnodup := hw.nodup
      rw [List.cons_append, List.nodup_cons] at hnodup
      exact absurd (hy.symm.trans hroot) fun heq => hnodup.1 (by simp [heq])
  subst hys
  obtain ⟨-, r, hr, hseg⟩ := hw.next
  obtain rfl := Option.some.inj ((Process.nextOf_eq hh).symm.trans hr)
  cases zs with
  | nil => exact absurd rfl hne
  | cons z zs =>
    obtain ⟨hz, -⟩ := hseg
    exact hz ▸ hw.ne_zero (by simp)

/-- A removal that leaves handles is safe throughout if the data have no hook, or if the function is
enabled and the handle is not the first one with the hook of the data. -/
theorem unhook_safe_iff (hb : Process.Built s i info td (ys ++ p :: zs)) (hne : ys ++ zs ≠ [])
    (hrelocated : info.relocated ≠ 0) (hh : s.handles p = some h) :
    (∀ k, Safe (after td (unhook h (info.rootHandle = p) (Process.lastHook 0 (ys.map s.hookOf))
        (Process.lastHook info.relocated (ys.map s.hookOf))) k)) ↔
      td.hook = 0 ∨ td.enabled = true ∧ ¬(ys = [] ∧ td.hook = h.hook) := by
  have hxs : ys ++ p :: zs ≠ [] := by simp
  have hquiet := safe_iff hb hxs hrelocated
  have hroot := root_ne_zero hb hxs
  have hzero := backup_ne_zero hb hxs hrelocated
  have hnull := hb.backup
  have hnext := next_ne_zero hb hne hh
  have hnew := Process.lastHook_ne_zero hrelocated (ys.map s.hookOf)
  have hprevious : td.hook ≠ 0 → (Process.lastHook 0 (ys.map s.hookOf) = 0 ↔ ys = []) := by
    intro htd
    constructor
    · intro hlast
      cases ys with
      | nil => rfl
      | cons y ys =>
        have hy := (hb.dispatch hxs).hookOnly htd y (by simp)
        exact absurd hlast (Process.lastHook_of_hook ⟨_, List.mem_cons_self, hy⟩ 0).2.2
    · rintro rfl
      rfl
  generalize Process.lastHook 0 (ys.map s.hookOf) = previous at *
  generalize Process.lastHook info.relocated (ys.map s.hookOf) = backup at *
  have hnext' : decide (info.rootHandle = p) = true → h.next ≠ 0 := fun h => hnext (of_decide_eq_true h)
  rw [unhook_safe hroot hnext']
  by_cases htd : td.hook = 0
  · exact iff_of_true (target_safe hroot htd (hzero htd) hnew) (.inl htd)
  · have hhook : h.hook ≠ 0 := by
      rw [← Process.hookOf_eq hh]
      exact (hb.dispatch hxs).hookOnly htd p (by simp)
    rw [target_safe_iff htd (hnull htd) hhook, hprevious htd]
    exact (or_iff_right htd).symm

end Built

section First

variable {relocated : Word}

/-- Before the backup and the switch are written, a call of a patched function is sent to null. -/
theorem not_safe_before {ws : List DataWrite}
    (hws : ∀ w ∈ ws, ∀ td : TrampolineData, td.backup = 0 ∧ td.enabled = false →
      (w td).backup = 0 ∧ (w td).enabled = false) (k : ℕ) : ¬Safe (after {} ws k) := by
  have hoff : (after {} ws k).backup = 0 ∧ (after {} ws k).enabled = false :=
    after_keeps hws ⟨rfl, rfl⟩ k
  exact not_safe hoff.1 (.inl hoff.2)

theorem key_keeps (e : System) : ∀ w ∈ key e, ∀ td : TrampolineData,
    (w td).rootHandle = td.rootHandle ∧ (w td).hook = td.hook ∧ (w td).backup = td.backup ∧
      (w td).enabled = td.enabled := by
  unfold key
  cases e.tlsKey <;> simp

/-- The root, the key, and then the hook and the switch, or the backup. -/
def settled (e : System) (args : HookArgs) : ℕ :=
  1 + (key e).length + if args.hook ≠ 0 then 2 else 1

/-- A hook is called only after the switch, which is written last. -/
theorem first_hook_safe_iff (e : System) (hhook : args.hook ≠ 0) {k : ℕ}
    (hk : k ≤ (first e args relocated).length) :
    Safe (after {} (first e args relocated) k) ↔ settled e args ≤ k := by
  have hsplit : first e args relocated = ((fun td => { td with rootHandle := e.handle }) ::
      (key e ++ [fun td => { td with hook := args.hook }])) ++
        [fun td => { td with enabled := true }] := by
    rw [first, firstTarget, if_pos hhook]
    simp
  have hlength : (first e args relocated).length = settled e args := by
    rw [hsplit, settled, if_pos hhook]
    simp
    omega
  rw [hlength] at hk
  constructor
  · intro hsafe
    by_contra hlt
    rw [hsplit, after_append_left] at hsafe
    · refine not_safe_before ?_ k hsafe
      intro w hw td htd
      simp only [List.mem_cons, List.mem_append, List.not_mem_nil, or_false] at hw
      rcases hw with rfl | hw | rfl
      · exact htd
      · obtain ⟨-, -, hbackup, henabled⟩ := key_keeps e w hw td
        exact ⟨hbackup.trans htd.1, henabled.trans htd.2⟩
      · exact htd
    · rw [settled, if_pos hhook] at hk hlt
      simp only [List.length_cons, List.length_append, List.length_nil]
      omega
  · intro hle
    rw [le_antisymm hk hle, ← hlength, after_first]
    refine safe_of_hook (Process.firstData_enabled ..) ?_
    rw [(Process.firstData_eq e args relocated).1]
    exact hhook

/-- The original is called as soon as the backup is written. -/
theorem first_backup_safe_iff (e : System) (hhandle : e.handle ≠ 0) (hrelocated : relocated ≠ 0)
    (hhook : args.hook = 0) (k : ℕ) :
    Safe (after {} (first e args relocated) k) ↔ settled e args ≤ k := by
  obtain ⟨rest, hsplit, hrest⟩ : ∃ rest : List DataWrite, first e args relocated =
      ((fun td => { td with rootHandle := e.handle }) :: key e) ++
        (fun td => { td with backup := relocated }) :: rest ∧
      ∀ w ∈ rest, ∀ td : TrampolineData, (w td).rootHandle = td.rootHandle ∧
        (w td).hook = td.hook ∧ (w td).backup = td.backup := by
    rw [first, firstTarget, if_neg (not_not.mpr hhook)]
    split_ifs
    · exact ⟨[fun td => { td with postHandlers := 1 }, fun td => { td with enabled := true }],
        by simp, by simp⟩
    · exact ⟨[fun td => { td with enabled := true }], by simp, by simp⟩
  have hsettled : settled e args = ((fun td : TrampolineData =>
      { td with rootHandle := e.handle }) :: key e).length + 1 := by
    rw [settled, if_neg (not_not.mpr hhook), List.length_cons]
    omega
  rw [hsplit, hsettled]
  generalize hws : (fun td : TrampolineData => { td with rootHandle := e.handle }) :: key e = ws
  have hoff : ∀ w ∈ ws, ∀ td : TrampolineData, td.backup = 0 ∧ td.enabled = false →
      (w td).backup = 0 ∧ (w td).enabled = false := by
    rw [← hws]
    intro w hw td htd
    rcases List.mem_cons.mp hw with rfl | hw
    · exact htd
    · obtain ⟨-, -, hbackup, henabled⟩ := key_keeps e w hw td
      exact ⟨hbackup.trans htd.1, henabled.trans htd.2⟩
  constructor
  · intro hsafe
    by_contra hlt
    rw [after_append_left _ _ (by omega)] at hsafe
    exact not_safe_before hoff k hsafe
  · intro hle
    obtain ⟨j, rfl⟩ := Nat.exists_eq_add_of_le hle
    have hstart : (after {} ws ws.length).hook = 0 ∧ (after {} ws ws.length).rootHandle ≠ 0 := by
      rw [← hws, List.length_cons, after_succ]
      refine after_keeps (P := fun td => td.hook = 0 ∧ td.rootHandle ≠ 0) ?_ ⟨rfl, hhandle⟩ _
      intro w hw td h
      obtain ⟨hroot, hkeep, -, -⟩ := key_keeps e w hw td
      exact ⟨hkeep.trans h.1, hroot.trans_ne h.2⟩
    have hsafe : ∀ td : TrampolineData, td.hook = 0 → td.backup ≠ 0 → td.rootHandle ≠ 0 →
        Safe (after td rest j) := by
      intro td hhook hbackup hroot
      obtain ⟨h1, h2, h3⟩ := after_keeps
        (P := fun td => td.hook = 0 ∧ td.backup ≠ 0 ∧ td.rootHandle ≠ 0) (fun w hw td h => by
          obtain ⟨hroot, hkeep, hbackup⟩ := hrest w hw td
          exact ⟨hkeep.trans h.1, hbackup.trans_ne h.2.1, hroot.trans_ne h.2.2⟩)
        ⟨hhook, hbackup, hroot⟩ j
      exact safe_of_backup h1 h2 h3
    rw [add_assoc, after_append_right, add_comm 1, after_succ]
    exact hsafe _ hstart.1 hrelocated hstart.2

end First

/-! ### Runs -/

section Stacks

variable {s₀ : Process} {info₀ : HookInfo} {ops : List StackOp}

/-- A function is hooked, switched and unhooked, the last handle first. Registering another handle is
safe at every moment if the data have no hook, or if a hook replaces another one while the function
is enabled; otherwise some call is sent to the null address. -/
theorem registration_moments (hl : Process.Listed s₀ i info₀ {} []) (hops : ops ≠ [])
    (hrelocated : info₀.relocated ≠ 0)
    (hok : Allowed (Process.applyStackOp i) (Process.Stacked i) s₀ ops) :
    ∃ s info td xs, result (Process.applyStackOp i) s₀ ops = some s ∧
      Process.Listed s i info td xs ∧ ∀ sys args, Process.Registrable i s (sys, args) →
        ∃ s' ws, Process.newHookHandle sys s i args = some s' ∧
          ws = later args (Process.lastHook info.relocated (xs.map s.hookOf)) ∧
          s'.trampolines info.trampoline = some (after td ws ws.length) ∧
          ((∀ k, Safe (after td ws k)) ↔ td.hook = 0 ∨ td.enabled = true ∧ args.hook ≠ 0) := by
  obtain ⟨s, info, td, xs, hs, hb, hkept, hxs⟩ := Process.built_run ops (Process.built_nil hl) hok
  replace hxs := hxs (.inr hops)
  rw [← hkept] at hrelocated
  refine ⟨s, info, td, xs, hs, hb.wellFormed.toListed, fun sys args hargs => ?_⟩
  obtain ⟨s', hs', hr⟩ :=
    Process.newHookHandle_registered hb.wellFormed.toListed hargs.1 hargs.2.1 args
  have hbackup := Process.lastHook_ne_zero hrelocated (xs.map s.hookOf)
  refine ⟨s', _, hs', rfl, ?_, later_safe_iff hb hxs hrelocated args hbackup⟩
  rw [hr.trampolines, Function.update_self, if_neg hxs, after_later]

/-- An instrument is registered behind a hook. -/
theorem registration_moments_sample :
    ¬∀ k, Safe (after { rootHandle := 0x1000, hook := 0x4000, enabled := true }
      (later { preHandler := 0x5000 } 0x4000) k) := by
  have hok : Allowed (Process.applyStackOp 0x10) (Process.Stacked 0x10) Process.sampleProcess
      [.keep (.register (Process.sampleSystem 0x1000) { hook := 0x4000 })] := by
    refine ⟨⟨rfl, by decide, fun _ => rfl, fun info hinfo => ?_⟩, fun _ _ => trivial⟩
    obtain rfl := Option.some.inj (hinfo.symm.trans Process.sampleProcess_listed.hasInfo)
    decide
  obtain ⟨s, info, td, xs, hs, hlisted, hmoments⟩ :=
    registration_moments Process.sampleProcess_listed (by simp) (by decide) hok
  obtain rfl := Option.some.inj (hs.symm.trans rfl)
  obtain rfl := Option.some.inj (hlisted.hasInfo.symm.trans rfl)
  obtain rfl : { rootHandle := 0x1000, hook := 0x4000, enabled := true } = td :=
    Option.some.inj hlisted.hasData
  have hxs : xs = [0x1000] := hlisted.next.unique (Process.field_null hlisted.null) ⟨rfl, 0, rfl, rfl⟩
  subst hxs
  obtain ⟨s', ws, hs', rfl, -, hsafe⟩ := hmoments (Process.sampleSystem 0x2000)
    { preHandler := 0x5000 } ⟨rfl, by decide, fun h => absurd rfl h, fun info hinfo => by
      obtain rfl := Option.some.inj (hinfo.symm.trans hlisted.hasInfo)
      decide⟩
  intro hall
  rcases hsafe.mp hall with h | ⟨-, h⟩
  · exact absurd h (by decide)
  · exact h rfl

/-- Removing a handle that is not the only one is safe at every moment if the data have no hook, or if
the function is enabled and the handle is not the first one with the hook of the data. -/
theorem removal_moments (hl : Process.Listed s₀ i info₀ {} []) (hrelocated : info₀.relocated ≠ 0)
    (hok : Allowed (Process.applyStackOp i) (Process.Stacked i) s₀ ops) :
    ∃ s info td xs, result (Process.applyStackOp i) s₀ ops = some s ∧
      Process.Listed s i info td xs ∧ ∀ sys ys p zs h, xs = ys ++ p :: zs → ys ++ zs ≠ [] →
        s.handles p = some h →
        ∃ s' ws, Process.unhookExt sys s p = some (true, s') ∧
          ws = unhook h (info.rootHandle = p) (Process.lastHook 0 (ys.map s.hookOf))
            (Process.lastHook info.relocated (ys.map s.hookOf)) ∧
          s'.trampolines info.trampoline = some (after td ws ws.length) ∧
          ((∀ k, Safe (after td ws k)) ↔
            td.hook = 0 ∨ td.enabled = true ∧ ¬(ys = [] ∧ td.hook = h.hook)) := by
  obtain ⟨s, info, td, xs, hs, hb, hkept, -⟩ := Process.built_run ops (Process.built_nil hl) hok
  rw [← hkept] at hrelocated
  refine ⟨s, info, td, xs, hs, hb.wellFormed.toListed, ?_⟩
  rintro sys ys p zs h rfl hne hh
  obtain ⟨s', hs', hu⟩ := Process.unhookExt_unregistered (e := sys) hb.wellFormed.toListed hne hh
    (hb.wellFormed.back hh)
  refine ⟨s', _, hs', rfl, ?_, unhook_safe_iff hb hne hrelocated hh⟩
  rw [hu.trampolines, Function.update_self, after_unhook]

/-- Two hooks are registered, and the first one is removed. -/
def twoHooks (hook : Word) : List StackOp :=
  [.keep (.register (Process.sampleSystem 0x1000) { hook := 0x4000 }),
    .keep (.register (Process.sampleSystem 0x2000) { hook := hook })]

theorem removal_moments_sample : ∃ h : HookHandleExt, h.hook = 0x4000 ∧
    ∀ k, Safe (after { rootHandle := 0x1000, hook := 0x5000, enabled := true }
      (unhook h true 0 0x3000) k) := by
  have hok : Allowed (Process.applyStackOp 0x10) (Process.Stacked 0x10) Process.sampleProcess
      (twoHooks 0x5000) := by
    refine ⟨⟨rfl, by decide, fun _ => rfl, fun info hinfo => ?_⟩, fun t ht =>
      ⟨⟨?_, by decide, fun _ => rfl, fun info hinfo => ?_⟩, fun _ _ => trivial⟩⟩
    · obtain rfl := Option.some.inj (hinfo.symm.trans Process.sampleProcess_listed.hasInfo)
      decide
    · obtain rfl := Option.some.inj (ht.symm.trans rfl)
      rfl
    · obtain rfl := Option.some.inj (ht.symm.trans rfl)
      obtain rfl := Option.some.inj (hinfo.symm.trans rfl)
      decide
  obtain ⟨s, info, td, xs, hs, hlisted, hmoments⟩ :=
    removal_moments Process.sampleProcess_listed (by decide) hok
  obtain rfl := Option.some.inj (hs.symm.trans rfl)
  obtain rfl := Option.some.inj (hlisted.hasInfo.symm.trans rfl)
  obtain rfl : { rootHandle := 0x1000, hook := 0x5000, enabled := true } = td :=
    Option.some.inj hlisted.hasData
  have hxs : xs = [] ++ 0x1000 :: [0x2000] := hlisted.next.unique
    (Process.field_null hlisted.null) ⟨rfl, 0x2000, rfl, rfl, 0, rfl, rfl⟩
  obtain ⟨s', ws, hs', rfl, -, hsafe⟩ := hmoments (Process.sampleSystem 0) [] 0x1000 [0x2000] _ hxs
    (by simp) rfl
  exact ⟨_, rfl, hsafe.mpr (.inr ⟨rfl, fun h => absurd h.2 (by decide)⟩)⟩

end Stacks

section Patch

variable {sys : System} {s' : Process} {address : Word}

theorem doHook_created (hi : s.hooks address = none)
    (hs : doHook sys s address args = some (.ok p, s')) :
    ∃ r c c', hookRelocation sys s address = .ok (r, c) ∧ Process.newHookHandle sys
      { createdProcess sys s address r c with toCodeMemory := c' } sys.info args = some s' := by
  have hres : ∀ {message : Option String} {u : Process},
      some ((.error message : HookResult), u) ≠ some (.ok p, s') := by
    intro message u heq
    cases heq
  rw [doHook, Process.lookup, hi] at hs
  dsimp only at hs
  split at hs
  · exact absurd hs hres
  split at hs
  · exact absurd hs hres
  split at hs
  · cases hs
  · exact absurd hs hres
  rename_i r c hrel
  split at hs
  · exact absurd hs hres
  obtain ⟨⟨copied, c'⟩, -, hs⟩ := Option.bind_eq_some_iff.mp hs
  dsimp only at hs
  split at hs
  · obtain ⟨t, ht, hs⟩ := Option.bind_eq_some_iff.mp hs
    obtain ⟨-, rfl⟩ := Prod.mk.inj (Option.some.inj hs)
    exact ⟨r, c, c', hrel, ht⟩
  · obtain ⟨t, -, hs⟩ := Option.bind_eq_some_iff.mp hs
    exact absurd hs hres

theorem backup_ne_zero_of_relocation {r : Relocated} {c : CodeMemory}
    (hheaps : ∀ n, sys.heaps n ≠ some 0) (hrel : hookRelocation sys s address = .ok (r, c)) :
    r.backup ≠ 0 := by
  obtain ⟨r', hrun, heq⟩ := bind_eq_ok hrel
  obtain ⟨rfl, -⟩ := Prod.mk.inj (Except.ok.inj heq)
  obtain ⟨w, a, b, -, -, -, halloc, -⟩ := relocate_cases hrun
  unfold Memory.alloc at halloc
  split_ifs at halloc
  intro hzero
  exact hheaps _ (hzero ▸ halloc)

end Patch

end SecondTrampoline
end Rv64Hook
