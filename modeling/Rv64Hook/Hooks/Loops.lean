import Rv64Hook.Lib.LinkedList
import Rv64Hook.Hooks

/-! What the loops over the handles of a function compute, on lists of handles. -/
namespace Rv64Hook
open ByteMem Rv64 LinkedList

namespace Process

/-- A field of the live handles. -/
def field {α : Type} (f : HookHandleExt → α) (s : Process) (p : Word) : Option α :=
  (s.handles p).map f

def nextOf (s : Process) : Word → Option Word := s.field (·.next)
def previousOf (s : Process) : Word → Option Word := s.field (·.previous)
def infoOf (s : Process) : Word → Option Word := s.field (·.info)

/-- A field of a handle, null where there is no handle. -/
def valueOf (f : HookHandleExt → Word) (s : Process) (p : Word) : Word := (s.field f p).getD 0

def hookOf (s : Process) : Word → Word := s.valueOf (·.hook)
def preHandlerOf (s : Process) : Word → Word := s.valueOf (·.preHandler)
def postHandlerOf (s : Process) : Word → Word := s.valueOf (·.postHandler)
def backupOf (s : Process) : Word → Word := s.valueOf (·.backup)
def userBackupAddrOf (s : Process) : Word → Word := s.valueOf (·.userBackupAddr)

variable {s s' : Process} {p q b : Word} {h k : HookHandleExt} {α : Type}
  {f : HookHandleExt → α}

theorem field_eq (hp : s.handles p = some h) : s.field f p = some (f h) := by
  rw [field, hp]
  rfl

theorem nextOf_eq (hp : s.handles p = some h) : s.nextOf p = some h.next := field_eq hp

theorem previousOf_eq (hp : s.handles p = some h) : s.previousOf p = some h.previous := field_eq hp

theorem valueOf_eq {f : HookHandleExt → Word} (hp : s.handles p = some h) :
    s.valueOf f p = f h := by
  rw [valueOf, field_eq hp]
  rfl

theorem hookOf_eq (hp : s.handles p = some h) : s.hookOf p = h.hook := valueOf_eq hp

theorem backupOf_eq (hp : s.handles p = some h) : s.backupOf p = h.backup := valueOf_eq hp

theorem userBackupAddrOf_eq (hp : s.handles p = some h) :
    s.userBackupAddrOf p = h.userBackupAddr := valueOf_eq hp

/-- Where a field is the same, so is its value. -/
theorem valueOf_congr {f : HookHandleExt → Word} (hf : s'.field f q = s.field f q) :
    s'.valueOf f q = s.valueOf f q := congrArg (·.getD 0) hf

theorem exists_handle_of_field {v : α} (hp : s.field f p = some v) :
    ∃ h, s.handles p = some h ∧ f h = v :=
  Option.map_eq_some_iff.mp hp

theorem field_null (hnull : s.handles 0 = none) : s.field f 0 = none := by
  rw [field, hnull]
  rfl

/-- An object reached through a link is not at the null address. -/
theorem ne_zero_of_handle (hnull : s.handles 0 = none) (hp : s.handles p = some h) : p ≠ 0 := by
  rintro rfl
  rw [hnull] at hp
  cases hp

@[simp] theorem setHandle_handles (s : Process) (p : Word) (h : HookHandleExt) :
    (s.setHandle p h).handles = Function.update s.handles p (some h) := rfl

@[simp] theorem deleteHandle_handles (s : Process) (p : Word) :
    (s.deleteHandle p).handles = Function.update s.handles p none := rfl

theorem field_setHandle (s : Process) (p : Word) (k : HookHandleExt) :
    (s.setHandle p k).field f = Function.update (s.field f) p (some (f k)) := by
  funext q
  by_cases hq : q = p
  · simp [field, hq]
  · simp [field, Function.update_of_ne hq]

/-- Rewriting a handle changes no field that keeps its value. -/
theorem field_setHandle_same (hp : s.handles p = some h) (hf : f k = f h) :
    (s.setHandle p k).field f = s.field f := by
  rw [field_setHandle, hf, ← field_eq hp, Function.update_eq_self]

theorem field_deleteHandle (s : Process) (p : Word) :
    (s.deleteHandle p).field f = Function.update (s.field f) p none := by
  funext q
  by_cases hq : q = p
  · simp [field, hq]
  · simp [field, Function.update_of_ne hq]

/-! ### The last hook of a list -/

/-- The last value that is not null, or `b`. -/
def lastHook (b : Word) (hooks : List Word) : Word :=
  hooks.foldl (fun b k => if k ≠ 0 then k else b) b

@[simp] theorem lastHook_nil (b : Word) : lastHook b [] = b := rfl

theorem lastHook_cons (b k : Word) (ks : List Word) :
    lastHook b (k :: ks) = lastHook (if k ≠ 0 then k else b) ks := rfl

theorem lastHook_append (b : Word) (ks ls : List Word) :
    lastHook b (ks ++ ls) = lastHook (lastHook b ks) ls := List.foldl_append

theorem lastHook_concat (b k : Word) (ks : List Word) :
    lastHook b (ks ++ [k]) = if k ≠ 0 then k else lastHook b ks := lastHook_append b ks [k]

/-- Without hooks the default remains. -/
theorem lastHook_eq_self {b : Word} {ks : List Word} (h : ∀ k ∈ ks, k = 0) : lastHook b ks = b := by
  induction ks with
  | nil => rfl
  | cons k ks ih =>
    rw [lastHook_cons, if_neg (not_not.mpr (h k List.mem_cons_self))]
    exact ih fun l hl => h l (List.mem_cons_of_mem _ hl)

/-- With a hook in the list the default is irrelevant, and the result is one of its hooks. -/
theorem lastHook_of_hook {ks : List Word} (h : ∃ k ∈ ks, k ≠ 0) (b : Word) :
    lastHook b ks = lastHook 0 ks ∧ lastHook b ks ∈ ks ∧ lastHook b ks ≠ 0 := by
  induction ks using List.reverseRecOn with
  | nil =>
    obtain ⟨k, hk, -⟩ := h
    cases hk
  | append_singleton ks l ih =>
    simp only [lastHook_concat]
    by_cases hl : l = 0
    · obtain ⟨k, hk, hk0⟩ := h
      have hk' : k ∈ ks := by
        rcases List.mem_append.mp hk with hk | hk
        · exact hk
        · exact absurd ((List.mem_singleton.mp hk).trans hl) hk0
      obtain ⟨h1, h2, h3⟩ := ih ⟨k, hk', hk0⟩
      rw [if_neg (not_not.mpr hl), if_neg (not_not.mpr hl)]
      exact ⟨h1, List.mem_append_left _ h2, h3⟩
    · rw [if_pos hl, if_pos hl]
      exact ⟨rfl, List.mem_append_right _ (List.mem_singleton_self l), hl⟩

/-- The default can be put in afterwards. -/
theorem lastHook_eq_ite (b : Word) (ks : List Word) :
    lastHook b ks = if lastHook 0 ks ≠ 0 then lastHook 0 ks else b := by
  by_cases h : ∃ k ∈ ks, k ≠ 0
  · rw [if_pos (lastHook_of_hook h 0).2.2, (lastHook_of_hook h b).1]
  · have hnone : ∀ k ∈ ks, k = 0 := by
      intro k hk
      by_contra hk0
      exact h ⟨k, hk, hk0⟩
    rw [lastHook_eq_self hnone, lastHook_eq_self hnone, if_neg (not_not.mpr rfl)]

/-! ### The three loops -/

/-- The loop of `NewHookHandle` finds the last handle and the last hook. -/
theorem appendHandle_eq {new : Word} {xs : List Word} {n : ℕ}
    (hnull : s.handles 0 = none) (hseg : Seg s.nextOf p (xs ++ [q]) 0) (hlen : xs.length < n)
    (hq : s.handles q = some h) (hnew : s.handles new = some k) (hne : new ≠ q) (b : Word) :
    appendHandle new n p b s =
      some ((s.setHandle q { h with next := new }).setHandle new { k with previous := q },
        lastHook b ((xs ++ [q]).map s.hookOf)) := by
  induction n generalizing p b xs with
  | zero => exact absurd hlen (Nat.not_lt_zero _)
  | succ n ih =>
    cases xs with
    | nil =>
      obtain ⟨rfl, r, hr, rfl⟩ := hseg
      have hnext : h.next = 0 := Option.some.inj ((nextOf_eq hq).symm.trans hr)
      rw [appendHandle, if_neg (ne_zero_of_handle hnull hq), hq]
      simp [hnext, lastHook_cons, hookOf_eq hq, Function.update_of_ne hne, hnew]
    | cons x xs =>
      obtain ⟨rfl, r, hr, hseg⟩ := hseg
      obtain ⟨l, hl, rfl⟩ := exists_handle_of_field hr
      have hnext : l.next ≠ 0 := by
        intro hzero
        have hempty := congrArg List.length (Seg.eq_nil (field_null hnull) (hzero ▸ hseg))
        simp at hempty
      rw [appendHandle, if_neg (ne_zero_of_handle hnull hl), hl]
      simp only [Option.bind_eq_bind, Option.bind_some, if_neg hnext]
      rw [ih hseg (by simpa using hlen)]
      simp [lastHook_cons, hookOf_eq hl]

/-- Following `previous_` backwards finds the last hook. -/
theorem previousHook_eq {xs : List Word} {n : ℕ} (hnull : s.handles 0 = none)
    (hseg : Seg s.previousOf p xs.reverse 0) (hlen : xs.length < n) :
    previousHook s n p = some (lastHook 0 (xs.map s.hookOf)) := by
  induction xs using List.reverseRecOn generalizing p n with
  | nil =>
    obtain rfl := hseg
    obtain ⟨n, rfl⟩ := Nat.exists_eq_succ_of_ne_zero (Nat.ne_zero_of_lt hlen)
    rfl
  | append_singleton xs x ih =>
    rw [List.reverse_append] at hseg
    obtain ⟨rfl, r, hr, hseg⟩ := hseg
    obtain ⟨k, hk, rfl⟩ := exists_handle_of_field hr
    obtain ⟨n, rfl⟩ := Nat.exists_eq_succ_of_ne_zero (Nat.ne_zero_of_lt hlen)
    rw [List.length_append, List.length_singleton] at hlen
    rw [previousHook, if_neg (ne_zero_of_handle hnull hk), hk]
    rw [List.map_append, List.map_singleton, lastHook_concat, hookOf_eq hk]
    simp only [Option.bind_eq_bind, Option.bind_some]
    by_cases hhook : k.hook = 0
    · rw [if_pos hhook, if_neg (not_not.mpr hhook), ih hseg (by omega)]
    · rw [if_neg hhook, if_pos hhook]

/-! ### Updating backups -/

/-- What `UpdateBackup` leaves alone. -/
def shape (h : HookHandleExt) : HookHandleExt := { h with backup := 0, userBackupAddr := 0 }

/-- The processes differ at most in backups and variables of the user. -/
structure SameShape (s s' : Process) : Prop where
  handles : ∀ q, (s'.handles q).map shape = (s.handles q).map shape
  infos : s'.infos = s.infos
  trampolines : s'.trampolines = s.trampolines
  hooks : s'.hooks = s.hooks
  records : s'.records = s.records
  code : s'.toCodeMemory = s.toCodeMemory

namespace SameShape

theorem refl (s : Process) : SameShape s s := ⟨fun _ => rfl, rfl, rfl, rfl, rfl, rfl⟩

theorem trans {t : Process} (h : SameShape s s') (h' : SameShape s' t) : SameShape s t :=
  ⟨fun q => (h'.handles q).trans (h.handles q), h'.infos.trans h.infos,
    h'.trampolines.trans h.trampolines, h'.hooks.trans h.hooks, h'.records.trans h.records,
    h'.code.trans h.code⟩

/-- A field that is part of the shape is the same. -/
theorem field (h : SameShape s s') (hf : ∀ k, f (shape k) = f k) : s'.field f = s.field f := by
  funext q
  have hcomp : f ∘ shape = f := funext hf
  have hq := congrArg (Option.map f) (h.handles q)
  rwa [Option.map_map, Option.map_map, hcomp] at hq

theorem nextOf (h : SameShape s s') : s'.nextOf = s.nextOf := h.field fun _ => rfl

theorem hookOf (h : SameShape s s') : s'.hookOf = s.hookOf :=
  funext fun q => valueOf_congr (congrFun (h.field fun _ => rfl) q)

theorem null (h : SameShape s s') (hnull : s.handles 0 = none) : s'.handles 0 = none := by
  have hq := h.handles 0
  rw [hnull] at hq
  exact Option.map_eq_none_iff.mp hq

end SameShape

theorem updateBackup_eq (hp : s.handles p = some h) : s.updateBackup p b =
    some (if h.userBackupAddr ≠ 0 then
        if s.vars h.userBackupAddr = h.backup then
          (s.setVar h.userBackupAddr b).setHandle p { h with backup := b }
        else s.setHandle p { h with backup := b, userBackupAddr := 0 }
      else s.setHandle p { h with backup := b }) := by
  rw [updateBackup, hp]
  simp only [Option.bind_eq_bind, Option.bind_some]
  split_ifs <;> rfl

theorem sameShape_setHandle {k : HookHandleExt} (hp : s.handles p = some h)
    (hk : shape k = shape h) : SameShape s (s.setHandle p k) := by
  refine ⟨fun q => ?_, rfl, rfl, rfl, rfl, rfl⟩
  by_cases hq : q = p
  · rw [hq, setHandle_handles, Function.update_self, hp]
    exact congrArg some hk
  · rw [setHandle_handles, Function.update_of_ne hq]

theorem updateBackup_sameShape (hs : s.updateBackup p b = some s') : SameShape s s' := by
  cases hp : s.handles p with
  | none =>
    rw [updateBackup, hp] at hs
    cases hs
  | some h =>
    rw [updateBackup_eq hp] at hs
    obtain rfl := Option.some.inj hs
    have hvar : SameShape s (s.setVar h.userBackupAddr b) := ⟨fun _ => rfl, rfl, rfl, rfl, rfl, rfl⟩
    split_ifs
    · exact hvar.trans (sameShape_setHandle hp rfl)
    · exact sameShape_setHandle hp rfl
    · exact sameShape_setHandle hp rfl

/-- Whatever lists there are, the loop changes backups only. -/
theorem updateBackups_sameShape {n : ℕ} (hs : updateBackups b n p s = some s') :
    SameShape s s' := by
  induction n generalizing p s with
  | zero => cases hs
  | succ n ih =>
    rw [updateBackups] at hs
    split at hs
    · obtain rfl := Option.some.inj hs
      exact .refl s
    · obtain ⟨t, ht, hs⟩ := Option.bind_eq_some_iff.mp hs
      obtain ⟨k, -, hs⟩ := Option.bind_eq_some_iff.mp hs
      split at hs
      · obtain rfl := Option.some.inj hs
        exact updateBackup_sameShape ht
      · exact (updateBackup_sameShape ht).trans (ih hs)

theorem updateBackup_backupOf (hs : s.updateBackup p b = some s') (q : Word) :
    s'.backupOf q = if q = p then b else s.backupOf q := by
  cases hp : s.handles p with
  | none =>
    rw [updateBackup, hp] at hs
    cases hs
  | some h =>
    rw [updateBackup_eq hp] at hs
    obtain rfl := Option.some.inj hs
    unfold backupOf valueOf field
    by_cases hq : q = p
    · rw [if_pos hq, hq]
      split_ifs <;> simp
    · rw [if_neg hq]
      split_ifs <;> simp [Function.update_of_ne hq, setVar]

/-- The variable of a handle, if it has one, holds its backup. -/
def Tracks (s : Process) (q : Word) : Prop :=
  s.userBackupAddrOf q ≠ 0 → s.vars (s.userBackupAddrOf q) = s.backupOf q

/-- No two handles of the list share a variable. -/
def DistinctVars (s : Process) (xs : List Word) : Prop :=
  ∀ p ∈ xs, ∀ q ∈ xs, s.userBackupAddrOf p ≠ 0 →
    s.userBackupAddrOf p = s.userBackupAddrOf q → p = q

/-- A variable that holds the old backup gets the new one, and no other variable changes. -/
theorem updateBackup_tracks {xs : List Word} (hs : s.updateBackup p b = some s') (hp : p ∈ xs)
    (hdistinct : DistinctVars s xs) (htracks : ∀ q ∈ xs, Tracks s q) :
    s'.userBackupAddrOf = s.userBackupAddrOf ∧ ∀ q ∈ xs, Tracks s' q := by
  have hbackup := updateBackup_backupOf hs
  cases hh : s.handles p with
  | none =>
    rw [updateBackup, hh] at hs
    cases hs
  | some h =>
    rw [updateBackup_eq hh] at hs
    obtain rfl := Option.some.inj hs
    have haddr := userBackupAddrOf_eq hh
    have hvar : h.userBackupAddr ≠ 0 → s.vars h.userBackupAddr = h.backup := by
      have hp' := htracks p hp
      unfold Tracks at hp'
      rwa [haddr, backupOf_eq hh] at hp'
    have hsame : ∀ t : Process, t.handles = Function.update s.handles p
        (some { h with backup := b }) → t.userBackupAddrOf = s.userBackupAddrOf := by
      intro t ht
      funext q
      unfold userBackupAddrOf valueOf field
      by_cases hq : q = p
      · rw [ht, hq, Function.update_self, hh]
        rfl
      · rw [ht, Function.update_of_ne hq]
    by_cases hzero : h.userBackupAddr = 0
    · rw [if_neg (not_not.mpr hzero)] at hbackup ⊢
      refine ⟨hsame _ rfl, fun q hq hne => ?_⟩
      rw [hsame _ rfl] at hne ⊢
      have hqp : q ≠ p := by
        rintro rfl
        exact hne (haddr.trans hzero)
      rw [hbackup, if_neg hqp]
      exact htracks q hq hne
    · rw [if_pos hzero, if_pos (hvar hzero)] at hbackup ⊢
      refine ⟨hsame _ rfl, fun q hq hne => ?_⟩
      rw [hsame _ rfl] at hne ⊢
      rw [hbackup]
      by_cases hqp : q = p
      · rw [if_pos hqp, hqp, haddr]
        exact Function.update_self ..
      · rw [if_neg hqp, ← htracks q hq hne]
        refine Function.update_of_ne (fun heq => hqp ?_) ..
        exact hdistinct q hq p hp hne (heq.trans haddr.symm)

/-- The handles up to the first one with a hook. -/
def upToHook (hook : Word → Word) : List Word → List Word
  | [] => []
  | p :: ps => if hook p ≠ 0 then [p] else p :: upToHook hook ps

/-- The loop of `UnhookExt` sets the backups up to the first handle with a hook. -/
theorem updateBackups_eq {xs : List Word} {n : ℕ} (hnull : s.handles 0 = none)
    (hseg : Seg s.nextOf p xs 0) (hlen : xs.length < n) :
    ∃ s', updateBackups b n p s = some s' ∧ SameShape s s' ∧
      (∀ q, s'.backupOf q = if q ∈ upToHook s.hookOf xs then b else s.backupOf q) ∧
      ∀ ys, (∀ q ∈ xs, q ∈ ys) → DistinctVars s ys → (∀ q ∈ ys, Tracks s q) →
        s'.userBackupAddrOf = s.userBackupAddrOf ∧ ∀ q ∈ ys, Tracks s' q := by
  induction xs generalizing p n s with
  | nil =>
    obtain rfl := hseg
    obtain ⟨n, rfl⟩ := Nat.exists_eq_succ_of_ne_zero (Nat.ne_zero_of_lt hlen)
    refine ⟨s, rfl, .refl s, fun q => ?_, fun ys _ _ htracks => ⟨rfl, htracks⟩⟩
    rw [if_neg (by simp [upToHook])]
  | cons x xs ih =>
    obtain ⟨rfl, r, hr, hseg⟩ := hseg
    obtain ⟨k, hk, rfl⟩ := exists_handle_of_field hr
    obtain ⟨n, rfl⟩ := Nat.exists_eq_succ_of_ne_zero (Nat.ne_zero_of_lt hlen)
    obtain ⟨t, ht⟩ : ∃ t, s.updateBackup p b = some t := ⟨_, updateBackup_eq hk⟩
    have hshape := updateBackup_sameShape ht
    have hbackup := updateBackup_backupOf ht
    obtain ⟨l, hl, hlnext⟩ := exists_handle_of_field (hshape.nextOf ▸ hr)
    have hlhook : l.hook = s.hookOf p := by rw [← hookOf_eq hl, hshape.hookOf]
    rw [updateBackups, if_neg (ne_zero_of_handle hnull hk), ht]
    simp only [Option.bind_eq_bind, Option.bind_some, hl, hlhook, hlnext]
    by_cases hhook : s.hookOf p = 0
    · have hup : upToHook s.hookOf (p :: xs) = p :: upToHook s.hookOf xs :=
        if_neg (not_not.mpr hhook)
      rw [if_neg (not_not.mpr hhook)]
      obtain ⟨s', hs', hshape', hbackup', htracks'⟩ := ih (hshape.null hnull)
        (hshape.nextOf ▸ hseg) (by simpa using hlen)
      refine ⟨s', hs', hshape.trans hshape', fun q => ?_, fun ys hys hd htr => ?_⟩
      · simp only [hup, List.mem_cons]
        rw [hbackup', hbackup, hshape.hookOf]
        by_cases hq : q ∈ upToHook s.hookOf xs
        · rw [if_pos hq, if_pos (.inr hq)]
        · rw [if_neg hq]
          by_cases hqp : q = p
          · rw [if_pos hqp, if_pos (.inl hqp)]
          · rw [if_neg hqp, if_neg (not_or.mpr ⟨hqp, hq⟩)]
      · obtain ⟨haddr, htr'⟩ := updateBackup_tracks ht (hys p List.mem_cons_self) hd htr
        have hd' : DistinctVars t ys := by
          unfold DistinctVars
          rwa [haddr]
        obtain ⟨haddr', htr''⟩ := htracks' ys
          (fun q hq => hys q (List.mem_cons_of_mem _ hq)) hd' htr'
        exact ⟨haddr'.trans haddr, htr''⟩
    · have hup : upToHook s.hookOf (p :: xs) = [p] := if_pos hhook
      rw [if_pos hhook]
      refine ⟨t, rfl, hshape, fun q => ?_, fun ys hys hd htr => ?_⟩
      · simp only [hup, hbackup, List.mem_singleton]
      · exact updateBackup_tracks ht (hys p List.mem_cons_self) hd htr

end Process
end Rv64Hook
