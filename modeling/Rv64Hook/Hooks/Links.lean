import Rv64Hook.Hooks.Dispatch
import Rv64Hook.Lib.Calls

/-! The links between the handles of one function, through sequences of registrations and
removals. -/
namespace Rv64Hook
open ByteMem Rv64 LinkedList Calls

namespace Process

/-- A call of `NewHookHandle` or of `UnhookExt`. -/
inductive HandleCall where
  | register (e : System) (args : HookArgs)
  | unregister (e : System) (handle : Word)

namespace HandleCall

/-- The call on info `i`, with the live handles in registration order. -/
def step (i : Word) : HandleCall → Process × List Word → Option (Process × List Word)
  | register e args, (s, xs) => do
    let s ← newHookHandle e s i args
    some (s, xs ++ [e.handle])
  | unregister e p, (s, xs) => do
    let (_, s) ← unhookExt e s p
    some (s, xs.erase p)

/-- A registration makes a new object, and `DoHook` limits the count; a removal is that of a live
handle, but not of the last one left. -/
def Admissible : Process × List Word → HandleCall → Prop
  | (s, xs), register e _ => e.handle ≠ 0 ∧ s.handles e.handle = none ∧ xs.length < 0xffff
  | (_, xs), unregister _ p => p ∈ xs ∧ xs.length ≠ 1

/-- The call does not remove a handle that others were registered behind. -/
def RemovesLast : Process × List Word → HandleCall → Prop
  | _, register _ _ => True
  | (_, xs), unregister _ p => xs.getLast? = some p

end HandleCall

/-- The links lead through the handles in both directions, and none of them to a deleted handle. -/
structure Intact (s : Process) (i : Word) (info : HookInfo) (td : TrampolineData)
    (xs : List Word) : Prop extends WellFormed s i info td xs where
  nextLive : ∀ p h, s.handles p = some h → h.info = i → h.next = 0 ∨ s.infoOf h.next = some i
  previousLive : ∀ p h, s.handles p = some h → h.info = i →
    h.previous = 0 ∨ s.infoOf h.previous = some i
  rootLive : info.rootHandle = 0 ∨ s.infoOf info.rootHandle = some i
  rootPrevious : ∀ h, s.handles info.rootHandle = some h → h.previous = 0

def IntactState (i : Word) : Process × List Word → Prop
  | (s, xs) => ∃ info td, Intact s i info td xs

variable {e : System} {s s' : Process} {i p : Word} {info : HookInfo} {td : TrampolineData}
  {args : HookArgs} {xs ys zs : List Word} {h : HookHandleExt}

theorem WellFormed.intact (hw : WellFormed s i info td xs) : Intact s i info td xs where
  toWellFormed := hw
  nextLive := by
    intro p h hp hinfo
    have hmem : p ∈ xs := (hw.live p).mp (by rw [infoOf, field_eq hp, hinfo])
    exact (hw.next.link_mem hmem (nextOf_eq hp)).symm.imp_right (hw.live _).mpr
  previousLive := by
    intro p h hp hinfo
    have hmem : p ∈ xs.reverse :=
      List.mem_reverse.mpr ((hw.live p).mp (by rw [infoOf, field_eq hp, hinfo]))
    refine (hw.previous.link_mem hmem (previousOf_eq hp)).symm.imp_right fun hmem => ?_
    exact (hw.live _).mpr (List.mem_reverse.mp hmem)
  rootLive := by
    cases xs with
    | nil => exact .inl hw.next
    | cons x xs => exact .inr ((hw.live _).mpr (hw.next.1 ▸ List.mem_cons_self))
  rootPrevious := by
    intro h hh
    cases xs with
    | nil =>
      have hroot : info.rootHandle = 0 := hw.next
      rw [hroot, hw.null] at hh
      cases hh
    | cons x xs =>
      obtain rfl := hw.next.1
      exact (show WellFormed s i info td ([] ++ info.rootHandle :: xs) from hw).back hh

theorem HandleCall.register_intact (hs : IntactState i (s, xs)) (hzero : e.handle ≠ 0)
    (hfresh : s.handles e.handle = none) (hlen : xs.length < 0xffff) :
    ∃ t, (register e args).step i (s, xs) = some t ∧ IntactState i t := by
  obtain ⟨info, td, hi⟩ := hs
  have hw := hi.toWellFormed
  have hcount : info.handleCount ≠ 0xffff := by
    intro heq
    have hlength := hw.count
    rw [heq, show (0xffff : BitVec 16).toNat = 0xffff from rfl] at hlength
    omega
  obtain ⟨s', hs', hr⟩ := newHookHandle_registered hw.toListed hfresh hzero args
  refine ⟨(s', xs ++ [e.handle]), ?_, _, _, (hr.wellFormed hw hcount hfresh).intact⟩
  simp only [step, hs', Option.bind_eq_bind, Option.bind_some]

/-- The handle behind a removed one keeps its link to it. -/
theorem Unregistered.not_intact {z : Word} {info' : HookInfo} {td' : TrampolineData}
    (hu : Unregistered s i info td ys p h (z :: zs) s')
    (hw : WellFormed s i info td (ys ++ p :: z :: zs)) (xs : List Word) :
    ¬ Intact s' i info' td' xs := by
  intro hi
  have hnodup := hw.nodup
  rw [List.nodup_middle, List.nodup_cons] at hnodup
  obtain ⟨k, hk, hinfo⟩ := hw.exists_handle (show z ∈ ys ++ p :: z :: zs by simp)
  have hzp : z ≠ p := by
    rintro rfl
    exact hnodup.1 (by simp)
  rw [show ys ++ p :: z :: zs = ys ++ [p] ++ z :: zs by simp] at hw
  have hback := hw.back hk
  rw [List.reverse_append, List.reverse_singleton] at hback
  have hprevious : s'.previousOf z = some p := by
    rw [← hback.1, previousOf, hu.field_of_ne (fun _ _ => rfl) (fun _ => rfl) hzp]
    exact previousOf_eq hk
  have hinfo' : s'.infoOf z = some i := by
    rw [infoOf, hu.field_of_ne (fun _ _ => rfl) (fun _ => rfl) hzp, field_eq hk, hinfo]
  obtain ⟨l, hl, rfl⟩ := exists_handle_of_field hprevious
  rw [infoOf, field_eq hl] at hinfo'
  have hdead : s'.infoOf l.previous = none := by
    rw [infoOf, hu.field (·.info) (fun _ _ => rfl) (fun _ => rfl), Function.update_self]
  rcases hi.previousLive z l hl (Option.some.inj hinfo') with hzero | hlive
  · exact hw.ne_zero (show l.previous ∈ _ by simp) hzero
  · rw [hdead] at hlive
    cases hlive

/-- A removal keeps the links intact exactly when the handle is the last of the list. -/
theorem HandleCall.unregister_intact_iff (hs : IntactState i (s, xs)) (hp : p ∈ xs)
    (hlen : xs.length ≠ 1) :
    (∃ t, (unregister e p).step i (s, xs) = some t ∧ IntactState i t) ↔
      xs.getLast? = some p := by
  obtain ⟨info, td, hi⟩ := hs
  have hw := hi.toWellFormed
  obtain ⟨ys, zs, rfl⟩ := List.append_of_mem hp
  obtain ⟨h, hh, -⟩ := hw.exists_handle hp
  have hnodup := hw.nodup
  rw [List.nodup_middle, List.nodup_cons] at hnodup
  have hne : ys ++ zs ≠ [] := by
    intro hnil
    obtain ⟨rfl, rfl⟩ := List.append_eq_nil_iff.mp hnil
    exact hlen rfl
  obtain ⟨s', hs', hu⟩ := unhookExt_unregistered (e := e) hw.toListed hne hh (hw.back hh)
  have hstep : (unregister e p).step i (s, ys ++ p :: zs) = some (s', ys ++ zs) := by
    have herase : (ys ++ p :: zs).erase p = ys ++ zs := by
      rw [List.erase_append_right _ fun hmem => hnodup.1 (by simp [hmem]), List.erase_cons_head]
    simp only [step, hs', Option.bind_eq_bind, Option.bind_some, herase]
  cases zs with
  | nil =>
    refine ⟨fun _ => by simp, fun _ => ⟨_, hstep, _, _, (hu.wellFormed hw).intact⟩⟩
  | cons z zs =>
    constructor
    · rintro ⟨t, ht, info', td', hi'⟩
      obtain rfl := Option.some.inj (hstep.symm.trans ht)
      exact absurd hi' (hu.not_intact hw _)
    · intro hlast
      rw [show ys ++ p :: z :: zs = ys ++ [p] ++ z :: zs by simp,
        List.getLast?_append_of_ne_nil _ (List.cons_ne_nil z zs)] at hlast
      exact absurd (by simp [List.mem_of_getLast? hlast]) hnodup.1

/-- The links stay intact through a sequence of registrations and removals exactly when each
removal is that of the last handle in the list. -/
theorem links_intact_iff (i : Word) (s : Process) (info : HookInfo) (td : TrampolineData)
    (cs : List HandleCall) (hl : Listed s i info td [])
    (hok : Allowed (HandleCall.step i) HandleCall.Admissible (s, []) cs) :
    Always (HandleCall.step i) (IntactState i) (s, []) cs ↔
      Allowed (HandleCall.step i) HandleCall.RemovesLast (s, []) cs := by
  have hw : WellFormed s i info td [] := ⟨hl, rfl⟩
  refine always_iff_allowed (fun t c ht hc => ?_) ⟨info, td, hw.intact⟩ hok
  obtain ⟨t, xs⟩ := t
  cases c with
  | register e args =>
    obtain ⟨hzero, hfresh, hlen⟩ := hc
    exact ⟨fun _ => trivial, fun _ => HandleCall.register_intact ht hzero hfresh hlen⟩
  | unregister e p => exact HandleCall.unregister_intact_iff ht hc.1 hc.2

instance : ∀ s c, Decidable (HandleCall.Admissible s c)
  | (s, xs), .register e _ => inferInstanceAs
      (Decidable (e.handle ≠ 0 ∧ s.handles e.handle = none ∧ xs.length < 0xffff))
  | (_, xs), .unregister _ p => inferInstanceAs (Decidable (p ∈ xs ∧ xs.length ≠ 1))

instance : ∀ s c, Decidable (HandleCall.RemovesLast s c)
  | (_, _), .register _ _ => .isTrue trivial
  | (_, xs), .unregister _ p => inferInstanceAs (Decidable (xs.getLast? = some p))

/-- Two hooks, and the removal of one of them. -/
def sampleCalls (removed : Word) : List HandleCall :=
  [.register (sampleSystem 0x100) { hook := 0x4000 },
    .register (sampleSystem 0x200) { hook := 0x5000 }, .unregister (sampleSystem 0) removed]

theorem links_intact_iff_sample :
    Always (HandleCall.step 0x10) (IntactState 0x10) (sampleProcess, []) (sampleCalls 0x200) :=
  (links_intact_iff 0x10 sampleProcess sampleInfo {} (sampleCalls 0x200) sampleProcess_listed
    (by decide)).mpr (by decide)

/-- When the first of two handles is removed, the second stays linked to it. -/
theorem links_not_intact : Listed sampleProcess 0x10 sampleInfo {} [] ∧
    Allowed (HandleCall.step 0x10) HandleCall.Admissible (sampleProcess, []) (sampleCalls 0x100) ∧
    ¬ Always (HandleCall.step 0x10) (IntactState 0x10) (sampleProcess, []) (sampleCalls 0x100) := by
  refine ⟨sampleProcess_listed, by decide, fun hall => ?_⟩
  obtain ⟨⟨s, xs⟩, hs, info, td, hi⟩ := hall.result
  have hlinks : (result (HandleCall.step 0x10) (sampleProcess, []) (sampleCalls 0x100)).map
      (fun t => (t.1.previousOf 0x200, t.1.infoOf 0x200, t.1.infoOf 0x100)) =
        some (some 0x100, some 0x10, none) := rfl
  rw [hs] at hlinks
  obtain ⟨hprevious, hinfo, hdead⟩ : s.previousOf 0x200 = some 0x100 ∧
      s.infoOf 0x200 = some 0x10 ∧ s.infoOf 0x100 = none := by simpa using hlinks
  obtain ⟨h, hh, hp⟩ := exists_handle_of_field hprevious
  rw [infoOf, field_eq hh] at hinfo
  rcases hi.previousLive _ h hh (Option.some.inj hinfo) with hzero | hlive
  · rw [hp] at hzero
    exact absurd hzero (by decide)
  · rw [hp, hdead] at hlive
    cases hlive

end Process
end Rv64Hook
