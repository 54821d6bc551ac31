import Rv64Hook.Hooks.Bytes

/-! Failed hooks: what a call leaves behind that returns null. -/
namespace Rv64Hook
open ByteMem Rv64 LinkedList Calls Process Trampoline

/-- A call on the function at `address` has left neither an entry nor a block, and not a byte of the
function has changed. -/
structure Traceless (s s' : Process) (address : Word) : Prop where
  entry : s'.hooks address = none
  bytes : ∀ p, InRange address 32 p → s'.mem p = s.mem p
  blocks : ∀ b, s'.blocks b = true → s.blocks b = true
  userBlocks : ∀ b, s'.userBlocks b = true → s.userBlocks b = true

/-- The trampoline that a call gets was not in use, and the info is no code. -/
structure NewBlock (e : System) (s : Process) (address : Word) : Prop where
  trampoline : if e.isUserAlloc then s.userBlocks e.trampoline = false
    else s.blocks e.trampoline = false
  info : e.info ≠ address

/-- `DoHook` fails before it has allocated the second trampoline. -/
def FailsEarly (e : System) : Prop := e.readable = false ∨ e.trampoline = 0

variable {e : System} {s s' : Process} {address : Word} {args : HookArgs} {msg : Option String}

theorem traceless_refl (hentry : s.hooks address = none) : Traceless s s address :=
  ⟨hentry, fun _ _ => rfl, fun _ h => h, fun _ h => h⟩

/-- A second trampoline that is not freed again is a trace. -/
theorem allocSecondTrampoline_not_traceless (hnew : NewBlock e s address) :
    ¬ Traceless s (allocSecondTrampoline e s) address := by
  intro ht
  have hblock := hnew.trampoline
  by_cases huser : e.isUserAlloc = true
  · rw [if_pos huser] at hblock
    have hin : (allocSecondTrampoline e s).userBlocks e.trampoline = true := by
      unfold allocSecondTrampoline
      dsimp only
      rw [if_pos huser]
      exact Function.update_self ..
    exact absurd ((ht.userBlocks _ hin).symm.trans hblock) (by decide)
  · rw [if_neg huser] at hblock
    have hin : (allocSecondTrampoline e s).blocks e.trampoline = true := by
      unfold allocSecondTrampoline
      dsimp only
      rw [if_neg huser]
      exact Function.update_self ..
    exact absurd ((ht.blocks _ hin).symm.trans hblock) (by decide)

/-- A call of `DoHook` that returns null leaves no trace exactly when the function has no entry
and the call fails before it has allocated a trampoline. -/
theorem doHook_traceless_iff (hnew : NewBlock e s address)
    (hs : doHook e s address args = some (.error msg, s')) :
    Traceless s s' address ↔ s.hooks address = none ∧ FailsEarly e := by
  cases hi : s.hooks address with
  | some i =>
    obtain ⟨info, -, ⟨-, -, rfl⟩ | ⟨-, hres, -⟩⟩ := doHook_known hs hi
    · refine ⟨fun ht => ?_, fun h => (nomatch h.1)⟩
      rw [ht.entry] at hi
      cases hi
    · cases hres
  | none =>
    have halloc := allocSecondTrampoline_not_traceless hnew
    rcases doHook_new hs hi with ⟨hearly, rfl⟩ | ⟨hreadable, htrampoline, hcases⟩
    · exact ⟨fun _ => ⟨rfl, hearly⟩, fun _ => traceless_refl hi⟩
    have hlate : ¬ FailsEarly e := by
      rintro (h | h)
      · exact absurd (h.symm.trans hreadable) (by decide)
      · exact htrampoline h
    refine ⟨fun ht => ?_, fun h => absurd h.2 hlate⟩
    rcases hcases with ⟨-, rfl⟩ | ⟨r, c, hrel, hcases⟩
    · exact absurd ht halloc
    rcases hcases with ⟨hsize, -⟩ | ⟨-, copied, c', -, hcases⟩
    · have hle := (hookRelocation_size hrel).1
      rw [hsize] at hle
      exact absurd hle (by cases firstType e address <;> decide)
    split at hcases
    · cases hcases.1
    · -- the entry of the function stays when it cannot be patched
      obtain ⟨info, td, -, -, -, -, -, -, hhooks, -⟩ := unhookInfo_eq hcases.2
      have hentry := ht.entry
      rw [hhooks, Function.update_of_ne hnew.info.symm] at hentry
      have hcreated : (createdProcess e s address r c).hooks address = some e.info := by
        change (if (s.hooks address).isSome then s.hooks
          else Function.update s.hooks address (some e.info)) address = some e.info
        rw [hi]
        exact Function.update_self ..
      rw [show (createdProcess e s address r c).hooks address = none from hentry] at hcreated
      cases hcreated

/-- A hook or an instrument that is refused leaves no trace exactly when the function has no entry
and its arguments are invalid, or the call fails before it has allocated a trampoline. -/
theorem failed_hook_traceless_iff (e : System) (s : Process) (address : Word)
    (hnew : NewBlock e s address) :
    (∀ hook backup msg s', inlineHook e s address hook backup = some (.error msg, s') →
      (Traceless s s' address ↔
        s.hooks address = none ∧ ((address = 0 ∨ hook = 0) ∨ FailsEarly e))) ∧
    (∀ preHandler postHandler data backup msg s',
      inlineInstrument e s address preHandler postHandler data backup = some (.error msg, s') →
      (Traceless s s' address ↔ s.hooks address = none ∧
        ((address = 0 ∨ preHandler = 0 ∧ postHandler = 0) ∨
          (address = e.pthreadGetspecific ∨ address = e.pthreadSetspecific) ∨ FailsEarly e))) := by
  constructor
  · intro hook backup msg s' hs
    unfold inlineHook at hs
    split at hs
    · rename_i hargs
      obtain ⟨-, rfl⟩ := Prod.mk.inj (Option.some.inj hs)
      exact ⟨fun ht => ⟨ht.entry, .inl hargs⟩, fun h => traceless_refl h.1⟩
    · rename_i hargs
      rw [doHook_traceless_iff hnew hs]
      exact and_congr_right fun _ => ⟨.inr, fun h => h.resolve_left hargs⟩
  · intro preHandler postHandler data backup msg s' hs
    unfold inlineInstrument at hs
    split at hs
    · rename_i hargs
      obtain ⟨-, rfl⟩ := Prod.mk.inj (Option.some.inj hs)
      exact ⟨fun ht => ⟨ht.entry, .inl hargs⟩, fun h => traceless_refl h.1⟩
    rename_i hargs
    split at hs
    · rename_i hunsupported
      obtain ⟨-, rfl⟩ := Prod.mk.inj (Option.some.inj hs)
      exact ⟨fun ht => ⟨ht.entry, .inr (.inl hunsupported)⟩, fun h => traceless_refl h.1⟩
    · rename_i hsupported
      rw [doHook_traceless_iff hnew hs]
      exact and_congr_right fun _ => ⟨fun h => .inr (.inr h),
        fun h => (h.resolve_left hargs).resolve_left hsupported⟩

theorem failed_hook_traceless_iff_sample :
    Traceless (initial nopMemory fun _ => 0) (initial nopMemory fun _ => 0) 0x1000 := by
  have hnew : NewBlock { hookSystem with readable := false } (initial nopMemory fun _ => 0)
      0x1000 := ⟨rfl, by decide⟩
  exact ((failed_hook_traceless_iff { hookSystem with readable := false }
    (initial nopMemory fun _ => 0) 0x1000 hnew).1 0x4000 0 _ _ rfl).mpr ⟨rfl, .inr (.inl rfl)⟩

/-- The function starts with an instruction that cannot be relocated: its second trampoline is not
freed. -/
theorem failed_hook_not_traceless : ∃ s', inlineHook hookSystem (initial (fun _ => 0) fun _ => 0)
    0x1000 0x4000 0 = some (.error none, s') ∧
    NewBlock hookSystem (initial (fun _ => 0) fun _ => 0) 0x1000 ∧
    ¬ Traceless (initial (fun _ => 0) fun _ => 0) s' 0x1000 := by
  refine ⟨_, rfl, ⟨rfl, by decide⟩, fun ht => ?_⟩
  exact absurd (ht.blocks 0x2000 rfl) (by decide)

end Rv64Hook
