import Rv64Hook.Logger
import Rv64Hook.Relocator.Validity

/-! The messages of the relocator: it reports the first instruction that it does not know, but not
one for which the decoder fires no callback, or two. -/
namespace Rv64Hook
open ByteMem Rv64 Berberis Berberis.Assembler Berberis.Decoder

namespace RV64Relocator

/-- `Undefined` on the error state. -/
def undefinedError (r : RV64Relocator) (err : ErrorState) : ErrorState :=
  if r.returned then err
  else err.setError "Instruction Relocator" ("Unknown instruction at " ++ formatHex r.pc.toNat)

/-- A callback on the error state. -/
def consumeError (r : RV64Relocator) (cb : Callback) (err : ErrorState) : ErrorState :=
  match cb with
  | .undefined => r.undefinedError err
  | .compareAndBranch opcode src1 src2 _ =>
    if (branchTo r.assembler opcode src1 src2 (.made 0)).isNone then r.undefinedError err else err
  | _ => err

/-- The callbacks of one instruction on the error state. -/
def decodeError : List Callback → RV64Relocator → ErrorState → ErrorState
  | [], _, err => err
  | cb :: cbs, r, err =>
    let err := r.consumeError cb err
    match r.consume cb with
    | none => err
    | some r => decodeError cbs r err

/-- The loop of `Relocate` on the error state. -/
def windowError (code : Mem) : ℕ → Int → Window → ErrorState → ErrorState
  | 0, _, _, err => err
  | fuel + 1, size, w, err =>
    if 0 < size then
      let err := decodeError (decode code w.address).1 { w.relocator with pc := w.address } err
      match relocateInsn code w.address w.relocator with
      | .error _ => err
      | .ok (r, count) =>
        windowError code fuel (size - count)
          ⟨r, w.address + BitVec.ofNat 64 count, w.overwriteSize + count⟩ err
    else err

end RV64Relocator

open RV64Relocator

/-- `Relocate` on the error state. -/
def relocateError (code : Mem) (address : Word) (size : Int) (err : ErrorState) : ErrorState :=
  windowError code size.toNat size { address := address } err

/-! ### Windows that are refused without a message -/

/-- The instruction is a `ret` to the relocator. -/
def Returns (code : Mem) (p : Word) : Prop :=
  ∃ n, (decode code p).1 = [.jumpAndLinkRegister 0 1 0 n]

/-- Instruction `k` fires one callback; one that is not known follows a `ret`. -/
def Accepted (code : Mem) (a : Word) (returned : Prop) (k : ℕ) : Prop :=
  ∃ cb, (decode code (a + BitVec.ofNat 64 (mark code a k).1)).1 = [cb] ∧
    (¬ cb.served → returned ∨ ∃ j < k, Returns code (a + BitVec.ofNat 64 (mark code a j).1))

/-- The relocator arrives at an instruction for which the decoder fires no callback, or two. -/
def SilentWindow (code : Mem) (a : Word) (size : Int) (returned : Prop) : Prop :=
  ∃ k, ((mark code a k).1 : Int) < size ∧ (∀ j < k, Accepted code a returned j) ∧
    (decode code (a + BitVec.ofNat 64 (mark code a k).1)).1.length ≠ 1

section Shift
variable {code : Mem} {a : Word} {size : Int} {returned : Prop}

theorem returns_shift (code : Mem) (a : Word) (k : ℕ) :
    Returns code (a + BitVec.ofNat 64 (mark code a (k + 1)).1) ↔
      Returns code (a + BitVec.ofNat 64 (lenAt code a) +
        BitVec.ofNat 64 (mark code (a + BitVec.ofNat 64 (lenAt code a)) k).1) := by
  rw [mark_shift, add_ofNat_add]

theorem accepted_succ (k : ℕ) : Accepted code a returned (k + 1) ↔
    Accepted code (a + BitVec.ofNat 64 (lenAt code a)) (returned ∨ Returns code a) k := by
  unfold Accepted
  rw [mark_shift, ← add_ofNat_add]
  refine exists_congr fun cb => and_congr_right fun _ => imp_congr_right fun _ => ?_
  constructor
  · rintro (h | ⟨j, hj, h⟩)
    · exact .inl (.inl h)
    · cases j with
      | zero =>
        rw [show (mark code a 0).1 = 0 from rfl, BitVec.add_zero] at h
        exact .inl (.inr h)
      | succ j => exact .inr ⟨j, by omega, (returns_shift code a j).mp h⟩
  · rintro ((h | h) | ⟨j, hj, h⟩)
    · exact .inl h
    · refine .inr ⟨0, Nat.succ_pos k, ?_⟩
      rwa [show (mark code a 0).1 = 0 from rfl, BitVec.add_zero]
    · exact .inr ⟨j + 1, by omega, (returns_shift code a j).mpr h⟩

/-- A window is silent at its first instruction, or behind it when that one is accepted. -/
theorem silentWindow_iff (hsize : 0 < size) : SilentWindow code a size returned ↔
    (decode code a).1.length ≠ 1 ∨ Accepted code a returned 0 ∧
      SilentWindow code (a + BitVec.ofNat 64 (lenAt code a)) (size - lenAt code a)
        (returned ∨ Returns code a) := by
  have hzero : a + BitVec.ofNat 64 (mark code a 0).1 = a := BitVec.add_zero a
  constructor
  · rintro ⟨k, hk, hbefore, hlength⟩
    cases k with
    | zero => exact .inl (hzero ▸ hlength)
    | succ k =>
      refine .inr ⟨hbefore 0 (Nat.succ_pos k), k, ?_, fun j hj => ?_, ?_⟩
      · rw [mark_shift] at hk
        omega
      · exact (accepted_succ j).mp (hbefore (j + 1) (by omega))
      · rwa [mark_shift, ← add_ofNat_add] at hlength
  · rintro (hlength | ⟨hfirst, k, hk, hbefore, hlength⟩)
    · exact ⟨0, hsize, fun j hj => absurd hj (Nat.not_lt_zero j), hzero.symm ▸ hlength⟩
    · refine ⟨k + 1, ?_, fun j hj => ?_, ?_⟩
      · rw [mark_shift]
        omega
      · cases j with
        | zero => exact hfirst
        | succ j => exact (accepted_succ j).mpr (hbefore j (by omega))
      · rwa [mark_shift, ← add_ofNat_add]

theorem not_silentWindow (hsize : ¬ 0 < size) : ¬ SilentWindow code a size returned := by
  rintro ⟨k, hk, -⟩
  omega

end Shift

/-! ### The callbacks of one instruction -/

/-- No callback, one, or the two of a no-operation among the forms of `c.addi`. -/
def Fires (cbs : List Callback) : Prop := cbs = [] ∨ cbs = [.nop, .opImm] ∨ ∃ cb, cbs = [cb]

theorem Fires.single {cb : Callback} : Fires [cb] := .inr (.inr ⟨cb, rfl⟩)

theorem Fires.ite {c : Prop} [Decidable c] {xs ys : List Callback} (hx : Fires xs)
    (hy : Fires ys) : Fires (if c then xs else ys) := by
  split
  · exact hx
  · exact hy

theorem decodeCompressedInstruction_fires (code : BitVec 32) :
    Fires (decodeCompressedInstruction code) := by
  unfold decodeCompressedInstruction
  dsimp only
  repeat' apply Fires.ite
  all_goals first
    | exact Fires.single
    | exact .inr (.inl rfl)

theorem decodeBaseInstruction_fires (code : BitVec 32) : Fires (decodeBaseInstruction code) := by
  unfold decodeBaseInstruction
  dsimp only
  repeat' apply Fires.ite
  all_goals first
    | exact Fires.single
    | exact .inl rfl

theorem decode_fires (code : Mem) (address : Word) : Fires (decode code address).1 := by
  unfold Decoder.decode
  dsimp only
  split
  · exact decodeCompressedInstruction_fires _
  · exact decodeBaseInstruction_fires _

/-! ### One turn -/

section Turn
variable {code : Mem} {a : Word} {r s : RV64Relocator} {cb : Callback} {err : ErrorState}
  {pieces : List Piece}

@[simp] theorem returned_skip : r.skip.returned = r.returned := rfl

@[simp] theorem returned_undefined : r.undefined.returned = r.returned := by
  unfold undefined
  split <;> rfl

theorem compareAndBranch_returned {opcode : BitVec 3} {src1 src2 : Reg} {offset : BitVec 16}
    (h : r.compareAndBranch opcode src1 src2 offset = some s) : s.returned = r.returned := by
  simp only [RV64Relocator.compareAndBranch, makeLabel] at h
  split at h
  · obtain rfl := Option.some.inj h
    exact returned_undefined
  · simp only [Option.bind_eq_bind, Option.bind_eq_some_iff] at h
    obtain ⟨b, -, c, -, h⟩ := h
    obtain rfl := Option.some.inj h
    rfl

theorem consume_returned (h : r.consume cb = some s) :
    s.returned = true ↔ r.returned = true ∨ ∃ n, cb = .jumpAndLinkRegister 0 1 0 n := by
  have hother : s.returned = r.returned → (∀ n, cb ≠ .jumpAndLinkRegister 0 1 0 n) →
      (s.returned = true ↔ r.returned = true ∨ ∃ n, cb = .jumpAndLinkRegister 0 1 0 n) :=
    fun hs hne => by rw [hs, or_iff_left (not_exists.mpr hne)]
  cases cb with
  | jumpAndLinkRegister dst base offset n =>
    have hs : s.returned = (r.returned || (dst = 0 && base = 1 && offset = 0)) :=
      congrArg (·.returned) (Option.some.inj h).symm
    rw [hs]
    simp only [Bool.or_eq_true, Bool.and_eq_true, decide_eq_true_eq,
      Callback.jumpAndLinkRegister.injEq, exists_and_left, exists_eq', and_true, and_assoc]
  | compareAndBranch opcode src1 src2 offset =>
    exact hother (compareAndBranch_returned h) fun _ he => nomatch he
  | undefined =>
    exact hother ((congrArg (·.returned) (Option.some.inj h).symm).trans returned_undefined)
      fun _ he => nomatch he
  | _ => exact hother (congrArg (·.returned) (Option.some.inj h).symm) fun _ he => nomatch he

/-- A branch with a reserved opcode is `Undefined`. -/
theorem compareAndBranch_undefined {opcode : BitVec 3} (hc : branchCond opcode = none)
    (src1 src2 : Reg) (offset : BitVec 16) :
    ∃ b, r.compareAndBranch opcode src1 src2 offset = some (undefined { r with assembler := b }) := by
  have hto : ∀ a label, branchTo a opcode src1 src2 label = none := by
    intro a label
    rw [branchTo_eq, hc]
    rfl
  refine ⟨{ r.assembler with madeLabels := r.assembler.madeLabels + 1 + 1 }, ?_⟩
  unfold RV64Relocator.compareAndBranch
  dsimp only [makeLabel]
  rw [hto]

theorem consume_unserved (hcb : ¬ cb.served) :
    ∃ b, r.consume cb = some (undefined { r with assembler := b }) := by
  cases cb with
  | undefined => exact ⟨r.assembler, rfl⟩
  | compareAndBranch opcode src1 src2 offset =>
    exact compareAndBranch_undefined (not_not.mp hcb) src1 src2 offset
  | _ => exact absurd trivial hcb

theorem consumeError_served (hcb : cb.served) : r.consumeError cb err = err := by
  cases cb with
  | undefined => exact absurd hcb id
  | compareAndBranch opcode src1 src2 offset =>
    obtain ⟨cond, hcond⟩ := Option.ne_none_iff_exists'.mp hcb
    simp [consumeError, branchTo_eq, hcond]
  | _ => rfl

theorem consumeError_unserved (hcb : ¬ cb.served) :
    r.consumeError cb err = r.undefinedError err := by
  cases cb with
  | undefined => rfl
  | compareAndBranch opcode src1 src2 offset =>
    have hc : branchCond opcode = none := not_not.mp hcb
    simp [consumeError, branchTo_eq, hc]
  | _ => exact absurd trivial hcb

theorem decodeError_singleton : decodeError [cb] r err = r.consumeError cb err := by
  unfold decodeError
  dsimp only
  split <;> rfl

theorem accepted_zero {returned : Prop} : Accepted code a returned 0 ↔
    ∃ cb, (Decoder.decode code a).1 = [cb] ∧ (¬ cb.served → returned) := by
  have hzero : a + BitVec.ofNat 64 (mark code a 0).1 = a := BitVec.add_zero a
  unfold Accepted
  rw [hzero]
  simp only [Nat.not_lt_zero, false_and, exists_false, or_false]

/-- What the callbacks leave decides whether the turn ends the relocation. -/
theorem relocateInsn_refused
    (hf : (Decoder.decode code a).1.foldlM consume { r with pc := a } = some s)
    (hstate : s.state ≠ .kSkipped ∧ s.state ≠ .kRelocated) :
    relocateInsn code a r = .error .refused := by
  unfold relocateInsn
  generalize Decoder.decode code a = d at hf
  obtain ⟨callbacks, count⟩ := d
  dsimp only at hf ⊢
  rw [hf]
  dsimp only
  rw [if_neg hstate.1, if_pos hstate.2]

/-- A turn is refused in silence when it does not fire one callback. -/
theorem relocateInsn_silent (hs : r.state = .kNone) (hd : (Decoder.decode code a).1.length ≠ 1) :
    relocateInsn code a r = .error .refused ∧
      ∀ r err, decodeError (Decoder.decode code a).1 r err = err := by
  rcases decode_fires code a with h | h | ⟨cb, h⟩
  · refine ⟨relocateInsn_refused (by rw [h]; rfl) ?_, fun r err => by rw [h]; rfl⟩
    change r.state ≠ _ ∧ r.state ≠ _
    rw [hs]
    exact ⟨nofun, nofun⟩
  · refine ⟨relocateInsn_refused (by rw [h]; rfl) ?_, fun r err => by rw [h]; rfl⟩
    simp [RV64Relocator.skip, setNewState, hs]
  · rw [h] at hd
    exact absurd rfl hd

/-- An instruction is accepted when its callback is served or a `ret` is behind it. -/
theorem relocateInsn_accepted (h : Emitted pieces r.assembler r.addresses) (hs : r.state = .kNone)
    (hd : (Decoder.decode code a).1 = [cb]) (hcb : ¬ cb.served → r.returned = true) :
    (∃ r', relocateInsn code a r = .ok (r', lenAt code a) ∧
      (r'.returned = true ↔ r.returned = true ∨ Returns code a)) ∧
      ∀ err, decodeError (Decoder.decode code a).1 { r with pc := a } err = err := by
  obtain ⟨s, hf, hstate⟩ : ∃ s, consume { r with pc := a } cb = some s ∧
      (s.state = .kSkipped ∨ s.state = .kRelocated) := by
    by_cases hserved : cb.served
    · exact consume_served (r := { r with pc := a }) h hs hserved
    · obtain ⟨b, hb⟩ := consume_unserved (r := { r with pc := a }) hserved
      refine ⟨_, hb, .inl ?_⟩
      unfold undefined
      rw [if_pos (hcb hserved)]
      exact if_pos hs
  have hreturned := consume_returned hf
  rw [← foldlM_consume_singleton, ← hd] at hf
  obtain ⟨r', hr, hreturned'⟩ := relocateInsn_continues hf hstate
  rw [(decode_reports code a).2] at hr
  refine ⟨⟨r', hr, ?_⟩, fun err => ?_⟩
  · unfold Returns
    rw [hreturned', hreturned, hd]
    simp
  · rw [hd, decodeError_singleton]
    by_cases hserved : cb.served
    · exact consumeError_served hserved
    · rw [consumeError_unserved hserved]
      exact if_pos (hcb hserved)

/-- Any other instruction with one callback is reported. -/
theorem relocateInsn_reported (hs : r.state = .kNone) (hd : (Decoder.decode code a).1 = [cb])
    (hcb : ¬ cb.served) (hreturned : r.returned = false) :
    relocateInsn code a r = .error .refused ∧
      ∀ err, decodeError (Decoder.decode code a).1 { r with pc := a } err =
        err.setError "Instruction Relocator" ("Unknown instruction at " ++ formatHex a.toNat) := by
  obtain ⟨b, hb⟩ := consume_unserved (r := { r with pc := a }) hcb
  constructor
  · rw [← foldlM_consume_singleton, ← hd] at hb
    refine relocateInsn_refused hb ?_
    simp [undefined, setNewState, hreturned, hs]
  · intro err
    rw [hd, decodeError_singleton, consumeError_unserved hcb]
    unfold undefinedError
    rw [if_neg (by simp [hreturned])]

end Turn

/-! ### The whole window -/

/-- A relocation goes on to the end, or is refused in silence, or is refused with a message. -/
theorem relocateWindow_errors {code : Mem} {pieces : List Piece} {fuel : ℕ} {size : Int}
    {w : Window} (h : Emitted pieces w.relocator.assembler w.relocator.addresses)
    (hs : w.relocator.state = .kNone) (hfuel : size.toNat ≤ fuel) :
    ((∃ w', relocateWindow code fuel size w = .ok w') ∧
        ¬ SilentWindow code w.address size (w.relocator.returned = true) ∧
        ∀ err, windowError code fuel size w err = err) ∨
      (relocateWindow code fuel size w = .error .refused ∧
        SilentWindow code w.address size (w.relocator.returned = true) ∧
        ∀ err, windowError code fuel size w err = err) ∨
      (relocateWindow code fuel size w = .error .refused ∧
        ¬ SilentWindow code w.address size (w.relocator.returned = true) ∧
        ∃ tag message, ∀ err, windowError code fuel size w err = err.setError tag message) := by
  induction fuel generalizing size w pieces with
  | zero => exact .inl ⟨⟨w, rfl⟩, not_silentWindow (by omega), fun err => rfl⟩
  | succ fuel ih =>
    by_cases hpos : 0 < size
    swap
    · refine .inl ⟨⟨w, if_neg hpos⟩, not_silentWindow hpos, fun err => if_neg hpos⟩
    simp only [relocateWindow, windowError, if_pos hpos]
    rw [silentWindow_iff hpos]
    by_cases hlength : (Decoder.decode code w.address).1.length = 1
    swap
    · obtain ⟨hr, hsilent⟩ := relocateInsn_silent hs hlength
      rw [hr]
      exact .inr (.inl ⟨rfl, .inl hlength, fun err => hsilent _ err⟩)
    obtain ⟨cb, hd⟩ := List.length_eq_one_iff.mp hlength
    by_cases hcb : ¬ cb.served → w.relocator.returned = true
    · -- the turn goes on
      obtain ⟨⟨r', hr, hreturned⟩, herr⟩ := relocateInsn_accepted h hs hd hcb
      obtain ⟨-, hs', x, -, he⟩ := relocateInsn_emitted h hs hr
      have haccepted : Accepted code w.address (w.relocator.returned = true) 0 :=
        accepted_zero.mpr ⟨cb, hd, hcb⟩
      rw [or_iff_right (not_not.mpr hlength), and_iff_right haccepted, ← propext hreturned, hr]
      simp only [herr]
      have hlen := lenAt_cases code w.address
      exact ih (w := ⟨r', w.address + BitVec.ofNat 64 (lenAt code w.address),
        w.overwriteSize + lenAt code w.address⟩) he hs' (by omega)
    · obtain ⟨hunserved, hreturned⟩ := Classical.not_imp.mp hcb
      obtain ⟨hr, hmessage⟩ := relocateInsn_reported hs hd hunserved (Bool.not_eq_true _ ▸ hreturned)
      rw [hr]
      refine .inr (.inr ⟨rfl, ?_, _, _, hmessage⟩)
      rintro (hne | ⟨haccepted, -⟩)
      · exact hne hlength
      · obtain ⟨cb', hd', hserved⟩ := accepted_zero.mp haccepted
        obtain rfl := List.singleton_inj.mp (hd.symm.trans hd')
        exact hcb hserved

section Relocate
variable {heaps : ℕ → Option Word} {code : Mem} {a : Word} {size : Int}

theorem relocate_of_refused
    (h : relocateWindow code size.toNat size { address := a } = .error .refused) :
    relocate heaps code a size = .error .refused := by
  unfold relocate
  rw [h]
  rfl

/-- Behind the window, a relocation is finished or ends in a fault. -/
theorem relocate_not_refused {w : Window}
    (h : relocateWindow code size.toNat size { address := a } = .ok w) :
    relocate heaps code a size ≠ .error .refused := by
  have hbind : ∀ {α β : Type} (o : Option α) (f : α → Except Failure β),
      (∀ v, f v ≠ .error .refused) → (orAbort o >>= f) ≠ .error .refused := by
    intro α β o f hf
    cases o with
    | none => nofun
    | some v => exact hf v
  unfold relocate
  rw [h]
  refine hbind _ _ fun b => hbind _ _ fun c => hbind _ _ fun backup => ?_
  split <;> nofun

/-- `Relocate` reports what it refuses, but not a silent window. -/
theorem relocate_errors :
    (∀ r, relocate heaps code a size = .ok r →
      ¬ SilentWindow code a size False ∧ ∀ err, relocateError code a size err = err) ∧
    (relocate heaps code a size = .error .refused →
      (SilentWindow code a size False ∧ ∀ err, relocateError code a size err = err) ∨
      (¬ SilentWindow code a size False ∧
        ∃ tag message, ∀ err, relocateError code a size err = err.setError tag message)) := by
  have hfalse : (({ address := a } : Window).relocator.returned = true) = False := by simp
  have hwindow := @relocateWindow_errors code [] size.toNat size { address := a } emitted_nil rfl
    (le_refl size.toNat)
  rw [hfalse] at hwindow
  rcases hwindow with ⟨⟨w', hw⟩, hsilent, herr⟩ | ⟨hw, hsilent, herr⟩ | ⟨hw, hsilent, herr⟩
  · refine ⟨fun r _ => ⟨hsilent, herr⟩, fun hr => ?_⟩
    exact absurd hr (relocate_not_refused hw)
  · exact ⟨fun r hr => (nomatch (relocate_of_refused hw).symm.trans hr),
      fun _ => .inl ⟨hsilent, herr⟩⟩
  · exact ⟨fun r hr => (nomatch (relocate_of_refused hw).symm.trans hr),
      fun _ => .inr ⟨hsilent, herr⟩⟩

end Relocate
end Rv64Hook
