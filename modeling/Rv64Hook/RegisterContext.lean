import Rv64Hook.Lib.ByteMem
import Rv64Hook.Lib.Rv64
import Rv64Hook.Lib.Lp64d

/-! The registers that handlers see, and the accessors of arguments and of the return value. -/
namespace Rv64Hook
open ByteMem Rv64 Lp64d

/-- A slot for each of the registers. A `freg_t` has the bits of a float in its low half. -/
structure RegisterContext where
  x : Reg → Word
  f : Reg → Word
  returnEarly : Bool

/-- The context of a handler, and the memory that the stack of the function is in. -/
structure HandlerState where
  ctx : RegisterContext
  stack : Mem

/-- The argument registers `a0` to `a7`, and `fa0` to `fa7`, which have the same numbers. -/
def argReg (n : ℕ) : Reg := BitVec.ofNat 5 (10 + n)

/-- `force_cast<reg_t>` of an integer or a pointer. -/
def forceCastReg (t : Scalar) (v : BitVec t.bits) : Word :=
  match t with
  | .int true _ => v.signExtend 64
  | _ => v.setWidth 64

/-- `get_reg` -/
def getReg (t : Scalar) (r fr : Word) : BitVec t.bits :=
  match t with
  | .float => fr.setWidth 32
  | .double => fr
  | t => r.setWidth t.bits

/-- `set_reg`, on the two registers. The union keeps the bytes that a float does not cover. -/
def setReg (t : Scalar) (r fr : Word) (v : BitVec t.bits) : Word × Word :=
  match t, v with
  | .float, v => (r, fr.extractLsb' 32 32 ++ (v : BitVec 32))
  | .double, v => (r, v)
  | t, v => (forceCastReg t v, fr)

namespace HandlerState

/-- `sp` in the context. -/
def sp (s : HandlerState) : Word := s.ctx.x 2

/-- `GetArg<N, T>` -/
def getArg (s : HandlerState) (n : ℕ) (t : Scalar) : BitVec t.bits :=
  if n ≤ 7 then getReg t (s.ctx.x (argReg n)) (s.ctx.f (argReg n))
  else (load 64 s.stack (s.sp + BitVec.ofNat 64 (8 * (n - 8)))).setWidth t.bits

/-- `SetArg<N, T>` -/
def setArg (s : HandlerState) (n : ℕ) (t : Scalar) (v : BitVec t.bits) : HandlerState :=
  if n ≤ 7 then
    let (r, fr) := setReg t (s.ctx.x (argReg n)) (s.ctx.f (argReg n)) v
    let ctx := { s.ctx with
      x := Function.update s.ctx.x (argReg n) r
      f := Function.update s.ctx.f (argReg n) fr }
    { s with ctx := ctx }
  else
    { s with
      stack :=
        store s.stack (s.sp + BitVec.ofNat 64 (8 * (n - 8))) (toBytes 8 (forceCastReg t v)) }

/-- `GetReturnValue` -/
def getReturnValue (s : HandlerState) (t : Scalar) : BitVec t.bits := s.getArg 0 t

/-- `ReturnVoid` -/
def returnVoid (s : HandlerState) : HandlerState :=
  { s with ctx := { s.ctx with returnEarly := true } }

/-- `ReturnValue` -/
def returnValue (s : HandlerState) (t : Scalar) (v : BitVec t.bits) : HandlerState :=
  (s.setArg 0 t v).returnVoid

end HandlerState

/-! ### What the registers hold -/

/-- A register that the trampoline restores. -/
inductive SavedReg where
  | x (r : Reg)
  | f (r : Reg)
  deriving DecidableEq

/-- The whole slot is loaded into the register. -/
def RegisterContext.slot (c : RegisterContext) : SavedReg → Word
  | .x r => c.x r
  | .f r => c.f r

/-- The register of an argument of this type. -/
def argSlot (n : ℕ) (t : Scalar) : SavedReg :=
  if t.isFloat then .f (argReg n) else .x (argReg n)

/-- The register of the argument has the value as the convention has it, no other register changes,
and the argument reads back. -/
structure SetsArg (s s' : HandlerState) (n : ℕ) (t : Scalar) (v : BitVec t.bits) : Prop where
  register : s'.ctx.slot (argSlot n t) = canonical t v
  others : ∀ r, r ≠ argSlot n t → s'.ctx.slot r = s.ctx.slot r
  value : s'.getArg n t = v

/-- A float goes to a slot that is boxed already, and an unsigned word has no bit for the sign. -/
def KeepsCanonical (s : HandlerState) (n : ℕ) (t : Scalar) (v : BitVec t.bits) : Prop :=
  (t = .float → (s.ctx.f (argReg n)).extractLsb' 32 32 = 0xffffffff#32) ∧
    (t = .int false .w32 → (v.setWidth 32).msb = false)

section Accessors
variable (s : HandlerState) {n : ℕ} {t : Scalar}

/-- `force_cast` is canonical, but for unsigned words. -/
theorem forceCastReg_canonical (hfloat : t ≠ .float) (v : BitVec t.bits) :
    forceCastReg t v = canonical t v ↔ (t = .int false .w32 → (v.setWidth 32).msb = false) := by
  have hsign : ∀ {w : ℕ} (u : BitVec w), w ≤ 32 →
      u.signExtend 64 = (u.signExtend 32).signExtend 64 := fun u hw => by
    change BitVec.ofInt 64 u.toInt = BitVec.ofInt 64 (u.signExtend 32).toInt
    rw [BitVec.toInt_signExtend_of_le hw]
  rcases t with ⟨signed, width⟩ | _ | _ | _
  · rcases signed with _ | _ <;> rcases width with _ | _ | _ | _
    · exact iff_of_true (signExtend_setWidth_of_lt v (by decide)).symm nofun
    · exact iff_of_true (signExtend_setWidth_of_lt v (by decide)).symm nofun
    · refine (setWidth_eq_signExtend_iff v).trans ⟨fun h _ => ?_, fun h => ?_⟩
      · rwa [show (v.setWidth 32) = v from BitVec.setWidth_eq v]
      · have hm := h rfl
        rwa [show (v.setWidth 32) = v from BitVec.setWidth_eq v] at hm
    · exact iff_of_true (BitVec.setWidth_eq v) nofun
    · exact iff_of_true (hsign v (by decide)) nofun
    · exact iff_of_true (hsign v (by decide)) nofun
    · exact iff_of_true rfl nofun
    · exact iff_of_true (BitVec.signExtend_eq v) nofun
  · exact iff_of_true (BitVec.setWidth_eq v) nofun
  · exact absurd rfl hfloat
  · exact iff_of_true (BitVec.setWidth_eq v) nofun

theorem setWidth_forceCastReg (v : BitVec t.bits) : (forceCastReg t v).setWidth t.bits = v := by
  have hle := t.bits_le
  have hzero : (v.setWidth 64).setWidth t.bits = v := by
    rw [BitVec.setWidth_setWidth (by omega), BitVec.setWidth_eq]
  have hsign : (v.signExtend 64).setWidth t.bits = v := by
    apply BitVec.eq_of_getLsbD_eq
    intro i hi
    have h64 : i < 64 := by omega
    rw [BitVec.getLsbD_setWidth, BitVec.getLsbD_signExtend, if_pos hi]
    simp only [hi, h64, decide_true, Bool.true_and]
  rcases t with ⟨_ | _, width⟩ | _ | _ | _
  · exact hzero
  · exact hsign
  all_goals exact hzero

theorem getReg_setReg (r fr : Word) (v : BitVec t.bits) :
    getReg t (setReg t r fr v).1 (setReg t r fr v).2 = v := by
  rcases t with ⟨signed, width⟩ | _ | _ | _
  · exact setWidth_forceCastReg v
  · exact setWidth_forceCastReg v
  · have hlow : ∀ (u : BitVec 32), (fr.extractLsb' 32 32 ++ u).setWidth 32 = u := fun u =>
      BitVec.setWidth_append_eq_right
    exact hlow v
  · rfl

theorem float_canonical_iff (fr : Word) (v : BitVec 32) :
    fr.extractLsb' 32 32 ++ v = 0xffffffff#32 ++ v ↔ fr.extractLsb' 32 32 = 0xffffffff#32 := by
  refine ⟨fun h => ?_, fun h => by rw [h]⟩
  have hhigh := congrArg (·.extractLsb' 32 32) h
  simpa only [BitVec.extractLsb'_append_eq_left] using hhigh

/-- What `SetArg` does to the registers. -/
theorem setArg_slot (hn : n ≤ 7) (v : BitVec t.bits) (r : SavedReg) :
    (s.setArg n t v).ctx.slot r =
      if r = argSlot n t then
        if t.isFloat then (setReg t (s.ctx.x (argReg n)) (s.ctx.f (argReg n)) v).2
        else (setReg t (s.ctx.x (argReg n)) (s.ctx.f (argReg n)) v).1
      else s.ctx.slot r := by
  unfold HandlerState.setArg argSlot
  rw [if_pos hn]
  have hx : t.isFloat = true →
      (setReg t (s.ctx.x (argReg n)) (s.ctx.f (argReg n)) v).1 = s.ctx.x (argReg n) := by
    rcases t with ⟨_, _⟩ | _ | _ | _
    · exact nofun
    · exact nofun
    · exact fun _ => rfl
    · exact fun _ => rfl
  have hf : t.isFloat = false →
      (setReg t (s.ctx.x (argReg n)) (s.ctx.f (argReg n)) v).2 = s.ctx.f (argReg n) := by
    rcases t with ⟨_, _⟩ | _ | _ | _
    · exact fun _ => rfl
    · exact fun _ => rfl
    · exact nofun
    · exact nofun
  cases hfloat : t.isFloat with
  | true =>
    simp only [if_true]
    cases r with
    | x q =>
      rw [if_neg nofun]
      change Function.update s.ctx.x (argReg n) _ q = s.ctx.x q
      rw [hx hfloat, Function.update_eq_self]
    | f q =>
      change Function.update s.ctx.f (argReg n) _ q = _
      simp only [Function.update_apply, SavedReg.f.injEq]
      rfl
  | false =>
    simp only [Bool.false_eq_true, if_false]
    cases r with
    | x q =>
      change Function.update s.ctx.x (argReg n) _ q = _
      simp only [Function.update_apply, SavedReg.x.injEq]
      rfl
    | f q =>
      rw [if_neg nofun]
      change Function.update s.ctx.f (argReg n) _ q = s.ctx.f q
      rw [hf hfloat, Function.update_eq_self]

theorem setArg_getArg (hn : n ≤ 7) (v : BitVec t.bits) : (s.setArg n t v).getArg n t = v := by
  unfold HandlerState.getArg HandlerState.setArg
  rw [if_pos hn, if_pos hn]
  dsimp only
  rw [Function.update_self, Function.update_self]
  exact getReg_setReg _ _ v

theorem setsArg_iff (hn : n ≤ 7) (v : BitVec t.bits) :
    SetsArg s (s.setArg n t v) n t v ↔ KeepsCanonical s n t v := by
  have hslot := setArg_slot s hn v (argSlot n t)
  rw [if_pos rfl] at hslot
  have hiff : (s.setArg n t v).ctx.slot (argSlot n t) = canonical t v ↔ KeepsCanonical s n t v := by
    rw [hslot]
    unfold KeepsCanonical
    rcases t with ⟨signed, width⟩ | _ | _ | _
    · rw [and_iff_right (a := Scalar.int signed width = .float → _) nofun]
      exact forceCastReg_canonical (t := .int signed width) nofun v
    · rw [and_iff_right (a := Scalar.pointer = .float → _) nofun]
      exact forceCastReg_canonical (t := .pointer) nofun v
    · rw [and_iff_left (b := Scalar.float = .int false .w32 → _) nofun]
      exact (float_canonical_iff _ v).trans ⟨fun h _ => h, fun h => h rfl⟩
    · exact iff_of_true rfl ⟨nofun, nofun⟩
  refine ⟨fun h => hiff.mp h.register, fun h => ⟨hiff.mpr h, fun r hr => ?_, setArg_getArg s hn v⟩⟩
  rw [setArg_slot s hn v r, if_neg hr]

end Accessors

/-- `SetArg`, and `ReturnValue` for the first argument, leave the register as the convention has it
exactly when a float goes to a slot that is boxed already, and an unsigned word has no bit for the
sign. -/
theorem setArg_canonical_iff (s : HandlerState) (n : ℕ) (hn : n ≤ 7) (t : Scalar)
    (v : BitVec t.bits) :
    (SetsArg s (s.setArg n t v) n t v ↔ KeepsCanonical s n t v) ∧
      (SetsArg s (s.returnValue t v) 0 t v ↔ KeepsCanonical s 0 t v) := by
  refine ⟨setsArg_iff s hn v, Iff.trans ?_ (setsArg_iff s (Nat.zero_le 7) v)⟩
  -- the flag is no register
  have hslot : ∀ r, (s.returnValue t v).ctx.slot r = (s.setArg 0 t v).ctx.slot r := by
    rintro (r | r) <;> rfl
  constructor
  · rintro ⟨hr, ho, hv⟩
    exact ⟨hslot _ ▸ hr, fun r h => hslot r ▸ ho r h, hv⟩
  · rintro ⟨hr, ho, hv⟩
    exact ⟨(hslot _).trans hr, fun r h => (hslot r).trans (ho r h), hv⟩

/-- Registers that hold zero. -/
def zeroState : HandlerState := ⟨⟨fun _ => 0, fun _ => 0, false⟩, fun _ => 0⟩

theorem setArg_canonical_iff_sample :
    SetsArg zeroState (zeroState.setArg 1 (.int true .w32) (-1)) 1 (.int true .w32) (-1) :=
  (setArg_canonical_iff zeroState 1 (by decide) (.int true .w32) (-1)).1.mpr ⟨nofun, nofun⟩

/-- The float one is returned as no number, and the largest word is not extended by its sign. -/
theorem setArg_not_canonical :
    (zeroState.returnValue .float 0x3f800000#32).ctx.slot (argSlot 0 .float) = 0x3f800000#64 ∧
      ¬ SetsArg zeroState (zeroState.returnValue .float 0x3f800000#32) 0 .float 0x3f800000#32 ∧
      ¬ SetsArg zeroState (zeroState.setArg 0 (.int false .w32) 0xffffffff#32) 0 (.int false .w32)
        0xffffffff#32 := by
  refine ⟨rfl, fun h => ?_, fun h => ?_⟩
  · exact absurd h.register (by decide)
  · exact absurd h.register (by decide)

end Rv64Hook
