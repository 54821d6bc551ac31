import Mathlib

/-! The LP64D calling convention for scalars: what a register holds, and where an argument is
passed. -/
namespace Lp64d

inductive Width where
  | w8 | w16 | w32 | w64
  deriving DecidableEq

def Width.bits : Width → ℕ
  | .w8 => 8
  | .w16 => 16
  | .w32 => 32
  | .w64 => 64

/-- A scalar that fits into a register. -/
inductive Scalar where
  | int (signed : Bool) (width : Width)
  | pointer
  | float
  | double
  deriving DecidableEq

namespace Scalar

def bits : Scalar → ℕ
  | .int _ width => width.bits
  | .pointer => 64
  | .float => 32
  | .double => 64

/-- It is passed in a floating-point register while there is one. -/
def isFloat : Scalar → Bool
  | .float | .double => true
  | _ => false

theorem bits_le (t : Scalar) : t.bits ≤ 64 := by
  rcases t with ⟨_, w⟩ | _ | _ | _
  · change w.bits ≤ 64
    cases w <;> decide
  all_goals decide

end Scalar

/-- The register that holds a scalar: integers are extended to 32 bits by their own signedness and
from there by the sign, floats are boxed. -/
def canonical : (t : Scalar) → BitVec t.bits → BitVec 64
  | .int true .w8, v => (BitVec.signExtend 32 v).signExtend 64
  | .int false .w8, v => (BitVec.setWidth 32 v).signExtend 64
  | .int true .w16, v => (BitVec.signExtend 32 v).signExtend 64
  | .int false .w16, v => (BitVec.setWidth 32 v).signExtend 64
  | .int _ .w32, v => BitVec.signExtend 64 v
  | .int _ .w64, v => v
  | .pointer, v => v
  | .float, v => 0xffffffff#32 ++ (v : BitVec 32)
  | .double, v => v

/-! ### Arguments -/

/-- The type of an argument; wide ones have 128 bits. -/
inductive ArgType where
  | scalar (t : Scalar)
  | wide
  deriving DecidableEq

def ArgType.bits : ArgType → ℕ
  | .scalar t => t.bits
  | .wide => 128

/-- Where an argument is passed: in an integer or a floating-point register, on the stack at an
offset, in a pair of integer registers, or in the last one and on the stack. -/
inductive Location where
  | gpr (i : ℕ)
  | fpr (i : ℕ)
  | stack (offset : ℕ)
  | pair (i : ℕ)
  | split (offset : ℕ)
  deriving DecidableEq

namespace Location

def isFpr : Location → Bool
  | .fpr _ => true
  | _ => false

def isStack : Location → Bool
  | .stack _ => true
  | _ => false

def isPair : Location → Bool
  | .pair _ => true
  | _ => false

/-- The integer registers of a location. -/
def UsesX : Location → ℕ → Prop
  | .gpr i, j => j = i
  | .pair i, j => j = i ∨ j = i + 1
  | .split _, j => j = 7
  | _, _ => False

/-- The floating-point registers of a location. -/
def UsesF : Location → ℕ → Prop
  | .fpr i, j => j = i
  | _, _ => False

/-- The bytes of the stack of a location, for eight bytes. -/
def UsesStack : Location → ℕ → Prop
  | .stack o, b | .split o, b => o ≤ b ∧ b < o + 8
  | _, _ => False

end Location

/-- The registers and the bytes of the stack that are taken. -/
structure Cursor where
  x : ℕ := 0
  f : ℕ := 0
  stack : ℕ := 0

def alignUp16 (n : ℕ) : ℕ := (n + 15) / 16 * 16

def assign (c : Cursor) : ArgType → Location × Cursor
  | .scalar t =>
    if t.isFloat = true ∧ c.f < 8 then (.fpr c.f, { c with f := c.f + 1 })
    else if c.x < 8 then (.gpr c.x, { c with x := c.x + 1 })
    else (.stack c.stack, { c with stack := c.stack + 8 })
  | .wide =>
    if c.x < 7 then (.pair c.x, { c with x := c.x + 2 })
    else if c.x = 7 then (.split c.stack, { c with x := 8, stack := c.stack + 8 })
    else (.stack (alignUp16 c.stack), { c with stack := alignUp16 c.stack + 16 })

/-- The locations of the named arguments of a call. -/
def locations : Cursor → List ArgType → List Location
  | _, [] => []
  | c, t :: ts => (assign c t).1 :: locations (assign c t).2 ts

/-- The cursor behind some arguments. -/
def Cursor.after : Cursor → List ArgType → Cursor
  | c, [] => c
  | c, t :: ts => (assign c t).2.after ts

theorem length_locations (c : Cursor) (ts : List ArgType) :
    (locations c ts).length = ts.length := by
  induction ts generalizing c with
  | nil => rfl
  | cons t ts ih => exact congrArg (· + 1) (ih _)

theorem locations_append (c : Cursor) (ts us : List ArgType) :
    locations c (ts ++ us) = locations c ts ++ locations (c.after ts) us := by
  induction ts generalizing c with
  | nil => rfl
  | cons t ts ih => exact congrArg (_ :: ·) (ih _)

theorem cursor_after_append (c : Cursor) (ts us : List ArgType) :
    c.after (ts ++ us) = (c.after ts).after us := by
  induction ts generalizing c with
  | nil => rfl
  | cons t ts ih => exact ih _

/-! ### Arguments do not overlap -/

/-- The location takes what is free at the cursor. -/
def Location.From (c : Cursor) : Location → Prop
  | .gpr i => c.x ≤ i
  | .fpr i => c.f ≤ i
  | .stack o => c.stack ≤ o
  | .pair i => c.x ≤ i
  | .split o => c.x ≤ 7 ∧ c.stack ≤ o

/-- The location is taken at the cursor. -/
def Location.Before (c : Cursor) : Location → Prop
  | .gpr i => i < c.x
  | .fpr i => i < c.f
  | .stack o => o + 8 ≤ c.stack
  | .pair i => i + 1 < c.x
  | .split o => 7 < c.x ∧ o + 8 ≤ c.stack

/-- One cursor is further than the other. -/
structure Cursor.Le (c d : Cursor) : Prop where
  x : c.x ≤ d.x
  f : c.f ≤ d.f
  stack : c.stack ≤ d.stack

section Overlap
variable {c d e : Cursor} {t : ArgType} {ts us : List ArgType} {l : Location}

theorem Cursor.Le.refl (c : Cursor) : c.Le c := ⟨le_rfl, le_rfl, le_rfl⟩

theorem Cursor.Le.trans (h : c.Le d) (h' : d.Le e) : c.Le e :=
  ⟨h.x.trans h'.x, h.f.trans h'.f, h.stack.trans h'.stack⟩

theorem Location.From.mono (h : l.From d) (hle : c.Le d) : l.From c := by
  obtain ⟨hx, hf, hstack⟩ := hle
  cases l with
  | split o => exact ⟨hx.trans h.1, hstack.trans h.2⟩
  | gpr i | pair i => exact hx.trans h
  | fpr i => exact hf.trans h
  | stack o => exact hstack.trans h

theorem Location.Before.mono (h : l.Before c) (hle : c.Le d) : l.Before d := by
  obtain ⟨hx, hf, hstack⟩ := hle
  cases l with
  | split o => exact ⟨h.1.trans_le hx, h.2.trans hstack⟩
  | gpr i | pair i => exact h.trans_le hx
  | fpr i => exact h.trans_le hf
  | stack o => exact h.trans hstack

theorem le_alignUp16 (n : ℕ) : n ≤ alignUp16 n ∧ alignUp16 n < n + 16 := by
  unfold alignUp16
  omega

/-- A location is free before it is assigned, and taken behind. -/
theorem assign_spec (c : Cursor) (t : ArgType) :
    (assign c t).1.From c ∧ (assign c t).1.Before (assign c t).2 ∧ c.Le (assign c t).2 := by
  obtain ⟨halign, -⟩ := le_alignUp16 c.stack
  unfold assign
  cases t with
  | scalar t =>
    dsimp only
    split_ifs
    · exact ⟨le_rfl, Nat.lt_succ_self _, ⟨le_rfl, Nat.le_succ _, le_rfl⟩⟩
    · exact ⟨le_rfl, Nat.lt_succ_self _, ⟨Nat.le_succ _, le_rfl, le_rfl⟩⟩
    · exact ⟨le_rfl, le_rfl, ⟨le_rfl, le_rfl, Nat.le_add_right _ _⟩⟩
  | wide =>
    dsimp only
    split_ifs with h7 heq
    · exact ⟨le_rfl, Nat.lt_succ_self _, ⟨Nat.le_add_right _ _, le_rfl, le_rfl⟩⟩
    · have hle : c.x ≤ 8 := by omega
      exact ⟨⟨heq.le, le_rfl⟩, ⟨Nat.lt_succ_self 7, le_rfl⟩, ⟨hle, le_rfl, Nat.le_add_right _ _⟩⟩
    · refine ⟨halign, ?_, ⟨le_rfl, le_rfl, ?_⟩⟩
      · change alignUp16 c.stack + 8 ≤ alignUp16 c.stack + 16
        omega
      · exact halign.trans (Nat.le_add_right _ _)

/-- There are eight registers of each kind. -/
theorem assign_uses_lt {j : ℕ} (h : (assign c t).1.UsesX j ∨ (assign c t).1.UsesF j) : j < 8 := by
  unfold assign at h
  cases t with
  | scalar t =>
    dsimp only at h
    split_ifs at h with h1 h2
    · obtain h | rfl := h
      · exact h.elim
      · exact h1.2
    · obtain rfl | h := h
      · exact h2
      · exact h.elim
    · exact h.elim False.elim False.elim
  | wide =>
    dsimp only at h
    split_ifs at h with h1 h2
    · obtain (rfl | rfl) | h := h
      · omega
      · omega
      · exact h.elim
    · obtain rfl | h := h
      · decide
      · exact h.elim
    · exact h.elim False.elim False.elim

theorem le_after (c : Cursor) (ts : List ArgType) : c.Le (c.after ts) := by
  induction ts generalizing c with
  | nil => exact .refl c
  | cons t ts ih => exact (assign_spec c t).2.2.trans (ih _)

theorem from_of_mem (hl : l ∈ locations c ts) : l.From c := by
  induction ts generalizing c with
  | nil => cases hl
  | cons t ts ih =>
    obtain ⟨hfrom, -, hle⟩ := assign_spec c t
    rcases List.mem_cons.mp hl with rfl | hl
    · exact hfrom
    · exact (ih hl).mono hle

theorem before_of_mem (hl : l ∈ locations c ts) : l.Before (c.after ts) := by
  induction ts generalizing c with
  | nil => cases hl
  | cons t ts ih =>
    obtain ⟨-, hbefore, -⟩ := assign_spec c t
    rcases List.mem_cons.mp hl with rfl | hl
    · exact hbefore.mono (le_after _ ts)
    · exact ih hl

theorem uses_lt_of_mem {j : ℕ} (hl : l ∈ locations c ts) (h : l.UsesX j ∨ l.UsesF j) : j < 8 := by
  induction ts generalizing c with
  | nil => cases hl
  | cons t ts ih =>
    rcases List.mem_cons.mp hl with rfl | hl
    · exact assign_uses_lt h
    · exact ih hl

/-- What is taken at a cursor and what is free there have nothing in common. -/
theorem Location.Before.disjoint {k : Location} (h : l.Before c) (hk : k.From c) :
    (∀ j, l.UsesX j → ¬ k.UsesX j) ∧ (∀ j, l.UsesF j → ¬ k.UsesF j) ∧
      ∀ b, l.UsesStack b → ¬ k.UsesStack b := by
  cases l <;> cases k <;>
    simp only [Location.Before, Location.From, Location.UsesX, Location.UsesF,
      Location.UsesStack] at h hk ⊢ <;>
    refine ⟨fun j h1 h2 => ?_, fun j h1 h2 => ?_, fun b h1 h2 => ?_⟩ <;> omega

end Overlap

/-! ### Integers that are canonical as they are -/

theorem signExtend_setWidth_of_lt {w : ℕ} (v : BitVec w) (h : w < 32) :
    (v.setWidth 32).signExtend 64 = v.setWidth 64 := by
  have hmsb : (v.setWidth 32).msb = false := by
    rw [BitVec.msb_setWidth, Nat.sub_eq_of_eq_add (show 32 = 31 + 1 from rfl)]
    exact BitVec.getLsbD_of_ge v 31 (by omega)
  rw [BitVec.signExtend_eq_setWidth_of_msb_false hmsb]
  exact BitVec.setWidth_setWidth (by omega)

/-- A word is extended by zeros and by its sign to the same only without a sign. -/
theorem setWidth_eq_signExtend_iff (v : BitVec 32) :
    v.setWidth 64 = v.signExtend 64 ↔ v.msb = false := by
  constructor
  · intro h
    have hbit := congrArg (·.getLsbD 32) h
    simp only [BitVec.getLsbD_setWidth, BitVec.getLsbD_signExtend] at hbit
    simpa using hbit.symm
  · intro h
    exact (BitVec.signExtend_eq_setWidth_of_msb_false h).symm

end Lp64d
