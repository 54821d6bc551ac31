import Rv64Hook.Relocator

/-! What the relocator emits: one piece for each instruction of the window, a piece that jumps to
the address behind the window, and the pool of absolute addresses. -/
namespace Rv64Hook
open ByteMem Rv64 Berberis Berberis.Assembler

/-- The opcode word of a branch. -/
def branchWord : BranchCond → BitVec 32
  | .beq => 0x00000063
  | .bne => 0x00001063
  | .blt => 0x00004063
  | .bge => 0x00005063
  | .bltu => 0x00006063
  | .bgeu => 0x00007063

/-- The code for one instruction of the window. The number of a branch is that of its first
label. -/
inductive Piece where
  | copy (bytes : List Byte)
  | load (rd : Reg) (key : Word)
  | branch (n : ℕ) (cond : BranchCond) (rs1 rs2 : Reg) (target : Word)
  | link (rd : Reg) (target : Word)

/-- The `auipc` and `ld` that load a register through a label at this offset. -/
def ldBytes (rd : Reg) (offset : BitVec 32) : List Byte :=
  toBytes 4 (uType 0x00000017 rd (topPart offset)) ++
    toBytes 4 (iType 0x00003003 rd rd (bottomPart offset <<< 20))

def jalrBytes (rd rs1 : Reg) : List Byte := toBytes 4 (iType 0x00000067 rd rs1 0)

/-- The branch over the `jal`, and the `jal` over the long jump. -/
def skipBytes (cond : BranchCond) (rs1 rs2 : Reg) : List Byte :=
  toBytes 4 (bType (branchWord cond) rs1 rs2 0x400) ++ toBytes 4 0x0100006f#32

namespace Piece

/-- The bytes before the jumps are resolved. -/
def raw : Piece → List Byte
  | .copy bytes => bytes
  | .load rd _ => ldBytes rd 0
  | .branch _ cond rs1 rs2 _ =>
    toBytes 4 (bType (branchWord cond) rs1 rs2 0) ++ toBytes 4 0x0000006f#32 ++ ldBytes t3 0 ++
      jalrBytes 0 t3
  | .link rd _ => ldBytes t3 0 ++ jalrBytes rd t3

def size (x : Piece) : ℕ := x.raw.length

/-- The bytes of a piece at offset `p`, its jumps resolved. -/
def code (position : Label → BitVec 32) (p : ℕ) : Piece → List Byte
  | .copy bytes => bytes
  | .load rd key => ldBytes rd (position (.address key) - BitVec.ofNat 32 p)
  | .branch _ cond rs1 rs2 target =>
    skipBytes cond rs1 rs2 ++
      (ldBytes t3 (position (.address target) - BitVec.ofNat 32 (p + 8)) ++ jalrBytes 0 t3)
  | .link rd target =>
    ldBytes t3 (position (.address target) - BitVec.ofNat 32 p) ++ jalrBytes rd t3

def jumps (p : ℕ) : Piece → List Jump
  | .copy _ => []
  | .load _ key => [⟨.address key, BitVec.ofNat 32 p⟩]
  | .branch n _ _ _ target =>
    [⟨.made (n + 1), BitVec.ofNat 32 p⟩, ⟨.made n, BitVec.ofNat 32 (p + 4)⟩,
      ⟨.address target, BitVec.ofNat 32 (p + 8)⟩]
  | .link _ target => [⟨.address target, BitVec.ofNat 32 p⟩]

def keys : Piece → List Word
  | .copy _ => []
  | .load _ key => [key]
  | .branch _ _ _ _ target => [target]
  | .link _ target => [target]

/-- The labels of a branch at offset `p` are made and bound where they belong. -/
def Bound (a : Assembler) (p : ℕ) : Piece → Prop
  | .branch n _ _ _ _ => n + 1 < a.madeLabels ∧
      a.position (.made (n + 1)) = BitVec.ofNat 32 (p + 8) ∧
      a.position (.made n) = BitVec.ofNat 32 (p + 20)
  | _ => True

end Piece

/-- The same for a list of pieces from offset `p` on. -/
def codeOf (position : Label → BitVec 32) : ℕ → List Piece → List Byte
  | _, [] => []
  | p, x :: xs => x.code position p ++ codeOf position (p + x.size) xs

def jumpsOf : ℕ → List Piece → List Jump
  | _, [] => []
  | p, x :: xs => x.jumps p ++ jumpsOf (p + x.size) xs

def AllBound (a : Assembler) : ℕ → List Piece → Prop
  | _, [] => True
  | p, x :: xs => x.Bound a p ∧ AllBound a (p + x.size) xs

def rawOf (xs : List Piece) : List Byte := xs.flatMap Piece.raw

@[simp] theorem length_ldBytes (rd : Reg) (offset : BitVec 32) :
    (ldBytes rd offset).length = 8 := by
  simp [ldBytes]

@[simp] theorem length_jalrBytes (rd rs1 : Reg) : (jalrBytes rd rs1).length = 4 := by
  simp [jalrBytes]

@[simp] theorem length_skipBytes (cond : BranchCond) (rs1 rs2 : Reg) :
    (skipBytes cond rs1 rs2).length = 8 := by
  simp [skipBytes]

theorem Piece.length_code (position : Label → BitVec 32) (p : ℕ) (x : Piece) :
    (x.code position p).length = x.size := by
  cases x <;> simp [Piece.code, Piece.size, Piece.raw]

theorem length_codeOf (position : Label → BitVec 32) (p : ℕ) (xs : List Piece) :
    (codeOf position p xs).length = (rawOf xs).length := by
  induction xs generalizing p with
  | nil => rfl
  | cons x xs ih =>
    rw [codeOf, rawOf, List.flatMap_cons, List.length_append, List.length_append, ih,
      x.length_code]
    rfl

/-! ### Appending a piece -/

theorem rawOf_append (xs ys : List Piece) : rawOf (xs ++ ys) = rawOf xs ++ rawOf ys :=
  List.flatMap_append

@[simp] theorem rawOf_singleton (x : Piece) : rawOf [x] = x.raw := by
  simp [rawOf]

theorem codeOf_append (position : Label → BitVec 32) (p : ℕ) (xs ys : List Piece) :
    codeOf position p (xs ++ ys) =
      codeOf position p xs ++ codeOf position (p + (rawOf xs).length) ys := by
  induction xs generalizing p with
  | nil => rfl
  | cons x xs ih =>
    have hp : p + x.size + (rawOf xs).length = p + (rawOf (x :: xs)).length := by
      simp [rawOf, Piece.size, Nat.add_assoc]
    rw [List.cons_append, codeOf, codeOf, ih, hp, List.append_assoc]

theorem jumpsOf_append (p : ℕ) (xs ys : List Piece) :
    jumpsOf p (xs ++ ys) = jumpsOf p xs ++ jumpsOf (p + (rawOf xs).length) ys := by
  induction xs generalizing p with
  | nil => rfl
  | cons x xs ih =>
    have hp : p + x.size + (rawOf xs).length = p + (rawOf (x :: xs)).length := by
      simp [rawOf, Piece.size, Nat.add_assoc]
    rw [List.cons_append, jumpsOf, jumpsOf, ih, hp, List.append_assoc]

theorem allBound_append (a : Assembler) (p : ℕ) (xs ys : List Piece) :
    AllBound a p (xs ++ ys) ↔ AllBound a p xs ∧ AllBound a (p + (rawOf xs).length) ys := by
  induction xs generalizing p with
  | nil => simp [AllBound, rawOf]
  | cons x xs ih =>
    have hp : p + x.size + (rawOf xs).length = p + (rawOf (x :: xs)).length := by
      simp [rawOf, Piece.size, Nat.add_assoc]
    rw [List.cons_append, AllBound, AllBound, ih, hp, and_assoc]

/-- Labels stay where they are bound. -/
structure Keeps (a b : Assembler) : Prop where
  made : a.madeLabels ≤ b.madeLabels
  position : ∀ n < a.madeLabels, b.position (.made n) = a.position (.made n)

theorem Piece.Bound.keeps {a b : Assembler} {p : ℕ} {x : Piece} (h : x.Bound a p)
    (hk : Keeps a b) : x.Bound b p := by
  cases x with
  | branch n cond rs1 rs2 target =>
    obtain ⟨hn, h1, h2⟩ := h
    refine ⟨hn.trans_le hk.made, ?_, ?_⟩
    · rw [hk.position _ hn, h1]
    · rw [hk.position n (by omega), h2]
  | copy | load | link => trivial

theorem AllBound.keeps {a b : Assembler} {p : ℕ} {xs : List Piece} (h : AllBound a p xs)
    (hk : Keeps a b) : AllBound b p xs := by
  induction xs generalizing p with
  | nil => trivial
  | cons x xs ih => exact ⟨h.1.keeps hk, ih h.2⟩

/-! ### Resolving the jumps of a piece -/

section Resolve
variable {position : Label → BitVec 32} {pre : List Byte} {p : ℕ}

theorem toNat_ofNat_of_lt (h : p < 2 ^ 32) : (BitVec.ofNat 32 p).toNat = p := by
  rw [BitVec.toNat_ofNat, Nat.mod_eq_of_lt h]

theorem ofNat_ne_kInvalid (h : p < 2 ^ 32 - 1) : BitVec.ofNat 32 p ≠ kInvalid := by
  intro he
  have := congrArg BitVec.toNat he
  rw [toNat_ofNat_of_lt (by omega)] at this
  have hk : kInvalid.toNat = 2 ^ 32 - 1 := rfl
  omega

theorem ofNat_add_sub (k p : ℕ) :
    BitVec.ofNat 32 (p + k) - BitVec.ofNat 32 p = BitVec.ofNat 32 k := by
  rw [← BitVec.ofNat_add_ofNat, BitVec.add_comm, BitVec.add_sub_cancel]

theorem or_zero_word (v : BitVec 32) : v ||| (0 : BitVec 32) = v := BitVec.or_zero

theorem resolveJump_ld (rd : Reg) (post : List Byte) {label : Label} (hp : pre.length = p)
    (hlt : p < 2 ^ 32)    (hbound : position label ≠ kInvalid) :
    resolveJump position (pre ++ (ldBytes rd 0 ++ post)) ⟨label, BitVec.ofNat 32 p⟩ =
      some (pre ++ (ldBytes rd (position label - BitVec.ofNat 32 p) ++ post)) := by
  have hw : ∀ r : Reg, uType 0x00000017 r 0 &&& 16 ≠ 0 := by decide
  have hw' : ∀ r : Reg, iType 0x00003003 r r 0 &&& 96 ≠ 32 := by decide
  have h := resolveJump_upper post (hp.trans (toNat_ofNat_of_lt hlt).symm) hbound (hw rd) (hw' rd)
  have ht : topPart 0 = 0 := by decide
  have hb : bottomPart 0 <<< 20 = 0 := by decide
  simpa only [ldBytes, uType, iType, ht, hb, or_zero_word, List.append_assoc] using h

theorem branchWord_and (cond : BranchCond) (rs1 rs2 : Reg) :
    bType (branchWord cond) rs1 rs2 0 &&& 16 = 0 ∧ bType (branchWord cond) rs1 rs2 0 &&& 4 = 0 := by
  have h1 : ∀ r, rs1Operand r &&& 16 = 0 ∧ rs1Operand r &&& 4 = 0 := by decide
  have h2 : ∀ r, rs2Operand r &&& 16 = 0 ∧ rs2Operand r &&& 4 = 0 := by decide
  have hc : branchWord cond &&& 16 = 0 ∧ branchWord cond &&& 4 = 0 := by
    cases cond <;> decide
  have hor : ∀ a b c m : BitVec 32, a &&& m = 0 → b &&& m = 0 → c &&& m = 0 →
      (a ||| b ||| c ||| 0) &&& m = 0 := by
    intro a b c m ha hb hc
    rw [or_zero_word, BitVec.and_comm, BitVec.and_or_distrib_left, BitVec.and_or_distrib_left,
      BitVec.and_comm, ha, BitVec.and_comm, hb, BitVec.and_comm, hc]
    rfl
  exact ⟨hor _ _ _ _ hc.1 (h1 rs1).1 (h2 rs2).1, hor _ _ _ _ hc.2 (h1 rs1).2 (h2 rs2).2⟩

theorem resolveJump_skip (post : List Byte) {cond : BranchCond} {rs1 rs2 : Reg} {label : Label}
    (hp : pre.length = p) (hlt : p + 8 < 2 ^ 32 - 1)
    (hbound : position label = BitVec.ofNat 32 (p + 8)) :
    resolveJump position (pre ++ (toBytes 4 (bType (branchWord cond) rs1 rs2 0) ++ post))
        ⟨label, BitVec.ofNat 32 p⟩ =
      some (pre ++ (toBytes 4 (bType (branchWord cond) rs1 rs2 0x400) ++ post)) := by
  obtain ⟨h16, h4⟩ := branchWord_and cond rs1 rs2
  have himm : bImmediate.ofSigned (position label - BitVec.ofNat 32 p) = some 0x400 := by
    rw [hbound, ofNat_add_sub]
    decide
  have h := resolveJump_branch post (hp.trans (toNat_ofNat_of_lt (by omega)).symm)
    (hbound ▸ ofNat_ne_kInvalid hlt) h16 h4 himm
  simpa only [bType, or_zero_word] using h

theorem resolveJump_over (post : List Byte) {label : Label} (hp : pre.length = p)
    (hlt : p + 16 < 2 ^ 32 - 1)
    (hbound : position label = BitVec.ofNat 32 (p + 16)) :
    resolveJump position (pre ++ (toBytes 4 0x0000006f#32 ++ post)) ⟨label, BitVec.ofNat 32 p⟩ =
      some (pre ++ (toBytes 4 0x0100006f#32 ++ post)) := by
  have himm : jImmediate.ofSigned (position label - BitVec.ofNat 32 p) = some 0x01000000 := by
    rw [hbound, ofNat_add_sub]
    decide
  exact resolveJump_jal post (hp.trans (toNat_ofNat_of_lt (by omega)).symm)
    (hbound ▸ ofNat_ne_kInvalid hlt) (by decide) (by decide) himm

/-- Resolving the jumps of a piece turns its raw bytes into its code. -/
theorem resolveJumps_piece (post : List Byte) {a : Assembler} {x : Piece} (hp : pre.length = p)
    (hlt : p + x.size < 2 ^ 32 - 1) (hb : x.Bound a p)
    (hk : ∀ key ∈ x.keys, a.position (.address key) ≠ kInvalid) :
    resolveJumps a.position (x.jumps p) (pre ++ (x.raw ++ post)) =
      some (pre ++ (x.code a.position p ++ post)) := by
  cases x with
  | copy bytes => rfl
  | load rd key =>
    simp only [Piece.size, Piece.raw, length_ldBytes] at hlt
    simp only [Piece.jumps, Piece.raw, Piece.code, resolveJumps,
      resolveJump_ld _ _ hp (by omega) (hk key (List.mem_singleton_self key)), Option.bind_some]
  | branch n cond rs1 rs2 target =>
    simp only [Piece.size, Piece.raw, List.length_append, length_toBytes, length_ldBytes,
      length_jalrBytes] at hlt
    obtain ⟨-, h1, h2⟩ := hb
    have hp4 : (pre ++ toBytes 4 (bType (branchWord cond) rs1 rs2 0x400)).length = p + 4 := by
      simp [hp]
    have hp8 : (pre ++ (toBytes 4 (bType (branchWord cond) rs1 rs2 0x400) ++
        toBytes 4 0x0100006f#32)).length = p + 8 := by
      simp [hp]
    have hover := fun post => resolveJump_over post hp4 (by omega) h2
    have hld := fun post => resolveJump_ld t3 post hp8 (by omega)
      (hk target (List.mem_singleton_self target))
    simp only [List.append_assoc] at hover hld
    simp only [Piece.jumps, Piece.raw, Piece.code, skipBytes, List.append_assoc, resolveJumps,
      resolveJump_skip _ hp (by omega) h1, hover, hld, Option.bind_some]
  | link rd target =>
    simp only [Piece.size, Piece.raw, List.length_append, length_ldBytes, length_jalrBytes] at hlt
    simp only [Piece.jumps, Piece.raw, Piece.code, resolveJumps, List.append_assoc,
      resolveJump_ld _ _ hp (by omega) (hk target (List.mem_singleton_self target)),
      Option.bind_some]

theorem resolveJumps_pieces (post : List Byte) {a : Assembler} {xs : List Piece} (hp : pre.length = p)
    (hlt : p + (rawOf xs).length < 2 ^ 32 - 1) (hb : AllBound a p xs)
    (hk : ∀ x ∈ xs, ∀ key ∈ x.keys, a.position (.address key) ≠ kInvalid) :
    resolveJumps a.position (jumpsOf p xs) (pre ++ (rawOf xs ++ post)) =
      some (pre ++ (codeOf a.position p xs ++ post)) := by
  induction xs generalizing p pre with
  | nil => rfl
  | cons x xs ih =>
    have hsize : (rawOf (x :: xs)).length = x.size + (rawOf xs).length := by
      simp [rawOf, Piece.size]
    obtain ⟨hx, hxs⟩ := List.forall_mem_cons.mp hk
    have hfirst := resolveJumps_piece (rawOf xs ++ post) hp (by omega) hb.1 hx
    have hp' : (pre ++ x.code a.position p).length = p + x.size := by
      rw [List.length_append, hp, x.length_code]
    have hrest := ih hp' (by omega) hb.2 hxs
    have hraw : rawOf (x :: xs) = x.raw ++ rawOf xs := List.flatMap_cons
    rw [List.append_assoc] at hrest
    rw [jumpsOf, resolveJumps_append, hraw, List.append_assoc, hfirst, Option.bind_some, hrest,
      codeOf, List.append_assoc, List.append_assoc]

end Resolve
end Rv64Hook
