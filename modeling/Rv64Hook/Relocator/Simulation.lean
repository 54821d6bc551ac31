import Rv64Hook.Relocator.Emission
import Rv64Hook.Relocator.Execution

/-! Relocation preserves behaviour: the emitted block simulates the window, instruction by
instruction, from every instruction of the window on. -/
namespace Rv64Hook
open ByteMem Rv64 Berberis Machine

/-! ### Leaving the window -/

section Window
variable {Ω : Type} (sem : BitVec 32 → Core Ω → Core Ω) (code : Mem) (a : Word) (r : ℕ)

def IsJalr (p : Word) : Prop := ∃ rd rs1 offset, decode (fetch code p) = .jalr rd rs1 offset

/-- Control leaves the window of `r` bytes at `a`: it falls off its end, it takes a branch or a
`jal` to an address outside, or it executes a `jalr`. The last argument is the link register of
the jump, `x0` where there is none. -/
inductive Leaves : State Ω → State Ω → Reg → Prop
  | out {s : State Ω} (h : ¬ InRange a r s.pc) : Leaves s s 0
  | fall {s u t : State Ω} {link : Reg} (h : InRange a r s.pc)
      (hstep : step sem code s = (u, .fall)) (hu : Leaves u t link) : Leaves s t link
  | jump {s t : State Ω} {link : Reg} (h : InRange a r s.pc)
      (hstep : step sem code s = (t, .jump link))
      (hx : ¬ InRange a r t.pc ∨ IsJalr code s.pc) : Leaves s t link
  | back {s u t : State Ω} {l link : Reg} (h : InRange a r s.pc)
      (hstep : step sem code s = (u, .jump l)) (hin : InRange a r u.pc)
      (hj : ¬ IsJalr code s.pc) (hu : Leaves u t link) : Leaves s t link

/-- Control stays in the window for the next step, which is not a `jalr`. -/
def Stays (s : State Ω) : Prop := InRange a r s.pc ∧ ¬ IsJalr code s.pc

/-- Until control leaves the window, it writes none of the `n` bytes from `base` on. -/
def Undisturbed (base : Word) (n : ℕ) (s : State Ω) : Prop :=
  ∀ u, RunsWithin (next sem code) (Stays code a r) s u → InRange a r u.pc →
    ∀ p, InRange base n p → (next sem code u).core.mem p = u.core.mem p

/-- The instruction neither reads nor writes `t3`: it commutes with a write to `t3`. -/
def IgnoresT3 (raw : BitVec 32) (len : ℕ) : Prop := ∀ (s : State Ω) (v : Word),
  exec sem raw len ⟨s.pc, s.core.setReg t3 v⟩ =
    (⟨(exec sem raw len s).1.pc, (exec sem raw len s).1.core.setReg t3 v⟩, (exec sem raw len s).2)

/-- The bytes emitted for the instruction at an address. -/
def emittedSize (p : Word) : ℕ :=
  match decode (fetch code p) with
  | .auipc .. => 8
  | .branch .. => 20
  | .jal .. => 12
  | _ => lenAt code p

/-- Where the `i`-th instruction is, as an offset of the window and as an offset of the block. -/
def mark : ℕ → ℕ × ℕ
  | 0 => (0, 0)
  | i + 1 =>
    let (k, o) := mark i
    (k + lenAt code (a + BitVec.ofNat 64 k), o + emittedSize code (a + BitVec.ofNat 64 k))

/-- No instruction of the window uses `t3`, no `auipc` writes `x0`, and no branch or `jal` has its
target in the window. -/
structure Relocatable : Prop where
  ignoresT3 : ∀ i, (mark code a i).1 < r →
    IgnoresT3 sem (fetch code (a + BitVec.ofNat 64 (mark code a i).1))
      (lenAt code (a + BitVec.ofNat 64 (mark code a i).1))
  auipc : ∀ i, (mark code a i).1 < r → ∀ rd imm,
    decode (fetch code (a + BitVec.ofNat 64 (mark code a i).1)) = .auipc rd imm → rd ≠ 0
  outside : ∀ i, (mark code a i).1 < r → ∀ offset,
    ((∃ rd, decode (fetch code (a + BitVec.ofNat 64 (mark code a i).1)) = .jal rd offset) ∨
      ∃ cond rs1 rs2, decode (fetch code (a + BitVec.ofNat 64 (mark code a i).1)) =
        .branch cond rs1 rs2 offset) →
    ¬ InRange a r (a + BitVec.ofNat 64 (mark code a i).1 + offset)

variable {sem code a r}

/-- Control leaves the window in one way only. -/
theorem Leaves.unique {s t t' : State Ω} {link link' : Reg} (h : Leaves sem code a r s t link)
    (h' : Leaves sem code a r s t' link') : t = t' ∧ link = link' := by
  induction h with
  | out h =>
    cases h' with
    | out => exact ⟨rfl, rfl⟩
    | fall h' | jump h' | back h' => exact absurd h' h
  | fall h hstep hu ih =>
    cases h' with
    | out h' => exact absurd h h'
    | fall h' hstep' hu' =>
      obtain ⟨rfl, -⟩ := Prod.mk.inj (hstep.symm.trans hstep')
      exact ih hu'
    | jump _ hstep' | back _ hstep' => exact absurd (hstep.symm.trans hstep') (by simp)
  | jump h hstep hx =>
    cases h' with
    | out h' => exact absurd h h'
    | fall _ hstep' => exact absurd (hstep.symm.trans hstep') (by simp)
    | jump _ hstep' =>
      obtain ⟨rfl, hl⟩ := Prod.mk.inj (hstep.symm.trans hstep')
      exact ⟨rfl, Event.jump.inj hl⟩
    | back _ hstep' hin hj =>
      obtain ⟨rfl, -⟩ := Prod.mk.inj (hstep.symm.trans hstep')
      exact absurd hx (not_or.mpr ⟨not_not.mpr hin, hj⟩)
  | back h hstep hin hj hu ih =>
    cases h' with
    | out h' => exact absurd h h'
    | fall _ hstep' => exact absurd (hstep.symm.trans hstep') (by simp)
    | jump _ hstep' hx =>
      obtain ⟨rfl, -⟩ := Prod.mk.inj (hstep.symm.trans hstep')
      exact absurd hx (not_or.mpr ⟨not_not.mpr hin, hj⟩)
    | back _ hstep' _ _ hu' =>
      obtain ⟨rfl, -⟩ := Prod.mk.inj (hstep.symm.trans hstep')
      exact ih hu'

end Window

/-! ### One instruction and its piece -/

/-- The states agree but for `t3` and the link register of a jump, which holds the address of the
next instruction in the window and of its piece in the block. -/
structure Linked {Ω : Type} (link : Reg) (succ succ' : Word) (c d : Core Ω) : Prop where
  reg : ∀ i, i ≠ t3 → i ≠ link → d.reg i = c.reg i
  f : d.f = c.f
  rest : d.rest = c.rest
  mem : d.mem = c.mem
  link : link ≠ 0 → c.reg link = succ ∧ d.reg link = succ'

section Piece
variable {Ω : Type} {sem : BitVec 32 → Core Ω → Core Ω} {code blk : Mem} {p q : Word}
  {region : State Ω → Prop} {c d : Core Ω}

/-- What the block does at `q` matches a step of the window: it goes on to the next piece, or it
jumps to the same address. -/
def Matched (sem : BitVec 32 → Core Ω → Core Ω) (blk : Mem) (region : State Ω → Prop) (q : Word)
    (d : Core Ω) (succ succ' : Word) : State Ω × Event → Prop
  | (u, .fall) => u.pc = succ ∧
      ∃ d', Core.AgreeOff t3 u.core d' ∧ RunsWithin (next sem blk) region ⟨q, d⟩ ⟨succ', d'⟩
  | (u, .jump link) =>
      ∃ d', Linked link succ succ' u.core d' ∧ RunsWithin (next sem blk) region ⟨q, d⟩ ⟨u.pc, d'⟩

theorem linked_setReg (h : Core.AgreeOff t3 c d) (link : Reg) (succ succ' : Word) :
    Linked link succ succ' (c.setReg link succ) (d.setReg link succ') where
  reg i hi hl := by rw [Core.reg_setReg_of_ne hl, Core.reg_setReg_of_ne hl, h.reg hi]
  f := by simp [h.f]
  rest := by simp [h.rest]
  mem := by simp [h.mem]
  link hl := ⟨Core.reg_setReg_self hl, Core.reg_setReg_self hl⟩

theorem linked_zero (h : Core.AgreeOff t3 c d) (succ succ' : Word) :
    Linked 0 succ succ' c d :=
  linked_setReg h 0 succ succ'

/-- Changing `t3` changes nothing else of what an instruction that ignores it does. -/
theorem IgnoresT3.exec_eq {raw : BitVec 32} {len : ℕ} (h : IgnoresT3 sem raw len)
    (hagree : Core.AgreeOff t3 c d) (pc : Word) :
    exec sem raw len ⟨pc, d⟩ = (⟨(exec sem raw len ⟨pc, c⟩).1.pc,
      (exec sem raw len ⟨pc, c⟩).1.core.setReg t3 (d.x t3)⟩, (exec sem raw len ⟨pc, c⟩).2) := by
  have hd := hagree.eq_setReg (by decide)
  have h' := h ⟨pc, c⟩ (d.x t3)
  dsimp only at h'
  rwa [← hd] at h'

/-- What the block does at `q` with the step that the window makes from the same core: it goes on
to the next piece with the same core, or it jumps to the same address. An inserted jump has left
that address in `t3`. -/
def Performs (sem : BitVec 32 → Core Ω → Core Ω) (blk : Mem) (region : State Ω → Prop) (q : Word)
    (d : Core Ω) (succ' : Word) (jalr : Prop) : State Ω × Event → Prop
  | (u, .fall) => RunsWithin (next sem blk) region ⟨q, d⟩ ⟨succ', u.core⟩
  | (u, .jump link) => ∃ e, Core.AgreeOff t3 d e ∧ (¬ jalr → e = d.setReg t3 u.pc) ∧
      RunsWithin (next sem blk) region ⟨q, d⟩ ⟨u.pc, e.setReg link succ'⟩

theorem performs_copy (hauipc : ∀ rd imm, decode (fetch code p) ≠ .auipc rd imm)
    (hjal : ∀ rd offset, decode (fetch code p) ≠ .jal rd offset)
    (hbranch : ∀ cond rs1 rs2 offset, decode (fetch code p) ≠ .branch cond rs1 rs2 offset)
    (hcode : Holds blk q (bytesAt code p (lenAt code p))) (hregion : ∀ d, region ⟨q, d⟩) :
    Performs sem blk region q d (q + BitVec.ofNat 64 (lenAt code p)) (IsJalr code p)
      (step sem code ⟨p, d⟩) := by
  obtain ⟨hf, hl⟩ := fetch_copy hcode
  have hnext : ∀ u, (exec sem (fetch code p) (lenAt code p) ⟨q, d⟩).1 = u →
      RunsWithin (next sem blk) region ⟨q, d⟩ u := by
    intro u hu
    refine .single (hregion d) ?_
    rw [next, step, hf, hl]
    exact hu
  rw [step]
  cases hd : decode (fetch code p) with
  | auipc rd imm => exact absurd hd (hauipc rd imm)
  | jal rd offset => exact absurd hd (hjal rd offset)
  | branch cond rs1 rs2 offset => exact absurd hd (hbranch cond rs1 rs2 offset)
  | lui | ld | other =>
    simp only [exec, hd] at hnext ⊢
    exact hnext _ rfl
  | jalr rd rs1 offset =>
    have hjalr : IsJalr code p := ⟨rd, rs1, offset, hd⟩
    simp only [exec, hd] at hnext ⊢
    exact ⟨d, .refl t3 d, fun h => absurd hjalr h, hnext _ rfl⟩

theorem performs_load {rd : Reg} {imm : Word} {offset : BitVec 32}
    (hd : decode (fetch code p) = .auipc rd imm) (hcode : Holds blk q (ldBytes rd offset))
    (hlt : offset.toNat < 2 ^ 30)
    (hkey : Holds d.mem (q + offset.setWidth 64) (toBytes 8 (p + imm)))
    (hregion : ∀ d, ∀ j < 8, region ⟨q + BitVec.ofNat 64 j, d⟩) :
    Performs sem blk region q d (q + 8#64) (IsJalr code p) (step sem code ⟨p, d⟩) := by
  have hrun : RunsWithin (next sem blk) region ⟨q, d⟩ ⟨q + 8#64, d.setReg rd (p + imm)⟩ :=
    run_ldBytes hcode hlt hkey fun e =>
      ⟨by simpa using hregion e 0 (by decide), hregion e 4 (by decide)⟩
  rw [step, exec, hd]
  exact hrun

theorem performs_link {rd : Reg} {imm : Word} {offset : BitVec 32}
    (hd : decode (fetch code p) = .jal rd imm)
    (hcode : Holds blk q (ldBytes t3 offset ++ jalrBytes rd t3)) (hlt : offset.toNat < 2 ^ 30)
    (hkey : Holds d.mem (q + offset.setWidth 64) (toBytes 8 (p + imm)))
    (heven : Aligned (p + imm))
    (hregion : ∀ d, ∀ j < 12, region ⟨q + BitVec.ofNat 64 j, d⟩) :
    Performs sem blk region q d (q + 12#64) (IsJalr code p) (step sem code ⟨p, d⟩) := by
  have hrun : RunsWithin (next sem blk) region ⟨q, d⟩ _ :=
    run_longJump hcode hlt hkey heven hregion
  rw [step, exec, hd]
  exact ⟨_, (Core.AgreeOff.refl t3 d).setReg_right _, fun _ => rfl, hrun⟩

theorem performs_branch {cond : BranchCond} {rs1 rs2 : Reg} {imm : Word} {offset : BitVec 32}
    (hd : decode (fetch code p) = .branch cond rs1 rs2 imm)
    (hcode : Holds blk q (skipBytes cond rs1 rs2 ++ (ldBytes t3 offset ++ jalrBytes 0 t3)))
    (hlt : offset.toNat < 2 ^ 30)
    (hkey : Holds d.mem (q + 8#64 + offset.setWidth 64) (toBytes 8 (p + imm)))
    (heven : Aligned (p + imm))
    (hregion : ∀ d, ∀ j < 20, region ⟨q + BitVec.ofNat 64 j, d⟩) :
    Performs sem blk region q d (q + 20#64) (IsJalr code p) (step sem code ⟨p, d⟩) := by
  obtain ⟨hskip, hlong⟩ := holds_append.mp hcode
  rw [length_skipBytes] at hlong
  obtain ⟨⟨-, hs⟩, -, hs'⟩ := next_skip sem hskip d
  have hfirst : region ⟨q, d⟩ := by simpa using hregion d 0 (by decide)
  rw [step, exec, hd]
  dsimp only
  cases h : cond.holds (d.reg rs1) (d.reg rs2) with
  | true =>
    rw [h, if_pos rfl] at hs
    have hrun : RunsWithin (next sem blk) region ⟨q + 8#64, d⟩ _ :=
      run_longJump hlong hlt hkey heven fun e j hj => by
        rw [BitVec.add_assoc, BitVec.ofNat_add_ofNat]
        exact hregion e (8 + j) (by omega)
    rw [if_pos rfl]
    exact ⟨_, (Core.AgreeOff.refl t3 d).setReg_right _, fun _ => rfl, .head hfirst (hs ▸ hrun)⟩
  | false =>
    rw [h, if_neg (by decide)] at hs
    rw [if_neg (by decide)]
    exact .head hfirst (hs ▸ .single (hregion d 4 (by decide)) hs')

/-- Every piece performs its instruction. -/
theorem performs_piece {x : Piece} {position : Label → BitVec 32} {o : ℕ}
    (hx : Translates code p x) (hp : Aligned p) (hcode : Holds blk q (x.code position o))
    (hpool : ∀ key ∈ x.keys, ∀ j ≤ x.size,
      (position (.address key) - BitVec.ofNat 32 (o + j)).toNat < 2 ^ 30 ∧
        Holds d.mem (q + BitVec.ofNat 64 j +
          (position (.address key) - BitVec.ofNat 32 (o + j)).setWidth 64) (toBytes 8 key))
    (hregion : ∀ d, ∀ j < x.size, region ⟨q + BitVec.ofNat 64 j, d⟩) :
    Performs sem blk region q d (q + BitVec.ofNat 64 x.size) (IsJalr code p)
      (step sem code ⟨p, d⟩) := by
  unfold Translates at hx
  cases hd : decode (fetch code p) with
  | auipc rd imm =>
    rw [hd] at hx
    obtain rfl := hx
    obtain ⟨hlt, hkey⟩ := hpool _ (List.mem_singleton_self _) 0 (Nat.zero_le _)
    rw [show q + BitVec.ofNat 64 0 = q from BitVec.add_zero q] at hkey
    exact performs_load hd hcode hlt hkey hregion
  | jal rd imm =>
    rw [hd] at hx
    obtain rfl := hx
    obtain ⟨hlt, hkey⟩ := hpool _ (List.mem_singleton_self _) 0 (Nat.zero_le _)
    rw [show q + BitVec.ofNat 64 0 = q from BitVec.add_zero q] at hkey
    exact performs_link hd hcode hlt hkey (hp.add (aligned_of_decode (.inl ⟨rd, hd⟩))) hregion
  | branch cond rs1 rs2 imm =>
    rw [hd] at hx
    obtain ⟨n, rfl⟩ := hx
    obtain ⟨hlt, hkey⟩ := hpool _ (List.mem_singleton_self _) 8 (by simp [Piece.size, Piece.raw])
    exact performs_branch hd hcode hlt hkey
      (hp.add (aligned_of_decode (.inr ⟨cond, rs1, rs2, hd⟩))) hregion
  | lui | jalr | ld | other =>
    rw [hd] at hx
    obtain rfl := hx
    have hsize : (Piece.copy (bytesAt code p (lenAt code p))).size = lenAt code p :=
      length_bytesAt _ _ _
    rw [hsize] at hregion ⊢
    have hfirst : ∀ e, region ⟨q, e⟩ := fun e => by
      have hpos : 0 < lenAt code p := by
        rcases lenAt_cases code p with hl | hl <;> omega
      simpa using hregion e 0 hpos
    exact performs_copy (by simp [hd]) (by simp [hd]) (by simp [hd]) hcode hfirst

/-- The step from a core that differs in `t3` matches too, if the instruction ignores `t3`. -/
theorem Performs.matched {succ' : Word} {jalr : Prop} (hagree : Core.AgreeOff t3 c d)
    (hign : IgnoresT3 sem (fetch code p) (lenAt code p))
    (h : Performs sem blk region q d succ' jalr (step sem code ⟨p, d⟩)) :
    Matched sem blk region q d (p + BitVec.ofNat 64 (lenAt code p)) succ'
      (step sem code ⟨p, c⟩) := by
  have hexec : step sem code ⟨p, d⟩ = _ := hign.exec_eq hagree p
  rw [hexec] at h
  obtain ⟨⟨u, ev⟩, hstep⟩ : ∃ out, step sem code ⟨p, c⟩ = out := ⟨_, rfl⟩
  have hstep' : exec sem (fetch code p) (lenAt code p) ⟨p, c⟩ = (u, ev) := hstep
  rw [hstep'] at h
  rw [hstep]
  cases ev with
  | fall => exact ⟨exec_fall hstep', _, (Core.AgreeOff.refl t3 _).setReg_right _, h⟩
  | jump link =>
    obtain ⟨e, he, -, hrun⟩ := h
    have hcore : u.core = c.setReg link _ := exec_jump hstep'
    refine ⟨e.setReg link succ', ?_, hrun⟩
    rw [hcore]
    exact linked_setReg (hagree.trans he) link _ _

end Piece
/-! ### The marks of the window -/

section Marks
variable {code : Mem} {a : Word}

theorem mark_succ (i : ℕ) : mark code a (i + 1) =
    ((mark code a i).1 + lenAt code (a + BitVec.ofNat 64 (mark code a i).1),
      (mark code a i).2 + emittedSize code (a + BitVec.ofNat 64 (mark code a i).1)) := rfl

theorem aligned_mark (ha : Aligned a) (i : ℕ) :
    Aligned (a + BitVec.ofNat 64 (mark code a i).1) := by
  induction i with
  | zero => simpa [mark] using ha
  | succ i ih =>
    rw [mark_succ, ← add_ofNat_add]
    refine ih.add ?_
    rcases lenAt_cases code (a + BitVec.ofNat 64 (mark code a i).1) with hl | hl <;> rw [hl] <;>
      decide

theorem Translates.size_eq {p : Word} {x : Piece} (hx : Translates code p x) :
    x.size = emittedSize code p := by
  unfold Translates at hx
  unfold emittedSize
  cases hd : decode (fetch code p) with
  | branch cond rs1 rs2 imm =>
    rw [hd] at hx
    obtain ⟨n, rfl⟩ := hx
    simp [Piece.size, Piece.raw]
  | _ =>
    rw [hd] at hx
    obtain rfl := hx
    simp [Piece.size, Piece.raw]

theorem lenAt_le_emittedSize (p : Word) : lenAt code p ≤ emittedSize code p := by
  unfold emittedSize
  rcases lenAt_cases code p with hl | hl <;> split <;> omega

theorem Translation.length_le {xs : List Piece} {n : ℕ} (h : Translation code a xs n) :
    n ≤ (rawOf xs).length := by
  induction h with
  | nil => exact Nat.zero_le _
  | @cons p x xs n hx _ ih =>
    have hsize := hx.size_eq
    have hle : lenAt code p ≤ emittedSize code p := lenAt_le_emittedSize p
    have hraw : (rawOf (x :: xs)).length = x.size + (rawOf xs).length := by
      simp [rawOf, Piece.size]
    omega

/-- The pieces before and behind a mark. -/
theorem Translation.split {xs : List Piece} {n : ℕ} (h : Translation code a xs n) {i : ℕ}
    (hi : (mark code a i).1 ≤ n) :
    ∃ ys zs m, xs = ys ++ zs ∧ (rawOf ys).length = (mark code a i).2 ∧
      Translation code (a + BitVec.ofNat 64 (mark code a i).1) zs m ∧
      (mark code a i).1 + m = n := by
  induction i with
  | zero => exact ⟨[], xs, n, rfl, rfl, by simpa [mark] using h, Nat.zero_add n⟩
  | succ i ih =>
    rw [mark_succ] at hi
    have hlen := lenAt_cases code (a + BitVec.ofNat 64 (mark code a i).1)
    obtain ⟨ys, zs, m, rfl, hys, hzs, hm⟩ := ih (by omega)
    cases hzs with
    | nil => omega
    | @cons _ x zs m hx hzs =>
      refine ⟨ys ++ [x], zs, m, by simp, ?_, ?_, ?_⟩
      · rw [rawOf_append, List.length_append, hys, mark_succ, ← hx.size_eq, rawOf_singleton]
        rfl
      · rwa [mark_succ, ← add_ofNat_add]
      · rw [mark_succ]
        omega

/-- A mark inside the window is followed by another one, at its end at the latest. -/
theorem Translation.mark_succ_le {xs : List Piece} {n : ℕ} (h : Translation code a xs n) {i : ℕ}
    (hi : (mark code a i).1 < n) : (mark code a (i + 1)).1 ≤ n := by
  obtain ⟨ys, zs, m, -, -, hzs, hm⟩ := h.split hi.le
  cases hzs with
  | nil => omega
  | cons =>
    rw [mark_succ]
    omega

/-- The mark at the end of the window is where the last piece ends. -/
theorem Translation.mark_end {xs : List Piece} {n : ℕ} (h : Translation code a xs n) {i : ℕ}
    (hi : (mark code a i).1 = n) : (mark code a i).2 = (rawOf xs).length := by
  obtain ⟨ys, zs, m, rfl, hys, hzs, hm⟩ := h.split hi.le
  cases hzs with
  | nil => rw [List.append_nil, hys]
  | @cons _ x zs m hx hzs =>
    have hlen := lenAt_cases code (a + BitVec.ofNat 64 (mark code a i).1)
    omega

end Marks

/-! ### The installed block -/

section Block
variable {code m : Mem} {a : Word} {r : Relocated} {xs : List Piece}
  {position : Label → BitVec 32} {pool : List Byte}

/-- The piece behind the window jumps to the address behind it. -/
def tailPiece (a : Word) (r : Relocated) : Piece := .link 0 (a + BitVec.ofNat 64 r.overwriteSize)

theorem Installed.holds_piece (hi : Installed code a r xs position pool)
    (hm : Holds m r.backup r.block) {ys zs : List Piece} {x : Piece}
    (hsplit : xs ++ [tailPiece a r] = ys ++ x :: zs) :
    Holds m (r.backup + BitVec.ofNat 64 (rawOf ys).length)
      (x.code position (rawOf ys).length) := by
  rw [hi.block, ← tailPiece, hsplit, codeOf_append, codeOf, List.append_assoc,
    List.append_assoc] at hm
  have h := (holds_append.mp (holds_append.mp hm).2).1
  rwa [length_codeOf, Nat.zero_add] at h

theorem Installed.length_le (hi : Installed code a r xs position pool) {ys zs : List Piece}
    {x : Piece} (hsplit : xs ++ [tailPiece a r] = ys ++ x :: zs) :
    (rawOf ys).length + x.size ≤ (codeOf position 0 (xs ++ [tailPiece a r])).length ∧
      (codeOf position 0 (xs ++ [tailPiece a r])).length ≤ r.block.length := by
  constructor
  · rw [length_codeOf, hsplit, rawOf_append, List.length_append]
    simp [rawOf, Piece.size]
  · rw [hi.block, List.length_append]
    exact Nat.le_add_right _ _

/-- Where the pool holds an address that a piece uses, and the distance to it from the code. -/
theorem Installed.slot_at (hi : Installed code a r xs position pool) {x : Piece}
    (hx : x ∈ xs ++ [tailPiece a r]) {key : Word} (hkey : key ∈ x.keys) :
    ∃ us vs, r.block = codeOf position 0 (xs ++ [tailPiece a r]) ++ (us ++ (toBytes 8 key ++ vs)) ∧
      8 ∣ us.length ∧ ∀ p ≤ (codeOf position 0 (xs ++ [tailPiece a r])).length,
        (position (.address key) - BitVec.ofNat 32 p).toNat < 2 ^ 30 ∧
          BitVec.ofNat 64 p + (position (.address key) - BitVec.ofNat 32 p).setWidth 64 =
            BitVec.ofNat 64 ((codeOf position 0 (xs ++ [tailPiece a r])).length + us.length) := by
  obtain ⟨us, vs, hpool, hdvd, hpos⟩ := hi.keys x hx key hkey
  have hlen := hi.length
  have hk512 : kHeapSize / 2 = 524288 := rfl
  have hblock := hi.block
  rw [← tailPiece] at hpos hblock
  rw [hpool] at hblock
  refine ⟨us, vs, hblock, hdvd, fun p hp => ?_⟩
  generalize codeOf position 0 (xs ++ [tailPiece a r]) = front at *
  rw [hblock] at hlen
  simp only [List.length_append, length_toBytes] at hlen
  obtain ⟨k, hk⟩ := Nat.exists_eq_add_of_le hp
  have hdiff : position (.address key) - BitVec.ofNat 32 p =
      BitVec.ofNat 32 (k + us.length) := by
    rw [hpos, hk, Nat.add_assoc, ofNat_add_sub]
  have hnat : (BitVec.ofNat 32 (k + us.length)).toNat = k + us.length :=
    toNat_ofNat_of_lt (by omega)
  have hwide : (BitVec.ofNat 32 (k + us.length)).setWidth 64 = BitVec.ofNat 64 (k + us.length) := by
    apply BitVec.eq_of_toNat_eq
    rw [BitVec.toNat_setWidth, hnat, BitVec.toNat_ofNat]
  rw [hdiff, hnat, hwide, BitVec.ofNat_add_ofNat, hk, Nat.add_assoc]
  exact ⟨by omega, rfl⟩

theorem Installed.pool_at (hi : Installed code a r xs position pool)
    (hm : Holds m r.backup r.block) {x : Piece} (hx : x ∈ xs ++ [tailPiece a r]) {key : Word}
    (hkey : key ∈ x.keys) {p : ℕ}
    (hp : p ≤ (codeOf position 0 (xs ++ [tailPiece a r])).length) :
    (position (.address key) - BitVec.ofNat 32 p).toNat < 2 ^ 30 ∧
      Holds m (r.backup + BitVec.ofNat 64 p +
        (position (.address key) - BitVec.ofNat 32 p).setWidth 64) (toBytes 8 key) := by
  obtain ⟨us, vs, hblock, -, hslot⟩ := hi.slot_at hx hkey
  obtain ⟨hlt, hadd⟩ := hslot p hp
  rw [hblock] at hm
  have h := (holds_append.mp (holds_append.mp (holds_append.mp hm).2).2).1
  rw [add_ofNat_add] at h
  exact ⟨hlt, by rwa [BitVec.add_assoc, hadd]⟩

end Block
end Rv64Hook
