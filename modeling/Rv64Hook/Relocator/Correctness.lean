import Rv64Hook.Relocator.Simulation

/-! The relocated block does what the window does. -/
namespace Rv64Hook
open ByteMem Rv64 Berberis Machine

section Simulation
variable {Ω : Type} {sem : BitVec 32 → Core Ω → Core Ω} {code blk : Mem} {a : Word}
  {r : Relocated} {xs : List Piece} {position : Label → BitVec 32} {pool : List Byte}

/-- The block has followed the window to the same exit, through a jump with this link register. -/
def Follows (code : Mem) (a : Word) (r : Relocated) (link : Reg) (t t' : State Ω) : Prop :=
  t'.pc = t.pc ∧ ∃ i, (mark code a i).1 ≤ r.overwriteSize ∧
    Linked link (a + BitVec.ofNat 64 (mark code a i).1)
      (r.backup + BitVec.ofNat 64 (mark code a i).2) t.core t'.core

/-- Control in the block. -/
def InBlock (r : Relocated) (s : State Ω) : Prop := InRange r.backup r.block.length s.pc

/-- A jump that is not a `jalr` is a branch or a `jal`. -/
theorem jump_target {s t : State Ω} {link : Reg} (h : step sem code s = (t, .jump link))
    (hj : ¬ IsJalr code s.pc) :
    ∃ offset, t.pc = s.pc + offset ∧ ((∃ rd, decode (fetch code s.pc) = .jal rd offset) ∨
      ∃ cond rs1 rs2, decode (fetch code s.pc) = .branch cond rs1 rs2 offset) := by
  unfold step exec at h
  cases hd : decode (fetch code s.pc) with
  | jal rd offset =>
    rw [hd] at h
    exact ⟨offset, (congrArg (State.pc ∘ Prod.fst) h).symm, .inl ⟨rd, rfl⟩⟩
  | branch cond rs1 rs2 offset =>
    rw [hd] at h
    dsimp only at h
    split at h
    · exact ⟨offset, (congrArg (State.pc ∘ Prod.fst) h).symm, .inr ⟨cond, rs1, rs2, rfl⟩⟩
    · exact absurd (congrArg Prod.snd h) (by simp)
  | jalr rd rs1 offset => exact absurd ⟨rd, rs1, offset, hd⟩ hj
  | lui | auipc | ld | other =>
    rw [hd] at h
    exact absurd (congrArg Prod.snd h) (by simp)

theorem not_isJalr_of_fall {s u : State Ω} (h : step sem code s = (u, .fall)) :
    ¬ IsJalr code s.pc := by
  rintro ⟨rd, rs1, offset, hd⟩
  rw [step, exec, hd] at h
  exact absurd (congrArg Prod.snd h) (by simp)

theorem holds_congr {m m' : Mem} {b : Word} {bs : List Byte} (h : Holds m b bs)
    (hm : ∀ p, InRange b bs.length p → m' p = m p) : Holds m' b bs :=
  holds_of_get fun _ hk => (hm _ (inRange_add hk)).trans (h.eq_get hk)

/-- An instruction that falls through leaves the bytes alone, and so do those behind it. -/
theorem Undisturbed.fall {s u : State Ω} {base : Word} {bs : List Byte} {n : ℕ}
    (hun : Undisturbed sem code a n base bs.length s) (hmem : Holds s.core.mem base bs)
    (hin : InRange a n s.pc) (hstep : step sem code s = (u, .fall)) :
    Holds u.core.mem base bs ∧ Undisturbed sem code a n base bs.length u := by
  have hu : next sem code s = u := congrArg Prod.fst hstep
  refine ⟨holds_congr hmem fun q hq => hu ▸ hun _ (.refl _) hin q hq, fun v hv => ?_⟩
  exact hun v (.head ⟨hin, not_isJalr_of_fall hstep⟩ (hu ▸ hv))

/-- Behind the window, the block loads the address behind the window and jumps to it. -/
theorem run_tailJump (hi : Installed code a r xs position pool)
    (hblk : Holds blk r.backup r.block) {d : Core Ω} (hmem : Holds d.mem r.backup r.block) :
    RunsWithin (next sem blk) (InBlock r)
      ⟨r.backup + BitVec.ofNat 64 (rawOf xs).length, d⟩
      ⟨(a + BitVec.ofNat 64 r.overwriteSize) &&& ~~~1#64,
        d.setReg t3 (a + BitVec.ofNat 64 r.overwriteSize)⟩ := by
  have hcode := hi.holds_piece hblk rfl
  have hsplit : xs ++ [tailPiece a r] = xs ++ tailPiece a r :: [] := rfl
  obtain ⟨hle, hle'⟩ := hi.length_le hsplit
  have hsize : (tailPiece a r).size = 12 := by
    simp [tailPiece, Piece.size, Piece.raw]
  obtain ⟨hlt, hkey⟩ := hi.pool_at hmem (List.mem_append_right _ (List.mem_singleton_self _))
    (List.mem_singleton_self _) (p := (rawOf xs).length) (by omega)
  refine run_loadJump hcode hlt hkey fun e j hj => ?_
  unfold InBlock
  dsimp only
  rw [add_ofNat_add]
  exact inRange_add (by omega)

/-- The same, for an aligned address. -/
theorem run_tail (hi : Installed code a r xs position pool)
    (hblk : Holds blk r.backup r.block) {d : Core Ω} (hmem : Holds d.mem r.backup r.block)
    (hend : Aligned (a + BitVec.ofNat 64 r.overwriteSize)) :
    RunsWithin (next sem blk) (InBlock r)
      ⟨r.backup + BitVec.ofNat 64 (rawOf xs).length, d⟩
      ⟨a + BitVec.ofNat 64 r.overwriteSize,
        d.setReg t3 (a + BitVec.ofNat 64 r.overwriteSize)⟩ := by
  have hrun : RunsWithin (next sem blk) (InBlock r) _ _ := run_tailJump hi hblk hmem
  rwa [hend.and_not_one] at hrun

/-- The piece of the instruction at a mark. -/
theorem Installed.exists_piece (hi : Installed code a r xs position pool) {i : ℕ}
    (hlt : (mark code a i).1 < r.overwriteSize) :
    ∃ x ∈ xs ++ [tailPiece a r], Translates code (a + BitVec.ofNat 64 (mark code a i).1) x ∧
      (mark code a i).2 + x.size ≤ (codeOf position 0 (xs ++ [tailPiece a r])).length ∧
      ∀ m, Holds m r.backup r.block → Holds m (r.backup + BitVec.ofNat 64 (mark code a i).2)
        (x.code position (mark code a i).2) := by
  obtain ⟨ys, zs, n, rfl, hys, hzs, hn⟩ := hi.translation.split hlt.le
  cases hzs with
  | nil => omega
  | @cons _ x zs n hx hzs =>
    have hsplit : ys ++ x :: zs ++ [tailPiece a r] = ys ++ x :: (zs ++ [tailPiece a r]) := by simp
    obtain ⟨hle, -⟩ := hi.length_le hsplit
    rw [hys] at hle
    exact ⟨x, by simp, hx, hle, fun m hm => hys ▸ hi.holds_piece hm hsplit⟩

theorem Installed.front_le (hi : Installed code a r xs position pool) :
    (codeOf position 0 (xs ++ [tailPiece a r])).length ≤ r.block.length := by
  rw [hi.block, List.length_append, ← tailPiece]
  exact Nat.le_add_right _ _

/-- The piece of the instruction at a mark, with the pool entries it loads from. -/
theorem Installed.piece_at (hi : Installed code a r xs position pool)
    (hblk : Holds blk r.backup r.block) {i : ℕ} (hlt : (mark code a i).1 < r.overwriteSize)
    {m : Mem} (hmem : Holds m r.backup r.block) :
    ∃ x : Piece, Translates code (a + BitVec.ofNat 64 (mark code a i).1) x ∧
      Holds blk (r.backup + BitVec.ofNat 64 (mark code a i).2)
        (x.code position (mark code a i).2) ∧
      (∀ key ∈ x.keys, ∀ j ≤ x.size,
        (position (.address key) - BitVec.ofNat 32 ((mark code a i).2 + j)).toNat < 2 ^ 30 ∧
          Holds m (r.backup + BitVec.ofNat 64 (mark code a i).2 + BitVec.ofNat 64 j +
            (position (.address key) - BitVec.ofNat 32 ((mark code a i).2 + j)).setWidth 64)
            (toBytes 8 key)) ∧
      (mark code a i).2 + x.size ≤ r.block.length := by
  obtain ⟨x, hmemx, hx, hle, hcode⟩ := hi.exists_piece hlt
  refine ⟨x, hx, hcode blk hblk, fun key hkey j hj => ?_, hle.trans hi.front_le⟩
  rw [add_ofNat_add]
  exact hi.pool_at hmem hmemx hkey (by omega)

/-- A step of the window from a mark, and what the block does there from the same core. -/
theorem performs_mark (hi : Installed code a r xs position pool) (ha : Aligned a)
    (hblk : Holds blk r.backup r.block) {i : ℕ} (hlt : (mark code a i).1 < r.overwriteSize)
    {d : Core Ω} (hmem : Holds d.mem r.backup r.block) :
    Performs sem blk (InBlock r) (r.backup + BitVec.ofNat 64 (mark code a i).2) d
      (r.backup + BitVec.ofNat 64 (mark code a (i + 1)).2)
      (IsJalr code (a + BitVec.ofNat 64 (mark code a i).1))
      (step sem code ⟨a + BitVec.ofNat 64 (mark code a i).1, d⟩) := by
  obtain ⟨x, hx, hcode, hpool, hle⟩ := hi.piece_at hblk hlt hmem
  rw [mark_succ, ← add_ofNat_add, ← hx.size_eq]
  refine performs_piece hx (aligned_mark ha i) hcode hpool fun e j hj => ?_
  unfold InBlock
  dsimp only
  rw [add_ofNat_add]
  exact inRange_add (by omega)

/-- The same from cores that agree but for `t3`. -/
theorem matched_mark (hi : Installed code a r xs position pool) (ha : Aligned a)
    (hw : Relocatable sem code a r.overwriteSize) (hblk : Holds blk r.backup r.block) {i : ℕ}
    (hlt : (mark code a i).1 < r.overwriteSize) {c d : Core Ω}
    (hagree : Core.AgreeOff t3 c d) (hmem : Holds d.mem r.backup r.block) :
    Matched sem blk (InBlock r) (r.backup + BitVec.ofNat 64 (mark code a i).2) d
      (a + BitVec.ofNat 64 (mark code a (i + 1)).1)
      (r.backup + BitVec.ofNat 64 (mark code a (i + 1)).2)
      (step sem code ⟨a + BitVec.ofNat 64 (mark code a i).1, c⟩) := by
  have h := (performs_mark hi ha hblk hlt hmem).matched hagree (hw.ignoresT3 i hlt)
  rwa [add_ofNat_add] at h

/-- From every mark of the window on, the block follows the window to its exit. -/
theorem follows_from (hi : Installed code a r xs position pool) (ha : Aligned a)
    (hw : Relocatable sem code a r.overwriteSize) (hblk : Holds blk r.backup r.block) (m : ℕ)
    {i : ℕ} (hm : (mark code a i).1 + m = r.overwriteSize) {s : State Ω} {d : Core Ω}
    (hpc : s.pc = a + BitVec.ofNat 64 (mark code a i).1) (hagree : Core.AgreeOff t3 s.core d)
    (hmem : Holds s.core.mem r.backup r.block)
    (hun : Undisturbed sem code a r.overwriteSize r.backup r.block.length s) :
    ∃ t link t', Leaves sem code a r.overwriteSize s t link ∧
      RunsWithin (next sem blk) (InBlock r)
        ⟨r.backup + BitVec.ofNat 64 (mark code a i).2, d⟩ t' ∧ Follows code a r link t t' := by
  induction m using Nat.strong_induction_on generalizing i s d with
  | _ m ih =>
  obtain ⟨p, c⟩ := s
  dsimp only at hpc hagree hmem
  subst hpc
  rcases (Nat.le.intro hm).eq_or_lt with hend | hlt
  · have hbound := hi.translation.length_le
    have hsplit : xs ++ [tailPiece a r] = xs ++ tailPiece a r :: [] := rfl
    obtain ⟨hle, hle'⟩ := hi.length_le hsplit
    have hk512 : kHeapSize / 2 = 524288 := rfl
    have hlen := hi.length
    have htail : RunsWithin (next sem blk) (InBlock r) _ _ :=
      run_tail hi hblk (hagree.mem ▸ hmem) (hend ▸ aligned_mark ha i)
    refine ⟨_, 0, _, .out ?_, hi.translation.mark_end hend ▸ htail, ?_, i, hend.le,
      linked_zero (hagree.setReg_right _) _ _⟩
    · rw [hend]
      exact not_inRange_add (by omega)
    · rw [hend]
  · have hin : InRange a r.overwriteSize (a + BitVec.ofNat 64 (mark code a i).1) :=
      inRange_add hlt
    have hsucc := hi.translation.mark_succ_le hlt
    have hmatched := matched_mark hi ha hw hblk hlt hagree (hagree.mem ▸ hmem)
    obtain ⟨⟨u, ev⟩, hstep⟩ :
        ∃ out, step sem code ⟨a + BitVec.ofNat 64 (mark code a i).1, c⟩ = out := ⟨_, rfl⟩
    rw [hstep] at hmatched
    cases ev with
    | fall =>
      obtain ⟨hupc, d', hagree', hrun⟩ := hmatched
      obtain ⟨hmem', hun'⟩ := hun.fall hmem hin hstep
      have hlen := lenAt_cases code (a + BitVec.ofNat 64 (mark code a i).1)
      have hmark : (mark code a (i + 1)).1 = _ := congrArg Prod.fst (mark_succ i)
      dsimp only at hmark
      obtain ⟨t, link, t', hleaves, hrun', hfollows⟩ :=
        ih (r.overwriteSize - (mark code a (i + 1)).1) (by omega) (by omega) hupc hagree' hmem'
          hun'
      exact ⟨t, link, t', .fall hin hstep hleaves, hrun.trans hrun', hfollows⟩
    | jump link =>
      obtain ⟨d', hlinked, hrun⟩ := hmatched
      refine ⟨u, link, ⟨u.pc, d'⟩, .jump hin hstep ?_, hrun, rfl, i + 1, hsucc, hlinked⟩
      by_cases hj : IsJalr code (a + BitVec.ofNat 64 (mark code a i).1)
      · exact .inr hj
      · obtain ⟨offset, htarget, hd⟩ := jump_target hstep hj
        exact .inl (htarget ▸ hw.outside i hlt offset hd)

/-- Relocation preserves behaviour. Under the conditions of `Relocatable`, with the block held in
the memory that is executed and in the data memory, and not written by the window: from every
instruction of the window on, so from the entry and from every link address, control leaves the
window, and the block runs to the same exit, with the same state but for `t3` and a link register.
That register then holds the address of the successor in the block instead of the one in the
window. -/
theorem relocate_simulates {heaps : ℕ → Option Word} {size : Int} (ha : Aligned a)
    (hok : relocate heaps code a size = .ok r) (hw : Relocatable sem code a r.overwriteSize)
    (hblk : Holds blk r.backup r.block) {i : ℕ} (hi : (mark code a i).1 ≤ r.overwriteSize)
    {s s' : State Ω} (hs : s.pc = a + BitVec.ofNat 64 (mark code a i).1)
    (hs' : s'.pc = r.backup + BitVec.ofNat 64 (mark code a i).2)
    (hagree : Core.AgreeOff t3 s.core s'.core) (hmem : Holds s.core.mem r.backup r.block)
    (hun : Undisturbed sem code a r.overwriteSize r.backup r.block.length s) :
    (∃ t link, Leaves sem code a r.overwriteSize s t link) ∧
      ∀ t link, Leaves sem code a r.overwriteSize s t link →
        ∃ t', RunsWithin (next sem blk) (InBlock r) s' t' ∧ Follows code a r link t t' := by
  obtain ⟨xs, position, pool, hinst⟩ := relocate_installed hok
  obtain ⟨m, hm⟩ := Nat.exists_eq_add_of_le hi
  obtain ⟨t, link, t', hleaves, hrun, hfollows⟩ :=
    follows_from hinst ha hw hblk m hm.symm hs hagree hmem hun
  obtain ⟨q, d⟩ := s'
  dsimp only at hs'
  subst hs'
  refine ⟨⟨t, link, hleaves⟩, fun u l hu => ?_⟩
  obtain ⟨rfl, rfl⟩ := hleaves.unique hu
  exact ⟨t', hrun, hfollows⟩

end Simulation
/-- The instruction `jal ra, 0x100` at `0x1000`. -/
def jalSample : Mem := store (fun _ => 0) 0x1000 (toBytes 4 0x100000ef#32)

/-- Its relocation to `0x20000`. -/
def jalRelocated : Relocated where
  overwriteSize := 4
  backup := 0x20000
  block := ldBytes t3 0x20 ++ jalrBytes 1 t3 ++ (ldBytes t3 0xc ++ jalrBytes 0 t3) ++
    (toBytes 8 0x1004#64 ++ toBytes 8 0x1100#64)

theorem relocate_jalSample :
    relocate (fun _ => some 0x20000) jalSample 0x1000 4 = .ok jalRelocated := by
  rfl

/-- A machine whose other instructions do nothing never writes memory. -/
theorem exec_mem {Ω : Type} (raw : BitVec 32) (len : ℕ) (s : State Ω) :
    (exec (fun _ c => c) raw len s).1.core.mem = s.core.mem := by
  unfold exec
  split <;> simp
  split <;> rfl

theorem decode_jalSample : decode (fetch jalSample 0x1000) = .jal 1 0x100 := by
  decide

theorem relocatable_jalSample :
    Relocatable (fun _ (c : Core Unit) => c) jalSample 0x1000 4 := by
  have hd : decode (fetch jalSample (0x1000 + BitVec.ofNat 64 0)) = .jal 1 0x100 :=
    decode_jalSample
  have hzero : ∀ i, (mark jalSample 0x1000 i).1 < 4 → (mark jalSample 0x1000 i).1 = 0 := by
    intro i
    induction i with
    | zero => exact fun _ => rfl
    | succ i ih =>
      intro hi
      rw [mark_succ] at hi
      dsimp only at hi
      rw [ih (by omega)] at hi
      exact absurd hi (by decide)
  refine ⟨fun i hi => ?_, fun i hi => ?_, fun i hi => ?_⟩
  all_goals rw [hzero i hi]
  · intro s v
    simp only [exec, hd]
    refine Prod.ext (congrArg (State.mk _) ?_) rfl
    exact Core.setReg_comm _ (by decide) _ _
  · intro rd imm h
    rw [hd] at h
    cases h
  · rintro offset (⟨rd, h⟩ | ⟨cond, rs1, rs2, h⟩)
    · rw [hd] at h
      obtain ⟨-, rfl⟩ := Instr.jal.inj h
      decide
    · rw [hd] at h
      cases h

/-- The relocated `jal` reaches the target of the original one. -/
theorem relocate_simulates_jal :
    let blk := store (fun _ => 0) jalRelocated.backup jalRelocated.block
    let c : Core Unit := ⟨fun _ => 0, fun _ => 0, (), blk⟩
    ∃ t', RunsWithin (next (fun _ c => c) blk) (InBlock jalRelocated) ⟨0x20000, c⟩ t' ∧
      Follows jalSample 0x1000 jalRelocated 1 ⟨0x1100, c.setReg 1 0x1004⟩ t' := by
  intro blk c
  have hblk : Holds blk jalRelocated.backup jalRelocated.block := holds_store _ _ (by decide)
  have hstep : step (fun _ c => c) jalSample ⟨0x1000, c⟩ =
      (⟨0x1100, c.setReg 1 0x1004⟩, .jump 1) := by
    have hlen : lenAt jalSample 0x1000 = 4 := by decide
    rw [step, exec, decode_jalSample, hlen]
    rfl
  have hleaves : Leaves (fun _ c => c) jalSample 0x1000 4 ⟨0x1000, c⟩
      ⟨0x1100, c.setReg 1 0x1004⟩ 1 := .jump (by decide) hstep (.inl (by decide))
  exact (relocate_simulates (by decide) relocate_jalSample relocatable_jalSample hblk
    (i := 0) (by decide) (s := ⟨0x1000, c⟩) rfl rfl (Core.AgreeOff.refl _ c) hblk
    fun u _ _ _ _ => congrFun (exec_mem _ _ u) _).2 _ _ hleaves

end Rv64Hook
