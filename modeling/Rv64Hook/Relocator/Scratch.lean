import Rv64Hook.Relocator.Internal

/-! The scratch register. Every inserted jump leaves its target in `t3`, whatever the instructions
of the window have put there. -/
namespace Rv64Hook
open ByteMem Rv64 Berberis Machine

section Exits
variable {Ω : Type} (sem : BitVec 32 → Core Ω → Core Ω) (code : Mem) (a : Word) (n : ℕ)

/-- Control leaves the window of `n` bytes at `a` before it has jumped inside: it falls off the
end, or it takes a branch or a `jal` to an address outside. The last argument is the link register
of the jump, `x0` where there is none. -/
inductive Exits : State Ω → State Ω → Reg → Prop
  | out {s : State Ω} (h : ¬ InRange a n s.pc) : Exits s s 0
  | fall {s u t : State Ω} {link : Reg} (h : InRange a n s.pc)
      (hstep : step sem code s = (u, .fall)) (hu : Exits u t link) : Exits s t link
  | jump {s t : State Ω} {link : Reg} (h : InRange a n s.pc) (hj : ¬ IsJalr code s.pc)
      (hstep : step sem code s = (t, .jump link)) (hx : ¬ InRange a n t.pc) : Exits s t link

/-- A run of the original instructions from the entry of the window to an exit outside the block,
with the block in memory and left alone. -/
structure ExitRun (r : Relocated) (s t : State Ω) (link : Reg) : Prop where
  entry : s.pc = a
  mem : Holds s.core.mem r.backup r.block
  undisturbed : Undisturbed sem code a r.overwriteSize r.backup r.block.length s
  exits : Exits sem code a r.overwriteSize s t link
  outside : ¬ InBlock r t

/-- Unless the relocation is refused, the block leaves `t3` at every such exit as the original
instructions do. -/
def KeepsT3 (heaps : ℕ → Option Word) (size : Int) : Prop :=
  ∀ r, relocate heaps code a size = .ok r → ∀ blk, Holds blk r.backup r.block →
    ∀ s t link, ExitRun sem code a r s t link →
      ∃ e, RunsWithin (next sem blk) (InBlock r) ⟨r.backup, s.core⟩ ⟨t.pc, e⟩ ∧
        e.reg t3 = t.core.reg t3

/-- The core in which the block arrives at an exit `t` of the window: `t3` holds the address of
the exit, unless the jump links through it. -/
structure ExitCore (r : Relocated) (link : Reg) (t : State Ω) (e : Core Ω) : Prop where
  scratch : link ≠ t3 → e.reg t3 = t.pc
  linked : link ≠ 0 → ∃ i, (mark code a i).1 < r.overwriteSize ∧
    t.core.reg link = a + BitVec.ofNat 64 (mark code a (i + 1)).1 ∧
    e.reg link = r.backup + BitVec.ofNat 64 (mark code a (i + 1)).2

/-- The block lies in memory of its own. -/
def Apart (r : Relocated) : Prop :=
  ∀ p, InRange a r.overwriteSize p → ¬ InRange r.backup r.block.length p

end Exits

section Runs
variable {Ω : Type} {sem : BitVec 32 → Core Ω → Core Ω} {code blk : Mem} {a : Word}
  {r : Relocated} {xs : List Piece} {position : Label → BitVec 32} {pool : List Byte}
  {heaps : ℕ → Option Word} {size : Int} {s t : State Ω} {link : Reg}

theorem Installed.window_lt (hi : Installed code a r xs position pool) :
    r.overwriteSize < 2 ^ 64 := by
  have hbound := hi.translation.length_le
  have hsplit : xs ++ [tailPiece a r] = xs ++ tailPiece a r :: [] := rfl
  obtain ⟨hle, hle'⟩ := hi.length_le hsplit
  have hk512 : kHeapSize / 2 = 524288 := rfl
  have hlen := hi.length
  omega

theorem Installed.mark_lt (hi : Installed code a r xs position pool) {i : ℕ}
    (hle : (mark code a i).1 ≤ r.overwriteSize)
    (hin : InRange a r.overwriteSize (a + BitVec.ofNat 64 (mark code a i).1)) :
    (mark code a i).1 < r.overwriteSize := by
  refine hle.lt_of_ne fun heq => ?_
  rw [heq] at hin
  exact not_inRange_add hi.window_lt hin

/-- The block runs to the same exit. -/
theorem run_exit (hi : Installed code a r xs position pool) (ha : Aligned a)
    (hblk : Holds blk r.backup r.block) (hx : Exits sem code a r.overwriteSize s t link) {i : ℕ}
    (hle : (mark code a i).1 ≤ r.overwriteSize)
    (hpc : s.pc = a + BitVec.ofNat 64 (mark code a i).1) (hmem : Holds s.core.mem r.backup r.block)
    (hun : Undisturbed sem code a r.overwriteSize r.backup r.block.length s) :
    ∃ e, RunsWithin (next sem blk) (InBlock r)
      ⟨r.backup + BitVec.ofNat 64 (mark code a i).2, s.core⟩ ⟨t.pc, e⟩ ∧
        ExitCore code a r link t e := by
  induction hx generalizing i with
  | out h =>
    have hend : (mark code a i).1 = r.overwriteSize := by
      refine hle.eq_of_not_lt fun hlt => h ?_
      rw [hpc]
      exact inRange_add hlt
    have htail : RunsWithin (next sem blk) (InBlock r) _ _ :=
      run_tail hi hblk hmem (hend ▸ aligned_mark ha i)
    rw [← hi.translation.mark_end hend, ← hend, ← hpc] at htail
    exact ⟨_, htail, fun _ => Core.reg_setReg_self (by decide), fun h => absurd rfl h⟩
  | @fall s u t link hin hstep _ ih =>
    have hlt := hi.mark_lt hle (hpc ▸ hin)
    have hperforms : Performs sem blk _ _ _ _ _ _ := performs_mark hi ha hblk hlt hmem
    rw [← hpc, hstep] at hperforms
    obtain ⟨hmem', hun'⟩ := hun.fall hmem hin hstep
    have hupc : u.pc = a + BitVec.ofNat 64 (mark code a (i + 1)).1 := by
      rw [exec_fall hstep, hpc, add_ofNat_add]
      rfl
    obtain ⟨e, hrun, hcore⟩ := ih (hi.translation.mark_succ_le hlt) hupc hmem' hun'
    exact ⟨e, hperforms.trans hrun, hcore⟩
  | @jump s t link hin hj hstep hout =>
    have hlt := hi.mark_lt hle (hpc ▸ hin)
    have hperforms : Performs sem blk _ _ _ _ _ _ := performs_mark hi ha hblk hlt hmem
    rw [← hpc, hstep] at hperforms
    obtain ⟨e, -, he, hrun⟩ := hperforms
    rw [he hj] at hrun
    refine ⟨_, hrun, fun hl => ?_, fun hl => ⟨i, hlt, ?_, Core.reg_setReg_self hl⟩⟩
    · rw [Core.reg_setReg_of_ne (Ne.symm hl), Core.reg_setReg_self (by decide)]
    · rw [exec_jump hstep, Core.reg_setReg_self hl, hpc, add_ofNat_add]
      rfl

/-- The next instruction does not have one address in the window and in the block. -/
theorem Apart.link_ne (hapart : Apart a r) (hi : Installed code a r xs position pool) {i : ℕ}
    (hlt : (mark code a i).1 < r.overwriteSize) :
    a + BitVec.ofNat 64 (mark code a (i + 1)).1 ≠
      r.backup + BitVec.ofNat 64 (mark code a (i + 1)).2 := by
  intro heq
  have hblk : Holds (store (fun _ => 0) r.backup r.block) r.backup r.block :=
    holds_store _ _ (hi.length.le.trans (by decide))
  obtain ⟨x, hx, -, -, hle⟩ := hi.piece_at hblk hlt hblk
  rw [hx.size_eq] at hle
  have hlen := lenAt_cases code (a + BitVec.ofNat 64 (mark code a i).1)
  have hemitted : lenAt code _ ≤ emittedSize code (a + BitVec.ofNat 64 (mark code a i).1) :=
    lenAt_le_emittedSize _
  have hsucc := hi.translation.mark_succ_le hlt
  rw [mark_succ] at heq hsucc
  dsimp only at heq hsucc
  obtain ⟨k, hk⟩ := Nat.exists_eq_add_of_le' (m := 1)
    (n := (mark code a i).1 + lenAt code (a + BitVec.ofNat 64 (mark code a i).1)) (by omega)
  obtain ⟨o, ho⟩ := Nat.exists_eq_add_of_le' (m := 1)
    (n := (mark code a i).2 + emittedSize code (a + BitVec.ofNat 64 (mark code a i).1)) (by omega)
  rw [hk, ho, ← add_ofNat_add, ← add_ofNat_add] at heq
  have hlast : a + BitVec.ofNat 64 k = r.backup + BitVec.ofNat 64 o := add_right_cancel heq
  refine hapart (a + BitVec.ofNat 64 k) (inRange_add (by omega)) ?_
  rw [hlast]
  exact inRange_add (by omega)

/-- The block leaves `t3` at an exit as the original instructions do if and only if these leave the
address of the exit in it. -/
theorem exit_t3_iff (ha : Aligned a) (hok : relocate heaps code a size = .ok r)
    (hapart : Apart a r) (hblk : Holds blk r.backup r.block)
    (hx : ExitRun sem code a r s t link) :
    (∃ e, RunsWithin (next sem blk) (InBlock r) ⟨r.backup, s.core⟩ ⟨t.pc, e⟩ ∧
        e.reg t3 = t.core.reg t3) ↔ link ≠ t3 ∧ t.core.reg t3 = t.pc := by
  obtain ⟨xs, position, pool, hi⟩ := relocate_installed hok
  have hzero : ∀ p : Word, p + BitVec.ofNat 64 0 = p := fun p => BitVec.add_zero p
  obtain ⟨e, hrun, hcore⟩ := run_exit hi ha hblk hx.exits (i := 0) (Nat.zero_le _)
    (hx.entry.trans (hzero a).symm) hx.mem hx.undisturbed
  rw [mark, hzero] at hrun
  constructor
  · rintro ⟨e', hrun', heq⟩
    have hsame : e' = e := by
      rcases hrun.linear hrun' with h | h
      · exact (State.mk.inj (h.eq_of_outside hx.outside)).2.symm
      · exact (State.mk.inj (h.eq_of_outside hx.outside)).2
    rw [hsame] at heq
    by_cases hl : link = t3
    · obtain ⟨i, hlt, horig, hblock⟩ := hcore.linked (hl ▸ by decide)
      rw [hl] at horig hblock
      exact absurd (horig.symm.trans (heq.symm.trans hblock)) (hapart.link_ne hi hlt)
    · exact ⟨hl, heq.symm.trans (hcore.scratch hl)⟩
  · rintro ⟨hl, heq⟩
    exact ⟨e, hrun, (hcore.scratch hl).trans heq.symm⟩

/-- Where relocation succeeds, `t3` survives if and only if every run of the original instructions
to an exit already leaves the address of the exit in `t3`. -/
theorem keepsT3_iff (sem : BitVec 32 → Core Ω → Core Ω) (ha : Aligned a) :
    (∀ e, relocate heaps code a size = .error e → KeepsT3 sem code a heaps size) ∧
      ∀ r, relocate heaps code a size = .ok r → Apart a r →
        (KeepsT3 sem code a heaps size ↔
          ∀ s t link, ExitRun sem code a r s t link → link ≠ t3 ∧ t.core.reg t3 = t.pc) := by
  refine ⟨fun e he r hr => ?_, fun r hok hapart => ⟨fun h s t link hx => ?_, fun h => ?_⟩⟩
  · rw [he] at hr
    cases hr
  · obtain ⟨xs, position, pool, hi⟩ := relocate_installed hok
    have hblk : Holds (store (fun _ => 0) r.backup r.block) r.backup r.block :=
      holds_store _ _ (hi.length.le.trans (by decide))
    exact (exit_t3_iff ha hok hapart hblk hx).mp (h r hok _ hblk s t link hx)
  · intro r' hok' blk hblk s t link hx
    obtain rfl := Except.ok.inj (hok.symm.trans hok')
    exact (exit_t3_iff ha hok hapart hblk hx).mpr (h s t link hx)

end Runs

/-- The instructions `auipc t3, 0x2; ret` at `0x1000`. -/
def returnSample : Mem :=
  store (fun _ => 0) 0x1000 (toBytes 4 0x00002e17#32 ++ toBytes 4 0x00008067#32)

/-- The instructions `auipc t3, 0x2; ld t3, 0(t3)` at `0x1000`, with which an entry of the
procedure linkage table begins. -/
def pltSample : Mem :=
  store (fun _ => 0) 0x1000 (toBytes 4 0x00002e17#32 ++ toBytes 4 0x000e3e03#32)

/-- The relocation to `0x20000` of an `auipc t3, 0x2` and another instruction at `0x1000`. -/
def loadRelocated (word : BitVec 32) : Relocated where
  overwriteSize := 8
  backup := 0x20000
  block := ldBytes t3 0x20 ++ toBytes 4 word ++ (ldBytes t3 0xc ++ jalrBytes 0 t3) ++
    (toBytes 8 0x1008#64 ++ toBytes 8 0x3000#64)

theorem apart_loadRelocated (word : BitVec 32) : Apart 0x1000 (loadRelocated word) := by
  intro p hp hp'
  unfold InRange at hp hp'
  have hlen : (loadRelocated word).block.length = 40 := by
    simp [loadRelocated]
  rw [hlen] at hp'
  simp only [loadRelocated] at hp hp'
  bv_omega

/-- A window that ends with a return has no other exit. -/
theorem keepsT3_returnSample :
    KeepsT3 (fun _ (c : Core Unit) => c) returnSample 0x1000 (fun _ => some 0x20000) 8 := by
  have hok : relocate (fun _ => some 0x20000) returnSample 0x1000 8 =
      .ok (loadRelocated 0x00008067) := by
    rfl
  refine ((keepsT3_iff _ (by decide)).2 _ hok (apart_loadRelocated _)).mpr ?_
  intro s t link hx
  have hload : decode (fetch returnSample 0x1000) = .auipc t3 0x2000 := by
    decide
  have hlen : lenAt returnSample 0x1000 = 4 := by
    decide
  have hreturn : decode (fetch returnSample 0x1004) = .jalr 0 ra 0 := by
    decide
  have hfirst : ∀ u ev, step (fun _ c => c) returnSample s = (u, ev) →
      u.pc = 0x1004 ∧ ev = .fall := by
    intro u ev h
    rw [step, hx.entry, exec, hload, hlen, hx.entry] at h
    obtain ⟨rfl, rfl⟩ := Prod.mk.inj h
    exact ⟨rfl, rfl⟩
  have hin : ∀ v : State Unit, v.pc = 0x1000 ∨ v.pc = 0x1004 → InRange 0x1000 8 v.pc := by
    rintro v (h | h) <;> rw [h] <;> decide
  cases hx.exits with
  | out h => exact absurd (hin s (.inl hx.entry)) h
  | jump _ _ hstep => exact absurd (hfirst _ _ hstep).2 (by simp)
  | fall _ hstep hu =>
    obtain ⟨hpc, -⟩ := hfirst _ _ hstep
    have hjalr : IsJalr returnSample 0x1004 := ⟨0, ra, 0, hreturn⟩
    rw [← hpc] at hjalr
    cases hu with
    | out h => exact absurd (hin _ (.inr hpc)) h
    | fall _ hstep => exact absurd hjalr (not_isJalr_of_fall hstep)
    | jump _ hj => exact absurd hjalr hj

/-- The relocated entry goes on with the address behind the window in `t3`. -/
theorem t3_not_kept :
    ¬ KeepsT3 (fun _ (c : Core Unit) => c) pltSample 0x1000 (fun _ => some 0x20000) 8 := by
  have hok : relocate (fun _ => some 0x20000) pltSample 0x1000 8 =
      .ok (loadRelocated 0x000e3e03) := by
    rfl
  have hload : decode (fetch pltSample 0x1000) = .auipc t3 0x2000 := by
    decide
  have hld : decode (fetch pltSample 0x1004) = .ld t3 t3 0 := by
    decide
  have hlen : lenAt pltSample 0x1000 = 4 ∧ lenAt pltSample 0x1004 = 4 := by
    decide
  let blk := store (fun _ => 0) (loadRelocated 0x000e3e03).backup (loadRelocated 0x000e3e03).block
  have hblk : Holds blk (loadRelocated 0x000e3e03).backup (loadRelocated 0x000e3e03).block :=
    holds_store _ _ (by decide)
  let c : Core Unit := ⟨fun _ => 0, fun _ => 0, (), blk⟩
  have hs1 : step (fun _ c => c) pltSample ⟨0x1000, c⟩ =
      (⟨0x1004, c.setReg t3 0x3000⟩, .fall) := by
    have haddr : (0x1000 : Word) + 0x2000 = 0x3000 := by decide
    rw [step, exec, hload, hlen.1]
    dsimp only
    rw [haddr]
    rfl
  have hs2 : step (fun _ c => c) pltSample ⟨0x1004, c.setReg t3 0x3000⟩ =
      (⟨0x1008, c.setReg t3 0⟩, .fall) := by
    have hout : ∀ i < 64 / 8, ¬ InRange (loadRelocated 0x000e3e03).backup
        (loadRelocated 0x000e3e03).block.length (0x3000 + BitVec.ofNat 64 i) := by
      decide
    have hzero : load 64 c.mem 0x3000 = 0 :=
      (load_congr fun i hi => store_of_not_inRange (hout i hi)).trans
        (show load 64 (fun _ => 0) 0x3000 = 0 by decide)
    have haddr : (0x3000 : Word) + 0 = 0x3000 := by decide
    rw [step, exec, hld, hlen.2]
    dsimp only
    rw [Core.reg_setReg_self (by decide), Core.setReg_mem, Core.setReg_setReg, haddr, hzero]
    rfl
  have hexits : Exits (fun _ c => c) pltSample 0x1000 8 ⟨0x1000, c⟩ ⟨0x1008, c.setReg t3 0⟩ 0 :=
    .fall (by decide) hs1 (.fall (by decide) hs2 (.out (by decide)))
  have hx : ExitRun (fun _ c => c) pltSample 0x1000 (loadRelocated 0x000e3e03) ⟨0x1000, c⟩
      ⟨0x1008, c.setReg t3 0⟩ 0 :=
    ⟨rfl, hblk, fun u _ _ _ _ => congrFun (exec_mem _ _ u) _, hexits, by unfold InBlock; decide⟩
  intro h
  obtain ⟨-, ht3⟩ := (exit_t3_iff (by decide) hok (apart_loadRelocated _) hblk hx).mp
    (h _ hok blk hblk _ _ _ hx)
  rw [Core.reg_setReg_self (by decide)] at ht3
  exact absurd ht3 (by decide)

end Rv64Hook
