import Rv64Hook.Relocator.Correctness

/-! Branches into the window. The relocator gives every branch its absolute target, also when the
target lies in the window, which is about to be overwritten. -/
namespace Rv64Hook
open ByteMem Rv64 Berberis Machine RV64Relocator

/-! ### The window ends with the instruction that reaches the requested size -/

theorem mark_shift (code : Mem) (a : Word) (i : ℕ) :
    (mark code a (i + 1)).1 =
      lenAt code a + (mark code (a + BitVec.ofNat 64 (lenAt code a)) i).1 := by
  induction i with
  | zero =>
    rw [mark_succ]
    simp [mark]
  | succ i ih =>
    have hnext : (mark code a (i + 2)).1 = _ := congrArg Prod.fst (mark_succ (i + 1))
    have hshift : (mark code (a + BitVec.ofNat 64 (lenAt code a)) (i + 1)).1 = _ :=
      congrArg Prod.fst (mark_succ i)
    dsimp only at hnext hshift
    rw [hnext, ih, hshift, add_ofNat_add, Nat.add_assoc]

theorem relocateWindow_size {code : Mem} {fuel : ℕ} {size : Int} {w w' : Window}
    (hfuel : size.toNat ≤ fuel) (hok : relocateWindow code fuel size w = .ok w') :
    ∃ n, w'.overwriteSize = w.overwriteSize + n ∧ size ≤ n ∧
      ∀ i, (mark code w.address i).1 < n → ((mark code w.address i).1 : Int) < size := by
  induction fuel generalizing size w with
  | zero =>
    obtain rfl := Except.ok.inj hok
    exact ⟨0, rfl, by omega, fun i hi => absurd hi (Nat.not_lt_zero _)⟩
  | succ fuel ih =>
    unfold relocateWindow at hok
    split at hok
    · rename_i hpos
      obtain ⟨⟨r, count⟩, hi, hok⟩ := bind_eq_ok hok
      obtain ⟨s, -, hcount, -⟩ := relocateInsn_cases hi
      obtain rfl := hcount.trans (Decoder.decode_reports code w.address).2
      have hlen := lenAt_cases code w.address
      obtain ⟨n, hn, hsize, hmarks⟩ := ih (by omega) hok
      dsimp only at hn hmarks
      refine ⟨lenAt code w.address + n, by omega, by omega, fun i hi => ?_⟩
      cases i with
      | zero => simpa [mark] using hpos
      | succ i =>
        rw [mark_shift] at hi ⊢
        have := hmarks i (by omega)
        omega
    · obtain rfl := Except.ok.inj hok
      exact ⟨0, rfl, by omega, fun i hi => absurd hi (Nat.not_lt_zero _)⟩

/-- The instructions of the window are those that start before the requested size. -/
theorem mark_lt_overwriteSize_iff {heaps : ℕ → Option Word} {code : Mem} {a : Word} {size : Int}
    {r : Relocated} (hok : relocate heaps code a size = .ok r) (i : ℕ) :
    (mark code a i).1 < r.overwriteSize ↔ ((mark code a i).1 : Int) < size := by
  obtain ⟨w, _, _, hw, -, -, -, hsize, -⟩ := relocate_cases hok
  obtain ⟨n, hn, hle, hmarks⟩ := relocateWindow_size le_rfl hw
  dsimp only at hn hmarks
  constructor
  · intro hi
    exact hmarks i (by omega)
  · intro hi
    omega

/-- The last instruction of the window has at most four bytes. -/
theorem relocateWindow_lt {code : Mem} {fuel : ℕ} {size : Int} {w w' : Window}
    (hok : relocateWindow code fuel size w = .ok w') :
    w'.overwriteSize < w.overwriteSize + size.toNat + 4 := by
  induction fuel generalizing size w with
  | zero =>
    obtain rfl := Except.ok.inj hok
    omega
  | succ fuel ih =>
    unfold relocateWindow at hok
    split at hok
    · rename_i hpos
      obtain ⟨⟨r, count⟩, hi, hok⟩ := bind_eq_ok hok
      obtain ⟨s, -, hcount, -⟩ := relocateInsn_cases hi
      obtain rfl := hcount.trans (Decoder.decode_reports code w.address).2
      have hlen := lenAt_cases code w.address
      by_cases hmore : (lenAt code w.address : Int) < size
      · have hlt := ih hok
        dsimp only at hlt
        omega
      · have hend : w'.overwriteSize = w.overwriteSize + lenAt code w.address := by
          cases fuel with
          | zero =>
            obtain rfl := Except.ok.inj hok
            rfl
          | succ fuel =>
            have hdone : ¬ 0 < size - (lenAt code w.address : Int) := by omega
            unfold relocateWindow at hok
            dsimp only at hok
            rw [if_neg hdone] at hok
            obtain rfl := Except.ok.inj hok
            rfl
        omega
    · obtain rfl := Except.ok.inj hok
      omega

/-- The window covers the requested bytes, and at most three more. -/
theorem relocate_overwriteSize {heaps : ℕ → Option Word} {code : Mem} {a : Word} {size : ℕ}
    {r : Relocated} (hok : relocate heaps code a size = .ok r) :
    size ≤ r.overwriteSize ∧ r.overwriteSize < size + 4 := by
  obtain ⟨w, _, _, hw, -, -, -, hsize, -⟩ := relocate_cases hok
  obtain ⟨n, hn, hle, -⟩ := relocateWindow_size le_rfl hw
  have hlt := relocateWindow_lt hw
  dsimp only at hn hlt
  omega

/-! ### Taken branches -/

section Taken
variable {Ω : Type}

/-- The instruction is a `jal`, or a branch taken in this state, with this offset. -/
def Takes (code : Mem) (p : Word) (c : Core Ω) (offset : Word) : Prop :=
  (∃ rd, decode (fetch code p) = .jal rd offset) ∨
    ∃ cond rs1 rs2, decode (fetch code p) = .branch cond rs1 rs2 offset ∧
      cond.holds (c.reg rs1) (c.reg rs2) = true

/-- The target of instruction `i` at this offset is instruction `j`. -/
def Targets (code : Mem) (a : Word) (i j : ℕ) (offset : Word) : Prop :=
  a + BitVec.ofNat 64 (mark code a i).1 + offset = a + BitVec.ofNat 64 (mark code a j).1

/-- Taking the branch at `i` continues at the copy of instruction `j`, and the code emitted for
the branch does not send control to the window. -/
structure Redirected (sem : BitVec 32 → Core Ω → Core Ω) (code : Mem) (a : Word) (r : Relocated)
    (blk : Mem) (i j : ℕ) (d : Core Ω) : Prop where
  continues : ∃ t, RunsWithin (next sem blk) (InBlock r)
    ⟨r.backup + BitVec.ofNat 64 (mark code a i).2, d⟩ t ∧
      t.pc = r.backup + BitVec.ofNat 64 (mark code a j).2
  never : ∀ t, RunsWithin (next sem blk) (fun s => InRange
      (r.backup + BitVec.ofNat 64 (mark code a i).2)
      (emittedSize code (a + BitVec.ofNat 64 (mark code a i).1)) s.pc)
    ⟨r.backup + BitVec.ofNat 64 (mark code a i).2, d⟩ t → ¬ InRange a r.overwriteSize t.pc

/-- Every branch and `jal` of the window that targets an instruction of the window is redirected
to the copy of its target, unless the relocation is refused. -/
def RedirectsBranches (sem : BitVec 32 → Core Ω → Core Ω) (heaps : ℕ → Option Word) (code : Mem)
    (a : Word) (size : Int) : Prop :=
  ∀ r, relocate heaps code a size = .ok r → ∀ i j offset,
    (mark code a i).1 < r.overwriteSize → (mark code a j).1 < r.overwriteSize →
    Targets code a i j offset → ∀ blk, Holds blk r.backup r.block →
    ∀ d : Core Ω, Holds d.mem r.backup r.block →
    Takes code (a + BitVec.ofNat 64 (mark code a i).1) d offset →
    Redirected sem code a r blk i j d

variable {sem : BitVec 32 → Core Ω → Core Ω} {code blk : Mem} {a : Word} {r : Relocated}
  {size : Int} {heaps : ℕ → Option Word}

/-- The code emitted for a branch that is taken runs to the target of the original branch. -/
theorem run_taken (ha : Aligned a) (hok : relocate heaps code a size = .ok r)
    (hblk : Holds blk r.backup r.block) {i : ℕ} (hlt : (mark code a i).1 < r.overwriteSize)
    {d : Core Ω} (hmem : Holds d.mem r.backup r.block) {offset : Word}
    (htakes : Takes code (a + BitVec.ofNat 64 (mark code a i).1) d offset) :
    ∃ d', RunsWithin (next sem blk) (fun s => InRange
        (r.backup + BitVec.ofNat 64 (mark code a i).2)
        (emittedSize code (a + BitVec.ofNat 64 (mark code a i).1)) s.pc)
      ⟨r.backup + BitVec.ofNat 64 (mark code a i).2, d⟩
      ⟨a + BitVec.ofNat 64 (mark code a i).1 + offset, d'⟩ := by
  obtain ⟨xs, position, pool, hi⟩ := relocate_installed hok
  obtain ⟨x, hx, hcode, hpool, -⟩ := hi.piece_at hblk hlt hmem
  have hp : Aligned (a + BitVec.ofNat 64 (mark code a i).1) := aligned_mark ha i
  generalize a + BitVec.ofNat 64 (mark code a i).1 = p at *
  generalize r.backup + BitVec.ofNat 64 (mark code a i).2 = q at *
  have hperforms : Performs sem blk (fun s => InRange q (emittedSize code p) s.pc) q d _ _
      (step sem code ⟨p, d⟩) :=
    performs_piece hx hp hcode hpool fun e j hj => inRange_add (hx.size_eq ▸ hj)
  rcases htakes with ⟨rd, hd⟩ | ⟨cond, rs1, rs2, hd, hholds⟩
  · rw [step, exec, hd] at hperforms
    obtain ⟨e, -, -, hrun⟩ := hperforms
    exact ⟨_, hrun⟩
  · rw [step, exec, hd] at hperforms
    dsimp only at hperforms
    rw [hholds] at hperforms
    obtain ⟨e, -, -, hrun⟩ := hperforms
    exact ⟨_, hrun⟩

/-- A taken branch of the window to an instruction of the window is not redirected. -/
theorem not_redirected (ha : Aligned a) (hok : relocate heaps code a size = .ok r)
    (hblk : Holds blk r.backup r.block) {i j : ℕ} (hi : (mark code a i).1 < r.overwriteSize)
    (hj : (mark code a j).1 < r.overwriteSize) {offset : Word}
    (htarget : Targets code a i j offset) {d : Core Ω} (hmem : Holds d.mem r.backup r.block)
    (htakes : Takes code (a + BitVec.ofNat 64 (mark code a i).1) d offset) :
    ¬ Redirected sem code a r blk i j d := by
  intro h
  obtain ⟨d', hrun⟩ := run_taken ha hok hblk hi hmem htakes
  exact h.never _ hrun (htarget ▸ inRange_add hj)

/-- Where relocation succeeds, branches into the window are redirected if and only if the window
has none that can be taken. -/
theorem redirectsBranches_iff (sem : BitVec 32 → Core Ω → Core Ω) (ha : Aligned a) :
    (∀ e, relocate heaps code a size = .error e → RedirectsBranches sem heaps code a size) ∧
      ∀ r, relocate heaps code a size = .ok r →
        (RedirectsBranches sem heaps code a size ↔
          ∀ i j offset, ((mark code a i).1 : Int) < size → ((mark code a j).1 : Int) < size →
            Targets code a i j offset →
            ∀ c : Core Ω, ¬ Takes code (a + BitVec.ofNat 64 (mark code a i).1) c offset) := by
  refine ⟨fun e he r hr => ?_, fun r hok => ⟨?_, ?_⟩⟩
  · rw [he] at hr
    cases hr
  · intro h i j offset hi hj htarget c htakes
    have hsize := mark_lt_overwriteSize_iff hok
    obtain ⟨xs, position, pool, hinst⟩ := relocate_installed hok
    have hblk : Holds (store c.mem r.backup r.block) r.backup r.block :=
      holds_store _ _ (hinst.length.le.trans (by decide))
    have htakes' : Takes code (a + BitVec.ofNat 64 (mark code a i).1)
        { c with mem := store c.mem r.backup r.block } offset := htakes
    exact not_redirected ha hok hblk ((hsize i).mpr hi) ((hsize j).mpr hj) htarget hblk htakes'
      (h r hok i j offset ((hsize i).mpr hi) ((hsize j).mpr hj) htarget _ hblk _ hblk htakes')
  · intro h r' hok' i j offset hi hj htarget blk hblk d hmem htakes
    have hsize := mark_lt_overwriteSize_iff hok'
    exact absurd htakes (h i j offset ((hsize i).mp hi) ((hsize j).mp hj) htarget d)

end Taken

theorem redirectsBranches_jalSample :
    RedirectsBranches (fun _ (c : Core Unit) => c) (fun _ => some 0x20000) jalSample 0x1000 4 := by
  refine ((redirectsBranches_iff _ (by decide)).2 _ relocate_jalSample).mpr ?_
  intro i j offset hi hj htarget c htakes
  have hout := relocatable_jalSample.outside i (by omega) offset
    (htakes.imp id fun ⟨cond, rs1, rs2, hd, _⟩ => ⟨cond, rs1, rs2, hd⟩)
  exact hout (htarget ▸ inRange_add (by omega))

/-- The loop `addi a0, a0, -1; bnez a0, -4` at `0x1000`. -/
def loopSample : Mem :=
  store (fun _ => 0) 0x1000 (toBytes 4 0xfff50513#32 ++ toBytes 4 0xfe051ee3#32)

/-- Its relocation to `0x20000`. -/
def loopRelocated : Relocated where
  overwriteSize := 8
  backup := 0x20000
  block := toBytes 4 0xfff50513#32 ++ skipBytes .bne 10 0 ++ (ldBytes t3 0x18 ++ jalrBytes 0 t3) ++
    (ldBytes t3 0x14 ++ jalrBytes 0 t3) ++ (toBytes 8 0x1000#64 ++ toBytes 8 0x1008#64)

/-- The relocated branch of the loop goes back to the entry of the function. -/
theorem loop_not_redirected :
    ¬ RedirectsBranches (fun _ (c : Core Unit) => c) (fun _ => some 0x20000) loopSample 0x1000 8 := by
  have hok : relocate (fun _ => some 0x20000) loopSample 0x1000 8 = .ok loopRelocated := by
    rfl
  have hblk : Holds (store (fun _ => 0) loopRelocated.backup loopRelocated.block)
      loopRelocated.backup loopRelocated.block := holds_store _ _ (by decide)
  have htakes : Takes loopSample (0x1000 + BitVec.ofNat 64 (mark loopSample 0x1000 1).1)
      (⟨fun _ => 1, fun _ => 0, (), store (fun _ => 0) loopRelocated.backup loopRelocated.block⟩ :
        Core Unit) (-4) := by
    have hdecode : decode (fetch loopSample 0x1004) = .branch .bne 10 0 (-4) := by
      decide
    exact .inr ⟨.bne, 10, 0, hdecode, rfl⟩
  have hbranch : (mark loopSample 0x1000 1).1 < loopRelocated.overwriteSize := by
    decide
  have hentry : (mark loopSample 0x1000 0).1 < loopRelocated.overwriteSize := by
    decide
  have htarget : Targets loopSample 0x1000 1 0 (-4) := by
    unfold Targets
    decide
  intro h
  exact not_redirected (by decide) hok hblk hbranch hentry htarget hblk htakes
    (h _ hok 1 0 (-4) hbranch hentry htarget _ hblk _ hblk htakes)

end Rv64Hook
