import Rv64Hook.Relocator.Scratch

/-! The memory accesses of the inserted code. All that it does to memory is to read the pool at the
end of the block. -/
namespace Rv64Hook
open ByteMem Rv64 Berberis Berberis.Assembler Machine

section Accesses
variable {Ω : Type} (sem : BitVec 32 → Core Ω → Core Ω) (code : Mem) (a : Word) (r : Relocated)

/-- The absolute address that the code emitted for an instruction uses. -/
def recorded (p : Word) : Option Word :=
  match decode (fetch code p) with
  | .auipc _ imm => some (p + imm)
  | .branch _ _ _ offset => some (p + offset)
  | .jal _ offset => some (p + offset)
  | _ => none

/-- The copy of an instruction of the window is at `q`. -/
def Copied (q : Word) : Prop :=
  ∃ i, (mark code a i).1 < r.overwriteSize ∧
    recorded code (a + BitVec.ofNat 64 (mark code a i).1) = none ∧
    q = r.backup + BitVec.ofNat 64 (mark code a i).2

/-- An inserted instruction is at `q`. It is one of those that use this address, for an instruction
of the window or for the jump behind it. -/
def Inserted (q key : Word) : Prop :=
  ∃ i j, q = r.backup + BitVec.ofNat 64 (mark code a i).2 + BitVec.ofNat 64 j ∧
    ((mark code a i).1 < r.overwriteSize ∧
        recorded code (a + BitVec.ofNat 64 (mark code a i).1) = some key ∧
        j < emittedSize code (a + BitVec.ofNat 64 (mark code a i).1) ∨
      (mark code a i).1 = r.overwriteSize ∧ key = a + BitVec.ofNat 64 r.overwriteSize ∧ j < 12)

/-- The pool, which begins behind the last jump, has a slot with this address at offset `k` of the
block. -/
structure Slot (k : ℕ) (key : Word) : Prop where
  pool : ∃ i, (mark code a i).1 = r.overwriteSize ∧ (mark code a i).2 + 12 ≤ k ∧
    8 ∣ k - ((mark code a i).2 + 12)
  bounds : k + 8 ≤ r.block.length
  content : (r.block.drop k).take 8 = toBytes 8 key

/-- The address that the next instruction reads, if it is a load of a doubleword. -/
def readAddress (blk : Mem) (u : State Ω) : Option Word :=
  match decode (fetch blk u.pc) with
  | .ld _ rs1 offset => some (u.core.reg rs1 + offset)
  | _ => none

/-- The next instruction does nothing to memory but read the slot of this address, from which it
gets the address as long as the block is in memory. -/
structure PoolAccess (blk : Mem) (u : State Ω) (key : Word) : Prop where
  known : decode (fetch blk u.pc) ≠ .other
  reads : ∀ p, readAddress blk u = some p → ∃ k, Slot code a r k key ∧
    p = r.backup + BitVec.ofNat 64 k ∧
    (Holds u.core.mem r.backup r.block → load 64 u.core.mem p = key)
  writes : (next sem blk u).core.mem = u.core.mem

/-- The next instruction is a copy, or it accesses nothing but the pool. -/
def PoolOrCopy (blk : Mem) (u : State Ω) : Prop :=
  Copied code a r u.pc ∨ ∃ key, Inserted code a r u.pc key ∧ PoolAccess sem code a r blk u key

/-- Until the block jumps away, every instruction that is executed is a copy or accesses nothing but
the pool, from whatever instruction of the window the block is entered at. -/
def ReadsPool : Prop :=
  ∀ blk, Holds blk r.backup r.block → ∀ i, (mark code a i).1 ≤ r.overwriteSize →
    ∀ (d : Core Ω) u, RunsWithin (next sem blk) (Stays blk r.backup r.block.length)
      ⟨r.backup + BitVec.ofNat 64 (mark code a i).2, d⟩ u → PoolOrCopy sem code a r blk u

end Accesses

section Runs
variable {Ω : Type} {sem : BitVec 32 → Core Ω → Core Ω} {code blk : Mem} {a q key : Word}
  {r : Relocated} {xs : List Piece} {position : Label → BitVec 32} {pool : List Byte}
  {heaps : ℕ → Option Word} {size : Int} {u : State Ω} {d : Core Ω}

/-! ### One instruction -/

theorem exec_mem_of_known {raw : BitVec 32} {len : ℕ} {s : State Ω} (h : decode raw ≠ .other) :
    (exec sem raw len s).1.core.mem = s.core.mem := by
  unfold exec
  cases hd : decode raw with
  | other => exact absurd hd h
  | branch cond rs1 rs2 offset =>
    dsimp only
    split <;> rfl
  | lui | auipc | jal | jalr | ld => exact Core.setReg_mem _ _ _

/-- An instruction that is known and no load accesses nothing. -/
theorem PoolAccess.quiet {instr : Instr} (h : decode (fetch blk q) = instr)
    (hother : instr ≠ .other) (hld : ∀ rd rs1 offset, instr ≠ .ld rd rs1 offset) (d : Core Ω)
    (key : Word) : PoolAccess sem code a r blk ⟨q, d⟩ key where
  known := fun hd => hother (h.symm.trans hd)
  reads p hp := by
    unfold readAddress at hp
    rw [h] at hp
    split at hp
    · exact absurd rfl (hld _ _ _)
    · cases hp
  writes := exec_mem_of_known fun hd => hother (h.symm.trans hd)

theorem Slot.load_eq {k : ℕ} (h : Slot code a r k key) {m : Mem} (hm : Holds m r.backup r.block) :
    load 64 m (r.backup + BitVec.ofNat 64 k) = key := by
  have hbounds := h.bounds
  have hsplit : r.block = r.block.take k ++ (toBytes 8 key ++ r.block.drop (k + 8)) := by
    rw [← h.content, ← List.drop_drop, List.take_append_drop, List.take_append_drop]
  rw [hsplit] at hm
  have h' := (holds_append.mp (holds_append.mp hm).2).1
  rw [List.length_take, Nat.min_eq_left (by omega)] at h'
  exact h'.load_eq rfl

/-- A load from the slot. -/
theorem PoolAccess.read {rd rs1 : Reg} {offset : Word} {k : ℕ}
    (h : decode (fetch blk q) = .ld rd rs1 offset) (hslot : Slot code a r k key)
    (haddr : d.reg rs1 + offset = r.backup + BitVec.ofNat 64 k) :
    PoolAccess sem code a r blk ⟨q, d⟩ key where
  known := fun hd => absurd (h.symm.trans hd) (by simp)
  reads p hp := by
    unfold readAddress at hp
    rw [h] at hp
    obtain rfl := Option.some.inj hp
    rw [haddr]
    exact ⟨k, hslot, rfl, hslot.load_eq⟩
  writes := exec_mem_of_known fun hd => absurd (h.symm.trans hd) (by simp)

/-! ### The inserted sequences -/

/-- The load of a register through the pool: what happens until it is done. -/
theorem load_access {rd : Reg} {offset : BitVec 32} {k : ℕ} (hrd : rd ≠ 0)
    (hcode : Holds blk q (ldBytes rd offset)) (hlt : offset.toNat < 2 ^ 30)
    (hslot : Slot code a r k key) (haddr : q + offset.setWidth 64 = r.backup + BitVec.ofNat 64 k)
    {region : State Ω → Prop} (hrun : RunsWithin (next sem blk) region ⟨q, d⟩ u) :
    ((∃ j < 8, u.pc = q + BitVec.ofNat 64 j) ∧ PoolAccess sem code a r blk u key) ∨
      ∃ d', RunsWithin (next sem blk) region ⟨q + 8#64, d'⟩ u := by
  obtain ⟨h1, h2⟩ := holds_append.mp hcode
  rw [length_toBytes] at h2
  obtain ⟨hd1, hs1⟩ := next_auipc sem h1 d
  obtain ⟨hd2, hs2⟩ := next_ld sem h2 (d.setReg rd (q + (topPart offset).signExtend 64))
  cases hrun with
  | refl =>
    exact .inl ⟨⟨0, by decide, (BitVec.add_zero q).symm⟩, .quiet hd1 (by simp) (by simp) d key⟩
  | head _ hrun =>
    rw [hs1] at hrun
    cases hrun with
    | refl =>
      refine .inl ⟨⟨4, by decide, rfl⟩, .read hd2 hslot ?_⟩
      rw [Core.reg_setReg_self hrd, BitVec.add_assoc, signExtend_parts (by omega), haddr]
    | head _ hrun =>
      have hpc : q + 4#64 + 4#64 = q + 8#64 := by
        rw [BitVec.add_assoc]
        rfl
      have hs2' : next sem blk ⟨q + 4#64, _⟩ = _ := hs2
      rw [hs2', hpc] at hrun
      exact .inr ⟨_, hrun⟩

/-- A long jump ends the run. -/
theorem longJump_access {rd : Reg} {offset : BitVec 32} {k : ℕ}
    (hcode : Holds blk q (ldBytes t3 offset ++ jalrBytes rd t3)) (hlt : offset.toNat < 2 ^ 30)
    (hslot : Slot code a r k key) (haddr : q + offset.setWidth 64 = r.backup + BitVec.ofNat 64 k)
    {base : Word} {n : ℕ} (hrun : RunsWithin (next sem blk) (Stays blk base n) ⟨q, d⟩ u) :
    (∃ j < 12, u.pc = q + BitVec.ofNat 64 j) ∧ PoolAccess sem code a r blk u key := by
  obtain ⟨h1, h2⟩ := holds_append.mp hcode
  rw [length_ldBytes] at h2
  rcases load_access (by decide) h1 hlt hslot haddr hrun with ⟨⟨j, hj, hpc⟩, h⟩ | ⟨d', hrun⟩
  · exact ⟨⟨j, by omega, hpc⟩, h⟩
  · obtain ⟨hop, hd⟩ : _ ∧ decode (iType 0x00000067 rd t3 0) = .jalr rd t3 0 :=
      decode_jalr rd t3 0
    have hdec : decode (fetch blk (q + 8#64)) = .jalr rd t3 0 :=
      (decode_fetch h2 hop (by decide)).trans hd
    have hstays : ¬ Stays blk base n (⟨q + 8#64, d'⟩ : State Ω) := fun h =>
      h.2 ⟨rd, t3, 0, hdec⟩
    obtain rfl := hrun.eq_of_outside hstays
    exact ⟨⟨8, by decide, rfl⟩, .quiet hdec (by simp) (by simp) d' key⟩

/-- The code of a branch: what happens until it jumps away or is done. -/
theorem branch_access {cond : BranchCond} {rs1 rs2 : Reg} {offset : BitVec 32} {k : ℕ}
    (hcode : Holds blk q (skipBytes cond rs1 rs2 ++ (ldBytes t3 offset ++ jalrBytes 0 t3)))
    (hlt : offset.toNat < 2 ^ 30) (hslot : Slot code a r k key)
    (haddr : q + 8#64 + offset.setWidth 64 = r.backup + BitVec.ofNat 64 k)
    {base : Word} {n : ℕ} (hrun : RunsWithin (next sem blk) (Stays blk base n) ⟨q, d⟩ u) :
    ((∃ j < 20, u.pc = q + BitVec.ofNat 64 j) ∧ PoolAccess sem code a r blk u key) ∨
      ∃ d', RunsWithin (next sem blk) (Stays blk base n) ⟨q + 20#64, d'⟩ u := by
  obtain ⟨hskip, hlong⟩ := holds_append.mp hcode
  rw [length_skipBytes] at hlong
  obtain ⟨⟨hd, hs⟩, hd', hs'⟩ := next_skip sem hskip d
  cases hrun with
  | refl =>
    exact .inl ⟨⟨0, by decide, (BitVec.add_zero q).symm⟩, .quiet hd (by simp) (by simp) d key⟩
  | head _ hrun =>
    rw [hs] at hrun
    split at hrun
    · obtain ⟨⟨j, hj, hpc⟩, h⟩ := longJump_access hlong hlt hslot haddr hrun
      refine .inl ⟨⟨8 + j, by omega, ?_⟩, h⟩
      rw [hpc, BitVec.add_assoc, BitVec.ofNat_add_ofNat]
    · cases hrun with
      | refl => exact .inl ⟨⟨4, by decide, rfl⟩, .quiet hd' (by simp) (by simp) d key⟩
      | head _ hrun => exact .inr ⟨d, hs' ▸ hrun⟩

/-- A copied instruction that is no `jalr` is followed by the next piece. -/
theorem copy_next {p base : Word} {n : ℕ} (hrecorded : recorded code p = none)
    (hcode : Holds blk q (bytesAt code p (lenAt code p)))
    (hrun : RunsWithin (next sem blk) (Stays blk base n) ⟨q, d⟩ u) :
    u.pc = q ∨ ∃ d', RunsWithin (next sem blk) (Stays blk base n)
      ⟨q + BitVec.ofNat 64 (lenAt code p), d'⟩ u := by
  obtain ⟨hf, hl⟩ := fetch_copy hcode
  cases hrun with
  | refl => exact .inl rfl
  | head hs hrun =>
    refine .inr ⟨(next sem blk ⟨q, d⟩).core, ?_⟩
    have hpc : (next sem blk ⟨q, d⟩).pc = q + BitVec.ofNat 64 (lenAt code p) := by
      rw [next, step, hf, hl, exec]
      unfold recorded at hrecorded
      cases hd : decode (fetch code p) with
      | auipc | jal | branch => simp [hd] at hrecorded
      | jalr rd rs1 offset => exact absurd ⟨rd, rs1, offset, hf ▸ hd⟩ hs.2
      | lui | ld | other => rfl
    rwa [← hpc]

/-! ### The block -/

theorem Translation.exists_end {n : ℕ} (h : Translation code a xs n) :
    ∃ i, (mark code a i).1 = n := by
  induction h with
  | nil => exact ⟨0, rfl⟩
  | cons _ _ ih =>
    obtain ⟨i, hi⟩ := ih
    exact ⟨i + 1, by rw [mark_shift, hi]⟩

theorem Installed.front_length (hi : Installed code a r xs position pool) {i : ℕ}
    (hend : (mark code a i).1 = r.overwriteSize) :
    (codeOf position 0 (xs ++ [tailPiece a r])).length = (mark code a i).2 + 12 := by
  rw [length_codeOf, rawOf_append, List.length_append, hi.translation.mark_end hend,
    rawOf_singleton]
  simp [tailPiece, Piece.raw]

/-- The slot of an address that a piece uses. -/
theorem Installed.slot (hi : Installed code a r xs position pool) {x : Piece}
    (hx : x ∈ xs ++ [tailPiece a r]) (hkey : key ∈ x.keys) :
    ∃ k, Slot code a r k key ∧ ∀ p ≤ (codeOf position 0 (xs ++ [tailPiece a r])).length,
      (position (.address key) - BitVec.ofNat 32 p).toNat < 2 ^ 30 ∧
        r.backup + BitVec.ofNat 64 p +
          (position (.address key) - BitVec.ofNat 32 p).setWidth 64 =
            r.backup + BitVec.ofNat 64 k := by
  obtain ⟨us, vs, hblock, hdvd, hslot⟩ := hi.slot_at hx hkey
  obtain ⟨n, hn⟩ := hi.translation.exists_end
  have hfront := hi.front_length hn
  refine ⟨(codeOf position 0 (xs ++ [tailPiece a r])).length + us.length,
    ⟨⟨n, hn, by omega, ?_⟩, ?_, ?_⟩, fun p hp => ?_⟩
  · rwa [hfront, Nat.add_sub_cancel_left]
  · rw [hblock]
    simp only [List.length_append, length_toBytes]
    omega
  · rw [hblock, ← List.drop_drop, List.drop_left, List.drop_left]
    exact List.take_left' (length_toBytes 8 key)
  · rw [BitVec.add_assoc, (hslot p hp).2]
    exact ⟨(hslot p hp).1, rfl⟩

/-- Behind the window, all that is executed is the last jump. -/
theorem tail_access (hi : Installed code a r xs position pool) (hblk : Holds blk r.backup r.block)
    {i : ℕ} (hend : (mark code a i).1 = r.overwriteSize)
    (hrun : RunsWithin (next sem blk) (Stays blk r.backup r.block.length)
      ⟨r.backup + BitVec.ofNat 64 (mark code a i).2, d⟩ u) :
    ∃ key, Inserted code a r u.pc key ∧ PoolAccess sem code a r blk u key := by
  have hsplit : xs ++ [tailPiece a r] = xs ++ tailPiece a r :: [] := rfl
  have hcode := hi.holds_piece hblk hsplit
  obtain ⟨k, hslot, haddr⟩ := hi.slot (List.mem_append_right _ (List.mem_singleton_self _))
    (List.mem_singleton_self _)
  have hfront := hi.front_length hend
  rw [← hi.translation.mark_end hend] at hcode
  obtain ⟨hlt, hadd⟩ := haddr (mark code a i).2 (by omega)
  obtain ⟨⟨j, hj, hpc⟩, haccess⟩ := longJump_access hcode hlt hslot hadd hrun
  exact ⟨_, ⟨i, j, hpc, .inr ⟨hend, rfl, hj⟩⟩, haccess⟩

/-- Without an `auipc` that writes `x0`, the code of an instruction is a copy or accesses nothing
but the pool, and so does what follows it. -/
theorem mark_access (hi : Installed code a r xs position pool) (hblk : Holds blk r.backup r.block)
    {i : ℕ} (hlt : (mark code a i).1 < r.overwriteSize)
    (hauipc : ∀ imm, decode (fetch code (a + BitVec.ofNat 64 (mark code a i).1)) ≠ .auipc 0 imm)
    (hrun : RunsWithin (next sem blk) (Stays blk r.backup r.block.length)
      ⟨r.backup + BitVec.ofNat 64 (mark code a i).2, d⟩ u) :
    PoolOrCopy sem code a r blk u ∨ ∃ d', RunsWithin (next sem blk)
      (Stays blk r.backup r.block.length)
      ⟨r.backup + BitVec.ofNat 64 (mark code a (i + 1)).2, d'⟩ u := by
  obtain ⟨x, hmem, hx, hle, hcode⟩ := hi.exists_piece hlt
  replace hcode := hcode blk hblk
  have hinserted : ∀ key, recorded code (a + BitVec.ofNat 64 (mark code a i).1) = some key →
      (∃ j < emittedSize code (a + BitVec.ofNat 64 (mark code a i).1),
        u.pc = r.backup + BitVec.ofNat 64 (mark code a i).2 + BitVec.ofNat 64 j) →
      Inserted code a r u.pc key := by
    rintro key hkey ⟨j, hj, hpc⟩
    exact ⟨i, j, hpc, .inl ⟨hlt, hkey, hj⟩⟩
  rw [mark_succ]
  dsimp only
  rw [← add_ofNat_add]
  unfold Translates at hx
  generalize hp : a + BitVec.ofNat 64 (mark code a i).1 = p at *
  cases hd : decode (fetch code p) with
  | auipc rd imm =>
    rw [hd] at hx
    obtain rfl := hx
    obtain ⟨k, hslot, haddr⟩ := hi.slot hmem (List.mem_singleton_self _)
    obtain ⟨hlt', hadd⟩ := haddr (mark code a i).2 (by omega)
    have hsize : emittedSize code p = 8 := by rw [emittedSize, hd]
    rw [hsize] at hinserted ⊢
    refine (load_access (fun h0 => hauipc imm (h0 ▸ hd)) hcode hlt' hslot hadd hrun).imp ?_ id
    rintro ⟨hpc, h⟩
    exact .inr ⟨_, hinserted _ (by rw [recorded, hd]) hpc, h⟩
  | jal rd offset =>
    rw [hd] at hx
    obtain rfl := hx
    obtain ⟨k, hslot, haddr⟩ := hi.slot hmem (List.mem_singleton_self _)
    obtain ⟨hlt', hadd⟩ := haddr (mark code a i).2 (by omega)
    have hsize : emittedSize code p = 12 := by rw [emittedSize, hd]
    rw [hsize] at hinserted
    obtain ⟨hpc, h⟩ := longJump_access hcode hlt' hslot hadd hrun
    exact .inl (.inr ⟨_, hinserted _ (by rw [recorded, hd]) hpc, h⟩)
  | branch cond rs1 rs2 offset =>
    rw [hd] at hx
    obtain ⟨n, rfl⟩ := hx
    have hxsize : (Piece.branch n cond rs1 rs2 (p + offset)).size = 20 := by
      simp [Piece.size, Piece.raw]
    obtain ⟨k, hslot, haddr⟩ := hi.slot hmem (List.mem_singleton_self _)
    obtain ⟨hlt', hadd⟩ := haddr ((mark code a i).2 + 8) (by omega)
    have hsize : emittedSize code p = 20 := by rw [emittedSize, hd]
    rw [hsize] at hinserted ⊢
    rw [← add_ofNat_add] at hadd
    refine (branch_access hcode hlt' hslot hadd hrun).imp ?_ id
    rintro ⟨hpc, h⟩
    exact .inr ⟨_, hinserted _ (by rw [recorded, hd]) hpc, h⟩
  | lui | jalr | ld | other =>
    rw [hd] at hx
    obtain rfl := hx
    have hnone : recorded code p = none := by rw [recorded, hd]
    have hsize : emittedSize code p = lenAt code p := by rw [emittedSize, hd]
    rw [hsize]
    refine (copy_next hnone hcode hrun).imp (fun hpc => .inl ⟨i, hlt, ?_, hpc⟩) id
    rwa [hp]

/-- The same for all that is executed until the block jumps away. -/
theorem run_access (hi : Installed code a r xs position pool) (hblk : Holds blk r.backup r.block)
    (hauipc : ∀ i, (mark code a i).1 < r.overwriteSize → ∀ imm,
      decode (fetch code (a + BitVec.ofNat 64 (mark code a i).1)) ≠ .auipc 0 imm) (m : ℕ) {i : ℕ}
    (hm : (mark code a i).1 + m = r.overwriteSize)
    (hrun : RunsWithin (next sem blk) (Stays blk r.backup r.block.length)
      ⟨r.backup + BitVec.ofNat 64 (mark code a i).2, d⟩ u) : PoolOrCopy sem code a r blk u := by
  induction m using Nat.strong_induction_on generalizing i d with
  | _ m ih =>
  rcases (Nat.le.intro hm).eq_or_lt with hend | hlt
  · exact .inr (tail_access hi hblk hend hrun)
  · rcases mark_access hi hblk hlt (hauipc i hlt) hrun with h | ⟨d', h⟩
    · exact h
    · have hsucc := hi.translation.mark_succ_le hlt
      have hlen := lenAt_cases code (a + BitVec.ofNat 64 (mark code a i).1)
      have hmark : (mark code a (i + 1)).1 = _ := congrArg Prod.fst (mark_succ i)
      dsimp only at hmark
      exact ih (r.overwriteSize - (mark code a (i + 1)).1) (by omega) (by omega) h

/-! ### Loads of `x0` -/

/-- Allocations lie neither in the first nor in the last page of the address space. -/
def UserHeaps (heaps : ℕ → Option Word) : Prop :=
  ∀ n p, Memory.alloc heaps n = some p → 0x1000 ≤ p.toNat ∧ p.toNat + n ≤ 2 ^ 64 - 0x1000

theorem UserHeaps.block (h : UserHeaps heaps) (hok : relocate heaps code a size = .ok r) :
    0x1000 ≤ r.backup.toNat ∧ r.backup.toNat + r.block.length ≤ 2 ^ 64 - 0x1000 := by
  obtain ⟨_, _, b, -, -, -, halloc, -, hblock⟩ := relocate_cases hok
  rw [hblock]
  exact h _ _ halloc

theorem mark_mono {i j : ℕ} (h : i ≤ j) :
    (mark code a i).1 ≤ (mark code a j).1 ∧ (mark code a i).2 ≤ (mark code a j).2 := by
  induction h with
  | refl => exact ⟨le_rfl, le_rfl⟩
  | @step j _ ih =>
    rw [mark_succ]
    exact ⟨ih.1.trans (Nat.le_add_right _ _), ih.2.trans (Nat.le_add_right _ _)⟩

/-- The `ld` emitted for an `auipc` is not the copy of an instruction. -/
theorem not_copied (hi : Installed code a r xs position pool) {i : ℕ}
    (hlt : (mark code a i).1 < r.overwriteSize) {rd : Reg} {imm : Word}
    (hd : decode (fetch code (a + BitVec.ofNat 64 (mark code a i).1)) = .auipc rd imm) :
    ¬ Copied code a r (r.backup + BitVec.ofNat 64 ((mark code a i).2 + 4)) := by
  rintro ⟨j, hj, -, heq⟩
  obtain ⟨x, -, hx, hle, -⟩ := hi.exists_piece hlt
  obtain ⟨y, -, -, hle', -⟩ := hi.exists_piece hj
  have hsize : x.size = 8 := by rw [hx.size_eq, emittedSize, hd]
  have hfront := hi.front_le
  have hlen := hi.length
  have hk512 : kHeapSize / 2 = 524288 := rfl
  have hsucc : (mark code a (i + 1)).2 = (mark code a i).2 + 8 := by
    rw [mark_succ, ← hx.size_eq, hsize]
  have hnat := congrArg BitVec.toNat (add_left_cancel heq)
  rw [BitVec.toNat_ofNat, BitVec.toNat_ofNat, Nat.mod_eq_of_lt (by omega),
    Nat.mod_eq_of_lt (by omega)] at hnat
  rcases Nat.lt_or_ge i j with h | h
  · have hmono : (mark code a (i + 1)).2 ≤ (mark code a j).2 := (mark_mono h).2
    omega
  · have hmono : (mark code a j).2 ≤ (mark code a i).2 := (mark_mono h).2
    omega

/-- The low part of an offset is less than half a page, in either direction. -/
theorem toNat_signExtend_small (v : BitVec 12) :
    (v.signExtend 64).toNat < 0x1000 ∨ 2 ^ 64 - 0x1000 ≤ (v.signExtend 64).toNat := by
  have hv := v.isLt
  rw [BitVec.toNat_signExtend, BitVec.toNat_setWidth]
  split <;> omega

/-- A load of `x0` through the pool reads next to address zero instead. -/
theorem not_readsPool [Nonempty Ω] (sem : BitVec 32 → Core Ω → Core Ω) (hheaps : UserHeaps heaps)
    (hok : relocate heaps code a size = .ok r) {i : ℕ}
    (hlt : (mark code a i).1 < r.overwriteSize) {imm : Word}
    (hd : decode (fetch code (a + BitVec.ofNat 64 (mark code a i).1)) = .auipc 0 imm) :
    ¬ ReadsPool sem code a r := by
  intro h
  obtain ⟨xs, position, pool, hi⟩ := relocate_installed hok
  obtain ⟨x, -, hx, hle, hcode⟩ := hi.exists_piece hlt
  have hfront := hi.front_le
  have hblk : Holds (store (fun _ => 0) r.backup r.block) r.backup r.block :=
    holds_store _ _ (hi.length.le.trans (by decide))
  generalize store (fun _ => 0) r.backup r.block = blk at hblk
  replace hcode := hcode blk hblk
  unfold Translates at hx
  rw [hd] at hx
  obtain rfl := hx
  have hsize : (Piece.load 0 (a + BitVec.ofNat 64 (mark code a i).1 + imm)).size = 8 := by
    simp [Piece.size, Piece.raw]
  obtain ⟨h1, h2⟩ := holds_append.mp hcode
  rw [length_toBytes] at h2
  let d : Core Ω := ⟨fun _ => 0, fun _ => 0, Classical.arbitrary Ω, blk⟩
  obtain ⟨hd1, hs1⟩ := next_auipc sem h1 d
  obtain ⟨hd2, -⟩ := next_ld sem h2 d
  have hstays : Stays blk r.backup r.block.length
      (⟨r.backup + BitVec.ofNat 64 (mark code a i).2, d⟩ : State Ω) := by
    refine ⟨inRange_add (by omega), ?_⟩
    rintro ⟨rd, rs1, o, hj⟩
    exact absurd (hd1.symm.trans hj) (by simp)
  have hrun : RunsWithin (next sem blk) (Stays blk r.backup r.block.length)
      ⟨r.backup + BitVec.ofNat 64 (mark code a i).2, d⟩
      ⟨r.backup + BitVec.ofNat 64 (mark code a i).2 + 4#64, d⟩ := .single hstays hs1
  rcases h blk hblk i hlt.le d _ hrun with hcopy | ⟨key, -, haccess⟩
  · dsimp only at hcopy
    rw [add_ofNat_add] at hcopy
    exact not_copied hi hlt hd hcopy
  · obtain ⟨k, hslot, haddr, -⟩ := haccess.reads _ (by rw [readAddress, hd2])
    obtain ⟨hlow, hhigh⟩ := hheaps.block hok
    have hbounds := hslot.bounds
    have hnat := congrArg BitVec.toNat haddr
    rw [Core.reg_zero, BitVec.toNat_add r.backup, BitVec.toNat_ofNat, Nat.mod_eq_of_lt (b := 2 ^ 64)
      (by omega), Nat.mod_eq_of_lt (by omega)] at hnat
    rcases toNat_signExtend_small
      ((position (.address (a + BitVec.ofNat 64 (mark code a i).1 + imm)) -
        BitVec.ofNat 32 (mark code a i).2).setWidth 12) with h | h
    all_goals
      rw [show (0 : Word) + BitVec.signExtend 64 _ = _ from BitVec.zero_add _] at hnat
      omega

/-- The inserted code accesses nothing but the pool if and only if no instruction of the window is
an `auipc` that writes `x0`. -/
theorem readsPool_iff [Nonempty Ω] (sem : BitVec 32 → Core Ω → Core Ω) (hheaps : UserHeaps heaps)
    (hok : relocate heaps code a size = .ok r) :
    ReadsPool sem code a r ↔ ∀ i, ((mark code a i).1 : Int) < size → ∀ imm,
      decode (fetch code (a + BitVec.ofNat 64 (mark code a i).1)) ≠ .auipc 0 imm := by
  have hsize := mark_lt_overwriteSize_iff hok
  constructor
  · intro h i hi imm hd
    exact not_readsPool sem hheaps hok ((hsize i).mpr hi) hd h
  · intro h blk hblk i hi d u hrun
    obtain ⟨xs, position, pool, hinst⟩ := relocate_installed hok
    obtain ⟨m, hm⟩ := Nat.exists_eq_add_of_le hi
    exact run_access hinst hblk (fun j hj => h j ((hsize j).mp hj)) m hm.symm hrun

end Runs

theorem userHeaps_sample : UserHeaps fun _ => some 0x20000 := by
  intro n p h
  have hn := length_lt_of_alloc h
  unfold Memory.alloc at h
  rw [if_neg (by omega)] at h
  obtain rfl := Option.some.inj h
  have hk512 : kHeapSize / 2 = 524288 := rfl
  have hp : (0x20000 : Word).toNat = 0x20000 := rfl
  omega

/-- The relocated entry of a procedure linkage table reads its pool. -/
theorem readsPool_pltSample :
    ReadsPool (fun _ (c : Core Unit) => c) pltSample 0x1000 (loadRelocated 0x000e3e03) := by
  have hok : relocate (fun _ => some 0x20000) pltSample 0x1000 8 =
      .ok (loadRelocated 0x000e3e03) := by
    rfl
  refine (readsPool_iff _ userHeaps_sample hok).mpr ?_
  intro i hi imm
  have hsecond : (mark pltSample 0x1000 2).1 = 8 := by decide
  have hlt : i < 2 := by
    by_contra hge
    have hmono : (mark pltSample 0x1000 2).1 ≤ (mark pltSample 0x1000 i).1 :=
      (mark_mono (not_lt.mp hge)).1
    omega
  interval_cases i
  · have hd : decode (fetch pltSample (0x1000 + BitVec.ofNat 64 (mark pltSample 0x1000 0).1)) =
        .auipc t3 0x2000 := by decide
    rw [hd]
    simp [t3]
  · have hd : decode (fetch pltSample (0x1000 + BitVec.ofNat 64 (mark pltSample 0x1000 1).1)) =
        .ld t3 t3 0 := by decide
    rw [hd]
    simp

/-- The instruction `auipc x0, 0` at `0x1000`. -/
def auipcZeroSample : Mem := store (fun _ => 0) 0x1000 (toBytes 4 0x00000017#32)

/-- Its relocation to `0x20000`. -/
def auipcZeroRelocated : Relocated where
  overwriteSize := 4
  backup := 0x20000
  block := ldBytes 0 0x14 ++ (ldBytes t3 0x14 ++ jalrBytes 0 t3) ++
    (toBytes 8 0x1000#64 ++ toBytes 8 0x1004#64)

/-- The relocated `auipc` of `x0` reads outside the pool. -/
theorem auipcZero_not_readsPool :
    ∃ r, relocate (fun _ => some 0x20000) auipcZeroSample 0x1000 4 = .ok r ∧
      ¬ ReadsPool (fun _ (c : Core Unit) => c) auipcZeroSample 0x1000 r := by
  have hok : relocate (fun _ => some 0x20000) auipcZeroSample 0x1000 4 =
      .ok auipcZeroRelocated := by
    rfl
  have hd : decode (fetch auipcZeroSample
      (0x1000 + BitVec.ofNat 64 (mark auipcZeroSample 0x1000 0).1)) = .auipc 0 0 := by
    decide
  exact ⟨_, hok, not_readsPool _ userHeaps_sample hok (by decide) hd⟩

end Rv64Hook
