import Rv64Hook.SecondTrampoline

/-! What `sregs` saves and what `pregs` restores. -/
namespace Rv64Hook
open ByteMem Rv64 Asm

namespace SecondTrampoline

/-- The frame in bytes, and the slots in it. -/
def frameSize : ℕ := 8 * 65

def frameSlots : ℕ := 65

/-- The slots that `sregs` fills. -/
def savedSlots (storeRa : Bool) : List ℕ := (if storeRa then [1] else []) ++ List.range' 2 62

theorem mem_savedSlots {storeRa : Bool} {k : ℕ} :
    k ∈ savedSlots storeRa ↔ k = 1 ∧ storeRa = true ∨ 2 ≤ k ∧ k < 64 := by
  unfold savedSlots
  cases storeRa <;> simp [List.mem_range'_1]

/-- The slots of the integer registers and of the floating-point registers. -/
theorem slotOf_cases (k : ℕ) (hk : k < 64) :
    (∃ r : Reg, slotOf k = .x r ∧ r.toNat = k) ∨ ∃ r : Reg, slotOf k = .f r ∧ 32 + r.toNat = k := by
  unfold slotOf
  by_cases h : k < 32
  · left
    exact ⟨_, if_pos h, by simp only [BitVec.toNat_ofNat]; omega⟩
  · right
    exact ⟨_, if_neg h, by simp only [BitVec.toNat_ofNat]; omega⟩

theorem slotOf_injective {j k : ℕ} (hj : j < 64) (hk : k < 64) (h : slotOf j = slotOf k) :
    j = k := by
  rcases slotOf_cases j hj with ⟨q, hq, rfl⟩ | ⟨q, hq, rfl⟩ <;>
    rcases slotOf_cases k hk with ⟨r, hr, rfl⟩ | ⟨r, hr, rfl⟩ <;>
    rw [hq, hr] at h <;> cases h <;> rfl

theorem slotOf_x (r : Reg) : slotOf r.toNat = .x r := by
  have hlt : r.toNat < 32 := r.isLt
  simp [slotOf, hlt]

theorem slotOf_f (r : Reg) : slotOf (32 + r.toNat) = .f r := by
  simp [slotOf]

variable {Ω : Type} {data b : Word} {c d : Cpu Ω} {k : ℕ}

/-- The frame that `sregs` makes below the stack pointer. -/
def frameBase (c : Cpu Ω) : Word := c.reg sp - BitVec.ofNat 64 frameSize

/-- A frame whose slots hold the registers of a state. -/
structure Saved (storeRa : Bool) (c d : Cpu Ω) : Prop where
  sp : d.reg sp = frameBase c
  x : ∀ r, r ≠ Rv64.sp → d.x r = c.x r
  f : d.f = c.f
  rest : d.rest = c.rest
  slots : ∀ k < frameSlots, slotAt d.mem (frameBase c) k =
    if k ∈ savedSlots storeRa then (slotOf k).value c else slotAt c.mem (frameBase c) k
  frame : ∀ p, ¬ InRange (frameBase c) frameSize p → d.mem p = c.mem p

/-- `sregs` saves every register but `zero`, and writes nothing outside the frame. -/
theorem sregs_saved (data : Word) (c : Cpu Ω) (storeRa : Bool) :
    Saved storeRa c (execAll data c (sregs storeRa)) := by
  let b := frameBase c
  have htop : c.reg sp + -(8 * 63) = b + BitVec.ofNat 64 (8 * 2) := by
    change c.reg sp + -(8 * 63) = c.reg sp - 520 + 16
    rw [BitVec.sub_eq_add_neg, BitVec.add_assoc]
    rfl
  have hbase : c.reg sp + -(8 * 65) = b := (BitVec.sub_eq_add_neg _ _).symm
  let c₁ : Cpu Ω := { c with mem := store c.mem (b + BitVec.ofNat 64 (8 * 2)) (toBytes 8 (c.reg sp)) }
  let c₂ : Cpu Ω := c₁.setReg sp b
  let ks := (if storeRa then [1] else []) ++ List.range' 3 61
  have hfirst : exec data c (.sd sp (-(8 * 63)) sp) = c₁ :=
    congrArg (fun a => ({ c with mem := store c.mem a (toBytes 8 (c.reg sp)) } : Cpu Ω)) htop
  have hsecond : exec data c₁ (.addi sp sp (-(8 * 65))) = c₂ := congrArg (c₁.setReg sp) hbase
  have hstart : execAll data c (sregs storeRa) =
      execAll data c₂ (ks.map fun k => saveAt sp (slotOf k) k) := by
    rw [sregs_eq, execAll_append, ← hsecond, ← hfirst]
    rfl
  have hks : ∀ k ∈ ks, k < frameSlots ∧ k < 64 ∧ k ≠ 2 := by
    intro k hk
    have hmem : k = 1 ∨ 3 ≤ k ∧ k < 64 := by
      cases storeRa with
      | true => simpa [ks, List.mem_range'_1] using hk
      | false => exact .inr (by simpa [ks, List.mem_range'_1] using hk)
    unfold frameSlots
    omega
  have hmem : ∀ k, k ∈ savedSlots storeRa ↔ k ∈ ks ∨ k = 2 := by
    intro k
    rw [mem_savedSlots]
    cases storeRa <;> simp [ks, List.mem_range'_1] <;> omega
  have hvalue : ∀ k ∈ ks, (slotOf k).value c₂ = (slotOf k).value c := by
    intro k hk
    obtain ⟨-, hlt, hne⟩ := hks k hk
    rcases slotOf_cases k hlt with ⟨r, hr, hk'⟩ | ⟨r, hr, -⟩
    · rw [hr]
      exact Core.reg_setReg_of_ne fun h => hne (by rw [← hk', h]; rfl)
    · rw [hr]
      exact congrFun (Core.setReg_f c₁ sp b) r
  have hsp : c₂.reg sp = b := Core.reg_setReg_self (by decide)
  have hsave : ∃ m, execAll data c₂ (ks.map fun k => saveAt sp (slotOf k) k) =
      { c₂ with mem := m } ∧
      (∀ k < frameSlots, slotAt m b k = if k ∈ ks then (slotOf k).value c₂ else slotAt c₂.mem b k) ∧
      ∀ p, ¬ InRange b frameSize p → m p = c₂.mem p :=
    execAll_save hsp (by decide) fun k hk => (hks k hk).1
  obtain ⟨m, hm, hslots, hframe⟩ := hsave
  rw [hstart, hm]
  have hother : ∀ k < frameSlots, k ≠ 2 → slotAt c₂.mem b k = slotAt c.mem b k := by
    intro k hk hne
    have hk' : k < 65 := hk
    change slotAt (c₁.setReg sp b).mem b k = _
    rw [Core.setReg_mem]
    exact load_store_apart (by omega) (by omega) (by omega)
  refine ⟨hsp, fun r hr => ?_, ?_, ?_, fun k hk => ?_, fun p hp => ?_⟩
  · exact Core.setReg_x_of_ne hr
  · exact Core.setReg_f c₁ sp b
  · exact Core.setReg_rest c₁ sp b
  · refine (hslots k hk).trans ?_
    by_cases hin : k ∈ ks
    · rw [if_pos hin, if_pos ((hmem k).mpr (.inl hin)), hvalue k hin]
    · rw [if_neg hin]
      by_cases h2 : k = 2
      · subst h2
        rw [if_pos ((hmem 2).mpr (.inr rfl))]
        change slotAt (c₁.setReg sp b).mem b 2 = _
        rw [Core.setReg_mem]
        exact load_store_self _ _ _
      · rw [if_neg fun h => ((hmem k).mp h).elim hin h2]
        exact hother k hk h2
  · refine (hframe p hp).trans ?_
    change (c₁.setReg sp b).mem p = c.mem p
    rw [Core.setReg_mem]
    refine store_of_not_inRange fun hin => hp ?_
    rw [length_toBytes, inRange_offset (by decide)] at hin
    exact hin.2.trans (by decide)

/-- `pregs` gives every register but `zero` what is in its slot. -/
theorem pregs_restores (data : Word) (hb : c.reg sp = b) :
    (execAll data c pregs).mem = c.mem ∧ (execAll data c pregs).rest = c.rest ∧
      (∀ r : Reg, r ≠ 0 → (execAll data c pregs).x r = slotAt c.mem b r.toNat) ∧
      ∀ r : Reg, (execAll data c pregs).f r = slotAt c.mem b (32 + r.toNat) := by
  let ks := (List.range' 3 61).reverse ++ [1]
  have hks : ∀ k, k ∈ ks ↔ k = 1 ∨ 3 ≤ k ∧ k < 64 := by
    intro k
    simp [ks, List.mem_range'_1]
    omega
  have hother : ∀ k ∈ ks, slotOf k ≠ .x sp ∧ slotOf k ≠ .x 0 := by
    intro k hk
    have hcases := (hks k).mp hk
    have hne : ∀ j < 64, j ≠ k → slotOf k ≠ slotOf j := fun j hj hjk h =>
      hjk (slotOf_injective hj (by omega) h.symm)
    exact ⟨hne 2 (by decide) (by omega), hne 0 (by decide) (by omega)⟩
  have hlt : ∀ k ∈ ks, k < 64 := fun k hk => by
    have := (hks k).mp hk
    omega
  let c₁ := execAll data c (ks.map fun k => restoreAt sp (slotOf k) k)
  have hrestore : c₁.mem = c.mem ∧ c₁.rest = c.rest ∧
      (∀ k ∈ ks, (slotOf k).value c₁ = slotAt c.mem b k) ∧
      ∀ r : Register, (∀ k ∈ ks, r ≠ slotOf k) → r.value c₁ = r.value c :=
    execAll_restore hb hother fun i hi j hj => slotOf_injective (hlt i hi) (hlt j hj)
  obtain ⟨hmem, hrest, hin, hout⟩ := hrestore
  have hlast : execAll data c pregs = c₁.setReg sp (slotAt c.mem b 2) := by
    rw [pregs_eq, execAll_append]
    change c₁.setReg sp ((load 64 c₁.mem (c₁.reg sp + 8 * 2)).signExtend 64) = _
    have hsp : c₁.reg sp = b := by
      have hkeep := hout (.x sp) fun k hk h => (hother k hk).1 h.symm
      exact hkeep.trans hb
    rw [BitVec.signExtend_eq, hsp, show c₁.mem = c.mem from hmem]
    rfl
  rw [hlast]
  refine ⟨(Core.setReg_mem ..).trans hmem, (Core.setReg_rest ..).trans hrest, fun r hr => ?_,
    fun r => ?_⟩
  · by_cases hsp : r = sp
    · subst hsp
      exact Core.setReg_x_self (by decide)
    · have hk : r.toNat ∈ ks := by
        have hlt : r.toNat < 32 := r.isLt
        have h0 : r.toNat ≠ 0 := fun h => hr (BitVec.eq_of_toNat_eq h)
        have h2 : r.toNat ≠ 2 := fun h => hsp (BitVec.eq_of_toNat_eq h)
        rw [hks]
        omega
      rw [Core.setReg_x_of_ne hsp, ← Core.reg_of_ne hr]
      have hvalue := hin _ hk
      rw [slotOf_x] at hvalue
      exact hvalue
  · have hlt : r.toNat < 32 := r.isLt
    have hk : 32 + r.toNat ∈ ks := by
      rw [hks]
      omega
    have hvalue := hin _ hk
    rw [slotOf_f] at hvalue
    rw [Core.setReg_f]
    exact hvalue

/-- The state whose registers and memory are all zero. -/
def zeroCpu : Cpu Unit where
  x := fun _ => 0
  f := fun _ => 0
  rest := ⟨fun _ => 0, ()⟩
  mem := fun _ => 0

end SecondTrampoline
end Rv64Hook
