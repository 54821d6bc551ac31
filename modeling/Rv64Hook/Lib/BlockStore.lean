import Rv64Hook.Lib.ByteMem

/-! Blocks of memory as their holders see them: an address, and the bytes that were written last. -/
namespace BlockStore
open ByteMem

/-- The bytes of the blocks that are held, by their addresses. -/
abbrev Store := Addr → Option (List Byte)

namespace Store

variable {s : Store} {m m' : Mem} {p q : Addr} {bs bytes : List Byte} {offset n : ℕ}

/-- The bytes with those from the offset on replaced. -/
def writeAt (bs : List Byte) (offset : ℕ) (bytes : List Byte) : List Byte :=
  bs.take offset ++ bytes ++ bs.drop (offset + bytes.length)

def insert (s : Store) (p : Addr) (bs : List Byte) : Store := Function.update s p (some bs)

def erase (s : Store) (p : Addr) : Store := Function.update s p none

def write (s : Store) (p : Addr) (offset : ℕ) (bytes : List Byte) : Store :=
  Function.update s p ((s p).map (writeAt · offset bytes))

/-- No two blocks overlap. -/
def Apart (s : Store) : Prop :=
  ∀ p q bs cs, s p = some bs → s q = some cs → p ≠ q →
    ∀ x, InRange p bs.length x → ¬ InRange q cs.length x

/-- The memory holds the bytes of every block. -/
def Represents (m : Mem) (s : Store) : Prop := ∀ p bs, s p = some bs → Holds m p bs

@[simp] theorem length_writeAt (h : offset + bytes.length ≤ bs.length) :
    (writeAt bs offset bytes).length = bs.length := by
  simp only [writeAt, List.length_append, List.length_take, List.length_drop]
  omega

@[simp] theorem insert_self : s.insert p bs p = some bs := by
  simp [insert]

theorem insert_of_ne (h : q ≠ p) : s.insert p bs q = s q := by
  simp [insert, h]

@[simp] theorem erase_self : s.erase p p = none := by
  simp [erase]

theorem erase_of_ne (h : q ≠ p) : s.erase p q = s q := by
  simp [erase, h]

theorem erase_of_none (h : s p = none) : s.erase p = s := by
  unfold erase
  rw [← h, Function.update_eq_self]

@[simp] theorem write_self : s.write p offset bytes p = (s p).map (writeAt · offset bytes) := by
  simp [write]

theorem write_of_ne (h : q ≠ p) : s.write p offset bytes q = s q := by
  simp [write, h]

/-- A block that is held after another one is given back was held before. -/
theorem of_erase (h : s.erase p q = some bs) : q ≠ p ∧ s q = some bs := by
  by_cases hq : q = p
  · simp [hq] at h
  · exact ⟨hq, (erase_of_ne hq).symm.trans h⟩

/-- Bytes written over some of those that are held. -/
theorem holds_writeAt (h : Holds m p bs) (hfits : offset + bytes.length ≤ bs.length)
    (hlen : bs.length ≤ 2 ^ 64) :
    Holds (store m (p + BitVec.ofNat 64 offset) bytes) p (writeAt bs offset bytes) := by
  obtain ⟨xs, ys, zs, rfl, rfl, hys⟩ : ∃ xs ys zs, bs = xs ++ ys ++ zs ∧ xs.length = offset ∧
      ys.length = bytes.length := by
    refine ⟨bs.take offset, (bs.drop offset).take bytes.length,
      (bs.drop offset).drop bytes.length, ?_, ?_, ?_⟩
    · rw [List.append_assoc, List.take_append_drop, List.take_append_drop]
    · simp
      omega
    · simp
      omega
  have hnew : writeAt (xs ++ ys ++ zs) xs.length bytes = xs ++ bytes ++ zs := by
    simp [writeAt, ← hys]
  simp only [List.length_append] at hfits hlen
  rw [holds_append, holds_append, List.length_append] at h
  rw [hnew, holds_append, holds_append, List.length_append]
  obtain ⟨⟨hx, -⟩, hz⟩ := h
  constructor
  · have hzero : ∀ m : Mem, Holds m (p + BitVec.ofNat 64 0) xs ↔ Holds m p xs := by simp
    have hfirst := (hzero m).mpr hx
    exact ⟨(hzero _).mp (holds_store_of_disjoint (by omega) (by omega) (by omega) hfirst),
      holds_store m _ (by omega)⟩
  · rw [hys] at hz
    exact holds_store_of_disjoint (by omega) (by omega) (by omega) hz

namespace Represents

/-- The store depends on the bytes of its blocks only. -/
theorem congr (h : Represents m s)
    (hm : ∀ p bs, s p = some bs → ∀ x, InRange p bs.length x → m' x = m x) : Represents m' s := by
  intro p bs hp
  exact (bytesAt_congr (hm p bs hp)).trans (h p bs hp)

theorem erase (h : Represents m s) : Represents m (s.erase p) :=
  fun q cs hq => h q cs (of_erase hq).2

/-- A new block is held with the bytes found in it. -/
theorem insert (h : Represents m s) : Represents m (s.insert p (bytesAt m p n)) := by
  intro q cs hq
  by_cases hne : q = p
  · subst hne
    obtain rfl := Option.some.inj (insert_self.symm.trans hq)
    simp [Holds]
  · exact h q cs ((insert_of_ne hne).symm.trans hq)

/-- The holder of a block writes into it. -/
theorem write (h : Represents m s) (ha : s.Apart) (hp : s p = some bs)
    (hfits : offset + bytes.length ≤ bs.length) (hlen : bs.length ≤ 2 ^ 64) :
    Represents (store m (p + BitVec.ofNat 64 offset) bytes) (s.write p offset bytes) := by
  intro q cs hq
  by_cases hne : q = p
  · subst hne
    rw [write_self, hp] at hq
    obtain rfl := Option.some.inj hq
    exact holds_writeAt (h q bs hp) hfits hlen
  · rw [write_of_ne hne] at hq
    apply (bytesAt_congr ?_).trans (h q cs hq)
    intro x hx
    apply store_of_not_inRange
    intro hxp
    rw [inRange_offset (by omega)] at hxp
    apply ha p q bs cs hp hq (Ne.symm hne) x _ hx
    unfold InRange
    omega

end Represents

end Store
end BlockStore
