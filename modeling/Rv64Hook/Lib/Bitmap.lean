import Mathlib

/-! Bitmaps in lists of bytes. An access outside the list gives `none`. -/
namespace Bitmap

/-- Bit `i` of the map. -/
def bit (t : List (BitVec 8)) (i : ℕ) : Option Bool := (t[i / 8]?).map (·.getLsbD (i % 8))

/-- One bit of a byte is changed. -/
def modify (f : BitVec 8 → BitVec 8 → BitVec 8) (t : List (BitVec 8)) (i : ℕ) :
    Option (List (BitVec 8)) :=
  (t[i / 8]?).map fun b => t.set (i / 8) (f b (1#8 <<< (i % 8)))

def setBit : List (BitVec 8) → ℕ → Option (List (BitVec 8)) := modify fun b mask => b ||| mask

def clearBit : List (BitVec 8) → ℕ → Option (List (BitVec 8)) :=
  modify fun b mask => b &&& ~~~mask

/-- The change of the `n` bits from `i` on. -/
def modifyAll (f : List (BitVec 8) → ℕ → Option (List (BitVec 8))) :
    ℕ → ℕ → List (BitVec 8) → Option (List (BitVec 8))
  | 0, _, t => some t
  | n + 1, i, t => do
    let t ← f t i
    modifyAll f n (i + 1) t

def setBits (n i : ℕ) (t : List (BitVec 8)) : Option (List (BitVec 8)) := modifyAll setBit n i t

def clearBits (n i : ℕ) (t : List (BitVec 8)) : Option (List (BitVec 8)) :=
  modifyAll clearBit n i t

variable {t : List (BitVec 8)} {f : BitVec 8 → BitVec 8 → BitVec 8} {v : Bool} {i n : ℕ}

theorem bit_eq_some (h : i < 8 * t.length) : ∃ b, bit t i = some b := by
  have hlt : i / 8 < t.length := by omega
  exact ⟨_, by rw [bit, List.getElem?_eq_getElem hlt, Option.map_some]⟩

theorem lt_of_bit (h : bit t i = some v) : i < 8 * t.length := by
  unfold bit at h
  obtain ⟨b, hb, -⟩ := Option.map_eq_some_iff.mp h
  have hlt := (List.getElem?_eq_some_iff.mp hb).1
  omega

theorem getLsbD_mask {j k : ℕ} (hk : k < 8) : (1#8 <<< j).getLsbD k = decide (k = j) := by
  rw [BitVec.getLsbD_shiftLeft, BitVec.getLsbD_one]
  by_cases hkj : k = j
  · subst hkj
    simp [hk]
  · have hsub : k < j ∨ k - j ≠ 0 := by omega
    rcases hsub with hlt | hne
    · simp [hlt, hkj]
    · simp [hne, hkj]

/-- A change that gives the masked bit the value `v` and keeps the others. -/
theorem modify_eq (hf : ∀ b j k, k < 8 → (f b (1#8 <<< j)).getLsbD k =
      if k = j then v else b.getLsbD k) (h : i < 8 * t.length) :
    ∃ t', modify f t i = some t' ∧ t'.length = t.length ∧
      ∀ j, bit t' j = if j = i then some v else bit t j := by
  have hlt : i / 8 < t.length := by omega
  refine ⟨t.set (i / 8) (f t[i / 8] (1#8 <<< (i % 8))), ?_, List.length_set .., fun j => ?_⟩
  · rw [modify, List.getElem?_eq_getElem hlt, Option.map_some]
  unfold bit
  by_cases hj : j / 8 = i / 8
  · rw [hj, List.getElem?_set_self hlt, Option.map_some, hf _ _ _ (Nat.mod_lt _ (by decide)),
      List.getElem?_eq_getElem hlt, Option.map_some]
    by_cases hmod : j % 8 = i % 8
    · rw [if_pos hmod, if_pos (by omega)]
    · rw [if_neg hmod, if_neg (by rintro rfl; exact hmod rfl)]
  · rw [List.getElem?_set_ne (Ne.symm hj), if_neg (by rintro rfl; exact hj rfl)]

theorem modifyAll_eq {g : List (BitVec 8) → ℕ → Option (List (BitVec 8))}
    (hg : ∀ (t : List (BitVec 8)) i, i < 8 * t.length → ∃ t', g t i = some t' ∧
      t'.length = t.length ∧ ∀ j, bit t' j = if j = i then some v else bit t j)
    (h : i + n ≤ 8 * t.length) :
    ∃ t', modifyAll g n i t = some t' ∧ t'.length = t.length ∧
      ∀ j, bit t' j = if i ≤ j ∧ j < i + n then some v else bit t j := by
  induction n generalizing i t with
  | zero => exact ⟨t, rfl, rfl, fun j => by rw [if_neg (by omega)]⟩
  | succ n ih =>
    obtain ⟨t₁, ht₁, hlen₁, hbit₁⟩ := hg t i (by omega)
    obtain ⟨t₂, ht₂, hlen₂, hbit₂⟩ := ih (t := t₁) (i := i + 1) (by omega)
    refine ⟨t₂, by rw [modifyAll, ht₁]; exact ht₂, hlen₂.trans hlen₁, fun j => ?_⟩
    rw [hbit₂, hbit₁]
    split_ifs with h₁ h₂ h₃ h₄ h₅ <;> first | rfl | omega

/-- The bits of a range are set, and no others change. -/
theorem setBits_eq (h : i + n ≤ 8 * t.length) :
    ∃ t', setBits n i t = some t' ∧ t'.length = t.length ∧
      ∀ j, bit t' j = if i ≤ j ∧ j < i + n then some true else bit t j := by
  refine modifyAll_eq (fun t i hi => modify_eq (fun b j k hk => ?_) hi) h
  rw [BitVec.getLsbD_or, getLsbD_mask hk]
  by_cases hkj : k = j <;> simp [hkj]

/-- The bits of a range are cleared, and no others change. -/
theorem clearBits_eq (h : i + n ≤ 8 * t.length) :
    ∃ t', clearBits n i t = some t' ∧ t'.length = t.length ∧
      ∀ j, bit t' j = if i ≤ j ∧ j < i + n then some false else bit t j := by
  refine modifyAll_eq (fun t i hi => modify_eq (fun b j k hk => ?_) hi) h
  rw [BitVec.getLsbD_and, BitVec.getLsbD_not, getLsbD_mask hk]
  by_cases hkj : k = j <;> simp [hkj, hk]

end Bitmap
