import Mathlib

/-! Linked lists in a heap of objects. A link gives the successor of a live object and `none`
elsewhere, so that following it from a dead object is never a list. -/
namespace LinkedList

variable {P : Type*}

/-- Following the link from `p` visits the objects of the list and arrives at `q`. -/
def Seg (link : P → Option P) : P → List P → P → Prop
  | p, [], q => p = q
  | p, x :: xs, q => p = x ∧ ∃ r, link x = some r ∧ Seg link r xs q

variable {link link' : P → Option P} {p q r x : P} {xs ys : List P}

@[simp] theorem seg_nil : Seg link p [] q ↔ p = q := Iff.rfl

theorem seg_cons : Seg link p (x :: xs) q ↔ p = x ∧ ∃ r, link x = some r ∧ Seg link r xs q :=
  Iff.rfl

theorem seg_append : Seg link p (xs ++ ys) q ↔ ∃ r, Seg link p xs r ∧ Seg link r ys q := by
  induction xs generalizing p with
  | nil => simp
  | cons x xs ih =>
    rw [List.cons_append, seg_cons]
    constructor
    · rintro ⟨rfl, r, hr, h⟩
      obtain ⟨s, h1, h2⟩ := ih.mp h
      exact ⟨s, ⟨rfl, r, hr, h1⟩, h2⟩
    · rintro ⟨s, ⟨rfl, r, hr, h1⟩, h2⟩
      exact ⟨rfl, r, hr, ih.mpr ⟨s, h1, h2⟩⟩

theorem seg_concat : Seg link p (xs ++ [x]) q ↔ Seg link p xs x ∧ link x = some q := by
  rw [seg_append]
  constructor
  · rintro ⟨r, h, rfl, s, hs, rfl⟩
    exact ⟨h, hs⟩
  · rintro ⟨h, hx⟩
    exact ⟨x, h, rfl, q, hx, rfl⟩

namespace Seg

/-- A segment depends on the links of its objects only. -/
theorem congr (h : Seg link p xs q) (hl : ∀ x ∈ xs, link' x = link x) : Seg link' p xs q := by
  induction xs generalizing p with
  | nil => exact h
  | cons x xs ih =>
    obtain ⟨rfl, r, hr, h⟩ := h
    refine ⟨rfl, r, (hl p List.mem_cons_self).trans hr, ih h fun y hy => ?_⟩
    exact hl y (List.mem_cons_of_mem _ hy)

/-- The link of one object can change as long as the segment does not visit it. -/
theorem update [DecidableEq P] (h : Seg link p xs q) {o : Option P} (hx : x ∉ xs) :
    Seg (Function.update link x o) p xs q := by
  refine h.congr fun y hy => ?_
  have hne : y ≠ x := by
    rintro rfl
    exact hx hy
  rw [Function.update_of_ne hne]

/-- The objects of a segment are live. -/
theorem live (h : Seg link p xs q) (hx : x ∈ xs) : ∃ r, link x = some r := by
  induction xs generalizing p with
  | nil => cases hx
  | cons y xs ih =>
    obtain ⟨rfl, r, hr, h⟩ := h
    rcases List.mem_cons.mp hx with rfl | hx
    · exact ⟨r, hr⟩
    · exact ih h hx

/-- A link of an object leads to an object of the segment or to its end. -/
theorem link_mem (h : Seg link p xs q) (hx : x ∈ xs) (hr : link x = some r) :
    r ∈ xs ∨ r = q := by
  induction xs generalizing p with
  | nil => cases hx
  | cons y xs ih =>
    obtain ⟨rfl, u, hu, h⟩ := h
    rcases List.mem_cons.mp hx with rfl | hx
    · obtain rfl := Option.some.inj (hr.symm.trans hu)
      cases xs with
      | nil => exact .inr h
      | cons z xs =>
        obtain rfl := h.1
        exact .inl (by simp)
    · exact (ih h hx).imp_left (List.mem_cons_of_mem _)

/-- A list that ends in a dead object is determined by its first object. -/
theorem unique (hq : link q = none) (h : Seg link p xs q) (h' : Seg link p ys q) : xs = ys := by
  induction xs generalizing p ys with
  | nil =>
    cases ys with
    | nil => rfl
    | cons y ys =>
      obtain ⟨rfl, r, hr, -⟩ := h'
      obtain rfl := h
      rw [hq] at hr
      cases hr
  | cons x xs ih =>
    obtain ⟨rfl, r, hr, h⟩ := h
    cases ys with
    | nil =>
      obtain rfl := h'
      rw [hq] at hr
      cases hr
    | cons y ys =>
      obtain ⟨rfl, r', hr', h'⟩ := h'
      obtain rfl := Option.some.inj (hr.symm.trans hr')
      rw [ih h h']

/-- Such a list visits no object twice. -/
theorem nodup (hq : link q = none) (h : Seg link p xs q) : xs.Nodup := by
  induction xs generalizing p with
  | nil => exact List.nodup_nil
  | cons x xs ih =>
    have hwhole := h
    obtain ⟨rfl, r, hr, h⟩ := h
    refine List.nodup_cons.mpr ⟨fun hmem => ?_, ih h⟩
    obtain ⟨us, vs, rfl⟩ := List.append_of_mem hmem
    obtain ⟨t, -, hsuffix⟩ := seg_append.mp h
    obtain rfl := hsuffix.1
    have hlen := congrArg List.length (unique hq hwhole hsuffix)
    simp at hlen
    omega

theorem head_eq (h : Seg link p (x :: xs) q) : p = x := h.1

/-- Once an object of a list is dead, the list cannot be followed to its end. -/
theorem not_of_dead (hq : link q = none) (h : Seg link p xs q) (hx : x ∈ xs)
    (hdead : link' x = none) (hl : ∀ y ∈ xs, y ≠ x → link' y = link y) : ¬ Seg link' p ys q := by
  induction xs generalizing p ys with
  | nil => cases hx
  | cons y xs ih =>
    obtain ⟨rfl, r, hr, h⟩ := h
    intro h'
    cases ys with
    | nil =>
      obtain rfl := h'
      rw [hq] at hr
      cases hr
    | cons z ys =>
      obtain ⟨rfl, r', hr', h'⟩ := h'
      by_cases hpx : p = x
      · rw [hpx, hdead] at hr'
        cases hr'
      · rw [hl p List.mem_cons_self hpx, hr] at hr'
        obtain rfl := Option.some.inj hr'
        apply ih h _ _ h'
        · exact (List.mem_cons.mp hx).resolve_left (Ne.symm hpx)
        · intro w hw
          exact hl w (List.mem_cons_of_mem _ hw)

/-- The list starts at its end only when it is empty. -/
theorem eq_nil (hq : link q = none) (h : Seg link q xs q) : xs = [] :=
  h.unique hq rfl

/-- Taking out an object: its predecessor, if there is one, is linked to its successor. -/
theorem remove [DecidableEq P] (hq : link q = none)
    (h : Seg link p (xs ++ r :: x :: ys) q) {s : P} (hs : link x = some s) :
    Seg (Function.update link r (some s)) p (xs ++ r :: ys) q := by
  have hnodup := h.nodup hq
  obtain ⟨t, hxs, rfl, u, hu, rfl, s', hs', hys⟩ := seg_append.mp h
  obtain rfl := Option.some.inj (hs.symm.trans hs')
  rw [List.nodup_append, List.nodup_cons, List.nodup_cons] at hnodup
  obtain ⟨-, ⟨hr, -, -⟩, hdisj⟩ := hnodup
  refine seg_append.mpr ⟨t, hxs.update fun hmem => ?_, rfl, s, Function.update_self t _ link, ?_⟩
  · exact hdisj t hmem t List.mem_cons_self rfl
  · exact hys.update fun hmem => hr (List.mem_cons_of_mem _ hmem)

/-- Putting an object at the end. -/
theorem concat [DecidableEq P] (hq : link q = none) (h : Seg link p (xs ++ [r]) q)
    (hx : Function.update link r (some x) x = some q) :
    Seg (Function.update link r (some x)) p (xs ++ [r] ++ [x]) q := by
  have hnodup := h.nodup hq
  rw [List.nodup_append] at hnodup
  refine seg_concat.mpr ⟨seg_concat.mpr ⟨?_, Function.update_self r _ link⟩, hx⟩
  exact (seg_concat.mp h).1.update fun hmem =>
    hnodup.2.2 r hmem r (List.mem_singleton_self r) rfl

end Seg
end LinkedList
