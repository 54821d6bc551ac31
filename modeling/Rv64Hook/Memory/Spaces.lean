import Rv64Hook.Memory

/-! The search for a place for a heap. `NewAllocator` reads the list of mappings and tries one base
in each space that it has noted down. -/
namespace Rv64Hook
open ByteMem Rv64

/-- A line of `/proc/self/maps`, and whether its permissions are `---p`. -/
structure Mapping where
  start : Word
  finish : Word
  guard : Bool

structure MemorySpace where
  address : Word
  size : Word

/-- What `NewAllocator` asks the system: whether `mincore` says that a page is in memory, and
`AllocOSMemory` at a base, which gives null where it fails. -/
structure SpaceSystem where
  resident : Word → Bool
  allocOSMemory : Word → Word → Word

namespace MemorySpace

/-- `std::set::emplace`. The order of spaces is that of their sizes, larger ones first, so that of
spaces of equal size the first one stays alone. -/
def emplace (x : MemorySpace) : List MemorySpace → List MemorySpace
  | [] => [x]
  | y :: ys =>
    if y.size < x.size then x :: y :: ys
    else if x.size < y.size then y :: emplace x ys
    else y :: ys

end MemorySpace

open MemorySpace

namespace Memory

/-- The variables of the loop over the lines. -/
structure Scan where
  previousEnd : Word := 0x8000
  spaces : List MemorySpace := []
  dangerousSpaces : List MemorySpace := []

/-- The size of a space that ends where a mapping starts, or at the end of the range. -/
def spaceSize (finish previousEnd memStart : Word) : Word :=
  (if finish < memStart then memStart else finish) - previousEnd

/-- One turn of the loop. -/
def scanLine (start finish minSize : Word) (s : Scan) (m : Mapping) : Scan :=
  let size := spaceSize finish s.previousEnd m.start
  if s.previousEnd < start then { s with previousEnd := m.finish }
  else if size < minSize then { s with previousEnd := m.finish }
  else
    { previousEnd := m.finish
      spaces := emplace ⟨s.previousEnd, size⟩ s.spaces
      dangerousSpaces :=
        if m.guard then emplace ⟨m.start, m.finish - m.start⟩ s.dangerousSpaces
        else s.dangerousSpaces }

def scanMaps (start finish minSize : Word) (maps : List Mapping) : Scan :=
  maps.foldl (scanLine start finish minSize) {}

/-- `std::min` -/
def stdMin (a b : Word) : Word := if b < a then b else a

/-- The size and the base that are tried in a space. -/
def heapAt (finish recommendedSize : Word) (space : MemorySpace) : Word × Word :=
  let size := stdMin space.size recommendedSize
  (size, space.address + stdMin space.size (finish - space.address) - size)

/-- The lambda `new_memory`: the heap it finds, with its size. -/
def newMemoryIn (o : SpaceSystem) (start finish recommendedSize : Word) :
    List MemorySpace → Option (Word × Word)
  | [] => none
  | space :: spaces =>
    let (size, base) := heapAt finish recommendedSize space
    if finish < space.address then newMemoryIn o start finish recommendedSize spaces
    else if base < start ∨ finish < base + size then
      newMemoryIn o start finish recommendedSize spaces
    else if o.resident base then newMemoryIn o start finish recommendedSize spaces
    else
      let heap := o.allocOSMemory size base
      if heap = 0 then newMemoryIn o start finish recommendedSize spaces else some (heap, size)

/-- `Memory::NewAllocator`: the heap of the new allocator, and its size. -/
def newAllocator (o : SpaceSystem) (maps : List Mapping)
    (start finish minSize recommendedSize : Word) : Option (Word × Word) :=
  let s := scanMaps start finish minSize maps
  match newMemoryIn o start finish recommendedSize s.spaces with
  | some heap => some heap
  | none => newMemoryIn o start finish recommendedSize s.dangerousSpaces

/-! ### The spaces of a scan -/

/-- Every line with the end of the mapping before it. -/
def withPrevious : Word → List Mapping → List (Word × Mapping)
  | _, [] => []
  | p, m :: ms => (p, m) :: withPrevious m.finish ms

/-- The space noted down for a line. -/
def spaceOf (finish : Word) (x : Word × Mapping) : MemorySpace :=
  ⟨x.1, spaceSize finish x.1 x.2.start⟩

/-- The mapping of a line, which is noted down too if it is inaccessible. -/
def guardOf (x : Word × Mapping) : MemorySpace := ⟨x.2.start, x.2.finish - x.2.start⟩

/-- The line leads to a space. -/
def Noted (start finish minSize : Word) (x : Word × Mapping) : Prop :=
  start ≤ x.1 ∧ minSize ≤ (spaceOf finish x).size

section Emplace
variable {x y : MemorySpace} {xs : List MemorySpace}

theorem mem_emplace (h : y ∈ emplace x xs) : y = x ∨ y ∈ xs := by
  induction xs with
  | nil => exact .inl (List.mem_singleton.mp h)
  | cons z xs ih =>
    unfold emplace at h
    split_ifs at h
    · exact List.mem_cons.mp h
    · rcases List.mem_cons.mp h with rfl | h
      · exact .inr List.mem_cons_self
      · exact (ih h).imp id (List.mem_cons_of_mem _)
    · exact .inr h

theorem mem_emplace_of_mem (h : y ∈ xs) : y ∈ emplace x xs := by
  induction xs with
  | nil => cases h
  | cons z xs ih =>
    unfold emplace
    split_ifs
    · exact List.mem_cons_of_mem _ h
    · rcases List.mem_cons.mp h with rfl | h
      · exact List.mem_cons_self
      · exact List.mem_cons_of_mem _ (ih h)
    · exact h

/-- A space of its size is in the set afterwards, itself or one that was there before. -/
theorem exists_emplace (x : MemorySpace) (xs : List MemorySpace) :
    ∃ y ∈ emplace x xs, y.size = x.size ∧ (y = x ∨ y ∈ xs) := by
  induction xs with
  | nil => exact ⟨x, List.mem_singleton_self x, rfl, .inl rfl⟩
  | cons z xs ih =>
    unfold emplace
    split_ifs with h1 h2
    · exact ⟨x, List.mem_cons_self, rfl, .inl rfl⟩
    · obtain ⟨y, hy, hsize, hor⟩ := ih
      exact ⟨y, List.mem_cons_of_mem _ hy, hsize, hor.imp id (List.mem_cons_of_mem _)⟩
    · refine ⟨z, List.mem_cons_self, ?_, .inr List.mem_cons_self⟩
      exact BitVec.le_antisymm (BitVec.not_lt.mp h2) (BitVec.not_lt.mp h1)

end Emplace

section Scan
variable {start finish minSize : Word} {s : Scan} {m : Mapping} {maps : List Mapping}
  {x y : MemorySpace}

theorem scanLine_previousEnd : (scanLine start finish minSize s m).previousEnd = m.finish := by
  unfold scanLine
  dsimp only
  split_ifs <;> rfl

theorem scanLine_of_noted (h : Noted start finish minSize (s.previousEnd, m)) :
    scanLine start finish minSize s m =
      { previousEnd := m.finish
        spaces := emplace (spaceOf finish (s.previousEnd, m)) s.spaces
        dangerousSpaces := if m.guard then emplace (guardOf (s.previousEnd, m)) s.dangerousSpaces
          else s.dangerousSpaces } := by
  unfold scanLine
  rw [if_neg (BitVec.not_lt.mpr h.1)]
  exact if_neg (BitVec.not_lt.mpr h.2)

theorem scanLine_of_not_noted (h : ¬ Noted start finish minSize (s.previousEnd, m)) :
    scanLine start finish minSize s m = { s with previousEnd := m.finish } := by
  unfold scanLine
  by_cases h1 : s.previousEnd < start
  · exact if_pos h1
  · rw [if_neg h1]
    exact if_pos (BitVec.not_le.mp fun h2 => h ⟨BitVec.not_lt.mp h1, h2⟩)

/-- Spaces stay in the sets, and what comes into them are spaces and mappings of lines. -/
theorem foldl_scanLine (start finish minSize : Word) (s : Scan) (maps : List Mapping) :
    (∀ x ∈ s.spaces, x ∈ (maps.foldl (scanLine start finish minSize) s).spaces) ∧
      (∀ x ∈ s.dangerousSpaces,
        x ∈ (maps.foldl (scanLine start finish minSize) s).dangerousSpaces) ∧
      (∀ x ∈ (maps.foldl (scanLine start finish minSize) s).spaces, x ∈ s.spaces ∨
        ∃ l ∈ withPrevious s.previousEnd maps, Noted start finish minSize l ∧
          x = spaceOf finish l) ∧
      ∀ x ∈ (maps.foldl (scanLine start finish minSize) s).dangerousSpaces,
        x ∈ s.dangerousSpaces ∨ ∃ l ∈ withPrevious s.previousEnd maps,
          Noted start finish minSize l ∧ l.2.guard = true ∧ x = guardOf l := by
  induction maps generalizing s with
  | nil => exact ⟨fun x h => h, fun x h => h, fun x h => .inl h, fun x h => .inl h⟩
  | cons m maps ih =>
    obtain ⟨ih1, ih2, ih3, ih4⟩ := ih (scanLine start finish minSize s m)
    rw [scanLine_previousEnd] at ih3 ih4
    have hrest : ∀ {P : Word × Mapping → Prop}, (∃ l ∈ withPrevious m.finish maps, P l) →
        ∃ l ∈ withPrevious s.previousEnd (m :: maps), P l :=
      fun ⟨l, hl, hP⟩ => ⟨l, List.mem_cons_of_mem _ hl, hP⟩
    rw [List.foldl_cons]
    by_cases h : Noted start finish minSize (s.previousEnd, m)
    · have hscan := scanLine_of_noted h
      have hfirst : (s.previousEnd, m) ∈ withPrevious s.previousEnd (m :: maps) :=
        List.mem_cons_self
      refine ⟨fun x hx => ih1 x ?_, fun x hx => ih2 x ?_, fun x hx => ?_, fun x hx => ?_⟩
      · rw [hscan]
        exact mem_emplace_of_mem hx
      · rw [hscan]
        dsimp only
        split
        · exact mem_emplace_of_mem hx
        · exact hx
      · rcases ih3 x hx with hx | hx
        · rw [hscan] at hx
          rcases mem_emplace hx with rfl | hx
          · exact .inr ⟨_, hfirst, h, rfl⟩
          · exact .inl hx
        · exact .inr (hrest hx)
      · rcases ih4 x hx with hx | hx
        · rw [hscan] at hx
          dsimp only at hx
          split at hx
          · rename_i hguard
            rcases mem_emplace hx with rfl | hx
            · exact .inr ⟨_, hfirst, h, hguard, rfl⟩
            · exact .inl hx
          · exact .inl hx
        · exact .inr (hrest hx)
    · have hscan := scanLine_of_not_noted h
      refine ⟨fun x hx => ih1 x (hscan ▸ hx), fun x hx => ih2 x (hscan ▸ hx), fun x hx => ?_,
        fun x hx => ?_⟩
      · exact (ih3 x hx).imp (fun hx => by rwa [hscan] at hx) hrest
      · exact (ih4 x hx).imp (fun hx => by rwa [hscan] at hx) hrest

/-- For every line that leads to a space the set has one of its size, its own or that of an earlier
line. -/
theorem exists_space {l : Word × Mapping} {pre post : List (Word × Mapping)} (s : Scan)
    (hsplit : withPrevious s.previousEnd maps = pre ++ l :: post)
    (hl : Noted start finish minSize l) {Q : MemorySpace → Prop} (hQ : Q (spaceOf finish l))
    (hpre : ∀ k ∈ pre, Noted start finish minSize k →
      (spaceOf finish k).size = (spaceOf finish l).size → Q (spaceOf finish k))
    (hs : ∀ y ∈ s.spaces, y.size = (spaceOf finish l).size → Q y) :
    ∃ y ∈ (maps.foldl (scanLine start finish minSize) s).spaces,
      y.size = (spaceOf finish l).size ∧ Q y := by
  induction maps generalizing s pre with
  | nil => exact absurd hsplit.symm (by simp [withPrevious])
  | cons m maps ih =>
    rw [List.foldl_cons]
    cases pre with
    | nil =>
      obtain ⟨rfl, -⟩ := List.cons.inj hsplit
      obtain ⟨y, hy, hsize, hor⟩ := exists_emplace (spaceOf finish (s.previousEnd, m)) s.spaces
      refine ⟨y, (foldl_scanLine start finish minSize _ maps).1 y ?_, hsize, ?_⟩
      · rw [scanLine_of_noted hl]
        exact hy
      · rcases hor with rfl | hy
        · exact hQ
        · exact hs y hy hsize
    | cons k pre =>
      obtain ⟨rfl, hsplit⟩ := List.cons.inj hsplit
      refine ih (scanLine start finish minSize s m) ?_
        (fun k hk => hpre k (List.mem_cons_of_mem _ hk)) fun y hy hsize => ?_
      · rwa [scanLine_previousEnd]
      · by_cases h : Noted start finish minSize (s.previousEnd, m)
        · rw [scanLine_of_noted h] at hy
          rcases mem_emplace hy with rfl | hy
          · exact hpre _ List.mem_cons_self h hsize
          · exact hs y hy hsize
        · rw [scanLine_of_not_noted h] at hy
          exact hs y hy hsize

end Scan

/-! ### The bases that are tried -/

section Bases
variable {o : SpaceSystem} {start finish recommendedSize : Word} {xs : List MemorySpace}
  {x : MemorySpace}

/-- The base tried in a space is in the range, and a heap can be mapped there. -/
def Fits (o : SpaceSystem) (start finish recommendedSize : Word) (x : MemorySpace) : Prop :=
  x.address ≤ finish ∧ start ≤ (heapAt finish recommendedSize x).2 ∧
    (heapAt finish recommendedSize x).2 + (heapAt finish recommendedSize x).1 ≤ finish ∧
    o.resident (heapAt finish recommendedSize x).2 = false ∧
    o.allocOSMemory (heapAt finish recommendedSize x).1 (heapAt finish recommendedSize x).2 ≠ 0

theorem newMemoryIn_cons_of_fits (h : Fits o start finish recommendedSize x) :
    newMemoryIn o start finish recommendedSize (x :: xs) =
      some (o.allocOSMemory (heapAt finish recommendedSize x).1
        (heapAt finish recommendedSize x).2, (heapAt finish recommendedSize x).1) := by
  unfold Fits at h
  unfold newMemoryIn
  generalize heapAt finish recommendedSize x = p at h ⊢
  obtain ⟨h1, h2, h3, h4, h5⟩ := h
  dsimp only
  rw [if_neg (BitVec.not_lt.mpr h1), if_neg (not_or.mpr ⟨BitVec.not_lt.mpr h2, BitVec.not_lt.mpr h3⟩),
    if_neg (by simp [h4])]
  exact if_neg h5

theorem newMemoryIn_cons_of_not_fits (h : ¬ Fits o start finish recommendedSize x) :
    newMemoryIn o start finish recommendedSize (x :: xs) =
      newMemoryIn o start finish recommendedSize xs := by
  conv_lhs => unfold newMemoryIn
  dsimp only
  split_ifs with h1 h2 h3 h4
  · rfl
  · rfl
  · rfl
  · rfl
  · obtain ⟨h2a, h2b⟩ := not_or.mp h2
    exact absurd ⟨BitVec.not_lt.mp h1, BitVec.not_lt.mp h2a, BitVec.not_lt.mp h2b, by simpa using h3,
      h4⟩ h

/-- The search fails where no base fits. -/
theorem newMemoryIn_eq_none :
    newMemoryIn o start finish recommendedSize xs = none ↔
      ∀ x ∈ xs, ¬ Fits o start finish recommendedSize x := by
  induction xs with
  | nil => exact ⟨fun _ x hx => (nomatch hx), fun _ => rfl⟩
  | cons x xs ih =>
    by_cases h : Fits o start finish recommendedSize x
    · rw [newMemoryIn_cons_of_fits h]
      exact ⟨fun h' => (nomatch h'), fun h' => absurd h (h' x List.mem_cons_self)⟩
    · rw [newMemoryIn_cons_of_not_fits h, ih, List.forall_mem_cons]
      exact ⟨fun h' => ⟨h, h'⟩, fun h' => h'.2⟩

/-- What the search finds is a heap at the base of one of the spaces. -/
theorem newMemoryIn_eq_some {heap size : Word}
    (h : newMemoryIn o start finish recommendedSize xs = some (heap, size)) :
    ∃ x ∈ xs, Fits o start finish recommendedSize x ∧
      size = (heapAt finish recommendedSize x).1 ∧
      heap = o.allocOSMemory size (heapAt finish recommendedSize x).2 := by
  induction xs with
  | nil => cases h
  | cons x xs ih =>
    by_cases hx : Fits o start finish recommendedSize x
    · rw [newMemoryIn_cons_of_fits hx] at h
      obtain ⟨rfl, rfl⟩ := Prod.mk.inj (Option.some.inj h)
      exact ⟨x, List.mem_cons_self, hx, rfl, rfl⟩
    · rw [newMemoryIn_cons_of_not_fits hx] at h
      obtain ⟨y, hy, h⟩ := ih h
      exact ⟨y, List.mem_cons_of_mem _ hy, h⟩

theorem newAllocator_eq_none {maps : List Mapping} {minSize : Word} :
    newAllocator o maps start finish minSize recommendedSize = none ↔
      (∀ x ∈ (scanMaps start finish minSize maps).spaces,
        ¬ Fits o start finish recommendedSize x) ∧
      ∀ x ∈ (scanMaps start finish minSize maps).dangerousSpaces,
        ¬ Fits o start finish recommendedSize x := by
  rw [← newMemoryIn_eq_none, ← newMemoryIn_eq_none]
  unfold newAllocator
  dsimp only
  cases h : newMemoryIn o start finish recommendedSize (scanMaps start finish minSize maps).spaces with
  | none => simp
  | some heap => simp

theorem toNat_stdMin (a b : Word) : (stdMin a b).toNat = min a.toNat b.toNat := by
  unfold stdMin
  split
  · rename_i h
    have := BitVec.lt_def.mp h
    omega
  · rename_i h
    have := BitVec.le_def.mp (BitVec.not_lt.mp h)
    omega

/-- The heap tried in a space ends with the space, or with the range if that ends first. -/
theorem toNat_heapAt (haddress : x.address ≤ finish) (hsize : recommendedSize ≤ finish) :
    (heapAt finish recommendedSize x).1.toNat = min x.size.toNat recommendedSize.toNat ∧
      (heapAt finish recommendedSize x).2.toNat + (heapAt finish recommendedSize x).1.toNat =
        x.address.toNat + min x.size.toNat (finish.toNat - x.address.toNat) := by
  have ha := BitVec.le_def.mp haddress
  have hs := BitVec.le_def.mp hsize
  have hf := finish.isLt
  have hsub : (finish - x.address).toNat = finish.toNat - x.address.toNat :=
    BitVec.toNat_sub_of_le haddress
  unfold heapAt
  dsimp only
  rw [BitVec.toNat_sub, BitVec.toNat_add, toNat_stdMin, toNat_stdMin, hsub]
  omega

/-- The space of a line whose gap begins in the range reaches to the end of the range. -/
theorem toNat_spaceSize {previousEnd memStart : Word} (h : previousEnd ≤ finish) :
    (spaceSize finish previousEnd memStart).toNat =
      max memStart.toNat finish.toNat - previousEnd.toNat := by
  have hp := BitVec.le_def.mp h
  unfold spaceSize
  split
  · rename_i hlt
    have hl := BitVec.lt_def.mp hlt
    rw [BitVec.toNat_sub_of_le (BitVec.le_def.mpr (by omega))]
    omega
  · rename_i hge
    have hg := BitVec.le_def.mp (BitVec.not_lt.mp hge)
    rw [BitVec.toNat_sub_of_le h]
    omega

end Bases

end Memory
end Rv64Hook
