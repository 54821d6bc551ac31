import Rv64Hook.Memory.Spaces

/-! Which gaps between the mappings are found. Every base that is tried lies directly below the end
of the range. -/
namespace Rv64Hook
open ByteMem Rv64

/-- The address is in use. -/
def Mapped (maps : List Mapping) (p : Word) : Prop := ∃ m ∈ maps, m.start ≤ p ∧ p < m.finish

/-- The mappings are sorted and do not overlap. -/
structure SortedMaps (maps : List Mapping) : Prop where
  nonempty : ∀ m ∈ maps, m.start < m.finish
  sorted : maps.Pairwise fun m n => m.finish ≤ n.start

open Memory

/-- `mincore` fails on pages that are not mapped, and a heap can be mapped exactly where nothing
is. -/
structure IdealSystem (o : SpaceSystem) (maps : List Mapping) : Prop where
  resident : ∀ p, o.resident p = true → Mapped maps p
  alloc : ∀ size base, o.allocOSMemory size base ≠ 0 ↔
    size ≠ 0 ∧ ∀ p, InRange base size.toNat p → ¬ Mapped maps p

section Gaps
variable (maps : List Mapping) (start finish minSize recommendedSize : Word)

/-- A gap between two mappings, or before the first one from `0x8000` on, has enough bytes in the
range. -/
def HasGap : Prop :=
  ∃ l ∈ withPrevious 0x8000 maps,
    max l.1.toNat start.toNat + minSize.toNat ≤ min l.2.start.toNat finish.toNat

/-- The search finds a heap if there is a gap. -/
def FindsGap (o : SpaceSystem) : Prop :=
  HasGap maps start finish minSize → newAllocator o maps start finish minSize recommendedSize ≠ none

/-- The last bytes of the range are free, as many as the size noted down for a gap that begins in the
range, and no gap of the same size that begins behind the range is noted down before. -/
def GapBelowEnd : Prop :=
  ∃ pre l post, withPrevious 0x8000 maps = pre ++ l :: post ∧ l.1 ≤ finish ∧
    Noted start finish minSize l ∧
    (∀ k ∈ pre, Noted start finish minSize k →
      (spaceOf finish k).size = (spaceOf finish l).size → k.1 ≤ finish) ∧
    stdMin (spaceOf finish l).size recommendedSize ≠ 0 ∧
    start.toNat + (stdMin (spaceOf finish l).size recommendedSize).toNat ≤ finish.toNat ∧
    ∀ p, InRange (finish - stdMin (spaceOf finish l).size recommendedSize)
      (stdMin (spaceOf finish l).size recommendedSize).toNat p → ¬ Mapped maps p

end Gaps

section Lines
variable {maps : List Mapping} {p q : Word} {pre post : List (Word × Mapping)} {l : Word × Mapping}

theorem SortedMaps.tail {m : Mapping} (h : SortedMaps (m :: maps)) : SortedMaps maps :=
  ⟨fun n hn => h.nonempty n (List.mem_cons_of_mem _ hn), (List.pairwise_cons.mp h.sorted).2⟩

theorem mapped_cons {m : Mapping} :
    Mapped (m :: maps) q ↔ (m.start ≤ q ∧ q < m.finish) ∨ Mapped maps q := by
  unfold Mapped
  simp

/-- The lines from one on whose mapping and those behind it start at `p` or later. -/
theorem line_of_le (hs : SortedMaps maps) (hp : ∀ n ∈ maps, p ≤ n.start)
    (hsplit : withPrevious p maps = pre ++ l :: post) :
    p ≤ l.1 ∧ l.1 ≤ l.2.start ∧ l.2 ∈ maps ∧
      (∀ q, l.1 ≤ q → q < l.2.start → ¬ Mapped maps q) ∧ ∀ k ∈ pre, k.1 ≤ l.1 := by
  induction maps generalizing p pre with
  | nil => exact absurd hsplit.symm (by simp [withPrevious])
  | cons m maps ih =>
    obtain ⟨hfirst, -⟩ := List.pairwise_cons.mp hs.sorted
    have hm := hs.nonempty m List.mem_cons_self
    have hpm := hp m List.mem_cons_self
    cases pre with
    | nil =>
      obtain ⟨rfl, -⟩ := List.cons.inj hsplit
      refine ⟨BitVec.le_refl _, hpm, List.mem_cons_self, fun q _ hq hmapped => ?_,
        fun k hk => by cases hk⟩
      rcases mapped_cons.mp hmapped with ⟨h1, -⟩ | ⟨n, hn, h1, -⟩
      · exact absurd hq (BitVec.not_lt.mpr h1)
      · have hmn := hfirst n hn
        dsimp only at hq
        bv_omega
    | cons k pre =>
      obtain ⟨rfl, hrest⟩ := List.cons.inj hsplit
      obtain ⟨h1, h2, h3, h4, h5⟩ := ih hs.tail hfirst hrest
      refine ⟨by bv_omega, h2, List.mem_cons_of_mem _ h3, fun q hl hq hmapped => ?_, fun k hk => ?_⟩
      · rcases mapped_cons.mp hmapped with ⟨-, hlt⟩ | hmapped
        · bv_omega
        · exact h4 q hl hq hmapped
      · rcases List.mem_cons.mp hk with rfl | hk
        · dsimp only
          bv_omega
        · exact h5 k hk

/-- Between the mapping before a line and its own mapping nothing is mapped. -/
theorem line_gap (hs : SortedMaps maps) (hsplit : withPrevious p maps = pre ++ l :: post) :
    l.2 ∈ maps ∧ (l.1 = p ∨ l.1 ≤ l.2.start) ∧
      (∀ q, l.1 ≤ q → q < l.2.start → ¬ Mapped maps q) ∧ ∀ k ∈ pre, k.1 = p ∨ k.1 ≤ l.1 := by
  cases maps with
  | nil => exact absurd hsplit.symm (by simp [withPrevious])
  | cons m maps =>
    obtain ⟨hfirst, -⟩ := List.pairwise_cons.mp hs.sorted
    have hm := hs.nonempty m List.mem_cons_self
    cases pre with
    | nil =>
      obtain ⟨rfl, -⟩ := List.cons.inj hsplit
      refine ⟨List.mem_cons_self, .inl rfl, fun q _ hq hmapped => ?_, fun k hk => by cases hk⟩
      rcases mapped_cons.mp hmapped with ⟨h1, -⟩ | ⟨n, hn, h1, -⟩
      · exact absurd hq (BitVec.not_lt.mpr h1)
      · have hmn := hfirst n hn
        dsimp only at hq
        bv_omega
    | cons k pre =>
      obtain ⟨rfl, hrest⟩ := List.cons.inj hsplit
      obtain ⟨h1, h2, h3, h4, h5⟩ := line_of_le hs.tail hfirst hrest
      refine ⟨List.mem_cons_of_mem _ h3, .inr h2, fun q hl hq hmapped => ?_, fun k hk => ?_⟩
      · rcases mapped_cons.mp hmapped with ⟨-, hlt⟩ | hmapped
        · bv_omega
        · exact h4 q hl hq hmapped
      · rcases List.mem_cons.mp hk with rfl | hk
        · exact .inl rfl
        · exact .inr (h5 k hk)

end Lines

section Search
variable {maps : List Mapping} {o : SpaceSystem} {start finish minSize recommendedSize : Word}

/-- A space of this size fits if the last bytes of the range are free. -/
theorem fits_of_free {x : MemorySpace} {n : Word} (ho : IdealSystem o maps)
    (hrec : recommendedSize ≤ finish) (hx : x.address ≤ finish)
    (hsize : finish.toNat - x.address.toNat ≤ x.size.toNat)
    (hn : stdMin x.size recommendedSize = n) (hne : n ≠ 0)
    (hstart : start.toNat + n.toNat ≤ finish.toNat)
    (hfree : ∀ p, InRange (finish - n) n.toNat p → ¬ Mapped maps p) :
    Fits o start finish recommendedSize x := by
  obtain ⟨-, hb⟩ := toNat_heapAt hx hrec
  have hfst : (heapAt finish recommendedSize x).1 = n := hn
  have ha := BitVec.le_def.mp hx
  have hnle : n ≤ finish := BitVec.le_def.mpr (by omega)
  have hsub := BitVec.toNat_sub_of_le hnle
  have hbase : (heapAt finish recommendedSize x).2 = finish - n := by
    apply BitVec.eq_of_toNat_eq
    rw [hfst] at hb
    omega
  unfold Fits
  rw [hfst, hbase]
  refine ⟨hx, BitVec.le_def.mpr (by omega), ?_, ?_, (ho.alloc _ _).mpr ⟨hne, hfree⟩⟩
  · rw [BitVec.sub_add_cancel]
    exact BitVec.le_refl _
  · by_contra hres
    have hpos : 0 < n.toNat := by
      by_contra hzero
      exact hne (BitVec.eq_of_toNat_eq (by simp; omega))
    refine hfree (finish - n) ?_ (ho.resident _ (by simpa using hres))
    unfold InRange
    rw [BitVec.sub_self]
    exact hpos

/-- Free bytes below the end of the range are found. -/
theorem newAllocator_of_gapBelowEnd (ho : IdealSystem o maps) (hrec : recommendedSize ≤ finish)
    (h : GapBelowEnd maps start finish minSize recommendedSize) :
    newAllocator o maps start finish minSize recommendedSize ≠ none := by
  obtain ⟨pre, l, post, hsplit, hl, hnoted, hpre, hne, hstart, hfree⟩ := h
  have hreach : ∀ k : Word × Mapping, k.1 ≤ finish → (spaceOf finish k).address ≤ finish ∧
      finish.toNat - (spaceOf finish k).address.toNat ≤ (spaceOf finish k).size.toNat := by
    intro k hk
    refine ⟨hk, ?_⟩
    have hspace : (spaceOf finish k).size.toNat = _ := toNat_spaceSize hk
    rw [hspace]
    change finish.toNat - k.1.toNat ≤ _
    omega
  obtain ⟨y, hy, hsize, haddress, hend⟩ := exists_space
    (Q := fun y => y.address ≤ finish ∧ finish.toNat - y.address.toNat ≤ y.size.toNat) {} hsplit
    hnoted (hreach l hl) (fun k hk hnoted hsize => hreach k (hpre k hk hnoted hsize))
    fun y hy => (nomatch hy)
  intro hnone
  refine (newAllocator_eq_none.mp hnone).1 y hy ?_
  exact fits_of_free ho hrec haddress hend (by rw [hsize]) hne hstart hfree

/-- A line that leads to a space begins in the range, and no line before it begins behind it. -/
theorem lines_before {pre post : List (Word × Mapping)} {l : Word × Mapping}
    (hs : SortedMaps maps) (hfinish : 0x8000 ≤ finish)
    (hsplit : withPrevious 0x8000 maps = pre ++ l :: post) (hl : l.1 ≤ finish) :
    ∀ k ∈ pre, k.1 ≤ finish := by
  intro k hk
  rcases (line_gap hs hsplit).2.2.2 k hk with h | h
  · rw [h]
    exact hfinish
  · exact BitVec.le_trans h hl

/-- A heap that can be mapped below the end of the range lies in free bytes. -/
theorem gapBelowEnd_of_fits {l : Word × Mapping} (ho : IdealSystem o maps) (hs : SortedMaps maps)
    (hrec : recommendedSize ≤ finish) (hfinish : 0x8000 ≤ finish)
    (hl : l ∈ withPrevious 0x8000 maps) (hnoted : Noted start finish minSize l)
    (hfits : Fits o start finish recommendedSize (spaceOf finish l)) :
    GapBelowEnd maps start finish minSize recommendedSize := by
  obtain ⟨pre, post, hsplit⟩ := List.append_of_mem hl
  obtain ⟨haddress, hstart, -, -, halloc⟩ := hfits
  obtain ⟨-, hb⟩ := toNat_heapAt haddress hrec
  obtain ⟨hne, hfree⟩ := (ho.alloc _ _).mp halloc
  have hfst : (heapAt finish recommendedSize (spaceOf finish l)).1 =
      stdMin (spaceOf finish l).size recommendedSize := rfl
  have hspace : (spaceOf finish l).size.toNat = _ := toNat_spaceSize haddress
  have hle := BitVec.le_def.mp haddress
  have hs' := BitVec.le_def.mp hstart
  rw [hfst] at hb hne hfree
  change (spaceOf finish l).size.toNat = max l.2.start.toNat finish.toNat -
    (spaceOf finish l).address.toNat at hspace
  have hsub : (finish - stdMin (spaceOf finish l).size recommendedSize).toNat = _ :=
    BitVec.toNat_sub_of_le (BitVec.le_def.mpr (by omega))
  have hbase : (heapAt finish recommendedSize (spaceOf finish l)).2 =
      finish - stdMin (spaceOf finish l).size recommendedSize :=
    BitVec.eq_of_toNat_eq (by omega)
  refine ⟨pre, l, post, hsplit, haddress, hnoted,
    fun k hk _ _ => lines_before hs hfinish hsplit haddress k hk, hne, by omega, ?_⟩
  rwa [hbase] at hfree

/-- No heap can be mapped over a mapping; one that ends where it starts lies in free bytes. -/
theorem gapBelowEnd_of_guard_fits {l : Word × Mapping} (ho : IdealSystem o maps)
    (hs : SortedMaps maps) (hrec : recommendedSize ≤ finish) (hfinish : 0x8000 ≤ finish)
    (hmin : minSize ≠ 0) (hl : l ∈ withPrevious 0x8000 maps)
    (hnoted : Noted start finish minSize l)
    (hfits : Fits o start finish recommendedSize (guardOf l)) :
    GapBelowEnd maps start finish minSize recommendedSize := by
  obtain ⟨pre, post, hsplit⟩ := List.append_of_mem hl
  obtain ⟨hmem, hordered, hgap, -⟩ := line_gap hs hsplit
  obtain ⟨haddress, -, -, -, halloc⟩ := hfits
  obtain ⟨hn, hb⟩ := toNat_heapAt haddress hrec
  obtain ⟨hne, hfree⟩ := (ho.alloc _ _).mp halloc
  have hlt := BitVec.lt_def.mp (hs.nonempty _ hmem)
  have hlen : (guardOf l).size.toNat = l.2.finish.toNat - l.2.start.toNat :=
    BitVec.toNat_sub_of_le (BitVec.le_def.mpr hlt.le)
  have hle : l.2.start.toNat ≤ finish.toNat := BitVec.le_def.mp haddress
  change _ = l.2.start.toNat + min (guardOf l).size.toNat (finish.toNat - l.2.start.toNat) at hb
  generalize (heapAt finish recommendedSize (guardOf l)).1 = n at hn hb hne hfree
  generalize (heapAt finish recommendedSize (guardOf l)).2 = b at hb hfree
  have hpos : 0 < n.toNat := by
    by_contra hzero
    exact hne (BitVec.eq_of_toNat_eq (by simp; omega))
  rcases hle.lt_or_eq with hlt' | heq
  · -- the last byte of the heap is one of the mapping
    exfalso
    have hlast : (b + BitVec.ofNat 64 (n.toNat - 1)).toNat = b.toNat + n.toNat - 1 := by
      have hn' := n.isLt
      have hf := finish.isLt
      rw [BitVec.toNat_add, BitVec.toNat_ofNat]
      omega
    refine hfree _ (inRange_add (Nat.sub_lt hpos Nat.one_pos)) ⟨l.2, hmem, ?_, ?_⟩
    · exact BitVec.le_def.mpr (by omega)
    · exact BitVec.lt_def.mpr (by omega)
  · -- the gap of this line ends with the range
    have hl1 : l.1 ≤ finish := by
      rcases hordered with h | h
      · rw [h]
        exact hfinish
      · exact BitVec.le_trans h haddress
    have hspace : (spaceOf finish l).size.toNat = _ := toNat_spaceSize hl1
    have hnoted1 := BitVec.le_def.mp hnoted.1
    have hnoted2 := BitVec.le_def.mp hnoted.2
    have hmin' : 0 < minSize.toNat := by
      by_contra hzero
      exact hmin (BitVec.eq_of_toNat_eq (by simp; omega))
    have hstd := toNat_stdMin (spaceOf finish l).size recommendedSize
    refine ⟨pre, l, post, hsplit, hl1, hnoted,
      fun k hk _ _ => lines_before hs hfinish hsplit hl1 k hk, fun hzero => ?_, by omega,
      fun p hp => ?_⟩
    · rw [hzero] at hstd
      simp at hstd
      omega
    · generalize stdMin (spaceOf finish l).size recommendedSize = k at hstd hp
      have hsub : (finish - k).toNat = finish.toNat - k.toNat :=
        BitVec.toNat_sub_of_le (BitVec.le_def.mpr (by omega))
      unfold InRange at hp
      have hlow : (finish - k).toNat ≤ p.toNat ∧ p.toNat < finish.toNat := by
        rw [BitVec.toNat_sub] at hp
        have hpl := p.isLt
        have hf := finish.isLt
        omega
      exact hgap p (BitVec.le_def.mpr (by omega)) (BitVec.lt_def.mpr (by omega))

/-- What is found lies in free bytes below the end of the range. -/
theorem gapBelowEnd_of_newAllocator (ho : IdealSystem o maps) (hs : SortedMaps maps)
    (hrec : recommendedSize ≤ finish) (hfinish : 0x8000 ≤ finish) (hmin : minSize ≠ 0)
    (h : newAllocator o maps start finish minSize recommendedSize ≠ none) :
    GapBelowEnd maps start finish minSize recommendedSize := by
  obtain ⟨-, -, hspaces, hguards⟩ := foldl_scanLine start finish minSize {} maps
  by_contra hno
  refine h (newAllocator_eq_none.mpr ⟨fun x hx hfits => hno ?_, fun x hx hfits => hno ?_⟩)
  · obtain ⟨l, hl, hnoted, rfl⟩ := (hspaces x hx).resolve_left fun h => (nomatch h)
    exact gapBelowEnd_of_fits ho hs hrec hfinish hl hnoted hfits
  · obtain ⟨l, hl, hnoted, -, rfl⟩ := (hguards x hx).resolve_left fun h => (nomatch h)
    exact gapBelowEnd_of_guard_fits ho hs hrec hfinish hmin hl hnoted hfits

/-- A gap is found if the last bytes of the range are free; if the range does not end below
`0x8000`, it is found only then. -/
theorem findsGap_iff (ho : IdealSystem o maps) (hs : SortedMaps maps)
    (hrec : recommendedSize ≤ finish) :
    (¬ HasGap maps start finish minSize ∨ GapBelowEnd maps start finish minSize recommendedSize →
      FindsGap maps start finish minSize recommendedSize o) ∧
    (0x8000 ≤ finish → minSize ≠ 0 → FindsGap maps start finish minSize recommendedSize o →
      ¬ HasGap maps start finish minSize ∨
        GapBelowEnd maps start finish minSize recommendedSize) := by
  refine ⟨fun h hgap => ?_, fun hfinish hmin h => ?_⟩
  · exact newAllocator_of_gapBelowEnd ho hrec (h.resolve_left (not_not.mpr hgap))
  · by_cases hgap : HasGap maps start finish minSize
    · exact .inr (gapBelowEnd_of_newAllocator ho hs hrec hfinish hmin (h hgap))
    · exact .inl hgap

/-- Nothing is found below a mapped end. -/
theorem not_gapBelowEnd_of_mapped (h : Mapped maps (finish - 1)) :
    ¬ GapBelowEnd maps start finish minSize recommendedSize := by
  rintro ⟨-, l, -, -, -, -, -, hne, -, hfree⟩
  refine hfree (finish - 1) ?_ h
  generalize stdMin (spaceOf finish l).size recommendedSize = n at hne
  unfold InRange
  bv_omega

end Search

section Samples
open Classical

/-- A system that maps heaps wherever nothing is mapped. -/
noncomputable def idealSystem (maps : List Mapping) : SpaceSystem where
  resident _ := false
  allocOSMemory size base :=
    if size ≠ 0 ∧ ∀ p, InRange base size.toNat p → ¬ Mapped maps p then 1 else 0

theorem idealSystem_ideal (maps : List Mapping) : IdealSystem (idealSystem maps) maps where
  resident _ h := absurd h (by simp [idealSystem])
  alloc size base := by
    unfold idealSystem
    dsimp only
    split
    · rename_i h
      exact ⟨fun _ => h, fun _ => by decide⟩
    · rename_i h
      exact ⟨fun h' => absurd rfl h', fun h' => absurd h' h⟩

end Samples

/-- Two mappings, the second one from this address to the next page. -/
def mapsSample (last : Word) : List Mapping :=
  [⟨0x40000, 0x41000, false⟩, ⟨last, 0x200000, false⟩]

theorem mapped_mapsSample {last p : Word} : Mapped (mapsSample last) p ↔
    (0x40000 ≤ p ∧ p < 0x41000) ∨ last ≤ p ∧ p < 0x200000 := by
  simp [Mapped, mapsSample]

/-- A gap that reaches beyond the range is found. -/
theorem findsGap_sample :
    FindsGap (mapsSample 0x1ff000) 0x10000 0x100000 0x1000 0x10000
      (idealSystem (mapsSample 0x1ff000)) := by
  have hsorted : SortedMaps (mapsSample 0x1ff000) := ⟨by decide, by decide⟩
  refine (findsGap_iff (idealSystem_ideal _) hsorted (by decide)).1 (.inr ?_)
  refine ⟨[(0x8000, ⟨0x40000, 0x41000, false⟩)], (0x41000, ⟨0x1ff000, 0x200000, false⟩), [], rfl,
    by decide, ⟨by decide, by decide⟩, ?_, by decide, by decide, fun p hp hmapped => ?_⟩
  · intro k hk _ _
    rw [List.mem_singleton.mp hk]
    decide
  · have hsize : stdMin (spaceOf 0x100000 (0x41000, ⟨0x1ff000, 0x200000, false⟩)).size 0x10000 =
        0x10000 := by decide
    rw [hsize] at hp
    rw [mapped_mapsSample] at hmapped
    unfold InRange at hp
    bv_omega

/-- The gap from `0x41000` to `0xf0000` is lost, because the range ends in a mapping. -/
theorem gap_not_found :
    SortedMaps (mapsSample 0xf0000) ∧ IdealSystem (idealSystem (mapsSample 0xf0000)) (mapsSample 0xf0000) ∧
      ¬ FindsGap (mapsSample 0xf0000) 0x10000 0x100000 0x1000 0x10000
        (idealSystem (mapsSample 0xf0000)) := by
  have hsorted : SortedMaps (mapsSample 0xf0000) := ⟨by decide, by decide⟩
  refine ⟨hsorted, idealSystem_ideal _, fun h => ?_⟩
  have hgap : HasGap (mapsSample 0xf0000) 0x10000 0x100000 0x1000 :=
    ⟨(0x41000, ⟨0xf0000, 0x200000, false⟩), by simp [mapsSample, withPrevious], by decide⟩
  have hmapped : Mapped (mapsSample 0xf0000) (0x100000 - 1) :=
    mapped_mapsSample.mpr (.inr (by decide))
  exact not_gapBelowEnd_of_mapped hmapped
    (gapBelowEnd_of_newAllocator (idealSystem_ideal _) hsorted (by decide) (by decide) (by decide)
      (h hgap))

end Rv64Hook
