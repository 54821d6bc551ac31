import Rv64Hook.Memory.Heaps

/-! Which chunks can be allocated: a scan finds free chunks wherever there are enough of them, and a
table that starts clear marks the chunks of live blocks only. -/
namespace Rv64Hook
open ByteMem Rv64 Bitmap Calls

namespace Memory

variable {t : List Byte} {total k i n count c size : ℕ} {start : Option ℕ} {this : Word}
  {a : Memory} {m : Mem} {bs : List Block}

/-- The scan counts enough chunks where free ones are ahead, or partly behind in the run that it is
counting. -/
theorem findChunks_found (hlen : i + n ≤ 8 * t.length) (hcount : count < k) (hend : c + k ≤ i + n)
    (hbegin : i ≤ c + count) (hfree : ∀ j, c ≤ j → j < c + k → bit t j = some false) :
    ∃ start', findChunks t k n i start count = some (start', k) := by
  induction n generalizing i start count with
  | zero => omega
  | succ n ih =>
    obtain ⟨b, hb⟩ := bit_eq_some (t := t) (i := i) (by omega)
    unfold findChunks
    simp only [hb, Option.bind_eq_bind, Option.bind_some]
    cases b with
    | true =>
      have hahead : i < c := by
        by_contra hno
        rw [hfree i (by omega) (by omega)] at hb
        cases hb
      rw [if_pos rfl]
      exact ih (by omega) (by omega) (by omega) (by omega)
    | false =>
      rw [if_neg (by decide)]
      by_cases heq : count + 1 = k
      · rw [if_pos heq, heq]
        exact ⟨_, rfl⟩
      · rw [if_neg heq]
        exact ih (by omega) (by omega) (by omega) (by omega)

/-- `AllocChunk` succeeds where there are enough free chunks next to each other. -/
theorem allocChunk_found (hk : 0 < k) (hlen : total ≤ 8 * t.length) (hend : c + k ≤ total)
    (hfree : ∀ j, c ≤ j → j < c + k → bit t j = some false) :
    allocChunk t total k ≠ some (none, t) := by
  intro hnone
  have hfind : ∃ start', findChunks t k total 0 none 0 = some (start', k) :=
    findChunks_found (by omega) hk (by omega) (by omega) hfree
  obtain ⟨start, hfind⟩ := hfind
  unfold allocChunk at hnone
  simp only [hfind, Option.bind_eq_bind, Option.bind_some, if_pos] at hnone
  obtain ⟨c', -, hset⟩ := Option.bind_eq_some_iff.mp hnone
  obtain ⟨t', -, heq⟩ := Option.bind_eq_some_iff.mp hset
  simp at heq

/-- The chunk is one of a live block. -/
def Owned (bs : List Block) (j : ℕ) : Prop := ∃ b ∈ bs, b.chunk ≤ j ∧ j < b.chunk + b.count

/-- Only chunks of live blocks are marked. -/
def NoPhantoms (t : List Byte) (bs : List Block) : Prop :=
  ∀ j, bit t j = some true → Owned bs j

/-- `DoAlloc` finds a block where enough chunks are free. -/
theorem allocBlock_found (hg : Geometry a) (hs : BlocksSafe this a m bs)
    (hpos : 0 < size) (hsize : size ≤ a.heapSize)
    (hend : c + expectedChunkCount size ≤ a.heapSize / kChunkSize)
    (hfree : ∀ j, c ≤ j → j < c + expectedChunkCount size → bit a.chunkTable j = some false) :
    ∃ c' a' m', allocBlock this a m size = some (Block.ptr ⟨c', size⟩ a.heap, a', m') ∧
      Geometry a' ∧ BlocksSafe this a' m' (⟨c', size⟩ :: bs) ∧
      a' = { a with chunkTable := a'.chunkTable, allocatedChunks := a'.allocatedChunks } := by
  rcases allocBlock_eq hg hs size with hnone | ⟨c', a', m', hsome, hg', hs', -, -, ha, -⟩
  · exfalso
    have hk : 0 < expectedChunkCount size := (Block.mk c size).count_pos
    have hfound := allocChunk_found hk hg.total.le hend hfree
    rcases allocChunk_eq hk hg.total.le with hno | ⟨c', t', hsome, -, -, hclear, hbit⟩
    · exact hfound hno
    unfold allocBlock at hnone
    rw [if_neg (by omega)] at hnone
    simp only [hsome, Option.bind_eq_bind, Option.bind_some] at hnone
    split at hnone
    · have htable : t' = a.chunkTable := by
        have heq := (Prod.mk.inj (Prod.mk.inj (Option.some.inj hnone)).2).1
        exact congrArg Memory.chunkTable heq
      -- the chunks found have become used
      have hset := hbit c'
      rw [htable, hclear c' le_rfl (by omega), if_pos ⟨le_rfl, by omega⟩] at hset
      cases hset
    · cases hnone
  · exact ⟨c', a', m', hsome, hg', hs', ha⟩

/-- Where only the chunks of live blocks are marked, an allocation finds any chunks of no block. -/
theorem allocBlock_unowned (hg : Geometry a) (hs : BlocksSafe this a m bs)
    (hn : NoPhantoms a.chunkTable bs) (hpos : 0 < size) (hsize : size ≤ a.heapSize)
    (hend : c + expectedChunkCount size ≤ a.heapSize / kChunkSize)
    (hunowned : ∀ j, c ≤ j → j < c + expectedChunkCount size → ¬ Owned bs j) :
    ∃ c' a' m', allocBlock this a m size = some (Block.ptr ⟨c', size⟩ a.heap, a', m') ∧
      Geometry a' ∧ BlocksSafe this a' m' (⟨c', size⟩ :: bs) ∧
      a' = { a with chunkTable := a'.chunkTable, allocatedChunks := a'.allocatedChunks } := by
  refine allocBlock_found hg hs hpos hsize hend fun j hj hlt => ?_
  obtain ⟨b, hb⟩ := bit_eq_some (t := a.chunkTable) (i := j) (by rw [← hg.total]; omega)
  cases b with
  | true => exact absurd (hn j hb) (hunowned j hj hlt)
  | false => exact hb

/-- No chunk is marked. -/
def Clear (t : List Byte) : Prop := ∀ j, bit t j ≠ some true

end Memory

/-! ### Runs on one allocator -/

namespace ChunkCall

open Memory

variable {this : Word} {s t : ChunkState} {c : ChunkCall}

/-- Only chunks of live blocks are marked, and an allocation succeeds wherever enough chunks next to
each other belong to no live block. -/
def Usable (this : Word) (s : ChunkState) : Prop :=
  NoPhantoms s.allocator.chunkTable s.blocks ∧
    ∀ size c, 0 < size → size ≤ s.allocator.heapSize →
      c + expectedChunkCount size ≤ s.allocator.heapSize / kChunkSize →
      (∀ j, c ≤ j → j < c + expectedChunkCount size → ¬ Owned s.blocks j) →
      ∃ ptr a m, allocBlock this s.allocator s.mem size = some (ptr, a, m) ∧ ptr ≠ 0

theorem usable (hg : Geometry s.allocator) (hs : Safe this s)
    (hn : NoPhantoms s.allocator.chunkTable s.blocks) : Usable this s := by
  refine ⟨hn, fun size c hpos hsize hend hunowned => ?_⟩
  obtain ⟨c', a', m', hsome, hg', hs', ha⟩ :=
    allocBlock_unowned hg hs hn hpos hsize hend hunowned
  have hne := ptr_ne_zero hg' hs' List.mem_cons_self
  rw [show a'.heap = s.allocator.heap by rw [ha]] at hne
  exact ⟨_, a', m', hsome, hne⟩

/-- No call leaves a chunk marked that belongs to no live block. -/
theorem step_noPhantoms (hg : Geometry s.allocator) (hs : Safe this s) (hc : c.Admissible s)
    (hn : NoPhantoms s.allocator.chunkTable s.blocks) (ht : c.step this s = some t) :
    NoPhantoms t.allocator.chunkTable t.blocks := by
  cases c with
  | doAlloc size =>
    rcases allocBlock_eq hg hs size with hnone | ⟨c, a', m', hsome, hg', hs', -, hbit, ha, -⟩
    · simp only [step, hnone, Option.bind_eq_bind, Option.bind_some] at ht
      obtain rfl := Option.some.inj ht
      exact hn
    · have hheap : a'.heap = s.allocator.heap := by rw [ha]
      have hnew : Block.mk c size ∈ Block.mk c size :: s.blocks := List.mem_cons_self
      have hne := ptr_ne_zero hg' hs' hnew
      have hchunk := chunk_of_ptr hg' hs' hnew
      rw [hheap] at hne hchunk
      simp only [step, hsome, Option.bind_eq_bind, Option.bind_some, if_neg hne, hheap, hchunk] at ht
      obtain rfl := Option.some.inj ht
      intro j hj
      rw [hbit] at hj
      by_cases hin : c ≤ j ∧ j < c + expectedChunkCount size
      · exact ⟨_, hnew, hin⟩
      · rw [if_neg hin] at hj
        obtain ⟨b, hb, hle, hlt⟩ := hn j hj
        exact ⟨b, List.mem_cons_of_mem _ hb, hle, hlt⟩
  | doFree b =>
    obtain ⟨a', m', hfree, -, -, hbit, -⟩ := freeBlock_eq hg hs hc
    simp only [step, hfree, Option.bind_eq_bind, Option.bind_some] at ht
    obtain rfl := Option.some.inj ht
    intro j hj
    rw [hbit] at hj
    by_cases hin : b.chunk ≤ j ∧ j < b.chunk + b.count
    · rw [if_pos hin] at hj
      cases hj
    · rw [if_neg hin] at hj
      obtain ⟨b', hb', hle, hlt⟩ := hn j hj
      have hne : b' ≠ b := by
        rintro rfl
        exact hin ⟨hle, hlt⟩
      exact ⟨b', (List.mem_erase_of_ne hne).mpr hb', hle, hlt⟩
  | clientWrite b offset bytes =>
    obtain rfl := Option.some.inj ht
    exact hn

/-- From a clear table on, the free chunks stay usable. -/
theorem always_usable {a : Memory} {mem : Mem} {cs : List ChunkCall} (hg : Geometry a)
    (hnew : a.allocatedChunks = 0) (hclear : Clear a.chunkTable)
    (hok : Allowed (ChunkCall.step this) Admissible ⟨a, mem, []⟩ cs) :
    Always (ChunkCall.step this) (Usable this) ⟨a, mem, []⟩ cs := by
  have hs : Safe this ⟨a, mem, []⟩ := safe_new hnew
  have hstep : ∀ (s : ChunkState) (c : ChunkCall),
      (Geometry s.allocator ∧ Safe this s ∧ NoPhantoms s.allocator.chunkTable s.blocks) →
      c.Admissible s → ∃ t, c.step this s = some t ∧ Geometry t.allocator ∧ Safe this t ∧
        NoPhantoms t.allocator.chunkTable t.blocks := by
    rintro s c ⟨hg, hs, hn⟩ hc
    obtain ⟨t, ht, hg', hs'⟩ := step_safe hg hs hc
    exact ⟨t, ht, hg', hs', step_noPhantoms hg hs hc hn ht⟩
  refine (always_of_allowed hstep ⟨hg, hs, fun j hj => absurd hj (hclear j)⟩ hok).mono ?_
  rintro s ⟨hg, hs, hn⟩
  exact usable hg hs hn

end ChunkCall

/-! ### `Memory::Alloc` -/

open Memory HeapState

section
variable {t : List Byte}

theorem clear_replicate (n : ℕ) : Clear (List.replicate n 0) := by
  intro j
  unfold bit
  rw [List.getElem?_replicate]
  split
  · simp
  · simp

theorem HeapInv.alloc_ne_null {s : HeapState} {ds rs : List Word} {bs : List (Word × Block)}
    {scopes : List Word} {e : HeapSystem} {size : ℕ} (hi : HeapInv s ds rs bs scopes)
    (hf : Fresh s e kHeapSize scopes) (hheap : e.heap ≠ 0) (hclear : Clear e.chunkTable)
    (hpos : 0 < size) (hsize : size < kHeapSize / 2) :
    ∃ ptr u, s.alloc e size = some (ptr, u) ∧ ptr ≠ 0 := by
  unfold HeapState.alloc
  rw [if_neg (not_le.mpr hsize)]
  obtain ⟨ptr, u, hu, hallocated⟩ := hi.allocFrom (fun _ => true) size hi.default
    (HeapState.length_lt hi.null hi.default)
  simp only [hu, Option.bind_eq_bind, Option.bind_some]
  by_cases hptr : ptr = 0
  · rw [if_neg (not_not.mpr hptr)]
    obtain ⟨-, rfl⟩ : ptr = 0 ∧ u = s := by
      rcases hallocated with h | ⟨this, a, c, hp, rfl, hi', -⟩
      · exact h
      · exact absurd hptr (hi'.ptr_ne_zero hp List.mem_cons_self)
    obtain ⟨hi', -⟩ := hi.push hf hheap
    obtain ⟨hlive, -⟩ := HeapInv.newMemory_live u e kHeapSize u.defaultAllocator
    have hs := hi'.blocks _ _ hlive
    rw [hi.fresh_blocks hf] at hs
    have hgeo := geometry_references (r := 0 + 1) (hi'.geometry _ _ hlive)
    have hend : 0 + expectedChunkCount size ≤ kHeapSize / kChunkSize := by
      unfold expectedChunkCount kAlignment kChunkSize
      unfold kHeapSize at hsize ⊢
      omega
    have hle : size ≤ kHeapSize := by omega
    obtain ⟨c, a', m', hsome, hgeo', hs', ha⟩ := allocBlock_unowned hgeo (blocksSafe_references hs)
      (fun j hj => absurd hj (hclear j)) hpos hle hend fun _ _ _ ⟨_, hb, _⟩ => (nomatch hb)
    have hne := Memory.ptr_ne_zero hgeo' hs' List.mem_cons_self
    rw [show a'.heap = e.heap by rw [ha]] at hne
    exact ⟨_, _, HeapState.doAlloc_some hlive (hi'.guarded _ _ hlive) hsome hne ha, hne⟩
  · rw [if_pos hptr]
    exact ⟨ptr, u, rfl, hptr⟩

/-- `Memory::Alloc` gives a block to every request below half of the size of a heap, where the
system grants a heap with the table. -/
def AllocSucceeds (t : List Byte) : Prop :=
  ∀ s ds rs bs scopes e size, HeapInv s ds rs bs scopes → HeapInv.Fresh s e kHeapSize scopes →
    e.heap ≠ 0 → e.chunkTable = t → 0 < size → size < kHeapSize / 2 →
    ∃ ptr u, s.alloc e size = some (ptr, u) ∧ ptr ≠ 0

end

/-- Free chunks of a new heap are usable in every run exactly when no bit of its table is set when
`malloc` returns it. -/
theorem chunks_usable_iff (this : Word) (a : Memory) (mem : Mem) (hg : Geometry a)
    (hnew : a.allocatedChunks = 0) :
    ((∀ cs, Allowed (ChunkCall.step this) ChunkCall.Admissible ⟨a, mem, []⟩ cs →
        Always (ChunkCall.step this) (ChunkCall.Usable this) ⟨a, mem, []⟩ cs) ∧
      AllocSucceeds a.chunkTable) ↔ Clear a.chunkTable := by
  constructor
  · rintro ⟨hruns, -⟩ j hj
    obtain ⟨hn, -⟩ : ChunkCall.Usable this ⟨a, mem, []⟩ := hruns [] trivial
    obtain ⟨b, hb, -⟩ := hn j hj
    cases hb
  · refine fun hclear => ⟨fun cs hok => ChunkCall.always_usable hg hnew hclear hok, ?_⟩
    intro s ds rs bs scopes e size hi hf hheap htable hpos hsize
    exact hi.alloc_ne_null hf hheap (htable ▸ hclear) hpos hsize

/-- A heap of one page. -/
def pageAllocator (chunkTable : List Byte) : Memory where
  heap := 0x10000
  heapSize := 4096
  chunkTable := chunkTable

theorem chunks_usable_iff_sample :
    (∀ cs, Allowed (ChunkCall.step 0x900) ChunkCall.Admissible
        ⟨pageAllocator (List.replicate 4 0), fun _ => 0, []⟩ cs →
      Always (ChunkCall.step 0x900) (ChunkCall.Usable 0x900)
        ⟨pageAllocator (List.replicate 4 0), fun _ => 0, []⟩ cs) ∧
      AllocSucceeds (List.replicate 4 0) :=
  (chunks_usable_iff 0x900 (pageAllocator (List.replicate 4 0)) (fun _ => 0)
    ⟨⟨4, rfl⟩, by decide, by decide, rfl⟩ rfl).mpr (clear_replicate 4)

/-- Where `malloc` returns a table of ones, no chunk belongs to a block and no allocation succeeds. -/
theorem chunks_not_usable :
    ¬ Always (ChunkCall.step 0x900) (ChunkCall.Usable 0x900)
        ⟨pageAllocator (List.replicate 4 0xff), fun _ => 0, []⟩ [] ∧
      allocBlock 0x900 (pageAllocator (List.replicate 4 0xff)) (fun _ => 0) 100 =
        some (0, pageAllocator (List.replicate 4 0xff), fun _ => 0) := by
  refine ⟨fun h => ?_, rfl⟩
  obtain ⟨hn, -⟩ : ChunkCall.Usable 0x900
    ⟨pageAllocator (List.replicate 4 0xff), fun _ => 0, []⟩ := h
  obtain ⟨b, hb, -⟩ := hn 0 rfl
  cases hb

end Rv64Hook
