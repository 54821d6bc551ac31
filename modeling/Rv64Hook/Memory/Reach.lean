import Rv64Hook.FirstTrampoline
import Rv64Hook.Memory.Heaps
import Rv64Hook.Memory.Gaps

/-! Where the blocks of the second trampolines lie: a block from the ranged `Memory::Alloc` is in
reach of the function, unless a heap has been asked for at the address zero. -/
namespace Rv64Hook
open ByteMem Rv64 Bitmap Memory HeapState

/-- The answer of the system to `NewAllocator`. -/
def HeapSystem.search (e : HeapSystem) (o : SpaceSystem) (maps : List Mapping)
    (start finish : Word) : HeapSystem :=
  match newAllocator o maps (alignUp start e.pageSize) (alignDown finish e.pageSize) e.pageSize
      (BitVec.ofNat 64 kSmallHeapSize) with
  | some (heap, size) => { e with heap := heap, spaceSize := size.toNat }
  | none => { e with heap := 0 }

/-- `start` and `end` in `AllocSecondTrampoline`, where one of them is not zero. -/
def Trampoline.reachOf : TrampolineType → Word → Option (Word × Word)
  | .kPC20, address => some (address - 0xffffe, address + 0xffffe)
  | .kPC32, address => some (address, address + 0x7ffff800)
  | .kVA32, _ => some (0, 0x7ffff800)
  | _, _ => none

/-- The size of the code of the second trampoline with its `TrampolineData`. -/
def Trampoline.secondSize (codeSize : ℕ) : ℕ := codeSize + 48

/-- The block of `AllocSecondTrampoline` without a custom allocator, and whether it is from the
ranged `Memory::Alloc`. -/
def HeapState.allocTrampoline (s : HeapState) (e anywhere : HeapSystem) (o : SpaceSystem)
    (maps : List Mapping) (type : TrampolineType) (address : Word) (codeSize : ℕ) :
    Option (Word × Bool × HeapState) :=
  let size := Trampoline.secondSize codeSize
  match Trampoline.reachOf type address with
  | some (start, finish) => do
    let (ptr, s) ← s.allocRange (e.search o maps start finish) size start finish
    if ptr ≠ 0 then some (ptr, true, s)
    else
      let (ptr, s) ← s.alloc anywhere size
      some (ptr, false, s)
  | none => do
    let (ptr, s) ← s.alloc anywhere size
    some (ptr, false, s)

/-! ### The heaps of the live allocators -/

namespace HeapState

/-- Every live allocator was live before, with the same heap. -/
def KeepsHeaps (s t : HeapState) : Prop :=
  ∀ p a, t.allocators p = some a →
    ∃ b, s.allocators p = some b ∧ b.heap = a.heap ∧ b.heapSize = a.heapSize

namespace KeepsHeaps

variable {s t u : HeapState} {this p : Word} {a b : Memory}

theorem refl (s : HeapState) : KeepsHeaps s s := fun _ a ha => ⟨a, ha, rfl, rfl⟩

theorem trans (h : KeepsHeaps s t) (h' : KeepsHeaps t u) : KeepsHeaps s u := by
  intro p a ha
  obtain ⟨b, hb, h1, h2⟩ := h' p a ha
  obtain ⟨c, hc, h3, h4⟩ := h p b hb
  exact ⟨c, hc, h3.trans h1, h4.trans h2⟩

theorem of_eq (h : t.allocators = s.allocators) : KeepsHeaps s t :=
  fun _ a ha => ⟨a, h ▸ ha, rfl, rfl⟩

theorem setAllocator (hp : s.allocators this = some a) (hheap : b.heap = a.heap)
    (hsize : b.heapSize = a.heapSize) : KeepsHeaps s (s.setAllocator this b) := by
  intro p c hc
  change Function.update s.allocators this (some b) p = some c at hc
  by_cases h : p = this
  · rw [h, Function.update_self] at hc
    obtain rfl := Option.some.inj hc
    exact ⟨a, h ▸ hp, hheap.symm, hsize.symm⟩
  · rw [Function.update_of_ne h] at hc
    exact ⟨c, hc, rfl, rfl⟩

theorem protectOSMemory (s : HeapState) (heap : Word) (writable : Bool) :
    KeepsHeaps s (s.protectOSMemory heap writable) := by
  unfold HeapState.protectOSMemory
  split <;> exact of_eq rfl

theorem openScope (s : HeapState) (this : Word) : KeepsHeaps s (s.openScope this) := by
  unfold HeapState.openScope
  cases hp : s.allocators this with
  | none => exact of_eq rfl
  | some a =>
    dsimp only
    split
    · refine .trans ?_ (protectOSMemory _ _ _)
      exact setAllocator hp rfl rfl
    · exact setAllocator hp rfl rfl

theorem closeScope (s : HeapState) (this : Word) : KeepsHeaps s (s.closeScope this) := by
  unfold HeapState.closeScope
  cases hp : s.allocators this with
  | none => exact of_eq rfl
  | some a =>
    dsimp only
    split
    · refine .trans ?_ (protectOSMemory _ _ _)
      exact setAllocator hp rfl rfl
    · exact setAllocator hp rfl rfl

theorem writeHeap {heap : Word} {m : ByteMem.Mem} (h : s.writeHeap heap m = some t) :
    KeepsHeaps s t := by
  obtain ⟨w, -, h⟩ := Option.bind_eq_some_iff.mp h
  obtain rfl := Option.some.inj h
  exact of_eq rfl

end KeepsHeaps

/-- The block has its bytes in the heap, which has chunks enough for it. -/
def InsideHeap (heap : Word) (heapSize size : ℕ) (ptr : Word) : Prop :=
  ∃ k, ptr = heap + BitVec.ofNat 64 k ∧ k + size ≤ heapSize ∧
    expectedChunkCount size ≤ heapSize / kChunkSize

section Operations
variable {s t : HeapState} {this ptr : Word} {a : Memory} {size : ℕ}

theorem findChunks_le {t : List Byte} {k n i count count' : ℕ} {start start' : Option ℕ}
    (h : findChunks t k n i start count = some (start', count'))
    (hstart : ∀ c, start = some c → c + count ≤ i) (hnone : start = none → count = 0) :
    ∀ c, start' = some c → c + count' ≤ i + n := by
  induction n generalizing i start count with
  | zero =>
    obtain ⟨rfl, rfl⟩ := Prod.mk.inj (Option.some.inj h)
    exact hstart
  | succ n ih =>
    unfold findChunks at h
    obtain ⟨used, -, h⟩ := Option.bind_eq_some_iff.mp h
    split at h
    · intro c hc
      have := ih h (fun c hc => by cases hc) (fun _ => rfl) c hc
      omega
    · have hstart' : ∀ c, (if start = none then some i else start) = some c →
          c + (count + 1) ≤ i + 1 := by
        intro c hc
        split at hc
        · rename_i hnil
          rw [hnone hnil]
          obtain rfl := Option.some.inj hc
          omega
        · have := hstart c hc
          omega
      dsimp only at h
      split at h
      · obtain ⟨rfl, rfl⟩ := Prod.mk.inj (Option.some.inj h)
        intro c hc
        have := hstart' c hc
        omega
      · intro c hc
        have hne : (if start = none then some i else start) = none → count + 1 = 0 := by
          intro hnil
          split at hnil
          · cases hnil
          · contradiction
        have := ih h hstart' hne c hc
        omega

/-- A block that `allocBlock` finds has its bytes in the heap. -/
theorem allocBlock_inside {m m' : ByteMem.Mem} {a' : Memory}
    (h : allocBlock this a m size = some (ptr, a', m')) :
    a'.heap = a.heap ∧ a'.heapSize = a.heapSize ∧
      (ptr ≠ 0 → InsideHeap a.heap a.heapSize size ptr) := by
  unfold allocBlock at h
  split at h
  · obtain ⟨rfl, hrest⟩ := Prod.mk.inj (Option.some.inj h)
    obtain ⟨rfl, -⟩ := Prod.mk.inj hrest
    exact ⟨rfl, rfl, fun hne => absurd rfl hne⟩
  · dsimp only at h
    obtain ⟨⟨chunk, table⟩, hchunk, h⟩ := Option.bind_eq_some_iff.mp h
    dsimp only at h
    cases chunk with
    | none =>
      obtain ⟨rfl, hrest⟩ := Prod.mk.inj (Option.some.inj h)
      obtain ⟨rfl, -⟩ := Prod.mk.inj hrest
      exact ⟨rfl, rfl, fun hne => absurd rfl hne⟩
    | some c =>
      dsimp only at h
      split at h
      · obtain ⟨rfl, hrest⟩ := Prod.mk.inj (Option.some.inj h)
        obtain ⟨rfl, -⟩ := Prod.mk.inj hrest
        refine ⟨rfl, rfl, fun _ => ⟨c * kChunkSize + kAlignment, ?_, ?_⟩⟩
        · rw [add_ofNat_add]
        · unfold allocChunk at hchunk
          obtain ⟨⟨start, count⟩, hfind, hchunk⟩ := Option.bind_eq_some_iff.mp hchunk
          dsimp only at hchunk
          split at hchunk
          · rename_i hcount
            obtain ⟨start', hstart, hchunk⟩ := Option.bind_eq_some_iff.mp hchunk
            obtain ⟨table', -, hchunk⟩ := Option.bind_eq_some_iff.mp hchunk
            obtain rfl := Option.some.inj (Prod.mk.inj (Option.some.inj hchunk)).1
            have hle := findChunks_le hfind (fun c hc => (nomatch hc)) (fun _ => rfl) start' hstart
            have hpayload := (Block.mk start' size).payload_le
            have hcount' : (Block.mk start' size).count = expectedChunkCount size := rfl
            have hmul := Nat.mul_le_mul_right kChunkSize hle
            have hdiv := Nat.div_mul_le_self a.heapSize kChunkSize
            rw [hcount', ← hcount] at hpayload
            rw [Nat.add_mul, Nat.zero_add] at hmul
            dsimp only at hpayload
            omega
          · cases hchunk
      · cases h

theorem doAlloc_inside (h : s.doAlloc this size = some (ptr, t)) :
    KeepsHeaps s t ∧ (ptr ≠ 0 → ∃ a, s.allocators this = some a ∧
      InsideHeap a.heap a.heapSize size ptr) := by
  have hopen := KeepsHeaps.openScope s this
  unfold doAlloc at h
  dsimp only at h
  obtain ⟨a, ha, h⟩ := Option.bind_eq_some_iff.mp h
  obtain ⟨⟨ptr', a', m⟩, hblock, h⟩ := Option.bind_eq_some_iff.mp h
  obtain ⟨b, hb, hheap, hsize⟩ := hopen this a ha
  obtain ⟨h1, h2, h3⟩ := allocBlock_inside hblock
  have hset := hopen.trans (KeepsHeaps.setAllocator ha h1 h2)
  dsimp only at h
  split at h
  · rename_i hnull
    obtain ⟨rfl, rfl⟩ := Prod.mk.inj (Option.some.inj h)
    exact ⟨hset.trans (.closeScope _ _), fun hne => absurd hnull hne⟩
  · obtain ⟨u, hu, h⟩ := Option.bind_eq_some_iff.mp h
    obtain ⟨rfl, rfl⟩ := Prod.mk.inj (Option.some.inj h)
    refine ⟨(hset.trans (.writeHeap hu)).trans (.closeScope _ _), fun hne => ?_⟩
    exact ⟨b, hb, hheap ▸ hsize ▸ h3 hne⟩

/-- The allocations that `Memory::Alloc` tries succeed in an allocator that satisfies the
condition. -/
theorem allocFrom_inside {ok : Memory → Bool} {n : ℕ} {x : Word}
    (h : allocFrom ok size n x s = some (ptr, t)) :
    KeepsHeaps s t ∧ (ptr ≠ 0 → ∃ u this a, KeepsHeaps s u ∧ u.allocators this = some a ∧
      ok a = true ∧ InsideHeap a.heap a.heapSize size ptr) := by
  induction n generalizing x s with
  | zero => cases h
  | succ n ih =>
    unfold allocFrom at h
    split at h
    · obtain ⟨rfl, rfl⟩ := Prod.mk.inj (Option.some.inj h)
      exact ⟨.refl _, fun hne => absurd rfl hne⟩
    · obtain ⟨a, ha, h⟩ := Option.bind_eq_some_iff.mp h
      have htry : ∃ ptr' u, (if ptr' ≠ 0 then some (ptr', u)
          else (u.allocators x).bind fun a => allocFrom ok size n a.next u) = some (ptr, t) ∧
          KeepsHeaps s u ∧ (ptr' ≠ 0 → ok a = true ∧ s.doAlloc x size = some (ptr', u)) := by
        dsimp only at h
        split at h
        · rename_i hok
          obtain ⟨⟨ptr', u⟩, hu, h⟩ := Option.bind_eq_some_iff.mp h
          exact ⟨ptr', u, h, (doAlloc_inside hu).1, fun _ => ⟨hok, hu⟩⟩
        · exact ⟨0, s, h, .refl _, fun hne => absurd rfl hne⟩
      obtain ⟨ptr', u, h, hkeeps, hfound⟩ := htry
      split at h
      · rename_i hne
        obtain ⟨rfl, rfl⟩ := Prod.mk.inj (Option.some.inj h)
        obtain ⟨hok, halloc⟩ := hfound hne
        refine ⟨hkeeps, fun _ => ?_⟩
        obtain ⟨b, hb, hin⟩ := (doAlloc_inside halloc).2 hne
        obtain rfl := Option.some.inj (ha.symm.trans hb)
        exact ⟨s, x, a, .refl _, ha, hok, hin⟩
      · obtain ⟨b, -, h⟩ := Option.bind_eq_some_iff.mp h
        obtain ⟨hrest, hlater⟩ := ih h
        refine ⟨hkeeps.trans hrest, fun hne => ?_⟩
        obtain ⟨v, p, c, hv, hin⟩ := hlater hne
        exact ⟨v, p, c, hkeeps.trans hv, hin⟩

theorem freeBlock_heap {m m' : ByteMem.Mem} {a' : Memory}
    (h : freeBlock a m ptr = some (a', m')) : a'.heap = a.heap ∧ a'.heapSize = a.heapSize := by
  unfold freeBlock at h
  dsimp only at h
  split at h
  · obtain ⟨table, -, h⟩ := Option.bind_eq_some_iff.mp h
    obtain ⟨rfl, -⟩ := Prod.mk.inj (Option.some.inj h)
    exact ⟨rfl, rfl⟩
  · cases h

theorem unlink_keepsHeaps {next : Word} {n : ℕ} {link : Option Word}
    (h : unlink this next n link s = some t) : KeepsHeaps s t := by
  induction n generalizing link with
  | zero => cases h
  | succ n ih =>
    unfold unlink at h
    obtain ⟨current, -, h⟩ := Option.bind_eq_some_iff.mp h
    split_ifs at h
    · obtain rfl := Option.some.inj h
      exact .refl _
    · cases link with
      | none =>
        obtain rfl := Option.some.inj h
        exact .of_eq rfl
      | some p =>
        obtain ⟨a, ha, h⟩ := Option.bind_eq_some_iff.mp h
        obtain rfl := Option.some.inj h
        exact .setAllocator ha rfl rfl
    · exact ih h

theorem deleteAllocator_keepsHeaps (s : HeapState) (this heap : Word) :
    KeepsHeaps s (s.deleteAllocator this heap) := by
  intro p a ha
  change Function.update s.allocators this none p = some a at ha
  by_cases hp : p = this
  · rw [hp, Function.update_self] at ha
    cases ha
  · rw [Function.update_of_ne hp] at ha
    exact ⟨a, ha, rfl, rfl⟩

theorem doFree_keepsHeaps (h : s.doFree this ptr = some t) : KeepsHeaps s t := by
  have hopen := KeepsHeaps.openScope s this
  unfold doFree at h
  dsimp only at h
  obtain ⟨a, ha, h⟩ := Option.bind_eq_some_iff.mp h
  obtain ⟨⟨a', m⟩, hfree, h⟩ := Option.bind_eq_some_iff.mp h
  obtain ⟨u, hu, h⟩ := Option.bind_eq_some_iff.mp h
  obtain ⟨h1, h2⟩ := freeBlock_heap hfree
  have hwritten := (hopen.trans (KeepsHeaps.setAllocator ha h1 h2)).trans (.writeHeap hu)
  split at h
  · obtain ⟨v, hv, h⟩ := Option.bind_eq_some_iff.mp h
    obtain rfl := Option.some.inj h
    refine ((hwritten.trans (unlink_keepsHeaps hv)).trans ?_).trans (.closeScope _ _)
    exact deleteAllocator_keepsHeaps _ _ _
  · obtain rfl := Option.some.inj h
    exact hwritten.trans (.closeScope _ _)

/-- A block of the ranged `Memory::Alloc` is in a heap between the bounds, or in the new one. -/
theorem allocRange_inside {e : HeapSystem} {start finish : Word}
    (h : s.allocRange e size start finish = some (ptr, t)) (hne : ptr ≠ 0) :
    size < kSmallHeapSize / 2 ∧
      ((∃ u this a, KeepsHeaps s u ∧ u.allocators this = some a ∧
        within (alignUp start e.pageSize) (alignDown finish e.pageSize) a = true ∧
          InsideHeap a.heap a.heapSize size ptr) ∨
        e.heap ≠ 0 ∧ InsideHeap e.heap e.spaceSize size ptr) := by
  unfold allocRange at h
  split at h
  · obtain ⟨rfl, -⟩ := Prod.mk.inj (Option.some.inj h)
    exact absurd rfl hne
  rename_i hsize
  refine ⟨by omega, ?_⟩
  dsimp only at h
  obtain ⟨⟨ptr', u⟩, hu, h⟩ := Option.bind_eq_some_iff.mp h
  dsimp only at h
  split at h
  · obtain ⟨rfl, rfl⟩ := Prod.mk.inj (Option.some.inj h)
    exact .inl ((allocFrom_inside hu).2 hne)
  · split at h
    · obtain ⟨rfl, -⟩ := Prod.mk.inj (Option.some.inj h)
      exact absurd rfl hne
    · rename_i hheap
      obtain ⟨a, ha, hin⟩ := (doAlloc_inside h).2 hne
      obtain rfl := Option.some.inj
        ((HeapInv.newMemory_live u e e.spaceSize u.rootAllocator).1.symm.trans ha)
      exact .inr ⟨hheap, hin⟩

/-- No heap of a live allocator reaches the end of the address space. -/
def HeapsFit (s : HeapState) : Prop :=
  ∀ p a, s.allocators p = some a → a.heap.toNat + a.heapSize < 2 ^ 64

theorem HeapsFit.keeps (hs : HeapsFit s) (h : KeepsHeaps s t) : HeapsFit t := by
  intro p a ha
  obtain ⟨b, hb, hheap, hsize⟩ := h p a ha
  rw [← hheap, ← hsize]
  exact hs p b hb

theorem HeapsFit.newMemory {e : HeapSystem} {n : ℕ} {next : Word} (hs : HeapsFit s)
    (he : e.heap.toNat + n < 2 ^ 64) : HeapsFit (s.newMemory e n next) := by
  intro p a ha
  have hlive := (HeapInv.newMemory_live s e n next).1
  by_cases hp : p = e.allocator
  · rw [hp, hlive] at ha
    obtain rfl := Option.some.inj ha
    exact he
  · refine hs p a ?_
    unfold HeapState.newMemory at ha
    dsimp only at ha
    split at ha
    · exact (Function.update_of_ne hp ..).symm.trans ha
    · exact (Function.update_of_ne hp ..).symm.trans ha

theorem HeapsFit.alloc {e : HeapSystem} (hs : HeapsFit s)
    (he : e.heap.toNat + kHeapSize < 2 ^ 64) (h : s.alloc e size = some (ptr, t)) :
    HeapsFit t := by
  unfold HeapState.alloc at h
  split at h
  · obtain ⟨-, rfl⟩ := Prod.mk.inj (Option.some.inj h)
    exact hs
  obtain ⟨⟨ptr', u⟩, hu, h⟩ := Option.bind_eq_some_iff.mp h
  have hsu := hs.keeps (allocFrom_inside hu).1
  dsimp only at h
  split at h
  · obtain ⟨-, rfl⟩ := Prod.mk.inj (Option.some.inj h)
    exact hsu
  · refine HeapsFit.keeps ?_ (doAlloc_inside h).1
    exact hsu.newMemory he

theorem HeapsFit.allocRange {e : HeapSystem} {start finish : Word} (hs : HeapsFit s)
    (he : e.heap.toNat + e.spaceSize < 2 ^ 64)
    (h : s.allocRange e size start finish = some (ptr, t)) : HeapsFit t := by
  unfold HeapState.allocRange at h
  split at h
  · obtain ⟨-, rfl⟩ := Prod.mk.inj (Option.some.inj h)
    exact hs
  dsimp only at h
  obtain ⟨⟨ptr', u⟩, hu, h⟩ := Option.bind_eq_some_iff.mp h
  have hsu := hs.keeps (allocFrom_inside hu).1
  dsimp only at h
  split at h
  · obtain ⟨-, rfl⟩ := Prod.mk.inj (Option.some.inj h)
    exact hsu
  · split at h
    · obtain ⟨-, rfl⟩ := Prod.mk.inj (Option.some.inj h)
      exact hsu
    · refine HeapsFit.keeps ?_ (doAlloc_inside h).1
      exact hsu.newMemory he

end Operations

/-- The states of the library's memory. The system gives no heap at the end of the address space. -/
inductive LibraryState : HeapState → Prop where
  | initial (m : ByteMem.Mem) :
    LibraryState { mem := m, allocators := fun _ => none, heaps := fun _ => none }
  | alloc {s t e size ptr} : LibraryState s → e.heap.toNat + kHeapSize < 2 ^ 64 →
    s.alloc e size = some (ptr, t) → LibraryState t
  | allocRange {s t e size start finish ptr} : LibraryState s →
    e.heap.toNat + e.spaceSize < 2 ^ 64 → s.allocRange e size start finish = some (ptr, t) →
    LibraryState t
  | free {s t ptr} : LibraryState s → s.free ptr = some t → LibraryState t
  | openScopeAt {s ptr} : LibraryState s → LibraryState (s.openScopeAt ptr).1
  | closeScopeAt {s allocator} : LibraryState s → LibraryState (s.closeScopeAt allocator)
  | writeBlock {s t heap ptr offset bytes} : LibraryState s →
    s.writeBlock heap ptr offset bytes = some t → LibraryState t

theorem openScopeAt_keepsHeaps (s : HeapState) (ptr : Word) :
    KeepsHeaps s (s.openScopeAt ptr).1 := by
  unfold openScopeAt
  split
  · exact .refl _
  · exact .openScope _ _

theorem closeScopeAt_keepsHeaps (s : HeapState) (allocator : Word) :
    KeepsHeaps s (s.closeScopeAt allocator) := by
  unfold closeScopeAt
  split
  · exact .closeScope _ _
  · exact .refl _

theorem LibraryState.heapsFit {s : HeapState} (h : LibraryState s) : HeapsFit s := by
  induction h with
  | initial m => exact fun p a ha => nomatch ha
  | alloc _ he halloc ih => exact ih.alloc he halloc
  | allocRange _ he halloc ih => exact ih.allocRange he halloc
  | @free s t ptr _ hfree ih =>
    unfold HeapState.free at hfree
    split at hfree
    · exact Option.some.inj hfree ▸ ih
    · exact ih.keeps (doFree_keepsHeaps hfree)
  | openScopeAt _ ih => exact ih.keeps (openScopeAt_keepsHeaps _ _)
  | closeScopeAt _ ih => exact ih.keeps (closeScopeAt_keepsHeaps _ _)
  | @writeBlock s t heap ptr offset bytes _ hwrite ih =>
    unfold HeapState.writeBlock at hwrite
    dsimp only at hwrite
    obtain ⟨u, hu, hwrite⟩ := Option.bind_eq_some_iff.mp hwrite
    obtain rfl := Option.some.inj hwrite
    refine ih.keeps (.trans (.trans (openScopeAt_keepsHeaps s ptr) (.writeHeap hu)) ?_)
    exact closeScopeAt_keepsHeaps _ _

end HeapState

open HeapState

/-- The lines of `/proc/self/maps`: the mappings are sorted and end at pages. -/
structure MapsFile (maps : List Mapping) : Prop extends SortedMaps maps where
  pages : ∀ m ∈ maps, 1024 ∣ m.finish.toNat

/-- With `MAP_FIXED_NOREPLACE`, which is used at every base that is not null, `mmap` maps the
requested range or fails. It maps nothing at the end of the address space. -/
def FixedNoReplace (o : SpaceSystem) : Prop :=
  ∀ size base, o.allocOSMemory size base ≠ 0 →
    (base ≠ 0 → o.allocOSMemory size base = base) ∧
      (o.allocOSMemory size base).toNat + size.toNat < 2 ^ 64

open Trampoline in
/-- A block from the ranged `Memory::Alloc` lies in the range, and the first trampoline to it is no
larger than the type says. -/
def ReachesRange (maps : List Mapping) (type : TrampolineType) (address : Word)
    (codeSize : ℕ) : Prop :=
  ∀ (s t : HeapState) (e anywhere : HeapSystem) (o : SpaceSystem) (start finish ptr : Word),
    LibraryState s → FixedNoReplace o → 0 < e.pageSize → e.pageSize ≤ 0x10000 →
    reachOf type address = some (start, finish) →
    s.allocTrampoline e anywhere o maps type address codeSize = some (ptr, true, t) →
    start.toNat ≤ ptr.toNat ∧ ptr.toNat + secondSize codeSize ≤ finish.toNat ∧
      getSuggestedTrampolineType address ptr ≠ .kWide ∧
      getFirstTrampolineSize (getSuggestedTrampolineType address ptr) ≤
        if type = .kPC20 then 4 else 8

/-- The range begins at the null address, and an inaccessible mapping there has the size of a heap
with room for the block. -/
def NullHeap (maps : List Mapping) (type : TrampolineType) (address : Word)
    (codeSize : ℕ) : Prop :=
  (type = .kVA32 ∨ type = .kPC20 ∧ address = 0xffffe) ∧
    Trampoline.secondSize codeSize < kSmallHeapSize / 2 ∧
    ∃ m ∈ maps, m.start = 0 ∧ m.guard = true ∧ m.finish.toNat ≤ kSmallHeapSize ∧
      expectedChunkCount (Trampoline.secondSize codeSize) ≤ m.finish.toNat / kChunkSize

section Aligned
variable {x align : Word}

/-- What is cut off are the bits below the alignment. -/
theorem alignDown_eq_sub (x align : Word) : alignDown x align = x - (x &&& (align - 1)) := by
  have hsum : (x &&& ~~~(align - 1)) + (x &&& (align - 1)) = x := by
    rw [BitVec.add_eq_or_of_and_eq_zero]
    · ext i hi
      simp only [BitVec.getElem_or, BitVec.getElem_and, BitVec.getElem_not]
      cases x[i] <;> cases (align - 1)[i] <;> rfl
    · ext i hi
      simp only [BitVec.getElem_and, BitVec.getElem_not]
      cases x[i] <;> cases (align - 1)[i] <;> simp
  rw [BitVec.eq_sub_iff_add_eq]
  exact hsum

theorem toNat_and_pred_lt (x : Word) (h : 0 < align) : (x &&& (align - 1)).toNat < align.toNat := by
  have hpos : 0 < align.toNat := BitVec.lt_def.mp h
  have hone : (align - 1).toNat = align.toNat - 1 :=
    BitVec.toNat_sub_of_le (BitVec.le_def.mpr hpos)
  have hmask : (x &&& (align - 1)).toNat ≤ (align - 1).toNat := by
    rw [BitVec.toNat_and]
    exact Nat.and_le_right
  omega

/-- The bytes that are cut off are fewer than the alignment. -/
theorem toNat_alignDown (h : 0 < align) :
    (alignDown x align).toNat ≤ x.toNat ∧
      x.toNat < (alignDown x align).toNat + align.toNat := by
  have hle : x &&& (align - 1) ≤ x := by
    rw [BitVec.le_def, BitVec.toNat_and]
    exact Nat.and_le_left
  have hmask := toNat_and_pred_lt x h
  rw [alignDown_eq_sub, BitVec.toNat_sub_of_le hle]
  have hx := BitVec.le_def.mp hle
  omega

theorem toNat_alignUp (h : 0 < align) (hx : x.toNat + align.toNat < 2 ^ 64) :
    x.toNat ≤ (alignUp x align).toNat := by
  have hpos : 0 < align.toNat := BitVec.lt_def.mp h
  have hone : (align - 1).toNat = align.toNat - 1 :=
    BitVec.toNat_sub_of_le (BitVec.le_def.mpr hpos)
  have hadd : (x + (align - 1)).toNat = x.toNat + (align.toNat - 1) := by
    rw [BitVec.toNat_add, hone, Nat.mod_eq_of_lt (by omega)]
  have hdown := toNat_alignDown (x := x + (align - 1)) h
  change _ ≤ (alignDown (x + (align - 1)) align).toNat
  omega

end Aligned

section Reach
variable {maps : List Mapping} {o : SpaceSystem} {type : TrampolineType}
  {a start finish lower upper : Word} {codeSize : ℕ}

/-- The bounds of the ranges, before and after they are aligned to pages. -/
theorem reachOf_bounds {align : Word} (ha : 0xffffe ≤ a.toNat)
    (hwrap : a.toNat + 0x7ffff800 < 2 ^ 64) (hpage : 0 < align) (hpage' : align ≤ 0x10000)
    (h : Trampoline.reachOf type a = some (start, finish)) :
    start.toNat ≤ (alignUp start align).toNat ∧ (alignDown finish align).toNat ≤ finish.toNat ∧
      0x20000 ≤ (alignDown finish align).toNat ∧
      (type = .kPC20 ∧ start.toNat = a.toNat - 0xffffe ∧ finish.toNat = a.toNat + 0xffffe ∨
        type = .kPC32 ∧ start = a ∧ finish.toNat = a.toNat + 0x7ffff800 ∨
        type = .kVA32 ∧ start = 0 ∧ finish = 0x7ffff800) := by
  have hdown := toNat_alignDown (x := finish) hpage
  have hle : align.toNat ≤ 0x10000 := BitVec.le_def.mp hpage'
  have hup : start.toNat + align.toNat < 2 ^ 64 →
      start.toNat ≤ (alignUp start align).toNat := toNat_alignUp hpage
  cases type with
  | kPC20 =>
    obtain ⟨hs, hf⟩ := Prod.mk.inj (Option.some.inj h)
    have hs' : start.toNat = a.toNat - 0xffffe := by
      rw [← hs]
      exact BitVec.toNat_sub_of_le (BitVec.le_def.mpr ha)
    have hf' : finish.toNat = a.toNat + 0xffffe := by
      rw [← hf, BitVec.toNat_add]
      exact Nat.mod_eq_of_lt (by simp; omega)
    exact ⟨hup (by omega), hdown.1, by omega, .inl ⟨rfl, hs', hf'⟩⟩
  | kPC32 =>
    obtain ⟨hs, hf⟩ := Prod.mk.inj (Option.some.inj h)
    have hf' : finish.toNat = a.toNat + 0x7ffff800 := by
      rw [← hf, BitVec.toNat_add]
      exact Nat.mod_eq_of_lt (by simpa using hwrap)
    have hs' : start.toNat = a.toNat := congrArg BitVec.toNat hs.symm
    exact ⟨hup (by omega), hdown.1, by omega, .inr (.inl ⟨rfl, hs.symm, hf'⟩)⟩
  | kVA32 =>
    obtain ⟨hs, hf⟩ := Prod.mk.inj (Option.some.inj h)
    have hf' : finish.toNat = 0x7ffff800 := congrArg BitVec.toNat hf.symm
    have hs' : start.toNat = 0 := congrArg BitVec.toNat hs.symm
    exact ⟨hup (by omega), hdown.1, by omega, .inr (.inr ⟨rfl, hs.symm, hf.symm⟩)⟩
  | kWide => cases h
  | kCustom => cases h

/-- The null base is tried only in an inaccessible mapping at the null address. -/
theorem heapAt_null {x : MemorySpace} (hfinish : kSmallHeapSize < finish.toNat)
    (hx : Fits o start finish (BitVec.ofNat 64 kSmallHeapSize) x)
    (hbase : (heapAt finish (BitVec.ofNat 64 kSmallHeapSize) x).2 = 0) :
    x.address = 0 ∧ x.size.toNat ≤ kSmallHeapSize ∧
      (heapAt finish (BitVec.ofNat 64 kSmallHeapSize) x).1 = x.size := by
  have hrec : (BitVec.ofNat 64 kSmallHeapSize).toNat = kSmallHeapSize := rfl
  obtain ⟨hn, hb⟩ := toNat_heapAt hx.1 (BitVec.le_def.mpr (by rw [hrec]; exact hfinish.le))
  have hle : x.address.toNat ≤ finish.toNat := BitVec.le_def.mp hx.1
  rw [hbase, hrec] at *
  have haddress : x.address.toNat = 0 := by
    change 0 + _ = _ at hb
    omega
  have hsize : x.size.toNat ≤ kSmallHeapSize := by
    change 0 + _ = _ at hb
    omega
  exact ⟨BitVec.eq_of_toNat_eq haddress, hsize, BitVec.eq_of_toNat_eq (by omega)⟩

theorem previous_ne_zero {p : Word} {l : Word × Mapping} (hs : SortedMaps maps) (hp : p ≠ 0)
    (hl : l ∈ withPrevious p maps) : l.1 ≠ 0 := by
  induction maps generalizing p with
  | nil => cases hl
  | cons m maps ih =>
    rcases List.mem_cons.mp hl with rfl | hl
    · exact hp
    · refine ih hs.tail (fun hzero => ?_) hl
      have hlt := hs.nonempty m List.mem_cons_self
      rw [hzero] at hlt
      exact absurd (BitVec.lt_def.mp hlt) (Nat.not_lt_zero _)

theorem newAllocator_eq_some {minSize recommendedSize heap size : Word}
    (h : newAllocator o maps start finish minSize recommendedSize = some (heap, size)) :
    ∃ x, (x ∈ (scanMaps start finish minSize maps).spaces ∨
        x ∈ (scanMaps start finish minSize maps).dangerousSpaces) ∧
      Fits o start finish recommendedSize x ∧ size = (heapAt finish recommendedSize x).1 ∧
      heap = o.allocOSMemory size (heapAt finish recommendedSize x).2 := by
  unfold newAllocator at h
  dsimp only at h
  split at h
  · rename_i heq
    obtain rfl := Option.some.inj h
    obtain ⟨x, hx, hfits⟩ := newMemoryIn_eq_some heq
    exact ⟨x, .inl hx, hfits⟩
  · obtain ⟨x, hx, hfits⟩ := newMemoryIn_eq_some h
    exact ⟨x, .inr hx, hfits⟩

/-- A heap that `NewAllocator` finds is in the range, unless the base is null. -/
theorem newAllocator_inside {minSize heap size : Word} (hs : SortedMaps maps)
    (ho : FixedNoReplace o) (hfinish : kSmallHeapSize < finish.toNat)
    (h : newAllocator o maps start finish minSize (BitVec.ofNat 64 kSmallHeapSize) =
      some (heap, size)) :
    start.toNat ≤ heap.toNat ∧ heap.toNat + size.toNat ≤ finish.toNat ∨
      start = 0 ∧ ∃ m ∈ maps, m.start = 0 ∧ m.guard = true ∧ size = m.finish ∧
        m.finish.toNat ≤ kSmallHeapSize := by
  have hrec : (BitVec.ofNat 64 kSmallHeapSize).toNat = kSmallHeapSize := rfl
  obtain ⟨-, -, hspaces, hguards⟩ := foldl_scanLine start finish minSize {} maps
  -- a heap at a base that is not null
  have hfixed : ∀ x, Fits o start finish (BitVec.ofNat 64 kSmallHeapSize) x →
      size = (heapAt finish (BitVec.ofNat 64 kSmallHeapSize) x).1 →
      heap = o.allocOSMemory size (heapAt finish (BitVec.ofNat 64 kSmallHeapSize) x).2 →
      (heapAt finish (BitVec.ofNat 64 kSmallHeapSize) x).2 ≠ 0 →
      start.toNat ≤ heap.toNat ∧ heap.toNat + size.toNat ≤ finish.toNat := by
    intro x hx hsize hheap hbase
    obtain ⟨haddress, hstart, -, -, halloc⟩ := hx
    have hle : x.address.toNat ≤ finish.toNat := BitVec.le_def.mp haddress
    obtain ⟨-, hb⟩ := toNat_heapAt haddress (BitVec.le_def.mpr (by rw [hrec]; exact hfinish.le))
    rw [← hsize] at halloc hb
    have heq := (ho _ _ halloc).1 hbase
    rw [hheap, heq]
    exact ⟨BitVec.le_def.mp hstart, by omega⟩
  obtain ⟨x, hx, hfits, hsize, hheap⟩ := newAllocator_eq_some h
  by_cases hbase : (heapAt finish (BitVec.ofNat 64 kSmallHeapSize) x).2 = 0
  · right
    obtain ⟨haddress, hle, hn⟩ := heapAt_null hfinish hfits hbase
    have hstart : start = 0 := by
      have hle := BitVec.le_def.mp hfits.2.1
      rw [hbase] at hle
      exact BitVec.eq_of_toNat_eq (Nat.le_zero.mp hle)
    have hline : ∀ l ∈ withPrevious 0x8000 maps, l.2 ∈ maps ∧ l.1 ≠ 0 := by
      intro l hl
      obtain ⟨pre, post, hsplit⟩ := List.append_of_mem hl
      exact ⟨(line_gap hs hsplit).1, previous_ne_zero hs (by decide) hl⟩
    rcases hx with hx | hx
    · obtain ⟨l, hl, -, rfl⟩ := (hspaces x hx).resolve_left fun h => (nomatch h)
      exact absurd haddress (hline l hl).2
    · obtain ⟨l, hl, -, hguard, rfl⟩ := (hguards x hx).resolve_left fun h => (nomatch h)
      have hzero : l.2.start = 0 := haddress
      have hlen : (guardOf l).size = l.2.finish := by
        unfold guardOf
        dsimp only
        rw [hzero]
        exact BitVec.sub_zero _
      refine ⟨hstart, l.2, (hline l hl).1, hzero, hguard, ?_, ?_⟩
      · rw [hsize, hn, hlen]
      · rwa [← hlen]
  · exact .inl (hfixed x hfits hsize hheap hbase)

/-- The bounds of a block from those of its heap. -/
theorem HeapState.InsideHeap.bounds {heap ptr : Word} {n size lower upper : ℕ}
    (h : InsideHeap heap n size ptr) (hfit : heap.toNat + n < 2 ^ 64) (hlower : lower ≤ heap.toNat)
    (hupper : heap.toNat + n ≤ upper) : lower ≤ ptr.toNat ∧ ptr.toNat + size ≤ upper := by
  obtain ⟨k, rfl, hk, -⟩ := h
  have hptr : (heap + BitVec.ofNat 64 k).toNat = heap.toNat + k := by
    rw [BitVec.toNat_add, BitVec.toNat_ofNat]
    omega
  omega

theorem toInt_sub_of_bounds {x y : Word} (h : -2 ^ 63 ≤ (x.toNat : ℤ) - y.toNat)
    (h' : (x.toNat : ℤ) - y.toNat < 2 ^ 63) : (x - y).toInt = (x.toNat : ℤ) - y.toNat := by
  have hx := x.isLt
  have hy := y.isLt
  rw [BitVec.toInt_eq_toNat_cond, BitVec.toNat_sub]
  split <;> omega

open Trampoline in
/-- The first trampoline to an address in the range. -/
theorem suggestedSize_le {ptr : Word} {align : Word} {n : ℕ} (ha : 0xffffe ≤ a.toNat)
    (hwrap : a.toNat + 0x7ffff800 < 2 ^ 64) (hpage : 0 < align) (hpage' : align ≤ 0x10000)
    (h : reachOf type a = some (start, finish)) (hn : 0 < n) (hstart : start.toNat ≤ ptr.toNat)
    (hfinish : ptr.toNat + n ≤ finish.toNat) :
    getSuggestedTrampolineType a ptr ≠ .kWide ∧
      getFirstTrampolineSize (getSuggestedTrampolineType a ptr) ≤
        if type = .kPC20 then 4 else 8 := by
  obtain ⟨-, -, -, hcases⟩ := reachOf_bounds ha hwrap hpage hpage' h
  unfold getSuggestedTrampolineType
  dsimp only
  rcases hcases with ⟨rfl, hs, hf⟩ | ⟨rfl, hs, hf⟩ | ⟨rfl, hs, hf⟩
  · rw [toInt_sub_of_bounds (by omega) (by omega), if_pos (by omega)]
    exact ⟨by decide, by decide⟩
  · rw [hs] at hstart
    rw [toInt_sub_of_bounds (by omega) (by omega),
      if_neg (by decide : TrampolineType.kPC32 ≠ .kPC20)]
    split_ifs
    · exact ⟨by decide, by decide⟩
    · exact ⟨by decide, by decide⟩
    · exact ⟨by decide, by decide⟩
    · omega
  · have hlt : ptr.toNat < 0x7ffff800 := by
      have hf' : finish.toNat = 0x7ffff800 := congrArg BitVec.toNat hf
      omega
    rw [if_neg (by decide : TrampolineType.kVA32 ≠ .kPC20), if_pos hlt]
    split_ifs
    · exact ⟨by decide, by decide⟩
    · exact ⟨by decide, by decide⟩

theorem search_of_some {e : HeapSystem} {heap size : Word}
    (h : newAllocator o maps (alignUp start e.pageSize) (alignDown finish e.pageSize) e.pageSize
      (BitVec.ofNat 64 kSmallHeapSize) = some (heap, size)) :
    e.search o maps start finish = { e with heap := heap, spaceSize := size.toNat } := by
  unfold HeapSystem.search
  rw [h]

theorem search_of_none {e : HeapSystem}
    (h : newAllocator o maps (alignUp start e.pageSize) (alignDown finish e.pageSize) e.pageSize
      (BitVec.ofNat 64 kSmallHeapSize) = none) : (e.search o maps start finish).heap = 0 := by
  unfold HeapSystem.search
  rw [h]

/-- Without an inaccessible mapping at the null address every block is in reach. -/
theorem reachesRange_of_not_nullHeap (hs : SortedMaps maps) (ha : 0xffffe ≤ a.toNat)
    (hwrap : a.toNat + 0x7ffff800 < 2 ^ 64) (h : ¬ NullHeap maps type a codeSize) :
    ReachesRange maps type a codeSize := by
  intro s t e anywhere o start finish ptr hstate ho hpage hpage' hreach halloc
  obtain ⟨hstart, hfinish, hlarge, hcases⟩ := reachOf_bounds ha hwrap hpage hpage' hreach
  unfold allocTrampoline at halloc
  rw [hreach] at halloc
  dsimp only at halloc
  obtain ⟨⟨ptr', u⟩, hu, halloc⟩ := Option.bind_eq_some_iff.mp halloc
  dsimp only at halloc
  split at halloc
  · rename_i hne
    obtain ⟨rfl, -⟩ := Prod.mk.inj (Option.some.inj halloc)
    have hbounds : start.toNat ≤ ptr'.toNat ∧
        ptr'.toNat + Trampoline.secondSize codeSize ≤ finish.toNat := by
      obtain ⟨hsize, ⟨v, this, b, hv, hb, hwithin, hin⟩ | ⟨hheap, hin⟩⟩ := allocRange_inside hu hne
      · -- an existing heap between the bounds
        have hfit := hstate.heapsFit.keeps hv this b hb
        have hpages : (e.search o maps start finish).pageSize = e.pageSize := by
          unfold HeapSystem.search
          split <;> rfl
        unfold HeapState.within at hwithin
        rw [hpages, Bool.and_eq_true, Bool.not_eq_true', Bool.not_eq_true', decide_eq_false_iff_not,
          decide_eq_false_iff_not, BitVec.not_lt, BitVec.not_lt, BitVec.le_def, BitVec.le_def,
          BitVec.toNat_add, BitVec.toNat_ofNat] at hwithin
        exact hin.bounds hfit (by omega) (by omega)
      · cases heq : newAllocator o maps (alignUp start e.pageSize) (alignDown finish e.pageSize)
          e.pageSize (BitVec.ofNat 64 kSmallHeapSize) with
        | some found =>
          obtain ⟨heap, size⟩ := found
          rw [search_of_some heq] at hin
          dsimp only at hin
          rcases newAllocator_inside hs ho (by unfold kSmallHeapSize; omega) heq with
            ⟨hlow, hhigh⟩ | ⟨hzero, m, hm, hnull, hguard, rfl, hmle⟩
          · exact hin.bounds (by omega) (by omega) (by omega)
          · -- a heap asked for at the null address
            exfalso
            refine h ⟨?_, hsize, m, hm, hnull, hguard, hmle, ?_⟩
            · have hstart0 : start.toNat = 0 := by
                rw [hzero] at hstart
                exact Nat.le_zero.mp hstart
              rcases hcases with ⟨rfl, hs, -⟩ | ⟨rfl, rfl, -⟩ | ⟨rfl, -⟩
              · exact .inr ⟨rfl, BitVec.eq_of_toNat_eq (by change _ = 0xffffe; omega)⟩
              · omega
              · exact .inl rfl
            · obtain ⟨-, -, -, hcount⟩ := hin
              exact hcount
        | none => exact absurd (search_of_none heq) hheap
    have hpos : 0 < Trampoline.secondSize codeSize := Nat.succ_pos _
    exact ⟨hbounds.1, hbounds.2,
      suggestedSize_le ha hwrap hpage hpage' hreach hpos hbounds.1 hbounds.2⟩
  · obtain ⟨x, -, halloc⟩ := Option.bind_eq_some_iff.mp halloc
    obtain ⟨-, hrest⟩ := Prod.mk.inj (Option.some.inj halloc)
    cases (Prod.mk.inj hrest).1

/-! ### A heap that was asked for at the null address -/

/-- With enough free chunks the scan finds as many as it needs. -/
theorem findChunks_free {t : List Byte} {k n i count : ℕ} {x : Option ℕ}
    (hfree : ∀ j, i ≤ j → j < i + n → bit t j = some false) (hcount : count < k)
    (hn : k ≤ count + n) (hx : x = none → count = 0) :
    ∃ c, findChunks t k n i x count = some (some c, k) := by
  induction n generalizing i x count with
  | zero => omega
  | succ n ih =>
    have hbit := hfree i le_rfl (by omega)
    obtain ⟨c, hc⟩ : ∃ c, (if x = none then some i else x) = some c := by
      cases x with
      | none => exact ⟨i, rfl⟩
      | some c => exact ⟨c, rfl⟩
    unfold findChunks
    simp only [hbit, Option.bind_eq_bind, Option.bind_some, Bool.false_eq_true, if_false, hc]
    by_cases heq : count + 1 = k
    · exact ⟨c, by rw [if_pos heq, heq]⟩
    · rw [if_neg heq]
      exact ih (fun j hj hlt => hfree j (by omega) (by omega)) (by omega) (by omega)
        fun h => by cases h

/-- With its chunks all free, a heap that has enough of them has a block to give. -/
theorem allocBlock_ne_null {this : Word} {b : Memory} {m : ByteMem.Mem} {size : ℕ}
    (hgeo : Geometry b) (hsize : size ≠ 0)
    (hcount : expectedChunkCount size ≤ b.heapSize / kChunkSize)
    (hfree : ∀ j, j < b.heapSize / kChunkSize → bit b.chunkTable j = some false) :
    allocBlock this b m size ≠ some (0, b, m) := by
  intro hnull
  have hpos : 0 < expectedChunkCount size := (Block.mk 0 size).count_pos
  have hpayload := (Block.mk 0 size).payload_le
  have hmul := Nat.mul_le_mul_right kChunkSize hcount
  have hdiv := Nat.div_mul_le_self b.heapSize kChunkSize
  change kAlignment + size ≤ expectedChunkCount size * kChunkSize at hpayload
  obtain ⟨c, hfind⟩ := findChunks_free (i := 0) (n := b.heapSize / kChunkSize) (x := none)
    (fun j _ hj => hfree j (by omega)) hpos (by omega) fun _ => rfl
  unfold allocBlock at hnull
  rw [if_neg (by omega)] at hnull
  obtain ⟨⟨chunk, table⟩, hchunk, hnull⟩ := Option.bind_eq_some_iff.mp hnull
  unfold allocChunk at hchunk
  simp only [hfind, Option.bind_eq_bind, Option.bind_some, if_true] at hchunk
  obtain ⟨table', -, hchunk⟩ := Option.bind_eq_some_iff.mp hchunk
  obtain ⟨rfl, rfl⟩ := Prod.mk.inj (Option.some.inj hchunk)
  dsimp only at hnull
  split at hnull
  · -- the chunks of the block would be counted
    have hsame := congrArg (fun x : Word × Memory × ByteMem.Mem => x.2.1.allocatedChunks.toNat)
      (Option.some.inj hnull)
    have hint := hgeo.int
    have hlt : expectedChunkCount size < 2 ^ 38 := by
      unfold kChunkSize at hdiv hmul
      omega
    dsimp only at hsame
    rw [BitVec.toNat_add, BitVec.toNat_ofNat] at hsame
    have hbound := b.allocatedChunks.isLt
    omega
  · cases hnull

/-- The first allocation in a new heap whose chunks are all free. -/
theorem doAlloc_first {s : HeapState} {this : Word} {b : Memory} {size : ℕ}
    (hp : s.allocators this = some b) (hguard : s.GuardedAt b) (hgeo : Geometry b)
    (hchunks : b.allocatedChunks = 0) (hsize : size ≠ 0)
    (hcount : expectedChunkCount size ≤ b.heapSize / kChunkSize)
    (hfree : ∀ j, j < b.heapSize / kChunkSize → bit b.chunkTable j = some false) :
    ∃ c t, s.doAlloc this size = some (Block.ptr ⟨c, size⟩ b.heap, t) ∧
      Block.ptr ⟨c, size⟩ b.heap ≠ 0 ∧ c * kChunkSize + kAlignment + size ≤ b.heapSize := by
  have hempty : BlocksSafe this b s.mem [] :=
    ⟨fun _ h => (nomatch h), fun _ h => (nomatch h), .nil, fun _ h => (nomatch h),
      fun _ h => (nomatch h), by rw [hchunks]; rfl⟩
  rcases allocBlock_eq (geometry_references (r := b.references + 1) hgeo)
      (blocksSafe_references hempty) size with hnull | ⟨c, a', m', hblock, hgeo', hs', -, -, ha, -⟩
  · exact absurd hnull (allocBlock_ne_null (geometry_references hgeo) hsize hcount hfree)
  · have hheap : a'.heap = b.heap := by rw [ha]
    have hlen : a'.heapSize = b.heapSize := by rw [ha]
    have hne := ptr_ne_zero hgeo' hs' List.mem_cons_self
    rw [hheap] at hne
    have hin := hs'.inside _ List.mem_cons_self
    have hpayload := hs'.payload _ List.mem_cons_self
    rw [Nat.add_mul, hlen] at hin
    dsimp only at hin hpayload
    exact ⟨c, _, doAlloc_some hp hguard hblock hne ha, hne, by omega⟩

theorem bit_replicate {n j : ℕ} (h : j < 8 * n) :
    bit (List.replicate n (0 : Byte)) j = some false := by
  unfold bit
  rw [List.getElem?_replicate, if_pos (by omega)]
  simp

/-- The first block of the ranged `Memory::Alloc` is in the new heap. -/
theorem allocRange_first {s : HeapState} {e : HeapSystem} {size : ℕ} (start finish : Word)
    (hroot : s.rootAllocator = 0) (hheap : e.heap ≠ 0) (hunit : 1024 ∣ e.spaceSize)
    (hfits : e.heap.toNat + e.spaceSize ≤ 2 ^ 64) (hint : e.spaceSize < 2 ^ 38)
    (htable : e.chunkTable = List.replicate (e.spaceSize / 1024) 0) (hpos : size ≠ 0)
    (hlt : size < kSmallHeapSize / 2)
    (hcount : expectedChunkCount size ≤ e.spaceSize / kChunkSize) :
    ∃ c t, s.allocRange e size start finish = some (Block.ptr ⟨c, size⟩ e.heap, t) ∧
      Block.ptr ⟨c, size⟩ e.heap ≠ 0 ∧ c * kChunkSize + kAlignment + size ≤ e.spaceSize := by
  unfold HeapState.allocRange
  rw [if_neg (by omega)]
  have hfrom : ∀ ok, allocFrom ok size maxAllocators 0 s = some (0, s) := fun ok => if_pos rfl
  simp only [hroot, hfrom, Option.bind_eq_bind, Option.bind_some, ne_eq, not_true_eq_false,
    if_false, hheap]
  have hlive := (HeapInv.newMemory_live s e e.spaceSize 0).1
  have hguard : (s.newMemory e e.spaceSize 0).heaps e.heap = some false := by
    unfold newMemory
    dsimp only
    rw [if_pos hheap]
    exact Function.update_self ..
  have hgeo : Geometry (Memory.mk 0 e.heap e.spaceSize e.chunkTable 0 0) :=
    ⟨hunit, hfits, hint, by rw [htable]; exact List.length_replicate ..⟩
  refine doAlloc_first (b := Memory.mk 0 e.heap e.spaceSize e.chunkTable 0 0) hlive hguard hgeo
    rfl hpos hcount fun j hj => ?_
  have htotal := hgeo.total
  dsimp only at hj htotal ⊢
  rw [htable] at htotal ⊢
  rw [List.length_replicate] at htotal
  exact bit_replicate (htotal ▸ hj)

/-- A system with memory at one address, which maps nothing at a requested base. -/
def nullSystem : SpaceSystem where
  resident _ := false
  allocOSMemory size base :=
    if base = 0 ∧ size.toNat ≤ kSmallHeapSize then 0x100000000 else 0

theorem nullSystem_eq {size base : Word} (h : nullSystem.allocOSMemory size base ≠ 0) :
    base = 0 ∧ size.toNat ≤ kSmallHeapSize ∧
      nullSystem.allocOSMemory size base = 0x100000000 := by
  unfold nullSystem at h ⊢
  dsimp only at h ⊢
  split at h
  · rename_i hif
    exact ⟨hif.1, hif.2, if_pos hif⟩
  · exact absurd rfl h

theorem nullSystem_fixedNoReplace : FixedNoReplace nullSystem := by
  intro size base h
  obtain ⟨hbase, hsize, hheap⟩ := nullSystem_eq h
  refine ⟨fun hne => absurd hbase hne, ?_⟩
  rw [hheap]
  unfold kSmallHeapSize at hsize
  change 0x100000000 + _ < _
  omega

/-- The first line, if its mapping is at the null address. -/
theorem first_of_null {m : Mapping} (hs : SortedMaps maps) (hm : m ∈ maps) (hnull : m.start = 0) :
    ∃ rest, maps = m :: rest := by
  cases maps with
  | nil => cases hm
  | cons n rest =>
    rcases List.mem_cons.mp hm with rfl | hm
    · exact ⟨rest, rfl⟩
    · have hle := BitVec.le_def.mp ((List.pairwise_cons.mp hs.sorted).1 m hm)
      have hlt := BitVec.lt_def.mp (hs.nonempty n List.mem_cons_self)
      rw [hnull] at hle
      exact absurd (hlt.trans_le hle) (Nat.not_lt_zero _)

/-- In the system with memory at one address only, `NewAllocator` gives a heap there. -/
theorem newAllocator_far {m : Mapping} {minSize : Word} (hs : SortedMaps maps) (hm : m ∈ maps)
    (hnull : m.start = 0) (hguard : m.guard = true) (hle : m.finish.toNat ≤ kSmallHeapSize)
    (hfinish : 0x20000 ≤ finish.toNat) (hlow : finish.toNat < 0x100000000) (hmin : minSize.toNat ≤ 0x10000) :
    newAllocator nullSystem maps 0 finish minSize (BitVec.ofNat 64 kSmallHeapSize) =
      some (0x100000000, m.finish) := by
  have hrec : (BitVec.ofNat 64 kSmallHeapSize).toNat = 0x10000 := rfl
  obtain ⟨rest, rfl⟩ := first_of_null hs hm hnull
  have hfirst : Noted 0 finish minSize (0x8000, m) := by
    refine ⟨BitVec.le_def.mpr (Nat.zero_le _), BitVec.le_def.mpr ?_⟩
    have hspace : (spaceOf finish (0x8000, m)).size.toNat = _ :=
      toNat_spaceSize (BitVec.le_def.mpr (by change 0x8000 ≤ _; omega))
    rw [hspace]
    change _ ≤ max m.start.toNat finish.toNat - 0x8000
    omega
  have hlen : (guardOf (0x8000, m)).size = m.finish := by
    unfold guardOf
    dsimp only
    rw [hnull]
    exact BitVec.sub_zero _
  -- the mapping is one of the dangerous spaces
  have hmem : guardOf (0x8000, m) ∈ (scanMaps 0 finish minSize (m :: rest)).dangerousSpaces := by
    refine (foldl_scanLine 0 finish minSize _ rest).2.1 _ ?_
    rw [scanLine_of_noted hfirst]
    dsimp only
    rw [if_pos hguard]
    exact List.mem_singleton_self _
  have haddress : (guardOf (0x8000, m)).address = 0 := hnull
  have hfits : Fits nullSystem 0 finish (BitVec.ofNat 64 kSmallHeapSize) (guardOf (0x8000, m)) := by
    have hin : (guardOf (0x8000, m)).address ≤ finish := by
      rw [haddress]
      exact BitVec.le_def.mpr (Nat.zero_le _)
    obtain ⟨hn, hb⟩ := toNat_heapAt hin (BitVec.le_def.mpr (by rw [hrec]; omega))
    rw [hrec, hlen] at hn
    rw [haddress, hlen] at hb
    unfold kSmallHeapSize at hle
    change _ = 0 + min _ (_ - 0) at hb
    have hbase : (heapAt finish (BitVec.ofNat 64 kSmallHeapSize) (guardOf (0x8000, m))).2 = 0 :=
      BitVec.eq_of_toNat_eq (by change _ = 0; omega)
    refine ⟨hin, BitVec.le_def.mpr (Nat.zero_le _), ?_, rfl, ?_⟩
    · rw [hbase]
      change (0#64 + _) ≤ _
      rw [BitVec.zero_add, BitVec.le_def]
      omega
    · rw [hbase]
      unfold nullSystem
      dsimp only
      rw [if_pos ⟨rfl, by rw [hn]; exact min_le_right _ _⟩]
      decide
  cases h : newAllocator nullSystem (m :: rest) 0 finish minSize (BitVec.ofNat 64 kSmallHeapSize) with
  | none => exact absurd hfits ((newAllocator_eq_none.mp h).2 _ hmem)
  | some found =>
    obtain ⟨heap, size⟩ := found
    obtain ⟨x, -, hx, hsize, hheap⟩ := newAllocator_eq_some h
    have hfar := (nullSystem_eq (hsize ▸ hx.2.2.2.2)).2.2
    rw [← hheap] at hfar
    rcases newAllocator_inside hs nullSystem_fixedNoReplace (by unfold kSmallHeapSize; omega) h with
      ⟨-, hhigh⟩ | ⟨-, n, hn, hstart, -, rfl, -⟩
    · rw [hfar] at hhigh
      change 0x100000000 + _ ≤ _ at hhigh
      omega
    · obtain ⟨rest', heq⟩ := first_of_null hs hn hstart
      obtain ⟨rfl, -⟩ := List.cons.inj heq
      rw [hfar]

theorem allocTrampoline_of_allocRange {s t : HeapState} {e anywhere : HeapSystem} {ptr : Word}
    (hreach : Trampoline.reachOf type a = some (start, finish))
    (h : s.allocRange (e.search o maps start finish) (Trampoline.secondSize codeSize) start finish =
      some (ptr, t)) (hne : ptr ≠ 0) :
    s.allocTrampoline e anywhere o maps type a codeSize = some (ptr, true, t) := by
  unfold allocTrampoline
  rw [hreach]
  dsimp only
  rw [h]
  exact if_pos hne

/-- A heap asked for at the null address may be anywhere. -/
theorem not_reachesRange_of_nullHeap (hs : MapsFile maps) (ha : 0xffffe ≤ a.toNat)
    (hwrap : a.toNat + 0x7ffff800 < 2 ^ 64) (h : NullHeap maps type a codeSize) :
    ¬ ReachesRange maps type a codeSize := by
  obtain ⟨htype, hsize, m, hm, hnull, hguard, hle, hcount⟩ := h
  obtain ⟨finish, hreach, hupper⟩ : ∃ finish, Trampoline.reachOf type a = some (0, finish) ∧
      finish.toNat < 0x100000000 := by
    rcases htype with rfl | ⟨rfl, rfl⟩
    · exact ⟨0x7ffff800, rfl, by decide⟩
    · exact ⟨0x1ffffc, rfl, by decide⟩
  generalize hz : List.replicate (m.finish.toNat / 1024) (0 : Byte) = zeros
  generalize he : HeapSystem.mk 1 0 kSmallHeapSize zeros 4096 = e
  have hpages : e.pageSize = 4096 := by rw [← he]
  have hpos : 0 < e.pageSize := by
    rw [hpages]
    decide
  have hpage : e.pageSize ≤ 0x10000 := by
    rw [hpages]
    decide
  obtain ⟨-, hdown, hlarge, -⟩ := reachOf_bounds ha hwrap hpos hpage hreach
  have hup : alignUp 0 e.pageSize = 0 := by
    rw [hpages]
    decide
  have hfound : newAllocator nullSystem maps (alignUp 0 e.pageSize) (alignDown finish e.pageSize)
      e.pageSize (BitVec.ofNat 64 kSmallHeapSize) = some (0x100000000, m.finish) := by
    rw [hup]
    exact newAllocator_far hs.toSortedMaps hm hnull hguard hle hlarge (by omega)
      (BitVec.le_def.mp hpage)
  have hsearch := search_of_some hfound
  unfold kSmallHeapSize at hle
  let s : HeapState := { mem := fun _ => 0, allocators := fun _ => none, heaps := fun _ => none }
  obtain ⟨c, t, halloc, hne, hin⟩ : ∃ c t,
      s.allocRange (e.search nullSystem maps 0 finish) (Trampoline.secondSize codeSize) 0 finish =
        some (Block.ptr ⟨c, Trampoline.secondSize codeSize⟩ 0x100000000, t) ∧
      Block.ptr ⟨c, Trampoline.secondSize codeSize⟩ 0x100000000 ≠ 0 ∧
      c * kChunkSize + kAlignment + Trampoline.secondSize codeSize ≤ m.finish.toNat := by
    have hend : (0x100000000 : Word).toNat + m.finish.toNat ≤ 2 ^ 64 := by
      change 0x100000000 + _ ≤ _
      omega
    rw [hsearch]
    exact allocRange_first 0 finish rfl (show (0x100000000 : Word) ≠ 0 by decide) (hs.pages m hm)
      hend (show m.finish.toNat < 2 ^ 38 by omega) (by rw [← he, ← hz]) (Nat.succ_ne_zero _)
      hsize hcount
  intro hreaches
  have hbounds := hreaches s t e e nullSystem 0 finish _ (.initial _) nullSystem_fixedNoReplace
    hpos hpage hreach (allocTrampoline_of_allocRange hreach halloc hne)
  have hptr : (Block.ptr ⟨c, Trampoline.secondSize codeSize⟩ 0x100000000).toNat =
      0x100000000 + (c * kChunkSize + kAlignment) := by
    unfold Block.ptr
    rw [BitVec.toNat_add, BitVec.toNat_ofNat]
    dsimp only
    change (0x100000000 + _) % _ = _
    omega
  have hhigh := hbounds.2.1
  rw [hptr] at hhigh
  omega

/-- Every block of the ranged `Memory::Alloc` is in reach, unless a heap can be asked for at the
null address. -/
theorem reachesRange_iff (hs : MapsFile maps) (ha : 0xffffe ≤ a.toNat)
    (hwrap : a.toNat + 0x7ffff800 < 2 ^ 64) :
    ReachesRange maps type a codeSize ↔ ¬ NullHeap maps type a codeSize :=
  ⟨fun h hnull => not_reachesRange_of_nullHeap hs ha hwrap hnull h,
    reachesRange_of_not_nullHeap hs.toSortedMaps ha hwrap⟩

end Reach

/-- An inaccessible page at the null address, before a program. -/
def nullMaps : List Mapping := [⟨0, 0x1000, true⟩, ⟨0x10000, 0x20000, false⟩]

theorem nullMaps_mapsFile : MapsFile nullMaps := ⟨⟨by decide, by decide⟩, by decide⟩

/-- A range above the null address has every block in reach. -/
theorem reachesRange_sample : ReachesRange nullMaps .kPC20 0x200000 800 :=
  (reachesRange_iff nullMaps_mapsFile (by decide) (by decide)).mpr fun h => by
    rcases h.1 with h | ⟨-, h⟩
    · exact absurd h (by decide)
    · exact absurd h (by decide)

/-- A heap is asked for at the null address, and it comes from anywhere. -/
theorem vA32_not_reachesRange :
    MapsFile nullMaps ∧ 0xffffe ≤ (0x200000 : Word).toNat ∧
      (0x200000 : Word).toNat + 0x7ffff800 < 2 ^ 64 ∧
      ¬ ReachesRange nullMaps .kVA32 0x200000 800 := by
  refine ⟨nullMaps_mapsFile, by decide, by decide, ?_⟩
  refine not_reachesRange_of_nullHeap nullMaps_mapsFile (by decide) (by decide) ?_
  exact ⟨.inl rfl, by decide, ⟨0, 0x1000, true⟩, by simp [nullMaps], rfl, rfl, by decide, by decide⟩

end Rv64Hook
