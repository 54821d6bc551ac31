import Rv64Hook.Memory.Chunks

/-! Allocations and releases on one of several allocators, with the scopes that make its heap
writable. -/
namespace Rv64Hook
open ByteMem Rv64 Bitmap

namespace HeapState

open Memory

variable {s : HeapState} {this p : Word} {a a' : Memory} {bs : List Block} {b : Block} {m : Mem}

/-- The heap of an allocator is writable while a scope refers to it. -/
def GuardedAt (s : HeapState) (a : Memory) : Prop :=
  s.heaps a.heap = some (decide (a.references ≠ 0))

theorem openScope_eq (hp : s.allocators this = some a) (hg : s.GuardedAt a) :
    s.openScope this =
      { s.setAllocator this { a with references := a.references + 1 } with
        heaps := Function.update s.heaps a.heap (some true) } := by
  have hone : a.references + 1 = 1 ↔ a.references = 0 := by simp
  unfold openScope
  rw [hp]
  dsimp only
  by_cases hzero : a.references = 0
  · rw [if_pos (hone.mpr hzero)]
    unfold protectOSMemory
    rw [show (s.setAllocator this { a with references := a.references + 1 }).heaps a.heap =
      some (decide (a.references ≠ 0)) from hg]
    rfl
  · rw [if_neg fun h => hzero (hone.mp h)]
    have htrue : s.heaps a.heap = some true := by
      rw [hg, decide_eq_true hzero]
    rw [← htrue, Function.update_eq_self]
    rfl

theorem closeScope_eq (hp : s.allocators this = some a) (hheap : s.heaps a.heap = some true) :
    s.closeScope this =
      { s.setAllocator this { a with references := a.references - 1 } with
        heaps := Function.update s.heaps a.heap (some (decide (a.references - 1 ≠ 0))) } := by
  unfold closeScope
  rw [hp]
  dsimp only
  by_cases hzero : a.references - 1 = 0
  · rw [if_pos hzero]
    unfold protectOSMemory
    rw [show (s.setAllocator this { a with references := a.references - 1 }).heaps a.heap =
      some true from hheap, decide_eq_false (not_not.mpr hzero)]
    rfl
  · rw [if_neg hzero, decide_eq_true hzero, ← hheap, Function.update_eq_self]
    rfl

theorem setAllocator_self (hp : s.allocators this = some a) : s.setAllocator this a = s := by
  unfold setAllocator
  rw [← hp, Function.update_eq_self]

/-- A scope that is opened and closed again changes nothing. -/
theorem closeScope_openScope (hp : s.allocators this = some a) (hg : s.GuardedAt a) :
    (s.openScope this).closeScope this = s := by
  rw [openScope_eq hp hg, closeScope_eq (a := { a with references := a.references + 1 })
    (Function.update_self ..) (Function.update_self ..)]
  have hsub : a.references + 1 - 1 = a.references := by simp
  unfold setAllocator
  dsimp only
  rw [hsub, Function.update_idem, Function.update_idem, ← hg, Function.update_eq_self, ← hp,
    Function.update_eq_self]

theorem blocksSafe_references {r : Word} (hs : BlocksSafe this a m bs) :
    BlocksSafe this { a with references := r } m bs :=
  ⟨hs.inside, hs.payload, hs.disjoint, hs.used, hs.header, hs.allocated⟩

theorem geometry_references {r : Word} (hg : Geometry a) : Geometry { a with references := r } :=
  ⟨hg.unit, hg.fits, hg.int, hg.table⟩

/-- The end of a call that has changed the chunks of an allocator in its scope. -/
theorem closeScope_written (hp : s.allocators this = some a) (hg : s.GuardedAt a)
    (ha : a' = { a with
      references := a.references + 1
      chunkTable := a'.chunkTable
      allocatedChunks := a'.allocatedChunks }) :
    ∃ t, ((s.openScope this).setAllocator this a').writeHeap a'.heap m = some t ∧
      t.defaultAllocator = s.defaultAllocator ∧
      t.allocators = Function.update s.allocators this (some a') ∧
      t.rootAllocator = s.rootAllocator ∧ t.heaps = Function.update s.heaps a.heap (some true) ∧
      t.fault = s.fault ∧ t.mem = m ∧
      t.closeScope this =
        { s.setAllocator this { a' with references := a.references } with mem := m } := by
  have hheap : a'.heap = a.heap := by rw [ha]
  have hrefs : a'.references - 1 = a.references := by
    rw [ha]
    simp
  rw [openScope_eq hp hg]
  have hwrite : (setAllocator { s.setAllocator this { a with references := a.references + 1 } with
      heaps := Function.update s.heaps a.heap (some true) } this a').writeHeap a'.heap m =
      some { s.setAllocator this a' with
        heaps := Function.update s.heaps a.heap (some true)
        mem := m } := by
    unfold writeHeap setAllocator
    dsimp only
    rw [hheap, Function.update_self, Function.update_idem]
    simp
  refine ⟨_, hwrite, rfl, rfl, rfl, rfl, rfl, rfl, ?_⟩
  rw [closeScope_eq (a := a') (Function.update_self ..) (by rw [hheap]; exact Function.update_self ..)]
  unfold setAllocator
  dsimp only
  rw [hheap, hrefs, Function.update_idem, Function.update_idem, ← hg, Function.update_eq_self]

/-- `DoAlloc`, where its body finds a block. -/
theorem doAlloc_some {c size : ℕ} (hp : s.allocators this = some a) (hg : s.GuardedAt a)
    (hsome : allocBlock this { a with references := a.references + 1 } s.mem size =
      some (Block.ptr ⟨c, size⟩ a.heap, a', m))
    (hne : Block.ptr ⟨c, size⟩ a.heap ≠ 0)
    (ha : a' = { a with
      references := a.references + 1
      chunkTable := a'.chunkTable
      allocatedChunks := a'.allocatedChunks }) :
    s.doAlloc this size = some (Block.ptr ⟨c, size⟩ a.heap,
      { s.setAllocator this { a' with references := a.references } with mem := m }) := by
  have hopen : (s.openScope this).allocators this =
      some { a with references := a.references + 1 } := by
    rw [openScope_eq hp hg]
    exact Function.update_self ..
  have hmem : (s.openScope this).mem = s.mem := by
    rw [openScope_eq hp hg]
    rfl
  have hheap : a'.heap = a.heap := by rw [ha]
  obtain ⟨t, ht, -, -, -, -, -, -, hclose⟩ := closeScope_written (m := m) hp hg ha
  rw [hheap] at ht
  simp only [doAlloc, hopen, hmem, hsome, Option.bind_eq_bind, Option.bind_some, if_neg hne, hheap,
    ht, hclose]

/-- `DoAlloc` fails and changes nothing, or it adds a block to the allocator. -/
theorem doAlloc_eq (hp : s.allocators this = some a) (hg : s.GuardedAt a) (hgeo : Geometry a)
    (hs : BlocksSafe this a s.mem bs) (size : ℕ) :
    s.doAlloc this size = some (0, s) ∨ ∃ c a' m',
      s.doAlloc this size = some (Block.ptr ⟨c, size⟩ a.heap,
        { s.setAllocator this a' with mem := m' }) ∧
      Geometry a' ∧ BlocksSafe this a' m' (⟨c, size⟩ :: bs) ∧
      a' = { a with chunkTable := a'.chunkTable, allocatedChunks := a'.allocatedChunks } ∧
      m' = store s.mem (a.heap + BitVec.ofNat 64 (c * kChunkSize))
        (headerBytes (BitVec.ofNat 32 (expectedChunkCount size)) this) := by
  rcases allocBlock_eq (geometry_references (r := a.references + 1) hgeo)
      (blocksSafe_references hs) size with
    hnone | ⟨c, a', m', hsome, hgeo', hs', -, -, ha, hm⟩
  · left
    have hopen : (s.openScope this).allocators this =
        some { a with references := a.references + 1 } := by
      rw [openScope_eq hp hg]
      exact Function.update_self ..
    have hmem : (s.openScope this).mem = s.mem := by
      rw [openScope_eq hp hg]
      rfl
    simp only [doAlloc, hopen, hmem, hnone, Option.bind_eq_bind, Option.bind_some,
      setAllocator_self hopen, closeScope_openScope hp hg, if_pos]
  · right
    have hheap : a'.heap = a.heap := by rw [ha]
    have hne := ptr_ne_zero hgeo' hs' (List.mem_cons_self (a := Block.mk c size))
    rw [hheap] at hne
    exact ⟨c, { a' with references := a.references }, m', doAlloc_some hp hg hsome hne ha,
      geometry_references hgeo', blocksSafe_references hs', by rw [ha], hm⟩

end HeapState
end Rv64Hook
