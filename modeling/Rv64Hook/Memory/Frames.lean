import Rv64Hook.Memory.Runs
import Rv64Hook.Memory.OutOfMemory

/-! What the calls on the memory leave alone: the bytes outside the headers, the places of the
heaps, and the chunks of other blocks. -/
namespace Rv64Hook
open ByteMem Rv64 Bitmap

namespace HeapState

open Memory

variable {s t u : HeapState} {this ptr : Word} {a : Memory} {e : HeapSystem} {size n : ℕ}
  {m m' m'' : Mem}

/-! ### What the calls write -/

/-- Only the header of the block has changed, and nothing for null. -/
def WritesHeader (m m' : Mem) (ptr : Word) : Prop :=
  ∀ x, (ptr = 0 ∨ ¬ InRange (ptr - BitVec.ofNat 64 kAlignment) kAlignment x) → m' x = m x

theorem WritesHeader.refl (m : Mem) (ptr : Word) : WritesHeader m m ptr := fun _ _ => rfl

/-- A call that gives null comes before another one. -/
theorem WritesHeader.trans (h : WritesHeader m m' 0) (h' : WritesHeader m' m'' ptr) :
    WritesHeader m m'' ptr :=
  fun x hx => (h' x hx).trans (h x (.inl rfl))

/-- A store to the header. -/
theorem store_header {header x : Word} {k : ℕ} {bytes : List Byte}
    (hk : k + bytes.length ≤ kAlignment) (hx : ¬ InRange header kAlignment x) :
    store m (header + BitVec.ofNat 64 k) bytes x = m x := by
  apply store_of_not_inRange
  unfold kAlignment at hk hx
  rw [inRange_offset (by omega)]
  unfold InRange at hx
  omega

theorem openScope_mem (s : HeapState) (this : Word) : (s.openScope this).mem = s.mem := by
  cases hp : s.allocators this with
  | none => simp [openScope, hp]
  | some a => exact (openScope_frame hp).1.mem

theorem closeScope_mem (s : HeapState) (this : Word) : (s.closeScope this).mem = s.mem := by
  cases hp : s.allocators this with
  | none => simp [closeScope, hp]
  | some a => exact (closeScope_frame hp).1.mem

theorem openScopeAt_mem (s : HeapState) (ptr : Word) : (s.openScopeAt ptr).1.mem = s.mem := by
  unfold openScopeAt
  split
  · rfl
  · exact openScope_mem s _

theorem closeScopeAt_mem (s : HeapState) (allocator : Word) :
    (s.closeScopeAt allocator).mem = s.mem := by
  unfold closeScopeAt
  split
  · exact closeScope_mem s _
  · rfl

theorem writeHeap_mem {heap : Word} (h : s.writeHeap heap m = some t) : t.mem = m := by
  obtain ⟨w, -, h⟩ := Option.bind_eq_some_iff.mp h
  obtain rfl := Option.some.inj h
  rfl

theorem newMemory_mem (s : HeapState) (e : HeapSystem) (size : ℕ) (next : Word) :
    (s.newMemory e size next).mem = s.mem := by
  unfold newMemory
  dsimp only
  split <;> rfl

theorem allocBlock_writes {a' : Memory} (h : allocBlock this a m size = some (ptr, a', m')) {x : Word}
    (hx : ¬ InRange (ptr - BitVec.ofNat 64 kAlignment) kAlignment x) : m' x = m x := by
  unfold allocBlock at h
  split at h
  · simp only [Option.some.injEq, Prod.mk.injEq] at h
    exact congrFun h.2.2.symm x
  obtain ⟨⟨chunk, table⟩, -, h⟩ := Option.bind_eq_some_iff.mp h
  cases chunk with
  | none =>
    simp only [Option.some.injEq, Prod.mk.injEq] at h
    exact congrFun h.2.2.symm x
  | some chunk =>
    dsimp only at h
    split at h
    · simp only [Option.some.injEq, Prod.mk.injEq] at h
      obtain ⟨rfl, -, rfl⟩ := h
      rw [BitVec.add_sub_cancel] at hx
      have hlen : 0 + (headerBytes (BitVec.ofNat 32 (expectedChunkCount size)) this).length ≤
          kAlignment := by
        simp [length_headerBytes, kAlignment]
      have hstore := store_header (m := m) hlen hx
      simpa using hstore
    · cases h

theorem doAlloc_writes (h : s.doAlloc this size = some (ptr, t)) :
    WritesHeader s.mem t.mem ptr := by
  unfold doAlloc at h
  obtain ⟨a, -, h⟩ := Option.bind_eq_some_iff.mp h
  obtain ⟨⟨ptr', a', m⟩, hblock, h⟩ := Option.bind_eq_some_iff.mp h
  rw [openScope_mem] at hblock
  dsimp only at h
  split at h
  · simp only [Option.some.injEq, Prod.mk.injEq] at h
    obtain ⟨rfl, rfl⟩ := h
    rw [closeScope_mem]
    intro x _
    exact congrFun (openScope_mem s this) x
  · rename_i hne
    obtain ⟨u, hu, h⟩ := Option.bind_eq_some_iff.mp h
    simp only [Option.some.injEq, Prod.mk.injEq] at h
    obtain ⟨rfl, rfl⟩ := h
    rw [closeScope_mem, writeHeap_mem hu]
    intro x hx
    exact allocBlock_writes hblock (hx.resolve_left hne)

theorem allocFrom_writes {ok : Memory → Bool} {p : Word}
    (h : allocFrom ok size n p s = some (ptr, t)) : WritesHeader s.mem t.mem ptr := by
  induction n generalizing s p with
  | zero => cases h
  | succ n ih =>
    unfold allocFrom at h
    split at h
    · obtain ⟨rfl, rfl⟩ := Prod.mk.inj (Option.some.inj h)
      exact .refl _ 0
    obtain ⟨a, -, h⟩ := Option.bind_eq_some_iff.mp h
    have htry : ∃ ptr' u, WritesHeader s.mem u.mem ptr' ∧ (if ptr' ≠ 0 then some (ptr', u)
        else (u.allocators p).bind fun a => allocFrom ok size n a.next u) = some (ptr, t) := by
      dsimp only at h
      split at h
      · obtain ⟨⟨ptr', u⟩, hu, h⟩ := Option.bind_eq_some_iff.mp h
        exact ⟨ptr', u, doAlloc_writes hu, h⟩
      · exact ⟨0, s, .refl _ 0, h⟩
    obtain ⟨ptr', u, hu, h⟩ := htry
    split at h
    · obtain ⟨rfl, rfl⟩ := Prod.mk.inj (Option.some.inj h)
      exact hu
    · rename_i hzero
      obtain rfl := not_not.mp hzero
      obtain ⟨b, -, h⟩ := Option.bind_eq_some_iff.mp h
      exact hu.trans (ih h)

theorem alloc_writes (h : s.alloc e size = some (ptr, t)) : WritesHeader s.mem t.mem ptr := by
  unfold alloc at h
  split at h
  · obtain ⟨rfl, rfl⟩ := Prod.mk.inj (Option.some.inj h)
    exact .refl _ 0
  obtain ⟨⟨ptr', u⟩, hu, h⟩ := Option.bind_eq_some_iff.mp h
  have hfrom := allocFrom_writes hu
  dsimp only at h
  split at h
  · obtain ⟨rfl, rfl⟩ := Prod.mk.inj (Option.some.inj h)
    exact hfrom
  · rename_i hzero
    obtain rfl := not_not.mp hzero
    have hnew := doAlloc_writes h
    rw [newMemory_mem] at hnew
    exact hfrom.trans hnew

theorem allocRange_writes {start finish : Word}
    (h : s.allocRange e size start finish = some (ptr, t)) : WritesHeader s.mem t.mem ptr := by
  unfold allocRange at h
  split at h
  · obtain ⟨rfl, rfl⟩ := Prod.mk.inj (Option.some.inj h)
    exact .refl _ 0
  obtain ⟨⟨ptr', u⟩, hu, h⟩ := Option.bind_eq_some_iff.mp h
  have hfrom := allocFrom_writes hu
  dsimp only at h
  split at h
  · obtain ⟨rfl, rfl⟩ := Prod.mk.inj (Option.some.inj h)
    exact hfrom
  rename_i hzero
  obtain rfl := not_not.mp hzero
  split at h
  · obtain ⟨rfl, rfl⟩ := Prod.mk.inj (Option.some.inj h)
    exact hfrom
  · have hnew := doAlloc_writes h
    rw [newMemory_mem] at hnew
    exact hfrom.trans hnew

theorem unlink_mem {next : Word} {link : Option Word} (h : unlink this next n link s = some t) :
    t.mem = s.mem := by
  induction n generalizing link with
  | zero => cases h
  | succ n ih =>
    unfold unlink at h
    obtain ⟨current, -, h⟩ := Option.bind_eq_some_iff.mp h
    split_ifs at h
    · obtain rfl := Option.some.inj h
      rfl
    · cases link with
      | none =>
        obtain rfl := Option.some.inj h
        rfl
      | some p =>
        obtain ⟨a, -, h⟩ := Option.bind_eq_some_iff.mp h
        obtain rfl := Option.some.inj h
        rfl
    · exact ih h

theorem doFree_writes (h : s.doFree this ptr = some t) {x : Word}
    (hx : ¬ InRange (ptr - BitVec.ofNat 64 kAlignment) kAlignment x) : t.mem x = s.mem x := by
  unfold doFree at h
  obtain ⟨a, -, h⟩ := Option.bind_eq_some_iff.mp h
  obtain ⟨⟨a', m⟩, hfree, h⟩ := Option.bind_eq_some_iff.mp h
  obtain ⟨u, hu, h⟩ := Option.bind_eq_some_iff.mp h
  have hm : m x = s.mem x := by
    unfold freeBlock at hfree
    dsimp only at hfree
    split at hfree
    · obtain ⟨table, -, hfree⟩ := Option.bind_eq_some_iff.mp hfree
      obtain ⟨-, rfl⟩ := Prod.mk.inj (Option.some.inj hfree)
      rw [openScope_mem]
      exact store_header (k := 4) (by simp [kAlignment]) hx
    · cases hfree
  split at h
  · obtain ⟨v, hv, h⟩ := Option.bind_eq_some_iff.mp h
    obtain rfl := Option.some.inj h
    rw [closeScope_mem]
    have hdelete : (v.deleteAllocator this a'.heap).mem = v.mem := rfl
    rw [hdelete, unlink_mem hv, writeHeap_mem hu, hm]
  · obtain rfl := Option.some.inj h
    rw [closeScope_mem, writeHeap_mem hu, hm]

theorem free_writes (h : s.free ptr = some t) : WritesHeader s.mem t.mem ptr := by
  unfold free at h
  split at h
  · obtain rfl := Option.some.inj h
    exact .refl _ ptr
  · rename_i header hheader
    have hne : ptr ≠ 0 := by
      rintro rfl
      simp [getMemoryHeader] at hheader
    intro x hx
    exact doFree_writes h (hx.resolve_left hne)

theorem writeBlock_mem {heap : Word} {offset : ℕ} {bytes : List Byte}
    (h : s.writeBlock heap ptr offset bytes = some t) :
    t.mem = store s.mem (ptr + BitVec.ofNat 64 offset) bytes := by
  have hmem := openScopeAt_mem s ptr
  unfold writeBlock at h
  obtain ⟨v, allocator⟩ := s.openScopeAt ptr
  obtain ⟨u, hu, h⟩ := Option.bind_eq_some_iff.mp h
  obtain rfl := Option.some.inj h
  rw [closeScopeAt_mem, writeHeap_mem hu]
  exact congrArg (store · _ bytes) hmem

/-! ### Heaps stay where they are -/

/-- An allocator that is live before and after a call has the same heap. -/
def SameHeaps (s t : HeapState) : Prop :=
  ∀ p a b, s.allocators p = some a → t.allocators p = some b → b.heap = a.heap

theorem KeepsHeaps.sameHeaps (h : KeepsHeaps s t) : SameHeaps s t := by
  intro p a b ha hb
  obtain ⟨c, hc, hheap, -⟩ := h p b hb
  obtain rfl := Option.some.inj (ha.symm.trans hc)
  exact hheap.symm

/-- A new allocator is not one that was live. -/
theorem sameHeaps_new {heapSize : ℕ} {next : Word} (hobject : s.allocators e.allocator = none)
    (hsu : KeepsHeaps s u) (hut : KeepsHeaps (u.newMemory e heapSize next) t) : SameHeaps s t := by
  intro p a b ha hb
  have hp : p ≠ e.allocator := by
    rintro rfl
    rw [hobject] at ha
    cases ha
  obtain ⟨c, hc, hheap, -⟩ := hut p b hb
  have hold : u.allocators p = some c := by
    unfold newMemory at hc
    dsimp only at hc
    split at hc
    · exact (Function.update_of_ne hp ..).symm.trans hc
    · exact (Function.update_of_ne hp ..).symm.trans hc
  rw [← hheap]
  exact hsu.sameHeaps p a c ha hold

theorem alloc_sameHeaps (hobject : s.allocators e.allocator = none)
    (h : s.alloc e size = some (ptr, t)) : SameHeaps s t := by
  unfold alloc at h
  split at h
  · obtain ⟨-, rfl⟩ := Prod.mk.inj (Option.some.inj h)
    exact (KeepsHeaps.refl s).sameHeaps
  obtain ⟨⟨ptr', u⟩, hu, h⟩ := Option.bind_eq_some_iff.mp h
  have hsu := (allocFrom_inside hu).1
  dsimp only at h
  split at h
  · obtain ⟨-, rfl⟩ := Prod.mk.inj (Option.some.inj h)
    exact hsu.sameHeaps
  · exact sameHeaps_new hobject hsu (doAlloc_inside h).1

theorem allocRange_sameHeaps {start finish : Word}
    (hobject : e.heap ≠ 0 → s.allocators e.allocator = none)
    (h : s.allocRange e size start finish = some (ptr, t)) : SameHeaps s t := by
  unfold allocRange at h
  split at h
  · obtain ⟨-, rfl⟩ := Prod.mk.inj (Option.some.inj h)
    exact (KeepsHeaps.refl s).sameHeaps
  obtain ⟨⟨ptr', u⟩, hu, h⟩ := Option.bind_eq_some_iff.mp h
  have hsu := (allocFrom_inside hu).1
  dsimp only at h
  split at h
  · obtain ⟨-, rfl⟩ := Prod.mk.inj (Option.some.inj h)
    exact hsu.sameHeaps
  split at h
  · obtain ⟨-, rfl⟩ := Prod.mk.inj (Option.some.inj h)
    exact hsu.sameHeaps
  · rename_i hheap
    exact sameHeaps_new (hobject hheap) hsu (doAlloc_inside h).1

theorem free_keepsHeaps (h : s.free ptr = some t) : KeepsHeaps s t := by
  unfold free at h
  split at h
  · obtain rfl := Option.some.inj h
    exact .refl s
  · exact doFree_keepsHeaps h

theorem writeBlock_keepsHeaps {heap : Word} {offset : ℕ} {bytes : List Byte}
    (h : s.writeBlock heap ptr offset bytes = some t) : KeepsHeaps s t := by
  have hopen := openScopeAt_keepsHeaps s ptr
  unfold writeBlock at h
  obtain ⟨u, hu, h⟩ := Option.bind_eq_some_iff.mp h
  obtain rfl := Option.some.inj h
  exact (hopen.trans (.writeHeap hu)).trans (closeScopeAt_keepsHeaps u _)

end HeapState

open Memory HeapState

/-! ### The chunks of the blocks -/

/-- The address is one of the chunks of a block. -/
def Block.Extent (b : Block) (a : Memory) (x : Word) : Prop :=
  InRange (a.heap + BitVec.ofNat 64 (b.chunk * kChunkSize)) (b.count * kChunkSize) x

namespace HeapInv

variable {s t : HeapState} {ds rs : List Word} {bs : List (Word × Block)} {scopes : List Word}
  {p q x : Word} {a c : Memory} {b d : Block}

theorem extent_iff (hi : HeapInv s ds rs bs scopes) (hp : s.allocators p = some a)
    (hb : (p, b) ∈ bs) : b.Extent a x ↔ b.chunk * kChunkSize ≤ (x - a.heap).toNat ∧
      (x - a.heap).toNat < (b.chunk + b.count) * kChunkSize := by
  have hin := (hi.blocks p a hp).inside b (mem_blocksOf.mpr hb)
  have hint := (hi.geometry p a hp).int
  rw [Nat.add_mul] at hin ⊢
  exact inRange_offset (by omega)

theorem extent_of_payload (hi : HeapInv s ds rs bs scopes) (hp : s.allocators p = some a)
    (hb : (p, b) ∈ bs) (hx : InRange (b.ptr a.heap) b.size x) : b.Extent a x := by
  have hin := (hi.blocks p a hp).inside b (mem_blocksOf.mpr hb)
  have hint := (hi.geometry p a hp).int
  have hpayload := b.payload_le
  rw [hi.extent_iff hp hb]
  rw [Nat.add_mul] at hin ⊢
  unfold Block.ptr at hx
  rw [inRange_offset (by omega)] at hx
  omega

theorem extent_of_header (hi : HeapInv s ds rs bs scopes) (hp : s.allocators p = some a)
    (hb : (p, b) ∈ bs)
    (hx : InRange (b.ptr a.heap - BitVec.ofNat 64 kAlignment) kAlignment x) : b.Extent a x := by
  have hin := (hi.blocks p a hp).inside b (mem_blocksOf.mpr hb)
  have hint := (hi.geometry p a hp).int
  have hpayload := b.payload_le
  rw [hi.extent_iff hp hb]
  rw [Nat.add_mul] at hin ⊢
  unfold Block.ptr at hx
  rw [← add_ofNat_add, BitVec.add_sub_cancel, inRange_offset (by omega)] at hx
  omega

theorem extent_ptr (hi : HeapInv s ds rs bs scopes) (hp : s.allocators p = some a)
    (hb : (p, b) ∈ bs) : b.Extent a (b.ptr a.heap) := by
  have hin := (hi.blocks p a hp).inside b (mem_blocksOf.mpr hb)
  have hint := (hi.geometry p a hp).int
  have hpos := b.count_pos
  rw [hi.extent_iff hp hb]
  unfold Block.ptr
  unfold kChunkSize at hin ⊢
  rw [offset_toNat (by unfold kAlignment; omega)]
  unfold kAlignment
  omega

theorem inRange_of_extent (hi : HeapInv s ds rs bs scopes) (hp : s.allocators p = some a)
    (hb : (p, b) ∈ bs) (hx : b.Extent a x) : InRange a.heap a.heapSize x := by
  have hin := (hi.blocks p a hp).inside b (mem_blocksOf.mpr hb)
  rw [hi.extent_iff hp hb] at hx
  exact hx.2.trans_le hin

/-- The chunks of two blocks are apart, in one heap or in two. -/
theorem extents_apart (hi : HeapInv s ds rs bs scopes) (hp : s.allocators p = some a)
    (hq : s.allocators q = some c) (hb : (p, b) ∈ bs) (hd : (q, d) ∈ bs) (hne : (p, b) ≠ (q, d))
    (hx : b.Extent a x) : ¬ d.Extent c x := by
  intro hx'
  by_cases hpq : p = q
  · subst hpq
    obtain rfl := Option.some.inj (hp.symm.trans hq)
    have hbd : b ≠ d := by
      rintro rfl
      exact hne rfl
    have hdisjoint := (hi.blocks p a hp).disjoint.forall (mem_blocksOf.mpr hb)
      (mem_blocksOf.mpr hd) hbd
    rw [hi.extent_iff hp hb] at hx
    rw [hi.extent_iff hp hd] at hx'
    unfold kChunkSize at hx hx'
    unfold Block.Disjoint at hdisjoint
    omega
  · exact (hi.separate p q a c hp hq hpq).2 x (hi.inRange_of_extent hp hb hx)
      (hi.inRange_of_extent hq hd hx')

/-- Two blocks have two addresses. -/
theorem ptr_ne (hi : HeapInv s ds rs bs scopes) (hp : s.allocators p = some a)
    (hq : s.allocators q = some c) (hb : (p, b) ∈ bs) (hd : (q, d) ∈ bs)
    (hne : (p, b) ≠ (q, d)) : b.ptr a.heap ≠ d.ptr c.heap := by
  intro heq
  apply hi.extents_apart hp hq hb hd hne (hi.extent_ptr hp hb)
  rw [heq]
  exact hi.extent_ptr hq hd

/-- A block is listed once. -/
theorem ne_of_mem_erase (hi : HeapInv s ds rs bs scopes) (hp : s.allocators p = some a)
    (hd : (q, d) ∈ bs.erase (p, b)) : (q, d) ≠ (p, b) := by
  intro heq
  obtain ⟨rfl, rfl⟩ := Prod.mk.inj heq
  rw [← mem_blocksOf, blocksOf_erase_self] at hd
  have hnodup : (blocksOf bs q).Nodup := by
    apply (hi.blocks q a hp).disjoint.imp
    rintro c _ hcd rfl
    have hpos := c.count_pos
    unfold Block.Disjoint at hcd
    omega
  exact hnodup.not_mem_erase hd

end HeapInv
end Rv64Hook
