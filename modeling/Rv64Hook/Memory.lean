import Rv64Hook.Lib.Bitmap
import Rv64Hook.Lib.Rv64

/-! The memory allocators of the library. Heaps are cut into chunks, and a table of bits says which
of them are in use. -/
namespace Rv64Hook
open ByteMem Rv64 Bitmap

def kMemoryMagic : BitVec 32 := 0xcafebeef

def kHeapSize : ℕ := 1024 * 1024

def kSmallHeapSize : ℕ := 64 * 1024

def kChunkSize : ℕ := 128

/-- The size of a `MemoryHeader`. -/
def kAlignment : ℕ := 16

/-- An object of the class `Memory`. -/
structure Memory where
  next : Word := 0
  heap : Word
  heapSize : ℕ
  chunkTable : List Byte
  allocatedChunks : Word := 0
  references : Word := 0

namespace Memory

/-- The first loop of `AllocChunk` for the `n` chunks from `i` on, with the values of `start_chunk`
(which is -1 where it is `none` here) and `count` when it ends. -/
def findChunks (chunkTable : List Byte) (chunkCount : ℕ) :
    ℕ → ℕ → Option ℕ → ℕ → Option (Option ℕ × ℕ)
  | 0, _, start, count => some (start, count)
  | n + 1, i, start, count => do
    let used ← bit chunkTable i
    if used then findChunks chunkTable chunkCount n (i + 1) none 0
    else
      let start := if start = none then some i else start
      let count := count + 1
      if count = chunkCount then some (start, count)
      else findChunks chunkTable chunkCount n (i + 1) start count

/-- `AllocChunk`; an access outside the table gives `none`. -/
def allocChunk (chunkTable : List Byte) (totalChunks chunkCount : ℕ) :
    Option (Option ℕ × List Byte) := do
  let (start, count) ← findChunks chunkTable chunkCount totalChunks 0 none 0
  if count = chunkCount then
    let start ← start
    let chunkTable ← setBits chunkCount start chunkTable
    some (some start, chunkTable)
  else some (none, chunkTable)

/-- The chunks of a block with its header. -/
def expectedChunkCount (size : ℕ) : ℕ := (size + kAlignment + (kChunkSize - 1)) / kChunkSize

/-- The access is one of the heap. -/
def inHeap (a : Memory) (addr : Word) (n : ℕ) : Bool := (addr - a.heap).toNat + n ≤ a.heapSize

/-- The bytes of a `MemoryHeader`. -/
def headerBytes (chunkCount : BitVec 32) (allocator : Word) : List Byte :=
  toBytes 4 kMemoryMagic ++ toBytes 4 chunkCount ++ toBytes 8 allocator

/-- The body of `DoAlloc`: the block, or null. An access outside the table or the heap gives
`none`. -/
def allocBlock (this : Word) (a : Memory) (m : Mem) (size : ℕ) : Option (Word × Memory × Mem) :=
  if size = 0 ∨ a.heapSize < size then some (0, a, m)
  else do
    let expected := expectedChunkCount size
    let (chunk, chunkTable) ← allocChunk a.chunkTable (a.heapSize / kChunkSize) expected
    let a := { a with chunkTable := chunkTable }
    match chunk with
    | none => some (0, a, m)
    | some chunk =>
      let header := a.heap + BitVec.ofNat 64 (chunk * kChunkSize)
      if a.inHeap header kAlignment then
        some (header + BitVec.ofNat 64 kAlignment,
          { a with allocatedChunks := a.allocatedChunks + BitVec.ofNat 64 expected },
          store m header (headerBytes (BitVec.ofNat 32 expected) this))
      else none

/-- What `DoFree` does with the chunks of a block. -/
def freeBlock (a : Memory) (m : Mem) (ptr : Word) : Option (Memory × Mem) := do
  let header := ptr - BitVec.ofNat 64 kAlignment
  if a.inHeap header kAlignment then
    let chunkCount := load 32 m (header + 4)
    let chunkTable ← clearBits chunkCount.toNat ((header - a.heap).toNat / kChunkSize) a.chunkTable
    let a := { a with
      chunkTable := chunkTable
      allocatedChunks := a.allocatedChunks - chunkCount.setWidth 64 }
    some (a, store m (header + 4) (toBytes 4 (0 : BitVec 32)))
  else none

end Memory

/-- The live allocators, the heads of their two lists, and the mapped heaps with whether they are
writable. `fault` says that a scope has touched an allocator or a heap that is gone, or that a heap
was written while it was not writable. -/
structure HeapState where
  mem : Mem
  allocators : Word → Option Memory
  defaultAllocator : Word := 0
  rootAllocator : Word := 0
  heaps : Word → Option Bool
  fault : Bool := false

/-- What the system gives to an allocation that needs a heap: the object and its table, and the heap,
null where there is no memory; `spaceSize` is the size that `NewAllocator` has found. -/
structure HeapSystem where
  allocator : Word
  heap : Word
  spaceSize : ℕ := kSmallHeapSize
  chunkTable : List Byte
  pageSize : Word := 4096

/-- A list of allocators with more steps than there are addresses goes on for ever. -/
def maxAllocators : ℕ := 2 ^ 64

namespace HeapState

open Memory

def setAllocator (s : HeapState) (p : Word) (a : Memory) : HeapState :=
  { s with allocators := Function.update s.allocators p (some a) }

/-- `ProtectOSMemory` -/
def protectOSMemory (s : HeapState) (heap : Word) (writable : Bool) : HeapState :=
  match s.heaps heap with
  | some _ => { s with heaps := Function.update s.heaps heap (some writable) }
  | none => { s with fault := true }

/-- The constructor of `ScopedWritableAllocatedMemory`. -/
def openScope (s : HeapState) (this : Word) : HeapState :=
  match s.allocators this with
  | some a =>
    let a := { a with references := a.references + 1 }
    let s := s.setAllocator this a
    if a.references = 1 then s.protectOSMemory a.heap true else s
  | none => { s with fault := true }

/-- The destructor of `ScopedWritableAllocatedMemory`, for an allocator that is not null. -/
def closeScope (s : HeapState) (this : Word) : HeapState :=
  match s.allocators this with
  | some a =>
    let a := { a with references := a.references - 1 }
    let s := s.setAllocator this a
    if a.references = 0 then s.protectOSMemory a.heap false else s
  | none => { s with fault := true }

/-- The memory after a write to a heap. A heap that is not mapped gives `none`. -/
def writeHeap (s : HeapState) (heap : Word) (m : Mem) : Option HeapState := do
  let writable ← s.heaps heap
  some { s with mem := m, fault := s.fault || !writable }

/-- `Memory::DoAlloc` -/
def doAlloc (s : HeapState) (this : Word) (size : ℕ) : Option (Word × HeapState) := do
  let s := s.openScope this
  let a ← s.allocators this
  let (ptr, a, m) ← allocBlock this a s.mem size
  let s := s.setAllocator this a
  if ptr = 0 then some (ptr, s.closeScope this)
  else
    let s ← s.writeHeap a.heap m
    some (ptr, s.closeScope this)

/-- The link that `&root_allocator_`, or `&p->next_`, points to. -/
def linkAt (s : HeapState) : Option Word → Option Word
  | none => some s.rootAllocator
  | some p => (s.allocators p).map (·.next)

def setLink (s : HeapState) : Option Word → Word → Option HeapState
  | none, v => some { s with rootAllocator := v }
  | some p, v => do
    let a ← s.allocators p
    some (s.setAllocator p { a with next := v })

/-- The loop of `DoFree`, which takes the allocator out of the list of `root_allocator_`. -/
def unlink (this next : Word) : ℕ → Option Word → HeapState → Option HeapState
  | 0, _, _ => none
  | n + 1, link, s => do
    let current ← s.linkAt link
    if current = 0 then some s
    else if current = this then s.setLink link next
    else unlink this next n (some current) s

/-- `FreeOSMemory`, and `delete` of the allocator. -/
def deleteAllocator (s : HeapState) (this heap : Word) : HeapState :=
  { s with
    heaps := Function.update s.heaps heap none
    allocators := Function.update s.allocators this none }

/-- `Memory::DoFree` -/
def doFree (s : HeapState) (this ptr : Word) : Option HeapState := do
  let s := s.openScope this
  let a ← s.allocators this
  let (a, m) ← freeBlock a s.mem ptr
  let s ← (s.setAllocator this a).writeHeap a.heap m
  if a.allocatedChunks = 0 ∧ this ≠ s.defaultAllocator then
    let s ← unlink this a.next maxAllocators none s
    some ((s.deleteAllocator this a.heap).closeScope this)
  else some (s.closeScope this)

/-- The loops of `Memory::Alloc`, over the allocators that satisfy the condition. -/
def allocFrom (ok : Memory → Bool) (size : ℕ) :
    ℕ → Word → HeapState → Option (Word × HeapState)
  | 0, _, _ => none
  | n + 1, this, s =>
    if this = 0 then some (0, s)
    else do
      let a ← s.allocators this
      let (ptr, s) ← if ok a then s.doAlloc this size else some (0, s)
      if ptr ≠ 0 then some (ptr, s)
      else
        let a ← s.allocators this
        allocFrom ok size n a.next s

/-- `new Memory`, for a heap of `AllocOSMemory`. -/
def newMemory (s : HeapState) (e : HeapSystem) (heapSize : ℕ) (next : Word) : HeapState :=
  let s := s.setAllocator e.allocator
    { next := next
      heap := e.heap
      heapSize := heapSize
      chunkTable := e.chunkTable }
  if e.heap ≠ 0 then { s with heaps := Function.update s.heaps e.heap (some false) } else s

/-- `Memory::Alloc(size)` -/
def alloc (s : HeapState) (e : HeapSystem) (size : ℕ) : Option (Word × HeapState) :=
  if kHeapSize / 2 ≤ size then some (0, s)
  else do
    let (ptr, s) ← allocFrom (fun _ => true) size maxAllocators s.defaultAllocator s
    if ptr ≠ 0 then some (ptr, s)
    else
      let s := s.newMemory e kHeapSize s.defaultAllocator
      let s := { s with defaultAllocator := e.allocator }
      s.doAlloc e.allocator size

/-- `__builtin_align_up`, for a power of two. -/
def alignUp (x align : Word) : Word := (x + (align - 1)) &&& ~~~(align - 1)

def alignDown (x align : Word) : Word := x &&& ~~~(align - 1)

/-- The heap is between the bounds. -/
def within (start finish : Word) (a : Memory) : Bool :=
  !decide (a.heap < start) && !decide (finish < a.heap + BitVec.ofNat 64 a.heapSize)

/-- `Memory::Alloc(size, start, end)`. `NewAllocator` gives an allocator where the system has found
a heap. -/
def allocRange (s : HeapState) (e : HeapSystem) (size : ℕ) (start finish : Word) :
    Option (Word × HeapState) :=
  if kSmallHeapSize / 2 ≤ size then some (0, s)
  else do
    let start := alignUp start e.pageSize
    let finish := alignDown finish e.pageSize
    let (ptr, s) ← allocFrom (within start finish) size maxAllocators s.rootAllocator s
    if ptr ≠ 0 then some (ptr, s)
    else if e.heap = 0 then some (0, s)
    else
      let s := s.newMemory e e.spaceSize s.rootAllocator
      let s := { s with rootAllocator := e.allocator }
      s.doAlloc e.allocator size

/-- `GetMemoryHeader` -/
def getMemoryHeader (m : Mem) (ptr : Word) : Option Word :=
  let header := ptr - BitVec.ofNat 64 kAlignment
  if ptr = 0 then none
  else if load 32 m header ≠ kMemoryMagic ∨ load 32 m (header + 4) = 0 ∨
      load 64 m (header + 8) = 0 then none
  else some header

/-- `Memory::Free` -/
def free (s : HeapState) (ptr : Word) : Option HeapState :=
  match getMemoryHeader s.mem ptr with
  | none => some s
  | some header => s.doFree (load 64 s.mem (header + 8)) ptr

/-- The constructor of `ScopedWritableAllocatedMemory` from a block, with the allocator that it
keeps for its destructor. -/
def openScopeAt (s : HeapState) (ptr : Word) : HeapState × Word :=
  match getMemoryHeader s.mem ptr with
  | none => (s, 0)
  | some header =>
    let allocator := load 64 s.mem (header + 8)
    (s.openScope allocator, allocator)

def closeScopeAt (s : HeapState) (allocator : Word) : HeapState :=
  if allocator ≠ 0 then s.closeScope allocator else s

/-- A write of the library to a block of a heap, in its scope: `AllocSecondTrampoline`, `Relocate`,
`NewHookHandle`, `UnhookExt` and `SetEnabledAllExt` all open one first. -/
def writeBlock (s : HeapState) (heap ptr : Word) (offset : ℕ) (bytes : List Byte) :
    Option HeapState := do
  let (s, allocator) := s.openScopeAt ptr
  let s ← s.writeHeap heap (store s.mem (ptr + BitVec.ofNat 64 offset) bytes)
  some (s.closeScopeAt allocator)

end HeapState
end Rv64Hook
