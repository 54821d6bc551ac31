import Rv64Hook.Memory.Frames
import Rv64Hook.Lib.BlockStore

/-! The memory and its clients: runs of both kinds of allocations, of releases, of nested scopes and
of writes, on all allocators together. -/
namespace Rv64Hook
open ByteMem Rv64 Bitmap LinkedList Calls BlockStore

open Memory HeapState

namespace HeapState

variable {s t : HeapState} {ds rs : List Word} {bs : List (Word × Block)} {scopes : List Word}
  {this p : Word} {a : Memory} {b : Block} {xs : List Word} {n : ℕ}

/-- The allocator that `Memory::Free` deletes, if it deletes one. -/
def deletedBy (s : HeapState) (ptr : Word) : Option Word := do
  let header ← getMemoryHeader s.mem ptr
  let this := load 64 s.mem (header + 8)
  let a ← s.allocators this
  if a.allocatedChunks = (load 32 s.mem (header + 4)).setWidth 64 ∧ this ≠ s.defaultAllocator then
    some this
  else none

/-- Following `next_` from an allocator leads to this one. -/
def reaches (s : HeapState) (this : Word) : ℕ → Word → Bool
  | 0, _ => false
  | n + 1, p =>
    match s.nextOf p with
    | some q => decide (p = this) || reaches s this n q
    | none => false

/-- The allocator is in the list of `default_allocator_`. -/
def inDefaultList (s : HeapState) (this : Word) : Bool :=
  s.reaches this maxAllocators s.defaultAllocator

theorem reaches_iff (hnull : s.allocators 0 = none) (hseg : Seg s.nextOf p xs 0)
    (hn : xs.length < n) : s.reaches this n p = true ↔ this ∈ xs := by
  induction xs generalizing p n with
  | nil =>
    obtain ⟨k, rfl⟩ : ∃ k, n = k + 1 := ⟨n - 1, by simp only [List.length_nil] at hn; omega⟩
    obtain rfl := hseg
    rw [reaches, nextOf_null hnull]
    simp
  | cons y xs ih =>
    rw [List.length_cons] at hn
    obtain ⟨k, rfl⟩ : ∃ k, n = k + 1 := ⟨n - 1, by omega⟩
    obtain ⟨rfl, r, hr, hseg⟩ := hseg
    rw [reaches, hr, List.mem_cons, ← ih hseg (show xs.length < k by omega)]
    simp only [Bool.or_eq_true, decide_eq_true_eq]
    rw [eq_comm]

end HeapState

namespace HeapInv

variable {s t : HeapState} {ds rs : List Word} {bs : List (Word × Block)} {scopes : List Word}
  {this p : Word} {a : Memory} {b : Block}

theorem inDefaultList_iff (hi : HeapInv s ds rs bs scopes) :
    s.inDefaultList this = true ↔ this ∈ ds :=
  reaches_iff hi.null hi.default (length_lt hi.null hi.default)

theorem deletedBy_eq (hi : HeapInv s ds rs bs scopes) (hp : s.allocators this = some a)
    (hb : (this, b) ∈ bs) : s.deletedBy (b.ptr a.heap) =
      if LastBlock a b ∧ this ≠ s.defaultAllocator then some this else none := by
  have hgeo := hi.geometry this a hp
  have hs := hi.blocks this a hp
  have hmem := mem_blocksOf.mpr hb
  have hlt := count_lt hgeo hs hmem
  obtain ⟨header, hheader, hallocator⟩ := hi.header_eq hp hb
  obtain ⟨hplace, -, hcount, -⟩ := header_fields hgeo hs hmem
  have hfound : header = a.heap + BitVec.ofNat 64 (b.chunk * kChunkSize) := by
    unfold getMemoryHeader at hheader
    dsimp only at hheader
    split_ifs at hheader
    rw [← hplace]
    exact (Option.some.inj hheader).symm
  have hlast : a.allocatedChunks = (BitVec.ofNat 32 b.count).setWidth 64 ↔ LastBlock a b := by
    unfold LastBlock
    rw [← BitVec.toNat_inj, BitVec.toNat_setWidth, BitVec.toNat_ofNat, Nat.mod_eq_of_lt hlt,
      Nat.mod_eq_of_lt (by omega)]
  unfold deletedBy
  simp only [hheader, hallocator, Option.bind_eq_bind, Option.bind_some, hp]
  rw [hfound, hcount]
  simp only [hlast]

/-- `Memory::Free` of a live block deletes its allocator, or it does not. -/
theorem free_cases (hi : HeapInv s ds rs bs scopes) (hp : s.allocators this = some a)
    (hb : (this, b) ∈ bs) : ∃ t, s.free (b.ptr a.heap) = some t ∧
      (s.deletedBy (b.ptr a.heap) = none ∧ t.fault = s.fault ∨
        ∃ m, s.deletedBy (b.ptr a.heap) = some this ∧ Deleted s this a m rs t) := by
  have hs := hi.blocks this a hp
  have hmem := mem_blocksOf.mpr hb
  obtain ⟨header, hheader, hallocator⟩ := hi.header_eq hp hb
  have hfree : s.free (b.ptr a.heap) = s.doFree this (b.ptr a.heap) := by
    unfold HeapState.free
    simp only [hheader, hallocator]
  obtain ⟨a', m', -, hs', -, -, hcases⟩ := doFree_eq hp (hi.guarded this a hp)
    (hi.geometry this a hp) hs hmem hi.null hi.root
  have hlast : a'.allocatedChunks = 0 ↔ LastBlock a b := by
    have hperm := (List.perm_cons_erase hmem).map Block.count
    have hsum := hs.allocated
    rw [hperm.sum_eq, List.map_cons, List.sum_cons, ← hs'.allocated] at hsum
    unfold LastBlock
    rw [← BitVec.toNat_inj, show (0 : Word).toNat = 0 from rfl]
    omega
  rw [hfree, hi.deletedBy_eq hp hb]
  simp only [← hlast]
  rcases hcases with ⟨hno, hrun⟩ | ⟨hzero, hne, t, hrun, hd⟩
  · exact ⟨_, hrun, .inl ⟨if_neg hno, rfl⟩⟩
  · exact ⟨t, hrun, .inr ⟨m', if_pos ⟨hzero, hne⟩, hd⟩⟩

/-- A scope on null refers to no allocator. -/
theorem openNull (hi : HeapInv s ds rs bs scopes) : HeapInv s ds rs bs (0 :: scopes) := by
  refine { hi with references := fun q c hc => ?_, scopesLive := fun q hq hzero => ?_ }
  · rw [List.count_cons_of_ne (hi.ne_zero hc).symm]
    exact hi.references q c hc
  · exact hi.scopesLive q ((List.mem_cons.mp hq).resolve_left hzero) hzero

end HeapInv

/-! ### Sessions -/

/-- The memory, the allocators that the open scopes keep for their destructors, the one opened last
first, and the blocks that the clients hold. -/
structure Session where
  heaps : HeapState
  scopes : List Word := []
  held : Store := fun _ => none

/-- A call on the memory, or a write of the library to one of its blocks. A scope is opened on a
block, and the one opened last is closed. -/
inductive HeapCall where
  | alloc (e : HeapSystem) (size : ℕ)
  | allocRange (e : HeapSystem) (size : ℕ) (start finish : Word)
  | free (ptr : Word)
  | openScope (ptr : Word)
  | closeScope
  | write (ptr : Word) (offset : ℕ) (bytes : List Byte)

namespace Session

/-- Nothing is allocated, and no scope is open. -/
def initial (m : Mem) : Session where
  heaps := { mem := m, allocators := fun _ => none, heaps := fun _ => none }

/-- The result of an allocation, with the bytes found in the block. -/
def served (σ : Session) (size : ℕ) : Word × HeapState → Session
  | (ptr, t) => { σ with
      heaps := t
      held := if ptr = 0 then σ.held else σ.held.insert ptr (bytesAt t.mem ptr size) }

/-- The clients hold the live blocks and nothing else. -/
structure Tracks (s : HeapState) (held : Store) (bs : List (Word × Block)) : Prop where
  live : ∀ p b a, (p, b) ∈ bs → s.allocators p = some a →
    ∃ bytes, held (b.ptr a.heap) = some bytes ∧ bytes.length = b.size
  owned : ∀ ptr bytes, held ptr = some bytes →
    ∃ p b a, (p, b) ∈ bs ∧ s.allocators p = some a ∧ ptr = b.ptr a.heap

/-- Both lists lead through live allocators to null, the heaps are writable while scopes are open on
them, the blocks are safe, and their holders find the bytes that they wrote last. -/
def Consistent (σ : Session) : Prop :=
  ∃ ds rs bs, HeapInv σ.heaps ds rs bs σ.scopes ∧ Tracks σ.heaps σ.held bs ∧
    σ.held.Represents σ.heaps.mem ∧ σ.scopes.length < 2 ^ 64

end Session

namespace HeapCall

def step : HeapCall → Session → Option Session
  | alloc e size, σ => (σ.heaps.alloc e size).map (σ.served size)
  | allocRange e size start finish, σ =>
    (σ.heaps.allocRange e size start finish).map (σ.served size)
  | free ptr, σ => do
    let t ← σ.heaps.free ptr
    some { σ with heaps := t, held := σ.held.erase ptr }
  | openScope ptr, σ =>
    let (t, allocator) := σ.heaps.openScopeAt ptr
    some { σ with heaps := t, scopes := allocator :: σ.scopes }
  | closeScope, σ => do
    let allocator ← σ.scopes.head?
    some { σ with heaps := σ.heaps.closeScopeAt allocator, scopes := σ.scopes.tail }
  | write ptr offset bytes, σ => do
    let header ← getMemoryHeader σ.heaps.mem ptr
    let a ← σ.heaps.allocators (load 64 σ.heaps.mem (header + 8))
    let t ← σ.heaps.writeBlock a.heap ptr offset bytes
    some { σ with heaps := t, held := σ.held.write ptr offset bytes }

/-- The system gives new objects and heaps, blocks are given back and written to by those who hold
them, and a scope is closed once. -/
def Admissible (σ : Session) : HeapCall → Prop
  | alloc e _ => e.heap ≠ 0 ∧ HeapInv.Fresh σ.heaps e kHeapSize σ.scopes
  | allocRange e _ _ _ => e.heap ≠ 0 → HeapInv.Fresh σ.heaps e e.spaceSize σ.scopes
  | free ptr => ptr = 0 ∨ (σ.held ptr).isSome
  | openScope ptr => (ptr = 0 ∨ (σ.held ptr).isSome) ∧ σ.scopes.length + 1 < 2 ^ 64
  | closeScope => σ.scopes ≠ []
  | write ptr offset bytes => ∃ bs, σ.held ptr = some bs ∧ offset + bytes.length ≤ bs.length

/-- The allocator that a release deletes is not in the list of `default_allocator_`, and no scope is
open on it. -/
def Spares (σ : Session) : HeapCall → Prop
  | free ptr => ∀ this ∈ σ.heaps.deletedBy ptr,
      σ.heaps.inDefaultList this = false ∧ this ∉ σ.scopes
  | _ => True

/-- The call deletes no allocator. -/
def DeletesNone (σ : Session) : HeapCall → Prop
  | free ptr => σ.heaps.deletedBy ptr = none
  | _ => True

theorem spares_free_iff (σ : Session) (ptr : Word) :
    ((σ.heaps.deletedBy ptr).all fun this =>
      !σ.heaps.inDefaultList this && !σ.scopes.contains this) = true ↔ (free ptr).Spares σ := by
  cases hdelete : σ.heaps.deletedBy ptr <;> simp [Spares, hdelete]

instance : ∀ σ c, Decidable (Spares σ c)
  | σ, free ptr => decidable_of_iff _ (spares_free_iff σ ptr)
  | _, alloc .. | _, allocRange .. | _, openScope _ | _, closeScope | _, write .. => .isTrue trivial

instance : ∀ σ c, Decidable (DeletesNone σ c)
  | σ, free ptr => inferInstanceAs (Decidable (σ.heaps.deletedBy ptr = none))
  | _, alloc .. | _, allocRange .. | _, openScope _ | _, closeScope | _, write .. => .isTrue trivial

end HeapCall

namespace Session

variable {σ τ : Session} {s t : HeapState} {held : Store} {ds rs ds' rs' : List Word}
  {bs : List (Word × Block)} {scopes : List Word} {this ptr : Word} {a : Memory} {b : Block}
  {bytes : List Byte} {size offset : ℕ}

namespace Tracks

theorem block (ht : Tracks s held bs) (hptr : held ptr = some bytes) :
    ∃ p b a, (p, b) ∈ bs ∧ s.allocators p = some a ∧ ptr = b.ptr a.heap ∧
      bytes.length = b.size := by
  obtain ⟨p, b, a, hb, hp, rfl⟩ := ht.owned ptr bytes hptr
  obtain ⟨bytes', hbytes, hlen⟩ := ht.live p b a hb hp
  rw [hptr, Option.some.injEq] at hbytes
  subst hbytes
  exact ⟨p, b, a, hb, hp, rfl, hlen⟩

/-- A call that moves no heap keeps the addresses of the blocks. -/
theorem of_sameHeaps (ht : Tracks s held bs) (hsame : SameHeaps s t)
    (hs : ∀ p b, (p, b) ∈ bs → ∃ a, s.allocators p = some a)
    (hlive : ∀ p b, (p, b) ∈ bs → ∃ a, t.allocators p = some a) : Tracks t held bs := by
  constructor
  · intro p b a hb hp
    obtain ⟨c, hc⟩ := hs p b hb
    rw [hsame p c a hc hp]
    exact ht.live p b c hb hc
  · intro ptr bytes hptr
    obtain ⟨p, b, c, hb, hc, rfl⟩ := ht.owned ptr bytes hptr
    obtain ⟨a, ha⟩ := hlive p b hb
    exact ⟨p, b, a, hb, ha, by rw [hsame p c a hc ha]⟩

theorem insert (ht : Tracks s held bs) (hi : HeapInv s ds rs ((this, b) :: bs) scopes)
    (hp : s.allocators this = some a) (hlen : bytes.length = b.size) :
    Tracks s (held.insert (b.ptr a.heap) bytes) ((this, b) :: bs) := by
  constructor
  · intro q d c hd hq
    by_cases hne : (q, d) = (this, b)
    · obtain ⟨rfl, rfl⟩ := Prod.mk.inj hne
      obtain rfl := Option.some.inj (hp.symm.trans hq)
      exact ⟨bytes, Store.insert_self, hlen⟩
    · rw [Store.insert_of_ne (hi.ptr_ne hq hp hd List.mem_cons_self hne)]
      exact ht.live q d c ((List.mem_cons.mp hd).resolve_left hne) hq
  · intro q cs hq
    by_cases hne : q = b.ptr a.heap
    · exact ⟨this, b, a, List.mem_cons_self, hp, hne⟩
    · rw [Store.insert_of_ne hne] at hq
      obtain ⟨p, d, c, hd, hc, rfl⟩ := ht.owned q cs hq
      exact ⟨p, d, c, List.mem_cons_of_mem _ hd, hc, rfl⟩

theorem erase (ht : Tracks s held bs) (hi : HeapInv s ds rs bs scopes)
    (hp : s.allocators this = some a) (hb : (this, b) ∈ bs) :
    Tracks s (held.erase (b.ptr a.heap)) (bs.erase (this, b)) := by
  constructor
  · intro q d c hd hq
    have hne := hi.ne_of_mem_erase hp hd
    have hmem := List.mem_of_mem_erase hd
    rw [Store.erase_of_ne (hi.ptr_ne hq hp hmem hb hne)]
    exact ht.live q d c hmem hq
  · intro q cs hq
    obtain ⟨hne, hq⟩ := Store.of_erase hq
    obtain ⟨p, d, c, hd, hc, rfl⟩ := ht.owned q cs hq
    refine ⟨p, d, c, ?_, hc, rfl⟩
    apply (List.mem_erase_of_ne _).mpr hd
    intro heq
    obtain ⟨rfl, rfl⟩ := Prod.mk.inj heq
    obtain rfl := Option.some.inj (hp.symm.trans hc)
    exact hne rfl

theorem write (ht : Tracks s held bs)
    (hfits : ∀ bs, held ptr = some bs → offset + bytes.length ≤ bs.length) :
    Tracks s (held.write ptr offset bytes) bs := by
  constructor
  · intro q d c hd hq
    obtain ⟨cs, hcs, hlen⟩ := ht.live q d c hd hq
    by_cases hne : d.ptr c.heap = ptr
    · rw [hne] at hcs
      rw [hne, Store.write_self, hcs]
      exact ⟨_, rfl, (Store.length_writeAt (hfits cs hcs)).trans hlen⟩
    · rw [Store.write_of_ne hne]
      exact ⟨cs, hcs, hlen⟩
  · intro q cs hq
    by_cases hne : q = ptr
    · rw [hne, Store.write_self, Option.map_eq_some_iff] at hq
      obtain ⟨ds, hds, -⟩ := hq
      rw [hne]
      exact ht.owned ptr ds hds
    · rw [Store.write_of_ne hne] at hq
      exact ht.owned q cs hq

/-- Blocks that are held are apart. -/
theorem apart (ht : Tracks s held bs) (hi : HeapInv s ds rs bs scopes) : held.Apart := by
  intro p q cs es hp hq hne x hx hx'
  obtain ⟨p', b, a, hb, ha, rfl, hlen⟩ := ht.block hp
  obtain ⟨q', d, c, hd, hc, rfl, hlen'⟩ := ht.block hq
  rw [hlen] at hx
  rw [hlen'] at hx'
  have hbd : (p', b) ≠ (q', d) := by
    intro heq
    obtain ⟨rfl, rfl⟩ := Prod.mk.inj heq
    obtain rfl := Option.some.inj (ha.symm.trans hc)
    exact hne rfl
  exact hi.extents_apart ha hc hb hd hbd (hi.extent_of_payload ha hb hx)
    (hi.extent_of_payload hc hd hx')

end Tracks

theorem head_ne (hi : HeapInv s ds rs ((this, b) :: bs) scopes) (hp : s.allocators this = some a)
    {q : Word} {d : Block} (hd : (q, d) ∈ bs) : (q, d) ≠ (this, b) := by
  apply hi.ne_of_mem_erase hp
  rw [List.erase_cons_head]
  exact hd

/-- An allocation, with null or with a block that nobody held. -/
theorem consistent_served (hi : HeapInv σ.heaps ds rs bs σ.scopes) (ht : Tracks σ.heaps σ.held bs)
    (hm : σ.held.Represents σ.heaps.mem) (hlen : σ.scopes.length < 2 ^ 64)
    (hserved : HeapInv.Served t ds' rs' bs σ.scopes size ptr)
    (hwrites : WritesHeader σ.heaps.mem t.mem ptr) (hsame : SameHeaps σ.heaps t) :
    Consistent (σ.served size (ptr, t)) := by
  rcases hserved with ⟨rfl, hi'⟩ | ⟨this, a, c, hp, rfl, hi'⟩
  · have ht' := ht.of_sameHeaps hsame hi.owners hi'.owners
    refine ⟨ds', rs', bs, hi', ?_, ?_, hlen⟩
    · simpa [served] using ht'
    · have hmem : t.mem = σ.heaps.mem := funext fun x => hwrites x (.inl rfl)
      simpa [served, hmem] using hm
  · have hlive : ∀ q d, (q, d) ∈ bs → ∃ a, t.allocators q = some a :=
      fun q d hd => hi'.owners q d (List.mem_cons_of_mem _ hd)
    have ht' := ht.of_sameHeaps hsame hi.owners hlive
    have hne := hi'.ptr_ne_zero hp List.mem_cons_self
    refine ⟨ds', rs', (this, ⟨c, size⟩) :: bs, hi', ?_, ?_, hlen⟩
    · simp only [served, if_neg hne]
      exact ht'.insert hi' hp (length_bytesAt ..)
    · simp only [served, if_neg hne]
      apply Store.Represents.insert
      apply hm.congr
      intro q cs hq x hx
      obtain ⟨p, d, e, hd, he, rfl, hdlen⟩ := ht'.block hq
      rw [hdlen] at hx
      have hd' : (p, d) ∈ (this, Block.mk c size) :: bs := List.mem_cons_of_mem _ hd
      apply hwrites x
      right
      intro hheader
      exact hi'.extents_apart he hp hd' List.mem_cons_self (head_ne hi' hp hd)
        (hi'.extent_of_payload he hd' hx) (hi'.extent_of_header hp List.mem_cons_self hheader)

/-- The change of the memory by the release of a block. -/
theorem represents_freed (hi : HeapInv s ds rs bs scopes) (ht : Tracks s held bs)
    (hm : held.Represents s.mem) (hp : s.allocators this = some a) (hb : (this, b) ∈ bs)
    (hwrites : WritesHeader s.mem t.mem (b.ptr a.heap)) :
    (held.erase (b.ptr a.heap)).Represents t.mem := by
  have ht' := ht.erase hi hp hb
  apply hm.erase.congr
  intro q cs hq x hx
  obtain ⟨p, d, c, hd, hc, rfl, hlen⟩ := ht'.block hq
  rw [hlen] at hx
  have hmem := List.mem_of_mem_erase hd
  apply hwrites x
  right
  intro hheader
  exact hi.extents_apart hc hp hmem hb (hi.ne_of_mem_erase hp hd)
    (hi.extent_of_payload hc hmem hx) (hi.extent_of_header hp hb hheader)

theorem Tracks.null (ht : Tracks s held bs) (hi : HeapInv s ds rs bs scopes) : held 0 = none := by
  cases hzero : held 0 with
  | none => rfl
  | some bytes =>
    obtain ⟨p, b, a, hb, hp, heq⟩ := ht.owned 0 bytes hzero
    exact absurd heq.symm (hi.ptr_ne_zero hp hb)

/-- A call that changes no byte and no block. -/
theorem consistent_quiet (hi : HeapInv s ds rs bs scopes) (ht : Tracks s held bs)
    (hm : held.Represents s.mem) {scopes' : List Word} (hi' : HeapInv t ds' rs' bs scopes')
    (hsame : SameHeaps s t) (hmem : t.mem = s.mem) (hlen : scopes'.length < 2 ^ 64) :
    Consistent { heaps := t, scopes := scopes', held := held } := by
  refine ⟨ds', rs', bs, hi', ht.of_sameHeaps hsame hi.owners hi'.owners, ?_, hlen⟩
  rw [hmem]
  exact hm

end Session

namespace HeapCall

open Session

variable {σ τ : Session} {c : HeapCall} {ptr : Word}

theorem free_null (σ : Session) (h : σ.held 0 = none) : (free 0).step σ = some σ := by
  have hrun : (free 0).step σ = some { σ with held := σ.held.erase 0 } := rfl
  rw [hrun, Store.erase_of_none h]

theorem deletedBy_null (s : HeapState) : s.deletedBy 0 = none := by
  simp [deletedBy, getMemoryHeader]

theorem step_alloc {e : HeapSystem} {size : ℕ} (hσ : Consistent σ)
    (hc : (alloc e size).Admissible σ) : ∃ τ, (alloc e size).step σ = some τ ∧ Consistent τ ∧
      τ.heaps.fault = σ.heaps.fault := by
  obtain ⟨ds, rs, bs, hi, ht, hm, hlen⟩ := hσ
  obtain ⟨hheap, hfresh⟩ := hc
  obtain ⟨ptr, t, ds', hrun, hserved, hfault⟩ := hi.alloc hfresh hheap size
  refine ⟨σ.served size (ptr, t), ?_, ?_, hfault⟩
  · rw [step, hrun]
    rfl
  · exact consistent_served hi ht hm hlen hserved (alloc_writes hrun)
      (alloc_sameHeaps hfresh.object hrun)

theorem step_allocRange {e : HeapSystem} {size : ℕ} {start finish : Word} (hσ : Consistent σ)
    (hc : (allocRange e size start finish).Admissible σ) :
    ∃ τ, (allocRange e size start finish).step σ = some τ ∧ Consistent τ ∧
      τ.heaps.fault = σ.heaps.fault := by
  obtain ⟨ds, rs, bs, hi, ht, hm, hlen⟩ := hσ
  obtain ⟨ptr, t, rs', hrun, hserved, hfault⟩ := hi.allocRange hc size start finish
  refine ⟨σ.served size (ptr, t), ?_, ?_, hfault⟩
  · rw [step, hrun]
    rfl
  · exact consistent_served hi ht hm hlen hserved (allocRange_writes hrun)
      (allocRange_sameHeaps (fun hheap => (hc hheap).object) hrun)

/-- A release, as far as it goes for every allocator. -/
theorem step_free (hσ : Consistent σ) (hc : (free ptr).Admissible σ) :
    ∃ τ, (free ptr).step σ = some τ ∧ ((free ptr).Spares σ → Consistent τ) ∧
      (σ.heaps.deletedBy ptr = none ∧ τ.heaps.fault = σ.heaps.fault ∨
        ∃ ds rs bs this a m, HeapInv σ.heaps ds rs bs σ.scopes ∧ σ.heaps.allocators this = some a ∧
          σ.heaps.deletedBy ptr = some this ∧ τ.scopes = σ.scopes ∧
          Deleted σ.heaps this a m rs τ.heaps) := by
  have hσ' := hσ
  obtain ⟨ds, rs, bs, hi, ht, hm, hlen⟩ := hσ
  by_cases hzero : ptr = 0
  · subst hzero
    exact ⟨σ, free_null σ (ht.null hi), fun _ => hσ', .inl ⟨deletedBy_null _, rfl⟩⟩
  obtain ⟨bytes, hheld⟩ := Option.isSome_iff_exists.mp (hc.resolve_left hzero)
  obtain ⟨this, b, a, hb, hp, rfl⟩ := ht.owned ptr bytes hheld
  obtain ⟨t, hrun, hcases⟩ := hi.free_cases hp hb
  refine ⟨{ σ with heaps := t, held := σ.held.erase (b.ptr a.heap) }, ?_, ?_, ?_⟩
  · simp [step, hrun]
  · intro hspares
    obtain ⟨u, rs', hu, hi', -⟩ := hi.free hp hb (by
      intro hlast hne
      have hdelete := hi.deletedBy_eq hp hb
      rw [if_pos ⟨hlast, hne⟩] at hdelete
      obtain ⟨hlist, hscopes⟩ := hspares this hdelete
      rw [← Bool.not_eq_true, hi.inDefaultList_iff] at hlist
      exact ⟨hlist, hscopes⟩)
    obtain rfl := Option.some.inj (hrun.symm.trans hu)
    refine ⟨ds, rs', bs.erase (this, b), hi', ?_, ?_, hlen⟩
    · exact (ht.erase hi hp hb).of_sameHeaps (free_keepsHeaps hrun).sameHeaps
        (fun q d hd => hi.owners q d (List.mem_of_mem_erase hd)) hi'.owners
    · exact represents_freed hi ht hm hp hb (free_writes hrun)
  · rcases hcases with hkept | ⟨m, hdelete, hd⟩
    · exact .inl hkept
    · exact .inr ⟨ds, rs, bs, this, a, m, hi, hp, hdelete, rfl, hd⟩

theorem step_openScope (hσ : Consistent σ) (hc : (openScope ptr).Admissible σ) :
    ∃ τ, (openScope ptr).step σ = some τ ∧ Consistent τ ∧ τ.heaps.fault = σ.heaps.fault := by
  obtain ⟨ds, rs, bs, hi, ht, hm, -⟩ := hσ
  obtain ⟨hptr, hlen⟩ := hc
  by_cases hzero : ptr = 0
  · subst hzero
    refine ⟨{ σ with scopes := 0 :: σ.scopes }, rfl, ?_, rfl⟩
    exact consistent_quiet hi ht hm hi.openNull (KeepsHeaps.refl _).sameHeaps rfl hlen
  obtain ⟨bytes, hheld⟩ := Option.isSome_iff_exists.mp (hptr.resolve_left hzero)
  obtain ⟨this, b, a, hb, hp, rfl⟩ := ht.owned ptr bytes hheld
  obtain ⟨hi', hfault⟩ := hi.openScope hp hlen
  refine ⟨{ σ with heaps := σ.heaps.openScope this, scopes := this :: σ.scopes }, ?_, ?_, hfault⟩
  · simp [step, hi.openScopeAt_eq hp hb]
  · exact consistent_quiet hi ht hm hi' (KeepsHeaps.openScope _ _).sameHeaps
      (openScope_mem _ _) hlen

theorem step_closeScope (hσ : Consistent σ) (hc : closeScope.Admissible σ) :
    ∃ τ, closeScope.step σ = some τ ∧ Consistent τ ∧ τ.heaps.fault = σ.heaps.fault := by
  obtain ⟨s, scopes, held⟩ := σ
  obtain ⟨ds, rs, bs, hi, ht, hm, hlen⟩ := hσ
  cases scopes with
  | nil => exact absurd rfl hc
  | cons this scopes =>
    obtain ⟨hi', hfault⟩ := hi.closeScope hlen
    refine ⟨{ heaps := s.closeScopeAt this, scopes := scopes, held := held }, rfl, ?_, hfault⟩
    exact consistent_quiet hi ht hm hi' (closeScopeAt_keepsHeaps s this).sameHeaps
      (closeScopeAt_mem s this) (Nat.lt_of_succ_lt hlen)

theorem step_write {offset : ℕ} {bytes : List Byte} (hσ : Consistent σ)
    (hc : (write ptr offset bytes).Admissible σ) :
    ∃ τ, (write ptr offset bytes).step σ = some τ ∧ Consistent τ ∧
      τ.heaps.fault = σ.heaps.fault := by
  obtain ⟨ds, rs, bs, hi, ht, hm, hlen⟩ := hσ
  obtain ⟨old, hheld, hfits⟩ := hc
  obtain ⟨this, b, a, hb, hp, rfl, hsize⟩ := ht.block hheld
  obtain ⟨header, hheader, hallocator⟩ := hi.header_eq hp hb
  obtain ⟨t, hrun, hi', hfault⟩ := hi.writeBlock hp hb (hsize ▸ hfits)
  refine ⟨{ σ with heaps := t, held := σ.held.write (b.ptr a.heap) offset bytes }, ?_, ?_, hfault⟩
  · simp only [step, hheader, hallocator, hp, hrun, Option.bind_eq_bind, Option.bind_some]
  · have hsmall : old.length ≤ 2 ^ 64 := by
      have hin := (hi.blocks this a hp).inside b (mem_blocksOf.mpr hb)
      have hint := (hi.geometry this a hp).int
      have hpayload := b.payload_le
      rw [Nat.add_mul] at hin
      omega
    have hwritten : ∀ cs, σ.held (b.ptr a.heap) = some cs → offset + bytes.length ≤ cs.length := by
      intro cs hcs
      rw [hheld, Option.some.injEq] at hcs
      exact hcs ▸ hfits
    have ht' := ht.of_sameHeaps (writeBlock_keepsHeaps hrun).sameHeaps hi.owners hi'.owners
    refine ⟨ds, rs, bs, hi', ht'.write hwritten, ?_, hlen⟩
    rw [writeBlock_mem hrun]
    exact hm.write (ht.apart hi) hheld hfits hsmall

theorem DeletesNone.spares (h : c.DeletesNone σ) : c.Spares σ := by
  cases c with
  | free ptr =>
    intro this hdelete
    rw [show σ.heaps.deletedBy ptr = none from h] at hdelete
    cases hdelete
  | _ => trivial

/-- A call that spares the allocators in use has a result, and it touches nothing that is gone as
long as it deletes no allocator. -/
theorem step_consistent (hσ : Consistent σ) (hc : c.Admissible σ) (hspares : c.Spares σ) :
    ∃ τ, c.step σ = some τ ∧ Consistent τ ∧
      (c.DeletesNone σ → τ.heaps.fault = σ.heaps.fault) := by
  have hquiet : (∃ τ, c.step σ = some τ ∧ Consistent τ ∧ τ.heaps.fault = σ.heaps.fault) →
      ∃ τ, c.step σ = some τ ∧ Consistent τ ∧
        (c.DeletesNone σ → τ.heaps.fault = σ.heaps.fault) := by
    rintro ⟨τ, hτ, hconsistent, hfault⟩
    exact ⟨τ, hτ, hconsistent, fun _ => hfault⟩
  cases c with
  | alloc e size => exact hquiet (step_alloc hσ hc)
  | allocRange e size start finish => exact hquiet (step_allocRange hσ hc)
  | openScope ptr => exact hquiet (step_openScope hσ hc)
  | closeScope => exact hquiet (step_closeScope hσ hc)
  | write ptr offset bytes => exact hquiet (step_write hσ hc)
  | free ptr =>
    obtain ⟨τ, hτ, hconsistent, hcases⟩ := step_free hσ hc
    refine ⟨τ, hτ, hconsistent hspares, fun hnone => ?_⟩
    rcases hcases with ⟨-, hfault⟩ | ⟨_, _, _, this, _, _, -, -, hdelete, -, -⟩
    · exact hfault
    · rw [show σ.heaps.deletedBy ptr = none from hnone] at hdelete
      cases hdelete

/-- A list of allocators cannot be followed once one of them is deleted, and the destructor of an
open scope needs its allocator. -/
theorem spares_of_consistent (hσ : Consistent σ) (hc : c.Admissible σ) (hstep : c.step σ = some τ)
    (hτ : Consistent τ) : c.Spares σ := by
  cases c with
  | free ptr =>
    obtain ⟨τ', hτ', -, hcases⟩ := step_free hσ hc
    obtain rfl := Option.some.inj (hstep.symm.trans hτ')
    rcases hcases with ⟨hnone, -⟩ | ⟨ds, rs, bs, this, a, m, hi, hp, hdelete, hscopes, hd⟩
    · exact DeletesNone.spares (show (free ptr).DeletesNone σ from hnone)
    obtain ⟨ds', rs', bs', hi', -⟩ := hτ
    intro p hdelete'
    obtain rfl := Option.some.inj (hdelete.symm.trans hdelete')
    constructor
    · rw [← Bool.not_eq_true, hi.inDefaultList_iff]
      intro hmem
      have hlist := hi'.default
      rw [hd.default] at hlist
      refine hi.default.not_of_dead (nextOf_null hi.null) hmem ?_ (fun y hy hne => ?_) hlist
      · simp [nextOf, hd.gone]
      · simp [nextOf, hd.others y hne (hi.apart y hy)]
    · intro hmem
      rw [← hscopes] at hmem
      obtain ⟨b, hb⟩ := hi'.scopesLive this hmem (hi.ne_zero hp)
      rw [hd.gone] at hb
      cases hb
  | _ => trivial

theorem deletesNone_of_faultless (hσ : Consistent σ) (hc : c.Admissible σ)
    (hstep : c.step σ = some τ) (hfault : τ.heaps.fault = false) : c.DeletesNone σ := by
  cases c with
  | free ptr =>
    obtain ⟨τ', hτ', -, hcases⟩ := step_free hσ hc
    obtain rfl := Option.some.inj (hstep.symm.trans hτ')
    rcases hcases with ⟨hnone, -⟩ | ⟨_, _, _, _, _, _, -, -, -, -, hd⟩
    · exact hnone
    · rw [hd.fault] at hfault
      cases hfault
  | _ => trivial

end HeapCall

/-! ### Runs -/

theorem Session.consistent_initial (m : Mem) : Consistent (initial m) := by
  refine ⟨[], [], [], ?_, ⟨?_, ?_⟩, ?_, ?_⟩
  · constructor <;> simp [initial]
  · simp
  · simp [initial]
  · intro p bs hp
    simp [initial] at hp
  · simp [initial]

open Session HeapCall

/-- What the holders of blocks rely on: their blocks are apart, and each is in the heap of the
allocator that its header names, with the bytes that its holder wrote last; no heap is writable
outside the scopes. -/
structure Session.Isolated (σ : Session) : Prop where
  apart : σ.held.Apart
  bytes : σ.held.Represents σ.heaps.mem
  placed : ∀ ptr bytes, σ.held ptr = some bytes → ptr ≠ 0 ∧ ∃ header this a,
    getMemoryHeader σ.heaps.mem ptr = some header ∧ load 64 σ.heaps.mem (header + 8) = this ∧
      σ.heaps.allocators this = some a ∧ σ.heaps.heaps a.heap = some (decide (this ∈ σ.scopes)) ∧
        ∀ x, InRange ptr bytes.length x → InRange a.heap a.heapSize x
  readOnly : ∀ heap, σ.heaps.heaps heap = some true →
    ∃ this ∈ σ.scopes, ∃ a, σ.heaps.allocators this = some a ∧ a.heap = heap

theorem HeapInv.guarded_scopes {s : HeapState} {ds rs : List Word} {bs : List (Word × Block)}
    {scopes : List Word} {this : Word} {a : Memory} (hi : HeapInv s ds rs bs scopes)
    (hp : s.allocators this = some a) (hlen : scopes.length < 2 ^ 64) :
    s.heaps a.heap = some (decide (this ∈ scopes)) := by
  have hle := List.count_le_length (a := this) (l := scopes)
  have hiff : a.references ≠ 0 ↔ this ∈ scopes := by
    rw [hi.references this a hp, ← List.count_pos_iff, ne_eq, ← BitVec.toNat_inj,
      BitVec.toNat_ofNat, Nat.mod_eq_of_lt (by omega), show (0 : Word).toNat = 0 from rfl]
    omega
  have hguard := hi.guarded this a hp
  unfold GuardedAt at hguard
  simp only [hguard, hiff]

theorem Session.Consistent.isolated {σ : Session} (hσ : Consistent σ) : Isolated σ := by
  obtain ⟨ds, rs, bs, hi, ht, hm, hlen⟩ := hσ
  constructor
  · exact ht.apart hi
  · exact hm
  · intro ptr bytes hptr
    obtain ⟨this, b, a, hb, hp, rfl, hsize⟩ := ht.block hptr
    obtain ⟨header, hheader, hallocator⟩ := hi.header_eq hp hb
    refine ⟨hi.ptr_ne_zero hp hb, header, this, a, hheader, hallocator, hp,
      hi.guarded_scopes hp hlen, fun x hx => ?_⟩
    rw [hsize] at hx
    exact hi.inRange_of_extent hp hb (hi.extent_of_payload hp hb hx)
  · intro heap hheap
    obtain ⟨this, a, hp, rfl⟩ := hi.mapped heap true hheap
    have hguard := hi.guarded_scopes hp hlen
    rw [hheap, Option.some.injEq] at hguard
    exact ⟨this, of_decide_eq_true hguard.symm, a, hp, rfl⟩

/-- A heap of eight chunks, in the window that a function can reach. -/
def windowHeap : HeapSystem where
  allocator := 0x900
  heap := 0x10000
  spaceSize := 1024
  chunkTable := [0]

/-- A block is allocated, written in a scope, and given back, which deletes its allocator. -/
def clientSample : List HeapCall :=
  [.allocRange windowHeap 100 0x10000 0x20000, .openScope 0x10010, .write 0x10010 4 [1, 2],
    .closeScope, .free 0x10010]

theorem clientSample_admissible : Allowed step Admissible (initial fun _ => 0) clientSample := by
  refine ⟨fun _ => ?_, fun σ hσ => ?_⟩
  · constructor <;> simp [initial, windowHeap]
  obtain rfl := Option.some.inj hσ
  refine ⟨⟨.inr (by decide), by decide⟩, fun σ hσ => ?_⟩
  obtain rfl := Option.some.inj hσ
  refine ⟨⟨_, rfl, by decide⟩, fun σ hσ => ?_⟩
  obtain rfl := Option.some.inj hσ
  refine ⟨List.cons_ne_nil _ _, fun σ hσ => ?_⟩
  obtain rfl := Option.some.inj hσ
  exact ⟨.inr (by decide), fun _ _ => trivial⟩

/-- In every run the lists, the heaps and the blocks stay consistent if and only if no release
deletes an allocator that is in the list of `default_allocator_` or that a scope is open on. -/
theorem heaps_consistent_iff (m : Mem) (calls : List HeapCall)
    (hok : Allowed step Admissible (initial m) calls) :
    Always step Consistent (initial m) calls ↔ Allowed step Spares (initial m) calls := by
  refine always_iff_allowed (fun σ c hσ hc => ?_) (consistent_initial m) hok
  constructor
  · rintro ⟨τ, hτ, hconsistent⟩
    exact spares_of_consistent hσ hc hτ hconsistent
  · intro hspares
    obtain ⟨τ, hτ, hconsistent, -⟩ := step_consistent hσ hc hspares
    exact ⟨τ, hτ, hconsistent⟩

theorem heaps_consistent_iff_sample : Always step Consistent (initial fun _ => 0) clientSample :=
  (heaps_consistent_iff (fun _ => 0) clientSample clientSample_admissible).mpr (by decide)

/-- In every run nothing that is gone is touched, and no heap is written while it is not writable,
if and only if no release deletes an allocator: the scope of `DoFree` ends behind the deletion. -/
theorem heaps_faultless_iff (m : Mem) (calls : List HeapCall)
    (hok : Allowed step Admissible (initial m) calls) :
    Always step (fun σ => Consistent σ ∧ σ.heaps.fault = false) (initial m) calls ↔
      Allowed step DeletesNone (initial m) calls := by
  refine always_iff_allowed (fun σ c hσ hc => ?_) ⟨consistent_initial m, rfl⟩ hok
  constructor
  · rintro ⟨τ, hτ, -, hfault⟩
    exact deletesNone_of_faultless hσ.1 hc hτ hfault
  · intro hnone
    obtain ⟨τ, hτ, hconsistent, hfault⟩ := step_consistent hσ.1 hc hnone.spares
    exact ⟨τ, hτ, hconsistent, (hfault hnone).trans hσ.2⟩

theorem heaps_faultless_iff_sample : ¬ Always step (fun σ => Consistent σ ∧ σ.heaps.fault = false)
    (initial fun _ => 0) clientSample := by
  rw [heaps_faultless_iff (fun _ => 0) clientSample clientSample_admissible]
  decide

/-- Whatever others allocate, give back and write, and whatever scopes they open, the holder of a
block finds the bytes that it wrote last. -/
theorem holders_isolated (m : Mem) (calls : List HeapCall)
    (hok : Allowed step Admissible (initial m) calls)
    (hspares : Allowed step Spares (initial m) calls) :
    Always step Isolated (initial m) calls := by
  have hstep : ∀ (σ : Session) (c : HeapCall), Consistent σ → c.Admissible σ ∧ c.Spares σ →
      ∃ τ, c.step σ = some τ ∧ Consistent τ := by
    intro σ c hσ hc
    obtain ⟨τ, hτ, hconsistent, -⟩ := step_consistent hσ hc.1 hc.2
    exact ⟨τ, hτ, hconsistent⟩
  have hall := always_of_allowed hstep (consistent_initial m) (hok.and hspares)
  exact hall.mono fun σ hσ => hσ.isolated

theorem holders_isolated_sample : Always step Isolated (initial fun _ => 0) clientSample :=
  holders_isolated (fun _ => 0) clientSample clientSample_admissible (by decide)

end Rv64Hook
