import Rv64Hook.Memory.Lists

/-! All heaps together: which allocators are live, where they are listed, and what their blocks and
scopes are. -/
namespace Rv64Hook
open ByteMem Rv64 Bitmap LinkedList

open Memory HeapState

/-- The blocks of one allocator. -/
def blocksOf (bs : List (Word × Block)) (p : Word) : List Block :=
  bs.filterMap fun b => if b.1 = p then some b.2 else none

section
variable {bs : List (Word × Block)} {b : Block} {p q : Word}

theorem blocksOf_cons_self : blocksOf ((p, b) :: bs) p = b :: blocksOf bs p := by
  simp [blocksOf]

theorem blocksOf_cons_of_ne (h : q ≠ p) : blocksOf ((p, b) :: bs) q = blocksOf bs q := by
  simp [blocksOf, Ne.symm h]

theorem mem_blocksOf : b ∈ blocksOf bs p ↔ (p, b) ∈ bs := by
  unfold blocksOf
  rw [List.mem_filterMap]
  constructor
  · rintro ⟨⟨q, c⟩, hmem, h⟩
    split at h
    · rename_i heq
      obtain rfl := Option.some.inj h
      obtain rfl : q = p := heq
      exact hmem
    · cases h
  · exact fun hmem => ⟨(p, b), hmem, if_pos rfl⟩

theorem blocksOf_erase_self : blocksOf (bs.erase (p, b)) p = (blocksOf bs p).erase b := by
  induction bs with
  | nil => rfl
  | cons c bs ih =>
    obtain ⟨q, c⟩ := c
    by_cases hq : q = p
    · subst hq
      by_cases hc : c = b
      · rw [hc, List.erase_cons_head, blocksOf_cons_self, List.erase_cons_head]
      · rw [List.erase_cons_tail (by simpa using hc), blocksOf_cons_self, blocksOf_cons_self,
          List.erase_cons_tail (by simpa using hc), ih]
    · rw [List.erase_cons_tail (by simp [hq]), blocksOf_cons_of_ne (Ne.symm hq),
        blocksOf_cons_of_ne (Ne.symm hq), ih]

theorem blocksOf_erase_of_ne (h : q ≠ p) : blocksOf (bs.erase (p, b)) q = blocksOf bs q := by
  induction bs with
  | nil => rfl
  | cons c bs ih =>
    by_cases hc : c = (p, b)
    · rw [hc, List.erase_cons_head, blocksOf_cons_of_ne h]
    · rw [List.erase_cons_tail (by simpa using hc)]
      unfold blocksOf at ih ⊢
      rw [List.filterMap_cons, List.filterMap_cons, ih]

end

/-- The ranges of two heaps are apart. -/
def Memory.Apart (a b : Memory) : Prop :=
  a.heap ≠ b.heap ∧ ∀ x, InRange a.heap a.heapSize x → ¬ InRange b.heap b.heapSize x

/-- The live allocators are those of the two lists, every heap belongs to one of them and is
writable while scopes are open on it, and their blocks are safe. -/
structure HeapInv (s : HeapState) (ds rs : List Word) (bs : List (Word × Block))
    (scopes : List Word) : Prop where
  null : s.allocators 0 = none
  default : Seg s.nextOf s.defaultAllocator ds 0
  root : Seg s.nextOf s.rootAllocator rs 0
  apart : ∀ p ∈ ds, p ∉ rs
  listed : ∀ p a, s.allocators p = some a → p ∈ ds ∨ p ∈ rs
  geometry : ∀ p a, s.allocators p = some a → Geometry a
  guarded : ∀ p a, s.allocators p = some a → s.GuardedAt a
  references : ∀ p a, s.allocators p = some a → a.references = BitVec.ofNat 64 (scopes.count p)
  blocks : ∀ p a, s.allocators p = some a → BlocksSafe p a s.mem (blocksOf bs p)
  owners : ∀ p b, (p, b) ∈ bs → ∃ a, s.allocators p = some a
  separate : ∀ p q a b, s.allocators p = some a → s.allocators q = some b → p ≠ q → a.Apart b
  mapped : ∀ h w, s.heaps h = some w → ∃ p a, s.allocators p = some a ∧ a.heap = h
  scopesLive : ∀ p ∈ scopes, p ≠ 0 → ∃ a, s.allocators p = some a

namespace HeapInv

variable {s t : HeapState} {ds rs : List Word} {bs bs' : List (Word × Block)}
  {scopes : List Word} {this p q x : Word} {a a' : Memory} {b : Block} {m : Mem} {e : HeapSystem}
  {size n k : ℕ}

theorem ne_zero (hi : HeapInv s ds rs bs scopes) (hp : s.allocators this = some a) : this ≠ 0 := by
  rintro rfl
  rw [hi.null] at hp
  cases hp

/-- A store inside one heap. -/
theorem store_outside {bytes : List Byte} (hg : Geometry a) (hk : k + bytes.length ≤ a.heapSize)
    (hx : ¬ InRange a.heap a.heapSize x) :
    store m (a.heap + BitVec.ofNat 64 k) bytes x = m x := by
  refine store_of_not_inRange fun hin => hx ?_
  have hint := hg.int
  rw [inRange_offset (by omega)] at hin
  unfold InRange
  omega

/-- The blocks of an allocator depend on the bytes of its heap only. -/
theorem blocks_congr {cs : List Block} (hg : Geometry a) (hs : BlocksSafe this a m cs) {m' : Mem}
    (hm : ∀ x, InRange a.heap a.heapSize x → m' x = m x) : BlocksSafe this a m' cs := by
  refine ⟨hs.inside, hs.payload, hs.disjoint, hs.used, fun c hc => ?_, hs.allocated⟩
  have hin := hs.inside c hc
  have hpos := c.count_pos
  have hint := hg.int
  refine Eq.trans (bytesAt_congr fun x hx => hm x ?_) (hs.header c hc)
  rw [length_headerBytes] at hx
  unfold kChunkSize at hx hin
  rw [inRange_offset (by omega)] at hx
  unfold InRange
  omega

/-- A change of the chunks of one allocator and of the bytes of its heap. -/
theorem update (hi : HeapInv s ds rs bs scopes) (hp : s.allocators this = some a)
    (hgeo : Geometry a')
    (hframe : a' = { a with
      chunkTable := a'.chunkTable
      allocatedChunks := a'.allocatedChunks })
    (hmem : ∀ x, ¬ InRange a.heap a.heapSize x → m x = s.mem x)
    (hblocks : BlocksSafe this a' m (blocksOf bs' this))
    (hothers : ∀ q, q ≠ this → blocksOf bs' q = blocksOf bs q) :
    HeapInv { s.setAllocator this a' with mem := m } ds rs bs' scopes := by
  have hnext : a'.next = a.next := by rw [hframe]
  have hheap : a'.heap = a.heap := by rw [hframe]
  have hsize : a'.heapSize = a.heapSize := by rw [hframe]
  have hrefs : a'.references = a.references := by rw [hframe]
  have hlink : ({ s.setAllocator this a' with mem := m } : HeapState).nextOf = s.nextOf := by
    refine (nextOf_setAllocator s this a').trans ?_
    rw [hnext, ← nextOf_eq hp, Function.update_eq_self]
  have hcases : ∀ q c, ({ s.setAllocator this a' with mem := m } : HeapState).allocators q = some c →
      q = this ∧ c = a' ∨ q ≠ this ∧ s.allocators q = some c := by
    intro q c hc
    change Function.update s.allocators this (some a') q = some c at hc
    by_cases hq : q = this
    · rw [hq, Function.update_self] at hc
      exact .inl ⟨hq, (Option.some.inj hc).symm⟩
    · rw [Function.update_of_ne hq] at hc
      exact .inr ⟨hq, hc⟩
  -- every live allocator was live before, with the same heap
  have hback : ∀ q c, ({ s.setAllocator this a' with mem := m } : HeapState).allocators q = some c →
      ∃ c₀, s.allocators q = some c₀ ∧ c₀.heap = c.heap ∧ c₀.heapSize = c.heapSize ∧
        c₀.references = c.references := by
    intro q c hc
    rcases hcases q c hc with ⟨rfl, rfl⟩ | ⟨-, hc⟩
    · exact ⟨a, hp, hheap.symm, hsize.symm, hrefs.symm⟩
    · exact ⟨c, hc, rfl, rfl, rfl⟩
  have hforth : ∀ q c, s.allocators q = some c →
      ∃ c', ({ s.setAllocator this a' with mem := m } : HeapState).allocators q = some c' ∧
        c'.heap = c.heap := by
    intro q c hc
    by_cases hq : q = this
    · subst hq
      obtain rfl := Option.some.inj (hp.symm.trans hc)
      exact ⟨a', Function.update_self .., hheap⟩
    · exact ⟨c, (Function.update_of_ne hq ..).trans hc, rfl⟩
  refine ⟨(Function.update_of_ne (hi.ne_zero hp).symm ..).trans hi.null, hlink ▸ hi.default,
    hlink ▸ hi.root, hi.apart, fun q c hc => ?_, fun q c hc => ?_, fun q c hc => ?_,
    fun q c hc => ?_, fun q c hc => ?_, fun q c hqc => ?_, fun q r c d hc hd hne => ?_,
    fun h w hw => ?_, fun q hq hzero => ?_⟩
  · obtain ⟨c₀, hc₀, -⟩ := hback q c hc
    exact hi.listed q c₀ hc₀
  · rcases hcases q c hc with ⟨rfl, rfl⟩ | ⟨-, hc⟩
    · exact hgeo
    · exact hi.geometry q c hc
  · obtain ⟨c₀, hc₀, h1, -, h3⟩ := hback q c hc
    have hguard := hi.guarded q c₀ hc₀
    unfold GuardedAt at hguard ⊢
    rwa [← h1, ← h3]
  · obtain ⟨c₀, hc₀, -, -, h3⟩ := hback q c hc
    rw [← h3]
    exact hi.references q c₀ hc₀
  · rcases hcases q c hc with ⟨rfl, rfl⟩ | ⟨hq, hc⟩
    · exact hblocks
    · rw [hothers q hq]
      refine blocks_congr (hi.geometry q c hc) (hi.blocks q c hc) fun x hx => hmem x fun hin => ?_
      exact (hi.separate this q a c hp hc (Ne.symm hq)).2 x hin hx
  · by_cases hq : q = this
    · exact ⟨a', hq ▸ Function.update_self ..⟩
    · rw [← mem_blocksOf, hothers q hq, mem_blocksOf] at hqc
      obtain ⟨d, hd⟩ := hi.owners q c hqc
      exact ⟨d, (Function.update_of_ne hq ..).trans hd⟩
  · obtain ⟨c₀, hc₀, h1, h2, -⟩ := hback q c hc
    obtain ⟨d₀, hd₀, h3, h4, -⟩ := hback r d hd
    have hapart := hi.separate q r c₀ d₀ hc₀ hd₀ hne
    unfold Memory.Apart at hapart ⊢
    rwa [← h1, ← h2, ← h3, ← h4]
  · obtain ⟨q, c, hc, rfl⟩ := hi.mapped h w hw
    obtain ⟨c', hc', heq⟩ := hforth q c hc
    exact ⟨q, c', hc', heq⟩
  · obtain ⟨c, hc⟩ := hi.scopesLive q hq hzero
    obtain ⟨c', hc', -⟩ := hforth q c hc
    exact ⟨c', hc'⟩

/-- What an allocation leaves: nothing changed and null, or a block of a live allocator more. -/
def Allocated (s : HeapState) (ds rs : List Word) (bs : List (Word × Block)) (scopes : List Word)
    (size : ℕ) (ptr : Word) (t : HeapState) : Prop :=
  ptr = 0 ∧ t = s ∨ ∃ this a c, t.allocators this = some a ∧ ptr = Block.ptr ⟨c, size⟩ a.heap ∧
    HeapInv t ds rs ((this, ⟨c, size⟩) :: bs) scopes ∧ t.fault = s.fault

/-- A block is not at the null address. -/
theorem ptr_ne_zero (hi : HeapInv s ds rs bs scopes) (hp : s.allocators this = some a)
    (hb : (this, b) ∈ bs) : b.ptr a.heap ≠ 0 :=
  Memory.ptr_ne_zero (hi.geometry this a hp) (hi.blocks this a hp) (mem_blocksOf.mpr hb)

theorem Allocated.of_ne_zero {ptr : Word} (ha : Allocated s ds rs bs scopes size ptr t)
    (hne : ptr ≠ 0) : ∃ this a c, t.allocators this = some a ∧ ptr = Block.ptr ⟨c, size⟩ a.heap ∧
      HeapInv t ds rs ((this, ⟨c, size⟩) :: bs) scopes ∧ t.fault = s.fault :=
  ha.resolve_left fun h => hne h.1

theorem doAlloc (hi : HeapInv s ds rs bs scopes) (hp : s.allocators this = some a) (size : ℕ) :
    ∃ ptr t, s.doAlloc this size = some (ptr, t) ∧ Allocated s ds rs bs scopes size ptr t := by
  have hgeo := hi.geometry this a hp
  have hs := hi.blocks this a hp
  rcases doAlloc_eq hp (hi.guarded this a hp) hgeo hs size with
    hnone | ⟨c, a', m', hsome, hgeo', hs', hframe, hm⟩
  · exact ⟨0, s, hnone, .inl ⟨rfl, rfl⟩⟩
  have hheap : a'.heap = a.heap := by rw [hframe]
  have hsize : a'.heapSize = a.heapSize := by rw [hframe]
  have hin := hs'.inside ⟨c, size⟩ List.mem_cons_self
  have hpos := (Block.mk c size).count_pos
  refine ⟨_, _, hsome, .inr ⟨this, a', c, Function.update_self .., by rw [hheap], ?_, rfl⟩⟩
  refine hi.update hp hgeo' hframe (fun x hx => ?_) ?_ fun q hq => blocksOf_cons_of_ne hq
  · rw [hm]
    refine store_outside hgeo ?_ hx
    rw [length_headerBytes, ← hsize]
    unfold kChunkSize at hin ⊢
    dsimp only at hin
    omega
  · rw [blocksOf_cons_self]
    exact hs'

/-- The loops of `Memory::Alloc`, from any allocator of a list on. -/
theorem allocFrom (hi : HeapInv s ds rs bs scopes) (ok : Memory → Bool) (size : ℕ)
    {xs : List Word} (hseg : Seg s.nextOf x xs 0) (hn : xs.length < n) :
    ∃ ptr t, HeapState.allocFrom ok size n x s = some (ptr, t) ∧
      Allocated s ds rs bs scopes size ptr t := by
  induction xs generalizing x n with
  | nil =>
    obtain ⟨k, rfl⟩ : ∃ k, n = k + 1 := ⟨n - 1, by simp only [List.length_nil] at hn; omega⟩
    obtain rfl := hseg
    exact ⟨0, s, if_pos rfl, .inl ⟨rfl, rfl⟩⟩
  | cons y xs ih =>
    obtain ⟨k, rfl⟩ : ∃ k, n = k + 1 := ⟨n - 1, by omega⟩
    obtain ⟨rfl, r, hr, hseg⟩ := hseg
    obtain ⟨a, hp, rfl⟩ := exists_of_nextOf hr
    obtain ⟨ptr, t, ht, hallocated⟩ := ih hseg (n := k) (by rw [List.length_cons] at hn; omega)
    unfold HeapState.allocFrom
    rw [if_neg (hi.ne_zero hp)]
    simp only [hp, Option.bind_eq_bind, Option.bind_some]
    by_cases hok : ok a = true
    · rw [if_pos hok]
      obtain ⟨ptr', t', ht', hallocated'⟩ := hi.doAlloc hp size
      rw [ht', Option.bind_some]
      rcases hallocated' with ⟨rfl, rfl⟩ | hnew
      · simp only [ne_eq, not_true_eq_false, if_false, hp, Option.bind_some]
        exact ⟨ptr, t, ht, hallocated⟩
      · have hne : ptr' ≠ 0 := by
          obtain ⟨q, c, k, hq, hptr, hi', -⟩ := hnew
          exact hptr ▸ hi'.ptr_ne_zero hq List.mem_cons_self
        rw [if_pos hne]
        exact ⟨ptr', t', rfl, .inr hnew⟩
    · rw [if_neg hok]
      simp only [ne_eq, not_true_eq_false, if_false, hp, Option.bind_some]
      exact ⟨ptr, t, ht, hallocated⟩

/-- What the system promises for a new allocator: a new object, and a heap of its own with a bit for
each of its chunks. -/
structure Fresh (s : HeapState) (e : HeapSystem) (heapSize : ℕ) (scopes : List Word) : Prop where
  allocator : e.allocator ≠ 0
  object : s.allocators e.allocator = none
  unscoped : e.allocator ∉ scopes
  unmapped : s.heaps e.heap = none
  unit : 1024 ∣ heapSize
  fits : e.heap.toNat + heapSize ≤ 2 ^ 64
  int : heapSize < 2 ^ 38
  table : e.chunkTable.length = heapSize / 1024
  apart : ∀ q b, s.allocators q = some b → ∀ x, InRange e.heap heapSize x →
    ¬ InRange b.heap b.heapSize x

theorem fresh_blocks (hi : HeapInv s ds rs bs scopes) (hf : Fresh s e size scopes) :
    blocksOf bs e.allocator = [] := by
  refine List.eq_nil_iff_forall_not_mem.mpr fun b hb => ?_
  obtain ⟨a, ha⟩ := hi.owners _ b (mem_blocksOf.mp hb)
  rw [hf.object] at ha
  cases ha

/-- A new allocator, before the first one of either list. -/
theorem push (hi : HeapInv s ds rs bs scopes) (hf : Fresh s e size scopes) (hheap : e.heap ≠ 0) :
    HeapInv { s.newMemory e size s.defaultAllocator with defaultAllocator := e.allocator }
        (e.allocator :: ds) rs bs scopes ∧
      HeapInv { s.newMemory e size s.rootAllocator with rootAllocator := e.allocator }
        ds (e.allocator :: rs) bs scopes := by
  have hnew : ∀ next, s.newMemory e size next =
      { s.setAllocator e.allocator (Memory.mk next e.heap size e.chunkTable 0 0) with
        heaps := Function.update s.heaps e.heap (some false) } := fun next => if_pos hheap
  have hold : ∀ q b, s.allocators q = some b → q ≠ e.allocator := by
    rintro q b hq rfl
    rw [hf.object] at hq
    cases hq
  have hds : ∀ us : List Word, (∀ q ∈ us, ∃ r, s.nextOf q = some r) → e.allocator ∉ us := by
    intro us hlive hmem
    obtain ⟨r, hr⟩ := hlive _ hmem
    obtain ⟨b, hb, -⟩ := exists_of_nextOf hr
    exact hold _ b hb rfl
  have hnds : e.allocator ∉ ds := hds ds fun q hq => hi.default.live hq
  have hnrs : e.allocator ∉ rs := hds rs fun q hq => hi.root.live hq
  have hno := hi.fresh_blocks hf
  -- everything but the lists is the same for both
  have hrest : ∀ (next : Word) (d r : Word) (ds' rs' : List Word),
      Seg (Function.update s.nextOf e.allocator (some next)) d ds' 0 →
      Seg (Function.update s.nextOf e.allocator (some next)) r rs' 0 → (∀ p ∈ ds', p ∉ rs') →
      (∀ p, p = e.allocator ∨ p ∈ ds ∨ p ∈ rs → p ∈ ds' ∨ p ∈ rs') →
      HeapInv { s.setAllocator e.allocator (Memory.mk next e.heap size e.chunkTable 0 0) with
          heaps := Function.update s.heaps e.heap (some false)
          defaultAllocator := d
          rootAllocator := r } ds' rs' bs scopes := by
    intro next d r ds' rs' hd hr hapart hlisted
    generalize ha : (Memory.mk next e.heap size e.chunkTable 0 0) = a
    have hahead : a.heap = e.heap := by rw [← ha]
    have hasize : a.heapSize = size := by rw [← ha]
    have hlink := nextOf_setAllocator s e.allocator a
    rw [show a.next = next by rw [← ha]] at hlink
    have hcases : ∀ q c, Function.update s.allocators e.allocator (some a) q = some c →
        q = e.allocator ∧ c = a ∨ q ≠ e.allocator ∧ s.allocators q = some c := by
      intro q c hc
      by_cases hq : q = e.allocator
      · rw [hq, Function.update_self] at hc
        exact .inl ⟨hq, (Option.some.inj hc).symm⟩
      · rw [Function.update_of_ne hq] at hc
        exact .inr ⟨hq, hc⟩
    have hheaps : ∀ q c, s.allocators q = some c → c.heap ≠ e.heap := by
      intro q c hc heq
      have hguard := hi.guarded q c hc
      rw [GuardedAt, heq, hf.unmapped] at hguard
      cases hguard
    refine ⟨(Function.update_of_ne hf.allocator.symm ..).trans hi.null, hlink ▸ hd, hlink ▸ hr, hapart,
      fun q c hc => ?_, fun q c hc => ?_, fun q c hc => ?_, fun q c hc => ?_, fun q c hc => ?_,
      fun q b hqb => ?_, fun q r b c hb hc hne => ?_, fun h w hw => ?_, fun q hq hzero => ?_⟩
    · rcases hcases q c hc with ⟨rfl, -⟩ | ⟨-, hc⟩
      · exact hlisted _ (.inl rfl)
      · exact hlisted q (.inr (hi.listed q c hc))
    · rcases hcases q c hc with ⟨-, rfl⟩ | ⟨-, hc⟩
      · rw [← ha]
        exact ⟨hf.unit, hf.fits, hf.int, hf.table⟩
      · exact hi.geometry q c hc
    · unfold GuardedAt
      rcases hcases q c hc with ⟨-, rfl⟩ | ⟨-, hc⟩
      · rw [hahead]
        refine (Function.update_self ..).trans ?_
        rw [← ha]
        rfl
      · exact (Function.update_of_ne (hheaps q c hc) ..).trans (hi.guarded q c hc)
    · rcases hcases q c hc with ⟨rfl, rfl⟩ | ⟨-, hc⟩
      · rw [List.count_eq_zero_of_not_mem hf.unscoped, ← ha]
        rfl
      · exact hi.references q c hc
    · rcases hcases q c hc with ⟨rfl, rfl⟩ | ⟨-, hc⟩
      · rw [hno, ← ha]
        exact ⟨fun _ h => (nomatch h), fun _ h => (nomatch h), .nil, fun _ h => (nomatch h),
          fun _ h => (nomatch h), rfl⟩
      · exact hi.blocks q c hc
    · obtain ⟨c, hc⟩ := hi.owners q b hqb
      exact ⟨c, (Function.update_of_ne (hold q c hc) ..).trans hc⟩
    · rcases hcases q b hb with ⟨rfl, rfl⟩ | ⟨-, hb'⟩ <;>
        rcases hcases r c hc with ⟨rfl, rfl⟩ | ⟨-, hc'⟩
      · exact absurd rfl hne
      · unfold Memory.Apart
        rw [hahead, hasize]
        exact ⟨(hheaps r c hc').symm, fun x hx => hf.apart r c hc' x hx⟩
      · unfold Memory.Apart
        rw [hahead, hasize]
        exact ⟨hheaps q b hb', fun x hx hin => hf.apart q b hb' x hin hx⟩
      · exact hi.separate q r b c hb' hc' hne
    · change Function.update s.heaps e.heap (some false) h = some w at hw
      by_cases hh : h = e.heap
      · exact ⟨e.allocator, a, Function.update_self .., hahead.trans hh.symm⟩
      · rw [Function.update_of_ne hh] at hw
        obtain ⟨q, c, hc, heq⟩ := hi.mapped h w hw
        exact ⟨q, c, (Function.update_of_ne (hold q c hc) ..).trans hc, heq⟩
    · obtain ⟨c, hc⟩ := hi.scopesLive q hq hzero
      exact ⟨c, (Function.update_of_ne (hold q c hc) ..).trans hc⟩
  have hcons : ∀ {x : Word} {us : List Word}, Seg s.nextOf x us 0 → e.allocator ∉ us →
      Seg (Function.update s.nextOf e.allocator (some x)) e.allocator (e.allocator :: us) 0 :=
    fun hseg hmem => ⟨rfl, _, Function.update_self .., hseg.update hmem⟩
  rw [hnew, hnew]
  constructor
  · refine hrest s.defaultAllocator e.allocator s.rootAllocator (e.allocator :: ds) rs
      (hcons hi.default hnds) (hi.root.update hnrs) (fun p hp => ?_) fun p hp => ?_
    · rcases List.mem_cons.mp hp with rfl | hp
      · exact hnrs
      · exact hi.apart p hp
    · rcases hp with rfl | hp | hp
      · exact .inl List.mem_cons_self
      · exact .inl (List.mem_cons_of_mem _ hp)
      · exact .inr hp
  · refine hrest s.rootAllocator s.defaultAllocator e.allocator ds (e.allocator :: rs)
      (hi.default.update hnds) (hcons hi.root hnrs) (fun p hp hmem => ?_) fun p hp => ?_
    · rcases List.mem_cons.mp hmem with rfl | hmem
      · exact hnds hp
      · exact hi.apart p hp hmem
    · rcases hp with rfl | hp | hp
      · exact .inr List.mem_cons_self
      · exact .inl hp
      · exact .inr (List.mem_cons_of_mem _ hp)

/-- The result of a call of `Memory::Alloc`: null, or a block of a live allocator. -/
def Served (t : HeapState) (ds rs : List Word) (bs : List (Word × Block)) (scopes : List Word)
    (size : ℕ) (ptr : Word) : Prop :=
  ptr = 0 ∧ HeapInv t ds rs bs scopes ∨ ∃ this a c, t.allocators this = some a ∧
    ptr = Block.ptr ⟨c, size⟩ a.heap ∧ HeapInv t ds rs ((this, ⟨c, size⟩) :: bs) scopes

theorem Allocated.served {ptr : Word} (hi : HeapInv s ds rs bs scopes)
    (ha : Allocated s ds rs bs scopes size ptr t) :
    Served t ds rs bs scopes size ptr ∧ t.fault = s.fault := by
  rcases ha with ⟨rfl, rfl⟩ | ⟨this, a, c, hp, hptr, hi', hfault⟩
  · exact ⟨.inl ⟨rfl, hi⟩, rfl⟩
  · exact ⟨.inr ⟨this, a, c, hp, hptr, hi'⟩, hfault⟩

theorem newMemory_live (s : HeapState) (e : HeapSystem) (size : ℕ) (next : Word) :
    (s.newMemory e size next).allocators e.allocator =
        some { next := next, heap := e.heap, heapSize := size, chunkTable := e.chunkTable } ∧
      (s.newMemory e size next).fault = s.fault := by
  unfold newMemory
  dsimp only
  split
  · exact ⟨Function.update_self .., rfl⟩
  · exact ⟨Function.update_self .., rfl⟩

theorem alloc (hi : HeapInv s ds rs bs scopes) (hf : Fresh s e kHeapSize scopes)
    (hheap : e.heap ≠ 0) (size : ℕ) :
    ∃ ptr t ds', s.alloc e size = some (ptr, t) ∧ Served t ds' rs bs scopes size ptr ∧
      t.fault = s.fault := by
  unfold HeapState.alloc
  by_cases hsize : kHeapSize / 2 ≤ size
  · exact ⟨0, s, ds, if_pos hsize, .inl ⟨rfl, hi⟩, rfl⟩
  rw [if_neg hsize]
  obtain ⟨ptr, t, ht, hallocated⟩ := hi.allocFrom (fun _ => true) size hi.default
    (length_lt hi.null hi.default)
  simp only [ht, Option.bind_eq_bind, Option.bind_some]
  by_cases hptr : ptr = 0
  · rw [if_neg (not_not.mpr hptr)]
    obtain ⟨-, rfl⟩ : ptr = 0 ∧ t = s := by
      rcases hallocated with h | ⟨this, a, c, hp, rfl, hi', -⟩
      · exact h
      · exact absurd hptr (hi'.ptr_ne_zero hp List.mem_cons_self)
    obtain ⟨hi', -⟩ := hi.push hf hheap
    obtain ⟨hlive, hfault⟩ := newMemory_live t e kHeapSize t.defaultAllocator
    obtain ⟨ptr', u, hu, hallocated'⟩ := hi'.doAlloc hlive size
    obtain ⟨hserved, hfault'⟩ := hallocated'.served hi'
    exact ⟨ptr', u, e.allocator :: ds, hu, hserved, hfault'.trans hfault⟩
  · rw [if_pos hptr]
    obtain ⟨hserved, hfault⟩ := hallocated.served hi
    exact ⟨ptr, t, ds, rfl, hserved, hfault⟩

theorem allocRange (hi : HeapInv s ds rs bs scopes)
    (hf : e.heap ≠ 0 → Fresh s e e.spaceSize scopes) (size : ℕ) (start finish : Word) :
    ∃ ptr t rs', s.allocRange e size start finish = some (ptr, t) ∧
      Served t ds rs' bs scopes size ptr ∧ t.fault = s.fault := by
  unfold HeapState.allocRange
  by_cases hsize : kSmallHeapSize / 2 ≤ size
  · exact ⟨0, s, rs, if_pos hsize, .inl ⟨rfl, hi⟩, rfl⟩
  rw [if_neg hsize]
  obtain ⟨ptr, t, ht, hallocated⟩ := hi.allocFrom
    (within (alignUp start e.pageSize) (alignDown finish e.pageSize)) size hi.root
    (length_lt hi.null hi.root)
  simp only [ht, Option.bind_eq_bind, Option.bind_some]
  by_cases hptr : ptr = 0
  · rw [if_neg (not_not.mpr hptr)]
    obtain ⟨-, rfl⟩ : ptr = 0 ∧ t = s := by
      rcases hallocated with h | ⟨this, a, c, hp, rfl, hi', -⟩
      · exact h
      · exact absurd hptr (hi'.ptr_ne_zero hp List.mem_cons_self)
    by_cases hheap : e.heap = 0
    · rw [if_pos hheap]
      exact ⟨0, t, rs, rfl, .inl ⟨rfl, hi⟩, rfl⟩
    rw [if_neg hheap]
    obtain ⟨-, hi'⟩ := hi.push (hf hheap) hheap
    obtain ⟨hlive, hfault⟩ := newMemory_live t e e.spaceSize t.rootAllocator
    obtain ⟨ptr', u, hu, hallocated'⟩ := hi'.doAlloc hlive size
    obtain ⟨hserved, hfault'⟩ := hallocated'.served hi'
    exact ⟨ptr', u, e.allocator :: rs, hu, hserved, hfault'.trans hfault⟩
  · rw [if_pos hptr]
    obtain ⟨hserved, hfault⟩ := hallocated.served hi
    exact ⟨ptr, t, rs, rfl, hserved, hfault⟩

/-! ### Releases -/

/-- The header of a live block is found, and it names the allocator. -/
theorem header_eq (hi : HeapInv s ds rs bs scopes) (hp : s.allocators this = some a)
    (hb : (this, b) ∈ bs) : ∃ header, getMemoryHeader s.mem (b.ptr a.heap) = some header ∧
      load 64 s.mem (header + 8) = this := by
  have hgeo := hi.geometry this a hp
  have hs := hi.blocks this a hp
  have hmem := mem_blocksOf.mpr hb
  obtain ⟨hheader, hmagic, hcount, hallocator⟩ := header_fields hgeo hs hmem
  refine ⟨_, ?_, hallocator⟩
  have hne : BitVec.ofNat 32 b.count ≠ 0 := by
    intro hzero
    have hnat := congrArg BitVec.toNat hzero
    rw [BitVec.toNat_ofNat, Nat.mod_eq_of_lt (count_lt hgeo hs hmem)] at hnat
    exact b.count_pos.ne' hnat
  unfold getMemoryHeader
  dsimp only
  rw [hheader, if_neg (hi.ptr_ne_zero hp hb), if_neg]
  rintro (h | h | h)
  · exact h hmagic
  · exact hne (hcount ▸ h)
  · exact hi.ne_zero hp (hallocator ▸ h)

/-- The block is the only one of its allocator. -/
def LastBlock (a : Memory) (b : Block) : Prop := a.allocatedChunks.toNat = b.count

instance (a : Memory) (b : Block) : Decidable (LastBlock a b) :=
  inferInstanceAs (Decidable (_ = _))

/-- The deletion of an allocator of the list of the root that has no blocks left. -/
theorem deleted (hi : HeapInv s ds rs bs scopes) (hp : s.allocators this = some a)
    (hd : Deleted s this a m rs t) (hmem : ∀ x, ¬ InRange a.heap a.heapSize x → m x = s.mem x)
    (hnone : blocksOf bs' this = []) (hothers : ∀ q, q ≠ this → blocksOf bs' q = blocksOf bs q)
    (hds : this ∉ ds) (hscopes : this ∉ scopes) :
    HeapInv t ds (rs.filter (· ≠ this)) bs' scopes := by
  have hback : ∀ q c, t.allocators q = some c → q ≠ this ∧ ∃ c₀, s.allocators q = some c₀ ∧
      unlinked c₀ = unlinked c := by
    intro q c hc
    have hq : q ≠ this := by
      rintro rfl
      rw [hd.gone] at hc
      cases hc
    have hsame := hd.same q hq
    rw [hc, Option.map_some] at hsame
    obtain ⟨c₀, hc₀, heq⟩ := Option.map_eq_some_iff.mp hsame.symm
    exact ⟨hq, c₀, hc₀, heq⟩
  have hforth : ∀ q c, q ≠ this → s.allocators q = some c →
      ∃ c', t.allocators q = some c' ∧ unlinked c' = unlinked c := by
    intro q c hq hc
    have hsame := hd.same q hq
    rw [hc, Option.map_some] at hsame
    exact Option.map_eq_some_iff.mp hsame
  -- what an allocator has besides its successor
  have hfields : ∀ {c c₀ : Memory}, unlinked c₀ = unlinked c → c₀.heap = c.heap ∧
      c₀.heapSize = c.heapSize ∧ c₀.chunkTable = c.chunkTable ∧
      c₀.allocatedChunks = c.allocatedChunks ∧ c₀.references = c.references := by
    intro c c₀ heq
    exact (Memory.mk.inj heq).2
  have hzero : (0 : Word) ∉ rs := by
    intro h
    obtain ⟨r, hr⟩ := hi.root.live h
    rw [nextOf_null hi.null] at hr
    cases hr
  refine ⟨(hd.others 0 (hi.ne_zero hp).symm hzero).trans hi.null, ?_, hd.seg,
    fun q hq hmem => hi.apart q hq (List.mem_filter.mp hmem).1, fun q c hc => ?_, fun q c hc => ?_,
    fun q c hc => ?_, fun q c hc => ?_, fun q c hc => ?_, fun q b hqb => ?_,
    fun q r b c hb hc hne => ?_, fun h w hw => ?_, fun q hq hzero => ?_⟩
  · rw [hd.default]
    refine hi.default.congr fun q hq => ?_
    have hqthis : q ≠ this := by
      rintro rfl
      exact hds hq
    unfold nextOf
    rw [hd.others q hqthis (hi.apart q hq)]
  · obtain ⟨hq, c₀, hc₀, -⟩ := hback q c hc
    refine (hi.listed q c₀ hc₀).imp_right fun hmem => List.mem_filter.mpr ⟨hmem, ?_⟩
    simpa using hq
  · obtain ⟨-, c₀, hc₀, heq⟩ := hback q c hc
    obtain ⟨h1, h2, h3, -⟩ := hfields heq
    obtain ⟨k1, k2, k3, k4⟩ := hi.geometry q c₀ hc₀
    exact ⟨h2 ▸ k1, h1 ▸ h2 ▸ k2, h2 ▸ k3, h3 ▸ h2 ▸ k4⟩
  · obtain ⟨hq, c₀, hc₀, heq⟩ := hback q c hc
    obtain ⟨h1, -, -, -, h5⟩ := hfields heq
    have hguard := hi.guarded q c₀ hc₀
    unfold GuardedAt at hguard ⊢
    rw [hd.heaps, ← h1, ← h5, Function.update_of_ne (hi.separate q this c₀ a hc₀ hp hq).1]
    exact hguard
  · obtain ⟨-, c₀, hc₀, heq⟩ := hback q c hc
    rw [← (hfields heq).2.2.2.2]
    exact hi.references q c₀ hc₀
  · obtain ⟨hq, c₀, hc₀, heq⟩ := hback q c hc
    obtain ⟨h1, h2, h3, h4, -⟩ := hfields heq
    have hs : BlocksSafe q c₀ m (blocksOf bs q) :=
      blocks_congr (hi.geometry q c₀ hc₀) (hi.blocks q c₀ hc₀) fun x hx =>
        hmem x fun hin => (hi.separate this q a c₀ hp hc₀ (Ne.symm hq)).2 x hin hx
    rw [hothers q hq, hd.mem]
    refine ⟨fun b hb => h2 ▸ hs.inside b hb, hs.payload, hs.disjoint, fun b hb => ?_,
      fun b hb => ?_, h4 ▸ hs.allocated⟩
    · rw [← h3]
      exact hs.used b hb
    · rw [← h1]
      exact hs.header b hb
  · by_cases hq : q = this
    · rw [hq, ← mem_blocksOf, hnone] at hqb
      cases hqb
    · rw [← mem_blocksOf, hothers q hq, mem_blocksOf] at hqb
      obtain ⟨c, hc⟩ := hi.owners q b hqb
      obtain ⟨c', hc', -⟩ := hforth q c hq hc
      exact ⟨c', hc'⟩
  · obtain ⟨-, b₀, hb₀, heqb⟩ := hback q b hb
    obtain ⟨-, c₀, hc₀, heqc⟩ := hback r c hc
    have hapart := hi.separate q r b₀ c₀ hb₀ hc₀ hne
    obtain ⟨h1, h2, -⟩ := hfields heqb
    obtain ⟨h3, h4, -⟩ := hfields heqc
    unfold Memory.Apart at hapart ⊢
    rwa [← h1, ← h2, ← h3, ← h4]
  · rw [hd.heaps] at hw
    have hne : h ≠ a.heap := by
      rintro rfl
      rw [Function.update_self] at hw
      cases hw
    rw [Function.update_of_ne hne] at hw
    obtain ⟨q, c, hc, rfl⟩ := hi.mapped h w hw
    have hq : q ≠ this := by
      rintro rfl
      obtain rfl := Option.some.inj (hp.symm.trans hc)
      exact hne rfl
    obtain ⟨c', hc', heq⟩ := hforth q c hq hc
    exact ⟨q, c', hc', (hfields heq).1⟩
  · obtain ⟨c, hc⟩ := hi.scopesLive q hq hzero
    have hqthis : q ≠ this := by
      rintro rfl
      exact hscopes hq
    obtain ⟨c', hc', -⟩ := hforth q c hqthis hc
    exact ⟨c', hc'⟩

/-- `Memory::Free` of a live block. Where it is the last one of an allocator other than the default
one, the allocator is deleted, and its scope touches it afterwards. -/
theorem free (hi : HeapInv s ds rs bs scopes) (hp : s.allocators this = some a)
    (hb : (this, b) ∈ bs)
    (hkeeps : LastBlock a b → this ≠ s.defaultAllocator → this ∉ ds ∧ this ∉ scopes) :
    ∃ t rs', s.free (b.ptr a.heap) = some t ∧
      HeapInv t ds rs' (bs.erase (this, b)) scopes ∧
      (¬ (LastBlock a b ∧ this ≠ s.defaultAllocator) → t.fault = s.fault) := by
  have hgeo := hi.geometry this a hp
  have hs := hi.blocks this a hp
  have hmem := mem_blocksOf.mpr hb
  obtain ⟨header, hheader, hallocator⟩ := hi.header_eq hp hb
  have hfree : s.free (b.ptr a.heap) = s.doFree this (b.ptr a.heap) := by
    unfold HeapState.free
    rw [hheader]
    dsimp only
    rw [hallocator]
  obtain ⟨a', m', hgeo', hs', hframe, hm, hcases⟩ := doFree_eq hp (hi.guarded this a hp) hgeo hs
    hmem hi.null hi.root
  have hlast : a'.allocatedChunks = 0 ↔ LastBlock a b := by
    have hperm := (List.perm_cons_erase hmem).map Block.count
    have hsum := hs.allocated
    rw [hperm.sum_eq, List.map_cons, List.sum_cons, ← hs'.allocated] at hsum
    unfold LastBlock
    rw [← BitVec.toNat_inj, show (0 : Word).toNat = 0 from rfl]
    omega
  have houtside : ∀ x, ¬ InRange a.heap a.heapSize x → m' x = s.mem x := by
    intro x hx
    have hin := hs.inside b hmem
    have hpos := b.count_pos
    rw [hm]
    refine store_outside hgeo ?_ hx
    rw [length_toBytes]
    unfold kChunkSize at hin ⊢
    omega
  rw [← blocksOf_erase_self] at hs'
  have hothers : ∀ q, q ≠ this → blocksOf (bs.erase (this, b)) q = blocksOf bs q :=
    fun q hq => blocksOf_erase_of_ne hq
  rw [hfree]
  rcases hcases with ⟨hno, hrun⟩ | ⟨hzero, hne, t, hrun, hd⟩
  · exact ⟨_, rs, hrun, hi.update hp hgeo' hframe houtside hs' hothers, fun _ => rfl⟩
  · obtain ⟨hds, hscopes⟩ := hkeeps (hlast.mp hzero) hne
    refine ⟨t, _, hrun, hi.deleted hp hd houtside ?_ hothers hds hscopes,
      fun h => absurd ⟨hlast.mp hzero, hne⟩ h⟩
    have hempty := hs'.allocated
    rw [hzero] at hempty
    refine List.eq_nil_iff_forall_not_mem.mpr fun c hc => ?_
    have hle := List.single_le_sum (fun _ _ => Nat.zero_le _) _
      (List.mem_map_of_mem (f := Block.count) hc)
    rw [← hempty] at hle
    exact absurd c.count_pos (not_lt.mpr hle)

end HeapInv
end Rv64Hook
