import Rv64Hook.Memory.Heaps
import Rv64Hook.Lib.Calls

/-! Runs of allocations, releases, scopes and writes. -/
namespace Rv64Hook
open ByteMem Rv64 Bitmap LinkedList Calls

open Memory HeapState

namespace HeapInv

variable {s t : HeapState} {ds rs : List Word} {bs : List (Word × Block)}
  {scopes scopes' : List Word} {this p q r : Word} {a : Memory} {b : Block} {m : Mem}
  {offset : ℕ} {bytes : List Byte}

/-- A change of the number of scopes on one allocator. -/
theorem rescope (hi : HeapInv s ds rs bs scopes) (hp : s.allocators this = some a)
    (hr : r = BitVec.ofNat 64 (scopes'.count this))
    (hothers : ∀ q, q ≠ this → scopes'.count q = scopes.count q)
    (hlive : ∀ q ∈ scopes', q ≠ 0 → ∃ c, s.allocators q = some c) :
    HeapInv { s.setAllocator this { a with references := r } with
      heaps := Function.update s.heaps a.heap (some (decide (r ≠ 0))) } ds rs bs scopes' := by
  generalize ha : ({ a with references := r } : Memory) = a'
  have hheap : a'.heap = a.heap := by rw [← ha]
  have hsize : a'.heapSize = a.heapSize := by rw [← ha]
  have hrefs : a'.references = r := by rw [← ha]
  have hlink : (s.setAllocator this a').nextOf = s.nextOf := by
    rw [nextOf_setAllocator, show a'.next = a.next by rw [← ha], ← nextOf_eq hp,
      Function.update_eq_self]
  have hcases : ∀ q c, Function.update s.allocators this (some a') q = some c →
      q = this ∧ c = a' ∨ q ≠ this ∧ s.allocators q = some c := by
    intro q c hc
    by_cases hq : q = this
    · rw [hq, Function.update_self] at hc
      exact .inl ⟨hq, (Option.some.inj hc).symm⟩
    · rw [Function.update_of_ne hq] at hc
      exact .inr ⟨hq, hc⟩
  have hback : ∀ q c, Function.update s.allocators this (some a') q = some c →
      ∃ c₀, s.allocators q = some c₀ ∧ c₀.heap = c.heap ∧ c₀.heapSize = c.heapSize := by
    intro q c hc
    rcases hcases q c hc with ⟨rfl, rfl⟩ | ⟨-, hc⟩
    · exact ⟨a, hp, hheap.symm, hsize.symm⟩
    · exact ⟨c, hc, rfl, rfl⟩
  have hforth : ∀ q c, s.allocators q = some c →
      ∃ c', Function.update s.allocators this (some a') q = some c' ∧ c'.heap = c.heap := by
    intro q c hc
    by_cases hq : q = this
    · subst hq
      obtain rfl := Option.some.inj (hp.symm.trans hc)
      exact ⟨a', Function.update_self .., hheap⟩
    · exact ⟨c, (Function.update_of_ne hq ..).trans hc, rfl⟩
  refine ⟨(Function.update_of_ne (hi.ne_zero hp).symm ..).trans hi.null, hlink ▸ hi.default,
    hlink ▸ hi.root, hi.apart, fun q c hc => ?_, fun q c hc => ?_, fun q c hc => ?_,
    fun q c hc => ?_, fun q c hc => ?_, fun q c hqc => ?_, fun q r c d hc hd hne => ?_,
    fun h w hw => ?_, fun q hq hzero => ?_⟩
  · obtain ⟨c₀, hc₀, -⟩ := hback q c hc
    exact hi.listed q c₀ hc₀
  · rcases hcases q c hc with ⟨-, rfl⟩ | ⟨-, hc⟩
    · rw [← ha]
      exact geometry_references (hi.geometry this a hp)
    · exact hi.geometry q c hc
  · unfold GuardedAt
    rcases hcases q c hc with ⟨-, rfl⟩ | ⟨hq, hc⟩
    · rw [hheap, hrefs]
      exact Function.update_self ..
    · exact (Function.update_of_ne (hi.separate q this c a hc hp hq).1 ..).trans
        (hi.guarded q c hc)
  · rcases hcases q c hc with ⟨rfl, rfl⟩ | ⟨hq, hc⟩
    · exact hrefs.trans hr
    · rw [hothers q hq]
      exact hi.references q c hc
  · rcases hcases q c hc with ⟨rfl, rfl⟩ | ⟨-, hc⟩
    · rw [← ha]
      exact blocksSafe_references (hi.blocks q a hp)
    · exact hi.blocks q c hc
  · obtain ⟨d, hd⟩ := hi.owners q c hqc
    obtain ⟨d', hd', -⟩ := hforth q d hd
    exact ⟨d', hd'⟩
  · obtain ⟨c₀, hc₀, h1, h2⟩ := hback q c hc
    obtain ⟨d₀, hd₀, h3, h4⟩ := hback r d hd
    have hapart := hi.separate q r c₀ d₀ hc₀ hd₀ hne
    unfold Memory.Apart at hapart ⊢
    rwa [← h1, ← h2, ← h3, ← h4]
  · change Function.update s.heaps a.heap (some (decide (r ≠ 0))) h = some w at hw
    by_cases hh : h = a.heap
    · exact ⟨this, a', Function.update_self .., hheap.trans hh.symm⟩
    · rw [Function.update_of_ne hh] at hw
      obtain ⟨q, c, hc, heq⟩ := hi.mapped h w hw
      obtain ⟨c', hc', heq'⟩ := hforth q c hc
      exact ⟨q, c', hc', heq'.trans heq⟩
  · obtain ⟨c, hc⟩ := hlive q hq hzero
    obtain ⟨c', hc', -⟩ := hforth q c hc
    exact ⟨c', hc'⟩

theorem openScopeAt_eq (hi : HeapInv s ds rs bs scopes) (hp : s.allocators this = some a)
    (hb : (this, b) ∈ bs) : s.openScopeAt (b.ptr a.heap) = (s.openScope this, this) := by
  obtain ⟨header, hheader, hallocator⟩ := hi.header_eq hp hb
  unfold openScopeAt
  rw [hheader]
  dsimp only
  rw [hallocator]

/-- A scope is opened on the allocator of a block. -/
theorem openScope (hi : HeapInv s ds rs bs scopes) (hp : s.allocators this = some a)
    (hlen : scopes.length + 1 < 2 ^ 64) :
    HeapInv (s.openScope this) ds rs bs (this :: scopes) ∧ (s.openScope this).fault = s.fault := by
  have hcount : (this :: scopes).count this = scopes.count this + 1 := by
    rw [List.count_cons_self]
  have hrefs : a.references + 1 = BitVec.ofNat 64 ((this :: scopes).count this) := by
    rw [hi.references this a hp, hcount, BitVec.ofNat_add]
    rfl
  have hne : a.references + 1 ≠ 0 := by
    intro hzero
    have hnat := congrArg BitVec.toNat (hrefs.symm.trans hzero)
    have hle := List.count_le_length (a := this) (l := scopes)
    rw [hcount, BitVec.toNat_ofNat, show (0 : Word).toNat = 0 from rfl] at hnat
    omega
  have hinv := hi.rescope hp hrefs (fun q hq => List.count_cons_of_ne (Ne.symm hq))
    fun q hq hzero => by
      rcases List.mem_cons.mp hq with rfl | hq
      · exact ⟨a, hp⟩
      · exact hi.scopesLive q hq hzero
  rw [decide_eq_true hne] at hinv
  rw [openScope_eq hp (hi.guarded this a hp)]
  exact ⟨hinv, rfl⟩

/-- The scope opened last is closed. -/
theorem closeScope (hi : HeapInv s ds rs bs (this :: scopes)) (hlen : scopes.length + 1 < 2 ^ 64) :
    HeapInv (s.closeScopeAt this) ds rs bs scopes ∧ (s.closeScopeAt this).fault = s.fault := by
  unfold closeScopeAt
  by_cases hzero : this = 0
  · rw [if_neg (not_not.mpr hzero)]
    refine ⟨⟨hi.null, hi.default, hi.root, hi.apart, hi.listed, hi.geometry, hi.guarded,
      fun q c hc => ?_, hi.blocks, hi.owners, hi.separate, hi.mapped,
      fun q hq => hi.scopesLive q (List.mem_cons_of_mem _ hq)⟩, rfl⟩
    have hq : this ≠ q := by
      rintro rfl
      exact hi.ne_zero hc hzero
    rw [hi.references q c hc, List.count_cons_of_ne hq]
  rw [if_pos hzero]
  obtain ⟨a, hp⟩ := hi.scopesLive this List.mem_cons_self hzero
  have hrefs := hi.references this a hp
  rw [List.count_cons_self] at hrefs
  have hsub : a.references - 1 = BitVec.ofNat 64 (scopes.count this) := by
    rw [hrefs, BitVec.ofNat_add]
    simp
  have hne : a.references ≠ 0 := by
    intro heq
    have hnat := congrArg BitVec.toNat (hrefs.symm.trans heq)
    have hle := List.count_le_length (a := this) (l := scopes)
    rw [BitVec.toNat_ofNat, show (0 : Word).toNat = 0 from rfl] at hnat
    omega
  have hheap : s.heaps a.heap = some true := by
    rw [hi.guarded this a hp, decide_eq_true hne]
  have hinv := hi.rescope hp hsub
    (fun q hq => (List.count_cons_of_ne (Ne.symm hq)).symm)
    fun q hq => hi.scopesLive q (List.mem_cons_of_mem _ hq)
  rw [closeScope_eq hp hheap]
  exact ⟨hinv, rfl⟩

/-- A write to a live block, in a scope of its own. -/
theorem writeBlock (hi : HeapInv s ds rs bs scopes) (hp : s.allocators this = some a)
    (hb : (this, b) ∈ bs) (hfits : offset + bytes.length ≤ b.size) :
    ∃ t, s.writeBlock a.heap (b.ptr a.heap) offset bytes = some t ∧ HeapInv t ds rs bs scopes ∧
      t.fault = s.fault := by
  have hguard := hi.guarded this a hp
  have hgeo := hi.geometry this a hp
  have hs := hi.blocks this a hp
  have hmem := mem_blocksOf.mpr hb
  generalize hm : store s.mem (b.ptr a.heap + BitVec.ofNat 64 offset) bytes = m
  have hwritten : BlocksSafe this a m (blocksOf bs this) := by
    rw [← hm]
    exact hs.write hgeo hmem hfits
  have hinv := hi.update (m := m) hp hgeo rfl (fun x hx => ?_) hwritten fun _ _ => rfl
  · rw [setAllocator_self hp] at hinv
    refine ⟨{ s with mem := m }, ?_, hinv, rfl⟩
    have ha' : ({ a with references := a.references + 1 } : Memory) = { a with
        references := a.references + 1
        chunkTable := a.chunkTable
        allocatedChunks := a.allocatedChunks } := rfl
    obtain ⟨u, hu, -, -, -, -, -, -, hclose⟩ := closeScope_written (m := m) hp hguard ha'
    have hopened : (s.openScope this).setAllocator this
        { a with references := a.references + 1 } = s.openScope this := by
      refine setAllocator_self ?_
      rw [openScope_eq hp hguard]
      exact Function.update_self ..
    rw [hopened] at hu
    have hsmem : (s.openScope this).mem = s.mem := by
      rw [openScope_eq hp hguard]
      rfl
    unfold HeapState.writeBlock
    simp only [hi.openScopeAt_eq hp hb, Option.bind_eq_bind, hsmem, hm, closeScopeAt,
      ne_eq, hi.ne_zero hp, not_false_eq_true, if_true]
    rw [show (s.openScope this).writeHeap a.heap m = some u from hu, Option.bind_some, hclose]
    congr 1
    rw [setAllocator_self hp]
  · rw [← hm]
    have hin := hs.inside b hmem
    have hpayload := b.payload_le
    rw [Nat.add_mul] at hin
    unfold Block.ptr
    rw [add_ofNat_add]
    refine store_outside hgeo ?_ hx
    unfold kAlignment at hpayload ⊢
    omega

end HeapInv
end Rv64Hook
