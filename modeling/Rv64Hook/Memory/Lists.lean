import Rv64Hook.Memory.Scopes
import Rv64Hook.Lib.LinkedList

/-! The two lists of allocators: taking an allocator out of the list of the root, and deleting it. -/
namespace Rv64Hook
open ByteMem Rv64 Bitmap LinkedList

namespace HeapState

open Memory

variable {s t : HeapState} {this next p x y : Word} {link : Option Word} {a a' : Memory}
  {xs ys zs : List Word} {bs : List Block} {b : Block} {m : Mem}

/-- The successor of a live allocator. -/
def nextOf (s : HeapState) (p : Word) : Option Word := (s.allocators p).map (·.next)

/-- An allocator but for its successor. -/
def unlinked (a : Memory) : Memory := { a with next := 0 }

theorem nextOf_eq (hp : s.allocators p = some a) : s.nextOf p = some a.next := by
  rw [nextOf, hp]
  rfl

theorem nextOf_null (hnull : s.allocators 0 = none) : s.nextOf 0 = none := by
  rw [nextOf, hnull]
  rfl

theorem exists_of_nextOf (hp : s.nextOf p = some x) : ∃ a, s.allocators p = some a ∧ a.next = x :=
  Option.map_eq_some_iff.mp hp

theorem nextOf_setAllocator (s : HeapState) (p : Word) (a : Memory) :
    (s.setAllocator p a).nextOf = Function.update s.nextOf p (some a.next) := by
  funext q
  by_cases hq : q = p
  · simp [nextOf, setAllocator, hq]
  · simp [nextOf, setAllocator, Function.update_of_ne hq]

/-- There are fewer objects in a list than addresses. -/
theorem length_lt (hnull : s.allocators 0 = none) (hseg : Seg s.nextOf x xs 0) :
    xs.length < maxAllocators := by
  have hnodup := hseg.nodup (nextOf_null hnull)
  have hmap : (xs.map BitVec.toNat).Nodup :=
    hnodup.map_on fun _ _ _ _ h => BitVec.eq_of_toNat_eq h
  have hsub : (xs.map BitVec.toNat).toFinset ⊆ Finset.Ico 1 (2 ^ 64) := by
    intro n hn
    rw [List.mem_toFinset, List.mem_map] at hn
    obtain ⟨q, hq, rfl⟩ := hn
    refine Finset.mem_Ico.mpr ⟨Nat.pos_of_ne_zero fun hzero => ?_, q.isLt⟩
    obtain ⟨r, hr⟩ := hseg.live hq
    rw [show q = 0 from BitVec.eq_of_toNat_eq hzero, nextOf_null hnull] at hr
    cases hr
  have hcard := Finset.card_le_card hsub
  rw [List.toFinset_card_of_nodup hmap, List.length_map, Nat.card_Ico] at hcard
  unfold maxAllocators
  omega

/-- The loop passes the allocators before the one it looks for. -/
theorem unlink_walk (next : Word) (hlink : s.linkAt link = some x) (hseg : Seg s.nextOf x xs y)
    (hthis : this ∉ xs) (hzero : 0 ∉ xs) (n : ℕ) :
    unlink this next (n + xs.length) link s =
        unlink this next n (xs.foldl (fun _ q => some q) link) s ∧
      s.linkAt (xs.foldl (fun _ q => some q) link) = some y := by
  induction xs generalizing link x with
  | nil =>
    obtain rfl := hseg
    exact ⟨rfl, hlink⟩
  | cons q xs ih =>
    obtain ⟨rfl, r, hr, hseg⟩ := hseg
    obtain ⟨hne, hthis⟩ := not_or.mp (fun h => hthis (List.mem_cons.mpr h))
    obtain ⟨hne0, hzero⟩ := not_or.mp (fun h => hzero (List.mem_cons.mpr h))
    have hx : s.linkAt (some x) = some r := hr
    obtain ⟨hrun, hend⟩ := ih hx hseg hthis hzero
    refine ⟨?_, hend⟩
    rw [List.length_cons, ← Nat.add_assoc, List.foldl_cons, ← hrun, unlink]
    simp only [hlink, Option.bind_eq_bind, Option.bind_some]
    rw [if_neg (Ne.symm hne0), if_neg (Ne.symm hne)]

/-- What the loop of `DoFree` does to the list of the root. -/
structure Unlinked (s : HeapState) (this : Word) (xs : List Word) (t : HeapState) : Prop where
  same : ∀ p, (t.allocators p).map unlinked = (s.allocators p).map unlinked
  others : ∀ p, p ∉ xs → t.allocators p = s.allocators p
  seg : Seg (Function.update t.nextOf this none) t.rootAllocator (xs.filter (· ≠ this)) 0
  rest : t = { s with allocators := t.allocators, rootAllocator := t.rootAllocator }

theorem unlink_eq (hnull : s.allocators 0 = none) (hseg : Seg s.nextOf s.rootAllocator xs 0)
    (hp : s.allocators this = some a) :
    ∃ t, unlink this a.next maxAllocators none s = some t ∧ Unlinked s this xs t := by
  have hnodup := hseg.nodup (nextOf_null hnull)
  have hlen := length_lt hnull hseg
  have hzero : 0 ∉ xs := by
    intro hmem
    obtain ⟨r, hr⟩ := hseg.live hmem
    rw [nextOf_null hnull] at hr
    cases hr
  have hne : this ≠ 0 := by
    rintro rfl
    rw [hnull] at hp
    cases hp
  by_cases hmem : this ∈ xs
  · obtain ⟨ys, zs, rfl⟩ := List.append_of_mem hmem
    have hnodup' := hnodup
    rw [List.nodup_middle, List.nodup_cons] at hnodup'
    obtain ⟨hthis, -⟩ := hnodup'
    rw [List.mem_append, not_or] at hthis
    have hfilter : (ys ++ this :: zs).filter (· ≠ this) = ys ++ zs := by
      have hkeep : ∀ us : List Word, this ∉ us → us.filter (· ≠ this) = us := by
        intro us hus
        refine List.filter_eq_self.mpr fun q hq => ?_
        have hqne : q ≠ this := fun heq => hus (heq ▸ hq)
        simpa using hqne
      rw [List.filter_append, List.filter_cons_of_neg (by simp), hkeep ys hthis.1, hkeep zs hthis.2]
    obtain ⟨r, hys, hr, v, hv, hzs⟩ := seg_append.mp hseg
    rw [hr] at hys
    obtain rfl := Option.some.inj ((nextOf_eq hp).symm.trans hv)
    obtain ⟨k, hk⟩ : ∃ k, maxAllocators = k + 1 + ys.length := by
      rw [List.length_append, List.length_cons] at hlen
      exact ⟨maxAllocators - ys.length - 1, by omega⟩
    have hlink : s.linkAt none = some s.rootAllocator := rfl
    have hyzero : 0 ∉ ys := fun h => hzero (List.mem_append_left _ h)
    obtain ⟨hrun, hend⟩ := unlink_walk a.next hlink hys hthis.1 hyzero (k + 1)
    have hset : unlink this a.next maxAllocators none s =
        s.setLink (ys.foldl (fun _ q => some q) none) a.next := by
      rw [hk, hrun, unlink]
      simp only [hend, Option.bind_eq_bind, Option.bind_some]
      rw [if_neg hne, if_pos trivial]
    rw [hset]
    rcases List.eq_nil_or_concat' ys with rfl | ⟨us, w, rfl⟩
    · refine ⟨_, rfl, fun _ => rfl, fun _ _ => rfl, ?_, rfl⟩
      rw [hfilter]
      exact hzs.update hthis.2
    · rw [List.foldl_append]
      obtain ⟨k, hw⟩ := hseg.live (show w ∈ us ++ [w] ++ this :: zs by simp)
      obtain ⟨aw, hw, -⟩ := exists_of_nextOf hw
      refine ⟨s.setAllocator w { aw with next := a.next }, ?_, fun q => ?_, fun q hq => ?_, ?_,
        rfl⟩
      · change (s.allocators w).bind _ = _
        rw [hw]
        rfl
      · by_cases hq : q = w
        · rw [hq, hw]
          simp [setAllocator, unlinked]
        · simp [setAllocator, Function.update_of_ne hq]
      · exact Function.update_of_ne (fun heq => hq (by simp [heq])) ..
      · rw [hfilter, nextOf_setAllocator]
        refine Seg.update ?_ (by simpa [and_assoc] using hthis)
        have hsplit : Seg s.nextOf s.rootAllocator (us ++ w :: this :: zs) 0 := by
          simpa using hseg
        have hremove := hsplit.remove (nextOf_null hnull) (nextOf_eq hp)
        simpa [setAllocator] using hremove
  · obtain ⟨k, hk⟩ : ∃ k, maxAllocators = k + 1 + xs.length :=
      ⟨maxAllocators - xs.length - 1, by omega⟩
    have hlink : s.linkAt none = some s.rootAllocator := rfl
    obtain ⟨hrun, hend⟩ := unlink_walk a.next hlink hseg hmem hzero (k + 1)
    refine ⟨s, ?_, fun _ => rfl, fun _ _ => rfl, ?_, rfl⟩
    · rw [hk, hrun, unlink]
      simp only [hend, Option.bind_eq_bind, Option.bind_some]
      rw [if_pos trivial]
    · have hfilter : xs.filter (· ≠ this) = xs := by
        refine List.filter_eq_self.mpr fun q hq => ?_
        have hqne : q ≠ this := fun heq => hmem (heq ▸ hq)
        simpa using hqne
      rw [hfilter]
      exact hseg.update hmem

/-- The process once an allocator is deleted, its heap unmapped and its object out of the list of
the root; the scope of `DoFree` then touches it. -/
structure Deleted (s : HeapState) (this : Word) (a : Memory) (m : Mem) (xs : List Word)
    (t : HeapState) : Prop where
  gone : t.allocators this = none
  same : ∀ p, p ≠ this → (t.allocators p).map unlinked = (s.allocators p).map unlinked
  others : ∀ p, p ≠ this → p ∉ xs → t.allocators p = s.allocators p
  seg : Seg t.nextOf t.rootAllocator (xs.filter (· ≠ this)) 0
  heaps : t.heaps = Function.update s.heaps a.heap none
  fault : t.fault = true
  default : t.defaultAllocator = s.defaultAllocator
  mem : t.mem = m

/-- `DoFree` of a live block removes it. Where it was the last one of an allocator that is not the
default one, it deletes the allocator. -/
theorem doFree_eq (hp : s.allocators this = some a) (hg : s.GuardedAt a) (hgeo : Geometry a)
    (hs : BlocksSafe this a s.mem bs) (hb : b ∈ bs) (hnull : s.allocators 0 = none)
    (hroot : Seg s.nextOf s.rootAllocator xs 0) :
    ∃ a' m', Geometry a' ∧ BlocksSafe this a' m' (bs.erase b) ∧
      a' = { a with chunkTable := a'.chunkTable, allocatedChunks := a'.allocatedChunks } ∧
      m' = store s.mem (a.heap + BitVec.ofNat 64 (b.chunk * kChunkSize + 4))
        (toBytes 4 (0 : BitVec 32)) ∧
      (¬ (a'.allocatedChunks = 0 ∧ this ≠ s.defaultAllocator) ∧
          s.doFree this (b.ptr a.heap) = some { s.setAllocator this a' with mem := m' } ∨
        a'.allocatedChunks = 0 ∧ this ≠ s.defaultAllocator ∧
          ∃ t, s.doFree this (b.ptr a.heap) = some t ∧ Deleted s this a m' xs t) := by
  have hopen : (s.openScope this).allocators this =
      some { a with references := a.references + 1 } := by
    rw [openScope_eq hp hg]
    exact Function.update_self ..
  have hmem : (s.openScope this).mem = s.mem := by
    rw [openScope_eq hp hg]
    rfl
  obtain ⟨a', m', hfree, hgeo', hs', -, ha, hm⟩ := freeBlock_eq
    (geometry_references (r := a.references + 1) hgeo) (blocksSafe_references hs) hb
  have ha' : a' = { a with
      references := a.references + 1
      chunkTable := a'.chunkTable
      allocatedChunks := a'.allocatedChunks } := ha
  have hheap : a'.heap = a.heap := by rw [ha']
  have hnext : a'.next = a.next := by rw [ha']
  obtain ⟨t, ht, hdefault, hallocators, hrootEq, hheaps, hfault, htmem, hclose⟩ :=
    closeScope_written (m := m') hp hg ha'
  refine ⟨{ a' with references := a.references }, m', geometry_references hgeo',
    blocksSafe_references hs', by rw [ha'], hm, ?_⟩
  by_cases hdelete : a'.allocatedChunks = 0 ∧ this ≠ s.defaultAllocator
  · refine .inr ⟨hdelete.1, hdelete.2, ?_⟩
    have htnull : t.allocators 0 = none := by
      rw [hallocators, Function.update_of_ne]
      · exact hnull
      · rintro rfl
        rw [hnull] at hp
        cases hp
    have htnext : t.nextOf = s.nextOf := by
      funext q
      unfold nextOf
      rw [hallocators]
      by_cases hq : q = this
      · rw [hq, Function.update_self, hp, Option.map_some, Option.map_some, hnext]
      · rw [Function.update_of_ne hq]
    obtain ⟨u, hu, hunlinked⟩ := unlink_eq htnull
      (by rw [htnext, hrootEq]; exact hroot) (show t.allocators this = some a' by
        rw [hallocators, Function.update_self])
    have hheapsu : u.heaps = t.heaps := by rw [hunlinked.rest]
    refine ⟨{ u.deleteAllocator this a.heap with fault := true }, ?_, ?_⟩
    · rw [hheap] at ht
      simp only [doFree, hopen, hmem, hfree, Option.bind_eq_bind, Option.bind_some, hheap, ht,
        hdefault, if_pos hdelete, hu]
      unfold closeScope
      rw [show (u.deleteAllocator this a.heap).allocators this = none from
        Function.update_self ..]
    refine ⟨Function.update_self .., fun q hq => ?_, fun q hq hqxs => ?_, ?_, ?_, rfl, ?_, ?_⟩
    · change (Function.update u.allocators this none q).map unlinked = _
      rw [Function.update_of_ne hq, hunlinked.same, hallocators, Function.update_of_ne hq]
    · change Function.update u.allocators this none q = _
      rw [Function.update_of_ne hq, hunlinked.others q hqxs, hallocators, Function.update_of_ne hq]
    · refine hunlinked.seg.congr fun q _ => ?_
      change (Function.update u.allocators this none q).map (·.next) = _
      by_cases hq : q = this
      · rw [hq, Function.update_self, Function.update_self]
        rfl
      · rw [Function.update_of_ne hq, Function.update_of_ne hq]
        rfl
    · change Function.update u.heaps a.heap none = _
      rw [hheapsu, hheaps, Function.update_idem]
    · change u.defaultAllocator = _
      rw [hunlinked.rest, ← hdefault]
    · change u.mem = _
      rw [hunlinked.rest, ← htmem]
  · refine .inl ⟨hdelete, ?_⟩
    simp only [doFree, hopen, hmem, hfree, Option.bind_eq_bind, Option.bind_some, ht, hdefault,
      if_neg hdelete, hclose]

end HeapState
end Rv64Hook
