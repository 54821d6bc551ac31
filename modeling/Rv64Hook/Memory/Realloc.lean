import Rv64Hook.Memory.Usable

/-! `DoRealloc` on one allocator: blocks that have room, that grow in place and that move. -/
namespace Rv64Hook
open ByteMem Rv64 Bitmap

/-- What `DoRealloc` returns and leaves, with the number of bytes it has copied from the block. -/
structure Reallocated where
  ptr : Word
  allocator : Memory
  mem : Mem
  copied : ℕ := 0

namespace Memory

/-- The first loop of `DoRealloc`: one of the `n` chunks from `i` on is used. -/
def anyUsed (chunkTable : List Byte) : ℕ → ℕ → Option Bool
  | 0, _ => some false
  | n + 1, i => do
    let used ← bit chunkTable i
    if used then some true else anyUsed chunkTable n (i + 1)

/-- The body of `DoRealloc`. An access outside the table or the heap gives `none`. -/
def reallocBlock (this : Word) (a : Memory) (m : Mem) (ptr size : Word) : Option Reallocated := do
  let header := ptr - BitVec.ofNat 64 kAlignment
  if a.inHeap header kAlignment then
    let expected := (size + BitVec.ofNat 64 (kAlignment + (kChunkSize - 1))).toNat / kChunkSize
    let chunkCount := (load 32 m (header + 4)).toNat
    if expected ≤ chunkCount then some ⟨ptr, a, m, 0⟩
    else
      let start := (header - a.heap).toNat / kChunkSize + chunkCount
      let shouldRealloc ← anyUsed a.chunkTable (expected - chunkCount) start
      if shouldRealloc then
        let (newPtr, a, m) ← allocBlock this a m size.toNat
        if newPtr = 0 then some ⟨0, a, m, 0⟩
        else
          let n := (load 32 m (header + 4)).toNat * kChunkSize
          if a.inHeap ptr n && a.inHeap newPtr n then
            let (a, m) ← freeBlock a (store m newPtr (bytesAt m ptr n)) ptr
            some ⟨newPtr, a, m, n⟩
          else none
      else
        let a := { a with
          allocatedChunks := a.allocatedChunks + BitVec.ofNat 64 (expected - chunkCount) }
        let m := store m (header + 4) (toBytes 4 (BitVec.ofNat 32 expected))
        -- the end of the loop depends on the count that has just been replaced
        let chunkTable ← setBits (expected - (load 32 m (header + 4)).toNat) start a.chunkTable
        some ⟨ptr, { a with chunkTable := chunkTable }, m, 0⟩
  else none

variable {t : List Byte} {n i k : ℕ} {this ptr size : Word} {a a' : Memory} {m m' : Mem}
  {bs cs : List Block} {b c : Block}

theorem anyUsed_eq_true : anyUsed t n i = some true ↔
    ∃ j, i ≤ j ∧ j < i + n ∧ bit t j = some true := by
  induction n generalizing i with
  | zero =>
    refine ⟨fun h => ?_, fun ⟨j, h1, h2, _⟩ => by omega⟩
    simp [anyUsed] at h
  | succ n ih =>
    unfold anyUsed
    constructor
    · intro h
      obtain ⟨used, hused, h⟩ := Option.bind_eq_some_iff.mp h
      cases used with
      | true => exact ⟨i, le_rfl, by omega, hused⟩
      | false =>
        obtain ⟨j, h1, h2, hj⟩ := ih.mp h
        exact ⟨j, by omega, by omega, hj⟩
    · rintro ⟨j, h1, h2, hj⟩
      obtain ⟨used, hused⟩ := bit_eq_some (t := t) (i := i) (by have := lt_of_bit hj; omega)
      simp only [hused, Option.bind_eq_bind, Option.bind_some]
      cases used with
      | true => rfl
      | false =>
        have hne : j ≠ i := by
          rintro rfl
          rw [hused] at hj
          cases hj
        exact ih.mpr ⟨j, by omega, by omega, hj⟩

theorem anyUsed_eq_false (h : anyUsed t n i = some false) :
    ∀ j, i ≤ j → j < i + n → bit t j = some false := by
  induction n generalizing i with
  | zero => intro j h1 h2; omega
  | succ n ih =>
    unfold anyUsed at h
    obtain ⟨used, hused, h⟩ := Option.bind_eq_some_iff.mp h
    cases used with
    | true => simp at h
    | false =>
      intro j h1 h2
      by_cases hj : j = i
      · rw [hj, hused]
      · exact ih h j (by omega) (by omega)

end Memory

/-- The bytes of a block behind its header. -/
def Block.capacity (b : Block) : ℕ := b.count * kChunkSize - kAlignment

/-- The address is one of the chunks of the block. -/
def Block.Covers (b : Block) (heap x : Word) : Prop :=
  InRange (heap + BitVec.ofNat 64 (b.chunk * kChunkSize)) (b.count * kChunkSize) x

namespace Memory

variable {t : List Byte} {n i k : ℕ} {this ptr size : Word} {a a' : Memory} {m m' : Mem}
  {bs cs : List Block} {b c : Block}

/-- What is expected of `DoRealloc` of the block: it copies from the block only, it leaves all other
bytes alone, and it either fails and changes nothing or gives a block with the same contents that
has room and takes the place of the old one. -/
structure ReallocSound (this : Word) (a : Memory) (m : Mem) (bs : List Block) (b : Block)
    (size : Word) (r : Reallocated) : Prop where
  reads : ∀ x, InRange (b.ptr a.heap) r.copied x → InRange a.heap a.heapSize x ∧
    ∀ c ∈ bs, c ≠ b → ¬ c.Covers a.heap x
  null : r.ptr = 0 → r.allocator = a ∧ r.mem = m
  moved : r.ptr ≠ 0 → ∃ b' : Block, r.ptr = b'.ptr a.heap ∧ size.toNat ≤ b'.capacity ∧
    Geometry r.allocator ∧ BlocksSafe this r.allocator r.mem (b' :: bs.erase b) ∧
    r.allocator = { a with
      chunkTable := r.allocator.chunkTable
      allocatedChunks := r.allocator.allocatedChunks } ∧
    (∀ k < min b.capacity size.toNat,
      r.mem (r.ptr + BitVec.ofNat 64 k) = m (b.ptr a.heap + BitVec.ofNat 64 k)) ∧
    ∀ x, ¬ b.Covers a.heap x → ¬ b'.Covers a.heap x → r.mem x = m x

/-- The table has room for a block of the size. -/
def HasRoom (a : Memory) (size : ℕ) : Prop :=
  size ≤ a.heapSize ∧ ∃ c, c + expectedChunkCount size ≤ a.heapSize / kChunkSize ∧
    ∀ j, c ≤ j → j < c + expectedChunkCount size → bit a.chunkTable j = some false

/-- The block has room; or a chunk that it would grow into is used, and there is either no room to
move it or no live block right behind it. -/
def CanRealloc (a : Memory) (bs : List Block) (b : Block) (size : Word) : Prop :=
  size.toNat ≤ b.capacity ∨
    size.toNat + (kAlignment + (kChunkSize - 1)) < 2 ^ 64 ∧
    (∃ j, b.chunk + b.count ≤ j ∧ j < b.chunk + expectedChunkCount size.toNat ∧
      bit a.chunkTable j = some true) ∧
    (HasRoom a size.toNat → ¬ Owned bs (b.chunk + b.count))

/-- The number of chunks that `DoRealloc` computes. -/
theorem expected_eq (h : size.toNat + (kAlignment + (kChunkSize - 1)) < 2 ^ 64) :
    (size + BitVec.ofNat 64 (kAlignment + (kChunkSize - 1))).toNat / kChunkSize =
      expectedChunkCount size.toNat := by
  unfold expectedChunkCount
  unfold kAlignment kChunkSize at h ⊢
  rw [BitVec.toNat_add, BitVec.toNat_ofNat]
  omega

/-- It wraps for the largest sizes. -/
theorem expected_le_one (h : ¬ size.toNat + (kAlignment + (kChunkSize - 1)) < 2 ^ 64) :
    (size + BitVec.ofNat 64 (kAlignment + (kChunkSize - 1))).toNat / kChunkSize ≤ 1 := by
  have hlt := size.isLt
  unfold kAlignment kChunkSize at h ⊢
  rw [BitVec.toNat_add, BitVec.toNat_ofNat]
  omega

theorem le_capacity_iff : size.toNat ≤ b.capacity ↔ expectedChunkCount size.toNat ≤ b.count := by
  have hpos := b.count_pos
  unfold Block.capacity expectedChunkCount kAlignment kChunkSize
  omega

/-- What `DoRealloc` reads from the header of a live block. -/
theorem header_read (hg : Geometry a) (hs : BlocksSafe this a m bs) (hb : b ∈ bs) :
    a.inHeap (b.ptr a.heap - BitVec.ofNat 64 kAlignment) kAlignment = true ∧
      (load 32 m (b.ptr a.heap - BitVec.ofNat 64 kAlignment + 4)).toNat = b.count ∧
      (b.ptr a.heap - BitVec.ofNat 64 kAlignment - a.heap).toNat / kChunkSize = b.chunk := by
  obtain ⟨hheader, -, hcount, -⟩ := header_fields hg hs hb
  have hin := hs.inside b hb
  have hint := hg.int
  have hpayload := b.payload_le
  have hsplit := Nat.add_mul b.chunk b.count kChunkSize
  have hoffset : b.chunk * kChunkSize < 2 ^ 64 := by omega
  refine ⟨?_, ?_, ?_⟩
  · rw [hheader]
    unfold inHeap
    rw [offset_toNat hoffset, decide_eq_true_eq]
    omega
  · rw [hheader, hcount, BitVec.toNat_ofNat, Nat.mod_eq_of_lt (count_lt hg hs hb)]
  · rw [hheader, offset_toNat hoffset, Nat.mul_div_cancel _ (by decide)]

theorem BlocksSafe.of_erase (hs : BlocksSafe this a m bs) (hb : b ∈ bs) :
    BlocksSafe this a m (b :: bs.erase b) := by
  have hperm : bs.Perm (b :: bs.erase b) := List.perm_cons_erase hb
  refine ⟨fun c hc => hs.inside c (hperm.mem_iff.mpr hc), fun c _ => c.payload_le,
    (hperm.pairwise_iff fun h => Block.Disjoint.symm h).mp hs.disjoint,
    fun c hc => hs.used c (hperm.mem_iff.mpr hc), fun c hc => hs.header c (hperm.mem_iff.mpr hc), ?_⟩
  rw [hs.allocated, (hperm.map Block.count).sum_eq]

/-- The block has room. -/
theorem reallocBlock_kept (hg : Geometry a) (hs : BlocksSafe this a m bs) (hb : b ∈ bs)
    (h : (size + BitVec.ofNat 64 (kAlignment + (kChunkSize - 1))).toNat / kChunkSize ≤ b.count) :
    reallocBlock this a m (b.ptr a.heap) size = some ⟨b.ptr a.heap, a, m, 0⟩ := by
  obtain ⟨hin, hcount, -⟩ := header_read hg hs hb
  unfold reallocBlock
  simp only [hin, hcount, if_pos, h]

/-- The block has to grow: a chunk that it would grow into is used and it moves, or it grows in
place, or the scan leaves the table. -/
theorem reallocBlock_grown (hg : Geometry a) (hs : BlocksSafe this a m bs) (hb : b ∈ bs)
    (h : size.toNat + (kAlignment + (kChunkSize - 1)) < 2 ^ 64)
    (hgrow : b.count < expectedChunkCount size.toNat) :
    reallocBlock this a m (b.ptr a.heap) size =
      (anyUsed a.chunkTable (expectedChunkCount size.toNat - b.count) (b.chunk + b.count)).bind
        fun shouldRealloc =>
          if shouldRealloc then
            (allocBlock this a m size.toNat).bind fun (newPtr, a', m') =>
              if newPtr = 0 then some ⟨0, a', m', 0⟩
              else
                let n := (load 32 m' (b.ptr a.heap - BitVec.ofNat 64 kAlignment + 4)).toNat * kChunkSize
                if a'.inHeap (b.ptr a.heap) n && a'.inHeap newPtr n then
                  (freeBlock a' (store m' newPtr (bytesAt m' (b.ptr a.heap) n)) (b.ptr a.heap)).bind
                    fun (a', m') => some ⟨newPtr, a', m', n⟩
                else none
          else
            let m' := store m (b.ptr a.heap - BitVec.ofNat 64 kAlignment + 4)
              (toBytes 4 (BitVec.ofNat 32 (expectedChunkCount size.toNat)))
            (setBits (expectedChunkCount size.toNat -
                (load 32 m' (b.ptr a.heap - BitVec.ofNat 64 kAlignment + 4)).toNat)
              (b.chunk + b.count) a.chunkTable).bind fun chunkTable =>
                some ⟨b.ptr a.heap, { a with
                  chunkTable := chunkTable
                  allocatedChunks := a.allocatedChunks +
                    BitVec.ofNat 64 (expectedChunkCount size.toNat - b.count) }, m', 0⟩ := by
  obtain ⟨hin, hcount, hchunk⟩ := header_read hg hs hb
  unfold reallocBlock
  simp only [hin, hcount, hchunk, if_pos, expected_eq h, if_neg (not_le.mpr hgrow)]
  rfl

/-- A store in one part of a heap leaves the bytes elsewhere alone. -/
theorem store_apart {heap x : Word} {bytes : List Byte} (hk : k + bytes.length ≤ 2 ^ 64)
    (hx : (x - heap).toNat < k ∨ k + bytes.length ≤ (x - heap).toNat) :
    store m (heap + BitVec.ofNat 64 k) bytes x = m x := by
  refine store_of_not_inRange fun hin => ?_
  rw [inRange_offset hk] at hin
  omega

theorem covers_iff {heap x : Word} (h : (b.chunk + b.count) * kChunkSize ≤ 2 ^ 64) :
    b.Covers heap x ↔ b.chunk * kChunkSize ≤ (x - heap).toNat ∧
      (x - heap).toNat < (b.chunk + b.count) * kChunkSize := by
  rw [Nat.add_mul] at h ⊢
  exact inRange_offset h

/-- An allocation fails exactly where the table has no room. -/
theorem allocBlock_noRoom (hg : Geometry a) (hs : BlocksSafe this a m bs) {size : ℕ}
    (hroom : ¬ HasRoom a size) : allocBlock this a m size = some (0, a, m) := by
  rcases allocBlock_eq hg hs size with hnone | ⟨c, a', m', hsome, hg', hs', hfree, -, ha, -⟩
  · exact hnone
  · have hin := hs'.inside _ List.mem_cons_self
    have hpayload : kAlignment + size ≤ _ := (Block.mk c size).payload_le
    have hsplit := Nat.add_mul c (Block.mk c size).count kChunkSize
    rw [show a'.heapSize = a.heapSize by rw [ha]] at hin
    dsimp only at hin
    exact absurd ⟨by omega, c, (Nat.le_div_iff_mul_le (by decide)).mpr hin, hfree⟩ hroom

theorem allocBlock_hasRoom (hg : Geometry a) (hs : BlocksSafe this a m bs) {size : ℕ}
    (hpos : 0 < size) (hroom : HasRoom a size) :
    ∃ c a' m', allocBlock this a m size = some (Block.ptr ⟨c, size⟩ a.heap, a', m') ∧
      Geometry a' ∧ BlocksSafe this a' m' (⟨c, size⟩ :: bs) ∧
      a' = { a with chunkTable := a'.chunkTable, allocatedChunks := a'.allocatedChunks } ∧
      m' = store m (a.heap + BitVec.ofNat 64 (c * kChunkSize))
        (headerBytes (BitVec.ofNat 32 (expectedChunkCount size)) this) := by
  obtain ⟨hle, c, hend, hfree⟩ := hroom
  rcases allocBlock_eq hg hs size with hnone | ⟨c, a', m', hsome, hg', hs', -, -, ha, hm⟩
  · obtain ⟨c', a', m', hsome, hg', hs', ha⟩ := allocBlock_found hg hs hpos hle hend hfree
    have hne := ptr_ne_zero hg' hs' List.mem_cons_self
    rw [hnone] at hsome
    rw [show a'.heap = a.heap by rw [ha], ← (Prod.mk.inj (Option.some.inj hsome)).1] at hne
    exact absurd rfl hne
  · exact ⟨c, a', m', hsome, hg', hs', ha, hm⟩

/-- The block moves: its bytes are copied to the new one, with the first bytes behind it, and it is
freed. -/
theorem reallocBlock_moved (hg : Geometry a) (hs : BlocksSafe this a m bs) (hb : b ∈ bs)
    (h : size.toNat + (kAlignment + (kChunkSize - 1)) < 2 ^ 64)
    (hgrow : b.count < expectedChunkCount size.toNat)
    (hused : ∃ j, b.chunk + b.count ≤ j ∧ j < b.chunk + expectedChunkCount size.toNat ∧
      bit a.chunkTable j = some true) (hroom : HasRoom a size.toNat) :
    ∃ r, reallocBlock this a m (b.ptr a.heap) size = some r ∧
      r.copied = b.count * kChunkSize ∧ (b.chunk + b.count + 1) * kChunkSize ≤ a.heapSize ∧
      (¬ Owned bs (b.chunk + b.count) → ReallocSound this a m bs b size r) := by
  have hbpos := b.count_pos
  have hpos : 0 < size.toNat := by
    by_contra hzero
    rw [show size.toNat = 0 by omega] at hgrow
    have hone : expectedChunkCount 0 = 1 := rfl
    omega
  obtain ⟨c, a₁, m₁, hsome, hg₁, hs₁, ha₁, hm₁⟩ := allocBlock_hasRoom hg hs hpos hroom
  generalize hnew : Block.mk c size.toNat = b' at hsome hs₁
  have hcount : b'.count = expectedChunkCount size.toNat := by rw [← hnew]; rfl
  have hchunk : c = b'.chunk := by rw [← hnew]
  rw [hchunk] at hm₁
  have hheap : a₁.heap = a.heap := by rw [ha₁]
  have hsize : a₁.heapSize = a.heapSize := by rw [ha₁]
  have hmem : b ∈ b' :: bs := List.mem_cons_of_mem _ hb
  have hne : b' ≠ b := by
    rintro rfl
    omega
  have hin := hs.inside b hb
  have hin' := hs₁.inside b' List.mem_cons_self
  have hint := hg.int
  have hfits := hg.fits
  have hbehind : (b.chunk + b.count + 1) * kChunkSize ≤ a.heapSize := by
    obtain ⟨j, hj, -, hbit⟩ := hused
    have hlt := lt_of_bit hbit
    rw [← hg.total] at hlt
    exact (Nat.le_div_iff_mul_le (by decide)).mp (by omega)
  obtain ⟨-, hread, -⟩ := header_read hg₁ hs₁ hmem
  have hany := anyUsed_eq_true.mpr (show ∃ j, b.chunk + b.count ≤ j ∧
    j < b.chunk + b.count + (expectedChunkCount size.toNat - b.count) ∧
      bit a.chunkTable j = some true by
        obtain ⟨j, h1, h2, h3⟩ := hused
        exact ⟨j, h1, by omega, h3⟩)
  rw [hheap] at hread
  rw [hsize] at hin'
  have hlen := length_bytesAt m₁ (b.ptr a.heap) (b.count * kChunkSize)
  generalize hbytes : bytesAt m₁ (b.ptr a.heap) (b.count * kChunkSize) = bytes at hlen
  -- the copy, and the release of the old block
  generalize hm₂ : store m₁ (b'.ptr a.heap) bytes = m₂
  have hfitsNew : kAlignment + (0 + bytes.length) ≤ b'.count * kChunkSize := by
    unfold kAlignment kChunkSize at *
    omega
  have hs₂ : BlocksSafe this a₁ m₂ (b' :: bs) := by
    have hstore := hs₁.store hg₁ List.mem_cons_self hfitsNew
    rw [hheap, show b'.ptr a.heap + BitVec.ofNat 64 0 = b'.ptr a.heap from BitVec.add_zero _, hm₂]
      at hstore
    exact hstore
  obtain ⟨a₂, m₃, hfree, hg₂, hs₃, -, ha₂, hm₃⟩ := freeBlock_eq hg₁ hs₂ hmem
  rw [hheap] at hfree hm₃
  rw [List.erase_cons_tail (by simpa using hne)] at hs₃
  have hnewne := ptr_ne_zero hg₁ hs₁ List.mem_cons_self
  rw [hheap] at hnewne
  have hfitsOld : b.chunk * kChunkSize + kAlignment + b.count * kChunkSize ≤ a.heapSize ∧
      b'.chunk * kChunkSize + kAlignment + b.count * kChunkSize ≤ a.heapSize := by
    unfold kAlignment kChunkSize at *
    omega
  obtain ⟨hfitsOld, hfitsTarget⟩ := hfitsOld
  refine ⟨⟨b'.ptr a.heap, a₂, m₃, b.count * kChunkSize⟩, ?_, rfl, hbehind, fun hunowned => ?_⟩
  · rw [reallocBlock_grown hg hs hb h hgrow, hany, Option.bind_some, if_pos rfl, hsome,
      Option.bind_some]
    dsimp only
    rw [if_neg hnewne, hread, if_pos, hbytes, hm₂, hfree, Option.bind_some]
    unfold inHeap Block.ptr
    rw [hheap, hsize, offset_toNat (by omega), offset_toNat (by omega), Bool.and_eq_true,
      decide_eq_true_eq, decide_eq_true_eq]
    exact ⟨hfitsOld, hfitsTarget⟩
  have hdisjoint : b'.Disjoint b := hs₁.disjoint.forall List.mem_cons_self hmem hne
  refine ⟨fun x hx => ?_, fun h => absurd h hnewne, fun _ => ⟨b', rfl, ?_, hg₂, hs₃, ?_, ?_, ?_⟩⟩
  · change InRange (b.ptr a.heap) (b.count * kChunkSize) x at hx
    unfold Block.ptr at hx
    rw [inRange_offset (by omega)] at hx
    refine ⟨by unfold InRange; omega, fun c hc hcb hcovers => ?_⟩
    -- the copy goes up to the chunk behind the block, and no block starts there
    have hcin := hs.inside c hc
    rw [covers_iff (by omega)] at hcovers
    have hdis : b.Disjoint c := hs.disjoint.forall hb hc (Ne.symm hcb)
    have hcpos := c.count_pos
    unfold Block.Disjoint at hdis
    refine hunowned ⟨c, hc, ?_⟩
    unfold kAlignment kChunkSize at *
    omega
  · exact le_capacity_iff.mpr hcount.ge
  · rw [ha₂, ha₁]
  · intro k hk
    have hkn : k < bytes.length := by
      unfold Block.capacity at hk
      omega
    have hcopy : m₂ (b'.ptr a.heap + BitVec.ofNat 64 k) =
        m₁ (b.ptr a.heap + BitVec.ofNat 64 k) := by
      rw [← hm₂, store_of_lt hkn (by omega)]
      have hget := getElem?_bytesAt (m := m₁) (a := b.ptr a.heap) (hlen ▸ hkn)
      rw [hbytes, List.getElem?_eq_getElem hkn] at hget
      exact Option.some.inj hget
    unfold Block.Disjoint at hdisjoint
    unfold Block.capacity at hk
    calc
      m₃ (b'.ptr a.heap + BitVec.ofNat 64 k) = m₂ (b'.ptr a.heap + BitVec.ofNat 64 k) := by
        unfold Block.ptr
        rw [hm₃, add_ofNat_add, store_apart]
        · rw [length_toBytes]
          unfold kAlignment kChunkSize at *
          omega
        · rw [length_toBytes, offset_toNat (by unfold kAlignment kChunkSize at *; omega)]
          unfold kAlignment kChunkSize at *
          omega
      _ = m₁ (b.ptr a.heap + BitVec.ofNat 64 k) := hcopy
      _ = m (b.ptr a.heap + BitVec.ofNat 64 k) := by
        unfold Block.ptr
        rw [hm₁, add_ofNat_add, store_apart]
        · rw [length_headerBytes]
          unfold kAlignment kChunkSize at *
          omega
        · rw [length_headerBytes, offset_toNat (by unfold kAlignment kChunkSize at *; omega)]
          unfold kAlignment kChunkSize at *
          omega
  · intro x hx hx'
    rw [covers_iff (by omega)] at hx hx'
    change m₃ x = m x
    rw [hm₃, store_apart, ← hm₂]
    · unfold Block.ptr
      rw [store_apart, hm₁, store_apart]
      · rw [length_headerBytes]
        unfold kAlignment kChunkSize at *
        omega
      · rw [length_headerBytes]
        unfold kAlignment kChunkSize at *
        omega
      · unfold kAlignment kChunkSize at *
        omega
      · unfold kAlignment kChunkSize at *
        omega
    · rw [length_toBytes]
      unfold kAlignment kChunkSize at *
      omega
    · rw [length_toBytes]
      unfold kAlignment kChunkSize at *
      omega

theorem not_inRange_zero {x y : Word} : ¬ InRange x 0 y := Nat.not_lt_zero _

/-- A block that has room keeps its place. -/
theorem reallocSound_kept (hg : Geometry a) (hs : BlocksSafe this a m bs) (hb : b ∈ bs)
    (h : size.toNat ≤ b.capacity) :
    ∃ r, reallocBlock this a m (b.ptr a.heap) size = some r ∧
      ReallocSound this a m bs b size r := by
  have hin := hs.inside b hb
  have hint := hg.int
  have hwraps : size.toNat + (kAlignment + (kChunkSize - 1)) < 2 ^ 64 := by
    unfold Block.capacity at h
    rw [Nat.add_mul] at hin
    unfold kAlignment kChunkSize at *
    omega
  have hexpected := le_capacity_iff.mp h
  rw [← expected_eq hwraps] at hexpected
  refine ⟨_, reallocBlock_kept hg hs hb hexpected, fun x hx => absurd hx not_inRange_zero,
    fun _ => ⟨rfl, rfl⟩, fun _ => ⟨b, rfl, h, hg, hs.of_erase hb, rfl, fun _ _ => rfl,
    fun _ _ _ => rfl⟩⟩

/-- A block that has to move and finds no room is left alone. -/
theorem reallocSound_noRoom (hg : Geometry a) (hs : BlocksSafe this a m bs) (hb : b ∈ bs)
    (h : size.toNat + (kAlignment + (kChunkSize - 1)) < 2 ^ 64)
    (hgrow : b.count < expectedChunkCount size.toNat)
    (hused : anyUsed a.chunkTable (expectedChunkCount size.toNat - b.count) (b.chunk + b.count) =
      some true) (hroom : ¬ HasRoom a size.toNat) :
    ∃ r, reallocBlock this a m (b.ptr a.heap) size = some r ∧
      ReallocSound this a m bs b size r := by
  refine ⟨⟨0, a, m, 0⟩, ?_, fun x hx => absurd hx not_inRange_zero, fun _ => ⟨rfl, rfl⟩,
    fun h => absurd rfl h⟩
  rw [reallocBlock_grown hg hs hb h hgrow, hused, Option.bind_some, if_pos rfl,
    allocBlock_noRoom hg hs hroom, Option.bind_some]
  exact if_pos rfl

/-- The chunks of a block that ends at the same address and has room for more are not all used. -/
theorem not_grown_in_place (hg : Geometry a) (hs : BlocksSafe this a m bs) (hb : b ∈ bs)
    (h : size.toNat + (kAlignment + (kChunkSize - 1)) < 2 ^ 64)
    (hgrow : b.count < expectedChunkCount size.toNat)
    (hfree : anyUsed a.chunkTable (expectedChunkCount size.toNat - b.count) (b.chunk + b.count) =
      some false) {r : Reallocated} (hr : reallocBlock this a m (b.ptr a.heap) size = some r) :
    ¬ ReallocSound this a m bs b size r := by
  intro hsound
  have hclear := anyUsed_eq_false hfree
  have hexpected : expectedChunkCount size.toNat < 2 ^ 32 := by
    obtain ⟨-, hlast⟩ : _ ∧ bit a.chunkTable (b.chunk + expectedChunkCount size.toNat - 1) =
      some false := ⟨trivial, hclear _ (by omega) (by omega)⟩
    have hlt := lt_of_bit hlast
    rw [← hg.total] at hlt
    have hint := hg.int
    unfold kChunkSize at hlt
    omega
  rw [reallocBlock_grown hg hs hb h hgrow, hfree, Option.bind_some, if_neg (by decide)] at hr
  -- the count in the header is the new one already, and no bit is set
  have hload : (load 32 (store m (b.ptr a.heap - BitVec.ofNat 64 kAlignment + 4)
      (toBytes 4 (BitVec.ofNat 32 (expectedChunkCount size.toNat))))
        (b.ptr a.heap - BitVec.ofNat 64 kAlignment + 4)).toNat = expectedChunkCount size.toNat := by
    rw [Holds.load_eq (n := 4) rfl (holds_store _ _ (by rw [length_toBytes]; decide)),
      BitVec.toNat_ofNat, Nat.mod_eq_of_lt hexpected]
  dsimp only at hr
  rw [hload, Nat.sub_self] at hr
  obtain ⟨t, ht, hr⟩ := Option.bind_eq_some_iff.mp hr
  obtain rfl : a.chunkTable = t := Option.some.inj ht
  obtain rfl := Option.some.inj hr
  have hne := ptr_ne_zero hg hs hb
  obtain ⟨b', hptr, hcapacity, hg', hs', -⟩ := hsound.moved hne
  change b.ptr a.heap = b'.ptr a.heap at hptr
  have hsame : b'.chunk = b.chunk := by
    rw [← chunk_of_ptr hg hs hb, hptr]
    exact (chunk_of_ptr hg' hs' List.mem_cons_self).symm
  have hcount := le_capacity_iff.mp hcapacity
  have hused := hs'.used b' List.mem_cons_self (b.chunk + b.count) (by omega) (by omega)
  change bit a.chunkTable (b.chunk + b.count) = some true at hused
  rw [hclear (b.chunk + b.count) le_rfl (by omega)] at hused
  cases hused

/-- A size for which the number of chunks wraps is taken for a small one. -/
theorem not_sound_wrapped (hg : Geometry a) (hs : BlocksSafe this a m bs) (hb : b ∈ bs)
    (h : ¬ size.toNat + (kAlignment + (kChunkSize - 1)) < 2 ^ 64) {r : Reallocated}
    (hr : reallocBlock this a m (b.ptr a.heap) size = some r) :
    ¬ ReallocSound this a m bs b size r := by
  intro hsound
  have hone := (expected_le_one h).trans b.count_pos
  rw [reallocBlock_kept hg hs hb hone] at hr
  obtain rfl := Option.some.inj hr
  obtain ⟨b', hptr, hcapacity, hg', hs', -⟩ := hsound.moved (ptr_ne_zero hg hs hb)
  have hin := hs'.inside b' List.mem_cons_self
  have hint := hg'.int
  rw [Nat.add_mul] at hin
  unfold Block.capacity at hcapacity
  unfold kAlignment kChunkSize at *
  omega

/-- The copy reads the start of a block that is right behind. -/
theorem not_sound_owned {r : Reallocated} (hg : Geometry a) (hs : BlocksSafe this a m bs)
    (hcopied : r.copied = b.count * kChunkSize)
    (hbehind : (b.chunk + b.count + 1) * kChunkSize ≤ a.heapSize) (hc : c ∈ bs)
    (hle : c.chunk ≤ b.chunk + b.count) (hlt : b.chunk + b.count < c.chunk + c.count) :
    ¬ ReallocSound this a m bs b size r := by
  intro hsound
  have hint := hg.int
  have hne : c ≠ b := by
    rintro rfl
    omega
  have hoffset : (a.heap + BitVec.ofNat 64 ((b.chunk + b.count) * kChunkSize) - a.heap).toNat =
      (b.chunk + b.count) * kChunkSize := offset_toNat (by unfold kChunkSize at *; omega)
  have hread : InRange (b.ptr a.heap) r.copied
      (a.heap + BitVec.ofNat 64 ((b.chunk + b.count) * kChunkSize)) := by
    have hpos := b.count_pos
    unfold Block.ptr
    rw [hcopied, inRange_offset, hoffset]
    · unfold kAlignment kChunkSize
      omega
    · unfold kAlignment kChunkSize at *
      omega
  refine (hsound.reads _ hread).2 c hc hne ?_
  have hin := hs.inside c hc
  rw [covers_iff (by omega), hoffset]
  exact ⟨Nat.mul_le_mul_right _ hle, Nat.mul_lt_mul_of_pos_right hlt (by decide)⟩

end Memory

open Memory

/-- `DoRealloc` of a live block is sound exactly when the block has room, or when it cannot grow in
place and, where it moves, no live block is right behind it. -/
theorem realloc_sound_iff (this : Word) (a : Memory) (m : Mem) (bs : List Block) (b : Block)
    (size : Word) (hg : Geometry a) (hs : BlocksSafe this a m bs) (hb : b ∈ bs) :
    (∃ r, reallocBlock this a m (b.ptr a.heap) size = some r ∧ ReallocSound this a m bs b size r) ↔
      CanRealloc a bs b size := by
  constructor
  · rintro ⟨r, hr, hsound⟩
    by_cases hcapacity : size.toNat ≤ b.capacity
    · exact .inl hcapacity
    by_cases hwraps : size.toNat + (kAlignment + (kChunkSize - 1)) < 2 ^ 64
    swap
    · exact absurd hsound (not_sound_wrapped hg hs hb hwraps hr)
    have hgrow := not_le.mp (mt le_capacity_iff.mpr hcapacity)
    cases hany : anyUsed a.chunkTable (expectedChunkCount size.toNat - b.count)
        (b.chunk + b.count) with
    | none =>
      rw [reallocBlock_grown hg hs hb hwraps hgrow, hany] at hr
      cases hr
    | some used =>
      cases used with
      | false => exact absurd hsound (not_grown_in_place hg hs hb hwraps hgrow hany hr)
      | true =>
        obtain ⟨j, h1, h2, hj⟩ := anyUsed_eq_true.mp hany
        have hused : ∃ j, b.chunk + b.count ≤ j ∧ j < b.chunk + expectedChunkCount size.toNat ∧
            bit a.chunkTable j = some true := ⟨j, h1, by omega, hj⟩
        refine .inr ⟨hwraps, hused, fun hroom ⟨c, hc, hle, hlt⟩ => ?_⟩
        obtain ⟨r', hr', hcopied, hbehind, -⟩ := reallocBlock_moved hg hs hb hwraps hgrow hused hroom
        obtain rfl := Option.some.inj (hr.symm.trans hr')
        exact not_sound_owned hg hs hcopied hbehind hc hle hlt hsound
  · intro h
    by_cases hcapacity : size.toNat ≤ b.capacity
    · exact reallocSound_kept hg hs hb hcapacity
    obtain ⟨hwraps, ⟨j, h1, h2, hj⟩, hunowned⟩ := h.resolve_left hcapacity
    have hgrow := not_le.mp (mt le_capacity_iff.mpr hcapacity)
    by_cases hroom : HasRoom a size.toNat
    · obtain ⟨r, hr, -, -, hsound⟩ := reallocBlock_moved hg hs hb hwraps hgrow ⟨j, h1, h2, hj⟩ hroom
      exact ⟨r, hr, hsound (hunowned hroom)⟩
    · exact reallocSound_noRoom hg hs hb hwraps hgrow
        (anyUsed_eq_true.mpr ⟨j, h1, by omega, hj⟩) hroom

/-- A heap of one page with two blocks of one chunk, and a free chunk between them. -/
def gapAllocator : Memory where
  heap := 0x10000
  heapSize := 4096
  chunkTable := [0x05, 0, 0, 0]
  allocatedChunks := 2

def gapMemory : Mem :=
  store (store (fun _ => 0) 0x10000 (headerBytes 1 0x900)) 0x10100 (headerBytes 1 0x900)

theorem gap_geometry : Geometry gapAllocator := ⟨⟨4, rfl⟩, by decide, by decide, rfl⟩

theorem gap_safe : BlocksSafe 0x900 gapAllocator gapMemory [⟨0, 100⟩, ⟨2, 100⟩] := by
  refine ⟨by decide, by decide, List.pairwise_pair.mpr (.inl (by decide)), fun b hb j hj hlt => ?_,
    fun b hb => ?_, rfl⟩
  · rcases List.mem_pair.mp hb with rfl | rfl
    · obtain rfl : j = 0 := by
        change j < 1 at hlt
        omega
      rfl
    · obtain rfl : j = 2 := by
        change 2 ≤ j at hj
        change j < 3 at hlt
        omega
      rfl
  · rcases List.mem_pair.mp hb with rfl | rfl
    · rfl
    · rfl

/-- The first block moves behind the second one. -/
theorem realloc_sound_iff_sample :
    ∃ r, reallocBlock 0x900 gapAllocator gapMemory (Block.ptr ⟨0, 100⟩ gapAllocator.heap) 300 =
        some r ∧
      ReallocSound 0x900 gapAllocator gapMemory [⟨0, 100⟩, ⟨2, 100⟩] ⟨0, 100⟩ 300 r := by
  refine (realloc_sound_iff 0x900 gapAllocator gapMemory [⟨0, 100⟩, ⟨2, 100⟩] ⟨0, 100⟩ 300
    gap_geometry gap_safe (by decide)).mpr (.inr ⟨by decide, ⟨2, by decide, by decide, rfl⟩, ?_⟩)
  rintro - ⟨c, hc, hle, hlt⟩
  rcases List.mem_pair.mp hc with rfl | rfl
  · exact absurd hlt (by decide)
  · exact absurd hle (by decide)

/-- The second block grows in place, over chunks that stay free in the table. -/
theorem realloc_not_sound :
    ¬ ∃ r, reallocBlock 0x900 gapAllocator gapMemory (Block.ptr ⟨2, 100⟩ gapAllocator.heap) 300 =
        some r ∧
      ReallocSound 0x900 gapAllocator gapMemory [⟨0, 100⟩, ⟨2, 100⟩] ⟨2, 100⟩ 300 r := by
  rintro ⟨r, hr, hsound⟩
  exact not_grown_in_place gap_geometry gap_safe (by decide) (by decide) (by decide) (by decide) hr
    hsound

end Rv64Hook
