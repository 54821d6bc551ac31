import Rv64Hook.Memory
import Rv64Hook.Lib.Calls

/-! The chunks of one allocator: live blocks do not overlap, and their bits and headers stay in
place. -/
namespace Rv64Hook
open ByteMem Rv64 Bitmap Calls

namespace Memory

variable {t t' : List Byte} {total k i n count c : ℕ} {start : Option ℕ}

/-- The chunks seen last are free, from `start` on. -/
def FreeRun (t : List Byte) (start : Option ℕ) (count i : ℕ) : Prop :=
  match start with
  | none => count = 0
  | some c => c + count = i ∧ ∀ j, c ≤ j → j < i → bit t j = some false

theorem FreeRun.cons (hrun : FreeRun t start count i) (hi : bit t i = some false) :
    FreeRun t (if start = none then some i else start) (count + 1) (i + 1) := by
  cases start with
  | none =>
    obtain rfl : count = 0 := hrun
    refine ⟨rfl, fun j hj hlt => ?_⟩
    obtain rfl : j = i := by omega
    exact hi
  | some c =>
    obtain ⟨hc, hfree⟩ := hrun
    refine ⟨by omega, fun j hj hlt => ?_⟩
    by_cases hji : j = i
    · rw [hji, hi]
    · exact hfree j hj (by omega)

/-- The scan ends, and where it has counted enough chunks they are free. -/
theorem findChunks_eq (hk : 0 < k) (hlen : i + n ≤ 8 * t.length)
    (hrun : FreeRun t start count i) (hcount : count < k) :
    ∃ start' count', findChunks t k n i start count = some (start', count') ∧
      (count' = k → ∃ c, start' = some c ∧ c + k ≤ i + n ∧
        ∀ j, c ≤ j → j < c + k → bit t j = some false) := by
  induction n generalizing i start count with
  | zero => exact ⟨start, count, rfl, fun h => absurd h (by omega)⟩
  | succ n ih =>
    obtain ⟨b, hb⟩ := bit_eq_some (t := t) (i := i) (by omega)
    have hend : i + 1 + n = i + (n + 1) := by omega
    unfold findChunks
    simp only [hb, Option.bind_eq_bind, Option.bind_some]
    cases b with
    | true =>
      rw [if_pos rfl, ← hend]
      exact ih (by omega) rfl hk
    | false =>
      rw [if_neg (by decide)]
      have hrun' := hrun.cons hb
      by_cases heq : count + 1 = k
      · rw [if_pos heq]
        refine ⟨_, _, rfl, fun _ => ?_⟩
        cases hstart : (if start = none then some i else start) with
        | none =>
          rw [hstart] at hrun'
          exact absurd hrun' (by simp [FreeRun])
        | some c =>
          rw [hstart] at hrun'
          obtain ⟨hc, hfree⟩ := hrun'
          exact ⟨c, rfl, by omega, fun j hj hlt => hfree j hj (by omega)⟩
      · rw [if_neg heq, ← hend]
        exact ih (by omega) hrun' (by omega)

/-- `AllocChunk` either fails and leaves the table alone, or it marks chunks that were free. -/
theorem allocChunk_eq (hk : 0 < k) (hlen : total ≤ 8 * t.length) :
    allocChunk t total k = some (none, t) ∨
      ∃ c t', allocChunk t total k = some (some c, t') ∧ c + k ≤ total ∧ t'.length = t.length ∧
        (∀ j, c ≤ j → j < c + k → bit t j = some false) ∧
        ∀ j, bit t' j = if c ≤ j ∧ j < c + k then some true else bit t j := by
  have hrun : FreeRun t none 0 0 := rfl
  obtain ⟨start, count, hfind, hfound⟩ := findChunks_eq (n := total) hk (by omega) hrun hk
  unfold allocChunk
  simp only [hfind, Option.bind_eq_bind, Option.bind_some]
  by_cases hcount : count = k
  · obtain ⟨c, rfl, hle, hfree⟩ := hfound hcount
    obtain ⟨t', ht', hlen', hbit⟩ := setBits_eq (t := t) (i := c) (n := k) (by omega)
    rw [if_pos hcount]
    exact .inr ⟨c, t', by rw [Option.bind_some, ht']; rfl, by omega, hlen', hfree, hbit⟩
  · exact .inl (by rw [if_neg hcount])

end Memory

/-- A live block: its first chunk, which starts with the header, and the size asked for. -/
structure Block where
  chunk : ℕ
  size : ℕ
  deriving DecidableEq

namespace Block

/-- The number of chunks of a block. -/
def count (b : Block) : ℕ := Memory.expectedChunkCount b.size

def ptr (b : Block) (heap : Word) : Word :=
  heap + BitVec.ofNat 64 (b.chunk * kChunkSize + kAlignment)

/-- The chunks of two blocks do not overlap. -/
def Disjoint (b c : Block) : Prop := b.chunk + b.count ≤ c.chunk ∨ c.chunk + c.count ≤ b.chunk

theorem Disjoint.symm {b c : Block} (h : b.Disjoint c) : c.Disjoint b := Or.symm h

instance : Std.Symm Disjoint := ⟨fun _ _ h => h.symm⟩

theorem count_pos (b : Block) : 0 < b.count := by
  unfold count Memory.expectedChunkCount kAlignment kChunkSize
  omega

/-- The header and the bytes asked for fit into the chunks. -/
theorem payload_le (b : Block) : kAlignment + b.size ≤ b.count * kChunkSize := by
  unfold count Memory.expectedChunkCount kAlignment kChunkSize
  omega

/-- Blocks that do not overlap take no more chunks than there are. -/
theorem sum_count_le {bs : List Block} {n : ℕ} (hin : ∀ b ∈ bs, b.chunk + b.count ≤ n)
    (hd : bs.Pairwise Disjoint) : (bs.map count).sum ≤ n := by
  have hcard : ∃ u : Finset ℕ, u.card = (bs.map count).sum ∧
      ∀ j, j ∈ u ↔ ∃ b ∈ bs, b.chunk ≤ j ∧ j < b.chunk + b.count := by
    clear hin
    induction bs with
    | nil => exact ⟨∅, rfl, by simp⟩
    | cons b bs ih =>
      obtain ⟨hb, hd⟩ := List.pairwise_cons.mp hd
      obtain ⟨u, hu, hmem⟩ := ih hd
      refine ⟨Finset.Ico b.chunk (b.chunk + b.count) ∪ u, ?_, fun j => ?_⟩
      · rw [Finset.card_union_of_disjoint, Nat.card_Ico, hu, List.map_cons, List.sum_cons]
        · omega
        · refine Finset.disjoint_left.mpr fun j hj hju => ?_
          rw [Finset.mem_Ico] at hj
          obtain ⟨c, hc, hle, hlt⟩ := (hmem j).mp hju
          have hbc := hb c hc
          unfold Disjoint at hbc
          omega
      · simp [hmem]
  obtain ⟨u, hu, hmem⟩ := hcard
  rw [← hu, ← Finset.card_range n]
  refine Finset.card_le_card fun j hj => ?_
  obtain ⟨b, hb, -, hlt⟩ := (hmem j).mp hj
  have hle := hin b hb
  exact Finset.mem_range.mpr (by omega)

end Block

namespace Memory

/-- What holds of the live blocks of an allocator: their chunks are in the heap, apart from each
other and marked in the table, the bytes asked for follow the header, the headers are in place, and
the chunks are counted. -/
structure BlocksSafe (this : Word) (a : Memory) (m : Mem) (bs : List Block) : Prop where
  inside : ∀ b ∈ bs, (b.chunk + b.count) * kChunkSize ≤ a.heapSize
  payload : ∀ b ∈ bs, kAlignment + b.size ≤ b.count * kChunkSize
  disjoint : bs.Pairwise Block.Disjoint
  used : ∀ b ∈ bs, ∀ j, b.chunk ≤ j → j < b.chunk + b.count → bit a.chunkTable j = some true
  header : ∀ b ∈ bs, Holds m (a.heap + BitVec.ofNat 64 (b.chunk * kChunkSize))
    (headerBytes (BitVec.ofNat 32 b.count) this)
  allocated : a.allocatedChunks.toNat = (bs.map Block.count).sum

/-- The heap does not wrap and has a bit for each chunk; `AllocChunk` counts chunks in an `int`. -/
structure Geometry (a : Memory) : Prop where
  unit : 1024 ∣ a.heapSize
  fits : a.heap.toNat + a.heapSize ≤ 2 ^ 64
  int : a.heapSize < 2 ^ 38
  table : a.chunkTable.length = a.heapSize / 1024

variable {this : Word} {a a' : Memory} {m m' : Mem} {bs : List Block} {b : Block} {size : ℕ}

theorem Geometry.total (hg : Geometry a) : a.heapSize / kChunkSize = 8 * a.chunkTable.length := by
  obtain ⟨k, hk⟩ := hg.unit
  rw [hg.table, hk, Nat.mul_div_cancel_left k (by decide)]
  unfold kChunkSize
  omega

theorem length_headerBytes (n : BitVec 32) (this : Word) : (headerBytes n this).length = 16 := by
  simp [headerBytes]

theorem offset_toNat {heap : Word} {n : ℕ} (hn : n < 2 ^ 64) :
    (heap + BitVec.ofNat 64 n - heap).toNat = n := by
  rw [BitVec.add_comm, BitVec.add_sub_cancel, BitVec.toNat_ofNat, Nat.mod_eq_of_lt hn]

/-- `allocBlock` gives null and changes nothing, or it adds a block. -/
theorem allocBlock_eq (hg : Geometry a) (hs : BlocksSafe this a m bs) (size : ℕ) :
    allocBlock this a m size = some (0, a, m) ∨
      ∃ c a' m', allocBlock this a m size = some (Block.ptr ⟨c, size⟩ a.heap, a', m') ∧
        Geometry a' ∧ BlocksSafe this a' m' (⟨c, size⟩ :: bs) ∧
        (∀ j, c ≤ j → j < c + expectedChunkCount size → bit a.chunkTable j = some false) ∧
        (∀ j, bit a'.chunkTable j =
          if c ≤ j ∧ j < c + expectedChunkCount size then some true else bit a.chunkTable j) ∧
        a' = { a with chunkTable := a'.chunkTable, allocatedChunks := a'.allocatedChunks } ∧
        m' = store m (a.heap + BitVec.ofNat 64 (c * kChunkSize))
          (headerBytes (BitVec.ofNat 32 (expectedChunkCount size)) this) := by
  unfold allocBlock
  by_cases hsize : size = 0 ∨ a.heapSize < size
  · exact .inl (if_pos hsize)
  rw [if_neg hsize]
  have hpos : 0 < expectedChunkCount size := (Block.mk 0 size).count_pos
  rcases allocChunk_eq hpos hg.total.le with hnone | ⟨c, t', hsome, hle, hlen, hfree, hbit⟩
  · exact .inl (by dsimp only; rw [hnone]; rfl)
  right
  have hint := hg.int
  have hend : (c + expectedChunkCount size) * kChunkSize ≤ a.heapSize :=
    (Nat.mul_le_mul_right _ hle).trans (Nat.div_mul_le_self ..)
  have hsplit := Nat.add_mul c (expectedChunkCount size) kChunkSize
  have hpayload := (Block.mk c size).payload_le
  have hcount : (Block.mk c size).count = expectedChunkCount size := rfl
  rw [hcount] at hpayload
  have hc : c * kChunkSize < 2 ^ 64 := by omega
  have halign : kAlignment = 16 := rfl
  -- a chunk of another block has its bit set, the chunks found have not
  have hdisjoint : ∀ b ∈ bs, (Block.mk c size).Disjoint b := by
    intro b hb
    by_contra hno
    unfold Block.Disjoint at hno
    rw [hcount] at hno
    dsimp only at hno
    have hbpos := b.count_pos
    have hset := hs.used b hb (max c b.chunk) (le_max_right ..) (by omega)
    have hclear := hfree (max c b.chunk) (le_max_left ..) (by omega)
    rw [hset] at hclear
    cases hclear
  refine ⟨c, { a with
      chunkTable := t'
      allocatedChunks := a.allocatedChunks + BitVec.ofNat 64 (expectedChunkCount size) }, _, ?_,
    ⟨hg.unit, hg.fits, hg.int, hlen.trans hg.table⟩, ?_, hfree, hbit, rfl, rfl⟩
  · simp only [hsome, Option.bind_eq_bind, Option.bind_some]
    rw [if_pos]
    · rw [add_ofNat_add]
      rfl
    · unfold inHeap
      rw [offset_toNat hc, decide_eq_true_eq]
      dsimp only
      omega
  have hinside : ∀ b ∈ Block.mk c size :: bs, (b.chunk + b.count) * kChunkSize ≤ a.heapSize := by
    intro b hb
    rcases List.mem_cons.mp hb with rfl | hb
    · exact hend
    · exact hs.inside b hb
  have hpair : (Block.mk c size :: bs).Pairwise Block.Disjoint :=
    List.pairwise_cons.mpr ⟨hdisjoint, hs.disjoint⟩
  refine ⟨hinside, fun b _ => b.payload_le, hpair, fun b hb j hj hlt => ?_, fun b hb => ?_, ?_⟩
  · change bit t' j = some true
    rw [hbit]
    rcases List.mem_cons.mp hb with rfl | hb
    · exact if_pos ⟨hj, hlt⟩
    · by_cases hin : c ≤ j ∧ j < c + expectedChunkCount size
      · exact if_pos hin
      · rw [if_neg hin]
        exact hs.used b hb j hj hlt
  · rcases List.mem_cons.mp hb with rfl | hb
    · exact holds_store _ _ (by rw [length_headerBytes]; decide)
    · have hin := hs.inside b hb
      have hbpos := b.count_pos
      have hbsplit := Nat.add_mul b.chunk b.count kChunkSize
      have hbpayload := b.payload_le
      have hdis := hdisjoint b hb
      unfold Block.Disjoint at hdis
      rw [hcount] at hdis
      dsimp only at hdis
      refine holds_store_of_disjoint ?_ ?_ ?_ (hs.header b hb)
      · rw [length_headerBytes]
        omega
      · rw [length_headerBytes]
        omega
      · rw [length_headerBytes, length_headerBytes]
        unfold kChunkSize at *
        omega
  · have hsum := Block.sum_count_le (n := a.heapSize / kChunkSize) (fun b hb => ?_) hpair
    · rw [List.map_cons, List.sum_cons, hcount] at hsum ⊢
      change (a.allocatedChunks + BitVec.ofNat 64 (expectedChunkCount size)).toNat = _
      have htotal : a.heapSize / kChunkSize ≤ a.heapSize := Nat.div_le_self ..
      rw [BitVec.toNat_add, BitVec.toNat_ofNat, hs.allocated]
      omega
    · exact (Nat.le_div_iff_mul_le (by decide)).mpr (hinside b hb)

theorem count_lt (hg : Geometry a) (hs : BlocksSafe this a m bs) (hb : b ∈ bs) :
    b.count < 2 ^ 32 := by
  have hin := hs.inside b hb
  have hint := hg.int
  rw [Nat.add_mul] at hin
  unfold kChunkSize at hin
  omega

/-- The fields of the header of a live block. -/
theorem header_fields (hg : Geometry a) (hs : BlocksSafe this a m bs) (hb : b ∈ bs) :
    (b.ptr a.heap - BitVec.ofNat 64 kAlignment = a.heap + BitVec.ofNat 64 (b.chunk * kChunkSize)) ∧
      load 32 m (a.heap + BitVec.ofNat 64 (b.chunk * kChunkSize)) = kMemoryMagic ∧
      load 32 m (a.heap + BitVec.ofNat 64 (b.chunk * kChunkSize) + 4) = BitVec.ofNat 32 b.count ∧
      load 64 m (a.heap + BitVec.ofNat 64 (b.chunk * kChunkSize) + 8) = this := by
  have hheader := hs.header b hb
  unfold headerBytes at hheader
  obtain ⟨h12, h3⟩ := holds_append.mp hheader
  obtain ⟨h1, h2⟩ := holds_append.mp h12
  rw [List.length_append, length_toBytes, length_toBytes] at h3
  rw [length_toBytes] at h2
  refine ⟨?_, h1.load_eq rfl, h2.load_eq rfl, h3.load_eq rfl⟩
  unfold Block.ptr
  rw [← add_ofNat_add, BitVec.add_sub_cancel]

/-- `freeBlock` removes the block, and it clears the bits of its chunks and no others. -/
theorem freeBlock_eq (hg : Geometry a) (hs : BlocksSafe this a m bs) (hb : b ∈ bs) :
    ∃ a' m', freeBlock a m (b.ptr a.heap) = some (a', m') ∧ Geometry a' ∧
      BlocksSafe this a' m' (bs.erase b) ∧
      (∀ j, bit a'.chunkTable j =
        if b.chunk ≤ j ∧ j < b.chunk + b.count then some false else bit a.chunkTable j) ∧
      a' = { a with chunkTable := a'.chunkTable, allocatedChunks := a'.allocatedChunks } ∧
      m' = store m (a.heap + BitVec.ofNat 64 (b.chunk * kChunkSize + 4))
        (toBytes 4 (0 : BitVec 32)) := by
  obtain ⟨hheader, -, hcount, -⟩ := header_fields hg hs hb
  have hlt := count_lt hg hs hb
  have hin := hs.inside b hb
  have hint := hg.int
  have hfits := hg.fits
  have hbpayload := b.payload_le
  have hbsplit := Nat.add_mul b.chunk b.count kChunkSize
  have halign : kAlignment = 16 := rfl
  have hoffset : b.chunk * kChunkSize < 2 ^ 64 := by omega
  have hchunks : b.chunk + b.count ≤ 8 * a.chunkTable.length := by
    rw [← hg.total]
    exact (Nat.le_div_iff_mul_le (by decide)).mpr hin
  obtain ⟨t', ht', hlen, hbit⟩ := clearBits_eq (t := a.chunkTable) hchunks
  have hperm : bs.Perm (b :: bs.erase b) := List.perm_cons_erase hb
  have hpair : (b :: bs.erase b).Pairwise Block.Disjoint :=
    (hperm.pairwise_iff fun h => Block.Disjoint.symm h).mp hs.disjoint
  obtain ⟨hother, hpair⟩ := List.pairwise_cons.mp hpair
  have hmem : ∀ c ∈ bs.erase b, c ∈ bs := fun c hc => List.mem_of_mem_erase hc
  have hsum : (bs.map Block.count).sum = b.count + ((bs.erase b).map Block.count).sum := by
    rw [(hperm.map Block.count).sum_eq, List.map_cons, List.sum_cons]
  refine ⟨{ a with
      chunkTable := t'
      allocatedChunks := a.allocatedChunks - (BitVec.ofNat 32 b.count).setWidth 64 }, _, ?_,
    ⟨hg.unit, hg.fits, hg.int, hlen.trans hg.table⟩, ?_, hbit, rfl, rfl⟩
  · unfold freeBlock
    dsimp only
    rw [hheader, if_pos, hcount, BitVec.toNat_ofNat, Nat.mod_eq_of_lt hlt, offset_toNat hoffset,
      Nat.mul_div_cancel _ (by decide), ht']
    · rw [show (4 : Word) = BitVec.ofNat 64 4 from rfl, add_ofNat_add]
      rfl
    · unfold inHeap
      rw [offset_toNat hoffset, decide_eq_true_eq]
      omega
  refine ⟨fun c hc => hs.inside c (hmem c hc), fun c _ => c.payload_le, hpair,
    fun c hc j hj hjlt => ?_, fun c hc => ?_, ?_⟩
  · have hdis := hother c hc
    unfold Block.Disjoint at hdis
    change bit t' j = some true
    rw [hbit, if_neg (by omega)]
    exact hs.used c (hmem c hc) j hj hjlt
  · have hcin := hs.inside c (hmem c hc)
    have hcpos := c.count_pos
    have hcpayload := c.payload_le
    have hcsplit := Nat.add_mul c.chunk c.count kChunkSize
    have hdis := hother c hc
    have hbpos := b.count_pos
    unfold Block.Disjoint at hdis
    refine holds_store_of_disjoint ?_ ?_ ?_ (hs.header c (hmem c hc))
    · rw [length_headerBytes]
      omega
    · rw [length_toBytes]
      omega
    · rw [length_headerBytes, length_toBytes]
      unfold kChunkSize at *
      omega
  · change (a.allocatedChunks - (BitVec.ofNat 32 b.count).setWidth 64).toNat = _
    have hallocated := hs.allocated
    have hlt64 := a.allocatedChunks.isLt
    rw [BitVec.toNat_sub, BitVec.toNat_setWidth, BitVec.toNat_ofNat, Nat.mod_eq_of_lt hlt, hallocated,
      hsum]
    omega

/-- What is written to the chunks of a block behind its header does not reach a header. -/
theorem BlocksSafe.store (hg : Geometry a) (hs : BlocksSafe this a m bs) (hb : b ∈ bs) {k : ℕ}
    {bytes : List Byte} (hk : kAlignment + (k + bytes.length) ≤ b.count * kChunkSize) :
    BlocksSafe this a (store m (b.ptr a.heap + BitVec.ofNat 64 k) bytes) bs := by
  refine ⟨hs.inside, hs.payload, hs.disjoint, hs.used, fun c hc => ?_, hs.allocated⟩
  have hin := hs.inside b hb
  have hcin := hs.inside c hc
  have hint := hg.int
  have hbsplit := Nat.add_mul b.chunk b.count kChunkSize
  have hcpayload := c.payload_le
  have hcsplit := Nat.add_mul c.chunk c.count kChunkSize
  have hdis : b = c ∨ b.Disjoint c := by
    by_cases hbc : b = c
    · exact .inl hbc
    · exact .inr (hs.disjoint.forall hb hc hbc)
  unfold Block.ptr
  rw [add_ofNat_add]
  have halign : kAlignment = 16 := rfl
  refine holds_store_of_disjoint ?_ ?_ ?_ (hs.header c hc)
  · rw [length_headerBytes]
    omega
  · omega
  · rw [length_headerBytes]
    unfold Block.Disjoint at hdis
    unfold kChunkSize at *
    rcases hdis with rfl | hdis <;> omega

/-- What a client writes inside its block does not reach a header. -/
theorem BlocksSafe.write (hg : Geometry a) (hs : BlocksSafe this a m bs) (hb : b ∈ bs) {k : ℕ}
    {bytes : List Byte} (hk : k + bytes.length ≤ b.size) :
    BlocksSafe this a (ByteMem.store m (b.ptr a.heap + BitVec.ofNat 64 k) bytes) bs := by
  have hpayload := b.payload_le
  exact hs.store hg hb (by omega)

theorem ptr_ne_zero (hg : Geometry a) (hs : BlocksSafe this a m bs) (hb : b ∈ bs) :
    b.ptr a.heap ≠ 0 := by
  have hin := hs.inside b hb
  have hint := hg.int
  have hfits := hg.fits
  have hbpayload := b.payload_le
  have hbpos := b.count_pos
  have halign : kAlignment = 16 := rfl
  intro hzero
  have hnat := congrArg BitVec.toNat hzero
  unfold Block.ptr at hnat
  unfold kChunkSize at hin hnat
  rw [BitVec.toNat_add, BitVec.toNat_ofNat, show (0 : Word).toNat = 0 from rfl] at hnat
  omega

/-- The chunk that a block starts with, from its address. -/
theorem chunk_of_ptr (hg : Geometry a) (hs : BlocksSafe this a m bs) (hb : b ∈ bs) :
    (b.ptr a.heap - a.heap).toNat / kChunkSize = b.chunk := by
  have hin := hs.inside b hb
  have hint := hg.int
  have hbpayload := b.payload_le
  have hbsplit := Nat.add_mul b.chunk b.count kChunkSize
  have halign : kAlignment = 16 := rfl
  unfold Block.ptr
  rw [offset_toNat (by omega), Nat.add_comm, Nat.add_mul_div_right _ _ (by decide)]
  exact Nat.zero_add b.chunk

end Memory

/-! ### Runs -/

/-- A call on one allocator, or a write of the client that owns a block. -/
inductive ChunkCall where
  | doAlloc (size : ℕ)
  | doFree (b : Block)
  | clientWrite (b : Block) (offset : ℕ) (bytes : List Byte)

/-- The allocator and the memory, with the live blocks. -/
structure ChunkState where
  allocator : Memory
  mem : Mem
  blocks : List Block := []

namespace ChunkCall

open Memory

def step (this : Word) : ChunkCall → ChunkState → Option ChunkState
  | doAlloc size, s => do
    let (ptr, a, m) ← allocBlock this s.allocator s.mem size
    let blocks := if ptr = 0 then s.blocks
      else ⟨(ptr - a.heap).toNat / kChunkSize, size⟩ :: s.blocks
    some ⟨a, m, blocks⟩
  | doFree b, s => do
    let (a, m) ← freeBlock s.allocator s.mem (b.ptr s.allocator.heap)
    some ⟨a, m, s.blocks.erase b⟩
  | clientWrite b offset bytes, s =>
    some { s with mem := store s.mem (b.ptr s.allocator.heap + BitVec.ofNat 64 offset) bytes }

/-- Clients free live blocks, and write inside them. -/
def Admissible (s : ChunkState) : ChunkCall → Prop
  | doAlloc _ => True
  | doFree b => b ∈ s.blocks
  | clientWrite b offset bytes => b ∈ s.blocks ∧ offset + bytes.length ≤ b.size

/-- The invariant of a run. -/
def Safe (this : Word) (s : ChunkState) : Prop := BlocksSafe this s.allocator s.mem s.blocks

variable {this : Word} {s t : ChunkState} {c : ChunkCall}

theorem safe_new {a : Memory} {mem : Mem} (hnew : a.allocatedChunks = 0) :
    Safe this ⟨a, mem, []⟩ :=
  ⟨fun _ h => (nomatch h), fun _ h => (nomatch h), .nil, fun _ h => (nomatch h),
    fun _ h => (nomatch h), congrArg BitVec.toNat hnew⟩

theorem step_safe (hg : Geometry s.allocator) (hs : Safe this s) (hc : c.Admissible s) :
    ∃ t, c.step this s = some t ∧ Geometry t.allocator ∧ Safe this t := by
  cases c with
  | doAlloc size =>
    rcases allocBlock_eq hg hs size with hnone | ⟨c, a', m', hsome, hg', hs', -, -, ha, -⟩
    · refine ⟨s, ?_, hg, hs⟩
      simp only [step, hnone, Option.bind_eq_bind, Option.bind_some]
      rfl
    · have hheap : a'.heap = s.allocator.heap := by rw [ha]
      have hnew : Block.mk c size ∈ Block.mk c size :: s.blocks := List.mem_cons_self
      have hne := ptr_ne_zero hg' hs' hnew
      have hchunk := chunk_of_ptr hg' hs' hnew
      refine ⟨⟨a', m', ⟨c, size⟩ :: s.blocks⟩, ?_, hg', hs'⟩
      rw [hheap] at hne hchunk
      simp only [step, hsome, Option.bind_eq_bind, Option.bind_some, if_neg hne, hheap, hchunk]
  | doFree b =>
    obtain ⟨a', m', hfree, hg', hs', -⟩ := freeBlock_eq hg hs hc
    refine ⟨⟨a', m', s.blocks.erase b⟩, ?_, hg', hs'⟩
    simp only [step, hfree, Option.bind_eq_bind, Option.bind_some]
  | clientWrite b offset bytes => exact ⟨_, rfl, hg, BlocksSafe.write hg hs hc.1 hc.2⟩

end ChunkCall

open Memory in
/-- Every allocation, release and write of a run has a result, with no access outside the table or
the heap, and keeps the blocks safe; a release clears the bits of its block and no others. -/
theorem blocks_safe (this : Word) (a : Memory) (mem : Mem) (cs : List ChunkCall)
    (hg : Geometry a) (hnew : a.allocatedChunks = 0)
    (hok : Allowed (ChunkCall.step this) ChunkCall.Admissible ⟨a, mem, []⟩ cs) :
    Always (ChunkCall.step this) (ChunkCall.Safe this) ⟨a, mem, []⟩ cs ∧
      ∀ ds b es s t, cs = ds ++ .doFree b :: es →
        result (ChunkCall.step this) ⟨a, mem, []⟩ ds = some s →
        (ChunkCall.doFree b).step this s = some t → ∀ j, bit t.allocator.chunkTable j =
          if b.chunk ≤ j ∧ j < b.chunk + b.count then some false
          else bit s.allocator.chunkTable j := by
  have hs : ChunkCall.Safe this ⟨a, mem, []⟩ := ChunkCall.safe_new hnew
  have hstep : ∀ (s : ChunkState) (c : ChunkCall),
      Geometry s.allocator ∧ ChunkCall.Safe this s → c.Admissible s → ∃ t, c.step this s = some t ∧
        Geometry t.allocator ∧ ChunkCall.Safe this t :=
    fun s c hs hc => ChunkCall.step_safe hs.1 hs.2 hc
  refine ⟨(always_of_allowed hstep ⟨hg, hs⟩ hok).mono fun _ h => h.2, ?_⟩
  rintro ds b es s t rfl hds ht
  obtain ⟨hds', hrest⟩ := allowed_append hok
  obtain ⟨hgs, hss⟩ := (Run.of_result hds' hds).invariant (P := fun s => Geometry s.allocator ∧
    ChunkCall.Safe this s) (fun s c u hs hc hu => by
      obtain ⟨u', hu', hsafe⟩ := hstep s c hs hc
      rwa [← Option.some.inj (hu.symm.trans hu')] at hsafe) ⟨hg, hs⟩
  obtain ⟨a', m', hfree, -, -, hbit, -⟩ := freeBlock_eq hgs hss (hrest s hds).1
  have ht' : (ChunkCall.doFree b).step this s = some ⟨a', m', s.blocks.erase b⟩ := by
    simp only [ChunkCall.step, hfree, Option.bind_eq_bind, Option.bind_some]
  obtain rfl := Option.some.inj (ht.symm.trans ht')
  exact hbit

instance : ∀ (s : ChunkState) (c : ChunkCall), Decidable (c.Admissible s)
  | _, .doAlloc _ => .isTrue trivial
  | s, .doFree b => inferInstanceAs (Decidable (b ∈ s.blocks))
  | s, .clientWrite b offset bytes =>
    inferInstanceAs (Decidable (b ∈ s.blocks ∧ offset + bytes.length ≤ b.size))

/-- A heap of eight chunks, two of which are marked from the start. -/
def sampleAllocator : Memory where
  heap := 0x10000
  heapSize := 1024
  chunkTable := [0x05]

def chunkSample : List ChunkCall :=
  [.doAlloc 100, .doAlloc 200, .clientWrite ⟨3, 200⟩ 8 [1, 2], .doFree ⟨1, 100⟩]

theorem blocks_safe_sample : Always (ChunkCall.step 0x900) (ChunkCall.Safe 0x900)
    ⟨sampleAllocator, fun _ => 0, []⟩ chunkSample :=
  (blocks_safe 0x900 sampleAllocator (fun _ => 0) chunkSample
    ⟨⟨1, rfl⟩, by decide, by decide, rfl⟩ rfl (by decide)).1

end Rv64Hook
