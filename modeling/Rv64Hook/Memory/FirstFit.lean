import Rv64Hook.Memory.Usable

/-! `AllocChunk` with the integer types of the source: it finds the first chunks that fit. -/
namespace Rv64Hook
open ByteMem Rv64 Bitmap

namespace Memory

/-- `++i` for an `int`; an overflow gives `none`. -/
def incr (i : BitVec 32) : Option (BitVec 32) :=
  if i = BitVec.intMax 32 then none else some (i + 1)

/-- A chunk by its number, which is not below zero for a chunk of the table. -/
def chunkIndex (i : BitVec 32) : Option ℕ := if i.slt 0 then none else some i.toNat

/-- The first loop of `AllocChunk`, with `start_chunk` and `count` when it ends. -/
def scanChunks (chunkTable : List Byte) (totalChunks chunkCount : Word) :
    ℕ → BitVec 32 → BitVec 32 → BitVec 32 → Option (BitVec 32 × BitVec 32)
  | 0, _, _, _ => none
  | n + 1, i, startChunk, count =>
    if i.signExtend 64 < totalChunks then do
      let index ← chunkIndex i
      let used ← bit chunkTable index
      if used then
        let i ← incr i
        scanChunks chunkTable totalChunks chunkCount n i (-1) 0
      else
        let startChunk := if startChunk = -1 then i else startChunk
        let count ← incr count
        if count.signExtend 64 = chunkCount then some (startChunk, count)
        else
          let i ← incr i
          scanChunks chunkTable totalChunks chunkCount n i startChunk count
    else some (startChunk, count)

/-- The second loop of `AllocChunk`. -/
def markChunks (limit : Word) : ℕ → BitVec 32 → List Byte → Option (List Byte)
  | 0, _, _ => none
  | n + 1, i, chunkTable =>
    if i.signExtend 64 < limit then do
      let index ← chunkIndex i
      let chunkTable ← setBit chunkTable index
      let i ← incr i
      markChunks limit n i chunkTable
    else some chunkTable

/-- `AllocChunk` on `int` and `size_t`. A loop with more turns than there are integers goes on for
ever; it gives `none`, as an access outside the table and an overflow do. -/
def allocChunkInt (chunkTable : List Byte) (totalChunks chunkCount : Word) :
    Option (BitVec 32 × List Byte) := do
  let (startChunk, count) ← scanChunks chunkTable totalChunks chunkCount (2 ^ 32) 0 (-1) 0
  if count.signExtend 64 = chunkCount then
    let limit := startChunk.signExtend 64 + chunkCount
    let chunkTable ← markChunks limit (2 ^ 32) startChunk chunkTable
    some (startChunk, chunkTable)
  else some (-1, chunkTable)

/-! ### Integers without overflow -/

section Int
variable {n m : ℕ}

theorem signExtend_ofNat (hn : n < 2 ^ 31) :
    (BitVec.ofNat 32 n).signExtend 64 = BitVec.ofNat 64 n := by
  have hmsb : (BitVec.ofNat 32 n).msb = false := by
    rw [BitVec.msb_eq_decide, decide_eq_false_iff_not, BitVec.toNat_ofNat]
    omega
  rw [BitVec.signExtend_eq_setWidth_of_msb_false hmsb]
  apply BitVec.eq_of_toNat_eq
  rw [BitVec.toNat_setWidth, BitVec.toNat_ofNat, BitVec.toNat_ofNat]
  omega

theorem incr_ofNat (hn : n + 1 < 2 ^ 31) :
    incr (BitVec.ofNat 32 n) = some (BitVec.ofNat 32 (n + 1)) := by
  unfold incr
  rw [if_neg]
  · rw [BitVec.ofNat_add]
    rfl
  · intro h
    have hnat := congrArg BitVec.toNat h
    rw [BitVec.toNat_ofNat, BitVec.toNat_intMax] at hnat
    omega

theorem chunkIndex_ofNat (hn : n < 2 ^ 31) : chunkIndex (BitVec.ofNat 32 n) = some n := by
  unfold chunkIndex
  have hnat : (BitVec.ofNat 32 n).toNat = n := by
    rw [BitVec.toNat_ofNat]
    omega
  have hint : (BitVec.ofNat 32 n).toInt = n := by
    rw [BitVec.toInt_eq_toNat_of_lt (by omega), hnat]
  have hzero : (0 : BitVec 32).toInt = 0 := rfl
  rw [if_neg, hnat]
  rw [BitVec.slt_iff_toInt_lt, hint, hzero]
  omega

theorem ofNat_lt_iff {w : Word} (hn : n < 2 ^ 31) : BitVec.ofNat 64 n < w ↔ n < w.toNat := by
  rw [BitVec.lt_def, BitVec.toNat_ofNat, Nat.mod_eq_of_lt (by omega)]

theorem ofNat_eq_iff {w : Word} (hn : n < 2 ^ 31) : BitVec.ofNat 64 n = w ↔ n = w.toNat := by
  rw [← BitVec.toNat_inj, BitVec.toNat_ofNat, Nat.mod_eq_of_lt (by omega)]

theorem ofNat_ne_neg_one (hn : n < 2 ^ 31) : BitVec.ofNat 32 n ≠ -1 := by
  intro h
  have hnat := congrArg BitVec.toNat h
  rw [BitVec.toNat_ofNat, show (-1 : BitVec 32).toNat = 2 ^ 32 - 1 from rfl] at hnat
  omega

end Int

/-! ### The loops -/

/-- `start_chunk`, which is -1 where no run has begun. -/
def startWord : Option ℕ → BitVec 32
  | none => -1
  | some c => BitVec.ofNat 32 c

variable {t : List Byte} {totalChunks chunkCount limit : Word} {n m i k c count total : ℕ}
  {start : Option ℕ}

/-- Below the largest integer the first loop computes what `findChunks` does. -/
theorem scanChunks_eq (hint : totalChunks.toNat < 2 ^ 31) (hm : i + m = totalChunks.toNat)
    (hfuel : m < n) (hstart : ∀ c, start = some c → c ≤ i) (hcount : count ≤ i) :
    scanChunks t totalChunks chunkCount n (BitVec.ofNat 32 i) (startWord start)
        (BitVec.ofNat 32 count) =
      (findChunks t chunkCount.toNat m i start count).map fun r =>
        (startWord r.1, BitVec.ofNat 32 r.2) := by
  induction m generalizing i start count n with
  | zero =>
    obtain ⟨n, rfl⟩ := Nat.exists_eq_succ_of_ne_zero (by omega : n ≠ 0)
    unfold scanChunks findChunks
    rw [signExtend_ofNat (by omega), if_neg]
    · rfl
    · rw [ofNat_lt_iff (by omega)]
      omega
  | succ m ih =>
    obtain ⟨n, rfl⟩ := Nat.exists_eq_succ_of_ne_zero (by omega : n ≠ 0)
    unfold scanChunks findChunks
    rw [signExtend_ofNat (by omega), if_pos ((ofNat_lt_iff (by omega)).mpr (by omega)),
      chunkIndex_ofNat (by omega), incr_ofNat (by omega), incr_ofNat (by omega)]
    simp only [Option.bind_eq_bind, Option.bind_some]
    cases hused : bit t i with
    | none => rfl
    | some used =>
      simp only [Option.bind_some]
      cases used with
      | true =>
        rw [if_pos rfl, if_pos rfl]
        have hnone : ∀ c, (none : Option ℕ) = some c → c ≤ i + 1 := fun c hc => by cases hc
        exact ih (by omega) (by omega) hnone (Nat.zero_le _)
      | false =>
        simp only [Bool.false_eq_true, if_false]
        have hfirst : (if startWord start = -1 then BitVec.ofNat 32 i else startWord start) =
            startWord (if start = none then some i else start) := by
          cases start with
          | none => rfl
          | some c =>
            have hc := hstart c rfl
            rw [startWord, if_neg (ofNat_ne_neg_one (by omega)), if_neg (by simp)]
            rfl
        rw [hfirst, signExtend_ofNat (by omega)]
        by_cases heq : count + 1 = chunkCount.toNat
        · rw [if_pos ((ofNat_eq_iff (by omega)).mpr heq), if_pos heq]
          rfl
        · rw [if_neg fun h => heq ((ofNat_eq_iff (by omega)).mp h), if_neg heq]
          refine ih (by omega) (by omega) (fun c hc => ?_) (by omega)
          split at hc
          · obtain rfl := Option.some.inj hc
            omega
          · have := hstart c hc
            omega

/-- Below the largest integer the second loop sets the bits. -/
theorem markChunks_eq (hint : limit.toNat < 2 ^ 31) (hm : i + m = limit.toNat) (hfuel : m < n) :
    markChunks limit n (BitVec.ofNat 32 i) t = setBits m i t := by
  induction m generalizing i n t with
  | zero =>
    obtain ⟨n, rfl⟩ := Nat.exists_eq_succ_of_ne_zero (by omega : n ≠ 0)
    unfold markChunks
    rw [signExtend_ofNat (by omega), if_neg]
    · rfl
    · rw [ofNat_lt_iff (by omega)]
      omega
  | succ m ih =>
    obtain ⟨n, rfl⟩ := Nat.exists_eq_succ_of_ne_zero (by omega : n ≠ 0)
    unfold markChunks setBits modifyAll
    rw [signExtend_ofNat (by omega), if_pos ((ofNat_lt_iff (by omega)).mpr (by omega)),
      chunkIndex_ofNat (by omega), incr_ofNat (by omega)]
    simp only [Option.bind_eq_bind, Option.bind_some]
    cases setBit t i with
    | none => rfl
    | some t' => exact ih (by omega) (by omega)

/-- Chunks `i` to `i + k` are in the table and free. -/
def FitsAt (t : List Byte) (total k i : ℕ) : Prop :=
  i + k ≤ total ∧ ∀ j, i ≤ j → j < i + k → bit t j = some false

/-- The scan passes over no place that fits: what is behind `start` does not fit, and a used chunk
rules out what has been counted. -/
theorem findChunks_first (hk : 0 < k) (hlen : i + m ≤ 8 * t.length)
    (hrun : FreeRun t start count i) (hcount : count < k)
    (hno : ∀ c < start.getD i, ¬ FitsAt t (i + m) k c) :
    ∃ start' count', findChunks t k m i start count = some (start', count') ∧ count' ≤ i + m ∧
      ((count' = k ∧ ∃ c, start' = some c ∧ FitsAt t (i + m) k c ∧
          ∀ c' < c, ¬ FitsAt t (i + m) k c') ∨
        (count' ≠ k ∧ ∀ c, ¬ FitsAt t (i + m) k c)) := by
  have hle : count ≤ i + m := by
    cases start with
    | none =>
      obtain rfl : count = 0 := hrun
      omega
    | some s =>
      have hs : s + count = i := hrun.1
      omega
  induction m generalizing i start count with
  | zero =>
    refine ⟨start, count, rfl, hle, .inr ⟨by omega, fun c hfits => ?_⟩⟩
    have hend := hfits.1
    cases start with
    | none => exact hno c (by rw [Option.getD_none]; omega) hfits
    | some s =>
      have hs : s + count = i := hrun.1
      exact hno c (by rw [Option.getD_some]; omega) hfits
  | succ m ih =>
    obtain ⟨b, hb⟩ := bit_eq_some (t := t) (i := i) (by omega)
    have hend : i + 1 + m = i + (m + 1) := by omega
    unfold findChunks
    simp only [hb, Option.bind_eq_bind, Option.bind_some]
    cases b with
    | true =>
      rw [if_pos rfl, ← hend]
      refine ih (by omega) rfl hk (fun c hc hfits => ?_) (by omega)
      rw [hend] at hfits
      have hbehind : start.getD i ≤ c := by
        by_contra hlt
        exact hno c (by omega) hfits
      have hcover : i < c + k := by
        cases start with
        | none =>
          rw [Option.getD_none] at hbehind
          omega
        | some s =>
          have hs : s + count = i := hrun.1
          rw [Option.getD_some] at hbehind
          omega
      rw [Option.getD_none] at hc
      have hclear := hfits.2 i (by omega) hcover
      rw [hb] at hclear
      cases hclear
    | false =>
      rw [if_neg (by decide)]
      have hrun' := hrun.cons hb
      obtain ⟨s, hs⟩ : ∃ s, (if start = none then some i else start) = some s := by
        cases start with
        | none => exact ⟨i, rfl⟩
        | some s => exact ⟨s, rfl⟩
      have hno' : ∀ c < s, ¬ FitsAt t (i + (m + 1)) k c := by
        intro c hc
        refine hno c ?_
        cases start with
        | none =>
          obtain rfl := Option.some.inj hs
          exact hc
        | some s' =>
          obtain rfl := Option.some.inj hs
          exact hc
      rw [hs] at hrun' ⊢
      obtain ⟨hsum, hfree⟩ := hrun'
      by_cases heq : count + 1 = k
      · rw [if_pos heq]
        refine ⟨_, _, rfl, by omega, .inl ⟨heq, s, rfl, ⟨by omega, fun j hj hlt => ?_⟩, hno'⟩⟩
        exact hfree j hj (by omega)
      · rw [if_neg heq, ← hend]
        exact ih (by omega) ⟨hsum, hfree⟩ (by omega) (by rw [hend]; exact hno') (by omega)

/-- The scan of a whole table. -/
theorem findChunks_all (hk : 0 < k) (hlen : total ≤ 8 * t.length) :
    ∃ start count, findChunks t k total 0 none 0 = some (start, count) ∧ count ≤ total ∧
      ((count = k ∧ ∃ c, start = some c ∧ FitsAt t total k c ∧ ∀ c' < c, ¬ FitsAt t total k c') ∨
        (count ≠ k ∧ ∀ c, ¬ FitsAt t total k c)) := by
  have hrun : FreeRun t none 0 0 := rfl
  have hno : ∀ c < (none : Option ℕ).getD 0, ¬ FitsAt t (0 + total) k c :=
    fun c hc => absurd hc (Nat.not_lt_zero c)
  have h := findChunks_first hk (by omega) hrun hk hno
  rwa [Nat.zero_add] at h

/-- `AllocChunk` on the integers of the source finds what it finds on natural numbers. -/
theorem allocChunkInt_eq (hint : totalChunks.toNat < 2 ^ 31)
    (hlen : totalChunks.toNat ≤ 8 * t.length) (hk : 0 < chunkCount.toNat) :
    allocChunkInt t totalChunks chunkCount =
      (allocChunk t totalChunks.toNat chunkCount.toNat).map fun r => (startWord r.1, r.2) := by
  have hscan : scanChunks t totalChunks chunkCount (2 ^ 32) (BitVec.ofNat 32 0) (startWord none)
      (BitVec.ofNat 32 0) = (findChunks t chunkCount.toNat totalChunks.toNat 0 none 0).map fun r =>
        (startWord r.1, BitVec.ofNat 32 r.2) :=
    scanChunks_eq hint (by omega) (by omega) (fun c hc => (nomatch hc)) le_rfl
  obtain ⟨start, count, hfind, hle, hcases⟩ := findChunks_all hk hlen
  rw [hfind] at hscan
  unfold allocChunkInt allocChunk
  change (do
    let (startChunk, count) ← scanChunks t totalChunks chunkCount (2 ^ 32) (BitVec.ofNat 32 0)
      (startWord none) (BitVec.ofNat 32 0)
    _) = _
  rw [hscan, hfind]
  simp only [Option.map_some, Option.bind_eq_bind, Option.bind_some]
  rw [signExtend_ofNat (by omega)]
  rcases hcases with ⟨heq, c, rfl, hfits, -⟩ | ⟨hne, -⟩
  · have hend := hfits.1
    have hc : (startWord (some c)).signExtend 64 = BitVec.ofNat 64 c := signExtend_ofNat (by omega)
    have hlimit : (BitVec.ofNat 64 c + chunkCount).toNat = c + chunkCount.toNat := by
      rw [BitVec.toNat_add, BitVec.toNat_ofNat]
      omega
    rw [if_pos ((ofNat_eq_iff (by omega)).mpr heq), if_pos heq, hc]
    have hmark : markChunks (BitVec.ofNat 64 c + chunkCount) (2 ^ 32) (BitVec.ofNat 32 c) t =
        setBits chunkCount.toNat c t := markChunks_eq (by omega) hlimit.symm (by omega)
    change (markChunks _ _ (BitVec.ofNat 32 c) t).bind _ = _
    rw [hmark, Option.bind_some]
    cases setBits chunkCount.toNat c t <;> rfl
  · rw [if_neg fun h => hne ((ofNat_eq_iff (by omega)).mp h), if_neg hne]
    rfl

/-- `AllocChunk` marks the first chunks that fit, and it gives -1 and leaves the table alone where
none do. It ends, and it makes no access outside the table. -/
theorem allocChunk_firstFit (chunkTable : List Byte) (totalChunks chunkCount : Word)
    (hunit : 8 ∣ totalChunks.toNat) (hint : totalChunks.toNat < 2 ^ 31)
    (htable : chunkTable.length = totalChunks.toNat / 8) (hcount : 1 ≤ chunkCount.toNat) :
    ∃ chunk chunkTable', allocChunkInt chunkTable totalChunks chunkCount =
        some (chunk, chunkTable') ∧ chunkTable'.length = chunkTable.length ∧
      ((∃ i, FitsAt chunkTable totalChunks.toNat chunkCount.toNat i) →
        0 ≤ chunk.toInt ∧
        IsLeast {i | FitsAt chunkTable totalChunks.toNat chunkCount.toNat i} chunk.toNat ∧
        ∀ j, bit chunkTable' j =
          if chunk.toNat ≤ j ∧ j < chunk.toNat + chunkCount.toNat then some true
          else bit chunkTable j) ∧
      ((∀ i, ¬ FitsAt chunkTable totalChunks.toNat chunkCount.toNat i) →
        chunk = -1 ∧ chunkTable' = chunkTable) := by
  have hlen : totalChunks.toNat ≤ 8 * chunkTable.length := by omega
  obtain ⟨start, count, hfind, -, hcases⟩ := findChunks_all hcount hlen
  rw [allocChunkInt_eq hint hlen hcount]
  unfold allocChunk
  simp only [hfind, Option.bind_eq_bind, Option.bind_some]
  rcases hcases with ⟨heq, c, rfl, hfits, hfirst⟩ | ⟨hne, hno⟩
  · have hend := hfits.1
    obtain ⟨t', ht', hlen', hbit⟩ := setBits_eq (t := chunkTable) (i := c) (n := chunkCount.toNat)
      (by omega)
    have hnat : (BitVec.ofNat 32 c).toNat = c := by
      rw [BitVec.toNat_ofNat]
      omega
    refine ⟨BitVec.ofNat 32 c, t', ?_, hlen', fun _ => ⟨?_, ?_, ?_⟩, fun h => absurd hfits (h c)⟩
    · rw [if_pos heq, Option.bind_some, ht']
      rfl
    · rw [BitVec.toInt_eq_toNat_of_lt (by omega), hnat]
      omega
    · rw [hnat]
      refine ⟨hfits, fun c' hc' => ?_⟩
      by_contra hlt
      exact hfirst c' (by omega) hc'
    · rwa [hnat]
  · rw [if_neg hne]
    exact ⟨-1, chunkTable, rfl, rfl, fun ⟨i, hi⟩ => absurd hi (hno i), fun _ => ⟨rfl, rfl⟩⟩

/-- Three chunks fit behind the used ones of the first byte. -/
theorem allocChunk_firstFit_sample : ∃ chunk chunkTable',
    allocChunkInt [0x05, 0xff] 16 3 = some (chunk, chunkTable') ∧
      IsLeast {i | FitsAt [0x05, 0xff] 16 3 i} chunk.toNat := by
  obtain ⟨chunk, chunkTable', heq, -, hfound, -⟩ :=
    allocChunk_firstFit [0x05, 0xff] 16 3 (by decide) (by decide) rfl (by decide)
  refine ⟨chunk, chunkTable', heq, (hfound ⟨3, by decide, fun j hj hlt => ?_⟩).2.1⟩
  change j < 3 + 3 at hlt
  interval_cases j <;> rfl

end Memory
end Rv64Hook
