import Rv64Hook.Lib.ByteMem

/-! Copying a block of memory in pieces, upwards or downwards. -/
namespace ByteMem

/-- The pointers of a copy that is under way. -/
structure Cursors where
  dst : Addr
  src : Addr
  mem : Mem

namespace Cursors

/-- The next `k` bytes, before both pointers step over them. -/
def up (k : ℕ) (c : Cursors) : Cursors where
  dst := c.dst + BitVec.ofNat 64 k
  src := c.src + BitVec.ofNat 64 k
  mem := store c.mem c.dst (bytesAt c.mem c.src k)

/-- The next `k` bytes, after both pointers step over them. -/
def down (k : ℕ) (c : Cursors) : Cursors where
  dst := c.dst - BitVec.ofNat 64 k
  src := c.src - BitVec.ofNat 64 k
  mem := store c.mem (c.dst - BitVec.ofNat 64 k) (bytesAt c.mem (c.src - BitVec.ofNat 64 k) k)

end Cursors

/-- The memory with the bytes from `lo` to `hi` of the block copied. -/
def moved (m : Mem) (dst src : Addr) (lo hi : ℕ) : Mem := fun p =>
  if lo ≤ (p - dst).toNat ∧ (p - dst).toNat < hi then m (src + (p - dst)) else m p

/-- The block is found at the destination, as it was, and no other byte has changed. -/
structure Copied (m m' : Mem) (dst src : Addr) (n : ℕ) : Prop where
  block : ∀ i < n, m' (dst + BitVec.ofNat 64 i) = m (src + BitVec.ofNat 64 i)
  frame : ∀ p, ¬ InRange dst n p → m' p = m p

/-- No byte is in both blocks. -/
def NoOverlap (dst src : Addr) (n : ℕ) : Prop := ∀ p, InRange dst n p → ¬ InRange src n p

/-- The block does not wrap around the address space. -/
def Unwrapped (a : Addr) (n : ℕ) : Prop := a.toNat + n ≤ 2 ^ 64

section Copy
variable {m : Mem} {dst src : Addr} {lo hi i k n r : ℕ}

theorem copied_moved (hn : n ≤ 2 ^ 64) : Copied m (moved m dst src 0 n) dst src n := by
  constructor
  · intro i hi
    have hoff : dst + BitVec.ofNat 64 i - dst = BitVec.ofNat 64 i := by
      rw [BitVec.add_comm, BitVec.add_sub_cancel]
    have hin : (BitVec.ofNat 64 i).toNat < n := by
      rw [BitVec.toNat_ofNat, Nat.mod_eq_of_lt (hi.trans_le hn)]
      exact hi
    unfold moved
    rw [hoff, if_pos ⟨Nat.zero_le _, hin⟩]
  · intro p hp
    exact if_neg fun h => hp h.2

theorem moved_self (m : Mem) (a : Addr) (lo hi : ℕ) : moved m a a lo hi = m := by
  funext p
  unfold moved
  rw [BitVec.add_comm, BitVec.sub_add_cancel, ite_self]

theorem moved_of_le (m : Mem) (dst src : Addr) (h : hi ≤ lo) : moved m dst src lo hi = m := by
  funext p
  exact if_neg fun hp => absurd (hp.1.trans_lt hp.2) (not_lt.mpr h)

theorem store_bytesAt_apply (m m' : Mem) (a b : Addr) (n : ℕ) (p : Addr) :
    store m a (bytesAt m' b n) p = if (p - a).toNat < n then m' (b + (p - a)) else m p := by
  by_cases h : (p - a).toNat < n
  · rw [if_pos h, store, List.getD_eq_getElem?_getD, getElem?_bytesAt h, Option.getD_some,
      BitVec.ofNat_toNat, BitVec.setWidth_eq]
  · rw [if_neg h]
    exact store_of_le ((length_bytesAt m' b n).trans_le (not_lt.mp h))

/-- A piece of the block, where its source has not been written. -/
theorem store_piece (hk : i + k ≤ 2 ^ 64)
    (hold : ∀ d : Addr, i ≤ d.toNat → d.toNat < i + k →
      moved m dst src lo hi (src + d) = m (src + d)) (p : Addr) :
    store (moved m dst src lo hi) (dst + BitVec.ofNat 64 i)
        (bytesAt (moved m dst src lo hi) (src + BitVec.ofNat 64 i) k) p =
      if i ≤ (p - dst).toNat ∧ (p - dst).toNat < i + k then m (src + (p - dst))
      else moved m dst src lo hi p := by
  have hiff : (p - (dst + BitVec.ofNat 64 i)).toNat < k ↔
      i ≤ (p - dst).toNat ∧ (p - dst).toNat < i + k := inRange_offset hk
  have haddr : src + BitVec.ofNat 64 i + (p - (dst + BitVec.ofNat 64 i)) = src + (p - dst) := by
    rw [sub_add_eq_sub_sub, BitVec.add_assoc, BitVec.add_comm (BitVec.ofNat 64 i),
      BitVec.sub_add_cancel]
  rw [store_bytesAt_apply, haddr]
  by_cases h : (p - (dst + BitVec.ofNat 64 i)).toNat < k
  · rw [if_pos h, if_pos (hiff.mp h)]
    exact hold _ (hiff.mp h).1 (hiff.mp h).2
  · rw [if_neg h, if_neg fun h' => h (hiff.mpr h')]

theorem moved_source (d : Addr)
    (h : ¬ (lo ≤ (d - (dst - src)).toNat ∧ (d - (dst - src)).toNat < hi)) :
    moved m dst src lo hi (src + d) = m (src + d) := by
  have hoff : src + d - dst = d - (dst - src) := by
    rw [← sub_add, BitVec.add_comm src d]
    exact (sub_add_eq_add_sub d dst src).symm
  unfold moved
  rw [hoff, if_neg h]

/-! ### Upwards -/

/-- The destination does not begin inside the block. -/
def SafeUp (dst src : Addr) (n : ℕ) : Prop := dst = src ∨ n ≤ (dst - src).toNat

/-- The first `i` bytes are copied. -/
def atUp (m : Mem) (dst src : Addr) (i : ℕ) : Cursors :=
  ⟨dst + BitVec.ofNat 64 i, src + BitVec.ofNat 64 i, moved m dst src 0 i⟩

theorem atUp_zero (m : Mem) (dst src : Addr) : atUp m dst src 0 = ⟨dst, src, m⟩ := by
  unfold atUp
  rw [moved_of_le m dst src le_rfl]
  simp only [BitVec.add_zero]

theorem up_atUp (hsafe : SafeUp dst src n) (hn : n ≤ 2 ^ 64) (hk : i + k ≤ n) :
    (atUp m dst src i).up k = atUp m dst src (i + k) := by
  have hmem : store (moved m dst src 0 i) (dst + BitVec.ofNat 64 i)
      (bytesAt (moved m dst src 0 i) (src + BitVec.ofNat 64 i) k) = moved m dst src 0 (i + k) := by
    funext p
    rw [store_piece (hk.trans hn) fun d h1 h2 => ?_]
    · unfold moved
      by_cases h : i ≤ (p - dst).toNat ∧ (p - dst).toNat < i + k
      · rw [if_pos h, if_pos ⟨Nat.zero_le _, h.2⟩]
      · rw [if_neg h]
        congr 1
        refine propext ⟨fun h' => ⟨h'.1, by omega⟩, fun h' => ⟨h'.1, by omega⟩⟩
    · rcases hsafe with rfl | hsafe
      · rw [moved_self]
      · refine moved_source d fun h => ?_
        have hd := d.isLt
        have he := (dst - src).isLt
        rw [BitVec.toNat_sub] at h
        omega
  unfold Cursors.up
  dsimp only [atUp]
  rw [hmem, add_ofNat_add, add_ofNat_add]

theorem iterate_up (hsafe : SafeUp dst src n) (hn : n ≤ 2 ^ 64) (hk : i + k * r ≤ n) :
    (Cursors.up k)^[r] (atUp m dst src i) = atUp m dst src (i + k * r) := by
  induction r with
  | zero => rfl
  | succ r ih =>
    have hstep : i + k * r + k ≤ n := by
      rw [add_assoc, ← Nat.mul_succ]
      exact hk
    rw [Function.iterate_succ_apply', ih ((Nat.le_add_right _ k).trans hstep),
      up_atUp hsafe hn hstep, add_assoc, ← Nat.mul_succ]

/-! ### Downwards -/

/-- The block does not begin inside the destination. -/
def SafeDown (dst src : Addr) (n : ℕ) : Prop := SafeUp src dst n

/-- All but the first `i` bytes are copied. -/
def atDown (m : Mem) (dst src : Addr) (n i : ℕ) : Cursors :=
  ⟨dst + BitVec.ofNat 64 i, src + BitVec.ofNat 64 i, moved m dst src i n⟩

theorem atDown_self (m : Mem) (dst src : Addr) (n : ℕ) :
    atDown m dst src n n = ⟨dst + BitVec.ofNat 64 n, src + BitVec.ofNat 64 n, m⟩ := by
  unfold atDown
  rw [moved_of_le m dst src le_rfl]

theorem add_ofNat_sub (a : Addr) (h : k ≤ i) :
    a + BitVec.ofNat 64 i - BitVec.ofNat 64 k = a + BitVec.ofNat 64 (i - k) := by
  conv_lhs => rw [← Nat.sub_add_cancel h, ← add_ofNat_add]
  exact BitVec.add_sub_cancel _ _

theorem down_atDown (hsafe : SafeDown dst src n) (hn : n ≤ 2 ^ 64) (hi : i ≤ n) (hk : k ≤ i) :
    (atDown m dst src n i).down k = atDown m dst src n (i - k) := by
  have hsum : i - k + k = i := Nat.sub_add_cancel hk
  have hmem : store (moved m dst src i n) (dst + BitVec.ofNat 64 (i - k))
      (bytesAt (moved m dst src i n) (src + BitVec.ofNat 64 (i - k)) k) =
        moved m dst src (i - k) n := by
    funext p
    rw [store_piece (hsum.trans_le (hi.trans hn)) fun d h1 h2 => ?_]
    · unfold moved
      by_cases h : i - k ≤ (p - dst).toNat ∧ (p - dst).toNat < i - k + k
      · rw [if_pos h, if_pos ⟨h.1, by omega⟩]
      · rw [if_neg h]
        congr 1
        refine propext ⟨fun h' => ⟨by omega, h'.2⟩, fun h' => ⟨by omega, h'.2⟩⟩
    · rcases hsafe with rfl | hsafe
      · rw [moved_self]
      · refine moved_source d fun h => ?_
        have hd := d.isLt
        have hneg : (dst - src).toNat = (2 ^ 64 - (src - dst).toNat) % 2 ^ 64 := by
          rw [← BitVec.toNat_neg, neg_sub]
        have he := (src - dst).isLt
        rw [BitVec.toNat_sub, hneg] at h
        omega
  unfold Cursors.down
  dsimp only [atDown]
  rw [add_ofNat_sub _ hk, add_ofNat_sub _ hk, hmem]

theorem iterate_down (hsafe : SafeDown dst src n) (hn : n ≤ 2 ^ 64) (hi : i ≤ n)
    (hk : k * r ≤ i) :
    (Cursors.down k)^[r] (atDown m dst src n i) = atDown m dst src n (i - k * r) := by
  induction r with
  | zero => rfl
  | succ r ih =>
    have hstep : k * r + k ≤ i := by
      rw [← Nat.mul_succ]
      exact hk
    rw [Function.iterate_succ_apply', ih ((Nat.le_add_right _ k).trans hstep),
      down_atDown hsafe hn ((Nat.sub_le _ _).trans hi) (Nat.le_sub_of_add_le' hstep), Nat.sub_sub,
      ← Nat.mul_succ]

/-! ### When it is safe -/

theorem NoOverlap.safe (h : NoOverlap dst src n) : SafeUp dst src n ∧ SafeDown dst src n := by
  have hself : ∀ a : Addr, 0 < n → InRange a n a := fun a hn => by
    unfold InRange
    rw [BitVec.sub_self]
    exact hn
  constructor
  · refine .inr (not_lt.mp fun hlt => ?_)
    exact h dst (hself dst (Nat.zero_lt_of_lt hlt)) hlt
  · refine .inr (not_lt.mp fun hlt => ?_)
    exact h src hlt (hself src (Nat.zero_lt_of_lt hlt))

theorem Unwrapped.safeUp (hsrc : Unwrapped src n) (h : dst < src) : SafeUp dst src n := by
  have hlt : dst.toNat < src.toNat := h
  have hle : src.toNat + n ≤ 2 ^ 64 := hsrc
  refine .inr ?_
  rw [BitVec.toNat_sub]
  omega

theorem Unwrapped.safeDown (hdst : Unwrapped dst n) (h : ¬ dst < src) : SafeDown dst src n := by
  rcases eq_or_ne dst src with rfl | hne
  · exact .inl rfl
  · have hle : src.toNat ≤ dst.toNat := not_lt.mp h
    have hlt : src.toNat < dst.toNat :=
      lt_of_le_of_ne hle fun heq => hne (BitVec.eq_of_toNat_eq heq.symm)
    exact Unwrapped.safeUp hdst hlt

end Copy

end ByteMem
