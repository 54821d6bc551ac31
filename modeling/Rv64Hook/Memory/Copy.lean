import Rv64Hook.Lib.BlockCopy
import Rv64Hook.FirstTrampoline

/-! `Memory::Copy` through the `memcpy` in C and through the one with vector instructions. -/
namespace Rv64Hook
open ByteMem Rv64

namespace Libc

def wsize : Word := 8

def wmask : Word := wsize - 1

/-- `TLOOP1`: `do { body; } while (--t)` -/
def tloop1 {σ : Type} (body : σ → σ) (t : Word) (s : σ) : σ :=
  if t - 1 = 0 then body s else tloop1 body (t - 1) (body s)
termination_by (t - 1).toNat
decreasing_by
  have hpos : 0 < (t - 1).toNat := Nat.pos_of_ne_zero fun h =>
    absurd (BitVec.eq_of_toNat_eq h) (by assumption)
  rw [BitVec.toNat_sub_of_le (by rw [BitVec.le_def]; exact hpos)]
  exact Nat.sub_lt hpos Nat.one_pos

/-- `TLOOP` -/
def tloop {σ : Type} (body : σ → σ) (t : Word) (s : σ) : σ :=
  if t ≠ 0 then tloop1 body t s else s

/-- `*dst++ = *src++` -/
def byteUp (c : Cursors) : Cursors where
  dst := c.dst + 1
  src := c.src + 1
  mem := store c.mem c.dst [c.mem c.src]

def wordUp (c : Cursors) : Cursors where
  dst := c.dst + wsize
  src := c.src + wsize
  mem := store c.mem c.dst (toBytes 8 (load 64 c.mem c.src))

/-- `*--dst = *--src` -/
def byteDown (c : Cursors) : Cursors where
  dst := c.dst - 1
  src := c.src - 1
  mem := store c.mem (c.dst - 1) [c.mem (c.src - 1)]

def wordDown (c : Cursors) : Cursors where
  dst := c.dst - wsize
  src := c.src - wsize
  mem := store c.mem (c.dst - wsize) (toBytes 8 (load 64 c.mem (c.src - wsize)))

/-- `__rv64hook_libc_memcpy_gc` -/
def memcpyGc (m : Mem) (dst0 src0 : Addr) (length : Word) : Mem :=
  if length = 0 ∨ dst0 = src0 then m
  else if dst0 < src0 then
    let c : Cursors := ⟨dst0, src0, m⟩
    let (c, length) :=
      if (c.src ||| c.dst) &&& wmask ≠ 0 then
        let t :=
          if (c.src ^^^ c.dst) &&& wmask ≠ 0 ∨ length < wsize then length
          else wsize - (c.src &&& wmask)
        (tloop1 byteUp t c, length - t)
      else (c, length)
    let c := tloop wordUp (length / wsize) c
    (tloop byteUp (length &&& wmask) c).mem
  else
    let c : Cursors := ⟨dst0 + length, src0 + length, m⟩
    let (c, length) :=
      if (c.src ||| c.dst) &&& wmask ≠ 0 then
        let t :=
          if (c.src ^^^ c.dst) &&& wmask ≠ 0 ∨ length ≤ wsize then length
          else c.src &&& wmask
        (tloop1 byteDown t c, length - t)
      else (c, length)
    let c := tloop wordDown (length / wsize) c
    (tloop byteDown (length &&& wmask) c).mem

/-- The registers of the vector loop; the data register group has the bytes that were loaded. -/
structure VextState where
  pDst : Addr
  pSrc : Addr
  iNum : Word
  iVL : Word
  vData : List Byte
  mem : Mem

/-- The loop body, where `vsetvli` returns `vl`. -/
def vextBody (vl : Word) (s : VextState) : VextState :=
  let s := { s with iVL := vl }
  let s := { s with vData := bytesAt s.mem s.pSrc s.iVL.toNat }
  let s := { s with iNum := s.iNum - s.iVL }
  let s := { s with pSrc := s.pSrc + s.iVL }
  let s := { s with mem := store s.mem s.pDst s.vData }
  { s with pDst := s.pDst + s.iVL }

/-- The loop; `vsetvli i` is what the instruction returns in the `i`-th round. -/
def vextLoop (vsetvli : ℕ → Word → Word) : ℕ → ℕ → VextState → Option VextState
  | 0, _, _ => none
  | fuel + 1, i, s =>
    let s := vextBody (vsetvli i s.iNum) s
    if s.iNum ≠ 0 then vextLoop vsetvli fuel (i + 1) s else some s

/-- `__rv64hook_libc_memcpy_vext` -/
def memcpyVext (vsetvli : ℕ → Word → Word) (fuel : ℕ) (m : Mem) (dst src : Addr) (count : Word) :
    Option Mem :=
  (vextLoop vsetvli fuel 0 ⟨dst, src, count, 0, [], m⟩).map (·.mem)

/-- What the specification of the vector extension promises of `vsetvli`. -/
structure Vsetvli (vlmax : ℕ) (vsetvli : Word → Word) : Prop where
  pos : 0 < vlmax
  all : ∀ avl, avl.toNat ≤ vlmax → vsetvli avl = avl
  half : ∀ avl, vlmax < avl.toNat → avl.toNat < 2 * vlmax →
    (avl.toNat + 1) / 2 ≤ (vsetvli avl).toNat ∧ (vsetvli avl).toNat ≤ vlmax
  full : ∀ avl, 2 * vlmax ≤ avl.toNat → (vsetvli avl).toNat = vlmax

end Libc

/-- `libc_memcpy`, in a build without and with the vector extension. -/
inductive LibcMemcpy where
  | gc
  | vext (vsetvli : ℕ → Word → Word) (fuel : ℕ)

def libcMemcpy (m : Mem) (dst src : Addr) (count : Word) : LibcMemcpy → Option Mem
  | .gc => some (Libc.memcpyGc m dst src count)
  | .vext vsetvli fuel => Libc.memcpyVext vsetvli fuel m dst src count

/-- `Memory::Copy` without `process_vm_writev` -/
def Memory.copyThrough (libc : LibcMemcpy) (m : Mem) (addr src : Addr) (size : Word) :
    Option (Bool × Mem) :=
  (libcMemcpy m addr src size libc).map (true, ·)

/-! ### Loops -/

namespace Libc

theorem tloop1_eq {σ : Type} (body : σ → σ) {t : Word} (ht : t ≠ 0) (s : σ) :
    tloop1 body t s = body^[t.toNat] s := by
  obtain ⟨n, hn⟩ : ∃ n, t.toNat = n + 1 :=
    Nat.exists_eq_succ_of_ne_zero fun h => ht (BitVec.eq_of_toNat_eq h)
  induction n generalizing t s with
  | zero =>
    have h1 : t = 1 := BitVec.eq_of_toNat_eq hn
    rw [h1, tloop1]
    exact if_pos rfl
  | succ n ih =>
    have hpred : (t - 1).toNat = n + 1 := by
      rw [BitVec.toNat_sub_of_le (by rw [BitVec.le_def, hn]; exact Nat.succ_le_succ (Nat.zero_le _)),
        hn]
      rfl
    have hne : t - 1 ≠ 0 := fun h => by
      rw [h] at hpred
      cases hpred
    rw [tloop1, if_neg hne, ih hne _ hpred, hpred, hn, Function.iterate_succ_apply body (n + 1)]

theorem tloop_eq {σ : Type} (body : σ → σ) (t : Word) (s : σ) :
    tloop body t s = body^[t.toNat] s := by
  unfold tloop
  by_cases ht : t = 0
  · rw [if_neg (not_not.mpr ht), ht]
    rfl
  · rw [if_pos ht, tloop1_eq body ht]

theorem byteUp_eq : byteUp = Cursors.up 1 := rfl

theorem byteDown_eq : byteDown = Cursors.down 1 := rfl

theorem wordUp_eq : wordUp = Cursors.up 8 := by
  funext c
  unfold wordUp Cursors.up
  rw [toBytes_load rfl]
  rfl

theorem wordDown_eq : wordDown = Cursors.down 8 := by
  funext c
  unfold wordDown Cursors.down
  rw [toBytes_load rfl]
  rfl

/-- Words, then the bytes that are left. -/
theorem words_and_tail (n : Word) :
    8 * (n / wsize).toNat + 1 * (n &&& wmask).toNat = n.toNat := by
  have hdiv : (n / wsize).toNat = n.toNat / 8 := BitVec.toNat_udiv
  have hmod : (n &&& wmask).toNat = n.toNat % 8 := by
    rw [BitVec.toNat_and]
    exact Nat.and_two_pow_sub_one_eq_mod n.toNat 3
  rw [hdiv, hmod, one_mul]
  exact Nat.div_add_mod n.toNat 8

/-! ### The copy in C -/

section Generic
variable {m : Mem} {dst src : Addr} {length t : Word}

/-- Bytes up to an alignment, words, and bytes. -/
theorem copy_up (hsafe : SafeUp dst src length.toNat) (ht : t ≤ length) :
    (tloop byteUp ((length - t) &&& wmask) (tloop wordUp ((length - t) / wsize)
      (byteUp^[t.toNat] ⟨dst, src, m⟩))).mem = moved m dst src 0 length.toNat := by
  have hle : t.toNat ≤ length.toNat := ht
  have hn := length.isLt.le
  have hsum := words_and_tail (length - t)
  rw [BitVec.toNat_sub_of_le ht] at hsum
  rw [tloop_eq, tloop_eq, byteUp_eq, wordUp_eq, ← atUp_zero, iterate_up hsafe hn (by omega),
    iterate_up hsafe hn (by omega), iterate_up hsafe hn (by omega)]
  have hall : 0 + 1 * t.toNat + 8 * ((length - t) / wsize).toNat +
      1 * ((length - t) &&& wmask).toNat = length.toNat := by omega
  rw [hall]
  rfl

theorem copy_down (hsafe : SafeDown dst src length.toNat) (ht : t ≤ length) :
    (tloop byteDown ((length - t) &&& wmask) (tloop wordDown ((length - t) / wsize)
      (byteDown^[t.toNat] ⟨dst + length, src + length, m⟩))).mem =
        moved m dst src 0 length.toNat := by
  have hle : t.toNat ≤ length.toNat := ht
  have hn := length.isLt.le
  have hsum := words_and_tail (length - t)
  have hstart : (⟨dst + length, src + length, m⟩ : Cursors) =
      atDown m dst src length.toNat length.toNat := by
    rw [atDown_self, BitVec.ofNat_toNat, BitVec.setWidth_eq]
  rw [BitVec.toNat_sub_of_le ht] at hsum
  rw [tloop_eq, tloop_eq, byteDown_eq, wordDown_eq, hstart,
    iterate_down hsafe hn le_rfl (by omega), iterate_down hsafe hn (by omega) (by omega),
    iterate_down hsafe hn (by omega) (by omega)]
  have hall : length.toNat - 1 * t.toNat - 8 * ((length - t) / wsize).toNat -
      1 * ((length - t) &&& wmask).toNat = 0 := by omega
  rw [hall]
  rfl

/-- The low bits of one operand are the low bits of both. -/
theorem low_bits_ne {a b : Word} (h : (a ||| b) &&& wmask ≠ 0) (hxor : (a ^^^ b) &&& wmask = 0) :
    a &&& wmask ≠ 0 := by
  intro ha
  have hb : b &&& wmask = 0 := by
    have hdist : (a ^^^ b) &&& wmask = (a &&& wmask) ^^^ (b &&& wmask) := by
      ext i
      simp only [BitVec.getElem_and, BitVec.getElem_xor, Bool.and_xor_distrib_right]
    rw [hdist, ha] at hxor
    exact (BitVec.zero_xor (x := b &&& wmask)).symm.trans hxor
  apply h
  have hdist : (a ||| b) &&& wmask = (a &&& wmask) ||| (b &&& wmask) := BitVec.and_or_distrib_right
  rw [hdist, ha, hb]
  rfl

theorem low_bits_lt (a : Word) : (a &&& wmask).toNat < 8 := by
  rw [BitVec.toNat_and]
  exact (Nat.and_le_right).trans_lt (by decide)

/-- The first loop upwards runs at least once and not beyond the block. -/
theorem align_up (hlength : length ≠ 0) (h : (src ||| dst) &&& wmask ≠ 0)
    (ht : t = if (src ^^^ dst) &&& wmask ≠ 0 ∨ length < wsize then length
      else wsize - (src &&& wmask)) : t ≠ 0 ∧ t ≤ length := by
  subst ht
  by_cases hwhole : (src ^^^ dst) &&& wmask ≠ 0 ∨ length < wsize
  · rw [if_pos hwhole]
    exact ⟨hlength, BitVec.le_refl _⟩
  · rw [if_neg hwhole]
    obtain ⟨hxor, hlen⟩ := not_or.mp hwhole
    have hlow := low_bits_lt src
    have hne := low_bits_ne h (not_not.mp hxor)
    have hpos : (src &&& wmask).toNat ≠ 0 := fun h0 => hne (BitVec.eq_of_toNat_eq h0)
    have hge : 8 ≤ length.toNat := not_lt.mp hlen
    have hnat : (wsize - (src &&& wmask)).toNat = 8 - (src &&& wmask).toNat :=
      BitVec.toNat_sub_of_le (by rw [BitVec.le_def]; exact hlow.le)
    refine ⟨fun h0 => ?_, ?_⟩
    · rw [h0] at hnat
      change 0 = _ at hnat
      omega
    · rw [BitVec.le_def, hnat]
      omega

theorem align_down (hlength : length ≠ 0) {a b : Addr} (h : (a ||| b) &&& wmask ≠ 0)
    (ht : t = if (a ^^^ b) &&& wmask ≠ 0 ∨ length ≤ wsize then length else a &&& wmask) :
    t ≠ 0 ∧ t ≤ length := by
  subst ht
  by_cases hwhole : (a ^^^ b) &&& wmask ≠ 0 ∨ length ≤ wsize
  · rw [if_pos hwhole]
    exact ⟨hlength, BitVec.le_refl _⟩
  · rw [if_neg hwhole]
    obtain ⟨hxor, hlen⟩ := not_or.mp hwhole
    have hlow := low_bits_lt a
    have hge : 8 < length.toNat := not_le.mp hlen
    refine ⟨low_bits_ne h (not_not.mp hxor), ?_⟩
    rw [BitVec.le_def]
    omega

/-- In the direction that is safe, the block is moved. -/
theorem memcpyGc_eq (hup : dst < src → SafeUp dst src length.toNat)
    (hdown : ¬ dst < src → SafeDown dst src length.toNat) :
    memcpyGc m dst src length = moved m dst src 0 length.toNat := by
  unfold memcpyGc
  by_cases hnone : length = 0 ∨ dst = src
  · rw [if_pos hnone]
    rcases hnone with rfl | rfl
    · exact (moved_of_le m dst src le_rfl).symm
    · exact (moved_self m dst 0 length.toNat).symm
  rw [if_neg hnone]
  have hlength : length ≠ 0 := fun h => hnone (.inl h)
  have hzero : (0 : Word) ≤ length := by
    rw [BitVec.le_def]
    exact Nat.zero_le _
  have hsub : length - 0 = length := BitVec.sub_zero length
  by_cases hlt : dst < src
  · rw [if_pos hlt]
    dsimp only
    by_cases hlow : (src ||| dst) &&& wmask ≠ 0
    · obtain ⟨hne, hle⟩ := align_up hlength hlow rfl
      rw [if_pos hlow]
      dsimp only
      rw [tloop1_eq _ hne]
      exact copy_up (hup hlt) hle
    · rw [if_neg hlow]
      have hcopy := copy_up (m := m) (hup hlt) hzero
      rw [hsub] at hcopy
      exact hcopy
  · rw [if_neg hlt]
    dsimp only
    by_cases hlow : (src + length ||| dst + length) &&& wmask ≠ 0
    · obtain ⟨hne, hle⟩ := align_down hlength hlow rfl
      rw [if_pos hlow]
      dsimp only
      rw [tloop1_eq _ hne]
      exact copy_down (hdown hlt) hle
    · rw [if_neg hlow]
      have hcopy := copy_down (m := m) (hdown hlt) hzero
      rw [hsub] at hcopy
      exact hcopy

end Generic

/-! ### The copy with vector instructions -/

section Vector
variable {m : Mem} {dst src : Addr} {vlmax : ℕ} {vsetvli : ℕ → Word → Word}

/-- A step covers something, and not more than is asked for. -/
theorem Vsetvli.bounds {f : Word → Word} (h : Vsetvli vlmax f) (avl : Word) :
    (f avl).toNat ≤ avl.toNat ∧ (avl ≠ 0 → 0 < (f avl).toNat) := by
  have hpos := h.pos
  have hne : avl ≠ 0 → 0 < avl.toNat := fun h0 =>
    Nat.pos_of_ne_zero fun hz => h0 (BitVec.eq_of_toNat_eq hz)
  by_cases hall : avl.toNat ≤ vlmax
  · rw [h.all avl hall]
    exact ⟨le_rfl, hne⟩
  by_cases hhalf : avl.toNat < 2 * vlmax
  · obtain ⟨hlow, hhigh⟩ := h.half avl (not_le.mp hall) hhalf
    exact ⟨by omega, fun h0 => by have := hne h0; omega⟩
  · rw [h.full avl (not_lt.mp hhalf)]
    exact ⟨by omega, fun _ => hpos⟩

/-- The registers after the first `i` bytes. -/
structure VextAt (m : Mem) (dst src : Addr) (n i : ℕ) (s : VextState) : Prop where
  cursors : (⟨s.pDst, s.pSrc, s.mem⟩ : Cursors) = atUp m dst src i
  left : s.iNum.toNat = n - i
  le : i ≤ n

theorem vextBody_at {n i : ℕ} {s : VextState} {vl : Word} (hsafe : SafeUp dst src n)
    (hn : n ≤ 2 ^ 64) (h : VextAt m dst src n i s) (hvl : vl.toNat ≤ s.iNum.toNat) :
    VextAt m dst src n (i + vl.toNat) (vextBody vl s) := by
  obtain ⟨hc, hleft, hle⟩ := h
  have hsum : i + vl.toNat ≤ n := by omega
  refine ⟨?_, ?_, hsum⟩
  · rw [← up_atUp hsafe hn hsum, ← hc]
    unfold Cursors.up
    rw [BitVec.ofNat_toNat, BitVec.setWidth_eq]
    rfl
  · change (s.iNum - vl).toNat = n - (i + vl.toNat)
    rw [BitVec.toNat_sub_of_le hvl, hleft, Nat.sub_sub]

/-- With more rounds than there are bytes left, the loop ends with all of them copied. -/
theorem vextLoop_at {n i j fuel : ℕ} {s : VextState} (hsafe : SafeUp dst src n) (hn : n ≤ 2 ^ 64)
    (hset : ∀ j, Vsetvli vlmax (vsetvli j)) (h : VextAt m dst src n i s)
    (hfuel : s.iNum.toNat < fuel) :
    ∃ u, vextLoop vsetvli fuel j s = some u ∧ VextAt m dst src n n u := by
  induction fuel generalizing i j s with
  | zero => exact absurd hfuel (Nat.not_lt_zero _)
  | succ fuel ih =>
    obtain ⟨hle, hpos⟩ := (hset j).bounds s.iNum
    have hnext := vextBody_at hsafe hn h hle
    have hsub : (vextBody (vsetvli j s.iNum) s).iNum.toNat =
        s.iNum.toNat - (vsetvli j s.iNum).toNat := BitVec.toNat_sub_of_le hle
    unfold vextLoop
    dsimp only
    by_cases hdone : (vextBody (vsetvli j s.iNum) s).iNum = 0
    · rw [if_neg (not_not.mpr hdone)]
      refine ⟨_, rfl, ?_⟩
      have hzero := hnext.left
      rw [hdone] at hzero
      change 0 = n - (i + (vsetvli j s.iNum).toNat) at hzero
      have hend : i + (vsetvli j s.iNum).toNat = n := by
        have := hnext.le
        omega
      rw [hend] at hnext
      exact hnext
    · rw [if_pos hdone]
      have hne : s.iNum ≠ 0 := fun h0 => hdone (BitVec.eq_of_toNat_eq (by
        rw [hsub, h0]
        exact Nat.zero_sub _))
      have hstep := hpos hne
      exact ih hnext (by omega)

theorem memcpyVext_eq {count : Word} {fuel : ℕ} (hsafe : SafeUp dst src count.toNat)
    (hset : ∀ j, Vsetvli vlmax (vsetvli j)) (hfuel : count.toNat < fuel) :
    memcpyVext vsetvli fuel m dst src count = some (moved m dst src 0 count.toNat) := by
  have hstart : VextAt m dst src count.toNat 0 ⟨dst, src, count, 0, [], m⟩ :=
    ⟨(atUp_zero m dst src).symm, rfl, Nat.zero_le _⟩
  obtain ⟨u, hu, hend⟩ := vextLoop_at hsafe count.isLt.le hset hstart hfuel
  unfold memcpyVext
  rw [hu]
  exact congrArg (fun c : Cursors => some c.mem) hend.cursors

end Vector

end Libc

/-- Through either `memcpy`, and whatever vector lengths the hardware picks, the copy ends and the
block is found at its destination; in C also where the blocks overlap. -/
theorem copy_means_the_same (m : Mem) (addr src : Addr) (size : Word) :
    (NoOverlap addr src size.toNat → ∃ m', Copied m m' addr src size.toNat ∧
      Memory.copyThrough .gc m addr src size = some (true, m') ∧
      ∀ vlmax vsetvli, (∀ i, Libc.Vsetvli vlmax (vsetvli i)) → ∀ fuel, size.toNat < fuel →
        Memory.copyThrough (.vext vsetvli fuel) m addr src size = some (true, m')) ∧
    (Unwrapped addr size.toNat → Unwrapped src size.toNat →
      ∃ m', Copied m m' addr src size.toNat ∧
        Memory.copyThrough .gc m addr src size = some (true, m')) := by
  have hcopied : Copied m (moved m addr src 0 size.toNat) addr src size.toNat :=
    copied_moved size.isLt.le
  constructor
  · intro hapart
    obtain ⟨hup, hdown⟩ := hapart.safe
    refine ⟨_, hcopied, ?_, fun vlmax vsetvli hset fuel hfuel => ?_⟩
    · exact congrArg (fun m' => some (true, m')) (Libc.memcpyGc_eq (fun _ => hup) fun _ => hdown)
    · unfold Memory.copyThrough libcMemcpy
      dsimp only
      rw [Libc.memcpyVext_eq hup hset hfuel]
      rfl
  · intro hdst hsrc
    refine ⟨_, hcopied, ?_⟩
    exact congrArg (fun m' => some (true, m'))
      (Libc.memcpyGc_eq (fun h => hsrc.safeUp h) fun h => hdst.safeDown h)

/-- A vector unit with two bytes to a group of registers. -/
def twoBytes (avl : Word) : Word := if avl.toNat ≤ 2 then avl else 2

theorem twoBytes_vsetvli : Libc.Vsetvli 2 twoBytes where
  pos := Nat.two_pos
  all _ h := if_pos h
  half avl h h' := by
    have htwo : (twoBytes avl).toNat = 2 := congrArg BitVec.toNat (if_neg (not_le.mpr h))
    rw [htwo]
    omega
  full avl h := congrArg BitVec.toNat (if_neg (by omega))

/-- Three bytes between blocks that are apart, and between blocks that overlap. -/
theorem copy_means_the_same_sample :
    (∃ m', Copied (fun p => p.setWidth 8) m' 0x1001 0x1005 3 ∧
      Memory.copyThrough .gc (fun p => p.setWidth 8) 0x1001 0x1005 3 = some (true, m') ∧
      Memory.copyThrough (.vext (fun _ => twoBytes) 4) (fun p => p.setWidth 8) 0x1001 0x1005 3 =
        some (true, m')) ∧
    ∃ m', Copied (fun p => p.setWidth 8) m' 0x1001 0x1000 3 ∧
      Memory.copyThrough .gc (fun p => p.setWidth 8) 0x1001 0x1000 3 = some (true, m') := by
  have hapart : NoOverlap 0x1001 0x1005 (3 : Word).toNat := fun p h h' => by
    have h1 : (2 ^ 64 - 0x1001 + p.toNat) % 2 ^ 64 < 3 := h
    have h2 : (2 ^ 64 - 0x1005 + p.toNat) % 2 ^ 64 < 3 := h'
    omega
  constructor
  · obtain ⟨m', hcopied, hgc, hvext⟩ :=
      (copy_means_the_same (fun p => p.setWidth 8) 0x1001 0x1005 3).1 hapart
    exact ⟨m', hcopied, hgc, hvext 2 _ (fun _ => twoBytes_vsetvli) 4 (by decide)⟩
  · exact (copy_means_the_same (fun p => p.setWidth 8) 0x1001 0x1000 3).2
      (by unfold Unwrapped; decide) (by unfold Unwrapped; decide)

end Rv64Hook
