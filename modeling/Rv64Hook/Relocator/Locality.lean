import Rv64Hook.Relocator.Emission

/-! A relocation reads its window only, so that code with the same window has the same
relocation. -/
namespace Rv64Hook
open ByteMem Rv64 Berberis RV64Relocator

variable {code code' : Mem} {address : Word} {r r' : RV64Relocator} {count : ℕ}

theorem inRange_shift {a p : Addr} {k n : ℕ} (h : InRange (a + BitVec.ofNat 64 k) n p) :
    InRange a (k + n) p := by
  unfold InRange at h ⊢
  have hsum : p - a = BitVec.ofNat 64 k + (p - (a + BitVec.ofNat 64 k)) := by
    rw [← sub_sub, add_sub_cancel]
  have hmod : (BitVec.ofNat 64 k).toNat ≤ k := by
    rw [BitVec.toNat_ofNat]
    exact Nat.mod_le _ _
  rw [hsum, BitVec.toNat_add]
  have hle := Nat.mod_le ((BitVec.ofNat 64 k).toNat + (p - (a + BitVec.ofNat 64 k)).toNat) (2 ^ 64)
  omega

theorem load_window {w n : ℕ} (hw : w / 8 ≤ n)
    (hwindow : ∀ p, InRange address n p → code' p = code p) :
    load w code' address = load w code address := by
  apply load_congr
  intro i hi
  exact hwindow _ (inRange_add (hi.trans_le hw))

theorem two_le_decode (code : Mem) (address : Word) : 2 ≤ (Decoder.decode code address).2 := by
  unfold Decoder.decode
  dsimp only
  split <;> simp

theorem decode_window
    (hwindow : ∀ p, InRange address (Decoder.decode code address).2 p → code' p = code p) :
    Decoder.decode code' address = Decoder.decode code address := by
  have h16 : load 16 code' address = load 16 code address :=
    load_window (two_le_decode code address) hwindow
  unfold Decoder.decode at hwindow ⊢
  dsimp only at hwindow ⊢
  rw [h16]
  split
  · rfl
  · rename_i hlong
    rw [if_neg hlong] at hwindow
    have h32 : load 32 code' address = load 32 code address := load_window le_rfl hwindow
    rw [h32]

theorem relocateInsn_window (hok : relocateInsn code address r = .ok (r', count))
    (hwindow : ∀ p, InRange address count p → code' p = code p) :
    relocateInsn code' address r = .ok (r', count) := by
  obtain ⟨-, -, hcount, -⟩ := relocateInsn_cases hok
  have htwo := two_le_decode code address
  rw [← hcount] at htwo
  have hdecode : Decoder.decode code' address = Decoder.decode code address :=
    decode_window (hcount ▸ hwindow)
  have h16 : load 16 code' address = load 16 code address := load_window htwo hwindow
  have hhigh : (Decoder.decode code address).2 = 4 →
      load 16 code' (address + 2) = load 16 code (address + 2) := by
    intro hfour
    apply load_congr
    intro i hi
    rw [show address + 2 = address + BitVec.ofNat 64 2 from rfl, add_ofNat_add]
    exact hwindow _ (inRange_add (by omega))
  rw [← hok]
  unfold relocateInsn
  rw [hdecode, h16]
  generalize Decoder.decode code address = d at hhigh
  obtain ⟨callbacks, n⟩ := d
  dsimp only at hhigh ⊢
  by_cases hfour : n = 4
  · rw [hhigh hfour]
  · simp only [if_neg hfour]

/-- A pass over the window, with the bytes it has read. -/
theorem relocateWindow_window {fuel : ℕ} {size : Int} {w w' : Window}
    (hok : relocateWindow code fuel size w = .ok w') :
    ∃ n, w'.overwriteSize = w.overwriteSize + n ∧
      ∀ code', (∀ p, InRange w.address n p → code' p = code p) →
        relocateWindow code' fuel size w = .ok w' := by
  induction fuel generalizing size w with
  | zero => exact ⟨0, by rw [Except.ok.inj hok]; rfl, fun _ _ => hok⟩
  | succ fuel ih =>
    rw [relocateWindow] at hok
    split at hok
    · rename_i hsize
      obtain ⟨⟨r, count⟩, hinsn, hok⟩ := bind_eq_ok hok
      obtain ⟨n, hn, hrest⟩ := ih hok
      dsimp only at hn hrest
      refine ⟨count + n, by omega, fun code' hwindow => ?_⟩
      rw [relocateWindow, if_pos hsize, relocateInsn_window hinsn fun p hp =>
        hwindow p (hp.mono (Nat.le_add_right ..))]
      exact hrest code' fun p hp => hwindow p (inRange_shift hp)
    · rename_i hsize
      refine ⟨0, by rw [Except.ok.inj hok]; rfl, fun code' _ => ?_⟩
      rw [relocateWindow, if_neg hsize]
      exact hok

/-- Code with the same window has the same relocation. -/
theorem relocate_window {heaps : ℕ → Option Word} {size : Int} {x : Relocated}
    (hok : relocate heaps code address size = .ok x)
    (hwindow : ∀ p, InRange address x.overwriteSize p → code' p = code p) :
    relocate heaps code' address size = .ok x := by
  obtain ⟨w, _, _, hw, -, -, -, hsize, -⟩ := relocate_cases hok
  obtain ⟨n, hn, hsame⟩ := relocateWindow_window hw
  have hn' : n = x.overwriteSize := by
    dsimp only at hn
    omega
  have hw' := hsame code' (hn' ▸ hwindow)
  rw [← hok]
  unfold relocate
  rw [hw, hw']

/-! ### The block of a window -/

/-- A pass over the window ends at once, or it goes on behind an instruction. -/
theorem relocateWindow_cases {fuel : ℕ} {size : Int} {w v : Window}
    (hv : relocateWindow code fuel size w = .ok v) :
    v = w ∨ w.overwriteSize < v.overwriteSize ∧ ∃ n size' r count, n < fuel ∧
      relocateInsn code w.address w.relocator = .ok (r, count) ∧
      relocateWindow code n size'
        ⟨r, w.address + BitVec.ofNat 64 count, w.overwriteSize + count⟩ = .ok v := by
  cases fuel with
  | zero => exact .inl (Except.ok.inj hv).symm
  | succ fuel =>
    rw [relocateWindow] at hv
    split at hv
    · obtain ⟨⟨r, count⟩, hinsn, hrest⟩ := bind_eq_ok hv
      obtain ⟨-, -, hcount, -⟩ := relocateInsn_cases hinsn
      have htwo := two_le_decode code w.address
      obtain ⟨n, hn, -⟩ := relocateWindow_window hrest
      dsimp only at hn
      exact .inr ⟨by omega, fuel, _, r, count, Nat.lt_succ_self fuel, hinsn, hrest⟩
    · exact .inl (Except.ok.inj hv).symm

/-- Two passes that take as many bytes are the same. -/
theorem relocateWindow_unique {fuel fuel' : ℕ} {size size' : Int} {w v v' : Window}
    (hv : relocateWindow code fuel size w = .ok v)
    (hv' : relocateWindow code fuel' size' w = .ok v')
    (hsize : v.overwriteSize = v'.overwriteSize) : v = v' := by
  induction fuel using Nat.strong_induction_on generalizing size fuel' size' w with
  | _ fuel ih =>
    rcases relocateWindow_cases hv with rfl | ⟨hlt, n, k, r, count, hn, hinsn, hrest⟩ <;>
      rcases relocateWindow_cases hv' with rfl | ⟨hlt', n', k', r', count', -, hinsn', hrest'⟩
    · rfl
    · omega
    · omega
    · rw [hinsn] at hinsn'
      obtain ⟨rfl, rfl⟩ := Prod.mk.inj (Except.ok.inj hinsn')
      exact ih n hn hrest hrest'

/-- The window decides the block. -/
theorem relocate_block_unique {heaps heaps' : ℕ → Option Word} {size size' : Int}
    {x y : Relocated} (hx : relocate heaps code address size = .ok x)
    (hy : relocate heaps' code address size' = .ok y) (h : x.overwriteSize = y.overwriteSize) :
    x.block = y.block := by
  obtain ⟨w, a, b, hw, ha, hb, -, hsize, hblock⟩ := relocate_cases hx
  obtain ⟨w', a', b', hw', ha', hb', -, hsize', hblock'⟩ := relocate_cases hy
  obtain rfl := relocateWindow_unique hw hw' (by omega)
  obtain rfl := Option.some.inj (ha.symm.trans ha')
  obtain rfl := Option.some.inj (hb.symm.trans hb')
  exact hblock.trans hblock'.symm

end Rv64Hook
