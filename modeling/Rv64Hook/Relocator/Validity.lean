import Rv64Hook.Berberis.Rv64gc
import Rv64Hook.Relocator.Internal

/-! Windows of valid instructions. They are relocated unless one of them makes the decoder fire two
callbacks. -/
namespace Rv64Hook
open ByteMem Rv64 Berberis Berberis.Assembler RV64Relocator Decoder

/-- The size of the code that is installed for a window. -/
def RV64Relocator.Window.installSize (w : Window) : ℕ :=
  w.relocator.assembler.code.length + 12 +
    8 * (insertKey w.address w.relocator.addresses).length

section Window
variable (code : Mem) (a : Word) (size : Int)

/-- The window is made of instructions of RV64GC. -/
def ValidWindow : Prop :=
  ∀ i, ((mark code a i).1 : Int) < size → ValidAt code (a + BitVec.ofNat 64 (mark code a i).1)

/-- Every call of `Decode` fires one callback, and every `GetState` lets the loop go on; with a block
for its code, `Relocate` returns a size that is not zero. -/
structure RelocatesWindow : Prop where
  single : ∀ i, ((mark code a i).1 : Int) < size →
    (decode code (a + BitVec.ofNat 64 (mark code a i).1)).1.length = 1
  relocates : ∃ w, relocateWindow code size.toNat size { address := a } = .ok w ∧
    ∀ heaps backup, Memory.alloc heaps w.installSize = some backup →
      ∃ r, relocate heaps code a size = .ok r ∧ r.overwriteSize ≠ 0

/-- The window has a no-operation among the forms of `c.addi`. -/
def HasAddiHint : Prop :=
  ∃ i, ((mark code a i).1 : Int) < size ∧ AddiHintAt code (a + BitVec.ofNat 64 (mark code a i).1)

end Window

section Turn
variable {code : Mem} {a : Word} {pieces : List Piece} {r : RV64Relocator}

/-- A branch is relocated: its labels are new. -/
theorem compareAndBranch_ok {opcode : BitVec 3} (src1 src2 : Reg) (offset : BitVec 16)
    (h : Emitted pieces r.assembler r.addresses) (hs : r.state = .kNone)
    (hc : branchCond opcode ≠ none) :
    ∃ s, r.compareAndBranch opcode src1 src2 offset = some s ∧ s.state = .kRelocated := by
  obtain ⟨cond, hcond⟩ := Option.ne_none_iff_exists'.mp hc
  have hsecond : r.assembler.position (.made (r.assembler.madeLabels + 1)) = kInvalid :=
    h.fresh _ (Nat.le_succ _)
  have hfirst : ∀ v, Function.update r.assembler.position (.made (r.assembler.madeLabels + 1)) v
      (.made r.assembler.madeLabels) = kInvalid := fun v =>
    (Function.update_of_ne (by simp) _ _).trans (h.fresh _ le_rfl)
  simp only [RV64Relocator.compareAndBranch, makeLabel, branchTo_eq, hcond, Option.map_some,
    Option.bind_eq_bind]
  simp only [Assembler.bind, jal, conditional, pushJump, emit32, jumpAddress, Assembler.ld, jr,
    jalr, hsecond, hfirst, if_true, Option.bind_some, Option.some.injEq, exists_eq_left']
  exact if_pos hs

/-- A callback that is served leaves the state for the loop to go on. -/
theorem consume_served {cb : Callback} (h : Emitted pieces r.assembler r.addresses)
    (hs : r.state = .kNone) (hcb : cb.served) :
    ∃ s, r.consume cb = some s ∧ (s.state = .kSkipped ∨ s.state = .kRelocated) := by
  have hskip : ∀ t : RV64Relocator, t.state = .kNone → t.skip.state = .kSkipped :=
    fun t ht => if_pos ht
  cases cb with
  | undefined => exact absurd hcb id
  | compareAndBranch opcode src1 src2 offset =>
    obtain ⟨s, hs', hstate⟩ := compareAndBranch_ok src1 src2 offset h hs hcb
    exact ⟨s, hs', .inr hstate⟩
  | auipc | jumpAndLink => exact ⟨_, rfl, .inr (if_pos hs)⟩
  | _ => exact ⟨_, rfl, .inl (hskip _ hs)⟩

/-- A turn goes on when its callbacks leave one of these states. -/
theorem relocateInsn_continues {s : RV64Relocator}
    (hf : (Decoder.decode code a).1.foldlM consume { r with pc := a } = some s)
    (hstate : s.state = .kSkipped ∨ s.state = .kRelocated) :
    ∃ r', relocateInsn code a r = .ok (r', (Decoder.decode code a).2) ∧
      r'.returned = s.returned := by
  unfold relocateInsn
  generalize Decoder.decode code a = d at hf
  obtain ⟨callbacks, count⟩ := d
  dsimp only at hf ⊢
  rw [hf]
  dsimp only
  rcases hstate with hstate | hstate
  · rw [if_pos hstate]
    exact ⟨_, rfl, rfl⟩
  · rw [if_neg (by simp [hstate]), if_neg (by simp [hstate])]
    exact ⟨_, rfl, rfl⟩

/-- A turn with one callback goes on. -/
theorem relocateInsn_ok {cb : Callback} (h : Emitted pieces r.assembler r.addresses)
    (hs : r.state = .kNone) (hd : (decode code a).1 = [cb]) (hcb : cb.served) :
    ∃ r' count, relocateInsn code a r = .ok (r', count) := by
  obtain ⟨s, hf, hstate⟩ := consume_served (r := { r with pc := a }) h hs hcb
  rw [← foldlM_consume_singleton, ← hd] at hf
  obtain ⟨r', hr, -⟩ := relocateInsn_continues hf hstate
  exact ⟨r', _, hr⟩

/-- The loop goes on to the end of the window. -/
theorem relocateWindow_ok {fuel : ℕ} {size : Int} {w : Window}
    (h : Emitted pieces w.relocator.assembler w.relocator.addresses)
    (hs : w.relocator.state = .kNone)
    (hmarks : ∀ i, ((mark code w.address i).1 : Int) < size →
      Single (decode code (w.address + BitVec.ofNat 64 (mark code w.address i).1)).1) :
    ∃ w', relocateWindow code fuel size w = .ok w' := by
  induction fuel generalizing size w pieces with
  | zero => exact ⟨w, rfl⟩
  | succ fuel ih =>
    unfold relocateWindow
    by_cases hpos : 0 < size
    · rw [if_pos hpos]
      obtain ⟨cb, hd, hcb⟩ := hmarks 0 (by simpa [mark] using hpos)
      rw [show (mark code w.address 0).1 = 0 from rfl, BitVec.add_zero] at hd
      obtain ⟨r', count, hok⟩ := relocateInsn_ok h hs hd hcb
      obtain ⟨hcount, hs', x, -, he⟩ := relocateInsn_emitted h hs hok
      rw [hok]
      refine ih he hs' fun i hi => ?_
      dsimp only at hi ⊢
      rw [hcount] at hi ⊢
      have hnext := hmarks (i + 1) (by rw [mark_shift]; omega)
      rwa [mark_shift, ← add_ofNat_add] at hnext
    · rw [if_neg hpos]
      exact ⟨w, rfl⟩

/-- The labels of all keys can be bound. -/
theorem emitAddresses_ok {b : Assembler} {keys : List Word} (hnodup : keys.Nodup)
    (hunbound : ∀ key ∈ keys, b.position (.address key) = kInvalid) :
    ∃ c, keys.foldlM (fun a key => (a.bind (.address key)).map (·.emit64 key)) b = some c := by
  induction keys generalizing b with
  | nil => exact ⟨b, rfl⟩
  | cons key keys ih =>
    obtain ⟨hnot, hnodup⟩ := List.nodup_cons.mp hnodup
    rw [List.foldlM_cons, Assembler.bind, if_pos (hunbound key List.mem_cons_self)]
    refine ih hnodup fun k hk => ?_
    refine Eq.trans ?_ (hunbound k (List.mem_cons_of_mem _ hk))
    refine Function.update_of_ne ?_ _ _
    rintro heq
    obtain rfl := Label.address.inj heq
    exact hnot hk

end Turn

section Relocates
variable {code : Mem} {a : Word} {size : Int}

/-- Behind the window, `Relocate` only needs a block for its code. -/
theorem relocate_of_window {w : Window} (heaps : ℕ → Option Word)
    (hw : relocateWindow code size.toNat size { address := a } = .ok w)
    (hlt : w.installSize < kHeapSize / 2) :
    ∃ block, relocate heaps code a size =
      (orAbort (Memory.alloc heaps w.installSize)).map fun backup =>
        ⟨w.overwriteSize, backup, block⟩ := by
  obtain ⟨xs, n, -, hn, -, he⟩ := relocateWindow_emitted emitted_nil rfl hw
  have htail := he.link 0 w.address
  obtain ⟨b, hb⟩ := emitAddresses_ok htail.nodup fun key _ => htail.unbound key
  obtain ⟨hcode, -⟩ := emitAddresses_pool htail.nodup hb
  have hlen : b.code.length = w.installSize := by
    rw [hcode, List.length_append, jalr_code, ld_code, List.length_flatMap]
    simp [RV64Relocator.Window.installSize]
    omega
  have hk512 : kHeapSize / 2 = 524288 := rfl
  obtain ⟨c, hc⟩ : ∃ c, b.finalize = some c := ⟨_, finalize_pool htail hb (by omega)⟩
  have hclen : c.code.length = w.installSize := by
    obtain ⟨resolved, hr, hcode⟩ := Option.map_eq_some_iff.mp hc
    rw [← hlen, ← hcode]
    exact length_resolveJumps hr
  have hpc : c.pc.toNat = c.code.length := toNat_ofNat_of_lt (by omega)
  have haddresses : (w.relocator.jumpAddress w.address).emitAddresses = some b := hb
  refine ⟨c.code, ?_⟩
  unfold relocate
  rw [hw]
  change (orAbort (w.relocator.jumpAddress w.address).emitAddresses >>= _) = _
  rw [haddresses]
  change (orAbort b.finalize >>= _) = _
  rw [hc]
  change (orAbort (Memory.alloc heaps c.pc.toNat) >>= _) = _
  rw [hpc, hclen]
  cases Memory.alloc heaps w.installSize with
  | none => rfl
  | some backup => exact if_pos rfl

/-- With one callback for each instruction the window is relocated. -/
theorem relocates_of_single (hsize : 0 < size) (hmarks : ∀ i, ((mark code a i).1 : Int) < size →
    Single (decode code (a + BitVec.ofNat 64 (mark code a i).1)).1) :
    RelocatesWindow code a size := by
  refine ⟨fun i hi => ?_, ?_⟩
  · obtain ⟨cb, hcb, -⟩ := hmarks i hi
    rw [hcb]
    rfl
  obtain ⟨w, hw⟩ : ∃ w, relocateWindow code size.toNat size { address := a } = .ok w :=
    relocateWindow_ok emitted_nil rfl hmarks
  refine ⟨w, hw, fun heaps backup halloc => ?_⟩
  obtain ⟨k, hk, hle, -⟩ := relocateWindow_size le_rfl hw
  obtain ⟨block, hr⟩ := relocate_of_window heaps hw (length_lt_of_alloc halloc)
  rw [halloc] at hr
  exact ⟨_, hr, by dsimp only at hk ⊢; omega⟩

/-- Valid windows are relocated exactly where they have no no-operation among the forms of
`c.addi`. -/
theorem relocatesWindow_iff (hsize : 0 < size) (hvalid : ValidWindow code a size) :
    RelocatesWindow code a size ↔ ¬ HasAddiHint code a size := by
  constructor
  · rintro h ⟨i, hi, hhint⟩
    have hone := h.single i hi
    rw [decode_addiHint hhint] at hone
    cases hone
  · intro h
    refine relocates_of_single hsize fun i hi => decode_single (hvalid i hi) fun hhint => ?_
    exact h ⟨i, hi, hhint⟩

/-- The only instruction of a window no longer than that. -/
theorem mark_of_lt {i : ℕ} (hsize : size ≤ lenAt code a) (hi : ((mark code a i).1 : Int) < size) :
    (mark code a i).1 = 0 := by
  cases i with
  | zero => rfl
  | succ i =>
    rw [mark_shift] at hi
    omega

end Relocates

section Samples
open Rv64gc

/-- `ret` -/
def retSample : Mem := store (fun _ => 0) 0x1000 (toBytes 2 0x8082#16)

/-- A function that returns at once has a valid window. -/
theorem relocates_retSample : RelocatesWindow retSample 0x1000 2 := by
  have hlen : lenAt retSample 0x1000 = 2 := by decide
  have hload : load 16 retSample 0x1000 = 0x8082 := by decide
  have hmark : ∀ i, ((mark retSample 0x1000 i).1 : Int) < 2 →
      (0x1000 : Word) + BitVec.ofNat 64 (mark retSample 0x1000 i).1 = 0x1000 := by
    intro i hi
    rw [mark_of_lt (by rw [hlen]; rfl) hi]
    rfl
  refine (relocatesWindow_iff (by decide) fun i hi => ?_).mpr ?_
  · rw [hmark i hi]
    unfold ValidAt
    rw [hlen, hload]
    exact Compressed.jump (by decide) (by decide) (by decide) (by decide)
  · rintro ⟨i, hi, -, hhint⟩
    rw [hmark i hi, hload] at hhint
    exact absurd hhint.1 (by decide)

/-- `c.nop` -/
def nopSample : Mem := store (fun _ => 0) 0x1000 (toBytes 2 0x0001#16)

/-- A window with a `c.nop` is refused. -/
theorem nop_not_relocates :
    ValidWindow nopSample 0x1000 2 ∧ ¬ RelocatesWindow nopSample 0x1000 2 ∧
      ∀ heaps, relocate heaps nopSample 0x1000 2 = .error .refused := by
  have hlen : lenAt nopSample 0x1000 = 2 := by decide
  have hload : load 16 nopSample 0x1000 = 0x0001 := by decide
  have hhint : AddiHintAt nopSample 0x1000 := by
    refine ⟨hlen, ?_⟩
    rw [hload]
    exact ⟨by decide, by decide, .inl (by decide)⟩
  refine ⟨fun i hi => ?_, fun h => ?_, fun heaps => rfl⟩
  · rw [mark_of_lt (by rw [hlen]; rfl) hi]
    change ValidAt nopSample 0x1000
    unfold ValidAt
    rw [hlen, hload]
    exact Compressed.addi (by decide) (by decide)
  · have hone := h.single 0 (by decide)
    change (decode nopSample 0x1000).1.length = 1 at hone
    rw [decode_addiHint hhint] at hone
    cases hone

end Samples
end Rv64Hook
