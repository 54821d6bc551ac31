import Rv64Hook.Relocator.Layout

/-! The relocator emits the pieces of `Relocator.Layout`: an invariant of the loop of `Relocate`,
and the block that comes out of it. -/
namespace Rv64Hook
open ByteMem Rv64 Berberis Berberis.Assembler RV64Relocator

/-- The piece for the instruction at an address. -/
def Translates (code : Mem) (address : Word) (x : Piece) : Prop :=
  match Rv64.decode (fetch code address) with
  | .auipc rd imm => x = .load rd (address + imm)
  | .branch cond rs1 rs2 offset => ∃ n, x = .branch n cond rs1 rs2 (address + offset)
  | .jal rd offset => x = .link rd (address + offset)
  | _ => x = .copy (bytesAt code address (lenAt code address))

/-- The pieces for consecutive instructions. -/
inductive Translation (code : Mem) : Word → List Piece → ℕ → Prop
  | nil (address : Word) : Translation code address [] 0
  | cons {address : Word} {x : Piece} {xs : List Piece} {n : ℕ} (hx : Translates code address x)
      (hxs : Translation code (address + BitVec.ofNat 64 (lenAt code address)) xs n) :
      Translation code address (x :: xs) (lenAt code address + n)

/-- The assembler has emitted these pieces and nothing else, no label of an address is bound yet,
and the addresses they load from are among the keys. -/
structure Emitted (pieces : List Piece) (a : Assembler) (keys : List Word) : Prop where
  code : a.code = rawOf pieces
  jumps : a.jumps = jumpsOf 0 pieces
  bound : AllBound a 0 pieces
  unbound : ∀ key, a.position (.address key) = kInvalid
  fresh : ∀ n ≥ a.madeLabels, a.position (.made n) = kInvalid
  mem_keys : ∀ x ∈ pieces, ∀ key ∈ x.keys, key ∈ keys
  nodup : keys.Nodup

theorem emitted_nil : Emitted [] {} [] where
  code := rfl
  jumps := rfl
  bound := trivial
  unbound _ := rfl
  fresh _ _ := rfl
  mem_keys _ hx := absurd hx List.not_mem_nil
  nodup := List.nodup_nil

/-! ### The parts of a piece -/

theorem mem_insertKey {k key : Word} {keys : List Word} :
    k ∈ insertKey key keys ↔ k = key ∨ k ∈ keys := by
  unfold insertKey
  split
  · rename_i h
    exact ⟨Or.inr, fun hk => hk.elim (fun he => he ▸ h) id⟩
  · exact List.mem_orderedInsert _

theorem nodup_insertKey {key : Word} {keys : List Word} (h : keys.Nodup) :
    (insertKey key keys).Nodup := by
  unfold insertKey
  split
  · exact h
  · rename_i hk
    exact (List.perm_orderedInsert _ key keys).nodup_iff.mpr (List.nodup_cons.mpr ⟨hk, h⟩)

section Parts
variable (a : Assembler) (rd rs1 rs2 : Reg) (label : Label)

theorem ld_code : (a.ld rd label).code = a.code ++ ldBytes rd 0 := by
  have ht : topPart 0 = 0 := by decide
  have hb : bottomPart 0 <<< 20 = 0 := by decide
  rw [ldBytes, ht, hb, ← List.append_assoc]
  rfl

theorem ld_jumps : (a.ld rd label).jumps = a.jumps ++ [⟨label, a.pc⟩] := rfl

theorem jalr_code : (a.jalr rd rs1 0).code = a.code ++ jalrBytes rd rs1 := rfl

theorem jalr_jumps : (a.jalr rd rs1 0).jumps = a.jumps := rfl

theorem jal_code : (a.jal 0 label).code = a.code ++ toBytes 4 0x0000006f#32 := rfl

theorem conditional_code (cond : BranchCond) :
    (conditional (branchWord cond) a rs1 rs2 label).code =
      a.code ++ toBytes 4 (bType (branchWord cond) rs1 rs2 0) := rfl

end Parts

theorem bind_eq_some {a b : Assembler} {label : Label} (h : a.bind label = some b) :
    b.code = a.code ∧ b.jumps = a.jumps ∧ b.madeLabels = a.madeLabels ∧
      b.position = Function.update a.position label (BitVec.ofNat 32 b.code.length) := by
  unfold Assembler.bind at h
  split at h
  · obtain rfl := Option.some.inj h
    exact ⟨rfl, rfl, rfl, rfl⟩
  · exact absurd h (by simp)

/-- A comparison with zero has the same encoding in both its forms. -/
theorem ite_zero_operand (opcode : BitVec 32) (a : Assembler) (src1 src2 : Reg) (label : Label) :
    (if src2 = 0 then conditional opcode a src1 0 label else conditional opcode a src1 src2 label) =
      conditional opcode a src1 src2 label := by
  split
  · rename_i h
    rw [h]
  · rfl

theorem branchTo_eq (a : Assembler) (opcode : BitVec 3) (src1 src2 : Reg) (label : Label) :
    branchTo a opcode src1 src2 label =
      (branchCond opcode).map fun cond => conditional (branchWord cond) a src1 src2 label := by
  simp only [branchTo, branchCond, beqz, bnez, bltz, bgez, Assembler.beq, Assembler.bne,
    Assembler.blt, Assembler.bge, Assembler.bltu, Assembler.bgeu, ite_zero_operand]
  split_ifs <;> rfl

namespace Emitted
variable {pieces : List Piece} {a b : Assembler} {keys : List Word}

theorem pc (h : Emitted pieces a keys) : a.pc = BitVec.ofNat 32 (rawOf pieces).length := by
  rw [Assembler.pc, h.code]

/-- A step that appends the raw bytes and the jumps of a piece emits it. -/
theorem append {x : Piece} {keys' : List Word} (h : Emitted pieces a keys)
    (hcode : b.code = a.code ++ x.raw)
    (hjumps : b.jumps = a.jumps ++ x.jumps (rawOf pieces).length)
    (hkeeps : Keeps a b) (hbound : x.Bound b (rawOf pieces).length)
    (hunbound : ∀ key, b.position (.address key) = kInvalid)
    (hfresh : ∀ n ≥ b.madeLabels, b.position (.made n) = kInvalid)
    (hkeys : ∀ key, key ∈ x.keys ∨ key ∈ keys → key ∈ keys') (hnodup : keys'.Nodup) :
    Emitted (pieces ++ [x]) b keys' where
  code := by rw [hcode, h.code, rawOf_append, rawOf_singleton]
  jumps := by
    rw [hjumps, h.jumps, jumpsOf_append]
    simp [jumpsOf]
  bound := by
    rw [allBound_append]
    exact ⟨h.bound.keeps hkeeps, by simpa using hbound, trivial⟩
  unbound := hunbound
  fresh := hfresh
  mem_keys y hy key hkey := by
    rcases List.mem_append.mp hy with hy | hy
    · exact hkeys key (Or.inr (h.mem_keys y hy key hkey))
    · rw [List.mem_singleton.mp hy] at hkey
      exact hkeys key (Or.inl hkey)
  nodup := hnodup

/-- The same for a step that binds no label. -/
theorem append_unlabelled {x : Piece} {keys' : List Word} (h : Emitted pieces a keys)
    (hcode : b.code = a.code ++ x.raw)
    (hjumps : b.jumps = a.jumps ++ x.jumps (rawOf pieces).length)
    (hposition : b.position = a.position) (hmade : a.madeLabels ≤ b.madeLabels)
    (hbound : x.Bound b (rawOf pieces).length)
    (hkeys : ∀ key, key ∈ x.keys ∨ key ∈ keys → key ∈ keys') (hnodup : keys'.Nodup) :
    Emitted (pieces ++ [x]) b keys' :=
  h.append hcode hjumps ⟨hmade, fun n _ => by rw [hposition]⟩ hbound
    (fun key => by rw [hposition, h.unbound key])
    (fun n hn => by rw [hposition, h.fresh n (hmade.trans hn)]) hkeys hnodup

theorem load (h : Emitted pieces a keys) (rd : Reg) (key : Word) :
    Emitted (pieces ++ [.load rd key]) (a.ld rd (.address key)) (insertKey key keys) :=
  h.append_unlabelled (ld_code a rd _) (by rw [ld_jumps, h.pc]; rfl) rfl le_rfl trivial
    (fun k hk => mem_insertKey.mpr (hk.imp_left List.mem_singleton.mp)) (nodup_insertKey h.nodup)

theorem link (h : Emitted pieces a keys) (rd : Reg) (target : Word) :
    Emitted (pieces ++ [.link rd target]) ((a.ld t3 (.address target)).jalr rd t3 0)
      (insertKey target keys) :=
  h.append_unlabelled (by rw [jalr_code, ld_code, List.append_assoc]; rfl)
    (by rw [jalr_jumps, ld_jumps, h.pc]; rfl) rfl le_rfl trivial
    (fun k hk => mem_insertKey.mpr (hk.imp_left List.mem_singleton.mp)) (nodup_insertKey h.nodup)

/-- Bytes copied, with any number of labels made that no jump refers to. -/
theorem copy (h : Emitted pieces a keys) {bytes : List Byte} (hcode : b.code = a.code ++ bytes)
    (hjumps : b.jumps = a.jumps) (hposition : b.position = a.position)
    (hmade : a.madeLabels ≤ b.madeLabels) : Emitted (pieces ++ [.copy bytes]) b keys :=
  h.append_unlabelled hcode (by rw [hjumps]; exact (List.append_nil _).symm) hposition hmade trivial
    (fun _ hk => hk.elim (fun hk => absurd hk List.not_mem_nil) id) h.nodup

end Emitted

namespace RV64Relocator

theorem compareAndBranch_emitted {pieces : List Piece} {r r' : RV64Relocator} {opcode : BitVec 3}
    {cond : BranchCond} {src1 src2 : Reg} {offset : BitVec 16}
    (h : Emitted pieces r.assembler r.addresses) (hc : branchCond opcode = some cond)
    (hok : r.compareAndBranch opcode src1 src2 offset = some r') :
    Emitted (pieces ++ [.branch r.assembler.madeLabels cond src1 src2
      (r.pc + offset.signExtend 64)]) r'.assembler r'.addresses ∧
      r'.state = (r.setNewState .kRelocated).state := by
  generalize htarget : r.pc + offset.signExtend 64 = target
  generalize hn : r.assembler.madeLabels = n
  simp only [compareAndBranch, makeLabel, branchTo_eq, hc, Option.map_some, htarget, hn,
    Option.bind_eq_bind, Option.bind_eq_some_iff] at hok
  obtain ⟨a1, h1, a2, h2, hr⟩ := hok
  obtain ⟨c1, j1, m1, p1⟩ := bind_eq_some h1
  obtain ⟨c2, j2, m2, p2⟩ := bind_eq_some h2
  have hcode1 : a1.code = rawOf pieces ++
      (toBytes 4 (bType (branchWord cond) src1 src2 0) ++ toBytes 4 0x0000006f#32) := by
    rw [c1, jal_code, conditional_code, h.code, List.append_assoc]
  have hcode2 : a2.code = a1.code ++ (ldBytes t3 0 ++ jalrBytes 0 t3) := by
    rw [c2, ← List.append_assoc, ← ld_code a1 t3 (.address target)]
    rfl
  have hpos1 : a1.position = Function.update r.assembler.position (.made (n + 1))
      (BitVec.ofNat 32 ((rawOf pieces).length + 8)) := by
    rw [p1, hcode1]
    simp
    rfl
  have hpos2 : a2.position = Function.update a1.position (.made n)
      (BitVec.ofNat 32 ((rawOf pieces).length + 20)) := by
    rw [p2, hcode2, hcode1]
    simp
    rfl
  have hmade : a2.madeLabels = n + 2 := m2.trans m1
  have hjumps : a2.jumps = r.assembler.jumps ++
      [⟨.made (n + 1), BitVec.ofNat 32 (rawOf pieces).length⟩,
        ⟨.made n, BitVec.ofNat 32 ((rawOf pieces).length + 4)⟩,
        ⟨.address target, BitVec.ofNat 32 ((rawOf pieces).length + 8)⟩] := by
    rw [j2]
    change a1.jumps ++ [⟨.address target, a1.pc⟩] = _
    rw [j1]
    change r.assembler.jumps ++ [⟨.made (n + 1), r.assembler.pc⟩] ++
      [⟨.made n, Assembler.pc _⟩] ++ _ = _
    rw [h.pc, Assembler.pc, Assembler.pc, hcode1, conditional_code, h.code]
    simp
  obtain rfl := Option.some.inj hr
  have hother : ∀ label, label ≠ .made n → label ≠ .made (n + 1) →
      a2.position label = r.assembler.position label := by
    intro label hl hl'
    rw [hpos2, hpos1, Function.update_of_ne hl, Function.update_of_ne hl']
  refine ⟨h.append ?_ ?_ ?_ ?_ ?_ ?_ ?_ ?_, rfl⟩
  · change a2.code = _
    rw [hcode2, hcode1, h.code]
    simp [Piece.raw]
  · exact hjumps
  · refine ⟨?_, fun m hm => hother _ ?_ ?_⟩
    · change r.assembler.madeLabels ≤ a2.madeLabels
      omega
    · simp only [ne_eq, Label.made.injEq]
      omega
    · simp only [ne_eq, Label.made.injEq]
      omega
  · refine ⟨?_, ?_, ?_⟩
    · change n + 1 < a2.madeLabels
      omega
    · change a2.position _ = _
      rw [hpos2, hpos1, Function.update_of_ne (by simp), Function.update_self]
    · change a2.position _ = _
      rw [hpos2, Function.update_self]
  · intro key
    exact (hother _ (by simp) (by simp)).trans (h.unbound key)
  · intro m hm
    change a2.madeLabels ≤ m at hm
    refine (hother _ ?_ ?_).trans (h.fresh m (by omega))
    · simp only [ne_eq, Label.made.injEq]
      omega
    · simp only [ne_eq, Label.made.injEq]
      omega
  · exact fun k hk => mem_insertKey.mpr (hk.imp_left List.mem_singleton.mp)
  · exact nodup_insertKey h.nodup

/-- A step of plain callbacks: it may make labels and change the state, and never leaves the
state saying that code was emitted. -/
structure Idle (r r' : RV64Relocator) : Prop where
  code : r'.assembler.code = r.assembler.code
  jumps : r'.assembler.jumps = r.assembler.jumps
  position : r'.assembler.position = r.assembler.position
  made : r.assembler.madeLabels ≤ r'.assembler.madeLabels
  addresses : r'.addresses = r.addresses
  state : r.state ≠ .kRelocated → r'.state ≠ .kRelocated

theorem Idle.refl (r : RV64Relocator) : Idle r r := ⟨rfl, rfl, rfl, le_rfl, rfl, id⟩

theorem Idle.trans {r s t : RV64Relocator} (h : Idle r s) (h' : Idle s t) : Idle r t :=
  ⟨h'.code.trans h.code, h'.jumps.trans h.jumps, h'.position.trans h.position,
    h.made.trans h'.made, h'.addresses.trans h.addresses, fun hr => h'.state (h.state hr)⟩

theorem idle_setNewState (r : RV64Relocator) {state : RelocationState}
    (h : state ≠ .kRelocated) : Idle r (r.setNewState state) := by
  refine ⟨rfl, rfl, rfl, le_rfl, rfl, fun _ => ?_⟩
  unfold setNewState
  dsimp only
  split
  · exact h
  · simp

theorem idle_undefined (r : RV64Relocator) : Idle r r.undefined := by
  unfold undefined
  split
  · exact idle_setNewState r (by simp)
  · exact idle_setNewState r (by simp)

/-- A branch with a reserved opcode only makes its labels. -/
theorem compareAndBranch_idle {r r' : RV64Relocator} {opcode : BitVec 3} {src1 src2 : Reg}
    {offset : BitVec 16} (hc : branchCond opcode = none)
    (hok : r.compareAndBranch opcode src1 src2 offset = some r') : Idle r r' := by
  let s : RV64Relocator :=
    { r with assembler := { r.assembler with madeLabels := r.assembler.madeLabels + 1 + 1 } }
  have hs : Idle r s := ⟨rfl, rfl, rfl, Nat.le_add_right _ 2, rfl, id⟩
  simp only [compareAndBranch, makeLabel, branchTo_eq, hc, Option.map_none,
    Option.some.injEq] at hok
  rw [← hok]
  exact hs.trans (idle_undefined s)

theorem consume_idle {r r' : RV64Relocator} {cb : Callback} (hcb : cb.plain)
    (hok : r.consume cb = some r') : Idle r r' := by
  cases cb with
  | auipc | jumpAndLink => exact hcb.elim
  | compareAndBranch opcode src1 src2 offset => exact compareAndBranch_idle hcb hok
  | undefined =>
    rw [← Option.some.inj hok]
    exact idle_undefined r
  | jumpAndLinkRegister dst base offset n =>
    let s : RV64Relocator :=
      { r with returned := r.returned || (dst = 0 && base = 1 && offset = 0) }
    have hs : Idle r s := ⟨rfl, rfl, rfl, le_rfl, rfl, id⟩
    rw [← Option.some.inj hok]
    exact hs.trans (idle_setNewState s (by simp))
  | _ =>
    rw [← Option.some.inj hok]
    exact idle_setNewState r (by simp)

theorem foldlM_consume_singleton (r : RV64Relocator) (cb : Callback) :
    [cb].foldlM consume r = r.consume cb := by
  rw [List.foldlM_cons]
  cases r.consume cb <;> rfl

theorem consumeAll_idle {r r' : RV64Relocator} {cbs : List Callback} (hcbs : Plain cbs)
    (hok : cbs.foldlM consume r = some r') : Idle r r' := by
  induction cbs generalizing r with
  | nil =>
    rw [← Option.some.inj hok]
    exact Idle.refl r
  | cons cb cbs ih =>
    obtain ⟨hcb, hcbs⟩ := List.forall_mem_cons.mp hcbs
    simp only [List.foldlM_cons, Option.bind_eq_bind, Option.bind_eq_some_iff] at hok
    obtain ⟨s, hs, hok⟩ := hok
    exact (consume_idle hcb hs).trans (ih hcbs hok)

/-- The halfwords copied are the bytes of the instruction. -/
theorem emit16_code (a : Assembler) (code : Mem) (address : Word) :
    (if lenAt code address = 4 then
      (a.emit16 (load 16 code address)).emit16 (load 16 code (address + 2))
      else a.emit16 (load 16 code address)).code =
        a.code ++ bytesAt code address (lenAt code address) := by
  have h2 : ∀ p, toBytes 2 (load 16 code p) = bytesAt code p 2 := fun p => toBytes_load rfl code p
  rcases lenAt_cases code address with hl | hl
  · rw [hl, if_neg (by decide), emit16, h2]
  · rw [hl, if_pos rfl, emit16, emit16, h2, h2, List.append_assoc]
    exact congrArg _ (bytesAt_add code address 2 2).symm

/-- The outcomes of a turn that goes on: an instruction copied, or one that emitted code. -/
theorem relocateInsn_cases {code : Mem} {address : Word} {r r' : RV64Relocator} {count : ℕ}
    (hok : relocateInsn code address r = .ok (r', count)) :
    ∃ s, (Decoder.decode code address).1.foldlM consume { r with pc := address } = some s ∧
      count = (Decoder.decode code address).2 ∧ r'.state = .kNone ∧
      r'.addresses = s.addresses ∧
      (s.state = .kSkipped ∧
          r'.assembler = { s.assembler with
            code := s.assembler.code ++ bytesAt code address (lenAt code address) } ∨
        s.state = .kRelocated ∧ r'.assembler = s.assembler) := by
  obtain ⟨-, hcount⟩ := Decoder.decode_reports code address
  unfold relocateInsn at hok
  generalize hd : Decoder.decode code address = d at hok hcount
  obtain ⟨callbacks, n⟩ := d
  dsimp only at hok hcount ⊢
  cases hf : callbacks.foldlM consume { r with pc := address } with
  | none =>
    rw [hf] at hok
    cases hok
  | some s =>
    rw [hf] at hok
    dsimp only at hok
    refine ⟨s, rfl, ?_⟩
    split at hok
    · rename_i hs
      obtain ⟨rfl, rfl⟩ := Prod.mk.inj (Except.ok.inj hok)
      refine ⟨rfl, rfl, rfl, Or.inl ⟨hs, ?_⟩⟩
      rw [← emit16_code, ← hcount]
      dsimp only
      split <;> rfl
    · split at hok
      · cases hok
      · rename_i hs
        obtain ⟨rfl, rfl⟩ := Prod.mk.inj (Except.ok.inj hok)
        exact ⟨rfl, rfl, rfl, Or.inr ⟨not_not.mp hs, rfl⟩⟩

/-- One turn of the loop emits the piece for its instruction. -/
theorem relocateInsn_emitted {code : Mem} {address : Word} {pieces : List Piece}
    {r r' : RV64Relocator} {count : ℕ} (h : Emitted pieces r.assembler r.addresses)
    (hs : r.state = .kNone) (hok : relocateInsn code address r = .ok (r', count)) :
    count = lenAt code address ∧ r'.state = .kNone ∧
      ∃ x, Translates code address x ∧ Emitted (pieces ++ [x]) r'.assembler r'.addresses := by
  obtain ⟨s, hf, hcount, hs', haddr, hout⟩ := relocateInsn_cases hok
  obtain ⟨hrep, hlen⟩ := Decoder.decode_reports code address
  refine ⟨hcount.trans hlen, hs', ?_⟩
  generalize (Decoder.decode code address).1 = callbacks at hrep hf
  have hplain : Plain callbacks → ∃ x, x = .copy (bytesAt code address (lenAt code address)) ∧
      Emitted (pieces ++ [x]) r'.assembler r'.addresses := by
    intro hp
    have hi := consumeAll_idle hp hf
    rcases hout with ⟨-, ha⟩ | ⟨hr, -⟩
    · refine ⟨_, rfl, ?_⟩
      rw [haddr, hi.addresses, ha]
      exact h.copy (by rw [hi.code]) hi.jumps hi.position hi.made
    · exact absurd hr (hi.state (by simp [hs]))
  have hemit : ∀ x, s.state = .kRelocated → Emitted (pieces ++ [x]) s.assembler s.addresses →
      Emitted (pieces ++ [x]) r'.assembler r'.addresses := by
    intro x hr hx
    rcases hout with ⟨hk, -⟩ | ⟨-, ha⟩
    · exact absurd (hk.symm.trans hr) (by simp)
    · rwa [ha, haddr]
  unfold Translates
  cases hi : Rv64.decode (fetch code address) with
  | auipc rd imm =>
    rw [hi] at hrep
    obtain ⟨imm', rfl, himm⟩ := hrep
    obtain rfl := Option.some.inj hf
    refine ⟨_, rfl, hemit _ (by simp [RV64Relocator.auipc, setNewState, hs]) ?_⟩
    rw [← himm]
    exact h.load rd _
  | jal rd offset =>
    rw [hi] at hrep
    obtain ⟨offset', n, rfl, hoff⟩ := hrep
    obtain rfl := Option.some.inj hf
    refine ⟨_, rfl, hemit _ (by simp [jumpAndLink, setNewState, hs]) ?_⟩
    rw [← hoff]
    exact h.link rd _
  | branch cond rs1 rs2 offset =>
    rw [hi] at hrep
    obtain ⟨opcode, offset', hc, rfl, hoff⟩ := hrep
    rw [foldlM_consume_singleton] at hf
    obtain ⟨he, hst⟩ := compareAndBranch_emitted (r := { r with pc := address }) h hc hf
    refine ⟨_, ⟨r.assembler.madeLabels, rfl⟩, hemit _ (hst.trans (by simp [setNewState, hs])) ?_⟩
    rw [← hoff]
    exact he
  | lui | jalr | ld | other =>
    rw [hi] at hrep
    exact hplain hrep

/-- The loop emits the pieces of the window. -/
theorem relocateWindow_emitted {code : Mem} {fuel : ℕ} {size : Int} {w w' : Window}
    {pieces : List Piece} (h : Emitted pieces w.relocator.assembler w.relocator.addresses)
    (hs : w.relocator.state = .kNone) (hok : relocateWindow code fuel size w = .ok w') :
    ∃ xs n, Translation code w.address xs n ∧ w'.overwriteSize = w.overwriteSize + n ∧
      w'.address = w.address + BitVec.ofNat 64 n ∧
      Emitted (pieces ++ xs) w'.relocator.assembler w'.relocator.addresses := by
  induction fuel generalizing size w pieces with
  | zero =>
    obtain rfl := Except.ok.inj hok
    exact ⟨[], 0, .nil _, rfl, (BitVec.add_zero _).symm, by rwa [List.append_nil]⟩
  | succ fuel ih =>
    unfold relocateWindow at hok
    split at hok
    · cases hi : relocateInsn code w.address w.relocator with
      | error e =>
        rw [hi] at hok
        cases hok
      | ok p =>
        obtain ⟨r, count⟩ := p
        rw [hi] at hok
        obtain ⟨hcount, hs', x, hx, he⟩ := relocateInsn_emitted h hs hi
        obtain ⟨xs, n, hxs, hsize, haddr, hemit⟩ := ih he hs' hok
        dsimp only at hxs hsize haddr
        rw [hcount] at hxs hsize haddr
        refine ⟨x :: xs, _, .cons hx hxs, by omega, ?_, ?_⟩
        · rw [haddr, BitVec.add_assoc, BitVec.ofNat_add_ofNat]
        · rwa [List.append_assoc] at hemit
    · obtain rfl := Except.ok.inj hok
      exact ⟨[], 0, .nil _, rfl, (BitVec.add_zero _).symm, by rwa [List.append_nil]⟩

/-- The pool holds every key, where its label is bound. -/
theorem emitAddresses_pool {a b : Assembler} {keys : List Word} (hnodup : keys.Nodup)
    (hok : keys.foldlM (fun a key => (a.bind (.address key)).map (·.emit64 key)) a = some b) :
    b.code = a.code ++ keys.flatMap (toBytes 8) ∧ b.jumps = a.jumps ∧ Keeps a b ∧
      (∀ key ∉ keys, b.position (.address key) = a.position (.address key)) ∧
      ∀ key ∈ keys, ∃ xs ys, keys.flatMap (toBytes 8) = xs ++ (toBytes 8 key ++ ys) ∧
        8 ∣ xs.length ∧
        b.position (.address key) = BitVec.ofNat 32 (a.code.length + xs.length) := by
  induction keys generalizing a with
  | nil =>
    obtain rfl := Option.some.inj hok
    exact ⟨by simp, rfl, ⟨le_rfl, fun _ _ => rfl⟩, fun _ _ => rfl, by simp⟩
  | cons key keys ih =>
    obtain ⟨hk, hnodup⟩ := List.nodup_cons.mp hnodup
    rw [List.foldlM_cons, Option.bind_eq_bind, Option.bind_eq_some_iff] at hok
    obtain ⟨c, hc, hok⟩ := hok
    obtain ⟨d, hd, rfl⟩ := Option.map_eq_some_iff.mp hc
    obtain ⟨dcode, djumps, dmade, dpos⟩ := bind_eq_some hd
    obtain ⟨hcode, hjumps, hkeeps, hother, hpool⟩ := ih hnodup hok
    have hother' : ∀ k ∉ key :: keys, b.position (.address k) = a.position (.address k) := by
      intro k hk'
      rw [List.mem_cons, not_or] at hk'
      obtain ⟨hne, hk'⟩ := hk'
      refine (hother k hk').trans ((congrFun dpos _).trans ?_)
      exact Function.update_of_ne (by simpa using hne) _ _
    refine ⟨?_, hjumps.trans djumps, ⟨dmade.ge.trans hkeeps.made, fun n hn => ?_⟩, hother', ?_⟩
    · rw [hcode, List.flatMap_cons, ← List.append_assoc, ← dcode]
      rfl
    · refine (hkeeps.position n (hn.trans_eq dmade.symm)).trans ((congrFun dpos _).trans ?_)
      exact Function.update_of_ne (by simp) _ _
    · intro k hk'
      rcases List.mem_cons.mp hk' with rfl | hk'
      · refine ⟨[], keys.flatMap (toBytes 8), rfl, dvd_zero 8, ?_⟩
        refine (hother k hk).trans ((congrFun dpos _).trans ?_)
        rw [Function.update_self, dcode]
        rfl
      · obtain ⟨xs, ys, hflat, hdvd, hpos⟩ := hpool k hk'
        refine ⟨toBytes 8 key ++ xs, ys, ?_, ?_, ?_⟩
        · rw [List.flatMap_cons, hflat, List.append_assoc]
        · rw [List.length_append, length_toBytes]
          exact (dvd_refl 8).add hdvd
        · have hlen : (d.emit64 key).code.length + xs.length =
              a.code.length + (toBytes 8 key ++ xs).length := by
            simp [emit64, dcode]
            omega
          rw [hpos, hlen]

end RV64Relocator

/-- Finalizing after the pool resolves the pieces. -/
theorem finalize_pool {ys : List Piece} {a b : Assembler} {keys : List Word}
    (h : Emitted ys a keys)
    (hb : keys.foldlM (fun a key => (a.bind (.address key)).map (·.emit64 key)) a = some b)
    (hlt : b.code.length < 2 ^ 32 - 1) :
    b.finalize =
      some { b with code := codeOf b.position 0 ys ++ keys.flatMap (toBytes 8) } := by
  obtain ⟨hcode, hjumps, hkeeps, -, hpool⟩ := emitAddresses_pool h.nodup hb
  rw [hcode, h.code, List.length_append] at hlt
  rw [h.code] at hpool
  have hbound : ∀ x ∈ ys, ∀ key ∈ x.keys, b.position (.address key) ≠ kInvalid := by
    intro x hx key hkey
    obtain ⟨us, vs, hflat, -, hpos⟩ := hpool key (h.mem_keys x hx key hkey)
    rw [hflat] at hlt
    simp only [List.length_append, length_toBytes] at hlt
    rw [hpos]
    exact ofNat_ne_kInvalid (by omega)
  have hres := resolveJumps_pieces (keys.flatMap (toBytes 8)) (List.length_nil) (by omega)
    (h.bound.keeps hkeeps) hbound
  rw [List.nil_append, List.nil_append] at hres
  unfold Assembler.finalize
  rw [hjumps, h.jumps, hcode, h.code, hres]
  rfl

/-- Finalizing after the pool gives the resolved pieces and the pool. -/
theorem finalize_emitted {ys : List Piece} {a b c : Assembler} {keys : List Word}
    (h : Emitted ys a keys)
    (hb : keys.foldlM (fun a key => (a.bind (.address key)).map (·.emit64 key)) a = some b)
    (hc : b.finalize = some c) (hlt : c.code.length < 2 ^ 32 - 1) :
    ∃ position, c.code = codeOf position 0 ys ++ keys.flatMap (toBytes 8) ∧
      ∀ key ∈ keys, ∃ us vs, keys.flatMap (toBytes 8) = us ++ (toBytes 8 key ++ vs) ∧
        8 ∣ us.length ∧ position (.address key) =
          BitVec.ofNat 32 ((codeOf position 0 ys).length + us.length) := by
  obtain ⟨-, -, -, -, hpool⟩ := emitAddresses_pool h.nodup hb
  obtain ⟨resolved, hr, hcode⟩ := Option.map_eq_some_iff.mp hc
  have hlen : c.code.length = b.code.length := by
    rw [← hcode]
    exact length_resolveJumps hr
  rw [finalize_pool h hb (hlen ▸ hlt)] at hc
  obtain rfl := Option.some.inj hc
  refine ⟨b.position, rfl, fun key hkey => ?_⟩
  rw [length_codeOf, ← h.code]
  exact hpool key hkey

/-- The block installed by a relocation: the resolved pieces of the window, the jump behind the
window, and the pool, which holds every address that the pieces load. -/
structure Installed (code : Mem) (address : Word) (r : Relocated) (xs : List Piece)
    (position : Label → BitVec 32) (pool : List Byte) : Prop where
  translation : Translation code address xs r.overwriteSize
  block : r.block =
    codeOf position 0 (xs ++ [.link 0 (address + BitVec.ofNat 64 r.overwriteSize)]) ++ pool
  keys : ∀ x ∈ xs ++ [.link 0 (address + BitVec.ofNat 64 r.overwriteSize)], ∀ key ∈ x.keys,
    ∃ ys zs, pool = ys ++ (toBytes 8 key ++ zs) ∧ 8 ∣ ys.length ∧
      position (.address key) = BitVec.ofNat 32
        ((codeOf position 0 (xs ++ [.link 0 (address + BitVec.ofNat 64 r.overwriteSize)])).length +
          ys.length)
  length : r.block.length < kHeapSize / 2

theorem orAbort_eq_ok {α : Type} {o : Option α} {a : α} (h : orAbort o = .ok a) : o = some a := by
  cases o with
  | none => cases h
  | some b => rw [Except.ok.inj h]

theorem bind_eq_ok {α β : Type} {x : Except Failure α} {f : α → Except Failure β} {b : β}
    (h : x >>= f = .ok b) : ∃ a, x = .ok a ∧ f a = .ok b := by
  cases x with
  | error e => cases h
  | ok a => exact ⟨a, rfl, h⟩

theorem relocate_cases {heaps : ℕ → Option Word} {code : Mem} {address : Word} {size : Int}
    {r : Relocated} (hok : relocate heaps code address size = .ok r) :
    ∃ w a b, relocateWindow code size.toNat size { address := address } = .ok w ∧
      (w.relocator.jumpAddress w.address).emitAddresses = some a ∧ a.finalize = some b ∧
      Memory.alloc heaps b.code.length = some r.backup ∧ r.overwriteSize = w.overwriteSize ∧
      r.block = b.code := by
  obtain ⟨w, hw, hok⟩ := bind_eq_ok hok
  obtain ⟨a, ha, hok⟩ := bind_eq_ok hok
  obtain ⟨b, hb, hok⟩ := bind_eq_ok hok
  obtain ⟨backup, hbackup, hok⟩ := bind_eq_ok hok
  have hlen : b.pc.toNat = b.code.length := by
    by_contra hne
    rw [if_neg hne] at hok
    cases hok
  rw [if_pos hlen] at hok
  obtain rfl := Except.ok.inj hok
  rw [hlen] at hbackup
  exact ⟨w, a, b, hw, orAbort_eq_ok ha, orAbort_eq_ok hb, orAbort_eq_ok hbackup, rfl, rfl⟩

theorem length_lt_of_alloc {heaps : ℕ → Option Word} {size : ℕ} {backup : Word}
    (h : Memory.alloc heaps size = some backup) : size < kHeapSize / 2 := by
  unfold Memory.alloc at h
  split at h
  · cases h
  · omega

/-- What a relocation that does not fail installs. -/
theorem relocate_installed {heaps : ℕ → Option Word} {code : Mem} {address : Word} {size : Int}
    {r : Relocated} (hok : relocate heaps code address size = .ok r) :
    ∃ xs position pool, Installed code address r xs position pool := by
  obtain ⟨w, a, b, hw, ha, hb, halloc, hsize, hblock⟩ := relocate_cases hok
  obtain ⟨xs, n, hxs, hn, haddr, he⟩ := relocateWindow_emitted emitted_nil rfl hw
  dsimp only at hxs hn haddr
  have hr : n = r.overwriteSize := by omega
  have htail : Emitted (xs ++ [.link 0 w.address]) _ _ := he.link 0 w.address
  have hlt := length_lt_of_alloc halloc
  have hk512 : kHeapSize / 2 = 524288 := rfl
  obtain ⟨position, hcode, hpool⟩ := finalize_emitted htail ha hb (by omega)
  rw [haddr, hr] at hcode hpool htail
  rw [hr] at hxs
  exact ⟨xs, position, _, hxs, hblock.trans hcode,
    fun x hx key hkey => hpool key (htail.mem_keys x hx key hkey), hblock ▸ hlt⟩

end Rv64Hook
