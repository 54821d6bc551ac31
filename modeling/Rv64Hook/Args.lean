import Rv64Hook.RegisterContext

/-! `Args`, which walks over the arguments of a call. -/
namespace Rv64Hook
open ByteMem Rv64 Lp64d

/-- The cursor over integer registers, floating-point registers and the stack, and the pair for a
wide argument that is split. -/
structure Args where
  sp : Word
  x : ℕ := 0
  f : ℕ := 0
  memory0 : Word
  memory1 : Word

/-- What `next` returns: the address of a slot, of the stack, or of `memory0_`. -/
inductive Pointer where
  | x (r : Reg)
  | f (r : Reg)
  | stack (addr : Word)
  | memory0

/-- A slot, its low bytes overwritten. -/
def writeLow {n : ℕ} (slot : Word) (v : BitVec n) : Word := slot >>> n <<< n ||| v.setWidth 64

namespace Args

/-- The constructor; the pair is not initialised. -/
def init (s : HandlerState) (memory0 memory1 : Word) : Args where
  sp := s.sp
  memory0 := memory0
  memory1 := memory1

/-- `next<T, kConst>` -/
def next (kConst : Bool) (s : HandlerState) (a : Args) : ArgType → Pointer × Args
  | .scalar t =>
    if t.isFloat = true ∧ a.f ≤ 7 then
      (.f (argReg a.f), if kConst then a else { a with f := a.f + 1 })
    else if a.x ≤ 7 then (.x (argReg a.x), if kConst then a else { a with x := a.x + 1 })
    else (.stack a.sp, if kConst then a else { a with sp := a.sp + 8 })
  | .wide =>
    if a.x ≤ 7 then
      let x := a.x
      let a := if kConst then a else { a with x := a.x + 1 }
      if x < 7 then (.x (argReg x), a)
      else
        let a := { a with
          memory0 := s.ctx.x (argReg 7)
          memory1 := load 64 s.stack a.sp }
        (.memory0, if kConst then a else { a with sp := a.sp + 8 })
    else
      let sp := if kConst then a.sp else a.sp + 16
      (.stack sp, { a with sp := sp })

/-- `*p` -/
def read (s : HandlerState) (a : Args) (p : Pointer) : (t : ArgType) → BitVec t.bits
  | .scalar t =>
    match p with
    | .x r => (s.ctx.x r).setWidth t.bits
    | .f r => (s.ctx.f r).setWidth t.bits
    | .stack addr => load t.bits s.stack addr
    | .memory0 => a.memory0.setWidth t.bits
  | .wide =>
    match p with
    | .x r => s.ctx.x (r + 1) ++ s.ctx.x r
    | .f r => s.ctx.f (r + 1) ++ s.ctx.f r
    | .stack addr => load 128 s.stack addr
    | .memory0 => a.memory1 ++ a.memory0

/-- `*p = value`, for a pointer to the context or to the stack. -/
def write (s : HandlerState) (p : Pointer) (t : ArgType) (v : BitVec t.bits) : HandlerState :=
  match t, v with
  | .scalar t, (v : BitVec t.bits) =>
    match p with
    | .x r => { s with ctx := { s.ctx with
        x := Function.update s.ctx.x r (writeLow (s.ctx.x r) v) } }
    | .f r => { s with ctx := { s.ctx with
        f := Function.update s.ctx.f r (writeLow (s.ctx.f r) v) } }
    | .stack addr => { s with stack := store s.stack addr (toBytes (t.bits / 8) v) }
    | .memory0 => s
  | .wide, (v : BitVec 128) =>
    match p with
    | .x r => { s with ctx := { s.ctx with
        x := Function.update (Function.update s.ctx.x r (v.extractLsb' 0 64)) (r + 1)
          (v.extractLsb' 64 64) } }
    | .f r => { s with ctx := { s.ctx with
        f := Function.update (Function.update s.ctx.f r (v.extractLsb' 0 64)) (r + 1)
          (v.extractLsb' 64 64) } }
    | .stack addr => { s with stack := store s.stack addr (toBytes 16 v) }
    | .memory0 => s

/-- `get<T, kConst>` -/
def get (kConst : Bool) (s : HandlerState) (a : Args) (t : ArgType) : BitVec t.bits × Args :=
  let (p, a) := a.next kConst s t
  (read s a p t, a)

/-- `set<T, kConst>` -/
def set (kConst : Bool) (s : HandlerState) (a : Args) (t : ArgType) (v : BitVec t.bits) :
    HandlerState × Args :=
  let (p, a) := a.next kConst s t
  match t, p, v with
  | .wide, .memory0, (v : BitVec 128) =>
    let addr := if kConst then a.sp else a.sp - 8
    ({ ctx := { s.ctx with x := Function.update s.ctx.x (argReg 7) (v.extractLsb' 0 64) }
       stack := store s.stack addr (toBytes 8 (v.extractLsb' 64 64)) }, a)
  | t, p, v => (write s p t v, a)

/-- The walk past arguments of these types. -/
def walk (s : HandlerState) : Args → List ArgType → Args
  | a, [] => a
  | a, t :: ts => walk s (a.next false s t).2 ts

/-- `skip<T>` -/
def skip (s : HandlerState) (t : ArgType) : Args → ℕ → Args
  | a, 0 => a
  | a, n + 1 => skip s t (a.next false s t).2 n

/-- To skip is to walk. -/
theorem skip_eq_walk (s : HandlerState) (t : ArgType) (a : Args) (n : ℕ) :
    a.skip s t n = a.walk s (List.replicate n t) := by
  induction n generalizing a with
  | zero => rfl
  | succ n ih => exact ih _

end Args

/-! ### Where arguments are -/

/-- The value of an argument, where the convention passes it. -/
def argValue (s : HandlerState) (l : Location) : (t : ArgType) → BitVec t.bits
  | .scalar t =>
    match l with
    | .gpr i | .pair i => (s.ctx.x (argReg i)).setWidth t.bits
    | .fpr i => (s.ctx.f (argReg i)).setWidth t.bits
    | .stack o | .split o => load t.bits s.stack (s.sp + BitVec.ofNat 64 o)
  | .wide =>
    match l with
    | .gpr i | .pair i => s.ctx.x (argReg (i + 1)) ++ s.ctx.x (argReg i)
    | .fpr i => s.ctx.f (argReg (i + 1)) ++ s.ctx.f (argReg i)
    | .stack o => load 128 s.stack (s.sp + BitVec.ofNat 64 o)
    | .split o => load 64 s.stack (s.sp + BitVec.ofNat 64 o) ++ s.ctx.x (argReg 7)

/-- The pointer leads to the location; of a split argument, to a copy of its halves. -/
def Designates (s : HandlerState) (r : Pointer × Args) : Location → Prop
  | .gpr i | .pair i => r.1 = .x (argReg i)
  | .fpr i => r.1 = .f (argReg i)
  | .stack o => r.1 = .stack (s.sp + BitVec.ofNat 64 o)
  | .split o => r.1 = .memory0 ∧ r.2.memory0 = s.ctx.x (argReg 7) ∧
      r.2.memory1 = load 64 s.stack (s.sp + BitVec.ofNat 64 o)

/-- Two states of `Args` at the same position. -/
def SamePosition (a b : Args) : Prop := a.sp = b.sp ∧ a.x = b.x ∧ a.f = b.f

/-- An argument between others: `next` finds it, a constant `next` or `get` reads the same without a
step, and what is set is found again by another walk, with the other arguments as they were. -/
structure ArgWorks (s : HandlerState) (memory0 memory1 : Word) (pre : List ArgType) (t : ArgType)
    (post : List ArgType) : Prop where
  designates : Designates s (((Args.init s memory0 memory1).walk s pre).next false s t)
    (assign (Cursor.after {} pre) t).1
  const : ∀ a, a = (Args.init s memory0 memory1).walk s pre →
    (a.next true s t).1 = (a.next false s t).1 ∧ (a.get true s t).1 = (a.get false s t).1 ∧
      SamePosition (a.next true s t).2 a
  set : ∀ kConst v s', s' = (((Args.init s memory0 memory1).walk s pre).set kConst s t v).1 →
    (((Args.init s' memory0 memory1).walk s' pre).get false s' t).1 = v ∧
      (∀ p ∈ pre.zip (locations {} pre), argValue s' p.2 p.1 = argValue s p.2 p.1) ∧
      ∀ p ∈ post.zip (locations (assign (Cursor.after {} pre) t).2 post),
        argValue s' p.2 p.1 = argValue s p.2 p.1

/-- No wide argument is on the stack, and behind one in two registers all are in floating-point
registers. -/
def Walkable (c : Cursor) (ts : List ArgType) : Prop :=
  (∀ p ∈ ts.zip (locations c ts), p.1 = .wide → p.2.isStack = false) ∧
    (locations c ts).Pairwise fun l k => l.isPair = true → k.isFpr = true

/-! ### The walk and the convention -/

section Walk
variable {s s' : HandlerState} {a b : Args} {c : Cursor} {t : ArgType} {ts pre post : List ArgType}

theorem argReg_inj {i j : ℕ} (hi : i < 8) (hj : j < 8) : argReg i = argReg j ↔ i = j := by
  have h : ∀ m n : Fin 8, argReg m.val = argReg n.val ↔ m.val = n.val := by decide
  exact h ⟨i, hi⟩ ⟨j, hj⟩

theorem argReg_succ {i : ℕ} (hi : i < 8) : argReg i + 1 = argReg (i + 1) ∧ argReg i ≠ 2 ∧
    argReg (i + 1) ≠ 2 := by
  have h : ∀ m : Fin 8, argReg m.val + 1 = argReg (m.val + 1) ∧ argReg m.val ≠ 2 ∧
      argReg (m.val + 1) ≠ 2 := by decide
  exact h ⟨i, hi⟩

/-- The walk is where the convention is. -/
structure Tracks (s : HandlerState) (a : Args) (c : Cursor) : Prop where
  f : a.f = c.f
  x : a.x = c.x
  le : c.x ≤ 8
  sp : a.sp = s.sp + BitVec.ofNat 64 c.stack

/-- The walk is one integer register behind the convention. -/
structure Lags (a : Args) (c : Cursor) : Prop where
  f : a.f = c.f
  x : a.x + 1 = c.x
  le : c.x ≤ 8

theorem tracks_init (s : HandlerState) (memory0 memory1 : Word) :
    Tracks s (Args.init s memory0 memory1) {} :=
  ⟨rfl, rfl, by decide, (BitVec.add_zero _).symm⟩

theorem add_ofNat_eight (p : Word) (n : ℕ) :
    p + BitVec.ofNat 64 n + 8 = p + BitVec.ofNat 64 (n + 8) := add_ofNat_add p n 8

/-- One step of the walk, where it is with the convention. -/
theorem next_tracks (h : Tracks s a c) (hwide : t = .wide → (assign c t).1.isStack = false) :
    Designates s (a.next false s t) (assign c t).1 ∧
      ((assign c t).1.isPair = false → Tracks s (a.next false s t).2 (assign c t).2) ∧
      ((assign c t).1.isPair = true → Lags (a.next false s t).2 (assign c t).2) := by
  obtain ⟨sp, x, f, m0, m1⟩ := a
  obtain ⟨hf, hx, hle, hsp⟩ := h
  dsimp only at hf hx hle hsp
  subst hf hx hsp
  unfold Args.next assign at *
  cases t with
  | scalar t =>
    have hlt : ∀ n, (n ≤ 7) = (n < 8) := fun n => propext Nat.lt_succ_iff.symm
    dsimp only
    simp only [hlt, Bool.false_eq_true, if_false]
    by_cases h1 : t.isFloat = true ∧ c.f < 8
    · simp only [if_pos h1]
      exact ⟨rfl, fun _ => ⟨rfl, rfl, hle, rfl⟩, nofun⟩
    · by_cases h2 : c.x < 8
      · simp only [if_neg h1, if_pos h2]
        exact ⟨rfl, fun _ => ⟨rfl, rfl, h2, rfl⟩, nofun⟩
      · simp only [if_neg h1, if_neg h2]
        exact ⟨rfl, fun _ => ⟨rfl, rfl, hle, add_ofNat_eight _ _⟩, nofun⟩
  | wide =>
    dsimp only at hwide ⊢
    by_cases h7 : c.x < 7
    · simp only [if_pos h7, if_pos (Nat.le_of_lt h7), Bool.false_eq_true, if_false]
      exact ⟨rfl, nofun, fun _ => ⟨rfl, rfl, Nat.succ_lt_succ h7⟩⟩
    · by_cases heq : c.x = 7
      · simp only [if_neg h7, if_pos heq, if_pos heq.le, Bool.false_eq_true, if_false]
        exact ⟨⟨rfl, rfl, rfl⟩, fun _ => ⟨rfl, by rw [heq], le_rfl, add_ofNat_eight _ _⟩, nofun⟩
      · simp only [if_neg h7, if_neg heq] at hwide
        exact absurd (hwide trivial) nofun

/-- On the stack, `next` is a slot too far for a wide argument. -/
theorem next_wide_stack (h : Tracks s a c) (hstack : (assign c .wide).1.isStack = true) :
    ¬ Designates s (a.next false s .wide) (assign c .wide).1 := by
  have h7 : ¬ c.x < 7 := fun h7 => by
    unfold assign at hstack
    simp only [if_pos h7] at hstack
    cases hstack
  have heq : c.x ≠ 7 := fun heq => by
    unfold assign at hstack
    simp only [if_neg h7, if_pos heq] at hstack
    cases hstack
  have hx : ¬ a.x ≤ 7 := by
    rw [h.x]
    omega
  unfold Args.next assign
  dsimp only
  rw [if_neg hx, if_neg h7, if_neg heq]
  intro heq
  obtain ⟨hle, hlt⟩ := le_alignUp16 c.stack
  have hstep := congrArg (· - (s.sp + BitVec.ofNat 64 c.stack)) (Pointer.stack.inj heq)
  rw [if_neg Bool.false_ne_true, h.sp] at hstep
  have halign : s.sp + BitVec.ofNat 64 (alignUp16 c.stack) - (s.sp + BitVec.ofNat 64 c.stack) =
      BitVec.ofNat 64 (alignUp16 c.stack - c.stack) := by
    conv_lhs => rw [← Nat.add_sub_cancel' hle, BitVec.ofNat_add, ← BitVec.add_assoc]
    rw [BitVec.add_comm, BitVec.add_sub_cancel]
  rw [halign, BitVec.add_comm, BitVec.add_sub_cancel] at hstep
  have hnat := congrArg BitVec.toNat hstep
  rw [BitVec.toNat_ofNat] at hnat
  change 16 = _ at hnat
  omega

/-- Behind a pair, `next` is right for floating-point registers and for nothing else. -/
theorem next_lags (h : Lags a c) :
    (Designates s (a.next false s t) (assign c t).1 ↔ (assign c t).1.isFpr = true) ∧
      ((assign c t).1.isFpr = true → Lags (a.next false s t).2 (assign c t).2) := by
  obtain ⟨sp, x, f, m0, m1⟩ := a
  obtain ⟨cx, cf, cs⟩ := c
  obtain ⟨hf, hx, hle⟩ := h
  dsimp only at hf hx hle
  subst hf hx
  have hx7 : x ≤ 7 := Nat.le_of_succ_le_succ hle
  unfold Args.next assign
  cases t with
  | scalar t =>
    have hlt : (f ≤ 7) = (f < 8) := propext Nat.lt_succ_iff.symm
    dsimp only
    simp only [hlt, Bool.false_eq_true, if_false, if_pos hx7]
    by_cases h1 : t.isFloat = true ∧ f < 8
    · simp only [if_pos h1]
      exact ⟨iff_of_true rfl rfl, fun _ => ⟨rfl, rfl, hle⟩⟩
    · simp only [if_neg h1]
      by_cases h2 : x + 1 < 8
      · simp only [if_pos h2]
        refine ⟨iff_of_false (fun heq => ?_) nofun, nofun⟩
        exact absurd ((argReg_inj (Nat.lt_succ_of_le hx7) h2).mp (Pointer.x.inj heq)) (by omega)
      · simp only [if_neg h2]
        exact ⟨iff_of_false nofun nofun, nofun⟩
  | wide =>
    dsimp only
    simp only [Bool.false_eq_true, if_false, if_pos hx7]
    by_cases h2 : x + 1 < 7
    · simp only [if_pos h2, if_pos (Nat.lt_of_succ_lt h2)]
      refine ⟨iff_of_false (fun heq => ?_) nofun, nofun⟩
      have hx8 : x < 8 := Nat.lt_succ_of_le hx7
      exact absurd ((argReg_inj hx8 (by omega)).mp (Pointer.x.inj heq)) (by omega)
    · by_cases h3 : x + 1 = 7
      · simp only [if_neg h2, if_pos h3, if_pos (show x < 7 by omega)]
        exact ⟨iff_of_false (fun heq => nomatch heq.1) nofun, nofun⟩
      · simp only [if_neg h2, if_neg h3, if_neg (show ¬ x < 7 by omega)]
        exact ⟨iff_of_false nofun nofun, nofun⟩

/-- Every `next` finds its argument. -/
def AllDesignated (s : HandlerState) (a : Args) (c : Cursor) (ts : List ArgType) : Prop :=
  ∀ pre t post, ts = pre ++ t :: post →
    Designates s ((a.walk s pre).next false s t) (assign (c.after pre) t).1

theorem allDesignated_nil (s : HandlerState) (a : Args) (c : Cursor) : AllDesignated s a c [] := by
  rintro (_ | ⟨_, _⟩) t post heq <;> cases heq

theorem allDesignated_cons :
    AllDesignated s a c (t :: ts) ↔ Designates s (a.next false s t) (assign c t).1 ∧
      AllDesignated s (a.next false s t).2 (assign c t).2 ts := by
  constructor
  · intro h
    refine ⟨h [] t ts rfl, fun pre u post heq => h (t :: pre) u post ?_⟩
    rw [heq, List.cons_append]
  · rintro ⟨hhead, htail⟩ (_ | ⟨u, pre⟩) v post heq
    · obtain ⟨rfl, -⟩ := List.cons.inj heq
      exact hhead
    · obtain ⟨rfl, heq'⟩ := List.cons.inj heq
      exact htail pre v post heq'

theorem allDesignated_lags (h : Lags a c) :
    AllDesignated s a c ts ↔ ∀ k ∈ locations c ts, k.isFpr = true := by
  induction ts generalizing a c with
  | nil => exact iff_of_true (allDesignated_nil s a c) nofun
  | cons t ts ih =>
    obtain ⟨hiff, hnext⟩ := next_lags (s := s) (t := t) h
    rw [allDesignated_cons, hiff]
    change _ ↔ ∀ k ∈ _ :: _, _
    rw [List.forall_mem_cons]
    exact and_congr_right fun hfpr => ih (hnext hfpr)

theorem walkable_cons :
    Walkable c (t :: ts) ↔ (t = .wide → (assign c t).1.isStack = false) ∧
      ((assign c t).1.isPair = true → ∀ k ∈ locations (assign c t).2 ts, k.isFpr = true) ∧
      Walkable (assign c t).2 ts := by
  unfold Walkable
  change (∀ p ∈ (_, _) :: _, _) ∧ List.Pairwise _ (_ :: _) ↔ _
  rw [List.forall_mem_cons, List.pairwise_cons]
  constructor
  · rintro ⟨⟨hhead, htail⟩, hpair, hrest⟩
    exact ⟨hhead, fun hp k hk => hpair k hk hp, htail, hrest⟩
  · rintro ⟨hhead, hpair, htail, hrest⟩
    exact ⟨⟨hhead, htail⟩, fun k hk hp => hpair hp k hk, hrest⟩

theorem walkable_of_isFpr (h : ∀ k ∈ locations c ts, k.isFpr = true) : Walkable c ts := by
  refine ⟨fun p hp _ => ?_, List.Pairwise.imp_of_mem (fun _ hk _ _ => h _ hk)
    (List.pairwise_of_forall fun _ _ => trivial)⟩
  have hfpr := h p.2 (List.of_mem_zip hp).2
  cases hl : p.2 with
  | fpr i => rfl
  | _ =>
    rw [hl] at hfpr
    cases hfpr

/-- Every argument is found exactly when the walk never leaves the convention. -/
theorem allDesignated_iff (h : Tracks s a c) : AllDesignated s a c ts ↔ Walkable c ts := by
  induction ts generalizing a c with
  | nil => exact iff_of_true (allDesignated_nil s a c) ⟨nofun, .nil⟩
  | cons t ts ih =>
    rw [allDesignated_cons, walkable_cons]
    by_cases hwide : t = .wide ∧ (assign c t).1.isStack = true
    · obtain ⟨rfl, hstack⟩ := hwide
      refine iff_of_false (fun hd => next_wide_stack h hstack hd.1) fun hw => ?_
      exact Bool.false_ne_true ((hw.1 rfl).symm.trans hstack)
    · have hnot : t = .wide → (assign c t).1.isStack = false := fun ht =>
        Bool.eq_false_iff.mpr fun hstack => hwide ⟨ht, hstack⟩
      obtain ⟨hd, htracks, hlags⟩ := next_tracks h hnot
      rw [and_iff_right hd, and_iff_right hnot]
      cases hpair : (assign c t).1.isPair with
      | false =>
        rw [ih (htracks hpair)]
        exact (and_iff_right nofun).symm
      | true =>
        rw [allDesignated_lags (hlags hpair)]
        exact ⟨fun hf => ⟨fun _ => hf, walkable_of_isFpr hf⟩, fun hf => hf.1 rfl⟩

/-! ### What is read and set -/

/-- A location for an argument of this type, but the stack for a wide one. -/
def Suits : ArgType → Location → Prop
  | .scalar _, .gpr _ | .scalar _, .fpr _ | .scalar _, .stack _ | .wide, .split _ => True
  | .wide, .pair i => i < 7
  | _, _ => False

theorem assign_fits (h : t = .wide → (assign c t).1.isStack = false) : Suits t (assign c t).1 := by
  unfold assign at *
  cases t with
  | scalar t =>
    dsimp only
    split_ifs <;> trivial
  | wide =>
    dsimp only at h ⊢
    split_ifs with h7 heq
    · exact h7
    · trivial
    · rw [if_neg h7, if_neg heq] at h
      exact absurd (h rfl) nofun

theorem exists_assign_of_mem_zip {p : ArgType × Location} (h : p ∈ ts.zip (locations c ts)) :
    ∃ d, p.2 = (assign d p.1).1 := by
  induction ts generalizing c with
  | nil => cases h
  | cons t ts ih =>
    rcases List.mem_cons.mp h with rfl | h'
    · exact ⟨c, rfl⟩
    · exact ih h'

/-- The walk before an argument that it finds. -/
def Position (s : HandlerState) (a : Args) (c : Cursor) (t : ArgType) : Prop :=
  Tracks s a c ∧ (t = .wide → (assign c t).1.isStack = false) ∨
    Lags a c ∧ (assign c t).1.isFpr = true

theorem lags_walk (h : Lags a c) (hfpr : ∀ k ∈ locations c (pre ++ t :: post), k.isFpr = true) :
    Lags (a.walk s pre) (c.after pre) ∧ (assign (c.after pre) t).1.isFpr = true := by
  induction pre generalizing a c with
  | nil => exact ⟨h, hfpr _ List.mem_cons_self⟩
  | cons u pre ih =>
    have hnext := (next_lags (s := s) (t := u) h).2 (hfpr _ List.mem_cons_self)
    exact ih hnext fun k hk => hfpr k (List.mem_cons_of_mem _ hk)

theorem position_of_walkable (h : Tracks s a c) (hw : Walkable c (pre ++ t :: post)) :
    Position s (a.walk s pre) (c.after pre) t := by
  induction pre generalizing a c with
  | nil => exact .inl ⟨h, (walkable_cons.mp hw).1⟩
  | cons u pre ih =>
    obtain ⟨hwide, hpair, hrest⟩ := walkable_cons.mp hw
    obtain ⟨-, htracks, hlags⟩ := next_tracks h hwide
    cases hp : (assign c u).1.isPair with
    | false => exact ih (htracks hp) hrest
    | true =>
      have hbehind := lags_walk (s := s) (hlags hp) (hpair hp)
      exact .inr hbehind

theorem Position.designates (h : Position s a c t) :
    Designates s (a.next false s t) (assign c t).1 := by
  rcases h with ⟨htracks, hwide⟩ | ⟨hlags, hfpr⟩
  · exact (next_tracks htracks hwide).1
  · exact (next_lags hlags).1.mpr hfpr

theorem Position.fits (h : Position s a c t) : Suits t (assign c t).1 := by
  rcases h with ⟨-, hwide⟩ | ⟨-, hfpr⟩
  · exact assign_fits hwide
  · refine assign_fits fun _ => ?_
    cases hl : (assign c t).1 with
    | fpr i => rfl
    | _ =>
      rw [hl] at hfpr
      cases hfpr

theorem Position.x_le (h : Position s a c t) (ht : t = .wide) : a.x ≤ 7 := by
  rcases h with ⟨htracks, hwide⟩ | ⟨hlags, -⟩
  · by_contra hx
    rw [htracks.x] at hx
    have hstack := hwide ht
    subst ht
    unfold assign at hstack
    simp only [if_neg (show ¬ c.x < 7 by omega), if_neg (show c.x ≠ 7 by omega)] at hstack
    cases hstack
  · exact Nat.le_of_succ_le_succ (hlags.x.le.trans hlags.le)

theorem Position.split_sp (h : Position s a c t) {o : ℕ} (hl : (assign c t).1 = .split o) :
    a.sp = s.sp + BitVec.ofNat 64 o := by
  rcases h with ⟨htracks, -⟩ | ⟨-, hfpr⟩
  · rw [htracks.sp]
    unfold assign at hl
    cases t with
    | scalar t =>
      dsimp only at hl
      split_ifs at hl
    | wide =>
      dsimp only at hl
      split_ifs at hl
      rw [Location.split.inj hl]
  · rw [hl] at hfpr
    cases hfpr

/-- A constant `next` or `get` does the same, without a step. -/
theorem next_const (hx : t = .wide → a.x ≤ 7) :
    (a.next true s t).1 = (a.next false s t).1 ∧ (a.get true s t).1 = (a.get false s t).1 ∧
      SamePosition (a.next true s t).2 a := by
  unfold Args.get Args.next
  cases t with
  | scalar t =>
    simp only [Bool.false_eq_true, if_true, if_false]
    split_ifs <;> exact ⟨rfl, rfl, rfl, rfl, rfl⟩
  | wide =>
    simp only [if_pos (hx rfl), Bool.false_eq_true, if_true, if_false]
    split_ifs <;> exact ⟨rfl, rfl, rfl, rfl, rfl⟩

theorem get_of_designates {l : Location} (hd : Designates s (a.next false s t) l)
    (hfit : Suits t l) : (a.get false s t).1 = argValue s l t := by
  unfold Args.get
  dsimp only
  rcases hn : a.next false s t with ⟨p, b⟩
  rw [hn] at hd
  cases t with
  | scalar t =>
    cases l with
    | gpr i | fpr i | stack o =>
      obtain rfl : p = _ := hd
      rfl
    | pair i | split o => exact hfit.elim
  | wide =>
    cases l with
    | pair i =>
      obtain rfl : p = _ := hd
      change s.ctx.x (argReg i + 1) ++ _ = s.ctx.x (argReg (i + 1)) ++ _
      rw [(argReg_succ (Nat.lt_succ_of_lt hfit)).1]
    | split o =>
      obtain ⟨rfl, h0, h1⟩ : p = _ ∧ b.memory0 = _ ∧ b.memory1 = _ := hd
      exact congrArg₂ (· ++ ·) h1 h0
    | gpr i | fpr i | stack o => exact hfit.elim

/-- What is written at a location is found there, and the rest of the registers and of the stack is
left alone. -/
structure SetAt (s s' : HandlerState) (l : Location) (t : ArgType) (v : BitVec t.bits) : Prop where
  sp : s'.sp = s.sp
  x : ∀ r, (∀ j, l.UsesX j → r ≠ argReg j) → s'.ctx.x r = s.ctx.x r
  f : ∀ r, (∀ j, l.UsesF j → r ≠ argReg j) → s'.ctx.f r = s.ctx.f r
  stack : ∀ b < 2 ^ 64, ¬ l.UsesStack b →
    s'.stack (s.sp + BitVec.ofNat 64 b) = s.stack (s.sp + BitVec.ofNat 64 b)
  value : argValue s' l t = v

theorem setWidth_writeLow {n : ℕ} (hn : n ≤ 64) (slot : Word) (v : BitVec n) :
    (writeLow slot v).setWidth n = v := by
  apply BitVec.eq_of_getLsbD_eq
  intro i hi
  have h64 : i < 64 := hi.trans_le hn
  simp [writeLow, hi, h64]

theorem append_extractLsb' (v : BitVec 128) :
    v.extractLsb' 64 64 ++ v.extractLsb' 0 64 = v := by
  apply BitVec.eq_of_getLsbD_eq
  intro i hi
  rw [BitVec.getLsbD_append]
  by_cases h : i < 64
  · simp [h]
  · have hadd : 64 + (i - 64) = i := by omega
    have hlt : i - 64 < 64 := by omega
    simp [h, hadd, hlt]

theorem bits_eq_eight (t : Scalar) : t.bits = 8 * (t.bits / 8) := by
  rcases t with ⟨_, w⟩ | _ | _ | _
  · change w.bits = 8 * (w.bits / 8)
    cases w <;> rfl
  all_goals rfl

theorem sp_update {x : Reg → Word} {i : ℕ} (hi : i < 8) (v : Word) :
    Function.update x (argReg i) v 2 = x 2 :=
  Function.update_of_ne (argReg_succ hi).2.1.symm v x

/-- A store of at most eight bytes at an offset from the stack pointer. -/
theorem store_stack_frame {m : Mem} {p : Word} {o b : ℕ} {bs : List Byte} (hbs : bs.length ≤ 8)
    (ho : o + 8 ≤ 2 ^ 64) (hb : b < 2 ^ 64) (hnot : ¬ (o ≤ b ∧ b < o + 8)) :
    store m (p + BitVec.ofNat 64 o) bs (p + BitVec.ofNat 64 b) = m (p + BitVec.ofNat 64 b) := by
  refine store_of_not_inRange fun hin => hnot ?_
  rw [inRange_offset (by omega), BitVec.add_comm, BitVec.add_sub_cancel, BitVec.toNat_ofNat,
    Nat.mod_eq_of_lt hb] at hin
  omega

theorem set_of_pointer {k : Bool} {p : Pointer} (hp : (a.next k s t).1 = p) (hne : p ≠ .memory0)
    (v : BitVec t.bits) : (a.set k s t v).1 = Args.write s p t v := by
  unfold Args.set
  rcases hn : a.next k s t with ⟨q, b⟩
  rw [hn] at hp
  obtain rfl : q = p := hp
  cases t with
  | scalar t => rfl
  | wide =>
    cases q with
    | memory0 => exact absurd rfl hne
    | _ => rfl

theorem set_split {k : Bool} (hp : (a.next k s .wide).1 = .memory0) (v : BitVec 128) :
    (a.set k s .wide v).1 =
      { ctx := { s.ctx with x := Function.update s.ctx.x (argReg 7) (v.extractLsb' 0 64) }
        stack := store s.stack a.sp (toBytes 8 (v.extractLsb' 64 64)) } := by
  have hsp : (if k then (a.next k s .wide).2.sp else (a.next k s .wide).2.sp - 8) = a.sp := by
    unfold Args.next at hp ⊢
    dsimp only at hp ⊢
    by_cases hx : a.x ≤ 7
    · rw [if_pos hx] at hp ⊢
      by_cases h7 : a.x < 7
      · rw [if_pos h7] at hp
        cases hp
      · rw [if_neg h7]
        cases k with
        | false => exact BitVec.add_sub_cancel _ _
        | true => rfl
    · rw [if_neg hx] at hp
      cases hp
  unfold Args.set
  rcases hn : a.next k s .wide with ⟨q, b⟩
  rw [hn] at hp hsp
  obtain rfl : q = .memory0 := hp
  change HandlerState.mk _ (store s.stack (if k then b.sp else b.sp - 8) _) = _
  rw [hsp]

/-- Writing through a pointer that leads to the location. -/
theorem write_setAt {l : Location} {p : Pointer} {b : Args} (hd : Designates s (p, b) l)
    (hfit : Suits t l) (hne : p ≠ .memory0) (hx : ∀ j, l.UsesX j → j < 8)
    (hstack : ∀ o, l = .stack o → o + 8 ≤ 2 ^ 64) (v : BitVec t.bits) :
    SetAt s (Args.write s p t v) l t v := by
  cases t with
  | scalar t =>
    cases l with
    | gpr i =>
      obtain rfl : p = _ := hd
      have hi : i < 8 := hx i rfl
      refine ⟨sp_update hi _, fun r hr => ?_, fun _ _ => rfl, fun _ _ _ => rfl, ?_⟩
      · exact Function.update_of_ne (hr i rfl) ..
      · change (Function.update s.ctx.x (argReg i) _ (argReg i)).setWidth t.bits = v
        rw [Function.update_self]
        exact setWidth_writeLow t.bits_le _ v
    | fpr i =>
      obtain rfl : p = _ := hd
      refine ⟨rfl, fun _ _ => rfl, fun r hr => ?_, fun _ _ _ => rfl, ?_⟩
      · exact Function.update_of_ne (hr i rfl) ..
      · change (Function.update s.ctx.f (argReg i) _ (argReg i)).setWidth t.bits = v
        rw [Function.update_self]
        exact setWidth_writeLow t.bits_le _ v
    | stack o =>
      obtain rfl : p = _ := hd
      have hlen : (toBytes (t.bits / 8) (v : BitVec t.bits)).length ≤ 8 := by
        have hle := t.bits_le
        rw [length_toBytes]
        omega
      refine ⟨rfl, fun _ _ => rfl, fun _ _ => rfl, fun b hb hnot => ?_, ?_⟩
      · exact store_stack_frame hlen (hstack o rfl) hb hnot
      · exact (holds_store s.stack _ (hlen.trans (by decide))).load_eq (bits_eq_eight t)
    | pair i | split o => exact hfit.elim
  | wide =>
    cases l with
    | pair i =>
      obtain rfl : p = _ := hd
      have hi : i < 7 := hfit
      have hsucc := (argReg_succ (Nat.lt_succ_of_lt hi)).1
      have hne' : argReg i ≠ argReg (i + 1) := fun heq =>
        absurd ((argReg_inj (Nat.lt_succ_of_lt hi) (Nat.succ_lt_succ hi)).mp heq)
          (Nat.succ_ne_self i).symm
      have hx' : (Args.write s (.x (argReg i)) .wide v).ctx.x = Function.update (Function.update
          s.ctx.x (argReg i) (BitVec.extractLsb' 0 64 (v : BitVec 128))) (argReg (i + 1))
          (BitVec.extractLsb' 64 64 (v : BitVec 128)) := by
        rw [← hsucc]
        rfl
      refine ⟨?_, fun r hr => ?_, fun _ _ => rfl, fun _ _ _ => rfl, ?_⟩
      · change (Args.write s (.x (argReg i)) .wide v).ctx.x 2 = _
        rw [hx', sp_update (Nat.succ_lt_succ hi), sp_update (Nat.lt_succ_of_lt hi)]
        rfl
      · rw [hx', Function.update_of_ne (hr (i + 1) (.inr rfl)),
          Function.update_of_ne (hr i (.inl rfl))]
      · unfold argValue
        dsimp only
        rw [hx', Function.update_self, Function.update_of_ne hne', Function.update_self]
        exact append_extractLsb' v
    | split o => exact absurd hd.1 hne
    | gpr i | fpr i | stack o => exact hfit.elim

/-- The two halves of a split argument. -/
theorem split_setAt {o : ℕ} {v : BitVec 128} (ho : o + 8 ≤ 2 ^ 64)
    (hx : s'.ctx.x = Function.update s.ctx.x (argReg 7) (v.extractLsb' 0 64))
    (hf : s'.ctx.f = s.ctx.f)
    (hm : s'.stack = store s.stack (s.sp + BitVec.ofNat 64 o) (toBytes 8 (v.extractLsb' 64 64))) :
    SetAt s s' (.split o) .wide v := by
  have hlen : (toBytes 8 (v.extractLsb' 64 64)).length ≤ 8 := (length_toBytes ..).le
  have hsp : s'.sp = s.sp := by
    unfold HandlerState.sp
    rw [hx, sp_update (by decide)]
  refine ⟨hsp, fun r hr => ?_, fun r _ => congrFun hf r, fun b hb hnot => ?_, ?_⟩
  · rw [hx]
    exact Function.update_of_ne (hr 7 rfl) ..
  · rw [hm]
    exact store_stack_frame hlen ho hb hnot
  · unfold argValue
    dsimp only
    rw [hsp, hm, (holds_store s.stack _ (hlen.trans (by decide))).load_eq rfl, hx,
      Function.update_self]
    exact append_extractLsb' v

/-- What `set` does, where the walk finds its argument. -/
theorem Position.set (h : Position s a c t) (hle : (assign c t).2.stack ≤ 2 ^ 64) (k : Bool)
    (v : BitVec t.bits) : SetAt s (a.set k s t v).1 (assign c t).1 t v := by
  have hd := h.designates
  have hfit := h.fits
  have hsplit := fun o => h.split_sp (o := o)
  have hbefore := (assign_spec c t).2.1
  have hx : ∀ j, (assign c t).1.UsesX j → j < 8 := fun j hj => assign_uses_lt (.inl hj)
  have hk : (a.next k s t).1 = (a.next false s t).1 := by
    cases k with
    | false => rfl
    | true => exact (next_const h.x_le).1
  generalize (assign c t).1 = l at hd hfit hsplit hbefore hx ⊢
  by_cases hne : (a.next false s t).1 = .memory0
  · cases l with
    | split o =>
      cases t with
      | scalar t => exact hfit.elim
      | wide =>
        rw [set_split (hk.trans hne) v, hsplit o rfl]
        exact split_setAt (hbefore.2.trans hle) rfl rfl rfl
    | gpr i | pair i | fpr i | stack o =>
      have heq := hne.symm.trans hd
      cases heq
  · rw [set_of_pointer hk hne v]
    refine write_setAt (b := (a.next false s t).2) hd hfit hne hx (fun o hl => ?_) v
    subst hl
    exact hbefore.trans hle

/-- An argument elsewhere keeps its value. -/
theorem SetAt.argValue_eq {l k : Location} {u : ArgType} {v : BitVec t.bits}
    (h : SetAt s s' l t v) (hfit : Suits u k)
    (hx : ∀ j, k.UsesX j → ¬ l.UsesX j) (hf : ∀ j, k.UsesF j → ¬ l.UsesF j)
    (hstack : ∀ b, k.UsesStack b → ¬ l.UsesStack b) (hbound : ∀ b, k.UsesStack b → b < 2 ^ 64)
    (hk : ∀ j, k.UsesX j ∨ k.UsesF j → j < 8) (hl : ∀ j, l.UsesX j ∨ l.UsesF j → j < 8) :
    argValue s' k u = argValue s k u := by
  have hregx : ∀ j, k.UsesX j → s'.ctx.x (argReg j) = s.ctx.x (argReg j) := fun j hj =>
    h.x _ fun i hi heq => by
      obtain rfl := (argReg_inj (hk j (.inl hj)) (hl i (.inl hi))).mp heq
      exact hx j hj hi
  have hregf : ∀ j, k.UsesF j → s'.ctx.f (argReg j) = s.ctx.f (argReg j) := fun j hj =>
    h.f _ fun i hi heq => by
      obtain rfl := (argReg_inj (hk j (.inr hj)) (hl i (.inr hi))).mp heq
      exact hf j hj hi
  have hload : ∀ (w o : ℕ), w ≤ 64 → (∀ b, o ≤ b → b < o + 8 → k.UsesStack b) →
      load w s'.stack (s'.sp + BitVec.ofNat 64 o) = load w s.stack (s.sp + BitVec.ofNat 64 o) := by
    intro w o hw huse
    rw [h.sp]
    refine load_congr fun i hi => ?_
    rw [add_ofNat_add]
    have hb := huse (o + i) (Nat.le_add_right o i) (by omega)
    exact h.stack _ (hbound _ hb) (hstack _ hb)
  cases u with
  | scalar u =>
    cases k with
    | gpr i => exact congrArg (·.setWidth u.bits) (hregx i rfl)
    | fpr i => exact congrArg (·.setWidth u.bits) (hregf i rfl)
    | stack o => exact hload u.bits o u.bits_le fun b h1 h2 => ⟨h1, h2⟩
    | pair i | split o => exact hfit.elim
  | wide =>
    cases k with
    | pair i => exact congrArg₂ (· ++ ·) (hregx (i + 1) (.inr rfl)) (hregx i (.inl rfl))
    | split o =>
      exact congrArg₂ (· ++ ·) (hload 64 o le_rfl fun b h1 h2 => ⟨h1, h2⟩) (hregx 7 rfl)
    | gpr i | fpr i | stack o => exact hfit.elim

/-- The frame of `set` for arguments on either side. -/
theorem SetAt.others {v : BitVec t.bits} (hwalk : Walkable {} (pre ++ t :: post))
    (hbound : (Cursor.after {} (pre ++ t :: post)).stack ≤ 2 ^ 64)
    (h : SetAt s s' (assign (Cursor.after {} pre) t).1 t v) :
    (∀ p ∈ pre.zip (locations {} pre), argValue s' p.2 p.1 = argValue s p.2 p.1) ∧
      ∀ p ∈ post.zip (locations (assign (Cursor.after {} pre) t).2 post),
        argValue s' p.2 p.1 = argValue s p.2 p.1 := by
  obtain ⟨hfrom, hbefore, -⟩ := assign_spec (Cursor.after {} pre) t
  have hlocs : locations {} (pre ++ t :: post) = locations {} pre ++
      (assign (Cursor.after {} pre) t).1 :: locations (assign (Cursor.after {} pre) t).2 post :=
    locations_append {} pre (t :: post)
  have hfits : ∀ p : ArgType × Location, p ∈ (pre ++ t :: post).zip (locations {}
      (pre ++ t :: post)) → Suits p.1 p.2 := fun p hp => by
    obtain ⟨d, hd⟩ := exists_assign_of_mem_zip hp
    rw [hd]
    exact assign_fits fun hw => by
      rw [← hd]
      exact hwalk.1 p hp hw
  have hzip : (pre ++ t :: post).zip (locations {} (pre ++ t :: post)) =
      pre.zip (locations {} pre) ++ (t, (assign (Cursor.after {} pre) t).1) ::
        post.zip (locations (assign (Cursor.after {} pre) t).2 post) := by
    rw [hlocs]
    exact List.zip_append (length_locations {} pre).symm
  rw [hzip] at hfits
  have hstack : ∀ k ∈ locations {} (pre ++ t :: post), ∀ b, k.UsesStack b → b < 2 ^ 64 := by
    intro k hk b hb
    have hle := before_of_mem hk
    cases k with
    | stack o => exact hb.2.trans_le (le_trans hle hbound)
    | split o => exact hb.2.trans_le (hle.2.trans hbound)
    | gpr i | fpr i | pair i => exact hb.elim
  constructor
  · intro p hp
    have hmem := (List.of_mem_zip hp).2
    have hall : p.2 ∈ locations {} (pre ++ t :: post) :=
      hlocs ▸ List.mem_append_left _ hmem
    obtain ⟨dx, df, ds⟩ := (before_of_mem hmem).disjoint hfrom
    exact h.argValue_eq (hfits p (List.mem_append_left _ hp)) dx df ds (hstack p.2 hall)
      (fun _ hj => uses_lt_of_mem hmem hj) fun _ hj => assign_uses_lt hj
  · intro p hp
    have hmem := (List.of_mem_zip hp).2
    have hall : p.2 ∈ locations {} (pre ++ t :: post) :=
      hlocs ▸ List.mem_append_right _ (List.mem_cons_of_mem _ hmem)
    obtain ⟨dx, df, ds⟩ := hbefore.disjoint (from_of_mem hmem)
    exact h.argValue_eq (hfits p (List.mem_append_right _ (List.mem_cons_of_mem _ hp)))
      (fun j hk hl => dx j hl hk) (fun j hk hl => df j hl hk) (fun b hk hl => ds b hl hk)
      (hstack p.2 hall) (fun _ hj => uses_lt_of_mem hmem hj) fun _ hj => assign_uses_lt hj

/-- Up to a wide argument on the stack, or in front of one that is not in a floating-point
register, an argument works. -/
theorem argWorks_of_walkable (memory0 memory1 : Word) (hwalk : Walkable {} (pre ++ t :: post))
    (hbound : (Cursor.after {} (pre ++ t :: post)).stack ≤ 2 ^ 64) :
    ArgWorks s memory0 memory1 pre t post := by
  have hpos : ∀ s, Position s ((Args.init s memory0 memory1).walk s pre) (Cursor.after {} pre) t :=
    fun s => position_of_walkable (tracks_init s memory0 memory1) hwalk
  have hafter : Cursor.after {} (pre ++ t :: post) = (assign (Cursor.after {} pre) t).2.after post :=
    cursor_after_append {} pre (t :: post)
  have hle : (assign (Cursor.after {} pre) t).2.stack ≤ 2 ^ 64 :=
    (le_after _ post).stack.trans (hafter ▸ hbound)
  refine ⟨(hpos s).designates, fun a ha => ?_, fun k v s' hs' => ?_⟩
  · subst ha
    exact next_const (hpos s).x_le
  · have hset := (hpos s).set hle k v
    rw [← hs'] at hset
    refine ⟨?_, hset.others hwalk hbound⟩
    rw [get_of_designates (hpos s').designates (hpos s').fits]
    exact hset.value

end Walk

/-- `Args` walks over the arguments as the convention passes them, a constant step reads the same,
and `set` is found again, exactly when no wide argument is on the stack and only floating-point
registers follow one in two registers. -/
theorem args_walk_iff (s : HandlerState) (memory0 memory1 : Word) (ts : List ArgType)
    (hbound : (Cursor.after {} ts).stack ≤ 2 ^ 64) :
    (∀ pre t post, ts = pre ++ t :: post → ArgWorks s memory0 memory1 pre t post) ↔
      Walkable {} ts := by
  constructor
  · intro h
    rw [← allDesignated_iff (tracks_init s memory0 memory1)]
    exact fun pre t post heq => (h pre t post heq).designates
  · rintro hwalk pre t post rfl
    exact argWorks_of_walkable memory0 memory1 hwalk hbound

theorem args_walk_iff_sample :
    ArgWorks zeroState 0 0 [.scalar (.int true .w32)] .wide [.scalar .double] :=
  (args_walk_iff zeroState 0 0 [.scalar (.int true .w32), .wide, .scalar .double]
    (by decide)).mpr (by unfold Walkable; decide) _ _ _ rfl

/-- Behind a wide argument in `a0` and `a1` the next one is expected in `a1` and `a2`, and on the
stack a wide argument is expected 16 bytes too far. -/
theorem args_walk_fails :
    (¬ ∀ pre t post, [ArgType.wide, .wide] = pre ++ t :: post →
      ArgWorks zeroState 0 0 pre t post) ∧
    ¬ ∀ pre t post, List.replicate 8 (ArgType.scalar .pointer) ++ [.wide] = pre ++ t :: post →
      ArgWorks zeroState 0 0 pre t post := by
  constructor
  · intro h
    have hd := (h [.wide] .wide [] rfl).designates
    have hreg : argReg 1 = argReg 2 := Pointer.x.inj hd
    exact absurd hreg (by decide)
  · intro h
    have hd := (h (List.replicate 8 (.scalar .pointer)) .wide [] rfl).designates
    have haddr : (16 : Word) = 0 := Pointer.stack.inj hd
    exact absurd haddr (by decide)

end Rv64Hook
