import Mathlib

/-! Little-endian words in byte memories addressed by 64-bit words. -/
namespace ByteMem

abbrev Byte := BitVec 8
abbrev Addr := BitVec 64
abbrev Mem := Addr → Byte

/-- The `n` low bytes of a word, least significant first. -/
def toBytes {w : ℕ} : ℕ → BitVec w → List Byte
  | 0, _ => []
  | n + 1, v => v.setWidth 8 :: toBytes n (v >>> 8)

/-- The word of width `w` with these bytes, least significant first. -/
def ofBytes (w : ℕ) : List Byte → BitVec w
  | [] => 0
  | b :: bs => b.setWidth w ||| ofBytes w bs <<< 8

/-- The `n` bytes stored from address `a` on; addresses wrap. -/
def bytesAt (m : Mem) : Addr → ℕ → List Byte
  | _, 0 => []
  | a, n + 1 => m a :: bytesAt m (a + 1) n

/-- Memory `m` holds the bytes `bs` from address `a` on. -/
def Holds (m : Mem) (a : Addr) (bs : List Byte) : Prop := bytesAt m a bs.length = bs

instance (m : Mem) (a : Addr) (bs : List Byte) : Decidable (Holds m a bs) :=
  inferInstanceAs (Decidable (bytesAt m a bs.length = bs))

/-- Overwrite the bytes from address `a` on. -/
def store (m : Mem) (a : Addr) (bs : List Byte) : Mem :=
  fun p => bs.getD (p - a).toNat (m p)

def load (w : ℕ) (m : Mem) (a : Addr) : BitVec w := ofBytes w (bytesAt m a (w / 8))

/-- The address is one of the `n` from `base` on. -/
def InRange (base : Addr) (n : ℕ) (p : Addr) : Prop := (p - base).toNat < n

instance (base : Addr) (n : ℕ) (p : Addr) : Decidable (InRange base n p) :=
  inferInstanceAs (Decidable ((p - base).toNat < n))

@[simp] theorem length_toBytes {w : ℕ} (n : ℕ) (v : BitVec w) : (toBytes n v).length = n := by
  induction n generalizing v with
  | zero => rfl
  | succ n ih => simp [toBytes, ih]

@[simp] theorem length_bytesAt (m : Mem) (a : Addr) (n : ℕ) : (bytesAt m a n).length = n := by
  induction n generalizing a with
  | zero => rfl
  | succ n ih => simp [bytesAt, ih]

theorem toBytes_add {w : ℕ} (m n : ℕ) (v : BitVec w) :
    toBytes (m + n) v = toBytes m v ++ toBytes n (v >>> (8 * m)) := by
  induction m generalizing v with
  | zero => simp [toBytes]
  | succ m ih =>
    have hs : v >>> 8 >>> (8 * m) = v >>> (8 * (m + 1)) := by
      rw [← BitVec.shiftRight_add]
      congr 1
      omega
    rw [Nat.succ_add, toBytes, toBytes, List.cons_append, ih, hs]

theorem toBytes_setWidth {w k : ℕ} (n : ℕ) (v : BitVec w) (h : 8 * n ≤ k) :
    toBytes n (v.setWidth k) = toBytes n v := by
  induction n generalizing w k v with
  | zero => rfl
  | succ n ih =>
    have hb : (v.setWidth k).setWidth 8 = v.setWidth 8 := by
      rw [BitVec.setWidth_setWidth_of_le _ (by omega)]
    have ht : toBytes n (v.setWidth k >>> 8) = toBytes n (v >>> 8) := by
      rw [← ih (k := 8 * n) (v.setWidth k >>> 8) le_rfl, ← ih (k := 8 * n) (v >>> 8) le_rfl]
      congr 1
      apply BitVec.eq_of_getLsbD_eq
      intro i hi
      have hk : 8 + i < k := by omega
      simp [BitVec.getLsbD_setWidth, BitVec.getLsbD_ushiftRight, hk]
    rw [toBytes, toBytes, hb, ht]

theorem getLsbD_ofBytes_toBytes {w : ℕ} (n : ℕ) (v : BitVec w) (i : ℕ) :
    (ofBytes w (toBytes n v)).getLsbD i = (decide (i < 8 * n) && v.getLsbD i) := by
  induction n generalizing v i with
  | zero => simp [toBytes, ofBytes]
  | succ n ih =>
    by_cases hw : i < w
    · simp only [toBytes, ofBytes, BitVec.getLsbD_or, BitVec.getLsbD_setWidth,
        BitVec.getLsbD_shiftLeft, ih, BitVec.getLsbD_ushiftRight, hw, decide_true, Bool.true_and]
      by_cases h8 : i < 8
      · have h1 : i < 8 * (n + 1) := by omega
        simp [h8, h1]
      · have h1 : 8 + (i - 8) = i := by omega
        have h2 : (i - 8 < 8 * n) ↔ i < 8 * (n + 1) := by omega
        simp [h8, h1, h2]
    · simp [BitVec.getLsbD_of_ge _ i (by omega : w ≤ i)]

/-- Reading back the bytes of a word gives the word. -/
theorem ofBytes_toBytes {w n : ℕ} (v : BitVec w) (h : w ≤ 8 * n) :
    ofBytes w (toBytes n v) = v := by
  apply BitVec.eq_of_getLsbD_eq
  intro i hi
  have h1 : i < 8 * n := by omega
  simp [getLsbD_ofBytes_toBytes, h1]

theorem bytesAt_add (m : Mem) (a : Addr) (k n : ℕ) :
    bytesAt m a (k + n) = bytesAt m a k ++ bytesAt m (a + BitVec.ofNat 64 k) n := by
  induction k generalizing a with
  | zero => simp [bytesAt]
  | succ k ih =>
    have ha : a + 1 + BitVec.ofNat 64 k = a + BitVec.ofNat 64 (k + 1) := by
      rw [BitVec.add_assoc, BitVec.add_comm 1, ← BitVec.ofNat_add_ofNat]
      rfl
    rw [Nat.succ_add, bytesAt, bytesAt, ih, ha, List.cons_append]

theorem getElem?_bytesAt {m : Mem} {a : Addr} {n i : ℕ} (h : i < n) :
    (bytesAt m a n)[i]? = some (m (a + BitVec.ofNat 64 i)) := by
  induction n generalizing a i with
  | zero => omega
  | succ n ih =>
    cases i with
    | zero => simp [bytesAt]
    | succ i =>
      have ha : a + 1 + BitVec.ofNat 64 i = a + BitVec.ofNat 64 (i + 1) := by
        rw [BitVec.add_assoc, BitVec.add_comm 1, ← BitVec.ofNat_add_ofNat]
        rfl
      simp only [bytesAt, List.getElem?_cons_succ, ih (a := a + 1) (by omega : i < n), ha]

@[simp] theorem holds_nil (m : Mem) (a : Addr) : Holds m a [] := rfl

/-- A concatenation is held piece by piece. -/
theorem holds_append {m : Mem} {a : Addr} {xs ys : List Byte} :
    Holds m a (xs ++ ys) ↔ Holds m a xs ∧ Holds m (a + BitVec.ofNat 64 xs.length) ys := by
  unfold Holds
  rw [List.length_append, bytesAt_add]
  constructor
  · intro h
    exact List.append_inj h (length_bytesAt _ _ _)
  · rintro ⟨h1, h2⟩
    rw [h1, h2]

theorem Holds.eq_get {m : Mem} {a : Addr} {bs : List Byte} (h : Holds m a bs) {i : ℕ}
    (hi : i < bs.length) : m (a + BitVec.ofNat 64 i) = bs[i] := by
  have hg := getElem?_bytesAt (m := m) (a := a) hi
  rw [h, List.getElem?_eq_getElem hi] at hg
  exact (Option.some.inj hg).symm

theorem holds_of_get {m : Mem} {a : Addr} {bs : List Byte}
    (h : ∀ i, (hi : i < bs.length) → m (a + BitVec.ofNat 64 i) = bs[i]) : Holds m a bs := by
  apply List.ext_getElem?
  intro i
  by_cases hi : i < bs.length
  · rw [getElem?_bytesAt hi, h i hi, List.getElem?_eq_getElem hi]
  · rw [List.getElem?_eq_none (by simpa using hi), List.getElem?_eq_none (by simpa using hi)]

/-- A held word reads back, whatever bytes follow it. -/
theorem Holds.load_eq {w n : ℕ} {m : Mem} {a : Addr} {v : BitVec w} (hw : w = 8 * n)
    (h : Holds m a (toBytes n v)) : load w m a = v := by
  have hn : w / 8 = n := by omega
  unfold Holds at h
  rw [length_toBytes] at h
  rw [load, hn, h, ofBytes_toBytes v hw.le]

theorem load_congr {w : ℕ} {m m' : Mem} {a : Addr}
    (h : ∀ i < w / 8, m' (a + BitVec.ofNat 64 i) = m (a + BitVec.ofNat 64 i)) :
    load w m' a = load w m a := by
  unfold load
  congr 1
  apply List.ext_getElem?
  intro i
  by_cases hi : i < w / 8
  · rw [getElem?_bytesAt hi, getElem?_bytesAt hi, h i hi]
  · rw [List.getElem?_eq_none (by simpa using hi), List.getElem?_eq_none (by simpa using hi)]

theorem getLsbD_ofBytes {w : ℕ} (bs : List Byte) (i : ℕ) :
    (ofBytes w bs).getLsbD i = (decide (i < w) && (bs.getD (i / 8) 0).getLsbD (i % 8)) := by
  induction bs generalizing i with
  | nil => simp [ofBytes]
  | cons b bs ih =>
    simp only [ofBytes, BitVec.getLsbD_or, BitVec.getLsbD_setWidth, BitVec.getLsbD_shiftLeft, ih]
    by_cases h8 : i < 8
    · have hd : i / 8 = 0 := by omega
      have hm : i % 8 = i := by omega
      simp [h8, hd, hm]
    · have hd : i / 8 = (i - 8) / 8 + 1 := by omega
      have hm : i % 8 = (i - 8) % 8 := by omega
      have hb : b.getLsbD i = false := BitVec.getLsbD_of_ge _ _ (by omega)
      by_cases hw : i < w
      · have hw' : i - 8 < w := by omega
        simp [h8, hd, hm, hb, hw, hw']
      · simp [hw]

/-- A shorter load reads the low part of a longer one. -/
theorem setWidth_load {w k : ℕ} (m : Mem) (a : Addr) (hk : k ≤ w) (h8 : 8 ∣ k) :
    (load w m a).setWidth k = load k m a := by
  obtain ⟨n, rfl⟩ := h8
  apply BitVec.eq_of_getLsbD_eq
  intro i hi
  have h1 : i / 8 < w / 8 := by omega
  have h2 : i / 8 < 8 * n / 8 := by omega
  have h3 : i < w := by omega
  simp only [load, BitVec.getLsbD_setWidth, getLsbD_ofBytes, List.getD_eq_getElem?_getD,
    getElem?_bytesAt h1, getElem?_bytesAt h2, hi, h3, decide_true, Bool.true_and]

/-- Writing the bytes of a word read from bytes gives the bytes. -/
theorem toBytes_ofBytes {w : ℕ} (bs : List Byte) (h : 8 * bs.length ≤ w) :
    toBytes bs.length (ofBytes w bs) = bs := by
  induction bs with
  | nil => rfl
  | cons b bs ih =>
    rw [List.length_cons] at h
    have hhead : (ofBytes w (b :: bs)).setWidth 8 = b := by
      apply BitVec.eq_of_getLsbD_eq
      intro i hi
      have hw : i < w := by omega
      simp [ofBytes, hi, hw]
    have htail : toBytes bs.length (ofBytes w (b :: bs) >>> 8) =
        toBytes bs.length (ofBytes w bs) := by
      rw [← toBytes_setWidth (k := 8 * bs.length) _ _ le_rfl,
        ← toBytes_setWidth (k := 8 * bs.length) _ (ofBytes w bs) le_rfl]
      congr 1
      apply BitVec.eq_of_getLsbD_eq
      intro i hi
      have h1 : 8 + i < w := by omega
      have h2 : i < w := by omega
      have hb : b.getLsbD (8 + i) = false := BitVec.getLsbD_of_ge _ _ (by omega)
      simp only [ofBytes, BitVec.getLsbD_setWidth, BitVec.getLsbD_ushiftRight, BitVec.getLsbD_or,
        BitVec.getLsbD_shiftLeft, hb, h1, Nat.add_sub_cancel_left]
      simp
    rw [List.length_cons, toBytes, hhead, htail, ih (by omega)]

theorem toBytes_load {w n : ℕ} (hw : w = 8 * n) (m : Mem) (a : Addr) :
    toBytes n (load w m a) = bytesAt m a n := by
  have hn : w / 8 = n := by omega
  have h := toBytes_ofBytes (w := w) (bytesAt m a n) (by simp [hw])
  rwa [length_bytesAt, ← hn, ← load, hn] at h

/-- A store leaves every byte outside its range alone. -/
theorem store_of_le {m : Mem} {a p : Addr} {bs : List Byte} (h : bs.length ≤ (p - a).toNat) :
    store m a bs p = m p := by
  exact List.getD_eq_default _ _ h

theorem store_of_lt {m : Mem} {a : Addr} {bs : List Byte} {i : ℕ} (hi : i < bs.length)
    (hs : bs.length ≤ 2 ^ 64) : store m a bs (a + BitVec.ofNat 64 i) = bs[i] := by
  have hd : (a + BitVec.ofNat 64 i - a).toNat = i := by
    rw [BitVec.add_comm, BitVec.add_sub_cancel, BitVec.toNat_ofNat]
    exact Nat.mod_eq_of_lt (by omega)
  unfold store
  rw [hd, List.getD_eq_getElem _ _ hi]

theorem holds_store (m : Mem) (a : Addr) {bs : List Byte} (hs : bs.length ≤ 2 ^ 64) :
    Holds (store m a bs) a bs :=
  holds_of_get fun _ hi => store_of_lt hi hs

theorem add_ofNat_add (a : Addr) (j k : ℕ) :
    a + BitVec.ofNat 64 j + BitVec.ofNat 64 k = a + BitVec.ofNat 64 (j + k) := by
  rw [BitVec.add_assoc, BitVec.ofNat_add_ofNat]

theorem inRange_add {base : Addr} {n k : ℕ} (hk : k < n) :
    InRange base n (base + BitVec.ofNat 64 k) := by
  unfold InRange
  rw [BitVec.add_comm, BitVec.add_sub_cancel, BitVec.toNat_ofNat]
  exact (Nat.mod_le _ _).trans_lt hk

theorem not_inRange_add {base : Addr} {n : ℕ} (hn : n < 2 ^ 64) :
    ¬ InRange base n (base + BitVec.ofNat 64 n) := by
  unfold InRange
  rw [BitVec.add_comm, BitVec.add_sub_cancel, BitVec.toNat_ofNat, Nat.mod_eq_of_lt hn]
  exact lt_irrefl n

/-- Writing bytes of one memory to their place in another. -/
theorem store_bytesAt (m m' : Mem) (a : Addr) (n : ℕ) (p : Addr) :
    store m a (bytesAt m' a n) p = if InRange a n p then m' p else m p := by
  by_cases h : InRange a n p
  · have hp : a + BitVec.ofNat 64 (p - a).toNat = p := by
      rw [BitVec.ofNat_toNat, BitVec.setWidth_eq, BitVec.add_comm, BitVec.sub_add_cancel]
    rw [if_pos h, store, List.getD_eq_getElem?_getD, getElem?_bytesAt h, Option.getD_some, hp]
  · rw [if_neg h]
    exact store_of_le ((length_bytesAt m' a n).trans_le (not_lt.mp h))

/-- A store changes bytes of its range only. -/
theorem store_of_not_inRange {m : Mem} {a p : Addr} {bs : List Byte}
    (h : ¬ InRange a bs.length p) : store m a bs p = m p :=
  store_of_le (not_lt.mp h)

theorem InRange.mono {a p : Addr} {k n : ℕ} (h : InRange a k p) (hkn : k ≤ n) : InRange a n p :=
  lt_of_lt_of_le h hkn

theorem bytesAt_congr {m m' : Mem} {a : Addr} {n : ℕ} (h : ∀ p, InRange a n p → m p = m' p) :
    bytesAt m a n = bytesAt m' a n := by
  apply List.ext_getElem?
  intro i
  by_cases hi : i < n
  · rw [getElem?_bytesAt hi, getElem?_bytesAt hi, h _ (inRange_add hi)]
  · rw [List.getElem?_eq_none (by simpa using hi), List.getElem?_eq_none (by simpa using hi)]

/-- A range at an offset that does not wrap. -/
theorem inRange_offset {base p : Addr} {k n : ℕ} (h : k + n ≤ 2 ^ 64) :
    InRange (base + BitVec.ofNat 64 k) n p ↔ k ≤ (p - base).toNat ∧ (p - base).toNat < k + n := by
  have hsub : p - (base + BitVec.ofNat 64 k) = p - base - BitVec.ofNat 64 k :=
    sub_add_eq_sub_sub ..
  unfold InRange
  rw [hsub, BitVec.toNat_sub, BitVec.toNat_ofNat]
  have hlt := (p - base).isLt
  omega

/-- A store to another range of the same base. -/
theorem holds_store_of_disjoint {m : Mem} {base : Addr} {j k : ℕ} {xs ys : List Byte}
    (hj : j + xs.length ≤ 2 ^ 64) (hk : k + ys.length ≤ 2 ^ 64)
    (h : j + xs.length ≤ k ∨ k + ys.length ≤ j)
    (hm : Holds m (base + BitVec.ofNat 64 j) xs) :
    Holds (store m (base + BitVec.ofNat 64 k) ys) (base + BitVec.ofNat 64 j) xs := by
  refine Eq.trans (bytesAt_congr fun p hp => store_of_not_inRange fun hin => ?_) hm
  rw [inRange_offset hj] at hp
  rw [inRange_offset hk] at hin
  omega

end ByteMem
