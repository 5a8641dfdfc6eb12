import LibLisa.Lib.BitString
import Mathlib.Tactic.IntervalCases
import Mathlib.Tactic.Ring

/-!
# Bytes as bits, the most significant one first

`bitsOf l` lists the bits of a byte list from the left; bit `i` is bit `i % 8` of byte `i / 8`
(`getElem?_bitsOf`). Comparing byte lists lexicographically is comparing their bits
lexicographically (`bitsOf_lt_bitsOf_iff`), and that agrees with the order of the zero-padded
strings wherever those differ (`lt_of_pad_lt_pad`, `pad_le_pad_of_le`).
-/

namespace LibLisa.Lib

open List BitString

/-- The bits of a byte from the left. -/
def byteBits (b : BitVec 8) : List Bool :=
  [b.getMsbD 0, b.getMsbD 1, b.getMsbD 2, b.getMsbD 3,
    b.getMsbD 4, b.getMsbD 5, b.getMsbD 6, b.getMsbD 7]

/-- The bits of a byte list from the left. -/
def bitsOf (l : List (BitVec 8)) : List Bool := l.flatMap byteBits

@[simp] lemma length_byteBits (b : BitVec 8) : (byteBits b).length = 8 := rfl

lemma getElem?_byteBits (b : BitVec 8) {i : ℕ} (h : i < 8) :
    (byteBits b)[i]? = some (b.getMsbD i) := by
  interval_cases i <;> rfl

lemma getLsbD_ofBool_shiftLeft {w count k : ℕ} (b : Bool) (hk : k < w) :
    ((BitVec.ofBool b).setWidth w <<< count).getLsbD k = (decide (k = count) && b) := by
  by_cases h : k = count
  · subst h
    simp [hk]
  · by_cases hlt : k < count
    · simp [h, hlt]
    · simp [h, show ¬ k - count = 0 by omega]

section pack

variable {ι : Type} {w : ℕ}

lemma getLsbD_foldl_or (v : ι → BitVec w) (l : List ι) (acc : BitVec w) (k : ℕ) :
    (l.foldl (fun acc a => acc ||| v a) acc).getLsbD k =
      (acc.getLsbD k || l.any fun a => (v a).getLsbD k) := by
  induction l generalizing acc with
  | nil => simp
  | cons a l ih => rw [foldl_cons, ih, BitVec.getLsbD_or, any_cons, Bool.or_assoc]

/-- Bits that are packed into places of their own. -/
lemma getLsbD_pack (f : ι → Bool) (pos : ℕ → ℕ) (l : List ι) {j : ℕ} (hj : pos j < w)
    (hpos : ∀ i < l.length, pos j = pos i → j = i) :
    (l.zipIdx.foldl (fun acc p => acc ||| (BitVec.ofBool (f p.1)).setWidth w <<< pos p.2)
      0).getLsbD (pos j) = (l[j]?.map f).getD false := by
  rw [getLsbD_foldl_or, show (0 : BitVec w).getLsbD (pos j) = false by simp, Bool.eq_iff_iff]
  simp only [getLsbD_ofBool_shiftLeft _ hj, Bool.false_or, any_eq_true, Prod.exists,
    mem_zipIdx_iff_getElem?, Bool.and_eq_true, decide_eq_true_iff]
  constructor
  · rintro ⟨a, i, ha, hi, hf⟩
    obtain rfl := hpos i (List.getElem?_eq_some_iff.mp ha).1 hi
    rw [ha]
    exact hf
  · intro h
    rcases ha : l[j]? with _ | a
    · rw [ha] at h
      cases h
    · rw [ha] at h
      exact ⟨a, j, ha, rfl, h⟩

end pack

/-- The byte with one bit set, counted from the left. -/
lemma getMsbD_one_shiftLeft {i j : ℕ} (hi : i < 8) :
    (1#8 <<< (7 - i)).getMsbD j = decide (j = i) := by
  have hiff : j + (7 - i) = 8 - 1 ↔ j = i := by omega
  simp [hiff]

@[simp] lemma bitsOf_nil : bitsOf [] = [] := rfl

@[simp] lemma bitsOf_cons (b : BitVec 8) (l : List (BitVec 8)) :
    bitsOf (b :: l) = byteBits b ++ bitsOf l := rfl

@[simp] lemma bitsOf_append (l m : List (BitVec 8)) : bitsOf (l ++ m) = bitsOf l ++ bitsOf m := by
  simp [bitsOf]

@[simp] lemma length_bitsOf (l : List (BitVec 8)) : (bitsOf l).length = 8 * l.length := by
  induction l with
  | nil => rfl
  | cons b l ih =>
    simp only [bitsOf_cons, length_append, length_byteBits, length_cons]
    omega

variable {n : ℕ}

/-- Position `i` of a concatenation of blocks of length `n` is position `i % n` of block `i / n`. -/
lemma getElem?_flatMap_of_length {α β : Type} {g : α → List β} (hn : 0 < n)
    (hlen : ∀ a, (g a).length = n) (l : List α) (i : ℕ) :
    (l.flatMap g)[i]? = l[i / n]?.bind fun a => (g a)[i % n]? := by
  induction l generalizing i with
  | nil => simp
  | cons a l ih =>
    by_cases hi : i < n
    · rw [flatMap_cons, getElem?_append_left (by rw [hlen]; exact hi),
        Nat.div_eq_of_lt hi, Nat.mod_eq_of_lt hi]
      rfl
    · have hdiv : i / n = (i - n) / n + 1 := by
        rw [Nat.div_eq_sub_div hn (by omega)]
      have hmod : (i - n) % n = i % n := (Nat.mod_eq_sub_mod (by omega)).symm
      rw [flatMap_cons, getElem?_append_right (by rw [hlen]; omega), hlen, ih, hdiv,
        hmod, getElem?_cons_succ]

/-- Bit `i` of a byte list is bit `i % 8` of byte `i / 8`. -/
theorem getElem?_bitsOf (l : List (BitVec 8)) (i : ℕ) :
    (bitsOf l)[i]? = l[i / 8]?.map fun b => b.getMsbD (i % 8) := by
  rw [bitsOf, getElem?_flatMap_of_length (by omega) length_byteBits]
  cases l[i / 8]? with
  | none => rfl
  | some b => exact getElem?_byteBits b (Nat.mod_lt _ (by omega))

lemma exists_byteBits (bs : List Bool) (h : bs.length = 8) : ∃ b, byteBits b = bs := by
  refine ⟨(BitVec.ofBoolListBE bs).cast h, ext_getElem? fun i => ?_⟩
  by_cases hi : i < 8
  · rw [getElem?_byteBits _ hi]
    simp [h, hi]
  · rw [getElem?_eq_none (by simp; omega), getElem?_eq_none (by omega)]

/-- Every list of whole bytes' length is the bits of some bytes. -/
lemma exists_bitsOf : ∀ (n : ℕ) (bs : List Bool), bs.length = 8 * n →
    ∃ l, bitsOf l = bs ∧ l.length = n
  | 0, bs, h => ⟨[], (length_eq_zero_iff.mp h).symm, rfl⟩
  | n + 1, bs, h => by
    obtain ⟨b, hb⟩ := exists_byteBits (bs.take 8) (by rw [length_take]; omega)
    obtain ⟨l, hl, hlen⟩ := exists_bitsOf n (bs.drop 8) (by rw [length_drop]; omega)
    exact ⟨b :: l, by rw [bitsOf_cons, hb, hl, take_append_drop], by simp [hlen]⟩

lemma bitsOf_replicate_zero (n : ℕ) : bitsOf (replicate n 0) = replicate (8 * n) false := by
  induction n with
  | zero => rfl
  | succ n ih =>
    rw [replicate_succ, bitsOf_cons, ih, Nat.mul_succ, Nat.add_comm, replicate_add]
    rfl

lemma bitsOf_take (l : List (BitVec 8)) (n : ℕ) : bitsOf (l.take n) = (bitsOf l).take (8 * n) := by
  induction l generalizing n with
  | nil => simp
  | cons b l ih =>
    cases n with
    | zero => simp
    | succ n =>
      rw [take_succ_cons, bitsOf_cons, bitsOf_cons, ih, take_append, show 8 * (n + 1) = 8 + 8 * n by
        omega]
      simp

/-! ## The order -/

/-- The number written by a list of bits. -/
def natOfBits (l : List Bool) : ℕ := l.foldl (fun n b => 2 * n + b.toNat) 0

lemma natOfBits_byteBits : ∀ b : BitVec 8, natOfBits (byteBits b) = b.toNat := by
  decide

lemma foldl_natOfBits (l : List Bool) (n : ℕ) :
    l.foldl (fun n b => 2 * n + b.toNat) n = n * 2 ^ l.length + natOfBits l := by
  induction l generalizing n with
  | nil => simp [natOfBits]
  | cons b l ih =>
    rw [natOfBits, foldl_cons, foldl_cons, ih, ih (2 * 0 + b.toNat), length_cons]
    ring

lemma natOfBits_cons (b : Bool) (l : List Bool) :
    natOfBits (b :: l) = b.toNat * 2 ^ l.length + natOfBits l := by
  rw [natOfBits, foldl_cons, foldl_natOfBits]
  simp

lemma natOfBits_lt (l : List Bool) : natOfBits l < 2 ^ l.length := by
  induction l with
  | nil => simp [natOfBits]
  | cons b l ih =>
    rw [natOfBits_cons, length_cons]
    cases b <;> simp only [Bool.toNat_true, Bool.toNat_false] <;> omega

variable {u v : List Bool}

/-- Among bit lists of one length the lexicographic order is the order of the numbers. -/
lemma lt_iff_natOfBits_lt (h : u.length = v.length) : u < v ↔ natOfBits u < natOfBits v := by
  induction u generalizing v with
  | nil =>
    rw [length_eq_zero_iff.mp h.symm]
    simp
  | cons a u ih =>
    cases v with
    | nil => simp at h
    | cons b v =>
      have hlen : u.length = v.length := by simpa using h
      have hu := natOfBits_lt u
      have hv := natOfBits_lt v
      rw [cons_lt_cons_iff, ih hlen, natOfBits_cons, natOfBits_cons, hlen]
      rw [hlen] at hu
      cases a with
      | false =>
        cases b with
        | false => simp
        | true =>
          simp
          omega
      | true =>
        cases b with
        | false =>
          have hord : ¬ (true < false) := by decide
          simp [hord]
          omega
        | true => simp

variable {l m : List Bool}

lemma append_lt_append_iff (h : u.length = v.length) : u ++ l < v ++ m ↔ u < v ∨ u = v ∧ l < m := by
  induction u generalizing v with
  | nil =>
    rw [length_eq_zero_iff.mp h.symm]
    simp
  | cons a u ih =>
    cases v with
    | nil => simp at h
    | cons b v =>
      simp only [cons_append, cons_lt_cons_iff, ih (by simpa using h), cons.injEq]
      tauto

variable {a b : BitVec 8}

lemma byteBits_lt_byteBits_iff : byteBits a < byteBits b ↔ a < b := by
  rw [lt_iff_natOfBits_lt (by simp), natOfBits_byteBits, natOfBits_byteBits, BitVec.lt_def]

lemma byteBits_inj : byteBits a = byteBits b ↔ a = b := by
  constructor
  · intro h
    apply BitVec.eq_of_toNat_eq
    rw [← natOfBits_byteBits, ← natOfBits_byteBits, h]
  · exact congrArg byteBits

lemma byteBits_append_lt_iff : byteBits a ++ l < byteBits b ++ m ↔ a < b ∨ a = b ∧ l < m := by
  rw [append_lt_append_iff (by simp), byteBits_lt_byteBits_iff, byteBits_inj]

/-- Comparing byte lists is comparing their bits. -/
theorem bitsOf_lt_bitsOf_iff {l m : List (BitVec 8)} : bitsOf l < bitsOf m ↔ l < m := by
  induction l generalizing m with
  | nil =>
    cases m with
    | nil => simp
    | cons b m => simp [byteBits]
  | cons a l ih =>
    cases m with
    | nil => simp
    | cons b m => rw [bitsOf_cons, bitsOf_cons, byteBits_append_lt_iff, ih, cons_lt_cons_iff]

/-- Padding with zeros keeps the order, but may identify a list with its zero extensions. -/
theorem lt_of_pad_lt_pad (h : pad l < pad m) : l < m := by
  induction l generalizing m with
  | nil =>
    cases m with
    | nil => exact absurd h (lt_irrefl _)
    | cons b m => simp
  | cons a l ih =>
    cases m with
    | nil => exact absurd (pad_nil_le (pad (a :: l))) (not_le.mpr h)
    | cons b m =>
      rw [lt_iff_head_tail] at h
      rw [cons_lt_cons_iff]
      exact h.imp id fun h => ⟨h.1, ih h.2⟩

lemma pad_le_pad_of_le (h : l ≤ m) : pad l ≤ pad m := by
  rw [← not_lt] at h ⊢
  exact fun hlt => h (lt_of_pad_lt_pad hlt)

/-- Lists that differ in an initial segment compare as the segments do, also when padded. -/
lemma pad_append_lt_pad_append (h : u.length = v.length) (huv : u < v) (l m : List Bool) :
    pad (u ++ l) < pad (v ++ m) := by
  induction u generalizing v with
  | nil =>
    rw [length_eq_zero_iff.mp h.symm] at huv
    exact absurd huv (by simp)
  | cons a u ih =>
    obtain ⟨b, v, rfl⟩ := exists_cons_of_length_eq_add_one h.symm
    rw [cons_append, cons_append, pad_cons, pad_cons]
    rw [cons_lt_cons_iff] at huv
    obtain hab | ⟨rfl, huv⟩ := huv
    · exact lt_iff_head_tail.mpr (Or.inl hab)
    · rw [cons_lt_cons]
      exact ih (by simpa using h) huv

/-- Byte lists whose first different byte is smaller are smaller, also when padded. -/
lemma pad_bitsOf_lt {l m : List (BitVec 8)} {p : ℕ} (hagree : l.take p = m.take p)
    (ha : l[p]? = some a) (hb : m[p]? = some b) (hab : a < b) :
    pad (bitsOf l) < pad (bitsOf m) := by
  obtain ⟨hpl, hal⟩ := List.getElem?_eq_some_iff.mp ha
  obtain ⟨hpm, hbm⟩ := List.getElem?_eq_some_iff.mp hb
  have hl : l = l.take p ++ a :: l.drop (p + 1) := by
    rw [← hal, ← drop_eq_getElem_cons hpl, take_append_drop]
  have hm : m = l.take p ++ b :: m.drop (p + 1) := by
    rw [← hbm, ← drop_eq_getElem_cons hpm, hagree, take_append_drop]
  rw [hl, hm, bitsOf_append, bitsOf_append, bitsOf_cons, bitsOf_cons, ← append_assoc,
    ← append_assoc]
  refine pad_append_lt_pad_append (by simp) ?_ _ _
  rw [append_lt_append_iff rfl]
  exact Or.inr ⟨rfl, byteBits_lt_byteBits_iff.mpr hab⟩

/-- The number that the first `n` bits of the padded list stand for. -/
def rank (n : ℕ) (l : List Bool) : ℕ := natOfBits (l ++ List.replicate (n - l.length) false)

lemma rank_lt (h : l.length ≤ n) : rank n l < 2 ^ n := by
  have hlt := natOfBits_lt (l ++ replicate (n - l.length) false)
  rwa [length_append, length_replicate, Nat.add_sub_cancel' h] at hlt

lemma rank_lt_rank (hl : l.length ≤ n) (hm : m.length ≤ n) (h : pad l < pad m) :
    rank n l < rank n m := by
  rw [rank, rank, ← lt_iff_natOfBits_lt (by simp [hl, hm])]
  apply lt_of_pad_lt_pad
  rwa [pad_append_replicate, pad_append_replicate]

/-! ## Bytes of a bit string -/

/-- Byte `i` of a bit string. -/
def BitString.byteAt (s : BitString) (i : ℕ) : BitVec 8 :=
  BitVec.ofBoolListBE ((List.range 8).map fun k => s.bit (8 * i + k))

lemma BitString.getMsbD_byteAt (s : BitString) (i : ℕ) {k : ℕ} (h : k < 8) :
    (s.byteAt i).getMsbD k = s.bit (8 * i + k) := by
  have hget : (s.byteAt i).getMsbD k = ((range 8).map fun k => s.bit (8 * i + k)).getD k false :=
    BitVec.getMsbD_ofBoolListBE
  rw [hget, getD_eq_getElem?_getD, getElem?_map, getElem?_range h]
  rfl

/-- The bytes of a string that starts with the bits of a byte list. -/
lemma BitString.byteAt_of_startsWith {s : BitString} {l : List (BitVec 8)}
    (h : StartsWith (bitsOf l) s) {i : ℕ} (hi : i < l.length) : s.byteAt i = l[i] := by
  apply BitVec.eq_of_getMsbD_eq
  intro k hk
  have hk8 : k < 8 := hk
  have hpos : 8 * i + k < (bitsOf l).length := by
    rw [length_bitsOf]
    omega
  rw [getMsbD_byteAt _ _ hk8, startsWith_iff_apply.mp h _ hpos]
  have hget := getElem?_bitsOf l (8 * i + k)
  rw [show (8 * i + k) / 8 = i by omega, show (8 * i + k) % 8 = k by omega,
    getElem?_eq_getElem hi, getElem?_eq_getElem hpos, Option.map_some,
    Option.some.injEq] at hget
  exact hget

end LibLisa.Lib
