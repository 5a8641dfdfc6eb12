import Mathlib.Order.Interval.Finset.Nat
import Mathlib.Order.PiLex

/-!
# Infinite bit strings, their lexicographic order, and cubes

* `BitString` is a function `ℕ → Bool` under Mathlib's lexicographic linear order on
  `Lex (ℕ → Bool)` (`false < true`). The order is worked with one bit at a time:
  `lt_iff_head_tail` and `le_iff_head_tail` compare the first bits and, when they agree, the tails.
* `pad l` is the finite string `l` followed by zeros; `StartsWith l s` says that `l` is an initial
  segment of `s`.
* A `Cube` is a finite pattern of fixed and free positions (`some v` and `none`);
  `Cube.Matches c s` compares the first `c.length` bits of `s` with it.
-/

namespace LibLisa.Lib

open List

/-- An infinite bit string. -/
@[ext] structure BitString where
  /-- The bit at a position. -/
  bit : ℕ → Bool

namespace BitString

/-- The string without its first bit. -/
def tail (s : BitString) : BitString := ⟨fun n => s.bit (n + 1)⟩

/-- The string that starts with `b` and continues as `s`. -/
def cons (b : Bool) (s : BitString) : BitString := .mk fun
  | 0 => b
  | n + 1 => s.bit n

/-- The finite string `l` followed by zeros. -/
def pad (l : List Bool) : BitString := ⟨fun n => l.getD n false⟩

/-- The finite string `l` followed by `s`. -/
def append : List Bool → BitString → BitString
  | [], s => s
  | b :: l, s => cons b (append l s)

/-- `l` is an initial segment of `s`. -/
def StartsWith : List Bool → BitString → Prop
  | [], _ => True
  | b :: l, s => s.bit 0 = b ∧ StartsWith l s.tail

@[simp] lemma tail_apply (s : BitString) (n : ℕ) : s.tail.bit n = s.bit (n + 1) := rfl

@[simp] lemma cons_zero (b : Bool) (s : BitString) : (cons b s).bit 0 = b := rfl

@[simp] lemma cons_succ (b : Bool) (s : BitString) (n : ℕ) : (cons b s).bit (n + 1) = s.bit n := rfl

@[simp] lemma tail_cons (b : Bool) (s : BitString) : (cons b s).tail = s := rfl

lemma pad_apply (l : List Bool) (n : ℕ) : (pad l).bit n = l.getD n false := rfl

@[simp] lemma pad_nil_apply (n : ℕ) : (pad []).bit n = false := rfl

@[simp] lemma pad_cons (b : Bool) (l : List Bool) : pad (b :: l) = cons b (pad l) := by
  ext n
  cases n <;> simp [pad_apply]

@[simp] lemma append_nil (s : BitString) : append [] s = s := rfl

@[simp] lemma append_cons (b : Bool) (l : List Bool) (s : BitString) :
    append (b :: l) s = cons b (append l s) := rfl

@[simp] lemma tail_pad_nil : (pad []).tail = pad [] := rfl

lemma cons_head_tail (s : BitString) : cons (s.bit 0) s.tail = s := by
  ext n
  cases n <;> rfl

/-! ## The order, one bit at a time -/

/-- Bit strings are ordered lexicographically. -/
noncomputable instance : LinearOrder BitString :=
  LinearOrder.lift' (fun s => toLex s.bit) fun _ _ h => BitString.ext (toLex_inj.mp h)

variable {s t : BitString} {l : List Bool}

/-- Two strings compare as their first bits do, and as their tails when those agree. -/
theorem lt_iff_head_tail : s < t ↔ s.bit 0 < t.bit 0 ∨ s.bit 0 = t.bit 0 ∧ s.tail < t.tail := by
  constructor
  · rintro ⟨i, hagree, hlt⟩
    cases i with
    | zero => exact Or.inl hlt
    | succ i =>
      exact Or.inr ⟨hagree 0 i.succ_pos, i, fun j hj => hagree (j + 1) (by omega), hlt⟩
  · rintro (hlt | ⟨heq, i, hagree, hlt⟩)
    · exact ⟨0, by simp, hlt⟩
    · refine ⟨i + 1, fun j hj => ?_, hlt⟩
      cases j with
      | zero => exact heq
      | succ j => exact hagree j (by omega)

lemma le_iff_head_tail : s ≤ t ↔ s.bit 0 < t.bit 0 ∨ s.bit 0 = t.bit 0 ∧ s.tail ≤ t.tail := by
  rw [← not_lt, lt_iff_head_tail]
  rcases lt_trichotomy (s.bit 0) (t.bit 0) with h | h | h
  · simp [h, h.le, h.ne']
  · simp [h]
  · simp [h, h.le, h.ne']

@[simp] lemma cons_lt_cons (b : Bool) (s t : BitString) : cons b s < cons b t ↔ s < t := by
  rw [lt_iff_head_tail]
  simp

@[simp] lemma cons_le_cons (b : Bool) (s t : BitString) : cons b s ≤ cons b t ↔ s ≤ t := by
  rw [le_iff_head_tail]
  simp

lemma cons_false_lt_cons_true (s t : BitString) : cons false s < cons true t :=
  lt_iff_head_tail.mpr (Or.inl (by simp))

/-- The all-zero string is the least one. -/
lemma pad_nil_le (s : BitString) : pad [] ≤ s := by
  rw [← not_lt]
  rintro ⟨i, -, hlt⟩
  exact absurd hlt (by simp)

/-! ## Padding and initial segments -/

lemma pad_append_replicate (l : List Bool) (n : ℕ) : pad (l ++ List.replicate n false) = pad l := by
  induction l with
  | nil =>
    ext i
    simp only [nil_append, pad_apply, getD_eq_getElem?_getD, getElem?_replicate]
    split <;> simp
  | cons b l ih => simp [ih]

lemma append_bit_lt {u : List Bool} {i : ℕ} (h : i < u.length) : (append u s).bit i = u[i] := by
  induction u generalizing i with
  | nil => simp at h
  | cons b u ih =>
    cases i with
    | zero => rfl
    | succ i => exact ih (by simpa using h)

lemma append_bit_add (u : List Bool) (s : BitString) (i : ℕ) :
    (append u s).bit (u.length + i) = s.bit i := by
  induction u with
  | nil => simp
  | cons b u ih =>
    rw [append_cons, length_cons, show u.length + 1 + i = u.length + i + 1 by omega, cons_succ, ih]

lemma startsWith_pad (l : List Bool) : StartsWith l (pad l) := by
  induction l with
  | nil => trivial
  | cons b l ih => exact ⟨by simp, by simpa using ih⟩

lemma startsWith_iff_apply : StartsWith l s ↔ ∀ i, ∀ h : i < l.length, s.bit i = l[i] := by
  induction l generalizing s with
  | nil => simp [StartsWith]
  | cons b l ih =>
    rw [StartsWith, ih]
    exact (Nat.forall_lt_succ_left' (p := fun i hi => s.bit i = (b :: l).get ⟨i, hi⟩)).symm

/-- The zero-padded string is the least one that starts with `l`. -/
lemma pad_le_of_startsWith (h : StartsWith l s) : pad l ≤ s := by
  induction l generalizing s with
  | nil => exact pad_nil_le s
  | cons b l ih =>
    rw [le_iff_head_tail]
    exact Or.inr ⟨by simpa using h.1.symm, by simpa using ih h.2⟩

end BitString

/-! ## Cubes -/

/-- A finite pattern of bits: `some v` asks for the bit `v`, `none` admits both. -/
abbrev Cube := List (Option Bool)

/-- The bit `v` is admitted at a position of a cube. -/
def admits (b : Option Bool) (v : Bool) : Bool := b.all (· == v)

@[simp] lemma admits_none (v : Bool) : admits none v = true := rfl

@[simp] lemma admits_some (b v : Bool) : admits (some b) v = (b == v) := rfl

namespace Cube

/-- The first bits of `s` are admitted by the cube. -/
def Matches : Cube → BitString → Prop
  | [], _ => True
  | b :: c, s => admits b (s.bit 0) = true ∧ Matches c s.tail

@[simp] lemma matches_nil (s : BitString) : Matches [] s := trivial

@[simp] lemma matches_cons (b : Option Bool) (c : Cube) (s : BitString) :
    Matches (b :: c) s ↔ admits b (s.bit 0) = true ∧ Matches c s.tail := Iff.rfl

lemma matches_iff_apply {p : Cube} {s : BitString} :
    Matches p s ↔ ∀ i, ∀ h : i < p.length, admits p[i] (s.bit i) = true := by
  induction p generalizing s with
  | nil => simp
  | cons b p ih =>
    rw [matches_cons, ih]
    exact (Nat.forall_lt_succ_left' (p := fun i hi => admits ((b :: p).get ⟨i, hi⟩) (s.bit i))).symm

/-- Free positions at the end of a cube do not change what it matches. -/
lemma matches_append_replicate_none (c : Cube) (n : ℕ) (s : BitString) :
    Matches (c ++ List.replicate n none) s ↔ Matches c s := by
  induction c generalizing s with
  | nil =>
    simp only [matches_nil, iff_true]
    induction n generalizing s with
    | zero => trivial
    | succ n ih => exact ⟨rfl, ih s.tail⟩
  | cons b c ih => simp [ih]

/-- Every cube matches some string. -/
lemma exists_matches (c : Cube) : ∃ s, Matches c s := by
  induction c with
  | nil => exact ⟨BitString.pad [], trivial⟩
  | cons b c ih =>
    obtain ⟨s, hs⟩ := ih
    refine ⟨BitString.cons (b.getD false) s, ?_, hs⟩
    cases b <;> simp

end Cube

end LibLisa.Lib
