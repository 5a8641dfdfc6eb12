import Mathlib.Data.BitVec
import Mathlib.Data.Nat.Bitwise

/-!
# Words read bit by bit

A mask and a value fix the bits of a word where the mask is set. Comparing a word with the value
under the mask compares the fixed bits (`and_eq_iff`), and fixing one more bit asks for that bit as
well (`agree_fix_iff`). `swapBytes` reverses the bytes of a word; `getLsbD_swapBytes` says where its
bits come from.
-/

namespace LibLisa.Lib

open BitVec

variable {n k : ℕ} {m m' u v v' : BitVec n}

lemma and_eq_and_iff : u &&& m = v &&& m ↔ ∀ i, m.getLsbD i = true → u.getLsbD i = v.getLsbD i := by
  constructor
  · intro h i hi
    simpa [hi] using congrArg (·.getLsbD i) h
  · intro h
    apply eq_of_getLsbD_eq
    intro i _
    rw [getLsbD_and, getLsbD_and]
    cases hi : m.getLsbD i with
    | false => rw [Bool.and_false, Bool.and_false]
    | true => rw [h i hi]

lemma and_eq_iff (hv : ∀ i, v.getLsbD i = true → m.getLsbD i = true) : u &&& m = v ↔
    ∀ i, m.getLsbD i = true → u.getLsbD i = v.getLsbD i := by
  have hand : v &&& m = v := by
    apply eq_of_getLsbD_eq
    intro i _
    rw [getLsbD_and, Bool.and_eq_left_iff_imp]
    exact hv i
  rw [← and_eq_and_iff, hand]

lemma agree_fix_iff (hmask : ∀ i, m'.getLsbD i = (m.getLsbD i || decide (i = k)))
    (hvalue : ∀ i, m.getLsbD i = true → v'.getLsbD i = v.getLsbD i) :
    (∀ i, m'.getLsbD i = true → u.getLsbD i = v'.getLsbD i) ↔
      (∀ i, m.getLsbD i = true → u.getLsbD i = v.getLsbD i) ∧ u.getLsbD k = v'.getLsbD k := by
  simp only [hmask, Bool.or_eq_true, decide_eq_true_iff, or_imp, forall_and, forall_eq]
  refine and_congr_left' (forall₂_congr fun i hi => ?_)
  rw [hvalue i hi]

/-- Where bit `i` of a word of `n` bits goes when its bytes are reversed. -/
def swapIndex (n i : ℕ) : ℕ := 8 * (n / 8 - 1 - i / 8) + i % 8

/-- The word with its bytes in the opposite order. -/
def swapBytes (v : BitVec n) : BitVec n :=
  BitVec.ofNat n (Nat.ofBits fun i : Fin n => v.getLsbD (swapIndex n i))

lemma getLsbD_swapBytes (v : BitVec n) (i : ℕ) :
    (swapBytes v).getLsbD i = (decide (i < n) && v.getLsbD (swapIndex n i)) := by
  rw [swapBytes, getLsbD_ofNat]
  by_cases h : i < n
  · rw [Nat.testBit_ofBits_lt _ _ h]
  · rw [decide_eq_false h, Bool.false_and, Bool.false_and]

end LibLisa.Lib
