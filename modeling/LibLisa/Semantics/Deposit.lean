import LibLisa.Semantics.Output
import Mathlib.Data.Nat.Nth

/-!
# Depositing and extracting bits

A selector numbers its set bits from the right (`rank`). `depositBits` moves the bit with a number to
the place of the selector's bit with that number, and `extractBits` moves it back. Both loops take
the lowest bit off the selector by a shift; if that is the top bit, the shift is one by all 128 bits,
which panics (`deposit_extract_iff`).
-/

namespace LibLisa.Semantics

open Lib
open BitVec hiding or_assoc

/-- The number of selected bits below a position. -/
def rank (m : I128) (i : ℕ) : ℕ := i.count (m.getLsbD · = true)

variable {m : I128} {i : ℕ}

/-- Every number below the number of selected bits is that of a bit. -/
lemma exists_rank_iff {n k : ℕ} : (∃ j < n, m.getLsbD j = true ∧ rank m j = k) ↔ k < rank m n := by
  constructor
  · rintro ⟨j, hlt, hj, rfl⟩
    exact Nat.count_strict_mono hj hlt
  · intro h
    have hcard := fun hf => h.trans_le (Nat.count_le_card hf n)
    exact ⟨_, Nat.nth_lt_of_lt_count h, Nat.nth_mem k hcard, Nat.count_nth hcard⟩

/-- One round: the lowest selected bit has number zero, and the others are numbered from one on. -/
lemma exists_bit_iff (hm : m ≠ 0) {P : ℕ → ℕ → Prop} :
    (∃ j, m.getLsbD j = true ∧ P j (rank m j)) ↔ P m.ctz.toNat 0 ∨
      ∃ j, (m >>> (m.ctz.toNat + 1)).getLsbD j = true ∧
        P (m.ctz.toNat + 1 + j) (rank (m >>> (m.ctz.toNat + 1)) j + 1) := by
  have hset : m.getLsbD m.ctz.toNat = true := getLsbD_true_ctz_of_ne_zero hm
  have hunset : ∀ i < m.ctz.toNat, ¬ m.getLsbD i = true := fun i hi =>
    Bool.not_eq_true _ ▸ getLsbD_false_of_lt_ctz hi
  have hzero : rank m m.ctz.toNat = 0 := Nat.count_iff_forall_not.mpr hunset
  have hrank : ∀ j, rank m (m.ctz.toNat + 1 + j) = rank (m >>> (m.ctz.toNat + 1)) j + 1 := by
    intro j
    unfold rank at hzero ⊢
    simp only [Nat.count_add, Nat.count_succ, hzero, hset, getLsbD_ushiftRight, if_true]
    omega
  simp only [getLsbD_ushiftRight, ← hrank]
  constructor
  · rintro ⟨j, hj, hP⟩
    rcases Nat.lt_trichotomy j m.ctz.toNat with hlt | rfl | hlt
    · exact absurd hj (hunset j hlt)
    · exact .inl (hzero ▸ hP)
    · obtain ⟨k, rfl⟩ := Nat.exists_eq_add_of_lt hlt
      rw [Nat.add_right_comm] at hj hP
      exact .inr ⟨k, hj, hP⟩
  · rintro (hP | ⟨j, hj, hP⟩)
    · exact ⟨_, hset, by rwa [hzero]⟩
    · exact ⟨_, hj, hP⟩

/-! ## The loops -/

/-- All bits of the selector are below a bound, and the lowest one is not the top bit. -/
structure Selects (m : I128) (bound : ℕ) : Prop where
  lt_of_set : ∀ j, m.getLsbD j = true → j < bound
  ctz_lt : m ≠ 0 → m.ctz.toNat < 127

variable {fuel : ℕ}

lemma Selects.eq_zero (h : Selects m 0) : m = 0 := by
  apply eq_of_getLsbD_eq
  intro i _
  cases hi : m.getLsbD i with
  | false => simp
  | true => exact absurd (h.lt_of_set i hi) (Nat.not_lt_zero i)

lemma Selects.round (h : Selects m (fuel + 1)) (hm : m ≠ 0) :
    ushr m (m.ctz.toNat + 1) = .ok (m >>> (m.ctz.toNat + 1)) ∧
      Selects (m >>> (m.ctz.toNat + 1)) fuel := by
  have hlt := h.ctz_lt hm
  refine ⟨if_pos (by omega), fun j hj => ?_, fun hne => ?_⟩
  · rw [getLsbD_ushiftRight] at hj
    have := h.lt_of_set _ hj
    omega
  · have hset := getLsbD_true_ctz_of_ne_zero hne
    rw [getLsbD_ushiftRight] at hset
    have := lt_of_getLsbD hset
    omega

/-- A bit that is shifted into an empty place. -/
lemma getLsbD_or_shiftLeft {dest s : I128} {k : ℕ} (hk : k < 128) :
    (dest ||| (s &&& 1) <<< k).getLsbD i = true ↔
      dest.getLsbD i = true ∨ s.getLsbD 0 = true ∧ i = k := by
  rw [getLsbD_or, Bool.or_eq_true, getLsbD_shiftLeft]
  grind

lemma depositLoop_spec (s dest : I128) (b : ℕ) (h : Selects m fuel)
    (hb : ∀ j, m.getLsbD j = true → b + j < 128) :
    ∃ r, depositLoop fuel s m dest b = .ok r ∧ ∀ i, r.getLsbD i = true ↔ dest.getLsbD i = true ∨
      ∃ j, m.getLsbD j = true ∧ s.getLsbD (rank m j) = true ∧ i = b + j := by
  induction fuel generalizing s m dest b with
  | zero =>
    obtain rfl := h.eq_zero
    exact ⟨dest, rfl, by simp⟩
  | succ fuel ih =>
    by_cases hm : m = 0
    · subst hm
      exact ⟨dest, rfl, by simp⟩
    · obtain ⟨hshift, hround⟩ := h.round hm
      have hlow := hb _ (getLsbD_true_ctz_of_ne_zero hm)
      obtain ⟨r, hr, hbits⟩ := ih (s >>> 1) (dest ||| (s &&& 1) <<< (b + m.ctz.toNat))
        (b + m.ctz.toNat + 1) hround fun j hj => by
          rw [getLsbD_ushiftRight] at hj
          have := hb _ hj
          omega
      refine ⟨r, ?_, fun i => ?_⟩
      · have hbit : shl (s &&& 1) (b + m.ctz.toNat) = .ok _ := if_pos hlow
        rw [depositLoop, if_neg hm]
        simp only [hbit, hshift, ok_bind, hr]
      · rw [hbits, getLsbD_or_shiftLeft hlow, or_assoc,
          exists_bit_iff hm (P := fun j r => s.getLsbD r = true ∧ i = b + j)]
        simp only [getLsbD_ushiftRight s, Nat.add_comm 1, Nat.add_assoc]

lemma extractLoop_spec (v dest : I128) (k : ℕ) (h : Selects m fuel) (hk : k + fuel ≤ 128) :
    ∃ r, extractLoop fuel v m dest k = .ok r ∧ ∀ i, r.getLsbD i = true ↔ dest.getLsbD i = true ∨
      ∃ j, m.getLsbD j = true ∧ v.getLsbD j = true ∧ i = k + rank m j := by
  induction fuel generalizing v m dest k with
  | zero =>
    obtain rfl := h.eq_zero
    exact ⟨dest, rfl, by simp⟩
  | succ fuel ih =>
    by_cases hm : m = 0
    · subst hm
      exact ⟨dest, rfl, by simp⟩
    · obtain ⟨hshift, hround⟩ := h.round hm
      have hctz := h.ctz_lt hm
      obtain ⟨r, hr, hbits⟩ := ih (v >>> m.ctz.toNat >>> 1)
        (dest ||| (v >>> m.ctz.toNat &&& 1) <<< k) (k + 1) hround (by omega)
      refine ⟨r, ?_, fun i => ?_⟩
      · have hsource : ushr v m.ctz.toNat = .ok _ := if_pos (by omega)
        have hbit : shl (v >>> m.ctz.toNat &&& 1) k = .ok _ := if_pos (by omega)
        rw [extractLoop, if_neg hm]
        simp only [hsource, hshift, hbit, ok_bind, hr]
      · rw [hbits, getLsbD_or_shiftLeft (by omega), or_assoc,
          exists_bit_iff hm (P := fun j r => v.getLsbD j = true ∧ i = k + r)]
        simp only [getLsbD_ushiftRight v, getLsbD_ushiftRight (v >>> _), Nat.add_comm 1,
          Nat.add_assoc, Nat.add_zero]

/-! ## Both ways -/

/-- Extracting and depositing with a selector undo each other. -/
def DepositExtract (m : I128) : Prop :=
  (∀ s, ∃ d e, depositBits s m = .ok d ∧ d &&& ~~~m = 0 ∧ extractBits d m = .ok e ∧
    e.toNat = s.toNat % 2 ^ rank m 128) ∧
  ∀ v, ∃ e, extractBits v m = .ok e ∧ depositBits e m = .ok (v &&& m)

lemma selects_of_ne (hm : m ≠ twoPow 128 127) : Selects m 128 := by
  refine ⟨fun j => lt_of_getLsbD, fun hne => ?_⟩
  have hset := getLsbD_true_ctz_of_ne_zero hne
  have hlt := lt_of_getLsbD hset
  by_contra hge
  refine hm (eq_of_getLsbD_eq fun i hi => ?_)
  rw [getLsbD_twoPow]
  rcases Nat.lt_or_eq_of_le (Nat.le_of_lt_succ hi) with hi | rfl
  · rw [getLsbD_false_of_lt_ctz (by omega)]
    simp; omega
  · rw [← show m.ctz.toNat = 127 by omega, hset]
    simp; omega

/-- The top bit is taken off by a shift by all bits of the word. -/
lemma depositBits_twoPow (d : I128) : depositBits 0 (twoPow 128 127) ≠ .ok d := by
  have htop : (depositBits 0 (twoPow 128 127)).toOption = none := by decide +kernel
  intro hd
  rw [hd] at htop
  cases htop

/-- Depositing and extracting terminate without a shift by 128 or more and undo each other, except
for the selector that is the top bit. -/
theorem deposit_extract_iff (m : I128) : DepositExtract m ↔ m ≠ twoPow 128 127 := by
  constructor
  · rintro ⟨hdeposit, -⟩ rfl
    obtain ⟨d, -, hd, -⟩ := hdeposit 0
    exact depositBits_twoPow d hd
  · intro hm
    have h := selects_of_ne hm
    have hdeposit : ∀ s, ∃ d, depositBits s m = .ok d ∧ ∀ i, d.getLsbD i = true ↔
        m.getLsbD i = true ∧ s.getLsbD (rank m i) = true := by
      intro s
      obtain ⟨d, hd, hbits⟩ := depositLoop_spec s 0 0 h
        fun j hj => (Nat.zero_add j).trans_lt (lt_of_getLsbD hj)
      refine ⟨d, hd, fun i => (hbits i).trans ?_⟩
      grind
    have hextract : ∀ v, ∃ e, extractBits v m = .ok e ∧ ∀ i, e.getLsbD i = true ↔
        ∃ j, m.getLsbD j = true ∧ v.getLsbD j = true ∧ i = rank m j := by
      intro v
      obtain ⟨e, he, hbits⟩ := extractLoop_spec v 0 0 h le_rfl
      exact ⟨e, he, fun i => by simp [hbits]⟩
    refine ⟨fun s => ?_, fun v => ?_⟩
    · obtain ⟨d, hd, hdbits⟩ := hdeposit s
      obtain ⟨e, he, hebits⟩ := hextract d
      refine ⟨d, e, hd, eq_of_getLsbD_eq fun i hi => ?_, he, Nat.eq_of_testBit_eq fun i => ?_⟩
      · have := hdbits i
        grind
      · rw [Nat.testBit_mod_two_pow, Bool.eq_iff_iff, Bool.and_eq_true,
          decide_eq_true_iff, testBit_toNat, testBit_toNat, hebits]
        refine Iff.trans ?_ (and_congr_left fun _ => exists_rank_iff)
        constructor
        · rintro ⟨j, hj, hdj, rfl⟩
          exact ⟨⟨j, lt_of_getLsbD hj, hj, rfl⟩, ((hdbits j).mp hdj).2⟩
        · rintro ⟨⟨j, -, hj, rfl⟩, hs⟩
          exact ⟨j, hj, (hdbits j).mpr ⟨hj, hs⟩, rfl⟩
    · obtain ⟨e, he, hebits⟩ := hextract v
      obtain ⟨d, hd, hdbits⟩ := hdeposit e
      refine ⟨e, he, hd.trans (congrArg _ (eq_of_getLsbD_eq fun i hi => ?_))⟩
      rw [Bool.eq_iff_iff, hdbits, hebits, getLsbD_and, Bool.and_eq_true]
      constructor
      · rintro ⟨hi, j, hj, hv, hrank⟩
        obtain rfl := Nat.count_injective hi hj hrank
        exact ⟨hv, hi⟩
      · rintro ⟨hv, hi⟩
        exact ⟨hi, i, hi, hv, rfl⟩

/-- The selector that is the top bit: depositing the word zero panics. -/
theorem deposit_extract_top : ¬ DepositExtract (twoPow 128 127) := by
  rintro ⟨hdeposit, -⟩
  obtain ⟨d, -, hd, -⟩ := hdeposit 0
  exact depositBits_twoPow d hd

end LibLisa.Semantics
