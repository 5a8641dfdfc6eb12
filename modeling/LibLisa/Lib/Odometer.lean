import Mathlib.Algebra.BigOperators.Group.List.Basic

/-!
# Counting through mixed-radix digits

An odometer has one radix for each digit, lowest digit first. `next` adds one with carry and is
`none` when the carry leaves the last digit; `visit` collects the digits from a start on.
`exists_visit` says that from zeros every list of digits below the radices is met. A radix of zero
leaves its digit at zero.
-/

namespace LibLisa.Lib.Odometer

open List

/-- One step of the counter. -/
def next : List ℕ → List ℕ → Option (List ℕ)
  | r :: rs, d :: ds => if d + 1 < r then some ((d + 1) :: ds) else (next rs ds).map (0 :: ·)
  | _, _ => none

/-- The digits from `ds` on, `none` if the fuel does not last. -/
def visit (rs : List ℕ) : ℕ → List ℕ → Option (List (List ℕ))
  | 0, _ => none
  | fuel + 1, ds =>
    match next rs ds with
    | none => some [ds]
    | some ds' => (visit rs fuel ds').map (ds :: ·)

/-- The digits are below their radices. -/
def IsDigits (rs ds : List ℕ) : Prop := List.Forall₂ (fun r d => d < max r 1) rs ds

/-- The number that the digits stand for. -/
def rank : List ℕ → List ℕ → ℕ
  | r :: rs, d :: ds => d + max r 1 * rank rs ds
  | _, _ => 0

/-- How many lists of digits there are. -/
def size (rs : List ℕ) : ℕ := (rs.map (max · 1)).prod

@[simp] lemma size_cons (r : ℕ) (rs : List ℕ) : size (r :: rs) = max r 1 * size rs := by
  simp [size]

lemma isDigits_zeros (rs : List ℕ) : IsDigits rs (List.replicate rs.length 0) := by
  induction rs with
  | nil => exact .nil
  | cons r rs ih => exact .cons (by omega) ih

lemma rank_zeros (rs : List ℕ) : rank rs (List.replicate rs.length 0) = 0 := by
  induction rs with
  | nil => rfl
  | cons r rs ih => rw [length_cons, replicate_succ, rank, ih]; rfl

lemma rank_lt_size {rs ds : List ℕ} (h : IsDigits rs ds) : rank rs ds < size rs := by
  induction h with
  | nil => exact Nat.one_pos
  | @cons r d rs ds hd _ ih =>
    calc d + max r 1 * rank rs ds < max r 1 * (rank rs ds + 1) := by rw [Nat.mul_succ]; omega
      _ ≤ max r 1 * size rs := Nat.mul_le_mul_left _ ih

lemma rank_injective {rs ds es : List ℕ} (hds : IsDigits rs ds) (hes : IsDigits rs es)
    (h : rank rs ds = rank rs es) : ds = es := by
  induction hds generalizing es with
  | nil => exact (forall₂_nil_left_iff.mp hes).symm
  | @cons r d rs ds hd _ ih =>
    obtain ⟨e, es, he, hrest, rfl⟩ := forall₂_cons_left_iff.mp hes
    simp only [rank] at h
    have hpos : 0 < max r 1 := by omega
    -- the lowest digit is the remainder, the others are the quotient
    have hmod := congrArg (· % max r 1) h
    have hdiv := congrArg (· / max r 1) h
    simp only [Nat.add_mul_mod_self_left, Nat.mod_eq_of_lt hd, Nat.mod_eq_of_lt he] at hmod
    simp only [Nat.add_mul_div_left _ _ hpos, Nat.div_eq_of_lt hd, Nat.div_eq_of_lt he,
      Nat.zero_add] at hdiv
    rw [hmod, ih hrest hdiv]

/-- A step adds one. -/
lemma next_eq_some {rs ds ds' : List ℕ} (h : IsDigits rs ds) (hnext : next rs ds = some ds') :
    IsDigits rs ds' ∧ rank rs ds' = rank rs ds + 1 := by
  induction h generalizing ds' with
  | nil => cases hnext
  | @cons r d rs ds hd hrest ih =>
    unfold next at hnext
    split at hnext
    next hlt =>
      obtain rfl := Option.some.inj hnext
      refine ⟨.cons (by omega) hrest, ?_⟩
      simp only [rank]
      omega
    next hge =>
      obtain ⟨es, hes, rfl⟩ := Option.map_eq_some_iff.mp hnext
      obtain ⟨hdigits, hrank⟩ := ih hes
      refine ⟨.cons (by omega) hdigits, ?_⟩
      simp only [rank, hrank, Nat.mul_succ]
      omega

/-- The counter stops at the last list of digits. -/
lemma next_eq_none {rs ds : List ℕ} (h : IsDigits rs ds) (hnext : next rs ds = none) :
    rank rs ds + 1 = size rs := by
  induction h with
  | nil => rfl
  | @cons r d rs ds hd _ ih =>
    unfold next at hnext
    split at hnext
    next => cases hnext
    next hge =>
      have hrank := ih (Option.map_eq_none_iff.mp hnext)
      rw [rank, size_cons, ← hrank, Nat.mul_succ]
      omega

/-- With enough fuel, the digits visited from `ds` on are those of the same or a larger number. -/
lemma exists_visit_from {rs : List ℕ} :
    ∀ (fuel : ℕ) {ds : List ℕ}, IsDigits rs ds → size rs ≤ rank rs ds + fuel →
      ∃ l, visit rs fuel ds = some l ∧
        ∀ es, es ∈ l ↔ IsDigits rs es ∧ rank rs ds ≤ rank rs es
  | 0, ds, h, hfuel => absurd (rank_lt_size h) (by omega)
  | fuel + 1, ds, h, hfuel => by
    cases hnext : next rs ds with
    | none =>
      refine ⟨[ds], by rw [visit, hnext], fun es => ?_⟩
      have hlast := next_eq_none h hnext
      rw [mem_singleton]
      constructor
      · rintro rfl
        exact ⟨h, Nat.le_refl _⟩
      · rintro ⟨hes, hle⟩
        have hlt := rank_lt_size hes
        exact rank_injective hes h (by omega)
    | some ds' =>
      obtain ⟨h', hrank⟩ := next_eq_some h hnext
      obtain ⟨l, hl, hmem⟩ := exists_visit_from fuel h' (by omega)
      refine ⟨ds :: l, by rw [visit, hnext]; simp [hl], fun es => ?_⟩
      rw [mem_cons, hmem, hrank]
      constructor
      · rintro (rfl | ⟨hes, hle⟩)
        · exact ⟨h, Nat.le_refl _⟩
        · exact ⟨hes, by omega⟩
      · rintro ⟨hes, hle⟩
        rcases Nat.eq_or_lt_of_le hle with heq | hlt
        · exact Or.inl (rank_injective hes h heq.symm)
        · exact Or.inr ⟨hes, hlt⟩

/-- From zeros, every list of digits is visited. -/
theorem exists_visit (rs : List ℕ) :
    ∃ l, visit rs (size rs) (List.replicate rs.length 0) = some l ∧
      ∀ es, es ∈ l ↔ IsDigits rs es := by
  obtain ⟨l, hl, hmem⟩ := exists_visit_from (size rs) (isDigits_zeros rs) (by omega)
  refine ⟨l, hl, fun es => ?_⟩
  rw [hmem, rank_zeros]
  exact and_iff_left (Nat.zero_le _)

end LibLisa.Lib.Odometer
