import LibLisa.Lib.Bytes

/-!
# The next list of bits that a cube admits

`Admits c l` says that the list `l` has the length of the cube and a bit that is admitted at each
position. `IsNext c l r` says that `r` is the least such list from `l` on, in the lexicographic
order in which a proper initial segment is smaller; `NoNext c l` says that there is none.

Both are decided at the first bit: the bit of `l` is kept as long as there is a list from `l` on
below it (`isNext_cons`), and otherwise raised, after which the rest is least (`isNext_raise`).
-/

namespace LibLisa.Lib

open List

/-- Lists that are related piece by piece. -/
lemma forall₂_append_iff {α β : Type} {R : α → β → Prop} {l l' : List α} {m m' : List β}
    (h : l.length = m.length) :
    List.Forall₂ R (l ++ l') (m ++ m') ↔ List.Forall₂ R l m ∧ List.Forall₂ R l' m' := by
  constructor
  · intro hall
    constructor
    · simpa [← h] using forall₂_take_append _ _ _ hall
    · simpa [← h] using forall₂_drop_append _ _ _ hall
  · exact fun hall => rel_append hall.1 hall.2

namespace Cube

variable {o : Option Bool} {b : Bool} {c d : Cube} {l m r u : List Bool}

/-- The list has the length of the cube and an admitted bit at each position. -/
def Admits (c : Cube) (l : List Bool) : Prop := List.Forall₂ (fun o b => admits o b = true) c l

/-- The least list that the cube admits. -/
def least (c : Cube) : List Bool := c.map (·.getD false)

/-- The greatest list that the cube admits. -/
def greatest (c : Cube) : List Bool := c.map (·.getD true)

/-- The least list from `l` on that the cube admits. -/
structure IsNext (c : Cube) (l r : List Bool) : Prop where
  admits : Admits c r
  not_lt : ¬ r < l
  least : ∀ m, Admits c m → ¬ m < l → ¬ m < r

/-- The cube admits no list from `l` on. -/
def NoNext (c : Cube) (l : List Bool) : Prop := ∀ m, Admits c m → m < l

lemma Admits.length_eq (h : Admits c l) : c.length = l.length := List.Forall₂.length_eq h

/-- The free positions can be filled with any bit. -/
lemma admits_fill (c : Cube) (b : Bool) : Admits c (c.map (·.getD b)) := by
  induction c with
  | nil => exact .nil
  | cons o c ih =>
    refine .cons ?_ ih
    rcases o with _ | v
    · rfl
    · exact beq_self_eq_true v

lemma admits_least (c : Cube) : Admits c (least c) := admits_fill c false

lemma admits_greatest (c : Cube) : Admits c (greatest c) := admits_fill c true

/-- Nothing that the cube admits is below `least` or above `greatest`. -/
lemma not_lt_fill (h : Admits c l) : ¬ l < least c ∧ ¬ greatest c < l := by
  induction h with
  | nil => exact ⟨not_lt_nil _, not_lt_nil _⟩
  | @cons o b c l hob _ ih =>
    rw [least, greatest, map_cons, map_cons, ← least, ← greatest, cons_lt_cons_iff, cons_lt_cons_iff]
    rcases o with _ | v
    · cases b <;> simp [not_lt.mp ih.1, not_lt.mp ih.2]
    · simp [eq_of_beq hob, not_lt.mp ih.1, not_lt.mp ih.2]

lemma not_lt_least (h : Admits c l) : ¬ l < least c := (not_lt_fill h).1

lemma not_greatest_lt (h : Admits c l) : ¬ greatest c < l := (not_lt_fill h).2

/-- The list from which on the greatest one is still admitted has a next one. -/
lemma not_noNext_of_not_greatest_lt (h : ¬ greatest c < l) : ¬ NoNext c l :=
  fun hn => h (hn _ (admits_greatest c))

/-! ## The first bit -/

lemma isNext_nil (c : Cube) : IsNext c [] (least c) :=
  ⟨admits_least c, not_lt_nil _, fun _ hm _ => not_lt_least hm⟩

lemma noNext_nil_cons (b : Bool) (l : List Bool) : NoNext [] (b :: l) := by
  rintro m hm
  obtain rfl : m = [] := List.forall₂_nil_left_iff.mp hm
  exact nil_lt_cons b l

/-- A bit that is admitted is kept if there is a list from there on. -/
theorem isNext_cons (hob : Lib.admits o b = true) (h : IsNext c l r) :
    IsNext (o :: c) (b :: l) (b :: r) := by
  refine ⟨.cons hob h.admits, ?_, ?_⟩
  · rw [cons_lt_cons_iff]
    rintro (hlt | ⟨-, hlt⟩)
    · exact lt_irrefl _ hlt
    · exact h.not_lt hlt
  · intro m hm hlow
    rcases hm with _ | ⟨hov, hm⟩
    rw [cons_lt_cons_iff] at hlow ⊢
    rintro (hlt | ⟨heq, hlt⟩)
    · exact hlow (.inl hlt)
    · exact h.least _ hm (fun hml => hlow (.inr ⟨heq, hml⟩)) hlt

/-- A zero is raised if there is no list from there on that keeps it. -/
theorem isNext_raise (ho : Lib.admits o true = true) (h : Lib.admits o false = true → NoNext c l) :
    IsNext (o :: c) (false :: l) (true :: least c) := by
  refine ⟨.cons ho (admits_least c), ?_, ?_⟩
  · rw [cons_lt_cons_iff]
    rintro (hlt | ⟨heq, -⟩)
    · exact absurd hlt (not_lt_of_ge (Bool.false_le true))
    · cases heq
  · intro m hm hlow
    rcases hm with _ | ⟨hov, hm⟩
    rename_i v m
    rw [cons_lt_cons_iff] at hlow ⊢
    rcases v with _ | _
    · exact absurd (.inr ⟨rfl, h hov m hm⟩) hlow
    · rintro (hlt | ⟨-, hlt⟩)
      · exact lt_irrefl _ hlt
      · exact not_lt_least hm hlt

/-- There is no next list if there is none that keeps the bit, and the bit cannot be raised. -/
lemma noNext_cons (hkeep : Lib.admits o b = true → NoNext c l)
    (hraise : b = true ∨ Lib.admits o true = false) : NoNext (o :: c) (b :: l) := by
  intro m hm
  rcases hm with _ | ⟨hov, hm⟩
  rename_i v m
  rw [cons_lt_cons_iff]
  by_cases hvb : v = b
  · subst hvb
    exact .inr ⟨rfl, hkeep hov m hm⟩
  · left
    rcases hraise with rfl | hno
    · rw [Bool.eq_false_iff.mpr hvb]
      exact Bool.false_lt_true
    · rcases v with _ | _
      · rcases b with _ | _
        · exact absurd rfl hvb
        · exact Bool.false_lt_true
      · rw [hno] at hov
        cases hov

/-! ## A common initial segment -/

lemma isNext_append (hu : Admits d u) (h : IsNext c l r) : IsNext (d ++ c) (u ++ l) (u ++ r) := by
  induction hu with
  | nil => exact h
  | cons hob _ ih => exact isNext_cons hob ih

end Cube

/-! ## Splicing two lists -/

/-- The first `n` bits of one list, followed by the bits of the other from `n` on. -/
def splice (l m : List Bool) (n : ℕ) : List Bool := l.take n ++ m.drop n

variable {l m : List Bool} {n i : ℕ}

lemma length_splice (hl : n ≤ l.length) (hm : n ≤ m.length) : (splice l m n).length = m.length := by
  rw [splice, length_append, length_take_of_le hl, length_drop]
  omega

lemma getElem?_splice_of_lt (hl : n ≤ l.length) (hi : i < n) : (splice l m n)[i]? = l[i]? := by
  rw [splice, getElem?_append_left (by rw [length_take_of_le hl]; exact hi), getElem?_take_of_lt hi]

lemma getElem?_splice_of_ge (hl : n ≤ l.length) (hi : n ≤ i) : (splice l m n)[i]? = m[i]? := by
  rw [splice, getElem?_append_right (by rw [length_take_of_le hl]; exact hi),
    length_take_of_le hl, getElem?_drop, Nat.add_sub_cancel' hi]

lemma splice_eq_cons (hm : n < m.length) : splice l m n = l.take n ++ m[n] :: m.drop (n + 1) := by
  rw [splice, drop_eq_getElem_cons hm]

lemma splice_succ (hl : n < l.length) :
    splice l m (n + 1) = l.take n ++ l[n] :: m.drop (n + 1) := by
  rw [splice, take_succ_eq_append_getElem hl, append_assoc, singleton_append]

lemma set_take_append (hl : n < l.length) (a b : Bool) :
    (l.take n ++ a :: m).set n b = l.take n ++ b :: m := by
  have hlen : (l.take n).length = n := length_take_of_le hl.le
  rw [set_append_right _ _ hlen.le, hlen, Nat.sub_self, set_cons_zero]

/-- Taking one more bit from the first list. -/
lemma splice_set_left (hl : n < l.length) (hm : n < m.length) :
    (splice l m n).set n l[n] = splice l m (n + 1) := by
  rw [splice_eq_cons hm, set_take_append hl, splice_succ hl]

/-- Taking one more bit from the second list. -/
lemma splice_set_right (hl : n < l.length) (hm : n < m.length) :
    (splice l m (n + 1)).set n m[n] = splice l m n := by
  rw [splice_succ hl, set_take_append hl, splice_eq_cons hm]

/-- Any other bit at the last position of the first list. -/
lemma splice_set (hl : n < l.length) (b : Bool) :
    (splice l m (n + 1)).set n b = l.take n ++ b :: m.drop (n + 1) := by
  rw [splice_succ hl, set_take_append hl]

end LibLisa.Lib
