import LibLisa.Lib.BitPath

/-!
# The next bit string with a given answer

`IsNext t a s l` says that the zero-padded list `l` is the least string from `s` on that the
decision tree answers with `a`, and that the answer needs no more bits than `l` (`leafAt`).
`NoneFrom t a s` says that there is no such string. Both are decided at a node by its children: a
string below a branch comes either from the zero side, or from the one side if the zero side has none
(`isNext_branch_zero`, `isNext_branch_of_noneFrom`).
-/

namespace LibLisa.Lib.BitTree

open BitString

variable {α : Type} {t zero one next : BitTree α} {a : α} {s : BitString} {l : List Bool}

/-- No string from `s` on has the answer `a`. -/
def NoneFrom (t : BitTree α) (a : α) (s : BitString) : Prop := ∀ u, s ≤ u → t.walk u ≠ a

/-- The list `l` leads to the answer `a`, first among the strings from `s` on. -/
structure IsNext (t : BitTree α) (a : α) (s : BitString) (l : List Bool) : Prop where
  le_pad : s ≤ pad l
  pad_le : ∀ u, s ≤ u → t.walk u = a → pad l ≤ u
  leafAt_eq : t.leafAt l = some a

lemma IsNext.walk_eq (h : t.IsNext a s l) (u : BitString) (hu : StartsWith l u) : t.walk u = a :=
  walk_eq_of_leafAt h.leafAt_eq hu

lemma IsNext.isLeast (h : t.IsNext a s l) : IsLeast {u | t.walk u = a ∧ s ≤ u} (pad l) :=
  ⟨⟨h.walk_eq _ (startsWith_pad l), h.le_pad⟩, fun u hu => h.pad_le u hu.2 hu.1⟩

lemma IsNext.not_noneFrom (h : t.IsNext a s l) : ¬ t.NoneFrom a s :=
  fun hn => hn _ h.le_pad (h.walk_eq _ (startsWith_pad l))

lemma isNext_leaf (a : α) (l : List Bool) : (leaf a).IsNext a (pad l) l :=
  ⟨le_rfl, fun _ hu _ => hu, leafAt_leaf l a⟩

lemma noneFrom_leaf {e : α} (h : e ≠ a) (s : BitString) : (leaf e).NoneFrom a s := fun _ _ => h

/-! ## Branches -/

lemma cons_le_iff {b : Bool} {s u : BitString} :
    cons b s ≤ u ↔ b < u.bit 0 ∨ b = u.bit 0 ∧ s ≤ u.tail := le_iff_head_tail

/-- On the zero side the search goes on below `zero`. -/
theorem isNext_branch_zero (h : zero.IsNext a s l) :
    (branch zero one).IsNext a (cons false s) (false :: l) := by
  refine ⟨by simpa using h.le_pad, fun u hu hw => ?_, h.leafAt_eq⟩
  · rw [pad_cons, cons_le_iff]
    rw [walk_branch] at hw
    cases h0 : u.bit 0 with
    | true => exact Or.inl (by simp)
    | false =>
      rw [cons_le_iff, h0] at hu
      refine Or.inr ⟨rfl, h.pad_le _ ?_ (by simpa [h0] using hw)⟩
      simpa using hu

/-- On the one side the search goes on below `one`. -/
lemma isNext_branch_one (h : one.IsNext a s l) :
    (branch zero one).IsNext a (cons true s) (true :: l) := by
  refine ⟨by simpa using h.le_pad, fun u hu hw => ?_, h.leafAt_eq⟩
  · rw [pad_cons, cons_le_iff]
    rw [cons_le_iff] at hu
    obtain hu | ⟨h0, hu⟩ := hu
    · exact Or.inl hu
    · rw [walk_branch, ← h0] at hw
      exact Or.inr ⟨h0, h.pad_le _ hu hw⟩

/-- When the zero side has nothing left, the search starts over below `one`. -/
theorem isNext_branch_of_noneFrom (h0 : zero.NoneFrom a s) (h : one.IsNext a (pad []) l) :
    (branch zero one).IsNext a (cons false s) (true :: l) := by
  refine ⟨?_, fun u hu hw => ?_, h.leafAt_eq⟩
  · rw [pad_cons]
    exact (cons_false_lt_cons_true _ _).le
  · rw [pad_cons, cons_le_iff]
    rw [walk_branch] at hw
    cases hb : u.bit 0 with
    | true => exact Or.inr ⟨rfl, h.pad_le _ (pad_nil_le _) (by simpa [hb] using hw)⟩
    | false =>
      rw [cons_le_iff, hb] at hu
      exact absurd (by simpa [hb] using hw) (h0 u.tail (by simpa using hu))

lemma noneFrom_branch_zero :
    (branch zero one).NoneFrom a (cons false s) ↔ zero.NoneFrom a s ∧ one.NoneFrom a (pad []) := by
  constructor
  · intro h
    refine ⟨fun u hu => ?_, fun u _ => ?_⟩
    · simpa using h (cons false u) (by simpa using hu)
    · simpa using h (cons true u) (cons_false_lt_cons_true _ _).le
  · rintro ⟨h0, h1⟩ u hu
    rw [walk_branch]
    rw [cons_le_iff] at hu
    cases hb : u.bit 0 with
    | true => exact h1 _ (pad_nil_le _)
    | false => exact h0 _ (by simpa [hb] using hu)

lemma noneFrom_branch_one : (branch zero one).NoneFrom a (cons true s) ↔ one.NoneFrom a s := by
  constructor
  · intro h u hu
    simpa using h (cons true u) (by simpa using hu)
  · intro h u hu
    rw [cons_le_iff] at hu
    obtain hu | ⟨hb, hu⟩ := hu
    · exact absurd hu (by simp)
    · rw [walk_branch, ← hb]
      exact h _ hu

/-! ## Ignored bits -/

lemma walk_ignore_eq_branch (next : BitTree α) (u : BitString) :
    (ignore next).walk u = (branch next next).walk u := by
  rw [walk_branch, walk_ignore, ite_self]

/-- An ignored bit is a branch with the same tree on both sides. -/
lemma isNext_ignore {b : Bool} (h : (branch next next).IsNext a s (b :: l)) :
    (ignore next).IsNext a s (b :: l) := by
  refine ⟨h.le_pad, fun u hu hw => h.pad_le u hu ?_, ?_⟩
  · rw [← walk_ignore_eq_branch]
    exact hw
  · have hleaf := h.leafAt_eq
    rwa [leafAt, ite_self] at hleaf

lemma noneFrom_ignore_iff : (ignore next).NoneFrom a s ↔ (branch next next).NoneFrom a s := by
  simp only [NoneFrom, walk_ignore_eq_branch]

end LibLisa.Lib.BitTree
