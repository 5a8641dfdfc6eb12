import Mathlib.Data.List.Basic

/-!
# Clauses and a backtracking search over them

Literals, clauses and assignments, and the search that makes clauses true one after the other: a
clause that the assignment so far makes true is skipped, any other is tried with each of its free
literals. `exists_mem_search_iff` says which total assignments the leaves of the search stand for.

The assignment under construction is kept in a store of any type (an array, a map); `Store` says
what the search needs of it.
-/

namespace LibLisa.Lib.Cnf

open List

/-- A variable or its negation. -/
structure Literal (V : Type) where
  var : V
  value : Bool
deriving DecidableEq, Repr

variable {A V : Type}

namespace Literal

/-- The opposite literal. -/
def not (l : Literal V) : Literal V := { l with value := !l.value }

/-- The literal is true under a total assignment. -/
def Holds (σ : V → Bool) (l : Literal V) : Prop := σ l.var = l.value

instance (σ : V → Bool) (l : Literal V) : Decidable (l.Holds σ) :=
  inferInstanceAs (Decidable (σ l.var = l.value))

lemma holds_not_iff (σ : V → Bool) (l : Literal V) : l.not.Holds σ ↔ ¬ l.Holds σ := by
  unfold Holds not
  cases σ l.var <;> cases l.value <;> simp

end Literal

/-- One of the literals of a clause is true. -/
def ClauseHolds (σ : V → Bool) (clause : List (Literal V)) : Prop := ∃ l ∈ clause, l.Holds σ

/-- All clauses are true. -/
def Holds (σ : V → Bool) (clauses : List (List (Literal V))) : Prop :=
  ∀ clause ∈ clauses, ClauseHolds σ clause

@[simp] lemma holds_nil (σ : V → Bool) : Holds σ [] := by simp [Holds]

@[simp] lemma holds_cons (σ : V → Bool) (clause : List (Literal V))
    (clauses : List (List (Literal V))) :
    Holds σ (clause :: clauses) ↔ ClauseHolds σ clause ∧ Holds σ clauses := by
  simp [Holds]

/-- A partial assignment: what is stored for a variable can be read and set, for the variables it
has room for. -/
class Store (A : Type) (V : outParam Type) where
  get : A → V → Option Bool
  set : A → V → Bool → A
  /-- The variables that can be set. -/
  Dom : A → V → Prop
  dom_set : ∀ {a : A} {v w : V} {b : Bool}, Dom (set a v b) w ↔ Dom a w
  get_set_self : ∀ {a : A} {v : V} {b : Bool}, Dom a v → get (set a v b) v = some b
  get_set_of_ne : ∀ {a : A} {v w : V} {b : Bool}, v ≠ w → get (set a v b) w = get a w

variable [Store A V]

/-- The total assignment `σ` agrees with what is stored. -/
def Extends (σ : V → Bool) (a : A) : Prop := ∀ v b, Store.get a v = some b → σ v = b

namespace Literal

/-- The store makes the literal true. -/
def isTrue (a : A) (l : Literal V) : Bool := Store.get a l.var == some l.value

/-- The store says nothing about the literal. -/
def isFree (a : A) (l : Literal V) : Bool := (Store.get a l.var).isNone

/-- Makes the literal true in the store. -/
def assign (a : A) (l : Literal V) : A := Store.set a l.var l.value

variable {σ : V → Bool} {l : Literal V} {a : A}

lemma Holds.of_isTrue (hσ : Extends σ a) (h : l.isTrue a) :
    l.Holds σ := hσ l.var l.value (by simpa [isTrue] using h)

/-- A literal that is true under an extension of the store is true in the store or free. -/
lemma Holds.isFree_or_isTrue (hσ : Extends σ a) (h : l.Holds σ) : l.isFree a ∨ l.isTrue a := by
  unfold isFree isTrue
  cases hget : Store.get a l.var with
  | none => exact .inl rfl
  | some b =>
    have hb : l.value = b := h.symm.trans (hσ l.var b hget)
    exact .inr (by simp [hb])

/-- Assigning a literal that is not false leaves the extensions under which it is true. -/
lemma extends_assign_iff (hpossible : Store.get a l.var ≠ some (!l.value))
    (hdom : Store.Dom a l.var) : Extends σ (l.assign a) ↔ Extends σ a ∧ l.Holds σ := by
  constructor
  · intro h
    have hl : l.Holds σ := h _ _ (Store.get_set_self hdom)
    refine ⟨fun v b hv => ?_, hl⟩
    by_cases hvar : l.var = v
    · subst hvar
      have hb : b ≠ !l.value := fun hb => hpossible (hb ▸ hv)
      exact hl.trans (Bool.eq_not_of_ne hb ▸ (Bool.not_not _).symm)
    · exact h v b ((Store.get_set_of_ne hvar).trans hv)
  · rintro ⟨h, hl⟩ v b hv
    unfold assign at hv
    by_cases hvar : l.var = v
    · subst hvar
      rw [Store.get_set_self hdom] at hv
      exact hl.trans (Option.some.inj hv)
    · rw [Store.get_set_of_ne hvar] at hv
      exact h v b hv

lemma possible_of_isFree (h : l.isFree a) : Store.get a l.var ≠ some (!l.value) := by
  rw [Option.isNone_iff_eq_none.mp h]
  exact nofun

end Literal

/-- The leaves of the backtracking search. -/
def search : List (List (Literal V)) → A → List A
  | [], a => [a]
  | clause :: clauses, a =>
    if clause.any (Literal.isTrue a) then search clauses a
    else (clause.filter (Literal.isFree a)).flatMap fun l => search clauses (l.assign a)

/-- The leaves below a clause, which is tried with each of its free literals even if it is true
already. -/
def branch (clause : List (Literal V)) (clauses : List (List (Literal V))) (a : A) : List A :=
  (clause.filter (Literal.isFree a)).flatMap fun l => search clauses (l.assign a)

@[simp] lemma search_nil (a : A) : search ([] : List (List (Literal V))) a = [a] := rfl

variable {clause : List (Literal V)} {clauses : List (List (Literal V))} {a : A} {l : Literal V}

lemma search_cons_of_isTrue (h : clause.any (Literal.isTrue a) = true) :
    search (clause :: clauses) a = search clauses a := by
  rw [search, if_pos h]

lemma search_cons_of_not_isTrue (h : ¬ clause.any (Literal.isTrue a) = true) :
    search (clause :: clauses) a = branch clause clauses a := by
  rw [search, if_neg h, branch]

/-- The search skips the clauses that are true. -/
lemma search_append_of_isTrue {satisfied : List (List (Literal V))}
    (h : ∀ clause ∈ satisfied, clause.any (Literal.isTrue a) = true) :
    search (satisfied ++ clauses) a = search clauses a := by
  induction satisfied with
  | nil => rfl
  | cons clause satisfied ih =>
    rw [cons_append, search_cons_of_isTrue (h clause (by simp))]
    exact ih fun c hc => h c (by simp [hc])

/-- The store has room for every variable of a clause. -/
def InDom (a : A) (clause : List (Literal V)) : Prop := ∀ l ∈ clause, Store.Dom a l.var

lemma inDom_assign_iff : InDom (l.assign a) clause ↔ InDom a clause := by
  simp only [InDom, Literal.assign, Store.dom_set]

/-- `exists_mem_branch_iff` for clauses whose search is specified. -/
lemma exists_mem_branch_iff_of_search {σ : V → Bool} (hclause : InDom a clause)
    (hsearch : ∀ l ∈ clause, (∃ b ∈ search clauses (l.assign a), Extends σ b) ↔
      Extends σ (l.assign a) ∧ Holds σ clauses) :
    (∃ b ∈ branch clause clauses a, Extends σ b) ↔
      Extends σ a ∧ (∃ l ∈ clause, l.isFree a ∧ l.Holds σ) ∧ Holds σ clauses := by
  constructor
  · rintro ⟨b, hb, hσ⟩
    obtain ⟨l, hl, hb⟩ := mem_flatMap.mp hb
    obtain ⟨hl, hfree⟩ := mem_filter.mp hl
    obtain ⟨hassign, hholds⟩ := (hsearch l hl).mp ⟨b, hb, hσ⟩
    obtain ⟨ha, hlit⟩ :=
      (Literal.extends_assign_iff (Literal.possible_of_isFree hfree) (hclause l hl)).mp hassign
    exact ⟨ha, ⟨l, hl, hfree, hlit⟩, hholds⟩
  · rintro ⟨ha, ⟨l, hl, hfree, hlit⟩, hholds⟩
    have hassign : Extends σ (l.assign a) :=
      (Literal.extends_assign_iff (Literal.possible_of_isFree hfree) (hclause l hl)).mpr ⟨ha, hlit⟩
    obtain ⟨b, hb, hσ⟩ := (hsearch l hl).mpr ⟨hassign, hholds⟩
    exact ⟨b, mem_flatMap.mpr ⟨l, mem_filter.mpr ⟨hl, hfree⟩, hb⟩, hσ⟩

/-- The leaves of the search stand for the extensions of the store that satisfy the clauses. -/
theorem exists_mem_search_iff (σ : V → Bool) (hdom : ∀ clause ∈ clauses, InDom a clause) :
    (∃ b ∈ search clauses a, Extends σ b) ↔ Extends σ a ∧ Holds σ clauses := by
  induction clauses generalizing a with
  | nil => simp
  | cons clause clauses ih =>
    obtain ⟨hclause, hclauses⟩ := forall_mem_cons.mp hdom
    rw [holds_cons]
    by_cases htrue : clause.any (Literal.isTrue a) = true
    · rw [search_cons_of_isTrue htrue, ih hclauses]
      obtain ⟨l, hl, hlt⟩ := any_eq_true.mp htrue
      exact ⟨fun ⟨ha, h⟩ => ⟨ha, ⟨l, hl, .of_isTrue ha hlt⟩, h⟩, fun ⟨ha, _, h⟩ => ⟨ha, h⟩⟩
    · rw [search_cons_of_not_isTrue htrue, exists_mem_branch_iff_of_search hclause]
      · -- no literal is true in the store, so the one that holds is free
        refine and_congr_right fun ha => and_congr_left fun _ => exists_congr fun l =>
          and_congr_right fun hl => ⟨And.right, fun hlit => ⟨?_, hlit⟩⟩
        refine (hlit.isFree_or_isTrue ha).resolve_right fun hlt => htrue ?_
        exact any_eq_true.mpr ⟨l, hl, hlt⟩
      · exact fun l _ => ih fun c hc => inDom_assign_iff.mpr (hclauses c hc)

/-- The literal tried first, and then the ones after it. -/
lemma branch_append_cons {skipped : List (Literal V)}
    (hskip : ∀ k ∈ skipped, ¬ k.isFree a = true) (hl : l.isFree a = true) :
    branch (skipped ++ l :: clause) clauses a =
      search clauses (l.assign a) ++ branch clause clauses a := by
  have hnil : skipped.filter (Literal.isFree a) = [] := by
    rw [filter_eq_nil_iff]
    exact hskip
  simp [branch, hnil, hl]

lemma branch_of_not_isFree (h : ∀ k ∈ clause, ¬ k.isFree a = true) :
    branch clause clauses a = [] := by
  have hnil : clause.filter (Literal.isFree a) = [] := by
    rw [filter_eq_nil_iff]
    exact h
  simp [branch, hnil]

/-- The search keeps the variables that the store has room for. -/
lemma dom_of_mem_search {b : A} (h : b ∈ search clauses a) (v : V) :
    Store.Dom b v ↔ Store.Dom a v := by
  induction clauses generalizing a with
  | nil =>
    obtain rfl := mem_singleton.mp h
    rfl
  | cons clause clauses ih =>
    rw [search] at h
    split at h
    · exact ih h
    · obtain ⟨l, -, hb⟩ := mem_flatMap.mp h
      rw [ih hb, Literal.assign, Store.dom_set]

lemma dom_of_mem_branch {b : A} (h : b ∈ branch clause clauses a) (v : V) :
    Store.Dom b v ↔ Store.Dom a v := by
  obtain ⟨l, -, hb⟩ := mem_flatMap.mp h
  rw [dom_of_mem_search hb, Literal.assign, Store.dom_set]

end LibLisa.Lib.Cnf
