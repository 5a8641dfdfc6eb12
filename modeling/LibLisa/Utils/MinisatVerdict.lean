import LibLisa.Utils.MinisatSearch

/-!
# When the verdict of the solver is right

`Describes` relates a solver to the calls that built it and is kept by every call; `solve_eq_ok_iff`
says what `solve` returns. Together they give the exact condition under which the verdict is right. Two
things go wrong in the source: the flag that records a contradiction between conjunctions is never
read, and the first clause is searched even if the fixed terms already make it true.
-/

namespace LibLisa.Minisat

open Lib Lib.Cnf List Except SatSolver

/-- A total assignment satisfies the constraint that a call adds. -/
def Call.Holds (σ : ℕ → Bool) : Call → Prop
  | .andConjunction items => ∀ t ∈ items, t.Holds σ
  | .andNotConjunction items => ¬ ∀ t ∈ items, t.Holds σ

/-- The verdict is right: the assignment satisfies every constraint, or none does. -/
def Correct (calls : List Call) : SolverResult → Prop
  | .sat bitmap => ∀ c ∈ calls, c.Holds fun v => bitmap.getD v false
  | .unsat => ¬ ∃ σ, ∀ c ∈ calls, c.Holds σ

/-! ## The state after a sequence of calls -/

variable {terms : Assumptions} {s : SatSolver} {calls : List Call} {s s' : SatSolver} {maxTerms : ℕ}
  {σ : ℕ → Bool}

lemma index_eq_ok_iff {v : ℕ} {x : Option Bool} :
    index terms v = .ok x ↔ v < terms.length ∧ terms.get v = x := by
  unfold index Assumptions.get
  by_cases h : v < terms.length
  · simp [h]
  · simp [h]

/-- `fix_terms` adds the items to the fixed terms or finds that they contradict them. -/
lemma fixTerms_spec {items : List Term} (hunsat : s.unsat = false) (h : s.fixTerms items = .ok s') :
    (∃ terms unsat, s' = { s with terms := terms, unsat := unsat } ∧
      terms.length = s.terms.length) ∧
    ∀ σ, s'.unsat = false ∧ Extends σ s'.terms ↔
      Extends σ s.terms ∧ ∀ t ∈ items, t.Holds σ := by
  induction items generalizing s with
  | nil =>
    obtain rfl := ok.inj h
    exact ⟨⟨_, _, rfl, rfl⟩, by simp [hunsat]⟩
  | cons item items ih =>
    obtain ⟨x, hx, h⟩ := ok_of_bind h
    obtain ⟨hlt, rfl⟩ := index_eq_ok_iff.mp hx
    split at h
    · -- the item is false under the terms
      rename_i hfalse
      obtain rfl := ok.inj h
      refine ⟨⟨_, _, rfl, rfl⟩, fun σ => ⟨nofun, fun ⟨hσ, hitems⟩ => ?_⟩⟩
      have hvalue : σ item.var = !item.value := hσ _ _ hfalse
      have hitem : σ item.var = item.value := hitems item (by simp)
      simp [hitem] at hvalue
    · rename_i hpossible
      obtain ⟨⟨terms, unsat, rfl, hlen⟩, hiff⟩ := ih (s := { s with terms := item.assign s.terms }) hunsat h
      refine ⟨⟨terms, unsat, rfl, hlen.trans length_set⟩, fun σ => ?_⟩
      have hassign : Extends σ (item.assign s.terms) ↔ Extends σ s.terms ∧ item.Holds σ :=
        Literal.extends_assign_iff hpossible hlt
      rw [hiff σ, forall_mem_cons, ← and_assoc]
      exact and_congr_left fun _ => hassign

/-- The solver holds the constraints of the calls, unless it has found a contradiction. -/
structure Describes (maxTerms : ℕ) (calls : List Call) (s : SatSolver) : Prop where
  length_terms : s.terms.length = maxTerms
  conjunctions : s.disjunctionOfConjunctions = []
  hasConjunctions : s.hasDisjunctionOfConjunctions = false
  holds_iff : ∀ σ, (∀ c ∈ calls, c.Holds σ) ↔
    s.unsat = false ∧ Extends σ s.terms ∧ Holds σ s.disjunctions

lemma describes_new (maxTerms : ℕ) : Describes maxTerms [] (new maxTerms) where
  length_terms := length_replicate
  conjunctions := rfl
  hasConjunctions := rfl
  holds_iff σ := by
    have hnone : ∀ v : ℕ, (List.replicate maxTerms (none : Option Bool))[v]?.join = none := by
      intro v
      rw [getElem?_replicate]
      split <;> rfl
    have hext : Extends σ (new maxTerms).terms := by
      intro v b hv
      exact absurd ((hnone v).symm.trans hv) nofun
    simp [new] at hext ⊢
    exact hext

lemma holds_concat (σ : ℕ → Bool) (disjunctions : List (List Term)) (items : List Term) :
    Holds σ (disjunctions ++ [items.map Literal.not]) ↔
      Holds σ disjunctions ∧ ¬ ∀ t ∈ items, t.Holds σ := by
  have hclause : ClauseHolds σ (items.map Literal.not) ↔ ¬ ∀ t ∈ items, t.Holds σ := by
    simp [ClauseHolds, Literal.holds_not_iff]
  unfold Holds
  rw [forall_mem_append, forall_mem_singleton, hclause]

/-- Every call adds its constraint. -/
lemma Describes.apply {c : Call} (hs : Describes maxTerms calls s) (h : c.apply s = .ok s') :
    Describes maxTerms (calls ++ [c]) s' := by
  have hcalls : ∀ σ, (∀ c' ∈ calls ++ [c], c'.Holds σ) ↔
      (s.unsat = false ∧ Extends σ s.terms ∧ Holds σ s.disjunctions) ∧ c.Holds σ := by
    intro σ
    rw [forall_mem_append, forall_mem_singleton, hs.holds_iff]
  cases c with
  | andNotConjunction items =>
    obtain rfl := ok.inj h
    refine ⟨hs.length_terms, hs.conjunctions, hs.hasConjunctions, fun σ => ?_⟩
    rw [hcalls, andNotConjunction, holds_concat, and_assoc, and_assoc]
    rfl
  | andConjunction items =>
    unfold Call.apply andConjunction at h
    by_cases hunsat : s.unsat = true
    · -- the calls so far are contradictory
      simp only [if_pos hunsat] at h
      obtain rfl := ok.inj h
      refine ⟨hs.length_terms, hs.conjunctions, hs.hasConjunctions, fun σ => ?_⟩
      rw [hcalls]
      simp [hunsat]
    · simp only [if_neg hunsat] at h
      obtain ⟨⟨terms, unsat, rfl, hlen⟩, hiff⟩ := fixTerms_spec (by simpa using hunsat) h
      refine ⟨hlen.trans hs.length_terms, hs.conjunctions, hs.hasConjunctions, fun σ => ?_⟩
      rw [hcalls, ← and_assoc (a := unsat = false), hiff σ]
      simp only [hunsat, true_and]
      exact and_right_comm

/-- What a sequence of calls builds. -/
lemma describes_of_build (h : build maxTerms calls = .ok s) : Describes maxTerms calls s := by
  have hfold : Lib.Ensures (build maxTerms calls) (fun _ => True) (Describes maxTerms calls) := by
    refine Lib.Ensures.foldlM (describes_new maxTerms) fun done c _ _ s hs => ?_
    cases happly : c.apply s with
    | ok s' => exact hs.apply happly
    | error e => trivial
  exact hfold.of_ok h

/-! ## Simplifying the clauses -/

/-- The literals of a clause that the fixed terms do not make false. -/
def possible (terms : Assumptions) (clause : List Term) : List Term :=
  clause.filter fun t => decide (terms.get t.var ≠ some (!t.value))

/-- Every variable of a clause has to have an entry. -/
lemma retainPossible_eq_ok_iff {clause kept : List Term} :
    retainPossible terms clause = .ok kept ↔ InDom terms clause ∧ possible terms clause = kept := by
  induction clause generalizing kept with
  | nil => simp [retainPossible, InDom, possible]
  | cons t ts ih =>
    have hdom : InDom terms (t :: ts) ↔ t.var < terms.length ∧ InDom terms ts := forall_mem_cons
    have hkept : possible terms (t :: ts) = if terms.get t.var = some (!t.value)
        then possible terms ts else t :: possible terms ts := by
      simp [possible, filter_cons]
    rw [retainPossible, bind_eq_ok_iff, hdom, hkept]
    constructor
    · rintro ⟨x, hx, h⟩
      obtain ⟨hlt, rfl⟩ := index_eq_ok_iff.mp hx
      obtain ⟨kept', hkept', h⟩ := ok_of_bind h
      obtain ⟨hts, rfl⟩ := ih.mp hkept'
      exact ⟨⟨hlt, hts⟩, ok.inj h⟩
    · rintro ⟨⟨hlt, hts⟩, rfl⟩
      exact ⟨_, index_eq_ok_iff.mpr ⟨hlt, rfl⟩, bind_eq_ok_iff.mpr ⟨_, ih.mpr ⟨hts, rfl⟩, rfl⟩⟩

/-- Dropping false literals does not change a clause for the extensions of the fixed terms. -/
lemma clauseHolds_possible_iff (hσ : Extends σ terms) (clause : List Term) :
    ClauseHolds σ (possible terms clause) ↔ ClauseHolds σ clause := by
  constructor
  · rintro ⟨t, ht, hholds⟩
    exact ⟨t, (mem_filter.mp ht).1, hholds⟩
  · rintro ⟨t, ht, hholds⟩
    refine ⟨t, mem_filter.mpr ⟨ht, decide_eq_true fun hfalse => ?_⟩, hholds⟩
    have hvalue : σ t.var = !t.value := hσ _ _ hfalse
    rw [hholds] at hvalue
    exact (Bool.eq_not_self _).mp hvalue

namespace SatSolver

/-- Every variable of a clause has an entry in the fixed terms. -/
def InRange (s : SatSolver) : Prop := ∀ clause ∈ s.disjunctions, InDom s.terms clause

/-- The clauses that are searched: without the false literals, and shorter ones first. -/
def simplified (s : SatSolver) : List (List Term) :=
  (s.disjunctions.map (possible s.terms)).mergeSort fun d₁ d₂ => decide (d₁.length ≤ d₂.length)

lemma mem_simplified {clause : List Term} :
    clause ∈ s.simplified ↔ ∃ d ∈ s.disjunctions, possible s.terms d = clause := by
  unfold simplified
  rw [(mergeSort_perm _ _).mem_iff, mem_map]

lemma holds_simplified_iff (hσ : Extends σ s.terms) :
    Holds σ s.simplified ↔ Holds σ s.disjunctions := by
  unfold Holds
  simp only [mem_simplified, forall_exists_index, and_imp, forall_apply_eq_imp_iff₂,
    clauseHolds_possible_iff hσ]

lemma InRange.simplified (h : s.InRange) : ∀ clause ∈ s.simplified, InDom s.terms clause := by
  intro clause hclause t ht
  obtain ⟨d, hd, rfl⟩ := mem_simplified.mp hclause
  exact h d hd t (mem_filter.mp ht).1

lemma mapM_retainPossible_eq_ok_iff {clauses kept : List (List Term)} :
    clauses.mapM (retainPossible terms) = .ok kept ↔
      (∀ c ∈ clauses, InDom terms c) ∧ clauses.map (possible terms) = kept := by
  induction clauses generalizing kept with
  | nil => simp [pure, Except.pure]
  | cons c cs ih =>
    rw [mapM_cons, bind_eq_ok_iff, forall_mem_cons]
    constructor
    · rintro ⟨k, hk, h⟩
      obtain ⟨ks, hks, h⟩ := ok_of_bind h
      obtain ⟨hc, rfl⟩ := retainPossible_eq_ok_iff.mp hk
      obtain ⟨hcs, rfl⟩ := ih.mp hks
      exact ⟨⟨hc, hcs⟩, ok.inj h⟩
    · rintro ⟨⟨hc, hcs⟩, rfl⟩
      exact ⟨_, retainPossible_eq_ok_iff.mpr ⟨hc, rfl⟩,
        bind_eq_ok_iff.mpr ⟨_, ih.mpr ⟨hcs, rfl⟩, rfl⟩⟩

/-- Without a disjunction of conjunctions, a solver is simplified unless a variable is out of
range. -/
lemma prepare_eq_ok_iff (hconj : s.disjunctionOfConjunctions = []) :
    s.prepare = .ok s' ↔ s.InRange ∧ { s with disjunctions := s.simplified } = s' := by
  unfold prepare
  rw [hconj, retainConjunctions, ok_bind, bind_eq_ok_iff]
  constructor
  · rintro ⟨kept, hkept, h⟩
    obtain ⟨hrange, rfl⟩ := mapM_retainPossible_eq_ok_iff.mp hkept
    exact ⟨hrange, ok.inj h⟩
  · rintro ⟨hrange, rfl⟩
    exact ⟨_, mapM_retainPossible_eq_ok_iff.mpr ⟨hrange, rfl⟩, rfl⟩

/-! ## The verdict -/

/-- An assignment that the search can come to: it extends the fixed terms, satisfies the clauses
and makes true a literal of the first clause whose variable is not fixed. -/
def Branches (s : SatSolver) (σ : ℕ → Bool) : Prop :=
  Extends σ s.terms ∧ Holds σ s.disjunctions ∧
    ∀ clause ∈ s.simplified.head?, ∃ t ∈ clause, s.terms.get t.var = none ∧ t.Holds σ

lemma exists_mem_offered_iff (hrange : s.InRange) (σ : ℕ → Bool) :
    (∃ b ∈ offered s.simplified s.terms, Extends σ b) ↔ s.Branches σ := by
  have hdom := hrange.simplified
  unfold Branches
  rw [and_congr_right fun hσ => and_congr_left fun _ => (holds_simplified_iff hσ).symm]
  cases hs : s.simplified with
  | nil => simp [offered]
  | cons d ds =>
    rw [hs] at hdom
    obtain ⟨hd, hds⟩ := forall_mem_cons.mp hdom
    rw [offered, exists_mem_branch_iff_of_search hd fun _ _ =>
      exists_mem_search_iff σ fun c hc => inDom_assign_iff.mpr (hds c hc), holds_cons]
    refine and_congr_right fun _ => ⟨?_, ?_⟩
    · rintro ⟨⟨t, ht, hfree, hholds⟩, hrest⟩
      refine ⟨⟨⟨t, ht, hholds⟩, hrest⟩, ?_⟩
      rintro clause ⟨⟩
      exact ⟨t, ht, Option.isNone_iff_eq_none.mp hfree, hholds⟩
    · rintro ⟨⟨_, hrest⟩, hfirst⟩
      obtain ⟨t, ht, hfree, hholds⟩ := hfirst d rfl
      exact ⟨⟨t, ht, Option.isNone_iff_eq_none.mpr hfree, hholds⟩, hrest⟩

end SatSolver

/-- The assignment of a bitmap, with the variables that the search left open set to false. -/
def completion (a : Assumptions) : List Bool := a.map fun v => v.getD false

lemma extends_completion (a : Assumptions) : Extends (fun v => (completion a).getD v false) a := by
  intro v b hv
  have hget : a[v]? = some (some b) := by
    exact Option.join_eq_some_iff.mp hv
  simp [completion, hget]

namespace SatSolver

/-- The verdict that `solve` gives on a solver whose variables are all in range. -/
def verdict (s : SatSolver) : SolverResult :=
  match offered s.simplified s.terms with
  | [] => .unsat
  | b :: _ => .sat (completion b)

/-- `solve` takes the first assignment that the search offers, and panics if a variable of a
clause is out of range. -/
theorem solve_eq_ok_iff {r : SolverResult × SatSolver}
    (hconj : s.disjunctionOfConjunctions = []) (hhas : s.hasDisjunctionOfConjunctions = false) :
    s.solve = .ok r ↔ s.InRange ∧ (s.verdict, { s with disjunctions := s.simplified }) = r := by
  unfold solve solveWith
  by_cases hrange : s.InRange
  · rw [(prepare_eq_ok_iff hconj).mpr ⟨hrange, rfl⟩, ok_bind, searchWith]
    simp only [hhas]
    rw [checkDisjunctions_eq hrange.simplified]
    simp only [hrange, true_and, verdict]
    cases offered s.simplified s.terms with
    | nil => exact ⟨ok.inj, congrArg ok⟩
    | cons b bs => exact ⟨ok.inj, congrArg ok⟩
  · constructor
    · intro h
      obtain ⟨_, h, _⟩ := ok_of_bind h
      obtain ⟨s', h, _⟩ := ok_of_bind h
      exact absurd ((prepare_eq_ok_iff hconj).mp h).1 hrange
    · rintro ⟨h, _⟩
      exact absurd h hrange

/-- The solver finds an assignment exactly if the search can come to one. -/
lemma verdict_cases (hrange : s.InRange) :
    (∃ bitmap, s.verdict = .sat bitmap ∧ s.Branches fun v => bitmap.getD v false) ∨
      (s.verdict = .unsat ∧ ∀ σ, ¬ s.Branches σ) := by
  have hiff := exists_mem_offered_iff hrange
  unfold verdict
  cases hoffered : offered s.simplified s.terms with
  | nil =>
    refine .inr ⟨rfl, fun σ hσ => ?_⟩
    obtain ⟨b, hb, _⟩ := (hiff σ).mpr hσ
    rw [hoffered] at hb
    exact not_mem_nil hb
  | cons b bs =>
    refine .inl ⟨completion b, rfl, (hiff _).mp ⟨b, ?_, extends_completion b⟩⟩
    rw [hoffered]
    exact (.head _)

/-- The condition for a right verdict, on the solver that `solve` is called on. After a
contradiction between conjunctions the search must come to nothing; otherwise, if the constraints
can be satisfied at all, it must come to something. -/
structure Decides (s : SatSolver) : Prop where
  inRange : s.InRange
  conflict : s.unsat = true → ∀ σ, ¬ s.Branches σ
  noConflict : s.unsat = false →
    (∃ σ, Extends σ s.terms ∧ Holds σ s.disjunctions) → ∃ σ, s.Branches σ

lemma correct_verdict_iff (hs : Describes maxTerms calls s) (hrange : s.InRange) :
    Correct calls s.verdict ↔ s.Decides := by
  rcases verdict_cases hrange with ⟨bitmap, hverdict, hbranch⟩ | ⟨hverdict, hnone⟩
  · have hcorrect : Correct calls s.verdict ↔ s.unsat = false := by
      rw [hverdict, Correct, hs.holds_iff]
      exact and_iff_left ⟨hbranch.1, hbranch.2.1⟩
    rw [hcorrect]
    constructor
    · intro h
      exact ⟨hrange, fun h' => absurd (h'.symm.trans h) nofun, fun _ _ => ⟨_, hbranch⟩⟩
    · intro h
      by_contra hconflict
      exact h.conflict (by simpa using hconflict) _ hbranch
  · have hcorrect : Correct calls s.verdict ↔
        ¬ ∃ σ, s.unsat = false ∧ Extends σ s.terms ∧ Holds σ s.disjunctions := by
      rw [hverdict, Correct]
      simp only [hs.holds_iff]
    rw [hcorrect]
    constructor
    · intro h
      refine ⟨hrange, fun _ => hnone, fun hunsat ⟨σ, hσ⟩ => ?_⟩
      exact absurd ⟨σ, hunsat, hσ⟩ h
    · rintro h ⟨σ, hunsat, hσ⟩
      obtain ⟨τ, hτ⟩ := h.noConflict hunsat ⟨σ, hσ⟩
      exact hnone τ hτ

end SatSolver

/-- For every sequence of calls, the solver returns a right verdict exactly if no variable is out
of range and the search comes to an assignment when it should. -/
theorem solve_correct_iff (maxTerms : ℕ) (calls : List Call) :
    (∃ r, (build maxTerms calls >>= SatSolver.solve) = .ok r ∧ Correct calls r.1) ↔
      ∃ s, build maxTerms calls = .ok s ∧ s.Decides := by
  constructor
  · rintro ⟨r, hr, hcorrect⟩
    obtain ⟨s, hbuild, hsolve⟩ := ok_of_bind hr
    have hs := describes_of_build hbuild
    obtain ⟨hrange, rfl⟩ := (SatSolver.solve_eq_ok_iff hs.conjunctions hs.hasConjunctions).mp hsolve
    exact ⟨s, hbuild, (SatSolver.correct_verdict_iff hs hrange).mp hcorrect⟩
  · rintro ⟨s, hbuild, hdecides⟩
    have hs := describes_of_build hbuild
    refine ⟨_, bind_eq_ok_iff.mpr ⟨s, hbuild,
      (SatSolver.solve_eq_ok_iff hs.conjunctions hs.hasConjunctions).mpr
        ⟨hdecides.inRange, rfl⟩⟩, ?_⟩
    exact (SatSolver.correct_verdict_iff hs hdecides.inRange).mpr hdecides

/-- A clause that the fixed terms make true is reported as unsatisfiable, and a contradiction
between fixed terms as satisfiable. -/
theorem solve_satisfied_clause :
    ((build 1 [.andConjunction [.tt 0], .andNotConjunction [.ff 0]] >>= SatSolver.solve) =
        .ok (.unsat, ⟨[some true], [[.tt 0]], [], false, false⟩) ∧
      ∀ c ∈ [Call.andConjunction [.tt 0], .andNotConjunction [.ff 0]], c.Holds fun _ => true) ∧
    ((build 1 [.andConjunction [.tt 0, .ff 0]] >>= SatSolver.solve) =
        .ok (.sat [true], ⟨[some true], [], [], false, true⟩) ∧
      ¬ ∃ σ, ∀ c ∈ [Call.andConjunction [.tt 0, .ff 0]], c.Holds σ) := by
  refine ⟨⟨by decide +kernel, ?_⟩, by decide +kernel, ?_⟩
  · simp [Call.Holds, Literal.Holds, Term.tt, Term.ff]
  · rintro ⟨σ, hσ⟩
    simp [Call.Holds, Literal.Holds, Term.tt, Term.ff] at hσ

end LibLisa.Minisat
