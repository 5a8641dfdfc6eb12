import LibLisa.Utils.MinisatVerdict

/-!
# Visiting all solutions

`solve_with` with a closure that looks at each assignment and never returns a result, as
`FilterGroup::sub` uses it. The loop is that of `searchLoop`, with the assignments that the closure
is called with as its result. These are the assignments that the search offers (`exists_visit`).
-/

namespace LibLisa.Minisat

open Lib Lib.Cnf

/-- The loop of `check_disjunctions_internal` for a closure that never returns a result. -/
def visitLoop (disjunctions : List (List Term)) :
    ℕ → List (ℕ × Option ℕ) → Assumptions → Partial (List Assumptions)
  | _, [], _ => .ok []
  | 0, _ :: _, _ => .error .outOfFuel
  | n + 1, (depth, termIndex) :: stack, a => do
    let disjunction ← orPanic .indexOutOfBounds disjunctions[depth]?
    let a ← resetLast disjunction a termIndex
    match nextFree disjunction a (termIndex.elim 0 (· + 1)) with
    | none => visitLoop disjunctions n stack a
    | some (newTerm, newIndex) =>
      let a := newTerm.assign a
      match nextOpen disjunctions a (depth + 1) with
      | some (_, nextDepth) =>
        visitLoop disjunctions n ((nextDepth, none) :: (depth, some newIndex) :: stack) a
      | none => do
        let visited ← visitLoop disjunctions n ((depth, some newIndex) :: stack) a
        return a :: visited

/-- `check_disjunctions` for such a closure. -/
def visitDisjunctions (disjunctions : List (List Term)) (a : Assumptions) :
    Partial (List Assumptions) :=
  if disjunctions.isEmpty then .ok [a]
  else visitLoop disjunctions (searchFuel disjunctions) [(0, none)] a

/-- The loop over the disjunction of conjunctions for such a closure. -/
def visitConjunctions (s : SatSolver) :
    List Assumptions → List (List Term) → Partial (List Assumptions)
  | _, [] => .ok []
  | seen, conj :: conjs => do
    let a := conj.foldl (fun a t => t.assign a) s.terms
    if a ∈ seen then visitConjunctions s seen conjs
    else do
      let visited ← visitDisjunctions s.disjunctions a
      let rest ← visitConjunctions s (a :: seen) conjs
      return visited ++ rest

/-- The assignments that `solve_with` calls such a closure with. -/
def SatSolver.visit (s : SatSolver) : Partial (List Assumptions) := do
  let s ← s.prepare
  if !s.hasDisjunctionOfConjunctions then visitDisjunctions s.disjunctions s.terms
  else visitConjunctions s [] s.disjunctionOfConjunctions

/-! ## What is visited -/

variable {disjunctions : List (List Term)}

/-- A run that no assignment stops visits all of them; any other closure gets the first one that it
accepts. -/
lemma exists_visitLoop :
    ∀ (n : ℕ) (stack : List (ℕ × Option ℕ)) (a : Assumptions),
      searchLoop disjunctions (fun _ => (none : Option Unit)) n stack a = .ok none →
      ∃ visited, visitLoop disjunctions n stack a = .ok visited ∧
        ∀ {T : Type} (found : Assumptions → Option T),
          searchLoop disjunctions found n stack a = .ok (visited.findSome? found)
  | n, [], a, _ => ⟨[], by unfold visitLoop; rfl, fun _ => by unfold searchLoop; rfl⟩
  | 0, _ :: _, a, h => nomatch h
  | n + 1, (depth, termIndex) :: stack, a, h => by
    unfold searchLoop at h
    obtain ⟨disjunction, a', hdisj, hreset, h⟩ := ok_of_bind₂ h
    unfold visitLoop searchLoop
    simp only [hdisj, ok_bind, hreset]
    rcases hfree : nextFree disjunction a' (termIndex.elim 0 (· + 1)) with _ | ⟨t, i⟩
    · simp only [hfree] at h
      exact exists_visitLoop n stack a' h
    simp only [hfree] at h
    rcases hopen : nextOpen disjunctions (t.assign a') (depth + 1) with _ | ⟨c, nextDepth⟩
    · simp only [hopen] at h ⊢
      obtain ⟨visited, hvisit, hsearch⟩ := exists_visitLoop n _ _ h
      refine ⟨t.assign a' :: visited, by rw [hvisit]; rfl, fun found => ?_⟩
      rw [List.findSome?_cons]
      cases found (t.assign a') with
      | none => exact hsearch found
      | some result => rfl
    · simp only [hopen] at h ⊢
      exact exists_visitLoop n _ _ h

lemma exists_visitDisjunctions {a : Assumptions} (hdom : ∀ c ∈ disjunctions, InDom a c) :
    ∃ visited, visitDisjunctions disjunctions a = .ok visited ∧
      ∀ b, b ∈ visited ↔ b ∈ offered disjunctions a := by
  by_cases hempty : disjunctions.isEmpty = true
  · refine ⟨[a], by rw [visitDisjunctions, if_pos hempty], fun b => ?_⟩
    rw [List.isEmpty_iff.mp hempty]
    rfl
  have hcheck : ∀ {T : Type} (found : Assumptions → Option T),
      searchLoop disjunctions found (searchFuel disjunctions) [(0, none)] a =
        .ok ((offered disjunctions a).findSome? found) := by
    intro T found
    rw [← checkDisjunctions_eq hdom, checkDisjunctions, if_neg hempty]
  obtain ⟨visited, hvisit, hsearch⟩ := exists_visitLoop (searchFuel disjunctions) [(0, none)] a
    ((hcheck _).trans (by simp))
  refine ⟨visited, by rw [visitDisjunctions, if_neg hempty, hvisit], fun b => ?_⟩
  -- a closure that accepts `b` only is called with `b` in both
  have hfirst := ok_unique (hsearch fun x => if x = b then some () else none) (hcheck _)
  have hmem : ∀ l : List Assumptions,
      (l.findSome? fun x => if x = b then some () else none).isSome = true ↔ b ∈ l := by
    simp [List.findSome?_isSome_iff]
  rw [← hmem, hfirst, hmem]

/-- The assignments visited are those that the search offers. -/
theorem SatSolver.exists_visit {s : SatSolver} (hrange : s.InRange)
    (hconj : s.disjunctionOfConjunctions = []) (hhas : s.hasDisjunctionOfConjunctions = false) :
    ∃ visited, s.visit = .ok visited ∧ ∀ b, b ∈ visited ↔ b ∈ offered s.simplified s.terms := by
  obtain ⟨visited, hvisit, hmem⟩ := exists_visitDisjunctions hrange.simplified
  refine ⟨visited, ?_, hmem⟩
  rw [visit, (prepare_eq_ok_iff hconj).mpr ⟨hrange, rfl⟩]
  simp only [hhas]
  exact hvisit

lemma length_of_mem_offered {a b : Assumptions} (h : b ∈ offered disjunctions a) :
    b.length = a.length := by
  have hdom : ∀ v, v < b.length ↔ v < a.length := by
    cases disjunctions with
    | nil =>
      obtain rfl := List.mem_singleton.mp h
      exact fun v => Iff.rfl
    | cons d ds => exact dom_of_mem_branch h
  have h₁ := hdom b.length
  have h₂ := hdom a.length
  omega

end LibLisa.Minisat
