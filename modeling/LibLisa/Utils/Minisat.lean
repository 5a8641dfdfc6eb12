import LibLisa.Lib.Cnf
import LibLisa.Panic

/-!
# The filter SAT solver

The model of `utils/minisat.rs`. A solver keeps the terms that were fixed by conjunctions, one
clause for each negated conjunction, and a flag for a conjunction that contradicted the terms.
`solve_with` drops the literals that the fixed terms make false, sorts the clauses by length and
searches for assignments with an explicit stack.

The variables of a clause are indexed for the first time when its false literals are dropped, so
that is where a variable that the solver has no room for panics; the search after it only meets
variables that were indexed before.

Where no file is given, the source is `utils/minisat.rs`.
-/

namespace LibLisa.Minisat

open Lib.Cnf

/-- Source: `Term` -/
abbrev Term := Literal ℕ

namespace Term

/-- Source: `Term::tt` -/
def tt (v : ℕ) : Term := ⟨v, true⟩

/-- Source: `Term::ff` -/
def ff (v : ℕ) : Term := ⟨v, false⟩

end Term

/-- What is known of each variable: the slice `[Option<bool>]`. -/
abbrev Assumptions := List (Option Bool)

/-- The entry of a variable. -/
def Assumptions.get (a : Assumptions) (v : ℕ) : Option Bool := a[v]?.join

/-- The slice as the store of a search. -/
instance : Store Assumptions ℕ where
  get := Assumptions.get
  set a v b := a.set v (some b)
  Dom a v := v < a.length
  dom_set := by simp
  get_set_self := by
    intro a v b h
    simp [Assumptions.get, h]
  get_set_of_ne := by
    intro a v w b h
    simp [Assumptions.get, h]

/-- Source: `SatSolver` -/
structure SatSolver where
  terms : Assumptions
  disjunctions : List (List Term)
  disjunctionOfConjunctions : List (List Term)
  hasDisjunctionOfConjunctions : Bool
  unsat : Bool
deriving DecidableEq, Repr

/-- Source: `SolverResult`. The bits of the bitmap are listed from the first. -/
inductive SolverResult where
  | sat (bitmap : List Bool)
  | unsat
deriving DecidableEq, Repr

/-- `terms[v]`, with the bounds check of the source. -/
def index (terms : Assumptions) (v : ℕ) : Partial (Option Bool) :=
  orPanic .indexOutOfBounds terms[v]?

namespace SatSolver

/-- Source: `SatSolver::new` -/
def new (maxTerms : ℕ) : SatSolver where
  terms := List.replicate maxTerms none
  disjunctions := []
  disjunctionOfConjunctions := []
  hasDisjunctionOfConjunctions := false
  unsat := false

/-- The loop of `and_conjunction`. -/
def fixTerms (s : SatSolver) : List Term → Partial SatSolver
  | [] => .ok s
  | item :: items => do
    if (← index s.terms item.var) = some (!item.value) then
      return { s with unsat := true }
    else
      fixTerms { s with terms := s.terms.set item.var (some item.value) } items

/-- Source: `SatSolver::and_conjunction` -/
def andConjunction (s : SatSolver) (items : List Term) : Partial SatSolver :=
  if s.unsat then .ok s else s.fixTerms items

/-- Source: `SatSolver::and_not_conjunction` -/
def andNotConjunction (s : SatSolver) (items : List Term) : SatSolver :=
  { s with disjunctions := s.disjunctions ++ [items.map Literal.not] }

end SatSolver

/-! ## The search -/

/-- The first literal at or after `numDone` whose variable is not assigned. -/
def nextFree (disjunction : List Term) (a : Assumptions) (numDone : ℕ) : Option (Term × ℕ) :=
  (disjunction.zipIdx.drop numDone).find? fun p => p.1.isFree a

/-- The first clause at or after `depth` in which no literal is true. -/
def nextOpen (disjunctions : List (List Term)) (a : Assumptions) (depth : ℕ) :
    Option (List Term × ℕ) :=
  (disjunctions.zipIdx.drop depth).find? fun p => !p.1.any (Literal.isTrue a)

/-- What a frame of the stack undoes when it is on top again: the literal it had assigned. -/
def resetLast (disjunction : List Term) (a : Assumptions) : Option ℕ → Partial Assumptions
  | none => .ok a
  | some termIndex => do
    let t ← orPanic .indexOutOfBounds disjunction[termIndex]?
    return a.set t.var none

variable {T : Type}

/-- The loop of `check_disjunctions_internal`. A frame of the stack is a clause and the literal of
it that is assigned. -/
def searchLoop (disjunctions : List (List Term)) (found : Assumptions → Option T) :
    ℕ → List (ℕ × Option ℕ) → Assumptions → Partial (Option T)
  | _, [], _ => .ok none
  | 0, _ :: _, _ => .error .outOfFuel
  | n + 1, (depth, termIndex) :: stack, a => do
    let disjunction ← orPanic .indexOutOfBounds disjunctions[depth]?
    let a ← resetLast disjunction a termIndex
    match nextFree disjunction a (termIndex.elim 0 (· + 1)) with
    | none => searchLoop disjunctions found n stack a
    | some (newTerm, newIndex) =>
      let a := newTerm.assign a
      match nextOpen disjunctions a (depth + 1) with
      | some (_, nextDepth) =>
        searchLoop disjunctions found n ((nextDepth, none) :: (depth, some newIndex) :: stack) a
      | none =>
        match found a with
        | some result => return some result
        | none => searchLoop disjunctions found n ((depth, some newIndex) :: stack) a

/-- A bound on the rounds of the loop. -/
def searchFuel : List (List Term) → ℕ
  | [] => 0
  | disjunction :: disjunctions => (disjunction.length + 1) * (searchFuel disjunctions + 1)

/-- Source: `SatSolver::check_disjunctions` -/
def checkDisjunctions (disjunctions : List (List Term)) (a : Assumptions)
    (found : Assumptions → Option T) : Partial (Option T) :=
  if disjunctions.isEmpty then .ok (found a)
  else searchLoop disjunctions found (searchFuel disjunctions) [(0, none)] a

/-! ## Solving -/

/-- Whether no term of a conjunction is false under the fixed terms. -/
def allPossible (terms : Assumptions) : List Term → Partial Bool
  | [] => .ok true
  | t :: ts => do
    if (← index terms t.var) = some (!t.value) then return false else allPossible terms ts

/-- `retain` of the terms of a clause that are not false under the fixed terms. -/
def retainPossible (terms : Assumptions) : List Term → Partial (List Term)
  | [] => .ok []
  | t :: ts => do
    let value ← index terms t.var
    let kept ← retainPossible terms ts
    return if value = some (!t.value) then kept else t :: kept

/-- `retain` of the conjunctions that the fixed terms leave possible. -/
def retainConjunctions (terms : Assumptions) : List (List Term) → Partial (List (List Term))
  | [] => .ok []
  | conj :: conjs => do
    let keep ← allPossible terms conj
    let kept ← retainConjunctions terms conjs
    return if keep then conj :: kept else kept

/-- The loop over the disjunction of conjunctions, with the assumptions that were tried. -/
def tryConjunctions (s : SatSolver) (found : Assumptions → Option T) :
    List Assumptions → List (List Term) → Partial (Option T)
  | _, [] => .ok none
  | seen, conj :: conjs => do
    let a := conj.foldl (fun a t => t.assign a) s.terms
    if a ∈ seen then tryConjunctions s found seen conjs
    else
      match ← checkDisjunctions s.disjunctions a found with
      | some result => return some result
      | none => tryConjunctions s found (a :: seen) conjs

namespace SatSolver

/-- The simplification at the start of `solve_with`. -/
def prepare (s : SatSolver) : Partial SatSolver := do
  let conjunctions ← retainConjunctions s.terms s.disjunctionOfConjunctions
  let disjunctions ← s.disjunctions.mapM (retainPossible s.terms)
  return { s with
    disjunctionOfConjunctions := conjunctions
    disjunctions := disjunctions.mergeSort fun d₁ d₂ => decide (d₁.length ≤ d₂.length) }

/-- The search of `solve_with`, on a simplified solver. -/
def searchWith (s : SatSolver) (found : Assumptions → Option T) : Partial (Option T) :=
  if !s.hasDisjunctionOfConjunctions then checkDisjunctions s.disjunctions s.terms found
  else tryConjunctions s found [] s.disjunctionOfConjunctions

/-- Source: `SatSolver::solve_with`. The solver stays simplified. -/
def solveWith (s : SatSolver) (found : Assumptions → Option T) :
    Partial (Option T × SatSolver) := do
  let s ← s.prepare
  let result ← s.searchWith found
  return (result, s)

/-- Source: `SatSolver::solve` -/
def solve (s : SatSolver) : Partial (SolverResult × SatSolver) := do
  let (result, s) ← s.solveWith fun solution => some (.sat (solution.map fun v => v.getD false))
  return (result.getD .unsat, s)

end SatSolver

/-! ## Using a solver -/

/-- A call that adds a constraint. -/
inductive Call where
  | andConjunction (items : List Term)
  | andNotConjunction (items : List Term)
deriving DecidableEq, Repr

/-- The solver after a call. -/
def Call.apply (s : SatSolver) : Call → Partial SatSolver
  | .andConjunction items => s.andConjunction items
  | .andNotConjunction items => .ok (s.andNotConjunction items)

/-- A new solver after a sequence of calls. -/
def build (maxTerms : ℕ) (calls : List Call) : Partial SatSolver :=
  calls.foldlM Call.apply (SatSolver.new maxTerms)

end LibLisa.Minisat
