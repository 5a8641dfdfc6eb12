import LibLisa.Utils.Minisat

/-!
# What the search of the solver finds

`checkDisjunctions_eq`: the loop over the explicit stack offers to `found` the leaves of the
backtracking search, in order, and stops at the first one that is taken; it never runs out of its
bound. A round of the loop pops a frame, pushes one or reaches a leaf (`searchLoop_pop`,
`searchLoop_push`, `searchLoop_leaf`). `searchLoop_frame` follows a frame from the time it is on top
until it is popped, by induction on the clauses after its own and then on the literals it has left.
-/

namespace LibLisa.Minisat

open Lib Lib.Cnf List

/-! ## Finding the next literal and the next clause -/

section Find

variable {α : Type} {p : α → Bool} {l : List α} {k i : ℕ} {x : α}

/-- The element found in a numbered list splits the list behind it. -/
lemma drop_eq_of_find?_zipIdx (h : (l.zipIdx.drop k).find? (fun q => p q.1) = some (x, i)) :
    ∃ skipped, l.drop k = skipped ++ x :: l.drop (i + 1) ∧ (∀ y ∈ skipped, ¬ p y = true) ∧
      p x = true ∧ l[i]? = some x := by
  obtain ⟨hx, as, bs, happ, has⟩ := find?_eq_some_iff_append.mp h
  have hat : (l.zipIdx.drop k)[as.length]? = some (x, i) := by
    rw [happ]
    simp
  rw [getElem?_drop, getElem?_zipIdx] at hat
  obtain ⟨y, hy, hyx⟩ := Option.map_eq_some_iff.mp hat
  obtain ⟨rfl, hi⟩ := Prod.mk.inj hyx
  have hi : i = k + as.length := by omega
  have hfst : l.drop k = as.map Prod.fst ++ y :: bs.map Prod.fst := by
    rw [← zipIdx_map_fst 0 l, ← map_drop, happ]
    simp
  refine ⟨as.map Prod.fst, ?_, ?_, hx, hi ▸ hy⟩
  · have hbs : l.drop (i + 1) = bs.map Prod.fst := by
      rw [hi, Nat.add_assoc, ← drop_drop, hfst]
      simp [← drop_drop]
    rw [hbs, hfst]
  · intro z hz
    obtain ⟨q, hq, rfl⟩ := mem_map.mp hz
    simpa using has q hq

lemma not_of_find?_zipIdx (h : (l.zipIdx.drop k).find? (fun q => p q.1) = none) :
    ∀ y ∈ l.drop k, ¬ p y = true := by
  intro y hy
  have hmap : (l.zipIdx.drop k).map Prod.fst = l.drop k := by
    rw [map_drop, zipIdx_map_fst]
  rw [← hmap] at hy
  obtain ⟨q, hq, rfl⟩ := mem_map.mp hy
  exact find?_eq_none.mp h q hq

end Find

/-- The next open clause comes after clauses that are true. -/
lemma drop_eq_of_nextOpen_eq_some {disjunctions : List (List Term)} {a : Assumptions}
    {depth nextDepth : ℕ} {disjunction : List Term}
    (h : nextOpen disjunctions a depth = some (disjunction, nextDepth)) :
    ∃ satisfied, disjunctions.drop depth =
        satisfied ++ disjunction :: disjunctions.drop (nextDepth + 1) ∧
      (∀ c ∈ satisfied, c.any (Literal.isTrue a) = true) ∧
      ¬ disjunction.any (Literal.isTrue a) = true ∧
      disjunctions.drop nextDepth = disjunction :: disjunctions.drop (nextDepth + 1) := by
  obtain ⟨satisfied, hdrop, hsat, hopen, hget⟩ :=
    drop_eq_of_find?_zipIdx (p := fun c : List Term => !c.any (Literal.isTrue a)) h
  refine ⟨satisfied, hdrop, fun c hc => by simpa using hsat c hc, by simpa using hopen, ?_⟩
  obtain ⟨hlt, hget⟩ := List.getElem?_eq_some_iff.mp hget
  rw [drop_eq_getElem_cons hlt, hget]

/-! ## One round -/

variable {T : Type} {disjunctions : List (List Term)} {found : Assumptions → Option T} {t : Term}

/-- Undoing the assignment of a free literal. -/
lemma set_none_assign {a : Assumptions} (hfree : t.isFree a = true) (hdom : t.var < a.length) :
    (t.assign a).set t.var none = a := by
  have hnone : a[t.var]?.join = none := Option.isNone_iff_eq_none.mp hfree
  rw [getElem?_eq_getElem hdom] at hnone
  change (a.set t.var (some t.value)).set t.var none = a
  rw [set_set]
  conv_rhs => rw [← set_getElem_self hdom]
  exact congrArg (a.set t.var) hnone.symm

/-- A frame for the clause `disjunction` is on top, with the literals `lits` left to try from the
assumptions `a`; the slice holds `current`. -/
inductive Resumes (disjunction : List Term) (a : Assumptions) :
    Option ℕ → Assumptions → List Term → Prop
  | fresh : Resumes disjunction a none a disjunction
  | after {i : ℕ} {t : Term} (hget : disjunction[i]? = some t) (hfree : t.isFree a = true)
      (hdom : t.var < a.length) :
      Resumes disjunction a (some i) (t.assign a) (disjunction.drop (i + 1))

namespace Resumes

variable {disjunction lits : List Term} {a current : Assumptions} {termIndex : Option ℕ}

lemma resetLast_eq (h : Resumes disjunction a termIndex current lits) :
    resetLast disjunction current termIndex = .ok a := by
  cases h with
  | fresh => rfl
  | after hget hfree hdom =>
    rw [resetLast, hget, orPanic_some, ok_bind, set_none_assign hfree hdom]
    rfl

lemma lits_eq (h : Resumes disjunction a termIndex current lits) :
    lits = disjunction.drop (termIndex.elim 0 (· + 1)) := by
  cases h with
  | fresh => rfl
  | after => rfl

end Resumes

section Round

variable {disjunction lits : List Term} {a current : Assumptions} {termIndex : Option ℕ}
  {depth : ℕ} {stack : List (ℕ × Option ℕ)}

section

variable (hd : disjunctions[depth]? = some disjunction)
include hd

section

variable (hres : Resumes disjunction a termIndex current lits)
include hres

/-- A frame without a free literal left is popped. -/
theorem searchLoop_pop (hnext : nextFree disjunction a (termIndex.elim 0 (· + 1)) = none) (n : ℕ) :
    searchLoop disjunctions found (n + 1) ((depth, termIndex) :: stack) current =
      searchLoop disjunctions found n stack a := by
  rw [searchLoop, hd, orPanic_some, ok_bind, hres.resetLast_eq, ok_bind, hnext]

/-- A literal that leaves another clause open pushes a frame for that clause. -/
theorem searchLoop_push {i : ℕ} {open' : List Term × ℕ}
    (hnext : nextFree disjunction a (termIndex.elim 0 (· + 1)) = some (t, i))
    (hopen : nextOpen disjunctions (t.assign a) (depth + 1) = some open') (n : ℕ) :
    searchLoop disjunctions found (n + 1) ((depth, termIndex) :: stack) current =
      searchLoop disjunctions found n ((open'.2, none) :: (depth, some i) :: stack)
        (t.assign a) := by
  rw [searchLoop, hd, orPanic_some, ok_bind, hres.resetLast_eq, ok_bind, hnext]
  simp only [hopen]

/-- A literal that leaves no clause open is a leaf. -/
theorem searchLoop_leaf {i : ℕ}
    (hnext : nextFree disjunction a (termIndex.elim 0 (· + 1)) = some (t, i))
    (hopen : nextOpen disjunctions (t.assign a) (depth + 1) = none) (n : ℕ) :
    searchLoop disjunctions found (n + 1) ((depth, termIndex) :: stack) current =
      (found (t.assign a)).elim
        (searchLoop disjunctions found n ((depth, some i) :: stack) (t.assign a))
        fun result => .ok (some result) := by
  rw [searchLoop, hd, orPanic_some, ok_bind, hres.resetLast_eq, ok_bind, hnext]
  simp only [hopen]
  cases found (t.assign a) with
  | none => rfl
  | some result => rfl

end

end

end Round

/-! ## A frame from push to pop -/

lemma searchFuel_le_append (front back : List (List Term)) :
    searchFuel back ≤ searchFuel (front ++ back) := by
  induction front with
  | nil => exact Nat.le_refl _
  | cons d front ih =>
    calc searchFuel back
      _ ≤ searchFuel (front ++ back) + 1 := Nat.le_succ_of_le ih
      _ ≤ (d.length + 1) * (searchFuel (front ++ back) + 1) :=
          Nat.le_mul_of_pos_left _ (Nat.succ_pos _)

/-- The rounds of a frame: one for the next literal, then those of the frame that it pushes and
those for the literals left. -/
lemma searchFuel_rounds {used₁ used₂ fuel k m : ℕ} (h₁ : used₁ ≤ fuel)
    (h₂ : used₂ ≤ (k + 1) * (fuel + 1)) (hk : k < m) : used₁ + used₂ + 1 ≤ (m + 1) * (fuel + 1) :=
  calc used₁ + used₂ + 1
    _ ≤ (k + 1) * (fuel + 1) + (fuel + 1) := by omega
    _ = (k + 1 + 1) * (fuel + 1) := (Nat.succ_mul _ _).symm
    _ ≤ (m + 1) * (fuel + 1) := Nat.mul_le_mul_right _ (by omega)

/-- The frame of a clause offers the leaves below its literals and is then popped, with the slice
as it was. -/
theorem searchLoop_frame (tail : List (List Term)) {depth : ℕ} {disjunction : List Term}
    (hdrop : disjunctions.drop depth = disjunction :: tail) {a : Assumptions}
    (hdom : InDom a disjunction) (htail : ∀ c ∈ tail, InDom a c) (lits : List Term)
    {termIndex : Option ℕ} {current : Assumptions}
    (hres : Resumes disjunction a termIndex current lits) (stack : List (ℕ × Option ℕ)) :
    ∃ used ≤ (lits.length + 1) * (searchFuel tail + 1), ∀ n,
      searchLoop disjunctions found (used + n) ((depth, termIndex) :: stack) current =
        ((branch lits tail a).findSome? found).elim (searchLoop disjunctions found n stack a)
          fun result => .ok (some result) := by
  have hd : disjunctions[depth]? = some disjunction := by
    rw [← head?_drop, hdrop, head?_cons]
  have htaileq : disjunctions.drop (depth + 1) = tail := by
    rw [← tail_drop, hdrop, tail_cons]
  cases hnext : nextFree disjunction a (termIndex.elim 0 (· + 1)) with
  | none =>
    refine ⟨1, Nat.mul_pos (Nat.succ_pos _) (Nat.succ_pos _), fun n => ?_⟩
    have hnone := not_of_find?_zipIdx hnext
    rw [← hres.lits_eq] at hnone
    rw [Nat.add_comm, searchLoop_pop hd hres hnext, branch_of_not_isFree hnone]
    rfl
  | some found' =>
    obtain ⟨t, i⟩ := found'
    obtain ⟨skipped, hlits, hskip, hfree, hget⟩ := drop_eq_of_find?_zipIdx hnext
    rw [← hres.lits_eq] at hlits
    have htdom : t.var < a.length := hdom t (mem_of_getElem? hget)
    have hlt : (disjunction.drop (i + 1)).length < lits.length := by
      rw [hlits, length_append, length_cons]
      omega
    have hres' : Resumes disjunction a (some i) (t.assign a) (disjunction.drop (i + 1)) :=
      .after hget hfree htdom
    obtain ⟨used₂, hused₂, hrest⟩ := searchLoop_frame tail hdrop hdom htail _ hres' stack
    have hbranch : branch lits tail a =
        search tail (t.assign a) ++ branch (disjunction.drop (i + 1)) tail a := by
      rw [hlits, branch_append_cons hskip hfree]
    cases hopen : nextOpen disjunctions (t.assign a) (depth + 1) with
    | none =>
      have hleaf : search tail (t.assign a) = [t.assign a] := by
        rw [← append_nil tail, ← htaileq, search_append_of_isTrue, search_nil]
        have htrue := not_of_find?_zipIdx
          (p := fun c : List Term => !c.any (Literal.isTrue (t.assign a))) hopen
        exact fun c hc => by simpa using htrue c hc
      refine ⟨used₂ + 1, ?_, fun n => ?_⟩
      · simpa using searchFuel_rounds (Nat.zero_le (searchFuel tail)) hused₂ hlt
      · rw [Nat.add_right_comm, searchLoop_leaf hd hres hnext hopen, hrest, hbranch, hleaf,
          singleton_append, findSome?_cons]
        cases found (t.assign a) with
        | none => rfl
        | some result => rfl
    | some open' =>
      obtain ⟨disjunction', nextDepth⟩ := open'
      obtain ⟨satisfied, hsplit, hsat, hfalse, hdrop'⟩ := drop_eq_of_nextOpen_eq_some hopen
      rw [htaileq] at hsplit
      have hdom' : ∀ c ∈ disjunction' :: disjunctions.drop (nextDepth + 1),
          InDom (t.assign a) c := fun c hc =>
        inDom_assign_iff.mpr (htail c (by rw [hsplit]; exact mem_append_right _ hc))
      have hshorter : (disjunctions.drop (nextDepth + 1)).length < tail.length := by
        rw [hsplit, length_append, length_cons]
        omega
      obtain ⟨used₁, hused₁, hpushed⟩ := searchLoop_frame _ hdrop'
        (hdom' _ (.head _)) (fun c hc => hdom' c (.tail _ hc)) _
        .fresh ((depth, some i) :: stack)
      have hfuel : used₁ ≤ searchFuel tail := by
        rw [hsplit]
        exact Nat.le_trans hused₁ (searchFuel_le_append satisfied (disjunction' :: _))
      have hsearch : search tail (t.assign a) =
          branch disjunction' (disjunctions.drop (nextDepth + 1)) (t.assign a) := by
        rw [hsplit, search_append_of_isTrue hsat, search_cons_of_not_isTrue hfalse]
      refine ⟨used₁ + used₂ + 1, searchFuel_rounds hfuel hused₂ hlt, fun n => ?_⟩
      rw [Nat.add_right_comm, searchLoop_push hd hres hnext hopen, Nat.add_assoc, hpushed, hrest,
        hbranch, hsearch, findSome?_append]
      cases (branch disjunction' (disjunctions.drop (nextDepth + 1)) (t.assign a)).findSome?
        found with
      | none => rfl
      | some result => rfl
termination_by (tail.length, lits.length)
decreasing_by
  · exact Prod.Lex.right _ hlt
  · exact Prod.Lex.left _ _ hshorter

/-- The assignments that the search offers: the only one if there is no clause, and otherwise those
below the first clause, even if that clause is true already. -/
def offered (disjunctions : List (List Term)) (a : Assumptions) : List Assumptions :=
  match disjunctions with
  | [] => [a]
  | disjunction :: disjunctions => branch disjunction disjunctions a

/-- The search takes the first assignment that is offered and accepted. -/
theorem checkDisjunctions_eq {a : Assumptions} (hdom : ∀ c ∈ disjunctions, InDom a c) :
    checkDisjunctions disjunctions a found = .ok ((offered disjunctions a).findSome? found) := by
  cases disjunctions with
  | nil =>
    rw [checkDisjunctions, offered, findSome?_cons]
    cases found a with
    | none => rfl
    | some result => rfl
  | cons d ds =>
    obtain ⟨hd, hds⟩ := forall_mem_cons.mp hdom
    have hframe : ∃ used ≤ searchFuel (d :: ds), ∀ n,
        searchLoop (d :: ds) found (used + n) [(0, none)] a =
          ((branch d ds a).findSome? found).elim (searchLoop (d :: ds) found n [] a)
            fun result => .ok (some result) :=
      searchLoop_frame ds rfl hd hds d .fresh []
    obtain ⟨used, hused, hrun⟩ := hframe
    have hrun := hrun (searchFuel (d :: ds) - used)
    rw [Nat.add_sub_cancel' hused] at hrun
    rw [checkDisjunctions, if_neg (by simp), hrun, offered]
    cases (branch d ds a).findSome? found with
    | none => rw [Option.elim, searchLoop]
    | some result => rfl

end LibLisa.Minisat
