import LibLisa.Synth.Enumerator

/-!
# Searching for a computation that matches all cases

The searcher goes through the enumerated computations until one of them passes the check of every
case. How a case is checked is a parameter, `CheckResult`. Cases that reject many computations are
moved to the front, one position at a time; this changes the order of the cases and nothing else
(`nextExpr_spec`).

Where no file is given, the source is `search/searcher.rs`.
-/

namespace LibLisa.Synth

open Lib Semantics List Except

/-! ## Checks -/

/-- Source: `CheckResult`: the state of a check, and the comparisons with the
first and with the other cases -/
structure CheckResult (C Output : Type) where
  startCheck : C
  compareEqFirst : C → IterItemComputation → List I128 → Output → Partial (Bool × C)
  compareEq : C → IterItemComputation → List I128 → Output → Partial (Bool × C)

/-- Source: `CheckValueResult` -/
structure CheckValueResult where
  bigEndian : Bool
  littleEndian : Bool
deriving DecidableEq, Repr

namespace CheckValueResult

/-- Source: `CheckValueResult::compare_eq` -/
def compareEq (c : CheckValueResult) (inst : IterItemComputation) (allArgs : List I128)
    (expected : PreparedComparison) : Partial (Bool × CheckValueResult) := do
  let r ← inst.preparedCompareEqWithArgsIndirect allArgs expected
  let c : CheckValueResult := ⟨c.bigEndian && r.bigEndian, c.littleEndian && r.littleEndian⟩
  return (c.bigEndian || c.littleEndian, c)

/-- Source: `impl CheckResult for CheckValueResult` -/
def check : CheckResult CheckValueResult PreparedComparison := ⟨⟨true, true⟩, compareEq, compareEq⟩

end CheckValueResult

/-! ## Cases -/

/-- Source: `Case` -/
structure Case (Output : Type) where
  numUses : ℕ
  interpretedArgs : List I128
  expectedOutput : Output

/-- Source: `Searcher` -/
structure Searcher (Output : Type) where
  iter : ComputationEnumerator
  cases : List (Case Output)

namespace Searcher

variable {C Output : Type}

/-- Source: `Searcher::new_with_custom_templates` -/
def newWithCustomTemplates (templates : List PreprocessedTemplate) (inputTypes : List IoType)
    (outputType : IoType) : Partial (Searcher Output) := do
  return ⟨← ComputationEnumerator.new templates inputTypes outputType, []⟩

/-- The loop of `check_cases`: the first case that does not match, or the state of the check. -/
def checkLoop (chk : CheckResult C Output) (inst : IterItemComputation) :
    ℕ → List (Case Output) → C → Partial (ℕ ⊕ C)
  | _, [], c => .ok (.inr c)
  | index, case :: cases, c => do
    let compare := if index = 0 then chk.compareEqFirst else chk.compareEq
    let (eq, c) ← compare c inst case.interpretedArgs case.expectedOutput
    if eq then checkLoop chk inst (index + 1) cases c else return .inl index

/-- Source: `Searcher::check_cases` -/
def checkCases (chk : CheckResult C Output) (cases : List (Case Output))
    (inst : IterItemComputation) : Partial (ℕ ⊕ C) :=
  checkLoop chk inst 0 cases chk.startCheck

/-- Counts a case that did not match, and moves it one position to the front if it has been used
more than the one before it. -/
def useCase (cases : List (Case Output)) (index weight : ℕ) : Partial (List (Case Output)) := do
  let case ← orPanic .indexOutOfBounds cases[index]?
  if 2 ^ 32 ≤ case.numUses + weight then .error .arithmeticOverflow
  else
    let case := { case with numUses := case.numUses + weight }
    if index = 0 then return cases.set index case
    else do
      let before ← orPanic .indexOutOfBounds cases[index - 1]?
      if before.numUses < case.numUses then return (cases.set index before).set (index - 1) case
      else return cases.set index case

/-- Every 1024 computations the weight is doubled, until it and all counts are scaled back. -/
def reweigh (cases : List (Case Output)) (n weight : ℕ) : List (Case Output) × ℕ :=
  if n % 1024 = 0 then
    let weight := weight * 2
    if weight.testBit 16 then
      (cases.map fun case => { case with numUses := case.numUses / 2 ^ 16 }, weight / 2 ^ 16)
    else (cases, weight)
  else (cases, weight)

/-- The loop of `next_expr`. Its counter `n` is an `i32` of the source, which does not overflow in
fewer than `2 ^ 31` rounds. -/
def nextExprLoop (chk : CheckResult C Output) :
    ℕ → ℕ → ℕ → Searcher Output → Partial (Option (IterItemComputation × C) × Searcher Output)
  | 0, _, _, _ => .error .outOfFuel
  | fuel + 1, n, weight, s => do
    let (found, iter) ← s.iter.findNext
    let s := { s with iter }
    if found then do
      let inst ← s.iter.current
      match ← checkCases chk s.cases inst with
      | .inr c => return (some (inst, c), s)
      | .inl index => do
        let cases ← useCase s.cases index weight
        let (cases, weight) := reweigh cases (n + 1) weight
        nextExprLoop chk fuel (n + 1) weight { s with cases }
    else return (none, s)

/-- Source: `Searcher::next_expr` -/
def nextExpr (chk : CheckResult C Output) (fuel : ℕ) (s : Searcher Output) :
    Partial (Option (IterItemComputation × C) × Searcher Output) :=
  nextExprLoop chk fuel 0 1 s

/-- Source: `Searcher::add_case` -/
def addCase (s : Searcher Output) (inputs : List OwnedValue) (expectedOutput : Output) :
    Partial (Searcher Output) := do
  let interpretedArgs ← s.iter.args.mapM (Arg.interpretInputs inputs [])
  return { s with cases := s.cases ++ [⟨0, interpretedArgs, expectedOutput⟩] }

end Searcher

/-! ## What the search keeps -/

/-- The enumerators have the same arguments and the same output type. -/
structure ComputationEnumerator.Same (e e' : ComputationEnumerator) : Prop where
  args_eq : e'.args = e.args
  outputType_eq : e'.outputType = e.outputType
  internalOutputType_eq : e'.internalOutputType = e.internalOutputType

variable {index : ℕ}

namespace ComputationEnumerator

lemma Same.refl (e : ComputationEnumerator) : e.Same e := ⟨rfl, rfl, rfl⟩

lemma Same.trans {e₁ e₂ e₃ : ComputationEnumerator} (h : e₁.Same e₂) (h' : e₂.Same e₃) :
    e₁.Same e₃ :=
  ⟨h'.args_eq.trans h.args_eq, h'.outputType_eq.trans h.outputType_eq,
    h'.internalOutputType_eq.trans h.internalOutputType_eq⟩

variable {e e' : ComputationEnumerator} {found : Bool}

lemma same_nextTemplate {templates : List PreprocessedTemplate} {inner : Option TemplateIterator}
    (h : e.nextTemplate templates index inner = .ok (found, e')) : e.Same e' := by
  induction templates generalizing index inner with
  | nil =>
    obtain ⟨rfl, rfl⟩ := ok_pair_inj h
    exact ⟨rfl, rfl, rfl⟩
  | cons template templates ih =>
    obtain ⟨it, -, h⟩ := ok_of_bind h
    split at h
    · obtain ⟨rfl, rfl⟩ := ok_pair_inj h
      exact ⟨rfl, rfl, rfl⟩
    · exact ih h

lemma same_findNext (h : e.findNext = .ok (found, e')) : e.Same e' := by
  unfold findNext at h
  split at h
  next it _ =>
    obtain ⟨⟨overflow, it'⟩, -, h⟩ := ok_of_bind h
    dsimp only at h
    split at h
    · exact same_nextTemplate h
    · obtain ⟨rfl, rfl⟩ := ok_pair_inj h
      exact ⟨rfl, rfl, rfl⟩
  next => exact same_nextTemplate h

end ComputationEnumerator

namespace Searcher

variable {C Output : Type} {cases : List (Case Output)}

/-- Every case of the first list is in the second one, up to its count. -/
def Covered (cases cases' : List (Case Output)) : Prop :=
  ∀ case ∈ cases, ∃ case' ∈ cases',
    case'.interpretedArgs = case.interpretedArgs ∧ case'.expectedOutput = case.expectedOutput

lemma Covered.refl (cases : List (Case Output)) : Covered cases cases :=
  fun case h => ⟨case, h, rfl, rfl⟩

lemma Covered.trans {cases₁ cases₂ cases₃ : List (Case Output)} (h : Covered cases₁ cases₂)
    (h' : Covered cases₂ cases₃) : Covered cases₁ cases₃ := by
  intro case hcase
  obtain ⟨case', hmem, hargs, hout⟩ := h case hcase
  obtain ⟨case'', hmem', hargs', hout'⟩ := h' case' hmem
  exact ⟨case'', hmem', hargs'.trans hargs, hout'.trans hout⟩

/-- Changing the count of one case. -/
lemma covered_set {case : Case Output} (hget : cases[index]? = some case) (numUses : ℕ) :
    Covered cases (cases.set index { case with numUses }) := by
  intro other hother
  obtain ⟨k, hk⟩ := mem_iff_getElem?.mp hother
  have hlt := lt_of_getElem? hget
  by_cases hki : index = k
  · subst hki
    obtain rfl := Option.mem_unique hget hk
    exact ⟨_, mem_iff_getElem?.mpr ⟨index, getElem?_set_self hlt⟩, rfl, rfl⟩
  · refine ⟨other, mem_iff_getElem?.mpr ⟨k, ?_⟩, rfl, rfl⟩
    rw [getElem?_set_ne hki]
    exact hk

/-- Changing the count of one case and swapping it with the one before it. -/
lemma covered_swap (hpos : index ≠ 0) {case before : Case Output} (hget : cases[index]? = some case)
    (hbefore : cases[index - 1]? = some before) (numUses : ℕ) :
    Covered cases ((cases.set index before).set (index - 1) { case with numUses }) := by
  intro other hother
  obtain ⟨k, hk⟩ := mem_iff_getElem?.mp hother
  have hlt := lt_of_getElem? hget
  have hne : index - 1 ≠ index := by omega
  by_cases hki : k = index
  · subst hki
    obtain rfl := Option.mem_unique hget hk
    refine ⟨_, mem_iff_getElem?.mpr ⟨k - 1, getElem?_set_self ?_⟩, rfl, rfl⟩
    rw [length_set]
    omega
  by_cases hkb : k = index - 1
  · subst hkb
    obtain rfl := Option.mem_unique hbefore hk
    refine ⟨before, mem_iff_getElem?.mpr ⟨index, ?_⟩, rfl, rfl⟩
    rw [getElem?_set_ne hne]
    exact getElem?_set_self hlt
  · refine ⟨other, mem_iff_getElem?.mpr ⟨k, ?_⟩, rfl, rfl⟩
    rw [getElem?_set_ne (Ne.symm hkb), getElem?_set_ne (Ne.symm hki)]
    exact hk

lemma covered_useCase {cases cases' : List (Case Output)} {index weight : ℕ}
    (h : useCase cases index weight = .ok cases') : Covered cases cases' := by
  obtain ⟨case, hcase, h⟩ := ok_of_bind h
  have hget := eq_some_of_orPanic hcase
  split at h
  · cases h
  split at h
  · obtain rfl := ok.inj h
    exact covered_set hget _
  next hpos =>
    obtain ⟨before, hbefore, h⟩ := ok_of_bind h
    split at h
    · obtain rfl := ok.inj h
      exact covered_swap hpos hget (eq_some_of_orPanic hbefore) _
    · obtain rfl := ok.inj h
      exact covered_set hget _

lemma covered_reweigh (cases : List (Case Output)) (n weight : ℕ) :
    Covered cases (reweigh cases n weight).1 := by
  unfold reweigh
  split
  · dsimp only
    split
    · exact fun case hcase => ⟨_, mem_map.mpr ⟨case, hcase, rfl⟩, rfl, rfl⟩
    · exact .refl cases
  · exact .refl cases

/-- What the search returns has passed the check of all cases, and belongs to the enumerator. -/
structure Found (chk : CheckResult C Output) (s : Searcher Output) (r : IterItemComputation × C) :
    Prop where
  checked : checkCases chk s.cases r.1 = .ok (.inr r.2)
  enumerator_eq : r.1.computationEnumerator = s.iter

lemma nextExprLoop_spec {chk : CheckResult C Output} {fuel n weight : ℕ}
    {s s' : Searcher Output} {found : Option (IterItemComputation × C)}
    (h : nextExprLoop chk fuel n weight s = .ok (found, s')) :
    s.iter.Same s'.iter ∧ Covered s.cases s'.cases ∧ ∀ r ∈ found, Found chk s' r := by
  induction fuel generalizing n weight s with
  | zero => cases h
  | succ fuel ih =>
    obtain ⟨⟨more, iter⟩, hnext, h⟩ := ok_of_bind h
    have hsame := ComputationEnumerator.same_findNext hnext
    dsimp only at h
    split at h
    · obtain ⟨inst, checked, hinst, hchecked, h⟩ := ok_of_bind₂ h
      rcases checked with index | c
      · obtain ⟨cases, hcases, h⟩ := ok_of_bind h
        obtain ⟨hsame', hcovered, hfound⟩ := ih h
        refine ⟨hsame.trans hsame', ?_, hfound⟩
        exact ((covered_useCase hcases).trans (covered_reweigh cases (n + 1) weight)).trans hcovered
      · obtain ⟨rfl, rfl⟩ := ok_pair_inj h
        refine ⟨hsame, .refl _, ?_⟩
        rintro r ⟨⟩
        obtain ⟨it, -, rfl⟩ := ok_of_bind_ok hinst
        exact ⟨hchecked, rfl⟩
    · obtain ⟨rfl, rfl⟩ := ok_pair_inj h
      exact ⟨hsame, .refl _, nofun⟩

/-- What a check of values says about what was known before, and about every case. -/
lemma checkLoop_value {inst : IterItemComputation}
    {cases : List (Case PreparedComparison)} {c c' : CheckValueResult}
    (h : checkLoop CheckValueResult.check inst index cases c = .ok (.inr c')) :
    (c'.bigEndian = true → c.bigEndian = true) ∧
      (c'.littleEndian = true → c.littleEndian = true) ∧
      ∀ case ∈ cases, ∃ r,
        inst.preparedCompareEqWithArgsIndirect case.interpretedArgs case.expectedOutput = .ok r ∧
        (c'.bigEndian = true → r.bigEndian = true) ∧
        (c'.littleEndian = true → r.littleEndian = true) := by
  induction cases generalizing index c with
  | nil =>
    obtain rfl := Sum.inr.inj (ok.inj h)
    exact ⟨id, id, nofun⟩
  | cons case cases ih =>
    have hcompare : (if index = 0 then CheckValueResult.check.compareEqFirst
        else CheckValueResult.check.compareEq) = CheckValueResult.compareEq := ite_self _
    rw [checkLoop, hcompare] at h
    obtain ⟨⟨eq, c₁⟩, hc₁, h⟩ := ok_of_bind h
    obtain ⟨r, hr, hc₁⟩ := ok_of_bind hc₁
    obtain ⟨rfl, rfl⟩ := ok_pair_inj hc₁
    dsimp only at h
    split at h
    · obtain ⟨hbig, hlittle, hall⟩ := ih h
      simp only [Bool.and_eq_true] at hbig hlittle
      refine ⟨fun hc => (hbig hc).1, fun hc => (hlittle hc).1, fun other hother => ?_⟩
      rcases mem_cons.mp hother with rfl | hother
      · exact ⟨r, hr, fun hc => (hbig hc).2, fun hc => (hlittle hc).2⟩
      · exact hall other hother
    · cases h

end Searcher

end LibLisa.Synth
