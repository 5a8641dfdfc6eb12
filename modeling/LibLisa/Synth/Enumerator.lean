import LibLisa.Semantics.BuilderAgrees
import LibLisa.Semantics.Compare

/-!
# Enumerating computations from templates

A template is an expression whose holes are filled with arguments from one list: the constants,
followed by every input in every encoding. The enumerator goes through the templates and, for each
of them, through the fillings of its open holes, with a counter that holds an index into the
argument list for every hole.

`IterItemComputation.compare_iff` says that checking an item against prepared arguments and a
prepared comparison is evaluating the computation that is made from it.

Where no file is given, the source is `search/mod.rs`.
-/

namespace LibLisa.Synth

open Lib Semantics OutputType Except

/-! ## Templates -/

/-- Source: `templates/mod.rs`, `CONST_VALUES` -/
def constValues : List I128 :=
  [0, 1, 2, 3, 4, 5, 6, 7, 8, 9, 10, 11, 12, 13, 14, 15, 16, 23, 24, 31, 32, 39, 40, 47, 48, 55, 56,
    63, 64]

/-- Source: `default/mod.rs`, `MAX_TEMPLATE_ARGS` -/
def maxTemplateArgs : ℕ := 4

/-- The expression has no compiled functions, or those of the macro `expr!`. -/
def Compiled (e : Expr) : Prop := e.fastEval = none ∨ ∃ t, expr t = .ok e

/-- Source: `templates/preprocess.rs`, `PreprocessedTemplate`. An argument index of zero is an open
hole, another one a constant. -/
structure PreprocessedTemplate where
  expr : Expr
  argIndices : List U16
  constValues : List I128
  orderingIndexes : List (Option ℕ)
  compiled : Compiled expr

namespace PreprocessedTemplate

/-- Source: `templates/preprocess.rs`, `PreprocessedTemplate::num_unfilled_holes` -/
def numUnfilledHoles (t : PreprocessedTemplate) : ℕ := t.argIndices.count 0

/-- Source: `templates/preprocess.rs`, `PreprocessedTemplate::active_indices` -/
def activeIndices (t : PreprocessedTemplate) : List ℕ :=
  (List.range t.argIndices.length).filter fun i => t.argIndices[i]? = some 0

/-- Source: `templates/preprocess.rs`, `PreprocessedTemplate::start_value` -/
def startValue (t : PreprocessedTemplate) : ℕ := t.constValues.length

/-- Source: `templates/preprocess.rs`, `PreprocessedTemplate::new_counter` -/
def newCounter (t : PreprocessedTemplate) : Partial (List U16) :=
  if maxTemplateArgs < t.argIndices.length then .error .arrayVecFull
  else .ok (t.argIndices.map fun constIndex =>
    if constIndex = 0 then asU16 t.constValues.length else constIndex - 1)

end PreprocessedTemplate

/-! ## Iterating over a template -/

/-- Source: `TemplateIterator` -/
structure TemplateIterator where
  template : PreprocessedTemplate
  counter : List U16

namespace TemplateIterator

/-- Source: `TemplateIterator::new` -/
def new (template : PreprocessedTemplate) : Partial TemplateIterator := do
  return ⟨template, ← template.newCounter⟩

/-- The loop of `increment_counter`: whether the counter overflowed, and the counter. -/
def incrementLoop (t : PreprocessedTemplate) (numArgs : ℕ) :
    List ℕ → List U16 → Partial (Bool × List U16)
  | [], counter => .ok (true, counter)
  | index :: indices, counter => do
    let resetValue ← match ← orPanic .indexOutOfBounds t.orderingIndexes[index]? with
      | some i => orPanic .indexOutOfBounds counter[i]?
      | none =>
        if asU16 numArgs = 0 then .error .arithmeticOverflow else .ok (asU16 numArgs - 1)
    let n ← addU16 (← orPanic .indexOutOfBounds counter[index]?) 1
    if n > resetValue then incrementLoop t numArgs indices (counter.set index (asU16 t.startValue))
    else return (false, counter.set index n)

/-- Source: `TemplateIterator::increment_counter` -/
def incrementCounter (it : TemplateIterator) (numArgs : ℕ) : Partial (Bool × TemplateIterator) := do
  let (overflow, counter) ← incrementLoop it.template numArgs it.template.activeIndices it.counter
  return (overflow, { it with counter })

end TemplateIterator

/-! ## Enumerating -/

/-- Source: `ComputationEnumerator`, without the widths of the compressed form -/
structure ComputationEnumerator where
  args : List Arg
  outputType : IoType
  internalOutputType : OutputType
  templates : List PreprocessedTemplate
  index : ℕ
  inner : Option TemplateIterator

/-- `usize::try_into`, for a `u8` -/
def tryU8 (n : ℕ) : Partial U8 :=
  if n < 2 ^ 8 then .ok (asU8 n) else .error .assertionFailed

namespace ComputationEnumerator

/-- The encodings of one input, in `generate_args_encodings`. -/
def inputArgs (index : ℕ) (input : IoType) : Partial (List Arg) := do
  let index ← tryU8 index
  let numBits ← tryU8 input.numBits
  let encodings : List ArgEncoding :=
    if input.numBits > 8 then
      [.signedLittleEndian, .unsignedLittleEndian, .signedBigEndian, .unsignedBigEndian]
    else [.signedBigEndian, .unsignedBigEndian]
  return encodings.map (.input index numBits)

/-- Source: `ComputationEnumerator::generate_args_encodings` -/
def generateArgsEncodings (inputTypes : List IoType) : Partial (List Arg) := do
  let inputs ← inputTypes.zipIdx.mapM fun (input, index) => inputArgs index input
  return (Synth.constValues.map fun v => .tinyConst (v.setWidth 16)) ++ inputs.flatten

/-- The internal output type is the one of the output type. -/
abbrev Typed (e : ComputationEnumerator) : Prop :=
  OutputType.constFrom e.outputType = .ok e.internalOutputType

/-- Source: `ComputationEnumerator::new` -/
def new (templates : List PreprocessedTemplate) (inputTypes : List IoType) (outputType : IoType) :
    Partial ComputationEnumerator := do
  return {
    args := ← generateArgsEncodings inputTypes
    outputType
    internalOutputType := ← OutputType.constFrom outputType
    templates
    index := 0
    inner := none }

/-- The loop of `find_next` over the templates that are left. A template that is skipped stays in
`inner`. -/
def nextTemplate (e : ComputationEnumerator) :
    List PreprocessedTemplate → ℕ → Option TemplateIterator → Partial (Bool × ComputationEnumerator)
  | [], index, inner => .ok (false, { e with index, inner })
  | template :: templates, index, _ => do
    let it ← TemplateIterator.new template
    if template.numUnfilledHoles = 0 ∨ e.args.length > Synth.constValues.length then
      return (true, { e with index := index + 1, inner := some it })
    else e.nextTemplate templates (index + 1) (some it)

/-- Source: `ComputationEnumerator::find_next`: whether there is a next item, which
is then the current one -/
def findNext (e : ComputationEnumerator) : Partial (Bool × ComputationEnumerator) :=
  match e.inner with
  | some it => do
    let (overflow, it) ← it.incrementCounter e.args.length
    if overflow then e.nextTemplate (e.templates.drop e.index) e.index none
    else return (true, { e with inner := some it })
  | none => e.nextTemplate (e.templates.drop e.index) e.index none

end ComputationEnumerator

/-- Source: `IterItemComputation` -/
structure IterItemComputation where
  templateIterator : TemplateIterator
  computationEnumerator : ComputationEnumerator

/-- Source: `ComputationEnumerator::current` -/
def ComputationEnumerator.current (e : ComputationEnumerator) : Partial IterItemComputation := do
  return ⟨← orPanic .assertionFailed e.inner, e⟩

namespace IterItemComputation

/-- Source: `IterItemComputation::arg_indexes` -/
def argIndexes (c : IterItemComputation) : List U16 := c.templateIterator.counter

/-- Source: `IterItemComputation::expr_computation` -/
def exprComputation (c : IterItemComputation) (outputEncoding : OutputEncoding) :
    Partial ExprComputation := do
  return ⟨c.templateIterator.template.expr, outputEncoding,
    ← OutputType.constFrom c.computationEnumerator.outputType⟩

/-- Source: `IterItemComputation::to_template_computation` -/
def toTemplateComputation (c : IterItemComputation) (outputEncoding : OutputEncoding) :
    Partial ExpressionComputation := do
  let argInterpretation ← c.argIndexes.mapM fun index =>
    orPanic .indexOutOfBounds c.computationEnumerator.args[index.toNat]?
  if maxTemplateArgs < argInterpretation.length then .error .arrayVecFull
  else do
    let template ← c.exprComputation outputEncoding
    return ⟨template.expr, argInterpretation, template.outputEncoding, template.ioType⟩

/-- Source: `IterItemComputation::prepared_compare_eq_with_args_indirect` -/
def preparedCompareEqWithArgsIndirect (c : IterItemComputation) (allArgs : List I128)
    (expected : PreparedComparison) : Partial CompareResult := do
  let result ← c.templateIterator.template.expr.evaluateIndirect allArgs c.argIndexes
  expected.compareDual c.computationEnumerator.internalOutputType result

end IterItemComputation

/-! ## What an item computes -/

variable {mapping : List U16} {inputs : List OwnedValue} {allArgs args : List I128}
  {v : OwnedValue}

/-- Reading the arguments through the counter is reading the arguments of the computation. -/
lemma indexIndirect_eq (h : mapping.mapM (fun i => indexArgs allArgs i.toNat) = .ok args) (n : ℕ) :
    indexIndirect allArgs mapping n = indexArgs args n := by
  unfold indexIndirect
  rcases hn : mapping[n]? with _ | i
  · have hlen : args.length ≤ n := by
      rw [← (mapM_eq_ok_iff.mp h).length_eq]
      exact List.getElem?_eq_none_iff.mp hn
    rw [indexArgs, List.getElem?_eq_none hlen]
    rfl
  · obtain ⟨a, ha, hna⟩ := exists_getElem?_of_mapM h hn
    rw [orPanic_some, ok_bind, ha, indexArgs, hna]
    rfl

/-- An expression evaluates through the counter to what it evaluates to directly. -/
lemma Compiled.sameOutcome {e : Expr} (he : Compiled e)
    (h : mapping.mapM (fun i => indexArgs allArgs i.toNat) = .ok args) :
    SameOutcome (e.evaluateIndirect allArgs mapping) (e.evaluate args) := by
  have hstack : evaluateIndirectOnStack e.ops (indexIndirect allArgs mapping) =
      evaluateOnStack e.ops args := by
    rw [funext (indexIndirect_eq h)]
    rfl
  rcases he with hnone | ⟨t, ht⟩
  · unfold Expr.evaluateIndirect Expr.evaluate
    rw [hnone]
    exact congrArg _ hstack
  · exact (sameOutcome_evaluateIndirect ht allArgs mapping).trans
      ((congrArg _ hstack).trans (sameOutcome_evaluate ht args).symm)

/-- The arguments of the item, of those that were interpreted for a case. -/
lemma mapM_interpretInputs {args argInterpretation : List Arg}
    (hall : args.mapM (Arg.interpretInputs inputs []) = .ok allArgs)
    (hmap : mapping.mapM (fun index => orPanic .indexOutOfBounds args[index.toNat]?) =
      .ok argInterpretation) :
    ∃ values, argInterpretation.mapM (Arg.interpretInputs inputs []) = .ok values ∧
      mapping.mapM (fun i => indexArgs allArgs i.toNat) = .ok values := by
  rw [mapM_eq_ok_iff] at hmap
  induction hmap with
  | nil => exact ⟨[], rfl, rfl⟩
  | @cons index arg mapping argInterpretation hindex _ ih =>
    obtain ⟨values, hvalues, hread⟩ := ih
    obtain ⟨value, hvalue, hget⟩ := exists_getElem?_of_mapM hall (eq_some_of_orPanic hindex)
    refine ⟨value :: values, ?_, ?_⟩
    · rw [List.mapM_cons, hvalue, hvalues]
      rfl
    · rw [List.mapM_cons, indexArgs, hget, hread]
      rfl

namespace IterItemComputation

variable {c : IterItemComputation} {comp : ExpressionComputation} {encoding : OutputEncoding}

/-- What the computation that is made from an item evaluates to, and what it compares to. -/
lemma exists_evaluate (ho : c.computationEnumerator.Typed)
    (hall : c.computationEnumerator.args.mapM (Arg.interpretInputs inputs []) = .ok allArgs)
    {x : I128} (hx : c.templateIterator.template.expr.evaluateIndirect allArgs c.argIndexes = .ok x)
    (hcomp : c.toTemplateComputation encoding = .ok comp) (encoding' : OutputEncoding) :
    (comp.setOutputEncoding encoding').evaluate inputs =
      .ok (output c.computationEnumerator.internalOutputType encoding' x) := by
  obtain ⟨argInterpretation, hargs, hcomp⟩ := ok_of_bind hcomp
  split at hcomp
  · cases hcomp
  obtain ⟨template, htemplate, rfl⟩ := ok_of_bind_ok hcomp
  unfold exprComputation at htemplate
  rw [ho] at htemplate
  obtain rfl := ok.inj htemplate
  obtain ⟨values, hvalues, hread⟩ := mapM_interpretInputs hall hargs
  have heval := (c.templateIterator.template.compiled.sameOutcome hread).eq_ok_iff.mp hx
  unfold ExpressionComputation.evaluate ExpressionComputation.asInternal
    ExpressionComputation.setOutputEncoding
  rw [constFrom_ioType ho]
  show (argInterpretation.mapM (Arg.interpretInputs inputs []) >>= _) = _
  rw [hvalues]
  show (c.templateIterator.template.expr.evaluate values >>= _) = _
  rw [heval]
  rfl

/-- Checking an item is evaluating the computation that is made from it. -/
theorem compare_iff (ho : c.computationEnumerator.Typed)
    (hall : c.computationEnumerator.args.mapM (Arg.interpretInputs inputs []) = .ok allArgs)
    (hfits : Fits c.computationEnumerator.internalOutputType v)
    {p : PreparedComparison} (hp : PreparedComparison.ofValue v = .ok p) {r : CompareResult}
    (hr : c.preparedCompareEqWithArgsIndirect allArgs p = .ok r)
    (hcomp : c.toTemplateComputation encoding = .ok comp) :
    (r.littleEndian = true ↔
        (comp.setOutputEncoding .unsignedLittleEndian).evaluate inputs = .ok v) ∧
      (r.bigEndian = true ↔
        (comp.setOutputEncoding .unsignedBigEndian).evaluate inputs = .ok v) := by
  obtain ⟨x, hx, hr⟩ := ok_of_bind hr
  rw [compareDual_eq hp hfits] at hr
  obtain rfl := ok.inj hr
  simp only [exists_evaluate ho hall hx hcomp, ok.injEq, decide_eq_true_iff, and_self]

end IterItemComputation

/-- Comparing a computation with a value of its output type is evaluating it. -/
lemma compareEq_eq_true_iff {c : ExpressionComputation}
    {o : OutputType} (ho : constFrom c.outputType = .ok o)
    (hfits : Fits o v) {b : Bool} (hb : c.compareEq inputs v = .ok b) :
    b = true ↔ c.evaluate inputs = .ok v := by
  unfold ExpressionComputation.compareEq ExpressionComputation.asInternal at hb
  unfold ExpressionComputation.evaluate ExpressionComputation.asInternal
  rw [ho] at hb ⊢
  obtain ⟨internal, hinternal, hb⟩ := ok_of_bind hb
  rw [hinternal, ok_bind]
  obtain rfl := ok.inj hinternal
  rw [ComputationRef.compareEq_eq hfits] at hb
  obtain ⟨w, hw, rfl⟩ := ok_of_bind_ok hb
  rw [decide_eq_true_iff, hw, ok.injEq]

/-! ## Comparing with a prepared value -/

/-- The prepared, the dual and the indirect comparison say whether the computation evaluates to the
value, and panic where the evaluation panics. -/
structure ComparesExactly (c : ComputationRef) (inputs : List OwnedValue) (v : OwnedValue)
    (p : PreparedComparison) : Prop where
  prepared : SameOutcome (c.result inputs >>= p.compare c.template.outputType c.outputEncoding)
    (c.evaluatesTo inputs v)
  dual : SameOutcome (do
    let r ← p.compareDual c.template.outputType (← c.result inputs)
    return r.forEncoding c.outputEncoding) (c.evaluatesTo inputs v)
  indirect : ∀ args allArgs mapping,
    c.argInterpretation.mapM (Arg.interpretInputs inputs c.consts) = .ok args →
    mapping.mapM (fun i => indexArgs allArgs i.toNat) = .ok args →
    SameOutcome (c.template.preparedCompareEqWithArgsIndirect allArgs mapping p)
      (c.evaluatesTo inputs v)

variable {i : ComputationRef} {p : PreparedComparison}

lemma sameOutcome_compare_iff (hfits : Fits i.template.outputType v)
    (hp : PreparedComparison.ofValue v = .ok p) (inputs : List OwnedValue) :
    SameOutcome (i.result inputs >>= p.compare i.template.outputType i.outputEncoding)
        (i.evaluatesTo inputs v) ↔
      i.template.outputType ≠ .bytes 16 ∨ (i.evaluate inputs).toOption = none := by
  rw [ComputationRef.evaluatesTo, i.evaluate_eq_result]
  rcases i.result inputs with e | x
  · exact iff_of_true rfl (.inr rfl)
  · simp only [ok_bind, compare_eq hp hfits]
    split
    next h16 => exact iff_of_false (fun h => by cases h) (by simp [h16, Except.toOption])
    next h16 => exact iff_of_true rfl (.inl h16)

/-- The three comparisons are exact unless the output has 16 bytes: two of them overflow then. -/
theorem comparesExactly_iff {c : SynthesizedComputation} (he : Compiled c.expr)
    (hi : c.asInternal = .ok i) (hlen : ∀ n, i.template.outputType = .bytes n → 1 ≤ n ∧ n ≤ 16)
    (hfits : Fits i.template.outputType v) (inputs : List OwnedValue) :
    ∃ p, PreparedComparison.ofValue v = .ok p ∧ (ComparesExactly i inputs v p ↔
      i.template.outputType ≠ .bytes 16 ∨ (c.evaluate inputs).toOption = none) := by
  obtain ⟨p, hp⟩ := exists_ofValue hfits hlen
  have heval : c.evaluate inputs = i.evaluate inputs := by
    rw [SynthesizedComputation.evaluate, hi, ok_bind]
  have hexpr : c.expr = i.template.expr := by
    obtain ⟨o, -, rfl⟩ := ok_of_bind_ok hi
    rfl
  rw [heval, ← sameOutcome_compare_iff hfits hp]
  refine ⟨p, hp, fun h => h.prepared, fun h => ⟨h, ?_, fun args allArgs mapping hargs hmap => ?_⟩⟩
  · refine congrArg _ (ComputationRef.result_bind (fun x => ?_) inputs)
    rw [compareDual_eq hp hfits]
    rcases i.outputEncoding with _ | _ <;> rfl
  · refine (((hexpr ▸ he).sameOutcome hmap).bind _).trans (Eq.trans ?_ h)
    rw [ComputationRef.result, hargs]
    rfl

/-- A number output. -/
theorem comparesExactly_integer :
    ∃ p, PreparedComparison.ofValue (.num 5) = .ok p ∧
      ComparesExactly ⟨⟨⟨[.hole 0], none⟩, .unsignedBigEndian, .number 255⟩, [.tinyConst 5], []⟩ []
        (.num 5) p := by
  obtain ⟨p, hp, h⟩ := comparesExactly_iff
    (c := ⟨⟨[.hole 0], none⟩, [.tinyConst 5], [], .unsignedBigEndian, .integer 8⟩) (v := .num 5)
    (.inl rfl) rfl nofun rfl []
  exact ⟨p, hp, h.mpr (.inl nofun)⟩

/-- The constant zero as 16 bytes: the prepared comparison panics. -/
theorem not_comparesExactly_bytes16 :
    let c : ComputationRef :=
      ⟨⟨⟨[.hole 0], none⟩, .unsignedLittleEndian, .bytes 16⟩, [.tinyConst 0], []⟩
    PreparedComparison.ofValue (.bytes (.replicate 16 0)) = .ok ⟨0, 0⟩ ∧
      c.evaluate [] = .ok (.bytes (.replicate 16 0)) ∧
      ¬ ComparesExactly c [] (.bytes (.replicate 16 0)) ⟨0, 0⟩ := by
  refine ⟨by decide +kernel, by decide +kernel, fun h => ?_⟩
  have hnone : none = some true := h.prepared
  cases hnone

end LibLisa.Synth
