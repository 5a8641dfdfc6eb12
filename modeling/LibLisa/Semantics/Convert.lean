import LibLisa.Semantics.Compare

/-!
# Converting computations

Owned, internal and borrowed computations are converted into each other by `as_internal` and
`to_synthesized_computation`. Both keep the value of an owned computation; of a borrowed one
`as_internal` drops the constants, so the value is kept exactly if there is none or no argument is a
constant (`keepsValue_iff`).
-/

namespace LibLisa.Semantics

open Lib

/-- Source: `computation.rs`, the implementors of `AsComputationRef`. The output type of a template
comes from `const_from`. -/
inductive AsComputationRef where
  | synthesized (c : SynthesizedComputation)
  | expression (c : ExpressionComputation)
  | ref (c : ComputationRef) (ty : IoType) (h : OutputType.constFrom ty = .ok c.template.outputType)

namespace AsComputationRef

/-- Source: `computation.rs`, `evaluate` of the implementors. -/
def evaluate (inputs : List OwnedValue) : AsComputationRef → Partial OwnedValue
  | synthesized c => c.evaluate inputs
  | expression c => c.evaluate inputs
  | ref c _ _ => c.evaluate inputs

/-- Source: `computation.rs`, `AsComputationRef::as_internal` -/
def asInternal : AsComputationRef → Partial ComputationRef
  | synthesized c => c.asInternal
  | expression c => c.asInternal
  | ref c _ _ => .ok { c with consts := [] }

/-- Source: `computation.rs`, `AsComputationRef::to_synthesized_computation` -/
def toSynthesizedComputation (c : AsComputationRef) : Partial SynthesizedComputation := do
  let i ← c.asInternal
  return {
    expr := i.template.expr
    argInterpretation := i.argInterpretation
    consts := i.consts
    outputEncoding := i.outputEncoding
    outputType := i.outputType }

/-- Both conversions give the value of the original, or fail where it fails. -/
def KeepsValue (c : AsComputationRef) (inputs : List OwnedValue) : Prop :=
  (c.asInternal >>= (·.evaluate inputs)).toOption = (c.evaluate inputs).toOption ∧
    (c.toSynthesizedComputation >>= (·.evaluate inputs)).toOption = (c.evaluate inputs).toOption

/-- A borrowed computation has no value, or no argument that is a constant. -/
def NeedsNoConst (inputs : List OwnedValue) : AsComputationRef → Prop
  | ref c _ _ => (c.evaluate inputs).toOption = none ∨ ∀ i, .const i ∉ c.argInterpretation
  | _ => True

variable {inputs : List OwnedValue} {c : ComputationRef}

lemma exists_constFrom {c : AsComputationRef} {i : ComputationRef} (hi : c.asInternal = .ok i) :
    ∃ ty, OutputType.constFrom ty = .ok i.template.outputType := by
  cases c with
  | synthesized c =>
    obtain ⟨o, ho, rfl⟩ := ok_of_bind_ok hi
    exact ⟨_, ho⟩
  | expression c =>
    obtain ⟨o, ho, rfl⟩ := ok_of_bind_ok hi
    exact ⟨_, ho⟩
  | ref c ty h =>
    obtain rfl := Except.ok.inj hi
    exact ⟨ty, h⟩

/-- The output type survives being read back from the template. -/
lemma evaluate_toSynthesizedComputation (c : AsComputationRef) :
    (c.toSynthesizedComputation >>= (·.evaluate inputs)) =
      c.asInternal >>= (·.evaluate inputs) := by
  unfold toSynthesizedComputation
  rcases hi : c.asInternal with e | i
  · rfl
  · obtain ⟨ty, hty⟩ := exists_constFrom hi
    simp only [ok_bind, pure, Except.pure, SynthesizedComputation.evaluate,
      SynthesizedComputation.asInternal, ComputationRef.outputType]
    rw [constFrom_ioType hty]
    rfl

lemma const_notMem_of_evaluate {v : OwnedValue}
    (h : ComputationRef.evaluate { c with consts := [] } inputs = .ok v) (i : U16) :
    .const i ∉ c.argInterpretation := by
  intro hi
  obtain ⟨xs, hxs, -⟩ := ok_of_bind h
  obtain ⟨x, hx⟩ := exists_of_mem_of_mapM hxs hi
  cases hx

lemma evaluate_withoutConsts (h : ∀ i, .const i ∉ c.argInterpretation) :
    ComputationRef.evaluate { c with consts := [] } inputs = c.evaluate inputs := by
  unfold ComputationRef.evaluate
  rw [mapM_congr fun a ha => ?_]
  cases a with
  | input => rfl
  | tinyConst => rfl
  | const i => exact absurd ha (h i)

/-- The conversions keep the value exactly where no constant is lost that it needs. -/
theorem keepsValue_iff (c : AsComputationRef) (inputs : List OwnedValue) :
    c.KeepsValue inputs ↔ c.NeedsNoConst inputs := by
  unfold KeepsValue
  rw [evaluate_toSynthesizedComputation, and_self]
  cases c with
  | synthesized c => exact iff_of_true rfl trivial
  | expression c => exact iff_of_true rfl trivial
  | ref c ty h =>
    constructor
    · intro heq
      rcases hv : ComputationRef.evaluate { c with consts := [] } inputs with e | v
      · exact Or.inl (heq.symm.trans (congrArg _ hv))
      · exact Or.inr (const_notMem_of_evaluate hv)
    · rintro (hnone | hno)
      · rcases hv : ComputationRef.evaluate { c with consts := [] } inputs with e | v
        · exact (congrArg _ hv).trans hnone.symm
        · exact congrArg _ (evaluate_withoutConsts (const_notMem_of_evaluate hv))
      · exact congrArg _ (evaluate_withoutConsts hno)

/-- The constant 7, borrowed: both conversions lose it. -/
theorem keepsValue_borrowed_const :
    let c : ComputationRef := ⟨⟨⟨[.hole 0], none⟩, .unsignedBigEndian, .number 255⟩, [.const 0], [7]⟩
    c.evaluate [] = .ok (.num 7) ∧ ∃ h, ¬ KeepsValue (ref c (.integer 8) h) [] := by
  refine ⟨by decide +kernel, by decide +kernel, ?_⟩
  rintro ⟨h, -⟩
  revert h
  decide +kernel

end AsComputationRef

end LibLisa.Semantics
