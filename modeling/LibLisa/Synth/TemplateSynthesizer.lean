import LibLisa.Synth.Searcher

/-!
# The template synthesizer

The synthesizer keeps a hypothesis that should explain every case it was given. A new case is
compared with the hypothesis only; if it does not match, the searcher is asked for the next
computation that matches all cases. Before that, the hypothesis is tried in little endian if it
could have been either when it was found.

A run keeps apart the cases that were known at the last search and those added since. The flag says
that little endian explains the former (`Kept.little`), which is why the shortcut needs no search; the
latter were compared with the big-endian hypothesis alone, and nothing takes the flag back. So a call
keeps all cases explained exactly if, should it switch, little endian explains the cases added since
the search (`EndianSafe`, `templateSynthesizer_explains_iff`).
-/

namespace LibLisa.Synth

open Lib Semantics OutputType Except Option List

/-- Source: `search/exprsearcher.rs`, `TemplateSynthesizer` -/
structure TemplateSynthesizer where
  searcher : Searcher PreparedComparison
  hypothesis : Option ExpressionComputation
  outputType : IoType
  canDoLittleEndian : Bool

namespace TemplateSynthesizer

/-- Source: `search/exprsearcher.rs`, `TemplateSynthesizer::new_with_custom_templates` -/
def newWithCustomTemplates (templates : List PreprocessedTemplate) (inputTypes : List IoType)
    (outputType : IoType) : Partial TemplateSynthesizer := do
  return {
    searcher := ← Searcher.newWithCustomTemplates templates inputTypes outputType
    hypothesis := none
    outputType
    canDoLittleEndian := false }

/-- Source: `search/exprsearcher.rs`, `TemplateSynthesizer::is_consistent` -/
def isConsistent (s : TemplateSynthesizer) (inputs : List OwnedValue) (output : OwnedValue) :
    Partial Bool :=
  match s.hypothesis with
  | some hyp => hyp.compareEq inputs output
  | none => .ok false

/-- The end of `add_case`: the next expression that matches all cases. -/
def findHypothesis (s : TemplateSynthesizer) (fuel : ℕ) : Partial TemplateSynthesizer := do
  let (found, searcher) ← s.searcher.nextExpr CheckValueResult.check fuel
  match found with
  | none => return { s with searcher, hypothesis := none }
  | some (next, c) =>
    if c.bigEndian then do
      let hyp ← next.toTemplateComputation .unsignedBigEndian
      return { s with searcher, hypothesis := some hyp, canDoLittleEndian := c.littleEndian }
    else if c.littleEndian then do
      let hyp ← next.toTemplateComputation .unsignedLittleEndian
      return { s with searcher, hypothesis := some hyp, canDoLittleEndian := false }
    else .error .unreachable

/-- Source: `search/exprsearcher.rs`, `TemplateSynthesizer::add_case` -/
def addCase (s : TemplateSynthesizer) (fuel : ℕ) (inputs : List OwnedValue)
    (expectedOutput : OwnedValue) : Partial TemplateSynthesizer := do
  let expected ← PreparedComparison.ofValue expectedOutput
  let searcher ← s.searcher.addCase inputs expected
  let s := { s with searcher }
  if ← s.isConsistent inputs expectedOutput then return s
  else
    match s.hypothesis, s.canDoLittleEndian with
    | some hyp, true => do
      let s := { s with hypothesis := some (hyp.setOutputEncoding .unsignedLittleEndian) }
      if ← s.isConsistent inputs expectedOutput then return s
      else s.findHypothesis fuel
    | _, _ => s.findHypothesis fuel

end TemplateSynthesizer

/-! ## Runs -/

/-- The inputs and the output of a case. -/
abbrev InputOutput := List OwnedValue × OwnedValue

namespace TemplateSynthesizer

/-- The hypothesis, if there is one, gives the output of every case. -/
def Explains (s : TemplateSynthesizer) (cases : List InputOutput) : Prop :=
  ∀ hyp ∈ s.hypothesis, ∀ case ∈ cases, hyp.evaluate case.1 = .ok case.2

/-- The hypothesis in little endian gives the output of every case. -/
def LittleExplains (s : TemplateSynthesizer) (cases : List InputOutput) : Prop :=
  ∀ hyp ∈ s.hypothesis, ∀ case ∈ cases,
    (hyp.setOutputEncoding .unsignedLittleEndian).evaluate case.1 = .ok case.2

/-- There is a hypothesis, and it gives the output of the case. -/
def Confirms (s : TemplateSynthesizer) (case : InputOutput) : Prop :=
  ∃ hyp ∈ s.hypothesis, hyp.evaluate case.1 = .ok case.2

/-- The hypothesis does not give the output of the case, but it does in little endian, which it
could have been when it was found. -/
def Switches (s : TemplateSynthesizer) (case : InputOutput) : Prop :=
  ¬ s.Confirms case ∧ s.canDoLittleEndian = true ∧ ∃ hyp ∈ s.hypothesis,
    (hyp.setOutputEncoding .unsignedLittleEndian).evaluate case.1 = .ok case.2

instance (s : TemplateSynthesizer) (case : InputOutput) : Decidable (s.Confirms case) := by
  unfold Confirms
  infer_instance

instance (s : TemplateSynthesizer) (case : InputOutput) : Decidable (s.Switches case) := by
  unfold Switches
  infer_instance

/-- If the call switches to little endian, then that explains the cases added since the search. -/
def EndianSafe (s : TemplateSynthesizer) (since : List InputOutput) (case : InputOutput) : Prop :=
  s.Switches case → s.LittleExplains since

/-- The cases known at the last search and those added since, after a call. -/
def record (s : TemplateSynthesizer) (known since : List InputOutput) (case : InputOutput) :
    List InputOutput × List InputOutput :=
  if s.Confirms case ∨ s.Switches case then (known, case :: since) else (case :: since ++ known, [])

end TemplateSynthesizer

/-- The value is one of the type. -/
def IsValueOf (ty : IoType) (v : OwnedValue) : Prop :=
  ∀ o, OutputType.constFrom ty = .ok o → Fits o v

/-- A sequence of calls, with the cases known at the last search and those added since, the latest
first. The outputs are of the output type, and every call is safe. -/
inductive Run (templates : List PreprocessedTemplate) (inputTypes : List IoType)
    (outputType : IoType) : List InputOutput → List InputOutput → TemplateSynthesizer → Prop
  | new {s}
      (h : TemplateSynthesizer.newWithCustomTemplates templates inputTypes outputType = .ok s) :
      Run templates inputTypes outputType [] [] s
  | addCase {known since s s' case}
      (run : Run templates inputTypes outputType known since s) (fuel : ℕ)
      (hvalue : IsValueOf outputType case.2) (hsafe : s.EndianSafe since case)
      (h : s.addCase fuel case.1 case.2 = .ok s') :
      Run templates inputTypes outputType (s.record known since case).1
        (s.record known since case).2 s'

/-! ## What the synthesizer keeps -/

namespace TemplateSynthesizer

variable {ty : IoType}

/-- The searcher has every case, and the hypothesis has the output type. -/
structure Inv (ty : IoType) (s : TemplateSynthesizer) (cases : List InputOutput) : Prop where
  outputType_eq : s.searcher.iter.outputType = ty
  constFrom_eq : OutputType.constFrom ty = .ok s.searcher.iter.internalOutputType
  hypothesis_type : ∀ hyp ∈ s.hypothesis,
    OutputType.constFrom hyp.outputType = .ok s.searcher.iter.internalOutputType
  fits : ∀ case ∈ cases, Fits s.searcher.iter.internalOutputType case.2
  prepared : ∀ case ∈ cases, ∃ c ∈ s.searcher.cases,
    s.searcher.iter.args.mapM (Arg.interpretInputs case.1 []) = .ok c.interpretedArgs ∧
      PreparedComparison.ofValue case.2 = .ok c.expectedOutput

variable {s : TemplateSynthesizer}

lemma Inv.new {templates : List PreprocessedTemplate} {inputTypes : List IoType}
    {outputType : IoType} (h : newWithCustomTemplates templates inputTypes outputType = .ok s) :
    s.Inv outputType [] := by
  obtain ⟨searcher, hsearcher, rfl⟩ := ok_of_bind_ok h
  obtain ⟨iter, hiter, rfl⟩ := ok_of_bind_ok hsearcher
  obtain ⟨args, o, -, ho, rfl⟩ := ok_of_bind₂_ok hiter
  exact ⟨rfl, ho, nofun, nofun, nofun⟩

variable {cases : List InputOutput}

lemma Inv.constFrom_iter (I : s.Inv ty cases) : s.searcher.iter.Typed := by
  rw [ComputationEnumerator.Typed, I.outputType_eq]
  exact I.constFrom_eq

variable {case : InputOutput} {searcher : Searcher PreparedComparison} {encoding : OutputEncoding}
  {s' : TemplateSynthesizer} {fuel : ℕ}

/-- Adding a case to the searcher. -/
lemma Inv.addCase (I : s.Inv ty cases) (hfits : Fits s.searcher.iter.internalOutputType case.2)
    {p : PreparedComparison} (hp : PreparedComparison.ofValue case.2 = .ok p)
    (h : s.searcher.addCase case.1 p = .ok searcher) :
    ({ s with searcher } : TemplateSynthesizer).Inv ty (case :: cases) := by
  obtain ⟨interpretedArgs, hargs, rfl⟩ := ok_of_bind_ok h
  refine ⟨I.outputType_eq, I.constFrom_eq, I.hypothesis_type, ?_, ?_⟩
  · intro c hc
    rcases mem_cons.mp hc with rfl | hc
    · exact hfits
    · exact I.fits c hc
  · intro c hc
    rcases mem_cons.mp hc with rfl | hc
    · exact ⟨_, mem_append_right _ (mem_singleton_self _), hargs, hp⟩
    · obtain ⟨c', hmem, hargs', hp'⟩ := I.prepared c hc
      exact ⟨c', mem_append_left _ hmem, hargs', hp'⟩

/-- Replacing the hypothesis by another one of the output type. -/
lemma Inv.withHypothesis (I : s.Inv ty cases) {hypothesis : Option ExpressionComputation}
    {canDoLittleEndian : Bool} (htype : ∀ hyp ∈ hypothesis,
      constFrom hyp.outputType = .ok s.searcher.iter.internalOutputType) :
    ({ s with hypothesis, canDoLittleEndian } : TemplateSynthesizer).Inv ty cases :=
  { I with hypothesis_type := htype }

/-- Whether a case is consistent, for a case of the output type. -/
lemma Inv.isConsistent_iff (I : s.Inv ty cases)
    (hfits : Fits s.searcher.iter.internalOutputType case.2) {b : Bool}
    (h : s.isConsistent case.1 case.2 = .ok b) : b = true ↔ s.Confirms case := by
  unfold isConsistent at h
  split at h
  next hyp hhyp =>
    rw [compareEq_eq_true_iff (I.hypothesis_type hyp hhyp) hfits h]
    refine ⟨fun heval => ⟨hyp, hhyp, heval⟩, ?_⟩
    rintro ⟨hyp', hhyp', heval⟩
    obtain rfl := mem_unique hhyp hhyp'
    exact heval
  next hnone =>
    obtain rfl := ok.inj h
    unfold Confirms
    rw [hnone]
    exact ⟨nofun, fun ⟨_, h, _⟩ => nomatch h⟩

/-- The computation that is made from an item has the output type of the enumerator. -/
lemma outputType_of_toTemplateComputation {c : IterItemComputation}
    (ho : c.computationEnumerator.Typed)
    {comp : ExpressionComputation} (h : c.toTemplateComputation encoding = .ok comp) :
    constFrom comp.outputType = .ok c.computationEnumerator.internalOutputType ∧
      comp.outputEncoding = encoding := by
  obtain ⟨argInterpretation, -, h⟩ := ok_of_bind h
  split at h
  · cases h
  obtain ⟨template, htemplate, rfl⟩ := ok_of_bind_ok h
  unfold IterItemComputation.exprComputation at htemplate
  rw [ho] at htemplate
  obtain rfl := ok.inj htemplate
  exact ⟨constFrom_ioType ho _ _, rfl⟩

lemma setOutputEncoding_self (c : ExpressionComputation) :
    c.setOutputEncoding c.outputEncoding = c := rfl

/-- The search keeps what the synthesizer has. -/
lemma Inv.withSearcher (I : s.Inv ty cases) (hsame : s.searcher.iter.Same searcher.iter)
    (hcovered : Searcher.Covered s.searcher.cases searcher.cases) :
    ({ s with searcher } : TemplateSynthesizer).Inv ty cases := by
  refine ⟨hsame.outputType_eq.trans I.outputType_eq, ?_, ?_, ?_, ?_⟩
  · rw [hsame.internalOutputType_eq]
    exact I.constFrom_eq
  · rw [hsame.internalOutputType_eq]
    exact I.hypothesis_type
  · rw [hsame.internalOutputType_eq]
    exact I.fits
  · intro case hcase
    obtain ⟨c, hc, hargs, hp⟩ := I.prepared case hcase
    obtain ⟨c', hc', hargs', hp'⟩ := hcovered c hc
    refine ⟨c', hc', ?_, hp.trans (congrArg _ hp'.symm)⟩
    rw [hsame.args_eq, hargs']
    exact hargs

/-- An item that passed the check gives the output of every case, in the byte orders the check
says. -/
lemma Inv.evaluate_of_found (I : s.Inv ty cases) {next : IterItemComputation}
    {c : CheckValueResult} (hfound : Searcher.Found CheckValueResult.check s.searcher (next, c))
    {hyp : ExpressionComputation} (hhyp : next.toTemplateComputation encoding = .ok hyp) :
    ∀ case ∈ cases,
      (c.bigEndian = true →
        (hyp.setOutputEncoding .unsignedBigEndian).evaluate case.1 = .ok case.2) ∧
      (c.littleEndian = true →
        (hyp.setOutputEncoding .unsignedLittleEndian).evaluate case.1 = .ok case.2) := by
  intro case hcase
  have henum : next.computationEnumerator = s.searcher.iter := hfound.enumerator_eq
  obtain ⟨stored, hmem, hargs, hp⟩ := I.prepared case hcase
  obtain ⟨r, hr, hbig, hlittle⟩ := (Searcher.checkLoop_value hfound.checked).2.2 stored hmem
  have hcompare := IterItemComputation.compare_iff (by rw [henum]; exact I.constFrom_iter)
    (by rw [henum]; exact hargs) (by rw [henum]; exact I.fits case hcase) hp hr hhyp
  exact ⟨fun h => hcompare.2.mp (hbig h), fun h => hcompare.1.mp (hlittle h)⟩

/-- A search ends with a hypothesis that explains all cases, also in little endian if the flag says
so, or with none. -/
lemma Inv.findHypothesis (I : s.Inv ty cases) (h : s.findHypothesis fuel = .ok s') :
    s'.Inv ty cases ∧ s'.Explains cases ∧
      (s'.canDoLittleEndian = true → s'.LittleExplains cases) := by
  obtain ⟨⟨found, searcher⟩, hsearch, h⟩ := ok_of_bind h
  obtain ⟨hsame, hcovered, hfound⟩ := Searcher.nextExprLoop_spec hsearch
  have I' := I.withSearcher hsame hcovered
  dsimp only at h
  split at h
  · obtain rfl := ok.inj h
    exact ⟨I'.withHypothesis nofun, nofun, fun _ => nofun⟩
  next next c =>
    have hnext := hfound (next, c) rfl
    have henum : next.computationEnumerator = searcher.iter := hnext.enumerator_eq
    have hconst : next.computationEnumerator.Typed := by
      rw [henum]
      exact I'.constFrom_iter
    -- Both branches make the item's computation in a byte order that passed the check.
    have hmade : ∀ {encoding : OutputEncoding} {hyp : ExpressionComputation} {b : Bool},
        next.toTemplateComputation encoding = .ok hyp →
        (∀ case ∈ cases, (hyp.setOutputEncoding encoding).evaluate case.1 = .ok case.2) →
        ({ s with searcher, hypothesis := some hyp, canDoLittleEndian := b } :
            TemplateSynthesizer).Inv ty cases ∧
          ({ s with searcher, hypothesis := some hyp, canDoLittleEndian := b } :
            TemplateSynthesizer).Explains cases := by
      intro encoding hyp b hhyp hall
      obtain ⟨htype, hencoding⟩ := outputType_of_toTemplateComputation hconst hhyp
      refine ⟨I'.withHypothesis ?_, ?_⟩
      · rintro _ ⟨⟩
        rw [← henum]
        exact htype
      · rintro _ ⟨⟩ case hcase
        rw [← setOutputEncoding_self hyp, hencoding]
        exact hall case hcase
    split at h
    next hbig =>
      obtain ⟨hyp, hhyp, rfl⟩ := ok_of_bind_ok h
      have hfound := I'.evaluate_of_found hnext hhyp
      obtain ⟨hinv, hexplains⟩ := hmade hhyp fun case hcase => (hfound case hcase).1 hbig
      refine ⟨hinv, hexplains, fun hlittle => ?_⟩
      rintro _ ⟨⟩ case hcase
      exact (hfound case hcase).2 hlittle
    next =>
      split at h
      next hlittle =>
        obtain ⟨hyp, hhyp, rfl⟩ := ok_of_bind_ok h
        obtain ⟨hinv, hexplains⟩ := hmade hhyp fun case hcase =>
          (I'.evaluate_of_found hnext hhyp case hcase).2 hlittle
        exact ⟨hinv, hexplains, nofun⟩
      next => cases h

/-- What a call can do: keep the hypothesis, switch it to little endian, or search. -/
lemma Inv.addCase_cases (I : s.Inv ty cases) (hvalue : IsValueOf ty case.2)
    (h : s.addCase fuel case.1 case.2 = .ok s') :
    s'.Inv ty (case :: cases) ∧
      (s.Confirms case ∧ s'.hypothesis = s.hypothesis ∧
          s'.canDoLittleEndian = s.canDoLittleEndian ∨
        s.Switches case ∧
          s'.hypothesis = s.hypothesis.map (·.setOutputEncoding .unsignedLittleEndian) ∨
        ¬ (s.Confirms case ∨ s.Switches case) ∧ s'.Explains (case :: cases) ∧
          (s'.canDoLittleEndian = true → s'.LittleExplains (case :: cases))) := by
  obtain ⟨p, searcher, hp, hsearcher, h⟩ := ok_of_bind₂ h
  have I₁ := I.addCase (hvalue _ I.constFrom_eq) hp hsearcher
  have hfits₁ : Fits searcher.iter.internalOutputType case.2 := I₁.fits case (.head _)
  obtain ⟨b, hb, h⟩ := ok_of_bind h
  have hconfirms : b = true ↔ s.Confirms case := I₁.isConsistent_iff hfits₁ hb
  split at h
  next htrue =>
    obtain rfl := ok.inj h
    exact ⟨I₁, .inl ⟨hconfirms.mp htrue, rfl, rfl⟩⟩
  next hfalse =>
    have hnot : ¬ s.Confirms case := fun hc => hfalse (hconfirms.mpr hc)
    split at h
    next hyp hhyp hcan =>
      obtain ⟨b', hb', h⟩ := ok_of_bind h
      have I₂ : ({ s with
          searcher, hypothesis := some (hyp.setOutputEncoding .unsignedLittleEndian) } :
          TemplateSynthesizer).Inv ty (case :: cases) := by
        apply I₁.withHypothesis
        rintro _ ⟨⟩
        exact I₁.hypothesis_type hyp hhyp
      have hlittle := I₂.isConsistent_iff hfits₁ hb'
      split at h
      next htrue =>
        obtain rfl := ok.inj h
        obtain ⟨_, ⟨⟩, heval⟩ := hlittle.mp htrue
        refine ⟨I₂, .inr (.inl ⟨⟨hnot, hcan, hyp, hhyp, heval⟩, ?_⟩)⟩
        rw [show s.hypothesis = some hyp from hhyp]
        rfl
      next hfalse' =>
        obtain ⟨I', hfound⟩ := I₂.findHypothesis h
        refine ⟨I', .inr (.inr ⟨?_, hfound⟩)⟩
        rintro (hc | ⟨-, -, hyp', hhyp', heval⟩)
        · exact hnot hc
        · obtain rfl := mem_unique hhyp hhyp'
          exact hfalse' (hlittle.mpr ⟨_, rfl, heval⟩)
    next hno =>
      obtain ⟨I', hfound⟩ := I₁.findHypothesis h
      refine ⟨I', .inr (.inr ⟨?_, hfound⟩)⟩
      rintro (hc | ⟨-, hcan, hyp, hhyp, -⟩)
      · exact hnot hc
      · exact hno hyp hhyp hcan

variable {known since : List InputOutput}

/-- What holds between the calls of a run. -/
structure Kept (ty : IoType) (s : TemplateSynthesizer) (known since : List InputOutput) : Prop where
  inv : s.Inv ty (since ++ known)
  explains : s.Explains (since ++ known)
  little : s.canDoLittleEndian = true → s.LittleExplains known

/-- After a call the hypothesis explains all cases exactly if the call was safe, and then what the
flag says is kept too. -/
lemma Kept.addCase (K : s.Kept ty known since) (hvalue : IsValueOf ty case.2)
    (h : s.addCase fuel case.1 case.2 = .ok s') :
    (s'.Explains (case :: (since ++ known)) ↔ s.EndianSafe since case) ∧
      (s'.Explains (case :: (since ++ known)) →
        s'.Kept ty (s.record known since case).1 (s.record known since case).2) := by
  unfold record
  obtain ⟨I, ⟨hconfirms, hsame, hcan⟩ | ⟨hswitch, hsame⟩ | ⟨hsearch, hexplains, hlittle⟩⟩ :=
    K.inv.addCase_cases hvalue h
  · rw [if_pos (.inl hconfirms)]
    obtain ⟨hyp, hhyp, heval⟩ := id hconfirms
    refine ⟨iff_of_true ?_ fun hswitch => absurd hconfirms hswitch.1,
      fun hexplains => ⟨I, hexplains, fun hcan' => ?_⟩⟩
    · intro hyp' hhyp'
      rw [hsame] at hhyp'
      obtain rfl := mem_unique hhyp hhyp'
      exact forall_mem_cons.mpr ⟨heval, K.explains hyp hhyp⟩
    · have hlittle := K.little (hcan.symm.trans hcan')
      unfold LittleExplains at hlittle ⊢
      rwa [hsame]
  · -- the flag speaks for the cases known at the search, the condition for the others
    rw [if_pos (.inr hswitch)]
    obtain ⟨-, hcan, hyp, hhyp, heval⟩ := id hswitch
    have hlittle := K.little hcan hyp hhyp
    have hnew : s'.hypothesis = some (hyp.setOutputEncoding .unsignedLittleEndian) := by
      rw [hsame, hhyp]
      rfl
    refine ⟨⟨fun hall _ hyp' hhyp' earlier hearlier => ?_, fun hsafe hyp' hhyp' => ?_⟩,
      fun hexplains => ⟨I, hexplains, fun _ hyp' hhyp' => ?_⟩⟩
    · obtain rfl := mem_unique hhyp hhyp'
      exact hall _ hnew earlier (.tail _ (mem_append_left _ hearlier))
    · obtain rfl := mem_unique hnew hhyp'
      exact forall_mem_cons.mpr ⟨heval, forall_mem_append.mpr ⟨hsafe hswitch hyp hhyp, hlittle⟩⟩
    · obtain rfl := mem_unique hnew hhyp'
      exact hlittle
  · rw [if_neg hsearch]
    exact ⟨iff_of_true hexplains fun hswitch => absurd (.inr hswitch) hsearch,
      fun _ => ⟨I, hexplains, hlittle⟩⟩

end TemplateSynthesizer

section Runs

variable {templates : List PreprocessedTemplate} {inputTypes : List IoType} {outputType : IoType}

/-- After every call of a run whose calls are safe the hypothesis explains all cases. -/
lemma Run.kept {known since : List InputOutput} {s : TemplateSynthesizer}
    (run : Run templates inputTypes outputType known since s) : s.Kept outputType known since := by
  induction run with
  | new h => exact ⟨.new h, fun _ _ => nofun, fun _ _ _ => nofun⟩
  | addCase _ fuel hvalue hsafe h ih =>
    obtain ⟨hiff, hkept⟩ := ih.addCase hvalue h
    exact hkept (hiff.mpr hsafe)

end Runs

/-- In every run whose calls are all safe the hypothesis explains every case, in every state
reached; and a call made in such a state keeps this exactly if it is safe. -/
theorem templateSynthesizer_explains_iff (templates : List PreprocessedTemplate)
    (inputTypes : List IoType) (outputType : IoType) {known since : List InputOutput}
    {s : TemplateSynthesizer} (run : Run templates inputTypes outputType known since s) :
    s.Explains (since ++ known) ∧
      ∀ (case : InputOutput) (fuel : ℕ) (s' : TemplateSynthesizer),
        IsValueOf outputType case.2 → s.addCase fuel case.1 case.2 = .ok s' →
        (s'.Explains (case :: (since ++ known)) ↔ s.EndianSafe since case) :=
  ⟨run.kept.explains, fun _ _ _ hvalue h => (run.kept.addCase hvalue h).1⟩

/-- The template that is a single hole. -/
def holeTemplate : PreprocessedTemplate where
  expr := ⟨[.hole 0], none⟩
  argIndices := [0]
  constValues := constValues
  orderingIndexes := [none]
  compiled := .inl rfl

lemma isValueOf_bytes {bytes : List U8} {n : ℕ} (h : bytes.length = n) :
    IsValueOf (.bytes n) (.bytes bytes) := by
  rintro _ ⟨⟩
  exact h

instance (s : TemplateSynthesizer) (cases : List InputOutput) : Decidable (s.Explains cases) := by
  unfold TemplateSynthesizer.Explains
  infer_instance

instance (s : TemplateSynthesizer) (cases : List InputOutput) :
    Decidable (s.LittleExplains cases) := by
  unfold TemplateSynthesizer.LittleExplains
  infer_instance

/-- Two cases that the bytes of the input explain in either order. -/
def zeroCase : InputOutput := ([.num 0], .bytes [0, 0])

@[inherit_doc zeroCase]
def onesCase : InputOutput := ([.num 0x0101], .bytes [1, 1])

/-- A case that needs little endian. -/
def littleCase : InputOutput := ([.num 0x0200], .bytes [2, 0])

/-- The first case is searched for, the second one found to be explained, and for the third one the
hypothesis switches to little endian, which explains the second one too. -/
theorem templateSynthesizer_explains_littleCase :
    ∃ s, Run [holeTemplate] [.integer 16] (.bytes 2)
        [zeroCase] [littleCase, onesCase] s ∧
      (s.hypothesis.map (·.outputEncoding)) = some .unsignedLittleEndian ∧
      s.Explains [littleCase, onesCase, zeroCase] := by
  obtain ⟨⟨s₀, s₁, s₂, s₃⟩, hs, h₀, h₁, h₂, hsince, h₃⟩ := exists_ok_of_any
    (x := do
      let s₀ ← TemplateSynthesizer.newWithCustomTemplates [holeTemplate] [.integer 16] (.bytes 2)
      let s₁ ← s₀.addCase 1 zeroCase.1 zeroCase.2
      let s₂ ← s₁.addCase 1 onesCase.1 onesCase.2
      let s₃ ← s₂.addCase 1 littleCase.1 littleCase.2
      return (s₀, s₁, s₂, s₃))
    (p := fun (s₀, s₁, s₂, s₃) => ¬ (s₀.Confirms zeroCase ∨ s₀.Switches zeroCase) ∧
      s₁.Confirms onesCase ∧ s₂.Switches littleCase ∧ s₂.LittleExplains [onesCase] ∧
      (s₃.hypothesis.map (·.outputEncoding)) = some .unsignedLittleEndian) (by decide +kernel)
  obtain ⟨_, _, hnew, hadd₁, hs⟩ := ok_of_bind₂ hs
  obtain ⟨_, _, hadd₂, hadd₃, hs⟩ := ok_of_bind₂_ok hs
  cases hs
  have hzero : IsValueOf (.bytes 2) zeroCase.2 := isValueOf_bytes rfl
  have hones : IsValueOf (.bytes 2) onesCase.2 := isValueOf_bytes rfl
  have hlittle : IsValueOf (.bytes 2) littleCase.2 := isValueOf_bytes rfl
  have run₁ := (Run.new hnew).addCase 1 hzero (fun hswitch => absurd (.inr hswitch) h₀) hadd₁
  rw [TemplateSynthesizer.record, if_neg h₀] at run₁
  have run₂ := run₁.addCase 1 hones (fun hswitch => absurd h₁ hswitch.1) hadd₂
  rw [TemplateSynthesizer.record, if_pos (.inl h₁)] at run₂
  have run₃ := run₂.addCase 1 hlittle (fun _ => hsince) hadd₃
  rw [TemplateSynthesizer.record, if_pos (.inr h₂)] at run₃
  exact ⟨s₃, run₃, h₃, (templateSynthesizer_explains_iff _ _ _ run₃).1⟩

/-- The cases so far, the second of which needs big endian, and one that needs little endian. -/
def endianCases : List InputOutput := [littleCase, ([.num 0x0100], .bytes [0, 1]), zeroCase]

/-- The third case switches the hypothesis to little endian, which does not explain the second. -/
theorem templateSynthesizer_forgets_case :
    (endianCases.map Prod.fst).Nodup ∧ (∀ case ∈ endianCases, IsValueOf (.bytes 2) case.2) ∧
      ∃ s : TemplateSynthesizer, (do
          let s ← TemplateSynthesizer.newWithCustomTemplates [holeTemplate] [.integer 16] (.bytes 2)
          endianCases.foldrM
            (fun (case : InputOutput) (s : TemplateSynthesizer) => s.addCase 1 case.1 case.2) s) =
          .ok s ∧
        ¬ s.Explains endianCases := by
  refine ⟨by decide, fun case hcase => ?_, exists_ok_of_any (by decide +kernel)⟩
  simp only [endianCases, mem_cons, not_mem_nil, or_false] at hcase
  rcases hcase with rfl | rfl | rfl <;> exact isValueOf_bytes rfl

end LibLisa.Synth
