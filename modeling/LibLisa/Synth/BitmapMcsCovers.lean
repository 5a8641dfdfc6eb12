import LibLisa.Synth.Groupings
import LibLisa.Synth.TemplateSynthesizer

/-!
# The expressions that are found cover all cases

Whenever `find_expressions` returns a non-empty list, every case that was added is reproduced by one
of the computations (`findExpressions_covers`). The invariant says that the bitmaps of the processed
cases are right, and that all groupings, active or set aside, are good. Each case is in the map of a
grouping of the covering set, and the computation of a good grouping evaluates to the output of
the cases in its map.
-/

namespace LibLisa.Synth

open BitVec

open Lib Semantics Utils List BitmapMcsExpressionFinder OutputType PreparedComparison Except GrowingBitmap

/-! ## Computations of prepared cases -/

/-- The case was made from these inputs and this output, which is of the output type. -/
structure Prepared (e : ComputationEnumerator) (io : InputOutput) (case : FinderCase) : Prop where
  args_eq : e.args.mapM (Arg.interpretInputs io.1 []) = .ok case.args
  comparison_eq : PreparedComparison.ofValue io.2 = .ok case.comparison
  fits : Fits e.internalOutputType io.2

variable {e : ComputationEnumerator} {io : InputOutput} {case : FinderCase}

/-- The computation of a compressed expression evaluates to the output of the cases that the
expression reproduces. -/
lemma evaluate_of_explains (ho : e.Typed)
    (hp : Prepared e io case) {c : CompressedIterComputation} (hc : c.Explains e case)
    {u : UncompressedIterComputation} (hu : c.decompress e = .ok u) {comp : ExpressionComputation}
    (hcomp : u.toTemplateComputation = .ok comp) : comp.evaluate io.1 = .ok io.2 := by
  have henum : u.enumerator = e := by
    unfold CompressedIterComputation.decompress at hu
    split at hu
    · cases hu
    · obtain ⟨template, -, rfl⟩ := ok_of_bind_ok hu
      rfl
  have hcompare := hc u hu
  subst henum
  obtain ⟨indices, hindices, hcompare⟩ := ok_of_bind hcompare
  split at hcompare
  · cases hcompare
  · obtain ⟨x, r, hx, hr, hcompare⟩ := ok_of_bind₂ hcompare
    -- The item of the enumeration with these arguments.
    let item : IterItemComputation := ⟨⟨u.template, indices⟩, u.enumerator⟩
    have hitemCompare :
        item.preparedCompareEqWithArgsIndirect case.args case.comparison = .ok r := by
      show (u.template.expr.evaluateIndirect case.args indices >>= _) = _
      rw [hx]
      exact hr
    have hitemComp : item.toTemplateComputation u.outputEncoding = .ok comp := by
      unfold UncompressedIterComputation.toTemplateComputation at hcomp
      rw [hindices] at hcomp
      rw [ho] at hcomp
      unfold IterItemComputation.toTemplateComputation IterItemComputation.exprComputation
      rw [ho]
      exact hcomp
    obtain ⟨hlittle, hbig⟩ :=
      item.compare_iff ho hp.args_eq hp.fits hp.comparison_eq hitemCompare hitemComp
    have hencoding := (TemplateSynthesizer.outputType_of_toTemplateComputation ho hitemComp).2
    rw [← TemplateSynthesizer.setOutputEncoding_self comp, hencoding]
    have htrue := ok.inj hcompare
    split at htrue
    next hle =>
      rw [hle]
      exact hlittle.mp htrue
    next hbe =>
      rw [hbe]
      exact hbig.mp htrue

/-! ## Arguments that are the output -/

variable {o : OutputType} {ty : IoType} {p : PreparedComparison} {k : ℕ} {v : OwnedValue}

/-- Comparing the big-endian value of an output with itself. -/
lemma output_bigEndian (hfits : Fits o v) (hp : ofValue v = .ok p) :
    output o .unsignedBigEndian p.bigEndian = v := by
  have hself := compareDual_eq hp hfits p.bigEndian
  apply of_decide_eq_true
  rcases o with mask | n
  · exact (congrArg CompareResult.bigEndian (ok.inj hself)).symm.trans (decide_eq_true rfl)
  · obtain ⟨mask, -, heq⟩ := ok_of_bind_ok hself
    exact (congrArg CompareResult.bigEndian heq).symm.trans (decide_eq_true rfl)

lemma getLsbD_bitmaskU128 {n : ℕ} {mask : I128} (h : bitmaskU128 n = .ok mask) {i : ℕ}
    (hi : i < n) : mask.getLsbD i = true := by
  unfold bitmaskU128 usub at h
  split at h
  next hle =>
    have h' : (if 128 - n < 128 then allOnes 128 >>> (128 - n) else 0) = mask := ok.inj h
    rw [if_pos (by omega)] at h'
    rw [← h', getLsbD_ushiftRight, getLsbD_allOnes]
    exact decide_eq_true (by omega)
  next => cases h

/-- The number of bits of the output, as a `u32`, is that of a type with the same outputs. -/
lemma exists_represents (ho : constFrom ty = .ok o) (hfits : Fits o v) (hp : ofValue v = .ok p) :
    ∃ ty', Represents o ty' ∧ ty'.numBits = ty.numBits % 2 ^ 32 := by
  rcases ty with k | n
  · exact ⟨.integer (k % 2 ^ 32), (constFrom_integer_iff k).mp ho, rfl⟩
  · obtain rfl := ok.inj ho
    rcases v with m | bytes
    · exact absurd hfits id
    · obtain rfl : bytes.length = n := hfits
      obtain ⟨le, -, hp⟩ := ok_of_bind hp
      obtain ⟨be, hbe, -⟩ := ok_of_bind hp
      have hle := length_le_of_switchEndianness hbe
      refine ⟨.bytes bytes.length, .bytes (by omega), ?_⟩
      show bytes.length * 8 = bytes.length * 8 % 2 ^ 32
      omega

/-- An argument that is the output when its upper bits are ignored. -/
lemma output_of_identity (ho : e.Typed)
    (hp : Prepared e io case) {mask arg : I128}
    (hmask : bitmaskU128 (e.outputType.numBits % 2 ^ 32) = .ok mask)
    (harg : arg &&& mask = case.comparison.bigEndian) :
    output e.internalOutputType .unsignedBigEndian arg = io.2 := by
  obtain ⟨ty, hty, hbits⟩ := exists_represents ho hp.fits hp.comparison_eq
  rw [← output_bigEndian hp.fits hp.comparison_eq]
  apply output_congr hty
  intro i hi
  rw [← harg, getLsbD_and, getLsbD_bitmaskU128 hmask (hbits ▸ hi), Bool.and_true]

/-- The computation that returns one of the arguments. -/
lemma evaluate_hole {template : Expr} (ht : expr (.hole 0) = .ok template)
    (ho : constFrom ty = .ok o) {inputs : List OwnedValue} {arg : Arg} {a : I128}
    (ha : arg.interpretInputs inputs [] = .ok a) :
    (ExpressionComputation.mk template [arg] .unsignedBigEndian ty).evaluate inputs =
      .ok (output o .unsignedBigEndian a) := by
  have hops : template.ops = [.hole 0] := by
    obtain ⟨b, hb, hbuilt, -⟩ := exists_build_of_expr ht
    obtain rfl := ok.inj hb
    exact hbuilt.symm
  have hstack : template.withoutFastEval.evaluate [a] = .ok a := by
    show evaluateIndirectOnStack template.ops (indexArgs [a]) = _
    rw [hops]
    rfl
  have heval : template.evaluate [a] = .ok a := (sameOutcome_evaluate ht [a]).eq_ok_iff.mpr hstack
  unfold ExpressionComputation.evaluate ExpressionComputation.asInternal
  rw [ho]
  show ([arg].mapM (Arg.interpretInputs inputs []) >>= _) = _
  rw [mapM_cons, ha]
  show (template.evaluate [a] >>= _) = _
  rw [heval]
  rfl

/-! ## What the finder keeps -/

namespace BitmapMcsExpressionFinder

variable {f f' : Finder} {added : List InputOutput}

/-- The bitmaps are right, the groupings are good, and unless the finder has failed it has every
case that was added. -/
structure Inv (ty : IoType) (f : Finder) (added : List InputOutput) : Prop where
  inRange : f.enumerator.InRange
  fits : f.enumerator.FitsCompressed
  constFrom_eq : OutputType.constFrom f.enumerator.outputType =
    .ok f.enumerator.internalOutputType
  type_eq : f.enumerator.outputType = ty
  outputType_eq : f.outputType = f.enumerator.outputType
  outputBits_eq : f.outputBits = f.enumerator.outputType.numBits
  le_length : f.lastProcessedCase ≤ f.cases.length
  prepared : f.failed = false →
    ∀ io ∈ added, ∃ (i : ℕ) (case : FinderCase), f.cases[i]? = some case ∧
      Prepared f.enumerator io case
  bitmaps : Grouping.BitmapsOk f.enumerator f.useEndianness f.cases f.lastProcessedCase
  groups : ∀ g ∈ f.groups, g.Good f.enumerator f.cases f.lastProcessedCase
  pending : ∀ g ∈ f.pendingGroups, g.Good f.enumerator f.cases f.lastProcessedCase

lemma Inv.new {templates : List PreprocessedTemplate} (hok : ∀ t ∈ templates, t.Ok)
    {inputTypes : List IoType} {outputType : IoType}
    (hfits : ∀ e, ComputationEnumerator.new templates inputTypes outputType = .ok e →
      e.FitsCompressed)
    (h : new templates inputTypes outputType = .ok f) : f.Inv outputType [] := by
  obtain ⟨e, he, rfl⟩ := ok_of_bind_ok h
  obtain ⟨hrange, -⟩ := ComputationEnumerator.inRange_new hok he
  have hfits' := hfits e he
  obtain ⟨args, o, -, ho, rfl⟩ := ok_of_bind₂_ok he
  refine ⟨hrange, hfits', ho, rfl, rfl, rfl, Nat.zero_le _, fun _ => nofun, ?_, ?_, nofun⟩
  · exact fun i hi => absurd hi (Nat.not_lt_zero i)
  · intro g hg
    obtain rfl := mem_singleton.mp hg
    exact ⟨wellFormed_new, Nat.zero_le _, nofun⟩

/-- The groupings are good, for the first `k` cases. -/
def AllGood (f : Finder) (k : ℕ) (groups : List Grouping) : Prop :=
  ∀ g ∈ groups, g.Good f.enumerator f.cases k

section

variable (I : f.Inv ty added)
include I

/-- Groupings and steps may change as long as the groupings are good. -/
lemma Inv.withGroups {groups pendingGroups : List Grouping}
    (hgroups : f.AllGood f.lastProcessedCase groups)
    (hpending : f.AllGood f.lastProcessedCase pendingGroups) (stepThreshold thresholdSize : ℕ) :
    ({ f with groups, pendingGroups, stepThreshold, thresholdSize } : Finder).Inv ty added :=
  { I with groups := hgroups, pending := hpending }

lemma Inv.withFailed : ({ f with failed := true } : Finder).Inv ty added :=
  { I with prepared := nofun }

lemma Inv.checkFeasability : f.checkFeasability.Inv ty added := by
  unfold BitmapMcsExpressionFinder.checkFeasability
  dsimp only
  split
  · exact I
  · exact I.withFailed

lemma Inv.setAside : f.setAside.Inv ty added := by
  have hgroups : ∀ p, f.AllGood f.lastProcessedCase (f.groups.filter p) :=
    fun _ g hg => I.groups g (mem_filter.mp hg).1
  exact I.withGroups (hgroups _) (forall_mem_append.mpr ⟨I.pending, hgroups _⟩) _ _

/-- A failed finder stays failed, whatever is added. -/
lemma Inv.of_failed (hfailed : f.failed = true) (added' : List InputOutput) : f.Inv ty added' :=
  { I with prepared := fun h => absurd (hfailed.symm.trans h) nofun }

lemma Inv.addCase {case : InputOutput}
    (hvalue : IsValueOf ty case.2) (h : f.addCase case.1 case.2 = .ok f') :
    f'.Inv ty (case :: added) := by
  unfold BitmapMcsExpressionFinder.addCase at h
  split at h
  next hfailed =>
    obtain rfl := ok.inj h
    exact I.of_failed hfailed _
  next hfailed =>
    obtain ⟨args, comparison, hargs, hcomparison, h⟩ := ok_of_bind₂ h
    split at h
    · split at h
      · obtain rfl := ok.inj h
        exact I.withFailed.of_failed rfl _
      · cases h
    · obtain rfl := ok.inj h
      have hnew : Prepared f.enumerator case ⟨args, comparison, case.1, .new .new⟩ :=
        ⟨hargs, hcomparison, hvalue _ (I.type_eq ▸ I.constFrom_eq)⟩
      refine { I with le_length := ?_, prepared := ?_, bitmaps := ?_, groups := ?_, pending := ?_ }
      · exact Nat.le_trans I.le_length (by rw [length_append]; omega)
      · intro hok io hio
        rcases mem_cons.mp hio with rfl | hio
        · exact ⟨f.cases.length, _, getElem?_concat_length, hnew⟩
        · obtain ⟨i, c, hc, hprepared⟩ := I.prepared hok io hio
          refine ⟨i, c, ?_, hprepared⟩
          rw [getElem?_append_left (lt_of_getElem? hc)]
          exact hc
      · intro i hi c hc
        have hlt : i < f.cases.length := Nat.lt_of_lt_of_le hi I.le_length
        rw [getElem?_append_left hlt] at hc
        exact I.bitmaps i hi c hc
      · exact fun g hg => (I.groups g hg).append I.le_length _
      · exact fun g hg => (I.pending g hg).append I.le_length _

end

/-! ## Processing new cases -/

lemma prepared_set {cases : List FinderCase} (hcase : cases[k]? = some case) (matched : Matches)
    (h : ∃ (i : ℕ) (c : FinderCase), cases[i]? = some c ∧ Prepared e io c) :
    ∃ (i : ℕ) (c : FinderCase), (cases.set k { case with matched })[i]? = some c ∧
      Prepared e io c := by
  obtain ⟨i, c, hc, hprepared⟩ := h
  by_cases hik : k = i
  · subst hik
    obtain rfl := Option.mem_unique hcase hc
    refine ⟨k, { case with matched }, ?_, ⟨hprepared.args_eq, hprepared.comparison_eq,
      hprepared.fits⟩⟩
    rw [getElem?_set_self (lt_of_getElem? hc)]
  · refine ⟨i, c, ?_, hprepared⟩
    rw [getElem?_set_ne hik]
    exact hc

variable {fuel : ℕ}

lemma Inv.processCase (I : f.Inv ty added) (h : f.processCase fuel = .ok f') : f'.Inv ty added := by
  obtain ⟨case, bitmap, hcase, hbitmap, h⟩ := ok_of_bind₂ h
  obtain ⟨⟨old, new⟩, hsplit, h⟩ := ok_of_bind h
  obtain ⟨groups, hgroups, rfl⟩ := ok_of_bind_ok h
  have hget := eq_some_of_orPanic hcase
  have hlt : f.lastProcessedCase < f.cases.length := lt_of_getElem? hget
  have hall := Grouping.Good.splitGroupsOnCase I.groups hget hsplit
  have hmatches : ∀ position, bitmap.get position = true →
      MatchesAt f.enumerator f.useEndianness case position := by
    have hloop : matchLoop f.useEndianness case fuel f.enumerator
        (basePosition f.useEndianness 0) .new = .ok bitmap := by
      rw [basePosition, ite_self]
      exact hbitmap
    refine matchLoop_spec .zero wellFormed_new (fun i hi => ?_) hloop
    rw [get_new] at hi
    cases hi
  have hbitmaps := I.bitmaps.set hmatches
  have hle : f.lastProcessedCase + 1 ≤
      (f.cases.set f.lastProcessedCase { case with matched := .new bitmap }).length := by
    rw [length_set]
    exact hlt
  have hnew := Grouping.Good.updateGroups I.inRange I.fits hle hbitmaps
    (fun g hg => (hall g (mem_filter.mp hg).1).set hget _) hgroups
  -- The state after the case, before it is known whether the cases can be covered.
  let f₂ : Finder := { f with
    groups
    pendingGroups := f.pendingGroups ++ (old ++ new).filter (f.stepThreshold < ·.step)
    cases := f.cases.set f.lastProcessedCase { case with matched := .new bitmap }
    lastProcessedCase := f.lastProcessedCase + 1 }
  have I₂ : f₂.Inv ty added := by
    refine { I with
      le_length := hle
      prepared := fun hok io hio => prepared_set hget _ (I.prepared hok io hio)
      bitmaps := hbitmaps
      groups := hnew
      pending := forall_mem_append.mpr ⟨fun g hg => ?_, fun g hg => ?_⟩ }
    · exact ((I.pending g hg).set hget _).mono (Nat.le_succ _)
    · exact (hall g (mem_filter.mp hg).1).set hget _
  unfold BitmapMcsExpressionFinder.checkFeasability
  dsimp only
  split
  · exact I₂
  · exact I₂.withFailed

variable {rounds : ℕ}

lemma Inv.processCases (I : f.Inv ty added) (h : processCases fuel rounds f = .ok f') :
    f'.Inv ty added ∧ (f'.failed = false → f'.lastProcessedCase = f'.cases.length) := by
  induction rounds generalizing f with
  | zero => cases h
  | succ rounds ih =>
    unfold processCases at h
    split at h
    · obtain ⟨f₁, hf₁, h⟩ := ok_of_bind h
      have I₁ := I.processCase hf₁
      split at h
      next hfailed =>
        obtain rfl := ok.inj h
        exact ⟨I₁, fun hok => absurd (hfailed.symm.trans hok) nofun⟩
      next => exact ih I₁ h
    next hge =>
      obtain rfl := ok.inj h
      exact ⟨I, fun _ => Nat.le_antisymm I.le_length (Nat.le_of_not_lt hge)⟩

/-! ## Changing the step threshold -/

/-- Groupings that catch up on the cases from the `k`-th on. -/
lemma Inv.catchUp (I : f.Inv ty added) (hall : f.lastProcessedCase = f.cases.length)
    {rest : List FinderCase} (hrest : rest = f.cases.drop k)
    {groups newPending groups' newPending' : List Grouping} (hk : k ≤ f.cases.length)
    (hgroups : f.AllGood k groups) (hpending : f.AllGood f.lastProcessedCase newPending)
    (h : f.catchUp fuel rest k groups newPending = .ok (groups', newPending')) :
    f.AllGood f.lastProcessedCase groups' ∧ f.AllGood f.lastProcessedCase newPending' := by
  induction rest generalizing k groups newPending with
  | nil =>
    obtain ⟨rfl, rfl⟩ := ok_pair_inj h
    exact ⟨fun g hg => (hgroups g hg).mono (hall ▸ hk), hpending⟩
  | cons case rest ih =>
    have hget : f.cases[k]? = some case := by
      have hhead : (f.cases.drop k)[0]? = f.cases[k + 0]? := getElem?_drop
      rw [← hrest] at hhead
      exact hhead.symm
    have hlt : k < f.cases.length := lt_of_getElem? hget
    obtain ⟨⟨old, new⟩, hsplit, h⟩ := ok_of_bind h
    obtain ⟨updated, hupdated, h⟩ := ok_of_bind h
    have hboth := Grouping.Good.splitGroupsOnCase hgroups hget hsplit
    have hbitmaps : Grouping.BitmapsOk f.enumerator f.useEndianness f.cases (k + 1) :=
      fun i hi => I.bitmaps i (by omega)
    have hnew := Grouping.Good.updateGroups I.inRange I.fits hlt hbitmaps
      (fun g hg => hboth g (mem_filter.mp hg).1) hupdated
    split at h
    · cases h
    · refine ih ?_ hlt hnew (forall_mem_append.mpr ⟨hpending, fun g hg => ?_⟩) h
      · have htail := congrArg List.tail hrest
        rw [tail_drop] at htail
        exact htail
      · exact (hboth g (mem_filter.mp hg).1).mono (by omega)

lemma Inv.activate (I : f.Inv ty added) (hall : f.lastProcessedCase = f.cases.length)
    {newPending newPending' : List Grouping} (hpending : f.AllGood f.lastProcessedCase newPending)
    (h : activate fuel rounds f newPending = .ok (f', newPending')) :
    f'.Inv ty added ∧ f'.lastProcessedCase = f'.cases.length ∧
      f'.AllGood f'.lastProcessedCase newPending' := by
  induction rounds generalizing f newPending with
  | zero => cases h
  | succ rounds ih =>
    unfold activate at h
    split at h
    · obtain ⟨rfl, rfl⟩ := ok_pair_inj h
      exact ⟨I, hall, hpending⟩
    next minSize _ =>
      split at h
      · cases h
      next hle =>
        obtain ⟨updated, hupdated, h⟩ := ok_of_bind h
        split at h
        · cases h
        · obtain ⟨⟨groups, newPending₁⟩, hcatch, h⟩ := ok_of_bind h
          have hsize : f.AllGood minSize (f.pendingGroups.filter (·.map.len = minSize)) := by
            intro g hg
            obtain ⟨hmem, hlen⟩ := mem_filter.mp hg
            have hgood := I.pending g hmem
            exact ⟨hgood.wellFormed, Nat.le_of_eq (of_decide_eq_true hlen), hgood.explains⟩
          have hbitmaps : Grouping.BitmapsOk f.enumerator f.useEndianness f.cases minSize :=
            fun i hi => I.bitmaps i (by omega)
          have hupdated' := Grouping.Good.updateGroups I.inRange I.fits (Nat.le_of_not_lt hle)
            hbitmaps hsize hupdated
          obtain ⟨hgroups, hnew⟩ :=
            I.catchUp hall rfl (Nat.le_of_not_lt hle) hupdated' hpending hcatch
          exact ih (I.withGroups (forall_mem_append.mpr ⟨I.groups, hgroups⟩)
            (fun g hg => I.pending g (mem_filter.mp hg).1) _ _) hall hnew h

lemma checkFeasability_cases (f : Finder) :
    f.checkFeasability.cases = f.cases ∧
      f.checkFeasability.lastProcessedCase = f.lastProcessedCase := by
  unfold checkFeasability
  dsimp only
  split <;> exact ⟨rfl, rfl⟩

lemma Inv.increaseStepThreshold (I : f.Inv ty added) (hall : f.lastProcessedCase = f.cases.length)
    {newThreshold : ℕ} (h : f.increaseStepThreshold fuel newThreshold = .ok f') :
    f'.Inv ty added ∧ f'.lastProcessedCase = f'.cases.length := by
  obtain ⟨⟨f₁, newPending⟩, hactivate, h⟩ := ok_of_bind h
  obtain ⟨I₁, hall₁, hnew⟩ := (I.withGroups I.groups I.pending newThreshold f.thresholdSize).activate
    hall (fun _ hg => absurd hg not_mem_nil) hactivate
  dsimp only at h
  split at h
  · cases h
  · obtain rfl := ok.inj h
    refine ⟨(I₁.withGroups I₁.groups (forall_mem_append.mpr ⟨I₁.pending, hnew⟩) _
      _).checkFeasability, ?_⟩
    obtain ⟨hcases, hlast⟩ := checkFeasability_cases
      { f₁ with pendingGroups := f₁.pendingGroups ++ newPending }
    rw [hcases, hlast]
    exact hall₁

/-! ## The covering set -/

/-- Every case is the output of one of the computations. -/
def Covers (comps : List ExpressionComputation) (added : List InputOutput) : Prop :=
  ∀ io ∈ added, ∃ comp ∈ comps, comp.evaluate io.1 = .ok io.2

variable {comps : List ExpressionComputation} {picks : ℕ → Pick} {pick : Pick}
  {mcs : List ℕ}

/-- The computations of groupings that have all cases. -/
lemma Inv.finish (I : f.Inv ty added) (hok : f.failed = false)
    (hmeets : ∀ d ∈ f.decisions, ∃ x ∈ d, x ∈ mcs) (h : f.finish mcs = .ok (comps, f')) :
    f'.Inv ty added ∧ Covers comps added := by
  obtain ⟨used, maxStepUsed, hused, -, h⟩ := ok_of_bind₂ h
  obtain ⟨result, hresult, h⟩ := ok_of_bind h
  have hcovers : Covers result added := by
    intro io hio
    obtain ⟨i, case, hcase, hprepared⟩ := I.prepared hok io hio
    have hlt : i < f.cases.length := lt_of_getElem? hcase
    obtain ⟨x, hx, hmem⟩ := hmeets _ (mem_map_of_mem (mem_range.mpr hlt))
    have hany := (mem_filter.mp hx).2
    rcases hg : f.groups[x]? with _ | g
    · rw [hg] at hany
      cases hany
    · rw [hg] at hany
      have hget : g.map.get i = true := hany
      -- The grouping is used, and its expression is one of the result.
      have hgused : g ∈ used := (mem_iff_of_mapM hused).mpr ⟨x, hmem, by rw [hg]; rfl⟩
      obtain ⟨comp, hcomp⟩ := exists_of_mem_of_mapM hresult hgused
      refine ⟨comp, (mem_iff_of_mapM hresult).mpr ⟨g, hgused, hcomp⟩, ?_⟩
      obtain ⟨c, u, hc, hu, hcomp⟩ := ok_of_bind₂ hcomp
      have hexplains := (I.groups g (mem_of_getElem? hg)).explains c (eq_some_of_orPanic hc) i
        hget case hcase
      exact evaluate_of_explains I.constFrom_eq hprepared hexplains hu hcomp
  split at h
  · obtain ⟨rfl, rfl⟩ := ok_pair_inj h
    exact ⟨I, hcovers⟩
  · split at h
    · cases h
    · obtain ⟨rfl, rfl⟩ := ok_pair_inj h
      exact ⟨(I.withGroups I.groups I.pending maxStepUsed f.thresholdSize).setAside, hcovers⟩

lemma Inv.sortGroups (I : f.Inv ty added) : f.sortGroups.Inv ty added :=
  I.withGroups (fun g hg => I.groups g (mem_mergeSort.mp hg)) I.pending f.stepThreshold
    f.thresholdSize

/-- The covering set has a grouping for every case, if every case has one. -/
lemma meets_of_mcs (hne : ¬ f.decisions.any List.isEmpty = true)
    (h : Mcs.MinimumCoveringSet.of pick f.decisions f.groups.length = .ok mcs) :
    ∀ d ∈ f.decisions, ∃ x ∈ d, x ∈ mcs := by
  have hnonempty : ∀ d ∈ f.decisions, d ≠ [] := by
    rintro d hd rfl
    exact hne (any_eq_true.mpr ⟨[], hd, rfl⟩)
  have hbound : ∀ d ∈ f.decisions, ∀ x ∈ d, x < f.groups.length := by
    intro d hd x hx
    obtain ⟨index, -, rfl⟩ := mem_map.mp hd
    exact mem_range.mp (mem_filter.mp hx).1
  obtain ⟨chosen, hchosen, hcover⟩ := Mcs.MinimumCoveringSet.of_spec pick hnonempty hbound
  obtain rfl := ok_unique h hchosen
  exact hcover.meets

lemma Inv.findLoop (I : f.Inv ty added) (hall : f.lastProcessedCase = f.cases.length)
    (h : findLoop picks fuel rounds f = .ok (comps, f')) :
    f'.Inv ty added ∧ (comps ≠ [] → Covers comps added) := by
  induction rounds generalizing f with
  | zero => cases h
  | succ rounds ih =>
    unfold findLoop at h
    split at h
    · obtain ⟨rfl, rfl⟩ := ok_pair_inj h
      exact ⟨I, fun hne => absurd rfl hne⟩
    next hfailed =>
      have hok : f.sortGroups.failed = false := Bool.eq_false_of_not_eq_true hfailed
      have hall₁ : f.sortGroups.lastProcessedCase = f.sortGroups.cases.length := hall
      have I₁ := I.sortGroups
      dsimp only at h
      generalize f.sortGroups = f₁ at h hok hall₁ I₁
      split at h
      · split at h
        · split at h
          · cases h
          · obtain ⟨f₂, hf₂, h⟩ := ok_of_bind h
            obtain ⟨I₂, hall₂⟩ := I₁.increaseStepThreshold hall₁ hf₂
            exact ih I₂ hall₂ h
        · obtain ⟨rfl, rfl⟩ := ok_pair_inj h
          exact ⟨I₁.withFailed, fun hne => absurd rfl hne⟩
      next hne =>
        obtain ⟨mcs, hmcs, h⟩ := ok_of_bind h
        have hmeets := meets_of_mcs hne hmcs
        split at h
        · obtain ⟨maxSteps, -, h⟩ := ok_of_bind h
          split at h
          · obtain ⟨f₂, hf₂, h⟩ := ok_of_bind h
            obtain ⟨I₂, hall₂⟩ := I₁.increaseStepThreshold hall₁ hf₂
            exact ih I₂ hall₂ h
          · have I₂ := I₁.withGroups I₁.groups I₁.pending f₁.stepThreshold mcs.length
            obtain ⟨I', hcovers⟩ := I₂.finish hok hmeets h
            exact ⟨I', fun _ => hcovers⟩
        · obtain ⟨I', hcovers⟩ := I₁.finish hok hmeets h
          exact ⟨I', fun _ => hcovers⟩

/-! ## Identities -/

/-- A bit that is set in the identities of a case is an argument that is its output. -/
lemma Inv.identities (I : f.Inv ty added) {identities : List GrowingBitmap}
    (h : f.identities = .ok identities) {i : ℕ} (hcase : f.cases[i]? = some case) :
    ∃ map, identities[i]? = some map ∧ ∀ n, map.get n = true → ∀ io,
      Prepared f.enumerator io case → ∀ arg, f.enumerator.args[n]? = some arg →
      ∃ a, arg.interpretInputs io.1 [] = .ok a ∧
        output f.enumerator.internalOutputType .unsignedBigEndian a = io.2 := by
  obtain ⟨map, hmap, hget⟩ := exists_getElem?_of_mapM h hcase
  obtain ⟨bits, hbits, rfl⟩ := ok_of_bind_ok hmap
  refine ⟨_, hget, fun n hn io hprepared arg harg => ?_⟩
  have hbit := get_ofList_iff.mp hn
  obtain ⟨a, ha, hall⟩ := exists_getElem?_of_mapM hprepared.args_eq harg
  obtain ⟨b, hb, hbit'⟩ := exists_getElem?_of_mapM hbits hall
  obtain rfl := Option.mem_unique hbit hbit'
  obtain ⟨mask, hmask, hb⟩ := ok_of_bind hb
  rw [I.outputBits_eq] at hmask
  exact ⟨a, ha, output_of_identity I.constFrom_eq hprepared hmask (of_decide_eq_true (ok.inj hb))⟩

lemma Inv.findIdentities (I : f.Inv ty added) (hok : f.failed = false)
    {identities : List GrowingBitmap} (hidentities : f.identities = .ok identities)
    (h : f.findIdentities pick identities = .ok comps) : Covers comps added := by
  obtain ⟨largest, top, hlargest, htop, h⟩ := ok_of_bind₂ h
  obtain ⟨mcs, template, hmcs, htemplate, h⟩ := ok_of_bind₂ h
  -- The largest choices of all decisions exist, so none of them is empty.
  have hmax : ∀ d ∈ identities.map (·.iterOneIndices), ∃ m, d.max? = some m ∧ m ≤ top := by
    intro d hd
    obtain ⟨m, hm⟩ := exists_of_mem_of_mapM hlargest hd
    refine ⟨m, eq_some_of_orPanic hm, ?_⟩
    exact (max?_eq_some_iff.mp (eq_some_of_orPanic htop)).2 m
      ((mem_iff_of_mapM hlargest).mpr ⟨d, hd, hm⟩)
  have hnonempty : ∀ d ∈ identities.map (·.iterOneIndices), d ≠ [] := by
    rintro _ hd rfl
    obtain ⟨m, hm, -⟩ := hmax [] hd
    cases hm
  have hbound : ∀ d ∈ identities.map (·.iterOneIndices), ∀ x ∈ d, x < top + 1 := by
    intro d hd x hx
    obtain ⟨m, hm, hle⟩ := hmax d hd
    exact Nat.lt_succ_of_le (Nat.le_trans ((max?_eq_some_iff.mp hm).2 x hx) hle)
  obtain ⟨chosen, hchosen, hcover⟩ := Mcs.MinimumCoveringSet.of_spec pick hnonempty hbound
  obtain rfl := ok_unique hmcs hchosen
  intro io hio
  obtain ⟨i, case, hcase, hprepared⟩ := I.prepared hok io hio
  obtain ⟨map, hmap, hidentity⟩ := I.identities hidentities hcase
  obtain ⟨x, hx, hmem⟩ := hcover.meets _ (mem_map_of_mem (mem_of_getElem? hmap))
  obtain ⟨comp, hcomp⟩ := exists_of_mem_of_mapM h hmem
  refine ⟨comp, (mem_iff_of_mapM h).mpr ⟨x, hmem, hcomp⟩, ?_⟩
  obtain ⟨arg, harg, rfl⟩ := ok_of_bind_ok hcomp
  obtain ⟨a, ha, houtput⟩ := hidentity x (mem_iterOneIndices hx) io hprepared arg
    (eq_some_of_orPanic harg)
  rw [evaluate_hole htemplate (I.outputType_eq ▸ I.constFrom_eq) ha, houtput]

lemma Inv.findExpressions (I : f.Inv ty added)
    (h : f.findExpressions picks fuel = .ok (comps, f')) :
    f'.Inv ty added ∧ (comps ≠ [] → Covers comps added) := by
  unfold BitmapMcsExpressionFinder.findExpressions at h
  split at h
  · obtain ⟨rfl, rfl⟩ := ok_pair_inj h
    exact ⟨I, fun hne => absurd rfl hne⟩
  next hfailed =>
    obtain ⟨identities, hidentities, h⟩ := ok_of_bind h
    split at h
    · obtain ⟨comps', hcomps, h⟩ := ok_of_bind h
      obtain ⟨rfl, rfl⟩ := ok_pair_inj h
      exact ⟨I, fun _ =>
        I.findIdentities (Bool.eq_false_of_not_eq_true hfailed) hidentities hcomps⟩
    · obtain ⟨f₁, hf₁, h⟩ := ok_of_bind h
      obtain ⟨I₁, hall⟩ := I.processCases hf₁
      split at h
      · obtain ⟨rfl, rfl⟩ := ok_pair_inj h
        exact ⟨I₁, fun hne => absurd rfl hne⟩
      next hok => exact I₁.findLoop (hall (Bool.eq_false_of_not_eq_true hok)) h

end BitmapMcsExpressionFinder

/-! ## Runs -/

/-- A sequence of calls, with the cases that were added, the latest first. The outputs are of the
output type. -/
inductive FinderRun (templates : List PreprocessedTemplate) (inputTypes : List IoType)
    (outputType : IoType) : List InputOutput → Finder → Prop
  | new {f : _} (h : BitmapMcsExpressionFinder.new templates inputTypes outputType = .ok f) :
      FinderRun templates inputTypes outputType [] f
  | addCase {added f f' case : _} (run : FinderRun templates inputTypes outputType added f)
      (hvalue : IsValueOf outputType case.2) (h : f.addCase case.1 case.2 = .ok f') :
      FinderRun templates inputTypes outputType (case :: added) f'
  | findExpressions {added f f' picks fuel comps : _}
      (run : FinderRun templates inputTypes outputType added f)
      (h : f.findExpressions picks fuel = .ok (comps, f')) :
      FinderRun templates inputTypes outputType added f'

section Runs

variable {templates : List PreprocessedTemplate} {inputTypes : List IoType} {outputType : IoType}

lemma FinderRun.inv (hok : ∀ t ∈ templates, t.Ok)
    (hfits : ∀ e, ComputationEnumerator.new templates inputTypes outputType = .ok e →
      e.FitsCompressed) {added : List InputOutput} {f : Finder}
    (run : FinderRun templates inputTypes outputType added f) : f.Inv outputType added := by
  induction run with
  | new h => exact .new hok hfits h
  | addCase _ hvalue h ih => exact ih.addCase hvalue h
  | findExpressions _ h ih => exact (ih.findExpressions h).1

end Runs

/-- Whenever `find_expressions` returns a list that is not empty, every case that was added so far is
the output of one of its computations. The templates are made with the common constants, and their
indices fit into the compressed form. -/
theorem findExpressions_covers (templates : List PreprocessedTemplate)
    (hok : ∀ t ∈ templates, t.Ok) (inputTypes : List IoType) (outputType : IoType)
    (hfits : ∀ e, ComputationEnumerator.new templates inputTypes outputType = .ok e →
      e.FitsCompressed) {added : List InputOutput} {f : Finder}
    (run : FinderRun templates inputTypes outputType added f) {picks : ℕ → Pick} {fuel : ℕ}
    {comps : List ExpressionComputation} {f' : Finder}
    (h : f.findExpressions picks fuel = .ok (comps, f')) (hne : comps ≠ []) :
    ∀ io ∈ added, ∃ comp ∈ comps, comp.evaluate io.1 = .ok io.2 :=
  ((run.inv hok hfits).findExpressions h).2 hne

/-- The template that is the sum of two holes. -/
def sumTemplate : PreprocessedTemplate where
  expr := ⟨[.hole 0, .hole 1, .add], none⟩
  argIndices := [0, 0]
  constValues := constValues
  orderingIndexes := [none, none]
  compiled := .inl rfl

lemma sumTemplate_ok : ∀ t ∈ [sumTemplate], t.Ok := by
  intro t ht
  obtain rfl := mem_singleton.mp ht
  refine ⟨rfl, fun c hc => ?_⟩
  obtain rfl : c = 0 := by simpa [sumTemplate] using hc
  exact Nat.zero_le _

lemma isValueOf_num {v : U64} (ho : constFrom (.integer k) = .ok o) (h : Fits o (.num v)) :
    IsValueOf (.integer k) (.num v) := by
  intro o' ho'
  obtain rfl := ok_unique ho ho'
  exact h

variable {f : Finder} {maxSteps : ℕ} (picks : ℕ → Pick) (fuel rounds : ℕ)

/-- The finder has not failed, and its groupings are sorted by their steps. -/
abbrev Sorted (f : Finder) : Prop :=
  f.failed = false ∧ f.groups.Pairwise fun a b => a.step ≤ b.step

lemma Sorted.sortGroups (h : Sorted f) : f.sortGroups = f := by
  unfold BitmapMcsExpressionFinder.sortGroups
  rw [mergeSort_of_pairwise (h.2.imp fun hab => decide_eq_true hab)]

/-- A round of the loop only raises the step threshold. -/
abbrev RaisesSteps (f : Finder) : Prop :=
  Sorted f ∧ f.decisions.any List.isEmpty = true ∧ f.stepThreshold = 0 ∧
    (minNeeded (f.groups ++ f.pendingGroups) (.newAllZeros f.cases.length)).map (·.step) = some 1

lemma RaisesSteps.findLoop (h : RaisesSteps f) : findLoop picks fuel (rounds + 1) f =
    f.increaseStepThreshold fuel 1 >>= findLoop picks fuel rounds := by
  obtain ⟨hsorted, hempty, hzero, hstep⟩ := h
  obtain ⟨g, hg, hgstep⟩ := Option.map_eq_some_iff.mp hstep
  unfold BitmapMcsExpressionFinder.findLoop
  dsimp only
  rw [hsorted.sortGroups, hsorted.1, hempty, hg]
  show (if g.step ≤ f.stepThreshold then _ else _) = _
  rw [if_neg (by omega), hgstep]

/-- Of three groupings, one has the first of two cases and one the second. -/
abbrev TwoGroupings (maxSteps : ℕ) (f : Finder) : Prop :=
  Sorted f ∧ f.decisions = [[1], [2]] ∧ f.groups.length = 3 ∧ f.thresholdSize = 0 ∧
    ((f.groups ++ f.pendingGroups).map (·.step)).max? = some maxSteps

lemma TwoGroupings.findLoop (h : TwoGroupings maxSteps f) : ∃ mcs ∈ [[1, 2], [2, 1]],
    findLoop picks fuel (rounds + 1) f =
      if f.stepThreshold < maxSteps then
        f.increaseStepThreshold fuel maxSteps >>= findLoop picks fuel rounds
      else finish { f with thresholdSize := 2 } mcs := by
  obtain ⟨hsorted, hdecisions, hgroups, hsize, hmax⟩ := h
  obtain ⟨mcs, hmcs, hmin⟩ : ∃ mcs, Mcs.MinimumCoveringSet.of (picks rounds) [[1], [2]] 3 = .ok mcs ∧
      Mcs.IsMinimumCover [[1], [2]] 3 mcs :=
    Mcs.MinimumCoveringSet.of_spec _ (by decide) (by decide)
  have hle : mcs.length ≤ 2 := hmin.minimum {1, 2} (by decide)
  have hmem : 1 ∈ mcs ∧ 2 ∈ mcs := by simpa using hmin.meets
  have hpair : mcs ∈ [[1, 2], [2, 1]] := by
    rcases mcs with _ | ⟨a, _ | ⟨b, _ | ⟨c, l⟩⟩⟩
    · cases hmem.1
    · simp only [mem_singleton] at hmem
      omega
    · simp only [mem_cons, not_mem_nil, or_false, cons.injEq, and_true] at hmem ⊢
      omega
    · simp at hle
  have hlen : mcs.length = 2 := (by decide : ∀ mcs ∈ [[1, 2], [2, 1]], mcs.length = 2) mcs hpair
  refine ⟨mcs, hpair, ?_⟩
  unfold BitmapMcsExpressionFinder.findLoop
  dsimp only
  rw [hsorted.sortGroups, hsorted.1, hdecisions, hgroups, hmcs, hmax]
  show (if f.thresholdSize < mcs.length then _ else _) = _
  rw [if_pos (by omega), hlen]
  rfl

/-- The second input twice, after the first one twice. -/
def sumCases : List InputOutput :=
  [([.num 3, .num 60], .num 120), ([.num 100, .num 7], .num 200)]

/-- No sum of two inputs covers both cases, so two are found. -/
theorem findExpressions_covers_sumCases :
    ∃ f comps f', FinderRun [sumTemplate] [.integer 8, .integer 8] (.integer 8) sumCases f ∧
      f.findExpressions (fun _ _ _ => 0) 100 = .ok (comps, f') ∧ comps.length = 2 ∧
      ∀ io ∈ sumCases, ∃ comp ∈ comps, comp.evaluate io.1 = .ok io.2 := by
  -- everything but the two covering sets is evaluated
  obtain ⟨⟨f, ids, f₁, f₂, f₃⟩, hrun, hfirst, hraise, htwo, htwo', hlen⟩ := exists_ok_of_any
    (x := do
      let f ← BitmapMcsExpressionFinder.new [sumTemplate] [.integer 8, .integer 8] (.integer 8)
      let f ← f.addCase [.num 100, .num 7] (.num 200)
      let f ← f.addCase [.num 3, .num 60] (.num 120)
      let ids ← f.identities
      let f₁ ← processCases 100 100 f
      let f₂ ← f₁.increaseStepThreshold 100 1
      let f₃ ← f₂.increaseStepThreshold 100 2
      return (f, ids, f₁, f₂, f₃))
    (p := fun (f, ids, f₁, f₂, f₃) => (f.failed = false ∧ ids.all (!·.isAllZeros) = false) ∧
      RaisesSteps f₁ ∧ (TwoGroupings 2 f₂ ∧ f₂.stepThreshold = 1) ∧
      (TwoGroupings 1 f₃ ∧ f₃.stepThreshold = 2) ∧
      ∀ mcs ∈ [[1, 2], [2, 1]], ((finish { f₃ with thresholdSize := 2 } mcs).toOption.any
        fun r => decide (r.1.length = 2)) = true) (by decide +kernel)
  obtain ⟨f₀, _, h₀, h₁, hrun⟩ := ok_of_bind₂ hrun
  obtain ⟨_, _, h₂, hids, hrun⟩ := ok_of_bind₂ hrun
  obtain ⟨_, _, hprocess, hraised, hrun⟩ := ok_of_bind₂ hrun
  obtain ⟨_, hraised', hrun⟩ := ok_of_bind hrun
  cases hrun
  obtain ⟨_, -, hloop⟩ := htwo.1.findLoop (fun _ _ _ => 0) 100 98
  obtain ⟨mcs, hmcs, hloop'⟩ := htwo'.1.findLoop (fun _ _ _ => 0) 100 97
  obtain ⟨⟨comps, f'⟩, hfinish, hlen⟩ := exists_ok_of_any (hlen mcs hmcs)
  have hfind : f.findExpressions (fun _ _ _ => 0) 100 = .ok (comps, f') := by
    unfold findExpressions
    rw [hfirst.1, hids, ok_bind, hfirst.2, hprocess, ok_bind, hraise.1.1]
    show findLoop _ 100 (99 + 1) f₁ = _
    rw [hraise.findLoop, hraised, ok_bind, hloop, if_pos (by omega), hraised', ok_bind, hloop',
      if_neg (by omega), hfinish]
  have hfits : 200#64 &&& allOnes 64 >>> 56 = 200 ∧ 120#64 &&& allOnes 64 >>> 56 = 120 := by decide
  have run : FinderRun [sumTemplate] [.integer 8, .integer 8] (.integer 8) sumCases f :=
    .addCase (.addCase (.new h₀) (isValueOf_num rfl hfits.1) h₁) (isValueOf_num rfl hfits.2) h₂
  refine ⟨f, comps, f', run, hfind, hlen, ?_⟩
  refine findExpressions_covers _ sumTemplate_ok _ _ ?_ run hfind ?_
  · intro e he
    obtain rfl := Except.ok.inj he
    unfold ComputationEnumerator.FitsCompressed
    decide
  · rintro rfl
    cases hlen

end LibLisa.Synth
