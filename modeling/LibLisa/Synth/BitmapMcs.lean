import LibLisa.Synth.Compressed
import LibLisa.Utils.GrowingBitmap
import LibLisa.Utils.McsMinimum

/-!
# Finding expressions that cover all cases

`BitmapMcsExpressionFinder` looks for a small set of expressions such that every case is reproduced
by one of them. For every case it computes the bitmap of the expressions that match. A grouping is a
set of cases with an expression that matches exactly those; every new case splits each grouping in
two. Groupings that need too many steps are set aside until the step threshold is raised. The
result is a minimum covering set of the active groupings.

The loops that the source leaves open are bounded by `fuel`; `picks` are the random choices of the
covering set search in each round.

Where no file is given, the source is `bitmap_mcs.rs`.
-/

namespace LibLisa.Synth

open Lib Semantics Utils

/-! ## Bitmaps of matches -/

/-- Source: `Matches` -/
structure Matches where
  bitmap : GrowingBitmap
  onesMinimap : GrowingBitmap

/-- Source: `Matches::new` -/
def Matches.new (bitmap : GrowingBitmap) : Matches := ⟨bitmap, .ofList (bitmap.data.map (· != 0))⟩

/-- One pass over the rows: the first position that is set in a row, and whether it is a new one. -/
def scanRows : List GrowingBitmap → ℕ → Option (ℕ × Bool)
  | [], index => some (index, false)
  | row :: rows, index =>
    match row.firstBitSetFrom index with
    | none => none
    | some i => if i = index then scanRows rows index else some (i, true)

/-- Source: `find_position_matching_bitmaps` -/
def findPositionMatchingBitmaps (rows : List GrowingBitmap) : ℕ → ℕ → Partial (Option ℕ)
  | 0, _ => .error .outOfFuel
  | fuel + 1, index =>
    match scanRows rows index with
    | none => .ok none
    | some (i, true) => findPositionMatchingBitmaps rows fuel i
    | some (i, false) =>
      if rows.all (·.get i) then .ok (some i) else .error .assertionFailed

/-- The positions in a word that match all rows. -/
def matchingWord (offset : ℕ) : List (Matches × Bool) → Partial U64
  | [] => .ok (BitVec.allOnes 64)
  | (row, expected) :: rest => do
    let w ← orPanic .indexOutOfBounds row.bitmap.data[offset]?
    return (if expected then w else ~~~w) &&& (← matchingWord offset rest)

/-- The loop of `find_position_matching` over the words. -/
def searchWords (expected : List (Matches × Bool)) (ones : List GrowingBitmap)
    (offsetEnd fuel : ℕ) : ℕ → ℕ → Partial (Option ℕ)
  | 0, _ => .error .outOfFuel
  | rounds + 1, offset =>
    if offset < offsetEnd then do
      match ← findPositionMatchingBitmaps ones fuel offset with
      | none => return none
      | some newOffset =>
        if offsetEnd ≤ newOffset then return none
        else do
          let data ← matchingWord newOffset expected
          if data = 0 then searchWords expected ones offsetEnd fuel rounds (newOffset + 1)
          else return some (newOffset * 64 + data.ctz.toNat)
    else .ok none

/-- The search in the word of the start position, if that is not the first of its word: the
position, or where to go on. -/
def searchFirstWord (expected : List (Matches × Bool)) (ones : List GrowingBitmap) (start : ℕ) :
    Partial (ℕ ⊕ ℕ) := do
  let offset := start / 64
  if start % 64 ≠ 0 ∧ ones.all (·.get offset) = true then do
    let data ← matchingWord offset expected
    let data := data &&& ~~~(Utils.bitmaskU64 (start % 64))
    if data = 0 then return .inr (offset + 1) else return .inl (offset * 64 + data.ctz.toNat)
  else return .inr offset

/-- Source: `find_position_matching` -/
def findPositionMatching (fuel start : ℕ) (expected : List (Matches × Bool)) : Partial (Option ℕ) :=
  match expected with
  | [] => .error .assertionFailed
  | [(row, true)] => .ok (row.bitmap.firstBitSetFrom start)
  | [(row, false)] => .ok (row.bitmap.firstBitUnsetFrom start)
  | (row, _) :: rest => do
    let ones := (expected.filter (·.2)).map (·.1.onesMinimap)
    let offsetEnd := rest.foldl (fun n r => min n r.1.bitmap.data.length) row.bitmap.data.length
    if offsetEnd ≤ start / 64 then return none
    else
      match ← searchFirstWord expected ones start with
      | .inl position => return some position
      | .inr offset => searchWords expected ones offsetEnd fuel fuel offset

/-! ## Groupings -/

/-- Source: `Grouping`, without the field `negative`, which stays empty -/
structure Grouping where
  map : GrowingBitmap
  current : Option CompressedIterComputation
  position : ℕ
  step : ℕ

/-- Source: `Case` -/
structure FinderCase where
  args : List I128
  comparison : PreparedComparison
  inputs : List OwnedValue
  matched : Matches

/-- Source: `Grouping::to_template_computation` -/
def Grouping.toTemplateComputation (g : Grouping) (e : ComputationEnumerator) :
    Partial ExpressionComputation := do
  (← (← orPanic .assertionFailed g.current).decompress e).toTemplateComputation

/-- Whether the current expression of a grouping matches a case. -/
def Grouping.matchesCase (g : Grouping) (e : ComputationEnumerator) (case : FinderCase) :
    Partial Bool :=
  match g.current with
  | some c => do
    (← c.decompress e).preparedCompareEqWithArgsIndirect case.args case.comparison
  | none => .ok false

/-- The two groupings that a new case splits a grouping into, without the case and with it. The one
that the current expression does not belong to needs another expression. -/
def Grouping.split (g : Grouping) (e : ComputationEnumerator) (caseIndex : ℕ) (case : FinderCase) :
    Partial (Grouping × Grouping) := do
  let map := g.map.reset caseIndex
  let newMap := map.set caseIndex
  if ← g.matchesCase e case then
    return ({ g with map, current := none, step := g.step + 1 }, { g with map := newMap })
  else
    return ({ g with map }, { g with map := newMap, current := none, step := g.step + 1 })

/-- Source: `split_groups_on_case`: the groupings and the new ones -/
def splitGroupsOnCase (groups : List Grouping) (e : ComputationEnumerator) (caseIndex : ℕ)
    (case : FinderCase) : Partial (List Grouping × List Grouping) := do
  let pairs ← groups.mapM (·.split e caseIndex case)
  return (pairs.map (·.1), pairs.map (·.2))

/-- The case, not chosen yet, that occurs in most of the maps; the last one of those. -/
def bestIndex (numCases : ℕ) (indices : List ℕ) (subset : List GrowingBitmap) : Option ℕ :=
  let best := (List.range numCases).foldl (fun (best : Option (ℕ × ℕ)) index =>
    let count := subset.countP (·.get index)
    if index ∈ indices ∨ count = 0 then best
    else match best with
      | some (_, most) => if most ≤ count then some (index, count) else best
      | none => some (index, count)) none
  best.map (·.1)

/-- Chooses up to `n` cases that occur together in many maps, with the expressions that match all of
them. -/
def chooseIndices (cases : List FinderCase) :
    ℕ → List ℕ → List GrowingBitmap → GrowingBitmap →
    Partial (List ℕ × List GrowingBitmap × GrowingBitmap)
  | 0, indices, subset, map => .ok (indices, subset, map)
  | n + 1, indices, subset, map =>
    match bestIndex cases.length indices subset with
    | none => .ok (indices, subset, map)
    | some index => do
      let case ← orPanic .indexOutOfBounds cases[index]?
      chooseIndices cases n (indices ++ [index]) (subset.filter (·.get index))
        (map.andWith case.matched.bitmap.asSlice)

/-- The loop of `update_groups` that combines the rows of cases. -/
def combineLoop (cases : List FinderCase) :
    ℕ → List GrowingBitmap → List (List ℕ × Matches) → Partial (List (List ℕ × Matches))
  | 0, _, _ => .error .outOfFuel
  | fuel + 1, remaining, combined =>
    if remaining.length ≤ 10 then .ok combined
    else do
      let first ← orPanic .indexOutOfBounds cases[0]?
      let (indices, subset, map) ← chooseIndices cases 3 [] remaining
        (.newAllOnes first.matched.bitmap.len)
      let remaining := (remaining.map fun g => indices.foldl .reset g).filter (1 < ·.countOnes)
      let combined := if 0 < subset.length then combined ++ [(indices, Matches.new map)]
        else combined
      if subset.length ≤ 5 then return combined else combineLoop cases fuel remaining combined

/-- The combined rows that apply to a grouping, and the cases they stand for. -/
def combinedRows (map : GrowingBitmap) :
    List (List ℕ × Matches) → List (Matches × Bool) → GrowingBitmap →
    List (Matches × Bool) × GrowingBitmap
  | [], expected, already => (expected, already)
  | (indices, row) :: rest, expected, already =>
    if indices.all map.get && indices.any (!already.get ·) then
      combinedRows map rest (expected ++ [(row, true)]) (indices.foldl .set already)
    else combinedRows map rest expected already

/-- The rows that the expression of a grouping has to match. -/
def expectedRows (combined : List (List ℕ × Matches)) (cases : List FinderCase)
    (map : GrowingBitmap) : List (Matches × Bool) :=
  let (expected, already) := combinedRows map combined [] .new
  expected ++ ((cases.zip map.iter).zipIdx.filter fun x => !already.get x.2).map fun x =>
    (x.1.1.matched, x.1.2)

/-- The next position for a grouping without an expression; there may be none. -/
def Grouping.place (g : Grouping) (fuel : ℕ) (combined : List (List ℕ × Matches))
    (cases : List FinderCase) : Partial (Option Grouping) :=
  match g.current with
  | some _ => .ok (some g)
  | none => do
    match ← findPositionMatching fuel g.position (expectedRows combined cases g.map) with
    | some position => return some { g with position }
    | none => return none

/-- Source: `search/mod.rs`, `ComputationEnumerator::skip` -/
def ComputationEnumerator.skip (e : ComputationEnumerator) : ℕ → Partial ComputationEnumerator
  | 0 => .ok e
  | n + 1 => do
    let (_, e) ← e.findNext
    e.skip n

/-- The index of the expression at a position. -/
def exprIndex (useEndianness : Bool) (position : ℕ) : ℕ :=
  if useEndianness then position / 2 else position

/-- The expressions at the indices, which are in ascending order. -/
def collectExprs : ComputationEnumerator → List ℕ → ℕ →
    Partial (List (ℕ × CompressedIterComputation × CompressedIterComputation))
  | _, [], _ => .ok []
  | e, index :: indices, lastIndex =>
    if index < lastIndex then .error .arithmeticOverflow
    else do
      let e ← e.skip (index - lastIndex)
      let (found, e) ← e.findNext
      if !found then .error .assertionFailed
      else do
        let expr ← e.current
        let bigEndian ← expr.compress .unsignedBigEndian
        let littleEndian ← expr.compress .unsignedLittleEndian
        return (index, bigEndian, littleEndian) :: (← collectExprs e indices (index + 1))

/-- Gives a grouping the expression at its position. -/
def Grouping.assign (g : Grouping) (useEndianness : Bool)
    (exprs : List (ℕ × CompressedIterComputation × CompressedIterComputation)) : Partial Grouping :=
  match g.current with
  | some _ => .ok g
  | none => do
    let (bigEndian, littleEndian) ←
      orPanic .assertionFailed (exprs.lookup (exprIndex useEndianness g.position))
    let current := if useEndianness = true ∧ g.position % 2 = 1 then littleEndian else bigEndian
    return { g with current := some current }

/-- The combined rows of `update_groups`. -/
def combineRows (fuel : ℕ) (groups : List Grouping) (cases : List FinderCase) :
    Partial (List (List ℕ × Matches)) :=
  if 3 ≤ cases.length then
    combineLoop cases fuel
      ((groups.filter fun g => g.current.isNone && decide (3 ≤ g.map.countOnes)).map (·.map)) []
  else .ok []

/-- Source: `update_groups` -/
def updateGroups (fuel : ℕ) (useEndianness : Bool) (e : ComputationEnumerator)
    (groups : List Grouping) (cases : List FinderCase) : Partial (List Grouping) :=
  if groups.isEmpty then .ok groups
  else do
    let combined ← combineRows fuel groups cases
    let placed ← groups.mapM (·.place fuel combined cases)
    let groups := placed.filterMap id
    let indices := (groups.filter (·.current.isNone)).map fun g => exprIndex useEndianness g.position
    let exprs ← collectExprs e (indices.mergeSort (· ≤ ·)).eraseReps 0
    groups.mapM (·.assign useEndianness exprs)

/-! ## The finder -/

/-- Source: `BitmapMcsExpressionFinder`, without the timeout -/
structure BitmapMcsExpressionFinder where
  cases : List FinderCase
  groups : List Grouping
  pendingGroups : List Grouping
  enumerator : ComputationEnumerator
  failed : Bool
  stepThreshold : ℕ
  thresholdSize : ℕ
  outputBits : ℕ
  useEndianness : Bool
  outputType : IoType
  lastProcessedCase : ℕ

/-- Source: `utils/mod.rs`, `bitmask_u128` -/
def bitmaskU128 (n : ℕ) : Partial I128 := do
  let unused ← usub 128 n
  return if unused < 128 then BitVec.allOnes 128 >>> unused else 0

abbrev Finder := BitmapMcsExpressionFinder

namespace BitmapMcsExpressionFinder

/-- Source: `BitmapMcsExpressionFinder::new` -/
def new (templates : List PreprocessedTemplate) (inputTypes : List IoType) (outputType : IoType) :
    Partial Finder := do
  return {
    cases := []
    groups := [⟨.new, none, 0, 0⟩]
    pendingGroups := []
    enumerator := ← ComputationEnumerator.new templates inputTypes outputType
    failed := false
    stepThreshold := 0
    thresholdSize := 0
    outputBits := outputType.numBits
    useEndianness := decide (outputType.numBits > 8)
    outputType
    lastProcessedCase := 0 }

/-- Source: `BitmapMcsExpressionFinder::add_case` -/
def addCase (f : Finder) (inputs : List OwnedValue) (output : OwnedValue) : Partial Finder :=
  if f.failed then .ok f
  else do
    let args ← f.enumerator.args.mapM (Arg.interpretInputs inputs [])
    let comparison ← PreparedComparison.ofValue output
    match f.cases.find? (·.inputs = inputs) with
    | some existing =>
      if comparison ≠ existing.comparison then return { f with failed := true }
      else .error .explicitPanic
    | none => return { f with cases := f.cases ++ [⟨args, comparison, inputs, .new .new⟩] }

/-- The bitmap of the expressions that match a case: the loop over the enumeration. -/
def matchLoop (useEndianness : Bool) (case : FinderCase) :
    ℕ → ComputationEnumerator → ℕ → GrowingBitmap → Partial GrowingBitmap
  | 0, _, _, _ => .error .outOfFuel
  | fuel + 1, e, index, result => do
    let (found, e) ← e.findNext
    if found then do
      let compare ← (← e.current).preparedCompareEqWithArgsIndirect case.args case.comparison
      let result := if compare.bigEndian then result.set index else result
      if useEndianness then
        matchLoop useEndianness case fuel e (index + 2)
          (if compare.littleEndian then result.set (index + 1) else result)
      else matchLoop useEndianness case fuel e (index + 1) result
    else return result

/-- The groupings within the step threshold stay, the others are set aside. -/
def setAside (f : Finder) : Finder :=
  { f with
    groups := f.groups.filter (·.step ≤ f.stepThreshold)
    pendingGroups := f.pendingGroups ++ f.groups.filter (f.stepThreshold < ·.step) }

/-- Source: `BitmapMcsExpressionFinder::check_feasability` -/
def checkFeasability (f : Finder) : Finder :=
  let unseen := (f.groups ++ f.pendingGroups).foldl (fun unseen g => unseen.clearFrom g.map.asSlice)
    (GrowingBitmap.newAllOnes f.lastProcessedCase)
  if unseen.isAllZeros then f else { f with failed := true }

/-- One iteration of the loop of `find_expressions` that processes the new cases. -/
def processCase (f : Finder) (fuel : ℕ) : Partial Finder := do
  let index := f.lastProcessedCase
  let case ← orPanic .indexOutOfBounds f.cases[index]?
  let bitmap ← matchLoop f.useEndianness case fuel f.enumerator 0 .new
  let (groups, newGroupings) ← splitGroupsOnCase f.groups f.enumerator index case
  let f := setAside { f with groups := groups ++ newGroupings }
  let f := { f with cases := f.cases.set index { case with matched := .new bitmap } }
  let groups ← updateGroups fuel f.useEndianness f.enumerator f.groups (f.cases.take (index + 1))
  let f := checkFeasability { f with groups }
  return { f with lastProcessedCase := index + 1 }

/-- The loop of `find_expressions` that processes the new cases. -/
def processCases (fuel : ℕ) : ℕ → Finder → Partial Finder
  | 0, _ => .error .outOfFuel
  | rounds + 1, f =>
    if f.lastProcessedCase < f.cases.length then do
      let f ← f.processCase fuel
      if f.failed then return f else processCases fuel rounds f
    else .ok f

/-- Splits groupings on one case after the other, from the position of the case on: the groupings
that are left, and those that are set aside. -/
def catchUp (f : Finder) (fuel : ℕ) :
    List FinderCase → ℕ → List Grouping → List Grouping → Partial (List Grouping × List Grouping)
  | [], _, groups, newPending => .ok (groups, newPending)
  | case :: cases, index, groups, newPending => do
    let (old, new) ← splitGroupsOnCase groups f.enumerator index case
    let all := old ++ new
    let groups ← updateGroups fuel f.useEndianness f.enumerator
      (all.filter (·.step ≤ f.stepThreshold)) (f.cases.take (index + 1))
    if groups.any (·.current.isNone) then .error .assertionFailed
    else
      f.catchUp fuel cases (index + 1) groups
        (newPending ++ all.filter (f.stepThreshold < ·.step))

/-- The loop of `increase_step_threshold` over the sizes of the groupings that were set aside. -/
def activate (fuel : ℕ) :
    ℕ → Finder → List Grouping →
    Partial (Finder × List Grouping)
  | 0, _, _ => .error .outOfFuel
  | rounds + 1, f, newPending =>
    match ((f.pendingGroups.filter (·.step ≤ f.stepThreshold)).map (·.map.len)).min? with
    | none => .ok (f, newPending)
    | some minSize =>
      if f.cases.length < minSize then .error .indexOutOfBounds
      else do
        let groups ← updateGroups fuel f.useEndianness f.enumerator
          (f.pendingGroups.filter (·.map.len = minSize)) (f.cases.take minSize)
        if groups.any (·.current.isNone) then .error .assertionFailed
        else do
          let (groups, newPending) ←
            f.catchUp fuel (f.cases.drop minSize) minSize groups newPending
          activate fuel rounds { f with
            groups := f.groups ++ groups
            pendingGroups := f.pendingGroups.filter (·.map.len ≠ minSize) } newPending

/-- Source: `BitmapMcsExpressionFinder::increase_step_threshold` -/
def increaseStepThreshold (f : Finder) (fuel newThreshold : ℕ) :
    Partial Finder := do
  let (f, newPending) ← activate fuel fuel { f with stepThreshold := newThreshold } []
  if f.groups.any (·.current.isNone) then .error .assertionFailed
  else return checkFeasability { f with pendingGroups := f.pendingGroups ++ newPending }

/-- The cases that an expression may be chosen for, as the groupings that have the case. -/
def decisions (f : Finder) : List (List ℕ) :=
  (List.range f.cases.length).map fun index =>
    (List.range f.groups.length).filter fun i => (f.groups[i]?.any (·.map.get index))

/-- The first grouping with which all cases are covered. -/
def minNeeded : List Grouping → GrowingBitmap → Option Grouping
  | [], _ => none
  | g :: groups, seen =>
    let (changed, seen) := seen.orWith g.map.asSlice
    if changed && seen.isAllOnes then some g else minNeeded groups seen

/-- The end of `find_expressions`: the computations of a covering set. The step threshold goes down
to what they need. -/
def finish (f : Finder) (mcs : List ℕ) :
    Partial (List ExpressionComputation × Finder) := do
  let used ← mcs.mapM fun index => orPanic .indexOutOfBounds f.groups[index]?
  let maxStepUsed ← orPanic .assertionFailed (used.map (·.step)).max?
  let result ← used.mapM (·.toTemplateComputation f.enumerator)
  if f.stepThreshold = maxStepUsed then return (result, f)
  else if f.stepThreshold < maxStepUsed then .error .assertionFailed
  else return (result, setAside { f with stepThreshold := maxStepUsed })

/-- `self.groups.sort_by_key(|g| g.step)` -/
def sortGroups (f : Finder) : Finder :=
  { f with groups := f.groups.mergeSort fun a b => a.step ≤ b.step }

/-- The last loop of `find_expressions`. -/
def findLoop (picks : ℕ → Pick) (fuel : ℕ) :
    ℕ → Finder →
    Partial (List ExpressionComputation × Finder)
  | 0, _ => .error .outOfFuel
  | rounds + 1, f =>
    if f.failed then .ok ([], f)
    else
      let f := f.sortGroups
      if f.decisions.any List.isEmpty then
        match minNeeded (f.groups ++ f.pendingGroups) (.newAllZeros f.cases.length) with
        | some g =>
          if g.step ≤ f.stepThreshold then .error .assertionFailed
          else do
            let f ← f.increaseStepThreshold fuel g.step
            findLoop picks fuel rounds f
        | none => .ok ([], { f with failed := true })
      else do
        let mcs ← Mcs.MinimumCoveringSet.of (picks rounds) f.decisions f.groups.length
        if f.thresholdSize < mcs.length then do
          let maxSteps ← orPanic .assertionFailed
            ((f.groups ++ f.pendingGroups).map (·.step)).max?
          if f.stepThreshold < maxSteps then do
            let f ← f.increaseStepThreshold fuel maxSteps
            findLoop picks fuel rounds f
          else finish { f with thresholdSize := mcs.length } mcs
        else f.finish mcs

/-- Which arguments are the output of a case. -/
def identities (f : Finder) : Partial (List GrowingBitmap) :=
  f.cases.mapM fun case => do
    return .ofList (← case.args.mapM fun arg => do
      return decide (arg &&& (← bitmaskU128 (f.outputBits % 2 ^ 32)) = case.comparison.bigEndian))

/-- The computations of `find_expressions` that return one of the arguments. -/
def findIdentities (f : Finder) (pick : Pick) (identities : List GrowingBitmap) :
    Partial (List ExpressionComputation) := do
  let decisions := identities.map (·.iterOneIndices)
  let largest ← decisions.mapM fun d => orPanic .assertionFailed d.max?
  let numChoices := (← orPanic .assertionFailed largest.max?) + 1
  let mcs ← Mcs.MinimumCoveringSet.of pick decisions numChoices
  let template ← expr (.hole 0)
  mcs.mapM fun index => do
    return ⟨template, [← orPanic .indexOutOfBounds f.enumerator.args[index]?], .unsignedBigEndian,
      f.outputType⟩

/-- Source: `BitmapMcsExpressionFinder::find_expressions` -/
def findExpressions (f : Finder) (picks : ℕ → Pick) (fuel : ℕ) :
    Partial (List ExpressionComputation × Finder) :=
  if f.failed then .ok ([], f)
  else do
    let identities ← f.identities
    if identities.all (!·.isAllZeros) then
      return (← f.findIdentities (picks fuel) identities, f)
    else do
      let f ← processCases fuel fuel f
      if f.failed then return ([], f) else findLoop picks fuel fuel f

end BitmapMcsExpressionFinder

end LibLisa.Synth
