import LibLisa.Compare.EfficientFilter
import LibLisa.Utils.MinisatVisit

/-!
# Splitting the instruction space by architecture

A model of `compare/split.rs`. `compute_split_filters` takes out the filters that all architectures
share, drops filters that are covered by another one, halves the lists while they are large, and
computes for each set of architectures the instructions that exactly these match, as differences of
filter groups (`FilterGroup::sub`), which a SAT solver enumerates.

The orders in which hash sets list their elements are parameters.

Where no file is given, the source is `split.rs`.
-/

namespace LibLisa

/-- Sets a bit of a byte filter, counted from the right. -/
def ByteFilter.setBit (byte : ByteFilter) (bitIndex : ℕ) (bit : FilterBit) : Partial ByteFilter :=
  match bit with
  | .is0 => ByteFilter.new (byte.mask ||| 1#8 <<< bitIndex) (byte.value &&& ~~~(1#8 <<< bitIndex))
  | .is1 => ByteFilter.new (byte.mask ||| 1#8 <<< bitIndex) (byte.value ||| 1#8 <<< bitIndex)
  | .wildcard => ByteFilter.new (byte.mask &&& ~~~(1#8 <<< bitIndex)) (byte.value &&& ~~~(1#8 <<< bitIndex))

/-- Source: `instr/filter.rs`, `InstructionFilter::set_nth_bit_from_left` -/
def InstructionFilter.setNthBitFromLeft (f : InstructionFilter) (index : ℕ) (bit : FilterBit) :
    Partial InstructionFilter := do
  let byte ← orPanic .indexOutOfBounds f.data[index / 8]?
  let byte ← byte.setBit (7 - index % 8) bit
  InstructionFilter.new (f.data.set (index / 8) byte)

namespace Compare

open Minisat

/-- The order in which a hash set lists its elements. -/
structure HashOrder (α : Type) where
  order : List α → List α
  perm : ∀ l, (order l).Perm l

/-! ## Differences of filter groups -/

/-- Source: `FilterGroup` -/
structure FilterGroup where
  filters : List EfficientFilter

namespace FilterGroup

/-- Source: `FilterGroup::new` -/
def new (filters : Filters) : Partial FilterGroup :=
  if filters.all fun f => f.bitLen = (filters.head?.map (·.bitLen)).getD 0 then
    .ok ⟨filters.map EfficientFilter.new⟩
  else .error .assertionFailed

/-- Source: `FilterGroup::filters` -/
def instructionFilters (g : FilterGroup) : Partial (Filters) :=
  g.filters.mapM (·.asInstructionFilter)

/-- The terms that say that a word has the fixed bits of a filter, at the given positions. -/
def conjunction (indices : List ℕ) (filter : EfficientFilter) : List Term :=
  indices.zipIdx.filterMap fun (bitIndex, termIndex) =>
    match filter.getNthBitFromRight bitIndex with
    | .is0 => some (Term.ff (termIndex % 256))
    | .is1 => some (Term.tt (termIndex % 256))
    | .wildcard => none

/-- The filter with the bits of a solution. -/
def withSolution (current : EfficientFilter) (indices : List ℕ) (solution : Assumptions) :
    EfficientFilter :=
  (indices.zip solution).foldl (fun filter (bitIndex, val) =>
    match val with
    | some false => filter.setNthBitFromRight bitIndex .is0
    | some true => filter.setNthBitFromRight bitIndex .is1
    | none => filter) current

/-- Source: `sub_internal` -/
def subInternal (current : EfficientFilter) (filters : List EfficientFilter) :
    Partial (List EfficientFilter) := do
  let indices ← current.maskIndicesFromRight
  let solver := filters.foldl (fun solver filter =>
    solver.andNotConjunction (conjunction indices filter)) (SatSolver.new indices.length)
  let solutions ← solver.visit
  return solutions.map (withSolution current indices)

/-- Source: `FilterGroup::sub` -/
def sub (o : HashOrder EfficientFilter) (self other : FilterGroup) : Partial FilterGroup :=
  match self.filters, other.filters with
  | [], _ => .ok ⟨[]⟩
  | _, [] => .ok self
  | first :: _, otherFirst :: _ =>
    if first.bitLen ≠ otherFirst.bitLen then .error .assertionFailed
    else do
      let results ← self.filters.mapM fun filter =>
        let overlapping := other.filters.filter (filter.overlaps ·)
        if overlapping.any (·.covers filter) then .ok [] else subInternal filter overlapping
      return ⟨o.order results.flatten.dedup⟩

end FilterGroup

/-! ## The filters of each set of architectures -/

/-- The orders of the hash sets of `compute_split_filters_internal`. -/
structure SplitOrders where
  matrix : ℕ → ℕ → HashOrder EfficientFilter
  config : ℕ → HashOrder EfficientFilter
  result : HashOrder InstructionFilter

/-- The filters of one list that are not in the other. -/
def without (o : HashOrder EfficientFilter) (a b : Filters) :
    Partial (Filters) := do
  let x ← FilterGroup.new a
  let y ← FilterGroup.new b
  let xWithoutY ← x.sub o y
  xWithoutY.instructionFilters

/-- The shortest of the lists, the first one of several. -/
def shortest : List Filters → Option Filters
  | [] => none
  | l :: ls =>
    match shortest ls with
    | none => some l
    | some m => if m.length < l.length then some m else some l

/-- The filters that are common to the lists in the configuration, and in no other list. -/
def configFilters (o : HashOrder EfficientFilter) (item : List Filters)
    (matrix : List (List Filters)) (config : ℕ) :
    Partial (Filters) := do
  let included := (List.range item.length).filter fun index => config.testBit index
  let excluded := (List.range item.length).filter fun index => !config.testBit index
  let includedLists ← included.mapM fun index => orPanic .indexOutOfBounds item[index]?
  let base ← orPanic .indexOutOfBounds (shortest includedLists)
  let excludedLists ← excluded.mapM fun index => orPanic .indexOutOfBounds item[index]?
  let differences ← included.mapM fun a => included.mapM fun b =>
    orPanic .indexOutOfBounds (matrix[a]?.bind fun row => row[b]?)
  without o base (excludedLists.flatten ++ differences.flatten.flatten).eraseDups

/-- Source: `compute_split_filters_internal` -/
def computeSplitFiltersInternal (orders : SplitOrders) (item : List Filters) :
    Partial (Filters) := do
  let matrix ← item.zipIdx.mapM fun (a, i) => item.zipIdx.mapM fun (b, j) =>
    without (orders.matrix i j) a b
  if 64 ≤ item.length then .error .arithmeticOverflow
  else do
    let results ← ((List.range (2 ^ item.length)).drop 1).mapM fun config =>
      configFilters (orders.config config) item matrix config
    return orders.result.order results.flatten.dedup

/-! ## Halving -/

/-- An `i32`. -/
def toI32 (n : ℤ) : Partial ℤ :=
  if -2 ^ 31 ≤ n ∧ n < 2 ^ 31 then .ok n else .error .arithmeticOverflow

/-- How well a bit splits the filters. -/
def splitScore (filters : Filters) (bitIndex : ℕ) : Partial ℤ := do
  let bits ← filters.mapM fun filter => filter.nthBitFromLeft bitIndex
  let numZero ← toI32 (bits.count .is0)
  let numOne ← toI32 (bits.count .is1)
  let numShared ← toI32 (bits.count .wildcard)
  let product ← toI32 (min numOne numZero * 100)
  toI32 (product - numShared)

/-- The last of the largest elements, as `max_by_key` returns it. -/
def maxByKey : List (ℕ × ℤ) → Option (ℕ × ℤ)
  | [] => none
  | p :: ps =>
    match maxByKey ps with
    | none => some p
    | some q => if q.2 < p.2 then some p else some q

/-- The filters of a list for one of the halves. -/
def halfOf (bitToSplit : ℕ) (setTo exclude : FilterBit) (v : Filters) :
    Partial (Filters) := do
  let bits ← v.mapM fun filter => filter.nthBitFromLeft bitToSplit
  let kept := ((v.zip bits).filter fun p => p.2 ≠ exclude).map (·.1)
  kept.mapM fun filter => filter.setNthBitFromLeft bitToSplit setTo

/-- Source: `split_groups` -/
def splitGroups (item : List Filters) :
    Partial (List (List Filters)) := do
  let first ← orPanic .indexOutOfBounds item.flatten.head?
  let scores ← (List.range first.bitLen).mapM fun bitIndex =>
    return (bitIndex, ← splitScore item.flatten bitIndex)
  let (bitToSplit, _) ← orPanic .indexOutOfBounds (maxByKey scores)
  [(FilterBit.is0, FilterBit.is1), (FilterBit.is0, FilterBit.is1)].mapM fun (setTo, exclude) =>
    item.mapM (halfOf bitToSplit setTo exclude)

/-- One of the ten rounds of halving. -/
def halveRound (groups : List (List Filters)) :
    Partial (List (List Filters)) := do
  let halves ← groups.mapM fun group =>
    if (group.map (·.length)).sum > 500 then splitGroups group else .ok [group]
  return halves.flatten

/-- The ten rounds. -/
def halve (item : List Filters) : Partial (List (List Filters)) :=
  (List.range 10).foldlM (fun groups _ => halveRound groups) [item]

/-! ## All filters -/

/-- The loop of `retain` on the first list: the filters that stay, the other lists without what was
taken out, and the filters that were taken out. -/
def takeShared : Filters → List Filters →
    Filters × List Filters × Filters
  | [], rest => ([], rest, [])
  | filter :: filters, rest =>
    if rest.all (·.contains filter) then
      let (first, rest, shared) := takeShared filters (rest.map (·.erase filter))
      (first, rest, filter :: shared)
    else
      let (first, rest, shared) := takeShared filters rest
      (filter :: first, rest, shared)

/-- The position of the first filter that another one covers. -/
def coveredIndex (filters : Filters) : Option ℕ :=
  filters.zipIdx.findSome? fun (filter, filterIndex) =>
    if filters.zipIdx.any fun (f, n) => n ≠ filterIndex && f.covers filter then some filterIndex
    else none

/-- Removes covered filters until there is none; each round removes one. -/
def removeCovered : ℕ → Filters → Filters
  | 0, filters => filters
  | fuel + 1, filters =>
    match coveredIndex filters with
    | some index => removeCovered fuel (filters.eraseIdx index)
    | none => filters

/-- The lists without shared and covered filters, and the shared filters. -/
def prepareItem (item : List Filters) : Partial (List Filters × Filters) :=
  match item with
  | [] => .error .assertionFailed
  | first :: rest =>
    let (first, rest, shared) := takeShared first rest
    .ok ((first :: rest).map fun filters => removeCovered filters.length filters, shared)

/-- Source: `compute_split_filters` -/
def computeSplitFilters (orders : ℕ → SplitOrders) (item : List Filters) :
    Partial (Filters) := do
  let (item, shared) ← prepareItem item
  let groups ← halve item
  let results ← groups.zipIdx.mapM fun (group, index) =>
    computeSplitFiltersInternal (orders index) group
  return results.flatten ++ shared

end Compare

end LibLisa
