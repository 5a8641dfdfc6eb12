import LibLisa.Panic
import Mathlib.Algebra.GroupWithZero.Nat
import Mathlib.Data.Finset.Sort

/-!
# Minimum covering sets

A model of `liblisa/src/utils/mcs`: `MinimumCoveringSet::of` picks a set of choices that meets every
decision. Preprocessing (`reduceLoop`) commits to choices that are forced and drops decisions and
choices that do not matter; the rest is searched breadth first (`Bfs`), up to the size of the best
of a number of random solutions.

A `GrowingBitmap` or `FixedBitmapU64` is the set of the positions of its ones. The bitmaps that are
compared here have the same length, so nothing depends on it. The random choices are a parameter:
`pick t i` chooses for decision `i` in attempt `t`.

Where no file is given, the source is `bfs.rs`.
-/

namespace LibLisa.Mcs

open Lib List

/-- The positions of the ones of a bitmap. -/
abbrev Bitmap := Finset ℕ

/-- Source: `bitmap/growing.rs`, `GrowingBitmap::iter_one_indices` -/
def iterOneIndices (m : Bitmap) : List ℕ := m.sort (· ≤ ·)

/-- Source: `bitmap/growing.rs`, `GrowingBitmap::first_bit_set` -/
def firstBitSet (m : Bitmap) : Option ℕ := (iterOneIndices m).head?

/-- `Vec::dedup`: of equal neighbours only the first one is kept. -/
def dedup {α : Type} [DecidableEq α] : List α → List α
  | [] => []
  | [a] => [a]
  | a :: b :: l => if a = b then dedup (a :: l) else a :: dedup (b :: l)
termination_by l => l.length

/-- The order of `Vec<usize>`. -/
def lexLe : List ℕ → List ℕ → Bool
  | [], _ => true
  | _ :: _, [] => false
  | a :: as, b :: bs => a < b || (a = b && lexLe as bs)

/-! ## Breadth-first search -/

/-- Source: `mod.rs`, `Decision` -/
structure Decision where
  nums : List ℕ
  map : Bitmap

/-- Source: `mod.rs`, `Decision::new` -/
def Decision.new (nums : List ℕ) : Decision := ⟨nums, nums.toFinset⟩

/-- Source: `mod.rs`, `Decision::contains` -/
def Decision.contains (d : Decision) (index : ℕ) : Bool := index ∈ d.map

/-- Source: `Entry` -/
structure Entry where
  map : Bitmap
  path : List ℕ
deriving DecidableEq

/-- Source: `Choice` -/
structure Choice where
  originalIndex : ℕ
  eliminationMap : Bitmap

/-- Source: `Bfs` -/
structure Bfs where
  decisions : List Decision
  numChoices : ℕ
  choiceEliminationMaps : List Choice

/-- The decisions that are still open after a choice:
`decisions.iter().map(|d| !d.contains(choice)).collect()`. -/
def eliminationMap (decisions : List Decision) (choice : ℕ) : Bitmap :=
  (Finset.range decisions.length).filter fun i => ∀ d ∈ decisions[i]?, d.contains choice = false

/-- The filter of `Bfs::new`: a choice that eliminates no more than one seen before is skipped. -/
def keepChoices : List Choice → List Bitmap → List Choice
  | [], _ => []
  | choice :: choices, seen =>
    if seen.any (· ⊆ choice.eliminationMap) || choice.eliminationMap ∈ seen then
      keepChoices choices seen
    else choice :: keepChoices choices (choice.eliminationMap :: seen)

namespace Bfs

/-- Source: `Bfs::new` -/
def new (decisions : List Decision) (numChoices : ℕ) : Bfs where
  decisions := decisions
  numChoices := numChoices
  choiceEliminationMaps := keepChoices
    ((range numChoices).map fun choice => ⟨choice, eliminationMap decisions choice⟩) []

/-- The loop of `find_random_solution`, over the decisions with their positions. -/
def randomSolution (pick : ℕ → ℕ) (maps : List Bitmap) :
    List (Decision × ℕ) → Bitmap → List ℕ → Partial (List ℕ)
  | [], _, path => .ok path
  | (decision, index) :: rest, map, path =>
    if index ∈ map then do
      let choice ← orPanic .assertionFailed
        decision.nums[pick index % decision.nums.length]?
      let elimination ← orPanic .indexOutOfBounds maps[choice]?
      randomSolution pick maps rest (map ∩ elimination) (path ++ [choice])
    else randomSolution pick maps rest map path

/-- Source: `Bfs::find_random_solution` -/
def findRandomSolution (bfs : Bfs) (pick : ℕ → ℕ) (maps : List Bitmap) : Partial (List ℕ) :=
  randomSolution pick maps bfs.decisions.zipIdx (Finset.range bfs.decisions.length) []

/-- The loop of `find_best_random_solution`, over the attempts. -/
def improve (bfs : Bfs) (pick : Pick) (maps : List Bitmap) (best : List ℕ) (attempt : ℕ) :
    Partial (List ℕ) := do
  let path ← bfs.findRandomSolution (pick attempt) maps
  return if path.length < best.length then path else best

/-- Source: `Bfs::find_best_random_solution` -/
def findBestRandomSolution (bfs : Bfs) (pick : Pick) (numTries : ℕ) : Partial (List ℕ) := do
  let maps := (range bfs.numChoices).map (eliminationMap bfs.decisions)
  let best ← bfs.findRandomSolution (pick 0) maps
  (range' 1 numTries).foldlM (bfs.improve pick maps) best

end Bfs

/-- What a round has explored, and the frontier of the next one. -/
structure Round where
  explored : List Bitmap
  nextFrontier : List Entry

/-- One choice at one entry of the frontier. A path is returned (as the error of the loop) if it
leaves no decision open. `choice_would_violate` is always false in the source. -/
def expandChoice (maps : List Bitmap) (entry : Entry) (round : Round) (choiceIndex : ℕ)
    (elimination : Bitmap) : Except (List ℕ) Round :=
  let newMap := entry.map ∩ elimination
  if entry.map ⊆ elimination then .ok round
  else if (maps.take choiceIndex).any fun other => entry.map ∩ other ⊆ newMap then .ok round
  else if newMap ∈ round.explored then .ok round
  else if (maps.take choiceIndex).zipIdx.any fun other =>
      newMap ∩ other.1 ∈ round.explored ∧ other.2 ∉ entry.path then .ok round
  else if newMap = ∅ then .error (entry.path ++ [choiceIndex])
  else .ok ⟨newMap :: round.explored,
    round.nextFrontier ++ [⟨newMap, entry.path ++ [choiceIndex]⟩]⟩

/-- `entry.path.last().map(|&x| x + 1).unwrap_or(0)` -/
def startIndex (path : List ℕ) : ℕ := (path.getLast?.map (· + 1)).getD 0

/-- The choices at one entry of the frontier, up to the first one from which on the open decisions
can no longer be met. -/
def expandEntry (maps availability : List Bitmap) (round : Round) (entry : Entry) :
    Except (List ℕ) Round :=
  (((maps.zip availability).zipIdx.drop (startIndex entry.path)).takeWhile fun x =>
    entry.map ∩ x.1.2 = ∅).foldlM (fun round x => expandChoice maps entry round x.2 x.1.1) round

/-- Source: `Bfs::run_single_decision` -/
def runSingleDecision (maps availability : List Bitmap) (frontier : List Entry)
    (explored : List Bitmap) : Except (List ℕ) Round :=
  frontier.foldlM (expandEntry maps availability) ⟨explored, []⟩

/-- The availability constraints of `run_decisions`, from the last choice to the first. -/
def availabilityConstraints (startMap : Bitmap) (maps : List Bitmap) : List Bitmap × Bitmap :=
  maps.foldr (fun map acc => ((acc.2 ∩ map) :: acc.1, acc.2 ∩ map)) ([], startMap)

/-- The loop of `run_decisions`, over the number of rounds that are left. -/
def runRounds (maps availability : List Bitmap) :
    ℕ → List Entry → List Bitmap → Option (List ℕ)
  | 0, _, _ => none
  | rounds + 1, frontier, explored =>
    match runSingleDecision maps availability frontier explored with
    | .error path => some path
    | .ok round => runRounds maps availability rounds round.nextFrontier round.explored

namespace Bfs

/-- Source: `Bfs::run_decisions`; the bitmap types it is used at differ in capacity
only. -/
def runDecisions (bfs : Bfs) (max : ℕ) : Option (List ℕ) :=
  let startMap := Finset.range bfs.decisions.length
  let maps := bfs.choiceEliminationMaps.map (·.eliminationMap)
  runRounds maps (availabilityConstraints startMap maps).1 max [⟨startMap, []⟩] []

/-- Source: `Bfs::run_internal` -/
def runInternal (bfs : Bfs) (max : ℕ) : Partial (List ℕ) := do
  let result ← orPanic .assertionFailed (bfs.runDecisions max)
  result.mapM fun n => do
    let choice ← orPanic .indexOutOfBounds bfs.choiceEliminationMaps[n]?
    return choice.originalIndex

/-- Source: `Bfs::run` -/
def run (bfs : Bfs) (pick : Pick) : Partial (List ℕ) := do
  let randomSolution ← bfs.findBestRandomSolution pick 10000
  bfs.runInternal randomSolution.length

end Bfs

/-! ## Preprocessing -/

/-- The choices made so far and the decisions that are left. -/
structure Reduction where
  decided : Bitmap
  decisions : List Bitmap

/-- The first `retain` of the loop: a decision with a single choice is decided. -/
def decideSingles : Bitmap → List Bitmap → Partial Reduction
  | decided, [] => .ok ⟨decided, []⟩
  | decided, m :: ms =>
    if m.card = 1 then do
      let index ← orPanic .assertionFailed (firstBitSet m)
      decideSingles (insert index decided) ms
    else do
      let rest ← decideSingles decided ms
      return ⟨rest.decided, m :: rest.decisions⟩

/-- One iteration of the loop that drops the decisions with a smaller one beside them. -/
def removeSuperset (decisions : List Bitmap) (index : ℕ) : Partial (List Bitmap) := do
  let decision ← orPanic .indexOutOfBounds decisions[index]?
  return if (decisions.take index ++ decisions.drop (index + 1)).any (· ⊆ decision) then
    decisions.eraseIdx index
  else decisions

/-- The number of decisions that have a choice. -/
def count (decisions : List Bitmap) (index : ℕ) : ℕ :=
  (decisions.filter (index ∈ ·)).length

/-- The choices that are not bad ones; a choice that only one decision has is. -/
def removalMask (decisions : List Bitmap) (numChoices : ℕ) : Partial Bitmap :=
  if decisions.any fun d => ∃ n ∈ d, numChoices ≤ n then .error .indexOutOfBounds
  else .ok ((Finset.range numChoices).filter fun n => count decisions n ≠ 1)

/-- The loop that removes the bad choices from the decisions. -/
def clearDecisions (mask : Bitmap) : Bool → List Bitmap → Partial (Bool × List Bitmap)
  | modified, [] => .ok (modified, [])
  | modified, decision :: decisions => do
    let firstIndex ← orPanic .assertionFailed (firstBitSet decision)
    let modified := modified || decide (decision ∩ mask ≠ decision)
    let cleared := if modified ∧ decision ∩ mask = ∅ then {firstIndex} else decision ∩ mask
    let (modified, rest) ← clearDecisions mask modified decisions
    return (modified, cleared :: rest)

/-- One iteration of the loop of `find_best_decisions`. -/
def reduceStep (numChoices : ℕ) (r : Reduction) : Partial (Bool × Reduction) := do
  let sizeBefore := r.decisions.length
  let r ← decideSingles r.decided (dedup r.decisions)
  let modified := decide (sizeBefore ≠ r.decisions.length)
  let decisions := r.decisions.filter fun m => r.decided ∩ m = ∅
  let decisions ← (range decisions.length).reverse.foldlM removeSuperset decisions
  let mask ← removalMask decisions numChoices
  let (modified, decisions) ← clearDecisions mask modified decisions
  return (modified, ⟨r.decided, decisions⟩)

/-- The loop of `find_best_decisions`, until nothing is modified. -/
def reduceLoop (numChoices : ℕ) : ℕ → Reduction → Partial Reduction
  | 0, _ => .error .outOfFuel
  | fuel + 1, r => do
    let (modified, r) ← reduceStep numChoices r
    if modified then reduceLoop numChoices fuel r else return r

/-- A bound for the number of iterations: every one but the last removes a decision or a choice. -/
def reduceFuel (decisions : List Bitmap) : ℕ := (decisions.map fun d => d.card + 1).sum + 1

/-! ## The covering set -/

/-- The new numbers of the choices, and how many there are; `none` stands for `usize::MAX`. -/
structure Remap where
  index : ℕ → Option ℕ
  counter : ℕ

/-- One iteration of the loop that numbers the choices. -/
def Remap.assign (remap : Remap) (item : ℕ) : Remap :=
  if remap.index item = none then
    ⟨Function.update remap.index item (some remap.counter), remap.counter + 1⟩
  else remap

/-- The choices that are left, numbered in their order. -/
def Remap.ofDecisions (decisions : List Bitmap) : Remap :=
  ((decisions.flatMap iterOneIndices).mergeSort (· ≤ ·)).foldl Remap.assign ⟨fun _ => none, 0⟩

/-- A decision in the new numbers. All its choices have one. -/
def Remap.decision (remap : Remap) (d : Bitmap) : Bitmap :=
  ((iterOneIndices d).filterMap remap.index).toFinset

/-- `remap.iter().position(|&new_index| new_index == index)` -/
def Remap.position (remap : Remap) (numChoices index : ℕ) : Option ℕ :=
  (range numChoices).find? fun i => remap.index i = some index

/-- The search over the reduced decisions, with its result in the original numbers. -/
def searchReduced (pick : Pick) (decisions : List Bitmap) (numChoices : ℕ) :
    Partial Bitmap := do
  let remap := Remap.ofDecisions decisions
  let decisions := decisions.map fun d => Decision.new (iterOneIndices (remap.decision d))
  let best ← (Bfs.new decisions remap.counter).run pick
  let originals ← best.mapM fun index => orPanic .assertionFailed (remap.position numChoices index)
  return originals.toFinset

/-- Source: `mod.rs`, `MinimumCoveringSet::find_best_decisions` -/
def findBestDecisions (pick : Pick) (decisions : List (List ℕ)) (numChoices : ℕ) :
    Partial (Option (List ℕ)) := do
  let maps := (dedup (decisions.mergeSort lexLe)).map toFinset
  let r ← reduceLoop numChoices (reduceFuel maps) ⟨∅, maps⟩
  if r.decisions = [] then return some (iterOneIndices r.decided)
  else do
    let best ← searchReduced pick r.decisions numChoices
    return some (iterOneIndices (best ∪ r.decided))

/-- Source: `mod.rs`, `MinimumCoveringSet::of`, and the list that `into_vec` returns -/
def MinimumCoveringSet.of (pick : Pick) (decisions : List (List ℕ)) (numChoices : ℕ) :
    Partial (List ℕ) := do
  match ← findBestDecisions pick decisions numChoices with
  | some chosen => return chosen.mergeSort (· ≤ ·)
  | none => return range numChoices

end LibLisa.Mcs
