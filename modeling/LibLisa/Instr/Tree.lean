import LibLisa.Instr.Filter
import LibLisa.Lib.Arena

/-!
# The filter tree

The model of `instr/tree.rs`: a binary trie over instruction bits, kept in an arena with a free
list, into which filters are inserted in place. A function of the source that panics on some input
returns `Partial`; the recursions that follow the stored nodes (`free_node`, `deep_clone_node`,
`optimize`, `find_next_internal`, `covers_internal`) carry a counter, and the loops over the bits of
a filter recurse on the number of bits left.

`FilterTree.run` makes a sequence of the public mutating calls.

Where no file is given, the source is `instr/tree.rs`.
-/

namespace LibLisa

open Lib

/-- A 40-bit node index.
Source: `instr/tree.rs`, `U40` -/
abbrev U40 := Fin (2 ^ 40)

/-- Source: `U40::new` -/
def U40.new (val : ℕ) : Partial U40 :=
  if h : val < 2 ^ 40 then .ok ⟨val, h⟩ else .error .u40Overflow

/-- The answer of the tree for the instructions that reach a leaf.
Source: `instr/tree.rs`, the leaves of `NodeIndex` -/
inductive Leaf where
  | enumerate
  | skip
deriving DecidableEq, Repr

/-- Source: `NodeIndex` -/
inductive NodeIndex where
  | leaf (a : Leaf)
  | index (i : U40)
deriving DecidableEq, Repr

/-- Source: `NodeIndex::Enumerate` -/
abbrev NodeIndex.enumerate : NodeIndex := .leaf .enumerate

/-- Source: `NodeIndex::Skip` -/
abbrev NodeIndex.skip : NodeIndex := .leaf .skip

/-- Source: `NodeIndex::index` -/
def NodeIndex.index? : NodeIndex → Option ℕ
  | .leaf _ => none
  | .index i => some i.val

/-- Source: `Node` -/
inductive Node where
  | branch (is0 is1 : NodeIndex)
  | ignore (next : NodeIndex)
deriving DecidableEq, Repr

/-- Source: `FilterTree` -/
abbrev FilterTree := Arena Node

namespace FilterTree

/-- Source: `FilterTree::new` -/
def new : FilterTree := { entries := [.ignore .enumerate], empty := [] }

/-- The index of the root node. -/
def root : NodeIndex := .index 0

/-- Source: `FilterTree::len` -/
def len (t : FilterTree) : ℕ := t.entries.length - t.empty.length

/-- `self.entries[index]` -/
def get (t : FilterTree) (index : ℕ) : Partial Node := orPanic .indexOutOfBounds t.entries[index]?

/-- `self.entries[index] = node` -/
def set (t : FilterTree) (index : ℕ) (node : Node) : Partial FilterTree :=
  orPanic .indexOutOfBounds (t.write index node)

/-- Source: `FilterTree::new_node` -/
def newNode (t : FilterTree) (node : Node) : Partial (NodeIndex × FilterTree) := do
  let (index, t) ← orPanic .indexOutOfBounds (t.alloc node)
  let index ← U40.new index
  return (.index index, t)

/-- Source: `FilterTree::free_entry` -/
def freeEntry (t : FilterTree) (index : ℕ) : Partial FilterTree :=
  orPanic .arithmeticOverflow (t.free index)

/-- Source: `FilterTree::free_node` -/
def freeNode : ℕ → FilterTree → NodeIndex → Partial FilterTree
  | _, t, .leaf _ => .ok t
  | 0, _, .index _ => .error .outOfFuel
  | fuel + 1, t, .index index => do
    match ← t.get index with
    | .branch is0 is1 =>
      let t ← freeNode fuel t is0
      let t ← freeNode fuel t is1
      t.freeEntry index
    | .ignore next =>
      let t ← freeNode fuel t next
      t.freeEntry index

/-- Source: `FilterTree::deep_clone_node` -/
def deepCloneNode : ℕ → FilterTree → NodeIndex → Partial (NodeIndex × FilterTree)
  | _, t, .leaf a => .ok (.leaf a, t)
  | 0, _, .index _ => .error .outOfFuel
  | fuel + 1, t, .index index => do
    match ← t.get index with
    | .branch is0 is1 =>
      let (is0, t) ← deepCloneNode fuel t is0
      let (is1, t) ← deepCloneNode fuel t is1
      t.newNode (.branch is0 is1)
    | .ignore next =>
      let (next, t) ← deepCloneNode fuel t next
      t.newNode (.ignore next)

/-- The bound for a recursion that follows the nodes of `t`: no path is longer than the arena. -/
def fuel (t : FilterTree) : ℕ := t.entries.length

/-- The index of an inner node; an `Enumerate` leaf becomes a new `Ignore` node that `update`
links to its parent, a `Skip` leaf has none.
Source: `instr/tree.rs`, `FilterTree::node_to_index` -/
def nodeToIndex (t : FilterTree) (node : NodeIndex)
    (update : FilterTree → NodeIndex → Partial FilterTree) : Partial (Option U40 × FilterTree) :=
  match node with
  | .leaf .enumerate => do
    let (new, t) ← t.newNode (.ignore .enumerate)
    let t ← update t new
    match new with
    | .index index => return (some index, t)
    | .leaf _ => throw .leafUnwrapped
  | .leaf .skip => return (none, t)
  | .index index => return (some index, t)

/-- The number of filter bits without the trailing wildcards, at least one bit of a non-empty
filter: the loop `while len > 1 && filter.nth_bit_from_left(len - 1) == Wildcard`. -/
def trimWildcards (filter : InstructionFilter) : ℕ → Partial ℕ
  | 0 => .ok 0
  | 1 => .ok 1
  | len + 2 => do
    if (← filter.nthBitFromLeft (len + 1)) = .wildcard then trimWildcards filter (len + 1)
    else return len + 2

/-- Source: `real_len` in `add_internal` and `covers_internal` -/
def realLen (filter : InstructionFilter) : Partial ℕ := trimWildcards filter filter.bitLen

/-- The last bit of a filter: the strings that it admits at node `cur` become skipped.
Source: `instr/tree.rs`, `FilterTree::add_internal`, the arm `if last` -/
def addLast (t : FilterTree) (cur : ℕ) (bit : FilterBit) : Partial (Bool × FilterTree) := do
  match ← t.get cur, bit with
  | .branch is0 is1, .is0 =>
    if is0 = .skip then return (false, t)
    let t ← freeNode t.fuel t is0
    return (true, ← t.set cur (.branch .skip is1))
  | .branch is0 is1, .is1 =>
    if is1 = .skip then return (false, t)
    let t ← freeNode t.fuel t is1
    return (true, ← t.set cur (.branch is0 .skip))
  | .branch is0 is1, .wildcard =>
    let t ← freeNode t.fuel t is0
    let t ← freeNode t.fuel t is1
    return (true, ← t.set cur (.ignore .skip))
  | .ignore next, .is0 => return (true, ← t.set cur (.branch .skip next))
  | .ignore next, .is1 => return (true, ← t.set cur (.branch next .skip))
  | .ignore next, .wildcard =>
    if next = .skip then return (false, t)
    let t ← freeNode t.fuel t next
    return (true, ← t.set cur (.ignore .skip))

/-- `*is_1 = new` in a node that is still a branch. -/
def setIs1 (t : FilterTree) (cur : ℕ) (new : NodeIndex) : Partial FilterTree := do
  match ← t.get cur with
  | .branch is0 _ => t.set cur (.branch is0 new)
  | .ignore _ => throw .unreachable

/-- How the insertion goes on after `node_to_index`: `add` on a child with an index, nothing on a
`Skip` leaf. -/
def addChild (modified : Bool) (add : FilterTree → ℕ → Partial (Bool × FilterTree)) :
    Option U40 × FilterTree → Partial (Bool × FilterTree)
  | (some index, t) => add t index
  | (none, t) => .ok (modified, t)

/-- The loop of `add_internal` with `rest` bits of the filter left, at bit `n` and node `cur`.
Returns whether the tree was modified.
Source: `instr/tree.rs`, `FilterTree::add_internal` -/
def addLoop (filter : InstructionFilter) :
    (rest : ℕ) → (n : ℕ) → (modified : Bool) → (t : FilterTree) → (cur : ℕ) →
      Partial (Bool × FilterTree)
  | 0, _, modified, t, _ => .ok (modified, t)
  | 1, n, modified, t, cur => do
    let bit ← filter.nthBitFromLeft n
    let (changed, t) ← t.addLast cur bit
    return (modified || changed, t)
  | rest + 2, n, modified, t, cur => do
    let bit ← filter.nthBitFromLeft n
    match ← t.get cur, bit with
    | .branch is0 is1, .is0 =>
      let child ← t.nodeToIndex is0 fun t new => t.set cur (.branch new is1)
      addChild modified (addLoop filter (rest + 1) (n + 1) modified) child
    | .branch is0 is1, .is1 =>
      let child ← t.nodeToIndex is1 fun t new => t.set cur (.branch is0 new)
      addChild modified (addLoop filter (rest + 1) (n + 1) modified) child
    | .branch is0 is1, .wildcard =>
      let child ← t.nodeToIndex is0 fun t new => t.set cur (.branch new is1)
      let (changed0, t) ← addChild false (addLoop filter (rest + 1) (n + 1) false) child
      let child ← t.nodeToIndex is1 fun t new => t.setIs1 cur new
      let (changed1, t) ← addChild false (addLoop filter (rest + 1) (n + 1) false) child
      return (modified || changed0 || changed1, t)
    | .ignore next, .is0 =>
      let (clone, t) ← deepCloneNode t.fuel t next
      let t ← t.set cur (.branch next clone)
      let child ← t.nodeToIndex next fun t new => t.set cur (.branch new clone)
      addChild true (addLoop filter (rest + 1) (n + 1) true) child
    | .ignore next, .is1 =>
      let (clone, t) ← deepCloneNode t.fuel t next
      let t ← t.set cur (.branch next clone)
      let child ← t.nodeToIndex clone fun t new => t.set cur (.branch next new)
      addChild true (addLoop filter (rest + 1) (n + 1) true) child
    | .ignore next, .wildcard =>
      let child ← t.nodeToIndex next fun t new => t.set cur (.ignore new)
      addChild modified (addLoop filter (rest + 1) (n + 1) modified) child

/-- Source: `FilterTree::add_internal` called on the root -/
def addInternal (t : FilterTree) (filter : InstructionFilter) : Partial (Bool × FilterTree) := do
  let realLen ← realLen filter
  addLoop filter realLen 0 false t 0

/-- Equality of two node references into one tree: leaves by value, inner nodes by index or by
their entries.
Source: `instr/tree.rs`, `PartialEq for NodeRef` -/
def nodeRefEq (t : FilterTree) : NodeIndex → NodeIndex → Partial Bool
  | .leaf a, .leaf b => .ok (a = b)
  | .index i, .index j => do
    if i = j then return true
    return (← t.get i) = (← t.get j)
  | _, _ => .ok false

/-- The call of `optimize` on a child, made only if `follow` holds. -/
def optimizeChild (optimize : FilterTree → NodeIndex → Partial (Option NodeIndex × FilterTree))
    (follow : Bool) (t : FilterTree) (child : NodeIndex) :
    Partial (Option NodeIndex × FilterTree) :=
  if follow then optimize t child else .ok (none, t)

/-- Stores the children that were replaced; nothing is stored if none was. -/
def writeBack (t : FilterTree) (cur : ℕ) (is0 is1 : NodeIndex) (newIs0 newIs1 : Option NodeIndex) :
    Partial FilterTree :=
  if newIs0.isSome || newIs1.isSome then t.set cur (.branch (newIs0.getD is0) (newIs1.getD is1))
  else .ok t

/-- Source: `FilterTree::optimize` -/
def optimize (path : InstructionFilter) :
    ℕ → FilterTree → NodeIndex → ℕ → Partial (Option NodeIndex × FilterTree)
  | _, t, .leaf a, _ => .ok (some (.leaf a), t)
  | 0, _, .index _, _ => .error .outOfFuel
  | fuel + 1, t, .index cur, filterIndex => do
    match ← t.get cur with
    | .branch is0 is1 =>
      let bit ← path.nthBitFromLeft filterIndex
      let (newIs0, t) ← optimizeChild (fun t child => optimize path fuel t child (filterIndex + 1))
        (bit ≠ .is1) t is0
      let (newIs1, t) ← optimizeChild (fun t child => optimize path fuel t child (filterIndex + 1))
        (bit ≠ .is0) t is1
      let t ← t.writeBack cur is0 is1 newIs0 newIs1
      let is0 := newIs0.getD is0
      let is1 := newIs1.getD is1
      if ← t.nodeRefEq is0 is1 then
        match is0 with
        | .leaf _ =>
          let t ← freeNode t.fuel t is1
          let t ← t.freeEntry cur
          return (some is0, t)
        | .index _ =>
          let t ← t.set cur (.ignore is0)
          let t ← freeNode t.fuel t is1
          return (none, t)
      else return (none, t)
    | .ignore next =>
      match ← optimize path fuel t next (filterIndex + 1) with
      | (some (.leaf a), t) =>
        let t ← t.freeEntry cur
        return (some (.leaf a), t)
      | (some (.index index), t) =>
        let t ← t.set cur (.ignore (.index index))
        return (none, t)
      | (none, t) => return (none, t)

/-- Source: `FilterTree::filter` -/
def filter (t : FilterTree) (filter : InstructionFilter) : Partial FilterTree := do
  let (modified, t) ← t.addInternal filter
  if modified then
    match ← optimize filter t.fuel t root 0 with
    | (some (.leaf a), _) => return { entries := [.ignore (.leaf a)], empty := [] }
    | (some (.index index), t) =>
      let t ← t.set 0 (← t.get index)
      t.freeEntry index
    | (none, t) => return t
  else return t

/-- The loop of `prune` over the remaining bits of the instruction.
Source: `instr/tree.rs`, `FilterTree::prune` -/
def pruneLoop (t : FilterTree) : NodeIndex → List Bool → Partial FilterTree
  | _, [] => .ok t
  | .leaf _, _ :: _ => .ok t
  | .index index, bit :: bits => do
    match ← t.get index with
    | .branch is0 is1 =>
      if bit = false then
        match is1 with
        | .leaf _ => pruneLoop t is0 bits
        | .index i =>
          let t ← t.set index (.branch is0 .enumerate)
          freeNode t.fuel t (.index i)
      else
        match is0 with
        | .leaf _ => pruneLoop t is1 bits
        | .index i =>
          let t ← t.set index (.branch .enumerate is1)
          freeNode t.fuel t (.index i)
    | .ignore next => pruneLoop t next bits

/-- Source: `FilterTree::prune` -/
def prune (t : FilterTree) (instruction : Instruction) : Partial FilterTree :=
  pruneLoop t root instruction.bits

/-- The filter of all instructions that agree with `instr` except on the rightmost `i` bits; byte
`index` from the right keeps the mask `0xff << (i - 8 * index)`.
Source: `instr/tree.rs`, the filter built in `filter_below` and `filter_above` -/
def prefixFilter (instr : Instruction) (i : ℕ) : Partial InstructionFilter := do
  let data ← instr.bytes.reverse.zipIdx.mapM fun (b, index) =>
    let bitsToMask := i - index * 8
    ByteFilter.new (if bitsToMask < 8 then 0xff#8 <<< bitsToMask else 0) b
  InstructionFilter.new data.reverse

/-- One iteration of `filter_below`. -/
def filterBelowBit (below : Instruction) (t : FilterTree) (i : ℕ) : Partial FilterTree := do
  let cleared ← below.withNthBitFromRight i false
  let instr0 ← cleared.withRightmostBits i false
  let instr1 ← cleared.withRightmostBits i true
  if instr1 < below then t.filter (← prefixFilter instr0 i) else return t

/-- Source: `FilterTree::filter_below` -/
def filterBelow (t : FilterTree) (below : Instruction) : Partial FilterTree :=
  (List.range below.bitLen).foldlM (filterBelowBit below) t

/-- One iteration of `filter_above`. -/
def filterAboveBit (start : Instruction) (t : FilterTree) (i : ℕ) : Partial FilterTree := do
  let raised ← start.withNthBitFromRight i true
  let instr0 ← raised.withRightmostBits i false
  if start < instr0 then t.filter (← prefixFilter instr0 i) else return t

/-- Source: `FilterTree::filter_above` -/
def filterAbove (t : FilterTree) (start : Instruction) : Partial FilterTree :=
  (List.range start.bitLen).foldlM (filterAboveBit start) t

/-- A bit of the path is replaced and everything after its byte is cut off. -/
def rewritePath (path : Instruction) (bitIndex : ℕ) (bit : Bool) : Partial Instruction := do
  (← path.withNthBitFromLeft bitIndex bit).resize (bitIndex / 8 + 1) 0

/-- The path, extended by a byte when it ends before bit `bitIndex`. -/
def extendPath (path : Instruction) (bitIndex : ℕ) : Partial Instruction :=
  if bitIndex ≥ path.bitLen then path.extend else .ok path

/-- A zero bit of the path becomes one. -/
def raisePath (path : Instruction) (bitIndex : ℕ) : Partial Instruction := do
  if (← path.nthBitFromLeft bitIndex) = false then rewritePath path bitIndex true else return path

/-- The search below a child, made only if `follow` holds. -/
def searchIf (search : Instruction → Partial (Bool × Instruction)) (follow : Bool)
    (path : Instruction) : Partial (Bool × Instruction) :=
  if follow then search path else .ok (false, path)

/-- The end of the search at a node: the path of a failed search is reset. -/
def finishSearch (bitIndex : ℕ) : Bool × Instruction → Partial (Bool × Instruction)
  | (true, path) => .ok (true, path)
  | (false, path) => do return (false, ← rewritePath path bitIndex false)

/-- The search at a `Branch` node: below `is_0` if the path allows it, then below `is_1`. -/
def searchBranch (search0 search1 : Instruction → Partial (Bool × Instruction)) (bitIndex : ℕ)
    (path : Instruction) : Partial (Bool × Instruction) := do
  let path ← extendPath path bitIndex
  let bit ← path.nthBitFromLeft bitIndex
  match ← searchIf search0 (!bit) path with
  | (true, path) => return (true, path)
  | (false, path) =>
    let path ← raisePath path bitIndex
    finishSearch bitIndex (← search1 path)

/-- The search at an `Ignore` node: below `next` with the bit of the path, then with a one. -/
def searchIgnore (search : Instruction → Partial (Bool × Instruction)) (bitIndex : ℕ)
    (path : Instruction) : Partial (Bool × Instruction) := do
  let path ← extendPath path bitIndex
  match ← search path with
  | (true, path) => return (true, path)
  | (false, path) =>
    let bit ← path.nthBitFromLeft bitIndex
    finishSearch bitIndex
      (← searchIf (fun path => rewritePath path bitIndex true >>= search) (!bit) path)

/-- Searches from `node` at depth `bitIndex`; returns whether an unfiltered instruction was found
and the path as the search left it.
Source: `instr/tree.rs`, `FilterTree::find_next_internal` -/
def findNextInternal (t : FilterTree) :
    ℕ → NodeIndex → ℕ → Instruction → Partial (Bool × Instruction)
  | _, .leaf .enumerate, _, path => .ok (true, path)
  | _, .leaf .skip, bitIndex, path =>
    if bitIndex < path.bitLen then do
      return (false, ← path.withRightmostBits (path.bitLen - bitIndex) false)
    else .ok (false, path)
  | 0, .index _, _, _ => .error .outOfFuel
  | fuel + 1, .index index, bitIndex, path => do
    match ← t.get index with
    | .branch is0 is1 =>
      searchBranch (findNextInternal t fuel is0 (bitIndex + 1))
        (findNextInternal t fuel is1 (bitIndex + 1)) bitIndex path
    | .ignore next => searchIgnore (findNextInternal t fuel next (bitIndex + 1)) bitIndex path

/-- Source: `FilterTree::find_next` -/
def findNext (t : FilterTree) (instr : Instruction) : Partial (Option Instruction) := do
  let (found, next) ← findNextInternal t t.fuel root 0 instr
  return if found then some next else none

/-- The answer of `covers_internal` at a leaf, and `go` at an inner node. -/
def coversChild (go : ℕ → Partial Bool) : NodeIndex → Partial Bool
  | .leaf .enumerate => .ok false
  | .leaf .skip => .ok true
  | .index index => go index

/-- The loop of `covers_internal` with `rest` bits of the filter left, at bit `n` and node `cur`.
Source: `instr/tree.rs`, `FilterTree::covers_internal` -/
def coversLoop (t : FilterTree) (filter : InstructionFilter) :
    (rest : ℕ) → (n : ℕ) → (cur : ℕ) → Partial Bool
  | 0, _, _ => .ok false
  | rest + 1, n, cur => do
    let bit ← filter.nthBitFromLeft n
    match ← t.get cur, bit with
    | .branch is0 _, .is0 => coversChild (coversLoop t filter rest (n + 1)) is0
    | .branch _ is1, .is1 => coversChild (coversLoop t filter rest (n + 1)) is1
    | .branch (.leaf .enumerate) _, .wildcard => return false
    | .branch (.leaf .skip) _, .wildcard => return true
    | .branch (.index index) is1, .wildcard =>
      if ← coversLoop t filter rest (n + 1) index then
        coversChild (coversLoop t filter rest (n + 1)) is1
      else return false
    | .ignore next, _ => coversChild (coversLoop t filter rest (n + 1)) next

/-- Source: `FilterTree::covers` -/
def covers (t : FilterTree) (filter : InstructionFilter) : Partial Bool := do
  let realLen ← realLen filter
  coversLoop t filter realLen 0 0

/-! ## Sequences of calls -/

/-- A call that changes the tree. -/
inductive Call where
  | filter (f : InstructionFilter)
  | prune (instr : Instruction)
  | filterBelow (below : Instruction)
  | filterAbove (start : Instruction)
deriving DecidableEq

/-- The tree after one call. -/
def call (t : FilterTree) : Call → Partial FilterTree
  | .filter f => t.filter f
  | .prune instr => t.prune instr
  | .filterBelow below => t.filterBelow below
  | .filterAbove start => t.filterAbove start

/-- The tree after a sequence of calls on a new tree. -/
def run (calls : List Call) : Partial FilterTree := calls.foldlM call new

end FilterTree

end LibLisa
