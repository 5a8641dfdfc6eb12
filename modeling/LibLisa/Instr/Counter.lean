import LibLisa.Instr.Tree

/-!
# The instruction counter

The model of `instr/counter.rs` and of the two queries of `instr/set.rs` that it uses. A counter
is a position in instruction space: a buffer of 32 bytes of which the first `len` are the current
instruction, the byte that is counted next (`tunnel_pos`), and an optional end.

`apply_filters_to_current` loops until no filter matches. Its loop carries a counter; the
`while` loops inside are bounded by what they use up: the buffer, and the nodes of the tree.
Arithmetic is checked, as in a debug build of the source.

Where no file is given, the source is `instr/counter.rs`.
-/

namespace LibLisa

open Lib

/-- Source: `instr/set.rs`, `FilterList` -/
structure FilterList where
  filters : Filters

namespace FilterList

/-- Source: `instr/set.rs`, `FilterList::should_extend` -/
def shouldExtend (l : FilterList) (instr : Instruction) : Bool :=
  l.filters.any fun f => decide (instr.byteLen < f.len) && f.matchesSmallerInstrPartially instr

/-- Source: `instr/set.rs`, `FilterList::matching_filter` -/
def matchingFilter (l : FilterList) (instr : Instruction) : Option InstructionFilter :=
  l.filters.reverse.find? fun f =>
    f.matches instr && (f.data.drop instr.byteLen).all fun bf => bf.mask == 0

end FilterList

/-- Source: `InstructionCounter` -/
structure InstructionCounter where
  data : Vector U8 32
  len : ℕ
  /-- The field `end`. -/
  endInstr : Option Instruction
  tunnelPos : ℕ
  numTunneled : ℕ
deriving DecidableEq

namespace InstructionCounter

/-- The buffer with its first bytes replaced: `data[0..bytes.len()].copy_from_slice(bytes)`. -/
def copyBytes (data : Vector U8 32) (bytes : List U8) : Vector U8 32 :=
  Vector.ofFn fun i => bytes.getD i.val data[i]

/-- Source: `InstructionCounter::current` -/
def current (c : InstructionCounter) : Partial Instruction :=
  if c.len ≤ 32 then Instruction.new (c.data.toList.take c.len) else .error .indexOutOfBounds

/-- Source: `InstructionCounter::set_current` -/
def setCurrent (c : InstructionCounter) (instr : Instruction) : Partial InstructionCounter :=
  if instr.byteLen = 0 then .error .arithmeticOverflow
  else .ok { c with
    data := copyBytes c.data instr.bytes
    len := instr.byteLen
    tunnelPos := instr.byteLen - 1 }

/-- Source: `InstructionCounter::range` -/
def range (start : Instruction) (endInstr : Option Instruction) : Partial InstructionCounter :=
  if start.byteLen = 0 then .error .arithmeticOverflow
  else .ok {
    data := copyBytes (.replicate 32 0) start.bytes
    len := start.byteLen
    endInstr := endInstr
    tunnelPos := start.byteLen - 1
    numTunneled := 0 }

/-- Source: `InstructionCounter::extend_internal` -/
def extendInternal (c : InstructionCounter) (fastTunnel : Bool) : Partial InstructionCounter :=
  if c.len < 32 then
    .ok { c with
      data := c.data.setIfInBounds c.len 0
      len := c.len + 1
      tunnelPos := if fastTunnel then c.tunnelPos else c.len
      numTunneled := if fastTunnel then c.numTunneled else 0 }
  else .error .indexOutOfBounds

/-- Adds one to the byte at `pos`, with a carry to the left. Returns the buffer and the byte that
the carry stopped at, or nothing if it ran off the first byte. -/
def increment : ℕ → Vector U8 32 → Partial (Option (Vector U8 32 × ℕ))
  | pos, data =>
    match data[pos]? with
    | none => .error .indexOutOfBounds
    | some v =>
      if v ≠ 0xff then .ok (some (data.setIfInBounds pos (v + 1), pos))
      else
        match pos with
        | 0 => .ok none
        | pos + 1 => increment pos (data.setIfInBounds (pos + 1) 0)

/-- Source: `InstructionCounter::next_single` -/
def nextSingle (c : InstructionCounter) : Partial (Bool × InstructionCounter) := do
  match ← increment c.tunnelPos c.data with
  | none => return (false, { c with data := .replicate 32 0xff, tunnelPos := 0 })
  | some (data, pos) =>
    let c := { c with data := data, tunnelPos := pos }
    match c.endInstr with
    | some e => return (decide ((← c.current) ≤ e), c)
    | none => return (true, c)

/-! ## Applying filters -/

/-- `while filters.should_extend(&self.current()) { self.extend_internal(false) }`, with `n` bytes
of the buffer left. -/
def extendWhile (filters : FilterList) : ℕ → InstructionCounter → Partial InstructionCounter
  | n, c => do
    if filters.shouldExtend (← c.current) then
      match n with
      | 0 => throw .indexOutOfBounds
      | n + 1 => extendWhile filters n (← c.extendInternal false)
    else return c

/-- The extension at the start of a round, left out after a reduction. -/
def extendUnless (wasReducedLast : Bool) (filters : FilterList) (c : InstructionCounter) :
    Partial InstructionCounter :=
  if wasReducedLast then .ok c else extendWhile filters (32 - c.len) c

/-- `if let Some(ref end) = self.end { tree.filter_above(end) }` -/
def filterEnd (endInstr : Option Instruction) (t : FilterTree) : Partial FilterTree :=
  match endInstr with
  | some e => t.filterAbove e
  | none => .ok t

/-- `while tree.len() >= 0x100_0000 { tree.prune(&self.current()) }`. A call of `prune` removes a
node or changes nothing, so a bound of `tree.len()` rounds is only reached by a loop that does not
end. -/
def pruneWhile (instr : Instruction) : ℕ → FilterTree → Partial FilterTree
  | n, t =>
    if t.len ≥ 0x1000000 then
      match n with
      | 0 => .error .outOfFuel
      | n + 1 => t.prune instr >>= pruneWhile instr n
    else .ok t

/-- The tree of this round: a new one in the first round, a smaller one if it has grown too big. -/
def roundTree (endInstr : Option Instruction) (instr : Instruction) (tree : Option FilterTree) :
    Partial FilterTree := do
  let t ← match tree with
    | some t => .ok t
    | none => filterEnd endInstr FilterTree.new
  if t.len ≥ 0x1000000 then filterEnd endInstr (← pruneWhile instr t.len t) else return t

/-- A round in which `f` matches the current instruction: moves to the next instruction that the
tree does not filter, if there is one. -/
def skipFilter (c : InstructionCounter) (f : InstructionFilter) (tree : Option FilterTree) :
    Partial (Option (InstructionCounter × FilterTree)) := do
  let current ← c.current
  let t ← roundTree c.endInstr current tree
  let t ← t.filter f
  match ← t.findNext current with
  | some next =>
    let t ← t.filterBelow current
    let c ← c.setCurrent next
    return some (c, t)
  | none => return none

/-- The current instruction is past the end: `self.current() > end`. -/
def pastEnd (endInstr : Option Instruction) (current : Instruction) : Bool :=
  match endInstr with
  | some e => decide (e < current)
  | none => false

/-- The loop of `apply_filters_to_current`. -/
def applyLoop (filters : FilterList) :
    ℕ → Bool → Option FilterTree → InstructionCounter → Partial (Bool × InstructionCounter)
  | 0, _, _, _ => .error .outOfFuel
  | fuel + 1, wasReducedLast, tree, c => do
    let c ← extendUnless wasReducedLast filters c
    let current ← c.current
    match filters.matchingFilter current with
    | some f =>
      match ← c.skipFilter f tree with
      | some (c, t) => applyLoop filters fuel false (some t) c
      | none => return (false, c)
    | none => return (!pastEnd c.endInstr current, c)

/-- Source: `InstructionCounter::apply_filters_to_current` -/
def applyFiltersToCurrent (fuel : ℕ) (c : InstructionCounter) (filters : FilterList)
    (wasReducedLast : Bool) : Partial (Bool × InstructionCounter) :=
  if c.data.toList.all (· == 0xff) then .ok (false, c)
  else applyLoop filters fuel wasReducedLast none c

/-! ## Moving on -/

/-- Source: `InstructionCounter::extend` -/
def extend (fuel : ℕ) (c : InstructionCounter) (filters : FilterList) (fastTunnel : Bool) :
    Partial (Bool × InstructionCounter) := do
  let c ← c.extendInternal fastTunnel
  c.applyFiltersToCurrent fuel filters false

/-- The tunnel position after a reduction. -/
def reduceTunnelPos (c : InstructionCounter) (fastTunnel : Bool) : Partial InstructionCounter :=
  if !fastTunnel || c.tunnelPos ≥ c.len then
    if c.len = 0 then .error .arithmeticOverflow
    else .ok { c with tunnelPos := c.len - 1, numTunneled := 0 }
  else .ok c

/-- Source: `InstructionCounter::reduce` -/
def reduce (fuel : ℕ) (c : InstructionCounter) (filters : FilterList) (fastTunnel : Bool) :
    Partial (Bool × InstructionCounter) := do
  if c.len = 0 then throw .arithmeticOverflow
  if c.len > 32 then throw .indexOutOfBounds
  let c := { c with data := c.data.setIfInBounds (c.len - 1) 0, len := c.len - 1 }
  let c ← c.reduceTunnelPos fastTunnel
  c.applyFiltersToCurrent fuel filters true

/-- Counts the call; while few bytes have been counted, and when the instruction has become
shorter, the last byte is the one to count. -/
def startTunnel (c : InstructionCounter) (tunnelDelay : ℕ) : Partial InstructionCounter :=
  if c.numTunneled + 1 ≥ 2 ^ 64 then .error .arithmeticOverflow
  else if c.numTunneled + 1 < tunnelDelay ∨ c.tunnelPos ≥ c.len then
    if c.len = 0 then .error .arithmeticOverflow
    else .ok { c with numTunneled := c.numTunneled + 1, tunnelPos := c.len - 1 }
  else .ok { c with numTunneled := c.numTunneled + 1 }

/-- While few bytes have been counted, the instruction ends at the counted byte. -/
def cutAtTunnelPos (c : InstructionCounter) (tunnelDelay : ℕ) : InstructionCounter :=
  if c.numTunneled < tunnelDelay then { c with len := c.tunnelPos + 1 } else c

/-- Source: `InstructionCounter::tunnel_next` -/
def tunnelNext (fuel : ℕ) (c : InstructionCounter) (filters : FilterList) (tunnelDelay : ℕ) :
    Partial (Bool × InstructionCounter) := do
  let c ← c.startTunnel tunnelDelay
  match ← c.nextSingle with
  | (false, c) => return (false, c)
  | (true, c) => (c.cutAtTunnelPos tunnelDelay).applyFiltersToCurrent fuel filters false

/-- Source: `InstructionCounter::tunnel_next_ignore_filters` -/
def tunnelNextIgnoreFilters (c : InstructionCounter) : Partial (Bool × InstructionCounter) :=
  c.nextSingle

end InstructionCounter

end LibLisa
