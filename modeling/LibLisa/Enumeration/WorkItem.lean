import LibLisa.Instr.Counter

/-!
# Work items of the enumeration

The model of `EnumWorkItem` in `threadpool/enumeration.rs`: one range of instruction space, with
the counter that walks it in sequence and at most one pending instruction out of sequence (`next`).
`next_instruction` hands out what to analyse, `complete` takes the result.

An encoding is used only through its filters and its suggested instruction, so the model leaves
its type open (`EncodingLike`). The running times, `stalled_by` and `from` play no role here.

Where no file is given, the source is `threadpool/enumeration.rs`.
-/

namespace LibLisa

/-- What the enumeration reads of an encoding. -/
class EncodingLike (E : Type) where
  /-- Source: `encoding/mod.rs`, `Encoding::filters` -/
  filters : E → Filters
  /-- Source: `encoding/mod.rs`, `Encoding::best_instr` -/
  bestInstr : E → Option Instruction

/-- Source: `liblisa-enc/src/lib.rs`, `AnalysisResult` -/
inductive AnalysisResult (E : Type) where
  | ok (encoding : E)
  | skipInvalidUntil (counter : InstructionCounter) (done : Bool)
  | skipMemoryErrorUntil (counter : InstructionCounter) (done : Bool)
  | skipError
  | tooShort
  | tooLong

/-- Source: `EnumerationArtifactData` -/
inductive EnumerationArtifactData (E : Type) where
  | encoding (encoding : E)
  | failed (instr : Instruction)
  | excluded (instr : Instruction)
  | invalidInstructions (start stop : Instruction)
  | memoryErrorInstructions (start stop : Instruction)

/-- Source: `EnumWorkItem` -/
structure EnumWorkItem where
  counter : InstructionCounter
  toInstr : Option Instruction
  uniqueSequences : ℕ
  encodingsFound : ℕ
  next : Option Instruction
  fastTunnel : Bool
  lastInstructions : List Instruction
  done : Bool
  numErrors : ℕ

/-! ## What to analyse next -/

/-- The only bit that moved from a zero into the next position on the left, if there is exactly
one. -/
def changedBit (before after : Instruction) : Partial (Option ℕ) :=
  if before.bitLen = after.bitLen then
    if before.bitLen = 0 then .error .arithmeticOverflow
    else do
      let changes ← (List.range (before.bitLen - 1)).filterM fun index => do
        return (← before.nthBitFromRight index) && !(← after.nthBitFromRight index) &&
          !(← before.nthBitFromRight (index + 1)) && (← after.nthBitFromRight (index + 1))
      match changes with
      | [index] => return some index
      | _ => return none
  else .ok none

/-- The changed bits of the windows from the end, as long as each is one to the right of the one
before. -/
def changedBitIndices : List (Instruction × Instruction) → Option ℕ → Partial (List ℕ)
  | [], _ => .ok []
  | (before, after) :: windows, last => do
    match ← changedBit before after, last with
    | some index, none => return index :: (← changedBitIndices windows (some index))
    | some index, some lastIndex =>
      if index + 1 = lastIndex then return index :: (← changedBitIndices windows (some index))
      else return []
    | none, _ => return []

/-- Source: `bust_single_bit_set_pattern` -/
def bustSingleBitSetPattern (lastInstructions : List Instruction) : Partial (Option Instruction) :=
  if lastInstructions.length < 3 then .ok none
  else do
    let sorted := lastInstructions.mergeSort fun x y => decide (x ≤ y)
    let indices ← changedBitIndices (sorted.zip sorted.tail).reverse none
    match sorted.getLast? with
    | some instr =>
      if indices.length ≥ 2 then
        return some (← indices.foldlM (fun instr index => instr.withNthBitFromRight index true) instr)
      else return none
    | none => return none

namespace EnumWorkItem

/-- The counter that stands for a single instruction. -/
def single (instr : Instruction) : Partial InstructionCounter :=
  InstructionCounter.range instr (some instr)

/-- Source: `EnumWorkItem::next_instruction` -/
def nextInstruction (item : EnumWorkItem) : Partial (Option InstructionCounter) :=
  if item.done then
    match item.next with
    | some instr => some <$> single instr
    | none => .ok none
  else do
    match ← bustSingleBitSetPattern item.lastInstructions with
    | some instr => some <$> single instr
    | none =>
      match item.next with
      | some instr => some <$> single instr
      | none => return some item.counter

/-! ## Taking a result -/

/-- The last eight instructions. -/
def remember (item : EnumWorkItem) (instruction : Instruction) : EnumWorkItem :=
  let all := item.lastInstructions ++ [instruction]
  { item with lastInstructions := all.drop (all.length - 8) }

/-- `self.done = !more`, with the counter as the call left it. -/
def moved (item : EnumWorkItem) (r : Bool × InstructionCounter) : EnumWorkItem :=
  { item with counter := r.2, done := !r.1 }

/-- The counter of a result replaces the one of the item if it has the same end. -/
def resume (item : EnumWorkItem) (counter : InstructionCounter) : InstructionCounter :=
  if counter.endInstr = item.counter.endInstr then { counter with endInstr := item.toInstr }
  else item.counter

/-- `self.done = done || !self.counter.apply_filters_to_current(filters, false)` after the counter
has been replaced; the filters are not applied if `done` is set. -/
def skipUntil (fuel : ℕ) (item : EnumWorkItem) (filters : FilterList) (counter : InstructionCounter)
    (done : Bool) : Partial EnumWorkItem :=
  if done then .ok { item with counter := item.resume counter, done := true }
  else item.moved <$> (item.resume counter).applyFiltersToCurrent fuel filters false

/-- The counter moves on after an error, past the filters once there have been too many. -/
def tunnelError (fuel : ℕ) (item : EnumWorkItem) (filters : FilterList) :
    Partial (Bool × InstructionCounter) :=
  if item.numErrors ≥ 500000 then item.counter.tunnelNextIgnoreFilters
  else item.counter.tunnelNext fuel filters 200

variable {E : Type} [EncodingLike E]

/-- The suggestion of an encoding becomes the pending instruction, unless it was seen before. -/
def suggest (item : EnumWorkItem) (seen : Finset Instruction) (encoding : E) :
    EnumWorkItem × Finset Instruction :=
  match EncodingLike.bestInstr encoding with
  | some instr =>
    if instr ∈ seen then (item, seen) else ({ item with next := some instr }, insert instr seen)
  | none => (item, seen)

/-- The sequences that the filters of an encoding stand for. -/
def countSequences (item : EnumWorkItem) (encoding : E) : EnumWorkItem :=
  { item with
    uniqueSequences := (EncodingLike.filters encoding).foldl
      (fun n f => n + 2 ^ f.numWildcardBits) item.uniqueSequences }

/-- The part of `complete` after the pending instruction has been looked at; `wasNext` says that
the result belongs to it. -/
def completeResult (fuel : ℕ) (item : EnumWorkItem) (instruction : Instruction)
    (filters : FilterList) (seen : Finset Instruction) (wasNext : Bool) :
    AnalysisResult E →
      Partial (EnumWorkItem × Finset Instruction × Option (EnumerationArtifactData E))
  | .ok encoding => do
    let item := { item with encodingsFound := item.encodingsFound + 1 }
    let (item, seen) := if wasNext then (item, seen) else item.suggest seen encoding
    let item := item.countSequences encoding
    let r ← item.counter.applyFiltersToCurrent fuel filters false
    return (item.moved r, seen, some (.encoding encoding))
  | .tooShort =>
    if wasNext then .ok (item, seen, none)
    else do
      let r ← item.counter.extend fuel filters item.fastTunnel
      return (item.moved r, seen, none)
  | .tooLong =>
    if wasNext then .ok (item, seen, none)
    else do
      let r ← item.counter.reduce fuel filters item.fastTunnel
      return (item.moved r, seen, none)
  | .skipInvalidUntil counter done => do
    let nextInstr ← counter.current
    let item := { item with numErrors := 0, fastTunnel := false }
    let item ← item.skipUntil fuel filters counter done
    return (item, seen, some (.invalidInstructions instruction nextInstr))
  | .skipMemoryErrorUntil counter done => do
    let nextInstr ← counter.current
    let item := { item with numErrors := 0 }
    let item ← item.skipUntil fuel filters counter done
    return (item, seen, some (.memoryErrorInstructions instruction nextInstr))
  | .skipError => do
    let item := { item with numErrors := item.numErrors + 1, fastTunnel := true }
    if item.next.isNone then
      let r ← item.tunnelError fuel filters
      return (item.moved r, seen, some (.failed instruction))
    else return ({ item with next := none }, seen, some (.failed instruction))

/-- Source: `EnumWorkItem::complete` -/
def complete (fuel : ℕ) (item : EnumWorkItem) (instruction : Instruction) (filters : FilterList)
    (seen : Finset Instruction) (result : AnalysisResult E) :
    Partial (EnumWorkItem × Finset Instruction × Option (EnumerationArtifactData E)) :=
  let item := item.remember instruction
  if item.next = some instruction then
    completeResult fuel { item with next := none } instruction filters seen true result
  else completeResult fuel item instruction filters seen false result

end EnumWorkItem

end LibLisa
