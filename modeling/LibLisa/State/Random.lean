import LibLisa.State.System
import LibLisa.Lib.Yields

/-!
# Random state generation

`StateGen` makes system states in which every memory access can be mapped, and adapts the mappings
of a state after its registers have changed.

The random source is the list of the values it yields, one `u64` for each value that is drawn. A
value of a smaller range is the remainder, so that every value of the range can be drawn. A loop
that draws until it has an acceptable value ends with `outOfFuel` when the list is used up.

Where no file is given, the source is `random/mod.rs`.
-/

namespace LibLisa.State

open Lib Encoding Semantics

/-! ## The random source -/

/-- A computation that draws from a random source. -/
abbrev Gen (α : Type) := StateT (List U64) (Except Abort) α

/-- The next value, for `rng.gen()` and `randomized_value(rng)`. -/
def draw : Gen U64
  | [] => .error .outOfFuel
  | v :: source => .ok (v, source)

/-- The first value that is accepted. -/
def drawUntil (accept : U64 → Bool) : Gen U64
  | [] => .error .outOfFuel
  | v :: source => if accept v then .ok (v, source) else drawUntil accept source

/-- `rng.gen_range(low..high)` -/
def genRange (low high : U64) : Gen U64 := do
  if low < high then return low + (← draw) % (high - low) else throw .assertionFailed

/-- Source: `random/value.rs`, `randomized_bytes` -/
def randomizedBytes (n : ℕ) : Gen (List U8) :=
  (List.replicate n ()).mapM fun _ => do return (← draw).setWidth 8

/-! ## Constraints -/

/-- Source: `RandomizationError` -/
inductive RandomizationError where
  | randomStateSynthesisFailed
  | unmappableFixedOffset (index : ℕ)
  | unsatisfiable (index : ℕ)
deriving DecidableEq, Repr

/-- Source: `Constraint` -/
inductive Constraint where
  | none
  | impossible
  | pageRegion (minOffset maxOffset : U64)
deriving DecidableEq, Repr

/-- A signed result of the source, which panics if it overflows. -/
def asI64 (n : ℤ) : Partial U64 :=
  if -2 ^ 63 ≤ n ∧ n < 2 ^ 63 then .ok (BitVec.ofInt 64 n) else .error .arithmeticOverflow

section constantOffset

variable {R : Type} [DecidableEq R]

/-- The first loop of `constant_offset_considering_inputs`: the offset so far and the indices of the
other inputs that were matched, or `none` if the offset is not constant. -/
def matchTerms (other : AddressComputation) (otherInputs : List (Source R)) :
    List (AddrTerm × Source R) → U64 → List ℕ → Partial (Option (U64 × List ℕ))
  | [], result, used => .ok (some (result, used))
  | (term, input) :: rest, result, used =>
    match input with
    | .const value _ => do
      matchTerms other otherInputs rest (← asI64 (result.toInt - value.toInt)) used
    | input =>
      match otherInputs.findIdx? (· == input) with
      | some index => do
        let otherTerm ← orPanic .indexOutOfBounds other.terms.toList[index]?
        if term = otherTerm then matchTerms other otherInputs rest result (index :: used)
        else return none
      | none => .ok none

/-- The second loop of `constant_offset_considering_inputs`, over the inputs that were not
matched. -/
def addUnmatched (used : List ℕ) :
    List (Source R × ℕ) → U64 → Partial (Option U64)
  | [], result => .ok (some result)
  | (input, index) :: rest, result =>
    if 4 ≤ index then .error .indexOutOfBounds
    else if index ∈ used then addUnmatched used rest result
    else match input with
      | .const value _ => do addUnmatched used rest (← asI64 (result.toInt + value.toInt))
      | _ => .ok none

/-- Source: `address_computation.rs`, `AddressComputation::constant_offset_considering_inputs` -/
def constantOffsetConsideringInputs (self : AddressComputation) (inputs : List (Source R))
    (other : AddressComputation) (otherInputs : List (Source R)) :
    Partial (Option U64) := do
  match ← matchTerms other otherInputs (self.terms.toList.zip inputs)
      (other.offset - self.offset) [] with
  | none => return none
  | some (result, used) => addUnmatched used otherInputs.zipIdx result

end constantOffset

section constraints

variable {A : Arch}

/-- What another access at a constant offset means for the offset in the page: the new bounds, and
whether the accesses always overlap. -/
def considerOther (m other : MemoryAccess A.Reg) (offset minOffset maxOffset : U64) :
    Partial (U64 × U64 × Bool) := do
  let ps := pageSize A.pageBits
  let pm := ps - 1
  let executable := m.kind = .executable ∨ other.kind = .executable
  if offset = 0 then return (minOffset, maxOffset, true)
  else if offset.slt 0 then
    let absOffset ← asI64 (-offset.toInt)
    let pageOffset := absOffset &&& pm
    let (minOffset, maxOffset) ←
      if absOffset < ps then
        pure (if executable then (ps - pageOffset, maxOffset) else (minOffset, maxOffset))
      else if absOffset = ps then do
        pure (minOffset, ← subU64 ps (if m.size.2 < other.size.2 then other.size.2 else m.size.2))
      else pure (minOffset, maxOffset)
    return (minOffset, maxOffset, BitVec.slt 0 (← asI64 (offset.toInt + m.size.2.toInt)))
  else
    let pageOffset := offset &&& pm
    let (minOffset, maxOffset) ←
      if offset < ps then
        pure (if executable then (minOffset, (pageOffset - other.size.2) &&& pm)
          else (minOffset, maxOffset))
      else if offset = ps then do
        pure (minOffset, ← subU64 ps (if m.size.2 < other.size.2 then other.size.2 else m.size.2))
      else pure (minOffset, maxOffset)
    return (minOffset, maxOffset, decide (offset < other.size.2))

/-- The loop over the other accesses: the bounds of the offset in the page, or `none` if the access
overlaps with another one. -/
def boundsLoop (m : MemoryAccess A.Reg) (index : ℕ) :
    List (MemoryAccess A.Reg × ℕ) → U64 → U64 →
    Partial (Option (U64 × U64))
  | [], minOffset, maxOffset => .ok (some (minOffset, maxOffset))
  | (other, otherIndex) :: rest, minOffset, maxOffset =>
    if otherIndex = index then boundsLoop m index rest minOffset maxOffset
    else do
      match ← constantOffsetConsideringInputs other.calculation other.inputs m.calculation
          m.inputs with
      | none => boundsLoop m index rest minOffset maxOffset
      | some offset => do
        let (minOffset, maxOffset, overlapping) ← considerOther m other offset minOffset maxOffset
        if overlapping then return none else boundsLoop m index rest minOffset maxOffset

/-- The constraint on one access, in `StateGen::new`. -/
def constraintOf (canMap : U64 → Bool) (memory : List (MemoryAccess A.Reg))
    (m : MemoryAccess A.Reg) (index : ℕ) : Partial Constraint := do
  if m.inputs.isEmpty && !canMap m.calculation.offset then return .impossible
  else
    let most ← subU64 (pageSize A.pageBits) m.size.2
    match ← boundsLoop m index memory.zipIdx 0 most with
    | none => return .impossible
    | some (minOffset, maxOffset) =>
      if ¬ minOffset ≤ maxOffset ∨ ¬ maxOffset ≤ 4096 then .error .assertionFailed
      else if most < minOffset then return .impossible
      else return .pageRegion minOffset maxOffset

end constraints

/-- Source: `StateGen`, without the counter of failures and the bitmap of the
address registers -/
structure StateGen (A : Arch) where
  accesses : MemoryAccesses A.Reg
  canMap : U64 → Bool
  constraints : List Constraint
  addressRegisters : List A.GpReg

namespace StateGen

variable {A : Arch}

/-- The register of an input, in `StateGen::new`. -/
def inputRegister : Source A.Reg → Partial (Option A.Reg)
  | .dest (.reg reg _) => .ok (some reg)
  | .const _ _ | .imm _ => .ok none
  | .dest (.mem _ _) => .error .explicitPanic

/-- The access has a fixed address and always crosses a page boundary. -/
def fixedAddrCrosses (access : MemoryAccess A.Reg) : Partial Bool := do
  if hasFixedAddr access then
    Area.crossesPageBounds A.pageBits ⟨← computeFixedAddr access, access.size.2⟩
  else return false

/-- The first access that has a fixed address and always crosses a page boundary. -/
def findCrossing : List (MemoryAccess A.Reg × ℕ) → Partial (Option ℕ)
  | [] => .ok none
  | (access, index) :: rest => do
    if ← fixedAddrCrosses access then return some index else findCrossing rest

/-- The registers that addresses are computed from, in `StateGen::new`. -/
def addressRegistersOf (accesses : MemoryAccesses A.Reg) : Partial (List A.GpReg) := do
  let inputs ← (accesses.memory.flatMap (·.inputs)).mapM inputRegister
  let registers ← ((inputs.filterMap id).filter fun reg => !A.isZero reg).mapM fun reg =>
    orPanic .assertionFailed (A.tryRegToGpreg reg)
  return ((registers ++ A.iterGpregs.filter A.isAddrGpreg).mergeSort A.gpregLe).eraseReps

/-- Source: `StateGen::new` -/
def new (accesses : MemoryAccesses A.Reg) (canMap : U64 → Bool) :
    Partial (Except RandomizationError (StateGen A)) := do
  let constraints ← accesses.memory.zipIdx.mapM fun (m, index) =>
    constraintOf canMap accesses.memory m index
  match constraints.findIdx? (· == .impossible) with
  | some index => return .error (.unsatisfiable index)
  | none => do
    match ← findCrossing accesses.memory.zipIdx with
    | some index => return .error (.unsatisfiable index)
    | none => return .ok ⟨accesses, canMap, constraints, ← addressRegistersOf accesses⟩

/-! ## Checking and adapting addresses -/

/-- Source: `StateGen::perms_compatible` -/
def permsCompatible : Permissions → Permissions → Bool
  | .read, .read | .execute, .read | .read, .execute | .readWrite, .readWrite
  | .execute, .execute => true
  | _, _ => false

/-- The area of an access does not conflict with the one of another access. -/
def noConflict (area : Area) (perms : Permissions) (e : MemoryEntry) (other : MemoryAccess A.Reg) :
    Partial Bool := do
  let otherArea : Area := ⟨e.addr, other.size.2⟩
  if permsCompatible perms e.perms then return !(← area.overlapsWith otherArea)
  else return !(← area.sharesPageWith A.pageBits otherArea)

/-- Source: `StateGen::is_always_bad_addr` -/
def isAlwaysBadAddr (g : StateGen A) (memory : List MemoryEntry) (access : MemoryAccess A.Reg)
    (addr : U64) (perms : Permissions) : Partial Bool := do
  let area : Area := ⟨addr, access.size.2⟩
  if !g.canMap addr then return true
  else if ← area.crossesPageBounds A.pageBits then return true
  else
    let rec loop : List (MemoryEntry × MemoryAccess A.Reg) → Partial Bool
      | [] => .ok false
      | (e, other) :: rest => do
        if !hasFixedAddr other then loop rest
        else if ← noConflict area perms e other then loop rest
        else return true
    loop (memory.zip g.accesses.memory)

/-- The loop of `good_addr` over the entries before. -/
def noConflicts (area : Area) (perms : Permissions) :
    List (MemoryEntry × MemoryAccess A.Reg) → Partial Bool
  | [] => .ok true
  | (e, other) :: rest => do
    if ← noConflict area perms e other then noConflicts area perms rest else return false

/-- Source: `StateGen::good_addr`, for the entries before the one at `index` -/
def goodAddr (g : StateGen A) (memory : List MemoryEntry) (index : ℕ)
    (access : MemoryAccess A.Reg) (addr : U64) (perms : Permissions) : Partial Bool := do
  let area : Area := ⟨addr, access.size.2⟩
  if !g.canMap addr then return false
  else if ← area.crossesPageBounds A.pageBits then return false
  else noConflicts area perms ((memory.take index).zip (g.accesses.memory.take index))

/-- Whether the address is a multiple of the alignment of the access. -/
def isAligned (access : MemoryAccess A.Reg) (addr : U64) : Partial Bool :=
  if access.alignment = 0 then .error .arithmeticOverflow
  else .ok (addr.toNat % access.alignment == 0)

/-- Crops the data of an entry to the size of the access, except for the instruction itself. -/
def crop (s : SystemState A) (index : ℕ) (access : MemoryAccess A.Reg) : Partial (SystemState A) :=
  if index = 0 then .ok s else s.cropData index access.size.2.toNat

/-- The condition of `adapt_up_to_len`: the entry did not move, or its new address is good. -/
def acceptsAddr (g : StateGen A) (allEq : Bool) (memory : List MemoryEntry) (index : ℕ)
    (access : MemoryAccess A.Reg) (e : MemoryEntry) (newAddr : U64) : Partial Bool :=
  if allEq && newAddr == e.addr then .ok true
  else g.goodAddr memory index access newAddr e.perms

/-- Sets the address of an entry if it is a new one. -/
def moveEntry (s : SystemState A) (index : ℕ) (e : MemoryEntry) (newAddr : U64) :
    Partial (SystemState A) :=
  if e.addr = newAddr then .ok s else s.setAddr index newAddr

/-- The main loop of `adapt_up_to_len`: whether all addresses could be adapted. -/
def adaptLoop (g : StateGen A) :
    List (MemoryAccess A.Reg × ℕ) → Bool → SystemState A → Partial (Bool × SystemState A)
  | [], _, s => .ok (true, s)
  | (access, index) :: rest, allEq, s => do
    let newAddr ← computeAddress access s.cpu
    let e ← s.entry index
    if ← g.acceptsAddr allEq s.memory index access e newAddr then do
      let s ← moveEntry s index e newAddr
      if ← isAligned access newAddr then do
        let s ← crop s index access
        adaptLoop g rest (allEq && e.addr == newAddr) s
      else return (false, s)
    else return (false, { s with containsValidAddrs := false })

/-- The second loop of `adapt_up_to_len`, which crops the data once more. -/
def cropLoop : List (MemoryAccess A.Reg × ℕ) → SystemState A → Partial (SystemState A)
  | [], s => .ok s
  | (access, index) :: rest, s => do cropLoop rest (← crop s index access)

/-- Sets the flag if all entries were adapted. -/
def markValid (s : SystemState A) (len : ℕ) : SystemState A :=
  if len = s.memory.length then { s with containsValidAddrs := true } else s

/-- Source: `StateGen::adapt_up_to_len` -/
def adaptUpToLen (g : StateGen A) (s : SystemState A) (changedInstr : Bool) (len : ℕ) :
    Partial (Bool × SystemState A) := do
  if !(A.iterGpregs.filter A.isAddrGpreg).all (fun reg => g.canMap (A.gpreg s.cpu reg)) then
    return (false, s)
  else
    let accesses := g.accesses.memory.zipIdx.take len
    let (adapted, s) ← g.adaptLoop accesses (s.containsValidAddrs && !changedInstr) s
    if adapted then do
      let s ← cropLoop accesses s
      let s := markValid s len
      if (s.memory.take len).all (fun e => g.canMap e.addr) then return (true, s)
      else .error .assertionFailed
    else return (false, s)

/-- Source: `StateGen::adapt` -/
def adapt (g : StateGen A) (s : SystemState A) (changedInstr : Bool) :
    Partial (Bool × SystemState A) :=
  let s := if g.accesses.useTrapFlag then { s with useTrapFlag := true } else s
  g.adaptUpToLen s changedInstr s.memory.length

/-! ## Random registers -/

/-- A page of which the first and the last address can be mapped. -/
def drawPage (g : StateGen A) : Gen Page := do
  let v ← drawUntil fun v =>
    let page := Page.ofAddr A.pageBits v
    g.canMap (page.startAddr A.pageBits) && g.canMap (page.lastAddressOfPage A.pageBits)
  return Page.ofAddr A.pageBits v

/-- One round of the loop for the program counter: an address near the start or the end of a
page. -/
def drawPc (g : StateGen A) : Gen U64 := do
  let page ← g.drawPage
  let v := (← draw).setWidth 16
  let val : U64 := (v.setWidth 64 &&& 0x7f) ||| 0x80
  let shift := ((v >>> 7) &&& 0b1111).toNat % 9
  let pcOffset := (val >>> shift) &&& ~~~(← subU64 A.instructionAlignment 1)
  if 32767 < v.toNat then return page.startAddr A.pageBits + pcOffset
  else
    return (← page.firstAddressAfterPage A.pageBits) -
      BitVec.ofNat 64 g.accesses.instr.byteLen - pcOffset

/-- The loop for the program counter. -/
def drawPcLoop (g : StateGen A) : ℕ → Gen U64
  | 0 => throw .outOfFuel
  | fuel + 1 => do
    let addr ← g.drawPc
    if g.canMap addr then return addr else g.drawPcLoop fuel

/-- Source: `StateGen::randomize_register`. Every round of a loop draws a value, so
the length of the source bounds the rounds. -/
def randomizeRegister (g : StateGen A) (reg : A.Reg) : Gen U64 := do
  match A.mask reg with
  | some mask => return (← draw) &&& mask
  | none =>
    if A.isPc reg then g.drawPcLoop ((← get).length + 1)
    else if A.isAddrReg reg then drawUntil g.canMap
    else draw

/-! ## Filling a state -/

/-- Source: `FillResult` -/
inductive FillResult where
  | ok
  | unmappableFixedOffset (index : ℕ)
  | unsatisfiable (index : ℕ)
  | doubleMappedMemory (index : ℕ)
deriving DecidableEq, Repr

/-- Randomizes the inputs of an access; the flag says whether a register was changed. -/
def modifyInputs (g : StateGen A) :
    List (Source A.Reg) → Bool → SystemState A → Gen (Bool × SystemState A)
  | [], anyChanged, s => return (anyChanged, s)
  | .dest (.reg reg _) :: inputs, anyChanged, s => do
    if A.isZero reg then g.modifyInputs inputs anyChanged s
    else
      let s ← s.setReg reg (← g.randomizeRegister reg)
      g.modifyInputs inputs true s
  | .dest (.mem index _) :: inputs, anyChanged, s => do
    let e ← s.entry index
    let data ← randomizedBytes e.data.length
    let s ← s.modifyEntry index fun e => { e with data }
    g.modifyInputs inputs anyChanged s
  | .imm _ :: inputs, anyChanged, s | .const _ _ :: inputs, anyChanged, s =>
    g.modifyInputs inputs anyChanged s

/-- Adds the difference to the first register that is an identity term of the address. -/
def applyDelta (access : MemoryAccess A.Reg) (delta : U64) (s : SystemState A) :
    List (Source A.Reg × ℕ) → Partial (Option (SystemState A))
  | [] => .ok none
  | (input, index) :: rest => do
    let term ← orPanic .indexOutOfBounds access.calculation.terms.toList[index]?
    match input with
    | .dest (.reg reg _) =>
      if term = AddrTerm.identity && !A.isZero reg then do
        let reg ← orPanic .assertionFailed (A.tryRegToGpreg reg)
        return some { s with cpu := A.setGpreg s.cpu reg (A.gpreg s.cpu reg + delta) }
      else applyDelta access delta s rest
    | _ => applyDelta access delta s rest

/-- What the constraint asks for at a good address: nothing, a difference, or to give up. -/
def constraintDelta (pageBits : PageBits) (newAddr : U64) :
    Constraint → Gen (Option (Option U64))
  | .impossible => return none
  | .none => return some none
  | .pageRegion minOffset maxOffset => do
    let pageOffset := newAddr - (Page.ofAddr pageBits newAddr).startAddr pageBits
    if minOffset ≤ pageOffset ∧ pageOffset ≤ maxOffset then return some none
    else
      let fixedOffset ←
        if minOffset = maxOffset then pure minOffset else genRange minOffset maxOffset
      return some (some (alignToPageStart pageBits newAddr + fixedOffset - newAddr))

/-- The loop `'fix_loop`, which randomizes the inputs of an access until its address is good. It
gives up with `none`, or ends with whether a register was changed. -/
def fixLoop (g : StateGen A) (access : MemoryAccess A.Reg) (index : ℕ) (perms : Permissions) :
    ℕ → Bool → SystemState A → Gen (Option Bool × SystemState A)
  | 0, _, s => return (none, s)
  | tries + 1, anyChanged, s => do
    let (anyChanged, s) ← g.modifyInputs access.inputs anyChanged s
    let c ← orPanic .indexOutOfBounds g.constraints[index]?
    let newAddr ← computeFrom access.calculation access.inputs s.cpu
    if ← g.goodAddr s.memory index access newAddr perms then do
      match ← constraintDelta A.pageBits newAddr c with
      | none => return (none, s)
      | some none => return (some anyChanged, s)
      | some (some delta) => do
        match ← applyDelta access delta s access.inputs.zipIdx with
        | some s => return (some true, s)
        | none => g.fixLoop access index perms tries anyChanged s
    else g.fixLoop access index perms tries anyChanged s

/-- The loop around `'fix_loop`, which adapts the accesses before: whether it succeeded. -/
def retryLoop (g : StateGen A) (access : MemoryAccess A.Reg) (index : ℕ) (perms : Permissions) :
    ℕ → SystemState A → Gen (Bool × SystemState A)
  | 0, s => return (false, s)
  | n + 1, s => do
    match ← g.fixLoop access index perms 10001 false s with
    | (some true, s) => do
      let (adapted, s) ← g.adaptUpToLen s false index
      if adapted then return (true, s) else g.retryLoop access index perms n s
    | (_, s) => return (false, s)

/-- The condition of `fill_state`: the address is aligned and good. -/
def alignedAndGood (g : StateGen A) (memory : List MemoryEntry) (index : ℕ)
    (access : MemoryAccess A.Reg) (addr : U64) (perms : Permissions) : Partial Bool := do
  if ← isAligned access addr then g.goodAddr memory index access addr perms else return false

/-- The address is fixed, and never a good one. -/
def isUnmappable (g : StateGen A) (memory : List MemoryEntry) (access : MemoryAccess A.Reg)
    (addr : U64) (perms : Permissions) : Partial Bool :=
  if hasFixedAddr access then g.isAlwaysBadAddr memory access addr perms else .ok false

/-- The loop over the tries for one access. -/
def accessLoop (g : StateGen A) (access : MemoryAccess A.Reg) (index : ℕ) :
    ℕ → SystemState A → Gen (FillResult × SystemState A)
  | 0, s => return (.unsatisfiable index, s)
  | n + 1, s => do
    let addr ← computeAddress access s.cpu
    let s ← s.setAddr index addr
    let perms := (← s.entry index).perms
    if ← g.alignedAndGood s.memory index access addr perms then return (.ok, s)
    else if (s.memory.take index).any (·.addr == addr) then return (.doubleMappedMemory index, s)
    else if ← g.isUnmappable (s.memory.take index) access addr perms then
      return (.unmappableFixedOffset index, s)
    else do
      let (adapted, s) ← g.retryLoop access index perms 51 s
      if adapted then g.accessLoop access index n s else return (.unsatisfiable index, s)

/-- The loop over the accesses in `fill_state`. -/
def fillLoop (g : StateGen A) :
    List (MemoryAccess A.Reg × ℕ) → SystemState A → Gen (FillResult × SystemState A)
  | [], s => return (.ok, s)
  | (access, index) :: rest, s => do
    match ← g.accessLoop access index 10 s with
    | (.ok, s) => g.fillLoop rest s
    | (result, s) => return (result, s)

/-- Source: `StateGen::fill_state` -/
def fillState (g : StateGen A) (s : SystemState A) : Gen (FillResult × SystemState A) :=
  g.fillLoop g.accesses.memory.zipIdx s

/-! ## Generating a state -/

/-- The counters of the loop in `randomize_new`. -/
structure Attempts where
  numFailures : ℕ
  lastResult : FillResult
  errorCounter : ℕ

/-- The error after all attempts have failed. -/
def Attempts.error (a : Attempts) : Partial RandomizationError :=
  if 50 ≤ a.errorCounter then
    match a.lastResult with
    | .ok => .error .unreachable
    | .unmappableFixedOffset index => .ok (.unmappableFixedOffset index)
    | .unsatisfiable index => .ok (.unsatisfiable index)
    | .doubleMappedMemory 0 => .error .arithmeticOverflow
    | .doubleMappedMemory (index + 1) => .ok (.unsatisfiable index)
  else .ok .randomStateSynthesisFailed

/-- Randomizes the registers that addresses are computed from. -/
def randomizeAddressRegisters (g : StateGen A) :
    List A.GpReg → SystemState A → Gen (SystemState A)
  | [], s => return s
  | gpreg :: rest, s => do
    let v ← g.randomizeRegister (A.reg gpreg)
    g.randomizeAddressRegisters rest { s with cpu := A.setGpreg s.cpu gpreg v }

/-- The access whose fixed address cannot be mapped, if that is why filling failed. -/
def fixedOffset (g : StateGen A) : FillResult → Partial (Option ℕ)
  | .unmappableFixedOffset index => do
    let access ← orPanic .indexOutOfBounds g.accesses.memory[index]?
    return if hasFixedAddr access then some index else none
  | _ => .ok none

/-- The loop that `randomize_new` and `randomize_new_with_locations` share: the state, if one was
found, and the number of failures. -/
def attemptLoop (g : StateGen A) :
    ℕ → Attempts → SystemState A → Gen (Except RandomizationError (SystemState A) × ℕ)
  | 0, a, _ => do return (.error (← a.error), a.numFailures)
  | n + 1, a, s => do
    let (result, s) ← g.fillState s
    if result = .ok then
      if s.memory.all (fun e => g.canMap e.addr) then return (.ok s, 0)
      else throw .assertionFailed
    else
      let numFailures := (a.numFailures + 1) % 2 ^ 64
      if 25000 ≤ a.numFailures then return (.error (← a.error), numFailures)
      else
        match ← g.fixedOffset result with
        | some index => return (.error (.unmappableFixedOffset index), numFailures)
        | none =>
          let a := if a.lastResult = result then ⟨numFailures, a.lastResult, a.errorCounter + 1⟩
            else ⟨numFailures, result, 1⟩
          g.attemptLoop n a (← g.randomizeAddressRegisters g.addressRegisters s)

/-- Source: the closure of `CpuState::create` in `randomize_new` -/
def createCpu (g : StateGen A) : List A.Reg → A.CpuState → Gen A.CpuState
  | [], cpu => return cpu
  | reg :: regs, cpu => do
    let v ← match A.value cpu reg with
      | .num _ => do pure (OwnedValue.num (← g.randomizeRegister reg))
      | .bytes b => do pure (OwnedValue.bytes (← randomizedBytes b.length))
    g.createCpu regs (A.setValue cpu reg v)

/-- The memory entry for an access, before its address is known. -/
def newEntry (g : StateGen A) (access : MemoryAccess A.Reg) : Gen MemoryEntry := do
  match access.kind with
  | .executable => return ⟨0, .execute, g.accesses.instr.bytes⟩
  | .input | .inputOutput => return ⟨0, .readWrite, ← randomizedBytes access.size.2.toNat⟩

/-- Source: `StateGen::randomize_new` -/
def randomizeNew (g : StateGen A) (numFailures : ℕ) :
    Gen (Except RandomizationError (SystemState A) × ℕ) := do
  let cpu ← g.createCpu A.iterRegs A.default
  let memory ← g.accesses.memory.mapM g.newEntry
  let s := { SystemState.new cpu memory with useTrapFlag := g.accesses.useTrapFlag }
  g.attemptLoop 5000 ⟨numFailures, .ok, 0⟩ s

/-- The change of one location in `randomize_new_with_locations`, where the location is all of the
register or all of the memory entry. -/
def randomizeLocation (g : StateGen A) (s : SystemState A) :
    Location A.Reg → Gen (SystemState A)
  | .reg reg => do
    if A.byteSize reg = 0 then throw .arithmeticOverflow
    else match A.value s.cpu reg with
    | .num n => do
      let mask ← widthMask (A.byteSize reg * 8)
      let v ← g.randomizeRegister reg
      return { s with cpu := A.setValue s.cpu reg (.num ((n &&& ~~~mask) ||| (v &&& mask))) }
    | .bytes b => do
      if b.length < A.byteSize reg then throw .indexOutOfBounds
      else
        let v ← randomizedBytes (A.byteSize reg)
        return { s with cpu := A.setValue s.cpu reg (.bytes (v ++ b.drop (A.byteSize reg))) }
  | .memory index => do
    let access ← orPanic .indexOutOfBounds g.accesses.memory[index]?
    let e ← s.entry index
    if access.size.2 = 0 then throw .arithmeticOverflow
    else if e.data.length < access.size.2.toNat then throw .indexOutOfBounds
    else
      let v ← randomizedBytes access.size.2.toNat
      s.modifyEntry index fun e => { e with data := v ++ e.data.drop access.size.2.toNat }

/-- Source: `StateGen::randomize_new_with_locations` -/
def randomizeNewWithLocations (g : StateGen A) (base : SystemState A)
    (locations : List (Location A.Reg)) (numFailures : ℕ) :
    Gen (Except RandomizationError (SystemState A) × ℕ) := do
  let s ← locations.foldlM g.randomizeLocation base
  let s := { s with useTrapFlag := g.accesses.useTrapFlag }
  g.attemptLoop 5000 ⟨numFailures, .ok, 0⟩ s

end StateGen

end LibLisa.State
