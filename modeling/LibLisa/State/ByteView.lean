import LibLisa.State.Random

/-!
# A state as a block of bytes

The model of `state/byteview.rs`: the bytes of the registers, followed by the bytes of the memory
mappings except for the instruction. The registers are those of an architecture that can read and
write them byte by byte; `StateBytes.Lawful` is what its documentation says about that.

Where no file is given, the source is `state/byteview.rs`.
-/

namespace LibLisa.State

open Lib Encoding

variable {A : Arch}

/-- Source: `arch/mod.rs`, the parts of `CpuState` that see the registers as bytes -/
structure StateBytes (A : Arch) where
  size : ℕ
  getStateByte : A.CpuState → ℕ → U8
  setStateByte : A.CpuState → ℕ → U8 → A.CpuState
  stateByteToReg : ℕ → A.Reg × ℕ

/-- Every byte of the registers is a cell of its own, and a part of its register only. A zero
register has a fixed value. -/
structure StateBytes.Lawful (b : StateBytes A) : Prop where
  set_get : ∀ cpu, ∀ k < b.size, b.setStateByte cpu k (b.getStateByte cpu k) = cpu
  set_set : ∀ cpu, ∀ k < b.size, ∀ v w,
    b.setStateByte (b.setStateByte cpu k v) k w = b.setStateByte cpu k w
  set_comm : ∀ cpu, ∀ k < b.size, ∀ l < b.size, ∀ v w, k ≠ l →
    b.setStateByte (b.setStateByte cpu k v) l w = b.setStateByte (b.setStateByte cpu l w) k v
  get_set_of_ne : ∀ cpu, ∀ k < b.size, ∀ l < b.size, ∀ v, k ≠ l →
    b.getStateByte (b.setStateByte cpu k v) l = b.getStateByte cpu l
  value_set : ∀ cpu, ∀ k < b.size, ∀ v reg, (b.stateByteToReg k).1 ≠ reg ∨ A.isZero reg = true →
    A.value (b.setStateByte cpu k v) reg = A.value cpu reg

/-- Source: `SystemStateByteViewReg`, without the size of a memory area -/
inductive ViewReg (R : Type) where
  | reg (reg : R)
  | memory (accessIndex : ℕ)

/-- Source: `SystemStateByteView` -/
structure SystemStateByteView (A : Arch) where
  bytes : StateBytes A
  memoryAccesses : MemoryAccesses A.Reg

namespace SystemStateByteView

/-- The loop of `as_reg`: the access that a byte of the memory belongs to, and its place in it. -/
def findAccess (memoryIndex : ℕ) :
    ℕ → List (MemoryAccess A.Reg × ℕ) → Option (ℕ × ℕ)
  | _, [] => none
  | offset, (access, accessIndex) :: rest =>
    if memoryIndex < access.size.2.toNat + offset then some (accessIndex, memoryIndex - offset)
    else findAccess memoryIndex (offset + access.size.2.toNat) rest

/-- The memory mapping of a byte that is not in the registers, and its place in it. -/
def locate (view : SystemStateByteView A) (byte : ℕ) : Option (ℕ × ℕ) :=
  findAccess (byte - view.bytes.size) 0 (view.memoryAccesses.memory.zipIdx.drop 1)

/-- Source: `SystemStateByteView::as_reg` -/
def asReg (view : SystemStateByteView A) (byte : ℕ) : Partial (ViewReg A.Reg × ℕ) :=
  if view.bytes.size ≤ byte then do
    let (accessIndex, offset) ← orPanic .explicitPanic (view.locate byte)
    return (.memory accessIndex, offset)
  else
    let (reg, index) := view.bytes.stateByteToReg byte
    return (.reg reg, index)

/-- Source: `SystemStateByteView::get` -/
def get (view : SystemStateByteView A) (s : SystemState A) (byte : ℕ) : Partial U8 := do
  match ← view.asReg byte with
  | (.memory accessIndex, offset) =>
    orPanic .indexOutOfBounds (← s.entry accessIndex).data[offset]?
  | (.reg _, _) => return view.bytes.getStateByte s.cpu byte

/-- A write to the data of a memory mapping, through `modify_data`. -/
def setData (s : SystemState A) (accessIndex offset : ℕ) (value : U8) :
    Partial (SystemState A) := do
  let e ← s.entry accessIndex
  if offset < e.data.length then
    return { s with
      memory := s.memory.set accessIndex { e with data := e.data.set offset value } }
  else .error .indexOutOfBounds

/-- Source: `SystemStateByteView::set` -/
def set (view : SystemStateByteView A) (s : SystemState A) (byte : ℕ) (value : U8) :
    Partial (SystemState A) :=
  if byte < view.bytes.size then
    return { s with cpu := view.bytes.setStateByte s.cpu byte value }
  else do
    match ← view.asReg byte with
    | (.memory accessIndex, offset) => setData s accessIndex offset value
    | (.reg _, _) => .error .unreachable

/-- Source: `SystemStateByteView::try_reg_to_gpreg` -/
def tryRegToGpreg : ViewReg A.Reg → Option A.GpReg
  | .reg reg => A.tryRegToGpreg reg
  | .memory _ => none

end SystemStateByteView

namespace StateGen

/-- The bit of a register in the map of the address registers. -/
def isAddressRegister (g : StateGen A) (gpreg : Option A.GpReg) : Bool :=
  gpreg.any fun reg => decide (reg ∈ g.addressRegisters)

/-- Source: `random/mod.rs`, `StateGen::needs_adapt_from_bytes` -/
def needsAdaptFromBytes (g : StateGen A) (view : SystemStateByteView A) (bytesModified : List ℕ) :
    Partial Bool :=
  bytesModified.anyM fun byte => do
    let (reg, _) ← view.asReg byte
    return g.isAddressRegister (SystemStateByteView.tryRegToGpreg reg)

/-- Source: `random/mod.rs`, `StateGen::needs_adapt_from_gpregs` -/
def needsAdaptFromGpregs (g : StateGen A) (gpregs : List A.GpReg) : Bool :=
  gpregs.any fun reg => g.isAddressRegister (some reg)

end StateGen

/-- The loop of `update_memory_addresses_unchecked`. -/
def updateLoop : List (MemoryAccess A.Reg × ℕ) → SystemState A → Partial (SystemState A)
  | [], s => return s
  | (access, index) :: rest, s => do
    updateLoop rest (← s.setAddr index (← computeAddress access s.cpu))

/-- Source: `random/mod.rs`, `update_memory_addresses_unchecked` -/
def updateMemoryAddressesUnchecked (accesses : MemoryAccesses A.Reg) (s : SystemState A) :
    Partial (SystemState A) := updateLoop accesses.memory.zipIdx s

end LibLisa.State
