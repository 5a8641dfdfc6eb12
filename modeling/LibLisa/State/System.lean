import LibLisa.Encoding.Dataflows
import LibLisa.Semantics.Computation
import LibLisa.State.Addr

/-!
# System states

The state of a CPU with its memory mappings, for an architecture that is given by its registers and
by how they are read and written. `MemoryAccess.computeAddress` is the address of an access in a
state. That a generated or shared state has its memory at these addresses (`StateGen.Mappable`,
`StateGen.AddressesMatch`) is what the results of the later modules are about.
-/

namespace LibLisa.State

open Lib Encoding Semantics

/-- Source: `arch/mod.rs`, the parts of `Arch`, `CpuState` and `Register` that the generation of
states uses. `setValue` is `CpuState::modify_reg` with an update that writes the value. -/
structure Arch where
  Reg : Type
  GpReg : Type
  CpuState : Type
  pageBits : PageBits
  instructionAlignment : U64
  reg : GpReg → Reg
  tryRegToGpreg : Reg → Option GpReg
  iterGpregs : List GpReg
  iterRegs : List Reg
  gpregLe : GpReg → GpReg → Bool
  isAddrGpreg : GpReg → Bool
  isZero : Reg → Bool
  isPc : Reg → Bool
  isAddrReg : Reg → Bool
  mask : Reg → Option U64
  byteSize : Reg → ℕ
  default : CpuState
  gpreg : CpuState → GpReg → U64
  setGpreg : CpuState → GpReg → U64 → CpuState
  value : CpuState → Reg → OwnedValue
  setValue : CpuState → Reg → OwnedValue → CpuState
  decEqReg : DecidableEq Reg
  decEqGpReg : DecidableEq GpReg

attribute [instance] Arch.decEqReg Arch.decEqGpReg

/-- Source: `state/memory.rs`, `Permissions` -/
inductive Permissions where
  | read
  | readWrite
  | execute
deriving DecidableEq, Repr

/-- Source: `state/memory.rs`, `MemoryEntry` -/
structure MemoryEntry where
  addr : U64
  perms : Permissions
  data : List U8
deriving DecidableEq, Repr

/-- Source: `state/mod.rs`, `SystemState` -/
structure SystemState (A : Arch) where
  cpu : A.CpuState
  memory : List MemoryEntry
  useTrapFlag : Bool
  containsValidAddrs : Bool

/-- Source: `state/mod.rs`, `Location` -/
inductive Location (R : Type) where
  | reg (reg : R)
  | memory (index : ℕ)

namespace SystemState

variable {A : Arch}

/-- Source: `state/mod.rs`, `SystemState::new` -/
def new (cpu : A.CpuState) (memory : List MemoryEntry) : SystemState A := ⟨cpu, memory, true, true⟩

/-- Source: `state/memory.rs`, `MemoryState::get` -/
def entry (s : SystemState A) (index : ℕ) : Partial MemoryEntry :=
  orPanic .indexOutOfBounds s.memory[index]?

/-- An update of one memory entry through `MemoryState::get_mut`. -/
def modifyEntry (s : SystemState A) (index : ℕ) (f : MemoryEntry → MemoryEntry) :
    Partial (SystemState A) := do
  let e ← s.entry index
  return { s with memory := s.memory.set index (f e) }

/-- Source: `state/memory.rs`, `MemoryStateItemMut::set_addr` -/
def setAddr (s : SystemState A) (index : ℕ) (addr : U64) : Partial (SystemState A) :=
  s.modifyEntry index fun e => { e with addr }

/-- Source: `state/memory.rs`, `MemoryStateItemMut::crop_data` -/
def cropData (s : SystemState A) (index maxSize : ℕ) : Partial (SystemState A) :=
  s.modifyEntry index fun e => { e with data := e.data.take maxSize }

/-- Source: `state/mod.rs`, `SystemState::set_reg`, for a number -/
def setReg (s : SystemState A) (reg : A.Reg) (n : U64) : Partial (SystemState A) :=
  match A.value s.cpu reg with
  | .num _ => .ok { s with cpu := A.setValue s.cpu reg (.num n) }
  | .bytes _ => .error .explicitPanic

end SystemState

/-- The low `w` bits of a number, as `slice` and `modify_dest` select them. -/
def widthMask (w : ℕ) : Partial U64 :=
  if w = 64 then .ok (BitVec.allOnes 64)
  else if w < 64 then .ok (((1 : U64) <<< w) - 1)
  else .error .arithmeticOverflow

/-- A shift of the source, which panics if it shifts by 64 or more. -/
def shrU64 (n : U64) (k : ℕ) : Partial U64 :=
  if k < 64 then .ok (n >>> k) else .error .arithmeticOverflow

/-- Source: `value.rs`, `Value::slice`, for a number -/
def sliceNum (n : U64) (size : Size) : Partial U64 := do
  if size.endByte < size.startByte then .error .arithmeticOverflow
  else
    return (← shrU64 n (size.startByte * 8)) &&&
      (← widthMask ((size.endByte - size.startByte + 1) * 8))

/-- The value of a source in `AddressComputation::compute`. Memory holds bytes, which are not
handled. -/
def sourceValue {A : Arch} (cpu : A.CpuState) : Source A.Reg → Partial U64
  | .dest (.reg reg size) =>
    match A.value cpu reg with
    | .num n => sliceNum n size
    | .bytes _ => .error .explicitPanic
  | .dest (.mem _ _) => .error .explicitPanic
  | .const value _ => .ok value
  | .imm _ => .error .explicitPanic

/-- Source: `address_computation.rs`, `AddressComputation::compute` -/
def computeFrom {A : Arch} (c : AddressComputation) (inputs : List (Source A.Reg))
    (cpu : A.CpuState) : Partial U64 := do
  let values ← (inputs.zip c.terms.toList).mapM fun (input, _) => sourceValue cpu input
  return c.evaluate values

/-- Source: `accesses.rs`, `MemoryAccess::compute_address` -/
def computeAddress {A : Arch} (access : MemoryAccess A.Reg) (cpu : A.CpuState) :
    Partial U64 := computeFrom access.calculation access.inputs cpu

/-- Source: `accesses.rs`, `MemoryAccess::has_fixed_addr` -/
def hasFixedAddr {R : Type} (access : MemoryAccess R) : Bool :=
  access.inputs.all fun source => match source with
    | .imm _ | .const _ _ => true
    | .dest _ => false

/-- Source: `accesses.rs`, `MemoryAccess::compute_fixed_addr` -/
def computeFixedAddr {A : Arch} (access : MemoryAccess A.Reg) : Partial U64 :=
  computeAddress access A.default

end LibLisa.State
