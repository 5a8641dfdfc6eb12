import LibLisa.Instr.Instruction

/-!
# Dataflows

The types of `encoding/dataflows`, as far as the modelled functions read them: which inputs an output
of an instruction depends on, and how the addresses of its memory accesses are computed. `R` is the
architecture's type of registers. The generators of states read the `MemoryAccesses`.

Where no file is given, the source is `address_computation.rs`.
-/

namespace LibLisa.Encoding

open Lib

/-! ## Address computations -/

/-- The shift of one use of a term. A shift by 64 or more overflows, so `right` is below 64.
Source: `address_computation.rs`, `AddrTermShift` -/
structure AddrTermShift where
  right : Fin 64
  mult : U8
deriving DecidableEq, Repr

/-- Source: `AddrTermSize` -/
inductive AddrTermSize where
  | u8
  | i8
  | u16
  | i16
  | u32
  | i32
  | u64
deriving DecidableEq, Repr

/-- Source: `AddrTermCalculation` -/
structure AddrTermCalculation where
  shift : AddrTermShift
  size : AddrTermSize
deriving DecidableEq, Repr

/-- Source: `AddrTerm` -/
structure AddrTerm where
  primary : AddrTermCalculation
  secondUse : Option AddrTermCalculation
deriving DecidableEq, Repr

/-- Source: `AddressComputation` -/
structure AddressComputation where
  offset : U64
  terms : Vector AddrTerm 4
deriving DecidableEq, Repr

/-- Source: `AddrTermShift::apply` -/
def AddrTermShift.apply (s : AddrTermShift) (val : U64) : U64 :=
  val.sshiftRight s.right * s.mult.setWidth 64

/-- Source: `AddrTermSize::apply` -/
def AddrTermSize.apply : AddrTermSize → U64 → U64
  | u64, val => val
  | u8, val => (val.setWidth 8).setWidth 64
  | u16, val => (val.setWidth 16).setWidth 64
  | u32, val => (val.setWidth 32).setWidth 64
  | i8, val => (val.setWidth 8).signExtend 64
  | i16, val => (val.setWidth 16).signExtend 64
  | i32, val => (val.setWidth 32).signExtend 64

/-- Source: `AddrTermCalculation::apply` -/
def AddrTermCalculation.apply (c : AddrTermCalculation) (val : U64) : U64 :=
  c.shift.apply (c.size.apply val)

/-- Source: `AddrTerm::apply` -/
def AddrTerm.apply (t : AddrTerm) (val : U64) : U64 :=
  t.primary.apply val + (t.secondUse.map (·.apply val)).getD 0

/-- Source: `AddrTerm::default` -/
def AddrTerm.default : AddrTerm := ⟨⟨⟨0, 0⟩, .u64⟩, none⟩

/-- Source: `AddrTerm::identity` -/
def AddrTerm.identity : AddrTerm := ⟨⟨⟨0, 1⟩, .u64⟩, none⟩

/-- The sum of the terms, each applied to its value.
Source: `address_computation.rs`, `AddressComputation::evaluate_from_iter` -/
def AddressComputation.evaluate (c : AddressComputation) (inputs : List U64) : U64 :=
  (inputs.zip c.terms.toList).foldl (fun sum (v, term) => sum + term.apply v) 0 + c.offset

/-! ## Sources and destinations -/

/-- Source: `locs.rs`, `Size` -/
structure Size where
  startByte : ℕ
  endByte : ℕ
deriving DecidableEq, Repr

/-- Source: `locs.rs`, `Dest` -/
inductive Dest (R : Type) where
  | reg (reg : R) (size : Size)
  | mem (index : ℕ) (size : Size)
deriving DecidableEq, Repr

/-- Source: `locs.rs`, `Source` -/
inductive Source (R : Type) where
  | dest (dest : Dest R)
  | imm (part : ℕ)
  | const (value : U64) (numBits : ℕ)
deriving DecidableEq, Repr

/-! ## Locations of values -/

/-- Source: `bitpattern/locs.rs`, `FlowInputLocation` -/
inductive FlowInputLocation where
  | inputForOutput (outputIndex inputIndex : ℕ)
  | memoryAddress (memoryIndex inputIndex : ℕ)
deriving DecidableEq, Repr

/-- Source: `bitpattern/locs.rs`, `FlowValueLocation` -/
inductive FlowValueLocation where
  | output (outputIndex : ℕ)
  | inputForOutput (outputIndex inputIndex : ℕ)
  | memoryAddress (memoryIndex inputIndex : ℕ)
deriving DecidableEq, Repr

/-! ## Dataflows -/

/-- Source: `accesses.rs`, `AccessKind` -/
inductive AccessKind where
  | input
  | inputOutput
  | executable
deriving DecidableEq, Repr

/-- Source: `accesses.rs`, `MemoryAccess`; `size` is the range of the sizes -/
structure MemoryAccess (R : Type) where
  kind : AccessKind
  inputs : List (Source R)
  size : U64 × U64
  calculation : AddressComputation
  alignment : ℕ
deriving DecidableEq

/-- Source: `accesses.rs`, `MemoryAccesses` -/
structure MemoryAccesses (R : Type) where
  instr : Instruction
  memory : List (MemoryAccess R)
  useTrapFlag : Bool
deriving DecidableEq

/-- Source: `dataflows/mod.rs`, `Dataflow` -/
structure Dataflow (R : Type) where
  inputs : List (Source R)
deriving DecidableEq

/-- Source: `dataflows/mod.rs`, `Dataflows` -/
structure Dataflows (R : Type) where
  addresses : MemoryAccesses R
  outputs : List (Dataflow R)
deriving DecidableEq

end LibLisa.Encoding
