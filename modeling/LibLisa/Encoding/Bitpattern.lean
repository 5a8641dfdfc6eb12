import LibLisa.Encoding.Dataflows

/-!
# Bit patterns

The types of `encoding/bitpattern`: the bits of an encoding and the parts that they make up. A part
maps the value of its bits to an immediate value, a register or an address computation; a value
without a mapping is not valid.

`PartMapping.incomplete` lists, for a part in which some value is not valid, which values are. The
source repeats this case distinction in `filters`, `valid_values` and `value_is_valid`; the results in
`Encoding/Coverage` are about the values it marks.

Where no file is given, the source is `bitpattern/mod.rs`.
-/

namespace LibLisa.Encoding

open Lib

/-- A bit of an encoding. The source has `Fixed(u8)` and says that only `Fixed(0)` and `Fixed(1)`
may be used.
Source: `bitpattern/mod.rs`, `Bit` -/
inductive Bit where
  | part (index : ℕ)
  | fixed (value : Bool)
  | dontCare
deriving DecidableEq, Repr

/-- Source: `PartValue` -/
inductive PartValue where
  | valid
  | invalid
deriving DecidableEq, Repr

/-- Source: `PartValue::is_valid` -/
def PartValue.isValid : PartValue → Bool
  | valid => true
  | invalid => false

/-- Source: `ImmBitOrder` -/
inductive ImmBitOrder where
  | positive (bit : ℕ)
  | negative (bit : ℕ)
deriving DecidableEq, Repr

/-- `v << n` for a `u64`; a shift by 64 or more overflows. -/
def shiftLeftU64 (v : U64) (n : ℕ) : Partial U64 :=
  if n < 64 then .ok (v <<< n) else .error .arithmeticOverflow

/-- Source: `MappingOrBitOrder` -/
inductive MappingOrBitOrder where
  | mapping (mapping : List PartValue)
  | bitOrder (bitOrder : List ImmBitOrder)
deriving DecidableEq, Repr

/-- Source: `ImmBit` -/
inductive ImmBit where
  | is0
  | is1
  | fill
deriving DecidableEq, Repr

/-- Source: `PartMapping` -/
inductive PartMapping (R : Type) where
  | imm (mapping : Option MappingOrBitOrder) (locations : List FlowInputLocation)
      (bits : Option (List ImmBit))
  | memoryComputation (mapping : List (Option AddressComputation)) (memoryIndexes : List ℕ)
  | register (mapping : List (Option R)) (locations : List FlowValueLocation)
deriving DecidableEq

/-- Source: `Part` -/
structure Part (R : Type) where
  size : ℕ
  mapping : PartMapping R
deriving DecidableEq

namespace PartMapping

variable {R : Type}

/-- Which values a list of entries allows. -/
def entries : PartMapping R → Option (List Bool)
  | imm (some (.mapping mapping)) _ _ => some (mapping.map PartValue.isValid)
  | imm _ _ _ => none
  | memoryComputation mapping _ => some (mapping.map Option.isSome)
  | register mapping _ => some (mapping.map Option.isSome)

/-- Which values are valid, if some value is not: the guard `mapping.iter().any(..)` of the source
for the mappings of each kind. -/
def incomplete (m : PartMapping R) : Option (List Bool) :=
  m.entries.filter fun valid => valid.any (!·)

/-- Source: `PartMapping::value_is_valid` -/
def valueIsValid (m : PartMapping R) (val : U64) : Partial Bool :=
  match m.incomplete with
  | some valid => orPanic .indexOutOfBounds valid[val.toNat]?
  | none => .ok true

end PartMapping

end LibLisa.Encoding
