import LibLisa.Lib.Wire
import LibLisa.Semantics.Builder
import LibLisa.Utils.GrowingBitmap

/-!
# Computations

The model of `semantics/default/computation.rs`: a synthesized computation interprets its inputs as
arguments of an expression, evaluates the expression and encodes the result. `if_zero`, `and`, `or`
and `not` combine computations by splicing their operations, arguments and constants.

The module has definitions only. What the combined computations compute is `combinators_correct_iff`: a
spliced computation runs its parts one after the other on one stack (`Semantics/Splice`).

Where no file is given, the source is `computation.rs`.
-/

namespace LibLisa.Semantics

open Lib

/-! ## Values and types -/

/-- Source: `value.rs`, `OwnedValue` -/
inductive OwnedValue where
  | num (n : U64)
  | bytes (b : List U8)
deriving DecidableEq, Repr

/-- Source: `semantics/mod.rs`, `IoType` -/
inductive IoType where
  | integer (numBits : ℕ)
  | bytes (numBytes : ℕ)
deriving DecidableEq, Repr

/-- Source: `semantics/mod.rs`, `IoType::num_bits` -/
def IoType.numBits : IoType → ℕ
  | .integer numBits => numBits
  | .bytes numBytes => numBytes * 8

/-- Source: `semantics/mod.rs`, `OutputType` -/
inductive OutputType where
  | number (mask : U64)
  | bytes (numBytes : ℕ)
deriving DecidableEq, Repr

/-- Source: `semantics/mod.rs`, `OutputType::const_from`. The number of bits is cast to a `u32`;
`bitmask_u64` subtracts it from 64. -/
def OutputType.constFrom : IoType → Partial OutputType
  | .integer numBits => do
    let _ ← usub 64 (numBits % 2 ^ 32)
    let mask := Utils.bitmaskU64 (numBits % 2 ^ 32)
    if mask = 0 then throw .assertionFailed else return .number mask
  | .bytes numBytes => .ok (.bytes numBytes)

/-- Source: `OutputEncoding` -/
inductive OutputEncoding where
  | unsignedLittleEndian
  | unsignedBigEndian
deriving DecidableEq, Repr

/-! ## Arguments -/

/-- Source: `ArgEncoding` -/
inductive ArgEncoding where
  | signedLittleEndian
  | signedBigEndian
  | unsignedLittleEndian
  | unsignedBigEndian
deriving DecidableEq, Repr

/-- Source: `ArgEncoding::is_signed` -/
def ArgEncoding.isSigned : ArgEncoding → Bool
  | .signedLittleEndian | .signedBigEndian => true
  | .unsignedLittleEndian | .unsignedBigEndian => false

/-- Source: `ArgEncoding::is_le` -/
def ArgEncoding.isLe : ArgEncoding → Bool
  | .signedLittleEndian | .unsignedLittleEndian => true
  | .signedBigEndian | .unsignedBigEndian => false

/-- Source: `Arg` -/
inductive Arg where
  | input (index numBits : U8) (encoding : ArgEncoding)
  | tinyConst (v : U16)
  | const (index : U16)
deriving DecidableEq, Repr

/-- Source: `utils/mod.rs`, `switch_endianness_u64` and `switch_endianness_u128` -/
def switchEndianness {w : ℕ} (v : BitVec w) (numBits : ℕ) : Partial (BitVec w) := do
  let unused ← usub w numBits
  ushr (swapBytes v) (unused / 8 * 8)

/-- Source: `utils/mod.rs`, `sign_extend_u64` -/
def signExtendU64 (v : U64) (n : ℕ) : Partial U64 := do
  let k ← usub 64 n
  let v ← shl v k
  sshr v k

/-- Source: `Arg::interpret_be_u64` and `Arg::interpret_le_u64`. The other byte
order is computed whether it is needed or not; `isLe` says in which order `n` is. -/
def interpretU64 (isLe : Bool) (n : U64) (numBits : U8) (encoding : ArgEncoding) :
    Partial I128 := do
  let swapped ← switchEndianness n numBits.toNat
  let n := if encoding.isLe = isLe then n else swapped
  if encoding.isSigned then return (← signExtendU64 n numBits.toNat).signExtend 128
  else return n.setWidth 128

/-- Source: `Arg::interpret_u128` -/
def interpretU128 (n : BitVec 128) (numBits : U8) (encoding : ArgEncoding) :
    Partial I128 := do
  let n ← if encoding.isLe then .ok n else switchEndianness n numBits.toNat
  if encoding.isSigned then signExtend n numBits.toNat else return n

/-- Source: `utils/mod.rs`, `create_from_le_bytes` -/
def createFromLeBytes (bytes : List U8) (processU64 : U64 → Partial I128)
    (processU128 : BitVec 128 → Partial I128) : Partial I128 :=
  if 1 ≤ bytes.length ∧ bytes.length ≤ 8 then processU64 (BitVec.ofNat 64 (Wire.ofLeBytes bytes))
  else if 9 ≤ bytes.length ∧ bytes.length ≤ 15 then
    processU128 (BitVec.ofNat 128 (Wire.ofLeBytes bytes))
  else if bytes.length < 16 then .error .indexOutOfBounds
  else processU128 (BitVec.ofNat 128 (Wire.ofLeBytes (bytes.take 16)))

/-- Source: `Arg::interpret_inputs` -/
def Arg.interpretInputs (inputs : List OwnedValue) (consts : List I128) : Arg → Partial I128
  | .input index numBits encoding => do
    match ← orPanic .indexOutOfBounds inputs[index.toNat]? with
    | .num n => interpretU64 false n numBits encoding
    | .bytes b =>
      createFromLeBytes b (interpretU64 true · numBits encoding) (interpretU128 · numBits encoding)
  | .tinyConst v => .ok (v.signExtend 128)
  | .const index => orPanic .indexOutOfBounds consts[index.toNat]?

/-! ## Evaluation -/

/-- The bytes of a value from the lowest one: `*b = v as u8; v >>= 8`. -/
def lowBytes : ℕ → I128 → List U8
  | 0, _ => []
  | n + 1, v => v.setWidth 8 :: lowBytes n (v.sshiftRight 8)

/-- Source: `ExprComputation::i128_as_bytes` -/
def i128AsBytes (encoding : OutputEncoding) (numBytes : ℕ) (result : I128) : List U8 :=
  match encoding with
  | .unsignedLittleEndian => lowBytes numBytes result
  | .unsignedBigEndian => (lowBytes numBytes result).reverse

/-- Source: `ExprComputation` -/
structure ExprComputation where
  expr : Expr
  outputEncoding : OutputEncoding
  outputType : OutputType

namespace ExprComputation

/-- Source: `ExprComputation::i128_to_output` -/
def i128ToOutput (c : ExprComputation) (result : I128) : OwnedValue :=
  match c.outputType with
  | .number mask => .num (result.setWidth 64 &&& mask)
  | .bytes numBytes => .bytes (i128AsBytes c.outputEncoding numBytes result)

/-- Source: `ExprComputation::evaluate_with_args` -/
def evaluateWithArgs (c : ExprComputation) (args : List I128) : Partial OwnedValue := do
  let result ← c.expr.evaluate args
  return c.i128ToOutput result

/-- Source: `ExprComputation::output_type` -/
def ioType (c : ExprComputation) : IoType :=
  match c.outputType with
  | .number mask => .integer (~~~mask).ctz.toNat
  | .bytes numBytes => .bytes numBytes

end ExprComputation

/-- Source: `ComputationRef` -/
structure ComputationRef where
  template : ExprComputation
  argInterpretation : List Arg
  consts : List I128

namespace ComputationRef

/-- Source: `ComputationRef::output_encoding` -/
def outputEncoding (c : ComputationRef) : OutputEncoding := c.template.outputEncoding

/-- Source: `ComputationRef::output_type` -/
def outputType (c : ComputationRef) : IoType := c.template.ioType

/-- Source: `ComputationRef::evaluate` -/
def evaluate (c : ComputationRef) (inputs : List OwnedValue) : Partial OwnedValue := do
  let args ← c.argInterpretation.mapM (Arg.interpretInputs inputs c.consts)
  c.template.evaluateWithArgs args

end ComputationRef

/-- Source: `SynthesizedComputation` -/
structure SynthesizedComputation where
  expr : Expr
  argInterpretation : List Arg
  consts : List I128
  outputEncoding : OutputEncoding
  outputType : IoType

namespace SynthesizedComputation

/-- Source: `SynthesizedComputation::as_internal` -/
def asInternal (c : SynthesizedComputation) : Partial ComputationRef := do
  return {
    template := ⟨c.expr, c.outputEncoding, ← OutputType.constFrom c.outputType⟩
    argInterpretation := c.argInterpretation
    consts := c.consts }

/-- Source: `SynthesizedComputation::evaluate` -/
def evaluate (c : SynthesizedComputation) (inputs : List OwnedValue) : Partial OwnedValue := do
  (← c.asInternal).evaluate inputs

end SynthesizedComputation

/-! ## Combining computations -/

/-- The cast `n as u16`. -/
def asU16 (n : ℕ) : U16 := BitVec.ofNat 16 n

/-- `a + b` on `u16` values. -/
def addU16 (a b : U16) : Partial U16 :=
  if a.toNat + b.toNat < 2 ^ 16 then .ok (a + b) else .error .arithmeticOverflow

/-- The argument with its constant renumbered. -/
def Arg.shiftConst (offset : U16) : Arg → Partial Arg
  | .const index => do return .const (← addU16 index offset)
  | arg => .ok arg

/-- The operation with its hole renumbered: `n.checked_add(offset).unwrap()`. -/
def Op.shiftHole (offset : U16) : Op → Partial Op
  | .hole n => do return .hole (← addU16 n offset)
  | other => .ok other

/-- The cast `n as u8`. -/
def asU8 (n : ℕ) : U8 := BitVec.ofNat 8 n

namespace SynthesizedComputation

/-- The computation that `if_zero` returns for operands of the same output type. -/
def spliceIfZero (self ifZero ifNonzero : ComputationRef) : Partial SynthesizedComputation := do
  let needBitSwapNonzero :=
    (8 < ifZero.outputType.numBits || 8 < ifNonzero.outputType.numBits) &&
      ifZero.outputEncoding != ifNonzero.outputEncoding
  let zeroArgs ← ifZero.argInterpretation.mapM
    (Arg.shiftConst (asU16 ifNonzero.consts.length))
  let selfArgs ← self.argInterpretation.mapM fun arg => do
    (← arg.shiftConst (asU16 ifNonzero.consts.length)).shiftConst (asU16 ifZero.consts.length)
  let offsetA := ifNonzero.argInterpretation.length
  let offsetB := ifNonzero.argInterpretation.length + ifZero.argInterpretation.length
  let condition ← self.template.expr.ops.mapM (Op.shiftHole (asU16 offsetB))
  let zero ← ifZero.template.expr.ops.mapM (Op.shiftHole (asU16 offsetA))
  let nonzero := ifNonzero.template.expr.ops
  let swap := if needBitSwapNonzero then [Op.swapBytes (asU8 ifNonzero.outputType.numBits)] else []
  return {
    expr := {
      ops := condition ++ [.crop (asU8 self.outputType.numBits)] ++
        (zero ++ [.crop (asU8 ifZero.outputType.numBits)]) ++
        (nonzero ++ [.crop (asU8 ifNonzero.outputType.numBits)] ++ swap) ++ [.ifZero]
      fastEval := none }
    argInterpretation := ifNonzero.argInterpretation ++ zeroArgs ++ selfArgs
    consts := ifNonzero.consts ++ ifZero.consts ++ self.consts
    outputEncoding := ifZero.outputEncoding
    outputType := ifZero.outputType }

/-- Source: `AsComputationRef::if_zero` -/
def ifZero (self ifZero ifNonzero : SynthesizedComputation) : Partial SynthesizedComputation := do
  let ifZero ← ifZero.asInternal
  let ifNonzero ← ifNonzero.asInternal
  let self ← self.asInternal
  if ifZero.outputType ≠ ifNonzero.outputType then .error .assertionFailed
  else spliceIfZero self ifZero ifNonzero

/-- `u16::try_from(index).expect(..)` -/
def indexAsU16 (index : ℕ) : Partial U16 :=
  if index < 2 ^ 16 then .ok (BitVec.ofNat 16 index) else .error .assertionFailed

/-- The position of an argument in the list, to which it is added if it is not there. -/
def positionOf (newArg : Arg) (args : List Arg) : ℕ × List Arg :=
  match args.findIdx? (· = newArg) with
  | some index => (index, args)
  | none => (args.length, args ++ [newArg])

/-- The operations of `self` in `chain`: a hole is renumbered to an equal argument of the list, or
to a new one at its end. -/
def chainOps (selfArgs : List Arg) : List Op → List Arg → Partial (List Op × List Arg)
  | [], args => .ok ([], args)
  | .hole n :: ops, args => do
    let newArg ← orPanic .indexOutOfBounds selfArgs[n.toNat]?
    let (index, args) := positionOf newArg args
    let hole ← indexAsU16 index
    let (ops, args) ← chainOps selfArgs ops args
    return (.hole hole :: ops, args)
  | other :: ops, args => do
    let (ops, args) ← chainOps selfArgs ops args
    return (other :: ops, args)

/-- The computation that `chain` returns for operands of the same output type and encoding. -/
def spliceChain (self other : ComputationRef) : Partial SynthesizedComputation := do
  let otherArgs ← other.argInterpretation.mapM (Arg.shiftConst (asU16 self.consts.length))
  let (selfOps, args) ← chainOps self.argInterpretation self.template.expr.ops otherArgs
  return {
    expr := { ops := other.template.expr.ops ++ selfOps, fastEval := none }
    argInterpretation := args
    consts := self.consts ++ other.consts
    outputEncoding := self.outputEncoding
    outputType := self.outputType }

/-- Source: `AsComputationRef::chain` -/
def chain (self other : SynthesizedComputation) : Partial SynthesizedComputation := do
  let other ← other.asInternal
  let self ← self.asInternal
  if self.outputType ≠ other.outputType then .error .assertionFailed
  else if (8 < self.outputType.numBits ∨ 8 < other.outputType.numBits) ∧
      self.outputEncoding ≠ other.outputEncoding then .error .assertionFailed
  else spliceChain self other

/-- Source: `mod.rs`, `Expression::push_op`, on the expression of a computation that `chain`
returned. -/
def pushOp (c : SynthesizedComputation) (op : Op) : SynthesizedComputation :=
  { c with expr := { c.expr with ops := c.expr.ops ++ [op] } }

/-- Source: `AsComputationRef::and` -/
def and (self other : SynthesizedComputation) : Partial SynthesizedComputation := do
  return (← self.chain other).pushOp .and

/-- Source: `AsComputationRef::or` -/
def or (self other : SynthesizedComputation) : Partial SynthesizedComputation := do
  return (← self.chain other).pushOp .or

/-- Source: `AsComputationRef::not` -/
def not (self : SynthesizedComputation) : Partial SynthesizedComputation := do
  let self ← self.asInternal
  return {
    expr := { ops := self.template.expr.ops ++ [.not], fastEval := none }
    argInterpretation := self.argInterpretation
    consts := self.consts
    outputEncoding := self.outputEncoding
    outputType := self.outputType }

end SynthesizedComputation

end LibLisa.Semantics
