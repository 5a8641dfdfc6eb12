import LibLisa.Semantics.Ops

/-!
# Building expressions

The model of `semantics/default/builder.rs`, of the `expr!` macro and of the evaluation of an
expression in `semantics/default/mod.rs`. A builder carries the operations written so far and the
nested node type. `Template` lists the functions that build one; `Template.build` calls them.

What the source evaluates at compile time (the limit on the operations, the numbering of the holes)
is an error of the model: a template for which it fails is not part of a program.

Where no file is given, the source is `builder.rs`.
-/

namespace LibLisa.Semantics

/-! ## Writing operations -/

/-- Source: `MAX_OPS` -/
def maxOps : ℕ := 1024

/-- Source: `OpWriter`. The operations before the index; the array behind it is not
read. -/
structure OpWriter where
  ops : List Op
deriving DecidableEq, Repr

/-- Source: `ExprBuilder` -/
structure ExprBuilder where
  ops : OpWriter
  builder : FastOp
deriving DecidableEq, Repr

namespace OpWriter

/-- Source: `OpWriter::new` -/
def new : OpWriter := ⟨[]⟩

/-- Source: `OpWriter::write` -/
def write (w : OpWriter) (op : Op) : Partial OpWriter :=
  if w.ops.length < maxOps then .ok ⟨w.ops ++ [op]⟩ else .error .indexOutOfBounds

/-- Source: `OpWriter::write_builder` -/
def writeBuilder (w : OpWriter) (b : ExprBuilder) : Partial OpWriter :=
  if w.ops.length + b.ops.ops.length < maxOps then .ok ⟨w.ops ++ b.ops.ops⟩
  else .error .assertionFailed

/-- Source: `OpWriter::unop` -/
def unop (val : ExprBuilder) (suffix : Op) : Partial OpWriter := val.ops.write suffix

/-- Source: `OpWriter::binop` -/
def binop (lhs rhs : ExprBuilder) (suffix : Op) : Partial OpWriter := do
  (← lhs.ops.writeBuilder rhs).write suffix

end OpWriter

namespace ExprBuilder

/-- A builder function with one operand. -/
def unary (op : Op) (node : FastOp → FastOp) (a : ExprBuilder) : Partial ExprBuilder := do
  return ⟨← OpWriter.unop a op, node a.builder⟩

/-- A builder function with two operands. -/
def binary (op : Op) (node : FastOp → FastOp → FastOp) (a b : ExprBuilder) :
    Partial ExprBuilder := do
  return ⟨← OpWriter.binop a b op, node a.builder b.builder⟩

/-- Source: `hole` -/
def hole (n : U16) : Partial ExprBuilder := do
  return ⟨← OpWriter.new.write (.hole n), .hole n⟩

/-- Source: `c` -/
def c (val : U8) : Partial ExprBuilder := do
  return ⟨← OpWriter.new.write (.const val), .const val⟩

/-- Source: `zero` -/
def zero : Partial ExprBuilder := c 0

/-- Source: `one` -/
def one : Partial ExprBuilder := c 1

/-- Source: `ExprBuilder::crop` -/
def crop (numBits : U8) := unary (.crop numBits) (.crop numBits)

/-- Source: `ExprBuilder::rol` -/
def rol (numBits : U8) := binary (.rol numBits) (.rol numBits)

/-- Source: `ExprBuilder::sign_extend` -/
def signExtend (numBits : U8) := unary (.signExtend numBits) (.signExtend numBits)

/-- Source: `ExprBuilder::if_zero` -/
def ifZero (self zero nonzero : ExprBuilder) : Partial ExprBuilder := do
  let ops ← OpWriter.new.writeBuilder self
  let ops ← ops.writeBuilder zero
  let ops ← ops.writeBuilder nonzero
  return ⟨← ops.write .ifZero, .ifZero self.builder zero.builder nonzero.builder⟩

/-- Source: `ExprBuilder::byte_mask` -/
def byteMask := unary .byteMask .byteMask

/-- Source: `ExprBuilder::trailing_zeros` -/
def trailingZeros := unary .trailingZeros .trailingZeros

/-- Source: `ExprBuilder::leading_zeros` -/
def leadingZeros := unary .leadingZeros .leadingZeros

/-- Source: `ExprBuilder::popcount` -/
def popcount := unary .popCount .popCount

/-- Source: `ExprBuilder::abs` -/
def abs (self : ExprBuilder) : Partial ExprBuilder := do
  let ops ← OpWriter.new.writeBuilder self
  let ops ← ops.write (.select 127 1)
  let ops ← ops.writeBuilder self
  let ops ← ops.writeBuilder self
  let ops ← ops.write .not
  let ops ← ops.write (.const 1)
  let ops ← ops.write .add
  return ⟨← ops.write .ifZero,
    .ifZero (.select 127 1 self.builder) self.builder (.add (.not self.builder) (.const 1))⟩

/-- Source: `ExprBuilder::extract_bits` -/
def extractBits := binary .extractBits .extractBits

/-- Source: `ExprBuilder::deposit_bits` -/
def depositBits := binary .depositBits .depositBits

/-- Source: `mul` -/
def mul := binary .mul .mul

/-- Source: `carryless_mul` -/
def carrylessMul := binary .carrylessMul .carrylessMul

/-- Source: `div` -/
def div := binary .div .div

/-- Source: `udiv` -/
def udiv := binary .unsignedDiv .unsignedDiv

/-- Source: `rem` -/
def rem := binary .rem .rem

/-- Source: `urem` -/
def urem := binary .unsignedRem .unsignedRem

/-- Source: `shl` -/
def shl := binary .shl .shl

/-- Source: `shr` -/
def shr := binary .shr .shr

/-- Source: `and` -/
def and := binary .and .and

/-- Source: `add` -/
def add := binary .add .add

/-- Source: `sub` -/
def sub := binary .sub .sub

/-- Source: `or` -/
def or := binary .or .or

/-- Source: `xor` -/
def xor := binary .xor .xor

/-- Source: `not` -/
def not := unary .not .not

/-- Source: `parity` -/
def parity := unary .parity .parity

/-- Source: `select` -/
def select (numSkip numTake : U8) := unary (.select numSkip numTake) (.select numSkip numTake)

/-- Source: `concat_bit` -/
def concatBit (a b : ExprBuilder) : Partial ExprBuilder := do
  let ops ← OpWriter.new.writeBuilder a
  let ops ← ops.write (.const 1)
  let ops ← ops.write .shl
  let ops ← ops.writeBuilder b
  return ⟨← ops.write .or, .or (.shl a.builder (.const 1)) b.builder⟩

/-- Source: `is_zero` -/
def isZero := unary .isZero .isZero

/-- Source: `less_than` -/
def lessThan := binary .cmpLt .cmpLt

/-- Source: `bit_mask` -/
def bitMask := unary .bitMask .bitMask

end ExprBuilder

/-! ## Templates -/

/-- The calls that build an expression. -/
inductive Template where
  | hole (n : U16)
  | c (val : U8)
  | zero
  | one
  | crop (numBits : U8) (a : Template)
  | signExtend (numBits : U8) (a : Template)
  | byteMask (a : Template)
  | trailingZeros (a : Template)
  | leadingZeros (a : Template)
  | popcount (a : Template)
  | abs (a : Template)
  | not (a : Template)
  | parity (a : Template)
  | select (numSkip numTake : U8) (a : Template)
  | isZero (a : Template)
  | bitMask (a : Template)
  | rol (numBits : U8) (a b : Template)
  | extractBits (a b : Template)
  | depositBits (a b : Template)
  | mul (a b : Template)
  | carrylessMul (a b : Template)
  | div (a b : Template)
  | udiv (a b : Template)
  | rem (a b : Template)
  | urem (a b : Template)
  | shl (a b : Template)
  | shr (a b : Template)
  | and (a b : Template)
  | add (a b : Template)
  | sub (a b : Template)
  | or (a b : Template)
  | xor (a b : Template)
  | concatBit (a b : Template)
  | lessThan (a b : Template)
  | ifZero (a b d : Template)
deriving DecidableEq, Repr

/-- The builder that a template evaluates to. -/
def Template.build : Template → Partial ExprBuilder
  | .hole n => ExprBuilder.hole n
  | .c val => ExprBuilder.c val
  | .zero => ExprBuilder.zero
  | .one => ExprBuilder.one
  | .crop numBits a => do ExprBuilder.crop numBits (← a.build)
  | .signExtend numBits a => do ExprBuilder.signExtend numBits (← a.build)
  | .byteMask a => do ExprBuilder.byteMask (← a.build)
  | .trailingZeros a => do ExprBuilder.trailingZeros (← a.build)
  | .leadingZeros a => do ExprBuilder.leadingZeros (← a.build)
  | .popcount a => do ExprBuilder.popcount (← a.build)
  | .abs a => do ExprBuilder.abs (← a.build)
  | .not a => do ExprBuilder.not (← a.build)
  | .parity a => do ExprBuilder.parity (← a.build)
  | .select numSkip numTake a => do ExprBuilder.select numSkip numTake (← a.build)
  | .isZero a => do ExprBuilder.isZero (← a.build)
  | .bitMask a => do ExprBuilder.bitMask (← a.build)
  | .rol numBits a b => do ExprBuilder.rol numBits (← a.build) (← b.build)
  | .extractBits a b => do ExprBuilder.extractBits (← a.build) (← b.build)
  | .depositBits a b => do ExprBuilder.depositBits (← a.build) (← b.build)
  | .mul a b => do ExprBuilder.mul (← a.build) (← b.build)
  | .carrylessMul a b => do ExprBuilder.carrylessMul (← a.build) (← b.build)
  | .div a b => do ExprBuilder.div (← a.build) (← b.build)
  | .udiv a b => do ExprBuilder.udiv (← a.build) (← b.build)
  | .rem a b => do ExprBuilder.rem (← a.build) (← b.build)
  | .urem a b => do ExprBuilder.urem (← a.build) (← b.build)
  | .shl a b => do ExprBuilder.shl (← a.build) (← b.build)
  | .shr a b => do ExprBuilder.shr (← a.build) (← b.build)
  | .and a b => do ExprBuilder.and (← a.build) (← b.build)
  | .add a b => do ExprBuilder.add (← a.build) (← b.build)
  | .sub a b => do ExprBuilder.sub (← a.build) (← b.build)
  | .or a b => do ExprBuilder.or (← a.build) (← b.build)
  | .xor a b => do ExprBuilder.xor (← a.build) (← b.build)
  | .concatBit a b => do ExprBuilder.concatBit (← a.build) (← b.build)
  | .lessThan a b => do ExprBuilder.lessThan (← a.build) (← b.build)
  | .ifZero a b d => do ExprBuilder.ifZero (← a.build) (← b.build) (← d.build)

/-- Source: `ExprBuilder::compute`. A node type has a single value, which is what
`reconstruct` returns. -/
def ExprBuilder.compute (b : ExprBuilder) (args : Args) : Partial I128 :=
  b.builder.compute args

/-! ## Expressions -/

/-- Source: `mod.rs`, `FastEval` -/
structure FastEval where
  eval : List I128 → Partial I128
  evalIndirect : List I128 → List U16 → Partial I128
  evalIndirectU64 : List I128 → List U16 → Partial U64
  evalIndirectBool : List I128 → List U16 → Partial Bool

/-- Source: `mod.rs`, `Expr` -/
structure Expr where
  ops : List Op
  fastEval : Option FastEval

namespace Expr

/-- Source: `mod.rs`, `Expr::evaluate` -/
def evaluate (e : Expr) (args : List I128) : Partial I128 :=
  match e.fastEval with
  | some fast => fast.eval args
  | none => evaluateOnStack e.ops args

/-- Source: `mod.rs`, `Expr::evaluate_indirect` -/
def evaluateIndirect (e : Expr) (allArgs : List I128) (mapping : List U16) : Partial I128 :=
  match e.fastEval with
  | some fast => fast.evalIndirect allArgs mapping
  | none => evaluateIndirectOnStack e.ops (indexIndirect allArgs mapping)

/-- Source: `mod.rs`, `Expr::evaluate_indirect_as_u64` -/
def evaluateIndirectAsU64 (e : Expr) (allArgs : List I128) (mapping : List U16) : Partial U64 :=
  match e.fastEval with
  | some fast => fast.evalIndirectU64 allArgs mapping
  | none => do
    let result ← evaluateIndirectOnStack e.ops (indexIndirect allArgs mapping)
    return result.setWidth 64

/-- Source: `mod.rs`, `Expr::evaluate_indirect_as_bool` -/
def evaluateIndirectAsBool (e : Expr) (allArgs : List I128) (mapping : List U16) : Partial Bool :=
  match e.fastEval with
  | some fast => fast.evalIndirectBool allArgs mapping
  | none => do
    let result ← evaluateIndirectOnStack e.ops (indexIndirect allArgs mapping)
    return result.setWidth 64 &&& 1 ≠ 0

/-- Source: `mod.rs`, `Expr::without_fast_eval` -/
def withoutFastEval (e : Expr) : Expr := { e with fastEval := none }

end Expr

/-- The loop of `count_holes` that marks the holes. -/
def markHoles : List Op → List Bool → Partial (List Bool)
  | [], argsSeen => .ok argsSeen
  | .hole n :: ops, argsSeen =>
    if n.toNat < argsSeen.length then markHoles ops (argsSeen.set n.toNat true)
    else .error .indexOutOfBounds
  | _ :: ops, argsSeen => markHoles ops argsSeen

/-- Source: `mod.rs`, `Expr::count_holes` -/
def countHoles (ops : List Op) : Partial ℕ := do
  let argsSeen ← markHoles ops (List.replicate 4096 false)
  let numArgs := (argsSeen.takeWhile id).length
  if numArgs = argsSeen.length then .error .indexOutOfBounds
  else if (argsSeen.drop numArgs).any id then .error .assertionFailed
  else .ok numArgs

/-- The check at the start of a compiled function. -/
def needHoles {α : Type} (numHoles : ℕ) (args : List α) : Partial Unit :=
  if args.length < numHoles then .error .tooFewArguments else .ok ()

/-- Source: `mod.rs`, the `expr!` macro -/
def expr (t : Template) : Partial Expr := do
  let b ← t.build
  let numHoles ← countHoles b.ops.ops
  return {
    ops := b.ops.ops
    fastEval := some {
      eval := fun args => do
        needHoles numHoles args
        b.compute (indexArgs args)
      evalIndirect := fun allArgs mapping => do
        needHoles numHoles mapping
        b.compute (indexIndirect allArgs mapping)
      evalIndirectU64 := fun allArgs mapping => do
        needHoles numHoles mapping
        return (← b.compute (indexIndirect allArgs mapping)).setWidth 64
      evalIndirectBool := fun allArgs mapping => do
        needHoles numHoles mapping
        return (← b.compute (indexIndirect allArgs mapping)).setWidth 64 &&& 1 ≠ 0 } }

end LibLisa.Semantics
