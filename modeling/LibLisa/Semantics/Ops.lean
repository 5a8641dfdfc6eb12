import LibLisa.Lib.Word
import LibLisa.Panic

/-!
# Operations of expressions

The model of `semantics/default/ops.rs` and of the evaluation of operation lists in
`semantics/default/mod.rs`. Every operation has two implementations in the source: the node types
`NotOp`, `AddOp`, …, which are nested in each other and computed recursively (`FastOp`), and the
flat `Op`, which is evaluated on a stack. Values are words of 128 bits; arithmetic that the source
does not ask to wrap is checked, as in a debug build.
-/

namespace LibLisa.Semantics

open Lib

/-- The type `i128`. -/
abbrev I128 := BitVec 128

/-! ## Checked arithmetic -/

/-- `v << n` -/
def shl {w : ℕ} (v : BitVec w) (n : ℕ) : Partial (BitVec w) :=
  if n < w then .ok (v <<< n) else .error .arithmeticOverflow

/-- `v >> n` on a signed word. -/
def sshr {w : ℕ} (v : BitVec w) (n : ℕ) : Partial (BitVec w) :=
  if n < w then .ok (v.sshiftRight n) else .error .arithmeticOverflow

/-- `v >> n` on an unsigned word. -/
def ushr {w : ℕ} (v : BitVec w) (n : ℕ) : Partial (BitVec w) :=
  if n < w then .ok (v >>> n) else .error .arithmeticOverflow

/-- `v - w` on signed words. -/
def ssub (v w : I128) : Partial I128 :=
  if v.ssubOverflow w then .error .arithmeticOverflow else .ok (v - w)

/-- `a - b` on unsigned numbers. -/
def usub (a b : ℕ) : Partial ℕ := if b ≤ a then .ok (a - b) else .error .arithmeticOverflow

/-- The cast `v as u32`. -/
def asU32 (v : I128) : ℕ := v.toNat % 2 ^ 32

/-- `v.wrapping_shl(n)` -/
def wrappingShl (v : I128) (n : ℕ) : I128 := v <<< (n % 128)

/-- `v.wrapping_shr(n)` -/
def wrappingShr (v : I128) (n : ℕ) : I128 := v.sshiftRight (n % 128)

/-- `i128::from(b)` -/
def ofBool (b : Bool) : I128 := if b then 1 else 0

/-- `(1i128 << num_bits) - 1` -/
def lowMask (numBits : U8) : Partial I128 := do
  let bit ← shl (1 : I128) numBits.toNat
  ssub bit 1

/-- Source: `utils/mod.rs`, `sign_extend` -/
def signExtend (v : I128) (n : ℕ) : Partial I128 := do
  let k ← usub 128 n
  let v ← shl v k
  sshr v k

/-! ## The values of the operations -/

/-- Source: `CropOp` -/
def crop (numBits : U8) (v : I128) : Partial I128 := do
  let mask ← lowMask numBits
  return v &&& mask

/-- Source: `SignExtendOp` -/
def signExtendOp (numBits : U8) (v : I128) : Partial I128 := do
  let mask ← lowMask numBits
  signExtend (v &&& mask) numBits.toNat

/-- Source: `SelectOp` -/
def select (numSkip numTake : U8) (v : I128) : Partial I128 := do
  let v ← sshr v numSkip.toNat
  let mask ← lowMask numTake
  return v &&& mask

/-- Source: `ParityOp` -/
def parity (v : I128) : I128 := BitVec.ofNat 128 (((v.setWidth 8).cpop.toNat + 1) % 2)

/-- Source: `IsZeroOp` -/
def isZero (v : I128) : I128 := ofBool (v == 0)

/-- Source: `ByteMaskOp` -/
def byteMask (v : I128) : I128 :=
  (List.range 16).foldl (fun acc index =>
    acc ||| ((v.sshiftRight (index * 8 + 7) &&& 1) <<< index)) 0

/-- Source: `BitMaskOp` -/
def bitMask (v : I128) : I128 :=
  if (128 : I128).sle v then -1 else wrappingShl 1 (asU32 v) - 1

/-- Source: `SwapBytesOp::compute_internal` -/
def swapBytesOp (numBits : U8) (v : I128) : Partial I128 := do
  let unused ← usub 128 numBits.toNat
  sshr (swapBytes v) (unused / 8 * 8)

/-- Source: `CarrylessMulOp` -/
def carrylessMul (x y : I128) : I128 :=
  (List.range 128).foldl (fun result i =>
    if x.sshiftRight i &&& 1 ≠ 0 then result ^^^ (y <<< i) else result) 0

/-- Source: `DivOp` -/
def div (a b : I128) : I128 := if b = 0 then 0 else a.sdiv b

/-- Source: `UnsignedDivOp` -/
def unsignedDiv (a b : I128) : I128 := if b = 0 then 0 else a.udiv b

/-- Source: `RemOp` -/
def rem (a b : I128) : I128 := if b = 0 then 0 else a.srem b

/-- Source: `UnsignedRemOp` -/
def unsignedRem (a b : I128) : I128 := if b = 0 then 0 else a.umod b

/-- Source: `CmpLtOp` -/
def cmpLt (a b : I128) : I128 := ofBool (a.slt b)

/-- Source: `compute_rol` -/
def computeRol (val n : I128) (numBits : U8) : Partial I128 := do
  let unused ← usub 128 numBits.toNat
  let mask ← ushr (BitVec.allOnes 128) unused
  let a := val &&& mask
  let n := asU32 n % numBits.toNat
  return (wrappingShl a n ||| wrappingShr a (numBits.toNat - n)) &&& mask

/-- The loop of `deposit_bits_u128`. Every round takes a bit off the selector. -/
def depositLoop : ℕ → I128 → I128 → I128 → ℕ → Partial I128
  | 0, _, selector, dest, _ => if selector = 0 then .ok dest else .error .outOfFuel
  | fuel + 1, source, selector, dest, destBit =>
    if selector = 0 then .ok dest
    else do
      let bitIndex := selector.ctz.toNat
      let bit ← shl (source &&& 1) (destBit + bitIndex)
      let selector ← ushr selector (bitIndex + 1)
      depositLoop fuel (source >>> 1) selector (dest ||| bit) (destBit + bitIndex + 1)

/-- Source: `utils/mod.rs`, `deposit_bits_u128` -/
def depositBits (source selector : I128) : Partial I128 := depositLoop 128 source selector 0 0

/-- The loop of `ExtractBitsOp`. -/
def extractLoop : ℕ → I128 → I128 → I128 → ℕ → Partial I128
  | 0, _, selector, dest, _ => if selector = 0 then .ok dest else .error .outOfFuel
  | fuel + 1, source, selector, dest, destBit =>
    if selector = 0 then .ok dest
    else do
      let bitIndex := selector.ctz.toNat
      let source ← ushr source bitIndex
      let bit := source &&& 1
      let selector ← ushr selector (bitIndex + 1)
      let bit ← shl bit destBit
      extractLoop fuel (source >>> 1) selector (dest ||| bit) (destBit + 1)

/-- Source: `ExtractBitsOp` -/
def extractBits (source selector : I128) : Partial I128 := extractLoop 128 source selector 0 0

/-- Source: `IfZeroOp` -/
def ifZero (condition zero nonzero : I128) : I128 := if condition = 0 then zero else nonzero

/-! ## Nested operations -/

/-- The node types that implement `FastOpImpl`, nested in each other. -/
inductive FastOp where
  | val (v : I128)
  | hole (index : U16)
  | const (value : U8)
  | not (v : FastOp)
  | crop (numBits : U8) (v : FastOp)
  | signExtend (numBits : U8) (v : FastOp)
  | select (numSkip numTake : U8) (v : FastOp)
  | parity (v : FastOp)
  | isZero (v : FastOp)
  | byteMask (v : FastOp)
  | bitMask (v : FastOp)
  | trailingZeros (v : FastOp)
  | leadingZeros (v : FastOp)
  | popCount (v : FastOp)
  | swapBytes (numBits : U8) (v : FastOp)
  | add (v w : FastOp)
  | sub (v w : FastOp)
  | mul (v w : FastOp)
  | carrylessMul (v w : FastOp)
  | div (v w : FastOp)
  | unsignedDiv (v w : FastOp)
  | rem (v w : FastOp)
  | unsignedRem (v w : FastOp)
  | shl (v w : FastOp)
  | shr (v w : FastOp)
  | and (v w : FastOp)
  | or (v w : FastOp)
  | xor (v w : FastOp)
  | cmpLt (v w : FastOp)
  | rol (numBits : U8) (v w : FastOp)
  | depositBits (v w : FastOp)
  | extractBits (v w : FastOp)
  | ifZero (condition zero nonzero : FastOp)
deriving DecidableEq, Repr

/-- The arguments, read by a function that can panic. -/
abbrev Args := ℕ → Partial I128

/-- Source: `FastOpImpl::compute` -/
def FastOp.compute (args : Args) : FastOp → Partial I128
  | .val v => .ok v
  | .hole index => args index.toNat
  | .const value => .ok (value.signExtend 128)
  | .not v => do return ~~~(← v.compute args)
  | .crop numBits v => do Semantics.crop numBits (← v.compute args)
  | .signExtend numBits v => do signExtendOp numBits (← v.compute args)
  | .select numSkip numTake v => do Semantics.select numSkip numTake (← v.compute args)
  | .parity v => do return Semantics.parity (← v.compute args)
  | .isZero v => do return Semantics.isZero (← v.compute args)
  | .byteMask v => do return Semantics.byteMask (← v.compute args)
  | .bitMask v => do return Semantics.bitMask (← v.compute args)
  | .trailingZeros v => do return (← v.compute args).ctz
  | .leadingZeros v => do return (← v.compute args).clz
  | .popCount v => do return (← v.compute args).cpop
  | .swapBytes numBits v => do swapBytesOp numBits (← v.compute args)
  | .add v w => do return (← v.compute args) + (← w.compute args)
  | .sub v w => do return (← v.compute args) - (← w.compute args)
  | .mul v w => do return (← v.compute args) * (← w.compute args)
  | .carrylessMul v w => do return Semantics.carrylessMul (← v.compute args) (← w.compute args)
  | .div v w => do return Semantics.div (← v.compute args) (← w.compute args)
  | .unsignedDiv v w => do return Semantics.unsignedDiv (← v.compute args) (← w.compute args)
  | .rem v w => do return Semantics.rem (← v.compute args) (← w.compute args)
  | .unsignedRem v w => do return Semantics.unsignedRem (← v.compute args) (← w.compute args)
  | .shl v w => do return wrappingShl (← v.compute args) (asU32 (← w.compute args))
  | .shr v w => do return wrappingShr (← v.compute args) (asU32 (← w.compute args))
  | .and v w => do return (← v.compute args) &&& (← w.compute args)
  | .or v w => do return (← v.compute args) ||| (← w.compute args)
  | .xor v w => do return (← v.compute args) ^^^ (← w.compute args)
  | .cmpLt v w => do return Semantics.cmpLt (← v.compute args) (← w.compute args)
  | .rol numBits v w => do computeRol (← v.compute args) (← w.compute args) numBits
  | .depositBits v w => do Semantics.depositBits (← v.compute args) (← w.compute args)
  | .extractBits v w => do Semantics.extractBits (← v.compute args) (← w.compute args)
  | .ifZero condition zero nonzero => do
    return Semantics.ifZero (← condition.compute args) (← zero.compute args)
      (← nonzero.compute args)

/-! ## Operations on a stack -/

/-- Source: `Op` -/
inductive Op where
  | hole (n : U16)
  | const (v : U8)
  | not
  | crop (numBits : U8)
  | signExtend (numBits : U8)
  | select (numSkip numTake : U8)
  | parity
  | isZero
  | byteMask
  | bitMask
  | trailingZeros
  | leadingZeros
  | popCount
  | swapBytes (numBits : U8)
  | add
  | sub
  | mul
  | carrylessMul
  | div
  | unsignedDiv
  | rem
  | unsignedRem
  | shl
  | shr
  | and
  | or
  | xor
  | cmpLt
  | rol (numBits : U8)
  | depositBits
  | extractBits
  | ifZero
deriving DecidableEq, Repr

/-- The values below the top of the stack, the last one pushed first. -/
abbrev Stack := List I128

/-- The capacity of the `ArrayVec` that holds the stack. -/
def stackCapacity : ℕ := 1024

/-- `stack.push(v)` -/
def Stack.push (stack : Stack) (v : I128) : Partial Stack :=
  if stack.length < stackCapacity then .ok (v :: stack) else .error .arrayVecFull

/-- `stack.pop().unwrap()` -/
def Stack.pop : Stack → Partial (I128 × Stack)
  | [] => .error .stackEmpty
  | v :: stack => .ok (v, stack)

/-- The arm of an operation with one operand. -/
def evalUnary (node : FastOp → FastOp) (args : Args) (top : I128) (stack : Stack) :
    Partial (I128 × Stack) := do
  return (← (node (.val top)).compute args, stack)

/-- The arm of an operation with two operands: the second one is on top. -/
def evalBinary (node : FastOp → FastOp → FastOp) (args : Args) (top : I128) (stack : Stack) :
    Partial (I128 × Stack) := do
  let b := top
  let (a, stack) ← stack.pop
  return (← (node (.val a) (.val b)).compute args, stack)

/-- Source: `Op::eval_from_stack` -/
def Op.evalFromStack (op : Op) (args : Args) (top : I128) (stack : Stack) :
    Partial (I128 × Stack) :=
  match op with
  | .const v => do
    let stack ← stack.push top
    return (v.signExtend 128, stack)
  | .hole n => do
    let stack ← stack.push top
    return (← args n.toNat, stack)
  | .add => evalBinary .add args top stack
  | .sub => evalBinary .sub args top stack
  | .mul => evalBinary .mul args top stack
  | .carrylessMul => evalBinary .carrylessMul args top stack
  | .div => evalBinary .div args top stack
  | .unsignedDiv => evalBinary .unsignedDiv args top stack
  | .rem => evalBinary .rem args top stack
  | .unsignedRem => evalBinary .unsignedRem args top stack
  | .shl => evalBinary .shl args top stack
  | .shr => evalBinary .shr args top stack
  | .and => evalBinary .and args top stack
  | .or => evalBinary .or args top stack
  | .xor => evalBinary .xor args top stack
  | .cmpLt => evalBinary .cmpLt args top stack
  | .rol numBits => do
    let b := top
    let (a, stack) ← stack.pop
    return (← computeRol a b numBits, stack)
  | .depositBits => evalBinary .depositBits args top stack
  | .extractBits => evalBinary .extractBits args top stack
  | .not => evalUnary .not args top stack
  | .parity => evalUnary .parity args top stack
  | .isZero => evalUnary .isZero args top stack
  | .crop numBits => do
    let mask ← lowMask numBits
    return (top &&& mask, stack)
  | .signExtend numBits => do
    let mask ← lowMask numBits
    return (← Semantics.signExtend (top &&& mask) numBits.toNat, stack)
  | .select numSkip numTake => do
    let v ← sshr top numSkip.toNat
    let mask ← lowMask numTake
    return (v &&& mask, stack)
  | .ifZero => do
    let nonzero := top
    let (zero, stack) ← stack.pop
    let (condition, stack) ← stack.pop
    return (← (FastOp.ifZero (.val condition) (.val zero) (.val nonzero)).compute args, stack)
  | .byteMask => evalUnary .byteMask args top stack
  | .bitMask => evalUnary .bitMask args top stack
  | .trailingZeros => evalUnary .trailingZeros args top stack
  | .leadingZeros => evalUnary .leadingZeros args top stack
  | .popCount => evalUnary .popCount args top stack
  | .swapBytes numBits => do return (← swapBytesOp numBits top, stack)

/-- The loop over the operations. -/
def runOps (args : Args) : List Op → I128 → Stack → Partial (I128 × Stack)
  | [], top, stack => .ok (top, stack)
  | op :: ops, top, stack => do
    let (top, stack) ← op.evalFromStack args top stack
    runOps args ops top stack

/-- `args[n]` -/
def indexArgs (args : List I128) (n : ℕ) : Partial I128 := orPanic .indexOutOfBounds args[n]?

/-- `all_args[mapping[n] as usize]` -/
def indexIndirect (allArgs : List I128) (mapping : List U16) (n : ℕ) : Partial I128 := do
  let index ← orPanic .indexOutOfBounds mapping[n]?
  indexArgs allArgs index.toNat

/-- Source: `mod.rs`, `Expr::evaluate_indirect_on_stack` -/
def evaluateIndirectOnStack (ops : List Op) (arg : Args) : Partial I128 := do
  let (top, _) ← runOps arg ops 0 []
  return top

/-- Source: `mod.rs`, `Expr::evaluate_on_stack` -/
def evaluateOnStack (ops : List Op) (args : List I128) : Partial I128 := do
  let (top, _) ← runOps (indexArgs args) ops 0 []
  return top

end LibLisa.Semantics
