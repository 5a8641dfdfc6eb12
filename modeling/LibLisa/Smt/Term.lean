import LibLisa.Smt.Tree

/-!
# What the expressions of the wrapped solver mean

The solver that `CachedSolver` wraps is used through the trait `SmtSolver`. A `Term` is an
expression built by calls of that trait, with all their parameters, and `Term.eval` its value under
an assignment of its constants, as in SMT-LIB. The four Rust types of expressions are one type here;
a term whose parts do not fit together has the value `illSorted`.

A constant is given by its name and its sort: declaring the same name with the same sort twice
gives the same constant.
-/

namespace LibLisa.Smt

open Classical

/-- The values of a sort. -/
abbrev SmtSort.Dom : SmtSort → Type
  | .bv size => BitVec size
  | .bool => Bool
  | .array indexSize elementSize => BitVec indexSize → BitVec elementSize

/-- Values for constants named by `ι`. -/
abbrev Assignment (ι : Type) := ι → (s : SmtSort) → s.Dom

/-- The value of an expression. -/
inductive Value where
  | bv (size : ℕ) (x : BitVec size)
  | int (z : ℤ)
  | bool (b : Bool)
  | array (indexSize elementSize : ℕ) (a : BitVec indexSize → BitVec elementSize)
  | illSorted

/-- The value of a constant. -/
def SmtSort.value : (s : SmtSort) → s.Dom → Value
  | .bv size, x => .bv size x
  | .bool, b => .bool b
  | .array indexSize elementSize, a => .array indexSize elementSize a

instance (s : SmtSort) : Inhabited s.Dom :=
  match s with
  | .bv size => ⟨(0 : BitVec size)⟩
  | .bool => ⟨false⟩
  | .array _ elementSize => ⟨fun _ => (0 : BitVec elementSize)⟩

/-- The operations with one operand, with the parameters that the solver gets. -/
inductive TermOp where
  | bvFromInt (size : U32)
  | intFromBv (signed : Bool)
  | not
  | extract (hi lo : U32)
  | zeroExt (num : U32)
  | signExt (num : U32)
deriving DecidableEq

/-! ## The operations on values -/

namespace Value

/-- `bv_from_i64` and `bv_from_u64` -/
def bvFrom (signed : Bool) (val : U64) (size : U32) : Value :=
  .bv size.toNat (if signed then val.signExtend size.toNat else val.setWidth size.toNat)

/-- `int_from_i64` and `int_from_u64` -/
def intFrom (signed : Bool) (val : U64) : Value :=
  .int (if signed then val.toInt else val.toNat)

/-- An operation on bit vectors of the same size. -/
def bvBin (f : ∀ {n : ℕ}, BitVec n → BitVec n → BitVec n) : Value → Value → Value
  | .bv m x, .bv n y => if h : n = m then .bv m (f x (y.cast h)) else .illSorted
  | _, _ => .illSorted

/-- A comparison of bit vectors of the same size. -/
def bvCmp (f : ∀ {n : ℕ}, BitVec n → BitVec n → Bool) : Value → Value → Value
  | .bv m x, .bv n y => if h : n = m then .bool (f x (y.cast h)) else .illSorted
  | _, _ => .illSorted

/-- Arithmetic on bit vectors and integers. -/
def arith (f : ∀ {n : ℕ}, BitVec n → BitVec n → BitVec n) (g : ℤ → ℤ → ℤ) : Value → Value → Value
  | .int x, .int y => .int (g x y)
  | a, b => bvBin f a b

/-- Logic on bit vectors and booleans. -/
def logic (f : ∀ {n : ℕ}, BitVec n → BitVec n → BitVec n) (g : Bool → Bool → Bool) :
    Value → Value → Value
  | .bool x, .bool y => .bool (g x y)
  | a, b => bvBin f a b

/-- Equality of values of one sort. -/
noncomputable def eqv : Value → Value → Value
  | .int x, .int y => .bool (x == y)
  | .bool x, .bool y => .bool (x == y)
  | .array i e a, .array i' e' b =>
    if h : i' = i ∧ e' = e then .bool (decide (∀ k, a k = (b (k.cast h.1.symm)).cast h.2))
    else .illSorted
  | a, b => bvCmp (fun x y => x == y) a b

/-- The operations with two operands. -/
noncomputable def binOp : BinOp → Value → Value → Value
  | .concat, .bv m x, .bv n y => .bv (m + n) (x ++ y)
  | .concat, _, _ => .illSorted
  | .bvShl, a, b => bvBin (fun x y => x <<< y.toNat) a b
  | .bvLShr, a, b => bvBin (fun x y => x >>> y.toNat) a b
  | .bvAShr, a, b => bvBin (fun x y => x.sshiftRight y.toNat) a b
  | .bvURem, a, b => bvBin (fun x y => x.umod y) a b
  | .bvSRem, a, b => bvBin (fun x y => x.srem y) a b
  | .bvUDiv, a, b => bvBin (fun x y => x.smtUDiv y) a b
  | .bvSDiv, a, b => bvBin (fun x y => x.smtSDiv y) a b
  | .bvRotL, a, b => bvBin (fun x y => x.rotateLeft y.toNat) a b
  | .bvRotR, a, b => bvBin (fun x y => x.rotateRight y.toNat) a b
  | .bvSlt, a, b => bvCmp (fun x y => x.slt y) a b
  | .bvSge, a, b => bvCmp (fun x y => y.sle x) a b
  | .bvSgt, a, b => bvCmp (fun x y => y.slt x) a b
  | .bvUgt, a, b => bvCmp (fun x y => y.ult x) a b
  | .bvUlt, a, b => bvCmp (fun x y => x.ult y) a b
  | .bvUle, a, b => bvCmp (fun x y => x.ule y) a b
  | .bvUge, a, b => bvCmp (fun x y => y.ule x) a b
  | .eq, a, b => eqv a b
  | .add, a, b => arith (fun x y => x + y) (fun x y => x + y) a b
  | .sub, a, b => arith (fun x y => x - y) (fun x y => x - y) a b
  | .mul, a, b => arith (fun x y => x * y) (fun x y => x * y) a b
  | .or, a, b => logic (fun x y => x ||| y) (fun x y => x || y) a b
  | .and, a, b => logic (fun x y => x &&& y) (fun x y => x && y) a b
  | .xor, a, b => logic (fun x y => x ^^^ y) (fun x y => x ^^ y) a b

/-- The operations with one operand. -/
def unOp : TermOp → Value → Value
  | .bvFromInt size, .int z => .bv size.toNat (BitVec.ofInt size.toNat z)
  | .intFromBv signed, .bv _ x => .int (if signed then x.toInt else x.toNat)
  | .not, .bv n x => .bv n (~~~x)
  | .not, .bool b => .bool (!b)
  | .extract hi lo, .bv n x =>
    if lo.toNat ≤ hi.toNat ∧ hi.toNat < n then
      .bv (hi.toNat - lo.toNat + 1) (x.extractLsb hi.toNat lo.toNat)
    else .illSorted
  | .zeroExt num, .bv n x => .bv (n + num.toNat) (x.setWidth (n + num.toNat))
  | .signExt num, .bv n x => .bv (n + num.toNat) (x.signExtend (n + num.toNat))
  | _, _ => .illSorted

/-- If-then-else. -/
def ite : Value → Value → Value → Value
  | .bool c, a, b => if c then a else b
  | _, _, _ => .illSorted

/-- The element of an array at an index. -/
def select : Value → Value → Value
  | .array i e a, .bv n k => if h : n = i then .bv e (a (k.cast h)) else .illSorted
  | _, _ => .illSorted

/-- The array with another element at an index. -/
def store : Value → Value → Value → Value
  | .array i e a, .bv n k, .bv m v =>
    if h : n = i ∧ m = e then .array i e (Function.update a (k.cast h.1) (v.cast h.2))
    else .illSorted
  | _, _, _ => .illSorted

/-- A quantifier: the condition holds under every change of the bound constants. -/
noncomputable def forAll {ι : Type} (bound : List (ι × SmtSort)) (condition : Assignment ι → Value)
    (ρ : Assignment ι) : Value :=
  .bool (decide (∀ ρ' : Assignment ι, (∀ k s, (k, s) ∉ bound → ρ' k s = ρ k s) →
    condition ρ' = .bool true))

end Value

/-! ## Terms -/

/-- An expression of the wrapped solver. `bvFrom` and `intFrom` are the literals from an `i64`
(signed) or a `u64`. -/
inductive Term where
  | bvFrom (signed : Bool) (val : U64) (size : U32)
  | intFrom (signed : Bool) (val : U64)
  | boolFromBool (val : Bool)
  | const (name : String) (s : SmtSort)
  | binOp (op : BinOp) (lhs rhs : Term)
  | unOp (op : TermOp) (arg : Term)
  | ite (cond lhs rhs : Term)
  | forallConst (bounds : List Term) (condition : Term)
  | select (arr index : Term)
  | store (arr index value : Term)

namespace Term

/-- The constant that a term is. -/
def asConst : Term → Option (String × SmtSort)
  | .const name s => some (name, s)
  | _ => none

/-- The value of a term. -/
noncomputable def eval : Term → Assignment String → Value
  | .bvFrom signed val size, _ => .bvFrom signed val size
  | .intFrom signed val, _ => .intFrom signed val
  | .boolFromBool val, _ => .bool val
  | .const name s, ρ => s.value (ρ name s)
  | .binOp op lhs rhs, ρ => .binOp op (lhs.eval ρ) (rhs.eval ρ)
  | .unOp op arg, ρ => .unOp op (arg.eval ρ)
  | .ite cond lhs rhs, ρ => .ite (cond.eval ρ) (lhs.eval ρ) (rhs.eval ρ)
  | .forallConst bounds condition, ρ =>
    .forAll (bounds.filterMap asConst) (fun ρ' => condition.eval ρ') ρ
  | .select arr index, ρ => .select (arr.eval ρ) (index.eval ρ)
  | .store arr index value, ρ => .store (arr.eval ρ) (index.eval ρ) (value.eval ρ)

/-- Some assignment makes all the assertions true. -/
def Satisfiable (assertions : List Term) : Prop :=
  ∃ ρ, ∀ t ∈ assertions, t.eval ρ = .bool true

end Term

end LibLisa.Smt
