import LibLisa.Panic
import LibLisa.Lib.Wire

/-!
# The trees of the solver cache

The model of `smt/tree.rs`. A `Tree` records how an expression was made from the operations of the
solver. Constants are numbered as they are declared; `to_bytes` numbers them again, in the order in
which it meets them, so that queries that differ only in their constants give the same bytes.

The type of the constants is a parameter of `Tree`: the trees of the source are `Tree ConstId`, and
a tree with the new numbers is a `Tree U8`.
-/

namespace LibLisa.Smt

open Lib.Wire

/-- Source: `smt/tree.rs`, `ConstId` -/
abbrev ConstId := ℕ

/-- Source: `smt/tree.rs`, `BinOp` -/
inductive BinOp where
  | concat
  | bvShl
  | bvLShr
  | bvAShr
  | bvURem
  | bvSRem
  | bvUDiv
  | bvSDiv
  | bvRotL
  | bvRotR
  | bvSlt
  | bvSge
  | bvSgt
  | bvUgt
  | bvUlt
  | bvUle
  | bvUge
  | eq
  | add
  | sub
  | mul
  | or
  | and
  | xor
deriving DecidableEq

/-- Source: `smt/tree.rs`, `UnOp` -/
inductive UnOp where
  | bvFromInt
  | intFromBv
  | not
  | extract (hi lo : U32)
  | zeroExt (num : U32)
  | signExt (num : U32)
deriving DecidableEq

/-- Source: `smt/tree.rs`, `Tree` -/
inductive Tree (ι : Type) where
  | fixedBV (val : U64) (size : U32)
  | fixedInt (val : U64)
  | fixedBool (val : Bool)
  | bv (id : ι) (size : U32)
  | bool (id : ι)
  | binOp (op : BinOp) (lhs rhs : Tree ι)
  | unOp (op : UnOp) (arg : Tree ι)
  | ite (cond lhs rhs : Tree ι)
  | constInterp
  | forAll (bounds : List (Tree ι)) (condition : Tree ι)
  | select (array index : Tree ι)
  | store (array index value : Tree ι)
  | array (id : ι) (indexSize elementSize : U32)

/-- The sorts that a constant can have. -/
inductive SmtSort where
  | bv (size : ℕ)
  | bool
  | array (indexSize elementSize : ℕ)
deriving DecidableEq

/-! ## The order of the trees -/

/-- The place of an operation in the declaration, which is also its code: `op as u8`. -/
def BinOp.index (op : BinOp) : ℕ := op.ctorIdx

/-- The order that `derive(Ord)` gives. -/
def UnOp.cmp : UnOp → UnOp → Ordering
  | .extract hi lo, .extract hi' lo' =>
    (compare hi.toNat hi'.toNat).then (compare lo.toNat lo'.toNat)
  | .zeroExt num, .zeroExt num' => compare num.toNat num'.toNat
  | .signExt num, .signExt num' => compare num.toNat num'.toNat
  | op, op' => compare op.ctorIdx op'.ctorIdx

mutual

/-- The order that `derive(Ord)` gives: by variant, then field by field. -/
def Tree.cmp : Tree ConstId → Tree ConstId → Ordering
  | .fixedBV val size, .fixedBV val' size' =>
    (compare val.toNat val'.toNat).then (compare size.toNat size'.toNat)
  | .fixedInt val, .fixedInt val' => compare val.toNat val'.toNat
  | .fixedBool val, .fixedBool val' => compare val val'
  | .bv id size, .bv id' size' => (compare id id').then (compare size.toNat size'.toNat)
  | .bool id, .bool id' => compare id id'
  | .binOp op lhs rhs, .binOp op' lhs' rhs' =>
    (compare op.index op'.index).then ((lhs.cmp lhs').then (rhs.cmp rhs'))
  | .unOp op arg, .unOp op' arg' => (op.cmp op').then (arg.cmp arg')
  | .ite cond lhs rhs, .ite cond' lhs' rhs' =>
    (cond.cmp cond').then ((lhs.cmp lhs').then (rhs.cmp rhs'))
  | .forAll bounds condition, .forAll bounds' condition' =>
    (cmpList bounds bounds').then (condition.cmp condition')
  | .select array index, .select array' index' => (array.cmp array').then (index.cmp index')
  | .store array index value, .store array' index' value' =>
    (array.cmp array').then ((index.cmp index').then (value.cmp value'))
  | .array id indexSize elementSize, .array id' indexSize' elementSize' =>
    (compare id id').then ((compare indexSize.toNat indexSize'.toNat).then
      (compare elementSize.toNat elementSize'.toNat))
  | t, t' => compare t.ctorIdx t'.ctorIdx

/-- The order of vectors of trees. -/
def cmpList : List (Tree ConstId) → List (Tree ConstId) → Ordering
  | [], [] => .eq
  | [], _ :: _ => .lt
  | _ :: _, [] => .gt
  | t :: ts, t' :: ts' => (t.cmp t').then (cmpList ts ts')

end

/-! ## The bytes of a tree -/

/-- The numbers that constants have got so far, in the order in which they got them. -/
abbrev IdMap := List (ConstId × U8)

/-- `let n = map.len() as u8; *map.entry(id).or_insert(n)` -/
def IdMap.entry (map : IdMap) (id : ConstId) : U8 × IdMap :=
  match map.lookup id with
  | some n => (n, map)
  | none => (BitVec.ofNat 8 map.length, map ++ [(id, BitVec.ofNat 8 map.length)])

/-- The tag of an operation with one operand, and its parameters. -/
def UnOp.toBytes : UnOp → List U8
  | .bvFromInt => [8]
  | .extract hi lo => 9 :: (leBytes 4 hi.toNat ++ leBytes 4 lo.toNat)
  | .intFromBv => [10]
  | .not => [11]
  | .signExt num => 12 :: leBytes 4 num.toNat
  | .zeroExt num => 13 :: leBytes 4 num.toNat

mutual

/-- Source: `smt/tree.rs`, `Tree::to_bytes_internal`. The bytes are the ones that the call appends
to `out`; `to_ne_bytes` is taken on a little-endian machine. -/
def Tree.toBytesInternal : Tree ConstId → IdMap → Partial (List U8 × IdMap)
  | .fixedBV val size, map => .ok (0 :: (leBytes 8 val.toNat ++ leBytes 4 size.toNat), map)
  | .fixedInt val, map => .ok (1 :: leBytes 8 val.toNat, map)
  | .fixedBool val, map => .ok ([if val then 3 else 2], map)
  | .bv id size, map =>
    let (n, map) := map.entry id
    .ok (4 :: n :: leBytes 4 size.toNat, map)
  | .bool id, map =>
    let (n, map) := map.entry id
    .ok ([5, n], map)
  | .ite cond lhs rhs, map => do
    let (bs, map) ← cond.toBytesInternal map
    let (bs', map) ← lhs.toBytesInternal map
    let (bs'', map) ← rhs.toBytesInternal map
    return (6 :: (bs ++ (bs' ++ bs'')), map)
  | .constInterp, _ => .error .unreachable
  | .forAll bounds condition, map =>
    if bounds.length < 2 ^ 16 then do
      let (bs, map) ← boundsToBytes bounds map
      let (bs', map) ← condition.toBytesInternal map
      return (7 :: (leBytes 2 bounds.length ++ (bs ++ bs')), map)
    else .error .tooManyBounds
  | .unOp op arg, map => do
    let (bs, map) ← arg.toBytesInternal map
    return (op.toBytes ++ bs, map)
  | .select array index, map => do
    let (bs, map) ← array.toBytesInternal map
    let (bs', map) ← index.toBytesInternal map
    return (14 :: (bs ++ bs'), map)
  | .store array index value, map => do
    let (bs, map) ← array.toBytesInternal map
    let (bs', map) ← index.toBytesInternal map
    let (bs'', map) ← value.toBytesInternal map
    return (15 :: (bs ++ (bs' ++ bs'')), map)
  | .array id indexSize elementSize, map =>
    let (n, map) := map.entry id
    .ok (16 :: n :: (leBytes 4 indexSize.toNat ++ leBytes 4 elementSize.toNat), map)
  | .binOp op lhs rhs, map => do
    let (bs, map) ← lhs.toBytesInternal map
    let (bs', map) ← rhs.toBytesInternal map
    return (BitVec.ofNat 8 (0x80 + op.index) :: (bs ++ bs'), map)

/-- The loop over the bound constants of a quantifier. -/
def boundsToBytes : List (Tree ConstId) → IdMap → Partial (List U8 × IdMap)
  | [], map => .ok ([], map)
  | bound :: bounds, map => do
    let (bs, map) ← bound.toBytesInternal map
    let (bs', map) ← boundsToBytes bounds map
    return (bs ++ bs', map)

end

/-- Source: `smt/tree.rs`, `Tree::to_bytes` -/
def Tree.toBytes (t : Tree ConstId) (map : IdMap) : Partial (List U8 × IdMap) :=
  t.toBytesInternal map

end LibLisa.Smt
