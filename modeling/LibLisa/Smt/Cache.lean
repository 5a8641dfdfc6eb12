import LibLisa.Smt.Term

/-!
# The solver cache

The model of `smt/cache.rs`: `CachedSolver` wraps a solver and keeps, next to each of its
expressions, the `Tree` of the calls that made it. `check_assertions` hashes the trees and asks the
cache before it asks the solver.

`System` is any number of instances that share a cache, with the expressions that each of them has
handed out, and `run` a sequence of calls. The models of satisfiable assertions are left out; a cache
hit gives none. SHA-1 comes from outside the repository and is a parameter.

Where no file is given, the source is `smt/cache.rs`.
-/

namespace LibLisa.Smt

/-- Source: `smt/solver.rs`, `SatResult` -/
inductive SatResult where
  | unknown
  | sat
  | unsat
deriving DecidableEq

/-- Source: `CacheResult` -/
inductive CacheResult where
  | unsat
  | unknown
  | sat
deriving DecidableEq

/-- Source: `AssertionHash` -/
abbrev AssertionHash := Vector U8 20

/-- The contents of a `SolverCache`. -/
abbrev Cache := AssertionHash → Option CacheResult

/-- The wrapped solver. -/
structure WrappedSolver where
  simplify : Term → Term
  checkAssertions : List Term → SatResult

/-- Source: `CacheBV`, `CacheInt`, `CacheBool` and `CacheBVArray` -/
structure CacheTerm where
  inner : Term
  tree : Tree ConstId

/-- Source: `CachedSolver` -/
structure CachedSolver where
  constIdCounter : ℕ

/-! ## Making terms -/

/-- The operation as the tree records it: the size of a `bv_from_int` and the signedness of an
`int_from_bv` are not part of it. -/
def TermOp.recorded : TermOp → UnOp
  | .bvFromInt _ => .bvFromInt
  | .intFromBv _ => .intFromBv
  | .not => .not
  | .extract hi lo => .extract hi lo
  | .zeroExt num => .zeroExt num
  | .signExt num => .signExt num

namespace CacheTerm

/-- Source: `bv_from_i64` -/
def bvFromI64 (val : U64) (size : U32) : CacheTerm :=
  ⟨.bvFrom true val size, .fixedBV val size⟩

/-- Source: `bv_from_u64` -/
def bvFromU64 (val : U64) (size : U32) : CacheTerm :=
  ⟨.bvFrom false val size, .fixedBV val size⟩

/-- Source: `int_from_i64` -/
def intFromI64 (val : U64) : CacheTerm := ⟨.intFrom true val, .fixedInt val⟩

/-- Source: `int_from_u64` -/
def intFromU64 (val : U64) : CacheTerm := ⟨.intFrom false val, .fixedInt val⟩

/-- Source: `bool_from_bool` -/
def boolFromBool (val : Bool) : CacheTerm := ⟨.boolFromBool val, .fixedBool val⟩

/-- An operation with one operand: `bv_from_int`, `int_from_bv`, `not`, `extract`, `zero_ext` or
`sign_ext`. -/
def unary (op : TermOp) (arg : CacheTerm) : CacheTerm :=
  ⟨.unOp op arg.inner, .unOp op.recorded arg.tree⟩

/-- Source: `bv_from_int` -/
def bvFromInt (int : CacheTerm) (size : U32) : CacheTerm := unary (.bvFromInt size) int

/-- Source: `int_from_bv` -/
def intFromBv (bv : CacheTerm) (signed : Bool) : CacheTerm := unary (.intFromBv signed) bv

/-- An operation with two operands; each method of the expressions has the name of its `BinOp`. -/
def binary (op : BinOp) (lhs rhs : CacheTerm) : CacheTerm :=
  ⟨.binOp op lhs.inner rhs.inner, .binOp op lhs.tree rhs.tree⟩

/-- Source: `ite_bv`, `ite_int`, `ite_bool` and `ite_bv_array` -/
def ite (cond lhs rhs : CacheTerm) : CacheTerm :=
  ⟨.ite cond.inner lhs.inner rhs.inner, .ite cond.tree lhs.tree rhs.tree⟩

/-- Source: `forall_const` -/
def forallConst (vals : List CacheTerm) (condition : CacheTerm) : CacheTerm :=
  ⟨.forallConst (vals.map inner) condition.inner, .forAll (vals.map tree) condition.tree⟩

/-- Source: `select` -/
def select (arr index : CacheTerm) : CacheTerm :=
  ⟨.select arr.inner index.inner, .select arr.tree index.tree⟩

/-- Source: `store` -/
def store (arr index value : CacheTerm) : CacheTerm :=
  ⟨.store arr.inner index.inner value.inner, .store arr.tree index.tree value.tree⟩

/-- Source: `simplify` -/
def simplify (w : WrappedSolver) (x : CacheTerm) : CacheTerm := ⟨w.simplify x.inner, x.tree⟩

/-- Source: `get_const_interp`; `value` comes from a model of the solver. -/
def getConstInterp (value : Term) : CacheTerm := ⟨value, .constInterp⟩

end CacheTerm

namespace CachedSolver

/-- Source: `next_const_id` -/
def nextConstId (s : CachedSolver) : Partial (ConstId × CachedSolver) :=
  if s.constIdCounter + 1 < 2 ^ 64 then
    .ok (s.constIdCounter, { s with constIdCounter := s.constIdCounter + 1 })
  else .error .arithmeticOverflow

/-- The declaration of a constant; `leaf` is its tree. -/
def newConst (s : CachedSolver) (name : String) (sort : SmtSort) (leaf : ConstId → Tree ConstId) :
    Partial (CacheTerm × CachedSolver) := do
  let (id, s) ← s.nextConstId
  return (⟨.const name sort, leaf id⟩, s)

/-- Source: `new_bv_const` -/
def newBvConst (s : CachedSolver) (name : String) (size : U32) :
    Partial (CacheTerm × CachedSolver) :=
  s.newConst name (.bv size.toNat) fun id => .bv id size

/-- Source: `new_bool_const` -/
def newBoolConst (s : CachedSolver) (name : String) : Partial (CacheTerm × CachedSolver) :=
  s.newConst name .bool fun id => .bool id

/-- Source: `new_bv_array_const` -/
def newBvArrayConst (s : CachedSolver) (name : String) (indexSize elementSize : U32) :
    Partial (CacheTerm × CachedSolver) :=
  s.newConst name (.array indexSize.toNat elementSize.toNat) fun id =>
    .array id indexSize elementSize

end CachedSolver

/-! ## Checking assertions -/

/-- The bytes of the trees, one after the other with the same map. -/
def assertionBytes : IdMap → List CacheTerm → Partial (List (List U8))
  | _, [] => .ok []
  | map, a :: assertions => do
    let (bs, map) ← a.tree.toBytes map
    return bs :: (← assertionBytes map assertions)

/-- The assertions in the order of their trees. -/
def sortAssertions (assertions : List CacheTerm) : List CacheTerm :=
  assertions.mergeSort fun a b => a.tree.cmp b.tree != .gt

/-- The hashes of the assertions in order, one after the other. -/
def hashInput (sha1 : List U8 → AssertionHash) (bytes : List (List U8)) : List U8 :=
  (((bytes.map sha1).mergeSort fun a b => decide (a.toList ≤ b.toList)).map Vector.toList).flatten

/-- The key of the assertions in the cache. -/
def assertionHash (sha1 : List U8 → AssertionHash) (assertions : List CacheTerm) :
    Partial AssertionHash := do
  let bytes ← assertionBytes [] (sortAssertions assertions)
  return sha1 (hashInput sha1 bytes)

/-- The answer that a cache entry stands for. -/
def CacheResult.toSat : CacheResult → SatResult
  | .unsat => .unsat
  | .sat => .sat
  | .unknown => .unknown

/-- The cache entry for an answer. -/
def SatResult.toCache : SatResult → CacheResult
  | .unknown => .unknown
  | .sat => .sat
  | .unsat => .unsat

/-- Source: `check_assertions` -/
def checkAssertions (w : WrappedSolver) (sha1 : List U8 → AssertionHash) (cache : Cache)
    (assertions : List CacheTerm) : Partial (SatResult × Cache) := do
  let hash ← assertionHash sha1 assertions
  match cache hash with
  | some entry => return (entry.toSat, cache)
  | none =>
    let result := w.checkAssertions ((sortAssertions assertions).map CacheTerm.inner)
    return (result, Function.update cache hash (some result.toCache))

/-! ## Runs of several instances -/

/-- A call that makes a term. -/
inductive Call where
  | bvFromI64 (val : U64) (size : U32)
  | bvFromU64 (val : U64) (size : U32)
  | intFromI64 (val : U64)
  | intFromU64 (val : U64)
  | boolFromBool (val : Bool)
  | newBvConst (name : String) (size : U32)
  | newBoolConst (name : String)
  | newBvArrayConst (name : String) (indexSize elementSize : U32)
  | unary (op : TermOp) (arg : CacheTerm)
  | binary (op : BinOp) (lhs rhs : CacheTerm)
  | ite (cond lhs rhs : CacheTerm)
  | forallConst (vals : List CacheTerm) (condition : CacheTerm)
  | select (arr index : CacheTerm)
  | store (arr index value : CacheTerm)
  | simplify (x : CacheTerm)
  | getConstInterp (value : Term)

/-- The term that a call makes, and the instance after it. -/
def Call.make (w : WrappedSolver) (s : CachedSolver) : Call → Partial (CacheTerm × CachedSolver)
  | .bvFromI64 val size => .ok (.bvFromI64 val size, s)
  | .bvFromU64 val size => .ok (.bvFromU64 val size, s)
  | .intFromI64 val => .ok (.intFromI64 val, s)
  | .intFromU64 val => .ok (.intFromU64 val, s)
  | .boolFromBool val => .ok (.boolFromBool val, s)
  | .newBvConst name size => s.newBvConst name size
  | .newBoolConst name => s.newBoolConst name
  | .newBvArrayConst name indexSize elementSize => s.newBvArrayConst name indexSize elementSize
  | .unary op arg => .ok (.unary op arg, s)
  | .binary op lhs rhs => .ok (.binary op lhs rhs, s)
  | .ite cond lhs rhs => .ok (.ite cond lhs rhs, s)
  | .forallConst vals condition => .ok (.forallConst vals condition, s)
  | .select arr index => .ok (.select arr index, s)
  | .store arr index value => .ok (.store arr index value, s)
  | .simplify x => .ok (.simplify w x, s)
  | .getConstInterp value => .ok (.getConstInterp value, s)

/-- The constant that a call declares. -/
def Call.declares : Call → List (String × SmtSort)
  | .newBvConst name size => [(name, .bv size.toNat)]
  | .newBoolConst name => [(name, .bool)]
  | .newBvArrayConst name indexSize elementSize =>
    [(name, .array indexSize.toNat elementSize.toNat)]
  | _ => []

/-- Instances that share a cache. `held` are the terms that each of them has made so far, and
`declared` the constants, in the order of their ids. -/
structure System where
  solvers : ℕ → CachedSolver
  cache : Cache
  held : ℕ → List CacheTerm
  declared : ℕ → List (String × SmtSort)

/-- New instances and an empty cache. -/
def System.start : System where
  solvers _ := ⟨0⟩
  cache _ := none
  held _ := []
  declared _ := []

/-- A call of the instance `i`. -/
inductive Event where
  | call (i : ℕ) (call : Call)
  | check (i : ℕ) (assertions : List CacheTerm)

/-- An answer to a list of assertions. -/
abbrev Answer := List CacheTerm × SatResult

/-- One call; a check gives an answer. -/
def System.step (w : WrappedSolver) (sha1 : List U8 → AssertionHash) (sys : System) :
    Event → Partial (System × List Answer)
  | .call i call => do
    let (x, s) ← call.make w (sys.solvers i)
    return ({ sys with
      solvers := Function.update sys.solvers i s
      held := Function.update sys.held i (x :: sys.held i)
      declared := Function.update sys.declared i (sys.declared i ++ call.declares) }, [])
  | .check _ assertions => do
    let (result, cache) ← checkAssertions w sha1 sys.cache assertions
    return ({ sys with cache }, [(assertions, result)])

/-- A sequence of calls, with the answers in order. -/
def System.run (w : WrappedSolver) (sha1 : List U8 → AssertionHash) :
    System → List Event → Partial (System × List Answer)
  | sys, [] => .ok (sys, [])
  | sys, e :: events => do
    let (sys, answers) ← sys.step w sha1 e
    let (sys, answers') ← sys.run w sha1 events
    return (sys, answers ++ answers')

end LibLisa.Smt
