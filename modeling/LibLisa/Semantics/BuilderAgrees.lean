import LibLisa.Semantics.Builder
import LibLisa.Semantics.Postfix

/-!
# Compiled templates and the stack evaluator

The operations of a builder are those of its nodes in postfix order (`ExprBuilder.Valid`), which
every builder function keeps; so the nodes compute what the stack evaluator does. What is left are
the argument counts: a compiled function asks for all holes of the template up front, the stack
evaluator meets each of them (`countHoles_spec`).
-/

namespace LibLisa.Semantics

open Lib List OpWriter FastOp Except

/-! ## The operations of a builder -/

/-- The operations are those of the nodes, and there are not too many of them. -/
structure ExprBuilder.Valid (b : ExprBuilder) : Prop where
  ops_eq : b.ops.ops = b.builder.flatten
  noVal : b.builder.NoVal
  length_le : b.ops.ops.length ≤ maxOps

variable {w w' : OpWriter}

lemma OpWriter.write_eq_ok {op : Op} (h : w.write op = .ok w') :
    w'.ops = w.ops ++ [op] ∧ w'.ops.length ≤ maxOps := by
  unfold write at h
  split at h
  · rename_i hlt
    obtain rfl := ok.inj h
    refine ⟨rfl, ?_⟩
    rw [length_append]
    exact hlt
  · cases h

variable {b : ExprBuilder} {n : U16}

lemma OpWriter.writeBuilder_eq_ok (h : w.writeBuilder b = .ok w') :
    w'.ops = w.ops ++ b.ops.ops := by
  unfold writeBuilder at h
  split at h
  · exact congrArg ops (ok.inj h).symm
  · cases h

namespace ExprBuilder

variable {a d r : ExprBuilder}

variable {op : Op}

lemma Valid.unary {node : FastOp → FastOp} (ha : a.Valid) (h : unary op node a = .ok r)
    (hflatten : ∀ v, (node v).flatten = v.flatten ++ [op])
    (hnoVal : ∀ v, v.NoVal → (node v).NoVal) : r.Valid := by
  obtain ⟨w, hw, rfl⟩ := ok_of_bind_ok h
  obtain ⟨hops, hlen⟩ := write_eq_ok hw
  exact ⟨by rw [hops, ha.ops_eq, hflatten], hnoVal _ ha.noVal, hlen⟩

lemma Valid.binary {node : FastOp → FastOp → FastOp} (ha : a.Valid) (hb : b.Valid)
    (h : binary op node a b = .ok r)
    (hflatten : ∀ v w, (node v w).flatten = v.flatten ++ w.flatten ++ [op])
    (hnoVal : ∀ v w, v.NoVal → w.NoVal → (node v w).NoVal) : r.Valid := by
  obtain ⟨w, hw, rfl⟩ := ok_of_bind_ok h
  obtain ⟨w₁, hw₁, hw⟩ := ok_of_bind hw
  obtain ⟨hops, hlen⟩ := write_eq_ok hw
  rw [writeBuilder_eq_ok hw₁] at hops
  exact ⟨by rw [hops, ha.ops_eq, hb.ops_eq, hflatten], hnoVal _ _ ha.noVal hb.noVal, hlen⟩

lemma valid_of_write {t : FastOp} (hflatten : t.flatten = [op]) (hnoVal : t.NoVal)
    (hw : new.write op = .ok w) : Valid ⟨w, t⟩ := by
  obtain ⟨hops, hlen⟩ := write_eq_ok hw
  exact ⟨hops.trans hflatten.symm, hnoVal, hlen⟩

lemma valid_hole (h : hole n = .ok r) : r.Valid := by
  obtain ⟨w, hw, rfl⟩ := ok_of_bind_ok h
  exact valid_of_write (t := .hole n) rfl trivial hw

lemma valid_c {val : U8} (h : c val = .ok r) : r.Valid := by
  obtain ⟨w, hw, rfl⟩ := ok_of_bind_ok h
  exact valid_of_write (t := .const val) rfl trivial hw

lemma Valid.ifZero (ha : a.Valid) (hb : b.Valid) (hd : d.Valid) (h : ifZero a b d = .ok r) :
    r.Valid := by
  obtain ⟨w₁, w₂, hw₁, hw₂, h⟩ := ok_of_bind₂ h
  obtain ⟨w₃, w₄, hw₃, hw₄, rfl⟩ := ok_of_bind₂_ok h
  obtain ⟨hops, hlen⟩ := write_eq_ok hw₄
  rw [writeBuilder_eq_ok hw₃, writeBuilder_eq_ok hw₂,
    writeBuilder_eq_ok hw₁, ha.ops_eq, hb.ops_eq, hd.ops_eq] at hops
  exact ⟨hops, ⟨ha.noVal, hb.noVal, hd.noVal⟩, hlen⟩

lemma Valid.abs (ha : a.Valid) (h : abs a = .ok r) : r.Valid := by
  obtain ⟨w₁, w₂, hw₁, hw₂, h⟩ := ok_of_bind₂ h
  obtain ⟨w₃, w₄, hw₃, hw₄, h⟩ := ok_of_bind₂ h
  obtain ⟨w₅, w₆, hw₅, hw₆, h⟩ := ok_of_bind₂ h
  obtain ⟨w₇, w₈, hw₇, hw₈, rfl⟩ := ok_of_bind₂_ok h
  obtain ⟨hops, hlen⟩ := write_eq_ok hw₈
  rw [(write_eq_ok hw₇).1, (write_eq_ok hw₆).1, (write_eq_ok hw₅).1,
    writeBuilder_eq_ok hw₄, writeBuilder_eq_ok hw₃, (write_eq_ok hw₂).1,
    writeBuilder_eq_ok hw₁, ha.ops_eq] at hops
  refine ⟨?_, ⟨ha.noVal, ha.noVal, ha.noVal, trivial⟩, hlen⟩
  simp only [hops, new, FastOp.flatten, nil_append, append_assoc]

lemma Valid.concatBit (ha : a.Valid) (hb : b.Valid) (h : concatBit a b = .ok r) : r.Valid := by
  obtain ⟨w₁, w₂, hw₁, hw₂, h⟩ := ok_of_bind₂ h
  obtain ⟨w₃, w₄, hw₃, hw₄, h⟩ := ok_of_bind₂ h
  obtain ⟨w₅, hw₅, rfl⟩ := ok_of_bind_ok h
  obtain ⟨hops, hlen⟩ := write_eq_ok hw₅
  rw [writeBuilder_eq_ok hw₄, (write_eq_ok hw₃).1, (write_eq_ok hw₂).1,
    writeBuilder_eq_ok hw₁, ha.ops_eq, hb.ops_eq] at hops
  refine ⟨?_, ⟨⟨ha.noVal, trivial⟩, hb.noVal⟩, hlen⟩
  simp only [hops, new, FastOp.flatten, nil_append]

end ExprBuilder

variable {t : Template}

/-- Every builder function keeps the operations in postfix order. -/
lemma Template.valid_of_build {r : ExprBuilder} (h : t.build = .ok r) : r.Valid := by
  induction t generalizing r with
  | hole n => exact ExprBuilder.valid_hole h
  | c val | zero | one =>
    exact ExprBuilder.valid_c h
  | abs a ih =>
    obtain ⟨b, hb, h⟩ := ok_of_bind h
    exact (ih hb).abs h
  | crop numBits a ih | signExtend numBits a ih | byteMask a ih | trailingZeros a ih
  | leadingZeros a ih | popcount a ih | not a ih | parity a ih | select numSkip numTake a ih
  | isZero a ih | bitMask a ih =>
    obtain ⟨b, hb, h⟩ := ok_of_bind h
    exact (ih hb).unary h (fun _ => rfl) fun _ hv => hv
  | concatBit a b iha ihb =>
    obtain ⟨a', b', ha, hb, h⟩ := ok_of_bind₂ h
    exact (iha ha).concatBit (ihb hb) h
  | rol numBits a b iha ihb | extractBits a b iha ihb | depositBits a b iha ihb
  | mul a b iha ihb | carrylessMul a b iha ihb | div a b iha ihb | udiv a b iha ihb
  | rem a b iha ihb | urem a b iha ihb | shl a b iha ihb | shr a b iha ihb | and a b iha ihb
  | add a b iha ihb | sub a b iha ihb | or a b iha ihb | xor a b iha ihb | lessThan a b iha ihb =>
    obtain ⟨a', b', ha, hb, h⟩ := ok_of_bind₂ h
    exact (iha ha).binary (ihb hb) h (fun _ _ => rfl) fun _ _ hv hw => ⟨hv, hw⟩
  | ifZero a b d iha ihb ihd =>
    obtain ⟨a', b', ha, hb, h⟩ := ok_of_bind₂ h
    obtain ⟨d', hd, h⟩ := ok_of_bind h
    exact (iha ha).ifZero (ihb hb) (ihd hd) h

/-- The nodes of a template compute what the stack evaluator does. -/
lemma ExprBuilder.Valid.compute_eq (hb : b.Valid) (args : Args) :
    b.compute args = evaluateIndirectOnStack b.ops.ops args := by
  have hfits : ([] : Stack).length + b.builder.depth ≤ stackCapacity := by
    rw [length_nil, Nat.zero_add]
    refine Nat.le_trans (depth_le_length hb.noVal) ?_
    rw [← hb.ops_eq]
    exact hb.length_le
  rw [evaluateIndirectOnStack, hb.ops_eq, (pushes_flatten hb.noVal args).run hfits, bind_assoc]
  exact (bind_pure _).symm

/-! ## Counting the holes -/

variable {i : ℕ} {ops : List Op} {α : Type}

lemma markHoles_spec {argsSeen seen : List Bool}
    (h : markHoles ops argsSeen = .ok seen) (hi : seen[i]? = some true) :
    argsSeen[i]? = some true ∨ ∃ n : U16, n.toNat = i ∧ Op.hole n ∈ ops := by
  induction ops generalizing argsSeen with
  | nil =>
    obtain rfl := ok.inj h
    exact .inl hi
  | cons op ops ih =>
    by_cases hop : ∃ n, op = .hole n
    · obtain ⟨n, rfl⟩ := hop
      rw [markHoles] at h
      split at h
      · rcases ih h with hset | ⟨m, hm, hmem⟩
        · by_cases hn : n.toNat = i
          · exact .inr ⟨n, hn, by simp⟩
          · rw [getElem?_set_ne hn] at hset
            exact .inl hset
        · exact .inr ⟨m, hm, by simp [hmem]⟩
      · cases h
    · have hskip : markHoles (op :: ops) argsSeen = markHoles ops argsSeen := by
        cases op with
        | hole n => exact absurd ⟨n, rfl⟩ hop
        | _ => rfl
      rcases ih (hskip ▸ h) with hset | ⟨m, hm, hmem⟩
      · exact .inl hset
      · exact .inr ⟨m, hm, by simp [hmem]⟩

lemma getElem?_of_lt_length_takeWhile {l : List Bool} (h : i < (l.takeWhile id).length) :
    l[i]? = some true := by
  have hinit := takeWhile_prefix (l := l) id
  have hget := hinit.getElem h
  have htrue := all_eq_true.mp all_takeWhile _ (getElem_mem h)
  rw [getElem?_eq_getElem (h.trans_le hinit.length_le), ← hget]
  exact congrArg some htrue

/-- Every number below the count is the number of a hole. -/
theorem countHoles_spec {numArgs : ℕ} (h : countHoles ops = .ok numArgs) (hi : i < numArgs) :
    ∃ n : U16, n.toNat = i ∧ Op.hole n ∈ ops := by
  obtain ⟨seen, hseen, h⟩ := ok_of_bind h
  have hnum : (seen.takeWhile id).length = numArgs := by
    dsimp only at h
    split at h
    · cases h
    · split at h
      · cases h
      · exact ok.inj h
  have htrue : seen[i]? = some true := getElem?_of_lt_length_takeWhile (hnum ▸ hi)
  refine (markHoles_spec hseen htrue).resolve_left fun hfalse => ?_
  rw [getElem?_replicate] at hfalse
  split at hfalse
  · cases hfalse
  · cases hfalse

/-- A computation with a result has read every hole. -/
lemma FastOp.exists_arg_of_compute {t : FastOp} {args : Args} {v : I128}
    (h : t.compute args = .ok v) (hn : Op.hole n ∈ t.flatten) : ∃ a, args n.toNat = .ok a := by
  induction t using induction generalizing v with
  | val v => cases hn
  | hole index =>
    obtain rfl : n = index := Op.hole.inj (mem_singleton.mp hn)
    exact ⟨v, h⟩
  | const value => nomatch mem_singleton.mp hn
  | unary t a op f ht ih =>
    rw [ht.compute_eq] at h
    rw [ht.flatten_eq] at hn
    obtain ⟨x, hx, _⟩ := ok_of_bind h
    rcases mem_append.mp hn with hn | hn
    · exact ih hx hn
    · exact absurd (mem_singleton.mp hn).symm (ht.op_ne_hole n)
  | binary t a b op f ht iha ihb =>
    rw [ht.compute_eq] at h
    rw [ht.flatten_eq] at hn
    obtain ⟨x, y, hx, hy, _⟩ := ok_of_bind₂ h
    rcases mem_append.mp hn with hn | hn
    · rcases mem_append.mp hn with hn | hn
      · exact iha hx hn
      · exact ihb hy hn
    · exact absurd (mem_singleton.mp hn).symm (ht.op_ne_hole n)
  | ifZero condition zero nonzero ihc ihz ihn =>
    obtain ⟨x, y, hx, hy, h⟩ := ok_of_bind₂ h
    obtain ⟨z, hz, _⟩ := ok_of_bind h
    simp only [flatten, mem_append, mem_singleton, reduceCtorEq, or_false] at hn
    rcases hn with (hn | hn) | hn
    · exact ihc hx hn
    · exact ihz hy hn
    · exact ihn hz hn

/-! ## The compiled functions -/

/-- Both computations have the same result, or neither has one. -/
def SameOutcome {α : Type} (x y : Partial α) : Prop := x.toOption = y.toOption

lemma SameOutcome.eq_ok_iff {x y : Partial α} (h : SameOutcome x y) {a : α} :
    x = .ok a ↔ y = .ok a := by
  rcases x with e | b <;> rcases y with e' | b'
  · exact iff_of_false nofun nofun
  · cases h
  · cases h
  · rw [Option.some.inj h]

lemma SameOutcome.bind {α β : Type} {x y : Partial α} (h : SameOutcome x y) (f : α → Partial β) :
    SameOutcome (x >>= f) (y >>= f) := by
  rcases x with e | a
  · rcases y with e' | b
    · rfl
    · cases h
  · rw [h.eq_ok_iff.mp rfl]
    rfl

/-- Asking for the arguments of all holes first does not change the outcome, if the stack evaluator
cannot do without one of them either. -/
lemma sameOutcome_needHoles (hb : b.Valid) {numHoles : ℕ}
    (hcount : countHoles b.ops.ops = .ok numHoles) (args : List α) (read : Args)
    (hread : ∀ n, args.length ≤ n → ∀ a, read n ≠ .ok a) :
    SameOutcome (needHoles numHoles args >>= fun _ => b.compute read)
      (evaluateIndirectOnStack b.ops.ops read) := by
  rw [← hb.compute_eq]
  by_cases hlen : args.length < numHoles
  · have hneed : needHoles numHoles args = .error .tooFewArguments := if_pos hlen
    obtain ⟨n, hn, hmem⟩ := countHoles_spec hcount hlen
    rw [hb.ops_eq] at hmem
    rw [hneed]
    cases hcompute : b.compute read with
    | error e => rfl
    | ok v =>
      obtain ⟨a, ha⟩ := exists_arg_of_compute hcompute hmem
      exact absurd ha (hread _ (Nat.le_of_eq hn.symm) a)
  · have hneed : needHoles numHoles args = .ok () := if_neg hlen
    rw [hneed]
    rfl

lemma indexArgs_ne_ok {args : List I128} {n : ℕ} (h : args.length ≤ n) (a : I128) :
    indexArgs args n ≠ .ok a := by
  unfold indexArgs
  rw [getElem?_eq_none h]
  exact nofun

lemma indexIndirect_ne_ok {allArgs : List I128} {mapping : List U16} {n : ℕ}
    (h : mapping.length ≤ n) (a : I128) : indexIndirect allArgs mapping n ≠ .ok a := by
  unfold indexIndirect
  rw [getElem?_eq_none h]
  exact nofun

variable {e : Expr}

/-- The operations of a compiled template are those that its functions write. -/
lemma exists_build_of_expr (h : expr t = .ok e) :
    ∃ b, t.build = .ok b ∧ b.ops.ops = e.ops ∧
      ∀ args, b.compute args = evaluateIndirectOnStack e.ops args := by
  obtain ⟨b, numHoles, hb, -, rfl⟩ := ok_of_bind₂_ok h
  exact ⟨b, hb, rfl, (Template.valid_of_build hb).compute_eq⟩

/-- The compiled function for arguments and the stack evaluator. -/
lemma sameOutcome_evaluate (h : expr t = .ok e) (args : List I128) :
    SameOutcome (e.evaluate args) (e.withoutFastEval.evaluate args) := by
  obtain ⟨b, numHoles, hb, hcount, rfl⟩ := ok_of_bind₂_ok h
  exact sameOutcome_needHoles (Template.valid_of_build hb) hcount args _
    fun _ hn => indexArgs_ne_ok hn

/-- The compiled function for mapped arguments and the stack evaluator. -/
lemma sameOutcome_evaluateIndirect (h : expr t = .ok e) (allArgs : List I128) (mapping : List U16) :
    SameOutcome (e.evaluateIndirect allArgs mapping)
      (e.withoutFastEval.evaluateIndirect allArgs mapping) := by
  obtain ⟨b, numHoles, hb, hcount, rfl⟩ := ok_of_bind₂_ok h
  exact sameOutcome_needHoles (Template.valid_of_build hb) hcount mapping _
    fun _ hn => indexIndirect_ne_ok hn

/-- A template that compiles evaluates to the same result in every way: its nodes compute what the
stack evaluator makes of its operations, and so do the four compiled functions, up to the panic
that is raised when arguments are missing. -/
theorem expr_evaluate_agrees {t : Template} {e : Expr} (h : expr t = .ok e) :
    (∃ b, t.build = .ok b ∧ b.ops.ops = e.ops ∧
      ∀ args, b.compute args = evaluateIndirectOnStack e.ops args) ∧
    (∀ args, SameOutcome (e.evaluate args) (e.withoutFastEval.evaluate args)) ∧
    ∀ allArgs mapping,
      SameOutcome (e.evaluateIndirect allArgs mapping)
        (e.withoutFastEval.evaluateIndirect allArgs mapping) ∧
      SameOutcome (e.evaluateIndirectAsU64 allArgs mapping)
        (e.withoutFastEval.evaluateIndirectAsU64 allArgs mapping) ∧
      SameOutcome (e.evaluateIndirectAsBool allArgs mapping)
        (e.withoutFastEval.evaluateIndirectAsBool allArgs mapping) := by
  refine ⟨exists_build_of_expr h, sameOutcome_evaluate h, fun allArgs mapping => ?_⟩
  have hindirect := sameOutcome_evaluateIndirect h allArgs mapping
  refine ⟨hindirect, ?_⟩
  obtain ⟨b, numHoles, hb, hcount, rfl⟩ := ok_of_bind₂_ok h
  -- the other two functions narrow the result
  constructor
  · have hu64 := hindirect.bind fun v => .ok (v.setWidth 64)
    rw [Expr.evaluateIndirect, bind_assoc] at hu64
    exact hu64
  · have hbool := hindirect.bind fun v => .ok (decide (v.setWidth 64 &&& 1 ≠ 0))
    rw [Expr.evaluateIndirect, bind_assoc] at hbool
    exact hbool

/-- The absolute difference of two arguments. -/
theorem expr_evaluate_agrees_absDiff :
    ∃ e, expr (.abs (.sub (.hole 0) (.hole 1))) = .ok e ∧
      SameOutcome (e.evaluate [3, 5]) (e.withoutFastEval.evaluate [3, 5]) ∧
      e.withoutFastEval.evaluate [3, 5] = .ok 2 := by
  have heval : (expr (.abs (.sub (.hole 0) (.hole 1))) >>= fun e =>
      e.withoutFastEval.evaluate [3, 5]) = .ok 2 := by
    decide +kernel
  obtain ⟨e, he, heval⟩ := ok_of_bind heval
  exact ⟨e, he, (expr_evaluate_agrees he).2.1 _, heval⟩

end LibLisa.Semantics
