import LibLisa.Semantics.Splice

/-!
# What the combinators compute

`if_zero`, `and`, `or` and `not` on computations that have a value for the given inputs. The
computation that a combinator returns is described by the value its operations push (`Spliced`);
its output is compared with the outputs of the operands in `ifZero_evaluate_iff`,
`bitwise_evaluate_iff` and `not_evaluate`.

`not` is always right. `and` and `or` are right wherever their assertions allow the operands.
`if_zero` crops its operands and overflows if one of them has 16 bytes, and it reverses the bytes of
a number whose operands have different encodings, although the encoding of a number is never used.
-/

namespace LibLisa.Semantics

open Lib List SynthesizedComputation Except

/-- A computation of at most 16 bytes with a value for the given inputs. -/
structure Operand (inputs : List OwnedValue) where
  c : SynthesizedComputation
  t : FastOp
  v : OwnedValue
  wellFormed : WellFormed c t
  small : c.outputType.numBits ≤ 128
  evaluate : c.evaluate inputs = .ok v

namespace Operand

variable {inputs : List OwnedValue}

/-- The output type, arguments and result behind the value of an operand. -/
structure Trace (a : Operand inputs) (o : OutputType) (args : List I128) (x : I128) : Prop where
  asInternal : a.c.asInternal =
    .ok ⟨⟨a.c.expr, a.c.outputEncoding, o⟩, a.c.argInterpretation, a.c.consts⟩
  represents : Represents o a.c.outputType
  mapM_args : a.c.argInterpretation.mapM (Arg.interpretInputs inputs a.c.consts) = .ok args
  length_args : a.c.argInterpretation.length = args.length
  depth_le : a.t.depth ≤ stackCapacity
  pushes : ∀ {read : Args}, read = indexArgs args →
    Pushes read a.c.expr.ops (.ok x) a.t.depth
  holes : ∀ n, Op.hole n ∈ a.c.expr.ops → n.toNat < args.length
  value : output o a.c.outputEncoding x = a.v

lemma exists_trace (a : Operand inputs) : ∃ o args x, a.Trace o args x := by
  obtain ⟨o, args, x, h⟩ := (evaluate_eq_ok_iff a.wellFormed).mp a.evaluate
  refine ⟨o, args, x, ?_, (constFrom_eq_ok_iff a.small).mp h.outputType, h.mapM_args,
    (mapM_eq_ok_iff.mp h.mapM_args).length_eq, h.depth_le, ?_, ?_, h.value⟩
  · unfold asInternal
    rw [h.outputType]
    rfl
  · rintro read rfl
    rw [a.wellFormed.ops_eq, ← h.compute]
    exact pushes_flatten a.wellFormed.noVal _
  · intro n hn
    rw [a.wellFormed.ops_eq] at hn
    obtain ⟨v, hv⟩ := FastOp.exists_arg_of_compute h.compute hn
    by_contra hge
    exact indexArgs_ne_ok (Nat.le_of_not_lt hge) v hv

end Operand

/-- A computation whose operations push `x` and that has the arguments for it. -/
structure Spliced (r : SynthesizedComputation) (inputs : List OwnedValue) (o : OutputType)
    (x : Partial I128) (d : ℕ) : Prop where
  fastEval : r.expr.fastEval = none
  outputType : OutputType.constFrom r.outputType = .ok o
  pushes : ∃ args, r.argInterpretation.mapM (Arg.interpretInputs inputs r.consts) = .ok args ∧
    Pushes (indexArgs args) r.expr.ops x d

variable {inputs : List OwnedValue} {r : SynthesizedComputation} {x : Partial I128} {v : OwnedValue}
  {o : OutputType}

lemma Spliced.evaluate_eq_ok_iff {d : ℕ} (h : Spliced r inputs o x d) :
    r.evaluate inputs = .ok v ↔
      d ≤ stackCapacity ∧ ∃ y, x = .ok y ∧ output o r.outputEncoding y = v := by
  obtain ⟨args, hargs, hpush⟩ := h.pushes
  have heval : r.evaluate inputs =
      r.expr.evaluate args >>= fun y => .ok (output o r.outputEncoding y) := by
    unfold SynthesizedComputation.evaluate SynthesizedComputation.asInternal
    rw [h.outputType]
    change (r.argInterpretation.mapM (Arg.interpretInputs inputs r.consts) >>= fun args =>
      r.expr.evaluate args >>= fun y => .ok (output o r.outputEncoding y)) = _
    rw [hargs, ok_bind]
  have hstack : ∀ y, r.expr.evaluate args = .ok y ↔ d ≤ stackCapacity ∧ x = .ok y := by
    intro y
    unfold Expr.evaluate
    rw [h.fastEval]
    exact hpush.evaluate_eq_ok_iff
  rw [heval, bind_eq_ok_iff]
  constructor
  · rintro ⟨y, hy, hv⟩
    obtain ⟨hd, hx⟩ := (hstack y).mp hy
    exact ⟨hd, y, hx, ok.inj hv⟩
  · rintro ⟨hd, y, hx, rfl⟩
    exact ⟨y, (hstack y).mpr ⟨hd, hx⟩, rfl⟩

/-! ## Complement -/

/-- `not` computes the bitwise complement. -/
theorem not_evaluate (a : Operand inputs) :
    (a.c.not >>= fun r => r.evaluate inputs) = .ok (a.v.complement a.c.outputType) := by
  obtain ⟨o, args, x, h⟩ := a.exists_trace
  have htype := h.represents.ioType_eq a.c.expr a.c.outputEncoding
  have hspliced : Spliced ⟨⟨a.c.expr.ops ++ [.not], none⟩, a.c.argInterpretation, a.c.consts,
      a.c.outputEncoding, (ExprComputation.mk a.c.expr a.c.outputEncoding o).ioType⟩ inputs o
      (.ok x >>= fun v => .ok (~~~v)) a.t.depth := by
    refine ⟨rfl, ?_, args, h.mapM_args, (h.pushes rfl).unary fun _ _ => rfl⟩
    rw [htype]
    exact (constFrom_eq_ok_iff a.small).mpr h.represents
  unfold SynthesizedComputation.not
  rw [h.asInternal, ← h.value, ← output_not h.represents]
  exact hspliced.evaluate_eq_ok_iff.mpr ⟨h.depth_le, _, rfl, rfl⟩

/-! ## Bitwise operations -/

/-- The operands of `chain` have the same output type, and the same encoding if it matters. -/
def Chainable {inputs : List OwnedValue} (a b : Operand inputs) : Prop :=
  a.c.outputType = b.c.outputType ∧
    (8 < a.c.outputType.numBits → a.c.outputEncoding = b.c.outputEncoding)

variable {xa xb : I128} {oa ob : OutputType} {argsB argsA : List I128} {b a : Operand inputs}

/-- What `chain` puts together. -/
lemma chain_spec (ha : a.Trace oa argsA xa) (hb : b.Trace ob argsB xb) (hchain : Chainable a b)
    (hargs : a.c.argInterpretation.length + b.c.argInterpretation.length < 2 ^ 16)
    (hconsts : a.c.consts.length + b.c.consts.length < 2 ^ 16) :
    ∃ r selfOps args, a.c.chain b.c = .ok r ∧ r.expr = ⟨b.c.expr.ops ++ selfOps, none⟩ ∧
      r.outputEncoding = a.c.outputEncoding ∧ r.outputType = a.c.outputType ∧
      r.argInterpretation.mapM (Arg.interpretInputs inputs r.consts) = .ok args ∧
      Pushes (indexArgs args) b.c.expr.ops (.ok xb) b.t.depth ∧
      Pushes (indexArgs args) selfOps (.ok xa) a.t.depth := by
  -- the arguments of `b`, moved behind the constants of `a`
  obtain ⟨otherArgs, hother, hshift⟩ :=
    exists_mapM_shiftConst hb.mapM_args a.c.consts.length (by omega)
  have hotherVals : otherArgs.mapM (Arg.interpretInputs inputs (a.c.consts ++ b.c.consts)) =
      .ok argsB := by
    have hvals := mapM_interpretInputs_segment hshift hb.mapM_args []
    rwa [append_nil] at hvals
  have hself : ∀ arg v, Arg.interpretInputs inputs a.c.consts arg = .ok v →
      Arg.interpretInputs inputs (a.c.consts ++ b.c.consts) arg = .ok v := fun arg v hv =>
    arg.shiftedBy_zero.interpretInputs_eq (fun i hi => getElem?_append_left hi) hv
  -- the arguments of `a` that are added to them
  obtain ⟨selfOps, extra, hops, _, hsub, hrel⟩ := chainOps_spec a.c.argInterpretation otherArgs []
    (by rw [← hshift.length_eq]; omega) (fun n hn => ha.length_args ▸ ha.holes n hn)
    nodup_nil (nil_subset _)
  rw [append_nil] at hops
  obtain ⟨extraVals, hextra⟩ := exists_mapM fun arg harg =>
    (exists_of_mem_of_mapM ha.mapM_args (hsub harg)).imp (hself arg)
  have hall := mapM_append_eq_ok hotherVals hextra
  refine ⟨⟨⟨b.c.expr.ops ++ selfOps, none⟩, otherArgs ++ extra, a.c.consts ++ b.c.consts,
    a.c.outputEncoding, a.c.outputType⟩, selfOps, argsB ++ extraVals, ?_, rfl, rfl, rfl, hall,
    (hb.pushes rfl).renumber (renumbered_append hb.holes extraVals),
    (ha.pushes rfl).renumber (hrel.imp fun _ _ h => h.renumbered ha.mapM_args hall hself)⟩
  have hencoding : ¬ ((8 < a.c.outputType.numBits ∨ 8 < b.c.outputType.numBits) ∧
      a.c.outputEncoding ≠ b.c.outputEncoding) := by
    rintro ⟨hbits, hne⟩
    rw [← hchain.1, or_self] at hbits
    exact hne (hchain.2 hbits)
  unfold SynthesizedComputation.chain
  rw [hb.asInternal, ok_bind, ha.asInternal, ok_bind]
  simp only [ComputationRef.outputType, ha.represents.ioType_eq, hb.represents.ioType_eq,
    ComputationRef.outputEncoding]
  rw [if_neg (not_not.mpr hchain.1), if_neg hencoding]
  unfold SynthesizedComputation.spliceChain
  simp only [hother, ok_bind, hops, ComputationRef.outputType, ha.represents.ioType_eq]
  rfl

/-- `chain` accepts nothing else. -/
lemma chainable_of_chain (h : a.c.chain b.c = .ok r) : Chainable a b := by
  obtain ⟨oa, argsA, xa, ha⟩ := a.exists_trace
  obtain ⟨ob, argsB, xb, hb⟩ := b.exists_trace
  unfold chain at h
  rw [hb.asInternal, ok_bind, ha.asInternal, ok_bind] at h
  simp only [ComputationRef.outputType, ha.represents.ioType_eq, hb.represents.ioType_eq] at h
  by_cases htype : a.c.outputType = b.c.outputType
  · rw [if_neg (not_not.mpr htype)] at h
    refine ⟨htype, fun hbits => ?_⟩
    by_contra hne
    rw [if_pos ⟨.inl hbits, hne⟩] at h
    cases h
  · rw [if_pos htype] at h
    cases h

/-- The value of `and` or `or`: the right one exactly if the operands can be chained and the stack
has room. -/
theorem bitwise_evaluate_iff {f : {w : ℕ} → BitVec w → BitVec w → BitVec w} (hf : Bitwise f)
    (op : Op) (hop : ∀ args x y stack,
      op.evalFromStack args y (x :: stack) = .ok (f y x) >>= fun r => .ok (r, stack))
    (a b : Operand inputs)
    (hargs : a.c.argInterpretation.length + b.c.argInterpretation.length < 2 ^ 16)
    (hconsts : a.c.consts.length + b.c.consts.length < 2 ^ 16) :
    (∃ v, OwnedValue.bitwise f a.v b.v = some v ∧
      (a.c.chain b.c >>= fun r => (r.pushOp op).evaluate inputs) = .ok v) ↔
      Chainable a b ∧ max b.t.depth (1 + a.t.depth) ≤ stackCapacity := by
  obtain ⟨oa, argsA, xa, ha⟩ := a.exists_trace
  obtain ⟨ob, argsB, xb, hb⟩ := b.exists_trace
  by_cases hchain : Chainable a b
  · obtain ⟨r, selfOps, args, hr, hexpr, henc, htype, hvals, hpushB, hpushA⟩ :=
      chain_spec ha hb hchain hargs hconsts
    have ho : oa = ob := ha.represents.unique (hchain.1 ▸ hb.represents)
    have hspliced : Spliced (r.pushOp op) inputs oa (.ok xb >>= fun x => .ok xa >>= fun y =>
        .ok (f y x)) (max b.t.depth (1 + a.t.depth)) := by
      refine ⟨?_, ?_, args, hvals, ?_⟩
      · rw [pushOp, hexpr]
      · rw [pushOp, htype]
        exact (constFrom_eq_ok_iff a.small).mpr ha.represents
      · rw [pushOp, hexpr]
        exact hpushB.binary hpushA fun x y stack => hop _ x y stack
    have hv : OwnedValue.bitwise f a.v b.v =
        some (output oa a.c.outputEncoding (f xa xb)) := by
      rw [← bitwise_output hf, ha.value, ho]
      refine congrArg _ (hb.value.symm.trans ?_)
      by_cases hbits : 8 < a.c.outputType.numBits
      · rw [hchain.2 hbits]
      · refine output_encoding_irrel hb.represents (.inl ?_) _ _ _
        rw [← hchain.1]
        exact Nat.le_of_not_lt hbits
    rw [hr, ok_bind, and_iff_right hchain, hv]
    simp only [Option.some.injEq, exists_eq_left']
    rw [hspliced.evaluate_eq_ok_iff]
    refine and_iff_left ⟨f xa xb, rfl, ?_⟩
    rw [pushOp, henc]
  · constructor
    · rintro ⟨v, _, h⟩
      obtain ⟨r, hr, _⟩ := ok_of_bind h
      exact absurd (chainable_of_chain hr) hchain
    · rintro ⟨h, _⟩
      exact absurd h hchain

/-! ## The conditional -/

/-- The branches of `if_zero` have different encodings, and more than one byte. -/
def NeedSwap {inputs : List OwnedValue} (a b : Operand inputs) : Prop :=
  8 < a.c.outputType.numBits ∧ a.c.outputEncoding ≠ b.c.outputEncoding

instance {inputs : List OwnedValue} (a b : Operand inputs) : Decidable (NeedSwap a b) :=
  inferInstanceAs (Decidable (_ ∧ _))

/-- The second branch of `if_zero`: cropped, and with its bytes reversed if need be. -/
def swapIf (swap : Prop) [Decidable swap] (numBits : ℕ) (x : Partial I128) : Partial I128 :=
  if swap then x >>= swapBytesOp (asU8 numBits) else x

lemma Pushes.swapIf {args : Args} {ops : List Op} {d : ℕ}
    (hx : Pushes args ops x d) (swap : Prop) [Decidable swap] (numBits : ℕ) :
    Pushes args (ops ++ if swap then [.swapBytes (asU8 numBits)] else [])
      (swapIf swap numBits x) d := by
  unfold Semantics.swapIf
  split
  · exact hx.unary fun _ _ => rfl
  · rwa [append_nil]

/-- What the operations of `if_zero` push. -/
def ifZeroValue {inputs : List OwnedValue} (c a b : Operand inputs) (xc xa xb : I128) :
    Partial I128 := do
  let condition ← crop (asU8 c.c.outputType.numBits) xc
  let zero ← crop (asU8 a.c.outputType.numBits) xa
  let nonzero ← swapIf (NeedSwap a b) b.c.outputType.numBits (crop (asU8 b.c.outputType.numBits) xb)
  return ifZero condition zero nonzero

/-- How much of the stack the operations of `if_zero` need. -/
def ifZeroDepth {inputs : List OwnedValue} (c a b : Operand inputs) : ℕ :=
  max c.t.depth (max (1 + a.t.depth) (2 + b.t.depth))

/-- The number of arguments and constants of three computations fits the numbering. -/
structure FitsU16 {inputs : List OwnedValue} (c a b : Operand inputs) : Prop where
  args : c.c.argInterpretation.length + a.c.argInterpretation.length +
    b.c.argInterpretation.length < 2 ^ 16
  consts : c.c.consts.length + a.c.consts.length + b.c.consts.length < 2 ^ 16

variable {c : Operand inputs} {argsC : List I128} {oc : OutputType} {xc : I128}

/-- What `if_zero` puts together. -/
lemma ifZero_spec (hc : c.Trace oc argsC xc) (ha : a.Trace oa argsA xa) (hb : b.Trace ob argsB xb)
    (htype : a.c.outputType = b.c.outputType) (hfits : FitsU16 c a b) :
    ∃ r, c.c.ifZero a.c b.c = .ok r ∧ r.outputEncoding = a.c.outputEncoding ∧
      Spliced r inputs oa (ifZeroValue c a b xc xa xb) (ifZeroDepth c a b) := by
  have hargs := hfits.args
  have hconsts := hfits.consts
  rw [hc.length_args, ha.length_args, hb.length_args] at hargs
  -- the arguments of the three computations one after the other
  obtain ⟨zeroArgs, hzero, hzeroShift⟩ :=
    exists_mapM_shiftConst ha.mapM_args b.c.consts.length (by omega)
  obtain ⟨selfArgs, hself, hselfShift⟩ :=
    exists_mapM_shiftConst_twice hc.mapM_args b.c.consts.length a.c.consts.length (by omega)
  rw [← length_append] at hselfShift
  have hnonzeroShift : List.Forall₂ (Arg.ShiftedBy (List.length ([] : List I128)))
      b.c.argInterpretation b.c.argInterpretation :=
    List.forall₂_same.mpr fun arg _ => arg.shiftedBy_zero
  have hb' := mapM_interpretInputs_segment hnonzeroShift hb.mapM_args (a.c.consts ++ c.c.consts)
  have ha' := mapM_interpretInputs_segment hzeroShift ha.mapM_args c.c.consts
  have hc' := mapM_interpretInputs_segment hselfShift hc.mapM_args []
  rw [← append_assoc] at hb'
  rw [append_nil] at hc'
  have hall := mapM_append_eq_ok (mapM_append_eq_ok hb' ha') hc'
  -- and their operations, with the holes renumbered
  obtain ⟨condition, hcondition, hconditionRel⟩ :=
    mapM_shiftHole hc.holes (argsB ++ argsA) [] (by rw [length_append]; omega)
  obtain ⟨zero, hzeroOps, hzeroRel⟩ := mapM_shiftHole ha.holes argsB argsC (by omega)
  have hnonzeroRel := renumbered_append hb.holes (argsA ++ argsC)
  rw [append_nil] at hconditionRel
  rw [← append_assoc] at hnonzeroRel
  have hpushC : Pushes _ _ (crop (asU8 c.c.outputType.numBits) xc) _ :=
    ((hc.pushes rfl).renumber hconditionRel).unary (FastOp.evalFromStack_crop _ _)
  have hpushA : Pushes _ _ (crop (asU8 a.c.outputType.numBits) xa) _ :=
    ((ha.pushes rfl).renumber hzeroRel).unary (FastOp.evalFromStack_crop _ _)
  have hpushB : Pushes _ _ (crop (asU8 b.c.outputType.numBits) xb) _ :=
    ((hb.pushes rfl).renumber hnonzeroRel).unary (FastOp.evalFromStack_crop _ _)
  have hpush := hpushC.ifZero hpushA (hpushB.swapIf (NeedSwap a b) b.c.outputType.numBits)
  refine ⟨⟨⟨_, none⟩, _, _, a.c.outputEncoding, a.c.outputType⟩, ?_, rfl, rfl,
    (constFrom_eq_ok_iff a.small).mpr ha.represents, _, hall, hpush⟩
  have hswap : ((8 < a.c.outputType.numBits || 8 < b.c.outputType.numBits) &&
      a.c.outputEncoding != b.c.outputEncoding) = decide (NeedSwap a b) := by
    rw [← htype, Bool.or_self, Bool.eq_iff_iff]
    simp only [Bool.and_eq_true, decide_eq_true_eq, bne_iff_ne]
    rfl
  rw [length_append] at hcondition
  unfold SynthesizedComputation.ifZero
  rw [ha.asInternal, ok_bind, hb.asInternal, ok_bind, hc.asInternal, ok_bind]
  simp only [ComputationRef.outputType, ha.represents.ioType_eq, hb.represents.ioType_eq]
  rw [if_neg (not_not.mpr htype)]
  unfold spliceIfZero
  simp only [ComputationRef.outputType, ComputationRef.outputEncoding, ha.represents.ioType_eq,
    hb.represents.ioType_eq, hc.represents.ioType_eq, ha.length_args, hb.length_args, hzero, hself,
    hcondition, hzeroOps, hswap, decide_eq_true_eq]
  rfl

/-- `if_zero` accepts no branches of different types. -/
lemma outputType_eq_of_ifZero (h : c.c.ifZero a.c b.c = .ok r) :
    a.c.outputType = b.c.outputType := by
  obtain ⟨oc, argsC, xc, hc⟩ := c.exists_trace
  obtain ⟨oa, argsA, xa, ha⟩ := a.exists_trace
  obtain ⟨ob, argsB, xb, hb⟩ := b.exists_trace
  unfold SynthesizedComputation.ifZero at h
  rw [ha.asInternal, ok_bind, hb.asInternal, ok_bind, hc.asInternal, ok_bind] at h
  simp only [ComputationRef.outputType, ha.represents.ioType_eq, hb.represents.ioType_eq] at h
  by_contra hne
  rw [if_pos hne] at h
  cases h

/-- The second branch, when the stack of `if_zero` has got to it. -/
def ifNonzeroValue {inputs : List OwnedValue} (a b : Operand inputs) : OwnedValue :=
  if NeedSwap a b then b.v.swappedNumber b.c.outputType.numBits else b.v

lemma exists_swapIf_crop (hb : b.Trace o argsB xb) (htype : a.c.outputType = b.c.outputType) :
    ∃ xn, swapIf (NeedSwap a b) b.c.outputType.numBits
      (.ok (xb &&& lowBits b.c.outputType.numBits)) = .ok xn ∧
      output o a.c.outputEncoding xn = ifNonzeroValue a b := by
  unfold swapIf ifNonzeroValue
  by_cases hswap : NeedSwap a b
  · have hbits : 8 < b.c.outputType.numBits := htype ▸ hswap.1
    rw [if_pos hswap, if_pos hswap, ok_bind, swapBytesOp_eq (by omega) b.small]
    refine ⟨_, rfl, ?_⟩
    rw [output_swapped_crop hb.represents hbits hswap.2, hb.value]
  · rw [if_neg hswap, if_neg hswap]
    refine ⟨_, rfl, ?_⟩
    rw [output_congr hb.represents (lowEq_and_lowBits b.small xb), ← hb.value]
    by_cases henc : a.c.outputEncoding = b.c.outputEncoding
    · rw [henc]
    · refine output_encoding_irrel hb.represents (.inl (Nat.le_of_not_lt fun hbits => ?_)) _ _ _
      exact hswap ⟨htype ▸ hbits, henc⟩

/-- The output of the spliced operations. -/
lemma output_ifZeroValue (hc : c.Trace oc argsC xc) (ha : a.Trace oa argsA xa)
    (hb : b.Trace ob argsB xb) (htype : a.c.outputType = b.c.outputType) :
    (∃ y, ifZeroValue c a b xc xa xb = .ok y ∧ output oa a.c.outputEncoding y = v) ↔
      c.c.outputType.numBits ≠ 128 ∧ a.c.outputType.numBits ≠ 128 ∧
        (if c.v.isZero then a.v else ifNonzeroValue a b) = v := by
  obtain rfl : oa = ob := ha.represents.unique (htype ▸ hb.represents)
  unfold ifZeroValue
  rw [crop_eq hc.represents, crop_eq ha.represents, crop_eq hb.represents]
  by_cases hcbits : c.c.outputType.numBits = 128
  · rw [if_neg (not_not.mpr hcbits)]
    exact ⟨fun ⟨y, hy, _⟩ => (nomatch hy), fun h => absurd hcbits h.1⟩
  by_cases habits : a.c.outputType.numBits = 128
  · rw [if_pos hcbits, if_neg (not_not.mpr habits)]
    exact ⟨fun ⟨y, hy, _⟩ => (nomatch hy), fun h => absurd habits h.2.1⟩
  obtain ⟨xn, hxn, hvn⟩ := exists_swapIf_crop hb htype
  have hva : output oa a.c.outputEncoding (xa &&& lowBits a.c.outputType.numBits) = a.v := by
    rw [output_congr ha.represents (lowEq_and_lowBits a.small xa), ha.value]
  have hzero : xc &&& lowBits c.c.outputType.numBits = 0 ↔ c.v.isZero := by
    rw [and_lowBits_eq_zero_iff c.small, ← hc.value, isZero_output_iff hc.represents]
  rw [if_pos hcbits, if_pos habits, if_pos (htype ▸ habits), hxn, and_iff_right hcbits,
    and_iff_right habits]
  have hselect : output oa a.c.outputEncoding (ifZero (xc &&& lowBits c.c.outputType.numBits)
      (xa &&& lowBits a.c.outputType.numBits) xn) =
      if c.v.isZero then a.v else ifNonzeroValue a b := by
    unfold ifZero
    by_cases hcv : c.v.isZero
    · rw [if_pos hcv, if_pos (hzero.mpr hcv), hva]
    · rw [if_neg hcv, if_neg (mt hzero.mp hcv), hvn]
  rw [← hselect]
  exact ⟨fun ⟨y, hy, hv⟩ => ok.inj hy ▸ hv, fun h => ⟨_, rfl, h⟩⟩

/-- `if_zero` selects the right branch exactly if no 16 bytes are cropped, the stack has room, and
no number other than one that reads the same both ways has its bytes swapped. -/
theorem ifZero_evaluate_iff (c a b : Operand inputs) (hfits : FitsU16 c a b) :
    (c.c.ifZero a.c b.c >>= fun r => r.evaluate inputs) =
        .ok (if c.v.isZero then a.v else b.v) ↔
      a.c.outputType = b.c.outputType ∧ ifZeroDepth c a b ≤ stackCapacity ∧
        c.c.outputType.numBits ≠ 128 ∧ a.c.outputType.numBits ≠ 128 ∧
        (c.v.isZero ∨ ifNonzeroValue a b = b.v) := by
  obtain ⟨oc, argsC, xc, hc⟩ := c.exists_trace
  obtain ⟨oa, argsA, xa, ha⟩ := a.exists_trace
  obtain ⟨ob, argsB, xb, hb⟩ := b.exists_trace
  by_cases htype : a.c.outputType = b.c.outputType
  · obtain ⟨r, hr, henc, hspliced⟩ := ifZero_spec hc ha hb htype hfits
    rw [hr, ok_bind, hspliced.evaluate_eq_ok_iff, henc, output_ifZeroValue hc ha hb htype,
      and_iff_right htype]
    by_cases hzero : c.v.isZero
    · simp [hzero]
    · simp [hzero]
  · constructor
    · intro h
      obtain ⟨r, hr, _⟩ := ok_of_bind h
      exact absurd (outputType_eq_of_ifZero hr) htype
    · rintro ⟨h, _⟩
      exact absurd h htype

/-! ## All combinators -/

/-- What the combinators compute, and when: `not` is always right, `and` and `or` are right exactly
on operands of one output type (and one encoding, if it has several bytes) for which the stack has
room, and `if_zero` is right exactly if the branches have one output type, the stack has room,
neither the condition nor the branches have 16 bytes, and, where the second branch is selected, its
value is not a number whose bytes are swapped to another one. -/
theorem combinators_correct_iff {inputs : List OwnedValue} (c a b : Operand inputs)
    (hfits : FitsU16 c a b) :
    ((c.c.ifZero a.c b.c >>= fun r => r.evaluate inputs) =
        .ok (if c.v.isZero then a.v else b.v) ↔
      a.c.outputType = b.c.outputType ∧ ifZeroDepth c a b ≤ stackCapacity ∧
        c.c.outputType.numBits ≠ 128 ∧ a.c.outputType.numBits ≠ 128 ∧
        (c.v.isZero ∨ ifNonzeroValue a b = b.v)) ∧
    ((∃ v, OwnedValue.bitwise (· &&& ·) a.v b.v = some v ∧
        (a.c.and b.c >>= fun r => r.evaluate inputs) = .ok v) ↔
      Chainable a b ∧ max b.t.depth (1 + a.t.depth) ≤ stackCapacity) ∧
    ((∃ v, OwnedValue.bitwise (· ||| ·) a.v b.v = some v ∧
        (a.c.or b.c >>= fun r => r.evaluate inputs) = .ok v) ↔
      Chainable a b ∧ max b.t.depth (1 + a.t.depth) ≤ stackCapacity) ∧
    (a.c.not >>= fun r => r.evaluate inputs) = .ok (a.v.complement a.c.outputType) := by
  have hargs := hfits.args
  have hconsts := hfits.consts
  have hand := bitwise_evaluate_iff .and .and
    (fun _ x y stack => congrArg (fun r => ok (r, stack)) (BitVec.and_comm x y)) a b
    (by omega) (by omega)
  have hor := bitwise_evaluate_iff .or .or
    (fun _ x y stack => congrArg (fun r => ok (r, stack)) (BitVec.or_comm x y)) a b
    (by omega) (by omega)
  unfold SynthesizedComputation.and SynthesizedComputation.or
  rw [bind_assoc, bind_assoc]
  exact ⟨ifZero_evaluate_iff c a b hfits, hand, hor, not_evaluate a⟩

/-- A computation without arguments that returns a constant. -/
def constComputation (value : U8) (encoding : OutputEncoding) (ty : IoType) :
    SynthesizedComputation := ⟨⟨[.const value], none⟩, [], [], encoding, ty⟩

def constOperand (value : U8) (encoding : OutputEncoding) (ty : IoType) (v : OwnedValue)
    (hsmall : ty.numBits ≤ 128) (hv : (constComputation value encoding ty).evaluate [] = .ok v) :
    Operand [] where
  c := constComputation value encoding ty
  t := .const value
  v := v
  wellFormed := ⟨trivial, rfl, nofun⟩
  small := hsmall
  evaluate := hv

/-- The second branch is selected and encoded as the first one would be. -/
theorem combinators_correct_mixed_encodings :
    ((constComputation 1 .unsignedLittleEndian (.bytes 1)).ifZero
      (constComputation 3 .unsignedLittleEndian (.bytes 2))
      (constComputation 5 .unsignedBigEndian (.bytes 2)) >>= fun r => r.evaluate []) =
      .ok (.bytes [0, 5]) := by
  have hcorrect := combinators_correct_iff
    (constOperand 1 .unsignedLittleEndian (.bytes 1) (.bytes [1]) (by decide) (by decide +kernel))
    (constOperand 3 .unsignedLittleEndian (.bytes 2) (.bytes [3, 0]) (by decide)
      (by decide +kernel))
    (constOperand 5 .unsignedBigEndian (.bytes 2) (.bytes [0, 5]) (by decide) (by decide +kernel))
    ⟨by decide, by decide⟩
  exact hcorrect.1.mpr ⟨rfl, by decide, by decide, by decide, by decide +kernel⟩

/-- 16 bytes cannot be cropped, and the bytes of the number 5 are swapped although the encoding of a
number has no meaning. -/
theorem ifZero_wide_and_swapped :
    ((constComputation 0 .unsignedLittleEndian (.bytes 1)).ifZero
      (constComputation 3 .unsignedLittleEndian (.bytes 16))
      (constComputation 5 .unsignedLittleEndian (.bytes 16)) >>= fun r => r.evaluate []) =
        .error .arithmeticOverflow ∧
    (constComputation 3 .unsignedLittleEndian (.bytes 16)).evaluate [] =
      .ok (.bytes (3 :: List.replicate 15 0)) ∧
    ((constComputation 1 .unsignedLittleEndian (.bytes 1)).ifZero
      (constComputation 3 .unsignedLittleEndian (.integer 64))
      (constComputation 5 .unsignedBigEndian (.integer 64)) >>= fun r => r.evaluate []) =
        .ok (.num 0x0500000000000000) ∧
    (constComputation 5 .unsignedBigEndian (.integer 64)).evaluate [] = .ok (.num 5) := by
  decide +kernel

end LibLisa.Semantics
