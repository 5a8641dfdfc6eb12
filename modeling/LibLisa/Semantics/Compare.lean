import LibLisa.Semantics.Output

/-!
# Comparing a result with an expected value

A result can be compared with an expected value byte by byte (`compareEq`), or with a prepared
comparison that holds the expected value as a word in both byte orders (`compare`, `compareDual`).
For an expected value of the output type they say whether the result is encoded as that value
(`i128CompareEq_eq`, `compareDual_eq`); `compare` does so except for 16 bytes (`compare_eq`).

Where no file is given, the source is `computation.rs`.
-/

namespace LibLisa.Semantics

open Lib List Except BitVec

/-! ## Prepared comparisons -/

/-- Source: `PreparedComparison` -/
structure PreparedComparison where
  littleEndian : I128
  bigEndian : I128
deriving DecidableEq, Repr

/-- Source: `CompareResult` -/
structure CompareResult where
  littleEndian : Bool
  bigEndian : Bool
deriving DecidableEq, Repr

/-- The result for one byte order. -/
def CompareResult.forEncoding (r : CompareResult) : OutputEncoding → Bool
  | .unsignedLittleEndian => r.littleEndian
  | .unsignedBigEndian => r.bigEndian

namespace PreparedComparison

/-- Source: `PreparedComparison::from` -/
def ofValue : OwnedValue → Partial PreparedComparison
  | .num n => .ok ⟨n.setWidth 128, n.setWidth 128⟩
  | .bytes bytes => do
    let v ← createFromLeBytes bytes (fun n => .ok (n.setWidth 128)) .ok
    return ⟨v, ← switchEndianness v (bytes.length * 8)⟩

/-- Source: `PreparedComparison::compare`. The mask has no case for 16 bytes. -/
def compare (p : PreparedComparison) (outputType : OutputType) (outputEncoding : OutputEncoding)
    (result : I128) : Partial Bool :=
  match outputType with
  | .number mask => .ok (result.setWidth 64 &&& mask = p.bigEndian.setWidth 64 &&& mask)
  | .bytes numBytes => do
    let mask := ~~~(← shl (-1 : I128) (8 * numBytes))
    match outputEncoding with
    | .unsignedLittleEndian => return result &&& mask = p.littleEndian &&& mask
    | .unsignedBigEndian => return result &&& mask = p.bigEndian &&& mask

/-- The bits of a byte output, in `compare_dual`. -/
def outputMask (numBytes : ℕ) : Partial I128 :=
  if numBytes = 16 then .ok (-1)
  else do
    let mask ← shl (-1 : I128) (8 * numBytes)
    return ~~~mask

/-- Source: `PreparedComparison::compare_dual` -/
def compareDual (p : PreparedComparison) (outputType : OutputType) (result : I128) :
    Partial CompareResult :=
  match outputType with
  | .number mask =>
    let v := decide (result.setWidth 64 &&& mask = p.bigEndian.setWidth 64 &&& mask)
    .ok ⟨v, v⟩
  | .bytes numBytes => do
    let mask ← outputMask numBytes
    return ⟨result &&& mask = p.littleEndian &&& mask, result &&& mask = p.bigEndian &&& mask⟩

end PreparedComparison

open PreparedComparison (outputMask ofValue compareDual)

/-! ## Comparing byte by byte -/

/-- The loop over the expected bytes, from the lowest one. -/
def eqBytes : List U8 → I128 → Bool
  | [], _ => true
  | b :: bytes, v => if b ≠ v.setWidth 8 then false else eqBytes bytes (v.sshiftRight 8)

namespace ExprComputation

/-- Source: `ExprComputation::i128_compare_eq` -/
def i128CompareEq (c : ExprComputation) (expected : OwnedValue) (result : I128) : Partial Bool :=
  match c.outputType with
  | .number mask => .ok (expected = .num (result.setWidth 64 &&& mask))
  | .bytes numBytes =>
    match expected with
    | .num _ => .error .explicitPanic
    | .bytes expectedBytes =>
      if expectedBytes.length ≠ numBytes then .ok false
      else
        match c.outputEncoding with
        | .unsignedLittleEndian => .ok (eqBytes expectedBytes result)
        | .unsignedBigEndian => .ok (eqBytes expectedBytes.reverse result)

/-- Source: `ExprComputation::compare_eq_with_args` -/
def compareEqWithArgs (c : ExprComputation) (args : List I128) (expected : OwnedValue) :
    Partial Bool := do
  let result ← c.expr.evaluate args
  c.i128CompareEq expected result

/-- Source: `ExprComputation::prepared_compare_eq_with_args_indirect`, whose body
repeats that of `compare`. -/
def preparedCompareEqWithArgsIndirect (c : ExprComputation) (allArgs : List I128)
    (mapping : List U16) (expected : PreparedComparison) : Partial Bool := do
  expected.compare c.outputType c.outputEncoding (← c.expr.evaluateIndirect allArgs mapping)

end ExprComputation

/-- Source: `ComputationRef::compare_eq` -/
def ComputationRef.compareEq (c : ComputationRef) (inputs : List OwnedValue) (expected : OwnedValue) :
    Partial Bool := do
  let args ← c.argInterpretation.mapM (Arg.interpretInputs inputs c.consts)
  c.template.compareEqWithArgs args expected

/-- Source: `ExpressionComputation` -/
structure ExpressionComputation where
  expr : Expr
  argInterpretation : List Arg
  outputEncoding : OutputEncoding
  outputType : IoType

namespace ExpressionComputation

/-- Source: `ExpressionComputation::as_internal` -/
def asInternal (c : ExpressionComputation) : Partial ComputationRef := do
  return {
    template := ⟨c.expr, c.outputEncoding, ← OutputType.constFrom c.outputType⟩
    argInterpretation := c.argInterpretation
    consts := [] }

/-- Source: `ExpressionComputation::evaluate` -/
def evaluate (c : ExpressionComputation) (inputs : List OwnedValue) : Partial OwnedValue := do
  (← c.asInternal).evaluate inputs

/-- Source: `ExpressionComputation::compare_eq` -/
def compareEq (c : ExpressionComputation) (inputs : List OwnedValue) (expected : OwnedValue) :
    Partial Bool := do
  (← c.asInternal).compareEq inputs expected

/-- Source: `ExpressionComputation::set_output_encoding` -/
def setOutputEncoding (c : ExpressionComputation) (outputEncoding : OutputEncoding) :
    ExpressionComputation := { c with outputEncoding }

end ExpressionComputation

/-! ## What the comparisons say -/

/-- The value is one of the output type. -/
def Fits : OutputType → OwnedValue → Prop
  | .number mask, .num n => n &&& mask = n
  | .bytes numBytes, .bytes bytes => bytes.length = numBytes
  | _, _ => False

lemma eqBytes_iff (bytes : List U8) (v : I128) :
    eqBytes bytes v = true ↔ lowBytes bytes.length v = bytes := by
  induction bytes generalizing v with
  | nil => simp [eqBytes, lowBytes]
  | cons b bytes ih =>
    rw [eqBytes, length_cons, lowBytes, List.cons.injEq, ← ih]
    by_cases h : b = v.setWidth 8
    · simp [h]
    · simp [h, Ne.symm h]

/-- Comparing byte by byte is comparing with the encoded result. -/
theorem i128CompareEq_eq {c : ExprComputation} {expected : OwnedValue}
    (hfits : Fits c.outputType expected) (x : I128) :
    c.i128CompareEq expected x =
      .ok (decide (output c.outputType c.outputEncoding x = expected)) := by
  obtain ⟨e, encoding, o⟩ := c
  unfold ExprComputation.i128CompareEq
  rcases o with mask | n
  · simp only [output_number, eq_comm]
  · rcases expected with m | bytes
    · exact absurd hfits id
    · obtain rfl : bytes.length = n := hfits
      dsimp only
      rw [if_neg (not_not.mpr rfl)]
      rcases encoding with _ | _
      · rw [ok.injEq, Bool.eq_iff_iff, decide_eq_true_iff, eqBytes_iff, output_bytes_le,
          OwnedValue.bytes.injEq]
      · rw [ok.injEq, Bool.eq_iff_iff, decide_eq_true_iff, eqBytes_iff, length_reverse,
          output_bytes_be, OwnedValue.bytes.injEq, reverse_eq_iff]

namespace ComputationRef

variable {c : ComputationRef} {v : OwnedValue}

/-- The result of a computation before it is encoded. -/
def result (c : ComputationRef) (inputs : List OwnedValue) : Partial I128 := do
  c.template.expr.evaluate (← c.argInterpretation.mapM (Arg.interpretInputs inputs c.consts))

/-- Whether a computation evaluates to a value. -/
def evaluatesTo (c : ComputationRef) (inputs : List OwnedValue) (v : OwnedValue) : Partial Bool := do
  return (← c.evaluate inputs) = v

lemma evaluate_eq_result (c : ComputationRef) (inputs : List OwnedValue) :
    c.evaluate inputs = c.result inputs >>= fun x => .ok (c.template.i128ToOutput x) :=
  (bind_assoc _ _ _).symm

/-- Comparing the result is evaluating, if the comparison is one with the encoded result. -/
lemma result_bind {cmp : I128 → Partial Bool}
    (h : ∀ x, cmp x = .ok (decide (output c.template.outputType c.outputEncoding x = v)))
    (inputs : List OwnedValue) : (c.result inputs >>= cmp) = c.evaluatesTo inputs v := by
  rw [funext h, evaluatesTo, evaluate_eq_result, bind_assoc]
  rfl

lemma compareEq_eq (hfits : Fits c.template.outputType v) (inputs : List OwnedValue) :
    c.compareEq inputs v = c.evaluatesTo inputs v := by
  rw [← result_bind (i128CompareEq_eq hfits), result, bind_assoc]
  rfl

end ComputationRef

variable {n : ℕ} {v : OwnedValue} {o : OutputType} {x y : I128} {bytes : List U8}
  {p : PreparedComparison}

lemma lowBytes_inj (hn : n ≤ 16) : lowBytes n x = lowBytes n y ↔ LowEq (n * 8) x y := by
  refine ⟨fun h i hi => ?_, lowBytes_congr hn⟩
  rw [lowBytes_eq_map, lowBytes_eq_map] at h
  have hbyte := map_inj_left.mp h (i / 8) (mem_range.mpr (by omega))
  have hbit := (byte_eq_iff (by omega) (by omega)).mp hbyte (i % 8) (by omega)
  rwa [Nat.div_add_mod] at hbit

/-- The word that the bytes stand for has these bytes. -/
lemma lowBytes_ofLeBytes (hlen : bytes.length ≤ 16) :
    lowBytes bytes.length (BitVec.ofNat 128 (Wire.ofLeBytes bytes)) = bytes := by
  induction bytes with
  | nil => rfl
  | cons b bytes ih =>
    rw [length_cons] at hlen ⊢
    rw [Wire.ofLeBytes]
    refine cons_eq_cons.mpr ⟨?_, ?_⟩
    · apply eq_of_toNat_eq
      rw [toNat_setWidth, toNat_ofNat]
      omega
    · refine (lowBytes_congr (by omega) fun i hi => ?_).trans (ih (by omega))
      rw [getLsbD_sshiftRight, getLsbD_ofNat, getLsbD_ofNat, show b.toNat + 256
        * Wire.ofLeBytes bytes = 2 ^ 8 * Wire.ofLeBytes bytes + b.toNat by omega,
        Nat.testBit_two_pow_mul_add _ b.isLt]
      have h₁ : ¬ 128 ≤ i := by omega
      have h₂ : 8 + i < 128 := by omega
      have h₄ : i < 128 := by omega
      simp [h₁, h₂, h₄]

/-- The expected bytes as a word. -/
lemma lowBytes_of_createFromLeBytes {v : I128} (hlen : bytes.length ≤ 16)
    (h : createFromLeBytes bytes (fun n => .ok (n.setWidth 128)) .ok = .ok v) :
    1 ≤ bytes.length ∧ lowBytes bytes.length v = bytes := by
  unfold createFromLeBytes at h
  split at h
  next hshort =>
    obtain rfl := ok.inj h
    refine ⟨hshort.1, (lowBytes_congr hlen fun i hi => ?_).trans (lowBytes_ofLeBytes hlen)⟩
    have h₂ : i < 64 := by omega
    rw [getLsbD_setWidth, getLsbD_ofNat, getLsbD_ofNat]
    simp [h₂]
  next =>
    split at h
    next hmid =>
      obtain rfl := ok.inj h
      exact ⟨by omega, lowBytes_ofLeBytes hlen⟩
    next =>
      split at h
      · cases h
      next hlong =>
        obtain rfl := ok.inj h
        rw [take_of_length_le hlen]
        exact ⟨by omega, lowBytes_ofLeBytes hlen⟩

lemma lowBytes_of_switchEndianness (hpos : 1 ≤ n) (hn : n ≤ 16)
    (h : switchEndianness x (n * 8) = .ok y) : lowBytes n y = (lowBytes n x).reverse := by
  unfold switchEndianness usub ushr at h
  rw [if_pos (by omega), ok_bind, if_pos (by omega)] at h
  obtain rfl := ok.inj h
  exact lowBytes_eq_reverse hn fun i hi => getLsbD_ushiftRight ..

lemma exists_outputMask (hn : n ≤ 16) : ∃ mask, outputMask n = .ok mask ∧
    ∀ i < 128, mask.getLsbD i = decide (i < n * 8) := by
  unfold outputMask
  split
  next h16 =>
    refine ⟨_, rfl, fun i hi => ?_⟩
    have hlt : i < n * 8 := by omega
    rw [show (-1) = allOnes 128 from rfl, getLsbD_allOnes]
    simp [hi, hlt]
  next h16 =>
    rw [shl, if_pos (by omega)]
    refine ⟨_, rfl, fun i hi => ?_⟩
    rw [show (-1) = allOnes 128 from rfl, getLsbD_not, getLsbD_shiftLeft, getLsbD_allOnes]
    by_cases hin : i < 8 * n
    · have hin' : i < n * 8 := by omega
      simp [hi, hin, hin']
    · have hin' : ¬ i < n * 8 := by omega
      have hsub : i - 8 * n < 128 := by omega
      simp [hin, hin', hsub]

lemma and_mask_eq_iff (hn : n ≤ 16) {mask : I128}
    (hmask : ∀ i < 128, mask.getLsbD i = decide (i < n * 8)) (x y : I128) :
    x &&& mask = y &&& mask ↔ lowBytes n x = lowBytes n y := by
  rw [lowBytes_inj hn]
  constructor
  · intro heq i hi
    have hbit := congrArg (fun v => v.getLsbD i) heq
    simpa [hmask i (by omega), hi] using hbit
  · intro heq
    apply eq_of_getLsbD_eq
    intro i hi
    rw [getLsbD_and, getLsbD_and, hmask i hi]
    by_cases hin : i < n * 8
    · rw [heq i hin]
    · simp [hin]

lemma length_le_of_switchEndianness (h : switchEndianness x (n * 8) = .ok y) : n ≤ 16 := by
  obtain ⟨unused, hunused, -⟩ := ok_of_bind h
  unfold usub at hunused
  split at hunused
  · omega
  · cases hunused

/-- The prepared comparison is a comparison with the encoded result, for both byte orders. -/
theorem compareDual_eq (hp : ofValue v = .ok p) (hfits : Fits o v) (x : I128) :
    p.compareDual o x =
      .ok ⟨output o .unsignedLittleEndian x = v, output o .unsignedBigEndian x = v⟩ := by
  rcases o with mask | n
  · rcases v with m | bytes
    · obtain rfl := ok.inj hp
      have hm : m &&& mask = m := hfits
      have hsame : (m.setWidth 128).setWidth 64 = m := by simp
      simp only [compareDual, output_number, OwnedValue.num.injEq, hsame, hm]
    · exact absurd hfits id
  · rcases v with m | bytes
    · exact absurd hfits id
    · obtain rfl : bytes.length = n := hfits
      obtain ⟨le, be, hle, hbe, rfl⟩ := ok_of_bind₂_ok hp
      have hn := length_le_of_switchEndianness hbe
      obtain ⟨mask, heq, hmask⟩ := exists_outputMask hn
      obtain ⟨hpos, hbytes⟩ := lowBytes_of_createFromLeBytes hn hle
      have hrev := lowBytes_of_switchEndianness hpos hn hbe
      rw [compareDual, heq]
      simp only [ok_bind, and_mask_eq_iff hn hmask, output_bytes_le, output_bytes_be,
        OwnedValue.bytes.injEq, hrev, hbytes, reverse_eq_iff]
      rfl

/-- Without the case for 16 bytes the comparison overflows there. -/
theorem compare_eq (hp : ofValue v = .ok p) (hfits : Fits o v)
    (encoding : OutputEncoding) (x : I128) :
    p.compare o encoding x = if o = .bytes 16 then .error .arithmeticOverflow
      else .ok (decide (output o encoding x = v)) := by
  split
  next h16 =>
    rw [h16]
    rfl
  next h16 =>
    have hdual : (p.compareDual o x >>= fun r => .ok (r.forEncoding encoding)) =
        .ok (decide (output o encoding x = v)) := by
      rw [compareDual_eq hp hfits]
      cases encoding <;> rfl
    rw [← hdual]
    rcases o with mask | n
    · cases encoding <;> rfl
    · have hn : n ≠ 16 := fun h => h16 (h ▸ rfl)
      rw [compareDual, outputMask, if_neg hn, shl, PreparedComparison.compare, shl]
      split <;> cases encoding <;> rfl

lemma exists_ofValue (hfits : Fits o v) (hlen : ∀ n, o = .bytes n → 1 ≤ n ∧ n ≤ 16) :
    ∃ p, ofValue v = .ok p := by
  rcases v with m | bytes
  · exact ⟨_, rfl⟩
  rcases o with mask | n
  · exact absurd hfits id
  obtain rfl : bytes.length = n := hfits
  obtain ⟨hpos, hle⟩ := hlen _ rfl
  have hbits : bytes.length * 8 ≤ 128 := by omega
  have hshift : (128 - bytes.length * 8) / 8 * 8 < 128 := by omega
  simp only [ofValue, createFromLeBytes, switchEndianness, usub, ushr,
    if_pos hbits, if_pos hshift, ok_bind]
  repeat' split
  all_goals first | omega | exact ⟨_, rfl⟩

end LibLisa.Semantics
