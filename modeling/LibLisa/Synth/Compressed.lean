import LibLisa.Synth.Enumerator
import Mathlib.Algebra.Order.BigOperators.Group.List
import Mathlib.Data.Nat.Size
import Mathlib.Tactic.Ring

/-!
# The compressed form of an item

An item of the enumeration is stored as a single `u64`: one bit for the output encoding, then the
indices of the arguments, then the index of the template. `decompress_compress` says that the item
can be read back, if the indices are those of arguments and there are not too many templates.

Where no file is given, the source is `search/mod.rs`.
-/

namespace LibLisa.Synth

open Lib Semantics List ComputationEnumerator Except

/-- Source: `num_bits_in` -/
def numBitsIn (n : ℕ) : ℕ := n.size

namespace ComputationEnumerator

/-- Source: the field `num_bits_for_arg_index` -/
def numBitsForArgIndex (e : ComputationEnumerator) : ℕ := numBitsIn e.args.length

/-- Source: the field `template_index_offset` -/
def templateIndexOffset (e : ComputationEnumerator) : ℕ :=
  e.numBitsForArgIndex * maxTemplateArgs + 1

end ComputationEnumerator

/-- Source: `CompressedIterComputation` -/
structure CompressedIterComputation where
  data : ℕ
deriving DecidableEq, Repr

/-- The indices of the arguments, the first one in the lowest bits. -/
def packIndices (bits : ℕ) : List U16 → Partial ℕ
  | [] => .ok 0
  | index :: indices => do
    let n ← packIndices bits indices
    if 2 ^ 8 ≤ index.toNat then .error .assertionFailed
    else return (n <<< bits) % 2 ^ 64 ||| index.toNat

/-- The bit for the output encoding. -/
def encodingBit : OutputEncoding → ℕ
  | .unsignedBigEndian => 0
  | .unsignedLittleEndian => 1

/-- Source: `IterItemComputation::compress` -/
def IterItemComputation.compress (c : IterItemComputation) (encoding : OutputEncoding) :
    Partial CompressedIterComputation := do
  let e := c.computationEnumerator
  let n ← packIndices e.numBitsForArgIndex c.argIndexes
  if e.index = 0 then .error .arithmeticOverflow
  else
    return ⟨((n <<< 1) % 2 ^ 64 ||| encodingBit encoding) |||
      ((e.index - 1) <<< e.templateIndexOffset) % 2 ^ 64⟩

/-- Source: `UncompressedIterComputation` -/
structure UncompressedIterComputation where
  template : PreprocessedTemplate
  enumerator : ComputationEnumerator
  data : ℕ

/-- Source: `CompressedIterComputation::decompress` -/
def CompressedIterComputation.decompress (c : CompressedIterComputation)
    (e : ComputationEnumerator) : Partial UncompressedIterComputation :=
  if e.templates.length = 0 then .error .assertionFailed
  else do
    return ⟨← orPanic .indexOutOfBounds e.templates[c.data >>> e.templateIndexOffset]?, e, c.data⟩

/-- Reads the indices of the arguments. -/
def unpackIndices (bits : ℕ) : ℕ → ℕ → Partial (List U16)
  | 0, _ => .ok []
  | holes + 1, n => do
    let index := n % 2 ^ bits
    if 2 ^ 8 ≤ index then .error .assertionFailed
    else return BitVec.ofNat 16 index :: (← unpackIndices bits holes (n >>> bits))

namespace UncompressedIterComputation

/-- Source: `UncompressedIterComputation::arg_indexes` -/
def argIndexes (u : UncompressedIterComputation) : Partial (List U16) :=
  unpackIndices u.enumerator.numBitsForArgIndex u.template.argIndices.length (u.data >>> 1)

/-- Source: `UncompressedIterComputation::output_encoding` -/
def outputEncoding (u : UncompressedIterComputation) : OutputEncoding :=
  if u.data % 2 = 0 then .unsignedBigEndian else .unsignedLittleEndian

/-- Source: `UncompressedIterComputation::to_template_computation` -/
def toTemplateComputation (u : UncompressedIterComputation) : Partial ExpressionComputation := do
  let argInterpretation ← (← u.argIndexes).mapM fun index =>
    orPanic .indexOutOfBounds u.enumerator.args[index.toNat]?
  if maxTemplateArgs < argInterpretation.length then .error .arrayVecFull
  else
    let template : ExprComputation := ⟨u.template.expr, u.outputEncoding,
      ← OutputType.constFrom u.enumerator.outputType⟩
    return ⟨template.expr, argInterpretation, template.outputEncoding, template.ioType⟩

/-- Source: `UncompressedIterComputation::prepared_compare_eq_with_args_indirect` -/
def preparedCompareEqWithArgsIndirect (u : UncompressedIterComputation) (allArgs : List I128)
    (expected : PreparedComparison) : Partial Bool := do
  let mapping ← u.argIndexes
  if maxTemplateArgs < mapping.length then .error .arrayVecFull
  else
    let result ← u.template.expr.evaluateIndirect allArgs mapping
    let r ← expected.compareDual u.enumerator.internalOutputType result
    return match u.outputEncoding with
      | .unsignedLittleEndian => r.littleEndian
      | .unsignedBigEndian => r.bigEndian

end UncompressedIterComputation

/-! ## Reading back -/

lemma packIndices_spec {bits : ℕ} {indices : List U16} {n : ℕ}
    (hlt : ∀ i ∈ indices, i.toNat < 2 ^ bits) (hbits : bits * indices.length ≤ 64)
    (h : packIndices bits indices = .ok n) :
    n < 2 ^ (bits * indices.length) ∧
      ∀ k, unpackIndices bits indices.length (n + 2 ^ (bits * indices.length) * k) = .ok indices := by
  induction indices generalizing n with
  | nil =>
    obtain rfl := ok.inj h
    exact ⟨Nat.one_pos, fun _ => rfl⟩
  | cons index indices ih =>
    obtain ⟨m, hm, h⟩ := ok_of_bind h
    split at h
    · cases h
    next hsmall =>
      obtain rfl := ok.inj h
      have hlen : bits * (index :: indices).length = bits * indices.length + bits := by
        rw [length_cons, Nat.mul_succ]
      rw [hlen] at hbits ⊢
      obtain ⟨hm_lt, hunpack⟩ := ih (fun i hi => hlt i (.tail _ hi)) (by omega) hm
      have hindex := hlt index (.head _)
      have hle : 2 ^ (bits * indices.length + bits) ≤ 2 ^ 64 := Nat.pow_le_pow_right (by decide) hbits
      have hsum : m * 2 ^ bits + index.toNat < 2 ^ (bits * indices.length + bits) :=
        calc m * 2 ^ bits + index.toNat < m * 2 ^ bits + 2 ^ bits := Nat.add_lt_add_left hindex _
          _ = (m + 1) * 2 ^ bits := (Nat.succ_mul _ _).symm
          _ ≤ 2 ^ (bits * indices.length) * 2 ^ bits := Nat.mul_le_mul_right _ hm_lt
          _ = 2 ^ (bits * indices.length + bits) := (pow_add 2 _ _).symm
      have hshift : m <<< bits < 2 ^ 64 := by
        rw [Nat.shiftLeft_eq]
        omega
      have hvalue : (m <<< bits) % 2 ^ 64 ||| index.toNat = m * 2 ^ bits + index.toNat := by
        rw [Nat.mod_eq_of_lt hshift, ← Nat.shiftLeft_add_eq_or_of_lt hindex, Nat.shiftLeft_eq]
      rw [hvalue]
      refine ⟨hsum, fun k => ?_⟩
      -- The lowest bits are the first index, the others are the rest.
      have hsplit : m * 2 ^ bits + index.toNat + 2 ^ (bits * indices.length + bits) * k =
          2 ^ bits * (m + 2 ^ (bits * indices.length) * k) + index.toNat := by
        ring
      have hmod : (2 ^ bits * (m + 2 ^ (bits * indices.length) * k) + index.toNat) % 2 ^ bits =
          index.toNat := by
        rw [Nat.mul_add_mod, Nat.mod_eq_of_lt hindex]
      have hdiv : (2 ^ bits * (m + 2 ^ (bits * indices.length) * k) + index.toNat) >>> bits =
          m + 2 ^ (bits * indices.length) * k := by
        rw [Nat.shiftRight_eq_div_pow, Nat.mul_add_div (Nat.two_pow_pos bits),
          Nat.div_eq_of_lt hindex, add_zero]
      rw [hsplit, length_cons, unpackIndices, hmod, if_neg hsmall, hdiv, hunpack,
        BitVec.ofNat_toNat]
      rfl

/-- The counter of an item points at arguments, and the item is the one of its template. -/
structure IterItemComputation.InRange (c : IterItemComputation) : Prop where
  template_eq : c.computationEnumerator.templates[c.computationEnumerator.index - 1]? =
    some c.templateIterator.template
  length_eq : c.argIndexes.length = c.templateIterator.template.argIndices.length
  length_le : c.argIndexes.length ≤ maxTemplateArgs
  lt_length : ∀ i ∈ c.argIndexes, i.toNat < c.computationEnumerator.args.length

/-! ## The items of an enumeration are in range -/

/-- The constants of the template are the common ones. -/
structure PreprocessedTemplate.Ok (t : PreprocessedTemplate) : Prop where
  length_eq : t.constValues.length = Synth.constValues.length
  index_le : ∀ c ∈ t.argIndices, c.toNat ≤ Synth.constValues.length

/-- The arguments are the constants and some inputs, and the current item is in range. -/
structure ComputationEnumerator.InRange (e : ComputationEnumerator) : Prop where
  le_length : Synth.constValues.length ≤ e.args.length
  length_lt : e.args.length < 2 ^ 16
  ok : ∀ t ∈ e.templates, t.Ok
  inner : ∀ it ∈ e.inner, IterItemComputation.InRange ⟨it, e⟩ ∧
    (it.template.numUnfilledHoles = 0 ∨ e.args.length > Synth.constValues.length)

variable {t : PreprocessedTemplate} {numArgs : ℕ}

lemma numUnfilledHoles_pos {i : ℕ} (h : i ∈ t.activeIndices) : t.numUnfilledHoles ≠ 0 := by
  have hget := (mem_filter.mp h).2
  rw [decide_eq_true_iff] at hget
  exact Nat.pos_iff_ne_zero.mp (count_pos_iff.mpr (mem_of_getElem? hget))

lemma incrementLoop_spec (hnum : numArgs < 2 ^ 16) {indices : List ℕ} {counter counter' : List U16}
    {overflow : Bool} (hstart : indices ≠ [] → (asU16 t.startValue).toNat < numArgs)
    (hlt : ∀ i ∈ counter, i.toNat < numArgs)
    (h : TemplateIterator.incrementLoop t numArgs indices counter = .ok (overflow, counter')) :
    counter'.length = counter.length ∧ ∀ i ∈ counter', i.toNat < numArgs := by
  induction indices generalizing counter with
  | nil =>
    obtain ⟨-, rfl⟩ := ok_pair_inj h
    exact ⟨rfl, hlt⟩
  | cons index indices ih =>
    obtain ⟨ordering, hordering, h⟩ := ok_of_bind h
    obtain ⟨resetValue, hreset, h⟩ : ∃ resetValue : U16, resetValue.toNat < numArgs ∧
        (do
          let n ← addU16 (← orPanic .indexOutOfBounds counter[index]?) 1
          if n > resetValue then
            TemplateIterator.incrementLoop t numArgs indices
              (counter.set index (asU16 t.startValue))
          else return (false, counter.set index n)) = .ok (overflow, counter') := by
      split at h
      · obtain ⟨v, hv, h⟩ := ok_of_bind h
        exact ⟨v, hlt v (mem_of_getElem? (eq_some_of_orPanic hv)), h⟩
      · split at h
        · cases h
        next hne =>
          refine ⟨_, ?_, h⟩
          have hval : (asU16 numArgs).toNat = numArgs := by
            unfold asU16
            rw [BitVec.toNat_ofNat, Nat.mod_eq_of_lt hnum]
          have hne' : numArgs ≠ 0 := fun hzero => hne (by rw [hzero]; rfl)
          rw [BitVec.toNat_sub]
          have hone : (1 : U16).toNat = 1 := rfl
          omega
    obtain ⟨old, n, -, -, h⟩ := ok_of_bind₂ h
    have hset : ∀ v : U16, v.toNat < numArgs → ∀ i ∈ counter.set index v,
        i.toNat < numArgs := by
      intro v hv i hi
      rcases mem_or_eq_of_mem_set hi with hi | rfl
      · exact hlt i hi
      · exact hv
    split at h
    · obtain ⟨hlen, hall⟩ := ih (fun _ => hstart nofun) (hset _ (hstart nofun)) h
      exact ⟨hlen.trans length_set, hall⟩
    next hle =>
      obtain ⟨-, rfl⟩ := ok_pair_inj h
      refine ⟨length_set, hset n ?_⟩
      have := BitVec.not_lt.mp hle
      rw [BitVec.le_def] at this
      omega

lemma toNat_asU16 {n : ℕ} (h : n < 2 ^ 16) : (asU16 n).toNat = n := by
  unfold asU16
  rw [BitVec.toNat_ofNat, Nat.mod_eq_of_lt h]

/-- The first counter of a template that is not skipped. -/
lemma newCounter_spec (hok : t.Ok) (hle : Synth.constValues.length ≤ numArgs)
    (hlt : numArgs < 2 ^ 16) (hguard : t.numUnfilledHoles = 0 ∨ numArgs > Synth.constValues.length)
    {counter : List U16} (h : t.newCounter = .ok counter) :
    counter.length = t.argIndices.length ∧ counter.length ≤ maxTemplateArgs ∧
      ∀ i ∈ counter, i.toNat < numArgs := by
  unfold PreprocessedTemplate.newCounter at h
  split at h
  · cases h
  next hmax =>
    obtain rfl := ok.inj h
    refine ⟨length_map _, by rw [length_map]; omega, fun i hi => ?_⟩
    obtain ⟨c, hc, rfl⟩ := mem_map.mp hi
    have hc_le := hok.index_le c hc
    split
    next hzero =>
      rw [toNat_asU16 (by rw [hok.length_eq]; omega), hok.length_eq]
      rcases hguard with hnone | hgt
      · exact absurd (hzero ▸ hc) (count_eq_zero.mp hnone)
      · exact hgt
    next hne =>
      have hpos : c.toNat ≠ 0 := fun h0 => hne (BitVec.eq_of_toNat_eq h0)
      have hone : (1 : U16).toNat = 1 := rfl
      rw [BitVec.toNat_sub]
      omega

namespace ComputationEnumerator

variable {e e' : ComputationEnumerator} {templates : List PreprocessedTemplate}
  {inputTypes : List IoType}

lemma inRange_nextTemplate (hr : e.InRange) {index : ℕ}
    {inner : Option TemplateIterator} (hdrop : templates = e.templates.drop index)
    (h : e.nextTemplate templates index inner = .ok (true, e')) :
    e'.InRange ∧ e'.templates = e.templates := by
  induction templates generalizing index inner with
  | nil => exact absurd (ok_pair_inj h).1 nofun
  | cons template templates ih =>
    have hget : e.templates[index]? = some template := by
      have hhead : (e.templates.drop index)[0]? = e.templates[index + 0]? := getElem?_drop
      rw [← hdrop] at hhead
      exact hhead.symm
    obtain ⟨it, hit, h⟩ := ok_of_bind h
    obtain ⟨counter, hcounter, rfl⟩ := ok_of_bind_ok hit
    split at h
    next hguard =>
      obtain ⟨-, rfl⟩ := ok_pair_inj h
      refine ⟨⟨hr.le_length, hr.length_lt, hr.ok, ?_⟩, rfl⟩
      rintro _ ⟨⟩
      obtain ⟨hlen, hmax, hlt⟩ := newCounter_spec (hr.ok template (mem_of_getElem? hget))
        hr.le_length hr.length_lt hguard hcounter
      exact ⟨⟨hget, hlen, hmax, hlt⟩, hguard⟩
    next =>
      refine ih ?_ h
      have htail := congrArg List.tail hdrop
      rw [tail_drop] at htail
      exact htail

/-- The item that was found is in range. -/
lemma inRange_findNext (hr : e.InRange) (h : e.findNext = .ok (true, e')) :
    e'.InRange ∧ e'.templates = e.templates := by
  unfold findNext at h
  split at h
  next it hinner =>
    obtain ⟨⟨overflow, it'⟩, hit', h⟩ := ok_of_bind h
    dsimp only at h
    split at h
    · exact inRange_nextTemplate hr rfl h
    · obtain ⟨-, rfl⟩ := ok_pair_inj h
      refine ⟨⟨hr.le_length, hr.length_lt, hr.ok, ?_⟩, rfl⟩
      rintro _ ⟨⟩
      obtain ⟨⟨overflow', counter⟩, hcounter, hit'⟩ := ok_of_bind hit'
      obtain ⟨-, rfl⟩ := ok_pair_inj hit'
      obtain ⟨hrange, hguard⟩ := hr.inner it hinner
      have hok := hr.ok _ (mem_of_getElem? hrange.template_eq)
      have hstart : it.template.activeIndices ≠ [] →
          (asU16 it.template.startValue).toNat < e.args.length := by
        intro hne
        obtain ⟨i, hi⟩ := exists_mem_of_ne_nil _ hne
        have hgt := hguard.resolve_left (numUnfilledHoles_pos hi)
        have hlt := hr.length_lt
        unfold PreprocessedTemplate.startValue
        rw [toNat_asU16 (by rw [hok.length_eq]; omega), hok.length_eq]
        exact hgt
      obtain ⟨hlen, hall⟩ := incrementLoop_spec hr.length_lt hstart hrange.lt_length hcounter
      have hlen' : counter.length = it.counter.length := hlen
      refine ⟨⟨hrange.template_eq, ?_, ?_, hall⟩, hguard⟩
      · exact hlen'.trans hrange.length_eq
      · show counter.length ≤ _
        rw [hlen']
        exact hrange.length_le
  next => exact inRange_nextTemplate hr rfl h

/-- There are at most four encodings of an input, and at most 256 inputs. -/
lemma length_generateArgsEncodings {args : List Arg}
    (h : generateArgsEncodings inputTypes = .ok args) :
    Synth.constValues.length ≤ args.length ∧ args.length < 2 ^ 16 := by
  obtain ⟨inputs, hinputs, rfl⟩ := ok_of_bind_ok h
  have hfour : ∀ l ∈ inputs, l.length ≤ 4 := by
    intro l hl
    obtain ⟨⟨input, index⟩, -, hl⟩ := (mem_iff_of_mapM hinputs).mp hl
    obtain ⟨i, numBits, -, -, rfl⟩ := ok_of_bind₂_ok hl
    rw [length_map]
    split <;> decide
  have hcount : inputs.length ≤ 256 := by
    have hlen : inputTypes.zipIdx.length = inputs.length := (mapM_eq_ok_iff.mp hinputs).length_eq
    rw [length_zipIdx] at hlen
    by_contra hgt
    obtain ⟨input, hinput⟩ : ∃ input, inputTypes[256]? = some input :=
      ⟨_, getElem?_eq_getElem (by omega)⟩
    have hzip : inputTypes.zipIdx[256]? = some (input, 256) := by
      rw [getElem?_zipIdx, hinput]
      rfl
    obtain ⟨l, hl⟩ := exists_of_mem_of_mapM hinputs (mem_of_getElem? hzip)
    cases hl
  have hinput : (inputs.map length).sum ≤ (inputs.map length).length * 4 :=
    sum_le_card_nsmul _ 4 (forall_mem_map.mpr hfour)
  have hconst : Synth.constValues.length = 29 := rfl
  rw [length_map] at hinput
  rw [length_append, length_map, length_flatten]
  omega

/-- A new enumerator. -/
lemma inRange_new (hok : ∀ t ∈ templates, t.Ok) {outputType : IoType}
    (h : new templates inputTypes outputType = .ok e) : e.InRange ∧ e.templates = templates := by
  obtain ⟨args, o, hargs, -, rfl⟩ := ok_of_bind₂_ok h
  obtain ⟨hle, hlt⟩ := length_generateArgsEncodings hargs
  exact ⟨⟨hle, hlt, hok, nofun⟩, rfl⟩

end ComputationEnumerator

/-! ## The compressed form -/

/-- The indices of the templates fit into the compressed form. -/
def ComputationEnumerator.FitsCompressed (e : ComputationEnumerator) : Prop :=
  e.templates.length * 2 ^ e.templateIndexOffset ≤ 2 ^ 64

lemma encodingBit_lt (encoding : OutputEncoding) : encodingBit encoding < 2 ^ 1 := by
  rcases encoding with _ | _ <;> decide

variable {e : ComputationEnumerator} {z : CompressedIterComputation} {encoding : OutputEncoding}
  {c : IterItemComputation}

lemma offset_le (hfits : e.FitsCompressed) (hpos : 0 < e.templates.length) :
    e.templateIndexOffset ≤ 64 := by
  have hle : 2 ^ e.templateIndexOffset ≤ 2 ^ 64 :=
    Nat.le_trans (Nat.le_mul_of_pos_left _ hpos) hfits
  exact (Nat.pow_le_pow_iff_right (by decide)).mp hle

/-- The three parts of the compressed form do not overlap. -/
lemma compress_data (hrange : c.InRange)
    (hfits : e.FitsCompressed) (htemplates : c.computationEnumerator.templates = e.templates)
    (hargs : c.computationEnumerator.args = e.args) (h : c.compress encoding = .ok z) :
    ∃ n < 2 ^ (e.numBitsForArgIndex * maxTemplateArgs),
      (∀ k, unpackIndices e.numBitsForArgIndex c.argIndexes.length
        (n + 2 ^ (e.numBitsForArgIndex * maxTemplateArgs) * k) = .ok c.argIndexes) ∧
      z.data = 2 * (n + 2 ^ (e.numBitsForArgIndex * maxTemplateArgs) *
        (c.computationEnumerator.index - 1)) + encodingBit encoding := by
  have hnum : c.computationEnumerator.numBitsForArgIndex = e.numBitsForArgIndex := by
    rw [numBitsForArgIndex, hargs, numBitsForArgIndex]
  have hindex : c.computationEnumerator.index - 1 < e.templates.length :=
    htemplates ▸ lt_of_getElem? hrange.template_eq
  have hoffset := offset_le hfits (by omega)
  unfold IterItemComputation.compress templateIndexOffset at h
  dsimp only at h
  rw [hnum] at h
  obtain ⟨n, hn, h⟩ := ok_of_bind h
  have hlt : ∀ i ∈ c.argIndexes, i.toNat < 2 ^ e.numBitsForArgIndex := fun i hi =>
    Nat.lt_trans (hargs ▸ hrange.lt_length i hi) (Nat.lt_size_self _)
  have hbits : e.numBitsForArgIndex * c.argIndexes.length ≤
      e.numBitsForArgIndex * maxTemplateArgs := Nat.mul_le_mul_left _ hrange.length_le
  unfold FitsCompressed at hfits
  unfold templateIndexOffset at hoffset hfits
  obtain ⟨hn_lt, hunpack⟩ := packIndices_spec hlt (by omega) hn
  generalize e.numBitsForArgIndex * maxTemplateArgs = w at *
  have hn_lt : n < 2 ^ w := Nat.lt_of_lt_of_le hn_lt (Nat.pow_le_pow_right (by decide) hbits)
  refine ⟨n, hn_lt, fun k => ?_, ?_⟩
  · -- Above the indices is a multiple of a power of two.
    rw [← Nat.add_sub_of_le hbits, pow_add, mul_assoc]
    exact hunpack _
  · have hbit := encodingBit_lt encoding
    have hle : 2 ^ (w + 1) ≤ 2 ^ 64 := Nat.pow_le_pow_right (by decide) hoffset
    have hlow_lt : 2 * n + encodingBit encoding < 2 ^ (w + 1) := by
      rw [pow_succ]
      omega
    have hlow : (n <<< 1) % 2 ^ 64 ||| encodingBit encoding = 2 * n + encodingBit encoding := by
      rw [Nat.mod_eq_of_lt (by omega), ← Nat.shiftLeft_add_eq_or_of_lt hbit]
      omega
    have hhigh : (c.computationEnumerator.index - 1) <<< (w + 1) < 2 ^ 64 := by
      rw [Nat.shiftLeft_eq]
      exact Nat.lt_of_lt_of_le (Nat.mul_lt_mul_of_pos_right hindex (Nat.two_pow_pos _)) hfits
    split at h
    · cases h
    · obtain rfl := ok.inj h
      rw [hlow, Nat.mod_eq_of_lt hhigh, Nat.or_comm, ← Nat.shiftLeft_add_eq_or_of_lt hlow_lt,
        Nat.shiftLeft_eq]
      ring

/-- Decompressing yields the template, the arguments and the encoding again. -/
lemma decompress_compress {u : UncompressedIterComputation} (hrange : c.InRange)
    (hfits : e.FitsCompressed) (htemplates : c.computationEnumerator.templates = e.templates)
    (hargs : c.computationEnumerator.args = e.args) (h : c.compress encoding = .ok z)
    (hu : z.decompress e = .ok u) :
    u.template = c.templateIterator.template ∧ u.enumerator = e ∧
      u.argIndexes = .ok c.argIndexes ∧ u.outputEncoding = encoding := by
  obtain ⟨n, hn, hunpack, hdata⟩ := compress_data hrange hfits htemplates hargs h
  have hbit := encodingBit_lt encoding
  have hhalf : z.data >>> 1 = n + 2 ^ (e.numBitsForArgIndex * maxTemplateArgs) *
      (c.computationEnumerator.index - 1) := by
    rw [hdata]
    omega
  have hindex : z.data >>> e.templateIndexOffset = c.computationEnumerator.index - 1 := by
    rw [templateIndexOffset, Nat.add_comm, Nat.shiftRight_add, hhalf, Nat.shiftRight_eq_div_pow,
      Nat.add_mul_div_left _ _ (Nat.two_pow_pos _), Nat.div_eq_of_lt hn, zero_add]
  unfold CompressedIterComputation.decompress at hu
  split at hu
  · cases hu
  obtain ⟨template, htemplate, rfl⟩ := ok_of_bind_ok hu
  rw [hindex, ← htemplates, hrange.template_eq] at htemplate
  obtain rfl := ok.inj htemplate
  refine ⟨rfl, rfl, ?_, ?_⟩
  · unfold UncompressedIterComputation.argIndexes
    rw [hhalf, ← hrange.length_eq]
    exact hunpack _
  · have heven : z.data % 2 = encodingBit encoding := by
      rw [hdata]
      omega
    unfold UncompressedIterComputation.outputEncoding
    rw [heven]
    rcases encoding with _ | _ <;> rfl

end LibLisa.Synth
