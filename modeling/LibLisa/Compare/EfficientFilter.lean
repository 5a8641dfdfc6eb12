import LibLisa.Encoding.Groups

/-!
# Filters as pairs of words

A model of `EfficientFilter` (`compare/split.rs`): the masks and the values of the bytes of a filter
are each put into one word of 128 bits, the last byte lowest. `matches_iff` says that the filter
matches an instruction of its length when the word of the instruction's bytes agrees with the value
on the mask.

Where no file is given, the source is `split.rs`.
-/

namespace LibLisa

open List Bool

/-- The bytes as one word, the last byte lowest. -/
def packU128 (bytes : List U8) : BitVec 128 :=
  bytes.foldl (fun acc item => acc <<< 8 ||| item.setWidth 128) 0

/-- Source: `instr/filter.rs`, `InstructionFilter::value_as_u128` -/
def InstructionFilter.valueAsU128 (f : InstructionFilter) : BitVec 128 :=
  packU128 (f.data.map (·.value))

/-- Source: `instr/filter.rs`, `InstructionFilter::mask_as_u128` -/
def InstructionFilter.maskAsU128 (f : InstructionFilter) : BitVec 128 :=
  packU128 (f.data.map (·.mask))

/-- The bytes of an instruction as one word. -/
def Instruction.word (x : Instruction) : BitVec 128 := packU128 x.bytes

namespace Compare

/-- Source: `EfficientFilter` -/
structure EfficientFilter where
  mask : BitVec 128
  value : BitVec 128
  len : ℕ
deriving DecidableEq

namespace EfficientFilter

/-- Source: `EfficientFilter::new` -/
def new (filter : InstructionFilter) : EfficientFilter :=
  ⟨filter.maskAsU128, filter.valueAsU128, filter.len⟩

/-- Source: `EfficientFilter::bit_len` -/
def bitLen (f : EfficientFilter) : ℕ := f.len * 8

/-- Source: `EfficientFilter::as_instruction_filter` -/
def asInstructionFilter (f : EfficientFilter) : Partial InstructionFilter := do
  let data ← (List.range f.len).reverse.mapM fun index =>
    ByteFilter.new ((f.mask >>> (index * 8)).setWidth 8) ((f.value >>> (index * 8)).setWidth 8)
  InstructionFilter.new data

/-- Source: `EfficientFilter::overlaps` -/
def overlaps (f g : EfficientFilter) : Bool :=
  f.value &&& (f.mask &&& g.mask) == g.value &&& (f.mask &&& g.mask)

/-- Source: `EfficientFilter::covers` -/
def covers (f g : EfficientFilter) : Bool :=
  f.value &&& f.mask == g.value &&& f.mask && g.mask &&& f.mask == f.mask

/-- Source: `EfficientFilter::set_nth_bit_from_right` -/
def setNthBitFromRight (f : EfficientFilter) (index : ℕ) (bit : FilterBit) : EfficientFilter :=
  match bit.asBit with
  | some n =>
    { f with
      mask := f.mask ||| 1#128 <<< index
      value := (f.value &&& ~~~(1#128 <<< index)) ||| (BitVec.ofBool n).setWidth 128 <<< index }
  | none =>
    { f with
      mask := f.mask &&& ~~~(1#128 <<< index)
      value := f.value &&& ~~~(1#128 <<< index) }

/-- Source: `EfficientFilter::get_nth_bit_from_right` -/
def getNthBitFromRight (f : EfficientFilter) (index : ℕ) : FilterBit :=
  match f.mask.getLsbD index, f.value.getLsbD index with
  | false, _ => .wildcard
  | true, false => .is0
  | true, true => .is1

/-- The positions that are free, the lowest one first; a shift by the whole width overflows.
Source: `split.rs`, `EfficientFilter::mask_indices_from_right` -/
def maskIndicesFromRight (f : EfficientFilter) : Partial (List ℕ) :=
  if f.bitLen < 128 then .ok ((List.range f.bitLen).filter fun index => !f.mask.getLsbD index)
  else .error .arithmeticOverflow

end EfficientFilter

end Compare

/-! ## Packing bytes -/

lemma packU128_concat (l : List U8) (b : U8) :
    packU128 (l ++ [b]) = packU128 l <<< 8 ||| b.setWidth 128 := by
  rw [packU128, foldl_append]
  rfl

variable {i : ℕ}

/-- Bit `i` of the word is bit `i % 8` of byte `i / 8` from the right. -/
lemma getLsbD_packU128 (l : List U8) (hi : i < 128) :
    (packU128 l).getLsbD i = (l.reverse[i / 8]?.map (·.getLsbD (i % 8))).getD false := by
  induction l using reverseRecOn generalizing i with
  | nil => simp [packU128]
  | append_singleton l b ih =>
    rw [packU128_concat, BitVec.getLsbD_or, BitVec.getLsbD_shiftLeft]
    by_cases h8 : i < 8
    · simp [h8, hi, Nat.div_eq_of_lt h8, Nat.mod_eq_of_lt h8]
    · obtain ⟨j, rfl⟩ : ∃ j, i = j + 8 := ⟨i - 8, by omega⟩
      rw [ih (by omega)]
      simp [hi]

variable {l : List U8} {m : List U8}

/-- A byte is read back from the word. -/
lemma getLsbD_of_packU128 (hl : l.length ≤ 16) {j : ℕ} (hj : j < l.length) {k : ℕ} (hk : k < 8) :
    l[j].getLsbD k = (packU128 l).getLsbD (8 * (l.length - 1 - j) + k) := by
  rw [getLsbD_packU128 l (by omega), show (8 * (l.length - 1 - j) + k) / 8 = l.length - 1 - j by omega,
    show (8 * (l.length - 1 - j) + k) % 8 = k by omega, getElem?_reverse (by omega)]
  simp [show l.length - 1 - (l.length - 1 - j) = j by omega, hj]

lemma packU128_inj (hlen : l.length = m.length) (hl : l.length ≤ 16) :
    packU128 l = packU128 m ↔ l = m := by
  refine ⟨fun h => ext_getElem hlen fun j hj hj' => ?_, fun h => h ▸ rfl⟩
  apply BitVec.eq_of_getLsbD_eq
  intro k hk
  rw [getLsbD_of_packU128 hl hj hk, getLsbD_of_packU128 (hlen ▸ hl) hj' hk, h, hlen]

lemma packU128_and (hlen : l.length = m.length) :
    packU128 (List.zipWith (· &&& ·) l m) = packU128 l &&& packU128 m := by
  apply BitVec.eq_of_getLsbD_eq
  intro i hi
  rw [BitVec.getLsbD_and, getLsbD_packU128 _ hi, getLsbD_packU128 _ hi, getLsbD_packU128 _ hi,
    reverse_zipWith hlen, getElem?_zipWith]
  rcases hx : l.reverse[i / 8]? with _ | x
  · simp
  · rcases hy : m.reverse[i / 8]? with _ | y
    · simp
    · simp

lemma getLsbD_packU128_of_ge (hi : 8 * l.length ≤ i) : (packU128 l).getLsbD i = false := by
  by_cases h : i < 128
  · rw [getLsbD_packU128 l h, getElem?_eq_none (by rw [length_reverse]; omega)]
    rfl
  · exact BitVec.getLsbD_of_ge _ _ (by omega)

namespace Compare.EfficientFilter

/-- The word agrees with the value on the mask. -/
def Matches (f : EfficientFilter) (w : BitVec 128) : Prop := w &&& f.mask = f.value

instance (f : EfficientFilter) (w : BitVec 128) : Decidable (f.Matches w) :=
  inferInstanceAs (Decidable (w &&& f.mask = f.value))

/-- No value bit outside the mask, and no mask bit outside the length. -/
structure WellFormed (f : EfficientFilter) : Prop where
  value_le : ∀ i, f.value.getLsbD i = true → f.mask.getLsbD i = true
  mask_lt : ∀ i, f.mask.getLsbD i = true → i < f.bitLen
  len_le : f.len ≤ 16

variable {w : BitVec 128} {f : EfficientFilter}

lemma matches_iff_getLsbD (h : f.WellFormed) :
    f.Matches w ↔ ∀ i, f.mask.getLsbD i = true → w.getLsbD i = f.value.getLsbD i :=
  Lib.and_eq_iff h.value_le

lemma wellFormed_new (filter : InstructionFilter) : (new filter).WellFormed := by
  refine ⟨fun i hi => ?_, fun i hi => ?_, filter.length_le⟩
  · by_cases hlt : i < 128
    · change (packU128 _).getLsbD i = true at hi
      show (packU128 _).getLsbD i = true
      rw [getLsbD_packU128 _ hlt, ← map_reverse, getElem?_map] at hi ⊢
      cases hbf : filter.data.reverse[i / 8]? with
      | none =>
        rw [hbf] at hi
        cases hi
      | some bf =>
        rw [hbf] at hi
        have hbit := congrArg (·.getLsbD (i % 8)) bf.value_and_not_mask
        have hval : bf.value.getLsbD (i % 8) = true := hi
        simpa [hval, show i % 8 < 8 by omega] using hbit
    · exact absurd hi (by rw [BitVec.getLsbD_of_ge _ _ (by omega)]; exact nofun)
  · by_contra hge
    have hlen : (filter.data.map (·.mask)).length = filter.len := length_map _
    have hfalse : (new filter).mask.getLsbD i = false := by
      apply getLsbD_packU128_of_ge
      have hge : filter.len * 8 ≤ i := Nat.le_of_not_lt hge
      omega
    nomatch hi.symm.trans hfalse

/-- Matching an instruction is agreeing with the word of its bytes. -/
theorem matches_iff {f : InstructionFilter} {x : Instruction} (hlen : f.len = x.byteLen) :
    f.matches x = true ↔ (new f).Matches x.word := by
  have hlist : ∀ (data : List ByteFilter) bytes, data.length = bytes.length →
      (InstructionFilter.matchesBytes data bytes = true ↔
        zipWith (· &&& ·) bytes (data.map (·.mask)) = data.map (·.value)) := by
    intro data
    induction data with
    | nil =>
      simp [InstructionFilter.matchesBytes]
    | cons bf data ih =>
      intro bytes h
      rcases bytes with _ | ⟨b, bytes⟩
      · exact absurd h (by simp)
      rw [InstructionFilter.matchesBytes, and_eq_true, ih bytes (by simpa using h),
        map_cons, map_cons, zipWith_cons_cons, cons.injEq, ByteFilter.matches,
        beq_iff_eq]
  have hdata : f.data.length = x.bytes.length := hlen
  have hmask : x.bytes.length = (f.data.map (·.mask)).length := by rw [length_map, hdata]
  rw [InstructionFilter.matches, hlist f.data x.bytes hdata, ← packU128_inj (by simp [hdata])
    (by simpa [hdata] using Nat.le_trans x.length_le (by omega)), packU128_and hmask]
  rfl

/-- The bytes of a word, taken apart and packed again. -/
lemma packU128_bytes {len : ℕ} (hw : ∀ i, w.getLsbD i = true → i < len * 8) :
    packU128 ((List.range len).reverse.map fun index => (w >>> (index * 8)).setWidth 8) = w := by
  apply BitVec.eq_of_getLsbD_eq
  intro i hi
  rw [getLsbD_packU128 _ hi, ← map_reverse, reverse_reverse, getElem?_map]
  by_cases hlt : i / 8 < len
  · rw [getElem?_range hlt]
    simp [show i % 8 < 8 by omega, Nat.div_add_mod' i 8]
  · rw [getElem?_eq_none (by simpa using hlt)]
    exact (eq_false_iff.mpr fun hbit => by have := hw i hbit; omega).symm

/-- The filter of the bytes has the words that were taken apart. -/
lemma exists_asInstructionFilter (h : f.WellFormed) :
    ∃ g, f.asInstructionFilter = .ok g ∧ new g = f := by
  have hbyte : ∀ index, (f.value >>> (index * 8)).setWidth 8 &&&
      ~~~(f.mask >>> (index * 8)).setWidth 8 = 0 := by
    intro index
    apply BitVec.eq_of_getLsbD_eq
    intro i hi
    have := h.value_le (index * 8 + i)
    cases hv : f.value.getLsbD (index * 8 + i) with
    | false => simp [hi, hv]
    | true => simp [hi, hv, this hv]
  have hdata : (range f.len).reverse.mapM (fun index =>
      ByteFilter.new ((f.mask >>> (index * 8)).setWidth 8)
        ((f.value >>> (index * 8)).setWidth 8)) =
      .ok ((range f.len).reverse.map fun index => ⟨_, _, hbyte index⟩) :=
    Lib.mapM_eq_ok_map fun index _ => dif_pos (hbyte index)
  have hlen : ((range f.len).reverse.map fun index =>
      (⟨_, _, hbyte index⟩ : ByteFilter)).length ≤ 16 := by
    simpa using h.len_le
  refine ⟨⟨_, hlen⟩, ?_, ?_⟩
  · rw [asInstructionFilter, hdata, Lib.ok_bind, InstructionFilter.new, dif_pos hlen]
  · unfold new InstructionFilter.maskAsU128 InstructionFilter.valueAsU128
    rw [map_map, map_map]
    have hmask := packU128_bytes h.mask_lt
    have hvalue := packU128_bytes fun i hi => h.mask_lt i (h.value_le i hi)
    simp only [Function.comp_def, hmask, hvalue, InstructionFilter.len, length_map,
      length_reverse, length_range]

/-- The well-formed pairs of words are the filters: each conversion undoes the other. -/
theorem asInstructionFilter_eq_iff {g : InstructionFilter} :
    f.WellFormed ∧ f.asInstructionFilter = .ok g ↔ new g = f := by
  constructor
  · rintro ⟨h, hg⟩
    obtain ⟨g', hg', rfl⟩ := exists_asInstructionFilter h
    rw [Except.ok.inj (hg.symm.trans hg')]
  · rintro rfl
    obtain ⟨⟨data, hle⟩, hg, hnew⟩ := exists_asInstructionFilter (wellFormed_new g)
    obtain ⟨hmask, hvalue, hlen : data.length = g.data.length⟩ := EfficientFilter.mk.inj hnew
    have hmasks := (packU128_inj (by simpa) (by simpa)).mp hmask
    have hvalues := (packU128_inj (by simpa) (by simpa)).mp hvalue
    have hdata : data = g.data := by
      have hinj : Function.Injective fun b : ByteFilter => (b.mask, b.value) := by
        rintro ⟨⟩ ⟨⟩ h
        simpa using h
      apply map_injective_iff.mpr hinj
      rw [← zip_map', hmasks, hvalues, zip_map']
    subst hdata
    exact ⟨wellFormed_new g, hg⟩

/-! ## Overlapping and covering -/

section pairs

variable {g : EfficientFilter} (hf : f.WellFormed) (hg : g.WellFormed)

lemma getLsbD_value_eq_of_overlaps (h : f.overlaps g = true)
    (hfi : f.mask.getLsbD i = true) (hgi : g.mask.getLsbD i = true) :
    f.value.getLsbD i = g.value.getLsbD i := by
  exact Lib.and_eq_and_iff.mp (eq_of_beq h) i (by rw [BitVec.getLsbD_and, hfi, hgi]; rfl)

include hf hg in
lemma overlaps_of_matches (hfw : f.Matches w) (hgw : g.Matches w) : f.overlaps g = true := by
  unfold overlaps
  rw [beq_iff_eq, Lib.and_eq_and_iff]
  intro i hi
  rw [BitVec.getLsbD_and, and_eq_true] at hi
  rw [← (matches_iff_getLsbD hf).mp hfw i hi.1, (matches_iff_getLsbD hg).mp hgw i hi.2]

include hf hg in
lemma matches_of_covers (h : f.covers g = true) (hgw : g.Matches w) : f.Matches w := by
  obtain ⟨hvalue, hmask⟩ := and_eq_true_iff.mp h
  rw [matches_iff_getLsbD hf]
  intro i hi
  have hgi : g.mask.getLsbD i = true := by
    simpa [hi] using congrArg (·.getLsbD i) (eq_of_beq hmask)
  rw [(matches_iff_getLsbD hg).mp hgw i hgi, Lib.and_eq_and_iff.mp (eq_of_beq hvalue) i hi]

end pairs

/-! ## Setting free bits -/

section set

variable {index : ℕ}

lemma getLsbD_one_shiftLeft (hindex : index < 128) (i : ℕ) :
    (1#128 <<< index).getLsbD i = decide (i = index) := by
  rw [← BitVec.twoPow_eq, BitVec.getLsbD_twoPow, decide_eq_true hindex, Bool.true_and]
  exact decide_eq_decide.mpr eq_comm

/-- The filter bit that asks for a value. -/
def isBit (b : Bool) : FilterBit := if b then .is1 else .is0

section bits

variable (b : Bool) (hindex : index < 128) (i : ℕ)
include hindex

lemma getLsbD_mask_set : (f.setNthBitFromRight index (isBit b)).mask.getLsbD i =
    (f.mask.getLsbD i || decide (i = index)) := by
  cases b <;> simp [setNthBitFromRight, isBit, FilterBit.asBit, getLsbD_one_shiftLeft hindex]

lemma getLsbD_value_set : (f.setNthBitFromRight index (isBit b)).value.getLsbD i =
    if i = index then b else f.value.getLsbD i := by
  have hset : (f.setNthBitFromRight index (isBit b)).value =
      (f.value &&& ~~~(1#128 <<< index)) ||| (BitVec.ofBool b).setWidth 128 <<< index := by
    cases b <;> rfl
  by_cases hi : i < 128
  · rw [hset, BitVec.getLsbD_or, BitVec.getLsbD_and, BitVec.getLsbD_not,
      getLsbD_one_shiftLeft hindex, Lib.getLsbD_ofBool_shiftLeft b hi]
    by_cases h : i = index <;> simp [h, hi]
  · rw [if_neg (by omega), BitVec.getLsbD_of_ge _ _ (by omega), BitVec.getLsbD_of_ge _ _ (by omega)]

end bits

lemma WellFormed.lt_of_bitLen (hf : f.WellFormed) (h : i < f.bitLen) : i < 128 := by
  have := hf.len_le
  unfold bitLen at h
  omega

lemma wellFormed_set (hf : f.WellFormed) (b : Bool) (hindex : index < f.bitLen) :
    (f.setNthBitFromRight index (isBit b)).WellFormed := by
  have hlen : (f.setNthBitFromRight index (isBit b)).len = f.len := by cases b <;> rfl
  have hlt := hf.lt_of_bitLen hindex
  refine ⟨fun i hi => ?_, fun i hi => ?_, hlen ▸ hf.len_le⟩
  · rw [getLsbD_value_set b hlt] at hi
    rw [getLsbD_mask_set b hlt]
    by_cases h : i = index
    · simp [h]
    · rw [if_neg h] at hi
      simp [hf.value_le i hi]
  · rw [getLsbD_mask_set b hlt, or_eq_true, decide_eq_true_iff] at hi
    rw [bitLen, hlen]
    rcases hi with hi | rfl
    · exact hf.mask_lt i hi
    · exact hindex

/-- Asking for a bit that was free. -/
lemma matches_set_iff (hf : f.WellFormed) (b : Bool) (hindex : index < f.bitLen)
    (hfree : f.mask.getLsbD index = false) :
    (f.setNthBitFromRight index (isBit b)).Matches w ↔ f.Matches w ∧ w.getLsbD index = b := by
  have hlt := hf.lt_of_bitLen hindex
  rw [matches_iff_getLsbD (wellFormed_set hf b hindex), matches_iff_getLsbD hf,
    Lib.agree_fix_iff (getLsbD_mask_set b hlt), getLsbD_value_set b hlt, if_pos rfl]
  intro i hi
  rw [getLsbD_value_set b hlt, if_neg]
  rintro rfl
  exact false_ne_true (hfree.symm.trans hi)

end set

end Compare.EfficientFilter

end LibLisa
