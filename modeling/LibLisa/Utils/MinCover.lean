import LibLisa.Lib.Word
import LibLisa.Utils.McsMinimum

/-!
# Covers of the values that are not excluded

A model of `utils/min_cover_with_exclusions.rs`. Given excluded values of a number of bits,
`run_internal` collects bit filters that match none of them, by fixing one more bit as long as an
excluded value still applies; `into_bit_filters` picks a smallest set of these filters that matches
every other value.

`IsExactCover` is what the result is for, `intoBitFilters_spec` says that a result has it, and
`exists_intoBitFilters` when there is a result. Every cube that matches no excluded value lies in a
collected filter (`exists_candidate_of_cube`), so no cover has fewer cubes
(`intoBitFilters_minimum`).
-/

namespace LibLisa.MinCover

open Lib Mcs List

/-- Source: `BitFilter` -/
structure BitFilter where
  bitIsFixed : U64
  value : U64
deriving DecidableEq, Repr

/-- Source: `BitFilter::matches` -/
def BitFilter.«matches» (bf : BitFilter) (value : U64) : Bool :=
  value &&& bf.bitIsFixed == bf.value

/-- Source: `FixedBitmapU64::count_ones` -/
def countOnes (m : U64) : ℕ := (range 64).countP m.getLsbD

/-- The filter with one more bit fixed: `fixed.set(index)` with `value.set(index)` or
`value.clear(index)`. -/
def BitFilter.fix (bf : BitFilter) (index : ℕ) (bit : Bool) : BitFilter :=
  ⟨bf.bitIsFixed ||| BitVec.twoPow 64 index,
    if bit then bf.value ||| BitVec.twoPow 64 index else bf.value &&& ~~~BitVec.twoPow 64 index⟩

/-- The excluded values in `applicable` that have `bit` at `index`: those of the other value are
cleared. -/
def stillApplicable (applicable : List U64) (index : ℕ) (bit : Bool) : List U64 :=
  applicable.filter fun exclude => exclude.getLsbD index == bit

/-- The search for filters that match no excluded value. `applicable` lists the excluded values
whose bit is set in the bitmap of the source. The counter is the number of bits that are not fixed;
at zero the loop of the source skips every index.
Source: `MinCoverWithExclusions::run_internal` -/
def runInternal (numBits : ℕ) : ℕ → BitFilter → List U64 → List BitFilter
  | 0, bf, applicable => if applicable.length = 0 then [bf] else []
  | free + 1, bf, applicable =>
    if applicable.length = 0 then [bf]
    else (range numBits).flatMap fun splitIndex =>
      if bf.bitIsFixed.getLsbD splitIndex then []
      else runInternal numBits free (bf.fix splitIndex true)
          (stillApplicable applicable splitIndex true) ++
        runInternal numBits free (bf.fix splitIndex false)
          (stillApplicable applicable splitIndex false)

/-- The filters found for `exclude`, those with fewer fixed bits first. -/
def candidates (exclude : List U64) (numBits : ℕ) : List BitFilter :=
  (runInternal numBits numBits ⟨0, 0⟩ exclude).mergeSort
    fun a b => countOnes a.bitIsFixed ≤ countOnes b.bitIsFixed

/-- For every value that is not excluded, the indices of the filters that match it. -/
def coverDecisions (exclude : List U64) (numBits : ℕ) (results : List BitFilter) : List (List ℕ) :=
  (((range (2 ^ numBits)).map (BitVec.ofNat 64)).filter (!exclude.contains ·)).map
    fun value => (range results.length).filter fun index =>
      (results[index]?).any (·.matches value)

/-- `pick` stands for the random choices of the covering set.
Source: `MinCoverWithExclusions::new` and `into_bit_filters` -/
def intoBitFilters (pick : Pick) (exclude : List U64) (numBits : ℕ) : Partial (List BitFilter) :=
  if 64 < numBits then .error .assertionFailed
  else if 1024 ≤ exclude.length then .error .explicitPanic
  -- `1 << self.num_bits` for `u64`
  else if numBits = 64 then .error .arithmeticOverflow
  else
    let results := candidates exclude numBits
    let decisions := coverDecisions exclude numBits results
    if decisions.any isEmpty then .error .explicitPanic
    else do
      let mcs ← MinimumCoveringSet.of pick decisions results.length
      mcs.mapM fun index => orPanic .indexOutOfBounds results[index]?

/-! ## Bit filters, bit by bit -/

variable {index : ℕ}

namespace BitFilter

/-- The fixed bits are below `numBits`, and the value has no other bits. -/
structure Bounded (numBits : ℕ) (bf : BitFilter) : Prop where
  fixed_lt : ∀ i, bf.bitIsFixed.getLsbD i = true → i < numBits
  value_fixed : ∀ i, bf.value.getLsbD i = true → bf.bitIsFixed.getLsbD i = true

lemma bounded_zero (numBits : ℕ) : Bounded numBits ⟨0, 0⟩ := by
  constructor <;> simp

variable {numBits : ℕ} {bf : BitFilter}

/-- A bit filter matches the values that have its bits at its fixed positions. -/
theorem Bounded.matches_iff (h : bf.Bounded numBits) (v : U64) :
    bf.matches v = true ↔ ∀ i, bf.bitIsFixed.getLsbD i = true → v.getLsbD i = bf.value.getLsbD i :=
  beq_iff_eq.trans (and_eq_iff h.value_fixed)

lemma getLsbD_bitIsFixed_fix (hindex : index < 64) (bit : Bool) (i : ℕ) :
    (bf.fix index bit).bitIsFixed.getLsbD i = (bf.bitIsFixed.getLsbD i || decide (i = index)) := by
  simp only [fix, BitVec.getLsbD_or, BitVec.getLsbD_twoPow, hindex, decide_true, Bool.true_and,
    eq_comm]

lemma getLsbD_value_fix (hindex : index < 64) (bit : Bool) (i : ℕ) :
    (bf.fix index bit).value.getLsbD i = if i = index then bit else bf.value.getLsbD i := by
  by_cases hi : i = index
  · subst hi
    cases bit <;> simp [fix, hindex]
  · by_cases hlt : i < 64
    · cases bit <;> simp [fix, hi, hlt]
    · have hout : bf.value.getLsbD i = false := BitVec.getLsbD_of_ge _ _ (by omega)
      cases bit <;> simp [fix, hi, hout, Ne.symm hi]

lemma Bounded.fix (h : bf.Bounded numBits) (hbits : numBits ≤ 64)
    (hindex : index < numBits) (bit : Bool) : (bf.fix index bit).Bounded numBits := by
  have hlt : index < 64 := by omega
  constructor
  · intro i hi
    rw [getLsbD_bitIsFixed_fix hlt, Bool.or_eq_true, decide_eq_true_eq] at hi
    rcases hi with hi | rfl
    · exact h.fixed_lt i hi
    · exact hindex
  · intro i hi
    rw [getLsbD_value_fix hlt] at hi
    rw [getLsbD_bitIsFixed_fix hlt, Bool.or_eq_true, decide_eq_true_eq]
    split at hi
    next heq => exact Or.inr heq
    next => exact Or.inl (h.value_fixed i hi)

/-- Fixing a free bit keeps the values that have the bit there. -/
lemma Bounded.matches_fix_iff (h : bf.Bounded numBits) (hbits : numBits ≤ 64)
    (hindex : index < numBits) (hfree : bf.bitIsFixed.getLsbD index = false) (bit : Bool)
    (v : U64) :
    (bf.fix index bit).matches v = true ↔ bf.matches v = true ∧ v.getLsbD index = bit := by
  have hlt : index < 64 := by omega
  rw [(h.fix hbits hindex bit).matches_iff, h.matches_iff,
    agree_fix_iff (getLsbD_bitIsFixed_fix hlt bit), getLsbD_value_fix hlt, if_pos rfl]
  intro i hi
  rw [getLsbD_value_fix hlt, if_neg]
  rintro rfl
  exact Bool.false_ne_true (hfree.symm.trans hi)

end BitFilter

/-! ## The search -/

variable {bf : BitFilter} {m v : U64} {numBits : ℕ} {exclude : List U64}

section search

variable (hbits : numBits ≤ 64)

/-- The excluded values that a filter still matches. -/
def applicableTo (exclude : List U64) (bf : BitFilter) : List U64 :=
  exclude.filter bf.matches

include hbits in
lemma stillApplicable_applicableTo (h : bf.Bounded numBits)
    (hindex : index < numBits) (hfree : bf.bitIsFixed.getLsbD index = false) (bit : Bool) :
    stillApplicable (applicableTo exclude bf) index bit =
      applicableTo exclude (bf.fix index bit) := by
  unfold stillApplicable applicableTo
  rw [filter_filter]
  apply filter_congr
  intro v _
  rw [Bool.eq_iff_iff, h.matches_fix_iff hbits hindex hfree, Bool.and_eq_true, beq_iff_eq, and_comm]

/-- A filter with no applicable excluded value matches none of them. -/
lemma matches_eq_false_of_length (h : (applicableTo exclude bf).length = 0) :
    ∀ v ∈ exclude, bf.matches v = false := by
  intro v hv
  rw [length_eq_zero_iff, applicableTo, filter_eq_nil_iff] at h
  exact Bool.eq_false_iff.mpr (h v hv)

include hbits in
/-- Every filter that the search collects matches no excluded value. -/
lemma runInternal_sound :
    ∀ (free : ℕ) (bf : BitFilter), bf.Bounded numBits →
      ∀ r ∈ runInternal numBits free bf (applicableTo exclude bf),
        r.Bounded numBits ∧ ∀ v ∈ exclude, r.matches v = false
  | 0, bf, h, r, hr => by
    unfold runInternal at hr
    split at hr
    next hempty =>
      obtain rfl := mem_singleton.mp hr
      exact ⟨h, matches_eq_false_of_length hempty⟩
    next => cases hr
  | free + 1, bf, h, r, hr => by
    unfold runInternal at hr
    split at hr
    next hempty =>
      obtain rfl := mem_singleton.mp hr
      exact ⟨h, matches_eq_false_of_length hempty⟩
    next =>
      obtain ⟨index, hindex, hr⟩ := mem_flatMap.mp hr
      rw [mem_range] at hindex
      split at hr
      next => cases hr
      next hfree =>
        rw [Bool.not_eq_true] at hfree
        rw [stillApplicable_applicableTo hbits h hindex hfree,
          stillApplicable_applicableTo hbits h hindex hfree] at hr
        rcases mem_append.mp hr with hr | hr
        · exact runInternal_sound free _ (h.fix hbits hindex true) r hr
        · exact runInternal_sound free _ (h.fix hbits hindex false) r hr

/-- The positions below `numBits` that a filter leaves free. -/
def freeBits (numBits : ℕ) (bf : BitFilter) : Finset ℕ :=
  (Finset.range numBits).filter fun i => bf.bitIsFixed.getLsbD i = false

include hbits in
lemma card_freeBits_fix {index free : ℕ} (hindex : index < numBits)
    (hfree : bf.bitIsFixed.getLsbD index = false) (bit : Bool)
    (hcard : (freeBits numBits bf).card ≤ free + 1) :
    (freeBits numBits (bf.fix index bit)).card ≤ free := by
  have herase : freeBits numBits (bf.fix index bit) = (freeBits numBits bf).erase index := by
    ext i
    simp only [freeBits, Finset.mem_filter, Finset.mem_range, Finset.mem_erase,
      BitFilter.getLsbD_bitIsFixed_fix (show index < 64 by omega), Bool.or_eq_false_iff,
      decide_eq_false_iff_not]
    tauto
  have hmem : index ∈ freeBits numBits bf := by
    simp [freeBits, hindex, hfree]
  rw [herase, Finset.card_erase_of_mem hmem]
  omega

/-- The values agree on their lowest bits. -/
def AgreeBelow (numBits : ℕ) (v w : U64) : Prop :=
  ∀ i < numBits, v.getLsbD i = w.getLsbD i

/-- A filter that still has an applicable excluded value, and matches a value that differs from all
of these at a position of `m`, leaves a position of `m` free. -/
lemma exists_mem_freeBits (h : bf.Bounded numBits) (hv : bf.matches v = true)
    (hdiff : ∀ w ∈ exclude, ∃ i < numBits, m.getLsbD i = true ∧ w.getLsbD i ≠ v.getLsbD i)
    (happl : (applicableTo exclude bf).length ≠ 0) :
    ∃ i ∈ freeBits numBits bf, m.getLsbD i = true := by
  obtain ⟨w, hw⟩ := exists_mem_of_length_pos (Nat.pos_of_ne_zero happl)
  obtain ⟨hw, hmatch⟩ := mem_filter.mp hw
  obtain ⟨i, hi, hm, hne⟩ := hdiff w hw
  refine ⟨i, Finset.mem_filter.mpr ⟨Finset.mem_range.mpr hi, Bool.eq_false_iff.mpr fun hfixed => ?_⟩,
    hm⟩
  exact hne (((h.matches_iff w).mp hmatch i hfixed).trans ((h.matches_iff v).mp hv i hfixed).symm)

include hbits in
/-- A value that differs from every excluded one at a position of `m` is matched by a filter that
the search collects and that fixes positions of `m` only. -/
lemma runInternal_complete
    (hdiff : ∀ w ∈ exclude, ∃ i < numBits, m.getLsbD i = true ∧ w.getLsbD i ≠ v.getLsbD i) :
    ∀ (free : ℕ) (bf : BitFilter), bf.Bounded numBits → bf.matches v = true →
      (∀ i, bf.bitIsFixed.getLsbD i = true → m.getLsbD i = true) →
      (freeBits numBits bf).card ≤ free →
      ∃ r ∈ runInternal numBits free bf (applicableTo exclude bf), r.matches v = true ∧
        ∀ i, r.bitIsFixed.getLsbD i = true → m.getLsbD i = true
  | 0, bf, h, hv, hm, hcard => by
    have hempty : (applicableTo exclude bf).length = 0 := by
      by_contra happl
      obtain ⟨i, hi, -⟩ := exists_mem_freeBits h hv hdiff happl
      have hpos := Finset.card_pos.mpr ⟨i, hi⟩
      omega
    exact ⟨bf, by simp [runInternal, hempty], hv, hm⟩
  | free + 1, bf, h, hv, hm, hcard => by
    by_cases hempty : (applicableTo exclude bf).length = 0
    · exact ⟨bf, by simp [runInternal, hempty], hv, hm⟩
    · -- the branch for the value's own bit at a free position of `m`
      obtain ⟨index, hindex, hmi⟩ := exists_mem_freeBits h hv hdiff hempty
      obtain ⟨hlt, hfree⟩ := Finset.mem_filter.mp hindex
      rw [Finset.mem_range] at hlt
      obtain ⟨r, hr, hrv⟩ := runInternal_complete hdiff free (bf.fix index (v.getLsbD index))
        (h.fix hbits hlt _) ((h.matches_fix_iff hbits hlt hfree _ v).mpr ⟨hv, rfl⟩)
        (fun i hi => by
          rw [BitFilter.getLsbD_bitIsFixed_fix (hlt.trans_le hbits), Bool.or_eq_true,
            decide_eq_true_eq] at hi
          rcases hi with hi | rfl
          · exact hm i hi
          · exact hmi)
        (card_freeBits_fix hbits hlt hfree _ hcard)
      refine ⟨r, ?_, hrv⟩
      unfold runInternal
      rw [if_neg hempty]
      refine mem_flatMap.mpr ⟨index, mem_range.mpr hlt, ?_⟩
      rw [if_neg (by simp [hfree]), stillApplicable_applicableTo hbits h hlt hfree,
        stillApplicable_applicableTo hbits h hlt hfree]
      cases hb : v.getLsbD index with
      | true => exact mem_append_left _ (hb ▸ hr)
      | false => exact mem_append_right _ (hb ▸ hr)

end search

/-! ## The cover -/

/-- The filters match every value of `numBits` bits that is not excluded, and no excluded one. -/
structure IsExactCover (exclude : List U64) (numBits : ℕ) (fs : List BitFilter) :
    Prop where
  bounded : ∀ bf ∈ fs, bf.Bounded numBits
  avoids : ∀ bf ∈ fs, ∀ v ∈ exclude, bf.matches v = false
  covers : ∀ v : U64, v.toNat < 2 ^ numBits → v ∉ exclude → ∃ bf ∈ fs, bf.matches v = true

lemma BitFilter.Bounded.matches_congr (h : bf.Bounded numBits)
    {v w : U64} (hagree : AgreeBelow numBits v w) : bf.matches v = bf.matches w := by
  rw [Bool.eq_iff_iff, h.matches_iff, h.matches_iff]
  exact forall₂_congr fun i hi => by rw [hagree i (h.fixed_lt i hi)]

lemma mem_candidates :
    bf ∈ candidates exclude numBits ↔
      bf ∈ runInternal numBits numBits ⟨0, 0⟩ (applicableTo exclude ⟨0, 0⟩) := by
  have hall : applicableTo exclude ⟨0, 0⟩ = exclude :=
    filter_eq_self.mpr fun v _ => by simp [BitFilter.«matches»]
  rw [candidates, mem_mergeSort, hall]

lemma mem_coverDecisions {results : List BitFilter} {d : List ℕ} :
    d ∈ coverDecisions exclude numBits results ↔
      ∃ v : U64, (∃ n < 2 ^ numBits, BitVec.ofNat 64 n = v) ∧ v ∉ exclude ∧
        ((range results.length).filter fun index => (results[index]?).any (·.matches v)) = d := by
  simp [coverDecisions, and_assoc]

variable {pick : Pick} {fs : List BitFilter}

/-- A returned cover has passed the checks of the source. -/
lemma guards_of_intoBitFilters (h : intoBitFilters pick exclude numBits = .ok fs) :
    numBits < 64 ∧ exclude.length < 1024 ∧
      ∀ d ∈ coverDecisions exclude numBits (candidates exclude numBits), d ≠ [] := by
  unfold intoBitFilters at h
  split at h
  · cases h
  split at h
  · cases h
  split at h
  · cases h
  dsimp only at h
  split at h
  · cases h
  next hany =>
    refine ⟨by omega, by omega, fun d hd hnil => ?_⟩
    exact hany (any_eq_true.mpr ⟨d, hd, by rw [hnil]; rfl⟩)

/-- When the checks pass, the covering set gives an exact cover, with no more filters than any set of
candidates that covers. -/
lemma exists_isExactCover (pick : Pick) (hbits : numBits < 64) (hlen : exclude.length < 1024)
    (hne : ∀ d ∈ coverDecisions exclude numBits (candidates exclude numBits), d ≠ []) :
    ∃ fs, intoBitFilters pick exclude numBits = .ok fs ∧ IsExactCover exclude numBits fs ∧
      ∀ T : Finset ℕ, (∀ d ∈ coverDecisions exclude numBits (candidates exclude numBits),
        ∃ x ∈ d, x ∈ T) → fs.length ≤ T.card := by
  obtain ⟨chosen, hchosen, hcover⟩ := MinimumCoveringSet.of_spec pick hne fun d hd x hx => by
    obtain ⟨v, -, -, rfl⟩ := mem_coverDecisions.mp hd
    exact mem_range.mp (mem_filter.mp hx).1
  have hany : ¬ (coverDecisions exclude numBits (candidates exclude numBits)).any isEmpty := by
    rw [any_eq_true]
    rintro ⟨d, hd, hnil⟩
    exact hne d hd (isEmpty_iff.mp hnil)
  obtain ⟨fs, hfs, hall⟩ : ∃ fs, (chosen.mapM fun index =>
      orPanic .indexOutOfBounds (candidates exclude numBits)[index]?) = .ok fs ∧
      List.Forall₂ (fun index bf => (candidates exclude numBits)[index]? = some bf) chosen fs :=
    exists_mapM_eq_ok fun index hindex => by
      have hget := getElem?_eq_getElem (hcover.bound index hindex)
      exact ⟨_, by rw [hget, orPanic_some], hget⟩
  have hsound : ∀ bf ∈ fs, bf.Bounded numBits ∧ ∀ v ∈ exclude, bf.matches v = false := by
    intro bf hbf
    obtain ⟨index, -, hget⟩ := exists_of_forall₂_of_mem hall hbf
    exact runInternal_sound hbits.le numBits _ (BitFilter.bounded_zero numBits) bf
      (mem_candidates.mp (mem_of_getElem? hget))
  refine ⟨fs, ?_, ⟨fun bf hbf => (hsound bf hbf).1, fun bf hbf => (hsound bf hbf).2, ?_⟩,
    fun T hT => hall.length_eq ▸ hcover.minimum T hT⟩
  · unfold intoBitFilters
    rw [if_neg (by omega), if_neg (by omega), if_neg (by omega)]
    rw [if_neg hany, hchosen, ok_bind, hfs]
  · intro v hlt hv
    obtain ⟨index, hindex, hin⟩ := hcover.meets _
      (mem_coverDecisions.mpr ⟨v, ⟨v.toNat, hlt, by simp⟩, hv, rfl⟩)
    have hmatch := (mem_filter.mp hindex).2
    obtain ⟨bf, hbf, hget⟩ := exists_of_mem_of_forall₂ hall hin
    rw [hget] at hmatch
    exact ⟨bf, hbf, hmatch⟩

/-- What `into_bit_filters` returns covers exactly the values that are not excluded. -/
theorem intoBitFilters_spec (h : intoBitFilters pick exclude numBits = .ok fs) :
    numBits < 64 ∧ IsExactCover exclude numBits fs := by
  obtain ⟨hbits, hlen, hne⟩ := guards_of_intoBitFilters h
  obtain ⟨fs', hfs', hcover, -⟩ := exists_isExactCover pick hbits hlen hne
  obtain rfl := ok_unique h hfs'
  exact ⟨hbits, hcover⟩

/-- The search finds a filter for what differs from every excluded value at a position of `m`. -/
lemma exists_mem_candidates (hbits : numBits < 64)
    (hdiff : ∀ w ∈ exclude, ∃ i < numBits, m.getLsbD i = true ∧ w.getLsbD i ≠ v.getLsbD i) :
    ∃ r ∈ candidates exclude numBits, r.Bounded numBits ∧ r.matches v = true ∧
      ∀ i, r.bitIsFixed.getLsbD i = true → m.getLsbD i = true := by
  have hcard : (freeBits numBits ⟨0, 0⟩).card ≤ numBits :=
    (Finset.card_filter_le _ _).trans (Finset.card_range numBits).le
  obtain ⟨r, hr, hmatch⟩ := runInternal_complete hbits.le hdiff numBits ⟨0, 0⟩
    (BitFilter.bounded_zero numBits) (by simp [BitFilter.«matches»]) (by simp) hcard
  exact ⟨r, mem_candidates.mpr hr, (runInternal_sound hbits.le numBits _
    (BitFilter.bounded_zero numBits) r hr).1, hmatch⟩

/-- There is a choice for every value if the excluded values differ from the others in their lowest
bits. -/
lemma ne_nil_of_mem_coverDecisions (hbits : numBits < 64)
    (hdiff : ∀ v : U64, v.toNat < 2 ^ numBits → v ∉ exclude →
      ∀ w ∈ exclude, ¬ AgreeBelow numBits w v) :
    ∀ d ∈ coverDecisions exclude numBits (candidates exclude numBits), d ≠ [] := by
  intro d hd hnil
  obtain ⟨v, ⟨n, hn, rfl⟩, hv, rfl⟩ := mem_coverDecisions.mp hd
  have hlt : (BitVec.ofNat 64 n).toNat < 2 ^ numBits := by
    exact (Nat.mod_le _ _).trans_lt hn
  obtain ⟨r, hr, -, hmatch, -⟩ := exists_mem_candidates hbits fun w hw => by
      have hw := hdiff _ hlt hv w hw
      unfold AgreeBelow at hw
      push Not at hw
      obtain ⟨i, hi, hne⟩ := hw
      exact ⟨i, hi, by rw [BitVec.getLsbD_allOnes, decide_eq_true (hi.trans hbits)], hne⟩
  obtain ⟨index, hlt, rfl⟩ := mem_iff_getElem.mp hr
  have hnone := filter_eq_nil_iff.mp hnil index (mem_range.mpr hlt)
  rw [getElem?_eq_getElem hlt] at hnone
  exact hnone hmatch

/-! ## The cover is a smallest one -/

lemma getLsbD_eq_false_of_le {i : ℕ} (hv : v.toNat < 2 ^ numBits) (hi : numBits ≤ i) :
    v.getLsbD i = false :=
  Nat.testBit_lt_two_pow (hv.trans_le (Nat.pow_le_pow_right (by decide) hi))

/-- A cube that matches no excluded value lies in a candidate. -/
theorem exists_candidate_of_cube (hbits : numBits < 64) (hlt : ∀ w ∈ exclude, w.toNat < 2 ^ numBits)
    {c : BitFilter} (hc : ∀ w ∈ exclude, c.matches w = false) (hv : v.toNat < 2 ^ numBits)
    (hcv : c.matches v = true) :
    ∃ r ∈ candidates exclude numBits, ∀ u, c.matches u = true → r.matches u = true := by
  have hcube : ∀ u, c.matches u = true ↔
      ∀ i, c.bitIsFixed.getLsbD i = true → u.getLsbD i = v.getLsbD i := by
    simp only [BitFilter.«matches», beq_iff_eq] at hcv ⊢
    exact fun u => by rw [← hcv, and_eq_and_iff]
  have hdiff : ∀ w ∈ exclude,
      ∃ i < numBits, c.bitIsFixed.getLsbD i = true ∧ w.getLsbD i ≠ v.getLsbD i := by
    intro w hw
    have hnot := hc w hw
    rw [Bool.eq_false_iff, ne_eq, hcube] at hnot
    push Not at hnot
    obtain ⟨i, hi, hne⟩ := hnot
    refine ⟨i, ?_, hi, hne⟩
    by_contra hge
    apply hne
    rw [getLsbD_eq_false_of_le (hlt w hw) (by omega), getLsbD_eq_false_of_le hv (by omega)]
  obtain ⟨r, hr, hbounded, hrv, hfixed⟩ := exists_mem_candidates hbits hdiff
  refine ⟨r, hr, fun u hu => (hbounded.matches_iff u).mpr fun i hi => ?_⟩
  rw [(hcube u).mp hu i (hfixed i hi), (hbounded.matches_iff v).mp hrv i hi]

/-- The filters match exactly the values of `numBits` bits that are not excluded. -/
def MatchExactly (exclude : List U64) (numBits : ℕ) (fs : List BitFilter) : Prop :=
  ∀ v : U64, v.toNat < 2 ^ numBits → ((∃ bf ∈ fs, bf.matches v = true) ↔ v ∉ exclude)

/-- For fewer than 64 bits and 1024 excluded values, `into_bit_filters` returns filters that match
exactly the values that are not excluded, and no list of fewer cubes does. -/
theorem intoBitFilters_minimum (pick : Pick) {numBits : ℕ} (hbits : numBits < 64)
    {exclude : List U64} (hlen : exclude.length < 1024)
    (hlt : ∀ w ∈ exclude, w.toNat < 2 ^ numBits) :
    ∃ fs, intoBitFilters pick exclude numBits = .ok fs ∧ MatchExactly exclude numBits fs ∧
      ∀ cs, MatchExactly exclude numBits cs → fs.length ≤ cs.length := by
  obtain ⟨fs, hfs, hcover, hmin⟩ := exists_isExactCover pick hbits hlen
    (ne_nil_of_mem_coverDecisions hbits fun v hv hnot w hw hagree => hnot (by
      have heq : w = v := BitVec.eq_of_getLsbD_eq fun i _ => by
        rcases Nat.lt_or_ge i numBits with hi | hi
        · exact hagree i hi
        · rw [getLsbD_eq_false_of_le (hlt w hw) hi, getLsbD_eq_false_of_le hv hi]
      exact heq ▸ hw))
  refine ⟨fs, hfs, fun v hv => ⟨?_, hcover.covers v hv⟩, fun cs hcs => ?_⟩
  · rintro ⟨bf, hbf, hmatch⟩ hex
    rw [hcover.avoids bf hbf v hex] at hmatch
    cases hmatch
  · -- one candidate around each cube that matches anything
    have hcand : ∀ c ∈ cs, (∃ v : U64, v.toNat < 2 ^ numBits ∧ c.matches v = true) →
        ∃ r ∈ candidates exclude numBits, ∀ u, c.matches u = true → r.matches u = true := by
      rintro c hc ⟨v, hv, hcv⟩
      refine exists_candidate_of_cube hbits hlt (fun w hw => Bool.eq_false_iff.mpr fun hcw => ?_)
        hv hcv
      exact (hcs w (hlt w hw)).mp ⟨c, hc, hcw⟩ hw
    choose! around haround using hcand
    have hle := hmin (cs.map fun c => (candidates exclude numBits).idxOf (around c)).toFinset ?_
    · exact hle.trans ((toFinset_card_le _).trans_eq (length_map _))
    intro d hd
    obtain ⟨v, ⟨n, hn, rfl⟩, hnot, rfl⟩ := mem_coverDecisions.mp hd
    have hv : (BitVec.ofNat 64 n).toNat < 2 ^ numBits := (Nat.mod_le _ _).trans_lt hn
    obtain ⟨c, hc, hcv⟩ := (hcs _ hv).mpr hnot
    obtain ⟨hmem, hsub⟩ := haround c hc ⟨_, hv, hcv⟩
    have hidx := idxOf_lt_length_of_mem hmem
    refine ⟨_, mem_filter.mpr ⟨mem_range.mpr hidx, ?_⟩, mem_toFinset.mpr (mem_map_of_mem hc)⟩
    rw [getElem?_eq_getElem hidx, getElem_idxOf]
    exact hsub _ hcv

/-- Without 1, the values of two bits need two cubes. -/
theorem intoBitFilters_minimum_two :
    ∃ fs, intoBitFilters (fun t i => t + i) [1#64] 2 = .ok fs ∧ MatchExactly [1#64] 2 fs ∧
      ∀ cs, MatchExactly [1#64] 2 cs → fs.length ≤ cs.length :=
  intoBitFilters_minimum _ (by decide) (by simp) (by simp)

end LibLisa.MinCover
