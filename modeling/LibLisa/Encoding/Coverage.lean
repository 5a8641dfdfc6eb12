import LibLisa.Encoding.FiltersExact

/-!
# The instructions that an encoding covers

`Covers` says which instructions an encoding is for: the fixed bits agree, and `valueIsValid` holds
of each value that `extractParts` returns. `integrityCheck` accepts encodings for which `filters`
does something else: it does not look at the length of the mapping of an immediate value, at bits of
parts that do not exist, or at parts of more than 64 bits. `PartsWellFormed` names what is missing,
and `filters_exact_iff` says that it is exactly what is missing.
-/

namespace LibLisa.Encoding

open Lib MinCover List Function
open Option (mem_unique)

variable {R : Type} {rng : ℕ → Pick} {e : Encoding R}

/-! ## What the integrity check ensures -/

lemma checkParts_eq_ok {bits : List Bit} {l : List (Part R × ℕ)}
    (h : checkParts bits l = .ok (.ok ())) :
    ∀ p ∈ l, p.1.size = bits.count (.part p.2) ∧
      checkMapping p.2 p.1.size p.1.mapping = .ok (.ok ()) := by
  induction l with
  | nil => exact nofun
  | cons p l ih =>
    unfold checkParts at h
    split at h
    · cases h
    next hsize =>
      obtain ⟨r, hr, h⟩ := ok_of_bind h
      rcases r with err | ⟨⟩
      · cases h
      · intro q hq
        rcases mem_cons.mp hq with rfl | hq
        · exact ⟨not_not.mp hsize, hr⟩
        · exact ih h q hq

variable {part : Part R} {n : ℕ}

/-- The size of each part is the number of its bits, and its mapping has passed its check. -/
lemma part_of_integrityCheck (h : e.integrityCheck = .ok (.ok ()))
    (hpart : e.parts[n]? = some part) :
    part.size = e.bits.count (.part n) ∧ checkMapping n part.size part.mapping = .ok (.ok ()) := by
  unfold integrityCheck at h
  split at h
  · cases h
  split at h
  · cases h
  exact checkParts_eq_ok h (part, n) (mem_zipIdx_iff_getElem?.mpr hpart)

/-! ## Coverage -/

/-- The instruction has the fixed bits, and the values of its parts are valid. -/
def Covers (e : Encoding R) (x : Instruction) : Prop :=
  FixedAgree (e.placed x) ∧ ∃ vs, e.extractParts x = .ok vs ∧
    ∀ p ∈ e.parts.zip vs, p.1.mapping.valueIsValid p.2 = .ok true

variable {v : U64}

lemma valueIsValid_iff {m : PartMapping R} :
    m.valueIsValid v = .ok true ↔
      ∀ valid, m.incomplete = some valid → valid[v.toNat]? = some true := by
  unfold PartMapping.valueIsValid
  rcases m.incomplete with _ | valid
  · simp
  · simp only [Option.some.injEq, forall_eq']
    constructor
    · exact eq_some_of_orPanic
    · intro h
      rw [h, orPanic_some]

variable {x : Instruction}

/-- The values of the parts read off the placed bits. -/
lemma covers_iff (hlen : x.bitLen = e.bits.length) :
    e.Covers x ↔ FixedAgree (e.placed x) ∧ PartsFit (replicate e.parts.length 0) (e.placed x) ∧
      ∀ (n : ℕ) (part : Part R) (valid : List Bool), e.parts[n]? = some part →
        part.mapping.incomplete = some valid →
        valid[(partValue n (e.placed x)).toNat]? = some true := by
  unfold Covers
  simp only [extractParts_eq_ok_iff, hlen, true_and]
  constructor
  · rintro ⟨hagree, vs, ⟨-, hfit, rfl⟩, hvalid⟩
    refine ⟨hagree, hfit, fun n part valid hpart hinc => ?_⟩
    have hn := lt_of_getElem? hpart
    have hmem : (part, partValue n (e.placed x)) ∈
        e.parts.zip ((range e.parts.length).map fun n => partValue n (e.placed x)) := by
      apply mem_iff_getElem?.mpr
      exact ⟨n, getElem?_zip_eq_some.mpr ⟨hpart, by simp [hn]⟩⟩
    exact valueIsValid_iff.mp (hvalid _ hmem) valid hinc
  · rintro ⟨hagree, hfit, hvalid⟩
    refine ⟨hagree, _, ⟨hagree, hfit, rfl⟩, ?_⟩
    rintro ⟨part, v⟩ hmem
    obtain ⟨n, hn⟩ := mem_iff_getElem?.mp hmem
    obtain ⟨hpart, hv⟩ := getElem?_zip_eq_some.mp hn
    have hlt := lt_of_getElem? hpart
    rw [getElem?_map, getElem?_range hlt] at hv
    obtain rfl := Option.some.inj hv
    exact valueIsValid_iff.mpr fun valid hinc => hvalid n part valid hpart hinc

/-! ## Well-formed parts -/

/-- The values of `size` bits that are not marked as invalid can be covered: there is one, and an
entry beyond is only invalid where the entry for its lowest bits is. -/
structure Coverable (size : ℕ) (valid : List Bool) : Prop where
  size_lt : size < 64
  exists_value : ∃ v < 2 ^ size, ¬ valid[v]? = some false
  beyond : ∀ i : ℕ, valid[i]? = some false → valid[i % 2 ^ size]? = some false

/-- The entries of a mapping go with the number of bits: they can be covered, and there is one for
each value. -/
structure EntriesFit (size : ℕ) (valid : List Bool) : Prop extends Coverable size valid where
  length_le : 2 ^ size ≤ valid.length

/-- What `integrityCheck` leaves open: the parts of the bits exist, no part has more than 64 bits,
and the entries of each mapping that has an invalid one go with the part's size. -/
structure PartsWellFormed (e : Encoding R) : Prop where
  exists_part : ∀ n, .part n ∈ e.bits → n < e.parts.length
  size_le : ∀ part ∈ e.parts, part.size ≤ 64
  entries : ∀ part ∈ e.parts, ∀ valid, part.mapping.incomplete = some valid →
    EntriesFit part.size valid

/-- The length of an instruction in bits. -/
def IsInstructionLength (n : ℕ) : Prop := 8 ∣ n ∧ n ≤ 120

/-- On the instructions of the encoding's length, the filters match what the encoding covers. -/
def FiltersExact (e : Encoding R) (rng : ℕ → Pick) : Prop :=
  ∀ x : Instruction, x.bitLen = e.bits.length →
    ∃ fs, e.filters rng = .ok fs ∧ ((∃ f ∈ fs, f.matches x = true) ↔ e.Covers x)

variable {valid : List Bool}

/-- As long as the positions are `u64` values, the excluded values are the positions of the entries
that are not valid. -/
lemma mem_excludedValues (hvec : valid.length ≤ 2 ^ 64) :
    v ∈ excludedValues valid ↔ valid[v.toNat]? = some false := by
  unfold excludedValues
  simp only [mem_map, mem_filter, Prod.exists, mem_zipIdx_iff_getElem?, Bool.not_eq_true']
  constructor
  · rintro ⟨b, i, ⟨hb, rfl⟩, rfl⟩
    have hi := lt_of_getElem? hb
    rwa [BitVec.toNat_ofNat, Nat.mod_eq_of_lt (by omega)]
  · intro hv
    exact ⟨false, v.toNat, ⟨hv, rfl⟩, by simp⟩

lemma length_excludedValues (valid : List Bool) :
    (excludedValues valid).length = valid.count false := by
  unfold excludedValues
  rw [length_map, ← countP_eq_length_filter]
  have hcount : valid.zipIdx.countP (!·.1) = (valid.zipIdx.map (·.1)).countP (!·) := by
    rw [countP_map]
    rfl
  rw [hcount, zipIdx_map_fst]
  exact countP_congr fun b _ => by cases b <;> simp

/-- The assumptions about an encoding: it passes the integrity check, no part has 1024 invalid
values, and no mapping has more entries than a `Vec` can have. -/
structure Checked (e : Encoding R) : Prop where
  integrity : e.integrityCheck = .ok (.ok ())
  few : ∀ part ∈ e.parts, ∀ valid, part.mapping.incomplete = some valid → valid.count false < 1024
  vec : ∀ part ∈ e.parts, ∀ valid, part.mapping.incomplete = some valid → valid.length ≤ 2 ^ 64

variable {bfs : List BitFilter} {exclude : List U64}

/-- An exact cover has a bit filter for the bits of a part when their value is not excluded. -/
lemma exists_agreesFrom_iff {l : List (Bit × Bool)}
    (hcover : IsExactCover exclude (partBits n l).length bfs) (hlt : (partBits n l).length < 64) :
    (∃ bf ∈ bfs, AgreesFrom bf 0 (partBits n l)) ↔ partValue n l ∉ exclude := by
  constructor
  · rintro ⟨bf, hbf, hagree⟩ hmem
    rw [agreesFrom_iff_matches (hcover.bounded bf hbf) hlt.le, hcover.avoids bf hbf _ hmem] at hagree
    cases hagree
  · intro hnot
    obtain ⟨bf, hbf, hmatch⟩ := hcover.covers _ (toNat_partValue_lt n l) hnot
    exact ⟨bf, hbf, (agreesFrom_iff_matches (hcover.bounded bf hbf) hlt.le).mpr hmatch⟩

lemma length_partBits_placed (hc : e.Checked) (hlen : x.bitLen = e.bits.length)
    (hpart : e.parts[n]? = some part) : (partBits n (e.placed x)).length = part.size := by
  rw [(part_of_integrityCheck hc.integrity hpart).1]
  exact length_partBits (by simp [hlen]) n

variable {fs : Filters}

/-- An instruction is matched by the filters when the fixed bits agree and no part has an invalid
value, a part without bits apart. -/
lemma exists_filter_matches_iff_valid (hc : e.Checked) (h : e.filters rng = .ok fs)
    (hlen : x.bitLen = e.bits.length) :
    (∃ f ∈ fs, f.matches x = true) ↔ FixedAgree (e.placed x) ∧
      ∀ (n : ℕ) (part : Part R) (valid : List Bool), e.parts[n]? = some part →
        part.mapping.incomplete = some valid → part.size = 0 ∨
        ¬ valid[(partValue n (e.placed x)).toNat]? = some false := by
  obtain ⟨choices, hchoices, -, -⟩ := mem_filters_iff h
  rw [exists_filter_matches_iff h hlen hchoices]
  apply and_congr_right
  intro _
  have hpart : ∀ (n : ℕ) part valid bfs,
      e.parts[n]? = some part → part.mapping.incomplete = some valid →
      intoBitFilters (rng n) (excludedValues valid) part.size = .ok bfs →
      ((partBits n (e.placed x) = [] ∨ ∃ bf ∈ bfs, AgreesFrom bf 0 (partBits n (e.placed x))) ↔
        part.size = 0 ∨ ¬ valid[(partValue n (e.placed x)).toNat]? = some false) := by
    intro n part valid bfs hpart hinc hbfs
    obtain ⟨hlt, hcover⟩ := intoBitFilters_spec hbfs
    have hlength := length_partBits_placed hc hlen hpart
    rw [← hlength] at hlt hcover
    rw [exists_agreesFrom_iff hcover hlt,
      ← mem_excludedValues (hc.vec part (mem_of_getElem? hpart) valid hinc), ← hlength,
      length_eq_zero_iff]
  constructor
  · intro hall n part valid hget hinc
    obtain ⟨bfs, hbfs⟩ := exists_intoBitFilters_of_choices hchoices hget hinc
    exact (hpart n part valid bfs hget hinc hbfs).mp
      (hall n bfs ((mem_incompleteChoiceFilters hchoices).mpr ⟨part, valid, hget, hinc, hbfs⟩))
  · intro hall n bfs hmem
    obtain ⟨part, valid, hget, hinc, hbfs⟩ := (mem_incompleteChoiceFilters hchoices).mp hmem
    exact (hpart n part valid bfs hget hinc hbfs).mpr (hall n part valid hget hinc)

/-! ## Well-formed parts have exact filters -/

variable {size : ℕ} {choices : List (ℕ × List BitFilter)}

/-- An excluded value beyond the size has the lowest bits of an excluded value. -/
lemma Coverable.not_agreeBelow (h : Coverable size valid) (hvec : valid.length ≤ 2 ^ 64) {w : U64}
    (hv : v.toNat < 2 ^ size) (hnot : v ∉ excludedValues valid) (hw : w ∈ excludedValues valid) :
    ¬ AgreeBelow size w v := by
  intro hagree
  apply hnot
  rw [mem_excludedValues hvec] at hw ⊢
  have hlow : w.toNat % 2 ^ size = v.toNat := by
    apply Nat.eq_of_testBit_eq
    intro i
    rw [Nat.testBit_mod_two_pow]
    by_cases hi : i < size
    · simp only [hi]
      exact hagree i hi
    · simp only [hi]
      symm
      apply Nat.testBit_lt_two_pow
      exact hv.trans_le (Nat.pow_le_pow_right (by omega) (by omega))
  rw [← hlow]
  exact h.beyond _ hw

/-- The parts in which some value is not valid can be covered. -/
def PartsCoverable (e : Encoding R) : Prop :=
  ∀ part ∈ e.parts, ∀ valid, part.mapping.incomplete = some valid → Coverable part.size valid

/-- The covers of the parts exist. -/
lemma exists_incompleteChoiceFilters (hc : e.Checked) (hw : e.PartsCoverable) (rng : ℕ → Pick) :
    ∃ choices, e.incompleteChoiceFilters rng = .ok choices := by
  apply exists_mapM
  rintro ⟨n, valid⟩ hmem
  obtain ⟨part, hpart, hinc⟩ := mem_incompleteChoices.mp hmem
  have hin := mem_of_getElem? hpart
  have hfit := hw part hin valid hinc
  obtain ⟨bfs, hbfs, -⟩ := exists_isExactCover (rng n) hfit.size_lt
    (by rw [length_excludedValues]; exact hc.few part hin valid hinc)
    (ne_nil_of_mem_coverDecisions hfit.size_lt
      fun v hv hnot w => hfit.not_agreeBelow (hc.vec part hin valid hinc) hv hnot)
  exact ⟨(n, bfs), by simp only [hpart, orPanic_some, ok_bind, hbfs]; rfl⟩

/-- Some value is covered, so the cover is not empty. -/
lemma Coverable.cover_ne_nil (h : Coverable size valid) (hvec : valid.length ≤ 2 ^ 64)
    (hcover : IsExactCover (excludedValues valid) size bfs) : bfs ≠ [] := by
  obtain ⟨v, hv, hvalid⟩ := h.exists_value
  have h64 : v < 2 ^ 64 := hv.trans (Nat.pow_lt_pow_right (by omega) h.size_lt)
  have hnat : (BitVec.ofNat 64 v).toNat = v := by
    rw [BitVec.toNat_ofNat, Nat.mod_eq_of_lt h64]
  obtain ⟨bf, hbf, -⟩ := hcover.covers (BitVec.ofNat 64 v) (hnat.symm ▸ hv) (by
    rwa [mem_excludedValues hvec, hnat])
  exact ne_nil_of_mem hbf

/-- Digits below the sizes of the covers pick a bit filter of each cover that is not empty. -/
lemma exists_picks_of_isDigits {values : List ℕ}
    (h : Odometer.IsDigits (choices.map (·.2.length)) values) {index : ℕ}
    (hindex : choices[index]? = some (n, bfs)) (hne : bfs ≠ []) :
    ∃ bf, Picks choices values index n bf := by
  obtain ⟨hlt, hget⟩ := List.getElem?_eq_some_iff.mp hindex
  obtain ⟨hlength, hall⟩ := forall₂_iff_get.mp h
  have hv : index < values.length := by
    rw [← hlength, length_map]
    exact hlt
  have hdigit := hall index (by simpa using hlt) hv
  simp only [get_eq_getElem, getElem_map, hget] at hdigit
  have hpos := length_pos_of_ne_nil hne
  have hbf : values[index] < bfs.length := by omega
  exact ⟨bfs[values[index]], bfs, hindex, values[index], getElem?_eq_getElem hv,
    getElem?_eq_getElem hbf⟩

/-- Where the parts can be covered, `filters` returns. -/
lemma exists_filters (hc : e.Checked) (hw : e.PartsCoverable) (hlen : e.bits.length ≤ 120)
    (rng : ℕ → Pick) : ∃ fs, e.filters rng = .ok fs := by
  obtain ⟨choices, hchoices⟩ := exists_incompleteChoiceFilters hc hw rng
  obtain ⟨l, hl, hdigits⟩ := Odometer.exists_visit (choices.map (·.2.length))
  -- what is known of the cover of each part
  have hcover : ∀ n bfs, (n, bfs) ∈ choices → bfs ≠ [] ∧ e.bits.count (.part n) ≤ 64 ∧
      ∀ bf ∈ bfs, ∀ i, bf.value.getLsbD i = true → bf.bitIsFixed.getLsbD i = true := by
    intro n bfs hmem
    obtain ⟨part, valid, hpart, hinc, hbfs⟩ := (mem_incompleteChoiceFilters hchoices).mp hmem
    have hin := mem_of_getElem? hpart
    obtain ⟨hlt, hcover⟩ := intoBitFilters_spec hbfs
    refine ⟨(hw part hin valid hinc).cover_ne_nil (hc.vec part hin valid hinc) hcover, ?_,
      fun bf hbf => (hcover.bounded bf hbf).value_fixed⟩
    rw [← (part_of_integrityCheck hc.integrity hpart).1]
    exact hlt.le
  obtain ⟨fs, hfs⟩ : ∃ fs, l.mapM (e.filterFor choices) = .ok fs := by
    apply exists_mapM
    intro values hvalues
    have hisDigits := (hdigits values).mp hvalues
    exact exists_filterFor (nodup_keys hchoices)
      (fun index n bf hpick => by
        obtain ⟨bfs, hbfs, v, -, hget⟩ := hpick.exists_choice
        exact (hcover n bfs (mem_of_getElem? hbfs)).2.2 bf (mem_of_getElem? hget))
      (fun index n bfs hindex _ => exists_picks_of_isDigits hisDigits hindex
        (hcover n bfs (mem_of_getElem? hindex)).1)
      (fun n bfs hmem => (hcover n bfs hmem).2.1) hlen
  refine ⟨fs, ?_⟩
  unfold filters
  rw [hchoices, ok_bind]
  dsimp only
  rw [hl, orPanic_some, ok_bind, hfs]

/-- The parts fit an instruction of the encoding's length when they exist and have at most 64
bits. -/
lemma partsFit_placed_iff (hc : e.Checked) (hlen : x.bitLen = e.bits.length) :
    PartsFit (replicate e.parts.length 0) (e.placed x) ↔
      (∀ n, .part n ∈ e.bits → n < e.parts.length) ∧ ∀ part ∈ e.parts, part.size ≤ 64 := by
  constructor
  · rintro ⟨hexists, hle⟩
    refine ⟨fun n hn => ?_, fun part hpart => ?_⟩
    · obtain ⟨i, hi⟩ := mem_iff_getElem?.mp hn
      have hilt : i < x.bits.reverse.length := by
        simpa [hlen] using (lt_of_getElem? hi)
      have hbit := getElem?_eq_getElem hilt
      have hmem : (.part n, x.bits.reverse[i]) ∈ e.placed x :=
        mem_iff_getElem?.mpr ⟨i, getElem?_zip_eq_some.mpr ⟨hi, hbit⟩⟩
      simpa using hexists _ hmem n rfl
    · obtain ⟨n, hn⟩ := mem_iff_getElem?.mp hpart
      have hlt := lt_of_getElem? hn
      have hcount := hle n 0 (by simp [hlt])
      rwa [Nat.zero_add, length_partBits_placed hc hlen hn] at hcount
  · rintro ⟨hexists, hle⟩
    constructor
    · intro p hp n hn
      rw [length_replicate]
      exact hexists n (hn ▸ (of_mem_zip hp).1)
    · intro n count hcount
      obtain ⟨hlt, hzero⟩ := List.getElem?_eq_some_iff.mp hcount
      rw [length_replicate] at hlt
      rw [getElem_replicate] at hzero
      have hpart := getElem?_eq_getElem hlt
      rw [← hzero, Nat.zero_add, length_partBits_placed hc hlen hpart]
      exact hle _ (getElem_mem hlt)

/-- On well-formed parts the filters match what the encoding covers. -/
lemma filtersExact_of_wellFormed (hc : e.Checked) (hw : e.PartsWellFormed) (rng : ℕ → Pick) :
    e.FiltersExact rng := by
  intro x hlen
  obtain ⟨fs, hfs⟩ := exists_filters hc (fun part hpart valid hinc =>
    (hw.entries part hpart valid hinc).toCoverable) (hlen ▸ x.bitLen_le) rng
  refine ⟨fs, hfs, ?_⟩
  rw [exists_filter_matches_iff_valid hc hfs hlen, covers_iff hlen]
  apply and_congr_right
  intro _
  rw [and_iff_right ((partsFit_placed_iff hc hlen).mpr ⟨hw.exists_part, hw.size_le⟩)]
  refine forall_congr' fun n => forall_congr' fun part => forall_congr' fun valid =>
    imp_congr_right fun hpart => imp_congr_right fun hinc => ?_
  have hfit := hw.entries part (mem_of_getElem? hpart) valid hinc
  have hvalue := toNat_partValue_lt n (e.placed x)
  rw [length_partBits_placed hc hlen hpart] at hvalue
  have hget := getElem?_eq_getElem (hvalue.trans_le hfit.length_le)
  rw [hget, Option.some.injEq, Option.some.injEq, Bool.not_eq_false]
  refine or_iff_right_of_imp fun hzero => ?_
  -- a part without bits has the value zero only
  obtain ⟨v, hv, hne⟩ := hfit.exists_value
  rw [hzero] at hv hvalue
  obtain rfl : (partValue n (e.placed x)).toNat = v := by omega
  rwa [hget, Option.some.injEq, Bool.not_eq_false] at hne

/-! ## Exact filters come from well-formed parts -/

/-- There is an instruction of the encoding's length with given values of the parts. -/
lemma exists_filled (hlen : IsInstructionLength e.bits.length) (val : ℕ → U64) :
    ∃ x : Instruction, x.bitLen = e.bits.length ∧
      e.placed x = e.bits.zip (fillBits val e.bits fun _ => 0) := by
  obtain ⟨⟨k, hk⟩, hle⟩ := hlen
  obtain ⟨x, hx⟩ := Instruction.exists_bits (fillBits val e.bits fun _ => 0).reverse
    (n := k) (by simp [hk]) (by omega)
  refine ⟨x, ?_, by rw [placed, hx, reverse_reverse]⟩
  rw [← Instruction.length_bits, hx]
  simp

/-- Where `filters` returns, the cover of a part that has bits is not empty. -/
lemma cover_ne_nil_of_filters (h : e.filters rng = .ok fs)
    (hchoices : e.incompleteChoiceFilters rng = .ok choices) (hmem : (n, bfs) ∈ choices)
    (hn : .part n ∈ e.bits) : bfs ≠ [] := by
  obtain ⟨choices', hchoices', hall, -⟩ := mem_filters_iff h
  obtain rfl := ok_unique hchoices hchoices'
  obtain ⟨f, -, hok⟩ := hall _ (Odometer.isDigits_zeros _)
  obtain ⟨mvs, hmvs, -⟩ := ok_of_bind hok
  obtain ⟨index, hindex⟩ := mem_iff_getElem?.mp hmem
  obtain ⟨bf, hpick⟩ := picks_of_filterBits (nodup_keys hchoices) hindex _ _ _ hmvs hn
  obtain ⟨bfs', hbfs', v, -, hget⟩ := hpick.exists_choice
  obtain ⟨-, rfl⟩ := Prod.mk.inj (mem_unique hindex hbfs')
  exact ne_nil_of_mem (mem_of_getElem? hget)

/-- A bit filter of an exact cover matches its own value, which is thus not excluded. -/
lemma value_of_mem_cover (hcover : IsExactCover exclude size bfs)
    {bf : BitFilter} (hbf : bf ∈ bfs) : bf.value.toNat < 2 ^ size ∧ bf.value ∉ exclude := by
  have hb := hcover.bounded bf hbf
  constructor
  · apply Nat.lt_pow_two_of_testBit
    intro i hi
    by_contra hbit
    have hfixed := hb.value_fixed i (Bool.eq_true_of_not_eq_false hbit)
    exact absurd (hb.fixed_lt i hfixed) (by omega)
  · intro hmem
    have hmatch : bf.matches bf.value = true := (hb.matches_iff _).mpr fun _ _ => rfl
    rw [hcover.avoids bf hbf _ hmem] at hmatch
    cases hmatch

/-- Where `filters` returns, each part has a value that the filters match. -/
lemma exists_matched_value (hc : e.Checked) (h : e.filters rng = .ok fs) (n : ℕ) :
    ∃ v : U64, v.toNat < 2 ^ e.bits.count (.part n) ∧
      ∀ (part : Part R) (valid : List Bool), e.parts[n]? = some part →
        part.mapping.incomplete = some valid → part.size = 0 ∨ ¬ valid[v.toNat]? = some false := by
  by_cases hinc : ∃ part valid, e.parts[n]? = some part ∧ part.mapping.incomplete = some valid ∧
      part.size ≠ 0
  · obtain ⟨part, valid, hpart, hinc, hsize⟩ := hinc
    obtain ⟨choices, hchoices, -, -⟩ := mem_filters_iff h
    obtain ⟨bfs, hbfs⟩ := exists_intoBitFilters_of_choices hchoices hpart hinc
    have hmem := (mem_incompleteChoiceFilters hchoices).mpr ⟨part, valid, hpart, hinc, hbfs⟩
    have hcount := (part_of_integrityCheck hc.integrity hpart).1
    have hn : .part n ∈ e.bits := count_pos_iff.mp (by omega)
    obtain ⟨bf, hbf⟩ := exists_mem_of_ne_nil _ (cover_ne_nil_of_filters h hchoices hmem hn)
    obtain ⟨hlt, hnot⟩ := value_of_mem_cover (intoBitFilters_spec hbfs).2 hbf
    refine ⟨bf.value, hcount ▸ hlt, fun part' valid' hpart' hinc' => Or.inr ?_⟩
    obtain rfl := mem_unique hpart hpart'
    obtain rfl := mem_unique hinc hinc'
    rwa [mem_excludedValues (hc.vec part (mem_of_getElem? hpart) valid hinc)] at hnot
  · refine ⟨0, by simp, fun part valid hpart hinc' => Or.inl ?_⟩
    by_contra hsize
    exact hinc ⟨part, valid, hpart, hinc', hsize⟩

/-- Exact filters say of all values of the parts at once which of them are valid. -/
lemma FiltersExact.valid_iff (hexact : e.FiltersExact rng) (hc : e.Checked)
    (hlen : IsInstructionLength e.bits.length) {val : ℕ → U64}
    (hval : ∀ n, (val n).toNat < 2 ^ e.bits.count (.part n)) :
    (∀ (n : ℕ) (part : Part R) (valid : List Bool), e.parts[n]? = some part →
      part.mapping.incomplete = some valid →
      part.size = 0 ∨ ¬ valid[(val n).toNat]? = some false) ↔
    (∀ n, .part n ∈ e.bits → n < e.parts.length) ∧
      (∀ part ∈ e.parts, part.size ≤ 64) ∧
      ∀ (n : ℕ) (part : Part R) (valid : List Bool), e.parts[n]? = some part →
        part.mapping.incomplete = some valid → valid[(val n).toNat]? = some true := by
  obtain ⟨x, hx, hplaced⟩ := exists_filled hlen val
  obtain ⟨fs, hfs, hiff⟩ := hexact x hx
  have hvalue : ∀ n, partValue n (e.placed x) = val n := fun n => by
    rw [hplaced]
    exact partValue_fillBits val e.bits (hval n)
  have hagree : FixedAgree (e.placed x) := hplaced ▸ fixedAgree_fillBits val e.bits _
  rw [exists_filter_matches_iff_valid hc hfs hx, covers_iff hx, partsFit_placed_iff hc hx] at hiff
  simpa only [hagree, true_and, hvalue, and_assoc] using hiff

/-- A value of one part that is not marked as invalid is valid: the other parts keep the values
that the filters match. -/
lemma FiltersExact.entry_valid (hexact : e.FiltersExact rng) (hc : e.Checked)
    (hlen : IsInstructionLength e.bits.length) (hn : e.parts[n]? = some part)
    (hinc : part.mapping.incomplete = some valid) (hv : v.toNat < 2 ^ part.size)
    (hne : ¬ valid[v.toNat]? = some false) : valid[v.toNat]? = some true := by
  obtain ⟨x, hx, -⟩ := exists_filled hlen fun _ => 0
  obtain ⟨fs, hfs, -⟩ := hexact x hx
  choose val hval hmatched using exists_matched_value hc hfs
  have hval' : ∀ m, (update val n v m).toNat < 2 ^ e.bits.count (.part m) := by
    intro m
    by_cases hm : m = n
    · rw [hm, update_self, ← (part_of_integrityCheck hc.integrity hn).1]
      exact hv
    · rw [update_of_ne hm]
      exact hval m
  have hall := (hexact.valid_iff hc hlen hval').mp fun m part' valid' hpart' hinc' => by
    by_cases hm : m = n
    · subst hm
      obtain rfl := mem_unique hn hpart'
      obtain rfl := mem_unique hinc hinc'
      rw [update_self]
      exact Or.inr hne
    · rw [update_of_ne hm]
      exact hmatched m part' valid' hpart' hinc'
  have hentry := hall.2.2 n part valid hn hinc
  rwa [update_self] at hentry

/-- An encoding of an instruction's length with exact filters has well-formed parts. -/
lemma wellFormed_of_filtersExact (hexact : e.FiltersExact rng) (hc : e.Checked)
    (hlen : IsInstructionLength e.bits.length) : e.PartsWellFormed := by
  obtain ⟨x, hx, -⟩ := exists_filled hlen fun _ => 0
  obtain ⟨fs, hfs, -⟩ := hexact x hx
  choose val hval hmatched using exists_matched_value hc hfs
  obtain ⟨hexists, hle, hvalid⟩ := (hexact.valid_iff hc hlen hval).mp hmatched
  refine ⟨hexists, hle, fun part hmem valid hinc => ?_⟩
  obtain ⟨n, hn⟩ := mem_iff_getElem?.mp hmem
  have hcount := (part_of_integrityCheck hc.integrity hn).1
  have hvec := hc.vec part hmem valid hinc
  obtain ⟨choices, hchoices, -, -⟩ := mem_filters_iff hfs
  obtain ⟨bfs, hbfs⟩ := exists_intoBitFilters_of_choices hchoices hn hinc
  obtain ⟨hlt, hcover⟩ := intoBitFilters_spec hbfs
  have hnat : ∀ v < 2 ^ part.size, (BitVec.ofNat 64 v).toNat = v := fun v hv => by
    rw [BitVec.toNat_ofNat, Nat.mod_eq_of_lt (hv.trans (Nat.pow_lt_pow_right (by omega) hlt))]
  refine ⟨⟨hlt, ⟨(val n).toNat, hcount ▸ hval n, ?_⟩, ?_⟩, ?_⟩
  · rw [hvalid n part valid hn hinc]
    simp
  · -- an invalid entry beyond is covered by no bit filter that covers its lowest bits
    intro i hi
    have hmod : i % 2 ^ part.size < 2 ^ part.size := Nat.mod_lt _ (Nat.two_pow_pos _)
    by_contra hne
    have hilt := lt_of_getElem? hi
    have hinat : (BitVec.ofNat 64 i).toNat = i := by
      rw [BitVec.toNat_ofNat, Nat.mod_eq_of_lt (by omega)]
    have hagree : AgreeBelow part.size (.ofNat 64 i) (.ofNat 64 (i % 2 ^ part.size)) := by
      intro j hj
      simp [BitVec.getLsbD_ofNat, hj]
    obtain ⟨bf, hbf, hmatch⟩ := hcover.covers (.ofNat 64 (i % 2 ^ part.size))
      (by rwa [hnat _ hmod]) (by rwa [mem_excludedValues hvec, hnat _ hmod])
    rw [← (hcover.bounded bf hbf).matches_congr hagree,
      hcover.avoids bf hbf _ (by rwa [mem_excludedValues hvec, hinat])] at hmatch
    cases hmatch
  · -- the first value without an entry would be matched and not valid
    by_contra hshort
    have hlast := hnat valid.length (by omega)
    have hnone : valid[valid.length]? = none := getElem?_eq_none le_rfl
    have hsome := hexact.entry_valid hc hlen hn hinc
      (by rw [hlast]; omega) (by rw [hlast, hnone]; simp)
    rw [hlast, hnone] at hsome
    cases hsome

/-- **Exactness of the filters.** On an encoding that passes the integrity check, `filters` returns
and matches, among the instructions of the encoding's length, those with the fixed bits and valid
values of the parts, exactly when there are no such instructions or the parts are well formed. -/
theorem filters_exact_iff (hc : e.Checked) (rng : ℕ → Pick) :
    e.FiltersExact rng ↔ (IsInstructionLength e.bits.length → e.PartsWellFormed) := by
  constructor
  · intro hexact hlen
    exact wellFormed_of_filtersExact hexact hc hlen
  · intro hw x hx
    have hlen : IsInstructionLength e.bits.length := by
      rw [← hx]
      exact ⟨Dvd.intro_left _ rfl, x.bitLen_le⟩
    exact filtersExact_of_wellFormed hc (hw hlen) rng x hx

/-- An encoding of one byte with no dataflows: the two lowest bits are a part, the others are
zero. -/
def twoBitPart (mapping : PartMapping ℕ) : Encoding ℕ where
  bits := [.part 0, .part 0] ++ List.replicate 6 (.fixed false)
  parts := [⟨2, mapping⟩]
  dataflows := ⟨⟨⟨[1], by decide⟩, [], false⟩, []⟩

lemma twoBitPart_checked (mapping : PartMapping ℕ) (valid : List Bool)
    (hmapping : checkMapping 0 2 mapping = .ok (.ok ())) (hinc : mapping.incomplete = some valid)
    (hlen : valid.length < 1024) : (twoBitPart mapping).Checked where
  integrity := by
    simp [integrityCheck, twoBitPart, checkParts, hmapping]
  few part hpart valid' hvalid' := by
    obtain rfl := mem_singleton.mp hpart
    obtain rfl := mem_unique hinc hvalid'
    exact count_le_length.trans_lt hlen
  vec part hpart valid' hvalid' := by
    obtain rfl := mem_singleton.mp hpart
    obtain rfl := mem_unique hinc hvalid'
    omega

/-- Registers 7 and 9 for the values 1 and 2. -/
def twoRegisters : Encoding ℕ := twoBitPart (.register [none, some 7, some 9, none] [])

/-- The encoding of one byte satisfies the assumptions, and has exact filters if its part is well
formed. -/
theorem filters_exact_twoRegisters :
    twoRegisters.Checked ∧ (twoRegisters.FiltersExact (fun _ _ _ => 0) ↔
      (IsInstructionLength 8 → twoRegisters.PartsWellFormed)) :=
  have hc : twoRegisters.Checked :=
    twoBitPart_checked _ [false, true, true, false] (by decide) (by decide) (by decide)
  ⟨hc, filters_exact_iff hc _⟩

/-- An immediate value of two bits whose mapping has only two entries. -/
def shortMapping : Encoding ℕ := twoBitPart (.imm (some (.mapping [.invalid, .valid])) [] none)

/-- `shortMapping` passes the integrity check. The filters match the byte 2, whose part has the
value 2, and `value_is_valid` then reads past the end of the mapping. -/
theorem filters_match_value_without_entry :
    shortMapping.Checked ∧
      (∃ fs, shortMapping.filters (fun _ _ _ => 0) = .ok fs ∧
        ∃ f ∈ fs, f.matches ⟨[2], by decide⟩ = true) ∧
      shortMapping.extractParts ⟨[2], by decide⟩ = .ok [2] ∧
      (PartMapping.imm (some (.mapping [.invalid, .valid])) [] none :
          PartMapping ℕ).valueIsValid 2 = .error .indexOutOfBounds := by
  have hc : shortMapping.Checked :=
    twoBitPart_checked _ [false, true] (by decide) (by decide) (by decide)
  have hcoverable : shortMapping.PartsCoverable := by
    intro part hpart valid hinc
    obtain rfl := mem_singleton.mp hpart
    obtain rfl : [false, true] = valid := Option.some.inj hinc
    refine ⟨by decide, ⟨1, by decide, by decide⟩, fun i hi => ?_⟩
    rcases i with _ | _ | i
    · rfl
    · cases hi
    · cases hi
  obtain ⟨fs, hfs⟩ := exists_filters hc hcoverable (by decide) fun _ _ _ => 0
  refine ⟨hc, ⟨fs, hfs, ?_⟩, by decide, by decide⟩
  rw [exists_filter_matches_iff_valid hc hfs (by decide)]
  constructor
  · unfold FixedAgree
    decide
  · intro n part valid hpart hinc
    rcases n with _ | n
    · obtain rfl := Option.some.inj hpart
      obtain rfl : [false, true] = valid := Option.some.inj hinc
      exact Or.inr (by decide)
    · cases hpart

end LibLisa.Encoding
