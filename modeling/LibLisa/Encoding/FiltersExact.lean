import LibLisa.Encoding.Filters

/-!
# Which instructions the filters of an encoding match

`exists_filter_matches_iff` reads the filters of an encoding as a condition on the bits of an
instruction: the fixed bits agree, and each part in which some value is not valid is matched by a
bit filter of its cover. `Covers` is what the filters are for, in terms of `extractParts` and
`valueIsValid`.

The two agree on the encodings whose parts are well formed (`PartsWellFormed`), and on no others of
an instruction's length: `fillBits` builds instructions with given values of the parts, and on an
encoding that is not well formed one of these is matched and not covered.
-/

namespace LibLisa.Encoding

open Lib MinCover List Option

variable {R : Type} {rng : ℕ → Pick} {e : Encoding R}

/-! ## The covers of the parts -/

variable {n : ℕ} {valid : List Bool}

lemma mem_incompleteChoices :
    (n, valid) ∈ e.incompleteChoices ↔
      ∃ part, e.parts[n]? = some part ∧ part.mapping.incomplete = some valid := by
  unfold incompleteChoices
  rw [mem_filterMap]
  constructor
  · rintro ⟨⟨part, index⟩, hmem, hmap⟩
    obtain ⟨valid', hvalid, heq⟩ := map_eq_some_iff.mp hmap
    obtain ⟨rfl, rfl⟩ := Prod.mk.inj heq
    exact ⟨part, mem_zipIdx_iff_getElem?.mp hmem, hvalid⟩
  · rintro ⟨part, hpart, hvalid⟩
    exact ⟨(part, n), mem_zipIdx_iff_getElem?.mpr hpart, by simp [hvalid]⟩

lemma nodup_keys_incompleteChoices (e : Encoding R) : (e.incompleteChoices.map (·.1)).Nodup := by
  have hpairs : e.parts.zipIdx.Pairwise (fun p q => p.2 ≠ q.2) := by
    apply pairwise_map.mp
    rw [zipIdx_map_snd]
    exact nodup_range'
  apply pairwise_map.mpr
  refine hpairs.filterMap _ fun p q hpq a ha b hb => ?_
  obtain ⟨v, -, rfl⟩ := map_eq_some_iff.mp ha
  obtain ⟨w, -, rfl⟩ := map_eq_some_iff.mp hb
  exact hpq

variable {choices : List (ℕ × List BitFilter)} {fs : Filters} {x : Instruction}

section

variable (h : e.incompleteChoiceFilters rng = .ok choices)
include h

/-- The covers are those of the parts in which some value is not valid. -/
lemma mem_incompleteChoiceFilters {bfs : List BitFilter} :
    (n, bfs) ∈ choices ↔ ∃ part valid, e.parts[n]? = some part ∧
      part.mapping.incomplete = some valid ∧
      intoBitFilters (rng n) (excludedValues valid) part.size = .ok bfs := by
  rw [mem_iff_of_mapM h]
  constructor
  · rintro ⟨⟨m, valid⟩, hmem, hok⟩
    obtain ⟨part, hpart, hvalid⟩ := mem_incompleteChoices.mp hmem
    obtain ⟨part', bfs', hpart', hbfs, hok⟩ := ok_of_bind₂ hok
    obtain ⟨rfl, rfl⟩ := ok_pair_inj hok
    obtain rfl := mem_unique hpart (eq_some_of_orPanic hpart')
    exact ⟨part, valid, hpart, hvalid, hbfs⟩
  · rintro ⟨part, valid, hpart, hvalid, hbfs⟩
    refine ⟨(n, valid), mem_incompleteChoices.mpr ⟨part, hpart, hvalid⟩, ?_⟩
    simp only [hpart, orPanic_some, ok_bind, hbfs]
    rfl

lemma exists_intoBitFilters_of_choices {part : Part R} (hpart : e.parts[n]? = some part)
    (hinc : part.mapping.incomplete = some valid) :
    ∃ bfs, intoBitFilters (rng n) (excludedValues valid) part.size = .ok bfs := by
  obtain ⟨choice, hok⟩ := exists_of_mem_of_mapM h (mem_incompleteChoices.mpr ⟨part, hpart, hinc⟩)
  simp only [hpart, orPanic_some, ok_bind] at hok
  obtain ⟨bfs, hbfs, -⟩ := ok_of_bind hok
  exact ⟨bfs, hbfs⟩

lemma nodup_keys : (choices.map (·.1)).Nodup := by
  have hkeys : choices.map (·.1) = e.incompleteChoices.map (·.1) := by
    have hall := mapM_eq_ok_iff.mp h
    rw [← forall₂_eq_eq_eq, forall₂_map_left_iff, forall₂_map_right_iff]
    refine hall.flip.imp fun choice entry hok => ?_
    obtain ⟨part, bfs, -, -, hok⟩ := ok_of_bind₂ hok
    rw [← Except.ok.inj hok]
  rw [hkeys]
  exact nodup_keys_incompleteChoices e

end

/-! ## The filters, all together -/

lemma part_mem_of_partBits (h : partBits n (e.placed x) ≠ []) : .part n ∈ e.bits := by
  obtain ⟨b, hb⟩ := exists_mem_of_ne_nil _ h
  obtain ⟨p, hp, hsome⟩ := mem_filterMap.mp hb
  split at hsome
  next hpart => exact hpart ▸ (of_mem_zip hp).1
  next => cases hsome

/-- The filters of an encoding are built for every choice of digits below the sizes of the
covers. -/
lemma mem_filters_iff (h : e.filters rng = .ok fs) :
    ∃ choices, e.incompleteChoiceFilters rng = .ok choices ∧
      (∀ values, Odometer.IsDigits (choices.map (·.2.length)) values →
        ∃ f ∈ fs, e.filterFor choices values = .ok f) ∧
      ∀ f ∈ fs, ∃ values, Odometer.IsDigits (choices.map (·.2.length)) values ∧
        e.filterFor choices values = .ok f := by
  obtain ⟨choices, values, hchoices, hvalues, h⟩ := ok_of_bind₂ h
  obtain ⟨l, hl, hmem⟩ := Odometer.exists_visit (choices.map (·.2.length))
  obtain rfl := mem_unique hl (eq_some_of_orPanic hvalues)
  refine ⟨choices, hchoices, fun ds hds => ?_, fun f hf => ?_⟩
  · obtain ⟨f, hf⟩ := exists_of_mem_of_mapM h ((hmem ds).mpr hds)
    exact ⟨f, (mem_iff_of_mapM h).mpr ⟨ds, (hmem ds).mpr hds, hf⟩, hf⟩
  · obtain ⟨ds, hds, hok⟩ := (mem_iff_of_mapM h).mp hf
    exact ⟨ds, (hmem ds).mp hds, hok⟩

/-- An instruction is matched when its fixed bits agree and, for every part in which some value is
not valid and that has bits, a bit filter of the cover agrees with these. -/
theorem exists_filter_matches_iff (h : e.filters rng = .ok fs) (hlen : x.bitLen = e.bits.length)
    (hchoices : e.incompleteChoiceFilters rng = .ok choices) :
    (∃ f ∈ fs, f.matches x = true) ↔ FixedAgree (e.placed x) ∧
      ∀ n bfs, (n, bfs) ∈ choices → partBits n (e.placed x) = [] ∨
        ∃ bf ∈ bfs, AgreesFrom bf 0 (partBits n (e.placed x)) := by
  obtain ⟨choices', hchoices', hall, hfs⟩ := mem_filters_iff h
  obtain rfl := ok_unique hchoices hchoices'
  have hkeys := nodup_keys hchoices
  constructor
  · rintro ⟨f, hf, hmatch⟩
    obtain ⟨values, -, hok⟩ := hfs f hf
    obtain ⟨hagree, hpicks⟩ := (filterFor_matches_iff hkeys hok hlen).mp hmatch
    refine ⟨hagree, fun n bfs hmem => ?_⟩
    obtain ⟨index, hindex⟩ := mem_iff_getElem?.mp hmem
    rw [or_iff_not_imp_left]
    intro hne
    obtain ⟨mvs, hmvs, -⟩ := ok_of_bind hok
    obtain ⟨bf, hpick⟩ := picks_of_filterBits hkeys hindex _ _ _ hmvs (part_mem_of_partBits hne)
    obtain ⟨bfs', hbfs', v, -, hget⟩ := hpick.exists_choice
    obtain ⟨-, rfl⟩ := Prod.mk.inj (mem_unique hindex hbfs')
    exact ⟨bf, mem_of_getElem? hget, hpicks index n bf hpick⟩
  · rintro ⟨hagree, hcovered⟩
    -- for each part the position of a bit filter that agrees, or zero if the part has no bits
    have hdigit : ∀ c ∈ choices, ∃ d, d < max c.2.length 1 ∧
        ∀ bf, c.2[d]? = some bf → AgreesFrom bf 0 (partBits c.1 (e.placed x)) := by
      rintro ⟨n, bfs⟩ hmem
      rcases hcovered n bfs hmem with hnil | ⟨bf, hbf, hagree⟩
      · exact ⟨0, by omega, fun bf _ => by rw [hnil]; exact agreesFrom_nil bf 0⟩
      · obtain ⟨d, hd⟩ := mem_iff_getElem?.mp hbf
        have hlt := lt_of_getElem? hd
        refine ⟨d, by dsimp only; omega, fun bf' hbf' => ?_⟩
        obtain rfl := mem_unique hd hbf'
        exact hagree
    choose! digit hlt hdigit using hdigit
    have hdigits : Odometer.IsDigits (choices.map (·.2.length)) (choices.map digit) := by
      unfold Odometer.IsDigits
      rw [forall₂_map_left_iff, forall₂_map_right_iff, forall₂_same]
      exact hlt
    obtain ⟨f, hf, hok⟩ := hall _ hdigits
    refine ⟨f, hf, (filterFor_matches_iff hkeys hok hlen).mpr ⟨hagree, ?_⟩⟩
    intro index n bf hpick
    obtain ⟨bfs, hbfs, v, hv, hget⟩ := hpick.exists_choice
    rw [getElem?_map, hbfs] at hv
    obtain rfl := some.inj hv
    exact hdigit (n, bfs) (mem_of_getElem? hbfs) bf hget

/-! ## Values of parts -/

/-- A part has as many bits in an instruction as in the encoding. -/
lemma length_partBits {bits : List Bit} {bs : List Bool} (hlen : bits.length = bs.length) (n : ℕ) :
    (partBits n (bits.zip bs)).length = bits.count (.part n) := by
  induction bits generalizing bs with
  | nil => rfl
  | cons bit bits ih =>
    obtain ⟨b, bs, rfl⟩ : ∃ b bs', bs = b :: bs' :=
      exists_cons_of_length_pos (by rw [← hlen]; exact Nat.succ_pos _)
    have hrest := ih (Nat.succ.inj hlen)
    rw [zip_cons_cons, count_cons, ← hrest]
    rcases bit with m | v | _
    · rw [partBits_cons_part]
      by_cases hm : m = n <;> simp [hm]
    · simp
    · simp

lemma toNat_partValue_lt (n : ℕ) (l : List (Bit × Bool)) :
    (partValue n l).toNat < 2 ^ (partBits n l).length := by
  unfold partValue
  rw [BitVec.toNat_setWidth]
  exact (Nat.mod_le _ _).trans_lt (BitVec.isLt _)

/-- Within the bits of a part, agreeing with a bit filter is being matched by it. -/
lemma agreesFrom_iff_matches {bf : BitFilter} {l : List (Bit × Bool)}
    (hbf : bf.Bounded (partBits n l).length) (hle : (partBits n l).length ≤ 64) :
    AgreesFrom bf 0 (partBits n l) ↔ bf.matches (partValue n l) = true := by
  rw [hbf.matches_iff]
  constructor
  · intro h i hi
    have hlt := hbf.fixed_lt i hi
    have hget := getElem?_eq_getElem hlt
    have hbit := h i _ hget (by rwa [Nat.zero_add])
    rw [Nat.zero_add] at hbit
    rw [getLsbD_partValue n l (by omega), getD_eq_getElem?_getD, hget, ← hbit]
    rfl
  · intro h j b hb hfixed
    rw [Nat.zero_add] at hfixed ⊢
    have hlt := hbf.fixed_lt j hfixed
    rw [← h j hfixed, getLsbD_partValue n l (by omega), getD_eq_getElem?_getD, hb]
    rfl

/-- The bits of an encoding with given values of the parts; `k` counts the bits of each part. -/
def fillBits (val : ℕ → U64) : List Bit → (ℕ → ℕ) → List Bool
  | [], _ => []
  | .part n :: bits, k =>
    (val n).getLsbD (k n) :: fillBits val bits (Function.update k n (k n + 1))
  | .fixed v :: bits, k => v :: fillBits val bits k
  | .dontCare :: bits, k => false :: fillBits val bits k

@[simp] lemma length_fillBits (val : ℕ → U64) (bits : List Bit) (k : ℕ → ℕ) :
    (fillBits val bits k).length = bits.length := by
  induction bits generalizing k with
  | nil => rfl
  | cons bit bits ih => rcases bit with m | v | _ <;> simp [fillBits, ih]

lemma fixedAgree_fillBits (val : ℕ → U64) (bits : List Bit) (k : ℕ → ℕ) :
    FixedAgree (bits.zip (fillBits val bits k)) := by
  induction bits generalizing k with
  | nil => exact fixedAgree_nil
  | cons bit bits ih =>
    rcases bit with m | v | _ <;> simp only [fillBits, zip_cons_cons, fixedAgree_cons, ih] <;> simp

lemma getElem?_partBits_fillBits (val : ℕ → U64) (n : ℕ) :
    ∀ (bits : List Bit) (k : ℕ → ℕ) (j : ℕ), j < bits.count (.part n) →
      (partBits n (bits.zip (fillBits val bits k)))[j]? = some ((val n).getLsbD (k n + j))
  | .part m :: bits, k, j, hj => by
    rw [fillBits, zip_cons_cons, partBits_cons_part]
    by_cases hm : m = n
    · subst hm
      rw [if_pos rfl]
      rcases j with _ | j
      · rfl
      · rw [count_cons_self] at hj
        rw [getElem?_cons_succ, getElem?_partBits_fillBits val m bits _ j (by omega),
          Function.update_self, show k m + 1 + j = k m + (j + 1) by omega]
    · rw [if_neg hm]
      rw [count_cons_of_ne (by simpa using hm)] at hj
      rw [getElem?_partBits_fillBits val n bits _ j hj, Function.update_of_ne (Ne.symm hm)]
  | .fixed _ :: bits, k, j, hj | .dontCare :: bits, k, j, hj => by
    rw [count_cons_of_ne (by simp)] at hj
    simpa [fillBits] using getElem?_partBits_fillBits val n bits k j hj

/-- The filled bits have the given values. -/
lemma partValue_fillBits (val : ℕ → U64) (bits : List Bit)
    (hval : (val n).toNat < 2 ^ bits.count (.part n)) :
    partValue n (bits.zip (fillBits val bits fun _ => 0)) = val n := by
  apply BitVec.eq_of_getLsbD_eq
  intro k hk
  rw [getLsbD_partValue _ _ hk, getD_eq_getElem?_getD]
  by_cases hcount : k < bits.count (.part n)
  · rw [getElem?_partBits_fillBits val n bits _ k hcount, Nat.zero_add]
    rfl
  · rw [getElem?_eq_none (by rw [length_partBits (by simp)]; omega)]
    symm
    apply Nat.testBit_lt_two_pow
    exact hval.trans_le (Nat.pow_le_pow_right (by omega) (by omega))

end LibLisa.Encoding
