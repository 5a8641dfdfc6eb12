import LibLisa.Compare.Split

/-!
# Differences of filter groups are exact

The solver's variables are the bits that a filter leaves free, and it is asked for the assignments
that no filter of the other group admits. A solution fixes some of the free bits, so the filters
built from the solutions match the words that the filter matches and the other group does not
(`subInternal_spec`, `sub_spec`).
-/

namespace LibLisa.Compare

open Lib Lib.Cnf Minisat List EfficientFilter

namespace FilterGroup

/-! ## One solution -/

/-- Setting the bits of a list of free positions. -/
lemma foldl_setBits (ps : List (ℕ × Option Bool)) {f : EfficientFilter} (hf : f.WellFormed)
    (hnodup : (ps.map (·.1)).Nodup)
    (hfree : ∀ p ∈ ps, p.1 < f.bitLen ∧ f.mask.getLsbD p.1 = false) :
    let g := ps.foldl (fun filter (bitIndex, val) =>
      match val with
      | some false => filter.setNthBitFromRight bitIndex .is0
      | some true => filter.setNthBitFromRight bitIndex .is1
      | none => filter) f
    g.WellFormed ∧ g.len = f.len ∧
      ∀ w, g.Matches w ↔ f.Matches w ∧ ∀ p ∈ ps, ∀ b, p.2 = some b → w.getLsbD p.1 = b := by
  induction ps generalizing f with
  | nil => exact ⟨hf, rfl, by simp⟩
  | cons p ps ih =>
    obtain ⟨i, v⟩ := p
    obtain ⟨hnot, hps⟩ := nodup_cons.mp hnodup
    obtain ⟨hi, hmask⟩ := hfree (i, v) (.head _)
    have hrest : ∀ p ∈ ps, p.1 < f.bitLen ∧ f.mask.getLsbD p.1 = false :=
      fun p hp => hfree p (.tail _ hp)
    rcases v with _ | b
    · obtain ⟨hwf, hlen, hmatch⟩ := ih hf hps hrest
      refine ⟨hwf, hlen, fun w => (hmatch w).trans (and_congr_right fun _ => ?_)⟩
      rw [forall_mem_cons]
      exact (and_iff_right fun b hb => nomatch hb).symm
    · have hset : ∀ b, (match some b with
          | some false => f.setNthBitFromRight i .is0
          | some true => f.setNthBitFromRight i .is1
          | none => f) = f.setNthBitFromRight i (isBit b) := by
        intro b
        cases b <;> rfl
      have hlen' : (f.setNthBitFromRight i (isBit b)).len = f.len := by
        cases b <;> rfl
      obtain ⟨hwf, hlen, hmatch⟩ := ih (wellFormed_set hf b hi) hps fun p hp => by
        have hne : p.1 ≠ i := fun h => hnot (mem_map.mpr ⟨p, hp, h⟩)
        refine ⟨?_, ?_⟩
        · rw [bitLen, hlen']
          exact (hrest p hp).1
        · rw [getLsbD_mask_set b (hf.lt_of_bitLen hi)]
          simpa [hne] using (hrest p hp).2
      rw [foldl_cons]
      dsimp only
      rw [hset]
      refine ⟨hwf, hlen.trans hlen', fun w => ?_⟩
      rw [hmatch w, matches_set_iff hf b hi hmask, forall_mem_cons, and_assoc]
      refine and_congr_right fun _ => and_congr_left fun _ => ?_
      constructor
      · rintro h b' hb'
        obtain rfl := Option.some.inj hb'
        exact h
      · exact fun h => h b rfl

variable {indices : List ℕ} {filters : List EfficientFilter} {len : ℕ}

lemma mem_conjunction (hlen : indices.length ≤ 256) (g : EfficientFilter) (t : Term) :
    t ∈ conjunction indices g ↔ ∃ k i, indices[k]? = some i ∧
      g.mask.getLsbD i = true ∧ t = ⟨k, g.value.getLsbD i⟩ := by
  simp only [conjunction, mem_filterMap, Prod.exists, mem_zipIdx_iff_getElem?]
  rw [exists_comm]
  refine exists₂_congr fun k i => and_congr_right fun hk => ?_
  have hlt : k < 256 := Nat.lt_of_lt_of_le (lt_of_getElem? hk) hlen
  unfold getNthBitFromRight
  rw [Nat.mod_eq_of_lt hlt]
  cases g.mask.getLsbD i <;> cases g.value.getLsbD i <;> simp [Term.ff, Term.tt, eq_comm]

/-! ## The solver -/

/-- The solver of `sub_internal`. -/
def solverFor (indices : List ℕ) (filters : List EfficientFilter) : SatSolver :=
  filters.foldl (fun solver filter => solver.andNotConjunction (conjunction indices filter))
    (SatSolver.new indices.length)

lemma solverFor_eq (indices : List ℕ) (filters : List EfficientFilter) :
    solverFor indices filters = { SatSolver.new indices.length with
      disjunctions := filters.map fun g => (conjunction indices g).map Literal.not } := by
  have hfold : ∀ s : SatSolver, filters.foldl (fun solver filter =>
      solver.andNotConjunction (conjunction indices filter)) s =
        { s with disjunctions := s.disjunctions ++
          filters.map fun g => (conjunction indices g).map Literal.not } := by
    induction filters with
    | nil => simp
    | cons g filters ih =>
      intro s
      rw [foldl_cons, ih]
      simp [SatSolver.andNotConjunction]
  rw [solverFor, hfold]
  rfl

lemma inRange_solverFor (hlen : indices.length ≤ 256) (filters : List EfficientFilter) :
    (solverFor indices filters).InRange := by
  rw [solverFor_eq]
  intro clause hclause l hl
  obtain ⟨g, -, rfl⟩ := mem_map.mp hclause
  obtain ⟨t, ht, rfl⟩ := mem_map.mp hl
  obtain ⟨k, i, hk, -, rfl⟩ := (mem_conjunction hlen g t).mp ht
  show k < (List.replicate indices.length none).length
  rw [length_replicate]
  exact lt_of_getElem? hk

/-- Without fixed terms, the search finds the assignments that satisfy the clauses. -/
lemma branches_solverFor {σ : ℕ → Bool} :
    (solverFor indices filters).Branches σ ↔ ∀ g ∈ filters, ¬ ∀ t ∈ conjunction indices g, t.Holds σ := by
  have hnone : ∀ v, (solverFor indices filters).terms.get v = none := by
    intro v
    rw [solverFor_eq]
    show (List.replicate indices.length none)[v]?.join = none
    rw [getElem?_replicate]
    split <;> rfl
  have hext : Extends σ (solverFor indices filters).terms := by
    intro v b hv
    exact absurd ((hnone v).symm.trans hv) nofun
  have hholds : Holds σ (solverFor indices filters).disjunctions ↔
      ∀ g ∈ filters, ¬ ∀ t ∈ conjunction indices g, t.Holds σ := by
    rw [solverFor_eq]
    unfold Holds ClauseHolds
    simp [Literal.holds_not_iff]
  rw [← hholds]
  refine ⟨fun h => h.2.1, fun h => ⟨hext, h, fun clause hclause => ?_⟩⟩
  obtain ⟨t, ht, hσ⟩ := (SatSolver.holds_simplified_iff hext).mpr h clause (mem_of_head? hclause)
  exact ⟨t, ht, hnone t.var, hσ⟩

/-- The bits of a word at the positions. -/
def bitsAt (indices : List ℕ) (w : BitVec 128) (k : ℕ) : Bool :=
  (indices[k]?.map w.getLsbD).getD false

variable {w : BitVec 128}

/-- The terms of a filter hold for the bits that it asks for. -/
lemma forall_conjunction_iff (hlen : indices.length ≤ 256) (g : EfficientFilter) :
    (∀ t ∈ conjunction indices g, t.Holds (bitsAt indices w)) ↔
      ∀ i ∈ indices, g.mask.getLsbD i = true → w.getLsbD i = g.value.getLsbD i := by
  constructor
  · intro h i hi hm
    obtain ⟨k, hk⟩ := mem_iff_getElem?.mp hi
    have hbit := h _ ((mem_conjunction hlen g _).mpr ⟨k, i, hk, hm, rfl⟩)
    rwa [Literal.Holds, bitsAt, hk] at hbit
  · rintro h t ht
    obtain ⟨k, i, hk, hm, rfl⟩ := (mem_conjunction hlen g t).mp ht
    rw [Literal.Holds, bitsAt, hk]
    exact h i (mem_of_getElem? hk) hm

lemma extends_bitsAt_iff {b : Assumptions} (hlen : b.length = indices.length) :
    Extends (bitsAt indices w) b ↔ ∀ p ∈ indices.zip b, ∀ v, p.2 = some v → w.getLsbD p.1 = v := by
  constructor
  · intro h p hp v hv
    obtain ⟨k, hk⟩ := mem_iff_getElem?.mp hp
    obtain ⟨hi, hb⟩ := getElem?_zip_eq_some.mp hk
    have hget : Store.get b k = some v := by
      show b[k]?.join = some v
      rw [hb, hv]
      rfl
    have := h k v hget
    rwa [bitsAt, hi] at this
  · intro h k v hv
    have hb : b[k]? = some (some v) := Option.join_eq_some_iff.mp hv
    have hk : k < indices.length := hlen ▸ (lt_of_getElem? hb)
    have hi := getElem?_eq_getElem hk
    have := h (indices[k], some v)
      (mem_iff_getElem?.mpr ⟨k, getElem?_zip_eq_some.mpr ⟨hi, hb⟩⟩) v rfl
    rwa [bitsAt, hi]

/-! ## The difference with one filter -/

variable {current : EfficientFilter} (hc : current.WellFormed)
include hc

/-- A solution fixes some of the free bits. -/
lemma withSolution_spec (hnodup : indices.Nodup)
    (hfree : ∀ i ∈ indices, i < current.bitLen ∧ current.mask.getLsbD i = false) {b : Assumptions}
    (hlen : b.length = indices.length) :
    (withSolution current indices b).WellFormed ∧
      (withSolution current indices b).len = current.len ∧
      ∀ w, (withSolution current indices b).Matches w ↔
        current.Matches w ∧ Extends (bitsAt indices w) b := by
  have hfst : ((indices.zip b).map (·.1)).Nodup := by
    rw [map_fst_zip hlen.ge]
    exact hnodup
  obtain ⟨hwf, hlen', hmatch⟩ := foldl_setBits (indices.zip b) hc hfst fun p hp =>
    hfree p.1 (of_mem_zip hp).1
  refine ⟨hwf, hlen', fun w => ?_⟩
  rw [extends_bitsAt_iff hlen]
  exact hmatch w

/-- The filters of the solutions match what the current filter matches and the others do not. -/
lemma subInternal_spec
    (hshort : current.len ≤ 15)
    (hfs : ∀ g ∈ filters, g.WellFormed ∧ g.len = current.len ∧ current.overlaps g = true) :
    ∃ res, subInternal current filters = .ok res ∧
      (∀ f ∈ res, f.WellFormed ∧ f.len = current.len) ∧
      ∀ w, (∃ f ∈ res, f.Matches w) ↔ current.Matches w ∧ ∀ g ∈ filters, ¬ g.Matches w := by
  have hbitLen : current.bitLen < 128 := by
    unfold bitLen
    omega
  obtain ⟨indices, hindices⟩ : ∃ indices, indices =
      (List.range current.bitLen).filter fun index => !current.mask.getLsbD index := ⟨_, rfl⟩
  have hmem : ∀ i, i ∈ indices ↔ i < current.bitLen ∧ current.mask.getLsbD i = false := by
    intro i
    rw [hindices, mem_filter, mem_range, Bool.not_eq_true']
  have hnodup : indices.Nodup := hindices ▸ nodup_range.filter _
  have hlen : indices.length ≤ 256 := by
    have := length_filter_le (fun index => !current.mask.getLsbD index) (List.range current.bitLen)
    rw [← hindices, length_range] at this
    omega
  have hrange := inRange_solverFor hlen filters
  obtain ⟨visited, hvisit, hvisited⟩ := SatSolver.exists_visit hrange
    (by rw [solverFor_eq]; rfl) (by rw [solverFor_eq]; rfl)
  have hlength : ∀ b ∈ visited, b.length = indices.length := by
    intro b hb
    rw [length_of_mem_offered ((hvisited b).mp hb), solverFor_eq]
    exact length_replicate
  have hsolution := fun b hb => withSolution_spec hc hnodup (fun i => (hmem i).mp) (hlength b hb)
  refine ⟨visited.map (withSolution current indices), ?_, ?_, fun w => ?_⟩
  · rw [subInternal, maskIndicesFromRight, if_pos hbitLen, ← hindices]
    show (((solverFor indices filters).visit >>= _) = _)
    rw [hvisit]
    rfl
  · exact forall_mem_map.mpr fun b hb => ⟨(hsolution b hb).1, (hsolution b hb).2.1⟩
  · have hex : (∃ f ∈ visited.map (withSolution current indices), f.Matches w) ↔
        current.Matches w ∧ (solverFor indices filters).Branches (bitsAt indices w) := by
      simp only [← SatSolver.exists_mem_offered_iff hrange, ← hvisited, mem_map,
        exists_exists_and_eq_and, ← exists_and_left, and_left_comm (a := current.Matches w)]
      exact exists_congr fun b => and_congr_right fun hb => (hsolution b hb).2.2 w
    rw [hex, branches_solverFor]
    refine and_congr_right fun hcur => forall₂_congr fun g hg => not_congr ?_
    obtain ⟨hwf, hglen, hov⟩ := hfs g hg
    rw [forall_conjunction_iff hlen, matches_iff_getLsbD hwf]
    refine ⟨fun h i hi => ?_, fun h i _ hi => h i hi⟩
    by_cases hfree : current.mask.getLsbD i = false
    · have hlt := hwf.mask_lt i hi
      rw [bitLen, hglen] at hlt
      exact h i ((hmem i).mpr ⟨hlt, hfree⟩) hi
    · -- a bit that both ask for has the value that they agree on
      rw [Bool.not_eq_false] at hfree
      rw [(matches_iff_getLsbD hc).mp hcur i hfree, getLsbD_value_eq_of_overlaps hov hfree hi]

omit hc

/-! ## The difference of groups -/

/-- The filters are well formed and have one length. -/
def Uniform (len : ℕ) (g : FilterGroup) : Prop := ∀ f ∈ g.filters, f.WellFormed ∧ f.len = len

/-- What a filter contributes to a difference. -/
lemma exists_subFilter (hshort : len ≤ 15) {filter : EfficientFilter}
    (hwf : filter.WellFormed) (hlen : filter.len = len) {h : FilterGroup} (hh : h.Uniform len) :
    ∃ res, (let overlapping := h.filters.filter (filter.overlaps ·)
        if overlapping.any (·.covers filter) then .ok [] else subInternal filter overlapping) =
          (.ok res : Partial (List EfficientFilter)) ∧
      (∀ f ∈ res, f.WellFormed ∧ f.len = len) ∧
      ∀ w, (∃ f ∈ res, f.Matches w) ↔ filter.Matches w ∧ ¬ ∃ f ∈ h.filters, f.Matches w := by
  by_cases hcover : ((h.filters.filter (filter.overlaps ·)).any (·.covers filter)) = true
  · rw [if_pos hcover]
    refine ⟨[], rfl, by simp, fun w => ?_⟩
    obtain ⟨g, hg, hcovers⟩ := any_eq_true.mp hcover
    have hgmem := (mem_filter.mp hg).1
    constructor
    · rintro ⟨f, hf, -⟩
      cases hf
    · rintro ⟨hw, hnot⟩
      exact absurd ⟨g, hgmem, matches_of_covers (hh g hgmem).1 hwf hcovers hw⟩ hnot
  · rw [if_neg hcover]
    obtain ⟨res, hok, hres, hmatch⟩ := subInternal_spec hwf (hlen ▸ hshort)
      fun g hg => by
        obtain ⟨hg, hov⟩ := mem_filter.mp hg
        exact ⟨(hh g hg).1, (hh g hg).2.trans hlen.symm, hov⟩
    refine ⟨res, hok, fun f hf => hlen ▸ hres f hf, fun w => ?_⟩
    rw [hmatch w]
    refine and_congr_right fun hw => ?_
    -- a filter that matches the word too overlaps
    constructor
    · rintro h' ⟨g, hg, hgw⟩
      exact h' g (mem_filter.mpr ⟨hg, overlaps_of_matches hwf (hh g hg).1 hw hgw⟩) hgw
    · intro h' g hg hgw
      exact h' ⟨g, (mem_filter.mp hg).1, hgw⟩

/-- A subtraction of groups is the difference of what they match. -/
lemma sub_spec (o : HashOrder EfficientFilter) (hshort : len ≤ 15)
    {g h : FilterGroup} (hg : g.Uniform len) (hh : h.Uniform len) :
    ∃ r, g.sub o h = .ok r ∧ r.Uniform len ∧
      (∀ f ∈ r.filters, ∃ f' ∈ g.filters, ∀ w, f.Matches w → f'.Matches w) ∧
      ∀ w, (∃ f ∈ r.filters, f.Matches w) ↔
        (∃ f ∈ g.filters, f.Matches w) ∧ ¬ ∃ f ∈ h.filters, f.Matches w := by
  unfold sub
  split
  next heq =>
    rw [heq]
    exact ⟨⟨[]⟩, rfl, by simp [Uniform], by simp, by simp⟩
  next heq hne =>
    refine ⟨g, rfl, hg, fun f hf => ⟨f, hf, fun _ hw => hw⟩, fun w => ?_⟩
    rw [heq]
    simp
  next first _ otherFirst _ hgeq hheq =>
    have hfirst := hg first (hgeq ▸ mem_cons_self)
    have hother := hh otherFirst (hheq ▸ mem_cons_self)
    have hlens : ¬ first.bitLen ≠ otherFirst.bitLen := by
      rw [bitLen, bitLen, hfirst.2, hother.2]
      exact not_not.mpr rfl
    rw [if_neg hlens]
    obtain ⟨results, hresults, hall⟩ := exists_mapM_eq_ok
      fun filter hfilter => exists_subFilter hshort (hg filter hfilter).1 (hg filter hfilter).2 hh
    rw [hresults]
    have hmem : ∀ f, f ∈ o.order results.flatten.dedup ↔ f ∈ results.flatten := by
      intro f
      rw [(o.perm _).mem_iff, mem_dedup]
    refine ⟨_, rfl, fun f hf => ?_, fun f hf => ?_, fun w => ?_⟩
    · obtain ⟨res, hmemres, hf⟩ := mem_flatten.mp ((hmem f).mp hf)
      obtain ⟨-, -, hwf, -⟩ := exists_of_forall₂_of_mem hall hmemres
      exact hwf f hf
    · obtain ⟨res, hmemres, hf⟩ := mem_flatten.mp ((hmem f).mp hf)
      obtain ⟨filter, hfilter, -, hiff⟩ := exists_of_forall₂_of_mem hall hmemres
      exact ⟨filter, hfilter, fun w hw => ((hiff w).mp ⟨f, hf, hw⟩).1⟩
    · constructor
      · rintro ⟨f, hf, hw⟩
        obtain ⟨res, hmemres, hf⟩ := mem_flatten.mp ((hmem f).mp hf)
        obtain ⟨filter, hfilter, -, hiff⟩ := exists_of_forall₂_of_mem hall hmemres
        obtain ⟨hfw, hnot⟩ := (hiff w).mp ⟨f, hf, hw⟩
        exact ⟨⟨filter, hfilter, hfw⟩, hnot⟩
      · rintro ⟨⟨filter, hfilter, hfw⟩, hnot⟩
        obtain ⟨res, hmemres, -, hiff⟩ := exists_of_mem_of_forall₂ hall hfilter
        obtain ⟨f, hf, hw⟩ := (hiff w).mpr ⟨hfw, hnot⟩
        exact ⟨f, (hmem f).mpr (mem_flatten.mpr ⟨res, hmemres, hf⟩), hw⟩

end FilterGroup

end LibLisa.Compare
