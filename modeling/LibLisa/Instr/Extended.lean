import LibLisa.Instr.CounterSpec
import LibLisa.Instr.FilterMerge
import LibLisa.Utils.MinisatVisit

/-!
# A filter except some other filters

The model of `instr/extended.rs`: the instructions that one filter matches and a list of filters
does not. `new_ex` first makes the two smaller: it drops the filters that do not overlap the first
one, merges the rest if it is asked to, and excludes a filter from the first one where the
difference is again a filter. What is left goes to the SAT solver, one variable for each bit.

The simplification keeps the instructions that are looked for (`simplifyLoop_spec`). It ends with
filters that all overlap the first one, and for those the solver is right (`branches_iff_gap`): a
bit that the first filter fixes has the same value wherever another filter asks for it, so that no
clause is true from the start.
-/

namespace LibLisa

open Lib Lib.Cnf Minisat List Instruction InstructionFilter SatSolver Except

/-- Source: `instr/extended.rs`, `ExtendedFilter` -/
structure ExtendedFilter where
  /-- The filter that matches. -/
  base : InstructionFilter
  nonmatching : Filters
  matchingInstr : Instruction

namespace ExtendedFilter

/-- Source: `instr/extended.rs`, `ExtendedFilter::matches` -/
def «matches» (e : ExtendedFilter) (instr : Instruction) : Bool :=
  e.base.matches instr && !e.nonmatching.any fun nm => nm.matches instr

/-- The loop over `nonmatching` that excludes what can be excluded, with `changed`. -/
def excludeLoop (base : InstructionFilter) (changed : Bool) :
    Filters → Partial (InstructionFilter × Bool)
  | [] => return (base, changed)
  | nm :: nms => do
    match ← base.tryExclude nm with
    | some f => excludeLoop f true nms
    | none => excludeLoop base changed nms

/-- The step of the loop that is skipped without `merge`. -/
def mergeIf (merge : Bool) (nonmatching : Filters) : Partial (Filters) :=
  if merge then mergeFilters nonmatching else return nonmatching

/-- The loop of `new_ex`; it ends with `none` once the base is covered. -/
def simplifyLoop (merge : Bool) : ℕ → InstructionFilter → Filters →
    Partial (Option (InstructionFilter × Filters))
  | 0, _, _ => .error .outOfFuel
  | fuel + 1, base, nonmatching => do
    if nonmatching.any fun f => f.covers base then return none
    else
      let overlapping := nonmatching.filter fun f => f.overlaps base
      let merged ← mergeIf merge overlapping
      let changed := decide (nonmatching.length ≠ overlapping.length) ||
        decide (overlapping.length ≠ merged.length)
      let (base', changed') ← excludeLoop base changed merged
      if changed' then simplifyLoop merge fuel base' merged
      else return some (base', merged)

/-- A bound on the rounds of the loop: a round that changes something drops a filter or fixes a
bit. -/
def simplifyFuel (base : InstructionFilter) (nonmatching : Filters) : ℕ :=
  base.numWildcardBits + nonmatching.length + 1

/-- The term for bit `n` of a filter; the solver counts variables with `u8`. -/
def termAt (filter : InstructionFilter) (n : ℕ) : Partial (Option Term) := do
  match ← filter.nthBitFromLeft n with
  | .is0 => if n < 256 then return some (.ff n) else .error .assertionFailed
  | .is1 => if n < 256 then return some (.tt n) else .error .assertionFailed
  | .wildcard => return none

/-- Source: `instr/extended.rs`, `ExtendedFilter::as_terms` -/
def asTerms (filter : InstructionFilter) : Partial (List Term) := do
  let found ← (range filter.bitLen).mapM (termAt filter)
  return found.filterMap id

/-- The solver that is asked for an instruction. -/
def solverFor (base : InstructionFilter) (nonmatching : Filters) :
    Partial SatSolver := do
  let sat ← (SatSolver.new base.bitLen).andConjunction (← asTerms base)
  nonmatching.foldlM (fun sat f => do return sat.andNotConjunction (← asTerms f)) sat

/-- The instruction with the bits of an assignment. -/
def readInstr (base : InstructionFilter) (conf : List Bool) : Partial Instruction := do
  let zeros ← Instruction.new (replicate (base.bitLen / 8) 0)
  conf.zipIdx.foldlM (fun instr (bit, index) => instr.withNthBitFromLeft index bit) zeros

/-- The second half of `new_ex`: what the solver says of a simplified filter. -/
def inhabit (base : InstructionFilter) (nonmatching : Filters) :
    Partial (Option ExtendedFilter) := do
  let sat ← solverFor base nonmatching
  match (← sat.solve).1 with
  | .sat conf =>
    let extended : ExtendedFilter := ⟨base, nonmatching, ← readInstr base conf⟩
    if extended.matches extended.matchingInstr then return some extended
    else .error .assertionFailed
  | .unsat => return none

/-- Source: `instr/extended.rs`, `ExtendedFilter::new_ex` -/
def newEx (base : InstructionFilter) (nonmatching : Filters) (merge : Bool) :
    Partial (Option ExtendedFilter) := do
  match ← simplifyLoop merge (simplifyFuel base nonmatching) base nonmatching with
  | none => return none
  | some (base, nonmatching) => inhabit base nonmatching

end ExtendedFilter

/-- Source: `instr/filter.rs`, `InstructionFilter::find_uncovered_instr` -/
def InstructionFilter.findUncoveredInstr (f : InstructionFilter) (covering : Filters) :
    Partial (Option Instruction) := do
  return (← ExtendedFilter.newEx f covering false).map (·.matchingInstr)

/-! ## Excluding fixes a bit -/

namespace ByteFilter

/-- The number of free bits. -/
def numFree (a : ByteFilter) : ℕ := (range 8).countP fun i => !a.mask.getLsbD i

lemma numFree_exclude {a b c : ByteFilter} (h : a.exclude b = .ok c) : c.numFree < a.numFree := by
  unfold exclude at h
  split at h
  next hcan =>
    obtain ⟨-, hpow, -⟩ := canExclude_spec hcan
    obtain ⟨k, hk, hbits⟩ := exists_bit_of_isPowerOfTwo hpow
    have hmask : c.mask = a.mask ||| (~~~a.mask &&& b.mask) := by
      dsimp only at h
      unfold ByteFilter.new at h
      split at h
      · rw [← ok.inj h]
      · cases h
    have hfree := hbits k
    rw [BitVec.getLsbD_and, BitVec.getLsbD_not, decide_eq_true rfl, Bool.and_eq_true,
      Bool.and_eq_true] at hfree
    unfold numFree
    rw [countP_eq_length_filter, countP_eq_length_filter]
    refine length_filter_lt_length_filter (fun i _ hi => ?_) (mem_range.mpr hk) hfree.1.2 ?_
    · rw [hmask, BitVec.getLsbD_or, Bool.not_or, Bool.and_eq_true] at hi
      exact hi.1
    · rw [hmask, BitVec.getLsbD_or, hbits k, decide_eq_true rfl, Bool.or_true]
      rfl
  · cases h

end ByteFilter

namespace InstructionFilter

lemma sum_numFree_excludeBytes {l m n : List ByteFilter} (h : excludeBytes l m = .ok (some n)) :
    (n.map ByteFilter.numFree).sum < (l.map ByteFilter.numFree).sum := by
  induction l generalizing m n with
  | nil => rcases m with _ | _ <;> cases h
  | cons a l ih =>
    rcases m with _ | ⟨b, m⟩
    · cases h
    unfold excludeBytes at h
    split at h
    · obtain ⟨c, hc, h⟩ := ok_of_bind h
      obtain rfl := Option.some.inj (ok.inj h)
      have hlt := ByteFilter.numFree_exclude hc
      rw [map_cons, map_cons, sum_cons, sum_cons]
      omega
    · split at h
      · cases h
      · obtain ⟨r, hr, h⟩ := ok_of_bind h
        obtain ⟨n', rfl, rfl⟩ := Option.map_eq_some_iff.mp (ok.inj h)
        have hlt := ih hr
        rw [map_cons, map_cons, sum_cons, sum_cons]
        omega

/-- A filter that something was excluded from has fewer free bits. -/
lemma numWildcardBits_tryExclude {f g h : InstructionFilter} (hex : f.tryExclude g = .ok (some h)) :
    h.numWildcardBits < f.numWildcardBits := by
  unfold tryExclude at hex
  split at hex
  · cases hex
  · obtain ⟨r, hr, hex⟩ := ok_of_bind hex
    rcases r with _ | n
    · cases hex
    obtain ⟨h', hnew, hex⟩ := ok_of_bind hex
    obtain rfl := Option.some.inj (ok.inj hex)
    have hdata : h'.data = n := by
      unfold new at hnew
      split at hnew
      · rw [← ok.inj hnew]
      · cases hnew
    have hlt := sum_numFree_excludeBytes hr
    rw [← hdata] at hlt
    exact hlt

end InstructionFilter

/-! ## The simplification -/

namespace ExtendedFilter

/-- The instruction is matched by the base and by none of the other filters. -/
def Uncovered (base : InstructionFilter) (nonmatching : Filters) (x : Instruction) : Prop :=
  base.matches x = true ∧ ∀ g ∈ nonmatching, g.matches x = false

/-- No filter is longer than the base. -/
def NoLonger (base : InstructionFilter) (nonmatching : Filters) : Prop :=
  ∀ g ∈ nonmatching, g.len ≤ base.len

/-- The second pair stands for the same instructions of the length of the base as the first. -/
structure SameGap (base : InstructionFilter) (nonmatching : Filters)
    (base' : InstructionFilter) (nonmatching' : Filters) : Prop where
  len_eq : base'.len = base.len
  noLonger : NoLonger base' nonmatching'
  uncovered_iff : ∀ x : Instruction, x.byteLen = base.len →
    (Uncovered base' nonmatching' x ↔ Uncovered base nonmatching x)

variable {base base' base'' : InstructionFilter} {nms nms' nms'' : Filters}

lemma SameGap.trans (h : SameGap base nms base' nms') (h' : SameGap base' nms' base'' nms'') :
    SameGap base nms base'' nms'' where
  len_eq := h'.len_eq.trans h.len_eq
  noLonger := h'.noLonger
  uncovered_iff x hx :=
    (h'.uncovered_iff x (hx.trans h.len_eq.symm)).trans (h.uncovered_iff x hx)

/-- A filter that does not overlap the base can be dropped. -/
lemma sameGap_filter (hlen : NoLonger base nms) :
    SameGap base nms base (nms.filter fun f => f.overlaps base) := by
  refine ⟨rfl, fun g hg => hlen g (mem_of_mem_filter hg), fun x hx => ?_⟩
  refine and_congr_right fun hbase => ⟨fun h g hg => ?_, fun h g hg => h g (mem_of_mem_filter hg)⟩
  rw [← Bool.not_eq_true]
  intro hmatch
  have hover : g.overlaps base = true := canIntersect_of_matchesBytes hmatch hbase
    ((hlen g hg).trans_eq hx.symm) hx.ge
  exact absurd hmatch (by rw [h g (mem_filter.mpr ⟨hg, hover⟩)]; exact nofun)

/-- Merging keeps the gap, and changes the list only if it shortens it. -/
lemma mergeIf_spec (merge : Bool) (hlen : NoLonger base nms) :
    ∃ r, mergeIf merge nms = .ok r ∧ (r = nms ∨ r.length < nms.length) ∧
      SameGap base nms base r := by
  unfold mergeIf
  split
  · obtain ⟨r, hr, hshort, hsame, -⟩ := mergeFilters_spec nms
    refine ⟨r, hr, hshort, rfl, hsame.len_le _ hlen, fun x hx => and_congr_right fun _ => ?_⟩
    have hiff := hsame.matches_iff x fun g hg => (hlen g hg).trans_eq hx.symm
    rw [← not_iff_not] at hiff
    push Not at hiff
    simpa only [Bool.not_eq_true] using hiff
  · exact ⟨nms, rfl, .inl rfl, rfl, hlen, fun _ _ => Iff.rfl⟩

/-- What the loop of exclusions does to the base and to `changed`. -/
structure Excluded (base : InstructionFilter) (changed : Bool) (nms : Filters)
    (r : InstructionFilter × Bool) : Prop where
  len_eq : r.1.len = base.len
  uncovered_iff : ∀ x : Instruction, x.byteLen = base.len →
    (Uncovered r.1 nms x ↔ Uncovered base nms x)
  eq_of_unchanged : r.2 = false → changed = false ∧ r.1 = base
  le : r.1.numWildcardBits ≤ base.numWildcardBits
  lt_of_changed : r.2 = true → changed = false → r.1.numWildcardBits < base.numWildcardBits

lemma excludeLoop_spec (base : InstructionFilter) (changed : Bool) (nms : Filters) :
    ∃ r, excludeLoop base changed nms = .ok r ∧ Excluded base changed nms r := by
  induction nms generalizing base changed with
  | nil =>
    refine ⟨(base, changed), rfl, rfl, fun _ _ => Iff.rfl, fun h => ⟨h, rfl⟩, le_rfl, fun h h' => ?_⟩
    nomatch h.symm.trans h'
  | cons nm nms ih =>
    obtain ⟨d, hd, hdiff⟩ := tryExclude_spec base nm
    have hcons : ∀ (f : InstructionFilter) x,
        Uncovered f (nm :: nms) x ↔ Uncovered f nms x ∧ nm.matches x = false := by
      intro f x
      unfold Uncovered
      rw [forall_mem_cons, and_assoc, and_comm (a := nm.matches x = false)]
    rcases d with _ | f
    · obtain ⟨r, hr, hspec⟩ := ih base changed
      refine ⟨r, ?_, hspec.len_eq, fun x hx => ?_, hspec.eq_of_unchanged, hspec.le,
        hspec.lt_of_changed⟩
      · rw [excludeLoop, hd]
        exact hr
      · rw [hcons, hcons, hspec.uncovered_iff x hx]
    · obtain ⟨hlen, hflen, hf⟩ := hdiff f rfl
      have hlt := numWildcardBits_tryExclude hd
      obtain ⟨r, hr, hspec⟩ := ih f true
      have hlen' : f.len = base.len := hflen
      refine ⟨r, ?_, hspec.len_eq.trans hlen', fun x hx => ?_, fun h => ?_, hspec.le.trans hlt.le,
        fun _ _ => hspec.le.trans_lt hlt⟩
      · rw [excludeLoop, hd]
        exact hr
      · have hmatch : f.matches x = true ↔ base.matches x = true ∧ nm.matches x = false :=
          hf x.bytes hx.ge
        rw [hcons, hcons, hspec.uncovered_iff x (hx.trans hlen'.symm)]
        unfold Uncovered
        rw [hmatch]
        constructor
        · rintro ⟨⟨⟨hb, -⟩, hall⟩, hnm⟩
          exact ⟨⟨hb, hall⟩, hnm⟩
        · rintro ⟨⟨hb, hall⟩, hnm⟩
          exact ⟨⟨⟨hb, hnm⟩, hall⟩, hnm⟩
      · exact absurd (hspec.eq_of_unchanged h).1 nofun

/-- What the loop leaves: nothing if the base is covered, and otherwise a pair with the same gap
whose filters all overlap the base. -/
def Simplifies (base : InstructionFilter) (nms : Filters) :
    Option (InstructionFilter × Filters) → Prop
  | none => ∀ x : Instruction, x.byteLen = base.len → ¬ Uncovered base nms x
  | some (base', nms') => SameGap base nms base' nms' ∧ ∀ g ∈ nms', g.overlaps base' = true

lemma Simplifies.of_sameGap {r : Option (InstructionFilter × Filters)}
    (h : SameGap base nms base' nms') (hr : Simplifies base' nms' r) : Simplifies base nms r := by
  rcases r with _ | ⟨base'', nms''⟩
  · intro x hx hun
    exact hr x (hx.trans h.len_eq.symm) ((h.uncovered_iff x hx).mpr hun)
  · exact ⟨h.trans hr.1, hr.2⟩

/-- The loop ends: a round drops a filter or a wildcard bit of the base. -/
lemma simplifyLoop_spec (merge : Bool) : ∀ (fuel : ℕ) (base : InstructionFilter)
    (nms : Filters), NoLonger base nms →
      base.numWildcardBits + nms.length < fuel →
      ∃ r, simplifyLoop merge fuel base nms = .ok r ∧ Simplifies base nms r := by
  intro fuel
  induction fuel with
  | zero => exact fun _ _ _ h => absurd h (Nat.not_lt_zero _)
  | succ fuel ih =>
    intro base nms hlen hfuel
    by_cases hcov : (nms.any fun f => f.covers base) = true
    · refine ⟨none, ?_, fun x hx hun => ?_⟩
      · rw [simplifyLoop, if_pos hcov]
        rfl
      · obtain ⟨g, hg, hgc⟩ := any_eq_true.mp hcov
        have hmatch := matches_of_filterCovers hgc hx.ge hun.1
        exact absurd (hmatch.symm.trans (hun.2 g hg)) nofun
    · have hfilter := sameGap_filter hlen
      have hfilterLen := length_filter_le (fun f => f.overlaps base) nms
      have hover : ∀ g ∈ nms.filter fun f => f.overlaps base, g.overlaps base = true :=
        fun g hg => (mem_filter.mp hg).2
      rw [simplifyLoop, if_neg hcov]
      generalize (nms.filter fun f => f.overlaps base) = kept at hfilter hfilterLen hover
      obtain ⟨merged, hmerged, hshort, hmerge⟩ := mergeIf_spec merge hfilter.noLonger
      dsimp only
      rw [hmerged, ok_bind]
      generalize hch : (decide (nms.length ≠ kept.length) ||
        decide (kept.length ≠ merged.length)) = changed
      obtain ⟨⟨base', changed'⟩, hex, hspec⟩ := excludeLoop_spec base changed merged
      rw [hex, ok_bind]
      have hgap : SameGap base nms base' merged := by
        refine (hfilter.trans hmerge).trans ⟨hspec.len_eq, fun g hg => ?_, hspec.uncovered_iff⟩
        exact (hmerge.noLonger g hg).trans_eq hspec.len_eq.symm
      split
      next hchanged' =>
        have hle : base'.numWildcardBits ≤ base.numWildcardBits := hspec.le
        have hlt : changed = false → base'.numWildcardBits < base.numWildcardBits :=
          hspec.lt_of_changed hchanged'
        have hmlen : merged.length ≤ kept.length := by
          rcases hshort with rfl | hshort
          · exact le_rfl
          · exact hshort.le
        have hdrop : changed = true → merged.length < nms.length := by
          rintro rfl
          rw [Bool.or_eq_true, decide_eq_true_iff, decide_eq_true_iff] at hch
          omega
        obtain ⟨r, hr, hsimp⟩ := ih base' merged hgap.noLonger (by
          rcases changed with _ | _
          · have := hlt rfl
            omega
          · have := hdrop rfl
            omega)
        exact ⟨r, hr, hsimp.of_sameGap hgap⟩
      next hchanged' =>
        obtain ⟨rfl, hbase⟩ := hspec.eq_of_unchanged (Bool.eq_false_iff.mpr hchanged')
        refine ⟨some (base', merged), rfl, hgap, ?_⟩
        rw [Bool.or_eq_false_iff, decide_eq_false_iff_not, decide_eq_false_iff_not] at hch
        obtain rfl : merged = kept := hshort.resolve_right fun h => hch.2 (by omega)
        rw [show base' = base from hbase]
        exact hover

/-! ## Filters as terms of the solver -/

/-- The terms of a filter: one for each bit that is not free. -/
def terms (f : InstructionFilter) : List Term :=
  (range f.bitLen).filterMap fun n => f.cube[n]?.join.map (⟨n, ·⟩)

variable {f : InstructionFilter} {x : Instruction} {t : Term}

lemma mem_terms : t ∈ terms f ↔ f.cube[t.var]? = some (some t.value) := by
  unfold terms
  rw [mem_filterMap]
  constructor
  · rintro ⟨n, -, ht⟩
    obtain ⟨value, hvalue, rfl⟩ := Option.map_eq_some_iff.mp ht
    exact Option.join_eq_some_iff.mp hvalue
  · intro h
    refine ⟨t.var, mem_range.mpr ?_, ?_⟩
    · rw [← length_cube]
      exact lt_of_getElem? h
    · rw [h]
      rfl

lemma var_lt_of_mem_terms (h : t ∈ terms f) : t.var < f.bitLen := by
  rw [← length_cube]
  exact (List.getElem?_eq_some_iff.mp (mem_terms.mp h)).1

lemma bitLen_le (f : InstructionFilter) : f.bitLen ≤ 128 := by
  have h := f.length_le
  unfold InstructionFilter.bitLen
  omega

/-- `as_terms` never fails: a filter has at most 128 bits. -/
lemma asTerms_eq (f : InstructionFilter) : asTerms f = .ok (terms f) := by
  have hterm : ∀ n ∈ range f.bitLen, termAt f n =
      .ok (f.cube[n]?.join.map fun value => (⟨n, value⟩)) := by
    intro n hn
    have hlt := mem_range.mp hn
    have hle := bitLen_le f
    have hbits : n < f.bits.length := by rwa [InstructionFilter.length_bits]
    have hcube : f.cube[n]? = some f.bits[n].asBit := by
      unfold cube
      rw [getElem?_map, getElem?_eq_getElem hbits]
      rfl
    unfold termAt
    rw [nthBitFromLeft_eq hbits, hcube]
    rcases f.bits[n] with _ | _ | _
    · exact if_pos (by omega)
    · exact if_pos (by omega)
    · rfl
  unfold asTerms terms
  rw [mapM_eq_ok_map hterm, ok_bind]
  rw [filterMap_map]
  rfl

/-- The terms of a filter hold of the bits that it matches. -/
lemma forall_terms_iff (f : InstructionFilter) (s : BitString) :
    (∀ t ∈ terms f, t.Holds s.bit) ↔ f.MatchesString s := by
  rw [matchesString_iff_cube, Cube.matches_iff_apply]
  constructor
  · intro h n hn
    rcases hbit : f.cube[n] with _ | value
    · rfl
    · have hmem : (⟨n, value⟩) ∈ terms f := by
        rw [mem_terms, getElem?_eq_getElem hn, hbit]
      rw [admits_some, h _ hmem, beq_self_eq_true]
  · intro h t ht
    obtain ⟨hn, hbit⟩ := List.getElem?_eq_some_iff.mp (mem_terms.mp ht)
    have hadm := h t.var hn
    rw [hbit, admits_some, beq_iff_eq] at hadm
    exact hadm.symm

/-- The terms of a filter hold of the bits of the instructions that it matches. -/
lemma matches_iff_terms (hlen : f.len ≤ x.byteLen) :
    f.matches x = true ↔ ∀ t ∈ terms f, t.Holds x.pad.bit := by
  rw [forall_terms_iff]
  have hstart := BitString.startsWith_pad x.bits
  exact ⟨fun h => matchesString_of_matches h hstart, matches_of_matchesString hlen hstart⟩

/-! ## The solver -/

variable {s : SatSolver}

/-- Fixing terms succeeds if the solver has their variables. -/
lemma exists_fixTerms {items : List Term} (h : ∀ t ∈ items, t.var < s.terms.length) :
    ∃ s', s.fixTerms items = .ok s' := by
  induction items generalizing s with
  | nil => exact ⟨s, rfl⟩
  | cons item items ih =>
    obtain ⟨hitem, hitems⟩ := forall_mem_cons.mp h
    rw [fixTerms, index_eq_ok_iff.mpr ⟨hitem, rfl⟩, ok_bind]
    split
    · exact ⟨_, rfl⟩
    · exact ih fun t ht => (hitems t ht).trans_eq length_set.symm

/-- Without a clause that is true from the start, the search comes to every assignment that
satisfies the constraints. -/
lemma branches_iff {σ : ℕ → Bool}
    (h : ∀ clause ∈ s.disjunctions, ∀ t ∈ clause, s.terms.get t.var ≠ some t.value) :
    s.Branches σ ↔ Extends σ s.terms ∧ Holds σ s.disjunctions := by
  refine ⟨fun hb => ⟨hb.1, hb.2.1⟩, fun ⟨hext, hholds⟩ => ⟨hext, hholds, fun clause hclause => ?_⟩⟩
  have hmem : clause ∈ s.simplified := mem_of_mem_head? hclause
  obtain ⟨t, ht, htσ⟩ := (holds_simplified_iff hext).mpr hholds clause hmem
  refine ⟨t, ht, ?_, htσ⟩
  obtain ⟨d, hd, rfl⟩ := mem_simplified.mp hmem
  obtain ⟨htd, hpossible⟩ := mem_filter.mp ht
  have hne := h d hd t htd
  have hne' := of_decide_eq_true hpossible
  rcases hget : s.terms.get t.var with _ | b
  · rfl
  · rw [hget] at hne hne'
    cases b <;> cases hv : t.value <;> simp [hv] at hne hne'

/-- The assignment of a verdict has a bit for every variable. -/
lemma length_of_verdict {bitmap : List Bool} (h : s.verdict = .sat bitmap) :
    bitmap.length = s.terms.length := by
  unfold verdict at h
  split at h
  · cases h
  next b bs hoffered =>
    obtain rfl := SolverResult.sat.inj h
    rw [completion, length_map]
    exact length_of_mem_offered (hoffered ▸ mem_cons_self)

lemma foldlM_andNotConjunction (nms : Filters) (s : SatSolver) :
    nms.foldlM (fun sat f => do return sat.andNotConjunction (← asTerms f)) s =
      (.ok { s with disjunctions := s.disjunctions ++ nms.map fun f => (terms f).map Literal.not } :
        Partial SatSolver) := by
  induction nms generalizing s with
  | nil =>
    rw [map_nil, append_nil]
    rfl
  | cons f nms ih =>
    rw [foldlM_cons, asTerms_eq]
    refine (ih _).trans ?_
    rw [map_cons, andNotConjunction, append_assoc, singleton_append]

/-- The solver for a gap: its fixed terms are those of the base and its clauses those of the other
filters. -/
structure SolverFor (base : InstructionFilter) (nms : Filters) (s : SatSolver) :
    Prop where
  length_terms : s.terms.length = base.bitLen
  conjunctions : s.disjunctionOfConjunctions = []
  hasConjunctions : s.hasDisjunctionOfConjunctions = false
  disjunctions : s.disjunctions = nms.map fun f => (terms f).map Literal.not
  extends_iff : ∀ σ : BitString, Extends σ.bit s.terms ↔ base.MatchesString σ

lemma exists_matchesString (hf : f.WellFormed) : ∃ s, f.MatchesString s := by
  have hlen : (f.data.map ByteFilter.minMatchingVal).length ≤ 15 := (length_map _).trans_le hf
  have hmatch : f.matches ⟨_, hlen⟩ = true :=
    matchesBytes_map ByteFilter.matches_minMatchingVal f.data
  exact ⟨_, matchesString_of_matches hmatch (BitString.startsWith_pad _)⟩

lemma solverFor_spec (hbase : base.WellFormed) (nms : Filters) :
    ∃ s, solverFor base nms = .ok s ∧ SolverFor base nms s := by
  have hnew : (new base.bitLen).terms.length = base.bitLen := length_replicate
  obtain ⟨s, hs⟩ : ∃ s, (new base.bitLen).fixTerms (terms base) = .ok s :=
    exists_fixTerms fun t ht => (var_lt_of_mem_terms ht).trans_eq hnew.symm
  obtain ⟨⟨fixed, unsat, rfl, hlen⟩, hiff⟩ := fixTerms_spec rfl hs
  have hbits : ∀ σ : BitString, unsat = false ∧ Extends σ.bit fixed ↔ base.MatchesString σ := by
    intro σ
    have hempty : Extends σ.bit (new base.bitLen).terms :=
      (((describes_new base.bitLen).holds_iff σ.bit).mp (by simp)).2.1
    rw [hiff σ.bit, forall_terms_iff]
    exact and_iff_right hempty
  -- the terms of one filter do not contradict each other
  obtain ⟨σ₀, hσ₀⟩ := exists_matchesString hbase
  have hunsat := ((hbits σ₀).mpr hσ₀).1
  have hrun : solverFor base nms = .ok { new base.bitLen with
      terms := fixed, unsat := unsat, disjunctions := nms.map fun f => (terms f).map Literal.not } := by
    unfold solverFor
    rw [asTerms_eq]
    show (fixTerms _ _ >>= _) = _
    rw [hs, ok_bind, foldlM_andNotConjunction]
    rfl
  refine ⟨_, hrun, hlen.trans hnew, rfl, rfl, rfl, fun σ => ?_⟩
  rw [← hbits σ]
  exact (and_iff_right hunsat).symm

namespace SolverFor

section

variable (h : SolverFor base nms s)
include h

lemma holds_iff (σ : BitString) : Holds σ.bit s.disjunctions ↔ ∀ g ∈ nms, ¬ g.MatchesString σ := by
  have hclause : ∀ g, ClauseHolds σ.bit ((terms g).map Literal.not) ↔ ¬ g.MatchesString σ := by
    intro g
    rw [← forall_terms_iff]
    simp [ClauseHolds, Literal.holds_not_iff]
  rw [h.disjunctions]
  unfold Holds
  rw [forall_mem_map]
  simp only [hclause]

lemma inRange (hlen : NoLonger base nms) : s.InRange := by
  intro clause hclause t ht
  rw [h.disjunctions] at hclause
  obtain ⟨g, hg, rfl⟩ := mem_map.mp hclause
  obtain ⟨t', ht', rfl⟩ := mem_map.mp ht
  have hvar := var_lt_of_mem_terms ht'
  have hle := hlen g hg
  show t'.var < s.terms.length
  rw [h.length_terms]
  unfold InstructionFilter.bitLen at hvar ⊢
  unfold len at hle
  omega

/-- An instruction that the base and another filter match makes every literal of that filter's
clause false, so the fixed terms make none of them true. -/
lemma not_true_of_overlaps (hbase : base.WellFormed)
    (hlen : NoLonger base nms) (hover : ∀ g ∈ nms, g.overlaps base = true) :
    ∀ clause ∈ s.disjunctions, ∀ t ∈ clause, s.terms.get t.var ≠ some t.value := by
  intro clause hclause t ht htrue
  rw [h.disjunctions] at hclause
  obtain ⟨g, hg, rfl⟩ := mem_map.mp hclause
  obtain ⟨t', ht', rfl⟩ := mem_map.mp ht
  obtain ⟨x, hx, hgx, hbx⟩ := (overlaps_iff ((hlen g hg).trans hbase) hbase).mp (hover g hg)
  have hext : Extends x.pad.bit s.terms := (h.extends_iff x.pad).mpr
    (matchesString_of_matches hbx (BitString.startsWith_pad _))
  have hfixed : x.pad.bit t'.var = !t'.value := hext _ _ htrue
  have hheld : x.pad.bit t'.var = t'.value := (matches_iff_terms hx.1).mp hgx t' ht'
  rw [hheld] at hfixed
  exact Bool.self_ne_not _ hfixed

/-- The search comes to the bit strings of the gap. -/
theorem branches_iff_gap (hbase : base.WellFormed)
    (hlen : NoLonger base nms) (hover : ∀ g ∈ nms, g.overlaps base = true) (σ : BitString) :
    s.Branches σ.bit ↔ base.MatchesString σ ∧ ∀ g ∈ nms, ¬ g.MatchesString σ := by
  rw [branches_iff (h.not_true_of_overlaps hbase hlen hover), h.extends_iff, h.holds_iff]

end

end SolverFor

/-! ## The instruction that is found -/

/-- Setting the bits of a list one after the other, from bit `k` on. -/
lemma foldlM_withNthBitFromLeft (conf : List Bool) : ∀ (k : ℕ) (x : Instruction),
    k + conf.length ≤ x.bitLen →
    ∃ y, (conf.zipIdx k).foldlM
        (fun instr (bit, index) => withNthBitFromLeft instr index bit) x = .ok y ∧
      y.bits = x.bits.take k ++ conf ++ x.bits.drop (k + conf.length) := by
  induction conf with
  | nil =>
    intro k x _
    refine ⟨x, rfl, ?_⟩
    rw [append_nil, length_nil, Nat.add_zero, take_append_drop]
  | cons bit conf ih =>
    intro k x hk
    rw [length_cons] at hk
    obtain ⟨y, hy, hbits⟩ := ih (k + 1) (x.setBitAt k bit) (by
      rw [bitLen_setBitAt]
      omega)
    have hlt : k < x.bits.length := by
      rw [Instruction.length_bits]
      omega
    refine ⟨y, ?_, ?_⟩
    · show (x.withNthBitFromLeft k bit >>= _) = _
      rw [withNthBitFromLeft_eq bit (by omega)]
      exact hy
    · rw [hbits, bits_setBitAt, take_add_one, getElem?_set_self hlt,
        take_set_of_le le_rfl, drop_set_of_lt (by omega), length_cons,
        Nat.add_assoc, Nat.add_comm 1, append_assoc, append_assoc, append_assoc]
      rfl

lemma readInstr_spec (hbase : base.WellFormed) {conf : List Bool}
    (hconf : conf.length = base.bitLen) :
    ∃ y, readInstr base conf = .ok y ∧ y.byteLen = base.len ∧ y.bits = conf := by
  have hdiv : base.bitLen / 8 = base.len := Nat.mul_div_cancel _ (by omega)
  have hlen : (replicate (base.bitLen / 8) (0 : U8)).length = base.len := by
    rw [length_replicate, hdiv]
  have hnew : new (replicate (base.bitLen / 8) 0) = .ok ⟨_, hlen.trans_le hbase⟩ := dif_pos _
  have hbit : (⟨_, hlen.trans_le hbase⟩ : Instruction).bitLen = base.bitLen := congrArg (· * 8) hlen
  obtain ⟨y, hy, hbits⟩ := foldlM_withNthBitFromLeft conf 0 ⟨_, hlen.trans_le hbase⟩ (by omega)
  have hybits : y.bits = conf := by
    rw [hbits, take_zero, nil_append, Nat.zero_add, drop_eq_nil_of_le, append_nil]
    rw [Instruction.length_bits, hbit, hconf]
  refine ⟨y, ?_, ?_, hybits⟩
  · unfold readInstr
    rw [hnew]
    exact hy
  · have hylen := congrArg length hybits
    rw [Instruction.length_bits, hconf] at hylen
    unfold Instruction.bitLen InstructionFilter.bitLen at hylen
    unfold len
    omega

/-- For instructions as long as the base, the gap can be read off their bits. -/
lemma uncovered_iff_string (hlen : NoLonger base nms) (hx : x.byteLen = base.len) :
    Uncovered base nms x ↔ base.MatchesString x.pad ∧ ∀ g ∈ nms, ¬ g.MatchesString x.pad := by
  unfold Uncovered
  rw [matches_iff_terms hx.ge, forall_terms_iff]
  refine and_congr_right fun _ => forall₂_congr fun g hg => ?_
  rw [← Bool.not_eq_true, matches_iff_terms ((hlen g hg).trans_eq hx.symm), forall_terms_iff]

/-- What `new_ex` returns for a gap: an instruction of it, or `none` if it is empty. -/
def Inhabits (base : InstructionFilter) (nms : Filters) :
    Option ExtendedFilter → Prop
  | some e => e.matchingInstr.byteLen = base.len ∧ Uncovered base nms e.matchingInstr
  | none => ∀ x : Instruction, x.byteLen = base.len → ¬ Uncovered base nms x

lemma inhabit_spec (hbase : base.WellFormed) (hlen : NoLonger base nms)
    (hover : ∀ g ∈ nms, g.overlaps base = true) :
    ∃ r, inhabit base nms = .ok r ∧ Inhabits base nms r := by
  obtain ⟨s, hs, hfor⟩ := solverFor_spec hbase nms
  have hsolve := (solve_eq_ok_iff hfor.conjunctions hfor.hasConjunctions).mpr
    ⟨hfor.inRange hlen, rfl⟩
  have hgap := hfor.branches_iff_gap hbase hlen hover
  unfold inhabit
  rw [hs, ok_bind, hsolve, ok_bind]
  rcases verdict_cases (hfor.inRange hlen) with ⟨conf, hverdict, hbranch⟩ | ⟨hverdict, hnone⟩
  · obtain ⟨y, hy, hylen, hybits⟩ := readInstr_spec hbase
      ((length_of_verdict hverdict).trans hfor.length_terms)
    have hun : Uncovered base nms y := by
      rw [uncovered_iff_string hlen hylen, ← hgap]
      unfold pad
      rw [hybits]
      exact hbranch
    have hassert : (⟨base, nms, y⟩ : ExtendedFilter).matches y = true := by
      unfold ExtendedFilter.matches
      rw [hun.1, Bool.true_and, Bool.not_eq_true', any_eq_false]
      intro g hg
      rw [hun.2 g hg]
      exact Bool.false_ne_true
    refine ⟨some ⟨base, nms, y⟩, ?_, hylen, hun⟩
    simp only [hverdict]
    rw [hy]
    exact if_pos hassert
  · refine ⟨none, ?_, fun x hx hun => ?_⟩
    · simp only [hverdict]
      rfl
    · exact hnone _ ((hgap x.pad).mpr ((uncovered_iff_string hlen hx).mp hun))

/-- `new_ex` finds an instruction of the gap if there is one. -/
lemma newEx_spec (merge : Bool) (hbase : base.WellFormed) (hlen : NoLonger base nms) :
    ∃ r, newEx base nms merge = .ok r ∧ Inhabits base nms r := by
  obtain ⟨r, hr, hsimp⟩ := simplifyLoop_spec merge (simplifyFuel base nms) base nms hlen
    (Nat.lt_succ_self _)
  unfold newEx
  rw [hr]
  rcases r with _ | ⟨base', nms'⟩
  · exact ⟨none, rfl, hsimp⟩
  obtain ⟨hsame, hover⟩ := hsimp
  obtain ⟨r, hr, hin⟩ := inhabit_spec (hsame.len_eq.trans_le hbase) hsame.noLonger hover
  refine ⟨r, hr, ?_⟩
  rcases r with _ | e
  · intro x hx hun
    exact hin x (hx.trans hsame.len_eq.symm) ((hsame.uncovered_iff x hx).mpr hun)
  · have hx := hin.1.trans hsame.len_eq
    exact ⟨hx, (hsame.uncovered_iff _ hx).mp hin.2⟩

end ExtendedFilter

namespace InstructionFilter

/-- For every filter of at most 15 bytes and covering filters that are not longer,
`find_uncovered_instr` returns: an instruction that the filter matches and no covering filter
does, or nothing if every instruction of the filter's length that it matches is covered. -/
theorem findUncoveredInstr_exact (f : InstructionFilter) (covering : Filters)
    (hf : f.len ≤ 15) (hcovering : ∀ g ∈ covering, g.len ≤ f.len) :
    ∃ r, f.findUncoveredInstr covering = .ok r ∧
      (∀ i, r = some i → f.matches i = true ∧ ∀ g ∈ covering, g.matches i = false) ∧
      (r = none → ∀ x : Instruction, x.byteLen = f.len → f.matches x = true →
        ∃ g ∈ covering, g.matches x = true) := by
  obtain ⟨r, hr, hin⟩ := ExtendedFilter.newEx_spec false hf hcovering
  refine ⟨r.map (·.matchingInstr), ?_, fun i hi => ?_, fun hnone x hx hmatch => ?_⟩
  · unfold findUncoveredInstr
    rw [hr]
    rfl
  · obtain ⟨e, rfl, rfl⟩ := Option.map_eq_some_iff.mp hi
    exact hin.2
  · obtain rfl := Option.map_eq_none_iff.mp hnone
    by_contra hall
    push Not at hall
    exact hin x hx ⟨hmatch, fun g hg => Bool.eq_false_iff.mpr (hall g hg)⟩

/-- The filter `________`. -/
def anyByte : InstructionFilter := ⟨[⟨0x00, 0x00, rfl⟩], by decide⟩

/-- The filters `__00____`, `__01____` and `__10____`. -/
def threeQuarters : Filters :=
  [⟨[⟨0x30, 0x00, rfl⟩], by decide⟩, ⟨[⟨0x30, 0x10, rfl⟩], by decide⟩,
    ⟨[⟨0x30, 0x20, rfl⟩], by decide⟩]

/-- No filter can be dropped or excluded, so the solver is asked. -/
theorem findUncoveredInstr_exact_threeQuarters :
    ExtendedFilter.simplifyLoop false 1 anyByte threeQuarters =
      .ok (some (anyByte, threeQuarters)) ∧
    ∃ i, anyByte.findUncoveredInstr threeQuarters = .ok (some i) ∧ anyByte.matches i = true ∧
      ∀ g ∈ threeQuarters, g.matches i = false := by
  obtain ⟨r, hr, hsome, hnone⟩ :=
    findUncoveredInstr_exact anyByte threeQuarters (by decide) (by decide)
  rcases r with _ | i
  · exact absurd (hnone rfl ⟨[0x30], by decide⟩ rfl rfl) (by decide)
  · exact ⟨by decide, i, hr, hsome i rfl⟩

end InstructionFilter

end LibLisa
