import LibLisa.Instr.Counter
import LibLisa.Instr.FilterAlgebra

/-!
# Lists of filters that are merged

`merge_filters` merges pairs of a list until no two filters can be merged (`mergeFilters_exact`).
From the right, each filter is merged with the filters after it, which are then pairwise
unmergeable already; a merge removes one of those and makes the filter at hand larger.

`FilterList::add` merges a new filter once with every filter of the list, in both directions, and
drops what the result covers (`addAll_exact`).

Both only replace filters by unions of filters and drop covered ones: `SameUnion` says that two
lists match the same instructions, among those that are long enough for all filters.
-/

namespace LibLisa

open Lib List InstructionFilter

/-- The second list has no longer filters than the first, and matches the same instructions among
those that are long enough for the first list. -/
structure SameUnion (l l' : Filters) : Prop where
  len_le : ∀ n, (∀ f ∈ l, f.len ≤ n) → ∀ f ∈ l', f.len ≤ n
  matches_iff : ∀ x : Instruction, (∀ f ∈ l, f.len ≤ x.byteLen) →
    ((∃ f ∈ l', f.matches x = true) ↔ ∃ f ∈ l, f.matches x = true)

namespace SameUnion

variable {l l' l'' : Filters}

lemma refl (l : Filters) : SameUnion l l := ⟨fun _ h => h, fun _ _ => Iff.rfl⟩

lemma trans (h : SameUnion l l') (h' : SameUnion l' l'') : SameUnion l l'' where
  len_le n hn := h'.len_le n (h.len_le n hn)
  matches_iff x hx := (h'.matches_iff x (h.len_le _ hx)).trans (h.matches_iff x hx)

/-- Filters around the two lists change nothing. -/
lemma append_left (h : SameUnion l l') (pre : Filters) : SameUnion (pre ++ l) (pre ++ l') := by
  constructor
  · intro n hn
    rw [forall_mem_append] at hn ⊢
    exact ⟨hn.1, h.len_le n hn.2⟩
  · intro x hx
    have hiff := h.matches_iff x (forall_mem_append.mp hx).2
    simp only [mem_append, or_and_right, exists_or, hiff]

/-- A list with the same filters. -/
lemma of_mem_iff (h : ∀ f, f ∈ l' ↔ f ∈ l) : SameUnion l l' := by
  constructor
  · intro n hn f hf
    exact hn f ((h f).mp hf)
  · intro x _
    simp only [h]

end SameUnion

/-! ## Merging within a list -/

/-- The first filter that can be merged with `item`, with its position. -/
def findMerge (item : InstructionFilter) :
    Filters → Partial (Option (ℕ × InstructionFilter))
  | [] => return none
  | other :: rest => do
    match ← item.tryMerge other with
    | some merged => return some (0, merged)
    | none => return (← findMerge item rest).map fun (i, merged) => (i + 1, merged)

/-- The `loop` of `merge_filters` at one index. -/
def mergeLoop (index : ℕ) : ℕ → Filters → Partial Filters
  | 0, _ => .error .outOfFuel
  | fuel + 1, filters => do
    let item ← orPanic .indexOutOfBounds filters[index]?
    match ← findMerge item (filters.drop (index + 1)) with
    | some (i, merged) => mergeLoop index fuel ((filters.set index merged).eraseIdx (index + 1 + i))
    | none => return filters

/-- Source: `instr/filter.rs`, `merge_filters` -/
def mergeFilters (filters : Filters) : Partial (Filters) :=
  (List.range filters.length).reverse.foldlM
    (fun filters index => mergeLoop index filters.length filters) filters

/-- The two filters cannot be merged. -/
def Unmergeable (f g : InstructionFilter) : Prop := f.tryMerge g = .ok none

namespace InstructionFilter

lemma mergeBytes_eq_none_comm {l m : List ByteFilter} (hlen : l.length = m.length)
    (h : mergeBytes l m = .ok none) : mergeBytes m l = .ok none := by
  induction l generalizing m with
  | nil =>
    obtain rfl := eq_nil_of_length_eq_zero hlen.symm
    exact h
  | cons a l ih =>
    rcases m with _ | ⟨b, m⟩
    · exact absurd hlen (by simp)
    have hlen' : l.length = m.length := by simpa using hlen
    unfold mergeBytes at h ⊢
    split at h
    next hcond =>
      obtain ⟨c, hc, -⟩ := ByteFilter.merge_spec (Bool.and_eq_true_iff.mp hcond).1
      rw [hc] at h
      cases h
    next hcond =>
      rw [if_neg]
      · split at h
        next hab =>
          rw [if_pos (Ne.symm hab)]
          exact h
        next hab =>
          obtain rfl := not_not.mp hab
          rw [if_neg (not_not.mpr rfl)]
          obtain ⟨r, hr, h⟩ := ok_of_bind h
          have hnone : r = none := Option.map_eq_none_iff.mp (Except.ok.inj h)
          rw [hnone] at hr
          rw [ih hlen' hr]
          rfl
      · intro hcond'
        apply hcond
        rw [Bool.and_eq_true] at hcond' ⊢
        obtain rfl := eq_of_zip_all_eq hlen'.symm hcond'.2
        rw [ByteFilter.canMerge_comm]
        exact hcond'

lemma ofBytes_eq_none {r : Option (List ByteFilter)} (h : ofBytes r = .ok none) : r = none := by
  rcases r with _ | n
  · rfl
  · obtain ⟨f, -, h⟩ := ok_of_bind h
    cases h

end InstructionFilter

lemma Unmergeable.symm {f g : InstructionFilter} (h : Unmergeable f g) : Unmergeable g f := by
  unfold Unmergeable tryMerge at h ⊢
  split at h
  next hlen =>
    rw [if_pos (Ne.symm hlen)]
    exact h
  next hlen =>
    have hlen := not_not.mp hlen
    rw [if_neg (not_not.mpr hlen.symm)]
    obtain ⟨r, hr, h⟩ := ok_of_bind h
    rw [ofBytes_eq_none h] at hr
    rw [mergeBytes_eq_none_comm hlen hr]
    rfl

/-- A filter cannot be merged with itself. -/
lemma Unmergeable.self (f : InstructionFilter) : Unmergeable f f := by
  have hbytes : ∀ l : List ByteFilter, mergeBytes l l = .ok none := by
    intro l
    induction l with
    | nil => rfl
    | cons a l ih =>
      unfold mergeBytes
      have hmerge : a.canMerge a = false := by
        unfold ByteFilter.canMerge
        rw [beq_self_eq_true, beq_self_eq_true]
        rfl
      rw [hmerge, if_neg (not_not.mpr rfl), ih]
      rfl
  unfold Unmergeable tryMerge
  rw [if_neg (not_not.mpr rfl), hbytes]
  rfl

/-- What the search for a filter to merge with finds. -/
lemma findMerge_spec (item : InstructionFilter) (rest : Filters) :
    ∃ r, findMerge item rest = .ok r ∧ (r = none → ∀ g ∈ rest, Unmergeable item g) ∧
      ∀ i merged, r = some (i, merged) →
        ∃ other, rest[i]? = some other ∧ item.tryMerge other = .ok (some merged) := by
  induction rest with
  | nil => exact ⟨none, rfl, fun _ g hg => (nomatch hg), nofun⟩
  | cons other rest ih =>
    obtain ⟨r, hr, -⟩ := tryMerge_spec item other
    rcases r with _ | merged
    · obtain ⟨r, hrest, hnone, hsome⟩ := ih
      refine ⟨r.map fun (i, merged) => (i + 1, merged), ?_, fun h g hg => ?_, fun i merged h => ?_⟩
      · unfold findMerge
        rw [hr, hrest]
        rfl
      · rcases mem_cons.mp hg with rfl | hg
        · exact hr
        · exact hnone (Option.map_eq_none_iff.mp h) g hg
      · obtain ⟨⟨i', merged'⟩, hr', heq⟩ := Option.map_eq_some_iff.mp h
        obtain ⟨rfl, rfl⟩ := Prod.mk.inj heq
        exact hsome i' merged' hr'
    · refine ⟨some (0, merged), ?_, nofun, ?_⟩
      · unfold findMerge
        rw [hr]
        rfl
      · rintro i merged' ⟨⟩
        exact ⟨other, rfl, hr⟩

/-- One merge replaces a filter and one of those after it by their union. -/
lemma sameUnion_merge {item other merged : InstructionFilter} {rest : Filters}
    {i : ℕ} (hi : rest[i]? = some other) (h : item.tryMerge other = .ok (some merged)) :
    SameUnion (item :: rest) (merged :: rest.eraseIdx i) := by
  obtain ⟨r, hr, hspec⟩ := tryMerge_spec item other
  obtain rfl := ok_unique hr h
  obtain ⟨hlen, hmlen, hmatch⟩ := hspec merged rfl
  obtain ⟨hlt, rfl⟩ := List.getElem?_eq_some_iff.mp hi
  have hsplit : ∀ f, f ∈ rest ↔ f ∈ rest[i] :: rest.eraseIdx i :=
    fun f => (getElem_cons_eraseIdx_perm hlt).mem_iff.symm
  constructor
  · intro n hn
    refine forall_mem_cons.mpr ⟨hmlen.trans_le (hn item (.head _)), fun f hf => ?_⟩
    exact hn f (.tail _ (mem_of_mem_eraseIdx hf))
  · intro x hx
    have hitem := hmatch x.bytes (hx item (.head _))
    have hunion : merged.matches x = true ↔ item.matches x = true ∨ rest[i].matches x = true := hitem
    simp only [mem_cons, exists_eq_or_imp, hsplit, hunion, or_assoc]

/-- The loop at one index merges until the filter cannot be merged with any filter after it. -/
lemma mergeLoop_spec (pre : Filters) :
    ∀ (fuel : ℕ) (item : InstructionFilter) (rest : Filters), rest.length < fuel →
      ∃ item' rest', mergeLoop pre.length fuel (pre ++ item :: rest) = .ok (pre ++ item' :: rest') ∧
        rest'.Sublist rest ∧ (item' = item ∧ rest' = rest ∨ rest'.length < rest.length) ∧
        (∀ g ∈ rest', Unmergeable item' g) ∧ SameUnion (item :: rest) (item' :: rest') := by
  intro fuel
  induction fuel with
  | zero => exact fun _ _ h => absurd h (Nat.not_lt_zero _)
  | succ fuel ih =>
    intro item rest hfuel
    have hget : (pre ++ item :: rest)[pre.length]? = some item := by
      rw [getElem?_append_right le_rfl, Nat.sub_self]
      rfl
    have hdrop : (pre ++ item :: rest).drop (pre.length + 1) = rest := by
      rw [drop_append, drop_eq_nil_of_le (Nat.le_succ _), Nat.add_sub_cancel_left]
      rfl
    obtain ⟨r, hr, hnone, hsome⟩ := findMerge_spec item rest
    unfold mergeLoop
    rw [hget, orPanic_some, ok_bind, hdrop, hr]
    rcases r with _ | ⟨i, merged⟩
    · exact ⟨item, rest, rfl, .refl rest, .inl ⟨rfl, rfl⟩, hnone rfl, .refl _⟩
    · obtain ⟨other, hi, hmerge⟩ := hsome i merged rfl
      have hlt : i < rest.length := lt_of_getElem? hi
      have hstep : ((pre ++ item :: rest).set pre.length merged).eraseIdx (pre.length + 1 + i) =
          pre ++ merged :: rest.eraseIdx i := by
        rw [set_append_right _ _ le_rfl, Nat.sub_self, set_cons_zero,
          eraseIdx_append_of_length_le (by omega),
          show pre.length + 1 + i - pre.length = i + 1 by omega, eraseIdx_cons_succ]
      have hlen := length_eraseIdx_of_lt hlt
      obtain ⟨item', rest', hrun, hsub, -, hun, hsame⟩ := ih merged (rest.eraseIdx i) (by omega)
      have hshort := hsub.length_le
      refine ⟨item', rest', ?_, hsub.trans (eraseIdx_sublist _ _), .inr (by omega), hun,
        (sameUnion_merge hi hmerge).trans hsame⟩
      show mergeLoop pre.length fuel _ = _
      rw [hstep, hrun]

/-- The rounds from index `k - 1` down to 0, if the filters from `k` on cannot be merged. -/
lemma mergeRounds_spec (k : ℕ) : ∀ l : Filters, k ≤ l.length →
    (l.drop k).Pairwise Unmergeable →
    ∃ r, (List.range k).reverse.foldlM
        (fun filters index => mergeLoop index filters.length filters) l = .ok r ∧
      (r = l ∨ r.length < l.length) ∧ SameUnion l r ∧ r.Pairwise Unmergeable := by
  induction k with
  | zero => exact fun l _ hl => ⟨l, rfl, .inl rfl, .refl l, hl⟩
  | succ k ih =>
    intro l hk hl
    have hsplit : l = l.take k ++ l[k] :: l.drop (k + 1) := by
      rw [← drop_eq_getElem_cons hk, take_append_drop]
    have hlen : (l.take k).length = k := length_take_of_le (by omega)
    obtain ⟨item', rest', hrun, hsub, hkept, hun, hsame⟩ := mergeLoop_spec (l.take k) l.length l[k]
      (l.drop (k + 1)) (by rw [length_drop]; omega)
    rw [← hsplit, hlen] at hrun
    have hrest : (item' :: rest').Pairwise Unmergeable := List.Pairwise.cons hun (hl.sublist hsub)
    have hdrop : (l.take k ++ item' :: rest').drop k = item' :: rest' := drop_left' hlen
    obtain ⟨r, hr, hrlen, hsame', hpair⟩ := ih (l.take k ++ item' :: rest')
      (by rw [length_append, hlen]; omega) (by rw [hdrop]; exact hrest)
    refine ⟨r, ?_, ?_, ?_, hpair⟩
    · rw [range_succ, reverse_append, reverse_singleton, singleton_append,
        foldlM_cons, hrun, ok_bind, hr]
    · rcases hkept with ⟨rfl, rfl⟩ | hshort
      · rwa [← hsplit] at hrlen
      · right
        have hmid : (l.take k ++ item' :: rest').length < l.length := by
          rw [length_drop] at hshort
          rw [length_append, length_cons]
          omega
        rcases hrlen with rfl | hrlen
        · exact hmid
        · exact hrlen.trans hmid
    · refine SameUnion.trans ?_ hsame'
      have h := hsame.append_left (l.take k)
      rw [← hsplit] at h
      exact h

/-- A list that `merge_filters` does not shorten is returned as it is. -/
lemma mergeFilters_spec (l : Filters) :
    ∃ r, mergeFilters l = .ok r ∧ (r = l ∨ r.length < l.length) ∧ SameUnion l r ∧
      r.Pairwise Unmergeable := by
  apply mergeRounds_spec l.length l le_rfl
  rw [drop_length]
  exact .nil

/-- A list without mergeable filters stays as it is. -/
lemma mergeFilters_of_unmergeable {l : Filters} (h : ∀ f ∈ l, ∀ g ∈ l, Unmergeable f g) :
    mergeFilters l = .ok l := by
  have hloop : ∀ index < l.length, mergeLoop index l.length l = .ok l := by
    intro index hindex
    obtain ⟨n, hn⟩ : ∃ n, l.length = n + 1 := ⟨l.length - 1, by omega⟩
    obtain ⟨r, hr, -, hsome⟩ := findMerge_spec l[index] (l.drop (index + 1))
    rw [hn]
    unfold mergeLoop
    rw [getElem?_eq_getElem hindex, orPanic_some, ok_bind, hr]
    rcases r with _ | ⟨i, merged⟩
    · rfl
    · obtain ⟨other, hi, hmerge⟩ := hsome i merged rfl
      have hother : other ∈ l := mem_of_mem_drop (mem_of_getElem? hi)
      have hnone := h l[index] (getElem_mem hindex) other hother
      nomatch ok_unique hmerge hnone
  obtain ⟨l', hl', rfl⟩ : ∃ l', mergeFilters l = .ok l' ∧ l' = l := by
    refine exists_foldlM_eq_ok rfl fun l' i hi hl' => ?_
    rw [hl']
    exact ⟨l, hloop i (mem_range.mp (mem_reverse.mp hi)), rfl⟩
  exact hl'

/-- `merge_filters` returns for every list. The result matches the same instructions, among those
that are at least as long as the longest filter; no two of its filters can be merged, and merging it
again changes nothing. -/
theorem mergeFilters_exact (filters : Filters) :
    ∃ r, mergeFilters filters = .ok r ∧
      (∀ x : Instruction, (∀ f ∈ filters, f.len ≤ x.byteLen) →
        ((∃ f ∈ r, f.matches x = true) ↔ ∃ f ∈ filters, f.matches x = true)) ∧
      (∀ f ∈ r, ∀ g ∈ r, f.tryMerge g = .ok none) ∧ mergeFilters r = .ok r := by
  obtain ⟨r, hr, -, hsame, hpair⟩ := mergeFilters_spec filters
  have hun : ∀ f ∈ r, ∀ g ∈ r, Unmergeable f g := by
    intro f hf g hg
    have hsymm : Std.Symm Unmergeable := ⟨fun _ _ h => h.symm⟩
    by_cases hfg : f = g
    · rw [hfg]
      exact .self g
    · exact hpair.forall hf hg hfg
  exact ⟨r, hr, hsame.matches_iff, hun, mergeFilters_of_unmergeable hun⟩

/-! ## Adding filters one by one -/

namespace FilterList

/-- Source: `instr/set.rs`, `FilterList::new` -/
def new : FilterList := ⟨[]⟩

/-- The filter merged with another one, if that gives a filter that covers it. -/
def mergeWith (f g : InstructionFilter) : Partial InstructionFilter := do
  match ← f.tryMerge g with
  | some new => if new.covers f then return new else return f
  | none => return f

/-- Source: `instr/set.rs`, `FilterList::add` -/
def add (l : FilterList) (filter : InstructionFilter) : Partial FilterList :=
  if l.filters.any fun f => f.covers filter || decide (f = filter) then return l
  else do
    let filters ← l.filters.mapM fun f => mergeWith f filter
    let filter ← filters.foldlM mergeWith filter
    return ⟨(filters.filter fun f => !filter.covers f) ++ [filter]⟩

/-- The filter grows, but only by what the other filter matches. -/
structure GrowsBy (f g h : InstructionFilter) : Prop where
  len_eq : h.len = f.len
  matches_of : ∀ x : Instruction, f.len ≤ x.byteLen → f.matches x = true → h.matches x = true
  matches_or : ∀ x : Instruction, f.len ≤ x.byteLen → h.matches x = true →
    f.matches x = true ∨ g.matches x = true

lemma mergeWith_spec (f g : InstructionFilter) : ∃ h, mergeWith f g = .ok h ∧ GrowsBy f g h := by
  have hkeep : GrowsBy f g f := ⟨rfl, fun _ _ h => h, fun _ _ h => .inl h⟩
  obtain ⟨r, hr, hspec⟩ := tryMerge_spec f g
  unfold mergeWith
  rw [hr]
  rcases r with _ | h
  · exact ⟨f, rfl, hkeep⟩
  · obtain ⟨-, hlen, hmatch⟩ := hspec h rfl
    by_cases hcov : h.covers f = true
    · refine ⟨h, if_pos hcov, hlen, fun x hx hf => ?_, fun x hx hh => ?_⟩
      · exact (hmatch x.bytes hx).mpr (.inl hf)
      · exact (hmatch x.bytes hx).mp hh
    · exact ⟨f, if_neg hcov, hkeep⟩

/-- The new filter after it was merged with each filter of the list in turn. -/
lemma foldlM_mergeWith_spec (filters : Filters) (filter : InstructionFilter) :
    ∃ h, filters.foldlM mergeWith filter = .ok h ∧ h.len = filter.len ∧
      (∀ x : Instruction, filter.len ≤ x.byteLen → filter.matches x = true → h.matches x = true) ∧
      ∀ x : Instruction, filter.len ≤ x.byteLen → h.matches x = true →
        filter.matches x = true ∨ ∃ f ∈ filters, f.matches x = true := by
  induction filters generalizing filter with
  | nil => exact ⟨filter, rfl, rfl, fun _ _ h => h, fun _ _ h => .inl h⟩
  | cons f filters ih =>
    obtain ⟨h, hh, hgrow⟩ := mergeWith_spec filter f
    obtain ⟨h', hh', hlen, hof, hor⟩ := ih h
    refine ⟨h', ?_, hlen.trans hgrow.len_eq, fun x hx hm => ?_, fun x hx hm => ?_⟩
    · rw [foldlM_cons, hh, ok_bind, hh']
    · exact hof x (hgrow.len_eq.trans_le hx) (hgrow.matches_of x hx hm)
    · rcases hor x (hgrow.len_eq.trans_le hx) hm with hm | ⟨g, hg, hm⟩
      · rcases hgrow.matches_or x hx hm with hm | hm
        · exact .inl hm
        · exact .inr ⟨f, mem_cons_self, hm⟩
      · exact .inr ⟨g, .tail _ hg, hm⟩

/-- Adding a filter adds exactly the instructions that it matches. -/
lemma add_spec (l : FilterList) (filter : InstructionFilter) :
    ∃ l', l.add filter = .ok l' ∧ SameUnion (filter :: l.filters) l'.filters := by
  unfold add
  split
  next hany =>
    obtain ⟨f, hf, hcov⟩ := any_eq_true.mp hany
    refine ⟨l, rfl, fun n hn g hg => hn g (.tail _ hg), fun x hx => ⟨?_, ?_⟩⟩
    · rintro ⟨g, hg, hm⟩
      exact ⟨g, .tail _ hg, hm⟩
    · rintro ⟨g, hg, hm⟩
      rcases mem_cons.mp hg with rfl | hg
      · -- the new filter is redundant
        rcases Bool.or_eq_true_iff.mp hcov with hcov | heq
        · exact ⟨f, hf, matches_of_filterCovers hcov
            (hx g (.head _)) hm⟩
        · rw [← of_decide_eq_true heq] at hm
          exact ⟨f, hf, hm⟩
      · exact ⟨g, hg, hm⟩
  next =>
    obtain ⟨filters, hfilters, hall⟩ := exists_mapM_eq_ok fun f _ => mergeWith_spec f filter
    obtain ⟨h, hh, hlen, hof, hor⟩ := foldlM_mergeWith_spec filters filter
    refine ⟨⟨(filters.filter fun f => !h.covers f) ++ [h]⟩, ?_, ?_⟩
    · rw [hfilters, ok_bind, hh]
      rfl
    constructor
    · intro n hn
      refine forall_mem_append.mpr ⟨fun g hg => ?_, forall_mem_singleton.mpr ?_⟩
      · obtain ⟨f, hf, hgrow⟩ := exists_of_forall₂_of_mem hall (mem_filter.mp hg).1
        exact hgrow.len_eq.trans_le (hn f (.tail _ hf))
      · exact hlen.trans_le (hn filter (.head _))
    · intro x hx
      have hxf := hx filter (.head _)
      have hxl : ∀ f ∈ l.filters, f.len ≤ x.byteLen := fun f hf => hx f (.tail _ hf)
      -- everything in the new list comes from the old list and the filter
      have hback : ∀ g ∈ filters, g.matches x = true →
          ∃ f ∈ filter :: l.filters, f.matches x = true := by
        intro g hg hm
        obtain ⟨f, hf, hgrow⟩ := exists_of_forall₂_of_mem hall hg
        rcases hgrow.matches_or x (hxl f hf) hm with hm | hm
        · exact ⟨f, .tail _ hf, hm⟩
        · exact ⟨filter, mem_cons_self, hm⟩
      constructor
      · rintro ⟨g, hg, hm⟩
        rcases mem_append.mp hg with hg | hg
        · exact hback g (mem_filter.mp hg).1 hm
        · rw [mem_singleton.mp hg] at hm
          rcases hor x hxf hm with hm | ⟨g, hg, hm⟩
          · exact ⟨filter, mem_cons_self, hm⟩
          · exact hback g hg hm
      · rintro ⟨f, hf, hm⟩
        rcases mem_cons.mp hf with rfl | hf
        · exact ⟨h, mem_append_right _ (.head _), hof x hxf hm⟩
        · obtain ⟨g, hg, hgrow⟩ := exists_of_mem_of_forall₂ hall hf
          have hgm := hgrow.matches_of x (hxl f hf) hm
          by_cases hcov : h.covers g = true
          · refine ⟨h, mem_append_right _ (.head _), ?_⟩
            exact matches_of_filterCovers hcov (hgrow.len_eq.trans_le (hxl f hf)) hgm
          · refine ⟨g, mem_append_left _ (mem_filter.mpr ⟨hg, ?_⟩), hgm⟩
            rw [Bool.eq_false_iff.mpr hcov]
            rfl

/-- Any sequence of `add` calls returns, and the list then matches what some added filter matches,
among the instructions that are at least as long as every added filter. -/
theorem addAll_exact (filters : Filters) :
    ∃ l, filters.foldlM add new = .ok l ∧
      ∀ x : Instruction, (∀ f ∈ filters, f.len ≤ x.byteLen) →
        ((∃ g ∈ l.filters, g.matches x = true) ↔ ∃ f ∈ filters, f.matches x = true) := by
  have hgen : ∀ (filters : Filters) l, ∃ l',
      filters.foldlM add l = .ok l' ∧ SameUnion (filters ++ l.filters) l'.filters := by
    intro filters
    induction filters with
    | nil => exact fun l => ⟨l, rfl, .refl _⟩
    | cons f filters ih =>
      intro l
      obtain ⟨l₁, hl₁, hsame₁⟩ := add_spec l f
      obtain ⟨l₂, hl₂, hsame₂⟩ := ih l₁
      refine ⟨l₂, by rw [foldlM_cons, hl₁, ok_bind, hl₂], ?_⟩
      have hperm : SameUnion (f :: filters ++ l.filters) (filters ++ f :: l.filters) :=
        .of_mem_iff fun g => perm_middle.mem_iff
      exact hperm.trans ((hsame₁.append_left filters).trans hsame₂)
  obtain ⟨l, hl, hsame⟩ := hgen filters new
  have hnil : filters ++ new.filters = filters := append_nil filters
  rw [hnil] at hsame
  exact ⟨l, hl, hsame.matches_iff⟩

end FilterList

end LibLisa
