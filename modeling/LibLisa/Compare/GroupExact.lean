import LibLisa.Compare.Group

/-!
# The groups of several architectures are the components

The table of filters says of each number which filter it has and which numbers occur with it in an
encoding (`Numbered`). So the search from the filters of an encoding finds the filters of exactly
those encodings that a chain of overlapping encodings links to it (`isMatched_iff_chain`), and the
loop takes the components one after the other (`groupsLoop_spec`).
-/

namespace LibLisa.Compare

open Lib Mcs Encoding List Components FilterTable Bool
open Option (mem_unique map_eq_some_iff)

variable {R : Type} {f : InstructionFilter} {p : Row} {e : EncodingWithFilters R}

/-- The encodings of all architectures. -/
abbrev rows (data : List ArchData) : List Row := data.flatMap (·.encodings)

/-! ## The table of filters -/

namespace FilterTable

/-- The filter with a number. -/
def filterAt (t : FilterTable) (id : FilterId) : Option InstructionFilter :=
  t.lookup[id]?.map (·.filter)

/-- The numbers that are recorded as related to a number. -/
def relatedAt (t : FilterTable) (id : FilterId) : Finset FilterId :=
  (t.lookup[id]?.map (·.relatedIds)).getD ∅

/-- The map gives a filter a number that has it. -/
def MapOk (t : FilterTable) : Prop := ∀ f id, t.idMap f = some id → t.filterAt id = some f

/-- A larger table: numbers keep their filter. -/
def Extends (t t' : FilterTable) : Prop :=
  ∀ id f, t.filterAt id = some f → t'.filterAt id = some f

variable {t : FilterTable}

lemma Extends.trans {t' t'' : FilterTable} (h : Extends t t') (h' : Extends t' t'') :
    Extends t t'' := fun id f hf => h' id f (h id f hf)

lemma lt_of_filterAt {id : FilterId} (h : t.filterAt id = some f) : id < t.lookup.length := by
  obtain ⟨entry, hentry, -⟩ := map_eq_some_iff.mp h
  exact lt_of_getElem? hentry

/-- What numbering filters keeps, and that only the numbers in `ids` are new. -/
structure Step (t : FilterTable) (ids : List FilterId) (t' : FilterTable) : Prop where
  mapOk : t'.MapOk
  ext : Extends t t'
  new : ∀ id f, t'.filterAt id = some f → t.filterAt id = some f ∨ id ∈ ids
  relatedAt : ∀ id, t'.relatedAt id = t.relatedAt id

lemma assign_spec (h : t.MapOk) (f : InstructionFilter) :
    Step t [(t.assign f).1] (t.assign f).2 ∧ (t.assign f).2.filterAt (t.assign f).1 = some f := by
  unfold assign
  rcases hmap : t.idMap f with _ | id
  · have hnew : ∀ id, (t.lookup ++ [⟨f, ∅⟩])[id]? =
        if id = t.lookup.length then some ⟨f, ∅⟩ else t.lookup[id]? := by
      intro id
      split
      next hid => rw [hid, getElem?_concat_length]
      next hid =>
        rcases Nat.lt_or_gt_of_ne hid with hlt | hgt
        · exact getElem?_append_left hlt
        · rw [getElem?_eq_none (by simp; omega), getElem?_eq_none (by omega)]
    have hext : Extends t ⟨fun g => if g = f then some t.lookup.length else t.idMap g,
        t.lookup ++ [⟨f, ∅⟩]⟩ := by
      intro id g hg
      have hlt := lt_of_filterAt hg
      rw [filterAt, hnew, if_neg hlt.ne]
      exact hg
    have hself : filterAt ⟨fun g => if g = f then some t.lookup.length else t.idMap g,
        t.lookup ++ [⟨f, ∅⟩]⟩ t.lookup.length = some f := by
      rw [filterAt, hnew, if_pos rfl]
      rfl
    refine ⟨⟨fun g id hg => ?_, hext, fun id g hg => ?_, fun id => ?_⟩, hself⟩
    · dsimp only at hg
      split at hg
      next heq =>
        obtain rfl := Option.some.inj hg
        rw [heq]
        exact hself
      next => exact hext id g (h g id hg)
    · by_cases hid : id = t.lookup.length
      · exact Or.inr (mem_singleton.mpr hid)
      · rw [filterAt, hnew, if_neg hid] at hg
        exact Or.inl hg
    · rw [relatedAt, hnew, relatedAt]
      split
      next hid => rw [hid, getElem?_eq_none (Nat.le_refl _)]; rfl
      next => rfl
  · exact ⟨⟨h, fun _ _ hf => hf, fun _ _ hf => Or.inl hf, fun _ => rfl⟩, h f id hmap⟩

lemma assignAll_spec (h : t.MapOk) (fs : Filters) :
    Step t (t.assignAll fs).1 (t.assignAll fs).2 ∧
      List.Forall₂ (fun f id => (t.assignAll fs).2.filterAt id = some f) fs (t.assignAll fs).1 := by
  induction fs generalizing t with
  | nil => exact ⟨⟨h, fun _ _ hf => hf, fun _ _ hf => Or.inl hf, fun _ => rfl⟩, .nil⟩
  | cons f fs ih =>
    obtain ⟨hstep, hf⟩ := assign_spec h f
    obtain ⟨hsteps, hfs⟩ := ih hstep.mapOk
    refine ⟨⟨hsteps.mapOk, hstep.ext.trans hsteps.ext, fun id g hg => ?_,
      fun id => (hsteps.relatedAt id).trans (hstep.relatedAt id)⟩, .cons (hsteps.ext _ f hf) hfs⟩
    rcases hsteps.new id g hg with hg | hid
    · exact (hstep.new id g hg).imp_right fun hid =>
        mem_cons.mpr (Or.inl (mem_singleton.mp hid))
    · exact Or.inr (.tail _ hid)

/-- The loop of `relate`: the numbers of the list get the set `s` added. -/
lemma exists_relateLoop (s : Finset FilterId) (ids : List FilterId)
    (lookup : List FilterLookupEntry) (h : ∀ id ∈ ids, id < lookup.length) :
    ∃ lookup' : List FilterLookupEntry,
      ids.foldlM (fun lookup id => do
        let entry ← orPanic .indexOutOfBounds lookup[id]?
        return lookup.set id { entry with relatedIds := entry.relatedIds ∪ s }) lookup =
          (.ok lookup' : Partial (List FilterLookupEntry)) ∧
      ∀ k : ℕ, lookup'[k]? = lookup[k]?.map fun entry =>
        { entry with relatedIds := entry.relatedIds ∪ if k ∈ ids then s else ∅ } := by
  induction ids generalizing lookup with
  | nil => exact ⟨lookup, rfl, fun k => by simp⟩
  | cons id ids ih =>
    have hid := h id (.head _)
    obtain ⟨lookup', hok, hget⟩ := ih (lookup.set id
      { lookup[id] with relatedIds := lookup[id].relatedIds ∪ s }) fun k hk => by
        rw [length_set]
        exact h k (.tail _ hk)
    refine ⟨lookup', ?_, fun k => ?_⟩
    · rw [foldlM_cons, getElem?_eq_getElem hid]
      exact hok
    · rw [hget, getElem?_set]
      by_cases hk : id = k
      · subst hk
        rw [if_pos rfl, if_pos hid, getElem?_eq_getElem hid, Option.map_some, Option.map_some,
          if_pos mem_cons_self]
        split
        · rw [Finset.union_assoc, Finset.union_self]
        · rw [Finset.union_empty]
      · rw [if_neg hk]
        simp [Ne.symm hk]

lemma exists_relate {ids : List FilterId} (h : ∀ id ∈ ids, id < t.lookup.length) :
    ∃ t', t.relate ids = .ok t' ∧ t'.idMap = t.idMap ∧ (∀ k, t'.filterAt k = t.filterAt k) ∧
      ∀ k j, j ∈ t'.relatedAt k ↔ j ∈ t.relatedAt k ∨ (k ∈ ids ∧ j ∈ ids) := by
  obtain ⟨lookup', hok, hget⟩ := exists_relateLoop ids.toFinset ids t.lookup h
  refine ⟨{ t with lookup := lookup' }, ?_, rfl, fun k => ?_, fun k j => ?_⟩
  · rw [relate, hok]
    rfl
  · rw [filterAt, hget, Option.map_map]
    rfl
  · rw [relatedAt, hget, relatedAt]
    rcases hk : t.lookup[k]? with _ | entry
    · have hnot : k ∉ ids := fun hmem => Nat.not_lt.mpr (getElem?_eq_none_iff.mp hk) (h k hmem)
      simp [hnot]
    · by_cases hmem : k ∈ ids <;> simp [hmem]

end FilterTable

/-- The table has the filters of the listed encodings under their numbers, and relates the numbers
that occur together in one of them. -/
structure Numbered (E : IndexedEncodings R) (t : FilterTable) (all : List Row) : Prop where
  mapOk : t.MapOk
  filterAt : ∀ p ∈ all, ∃ e, E.encodings[p.1]? = some e ∧
    List.Forall₂ (fun f id => t.filterAt id = some f) e.filters p.2
  source : ∀ k f, t.filterAt k = some f → ∃ p ∈ all, k ∈ p.2
  relatedAt : ∀ k j, j ∈ t.relatedAt k ↔ ∃ p ∈ all, k ∈ p.2 ∧ j ∈ p.2

namespace Numbered

variable {E : IndexedEncodings R} {t : FilterTable} {all : List Row}

lemma exists_filterAt (h : Numbered E t all) (hp : p ∈ all) {k : FilterId} (hk : k ∈ p.2) :
    ∃ e f, E.encodings[p.1]? = some e ∧ f ∈ e.filters ∧ t.filterAt k = some f := by
  obtain ⟨e, he, hall⟩ := h.filterAt p hp
  obtain ⟨f, hf, hfk⟩ := exists_of_forall₂_of_mem hall hk
  exact ⟨e, f, he, hf, hfk⟩

lemma exists_id (h : Numbered E t all) (hp : p ∈ all) (he : E.encodings[p.1]? = some e)
    (hf : f ∈ e.filters) : ∃ k ∈ p.2, t.filterAt k = some f := by
  obtain ⟨e', he', hall⟩ := h.filterAt p hp
  obtain rfl := mem_unique he he'
  exact exists_of_mem_of_forall₂ hall hf

lemma nil (E : IndexedEncodings R) : Numbered E .new [] :=
  ⟨nofun, by simp, by simp [FilterTable.filterAt, FilterTable.new],
    by simp [FilterTable.relatedAt, FilterTable.new]⟩

/-- The encodings of an architecture are numbered after the others. -/
lemma exists_archEncodings (h : Numbered E t all) {ids : List EncodingId}
    (hids : ∀ id ∈ ids, id < E.encodings.length) :
    ∃ encodings t', archEncodings E t ids = .ok (encodings, t') ∧ encodings.map (·.1) = ids ∧
      Numbered E t' (all ++ encodings) := by
  induction ids generalizing t all with
  | nil => exact ⟨[], t, rfl, rfl, (append_nil all).symm ▸ h⟩
  | cons id ids ih =>
    have hid := hids id (.head _)
    have he : E.encodings[id]? = some E.encodings[id] := getElem?_eq_getElem hid
    obtain ⟨hstep, hfilters⟩ := t.assignAll_spec h.mapOk E.encodings[id].filters
    rcases hassign : t.assignAll E.encodings[id].filters with ⟨fids, t₁⟩
    rw [hassign] at hstep hfilters
    have hlt : ∀ k ∈ fids, k < t₁.lookup.length := by
      intro k hk
      obtain ⟨f, -, hf⟩ := exists_of_forall₂_of_mem hfilters hk
      exact lt_of_filterAt hf
    obtain ⟨t₂, hrelate, hmap, hfilterAt, hrelated⟩ := exists_relate hlt
    have hnew : Numbered E t₂ (all ++ [(id, fids)]) := by
      refine ⟨fun f k hk => ?_, fun p hp => ?_, fun k f hf => ?_, fun k j => ?_⟩
      · rw [hfilterAt]
        exact hstep.mapOk f k (hmap ▸ hk)
      · simp only [hfilterAt]
        rcases mem_append.mp hp with hp | hp
        · obtain ⟨e, he, hall⟩ := h.filterAt p hp
          exact ⟨e, he, hall.imp fun f k hk => hstep.ext k f hk⟩
        · obtain rfl := mem_singleton.mp hp
          exact ⟨_, he, hfilters⟩
      · rw [hfilterAt] at hf
        rcases hstep.new k f hf with hf | hk
        · obtain ⟨p, hp, hk⟩ := h.source k f hf
          exact ⟨p, mem_append_left _ hp, hk⟩
        · exact ⟨(id, fids), mem_append_right _ (mem_singleton_self _), hk⟩
      · rw [hrelated, hstep.relatedAt, h.relatedAt]
        simp
    obtain ⟨encodings, t', hok, hfst, hnum⟩ := ih hnew fun k hk => hids k (.tail _ hk)
    refine ⟨(id, fids) :: encodings, t', ?_, by rw [map_cons, hfst], ?_⟩
    · rw [archEncodings, he, orPanic_some, ok_bind, hassign]
      show (t₁.relate fids >>= _) = _
      rw [hrelate, ok_bind, hok]
      rfl
    · rwa [append_assoc] at hnum

lemma exists_archesData (h : Numbered E t all) {arches : List (List EncodingId)}
    (hids : ∀ ids ∈ arches, ∀ id ∈ ids, id < E.encodings.length) :
    ∃ data t', archesData E t arches = .ok (data, t') ∧
      data.map (fun d => d.encodings.map (·.1)) = arches ∧
      (∀ d ∈ data, d.unprocessed = Finset.range d.encodings.length) ∧
      Numbered E t' (all ++ rows data) := by
  induction arches generalizing t all with
  | nil => exact ⟨[], t, rfl, rfl, by simp, by simpa using h⟩
  | cons ids arches ih =>
    obtain ⟨encodings, t₁, hok₁, hfst, hnum₁⟩ := h.exists_archEncodings (hids ids (.head _))
    obtain ⟨data, t', hok, hdata, hunp, hnum⟩ := ih hnum₁ fun ids' hids' =>
      hids ids' (.tail _ hids')
    refine ⟨⟨encodings, Finset.range ids.length⟩ :: data, t', ?_, ?_, ?_, ?_⟩
    · rw [archesData, hok₁]
      show (archesData E t₁ arches >>= _) = _
      rw [hok]
      rfl
    · rw [map_cons, hdata, hfst]
    · intro d hd
      rcases mem_cons.mp hd with rfl | hd
      · rw [← hfst, length_map]
      · exact hunp d hd
    · rwa [append_assoc] at hnum

end Numbered

/-! ## The rows of the search -/

lemma mem_pairs {l : List FilterId} {a b : FilterId} :
    (a, b) ∈ pairs l ∨ (b, a) ∈ pairs l ↔ a ∈ l ∧ b ∈ l := by
  induction l with
  | nil => simp [pairs]
  | cons x rest ih =>
    have hmap : ∀ y z, (y, z) ∈ (x :: rest).map (x, ·) ↔ z ∈ x :: rest ∧ x = y := by
      intro y z
      simp only [mem_map, Prod.mk.injEq, exists_eq_right_right]
    rw [pairs, mem_append, mem_append, hmap, hmap]
    simp only [mem_cons]
    tauto

section rows

variable {t : FilterTable}

/-- Filters of one length that overlap. -/
def FilterTable.Overlaps (t : FilterTable) (a b : FilterId) : Prop :=
  ∃ f g, t.filterAt a = some f ∧ t.filterAt b = some g ∧ f.len = g.len ∧ f.overlaps g = true

variable {a b : FilterId}

lemma FilterTable.Overlaps.symm (h : t.Overlaps a b) : t.Overlaps b a := by
  obtain ⟨f, g, hf, hg, hlen, hov⟩ := h
  exact ⟨g, f, hg, hf, hlen.symm, InstructionFilter.overlaps_comm f g ▸ hov⟩

lemma FilterTable.Overlaps.refl (h : t.filterAt a = some f) : t.Overlaps a a :=
  ⟨f, f, h, h, rfl, f.overlaps_self⟩

lemma exists_indexGroups (h : ∀ k f, t.filterAt k = some f → f.len < 16) :
    ∃ groups, indexGroups t.lookup = .ok groups ∧ ∀ a b,
      (∃ g ∈ groups, a ∈ g ∧ b ∈ g) ↔
        ∃ f g, t.filterAt a = some f ∧ t.filterAt b = some g ∧ f.len = g.len := by
  have hshort : ¬ (t.lookup.any fun entry => 16 ≤ entry.filter.len) = true := by
    intro hany
    obtain ⟨entry, hmem, hlen⟩ := any_eq_true.mp hany
    obtain ⟨k, hk⟩ := mem_iff_getElem?.mp hmem
    have := h k entry.filter (by rw [filterAt, hk]; rfl)
    have := of_decide_eq_true hlen
    omega
  refine ⟨_, if_neg hshort, fun a b => ?_⟩
  have hmem : ∀ (len : ℕ) a,
      a ∈ (t.lookup.zipIdx.filter fun p => p.1.filter.len = len).map (·.2) ↔
        ∃ f, t.filterAt a = some f ∧ f.len = len := by
    intro len a
    rw [mem_map]
    constructor
    · rintro ⟨⟨entry, i⟩, hp, rfl⟩
      obtain ⟨hp, hlen⟩ := mem_filter.mp hp
      refine ⟨entry.filter, ?_, of_decide_eq_true hlen⟩
      rw [filterAt, mem_zipIdx_iff_getElem?.mp hp]
      rfl
    · rintro ⟨f, hf, hlen⟩
      obtain ⟨entry, hentry, rfl⟩ := map_eq_some_iff.mp hf
      exact ⟨(entry, a), mem_filter.mpr ⟨mem_zipIdx_iff_getElem?.mpr hentry,
        decide_eq_true hlen⟩, rfl⟩
  constructor
  · rintro ⟨g, hg, ha, hb⟩
    obtain ⟨len, -, rfl⟩ := mem_map.mp (mem_filter.mp hg).1
    obtain ⟨f, hf, hflen⟩ := (hmem len a).mp ha
    obtain ⟨f', hf', hflen'⟩ := (hmem len b).mp hb
    exact ⟨f, f', hf, hf', hflen.trans hflen'.symm⟩
  · rintro ⟨f, f', hf, hf', hlen⟩
    have ha := (hmem f.len a).mpr ⟨f, hf, rfl⟩
    have hb := (hmem f.len b).mpr ⟨f', hf', hlen.symm⟩
    refine ⟨_, mem_filter.mpr ⟨mem_map.mpr ⟨f.len, mem_range.mpr (h a f hf), rfl⟩, ?_⟩, ha, hb⟩
    rw [not_eq_true', isEmpty_eq_false_iff]
    exact ne_nil_of_mem ha

lemma filtersOverlap_eq_true_iff :
    filtersOverlap t.lookup a b = true ↔
      ∃ f g, t.filterAt a = some f ∧ t.filterAt b = some g ∧ f.overlaps g = true := by
  unfold filtersOverlap filterAt
  cases t.lookup[a]? with
  | none => simp
  | some x =>
    cases t.lookup[b]? with
    | none => simp
    | some y => simp

/-- A row of the matrix lists the filters that overlap. -/
lemma mem_filterOverlap {groups : List (List FilterId)} (h : ∀ a b, (∃ g ∈ groups, a ∈ g ∧ b ∈ g) ↔
      ∃ f g, t.filterAt a = some f ∧ t.filterAt b = some g ∧ f.len = g.len) :
    a ∈ (filterOverlap t.lookup groups).iterRowIndices b ↔ t.Overlaps a b := by
  rw [filterOverlap, Symmetric2DMatrix.mem_iterRowIndices_ofEntries]
  simp only [mem_filter, mem_flatMap, filtersOverlap_eq_true_iff]
  have hpairs : ∀ a b, (∃ g ∈ groups, (a, b) ∈ pairs g) → (∃ f g, t.filterAt a = some f ∧
      t.filterAt b = some g ∧ f.overlaps g = true) → t.Overlaps a b := by
    rintro a b ⟨g, hg, hpair⟩ ⟨f, f', hf, hf', hov⟩
    obtain ⟨ha, hb⟩ := mem_pairs.mp (Or.inl hpair)
    obtain ⟨f₁, f₁', hf₁, hf₁', hlen⟩ := (h a b).mp ⟨g, hg, ha, hb⟩
    obtain rfl := mem_unique hf hf₁
    obtain rfl := mem_unique hf' hf₁'
    exact ⟨f, f', hf, hf', hlen, hov⟩
  constructor
  · rintro (⟨hpair, hov⟩ | ⟨hpair, hov⟩)
    · exact hpairs a b hpair hov
    · exact (hpairs b a hpair hov).symm
  · rintro ⟨f, f', hf, hf', hlen, hov⟩
    obtain ⟨g, hg, ha, hb⟩ := (h a b).mpr ⟨f, f', hf, hf', hlen⟩
    rcases mem_pairs.mpr ⟨ha, hb⟩ with hpair | hpair
    · exact Or.inl ⟨⟨g, hg, hpair⟩, f, f', hf, hf', hov⟩
    · exact Or.inr ⟨⟨g, hg, hpair⟩, f', f, hf', hf, InstructionFilter.overlaps_comm f f' ▸ hov⟩

lemma mem_searchRow (orders : FilterId → SetOrder) {overlap : Symmetric2DMatrix}
    (h : ∀ a b, a ∈ overlap.iterRowIndices b ↔ t.Overlaps a b) {j k : FilterId} :
    j ∈ searchRow orders overlap t.lookup k ↔ ∃ k', t.Overlaps k' k ∧ j ∈ t.relatedAt k' := by
  unfold searchRow
  simp only [mem_flatMap, h]
  refine exists_congr fun k' => and_congr_right fun _ => ?_
  unfold relatedAt
  cases t.lookup[k']? with
  | none => simp
  | some entry => exact (orders k').mem_order entry.relatedIds j

end rows

/-! ## One search -/

/-- A filter of one encoding overlaps one of the other. -/
def FilterTable.EncodingsOverlap (t : FilterTable) (p q : Row) : Prop :=
  ∃ k ∈ p.2, ∃ k' ∈ q.2, t.Overlaps k k'

/-- A chain of encodings of the list whose neighbours overlap. -/
def FilterTable.Chain (t : FilterTable) (all : List Row) : Row → Row → Prop :=
  Relation.ReflTransGen fun p q => p ∈ all ∧ q ∈ all ∧ t.EncodingsOverlap p q

variable {t : FilterTable} {all : List Row}
  {q : Row} {groups : List EncodingGroup} {d : ArchData} {m : Bitmap}

lemma FilterTable.Chain.symm (h : t.Chain all p q) : t.Chain all q p := by
  induction h with
  | refl => exact .refl
  | tail _ hq ih =>
    obtain ⟨hp, hq, k, hk, k', hk', hov⟩ := hq
    exact .head ⟨hq, hp, k', hk', k, hk, hov.symm⟩ ih

section search

variable {E : IndexedEncodings R} (h : Numbered E t all) {row : FilterId → List FilterId}
  (hrow : ∀ j k, j ∈ row k ↔ ∃ k', t.Overlaps k' k ∧ j ∈ t.relatedAt k')

variable {k : FilterId}

include h in
lemma overlaps_self (hp : p ∈ all) (hk : k ∈ p.2) : t.Overlaps k k := by
  obtain ⟨-, f, -, -, hf⟩ := h.exists_filterAt hp hk
  exact .refl hf

include h hrow in
/-- The filters of an encoding are in the row of each of them. -/
lemma mem_row_of_mem (hp : p ∈ all) {j : FilterId} (hj : j ∈ p.2) (hk : k ∈ p.2) : j ∈ row k :=
  (hrow j k).mpr ⟨k, overlaps_self h hp hk, (h.relatedAt k j).mpr ⟨p, hp, hk, hj⟩⟩

include h hrow in
lemma exists_matched (hp : p ∈ all) (hk : k ∈ p.2) :
    ∃ matched, explore row (p.2.length + t.lookup.length) p.2.reverse ∅ =
      some matched ∧ ∀ v, v ∈ matched ↔ Reach row k v := by
  have hbound : ∀ v, ∀ w ∈ row v, w < t.lookup.length := by
    intro v w hw
    obtain ⟨k', -, hw⟩ := (hrow w v).mp hw
    obtain ⟨q, hq, -, hwq⟩ := (h.relatedAt k' w).mp hw
    obtain ⟨-, f, -, -, hf⟩ := h.exists_filterAt hq hwq
    exact lt_of_filterAt hf
  apply exists_explore_from hbound (mem_row_of_mem h hrow hp hk hk)
  · refine ⟨by simp, fun v hv => ?_, by simp, Or.inr (mem_reverse.mpr hk), by simp⟩
    exact .single (mem_row_of_mem h hrow hp (mem_reverse.mp hv) hk)
  · rw [length_reverse, Finset.card_empty, Nat.sub_zero]

include h hrow in
/-- The encodings with a filter that the search finds are those linked to its start. -/
theorem isMatched_iff_chain (hp : p ∈ all) (hk : k ∈ p.2) {matched : Bitmap}
    (hmatched : ∀ v, v ∈ matched ↔ Reach row k v) (hq : q ∈ all) :
    isMatched matched q = true ↔ t.Chain all p q := by
  have hany : ∀ q : Row,
      isMatched matched q = true ↔ ∃ j ∈ q.2, Reach row k j := by
    intro q
    simp [isMatched, any_eq_true, hmatched]
  rw [hany]
  constructor
  · rintro ⟨j, hj, hreach⟩
    induction hreach generalizing q with
    | refl => exact .single ⟨hp, hq, k, hk, k, hj, overlaps_self h hp hk⟩
    | @tail i j hki hij ih =>
      -- `i` overlaps `i'`, which occurs with `j`; `i` itself is a filter of some encoding
      obtain ⟨i', hov, hrel⟩ := (hrow j i).mp hij
      obtain ⟨r, hr, hi'r, hjr⟩ := (h.relatedAt i' j).mp hrel
      obtain ⟨s, hs, his⟩ : ∃ s ∈ all, i ∈ s.2 := by
        rcases Relation.ReflTransGen.cases_tail hki with rfl | ⟨i₀, -, hi⟩
        · exact ⟨p, hp, hk⟩
        · obtain ⟨i₁, -, hrel⟩ := (hrow i i₀).mp hi
          obtain ⟨s, hs, -, his⟩ := (h.relatedAt i₁ i).mp hrel
          exact ⟨s, hs, his⟩
      have hsr : t.Chain all p r := (ih hs his).tail ⟨hs, hr, i, his, i', hi'r, hov.symm⟩
      exact hsr.tail ⟨hr, hq, j, hjr, j, hj, overlaps_self h hr hjr⟩
  · intro hchain
    have hall : ∀ q ∈ all, (∃ j ∈ q.2, Reach row k j) →
        ∀ j ∈ q.2, Reach row k j := by
      rintro q hq ⟨i, hi, hreach⟩ j hj
      exact hreach.tail (mem_row_of_mem h hrow hq hj hi)
    induction hchain with
    | refl => exact ⟨k, hk, .refl⟩
    | @tail r q _ hrq ih =>
      obtain ⟨hr, hq, i, hi, j, hj, hov⟩ := hrq
      have hreach := hall r hr (ih hr) i hi
      exact ⟨j, hj, hreach.tail ((hrow j i).mpr
        ⟨j, hov.symm, (h.relatedAt j j).mpr ⟨q, hq, hj, hj⟩⟩)⟩

end search

/-! ## The loop over the components -/

/-- The encodings with `S` are not processed. -/
def ArchData.withUnprocessed (S : Row → Bool) (d : ArchData) : ArchData :=
  { d with unprocessed := (Finset.range d.encodings.length).filter fun i => d.encodings[i]?.any S }

lemma ArchData.mem_withUnprocessed {S : Row → Bool} {i : ℕ} :
    i ∈ (d.withUnprocessed S).unprocessed ↔ ∃ q, d.encodings[i]? = some q ∧ S q = true := by
  unfold withUnprocessed
  rw [Finset.mem_filter, Finset.mem_range, Option.any_eq_true]
  apply and_iff_right_of_imp
  rintro ⟨q, hq, -⟩
  exact lt_of_getElem? hq

lemma ArchData.markProcessed_withUnprocessed (S : Row → Bool) (matched : Bitmap) (d : ArchData) :
    (d.withUnprocessed S).markProcessed matched =
      d.withUnprocessed fun q => S q && !isMatched matched q := by
  unfold markProcessed
  rw [ArchData.mk.injEq]
  refine ⟨rfl, Finset.ext fun i => ?_⟩
  rw [Finset.mem_sdiff, mem_withUnprocessed, mem_withUnprocessed, mem_toFinset, mem_map]
  constructor
  · rintro ⟨⟨q, hq, hS⟩, hnot⟩
    refine ⟨q, hq, and_eq_true_iff.mpr ⟨hS, ?_⟩⟩
    by_contra hmatched
    exact hnot ⟨(q, i), mem_filter.mpr ⟨mem_zipIdx_iff_getElem?.mpr hq,
      by simpa using hmatched⟩, rfl⟩
  · rintro ⟨q, hq, hS⟩
    obtain ⟨hS, hnot⟩ := and_eq_true_iff.mp hS
    refine ⟨⟨q, hq, hS⟩, ?_⟩
    rintro ⟨⟨q', i'⟩, hp, rfl⟩
    obtain ⟨hp, hmatched⟩ := mem_filter.mp hp
    obtain rfl := mem_unique hq (mem_zipIdx_iff_getElem?.mp hp)
    rw [hmatched] at hnot
    cases hnot

section loop

variable {data : List ArchData} {S : Row → Bool}

lemma firstUnprocessed_eq_none (h : firstUnprocessed (data.map (·.withUnprocessed S)) = none) :
    ∀ q ∈ rows data, S q = false := by
  intro q hq
  obtain ⟨d, hd, hq⟩ := mem_flatMap.mp hq
  obtain ⟨a, ha⟩ := mem_iff_getElem?.mp (mem_map_of_mem hd)
  obtain ⟨i, hi⟩ := mem_iff_getElem?.mp hq
  have hnone := findSome?_eq_none_iff.mp h (d.withUnprocessed S, a) (mem_zipIdx_iff_getElem?.mpr ha)
  rw [Option.map_eq_none_iff] at hnone
  by_contra hS
  have hmem : i ∈ (d.withUnprocessed S).unprocessed :=
    ArchData.mem_withUnprocessed.mpr ⟨q, hi, by simpa using hS⟩
  obtain ⟨j, -, hj⟩ := exists_firstBitSet ⟨i, hmem⟩
  rw [hnone] at hj
  cases hj

lemma firstUnprocessed_eq_some {a i : ℕ}
    (h : firstUnprocessed (data.map (·.withUnprocessed S)) = some (a, i)) :
    ∃ d q, data[a]? = some d ∧ d.encodings[i]? = some q ∧ S q = true ∧ q ∈ rows data := by
  obtain ⟨⟨d', a'⟩, hmem, hsome⟩ := exists_of_findSome?_eq_some h
  obtain ⟨i', hfirst, heq⟩ := map_eq_some_iff.mp hsome
  obtain ⟨rfl, rfl⟩ := Prod.mk.inj heq
  have hget := mem_zipIdx_iff_getElem?.mp hmem
  rw [getElem?_map] at hget
  obtain ⟨d, hd, rfl⟩ := map_eq_some_iff.mp hget
  obtain ⟨q, hq, hS⟩ := ArchData.mem_withUnprocessed.mp
    (mem_iterOneIndices.mp (mem_of_head? hfirst))
  exact ⟨d, q, hd, hq, hS, mem_flatMap.mpr ⟨d, mem_of_getElem? hd, mem_of_getElem? hq⟩⟩

lemma groupOf_withUnprocessed (matched : Bitmap) :
    groupOf matched (data.map (·.withUnprocessed S)) = groupOf matched data := by
  unfold groupOf
  rw [map_map]
  rfl

variable {row : FilterId → List FilterId}

/-- An iteration whose search succeeds. -/
lemma groupsLoop_of_some {n : ℕ} {arches : List ArchData} {a i fuel : ℕ}
    (h : firstUnprocessed arches = some (a, i)) (hd : arches[a]? = some d)
    (hp : d.encodings[i]? = some p) (hm : explore row (p.2.length + n) p.2.reverse ∅ = some m)
    (hrest : groupsLoop row n fuel (arches.map (·.markProcessed m)) = .ok groups) :
    groupsLoop row n (fuel + 1) arches = .ok (groupOf m arches :: groups) := by
  rw [groupsLoop, h]
  show (orPanic .indexOutOfBounds arches[a]? >>= _) = _
  rw [hd, orPanic_some, ok_bind, hp]
  show (orPanic .outOfFuel (explore row (p.2.length + n) p.2.reverse ∅) >>= _) = _
  rw [hm, orPanic_some, ok_bind, hrest]
  rfl

/-- The searches found the components of the encodings with `S`, one after the other. -/
structure Found (t : FilterTable) (all : List Row) (S : Row → Bool) (ms : List Bitmap) : Prop where
  isClass : ∀ m ∈ ms, ∃ p ∈ all, S p = true ∧
    ∀ q ∈ all, isMatched m q = true ↔ t.Chain all p q
  cover : ∀ q ∈ all, S q = true → ∃ m ∈ ms, isMatched m q = true
  disjoint : ms.Pairwise fun m m' => ∀ q ∈ all, isMatched m q = true → isMatched m' q = false

lemma Found.nil (h : firstUnprocessed (data.map (·.withUnprocessed S)) = none) (n fuel : ℕ) :
    ∃ ms, groupsLoop row n fuel (data.map (·.withUnprocessed S)) =
      .ok (ms.map fun m => groupOf m data) ∧ Found t (rows data) S ms := by
  refine ⟨[], by unfold groupsLoop; rw [h]; rfl, by simp, fun q hq hS => ?_, .nil⟩
  cases hS.symm.trans (firstUnprocessed_eq_none h q hq)

/-- The loop finds the class of one unprocessed encoding after the other. -/
lemma groupsLoop_spec {E : IndexedEncodings R} (h : Numbered E t (rows data))
    (hrow : ∀ j k, j ∈ row k ↔ ∃ k', t.Overlaps k' k ∧ j ∈ t.relatedAt k')
    (hne : ∀ p ∈ rows data, p.2 ≠ []) (fuel : ℕ) (hfuel : ((rows data).filter S).length ≤ fuel)
    (hclosed : ∀ p q, S p = true → t.Chain (rows data) p q → S q = true) :
    ∃ ms, groupsLoop row t.lookup.length fuel (data.map (·.withUnprocessed S)) =
        .ok (ms.map fun m => groupOf m data) ∧ Found t (rows data) S ms := by
  induction fuel generalizing S with
  | zero =>
    rcases hfirst : firstUnprocessed (data.map (·.withUnprocessed S)) with _ | ⟨a, i⟩
    · exact Found.nil hfirst _ 0
    obtain ⟨d, p, hd, hpi, hS, hp⟩ := firstUnprocessed_eq_some hfirst
    exact absurd (length_pos_of_mem (mem_filter.mpr ⟨hp, hS⟩)) (Nat.not_lt.mpr hfuel)
  | succ fuel ih =>
    rcases hfirst : firstUnprocessed (data.map (·.withUnprocessed S)) with _ | ⟨a, i⟩
    · exact Found.nil hfirst _ _
    obtain ⟨d, p, hd, hpi, hS, hp⟩ := firstUnprocessed_eq_some hfirst
    obtain ⟨k, hk⟩ := exists_mem_of_ne_nil _ (hne p hp)
    obtain ⟨m, hexplore, hm⟩ := exists_matched h hrow hp hk
    have hclass : ∀ q ∈ rows data, isMatched m q = true ↔
        t.Chain (rows data) p q :=
      fun q hq => isMatched_iff_chain h hrow hp hk hm hq
    have hpm : isMatched m p = true := (hclass p hp).mpr .refl
    have hlt := length_filter_lt_length_filter (p := fun q => S q && !isMatched m q)
      (fun q _ hq => (and_eq_true_iff.mp hq).1) hp hS (by simp [hpm])
    -- the rest is closed under chains, because the component of `p` is
    obtain ⟨ms, hok, hfound⟩ := ih (Nat.le_of_lt_succ (hlt.trans_le hfuel)) (by
        intro q r hq hchain
        obtain ⟨hSq, hqm⟩ := and_eq_true_iff.mp hq
        refine and_eq_true_iff.mpr ⟨hclosed q r hSq hchain, ?_⟩
        rcases Relation.ReflTransGen.cases_tail hchain with rfl | ⟨r', -, -, hr, -⟩
        · exact hqm
        rcases Relation.ReflTransGen.cases_head hchain with rfl | ⟨q', ⟨hqall, -, -⟩, -⟩
        · exact hqm
        by_contra hrm
        have hpr := (hclass r hr).mp (by simpa using hrm)
        have hpq := (hclass q hqall).mpr (hpr.trans hchain.symm)
        rw [hpq] at hqm
        nomatch hqm)
    refine ⟨m :: ms, ?_, ?_, ?_, ?_⟩
    · rw [map_cons, ← groupOf_withUnprocessed m]
      refine groupsLoop_of_some hfirst (d := d.withUnprocessed S) ?_ hpi hexplore ?_
      · rw [getElem?_map, hd]
        rfl
      · rw [map_map]
        convert hok using 2
        exact map_congr_left fun d _ => d.markProcessed_withUnprocessed S m
    · intro m' hm'
      rcases mem_cons.mp hm' with rfl | hm'
      · exact ⟨p, hp, hS, hclass⟩
      · obtain ⟨q, hq, hSq, hq'⟩ := hfound.isClass m' hm'
        exact ⟨q, hq, (and_eq_true_iff.mp hSq).1, hq'⟩
    · intro q hq hSq
      by_cases hqm : isMatched m q = true
      · exact ⟨m, mem_cons_self, hqm⟩
      · obtain ⟨m', hm', hqm'⟩ := hfound.cover q hq (by simp [hSq, hqm])
        exact ⟨m', .tail _ hm', hqm'⟩
    · refine .cons (fun m' hm' q hq hqm => ?_) hfound.disjoint
      obtain ⟨r, hr, hSr, hclass'⟩ := hfound.isClass m' hm'
      by_contra hqm'
      have hrq := (hclass' q hq).mp (by simpa using hqm')
      have hpr := ((hclass q hq).mp hqm).trans hrq.symm
      rw [(hclass r hr).mpr hpr, Bool.not_true, Bool.and_false] at hSr
      cases hSr

end loop

/-! ## The groups of one length -/

/-- The encodings of a group, of all architectures. -/
def EncodingGroup.ids (g : EncodingGroup) : List EncodingId := g.encodingsPerArch.flatten

/-- The encodings of a group that belong to an architecture. -/
def EncodingGroup.ofArch (g : EncodingGroup) (arch : ℕ) : List EncodingId :=
  g.encodingsPerArch[arch]?.getD []

/-- Encodings with overlapping filters. -/
def IndexedEncodings.Overlap (E : IndexedEncodings R) (x y : EncodingId) : Prop :=
  ∃ a b, E.encodings[x]? = some a ∧ E.encodings[y]? = some b ∧ a.overlapping b = true

/-- Encodings of one byte length. -/
def IndexedEncodings.SameLength (E : IndexedEncodings R) (x y : EncodingId) : Prop :=
  ∃ a b, E.encodings[x]? = some a ∧ E.encodings[y]? = some b ∧ a.byteLen = b.byteLen

/-- The groups list the encodings of each architecture under it, no encodings of one length in
different groups overlap, and the encodings of a group are linked by overlapping ones. -/
structure IsPartition (E : IndexedEncodings R) (arches : List (List EncodingId))
    (groups : List EncodingGroup) : Prop where
  length_eq : ∀ g ∈ groups, g.encodingsPerArch.length = arches.length
  perm : ∀ (a : ℕ) (ids : List EncodingId), arches[a]? = some ids →
    (groups.flatMap (·.ofArch a)).Perm ids
  apart : groups.Pairwise fun g h => ∀ x ∈ g.ids, ∀ y ∈ h.ids, E.SameLength x y → ¬ E.Overlap x y
  linked : ∀ g ∈ groups, ∀ x ∈ g.ids, ∀ y ∈ g.ids,
    Relation.ReflTransGen (fun u v => u ∈ g.ids ∧ v ∈ g.ids ∧ E.Overlap u v) x y

variable {E : IndexedEncodings R} {x : EncodingId} {data : List ArchData}

lemma len_eq_byteLen (he : E.encodings[x]? = some e) (hf : f ∈ e.filters) : f.len = e.byteLen := by
  obtain ⟨rng, hrng⟩ := e.filters_eq
  exact len_of_mem_filters hrng (E.wholeBytes e (mem_of_getElem? he)) hf

lemma byteLen_lt (e : EncodingWithFilters R) : e.byteLen < 16 :=
  Nat.lt_succ_of_le e.encoding.instr.length_le

lemma Numbered.encodingsOverlap_iff (h : Numbered E t all) (hp : p ∈ all) (hq : q ∈ all) :
    t.EncodingsOverlap p q ↔ E.SameLength p.1 q.1 ∧ E.Overlap p.1 q.1 := by
  constructor
  · rintro ⟨k, hk, k', hk', f, g, hf, hg, hfg, hov⟩
    obtain ⟨a, f', ha, hfa, hf'⟩ := h.exists_filterAt hp hk
    obtain ⟨b, g', hb, hgb, hg'⟩ := h.exists_filterAt hq hk'
    obtain rfl := mem_unique hf hf'
    obtain rfl := mem_unique hg hg'
    refine ⟨⟨a, b, ha, hb, ?_⟩, a, b, ha, hb, ?_⟩
    · rw [← len_eq_byteLen ha hfa, ← len_eq_byteLen hb hgb, hfg]
    · exact any_eq_true.mpr ⟨f, hfa, any_eq_true.mpr ⟨g, hgb, hov⟩⟩
  · rintro ⟨⟨a, b, ha, hb, hab⟩, a', b', ha', hb', hov⟩
    obtain rfl := mem_unique ha ha'
    obtain rfl := mem_unique hb hb'
    obtain ⟨f, hfa, hov⟩ := any_eq_true.mp hov
    obtain ⟨g, hgb, hov⟩ := any_eq_true.mp hov
    obtain ⟨k, hk, hf⟩ := h.exists_id hp ha hfa
    obtain ⟨k', hk', hg⟩ := h.exists_id hq hb hgb
    exact ⟨k, hk, k', hk', f, g, hf, hg, by rw [len_eq_byteLen ha hfa, len_eq_byteLen hb hgb, hab],
      hov⟩

lemma mem_ids_groupOf :
    x ∈ (groupOf m data).ids ↔ ∃ p ∈ rows data, isMatched m p = true ∧ p.1 = x := by
  unfold EncodingGroup.ids groupOf
  rw [mem_flatten]
  constructor
  · rintro ⟨l, hl, hx⟩
    obtain ⟨d, hd, rfl⟩ := mem_map.mp hl
    obtain ⟨p, hp, rfl⟩ := mem_map.mp hx
    obtain ⟨hp, hm⟩ := mem_filter.mp hp
    exact ⟨p, mem_flatMap.mpr ⟨d, hd, hp⟩, hm, rfl⟩
  · rintro ⟨p, hp, hm, rfl⟩
    obtain ⟨d, hd, hp⟩ := mem_flatMap.mp hp
    exact ⟨_, mem_map.mpr ⟨d, hd, rfl⟩, mem_map.mpr ⟨p, mem_filter.mpr ⟨hp, hm⟩, rfl⟩⟩

/-- The components found are a partition. -/
lemma Found.isPartition (h : Numbered E t (rows data))
    {ms : List Bitmap} (hfound : Found t (rows data) (fun _ => true) ms) :
    IsPartition E (data.map fun d => d.encodings.map (·.1)) (ms.map fun m => groupOf m data) := by
  refine ⟨fun g hg => ?_, fun a ids ha => ?_, ?_, fun g hg x hx y hy => ?_⟩
  · obtain ⟨m, -, rfl⟩ := mem_map.mp hg
    rw [groupOf, length_map, length_map]
  · rw [getElem?_map] at ha
    obtain ⟨d, hd, rfl⟩ := map_eq_some_iff.mp ha
    have hmem : ∀ q ∈ d.encodings, q ∈ rows data := fun q hq =>
      mem_flatMap.mpr ⟨d, mem_of_getElem? hd, hq⟩
    have hperm := flatten_filter_perm (ms.map isMatched) d.encodings (fun q hq => ?_) ?_
    · have hgroups : ((ms.map fun m => groupOf m data).flatMap (·.ofArch a)) =
          (((ms.map isMatched).map fun p => d.encodings.filter p).flatten).map (·.1) := by
        rw [map_flatten, flatMap_map, map_map, map_map]
        refine congrArg _ (map_congr_left fun m _ => ?_)
        rw [EncodingGroup.ofArch, groupOf, getElem?_map, hd]
        rfl
      rw [hgroups]
      exact hperm.map _
    · obtain ⟨m, hm, hq'⟩ := hfound.cover q (hmem q hq) rfl
      exact ⟨_, mem_map.mpr ⟨m, hm, rfl⟩, hq'⟩
    · exact pairwise_map.mpr (hfound.disjoint.imp fun hd q hq => hd q (hmem q hq))
  · refine pairwise_map.mpr (hfound.disjoint.imp_of_mem fun {m m'} hm hm' hdis => ?_)
    intro x hx y hy hlen hov
    obtain ⟨p, hp, hpm, rfl⟩ := mem_ids_groupOf.mp hx
    obtain ⟨q, hq, hqm, rfl⟩ := mem_ids_groupOf.mp hy
    obtain ⟨r, -, -, hclass⟩ := hfound.isClass m hm
    have hpq : t.EncodingsOverlap p q := (h.encodingsOverlap_iff hp hq).mpr ⟨hlen, hov⟩
    have hrq := ((hclass p hp).mp hpm).tail ⟨hp, hq, hpq⟩
    rw [hdis q hq ((hclass q hq).mpr hrq)] at hqm
    cases hqm
  · obtain ⟨m, hm, rfl⟩ := mem_map.mp hg
    obtain ⟨r, -, -, hclass⟩ := hfound.isClass m hm
    obtain ⟨p, hp, hpm, rfl⟩ := mem_ids_groupOf.mp hx
    obtain ⟨q, hq, hqm, rfl⟩ := mem_ids_groupOf.mp hy
    have hrp := (hclass p hp).mp hpm
    have hchain := hrp.symm.trans ((hclass q hq).mp hqm)
    clear hqm hy
    -- along the chain from `p`, each encoding is in the group
    induction hchain with
    | refl => exact .refl
    | @tail u v hpu huv ih =>
      obtain ⟨hu, hv, hov⟩ := huv
      have hum := (hclass u hu).mpr (hrp.trans hpu)
      have hvm := (hclass v hv).mpr ((hrp.trans hpu).tail ⟨hu, hv, hov⟩)
      exact (ih hu).tail ⟨mem_ids_groupOf.mpr ⟨u, hu, hum, rfl⟩,
        mem_ids_groupOf.mpr ⟨v, hv, hvm, rfl⟩, ((h.encodingsOverlap_iff hu hv).mp hov).2⟩

variable {arches : List (List EncodingId)}

lemma exists_groupsOfLength (orders : FilterId → SetOrder)
    (harches : ∀ ids ∈ arches, ∀ id ∈ ids, ∃ e, E.encodings[id]? = some e ∧ e.filters ≠ []) :
    ∃ groups, groupsOfLength orders E arches = .ok groups ∧ IsPartition E arches groups := by
  have hids : ∀ ids ∈ arches, ∀ id ∈ ids, id < E.encodings.length := by
    intro ids hids id hid
    obtain ⟨e, he, -⟩ := harches ids hids id hid
    exact lt_of_getElem? he
  obtain ⟨data, t, hdata, hfst, hunprocessed, hnum⟩ := (Numbered.nil E).exists_archesData hids
  have hshort : ∀ k f, t.filterAt k = some f → f.len < 16 := by
    intro k f hf
    obtain ⟨p, hp, hk⟩ := hnum.source k f hf
    obtain ⟨e, f', he, hfe, hf'⟩ := hnum.exists_filterAt hp hk
    obtain rfl := mem_unique hf hf'
    exact len_eq_byteLen he hfe ▸ byteLen_lt e
  have hne : ∀ p ∈ rows data, p.2 ≠ [] := by
    intro p hp
    obtain ⟨d, hd, hpd⟩ := mem_flatMap.mp hp
    have hmem : d.encodings.map (·.1) ∈ arches := hfst ▸ mem_map.mpr ⟨d, hd, rfl⟩
    obtain ⟨e, he, hfilters⟩ := harches _ hmem p.1 (mem_map_of_mem hpd)
    obtain ⟨f, hf⟩ := exists_mem_of_ne_nil _ hfilters
    obtain ⟨k, hk, -⟩ := hnum.exists_id hp he hf
    exact ne_nil_of_mem hk
  obtain ⟨indices, hindices, hmem⟩ := exists_indexGroups hshort
  have hstart : data = data.map (·.withUnprocessed fun _ => true) := by
    refine (map_id data).symm.trans (map_congr_left fun d hd => ?_)
    unfold ArchData.withUnprocessed
    rw [Finset.filter_true_of_mem fun i hi => ?_, ← hunprocessed d hd]
    · rfl
    · rw [getElem?_eq_getElem (Finset.mem_range.mp hi)]
      rfl
  have hfuel : ((rows data).filter fun _ => true).length ≤
      (arches.map (·.length)).sum := by
    rw [← hfst]
    simp [Function.comp_def]
  obtain ⟨ms, hok, hfound⟩ := groupsLoop_spec hnum
    (fun j k => mem_searchRow orders (fun a b => mem_filterOverlap hmem)) hne _ hfuel
    fun _ _ _ _ => rfl
  refine ⟨ms.map fun m => groupOf m data, ?_, hfst ▸ hfound.isPartition hnum⟩
  rw [groupsOfLength, hdata]
  show (indexGroups t.lookup >>= _) = _
  rw [← hstart] at hok
  rw [hindices]
  exact hok

/-! ## All lengths -/

/-- The byte length of an encoding. -/
def IndexedEncodings.byteLen (E : IndexedEncodings R) (id : EncodingId) : ℕ :=
  (E.encodings[id]?.map (·.byteLen)).getD 0

lemma lengthOf_eq {id : EncodingId} (he : E.encodings[id]? = some e) :
    lengthOf E id = .ok (E.byteLen id) := by
  have hbits : e.encoding.bits.length / 8 = e.byteLen := by
    rw [E.wholeBytes e (mem_of_getElem? he), Nat.mul_div_cancel_left _ (by omega)]
  rw [lengthOf, he, orPanic_some, ok_bind, hbits, if_pos (byteLen_lt e), IndexedEncodings.byteLen, he]
  rfl

/-- The encodings of each architecture that have a length. -/
def IndexedEncodings.bucket (E : IndexedEncodings R) (arches : List (List EncodingId)) (len : ℕ) :
    List (List EncodingId) :=
  arches.map fun ids => ids.filter fun id => E.byteLen id = len

lemma IsPartition.mem_arches (h : IsPartition E arches groups)
    {g : EncodingGroup} (hg : g ∈ groups) (hx : x ∈ g.ids) : ∃ ids ∈ arches, x ∈ ids := by
  obtain ⟨l, hl, hx⟩ := mem_flatten.mp hx
  obtain ⟨a, ha⟩ := mem_iff_getElem?.mp hl
  have hlt : a < arches.length := h.length_eq g hg ▸ (lt_of_getElem? ha)
  refine ⟨arches[a], getElem_mem hlt, ?_⟩
  rw [← (h.perm a _ (getElem?_eq_getElem hlt)).mem_iff, mem_flatMap]
  refine ⟨g, hg, ?_⟩
  rw [EncodingGroup.ofArch, ha]
  exact hx

/-- Partitions of the encodings of each length are one of all encodings. -/
lemma isPartition_flatten (hshort : ∀ ids ∈ arches, ∀ id ∈ ids, E.byteLen id < 16)
    {parts : List (List EncodingGroup)} (hlength : parts.length = 16)
    (hparts : ∀ (len : ℕ) (groups : List EncodingGroup), parts[len]? = some groups →
      IsPartition E (E.bucket arches len) groups) : IsPartition E arches parts.flatten := by
  have hpart : ∀ g ∈ parts.flatten, ∃ (len : ℕ) (groups : List EncodingGroup),
      parts[len]? = some groups ∧ g ∈ groups := by
    intro g hg
    obtain ⟨groups, hgroups, hg⟩ := mem_flatten.mp hg
    obtain ⟨len, hlen⟩ := mem_iff_getElem?.mp hgroups
    exact ⟨len, groups, hlen, hg⟩
  have hbyteLen : ∀ (len : ℕ) groups, parts[len]? = some groups →
      ∀ g ∈ groups, ∀ x ∈ g.ids, E.byteLen x = len := by
    intro len groups hlen g hg x hx
    obtain ⟨ids, hids, hx⟩ := (hparts len groups hlen).mem_arches hg hx
    obtain ⟨ids', -, rfl⟩ := mem_map.mp hids
    exact of_decide_eq_true (mem_filter.mp hx).2
  refine ⟨fun g hg => ?_, fun a ids ha => ?_, ?_, fun g hg => ?_⟩
  · obtain ⟨len, groups, hlen, hg⟩ := hpart g hg
    rw [(hparts len groups hlen).length_eq g hg, IndexedEncodings.bucket, length_map]
  · have hperm := flatten_groupsOf_perm E.byteLen (nodup_range) fun id hid =>
      mem_range.mpr (hshort ids (mem_of_getElem? ha) id hid)
    refine List.Perm.trans ?_ hperm
    rw [flatMap_def, map_flatten, flatten_flatten]
    apply List.Perm.flatten_congr
    rw [forall₂_iff_get]
    refine ⟨by simp [groupsOf, hlength], fun len hlen hlen' => ?_⟩
    have hlt : len < parts.length := by simpa using hlen
    have hget := (hparts len _ (getElem?_eq_getElem hlt)).perm a
      (ids.filter fun id => E.byteLen id = len)
      (by rw [IndexedEncodings.bucket, getElem?_map, ha]; rfl)
    simpa [groupsOf, flatMap_def] using hget
  · rw [pairwise_flatten]
    constructor
    · intro groups hgroups
      obtain ⟨len, hlen⟩ := mem_iff_getElem?.mp hgroups
      exact (hparts len groups hlen).apart
    · rw [pairwise_iff_getElem]
      intro i j hi hj hij g hg h hh x hx y hy hsame
      obtain ⟨a, b, ha, hb, hab⟩ := hsame
      have hx := hbyteLen i _ (getElem?_eq_getElem hi) g hg x hx
      have hy := hbyteLen j _ (getElem?_eq_getElem hj) h hh y hy
      rw [IndexedEncodings.byteLen, ha] at hx
      rw [IndexedEncodings.byteLen, hb] at hy
      exact absurd (hx.symm.trans (hab.trans hy)) hij.ne
  · obtain ⟨len, groups, hlen, hg⟩ := hpart g hg
    exact (hparts len groups hlen).linked g hg

/-- Cross-architecture grouping returns a partition into the components of the overlap of encodings
of one length. -/
theorem computeFromArches_isPartition (orders : ℕ → FilterId → SetOrder) (E : IndexedEncodings R)
    (arches : List (List EncodingId))
    (harches : ∀ ids ∈ arches, ∀ id ∈ ids, ∃ e, E.encodings[id]? = some e ∧ e.filters ≠ []) :
    ∃ groups, computeFromArches orders E arches = .ok groups ∧ IsPartition E arches groups := by
  have hlength : ∀ ids ∈ arches, ids.mapM (fun id => do return (id, ← lengthOf E id)) =
      (.ok (ids.map fun id => (id, E.byteLen id)) : Partial (List (EncodingId × ℕ))) := by
    intro ids hids
    refine mapM_eq_ok_map fun id hid => ?_
    obtain ⟨e, he, -⟩ := harches ids hids id hid
    rw [lengthOf_eq he]
    rfl
  have hbuckets : ((range 16).map fun len =>
      (arches.map fun ids => ids.map fun id => (id, E.byteLen id)).map fun ids =>
        (ids.filter (·.2 = len)).map (·.1)) = (range 16).map (E.bucket arches) := by
    refine map_congr_left fun len _ => ?_
    rw [map_map]
    refine map_congr_left fun ids _ => ?_
    rw [Function.comp_apply, filter_map, map_map]
    exact map_id _
  obtain ⟨parts, hok, hall⟩ := exists_mapM_eq_ok
    (l := ((range 16).map (E.bucket arches)).zipIdx)
    (R := fun p groups => IsPartition E p.1 groups) (fun p hp => by
      apply exists_groupsOfLength
      intro ids hids id hid
      obtain ⟨len, -, hlen⟩ := mem_map.mp (mem_of_getElem? (mem_zipIdx_iff_getElem?.mp hp))
      rw [← hlen] at hids
      obtain ⟨ids', hids', rfl⟩ := mem_map.mp hids
      exact harches ids' hids' id (mem_filter.mp hid).1)
  have hlen16 : parts.length = 16 := by
    rw [← hall.length_eq, length_zipIdx, length_map, length_range]
  refine ⟨parts.flatten, ?_, isPartition_flatten (fun ids hids id hid => ?_) hlen16
    fun len groups hlen => ?_⟩
  · rw [computeFromArches, mapM_eq_ok_map hlength, ok_bind]
    show ((((range 16).map fun len => (arches.map fun ids => ids.map fun id =>
      (id, E.byteLen id)).map fun ids => (ids.filter (·.2 = len)).map (·.1)).zipIdx.mapM _ >>= _) = _)
    rw [hbuckets, hok]
    rfl
  · obtain ⟨e, he, -⟩ := harches ids hids id hid
    rw [IndexedEncodings.byteLen, he]
    exact byteLen_lt e
  · obtain ⟨hlt, rfl⟩ := List.getElem?_eq_some_iff.mp hlen
    have hget := hall.get (hall.length_eq ▸ hlt) hlt
    simpa using hget

/-- The bytes zero for two architectures, two bytes zero for one. -/
theorem computeFromArches_zero :
    (∀ ids ∈ [[0, 1], [0]], ∀ id ∈ ids,
        ∃ e, [zeroByte, twoZeroBytes][id]? = some e ∧ e.filters ≠ []) ∧
      ∃ groups, computeFromArches (fun _ _ => ⟨iterOneIndices, fun _ _ => mem_iterOneIndices⟩)
        ⟨[zeroByte, twoZeroBytes], wholeBytes_zero⟩ [[0, 1], [0]] = .ok groups ∧
        IsPartition ⟨[zeroByte, twoZeroBytes], wholeBytes_zero⟩ [[0, 1], [0]] groups := by
  have h : ∀ ids ∈ [[0, 1], [0]], ∀ id ∈ ids,
      ∃ e, [zeroByte, twoZeroBytes][id]? = some e ∧ e.filters ≠ [] := by
    intro ids hids id hid
    have hid' : id = 0 ∨ id = 1 := by
      rcases mem_cons.mp hids with rfl | hids
      · simpa using hid
      · obtain rfl := mem_singleton.mp hids
        exact Or.inl (mem_singleton.mp hid)
    rcases hid' with rfl | rfl
    · exact ⟨zeroByte, rfl, by simp [zeroByte]⟩
    · exact ⟨twoZeroBytes, rfl, by simp [twoZeroBytes]⟩
  exact ⟨h, computeFromArches_isPartition _ _ _ h⟩

end LibLisa.Compare
