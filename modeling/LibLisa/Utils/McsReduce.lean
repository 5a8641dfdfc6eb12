import LibLisa.Lib.HittingSet
import LibLisa.Utils.Mcs

/-!
# Preprocessing keeps an optimum

Each step of the loop of `find_best_decisions` is a reduction of the family of decisions: deciding
the decisions with a single choice, dropping those that contain another one, and removing the
choices that only one decision has (`reduceStep_spec`). Whatever is modified makes the family
smaller, so the loop ends (`reduceLoop_spec`).
-/

namespace LibLisa.Mcs

open Lib List

/-! ## Bitmaps and lists -/

variable {i : ℕ} {m : Bitmap}

@[simp] lemma mem_iterOneIndices : i ∈ iterOneIndices m ↔ i ∈ m :=
  Finset.mem_sort _

lemma exists_firstBitSet (h : m.Nonempty) : ∃ i ∈ m, firstBitSet m = some i := by
  unfold firstBitSet
  cases hl : iterOneIndices m with
  | nil =>
    obtain ⟨i, hi⟩ := h
    rw [← mem_iterOneIndices, hl] at hi
    cases hi
  | cons i l =>
    refine ⟨i, ?_, rfl⟩
    rw [← mem_iterOneIndices, hl]
    exact (.head _)

section Dedup

variable {α : Type} [DecidableEq α]

lemma dedup_cons_cons (a b : α) (l : List α) :
    dedup (a :: b :: l) = if a = b then dedup (a :: l) else a :: dedup (b :: l) := by
  rw [dedup]

lemma dedup_sublist (l : List α) : (dedup l).Sublist l := by
  induction l using dedup.induct with
  | case1 => rw [dedup]
  | case2 a => rw [dedup]
  | case3 a l ih =>
    rw [dedup_cons_cons, if_pos rfl]
    exact ih.trans (sublist_cons_self a (a :: l))
  | case4 a b l hne ih =>
    rw [dedup_cons_cons, if_neg hne]
    exact ih.cons_cons a

@[simp] lemma mem_dedup {l : List α} {a : α} : a ∈ dedup l ↔ a ∈ l := by
  induction l using dedup.induct with
  | case1 => rw [dedup]
  | case2 b => rw [dedup]
  | case3 b l ih =>
    rw [dedup_cons_cons, if_pos rfl, ih]
    simp
  | case4 b c l hne ih =>
    rw [dedup_cons_cons, if_neg hne, mem_cons, ih]
    simp only [mem_cons]

end Dedup

/-! ## Deciding single choices -/

/-- The decisions with a single choice are decided, the others are kept. -/
lemma decideSingles_spec (decided : Bitmap) (ms : List Bitmap) :
    ∃ decided', decideSingles decided ms = .ok ⟨decided', ms.filter (·.card ≠ 1)⟩ ∧
      ∀ x, x ∈ decided' ↔ x ∈ decided ∨ {x} ∈ ms := by
  induction ms generalizing decided with
  | nil => exact ⟨decided, rfl, by simp⟩
  | cons m ms ih =>
    by_cases hm : m.card = 1
    · obtain ⟨i, rfl⟩ := Finset.card_eq_one.mp hm
      obtain ⟨decided', hrest, hmem⟩ := ih (insert i decided)
      refine ⟨decided', ?_, fun x => ?_⟩
      · obtain ⟨j, hj, hfirst⟩ := exists_firstBitSet (Finset.singleton_nonempty i)
        rw [Finset.mem_singleton] at hj
        rw [decideSingles, hfirst, orPanic_some, ok_bind, hj, hrest]
        simp
      · rw [hmem, Finset.mem_insert, mem_cons, Finset.singleton_inj]
        tauto
    · obtain ⟨decided', hrest, hmem⟩ := ih decided
      refine ⟨decided', ?_, fun x => ?_⟩
      · rw [decideSingles, if_neg hm, hrest, filter_cons_of_pos (by simpa using hm)]
        rfl
      · have hne : ({x}) ≠ m := by
          rintro rfl
          exact hm (Finset.card_singleton x)
        rw [hmem]
        simp [hne]

/-! ## Dropping supersets -/

variable {ds : List Bitmap}

lemma hits_eraseIdx {d : Bitmap} (hd : ds[i]? = some d) (h : ∃ d' ∈ ds.eraseIdx i, d' ⊆ d)
    (H : Finset ℕ) : Hits (ds.eraseIdx i) H ↔ Hits ds H := by
  obtain ⟨hlt, rfl⟩ := List.getElem?_eq_some_iff.mp hd
  obtain ⟨d', hd', hsub⟩ := h
  simp only [Hits, ← (getElem_cons_eraseIdx_perm hlt).mem_iff, forall_mem_cons]
  refine (and_iff_right_of_imp fun hH => ?_).symm
  obtain ⟨x, hx, hxH⟩ := hH d' hd'
  exact ⟨x, hsub hx, hxH⟩

lemma removeSuperset_spec (hi : i < ds.length) :
    ∃ ds', removeSuperset ds i = .ok ds' ∧ ds'.Sublist ds ∧ i ≤ ds'.length ∧
      ∀ H, Hits ds' H ↔ Hits ds H := by
  have hget : ds[i]? = some ds[i] := getElem?_eq_getElem hi
  unfold removeSuperset
  rw [hget]
  refine ⟨_, rfl, ?_⟩
  split
  · rename_i h
    rw [← eraseIdx_eq_take_drop_succ, any_eq_true] at h
    obtain ⟨d', hd', hsub⟩ := h
    refine ⟨eraseIdx_sublist ds i, ?_, hits_eraseIdx hget ⟨d', hd', of_decide_eq_true hsub⟩⟩
    rw [length_eraseIdx_of_lt hi]
    omega
  · exact ⟨List.Sublist.refl _, hi.le, fun _ => Iff.rfl⟩

lemma removeSupersets_spec (n : ℕ) (hn : n ≤ ds.length) :
    ∃ ds', (range n).reverse.foldlM removeSuperset ds = .ok ds' ∧ ds'.Sublist ds ∧
      ∀ H, Hits ds' H ↔ Hits ds H := by
  induction n generalizing ds with
  | zero => exact ⟨ds, rfl, List.Sublist.refl _, fun _ => Iff.rfl⟩
  | succ n ih =>
    obtain ⟨ds₁, h₁, hsub₁, hlen, hhits₁⟩ := removeSuperset_spec (Nat.lt_of_succ_le hn)
    obtain ⟨ds₂, h₂, hsub₂, hhits₂⟩ := ih hlen
    refine ⟨ds₂, ?_, hsub₂.trans hsub₁, fun H => (hhits₂ H).trans (hhits₁ H)⟩
    rw [range_succ, reverse_append, reverse_singleton, singleton_append,
      foldlM_cons, h₁, ok_bind, h₂]

/-! ## Removing choices -/

lemma count_cons (d : Bitmap) (ds : List Bitmap) (x : ℕ) :
    count (d :: ds) x = (if x ∈ d then 1 else 0) + count ds x := by
  unfold count
  by_cases hx : x ∈ d
  · rw [filter_cons_of_pos (by simpa using hx), if_pos hx, length_cons, Nat.add_comm]
  · rw [filter_cons_of_neg (by simpa using hx), if_neg hx, Nat.zero_add]

/-- How a decision is cleared: it loses bad choices only, and keeps one. -/
structure Cleared (mask d d' : Bitmap) : Prop where
  subset : d' ⊆ d
  nonempty : d'.Nonempty
  inter_subset : d ∩ mask ⊆ d'

variable {ds' : List Bitmap}

/-- A choice of a single decision can be replaced by one that this decision keeps. -/
lemma exists_replacement_of_count_le_one {mask : Bitmap} (h : List.Forall₂ (Cleared mask) ds ds')
    {x : ℕ} (hx : count ds x ≤ 1) : ∃ y, List.Forall₂ (fun d d' => x ∈ d → y ∈ d') ds ds' := by
  have hnone : ∀ {ds ds' : List Bitmap} y, List.Forall₂ (Cleared mask) ds ds' →
      count ds x = 0 → List.Forall₂ (fun d d' => x ∈ d → y ∈ d') ds ds' := by
    intro ds ds' y h hcount
    induction h with
    | nil => exact .nil
    | cons hd _ ih =>
      rw [count_cons] at hcount
      obtain ⟨hd0, hrest⟩ := Nat.add_eq_zero_iff.mp hcount
      exact .cons (fun hxd => absurd hd0 (by rw [if_pos hxd]; decide)) (ih hrest)
  induction h with
  | nil => exact ⟨0, .nil⟩
  | @cons d d' ds ds' hd hrest ih =>
    rw [count_cons] at hx
    by_cases hxd : x ∈ d
    · rw [if_pos hxd] at hx
      obtain ⟨y, hy⟩ := hd.nonempty
      exact ⟨y, .cons (fun _ => hy) (hnone y hrest (by omega))⟩
    · rw [if_neg hxd] at hx
      obtain ⟨y, hy⟩ := ih (by omega)
      exact ⟨y, .cons (fun h => absurd h hxd) hy⟩

variable {numChoices : ℕ} {r : Reduction}

lemma exists_replacement (hbound : ∀ d ∈ ds, ∀ x ∈ d, x < numChoices)
    (h : List.Forall₂ (Cleared ((Finset.range numChoices).filter fun n => count ds n ≠ 1)) ds ds')
    (x : ℕ) : ∃ y, List.Forall₂ (fun d d' => x ∈ d → y ∈ d') ds ds' := by
  by_cases hx : count ds x = 1
  · exact exists_replacement_of_count_le_one h hx.le
  · refine ⟨x, forall₂_iff_get.mpr ⟨h.length_eq, fun i hi hi' hxd => ?_⟩⟩
    have hcleared := (forall₂_iff_get.mp h).2 i hi hi'
    have hlt := hbound _ (get_mem ds ⟨i, hi⟩) x hxd
    refine hcleared.inter_subset (Finset.mem_inter.mpr ⟨hxd, ?_⟩)
    exact Finset.mem_filter.mpr ⟨Finset.mem_range.mpr hlt, hx⟩

/-- The size that the loop makes smaller. -/
def size (ds : List Bitmap) : ℕ := (ds.map fun d => d.card + 1).sum

lemma size_cons (d : Bitmap) (ds : List Bitmap) : size (d :: ds) = d.card + 1 + size ds := by
  unfold size
  rw [map_cons, sum_cons]

lemma size_add_length_le_of_sublist (h : ds'.Sublist ds) :
    size ds' + (ds.length - ds'.length) ≤ size ds := by
  induction h with
  | slnil => simp
  | cons d hsub ih =>
    rw [size_cons, length_cons]
    omega
  | cons_cons d hsub ih =>
    rw [size_cons, size_cons, length_cons, length_cons]
    omega

lemma clearDecisions_spec (mask : Bitmap) (modified : Bool) (hcard : ∀ d ∈ ds, 2 ≤ d.card) :
    ∃ modified' ds', clearDecisions mask modified ds = .ok (modified', ds') ∧
      List.Forall₂ (Cleared mask) ds ds' ∧ size ds' ≤ size ds ∧
      (modified' = true → modified = true ∨ size ds' < size ds) := by
  induction ds generalizing modified with
  | nil => exact ⟨modified, [], rfl, .nil, le_rfl, .inl⟩
  | cons d ds ih =>
    obtain ⟨hd, hds⟩ := forall_mem_cons.mp hcard
    obtain ⟨first, hfirst, hset⟩ := exists_firstBitSet (m := d) (Finset.card_pos.mp (by omega))
    have hne : d ≠ ∅ := by
      rintro rfl
      exact absurd hfirst (Finset.notMem_empty _)
    obtain ⟨modified', ds', hrest, hall, hsize, hmodified⟩ :=
      ih (modified || decide (d ∩ mask ≠ d)) hds
    -- a decision that loses all its choices has lost one
    have hclear : ∃ d', (if (modified || decide (d ∩ mask ≠ d)) = true ∧ d ∩ mask = ∅ then {first}
        else d ∩ mask) = d' ∧ Cleared mask d d' ∧ (d ∩ mask ≠ d → d'.card < d.card) := by
      by_cases hempty : d ∩ mask = ∅
      · have hchanged : d ∩ mask ≠ d := by
          rw [hempty]
          exact hne.symm
        refine ⟨{first}, if_pos ⟨by simp [hchanged], hempty⟩,
          ⟨Finset.singleton_subset_iff.mpr hfirst, Finset.singleton_nonempty _, ?_⟩, fun _ => ?_⟩
        · rw [hempty]
          exact Finset.empty_subset _
        · rw [Finset.card_singleton]
          omega
      · refine ⟨d ∩ mask, if_neg fun h => hempty h.2, ⟨Finset.inter_subset_left,
          Finset.nonempty_iff_ne_empty.mpr hempty, subset_rfl⟩, fun hchanged => ?_⟩
        exact Finset.card_lt_card (Finset.inter_subset_left.ssubset_of_ne hchanged)
    obtain ⟨d', hd', hcleared, hlt⟩ := hclear
    have hle := Finset.card_le_card hcleared.subset
    refine ⟨modified', d' :: ds', ?_, .cons hcleared hall, ?_, fun hm => ?_⟩
    · rw [clearDecisions, hset, orPanic_some, ok_bind]
      simp only [hrest, hd']
      rfl
    · rw [size_cons, size_cons]
      omega
    · rw [size_cons, size_cons]
      rcases hmodified hm with hm | hlt'
      · rw [Bool.or_eq_true, decide_eq_true_eq] at hm
        rcases hm with hm | hchanged
        · exact .inl hm
        · have := hlt hchanged
          exact .inr (by omega)
      · exact .inr (by omega)

/-! ## The loop -/

/-- What the loop maintains: the decisions left over are a reduction of the given ones. -/
structure Reduced (numChoices : ℕ) (ds : List Bitmap) (r : Reduction) : Prop where
  reduces : Reduces ds r.decided r.decisions
  nonempty : ∀ d ∈ r.decisions, d.Nonempty
  bound : ∀ d ∈ r.decisions, ∀ x ∈ d, x < numChoices
  decided_bound : ∀ x ∈ r.decided, x < numChoices

/-- The only choices of their decisions are made, and the decisions that they meet are dropped. -/
lemma Reduced.decide_singles (h : Reduced numChoices ds r) {decided : Bitmap}
    (hdecided : ∀ x, x ∈ decided ↔ x ∈ r.decided ∨ {x} ∈ r.decisions) {rest : List Bitmap}
    (hrest : ∀ d, d ∈ rest ↔ (d ∈ r.decisions ∧ d.card ≠ 1) ∧ decided ∩ d = ∅) :
    Reduces ds decided rest := by
  refine h.reduces.commit (fun x hx => (hdecided x).mpr (.inl hx)) ?_ ?_ ?_
  · intro H hH x hx
    rcases (hdecided x).mp hx with hx | hx
    · exact Finset.mem_union_left _ hx
    · obtain ⟨y, hy, hyH⟩ := hH _ hx
      rw [Finset.mem_singleton] at hy
      exact Finset.mem_union_right _ (hy ▸ hyH)
  · intro d hd
    by_cases hdisj : decided ∩ d = ∅
    · by_cases hcard : d.card = 1
      · obtain ⟨x, rfl⟩ := Finset.card_eq_one.mp hcard
        exact .inr ⟨x, Finset.mem_singleton_self x, (hdecided x).mpr (.inr hd)⟩
      · exact .inl ((hrest d).mpr ⟨⟨hd, hcard⟩, hdisj⟩)
    · obtain ⟨x, hx⟩ := Finset.nonempty_iff_ne_empty.mpr hdisj
      rw [Finset.mem_inter] at hx
      exact .inr ⟨x, hx.2, hx.1⟩
  · intro d hd
    obtain ⟨⟨hd, _⟩, hdisj⟩ := (hrest d).mp hd
    exact ⟨hd, Finset.disjoint_iff_inter_eq_empty.mpr hdisj⟩

/-- A step keeps the minima, and makes the decisions smaller if it changes them. -/
lemma reduceStep_spec (h : Reduced numChoices ds r) :
    ∃ modified r', reduceStep numChoices r = .ok (modified, r') ∧ Reduced numChoices ds r' ∧
      (modified = true → size r'.decisions < size r.decisions) := by
  obtain ⟨decided, hsingles, hdecided⟩ := decideSingles_spec r.decided (dedup r.decisions)
  have hmemSingle : ∀ x, x ∈ decided ↔ x ∈ r.decided ∨ {x} ∈ r.decisions := fun x => by
    rw [hdecided, mem_dedup]
  have hdecidedBound : ∀ x ∈ decided, x < numChoices := by
    intro x hx
    rcases (hmemSingle x).mp hx with hx | hx
    · exact h.decided_bound x hx
    · exact h.bound _ hx x (Finset.mem_singleton_self x)
  -- after the single choices
  set kept := (dedup r.decisions).filter (·.card ≠ 1)
  have hkept : kept.Sublist r.decisions := filter_sublist.trans (dedup_sublist _)
  set open_ := kept.filter fun m => decided ∩ m = ∅
  have hmemOpen : ∀ d, d ∈ open_ ↔ (d ∈ r.decisions ∧ d.card ≠ 1) ∧ decided ∩ d = ∅ := by
    intro d
    rw [mem_filter, mem_filter, mem_dedup, decide_eq_true_eq, decide_eq_true_eq]
  have hcommit : Reduces ds decided open_ := h.decide_singles hmemSingle hmemOpen
  -- after the supersets
  obtain ⟨minimal, hsupersets, hminimal, hhits⟩ := removeSupersets_spec open_.length le_rfl
  have hsub : minimal.Sublist r.decisions := (hminimal.trans filter_sublist).trans hkept
  have hbound : ∀ d ∈ minimal, ∀ x ∈ d, x < numChoices := fun d hd =>
    h.bound d (hsub.subset hd)
  have hcard : ∀ d ∈ minimal, 2 ≤ d.card := by
    intro d hd
    obtain ⟨⟨hd, hne⟩, _⟩ := (hmemOpen d).mp (hminimal.subset hd)
    have := Finset.card_pos.mpr (h.nonempty d hd)
    omega
  have hmask : removalMask minimal numChoices =
      .ok ((Finset.range numChoices).filter fun n => count minimal n ≠ 1) := by
    refine if_neg fun hany => ?_
    obtain ⟨d, hd, hx⟩ := any_eq_true.mp hany
    obtain ⟨x, hx, hge⟩ := of_decide_eq_true hx
    exact absurd (hbound d hd x hx) (Nat.not_lt.mpr hge)
  -- after the bad choices
  obtain ⟨modified, cleared, hclear, hall, hsize, hmodified⟩ := clearDecisions_spec
    ((Finset.range numChoices).filter fun n => count minimal n ≠ 1)
    (decide (r.decisions.length ≠ kept.length)) hcard
  have hmemCleared : ∀ d' ∈ cleared, ∃ d ∈ minimal, d' ⊆ d ∧ d'.Nonempty := by
    intro d' hd'
    obtain ⟨d, hd, hcl⟩ := exists_of_forall₂_of_mem hall hd'
    exact ⟨d, hd, hcl.subset, hcl.nonempty⟩
  refine ⟨modified, ⟨decided, cleared⟩, ?_, ⟨?_, ?_, ?_, hdecidedBound⟩, fun hm => ?_⟩
  · unfold reduceStep
    rw [hsingles]
    change ((range open_.length).reverse.foldlM removeSuperset open_ >>= fun decisions =>
      removalMask decisions numChoices >>= fun mask =>
      clearDecisions mask (decide (r.decisions.length ≠ kept.length)) decisions >>= fun x =>
      .ok (x.1, (⟨decided, x.2⟩ : Reduction))) = _
    rw [hsupersets, ok_bind, hmask, ok_bind, hclear, ok_bind]
  · exact (hcommit.congr hhits).shrink (hall.imp fun _ _ hcl => hcl.subset)
      (exists_replacement hbound hall)
  · intro d' hd'
    obtain ⟨_, _, _, hne⟩ := hmemCleared d' hd'
    exact hne
  · intro d' hd' x hx
    obtain ⟨d, hd, hsubset, _⟩ := hmemCleared d' hd'
    exact hbound d hd x (hsubset hx)
  · have hle := size_add_length_le_of_sublist hsub
    have hlen := hminimal.length_le.trans (length_filter_le _ kept)
    rcases hmodified hm with hm | hlt
    · have hne : r.decisions.length ≠ kept.length := of_decide_eq_true hm
      have := hkept.length_le
      change size cleared < _
      omega
    · change size cleared < _
      omega

/-- The loop ends, with a reduction of the given decisions. -/
theorem reduceLoop_spec {fuel : ℕ} (h : Reduced numChoices ds r) (hfuel : size r.decisions < fuel) :
    ∃ r', reduceLoop numChoices fuel r = .ok r' ∧ Reduced numChoices ds r' := by
  induction fuel generalizing r with
  | zero => exact absurd hfuel (Nat.not_lt_zero _)
  | succ fuel ih =>
    obtain ⟨modified, r', hstep, hr', hsize⟩ := reduceStep_spec h
    rw [reduceLoop, hstep]
    cases modified with
    | false => exact ⟨r', rfl, hr'⟩
    | true =>
      have hlt := hsize rfl
      exact ih hr' (by omega)

end LibLisa.Mcs
