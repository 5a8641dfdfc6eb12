import LibLisa.Utils.McsReduce
import LibLisa.Utils.McsSearch

/-!
# The covering set is a minimum

`Bfs::run` is given a bound by a random solution, which meets every decision and is therefore not
smaller than the first minimum (`findBestRandomSolution_spec`); the choices that `Bfs::new` filters
out are dominated by others (`exists_keepChoices`). Its result is a minimum for the reduced decisions
in the new numbers (`run_spec`), hence in the original ones (`searchReduced_spec`), and together with
the decided choices a minimum for all decisions (`MinimumCoveringSet.of_spec`).
-/

namespace LibLisa.Mcs

open Lib List Bfs Function

/-! ## The choices of the search -/

lemma keepChoices_sublist (choices : List Choice) (seen : List Bitmap) :
    (keepChoices choices seen).Sublist choices := by
  induction choices generalizing seen with
  | nil => exact List.Sublist.refl _
  | cons choice choices ih =>
    rw [keepChoices]
    split
    · exact (ih seen).cons choice
    · exact (ih _).cons_cons choice

variable {choice : Choice}

/-- Every choice is dominated by one that is kept. -/
theorem exists_keepChoices {choices : List Choice} (seen : List Bitmap)
    (hchoice : choice ∈ choices) :
    (∃ m ∈ seen, m ⊆ choice.eliminationMap) ∨
      ∃ kept ∈ keepChoices choices seen, kept.eliminationMap ⊆ choice.eliminationMap := by
  induction choices generalizing seen with
  | nil => cases hchoice
  | cons first choices ih =>
    rw [keepChoices]
    split
    · rename_i hskip
      rcases mem_cons.mp hchoice with rfl | hchoice
      · left
        rw [Bool.or_eq_true, any_eq_true, decide_eq_true_eq] at hskip
        rcases hskip with ⟨m, hm, hsub⟩ | hmem
        · exact ⟨m, hm, of_decide_eq_true hsub⟩
        · exact ⟨_, hmem, subset_rfl⟩
      · exact ih seen hchoice
    · rcases mem_cons.mp hchoice with rfl | hchoice
      · exact .inr ⟨choice, mem_cons_self, subset_rfl⟩
      · rcases ih (first.eliminationMap :: seen) hchoice with ⟨m, hm, hsub⟩ | ⟨k, hk, hsub⟩
        · rcases mem_cons.mp hm with rfl | hm
          · exact .inr ⟨first, mem_cons_self, hsub⟩
          · exact .inl ⟨m, hm, hsub⟩
        · exact .inr ⟨k, .tail _ hk, hsub⟩

lemma mem_eliminationMap {decisions : List Decision} {choice i : ℕ} :
    i ∈ eliminationMap decisions choice ↔ ∃ d, decisions[i]? = some d ∧ choice ∉ d.map := by
  unfold eliminationMap Decision.contains
  rw [Finset.mem_filter, Finset.mem_range]
  constructor
  · rintro ⟨hlt, h⟩
    have hget := getElem?_eq_getElem hlt
    exact ⟨_, hget, of_decide_eq_false (h _ hget)⟩
  · rintro ⟨d, hget, hd⟩
    refine ⟨(lt_of_getElem? hget), fun d' hd' => ?_⟩
    obtain rfl := Option.mem_unique hget hd'
    exact decide_eq_false hd

/-- The decisions of a search: not empty, and over the given choices. -/
structure ValidDecisions (decisions : List Decision) (numChoices : ℕ) : Prop where
  map_eq : ∀ d ∈ decisions, d.map = d.nums.toFinset
  nonempty : ∀ d ∈ decisions, d.nums ≠ []
  bound : ∀ d ∈ decisions, ∀ x ∈ d.nums, x < numChoices

section Run

variable {decisions : List Decision} {numChoices : ℕ}

/-- The set meets every decision. -/
def Meets (decisions : List Decision) (T : Finset ℕ) : Prop := ∀ d ∈ decisions, ∃ x ∈ d.nums, x ∈ T

/-- The elimination maps of the choices that the search uses. -/
def keptMaps (decisions : List Decision) (numChoices : ℕ) : List Bitmap :=
  (Bfs.new decisions numChoices).choiceEliminationMaps.map (·.eliminationMap)

lemma originalIndex_of_kept (h : choice ∈ (new decisions numChoices).choiceEliminationMaps) :
    choice.originalIndex < numChoices ∧
      choice.eliminationMap = eliminationMap decisions choice.originalIndex := by
  have hmem := (keepChoices_sublist _ _).subset h
  obtain ⟨c, hc, rfl⟩ := mem_map.mp hmem
  exact ⟨mem_range.mp hc, rfl⟩

lemma exists_kept (decisions : List Decision) {c : ℕ} (hc : c < numChoices) :
    ∃ (j : ℕ) (m : Bitmap), (keptMaps decisions numChoices)[j]? = some m ∧
      m ⊆ eliminationMap decisions c := by
  have hmem : (⟨c, eliminationMap decisions c⟩ : Choice) ∈ (range numChoices).map fun choice =>
      (⟨choice, eliminationMap decisions choice⟩) :=
    mem_map.mpr ⟨c, mem_range.mpr hc, rfl⟩
  rcases exists_keepChoices [] hmem with ⟨m, hm, _⟩ | ⟨kept, hkept, hsub⟩
  · cases hm
  · have hmap : kept.eliminationMap ∈ keptMaps decisions numChoices :=
      mem_map.mpr ⟨kept, hkept, rfl⟩
    obtain ⟨j, hj⟩ := mem_iff_getElem?.mp hmap
    exact ⟨j, _, hj, hsub⟩

section

variable (hvalid : ValidDecisions decisions numChoices)
include hvalid

/-- A set that meets every decision gives a cover that is not larger. -/
lemma exists_covers {T : Finset ℕ} (hT : Meets decisions T) :
    ∃ S, Covers (Finset.range decisions.length) (keptMaps decisions numChoices) S ∧
      S.card ≤ T.card := by
  choose j m hj hsub using fun c : {c // c < numChoices} => exists_kept decisions c.2
  let f : ℕ → ℕ := fun c => if h : c < numChoices then j ⟨c, h⟩ else 0
  refine ⟨(T.filter (· < numChoices)).image f, ⟨?_, ?_⟩, ?_⟩
  · intro i hi
    obtain ⟨c, hc, rfl⟩ := Finset.mem_image.mp hi
    have hlt := (Finset.mem_filter.mp hc).2
    rw [Finset.mem_range]
    change (if h : c < numChoices then j ⟨c, h⟩ else 0) < _
    rw [dif_pos hlt]
    exact (List.getElem?_eq_some_iff.mp (hj ⟨c, hlt⟩)).1
  · refine Finset.eq_empty_of_forall_notMem fun i hi => ?_
    obtain ⟨hrange, hopen⟩ := mem_remaining.mp hi
    have hget := getElem?_eq_getElem (Finset.mem_range.mp hrange)
    have hd := mem_of_getElem? hget
    obtain ⟨x, hx, hxT⟩ := hT _ hd
    have hlt := hvalid.bound _ hd x hx
    have hmem := hopen (f x) (Finset.mem_image_of_mem f (Finset.mem_filter.mpr ⟨hxT, hlt⟩))
    have hfx : f x = j ⟨x, hlt⟩ := dif_pos hlt
    obtain ⟨d, hget', hnot⟩ := mem_eliminationMap.mp (hsub ⟨x, hlt⟩ (hmem _ (hfx ▸ hj ⟨x, hlt⟩)))
    obtain rfl := Option.mem_unique hget hget'
    rw [hvalid.map_eq _ hd, mem_toFinset] at hnot
    exact hnot hx
  · exact Finset.card_image_le.trans (Finset.card_filter_le _ _)

/-- The original numbers of a cover meet every decision. -/
lemma exists_originals {path : List ℕ} (hpath : IsPath (keptMaps decisions numChoices) path)
    (hcovers : remaining (Finset.range decisions.length) (keptMaps decisions numChoices)
      path.toFinset = ∅) :
    ∃ originals, path.mapM (fun n => do
        let choice ← orPanic .indexOutOfBounds
          (new decisions numChoices).choiceEliminationMaps[n]?
        return choice.originalIndex) = .ok originals ∧
      originals.length = path.length ∧ (∀ x ∈ originals, x < numChoices) ∧
      Meets decisions originals.toFinset := by
  set choices := (new decisions numChoices).choiceEliminationMaps
  let original : ℕ → ℕ := fun n => (choices[n]?.map Choice.originalIndex).getD 0
  have hget : ∀ n ∈ path, ∃ choice, choices[n]? = some choice ∧ original n = choice.originalIndex := by
    intro n hn
    have hlt := hpath.bound n hn
    rw [keptMaps, length_map] at hlt
    have hget : choices[n]? = _ := getElem?_eq_getElem hlt
    exact ⟨_, hget, congrArg (fun c => (c.map Choice.originalIndex).getD 0) hget⟩
  refine ⟨path.map original, mapM_eq_ok_map fun n hn => ?_, length_map _,
    forall_mem_map.mpr fun n hn => ?_, fun d hd => ?_⟩
  · obtain ⟨choice, hchoice, heq⟩ := hget n hn
    rw [hchoice, heq]
    rfl
  · obtain ⟨choice, hchoice, heq⟩ := hget n hn
    exact heq.trans_lt (originalIndex_of_kept (mem_of_getElem? hchoice)).1
  · obtain ⟨i, hi⟩ := mem_iff_getElem?.mp hd
    -- some choice of the path eliminates the decision
    have hnot := hcovers ▸ Finset.notMem_empty i
    simp only [mem_remaining, not_and, not_forall] at hnot
    obtain ⟨c, hc, m, hm, him⟩ := hnot (Finset.mem_range.mpr (lt_of_getElem? hi))
    rw [mem_toFinset] at hc
    obtain ⟨choice, hchoice, heq⟩ := hget c hc
    refine ⟨original c, ?_, mem_toFinset.mpr (mem_map_of_mem hc)⟩
    rw [keptMaps, getElem?_map] at hm
    obtain ⟨choice', hchoice', rfl⟩ := Option.map_eq_some_iff.mp hm
    obtain rfl := Option.mem_unique hchoice hchoice'
    rw [(originalIndex_of_kept (mem_of_getElem? hchoice)).2] at him
    by_contra hxd
    refine him (mem_eliminationMap.mpr ⟨d, hi, fun hmem => hxd ?_⟩)
    rwa [hvalid.map_eq d hd, mem_toFinset, ← heq] at hmem

/-! ## The bound -/

/-- A random solution meets the decisions that were open at its start. -/
lemma randomSolution_spec (pick : ℕ → ℕ) {rest : List (Decision × ℕ)}
    (hrest : ∀ x ∈ rest, decisions[x.2]? = some x.1) (map : Bitmap) (path : List ℕ) :
    ∃ path', randomSolution pick ((List.range numChoices).map (eliminationMap decisions))
        rest map path = .ok path' ∧ path ⊆ path' ∧
      ∀ x ∈ rest, x.2 ∈ map → ∃ c ∈ x.1.nums, c ∈ path' := by
  induction rest generalizing map path with
  | nil => exact ⟨path, rfl, List.Subset.refl _, fun x hx => nomatch hx⟩
  | cons x rest ih =>
    obtain ⟨decision, index⟩ := x
    obtain ⟨hx, hrest⟩ := forall_mem_cons.mp hrest
    rw [randomSolution]
    by_cases hindex : index ∈ map
    · have hmem : decision ∈ decisions := mem_of_getElem? hx
      have hpos : 0 < decision.nums.length := length_pos_of_ne_nil (hvalid.nonempty _ hmem)
      have hlt := Nat.mod_lt (pick index) hpos
      have hget := getElem?_eq_getElem hlt
      set choice := decision.nums[pick index % decision.nums.length]
      have hchoice : choice ∈ decision.nums := getElem_mem hlt
      have hmaps : ((range numChoices).map (eliminationMap decisions))[choice]? =
          some (eliminationMap decisions choice) := by
        rw [getElem?_map, getElem?_range (hvalid.bound _ hmem _ hchoice), Option.map_some]
      obtain ⟨path', hrun, hsub, hmeets⟩ :=
        ih hrest (map ∩ eliminationMap decisions choice) (path ++ [choice])
      have hchosen : choice ∈ path' := hsub (mem_append_right _ (mem_singleton_self _))
      refine ⟨path', ?_, List.Subset.trans (subset_append_left _ _) hsub, ?_⟩
      · rw [if_pos hindex, hget, orPanic_some, ok_bind, hmaps, orPanic_some, ok_bind, hrun]
      · refine forall_mem_cons.mpr ⟨fun _ => ⟨choice, hchoice, hchosen⟩, fun y hy hmap => ?_⟩
        by_cases hopen : y.2 ∈ eliminationMap decisions choice
        · exact hmeets y hy (Finset.mem_inter.mpr ⟨hmap, hopen⟩)
        · -- the decision is not open any more, because of this choice
          refine ⟨choice, ?_, hchosen⟩
          have hy' := hrest y hy
          by_contra hnot
          refine hopen (mem_eliminationMap.mpr ⟨y.1, hy', ?_⟩)
          rwa [hvalid.map_eq _ (mem_of_getElem? hy'), mem_toFinset]
    · obtain ⟨path', hrun, hsub, hmeets⟩ := ih hrest map path
      refine ⟨path', ?_, hsub, ?_⟩
      · rw [if_neg hindex, hrun]
      · exact forall_mem_cons.mpr ⟨fun h => absurd h hindex, hmeets⟩

lemma findRandomSolution_spec (pick : ℕ → ℕ) :
    ∃ path, (new decisions numChoices).findRandomSolution pick
        ((List.range numChoices).map (eliminationMap decisions)) = .ok path ∧
      Meets decisions path.toFinset := by
  have hget : ∀ x ∈ decisions.zipIdx, decisions[x.2]? = some x.1 := fun x hx =>
    mem_zipIdx_iff_getElem?.mp hx
  obtain ⟨path, hrun, _, hmeets⟩ := randomSolution_spec hvalid pick hget
    (Finset.range decisions.length) []
  refine ⟨path, hrun, fun d hd => ?_⟩
  obtain ⟨i, hi⟩ := mem_iff_getElem?.mp hd
  obtain ⟨c, hc, hmem⟩ := hmeets (d, i) (mem_zipIdx_iff_getElem?.mpr hi)
    (Finset.mem_range.mpr (lt_of_getElem? hi))
  exact ⟨c, hc, mem_toFinset.mpr hmem⟩

lemma findBestRandomSolution_spec (pick : Pick) (numTries : ℕ) :
    ∃ path, (new decisions numChoices).findBestRandomSolution pick numTries = .ok path ∧
      Meets decisions path.toFinset := by
  obtain ⟨best, hbest, hmeets⟩ := findRandomSolution_spec hvalid (pick 0)
  have hloop := exists_foldlM_eq_ok (l := range' 1 numTries)
    (f := (new decisions numChoices).improve pick
      ((range numChoices).map (eliminationMap decisions))) hmeets fun best attempt _ hbest => by
      obtain ⟨path, hpath, hmeets⟩ := findRandomSolution_spec hvalid (pick attempt)
      unfold improve
      rw [hpath]
      refine ⟨_, rfl, ?_⟩
      split
      · exact hmeets
      · exact hbest
  obtain ⟨path, hpath, hmeets⟩ := hloop
  refine ⟨path, ?_, hmeets⟩
  exact (congrArg (· >>= _) hbest).trans hpath

/-- The search returns a minimum. -/
theorem run_spec (hne : decisions ≠ []) (pick : Pick) :
    ∃ best, (new decisions numChoices).run pick = .ok best ∧
      (∀ x ∈ best, x < numChoices) ∧ Meets decisions best.toFinset ∧
      ∀ T, Meets decisions T → best.length ≤ T.card := by
  set full := Finset.range decisions.length
  set maps := keptMaps decisions numChoices
  obtain ⟨random, hrandom, hmeets⟩ := findBestRandomSolution_spec hvalid pick 10000
  obtain ⟨S, hS, hScard⟩ := exists_covers hvalid hmeets
  obtain ⟨s, hs⟩ := exists_firstCover hS
  -- the first minimum is not longer than the random solution, and not empty
  have hbound : s.length ≤ random.length :=
    (hs.minimum S hS).trans (hScard.trans (toFinset_card_le _))
  have hpos : 0 < s.length := by
    rw [length_pos_iff]
    rintro rfl
    have hcovers := hs.covers
    have hzero : 0 ∈ remaining full maps ([]).toFinset :=
      mem_remaining.mpr ⟨Finset.mem_range.mpr (length_pos_of_ne_nil hne), by simp⟩
    rw [hcovers] at hzero
    exact absurd hzero (Finset.notMem_empty 0)
  have hstart : remaining full maps ([]).toFinset = full := by
    exact Finset.filter_true_of_mem fun d _ c hc => absurd hc (by simp)
  have hinv : FrontierInv full maps s 0 [⟨full, []⟩] [] := by
    refine ⟨forall_mem_singleton.mpr ?_, pairwise_singleton _ _, ?_, fun m hm => nomatch hm⟩
    · exact ⟨⟨List.Pairwise.nil, fun c hc => nomatch hc⟩, rfl, hstart.symm⟩
    · unfold target
      rw [take_zero, hstart]
      exact mem_singleton_self _
  obtain ⟨path, hrun, hpath, hlen, hcovers⟩ :=
    runRounds_spec hs hpos (hbound.trans (Nat.le_add_left _ 0)) hinv
  obtain ⟨originals, hmap, hlength, hlt, hmeets⟩ := exists_originals hvalid hpath hcovers
  refine ⟨originals, ?_, hlt, hmeets, fun T hT => ?_⟩
  · unfold run runInternal
    have hdecisions : (new decisions numChoices).runDecisions random.length = some path := hrun
    rw [hrandom, ok_bind, hdecisions, orPanic_some, ok_bind, hmap]
  · obtain ⟨S', hS', hcard⟩ := exists_covers hvalid hT
    rw [hlength]
    exact hlen.trans ((hs.minimum S' hS').trans hcard)

end

end Run

/-! ## Original numbers -/

/-- The numbering of the items so far. -/
structure RemapInv (items : List ℕ) (remap : Remap) : Prop where
  injective : ∀ i j a, remap.index i = some a → remap.index j = some a → i = j
  lt_counter : ∀ i a, remap.index i = some a → a < remap.counter
  assigned : ∀ i ∈ items, ∃ a, remap.index i = some a
  surjective : ∀ a < remap.counter, ∃ i ∈ items, remap.index i = some a

variable {remap : Remap} {items : List ℕ}

lemma RemapInv.assign (h : RemapInv items remap) (item : ℕ) :
    RemapInv (items ++ [item]) (remap.assign item) := by
  unfold Remap.assign
  split
  · rename_i hnone
    have hindex : ∀ i a, update remap.index item (some remap.counter) i = some a ↔
        (i = item ∧ remap.counter = a) ∨ remap.index i = some a := by
      intro i a
      by_cases heq : i = item
      · simp [heq, hnone]
      · simp [heq]
    refine ⟨fun i j a hi hj => ?_, fun i a hi => ?_, fun i hi => ?_, fun a ha => ?_⟩
    · rcases (hindex i a).mp hi with ⟨hi, ha⟩ | hi <;>
        rcases (hindex j a).mp hj with ⟨hj, ha'⟩ | hj
      · exact hi.trans hj.symm
      · exact absurd (h.lt_counter j a hj) (ha ▸ lt_irrefl _)
      · exact absurd (h.lt_counter i a hi) (ha' ▸ lt_irrefl _)
      · exact h.injective i j a hi hj
    · rcases (hindex i a).mp hi with ⟨_, rfl⟩ | hi
      · exact Nat.lt_succ_self _
      · exact Nat.lt_succ_of_lt (h.lt_counter i a hi)
    · rcases mem_append.mp hi with hi | hi
      · obtain ⟨a, ha⟩ := h.assigned i hi
        exact ⟨a, (hindex i a).mpr (.inr ha)⟩
      · exact ⟨_, (hindex i _).mpr (.inl ⟨mem_singleton.mp hi, rfl⟩)⟩
    · rcases Nat.lt_succ_iff_lt_or_eq.mp ha with ha | rfl
      · obtain ⟨i, hi, ha⟩ := h.surjective a ha
        exact ⟨i, mem_append_left _ hi, (hindex i a).mpr (.inr ha)⟩
      · exact ⟨item, mem_append_right _ (mem_singleton_self _), update_self ..⟩
  · rename_i hsome
    refine ⟨h.injective, h.lt_counter, forall_mem_append.mpr ⟨h.assigned, ?_⟩, fun a ha => ?_⟩
    · exact forall_mem_singleton.mpr (Option.ne_none_iff_exists'.mp hsome)
    · obtain ⟨i, hi, ha⟩ := h.surjective a ha
      exact ⟨i, mem_append_left _ hi, ha⟩

lemma RemapInv.foldl (h : RemapInv items remap) (rest : List ℕ) :
    RemapInv (items ++ rest) (rest.foldl Remap.assign remap) := by
  induction rest generalizing items remap with
  | nil => rwa [append_nil]
  | cons item rest ih =>
    have hrest := ih (h.assign item)
    rwa [append_assoc] at hrest

lemma remapInv_ofDecisions (ds : List Bitmap) :
    ∃ items, RemapInv items (Remap.ofDecisions ds) ∧ ∀ i, i ∈ items ↔ ∃ d ∈ ds, i ∈ d := by
  have hinit : RemapInv [] ⟨fun _ => none, 0⟩ :=
    ⟨fun _ _ _ h => (nomatch h), fun _ _ h => (nomatch h),
      fun _ h => (nomatch h), fun _ h => absurd h (Nat.not_lt_zero _)⟩
  refine ⟨_, hinit.foldl ((ds.flatMap iterOneIndices).mergeSort (· ≤ ·)), fun i => ?_⟩
  rw [nil_append, mem_mergeSort, mem_flatMap]
  simp only [mem_iterOneIndices]

lemma mem_remap_decision {d : Bitmap} {a : ℕ} :
    a ∈ remap.decision d ↔ ∃ i ∈ d, remap.index i = some a := by
  unfold Remap.decision
  rw [mem_toFinset, mem_filterMap]
  simp only [mem_iterOneIndices]

variable {numChoices : ℕ} {decisions : List (List ℕ)}

/-- The search over the renumbered choices is one over all choices. -/
lemma searchReduced_spec (pick : Pick) {ds : List Bitmap} (hne : ds ≠ [])
    (hnonempty : ∀ d ∈ ds, d.Nonempty) (hbound : ∀ d ∈ ds, ∀ x ∈ d, x < numChoices) :
    ∃ best, searchReduced pick ds numChoices = .ok best ∧ (∀ x ∈ best, x < numChoices) ∧
      Hits ds best ∧ ∀ T, Hits ds T → best.card ≤ T.card := by
  obtain ⟨items, hremap, hitems⟩ := remapInv_ofDecisions ds
  set remap := Remap.ofDecisions ds
  set decisions := ds.map fun d => Decision.new (iterOneIndices (remap.decision d))
  have hassigned : ∀ d ∈ ds, ∀ i ∈ d, ∃ a, remap.index i = some a := fun d hd i hi =>
    hremap.assigned i ((hitems i).mpr ⟨d, hd, hi⟩)
  have hvalid : ValidDecisions decisions remap.counter := by
    refine ⟨fun d hd => ?_, fun d hd => ?_, fun d hd x hx => ?_⟩
    all_goals obtain ⟨b, hb, rfl⟩ := mem_map.mp hd
    · rfl
    · obtain ⟨i, hi⟩ := hnonempty b hb
      obtain ⟨a, ha⟩ := hassigned b hb i hi
      exact ne_nil_of_mem (mem_iterOneIndices.mpr (mem_remap_decision.mpr ⟨i, hi, ha⟩))
    · obtain ⟨i, _, ha⟩ := mem_remap_decision.mp (mem_iterOneIndices.mp hx)
      exact hremap.lt_counter i x ha
  obtain ⟨best, hrun, hlt, hmeets, hmin⟩ := run_spec hvalid (by simpa [decisions] using hne) pick
  -- every new number goes back to the choice it was given to
  have hposition : ∀ a ∈ best, ∃ i, orPanic .assertionFailed (remap.position numChoices a) = .ok i ∧
      remap.index i = some a ∧ i < numChoices := by
    intro a ha
    obtain ⟨i, hi, hia⟩ := hremap.surjective a (hlt a ha)
    obtain ⟨d, hd, hid⟩ := (hitems i).mp hi
    have hlti := hbound d hd i hid
    obtain ⟨j, hj⟩ := Option.isSome_iff_exists.mp
      (find?_isSome (p := fun i => remap.index i = some a) |>.mpr
        ⟨i, mem_range.mpr hlti, decide_eq_true hia⟩)
    have hindex := find?_some hj
    refine ⟨j, ?_, of_decide_eq_true hindex, mem_range.mp (mem_of_find?_eq_some hj)⟩
    rw [Remap.position, hj]
    rfl
  obtain ⟨originals, hmap, hall⟩ := exists_mapM_eq_ok hposition
  refine ⟨originals.toFinset, ?_, fun x hx => ?_, fun d hd => ?_, fun T hT => ?_⟩
  · change ((new decisions remap.counter).run pick >>= fun best =>
      (best.mapM fun a => orPanic .assertionFailed (remap.position numChoices a)) >>= fun l =>
      .ok l.toFinset) = _
    rw [hrun, ok_bind, hmap, ok_bind]
  · obtain ⟨_, _, _, hlt⟩ := exists_of_forall₂_of_mem hall (mem_toFinset.mp hx)
    exact hlt
  · obtain ⟨a, ha, hbest⟩ := hmeets _ (mem_map.mpr ⟨d, hd, rfl⟩)
    obtain ⟨i, hi, hia⟩ := mem_remap_decision.mp (mem_iterOneIndices.mp ha)
    obtain ⟨x, hx, hback, -⟩ := exists_of_mem_of_forall₂ hall (mem_toFinset.mp hbest)
    refine ⟨i, hi, mem_toFinset.mpr ?_⟩
    rw [hremap.injective i _ _ hia hback]
    exact hx
  · have hT' : Meets decisions ((T.toList.filterMap remap.index).toFinset) := by
      intro d' hd'
      obtain ⟨d, hd, rfl⟩ := mem_map.mp hd'
      obtain ⟨i, hi, hiT⟩ := hT d hd
      obtain ⟨a, ha⟩ := hassigned d hd i hi
      refine ⟨a, mem_iterOneIndices.mpr (mem_remap_decision.mpr ⟨i, hi, ha⟩), ?_⟩
      rw [mem_toFinset, mem_filterMap]
      exact ⟨i, Finset.mem_toList.mpr hiT, ha⟩
    calc originals.toFinset.card ≤ originals.length := toFinset_card_le _
      _ = best.length := hall.length_eq.symm
      _ ≤ (T.toList.filterMap remap.index).toFinset.card := hmin _ hT'
      _ ≤ (T.toList.filterMap remap.index).length := toFinset_card_le _
      _ ≤ T.toList.length := length_filterMap_le _ _
      _ = T.card := Finset.length_toList T

/-! ## The result -/

/-- A list of distinct choices that meets every decision, of the least length. -/
structure IsMinimumCover (decisions : List (List ℕ)) (numChoices : ℕ) (chosen : List ℕ) : Prop where
  nodup : chosen.Nodup
  bound : ∀ x ∈ chosen, x < numChoices
  meets : ∀ d ∈ decisions, ∃ x ∈ d, x ∈ chosen
  minimum : ∀ T : Finset ℕ, (∀ d ∈ decisions, ∃ x ∈ d, x ∈ T) → chosen.length ≤ T.card

/-- The decided choices and those found by the search are a minimum. -/
lemma findBestDecisions_spec (pick : Pick)
    (hne : ∀ d ∈ decisions, d ≠ []) (hbound : ∀ d ∈ decisions, ∀ x ∈ d, x < numChoices) :
    ∃ S, findBestDecisions pick decisions numChoices = .ok (some (iterOneIndices S)) ∧
      (∀ x ∈ S, x < numChoices) ∧ IsMinimum (fun H => ∀ d ∈ decisions, ∃ x ∈ d, x ∈ H) S := by
  set ds := (dedup (decisions.mergeSort lexLe)).map toFinset with hdefs
  have hmem : ∀ m, m ∈ ds ↔ ∃ d ∈ decisions, d.toFinset = m := fun m => by
    rw [mem_map]
    simp only [mem_dedup, mem_mergeSort]
  have hds : Hits ds = fun H => ∀ d ∈ decisions, ∃ x ∈ d, x ∈ H := by
    unfold Hits
    simp only [hmem, forall_exists_index, and_imp, forall_apply_eq_imp_iff₂, mem_toFinset]
  have hinit : Reduced numChoices ds ⟨∅, ds⟩ := by
    refine ⟨.of_hits_iff fun _ => Iff.rfl, fun m hm => ?_, fun m hm x hx => ?_,
      fun x hx => absurd hx (Finset.notMem_empty x)⟩
    all_goals obtain ⟨d, hd, rfl⟩ := (hmem m).mp hm
    · exact toFinset_nonempty_iff d |>.mpr (hne d hd)
    · exact hbound d hd x (mem_toFinset.mp hx)
  obtain ⟨r, hloop, hr⟩ : ∃ r, reduceLoop numChoices (reduceFuel ds) ⟨∅, ds⟩ = .ok r ∧
      Reduced numChoices ds r := reduceLoop_spec hinit (Nat.lt_succ_self _)
  rw [← hds]
  unfold findBestDecisions
  simp only [← hdefs, hloop, ok_bind]
  by_cases hempty : r.decisions = []
  · have hhits : Hits r.decisions ∅ := by
      rw [hempty]
      intro d hd
      cases hd
    have hmin := hr.reduces.isMinimum hhits fun T _ => Nat.zero_le _
    rw [Finset.union_empty] at hmin
    exact ⟨r.decided, if_pos hempty, hr.decided_bound, hmin⟩
  · obtain ⟨best, hbest, hlt, hhits, hmin⟩ := searchReduced_spec pick hempty hr.nonempty hr.bound
    rw [if_neg hempty, hbest]
    refine ⟨best ∪ r.decided, rfl, fun x hx => ?_, ?_⟩
    · exact (Finset.mem_union.mp hx).elim (hlt x) (hr.decided_bound x)
    · rw [Finset.union_comm]
      exact hr.reduces.isMinimum hhits hmin

/-- The reduced decisions have a minimum, and the decided choices complete it. -/
lemma MinimumCoveringSet.of_spec (pick : Pick) (hne : ∀ d ∈ decisions, d ≠ [])
    (hbound : ∀ d ∈ decisions, ∀ x ∈ d, x < numChoices) :
    ∃ chosen, MinimumCoveringSet.of pick decisions numChoices = .ok chosen ∧
      IsMinimumCover decisions numChoices chosen := by
  obtain ⟨S, hS, hlt, hmeets, hmin⟩ := findBestDecisions_spec pick hne hbound
  have hmem : ∀ x, x ∈ (iterOneIndices S).mergeSort (· ≤ ·) ↔ x ∈ S := fun x => by
    rw [mem_mergeSort, mem_iterOneIndices]
  unfold MinimumCoveringSet.of
  rw [hS]
  refine ⟨_, rfl, ?_, fun x hx => hlt x ((hmem x).mp hx), fun d hd => ?_, fun T hT => ?_⟩
  · exact (mergeSort_perm _ _).nodup_iff.mpr (Finset.sort_nodup _ _)
  · obtain ⟨x, hx, hxS⟩ := hmeets d hd
    exact ⟨x, hx, (hmem x).mpr hxS⟩
  · rw [length_mergeSort]
    exact (Finset.length_sort _).trans_le (hmin T hT)

/-- Whatever the random choices, `MinimumCoveringSet::of` returns a set of choices that meets every
decision and is not larger than any other such set. -/
theorem of_returns_minimum (pick : Pick) (decisions : List (List ℕ)) (numChoices : ℕ)
    (hne : ∀ d ∈ decisions, d ≠ []) (hbound : ∀ d ∈ decisions, ∀ x ∈ d, x < numChoices) :
    ∃ chosen, MinimumCoveringSet.of pick decisions numChoices = .ok chosen ∧ chosen.Nodup ∧
      (∀ x ∈ chosen, x < numChoices) ∧ (∀ d ∈ decisions, ∃ x ∈ d, x ∈ chosen) ∧
      ∀ T : Finset ℕ, (∀ d ∈ decisions, ∃ x ∈ d, x ∈ T) → chosen.length ≤ T.card := by
  obtain ⟨chosen, hchosen, hmin⟩ := MinimumCoveringSet.of_spec pick hne hbound
  exact ⟨chosen, hchosen, hmin.nodup, hmin.bound, hmin.meets, hmin.minimum⟩

/-- A cycle of five choices: three are needed. -/
theorem of_returns_minimum_cycle : ∃ chosen,
    MinimumCoveringSet.of (fun t i => t + i) [[0, 1], [1, 2], [2, 3], [3, 4], [4, 0]] 5 =
        .ok chosen ∧ chosen.Nodup ∧ (∀ x ∈ chosen, x < 5) ∧
      (∀ d ∈ [[0, 1], [1, 2], [2, 3], [3, 4], [4, 0]], ∃ x ∈ d, x ∈ chosen) ∧
      ∀ T : Finset ℕ, (∀ d ∈ [[0, 1], [1, 2], [2, 3], [3, 4], [4, 0]], ∃ x ∈ d, x ∈ T) →
        chosen.length ≤ T.card :=
  of_returns_minimum _ _ _ (by decide) (by decide)

end LibLisa.Mcs
