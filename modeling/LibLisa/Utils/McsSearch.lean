import LibLisa.Lib.HittingSet
import LibLisa.Utils.Mcs

/-!
# The breadth-first search finds a minimum

The search only follows increasing paths, and drops a choice if an earlier one eliminates as much, or
if the open decisions that it leaves (or fewer) have been explored before. None of this drops the
first minimum: a path that makes an initial segment of it superfluous either is shorter, so that a
smaller cover exists, or comes earlier in the order in which paths are explored, so that an earlier
minimum exists (`FirstCover.not_superseded`).

So the initial segments of the first minimum stay on the frontier (`runSingleDecision_spec`), and the
search returns a minimum after as many rounds as it has elements (`runRounds_spec`).
-/

namespace LibLisa.Mcs

open Lib List List.Subset Option

section Search

variable (full : Bitmap) (maps : List Bitmap)

/-- The decisions that a set of choices leaves open. -/
def remaining (S : Finset ℕ) : Bitmap :=
  full.filter fun d => ∀ c ∈ S, ∀ m ∈ maps[c]?, d ∈ m

/-- The choices leave no decision open. -/
def Covers (S : Finset ℕ) : Prop := S ⊆ Finset.range maps.length ∧ remaining full maps S = ∅

variable {full maps}

lemma mem_remaining {S : Finset ℕ} {d : ℕ} :
    d ∈ remaining full maps S ↔ d ∈ full ∧ ∀ c ∈ S, ∀ m ∈ maps[c]?, d ∈ m := Finset.mem_filter

lemma remaining_union (S T : Finset ℕ) :
    remaining full maps (S ∪ T) = remaining full maps S ∩ remaining full maps T := by
  ext d
  simp only [mem_remaining, Finset.mem_inter, Finset.mem_union, or_imp, forall_and]
  exact and_and_left

lemma remaining_anti {S T : Finset ℕ} (h : S ⊆ T) :
    remaining full maps T ⊆ remaining full maps S := by
  rw [← Finset.union_eq_right.mpr h, remaining_union]
  exact Finset.inter_subset_left

variable {P : List ℕ} {c : ℕ} {m : Bitmap} {Q : List ℕ}

lemma remaining_insert (hm : maps[c]? = some m) (S : Finset ℕ) :
    remaining full maps (insert c S) = remaining full maps S ∩ m := by
  ext d
  simp only [mem_remaining, Finset.mem_inter, Finset.forall_mem_insert, hm, mem_some_iff,
    forall_eq']
  exact and_left_comm.trans and_comm

lemma remaining_concat (hm : maps[c]? = some m) :
    remaining full maps (P ++ [c]).toFinset = remaining full maps P.toFinset ∩ m := by
  rw [toFinset_append, Finset.union_comm, ← remaining_insert hm, Finset.insert_eq, toFinset_cons,
    toFinset_nil, insert_empty_eq]

/-- The order in which the search explores paths. -/
def Earlier (P Q : List ℕ) : Prop := List.Lex (· < ·) P Q

/-- A path of the search: increasing choices. -/
structure IsPath (maps : List Bitmap) (P : List ℕ) : Prop where
  increasing : P.Pairwise (· < ·)
  bound : ∀ c ∈ P, c < maps.length

lemma IsPath.card_toFinset (h : IsPath maps P) : P.toFinset.card = P.length :=
  toFinset_card_of_nodup (h.increasing.imp Nat.ne_of_lt)

lemma IsPath.toFinset_subset (h : IsPath maps P) :
    P.toFinset ⊆ Finset.range maps.length := fun c hc =>
  Finset.mem_range.mpr (h.bound c (mem_toFinset.mp hc))

/-! ## The first minimum -/

/-- The increasing list of the first cover of least size. -/
structure FirstCover (full : Bitmap) (maps : List Bitmap) (s : List ℕ) : Prop where
  isPath : IsPath maps s
  covers : remaining full maps s.toFinset = ∅
  minimum : ∀ T, Covers full maps T → s.length ≤ T.card
  first : ∀ T, Covers full maps T → T.card ≤ s.length → ¬ Precedes T s.toFinset

lemma exists_firstCover {T : Finset ℕ} (hT : Covers full maps T) : ∃ s, FirstCover full maps s := by
  obtain ⟨S, ⟨hS, hmin⟩, hfirst⟩ := exists_first_minimum (fun _ h => h.1) hT
  have hset : (S.sort (· ≤ ·)).toFinset = S := Finset.sort_toFinset _ _
  have hlen : (S.sort (· ≤ ·)).length = S.card := Finset.length_sort _
  refine ⟨S.sort (· ≤ ·), ⟨?_, ?_⟩, ?_, ?_, ?_⟩
  · exact (Finset.sortedLT_sort S).pairwise
  · intro c hc
    exact Finset.mem_range.mp (hS.1 ((Finset.mem_sort _).mp hc))
  · rw [hset]
    exact hS.2
  · rw [hlen]
    exact hmin
  · rw [hset, hlen]
    exact hfirst

namespace FirstCover

variable {s : List ℕ} (h : FirstCover full maps s)

include h

lemma isPath_take (i : ℕ) : IsPath maps (s.take i) where
  increasing := h.isPath.increasing.sublist (take_sublist i s)
  bound c hc := h.isPath.bound c (mem_of_mem_take hc)

/-- No path leaves as little open as a longer initial segment of the first minimum, nor as one of
its length that is explored later. -/
theorem not_superseded {i : ℕ} (hi : i < s.length) (hQ : IsPath maps Q)
    (hbefore : Q.length ≤ i ∨ (Q.length = i + 1 ∧ Earlier Q (s.take (i + 1)))) :
    ¬ remaining full maps Q.toFinset ⊆ remaining full maps (s.take (i + 1)).toFinset := by
  intro hsub
  have hsplit : s.take (i + 1) ++ s.drop (i + 1) = s := take_append_drop (i + 1) s
  have hbound := h.isPath.bound
  have hdrop : IsPath maps (s.drop (i + 1)) :=
    ⟨h.isPath.increasing.sublist (drop_sublist _ _),
      fun c hc => hbound c (mem_of_mem_drop hc)⟩
  -- the path, continued as the first minimum
  have hcovers : Covers full maps (Q ++ s.drop (i + 1)).toFinset := by
    refine ⟨fun c hc => ?_, ?_⟩
    · rw [toFinset_append] at hc
      exact Finset.union_subset hQ.toFinset_subset hdrop.toFinset_subset hc
    · rw [toFinset_append, remaining_union, ← Finset.subset_empty, ← h.covers]
      refine (Finset.inter_subset_inter hsub subset_rfl).trans ?_
      rw [← remaining_union, ← toFinset_append, hsplit]
  have hcard : (Q ++ s.drop (i + 1)).toFinset.card ≤ Q.length + (s.length - (i + 1)) := by
    refine (toFinset_card_le _).trans ?_
    rw [length_append, length_drop]
  have hmin := h.minimum _ hcovers
  rcases hbefore with hle | ⟨hlen, hlt⟩
  · omega
  · refine h.first _ hcovers (by omega) ?_
    have hprec := precedes_of_lex hlt (by rw [length_take]; omega) hQ.increasing (by rw [hsplit]; exact h.isPath.increasing)
    rwa [hsplit] at hprec

/-- No smaller choice eliminates as much as the next element of the first minimum. -/
lemma not_dominated {i : ℕ} (hi : i < s.length) {j : ℕ} (hj : j < s[i]) {m m' : Bitmap}
    (hm : maps[s[i]]? = some m) (hm' : maps[j]? = some m') :
    ¬ remaining full maps (s.take i).toFinset ∩ m' ⊆
      remaining full maps (s.take i).toFinset ∩ m := by
  intro hsub
  have hmem : s[i] ∈ s.toFinset := mem_toFinset.mpr (getElem_mem hi)
  have hcard : s.toFinset.card = s.length := h.isPath.card_toFinset
  have htake : (s.take i).toFinset ⊆ s.toFinset.erase s[i] := by
    intro c hc
    rw [List.mem_toFinset] at hc
    refine Finset.mem_erase.mpr ⟨?_, mem_toFinset.mpr (mem_of_mem_take hc)⟩
    have hsorted := h.isPath.increasing
    rw [← take_append_drop i s, pairwise_append, drop_eq_getElem_cons hi] at hsorted
    exact (hsorted.2.2 c hc s[i] (.head _)).ne
  -- the first minimum with the smaller choice instead
  have hcovers : Covers full maps (insert j (s.toFinset.erase s[i])) := by
    refine ⟨?_, Finset.eq_empty_of_forall_notMem fun d hd => ?_⟩
    · refine Finset.insert_subset (Finset.mem_range.mpr ?_) ?_
      · exact lt_of_getElem? hm'
      · exact (Finset.erase_subset _ _).trans h.isPath.toFinset_subset
    · rw [remaining_insert hm', Finset.mem_inter] at hd
      have hdm := hsub (Finset.mem_inter.mpr ⟨remaining_anti htake hd.1, hd.2⟩)
      have hd' := Finset.mem_inter.mpr ⟨hd.1, (Finset.mem_inter.mp hdm).2⟩
      rw [← remaining_insert hm, Finset.insert_erase hmem, h.covers] at hd'
      exact Finset.notMem_empty d hd'
  have hcard' : (s.toFinset.erase s[i]).card = s.length - 1 := by
    rw [Finset.card_erase_of_mem hmem, hcard]
  have hmin := h.minimum _ hcovers
  by_cases hjs : j ∈ s.toFinset
  · have hj' : j ∈ s.toFinset.erase s[i] := Finset.mem_erase.mpr ⟨hj.ne, hjs⟩
    rw [Finset.insert_eq_of_mem hj'] at hmin
    omega
  · refine h.first _ hcovers ?_ (precedes_of_exchange hj hjs)
    have hle := Finset.card_insert_le j (s.toFinset.erase s[i])
    omega

end FirstCover

/-! ## One choice -/

/-- An entry of the frontier after `i` rounds. -/
structure Reached (full : Bitmap) (maps : List Bitmap) (i : ℕ) (e : Entry) : Prop where
  isPath : IsPath maps e.path
  length : e.path.length = i
  map_eq : e.map = remaining full maps e.path.toFinset

/-- A path that the round after `i` rounds returns. -/
structure Found (full : Bitmap) (maps : List Bitmap) (i : ℕ) (path : List ℕ) : Prop where
  isPath : IsPath maps path
  length : path.length = i + 1
  covers : remaining full maps path.toFinset = ∅

/-- What holds of a round after `i` rounds; `seen` are the paths that it has added. -/
structure RoundInv (full : Bitmap) (maps : List Bitmap) (i : ℕ) (seen : List ℕ → Prop)
    (round : Round) : Prop where
  explored : ∀ m ∈ round.explored, ∃ Q, IsPath maps Q ∧ m = remaining full maps Q.toFinset ∧
    (Q.length ≤ i ∨ (Q.length = i + 1 ∧ seen Q))
  next : ∀ e ∈ round.nextFrontier, Reached full maps (i + 1) e ∧ seen e.path
  sorted : round.nextFrontier.Pairwise fun e e' => Earlier e.path e'.path

variable {seen : List ℕ → Prop} {i : ℕ} {round : Round}

lemma RoundInv.mono {seen' : List ℕ → Prop} (h : RoundInv full maps i seen round)
    (hseen : ∀ Q, seen Q → seen' Q) : RoundInv full maps i seen' round where
  explored m hm :=
    let ⟨Q, hQ, heq, hlen⟩ := h.explored m hm
    ⟨Q, hQ, heq, hlen.imp_right fun hl => ⟨hl.1, hseen Q hl.2⟩⟩
  next e he := ⟨(h.next e he).1, hseen _ (h.next e he).2⟩
  sorted := h.sorted

lemma isPath_concat (hP : IsPath maps P) (hstart : startIndex P ≤ c) (hc : c < maps.length) :
    IsPath maps (P ++ [c]) where
  increasing := by
    rw [pairwise_append]
    refine ⟨hP.increasing, pairwise_singleton _ _, fun a ha b hb => ?_⟩
    rw [mem_singleton] at hb
    have hne : P ≠ [] := ne_nil_of_mem ha
    unfold startIndex at hstart
    rw [getLast?_eq_some_getLast hne, map_some, getD_some] at hstart
    have hle : a ≤ P.getLast hne := (hP.increasing.imp Nat.le_of_lt).rel_getLast ha
    omega
  bound := forall_mem_append.mpr ⟨hP.bound, forall_mem_singleton.mpr hc⟩

variable {s : List ℕ} {entry : Entry}

/-- The entry for an initial segment of the first minimum. -/
def target (full : Bitmap) (maps : List Bitmap) (s : List ℕ) (i : ℕ) : Entry :=
  ⟨remaining full maps (s.take i).toFinset, s.take i⟩

lemma take_succ_of_target (htarget : entry = target full maps s i) (hsi : s[i]? = some c) :
    s.take (i + 1) = entry.path ++ [c] := by
  obtain ⟨hi, hget⟩ := List.getElem?_eq_some_iff.mp hsi
  rw [take_succ_eq_append_getElem hi, hget, htarget]
  rfl

/-- A new entry is added to the round. -/
lemma RoundInv.push (hround : RoundInv full maps i seen round) {e : Entry}
    (he : Reached full maps (i + 1) e) (hseen : ∀ Q, Q.length = i + 1 → seen Q → Earlier Q e.path) :
    RoundInv full maps i (fun Q => seen Q ∨ Q = e.path)
      ⟨e.map :: round.explored, round.nextFrontier ++ [e]⟩ := by
  have hskip := hround.mono fun Q h => Or.inl (b := Q = e.path) h
  refine ⟨forall_mem_cons.mpr ⟨?_, hskip.explored⟩, forall_mem_append.mpr ⟨hskip.next, ?_⟩, ?_⟩
  · exact ⟨e.path, he.isPath, he.map_eq, .inr ⟨he.length, .inr rfl⟩⟩
  · exact forall_mem_singleton.mpr ⟨he, .inr rfl⟩
  · rw [pairwise_append]
    refine ⟨hround.sorted, pairwise_singleton _ _, fun e₁ he₁ e₂ he₂ => ?_⟩
    obtain rfl := mem_singleton.mp he₂
    obtain ⟨hreached, hsaw⟩ := hround.next e₁ he₁
    exact hseen e₁.path hreached.length hsaw

lemma expandChoice_spec (hs : FirstCover full maps s)
    (hentry : Reached full maps i entry) (hm : maps[c]? = some m)
    (hstart : startIndex entry.path ≤ c) (hround : RoundInv full maps i seen round)
    (hseen : ∀ Q, Q.length = i + 1 → seen Q → Earlier Q (entry.path ++ [c])) :
    Ensures (expandChoice maps entry round c m) (Found full maps i) fun round' =>
      RoundInv full maps i (fun Q => seen Q ∨ Q = entry.path ++ [c]) round' ∧
      round.nextFrontier ⊆ round'.nextFrontier ∧
      (entry = target full maps s i → s[i]? = some c →
        i + 1 < s.length ∧ target full maps s (i + 1) ∈ round'.nextFrontier) := by
  have hc : c < maps.length := lt_of_getElem? hm
  have hpath : IsPath maps (entry.path ++ [c]) := isPath_concat hentry.isPath hstart hc
  have hlen : (entry.path ++ [c]).length = i + 1 := by
    rw [length_append, hentry.length, length_singleton]
  have hnew : remaining full maps (entry.path ++ [c]).toFinset = entry.map ∩ m := by
    rw [remaining_concat hm, hentry.map_eq]
  have hskip := hround.mono fun Q h => Or.inl (b := Q = entry.path ++ [c]) h
  -- nothing that has been explored supersedes the next segment of the first minimum
  have hexplored : entry = target full maps s i → s[i]? = some c →
      ∀ e ∈ round.explored, ¬ e ⊆ entry.map ∩ m := by
    rintro htarget hsi e he hsub
    have hnext := take_succ_of_target htarget hsi
    obtain ⟨Q, hQ, rfl, hbefore⟩ := hround.explored e he
    refine hs.not_superseded (lt_of_getElem? hsi) hQ ?_ ?_
    · rw [hnext]
      exact hbefore.imp_right fun hl => ⟨hl.1, hseen Q hl.1 hl.2⟩
    · rw [hnext, hnew]
      exact hsub
  unfold expandChoice
  dsimp only
  split
  · rename_i hsub
    refine ⟨hskip, refl _, fun htarget hsi => ?_⟩
    obtain ⟨hi, hget⟩ := List.getElem?_eq_some_iff.mp hsi
    refine absurd ?_ (hs.not_superseded hi (hs.isPath_take i) (.inl (length_take_le i s)))
    rw [take_succ_eq_append_getElem hi, hget, remaining_concat hm]
    rw [htarget] at hsub
    exact Finset.subset_inter subset_rfl hsub
  split
  · rename_i hany
    refine ⟨hskip, refl _, fun htarget hsi => ?_⟩
    obtain ⟨hi, hget⟩ := List.getElem?_eq_some_iff.mp hsi
    obtain ⟨m', hm', hsub⟩ := any_eq_true.mp hany
    obtain ⟨j, hj⟩ := mem_iff_getElem?.mp hm'
    obtain ⟨hlt, -⟩ := List.getElem?_eq_some_iff.mp hj
    rw [length_take] at hlt
    have hjc : j < c := by omega
    rw [getElem?_take_of_lt hjc] at hj
    subst hget
    refine absurd (of_decide_eq_true hsub) ?_
    rw [htarget]
    exact hs.not_dominated hi hjc hm hj
  split
  · rename_i hmem
    exact ⟨hskip, refl _, fun htarget hsi =>
      absurd subset_rfl (hexplored htarget hsi _ hmem)⟩
  split
  · rename_i hany
    refine ⟨hskip, refl _, fun htarget hsi => ?_⟩
    obtain ⟨other, _, hother⟩ := any_eq_true.mp hany
    obtain ⟨hmem, _⟩ := of_decide_eq_true hother
    exact absurd Finset.inter_subset_left (hexplored htarget hsi _ hmem)
  split
  · rename_i hempty
    exact ⟨hpath, hlen, hnew.trans hempty⟩
  · rename_i hempty
    have hreached : Reached full maps (i + 1) ⟨entry.map ∩ m, entry.path ++ [c]⟩ :=
      ⟨hpath, hlen, hnew.symm⟩
    refine ⟨hround.push hreached hseen, subset_append_left _ _, fun htarget hsi => ?_⟩
    have hnext := take_succ_of_target htarget hsi
    refine ⟨?_, ?_⟩
    · by_contra hge
      have htake : s.take (i + 1) = s := take_of_length_le (by omega)
      refine hempty ?_
      rw [← hnew, ← hnext, htake, hs.covers]
    · unfold target
      rw [hnext, hnew]
      exact mem_append_right _ (mem_singleton_self _)

/-! ## One entry -/

/-- The availability constraint of a choice has what no later choice eliminates. -/
lemma availabilityConstraints_spec (full : Bitmap) (maps : List Bitmap) :
    (availabilityConstraints full maps).1.length = maps.length ∧
    (∀ d ∈ (availabilityConstraints full maps).2, ∀ m ∈ maps, d ∈ m) ∧
    ∀ (c : ℕ) av, (availabilityConstraints full maps).1[c]? = some av → ∀ d ∈ av,
      ∀ j, c ≤ j → ∀ m ∈ maps[j]?, d ∈ m := by
  induction maps with
  | nil => exact ⟨rfl, fun d _ m hm => (nomatch hm), fun c av h => nomatch h⟩
  | cons map maps ih =>
    obtain ⟨hlen, hall, hget⟩ := ih
    have hall' : ∀ d ∈ (availabilityConstraints full (map :: maps)).2,
        ∀ m ∈ map :: maps, d ∈ m := by
      intro d hd
      obtain ⟨hd, hdm⟩ := Finset.mem_inter.mp hd
      exact forall_mem_cons.mpr ⟨hdm, hall d hd⟩
    refine ⟨congrArg (· + 1) hlen, hall', fun c av hav d hd j hj m hm => ?_⟩
    cases c with
    | zero =>
      obtain rfl := some.inj hav
      exact hall' d hd m (mem_of_getElem? hm)
    | succ c =>
      obtain ⟨j, rfl⟩ := Nat.exists_eq_add_of_le' hj
      exact hget c av hav d hd (j + c) (Nat.le_add_left ..) m hm

variable {α : Type} {explored : List Bitmap} {frontier : List Entry} {l : List α}

lemma mem_takeWhile_of_le {p : α → Bool} {f : α → ℕ} (hl : l.Pairwise fun a b => f a < f b) {x : α}
    (hx : x ∈ l) (hp : ∀ y ∈ l, f y ≤ f x → p y = true) : x ∈ l.takeWhile p := by
  induction l with
  | nil => exact hx
  | cons y l ih =>
    obtain ⟨hy, hl⟩ := pairwise_cons.mp hl
    have hyx : f y ≤ f x := by
      rcases mem_cons.mp hx with rfl | hx
      · exact le_rfl
      · exact (hy x hx).le
    rw [takeWhile_cons_of_pos (hp y (.head _) hyx)]
    rcases mem_cons.mp hx with rfl | hx
    · exact (.head _)
    · exact .tail _ (ih hl hx fun z hz => hp z (.tail _ hz))

/-- The choices of an entry come in increasing order. -/
lemma pairwise_drop_zipIdx (l : List α) (n : ℕ) :
    (l.zipIdx.drop n).Pairwise fun a b => a.2 < b.2 := by
  have hsnd : (l.zipIdx.map Prod.snd).Pairwise (· < ·) := by
    rw [zipIdx_map_snd]
    exact pairwise_lt_range'
  exact (pairwise_map.mp hsnd).sublist (drop_sublist n _)

lemma mem_drop_zipIdx {n : ℕ} {a : α} : (a, c) ∈ l.zipIdx.drop n ↔ n ≤ c ∧ l[c]? = some a := by
  rw [mem_iff_getElem?]
  simp only [getElem?_drop, getElem?_zipIdx, map_eq_some_iff, Prod.mk.injEq]
  constructor
  · rintro ⟨i, b, hb, rfl, rfl⟩
    exact ⟨by omega, by rwa [Nat.zero_add]⟩
  · rintro ⟨hle, hget⟩
    refine ⟨c - n, a, ?_, rfl, by omega⟩
    rwa [Nat.add_sub_cancel' hle]

/-- The choice that extends a segment of the first minimum is not cut off. -/
lemma exists_mem_choices (hs : FirstCover full maps s) (hi : i < s.length) :
    ∃ m av, ((m, av), s[i]) ∈
      ((maps.zip (availabilityConstraints full maps).1).zipIdx.drop
        (startIndex (s.take i))).takeWhile fun x =>
          remaining full maps (s.take i).toFinset ∩ x.1.2 = ∅ := by
  obtain ⟨hlen, -, hav⟩ := availabilityConstraints_spec full maps
  have hc : s[i] < maps.length := hs.isPath.bound _ (getElem_mem hi)
  have hsorted := hs.isPath.increasing
  rw [← take_append_drop i s, pairwise_append] at hsorted
  have hstart : startIndex (s.take i) ≤ s[i] := by
    unfold startIndex
    cases hlast : (s.take i).getLast? with
    | none => exact Nat.zero_le _
    | some x =>
      refine hsorted.2.2 x (mem_of_getLast? hlast) s[i] ?_
      rw [drop_eq_getElem_cons hi]
      exact (.head _)
  refine ⟨maps[s[i]], (availabilityConstraints full maps).1[s[i]], ?_⟩
  refine mem_takeWhile_of_le (pairwise_drop_zipIdx _ _) (mem_drop_zipIdx.mpr ⟨hstart, ?_⟩) ?_
  · rw [getElem?_zip_eq_some]
    exact ⟨getElem?_eq_getElem hc, getElem?_eq_getElem (hlen ▸ hc)⟩
  · rintro ⟨⟨m, av⟩, c⟩ hmem hle
    obtain ⟨_, hget⟩ := mem_drop_zipIdx.mp hmem
    obtain ⟨_, hget⟩ := getElem?_zip_eq_some.mp hget
    refine decide_eq_true (Finset.eq_empty_of_forall_notMem fun d hd => ?_)
    obtain ⟨hopen, hdav⟩ := Finset.mem_inter.mp hd
    obtain ⟨hfull, htake⟩ := mem_remaining.mp hopen
    have hempty : d ∉ remaining full maps s.toFinset := by
      rw [hs.covers]
      exact Finset.notMem_empty d
    refine hempty (mem_remaining.mpr ⟨hfull, fun c' hc' m' hm' => ?_⟩)
    rw [List.mem_toFinset, ← take_append_drop i s, mem_append] at hc'
    rcases hc' with hc' | hc'
    · exact htake c' (mem_toFinset.mpr hc') m' hm'
    · refine hav c av hget d hdav c' (hle.trans ?_) m' hm'
      rw [drop_eq_getElem_cons hi] at hc' hsorted
      rcases mem_cons.mp hc' with rfl | hc'
      · exact le_rfl
      · exact ((pairwise_cons.mp hsorted.2.1).1 c' hc').le

lemma expandEntry_spec (hs : FirstCover full maps s) (hi : i < s.length)
    (hentry : Reached full maps i entry) (hround : RoundInv full maps i seen round)
    (hseen : ∀ Q, Q.length = i + 1 → seen Q → ∀ c, Earlier Q (entry.path ++ [c])) :
    Ensures (expandEntry maps (availabilityConstraints full maps).1 round entry)
      (Found full maps i) fun round' =>
        RoundInv full maps i (fun Q => seen Q ∨ ∃ c, Q = entry.path ++ [c]) round' ∧
        round.nextFrontier ⊆ round'.nextFrontier ∧
        (entry = target full maps s i →
          i + 1 < s.length ∧ target full maps s (i + 1) ∈ round'.nextFrontier) := by
  set choices := ((maps.zip (availabilityConstraints full maps).1).zipIdx.drop
    (startIndex entry.path)).takeWhile fun x => entry.map ∩ x.1.2 = ∅ with hchoices
  have hsub : choices.Sublist ((maps.zip (availabilityConstraints full maps).1).zipIdx.drop
      (startIndex entry.path)) := takeWhile_sublist _
  have hsorted := (pairwise_drop_zipIdx _ _).sublist hsub
  -- after some choices, the paths that were added end in one of them
  refine (Ensures.foldlM (l := choices) (I := fun done round' =>
    RoundInv full maps i (fun Q => seen Q ∨ ∃ x ∈ done, Q = entry.path ++ [x.2]) round' ∧
    round.nextFrontier ⊆ round'.nextFrontier ∧
    (entry = target full maps s i → ∀ x ∈ done, s[i]? = some x.2 →
      i + 1 < s.length ∧ target full maps s (i + 1) ∈ round'.nextFrontier)) ?_ ?_).imp ?_
  · exact ⟨hround.mono fun Q h => .inl h, refl _, fun _ x hx =>
      absurd hx not_mem_nil⟩
  · rintro done ⟨⟨m, av⟩, c⟩ rest hsplit round₁ ⟨hround₁, hsub₁, htarget₁⟩
    have hmem : ((m, av), c) ∈ choices := by
      rw [hsplit]
      exact mem_append_right _ (.head _)
    obtain ⟨hstart, hget⟩ := mem_drop_zipIdx.mp (hsub.subset hmem)
    obtain ⟨hm, _⟩ := getElem?_zip_eq_some.mp hget
    rw [hsplit, pairwise_append] at hsorted
    have hbefore : ∀ Q, Q.length = i + 1 → (seen Q ∨ ∃ x ∈ done, Q = entry.path ++ [x.2]) →
        Earlier Q (entry.path ++ [c]) := by
      rintro Q hQ (hsaw | ⟨x, hx, rfl⟩)
      · exact hseen Q hQ hsaw c
      · exact Lex.append_left _ (.rel (hsorted.2.2 x hx _ (.head _))) _
    refine (expandChoice_spec hs hentry hm hstart hround₁ hbefore).imp ?_
    rintro round₂ ⟨hround₂, hsub₂, htarget₂⟩
    refine ⟨hround₂.mono ?_, Subset.trans hsub₁ hsub₂, fun htarget x hx hsx => ?_⟩
    · rintro Q ((hsaw | ⟨x, hx, hQ⟩) | hQ)
      · exact .inl hsaw
      · exact .inr ⟨x, mem_append_left _ hx, hQ⟩
      · exact .inr ⟨((m, av), c), mem_append_right _ (mem_singleton_self _), hQ⟩
    · rcases mem_append.mp hx with hx | hx
      · obtain ⟨hlt, hmem⟩ := htarget₁ htarget x hx hsx
        exact ⟨hlt, hsub₂ hmem⟩
      · rw [mem_singleton] at hx
        subst hx
        exact htarget₂ htarget hsx
  · rintro round' ⟨hround', hsub', htarget'⟩
    refine ⟨hround'.mono ?_, hsub', fun htarget => ?_⟩
    · rintro Q (hsaw | ⟨x, _, hQ⟩)
      · exact .inl hsaw
      · exact .inr ⟨x.2, hQ⟩
    · obtain ⟨m, av, hmem⟩ := exists_mem_choices hs hi
      refine htarget' htarget ((m, av), s[i]) ?_ (getElem?_eq_getElem hi)
      rw [hchoices, htarget]
      exact hmem

/-! ## Rounds -/

/-- What holds between the rounds. -/
structure FrontierInv (full : Bitmap) (maps : List Bitmap) (s : List ℕ) (i : ℕ)
    (frontier : List Entry) (explored : List Bitmap) : Prop where
  reached : ∀ e ∈ frontier, Reached full maps i e
  sorted : frontier.Pairwise fun e e' => Earlier e.path e'.path
  target_mem : target full maps s i ∈ frontier
  explored : ∀ m ∈ explored, ∃ Q, IsPath maps Q ∧ m = remaining full maps Q.toFinset ∧
    Q.length ≤ i

lemma earlier_concat (h : Earlier P Q) (hlen : P.length = Q.length) (a b : ℕ) :
    Earlier (P ++ [a]) (Q ++ [b]) := by
  induction h with
  | nil => exact absurd hlen (by simp)
  | rel hab => exact .rel hab
  | cons _ ih => exact .cons (ih (Nat.succ.inj hlen))

/-- A round ends with a cover, or leads to the invariant one decision further. -/
lemma runSingleDecision_spec (hs : FirstCover full maps s) (hi : i < s.length)
    (h : FrontierInv full maps s i frontier explored) :
    Ensures (runSingleDecision maps (availabilityConstraints full maps).1 frontier explored)
      (Found full maps i) fun round =>
        i + 1 < s.length ∧ FrontierInv full maps s (i + 1) round.nextFrontier round.explored := by
  refine (Ensures.foldlM (l := frontier) (I := fun done round =>
    RoundInv full maps i (fun Q => ∃ e ∈ done, ∃ c, Q = e.path ++ [c]) round ∧
    ∀ e ∈ done, e = target full maps s i →
      i + 1 < s.length ∧ target full maps s (i + 1) ∈ round.nextFrontier) ?_ ?_).imp ?_
  · refine ⟨⟨fun m hm => ?_, fun e he => (nomatch he), Pairwise.nil⟩,
      fun e he => nomatch he⟩
    obtain ⟨Q, hQ, heq, hle⟩ := h.explored m hm
    exact ⟨Q, hQ, heq, .inl hle⟩
  · rintro done entry rest hsplit round₁ ⟨hround₁, htarget₁⟩
    have hmem : entry ∈ frontier := by
      rw [hsplit]
      exact mem_append_right _ (.head _)
    have hdone : ∀ e ∈ done, Reached full maps i e ∧ Earlier e.path entry.path := by
      intro e he
      have hsorted := h.sorted
      rw [hsplit, pairwise_append] at hsorted
      refine ⟨h.reached e ?_, hsorted.2.2 e he entry (.head _)⟩
      rw [hsplit]
      exact mem_append_left _ he
    have hentry := h.reached entry hmem
    have hbefore : ∀ Q, Q.length = i + 1 → (∃ e ∈ done, ∃ c, Q = e.path ++ [c]) →
        ∀ c, Earlier Q (entry.path ++ [c]) := by
      rintro Q _ ⟨e, he, c', rfl⟩ c
      obtain ⟨hreached, hlt⟩ := hdone e he
      exact earlier_concat hlt (hreached.length.trans hentry.length.symm) c' c
    refine (expandEntry_spec hs hi hentry hround₁ hbefore).imp ?_
    rintro round₂ ⟨hround₂, hsub₂, htarget₂⟩
    refine ⟨hround₂.mono ?_, fun e he htarget => ?_⟩
    · rintro Q (⟨e, he, hQ⟩ | hQ)
      · exact ⟨e, mem_append_left _ he, hQ⟩
      · exact ⟨entry, mem_append_right _ (mem_singleton_self _), hQ⟩
    · rcases mem_append.mp he with he | he
      · obtain ⟨hlt, hmem⟩ := htarget₁ e he htarget
        exact ⟨hlt, hsub₂ hmem⟩
      · rw [mem_singleton] at he
        subst he
        exact htarget₂ htarget
  · rintro round ⟨hround, htarget⟩
    obtain ⟨hlt, hmem⟩ := htarget _ h.target_mem rfl
    refine ⟨hlt, fun e he => (hround.next e he).1, hround.sorted, hmem, fun m hm => ?_⟩
    obtain ⟨Q, hQ, heq, hlen⟩ := hround.explored m hm
    refine ⟨Q, hQ, heq, ?_⟩
    rcases hlen with hle | ⟨hlen, _⟩
    · exact Nat.le_succ_of_le hle
    · exact hlen.le

/-- The rounds return a cover that is not longer than the first minimum. -/
theorem runRounds_spec (hs : FirstCover full maps s) {rounds : ℕ} (hi : i < s.length)
    (hrounds : s.length ≤ i + rounds) (h : FrontierInv full maps s i frontier explored) :
    ∃ path, runRounds maps (availabilityConstraints full maps).1 rounds frontier explored =
        some path ∧ IsPath maps path ∧ path.length ≤ s.length ∧
      remaining full maps path.toFinset = ∅ := by
  induction rounds generalizing i frontier explored with
  | zero => omega
  | succ rounds ih =>
    have hround := runSingleDecision_spec hs hi h
    rw [runRounds]
    cases hrun : runSingleDecision maps (availabilityConstraints full maps).1 frontier explored with
    | error path =>
      have hfound := hround.of_error hrun
      exact ⟨path, rfl, hfound.isPath, hfound.length.trans_le hi, hfound.covers⟩
    | ok round =>
      obtain ⟨hlt, hinv⟩ := hround.of_ok hrun
      exact ih hlt (by omega) hinv

end Search

end LibLisa.Mcs
