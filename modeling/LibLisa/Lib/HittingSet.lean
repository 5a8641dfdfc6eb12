import Mathlib.Data.Fintype.Powerset

/-!
# Minimum hitting sets

A set hits a family of sets if it meets every one of them (`Hits`). A reduction of a family commits
to some elements and leaves a smaller family (`Reduces`); a minimum for the rest, together with the
committed elements, is then a minimum for the whole.

Among the sets of least size with a property there is one that no other precedes in lexicographic
order (`exists_first_minimum`). A search in that order can drop every candidate that an earlier one
makes superfluous and still finds this set.
-/

namespace LibLisa.Lib

open List

variable {α : Type} {ds : List (Finset α)} {H : Finset α}

/-- The set meets every set of the family. -/
def Hits (ds : List (Finset α)) (H : Finset α) : Prop := ∀ d ∈ ds, ∃ x ∈ d, x ∈ H

/-- A set of the least size with a property. -/
def IsMinimum (P : Finset α → Prop) (H : Finset α) : Prop := P H ∧ ∀ T, P T → H.card ≤ T.card

lemma Hits.mono {H T : Finset α} (h : Hits ds H) (hsub : H ⊆ T) :
    Hits ds T := fun d hd =>
  let ⟨x, hxd, hx⟩ := h d hd
  ⟨x, hxd, hsub hx⟩

lemma hits_cons {d : Finset α} : Hits (d :: ds) H ↔ (∃ x ∈ d, x ∈ H) ∧ Hits ds H := forall_mem_cons

/-! ## Reductions -/

section Reduces

variable [DecidableEq α]

/-- The family `ds` comes down to the elements `decided` and the family `rest`. -/
structure Reduces (ds : List (Finset α)) (decided : Finset α) (rest : List (Finset α)) : Prop where
  sound : ∀ H, Hits rest H → Hits ds (decided ∪ H)
  optimal : ∀ T, Hits ds T → ∃ H, Hits rest H ∧ decided.card + H.card ≤ T.card

variable {ds rest rest' : List (Finset α)} {decided decided' : Finset α}

lemma Reduces.of_hits_iff (h : ∀ H, Hits rest H ↔ Hits ds H) : Reduces ds ∅ rest where
  sound H hH := by
    rw [Finset.empty_union]
    exact (h H).mp hH
  optimal T hT := ⟨T, (h T).mpr hT, by simp⟩

section

variable (hred : Reduces ds decided rest)
include hred

/-- A family with the same hitting sets. -/
lemma Reduces.congr (h : ∀ H, Hits rest' H ↔ Hits rest H) :
    Reduces ds decided rest' where
  sound H hH := hred.sound H ((h H).mp hH)
  optimal T hT :=
    let ⟨H, hH, hcard⟩ := hred.optimal T hT
    ⟨H, (h H).mpr hH, hcard⟩

/-- Committing to elements that every hitting set has, and leaving out what they meet. -/
lemma Reduces.commit (hsub : decided ⊆ decided')
    (hforced : ∀ H, Hits rest H → decided' ⊆ decided ∪ H)
    (hcover : ∀ d ∈ rest, d ∈ rest' ∨ ∃ x ∈ d, x ∈ decided')
    (hrest : ∀ d ∈ rest', d ∈ rest ∧ Disjoint decided' d) : Reduces ds decided' rest' where
  sound H hH := by
    have hhits : Hits rest (decided' ∪ H) := by
      intro d hd
      rcases hcover d hd with hd' | ⟨x, hxd, hx⟩
      · obtain ⟨x, hxd, hx⟩ := hH d hd'
        exact ⟨x, hxd, Finset.mem_union_right _ hx⟩
      · exact ⟨x, hxd, Finset.mem_union_left _ hx⟩
    refine (hred.sound _ hhits).mono (Finset.union_subset ?_ subset_rfl)
    exact hsub.trans Finset.subset_union_left
  optimal T hT := by
    obtain ⟨H, hH, hcard⟩ := hred.optimal T hT
    refine ⟨H \ decided', ?_, ?_⟩
    · intro d hd
      obtain ⟨hd', hdisj⟩ := hrest d hd
      obtain ⟨x, hxd, hx⟩ := hH d hd'
      exact ⟨x, hxd, Finset.mem_sdiff.mpr ⟨hx, fun hx' => Finset.disjoint_left.mp hdisj hx' hxd⟩⟩
    · have hunion : decided' ∪ H \ decided' ⊆ decided ∪ H := by
        refine Finset.union_subset (hforced H hH) ?_
        exact Finset.sdiff_subset.trans Finset.subset_union_right
      calc decided'.card + (H \ decided').card
          = (decided' ∪ H \ decided').card :=
            (Finset.card_union_of_disjoint Finset.disjoint_sdiff).symm
        _ ≤ (decided ∪ H).card := Finset.card_le_card hunion
        _ ≤ decided.card + H.card := Finset.card_union_le _ _
        _ ≤ T.card := hcard

/-- Shrinking the sets, when every element that is dropped has a replacement wherever it stood. -/
lemma Reduces.shrink (hsub : List.Forall₂ (fun d d' => d' ⊆ d) rest rest')
    (hreplace : ∀ x, ∃ y, List.Forall₂ (fun d d' => x ∈ d → y ∈ d') rest rest') :
    Reduces ds decided rest' where
  sound H hH := by
    refine hred.sound H ?_
    clear hreplace hred
    induction hsub with
    | nil => exact hH
    | cons hd _ ih =>
      obtain ⟨⟨x, hxd, hx⟩, hrest⟩ := hits_cons.mp hH
      exact hits_cons.mpr ⟨⟨x, hd hxd, hx⟩, ih hrest⟩
  optimal T hT := by
    obtain ⟨H, hH, hcard⟩ := hred.optimal T hT
    choose f hf using hreplace
    refine ⟨H.image f, fun d' hd' => ?_, ?_⟩
    · obtain ⟨i, hi⟩ := mem_iff_getElem?.mp hd'
      obtain ⟨hlt, hget⟩ := List.getElem?_eq_some_iff.mp hi
      have hlt' : i < rest.length := hsub.length_eq ▸ hlt
      obtain ⟨x, hxd, hx⟩ := hH rest[i] (getElem_mem hlt')
      refine ⟨f x, ?_, Finset.mem_image_of_mem f hx⟩
      rw [← hget]
      exact (List.forall₂_iff_get.mp (hf x)).2 i hlt' hlt hxd
    · have himage : (H.image f).card ≤ H.card := Finset.card_image_le
      omega

/-- A minimum for the rest gives one for the whole. -/
lemma Reduces.isMinimum (hH : Hits rest H) (hmin : ∀ T, Hits rest T → H.card ≤ T.card) :
    IsMinimum (Hits ds) (decided ∪ H) := by
  refine ⟨hred.sound H hH, fun T hT => ?_⟩
  obtain ⟨H', hH', hcard⟩ := hred.optimal T hT
  have hle := hmin H' hH'
  have hunion : (decided ∪ H).card ≤ decided.card + H.card := Finset.card_union_le _ _
  omega

end

end Reduces

/-! ## The first minimum -/

section Precedes

variable [LinearOrder α]

/-- At the smallest element in which the sets differ, the first one has it. -/
def Precedes (T S : Finset α) : Prop := ∃ p ∈ T, p ∉ S ∧ ∀ x < p, x ∈ T ↔ x ∈ S

lemma Precedes.irrefl (S : Finset α) : ¬ Precedes S S := by
  rintro ⟨p, hp, hp', _⟩
  exact hp' hp

lemma Precedes.trans {R S T : Finset α} (hRS : Precedes R S) (hST : Precedes S T) :
    Precedes R T := by
  obtain ⟨p, hpR, hpS, hp⟩ := hRS
  obtain ⟨q, hqS, hqT, hq⟩ := hST
  rcases lt_trichotomy p q with hlt | rfl | hlt
  · exact ⟨p, hpR, fun hpT => hpS ((hq p hlt).mpr hpT), fun x hx =>
      (hp x hx).trans (hq x (hx.trans hlt))⟩
  · exact absurd hqS hpS
  · exact ⟨q, (hp q hlt).mpr hqS, hqT, fun x hx => (hp x (hx.trans hlt)).trans (hq x hx)⟩

/-- Among the sets of least size there is a first one. -/
theorem exists_first_minimum {P : Finset α → Prop} {U : Finset α} (hU : ∀ S, P S → S ⊆ U)
    {S₀ : Finset α} (h₀ : P S₀) :
    ∃ S, IsMinimum P S ∧ ∀ T, P T → T.card ≤ S.card → ¬ Precedes T S := by
  -- the sets of least size, as a subset of a finite type
  obtain ⟨M, hM, hMmin⟩ : ∃ M, P M ∧ ∀ T, P T → M.card ≤ T.card := by
    have hwf := (measure (Finset.card (α := α))).wf
    obtain ⟨M, hM, hMmin⟩ := hwf.has_min {S | P S} ⟨S₀, h₀⟩
    exact ⟨M, hM, fun T hT => Nat.le_of_not_lt (hMmin T hT)⟩
  let r : {S // S ∈ U.powerset} → {S // S ∈ U.powerset} → Prop := fun S T => Precedes S.1 T.1
  have : IsTrans _ r := ⟨fun _ _ _ => Precedes.trans⟩
  have : Std.Irrefl r := ⟨fun S => Precedes.irrefl S.1⟩
  have hwf : WellFounded r := Finite.wellFounded_of_trans_of_irrefl r
  have hmem : ∀ S, P S → S ∈ U.powerset := fun S hS => Finset.mem_powerset.mpr (hU S hS)
  obtain ⟨S, ⟨hS, hcard⟩, hfirst⟩ := hwf.has_min {S | P S.1 ∧ S.1.card ≤ M.card}
    ⟨⟨M, hmem M hM⟩, hM, le_rfl⟩
  refine ⟨S.1, ⟨hS, fun T hT => hcard.trans (hMmin T hT)⟩, fun T hT hle => ?_⟩
  exact hfirst ⟨T, hmem T hT⟩ ⟨hT, hle.trans hcard⟩

/-- Replacing an element of a set by a smaller one that it does not have. -/
lemma precedes_of_exchange {S : Finset α} {j c : α} (hjc : j < c) (hj : j ∉ S) :
    Precedes (insert j (S.erase c)) S := by
  refine ⟨j, Finset.mem_insert_self _ _, hj, fun x hx => ?_⟩
  have hxj : x ≠ j := hx.ne
  have hxc : x ≠ c := (hx.trans hjc).ne
  simp [hxj, hxc]

/-- Replacing an initial segment of a set by a list that comes before it. -/
lemma precedes_of_lex {P Q R : List α} (hlt : List.Lex (· < ·) P Q) (hlen : P.length = Q.length)
    (hP : P.Pairwise (· < ·)) (hQ : (Q ++ R).Pairwise (· < ·)) :
    Precedes (P ++ R).toFinset (Q ++ R).toFinset := by
  obtain ⟨p, hpP, hpQ, hp⟩ : ∃ p ∈ P, p ∉ Q ++ R ∧ ∀ x < p, x ∈ P ++ R ↔ x ∈ Q ++ R := by
    induction hlt with
    | nil => exact absurd hlen (by simp)
    | @rel a P b Q hab =>
      rw [cons_append, pairwise_cons] at hQ
      rw [pairwise_cons] at hP
      refine ⟨a, mem_cons_self, fun hmem => ?_, fun x hx => ?_⟩
      · rcases mem_cons.mp hmem with rfl | hmem
        · exact lt_irrefl _ hab
        · exact lt_asymm hab (hQ.1 a hmem)
      · simp only [cons_append, mem_cons, mem_append, hx.ne, (hx.trans hab).ne,
          false_or]
        have hxP : x ∉ P := fun h => lt_asymm hx (hP.1 x h)
        have hxQ : x ∉ Q := fun h =>
          lt_asymm (hx.trans hab) (hQ.1 x (mem_append_left _ h))
        simp [hxP, hxQ]
    | @cons a P Q _ ih =>
      rw [cons_append, pairwise_cons] at hQ
      rw [pairwise_cons] at hP
      obtain ⟨p, hpP, hpQ, hp⟩ := ih (Nat.succ.inj hlen) hP.2 hQ.2
      refine ⟨p, .tail _ hpP, ?_, fun x hx => ?_⟩
      · rw [cons_append, mem_cons, not_or]
        exact ⟨(hP.1 p hpP).ne', hpQ⟩
      · rw [cons_append, cons_append, mem_cons, mem_cons, hp x hx]
  refine ⟨p, ?_, ?_, fun x hx => ?_⟩
  · rw [mem_toFinset]
    exact mem_append_left _ hpP
  · rwa [mem_toFinset]
  · rw [mem_toFinset, mem_toFinset, hp x hx]

end Precedes

end LibLisa.Lib
