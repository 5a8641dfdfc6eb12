import Mathlib.Data.Finset.Card

/-!
# Connected components by repeated search

A graph on the numbers below `n` is given by its rows: `row v` lists the neighbours of `v`.
`explore` marks what a stack of vertices reaches, `components` repeats it from a vertex that is not
marked yet until all are. On a reflexive graph `explore` marks exactly what the start reaches
(`exists_explore`); on a symmetric one the marks of `components` are the classes of reachability
(`exists_components`).
-/

namespace LibLisa.Lib.Components

open Finset

/-- Marks the items that are not marked and puts them on the stack. -/
def markRow : List ℕ → Finset ℕ → List ℕ → Finset ℕ × List ℕ
  | [], mask, frontier => (mask, frontier)
  | item :: items, mask, frontier =>
    if item ∈ mask then markRow items mask frontier
    else markRow items (insert item mask) (item :: frontier)

/-- The search from a stack of vertices, `none` if the fuel does not last. -/
def explore (row : ℕ → List ℕ) : ℕ → List ℕ → Finset ℕ → Option (Finset ℕ)
  | _, [], mask => some mask
  | 0, _ :: _, _ => none
  | fuel + 1, v :: frontier, mask =>
    explore row fuel (markRow (row v) mask frontier).2 (markRow (row v) mask frontier).1

/-- The marks of the searches from `first` of what remains. -/
def components (row : ℕ → List ℕ) (first : Finset ℕ → Option ℕ) (n : ℕ) :
    ℕ → Finset ℕ → Option (List (Finset ℕ))
  | fuel, remaining =>
    match first remaining with
    | none => some []
    | some v =>
      match fuel with
      | 0 => none
      | fuel + 1 => do
        let mask ← explore row (n + 1) [v] ∅
        let masks ← components row first n fuel (remaining \ mask)
        return mask :: masks

/-- `v` is reached from `s` along rows. -/
def Reach (row : ℕ → List ℕ) (s v : ℕ) : Prop := Relation.ReflTransGen (fun a b => b ∈ row a) s v

/-! ## One search -/

/-- What marking a row does. -/
structure Marked (items : List ℕ) (mask : Finset ℕ) (frontier : List ℕ) (r : Finset ℕ × List ℕ) :
    Prop where
  mem_mask : ∀ v, v ∈ r.1 ↔ v ∈ mask ∨ v ∈ items
  frontier_subset : ∀ v ∈ frontier, v ∈ r.2
  mem_frontier : ∀ v ∈ r.2, v ∈ frontier ∨ v ∈ items
  new_on_frontier : ∀ v ∈ r.1, v ∈ mask ∨ v ∈ r.2
  card_eq : r.1.card + frontier.length = mask.card + r.2.length

lemma markRow_spec (items : List ℕ) (mask : Finset ℕ) (frontier : List ℕ) :
    Marked items mask frontier (markRow items mask frontier) := by
  induction items generalizing mask frontier with
  | nil => exact ⟨by simp [markRow], fun _ h => h, fun _ h => Or.inl h, fun _ h => Or.inl h, rfl⟩
  | cons item items ih =>
    unfold markRow
    split
    next hin =>
      obtain ⟨hmask, hsub, hfront, hnew, hcard⟩ := ih mask frontier
      refine ⟨fun v => ?_, hsub, fun v hv => ?_, hnew, hcard⟩
      · rw [hmask, List.mem_cons]
        constructor
        · rintro (h | h)
          · exact Or.inl h
          · exact Or.inr (Or.inr h)
        · rintro (h | rfl | h)
          · exact Or.inl h
          · exact Or.inl hin
          · exact Or.inr h
      · exact (hfront v hv).imp_right (List.mem_cons_of_mem _)
    next hout =>
      obtain ⟨hmask, hsub, hfront, hnew, hcard⟩ := ih (insert item mask) (item :: frontier)
      refine ⟨fun v => ?_, fun v hv => hsub v (.tail _ hv), fun v hv => ?_, fun v hv => ?_, ?_⟩
      · rw [hmask, mem_insert, List.mem_cons]
        tauto
      · rcases hfront v hv with h | h
        · rcases List.mem_cons.mp h with rfl | h
          · exact Or.inr (.head _)
          · exact Or.inl h
        · exact Or.inr (.tail _ h)
      · rcases hnew v hv with h | h
        · rcases mem_insert.mp h with rfl | h
          · exact Or.inr (hsub v (.head _))
          · exact Or.inl h
        · exact Or.inr h
      · rw [card_insert_of_notMem hout, List.length_cons] at hcard
        omega

section search

variable {row : ℕ → List ℕ} {n : ℕ} (hrow : ∀ v, ∀ w ∈ row v, w < n) {mask : Finset ℕ}

/-- The state of a search from `s`: what is marked or waiting is reached, a marked vertex waits or
has its row marked, and the start is waiting or marked. -/
structure Inv (row : ℕ → List ℕ) (n s : ℕ) (frontier : List ℕ) (mask : Finset ℕ) : Prop where
  reach_mask : ∀ v ∈ mask, Reach row s v
  reach_frontier : ∀ v ∈ frontier, Reach row s v
  closed : ∀ v ∈ mask, v ∈ frontier ∨ ∀ w ∈ row v, w ∈ mask
  start : s ∈ mask ∨ s ∈ frontier
  bound : mask ⊆ Finset.range n

include hrow in
/-- Marking one row keeps the invariant of the search. -/
lemma Inv.step {s v : ℕ} {frontier : List ℕ}
    (h : Inv row n s (v :: frontier) mask) (hrefl : s ∈ row s) :
    Inv row n s (markRow (row v) mask frontier).2 (markRow (row v) mask frontier).1 := by
  obtain ⟨hmask, hsub, hfront, hnew, -⟩ := markRow_spec (row v) mask frontier
  have hv : Reach row s v := h.reach_frontier v (.head _)
  have hitem : ∀ w ∈ row v, Reach row s w := fun w hw => hv.tail hw
  refine ⟨fun w hw => ?_, fun w hw => ?_, fun w hw => ?_, ?_, fun w hw => ?_⟩
  · exact ((hmask w).mp hw).elim (h.reach_mask w) (hitem w)
  · exact (hfront w hw).elim (fun h' => h.reach_frontier w (.tail _ h')) (hitem w)
  · rcases hnew w hw with hold | hwait
    · rcases h.closed w hold with hwait | hclosed
      · rcases List.mem_cons.mp hwait with rfl | hwait
        · exact Or.inr fun u hu => (hmask u).mpr (Or.inr hu)
        · exact Or.inl (hsub w hwait)
      · exact Or.inr fun u hu => (hmask u).mpr (Or.inl (hclosed u hu))
    · exact Or.inl hwait
  · rcases h.start with hs | hs
    · exact Or.inl ((hmask s).mpr (Or.inl hs))
    · rcases List.mem_cons.mp hs with rfl | hs
      · exact Or.inl ((hmask s).mpr (Or.inr hrefl))
      · exact Or.inr (hsub s hs)
  · rcases (hmask w).mp hw with hold | hnew
    · exact h.bound hold
    · exact mem_range.mpr (hrow v w hnew)

/-- With an empty stack, the marks are what the start reaches. -/
lemma Inv.mem_iff {s : ℕ} (h : Inv row n s [] mask) (v : ℕ) : v ∈ mask ↔ Reach row s v := by
  constructor
  · exact h.reach_mask v
  · intro hv
    induction hv with
    | refl => exact h.start.resolve_right List.not_mem_nil
    | tail _ hw ih => exact (h.closed _ ih).resolve_left List.not_mem_nil _ hw

include hrow in
lemma exists_explore_from {s : ℕ} (hrefl : s ∈ row s) :
    ∀ (fuel : ℕ) (frontier : List ℕ) (mask : Finset ℕ), Inv row n s frontier mask →
      frontier.length + (n - mask.card) ≤ fuel →
      ∃ mask', explore row fuel frontier mask = some mask' ∧ ∀ v, v ∈ mask' ↔ Reach row s v
  | fuel, [], mask, h, _ => ⟨mask, by unfold explore; rfl, h.mem_iff⟩
  | 0, v :: frontier, mask, _, hfuel => absurd hfuel (by simp)
  | fuel + 1, v :: frontier, mask, h, hfuel => by
    have hstep := h.step hrow hrefl
    have hcard := (markRow_spec (row v) mask frontier).card_eq
    have hle := (card_le_card hstep.bound).trans (card_range n).le
    rw [List.length_cons] at hfuel
    exact exists_explore_from hrefl fuel _ _ hstep (by omega)

/-! ## All searches -/

/-- The masks are classes of reachability, pairwise disjoint, that cover the vertices. -/
structure IsComponents (row : ℕ → List ℕ) (vertices : Finset ℕ) (masks : List (Finset ℕ)) :
    Prop where
  cover : ∀ v ∈ vertices, ∃ mask ∈ masks, v ∈ mask
  isClass : ∀ mask ∈ masks, ∃ s ∈ vertices, ∀ v, v ∈ mask ↔ Reach row s v
  disjoint : masks.Pairwise Disjoint

lemma Reach.symm (hsymm : ∀ v w, w ∈ row v → v ∈ row w) {v w : ℕ} (h : Reach row v w) :
    Reach row w v := by
  induction h with
  | refl => exact .refl
  | tail _ hw ih => exact .head (hsymm _ _ hw) ih

variable {first : Finset ℕ → Option ℕ} (hnone : ∀ m, first m = none → m = ∅)
  (hsome : ∀ m v, first m = some v → v ∈ m) (hrefl : ∀ v < n, v ∈ row v)
  (hsymm : ∀ v w, w ∈ row v → v ∈ row w)

include hrow hnone hsome hrefl hsymm in
lemma exists_components_from :
    ∀ (fuel : ℕ) (remaining : Finset ℕ), remaining.card ≤ fuel → remaining ⊆ range n →
      (∀ v ∈ remaining, ∀ w, Reach row v w → w ∈ remaining) →
      ∃ masks, components row first n fuel remaining = some masks ∧
        IsComponents row remaining masks := by
  intro fuel
  induction fuel with
  | zero =>
    intro remaining hcard _ _
    obtain rfl := card_eq_zero.mp (Nat.le_zero.mp hcard)
    refine ⟨[], ?_, by simp, by simp, .nil⟩
    unfold components
    rcases hfirst : first ∅ with _ | v
    · rfl
    · exact absurd (hsome ∅ v hfirst) (notMem_empty v)
  | succ fuel ih =>
    intro remaining hcard hbound hclosed
    unfold components
    rcases hfirst : first remaining with _ | s
    · obtain rfl := hnone remaining hfirst
      exact ⟨[], rfl, by simp, by simp, .nil⟩
    have hs := hsome remaining s hfirst
    have hstart : Inv row n s [s] ∅ :=
      ⟨by simp, by simp [Reach, Relation.ReflTransGen.refl], by simp, by simp, by simp⟩
    obtain ⟨mask, hmask, hreach⟩ := exists_explore_from hrow (hrefl s (mem_range.mp (hbound hs)))
      (n + 1) [s] ∅ hstart (by simp; omega)
    have hsmask : s ∈ mask := (hreach s).mpr .refl
    -- what the search has not marked is still closed under reachability
    have hclosed' : ∀ v ∈ remaining \ mask, ∀ w, Reach row v w → w ∈ remaining \ mask := by
      intro v hv w hvw
      obtain ⟨hv, hvmask⟩ := mem_sdiff.mp hv
      refine mem_sdiff.mpr ⟨hclosed v hv w hvw, fun hw => hvmask ?_⟩
      exact (hreach v).mpr (((hreach w).mp hw).trans (hvw.symm hsymm))
    have hless : (remaining \ mask).card < remaining.card :=
      card_lt_card ⟨sdiff_subset, fun h =>
        (mem_sdiff.mp (h hs)).2 hsmask⟩
    obtain ⟨masks, hmasks, hcover, hclass, hdisjoint⟩ := ih (remaining \ mask) (by omega)
      (sdiff_subset.trans hbound) hclosed'
    refine ⟨mask :: masks, by simp [hmask, hmasks], fun v hv => ?_, fun m hm => ?_, ?_⟩
    · by_cases hvmask : v ∈ mask
      · exact ⟨mask, List.mem_cons_self, hvmask⟩
      · obtain ⟨m, hm, hvm⟩ := hcover v (mem_sdiff.mpr ⟨hv, hvmask⟩)
        exact ⟨m, .tail _ hm, hvm⟩
    · rcases List.mem_cons.mp hm with rfl | hm
      · exact ⟨s, hs, hreach⟩
      · obtain ⟨t, ht, htm⟩ := hclass m hm
        exact ⟨t, (mem_sdiff.mp ht).1, htm⟩
    · refine .cons (fun m hm => ?_) hdisjoint
      obtain ⟨t, ht, htm⟩ := hclass m hm
      rw [disjoint_left]
      intro v hv hvm
      apply (mem_sdiff.mp ht).2
      exact (hreach t).mpr (((hreach v).mp hv).trans (((htm v).mp hvm).symm hsymm))

include hrow hnone hsome hrefl hsymm in
/-- The searches find the components of a reflexive and symmetric graph on the numbers below
`n`. -/
theorem exists_components :
    ∃ masks, components row first n n (range n) = some masks ∧
      IsComponents row (range n) masks := by
  apply exists_components_from hrow hnone hsome hrefl hsymm n _ (card_range n).le
    (Finset.Subset.refl _)
  intro v hv w hvw
  rcases Relation.ReflTransGen.cases_tail hvw with rfl | ⟨u, -, huw⟩
  · exact hv
  · exact mem_range.mpr (hrow u w huw)

end search

end LibLisa.Lib.Components
