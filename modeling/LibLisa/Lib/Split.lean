import Mathlib.Data.List.Dedup
import Mathlib.Data.List.SplitBy

/-!
# Splitting a list into groups that are apart

`IsSplit R l groups` says that `groups` lists the elements of `l`, and that no element of one group
is related to an element of another. A split can be refined group by group (`IsSplit.refine`), its
groups can be put in another order (`IsSplit.of_perm`), and grouping by a key is a split when
related elements have the same key (`isSplit_keys`, and `isSplit_splitBy` for neighbours of a sorted
list).
-/

namespace LibLisa.Lib

open List

variable {α β : Type} {l : List α} {R : α → α → Prop}

/-- The groups have the elements of the list, and elements of different groups are not related. -/
structure IsSplit (R : α → α → Prop) (l : List α) (groups : List (List α)) : Prop where
  perm : groups.flatten.Perm l
  apart : groups.Pairwise fun g h => ∀ a ∈ g, ∀ b ∈ h, ¬ R a b

namespace IsSplit

variable {groups : List (List α)}

lemma singleton (R : α → α → Prop) (l : List α) : IsSplit R l [l] :=
  ⟨by simp, pairwise_singleton _ _⟩

lemma mem (h : IsSplit R l groups) {g : List α} (hg : g ∈ groups) {a : α} (ha : a ∈ g) : a ∈ l :=
  h.perm.mem_iff.mp (mem_flatten.mpr ⟨g, hg, ha⟩)

/-- The groups may come in any order. -/
theorem of_perm (h : IsSplit R l groups) (hsymm : ∀ a b, R a b → R b a) {groups' : List (List α)}
    (hperm : groups'.Perm groups) : IsSplit R l groups' := by
  refine ⟨hperm.flatten.trans h.perm, ?_⟩
  refine (hperm.pairwise_iff ?_).mpr h.apart
  intro g h' hapart a ha b hb hab
  exact hapart b hb a ha (hsymm a b hab)

/-- Each group may be split further. -/
theorem refine {parts : List (List (List α))} (h : IsSplit R l groups)
    (hparts : List.Forall₂ (IsSplit R) groups parts) : IsSplit R l parts.flatten := by
  obtain ⟨hperm, hapart⟩ := h
  have hmem : ∀ {gs : List (List α)} {ps : List (List (List α))},
      List.Forall₂ (IsSplit R) gs ps → ps.flatten.flatten.Perm gs.flatten := by
    intro gs ps hall
    induction hall with
    | nil => exact .refl _
    | cons hg _ ih =>
      rw [flatten_cons, flatten_append]
      exact hg.perm.append ih
  refine ⟨(hmem hparts).trans hperm, ?_⟩
  clear hperm
  induction hparts with
  | nil => exact .nil
  | @cons g part gs parts hg hrest ih =>
    rw [pairwise_cons] at hapart
    rw [flatten_cons, pairwise_append]
    refine ⟨hg.apart, ih hapart.2, fun p hp q hq a ha b hb => ?_⟩
    have hb' : b ∈ gs.flatten := (hmem hrest).mem_iff.mp (mem_flatten.mpr ⟨q, hq, hb⟩)
    obtain ⟨g', hg', hbg'⟩ := mem_flatten.mp hb'
    exact hapart.1 g' hg' a (hg.mem hp ha) b hbg'

/-- A split of a list gives one of its image. -/
theorem map {f : α → β} {R : β → β → Prop} (h : IsSplit (fun a b => R (f a) (f b)) l groups) :
    IsSplit R (l.map f) (groups.map (List.map f)) := by
  refine ⟨map_flatten ▸ h.perm.map f, pairwise_map.mpr (h.apart.imp ?_)⟩
  intro g g' hapart x hx y hy
  obtain ⟨a, ha, rfl⟩ := mem_map.mp hx
  obtain ⟨b, hb, rfl⟩ := mem_map.mp hy
  exact hapart a ha b hb

/-- Elements of groups at different positions are not related. -/
lemma not_rel (h : IsSplit R l groups) (hsymm : ∀ a b, R a b → R b a) {i j : ℕ} {g g' : List α}
    (hi : groups[i]? = some g) (hj : groups[j]? = some g') (hij : i ≠ j) {a b : α} (ha : a ∈ g)
    (hb : b ∈ g') : ¬ R a b := by
  obtain ⟨hilt, rfl⟩ := List.getElem?_eq_some_iff.mp hi
  obtain ⟨hjlt, rfl⟩ := List.getElem?_eq_some_iff.mp hj
  have hpair := pairwise_iff_getElem.mp h.apart
  rcases Nat.lt_or_gt_of_ne hij with hlt | hgt
  · exact hpair i j hilt hjlt hlt a ha b hb
  · exact fun hab => hpair j i hjlt hilt hgt b hb a ha (hsymm a b hab)

end IsSplit

/-! ## Grouping by a key -/

/-- Predicates of which each element has exactly one cut a list into pieces. -/
lemma flatten_filter_perm (ps : List (α → Bool)) (l : List α)
    (hcover : ∀ a ∈ l, ∃ p ∈ ps, p a = true)
    (hdisjoint : ps.Pairwise fun p q => ∀ a ∈ l, p a = true → q a = false) :
    (ps.map fun p => l.filter p).flatten.Perm l := by
  induction ps generalizing l with
  | nil =>
    obtain rfl := eq_nil_iff_forall_not_mem.mpr fun a ha => by
      obtain ⟨p, hp, -⟩ := hcover a ha
      cases hp
    exact .refl _
  | cons p ps ih =>
    obtain ⟨hp, hdisjoint⟩ := pairwise_cons.mp hdisjoint
    -- the elements without `p` have the same pieces in the rest
    have hrest : (ps.map fun q => l.filter q) =
        ps.map fun q => (l.filter fun a => !p a).filter q := by
      apply map_congr_left
      intro q hq
      rw [filter_filter]
      apply filter_congr
      intro a ha
      by_cases hpa : p a = true
      · simp [hp q hq a ha hpa]
      · simp [hpa]
    have hperm := ih (l.filter fun a => !p a) (fun a ha => ?_)
      (hdisjoint.imp fun hpq a ha => hpq a (mem_filter.mp ha).1)
    · rw [map_cons, hrest]
      exact (hperm.append_left _).trans (filter_append_perm p l)
    · obtain ⟨hmem, hnot⟩ := mem_filter.mp ha
      obtain ⟨q, hq, hqa⟩ := hcover a hmem
      rcases mem_cons.mp hq with rfl | hq
      · rw [hqa] at hnot
        cases hnot
      · exact ⟨q, hq, hqa⟩

section keys

variable [DecidableEq β] (key : α → β) {ks : List β}

/-- The elements with each of the keys. -/
def groupsOf (ks : List β) (l : List α) : List (List α) :=
  ks.map fun k => l.filter fun a => key a = k

lemma flatten_groupsOf_perm (hnodup : ks.Nodup) (hl : ∀ a ∈ l, key a ∈ ks) :
    (groupsOf key ks l).flatten.Perm l := by
  have hperm := flatten_filter_perm (ks.map fun k a => decide (key a = k)) l ?_ ?_
  · rwa [map_map] at hperm
  · intro a ha
    exact ⟨_, mem_map.mpr ⟨key a, hl a ha, rfl⟩, decide_eq_true rfl⟩
  · refine pairwise_map.mpr (hnodup.imp fun hne a _ ha => ?_)
    rw [decide_eq_true_iff] at ha
    exact decide_eq_false fun hk => hne (ha.symm.trans hk)

/-- Grouping by a key is a split when related elements have the same key. -/
theorem isSplit_keys (hnodup : ks.Nodup)
    (hks : ∀ a ∈ l, key a ∈ ks) (hkey : ∀ a ∈ l, ∀ b ∈ l, R a b → key a = key b) :
    IsSplit R l (groupsOf key ks l) := by
  refine ⟨flatten_groupsOf_perm key hnodup hks, ?_⟩
  refine pairwise_map.mpr (hnodup.imp fun hne a ha b hb hab => hne ?_)
  obtain ⟨ha, hak⟩ := mem_filter.mp ha
  obtain ⟨hb, hbk⟩ := mem_filter.mp hb
  rw [← of_decide_eq_true hak, ← of_decide_eq_true hbk]
  exact hkey a ha b hb hab

end keys

section sorted

variable {key : α → ℕ}

lemma key_eq_of_mem_splitBy {l g : List α} (hg : g ∈ l.splitBy fun a b => key a == key b) {a b : α}
    (ha : a ∈ g) (hb : b ∈ g) : key a = key b := by
  have hchain := (isChain_of_mem_splitBy hg).imp fun a b hab => eq_of_beq hab
  have hpair : g.Pairwise fun a b => key a = key b := isChain_iff_pairwise.mp hchain
  exact hpair.forall_of_forall (R := fun a b => key a = key b) (fun _ _ => rfl) ha hb

/-- In a sorted list of groups with one key each, of which neighbours differ, all differ. -/
lemma pairwise_key_lt :
    ∀ {groups : List (List α)}, [] ∉ groups →
      (∀ g ∈ groups, ∀ a ∈ g, ∀ b ∈ g, key a = key b) →
      groups.flatten.Pairwise (fun a b => key a ≤ key b) →
      groups.IsChain (fun g h => ∃ ha hb, (key (g.getLast ha) == key (h.head hb)) = false) →
      groups.Pairwise fun g h => ∀ a ∈ g, ∀ b ∈ h, key a < key b
  | [], _, _, _, _ => .nil
  | [g], _, _, _, _ => pairwise_singleton _ _
  | g :: h :: rest, hne, hkey, hsorted, hchain => by
    obtain ⟨⟨hg, hh, hdiff⟩, hchain⟩ := isChain_cons_cons.mp hchain
    rw [flatten_cons, pairwise_append] at hsorted
    obtain ⟨-, hsorted, hle⟩ := hsorted
    have hrest := pairwise_key_lt (fun h' => hne (.tail _ h'))
      (fun g' hg' => hkey g' (.tail _ hg')) hsorted hchain
    have hlt : ∀ a ∈ g, ∀ b ∈ h, key a < key b := by
      intro a ha b hb
      have hlast := hkey g (.head _) a ha _ (getLast_mem hg)
      have hhead := hkey h (by simp) b hb _ (head_mem hh)
      have hab := hle a ha b (by simp [hb])
      rw [beq_eq_false_iff_ne] at hdiff
      omega
    refine .cons (fun h' hh' a ha b hb => ?_) hrest
    rcases mem_cons.mp hh' with rfl | hh'
    · exact hlt a ha b hb
    · have hmid := hlt a ha _ (head_mem hh)
      exact hmid.trans ((pairwise_cons.mp hrest).1 h' hh' _ (head_mem hh) b hb)

/-- The runs of equal keys of a sorted list are a split when related elements have the same key. -/
theorem isSplit_splitBy (hsorted : l.Pairwise fun a b => key a ≤ key b)
    (hkey : ∀ a ∈ l, ∀ b ∈ l, R a b → key a = key b) :
    IsSplit R l (l.splitBy fun a b => key a == key b) := by
  have hflat := flatten_splitBy (fun a b => key a == key b) l
  refine ⟨by rw [hflat], ?_⟩
  have hlt := pairwise_key_lt (nil_notMem_splitBy _ l)
    (fun g hg a ha b hb => key_eq_of_mem_splitBy hg ha hb) (hflat.symm ▸ hsorted)
    (isChain_getLast_head_splitBy (fun a b => key a == key b) l)
  refine hlt.imp_of_mem fun {g h} hg hh hlt a ha b hb hab => ?_
  have ha' : a ∈ l := hflat ▸ mem_flatten.mpr ⟨g, hg, ha⟩
  have hb' : b ∈ l := hflat ▸ mem_flatten.mpr ⟨h, hh, hb⟩
  exact absurd (hkey a ha' b hb' hab) (hlt a ha b hb).ne

end sorted

end LibLisa.Lib
