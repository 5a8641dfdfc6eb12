import LibLisa.Panic
import Mathlib.Data.Finset.Max
import Mathlib.Data.List.Dedup
import Mathlib.Data.List.Lex
import Mathlib.Logic.Relation

/-!
# The order of overlapping writes

`resolve_order` takes facts `After(a, b)`: the output `a` is written after `b`. It takes one output
after the other that comes after none of the remaining ones, the smallest first. If none is left to
take, the remaining outputs contain a cycle (`exists_cycle`). Otherwise the result is the least of
the lists that agree with all facts (`resolveLoop_spec`).
-/

namespace LibLisa.Synth

open Lib List Relation Finset

/-- The first output is written after the second. Source: `write_order.rs`, `After` -/
abbrev After := ℕ × ℕ

/-- The outputs that come after no other one. -/
def ready (order : List After) (outputIndices : List ℕ) : List ℕ :=
  outputIndices.filter fun outputIndex => !order.any fun v => v.1 == outputIndex

/-- The facts on other outputs. -/
def retain (order : List After) (next : ℕ) : List After :=
  order.filter fun v => v.1 != next && v.2 != next

/-- The loop of `resolve_order`, with the outputs that it leaves over. -/
def resolveLoop : ℕ → List After → List ℕ → List ℕ → Partial (List ℕ × List ℕ)
  | fuel, order, outputIndices, result =>
    match (ready order outputIndices).min?, fuel with
    | none, _ => .ok (result, outputIndices)
    | some _, 0 => .error .outOfFuel
    | some next, fuel + 1 =>
      resolveLoop fuel (retain order next) (outputIndices.erase next) (result ++ [next])

/-- The outputs of the facts. Which of equal ones is kept does not matter. -/
def outputsOf (order : List After) : List ℕ := (order.flatMap fun x => [x.1, x.2]).dedup

/-- The facts are listed in the iteration order of the set.
Source: `write_order.rs`, `resolve_order` -/
def resolveOrder (order : List After) : Partial (Option (List ℕ)) := do
  let (result, rest) ← resolveLoop (outputsOf order).length order (outputsOf order) []
  return if rest.isEmpty then some result else none

/-- A fact on the two outputs. -/
def IsAfter (order : List After) (a b : ℕ) : Prop := (a, b) ∈ order

/-- The outputs, each of them once and after those that it is written after. -/
@[mk_iff]
structure Sorts (order : List After) (outputs l : List ℕ) : Prop where
  perm : l.Perm outputs
  lt : ∀ a b, IsAfter order a b → l.idxOf b < l.idxOf a

variable {order : List After} {outputs l : List ℕ} {x next : ℕ}

lemma mem_ready : x ∈ ready order outputs ↔ x ∈ outputs ∧ ∀ b, ¬IsAfter order x b := by
  simp only [ready, mem_filter, IsAfter, Bool.not_eq_true', any_eq_false, beq_iff_eq]
  exact and_congr_right fun _ =>
    ⟨fun h b hb => h _ hb rfl, fun h v hv heq => h v.2 (by rwa [← heq])⟩

lemma isAfter_retain {a b : ℕ} :
    IsAfter (retain order next) a b ↔ IsAfter order a b ∧ a ≠ next ∧ b ≠ next := by
  simp [IsAfter, retain]

/-- Outputs that each come after another one contain a cycle. -/
lemma exists_cycle (hne : outputs ≠ []) (h : ∀ x ∈ outputs, ∃ b ∈ outputs, IsAfter order x b) :
    ∃ x, TransGen (IsAfter order) x x := by
  classical
  by_contra hcycle
  -- From the output of which the fewest can be reached one gets to another one.
  obtain ⟨x, hx, hmin⟩ := outputs.toFinset.exists_min_image
    (fun x => (outputs.toFinset.filter (TransGen (IsAfter order) x)).card)
    (toFinset_nonempty_iff outputs |>.mpr hne)
  obtain ⟨b, hb, hxb⟩ := h x (mem_toFinset.mp hx)
  have hb := mem_toFinset.mpr hb
  refine Nat.not_lt.mpr (hmin b hb) (card_lt_card ?_)
  refine Finset.ssubset_iff_subset_ne.mpr ⟨fun y hy => ?_, fun heq => hcycle ⟨b, ?_⟩⟩
  · obtain ⟨hy, hby⟩ := Finset.mem_filter.mp hy
    exact mem_filter.mpr ⟨hy, .head hxb hby⟩
  · have hmem := mem_filter.mpr ⟨hb, TransGen.single hxb⟩
    rw [← heq] at hmem
    exact (Finset.mem_filter.mp hmem).2

lemma Sorts.acyclic (h : Sorts order outputs l) : ¬∃ x, TransGen (IsAfter order) x x := by
  rintro ⟨x, hx⟩
  have hlt : ∀ {a b}, TransGen (IsAfter order) a b → l.idxOf b < l.idxOf a := by
    intro a b hab
    induction hab with
    | single hab => exact h.lt _ _ hab
    | tail _ hbc ih => exact (h.lt _ _ hbc).trans ih
  exact Nat.lt_irrefl _ (hlt hx)

/-- An output that is ready may come first. -/
lemma sorts_cons_iff (hnext : next ∈ ready order outputs) :
    Sorts order outputs (next :: l) ↔ Sorts (retain order next) (outputs.erase next) l := by
  obtain ⟨hmem, hready⟩ := mem_ready.mp hnext
  have hperm : (next :: l).Perm outputs ↔ l.Perm (outputs.erase next) := by
    rw [cons_perm_iff_perm_erase, and_iff_right hmem]
  constructor
  · rintro ⟨hl, hlt⟩
    refine ⟨hperm.mp hl, fun a b hab => ?_⟩
    obtain ⟨hab, ha, hb⟩ := isAfter_retain.mp hab
    have := hlt a b hab
    rwa [idxOf_cons_ne _ ha.symm, idxOf_cons_ne _ hb.symm, Nat.succ_lt_succ_iff] at this
  · rintro ⟨hl, hlt⟩
    refine ⟨hperm.mpr hl, fun a b hab => ?_⟩
    have ha : a ≠ next := fun ha => hready b (ha ▸ hab)
    rw [idxOf_cons_ne _ ha.symm]
    rcases eq_or_ne b next with rfl | hb
    · rw [idxOf_cons_self]
      exact Nat.succ_pos _
    · rw [idxOf_cons_ne _ hb.symm]
      exact Nat.succ_lt_succ (hlt a b (isAfter_retain.mpr ⟨hab, ha, hb⟩))

/-- A list that starts with the smallest output that is ready and goes on with the least list. -/
lemma cons_le_of_sorts (hnext : next ∈ ready order outputs)
    (hmin : ∀ b ∈ ready order outputs, next ≤ b)
    (hl : ∀ l', Sorts (retain order next) (outputs.erase next) l' → l ≤ l') {l' : List ℕ}
    (h : Sorts order outputs l') : next :: l ≤ l' := by
  rcases l' with _ | ⟨head, tail⟩
  · cases h.perm.symm.subset (mem_ready.mp hnext).1
  have hhead : head ∈ ready order outputs := by
    refine mem_ready.mpr ⟨h.perm.subset mem_cons_self, fun b hb => ?_⟩
    have := h.lt head b hb
    rw [idxOf_cons_self] at this
    cases this
  rcases Nat.lt_or_eq_of_le (hmin head hhead) with hlt | rfl
  · exact le_of_lt (.rel hlt)
  · exact cons_le_cons next (hl tail ((sorts_cons_iff hnext).mp h))

/-- Either a cycle is left over, or the list is the least one. -/
def Resolves (order : List After) (outputs l rest : List ℕ) : Prop :=
  (rest ≠ [] ∧ ∃ x, TransGen (IsAfter order) x x) ∨
    rest = [] ∧ Sorts order outputs l ∧ ∀ l', Sorts order outputs l' → l ≤ l'

lemma resolves_nil (hmem : ∀ a b, IsAfter order a b → b ∈ outputs)
    (h : (ready order outputs).min? = none) : Resolves order outputs [] outputs := by
  by_cases hne : outputs = []
  · subst hne
    refine .inr ⟨rfl, ⟨.nil, fun a b hab => nomatch hmem a b hab⟩, fun l' _ => ?_⟩
    cases l' with
    | nil => rfl
    | cons head tail => exact le_of_lt .nil
  · refine .inl ⟨hne, exists_cycle hne fun x hx => ?_⟩
    by_contra hnone
    have hx : x ∈ ready order outputs := mem_ready.mpr ⟨hx, fun b hb => hnone ⟨b, hmem x b hb, hb⟩⟩
    rw [min?_eq_none_iff.mp h] at hx
    cases hx

/-- The loop appends outputs until none is ready. -/
lemma resolveLoop_spec (fuel : ℕ) (result : List ℕ) (hfuel : outputs.length ≤ fuel)
    (hmem : ∀ a b, IsAfter order a b → b ∈ outputs) :
    ∃ l rest, resolveLoop fuel order outputs result = .ok (result ++ l, rest) ∧
      Resolves order outputs l rest := by
  induction fuel generalizing order outputs result with
  | zero =>
    unfold resolveLoop
    rcases hmin : (ready order outputs).min? with _ | next
    · exact ⟨[], outputs, by rw [append_nil], resolves_nil hmem hmin⟩
    · have hnext := (mem_ready.mp (min?_eq_some_iff.mp hmin).1).1
      rw [eq_nil_of_length_eq_zero (Nat.le_zero.mp hfuel)] at hnext
      cases hnext
  | succ fuel ih =>
    unfold resolveLoop
    rcases hmin : (ready order outputs).min? with _ | next
    · exact ⟨[], outputs, by rw [append_nil], resolves_nil hmem hmin⟩
    · obtain ⟨hnext, hleast⟩ := min?_eq_some_iff.mp hmin
      have hmem' : ∀ a b, IsAfter (retain order next) a b → b ∈ outputs.erase next := by
        intro a b hab
        obtain ⟨hab, -, hb⟩ := isAfter_retain.mp hab
        exact (mem_erase_of_ne hb).mpr (hmem a b hab)
      have hlen := length_erase_of_mem (mem_ready.mp hnext).1
      obtain ⟨l, rest, hl, h⟩ := ih (result ++ [next]) (by omega) hmem'
      rw [append_assoc] at hl
      refine ⟨next :: l, rest, hl, h.imp ?_ ?_⟩
      · rintro ⟨hne, x, hx⟩
        exact ⟨hne, x, TransGen.mono (fun a b hab => (isAfter_retain.mp hab).1) _ _ hx⟩
      · rintro ⟨rfl, hsorts, hle⟩
        exact ⟨rfl, (sorts_cons_iff hnext).mpr hsorts, fun l' => cons_le_of_sorts hnext hleast hle⟩

/-- No list if there is a cycle, and otherwise the least one that agrees with all facts. -/
def IsResult (order : List After) (r : Option (List ℕ)) : Prop :=
  (r = none ↔ ∃ x, TransGen (IsAfter order) x x) ∧ ∀ l, r = some l →
    Sorts order (outputsOf order) l ∧ ∀ l', Sorts order (outputsOf order) l' → l ≤ l'

lemma IsResult.unique {r r' : Option (List ℕ)} (h : IsResult order r) (h' : IsResult order r') :
    r = r' := by
  rcases r with _ | l
  · exact (h'.1.mpr (h.1.mp rfl)).symm
  rcases r' with _ | l'
  · exact h.1.mpr (h'.1.mp rfl)
  obtain ⟨hl, hle⟩ := h.2 l rfl
  obtain ⟨hl', hle'⟩ := h'.2 l' rfl
  rw [Std.le_antisymm (hle l' hl') (hle' l hl)]

lemma exists_resolveOrder (order : List After) : ∃ r, resolveOrder order = .ok r ∧ IsResult order r := by
  have hmem : ∀ a b, IsAfter order a b → b ∈ outputsOf order := fun a b hab =>
    mem_dedup.mpr (mem_flatMap.mpr ⟨(a, b), hab, mem_cons_of_mem _ mem_cons_self⟩)
  obtain ⟨l, rest, hl, h⟩ := resolveLoop_spec _ [] (Nat.le_refl _) hmem
  unfold resolveOrder
  rw [hl]
  rcases h with ⟨hne, hcycle⟩ | ⟨rfl, hsorts, hle⟩
  · exact ⟨none, by simp [hne], iff_of_true rfl hcycle, nofun⟩
  · refine ⟨some l, rfl, iff_of_false nofun hsorts.acyclic, ?_⟩
    rintro _ ⟨⟩
    exact ⟨hsorts, hle⟩

/-- `resolve_order` returns the least order that agrees with all facts, and none exactly if the facts
contain a cycle, in whatever order the facts are listed. -/
theorem resolveOrder_isResult (order : List After) :
    ∃ r, IsResult order r ∧
      ∀ order', (∀ v, v ∈ order' ↔ v ∈ order) → resolveOrder order' = .ok r := by
  obtain ⟨r, -, hr⟩ := exists_resolveOrder order
  refine ⟨r, hr, fun order' hmem => ?_⟩
  obtain ⟨r', hr', h'⟩ := exists_resolveOrder order'
  have hafter : IsAfter order' = IsAfter order := funext₂ fun a b => propext (hmem (a, b))
  have hperm : (outputsOf order').Perm (outputsOf order) := by
    refine (perm_ext_iff_of_nodup (nodup_dedup _) (nodup_dedup _)).mpr fun x => ?_
    simp [hmem]
  have hsorts : ∀ l, Sorts order' (outputsOf order') l ↔ Sorts order (outputsOf order) l := by
    intro l
    rw [sorts_iff, sorts_iff, hafter]
    exact and_congr_left fun _ => ⟨fun h => h.trans hperm, fun h => h.trans hperm.symm⟩
  unfold IsResult at h'
  simp only [hafter, hsorts] at h'
  rw [hr', IsResult.unique h' hr]

end LibLisa.Synth
