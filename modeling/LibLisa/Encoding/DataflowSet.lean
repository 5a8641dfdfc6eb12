import LibLisa.Utils.GrowingBitmap
import LibLisa.Utils.Matrix
import Mathlib.Data.List.Induction

/-!
# The set of dataflows

`IsDataflowSet` keeps the pairs of a source and a destination byte that were pushed, in the order
of their first insertion. Whether a pair is there is one bit of a growing bitmap, at the place that
numbers the pairs by diagonals. From the diagonal `2 ^ 32` on the product in that place overflows.

`behavesAsSet_iff` says that below this diagonal, and only there, any sequence of insertions behaves
as on a set: the places are injective (`index_injective`), so `Holds` is kept by a push.
-/

namespace LibLisa.Encoding

open Lib Utils List

/-- Source: `byteview.rs`, `StateByte` -/
abbrev StateByte := U32

/-- Source: `dataflow/mod.rs`, `IsDataflow` -/
abbrev IsDataflow := StateByte × StateByte

/-- Source: `dataflow/spec.rs`, `Growing2DBitmap::index` -/
def Growing2DBitmap.index (x y : ℕ) : Partial ℕ :=
  if (x + y) * (x + y + 1) < 2 ^ 64 then return (x + y) * (x + y + 1) / 2 + x
  else .error .arithmeticOverflow

/-- Source: `dataflow/spec.rs`, `IsDataflowSet` -/
structure IsDataflowSet where
  sources : List ℕ
  destinations : List ℕ
  data : List IsDataflow
  bySource : List (List StateByte)
  contains : GrowingBitmap

namespace IsDataflowSet

/-- Source: `IsDataflowSet::new` -/
def new : IsDataflowSet := ⟨[], [], [], [], .new⟩

/-- The entry `n` of a vector changed by `f`, once the vector is long enough to have one. -/
def update {α : Type} (l : List α) (zero : α) (n : ℕ) (f : α → α) : List α :=
  (l ++ replicate (n + 1 - l.length) zero).modify n f

/-- Source: `IsDataflowSet::push` -/
def push (s : IsDataflowSet) (item : IsDataflow) : Partial (Bool × IsDataflowSet) := do
  let place ← Growing2DBitmap.index item.1.toNat item.2.toNat
  if s.contains.get place then return (false, s)
  else return (true,
    { sources := update s.sources 0 item.1.toNat (· + 1)
      destinations := update s.destinations 0 item.2.toNat (· + 1)
      data := s.data ++ [item]
      bySource := update s.bySource [] item.1.toNat (· ++ [item.2])
      contains := s.contains.set place })

/-- Source: `IsDataflowSet::dests_for_source` -/
def destsForSource (s : IsDataflowSet) (source : StateByte) : List StateByte :=
  s.bySource[source.toNat]?.getD []

/-- Source: `IsDataflowSet::iter` -/
def iter (s : IsDataflowSet) : List IsDataflow := s.data

/-- The set after a sequence of pushes. -/
def pushAll (items : List IsDataflow) : Partial IsDataflowSet :=
  items.foldlM (fun s item => Prod.snd <$> s.push item) new

/-- A sequence of pushes behaves as insertions into a set that keeps their order. -/
structure BehavesAsSet (items : List IsDataflow) : Prop where
  push_eq : ∀ before item after, items = before ++ item :: after → ∃ s s',
    pushAll before = .ok s ∧ s.push item = .ok (decide (item ∉ before), s')
  contents_eq : ∃ s, pushAll items = .ok s ∧ s.iter = items.eraseDups ∧
    ∀ source, s.destsForSource source = (items.eraseDups.filter (·.1 = source)).map (·.2)

/-- Below the diagonal `2 ^ 32`. -/
abbrev InRange (item : IsDataflow) : Prop := item.1.toNat + item.2.toNat < 2 ^ 32

variable {s : IsDataflowSet} {items : List IsDataflow} {p q item : IsDataflow} {n : ℕ}

/-! ## The numbering of the pairs -/

lemma index_eq_ok_iff {x y : ℕ} : Growing2DBitmap.index x y = .ok n ↔
    x + y < 2 ^ 32 ∧ (x + y + 1) * (x + y) / 2 + x = n := by
  have hfits : (x + y) * (x + y + 1) < 2 ^ 64 ↔ x + y < 2 ^ 32 := by
    constructor
    · intro h
      by_contra hk
      have : 2 ^ 32 * 2 ^ 32 ≤ (x + y) * (x + y + 1) := Nat.mul_le_mul (by omega) (by omega)
      omega
    · intro hk
      have : (x + y) * (x + y + 1) ≤ (2 ^ 32 - 1) * 2 ^ 32 := Nat.mul_le_mul (by omega) (by omega)
      omega
  rw [Growing2DBitmap.index, ← hfits, Nat.mul_comm (x + y + 1)]
  split
  next h => exact ⟨fun heq => ⟨h, Except.ok.inj heq⟩, fun heq => congrArg _ heq.2⟩
  next h => exact iff_of_false (fun heq => by cases heq) fun heq => h heq.1

/-- The diagonals do not overlap. -/
lemma index_injective (hp : Growing2DBitmap.index p.1.toNat p.2.toNat = .ok n)
    (hq : Growing2DBitmap.index q.1.toNat q.2.toNat = .ok n) : p = q := by
  obtain ⟨-, rfl⟩ := index_eq_ok_iff.mp hp
  obtain ⟨-, hq⟩ := index_eq_ok_iff.mp hq
  have := Symmetric2DMatrix.row_unique (by omega) (by omega) hq
  exact Prod.ext (BitVec.eq_of_toNat_eq (by omega)) (BitVec.eq_of_toNat_eq (by omega))

/-! ## Runs -/

lemma getElem?_update {α : Type} (l : List α) (zero : α) (n : ℕ) (f : α → α) (m : ℕ) :
    (update l zero n f)[m]?.getD zero =
      if m = n then f (l[m]?.getD zero) else l[m]?.getD zero := by
  unfold update
  grind

lemma eraseDups_concat (items : List IsDataflow) (item : IsDataflow) :
    (items ++ [item]).eraseDups =
      if item ∈ items then items.eraseDups else items.eraseDups ++ [item] := by
  rw [eraseDups_append]
  by_cases h : item ∈ items
  · simp [removeAll, h]
  · rw [if_neg h, show [item].removeAll items = [item] by simp [removeAll, h]]
    rfl

/-- What holds after the pushes of `items`. -/
structure Holds (s : IsDataflowSet) (items : List IsDataflow) : Prop where
  covers : s.contains.Covers
  bit_iff : ∀ p n, Growing2DBitmap.index p.1.toNat p.2.toNat = .ok n →
    (s.contains.get n = true ↔ p ∈ items)
  iter_eq : s.iter = items.eraseDups
  dests_eq : ∀ source, s.destsForSource source =
    (items.eraseDups.filter (·.1 = source)).map (·.2)

/-- One push: the bit of no other pair changes, as their places differ. -/
lemma Holds.push (h : s.Holds items) (hitem : InRange item) :
    ∃ s', s.push item = .ok (decide (item ∉ items), s') ∧ s'.Holds (items ++ [item]) := by
  obtain ⟨n, hn⟩ : ∃ n, Growing2DBitmap.index item.1.toNat item.2.toNat = .ok n :=
    ⟨_, index_eq_ok_iff.mpr ⟨hitem, rfl⟩⟩
  rw [IsDataflowSet.push, hn, ok_bind]
  have hbit := h.bit_iff item n hn
  split
  next hset =>
    have hmem : item ∈ items := hbit.mp hset
    refine ⟨s, by simp [hmem, pure, Except.pure], h.covers, fun p m hm => ?_, ?_, ?_⟩
    · rw [h.bit_iff p m hm, mem_append, mem_singleton]
      exact ⟨.inl, fun hp => hp.elim id fun heq => heq ▸ hmem⟩
    · rw [eraseDups_concat, if_pos hmem, ← h.iter_eq]
    · rw [eraseDups_concat, if_pos hmem]
      exact h.dests_eq
  next hunset =>
    have hmem : item ∉ items := mt hbit.mpr hunset
    refine ⟨_, by rw [decide_eq_true hmem]; rfl, GrowingBitmap.covers_set h.covers _,
      fun p m hm => ?_, ?_, fun source => ?_⟩
    · rw [GrowingBitmap.get_set h.covers, mem_append, mem_singleton, ← h.bit_iff p m hm]
      by_cases heq : p = item
      · obtain rfl : n = m := Except.ok.inj (hn.symm.trans (heq ▸ hm))
        simp [heq]
      · have hne : m ≠ n := fun hmn => heq (index_injective hm (hmn ▸ hn))
        simp [heq, hne]
    · rw [eraseDups_concat, if_neg hmem, ← h.iter_eq]
      rfl
    · rw [eraseDups_concat, if_neg hmem, destsForSource, getElem?_update, filter_append, map_append,
        ← h.dests_eq source, destsForSource]
      by_cases heq : item.1 = source
      · simp [heq]
      · simp [heq, mt BitVec.eq_of_toNat_eq (Ne.symm heq)]

lemma exists_pushAll (h : ∀ item ∈ items, InRange item) :
    ∃ s, pushAll items = .ok s ∧ s.Holds items := by
  induction items using reverseRecOn with
  | nil => exact ⟨new, rfl, Nat.zero_le _, fun p _ _ => by simp [new], rfl, fun _ => rfl⟩
  | append_singleton items item ih =>
    obtain ⟨s, hs, hholds⟩ := ih fun p hp => h p (mem_append_left _ hp)
    obtain ⟨s', hs', hholds'⟩ := hholds.push (h item (by simp))
    refine ⟨s', ?_, hholds'⟩
    rw [pushAll, foldlM_append, ← pushAll, hs, ok_bind, foldlM_cons, hs']
    rfl

/-- Exactly the pairs below the diagonal `2 ^ 32` can be pushed. -/
theorem behavesAsSet_iff : BehavesAsSet items ↔ ∀ item ∈ items, InRange item := by
  constructor
  · intro h item hitem
    obtain ⟨before, after, heq⟩ := append_of_mem hitem
    obtain ⟨s, s', -, hpush⟩ := h.push_eq before item after heq
    obtain ⟨n, hn, -⟩ := ok_of_bind hpush
    exact (index_eq_ok_iff.mp hn).1
  · intro h
    obtain ⟨s, hs, hholds⟩ := exists_pushAll h
    refine ⟨fun before item after heq => ?_, s, hs, hholds.iter_eq, hholds.dests_eq⟩
    subst heq
    obtain ⟨s, hs, hholds⟩ := @exists_pushAll before fun p hp => h p (by simp [hp])
    obtain ⟨s', hs', -⟩ := hholds.push (h item (by simp))
    exact ⟨s, s', hs, hs'⟩

/-- The product overflows for a pair on the diagonal `2 ^ 32`. -/
theorem not_behavesAsSet : ¬ BehavesAsSet [(2, 0xfffffffe)] := by
  intro h
  obtain ⟨s, s', -, hpush⟩ := h.push_eq [] (2, 0xfffffffe) [] rfl
  obtain ⟨n, hn, -⟩ := ok_of_bind hpush
  cases hn

end IsDataflowSet
end LibLisa.Encoding
