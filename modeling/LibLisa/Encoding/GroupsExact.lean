import LibLisa.Encoding.Groups

/-!
# The groups are the components of the overlap relation

`splitEncodingsIntoOverlappingGroups` looks for overlaps among encodings of one instruction length
only, so that is the relation it computes the components of (`Related`). Splitting by fixed bits
does not separate related encodings: an instruction that filters of both match has the fixed bits of
both (`bits_of_matches`), and overlapping filters match a common instruction. The result is
`splitEncodings_components`.
-/

namespace LibLisa

open Lib Mcs InstructionFilter Option BitVec Bool
open List hiding Disjoint

/-! ## Overlapping filters -/

lemma ByteFilter.canIntersect_comm (a b : ByteFilter) : a.canIntersect b = b.canIntersect a := by
  unfold ByteFilter.canIntersect
  rw [and_comm a.mask b.mask, beq_comm]

namespace InstructionFilter

lemma overlaps_comm (f g : InstructionFilter) : f.overlaps g = g.overlaps f := by
  unfold overlaps
  rw [← zip_swap, List.all_map]
  congr 1
  funext p
  exact ByteFilter.canIntersect_comm _ _

lemma overlaps_self (f : InstructionFilter) : f.overlaps f = true := by
  unfold overlaps
  rw [List.all_eq_true]
  rintro ⟨a, b⟩ hab
  obtain ⟨i, hi⟩ := mem_iff_getElem?.mp hab
  obtain ⟨ha, hb⟩ := getElem?_zip_eq_some.mp hi
  have heq : a = b := mem_unique ha hb
  subst heq
  exact beq_self_eq_true _

end InstructionFilter

namespace Encoding

variable {R : Type}

/-! ## Filters ask for the fixed bits -/

variable {fs : Filters} {k i : ℕ} {e : Encoding R} {f : InstructionFilter}
  {rng : ℕ → Pick}

lemma len_of_mem_filters (h : e.filters rng = .ok fs) (hlen : e.bits.length = 8 * k) (hf : f ∈ fs) :
    f.len = k := by
  obtain ⟨choices, hchoices, -, hfs⟩ := mem_filters_iff h
  obtain ⟨values, -, hok⟩ := hfs f hf
  obtain ⟨-, -, -, hlen⟩ := exists_filterBits_of_filterFor (nodup_keys hchoices) hok hlen
  exact hlen

/-- An instruction that a filter of an encoding matches has its fixed bits. -/
theorem bits_of_matches (h : e.filters rng = .ok fs) (hf : f ∈ fs) {x : Instruction}
    (hlen : x.bitLen = e.bits.length) (hmatch : f.matches x = true) {v : Bool}
    (hi : e.bits.reverse[i]? = some (.fixed v)) : x.bits[i]? = some v := by
  obtain ⟨choices, hchoices, -, hfs⟩ := mem_filters_iff h
  obtain ⟨values, -, hok⟩ := hfs f hf
  have hagree := ((filterFor_matches_iff (nodup_keys hchoices) hok hlen).mp hmatch).1
  have hlt : i < x.bits.length := by
    have := lt_of_getElem? hi
    rwa [length_reverse, ← hlen, ← Instruction.length_bits] at this
  have hx := List.getElem?_eq_getElem hlt
  have hmem : (.fixed v, x.bits[i]) ∈ (e.placed x).reverse := by
    rw [placed, zip, reverse_zipWith (by simp [hlen]), reverse_reverse]
    exact mem_of_getElem? (getElem?_zip_eq_some.mpr ⟨hi, hx⟩)
  exact hx.trans (congrArg some (hagree _ (mem_reverse.mp hmem) v rfl))

/-! ## The keys of a split by fixed bits -/

lemma getElem?_firstBits (bits : List Bit) (hi : i < 32) :
    (firstBits bits)[i]? = some (bits.reverse[i]?.getD (.fixed false)) := by
  unfold firstBits
  rw [getElem?_take_of_lt hi]
  by_cases hlt : i < bits.reverse.length
  · rw [List.getElem?_append_left hlt, List.getElem?_eq_getElem hlt]
    rfl
  · rw [List.getElem?_append_right (by omega), List.getElem?_eq_none (by omega : bits.reverse.length ≤ i),
      getElem?_replicate, if_pos (by omega)]
    rfl

/-- Bit `i` from the left of a packed word is read off bit `i` from the left, or a zero. -/
lemma getMsbD_packFirstBits (f : Bit → Bool) (bits : List Bit) (hi : i < 32) :
    (packFirstBits f bits).getMsbD i = f (bits.reverse[i]?.getD (.fixed false)) := by
  have hlen : (firstBits bits).length ≤ 32 := by simp [firstBits]
  have hpack := getLsbD_pack f (31 - ·) (firstBits bits) (w := 32) (j := i) (by omega) (by omega)
  rw [getElem?_firstBits bits hi] at hpack
  rw [getMsbD_eq_getLsbD, decide_eq_true hi, Bool.true_and]
  exact hpack

variable {encodings : Encodings R} {a b : EncodingWithFilters R}

lemma getMsbD_fixedMask (h : (fixedMask encodings).getMsbD i = true) {e : EncodingWithFilters R}
    (he : e ∈ encodings) : (filterMaskFromBits e.encoding.bits).getMsbD i = true := by
  have hfold : ∀ (l : List U32) acc,
      (l.foldl (· &&& ·) acc).getMsbD i = true → acc.getMsbD i = true ∧ ∀ m ∈ l, m.getMsbD i = true := by
    intro l
    induction l with
    | nil => exact fun acc h => ⟨h, nofun⟩
    | cons m l ih =>
      intro acc h
      obtain ⟨hacc, hl⟩ := ih _ h
      rw [getMsbD_and, and_eq_true] at hacc
      exact ⟨hacc.1, forall_mem_cons.mpr ⟨hacc.2, hl⟩⟩
  exact (hfold _ _ h).2 _ (mem_map.mpr ⟨e, he, rfl⟩)

/-- The bit pattern is as long as the instruction. -/
def EncodingWithFilters.WholeBytes (e : EncodingWithFilters R) : Prop :=
  e.encoding.bits.length = 8 * e.byteLen

/-- Encodings of one length with different keys do not overlap. -/
lemma key_eq_of_overlapping (ha : a ∈ encodings) (hb : b ∈ encodings) (hwa : a.WholeBytes)
    (hwb : b.WholeBytes) (hlen : a.byteLen = b.byteLen) (hov : a.overlapping b = true) :
    fixedMask encodings &&& instructionStartFromBits a.encoding.bits =
      fixedMask encodings &&& instructionStartFromBits b.encoding.bits := by
  obtain ⟨fa, hfa, hov⟩ := any_eq_true.mp hov
  obtain ⟨fb, hfb, hov⟩ := any_eq_true.mp hov
  have hflen : ∀ e : EncodingWithFilters R, e.WholeBytes → ∀ f ∈ e.filters, f.len = e.byteLen := by
    intro e he f hf
    obtain ⟨rng, hrng⟩ := e.filters_eq
    exact len_of_mem_filters hrng he hf
  have hfa' := hflen a hwa fa hfa
  have hfb' := hflen b hwb fb hfb
  -- an instruction that both match
  obtain ⟨x, hx, hxa, hxb⟩ := exists_of_overlaps (hfa'.trans_le a.encoding.instr.length_le)
    (hfb'.trans_le b.encoding.instr.length_le) hov
  rw [hfa', hfb', ← hlen, max_self] at hx
  apply eq_of_getMsbD_eq
  intro i hi
  rw [getMsbD_and, getMsbD_and]
  cases hmask : (fixedMask encodings).getMsbD i with
  | false => rfl
  | true =>
    -- its bit, or zero past its end, is that of the key
    have hread : ∀ e ∈ encodings, e.WholeBytes → x.byteLen = e.byteLen → ∀ f ∈ e.filters,
        f.matches x = true →
        (instructionStartFromBits e.encoding.bits).getMsbD i = x.bits[i]?.getD false := by
      intro e he hwhole hlen f hf hmatch
      obtain ⟨rng, hrng⟩ := e.filters_eq
      have hlen' : x.bitLen = e.encoding.bits.length := by
        rw [hwhole, Instruction.bitLen, hlen, Nat.mul_comm]
      have hbit := getMsbD_fixedMask hmask he
      rw [filterMaskFromBits, getMsbD_packFirstBits _ _ hi] at hbit
      rw [instructionStartFromBits, getMsbD_packFirstBits _ _ hi]
      rcases hget : e.encoding.bits.reverse[i]? with _ | bit
      · rw [List.getElem?_eq_none_iff, length_reverse, ← hlen', ← Instruction.length_bits] at hget
        rw [List.getElem?_eq_none hget]
        rfl
      · rw [hget] at hbit
        rcases bit with n | v | _
        · cases hbit
        · rw [bits_of_matches hrng hf hlen' hmatch hget]
          rfl
        · cases hbit
    rw [hread a ha hwa hx fa hfa hxa, hread b hb hwb (hx.trans hlen) fb hfb hxb]

/-! ## The rounds -/

/-- Encodings of one length with overlapping filters. -/
def Related (a b : EncodingWithFilters R) : Prop :=
  a.byteLen = b.byteLen ∧ a.overlapping b = true

lemma overlapping_comm (a b : EncodingWithFilters R) : a.overlapping b = b.overlapping a := by
  have himp : ∀ a b : EncodingWithFilters R, a.overlapping b = true → b.overlapping a = true := by
    intro a b h
    obtain ⟨fa, hfa, h⟩ := any_eq_true.mp h
    obtain ⟨fb, hfb, h⟩ := any_eq_true.mp h
    refine any_eq_true.mpr ⟨fb, hfb, any_eq_true.mpr ⟨fa, hfa, ?_⟩⟩
    rwa [overlaps_comm]
  exact eq_iff_iff.mpr ⟨himp a b, himp b a⟩

lemma Related.symm (h : Related a b) : Related b a := ⟨h.1.symm, overlapping_comm a b ▸ h.2⟩

variable {l : Encodings R} {groups : List (Encodings R)}

lemma isSplit_byFixedBits (o : MapOrder (EncodingWithFilters R)) (hl : ∀ e ∈ l, e.WholeBytes) :
    IsSplit Related l (byFixedBits o l) := by
  refine IsSplit.of_perm ?_ (fun _ _ => Related.symm) (o.perm _)
  apply isSplit_keys
  · exact nodup_dedup _
  · intro a ha
    exact mem_dedup.mpr (mem_map.mpr ⟨a, ha, rfl⟩)
  · intro a ha b hb hab
    exact key_eq_of_overlapping ha hb (hl a ha) (hl b hb) hab.1 hab.2

/-- The groups of a round split the list, and each has encodings of one length. -/
structure RoundInv (l : Encodings R) (groups : List (Encodings R)) : Prop where
  isSplit : IsSplit Related l groups
  byteLen_eq : ∀ g ∈ groups, ∀ a ∈ g, ∀ b ∈ g, a.byteLen = b.byteLen

lemma RoundInv.splitRound (h : RoundInv l groups)
    (hl : ∀ e ∈ l, e.WholeBytes) (o : ℕ → MapOrder (EncodingWithFilters R)) :
    RoundInv l (splitRound o groups) := by
  have hparts : ∀ i g, groups[i]? = some g → IsSplit Related g (byFixedBits (o i) g) := by
    intro i g hg
    exact isSplit_byFixedBits (o i) fun e he => hl e (h.isSplit.mem (mem_of_getElem? hg) he)
  constructor
  · apply h.isSplit.refine
    rw [forall₂_iff_get]
    refine ⟨by simp, fun i hi _ => ?_⟩
    simpa using hparts i groups[i] (getElem?_eq_getElem hi)
  · intro part hpart a ha b hb
    obtain ⟨parts, hmem, hpart⟩ := mem_flatten.mp hpart
    obtain ⟨⟨g, i⟩, hg, rfl⟩ := mem_map.mp hmem
    have hget := mem_zipIdx_iff_getElem?.mp hg
    have hsplit := hparts i g hget
    exact h.byteLen_eq g (mem_of_getElem? hget) a (hsplit.mem hpart ha) b (hsplit.mem hpart hb)

lemma roundInv_groupsByLength (l : Encodings R) : RoundInv l (groupsByLength l) := by
  have hsorted : (l.mergeSort fun a b => decide (a.byteLen ≤ b.byteLen)).Pairwise
      fun a b => a.byteLen ≤ b.byteLen := by
    have hpair : (l.mergeSort fun a b => decide (a.byteLen ≤ b.byteLen)).Pairwise
        fun a b => decide (a.byteLen ≤ b.byteLen) = true := by
      apply pairwise_mergeSort
      · intro a b c hab hbc
        exact decide_eq_true ((of_decide_eq_true hab).trans (of_decide_eq_true hbc))
      · intro a b
        rw [or_eq_true, decide_eq_true_iff, decide_eq_true_iff]
        exact Nat.le_total _ _
    exact hpair.imp of_decide_eq_true
  have hperm := mergeSort_perm l fun a b => decide (a.byteLen ≤ b.byteLen)
  obtain ⟨hflat, hapart⟩ := isSplit_splitBy (R := Related) hsorted fun _ _ _ _ h => h.1
  exact ⟨⟨hflat.trans hperm, hapart⟩, fun g hg a ha b hb => key_eq_of_mem_splitBy hg ha hb⟩

/-! ## The components -/

section components

variable {g : Encodings R} {j : ℕ}

/-- The rows of the matrix of overlaps. -/
def overlapRow (l : Encodings R) : ℕ → List ℕ :=
  (Symmetric2DMatrix.overlapMatrix (overlapsAt l) l.length).iterRowIndices

lemma overlapsAt_comm (l : Encodings R) (i j : ℕ) : overlapsAt l i j = overlapsAt l j i := by
  unfold overlapsAt
  cases l[i]? with
  | none => cases l[j]? <;> rfl
  | some a =>
    cases l[j]? with
    | none => rfl
    | some b => exact overlapping_comm a b

lemma mem_overlapRow :
    i ∈ overlapRow l j ↔ i < l.length ∧ j < l.length ∧ (i = j ∨ overlapsAt l i j = true) :=
  Symmetric2DMatrix.mem_iterRowIndices _ (overlapsAt_comm l)

lemma overlapRow_symm (h : j ∈ overlapRow l i) : i ∈ overlapRow l j := by
  obtain ⟨hj, hi, h⟩ := mem_overlapRow.mp h
  refine mem_overlapRow.mpr ⟨hi, hj, h.imp Eq.symm fun h => ?_⟩
  rwa [overlapsAt_comm]

lemma exists_groupMasks (l : Encodings R) :
    ∃ masks, groupMasks l = .ok masks ∧
      Components.IsComponents (overlapRow l) (Finset.range l.length) masks := by
  have hnone : ∀ m : Bitmap, firstBitSet m = none → m = ∅ := by
    intro m hm
    by_contra hne
    obtain ⟨i, -, hi⟩ := exists_firstBitSet (Finset.nonempty_iff_ne_empty.mpr hne)
    rw [hm] at hi
    cases hi
  have hsome : ∀ (m : Bitmap) v, firstBitSet m = some v → v ∈ m := by
    intro m v hv
    exact mem_iterOneIndices.mp (mem_of_head? hv)
  obtain ⟨masks, hmasks, hcomp⟩ := Components.exists_components
    (fun _ _ h => (mem_overlapRow.mp h).1) hnone hsome
    (fun v hv => mem_overlapRow.mpr ⟨hv, hv, Or.inl rfl⟩) fun _ _ => overlapRow_symm
  refine ⟨masks, ?_, hcomp⟩
  rw [groupMasks, ← overlapRow, hmasks]
  rfl

/-- An index is in one mask only, so its group is that of any mask with it. -/
lemma groupIndex_eq_some_iff {masks : List Bitmap} (hdisjoint : masks.Pairwise Disjoint)
    {index k : ℕ} :
    groupIndex masks index = some k ↔ ∃ mask, masks[k]? = some mask ∧ index ∈ mask := by
  unfold groupIndex
  rw [findIdx?_eq_some_iff_getElem]
  constructor
  · rintro ⟨hk, hmem, -⟩
    exact ⟨masks[k], getElem?_eq_getElem hk, of_decide_eq_true hmem⟩
  · rintro ⟨mask, hmask, hmem⟩
    obtain ⟨hk, rfl⟩ := List.getElem?_eq_some_iff.mp hmask
    refine ⟨hk, decide_eq_true hmem, fun j hj => ?_⟩
    have hdis := pairwise_iff_getElem.mp hdisjoint j k (hj.trans hk) hk hj
    simpa using Finset.disjoint_right.mp hdis hmem

/-- Any two encodings of the list are linked by a chain of encodings of the list whose neighbours
overlap. -/
def Linked (g : Encodings R) : Prop :=
  ∀ a ∈ g, ∀ b ∈ g,
    Relation.ReflTransGen (fun x y => x ∈ g ∧ y ∈ g ∧ x.overlapping y = true) a b

lemma linked_of_length_le_one (hl : l.length ≤ 1) : Linked l := by
  intro a ha b hb
  obtain ⟨i, hi, rfl⟩ := mem_iff_getElem.mp ha
  obtain ⟨j, hj, rfl⟩ := mem_iff_getElem.mp hb
  obtain rfl : i = j := by omega
  exact .refl

/-- The encodings at the positions that one position reaches are linked. -/
lemma linked_of_isClass {mask : Bitmap} {s : ℕ}
    (hmask : ∀ v, v ∈ mask ↔ Components.Reach (overlapRow l) s v)
    (hg : ∀ a, a ∈ g ↔ ∃ i ∈ mask, l[i]? = some a) : Linked g := by
  intro a hag b hbg
  obtain ⟨i, hi, ha⟩ := (hg a).mp hag
  obtain ⟨j, hj, hb⟩ := (hg b).mp hbg
  have hsi := (hmask i).mp hi
  have hpath := (hsi.symm fun _ _ => overlapRow_symm).trans ((hmask j).mp hj)
  clear hj hbg
  -- along the path from `i`, each vertex is a position of the group
  induction hpath generalizing b with
  | refl =>
    obtain rfl := mem_unique ha hb
    exact .refl
  | @tail v w hiv hw ih =>
    obtain ⟨hwlen, hvlen, h⟩ := mem_overlapRow.mp hw
    have hv : l[v]? = some l[v] := getElem?_eq_getElem hvlen
    have hchain := ih l[v] hv
    rcases h with rfl | hov
    · obtain rfl := mem_unique hv hb
      exact hchain
    · have hsv := hsi.trans hiv
      refine hchain.tail ⟨(hg _).mpr ⟨v, (hmask v).mpr hsv, hv⟩,
        (hg _).mpr ⟨w, (hmask w).mpr (hsv.tail hw), hb⟩, ?_⟩
      rw [overlapsAt_comm] at hov
      simpa only [overlapsAt, hv, hb] using hov

section masks

variable {masks : List Bitmap}
  (hmasks : Components.IsComponents (overlapRow l) (Finset.range l.length) masks)

include hmasks in
lemma exists_groupIndex {p : EncodingWithFilters R × ℕ} (hp : p ∈ l.zipIdx) :
    ∃ k mask, groupIndex masks p.2 = some k ∧ masks[k]? = some mask ∧ p.2 ∈ mask := by
  have hlt := (List.getElem?_eq_some_iff.mp (mem_zipIdx_iff_getElem?.mp hp)).1
  obtain ⟨mask, hmask, hmem⟩ := hmasks.cover p.2 (Finset.mem_range.mpr hlt)
  obtain ⟨k, hk⟩ := mem_iff_getElem?.mp hmask
  exact ⟨k, mask, (groupIndex_eq_some_iff hmasks.disjoint).mpr ⟨mask, hk, hmem⟩, hk, hmem⟩

include hmasks in
lemma isSplit_groupIndex :
    IsSplit Related l ((groupsOf (fun p => groupIndex masks p.2)
      ((range masks.length).map some) l.zipIdx).map fun g => g.map (·.1)) := by
  have hsplit : IsSplit (fun p q : EncodingWithFilters R × ℕ => Related p.1 q.1) l.zipIdx
      (groupsOf (fun p => groupIndex masks p.2) ((range masks.length).map some) l.zipIdx) := by
    apply isSplit_keys
    · exact nodup_range.map fun _ _ h => some.inj h
    · intro p hp
      obtain ⟨k, mask, hindex, hk, -⟩ := exists_groupIndex hmasks hp
      have hlt := lt_of_getElem? hk
      exact mem_map.mpr ⟨k, mem_range.mpr hlt, hindex.symm⟩
    · -- overlapping encodings are neighbours, so one search reaches both
      intro p hp q hq hpq
      obtain ⟨k, mask, hindex, hk, hmem⟩ := exists_groupIndex hmasks hp
      obtain ⟨s, -, hclass⟩ := hmasks.isClass mask (mem_of_getElem? hk)
      have hpget := mem_zipIdx_iff_getElem?.mp hp
      have hqget := mem_zipIdx_iff_getElem?.mp hq
      have hrow : q.2 ∈ overlapRow l p.2 := by
        refine mem_overlapRow.mpr ⟨(lt_of_getElem? hqget), (lt_of_getElem? hpget), Or.inr ?_⟩
        simpa only [overlapsAt, hpget, hqget] using hpq.symm.2
      have hq' : q.2 ∈ mask := (hclass q.2).mpr (((hclass p.2).mp hmem).tail hrow)
      rw [hindex, (groupIndex_eq_some_iff hmasks.disjoint).mpr ⟨mask, hk, hq'⟩]
  have hmap := hsplit.map
  rwa [zipIdx_map_fst] at hmap

include hmasks in
lemma linked_groupIndex (hg : g ∈ (groupsOf (fun p => groupIndex masks p.2)
      ((range masks.length).map some) l.zipIdx).map fun g => g.map (·.1)) : Linked g := by
  obtain ⟨_, hgroup, rfl⟩ := List.mem_map.mp hg
  obtain ⟨_, hkey, rfl⟩ := List.mem_map.mp hgroup
  obtain ⟨k, hk, rfl⟩ := List.mem_map.mp hkey
  rw [mem_range] at hk
  have hget : masks[k]? = some masks[k] := getElem?_eq_getElem hk
  obtain ⟨s, -, hclass⟩ := hmasks.isClass _ (mem_of_getElem? hget)
  apply linked_of_isClass hclass
  intro a
  rw [List.mem_map]
  constructor
  · rintro ⟨p, hp, rfl⟩
    obtain ⟨hp, hindex⟩ := mem_filter.mp hp
    obtain ⟨mask, hmask, hmem⟩ :=
      (groupIndex_eq_some_iff hmasks.disjoint).mp (of_decide_eq_true hindex)
    obtain rfl := mem_unique hget hmask
    exact ⟨p.2, hmem, mem_zipIdx_iff_getElem?.mp hp⟩
  · rintro ⟨i, hi, ha⟩
    refine ⟨(a, i), mem_filter.mpr ⟨mem_zipIdx_iff_getElem?.mpr ha, ?_⟩, rfl⟩
    exact decide_eq_true ((groupIndex_eq_some_iff hmasks.disjoint).mpr ⟨_, hget, hi⟩)

end masks

/-- A group with encodings of one length is split into its components. -/
lemma exists_splitGroup (hl : ∀ a ∈ l, ∀ b ∈ l, a.byteLen = b.byteLen) :
    ∃ parts, splitGroup l = .ok parts ∧ IsSplit Related l parts ∧ ∀ g ∈ parts, Linked g := by
  unfold splitGroup
  by_cases hone : l.length ≤ 1
  · refine ⟨[l], if_pos hone, IsSplit.singleton _ l, fun g hg => ?_⟩
    obtain rfl := mem_singleton.mp hg
    exact linked_of_length_le_one hone
  obtain ⟨masks, hok, hmasks⟩ := exists_groupMasks l
  have hlen : ¬ (l.any fun e => e.byteLen ≠ (l.head?.map (·.byteLen)).getD 0) = true := by
    intro hany
    obtain ⟨e, he, hne⟩ := any_eq_true.mp hany
    obtain ⟨a, rest, rfl⟩ := exists_cons_of_ne_nil (ne_nil_of_mem he)
    exact of_decide_eq_true hne (hl e he a (.head _))
  have hfound : ¬ (l.zipIdx.any fun p => (groupIndex masks p.2).isNone) = true := by
    intro hany
    obtain ⟨p, hp, hnone⟩ := any_eq_true.mp hany
    obtain ⟨k, -, hk, -⟩ := exists_groupIndex hmasks hp
    rw [hk] at hnone
    cases hnone
  refine ⟨_, ?_, isSplit_groupIndex hmasks, fun g hg => linked_groupIndex hmasks hg⟩
  rw [if_neg hone, if_neg hlen, hok, ok_bind, if_neg hfound]
  rfl

/-- All groups with encodings of one length are split into their components. -/
lemma exists_splitIntoOverlappingGroups (h : RoundInv l groups) :
    ∃ parts, splitIntoOverlappingGroups groups = .ok parts ∧ RoundInv l parts ∧
      ∀ g ∈ parts, Linked g := by
  obtain ⟨parts, hok, hparts⟩ := exists_mapM_eq_ok fun g hg =>
    exists_splitGroup (h.byteLen_eq g hg)
  have hpart : ∀ part ∈ parts.flatten, Linked part ∧ ∃ g ∈ groups, ∀ a ∈ part, a ∈ g := by
    intro part hpart
    obtain ⟨ps, hps, hpart⟩ := mem_flatten.mp hpart
    obtain ⟨g, hg, hps⟩ := (mem_iff_of_mapM hok).mp hps
    obtain ⟨ps', hps', hsplit, hlinked⟩ := exists_splitGroup (h.byteLen_eq g hg)
    obtain rfl := ok_unique hps hps'
    exact ⟨hlinked part hpart, g, hg, fun a ha => hsplit.mem hpart ha⟩
  refine ⟨parts.flatten, by rw [splitIntoOverlappingGroups, hok]; rfl,
    ⟨h.isSplit.refine (hparts.imp fun _ _ hpart => hpart.1), ?_⟩, fun part hp => (hpart part hp).1⟩
  intro part hp a ha b hb
  obtain ⟨-, g, hg, hsub⟩ := hpart part hp
  exact h.byteLen_eq g hg a (hsub a ha) b (hsub b hb)

end components

/-! ## All groups -/

lemma exists_splitEncodings (orders : ℕ → ℕ → MapOrder (EncodingWithFilters R))
    (shuffle : MapOrder (EncodingWithFilters R)) (logging : Bool)
    (hwhole : ∀ e ∈ encodings, e.WholeBytes) (hne : logging = true → encodings ≠ []) :
    ∃ groups,
      splitEncodingsIntoOverlappingGroups orders shuffle logging encodings = .ok groups ∧
      RoundInv encodings groups ∧ ∀ g ∈ groups, Linked g := by
  have hinv := foldlRecOn (motive := RoundInv encodings) (range 25) _
    (roundInv_groupsByLength encodings) fun _ h round _ => h.splitRound hwhole (orders round)
  obtain ⟨parts, hparts, ⟨hsplit, hlen⟩, hlinked⟩ := exists_splitIntoOverlappingGroups hinv
  have hshuffle := shuffle.perm parts
  have hshuffled := hsplit.of_perm (fun _ _ => Related.symm) hshuffle
  have hnonempty : (logging && (shuffle.order parts).isEmpty) = false := by
    rw [and_eq_false_imp, isEmpty_eq_false_iff]
    intro hlogging hnil
    have hperm := hshuffled.perm
    rw [hnil] at hperm
    exact hne hlogging hperm.nil_eq.symm
  refine ⟨shuffle.order parts, ?_, ⟨hshuffled, ?_⟩, ?_⟩
  · rw [splitEncodingsIntoOverlappingGroups, hparts]
    show (if (logging && (shuffle.order parts).isEmpty) = true then _ else _) = _
    rw [hnonempty]
    rfl
  · exact fun g hg => hlen g (hshuffle.mem_iff.mp hg)
  · exact fun g hg => hlinked g (hshuffle.mem_iff.mp hg)

/-- The groups are a partition of the encodings into the components of the overlap of encodings of
one length: they have the encodings of the list, encodings of one length in different groups do not
overlap, and the encodings of a group have one length and are linked. With logging on, an empty list
has no largest group, and the call panics. -/
theorem splitEncodings_components (orders : ℕ → ℕ → MapOrder (EncodingWithFilters R))
    (shuffle : MapOrder (EncodingWithFilters R)) (logging : Bool) (encodings : Encodings R)
    (hwhole : ∀ e ∈ encodings, e.WholeBytes) (hne : logging = true → encodings ≠ []) :
    ∃ groups : List (Encodings R),
      splitEncodingsIntoOverlappingGroups orders shuffle logging encodings = .ok groups ∧
      groups.flatten.Perm encodings ∧
      (∀ (i j : ℕ) (g h : Encodings R),
        groups[i]? = some g → groups[j]? = some h → i ≠ j →
          ∀ a ∈ g, ∀ b ∈ h, a.byteLen = b.byteLen → a.overlapping b = false) ∧
      ∀ g ∈ groups, (∀ a ∈ g, ∀ b ∈ g, a.byteLen = b.byteLen) ∧ Linked g := by
  obtain ⟨groups, hok, ⟨hsplit, hlen⟩, hlinked⟩ :=
    exists_splitEncodings orders shuffle logging hwhole hne
  refine ⟨groups, hok, hsplit.perm, ?_, fun g hg => ⟨hlen g hg, hlinked g hg⟩⟩
  intro i j g h hi hj hij a ha b hb hab
  have hnot := hsplit.not_rel (fun _ _ => Related.symm) hi hj hij ha hb
  exact eq_false_iff.mpr fun hov => hnot ⟨hab, hov⟩

/-- The encoding of the byte zero. -/
def zeroByte : EncodingWithFilters ℕ where
  encoding :=
    { bits := replicate 8 (.fixed false)
      parts := []
      dataflows := ⟨⟨⟨[0], by decide⟩, [], false⟩, []⟩ }
  filters := [⟨[⟨0xff, 0, by decide⟩], by decide⟩]
  filters_eq := ⟨fun _ _ _ => 0, by rfl⟩

/-- The encoding of two bytes zero. -/
def twoZeroBytes : EncodingWithFilters ℕ where
  encoding :=
    { bits := replicate 16 (.fixed false)
      parts := []
      dataflows := ⟨⟨⟨[0, 0], by decide⟩, [], false⟩, []⟩ }
  filters := [⟨[⟨0xff, 0, by decide⟩, ⟨0xff, 0, by decide⟩], by decide⟩]
  filters_eq := ⟨fun _ _ _ => 0, by rfl⟩

/-- The order in which the groups are listed anyway. -/
def keepOrder : MapOrder (EncodingWithFilters ℕ) := ⟨id, fun _ => .refl _⟩

lemma wholeBytes_zero : ∀ e ∈ [zeroByte, twoZeroBytes], e.WholeBytes := by
  intro e he
  rcases mem_cons.mp he with rfl | he
  · rfl
  · obtain rfl := mem_singleton.mp he
    rfl

/-- Two encodings with overlapping filters are never in one group when their lengths differ. -/
theorem splitEncodings_zero_apart :
    zeroByte.overlapping twoZeroBytes = true ∧
      ∀ orders shuffle logging, ∃ (groups : List (Encodings ℕ)) (i j : ℕ)
        (g h : Encodings ℕ),
        splitEncodingsIntoOverlappingGroups orders shuffle logging [zeroByte, twoZeroBytes] =
          .ok groups ∧
        groups[i]? = some g ∧ groups[j]? = some h ∧ i ≠ j ∧ zeroByte ∈ g ∧ twoZeroBytes ∈ h := by
  refine ⟨by decide, fun orders shuffle logging => ?_⟩
  obtain ⟨groups, hok, ⟨hsplit, hlen⟩, -⟩ :=
    exists_splitEncodings orders shuffle logging wholeBytes_zero (by simp)
  have hmem : ∀ e ∈ [zeroByte, twoZeroBytes],
      ∃ (i : ℕ) (g : Encodings ℕ), groups[i]? = some g ∧ e ∈ g := by
    intro e he
    obtain ⟨g, hg, heg⟩ := mem_flatten.mp (hsplit.perm.mem_iff.mpr he)
    obtain ⟨i, hi⟩ := mem_iff_getElem?.mp hg
    exact ⟨i, g, hi, heg⟩
  obtain ⟨i, g, hi, hg⟩ := hmem zeroByte (by simp)
  obtain ⟨j, h, hj, hh⟩ := hmem twoZeroBytes (by simp)
  refine ⟨groups, i, j, g, h, hok, hi, hj, ?_, hg, hh⟩
  rintro rfl
  obtain rfl := mem_unique hi hj
  exact absurd (hlen g (mem_of_getElem? hi) _ hg _ hh) (by decide)

/-- The encoding of the bytes zero and one. -/
def lowByte : EncodingWithFilters ℕ where
  encoding :=
    { bits := .dontCare :: replicate 7 (.fixed false)
      parts := []
      dataflows := ⟨⟨⟨[0], by decide⟩, [], false⟩, []⟩ }
  filters := [⟨[⟨0xfe, 0, by decide⟩], by decide⟩]
  filters_eq := ⟨fun _ _ _ => 0, by rfl⟩

/-- The encoding of the byte `fe`. -/
def highByte : EncodingWithFilters ℕ where
  encoding :=
    { bits := .fixed false :: replicate 7 (.fixed true)
      parts := []
      dataflows := ⟨⟨⟨[0xfe], by decide⟩, [], false⟩, []⟩ }
  filters := [⟨[⟨0xff, 0xfe, by decide⟩], by decide⟩]
  filters_eq := ⟨fun _ _ _ => 0, by rfl⟩

/-- Of the encodings of one byte two overlap, and are disjoint from the third. -/
theorem splitEncodings_components_bytes :
    (zeroByte.overlapping lowByte = true ∧ zeroByte.overlapping highByte = false ∧
      lowByte.overlapping highByte = false) ∧
    ∃ groups : List (Encodings ℕ),
      splitEncodingsIntoOverlappingGroups (fun _ _ => keepOrder) keepOrder true
        [lowByte, highByte, zeroByte, twoZeroBytes] = .ok groups ∧
      groups.flatten.Perm [lowByte, highByte, zeroByte, twoZeroBytes] ∧
      (∀ (i j : ℕ) (g h : Encodings ℕ),
        groups[i]? = some g → groups[j]? = some h → i ≠ j →
          ∀ a ∈ g, ∀ b ∈ h, a.byteLen = b.byteLen → a.overlapping b = false) ∧
      ∀ g ∈ groups, (∀ a ∈ g, ∀ b ∈ g, a.byteLen = b.byteLen) ∧ Linked g := by
  have hwhole : ∀ e ∈ [lowByte, highByte, zeroByte, twoZeroBytes], e.WholeBytes :=
    forall_mem_cons.mpr ⟨rfl, forall_mem_cons.mpr ⟨rfl, wholeBytes_zero⟩⟩
  exact ⟨by decide, splitEncodings_components _ _ _ _ hwhole (by simp)⟩

end Encoding

end LibLisa
