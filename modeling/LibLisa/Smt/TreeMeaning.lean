import LibLisa.Smt.TreeBytes
import LibLisa.Smt.Term

/-!
# What a tree means

A tree does not record all parameters of the calls that made it. A `Convention` says what the
missing ones are, from the tree alone and whatever its constants are; with it a tree has a value
(`Tree.eval`). The value depends on the constants only through the values they have, so constants
may be renamed as long as they are kept apart (`eval_map`, `satisfiable_map`).
-/

namespace LibLisa.Smt

open Classical List

variable {ι κ : Type} {f : ι → κ}

/-- The parameters that trees leave out, as functions of what they record: the size of a
`bv_from_int`, the signedness of an `int_from_bv`, and whether a literal was an `i64`. -/
structure Convention where
  size : Tree Unit → U32
  signed : Tree Unit → Bool
  bvSigned : U64 → U32 → Bool
  intSigned : U64 → Bool

namespace Convention

/-- The operation that a tree stands for. -/
def restore (conv : Convention) (op : UnOp) (arg : Tree Unit) : TermOp :=
  match op with
  | .bvFromInt => .bvFromInt (conv.size arg)
  | .intFromBv => .intFromBv (conv.signed arg)
  | .not => .not
  | .extract hi lo => .extract hi lo
  | .zeroExt num => .zeroExt num
  | .signExt num => .signExt num

end Convention

namespace Value

/-- A quantifier over renamed constants, where the two conditions agree on assignments that agree
on the constants `C`. -/
lemma forAll_map {C bound : List (ι × SmtSort)} {p : Assignment κ → Value}
    {q : Assignment ι → Value} {ρ : Assignment κ} {σ : Assignment ι}
    (hinj : ∀ k k' s, (k, s) ∈ C → (k', s) ∈ C → f k = f k' → k = k') (hbound : bound ⊆ C)
    (hpq : ∀ (ρ' : Assignment κ) (σ' : Assignment ι),
      (∀ k s, (k, s) ∈ C → σ' k s = ρ' (f k) s) → p ρ' = q σ')
    (h : ∀ k s, (k, s) ∈ C → σ k s = ρ (f k) s) :
    forAll (bound.map fun k => (f k.1, k.2)) p ρ = forAll bound q σ := by
  have hmem : ∀ {k' s}, (k', s) ∈ bound.map (fun k => (f k.1, k.2)) ↔
      ∃ k, (k, s) ∈ bound ∧ f k = k' := by
    intro k' s
    simp only [mem_map, Prod.exists, Prod.mk.injEq]
    constructor
    · rintro ⟨k, s', hk, rfl, rfl⟩
      exact ⟨k, hk, rfl⟩
    · rintro ⟨k, hk, rfl⟩
      exact ⟨k, s, hk, rfl, rfl⟩
  unfold forAll
  congr 1
  rw [decide_eq_decide]
  constructor
  · intro hall σ' hσ'
    -- the values of the bound constants come from `σ'`, the others from `ρ`
    let ρ' : Assignment κ := fun k' s =>
      if h : ∃ k, (k, s) ∈ bound ∧ f k = k' then σ' h.choose s else ρ k' s
    have hρ' : ∀ k s, (k, s) ∈ C → σ' k s = ρ' (f k) s := by
      intro k s hk
      by_cases hex : ∃ k0, (k0, s) ∈ bound ∧ f k0 = f k
      · obtain ⟨hb, hf⟩ := hex.choose_spec
        have heq : hex.choose = k := hinj _ _ s (hbound hb) hk hf
        simp only [ρ', dif_pos hex, heq]
      · have hnot : (k, s) ∉ bound := fun hb => hex ⟨k, hb, rfl⟩
        simp only [ρ', dif_neg hex]
        exact (hσ' k s hnot).trans (h k s hk)
    rw [← hpq ρ' σ' hρ']
    refine hall ρ' fun k' s hk' => ?_
    simp only [ρ', dif_neg (fun hex => hk' (hmem.mpr hex))]
  · intro hall ρ' hρ'
    let σ' : Assignment ι := fun k s => if (k, s) ∈ bound then ρ' (f k) s else σ k s
    have hσ' : ∀ k s, (k, s) ∈ C → σ' k s = ρ' (f k) s := by
      intro k s hk
      by_cases hb : (k, s) ∈ bound
      · simp only [σ', if_pos hb]
      · simp only [σ', if_neg hb]
        rw [h k s hk, hρ']
        intro hk'
        obtain ⟨k0, hk0, hf⟩ := hmem.mp hk'
        exact hb (hinj k0 k s (hbound hk0) hk hf ▸ hk0)
    rw [hpq ρ' σ' hσ']
    exact hall σ' fun k s hb => by simp only [σ', if_neg hb]

end Value

namespace Tree

/-- The tree without its constants. -/
def erase (t : Tree ι) : Tree Unit := t.map fun _ => ()

/-- The constant that a tree is. -/
def asConst : Tree ι → Option (ι × SmtSort)
  | .bv id size => some (id, .bv size.toNat)
  | .bool id => some (id, .bool)
  | .array id indexSize elementSize => some (id, .array indexSize.toNat elementSize.toNat)
  | _ => none

/-- The value of a tree. -/
noncomputable def eval (conv : Convention) : Tree ι → Assignment ι → Value
  | .fixedBV val size, _ => .bvFrom (conv.bvSigned val size) val size
  | .fixedInt val, _ => .intFrom (conv.intSigned val) val
  | .fixedBool val, _ => .bool val
  | .bv id size, ρ => SmtSort.value (.bv size.toNat) (ρ id (.bv size.toNat))
  | .bool id, ρ => SmtSort.value .bool (ρ id .bool)
  | .binOp op lhs rhs, ρ => .binOp op (lhs.eval conv ρ) (rhs.eval conv ρ)
  | .unOp op arg, ρ => .unOp (conv.restore op arg.erase) (arg.eval conv ρ)
  | .ite cond lhs rhs, ρ => .ite (cond.eval conv ρ) (lhs.eval conv ρ) (rhs.eval conv ρ)
  | .constInterp, _ => .illSorted
  | .forAll bounds condition, ρ =>
    .forAll (bounds.filterMap asConst) (fun ρ' => condition.eval conv ρ') ρ
  | .select arr index, ρ => .select (arr.eval conv ρ) (index.eval conv ρ)
  | .store arr index value, ρ => .store (arr.eval conv ρ) (index.eval conv ρ) (value.eval conv ρ)
  | .array id indexSize elementSize, ρ =>
    SmtSort.value (.array indexSize.toNat elementSize.toNat)
      (ρ id (.array indexSize.toNat elementSize.toNat))

lemma map_map {ν : Type} (g : κ → ν) (f : ι → κ) (t : Tree ι) :
    (t.map f).map g = t.map fun k => g (f k) := by
  induction t with
  | forAll bounds condition ihb ihc =>
    simp only [map, mapList_eq, List.map_map, ihc]
    rw [List.map_congr_left (f := map g ∘ map f) ihb]
  | _ => simp_all [map]

variable {t : Tree ι} {k : ι × SmtSort}

lemma map_congr {f g : ι → κ} (h : ∀ k s, (k, s) ∈ t.consts → f k = g k) : t.map f = t.map g := by
  induction t with
  | forAll bounds condition ihb ihc =>
    simp only [consts, constsList_eq, mem_append, mem_flatMap] at h
    simp only [map, mapList_eq]
    rw [ihc fun k s hk => h k s (.inr hk), map_congr_left fun b hb =>
      ihb b hb fun k s hk => h k s (.inl ⟨b, hb, hk⟩)]
  | bv id _ | bool id | array id _ _ =>
    have hid : f id = g id := h id _ (mem_singleton.mpr rfl)
    simp only [map, hid]
  | unOp op arg ih => rw [map, map, ih h]
  | binOp _ _ _ ih1 ih2 | select _ _ ih1 ih2 =>
    simp only [consts, mem_append] at h
    rw [map, map, ih1 fun k s hk => h k s (.inl hk), ih2 fun k s hk => h k s (.inr hk)]
  | ite _ _ _ ih1 ih2 ih3 | store _ _ _ ih1 ih2 ih3 =>
    simp only [consts, mem_append] at h
    rw [map, map, ih1 fun k s hk => h k s (.inl hk), ih2 fun k s hk => h k s (.inr (.inl hk)),
      ih3 fun k s hk => h k s (.inr (.inr hk))]
  | fixedBV _ _ | fixedInt _ | fixedBool _ | constInterp => rfl

@[simp] lemma plain_map (f : ι → κ) (t : Tree ι) : (t.map f).Plain ↔ t.Plain := by
  induction t with
  | forAll bounds condition ihb ihc =>
    simp only [map, mapList_eq, Plain, plainList_iff, length_map, forall_mem_map, ihc]
    rw [forall₂_congr ihb]
  | _ => simp_all [map, Plain]

@[simp] lemma erase_map (f : ι → κ) (t : Tree ι) : (t.map f).erase = t.erase :=
  map_map _ f t

lemma asConst_map (f : ι → κ) (t : Tree ι) :
    (t.map f).asConst = t.asConst.map fun k => (f k.1, k.2) := by
  cases t <;> rfl

lemma consts_of_asConst (h : t.asConst = some k) : t.consts = [k] := by
  cases t <;> simp_all [asConst, consts]

lemma mem_consts_of_asConst (h : t.asConst = some k) : k ∈ t.consts := by
  rw [consts_of_asConst h]
  exact mem_singleton.mpr rfl

lemma eval_of_asConst (conv : Convention) {k : ι} {s : SmtSort}
    (h : t.asConst = some (k, s)) (ρ : Assignment ι) : t.eval conv ρ = s.value (ρ k s) := by
  cases t <;> cases h <;> rfl

lemma filterMap_asConst_map (f : ι → κ) (ts : List (Tree ι)) :
    (ts.map (map f)).filterMap asConst = (ts.filterMap asConst).map fun k => (f k.1, k.2) := by
  rw [filterMap_map, map_filterMap]
  exact filterMap_congr fun t _ => asConst_map f t

/-- The constants of a tree may be renamed, if the new ones have the same values and no two
constants of one sort get the same name. -/
theorem eval_map (conv : Convention) :
    ∀ {C : List (ι × SmtSort)}, t.consts ⊆ C →
    (∀ k k' s, (k, s) ∈ C → (k', s) ∈ C → f k = f k' → k = k') →
    ∀ (ρ : Assignment κ) (σ : Assignment ι), (∀ k s, (k, s) ∈ C → σ k s = ρ (f k) s) →
    (t.map f).eval conv ρ = t.eval conv σ := by
  induction t with
  | fixedBV _ _ | fixedInt _ | fixedBool _ | constInterp => exact fun _ _ _ _ _ => rfl
  | bv id _ | bool id | array id _ _ =>
    intro C hC hinj ρ σ h
    rw [map, eval, eval, h _ _ (hC (mem_singleton.mpr rfl))]
  | unOp op arg ih =>
    intro C hC hinj ρ σ h
    rw [map, eval, eval, erase_map, ih hC hinj ρ σ h]
  | binOp _ _ _ ih1 ih2 | select _ _ ih1 ih2 =>
    intro C hC hinj ρ σ h
    obtain ⟨hC1, hC2⟩ := append_subset.mp hC
    rw [map, eval, eval, ih1 hC1 hinj ρ σ h, ih2 hC2 hinj ρ σ h]
  | ite _ _ _ ih1 ih2 ih3 | store _ _ _ ih1 ih2 ih3 =>
    intro C hC hinj ρ σ h
    obtain ⟨hC1, hC23⟩ := append_subset.mp hC
    obtain ⟨hC2, hC3⟩ := append_subset.mp hC23
    rw [map, eval, eval, ih1 hC1 hinj ρ σ h, ih2 hC2 hinj ρ σ h, ih3 hC3 hinj ρ σ h]
  | forAll bounds condition ihb ihc =>
    intro C hC hinj ρ σ h
    obtain ⟨hC1, hC2⟩ := append_subset.mp hC
    have hbound : bounds.filterMap asConst ⊆ C := by
      intro k hk
      obtain ⟨b, hb, hasConst⟩ := mem_filterMap.mp hk
      rw [constsList_eq] at hC1
      exact hC1 (mem_flatMap.mpr ⟨b, hb, mem_consts_of_asConst hasConst⟩)
    rw [map, eval, mapList_eq, filterMap_asConst_map]
    exact Value.forAll_map hinj hbound (fun ρ' σ' => ihc hC2 hinj ρ' σ') h

/-- Some assignment makes all the trees true. -/
def Satisfiable (conv : Convention) (ts : List (Tree ι)) : Prop :=
  ∃ ρ, ∀ t ∈ ts, t.eval conv ρ = .bool true

lemma Satisfiable.perm {conv : Convention} {ts ts' : List (Tree ι)} (h : ts.Perm ts') :
    Satisfiable conv ts ↔ Satisfiable conv ts' :=
  exists_congr fun _ => forall_congr' fun _ => by rw [h.mem_iff]

/-- Trees stay satisfiable when their constants are renamed. -/
theorem satisfiable_map (conv : Convention) {ts : List (Tree ι)}
    (hinj : ∀ k k' s, (k, s) ∈ ts.flatMap consts → (k', s) ∈ ts.flatMap consts → f k = f k' →
      k = k') : Satisfiable conv (ts.map (map f)) ↔ Satisfiable conv ts := by
  have hC : ∀ t ∈ ts, t.consts ⊆ ts.flatMap consts := fun t ht k hk =>
    mem_flatMap.mpr ⟨t, ht, hk⟩
  constructor
  · rintro ⟨ρ, hρ⟩
    refine ⟨fun k s => ρ (f k) s, fun t ht => ?_⟩
    rw [← eval_map conv (hC t ht) hinj ρ _ fun _ _ _ => rfl]
    exact hρ _ (mem_map_of_mem ht)
  · rintro ⟨σ, hσ⟩
    let ρ : Assignment κ := fun k' s =>
      if h : ∃ k, (k, s) ∈ ts.flatMap consts ∧ f k = k' then σ h.choose s else default
    have hρ : ∀ k s, (k, s) ∈ ts.flatMap consts → σ k s = ρ (f k) s := by
      intro k s hk
      have hex : ∃ k0, (k0, s) ∈ ts.flatMap consts ∧ f k0 = f k := ⟨k, hk, rfl⟩
      have heq : hex.choose = k := hinj _ _ s hex.choose_spec.1 hk hex.choose_spec.2
      simp only [ρ, dif_pos hex, heq]
    refine ⟨ρ, forall_mem_map.mpr fun t ht => ?_⟩
    rw [eval_map conv (hC t ht) hinj ρ σ hρ]
    exact hσ t ht

end Tree

/-- Trees with the same bytes are the same up to a renaming of their constants, if there are numbers
enough for these. -/
theorem toBytes_rename {t t' : Tree ConstId} {bytes : List U8} {m m' : IdMap}
    (h : t.toBytes [] = .ok (bytes, m)) (h' : t'.toBytes [] = .ok (bytes, m'))
    (hm : m.length ≤ 256) (hm' : m'.length ≤ 256) :
    ∃ f g : ConstId → U8, Set.InjOn f {id | id ∈ t.ids} ∧ Set.InjOn g {id | id ∈ t'.ids} ∧
      t.map f = t'.map g := by
  have hw := toBytesInternal_spec t h
  have hw' := toBytesInternal_spec t' h'
  have hinj := (hw.grows.numbered IdMap.numbered_nil).injOn hm
  have hinj' := (hw'.grows.numbered IdMap.numbered_nil).injOn hm'
  refine ⟨m.num, m'.num, hinj.mono fun id hid => (hw.grows.mem_iff id).mpr (.inr hid),
    hinj'.mono fun id hid => (hw'.grows.mem_iff id).mpr (.inr hid), ?_⟩
  apply Tree.ser_injOn ((Tree.plain_map _ _).mpr hw.plain) ((Tree.plain_map _ _).mpr hw'.plain)
  exact (hw.bytes_eq prefix_rfl).symm.trans (hw'.bytes_eq prefix_rfl)

/-- For all `x`: if `y` then the low four bits of `x + 1` are `x`, else true. -/
def lowBitsTree (x y : ConstId) : Tree ConstId :=
  .forAll [.bv x 4] (.ite (.bool y) (.binOp .eq (.unOp (.extract 3 0)
    (.binOp .add (.unOp (.zeroExt 4) (.bv x 4)) (.fixedBV 1 8))) (.bv x 4)) (.fixedBool true))

/-- The constants are written as `0` and `1` in both trees. -/
theorem toBytes_rename_lowBitsTree :
    ∃ f g : ConstId → U8, Set.InjOn f {id | id ∈ (lowBitsTree 3 7).ids} ∧
      Set.InjOn g {id | id ∈ (lowBitsTree 7 2).ids} ∧
      (lowBitsTree 3 7).map f = (lowBitsTree 7 2).map g :=
  @toBytes_rename _ _ _ [(3, 0), (7, 1)] [(7, 0), (2, 1)] rfl rfl (by decide) (by decide)

end LibLisa.Smt
