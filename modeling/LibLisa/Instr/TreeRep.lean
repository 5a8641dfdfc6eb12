import LibLisa.Instr.Tree
import LibLisa.Lib.BitTree
import Mathlib.Tactic.Abel

/-!
# What the stored nodes of a filter tree mean

`Rep entries idx T fp` says that the node index `idx` stands for the decision tree `T`, stored in
the entries at the positions `fp`, each used once. Together with `Arena.Owns`, which says that the
positions in use and the free ones are all positions, it specifies the operations that allocate,
copy and release nodes: each leaves every position outside its own footprint as it was
(`AgreeOn`), so the trees stored there keep their meaning (`Rep.frame`).

The only panic that these operations can raise on a well-formed tree is the assertion of
`U40::new`, when a node needs an index of more than 40 bits.
-/

namespace LibLisa.FilterTree

open Lib BitTree Multiset

/-- `idx` stands for the decision tree `T`, stored at the positions `fp`. -/
inductive Rep (entries : List Node) : NodeIndex → BitTree Leaf → Multiset ℕ → Prop
  | leaf (a : Leaf) : Rep entries (.leaf a) (.leaf a) 0
  | branch {i is0 is1 T0 T1 f0 f1} (hget : entries[i.val]? = some (.branch is0 is1))
      (h0 : Rep entries is0 T0 f0) (h1 : Rep entries is1 T1 f1) :
      Rep entries (.index i) (.branch T0 T1) ({i.val} + (f0 + f1))
  | ignore {i next T f} (hget : entries[i.val]? = some (.ignore next)) (h : Rep entries next T f) :
      Rep entries (.index i) (.ignore T) ({i.val} + f)

/-- The two arenas hold the same nodes at the positions in `used`. -/
def AgreeOn (used : Multiset ℕ) (t t' : FilterTree) : Prop :=
  ∀ j ∈ used, t'.entries[j]? = t.entries[j]?

/-- The only panic that a well-formed tree can run into. -/
def OnlyU40 (e : Abort) : Prop := e = .u40Overflow

variable {t t' t'' : FilterTree} {used F G fp : Multiset ℕ} {idx : NodeIndex} {T : BitTree Leaf}
  {entries : List Node}

lemma AgreeOn.refl (used : Multiset ℕ) (t : FilterTree) : AgreeOn used t t := fun _ _ => rfl

lemma AgreeOn.trans (h : AgreeOn used t t') (h' : AgreeOn used t' t'') : AgreeOn used t t'' :=
  fun j hj => (h' j hj).trans (h j hj)

lemma AgreeOn.mono (h : AgreeOn F t t') (hsub : ∀ j ∈ G, j ∈ F) : AgreeOn G t t' :=
  fun j hj => h j (hsub j hj)

lemma AgreeOn.left (h : AgreeOn (F + G) t t') : AgreeOn F t t' :=
  h.mono fun _ hj => mem_add.mpr (Or.inl hj)

lemma AgreeOn.right (h : AgreeOn (F + G) t t') : AgreeOn G t t' :=
  h.mono fun _ hj => mem_add.mpr (Or.inr hj)

/-- A stored tree keeps its meaning when nothing at its positions changes. -/
theorem Rep.frame {entries' : List Node} (h : Rep entries idx T fp)
    (hagree : ∀ j ∈ fp, entries'[j]? = entries[j]?) : Rep entries' idx T fp := by
  induction h with
  | leaf a => exact .leaf a
  | branch hget _ _ ih0 ih1 =>
    refine .branch ?_ (ih0 fun j hj => hagree j (by simp [hj])) (ih1 fun j hj => hagree j ?_)
    · rw [hagree _ (by simp), hget]
    · simp [hj]
  | ignore hget _ ih =>
    refine .ignore ?_ (ih fun j hj => hagree j (by simp [hj]))
    rw [hagree _ (by simp), hget]

lemma Rep.card (h : Rep entries idx T fp) : fp.card = T.numNodes := by
  induction h with
  | leaf a => rfl
  | branch _ _ _ ih0 ih1 =>
    simp only [card_add, card_singleton, numNodes]
    omega
  | ignore _ _ ih =>
    simp only [card_add, card_singleton, numNodes]
    omega

lemma Rep.index_not_isLeaf {i : U40} (h : Rep entries (.index i) T fp) : T.isLeaf = false := by
  cases h <;> rfl

/-- Recursions over a stored tree have enough fuel. -/
lemma Rep.height_le_fuel (h : Rep t.entries idx T fp) (hown : t.Owns (fp + F)) :
    T.height ≤ t.fuel := by
  have hcard := hown.card_add
  have hnodes := T.height_le_numNodes
  rw [card_add, h.card] at hcard
  rw [fuel]
  omega

/-! ## Reading and writing one node -/

lemma get_eq {i : ℕ} {n : Node} (h : t.entries[i]? = some n) : t.get i = .ok n := by
  rw [get, h, orPanic_some]

lemma newNode_spec (hown : t.Owns used) (n : Node) :
    Ensures (t.newNode n) OnlyU40 fun r => ∃ i : U40, r.1 = .index i ∧
      r.2.Owns ({i.val} + used) ∧ r.2.entries[i.val]? = some n ∧ AgreeOn used t r.2 := by
  obtain ⟨i, t', ht', hown', hget, hframe⟩ := Arena.alloc_spec hown n
  simp only [newNode, ht', orPanic_some, ok_bind, U40.new]
  by_cases hi : i < 2 ^ 40
  · rw [dif_pos hi]
    exact ⟨⟨i, hi⟩, rfl, hown', hget, hframe⟩
  · rw [dif_neg hi]
    exact rfl

lemma freeEntry_spec {i : ℕ} (hown : t.Owns ({i} + used)) :
    ∃ t', t.freeEntry i = .ok t' ∧ t'.Owns used ∧ AgreeOn used t t' := by
  obtain ⟨t', ht', hown', hframe⟩ := Arena.free_spec hown
  exact ⟨t', by rw [freeEntry, ht', orPanic_some], hown', hframe⟩

/-! ## Releasing and copying a stored tree -/

/-- `free_node` releases exactly the positions of the tree. -/
lemma freeNode_spec : ∀ (T : BitTree Leaf) {fuel : ℕ} {t : FilterTree} {idx : NodeIndex}
    {fp F : Multiset ℕ}, Rep t.entries idx T fp → t.Owns (fp + F) → T.height ≤ fuel →
    ∃ t', freeNode fuel t idx = .ok t' ∧ t'.Owns F ∧ AgreeOn F t t'
  | .leaf a, fuel, t, idx, fp, F, hrep, hown, _ => by
      cases hrep
      exact ⟨t, by cases fuel <;> rfl, hown.congr (by simp), .refl F t⟩
  | .branch T0 T1, _, t, idx, fp, F, hrep, hown, hfuel => by
      obtain _ | ⟨hget, h0, h1⟩ := hrep
      rename_i i is0 is1 f0 f1
      obtain ⟨fuel, rfl, hle⟩ := exists_fuel_branch hfuel
      obtain ⟨t1, ht1, hown1, hag1⟩ := freeNode_spec T0 (F := f1 + ({i.val} + F)) h0
        (hown.congr (by abel)) hle.1
      obtain ⟨t2, ht2, hown2, hag2⟩ := freeNode_spec T1 (h1.frame hag1.left) hown1 hle.2
      obtain ⟨t3, ht3, hown3, hag3⟩ := freeEntry_spec hown2
      refine ⟨t3, ?_, hown3, hag1.right.right.trans (hag2.right.trans hag3)⟩
      rw [freeNode, get_eq hget, ok_bind]
      simp only [ht1, ht2, ht3, ok_bind]
  | .ignore T, _, t, idx, fp, F, hrep, hown, hfuel => by
      obtain _ | _ | ⟨hget, h⟩ := hrep
      rename_i i next f
      obtain ⟨fuel, rfl, hle⟩ := exists_fuel_ignore hfuel
      obtain ⟨t1, ht1, hown1, hag1⟩ := freeNode_spec T (F := {i.val} + F) h
        (hown.congr (by abel)) hle
      obtain ⟨t2, ht2, hown2, hag2⟩ := freeEntry_spec hown1
      refine ⟨t2, ?_, hown2, hag1.right.trans hag2⟩
      rw [freeNode, get_eq hget, ok_bind]
      simp only [ht1, ht2, ok_bind]

/-- `deep_clone_node` stores a second copy of the tree at new positions. -/
lemma deepCloneNode_spec : ∀ (T : BitTree Leaf) {fuel : ℕ} {t : FilterTree} {idx : NodeIndex}
    {fp F : Multiset ℕ}, Rep t.entries idx T fp → t.Owns F → (∀ j ∈ fp, j ∈ F) →
    T.height ≤ fuel →
    Ensures (deepCloneNode fuel t idx) OnlyU40 fun r =>
      ∃ fp', Rep r.2.entries r.1 T fp' ∧ r.2.Owns (fp' + F) ∧ AgreeOn F t r.2
  | .leaf a, fuel, t, idx, fp, F, hrep, hown, _, _ => by
      cases hrep
      have heq : deepCloneNode fuel t (.leaf a) = .ok (.leaf a, t) := by cases fuel <;> rfl
      rw [heq]
      exact ⟨0, .leaf a, hown.congr (by simp), .refl F t⟩
  | .branch T0 T1, _, t, idx, fp, F, hrep, hown, hsub, hfuel => by
      obtain _ | ⟨hget, h0, h1⟩ := hrep
      rename_i i is0 is1 f0 f1
      obtain ⟨fuel, rfl, hle⟩ := exists_fuel_branch hfuel
      rw [deepCloneNode, get_eq hget, ok_bind]
      refine (deepCloneNode_spec T0 h0 hown (fun j hj => hsub j (by simp [hj])) hle.1).bind ?_
      rintro ⟨c0, t1⟩ ⟨g0, hrep0, hown1, hag1⟩
      have h1' : Rep t1.entries is1 T1 f1 := h1.frame fun j hj => hag1 j (hsub j (by simp [hj]))
      refine (deepCloneNode_spec T1 h1' hown1 (fun j hj => ?_) hle.2).bind ?_
      · exact mem_add.mpr (Or.inr (hsub j (by simp [hj])))
      rintro ⟨c1, t2⟩ ⟨g1, hrep1, hown2, hag2⟩
      refine (newNode_spec hown2 (.branch c0 c1)).imp ?_
      rintro ⟨r, t3⟩ ⟨k, rfl, hown3, hget3, hag3⟩
      exact ⟨{k.val} + (g0 + g1), .branch hget3 ((hrep0.frame hag2.left).frame hag3.right.left)
        (hrep1.frame hag3.left), hown3.congr (by abel),
        hag1.trans (hag2.right.trans hag3.right.right)⟩
  | .ignore T, _, t, idx, fp, F, hrep, hown, hsub, hfuel => by
      obtain _ | _ | ⟨hget, h⟩ := hrep
      rename_i i next f
      obtain ⟨fuel, rfl, hle⟩ := exists_fuel_ignore hfuel
      rw [deepCloneNode, get_eq hget, ok_bind]
      refine (deepCloneNode_spec T h hown (fun j hj => hsub j (by simp [hj])) hle).bind ?_
      rintro ⟨c, t1⟩ ⟨g, hrep1, hown1, hag1⟩
      refine (newNode_spec hown1 (.ignore c)).imp ?_
      rintro ⟨r, t2⟩ ⟨k, rfl, hown2, hget2, hag2⟩
      exact ⟨{k.val} + g, .ignore hget2 (hrep1.frame hag2.left), hown2.congr (by abel),
        hag1.trans hag2.right⟩

end LibLisa.FilterTree
