import LibLisa.Instr.TreeRep

/-!
# Inserting a filter

`FilterTree.filter` on a stored tree is `BitTree.insert` with the filter's bits as the cube
(`filter_spec`). The two passes are specified one by one:

* `add_internal` paints the cube onto the stored tree and reports whether that changed it
  (`addLoop_spec`); the recursion of the source over the filter bits is the recursion of
  `BitTree.paint` over the cube.
* `optimize` collapses the stored tree along the filter (`optimize_spec`). Comparing two node
  references compares entries, and since no position is shared, equal entries mean equal trees with
  leaves as children (`nodeRefEq_spec`).
-/

namespace LibLisa.FilterTree

open Lib List BitTree FilterBit InstructionFilter

variable {t : FilterTree} {F G fp : Multiset ℕ} {T : BitTree Leaf}

/-! ## The last bit -/

variable {i : ℕ}

/-- Overwriting a node leaves the other nodes in use alone. -/
lemma set_agreeOn_spec (hown : t.Owns ({i} + G)) (n : Node) :
    ∃ t', t.set i n = .ok t' ∧ t'.Owns ({i} + G) ∧ t'.entries[i]? = some n ∧ AgreeOn G t t' := by
  obtain ⟨t', ht', hown', hget', hframe⟩ := Arena.write_spec hown (i := i) (by simp) n
  refine ⟨t', by rw [set, ht', orPanic_some], hown', hget', fun j hj => hframe j ?_⟩
  rintro rfl
  exact hown.notMem_of_singleton_add hj

variable {entries : List Node} {child : NodeIndex} {A B : BitTree Leaf} {m : NodeIndex → Node}
  {f g : Multiset ℕ} {next : NodeIndex} {x y : NodeIndex} {c : Cube}

lemma Rep.eq_leaf_iff {idx : NodeIndex} {a : Leaf} (h : Rep entries idx T fp) :
    idx = .leaf a ↔ T = .leaf a := by
  cases h <;> simp

/-- Releasing a child and overwriting its parent. -/
lemma freeNode_set_spec (hrep : Rep t.entries child T fp)
    (hown : t.Owns (fp + ({i} + G))) (n : Node) :
    ∃ t', (freeNode t.fuel t child >>= fun t => t.set i n) = .ok t' ∧
      t'.Owns ({i} + G) ∧ t'.entries[i]? = some n ∧ AgreeOn G t t' := by
  obtain ⟨t1, ht1, hown1, hag1⟩ := freeNode_spec T hrep hown (hrep.height_le_fuel hown)
  obtain ⟨t2, ht2, hown2, hget2, hag2⟩ := set_agreeOn_spec hown1 n
  exact ⟨t2, by rw [ht1, ok_bind, ht2], hown2, hget2, hag1.right.trans hag2⟩

/-- Overwriting a node and then releasing one of its children. -/
lemma set_freeNode_spec (hrep : Rep t.entries child T fp)
    (hown : t.Owns (fp + ({i} + G))) (n : Node) :
    ∃ t₁ t', t.set i n = .ok t₁ ∧ freeNode t₁.fuel t₁ child = .ok t' ∧
      t'.Owns ({i} + G) ∧ t'.entries[i]? = some n ∧ AgreeOn G t t' := by
  obtain ⟨t1, ht1, hown1, hget1, hag1⟩ := set_agreeOn_spec (G := fp + G) (hown.congr (by abel)) n
  have hrep1 := hrep.frame hag1.left
  have hown1' : t1.Owns (fp + ({i} + G)) := hown1.congr (by abel)
  obtain ⟨t2, ht2, hown2, hag2⟩ := freeNode_spec T hrep1 hown1' (hrep1.height_le_fuel hown1')
  exact ⟨t1, t2, ht1, ht2, hown2, by rw [hag2 i (by simp), hget1], hag1.right.trans hag2.right⟩

/-- A child is made a `Skip` leaf, unless it is one already; the parent is `m child`. -/
lemma skipChild_spec (hget : t.entries[i]? = some (m child)) (hrep : Rep t.entries child T fp)
    (hown : t.Owns (fp + ({i} + G))) :
    ∃ t', (if child = .skip then pure (false, t) else do
        let t ← freeNode t.fuel t child
        return (true, ← t.set i (m .skip)) : Partial (Bool × FilterTree)) =
          .ok (decide (T ≠ .leaf .skip), t') ∧
      t'.Owns ({i} + G) ∧ t'.entries[i]? = some (m .skip) ∧ AgreeOn G t t' := by
  by_cases hskip : child = .skip
  · have hT := hrep.eq_leaf_iff.mp hskip
    subst hT hskip
    cases hrep
    exact ⟨t, by simp; rfl, hown.congr (zero_add _), hget, .refl G t⟩
  · have hT : T ≠ .leaf .skip := fun h => hskip (hrep.eq_leaf_iff.mpr h)
    obtain ⟨t', ht', hown', hget', hag'⟩ := freeNode_set_spec hrep hown (m .skip)
    obtain ⟨t1, ht1, ht2⟩ := ok_of_bind ht'
    exact ⟨t', by simp [hskip, ht1, ht2, hT], hown', hget', hag'⟩

/-- The last bit of a filter paints a one-bit cube. -/
lemma addLast_spec {i : U40} (hrep : Rep t.entries (.index i) T fp) (hown : t.Owns (fp + F))
    (bit : FilterBit) :
    ∃ t' fp', t.addLast i bit =
        .ok (decide (paint .skip [bit.asBit] T ≠ T), t') ∧
      Rep t'.entries (.index i) (paint .skip [bit.asBit] T) fp' ∧
      t'.Owns (fp' + F) ∧ AgreeOn F t t' := by
  obtain _ | ⟨hget, h0, h1⟩ | ⟨hget, h⟩ := hrep
  · rename_i is0 is1 T0 T1 f0 f1
    rw [addLast, get_eq hget]
    cases bit with
    | is0 =>
      simp only [asBit, paint]
      obtain ⟨t', ht', hown', hget', hag'⟩ := skipChild_spec (m := fun x => .branch x is1)
        (G := f1 + F) hget h0 (hown.congr (by abel))
      refine ⟨t', {i.val} + (0 + f1), ?_, .branch hget' (.leaf _) (h1.frame hag'.left),
        hown'.congr (by abel), hag'.right⟩
      simpa [eq_comm] using ht'
    | is1 =>
      simp only [asBit, paint]
      obtain ⟨t', ht', hown', hget', hag'⟩ := skipChild_spec (G := f0 + F) hget h1
        (hown.congr (by abel))
      refine ⟨t', {i.val} + (f0 + 0), ?_, .branch hget' (h0.frame hag'.left) (.leaf _),
        hown'.congr (by abel), hag'.right⟩
      simpa [eq_comm] using ht'
    | wildcard =>
      simp only [asBit, paint, isEmpty_nil, if_true]
      obtain ⟨t1, ht1, hown1, hag1⟩ := freeNode_spec T0 (F := f1 + ({i.val} + F)) h0
        (hown.congr (by abel)) (h0.height_le_fuel (F := f1 + ({i.val} + F)) (hown.congr (by abel)))
      obtain ⟨t', ht', hown', hget', hag'⟩ := freeNode_set_spec (h1.frame hag1.left) hown1
        (.ignore .skip)
      obtain ⟨t2, ht2, ht3⟩ := ok_of_bind ht'
      exact ⟨t', {i.val} + 0, by simp [ht1, ht2, ht3],
        .ignore hget' (.leaf _), hown'.congr (by abel), hag1.right.right.trans hag'⟩
  · rename_i next T f
    rw [addLast, get_eq hget]
    cases bit with
    | is0 =>
      simp only [asBit, paint, fork]
      obtain ⟨t', ht', hown', hget', hag'⟩ := set_agreeOn_spec (hown.congr (add_assoc _ _ _))
        (.branch .skip next)
      exact ⟨t', {i.val} + (0 + f), by simp [ht'], .branch hget' (.leaf _) (h.frame hag'.left),
        hown'.congr (by abel), hag'.right⟩
    | is1 =>
      simp only [asBit, paint, fork]
      obtain ⟨t', ht', hown', hget', hag'⟩ := set_agreeOn_spec (hown.congr (add_assoc _ _ _))
        (.branch next .skip)
      exact ⟨t', {i.val} + (f + 0), by simp [ht'], .branch hget' (h.frame hag'.left) (.leaf _),
        hown'.congr (by abel), hag'.right⟩
    | wildcard =>
      simp only [asBit, paint, fork]
      obtain ⟨t', ht', hown', hget', hag'⟩ := skipChild_spec (G := F) hget h (hown.congr (by abel))
      refine ⟨t', {i.val} + 0, ?_, .ignore hget' (.leaf _), hown'.congr (by abel), hag'⟩
      simpa [eq_comm] using ht'

/-! ## The loop over the filter bits -/

/-- `add` paints the cube `c` onto the tree at a node and reports whether that changed it. -/
def Paints (add : Bool → FilterTree → ℕ → Partial (Bool × FilterTree)) (c : Cube) : Prop :=
  ∀ (modified : Bool) {t : FilterTree} {i : U40} {T : BitTree Leaf} {fp F : Multiset ℕ},
    Rep t.entries (.index i) T fp → t.Owns (fp + F) →
    Ensures (add modified t i) OnlyU40 fun r => ∃ fp',
      r.1 = (modified || decide (BitTree.paint .skip c T ≠ T)) ∧
      Rep r.2.entries (.index i) (BitTree.paint .skip c T) fp' ∧
      r.2.Owns (fp' + F) ∧ AgreeOn F t r.2

/-- Going on in a child: an `Enumerate` leaf is first made an inner node, and the parent `cur`,
which is `mk child`, is linked to it. -/
lemma addChild_spec {add : Bool → FilterTree → ℕ → Partial (Bool × FilterTree)}
    {b : Option Bool} (hadd : Paints add (b :: c)) {cur : ℕ}
    {update : FilterTree → NodeIndex → Partial FilterTree}
    (hget : t.entries[cur]? = some (m child)) (hrep : Rep t.entries child T fp)
    (hown : t.Owns (fp + ({cur} + G)))
    (hupdate : ∀ t' : FilterTree, t'.entries[cur]? = some (m child) →
      ∀ new, update t' new = t'.set cur (m new)) (modified : Bool) :
    Ensures (t.nodeToIndex child update >>= addChild modified (add modified)) OnlyU40 fun r =>
      ∃ child' fp', r.1 = (modified || decide (paint .skip (b :: c) T ≠ T)) ∧
        r.2.entries[cur]? = some (m child') ∧
        Rep r.2.entries child' (paint .skip (b :: c) T) fp' ∧
        r.2.Owns (fp' + ({cur} + G)) ∧ AgreeOn G t r.2 := by
  cases child with
  | leaf a =>
    cases hrep
    cases a with
    | skip =>
      refine ⟨.skip, 0, by simp, hget, ?_, hown, .refl G t⟩
      simpa using Rep.leaf Leaf.skip
    | enumerate =>
      have hne : Leaf.enumerate ≠ Leaf.skip := by decide
      have hchanged : paint Leaf.skip (b :: c) (.leaf .enumerate) ≠ .leaf .enumerate :=
        paint_ne_self (t := .leaf Leaf.enumerate) (fun _ => hne) _
      simp only [nodeToIndex, bind_assoc]
      refine (newNode_spec (hown.congr (zero_add _)) (.ignore .enumerate)).bind ?_
      rintro ⟨r, t1⟩ ⟨i, rfl, hown1, hget1, hag1⟩
      have hcur1 : t1.entries[cur]? = some (m .enumerate) := by rw [hag1 cur (by simp), hget]
      obtain ⟨t2, ht2, hown2, hget2, hag2⟩ := set_agreeOn_spec (i := cur)
        (G := {i.val} + G) (hown1.congr (by abel)) (m (.index i))
      refine Ensures.bind_ok ((hupdate t1 hcur1 _).trans ht2) ?_
      have hnew : Rep t2.entries (.index i) (.ignore (.leaf .enumerate)) ({i.val} + 0) :=
        .ignore (by rw [hag2 i.val (by simp), hget1]) (.leaf _)
      refine (hadd modified hnew (F := {cur} + G) (hown2.congr (by abel))).imp ?_
      rintro ⟨m, t3⟩ ⟨fp', hm, hrep3, hown3, hag3⟩
      have hchanged' : paint Leaf.skip (b :: c) (.ignore (.leaf .enumerate)) ≠
          .ignore (.leaf .enumerate) :=
        paint_ne_self (t := .ignore (.leaf Leaf.enumerate)) (fun _ => hne) _
      refine ⟨.index i, fp', ?_, by rw [hag3 cur (by simp), hget2], ?_, hown3,
        hag1.right.trans (hag2.right.trans hag3.right)⟩
      · simpa [hchanged, hchanged'] using hm
      · rw [paint_leaf_of_ne hne]
        exact hrep3
  | index i =>
    refine (hadd modified hrep hown).imp ?_
    rintro ⟨m, t1⟩ ⟨fp', hm, hrep1, hown1, hag1⟩
    exact ⟨.index i, fp', hm, by rw [hag1 cur (by simp), hget], hrep1, hown1, hag1.right⟩

/-- The `rest` bits of a filter from bit `n` on, as a cube. -/
def cubeFrom (filter : InstructionFilter) (n rest : ℕ) : Cube :=
  ((filter.bits.drop n).take rest).map FilterBit.asBit

lemma cubeFrom_succ {filter : InstructionFilter} {n rest : ℕ} (h : n < filter.bits.length) :
    cubeFrom filter n (rest + 1) = filter.bits[n].asBit :: cubeFrom filter (n + 1) rest := by
  rw [cubeFrom, drop_eq_getElem_cons h, take_succ_cons, map_cons, cubeFrom]

/-- An `Ignore` is made a branch: the second child is a copy of the first. -/
lemma forkNode_spec {i : U40} (h : Rep t.entries next T fp) (hown : t.Owns ({i.val} + fp + F)) :
    Ensures (deepCloneNode t.fuel t next) OnlyU40 fun r => ∃ g t',
      r.2.set i (.branch next r.1) = .ok t' ∧ t'.entries[i.val]? = some (.branch next r.1) ∧
      Rep t'.entries next T fp ∧ Rep t'.entries r.1 T g ∧
      t'.Owns ({i.val} + (g + (fp + F))) ∧ AgreeOn F t t' := by
  refine (deepCloneNode_spec T h hown (fun j hj => by simp [hj])
    (h.height_le_fuel (F := {i.val} + F) (hown.congr (by abel)))).imp ?_
  rintro ⟨clone, t1⟩ ⟨g, hclone, hown1, hag1⟩
  obtain ⟨t2, ht2, hown2, hget2, hag2⟩ := set_agreeOn_spec
    (G := g + (fp + F)) (hown1.congr (by abel)) (.branch next clone)
  exact ⟨g, t2, ht2, hget2, (h.frame hag1.left.right).frame hag2.right.left,
    hclone.frame hag2.left, hown2, hag1.right.trans hag2.right.right⟩

/-- `add_internal` paints the remaining filter bits. -/
theorem addLoop_spec (filter : InstructionFilter) :
    ∀ rest n, n + (rest + 1) ≤ filter.bits.length →
      Paints (addLoop filter (rest + 1) n) (cubeFrom filter n (rest + 1))
  | 0, n, hlen, modified, t, i, T, fp, F, hrep, hown => by
      have hn : n < filter.bits.length := by omega
      obtain ⟨t', fp', hlast, hrep', hown', hag'⟩ := addLast_spec hrep hown filter.bits[n]
      have hc : cubeFrom filter n (0 + 1) = [filter.bits[n].asBit] := by
        rw [cubeFrom_succ hn]
        simp [cubeFrom]
      rw [hc, addLoop, nthBitFromLeft_eq hn, ok_bind, hlast]
      exact ⟨fp', rfl, hrep', hown', hag'⟩
  | rest + 1, n, hlen, modified, t, i, T, fp, F, hrep, hown => by
      have hn : n < filter.bits.length := by omega
      have ih := addLoop_spec filter rest (n + 1) (by omega)
      obtain ⟨b, c, hbc⟩ : ∃ b c, cubeFrom filter (n + 1) (rest + 1) = b :: c :=
        ⟨_, _, cubeFrom_succ (by omega)⟩
      rw [hbc] at ih
      rw [cubeFrom_succ hn, hbc, addLoop, nthBitFromLeft_eq hn]
      obtain _ | ⟨hget, h0, h1⟩ | ⟨hget, h⟩ := hrep
      · rename_i is0 is1 T0 T1 f0 f1
        rw [get_eq hget]
        cases filter.bits[n] with
        | is0 =>
          simp only [asBit, paint]
          refine (addChild_spec ih (m := fun x => .branch x is1) (G := f1 + F) hget h0
            (hown.congr (by abel)) (fun _ _ _ => rfl) modified).imp ?_
          rintro ⟨m, t'⟩ ⟨is0', f0', hm, hget', h0', hown', hag'⟩
          exact ⟨{i.val} + (f0' + f1), by simpa using hm, .branch hget' h0' (h1.frame hag'.left),
            hown'.congr (by abel), hag'.right⟩
        | is1 =>
          simp only [asBit, paint]
          refine (addChild_spec ih (G := f0 + F) hget h1
            (hown.congr (by abel)) (fun _ _ _ => rfl) modified).imp ?_
          rintro ⟨m, t'⟩ ⟨is1', f1', hm, hget', h1', hown', hag'⟩
          exact ⟨{i.val} + (f0 + f1'), by simpa using hm, .branch hget' (h0.frame hag'.left) h1',
            hown'.congr (by abel), hag'.right⟩
        | wildcard =>
          simp only [asBit, paint, isEmpty_cons, Bool.false_eq_true, if_false]
          refine (addChild_spec ih (m := fun x => .branch x is1) (G := f1 + F) hget h0
            (hown.congr (by abel)) (fun _ _ _ => rfl) false).bind_bind ?_
          rintro ⟨m0, t1⟩ ⟨is0', f0', hm0, hget1, h0', hown1, hag1⟩
          refine (addChild_spec ih (G := f0' + F) hget1 (h1.frame hag1.left)
            (hown1.congr (by abel)) (fun t' ht' new => ?_) false).bind_bind ?_
          · rw [setIs1, get_eq ht', ok_bind]
          rintro ⟨m1, t2⟩ ⟨is1', f1', hm1, hget2, h1'', hown2, hag2⟩
          refine ⟨{i.val} + (f0' + f1'), ?_, .branch hget2 (h0'.frame hag2.left) h1'',
            hown2.congr (by abel), hag1.right.trans hag2.right⟩
          simp only [Bool.false_or] at hm0 hm1
          simp only [hm0, hm1, ne_eq, branch.injEq, not_and_or, Bool.decide_or, Bool.or_assoc]
      · rename_i next T f
        rw [get_eq hget]
        cases filter.bits[n] with
        | is0 =>
          simp only [asBit, paint, fork]
          refine (forkNode_spec h hown).bind ?_
          rintro ⟨clone, t1⟩ ⟨g, t2, ht2, hget2, h2, hclone, hown2, hag2⟩
          refine Ensures.bind_ok ht2 ?_
          refine (addChild_spec ih (m := fun x => .branch x clone) (G := g + F) hget2 h2
            (hown2.congr (by abel)) (fun _ _ _ => rfl) true).imp ?_
          rintro ⟨m, t3⟩ ⟨next', f', hm, hget3, h3, hown3, hag3⟩
          exact ⟨{i.val} + (f' + g), by simpa using hm, .branch hget3 h3 (hclone.frame hag3.left),
            hown3.congr (by abel), hag2.trans hag3.right⟩
        | is1 =>
          simp only [asBit, paint, fork]
          refine (forkNode_spec h hown).bind ?_
          rintro ⟨clone, t1⟩ ⟨g, t2, ht2, hget2, h2, hclone, hown2, hag2⟩
          refine Ensures.bind_ok ht2 ?_
          refine (addChild_spec ih (G := f + F) hget2 hclone
            (hown2.congr (by abel)) (fun _ _ _ => rfl) true).imp ?_
          rintro ⟨m, t3⟩ ⟨next', g', hm, hget3, h3, hown3, hag3⟩
          exact ⟨{i.val} + (f + g'), by simpa using hm, .branch hget3 (h2.frame hag3.left) h3,
            hown3.congr (by abel), hag2.trans hag3.right⟩
        | wildcard =>
          simp only [asBit, paint, fork]
          refine (addChild_spec ih (G := F) hget h
            (hown.congr (by abel)) (fun _ _ _ => rfl) modified).imp ?_
          rintro ⟨m, t'⟩ ⟨next', f', hm, hget', h', hown', hag'⟩
          exact ⟨{i.val} + f', by simpa using hm, .ignore hget' h', hown'.congr (by abel), hag'⟩

/-! ## Collapsing -/

lemma Rep.mem_footprint {i : U40} (h : Rep entries (.index i) T fp) : i.val ∈ fp := by
  cases h <;> simp

/-- Two children stored at different positions are equal only as equal leaves. -/
lemma Rep.eq_iff_of_disjoint
    (hx : Rep entries x A f) (hy : Rep entries y B g) (hdis : ∀ j ∈ f, j ∉ g) :
    x = y ↔ ∃ a, A = .leaf a ∧ B = .leaf a := by
  constructor
  · rintro rfl
    cases x with
    | leaf a => exact ⟨a, hx.eq_leaf_iff.mp rfl, hy.eq_leaf_iff.mp rfl⟩
    | index i => exact absurd hy.mem_footprint (hdis _ hx.mem_footprint)
  · rintro ⟨a, rfl, rfl⟩
    rw [hx.eq_leaf_iff.mpr rfl, hy.eq_leaf_iff.mpr rfl]

/-- Comparing two references compares the trees one level deep. -/
theorem nodeRefEq_spec
    (hx : Rep t.entries x A f) (hy : Rep t.entries y B g) (hdis : ∀ j ∈ f, j ∉ g) :
    ∃ same, t.nodeRefEq x y = .ok same ∧
      (same = true ↔ (∃ a, A = .leaf a ∧ B = .leaf a) ∨ shallowEq A B = true) := by
  rcases x with a | i <;> rcases y with b | j
  · have hA := hx.eq_leaf_iff.mp rfl
    have hB := hy.eq_leaf_iff.mp rfl
    subst hA hB
    exact ⟨_, rfl, by simp [shallowEq, eq_comm]⟩
  · have hA := hx.eq_leaf_iff.mp rfl
    subst hA
    exact ⟨_, rfl, by cases hy <;> simp [shallowEq]⟩
  · have hB := hy.eq_leaf_iff.mp rfl
    subst hB
    exact ⟨_, rfl, by cases hx <;> simp [shallowEq]⟩
  · have hij : i ≠ j := by
      rintro rfl
      exact hdis _ hx.mem_footprint hy.mem_footprint
    obtain _ | ⟨hgx, hx0, hx1⟩ | ⟨hgx, hx'⟩ := hx <;>
      obtain _ | ⟨hgy, hy0, hy1⟩ | ⟨hgy, hy'⟩ := hy <;>
      refine ⟨_, by simp only [nodeRefEq, hij, get_eq hgx, get_eq hgy]; rfl, ?_⟩ <;>
      rw [decide_eq_true_iff]
    · rw [Node.branch.injEq, shallowEq_branch_iff,
        hx0.eq_iff_of_disjoint hy0 fun j hj hj' => hdis j (by simp [hj]) (by simp [hj']),
        hx1.eq_iff_of_disjoint hy1 fun j hj hj' => hdis j (by simp [hj]) (by simp [hj'])]
      simp
    · simp [shallowEq]
    · simp [shallowEq]
    · rw [Node.ignore.injEq, shallowEq_ignore_iff,
        hx'.eq_iff_of_disjoint hy' fun j hj hj' => hdis j (by simp [hj]) (by simp [hj'])]
      simp

/-- What `optimize` leaves behind: it returns the leaf to which the tree collapsed, or nothing and
the collapsed tree in place. -/
def Collapses (opt : FilterTree → NodeIndex → Partial (Option NodeIndex × FilterTree))
    (T T' : BitTree Leaf) : Prop :=
  ∀ {t : FilterTree} {idx : NodeIndex} {fp F : Multiset ℕ}, Rep t.entries idx T fp →
    t.Owns (fp + F) → ∃ o t' fp', opt t idx = .ok (o, t') ∧
      Rep t'.entries (o.getD idx) T' fp' ∧ t'.Owns (fp' + F) ∧ AgreeOn F t t' ∧
      ∀ x, o = some x → ∃ a, x = .leaf a

lemma optimizeChild_spec {opt : FilterTree → NodeIndex → Partial (Option NodeIndex × FilterTree)}
    {T' : BitTree Leaf} (follow : Bool) (h : follow = true → Collapses opt T T') :
    Collapses (optimizeChild opt follow) T (if follow then T' else T) := by
  intro t idx fp F hrep hown
  cases follow with
  | true =>
    obtain ⟨o, t', fp', hres⟩ := h rfl hrep hown
    exact ⟨o, t', fp', by simpa [optimizeChild] using hres⟩
  | false =>
    exact ⟨none, t, fp, rfl, hrep, hown, .refl F t, by simp⟩

/-- Writing back the children that `optimize` returned. -/
lemma writeBack_spec {is0 is1 : NodeIndex} (o0 o1 : Option NodeIndex)
    (hget : t.entries[i]? = some (.branch is0 is1)) (hown : t.Owns ({i} + G)) :
    ∃ t', t.writeBack i is0 is1 o0 o1 = .ok t' ∧
      t'.entries[i]? = some (.branch (o0.getD is0) (o1.getD is1)) ∧ t'.Owns ({i} + G) ∧
      AgreeOn G t t' := by
  obtain ⟨t', ht', hown', hget', hag'⟩ :=
    set_agreeOn_spec hown (.branch (o0.getD is0) (o1.getD is1))
  cases o0 with
  | none =>
    cases o1 with
    | none => exact ⟨t, rfl, hget, hown, .refl G t⟩
    | some x => exact ⟨t', ht', hget', hown', hag'⟩
  | some x => exact ⟨t', ht', hget', hown', hag'⟩

/-- What a call of `optimize` returned for the node `idx`. -/
def CollapsedTo (T : BitTree Leaf) (F : Multiset ℕ) (t : FilterTree) (idx : NodeIndex)
    (r : Partial (Option NodeIndex × FilterTree)) : Prop :=
  ∃ o t' fp, r = .ok (o, t') ∧ Rep t'.entries (o.getD idx) T fp ∧ t'.Owns (fp + F) ∧
    AgreeOn F t t' ∧ ∀ x, o = some x → ∃ a, x = .leaf a

/-- The end of `optimize` at a branch: children that look the same are joined. -/
lemma joinChildren_spec {i : U40} {x0 x1 : NodeIndex} {f0 f1 : Multiset ℕ}
    (hget : t.entries[i.val]? = some (.branch x0 x1)) (h0 : Rep t.entries x0 A f0)
    (h1 : Rep t.entries x1 B f1) (hown : t.Owns ({i.val} + (f1 + (f0 + F)))) :
    CollapsedTo (join A B) F t (.index i) (do
      if ← t.nodeRefEq x0 x1 then
        match x0 with
        | .leaf _ =>
          let t ← freeNode t.fuel t x1
          let t ← t.freeEntry i
          return (some x0, t)
        | .index _ =>
          let t ← t.set i (.ignore x0)
          let t ← freeNode t.fuel t x1
          return (none, t)
      else return (none, t)) := by
  have hdis : ∀ j ∈ f0, j ∉ f1 := fun j hj hj' => by
    have hnodup := (hown.congr (show _ = (f0 + f1) + ({i.val} + F) by abel)).nodup
    exact Multiset.disjoint_left.mp
      (Multiset.nodup_add.mp (Multiset.nodup_add.mp hnodup).1).2.2 hj hj'
  obtain ⟨same, hsame, hsame_iff⟩ := nodeRefEq_spec h0 h1 hdis
  rw [hsame]
  rcases join_cases A B with ⟨a, rfl, rfl, hjoin⟩ | ⟨hsh, hjoin⟩ | ⟨hne, hsh, hjoin⟩
  · -- both sides are the same leaf: the node goes away
    cases h0
    cases h1
    have hs : same = true := hsame_iff.mpr (Or.inl ⟨a, rfl, rfl⟩)
    obtain ⟨t', ht', hown', hag'⟩ := freeEntry_spec (hown.congr (show _ = {i.val} + F by abel))
    refine ⟨some (.leaf a), t', 0, ?_, ?_, hown'.congr (zero_add _).symm, hag', by simp⟩
    · have hfree : freeNode t.fuel t (.leaf a) = .ok t := by cases t.fuel <;> rfl
      simp only [hs, hfree, ok_bind, ht']
      rfl
    · rw [hjoin]
      exact .leaf a
  · -- both sides look the same: one of them is kept below an `Ignore`
    have hs : same = true := hsame_iff.mpr (Or.inr hsh)
    have hleaf := not_isLeaf_of_shallowEq hsh
    obtain ⟨t1, t2, ht1, ht2, hown2, hget2, hag2⟩ := set_freeNode_spec (G := f0 + F) h1
      (hown.congr (by abel)) (.ignore x0)
    refine ⟨none, t2, {i.val} + f0, ?_, ?_, hown2.congr (by abel), hag2.right, by simp⟩
    · cases x0 with
      | leaf a =>
        rw [h0.eq_leaf_iff.mp rfl] at hleaf
        simp [isLeaf] at hleaf
      | index j =>
        simp only [hs, ht1, ok_bind, ht2]
        rfl
    · rw [hjoin]
      exact .ignore hget2 (h0.frame hag2.left)
  · have hs : same = false := by
      rw [← Bool.not_eq_true, hsame_iff]
      rintro (⟨a, hA, hB⟩ | h)
      · exact hne a hA hB
      · rw [hsh] at h
        cases h
    refine ⟨none, t, {i.val} + (f0 + f1), ?_, ?_, hown.congr (by abel), .refl F t, by simp⟩
    · simp only [hs]
      rfl
    · rw [hjoin]
      exact .branch hget h0 h1

/-- `optimize` at an `Ignore`, from what it did below. -/
lemma stepOver_spec {path : InstructionFilter} {fuel k : ℕ} {i : U40}
    (hget : t.entries[i.val]? = some (.ignore next)) {C : BitTree Leaf}
    (h : CollapsedTo C ({i.val} + F) t next (optimize path fuel t next (k + 1))) :
    CollapsedTo (stepOver C) F t (.index i) (optimize path (fuel + 1) t (.index i) k) := by
  obtain ⟨o, t1, f', ho, hrep1, hown1, hag1, hleaf⟩ := h
  cases o with
  | some x =>
    obtain ⟨a, rfl⟩ := hleaf x rfl
    have hcol := hrep1.eq_leaf_iff.mp rfl
    cases hrep1
    obtain ⟨t2, ht2, hown2, hag2⟩ := freeEntry_spec (hown1.congr (zero_add _))
    refine ⟨some (.leaf a), t2, 0, ?_, ?_, hown2.congr (zero_add _).symm, hag1.right.trans hag2,
      by simp⟩
    · simp only [optimize, get_eq hget, ok_bind, ho, ht2]
      rfl
    · rw [hcol]
      exact .leaf a
  | none =>
    cases next with
    | leaf a => cases fuel <;> simp [optimize] at ho
    | index j =>
      rw [stepOver_of_not_isLeaf hrep1.index_not_isLeaf]
      have hget1 : t1.entries[i.val]? = some (.ignore (.index j)) := by
        rw [hag1 i.val (by simp), hget]
      refine ⟨none, t1, {i.val} + f', ?_, ?_, hown1.congr (by abel), hag1.right, by simp⟩
      · simp only [optimize, get_eq hget, ok_bind, ho]
        rfl
      · exact .ignore hget1 hrep1

lemma lt_length_of_fits {k : ℕ} (h : Fits (c.drop k) T) (hT : T.isLeaf = false) : k < c.length := by
  by_contra hk
  rw [drop_eq_nil_of_le (by omega)] at h
  cases T with
  | leaf a => cases hT
  | branch T0 T1 => exact h
  | ignore T => exact h

/-- `optimize` collapses the stored tree along the filter. -/
theorem optimize_spec (path : InstructionFilter) :
    ∀ (T : BitTree Leaf) (fuel k : ℕ), T.height ≤ fuel → Fits (path.cube.drop k) T →
      Collapses (fun t idx => optimize path fuel t idx k) T
        (collapse (path.cube.drop k) T)
  | .leaf a, fuel, k, _, _, t, idx, fp, F, hrep, hown => by
      cases hrep
      have hc : collapse (path.cube.drop k) (.leaf a) = .leaf a := by
        cases path.cube.drop k <;> rfl
      rw [hc]
      exact ⟨some (.leaf a), t, 0, by cases fuel <;> rfl, .leaf a, hown, .refl F t, by simp⟩
  | .branch T0 T1, _, k, hfuel, hfits, t, idx, fp, F, hrep, hown => by
      obtain _ | ⟨hget, h0, h1⟩ := hrep
      rename_i i is0 is1 f0 f1
      obtain ⟨fuel, rfl, hle⟩ := exists_fuel_branch hfuel
      have hk := lt_length_of_fits hfits rfl
      have hkb : k < path.bits.length := by simpa using hk
      rw [drop_eq_getElem_cons hk] at hfits ⊢
      have hbit : path.cube[k] = path.bits[k].asBit := by simp [cube]
      rw [hbit] at hfits ⊢
      generalize hgen : path.bits[k] = bit at hfits ⊢
      have hadm0 : admits bit.asBit false = decide (bit ≠ .is1) := by cases bit <;> rfl
      have hadm1 : admits bit.asBit true = decide (bit ≠ .is0) := by cases bit <;> rfl
      rw [collapse, hadm0, hadm1]
      -- both children, each collapsed only if the filter bit admits it
      obtain ⟨o0, t1, f0', ho0, hrep0, hown1, hag1, -⟩ := optimizeChild_spec
        (decide (bit ≠ .is1))
        (fun hb => optimize_spec path T0 fuel (k + 1) hle.1 (hfits.1 (hadm0.trans hb)))
        h0 (F := f1 + ({i.val} + F)) (hown.congr (by abel))
      obtain ⟨o1, t2, f1', ho1, hrep1, hown2, hag2, -⟩ := optimizeChild_spec
        (decide (bit ≠ .is0))
        (fun hb => optimize_spec path T1 fuel (k + 1) hle.2 (hfits.2 (hadm1.trans hb)))
        (h1.frame hag1.left) (F := f0' + ({i.val} + F)) (hown1.congr (by abel))
      replace hrep0 := hrep0.frame hag2.left
      have hget2 : t2.entries[i.val]? = some (.branch is0 is1) := by
        rw [hag2 i.val (by simp), hag1 i.val (by simp), hget]
      obtain ⟨t3, ht3, hget3, hown3, hag3⟩ := writeBack_spec (G := f1' + (f0' + F)) o0 o1 hget2
        (hown2.congr (by abel))
      have hag : AgreeOn F t t3 := hag1.right.right.trans (hag2.right.right.trans hag3.right.right)
      obtain ⟨o, t4, fp, ho, hrep, hown4, hag4, hleaf⟩ := joinChildren_spec hget3
        (hrep0.frame hag3.right.left) (hrep1.frame hag3.left) hown3
      refine ⟨o, t4, fp, ?_, hrep, hown4, hag.trans hag4, hleaf⟩
      simp only [optimize, get_eq hget, nthBitFromLeft_eq hkb, hgen, ok_bind, ho0, ho1, ht3]
      exact ho
  | .ignore T, _, k, hfuel, hfits, t, idx, fp, F, hrep, hown => by
      obtain _ | _ | ⟨hget, h⟩ := hrep
      obtain ⟨fuel, rfl, hle⟩ := exists_fuel_ignore hfuel
      have hk := lt_length_of_fits hfits rfl
      rw [drop_eq_getElem_cons hk] at hfits ⊢
      refine stepOver_spec hget ?_
      exact optimize_spec path T fuel (k + 1) hle hfits h (hown.congr (by abel))

/-! ## The filter as a cube without trailing wildcards -/

lemma trimWildcards_spec (f : InstructionFilter) :
    ∀ len ≤ f.bits.length, ∃ r, trimWildcards f len = .ok r ∧ r ≤ len ∧ (0 < len → 0 < r) ∧
      f.bits.take len = f.bits.take r ++ List.replicate (len - r) .wildcard ∧
      (1 < r → f.bits[r - 1]? ≠ some .wildcard)
  | 0, _ => ⟨0, rfl, le_rfl, by simp, by simp, by simp⟩
  | 1, _ => ⟨1, rfl, le_rfl, by simp, by simp, by simp⟩
  | len + 2, hlen => by
      have hlt : len + 1 < f.bits.length := by omega
      by_cases hbit : f.bits[len + 1] = .wildcard
      · obtain ⟨r, hr, hle, hpos, hwild, hlast⟩ := trimWildcards_spec f (len + 1) (by omega)
        refine ⟨r, ?_, by omega, fun _ => hpos (by omega), ?_, hlast⟩
        · simp [trimWildcards, nthBitFromLeft_eq hlt, hbit, hr]
        · rw [take_succ_eq_append_getElem hlt, hwild, hbit, append_assoc, ← replicate_succ',
            ← Nat.sub_add_comm hle]
      · refine ⟨len + 2, ?_, le_rfl, by simp, by simp, fun _ => ?_⟩
        · simp [trimWildcards, nthBitFromLeft_eq hlt, hbit]
          rfl
        · rw [show len + 2 - 1 = len + 1 by omega, getElem?_eq_getElem hlt]
          simpa using hbit

/-- The filter as a cube, without its trailing wildcards. -/
def realCube (f : InstructionFilter) : Cube :=
  match realLen f with
  | .ok r => cubeFrom f 0 r
  | .error _ => []

/-- `real_len` cuts off wildcards only, and not the first bit. -/
lemma realLen_spec (f : InstructionFilter) :
    ∃ r, realLen f = .ok r ∧ realCube f = cubeFrom f 0 r ∧ r ≤ f.bits.length ∧
      (f.data ≠ [] → 0 < r) ∧ f.cube = realCube f ++ List.replicate (f.bitLen - r) none := by
  obtain ⟨r, hr, hle, hpos, hwild, -⟩ := trimWildcards_spec f f.bits.length le_rfl
  rw [length_bits] at hr hle hwild hpos
  have hreal : realLen f = .ok r := hr
  have hcube : realCube f = cubeFrom f 0 r := by rw [realCube, hreal]
  refine ⟨r, hreal, hcube, by simpa using hle, fun hne => hpos ?_, ?_⟩
  · have hlen := length_pos_iff.mpr hne
    rw [bitLen]
    omega
  · rw [take_of_length_le (length_bits f).le] at hwild
    have hbits := congrArg (map asBit) hwild
    rw [map_append, map_replicate] at hbits
    rw [hcube]
    exact hbits

variable {f : InstructionFilter}

lemma length_cubeFrom_zero {r : ℕ} (h : r ≤ f.bits.length) : (cubeFrom f 0 r).length = r := by
  rw [cubeFrom, drop_zero, length_map, length_take]
  omega

/-- No wildcard remains at the end, unless it is the only bit. -/
lemma realCube_getLast_ne_none (f : InstructionFilter) (h : 1 < (realCube f).length) :
    (realCube f)[(realCube f).length - 1]? ≠ some none := by
  obtain ⟨r, hr, hle, -, -, hlast⟩ := trimWildcards_spec f f.bits.length le_rfl
  have hcube : realCube f = cubeFrom f 0 r := by
    rw [realCube, realLen, ← length_bits, hr]
  have hlen : (realCube f).length = r := by rw [hcube, length_cubeFrom_zero hle]
  rw [hlen] at h ⊢
  rw [hcube, cubeFrom, drop_zero, getElem?_map, getElem?_take_of_lt (by omega)]
  intro hnone
  have hbit := hlast h
  rcases hget : f.bits[r - 1]? with _ | b
  · simp [hget] at hnone
  · rw [hget] at hnone hbit
    cases b <;> simp_all [asBit]

lemma realCube_ne_nil (h : f.data ≠ []) : realCube f ≠ [] := by
  obtain ⟨r, -, hcube, hle, hpos, -⟩ := realLen_spec f
  have hr := hpos h
  rw [hcube, ← length_pos_iff, length_cubeFrom_zero hle]
  exact hr

lemma length_realCube_le (f : InstructionFilter) : (realCube f).length ≤ f.bitLen := by
  obtain ⟨r, -, -, -, -, hcube⟩ := realLen_spec f
  have hlen := congrArg List.length hcube
  rw [length_cube, length_append] at hlen
  omega

/-- The shortened cube matches what the filter matches. -/
lemma realCube_matches_iff (f : InstructionFilter) (s : BitString) :
    Cube.Matches (realCube f) s ↔ f.MatchesString s := by
  obtain ⟨r, -, -, -, -, hcube⟩ := realLen_spec f
  rw [f.matchesString_iff_cube, hcube, Cube.matches_append_replicate_none]

/-! ## A whole insertion -/

/-- The arena holds exactly the nodes of the decision tree `T`, with the root at index 0. -/
def Valid (t : FilterTree) (T : BitTree Leaf) : Prop :=
  ∃ fp, Rep t.entries root T fp ∧ t.Owns fp

/-- An arena with a single `Ignore` over a leaf. -/
lemma valid_ignore_leaf (a : Leaf) :
    Valid { entries := [.ignore (.leaf a)], empty := [] } (.ignore (.leaf a)) :=
  ⟨{(0 : U40).val} + 0, .ignore rfl (.leaf a), by simp [Arena.Owns]⟩

lemma valid_new : Valid new (.ignore (.leaf .enumerate)) := valid_ignore_leaf .enumerate

/-- A filter without bytes is ignored. -/
lemma filter_of_data_eq_nil (h : f.data = []) : t.filter f = .ok t := by
  have hlen : f.bitLen = 0 := by simp [bitLen, h]
  simp only [filter, addInternal, realLen, hlen]
  rfl

/-- Inserting a filter paints and collapses its cube. -/
theorem filter_spec (hvalid : Valid t T) (hf : f.data ≠ []) :
    Ensures (t.filter f) OnlyU40 fun t' => Valid t' (BitTree.insert .skip (realCube f) T) := by
  obtain ⟨fp, hrep, hown⟩ := hvalid
  obtain ⟨r, hr, hcube, hle, hpos, hfull⟩ := realLen_spec f
  obtain ⟨rest, rfl⟩ : ∃ rest, r = rest + 1 := ⟨r - 1, by have := hpos hf; omega⟩
  have hadd := addLoop_spec f rest 0 (by omega) false hrep (hown.congr (add_zero _).symm)
  rw [← hcube] at hadd
  simp only [filter, addInternal, hr]
  refine hadd.bind ?_
  rintro ⟨m, t1⟩ ⟨fp1, hm, hrep1, hown1, -⟩
  simp only [Bool.false_or] at hm
  by_cases heq : BitTree.paint .skip (realCube f) T = T
  · rw [heq] at hrep1 hm
    simp only [hm, ne_eq, BitTree.insert, heq]
    exact ⟨fp1, hrep1, hown1.congr (add_zero _)⟩
  · have hfits : BitTree.Fits (f.cube.drop 0) (BitTree.paint .skip (realCube f) T) := by
      rw [hfull]
      exact BitTree.fits_append _ _ _ (BitTree.fits_paint _ _ _)
    obtain ⟨o, t2, fp2, ho, hrep2, hown2, -, hleaf⟩ := optimize_spec f _ t1.fuel 0
      (hrep1.height_le_fuel hown1) hfits hrep1 hown1
    rw [drop_zero, hfull, BitTree.collapse_append _ _ _ (BitTree.fits_paint _ _ _)] at hrep2
    simp only [hm, heq, ne_eq, BitTree.insert]
    refine Ensures.bind_ok ho ?_
    cases o with
    | none =>
      have hnl := Rep.index_not_isLeaf hrep2
      have hsettle : ∀ {U : BitTree Leaf}, U.isLeaf = false → U.settle = U := by
        intro U hU
        cases U <;> simp_all [BitTree.settle, BitTree.isLeaf]
      rw [hsettle hnl]
      exact ⟨fp2, hrep2, hown2.congr (add_zero _)⟩
    | some x =>
      obtain ⟨a, rfl⟩ := hleaf x rfl
      rw [hrep2.eq_leaf_iff.mp rfl]
      exact valid_ignore_leaf a

end LibLisa.FilterTree
