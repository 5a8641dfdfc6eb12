import LibLisa.Instr.FindNext

/-!
# What one call does to the covered strings

A string is covered if its walk ends in `Skip`. On a tree that any run has built:

* `filter_below` covers exactly the strings below the zero-padded instruction in addition, and
  `filter_above` exactly the strings above everything that starts with it
  (`filterBelow_filterAbove_exact`);
* `prune` forgets covered strings but none that starts with its instruction, and it releases a node
  whenever it changes the tree (`prune_only_forgets`).
-/

namespace LibLisa.FilterTree

open Lib BitTree BitString Instruction

variable {t t' : FilterTree} {T : BitTree Leaf} {fp : Multiset ℕ}

/-! ## Half-lines -/

/-- The strings that flip a zero of `B` are those above everything that starts with `B`. -/
lemma flipsBit_false_iff_above {B : List Bool} {s : BitString} :
    FlipsBit false B s ↔ ∀ u, StartsWith B u → u < s := by
  induction B generalizing s with
  | nil =>
    refine iff_of_false (not_flipsBit_nil false s) fun h => ?_
    exact lt_irrefl s (h s trivial)
  | cons b B ih =>
    rw [flipsBit_cons, ih]
    constructor
    · rintro (⟨rfl, hs⟩ | ⟨hs, h⟩) u ⟨hu, htail⟩
      · apply lt_iff_head_tail.mpr
        left
        rw [hu, hs]
        exact Bool.false_lt_true
      · apply lt_iff_head_tail.mpr
        right
        exact ⟨hu.trans hs.symm, h u.tail htail⟩
    · intro h
      by_cases hs : s.bit 0 = b
      · right
        refine ⟨hs, fun u hu => ?_⟩
        have hlt := h (.cons b u) ⟨rfl, hu⟩
        rw [← s.cons_head_tail, hs] at hlt
        exact (cons_lt_cons b u s.tail).mp hlt
      · -- the first bits differ, so `B` starts with a zero and `s` with a one
        left
        have hlt := h (.cons b (.pad B)) ⟨rfl, startsWith_pad B⟩
        rw [lt_iff_head_tail] at hlt
        rcases hlt with hlt | ⟨heq, -⟩
        · rw [Bool.lt_iff] at hlt
          exact hlt
        · exact absurd heq.symm hs

/-- On any tree that a sequence of calls has built, `filter_below` adds the strings below the
zero-padded instruction to the covered ones, and `filter_above` those above every string that
starts with the instruction. A call can only fail because it needs a node index of more than 40
bits. -/
theorem filterBelow_filterAbove_exact (calls : List Call) (t : FilterTree)
    (hrun : run calls = .ok t) (instr : Instruction) :
    (Ensures (t.filterBelow instr) (fun e => e = .u40Overflow) fun t' =>
      ∀ s, Walks t' root s .skip ↔ Walks t root s .skip ∨ s < instr.pad) ∧
    Ensures (t.filterAbove instr) (fun e => e = .u40Overflow) fun t' =>
      ∀ s, Walks t' root s .skip ↔
        Walks t root s .skip ∨ ∀ u, BitString.StartsWith instr.bits u → u < s := by
  have hvalid := (run_spec calls).of_ok hrun
  constructor
  · refine (filterBelow_spec hvalid instr).imp fun t' hvalid' s => ?_
    rw [hvalid'.walks_iff, hvalid.walks_iff, BitTree.walk_insertAll_eq_iff,
      exists_edgeCubes_matches_iff, flipsBit_true_iff]
    exact or_comm
  · refine (filterAbove_spec hvalid instr).imp fun t' hvalid' s => ?_
    rw [hvalid'.walks_iff, hvalid.walks_iff, BitTree.walk_insertAll_eq_iff,
      exists_edgeCubes_matches_iff, flipsBit_false_iff_above]
    exact or_comm

/-- Filtering below and above `90` in a tree that has a filter already. -/
theorem filterBelow_filterAbove_exact_halfTree :
    run [.filter halfFilter] = .ok halfTree ∧
    (Ensures (halfTree.filterBelow ⟨[0x90], by decide⟩) (fun e => e = .u40Overflow) fun t' =>
      ∀ s, Walks t' root s .skip ↔
        Walks halfTree root s .skip ∨ s < pad ⟨[0x90], by decide⟩) ∧
    Ensures (halfTree.filterAbove ⟨[0x90], by decide⟩) (fun e => e = .u40Overflow) fun t' =>
      ∀ s, Walks t' root s .skip ↔ Walks halfTree root s .skip ∨
        ∀ u, BitString.StartsWith (bits ⟨[0x90], by decide⟩) u → u < s :=
  ⟨rfl, filterBelow_filterAbove_exact [.filter halfFilter] halfTree rfl ⟨[0x90], by decide⟩⟩

/-! ## Pruning -/

/-- A call of `prune` that changes the arena cuts off an inner node. -/
lemma pruneLoop_eq_or_lt : ∀ (bits : List Bool) (T : BitTree Leaf) {idx : NodeIndex}
    {fp : Multiset ℕ}, Rep t.entries idx T fp → pruneLoop t idx bits = .ok t' →
    t' = t ∨ (T.prune .enumerate bits).numNodes < T.numNodes
  | [], T, idx, fp, _, h => by
      left
      rcases idx with a | i <;> exact (Except.ok.inj h).symm
  | _ :: _, .leaf a, idx, fp, hrep, h => by
      left
      obtain ⟨⟩ := hrep
      exact (Except.ok.inj h).symm
  | false :: bits, .branch T0 T1, idx, fp, hrep, h => by
      obtain _ | ⟨hget, h0, h1⟩ := hrep
      rename_i i is0 is1 f0 f1
      rw [pruneLoop, get_eq hget, ok_bind] at h
      rcases is1 with a | k
      · have hleaf : T1.isLeaf = true := by
          rw [h1.eq_leaf_iff.mp rfl]
          rfl
        rw [BitTree.prune, if_pos hleaf]
        rcases pruneLoop_eq_or_lt bits T0 h0 h with heq | hlt
        · exact Or.inl heq
        · right
          simp only [numNodes]
          omega
      · right
        have hinner := h1.index_not_isLeaf
        have hpos := numNodes_pos hinner
        rw [BitTree.prune, if_neg (by rw [hinner]; exact Bool.false_ne_true)]
        simp only [numNodes]
        omega
  | true :: bits, .branch T0 T1, idx, fp, hrep, h => by
      obtain _ | ⟨hget, h0, h1⟩ := hrep
      rename_i i is0 is1 f0 f1
      rw [pruneLoop, get_eq hget] at h
      rcases is0 with a | k
      · have hleaf : T0.isLeaf = true := by
          rw [h0.eq_leaf_iff.mp rfl]
          rfl
        rw [BitTree.prune, if_pos hleaf]
        rcases pruneLoop_eq_or_lt bits T1 h1 h with heq | hlt
        · exact Or.inl heq
        · right
          simp only [numNodes]
          omega
      · right
        have hinner := h0.index_not_isLeaf
        have hpos := numNodes_pos hinner
        rw [BitTree.prune, if_neg (by rw [hinner]; exact Bool.false_ne_true)]
        simp only [numNodes]
        omega
  | b :: bits, .ignore T, idx, fp, hrep, h => by
      obtain _ | _ | ⟨hget, hnext⟩ := hrep
      rw [pruneLoop, get_eq hget] at h
      rcases pruneLoop_eq_or_lt bits T hnext h with heq | hlt
      · exact Or.inl heq
      · exact Or.inr (Nat.succ_lt_succ hlt)

/-- The tree of the filter `01______`. -/
def quarterTree : FilterTree :=
  { entries :=
      [.branch (.index ⟨1, Nat.one_lt_two_pow (by decide)⟩) .enumerate, .branch .enumerate .skip]
    empty := [] }

/-- On any tree that a sequence of calls has built, `prune` returns; every string that is covered
then was covered before, the strings that start with the instruction are covered as before, and
unless the tree is unchanged it has fewer nodes. -/
theorem prune_only_forgets (calls : List Call) (t : FilterTree) (hrun : run calls = .ok t)
    (instr : Instruction) :
    ∃ t', t.prune instr = .ok t' ∧
      (∀ s, Walks t' root s .skip → Walks t root s .skip) ∧
      (∀ s, BitString.StartsWith instr.bits s →
        (Walks t' root s .skip ↔ Walks t root s .skip)) ∧ (t' = t ∨ t'.len < t.len) := by
  have hvalid := (run_spec calls).of_ok hrun
  obtain ⟨t', ht', hvalid'⟩ := prune_spec hvalid instr
  refine ⟨t', ht', fun s hs => ?_, fun s hs => ?_, ?_⟩
  · rw [hvalid'.walks_iff] at hs
    rw [hvalid.walks_iff]
    rcases BitTree.walk_prune Leaf.enumerate instr.bits (runTree calls) s with hsame | hforgot
    · exact hsame.symm.trans hs
    · nomatch hforgot.symm.trans hs
  · rw [hvalid'.walks_iff, hvalid.walks_iff, BitTree.walk_prune_of_startsWith _ _ _ _ hs]
  · obtain ⟨fp, hrep, -⟩ := id hvalid
    rw [hvalid'.len_eq_numNodes, hvalid.len_eq_numNodes]
    exact pruneLoop_eq_or_lt instr.bits (runTree calls) hrep ht'

/-- The node for `0_______` is beside the path of `80` and is cut off. -/
theorem prune_only_forgets_quarterTree :
    run [.filter quarterFilter] = .ok quarterTree ∧
    ∃ t', quarterTree.prune ⟨[0x80], by decide⟩ = .ok t' ∧
      (∀ s, Walks t' root s .skip → Walks quarterTree root s .skip) ∧
      (∀ s, BitString.StartsWith (bits ⟨[0x80], by decide⟩) s →
        (Walks t' root s .skip ↔ Walks quarterTree root s .skip)) ∧ t'.len < quarterTree.len := by
  obtain ⟨t', ht', hskip, hstart, hlen⟩ :=
    prune_only_forgets [.filter quarterFilter] quarterTree rfl ⟨[0x80], by decide⟩
  refine ⟨rfl, t', ht', hskip, hstart, hlen.resolve_left ?_⟩
  rintro rfl
  exact absurd ht' (by decide)

end LibLisa.FilterTree
