import LibLisa.Instr.TreeRun

/-!
# Which bit strings a filter tree skips

`Walks t idx s a` follows the stored nodes along the bit string `s` to a leaf. On a stored tree
this is `BitTree.walk` (`Rep.walks_iff`), so after a run of `filter` calls a string ends in `Skip`
if and only if one of the filters matches it, in whatever order they were inserted
(`filterAll_walks`).

A run can still stop: `U40::new` asserts that a node index has at most 40 bits. The filters
`x_i = y_i = a` for 41 pairs of bits describe a set that needs more nodes than that
(`filterAll_pairFilters`), because a tree for it must tell all values of the first 41 bits apart.
-/

namespace LibLisa.FilterTree

open Lib List BitString

variable {t : FilterTree} {T : BitTree Leaf} {fp : Multiset ℕ} {idx : NodeIndex} {s : BitString}

/-- Walking from `idx` along the bit string ends in the leaf `a`. -/
inductive Walks (t : FilterTree) : NodeIndex → BitString → Leaf → Prop
  | leaf (a : Leaf) (s : BitString) : Walks t (.leaf a) s a
  | branch {i is0 is1 s a : _} (hget : t.entries[i.val]? = some (.branch is0 is1))
      (h : Walks t (if s.bit 0 then is1 else is0) s.tail a) : Walks t (.index i) s a
  | ignore {i next s a : _}
      (hget : t.entries[i.val]? = some (.ignore next)) (h : Walks t next s.tail a) :
      Walks t (.index i) s a

/-- Walking over stored nodes is walking the decision tree. -/
theorem Rep.walks_iff (h : Rep t.entries idx T fp) {a : Leaf} : Walks t idx s a ↔ T.walk s = a := by
  induction h generalizing s with
  | leaf b =>
    constructor
    · intro hw
      cases hw
      rfl
    · rintro rfl
      exact .leaf b s
  | @branch i is0 is1 T0 T1 f0 f1 hget h0 h1 ih0 ih1 =>
    have hstep : Walks t (.index i) s a ↔ Walks t (if s.bit 0 then is1 else is0) s.tail a := by
      constructor
      · intro hw
        cases hw with
        | branch hget' hw =>
          rw [hget] at hget'
          cases hget'
          exact hw
        | ignore hget' hw =>
          rw [hget] at hget'
          cases hget'
      · exact .branch hget
    rw [hstep, BitTree.walk_branch]
    cases s.bit 0 with
    | false => exact ih0
    | true => exact ih1
  | @ignore i next T f hget h ih =>
    have hstep : Walks t (.index i) s a ↔ Walks t next s.tail a := by
      constructor
      · intro hw
        cases hw with
        | branch hget' hw =>
          rw [hget] at hget'
          cases hget'
        | ignore hget' hw =>
          rw [hget] at hget'
          cases hget'
          exact hw
      · exact .ignore hget
    rw [hstep]
    exact ih

lemma Valid.walks_iff (h : Valid t T) {a : Leaf} : Walks t root s a ↔ T.walk s = a := by
  obtain ⟨fp, hrep, -⟩ := h
  exact hrep.walks_iff

/-! ## Runs of `filter` -/

lemma leaf_eq_of_skip_iff {a b : Leaf} (h : a = .skip ↔ b = .skip) : a = b := by
  cases a <;> cases b <;> simp_all

/-- The decision tree of a run of `filter` calls skips what a filter matches. -/
lemma runTree_filter_walk {fs : Filters} (hfs : ∀ f ∈ fs, f.data ≠ []) (s : BitString) :
    (runTree (fs.map .filter)).walk s = .skip ↔ ∃ f ∈ fs, f.MatchesString s := by
  -- the last call is the outermost insertion
  induction fs using List.reverseRecOn with
  | nil => simp [runTree]
  | append_singleton fs f ih =>
    have hf := hfs f (by simp)
    rw [map_append, runTree, foldl_append]
    show (callTree (runTree (fs.map .filter)) (.filter f)).walk s = .skip ↔ _
    rw [callTree, if_neg hf, BitTree.walk_insert_eq_iff, realCube_matches_iff,
      ih fun g hg => hfs g (by simp [hg])]
    simp [or_and_right, exists_or, or_comm]

/-- After any sequence of `filter` calls on a new tree, each with a filter of at least one byte:
every string ends in `Skip` if and only if a filter matches it, whatever the order of the calls,
and a call can only fail because it needs a node index of more than 40 bits. -/
theorem filterAll_walks (fs : Filters) (hfs : ∀ f ∈ fs, f.data ≠ []) :
    Ensures (run (fs.map .filter)) (fun e => e = .u40Overflow) fun t =>
      (∀ s, Walks t root s .skip ↔ ∃ f ∈ fs, f.MatchesString s) ∧
      (∀ s, ∃! a, Walks t root s a) ∧
      ∀ fs' : Filters, fs'.Perm fs → ∀ t', run (fs'.map .filter) = .ok t' →
        ∀ s a, Walks t' root s a ↔ Walks t root s a := by
  refine (run_spec (fs.map .filter)).imp fun t hvalid => ⟨fun s => ?_, fun s => ?_,
    fun fs' hperm t' ht' s a => ?_⟩
  · rw [hvalid.walks_iff]
    exact runTree_filter_walk hfs s
  · simp only [hvalid.walks_iff]
    exact ⟨_, rfl, fun b hb => hb.symm⟩
  · have hvalid' := (run_spec (fs'.map .filter)).of_ok ht'
    have hsame : (runTree (fs'.map .filter)).walk s = (runTree (fs.map .filter)).walk s := by
      apply leaf_eq_of_skip_iff
      rw [runTree_filter_walk hfs, runTree_filter_walk fun f hf => hfs f (hperm.mem_iff.mp hf)]
      simp only [hperm.mem_iff]
    rw [hvalid.walks_iff, hvalid'.walks_iff, hsame]

/-- The filter `0_______`. -/
def halfFilter : InstructionFilter := ⟨[⟨0x80, 0x00, rfl⟩], by decide⟩

/-- The filter `01______`. -/
def quarterFilter : InstructionFilter := ⟨[⟨0xc0, 0x40, rfl⟩], by decide⟩

/-- The filter `_______0`. -/
def evenFilter : InstructionFilter := ⟨[⟨0x01, 0x00, rfl⟩], by decide⟩

/-- Overlapping filters in both orders: the arenas differ, the walks do not. -/
theorem filterAll_walks_quarterFilter_evenFilter : ∃ t t',
    run ([quarterFilter, evenFilter].map .filter) = .ok t ∧
    run ([evenFilter, quarterFilter].map .filter) = .ok t' ∧ t ≠ t' ∧
    (∀ s, Walks t root s .skip ↔ ∃ f ∈ [quarterFilter, evenFilter], f.MatchesString s) ∧
    (∀ s, ∃! a, Walks t root s a) ∧ ∀ s a, Walks t' root s a ↔ Walks t root s a := by
  obtain ⟨⟨t, t'⟩, hruns, hne⟩ := exists_ok_of_any (p := fun r => r.1 ≠ r.2)
    (x := do
      let t ← run ([quarterFilter, evenFilter].map .filter)
      let t' ← run ([evenFilter, quarterFilter].map .filter)
      return (t, t')) (by decide +kernel)
  obtain ⟨_, _, ht, ht', hruns⟩ := ok_of_bind₂ hruns
  obtain ⟨rfl, rfl⟩ := ok_pair_inj hruns
  obtain ⟨hskip, hunique, horder⟩ :=
    (filterAll_walks [quarterFilter, evenFilter] (by decide)).of_ok ht
  exact ⟨_, _, ht, ht', hne, hskip, hunique, horder _ (.swap _ _ _) _ ht'⟩

/-! ## A set that needs too many nodes -/

/-- A byte filter given bit by bit. -/
def byteFilterOf (g : ℕ → Option Bool) : ByteFilter where
  mask := byteAt ⟨fun k => (g k).isSome⟩ 0
  value := byteAt ⟨fun k => g k == some true⟩ 0
  value_and_not_mask := by
    apply BitVec.eq_of_getMsbD_eq
    intro k hk
    rw [BitVec.getMsbD_and, BitVec.getMsbD_not, getMsbD_byteAt _ _ hk, getMsbD_byteAt _ _ hk]
    simp only [Nat.mul_zero, Nat.zero_add]
    cases hg : g k <;> simp

lemma asBit_bitAt_byteFilterOf (g : ℕ → Option Bool) {k : ℕ} (hk : k < 8) :
    ((byteFilterOf g).bitAt k).asBit = g k := by
  have hmask : (byteFilterOf g).mask.getMsbD k = (g k).isSome := by
    refine (getMsbD_byteAt ⟨fun k => (g k).isSome⟩ 0 hk).trans ?_
    simp only [Nat.mul_zero, Nat.zero_add]
  have hvalue : (byteFilterOf g).value.getMsbD k = (g k == some true) := by
    refine (getMsbD_byteAt ⟨fun k => g k == some true⟩ 0 hk).trans ?_
    simp only [Nat.mul_zero, Nat.zero_add]
  rw [ByteFilter.bitAt_eq _ hk, hmask, hvalue]
  rcases g k with _ | _ | _ <;> rfl

/-- The 11-byte filter that asks for the bit `a` at positions `i` and `41 + i`. -/
def pairFilter (i : ℕ) (a : Bool) : InstructionFilter :=
  ⟨(List.range 11).map fun p => byteFilterOf fun k =>
    if 8 * p + k = i ∨ 8 * p + k = 41 + i then some a else none, by simp⟩

/-- The filters `x_i = y_i = a` for 41 pairs of bits. -/
def pairFilters : Filters :=
  (List.range 41).flatMap fun i => [pairFilter i false, pairFilter i true]

lemma pairFilter_matches_iff {i : ℕ} (hi : i < 41) (a : Bool) (s : BitString) :
    (pairFilter i a).MatchesString s ↔ s.bit i = a ∧ s.bit (41 + i) = a := by
  have hbyte : ∀ p, ∀ h : p < (pairFilter i a).data.length,
      ((pairFilter i a).data[p].matches (s.byteAt p) = true ↔
        ∀ k < 8, (8 * p + k = i ∨ 8 * p + k = 41 + i) → s.bit (8 * p + k) = a) := by
    intro p h
    rw [ByteFilter.matches_iff_admits]
    refine forall₂_congr fun k hk => ?_
    rw [getMsbD_byteAt _ _ hk]
    simp only [pairFilter, getElem_map, getElem_range, asBit_bitAt_byteFilterOf _ hk]
    by_cases hpos : 8 * p + k = i ∨ 8 * p + k = 41 + i
    · rw [if_pos hpos, admits_some, beq_iff_eq, eq_comm]
      exact ⟨fun h _ => h, fun h => h hpos⟩
    · simp [hpos]
  have hlen : (pairFilter i a).data.length = 11 := by simp [pairFilter]
  constructor
  · intro h
    have hget : ∀ j, j < 88 → (j = i ∨ j = 41 + i) → s.bit j = a := by
      intro j hj hpos
      have hp : j / 8 < (pairFilter i a).data.length := by omega
      have hbit := (hbyte (j / 8) hp).mp (h (j / 8) hp) (j % 8) (Nat.mod_lt _ (by omega))
      rw [Nat.div_add_mod] at hbit
      exact hbit hpos
    exact ⟨hget i (by omega) (Or.inl rfl), hget (41 + i) (by omega) (Or.inr rfl)⟩
  · rintro ⟨h0, h1⟩ p hp
    rw [hbyte p hp]
    rintro k - (hpos | hpos)
    · rw [hpos, h0]
    · rw [hpos, h1]

lemma Rep.lt_two_pow {entries : List Node} (h : Rep entries idx T fp) : ∀ j ∈ fp, j < 2 ^ 40 := by
  induction h with
  | leaf a => simp
  | @branch i _ _ _ _ _ _ _ _ _ ih0 ih1 =>
    intro j hj
    simp only [Multiset.mem_add, Multiset.mem_singleton] at hj
    rcases hj with rfl | hj | hj
    · exact i.isLt
    · exact ih0 j hj
    · exact ih1 j hj
  | @ignore i _ _ _ _ _ ih =>
    intro j hj
    simp only [Multiset.mem_add, Multiset.mem_singleton] at hj
    rcases hj with rfl | hj
    · exact i.isLt
    · exact ih j hj

/-- A stored tree has at most `2 ^ 40` inner nodes. -/
lemma Valid.numNodes_le (h : Valid t T) : T.numNodes ≤ 2 ^ 40 := by
  obtain ⟨fp, hrep, hown⟩ := h
  rw [← hrep.card, ← Multiset.card_range (2 ^ 40)]
  refine Multiset.card_le_card ((Multiset.le_iff_subset hown.nodup).mpr fun j hj => ?_)
  exact Multiset.mem_range.mpr (hrep.lt_two_pow j hj)

/-- After 41 bits `u` only the complement of `u` is not skipped. -/
lemma exists_pairFilters_matches_iff {u v : List Bool} (hu : u.length = 41) (hv : v.length = 41) :
    (∃ f ∈ pairFilters, f.MatchesString (.append u (.pad v))) ↔ ∃ i, ∃ h : i < 41, u[i] = v[i] := by
  have hbits : ∀ i, ∀ h : i < 41, (append u (.pad v)).bit i = u[i] ∧
      (append u (.pad v)).bit (41 + i) = v[i] := by
    intro i h
    refine ⟨append_bit_lt (by omega), ?_⟩
    have hadd := append_bit_add u (.pad v) i
    rw [hu] at hadd
    rw [hadd, pad_apply, getD_eq_getElem?_getD, getElem?_eq_getElem (by omega)]
    rfl
  simp only [pairFilters, mem_flatMap, mem_range, mem_cons, not_mem_nil, or_false]
  constructor
  · rintro ⟨f, ⟨i, hi, rfl | rfl⟩, hf⟩ <;>
    · rw [pairFilter_matches_iff hi, (hbits i hi).1, (hbits i hi).2] at hf
      exact ⟨i, hi, hf.1.trans hf.2.symm⟩
  · rintro ⟨i, hi, heq⟩
    cases hb : u[i] with
    | false =>
      refine ⟨_, ⟨i, hi, Or.inl rfl⟩, ?_⟩
      rw [pairFilter_matches_iff hi, (hbits i hi).1, (hbits i hi).2, ← heq, hb]
      exact ⟨rfl, rfl⟩
    | true =>
      refine ⟨_, ⟨i, hi, Or.inr rfl⟩, ?_⟩
      rw [pairFilter_matches_iff hi, (hbits i hi).1, (hbits i hi).2, ← heq, hb]
      exact ⟨rfl, rfl⟩

lemma pairFilters_data_ne_nil : ∀ f ∈ pairFilters, f.data ≠ [] := by
  intro f hf
  simp only [pairFilters, mem_flatMap, mem_cons, not_mem_nil, or_false] at hf
  obtain ⟨i, -, rfl | rfl⟩ := hf <;> simp [pairFilter]

lemma pairFilters_numNodes : 2 ^ 41 ≤ (runTree (pairFilters.map .filter)).numNodes + 1 := by
  refine BitTree.two_pow_le_numNodes 41 _ fun u v hu hv huv => ?_
  -- the complement of `u` follows: nothing matches after `u`, something does after `v`
  refine ⟨.pad (u.map not), fun heq => huv ?_⟩
  have hcompl : (u.map not).length = 41 := by simpa using hu
  have huskip := runTree_filter_walk pairFilters_data_ne_nil (.append u (.pad (u.map not)))
  have hvskip := runTree_filter_walk pairFilters_data_ne_nil (.append v (.pad (u.map not)))
  rw [exists_pairFilters_matches_iff hu hcompl] at huskip
  rw [exists_pairFilters_matches_iff hv hcompl, ← heq, huskip] at hvskip
  have hnone : ¬ ∃ i, ∃ h : i < 41, u[i] = (u.map not)[i] := by
    rintro ⟨i, h, hi⟩
    cases hb : u[i] <;> simp [hb] at hi
  rw [iff_false_left hnone] at hvskip
  refine ext_getElem (hu.trans hv.symm) fun i hi hi' => ?_
  by_contra hne
  refine hvskip ⟨i, by omega, ?_⟩
  cases hb : u[i] <;> cases hb' : v[i] <;> simp_all

/-- Inserting these 82 filters of 11 bytes runs into the index assertion. -/
theorem filterAll_pairFilters : run (pairFilters.map .filter) = .error .u40Overflow := by
  have hmany := pairFilters_numNodes
  generalize pairFilters.map Call.filter = calls at hmany
  have hspec := run_spec calls
  cases hrun : run calls with
  | error e => rw [hspec.of_error hrun]
  | ok t =>
    -- the tree would be too large for the index type
    have hfew := (hspec.of_ok hrun).numNodes_le
    omega

end LibLisa.FilterTree
