import LibLisa.Instr.TreeBounds
import Mathlib.Data.Set.Card

/-!
# Sequences of calls on a filter tree

Each public call on a stored tree is an operation on decision trees (`callTree`): inserting cubes,
or pruning. `call_spec` and `run_spec` say that the arena follows it, and that the only panic is
the index assertion of `U40::new`.

From this comes `run_storage`: after any run the arena is well formed (`StorageInvariant`). The
argument is on multisets: the root and the children of all stored nodes are together the positions
in use, each once.
-/

namespace LibLisa.FilterTree

open Lib Multiset BitTree

variable {t : FilterTree} {T : BitTree Leaf} {F fp : Multiset ℕ} {entries : List Node}
  {idx : NodeIndex}

/-! ## Pruning -/

/-- `prune` follows the instruction and releases the first stored node off its path. -/
lemma pruneLoop_spec : ∀ (bits : List Bool) (T : BitTree Leaf) {idx : NodeIndex}
    {fp F : Multiset ℕ}, Rep t.entries idx T fp → t.Owns (fp + F) →
    ∃ t' fp', pruneLoop t idx bits = .ok t' ∧ Rep t'.entries idx (T.prune .enumerate bits) fp' ∧
      t'.Owns (fp' + F) ∧ AgreeOn F t t'
  | [], T, idx, fp, F, hrep, hown =>
      ⟨t, fp, by cases idx <;> rfl, by cases T <;> exact hrep, hown, .refl F t⟩
  | _ :: _, .leaf a, idx, fp, F, hrep, hown => by
      cases hrep
      exact ⟨t, 0, rfl, .leaf a, hown, .refl F t⟩
  | false :: bits, .branch T0 T1, idx, fp, F, hrep, hown => by
      obtain _ | ⟨hget, h0, h1⟩ := hrep
      rename_i i is0 is1 f0 f1
      cases is1 with
      | leaf a =>
        have hT1 := h1.eq_leaf_iff.mp rfl
        subst hT1
        obtain ⟨t', f0', ht', h0', hown', hag'⟩ := pruneLoop_spec bits T0 h0 (F := {i.val} + (f1 + F))
          (hown.congr (by abel))
        refine ⟨t', {i.val} + (f0' + f1), ?_, ?_, hown'.congr (by abel), hag'.right.right⟩
        · rw [pruneLoop, get_eq hget, ok_bind]
          exact ht'
        · have hget' : t'.entries[i.val]? = some (.branch is0 (.leaf a)) := by
            rw [hag' i.val (by simp), hget]
          exact .branch hget' h0' (h1.frame hag'.right.left)
      | index k =>
        obtain ⟨t1, t2, ht1, ht2, hown2, hget2, hag2⟩ := set_freeNode_spec
          (G := f0 + F) h1 (hown.congr (by abel)) (.branch is0 .enumerate)
        refine ⟨t2, {i.val} + (f0 + 0), ?_, ?_, hown2.congr (by abel), hag2.right⟩
        · rw [pruneLoop, get_eq hget]
          simp only [if_true, ht1, ok_bind, ht2]
        · simp only [BitTree.prune, h1.index_not_isLeaf]
          exact .branch hget2 (h0.frame hag2.left) (.leaf _)
  | true :: bits, .branch T0 T1, idx, fp, F, hrep, hown => by
      obtain _ | ⟨hget, h0, h1⟩ := hrep
      rename_i i is0 is1 f0 f1
      cases is0 with
      | leaf a =>
        have hT0 := h0.eq_leaf_iff.mp rfl
        subst hT0
        obtain ⟨t', f1', ht', h1', hown', hag'⟩ := pruneLoop_spec bits T1 h1 (F := {i.val} + (f0 + F))
          (hown.congr (by abel))
        refine ⟨t', {i.val} + (f0 + f1'), ?_, ?_, hown'.congr (by abel), hag'.right.right⟩
        · rw [pruneLoop, get_eq hget]
          exact ht'
        · have hget' : t'.entries[i.val]? = some (.branch (.leaf a) is1) := by
            rw [hag' i.val (by simp), hget]
          exact .branch hget' (h0.frame hag'.right.left) h1'
      | index k =>
        obtain ⟨t1, t2, ht1, ht2, hown2, hget2, hag2⟩ := set_freeNode_spec
          (G := f1 + F) h0 (hown.congr (by abel)) (.branch .enumerate is1)
        refine ⟨t2, {i.val} + (0 + f1), ?_, ?_, hown2.congr (by abel), hag2.right⟩
        · rw [pruneLoop, get_eq hget]
          simp only [Bool.true_eq_false, if_false, ht1, ok_bind, ht2]
        · simp only [BitTree.prune, h0.index_not_isLeaf]
          exact .branch hget2 (.leaf _) (h1.frame hag2.left)
  | b :: bits, .ignore T, idx, fp, F, hrep, hown => by
      obtain _ | _ | ⟨hget, h⟩ := hrep
      rename_i i next f
      obtain ⟨t', f', ht', h', hown', hag'⟩ := pruneLoop_spec bits T h (F := {i.val} + F)
        (hown.congr (by abel))
      refine ⟨t', {i.val} + f', ?_, ?_, hown'.congr (by abel), hag'.right⟩
      · rw [pruneLoop, get_eq hget]
        exact ht'
      · rw [prune_ignore]
        refine .ignore ?_ h'
        rw [hag' i.val (by simp), hget]

lemma prune_spec (hvalid : Valid t T) (instr : Instruction) :
    ∃ t', t.prune instr = .ok t' ∧ Valid t' (T.prune .enumerate instr.bits) := by
  obtain ⟨fp, hrep, hown⟩ := hvalid
  obtain ⟨t', fp', ht', hrep', hown', -⟩ := pruneLoop_spec instr.bits T hrep
    (hown.congr (add_zero _).symm)
  exact ⟨t', ht', fp', hrep', hown'.congr (add_zero _)⟩

/-- `len` counts the inner nodes of the stored tree. -/
lemma Valid.len_eq_numNodes (h : Valid t T) : t.len = T.numNodes := by
  obtain ⟨fp, hrep, hown⟩ := h
  have hcard := hown.card_add
  rw [hrep.card] at hcard
  unfold len
  omega

/-! ## Storing a decision tree -/

/-- The index of a tree that is stored from position `n` on. -/
def rootIndex (n : ℕ) : BitTree Leaf → NodeIndex
  | .leaf a => .leaf a
  | _ => .index ⟨n % 2 ^ 40, Nat.mod_lt _ (by decide)⟩

/-- The nodes of a tree from position `n` on, each before its children. -/
def store (n : ℕ) : BitTree Leaf → List Node
  | .leaf _ => []
  | .branch zero one =>
    .branch (rootIndex (n + 1) zero) (rootIndex (n + 1 + zero.numNodes) one) ::
      (store (n + 1) zero ++ store (n + 1 + zero.numNodes) one)
  | .ignore next => .ignore (rootIndex (n + 1) next) :: store (n + 1) next

lemma length_store (T : BitTree Leaf) (n : ℕ) : (store n T).length = T.numNodes := by
  induction T generalizing n with
  | leaf a => rfl
  | branch zero one ih0 ih1 => simp [store, ih0, ih1, numNodes]
  | ignore next ih => simp [store, ih, numNodes]

lemma rep_store (T : BitTree Leaf) : ∀ n, n + T.numNodes ≤ 2 ^ 40 →
    (∀ k < T.numNodes, entries[n + k]? = (store n T)[k]?) →
    Rep entries (rootIndex n T) T (List.range' n T.numNodes) := by
  induction T with
  | leaf a => exact fun n _ _ => .leaf a
  | branch zero one ih0 ih1 =>
    intro n hle hget
    simp only [numNodes] at hle hget
    have hval : (Fin.ofNat (2 ^ 40) n).val = n := Nat.mod_eq_of_lt (by omega)
    have h0 := ih0 (n + 1) (by omega) fun k hk => by
      rw [Nat.add_right_comm, Nat.add_assoc, hget (k + 1) (by omega), store,
        List.getElem?_cons_succ, List.getElem?_append_left (by rwa [length_store])]
    have h1 := ih1 (n + 1 + zero.numNodes) (by omega) fun k hk => by
      rw [show n + 1 + zero.numNodes + k = n + (zero.numNodes + k + 1) by omega,
        hget _ (by omega), store, List.getElem?_cons_succ,
        List.getElem?_append_right (by rw [length_store]; omega), length_store,
        Nat.add_sub_cancel_left]
    have hrep := Rep.branch (by rw [hval]; exact hget 0 (by omega)) h0 h1
    rw [hval, coe_add, List.range'_append_1, singleton_add, cons_coe, ← List.range'_succ] at hrep
    exact hrep
  | ignore next ih =>
    intro n hle hget
    simp only [numNodes] at hle hget
    have hval : (Fin.ofNat (2 ^ 40) n).val = n := Nat.mod_eq_of_lt (by omega)
    have hnext := ih (n + 1) (by omega) fun k hk => by
      rw [Nat.add_right_comm, Nat.add_assoc, hget (k + 1) (by omega), store,
        List.getElem?_cons_succ]
    have hrep := Rep.ignore (by rw [hval]; exact hget 0 (by omega)) hnext
    rw [hval] at hrep
    exact hrep

/-- Every tree that starts with `Ignore` and has an index for each node is stored by some arena. -/
lemma valid_store (T : BitTree Leaf) (hle : (ignore T).numNodes ≤ 2 ^ 40) :
    Valid ⟨store 0 (.ignore T), []⟩ (.ignore T) := by
  refine ⟨_, rep_store (.ignore T) 0 (by omega) fun k _ => by rw [Nat.zero_add], ?_⟩
  rw [Arena.Owns, length_store, ← List.range_eq_range']
  exact add_zero _

/-! ## Runs follow the decision tree -/

/-- What a call does to the decision tree. -/
def callTree (T : BitTree Leaf) : Call → BitTree Leaf
  | .filter f => if f.data = [] then T else BitTree.insert .skip (realCube f) T
  | .prune instr => T.prune .enumerate instr.bits
  | .filterBelow below => BitTree.insertAll .skip (edgeCubes true below.bits) T
  | .filterAbove start => BitTree.insertAll .skip (edgeCubes false start.bits) T

/-- The decision tree after a sequence of calls on a new tree. -/
def runTree (calls : List Call) : BitTree Leaf :=
  calls.foldl callTree (.ignore (.leaf .enumerate))

/-- One call changes the stored tree as it changes the decision tree. -/
theorem call_spec (hvalid : Valid t T) (c : Call) :
    Ensures (t.call c) OnlyU40 fun t' => Valid t' (callTree T c) := by
  cases c with
  | filter f =>
    by_cases hf : f.data = []
    · simp only [call, callTree, if_pos hf, filter_of_data_eq_nil hf]
      exact hvalid
    · simp only [callTree, if_neg hf]
      exact filter_spec hvalid hf
  | prune instr =>
    obtain ⟨t', ht', hvalid'⟩ := prune_spec hvalid instr
    rw [call, ht']
    exact hvalid'
  | filterBelow below => exact filterBelow_spec hvalid below
  | filterAbove start => exact filterAbove_spec hvalid start

/-- A whole run stores the decision tree of the calls. -/
theorem run_spec (calls : List Call) :
    Ensures (run calls) OnlyU40 fun t => Valid t (runTree calls) := by
  refine Ensures.foldlM (I := fun done t => Valid t (runTree done)) valid_new
    fun done c _ _ t hvalid => ?_
  rw [runTree, List.foldl_append]
  exact call_spec hvalid c

/-! ## The storage invariant -/

/-- The index stored in a slot of entry `i`: slot `false` is `is_0` or `next`, slot `true` is
`is_1`. -/
def childAt (t : FilterTree) (i : ℕ) (slot : Bool) : Option ℕ :=
  match t.entries[i]? with
  | some (.branch is0 is1) => (if slot then is1 else is0).index?
  | some (.ignore next) => if slot then none else next.index?
  | none => none

/-- The entries that can be reached from index 0. -/
inductive Reachable (t : FilterTree) : ℕ → Prop
  | root : Reachable t 0
  | child {i j : ℕ} {b : Bool} (hi : Reachable t i) (hj : t.childAt i b = some j) :
      Reachable t j

/-- The storage of the tree is well formed. -/
structure StorageInvariant (t : FilterTree) : Prop where
  /-- Every reachable index other than 0 is stored in exactly one slot of a reachable entry. -/
  referenced_once : ∀ j, Reachable t j → j ≠ 0 →
    ∃! ref : ℕ × Bool, Reachable t ref.1 ∧ t.childAt ref.1 ref.2 = some j
  /-- No reachable entry refers back to the root. -/
  root_unreferenced : ∀ i slot, Reachable t i → t.childAt i slot ≠ some 0
  reachable_in_range : ∀ j, Reachable t j → j < t.entries.length
  reachable_not_free : ∀ j, Reachable t j → j ∉ t.empty
  free_nodup : t.empty.Nodup
  free_in_range : ∀ j ∈ t.empty, j < t.entries.length
  reachable_or_free : ∀ j < t.entries.length, Reachable t j ∨ j ∈ t.empty
  /-- `len()` counts the reachable entries. -/
  len_eq : t.len = Set.ncard { j | Reachable t j }

/-- The index of a child as a multiset. -/
def refOf : NodeIndex → Multiset ℕ
  | .leaf _ => 0
  | .index i => {i.val}

/-- The indices stored in entry `i`. -/
def refsAt (entries : List Node) (i : ℕ) : Multiset ℕ :=
  match entries[i]? with
  | some (.branch is0 is1) => refOf is0 + refOf is1
  | some (.ignore next) => refOf next
  | none => 0

/-- The root and the children of all stored nodes are the positions in use, each once. -/
lemma Rep.refOf_add_bind (h : Rep entries idx T fp) :
    refOf idx + fp.bind (refsAt entries) = fp := by
  induction h with
  | leaf a => rfl
  | @branch i is0 is1 T0 T1 f0 f1 hget _ _ ih0 ih1 =>
    have hrefs : refsAt entries i.val = refOf is0 + refOf is1 := by rw [refsAt, hget]
    rw [add_bind, add_bind, singleton_bind, hrefs]
    calc {i.val} + (refOf is0 + refOf is1 + (f0.bind (refsAt entries) + f1.bind (refsAt entries)))
        = {i.val} + (refOf is0 + f0.bind (refsAt entries) +
            (refOf is1 + f1.bind (refsAt entries))) := by abel
      _ = {i.val} + (f0 + f1) := by rw [ih0, ih1]
  | @ignore i next T f hget _ ih =>
    have hrefs : refsAt entries i.val = refOf next := by rw [refsAt, hget]
    rw [add_bind, singleton_bind, hrefs, ih]
    rfl

lemma mem_refOf_iff {j : ℕ} : j ∈ refOf idx ↔ idx.index? = some j := by
  cases idx <;> simp [refOf, NodeIndex.index?, eq_comm]

lemma mem_refsAt_iff {i j : ℕ} : j ∈ refsAt t.entries i ↔ ∃ slot, t.childAt i slot = some j := by
  rw [refsAt]
  rcases h : t.entries[i]? with _ | ⟨is0, is1⟩ | ⟨next⟩
  · simp [childAt, h]
  · simp [childAt, h, mem_refOf_iff]
  · simp [childAt, h, mem_refOf_iff]

/-- The reachable entries are those that the stored tree uses. -/
lemma Rep.reachable_iff (h : Rep t.entries root T fp) {j : ℕ} : Reachable t j ↔ j ∈ fp := by
  constructor
  · intro hj
    induction hj with
    | root => exact h.mem_footprint
    | child _ hchild ih =>
      rw [← h.refOf_add_bind, mem_add, mem_bind]
      exact Or.inr ⟨_, ih, mem_refsAt_iff.mpr ⟨_, hchild⟩⟩
  · have hgen : ∀ {idx : NodeIndex} {T : BitTree Leaf} {fp : Multiset ℕ}, Rep t.entries idx T fp →
        (∀ j ∈ refOf idx, Reachable t j) → ∀ j ∈ fp, Reachable t j := by
      intro idx T fp hrep
      induction hrep with
      | leaf a => simp
      | branch hget _ _ ih0 ih1 =>
        intro hroot j hj
        have hi := hroot _ (mem_singleton_self _)
        rcases mem_add.mp hj with hj | hj
        · rw [mem_singleton.mp hj]
          exact hi
        · rcases mem_add.mp hj with hj | hj
          · refine ih0 (fun k hk => hi.child (b := false) ?_) j hj
            simpa [childAt, hget] using mem_refOf_iff.mp hk
          · refine ih1 (fun k hk => hi.child (b := true) ?_) j hj
            simpa [childAt, hget] using mem_refOf_iff.mp hk
      | ignore hget _ ih =>
        intro hroot j hj
        have hi := hroot _ (mem_singleton_self _)
        rcases mem_add.mp hj with hj | hj
        · rw [mem_singleton.mp hj]
          exact hi
        · refine ih (fun k hk => hi.child (b := false) ?_) j hj
          simpa [childAt, hget] using mem_refOf_iff.mp hk
    refine hgen h (fun j hj => ?_) j
    rw [mem_singleton.mp hj]
    exact .root

/-- Two slots of used entries that hold the same index are the same slot. -/
lemma Rep.childAt_unique (h : Rep t.entries root T fp) (hnodup : fp.Nodup) {i i' j : ℕ}
    {slot slot' : Bool} (hi : i ∈ fp) (hi' : i' ∈ fp) (hj : t.childAt i slot = some j)
    (hj' : t.childAt i' slot' = some j) : (i, slot) = (i', slot') := by
  rw [← h.refOf_add_bind, nodup_add] at hnodup
  obtain ⟨hone, hpair⟩ := nodup_bind.mp hnodup.2.1
  by_cases hii : i = i'
  · subst hii
    -- one entry with the index in two slots would hold it twice
    by_contra hne
    have htwo : (refsAt t.entries i).Nodup := hone i hi
    rw [refsAt] at htwo
    rcases hget : t.entries[i]? with _ | ⟨is0, is1⟩ | ⟨next⟩
    · simp [childAt, hget] at hj
    · have h01 : is0.index? = some j ∧ is1.index? = some j := by
        cases slot <;> simp_all [childAt]
      rw [hget] at htwo
      have hdis := (nodup_add.mp htwo).2.2
      exact disjoint_left.mp hdis (mem_refOf_iff.mpr h01.1) (mem_refOf_iff.mpr h01.2)
    · cases slot <;> simp_all [childAt]
  · obtain ⟨l, hl, hpw⟩ := hpair
    have hdis : Disjoint (refsAt t.entries i) (refsAt t.entries i') := by
      rw [hl] at hi hi'
      exact hpw.forall hi hi' hii
    exact absurd (mem_refsAt_iff.mpr ⟨_, hj'⟩) (disjoint_left.mp hdis (mem_refsAt_iff.mpr ⟨_, hj⟩))

lemma storageInvariant_of_valid (hvalid : Valid t T) : StorageInvariant t := by
  obtain ⟨fp, hrep, hown⟩ := hvalid
  have hroot : 0 ∉ fp.bind (refsAt t.entries) := by
    have hnodup := hown.nodup
    rw [← hrep.refOf_add_bind, nodup_add] at hnodup
    exact disjoint_left.mp hnodup.2.2 (mem_singleton_self _)
  refine ⟨fun j hj hne => ?_, fun i slot hi hchild => ?_, fun j hj => ?_, fun j hj => ?_,
    hown.nodup_empty, fun j hj => hown.lt_of_mem_empty hj, fun j hj => ?_, ?_⟩
  · rw [hrep.reachable_iff, ← hrep.refOf_add_bind, mem_add, mem_bind] at hj
    rcases hj with hj | ⟨i, hi, hj⟩
    · exact absurd (mem_singleton.mp hj) hne
    · obtain ⟨slot, hslot⟩ := mem_refsAt_iff.mp hj
      refine ⟨(i, slot), ⟨hrep.reachable_iff.mpr hi, hslot⟩, ?_⟩
      rintro ⟨i', slot'⟩ ⟨hi', hslot'⟩
      exact hrep.childAt_unique hown.nodup (hrep.reachable_iff.mp hi') hi hslot' hslot
  · exact hroot (mem_bind.mpr ⟨i, hrep.reachable_iff.mp hi, mem_refsAt_iff.mpr ⟨_, hchild⟩⟩)
  · exact hown.lt (hrep.reachable_iff.mp hj)
  · exact hown.not_mem_empty (hrep.reachable_iff.mp hj)
  · rw [hrep.reachable_iff]
    exact hown.mem_or_mem_empty hj
  · have hset : { j | Reachable t j } = fp.toFinset := by
      ext j
      simp [hrep.reachable_iff]
    have hcard := hown.card_add
    rw [hset, Set.ncard_coe_finset, toFinset_card_of_nodup hown.nodup, len]
    omega

/-- After any sequence of calls on a new tree the storage is well formed, and a call can only fail
because it needs a node index of more than 40 bits. -/
theorem run_storage (calls : List Call) :
    Ensures (run calls) (fun e => e = .u40Overflow) StorageInvariant :=
  (run_spec calls).imp fun _ hvalid => storageInvariant_of_valid hvalid

end LibLisa.FilterTree
