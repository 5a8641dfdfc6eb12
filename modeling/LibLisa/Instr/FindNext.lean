import LibLisa.Instr.TreeSemantics
import LibLisa.Lib.BitNext

/-!
# Finding the next unfiltered instruction

`find_next_internal` is a backtracking search that rewrites one path. At depth `k` the first `k` bits
of the path are never touched; the rest, zero-padded, is the string from which the subtree is
searched. `Searches S k T search` is this contract, for a search below a node that stores `T`:

* a search that finds something leaves the least unfiltered string (`BitTree.IsNext`);
* a search that finds nothing leaves zeros (`BitTree.NoneFrom`);
* the only panic is `resize`, which refuses a fifteenth byte; this takes a tree that looks at more
  than 14 bytes, and more can be said if the path has at most 14 bytes (`S`).

`searchBranch_spec` and `searchIgnore_spec` derive the contract of a node from those of its
children, and `findNextInternal_spec` is the induction over the tree.
-/

namespace LibLisa.FilterTree

open Lib BitString List BitTree Ensures Instruction

variable {t : FilterTree} {T zero one next : BitTree Leaf} {fp : Multiset ℕ}
variable {path path' : Instruction} {u q : List Bool} {k : ℕ} {S : Prop}

/-! ## Rewriting the path -/

lemma pad_take_eq_pad_nil (h : pad q = pad []) (n : ℕ) : pad (q.take n) = pad [] := by
  ext i
  have hi := congrArg (fun s => s.bit i) h
  simp only [pad_apply, getD_eq_getElem?_getD, getElem?_take] at hi ⊢
  split
  · exact hi
  · rfl

lemma bitLen_of_bits (hbits : path.bits = u ++ q) : path.bitLen = u.length + q.length := by
  rw [← length_bits, hbits, length_append]

/-- Extending a path adds zeros only; a path of at most 14 bytes can be extended unless it has 14
bytes already. -/
lemma extendPath_spec (hbits : path.bits = u ++ q) (hlen : S → path.byteLen ≤ 14) :
    Ensures (extendPath path u.length)
      (fun e => e = .resizeTooLong ∧ 112 ≤ u.length ∧ (S → u.length = 112 ∧ q = []))
      fun path' => (S → path'.byteLen ≤ 14) ∧
        ∃ b q', path'.bits = u ++ b :: q' ∧ pad (b :: q') = pad q := by
  have hbit := bitLen_of_bits hbits
  unfold extendPath
  split
  · next hge =>
    have hq : q = [] := by
      rw [← length_eq_zero_iff]
      omega
    subst hq
    rw [length_nil, bitLen] at hbit
    cases hres : path.extend with
    | error e =>
      obtain ⟨he, hlong⟩ := resize_eq_error hres
      refine ⟨he, by omega, fun hS => ⟨?_, rfl⟩⟩
      have := hlen hS
      omega
    | ok path' =>
      have hlen' := byteLen_of_resize hres
      have hshort := lt_of_resize hres
      have hbits' := bits_resize_zero hres
      rw [hbits, List.append_nil, List.take_of_length_le (by omega),
        Nat.add_sub_cancel_left] at hbits'
      refine ⟨fun _ => by omega, false, replicate 7 false, hbits', ?_⟩
      exact pad_append_replicate [] 8
  · next hlt =>
    cases q with
    | nil =>
      rw [length_nil] at hbit
      omega
    | cons b q => exact ⟨hlen, b, q, hbits, rfl⟩

variable {b : Bool}

lemma nthBitFromLeft_eq_ok (hbits : path.bits = u ++ b :: q) :
    path.nthBitFromLeft u.length = .ok b := by
  have hlen : u.length < path.bits.length := by
    rw [hbits]
    simp
  rw [nthBitFromLeft_eq hlen]
  simp [hbits]

/-- Rewriting a bit of the path keeps what is before it; zeros after it stay zeros. -/
lemma rewritePath_spec (bit : Bool) (hbits : path.bits = u ++ b :: q)
    (hlen : S → path.byteLen ≤ 14) (hzero : pad q = pad []) :
    Ensures (rewritePath path u.length bit) (fun e => e = .resizeTooLong ∧ 112 ≤ u.length ∧ ¬ S)
      fun path' => (S → path'.byteLen ≤ 14) ∧
        ∃ q', path'.bits = u ++ bit :: q' ∧ pad q' = pad [] := by
  have hbit := bitLen_of_bits hbits
  rw [length_cons] at hbit
  have hbyte : u.length / 8 + 1 ≤ path.byteLen := by
    rw [bitLen] at hbit
    omega
  unfold rewritePath
  rw [withNthBitFromLeft_eq bit (by omega), ok_bind]
  cases hres : (path.setBitAt u.length bit).resize (u.length / 8 + 1) 0 with
  | error e =>
    obtain ⟨he, hlong⟩ := resize_eq_error hres
    refine ⟨he, by omega, fun hS => ?_⟩
    have := hlen hS
    omega
  | ok path' =>
    have hlen' := byteLen_of_resize hres
    have hshort := lt_of_resize hres
    have hbits' := bits_resize_zero hres
    rw [bits_setBitAt, hbits, byteLen_setBitAt, Nat.sub_eq_zero_of_le hbyte,
      set_append_right _ _ le_rfl] at hbits'
    obtain ⟨m, hm⟩ : ∃ m, 8 * (u.length / 8 + 1) = u.length + (m + 1) :=
      ⟨8 * (u.length / 8 + 1) - u.length - 1, by omega⟩
    rw [hm, take_length_add_append] at hbits'
    exact ⟨fun _ => by omega, q.take m, by simpa using hbits', pad_take_eq_pad_nil hzero m⟩

lemma raisePath_spec (hbits : path.bits = u ++ b :: q) (hlen : S → path.byteLen ≤ 14)
    (hzero : b = false → pad q = pad []) :
    Ensures (raisePath path u.length) (fun e => e = .resizeTooLong ∧ 112 ≤ u.length ∧ ¬ S)
      fun path' => (S → path'.byteLen ≤ 14) ∧
        ∃ q', path'.bits = u ++ true :: q' ∧ pad q' = pad q := by
  unfold raisePath
  rw [nthBitFromLeft_eq_ok hbits]
  cases b with
  | true => exact ⟨hlen, q, hbits, rfl⟩
  | false =>
    refine (rewritePath_spec true hbits hlen (hzero rfl)).imp ?_
    rintro path' ⟨hlen', q', hbits', hq'⟩
    exact ⟨hlen', q', hbits', hq'.trans (hzero rfl).symm⟩

/-! ## The contract of a search -/

/-- The result of a search in `T` from `s` on, with `u` the path above `T`. -/
def SearchResult (S : Prop) (T : BitTree Leaf) (u : List Bool) (s : BitString) :
    Bool × Instruction → Prop
  | (found, path) => (S → path.byteLen ≤ 14) ∧ ∃ q, path.bits = u ++ q ∧
    if found then T.IsNext .enumerate s q else T.NoneFrom .enumerate s ∧ pad q = pad []

/-- A search panics only in a tree of more than 14 bytes; if the tree is normal and the path has at
most 14 bytes, there is an unfiltered string that it did not get to. -/
def SearchError (S : Prop) (T : BitTree Leaf) (k : ℕ) (s : BitString) (e : Abort) : Prop :=
  e = .resizeTooLong ∧ 112 < k + T.height ∧
    (S → T.ChildrenNormal → (k = 112 → T.Normal) → ¬ T.NoneFrom .enumerate s)

/-- The contract of a search below a node at depth `k` that stores `T`; `S` says that the path has
at most 14 bytes. -/
def Searches (S : Prop) (k : ℕ) (T : BitTree Leaf)
    (search : Instruction → Partial (Bool × Instruction)) : Prop :=
  ∀ (u q : List Bool) (path : Instruction), u.length = k → path.bits = u ++ q →
    (S → path.byteLen ≤ 14) →
    Ensures (search path) (SearchError S T k (pad q)) (SearchResult S T u (pad q))

variable {e : Abort} {s : BitString} {search : Instruction → Partial (Bool × Instruction)}
  {calls : List Call} {idx : NodeIndex}

lemma searchError_of_not (hinner : 0 < T.height) (h : e = .resizeTooLong ∧ 112 ≤ k ∧ ¬ S) :
    SearchError S T k s e :=
  ⟨h.1, by omega, fun hS => absurd hS h.2.2⟩

/-- A normal inner node has an unfiltered string below it. -/
lemma not_noneFrom_of_normal (h : T.Normal) (hinner : T.isLeaf = false) :
    ¬ T.NoneFrom .enumerate (pad []) := by
  intro hnone
  obtain ⟨s, s', hne⟩ := exists_walk_ne_of_normal T h hinner
  have hskip : ∀ s, T.walk s = .skip := by
    intro s
    cases hs : T.walk s with
    | enumerate => exact absurd hs (hnone s (pad_nil_le s))
    | skip => rfl
  exact hne ((hskip s).trans (hskip s').symm)

/-- The panic of `extend` at an inner node. -/
lemma searchError_of_extendPath (hinner : T.isLeaf = false)
    (h : e = .resizeTooLong ∧ 112 ≤ u.length ∧ (S → u.length = 112 ∧ q = [])) :
    SearchError S T u.length (pad q) e := by
  obtain ⟨he, hdeep, hlast⟩ := h
  have hpos : 0 < T.height := by
    cases T with
    | leaf a => simp [isLeaf] at hinner
    | branch zero one => simp [height]
    | ignore next => simp [height]
  refine ⟨he, by omega, fun hS _ hnormal => ?_⟩
  obtain ⟨hk, rfl⟩ := hlast hS
  exact not_noneFrom_of_normal (hnormal hk) hinner

/-- A panic below a child is a panic below the node. -/
lemma SearchError.parent {child : BitTree Leaf} {s' : BitString}
    (h : SearchError S child (k + 1) s' e) (hheight : child.height < T.height)
    (hnormal : T.ChildrenNormal → child.Normal)
    (hnone : T.NoneFrom .enumerate s → child.NoneFrom .enumerate s') : SearchError S T k s e := by
  obtain ⟨he, hdepth, hsome⟩ := h
  refine ⟨he, by omega, fun hS hn _ hT => ?_⟩
  exact hsome hS (hnormal hn).childrenNormal (fun _ => hnormal hn) (hnone hT)

/-! ## Nodes -/

lemma finishSearch_spec {found : Bool} (hinner : 0 < T.height) (hlen : S → path.byteLen ≤ 14)
    (hbits : path.bits = u ++ b :: q) (h : if found then T.IsNext .enumerate s (b :: q)
      else T.NoneFrom .enumerate s ∧ pad q = pad []) :
    Ensures (finishSearch u.length (found, path)) (SearchError S T u.length s)
      (SearchResult S T u s) := by
  cases found with
  | true => exact ⟨hlen, b :: q, hbits, h⟩
  | false =>
    obtain ⟨hnone, hzero⟩ := h
    refine ((rewritePath_spec false hbits hlen hzero).mono (fun _ => searchError_of_not hinner)
      fun _ hp => hp).bind ?_
    rintro path' ⟨hlen', q', hbits', hq'⟩
    refine ⟨hlen', false :: q', hbits', hnone, ?_⟩
    rw [pad_cons, hq', ← pad_cons]
    exact pad_append_replicate [] 1

/-- The search below the one side of a node, once the bit is raised. -/
lemma searchOne_spec {raise : Partial Instruction} {s' : BitString}
    (hraise : Ensures raise (fun e => e = .resizeTooLong ∧ 112 ≤ u.length ∧ ¬ S) fun path =>
      (S → path.byteLen ≤ 14) ∧ ∃ q, path.bits = u ++ true :: q ∧ pad q = s')
    (h1 : Searches S (u.length + 1) one search) (hheight : one.height < T.height)
    (hnormal : T.ChildrenNormal → one.Normal)
    (hnext : ∀ l, one.IsNext .enumerate s' l → T.IsNext .enumerate s (true :: l))
    (hnone : T.NoneFrom .enumerate s ↔ one.NoneFrom .enumerate s') :
    Ensures (raise >>= fun path => search path >>= finishSearch u.length)
      (SearchError S T u.length s) (SearchResult S T u s) := by
  refine (hraise.mono (fun _ => searchError_of_not (by omega)) fun _ hp => hp).bind ?_
  rintro path ⟨hlen, q, hbits, rfl⟩
  have hsearch := h1 (u ++ [true]) q path (by simp) (by simpa using hbits) hlen
  refine (hsearch.mono (fun e he => he.parent hheight hnormal hnone.mp) fun _ hr => hr).bind ?_
  rintro ⟨found, path'⟩ ⟨hlen', q', hbits', hres⟩
  rw [append_assoc] at hbits'
  refine finishSearch_spec (by omega) hlen' hbits' ?_
  cases found with
  | true => exact hnext q' hres
  | false => exact ⟨hnone.mpr hres.1, hres.2⟩

/-- The contract of a `Branch` node. -/
theorem searchBranch_spec {search0 search1 : Instruction → Partial (Bool × Instruction)}
    (h0 : Searches S (k + 1) zero search0) (h1 : Searches S (k + 1) one search1) :
    Searches S k (.branch zero one) (searchBranch search0 search1 k) := by
  rintro u q path rfl hbits hlen
  have hheight0 : zero.height < (branch zero one).height := by
    simp only [height]
    omega
  have hheight1 : one.height < (branch zero one).height := by
    simp only [height]
    omega
  have hext := (extendPath_spec hbits hlen).mono
    (fun e => searchError_of_extendPath (T := .branch zero one) rfl) fun _ h => h
  refine hext.bind ?_
  rintro p1 ⟨hlen1, b, q1, hbits1, hpad1⟩
  refine bind_ok (nthBitFromLeft_eq_ok hbits1) ?_
  rw [← hpad1, pad_cons]
  cases b with
  | true =>
    exact searchOne_spec (raisePath_spec hbits1 hlen1 (by simp)) h1 hheight1 (fun h => h.2)
      (fun _ => isNext_branch_one) noneFrom_branch_one
  | false =>
    have hsearch := h0 (u ++ [false]) q1 p1 (by simp) (by simpa using hbits1) hlen1
    refine (hsearch.mono (fun e he => he.parent hheight0 (fun h => h.1)
      fun hn => (noneFrom_branch_zero.mp hn).1) fun _ hr => hr).bind ?_
    rintro ⟨found, p2⟩ ⟨hlen2, q2, hbits2, hres⟩
    rw [append_assoc, singleton_append] at hbits2
    cases found with
    | true => exact ⟨hlen2, false :: q2, hbits2, isNext_branch_zero hres⟩
    | false =>
      -- the zero side is exhausted, and the path behind the bit is zero
      refine searchOne_spec (raisePath_spec hbits2 hlen2 fun _ => hres.2) h1 hheight1 (fun h => h.2)
        ?_ ?_
      · rw [hres.2]
        exact fun _ => isNext_branch_of_noneFrom hres.1
      · rw [hres.2, noneFrom_branch_zero]
        exact and_iff_right hres.1

/-- The contract of an `Ignore` node. -/
theorem searchIgnore_spec (h : Searches S (k + 1) next search) :
    Searches S k (.ignore next) (searchIgnore search k) := by
  rintro u q path rfl hbits hlen
  have hheight : next.height < (ignore next).height := Nat.lt_succ_self _
  have hext := (extendPath_spec hbits hlen).mono
    (fun e => searchError_of_extendPath (T := .ignore next) rfl) fun _ h => h
  refine hext.bind ?_
  rintro p1 ⟨hlen1, b, q1, hbits1, hpad1⟩
  rw [← hpad1, pad_cons]
  have hsearch := h (u ++ [b]) q1 p1 (by simp) (by simpa using hbits1) hlen1
  have hnone : (ignore next).NoneFrom .enumerate (cons b (pad q1)) →
      next.NoneFrom .enumerate (pad q1) := by
    rw [noneFrom_ignore_iff]
    cases b with
    | false => exact fun hn => (noneFrom_branch_zero.mp hn).1
    | true => exact noneFrom_branch_one.mp
  refine (hsearch.mono (fun e he => he.parent hheight id hnone) fun _ hr => hr).bind ?_
  rintro ⟨found, p2⟩ ⟨hlen2, q2, hbits2, hres⟩
  rw [append_assoc] at hbits2
  cases found with
  | true =>
    refine ⟨hlen2, b :: q2, hbits2, isNext_ignore ?_⟩
    cases b with
    | false => exact isNext_branch_zero hres
    | true => exact isNext_branch_one hres
  | false =>
    refine bind_ok (nthBitFromLeft_eq_ok hbits2) ?_
    cases b with
    | true =>
      refine bind_ok rfl (finishSearch_spec (by omega) hlen2 hbits2 ⟨?_, hres.2⟩)
      rw [noneFrom_ignore_iff, noneFrom_branch_one]
      exact hres.1
    | false =>
      change Ensures ((rewritePath p2 u.length true >>= search) >>= finishSearch u.length) _ _
      rw [bind_assoc]
      refine searchOne_spec (rewritePath_spec true hbits2 hlen2 hres.2) h hheight id
        (fun _ hl => isNext_ignore (isNext_branch_of_noneFrom hres.1 hl)) ?_
      rw [noneFrom_ignore_iff, noneFrom_branch_zero]
      exact and_iff_right hres.1

/-! ## The whole search -/

lemma searches_enumerate (fuel k : ℕ) :
    Searches S k (.leaf .enumerate) (findNextInternal t fuel .enumerate k) := by
  rintro u q path - hbits hlen
  rw [findNextInternal]
  exact ⟨hlen, q, hbits, isNext_leaf _ q⟩

lemma searches_skip (fuel k : ℕ) :
    Searches S k (.leaf .skip) (findNextInternal t fuel .skip k) := by
  rintro u q path rfl hbits hlen
  have hbit := bitLen_of_bits hbits
  have hnone : (leaf Leaf.skip).NoneFrom .enumerate (pad q) := noneFrom_leaf (by simp) _
  rw [findNextInternal]
  split
  · obtain ⟨y, hy, hybits⟩ := withRightmostBits_spec path false
      (path.bitLen - u.length) (Nat.sub_le _ _)
    rw [Nat.sub_sub_self (by omega), hbits, take_left] at hybits
    have hylen := bitLen_of_bits hybits
    rw [length_replicate] at hylen
    simp only [bitLen] at hylen hbit
    refine bind_ok hy ⟨fun hS => ?_, _, hybits, hnone, pad_append_replicate [] _⟩
    have := hlen hS
    omega
  · have hq : q = [] := by
      rw [← length_eq_zero_iff]
      omega
    exact ⟨hlen, q, hbits, hnone, by rw [hq]⟩

/-- The search follows the stored nodes with any counter that is at least the height. -/
theorem findNextInternal_spec (h : Rep t.entries idx T fp) :
    ∀ fuel k, T.height ≤ fuel → Searches S k T (findNextInternal t fuel idx k) := by
  induction h with
  | leaf a =>
    intro fuel k _
    cases a with
    | enumerate => exact searches_enumerate fuel k
    | skip => exact searches_skip fuel k
  | @branch i is0 is1 T0 T1 f0 f1 hget h0 h1 ih0 ih1 =>
    intro fuel k hfuel
    obtain ⟨fuel, rfl, hfuel0, hfuel1⟩ := exists_fuel_branch hfuel
    intro u q path hu hbits hlen
    rw [findNextInternal, get_eq hget]
    exact searchBranch_spec (ih0 fuel (k + 1) hfuel0) (ih1 fuel (k + 1) hfuel1) u q path hu hbits hlen
  | @ignore i next T f hget h ih =>
    intro fuel k hfuel
    obtain ⟨fuel, rfl, hle⟩ := exists_fuel_ignore hfuel
    intro u q path hu hbits hlen
    rw [findNextInternal, get_eq hget]
    exact searchIgnore_spec (ih fuel (k + 1) hle) u q path hu hbits hlen

/-- What `find_next` returns on a stored tree. -/
lemma findNext_spec (hvalid : Valid t T) (i : Instruction) :
    Ensures (t.findNext i) (SearchError (i.byteLen ≤ 14) T 0 i.pad) fun
      | some r => (i.byteLen ≤ 14 → r.byteLen ≤ 14) ∧ T.IsNext .enumerate i.pad r.bits
      | none => T.NoneFrom .enumerate i.pad := by
  obtain ⟨fp, hrep, hown⟩ := hvalid
  have hheight : T.height ≤ t.fuel := hrep.height_le_fuel (F := 0) (by simpa using hown)
  have hsearch := findNextInternal_spec hrep t.fuel 0 hheight [] i.bits i rfl rfl id
  refine hsearch.bind ?_
  rintro ⟨found, r⟩ ⟨hlen, q, hbits, hres⟩
  subst hbits
  cases found with
  | true => exact ⟨hlen, hres⟩
  | false => exact hres.1

/-- A path of 14 bytes is followed to its end. An inner node there asks for a fifteenth byte. -/
lemma findNextInternal_fails (h : Rep t.entries idx T fp) :
    ∀ (fuel k : ℕ) (u q : List Bool), T.height ≤ fuel → u.length = k → path.bits = u ++ q →
      path.byteLen = 14 → leafAt q T = none →
      Ensures (findNextInternal t fuel idx k path) (· = .resizeTooLong) fun _ => False := by
  have hend : ∀ u : List Bool, path.bits = u ++ [] → path.byteLen = 14 →
      Ensures (extendPath path u.length) (· = .resizeTooLong) fun _ => False := by
    intro u hbits hlen
    rw [extendPath, if_pos (by simp [bitLen_of_bits hbits]), extend, resize, dif_neg (by omega)]
    rfl
  have hmid : ∀ {u q : List Bool} {b : Bool}, path.bits = u ++ b :: q →
      extendPath path u.length = .ok path := by
    intro u q b hbits
    rw [extendPath, if_neg (by simp [bitLen_of_bits hbits])]
  induction h with
  | leaf a => simp
  | @branch i is0 is1 T0 T1 f0 f1 hget h0 h1 ih0 ih1 =>
    rintro fuel _ u q hfuel rfl hbits hlen hnone
    obtain ⟨fuel, rfl, hfuel0, hfuel1⟩ := exists_fuel_branch hfuel
    rw [findNextInternal, get_eq hget, ok_bind]
    cases q with
    | nil => exact (hend u hbits hlen).bind fun _ h => h.elim
    | cons b q =>
      have hbits' : path.bits = (u ++ [b]) ++ q := by simpa using hbits
      refine bind_ok (hmid hbits) (bind_ok (nthBitFromLeft_eq_ok hbits) ?_)
      cases b with
      | false =>
        exact (ih0 fuel _ _ q hfuel0 (by simp) hbits' hlen hnone).bind fun _ h => h.elim
      | true =>
        have hraise : raisePath path u.length = .ok path := by
          rw [raisePath, nthBitFromLeft_eq_ok hbits]
          rfl
        refine bind_ok rfl (bind_ok hraise ?_)
        exact (ih1 fuel _ _ q hfuel1 (by simp) hbits' hlen hnone).bind fun _ h => h.elim
  | @ignore i next T f hget h ih =>
    rintro fuel _ u q hfuel rfl hbits hlen hnone
    obtain ⟨fuel, rfl, hle⟩ := exists_fuel_ignore hfuel
    rw [findNextInternal, get_eq hget, ok_bind]
    cases q with
    | nil => exact (hend u hbits hlen).bind fun _ h => h.elim
    | cons b q =>
      have hbits' : path.bits = (u ++ [b]) ++ q := by simpa using hbits
      refine bind_ok (hmid hbits) ?_
      exact (ih fuel _ _ q hle (by simp) hbits' hlen hnone).bind fun _ h => h.elim

/-! ## Trees built by filtering -/

/-- A call that adds to the tree, with arguments that `find_next` supports. -/
def Call.Adds : Call → Prop
  | .filter f => f.data ≠ []
  | .prune _ => False
  | .filterBelow below => below.byteLen ≤ 14
  | .filterAbove start => start.byteLen ≤ 14

instance : DecidablePred Call.Adds
  | .filter f => inferInstanceAs (Decidable (f.data ≠ []))
  | .prune _ => inferInstanceAs (Decidable False)
  | .filterBelow below => inferInstanceAs (Decidable (below.byteLen ≤ 14))
  | .filterAbove start => inferInstanceAs (Decidable (start.byteLen ≤ 14))

/-- A call that does not deepen the tree beyond 14 bytes. -/
def Call.Short : Call → Prop
  | .filter f => f.len ≤ 14
  | .prune _ => True
  | .filterBelow below => below.byteLen ≤ 14
  | .filterAbove start => start.byteLen ≤ 14

/-- A property of the decision tree that every call keeps holds after a run. -/
lemma runTree_induction {P : BitTree Leaf → Prop} (hinit : P (.ignore (.leaf .enumerate)))
    (hstep : ∀ c ∈ calls, ∀ T, P T → P (callTree T c)) : P (runTree calls) :=
  foldlRecOn calls callTree hinit fun T hT c hc => hstep c hc T hT

lemma rootNormal_runTree (hcalls : ∀ c ∈ calls, c.Adds) : (runTree calls).RootNormal := by
  refine runTree_induction (Or.inr ⟨_, rfl⟩) fun c hc T hT => ?_
  have hadds := hcalls c hc
  cases c with
  | filter f =>
    rw [callTree]
    split
    · exact hT
    · exact rootNormal_insert _ _ hT
  | prune instr => exact absurd hadds id
  | filterBelow below => exact rootNormal_insertAll _ _ hT
  | filterAbove start => exact rootNormal_insertAll _ _ hT

lemma length_le_of_mem_edgeCubes {v : Bool} {instr : Instruction} (h : instr.byteLen ≤ 14)
    {c : Cube} (hc : c ∈ edgeCubes v instr.bits) : c.length ≤ 112 := by
  obtain ⟨p, hp, -, rfl⟩ := mem_edgeCubes.mp hc
  rw [length_bits, bitLen] at hp
  simp only [prefixCube, length_map, length_append, length_take, length_singleton]
  omega

lemma height_callTree_le {c : Call} (hc : c.Short) (hT : T.height ≤ 112) :
    (callTree T c).height ≤ 112 := by
  cases c with
  | filter f =>
    rw [callTree]
    split
    · exact hT
    · have hlen := length_realCube_le f
      have hshort : f.len ≤ 14 := hc
      refine (height_insert_le _ _ _).trans (max_le (max_le hT ?_) (by omega))
      simp only [InstructionFilter.bitLen, InstructionFilter.len] at hlen hshort
      omega
  | prune instr => exact (height_prune_le _ _ _).trans hT
  | filterBelow below | filterAbove start =>
    exact height_insertAll_le (by omega) (fun _ => length_le_of_mem_edgeCubes hc) hT

lemma Valid.walks_skip_iff (h : Valid t T) : Walks t root s .skip ↔ T.walk s ≠ .enumerate := by
  rw [h.walks_iff]
  cases T.walk s <;> simp

/-- After any sequence of `filter`, `filter_below` and `filter_above` calls, `find_next` returns
the least uncovered string from the instruction on, cut where the tree stops looking, and returns
nothing if and only if everything from the instruction on is covered. It returns whenever no filter
is longer than 14 bytes. -/
theorem findNext_exact (calls : List Call) (hcalls : ∀ c ∈ calls, c.Adds) (t : FilterTree)
    (hrun : run calls = .ok t) (i : Instruction) (hi : i.byteLen ≤ 14) :
    (∀ r, t.findNext i = .ok (some r) →
      IsLeast {s | ¬ Walks t root s .skip ∧ i.pad ≤ s} r.pad ∧
      ∀ s, StartsWith r.bits s → ¬ Walks t root s .skip) ∧
    (t.findNext i = .ok none ↔ ∀ s, i.pad ≤ s → Walks t root s .skip) ∧
    ((∀ f, .filter f ∈ calls → f.len ≤ 14) → ∃ r, t.findNext i = .ok r) := by
  have hvalid := (run_spec calls).of_ok hrun
  have hspec := findNext_spec hvalid i
  have hskip : ∀ s, Walks t root s .skip ↔ (runTree calls).walk s ≠ .enumerate :=
    fun s => hvalid.walks_skip_iff
  have hnone : (∀ s, i.pad ≤ s → Walks t root s .skip) ↔
      (runTree calls).NoneFrom .enumerate i.pad := by
    simp only [hskip, BitTree.NoneFrom]
  refine ⟨fun r hr => ?_, ?_, fun hshort => ?_⟩
  · obtain ⟨-, hnext⟩ := hspec.of_ok hr
    simp only [hskip, not_not]
    exact ⟨hnext.isLeast, hnext.walk_eq⟩
  · rw [hnone]
    constructor
    · exact fun h => hspec.of_ok h
    · intro h
      cases hres : t.findNext i with
      | error e =>
        obtain ⟨-, -, hsome⟩ := hspec.of_error hres
        exact absurd h (hsome hi (rootNormal_runTree hcalls).childrenNormal (by simp))
      | ok r =>
        cases r with
        | none => rfl
        | some r => exact absurd h (hspec.of_ok hres).2.not_noneFrom
  · cases hres : t.findNext i with
    | ok r => exact ⟨r, rfl⟩
    | error e =>
      obtain ⟨-, hdeep, -⟩ := hspec.of_error hres
      have hheight : (runTree calls).height ≤ 112 := by
        refine runTree_induction (P := fun T => T.height ≤ 112) (by simp [BitTree.height])
          fun c hc T hT => height_callTree_le ?_ hT
        have hadds := hcalls c hc
        cases c with
        | filter f => exact hshort f hc
        | prune instr => trivial
        | filterBelow below => exact hadds
        | filterAbove start => exact hadds
      omega

/-- The tree of the filter `0_______`. -/
def halfTree : FilterTree := { entries := [.branch .skip .enumerate], empty := [] }

/-- With the lower half filtered, the search from `12` finds `80`. -/
theorem findNext_exact_halfTree : run [.filter halfFilter] = .ok halfTree ∧
    IsLeast {s | ¬ Walks halfTree root s .skip ∧ pad ⟨[0x12], by decide⟩ ≤ s}
      (pad ⟨[0x80], by decide⟩) :=
  ⟨rfl, ((findNext_exact [.filter halfFilter] (by decide) halfTree rfl ⟨[0x12], by decide⟩
    (by decide)).1 ⟨[0x80], by decide⟩ rfl).1⟩

/-- After any calls, `find_next` returns on every instruction if and only if the tree decides
nothing past the first 14 bytes: `resize` refuses the fifteenth byte that an instruction can have. -/
theorem findNext_returns_iff (calls : List Call) (t : FilterTree) (hrun : run calls = .ok t) :
    (∀ i : Instruction, ∃ r, t.findNext i = .ok r) ↔ (runTree calls).height ≤ 112 := by
  have hvalid := (run_spec calls).of_ok hrun
  constructor
  · intro hreturns
    by_contra hdeep
    obtain ⟨l, hl, hnone⟩ := BitTree.exists_leafAt_eq_none _ (Nat.lt_of_not_le hdeep)
    obtain ⟨i, hi⟩ := exists_bits (n := 14) l hl (by decide)
    have hlen : i.byteLen = 14 := by
      have := i.length_bits
      rw [hi, bitLen] at this
      omega
    obtain ⟨fp, hrep, hown⟩ := hvalid
    have hfuel := hrep.height_le_fuel (F := 0) (by simpa using hown)
    obtain ⟨r, hr⟩ := hreturns i
    obtain ⟨res, hres, -⟩ := ok_of_bind hr
    exact (findNextInternal_fails hrep t.fuel 0 [] l hfuel rfl hi hlen hnone).of_ok hres
  · intro hheight i
    cases hres : t.findNext i with
    | ok r => exact ⟨r, rfl⟩
    | error e =>
      have := ((findNext_spec hvalid i).of_error hres).2.1
      omega

/-- A tree that looks at one bit only lets every search return. -/
theorem findNext_returns_halfTree : run [.filter halfFilter] = .ok halfTree ∧
    ∃ r, halfTree.findNext ⟨replicate 15 0xff, by decide⟩ = .ok r :=
  ⟨rfl, (findNext_returns_iff [.filter halfFilter] halfTree rfl).mpr (by decide) _⟩

/-- The filter of 15 bytes whose low halves are zero. -/
def zerosFilter : InstructionFilter := ⟨replicate 15 ⟨0x0f, 0, by decide⟩, by decide⟩

/-- A search from 14 zero bytes reaches the last byte of the filter and panics. -/
theorem findNext_zerosFilter : zerosFilter.len = 15 ∧ ∃ t, run [.filter zerosFilter] = .ok t ∧
    t.findNext ⟨replicate 14 0, by decide⟩ = .error .resizeTooLong :=
  ⟨rfl, (run [.filter zerosFilter]).toOption.getD halfTree, by decide +kernel, by decide +kernel⟩

end LibLisa.FilterTree
