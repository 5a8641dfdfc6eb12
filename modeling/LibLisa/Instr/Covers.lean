import LibLisa.Instr.FindNext

/-!
# What `covers` decides

`covers_internal` walks the tree along the bits of a filter and should look at both children of a
`Branch` where the filter has a wildcard. If the child `is_0` is `Skip` it answers `true` without
looking at `is_1`. So the strings that pass through such an `is_1` go unseen: `covers` answers
`true` if and only if every string that the filter matches *and that `covers` sees* is skipped
(`coversCube_iff`), and the answer is right exactly when a filter that matches an unskipped string
also matches one that is seen (`covers_correct_iff`). `covers_evenFilter` is a filter for which it
is wrong.
-/

namespace LibLisa.FilterTree

open Lib BitString

variable {t : FilterTree} {T : BitTree Leaf} {fp : Multiset ℕ} {c : Cube} {zero one : BitTree Leaf}

/-- The walk along `s` from `idx` stays in the part of the tree that `covers` looks at for the
filter bits of the cube: at a wildcard it does not enter `is_1` of a `Branch` whose `is_0` is
`Skip`. -/
inductive Examines (t : FilterTree) : Cube → NodeIndex → BitString → Prop
  | leaf (c : Cube) (a : Leaf) (s : BitString) : Examines t c (.leaf a) s
  | done (idx : NodeIndex) (s : BitString) : Examines t [] idx s
  | branch {b c i is0 is1 s : _} (hget : t.entries[i.val]? = some (.branch is0 is1))
      (hskip : b = none → is0 = .skip → s.bit 0 = false)
      (h : Examines t c (if s.bit 0 then is1 else is0) s.tail) : Examines t (b :: c) (.index i) s
  | ignore {b c i next s : _}
      (hget : t.entries[i.val]? = some (.ignore next)) (h : Examines t c next s.tail) :
      Examines t (b :: c) (.index i) s

/-! ## The decision on trees -/

/-- The answer of `covers` on a decision tree. -/
def coversCube : Cube → BitTree Leaf → Bool
  | _, .leaf a => a = .skip
  | [], _ => false
  | some false :: c, .branch zero _ => coversCube c zero
  | some true :: c, .branch _ one => coversCube c one
  | none :: c, .branch zero one => coversCube c zero && (zero = .leaf .skip || coversCube c one)
  | _ :: c, .ignore next => coversCube c next

/-- The strings that decide the answer. -/
def Seen : Cube → BitTree Leaf → BitString → Prop
  | _, .leaf _, _ => True
  | [], _, _ => True
  | b :: c, .branch zero one, s => (b = none → zero = .leaf .skip → s.bit 0 = false) ∧
      if s.bit 0 then Seen c one s.tail else Seen c zero s.tail
  | _ :: c, .ignore next, s => Seen c next s.tail

lemma coversCube_leaf (c : Cube) (a : Leaf) : coversCube c (.leaf a) = decide (a = .skip) := by
  cases c <;> simp [coversCube]

lemma seen_leaf (c : Cube) (a : Leaf) (s : BitString) : Seen c (.leaf a) s := by
  cases c <;> trivial

lemma coversCube_ignore (b : Option Bool) (c : Cube) (next : BitTree Leaf) :
    coversCube (b :: c) (.ignore next) = coversCube c next := by
  rcases b with _ | _ | _ <;> rfl

/-- Every string that a cube matches and that is seen in `T` is skipped. -/
def SkipsSeen (c : Cube) (T : BitTree Leaf) : Prop :=
  ∀ s, c.Matches s → Seen c T s → T.walk s = .skip

lemma skipsSeen_leaf {a : Leaf} : SkipsSeen c (.leaf a) ↔ a = .skip := by
  constructor
  · intro h
    obtain ⟨s, hs⟩ := c.exists_matches
    exact h s hs (seen_leaf c a s)
  · intro h s _ _
    exact h

lemma skipsSeen_branch {b : Bool} :
    SkipsSeen (some b :: c) (.branch zero one) ↔ SkipsSeen c (if b then one else zero) := by
  constructor
  · intro h s hs hseen
    have hb := h (cons b s) ⟨by simp, hs⟩ ⟨by simp, by cases b <;> exact hseen⟩
    cases b <;> exact hb
  · rintro h s ⟨hb, hs⟩ ⟨-, hseen⟩
    have h0 : s.bit 0 = b := by simpa using Eq.symm (by simpa using hb)
    rw [BitTree.walk_branch]
    rw [h0] at hseen ⊢
    cases b <;> exact h s.tail hs hseen

lemma skipsSeen_wildcard :
    SkipsSeen (none :: c) (.branch zero one) ↔
      SkipsSeen c zero ∧ (zero = .leaf .skip ∨ SkipsSeen c one) := by
  constructor
  · intro h
    refine ⟨fun s hs hseen => h (cons false s) ⟨rfl, hs⟩ ⟨by simp, hseen⟩, ?_⟩
    by_cases hzero : zero = .leaf .skip
    · exact Or.inl hzero
    · exact Or.inr fun s hs hseen =>
        h (cons true s) ⟨rfl, hs⟩ ⟨fun _ hz => absurd hz hzero, hseen⟩
  · rintro ⟨h0, h1⟩ s ⟨-, hs⟩ ⟨hskip, hseen⟩
    rw [BitTree.walk_branch]
    cases hb : s.bit 0 with
    | false =>
      rw [hb] at hseen
      exact h0 s.tail hs hseen
    | true =>
      rw [hb] at hseen hskip
      obtain hzero | h1 := h1
      · exact absurd (hskip rfl hzero) (by simp)
      · exact h1 s.tail hs hseen

lemma skipsSeen_ignore {b : Option Bool} {next : BitTree Leaf} :
    SkipsSeen (b :: c) (.ignore next) ↔ SkipsSeen c next := by
  constructor
  · intro h s hs hseen
    obtain ⟨v, hv⟩ : ∃ v, admits b v = true := by
      rcases b with _ | v
      · exact ⟨false, rfl⟩
      · exact ⟨v, by simp⟩
    exact h (cons v s) ⟨hv, hs⟩ hseen
  · rintro h s ⟨-, hs⟩ hseen
    exact h s.tail hs hseen

/-- Below a normal inner node something is not skipped. -/
lemma not_skipsSeen_nil (h : T.Normal) (hinner : T.isLeaf = false) : ¬ SkipsSeen [] T := by
  intro hskip
  refine not_noneFrom_of_normal h hinner fun s _ hs => ?_
  have hseen : Seen [] T s := by cases T <;> trivial
  rw [hskip s trivial hseen] at hs
  cases hs

/-- The answer is about the strings that are seen. -/
theorem coversCube_iff : ∀ (c : Cube) (T : BitTree Leaf), T.ChildrenNormal → (c = [] → T.Normal) →
    (coversCube c T = true ↔ SkipsSeen c T)
  | c, .leaf a, _, _ => by
      rw [coversCube_leaf, skipsSeen_leaf, decide_eq_true_iff]
  | [], .branch _ _, _, hn | [], .ignore _, _, hn => by
      have hnot := not_skipsSeen_nil (hn rfl) rfl
      simp [coversCube, hnot]
  | some false :: c, .branch zero one, h, _ => by
      rw [coversCube, skipsSeen_branch]
      exact coversCube_iff c zero h.1.childrenNormal fun _ => h.1
  | some true :: c, .branch zero one, h, _ => by
      rw [coversCube, skipsSeen_branch]
      exact coversCube_iff c one h.2.childrenNormal fun _ => h.2
  | none :: c, .branch zero one, h, _ => by
      rw [coversCube, skipsSeen_wildcard, Bool.and_eq_true, Bool.or_eq_true, decide_eq_true_iff,
        coversCube_iff c zero h.1.childrenNormal fun _ => h.1,
        coversCube_iff c one h.2.childrenNormal fun _ => h.2]
  | b :: c, .ignore next, h, _ => by
      have hnext : next.Normal := h
      rw [coversCube_ignore, skipsSeen_ignore]
      exact coversCube_iff c next hnext.childrenNormal fun _ => hnext

/-! ## The decision on stored nodes -/

lemma Rep.examines_iff {idx : NodeIndex} (h : Rep t.entries idx T fp) {s : BitString} :
    Examines t c idx s ↔ Seen c T s := by
  induction h generalizing c s with
  | leaf a => exact iff_of_true (.leaf c a s) (seen_leaf c a s)
  | @branch i is0 is1 T0 T1 f0 f1 hget h0 h1 ih0 ih1 =>
    cases c with
    | nil => exact iff_of_true (.done _ s) trivial
    | cons b c =>
      have hstep : Examines t (b :: c) (.index i) s ↔ (b = none → is0 = .skip → s.bit 0 = false) ∧
          Examines t c (if s.bit 0 then is1 else is0) s.tail := by
        constructor
        · intro hx
          cases hx with
          | branch hget' hskip hx =>
            rw [hget] at hget'
            cases hget'
            exact ⟨hskip, hx⟩
          | ignore hget' hx =>
            rw [hget] at hget'
            cases hget'
        · exact fun hx => .branch hget hx.1 hx.2
      rw [hstep, h0.eq_leaf_iff]
      refine and_congr_right fun _ => ?_
      cases s.bit 0 with
      | false => exact ih0
      | true => exact ih1
  | @ignore i next T f hget h ih =>
    cases c with
    | nil => exact iff_of_true (.done _ s) trivial
    | cons b c =>
      have hstep : Examines t (b :: c) (.index i) s ↔ Examines t c next s.tail := by
        constructor
        · intro hx
          cases hx with
          | branch hget' hskip hx =>
            rw [hget] at hget'
            cases hget'
          | ignore hget' hx =>
            rw [hget] at hget'
            cases hget'
            exact hx
        · exact .ignore hget
      rw [hstep]
      exact ih

/-- A child answers for itself if it is a leaf, and by the loop otherwise. -/
lemma coversChild_spec {go : ℕ → Partial Bool} {child : NodeIndex} (hrep : Rep t.entries child T fp)
    (hgo : ∀ i : U40, child = .index i → go i.val = .ok (coversCube c T)) :
    coversChild go child = .ok (coversCube c T) := by
  cases child with
  | index i => exact hgo i rfl
  | leaf a =>
    rw [hrep.eq_leaf_iff.mp rfl, coversCube_leaf]
    cases a <;> rfl

lemma coversLoop_spec (filter : InstructionFilter) :
    ∀ (rest n : ℕ) {T : BitTree Leaf} {i : U40} {fp : Multiset ℕ},
      n + rest ≤ filter.bits.length → Rep t.entries (.index i) T fp →
      coversLoop t filter rest n i.val = .ok (coversCube (cubeFrom filter n rest) T)
  | 0, n, T, i, fp, _, hrep => by
      have hnil : cubeFrom filter n 0 = [] := by simp [cubeFrom]
      have hinner := hrep.index_not_isLeaf
      rw [hnil, coversLoop]
      cases T with
      | leaf a => cases hinner
      | branch zero one => rfl
      | ignore next => rfl
  | rest + 1, n, T, i, fp, hlen, hrep => by
      have hn : n < filter.bits.length := by omega
      have ih : ∀ {child : NodeIndex} {T : BitTree Leaf} {fp : Multiset ℕ},
          Rep t.entries child T fp → ∀ i : U40, child = .index i →
          coversLoop t filter rest (n + 1) i.val =
            .ok (coversCube (cubeFrom filter (n + 1) rest) T) := by
        rintro child T fp h i rfl
        exact coversLoop_spec filter rest (n + 1) (by omega) h
      rw [cubeFrom_succ hn, coversLoop, InstructionFilter.nthBitFromLeft_eq hn]
      obtain _ | ⟨hget, h0, h1⟩ | ⟨hget, h⟩ := hrep
      · rename_i is0 is1 T0 T1 f0 f1
        rw [get_eq hget]
        cases filter.bits[n] with
        | is0 =>
          rw [FilterBit.asBit, coversCube]
          exact coversChild_spec h0 (ih h0)
        | is1 =>
          rw [FilterBit.asBit, coversCube]
          exact coversChild_spec h1 (ih h1)
        | wildcard =>
          cases is0 with
          | leaf a =>
            -- `is_1` plays no role here
            rw [h0.eq_leaf_iff.mp rfl]
            cases a <;> simp [FilterBit.asBit, coversCube] <;> rfl
          | index j =>
            have hzero : T0 ≠ .leaf .skip := by
              rintro rfl
              cases h0.index_not_isLeaf
            simp only [ih h0 j rfl, ok_bind, coversChild_spec h1 (ih h1), FilterBit.asBit,
              coversCube, hzero]
            cases coversCube (cubeFrom filter (n + 1) rest) T0 <;> rfl
      · rw [get_eq hget, coversCube_ignore]
        cases filter.bits[n] <;> exact coversChild_spec h (ih h)

/-- `covers` never panics and decides about the strings that it sees. -/
lemma covers_spec {calls : List Call} (hcalls : ∀ c ∈ calls, c.Adds) (hrun : run calls = .ok t)
    {f : InstructionFilter} (hf : f.data ≠ []) :
    ∃ b, t.covers f = .ok b ∧ (b = true ↔ ∀ s, f.MatchesString s →
      Examines t (realCube f) root s → Walks t root s .skip) := by
  obtain ⟨fp, hrep, -⟩ := (run_spec calls).of_ok hrun
  obtain ⟨r, hr, hcube, hle, hpos, -⟩ := realLen_spec f
  refine ⟨coversCube (realCube f) (runTree calls), ?_, ?_⟩
  · rw [covers, hr, hcube]
    exact coversLoop_spec f r 0 (by omega) hrep
  · have hne : realCube f ≠ [] := realCube_ne_nil hf
    rw [coversCube_iff _ _ (rootNormal_runTree hcalls).childrenNormal fun hnil => absurd hnil hne]
    simp only [SkipsSeen, realCube_matches_iff, hrep.examines_iff, hrep.walks_iff]

/-- After any sequence of `filter` calls, each with a filter of at least one byte, the answer of
`covers` is right if and only if a filter that matches a string outside of the inserted filters
matches one that `covers` sees. -/
theorem covers_correct_iff (fs : Filters) (hfs : ∀ g ∈ fs, g.data ≠ []) (t : FilterTree)
    (hrun : run (fs.map .filter) = .ok t) (f : InstructionFilter) (hf : f.data ≠ []) :
    (∃ b, t.covers f = .ok b ∧
      (b = true ↔ ∀ s, f.MatchesString s → ∃ g ∈ fs, g.MatchesString s)) ↔
    ((∃ s, f.MatchesString s ∧ ¬ ∃ g ∈ fs, g.MatchesString s) →
      ∃ s, f.MatchesString s ∧ (¬ ∃ g ∈ fs, g.MatchesString s) ∧
        Examines t (realCube f) root s) := by
  have hcalls : ∀ c ∈ fs.map Call.filter, c.Adds := by
    intro c hc
    obtain ⟨g, hg, rfl⟩ := List.mem_map.mp hc
    exact hfs g hg
  obtain ⟨b, hb, hiff⟩ := covers_spec hcalls hrun hf
  have hskip : ∀ s, Walks t root s .skip ↔ ∃ g ∈ fs, g.MatchesString s := fun s =>
    ((run_spec _).of_ok hrun).walks_iff.trans (runTree_filter_walk hfs s)
  simp only [hskip] at hiff
  simp only [hb, Except.ok.injEq, exists_eq_left', hiff]
  constructor
  · intro h hex
    by_contra hnone
    obtain ⟨s, hs, hout⟩ := hex
    refine hout (h.mp (fun s hs hseen => ?_) s hs)
    by_contra hout
    exact hnone ⟨s, hs, hout, hseen⟩
  · intro h
    refine ⟨fun hseen => ?_, fun hall s hs _ => hall s hs⟩
    intro s hs
    by_contra hout
    obtain ⟨s', hs', hout', hex⟩ := h ⟨s, hs, hout⟩
    exact hout' (hseen s' hs' hex)

/-- The filter `1_______`. -/
def upperFilter : InstructionFilter := ⟨[⟨0x80, 0x80, rfl⟩], by decide⟩

lemma pad_true_not_halfFilter : ¬ ∃ g ∈ [halfFilter], g.MatchesString (pad [true]) := by
  rintro ⟨g, hg, hm⟩
  rw [List.mem_singleton.mp hg] at hm
  exact absurd (hm 0 (by decide)) (by decide)

/-- The upper half is not covered by the lower one, and the walk of `covers` finds a string that
shows it. -/
theorem covers_correct_upperFilter : ∃ b, halfTree.covers upperFilter = .ok b ∧
    (b = true ↔ ∀ s, upperFilter.MatchesString s → ∃ g ∈ [halfFilter], g.MatchesString s) := by
  refine (covers_correct_iff [halfFilter] (by decide) halfTree rfl upperFilter (by decide)).mpr
    fun _ => ⟨pad [true], fun i hi => ?_, pad_true_not_halfFilter, ?_⟩
  · obtain rfl : i = 0 := Nat.lt_one_iff.mp hi
    exact show (⟨0x80, 0x80, rfl⟩ : ByteFilter).matches ((pad [true]).byteAt 0) = true by decide
  · exact .branch rfl (by decide) (.leaf _ _ _)

/-- With the filter `0_______` inserted, `covers` claims that `_______0` is covered, although
`10000000` is not. -/
theorem covers_evenFilter : run ([halfFilter].map .filter) = .ok halfTree ∧
    halfTree.covers evenFilter = .ok true ∧
    ¬ ∀ s, evenFilter.MatchesString s → ∃ g ∈ [halfFilter], g.MatchesString s := by
  refine ⟨rfl, rfl, fun h => pad_true_not_halfFilter (h (pad [true]) fun i hi => ?_)⟩
  obtain rfl : i = 0 := Nat.lt_one_iff.mp hi
  exact show (⟨0x01, 0x00, rfl⟩ : ByteFilter).matches ((pad [true]).byteAt 0) = true by decide

end LibLisa.FilterTree
