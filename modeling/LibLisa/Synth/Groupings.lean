import LibLisa.Synth.Positions
import LibLisa.Synth.Searcher

/-!
# What the groupings of the finder say

A grouping is good if its expression, when it has one, reproduces every case in its map
(`Grouping.Good`). Splitting on a case keeps that, because the expression is evaluated on the case
(`Grouping.Good.split`). Finding new expressions keeps it for another reason: the position that is
found is set in the bitmaps of all the cases in the map, and the expression that is enumerated up to
this position, compressed and decompressed again, is the one that was matched when the bitmaps were
computed (`Good.updateGroups`).
-/

namespace LibLisa.Synth

open Lib Semantics Utils List ComputationEnumerator GrowingBitmap Except Option

variable {expected : List (Matches × Bool)} {position fuel : ℕ}

/-! ## Rows -/

/-- The position is set in the bitmap of a case. -/
def SetInCase (cases : List FinderCase) (position i : ℕ) : Prop :=
  ∃ case, cases[i]? = some case ∧ case.matched.bitmap.get position = true

/-- A combined row is set only where the rows of all its cases are. -/
def Combines (cases : List FinderCase) (indices : List ℕ) (map : GrowingBitmap) : Prop :=
  ∀ position, map.get position = true → ∀ i ∈ indices, SetInCase cases position i

variable {map : GrowingBitmap} {n : ℕ} {cases : List FinderCase}

lemma chooseIndices_spec {indices indices' : List ℕ} {subset subset' : List GrowingBitmap}
    {map' : GrowingBitmap} (hmap : Combines cases indices map)
    (h : chooseIndices cases n indices subset map = .ok (indices', subset', map')) :
    Combines cases indices' map' := by
  induction n generalizing indices subset map with
  | zero =>
    cases h
    exact hmap
  | succ n ih =>
    unfold chooseIndices at h
    split at h
    · cases h
      exact hmap
    next index _ =>
      obtain ⟨case, hcase, h⟩ := ok_of_bind h
      refine ih (fun position hset i hi => ?_) h
      rw [get_andWith, Bool.and_eq_true] at hset
      rcases mem_append.mp hi with hi | hi
      · exact hmap position hset.1 i hi
      · rw [mem_singleton.mp hi]
        exact ⟨case, eq_some_of_orPanic hcase, hset.2⟩

variable {combined : List (List ℕ × Matches)} {groups : List Grouping}

lemma combineLoop_spec {remaining : List GrowingBitmap} {combined' : List (List ℕ × Matches)}
    (hcombined : ∀ r ∈ combined, Combines cases r.1 r.2.bitmap)
    (h : combineLoop cases fuel remaining combined = .ok combined') :
    ∀ r ∈ combined', Combines cases r.1 r.2.bitmap := by
  induction fuel generalizing remaining combined with
  | zero => cases h
  | succ fuel ih =>
    unfold combineLoop at h
    split at h
    · obtain rfl := ok.inj h
      exact hcombined
    · obtain ⟨first, -, h⟩ := ok_of_bind h
      obtain ⟨⟨indices, subset, map⟩, hchoose, h⟩ := ok_of_bind h
      have hmap : Combines cases indices map :=
        chooseIndices_spec (fun _ _ _ hi => absurd hi not_mem_nil) hchoose
      dsimp only at h
      have hnext : ∀ r ∈ if 0 < subset.length then combined ++ [(indices, Matches.new map)]
          else combined, Combines cases r.1 r.2.bitmap := by
        split
        · exact forall_mem_append.mpr ⟨hcombined, forall_mem_singleton.mpr hmap⟩
        · exact hcombined
      split at h
      · obtain rfl := ok.inj h
        exact hnext
      · exact ih hnext h

lemma combineRows_spec (h : combineRows fuel groups cases = .ok combined) :
    ∀ r ∈ combined, Combines cases r.1 r.2.bitmap := by
  unfold combineRows at h
  split at h
  · exact combineLoop_spec (fun _ hr => absurd hr not_mem_nil) h
  · obtain rfl := ok.inj h
    exact fun _ hr => nomatch hr

lemma foldl_set_spec (indices : List ℕ) {b : GrowingBitmap} (hb : b.Covers) :
    (indices.foldl .set b).Covers ∧
      ∀ i, (indices.foldl .set b).get i = true → b.get i = true ∨ i ∈ indices := by
  refine foldlRecOn (motive := fun c : GrowingBitmap =>
    c.Covers ∧ ∀ i, c.get i → b.get i ∨ i ∈ indices) indices _ ⟨hb, fun _ => .inl⟩
    fun c hc index hindex => ?_
  refine ⟨covers_set hc.1 index, fun i hi => ?_⟩
  rw [get_set hc.1] at hi
  split at hi
  next heq => exact .inr (heq ▸ hindex)
  next => exact hc.2 i hi

/-- A case that counts as matched is one of a combined row that is expected. -/
lemma combinedRows_spec {expected' : List (Matches × Bool)} {already already' : GrowingBitmap}
    (hcovers : already.Covers)
    (h : combinedRows map combined expected already = (expected', already')) :
    (∀ r ∈ expected, r ∈ expected') ∧
      ∀ i, already'.get i = true → already.get i = true ∨
        ∃ r ∈ combined, i ∈ r.1 ∧ (r.2, true) ∈ expected' := by
  induction combined generalizing expected already with
  | nil =>
    obtain ⟨rfl, rfl⟩ := Prod.mk.inj h
    exact ⟨fun _ hr => hr, fun _ hi => .inl hi⟩
  | cons r rest ih =>
    obtain ⟨indices, row⟩ := r
    unfold combinedRows at h
    split at h
    · obtain ⟨hset, hget⟩ := foldl_set_spec indices hcovers
      obtain ⟨hsub, hfound⟩ := ih hset h
      refine ⟨fun r hr => hsub r (mem_append_left _ hr), fun i hi => ?_⟩
      rcases hfound i hi with hbefore | ⟨r, hr, hi⟩
      · rcases hget i hbefore with hold | hnew
        · exact .inl hold
        · exact .inr ⟨_, mem_cons_self, hnew,
            hsub _ (mem_append_right _ (mem_singleton_self _))⟩
      · exact .inr ⟨r, .tail _ hr, hi⟩
    · obtain ⟨hsub, hfound⟩ := ih hcovers h
      refine ⟨hsub, fun i hi => ?_⟩
      rcases hfound i hi with hbefore | ⟨r, hr, hi⟩
      · exact .inl hbefore
      · exact .inr ⟨r, .tail _ hr, hi⟩

/-- A position that matches the rows of a grouping is set in all cases of its map. -/
lemma setInCase_of_expectedRows (hcombined : ∀ r ∈ combined, Combines cases r.1 r.2.bitmap)
    (hmap : map.WellFormed) (hlen : map.len ≤ cases.length)
    (h : MatchesRows (expectedRows combined cases map) position) {i : ℕ} (hi : map.get i = true) :
    SetInCase cases position i := by
  rcases hrows : combinedRows map combined [] .new with ⟨expected, already⟩
  obtain ⟨-, hfound⟩ := combinedRows_spec wellFormed_new.covers hrows
  unfold expectedRows at h
  rw [hrows] at h
  dsimp only at h
  by_cases halready : already.get i = true
  · -- One of the combined rows stands for the case.
    rcases hfound i halready with hnew | ⟨r, hr, hmem, hexpected⟩
    · rw [get_new] at hnew
      cases hnew
    · exact hcombined r hr position (h r.2 (mem_append_left _ hexpected)) i hmem
  · have hlt : i < map.len := hmap.lt_len i hi
    obtain ⟨case, hcase⟩ : ∃ case, cases[i]? = some case := ⟨_, getElem?_eq_getElem (by omega)⟩
    have hzip : (cases.zip map.iter)[i]? = some (case, true) := by
      rw [getElem?_zip_eq_some, getElem?_iter, if_pos hlt, hi]
      exact ⟨hcase, rfl⟩
    refine ⟨case, hcase, h case.matched (mem_append_right _ (mem_map.mpr
      ⟨((case, true), i), mem_filter.mpr ⟨?_, by simpa using halready⟩, rfl⟩))⟩
    apply mem_of_getElem?
    rw [getElem?_zipIdx, hzip, map_some, Nat.zero_add]

/-! ## The items of the enumeration -/

/-- The enumerator after a number of items that were all found. -/
inductive Reached (start : ComputationEnumerator) : ℕ → ComputationEnumerator → Prop
  | zero : Reached start 0 start
  | succ {n : ℕ} {e e' : ComputationEnumerator} (before : Reached start n e)
      (h : e.findNext = .ok (true, e')) : Reached start (n + 1) e'

variable {start e : ComputationEnumerator}
  {exprs : List (ℕ × CompressedIterComputation × CompressedIterComputation)}
  {e' : ComputationEnumerator} {case : FinderCase} {b : Bool}

lemma skip_add {m : ℕ} (hm : start.skip m = .ok e) (hn : e.skip n = .ok e') :
    start.skip (m + n) = .ok e' := by
  induction m generalizing start with
  | zero =>
    obtain rfl := ok.inj hm
    rw [Nat.zero_add]
    exact hn
  | succ m ih =>
    obtain ⟨⟨b, next⟩, hnext, hm⟩ := ok_of_bind hm
    rw [Nat.succ_add, skip, hnext, ok_bind]
    exact ih hm

lemma skip_succ {found : Bool} (hskip : start.skip n = .ok e) (h : e.findNext = .ok (found, e')) :
    start.skip (n + 1) = .ok e' :=
  skip_add hskip (by rw [skip, h]; rfl)

namespace Reached

lemma skip (h : Reached start n e) : start.skip n = .ok e := by
  induction h with
  | zero => rfl
  | succ _ hnext ih => exact skip_succ ih hnext

lemma same (h : Reached start n e) : start.Same e := by
  induction h with
  | zero => exact .refl start
  | succ _ hnext ih => exact ih.trans (same_findNext hnext)

lemma inRange (h : Reached start n e) (hr : start.InRange) :
    e.InRange ∧ e.templates = start.templates := by
  induction h with
  | zero => exact ⟨hr, rfl⟩
  | succ _ hnext ih =>
    obtain ⟨hr', htemplates⟩ := inRange_findNext ih.1 hnext
    exact ⟨hr', htemplates.trans ih.2⟩

end Reached

/-- The encoding of the expression at a position. -/
def positionEncoding (useEndianness : Bool) (position : ℕ) : OutputEncoding :=
  if useEndianness = true ∧ position % 2 = 1 then .unsignedLittleEndian else .unsignedBigEndian

/-- The result of a comparison in an encoding. -/
def CompareResult.inEncoding (r : CompareResult) : OutputEncoding → Bool
  | .unsignedLittleEndian => r.littleEndian
  | .unsignedBigEndian => r.bigEndian

/-- The item matches a case in an encoding. -/
def IterItemComputation.MatchesCase (item : IterItemComputation) (case : FinderCase)
    (encoding : OutputEncoding) : Prop :=
  ∃ r, item.preparedCompareEqWithArgsIndirect case.args case.comparison = .ok r ∧
    CompareResult.inEncoding r encoding = true

/-- The expression at a position matches a case. -/
def MatchesAt (start : ComputationEnumerator) (useEndianness : Bool) (case : FinderCase)
    (position : ℕ) : Prop :=
  ∃ e item, Reached start (exprIndex useEndianness position + 1) e ∧ e.current = .ok item ∧
    item.MatchesCase case (positionEncoding useEndianness position)

/-- The first position of the expression with an index. -/
def basePosition (useEndianness : Bool) (n : ℕ) : ℕ := if useEndianness then 2 * n else n

lemma set_spec {result : GrowingBitmap} (hwf : result.WellFormed) {p : ℕ → Prop}
    (hresult : ∀ i, result.get i = true → p i) (hn : b = true → p n) :
    (if b then result.set n else result).WellFormed ∧
      ∀ i, (if b then result.set n else result).get i = true → p i := by
  split
  next hb =>
    refine ⟨hwf.set n, fun i hi => ?_⟩
    rw [get_set hwf.covers] at hi
    split at hi
    next heq => exact heq ▸ hn hb
    next => exact hresult i hi
  next => exact ⟨hwf, hresult⟩

/-- A bit that is set in the bitmap of a case is the position of an expression that matches. -/
lemma matchLoop_spec {useEndianness : Bool} {result bitmap : GrowingBitmap}
    (he : Reached start n e) (hwf : result.WellFormed)
    (hresult : ∀ i, result.get i = true → MatchesAt start useEndianness case i)
    (h : BitmapMcsExpressionFinder.matchLoop useEndianness case fuel e
      (basePosition useEndianness n) result = .ok bitmap) :
    ∀ i, bitmap.get i = true → MatchesAt start useEndianness case i := by
  induction fuel generalizing n e result with
  | zero => cases h
  | succ fuel ih =>
    obtain ⟨⟨found, e'⟩, hnext, h⟩ := ok_of_bind h
    dsimp only at h
    split at h
    next hfound =>
      obtain rfl := hfound
      obtain ⟨item, r, hitem, hr, h⟩ := ok_of_bind₂ h
      have he' := he.succ hnext
      rcases useEndianness with _ | _
      · have hbig : r.bigEndian = true → MatchesAt start false case (basePosition false n) :=
          fun hr' => ⟨e', item, he', hitem, r, hr, hr'⟩
        obtain ⟨hwf', hresult'⟩ := set_spec hwf hresult hbig
        exact ih he' hwf' hresult' h
      · have hindex : exprIndex true (2 * n) = n := Nat.mul_div_cancel_left n (by decide)
        have hindex' : exprIndex true (2 * n + 1) = n := by
          show (2 * n + 1) / 2 = n
          omega
        have hbig : r.bigEndian = true → MatchesAt start true case (2 * n) := by
          intro hr'
          refine ⟨e', item, hindex.symm ▸ he', hitem, r, hr, ?_⟩
          rw [positionEncoding, if_neg (by omega)]
          exact hr'
        have hlittle : r.littleEndian = true → MatchesAt start true case (2 * n + 1) := by
          intro hr'
          refine ⟨e', item, hindex'.symm ▸ he', hitem, r, hr, ?_⟩
          rw [positionEncoding, if_pos ⟨rfl, by omega⟩]
          exact hr'
        obtain ⟨hwf', hresult'⟩ := set_spec hwf hresult hbig
        obtain ⟨hwf'', hresult''⟩ := set_spec hwf' hresult' hlittle
        exact ih he' hwf'' hresult'' h
    · obtain rfl := ok.inj h
      exact hresult

lemma collectExprs_spec {indices : List ℕ} {lastIndex : ℕ}
    (hlast : start.skip lastIndex = .ok e) (h : collectExprs e indices lastIndex = .ok exprs) :
    ∀ x ∈ exprs, ∃ e' item, start.skip (x.1 + 1) = .ok e' ∧ e'.current = .ok item ∧
      item.compress .unsignedBigEndian = .ok x.2.1 ∧
      item.compress .unsignedLittleEndian = .ok x.2.2 := by
  induction indices generalizing e lastIndex exprs with
  | nil =>
    obtain rfl := ok.inj h
    exact fun _ hx => nomatch hx
  | cons index indices ih =>
    unfold collectExprs at h
    split at h
    · cases h
    next hle =>
      obtain ⟨e₁, he₁, h⟩ := ok_of_bind h
      obtain ⟨⟨found, e₂⟩, hnext, h⟩ := ok_of_bind h
      dsimp only at h
      split at h
      · cases h
      · obtain ⟨item, big, hitem, hbig, h⟩ := ok_of_bind₂ h
        obtain ⟨little, rest, hlittle, hrest, rfl⟩ := ok_of_bind₂_ok h
        have hindex : start.skip index = .ok e₁ := by
          rw [show index = lastIndex + (index - lastIndex) by omega]
          exact skip_add hlast he₁
        have hafter := skip_succ hindex hnext
        intro x hx
        rcases mem_cons.mp hx with rfl | hx
        · exact ⟨e₂, item, hafter, hitem, hbig, hlittle⟩
        · exact ih hafter hrest x hx

/-! ## Expressions that reproduce a case -/

/-- The compressed expression reproduces a case. -/
def CompressedIterComputation.Explains (c : CompressedIterComputation) (e : ComputationEnumerator)
    (case : FinderCase) : Prop :=
  ∀ u, c.decompress e = .ok u →
    u.preparedCompareEqWithArgsIndirect case.args case.comparison = .ok true

/-- An item that matched a case still reproduces it after it was compressed. -/
lemma explains_of_compress (hrange : start.InRange) (hfits : start.FitsCompressed)
    (he : Reached start n e) {item : IterItemComputation} (hitem : e.current = .ok item)
    {encoding : OutputEncoding} (hmatch : item.MatchesCase case encoding)
    {c : CompressedIterComputation} (hc : item.compress encoding = .ok c) :
    c.Explains start case := by
  intro u hu
  obtain ⟨it, hit, rfl⟩ := ok_of_bind_ok hitem
  obtain ⟨hrange', htemplates⟩ := he.inRange hrange
  have hin := (hrange'.inner it (eq_some_of_orPanic hit)).1
  obtain ⟨htemplate, henum, hargs, hencoding⟩ :=
    decompress_compress hin hfits htemplates he.same.args_eq hc hu
  obtain ⟨r, hr, htrue⟩ := hmatch
  obtain ⟨x, hx, hr⟩ := ok_of_bind hr
  unfold UncompressedIterComputation.preparedCompareEqWithArgsIndirect
  rw [hargs, ok_bind]
  have hle : ¬ maxTemplateArgs < it.counter.length := Nat.not_lt.mpr hin.length_le
  show (if maxTemplateArgs < it.counter.length then _ else _) = _
  rw [if_neg hle, htemplate, henum, hencoding]
  show (it.template.expr.evaluateIndirect case.args it.counter >>= _) = _
  have hx' : it.template.expr.evaluateIndirect case.args it.counter = .ok x := hx
  rw [hx', ok_bind, ← he.same.internalOutputType_eq]
  have hr' : case.comparison.compareDual e.internalOutputType x = .ok r := hr
  rw [hr', ok_bind]
  rcases encoding with _ | _
  · exact congrArg ok htrue
  · exact congrArg ok htrue

/-- The expression of a grouping, if it has one, reproduces the cases of its map, which are among
the first `k`. -/
structure Grouping.Good (e : ComputationEnumerator) (cases : List FinderCase) (k : ℕ)
    (g : Grouping) : Prop where
  wellFormed : g.map.WellFormed
  len_le : g.map.len ≤ k
  explains : ∀ c ∈ g.current, ∀ i, g.map.get i = true → ∀ case, cases[i]? = some case →
    c.Explains e case

namespace Grouping

variable {k : ℕ} {g g' : Grouping}

lemma Good.mono (hg : g.Good e cases k) {k' : ℕ} (hk : k ≤ k') : g.Good e cases k' :=
  ⟨hg.wellFormed, Nat.le_trans hg.len_le hk, hg.explains⟩

/-- More cases at the end do not matter to a good grouping. -/
lemma Good.append (hg : g.Good e cases k) (hk : k ≤ cases.length) (more : List FinderCase) :
    g.Good e (cases ++ more) k := by
  refine ⟨hg.wellFormed, hg.len_le, fun c hc i hi case hcase => ?_⟩
  have hlt := hg.wellFormed.lt_len i hi
  have hle := hg.len_le
  rw [getElem?_append_left (by omega)] at hcase
  exact hg.explains c hc i hi case hcase

/-- The bitmap of a case does not matter to a good grouping. -/
lemma Good.set (hg : g.Good e cases k) {index : ℕ} (hcase : cases[index]? = some case)
    (matched : Matches) : g.Good e (cases.set index { case with matched }) k := by
  refine ⟨hg.wellFormed, hg.len_le, fun c hc i hi other hother => ?_⟩
  rw [getElem?_set] at hother
  split at hother
  next heq =>
    split at hother
    · obtain rfl := some.inj hother
      exact hg.explains c hc i hi case (heq ▸ hcase)
    · cases hother
  next => exact hg.explains c hc i hi other hother

lemma matchesCase_spec (h : g.matchesCase e case = .ok b) (hb : b = true) :
    ∀ c ∈ g.current, c.Explains e case := by
  unfold matchesCase at h
  split at h
  next c hc =>
    obtain ⟨u, hu, h⟩ := ok_of_bind h
    intro c' hc' u' hu'
    obtain rfl := mem_unique hc hc'
    obtain rfl := ok_unique hu hu'
    rw [← hb]
    exact h
  next hnone =>
    rw [hnone]
    exact nofun

/-- Both groupings that a grouping is split into are good. -/
theorem Good.split (hg : g.Good e cases k) (hcase : cases[k]? = some case) {old new : Grouping}
    (h : g.split e k case = .ok (old, new)) :
    old.Good e cases (k + 1) ∧ new.Good e cases (k + 1) := by
  have hwf := hg.wellFormed.reset k
  have hwf' := hwf.set k
  have hlen : (g.map.reset k).len ≤ k + 1 := by
    rw [len_reset]
    have := hg.len_le
    omega
  have hlen' : ((g.map.reset k).set k).len ≤ k + 1 := by
    rw [len_set]
    omega
  have hreset : ∀ i, (g.map.reset k).get i = true → g.map.get i = true := by
    intro i hi
    rw [get_reset hg.wellFormed.covers] at hi
    split at hi
    · cases hi
    · exact hi
  obtain ⟨b, hb, h⟩ := ok_of_bind h
  split at h
  next htrue =>
    obtain ⟨rfl, rfl⟩ := ok_pair_inj h
    refine ⟨⟨hwf, hlen, nofun⟩, ⟨hwf', hlen', fun c hc i hi other hother => ?_⟩⟩
    rw [get_set hwf.covers] at hi
    split at hi
    next heq =>
      rw [heq, hcase] at hother
      obtain rfl := some.inj hother
      exact matchesCase_spec hb htrue c hc
    next => exact hg.explains c hc i (hreset i hi) other hother
  next =>
    obtain ⟨rfl, rfl⟩ := ok_pair_inj h
    exact ⟨⟨hwf, hlen, fun c hc i hi => hg.explains c hc i (hreset i hi)⟩, ⟨hwf', hlen', nofun⟩⟩

lemma Good.splitGroupsOnCase {old new : List Grouping} (hg : ∀ g ∈ groups, g.Good e cases k)
    (hcase : cases[k]? = some case) (h : splitGroupsOnCase groups e k case = .ok (old, new)) :
    ∀ g ∈ old ++ new, g.Good e cases (k + 1) := by
  obtain ⟨pairs, hpairs, h⟩ := ok_of_bind h
  obtain ⟨rfl, rfl⟩ := ok_pair_inj h
  have hall : ∀ x ∈ pairs, x.1.Good e cases (k + 1) ∧ x.2.Good e cases (k + 1) := by
    intro x hx
    obtain ⟨g, hmem, hsplit⟩ := (mem_iff_of_mapM hpairs).mp hx
    exact (hg g hmem).split hcase hsplit
  simp only [forall_mem_append, List.forall_mem_map]
  exact ⟨fun x hx => (hall x hx).1, fun x hx => (hall x hx).2⟩

/-! ## New expressions -/

/-- The position of a grouping without an expression is one of an expression that matches all cases
of the map. -/
def Placed (cases : List FinderCase) (g : Grouping) : Prop :=
  g.current = none → ∀ i, g.map.get i = true → SetInCase cases g.position i

lemma Good.place (hg : g.Good e cases k) (hk : k ≤ cases.length)
    (hcombined : ∀ r ∈ combined, Combines (cases.take k) r.1 r.2.bitmap)
    (h : g.place fuel combined (cases.take k) = .ok (some g')) :
    g'.Good e cases k ∧ g'.Placed (cases.take k) := by
  unfold Grouping.place at h
  split at h
  next c hc =>
    obtain rfl := some.inj (ok.inj h)
    exact ⟨hg, fun hnone => absurd (hc.symm.trans hnone) nofun⟩
  next hnone =>
    obtain ⟨found, hfound, h⟩ := ok_of_bind h
    split at h
    · obtain rfl := some.inj (ok.inj h)
      have hrows := findPositionMatching_spec hfound
      have hlen : g.map.len ≤ (cases.take k).length := by
        rw [length_take]
        have := hg.len_le
        omega
      exact ⟨⟨hg.wellFormed, hg.len_le, hg.explains⟩,
        fun _ i hi => setInCase_of_expectedRows hcombined hg.wellFormed hlen hrows hi⟩
    · cases h

lemma mem_of_lookup_eq_some {β : Type} {n : ℕ} {v : β} {l : List (ℕ × β)}
    (h : l.lookup n = some v) : (n, v) ∈ l := by
  obtain ⟨l₁, l₂, rfl, -⟩ := lookup_eq_some_iff.mp h
  simp

/-- The bits of the first `k` bitmaps are positions of expressions that match. -/
def BitmapsOk (e : ComputationEnumerator) (useEndianness : Bool) (cases : List FinderCase) (k : ℕ) :
    Prop :=
  ∀ i < k, ∀ case, cases[i]? = some case → ∀ position,
    case.matched.bitmap.get position = true → MatchesAt e useEndianness case position

variable {useEndianness : Bool}

/-- The bitmap of one more case. -/
lemma BitmapsOk.set (hb : BitmapsOk e useEndianness cases k) {bitmap : GrowingBitmap}
    (h : ∀ position, bitmap.get position = true → MatchesAt e useEndianness case position) :
    BitmapsOk e useEndianness (cases.set k { case with matched := .new bitmap }) (k + 1) := by
  intro i hi other hother
  rw [getElem?_set] at hother
  split at hother
  · split at hother
    · obtain rfl := some.inj hother
      exact h
    · cases hother
  next hne => exact hb i (by omega) other hother

lemma Good.assign (hrange : e.InRange) (hfits : e.FitsCompressed)
    (hbitmaps : BitmapsOk e useEndianness cases k) (hg : g.Good e cases k)
    (hplaced : g.Placed (cases.take k))
    (hexprs : ∀ x ∈ exprs, ∃ e' item, e.skip (x.1 + 1) = .ok e' ∧ e'.current = .ok item ∧
      item.compress .unsignedBigEndian = .ok x.2.1 ∧
      item.compress .unsignedLittleEndian = .ok x.2.2) (h : g.assign useEndianness exprs = .ok g') :
    g'.Good e cases k := by
  unfold Grouping.assign at h
  split at h
  · obtain rfl := ok.inj h
    exact hg
  next hnone =>
    obtain ⟨⟨big, little⟩, hlookup, rfl⟩ := ok_of_bind_ok h
    obtain ⟨e', item, hskip, hitem, hbig, hlittle⟩ :=
      hexprs _ (mem_of_lookup_eq_some (eq_some_of_orPanic hlookup))
    have hcompress : item.compress (positionEncoding useEndianness g.position) =
        .ok (if useEndianness = true ∧ g.position % 2 = 1 then little else big) := by
      unfold positionEncoding
      split
      · exact hlittle
      · exact hbig
    refine ⟨hg.wellFormed, hg.len_le, ?_⟩
    rintro _ ⟨⟩ i hi case hcase
    have hlt : i < k := Nat.lt_of_lt_of_le (hg.wellFormed.lt_len i hi) hg.len_le
    obtain ⟨case', hcase', hset⟩ := hplaced hnone i hi
    rw [getElem?_take_of_lt hlt, hcase] at hcase'
    obtain rfl := some.inj hcase'
    obtain ⟨e'', item', hreached, hitem', hmatch⟩ := hbitmaps i hlt case hcase _ hset
    -- The enumeration is the same both times.
    obtain rfl := ok_unique hskip hreached.skip
    obtain rfl := ok_unique hitem hitem'
    exact explains_of_compress hrange hfits hreached hitem hmatch hcompress

/-- Finding new expressions keeps the groupings good. -/
theorem Good.updateGroups (hrange : e.InRange) (hfits : e.FitsCompressed) (hk : k ≤ cases.length)
    (hbitmaps : BitmapsOk e useEndianness cases k) {groups' : List Grouping}
    (hg : ∀ g ∈ groups, g.Good e cases k)
    (h : updateGroups fuel useEndianness e groups (cases.take k) = .ok groups') :
    ∀ g ∈ groups', g.Good e cases k := by
  unfold Synth.updateGroups at h
  split at h
  · obtain rfl := ok.inj h
    exact hg
  · obtain ⟨combined, placed, hcombined, hplaced, h⟩ := ok_of_bind₂ h
    obtain ⟨exprs, hexprs, h⟩ := ok_of_bind h
    intro g' hg'
    obtain ⟨g, hmem, hassign⟩ := (mem_iff_of_mapM h).mp hg'
    obtain ⟨x, hx, rfl⟩ := mem_filterMap.mp hmem
    obtain ⟨g₀, hmem₀, hplace⟩ := (mem_iff_of_mapM hplaced).mp hx
    obtain ⟨hgood, hposition⟩ := (hg g₀ hmem₀).place hk (combineRows_spec hcombined) hplace
    exact hgood.assign hrange hfits hbitmaps hposition (collectExprs_spec rfl hexprs) hassign

end Grouping

end LibLisa.Synth
