import LibLisa.Synth.BitmapMcs

/-!
# The position that a row search finds

`find_position_matching` looks for the first position at which every bitmap has its expected bit. It
goes over the words that all bitmaps have, and skips those in which a bitmap with a set bit expected
is zero.

A position that is found is expected to match (`findPositionMatching_spec`). The search ends, and
what it finds is the first match within those words (`findPositionMatching_isFirst`). A bitmap that
ends there and is expected to be unset has further matches behind its end. They are not looked at, so
the result is the first match if and only if there is none, or one within the words of the shortest
bitmap, or a single bitmap (`isFirst_findPositionMatching_iff`).
-/

namespace LibLisa.Synth

open Lib Utils Utils.GrowingBitmap List Except

/-- The position is set in every row that is expected to be. -/
def MatchesRows (expected : List (Matches × Bool)) (position : ℕ) : Prop :=
  ∀ row, (row, true) ∈ expected → row.bitmap.get position = true

/-- The position has the expected bit in every row. -/
def HasExpected (expected : List (Matches × Bool)) (position : ℕ) : Prop :=
  ∀ row ∈ expected, row.1.bitmap.get position = row.2

variable {expected : List (Matches × Bool)} {offset position fuel : ℕ} {ones : List GrowingBitmap}
  {w : U64} {start : ℕ}

lemma HasExpected.matchesRows (h : HasExpected expected position) :
    MatchesRows expected position := fun row hrow => h (row, true) hrow

/-! ## The words of a row -/

lemma get_word (b : GrowingBitmap) (hw : b.data[offset]? = some w) {i : ℕ} (hi : i < 64) :
    b.get (offset * 64 + i) = w.getLsbD i := by
  unfold GrowingBitmap.get
  rw [show (offset * 64 + i) / 64 = offset by omega, show (offset * 64 + i) % 64 = i by omega, hw]
  rfl

/-- The bits of the word are the positions that match. -/
lemma matchingWord_spec (h : matchingWord offset expected = .ok w) {i : ℕ} (hi : i < 64) :
    w.getLsbD i = true ↔ HasExpected expected (offset * 64 + i) := by
  induction expected generalizing w with
  | nil =>
    obtain rfl := ok.inj h
    refine iff_of_true ?_ fun row hrow => absurd hrow not_mem_nil
    rw [BitVec.getLsbD_allOnes, decide_eq_true hi]
  | cons row rest ih =>
    obtain ⟨word, others, hword, hothers, rfl⟩ := ok_of_bind₂_ok h
    have hget := get_word row.1.bitmap (eq_some_of_orPanic hword) hi
    rw [BitVec.getLsbD_and, Bool.and_eq_true, ih hothers, HasExpected, HasExpected, forall_mem_cons,
      hget]
    cases row.2 <;> simp [hi]

lemma exists_matchingWord (h : ∀ row ∈ expected, offset < row.1.bitmap.data.length) :
    ∃ w, matchingWord offset expected = .ok w := by
  induction expected with
  | nil => exact ⟨_, rfl⟩
  | cons row rest ih =>
    obtain ⟨others, hothers⟩ := ih fun row hrow => h row (mem_cons_of_mem _ hrow)
    have hword := getElem?_eq_getElem (h row mem_cons_self)
    exact ⟨_, by rw [matchingWord, hword, hothers]; rfl⟩

/-! ## A position that is found matches -/

lemma hasExpected_of_word {w w' : U64} (h : matchingWord offset expected = .ok w)
    (hne : w' ≠ 0) (hsub : ∀ i, w'.getLsbD i = true → w.getLsbD i = true) :
    HasExpected expected (offset * 64 + w'.ctz.toNat) :=
  (matchingWord_spec h (ctz_lt hne)).mp (hsub _ (BitVec.getLsbD_true_ctz_of_ne_zero hne))

lemma searchWords_spec {offsetEnd rounds : ℕ}
    (h : searchWords expected ones offsetEnd fuel rounds offset = .ok (some position)) :
    HasExpected expected position := by
  induction rounds generalizing offset with
  | zero => cases h
  | succ rounds ih =>
    unfold searchWords at h
    split at h
    · obtain ⟨found, -, h⟩ := ok_of_bind h
      split at h
      · cases h
      · split at h
        · cases h
        · obtain ⟨w, hw, h⟩ := ok_of_bind h
          split at h
          · exact ih h
          next hne =>
            obtain rfl := Option.some.inj (ok.inj h)
            exact hasExpected_of_word hw hne fun _ hi => hi
    · cases h

lemma searchFirstWord_spec (h : searchFirstWord expected ones start = .ok (.inl position)) :
    HasExpected expected position := by
  unfold searchFirstWord at h
  dsimp only at h
  split at h
  · obtain ⟨w, hw, h⟩ := ok_of_bind h
    split at h
    · cases h
    next hne =>
      obtain rfl := Sum.inl.inj (ok.inj h)
      refine hasExpected_of_word hw hne fun i hi => ?_
      rw [BitVec.getLsbD_and, Bool.and_eq_true] at hi
      exact hi.1
  · cases h

/-- A position that is found has the expected bits. -/
lemma findPositionMatching_spec
    (h : findPositionMatching fuel start expected = .ok (some position)) :
    MatchesRows expected position := by
  unfold findPositionMatching at h
  split at h
  · cases h
  next row =>
    have hfirst := row.bitmap.firstBitSetFrom_spec start
    rw [ok.inj h] at hfirst
    intro row' hrow
    obtain ⟨rfl, -⟩ := Prod.mk.inj (mem_singleton.mp hrow)
    exact hfirst.2.1
  · intro row hrow
    cases (Prod.mk.inj (mem_singleton.mp hrow)).2
  · dsimp only at h
    split at h
    · cases h
    · obtain ⟨found, hfound, h⟩ := ok_of_bind h
      split at h
      · obtain rfl := Option.some.inj (ok.inj h)
        exact (searchFirstWord_spec hfound).matchesRows
      · exact (searchWords_spec h).matchesRows

/-! ## The first position -/

section Rows

/-- The position is set in all rows. -/
def SetInAll (rows : List GrowingBitmap) (position : ℕ) : Prop := ∀ row ∈ rows, row.get position = true

/-- What one pass over the rows says about the positions that are set in all of them. -/
def ScanResult (rows : List GrowingBitmap) (index : ℕ) : Option (ℕ × Bool) → Prop
  | none => ∀ m, index ≤ m → ¬SetInAll rows m
  | some (i, true) => index < i ∧ (∃ row ∈ rows, row.get i = true) ∧
      ∀ m, index ≤ m → m < i → ¬SetInAll rows m
  | some (i, false) => i = index ∧ SetInAll rows index

variable {rows : List GrowingBitmap} {index : ℕ}

lemma ScanResult.cons {r : Option (ℕ × Bool)} (h : ScanResult rows index r) {row : GrowingBitmap}
    (hrow : row.get index = true) : ScanResult (row :: rows) index r := by
  have hrest : ∀ m, SetInAll (row :: rows) m → SetInAll rows m := fun m hm =>
    (forall_mem_cons.mp hm).2
  rcases r with _ | ⟨i, _ | _⟩
  · exact fun m hm hset => h m hm (hrest m hset)
  · exact ⟨h.1, forall_mem_cons.mpr ⟨hrow, h.2⟩⟩
  · obtain ⟨hlt, ⟨other, hother, hset⟩, hskip⟩ := h
    exact ⟨hlt, ⟨other, mem_cons_of_mem _ hother, hset⟩, fun m hm hmi hset =>
      hskip m hm hmi (hrest m hset)⟩

lemma scanRows_spec (rows : List GrowingBitmap) (index : ℕ) :
    ScanResult rows index (scanRows rows index) := by
  induction rows with
  | nil => exact ⟨rfl, fun row hrow => absurd hrow not_mem_nil⟩
  | cons row rows ih =>
    have hfirst := row.firstBitSetFrom_spec index
    unfold scanRows
    generalize row.firstBitSetFrom index = r at hfirst
    rcases r with _ | i
    · exact fun m hm hset => hfirst m hm (hset row mem_cons_self)
    · obtain ⟨hle, hset, hleast⟩ := hfirst
      dsimp only
      split
      next heq => exact ih.cons (heq ▸ hset)
      next hne =>
        refine ⟨Nat.lt_of_le_of_ne hle (Ne.symm hne), ⟨row, mem_cons_self, hset⟩, ?_⟩
        intro m hm hmi hall
        exact Nat.not_le.mpr hmi (hleast m hm (hall row mem_cons_self))

/-- The search over several bitmaps ends at the first position that is set in all of them. -/
lemma findPositionMatchingBitmaps_isFirst {bound : ℕ} (index fuel : ℕ)
    (hbound : ∀ row ∈ rows, ∀ i, row.get i = true → i < bound) (hfuel : bound < index + fuel)
    (hpos : 0 < fuel) :
    ∃ r, findPositionMatchingBitmaps rows fuel index = .ok r ∧ IsFirst (SetInAll rows) index r := by
  induction fuel generalizing index with
  | zero => cases hpos
  | succ fuel ih =>
    have hscan := scanRows_spec rows index
    unfold findPositionMatchingBitmaps
    generalize scanRows rows index = r at hscan
    rcases r with _ | ⟨i, _ | _⟩
    · exact ⟨none, rfl, hscan⟩
    · obtain ⟨rfl, hall⟩ := hscan
      exact ⟨some i, if_pos (all_eq_true.mpr hall), Nat.le_refl _, hall, fun m hm _ => hm⟩
    · obtain ⟨hlt, ⟨row, hrow, hset⟩, hskip⟩ := hscan
      have := hbound row hrow i hset
      obtain ⟨r, hr, hfirst⟩ := ih i (by omega) (by omega)
      exact ⟨r, hr, hfirst.of_le (Nat.le_of_lt hlt) hskip⟩

end Rows

section Words

/-- A match within the words before `offsetEnd`. -/
def MatchesBefore (expected : List (Matches × Bool)) (offsetEnd position : ℕ) : Prop :=
  HasExpected expected position ∧ position / 64 < offsetEnd

/-- All rows have the words before `offsetEnd`, and `ones` are bitmaps of words, with a word for each
match and none from `bound` on. -/
structure Searches (expected : List (Matches × Bool)) (ones : List GrowingBitmap)
    (offsetEnd bound : ℕ) : Prop where
  lt_length : ∀ offset < offsetEnd, ∀ row ∈ expected, offset < row.1.bitmap.data.length
  setInAll : ∀ position, HasExpected expected position → SetInAll ones (position / 64)
  lt_bound : ∀ row ∈ ones, ∀ i, row.get i = true → i < bound

variable {offsetEnd bound : ℕ}

section

variable (h : Searches expected ones offsetEnd bound)
include h

/-- The search in one word, of which the bits before the start are masked. -/
lemma Searches.word (hlt : offset < offsetEnd) (hstart : offset * 64 ≤ start) :
    ∃ w, matchingWord offset expected = .ok w ∧ ∀ w' : U64,
      (∀ i < 64, w'.getLsbD i = true ↔ start ≤ offset * 64 + i ∧ w.getLsbD i = true) →
      (w' = 0 → ∀ m, start ≤ m → m < (offset + 1) * 64 → ¬MatchesBefore expected offsetEnd m) ∧
        (w' ≠ 0 → IsFirst (MatchesBefore expected offsetEnd) start
          (some (offset * 64 + w'.ctz.toNat))) := by
  obtain ⟨w, hw⟩ := exists_matchingWord (h.lt_length offset hlt)
  refine ⟨w, hw, fun w' hw' => isFirst_word hstart fun i hi => ?_⟩
  rw [hw' i hi, matchingWord_spec hw hi, MatchesBefore, show (offset * 64 + i) / 64 = offset by omega]
  simp [hlt]

lemma Searches.searchWords (hfuel : bound < fuel)
    (rounds offset : ℕ) (hrounds : offsetEnd < offset + rounds) (hpos : 0 < rounds) :
    ∃ r, searchWords expected ones offsetEnd fuel rounds offset = .ok r ∧
      IsFirst (MatchesBefore expected offsetEnd) (offset * 64) r := by
  induction rounds generalizing offset with
  | zero => cases hpos
  | succ rounds ih =>
    unfold LibLisa.Synth.searchWords
    by_cases hlt : offset < offsetEnd
    · obtain ⟨found, hfound, hfirst⟩ :=
        findPositionMatchingBitmaps_isFirst offset fuel h.lt_bound (by omega) (by omega)
      rw [if_pos hlt, hfound, ok_bind]
      rcases found with _ | newOffset
      · refine ⟨none, rfl, fun m hm hmatch => ?_⟩
        exact hfirst (m / 64) (by omega) (h.setInAll m hmatch.1)
      · obtain ⟨hle, -, hleast⟩ := hfirst
        -- The words that are skipped have no match.
        have hskip : ∀ m, offset * 64 ≤ m → m < newOffset * 64 →
            ¬MatchesBefore expected offsetEnd m := by
          intro m hm hlt hmatch
          have := hleast (m / 64) (by omega) (h.setInAll m hmatch.1)
          omega
        dsimp only
        split
        next hend =>
          refine ⟨none, rfl, fun m hm hmatch => hskip m hm ?_ hmatch⟩
          have := hmatch.2
          omega
        · obtain ⟨w, hw, hword⟩ := h.word (by omega) (Nat.le_refl (newOffset * 64))
          obtain ⟨hzero, hne⟩ := hword w fun i _ => by simp
          rw [hw, ok_bind]
          split
          next heq =>
            obtain ⟨r, hr, hrest⟩ := ih (newOffset + 1) (by omega) (by omega)
            exact ⟨r, hr, (hrest.of_le (by omega) (hzero heq)).of_le (by omega) hskip⟩
          next hw => exact ⟨_, rfl, (hne hw).of_le (by omega) hskip⟩
    · rw [if_neg hlt]
      refine ⟨none, rfl, fun m hm hmatch => ?_⟩
      have := hmatch.2
      omega

lemma Searches.searchFirstWord (hlt : start / 64 < offsetEnd) :
    ∃ x, searchFirstWord expected ones start = .ok x ∧
      (∀ p, x = .inl p → IsFirst (MatchesBefore expected offsetEnd) start (some p)) ∧
      ∀ o, x = .inr o → start / 64 ≤ o ∧ ∀ r,
        IsFirst (MatchesBefore expected offsetEnd) (o * 64) r →
        IsFirst (MatchesBefore expected offsetEnd) start r := by
  have hstart := Nat.div_mul_le_self start 64
  unfold LibLisa.Synth.searchFirstWord
  dsimp only
  split
  next hcond =>
    obtain ⟨w, hw, hword⟩ := h.word hlt hstart
    obtain ⟨hzero, hne⟩ := hword (w &&& ~~~(Utils.bitmaskU64 (start % 64))) fun i hi => by
      have hmask : start ≤ start / 64 * 64 + i ↔ ¬i < start % 64 := by omega
      rw [BitVec.getLsbD_and, BitVec.getLsbD_not, getLsbD_bitmaskU64 (by omega), hmask]
      simp [hi, and_comm]
    rw [hw, ok_bind]
    split
    next heq =>
      refine ⟨_, rfl, fun p hp => (by cases hp), fun o ho => ?_⟩
      obtain rfl := Sum.inr.inj ho
      exact ⟨Nat.le_succ _, fun r hr => hr.of_le (by omega) (hzero heq)⟩
    next hw =>
      refine ⟨_, rfl, fun p hp => ?_, fun o ho => (by cases ho)⟩
      obtain rfl := Sum.inl.inj hp
      exact hne hw
  next hcond =>
    refine ⟨_, rfl, fun p hp => (by cases hp), fun o ho => ?_⟩
    obtain rfl := Sum.inr.inj ho
    refine ⟨Nat.le_refl _, fun r hr => hr.of_and hstart fun m hm => ⟨fun hmatch => ⟨?_, hmatch⟩, And.right⟩⟩
    -- Either the word begins with the start, or no position in it matches.
    by_contra hm'
    have hones := h.setInAll m hmatch.1
    rw [show m / 64 = start / 64 by omega] at hones
    exact hcond ⟨by omega, all_eq_true.mpr hones⟩

end

/-- The first match within the words is the first one if there is a match within the words. -/
lemma isFirst_iff_of_before {r : Option ℕ}
    (h : IsFirst (MatchesBefore expected offsetEnd) start r) :
    IsFirst (HasExpected expected) start r ↔ ∀ p, start ≤ p → HasExpected expected p →
      ∃ p', start ≤ p' ∧ MatchesBefore expected offsetEnd p' := by
  cases r with
  | none =>
    refine ⟨fun hnone p hp hmatch => absurd hmatch (hnone p hp), fun hex p hp hmatch => ?_⟩
    obtain ⟨p', hp', hbefore⟩ := hex p hp hmatch
    exact h p' hp' hbefore
  | some i =>
    obtain ⟨hi, hbefore, hleast⟩ := h
    refine ⟨fun _ _ _ _ => ⟨i, hi, hbefore⟩, fun _ => ⟨hi, hbefore.1, fun m hm hmatch => ?_⟩⟩
    by_cases hm' : m / 64 < offsetEnd
    · exact hleast m hm ⟨hmatch, hm'⟩
    · have := hbefore.2
      omega

end Words

/-! ## The whole search -/

lemma get_onesMinimap_new (b : GrowingBitmap) :
    (Matches.new b).onesMinimap.get offset = true ↔ ∃ w, b.data[offset]? = some w ∧ w ≠ 0 := by
  unfold Matches.new
  rw [get_ofList_iff]
  simp

lemma lt_foldl_min_iff (rest : List (Matches × Bool)) (n : ℕ) :
    offset < rest.foldl (fun n r => min n r.1.bitmap.data.length) n ↔
      offset < n ∧ ∀ row ∈ rest, offset < row.1.bitmap.data.length := by
  induction rest generalizing n with
  | nil => simp
  | cons row rest ih => rw [foldl_cons, ih, lt_min_iff, forall_mem_cons, and_assoc]

lemma searches_new {offsetEnd bound : ℕ} (hnew : ∀ row ∈ expected, row.1 = .new row.1.bitmap)
    (hend : ∀ offset < offsetEnd, ∀ row ∈ expected, offset < row.1.bitmap.data.length)
    (hbound : ∀ row ∈ expected, row.1.bitmap.data.length ≤ bound) :
    Searches expected ((expected.filter (·.2)).map (·.1.onesMinimap)) offsetEnd bound := by
  refine ⟨hend, fun position hmatch minimap hminimap => ?_, fun minimap hminimap i hi => ?_⟩ <;>
    obtain ⟨row, hrow, rfl⟩ := mem_map.mp hminimap <;>
    obtain ⟨hrow, htrue⟩ := mem_filter.mp hrow
  · have hget := hmatch row hrow
    rw [htrue, GrowingBitmap.get] at hget
    rw [hnew row hrow, get_onesMinimap_new]
    rcases hw : row.1.bitmap.data[position / 64]? with _ | w
    · rw [hw] at hget
      cases hget.symm.trans BitVec.getLsbD_zero
    · rw [hw] at hget
      refine ⟨w, rfl, fun hzero => ?_⟩
      rw [hzero] at hget
      cases hget.symm.trans BitVec.getLsbD_zero
  · rw [hnew row hrow, get_onesMinimap_new] at hi
    obtain ⟨w, hw, -⟩ := hi
    exact Nat.lt_of_lt_of_le (lt_of_getElem? hw) (hbound row hrow)

/-- The search over at least two rows finds the first match within the words of the shortest one. -/
theorem findPositionMatching_isFirst (start : ℕ)
    (hnew : ∀ row ∈ expected, row.1 = .new row.1.bitmap) (htwo : 2 ≤ expected.length)
    (hfuel : ∀ row ∈ expected, row.1.bitmap.data.length < fuel) :
    ∃ r offsetEnd, findPositionMatching fuel start expected = .ok r ∧
      (∀ offset, offset < offsetEnd ↔ ∀ row ∈ expected, offset < row.1.bitmap.data.length) ∧
      IsFirst (MatchesBefore expected offsetEnd) start r := by
  unfold findPositionMatching
  split
  · simp at htwo
  · simp at htwo
  · simp at htwo
  next row b rest _ _ =>
    have hend : ∀ offset, offset < rest.foldl _ row.bitmap.data.length ↔
        ∀ r ∈ (row, b) :: rest, offset < r.1.bitmap.data.length := fun offset =>
      (lt_foldl_min_iff rest _).trans (by rw [forall_mem_cons])
    have hrow := hfuel (row, b) mem_cons_self
    have h := searches_new hnew (fun offset => (hend offset).mp) fun r hr =>
      Nat.le_sub_one_of_lt (hfuel r hr)
    dsimp only
    generalize rest.foldl _ _ = offsetEnd at hend h
    have hle : offsetEnd < fuel := by
      by_contra hge
      have := (hend (fuel - 1)).mp (by omega) (row, b) mem_cons_self
      omega
    split
    next hover =>
      refine ⟨none, offsetEnd, rfl, hend, fun m hm hmatch => ?_⟩
      have := hmatch.2
      omega
    next hlt =>
      obtain ⟨x, hx, hinl, hinr⟩ := h.searchFirstWord (Nat.lt_of_not_le hlt)
      rw [hx]
      rcases x with p | o
      · exact ⟨some p, offsetEnd, rfl, hend, hinl p rfl⟩
      · obtain ⟨hle, hfirst⟩ := hinr o rfl
        obtain ⟨r, hr, hwords⟩ := h.searchWords (Nat.sub_one_lt (by omega)) fuel o (by omega) (by omega)
        exact ⟨r, offsetEnd, hr, hend, hfirst r hwords⟩

/-- The search finds the first match if and only if there is no match, or one within the words that
all bitmaps have, or only one bitmap. -/
theorem isFirst_findPositionMatching_iff (expected : List (Matches × Bool)) (start fuel : ℕ)
    (hnew : ∀ row ∈ expected, row.1 = .new row.1.bitmap) (hone : ∃ row ∈ expected, row.2 = true)
    (hfuel : ∀ row ∈ expected, row.1.bitmap.data.length < fuel) :
    ∃ r, findPositionMatching fuel start expected = .ok r ∧
      (IsFirst (HasExpected expected) start r ↔ expected.length = 1 ∨
        ∀ p, start ≤ p → HasExpected expected p → ∃ p', start ≤ p' ∧ HasExpected expected p' ∧
          ∀ row ∈ expected, p' / 64 < row.1.bitmap.data.length) := by
  obtain ⟨row, hrow, htrue⟩ := hone
  by_cases hlen : expected.length = 1
  · obtain ⟨⟨m, b⟩, rfl⟩ := length_eq_one_iff.mp hlen
    obtain rfl := mem_singleton.mp hrow
    obtain rfl : b = true := htrue
    refine ⟨_, rfl, iff_of_true ?_ (.inl rfl)⟩
    refine (m.bitmap.firstBitSetFrom_spec start).of_and (Nat.le_refl _) fun p hp => ?_
    simp [HasExpected, hp]
  · have htwo : 2 ≤ expected.length := by
      have := length_pos_of_mem hrow
      omega
    obtain ⟨r, offsetEnd, hr, hend, hfirst⟩ := findPositionMatching_isFirst start hnew htwo hfuel
    refine ⟨r, hr, ?_⟩
    rw [isFirst_iff_of_before hfirst]
    simp only [hlen, false_or, MatchesBefore, hend]

/-- The second bitmap has one word, so that the match at the position 64 is not looked at. -/
theorem findPositionMatching_short_row :
    findPositionMatching 9 0 [(.new (.set .new 64), true), (.new (.set .new 0), false)] = .ok none ∧
      HasExpected [(.new (.set .new 64), true), (.new (.set .new 0), false)] 64 :=
  ⟨by decide +kernel, by unfold HasExpected; decide +kernel⟩

/-- Bitmaps of two words, with a match at the position 70. -/
def longRows : List (Matches × Bool) := [(.new (.set .new 70), true), (.new (.set .new 80), false)]

/-- The position is found in the second word of the rows. -/
theorem isFirst_findPositionMatching_longRows :
    ∃ r, findPositionMatching 9 3 longRows = .ok r ∧ IsFirst (HasExpected longRows) 3 r := by
  obtain ⟨r, hr, hiff⟩ := isFirst_findPositionMatching_iff longRows 3 9 (by simp [longRows, Matches.new])
    ⟨_, mem_cons_self, rfl⟩ (by decide +kernel)
  refine ⟨r, hr, hiff.mpr (.inr fun _ _ _ => ⟨70, by decide, ?_⟩)⟩
  unfold HasExpected
  decide +kernel

end LibLisa.Synth
