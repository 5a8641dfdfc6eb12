import LibLisa.Instr.FilterOps
import LibLisa.Lib.CubeNext
import LibLisa.Lib.Word
import Mathlib.Data.List.Zip

/-!
# The filter operations as operations on sets of instructions

A byte filter is described by its bits (`matches_iff_bits`), and each operation on byte filters by
what it says about them. `min_matching_val` and `max_matching_val` decide whether one byte filter
covers another (`covers_iff_min_max`): a bit that only the covered one leaves free is zero in one
and one in the other.

Whole filters are compared on the instructions that are at least as long as both. There merging and
excluding are exact, and so are `overlaps` and, for filters of one length, `intersect`. `covers`
has a guard: a longer filter covers nothing, even if its last bytes are free (`filter_algebra`).
-/

namespace LibLisa

open Lib List ByteFilter BitVec InstructionFilter

/-! ## Bytes -/

variable {x : U8}

lemma exists_bit_of_isPowerOfTwo (h : isPowerOfTwo x = true) :
    ∃ k < 8, ∀ i, x.getLsbD i = decide (i = k) := by
  rw [isPowerOfTwo, beq_iff_eq, countOnes, countP_eq_length_filter] at h
  obtain ⟨k, hk⟩ := length_eq_one_iff.mp h
  have hmem : ∀ i, (i < 8 ∧ x.getLsbD i = true) ↔ i = k := by
    intro i
    rw [← mem_range, ← mem_filter, hk, mem_singleton]
  refine ⟨k, ((hmem k).mpr rfl).1, fun i => ?_⟩
  rw [Bool.eq_iff_iff, decide_eq_true_iff, ← hmem i]
  exact (and_iff_right_of_imp lt_of_getLsbD).symm

lemma countOnes_not_of_isPowerOfTwo (h : isPowerOfTwo x = true) : countOnes (~~~x) = 7 := by
  have hnot : countOnes (~~~x) = (range 8).countP fun i => ¬ x.getLsbD i = true := by
    refine countP_congr fun i hi => ?_
    simp [mem_range.mp hi]
  have hsum := length_eq_countP_add_countP (fun i => x.getLsbD i) (l := range 8)
  rw [isPowerOfTwo, beq_iff_eq, countOnes] at h
  rw [length_range] at hsum
  omega

namespace ByteFilter

variable {a b c : ByteFilter}

/-- A value bit is in the mask. -/
lemma getLsbD_mask_of_value (a : ByteFilter) (i : ℕ) (h : a.value.getLsbD i = true) :
    a.mask.getLsbD i = true := by
  simpa [h, lt_of_getLsbD h] using congrArg (fun v => v.getLsbD i) a.value_and_not_mask

/-- A byte filter asks for the bits of its value where its mask is set. -/
theorem matches_iff_bits (a : ByteFilter) (v : U8) : a.matches v = true ↔
    ∀ i, a.mask.getLsbD i = true → v.getLsbD i = a.value.getLsbD i :=
  beq_iff_eq.trans (and_eq_iff a.getLsbD_mask_of_value)

lemma covers_iff_bits : a.covers b = true ↔ ∀ i, a.mask.getLsbD i = true →
    b.mask.getLsbD i = true ∧ a.value.getLsbD i = b.value.getLsbD i := by
  have hmask : b.mask &&& a.mask = a.mask ↔
      ∀ i, a.mask.getLsbD i = true → b.mask.getLsbD i = a.mask.getLsbD i := and_eq_iff fun _ h => h
  unfold covers
  rw [Bool.and_eq_true, beq_iff_eq, beq_iff_eq, and_eq_and_iff, hmask, And.comm, ← forall₂_and]
  exact forall₂_congr fun i hi => by rw [hi]

lemma canIntersect_iff_bits : a.canIntersect b = true ↔ ∀ i, a.mask.getLsbD i = true →
    b.mask.getLsbD i = true → a.value.getLsbD i = b.value.getLsbD i := by
  unfold canIntersect
  rw [beq_iff_eq, and_comm _ a.value, and_comm _ b.value, and_eq_and_iff]
  simp only [getLsbD_and, Bool.and_eq_true, and_imp]

/-- The smallest and the largest byte that a filter matches. -/
lemma matches_minMatchingVal (a : ByteFilter) : a.matches a.minMatchingVal = true := by
  rw [matches_iff_bits]
  intro i hm
  rw [minMatchingVal, getLsbD_and, hm, Bool.and_true]

lemma matches_maxMatchingVal (a : ByteFilter) : a.matches a.maxMatchingVal = true := by
  rw [matches_iff_bits]
  intro i hm
  rw [maxMatchingVal, getLsbD_or, getLsbD_not, hm]
  simp

/-- A filter covers another one if it matches the smallest and the largest byte of it. -/
theorem covers_iff_min_max :
    a.covers b = true ↔ a.matches b.minMatchingVal = true ∧ a.matches b.maxMatchingVal = true := by
  rw [covers_iff_bits, matches_iff_bits, matches_iff_bits, ← forall₂_and]
  refine forall₂_congr fun i hi => ?_
  rw [minMatchingVal, maxMatchingVal, getLsbD_and, getLsbD_or, getLsbD_not,
    decide_eq_true (lt_of_getLsbD hi)]
  -- a free bit is zero in one of the two bytes and one in the other
  cases b.mask.getLsbD i <;> cases b.value.getLsbD i <;> cases a.value.getLsbD i <;> simp

/-- A covering filter matches what the covered one matches. -/
lemma matches_of_covers (h : a.covers b = true) {v : U8} (hv : b.matches v = true) :
    a.matches v = true := by
  rw [covers_iff_bits] at h
  rw [matches_iff_bits] at hv ⊢
  intro i hm
  obtain ⟨hb, hvalue⟩ := h i hm
  rw [hv i hb, hvalue]

/-- The bits that two filters ask for match both of them. -/
lemma matches_or_of_canIntersect (h : a.canIntersect b = true) :
    a.matches (a.value ||| b.value) = true ∧ b.matches (a.value ||| b.value) = true := by
  rw [canIntersect_iff_bits] at h
  rw [matches_iff_bits, matches_iff_bits]
  constructor <;> intro i hm <;> rw [getLsbD_or]
  · have := b.getLsbD_mask_of_value i
    have := h i hm
    grind
  · have := a.getLsbD_mask_of_value i
    have := h i
    grind

/-! ### Merging -/

lemma canMerge_comm (a b : ByteFilter) : a.canMerge b = b.canMerge a := by
  unfold canMerge
  rw [Bool.beq_comm, Bool.beq_comm (a := a.mask), BitVec.xor_comm a.value]
  by_cases hmask : b.mask = a.mask
  · rw [hmask]
  · rw [beq_eq_false_iff_ne.mpr hmask, Bool.false_and, Bool.false_and]

/-- A filter that asks for one bit more than another. -/
lemma matches_iff_of_bit {k : ℕ}
    (hmask : ∀ i, c.mask.getLsbD i = (a.mask.getLsbD i || decide (i = k)))
    (hvalue : ∀ i, a.mask.getLsbD i = true → c.value.getLsbD i = a.value.getLsbD i) (v : U8) :
    c.matches v = true ↔ a.matches v = true ∧ v.getLsbD k = c.value.getLsbD k := by
  rw [matches_iff_bits, matches_iff_bits]
  exact agree_fix_iff hmask hvalue

/-- A merged filter matches what one of the two filters matches. -/
lemma merge_spec (h : a.canMerge b = true) :
    ∃ c, a.merge b = .ok c ∧ ∀ v, c.matches v = true ↔ a.matches v = true ∨ b.matches v = true := by
  -- the filters differ in one bit that both ask for
  obtain ⟨hmask, hpow⟩ : a.mask = b.mask ∧
      isPowerOfTwo ((a.value ^^^ b.value) &&& b.mask) = true := by
    unfold canMerge at h
    grind
  obtain ⟨k, hk, hbits⟩ := exists_bit_of_isPowerOfTwo hpow
  have hdiff : ∀ i, ((a.value.getLsbD i ^^ b.value.getLsbD i) && b.mask.getLsbD i) =
      decide (i = k) := by
    intro i
    rw [← hbits i, getLsbD_and, getLsbD_xor]
  obtain ⟨c, hc, hcmask, hcvalue⟩ : ∃ c, a.merge b = .ok c ∧
      (∀ i, c.mask.getLsbD i = (a.mask.getLsbD i && !decide (i = k))) ∧
      ∀ i, c.value.getLsbD i = (a.value.getLsbD i && !decide (i = k)) := by
    refine ⟨_, if_pos (countOnes_not_of_isPowerOfTwo hpow), fun i => ?_, fun i => ?_⟩ <;>
    · rw [getLsbD_and, getLsbD_not, hbits i]
      grind
  refine ⟨c, hc, fun v => ?_⟩
  -- both filters ask for bit `k` beside what the merged one asks for
  rw [matches_iff_of_bit (a := c) (c := a), matches_iff_of_bit (a := c) (c := b), ← and_or_left]
  · refine (and_iff_left ?_).symm
    have := hdiff k
    cases v.getLsbD k <;> cases ha : a.value.getLsbD k <;> grind
  all_goals
    intro i
    have := hdiff i
    grind

/-! ### Excluding -/

lemma canExclude_spec (h : a.canExclude b = true) : b.covers a = false ∧
    isPowerOfTwo (~~~a.mask &&& b.mask) = true ∧ a.canIntersect b = true := by
  unfold canExclude at h
  split at h
  · cases h
  next hcov =>
    rw [Bool.and_eq_true] at h
    refine ⟨Bool.eq_false_iff.mpr hcov, h.1, ?_⟩
    have hvalue := eq_of_beq h.2
    unfold canIntersect
    rw [and_comm _ a.value, and_comm _ b.value, hvalue]
    exact beq_self_eq_true _

/-- Excluding leaves what the first filter matches and the second does not. -/
lemma exclude_spec (h : a.canExclude b = true) :
    ∃ c, a.exclude b = .ok c ∧
      ∀ v, c.matches v = true ↔ a.matches v = true ∧ b.matches v = false := by
  obtain ⟨-, hpow, hinter⟩ := canExclude_spec h
  obtain ⟨k, hk, hbits⟩ := exists_bit_of_isPowerOfTwo hpow
  rw [canIntersect_iff_bits] at hinter
  have hdiff : ∀ i < 8, (!a.mask.getLsbD i && b.mask.getLsbD i) = decide (i = k) := by
    intro i hi
    rw [← hbits i, getLsbD_and, getLsbD_not, decide_eq_true hi, Bool.true_and]
  unfold exclude
  rw [if_pos h]
  generalize ~~~a.mask &&& b.mask = e at hbits
  have hvalue : ∀ i, ((a.value &&& ~~~e) ||| (~~~b.value &&& e)).getLsbD i =
      if i = k then !b.value.getLsbD k else a.value.getLsbD i := by
    intro i
    rw [getLsbD_or, getLsbD_and, getLsbD_and, getLsbD_not, getLsbD_not, hbits i]
    grind
  have hwf : ((a.value &&& ~~~e) ||| (~~~b.value &&& e)) &&& ~~~(a.mask ||| e) = 0 := by
    apply eq_of_getLsbD_eq
    intro i hi
    rw [getLsbD_and, hvalue i, getLsbD_not, getLsbD_or, hbits i]
    have := a.getLsbD_mask_of_value i
    grind
  refine ⟨⟨_, _, hwf⟩, dif_pos hwf, fun v => ?_⟩
  rw [matches_iff_of_bit (a := a) (fun i => by rw [getLsbD_or, hbits i])
    fun i hm => by have := hdiff k hk; grind]
  refine and_congr_right fun ha => ?_
  rw [← Bool.not_eq_true, hvalue k, if_pos rfl, Bool.eq_not, not_iff_not]
  rw [matches_iff_bits] at ha ⊢
  -- what the first filter matches has all other bits that the second one asks for
  constructor
  · intro hvk i hm
    have := hdiff i (lt_of_getLsbD hm)
    grind
  · intro hb
    have := hdiff k hk
    exact hb k (by grind)

/-! ### Intersecting -/

/-- The intersection matches what both filters match. -/
lemma intersect_spec (h : a.canIntersect b = true) :
    ∃ c, a.intersect b = .ok c ∧
      ∀ v, c.matches v = true ↔ a.matches v = true ∧ b.matches v = true := by
  have hbits := canIntersect_iff_bits.mp h
  have ha := a.getLsbD_mask_of_value
  have hb := b.getLsbD_mask_of_value
  have hassert : ((a.canIntersect b || b.canIntersect a) &&
      a.value &&& b.mask == b.value &&& a.mask) = true := by
    rw [h, Bool.true_or, Bool.true_and, beq_iff_eq, eq_of_getLsbD_eq_iff]
    grind
  have hwf : (a.value ||| b.value) &&& ~~~(a.mask ||| b.mask) = 0 := by
    rw [eq_of_getLsbD_eq_iff]
    grind
  unfold intersect
  rw [if_pos hassert]
  refine ⟨⟨_, _, hwf⟩, dif_pos hwf, fun v => ?_⟩
  obtain ⟨hma, hmb⟩ := matches_or_of_canIntersect h
  rw [matches_iff_bits] at hma hmb
  rw [matches_iff_bits, matches_iff_bits, matches_iff_bits, ← forall_and]
  refine forall_congr' fun i => ?_
  have hma := hma i
  have hmb := hmb i
  rw [getLsbD_or] at hma hmb ⊢
  grind

end ByteFilter

/-! ## Lists of byte filters -/

namespace InstructionFilter

variable {l m n : List ByteFilter} {bytes : List U8}

lemma matchesBytes_cons (a : ByteFilter) (l : List ByteFilter) (v : U8) (bytes : List U8) :
    matchesBytes (a :: l) (v :: bytes) = true ↔
      a.matches v = true ∧ matchesBytes l bytes = true := by
  rw [matchesBytes, Bool.and_eq_true]

lemma matchesBytes_iff_of_le (hb : l.length ≤ bytes.length) : matchesBytes l bytes = true ↔
    ∀ (i : ℕ) a v, l[i]? = some a → bytes[i]? = some v → a.matches v = true := by
  rw [matchesBytes_iff]
  refine forall₂_congr fun i a => ⟨fun h v ha hv => ?_, fun h ha => ?_⟩
  · simpa [hv] using h ha
  · have hv := List.getElem?_eq_getElem ((lt_of_getElem? ha).trans_le hb)
    rw [hv]
    exact h _ ha hv

lemma all_zip_iff {p : ByteFilter × ByteFilter → Bool} : (l.zip m).all p = true ↔
    ∀ (i : ℕ) a b, l[i]? = some a → m[i]? = some b → p (a, b) = true := by
  rw [all_eq_true]
  constructor
  · exact fun h i a b ha hb => h _ (mem_of_getElem? (getElem?_zip_eq_some.mpr ⟨ha, hb⟩))
  · rintro h ⟨a, b⟩ hmem
    obtain ⟨i, hi⟩ := getElem?_of_mem hmem
    exact h i a b (getElem?_zip_eq_some.mp hi).1 (getElem?_zip_eq_some.mp hi).2

/-- Filters that are equal byte by byte. -/
lemma eq_of_zip_all_eq (hlen : l.length = m.length)
    (h : ((l.zip m).all fun (a, b) => decide (a = b)) = true) : l = m := by
  refine ext_getElem hlen fun i hl hm => of_decide_eq_true ?_
  exact all_zip_iff.mp h i _ _ (getElem?_eq_getElem hl) (getElem?_eq_getElem hm)

/-- What is asked of all long enough bytes, asked of a first byte and the rest. -/
lemma forall_bytes_of_cons {n : ℕ} {P : List U8 → Prop}
    (h : ∀ v bytes, n ≤ bytes.length → P (v :: bytes)) :
    ∀ bytes, n + 1 ≤ bytes.length → P bytes
  | v :: bytes, hb => h v bytes (Nat.le_of_succ_le_succ hb)

/-- The union of what two lists match, if they can be merged. -/
def IsMergeOf (l m n : List ByteFilter) : Prop :=
  n.length = l.length ∧ ∀ bytes : List U8, l.length ≤ bytes.length →
    (matchesBytes n bytes = true ↔ matchesBytes l bytes = true ∨ matchesBytes m bytes = true)

lemma IsMergeOf.cons (h : IsMergeOf l m n) (a : ByteFilter) :
    IsMergeOf (a :: l) (a :: m) (a :: n) := by
  refine ⟨congrArg Nat.succ h.1, forall_bytes_of_cons fun v bytes hb => ?_⟩
  rw [matchesBytes_cons, matchesBytes_cons, matchesBytes_cons, h.2 bytes hb, and_or_left]

lemma mergeBytes_spec (hlen : l.length = m.length) :
    ∃ r, mergeBytes l m = .ok r ∧ ∀ n, r = some n → IsMergeOf l m n := by
  induction l generalizing m with
  | nil => exact ⟨none, by rcases m with _ | _ <;> rfl, nofun⟩
  | cons a l ih =>
    rcases m with _ | ⟨b, m⟩
    · exact absurd hlen (by simp)
    have hlen' : l.length = m.length := by simpa using hlen
    unfold mergeBytes
    split
    next hcond =>
      rw [Bool.and_eq_true] at hcond
      obtain ⟨c, hc, hmatch⟩ := merge_spec hcond.1
      obtain rfl := eq_of_zip_all_eq hlen' hcond.2
      refine ⟨some (c :: l), by rw [hc]; rfl, ?_⟩
      rintro _ ⟨⟩
      refine ⟨rfl, forall_bytes_of_cons fun v bytes _ => ?_⟩
      rw [matchesBytes_cons, matchesBytes_cons, matchesBytes_cons, hmatch, or_and_right]
    next =>
      split
      · exact ⟨none, rfl, nofun⟩
      next hab =>
        obtain rfl := not_not.mp hab
        obtain ⟨r, hr, hspec⟩ := ih hlen'
        refine ⟨r.map (a :: ·), by rw [hr]; rfl, fun n hn => ?_⟩
        obtain ⟨n', hn', rfl⟩ := Option.map_eq_some_iff.mp hn
        exact (hspec n' hn').cons a

/-- A list that covers another one byte by byte matches what that one matches. -/
lemma matchesBytes_of_covers (hlen : l.length ≤ m.length)
    (h : ((l.zip m).all fun (a, b) => a.covers b) = true)
    (hm : matchesBytes m bytes = true) (hb : m.length ≤ bytes.length) :
    matchesBytes l bytes = true := by
  rw [matchesBytes_iff_of_le (hlen.trans hb)]
  intro i a v ha hv
  have hget := List.getElem?_eq_getElem ((lt_of_getElem? ha).trans_le hlen)
  exact matches_of_covers (all_zip_iff.mp h i _ _ ha hget)
    ((matchesBytes_iff_of_le hb).mp hm i _ v hget hv)

/-- The difference of what two lists match, if it is again a filter. -/
def IsDiffOf (l m n : List ByteFilter) : Prop :=
  n.length = l.length ∧ ∀ bytes : List U8, l.length ≤ bytes.length →
    (matchesBytes n bytes = true ↔ matchesBytes l bytes = true ∧ matchesBytes m bytes = false)

lemma IsDiffOf.cons (h : IsDiffOf l m n) {a b : ByteFilter} (hab : b.covers a = true) :
    IsDiffOf (a :: l) (b :: m) (a :: n) := by
  refine ⟨congrArg Nat.succ h.1, forall_bytes_of_cons fun v bytes hb => ?_⟩
  rw [← Bool.not_eq_true, matchesBytes_cons, matchesBytes_cons, matchesBytes_cons,
    h.2 bytes hb, ← Bool.not_eq_true]
  constructor
  · rintro ⟨ha, hl, hm⟩
    exact ⟨⟨ha, hl⟩, fun hbm => hm hbm.2⟩
  · rintro ⟨⟨ha, hl⟩, hbm⟩
    exact ⟨ha, hl, fun hm => hbm ⟨matches_of_covers hab ha, hm⟩⟩

lemma excludeBytes_spec (hlen : l.length = m.length) :
    ∃ r, excludeBytes l m = .ok r ∧ ∀ n, r = some n → IsDiffOf l m n := by
  induction l generalizing m with
  | nil => exact ⟨none, by rcases m with _ | _ <;> rfl, nofun⟩
  | cons a l ih =>
    rcases m with _ | ⟨b, m⟩
    · exact absurd hlen (by simp)
    have hlen' : l.length = m.length := by simpa using hlen
    unfold excludeBytes
    split
    next hcond =>
      rw [Bool.and_eq_true] at hcond
      obtain ⟨c, hc, hmatch⟩ := exclude_spec hcond.1
      refine ⟨some (c :: l), by rw [hc]; rfl, ?_⟩
      rintro _ ⟨⟩
      refine ⟨rfl, forall_bytes_of_cons fun v bytes hb => ?_⟩
      -- after this byte the second list covers the first
      have hrest : matchesBytes l bytes = true → matchesBytes m bytes = true := by
        intro hl
        refine matchesBytes_of_covers hlen'.ge ?_ hl hb
        rw [← zip_swap, all_map]
        exact hcond.2
      rw [← Bool.not_eq_true, matchesBytes_cons, matchesBytes_cons, matchesBytes_cons, hmatch,
        ← Bool.not_eq_true]
      constructor
      · rintro ⟨⟨ha, hbv⟩, hl⟩
        exact ⟨⟨ha, hl⟩, fun hbm => hbv hbm.1⟩
      · rintro ⟨⟨ha, hl⟩, hbm⟩
        exact ⟨⟨ha, fun hbv => hbm ⟨hbv, hrest hl⟩⟩, hl⟩
    next =>
      split
      · exact ⟨none, rfl, nofun⟩
      next hab =>
        obtain ⟨r, hr, hspec⟩ := ih hlen'
        refine ⟨r.map (a :: ·), by rw [hr]; rfl, fun n hn => ?_⟩
        obtain ⟨n', hn', rfl⟩ := Option.map_eq_some_iff.mp hn
        exact (hspec n' hn').cons (by simpa using hab)

/-- Bytes that match two lists wherever they can intersect. -/
def commonBytes : List ByteFilter → List ByteFilter → List U8
  | a :: l, b :: m => (a.value ||| b.value) :: commonBytes l m
  | [], m => m.map (·.minMatchingVal)
  | l, [] => l.map (·.minMatchingVal)

lemma matchesBytes_map {v : ByteFilter → U8} (hv : ∀ a : ByteFilter, a.matches (v a) = true)
    (l : List ByteFilter) : matchesBytes l (l.map v) = true := by
  rw [matchesBytes_iff]
  intro i a ha
  rw [getElem?_map, ha]
  exact hv a

lemma length_commonBytes (l m : List ByteFilter) :
    (commonBytes l m).length = max l.length m.length := by
  induction l generalizing m with
  | nil => simp [commonBytes]
  | cons a l ih =>
    rcases m with _ | ⟨b, m⟩
    · simp [commonBytes]
    · simp [commonBytes, ih]

lemma matchesBytes_commonBytes (h : ((l.zip m).all fun (a, b) => a.canIntersect b) = true) :
    matchesBytes l (commonBytes l m) = true ∧ matchesBytes m (commonBytes l m) = true := by
  induction l generalizing m with
  | nil =>
    exact ⟨rfl, matchesBytes_map matches_minMatchingVal m⟩
  | cons a l ih =>
    rcases m with _ | ⟨b, m⟩
    · refine ⟨matchesBytes_map matches_minMatchingVal (a :: l), ?_⟩
      rw [matchesBytes]
    rw [zip_cons_cons, all_cons, Bool.and_eq_true] at h
    obtain ⟨hl, hm⟩ := ih h.2
    obtain ⟨ha, hb⟩ := matches_or_of_canIntersect h.1
    rw [commonBytes, matchesBytes_cons, matchesBytes_cons]
    exact ⟨⟨ha, hl⟩, hb, hm⟩

lemma canIntersect_of_matchesBytes (hl : matchesBytes l bytes = true)
    (hm : matchesBytes m bytes = true) (hlb : l.length ≤ bytes.length)
    (hmb : m.length ≤ bytes.length) : ((l.zip m).all fun (a, b) => a.canIntersect b) = true := by
  rw [matchesBytes_iff_of_le hlb] at hl
  rw [matchesBytes_iff_of_le hmb] at hm
  rw [all_zip_iff]
  intro i a b ha hb
  have hv := List.getElem?_eq_getElem ((lt_of_getElem? ha).trans_le hlb)
  refine canIntersect_iff_bits.mpr fun j hma hmb => ?_
  rw [← (matches_iff_bits a _).mp (hl i a _ ha hv) j hma,
    (matches_iff_bits b _).mp (hm i b _ hb hv) j hmb]

lemma mapM_intersect_spec (hlen : l.length = m.length)
    (h : ((l.zip m).all fun (a, b) => a.canIntersect b) = true) :
    ∃ n, ((l.zip m).mapM fun (a, b) => a.intersect b) = .ok n ∧ n.length = l.length ∧
      ∀ bytes : List U8, l.length ≤ bytes.length → (matchesBytes n bytes = true ↔
        matchesBytes l bytes = true ∧ matchesBytes m bytes = true) := by
  induction l generalizing m with
  | nil =>
    obtain rfl := eq_nil_of_length_eq_zero hlen.symm
    refine ⟨[], rfl, rfl, fun bytes _ => ?_⟩
    exact ⟨fun h => ⟨h, h⟩, fun h => h.1⟩
  | cons a l ih =>
    rcases m with _ | ⟨b, m⟩
    · exact absurd hlen (by simp)
    rw [zip_cons_cons, all_cons, Bool.and_eq_true] at h
    obtain ⟨n, hn, hnlen, hmatch⟩ := ih (by simpa using hlen) h.2
    obtain ⟨c, hc, hcmatch⟩ := intersect_spec h.1
    refine ⟨c :: n, ?_, congrArg Nat.succ hnlen, forall_bytes_of_cons fun v bytes hb => ?_⟩
    · rw [zip_cons_cons, mapM_cons]
      show (a.intersect b >>= _) = _
      rw [hc, hn]
      rfl
    · rw [matchesBytes_cons, matchesBytes_cons, matchesBytes_cons, hcmatch, hmatch bytes hb]
      exact and_and_and_comm

/-- A list covers another one if it matches the smallest and the largest bytes of it. -/
lemma covers_of_matchesBytes (hlen : l.length ≤ m.length)
    (hmin : matchesBytes l (m.map (·.minMatchingVal)) = true)
    (hmax : matchesBytes l (m.map (·.maxMatchingVal)) = true) :
    ((l.zip m).all fun (a, b) => a.covers b) = true := by
  rw [matchesBytes_iff_of_le (by simpa using hlen)] at hmin hmax
  rw [all_zip_iff]
  intro i a b ha hb
  exact covers_iff_min_max.mpr ⟨hmin i a _ ha (by rw [getElem?_map, hb]; rfl),
    hmax i a _ ha (by rw [getElem?_map, hb]; rfl)⟩

/-- Matching byte by byte is admitting bit by bit. -/
lemma matchesBytes_iff_forall₂ (hlen : l.length = bytes.length) :
    matchesBytes l bytes = true ↔ List.Forall₂ (fun c b => admits c.asBit b = true)
      (l.flatMap fun bf => (List.range 8).map bf.bitAt) (bitsOf bytes) := by
  induction l generalizing bytes with
  | nil =>
    obtain rfl := eq_nil_of_length_eq_zero hlen.symm
    exact iff_of_true rfl .nil
  | cons a l ih =>
    rcases bytes with _ | ⟨v, bytes⟩
    · exact absurd hlen (by simp)
    rw [matchesBytes_cons, ih (by simpa using hlen), matches_iff_admits]
    have hbyte : (∀ i < 8, admits (a.bitAt i).asBit (v.getMsbD i) = true) ↔
        List.Forall₂ (fun c b => admits c.asBit b = true) ((range 8).map a.bitAt)
          (byteBits v) := by
      show _ ↔ List.Forall₂ _ _ ((range 8).map v.getMsbD)
      rw [forall₂_map_left_iff, forall₂_map_right_iff, forall₂_same]
      simp only [mem_range]
    rw [hbyte]
    refine (forall₂_append_iff ?_).symm
    rfl

/-! ## Filters -/

variable {f g h : InstructionFilter} {x : Instruction}

/-- A filter matches the instructions of its length that its cube admits. -/
lemma matches_iff_cube_admits (hlen : f.len = x.byteLen) :
    f.matches x = true ↔ Cube.Admits f.cube x.bits := by
  unfold Cube.Admits cube
  rw [forall₂_map_left_iff]
  exact matchesBytes_iff_forall₂ hlen

/-- The instruction is at least as long as both filters. -/
def AtLeastAsLong (x : Instruction) (f g : InstructionFilter) : Prop :=
  f.len ≤ x.byteLen ∧ g.len ≤ x.byteLen

/-- What the bytes of an operation on filters of one length have, the filter made of them has. -/
lemma bind_ofBytes_spec {op : Partial (Option (List ByteFilter))} {P : List ByteFilter → Prop}
    (hop : f.len = g.len → ∃ r, op = .ok r ∧ ∀ n, r = some n → P n)
    (hle : ∀ n, P n → n.length ≤ 16) :
    ∃ r, (if f.len ≠ g.len then .ok none else op >>= ofBytes) = .ok r ∧
      ∀ h, r = some h → f.len = g.len ∧ P h.data := by
  split
  · exact ⟨none, rfl, nofun⟩
  next hne =>
    have hlen := not_not.mp hne
    obtain ⟨r, rfl, hr⟩ := hop hlen
    rcases r with _ | n
    · exact ⟨none, rfl, nofun⟩
    have hn := hle n (hr n rfl)
    refine ⟨some ⟨n, hn⟩, ?_, ?_⟩
    · show (new n >>= _) = _
      unfold new
      rw [dif_pos hn]
      rfl
    · rintro _ ⟨⟩
      exact ⟨hlen, hr n rfl⟩

/-- `try_merge` returns, and only with a filter of the same length. -/
lemma tryMerge_spec (f g : InstructionFilter) :
    ∃ r, f.tryMerge g = .ok r ∧ ∀ h, r = some h → f.len = g.len ∧ IsMergeOf f.data g.data h.data :=
  bind_ofBytes_spec mergeBytes_spec fun _ hn => hn.1.trans_le f.length_le

lemma tryExclude_spec (f g : InstructionFilter) :
    ∃ r, f.tryExclude g = .ok r ∧ ∀ h, r = some h → f.len = g.len ∧ IsDiffOf f.data g.data h.data :=
  bind_ofBytes_spec excludeBytes_spec fun _ hn => hn.1.trans_le f.length_le

lemma matches_of_filterCovers (hcov : f.covers g = true) (hx : g.len ≤ x.byteLen)
    (hg : g.matches x = true) : f.matches x = true := by
  unfold covers at hcov
  rw [Bool.and_eq_true, decide_eq_true_iff] at hcov
  exact matchesBytes_of_covers hcov.1 hcov.2 hg hx

/-- `covers` compares the sets of instructions, unless its guard on the lengths says no. -/
lemma covers_iff (hg : g.WellFormed) : f.covers g = true ↔ f.len ≤ g.len ∧
    ∀ x, AtLeastAsLong x f g → g.matches x = true → f.matches x = true := by
  constructor
  · intro hcov
    refine ⟨?_, fun x hx => matches_of_filterCovers hcov hx.2⟩
    unfold covers at hcov
    rw [Bool.and_eq_true, decide_eq_true_iff] at hcov
    exact hcov.1
  · rintro ⟨hlen, hall⟩
    unfold covers
    rw [Bool.and_eq_true, decide_eq_true_iff]
    have hbytes : ∀ bytes : List U8, bytes.length = g.data.length →
        matchesBytes g.data bytes = true → matchesBytes f.data bytes = true := fun bytes hb =>
      hall ⟨bytes, hb.trans_le hg⟩ ⟨hlen.trans_eq hb.symm, hb.ge⟩
    exact ⟨hlen, covers_of_matchesBytes hlen
      (hbytes _ (length_map _) (matchesBytes_map matches_minMatchingVal g.data))
      (hbytes _ (length_map _) (matchesBytes_map matches_maxMatchingVal g.data))⟩

lemma exists_of_overlaps (hf : f.WellFormed) (hg : g.WellFormed) (h : f.overlaps g = true) :
    ∃ x : Instruction, x.byteLen = max f.len g.len ∧ f.matches x = true ∧ g.matches x = true := by
  have hlen := length_commonBytes f.data g.data
  exact ⟨⟨commonBytes f.data g.data, hlen.trans_le (max_le hf hg)⟩, hlen, matchesBytes_commonBytes h⟩

lemma overlaps_iff (hf : f.WellFormed) (hg : g.WellFormed) : f.overlaps g = true ↔
    ∃ x, AtLeastAsLong x f g ∧ f.matches x = true ∧ g.matches x = true := by
  constructor
  · intro h
    obtain ⟨x, hlen, hmatch⟩ := exists_of_overlaps hf hg h
    exact ⟨x, ⟨hlen ▸ le_max_left _ _, hlen ▸ le_max_right _ _⟩, hmatch⟩
  · rintro ⟨x, ⟨hfx, hgx⟩, hf, hg⟩
    exact canIntersect_of_matchesBytes hf hg hfx hgx

lemma intersect_spec (hlen : f.len = g.len) (hover : f.overlaps g = true) :
    ∃ h, f.intersect g = .ok h ∧ ∀ x, AtLeastAsLong x f g →
      (h.matches x = true ↔ f.matches x = true ∧ g.matches x = true) := by
  obtain ⟨n, hn, hnlen, hmatch⟩ := mapM_intersect_spec hlen hover
  have hle : n.length ≤ 16 := hnlen.trans_le f.length_le
  refine ⟨⟨n, hle⟩, ?_, fun x hx => hmatch x.bytes hx.1⟩
  unfold intersect new
  rw [if_pos hlen, hn, ok_bind, dif_pos hle]

/-- The filter operations on the instructions that are at least as long as both filters. -/
theorem filter_algebra (f g : InstructionFilter) (hf : f.WellFormed) (hg : g.WellFormed) :
    (∃ r, f.tryMerge g = .ok r ∧ ∀ h, r = some h → ∀ x, AtLeastAsLong x f g →
      (h.matches x = true ↔ f.matches x = true ∨ g.matches x = true)) ∧
    (∃ r, f.tryExclude g = .ok r ∧ ∀ h, r = some h → ∀ x, AtLeastAsLong x f g →
      (h.matches x = true ↔ f.matches x = true ∧ g.matches x = false)) ∧
    (f.covers g = true ↔ f.len ≤ g.len ∧
      ∀ x, AtLeastAsLong x f g → g.matches x = true → f.matches x = true) ∧
    (f.overlaps g = true ↔ ∃ x, AtLeastAsLong x f g ∧ f.matches x = true ∧ g.matches x = true) ∧
    (f.overlaps g = true → f.len = g.len → ∃ h, f.intersect g = .ok h ∧ ∀ x, AtLeastAsLong x f g →
      (h.matches x = true ↔ f.matches x = true ∧ g.matches x = true)) := by
  refine ⟨?_, ?_, covers_iff hg, overlaps_iff hf hg, fun hover hlen => intersect_spec hlen hover⟩
  · obtain ⟨r, hr, hspec⟩ := tryMerge_spec f g
    exact ⟨r, hr, fun h hh x hx => (hspec h hh).2.2 x.bytes hx.1⟩
  · obtain ⟨r, hr, hspec⟩ := tryExclude_spec f g
    exact ⟨r, hr, fun h hh x hx => (hspec h hh).2.2 x.bytes hx.1⟩

/-- The filter `0000000_`. -/
def shortFilter : InstructionFilter := ⟨[⟨0xfe#8, 0x00#8, by decide⟩], by decide⟩

/-- The filter `0000000_ ________`. -/
def longFilter : InstructionFilter :=
  ⟨[⟨0xfe#8, 0x00#8, by decide⟩, ⟨0x00#8, 0x00#8, by decide⟩], by decide⟩

/-- Filters of different lengths. -/
theorem filter_algebra_shortFilter : shortFilter.WellFormed ∧ longFilter.WellFormed ∧
    (longFilter.covers shortFilter = true ↔ longFilter.len ≤ shortFilter.len ∧
      ∀ x, AtLeastAsLong x longFilter shortFilter → shortFilter.matches x = true →
        longFilter.matches x = true) :=
  ⟨by decide, by decide, (filter_algebra longFilter shortFilter (by decide) (by decide)).2.2.1⟩

/-- The longer filter matches every instruction of two bytes that the shorter one matches, but does
not cover it; the two overlap, but intersecting them panics. -/
theorem longFilter_not_covers : shortFilter.WellFormed ∧ longFilter.WellFormed ∧
    longFilter.covers shortFilter = false ∧
    (∀ x, AtLeastAsLong x longFilter shortFilter → shortFilter.matches x = true →
      longFilter.matches x = true) ∧
    longFilter.overlaps shortFilter = true ∧
    longFilter.intersect shortFilter = .error .assertionFailed := by
  refine ⟨by decide, by decide, by decide, fun x hx hshort => ?_, by decide, by decide⟩
  obtain ⟨bytes, hle⟩ := x
  rcases bytes with _ | ⟨v, _ | ⟨w, bytes⟩⟩
  · exact absurd hx.1 (Nat.not_succ_le_zero 1)
  · exact absurd hx.1 (Nat.not_succ_le_self 1)
  · have hv := ((matchesBytes_cons _ _ _ _).mp hshort).1
    refine (matchesBytes_cons _ _ _ _).mpr ⟨hv, (matchesBytes_cons _ _ _ _).mpr ⟨?_, ?_⟩⟩
    · show (w &&& 0#8) == 0#8
      rw [and_zero]
      exact beq_self_eq_true _
    · rw [matchesBytes]

end InstructionFilter

end LibLisa
