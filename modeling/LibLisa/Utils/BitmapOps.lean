import LibLisa.Utils.BitmapRuns
import LibLisa.Utils.Mcs

/-!
# Set operations, equality, counts and removals of bitmaps

The operations run over the words of their operands. What they say about single bits is right as
long as the operands have words at the same places: bits past the last word of the shorter operand
are dropped, and two bitmaps with the same bits differ when one of them has a word more.
A `FixedBitmapU64<N>` runs the same code on `N` words.

Of the removals only `remove_back` is wrong: its assertion passes only when everything is removed.
-/

namespace LibLisa.Utils.GrowingBitmap

open Lib List

/-- Source: `bitmap/mod.rs`, `BitmapSlice::is_subset_of` -/
def isSubsetOf (a b : GrowingBitmap) : Bool :=
  zipSlice (fun whole subset => subset ||| whole) b.data a.asSlice == b.data

/-- Source: `GrowingBitmap::is_superset_of` -/
def isSupersetOf (b other : GrowingBitmap) : Bool :=
  if b.len < other.len ∧ (other.firstBitSetFrom b.len).isSome then false
  else (b.data.zip other.data).all fun (x, y) => x ||| y == x

/-- Source: `u64::count_zeros` -/
def zeroCount (w : U64) : ℕ := (List.range 64).countP (!w.getLsbD ·)

/-- Source: `GrowingBitmap::count_zeros` -/
def countZeros (b : GrowingBitmap) : Partial ℕ :=
  let zeros := (b.data.map zeroCount).sum
  if zeros < 64 - b.len % 64 then .error .arithmeticOverflow else .ok (zeros - (64 - b.len % 64))

/-- Source: `GrowingBitmap`, `PartialEq::eq` -/
def eq (a b : GrowingBitmap) : Bool := a.len == b.len && a.data == b.data

/-- What is given to the hasher.
Source: `GrowingBitmap`, `Hash::hash` -/
def hashed (b : GrowingBitmap) : ℕ × List U64 := (b.len, b.data)

variable {a b : GrowingBitmap} {as bs : List U64} {f : U64 → U64 → U64}

/-! ## Words and bits -/

/-- Words are equal if there are equally many and their bits are the same. -/
theorem data_eq_iff : a.data = b.data ↔ a.data.length = b.data.length ∧ ∀ i, a.get i = b.get i := by
  refine ⟨fun h => by simp [get, h], fun ⟨hlen, hbits⟩ => ext_getElem hlen fun k hk hk' => ?_⟩
  refine BitVec.eq_of_getLsbD_eq fun j hj => ?_
  have hbit := hbits (64 * k + j)
  have hword : (64 * k + j) / 64 = k := by omega
  have hrest : (64 * k + j) % 64 = j := by omega
  rw [get, get, hword, hrest, getElem?_eq_getElem hk, getElem?_eq_getElem hk'] at hbit
  exact hbit

/-- A set bit is in one of the words. -/
theorem lt_of_get {i : ℕ} (h : b.get i = true) : i < 64 * b.data.length := by
  have := lt_length_of_get h
  omega

lemma get_zipSlice_or (hf : ∀ x y, f x y = x ||| y) (len i : ℕ) :
    get ⟨zipSlice f b.data a.asSlice, len⟩ i = true ↔
      i < 64 * b.data.length ∧ (b.get i = true ∨ a.get i = true) := by
  rw [get_eq, getElem?_zipSlice, get, get, asSlice]
  by_cases h : i / 64 < b.data.length
  · simp [h, hf, show i < 64 * b.data.length by omega]
  · simp [h, show ¬ i < 64 * b.data.length by omega]

/-- Every bit of `a` in a word of `b` is one of `b`. -/
def SubsetInWords (a b : GrowingBitmap) : Prop :=
  ∀ i < 64 * b.data.length, a.get i = true → b.get i = true

/-- The union of two bitmaps has the words of the first one when that has the bits of the second. -/
theorem zipSlice_eq_iff (hf : ∀ x y, f x y = x ||| y) :
    zipSlice f b.data a.asSlice = b.data ↔ a.SubsetInWords b := by
  refine (data_eq_iff (a := ⟨zipSlice f b.data a.asSlice, 0⟩)).trans ?_
  rw [length_zipSlice]
  refine ⟨fun h i hi ha => ?_, fun h => ⟨rfl, fun i => ?_⟩⟩
  · exact (h.2 i).symm.trans ((get_zipSlice_or hf 0 i).mpr ⟨hi, .inr ha⟩)
  · rw [Bool.eq_iff_iff, get_zipSlice_or hf]
    exact ⟨fun hget => hget.2.elim id (h i hget.1), fun hget => ⟨lt_of_get hget, .inl hget⟩⟩

lemma all_zip_iff : ((as.zip bs).all fun (x, y) => x ||| y == x) = true ↔
    as.mapIdx (fun i x => x ||| bs[i]?.getD 0) = as := by
  induction as generalizing bs with
  | nil => simp
  | cons w as ih =>
    cases bs with
    | nil =>
      have hnil := @ih []
      simpa using hnil
    | cons v bs => simp [mapIdx_cons, ih]

/-! ## Set operations -/

/-- Every bit of `a` is one of `b`. -/
def Subset (a b : GrowingBitmap) : Prop := ∀ i, a.get i = true → b.get i = true

/-- No bit from `n` on is set. -/
def Below (b : GrowingBitmap) (n : ℕ) : Prop := ∀ i, b.get i = true → i < n

/-- The operations on `a` and `b` mean what they say about every bit. -/
structure Pointwise (a b : GrowingBitmap) : Prop where
  orWith : ∀ i, (a.orWith b.asSlice).2.get i = (a.get i || b.get i)
  isSubsetOf : a.isSubsetOf b = true ↔ a.Subset b
  isSupersetOf : b.isSupersetOf a = true ↔ a.Subset b

/-- The search for a bit past the end. -/
theorem isSome_firstBitSetFrom (b : GrowingBitmap) (n : ℕ) :
    (b.firstBitSetFrom n).isSome = true ↔ ¬ b.Below n := by
  have hfirst := firstBitSetFrom_spec b n
  cases hr : b.firstBitSetFrom n with
  | none =>
    rw [hr] at hfirst
    have hwithin : b.Below n := fun i hi => Nat.lt_of_not_le fun hle => hfirst i hle hi
    simp [hwithin]
  | some i =>
    rw [hr] at hfirst
    have hnot : ¬ b.Below n := fun h => Nat.not_lt.mpr hfirst.1 (h i hfirst.2.1)
    simp [hnot]

lemma subset_iff : a.Subset b ↔ a.SubsetInWords b ∧ a.Below (64 * b.data.length) := by
  constructor
  · exact fun h => ⟨fun i _ => h i, fun i hi => lt_of_get (h i hi)⟩
  · exact fun h i hi => h.1 i (h.2 i hi) hi

lemma isSubsetOf_iff : a.isSubsetOf b = true ↔ a.SubsetInWords b := by
  rw [isSubsetOf, beq_iff_eq, zipSlice_eq_iff fun x y => BitVec.or_comm y x]

lemma isSupersetOf_iff :
    b.isSupersetOf a = true ↔ (b.len < a.len → a.Below b.len) ∧ a.SubsetInWords b := by
  have hpast := isSome_firstBitSetFrom a b.len
  unfold isSupersetOf
  rw [← zipSlice_eq_iff (f := (· ||| ·)) fun _ _ => rfl, zipSlice, asSlice, ← all_zip_iff]
  split
  next h => simp [h.1, hpast.mp h.2]
  next h =>
    simp only [hpast, not_and, not_not] at h
    exact ⟨fun hall => ⟨h, hall⟩, And.right⟩

lemma orWith_iff :
    (∀ i, (a.orWith b.asSlice).2.get i = (a.get i || b.get i)) ↔ b.Below (64 * a.data.length) := by
  refine forall_congr' fun i => ?_
  have hget : (a.orWith b.asSlice).2.get i = true ↔ _ := get_zipSlice_or (fun _ _ => rfl) a.len i
  rw [Bool.eq_iff_iff, hget, Bool.or_eq_true]
  constructor
  · exact fun h hb => (h.mpr (.inr hb)).1
  · exact fun h => ⟨And.right, fun hab => ⟨hab.elim lt_of_get h, hab⟩⟩

/-- Bits are dropped only past the last word of the first operand of `or_with` and of the second
one of `is_subset_of`, and `is_superset_of` looks at the length where `b` may have bits past it. -/
theorem pointwise_iff : Pointwise a b ↔
    b.Below (64 * a.data.length) ∧
    (a.SubsetInWords b → a.Below (64 * b.data.length)) ∧
    (b.len < a.len → a.Subset b → a.Below b.len) := by
  constructor
  · intro h
    refine ⟨orWith_iff.mp h.orWith, fun hin => ?_, fun hlt hsubset => ?_⟩
    · exact (subset_iff.mp (h.isSubsetOf.mp (isSubsetOf_iff.mpr hin))).2
    · exact (isSupersetOf_iff.mp (h.isSupersetOf.mpr hsubset)).1 hlt
  · intro h
    have hsub : a.SubsetInWords b ↔ a.Subset b :=
      ⟨fun hin => subset_iff.mpr ⟨hin, h.2.1 hin⟩, fun hsubset => (subset_iff.mp hsubset).1⟩
    refine ⟨orWith_iff.mpr h.1, isSubsetOf_iff.trans hsub, isSupersetOf_iff.trans ?_⟩
    rw [hsub]
    exact and_iff_right_of_imp fun hsubset hlt => h.2.2 hlt hsubset

/-- The bit 64 is dropped. -/
theorem not_pointwise : ¬ Pointwise (newAllOnes 1) (new.set 64) := by
  intro h
  have := h.orWith 64
  revert this
  decide

/-! ## The set of the ones

`Mcs`, `Matrix` and the searches for groups keep the positions of the ones of a bitmap as a set. The
operations that they use do to the set what they do to the bitmap, as long as no bit is dropped. -/

/-- The positions of the ones. -/
def ones (b : GrowingBitmap) : Mcs.Bitmap := b.iterOneIndices.toFinset

lemma mem_ones {n : ℕ} : n ∈ b.ones ↔ b.get n = true := by
  rw [ones, mem_toFinset, iterOneIndices, mem_filter, mem_range]
  exact and_iff_right_of_imp lt_of_get

lemma iterOneIndices_ones (b : GrowingBitmap) : Mcs.iterOneIndices b.ones = b.iterOneIndices :=
  (toFinset_sort _ (nodup_range.filter _)).mpr (pairwise_le_range.filter _)

lemma ones_set (h : b.Covers) (n : ℕ) : (b.set n).ones = insert n b.ones := by
  ext m
  rw [mem_ones, get_set h, Finset.mem_insert, mem_ones]
  split <;> simp [*]

lemma ones_andWith (a b : GrowingBitmap) : (a.andWith b.asSlice).ones = a.ones ∩ b.ones := by
  ext n
  rw [mem_ones, get_andWith, Bool.and_eq_true, Finset.mem_inter, mem_ones, mem_ones]

lemma ones_orWith (h : b.Below (64 * a.data.length)) :
    (a.orWith b.asSlice).2.ones = a.ones ∪ b.ones := by
  ext n
  rw [mem_ones, orWith_iff.mpr h, Bool.or_eq_true, Finset.mem_union, mem_ones, mem_ones]

lemma isSubsetOf_iff_ones (h : a.Below (64 * b.data.length)) :
    a.isSubsetOf b = true ↔ a.ones ⊆ b.ones := by
  simp only [isSubsetOf_iff, Finset.subset_iff, mem_ones]
  exact ⟨fun hin => subset_iff.mpr ⟨hin, h⟩, fun hsubset => (subset_iff.mp hsubset).1⟩

/-! ## Equality and counts -/

/-- The same length, and the same bits below it. -/
def SameContents (a b : GrowingBitmap) : Prop := a.len = b.len ∧ ∀ i < a.len, a.get i = b.get i

/-- Equality, hashes and counts depend on the contents only. -/
structure ContentsOnly (a b : GrowingBitmap) : Prop where
  eq_iff : a.eq b = true ∧ a.hashed = b.hashed ↔ SameContents a b
  count : ∃ zeros, a.countZeros = .ok zeros ∧ a.countOnes + zeros = a.len

lemma popCount_add_zeroCount (w : U64) : popCount w + zeroCount w = 64 := by
  have hlength := (range 64).length_eq_countP_add_countP (p := w.getLsbD)
  rw [length_range] at hlength
  refine Eq.trans ?_ hlength.symm
  exact congrArg _ (countP_congr fun i _ => by simp)

lemma countOnes_add (b : GrowingBitmap) :
    b.countOnes + (b.data.map zeroCount).sum = 64 * b.data.length := by
  unfold countOnes
  induction b.data with
  | nil => rfl
  | cons w data ih =>
    have := popCount_add_zeroCount w
    rw [map_cons, map_cons, sum_cons, sum_cons, length_cons]
    omega

/-- Two bitmaps with the same contents differ in the number of their words or past the end, and
the counts are right when there is one word more than full ones. -/
theorem contentsOnly_iff : ContentsOnly a b ↔
    (SameContents a b → a.data.length = b.data.length ∧ ∀ i, a.len ≤ i → a.get i = b.get i) ∧
      a.data.length = a.len / 64 + 1 ∧ a.countOnes ≤ a.len := by
  have heq : a.eq b = true ∧ a.hashed = b.hashed ↔
      a.len = b.len ∧ a.data.length = b.data.length ∧ ∀ i, a.get i = b.get i := by
    rw [← data_eq_iff]
    simp [GrowingBitmap.eq, hashed]
  have hcount : (∃ zeros, a.countZeros = .ok zeros ∧ a.countOnes + zeros = a.len) ↔
      a.data.length = a.len / 64 + 1 ∧ a.countOnes ≤ a.len := by
    have := countOnes_add a
    unfold countZeros
    dsimp only
    split
    · simp
      omega
    · simp
      omega
  refine ⟨fun h => ⟨fun hsame => ?_, hcount.mp h.count⟩, fun h => ⟨heq.trans ?_, hcount.mpr h.2⟩⟩
  · obtain ⟨-, hlen, hbits⟩ := heq.mp (h.eq_iff.mpr hsame)
    exact ⟨hlen, fun i _ => hbits i⟩
  · refine ⟨fun h => ⟨h.1, fun i _ => h.2.2 i⟩, fun hsame => ⟨hsame.1, (h.1 hsame).1, fun i => ?_⟩⟩
    exact (Nat.lt_or_ge i a.len).elim (hsame.2 i) ((h.1 hsame).2 i)

/-- Two empty bitmaps, with and without a word. -/
theorem not_contentsOnly : ¬ ContentsOnly new (newAllZeros 0) := by
  intro h
  have := (h.eq_iff.mpr ⟨rfl, fun i hi => absurd hi (Nat.not_lt_zero i)⟩).1
  revert this
  decide

/-! ## Removing bits -/

/-- A removal returns the first `left` bits that `origin` lists, in order, and zeros behind them. -/
def Leaves (b : GrowingBitmap) (removal : Partial GrowingBitmap) (left : ℕ) (origin : ℕ → ℕ) :
    Prop :=
  ∃ b', removal = .ok b' ∧ b'.len = left ∧ ∀ i, b'.get i = (decide (i < left) && b.get (origin i))

lemma get_shiftWords {shift : ℕ} (hshift : shift < 64) (ws : List U64) (len i : ℕ) :
    get ⟨shiftWords shift ws, len⟩ i = get ⟨ws, len⟩ (i + shift) := by
  rw [get_eq, shiftWords, getElem?_mapIdx, get_eq]
  by_cases hsame : i % 64 + shift < 64
  · rw [show (i + shift) / 64 = i / 64 by omega, show (i + shift) % 64 = shift + i % 64 by omega]
    cases ws[i / 64]? with
    | none => simp
    | some w => simp [show i % 64 < 64 - shift by omega]
  · rw [show (i + shift) / 64 = i / 64 + 1 by omega,
      show (i + shift) % 64 = i % 64 - (64 - shift) by omega]
    by_cases hlt : i / 64 < ws.length
    · have hlow : ws[i / 64].getLsbD (shift + i % 64) = false := BitVec.getLsbD_of_ge _ _ (by omega)
      simp [hlt, hlow, show ¬ i % 64 < 64 - shift by omega, show i % 64 < 64 by omega]
      rfl
    · simp [hlt, getElem?_eq_none (show ws.length ≤ i / 64 + 1 by omega)]

/-- The words that a length needs, masked: nothing changes below the length. -/
theorem get_zeroizePastEnd_take {data : List U64} {len : ℕ}
    (h : (len + 63) / 64 ≤ data.length) (i : ℕ) :
    (zeroizePastEnd ⟨data.take ((len + 63) / 64), len⟩).get i =
      (decide (i < len) && get ⟨data, len⟩ i) := by
  have hlength := length_take_of_le h
  by_cases hi : i < len
  · rw [get_zeroizePastEnd, get_eq, get_eq, getElem?_take_of_lt (by omega)]
    simp [hi]
    exact fun _ => by omega
  · rw [(wellFormed_zeroizePastEnd hlength).get_eq_false]
    · simp [hi]
    · rw [len_zeroizePastEnd]
      exact Nat.le_of_not_lt hi

lemma leaves_remove_iff (h : b.Covers) {n : ℕ} (hn : n < b.len) :
    b.Leaves ((·.2) <$> b.remove n) (b.len - 1) (fun i => if i < n then i else i + 1) ↔
      ∀ i, b.len ≤ i → b.get i = false := by
  obtain ⟨-, hlen, hget⟩ := foldl_shiftDown_spec h (Nat.le_refl (b.len - n))
  have hrun : (·.2) <$> b.remove n =
      .ok { (range' n (b.len - n)).foldl shiftDown b with len := b.len - 1 } := by
    rw [remove]
    simp only [hlen, if_neg (show b.len ≠ 0 by omega)]
    rfl
  constructor
  · rintro ⟨b', hb', -, hbits⟩ i hi
    obtain rfl := Except.ok.inj (hrun.symm.trans hb')
    have hbit := (hget i).symm.trans (hbits i)
    grind
  · refine fun hpast => ⟨_, hrun, rfl, fun i => (hget i).trans ?_⟩
    have := hpast (i + 1)
    have := hpast i
    grind

lemma leaves_removeFront (h : b.Covers) {num : ℕ} (hnum : num ≤ b.len) :
    b.Leaves (b.removeFront num) (b.len - num) (· + num) := by
  unfold Covers at h
  have hrun : b.removeFront num = .ok (zeroizePastEnd ⟨(if num % 64 ≠ 0 then
      shiftWords (num % 64) (b.data.drop (num / 64)) else b.data.drop (num / 64)).take
        ((b.len - num + 63) / 64), b.len - num⟩) := by
    simp [removeFront, hnum, show ¬ b.data.length < num / 64 by omega]
  have hdrop : ∀ i, get ⟨b.data.drop (num / 64), b.len - num⟩ i = b.get (i + num / 64 * 64) := by
    intro i
    have hword : (i + num / 64 * 64) / 64 = num / 64 + i / 64 := by omega
    rw [get_eq, getElem?_drop, get, hword, Nat.add_mul_mod_self_right]
  refine ⟨_, hrun, len_zeroizePastEnd _, fun i => ?_⟩
  rw [get_zeroizePastEnd_take]
  · congr 1
    split
    · rw [get_shiftWords (Nat.mod_lt _ (by decide)), hdrop, Nat.add_assoc, Nat.mod_add_div']
    · rw [hdrop]
      congr 2
      omega
  · split <;> simp [shiftWords] <;> omega

lemma leaves_removeBack_iff {num : ℕ} (hnum : num ≤ b.len) :
    b.Leaves (b.removeBack num) (b.len - num) id ↔ num = b.len := by
  constructor
  · rintro ⟨b', hb', -⟩
    by_contra hne
    simp [removeBack, Nat.lt_of_le_of_ne hnum hne] at hb'
  · rintro rfl
    exact ⟨⟨[], 0⟩, by simp [removeBack, resizeWords, zeroizePastEnd], by simp, by simp [get]⟩

/-- `remove` is right if no bit is set past the end, `remove_front` always, and `remove_back`, whose
assertion is the wrong way around, only when everything is removed. -/
theorem removals_correct_iff (h : b.Covers) :
    (∀ n < b.len, (b.Leaves ((·.2) <$> b.remove n) (b.len - 1)
      (fun i => if i < n then i else i + 1) ↔ ∀ i, b.len ≤ i → b.get i = false)) ∧
    (∀ num ≤ b.len, b.Leaves (b.removeFront num) (b.len - num) (· + num)) ∧
    ∀ num ≤ b.len, (b.Leaves (b.removeBack num) (b.len - num) id ↔ num = b.len) :=
  ⟨fun _ => leaves_remove_iff h, fun _ => leaves_removeFront h, fun _ => leaves_removeBack_iff⟩

/-- Removing more than a word from the front. -/
theorem removals_correct_iff_ones :
    (newAllOnes 70).Leaves ((newAllOnes 70).removeFront 65) 5 (· + 65) :=
  (removals_correct_iff (b := newAllOnes 70) (by unfold Covers; decide)).2.1 65 (by decide)

/-- The last one of two bits cannot be removed. -/
theorem removeBack_panics : ¬ (newAllOnes 2).Leaves ((newAllOnes 2).removeBack 1) 1 id := by
  rintro ⟨b', h, -⟩
  cases h

end LibLisa.Utils.GrowingBitmap
