import LibLisa.Panic
import Mathlib.Algebra.GroupWithZero.Nat

/-!
# Growing bitmaps

A bitmap is a list of words and a length. The words cover the length, and reading a bit outside of
them yields false.

Each operation has a lemma that says which bits it leaves set (`get_set`, `get_andWith`,
`get_ofList_iff`): the bit is found in its word, and there the operation is one of `BitVec`. The
searches are specified by `IsFirst`, one word at a time (`firstBit_spec`). `WellFormed` bitmaps have
no bits past the length.
-/

namespace LibLisa.Utils

open Lib List
open BitVec (allOnes twoPow getLsbD_zero getLsbD_and)

/-- Source: `bitmap/growing.rs`, `GrowingBitmap` -/
structure GrowingBitmap where
  data : List U64
  len : ℕ
deriving DecidableEq, Repr

/-- Source: `u64::count_ones` -/
def popCount (w : U64) : ℕ := (range 64).countP w.getLsbD

/-- Source: `utils/mod.rs`, `bitmask_u64`, for at most 64 bits -/
def bitmaskU64 (n : ℕ) : U64 := if 64 - n < 64 then allOnes 64 >>> (64 - n) else 0

namespace GrowingBitmap

/-- Source: `GrowingBitmap::new` -/
def new : GrowingBitmap := ⟨[], 0⟩

/-- Source: `GrowingBitmap::get` -/
def get (b : GrowingBitmap) (n : ℕ) : Bool := (b.data[n / 64]?.getD 0).getLsbD (n % 64)

/-- Source: `GrowingBitmap::zeroize_past_end` -/
def zeroizePastEnd (b : GrowingBitmap) : GrowingBitmap :=
  if b.len % 64 ≠ 0 then
    { b with data := b.data.modify (b.data.length - 1) (· &&& bitmaskU64 (b.len % 64)) }
  else b

/-- Source: `GrowingBitmap::new_all_ones` -/
def newAllOnes (n : ℕ) : GrowingBitmap :=
  zeroizePastEnd ⟨replicate ((n + 63) / 64) (allOnes 64), n⟩

/-- Source: `GrowingBitmap::new_all_zeros` -/
def newAllZeros (n : ℕ) : GrowingBitmap := ⟨replicate (n / 64 + 1) 0, n⟩

/-- Source: `GrowingBitmap::internal_resize`, if the bit is outside of the bitmap -/
def grow (b : GrowingBitmap) (n : ℕ) : GrowingBitmap :=
  if b.len ≤ n then ⟨b.data ++ replicate (n / 64 + 1 - b.data.length) 0, n + 1⟩ else b

/-- Source: `GrowingBitmap::set` -/
def set (b : GrowingBitmap) (n : ℕ) : GrowingBitmap :=
  let b := b.grow n
  { b with data := b.data.modify (n / 64) (· ||| twoPow 64 (n % 64)) }

/-- Source: `GrowingBitmap::reset` -/
def reset (b : GrowingBitmap) (n : ℕ) : GrowingBitmap :=
  let b := b.grow n
  { b with data := b.data.modify (n / 64) (· &&& ~~~(twoPow 64 (n % 64))) }

/-- What the operations read of a `BitmapSlice`: its length, and the items of `iter_data`. -/
structure SliceData where
  len : ℕ
  word : ℕ → Option U64

/-- A bitmap as a slice. -/
def asSlice (b : GrowingBitmap) : SliceData := ⟨b.len, fun i => b.data[i]?⟩

/-- The words, each with the word of a slice or with zero. -/
def zipSlice (f : U64 → U64 → U64) (data : List U64) (rhs : SliceData) : List U64 :=
  data.mapIdx fun i a => f a ((rhs.word i).getD 0)

/-- Source: `GrowingBitmap::and_with` -/
def andWith (b : GrowingBitmap) (rhs : SliceData) : GrowingBitmap :=
  { b with data := zipSlice (· &&& ·) b.data rhs }

/-- Source: `GrowingBitmap::or_with`, with whether a bit has changed -/
def orWith (b : GrowingBitmap) (rhs : SliceData) : Bool × GrowingBitmap :=
  let data := zipSlice (· ||| ·) b.data rhs
  (data != b.data, { b with data })

/-- Source: `GrowingBitmap::clear_from` -/
def clearFrom (b : GrowingBitmap) (rhs : SliceData) : GrowingBitmap :=
  { b with data := zipSlice (fun x y => x &&& ~~~y) b.data rhs }

/-- One step of `GrowingBitmap::extend`. -/
def push (b : GrowingBitmap) (item : Bool) : GrowingBitmap :=
  let data := if item then b.data.modify (b.len / 64) (· ||| twoPow 64 (b.len % 64))
    else b.data
  ⟨data ++ replicate ((b.len + 1) / 64 + 1 - data.length) 0, b.len + 1⟩

/-- Source: `FromIterator<bool>` -/
def ofList (items : List Bool) : GrowingBitmap := items.foldl push ⟨[0], 0⟩

/-- Source: `GrowingBitmap::count_ones` -/
def countOnes (b : GrowingBitmap) : ℕ := (b.data.map popCount).sum

/-- Source: `GrowingBitmap::is_all_zeros` -/
def isAllZeros (b : GrowingBitmap) : Bool := b.data.all (· == 0)

/-- Source: `GrowingBitmap::is_all_ones` -/
def isAllOnes (b : GrowingBitmap) : Bool :=
  if b.len % 64 = 0 then (b.data.take (b.len / 64)).all (· == allOnes 64)
  else match b.data.getLast? with
    | some v => v == bitmaskU64 (b.len % 64) && b.data.dropLast.all (· == allOnes 64)
    | none => true

/-- The first bit in a list of words that starts at the bit `base`. -/
def firstBit : List U64 → ℕ → Option ℕ
  | [], _ => none
  | w :: ws, base => if w = 0 then firstBit ws (base + 64) else some (base + w.ctz.toNat)

/-- The words from the one with the bit `start` on, without the bits before it. -/
def wordsFrom (data : List U64) (start : ℕ) : List U64 :=
  (data.drop (start / 64)).modify 0 (· &&& ~~~(bitmaskU64 (start % 64)))

/-- Source: `GrowingBitmap::first_bit_set_from` -/
def firstBitSetFrom (b : GrowingBitmap) (start : ℕ) : Option ℕ :=
  firstBit (wordsFrom b.data start) (start / 64 * 64)

/-- Source: `GrowingBitmap::first_bit_unset_from` -/
def firstBitUnsetFrom (b : GrowingBitmap) (start : ℕ) : Option ℕ :=
  (firstBit (wordsFrom (b.data.map (~~~·)) start) (start / 64 * 64)).filter (· < b.len)

/-- Source: `GrowingBitmap::iter` -/
def iter (b : GrowingBitmap) : List Bool := (range b.len).map b.get

/-- Source: `GrowingBitmap::iter_one_indices` -/
def iterOneIndices (b : GrowingBitmap) : List ℕ :=
  (range (64 * b.data.length)).filter b.get

/-! ## Which bits are set -/

lemma get_eq (data : List U64) (len n : ℕ) :
    get ⟨data, len⟩ n = (data[n / 64]?.getD 0).getLsbD (n % 64) := rfl

@[simp] lemma get_new (n : ℕ) : new.get n = false := by
  exact getLsbD_zero

/-- Zero words at the end do not matter. -/
lemma get_append_zeros (data : List U64) (k len len' n : ℕ) :
    get ⟨data ++ replicate k 0, len⟩ n = get ⟨data, len'⟩ n := by
  rw [get_eq, get_eq, getElem?_append]
  split
  · rfl
  next hge =>
    rw [getElem?_eq_none (l := data) (by omega), getElem?_replicate]
    split <;> rfl

lemma get_grow (b : GrowingBitmap) (n m : ℕ) : (b.grow n).get m = b.get m := by
  unfold grow
  split
  · exact get_append_zeros b.data _ _ _ m
  · rfl

variable {n : ℕ}

/-- A change of one bit in a word that is there. -/
lemma get_modify {data : List U64} {f : U64 → U64} {v : Bool} (hn : n / 64 < data.length)
    (hf : ∀ w i, i < 64 → (f w).getLsbD i = if i = n % 64 then v else w.getLsbD i) (len m : ℕ) :
    get ⟨data.modify (n / 64) f, len⟩ m = if m = n then v else get ⟨data, len⟩ m := by
  rw [get_eq, get_eq]
  by_cases hword : n / 64 = m / 64
  · rw [← hword, getElem?_modify_eq, getElem?_eq_getElem hn]
    show (f data[n / 64]).getLsbD (m % 64) = _
    rw [hf _ _ (Nat.mod_lt _ (by decide))]
    by_cases hmn : m = n
    · rw [if_pos hmn, if_pos (by rw [hmn])]
    · rw [if_neg hmn, if_neg (by omega)]
      rfl
  · rw [getElem?_modify_ne _ _ hword, if_neg (by rintro rfl; exact hword rfl)]

/-- The words cover the length. -/
def Covers (b : GrowingBitmap) : Prop := b.len ≤ 64 * b.data.length

variable {b : GrowingBitmap}

lemma lt_length_grow (h : b.Covers) (n : ℕ) : n / 64 < (b.grow n).data.length := by
  unfold grow
  split
  · rw [length_append, length_replicate]
    omega
  next hlt =>
    unfold Covers at h
    omega

variable {k : ℕ} {w : U64}

lemma getLsbD_or_twoPow (w : U64) (hk : k < 64) (i : ℕ) :
    (w ||| twoPow 64 k).getLsbD i = if i = k then true else w.getLsbD i := by
  by_cases h : i = k
  · subst h
    simp [hk]
  · simp [h, Ne.symm h]

lemma getLsbD_and_not_twoPow (w : U64) {i : ℕ} (hi : i < 64) :
    (w &&& ~~~(twoPow 64 k)).getLsbD i = if i = k then false else w.getLsbD i := by
  by_cases h : i = k
  · subst h
    simp [hi]
  · simp [h, hi]

lemma get_set (h : b.Covers) (n m : ℕ) : (b.set n).get m = if m = n then true else b.get m := by
  have hmod := get_modify (lt_length_grow h n)
    (fun w i _ => getLsbD_or_twoPow w (Nat.mod_lt n (by decide)) i) (b.grow n).len m
  rw [← get_grow b n m]
  exact hmod

lemma get_reset (h : b.Covers) (n m : ℕ) :
    (b.reset n).get m = if m = n then false else b.get m := by
  have hmod := get_modify (lt_length_grow h n)
    (fun w i hi => getLsbD_and_not_twoPow w hi) (b.grow n).len m
  rw [← get_grow b n m]
  exact hmod

/-- No bit is set outside of the bitmap, and the words cover it. -/
structure WellFormed (b : GrowingBitmap) : Prop where
  covers : b.Covers
  lt_len : ∀ n, b.get n = true → n < b.len

lemma WellFormed.get_eq_false (h : b.WellFormed) (hn : b.len ≤ n) : b.get n = false := by
  rw [← Bool.not_eq_true]
  exact fun hset => Nat.not_lt.mpr hn (h.lt_len n hset)

lemma wellFormed_new : new.WellFormed :=
  ⟨Nat.zero_le _, fun n h => absurd h (by rw [get_new]; nofun)⟩

lemma len_set (b : GrowingBitmap) (n : ℕ) : (b.set n).len = max b.len (n + 1) := by
  show (b.grow n).len = _
  unfold grow
  split
  · show n + 1 = _
    omega
  · omega

lemma len_reset (b : GrowingBitmap) (n : ℕ) : (b.reset n).len = max b.len (n + 1) := len_set b n

lemma covers_set (h : b.Covers) (n : ℕ) : (b.set n).Covers := by
  have hlt := lt_length_grow h n
  unfold Covers at h ⊢
  rw [len_set]
  show _ ≤ 64 * ((b.grow n).data.modify _ _).length
  rw [length_modify]
  have hle : b.data.length ≤ (b.grow n).data.length := by
    unfold grow
    split
    · rw [length_append]
      omega
    · exact Nat.le_refl _
  omega

lemma covers_reset (h : b.Covers) (n : ℕ) : (b.reset n).Covers := by
  have hset := covers_set h n
  have hlength : (b.reset n).data.length = (b.set n).data.length := by
    show ((b.grow n).data.modify _ _).length = ((b.grow n).data.modify _ _).length
    rw [length_modify, length_modify]
  unfold Covers at hset ⊢
  rw [len_reset, ← len_set, hlength]
  exact hset

lemma WellFormed.set (h : b.WellFormed) (n : ℕ) : (b.set n).WellFormed := by
  refine ⟨covers_set h.covers n, fun m hm => ?_⟩
  rw [get_set h.covers] at hm
  rw [len_set]
  split at hm
  · omega
  · have := h.lt_len m hm
    omega

lemma WellFormed.reset (h : b.WellFormed) (n : ℕ) : (b.reset n).WellFormed := by
  refine ⟨covers_reset h.covers n, fun m hm => ?_⟩
  rw [get_reset h.covers] at hm
  rw [len_reset]
  split at hm
  · cases hm
  · have := h.lt_len m hm
    omega

lemma getElem?_zipSlice (f : U64 → U64 → U64) (data : List U64) (rhs : SliceData) (i : ℕ) :
    (zipSlice f data rhs)[i]? = data[i]?.map fun a => f a ((rhs.word i).getD 0) := getElem?_mapIdx

lemma get_andWith (a b : GrowingBitmap) (n : ℕ) :
    (a.andWith b.asSlice).get n = (a.get n && b.get n) := by
  unfold andWith get
  rw [getElem?_zipSlice]
  rcases a.data[n / 64]? with _ | w
  · simp
  · show (w &&& _).getLsbD _ = _
    rw [getLsbD_and]
    rfl

lemma ctz_lt (h : w ≠ 0) : w.ctz.toNat < 64 := by
  by_contra hge
  have hset := BitVec.getLsbD_true_ctz_of_ne_zero h
  rw [BitVec.getLsbD_of_ge _ _ (Nat.le_of_not_lt hge)] at hset
  cases hset

/-! ## The first bit -/

/-- What a search for the first position with a property returns, from a position on. -/
def IsFirst (P : ℕ → Prop) (start : ℕ) : Option ℕ → Prop
  | none => ∀ m, start ≤ m → ¬P m
  | some i => start ≤ i ∧ P i ∧ ∀ m, start ≤ m → P m → i ≤ m

section First

variable {P Q : ℕ → Prop} {start start' : ℕ} {r : Option ℕ}

/-- The search may begin later, behind positions without the property. -/
lemma IsFirst.of_le (h : IsFirst P start' r) (hle : start ≤ start')
    (hskip : ∀ m, start ≤ m → m < start' → ¬P m) : IsFirst P start r := by
  have hfrom : ∀ m, start ≤ m → P m → start' ≤ m := fun m hm hP =>
    Nat.le_of_not_lt fun hlt => hskip m hm hlt hP
  cases r with
  | none => exact fun m hm hP => h m (hfrom m hm hP) hP
  | some i => exact ⟨Nat.le_trans hle h.1, h.2.1, fun m hm hP => h.2.2 m (hfrom m hm hP) hP⟩

/-- The search may begin earlier, if the property says where it begins. -/
lemma IsFirst.of_and (h : IsFirst P start' r) (hle : start' ≤ start)
    (hP : ∀ m, start' ≤ m → (P m ↔ start ≤ m ∧ Q m)) : IsFirst Q start r := by
  have hof : ∀ m, start ≤ m → Q m → start' ≤ m ∧ P m := fun m hm hQ =>
    ⟨Nat.le_trans hle hm, (hP m (Nat.le_trans hle hm)).mpr ⟨hm, hQ⟩⟩
  cases r with
  | none => exact fun m hm hQ => h m (hof m hm hQ).1 (hof m hm hQ).2
  | some i =>
    obtain ⟨hi, hQ⟩ := (hP i h.1).mp h.2.1
    exact ⟨hi, hQ, fun m hm hQ => h.2.2 m (hof m hm hQ).1 (hof m hm hQ).2⟩

/-- The search in the word of the start, of which the bits are the positions that are looked for. -/
lemma isFirst_word (hk : k * 64 ≤ start)
    (hw : ∀ i < 64, w.getLsbD i = true ↔ start ≤ k * 64 + i ∧ P (k * 64 + i)) :
    (w = 0 → ∀ m, start ≤ m → m < (k + 1) * 64 → ¬P m) ∧
      (w ≠ 0 → IsFirst P start (some (k * 64 + w.ctz.toNat))) := by
  have hbit : ∀ m, start ≤ m → m < (k + 1) * 64 → P m → w.getLsbD (m - k * 64) = true := by
    intro m hm hlt hP
    have hsub : k * 64 + (m - k * 64) = m := by omega
    rw [hw _ (by omega), hsub]
    exact ⟨hm, hP⟩
  refine ⟨fun hzero m hm hlt hP => ?_, fun hne => ?_⟩
  · have hset := hbit m hm hlt hP
    rw [hzero] at hset
    cases hset.symm.trans getLsbD_zero
  · have hlt := ctz_lt hne
    obtain ⟨hle, hP⟩ := (hw _ hlt).mp (BitVec.getLsbD_true_ctz_of_ne_zero hne)
    refine ⟨hle, hP, fun m hm hP' => ?_⟩
    by_contra hgt
    have hset := hbit m hm (by omega) hP'
    rw [BitVec.getLsbD_false_of_lt_ctz (by omega)] at hset
    cases hset

end First

lemma firstBit_spec (ws : List U64) (k : ℕ) :
    IsFirst (fun n => (ws[n / 64 - k]?.getD 0).getLsbD (n % 64) = true) (k * 64)
      (firstBit ws (k * 64)) := by
  induction ws generalizing k with
  | nil => exact fun m _ h => nomatch h.symm.trans getLsbD_zero
  | cons w ws ih =>
    obtain ⟨hzero, hfound⟩ := isFirst_word (Nat.le_refl (k * 64))
      (P := fun n => ((w :: ws)[n / 64 - k]?.getD 0).getLsbD (n % 64) = true) fun i hi => by
        rw [show (k * 64 + i) / 64 - k = 0 by omega, show (k * 64 + i) % 64 = i by omega]
        exact ⟨fun h => ⟨Nat.le_add_right _ _, h⟩, And.right⟩
    unfold firstBit
    split
    next hw =>
      have htail := ih (k + 1)
      rw [show k * 64 + 64 = (k + 1) * 64 by omega]
      refine IsFirst.of_le (IsFirst.of_and htail (Nat.le_refl _) fun m hm => ?_) (by omega)
        (hzero hw)
      rw [show m / 64 - k = m / 64 - (k + 1) + 1 by omega]
      exact ⟨fun h => ⟨hm, h⟩, And.right⟩
    next hne => exact hfound hne

lemma getLsbD_mask (hk : k ≤ 64) (i : ℕ) :
    (allOnes 64 >>> (64 - k)).getLsbD i = decide (i < k) := by
  rw [BitVec.getLsbD_ushiftRight, BitVec.getLsbD_allOnes]
  exact decide_eq_decide.mpr (by omega)

lemma getLsbD_bitmaskU64 (hk : k ≤ 64) (i : ℕ) : (bitmaskU64 k).getLsbD i = decide (i < k) := by
  unfold bitmaskU64
  split
  · exact getLsbD_mask hk i
  next hzero =>
    rw [BitVec.ofNat_eq_ofNat, getLsbD_zero, decide_eq_false (by omega)]

lemma getLsbD_wordsFrom (data : List U64) (len : ℕ) {start : ℕ} (h : start / 64 ≤ n / 64) :
    ((wordsFrom data start)[n / 64 - start / 64]?.getD 0).getLsbD (n % 64) = true ↔
      start ≤ n ∧ get ⟨data, len⟩ n = true := by
  unfold wordsFrom
  have hword : start / 64 + (n / 64 - start / 64) = n / 64 := by omega
  rw [get_eq, getElem?_modify, getElem?_drop, hword]
  rcases data[n / 64]? with _ | w
  · simp
  · by_cases hfirst : 0 = n / 64 - start / 64
    · show (ite _ (w &&& ~~~_) w).getLsbD _ = true ↔ _ ∧ w.getLsbD _ = true
      rw [if_pos hfirst, getLsbD_and, BitVec.getLsbD_not, getLsbD_bitmaskU64 (by omega)]
      have hle : start ≤ n ↔ ¬n % 64 < start % 64 := by omega
      have hlt : n % 64 < 64 := Nat.mod_lt _ (by decide)
      simp [hle, hlt, and_comm]
    · simp [hfirst, show start ≤ n by omega]

lemma firstBitSetFrom_spec (b : GrowingBitmap) (start : ℕ) :
    IsFirst (fun n => b.get n = true) start (b.firstBitSetFrom start) :=
  (firstBit_spec _ (start / 64)).of_and (Nat.div_mul_le_self start 64) fun m hm =>
    getLsbD_wordsFrom b.data b.len (by omega)

lemma getElem?_iter (b : GrowingBitmap) (i : ℕ) :
    b.iter[i]? = if i < b.len then some (b.get i) else none := by
  unfold iter
  rw [getElem?_map]
  split
  next hlt => rw [getElem?_range hlt]; rfl
  next hge => rw [getElem?_eq_none (by rw [length_range]; omega)]; rfl

lemma get_push (h : b.len / 64 < b.data.length) (item : Bool) (m : ℕ) :
    (b.push item).get m = if m = b.len ∧ item = true then true else b.get m := by
  unfold push
  rw [get_append_zeros _ _ _ b.len m]
  rcases item with _ | _
  · rw [if_neg (by simp), if_neg (by simp)]
  · rw [if_pos rfl, get_modify h (fun w i _ => getLsbD_or_twoPow w (Nat.mod_lt _ (by decide)) i)]
    by_cases hm : m = b.len
    · rw [if_pos hm, if_pos ⟨hm, rfl⟩]
    · rw [if_neg hm, if_neg fun h => hm h.1]

lemma length_push (b : GrowingBitmap) (item : Bool) :
    (b.push item).len / 64 < (b.push item).data.length := by
  unfold push
  dsimp only
  rw [length_append, length_replicate]
  omega

/-- The bits of a collected bitmap are those of the list. -/
lemma get_ofList_iff {items : List Bool} {m : ℕ} :
    (ofList items).get m = true ↔ items[m]? = some true := by
  have hfold : ∀ (items : List Bool) b, b.len / 64 < b.data.length →
      ((items.foldl push b).get m = true ↔
        b.get m = true ∨ b.len ≤ m ∧ items[m - b.len]? = some true) := by
    intro items
    induction items with
    | nil => simp
    | cons item items ih =>
      intro b hb
      have hlen : (b.push item).len = b.len + 1 := rfl
      rw [foldl_cons, ih _ (length_push b item), get_push hb, hlen, getElem?_cons]
      rcases Nat.lt_trichotomy m b.len with hlt | rfl | hgt
      · simp [show ¬b.len ≤ m by omega, show ¬b.len + 1 ≤ m by omega, show m ≠ b.len by omega]
      · cases item <;> simp [show ¬b.len + 1 ≤ b.len by omega]
      · simp [show b.len ≤ m by omega, show b.len + 1 ≤ m by omega, show m ≠ b.len by omega,
          show m - b.len ≠ 0 by omega, Nat.sub_sub]
  refine (hfold items ⟨[0], 0⟩ (by decide)).trans ⟨fun h => ?_, fun h => .inr ⟨Nat.zero_le _, h⟩⟩
  rcases h with hzero | ⟨-, hget⟩
  · rw [get_eq] at hzero
    rcases hm : m / 64 with _ | k <;> rw [hm] at hzero <;> nomatch hzero.symm.trans getLsbD_zero
  · exact hget

lemma mem_iterOneIndices (h : n ∈ b.iterOneIndices) : b.get n = true := (mem_filter.mp h).2

end GrowingBitmap

end LibLisa.Utils
