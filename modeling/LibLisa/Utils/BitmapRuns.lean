import LibLisa.Utils.GrowingBitmap

/-!
# Runs of operations on a growing bitmap

The mutating operations of `bitmap/growing.rs` and the default methods of `BitmapSliceMut`, and what
they do to the invariant that the words cover the length and no bit at or past the length is set.

Operations that set the length cut the words to it and mask the last one. The others mask the last
word too, or only clear bits, or stay below the length; that is not enough in four places:

* `or_with` does not look at the length of the other bitmap;
* `fill_with_ones` and `modify` mask the last word only, which is not the word that the bitmap ends
  in if there are more words than needed, and not at all if the length is a multiple of 64;
* a mutable slice may reach beyond the length;
* `remove` of a bit that is not there shortens the bitmap over its last bit.

`Keeps` says when a call is none of these, and then the invariant holds in every state of a run
(`wellFormed_of_run`).
-/

namespace LibLisa.Utils.GrowingBitmap

open Lib List GrowingBitmap Except
open BitVec (allOnes getLsbD_and getLsbD_zero getLsbD_or)

/-! ## The operations -/

/-- Source: `Vec::resize`, with zeros -/
def resizeWords (data : List U64) (n : ℕ) : List U64 :=
  data.take n ++ List.replicate (n - data.length) 0

/-- Source: `GrowingBitmap::resize` -/
def resize (b : GrowingBitmap) (len : ℕ) : GrowingBitmap :=
  zeroizePastEnd ⟨if (len + 63) / 64 ≠ b.data.length then resizeWords b.data ((len + 63) / 64)
    else b.data, len⟩

/-- Source: `BitOrAssign` -/
def orAssign (b rhs : GrowingBitmap) : GrowingBitmap :=
  ((if b.len < rhs.len then b.resize rhs.len else b).orWith rhs.asSlice).2

/-- Source: `GrowingBitmap::extend` -/
def extend (b : GrowingBitmap) (items : List Bool) : GrowingBitmap :=
  items.foldl push
    ⟨if b.data.length ≤ b.len / 64 then resizeWords b.data (b.len / 64 + 1) else b.data, b.len⟩

/-- Source: `GrowingBitmap::fill_with_ones` -/
def fillWithOnes (b : GrowingBitmap) : GrowingBitmap :=
  zeroizePastEnd { b with data := List.replicate b.data.length (allOnes 64) }

/-- The bit at `i` is replaced by the one after it. -/
def shiftDown (b : GrowingBitmap) (i : ℕ) : GrowingBitmap :=
  if b.get (i + 1) then b.set i else b.reset i

/-- Source: `GrowingBitmap::remove`, with the bit that was removed -/
def remove (b : GrowingBitmap) (n : ℕ) : Partial (Bool × GrowingBitmap) :=
  let shifted := (List.range' n (b.len - n)).foldl shiftDown b
  if shifted.len = 0 then .error .arithmeticOverflow
  else .ok (b.get n, { shifted with len := shifted.len - 1 })

/-- The words shifted down by less than 64 bits. -/
def shiftWords (shift : ℕ) (data : List U64) : List U64 :=
  data.mapIdx fun i (w : U64) =>
    (w >>> shift) ||| ((data[i + 1]?.getD (0 : U64)) <<< (64 - shift))

/-- Source: `GrowingBitmap::remove_front` -/
def removeFront (b : GrowingBitmap) (num : ℕ) : Partial GrowingBitmap :=
  let num := min num b.len
  if b.data.length < num / 64 then .error .indexOutOfBounds
  else
    let kept := b.data.drop (num / 64)
    let data := if num % 64 ≠ 0 then shiftWords (num % 64) kept else kept
    .ok (zeroizePastEnd ⟨data.take ((b.len - num + 63) / 64), b.len - num⟩)

/-- Source: `GrowingBitmap::remove_back` -/
def removeBack (b : GrowingBitmap) (num : ℕ) : Partial GrowingBitmap :=
  if num < b.len then .error .assertionFailed
  else if b.len < num then .error .arithmeticOverflow
  else .ok (zeroizePastEnd ⟨resizeWords b.data ((b.len - num + 63) / 64), b.len - num⟩)

/-! ### Mutable slices -/

/-- A closure of type `FnMut(u64) -> u64`: its result for an argument may depend on the arguments of
the calls before, the last one first, and it may panic. -/
abbrev Closure := List U64 → U64 → Partial U64

/-- A method of `BitmapSliceMut`. -/
inductive SliceCall where
  | clear
  | copyFrom (other : SliceData)
  | clearFrom (other : SliceData)
  | orWith (other : SliceData)
  | modify (f : Closure)

/-- What a method passes to `modify`; `len` is the length of the slice it is called on.
Source: `bitmap/mod.rs`, `BitmapSliceMut` -/
def SliceCall.closure (len : Partial ℕ) : SliceCall → Partial Closure
  | clear => return fun _ _ => return 0
  | copyFrom other => do
    if (← len) = other.len then
      return fun earlier _ => orPanic .assertionFailed (other.word earlier.length)
    else .error .assertionFailed
  | clearFrom other => return fun earlier d => return d &&& ~~~((other.word earlier.length).getD 0)
  | orWith other => return fun earlier d => return d ||| (other.word earlier.length).getD 0
  | modify f => return f

/-- The closure called on one word after the other. -/
def modifyWords (f : Closure) (earlier : List U64) :
    List U64 → Partial (List U64)
  | [] => return []
  | w :: ws => do return (← f earlier w) :: (← modifyWords f (w :: earlier) ws)

/-- Source: `BitmapSliceMut for GrowingBitmap`, `modify` -/
def modify (b : GrowingBitmap) (call : SliceCall) : Partial GrowingBitmap := do
  let f ← call.closure (.ok b.len)
  return zeroizePastEnd { b with data := ← modifyWords f [] b.data }

/-- A word of which the bits below the crop are replaced. -/
def cropInto (crop : ℕ) (old new : U64) : U64 :=
  (old &&& ~~~(allOnes 64 >>> crop)) ||| (new &&& (allOnes 64 >>> crop))

/-- `BitmapSliceMutU64::modify` if the slice starts with a word. -/
def modifyAligned (f : Closure) (crop : ℕ) (earlier : List U64) :
    List U64 → Partial (List U64)
  | [] => return []
  | [w] => do return [cropInto crop w (← f earlier w)]
  | w :: ws => do return (← f earlier w) :: (← modifyAligned f crop (w :: earlier) ws)

/-- What the loop of `BitmapSliceMutU64::modify` hands on. -/
structure ShiftBuffers where
  earlier : List U64
  bufferIn : U64
  bufferOut : U64

/-- The loop of `BitmapSliceMutU64::modify` over the words after the first, with the words that it
writes: each round writes the word before the one it reads. -/
def shiftLoop (f : Closure) (offset : ℕ) :
    ShiftBuffers → List U64 → Partial (List U64 × ShiftBuffers)
  | s, [] => return ([], s)
  | s, item :: items => do
    let oldVal := s.bufferIn ||| (item <<< (64 - offset))
    let newVal ← f s.earlier oldVal
    let (written, s') ←
      shiftLoop f offset ⟨oldVal :: s.earlier, item >>> offset, newVal >>> (64 - offset)⟩ items
    return ((s.bufferOut ||| (newVal <<< offset)) :: written, s')

/-- The last value that is written. -/
def lastValue (f : Closure) (s : ShiftBuffers) (called : Bool) (oldVal : U64) : Partial U64 :=
  if called then f s.earlier oldVal else return 0

/-- `BitmapSliceMutU64::modify` if the slice starts inside a word. -/
def modifyShifted (f : Closure) (offset crop : ℕ) (first : U64) (rest : List U64) :
    Partial (List U64) := do
  let (written, s) ← shiftLoop f offset
    ⟨[], first >>> offset, first &&& ~~~(allOnes 64 <<< offset)⟩ rest
  let last := rest.getLast?.getD first
  let oldVal := s.bufferIn |||
    ((last &&& (allOnes 64 >>> crop)) <<< (64 - offset))
  let newVal ← lastValue f s (rest.isEmpty || decide (crop + offset < 64)) oldVal
  return written ++ [cropInto crop last (s.bufferOut ||| (newVal <<< offset))]

/-- Source: `BitmapSliceMut for BitmapSliceMutU64`, `modify` -/
def modifySlice (f : Closure) (offset crop : ℕ) :
    List U64 → Partial (List U64)
  | [] => return []
  | first :: rest =>
    if offset = 0 then modifyAligned f crop [] (first :: rest)
    else modifyShifted f offset crop first rest

/-- Source: `BitmapSlice for BitmapSliceMutU64`, `len` -/
def sliceLen (words offset crop : ℕ) : Partial ℕ :=
  if words * 64 < offset + crop then .error .arithmeticOverflow else .ok (words * 64 - offset - crop)

/-- A method called on `slice_mut(start..stop)`.
Source: `GrowingBitmap::slice_mut` -/
def sliceMut (b : GrowingBitmap) (start stop : ℕ) (call : SliceCall) : Partial GrowingBitmap := do
  if start = stop then
    let f ← call.closure (sliceLen 0 0 0)
    return { b with data := b.data ++ (← modifySlice f 0 0 []) }
  else
    let startIndex := start / 64
    let endIndex := if stop % 64 ≠ 0 then stop / 64 + 1 else stop / 64
    let crop := if stop % 64 ≠ 0 then 64 - stop % 64 else 0
    if endIndex < startIndex ∨ b.data.length < endIndex then .error .indexOutOfBounds
    else
      let words := (b.data.take endIndex).drop startIndex
      let f ← call.closure (sliceLen words.length (start % 64) crop)
      let written ← modifySlice f (start % 64) crop words
      return { b with data := b.data.take startIndex ++ written ++ b.data.drop endIndex }

/-! ### Calls -/

/-- A constructor of a bitmap. -/
inductive Start where
  | new
  | newAllZeros (num : ℕ)
  | newAllOnes (num : ℕ)
  | collect (items : List Bool)

/-- The bitmap that a constructor returns. -/
def Start.build : Start → GrowingBitmap
  | new => GrowingBitmap.new
  | newAllZeros num => GrowingBitmap.newAllZeros num
  | newAllOnes num => GrowingBitmap.newAllOnes num
  | collect items => GrowingBitmap.new.extend items

/-- A mutating operation of a bitmap. -/
inductive Call where
  | set (n : ℕ)
  | reset (n : ℕ)
  | resize (len : ℕ)
  | extend (items : List Bool)
  | orWith (rhs : SliceData)
  | andWith (rhs : SliceData)
  | orAssign (rhs : GrowingBitmap)
  | fillWithOnes
  | remove (n : ℕ)
  | removeFront (num : ℕ)
  | removeBack (num : ℕ)
  | modify (call : SliceCall)
  | sliceMut (start stop : ℕ) (call : SliceCall)

/-- The bitmap after an operation. -/
def Call.apply (b : GrowingBitmap) : Call → Partial GrowingBitmap
  | set n => return b.set n
  | reset n => return b.reset n
  | resize len => return b.resize len
  | extend items => return b.extend items
  | orWith rhs => return (b.orWith rhs).2
  | andWith rhs => return b.andWith rhs
  | orAssign rhs => return b.orAssign rhs
  | fillWithOnes => return b.fillWithOnes
  | remove n => return (← b.remove n).2
  | removeFront num => b.removeFront num
  | removeBack num => b.removeBack num
  | modify call => b.modify call
  | sliceMut start stop call => b.sliceMut start stop call

/-! ## Masking the last word -/

lemma length_zeroizePastEnd (b : GrowingBitmap) : b.zeroizePastEnd.data.length = b.data.length := by
  unfold zeroizePastEnd
  split
  · exact length_modify _ _ _
  · rfl

lemma len_zeroizePastEnd (b : GrowingBitmap) : b.zeroizePastEnd.len = b.len := by
  unfold zeroizePastEnd
  split <;> rfl

variable {b : GrowingBitmap}

lemma covers_zeroizePastEnd : b.zeroizePastEnd.Covers ↔ b.Covers := by
  unfold Covers
  rw [length_zeroizePastEnd, len_zeroizePastEnd]

/-- Which bits stay set: those outside of the last word, and those below the end in it. -/
lemma get_zeroizePastEnd (b : GrowingBitmap) (n : ℕ) : b.zeroizePastEnd.get n =
    (b.get n && decide (n / 64 + 1 = b.data.length → b.len % 64 ≠ 0 → n % 64 < b.len % 64)) := by
  unfold zeroizePastEnd
  split
  next hmod =>
    unfold get
    by_cases hlast : b.data.length - 1 = n / 64
    · rw [hlast, getElem?_modify_eq]
      rcases hw : b.data[n / 64]? with _ | w
      · simp
      · have hlt := lt_of_getElem? hw
        show (w &&& _).getLsbD _ = (w.getLsbD _ && _)
        rw [getLsbD_and, getLsbD_bitmaskU64 (by omega)]
        congr 1
        rw [decide_eq_decide]
        constructor
        · exact fun h _ _ => h
        · exact fun h => h (by omega) hmod
    · rw [getElem?_modify_ne _ _ hlast]
      rw [decide_eq_true fun h => absurd (by omega) hlast, Bool.and_true]
  next hmod =>
    rw [decide_eq_true fun _ h => absurd h hmod, Bool.and_true]

variable {n : ℕ}

/-- A bit that is set is in one of the words. -/
lemma lt_length_of_get (h : b.get n = true) : n / 64 < b.data.length := by
  by_contra hge
  unfold get at h
  rw [getElem?_eq_none (by omega)] at h
  nomatch h.symm.trans getLsbD_zero

/-- Masking is enough if there are only as many words as the length needs. -/
lemma wellFormed_zeroizePastEnd (h : b.data.length = (b.len + 63) / 64) :
    b.zeroizePastEnd.WellFormed := by
  constructor
  · rw [covers_zeroizePastEnd]
    unfold Covers
    omega
  · intro n hn
    rw [get_zeroizePastEnd, Bool.and_eq_true, decide_eq_true_iff] at hn
    have hword := lt_length_of_get hn.1
    rw [len_zeroizePastEnd]
    by_cases hlast : n / 64 + 1 = b.data.length
    · by_cases hmod : b.len % 64 = 0
      · omega
      · have := hn.2 hlast hmod
        omega
    · omega

/-! ## Operations that keep the invariant -/

variable {b' : GrowingBitmap} {num : ℕ}

/-- Nothing is set that was not set, and the length and the words stay. -/
lemma WellFormed.of_le (h : b.WellFormed) (hlen : b'.len = b.len)
    (hwords : b'.data.length = b.data.length) (hget : ∀ n, b'.get n = true → n < b.len) :
    b'.WellFormed := by
  constructor
  · have hcov := h.covers
    unfold Covers at hcov ⊢
    omega
  · intro n hn
    rw [hlen]
    exact hget n hn

lemma get_zipSlice (f : U64 → U64 → U64) (data : List U64)
    (rhs : SliceData) (len n : ℕ) (hn : n / 64 < data.length) :
    get ⟨zipSlice f data rhs, len⟩ n =
      (f data[n / 64] ((rhs.word (n / 64)).getD 0)).getLsbD (n % 64) := by
  rw [get_eq, getElem?_zipSlice, getElem?_eq_getElem hn]
  rfl

lemma length_zipSlice (f : U64 → U64 → U64) (data : List U64) (rhs : SliceData) :
    (zipSlice f data rhs).length = data.length := length_mapIdx

lemma get_of_lt (hn : n / 64 < b.data.length) : b.get n = b.data[n / 64].getLsbD (n % 64) := by
  unfold get
  rw [getElem?_eq_getElem hn]
  rfl

lemma WellFormed.andWith (h : b.WellFormed) (rhs : SliceData) : (b.andWith rhs).WellFormed := by
  refine h.of_le rfl (length_zipSlice _ _ _) fun n hn => ?_
  have hlt : n / 64 < b.data.length := length_zipSlice _ _ _ ▸ lt_length_of_get hn
  have hand : (b.data[n / 64] &&& (rhs.word (n / 64)).getD 0).getLsbD (n % 64) = true :=
    (get_zipSlice _ _ _ _ _ hlt).symm.trans hn
  rw [getLsbD_and, Bool.and_eq_true] at hand
  exact h.lt_len n ((get_of_lt hlt).trans hand.1)

/-- The slice has no bit at or past the length of the bitmap, in the words of the bitmap. -/
def Within (rhs : SliceData) (b : GrowingBitmap) : Prop :=
  ∀ n, b.len ≤ n → n / 64 < b.data.length → ((rhs.word (n / 64)).getD 0).getLsbD (n % 64) = false

/-- `or_with` keeps the invariant exactly if the other bitmap has no bit past the end of this
one. -/
lemma wellFormed_orWith_iff (h : b.WellFormed) (rhs : SliceData) :
    (b.orWith rhs).2.WellFormed ↔ Within rhs b := by
  have hget : ∀ n, ∀ hn : n / 64 < b.data.length, (b.orWith rhs).2.get n =
      (b.get n || ((rhs.word (n / 64)).getD 0).getLsbD (n % 64)) := by
    intro n hn
    rw [get_of_lt hn, ← getLsbD_or]
    exact get_zipSlice _ _ _ _ _ hn
  constructor
  · intro hor n hle hn
    have hunset := hor.get_eq_false hle
    rw [hget n hn, Bool.or_eq_false_iff] at hunset
    exact hunset.2
  · intro hwithin
    refine h.of_le rfl (length_zipSlice _ _ _) fun n hn => ?_
    have hlt : n / 64 < b.data.length := length_zipSlice _ _ _ ▸ lt_length_of_get hn
    by_contra hge
    rw [hget n hlt, hwithin n (by omega) hlt, Bool.or_false] at hn
    exact hge (h.lt_len n hn)

lemma length_resizeWords (data : List U64) (n : ℕ) : (resizeWords data n).length = n := by
  unfold resizeWords
  rw [length_append, length_take, length_replicate]
  omega

/-- `resize` establishes the invariant. -/
lemma wellFormed_resize (b : GrowingBitmap) (len : ℕ) : (b.resize len).WellFormed := by
  apply wellFormed_zeroizePastEnd
  split
  · exact length_resizeWords _ _
  next heq => exact (not_not.mp heq).symm

lemma len_resize (b : GrowingBitmap) (len : ℕ) : (b.resize len).len = len := len_zeroizePastEnd _

/-- `|=` makes room for the other bitmap first. -/
lemma WellFormed.orAssign {rhs : GrowingBitmap} (h : b.WellFormed) (hrhs : rhs.WellFormed) :
    (b.orAssign rhs).WellFormed := by
  have hwithin : ∀ c : GrowingBitmap, rhs.len ≤ c.len → Within rhs.asSlice c :=
    fun c hc n hn _ => hrhs.get_eq_false (Nat.le_trans hc hn)
  unfold GrowingBitmap.orAssign
  split
  · exact (wellFormed_orWith_iff (wellFormed_resize b rhs.len) _).mpr
      (hwithin _ (Nat.le_of_eq (len_resize b rhs.len).symm))
  · exact (wellFormed_orWith_iff h _).mpr (hwithin _ (by omega))

lemma WellFormed.push (h : b.WellFormed) (hroom : b.len / 64 < b.data.length) (item : Bool) :
    (b.push item).WellFormed := by
  have hlen : (b.push item).len = b.len + 1 := rfl
  refine ⟨?_, fun n hn => ?_⟩
  · have hlength := length_push b item
    unfold Covers
    omega
  · rw [get_push hroom] at hn
    split at hn
    · omega
    · have := h.lt_len n hn
      omega

lemma WellFormed.extend (h : b.WellFormed) (items : List Bool) : (b.extend items).WellFormed := by
  have hfold : ∀ c : GrowingBitmap, c.WellFormed → c.len / 64 < c.data.length →
      (items.foldl GrowingBitmap.push c).WellFormed := fun c hc hroom =>
    (foldlRecOn (motive := fun c => c.WellFormed ∧ c.len / 64 < c.data.length) items _ ⟨hc, hroom⟩
      fun c h item _ => ⟨h.1.push h.2 item, length_push c item⟩).1
  unfold GrowingBitmap.extend
  split
  next hfull =>
    have hwords : resizeWords b.data (b.len / 64 + 1) =
        b.data ++ replicate (b.len / 64 + 1 - b.data.length) 0 := by
      unfold resizeWords
      rw [take_of_length_le (by omega)]
    apply hfold
    · rw [hwords]
      refine ⟨?_, fun n hn => ?_⟩
      · have hcov := h.covers
        unfold Covers at hcov ⊢
        dsimp only
        rw [length_append]
        omega
      · rw [get_append_zeros _ _ _ b.len] at hn
        exact h.lt_len n hn
    · dsimp only
      rw [length_resizeWords]
      omega
  next hroom => exact hfold b h (by omega)

/-- `remove_front` leaves the words that it needs, and masks the last. -/
lemma WellFormed.removeFront (h : b.WellFormed) (hb' : b.removeFront num = .ok b') :
    b'.WellFormed := by
  unfold GrowingBitmap.removeFront at hb'
  dsimp only at hb'
  split at hb'
  · cases hb'
  · obtain rfl := ok.inj hb'
    apply wellFormed_zeroizePastEnd
    have hcov := h.covers
    unfold Covers at hcov
    dsimp only
    rw [length_take]
    split
    · rw [shiftWords, length_mapIdx, length_drop]
      omega
    · rw [length_drop]
      omega

/-- `remove_back` accepts the whole length only. -/
lemma wellFormed_removeBack (hb' : b.removeBack num = .ok b') : b'.WellFormed := by
  unfold removeBack at hb'
  split at hb'
  · cases hb'
  split at hb'
  · cases hb'
  · obtain rfl := ok.inj hb'
    exact wellFormed_zeroizePastEnd (length_resizeWords _ _)

/-- There are only as many words as the length needs. -/
def Tight (b : GrowingBitmap) : Prop := b.data.length = (b.len + 63) / 64

/-- `fill_with_ones` keeps the invariant exactly if there is no word too many. -/
lemma wellFormed_fillWithOnes_iff (h : b.WellFormed) : b.fillWithOnes.WellFormed ↔ b.Tight := by
  constructor
  · intro hfill
    by_contra hloose
    have hcov := h.covers
    unfold Covers at hcov
    unfold Tight at hloose
    -- the first bit of the first word that is not needed stays set
    have hget : b.fillWithOnes.get (64 * ((b.len + 63) / 64)) = true := by
      unfold fillWithOnes
      rw [get_zeroizePastEnd, get_of_lt (by rw [length_replicate]; omega), Bool.and_eq_true,
        getElem_replicate, BitVec.getLsbD_allOnes, decide_eq_true_iff, decide_eq_true_iff]
      exact ⟨Nat.mod_lt _ (by decide), fun _ hmod => by dsimp only at hmod ⊢; omega⟩
    have hlt := hfill.lt_len _ hget
    rw [show b.fillWithOnes.len = b.len from len_zeroizePastEnd _] at hlt
    omega
  · intro htight
    exact wellFormed_zeroizePastEnd (length_replicate.trans htight)

variable {f : Closure} {earlier : List U64} {call : SliceCall}

lemma length_modifyWords {ws ws' : List U64} (h : modifyWords f earlier ws = .ok ws') :
    ws'.length = ws.length := by
  induction ws generalizing earlier ws' with
  | nil =>
    obtain rfl := ok.inj h
    rfl
  | cons w ws ih =>
    obtain ⟨v, vs, -, hvs, rfl⟩ := ok_of_bind₂_ok h
    exact congrArg Nat.succ (ih hvs)

/-- `modify` establishes the invariant if there is no word too many. -/
lemma wellFormed_modify (htight : b.Tight) (hb' : b.modify call = .ok b') : b'.WellFormed := by
  obtain ⟨f, ws, -, hws, rfl⟩ := ok_of_bind₂_ok hb'
  exact wellFormed_zeroizePastEnd ((length_modifyWords hws).trans htight)

/-! ## Removing a bit -/

lemma covers_shiftDown (h : b.Covers) (n : ℕ) : (b.shiftDown n).Covers := by
  unfold shiftDown
  split
  · exact covers_set h n
  · exact covers_reset h n

lemma len_shiftDown {i : ℕ} (hi : i < b.len) : (b.shiftDown i).len = b.len := by
  unfold shiftDown
  split
  · rw [len_set]
    omega
  · rw [len_reset]
    omega

lemma get_shiftDown (h : b.Covers) (n i : ℕ) :
    (b.shiftDown n).get i = if i = n then b.get (n + 1) else b.get i := by
  unfold shiftDown
  split
  next hbit => rw [get_set h, hbit]
  next hbit => rw [get_reset h, eq_false_of_ne_true hbit]

/-- After `k` rounds the bits before the place `n + k` have moved. -/
lemma foldl_shiftDown_spec (h : b.Covers) {k : ℕ} (hk : k ≤ b.len - n) :
    ((range' n k).foldl shiftDown b).Covers ∧ ((range' n k).foldl shiftDown b).len = b.len ∧
      ∀ i, ((range' n k).foldl shiftDown b).get i =
        if n ≤ i ∧ i < n + k then b.get (i + 1) else b.get i := by
  induction k with
  | zero => exact ⟨h, rfl, fun i => (if_neg (by omega)).symm⟩
  | succ k ih =>
    obtain ⟨hcovers, hlen, hget⟩ := ih (by omega)
    rw [range'_1_concat, foldl_append]
    refine ⟨covers_shiftDown hcovers _, (len_shiftDown (by omega)).trans hlen, fun i => ?_⟩
    refine (get_shiftDown hcovers (n + k) i).trans ?_
    rw [hget, hget]
    grind

/-- `remove` keeps the invariant exactly if the bit is there, or the last bit is not set. -/
lemma wellFormed_remove_iff (h : b.WellFormed) {r : Bool × GrowingBitmap}
    (hr : b.remove n = .ok r) : r.2.WellFormed ↔ n < b.len ∨ b.get (b.len - 1) = false := by
  obtain ⟨hcovers, hlen, hget⟩ := foldl_shiftDown_spec h.covers (Nat.le_refl (b.len - n))
  unfold remove at hr
  dsimp only at hr
  split at hr
  · cases hr
  · obtain rfl := ok.inj hr
    rw [hlen]
    constructor
    · intro hwf
      have hlast := (hget _).symm.trans (hwf.get_eq_false (Nat.le_refl (b.len - 1)))
      grind
    · refine fun hfits => ⟨?_, fun i hi => ?_⟩
      · unfold Covers at hcovers ⊢
        dsimp only
        omega
      · have hi := (hget i).symm.trans hi
        have := h.lt_len i
        have := h.lt_len (i + 1)
        dsimp only
        grind

/-! ## Mutable slices -/

/-- The bits past the crop of the last word are kept, and so is the number of words. -/
def KeepsPastCrop (crop : ℕ) (words written : List U64) : Prop :=
  words = [] ∧ written = [] ∨ ∃ init init' last v, words = init ++ [last] ∧
    written = init' ++ [cropInto crop last v] ∧ init'.length = init.length

variable {crop : ℕ} {written words : List U64}

lemma KeepsPastCrop.cons {w : U64} {words' : List U64}
    (h : KeepsPastCrop crop (w :: words) written) (u v : U64) (heq : words' = w :: words) :
    KeepsPastCrop crop (u :: words') (v :: written) := by
  subst heq
  rcases h with ⟨h, -⟩ | ⟨init, init', last, x, hwords, rfl, hlen⟩
  · exact absurd h (cons_ne_nil _ _)
  · refine .inr ⟨u :: init, v :: init', last, x, ?_, rfl, congrArg Nat.succ hlen⟩
    rw [hwords]
    rfl

lemma modifyAligned_spec (h : modifyAligned f crop earlier words = .ok written) :
    KeepsPastCrop crop words written := by
  induction words generalizing earlier written with
  | nil => exact .inl ⟨rfl, (ok.inj h).symm⟩
  | cons w words ih =>
    rcases words with _ | ⟨w', words⟩
    · obtain ⟨v, -, h⟩ := ok_of_bind h
      exact .inr ⟨[], [], w, v, rfl, (ok.inj h).symm, rfl⟩
    · obtain ⟨v, vs, -, hvs, rfl⟩ := ok_of_bind₂_ok h
      exact (ih hvs).cons w v rfl

variable {offset : ℕ}

lemma length_shiftLoop {s : ShiftBuffers} {items : List U64}
    {r : List U64 × ShiftBuffers} (h : shiftLoop f offset s items = .ok r) :
    r.1.length = items.length := by
  induction items generalizing s r with
  | nil =>
    obtain rfl := ok.inj h
    rfl
  | cons item items ih =>
    obtain ⟨v, -, h⟩ := ok_of_bind h
    obtain ⟨⟨written, s'⟩, hloop, rfl⟩ := ok_of_bind_ok h
    exact congrArg Nat.succ (ih hloop)

lemma modifyShifted_spec {first : U64} {rest : List U64}
    (h : modifyShifted f offset crop first rest = .ok written) :
    KeepsPastCrop crop (first :: rest) written := by
  obtain ⟨⟨init', s⟩, hloop, h⟩ := ok_of_bind h
  obtain ⟨v, -, rfl⟩ := ok_of_bind_ok h
  have hlen := length_shiftLoop hloop
  rcases eq_nil_or_concat rest with rfl | ⟨init, last, rfl⟩
  · exact .inr ⟨[], init', first, _, rfl, rfl, hlen⟩
  · refine .inr ⟨first :: init, init', last, s.bufferOut ||| (v <<< offset), ?_, ?_, ?_⟩
    · rw [concat_eq_append]
      rfl
    · rw [concat_eq_append, getLast?_append]
      rfl
    · rw [hlen, length_concat]
      rfl

lemma modifySlice_spec (h : modifySlice f offset crop words = .ok written) :
    KeepsPastCrop crop words written := by
  rcases words with _ | ⟨first, rest⟩
  · exact .inl ⟨rfl, (ok.inj h).symm⟩
  · change (if offset = 0 then _ else _) = _ at h
    split at h
    · exact modifyAligned_spec h
    · exact modifyShifted_spec h

lemma getLsbD_cropInto {i : ℕ} (hi : 64 ≤ crop + i) (old new : U64) :
    (cropInto crop old new).getLsbD i = old.getLsbD i := by
  have hmask : (allOnes 64 >>> crop).getLsbD i = false := by
    rw [BitVec.getLsbD_ushiftRight, BitVec.getLsbD_allOnes, decide_eq_false (by omega)]
  unfold cropInto
  rw [getLsbD_or, getLsbD_and, getLsbD_and, BitVec.getLsbD_not, hmask,
    Bool.and_false, Bool.or_false, Bool.not_false, Bool.and_true]
  by_cases hlt : i < 64
  · rw [decide_eq_true hlt, Bool.and_true]
  · rw [BitVec.getLsbD_of_ge _ _ (by omega), Bool.false_and]

/-- Words may change below a bit if the word with that bit keeps what is past it. -/
lemma get_append_cons_of_le {pre l l' post : List U64} {w w' : U64}
    (hlen : l'.length = l.length) (hn : pre.length + l.length ≤ n / 64)
    (hw : n / 64 = pre.length + l.length → w'.getLsbD (n % 64) = w.getLsbD (n % 64)) (len : ℕ) :
    get ⟨pre ++ (l' ++ [w']) ++ post, len⟩ n = get ⟨pre ++ (l ++ [w]) ++ post, len⟩ n := by
  simp only [get_eq, append_assoc, singleton_append]
  rw [getElem?_append_right (by omega), getElem?_append_right (by omega),
    getElem?_append_right (by omega), getElem?_append_right (by omega), hlen]
  rcases hk : n / 64 - pre.length - l.length with _ | k
  · exact hw (by omega)
  · rfl

/-- A mutable slice that ends in the bitmap keeps the invariant. -/
lemma WellFormed.sliceMut (h : b.WellFormed) {start stop : ℕ} (hstop : stop ≤ b.len)
    (hb' : b.sliceMut start stop call = .ok b') : b'.WellFormed := by
  unfold GrowingBitmap.sliceMut at hb'
  split at hb'
  · obtain ⟨f, ws, -, hws, rfl⟩ := ok_of_bind₂_ok hb'
    obtain rfl := ok.inj hws
    rw [append_nil]
    exact h
  dsimp only at hb'
  generalize hend : (if stop % 64 ≠ 0 then stop / 64 + 1 else stop / 64) = endIndex at hb'
  generalize hcrop : (if stop % 64 ≠ 0 then 64 - stop % 64 else 0) = crop at hb'
  split at hb'
  · cases hb'
  next hbounds =>
    obtain ⟨f, written, -, hwritten, rfl⟩ := ok_of_bind₂_ok hb'
    have hparts : b.data = b.data.take (start / 64) ++ (b.data.take endIndex).drop (start / 64) ++
        b.data.drop endIndex := by
      have hfront : b.data.take (start / 64) = (b.data.take endIndex).take (start / 64) := by
        rw [take_take, Nat.min_eq_left (by omega)]
      rw [hfront, take_append_drop, take_append_drop]
    have hfront : (b.data.take (start / 64)).length = start / 64 := by
      rw [length_take]
      omega
    have hwords : ((b.data.take endIndex).drop (start / 64)).length = endIndex - start / 64 := by
      rw [length_drop, length_take]
      omega
    rcases modifySlice_spec hwritten with ⟨hnil, rfl⟩ | ⟨init, init', last, v, hlast, rfl, hlen⟩
    · rw [hnil] at hparts
      rw [← hparts]
      exact h
    · rw [hlast] at hparts hwords
      rw [length_append, length_singleton] at hwords
      generalize b.data.take (start / 64) = front at hparts hfront ⊢
      generalize b.data.drop endIndex = back at hparts ⊢
      refine h.of_le rfl ?_ fun n hn => ?_
      · simp [hparts, hlen]
      · by_contra hge
        rw [get_append_cons_of_le hlen] at hn
        · rw [← hparts] at hn
          exact hge (h.lt_len n hn)
        · split at hend <;> omega
        · intro hword
          apply getLsbD_cropInto
          split at hend <;> split at hcrop <;> omega

/-! ## Runs -/

lemma get_newAllZeros (num n : ℕ) : (newAllZeros num).get n = false := by
  unfold newAllZeros get
  rw [getElem?_replicate]
  split <;> exact getLsbD_zero

lemma Start.wellFormed_build (s : Start) : s.build.WellFormed := by
  rcases s with _ | num | num | items
  · exact wellFormed_new
  · refine ⟨?_, fun n hn => absurd ((get_newAllZeros num n).symm.trans hn) nofun⟩
    show num ≤ 64 * (replicate (num / 64 + 1) 0).length
    rw [length_replicate]
    omega
  · exact wellFormed_zeroizePastEnd length_replicate
  · exact wellFormed_new.extend items

/-- The call does not set a bit past the end. -/
def Call.Keeps (b : GrowingBitmap) : Call → Prop
  | orWith rhs => Within rhs b
  | orAssign rhs => rhs.WellFormed
  | fillWithOnes => b.Tight
  | modify _ => b.Tight
  | remove n => n < b.len ∨ b.get (b.len - 1) = false
  | sliceMut _ stop _ => stop ≤ b.len
  | set _ | reset _ | resize _ | extend _ | andWith _ | removeFront _ | removeBack _ => True

lemma Call.wellFormed_apply {c : Call} (h : b.WellFormed) (hkeeps : c.Keeps b)
    (hb' : c.apply b = .ok b') : b'.WellFormed := by
  cases c with
  | set n => exact ok.inj hb' ▸ h.set n
  | reset n => exact ok.inj hb' ▸ h.reset n
  | resize len => exact ok.inj hb' ▸ wellFormed_resize b len
  | extend items => exact ok.inj hb' ▸ h.extend items
  | orWith rhs => exact ok.inj hb' ▸ (wellFormed_orWith_iff h rhs).mpr hkeeps
  | andWith rhs => exact ok.inj hb' ▸ h.andWith rhs
  | orAssign rhs => exact ok.inj hb' ▸ h.orAssign hkeeps
  | fillWithOnes => exact ok.inj hb' ▸ (wellFormed_fillWithOnes_iff h).mpr hkeeps
  | remove n =>
    obtain ⟨r, hr, hb'⟩ := ok_of_bind hb'
    exact ok.inj hb' ▸ (wellFormed_remove_iff h hr).mpr hkeeps
  | removeFront num => exact h.removeFront hb'
  | removeBack num => exact wellFormed_removeBack hb'
  | modify call => exact wellFormed_modify hkeeps hb'
  | sliceMut start stop call => exact h.sliceMut hkeeps hb'

/-- The states that a constructor and calls lead to, if every call meets `Keeps` in the state that it
is made in. -/
inductive Reached : GrowingBitmap → Prop
  | build (s : Start) : Reached s.build
  | apply {b b' : GrowingBitmap} {c : Call} (h : Reached b) (hkeeps : c.Keeps b)
      (hb' : c.apply b = .ok b') : Reached b'

/-- After any sequence of calls that set no bit past the end, the words cover the length and every
stored bit at or past it is zero. -/
theorem wellFormed_of_run {b : GrowingBitmap} (h : Reached b) :
    b.len ≤ 64 * b.data.length ∧ ∀ n, b.len ≤ n → b.get n = false := by
  have hwf : b.WellFormed := by
    induction h with
    | build s => exact s.wellFormed_build
    | apply _ hkeeps hb' ih => exact Call.wellFormed_apply ih hkeeps hb'
  exact ⟨hwf.covers, fun n => hwf.get_eq_false⟩

/-- Setting a bit past the end of three zeros. -/
theorem wellFormed_of_run_set : ∃ b, Reached b ∧ b = ⟨[0x20#64], 6⟩ ∧
    b.len ≤ 64 * b.data.length ∧ ∀ n, b.len ≤ n → b.get n = false := by
  have hrun : Reached ⟨[0x20#64], 6⟩ :=
    .apply (c := .set 5) (.build (.newAllZeros 3)) trivial (by decide)
  exact ⟨_, hrun, rfl, wellFormed_of_run hrun⟩

/-- Filling a bitmap of 64 zeros sets 128 bits, and a bitmap of one bit gets a second one from a
longer bitmap. -/
theorem fillWithOnes_past_end :
    (Call.fillWithOnes.apply (Start.newAllZeros 64).build =
        .ok ⟨[allOnes 64, allOnes 64], 64⟩ ∧
      get ⟨[allOnes 64, allOnes 64], 64⟩ 64 = true) ∧
    ((Call.orWith (newAllOnes 2).asSlice).apply (Start.newAllZeros 1).build = .ok ⟨[3#64], 1⟩ ∧
      get ⟨[3#64], 1⟩ 1 = true) := by
  refine ⟨⟨?_, ?_⟩, ?_, ?_⟩ <;> decide

end LibLisa.Utils.GrowingBitmap
