import LibLisa.Panic
import Mathlib.Algebra.Group.Nat.Even
import Mathlib.Data.List.Chain

/-!
# Vectors of differences

`DeltaVec` stores an ascending sequence of `u64` values as the first of them and the differences
between neighbours. A difference that fits into a `u16` is one word. A longer one is a zero for each
word but one, followed by its words, the highest one first; that one is not zero, so the zeros before
it give the length.

The vector of a sequence is `ofList`. Every operation leads from one such vector to the next
(`apply_ofList`), and reading it gives the sequence back (`iter_ofList`).

Where no file is given, the source is `utils/delta_vec.rs`.
-/

namespace LibLisa.Utils

open Lib List

/-- Source: `DeltaVec`, over the `u64` values of its items -/
structure DeltaVec where
  data : List U16
  first : ℕ
  last : ℕ
  len : ℕ
deriving DecidableEq

namespace DeltaVec

/-- Source: `DeltaVec::new` -/
def new : DeltaVec := ⟨[], 0, 0, 0⟩

/-- The words of a difference, in `DeltaVec::push`. -/
def encodeDelta (delta : ℕ) : List U16 :=
  if delta < 2 ^ 16 then [BitVec.ofNat 16 delta]
  else
    let size := if delta >>> 32 = 0 then 2 else if delta >>> 48 = 0 then 3 else 4
    List.replicate (size - 1) (0 : U16) ++
      (List.range size).reverse.map fun n => BitVec.ofNat 16 (delta >>> (n * 16))

/-- Source: `DeltaVec::push` -/
def push (v : DeltaVec) (item : ℕ) : Partial DeltaVec :=
  if v.len = 0 then .ok { v with first := item, last := item, len := v.len + 1 }
  else if item < v.last then .error .arithmeticOverflow
  else if item - v.last = 0 then .error .assertionFailed
  else .ok { v with
    data := v.data ++ encodeDelta (item - v.last)
    last := item
    len := v.len + 1 }

/-- Source: `DeltaVec::extend` -/
def extend (v : DeltaVec) (items : List ℕ) : Partial DeltaVec := items.foldlM push v

/-- Source: `DeltaVec::first` -/
def first? (v : DeltaVec) : Option ℕ := if v.len = 0 then none else some v.first

/-- The zeros before a long difference: their number, the word after them, and the rest. -/
def readZeros (len : ℕ) : List U16 → Partial (ℕ × U16 × List U16)
  | [] => .error .assertionFailed
  | n :: rest => if n = 0 then readZeros (len + 1) rest else .ok (len, n, rest)

/-- The words of a long difference after the highest one. -/
def readWords : ℕ → ℕ → List U16 → Partial (ℕ × List U16)
  | 0, delta, rest => .ok (delta, rest)
  | _ + 1, _, [] => .error .assertionFailed
  | len + 1, delta, n :: rest => readWords len ((delta <<< 16) % 2 ^ 64 ||| n.toNat) rest

/-- Source: `read_single_delta` -/
def readSingleDelta : List U16 → Partial (Option (ℕ × List U16))
  | [] => .ok none
  | n :: rest =>
    if n ≠ 0 then .ok (some (n.toNat, rest))
    else do
      let (len, n, rest) ← readZeros 1 rest
      return some (← readWords len n.toNat rest)

/-- Source: `Iter::next`, until there is no difference left -/
def iterFrom : ℕ → ℕ → List U16 → Partial (List ℕ)
  | 0, _, _ => .error .outOfFuel
  | fuel + 1, current, data => do
    match ← readSingleDelta data with
    | some (delta, data) =>
      if 2 ^ 64 ≤ current + delta then .error .arithmeticOverflow
      else return current :: (← iterFrom fuel (current + delta) data)
    | none => return [current]

/-- Source: `DeltaVec::iter`, and the items of `DeltaVec::drain` -/
def iter (v : DeltaVec) : Partial (List ℕ) :=
  if v.len = 0 then .ok [] else iterFrom (v.data.length + 1) v.first v.data

/-- Source: `DeltaVec::retain`. The items are different, so that a closure with
a state answers as a function of the item does. -/
def retain (v : DeltaVec) (f : ℕ → Bool) : Partial DeltaVec := do
  new.extend ((← v.iter).filter f)

/-- An operation on a vector. -/
inductive Op where
  | push (item : ℕ)
  | extend (items : List ℕ)
  | retain (f : ℕ → Bool)

def apply (v : DeltaVec) : Op → Partial DeltaVec
  | .push item => v.push item
  | .extend items => v.extend items
  | .retain f => v.retain f

/-! ## Reading a difference -/

lemma readZeros_replicate (k len : ℕ) {n : U16} (hn : n ≠ 0) (rest : List U16) :
    readZeros len (List.replicate k (0 : U16) ++ n :: rest) = .ok (len + k, n, rest) := by
  induction k generalizing len with
  | zero => exact if_neg hn
  | succ k ih => rw [replicate_succ, cons_append, readZeros, if_pos rfl, ih, Nat.add_right_comm]; rfl

variable {delta : ℕ}

/-- Reading the lower words of a number after its higher ones. -/
lemma readWords_range (hlt : delta < 2 ^ 64) (k : ℕ) (rest : List U16) :
    readWords k (delta / 2 ^ (k * 16)) (((List.range k).reverse.map fun n =>
      BitVec.ofNat 16 (delta >>> (n * 16))) ++ rest) = .ok (delta, rest) := by
  induction k with
  | zero => rw [Nat.zero_mul, Nat.pow_zero, Nat.div_one]; rfl
  | succ k ih =>
    have hdiv : delta / 2 ^ ((k + 1) * 16) = delta / 2 ^ (k * 16) / 2 ^ 16 := by
      rw [Nat.succ_mul, Nat.pow_add, Nat.div_div_eq_div_mul]
    have hle := Nat.div_le_self delta (2 ^ (k * 16))
    have hword : ((delta / 2 ^ ((k + 1) * 16)) <<< 16) % 2 ^ 64 |||
        delta / 2 ^ (k * 16) % 2 ^ 16 = delta / 2 ^ (k * 16) := by
      rw [hdiv, Nat.mod_eq_of_lt (by rw [Nat.shiftLeft_eq]; omega),
        ← Nat.shiftLeft_add_eq_or_of_lt (Nat.mod_lt _ (Nat.two_pow_pos 16)), Nat.shiftLeft_eq]
      omega
    rw [range_succ, reverse_append, reverse_singleton, singleton_append, map_cons, cons_append,
      readWords, BitVec.toNat_ofNat, Nat.shiftRight_eq_div_pow, hword]
    exact ih

lemma readSingleDelta_encodeDelta (hpos : 0 < delta) (hlt : delta < 2 ^ 64) (rest : List U16) :
    readSingleDelta (encodeDelta delta ++ rest) = .ok (some (delta, rest)) := by
  have hword : ∀ d < 2 ^ 16, 0 < d → (BitVec.ofNat 16 d).toNat = d ∧ BitVec.ofNat 16 d ≠ 0 := by
    intro d hd hd'
    have hval : (BitVec.ofNat 16 d).toNat = d := by rw [BitVec.toNat_ofNat, Nat.mod_eq_of_lt hd]
    exact ⟨hval, fun h => by rw [h] at hval; exact absurd hval (Nat.ne_of_lt hd')⟩
  unfold encodeDelta
  split
  next hsmall =>
    obtain ⟨hval, hne⟩ := hword delta hsmall hpos
    rw [singleton_append, readSingleDelta, if_pos hne, hval]
  next hlarge =>
    -- the highest word is not zero
    obtain ⟨k, hk, htop, hne⟩ : ∃ k, (if delta >>> 32 = 0 then 2 else if delta >>> 48 = 0 then 3 else 4) =
        k + 2 ∧ delta / 2 ^ ((k + 1) * 16) < 2 ^ 16 ∧ 0 < delta / 2 ^ ((k + 1) * 16) := by
      split
      · exact ⟨0, rfl, by omega⟩
      · split
        · exact ⟨1, rfl, by omega⟩
        · exact ⟨2, rfl, by omega⟩
    obtain ⟨hval, hne⟩ := hword _ htop hne
    rw [← Nat.shiftRight_eq_div_pow] at hval hne
    dsimp only
    rw [hk, range_succ, reverse_append, reverse_singleton, singleton_append, map_cons, append_assoc,
      cons_append, Nat.add_sub_assoc (by decide), replicate_succ, cons_append, readSingleDelta,
      if_neg (by simp), readZeros_replicate k 1 hne, ok_bind]
    dsimp only
    rw [hval, Nat.add_comm 1 k, Nat.shiftRight_eq_div_pow, readWords_range hlt (k + 1)]
    rfl

/-! ## Reading all values -/

/-- The words of the differences between neighbours, after a first value. -/
def encodeDeltas (previous : ℕ) : List ℕ → List U16
  | [] => []
  | item :: items => encodeDelta (item - previous) ++ encodeDeltas item items

/-- The vector of a sequence. -/
def ofList : List ℕ → DeltaVec
  | [] => new
  | first :: items => ⟨encodeDeltas first items, first, items.getLastD first, items.length + 1⟩

/-- What the sequence of a vector satisfies. -/
def Ascending (items : List ℕ) : Prop := IsChain (· < ·) items ∧ ∀ x ∈ items, x < 2 ^ 64

lemma length_encodeDelta_pos (delta : ℕ) : 0 < (encodeDelta delta).length := by
  unfold encodeDelta
  split
  · exact Nat.one_pos
  · dsimp only
    split
    · simp
    · split <;> simp

variable {items : List ℕ}

lemma iterFrom_encodeDeltas {previous fuel : ℕ} (h : Ascending (previous :: items))
    (hfuel : (encodeDeltas previous items).length < fuel) :
    iterFrom fuel previous (encodeDeltas previous items) = .ok (previous :: items) := by
  induction items generalizing previous fuel with
  | nil =>
    obtain ⟨fuel, rfl⟩ := Nat.exists_eq_add_one_of_ne_zero (Nat.ne_zero_of_lt hfuel)
    rfl
  | cons item items ih =>
    obtain ⟨fuel, rfl⟩ := Nat.exists_eq_add_one_of_ne_zero (Nat.ne_zero_of_lt hfuel)
    obtain ⟨hless, hchain⟩ := isChain_cons_cons.mp h.1
    have hitem := h.2 item (by simp)
    have hpos := length_encodeDelta_pos (item - previous)
    rw [encodeDeltas, length_append] at hfuel
    rw [encodeDeltas, iterFrom, readSingleDelta_encodeDelta (by omega) (by omega), ok_bind]
    dsimp only
    rw [show previous + (item - previous) = item by omega, if_neg (by omega),
      ih ⟨hchain, fun x hx => h.2 x (mem_cons_of_mem _ hx)⟩ (by omega)]
    rfl

lemma iter_ofList (h : Ascending items) : (ofList items).iter = .ok items := by
  cases items with
  | nil => rfl
  | cons first items => exact iterFrom_encodeDeltas h (Nat.lt_succ_self _)

/-! ## The operations -/

lemma encodeDeltas_concat (previous : ℕ) (items : List ℕ) (item : ℕ) :
    encodeDeltas previous (items ++ [item]) =
      encodeDeltas previous items ++ encodeDelta (item - items.getLastD previous) := by
  induction items generalizing previous with
  | nil => exact append_nil _
  | cons next items ih =>
    rw [cons_append, encodeDeltas, encodeDeltas, ih, append_assoc, getLastD_cons]

lemma push_ofList {item : ℕ} (h : Ascending (items ++ [item])) :
    (ofList items).push item = .ok (ofList (items ++ [item])) := by
  cases items with
  | nil => rfl
  | cons first items =>
    have hlast : items.getLastD first < item := by
      rw [getLastD_eq_getLast?]
      exact (isChain_append.mp h.1).2.2 _ getLast?_cons _ rfl
    have hnew : ofList (first :: (items ++ [item])) = ⟨encodeDeltas first items ++
        encodeDelta (item - items.getLastD first), first, item, items.length + 1 + 1⟩ := by
      rw [ofList, encodeDeltas_concat, getLastD_concat, length_append]
      rfl
    rw [cons_append, hnew]
    show (if items.length + 1 = 0 then _ else if item < items.getLastD first then _ else
      if item - items.getLastD first = 0 then _ else _) = _
    rw [if_neg (by omega), if_neg (by omega), if_neg (by omega)]
    rfl

lemma extend_ofList {items more : List ℕ} (h : Ascending (items ++ more)) :
    (ofList items).extend more = .ok (ofList (items ++ more)) := by
  induction more generalizing items with
  | nil => rw [append_nil]; rfl
  | cons item more ih =>
    rw [append_cons] at h ⊢
    have hpush : Ascending (items ++ [item]) :=
      ⟨h.1.left_of_append, fun x hx => h.2 x (mem_append_left _ hx)⟩
    rw [extend, foldlM_cons, push_ofList hpush]
    exact ih h

/-- What an operation does to the sequence. -/
def Op.applyList (items : List ℕ) : Op → List ℕ
  | .push item => items ++ [item]
  | .extend more => items ++ more
  | .retain f => items.filter f

/-- An operation on the deltas is the operation on the list. -/
lemma apply_ofList (h : Ascending items) (op : Op) (hop : Ascending (op.applyList items)) :
    (ofList items).apply op = .ok (ofList (op.applyList items)) := by
  cases op with
  | push item => exact push_ofList hop
  | extend more => exact extend_ofList hop
  | retain f =>
    show ((ofList items).iter >>= fun l => new.extend (l.filter f)) = _
    rw [iter_ofList h]
    exact @extend_ofList [] _ hop

/-- Every value that is pushed is larger than the last one held, so that the sequence ascends. -/
def Allowed (items : List ℕ) : List Op → Prop
  | [] => True
  | op :: ops => Ascending (op.applyList items) ∧ Allowed (op.applyList items) ops

/-- After every allowed sequence of operations the vector yields the values that were pushed and
retained, in order; its first value and its length are those of the sequence. -/
theorem run_iter (ops : List Op) (h : Allowed [] ops) :
    ∃ v, ops.foldlM apply new = .ok v ∧ v.iter = .ok (ops.foldl Op.applyList []) ∧
      v.first? = (ops.foldl Op.applyList []).head? ∧
      v.len = (ops.foldl Op.applyList []).length := by
  have hrun : ∀ items, Ascending items → Allowed items ops → Ascending (ops.foldl Op.applyList items) ∧
      ops.foldlM apply (ofList items) = .ok (ofList (ops.foldl Op.applyList items)) := by
    clear h
    induction ops with
    | nil => exact fun items hitems _ => ⟨hitems, rfl⟩
    | cons op ops ih =>
      intro items hitems h
      rw [foldlM_cons, apply_ofList hitems op h.1]
      exact ih _ h.1 h.2
  obtain ⟨hasc, hok⟩ := hrun [] ⟨.nil, by simp⟩ h
  refine ⟨_, hok, iter_ofList hasc, ?_, ?_⟩
  · cases ops.foldl Op.applyList [] <;> rfl
  · cases ops.foldl Op.applyList [] <;> rfl

/-- A vector with a difference of two words and one of four, of which the middle value is dropped. -/
theorem run_iter_three : ∃ v, [Op.push 5, .extend [70000, 2 ^ 60], .retain (· ≠ 70000)].foldlM apply
    new = .ok v ∧ v.iter = .ok [5, 2 ^ 60] := by
  obtain ⟨v, hv, hiter, -⟩ := run_iter [.push 5, .extend [70000, 2 ^ 60], .retain (· ≠ 70000)]
    (by simp [Allowed, Ascending, Op.applyList])
  exact ⟨v, hv, hiter⟩

end DeltaVec

end LibLisa.Utils
