import LibLisa.Instr.FilterAlgebra

/-!
# The next instruction that a filter matches

`next_matching_instruction` starts from the smallest matching instruction and copies the bits of the
given instruction into it for as long as the filter admits them (`followLoop`). If the result is
still too small, it goes back from the right, clearing the free bits that are one, to the last free
bit that is zero and sets it (`carryLoop`).

While it follows, the result is the instruction up to some position and least from there on. While
it carries, the filter admits nothing from the rest of the instruction on (`Cube.NoNext`), so the
position moves to the left; it stops before the first bit because the largest matching instruction
is not below the given one. `nextMatchingInstruction_exact` puts the two together.
-/

namespace LibLisa

open Lib List Cube Instruction

/-- Source: `instr/mod.rs`, `FromIterator<u8> for Instruction` -/
def Instruction.fromIter (bytes : List U8) : Partial Instruction :=
  if h : bytes.length ≤ 15 then .ok ⟨bytes, h⟩ else .error .indexOutOfBounds

namespace InstructionFilter

/-- Source: `instr/filter.rs`, `InstructionFilter::smallest_matching_instruction` -/
def smallestMatchingInstruction (f : InstructionFilter) : Partial Instruction :=
  fromIter (f.data.map fun bf => bf.value &&& bf.mask)

/-- Source: `instr/filter.rs`, `InstructionFilter::largest_matching_instruction` -/
def largestMatchingInstruction (f : InstructionFilter) : Partial Instruction :=
  fromIter (f.data.map fun bf => (bf.value &&& bf.mask) ||| ~~~bf.mask)

/-- The loop of `next_matching_instruction` from the left, with `rest` bits left from `bit` on. -/
def followLoop (f : InstructionFilter) (instr : Instruction) :
    (rest : ℕ) → (bit : ℕ) → Instruction → Partial Instruction
  | 0, _, result => .ok result
  | rest + 1, bit, result => do
    match ← instr.nthBitFromLeft bit, ← result.nthBitFromLeft bit with
    | false, false | true, true => followLoop f instr rest (bit + 1) result
    | true, false =>
      if (← f.nthBitFromLeft bit) = .wildcard then
        followLoop f instr rest (bit + 1) (← result.withNthBitFromLeft bit true)
      else return result
    | false, true => return result

/-- The loop of `next_matching_instruction` from the right, over the first `bit` bits. -/
def carryLoop (f : InstructionFilter) (instr : Instruction) :
    (bit : ℕ) → Instruction → Partial Instruction
  | 0, result => .ok result
  | bit + 1, result => do
    if (← f.nthBitFromLeft bit) = .wildcard then
      if (← result.nthBitFromLeft bit) = false then
        let new ← result.withNthBitFromLeft bit true
        if instr < new then return new else carryLoop f instr bit result
      else carryLoop f instr bit (← result.withNthBitFromLeft bit false)
    else carryLoop f instr bit result

/-- Source: `instr/filter.rs`, `InstructionFilter::next_matching_instruction` -/
def nextMatchingInstruction (f : InstructionFilter) (instr : Instruction) :
    Partial (Option Instruction) := do
  if (← f.largestMatchingInstruction) < instr then return none
  else
    let smallest ← f.smallestMatchingInstruction
    let len := min smallest.bitLen instr.bitLen
    let result ← followLoop f instr len 0 smallest
    if result < instr then return some (← carryLoop f instr len result)
    else return some result

/-! ## The smallest and the largest matching instruction -/

variable {f : InstructionFilter}

/-- An instruction whose bytes match the filter and have given bits. -/
lemma fromIter_spec (hf : f.WellFormed) (g : ByteFilter → U8) (d : Option Bool → Bool)
    (hg : ∀ bf : ByteFilter, ∀ i < 8, (g bf).getMsbD i = d (bf.bitAt i).asBit) :
    ∃ x, fromIter (f.data.map g) = .ok x ∧ x.bits = f.cube.map d := by
  have hlen : (f.data.map g).length ≤ 15 := (length_map _).trans_le hf
  refine ⟨⟨_, hlen⟩, dif_pos hlen, ?_⟩
  show bitsOf (f.data.map g) = _
  unfold bitsOf cube bits
  rw [flatMap_map, map_flatMap, map_flatMap]
  congr 1
  funext bf
  show (List.range 8).map (g bf).getMsbD = _
  rw [map_map, map_map]
  apply map_congr_left
  intro i hi
  exact hg bf i (mem_range.mp hi)

lemma smallestMatchingInstruction_spec (hf : f.WellFormed) :
    ∃ x, f.smallestMatchingInstruction = .ok x ∧ x.bits = f.cube.least := by
  refine fromIter_spec hf _ (·.getD false) fun bf i hi => ?_
  rw [BitVec.getMsbD_and, ByteFilter.bitAt_eq bf hi]
  rcases hm : bf.mask.getMsbD i with _ | _
  · rw [Bool.and_false]
    rfl
  · rcases hv : bf.value.getMsbD i with _ | _ <;> rfl

lemma largestMatchingInstruction_spec (hf : f.WellFormed) :
    ∃ x, f.largestMatchingInstruction = .ok x ∧ x.bits = f.cube.greatest := by
  refine fromIter_spec hf _ (·.getD true) fun bf i hi => ?_
  rw [BitVec.getMsbD_or, BitVec.getMsbD_and, BitVec.getMsbD_not, ByteFilter.bitAt_eq bf hi,
    decide_eq_true hi]
  rcases hm : bf.mask.getMsbD i with _ | _
  · rw [Bool.not_false, Bool.true_and, Bool.or_true]
    rfl
  · rcases hv : bf.value.getMsbD i with _ | _ <;> rfl

/-! ## Reading bits -/

variable {instr x y : Instruction} {p n : ℕ}

/-- The filter bit at a position as a position of the cube. -/
lemma nthBitFromLeft_spec (h : n < f.cube.length) :
    ∃ bit, f.nthBitFromLeft n = .ok bit ∧ (bit = .wildcard ↔ f.cube[n] = none) := by
  have hn : n < f.bits.length := by
    rw [length_bits, ← length_cube]
    exact h
  refine ⟨f.bits[n], nthBitFromLeft_eq hn, ?_⟩
  rw [show f.cube[n] = f.bits[n].asBit from getElem_map _]
  rcases f.bits[n] with _ | _ | _ <;> decide

lemma set_of_getElem? {b : Bool} (h : x.bits[n]? = some b) : x.bits.set n b = x.bits := by
  obtain ⟨hn, rfl⟩ := List.getElem?_eq_some_iff.mp h
  exact set_getElem_self hn

/-- The instruction up to bit `n`, and the smallest matching one from there on. -/
structure Follows (f : InstructionFilter) (instr : Instruction) (n : ℕ) (x : Instruction) : Prop where
  le_cube : n ≤ f.cube.length
  le_bits : n ≤ instr.bits.length
  admitted : Cube.Admits (f.cube.take n) (instr.bits.take n)
  bits_eq : x.bits = splice instr.bits f.cube.least n

namespace Follows

lemma length_least (f : InstructionFilter) : f.cube.least.length = f.cube.length := length_map _

lemma length_bits_eq (h : Follows f instr n x) : x.bits.length = f.cube.length := by
  rw [h.bits_eq, length_splice h.le_bits (by rw [length_least]; exact h.le_cube), length_least]

lemma lt_bitLen (h : Follows f instr p x) (hn : n < f.cube.length) : n < x.bitLen := by
  rw [← Instruction.length_bits, h.length_bits_eq]
  exact hn

/-- From bit `n` on the result has the smallest bits. -/
lemma getElem?_of_ge (h : Follows f instr p x) (hp : p ≤ n) (hn : n < f.cube.length) :
    x.bits[n]? = some (f.cube[n].getD false) := by
  rw [h.bits_eq, getElem?_splice_of_ge h.le_bits hp, least, getElem?_map, getElem?_eq_getElem hn]
  rfl

/-- Before bit `n` it has the bits of the instruction. -/
lemma getElem?_of_lt (h : Follows f instr p x) (hn : n < p) : x.bits[n]? = instr.bits[n]? := by
  rw [h.bits_eq, getElem?_splice_of_lt h.le_bits hn]

/-- One more bit of the instruction is copied. -/
lemma succ (h : Follows f instr n x) (hc : n < f.cube.length) (hb : n < instr.bits.length)
    (hbit : admits f.cube[n] instr.bits[n] = true) (hy : y.bits = x.bits.set n instr.bits[n]) :
    Follows f instr (n + 1) y := by
  refine ⟨hc, hb, ?_, ?_⟩
  · rw [take_succ_eq_append_getElem hc, take_succ_eq_append_getElem hb]
    exact (forall₂_append_iff h.admitted.length_eq).mpr ⟨h.admitted, .cons hbit .nil⟩
  · rw [hy, h.bits_eq, splice_set_left hb (by rw [length_least]; exact hc)]

lemma admits_pred (h : Admits (f.cube.take (n + 1)) (instr.bits.take (n + 1)))
    (hc : n < f.cube.length) (hb : n < instr.bits.length) :
    Admits (f.cube.take n) (instr.bits.take n) ∧ admits f.cube[n] instr.bits[n] = true := by
  rw [take_succ_eq_append_getElem hc, take_succ_eq_append_getElem hb] at h
  have hlen : (f.cube.take n).length = (instr.bits.take n).length := by
    rw [length_take_of_le hc.le, length_take_of_le hb.le]
  obtain ⟨hinit, hlast⟩ := (forall₂_append_iff hlen).mp h
  exact ⟨hinit, (List.forall₂_cons.mp hlast).1⟩

/-- One bit of the instruction is given back. -/
lemma pred (h : Follows f instr (n + 1) x) (hc : n < f.cube.length)
    (hy : y.bits = x.bits.set n (f.cube[n].getD false)) : Follows f instr n y := by
  have hb : n < instr.bits.length := h.le_bits
  refine ⟨hc.le, hb.le, (admits_pred h.admitted hc hb).1, ?_⟩
  have hm : n < f.cube.least.length := by
    rw [length_least]
    exact hc
  have hget : f.cube.least[n] = f.cube[n].getD false := getElem_map fun o : Option Bool => o.getD false
  rw [hy, h.bits_eq, ← hget, splice_set_right hb hm]

/-- What the result is compared with the instruction. -/
lemma bits_eq_append (h : Follows f instr n x) :
    x.bits = instr.bits.take n ++ least (f.cube.drop n) := by
  rw [h.bits_eq, splice, least, least, map_drop]

end Follows

/-- Where following the instruction ends: with the shorter of the two, or at a bit that the filter
does not admit. -/
def Stops (f : InstructionFilter) (instr : Instruction) (p : ℕ) : Prop :=
  p = min f.cube.length instr.bits.length ∨
    ∃ b, instr.bits[p]? = some b ∧ f.cube[p]? = some (some !b)

lemma followLoop_spec (f : InstructionFilter) (instr : Instruction) :
    ∀ (rest n : ℕ) (x : Instruction), n + rest = min f.cube.length instr.bits.length →
      Follows f instr n x → ∃ p y, followLoop f instr rest n x = .ok y ∧ Follows f instr p y ∧
        Stops f instr p := by
  intro rest
  induction rest with
  | zero => exact fun n x hn hx => ⟨n, x, rfl, hx, .inl hn⟩
  | succ rest ih =>
    intro n x hn hx
    have hc : n < f.cube.length := by omega
    have hb : n < instr.bits.length := by omega
    obtain ⟨bit, hbit, hwild⟩ := nthBitFromLeft_spec hc
    have hnext : n + 1 + rest = min f.cube.length instr.bits.length := by omega
    have hget := hx.getElem?_of_ge le_rfl hc
    unfold followLoop
    rw [Instruction.nthBitFromLeft_eq hb, nthBitFromLeft_of_getElem? hget]
    -- the bit is kept if the smallest instruction has it already
    have hkeep : f.cube[n].getD false = instr.bits[n] →
        ∃ p y, followLoop f instr rest (n + 1) x = .ok y ∧ Follows f instr p y ∧
          Stops f instr p := by
      intro heq
      refine ih (n + 1) x hnext (hx.succ hc hb ?_ ?_)
      · rw [← heq]
        rcases f.cube[n] with _ | v
        · rfl
        · exact beq_self_eq_true v
      · rw [← heq, set_of_getElem? hget]
    have hstop : f.cube[n] = some !instr.bits[n] → Stops f instr n := fun hfix =>
      .inr ⟨_, getElem?_eq_getElem hb, by rw [getElem?_eq_getElem hc, hfix]⟩
    rcases hi : instr.bits[n] with _ | _ <;> rcases ho : f.cube[n] with _ | _ | _
    · exact hkeep (by rw [hi, ho]; rfl)
    · exact hkeep (by rw [hi, ho]; rfl)
    · -- a zero, but the filter asks for a one
      exact ⟨n, x, rfl, hx, hstop (by rw [hi, ho]; rfl)⟩
    · show ∃ p y, (f.nthBitFromLeft n >>= _) = _ ∧ _
      rw [hbit, ok_bind, if_pos (hwild.mpr ho), withNthBitFromLeft_eq true (hx.lt_bitLen hc),
        ok_bind]
      refine ih (n + 1) _ hnext (hx.succ hc hb ?_ ?_)
      · rw [ho]
        rfl
      · rw [bits_setBitAt, hi]
    · -- a one, but the filter asks for a zero
      show ∃ p y, (f.nthBitFromLeft n >>= _) = _ ∧ _
      rw [hbit, ok_bind, if_neg (by rw [hwild, ho]; exact nofun)]
      exact ⟨n, x, rfl, hx, hstop (by rw [hi, ho]; rfl)⟩
    · exact hkeep (by rw [hi, ho]; rfl)

/-! ## Carrying -/

/-- The bits of the cube and of the instruction from a position on. -/
lemma noNext_pred (hc : n < f.cube.length) (hb : n < instr.bits.length)
    (h : NoNext (f.cube.drop (n + 1)) (instr.bits.drop (n + 1)))
    (hraise : instr.bits[n] = true ∨ admits f.cube[n] true = false) :
    NoNext (f.cube.drop n) (instr.bits.drop n) := by
  rw [drop_eq_getElem_cons hc, drop_eq_getElem_cons hb]
  exact noNext_cons (fun _ => h) hraise

/-- The last free zero is raised. -/
lemma isNext_raised (hx : Follows f instr (n + 1) x) (hc : n < f.cube.length)
    (hb : n < instr.bits.length) (h : NoNext (f.cube.drop (n + 1)) (instr.bits.drop (n + 1)))
    (hfree : f.cube[n] = none) (hzero : instr.bits[n] = false) :
    IsNext f.cube instr.bits (x.setBitAt n true).bits ∧ instr < x.setBitAt n true := by
  have hbits : (x.setBitAt n true).bits =
      instr.bits.take n ++ true :: least (f.cube.drop (n + 1)) := by
    rw [bits_setBitAt, hx.bits_eq, splice_set hb, least, least, map_drop]
  have hinstr : instr.bits = instr.bits.take n ++ false :: instr.bits.drop (n + 1) := by
    rw [← hzero, ← drop_eq_getElem_cons hb, take_append_drop]
  have hcube : f.cube = f.cube.take n ++ none :: f.cube.drop (n + 1) := by
    rw [← hfree, ← drop_eq_getElem_cons hc, take_append_drop]
  constructor
  · rw [hbits]
    have hadm := (Follows.admits_pred hx.admitted hc hb).1
    have hnext := isNext_append hadm (isNext_raise (o := none) rfl fun _ => h)
    rw [← hcube, ← hinstr] at hnext
    exact hnext
  · rw [lt_iff_bits_lt, hbits]
    nth_rewrite 1 [hinstr]
    rw [append_lt_append_iff rfl, cons_lt_cons_iff]
    exact .inr ⟨rfl, .inl Bool.false_lt_true⟩

/-- As long as the filter admits nothing from the rest of the instruction on, the position moves to
the left. -/
lemma carryLoop_spec (hex : ¬ NoNext f.cube instr.bits) :
    ∀ (n : ℕ) (x : Instruction), Follows f instr n x →
      NoNext (f.cube.drop n) (instr.bits.drop n) →
      ∃ y, carryLoop f instr n x = .ok y ∧ IsNext f.cube instr.bits y.bits := by
  intro n
  induction n with
  | zero =>
    intro x _ h
    exact absurd h hex
  | succ n ih =>
    intro x hx h
    have hc : n < f.cube.length := hx.le_cube
    have hb : n < instr.bits.length := hx.le_bits
    have hlt := hx.lt_bitLen hc
    have hget : x.bits[n]? = some instr.bits[n] := by
      rw [hx.getElem?_of_lt (Nat.lt_succ_self n), getElem?_eq_getElem hb]
    obtain ⟨bit, hbit, hwild⟩ := nthBitFromLeft_spec hc
    unfold carryLoop
    rw [hbit, ok_bind]
    rcases hfree : f.cube[n] with _ | v
    · rw [if_pos (hwild.mpr hfree), nthBitFromLeft_of_getElem? hget, ok_bind]
      by_cases hzero : instr.bits[n] = false
      · obtain ⟨hnext, hgt⟩ := isNext_raised hx hc hb h hfree hzero
        rw [if_pos hzero, withNthBitFromLeft_eq true hlt, ok_bind, if_pos hgt]
        exact ⟨_, rfl, hnext⟩
      · have hone : instr.bits[n] = true := Bool.eq_true_of_not_eq_false hzero
        rw [if_neg hzero, withNthBitFromLeft_eq false hlt]
        refine ih _ (hx.pred hc ?_) (noNext_pred hc hb h (.inl hone))
        rw [bits_setBitAt, hfree]
        rfl
    · rw [if_neg (by rw [hwild, hfree]; exact nofun)]
      obtain ⟨-, hadm⟩ := Follows.admits_pred hx.admitted hc hb
      -- a fixed bit: it is the one of the instruction
      rw [hfree] at hadm
      have hv := eq_of_beq hadm
      refine ih x (hx.pred hc ?_) (noNext_pred hc hb h ?_)
      · rw [hfree, Option.getD_some, hv, set_of_getElem? hget]
      · rw [hfree, hv]
        rcases instr.bits[n] with _ | _
        · exact .inr rfl
        · exact .inl rfl

/-- Behind a one that the filter does not admit, no bit can make up for it. -/
lemma carryLoop_skip (hx : Follows f instr p x) (hone : instr.bits[p]? = some true)
    (hfixed : f.cube[p]? = some (some false)) :
    ∀ n, p ≤ n → n ≤ f.cube.length → carryLoop f instr n x = carryLoop f instr p x := by
  intro n hp
  induction n, hp using Nat.le_induction with
  | base => exact fun _ => rfl
  | succ n hp ih =>
    intro hlen
    have hc : n < f.cube.length := hlen
    rw [← ih hc.le]
    have hlt := hx.lt_bitLen hc
    obtain ⟨bit, hbit, hwild⟩ := nthBitFromLeft_spec hc
    rw [carryLoop, hbit, ok_bind]
    by_cases hfree : f.cube[n] = none
    · have hpn : p < n := by
        rcases Nat.lt_or_eq_of_le hp with hlt | rfl
        · exact hlt
        · rw [getElem?_eq_getElem hc, hfree] at hfixed
          cases hfixed
      have hnot : ¬ instr < x.setBitAt n true := by
        have hpb : p < instr.bits.length := lt_of_getElem? hone
        have hinstr : instr.bits = instr.bits.take p ++ true :: instr.bits.drop (p + 1) := by
          rw [← (List.getElem?_eq_some_iff.mp hone).2, ← List.drop_eq_getElem_cons hpb,
            take_append_drop]
        obtain ⟨hpc, hcp⟩ := List.getElem?_eq_some_iff.mp hfixed
        have hleast : least (f.cube.drop p) = false :: least (f.cube.drop (p + 1)) := by
          rw [drop_eq_getElem_cons hpc, hcp]
          rfl
        have hset : (x.setBitAt n true).bits = instr.bits.take p ++
            false :: (least (f.cube.drop (p + 1))).set (n - p - 1) true := by
          have htake : (instr.bits.take p).length = p := length_take_of_le hpb.le
          rw [bits_setBitAt, hx.bits_eq_append, hleast,
            set_append_right _ _ (htake.trans_le hp), htake,
            show n - p = (n - p - 1) + 1 by omega, set_cons_succ, Nat.add_sub_cancel]
        rw [lt_iff_bits_lt, hset]
        nth_rewrite 1 [hinstr]
        rw [append_lt_append_iff rfl, cons_lt_cons_iff]
        rintro (hlt | ⟨-, hlt | ⟨heq, -⟩⟩)
        · exact lt_irrefl _ hlt
        · exact absurd hlt (not_lt_of_ge (Bool.false_le true))
        · cases heq
      rw [if_pos (hwild.mpr hfree), nthBitFromLeft_of_getElem? (hx.getElem?_of_ge hp hc), hfree,
        ok_bind, Option.getD_none, if_pos rfl, withNthBitFromLeft_eq true hlt, ok_bind,
        if_neg hnot]
    · rw [if_neg (hwild.not.mpr hfree)]

/-! ## The next instruction -/

/-- After the position where following ends there is either nothing from the instruction on, or the
smallest bits are next. -/
lemma next_of_stops (hp : p ≤ f.cube.length) (hstop : Stops f instr p) :
    IsNext (f.cube.drop p) (instr.bits.drop p) (least (f.cube.drop p)) ∨
    (NoNext (f.cube.drop p) (instr.bits.drop p) ∧ (p = f.cube.length ∨
      instr.bits[p]? = some true ∧ f.cube[p]? = some (some false))) := by
  rcases hstop with hmin | ⟨b, hb, hc⟩
  · by_cases hshort : instr.bits.length ≤ f.cube.length
    · left
      rw [hmin, min_eq_right hshort, drop_length]
      exact isNext_nil _
    · right
      have hpc : p = f.cube.length := by omega
      refine ⟨?_, .inl hpc⟩
      rw [hpc, drop_length, drop_eq_getElem_cons (by omega)]
      exact noNext_nil_cons _ _
  · obtain ⟨hpb, hbit⟩ := List.getElem?_eq_some_iff.mp hb
    obtain ⟨hpc, hfix⟩ := List.getElem?_eq_some_iff.mp hc
    rw [drop_eq_getElem_cons hpb, drop_eq_getElem_cons hpc, hbit, hfix]
    rcases b with _ | _
    · exact .inl (isNext_raise rfl nofun)
    · exact .inr ⟨noNext_cons nofun (.inl rfl), .inr ⟨hb, hc⟩⟩

lemma nextMatchingInstruction_spec (hf : f.WellFormed) (instr : Instruction) :
    ∃ r, f.nextMatchingInstruction instr = .ok r ∧
      (r = none → NoNext f.cube instr.bits) ∧
      ∀ y, r = some y → IsNext f.cube instr.bits y.bits := by
  obtain ⟨largest, hlargest, hmax⟩ := largestMatchingInstruction_spec hf
  obtain ⟨smallest, hsmallest, hmin⟩ := smallestMatchingInstruction_spec hf
  unfold nextMatchingInstruction
  rw [hlargest, ok_bind]
  split
  next hlt =>
    refine ⟨none, rfl, fun _ m hm => ?_, nofun⟩
    rw [lt_iff_bits_lt, hmax] at hlt
    exact (not_lt.mp (not_greatest_lt hm)).trans_lt hlt
  next hlt =>
    have hex : ¬ NoNext f.cube instr.bits := by
      apply not_noNext_of_not_greatest_lt
      rw [← hmax, ← lt_iff_bits_lt]
      exact hlt
    have hstart : Follows f instr 0 smallest := ⟨Nat.zero_le _, Nat.zero_le _, .nil, hmin⟩
    have hlen : min smallest.bitLen instr.bitLen = min f.cube.length instr.bits.length := by
      rw [← Instruction.length_bits, ← Instruction.length_bits, hstart.length_bits_eq]
    rw [hsmallest, ok_bind]
    dsimp only
    rw [hlen]
    obtain ⟨p, y, hy, hfollow, hstop⟩ := followLoop_spec f instr _ 0 smallest (Nat.zero_add _) hstart
    rw [hy, ok_bind]
    have hinstr : instr.bits.take p ++ instr.bits.drop p = instr.bits := take_append_drop ..
    have hcube : f.cube.take p ++ f.cube.drop p = f.cube := take_append_drop ..
    rcases next_of_stops hfollow.le_cube hstop with hnext | ⟨hno, hwhy⟩
    · -- the result is not below the instruction
      have hall := isNext_append hfollow.admitted hnext
      rw [hinstr, hcube, ← hfollow.bits_eq_append] at hall
      rw [if_neg (by rw [lt_iff_bits_lt]; exact hall.not_lt)]
      refine ⟨some y, rfl, nofun, ?_⟩
      rintro _ ⟨⟩
      exact hall
    · have hbelow : y < instr := by
        rw [lt_iff_bits_lt, hfollow.bits_eq_append, ← hinstr]
        rw [take_left' (length_take_of_le hfollow.le_bits), append_lt_append_iff rfl]
        exact .inr ⟨rfl, hno _ (admits_least _)⟩
      obtain ⟨z, hz, hznext⟩ := carryLoop_spec hex p y hfollow hno
      have hcarry : carryLoop f instr (min f.cube.length instr.bits.length) y = .ok z := by
        rw [← hz]
        rcases hwhy with hpc | ⟨hone, hfixed⟩
        · have hpb := hfollow.le_bits
          rw [show min f.cube.length instr.bits.length = p by omega]
        · have hpb : p < instr.bits.length := lt_of_getElem? hone
          have hpc : p < f.cube.length := lt_of_getElem? hfixed
          exact carryLoop_skip hfollow hone hfixed _ (by omega) (by omega)
      rw [if_pos hbelow, hcarry]
      refine ⟨some z, rfl, nofun, ?_⟩
      rintro _ ⟨⟩
      exact hznext

/-- The instruction has the filter's length, matches the filter and is at least `instr`. -/
def MatchesFrom (f : InstructionFilter) (instr y : Instruction) : Prop :=
  y.byteLen = f.len ∧ f.matches y = true ∧ instr ≤ y

lemma matchesFrom_iff : MatchesFrom f instr y ↔ Admits f.cube y.bits ∧ ¬ y.bits < instr.bits := by
  unfold MatchesFrom
  rw [le_iff_bits_le, not_lt]
  constructor
  · rintro ⟨hlen, hmatch, hle⟩
    exact ⟨(matches_iff_cube_admits hlen.symm).mp hmatch, hle⟩
  · rintro ⟨hadm, hle⟩
    have hlen : f.len = y.byteLen := by
      have h := hadm.length_eq
      rw [length_cube, Instruction.length_bits] at h
      exact Nat.eq_of_mul_eq_mul_right (by omega) h
    exact ⟨hlen.symm, (matches_iff_cube_admits hlen).mpr hadm, hle⟩

/-- `next_matching_instruction` returns, for every well-formed filter and every instruction: the
least instruction of the filter's length that matches the filter and is at least the given one, or
`None` if and only if there is no such instruction. -/
theorem nextMatchingInstruction_exact (f : InstructionFilter) (hf : f.WellFormed)
    (instr : Instruction) :
    ∃ r, f.nextMatchingInstruction instr = .ok r ∧
      (∀ y, r = some y → MatchesFrom f instr y ∧ ∀ z, MatchesFrom f instr z → y ≤ z) ∧
      (r = none ↔ ¬ ∃ z, MatchesFrom f instr z) := by
  obtain ⟨r, hr, hnone, hsome⟩ := nextMatchingInstruction_spec hf instr
  refine ⟨r, hr, fun y hy => ?_, ?_, ?_⟩
  · have hnext := hsome y hy
    refine ⟨matchesFrom_iff.mpr ⟨hnext.admits, hnext.not_lt⟩, fun z hz => ?_⟩
    obtain ⟨hadm, hge⟩ := matchesFrom_iff.mp hz
    rw [le_iff_bits_le, ← not_lt]
    exact hnext.least _ hadm hge
  · rintro h ⟨z, hz⟩
    obtain ⟨hadm, hge⟩ := matchesFrom_iff.mp hz
    exact hge (hnone h _ hadm)
  · intro hno
    rcases r with _ | y
    · rfl
    · have hnext := hsome y rfl
      exact absurd ⟨y, matchesFrom_iff.mpr ⟨hnext.admits, hnext.not_lt⟩⟩ hno

/-- An instruction that is longer than the filter. -/
theorem nextMatchingInstruction_exact_shortFilter : shortFilter.WellFormed ∧
    ∃ r, shortFilter.nextMatchingInstruction ⟨[0x00, 0x01], by decide⟩ = .ok r ∧
      (∀ y, r = some y → MatchesFrom shortFilter ⟨[0x00, 0x01], by decide⟩ y ∧
        ∀ z, MatchesFrom shortFilter ⟨[0x00, 0x01], by decide⟩ z → y ≤ z) ∧
      (r = none ↔ ¬ ∃ z, MatchesFrom shortFilter ⟨[0x00, 0x01], by decide⟩ z) :=
  ⟨by decide, nextMatchingInstruction_exact shortFilter (by decide) ⟨[0x00, 0x01], by decide⟩⟩

end InstructionFilter

end LibLisa
