import LibLisa.Enumeration.WorkItem
import LibLisa.Instr.CounterRun

/-!
# Results for instructions out of sequence

`next_instruction` hands out a pending instruction (`next`) before the one that the counter stands
at. Its result should cost no coverage: `complete` should leave the position and the flag `done` as
`apply_filters_to_current` alone would (`Undisturbed`). `complete` clears `next` before it looks at
the result, and takes a result of an instruction out of sequence for one of the current position in
three of its six branches.

The filters move a counter onwards (`applyLoop_stops`), so what they leave in place is a matter of
the position alone: one that would be handed out (`settled_iff`), or one with nothing after it
(`spent_iff`). The main result, `complete_undisturbed_iff`, says with these which results do no harm.
-/

namespace LibLisa

open Lib BitString InstructionCounter Instruction

/-! ## Counters that the filters leave alone -/

namespace InstructionCounter

variable {filters : FilterList} {c c' : InstructionCounter} {x y : Instruction} {more : Bool}
  {fuel : ℕ}

/-- The position is one that would be handed out: nothing filters it, and it is not beyond the
end. -/
structure Settled (filters : FilterList) (c : InstructionCounter) : Prop where
  live : c.data.toList.all (· == 0xff) = false
  handed : ∃ x, c.current = .ok x ∧ filters.shouldExtend x = false ∧
    filters.matchingFilter x = none ∧ pastEnd c.endInstr x = false

/-- Nothing is left to enumerate, and the counter need not move to find out: it has run off the last
instruction, it is past the end, or one filter matches all that follows up to the end. -/
def Spent (filters : FilterList) (c : InstructionCounter) : Prop :=
  c.data.toList.all (· == 0xff) = true ∨
  ∃ x, c.current = .ok x ∧ filters.shouldExtend x = false ∧
    match filters.matchingFilter x with
    | none => pastEnd c.endInstr x = true
    | some f => ∀ s, x.pad ≤ s → f.MatchesString s ∨ AboveEnd c.endInstr s

/-- Where the filters leave a counter in place, with whether there is more to enumerate. -/
def Rests (filters : FilterList) (more : Bool) (c : InstructionCounter) : Prop :=
  if more then Settled filters c else Spent filters c

lemma Onward.eq_of_le (h : Onward x y) (hle : y ≤ x) : y = x := by
  rw [le_iff_bits_le] at hle
  obtain ⟨k, hk⟩ | hlt := h
  · have hbits : y.bits = x.bits ++ bitsOf (List.replicate k 0) := by
      rw [bits, hk, bitsOf_append, bits]
    have hge : x.bits ≤ y.bits := not_lt.mp (hbits ▸ List.le_append_left)
    have heq := le_antisymm hle hge
    have hlen := congrArg List.length heq
    rw [length_bits, length_bits, bitLen, bitLen,
      byteLen, byteLen, hk, List.length_append, List.length_replicate] at hlen
    obtain rfl : k = 0 := by omega
    cases x
    cases y
    simpa using hk
  · exact absurd (pad_le_pad_of_le hle) (not_le_of_gt hlt)

lemma extendWhile_eq_self {n : ℕ} (hcur : c.current = .ok x)
    (hext : filters.shouldExtend x = false) : extendWhile filters n c = .ok c := by
  unfold extendWhile
  rw [hcur, ok_bind, hext]
  rfl

lemma exists_current_of_applyLoop {tree : Option FilterTree}
    (h : applyLoop filters fuel false tree c = .ok (more, c')) : ∃ x, c.current = .ok x := by
  cases hcur : c.current with
  | ok x => exact ⟨x, rfl⟩
  | error e =>
    cases fuel with
    | zero => cases h
    | succ fuel =>
      obtain ⟨c1, hc1, -⟩ := ok_of_bind h
      rw [extendUnless, if_neg Bool.false_ne_true] at hc1
      unfold extendWhile at hc1
      rw [hcur] at hc1
      cases hc1

lemma applyFiltersToCurrent_of_settled (h : Settled filters c) (hfuel : 0 < fuel) :
    c.applyFiltersToCurrent fuel filters false = .ok (true, c) := by
  obtain ⟨x, hcur, hext, hmatch, hpast⟩ := h.handed
  obtain ⟨fuel, rfl⟩ := Nat.exists_eq_add_of_lt hfuel
  unfold applyFiltersToCurrent
  rw [h.live, if_neg Bool.false_ne_true, applyLoop, extendUnless, if_neg Bool.false_ne_true,
    extendWhile_eq_self hcur hext, ok_bind, hcur, ok_bind, hmatch, hpast]
  rfl

lemma Settled.fuel_pos (h : Settled filters c)
    (happly : c.applyFiltersToCurrent fuel filters false = .ok (more, c')) : 0 < fuel := by
  refine Nat.pos_of_ne_zero fun hfuel => ?_
  subst hfuel
  unfold applyFiltersToCurrent at happly
  rw [h.live] at happly
  cases happly

/-- Applying the filters leaves the position and goes on exactly at the positions that would be
handed out. -/
theorem settled_iff (h : c.applyFiltersToCurrent fuel filters false = .ok (more, c')) :
    Settled filters c ↔ more = true ∧ c'.current = c.current := by
  constructor
  · intro hsettled
    have heq := applyFiltersToCurrent_of_settled hsettled (hsettled.fuel_pos h)
    obtain ⟨rfl, rfl⟩ := ok_pair_inj (h.symm.trans heq)
    exact ⟨rfl, rfl⟩
  · rintro ⟨rfl, heq⟩
    unfold applyFiltersToCurrent at h
    split at h
    · cases (ok_pair_inj h).1
    · next hlive =>
      obtain ⟨x, hcur⟩ := exists_current_of_applyLoop h
      obtain ⟨y, hy, hext⟩ := (applyLoop_stops filters fuel false treeFor_none hcur).of_ok h
      exact ⟨by simpa using hlive, y, heq ▸ hy.current_eq, hext rfl, hy.handed rfl⟩

section

variable (hfs : ∀ f ∈ filters.filters, f.data ≠ [])
include hfs

lemma applyFiltersToCurrent_onward (hcur : c.current = .ok x)
    (h : c.applyFiltersToCurrent fuel filters false = .ok (more, c')) :
    ∃ y, c'.current = .ok y ∧ Onward x y := by
  unfold applyFiltersToCurrent at h
  split at h
  · cases h
    exact ⟨x, hcur, Or.inl ⟨0, by simp⟩⟩
  · obtain ⟨y, hy, -⟩ := (applyLoop_stops filters fuel false treeFor_none hcur).of_ok h
    exact ⟨y, hy.current_eq, hy.onward hfs⟩

/-- Applying the filters leaves the position and finds nothing more exactly where nothing is left. -/
theorem spent_iff (h : c.applyFiltersToCurrent fuel filters false = .ok (more, c')) :
    Spent filters c ↔ more = false ∧ c'.current = c.current := by
  unfold applyFiltersToCurrent at h
  split at h
  · next hlast =>
    cases h
    exact ⟨fun _ => ⟨rfl, rfl⟩, fun _ => Or.inl hlast⟩
  next hlive =>
  obtain ⟨x, hcur⟩ := exists_current_of_applyLoop h
  obtain ⟨y, hstop, hext⟩ := (applyLoop_stops filters fuel false treeFor_none hcur).of_ok h
  have hy := hstop.current_eq
  have hx : Spent filters c ↔ filters.shouldExtend x = false ∧
      match filters.matchingFilter x with
      | none => pastEnd c.endInstr x = true
      | some f => ∀ s, x.pad ≤ s → f.MatchesString s ∨ AboveEnd c.endInstr s := by
    refine ⟨fun hs => ?_, fun hs => Or.inr ⟨x, hcur, hs⟩⟩
    obtain hlast | ⟨x', hcur', hs⟩ := hs
    · exact absurd hlast hlive
    · rwa [ok_unique hcur hcur']
  rw [hx, hy, hcur, Except.ok.injEq]
  by_cases hextx : filters.shouldExtend x = false
  swap
  · -- the counter is extended before a filter is looked at
    exact ⟨fun hs => absurd hs.1 hextx, fun hs => absurd (hs.2 ▸ hext rfl) hextx⟩
  cases fuel with
  | zero => cases h
  | succ fuel =>
    rw [applyLoop, extendUnless, if_neg Bool.false_ne_true, extendWhile_eq_self hcur hextx, ok_bind,
      hcur, ok_bind] at h
    cases hmatch : filters.matchingFilter x with
    | none =>
      rw [hmatch] at h
      obtain ⟨hmore, rfl⟩ := ok_pair_inj h
      rw [← hmore, ok_unique hy hcur]
      simp [hextx]
    | some f =>
      rw [hmatch] at h
      obtain ⟨hf, hfx⟩ := FilterList.of_matchingFilter hmatch
      obtain ⟨r, hr, h⟩ := ok_of_bind h
      have hround := (skipFilter_spec hcur treeFor_none).of_ok hr
      cases r with
      | none =>
        obtain ⟨rfl, rfl⟩ := ok_pair_inj h
        refine ⟨fun _ => ⟨rfl, ok_unique hy hcur⟩, fun _ => ⟨hextx, fun s hs => ?_⟩⟩
        obtain hs | hs | hs := hround s hs
        · exact Or.inl hs
        · cases hs
        · exact Or.inr hs
      | some r =>
        -- the round moves to a position that neither the filter nor the end hides
        obtain ⟨-, -, z, T', hz, hvalid, hskips, habove, -⟩ := hround
        have hlt := hskips.pad_lt (hfs f hf) hfx
        have htree' : TreeFor (some r.2) T' := hvalid
        obtain ⟨w, hw, -⟩ := (applyLoop_stops filters fuel false htree' hz).of_ok h
        obtain rfl := ok_unique hy hw.current_eq
        refine ⟨fun hs => ?_, fun hs => ?_⟩
        · exact absurd (hs.2 z.pad hskips.pad_le)
            (not_or.mpr ⟨hskips.not_matches (hfs f hf), habove rfl⟩)
        · exact absurd (hs.2 ▸ hw.pad_le) (not_le_of_gt hlt)

lemma rests_iff {b : Bool} (h : c.applyFiltersToCurrent fuel filters false = .ok (more, c')) :
    Rests filters b c ↔ more = b ∧ c'.current = c.current := by
  cases b with
  | true => exact settled_iff h
  | false => exact spent_iff hfs h

end

lemma nextSingle_current_ne (hcur : c.current = .ok x) (hpos : c.tunnelPos < c.len)
    (h : c.nextSingle = .ok (true, c')) : c'.current ≠ .ok x := by
  obtain ⟨hlen, hle, -, hraised⟩ := (nextSingle_spec c).of_ok h
  intro hx
  have hlt := hle.trans_lt hpos
  exact lt_irrefl x.pad (pad_lt_of_raised hcur hx hlt (hlt.trans_eq hlen.symm) (hraised rfl))

lemma tunnelNext_current_ne {tunnelDelay : ℕ} (hcur : c.current = .ok x)
    (h : c.tunnelNext fuel filters tunnelDelay = .ok (true, c')) : c'.current ≠ .ok x := by
  obtain ⟨y, hy, hlt⟩ := tunnelNext_spec hcur h
  intro hx
  obtain rfl : y = x := ok_unique hy.current_eq hx
  exact lt_irrefl y.pad (hlt rfl)

end InstructionCounter

/-! ## Completing a result out of sequence -/

namespace EnumWorkItem

variable {E : Type} {fuel : ℕ} {item : EnumWorkItem} {instr : Instruction}
  {filters : FilterList} {seen : Finset Instruction} {alone : Bool × InstructionCounter}
  {counter : InstructionCounter} {done : Bool}

/-- The item stands where applying the filters alone, with the outcome `alone`, leaves it, and is
done if that finds nothing more. -/
def Undisturbed (alone : Bool × InstructionCounter) (item : EnumWorkItem) : Prop :=
  item.done = !alone.1 ∧ item.counter.current = alone.2.current

/-- A skip of a pending instruction to `counter` does no harm. If it has another end than the item,
the item keeps its own counter, and `done` may only be set where nothing is left. Otherwise
`counter` replaces that of the item: it must stand at the same position, and the filters must
leave both there. -/
def SkipHarmless (filters : FilterList) (item : EnumWorkItem) (counter : InstructionCounter)
    (done : Bool) : Prop :=
  (∃ y, counter.current = .ok y) ∧
  if counter.endInstr = item.counter.endInstr then
    Rests filters (!done) item.counter ∧ counter.current = item.counter.current ∧
      (done = false → Settled filters { counter with endInstr := item.toInstr })
  else done = true → Spent filters item.counter

/-- The results of a pending instruction that do no harm. -/
def Harmless (filters : FilterList) (item : EnumWorkItem) : AnalysisResult E → Prop
  | .ok _ => True
  -- nothing is applied, so nothing may be there to apply
  | .tooShort | .tooLong => Settled filters item.counter
  | .skipInvalidUntil counter done | .skipMemoryErrorUntil counter done =>
    SkipHarmless filters item counter done
  | .skipError => False

/-- A result that moves the item finds it where the filters would leave it, and a counter that
replaces that of the item does not stand before it. -/
def Forward (filters : FilterList) (item : EnumWorkItem) : AnalysisResult E → Prop
  | .ok _ | .tooShort | .tooLong => True
  | .skipInvalidUntil counter done | .skipMemoryErrorUntil counter done =>
    counter.endInstr = item.counter.endInstr →
      (Settled filters item.counter ∨ done = true ∧ Spent filters item.counter) ∧
      ∀ x y, item.counter.current = .ok x → counter.current = .ok y → x ≤ y
  | .skipError => Settled filters item.counter ∧ item.counter.tunnelPos < item.counter.len

/-- The flag, negated, and the counter that `complete` leaves for a pending instruction. -/
def outcome (fuel : ℕ) (item : EnumWorkItem) (filters : FilterList) :
    AnalysisResult E → Partial (Bool × InstructionCounter)
  | .ok _ => item.counter.applyFiltersToCurrent fuel filters false
  | .tooShort | .tooLong => .ok (true, item.counter)
  | .skipInvalidUntil counter done | .skipMemoryErrorUntil counter done => do
    let _ ← counter.current
    if done then .ok (false, item.resume counter)
    else (item.resume counter).applyFiltersToCurrent fuel filters false
  | .skipError => { item with numErrors := item.numErrors + 1 }.tunnelError fuel filters

lemma map_skipUntil (item : EnumWorkItem) :
    (fun item' : EnumWorkItem => (!item'.done, item'.counter)) <$>
        item.skipUntil fuel filters counter done =
      if done then .ok (false, item.resume counter)
      else (item.resume counter).applyFiltersToCurrent fuel filters false := by
  unfold skipUntil
  cases done with
  | true => rfl
  | false =>
    simp only [Bool.false_eq_true, if_false, Functor.map_map, moved, Bool.not_not]
    exact id_map _

lemma complete_outcome [EncodingLike E] (seen : Finset Instruction) (hdone : item.done = false)
    (hnext : item.next = some instr) (result : AnalysisResult E) :
    (fun out => (!out.1.done, out.1.counter)) <$> item.complete fuel instr filters seen result =
      item.outcome fuel filters result := by
  have hcomplete : item.complete fuel instr filters seen result =
      completeResult fuel { item.remember instr with next := none } instr filters seen true
        result := if_pos hnext
  rw [hcomplete]
  cases result with
  | ok encoding =>
    simp only [completeResult, if_true, map_bind, map_pure, moved, Bool.not_not, Prod.mk.eta,
      bind_pure]
    rfl
  | tooShort | tooLong =>
    show Except.ok (!item.done, item.counter) = Except.ok (true, item.counter)
    rw [hdone]
    rfl
  | skipInvalidUntil counter done | skipMemoryErrorUntil counter done =>
    simp only [completeResult, outcome, map_bind, bind_pure_comp, Functor.map_map, map_skipUntil]
    rfl
  | skipError =>
    simp only [completeResult, outcome, remember, Option.isNone_none, if_true, map_bind, map_pure, moved,
      Bool.not_not, Prod.mk.eta, bind_pure]
    rfl

lemma exists_undisturbed_iff [EncodingLike E] (hdone : item.done = false)
    (hnext : item.next = some instr) (result : AnalysisResult E) :
    (∃ out, item.complete fuel instr filters seen result = .ok out ∧ Undisturbed alone out.1) ↔
      ∃ r, item.outcome fuel filters result = .ok r ∧ r.1 = alone.1 ∧
        r.2.current = alone.2.current := by
  simp only [← complete_outcome seen hdone hnext, map_eq_ok_iff, Undisturbed]
  constructor
  · rintro ⟨out, hout, hflag, hcur⟩
    exact ⟨_, ⟨out, hout, rfl⟩, by rw [hflag, Bool.not_not], hcur⟩
  · rintro ⟨-, ⟨out, hout, rfl⟩, hflag, hcur⟩
    exact ⟨out, hout, by rw [← hflag, Bool.not_not], hcur⟩

section

variable (hfs : ∀ f ∈ filters.filters, f.data ≠ [])
  (halone : item.counter.applyFiltersToCurrent fuel filters false = .ok alone)
include hfs halone

lemma outcome_skip (h : SkipHarmless filters item counter done) :
    ∃ r, item.outcome fuel filters (.skipInvalidUntil counter done : AnalysisResult E) = .ok r ∧
      r.1 = alone.1 ∧ r.2.current = alone.2.current := by
  obtain ⟨⟨y, hy⟩, h⟩ := h
  rw [outcome, hy, ok_bind, resume]
  split at h
  · next hend =>
    obtain ⟨hrests, hcur, hsettled⟩ := h
    obtain ⟨hmore, hstay⟩ := (rests_iff hfs halone).mp hrests
    have hsame : counter.current = alone.2.current := hcur.trans hstay.symm
    rw [if_pos hend]
    cases done with
    | true => exact ⟨_, rfl, hmore.symm, hsame⟩
    | false =>
      have hfuel : 0 < fuel := Settled.fuel_pos (c := item.counter) hrests halone
      exact ⟨_, applyFiltersToCurrent_of_settled (hsettled rfl) hfuel, hmore.symm, hsame⟩
  · next hend =>
    rw [if_neg hend]
    cases done with
    | true =>
      obtain ⟨hmore, hstay⟩ := (spent_iff hfs halone).mp (h rfl)
      exact ⟨_, rfl, hmore.symm, hstay.symm⟩
    | false => exact ⟨alone, halone, rfl, rfl⟩

/-- The filters move a counter onwards, so one that is not before the item and ends up where the
item rests has been there all along. -/
lemma skipHarmless_of_outcome {r : Bool × InstructionCounter}
    (hforward : Forward filters item (.skipInvalidUntil counter done : AnalysisResult E))
    (h : item.outcome fuel filters (.skipInvalidUntil counter done : AnalysisResult E) = .ok r)
    (hflag : r.1 = alone.1) (hcur : r.2.current = alone.2.current) :
    SkipHarmless filters item counter done := by
  obtain ⟨y, hy, h⟩ := ok_of_bind h
  refine ⟨⟨y, hy⟩, ?_⟩
  unfold resume at h
  split
  · next hend =>
    obtain ⟨hrest, hle⟩ := hforward hend
    have hstay : alone.2.current = item.counter.current := by
      obtain hrest | ⟨-, hrest⟩ := hrest
      · exact ((settled_iff halone).mp hrest).2
      · exact ((spent_iff hfs halone).mp hrest).2
    rw [if_pos hend] at h
    cases done with
    | true =>
      cases h
      exact ⟨(rests_iff hfs halone).mpr ⟨hflag.symm, hstay⟩, hcur.trans hstay, by rintro ⟨⟩⟩
    | false =>
      have hsettled : Settled filters item.counter := by
        obtain hrest | ⟨⟨⟩, -⟩ := hrest
        exact hrest
      obtain ⟨x, hx, -⟩ := hsettled.handed
      have hy' : InstructionCounter.current { counter with endInstr := item.toInstr } = .ok y := hy
      obtain ⟨z, hz, honward⟩ := applyFiltersToCurrent_onward hfs hy' h
      obtain rfl : z = x := ok_unique hz (hcur.trans (hstay.trans hx))
      obtain rfl := honward.eq_of_le (hle z y hx hy)
      refine ⟨hsettled, hy.trans hx.symm, fun _ => (settled_iff h).mpr ⟨?_, hz.trans hy.symm⟩⟩
      exact hflag.trans ((settled_iff halone).mp hsettled).1
  · next hend =>
    rintro rfl
    rw [if_neg hend] at h
    cases h
    exact (spent_iff hfs halone).mpr ⟨hflag.symm, hcur.symm⟩

end

variable [EncodingLike E]

/-- Completing the result of a pending instruction of an unfinished item leaves the position and the
flag as applying the filters alone would, for the harmless results. For the others it does not, if
the item stands where the filters leave it and the result does not take it back. -/
theorem complete_undisturbed_iff (fuel : ℕ) (item : EnumWorkItem) (hdone : item.done = false)
    (instr : Instruction) (hnext : item.next = some instr) (filters : FilterList)
    (hfs : ∀ f ∈ filters.filters, f.data ≠ []) (seen : Finset Instruction)
    (result : AnalysisResult E) (alone : Bool × InstructionCounter)
    (halone : item.counter.applyFiltersToCurrent fuel filters false = .ok alone) :
    (Harmless filters item result →
      ∃ out, item.complete fuel instr filters seen result = .ok out ∧ Undisturbed alone out.1) ∧
    (Forward filters item result →
      (∃ out, item.complete fuel instr filters seen result = .ok out ∧ Undisturbed alone out.1) →
      Harmless filters item result) := by
  rw [exists_undisturbed_iff hdone hnext]
  cases result with
  | ok encoding => exact ⟨fun _ => ⟨alone, halone, rfl, rfl⟩, fun _ _ => trivial⟩
  | tooShort | tooLong =>
    -- the item is left as it is
    refine ⟨fun h => ?_, fun _ h => ?_⟩
    · obtain ⟨hmore, hstay⟩ := (settled_iff halone).mp h
      exact ⟨_, rfl, hmore.symm, hstay.symm⟩
    · obtain ⟨-, ⟨⟩, hmore, hcur⟩ := h
      exact (settled_iff halone).mpr ⟨hmore.symm, hcur.symm⟩
  | skipInvalidUntil counter done | skipMemoryErrorUntil counter done =>
    refine ⟨outcome_skip (E := E) hfs halone, ?_⟩
    rintro hforward ⟨r, h, hflag, hcur⟩
    exact skipHarmless_of_outcome (E := E) hfs halone hforward h hflag hcur
  | skipError =>
    refine ⟨fun h => h.elim, ?_⟩
    rintro ⟨hsettled, hpos⟩ ⟨⟨more, c'⟩, h, hmore', hcur'⟩
    obtain ⟨x, hcur, -⟩ := hsettled.handed
    obtain ⟨hmore, hstay⟩ := (settled_iff halone).mp hsettled
    obtain rfl : more = true := hmore'.trans hmore
    rw [hstay, hcur] at hcur'
    rw [outcome, tunnelError] at h
    split at h
    · exact nextSingle_current_ne hcur hpos h hcur'
    · exact tunnelNext_current_ne hcur h hcur'

/-- An item at `10` that also has to look at `ff`. -/
def pendingItem : EnumWorkItem where
  counter :=
    { data := (Vector.replicate 32 0).set 0 0x10, len := 1, endInstr := none, tunnelPos := 0,
      numTunneled := 0 }
  toInstr := none
  uniqueSequences := 0
  encodingsFound := 0
  next := some ⟨[0xff], by decide⟩
  fastTunnel := false
  lastInstructions := []
  done := false
  numErrors := 0

/-- The counter of `pendingItem` at `11`. -/
def nextCounter : InstructionCounter :=
  { data := (Vector.replicate 32 0).set 0 0x11, len := 1, endInstr := none, tunnelPos := 0,
    numTunneled := 1 }

/-- An encoding without filters and without a suggestion. -/
instance : EncodingLike Unit where
  filters _ := []
  bestInstr _ := none

/-- A skip from `ff` leaves the item to the filters, which move it from `10` to `20`; without
filters the item stays at `10`, and an error for `ff` disturbs it. -/
theorem complete_undisturbed_pendingItem :
    (∃ out, pendingItem.complete 2 ⟨[0xff], by decide⟩ ⟨[⟨[⟨0xf0, 0x10, rfl⟩], by decide⟩]⟩ ∅
        (.skipInvalidUntil { nextCounter with endInstr := some ⟨[0xff], by decide⟩ } false :
          AnalysisResult Unit) = .ok out ∧
      Undisturbed (true, { pendingItem.counter with data := (Vector.replicate 32 0).set 0 0x20 }) out.1) ∧
    ¬ ∃ out, pendingItem.complete 1 ⟨[0xff], by decide⟩ ⟨[]⟩ ∅ (.skipError : AnalysisResult Unit) =
      .ok out ∧ Undisturbed (true, pendingItem.counter) out.1 :=
  ⟨(complete_undisturbed_iff 2 pendingItem rfl ⟨[0xff], by decide⟩ rfl
      ⟨[⟨[⟨0xf0, 0x10, rfl⟩], by decide⟩]⟩ (by decide) ∅ _ _ (by decide)).1
      ⟨⟨_, rfl⟩, by rintro ⟨⟩⟩,
    (complete_undisturbed_iff 1 pendingItem rfl ⟨[0xff], by decide⟩ rfl ⟨[]⟩ (by decide) ∅
      .skipError (true, pendingItem.counter) (by decide)).2
      ⟨⟨by decide, _, rfl, rfl, rfl, rfl⟩, by decide⟩⟩

/-- The filters leave the position `10` alone, but an error for `ff` moves it to `11`, and when
nothing valid follows `ff` the item is done at `10`. -/
theorem complete_disturbs_pendingItem :
    pendingItem.nextInstruction = some <$> single ⟨[0xff], by decide⟩ ∧
    pendingItem.counter.applyFiltersToCurrent 1 ⟨[]⟩ false = .ok (true, pendingItem.counter) ∧
    (∃ item artifact, pendingItem.complete 1 ⟨[0xff], by decide⟩ ⟨[]⟩ ∅
        (.skipError : AnalysisResult Unit) = .ok (item, ∅, artifact) ∧
      item.counter = nextCounter ∧ item.done = false) ∧
    ∃ counter item artifact, single ⟨[0xff], by decide⟩ = .ok counter ∧
      pendingItem.complete 1 ⟨[0xff], by decide⟩ ⟨[]⟩ ∅
        (.skipInvalidUntil counter true : AnalysisResult Unit) = .ok (item, ∅, artifact) ∧
      item.counter = pendingItem.counter ∧ item.done = true := by
  refine ⟨by rfl, by decide, ⟨_, _, rfl, by decide, rfl⟩, _, _, _, rfl, rfl, by decide, rfl⟩

end EnumWorkItem

end LibLisa
