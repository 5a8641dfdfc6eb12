import LibLisa.Instr.CounterSpec

/-!
# Runs of the counter

Two results about the enumeration of instruction space.

* `applyFiltersToCurrent_exact`: the loop of `apply_filters_to_current` ends and skips nothing that
  is not filtered. Each round moves to a strictly greater position (the filter matches the old
  position and not the new one), and positions of at most 14 bytes are finitely many; `Progress`
  is what holds between the rounds.
* `tunnelNext_lt`: in every state that the counter can reach, `tunnel_next` moves to a strictly
  greater instruction, and the tunnel position is inside the instruction.

A counter that has run off the last instruction fills its buffer with `0xff`, and is not moved by
`apply_filters_to_current` any more (`applyFiltersToCurrent_exhausted`).
-/

namespace LibLisa.InstructionCounter

open Lib BitString Instruction
open List hiding Vector

variable {c c' : InstructionCounter} {x y z : Instruction} {filters : FilterList}
variable {T T' : BitTree Leaf} {endInstr : Option Instruction} {tree : Option FilterTree}

lemma le_of_not_pastEnd (h : pastEnd endInstr y = false) (e : Instruction)
    (he : endInstr = some e) : y ≤ e := by
  subst he
  have hnot : ¬ e < y := by simpa [pastEnd] using h
  rw [lt_iff_bits_lt, not_lt] at hnot
  exact le_iff_bits_le.mpr hnot

lemma exists_current (h : c.len ≤ 15) : ∃ x, c.current = .ok x :=
  ⟨⟨c.data.toList.take c.len, by simp; omega⟩, current_eq_ok_iff.mpr ⟨h, rfl⟩⟩

/-! ## The loop of `apply_filters_to_current` -/

/-- The filter of a round matches the position, so the round moves on. -/
lemma SkipsTo.pad_lt {f : InstructionFilter}
    (h : SkipsTo f endInstr T x y T') (hf : f.data ≠ []) (hx : f.matches x = true) :
    x.pad < y.pad := by
  refine lt_of_le_of_ne h.pad_le fun heq => h.not_matches hf ?_
  rw [← heq]
  exact InstructionFilter.matchesString_of_matches hx (startsWith_pad _)

/-- The string is filtered by the list or lies beyond the end. -/
def Excluded (filters : FilterList) (endInstr : Option Instruction) (s : BitString) : Prop :=
  filters.MatchesString s ∨ BeyondEnd endInstr s

/-- Between the rounds: the position has moved from `o` to `x` over excluded strings only, and the
tree covers nothing else from `x` on. -/
structure Progress (filters : FilterList) (endInstr : Option Instruction) (o : Instruction)
    (tree : Option FilterTree) (T : BitTree Leaf) (x : Instruction) : Prop where
  byteLen_le : x.byteLen ≤ 14
  pad_le : o.pad ≤ x.pad
  excluded_between : ∀ s, o.pad ≤ s → s < x.pad → Excluded filters endInstr s
  treeFor : TreeFor tree T
  excluded_of_skip : ∀ s, T.walk s = .skip → Excluded filters endInstr s ∨ s < x.pad
  height_le : T.height ≤ 112
  leafAt_ne_none : tree ≠ none → T.leafAt x.bits ≠ none

/-- The position is where it started. -/
lemma Progress.init (hx : x.byteLen ≤ 14) :
    Progress filters endInstr x none (.ignore (.leaf .enumerate)) x where
  byteLen_le := hx
  pad_le := le_rfl
  excluded_between := fun _ hs hlt => absurd hs (not_le_of_gt hlt)
  treeFor := rfl
  excluded_of_skip := fun s hs => by cases hs
  height_le := by simp [BitTree.height]
  leafAt_ne_none := fun h => absurd rfl h

variable {o : Instruction}

section

variable (h : Progress filters endInstr o tree T x)
include h

/-- Appending zero bytes does not disturb it. -/
lemma Progress.extend (hy : ExtendsTo filters c x c' y) (hfs : ∀ f ∈ filters.filters, f.len ≤ 14) :
    Progress filters endInstr o tree T y where
  byteLen_le := hy.byteLen_le h.byteLen_le hfs
  pad_le := by
    rw [hy.pad_eq]
    exact h.pad_le
  excluded_between := by
    rw [hy.pad_eq]
    exact h.excluded_between
  treeFor := h.treeFor
  excluded_of_skip := by
    rw [hy.pad_eq]
    exact h.excluded_of_skip
  height_le := h.height_le
  leafAt_ne_none := by
    intro htree
    obtain ⟨k, hk⟩ := hy.bits_eq
    obtain ⟨a, ha⟩ := Option.ne_none_iff_exists'.mp (h.leafAt_ne_none htree)
    rw [hk, BitTree.leafAt_append ha]
    exact Option.some_ne_none a

variable {f : InstructionFilter}

/-- What a round hides from the position on is excluded. -/
lemma Progress.excluded_of_hidden {s : BitString}
    (hf : f ∈ filters.filters) (hs : x.pad ≤ s) (hhidden : Hidden f endInstr T s) :
    Excluded filters endInstr s := by
  obtain hm | hskip | hend := hhidden
  · exact Or.inl ⟨f, hf, hm⟩
  · exact (h.excluded_of_skip s hskip).resolve_right (not_lt_of_ge hs)
  · exact Or.inr hend.beyondEnd

lemma Progress.roundOk (hend : ShortEnd endInstr) (hf : 1 ≤ f.len ∧ f.len ≤ 14) :
    RoundOk f endInstr tree T x where
  data_ne_nil := ne_nil_of_length_pos hf.1
  len_le := hf.2
  byteLen_le := h.byteLen_le
  shortEnd := hend
  height_le := h.height_le
  leafAt_ne_none := h.leafAt_ne_none

/-- A round keeps the progress. -/
lemma Progress.skip {t : FilterTree}
    (hf : f ∈ filters.filters) (hskips : SkipsTo f endInstr T x z T') (hvalid : t.Valid T')
    (hz : z.byteLen ≤ 14) (hheight : T'.height ≤ 112) :
    Progress filters endInstr o (some t) T' z where
  byteLen_le := hz
  pad_le := h.pad_le.trans hskips.pad_le
  excluded_between := by
    intro s hs hlt
    by_cases hsx : s < x.pad
    · exact h.excluded_between s hs hsx
    · have hxs := le_of_not_gt hsx
      exact h.excluded_of_hidden hf hxs (hskips.hidden_between s hxs hlt)
  treeFor := hvalid
  excluded_of_skip := by
    intro s hs
    by_cases hsx : s < x.pad
    · exact Or.inr (hsx.trans_le hskips.pad_le)
    · have hhidden := (hskips.hidden_of_skip s hs).resolve_right hsx
      exact Or.inl (h.excluded_of_hidden hf (le_of_not_gt hsx) hhidden)
  height_le := hheight
  leafAt_ne_none := by
    rw [hskips.leafAt_eq]
    exact fun _ => Option.some_ne_none _

/-- What `apply_filters_to_current` has achieved when it returns. -/
def Applied (filters : FilterList) (endInstr : Option Instruction) (o : Instruction) :
    Bool × InstructionCounter → Prop
  | (true, c) => c.endInstr = endInstr ∧ ∃ y, c.current = .ok y ∧ o.pad ≤ y.pad ∧
      (∀ e, endInstr = some e → y ≤ e) ∧
      filters.shouldExtend y = false ∧ filters.matchingFilter y = none ∧
      ∀ s, o.pad ≤ s → s < y.pad → filters.MatchesString s
  | (false, _) => ∀ s, o.pad ≤ s → Excluded filters endInstr s

/-- The last round: no filter matches. -/
lemma Progress.applied (hcur : c.current = .ok x) (hend : c.endInstr = endInstr)
    (hext : filters.shouldExtend x = false) (hnone : filters.matchingFilter x = none) :
    Applied filters endInstr o (!pastEnd endInstr x, c) := by
  cases hpast : pastEnd endInstr x with
  | false =>
    have hle := le_of_not_pastEnd hpast
    refine ⟨hend, x, hcur, h.pad_le, hle, hext, hnone, fun s hs hlt => ?_⟩
    obtain hm | ⟨e, he, hse⟩ := h.excluded_between s hs hlt
    · exact hm
    · have hxe : x.pad ≤ e.pad := pad_le_pad_of_le (le_iff_bits_le.mp (hle e he))
      exact absurd (hlt.trans_le hxe) (not_lt_of_ge hse)
  | true =>
    intro s hs
    by_cases hsx : s < x.pad
    · exact h.excluded_between s hs hsx
    · cases endInstr with
      | none => cases hpast
      | some e =>
        have hlt : e < x := by simpa [pastEnd] using hpast
        have hex : e.pad ≤ x.pad := pad_le_pad_of_le (lt_iff_bits_lt.mp hlt).le
        exact Or.inr ⟨e, rfl, hex.trans (le_of_not_gt hsx)⟩

end

lemma length_bits_le (h : x.byteLen ≤ 14) : x.bits.length ≤ 112 := by
  rw [length_bits, bitLen]
  omega

/-- The loop returns within as many rounds as there are positions left. -/
lemma applyLoop_spec (hfs : ∀ f ∈ filters.filters, 1 ≤ f.len ∧ f.len ≤ 14)
    (hend : ShortEnd endInstr) (o : Instruction) :
    ∀ (fuel : ℕ) {tree : Option FilterTree} {T : BitTree Leaf} {c : InstructionCounter}
      {x : Instruction}, c.current = .ok x → c.endInstr = endInstr →
      Progress filters endInstr o tree T x → 2 ^ 112 < fuel + rank 112 x.bits →
      Ensures (applyLoop filters fuel false tree c) FilterTree.OnlyU40
        (Applied filters endInstr o) := by
  have hshort : ∀ f ∈ filters.filters, f.len ≤ 14 := fun f hf => (hfs f hf).2
  intro fuel
  induction fuel with
  | zero =>
    intro tree T c x _ _ hprog hfuel
    have := rank_lt (length_bits_le hprog.byteLen_le)
    omega
  | succ fuel ih =>
    intro tree T c x hcur hcend hprog hfuel
    have hxlen := hprog.byteLen_le
    refine ((extendWhile_spec filters (32 - c.len) hcur).mono (fun e he => ?_) fun _ h => h).bind ?_
    · exact absurd ⟨by omega, hxlen, hshort⟩ he
    rintro c1 ⟨y, hy, hdone⟩
    have hprogy := hprog.extend hy hshort
    have hend1 : c1.endInstr = endInstr := hy.endInstr_eq.trans hcend
    refine Ensures.bind_ok hy.current_eq ?_
    cases hmatch : filters.matchingFilter y with
    | none =>
      simp only [hend1]
      exact hprogy.applied hy.current_eq hend1 hdone hmatch
    | some f =>
      obtain ⟨hf, hfy⟩ := FilterList.of_matchingFilter hmatch
      have hround := skipFilter_spec (f := f) hy.current_eq hprogy.treeFor
      rw [hend1] at hround
      have hok := hprogy.roundOk hend (hfs f hf)
      refine (hround.mono (fun e he => he hok) fun _ h => h).bind ?_
      intro r hr
      cases r with
      | none =>
        intro s hs
        by_cases hsy : s < y.pad
        · exact hprogy.excluded_between s hs hsy
        · have hys := le_of_not_gt hsy
          exact hprogy.excluded_of_hidden hf hys (hr s hys)
      | some r =>
        obtain ⟨hend2, -, z, T2, hcur2, hvalid2, hskips, -, hbounds⟩ := hr
        obtain ⟨hz, hheight⟩ := hbounds hok
        -- the filter matches the old position, so the new one is greater
        have hlt := hskips.pad_lt hok.data_ne_nil hfy
        rw [hy.pad_eq] at hlt
        have hrank := rank_lt_rank (length_bits_le hxlen) (length_bits_le hz) hlt
        exact ih hcur2 hend2 (hprogy.skip hf hskips hvalid2 hz hheight) (by omega)

/-- Every call on a counter that is not exhausted, with an end of at most 14 bytes or none, filters
of 1 to 14 bytes and a current instruction of at most 14 bytes, returns, unless a filter tree needs
a node index of more than 40 bits. The new instruction is the first one from the old position on
that no filter matches, if that is not beyond the end. With an end of 15 bytes the search could lead
to an instruction of 15 bytes, and `resize` asserts that it makes none. -/
theorem applyFiltersToCurrent_exact (filters : FilterList)
    (hfs : ∀ f ∈ filters.filters, 1 ≤ f.len ∧ f.len ≤ 14) (c : InstructionCounter)
    (hlen : c.len ≤ 14) (hend : ∀ e, c.endInstr = some e → e.byteLen ≤ 14)
    (hlive : ∃ byte ∈ c.data.toList, byte ≠ 0xff) (fuel : ℕ) (hfuel : 2 ^ 112 < fuel) :
    Ensures (c.applyFiltersToCurrent fuel filters false) (fun e => e = .u40Overflow) fun r =>
      ∃ x, c.current = .ok x ∧
      (r.1 = true → r.2.endInstr = c.endInstr ∧ ∃ y, r.2.current = .ok y ∧ x.pad ≤ y.pad ∧
        (∀ e, c.endInstr = some e → y ≤ e) ∧
        (∀ f ∈ filters.filters, f.matches y = false ∧ ¬ f.MatchesString y.pad) ∧
        ∀ s, x.pad ≤ s → s < y.pad → ∃ f ∈ filters.filters, f.MatchesString s) ∧
      (r.1 = false → ∀ s, x.pad ≤ s →
        (∃ f ∈ filters.filters, f.MatchesString s) ∨ BeyondEnd c.endInstr s) := by
  obtain ⟨byte, hmem, hne⟩ := hlive
  have hguard : c.data.toList.all (· == 0xff) = false := by
    rw [all_eq_false]
    exact ⟨byte, hmem, by simpa using hne⟩
  obtain ⟨x, hcur⟩ := exists_current (c := c) (by omega)
  have hx : x.byteLen ≤ 14 := by
    rw [byteLen_of_current hcur]
    exact hlen
  unfold applyFiltersToCurrent
  rw [hguard]
  refine (applyLoop_spec hfs hend x fuel hcur rfl (.init hx) (by omega)).imp ?_
  rintro ⟨more, c'⟩ happlied
  refine ⟨x, hcur, fun hmore => ?_, fun hmore => ?_⟩
  · obtain rfl : more = true := hmore
    obtain ⟨hend', y, hy, hle, hbound, hext, hnone, hbetween⟩ := happlied
    refine ⟨hend', y, hy, hle, hbound, fun f hf => ⟨FilterList.matches_eq_false hnone hf, ?_⟩,
      hbetween⟩
    exact fun hm => FilterList.not_matchesString hext hnone (startsWith_pad _) ⟨f, hf, hm⟩
  · obtain rfl : more = false := hmore
    exact happlied

/-- The filter `000000__`. -/
def lowFilter : InstructionFilter := ⟨[⟨0xfc, 0x00, rfl⟩], by decide⟩

/-- A counter at `00`. -/
def startCounter : InstructionCounter :=
  { data := .replicate 32 0, len := 1, endInstr := none, tunnelPos := 0, numTunneled := 0 }

/-- From the byte zero, with a filter for the low bytes and without an end. -/
theorem applyFiltersToCurrent_exact_startCounter :
    Ensures (startCounter.applyFiltersToCurrent (2 ^ 112 + 1) ⟨[lowFilter]⟩ false)
      (fun e => e = .u40Overflow) fun r => ∃ x, startCounter.current = .ok x ∧
      (r.1 = true → r.2.endInstr = none ∧ ∃ y, r.2.current = .ok y ∧ x.pad ≤ y.pad ∧
        (∀ e, none = some e → y ≤ e) ∧
        (∀ f ∈ [lowFilter], f.matches y = false ∧ ¬ f.MatchesString y.pad) ∧
        ∀ s, x.pad ≤ s → s < y.pad → ∃ f ∈ [lowFilter], f.MatchesString s) ∧
      (r.1 = false → ∀ s, x.pad ≤ s → (∃ f ∈ [lowFilter], f.MatchesString s) ∨ BeyondEnd none s) :=
  applyFiltersToCurrent_exact ⟨[lowFilter]⟩ (by decide) startCounter (by decide)
    (by rintro e ⟨⟩) ⟨0, by decide, by decide⟩ (2 ^ 112 + 1) (Nat.lt_succ_self _)

/-- The counter at `ff` after one more `tunnel_next`. -/
def exhausted : InstructionCounter :=
  { data := .replicate 32 0xff, len := 1, endInstr := none, tunnelPos := 0, numTunneled := 1 }

/-- A counter that has run off the last instruction stays where it is, although nothing is
filtered. -/
theorem applyFiltersToCurrent_exhausted :
    (do (← range ⟨[0xff], by decide⟩ none).tunnelNext 1 ⟨[]⟩ 200) = .ok (false, exhausted) ∧
    exhausted.current = .ok ⟨[0xff], by decide⟩ ∧
    (∀ fuel, exhausted.applyFiltersToCurrent fuel ⟨[]⟩ false = .ok (false, exhausted)) ∧
    ¬ ∀ s, pad ⟨[0xff], by decide⟩ ≤ s →
      (∃ f ∈ ([] : Filters), f.MatchesString s) ∨ BeyondEnd none s := by
  refine ⟨by decide, by decide, fun fuel => by rfl, fun h => ?_⟩
  obtain ⟨f, hf, -⟩ | ⟨e, he, -⟩ := h _ le_rfl
  · cases hf
  · cases he

/-! ## The order of the enumeration -/

/-- A counter whose current instruction is `x`, with the tunnel position inside. -/
structure At (c : InstructionCounter) (x : Instruction) : Prop where
  current_eq : c.current = .ok x
  tunnelPos_lt : c.tunnelPos < c.len

lemma extendUnless_spec (wasReducedLast : Bool) (filters : FilterList) (hcur : c.current = .ok x) :
    Ensures (extendUnless wasReducedLast filters c) (fun _ => True) fun c' =>
      ∃ y, ExtendsTo filters c x c' y ∧ (wasReducedLast = false → filters.shouldExtend y = false) := by
  cases wasReducedLast with
  | true => exact ⟨x, .refl hcur, nofun⟩
  | false =>
    refine (extendWhile_spec filters _ hcur).mono (fun _ _ => trivial) ?_
    rintro c' ⟨y, hy, hext⟩
    exact ⟨y, hy, fun _ => hext⟩

/-- A position that has only been extended, or has moved on. -/
def Onward (x y : Instruction) : Prop :=
  (∃ k, y.bytes = x.bytes ++ replicate k 0) ∨ x.pad < y.pad

/-- Applying the filters to `c`, at `x`, leaves the counter of `r` at `y`. -/
structure StopsAt (filters : FilterList) (c : InstructionCounter) (x : Instruction)
    (r : Bool × InstructionCounter) (y : Instruction) : Prop where
  current_eq : r.2.current = .ok y
  endInstr_eq : r.2.endInstr = c.endInstr
  tunnelPos_lt : c.tunnelPos < c.len → r.2.tunnelPos < r.2.len
  pad_le : x.pad ≤ y.pad
  onward : (∀ f ∈ filters.filters, f.data ≠ []) → Onward x y
  handed : r.1 = true → filters.matchingFilter y = none ∧ pastEnd c.endInstr y = false

lemma ExtendsTo.stopsAt {more : Bool} (h : ExtendsTo filters c x c' y)
    (hmore : more = true → filters.matchingFilter y = none ∧ pastEnd c.endInstr y = false) :
    StopsAt filters c x (more, c') y :=
  ⟨h.current_eq, h.endInstr_eq, h.tunnelPos_lt, h.pad_eq.ge, fun _ => Or.inl h.bytes_eq, hmore⟩

/-- Applying filters never moves back, whatever the filters are, and the last round has looked at
the position where it stops. -/
lemma applyLoop_stops (filters : FilterList) : ∀ (fuel : ℕ) (wasReducedLast : Bool)
    {tree : Option FilterTree} {T : BitTree Leaf} {c : InstructionCounter} {x : Instruction},
    TreeFor tree T → c.current = .ok x →
    Ensures (applyLoop filters fuel wasReducedLast tree c) (fun _ => True) fun r =>
      ∃ y, StopsAt filters c x r y ∧ (wasReducedLast = false → filters.shouldExtend y = false) := by
  intro fuel
  induction fuel with
  | zero => exact fun _ {_ _ _ _} _ _ => trivial
  | succ fuel ih =>
    intro wasReducedLast tree T c x htree hcur
    refine (extendUnless_spec wasReducedLast filters hcur).bind ?_
    rintro c1 ⟨y, hy, hext⟩
    refine Ensures.bind_ok hy.current_eq ?_
    cases hmatch : filters.matchingFilter y with
    | none =>
      refine ⟨y, hy.stopsAt fun hmore => ⟨hmatch, ?_⟩, hext⟩
      rw [← hy.endInstr_eq]
      simpa using hmore
    | some f =>
      have hround := skipFilter_spec (f := f) hy.current_eq htree
      refine (hround.mono (fun _ _ => trivial) fun _ h => h).bind ?_
      intro r hr
      cases r with
      | none => exact ⟨y, hy.stopsAt nofun, hext⟩
      | some r =>
        obtain ⟨hend, hpos, z, T2, hcur2, hvalid2, hskips, -⟩ := hr
        have htree2 : TreeFor (some r.2) T2 := hvalid2
        have hend' := hend.trans hy.endInstr_eq
        obtain ⟨hf, hfy⟩ := FilterList.of_matchingFilter hmatch
        refine (ih false htree2 hcur2).imp ?_
        rintro r ⟨w, hw, hext⟩
        refine ⟨w, ⟨hw.current_eq, hw.endInstr_eq.trans hend', fun _ => hw.tunnelPos_lt hpos, ?_,
          fun hfs => Or.inr ?_, hend' ▸ hw.handed⟩, fun _ => hext rfl⟩
        · exact hy.pad_eq.ge.trans (hskips.pad_le.trans hw.pad_le)
        · exact hy.pad_eq.ge.trans_lt ((hskips.pad_lt (hfs f hf) hfy).trans_le hw.pad_le)

variable {fuel tunnelDelay : ℕ} {r : Bool × InstructionCounter}

lemma applyFiltersToCurrent_le {wasReducedLast : Bool} (hc : c.At x)
    (h : c.applyFiltersToCurrent fuel filters wasReducedLast = .ok r) :
    ∃ y, r.2.At y ∧ x.pad ≤ y.pad := by
  unfold applyFiltersToCurrent at h
  split at h
  · cases h
    exact ⟨x, hc, le_rfl⟩
  · obtain ⟨y, hy, -⟩ :=
      (applyLoop_stops filters fuel wasReducedLast treeFor_none hc.current_eq).of_ok h
    exact ⟨y, ⟨hy.current_eq, hy.tunnelPos_lt hc.tunnelPos_lt⟩, hy.pad_le⟩

/-- The buffer `data'` agrees with `data` before the byte `p`, which is greater. -/
def Raised (data data' : Vector U8 32) (p : ℕ) : Prop :=
  data'.toList.take p = data.toList.take p ∧
    ∃ v v', data.toList[p]? = some v ∧ data'.toList[p]? = some v' ∧ v < v'

lemma raised_set {data : Vector U8 32} {p : ℕ} {v : U8} (hv : data[p]? = some v) (hne : v ≠ 0xff) :
    Raised data (data.setIfInBounds p (v + 1)) p := by
  have hget : data.toList[p]? = some v := by rwa [Vector.getElem?_toList]
  obtain ⟨hp, -⟩ := List.getElem?_eq_some_iff.mp hget
  refine ⟨?_, v, v + 1, hget, ?_, BitVec.lt_add_one hne⟩
  · rw [Vector.toList_setIfInBounds, take_set_of_le le_rfl]
  · rw [Vector.toList_setIfInBounds, getElem?_set_self hp]

/-- The carry stops at a byte that it raises. -/
lemma increment_spec {pos p : ℕ} {data data' : Vector U8 32}
    (h : increment pos data = .ok (some (data', p))) : p ≤ pos ∧ Raised data data' p := by
  fun_induction increment pos data with
  | case1 => cases h
  | case2 pos data v hv hne =>
    cases h
    exact ⟨le_rfl, raised_set hv hne⟩
  | case3 => cases h
  | case4 data v _ pos _ ih =>
    -- the byte becomes zero, and the carry goes on before it
    obtain ⟨hle, htake, w, w', hw, hw', hlt⟩ := ih h
    rw [Vector.toList_setIfInBounds] at htake hw
    rw [take_set_of_le (by omega)] at htake
    rw [getElem?_set_ne (by omega)] at hw
    exact ⟨by omega, htake, w, w', hw, hw', hlt⟩

lemma nextSingle_spec (c : InstructionCounter) :
    Ensures c.nextSingle (fun _ => True) fun r => r.2.len = c.len ∧
      r.2.tunnelPos ≤ c.tunnelPos ∧ r.2.numTunneled = c.numTunneled ∧
      (r.1 = true → Raised c.data r.2.data r.2.tunnelPos) := by
  unfold nextSingle
  cases hinc : increment c.tunnelPos c.data with
  | error e => trivial
  | ok r =>
    rw [ok_bind]
    cases r with
    | none => exact ⟨rfl, Nat.zero_le _, rfl, by rintro ⟨⟩⟩
    | some r =>
      obtain ⟨hle, hraised⟩ := increment_spec hinc
      cases c.endInstr with
      | none => exact ⟨rfl, hle, rfl, fun _ => hraised⟩
      | some e =>
        refine Ensures.bind (P := fun _ => True) ?_ fun x _ => ⟨rfl, hle, rfl, fun _ => hraised⟩
        cases current _ <;> trivial

/-- A raised byte inside both instructions makes the second one greater. -/
lemma pad_lt_of_raised (hx : c.current = .ok x) (hy : c'.current = .ok y) {p : ℕ}
    (hp : p < c.len) (hp' : p < c'.len) (h : Raised c.data c'.data p) : x.pad < y.pad := by
  obtain ⟨htake, v, v', hv, hv', hlt⟩ := h
  rw [Instruction.pad, Instruction.pad, Instruction.bits, Instruction.bits,
    (current_eq_ok_iff.mp hx).2, (current_eq_ok_iff.mp hy).2]
  refine pad_bitsOf_lt (p := p) ?_ ?_ ?_ hlt
  · rw [take_take, take_take, min_eq_left hp.le, min_eq_left hp'.le, htake]
  · rw [getElem?_take_of_lt hp, hv]
  · rw [getElem?_take_of_lt hp', hv']

lemma At.len_le (hc : c.At x) : c.len ≤ 15 := (current_eq_ok_iff.mp hc.current_eq).1

lemma startTunnel_spec (h : c.startTunnel tunnelDelay = .ok c') :
    c'.data = c.data ∧ c'.len = c.len ∧ c'.tunnelPos < c'.len := by
  unfold startTunnel at h
  split at h
  · cases h
  · split at h
    · split at h
      · cases h
      · cases h
        exact ⟨rfl, rfl, Nat.sub_lt (by omega) Nat.one_pos⟩
    · next hcond =>
      cases h
      exact ⟨rfl, rfl, lt_of_not_ge fun hge => hcond (.inr hge)⟩

lemma cutAtTunnelPos_spec (tunnelDelay : ℕ) (hpos : c.tunnelPos < c.len) :
    (c.cutAtTunnelPos tunnelDelay).data = c.data ∧
    (c.cutAtTunnelPos tunnelDelay).tunnelPos = c.tunnelPos ∧
    c.tunnelPos < (c.cutAtTunnelPos tunnelDelay).len ∧
    (c.cutAtTunnelPos tunnelDelay).len ≤ c.len := by
  unfold cutAtTunnelPos
  split
  · exact ⟨rfl, rfl, Nat.lt_succ_self _, hpos⟩
  · exact ⟨rfl, rfl, hpos, le_rfl⟩

/-- What a call of `tunnel_next` does; it puts the tunnel position in order if it has to. -/
lemma tunnelNext_spec (hc : c.current = .ok x) (h : c.tunnelNext fuel filters tunnelDelay = .ok r) :
    ∃ y, r.2.At y ∧ (r.1 = true → x.pad < y.pad) := by
  obtain ⟨c1, h1, h⟩ := ok_of_bind h
  obtain ⟨hdata1, hlen1, hpos1⟩ := startTunnel_spec h1
  obtain ⟨⟨more, c2⟩, h2, h⟩ := ok_of_bind h
  obtain ⟨hlen2, hpos2, -, hraised⟩ := (nextSingle_spec c1).of_ok h2
  have hlen := (current_eq_ok_iff.mp hc).1
  have hin2 : c2.tunnelPos < c2.len := by
    simp only at hlen2 hpos2
    omega
  cases more with
  | false =>
    cases h
    obtain ⟨y, hy⟩ := exists_current (c := c2) (by simp only at hlen2; omega)
    exact ⟨y, ⟨hy, hin2⟩, by rintro ⟨⟩⟩
  | true =>
    obtain ⟨hdata3, hpos3, hin3, hlen3⟩ := cutAtTunnelPos_spec tunnelDelay hin2
    obtain ⟨z, hz⟩ := exists_current (c := c2.cutAtTunnelPos tunnelDelay)
      (by simp only at hlen2; omega)
    have hlt : x.pad < z.pad := by
      refine pad_lt_of_raised hc hz ?_ hin3 ?_
      · simp only at hlen2 hpos2
        omega
      · rw [hdata3, ← hdata1]
        exact hraised rfl
    obtain ⟨y, hy, hle⟩ := applyFiltersToCurrent_le ⟨hz, by rw [hpos3]; exact hin3⟩ h
    exact ⟨y, hy, fun _ => hlt.trans_le hle⟩

/-- The counters that `range`, `tunnel_next`, `extend` and `apply_filters_to_current` lead to. -/
inductive Reached : InstructionCounter → Prop
  | range {start endInstr c : _} (h : range start endInstr = .ok c) : Reached c
  | tunnelNext {c fuel tunnelDelay filters r : _} (hc : Reached c)
      (h : c.tunnelNext fuel filters tunnelDelay = .ok r) : Reached r.2
  | extend {c fuel filters fastTunnel r : _} (hc : Reached c)
      (h : c.extend fuel filters fastTunnel = .ok r) : Reached r.2
  | applyFiltersToCurrent {c fuel filters wasReducedLast r : _} (hc : Reached c)
      (h : c.applyFiltersToCurrent fuel filters wasReducedLast = .ok r) : Reached r.2

/-- An extended buffer is not exhausted, so `extend` fails on sixteen bytes. -/
lemma extend_spec {fastTunnel : Bool} (hc : c.At x) (h : c.extend fuel filters fastTunnel = .ok r) :
    ∃ y, r.2.At y := by
  obtain ⟨c1, h1, h⟩ := ok_of_bind h
  obtain ⟨hlen1, hdata1, -, hpos1⟩ := extendInternal_spec h1
  have hin1 := hpos1 hc.tunnelPos_lt
  by_cases hfit : c1.len ≤ 15
  · obtain ⟨z, hz⟩ := exists_current hfit
    obtain ⟨y, hy, -⟩ := applyFiltersToCurrent_le ⟨hz, hin1⟩ h
    exact ⟨y, hy⟩
  · have hlen := hc.len_le
    have hzero : 0 ∈ c1.data.toList := by
      apply mem_of_mem_take
      rw [hdata1]
      simp
    have hguard : c1.data.toList.all (· == 0xff) = false := by
      rw [all_eq_false]
      exact ⟨0, hzero, by decide⟩
    unfold applyFiltersToCurrent at h
    rw [hguard] at h
    cases fuel with
    | zero => cases h
    | succ fuel =>
      have herr : ∀ z, c1.current ≠ .ok z := fun z hz => hfit (current_eq_ok_iff.mp hz).1
      obtain ⟨c2, h2, -⟩ := ok_of_bind h
      have hstop : ∀ n, extendWhile filters n c1 ≠ .ok c2 := by
        intro n hn
        cases n <;>
        · obtain ⟨z, hz, -⟩ := ok_of_bind hn
          exact herr z hz
      exact (hstop _ h2).elim

lemma Reached.exists_at (h : Reached c) : ∃ x, c.At x := by
  induction h with
  | range h => exact ⟨_, (current_of_range h).1, (current_of_range h).2⟩
  | tunnelNext _ h ih =>
    obtain ⟨x, hx⟩ := ih
    obtain ⟨y, hy, -⟩ := tunnelNext_spec hx.current_eq h
    exact ⟨y, hy⟩
  | extend _ h ih =>
    obtain ⟨x, hx⟩ := ih
    exact extend_spec hx h
  | applyFiltersToCurrent _ h ih =>
    obtain ⟨x, hx⟩ := ih
    obtain ⟨y, hy, -⟩ := applyFiltersToCurrent_le hx h
    exact ⟨y, hy⟩

/-- In every reached state the tunnel position is inside the current instruction, and a call of
`tunnel_next` that returns `true`, whatever its filters and its delay, moves to a greater
instruction. -/
theorem tunnelNext_lt (c : InstructionCounter) (hc : Reached c) :
    c.tunnelPos < c.len ∧
    ∀ (fuel : ℕ) (filters : FilterList) (tunnelDelay : ℕ) (c' : InstructionCounter),
      c.tunnelNext fuel filters tunnelDelay = .ok (true, c') →
      c'.tunnelPos < c'.len ∧ ∃ x y, c.current = .ok x ∧ c'.current = .ok y ∧ x < y := by
  obtain ⟨x, hx⟩ := hc.exists_at
  refine ⟨hx.tunnelPos_lt, fun fuel filters tunnelDelay c' h => ?_⟩
  obtain ⟨y, hy, hlt⟩ := tunnelNext_spec hx.current_eq h
  refine ⟨hy.tunnelPos_lt, x, y, hx.current_eq, hy.current_eq, ?_⟩
  exact lt_iff_bits_lt.mpr (lt_of_pad_lt_pad (hlt rfl))

/-- Tunnelling from the byte zero leads to the byte one. -/
theorem tunnelNext_lt_startCounter : Reached startCounter ∧ ∃ c',
    startCounter.tunnelNext 1 ⟨[]⟩ 200 = .ok (true, c') ∧
    ∃ x y, startCounter.current = .ok x ∧ c'.current = .ok y ∧ x < y := by
  have hrange : range ⟨[0], by decide⟩ none = .ok startCounter := by decide
  have hnext : startCounter.tunnelNext 1 ⟨[]⟩ 200 = .ok (true, { startCounter with
      data := startCounter.data.setIfInBounds 0 1, numTunneled := 1 }) := by decide
  refine ⟨.range hrange, _, hnext, ?_⟩
  exact ((tunnelNext_lt startCounter (.range hrange)).2 1 ⟨[]⟩ 200 _ hnext).2

end LibLisa.InstructionCounter
