import LibLisa.Instr.Counter
import LibLisa.Instr.FindNext

/-!
# What one round of the counter does

Specifications of the functions that `apply_filters_to_current` and `tunnel_next` are made of.

* `shouldExtend` and `matchingFilter` in terms of the infinite strings that start with an
  instruction: a matching filter matches all of them, and when there is neither a matching filter
  nor a reason to extend, no filter matches any of them (`not_matchesString`).
* `extendWhile_spec`: extending appends zero bytes only.
* `skipFilter_spec`: a round moves from an instruction to the least string that the tree of the
  round does not cover; that tree covers nothing but what it covered before, what the filter
  matches, what lies beyond the end, and what lies before the instruction.
-/

namespace LibLisa

open Lib BitString FilterTree BitTree Instruction
open List hiding Vector

/-! ## Filters and the strings that start with an instruction -/

namespace InstructionFilter

lemma matches_of_matchesAnything {bf : ByteFilter} (h : bf.matchesAnything = true) (v : U8) :
    bf.matches v = true := by
  obtain ⟨mask, value, hmask⟩ := bf
  simp only [ByteFilter.matchesAnything, beq_iff_eq] at h
  subst h
  have hall : ~~~0 = BitVec.allOnes 8 := by decide
  have hvalue : value = 0 := by rwa [hall, BitVec.and_allOnes] at hmask
  simp [ByteFilter.matches, hvalue]

variable {bytes : List U8} {data : List ByteFilter}

lemma matches_of_matchesBytes (h : matchesBytes data bytes = true) {i : ℕ} (hi : i < data.length)
    {v : U8} (hv : ∀ hb : i < bytes.length, v = bytes[i]) : data[i].matches v = true := by
  have hi := matchesBytes_iff.mp h i _ (getElem?_eq_getElem hi)
  by_cases hb : i < bytes.length
  · rw [getElem?_eq_getElem hb] at hi
    rw [hv hb]
    exact hi
  · rw [getElem?_eq_none (Nat.not_lt.mp hb)] at hi
    exact matches_of_matchesAnything hi v

lemma matchesBytes_of_matches (hlen : data.length ≤ bytes.length)
    (h : ∀ i, ∀ hi : i < data.length, data[i].matches bytes[i] = true) :
    matchesBytes data bytes = true := by
  rw [matchesBytes_iff]
  intro i a ha
  obtain ⟨hi, rfl⟩ := List.getElem?_eq_some_iff.mp ha
  rw [getElem?_eq_getElem (hi.trans_le hlen)]
  exact h i hi

lemma mask_of_matchesBytes (h : matchesBytes data bytes = true) :
    (data.drop bytes.length).all (fun bf => bf.mask == 0) = true := by
  rw [all_eq_true]
  intro bf hmem
  obtain ⟨i, hi⟩ := getElem?_of_mem hmem
  rw [getElem?_drop] at hi
  have hany := matchesBytes_iff.mp h _ bf hi
  rwa [getElem?_eq_none (Nat.le_add_right _ _)] at hany

variable {f : InstructionFilter} {x : Instruction} {s : BitString}

/-- A filter that matches an instruction matches every string that starts with it. -/
lemma matchesString_of_matches (h : f.matches x = true) (hs : StartsWith x.bits s) :
    f.MatchesString s := by
  intro i hi
  exact matches_of_matchesBytes h hi fun hb => byteAt_of_startsWith hs hb

lemma matches_of_matchesString (hlen : f.len ≤ x.byteLen) (hs : StartsWith x.bits s)
    (h : f.MatchesString s) : f.matches x = true := by
  refine matchesBytes_of_matches hlen fun i hi => ?_
  rw [← byteAt_of_startsWith hs (Nat.lt_of_lt_of_le hi hlen)]
  exact h i hi

/-- A filter that matches a string matches its initial segments partially. -/
lemma matchesSmallerInstrPartially_of_matchesString (hlen : x.byteLen ≤ f.len)
    (hs : StartsWith x.bits s) (h : f.MatchesString s) :
    f.matchesSmallerInstrPartially x = true := by
  rw [matchesSmallerInstrPartially, if_neg (Nat.not_lt_of_le hlen), all_eq_true]
  rintro ⟨bf, byte⟩ hmem
  obtain ⟨i, hi, hget⟩ := getElem_of_mem hmem
  rw [getElem_zip] at hget
  obtain ⟨rfl, rfl⟩ := hget
  rw [length_zip, lt_min_iff] at hi
  have hbyte := h i hi.1
  rwa [byteAt_of_startsWith hs hi.2] at hbyte

end InstructionFilter

namespace FilterList

variable {l : FilterList} {x : Instruction} {f : InstructionFilter} {s : BitString}

/-- Some filter of the list matches the string. -/
def MatchesString (l : FilterList) (s : BitString) : Prop := ∃ f ∈ l.filters, f.MatchesString s

lemma of_matchingFilter (h : l.matchingFilter x = some f) : f ∈ l.filters ∧ f.matches x = true := by
  have hmem := mem_of_find?_eq_some h
  have hp := find?_some h
  rw [Bool.and_eq_true] at hp
  exact ⟨mem_reverse.mp hmem, hp.1⟩

lemma matches_eq_false (h : l.matchingFilter x = none) (hf : f ∈ l.filters) :
    f.matches x = false := by
  have hnone := find?_eq_none.mp h f (mem_reverse.mpr hf)
  cases hm : f.matches x with
  | false => rfl
  | true =>
    rw [hm, byteLen, InstructionFilter.mask_of_matchesBytes hm] at hnone
    exact absurd rfl hnone

/-- Where the counter stops, no filter matches any string that starts with the instruction. -/
theorem not_matchesString (hext : l.shouldExtend x = false) (h : l.matchingFilter x = none)
    (hs : StartsWith x.bits s) : ¬ l.MatchesString s := by
  rintro ⟨f, hf, hm⟩
  by_cases hlen : f.len ≤ x.byteLen
  · have hmatch := InstructionFilter.matches_of_matchesString hlen hs hm
    rw [matches_eq_false h hf] at hmatch
    cases hmatch
  · have hpart := InstructionFilter.matchesSmallerInstrPartially_of_matchesString
      (Nat.le_of_not_le hlen) hs hm
    unfold shouldExtend at hext
    rw [any_eq_false] at hext
    exact hext f hf (by simp [hpart, Nat.lt_of_not_le hlen])

lemma exists_of_shouldExtend (h : l.shouldExtend x = true) :
    ∃ f ∈ l.filters, x.byteLen < f.len := by
  obtain ⟨f, hf, hp⟩ := any_eq_true.mp h
  rw [Bool.and_eq_true, decide_eq_true_iff] at hp
  exact ⟨f, hf, hp.1⟩

end FilterList

/-! ## The current instruction -/

namespace InstructionCounter

variable {c c' : InstructionCounter} {x y : Instruction} {filters : FilterList}

lemma current_eq_ok_iff : c.current = .ok x ↔ c.len ≤ 15 ∧ x.bytes = c.data.toList.take c.len := by
  have hlength : (c.data.toList.take c.len).length = min c.len 32 := by simp
  unfold current Instruction.new
  constructor
  · intro h
    split at h
    · split at h
      · next hle =>
        cases h
        exact ⟨by omega, rfl⟩
      · cases h
    · cases h
  · rintro ⟨hle, hx⟩
    rw [if_pos (by omega), dif_pos (by omega)]
    cases x
    subst hx
    rfl

lemma byteLen_of_current (h : c.current = .ok x) : x.byteLen = c.len := by
  obtain ⟨hle, hx⟩ := current_eq_ok_iff.mp h
  rw [byteLen, hx]
  simp only [length_take, Vector.length_toList]
  omega

lemma take_copyBytes (data : Vector U8 32) {bytes : List U8} (h : bytes.length ≤ 32) :
    (copyBytes data bytes).toList.take bytes.length = bytes := by
  unfold copyBytes
  apply ext_getElem
  · simp [h]
  · intro i hi hi'
    simp only [getElem_take, Vector.toList_ofFn, List.getElem_ofFn]
    rw [getD_eq_getElem?_getD, List.getElem?_eq_getElem hi', Option.getD_some]

/-- `set_current` makes the instruction the current one. -/
lemma setCurrent_spec (c : InstructionCounter) (hx : x.byteLen ≠ 0) :
    ∃ c', c.setCurrent x = .ok c' ∧ c'.current = .ok x ∧ c'.endInstr = c.endInstr ∧
      c'.tunnelPos < c'.len := by
  have hle := x.length_le
  refine ⟨_, if_neg hx, current_eq_ok_iff.mpr ⟨hle, ?_⟩, rfl, ?_⟩
  · exact (take_copyBytes c.data (by omega)).symm
  · exact Nat.sub_lt (Nat.pos_of_ne_zero hx) Nat.one_pos

lemma current_of_range {endInstr : Option Instruction} (h : range x endInstr = .ok c) :
    c.current = .ok x ∧ c.tunnelPos < c.len := by
  have hle := x.length_le
  have hx : x.byteLen ≠ 0 := by
    intro hx
    rw [range, if_pos hx] at h
    cases h
  rw [range, if_neg hx] at h
  obtain rfl := Except.ok.inj h
  refine ⟨current_eq_ok_iff.mpr ⟨hle, ?_⟩, Nat.sub_lt (Nat.pos_of_ne_zero hx) Nat.one_pos⟩
  exact (take_copyBytes _ (by omega)).symm

/-- Extending appends a zero byte. -/
lemma extendInternal_spec {fast : Bool} (h : c.extendInternal fast = .ok c') :
    c'.len = c.len + 1 ∧
    c'.data.toList.take (c.len + 1) = c.data.toList.take c.len ++ [0] ∧
    c'.endInstr = c.endInstr ∧ (c.tunnelPos < c.len → c'.tunnelPos < c'.len) := by
  unfold extendInternal at h
  split at h
  · next hlt =>
    cases h
    refine ⟨rfl, ?_, rfl, fun hpos => ?_⟩
    · have hlen : c.len < c.data.toList.length := by simpa using hlt
      rw [Vector.toList_setIfInBounds, take_succ_eq_append_getElem (by simpa using hlt),
        take_set_of_le le_rfl, getElem_set_self]
    · cases fast with
      | true => exact Nat.lt_succ_of_lt hpos
      | false => exact Nat.lt_succ_self _
  · cases h

/-- The counter `c'` stands at `y`, reached from `x` by appending zero bytes. -/
structure ExtendsTo (filters : FilterList) (c : InstructionCounter) (x : Instruction)
    (c' : InstructionCounter) (y : Instruction) : Prop where
  current_eq : c'.current = .ok y
  bytes_eq : ∃ k, y.bytes = x.bytes ++ replicate k 0
  byteLen_le : x.byteLen ≤ 14 → (∀ f ∈ filters.filters, f.len ≤ 14) → y.byteLen ≤ 14
  endInstr_eq : c'.endInstr = c.endInstr
  tunnelPos_lt : c.tunnelPos < c.len → c'.tunnelPos < c'.len

lemma ExtendsTo.refl (h : c.current = .ok x) : ExtendsTo filters c x c x :=
  ⟨h, ⟨0, by simp⟩, fun hx _ => hx, rfl, id⟩

lemma ExtendsTo.bits_eq (h : ExtendsTo filters c x c' y) :
    ∃ k, y.bits = x.bits ++ replicate k false := by
  obtain ⟨k, hk⟩ := h.bytes_eq
  exact ⟨8 * k, by rw [bits, hk, bitsOf_append, bitsOf_replicate_zero]; rfl⟩

/-- Zero bytes at the end do not move the position. -/
lemma ExtendsTo.pad_eq (h : ExtendsTo filters c x c' y) : y.pad = x.pad := by
  obtain ⟨k, hk⟩ := h.bits_eq
  rw [Instruction.pad, hk, pad_append_replicate, Instruction.pad]

/-- Extending appends zeros, and stops in time unless the filters are too long. -/
lemma extendWhile_spec (filters : FilterList) : ∀ (n : ℕ) {c : InstructionCounter}
    {x : Instruction}, c.current = .ok x →
    Ensures (extendWhile filters n c)
      (fun _ => ¬ (32 ≤ n + c.len ∧ x.byteLen ≤ 14 ∧ ∀ f ∈ filters.filters, f.len ≤ 14))
      fun c' => ∃ y, ExtendsTo filters c x c' y ∧ filters.shouldExtend y = false := by
  intro n
  induction n with
  | zero =>
    intro c x hcur
    have hlen := byteLen_of_current hcur
    rw [extendWhile, hcur, ok_bind]
    cases hext : filters.shouldExtend x with
    | false => exact ⟨x, .refl hcur, hext⟩
    | true =>
      rintro ⟨hroom, hshort, -⟩
      omega
  | succ n ih =>
    intro c x hcur
    have hlen := byteLen_of_current hcur
    have hbytes := (current_eq_ok_iff.mp hcur).2
    rw [extendWhile, hcur, ok_bind]
    cases hext : filters.shouldExtend x with
    | false => exact ⟨x, .refl hcur, hext⟩
    | true =>
      obtain ⟨f, hf, hflen⟩ := FilterList.exists_of_shouldExtend hext
      have hgrow : x.byteLen ≤ 14 → (∀ f ∈ filters.filters, f.len ≤ 14) → x.byteLen + 1 ≤ 14 :=
        fun _ hfs => hflen.trans_le (hfs f hf)
      cases hint : c.extendInternal false with
      | error e =>
        rintro ⟨-, hshort, hfs⟩
        unfold extendInternal at hint
        rw [if_pos (by omega)] at hint
        cases hint
      | ok c1 =>
        obtain ⟨hlen1, hdata1, hend1, hpos1⟩ := extendInternal_spec hint
        rw [ok_bind]
        by_cases hfit : c.len + 1 ≤ 15
        · have hcur1 : c1.current = .ok ⟨x.bytes ++ [0], by
              rw [byteLen] at hlen
              simpa [hlen] using hfit⟩ := by
            rw [current_eq_ok_iff, hlen1, hdata1, ← hbytes]
            exact ⟨hfit, rfl⟩
          refine (ih hcur1).mono (fun _ he hall => he ?_) ?_
          · obtain ⟨hroom, hshort, hfs⟩ := hall
            refine ⟨by omega, ?_, hfs⟩
            simpa [byteLen] using hgrow hshort hfs
          · rintro c2 ⟨y, hy, hdone⟩
            refine ⟨y, ⟨hy.current_eq, ?_, fun hshort hfs => hy.byteLen_le ?_ hfs,
              hy.endInstr_eq.trans hend1, fun hpos => hy.tunnelPos_lt (hpos1 hpos)⟩, hdone⟩
            · obtain ⟨k, hk⟩ := hy.bytes_eq
              refine ⟨k + 1, ?_⟩
              rw [hk, append_assoc, replicate_succ, singleton_append]
            · simpa [byteLen] using hgrow hshort hfs
        · -- sixteen bytes are no instruction
          obtain ⟨e, he⟩ : ∃ e, c1.current = .error e := by
            cases hc1 : c1.current with
            | ok z =>
              have := (current_eq_ok_iff.mp hc1).1
              omega
            | error e => exact ⟨e, rfl⟩
          have hfail : extendWhile filters n c1 = .error e := by
            cases n <;> rw [extendWhile, he, error_bind]
          rw [hfail]
          rintro ⟨-, hshort, hfs⟩
          omega

/-! ## The tree of a round -/

/-- The string lies beyond the end: it is greater than the end, or continues it. -/
def BeyondEnd (endInstr : Option Instruction) (s : BitString) : Prop :=
  ∃ e, endInstr = some e ∧ e.pad ≤ s

/-- The string is greater than everything that starts with the end. -/
def AboveEnd (endInstr : Option Instruction) (s : BitString) : Prop :=
  ∃ e, endInstr = some e ∧ e.pad < s ∧ ¬ StartsWith e.bits s

lemma AboveEnd.beyondEnd {endInstr : Option Instruction} {s : BitString} (h : AboveEnd endInstr s) :
    BeyondEnd endInstr s := by
  obtain ⟨e, he, hlt, -⟩ := h
  exact ⟨e, he, hlt.le⟩

/-- The end, if there is one, has at most 14 bytes. -/
def ShortEnd (endInstr : Option Instruction) : Prop := ∀ e, endInstr = some e → e.byteLen ≤ 14

/-- The decision tree that the rounds so far have built. -/
def TreeFor (tree : Option FilterTree) (T : BitTree Leaf) : Prop :=
  match tree with
  | some t => t.Valid T
  | none => T = .ignore (.leaf .enumerate)

lemma treeFor_none : TreeFor none (.ignore (.leaf .enumerate)) := rfl

variable {t : FilterTree} {T : BitTree Leaf} {endInstr : Option Instruction}
  {tree : Option FilterTree}

/-- Filtering above the end adds the strings above it. -/
lemma filterEnd_spec (hvalid : t.Valid T) (endInstr : Option Instruction) :
    Ensures (filterEnd endInstr t) OnlyU40 fun t' => ∃ T', t'.Valid T' ∧
      (∀ s, T'.walk s = .skip ↔ T.walk s = .skip ∨ AboveEnd endInstr s) ∧
      (ShortEnd endInstr → T.height ≤ 112 → T'.height ≤ 112) ∧
      (T = .ignore (.leaf .enumerate) → T'.numNodes ≤ 121) := by
  cases endInstr with
  | none =>
    refine ⟨T, hvalid, fun s => by simp [AboveEnd], fun _ h => h, ?_⟩
    rintro rfl
    simp [numNodes]
  | some e =>
    refine (filterAbove_spec hvalid e).imp fun t' ht' => ?_
    refine ⟨_, ht', fun s => ?_, fun hshort hT => ?_, ?_⟩
    · rw [walk_insertAll_eq_iff, exists_edgeCubes_matches_iff, flipsBit_false_iff, or_comm]
      simp [AboveEnd, Instruction.pad]
    · exact height_insertAll_le (by omega)
        (fun _ => length_le_of_mem_edgeCubes (hshort e rfl)) hT
    · rintro rfl
      have hcomb : RootComb e.bits (insertAll Leaf.skip
          (edgeCubes false e.bits) (.ignore (.leaf .enumerate))) := by
        refine rootComb_insertAll (fun d hd => ?_) (Or.inr ⟨_, rfl⟩)
        obtain ⟨p, hp, hbit, rfl⟩ := mem_edgeCubes.mp hd
        exact ⟨p, hp, by rw [hbit]; rfl⟩
      have hnodes := numNodes_le_of_rootComb hcomb
      have hlen := e.bitLen_le
      rw [length_bits] at hnodes
      omega

/-- Pruning ends if what lies on the path of the instruction and below is small: then every call of
`prune` on a big tree removes a node. -/
lemma pruneWhile_spec (x : Instruction) : ∀ (n : ℕ) {t : FilterTree} {T : BitTree Leaf},
    t.Valid T → (T.keptNodes x.bits < 0x1000000 → T.numNodes ≤ n) →
    Ensures (pruneWhile x n t) (fun _ => 0x1000000 ≤ T.keptNodes x.bits) fun t' => ∃ T', t'.Valid T' ∧
      (∀ s, T'.walk s = .skip → T.walk s = .skip) ∧ T'.height ≤ T.height := by
  intro n
  induction n with
  | zero =>
    intro t T hvalid hnodes
    rw [pruneWhile]
    split
    · next hbig =>
      rw [hvalid.len_eq_numNodes] at hbig
      change 0x1000000 ≤ T.keptNodes x.bits
      omega
    · exact ⟨T, hvalid, fun _ hs => hs, le_rfl⟩
  | succ n ih =>
    intro t T hvalid hnodes
    rw [pruneWhile]
    split
    · next hbig =>
      obtain ⟨t1, ht1, hvalid1⟩ := prune_spec hvalid x
      have hkept := keptNodes_prune (a := Leaf.enumerate) (t := T) x.bits
      rw [ht1]
      refine (ih hvalid1 fun hsmall => ?_).mono (fun _ hlarge => ?_) ?_
      · have hdecr := numNodes_prune (a := Leaf.enumerate) (t := T) x.bits
        rw [hvalid.len_eq_numNodes] at hbig
        omega
      · rwa [hkept] at hlarge
      · rintro t' ⟨T', hvalid', hskip, hheight⟩
        refine ⟨T', hvalid', fun s hs => ?_, hheight.trans (height_prune_le _ _ _)⟩
        obtain h | h := walk_prune .enumerate x.bits T s
        · rw [← h]
          exact hskip s hs
        · rw [hskip s hs] at h
          cases h
    · exact ⟨T, hvalid, fun _ hs => hs, le_rfl⟩

/-- A path to a leaf has few nodes. -/
lemma keptNodes_lt_of_leafAt (hleaf : T.leafAt x.bits ≠ none) : T.keptNodes x.bits < 0x1000000 := by
  have hkept := keptNodes_le_length hleaf
  have hlen := x.bitLen_le
  rw [length_bits] at hkept
  omega

/-- A loop that ends leaves a small tree, and has nothing large on the path of the instruction and
below. -/
lemma lt_of_pruneWhile {t' : FilterTree} : ∀ (n : ℕ) {t : FilterTree}
    {T : BitTree Leaf}, t.Valid T → pruneWhile x n t = .ok t' →
    t'.len < 0x1000000 ∧ T.keptNodes x.bits < 0x1000000 := by
  have hsmall : ∀ {t : FilterTree} {T : BitTree Leaf}, t.Valid T → t.len < 0x1000000 →
      T.keptNodes x.bits < 0x1000000 := fun {t T} hvalid hlt =>
    (T.keptNodes_le_numNodes x.bits).trans_lt (hvalid.len_eq_numNodes ▸ hlt)
  intro n
  induction n with
  | zero =>
    intro t T hvalid h
    rw [pruneWhile] at h
    split at h
    · cases h
    · next hlt =>
      obtain rfl := Except.ok.inj h
      exact ⟨not_le.mp hlt, hsmall hvalid (not_le.mp hlt)⟩
  | succ n ih =>
    intro t T hvalid h
    rw [pruneWhile] at h
    split at h
    · obtain ⟨t1, ht1, hvalid1⟩ := prune_spec hvalid x
      rw [ht1] at h
      have hrest := ih hvalid1 h
      rwa [keptNodes_prune] at hrest
    · next hlt =>
      obtain rfl := Except.ok.inj h
      exact ⟨not_le.mp hlt, hsmall hvalid (not_le.mp hlt)⟩

/-- The loop that prunes a tree ends if and only if the nodes on the path of the instruction and
below its end are fewer than the limit, as they are if the instruction leads to a leaf. -/
theorem pruneWhile_ends_iff {t : FilterTree} {T : BitTree Leaf} (hvalid : t.Valid T)
    (x : Instruction) :
    ((∃ n t', pruneWhile x n t = .ok t' ∧ t'.len < 0x1000000) ↔
        T.keptNodes x.bits < 0x1000000) ∧
      (T.leafAt x.bits ≠ none → ∃ n t', pruneWhile x n t = .ok t' ∧ t'.len < 0x1000000) := by
  have hends : T.keptNodes x.bits < 0x1000000 →
      ∃ n t', pruneWhile x n t = .ok t' ∧ t'.len < 0x1000000 := by
    intro hsmall
    have hspec := pruneWhile_spec x t.len hvalid fun _ => hvalid.len_eq_numNodes.ge
    rcases h : pruneWhile x t.len t with e | t'
    · rw [h] at hspec
      exact absurd hspec (not_le.mpr hsmall)
    · exact ⟨t.len, t', h, (lt_of_pruneWhile _ hvalid h).1⟩
  refine ⟨⟨?_, hends⟩, fun hleaf => hends (keptNodes_lt_of_leafAt hleaf)⟩
  rintro ⟨n, t', h, -⟩
  exact (lt_of_pruneWhile n hvalid h).2

/-- The tree that skips the strings with an odd number of ones among their first bits. -/
def parityTree : ℕ → Bool → BitTree Leaf
  | 0, odd => .leaf (if odd then .skip else .enumerate)
  | n + 1, odd => .branch (parityTree n odd) (parityTree n (!odd))

lemma numNodes_parityTree (n : ℕ) (odd : Bool) : (parityTree n odd).numNodes + 1 = 2 ^ n := by
  induction n generalizing odd with
  | zero => rfl
  | succ n ih =>
    have h0 := ih odd
    have h1 := ih (!odd)
    rw [parityTree, numNodes]
    omega

/-- The instruction `40` leads past a tree that is too big, which pruning cuts off. -/
theorem pruneWhile_ends_besideParity :
    ∃ t T, t.Valid T ∧ 0x1000000 ≤ t.len ∧
      ∃ n t', pruneWhile ⟨[0x40], by decide⟩ n t = .ok t' ∧ t'.len < 0x1000000 := by
  have hnodes : (BitTree.ignore (.branch (parityTree 24 false) (.leaf .enumerate))).numNodes =
      2 ^ 24 + 1 := by
    have := numNodes_parityTree 24 false
    simp only [BitTree.numNodes]
    omega
  have hvalid := FilterTree.valid_store _ (hnodes.trans_le (by decide))
  have hbits : bits ⟨[0x40], by decide⟩ =
      [false, true, false, false, false, false, false, false] := by decide
  refine ⟨_, _, hvalid, ?_, (pruneWhile_ends_iff hvalid _).2 ?_⟩
  · rw [hvalid.len_eq_numNodes]
    exact le_of_le_of_eq (by decide) hnodes.symm
  · rw [hbits]
    exact Option.some_ne_none _

/-- A tree that does not look at the first byte. -/
def belowFirstByte (T : BitTree Leaf) : BitTree Leaf :=
  .ignore (.ignore (.ignore (.ignore (.ignore (.ignore (.ignore (.ignore T)))))))

/-- The bytes after the first one are all below the path of an instruction of one byte: a tree that
looks at three of them is too big, and pruning does not end. -/
theorem pruneWhile_belowFirstByte :
    ∃ t T, t.Valid T ∧ 0x1000000 ≤ t.len ∧
      ¬ ∃ n t', pruneWhile ⟨[0x12], by decide⟩ n t = .ok t' := by
  have hnodes : (belowFirstByte (parityTree 24 false)).numNodes = 2 ^ 24 + 7 := by
    have := numNodes_parityTree 24 false
    simp only [belowFirstByte, BitTree.numNodes]
    omega
  have hvalid := FilterTree.valid_store _ (hnodes.trans_le (by decide))
  refine ⟨_, _, hvalid, ?_, ?_⟩
  · rw [hvalid.len_eq_numNodes]
    exact le_of_le_of_eq (by decide) hnodes.symm
  · rintro ⟨n, t', h⟩
    have hkept := (lt_of_pruneWhile n hvalid h).2
    have hbits : bits ⟨[0x12], by decide⟩ =
        [false, false, false, true, false, false, true, false] := by decide
    have hpath := numNodes_parityTree 24 false
    simp only [hbits, BitTree.keptNodes, BitTree.keptNodes_nil] at hkept
    omega

lemma roundTree_spec (x : Instruction) (htree : TreeFor tree T) (endInstr : Option Instruction) :
    Ensures (roundTree endInstr x tree)
      (fun e => e = .u40Overflow ∨ tree ≠ none ∧ T.leafAt x.bits = none) fun t => ∃ T', t.Valid T' ∧
      (∀ s, T'.walk s = .skip → T.walk s = .skip ∨ AboveEnd endInstr s) ∧
      (tree = none → ∀ s, AboveEnd endInstr s → T'.walk s = .skip) ∧
      (ShortEnd endInstr → T.height ≤ 112 → T'.height ≤ 112) := by
  cases tree with
  | none =>
    obtain rfl : T = .ignore (.leaf .enumerate) := htree
    refine ((filterEnd_spec valid_new endInstr).mono (fun _ => Or.inl) fun _ h => h).bind ?_
    rintro t1 ⟨T1, hvalid1, hskip1, hheight1, hnodes1⟩
    have hsmall : ¬ t1.len ≥ 0x1000000 := by
      have := hnodes1 rfl
      rw [hvalid1.len_eq_numNodes]
      omega
    beta_reduce
    rw [if_neg hsmall]
    exact ⟨T1, hvalid1, fun s => (hskip1 s).mp, fun _ s hs => (hskip1 s).mpr (Or.inr hs), hheight1⟩
  | some t =>
    have hvalid : t.Valid T := htree
    refine Ensures.bind_ok rfl ?_
    beta_reduce
    split
    · have hnone : 0x1000000 ≤ T.keptNodes x.bits → T.leafAt x.bits = none := by
        contrapose!
        exact keptNodes_lt_of_leafAt
      refine ((pruneWhile_spec x t.len hvalid fun _ => hvalid.len_eq_numNodes.ge).mono
        (fun _ he => Or.inr ⟨by simp, hnone he⟩) fun _ h => h).bind ?_
      rintro t1 ⟨T1, hvalid1, hskip1, hheight1⟩
      refine (filterEnd_spec hvalid1 endInstr).mono (fun _ => Or.inl) ?_
      rintro t2 ⟨T2, hvalid2, hskip2, hheight2, -⟩
      refine ⟨T2, hvalid2, fun s hs => ((hskip2 s).mp hs).imp_left (hskip1 s), by rintro ⟨⟩,
        fun hend hT => ?_⟩
      exact hheight2 hend (hheight1.trans hT)
    · exact ⟨T, hvalid, fun _ hs => Or.inl hs, by rintro ⟨⟩, fun _ hT => hT⟩

/-! ## A round -/

/-- The string is filtered by `f`, by the tree so far, or by the end. -/
def Hidden (f : InstructionFilter) (endInstr : Option Instruction) (T : BitTree Leaf)
    (s : BitString) : Prop :=
  f.MatchesString s ∨ T.walk s = .skip ∨ AboveEnd endInstr s

/-- What a round needs in order not to panic, except in `U40::new`. -/
structure RoundOk (f : InstructionFilter) (endInstr : Option Instruction)
    (tree : Option FilterTree) (T : BitTree Leaf) (x : Instruction) : Prop where
  data_ne_nil : f.data ≠ []
  len_le : f.len ≤ 14
  byteLen_le : x.byteLen ≤ 14
  shortEnd : ShortEnd endInstr
  height_le : T.height ≤ 112
  leafAt_ne_none : tree ≠ none → T.leafAt x.bits ≠ none

/-- A round that moves from `x` to `y` and leaves the tree `T'`. -/
structure SkipsTo (f : InstructionFilter) (endInstr : Option Instruction) (T : BitTree Leaf)
    (x y : Instruction) (T' : BitTree Leaf) : Prop where
  pad_le : x.pad ≤ y.pad
  hidden_between : ∀ s, x.pad ≤ s → s < y.pad → Hidden f endInstr T s
  hidden_of_skip : ∀ s, T'.walk s = .skip → Hidden f endInstr T s ∨ s < x.pad
  not_matches : f.data ≠ [] → ¬ f.MatchesString y.pad
  leafAt_eq : T'.leafAt y.bits = some .enumerate

variable {f : InstructionFilter}

/-- Inserting the filter covers what it matches. -/
lemma walk_callTree_filter {s : BitString} (hf : f.data ≠ []) :
    (callTree T (.filter f)).walk s = .skip ↔ f.MatchesString s ∨ T.walk s = .skip := by
  rw [callTree, if_neg hf, walk_insert_eq_iff, realCube_matches_iff]

lemma leafAt_filterBelow (hle : x.pad ≤ y.pad) (hy : y.byteLen ≠ 0)
    (h : T.leafAt y.bits = some .enumerate) :
    (callTree T (.filterBelow x)).leafAt y.bits = some .enumerate := by
  have hne : y.bits ≠ [] := by
    intro hnil
    have hlen := y.length_bits
    rw [hnil, bitLen, length_nil] at hlen
    omega
  refine leafAt_insertAll hne (fun d hd u hu hm => ?_) h
  have hlt := flipsBit_true_iff.mp (exists_edgeCubes_matches_iff.mp ⟨d, hd, hm⟩)
  exact absurd (hle.trans (pad_le_of_startsWith hu)) (not_le_of_gt hlt)

lemma eq_skip_of_ne {a : Leaf} (h : a ≠ .enumerate) : a = .skip := by
  cases a with
  | enumerate => exact absurd rfl h
  | skip => rfl

/-- The search does not end at the empty instruction: some string is filtered. -/
lemma byteLen_ne_zero_of_isNext (hf : f.data ≠ []) {u : BitString}
    (h : (callTree T (.filter f)).IsNext .enumerate u y.bits) : y.byteLen ≠ 0 := by
  intro hy
  have hnil : y.bits = [] := by
    rw [← length_eq_zero_iff, length_bits, bitLen, hy]
  obtain ⟨s, hs⟩ := (realCube f).exists_matches
  have hskip := (walk_callTree_filter (T := T) hf).mpr (Or.inl ((realCube_matches_iff _ _).mp hs))
  rw [h.walk_eq s (by rw [hnil]; trivial)] at hskip
  cases hskip

/-- One round of `apply_filters_to_current` in which `f` is the matching filter. -/
theorem skipFilter_spec (hcur : c.current = .ok x) (htree : TreeFor tree T) :
    Ensures (c.skipFilter f tree)
      (fun e => RoundOk f c.endInstr tree T x → e = .u40Overflow) fun
      | some (c', t') => c'.endInstr = c.endInstr ∧ c'.tunnelPos < c'.len ∧
          ∃ y T', c'.current = .ok y ∧ t'.Valid T' ∧ SkipsTo f c.endInstr T x y T' ∧
            (tree = none → ¬ AboveEnd c.endInstr y.pad) ∧
            (RoundOk f c.endInstr tree T x → y.byteLen ≤ 14 ∧ T'.height ≤ 112)
      | none => ∀ s, x.pad ≤ s → Hidden f c.endInstr T s := by
  refine Ensures.bind_ok hcur ?_
  refine ((roundTree_spec x htree c.endInstr).mono (fun e he hok => ?_) fun _ h => h).bind ?_
  · obtain he | ⟨htree, hleaf⟩ := he
    · exact he
    · exact absurd hleaf (hok.leafAt_ne_none htree)
  rintro t1 ⟨T1, hvalid1, hskip1, habove1, hheight1⟩
  refine ((call_spec hvalid1 (.filter f)).mono (fun e he _ => he) fun _ h => h).bind ?_
  intro t2 hvalid2
  have hheight2 : RoundOk f c.endInstr tree T x →
      (callTree T1 (.filter f)).height ≤ 112 := fun hok =>
    height_callTree_le hok.len_le (hheight1 hok.shortEnd hok.height_le)
  have hhidden : ∀ s, (callTree T1 (.filter f)).walk s = .skip →
      Hidden f c.endInstr T s := by
    intro s h
    by_cases hf : f.data = []
    · rw [callTree, if_pos hf] at h
      exact Or.inr (hskip1 s h)
    · exact ((walk_callTree_filter hf).mp h).imp_right (hskip1 s)
  refine ((findNext_spec hvalid2 x).mono (fun e he hok => ?_) fun _ h => h).bind ?_
  · have := he.2.1
    have := hheight2 hok
    omega
  intro r hr
  cases r with
  | none => exact fun s hs => hhidden s (eq_skip_of_ne (hr s hs))
  | some y =>
    obtain ⟨hylen, hnext⟩ := hr
    have hwalk : (callTree T1 (.filter f)).walk y.pad ≠ .skip := by
      rw [hnext.walk_eq y.pad (startsWith_pad _)]
      rintro ⟨⟩
    refine ((call_spec hvalid2 (.filterBelow x)).mono (fun e he _ => he) fun _ h => h).bind ?_
    intro t3 hvalid3
    by_cases hy : y.byteLen = 0
    · have herr : c.setCurrent y = .error .arithmeticOverflow := if_pos hy
      rw [herr]
      exact fun hok => absurd hy (byteLen_ne_zero_of_isNext hok.data_ne_nil hnext)
    · obtain ⟨c', hc', hcur', hend', hpos'⟩ := setCurrent_spec c hy
      refine Ensures.bind_ok hc' ⟨hend', hpos', y, _, hcur', hvalid3, ⟨hnext.le_pad, ?_, ?_,
        fun hf hm => hwalk ((walk_callTree_filter hf).mpr (Or.inl hm)),
        leafAt_filterBelow hnext.le_pad hy hnext.leafAt_eq⟩, fun htree habove => hwalk ?_,
        fun hok => ⟨hylen hok.byteLen_le, ?_⟩⟩
      · intro s hs hlt
        refine hhidden s (eq_skip_of_ne fun henum => ?_)
        exact absurd (hnext.pad_le s hs henum) (not_le_of_gt hlt)
      · intro s hs
        have hbelow := (walk_insertAll_eq_iff _ _ _ _).mp hs
        rw [exists_edgeCubes_matches_iff, flipsBit_true_iff] at hbelow
        obtain hlt | hs := hbelow
        · exact Or.inr hlt
        · exact Or.inl (hhidden s hs)
      · by_cases hf : f.data = []
        · rw [callTree, if_pos hf]
          exact habove1 htree _ habove
        · exact (walk_callTree_filter hf).mpr (Or.inr (habove1 htree _ habove))
      · exact height_callTree_le hok.byteLen_le (hheight2 hok)

end InstructionCounter

end LibLisa
