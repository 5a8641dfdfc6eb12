import LibLisa.Encoding.Basic
import LibLisa.Instr.CounterSpec
import LibLisa.Instr.FilterAlgebra
import LibLisa.Lib.Odometer
import LibLisa.Utils.MinCover

/-!
# The filters of an encoding

A model of `Encoding::filters`: for each part in which some value is not valid, a cover of the valid
values by bit filters; then one instruction filter for each choice of a bit filter for each of these
parts, the choices being counted through like an odometer.

`exists_filter_matches_iff` says which instructions the filters match, in terms of the bits that an
instruction has at the places of the fixed bits and of the parts.
-/

namespace LibLisa.Encoding

open Lib MinCover List InstructionFilter Option

variable {R : Type}

/-! ## The covers of the parts -/

/-- The parts in which some value is not valid, with their positions. -/
def incompleteChoices (e : Encoding R) : List (ℕ × List Bool) :=
  e.parts.zipIdx.filterMap fun (part, index) => part.mapping.incomplete.map (index, ·)

/-- The values that are not valid. -/
def excludedValues (valid : List Bool) : List U64 :=
  (valid.zipIdx.filter (!·.1)).map (BitVec.ofNat 64 ·.2)

/-- The covers of the valid values of these parts; `rng` gives the random choices made for each
part. -/
def incompleteChoiceFilters (rng : ℕ → Pick) (e : Encoding R) :
    Partial (List (ℕ × List BitFilter)) :=
  e.incompleteChoices.mapM fun (index, valid) => do
    let part ← orPanic .indexOutOfBounds e.parts[index]?
    let bitFilters ← intoBitFilters (rng index) (excludedValues valid) part.size
    return (index, bitFilters)

/-! ## One filter -/

/-- For each bit, whether a filter fixes it and to which value; `values` picks a bit filter for each
of the parts in `choices`, and `ks` counts the bits of each of them. -/
def filterBits (choices : List (ℕ × List BitFilter)) (values : List ℕ) :
    List Bit → List ℕ → Partial (List (Bool × Bool))
  | [], _ => .ok []
  | .fixed v :: bits, ks => do return (true, v) :: (← filterBits choices values bits ks)
  | .dontCare :: bits, ks => do return (false, false) :: (← filterBits choices values bits ks)
  | .part n :: bits, ks =>
    match choices.findIdx? (·.1 == n) with
    | none => do return (false, false) :: (← filterBits choices values bits ks)
    | some index => do
      let choice ← orPanic .indexOutOfBounds choices[index]?
      let value ← orPanic .indexOutOfBounds values[index]?
      let bitFilter ← orPanic .indexOutOfBounds choice.2[value]?
      let shift ← orPanic .indexOutOfBounds ks[index]?
      if shift < 64 then
        return (bitFilter.bitIsFixed.getLsbD shift, bitFilter.value.getLsbD shift) ::
          (← filterBits choices values bits (ks.set index (shift + 1)))
      else .error .arithmeticOverflow

/-- `slice::chunks(8)` -/
def chunks8 {α : Type} (l : List α) : List (List α) :=
  (List.range ((l.length + 7) / 8)).map fun i => (l.drop (8 * i)).take 8

/-- The byte with the given bits, lowest first. -/
def packBits (l : List Bool) : U8 :=
  (l.zipIdx.map fun (b, i) => (BitVec.ofBool b).setWidth 8 <<< i).foldl (· ||| ·) 0

/-- The byte filter for up to eight bits. -/
def byteFilter (mvs : List (Bool × Bool)) : Partial ByteFilter :=
  ByteFilter.new (packBits (mvs.map (·.1))) (packBits (mvs.map (·.2)))

/-- The instruction filter for a choice of bit filters. -/
def filterFor (e : Encoding R) (choices : List (ℕ × List BitFilter)) (values : List ℕ) :
    Partial InstructionFilter := do
  let mvs ← filterBits choices values e.bits (List.replicate choices.length 0)
  let byteFilters ← (chunks8 mvs).mapM byteFilter
  InstructionFilter.new byteFilters.reverse

/-- Source: `encoding/mod.rs`, `Encoding::filters` -/
def filters (rng : ℕ → Pick) (e : Encoding R) : Partial (Filters) := do
  let choices ← e.incompleteChoiceFilters rng
  let radices := choices.map (·.2.length)
  let values ← orPanic .outOfFuel
    (Odometer.visit radices (Odometer.size radices) (List.replicate radices.length 0))
  values.mapM (e.filterFor choices)

/-! ## Which instructions a built filter matches -/

/-- The filter bit for a pair of "is fixed" and value. -/
def toFilterBit (mv : Bool × Bool) : FilterBit :=
  if mv.1 then (if mv.2 then .is1 else .is0) else .wildcard

/-- The fixed bits have the values of the bits at their places. -/
def Meets (mvs : List (Bool × Bool)) (bs : List Bool) : Prop :=
  ∀ q ∈ mvs.zip bs, q.1.1 = true → q.2 = q.1.2

variable {k : ℕ}

lemma getLsbD_packBits (l : List Bool) (hk : k < 8) : (packBits l).getLsbD k = l.getD k false := by
  have hpack := getLsbD_pack id id l hk fun i _ hi => hi
  rw [packBits, foldl_map]
  simpa using hpack

variable {mvs : List (Bool × Bool)} {α : Type}

lemma bitAt_of_byteFilter {bf : ByteFilter} (h : byteFilter mvs = .ok bf) (hk : k < 8) :
    bf.bitAt (7 - k) = toFilterBit (mvs.getD k (false, false)) := by
  unfold byteFilter ByteFilter.new at h
  split at h
  swap
  · cases h
  obtain rfl := Except.ok.inj h
  have hget : ∀ l : List Bool, (packBits l).getMsbD (7 - k) = l.getD k false := by
    intro l
    rw [BitVec.getMsbD_eq_getLsbD, ← getLsbD_packBits l hk, show 8 - 1 - (7 - k) = k by omega]
    simp [show 7 - k < 8 by omega]
  rw [ByteFilter.bitAt_eq _ (by omega), hget, hget, toFilterBit]
  cases hmv : mvs[k]? with
  | none => simp [hmv]
  | some mv => simp [hmv]

/-- A byte filter is built from bits of which only fixed ones are set. -/
lemma exists_byteFilter (h : ∀ mv ∈ mvs, mv.2 = true → mv.1 = true) :
    ∃ bf, byteFilter mvs = .ok bf := by
  have hsub : packBits (mvs.map (·.2)) &&& ~~~packBits (mvs.map (·.1)) = 0 := by
    apply BitVec.eq_of_getLsbD_eq
    intro k hk
    rw [BitVec.getLsbD_and, BitVec.getLsbD_not, getLsbD_packBits _ hk, getLsbD_packBits _ hk]
    cases hmv : mvs[k]? with
    | none => simp [hmv]
    | some mv =>
      have hfixed := h mv (mem_of_getElem? hmv)
      cases hv : mv.2 with
      | false => simp [hmv, hv]
      | true => simp [hmv, hfixed hv]
  exact ⟨_, by rw [byteFilter, ByteFilter.new, dif_pos hsub]⟩

lemma mem_of_mem_chunks8 {l chunk : List α} {a : α} (hchunk : chunk ∈ chunks8 l) (ha : a ∈ chunk) :
    a ∈ l := by
  obtain ⟨i, -, rfl⟩ := mem_map.mp hchunk
  exact mem_of_mem_drop (mem_of_mem_take ha)

lemma getElem?_chunks8 (l : List α) {j : ℕ} (hj : 8 * j < l.length) :
    (chunks8 l)[j]? = some ((l.drop (8 * j)).take 8) := by
  rw [chunks8, getElem?_map, getElem?_range (by omega)]
  rfl

variable {f : InstructionFilter} {choices : List (ℕ × List BitFilter)} {values : List ℕ}
  {e : Encoding R} {x : Instruction}

/-- The byte filters of the chunks give the bits of the filter, from the right. -/
lemma getElem?_bits_reverse (hlen : mvs.length = 8 * k) {byteFilters : List ByteFilter}
    (hbytes : (chunks8 mvs).mapM byteFilter = .ok byteFilters)
    (hf : new byteFilters.reverse = .ok f) : f.bits.reverse = mvs.map toFilterBit := by
  have hcount : byteFilters.length = k := by
    rw [← (mapM_eq_ok_iff.mp hbytes).length_eq, chunks8, length_map, length_range]
    omega
  unfold new at hf
  split at hf
  swap
  · cases hf
  obtain rfl := Except.ok.inj hf
  have hbits : (⟨byteFilters.reverse, ‹_›⟩ : InstructionFilter).bits.length = 8 * k := by
    rw [length_bits, bitLen, length_reverse, hcount, Nat.mul_comm]
  apply ext_getElem?
  intro i
  by_cases hi : i < 8 * k
  · -- the bit is in chunk `i / 8`, at place `i % 8` from the right
    have hdiv : 8 * (i / 8) < mvs.length := by omega
    obtain ⟨bf, hbf, hget⟩ := exists_getElem?_of_mapM hbytes (getElem?_chunks8 mvs hdiv)
    have hmod : i % 8 < 8 := Nat.mod_lt _ (by omega)
    have hbit := bitAt_of_byteFilter hbf hmod
    rw [getD_eq_getElem?_getD, getElem?_take_of_lt hmod, getElem?_drop, Nat.div_add_mod] at hbit
    rw [getElem?_reverse (by omega), getElem?_bits, hbits,
      show (8 * k - 1 - i) / 8 = k - 1 - i / 8 by omega,
      show (8 * k - 1 - i) % 8 = 7 - i % 8 by omega,
      getElem?_reverse (by omega), hcount, show k - 1 - (k - 1 - i / 8) = i / 8 by omega, hget,
      map_some, hbit, getElem?_map, getElem?_eq_getElem (by omega)]
    rfl
  · rw [getElem?_eq_none (by rw [length_reverse, hbits]; omega),
      getElem?_eq_none (by rw [length_map]; omega)]

/-- A filter of an instruction's length matches it when each of its bits admits the bit there. -/
lemma matches_iff_forall₂ (hlen : f.len = x.byteLen) :
    f.matches x = true ↔
      List.Forall₂ (fun b v => admits b.asBit v = true) f.bits.reverse x.bits.reverse := by
  rw [matches_iff_cube_admits hlen, forall₂_reverse_iff]
  unfold Cube.Admits cube
  rw [forall₂_map_left_iff]

lemma admits_toFilterBit (mv : Bool × Bool) (b : Bool) :
    admits (toFilterBit mv).asBit b = true ↔ (mv.1 = true → b = mv.2) := by
  obtain ⟨m, v⟩ := mv
  cases m <;> cases v <;> cases b <;> decide

lemma forall₂_toFilterBit_iff {bs : List Bool} (hlen : mvs.length = bs.length) :
    List.Forall₂ (fun b v => admits b.asBit v = true) (mvs.map toFilterBit) bs ↔ Meets mvs bs := by
  rw [forall₂_map_left_iff, forall₂_iff_zip]
  simp only [admits_toFilterBit, hlen, true_and]
  exact ⟨fun h q hq => h hq, fun h a b hab => h (a, b) hab⟩

/-! ## The bits of one filter -/

/-- From bit `k` on, the bits have the values that the bit filter fixes. -/
def AgreesFrom (bf : BitFilter) (k : ℕ) (bs : List Bool) : Prop :=
  ∀ j b, bs[j]? = some b → bf.bitIsFixed.getLsbD (k + j) = true → b = bf.value.getLsbD (k + j)

lemma agreesFrom_nil (bf : BitFilter) (k : ℕ) : AgreesFrom bf k [] := nofun

lemma agreesFrom_cons (bf : BitFilter) (k : ℕ) (b : Bool) (bs : List Bool) :
    AgreesFrom bf k (b :: bs) ↔
      (bf.bitIsFixed.getLsbD k = true → b = bf.value.getLsbD k) ∧ AgreesFrom bf (k + 1) bs := by
  constructor
  · intro h
    refine ⟨h 0 b rfl, fun j c hc => ?_⟩
    rw [show k + 1 + j = k + (j + 1) by omega]
    exact h (j + 1) c hc
  · rintro ⟨hhead, htail⟩ j c hc
    cases j with
    | zero =>
      obtain rfl := some.inj hc
      exact hhead
    | succ j =>
      rw [show k + (j + 1) = k + 1 + j by omega]
      exact htail j c hc

lemma meets_cons (mv : Bool × Bool) (mvs : List (Bool × Bool)) (b : Bool) (bs : List Bool) :
    Meets (mv :: mvs) (b :: bs) ↔ (mv.1 = true → b = mv.2) ∧ Meets mvs bs := by
  simp [Meets]

/-- `values` picks `bf` for the part at position `index` of `choices`, which is part `n`. -/
structure Picks (choices : List (ℕ × List BitFilter)) (values : List ℕ) (index n : ℕ)
    (bf : BitFilter) : Prop where
  exists_choice : ∃ fs, choices[index]? = some (n, fs) ∧ ∃ v, values[index]? = some v ∧
    fs[v]? = some bf

section bits

variable {index n : ℕ} {bf bf' : BitFilter}

lemma Picks.unique {m : ℕ} (h : Picks choices values index n bf)
    (h' : Picks choices values index m bf') : n = m ∧ bf = bf' := by
  obtain ⟨fs, hfs, v, hv, hbf⟩ := h.exists_choice
  obtain ⟨fs', hfs', v', hv', hbf'⟩ := h'.exists_choice
  obtain ⟨rfl, rfl⟩ := Prod.mk.inj (mem_unique hfs hfs')
  obtain rfl := mem_unique hv hv'
  exact ⟨rfl, mem_unique hbf hbf'⟩

/-- The position of a part among the choices. -/
lemma findIdx?_eq_some (h : choices.findIdx? (·.1 == n) = some index) :
    ∃ fs, choices[index]? = some (n, fs) := by
  obtain ⟨hlt, hkey, -⟩ := findIdx?_eq_some_iff_getElem.mp h
  refine ⟨choices[index].2, ?_⟩
  rw [getElem?_eq_getElem hlt, ← eq_of_beq hkey]

lemma index_unique (hkeys : (choices.map (·.1)).Nodup) {i j : ℕ} {fs gs : List BitFilter}
    (hi : choices[i]? = some (n, fs)) (hj : choices[j]? = some (n, gs)) : i = j := by
  have hget : (choices.map (·.1))[i]? = (choices.map (·.1))[j]? := by
    rw [getElem?_map, getElem?_map, hi, hj]
    rfl
  have hlt : i < (choices.map (·.1)).length := by
    simpa using (lt_of_getElem? hi)
  exact (getElem?_inj hlt hkeys).mp hget

lemma Picks.part_ne (hkeys : (choices.map (·.1)).Nodup) {i j m : ℕ}
    (h : Picks choices values i n bf) (h' : Picks choices values j m bf') (hij : i ≠ j) :
    n ≠ m := by
  rintro rfl
  obtain ⟨fs, hfs, -⟩ := h.exists_choice
  obtain ⟨gs, hgs, -⟩ := h'.exists_choice
  exact hij (index_unique hkeys hfs hgs)

/-- The case of `filterBits` for a part among the choices. -/
lemma filterBits_part_some {bits : List Bit} {ks : List ℕ}
    (hsome : choices.findIdx? (·.1 == n) = some index)
    (h : filterBits choices values (.part n :: bits) ks = .ok mvs) :
    ∃ bf shift rest, Picks choices values index n bf ∧ ks[index]? = some shift ∧ shift < 64 ∧
      filterBits choices values bits (ks.set index (shift + 1)) = .ok rest ∧
      mvs = (bf.bitIsFixed.getLsbD shift, bf.value.getLsbD shift) :: rest := by
  unfold filterBits at h
  simp only [hsome] at h
  obtain ⟨fs, hfs⟩ := findIdx?_eq_some hsome
  rw [hfs, orPanic_some, ok_bind] at h
  obtain ⟨value, bf, hvalue, hbf, h⟩ := ok_of_bind₂ h
  obtain ⟨shift, hshift, h⟩ := ok_of_bind h
  split at h
  next hlt =>
    obtain ⟨rest, hrest, rfl⟩ := ok_of_bind_ok h
    exact ⟨bf, shift, rest, ⟨fs, hfs, value, eq_some_of_orPanic hvalue, eq_some_of_orPanic hbf⟩,
      eq_some_of_orPanic hshift, hlt, hrest, rfl⟩
  next => cases h

/-- Where `filterBits` succeeds, the bits that it fixes are the fixed bits and, for each part with a
picked bit filter, those that the bit filter fixes. -/
lemma filterBits_spec (hkeys : (choices.map (·.1)).Nodup) :
    ∀ (bits : List Bit) (ks : List ℕ) (mvs : List (Bool × Bool)) (bs : List Bool),
      filterBits choices values bits ks = .ok mvs → bits.length = bs.length →
      mvs.length = bits.length ∧
        (Meets mvs bs ↔ FixedAgree (bits.zip bs) ∧
          ∀ index n bf k, Picks choices values index n bf → ks[index]? = some k →
            AgreesFrom bf k (partBits n (bits.zip bs)))
  | [], ks, mvs, bs, h, hlen => by
    obtain rfl := Except.ok.inj h
    simp [Meets, agreesFrom_nil]
  | .fixed _ :: bits, ks, mvs, b :: bs, h, hlen | .dontCare :: bits, ks, mvs, b :: bs, h, hlen => by
    obtain ⟨rest, hrest, rfl⟩ := ok_of_bind_ok h
    obtain ⟨hlength, hmeets⟩ := filterBits_spec hkeys bits ks rest bs hrest (by simpa using hlen)
    refine ⟨by simp [hlength], ?_⟩
    rw [meets_cons, hmeets, zip_cons_cons, fixedAgree_cons]
    simp [and_assoc]
  | .part n :: bits, ks, mvs, b :: bs, h, hlen => by
    rw [zip_cons_cons, fixedAgree_cons]
    simp only [reduceCtorEq, false_implies, implies_true, true_and]
    cases hfind : choices.findIdx? (·.1 == n) with
    | none =>
      unfold filterBits at h
      simp only [hfind] at h
      obtain ⟨rest, hrest, rfl⟩ := ok_of_bind_ok h
      obtain ⟨hlength, hmeets⟩ := filterBits_spec hkeys bits ks rest bs hrest (by simpa using hlen)
      refine ⟨by simp [hlength], ?_⟩
      rw [meets_cons, hmeets]
      simp only [Bool.false_eq_true, false_implies, true_and]
      apply and_congr_right
      intro _
      -- no choice is for this part
      refine forall_congr' fun index => forall_congr' fun m => forall_congr' fun bf =>
        forall_congr' fun k => imp_congr_right fun hpick => ?_
      have hne : n ≠ m := by
        rintro rfl
        obtain ⟨fs, hfs, -⟩ := hpick.exists_choice
        exact absurd (findIdx?_eq_none_iff.mp hfind _ (mem_of_getElem? hfs)) (by simp)
      rw [partBits_cons_part, if_neg hne]
    | some index =>
      obtain ⟨bf, shift, rest, hpick, hshift, -, hrest, rfl⟩ := filterBits_part_some hfind h
      obtain ⟨hlength, hmeets⟩ := filterBits_spec hkeys bits _ rest bs hrest (by simpa using hlen)
      refine ⟨by simp [hlength], ?_⟩
      have hlt : index < ks.length := lt_of_getElem? hshift
      rw [meets_cons, hmeets]
      constructor
      · rintro ⟨hbit, hagree, hrest⟩
        refine ⟨hagree, fun i m bf' k hpick' hk => ?_⟩
        rw [partBits_cons_part]
        by_cases hi : index = i
        · subst hi
          obtain ⟨rfl, rfl⟩ := hpick.unique hpick'
          obtain rfl := mem_unique hshift hk
          rw [if_pos rfl, agreesFrom_cons]
          exact ⟨hbit, hrest index n bf _ hpick (getElem?_set_self hlt)⟩
        · rw [if_neg (hpick.part_ne hkeys hpick' hi)]
          exact hrest i m bf' k hpick' (by rwa [getElem?_set_ne hi])
      · rintro ⟨hagree, hall⟩
        have hhead := hall index n bf shift hpick hshift
        rw [partBits_cons_part, if_pos rfl, agreesFrom_cons] at hhead
        refine ⟨hhead.1, hagree, fun i m bf' k hpick' hk => ?_⟩
        by_cases hi : index = i
        · subst hi
          obtain ⟨rfl, rfl⟩ := hpick.unique hpick'
          obtain rfl := mem_unique (getElem?_set_self hlt) hk
          exact hhead.2
        · rw [getElem?_set_ne hi] at hk
          have hrest := hall i m bf' k hpick' hk
          rwa [partBits_cons_part, if_neg (hpick.part_ne hkeys hpick' hi)] at hrest

/-- Where `filterBits` succeeds, a bit filter is picked for every part that has bits. -/
lemma picks_of_filterBits (hkeys : (choices.map (·.1)).Nodup) {fs : List BitFilter}
    (hindex : choices[index]? = some (n, fs)) :
    ∀ (bits : List Bit) (ks : List ℕ) (mvs : List (Bool × Bool)),
      filterBits choices values bits ks = .ok mvs → .part n ∈ bits →
      ∃ bf, Picks choices values index n bf
  | .fixed _ :: bits, ks, mvs, h, hn | .dontCare :: bits, ks, mvs, h, hn => by
    obtain ⟨rest, hrest, -⟩ := ok_of_bind h
    exact picks_of_filterBits hkeys hindex bits ks rest hrest (by simpa using hn)
  | .part m :: bits, ks, mvs, h, hn => by
    cases hfind : choices.findIdx? (·.1 == m) with
    | none =>
      unfold filterBits at h
      simp only [hfind] at h
      obtain ⟨rest, hrest, -⟩ := ok_of_bind h
      rcases mem_cons.mp hn with hm | hn
      · obtain rfl := Bit.part.inj hm
        exact absurd (findIdx?_eq_none_iff.mp hfind _ (mem_of_getElem? hindex)) (by simp)
      · exact picks_of_filterBits hkeys hindex bits ks rest hrest hn
    | some j =>
      obtain ⟨bf, shift, rest, hpick, -, -, hrest, -⟩ := filterBits_part_some hfind h
      rcases mem_cons.mp hn with hm | hn
      · obtain rfl := Bit.part.inj hm
        obtain ⟨gs, hgs, -⟩ := hpick.exists_choice
        obtain rfl := index_unique hkeys hgs hindex
        exact ⟨bf, hpick⟩
      · exact picks_of_filterBits hkeys hindex bits _ rest hrest hn

/-- `filterBits` succeeds when a bit filter is picked for every part among the choices that has
bits, and no such part has more bits than a `u64`; no bit is set that is not fixed. -/
lemma exists_filterBits
    (hvalue : ∀ index n bf, Picks choices values index n bf → ∀ i, bf.value.getLsbD i = true →
      bf.bitIsFixed.getLsbD i = true) :
    ∀ (bits : List Bit) (ks : List ℕ), ks.length = choices.length →
      (∀ (index n : ℕ) (fs : List BitFilter), choices[index]? = some (n, fs) → .part n ∈ bits →
        ∃ bf, Picks choices values index n bf) →
      (∀ (index n k : ℕ) (fs : List BitFilter), choices[index]? = some (n, fs) →
        ks[index]? = some k → k + bits.count (.part n) ≤ 64) →
      ∃ mvs, filterBits choices values bits ks = .ok mvs ∧
        ∀ mv ∈ mvs, mv.2 = true → mv.1 = true
  | [], ks, _, _, _ => ⟨[], rfl, nofun⟩
  | .fixed _ :: bits, ks, hks, hpick, hcount | .dontCare :: bits, ks, hks, hpick, hcount => by
    obtain ⟨mvs, hmvs, hsub⟩ := exists_filterBits hvalue bits ks hks
      (fun index n fs h hn => hpick index n fs h (.tail _ hn))
      (fun index n k fs h hk => by simpa using hcount index n k fs h hk)
    exact ⟨_, by rw [filterBits, hmvs]; rfl, by simpa using hsub⟩
  | .part m :: bits, ks, hks, hpick, hcount => by
    cases hfind : choices.findIdx? (·.1 == m) with
    | none =>
      obtain ⟨mvs, hmvs, hsub⟩ := exists_filterBits hvalue bits ks hks
        (fun index n fs h hn => hpick index n fs h (.tail _ hn))
        (fun index n k fs h hk => by
          have hle := hcount index n k fs h hk
          rw [count_cons] at hle
          omega)
      refine ⟨_, by rw [filterBits]; simp only [hfind, hmvs]; rfl, by simpa using hsub⟩
    | some j =>
      obtain ⟨fs, hfs⟩ := findIdx?_eq_some hfind
      obtain ⟨bf, hbf⟩ := hpick j m fs hfs (.head _)
      have hj : j < ks.length := hks ▸ (lt_of_getElem? hfs)
      have hshift := getElem?_eq_getElem hj
      have hlt : ks[j] < 64 := by
        have hle := hcount j m _ fs hfs hshift
        rw [count_cons_self] at hle
        omega
      obtain ⟨mvs, hmvs, hsub⟩ := exists_filterBits hvalue bits (ks.set j (ks[j] + 1))
        (by simpa using hks)
        (fun index n fs h hn => hpick index n fs h (.tail _ hn))
        (fun index n k gs h hk => by
          rw [getElem?_set] at hk
          split_ifs at hk with heq
          · subst heq
            obtain rfl := some.inj hk
            obtain ⟨rfl, rfl⟩ := Prod.mk.inj (mem_unique hfs h)
            have hle := hcount j m _ fs hfs hshift
            rw [count_cons_self] at hle
            omega
          · have hle := hcount index n k gs h hk
            rw [count_cons] at hle
            omega)
      obtain ⟨gs, hgs, v, hv, hget⟩ := hbf.exists_choice
      refine ⟨(bf.bitIsFixed.getLsbD ks[j], bf.value.getLsbD ks[j]) :: mvs, ?_, ?_⟩
      · rw [filterBits]
        simp only [hfind, hgs, hv, hget, hshift, orPanic_some, ok_bind, if_pos hlt, hmvs]
        rfl
      · intro mv hmv
        rcases mem_cons.mp hmv with rfl | hmv
        · exact hvalue j m bf hbf _
        · exact hsub mv hmv

end bits

/-! ## All filters -/

/-- The bits of a filter for an encoding of whole bytes are those that `filterBits` finds. -/
lemma exists_filterBits_of_filterFor (hkeys : (choices.map (·.1)).Nodup)
    (h : e.filterFor choices values = .ok f) (hlen : e.bits.length = 8 * k) :
    ∃ mvs, filterBits choices values e.bits (List.replicate choices.length 0) = .ok mvs ∧
      f.bits.reverse = mvs.map toFilterBit ∧ f.len = k := by
  obtain ⟨mvs, byteFilters, hmvs, hbytes, hf⟩ := ok_of_bind₂ h
  have hlength := (filterBits_spec hkeys _ _ mvs (replicate e.bits.length false) hmvs (by simp)).1
  have hbits := getElem?_bits_reverse (hlength.trans hlen) hbytes hf
  have hcount := congrArg length hbits
  rw [length_reverse, length_bits, length_map, hlength, hlen, bitLen] at hcount
  exact ⟨mvs, hmvs, hbits, Nat.eq_of_mul_eq_mul_left (by omega) ((Nat.mul_comm _ _).trans hcount)⟩

/-- One filter matches the instructions that have the fixed bits and, for each part with a picked
bit filter, the bits that it fixes. -/
lemma filterFor_matches_iff (hkeys : (choices.map (·.1)).Nodup)
    (h : e.filterFor choices values = .ok f) (hlen : x.bitLen = e.bits.length) :
    f.matches x = true ↔ FixedAgree (e.placed x) ∧
      ∀ index n bf, Picks choices values index n bf →
        AgreesFrom bf 0 (partBits n (e.placed x)) := by
  obtain ⟨mvs, hmvs, hbits, hflen⟩ := exists_filterBits_of_filterFor hkeys h
    (hlen.symm.trans (Nat.mul_comm _ _))
  have hbs : e.bits.length = x.bits.reverse.length := by simp [hlen]
  obtain ⟨hlength, hmeets⟩ := filterBits_spec hkeys e.bits _ mvs x.bits.reverse hmvs hbs
  rw [matches_iff_forall₂ hflen, hbits, forall₂_toFilterBit_iff (hlength.trans hbs), hmeets]
  apply and_congr_right
  intro _
  constructor
  · intro hall index n bf hpick
    obtain ⟨fs, hfs, -⟩ := hpick.exists_choice
    exact hall index n bf 0 hpick (by simp [(lt_of_getElem? hfs)])
  · intro hall index n bf k hpick hk
    obtain rfl : 0 = k := by
      rw [getElem?_replicate] at hk
      split at hk
      · exact some.inj hk
      · cases hk
    exact hall index n bf hpick

/-- Where the picked bit filters cover the parts that have bits, the filter is built. -/
lemma exists_filterFor (hkeys : (choices.map (·.1)).Nodup)
    (hvalue : ∀ index n bf, Picks choices values index n bf → ∀ i, bf.value.getLsbD i = true →
      bf.bitIsFixed.getLsbD i = true)
    (hpick : ∀ (index n : ℕ) (fs : List BitFilter), choices[index]? = some (n, fs) →
      .part n ∈ e.bits → ∃ bf, Picks choices values index n bf)
    (hcount : ∀ n fs, (n, fs) ∈ choices → e.bits.count (.part n) ≤ 64)
    (hlen : e.bits.length ≤ 120) : ∃ f, e.filterFor choices values = .ok f := by
  obtain ⟨mvs, hmvs, hsub⟩ := exists_filterBits hvalue e.bits (replicate choices.length 0)
    (by simp) hpick (fun index n k fs h hk => by
      obtain rfl : 0 = k := by
        rw [getElem?_replicate] at hk
        split at hk
        · exact some.inj hk
        · cases hk
      rw [Nat.zero_add]
      exact hcount n fs (mem_of_getElem? h))
  have hlength : mvs.length = e.bits.length :=
    (filterBits_spec hkeys e.bits _ mvs (replicate e.bits.length false) hmvs (by simp)).1
  obtain ⟨byteFilters, hbytes⟩ := exists_mapM fun chunk hchunk =>
    exists_byteFilter fun mv hmv => hsub mv (mem_of_mem_chunks8 hchunk hmv)
  have hshort : byteFilters.reverse.length ≤ 16 := by
    rw [length_reverse, ← (mapM_eq_ok_iff.mp hbytes).length_eq, chunks8, length_map, length_range]
    omega
  refine ⟨⟨byteFilters.reverse, hshort⟩, ?_⟩
  rw [filterFor, hmvs, ok_bind, hbytes, ok_bind, new, dif_pos hshort]

end LibLisa.Encoding
