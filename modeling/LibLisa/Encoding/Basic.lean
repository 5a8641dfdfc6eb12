import LibLisa.Encoding.Bitpattern

/-!
# Encodings

An encoding describes a group of instructions: a bit pattern, the parts that its bits make up, and
dataflows with a place for each part. `integrityCheck` is the source's own check of an encoding,
`extractParts` reads the values of the parts off an instruction.

`partBits` and `partValue` are the value of a part without the counters of the source;
`extractParts_eq_ok_iff` says when `extractParts` returns these values, by induction on the bits with
the values and counters so far.
-/

namespace LibLisa

open Lib List Option

/-- Source: `encoding/mod.rs`, `Encoding` -/
structure Encoding (R : Type) where
  bits : List Encoding.Bit
  parts : List (Encoding.Part R)
  dataflows : Encoding.Dataflows R
deriving DecidableEq

namespace Encoding

variable {R : Type}

/-- Source: `encoding/mod.rs`, `Encoding::instr` -/
def instr (e : Encoding R) : Instruction := e.dataflows.addresses.instr

/-! ## The integrity check -/

/-- Source: `encoding/mod.rs`, `IntegrityError` -/
inductive IntegrityError where
  | unknownPartInOutputImm (outputIndex : ℕ)
  | unknownPartInAddrImm (memoryIndex : ℕ)
  | partHasNoValidMapping (partIndex : ℕ)
  | mappingDoesNotMatchPartSize (partIndex mappingEntries partBits : ℕ)
  | partSizeDoesNotMatchBits (partIndex : ℕ)
deriving DecidableEq, Repr

/-- An immediate value of a part that does not exist. -/
def refersToUnknownPart (e : Encoding R) : Source R → Bool
  | .imm n => decide (e.parts.length ≤ n)
  | _ => false

/-- The check of a mapping with one entry for each value of the part; `1 << part.size` overflows
from 64 bits on. -/
def checkEntries (partIndex size : ℕ) (valid : List Bool) : Partial (Except IntegrityError Unit) :=
  if 64 ≤ size then .error .arithmeticOverflow
  else if valid.length ≠ 2 ^ size then
    .ok (.error (.mappingDoesNotMatchPartSize partIndex valid.length size))
  else if valid.all (!·) then .ok (.error (.partHasNoValidMapping partIndex))
  else .ok (.ok ())

/-- The check of one part's mapping. -/
def checkMapping (partIndex size : ℕ) : PartMapping R → Partial (Except IntegrityError Unit)
  | .imm (some (.mapping mapping)) _ _ =>
    if mapping.all (!·.isValid) then .ok (.error (.partHasNoValidMapping partIndex))
    else .ok (.ok ())
  | .imm (some (.bitOrder bitOrder)) _ _ =>
    if bitOrder.length ≠ size then
      .ok (.error (.mappingDoesNotMatchPartSize partIndex bitOrder.length size))
    else .ok (.ok ())
  | .imm none _ _ => .ok (.ok ())
  | .memoryComputation mapping _ => checkEntries partIndex size (mapping.map Option.isSome)
  | .register mapping _ => checkEntries partIndex size (mapping.map Option.isSome)

/-- The checks of the parts, in order, up to the first error. -/
def checkParts (bits : List Bit) : List (Part R × ℕ) → Partial (Except IntegrityError Unit)
  | [] => .ok (.ok ())
  | (part, partIndex) :: parts =>
    if part.size ≠ bits.countP (· == .part partIndex) then
      .ok (.error (.partSizeDoesNotMatchBits partIndex))
    else do
      match ← checkMapping partIndex part.size part.mapping with
      | .ok () => checkParts bits parts
      | .error err => .ok (.error err)

/-- Source: `encoding/mod.rs`, `Encoding::integrity_check` -/
def integrityCheck (e : Encoding R) : Partial (Except IntegrityError Unit) :=
  match e.dataflows.outputs.findIdx? fun flow => flow.inputs.any e.refersToUnknownPart with
  | some index => .ok (.error (.unknownPartInOutputImm index))
  | none =>
    match e.dataflows.addresses.memory.findIdx? fun access =>
        access.inputs.any e.refersToUnknownPart with
    | some index => .ok (.error (.unknownPartInAddrImm index))
    | none => checkParts e.bits e.parts.zipIdx

/-! ## The values of the parts -/

/-- One bit of the loop in `extract_parts`; the state holds the values read so far and the number
of bits read of each part. -/
def extractBit (instr : Instruction) (state : List U64 × List ℕ) :
    Bit × ℕ → Partial (List U64 × List ℕ)
  | (.part n, bitIndex) => do
    let value ← orPanic .indexOutOfBounds state.1[n]?
    let count ← orPanic .indexOutOfBounds state.2[n]?
    let bit ← instr.nthBitFromRight bitIndex
    let shifted ← shiftLeftU64 ((BitVec.ofBool bit).setWidth 64) count
    return (state.1.set n (value ||| shifted), state.2.set n (count + 1))
  | (.fixed v, bitIndex) => do
    let bit ← instr.nthBitFromRight bitIndex
    if bit = v then return state else .error .assertionFailed
  | (.dontCare, _) => .ok state

/-- Source: `encoding/mod.rs`, `Encoding::extract_parts` -/
def extractParts (e : Encoding R) (instr : Instruction) : Partial (List U64) :=
  if instr.bitLen ≠ e.bits.length then .error .assertionFailed
  else do
    let state ← e.bits.zipIdx.foldlM (extractBit instr)
      (List.replicate e.parts.length 0, List.replicate e.parts.length 0)
    return state.1

/-! ## The bits of an instruction under the bits of an encoding -/

/-- Each bit of the encoding with the bit of the instruction at its place, from the right. -/
def placed (e : Encoding R) (instr : Instruction) : List (Bit × Bool) :=
  e.bits.zip instr.bits.reverse

/-- Every fixed bit has the value of the instruction's bit. -/
def FixedAgree (l : List (Bit × Bool)) : Prop := ∀ p ∈ l, ∀ v, p.1 = .fixed v → p.2 = v

/-- The instruction's bits at the places of a part, lowest bit first. -/
def partBits (n : ℕ) (l : List (Bit × Bool)) : List Bool :=
  l.filterMap fun p => if p.1 = .part n then some p.2 else none

/-- The value of a part. -/
def partValue (n : ℕ) (l : List (Bit × Bool)) : U64 :=
  (BitVec.ofBoolListLE (partBits n l)).setWidth 64

@[simp] lemma partBits_nil (n : ℕ) : partBits n [] = [] := rfl

lemma partBits_cons_part (n m : ℕ) (b : Bool) (l : List (Bit × Bool)) :
    partBits n ((.part m, b) :: l) = if m = n then b :: partBits n l else partBits n l := by
  unfold partBits
  by_cases h : m = n <;> simp [h]

@[simp] lemma partBits_cons_fixed (n : ℕ) (v b : Bool) (l : List (Bit × Bool)) :
    partBits n ((.fixed v, b) :: l) = partBits n l := by
  simp [partBits]

@[simp] lemma partBits_cons_dontCare (n : ℕ) (b : Bool) (l : List (Bit × Bool)) :
    partBits n ((.dontCare, b) :: l) = partBits n l := by
  simp [partBits]

lemma getLsbD_partValue (n : ℕ) (l : List (Bit × Bool)) {k : ℕ} (hk : k < 64) :
    (partValue n l).getLsbD k = (partBits n l).getD k false := by
  simp [partValue, hk]

@[simp] lemma fixedAgree_nil : FixedAgree [] := nofun

lemma fixedAgree_cons (p : Bit × Bool) (l : List (Bit × Bool)) :
    FixedAgree (p :: l) ↔ (∀ v, p.1 = .fixed v → p.2 = v) ∧ FixedAgree l := by
  simp [FixedAgree]

/-! ## What `extractParts` returns -/

/-- The step of `extractBit` for the bit of the instruction itself. -/
def readBit (state : List U64 × List ℕ) :
    Bit × Bool → Partial (List U64 × List ℕ)
  | (.part n, bit) => do
    let value ← orPanic .indexOutOfBounds state.1[n]?
    let count ← orPanic .indexOutOfBounds state.2[n]?
    let shifted ← shiftLeftU64 ((BitVec.ofBool bit).setWidth 64) count
    return (state.1.set n (value ||| shifted), state.2.set n (count + 1))
  | (.fixed v, bit) => if bit = v then .ok state else .error .assertionFailed
  | (.dontCare, _) => .ok state

/-- The loop over the bits and their positions is a loop over the placed bits. -/
lemma foldlM_extractBit (x : Instruction) :
    ∀ (bits : List Bit) (k : ℕ) (state : List U64 × List ℕ),
      bits.length + k = x.bitLen →
      (bits.zipIdx k).foldlM (extractBit x) state =
        (bits.zip (x.bits.reverse.drop k)).foldlM readBit state
  | [], k, state, _ => rfl
  | bit :: bits, k, state, hlen => by
    have hk : k < x.bits.reverse.length := by
      rw [length_reverse, Instruction.length_bits]
      simp only [length_cons] at hlen
      omega
    have hstep : extractBit x state (bit, k) = readBit state (bit, x.bits.reverse[k]) := by
      have hbit := Instruction.nthBitFromRight_eq hk
      cases bit with
      | part n =>
        simp only [extractBit, readBit, hbit, ok_bind]
      | fixed v =>
        simp only [extractBit, hbit]
        rfl
      | dontCare => rfl
    have hrest : ∀ s, (bits.zipIdx (k + 1)).foldlM (extractBit x) s =
        (bits.zip (x.bits.reverse.drop (k + 1))).foldlM readBit s := by
      intro s
      apply foldlM_extractBit x bits (k + 1) s
      simp only [length_cons] at hlen
      omega
    rw [zipIdx_cons, drop_eq_getElem_cons hk, foldlM_cons, hstep]
    exact bind_congr hrest

/-- The parts exist, and with the `counts` bits that have been read none of them has more bits than
a `u64`. -/
structure PartsFit (counts : List ℕ) (l : List (Bit × Bool)) : Prop where
  exists_part : ∀ p ∈ l, ∀ n, p.1 = .part n → n < counts.length
  length_le : ∀ n count, counts[n]? = some count → count + (partBits n l).length ≤ 64

variable {count : ℕ} {l : List (Bit × Bool)} {counts : List ℕ} {values : List U64}
  {b : Bool}

lemma partsFit_cons_part {n : ℕ} (hcount : counts[n]? = some count) :
    PartsFit counts ((.part n, b) :: l) ↔ PartsFit (counts.set n (count + 1)) l := by
  have hn : n < counts.length := lt_of_getElem? hcount
  have hget : ∀ m, (counts.set n (count + 1))[m]? =
      if n = m then some (count + 1) else counts[m]? := by
    intro m
    rw [getElem?_set]
    split_ifs <;> rfl
  constructor
  · rintro ⟨hexists, hle⟩
    constructor
    · intro p hp m hm
      rw [length_set]
      exact hexists p (.tail _ hp) m hm
    · intro m c hc
      rw [hget] at hc
      split_ifs at hc with heq
      · subst heq
        obtain rfl := some.inj hc
        have hlen := hle n count hcount
        rw [partBits_cons_part, if_pos rfl, length_cons] at hlen
        omega
      · have hlen := hle m c hc
        rwa [partBits_cons_part, if_neg heq] at hlen
  · rintro ⟨hexists, hle⟩
    constructor
    · intro p hp m hm
      rcases mem_cons.mp hp with rfl | hp
      · obtain rfl := Bit.part.inj hm
        exact hn
      · have hlt := hexists p hp m hm
        rwa [length_set] at hlt
    · intro m c hc
      have hlen := hle m
      rw [hget] at hlen
      rw [partBits_cons_part]
      split_ifs at hlen ⊢ with heq
      · subst heq
        obtain rfl := mem_unique hcount hc
        rw [length_cons]
        have hstep := hlen _ rfl
        omega
      · exact hlen c hc

lemma partsFit_cons_of_ne {p : Bit × Bool} (hp : ∀ n, p.1 ≠ .part n) :
    PartsFit counts (p :: l) ↔ PartsFit counts l := by
  have hbits : ∀ n, partBits n (p :: l) = partBits n l := fun n => by simp [partBits, hp n]
  constructor
  · rintro ⟨hexists, hle⟩
    exact ⟨fun q hq => hexists q (.tail _ hq), fun n c hc => hbits n ▸ hle n c hc⟩
  · rintro ⟨hexists, hle⟩
    refine ⟨fun q hq n hn => ?_, fun n c hc => (hbits n).symm ▸ hle n c hc⟩
    rcases mem_cons.mp hq with rfl | hq
    · exact absurd hn (hp n)
    · exact hexists q hq n hn

/-- What a loop over placed bits adds to the values of the parts. -/
structure Reads (state : List U64 × List ℕ) (l : List (Bit × Bool)) (values : List U64) : Prop where
  length_eq : values.length = state.1.length
  bits_eq : ∀ n value count value', state.1[n]? = some value → state.2[n]? = some count →
    values[n]? = some value' → ∀ k < 64, value'.getLsbD k =
      (value.getLsbD k || decide (count ≤ k) && (partBits n l).getD (k - count) false)

/-- One bit of a part, then the rest. -/
lemma Reads.cons_part {n : ℕ} {value : U64}
    {values' : List U64} (hvalue : values[n]? = some value)
    (hcount : counts[n]? = some count)
    (h : Reads (values.set n (value ||| (BitVec.ofBool b).setWidth 64 <<< count),
      counts.set n (count + 1)) l values') :
    Reads (values, counts) ((.part n, b) :: l) values' := by
  constructor
  · rw [h.length_eq, length_set]
  · intro m v c v' hv hc hv' k hk
    have hm := h.bits_eq m
    have hlen : n < values.length := lt_of_getElem? hvalue
    have hlenc : n < counts.length := lt_of_getElem? hcount
    rw [partBits_cons_part]
    by_cases hnm : n = m
    · subst hnm
      obtain rfl := mem_unique hvalue hv
      obtain rfl := mem_unique hcount hc
      rw [hm _ _ _ (getElem?_set_self hlen) (getElem?_set_self hlenc) hv' k hk, BitVec.getLsbD_or,
        getLsbD_ofBool_shiftLeft b hk]
      -- the new bit is at `count`, the later ones are above it
      rcases Nat.lt_trichotomy k count with hlt | rfl | hgt
      · simp [show ¬ k = count by omega, show ¬ count + 1 ≤ k by omega, show ¬ count ≤ k by omega]
      · simp
      · obtain ⟨j, rfl⟩ : ∃ j, k = count + 1 + j := ⟨k - (count + 1), by omega⟩
        simp [show ¬ count + 1 + j = count by omega, show count ≤ count + 1 + j by omega,
          show count + 1 + j - count = j + 1 by omega]
    · rw [if_neg hnm]
      exact hm v c v' (by rwa [getElem?_set_ne hnm]) (by rwa [getElem?_set_ne hnm]) hv' k hk

/-- The loop succeeds when the fixed bits agree and the parts fit, and reads the bits of each
part. -/
lemma exists_foldlM_readBit :
    ∀ (l : List (Bit × Bool)) (values : List U64) (counts : List ℕ),
      values.length = counts.length → FixedAgree l → PartsFit counts l →
      ∃ state', l.foldlM readBit (values, counts) = .ok state' ∧ Reads (values, counts) l state'.1
  | [], values, counts, _, _, _ => by
    refine ⟨_, rfl, rfl, ?_⟩
    intro n value count value' hv hc hv' k _
    obtain rfl := mem_unique hv hv'
    simp
  | (.part n, b) :: l, values, counts, hlen, hagree, hfit => by
    have hn : n < counts.length := hfit.exists_part _ (.head _) n rfl
    have hcount := getElem?_eq_getElem hn
    have hvalue := getElem?_eq_getElem (hlen ▸ hn)
    have hlt : counts[n] < 64 := by
      have hle := hfit.length_le n _ hcount
      rw [partBits_cons_part, if_pos rfl, length_cons] at hle
      omega
    obtain ⟨state', hstate', hreads⟩ := exists_foldlM_readBit l
      (values.set n (values[n] ||| (BitVec.ofBool b).setWidth 64 <<< counts[n]))
      (counts.set n (counts[n] + 1)) (by simpa using hlen) ((fixedAgree_cons _ _).mp hagree).2
      ((partsFit_cons_part hcount).mp hfit)
    refine ⟨state', ?_, hreads.cons_part hvalue hcount⟩
    rw [foldlM_cons, readBit]
    simp only [hcount, hvalue, orPanic_some, ok_bind, shiftLeftU64, if_pos hlt]
    exact hstate'
  | (.fixed v, b) :: l, values, counts, hlen, hagree, hfit => by
    obtain ⟨hb, hagree⟩ := (fixedAgree_cons _ _).mp hagree
    obtain ⟨state', hstate', hreads⟩ := exists_foldlM_readBit l values counts hlen hagree
      ((partsFit_cons_of_ne (by simp)).mp hfit)
    refine ⟨state', ?_, hreads.length_eq, by simpa using hreads.bits_eq⟩
    rw [foldlM_cons, readBit, if_pos (hb v rfl), ok_bind, hstate']
  | (.dontCare, b) :: l, values, counts, hlen, hagree, hfit => by
    obtain ⟨state', hstate', hreads⟩ := exists_foldlM_readBit l values counts hlen
      ((fixedAgree_cons _ _).mp hagree).2 ((partsFit_cons_of_ne (by simp)).mp hfit)
    refine ⟨state', ?_, hreads.length_eq, by simpa using hreads.bits_eq⟩
    rw [foldlM_cons, readBit, ok_bind, hstate']

/-- From zeros the loop reads the value of each part. -/
lemma Reads.eq_partValues {numParts : ℕ}
    (h : Reads (replicate numParts 0, replicate numParts 0) l values) :
    values = (range numParts).map fun n => partValue n l := by
  have hlen : values.length = numParts := by simpa using h.length_eq
  apply ext_getElem (by simpa using hlen)
  intro n hn hn'
  have hlt : n < numParts := hlen ▸ hn
  rw [getElem_map, getElem_range]
  apply BitVec.eq_of_getLsbD_eq
  intro k hk
  have hbits := h.bits_eq n 0 0 values[n] (by simp [hlt]) (by simp [hlt])
    (getElem?_eq_getElem hn) k hk
  rw [hbits, getLsbD_partValue n l hk]
  simp

/-- A loop that succeeds has found the fixed bits to agree and the parts to fit. -/
lemma fit_of_foldlM_readBit :
    ∀ (l : List (Bit × Bool)) (values : List U64) (counts : List ℕ)
      (state' : List U64 × List ℕ), (∀ c ∈ counts, c ≤ 64) →
      l.foldlM readBit (values, counts) = .ok state' → FixedAgree l ∧ PartsFit counts l
  | [], values, counts, state', hle, _ =>
    ⟨fixedAgree_nil, nofun, fun n c hc => hle c (mem_of_getElem? hc)⟩
  | (.part n, b) :: l, values, counts, state', hle, h => by
    obtain ⟨state, hstate, h⟩ := ok_of_bind h
    obtain ⟨value, count, hvalue, hcount, hstate⟩ := ok_of_bind₂ hstate
    obtain ⟨shifted, hshifted, rfl⟩ := ok_of_bind_ok hstate
    have hget : counts[n]? = some count := eq_some_of_orPanic hcount
    have hlt : count < 64 := by
      unfold shiftLeftU64 at hshifted
      split at hshifted
      · assumption
      · cases hshifted
    obtain ⟨hagree, hfit⟩ := fit_of_foldlM_readBit l _ _ state' (by
      intro c hc
      rcases mem_or_eq_of_mem_set hc with hc | rfl
      · exact hle c hc
      · exact hlt) h
    exact ⟨(fixedAgree_cons _ _).mpr ⟨nofun, hagree⟩, (partsFit_cons_part hget).mpr hfit⟩
  | (.fixed v, b) :: l, values, counts, state', hle, h => by
    rw [foldlM_cons, readBit] at h
    split at h
    next hb =>
      obtain ⟨hagree, hfit⟩ := fit_of_foldlM_readBit l values counts state' hle h
      refine ⟨(fixedAgree_cons _ _).mpr ⟨?_, hagree⟩, (partsFit_cons_of_ne (by simp)).mpr hfit⟩
      intro v' hv'
      rw [hb, Bit.fixed.inj hv']
    next => cases h
  | (.dontCare, b) :: l, values, counts, state', hle, h => by
    obtain ⟨hagree, hfit⟩ := fit_of_foldlM_readBit l values counts state' hle h
    exact ⟨(fixedAgree_cons _ _).mpr ⟨nofun, hagree⟩, (partsFit_cons_of_ne (by simp)).mpr hfit⟩

/-- `extract_parts` succeeds on the instructions that have the encoding's length and fixed bits,
provided the parts exist and fit, and returns the value of each part. -/
theorem extractParts_eq_ok_iff {e : Encoding R} {x : Instruction} {vs : List U64} :
    e.extractParts x = .ok vs ↔
      x.bitLen = e.bits.length ∧ FixedAgree (e.placed x) ∧
        PartsFit (replicate e.parts.length 0) (e.placed x) ∧
        vs = (range e.parts.length).map fun n => partValue n (e.placed x) := by
  unfold extractParts
  by_cases hlen : x.bitLen = e.bits.length
  swap
  · simp [hlen]
  have hfold := foldlM_extractBit x e.bits 0
    (replicate e.parts.length 0, replicate e.parts.length 0) hlen.symm
  rw [if_neg (not_not.mpr hlen), hfold, drop_zero]
  constructor
  · intro h
    obtain ⟨state, hstate, rfl⟩ := ok_of_bind_ok h
    obtain ⟨hagree, hfit⟩ := fit_of_foldlM_readBit _ _ _ _ (by simp) hstate
    obtain ⟨state', hstate', hreads⟩ := exists_foldlM_readBit _ (replicate e.parts.length 0)
      _ (by simp) hagree hfit
    obtain rfl := ok_unique hstate hstate'
    exact ⟨hlen, hagree, hfit, hreads.eq_partValues⟩
  · rintro ⟨-, hagree, hfit, rfl⟩
    obtain ⟨state', hstate', hreads⟩ := exists_foldlM_readBit _ (replicate e.parts.length 0)
      _ (by simp) hagree hfit
    rw [show e.bits.zip x.bits.reverse = e.placed x from rfl, hstate']
    exact congrArg Except.ok hreads.eq_partValues

end Encoding

end LibLisa
