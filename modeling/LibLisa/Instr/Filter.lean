import LibLisa.Instr.Instruction

/-!
# Instruction filters

The filters of `instr/filter.rs`: a byte filter asks for the bits of `value` at the positions set in
`mask`, an instruction filter is a list of at most 16 byte filters. The field of `ByteFilter` is
what the source checks with `debug_assert` in `ByteFilter::new`: no value bit outside the mask.

`InstructionFilter.cube` is the filter bit by bit, from the left, as a cube over bit strings;
`nthBitFromLeft` reads it (`nthBitFromLeft_eq`) and `MatchesString`, the byte-wise match of the
source applied to the bytes of an infinite bit string, is the match of that cube
(`matchesString_iff_cube`).

Where no file is given, the source is `instr/filter.rs`.
-/

namespace LibLisa

open Lib Option List

/-- Source: `FilterBit` -/
inductive FilterBit where
  | is0
  | is1
  | wildcard
deriving DecidableEq, Repr

/-- The value that the bit asks for, if any.
Source: `instr/filter.rs`, `FilterBit::as_u8` -/
def FilterBit.asBit : FilterBit → Option Bool
  | is0 => some false
  | is1 => some true
  | wildcard => none

/-- Source: `ByteFilter` -/
structure ByteFilter where
  mask : U8
  value : U8
  /-- No value bit outside the mask. -/
  value_and_not_mask : value &&& ~~~mask = 0
deriving DecidableEq

namespace ByteFilter

/-- Source: `ByteFilter::new` -/
def new (mask value : U8) : Partial ByteFilter :=
  if h : value &&& ~~~mask = 0 then .ok ⟨mask, value, h⟩ else .error .valueOutsideMask

/-- Source: `ByteFilter::matches` -/
def «matches» (bf : ByteFilter) (value : U8) : Bool := (value &&& bf.mask) == bf.value

/-- Source: `ByteFilter::matches_anything` -/
def matchesAnything (bf : ByteFilter) : Bool := bf.mask == 0

/-- The filter bit at a position from the left; `(x >> bit) & 1` with `bit = 7 - index`. -/
def bitAt (bf : ByteFilter) (index : ℕ) : FilterBit :=
  if (bf.mask >>> (7 - index)) &&& 1#8 == 1#8 then
    if (bf.value >>> (7 - index)) &&& 1#8 == 1#8 then .is1 else .is0
  else .wildcard

end ByteFilter

/-- Source: `InstructionFilter` -/
structure InstructionFilter where
  data : List ByteFilter
  length_le : data.length ≤ 16
deriving DecidableEq

/-- Several filters: a vector or a slice of them in the source. -/
abbrev Filters := List InstructionFilter

namespace InstructionFilter

/-- Source: `InstructionFilter::new` -/
def new (data : List ByteFilter) : Partial InstructionFilter :=
  if h : data.length ≤ 16 then .ok ⟨data, h⟩ else .error .filterTooLong

/-- Source: `InstructionFilter::len` -/
def len (f : InstructionFilter) : ℕ := f.data.length

/-- Source: `InstructionFilter::bit_len` -/
def bitLen (f : InstructionFilter) : ℕ := f.data.length * 8

/-- Source: `InstructionFilter::nth_bit_from_left` -/
def nthBitFromLeft (f : InstructionFilter) (index : ℕ) : Partial FilterBit :=
  match f.data[index / 8]? with
  | some byte => .ok (byte.bitAt (index % 8))
  | none => .error .indexOutOfBounds

/-- Compares the filter with a list of bytes; past the last byte only free bytes match. -/
def matchesBytes : List ByteFilter → List U8 → Bool
  | [], _ => true
  | bf :: data, byte :: bytes => bf.matches byte && matchesBytes data bytes
  | bf :: data, [] => bf.matchesAnything && matchesBytes data []

/-- A filter matches byte by byte, and matches anything behind the last byte. -/
lemma matchesBytes_iff {l : List ByteFilter} {bytes : List U8} :
    matchesBytes l bytes = true ↔ ∀ (i : ℕ) a, l[i]? = some a →
      bytes[i]?.elim a.matchesAnything a.matches = true := by
  induction l generalizing bytes with
  | nil => simp [matchesBytes]
  | cons a l ih =>
    rw [← Nat.and_forall_add_one]
    cases bytes <;> simp [matchesBytes, ih]

/-- Source: `InstructionFilter::matches` -/
def «matches» (f : InstructionFilter) (instr : Instruction) : Bool :=
  matchesBytes f.data instr.bytes

/-- Source: `InstructionFilter::matches_smaller_instr_partially` -/
def matchesSmallerInstrPartially (f : InstructionFilter) (instr : Instruction) : Bool :=
  if instr.byteLen > f.len then false
  else (f.data.zip instr.bytes).all fun (bf, byte) => bf.matches byte

/-- Source: `InstructionFilter::num_wildcard_bits` -/
def numWildcardBits (f : InstructionFilter) : ℕ :=
  (f.data.map fun bf => (List.range 8).countP fun i => !bf.mask.getLsbD i).sum

/-- The filter bit by bit, from the left. -/
def bits (f : InstructionFilter) : List FilterBit :=
  f.data.flatMap fun bf => (List.range 8).map bf.bitAt

/-- The filter as a cube over bit strings. -/
def cube (f : InstructionFilter) : Cube := f.bits.map FilterBit.asBit

/-- The filter matches an infinite bit string on its own length: byte by byte, each byte filter
matches. -/
def MatchesString (f : InstructionFilter) (s : BitString) : Prop :=
  ∀ i, ∀ h : i < f.data.length, f.data[i].matches (s.byteAt i) = true

end InstructionFilter

/-! ## A byte filter, bit by bit -/

namespace ByteFilter

lemma bitAt_eq (bf : ByteFilter) {i : ℕ} (h : i < 8) :
    bf.bitAt i =
      if bf.mask.getMsbD i then (if bf.value.getMsbD i then .is1 else .is0) else .wildcard := by
  rw [bitAt, Instruction.shiftRight_and_one_beq _ h, Instruction.shiftRight_and_one_beq _ h]

/-- A byte filter matches a byte when each of its bits admits the byte's bit. -/
lemma matches_iff_admits (bf : ByteFilter) (v : U8) :
    bf.matches v = true ↔ ∀ i < 8, admits (bf.bitAt i).asBit (v.getMsbD i) = true := by
  have hbit : ∀ i < 8, ((v &&& bf.mask).getMsbD i = bf.value.getMsbD i ↔
      admits (bf.bitAt i).asBit (v.getMsbD i) = true) := by
    intro i hi
    rw [bitAt_eq bf hi]
    cases hm : bf.mask.getMsbD i with
    | false =>
      -- a value bit outside the mask is zero
      have hzero : bf.value.getMsbD i = false := by
        simpa [hi, hm] using congrArg (fun v => v.getMsbD i) bf.value_and_not_mask
      simp [hm, FilterBit.asBit, hzero]
    | true =>
      cases hv : bf.value.getMsbD i <;> cases hb : v.getMsbD i <;>
        simp [hm, hb, FilterBit.asBit]
  rw [«matches», beq_iff_eq]
  constructor
  · intro h i hi
    rw [← hbit i hi, h]
  · intro h
    apply BitVec.eq_of_getMsbD_eq
    intro i hi
    exact (hbit i hi).mpr (h i hi)

end ByteFilter

/-! ## The cube of a filter -/

namespace InstructionFilter

lemma getElem?_bits (f : InstructionFilter) (i : ℕ) :
    f.bits[i]? = f.data[i / 8]?.map fun bf => bf.bitAt (i % 8) := by
  rw [bits, getElem?_flatMap_of_length (n := 8) (by omega) (fun bf => by simp)]
  cases f.data[i / 8]? with
  | none => rfl
  | some bf =>
    have hmod : i % 8 < 8 := Nat.mod_lt _ (by omega)
    simp [getElem?_range hmod]

@[simp] lemma length_bits (f : InstructionFilter) : f.bits.length = f.bitLen := by
  simp [bits, bitLen]

@[simp] lemma length_cube (f : InstructionFilter) : f.cube.length = f.bitLen := by
  simp [cube]

/-- `nth_bit_from_left` reads the filter bit by bit. -/
theorem nthBitFromLeft_eq {f : InstructionFilter} {i : ℕ} (h : i < f.bits.length) :
    f.nthBitFromLeft i = .ok f.bits[i] := by
  have hlen : i / 8 < f.data.length := by
    rw [length_bits, bitLen] at h
    omega
  have hget := f.getElem?_bits i
  rw [getElem?_eq_getElem hlen, map_some, getElem?_eq_getElem h, some.injEq] at hget
  rw [nthBitFromLeft, getElem?_eq_getElem hlen, hget]

/-- Matching byte by byte is matching the cube. -/
theorem matchesString_iff_cube (f : InstructionFilter) (s : BitString) :
    f.MatchesString s ↔ Cube.Matches f.cube s := by
  have hcube : ∀ i k, ∀ hi : i < f.data.length, k < 8 → ∀ h : 8 * i + k < f.cube.length,
      f.cube[8 * i + k] = (f.data[i].bitAt k).asBit := by
    intro i k hi hk h
    have hget := f.getElem?_bits (8 * i + k)
    rw [show (8 * i + k) / 8 = i by omega, show (8 * i + k) % 8 = k by omega,
      getElem?_eq_getElem hi, map_some,
      getElem?_eq_getElem (by simpa using h), some.injEq] at hget
    simp [cube, hget]
  rw [Cube.matches_iff_apply]
  constructor
  · intro h j hj
    have hi : j / 8 < f.data.length := by
      rw [length_cube, bitLen] at hj
      omega
    have hk : j % 8 < 8 := Nat.mod_lt _ (by omega)
    have hadm := (f.data[j / 8].matches_iff_admits _).mp (h (j / 8) hi) (j % 8) hk
    rw [BitString.getMsbD_byteAt _ _ hk, ← hcube _ _ hi hk (by omega)] at hadm
    simpa [Nat.div_add_mod] using hadm
  · intro h i hi
    rw [ByteFilter.matches_iff_admits]
    intro k hk
    have hj : 8 * i + k < f.cube.length := by
      rw [length_cube, bitLen]
      omega
    rw [BitString.getMsbD_byteAt _ _ hk, ← hcube _ _ hi hk hj]
    exact h _ hj

end InstructionFilter

end LibLisa
