import LibLisa.Lib.Bytes
import LibLisa.Panic

/-!
# Instructions

The bit strings of `instr/mod.rs`: at most 15 bytes, compared by their bytes. The source keeps a
15-byte buffer and a length; equality, order, hashing and every accessor look at the first `len`
bytes only, and `resize` overwrites the bytes it uncovers, so the model keeps just those bytes.

Every operation is described by its effect on `Instruction.bits`, the list of bits from the left
(`bits_setBitAt`, `withRightmostBits_spec`, `bits_resize_zero`), and the order by the
lexicographic order of the bits (`lt_iff_bits_lt`).

Where no file is given, the source is `instr/mod.rs`.
-/

namespace LibLisa

open Lib List

/-- An instruction bit string of at most 15 bytes.
Source: `instr/mod.rs`, `Instruction` -/
structure Instruction where
  /-- The bytes in use. -/
  bytes : List U8
  length_le : bytes.length ≤ 15
deriving DecidableEq

namespace Instruction

/-- Source: `Instruction::new` -/
def new (data : List U8) : Partial Instruction :=
  if h : data.length ≤ 15 then .ok ⟨data, h⟩ else .error .instructionTooLong

/-- Source: `Instruction::byte_len` -/
def byteLen (x : Instruction) : ℕ := x.bytes.length

/-- Source: `Instruction::bit_len` -/
def bitLen (x : Instruction) : ℕ := x.byteLen * 8

/-- Compares the common bytes, then the lengths. -/
def cmpBytes : List U8 → List U8 → Ordering
  | a :: l, b :: m => if a = b then cmpBytes l m else if a < b then .lt else .gt
  | l, m => compare l.length m.length

/-- Source: `Ord for Instruction` -/
def cmp (x y : Instruction) : Ordering := cmpBytes x.bytes y.bytes

instance : LT Instruction := ⟨fun x y => x.cmp y = .lt⟩

instance : LE Instruction := ⟨fun x y => x.cmp y ≠ .gt⟩

instance (x y : Instruction) : Decidable (x < y) := inferInstanceAs (Decidable (x.cmp y = .lt))

instance (x y : Instruction) : Decidable (x ≤ y) := inferInstanceAs (Decidable (x.cmp y ≠ .gt))

/-- One byte with bit `index` from the left replaced:
`(byte & !(1 << offset)) | bit << offset` with `offset = 7 - index`. -/
def setBit (byte : U8) (index : ℕ) (bit : Bool) : U8 :=
  (byte &&& ~~~(1#8 <<< (7 - index))) ||| ((BitVec.ofBool bit).setWidth 8 <<< (7 - index))

/-- The bytes with one bit replaced; a byte that is not in use stays unseen. -/
def setBitAt (x : Instruction) (index : ℕ) (bit : Bool) : Instruction :=
  ⟨x.bytes.modify (index / 8) fun byte => setBit byte (index % 8) bit, by
    simpa using x.length_le⟩

/-- Source: `Instruction::with_nth_bit_from_left` -/
def withNthBitFromLeft (x : Instruction) (index : ℕ) (bit : Bool) : Partial Instruction :=
  if index / 8 < 15 then .ok (x.setBitAt index bit) else .error .indexOutOfBounds

/-- Bit `index` from the right is bit `index % 8` of byte `len - 1 - index / 8`, that is bit
`bit_len - 1 - index` from the left.
Source: `instr/mod.rs`, `Instruction::with_nth_bit_from_right` -/
def withNthBitFromRight (x : Instruction) (index : ℕ) (bit : Bool) : Partial Instruction :=
  if x.byteLen < 1 + index / 8 then .error .arithmeticOverflow
  else .ok (x.setBitAt ((x.byteLen - 1 - index / 8) * 8 + (7 - index % 8)) bit)

/-- Source: `Instruction::resize` -/
def resize (x : Instruction) (numBytes : ℕ) (fill : U8) : Partial Instruction :=
  if h : numBytes < 15 then
    .ok ⟨x.bytes.take numBytes ++ replicate (numBytes - x.byteLen) fill, by
      simp only [length_append, length_take, length_replicate, byteLen]
      omega⟩
  else .error .resizeTooLong

/-- Source: `Instruction::extend` -/
def extend (x : Instruction) : Partial Instruction := x.resize (x.byteLen + 1) 0

/-- Source: `Instruction::with_rightmost_bits` -/
def withRightmostBits (x : Instruction) : ℕ → Bool → Partial Instruction
  | 0, _ => .ok x
  | num + 1, bit => do
    let x ← x.withRightmostBits num bit
    x.withNthBitFromRight num bit

/-- Source: `Instruction::nth_bit_from_left` -/
def nthBitFromLeft (x : Instruction) (index : ℕ) : Partial Bool :=
  match x.bytes[index / 8]? with
  | some byte => .ok ((byte >>> (7 - index % 8)) &&& 1#8 == 1#8)
  | none => .error .indexOutOfBounds

/-- Source: `Instruction::nth_bit_from_right` -/
def nthBitFromRight (x : Instruction) (index : ℕ) : Partial Bool :=
  if x.byteLen < 1 + index / 8 then .error .arithmeticOverflow
  else
    match x.bytes[x.byteLen - 1 - index / 8]? with
    | some byte => .ok ((byte >>> (index % 8)) &&& 1#8 == 1#8)
    | none => .error .indexOutOfBounds

/-! ## The bits of an instruction -/

/-- The bits of an instruction from the left. -/
def bits (x : Instruction) : List Bool := bitsOf x.bytes

/-- The instruction followed by zeros. -/
def pad (x : Instruction) : BitString := BitString.pad x.bits

@[simp] lemma length_bits (x : Instruction) : x.bits.length = x.bitLen := by
  rw [bits, length_bitsOf, bitLen, byteLen, Nat.mul_comm]

variable {n : ℕ}

/-- Bits of up to 15 whole bytes are those of an instruction. -/
lemma exists_bits (bs : List Bool) (hlen : bs.length = 8 * n) (hn : n ≤ 15) :
    ∃ x : Instruction, x.bits = bs := by
  obtain ⟨l, hl, hlength⟩ := exists_bitsOf n bs hlen
  exact ⟨⟨l, hlength ▸ hn⟩, hl⟩

lemma bitLen_le (x : Instruction) : x.bitLen ≤ 120 := by
  have h := x.length_le
  simp only [bitLen, byteLen]
  omega

variable {i : ℕ}

lemma getMsbD_setBit (byte : U8) (bit : Bool) {j : ℕ} (hi : i < 8) (hj : j < 8) :
    (setBit byte i bit).getMsbD j = if i = j then bit else byte.getMsbD j := by
  have hone := Lib.getMsbD_one_shiftLeft (j := j) hi
  have hbit : ((BitVec.ofBool bit).setWidth 8 <<< (7 - i)).getMsbD j = (bit && decide (j = i)) := by
    cases bit with
    | false => simp
    | true => exact hone
  rw [setBit, BitVec.getMsbD_or, BitVec.getMsbD_and, BitVec.getMsbD_not, hone, hbit]
  by_cases hij : j = i
  · simp [hij]
  · simp [hij, Ne.symm hij, hj]

lemma bits_setBitAt (x : Instruction) (i : ℕ) (bit : Bool) :
    (x.setBitAt i bit).bits = x.bits.set i bit := by
  apply ext_getElem?
  intro j
  rw [bits, setBitAt, getElem?_bitsOf, getElem?_modify, getElem?_set, bits, getElem?_bitsOf]
  have hi8 : i % 8 < 8 := Nat.mod_lt _ (by omega)
  have hj8 : j % 8 < 8 := Nat.mod_lt _ (by omega)
  by_cases hbyte : i / 8 = j / 8
  · by_cases hij : i = j
    · subst hij
      by_cases hlt : i < 8 * x.bytes.length
      · have hget : i / 8 < x.bytes.length := by omega
        simp [hlt, getElem?_eq_getElem hget, getMsbD_setBit _ _ hi8 hi8]
      · have hget : x.bytes.length ≤ i / 8 := by omega
        simp [hlt, getElem?_eq_none hget]
    · have hmod : i % 8 ≠ j % 8 := by omega
      cases x.bytes[j / 8]? with
      | none => simp [hij]
      | some byte => simp [hbyte, hij, getMsbD_setBit _ _ hi8 hj8, hmod]
  · have hij : i ≠ j := by
      rintro rfl
      exact hbyte rfl
    simp [hbyte, hij]

/-- Shifting the bit to the right end and masking it reads the bit. -/
lemma shiftRight_and_one_beq (byte : U8) (h : i < 8) :
    (byte >>> (7 - i) &&& 1#8 == 1#8) = byte.getMsbD i := by
  rw [BitVec.and_one_eq_setWidth_ofBool_getLsbD, BitVec.getLsbD_ushiftRight, BitVec.getMsbD,
    decide_eq_true h]
  cases byte.getLsbD (7 - i) <;> rfl

variable {x : Instruction}

lemma nthBitFromLeft_eq (h : i < x.bits.length) : x.nthBitFromLeft i = .ok x.bits[i] := by
  have hlen : i / 8 < x.bytes.length := by
    rw [length_bits, bitLen, byteLen] at h
    omega
  have hget := getElem?_bitsOf x.bytes i
  rw [getElem?_eq_getElem hlen, Option.map_some, ← bits, getElem?_eq_getElem h,
    Option.some.injEq] at hget
  rw [nthBitFromLeft, getElem?_eq_getElem hlen, hget]
  have hmod : i % 8 < 8 := Nat.mod_lt _ (by omega)
  generalize x.bytes[i / 8] = byte
  exact congrArg Except.ok (shiftRight_and_one_beq byte hmod)

lemma nthBitFromLeft_of_getElem? {b : Bool} (h : x.bits[i]? = some b) :
    x.nthBitFromLeft i = .ok b := by
  obtain ⟨hi, rfl⟩ := List.getElem?_eq_some_iff.mp h
  exact nthBitFromLeft_eq hi

/-- `nth_bit_from_right` reads the bits in reverse. -/
lemma nthBitFromRight_eq (h : i < x.bits.reverse.length) :
    x.nthBitFromRight i = .ok x.bits.reverse[i] := by
  rw [length_reverse] at h
  have hlt : i < x.byteLen * 8 := by rwa [length_bits] at h
  have hleft : x.nthBitFromRight i = x.nthBitFromLeft (x.bits.length - 1 - i) := by
    rw [nthBitFromRight, if_neg (by omega), nthBitFromLeft, length_bits, bitLen,
      show (x.byteLen * 8 - 1 - i) / 8 = x.byteLen - 1 - i / 8 by omega,
      show 7 - (x.byteLen * 8 - 1 - i) % 8 = i % 8 by omega]
  rw [hleft, nthBitFromLeft_eq (by omega), getElem_reverse]

lemma withNthBitFromLeft_eq (bit : Bool) (h : i < x.bitLen) :
    x.withNthBitFromLeft i bit = .ok (x.setBitAt i bit) := by
  have hlen := x.bitLen_le
  rw [withNthBitFromLeft, if_pos (by omega)]

lemma withNthBitFromRight_eq (bit : Bool) (h : i < x.bitLen) :
    x.withNthBitFromRight i bit = .ok (x.setBitAt (x.bitLen - 1 - i) bit) := by
  rw [bitLen] at h ⊢
  rw [withNthBitFromRight, if_neg (by omega)]
  congr 2
  omega

@[simp] lemma byteLen_setBitAt (x : Instruction) (i : ℕ) (bit : Bool) :
    (x.setBitAt i bit).byteLen = x.byteLen := by
  simp [setBitAt, byteLen]

@[simp] lemma bitLen_setBitAt (x : Instruction) (i : ℕ) (bit : Bool) :
    (x.setBitAt i bit).bitLen = x.bitLen := by
  simp [bitLen]

/-- The rightmost bits are replaced and the others kept. -/
theorem withRightmostBits_spec (x : Instruction) (bit : Bool) :
    ∀ num ≤ x.bitLen, ∃ y, x.withRightmostBits num bit = .ok y ∧
      y.bits = x.bits.take (x.bitLen - num) ++ replicate num bit := by
  intro num
  induction num with
  | zero =>
    intro _
    exact ⟨x, rfl, by simp [take_of_length_le]⟩
  | succ num ih =>
    intro hnum
    obtain ⟨y, hy, hbits⟩ := ih (by omega)
    have hlen : y.bitLen = x.bitLen := by
      rw [← length_bits, hbits, length_append, length_take, length_replicate, length_bits]
      omega
    refine ⟨y.setBitAt (y.bitLen - 1 - num) bit, ?_, ?_⟩
    · rw [withRightmostBits, hy, ok_bind, withNthBitFromRight_eq bit (by omega)]
    · rw [bits_setBitAt, hbits]
      apply ext_getElem?
      intro j
      simp only [getElem?_set, getElem?_append, getElem?_take, length_append, length_take,
        getElem?_replicate, length_bits]
      split_ifs <;> first | rfl | omega

variable {y : Instruction}

lemma bits_resize_zero (h : x.resize n 0 = .ok y) :
    y.bits = x.bits.take (8 * n) ++ replicate (8 * (n - x.byteLen)) false := by
  unfold resize at h
  split at h
  · cases h
    rw [bits, bitsOf_append, bitsOf_take, bitsOf_replicate_zero, bits]
  · cases h

lemma resize_eq_ok (fill : U8) (h : n < 15) : ∃ y, x.resize n fill = .ok y ∧ y.byteLen = n := by
  refine ⟨_, dif_pos h, ?_⟩
  simp only [byteLen, length_append, length_take, length_replicate]
  omega

variable {fill : U8}

lemma byteLen_of_resize (h : x.resize n fill = .ok y) : y.byteLen = n := by
  unfold resize at h
  split at h
  · next hn =>
    obtain ⟨z, hz, hlen⟩ := resize_eq_ok fill hn
    rw [resize, dif_pos hn] at hz
    rw [← hlen, ← Except.ok.inj h, Except.ok.inj hz]
  · cases h

lemma lt_of_resize (h : x.resize n fill = .ok y) : n < 15 := by
  unfold resize at h
  split at h
  · assumption
  · cases h

lemma resize_eq_error {e : Abort} (h : x.resize n fill = .error e) :
    e = .resizeTooLong ∧ 15 ≤ n := by
  unfold resize at h
  split at h
  · cases h
  · next hn =>
    cases h
    exact ⟨rfl, Nat.le_of_not_lt hn⟩

/-! ## The order -/

lemma cmpBytes_spec (l m : List U8) :
    (cmpBytes l m = .lt ↔ l < m) ∧ (cmpBytes l m = .gt ↔ m < l) := by
  induction l generalizing m with
  | nil =>
    cases m with
    | nil => simp [cmpBytes]
    | cons b m => simp [cmpBytes, compare, compareOfLessAndEq]
  | cons a l ih =>
    cases m with
    | nil => simp [cmpBytes, compare, compareOfLessAndEq]
    | cons b m =>
      rw [cmpBytes, cons_lt_cons_iff, cons_lt_cons_iff]
      by_cases hab : a = b
      · simp [hab, ih]
      · by_cases hlt : a < b
        · simp [hab, hlt, Ne.symm hab, BitVec.le_of_lt hlt]
        · have hgt : b < a := BitVec.lt_of_le_ne (BitVec.not_lt.mp hlt) (Ne.symm hab)
          simp [hab, hlt, hgt]

/-- Instructions compare as their bits do. -/
theorem lt_iff_bits_lt : x < y ↔ x.bits < y.bits := by
  rw [bits, bits, bitsOf_lt_bitsOf_iff]
  exact (cmpBytes_spec x.bytes y.bytes).1

lemma le_iff_bits_le : x ≤ y ↔ x.bits ≤ y.bits := by
  rw [← not_lt, bits, bits, bitsOf_lt_bitsOf_iff, ← (cmpBytes_spec _ _).2]
  exact Iff.rfl

end Instruction

end LibLisa
