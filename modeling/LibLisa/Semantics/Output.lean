import LibLisa.Semantics.Computation

/-!
# Outputs as bits

What the output of a computation says about the 128 bits it was made from: an output of `k` bits
reads the `k` low bits (`output_congr`), is zero if they are (`isZero_output_iff`), and bitwise
operations on results are bitwise operations on outputs. Cropping keeps these bits, and reversing
the bytes of a byte output is the same as encoding it in the other order (`output_swapped_crop`).
-/

namespace LibLisa.Semantics

open Lib List OwnedValue
open BitVec (getLsbD_and eq_of_getLsbD_eq getLsbD_not allOnes getLsbD_setWidth)

/-! ## Low bits -/

/-- The word whose `k` low bits are set. -/
def lowBits (k : ℕ) : I128 := BitVec.ofNat 128 (2 ^ k - 1)

variable {k : ℕ}

lemma getLsbD_lowBits (hk : k ≤ 128) (i : ℕ) : (lowBits k).getLsbD i = decide (i < k) := by
  unfold lowBits
  rw [BitVec.getLsbD_ofNat]
  by_cases h : i < k
  · simp [Nat.lt_of_lt_of_le h hk]
  · simp [h]

/-- The mask of `crop` and the like overflows for 127 bits and more. -/
lemma lowMask_eq : ∀ n : U8,
    lowMask n = if n.toNat < 127 then .ok (lowBits n.toNat) else .error .arithmeticOverflow := by
  decide +kernel

variable {n : ℕ} {i j : ℕ}

lemma toNat_asU8 (h : n ≤ 128) : (asU8 n).toNat = n := by
  exact Nat.mod_eq_of_lt (by omega)

/-- The words agree on their `k` low bits. -/
def LowEq (k : ℕ) (x y : I128) : Prop := ∀ i < k, x.getLsbD i = y.getLsbD i

lemma lowEq_and_lowBits (hk : k ≤ 128) (x : I128) : LowEq k (x &&& lowBits k) x := by
  intro i hi
  rw [getLsbD_and, getLsbD_lowBits hk]
  simp [hi]

lemma and_lowBits_eq_zero_iff (hk : k ≤ 128) (x : I128) :
    x &&& lowBits k = 0 ↔ ∀ i < k, x.getLsbD i = false := by
  constructor
  · intro h i hi
    have hbit := congrArg (fun v => v.getLsbD i) h
    simpa [getLsbD_lowBits hk, hi] using hbit
  · intro h
    apply eq_of_getLsbD_eq
    intro i _
    rw [getLsbD_and, getLsbD_lowBits hk]
    by_cases hi : i < k
    · simp [h i hi]
    · simp [hi]

/-! ## Bytes of a result -/

lemma lowBytes_eq_map (n : ℕ) (x : I128) :
    lowBytes n x = (List.range n).map fun i => (x.sshiftRight (8 * i)).setWidth 8 := by
  induction n generalizing x with
  | zero => rfl
  | succ n ih =>
    rw [lowBytes, ih, range_succ_eq_map, map_cons, map_map, BitVec.sshiftRight_zero]
    refine congrArg _ (map_congr_left fun i _ => ?_)
    change ((x.sshiftRight 8).sshiftRight (8 * i)).setWidth 8 =
      (x.sshiftRight (8 * (i + 1))).setWidth 8
    rw [← BitVec.sshiftRight_add, Nat.mul_succ, Nat.add_comm]

@[simp] lemma length_lowBytes (n : ℕ) (x : I128) : (lowBytes n x).length = n := by
  simp [lowBytes_eq_map]

lemma getLsbD_byte (x : I128) (hi : i < 16) :
    ((x.sshiftRight (8 * i)).setWidth 8).getLsbD j = (decide (j < 8) && x.getLsbD (8 * i + j)) := by
  by_cases hj : j < 8
  · have hlt : 8 * i + j < 128 := by omega
    have hle : ¬ 128 ≤ j := by omega
    simp [BitVec.getLsbD_sshiftRight, hlt, hle]
  · simp [hj]

variable {x y : I128} {f : {w : ℕ} → BitVec w → BitVec w → BitVec w}

lemma byte_eq_iff (hi : i < 16) (hj : j < 16) :
    (x.sshiftRight (8 * i)).setWidth 8 = (y.sshiftRight (8 * j)).setWidth 8 ↔
      ∀ b < 8, x.getLsbD (8 * i + b) = y.getLsbD (8 * j + b) := by
  constructor
  · intro h b hb
    have hbit := congrArg (fun v => v.getLsbD b) h
    simpa only [getLsbD_byte _ hi, getLsbD_byte _ hj, hb, decide_true, Bool.true_and] using hbit
  · intro h
    apply eq_of_getLsbD_eq
    intro b hb
    rw [getLsbD_byte _ hi, getLsbD_byte _ hj, h b hb]

lemma lowBytes_congr (hn : n ≤ 16) (h : LowEq (n * 8) x y) : lowBytes n x = lowBytes n y := by
  rw [lowBytes_eq_map, lowBytes_eq_map]
  refine map_congr_left fun i hi => ?_
  have hi : i < n := mem_range.mp hi
  rw [byte_eq_iff (by omega) (by omega)]
  exact fun b hb => h _ (by omega)

lemma lowBytes_zero_iff (hn : n ≤ 16) (x : I128) :
    (∀ b ∈ lowBytes n x, b = 0) ↔ ∀ i < n * 8, x.getLsbD i = false := by
  have hbyte : ∀ i < n, (x.sshiftRight (8 * i)).setWidth 8 = 0 ↔
      ∀ b < 8, x.getLsbD (8 * i + b) = false := by
    intro i hi
    have hzero : ((0 : I128).sshiftRight (8 * i)).setWidth 8 = 0 := by simp
    rw [← hzero, byte_eq_iff (by omega) (by omega)]
    simp
  rw [lowBytes_eq_map]
  simp only [mem_map, mem_range, forall_exists_index, and_imp, forall_apply_eq_imp_iff₂]
  constructor
  · intro h i hi
    have hbit := (hbyte (i / 8) (by omega)).mp (h _ (by omega)) (i % 8) (by omega)
    rwa [Nat.div_add_mod] at hbit
  · intro h i hi
    exact (hbyte i hi).mpr fun b hb => h _ (by omega)

/-- The bytes of a word in the opposite order. -/
lemma lowBytes_eq_reverse (hn : n ≤ 16)
    (h : ∀ i < n * 8, y.getLsbD i = (swapBytes x).getLsbD ((128 - n * 8) / 8 * 8 + i)) :
    lowBytes n y = (lowBytes n x).reverse := by
  apply ext_getElem
  · simp
  · intro i hi _
    have hi : i < n := by simpa using hi
    rw [getElem_reverse]
    simp only [lowBytes_eq_map, getElem_map, getElem_range, length_map, length_range]
    rw [byte_eq_iff (by omega) (by omega)]
    intro b hb
    have hlt : (128 - n * 8) / 8 * 8 + (8 * i + b) < 128 := by omega
    have hindex : swapIndex 128 ((128 - n * 8) / 8 * 8 + (8 * i + b)) = 8 * (n - 1 - i) + b := by
      unfold swapIndex
      omega
    rw [h _ (by omega), getLsbD_swapBytes, hindex]
    simp [hlt]

/-- A bitwise operation on words of any width. -/
structure Bitwise (f : {w : ℕ} → BitVec w → BitVec w → BitVec w) : Prop where
  setWidth : ∀ (v : ℕ) (x y : I128), (f x y).setWidth v = f (x.setWidth v) (y.setWidth v)
  sshiftRight : ∀ (x y : I128) (n : ℕ),
    (f x y).sshiftRight n = f (x.sshiftRight n) (y.sshiftRight n)
  and_mask : ∀ x y mask : U64, f (x &&& mask) (y &&& mask) = f x y &&& mask

lemma Bitwise.and : Bitwise (· &&& ·) where
  setWidth _ x y := BitVec.setWidth_and
  sshiftRight x y n := BitVec.sshiftRight_and_distrib x y n
  and_mask x y mask := by
    grind

lemma Bitwise.or : Bitwise (· ||| ·) where
  setWidth _ x y := BitVec.setWidth_or
  sshiftRight x y n := BitVec.sshiftRight_or_distrib x y n
  and_mask x y mask := by
    grind

lemma lowBytes_bitwise (hf : Bitwise f) (n : ℕ) (x y : I128) :
    lowBytes n (f x y) = List.zipWith f (lowBytes n x) (lowBytes n y) := by
  induction n generalizing x y with
  | zero => rfl
  | succ n ih =>
    rw [lowBytes, lowBytes, lowBytes, zipWith_cons_cons, hf.sshiftRight, ih, hf.setWidth]

lemma lowBytes_not (hn : n ≤ 16) (x : I128) : lowBytes n (~~~x) = (lowBytes n x).map (~~~ ·) := by
  rw [lowBytes_eq_map, lowBytes_eq_map, map_map]
  refine map_congr_left fun i hi => ?_
  have hi : i < 16 := by
    have := mem_range.mp hi
    omega
  apply eq_of_getLsbD_eq
  intro b hb
  have hlt : 8 * i + b < 128 := by omega
  rw [getLsbD_byte _ hi, Function.comp_apply, getLsbD_not, getLsbD_not, getLsbD_byte _ hi]
  simp [hb, hlt]

/-! ## Output types -/

/-- The representation of an output type of at most 16 bytes. -/
inductive Represents : OutputType → IoType → Prop
  | integer {k : ℕ} (hpos : 1 ≤ k) (hle : k ≤ 64) :
      Represents (.number (allOnes 64 >>> (64 - k))) (.integer k)
  | bytes {n : ℕ} (hle : n ≤ 16) : Represents (.bytes n) (.bytes n)

lemma mask_ne_zero (hpos : 1 ≤ k) (hle : k ≤ 64) : allOnes 64 >>> (64 - k) ≠ 0 := by
  intro h
  have hbit := Utils.GrowingBitmap.getLsbD_mask hle 0
  rw [h] at hbit
  simp at hbit
  omega

variable {o : OutputType} {ty : IoType}

/-- The number of bits is taken as a `u32`. -/
lemma constFrom_integer_iff (k : ℕ) :
    OutputType.constFrom (.integer k) = .ok o ↔ Represents o (.integer (k % 2 ^ 32)) := by
  rw [OutputType.constFrom, usub, Utils.bitmaskU64]
  generalize k % 2 ^ 32 = k
  by_cases hle : k ≤ 64
  · rw [if_pos hle, ok_bind]
    by_cases hpos : 1 ≤ k
    · rw [if_pos (show 64 - k < 64 by omega)]
      change (if allOnes 64 >>> (64 - k) = 0 then .error .assertionFailed
        else .ok (.number (allOnes 64 >>> (64 - k))) : Partial OutputType) = .ok o ↔ _
      rw [if_neg (mask_ne_zero hpos hle)]
      constructor
      · intro h
        obtain rfl := Except.ok.inj h
        exact .integer hpos hle
      · rintro ⟨⟩
        rfl
    · rw [if_neg (show ¬ 64 - k < 64 by omega)]
      constructor
      · exact nofun
      · rintro ⟨⟩
        contradiction
  · rw [if_neg hle]
    constructor
    · exact nofun
    · rintro ⟨⟩
      contradiction

lemma constFrom_eq_ok_iff (hty : ty.numBits ≤ 128) :
    OutputType.constFrom ty = .ok o ↔ Represents o ty := by
  cases ty with
  | bytes n =>
    have hn : n * 8 ≤ 128 := hty
    constructor
    · intro h
      obtain rfl := Except.ok.inj h
      exact .bytes (by omega)
    · rintro ⟨⟩
      rfl
  | integer k =>
    have hk : k ≤ 128 := hty
    rw [constFrom_integer_iff, Nat.mod_eq_of_lt (by omega)]

/-- The type that is read back from the mask. -/
lemma ctz_not_mask : ∀ k : Fin 65, k.val ≠ 0 →
    (~~~(allOnes 64 >>> (64 - k.val))).ctz.toNat = k.val := by
  decide +kernel

lemma Represents.ioType_eq (h : Represents o ty) (e : Expr) (encoding : OutputEncoding) :
    (ExprComputation.mk e encoding o).ioType = ty := by
  cases h with
  | bytes hle => rfl
  | @integer k hpos hle =>
    exact congrArg IoType.integer (ctz_not_mask ⟨k, by omega⟩ (by simp; omega))

lemma Represents.unique {o₁ o₂ : OutputType} (h₁ : Represents o₁ ty) (h₂ : Represents o₂ ty) :
    o₁ = o₂ := by
  cases h₁ with
  | bytes => cases h₂ with | bytes => rfl
  | integer => cases h₂ with | integer => rfl

lemma Represents.numBits_le (h : Represents o ty) : ty.numBits ≤ 128 := by
  cases h with
  | bytes hle => rw [IoType.numBits]; omega
  | integer hpos hle => rw [IoType.numBits]; omega

/-- The output type that is read back from the template. -/
lemma constFrom_ioType (h : OutputType.constFrom ty = .ok o) (e : Expr)
    (encoding : OutputEncoding) :
    OutputType.constFrom (ExprComputation.mk e encoding o).ioType = .ok o := by
  rcases ty with k | n
  · have hrep := (constFrom_integer_iff k).mp h
    rw [hrep.ioType_eq]
    exact (constFrom_eq_ok_iff hrep.numBits_le).mpr hrep
  · obtain rfl := Except.ok.inj h
    rfl

/-! ## Outputs -/

/-- The value that a result is encoded as. -/
def output (o : OutputType) (encoding : OutputEncoding) (x : I128) : OwnedValue :=
  match o with
  | .number mask => .num (x.setWidth 64 &&& mask)
  | .bytes numBytes => .bytes (i128AsBytes encoding numBytes x)

@[simp] lemma output_number (mask : U64) (encoding : OutputEncoding) (x : I128) :
    output (.number mask) encoding x = .num (x.setWidth 64 &&& mask) := rfl

@[simp] lemma output_bytes_le (n : ℕ) (x : I128) :
    output (.bytes n) .unsignedLittleEndian x = .bytes (lowBytes n x) := rfl

@[simp] lemma output_bytes_be (n : ℕ) (x : I128) :
    output (.bytes n) .unsignedBigEndian x = .bytes (lowBytes n x).reverse := rfl

namespace OwnedValue

/-- The value is zero. -/
def isZero : OwnedValue → Prop
  | .num n => n = 0
  | .bytes b => ∀ x ∈ b, x = 0

/-- A bitwise operation on values of one type. -/
def bitwise (f : {w : ℕ} → BitVec w → BitVec w → BitVec w) :
    OwnedValue → OwnedValue → Option OwnedValue
  | .num n, .num m => some (.num (f n m))
  | .bytes b, .bytes d => some (.bytes (List.zipWith f b d))
  | _, _ => none

/-- The bitwise complement within an output type. -/
def complement : IoType → OwnedValue → OwnedValue
  | .integer k, .num n => .num (~~~n &&& (allOnes 64 >>> (64 - k)))
  | _, .num n => .num (~~~n)
  | _, .bytes b => .bytes (b.map (~~~ ·))

instance : DecidablePred isZero
  | .num n => inferInstanceAs (Decidable (n = 0))
  | .bytes b => inferInstanceAs (Decidable (∀ x ∈ b, x = 0))

end OwnedValue

section Represents

variable {encoding : OutputEncoding} {e₁ e₂ : OutputEncoding}

/-- The output only depends on the bits that the type has. -/
theorem output_congr (h : Represents o ty) {x y : I128} (hxy : LowEq ty.numBits x y) :
    output o encoding x = output o encoding y := by
  cases h with
  | bytes hle =>
    cases encoding with
    | unsignedLittleEndian => rw [output_bytes_le, output_bytes_le, lowBytes_congr hle hxy]
    | unsignedBigEndian => rw [output_bytes_be, output_bytes_be, lowBytes_congr hle hxy]
  | @integer k hpos hle =>
    refine congrArg num (eq_of_getLsbD_eq fun i hi => ?_)
    rw [getLsbD_and, getLsbD_and, Utils.GrowingBitmap.getLsbD_mask hle, getLsbD_setWidth,
      getLsbD_setWidth]
    by_cases hik : i < k
    · rw [hxy i hik]
    · simp [hik]

/-- An output is zero when its bits are. -/
lemma isZero_output_iff (h : Represents o ty) (x : I128) :
    (output o encoding x).isZero ↔ ∀ i < ty.numBits, x.getLsbD i = false := by
  cases h with
  | bytes hle =>
    cases encoding with
    | unsignedLittleEndian => exact lowBytes_zero_iff hle x
    | unsignedBigEndian =>
      rw [output_bytes_be, OwnedValue.isZero]
      simp only [mem_reverse]
      exact lowBytes_zero_iff hle x
  | @integer k hpos hle =>
    constructor
    · intro h i hi
      have hi : i < k := hi
      have hbit := congrArg (fun v => v.getLsbD i) h
      rw [getLsbD_and, Utils.GrowingBitmap.getLsbD_mask hle] at hbit
      simpa [hi, Nat.lt_of_lt_of_le hi hle] using hbit
    · intro h
      apply eq_of_getLsbD_eq
      intro i _
      rw [getLsbD_and, Utils.GrowingBitmap.getLsbD_mask hle]
      by_cases hi : i < k
      · simp [h i hi]
      · simp [hi]

/-- The byte order makes no difference to a number, nor to a single byte. -/
lemma output_encoding_irrel (h : Represents o ty) (hty : ty.numBits ≤ 8 ∨ ∃ k, ty = .integer k)
    (e₁ e₂ : OutputEncoding) (x : I128) : output o e₁ x = output o e₂ x := by
  cases h with
  | integer hpos hle => rfl
  | @bytes n hle =>
    have hn : n ≤ 1 := by
      rcases hty with hn | ⟨k, hk⟩
      · rw [IoType.numBits] at hn
        omega
      · cases hk
    have hrev : (lowBytes n x).reverse = lowBytes n x := by
      rcases Nat.le_one_iff_eq_zero_or_eq_one.mp hn with rfl | rfl
      · rfl
      · rfl
    have hle : ∀ e, output (.bytes n) e x = .bytes (lowBytes n x) := by
      intro e
      cases e with
      | unsignedLittleEndian => rfl
      | unsignedBigEndian => rw [output_bytes_be, hrev]
    rw [hle, hle]

lemma bitwise_output (hf : Bitwise f) (x y : I128) :
    bitwise f (output o encoding x) (output o encoding y) = some (output o encoding (f x y)) := by
  cases o with
  | number mask =>
    rw [output_number, output_number, output_number, bitwise, hf.and_mask, hf.setWidth]
  | bytes n =>
    cases encoding with
    | unsignedLittleEndian =>
      rw [output_bytes_le, output_bytes_le, output_bytes_le, bitwise, lowBytes_bitwise hf]
    | unsignedBigEndian =>
      rw [output_bytes_be, output_bytes_be, output_bytes_be, bitwise,
        lowBytes_bitwise hf, reverse_zipWith (by simp)]

lemma output_not (h : Represents o ty) (x : I128) :
    output o encoding (~~~x) = (output o encoding x).complement ty := by
  cases h with
  | @integer k hpos hle =>
    refine congrArg num (eq_of_getLsbD_eq fun i hi => ?_)
    grind
  | bytes hle =>
    cases encoding with
    | unsignedLittleEndian => rw [output_bytes_le, lowBytes_not hle]; rfl
    | unsignedBigEndian => rw [output_bytes_be, lowBytes_not hle, ← map_reverse]; rfl

/-! ## Cropping and swapping -/

/-- Cropping to the bits of a type has a result unless the type has 16 bytes. -/
lemma crop_eq (h : Represents o ty) (x : I128) :
    crop (asU8 ty.numBits) x = if ty.numBits ≠ 128 then .ok (x &&& lowBits ty.numBits)
      else .error .arithmeticOverflow := by
  have hle := h.numBits_le
  have hne : ty.numBits < 127 ↔ ty.numBits ≠ 128 := by
    cases h with
    | integer hpos hle => rw [IoType.numBits]; omega
    | bytes hle => rw [IoType.numBits]; omega
  unfold crop
  rw [lowMask_eq, toNat_asU8 hle]
  by_cases hty : ty.numBits < 127
  · rw [if_pos hty, if_pos (hne.mp hty)]
    rfl
  · rw [if_neg hty, if_neg (mt hne.mpr hty)]
    rfl

/-- The value of `SwapBytes`, for a type that has bits. -/
def swapped (numBits : ℕ) (x : I128) : I128 :=
  (swapBytes x).sshiftRight ((128 - numBits) / 8 * 8)

lemma swapBytesOp_eq {numBits : ℕ} (hpos : 8 ≤ numBits) (hle : numBits ≤ 128) (x : I128) :
    swapBytesOp (asU8 numBits) x = .ok (swapped numBits x) := by
  unfold swapBytesOp usub sshr
  rw [toNat_asU8 hle, if_pos hle, ok_bind, if_pos (by omega)]
  rfl

/-- A byte output with its bytes swapped is the output in the other byte order. -/
lemma output_swapped {n : ℕ} (hpos : 1 ≤ n) (hle : n ≤ 16) (hne : e₁ ≠ e₂) (x : I128) :
    output (.bytes n) e₁ (swapped (n * 8) x) = output (.bytes n) e₂ x := by
  have hrev : lowBytes n (swapped (n * 8) x) = (lowBytes n x).reverse := by
    apply lowBytes_eq_reverse hle
    intro i hi
    have hshift : (128 - n * 8) / 8 * 8 + i < 128 := by omega
    have hlt : ¬ 128 ≤ i := by omega
    simp [swapped, BitVec.getLsbD_sshiftRight, hlt, hshift]
  cases e₁ with
  | unsignedLittleEndian =>
    cases e₂ with
    | unsignedLittleEndian => exact absurd rfl hne
    | unsignedBigEndian => rw [output_bytes_le, hrev, output_bytes_be]
  | unsignedBigEndian =>
    cases e₂ with
    | unsignedLittleEndian => rw [output_bytes_be, hrev, reverse_reverse, output_bytes_le]
    | unsignedBigEndian => exact absurd rfl hne

/-- A number whose bytes are swapped like those of a byte output. -/
def OwnedValue.swappedNumber (numBits : ℕ) : OwnedValue → OwnedValue
  | .num n => .num ((swapped numBits (n.setWidth 128)).setWidth 64 &&&
      (allOnes 64 >>> (64 - numBits)))
  | .bytes b => .bytes b

/-- Swapping the cropped bytes changes the encoding of a byte output, and the value of a number. -/
theorem output_swapped_crop (h : Represents o ty) (hbits : 8 < ty.numBits)
    (hne : e₁ ≠ e₂) (x : I128) :
    output o e₁ (swapped ty.numBits (x &&& lowBits ty.numBits)) =
      (output o e₂ x).swappedNumber ty.numBits := by
  cases h with
  | @bytes n hle =>
    have hn : 8 < n * 8 := hbits
    rw [IoType.numBits, output_swapped (by omega) hle hne]
    exact output_congr (.bytes hle) (lowEq_and_lowBits (Represents.bytes hle).numBits_le x)
  | @integer k hpos hle =>
    have hcrop : (x.setWidth 64 &&& (allOnes 64 >>> (64 - k))).setWidth 128 =
        x &&& lowBits k := by
      apply eq_of_getLsbD_eq
      intro i hi
      rw [getLsbD_setWidth, getLsbD_and, getLsbD_and, Utils.GrowingBitmap.getLsbD_mask hle,
        getLsbD_lowBits (by omega)]
      by_cases hik : i < k
      · have hi64 : i < 64 := by omega
        simp [hi64, hi]
      · simp [hik]
    change _ = num ((swapped k ((x.setWidth 64 &&&
      (allOnes 64 >>> (64 - k))).setWidth 128)).setWidth 64 &&& _)
    rw [hcrop]
    rfl

end Represents

end LibLisa.Semantics
