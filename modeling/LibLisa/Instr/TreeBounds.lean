import LibLisa.Instr.TreeInsert

/-!
# Filtering below and above an instruction

`filter_below` and `filter_above` insert one filter for each bit of the instruction that is 1, or 0:
the filter that agrees with the instruction before that bit, has the other value at it and is free
after it. Such a filter is a prefix cube (`prefixFilter_spec`); together they cover exactly the
strings below the zero-padded instruction, or above everything that starts with it.
-/

namespace LibLisa.FilterTree

open Lib List BitString Instruction BitTree Option

/-- The bits `pre`, followed by free positions. -/
def prefixCube (pre : List Bool) : Cube := pre.map some

lemma prefixCube_matches_iff (pre : List Bool) (s : BitString) :
    Cube.Matches (prefixCube pre) s ↔ StartsWith pre s := by
  induction pre generalizing s with
  | nil => simp [prefixCube, StartsWith]
  | cons b pre ih =>
    rw [StartsWith, ← ih s.tail, prefixCube, map_cons, Cube.matches_cons,
      admits_some, beq_iff_eq, eq_comm]
    rfl

/-! ## The filter of a prefix -/

lemma getMsbD_mask {m k : ℕ} (hk : k < 8) :
    (if m < 8 then 0xff#8 <<< m else 0).getMsbD k = decide (k + m < 8) := by
  by_cases hm : m < 8
  · rw [if_pos hm, BitVec.getMsbD_shiftLeft, show 0xff#8 = BitVec.allOnes 8 from rfl,
      BitVec.getMsbD_allOnes]
  · rw [if_neg hm]
    have : ¬ k + m < 8 := by omega
    simp [this]

variable {i : ℕ} {pre : List Bool}

section prefixFilter

variable {x : Instruction} (hbits : x.bits = pre ++ List.replicate i false)

include hbits

lemma length_of_bits_eq : pre.length + i = 8 * x.bytes.length := by
  have h := congrArg length hbits
  rw [length_bits, bitLen, byteLen] at h
  simp only [length_append, length_replicate] at h
  omega

/-- Bit `k` of byte `p`, from the left, is a bit of `pre` or a zero after it. -/
lemma getMsbD_of_bits_eq {p k : ℕ} (hp : p < x.bytes.length) (hk : k < 8) :
    (8 * p + k < pre.length ∧ pre[8 * p + k]? = some (x.bytes[p].getMsbD k)) ∨
      (pre.length ≤ 8 * p + k ∧ x.bytes[p].getMsbD k = false) := by
  have hlen := length_of_bits_eq hbits
  have hget := getElem?_bitsOf x.bytes (8 * p + k)
  rw [← bits, hbits, show (8 * p + k) / 8 = p by omega, show (8 * p + k) % 8 = k by
    omega, getElem?_eq_getElem hp] at hget
  by_cases hpre : 8 * p + k < pre.length
  · rw [getElem?_append_left hpre] at hget
    exact Or.inl ⟨hpre, hget⟩
  · rw [getElem?_append_right (by omega), getElem?_replicate,
      if_pos (by omega)] at hget
    exact Or.inr ⟨by omega, (some.inj hget).symm⟩

/-- The byte filters of the loop have the bytes of the instruction as values, and masks for the bits
before the last `i`. -/
lemma exists_prefixBytes :
    ∃ data : List ByteFilter, x.bytes.reverse.zipIdx.mapM (fun (b, idx) =>
        ByteFilter.new (if i - idx * 8 < 8 then 0xff#8 <<< (i - idx * 8) else 0) b) = .ok data ∧
      data.length = x.bytes.length ∧ ∀ p, ∀ hp : p < x.bytes.length, ∃ bf,
        data.reverse[p]? = some bf ∧ bf.value = x.bytes[p] ∧
        ∀ k < 8, bf.mask.getMsbD k = decide (k + (i - (x.bytes.length - 1 - p) * 8) < 8) := by
  have hlen := length_of_bits_eq hbits
  obtain ⟨data, hdata, hall⟩ := exists_mapM_eq_ok
    (f := fun bi =>
      ByteFilter.new (if i - bi.2 * 8 < 8 then 0xff#8 <<< (i - bi.2 * 8) else 0) bi.1)
    (R := fun bi bf => bf.mask = (if i - bi.2 * 8 < 8 then 0xff#8 <<< (i - bi.2 * 8) else 0) ∧
      bf.value = bi.1) (l := x.bytes.reverse.zipIdx) (by
    rintro ⟨b, idx⟩ hmem
    obtain ⟨hidx, hb⟩ := mem_zipIdx' hmem
    rw [length_reverse] at hidx
    rw [getElem_reverse] at hb
    have hp : x.bytes.length - 1 - idx < x.bytes.length := by omega
    have hok : b &&& ~~~(if i - idx * 8 < 8 then 0xff#8 <<< (i - idx * 8) else 0) = 0 := by
      apply BitVec.eq_of_getMsbD_eq
      intro k hk
      rw [BitVec.getMsbD_and, BitVec.getMsbD_not, getMsbD_mask hk]
      rcases getMsbD_of_bits_eq hbits hp hk with ⟨hlt, -⟩ | ⟨-, hzero⟩
      · have : k + (i - idx * 8) < 8 := by omega
        simp [this]
      · rw [hb, hzero]
        simp
    exact ⟨⟨_, b, hok⟩, by simp only [ByteFilter.new]; rw [dif_pos hok], rfl, rfl⟩)
  have hdlen : data.length = x.bytes.length := by
    have h := hall.length_eq
    simpa using h.symm
  refine ⟨data, hdata, hdlen, fun p hp => ?_⟩
  have hq : x.bytes.length - 1 - p < data.length := by omega
  have hR := hall.get (by simpa using by omega) hq
  simp only [get_eq_getElem, getElem_zipIdx, Nat.zero_add, getElem_reverse] at hR
  refine ⟨data[x.bytes.length - 1 - p], ?_, ?_, fun k hk => ?_⟩
  · rw [getElem?_reverse (by omega), hdlen, getElem?_eq_getElem hq]
  · rw [hR.2]
    congr 1
    omega
  · rw [hR.1, getMsbD_mask hk]

/-- The filter of `filter_below` and `filter_above` fixes the bits before the last `i`. -/
theorem prefixFilter_spec :
    ∃ f, prefixFilter x i = .ok f ∧ f.data.length = x.byteLen ∧
      f.cube = prefixCube pre ++ replicate i none := by
  have hlen := length_of_bits_eq hbits
  obtain ⟨data, hdata, hdlen, hbyte⟩ := exists_prefixBytes hbits
  have hle : data.reverse.length ≤ 16 := by
    have h := x.length_le
    rw [length_reverse]
    omega
  refine ⟨⟨data.reverse, hle⟩, ?_, by simp [hdlen, byteLen], ?_⟩
  · rw [prefixFilter, hdata, ok_bind, InstructionFilter.new, dif_pos hle]
  · apply ext_getElem?
    intro j
    rw [InstructionFilter.cube, getElem?_map, InstructionFilter.getElem?_bits]
    by_cases hj : j / 8 < x.bytes.length
    · obtain ⟨bf, hbf, hvalue, hmask⟩ := hbyte (j / 8) hj
      have hk : j % 8 < 8 := Nat.mod_lt _ (by omega)
      rw [hbf, map_some, ByteFilter.bitAt_eq bf hk, hmask _ hk, hvalue]
      rcases getMsbD_of_bits_eq hbits hj hk with ⟨hlt, hget⟩ | ⟨hge, -⟩
      · rw [Nat.div_add_mod] at hlt hget
        rw [getElem?_append_left (by simpa [prefixCube] using hlt), prefixCube,
          getElem?_map, hget, decide_eq_true (by omega)]
        cases x.bytes[j / 8].getMsbD (j % 8) <;> rfl
      · rw [Nat.div_add_mod] at hge
        have hfree : j - (prefixCube pre).length < i := by
          rw [prefixCube, length_map]
          omega
        rw [decide_eq_false (by omega), getElem?_append_right (by simpa [prefixCube] using hge),
          getElem?_replicate, if_pos hfree]
        rfl
    · rw [getElem?_eq_none (by simp [hdlen]; omega), getElem?_eq_none]
      · rfl
      · simp only [prefixCube, length_append, length_map, length_replicate]
        omega

end prefixFilter

/-- Without trailing wildcards that filter is the prefix. -/
lemma realCube_eq_prefixCube {f : InstructionFilter}
    (hcube : f.cube = prefixCube pre ++ replicate i none) (hpre : pre ≠ []) :
    realCube f = prefixCube pre := by
  obtain ⟨r, -, -, -, -, hfull⟩ := realLen_spec f
  rcases append_eq_append_iff.mp (hcube.symm.trans hfull) with ⟨c, hreal, hc⟩ | ⟨c, hcut, hc⟩
  · rcases eq_nil_or_concat c with rfl | ⟨c, x, rfl⟩
    · rw [hreal, List.append_nil]
    · -- a wildcard left after the prefix
      have hx : x ∈ replicate i none := by simp [hc]
      obtain rfl := eq_of_mem_replicate hx
      have hpos := length_pos_iff.mpr hpre
      refine absurd ?_ (realCube_getLast_ne_none f (by simp [hreal, prefixCube]; omega))
      simp [hreal, ← append_assoc]
  · rcases c with _ | ⟨x, c⟩
    · rw [hcut, List.append_nil]
    · -- a wildcard cut off inside the prefix
      have hx : x ∈ replicate (f.bitLen - r) none := by simp [hc]
      obtain rfl := eq_of_mem_replicate hx
      have hmem : none ∈ prefixCube pre := by simp [hcut]
      simp [prefixCube] at hmem

/-! ## One filter for each bit -/

/-- The prefix that flips bit `i` from the right, if that bit has value `v`. -/
def edgeCube (v : Bool) (B : List Bool) (i : ℕ) : List Cube :=
  if B[B.length - 1 - i]? = some v then [prefixCube (B.take (B.length - 1 - i) ++ [!v])] else []

/-- The cubes that `filter_below` (`v = true`) and `filter_above` (`v = false`) insert, in their
order. -/
def edgeCubes (v : Bool) (B : List Bool) : List Cube := (List.range B.length).flatMap (edgeCube v B)

variable {B : List Bool} {v : Bool}

lemma mem_edgeCubes {c : Cube} :
    c ∈ edgeCubes v B ↔ ∃ p, ∃ h : p < B.length, B[p] = v ∧ c = prefixCube (B.take p ++ [!v]) := by
  simp only [edgeCubes, mem_flatMap, mem_range, edgeCube]
  constructor
  · rintro ⟨i, hi, hc⟩
    have hp : B.length - 1 - i < B.length := by omega
    rw [getElem?_eq_getElem hp] at hc
    split at hc
    · next hv => exact ⟨_, hp, some.inj hv, mem_singleton.mp hc⟩
    · simp at hc
  · rintro ⟨p, hp, hv, rfl⟩
    have hback : B.length - 1 - (B.length - 1 - p) = p := by omega
    refine ⟨B.length - 1 - p, by omega, ?_⟩
    rw [hback, getElem?_eq_getElem hp, hv, if_pos rfl]
    exact mem_singleton_self _

/-- The string flips a bit of `B` with value `v` and agrees with `B` before it. -/
def FlipsBit (v : Bool) (B : List Bool) (s : BitString) : Prop :=
  ∃ p, ∃ h : p < B.length, B[p] = v ∧ BitString.StartsWith (B.take p ++ [!v]) s

variable {s : BitString} {l : List Bool}

lemma exists_edgeCubes_matches_iff : (∃ c ∈ edgeCubes v B, Cube.Matches c s) ↔ FlipsBit v B s := by
  constructor
  · rintro ⟨c, hc, hs⟩
    obtain ⟨p, hp, hv, rfl⟩ := mem_edgeCubes.mp hc
    exact ⟨p, hp, hv, (prefixCube_matches_iff _ _).mp hs⟩
  · rintro ⟨p, hp, hv, hs⟩
    exact ⟨_, mem_edgeCubes.mpr ⟨p, hp, hv, rfl⟩, (prefixCube_matches_iff _ _).mpr hs⟩

lemma not_flipsBit_nil (v : Bool) (s : BitString) : ¬ FlipsBit v [] s := by
  rintro ⟨p, hp, -⟩
  simp at hp

lemma flipsBit_cons {b : Bool} :
    FlipsBit v (b :: B) s ↔ (b = v ∧ s.bit 0 = !v) ∨ (s.bit 0 = b ∧ FlipsBit v B s.tail) := by
  constructor
  · rintro ⟨p, hp, hv, hs⟩
    cases p with
    | zero => exact Or.inl ⟨hv, hs.1⟩
    | succ p => exact Or.inr ⟨hs.1, p, by simpa using hp, hv, hs.2⟩
  · rintro (⟨hv, hs⟩ | ⟨hb, p, hp, hv, hs⟩)
    · exact ⟨0, by simp, hv, hs, trivial⟩
    · exact ⟨p + 1, by simpa using hp, hv, hb, hs⟩

/-- The strings below a zero-padded string are those that flip one of its ones. -/
lemma flipsBit_true_iff : FlipsBit true B s ↔ s < pad B := by
  induction B generalizing s with
  | nil =>
    refine iff_of_false (not_flipsBit_nil true s) ?_
    rw [not_lt]
    exact pad_nil_le s
  | cons b B ih =>
    rw [flipsBit_cons, ih, lt_iff_head_tail (s := s)]
    cases b <;> cases s.bit 0 <;> simp

/-- The strings above everything that starts with `B` are those that flip one of its zeros. -/
lemma flipsBit_false_iff : FlipsBit false B s ↔ pad B < s ∧ ¬ StartsWith B s := by
  induction B generalizing s with
  | nil =>
    refine iff_of_false (not_flipsBit_nil false s) ?_
    rintro ⟨-, h⟩
    exact h trivial
  | cons b B ih =>
    rw [flipsBit_cons, ih, lt_iff_head_tail (t := s), StartsWith]
    cases b <;> cases s.bit 0 <;> simp

lemma not_replicate_true_lt {n : ℕ} (h : l.length ≤ n) : ¬ replicate n true < l := by
  induction n generalizing l with
  | zero =>
    rw [eq_nil_of_length_eq_zero (Nat.le_zero.mp h)]
    simp
  | succ n ih =>
    cases l with
    | nil => simp
    | cons b l =>
      rw [replicate_succ, cons_lt_cons_iff]
      have hl := ih (by simpa using h)
      cases b <;> simp [hl]

lemma not_lt_replicate_false {n : ℕ} (h : n ≤ l.length) : ¬ l < replicate n false := by
  induction n generalizing l with
  | zero => simp
  | succ n ih =>
    cases l with
    | nil => simp at h
    | cons b l =>
      rw [replicate_succ, cons_lt_cons_iff]
      have hl := ih (by simpa using h)
      cases b <;> simp [hl]

variable {p : ℕ} {T : BitTree Leaf} {t : FilterTree}

lemma take_append_cons_drop (h : p < B.length) : B = B.take p ++ B[p] :: B.drop (p + 1) := by
  rw [← drop_eq_getElem_cons h, take_append_drop]

/-- The comparison in `filter_below` asks whether the bit is one. -/
lemma clear_ones_lt_iff (h : p < B.length) :
    B.take p ++ false :: replicate (B.length - 1 - p) true < B ↔ B[p] = true := by
  conv_lhs => rhs; rw [take_append_cons_drop h]
  rw [append_lt_append_iff rfl, cons_lt_cons_iff]
  have hrest := not_replicate_true_lt (n := B.length - 1 - p) (l := B.drop (p + 1))
    (by rw [length_drop]; omega)
  cases B[p] <;> simp [hrest]

/-- The comparison in `filter_above` asks whether the bit is zero. -/
lemma lt_set_zeros_iff (h : p < B.length) :
    B < B.take p ++ true :: replicate (B.length - 1 - p) false ↔ B[p] = false := by
  conv_lhs => lhs; rw [take_append_cons_drop h]
  rw [append_lt_append_iff rfl, cons_lt_cons_iff]
  have hrest := not_lt_replicate_false (n := B.length - 1 - p) (l := B.drop (p + 1))
    (by rw [length_drop]; omega)
  cases B[p] <;> simp [hrest]

/-- Replacing bit `i` from the right and everything after it. -/
lemma replaceFrom_spec (x : Instruction) (h : i < x.bitLen) (bit : Bool) :
    ∃ y, x.withNthBitFromRight i bit = .ok y ∧ ∀ fill, ∃ z, y.withRightmostBits i fill = .ok z ∧
      z.bits = x.bits.take (x.bitLen - 1 - i) ++ bit :: replicate i fill := by
  refine ⟨_, withNthBitFromRight_eq bit h, fun fill => ?_⟩
  obtain ⟨z, hz, hbits⟩ := (x.setBitAt (x.bitLen - 1 - i) bit).withRightmostBits_spec fill i
    (by rw [bitLen_setBitAt]; omega)
  refine ⟨z, hz, ?_⟩
  rw [hbits, bits_setBitAt, bitLen_setBitAt,
    show x.bitLen - i = (x.bitLen - 1 - i) + 1 by omega,
    take_succ_eq_append_getElem (by rw [length_set, length_bits]; omega),
    getElem_set_self, take_set_of_le le_rfl]
  simp

/-- Inserting the filter of a flipped bit. -/
lemma filter_prefixFilter_spec (hvalid : Valid t T)
    {x : Instruction} (hbits : x.bits = pre ++ replicate i false) (hpre : pre ≠ []) :
    Ensures (prefixFilter x i >>= fun f => t.filter f) OnlyU40 fun t' =>
      Valid t' (insert .skip (prefixCube pre) T) := by
  obtain ⟨f, hf, hlen, hcube⟩ := prefixFilter_spec hbits
  refine Ensures.bind_ok hf ?_
  rw [← realCube_eq_prefixCube hcube hpre]
  refine filter_spec hvalid ?_
  rw [← length_pos_iff]
  have h := congrArg length hbits
  rw [length_bits, bitLen, length_append] at h
  have := length_pos_iff.mpr hpre
  omega

/-- A loop whose iteration `i` inserts the cubes `g i`. -/
lemma foldlM_insertAll_spec {step : FilterTree → ℕ → Partial FilterTree} {g : ℕ → List Cube}
    {l : List ℕ} (hstep : ∀ i ∈ l, ∀ {t : FilterTree} {T : BitTree Leaf}, Valid t T →
      Ensures (step t i) OnlyU40 fun t' => Valid t' (insertAll .skip (g i) T))
    (hvalid : Valid t T) :
    Ensures (l.foldlM step t) OnlyU40 fun t' => Valid t' (insertAll .skip (l.flatMap g) T) := by
  induction l generalizing t T with
  | nil => exact hvalid
  | cons i l ih =>
    rw [flatMap_cons]
    refine (hstep i (by simp) hvalid).bind fun t' ht' => ?_
    rw [insertAll_append]
    exact ih (fun i hi => hstep i (by simp [hi])) ht'

lemma filterBelowBit_spec (hvalid : Valid t T) (below : Instruction) (hi : i < below.bitLen) :
    Ensures (filterBelowBit below t i) OnlyU40 fun t' =>
      Valid t' (insertAll .skip (edgeCube true below.bits i) T) := by
  obtain ⟨y, hy, hfill⟩ := replaceFrom_spec below hi false
  obtain ⟨instr0, h0, hbits0⟩ := hfill false
  obtain ⟨instr1, h1, hbits1⟩ := hfill true
  have hp : below.bits.length - 1 - i < below.bits.length := by
    rw [length_bits]
    omega
  have hlt : instr1 < below ↔ below.bits[below.bits.length - 1 - i] = true := by
    rw [lt_iff_bits_lt, hbits1, ← clear_ones_lt_iff hp, length_bits,
      show below.bitLen - 1 - (below.bitLen - 1 - i) = i by omega]
  simp only [filterBelowBit, hy, h0, h1, ok_bind, edgeCube, getElem?_eq_getElem hp,
    some.injEq, ← hlt]
  by_cases hbit : instr1 < below
  · simp only [if_pos hbit]
    refine filter_prefixFilter_spec hvalid ?_ (by simp)
    rw [hbits0]
    simp
  · simp only [if_neg hbit]
    exact hvalid

/-- `filter_below` inserts the flipped ones. -/
lemma filterBelow_spec (hvalid : Valid t T) (below : Instruction) :
    Ensures (t.filterBelow below) OnlyU40 fun t' =>
      Valid t' (insertAll .skip (edgeCubes true below.bits) T) := by
  rw [edgeCubes, length_bits]
  refine foldlM_insertAll_spec (fun i hi t T hvalid => ?_) hvalid
  exact filterBelowBit_spec hvalid below (mem_range.mp hi)

lemma filterAboveBit_spec (hvalid : Valid t T) (start : Instruction) (hi : i < start.bitLen) :
    Ensures (filterAboveBit start t i) OnlyU40 fun t' =>
      Valid t' (insertAll .skip (edgeCube false start.bits i) T) := by
  obtain ⟨y, hy, hfill⟩ := replaceFrom_spec start hi true
  obtain ⟨instr0, h0, hbits0⟩ := hfill false
  have hp : start.bits.length - 1 - i < start.bits.length := by
    rw [length_bits]
    omega
  have hlt : start < instr0 ↔ start.bits[start.bits.length - 1 - i] = false := by
    rw [lt_iff_bits_lt, hbits0, ← lt_set_zeros_iff hp, length_bits,
      show start.bitLen - 1 - (start.bitLen - 1 - i) = i by omega]
  simp only [filterAboveBit, hy, h0, ok_bind, edgeCube, getElem?_eq_getElem hp, some.injEq, ← hlt]
  by_cases hbit : start < instr0
  · simp only [if_pos hbit]
    refine filter_prefixFilter_spec hvalid ?_ (by simp)
    rw [hbits0]
    simp
  · simp only [if_neg hbit]
    exact hvalid

/-- `filter_above` inserts the flipped zeros. -/
lemma filterAbove_spec (hvalid : Valid t T) (start : Instruction) :
    Ensures (t.filterAbove start) OnlyU40 fun t' =>
      Valid t' (insertAll .skip (edgeCubes false start.bits) T) := by
  rw [edgeCubes, length_bits]
  refine foldlM_insertAll_spec (fun i hi t T hvalid => ?_) hvalid
  exact filterAboveBit_spec hvalid start (mem_range.mp hi)

end LibLisa.FilterTree
