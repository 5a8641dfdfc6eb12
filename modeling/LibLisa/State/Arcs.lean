import LibLisa.State.Addr
import Mathlib.Data.Nat.ModEq

/-!
# Areas as arcs

An area is the arc of the `size` addresses from its start on, modulo `2 ^ 64` (`Area.Reaches`).
`contains` tells the addresses of the arc. Two arcs have an address in common when one has the start
of the other (`exists_reaches_iff`), which is what `overlaps_with` finds, also when it moves the arcs.
The pages of an area are the pages of its expansion (`expandToPage_reaches`).
-/

namespace LibLisa.State.Area

open Lib

/-- Source: `state/addr.rs`, `Area::contains` -/
def contains : ℕ → Area → U64 → Partial Bool
  | 0, _, _ => .error .outOfFuel
  | fuel + 1, a, addr =>
    match checkedAdd a.addr a.size with
    | some endAddr => .ok (decide (0 < a.size) && decide (a.addr ≤ addr) && decide (addr < endAddr))
    | none => do
      let offset ← subU64 a.size (a.addr + a.size)
      contains fuel (a.offset offset) (addr + offset)

/-- The address is reached from the start by counting up fewer steps than the size. -/
def Reaches (a : Area) (addr : U64) : Prop :=
  ∃ n < a.size.toNat, addr = a.addr + BitVec.ofNat 64 n

variable {a b : Area} {s t n m : U64}

lemma reaches_iff {x : U64} : Reaches ⟨s, n⟩ x ↔ (x - s).toNat < n.toNat := by
  constructor
  · rintro ⟨j, hj, rfl⟩
    bv_omega
  · intro h
    exact ⟨_, h, by bv_omega⟩

lemma offset_zero_sub (s t n : U64) : offset ⟨t, n⟩ (0 - s) = ⟨t - s, n⟩ := by
  rw [offset, Area.mk.injEq]
  exact ⟨by bv_omega, rfl⟩

lemma contains_of_lt (h : s.toNat + n.toNat < 2 ^ 64) (fuel : ℕ) (x : U64) :
    ∃ r, contains (fuel + 1) ⟨s, n⟩ x = .ok r ∧ (r = true ↔ Reaches ⟨s, n⟩ x) := by
  refine ⟨_, by rw [contains, checkedAdd, if_pos h], ?_⟩
  simp only [reaches_iff, Bool.and_eq_true, decide_eq_true_iff]
  bv_omega

lemma contains_iff (a : Area) (fuel : ℕ) (x : U64) :
    ∃ r, contains (fuel + 2) a x = .ok r ∧ (r = true ↔ a.Reaches x) := by
  obtain ⟨s, n⟩ := a
  by_cases h : s.toNat + n.toNat < 2 ^ 64
  · exact contains_of_lt h _ x
  · have hoff : n - (s + n) = 0 - s := by bv_omega
    obtain ⟨r, hr, hiff⟩ := contains_of_lt (s := s - s) (n := n) (by bv_omega) fuel (x + (0 - s))
    refine ⟨r, ?_, hiff.trans ?_⟩
    · rw [contains, checkedAdd, if_neg h, subU64, if_pos (by bv_omega), hoff, ← hr, ← offset_zero_sub]
      rfl
    · rw [reaches_iff, reaches_iff]
      bv_omega

section overlap

variable (hn : 0 < n.toNat) (hm : 0 < m.toNat)

include hn hm in
/-- Two arcs meet exactly if one of them has the start of the other. -/
lemma exists_reaches_iff : (∃ x, Reaches ⟨s, n⟩ x ∧ Reaches ⟨t, m⟩ x) ↔
    (t - s).toNat < n.toNat ∨ (s - t).toNat < m.toNat := by
  simp only [reaches_iff]
  constructor
  · rintro ⟨x, hs, ht⟩
    bv_omega
  · rintro (h | h)
    · exact ⟨t, h, by bv_omega⟩
    · exact ⟨s, by bv_omega, h⟩

include hn in
/-- The comparison of areas that are moved so that the first starts at zero. -/
lemma moved_iff (h : (t - s).toNat + (m.toNat - 1) < 2 ^ 64) :
    (decide (s - s ≤ t - s + (m - 1)) && decide (t - s ≤ s - s + (n - 1))) = true ↔
      (t - s).toNat < n.toNat ∨ (s - t).toNat < m.toNat := by
  have hsub : s - t = 0 - (t - s) := by bv_omega
  rw [BitVec.sub_self, hsub, Bool.and_eq_true, decide_eq_true_iff, decide_eq_true_iff]
  generalize t - s = d at *
  bv_omega

lemma overlapsWith_iff (hn : 0 < a.size.toNat) (hm : 0 < b.size.toNat)
    (hsum : a.size.toNat + b.size.toNat ≤ 2 ^ 64) :
    ∃ r, a.overlapsWith b = .ok r ∧ (r = true ↔ ∃ x, a.Reaches x ∧ b.Reaches x) := by
  obtain ⟨s, n⟩ := a
  obtain ⟨t, m⟩ := b
  dsimp only at hn hm hsum
  rw [exists_reaches_iff hn hm]
  unfold overlapsWith
  rw [lastAddr_eq hn, lastAddr_eq hm, ok_bind, ok_bind]
  split_ifs with hs ht ht
  · refine ⟨_, rfl, ?_⟩
    simp only [Bool.and_eq_true, decide_eq_true_iff]
    bv_omega
  rotate_right
  · exact ⟨true, rfl, by simp only [true_iff]; bv_omega⟩
  -- One of the areas wraps around.
  all_goals
    dsimp only
    rw [offset_zero_sub, lastAddr_eq hm, ok_bind]
    split_ifs with hmove
    · dsimp only
      rw [pure_bind, offset_zero_sub, offset_zero_sub, lastAddr_eq hn, lastAddr_eq hm, if_pos hmove,
        if_pos (by bv_omega)]
      exact ⟨_, rfl, moved_iff hn hmove⟩
    · have hmove' : (s - t).toNat + (n.toNat - 1) < 2 ^ 64 := by bv_omega
      dsimp only
      rw [pure_bind, offset_zero_sub, offset_zero_sub, lastAddr_eq hn, lastAddr_eq hm, if_pos hmove',
        if_pos (by bv_omega)]
      exact ⟨_, rfl, by rw [Bool.and_comm, or_comm]; exact moved_iff hm hmove'⟩

end overlap

/-! ## Pages -/

variable {pageBits : PageBits}

/-- Pages may be counted from the page of any address. -/
lemma page_eq_iff (s x y : U64) : Page.ofAddr pageBits x = Page.ofAddr pageBits y ↔
    (x - alignToPageStart pageBits s).toNat / 2 ^ pageBits.val =
      (y - alignToPageStart pageBits s).toNat / 2 ^ pageBits.val := by
  have hpage : ∀ x : U64, (x >>> pageBits.val).toNat = (s.toNat / 2 ^ pageBits.val +
      (x - alignToPageStart pageBits s).toNat / 2 ^ pageBits.val) % 2 ^ (64 - pageBits.val) := by
    intro x
    conv_lhs => rw [← BitVec.sub_add_cancel x (alignToPageStart pageBits s)]
    rw [BitVec.toNat_ushiftRight, Nat.shiftRight_eq_div_pow, BitVec.toNat_add,
      toNat_alignToPageStart, ← Nat.pow_sub_mul_pow 2 pageBits.isLt.le, Nat.mod_mul_left_div_self,
      Nat.add_mul_div_right _ _ (Nat.two_pow_pos _), add_comm]
  rw [Page.ofAddr, Page.ofAddr, Page.mk.injEq, ← BitVec.toNat_inj, hpage, hpage]
  constructor
  · intro h
    exact (Nat.ModEq.add_left_cancel' _ h).eq_of_lt_of_lt (pageIndex_lt _ _) (pageIndex_lt _ _)
  · intro h
    rw [h]

/-- The expanded area has the addresses on the pages of the area. -/
lemma expandToPage_reaches (hbits : pageBits.val ≤ 62) (hn : 0 < a.size.toNat)
    (hle : a.size.toNat ≤ 2 ^ 62) :
    ∃ a', a.expandToPage pageBits = .ok a' ∧ 0 < a'.size.toNat ∧ a'.size.toNat ≤ 2 ^ 63 ∧
      ∀ x, a'.Reaches x ↔ ∃ y, a.Reaches y ∧ Page.ofAddr pageBits y = Page.ofAddr pageBits x := by
  obtain ⟨s, n⟩ := a
  dsimp only at hn hle
  have hP : 0 < 2 ^ pageBits.val := Nat.two_pow_pos _
  have hsplit := Nat.pow_sub_mul_pow 2 hbits
  have hPle : 2 ^ pageBits.val ≤ 2 ^ 62 := Nat.pow_le_pow_right (by decide) hbits
  have hmod := Nat.mod_lt s.toNat hP
  obtain ⟨size, hok, hsize⟩ := exists_expandToPage pageBits s n (by omega)
  generalize hk : (n.toNat + s.toNat % 2 ^ pageBits.val + (2 ^ pageBits.val - 1)) /
    2 ^ pageBits.val = k at hsize
  rw [Nat.div_eq_iff hP] at hk
  refine ⟨_, hok, (by omega : 0 < size.toNat), (?_ : size.toNat ≤ 2 ^ 63), fun x => ?_⟩
  · have hlt : k < 2 ^ (62 - pageBits.val) + 2 := by
      refine Nat.lt_of_mul_lt_mul_right (a := 2 ^ pageBits.val) ?_
      rw [Nat.add_mul, hsplit]
      omega
    have hmul := Nat.mul_le_mul_right (2 ^ pageBits.val) (Nat.le_of_lt_succ hlt)
    rw [Nat.succ_mul, hsplit] at hmul
    omega
  have hdist : ∀ j < n.toNat, (s + BitVec.ofNat 64 j - alignToPageStart pageBits s).toNat =
      s.toNat % 2 ^ pageBits.val + j := by
    intro j hj
    have hstart : (alignToPageStart pageBits s).toNat = _ := toNat_alignToPageStart s
    have hdiv := Nat.div_add_mod' s.toNat (2 ^ pageBits.val)
    bv_omega
  rw [reaches_iff, hsize, ← Nat.div_lt_iff_lt_mul hP]
  constructor
  · intro h
    have hmul := Nat.mul_le_mul_right (2 ^ pageBits.val) h
    rw [Nat.succ_mul] at hmul
    -- The first address of the area on the page.
    have hj : (x - alignToPageStart pageBits s).toNat / 2 ^ pageBits.val * 2 ^ pageBits.val -
        s.toNat % 2 ^ pageBits.val < n.toNat := by omega
    refine ⟨_, ⟨_, hj, rfl⟩, (page_eq_iff s _ _).mpr ?_⟩
    rw [hdist _ hj, Nat.div_eq_iff hP]
    omega
  · rintro ⟨_, ⟨j, (hj : j < n.toNat), rfl⟩, hpage⟩
    rw [← (page_eq_iff s _ _).mp hpage, hdist j hj, Nat.div_lt_iff_lt_mul hP]
    omega

/-- Areas behave as arcs: what they contain, and when they have an address or a page in common. -/
theorem area_isArc (a b : Area) (ha : 0 < a.size.toNat) (hb : 0 < b.size.toNat)
    (ha' : a.size.toNat < 2 ^ 63) (hb' : b.size.toNat < 2 ^ 63) (fuel : ℕ) :
    (∀ x, ∃ r, contains (fuel + 2) a x = .ok r ∧ (r = true ↔ a.Reaches x)) ∧
    (∃ r, a.overlapsWith b = .ok r ∧ (r = true ↔ ∃ x, a.Reaches x ∧ b.Reaches x)) ∧
    ∀ pageBits : PageBits, pageBits.val ≤ 62 → a.size.toNat ≤ 2 ^ 62 → b.size.toNat ≤ 2 ^ 62 →
      ∃ r, a.sharesPageWith pageBits b = .ok r ∧ (r = true ↔ ∃ x y, a.Reaches x ∧ b.Reaches y ∧
        Page.ofAddr pageBits x = Page.ofAddr pageBits y) := by
  refine ⟨contains_iff a fuel, overlapsWith_iff ha hb (by omega), fun pageBits hbits hale hble => ?_⟩
  obtain ⟨a', ha, hpos, hle, hreach⟩ := expandToPage_reaches hbits ha hale
  obtain ⟨b', hb, hpos', hle', hreach'⟩ := expandToPage_reaches hbits hb hble
  obtain ⟨r, hr, hiff⟩ := overlapsWith_iff hpos hpos' (by omega)
  refine ⟨r, by rw [sharesPageWith, ha, ok_bind, hb, ok_bind, hr], hiff.trans ?_⟩
  simp only [hreach, hreach']
  constructor
  · rintro ⟨x, ⟨y, hy, hpage⟩, z, hz, hpage'⟩
    exact ⟨y, z, hy, hz, hpage.trans hpage'.symm⟩
  · rintro ⟨x, y, hx, hy, hpage⟩
    exact ⟨y, ⟨x, hx, hpage⟩, y, hy, rfl⟩

/-- An area that wraps around, and one that lies behind it on its second page. -/
theorem area_isArc_wrapping :
    ∃ r, sharesPageWith 12 ⟨-4, 8⟩ ⟨10, 2⟩ = .ok r ∧ (r = true ↔ ∃ x y, Reaches ⟨-4, 8⟩ x ∧
      Reaches ⟨10, 2⟩ y ∧ Page.ofAddr 12 x = Page.ofAddr 12 y) :=
  (area_isArc ⟨-4, 8⟩ ⟨10, 2⟩ (by decide) (by decide) (by decide) (by decide) 0).2.2 12 (by decide)
    (by decide) (by decide)

end LibLisa.State.Area
