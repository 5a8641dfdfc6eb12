import LibLisa.Panic
import Mathlib.Algebra.Group.Nat.Even

/-!
# Areas of memory

An area starts at an address and has a size, and may wrap around the end of the address space. The
comparisons of areas allow for that. `InPage` is the case that matters for a mapping: an area that
lies within one page does not wrap, and for such areas `overlapsWith` and `sharesPageWith` are
comparisons of natural numbers.

Where no file is given, the source is `state/addr.rs`.
-/

namespace LibLisa.State

open Lib BitVec

/-- A sum of the source, which panics if it overflows. -/
def addU64 (a b : U64) : Partial U64 :=
  if a.toNat + b.toNat < 2 ^ 64 then .ok (a + b) else .error .arithmeticOverflow

/-- A difference of the source, which panics if it is negative. -/
def subU64 (a b : U64) : Partial U64 :=
  if b.toNat ≤ a.toNat then .ok (a - b) else .error .arithmeticOverflow

/-- `u64::checked_add` of the standard library -/
def checkedAdd (a b : U64) : Option U64 :=
  if a.toNat + b.toNat < 2 ^ 64 then some (a + b) else none

/-- The number of bits of an offset in a page. A shift by 64 or more overflows.
Source: `arch/mod.rs`, `Arch::PAGE_BITS` -/
abbrev PageBits := Fin 64

/-- The size of a page, `1 << A::PAGE_BITS` -/
def pageSize (pageBits : PageBits) : U64 := (1 : U64) <<< pageBits.val

/-- Source: `Addr::align_to_page_start` -/
def alignToPageStart (pageBits : PageBits) (addr : U64) : U64 :=
  (addr >>> pageBits.val) <<< pageBits.val

/-- Source: `Page` -/
structure Page where
  index : U64
deriving DecidableEq, Repr

namespace Page

/-- Source: `Addr::page` -/
def ofAddr (pageBits : PageBits) (addr : U64) : Page := ⟨addr >>> pageBits.val⟩

/-- Source: `Page::start_addr` -/
def startAddr (pageBits : PageBits) (p : Page) : U64 := p.index <<< pageBits.val

/-- Source: `Page::last_address_of_page` -/
def lastAddressOfPage (pageBits : PageBits) (p : Page) : U64 :=
  (p.index <<< pageBits.val) ||| (pageSize pageBits - 1)

/-- Source: `Page::first_address_after_page` -/
def firstAddressAfterPage (pageBits : PageBits) (p : Page) : Partial U64 := do
  return (← addU64 p.index 1) <<< pageBits.val

end Page

/-- Source: `Area` -/
structure Area where
  addr : U64
  size : U64
deriving DecidableEq, Repr

namespace Area

/-- Source: `Area::offset` -/
def offset (a : Area) (offset : U64) : Area := ⟨a.addr + offset, a.size⟩

/-- Source: `Area::end_addr` -/
def endAddr (a : Area) : Partial U64 := do
  return a.addr + (← subU64 a.size 1)

/-- Source: `Area::crosses_page_bounds` -/
def crossesPageBounds (pageBits : PageBits) (a : Area) : Partial Bool := do
  return a.addr >>> pageBits.val != (← a.endAddr) >>> pageBits.val

/-- Source: `Area::expand_to_page` -/
def expandToPage (pageBits : PageBits) (a : Area) : Partial Area := do
  let addr := alignToPageStart pageBits a.addr
  let newSize ← addU64 a.size (a.addr - addr)
  let size ← addU64 newSize (pageSize pageBits - 1)
  return ⟨addr, (size >>> pageBits.val) <<< pageBits.val⟩

/-- Source: `Area::last_addr` -/
def lastAddr (a : Area) : Partial (Option U64) := do
  return checkedAdd a.addr (← subU64 a.size 1)

/-- Source: `Area::overlaps_with` -/
def overlapsWith (a other : Area) : Partial Bool := do
  match ← a.lastAddr, ← other.lastAddr with
  | some last, some otherLast => return decide (a.addr ≤ otherLast) && decide (other.addr ≤ last)
  | none, none => return true
  | _, _ => do
    -- One of the areas wraps around. Both are moved so that one of them starts at zero.
    let offset ← match ← (other.offset (0 - a.addr)).lastAddr with
      | some _ => pure (0 - a.addr)
      | none => pure (0 - other.addr)
    let newSelf := a.offset offset
    let newOther := other.offset offset
    let last ← orPanic .assertionFailed (← newSelf.lastAddr)
    let otherLast ← orPanic .assertionFailed (← newOther.lastAddr)
    return decide (newSelf.addr ≤ otherLast) && decide (newOther.addr ≤ last)

/-- Source: `Area::shares_page_with` -/
def sharesPageWith (pageBits : PageBits) (a other : Area) : Partial Bool := do
  (← a.expandToPage pageBits).overlapsWith (← other.expandToPage pageBits)

end Area

/-! ## Areas within a page -/

/-- The area is not empty and lies on one page. -/
structure Area.InPage (pageBits : PageBits) (a : Area) : Prop where
  size_pos : 0 < a.size.toNat
  le_page : a.addr.toNat % 2 ^ pageBits.val + a.size.toNat ≤ 2 ^ pageBits.val

lemma pow_pageBits_le (pageBits : PageBits) : 2 ^ pageBits.val ≤ 2 ^ 63 :=
  Nat.pow_le_pow_right (by decide) (Nat.le_of_lt_succ pageBits.isLt)

lemma pageIndex_lt (pageBits : PageBits) (a : U64) :
    a.toNat / 2 ^ pageBits.val < 2 ^ (64 - pageBits.val) := by
  rw [Nat.div_lt_iff_lt_mul (Nat.two_pow_pos _), Nat.pow_sub_mul_pow 2 Fin.is_le']
  exact a.isLt

/-- A page ends within the address space. -/
lemma page_end_le (pageBits : PageBits) (a : U64) :
    a.toNat / 2 ^ pageBits.val * 2 ^ pageBits.val + 2 ^ pageBits.val ≤ 2 ^ 64 := by
  have hle := Nat.mul_le_mul_right (2 ^ pageBits.val) (pageIndex_lt pageBits a)
  rwa [Nat.pow_sub_mul_pow 2 Fin.is_le', Nat.succ_mul] at hle

namespace Area

variable {pageBits : PageBits} {a b : Area} {x : U64}

lemma InPage.end_le (h : a.InPage pageBits) : a.addr.toNat + a.size.toNat ≤ 2 ^ 64 := by
  have hpage := page_end_le pageBits a.addr
  have hdiv := Nat.div_add_mod' a.addr.toNat (2 ^ pageBits.val)
  have hle := h.le_page
  omega

lemma toNat_sub_one (h : 0 < x.toNat) : (x - 1).toNat = x.toNat - 1 := by
  rw [toNat_sub]
  have hone : (1 : U64).toNat = 1 := rfl
  omega

lemma subU64_one (h : 0 < x.toNat) : subU64 x 1 = .ok (x - 1) := if_pos h

/-- An area of at most the size of a page that does not cross a page boundary. -/
lemma inPage_of_crossesPageBounds (hsize : a.size.toNat ≤ 2 ^ pageBits.val)
    (h : a.crossesPageBounds pageBits = .ok false) : a.InPage pageBits := by
  obtain ⟨last, hlast, h⟩ := ok_of_bind h
  obtain ⟨n, hn, rfl⟩ := ok_of_bind_ok hlast
  have hpos : 0 < a.size.toNat := by
    by_contra hnot
    unfold subU64 at hn
    rw [if_neg (by exact hnot)] at hn
    cases hn
  rw [subU64_one hpos] at hn
  obtain rfl := Except.ok.inj hn
  have heq : a.addr >>> pageBits.val = (a.addr + (a.size - 1)) >>> pageBits.val := by
    simpa using Except.ok.inj h
  have hdiv := congrArg BitVec.toNat heq
  rw [BitVec.toNat_ushiftRight, BitVec.toNat_ushiftRight, Nat.shiftRight_eq_div_pow,
    Nat.shiftRight_eq_div_pow, toNat_add, toNat_sub_one hpos] at hdiv
  have hP : 0 < 2 ^ pageBits.val := Nat.two_pow_pos _
  have hle := pow_pageBits_le pageBits
  refine ⟨hpos, ?_⟩
  rcases Nat.lt_or_ge (a.addr.toNat + (a.size.toNat - 1)) (2 ^ 64) with hlt | hge
  · rw [Nat.mod_eq_of_lt hlt] at hdiv
    have h₁ := Nat.div_add_mod' a.addr.toNat (2 ^ pageBits.val)
    have h₂ := Nat.div_add_mod' (a.addr.toNat + (a.size.toNat - 1)) (2 ^ pageBits.val)
    rw [← hdiv] at h₂
    omega
  · -- An area that wraps around would have to end on the first page.
    have hmod : (a.addr.toNat + (a.size.toNat - 1)) % 2 ^ 64 =
        a.addr.toNat + (a.size.toNat - 1) - 2 ^ 64 := by
      rw [Nat.mod_eq_sub_mod hge]
      exact Nat.mod_eq_of_lt (by omega)
    have hzero : (a.addr.toNat + (a.size.toNat - 1) - 2 ^ 64) / 2 ^ pageBits.val = 0 :=
      Nat.div_eq_of_lt (by omega)
    rw [hmod, hzero, Nat.div_eq_zero_iff_lt hP] at hdiv
    omega

lemma lastAddr_eq {s n : U64} (hn : 0 < n.toNat) : lastAddr ⟨s, n⟩ =
    .ok (if s.toNat + (n.toNat - 1) < 2 ^ 64 then some (s + (n - 1)) else none) := by
  rw [lastAddr, subU64_one hn, ok_bind, checkedAdd, toNat_sub_one hn]
  rfl

lemma InPage.lastAddr (h : a.InPage pageBits) :
    a.lastAddr = .ok (some (a.addr + (a.size - 1))) := by
  have := h.end_le
  rw [lastAddr_eq h.size_pos, if_pos (by omega)]

lemma InPage.toNat_last (h : a.InPage pageBits) :
    (a.addr + (a.size - 1)).toNat = a.addr.toNat + a.size.toNat - 1 := by
  have hend := h.end_le
  have hpos := h.size_pos
  rw [toNat_add, toNat_sub_one hpos]
  omega

/-- The areas have an address in common. -/
def Overlap (a b : Area) : Prop :=
  a.addr.toNat < b.addr.toNat + b.size.toNat ∧ b.addr.toNat < a.addr.toNat + a.size.toNat

instance (a b : Area) : Decidable (Overlap a b) := by
  unfold Overlap
  infer_instance

lemma InPage.overlapsWith {pageBits' : PageBits} (ha : a.InPage pageBits)
    (hb : b.InPage pageBits') : a.overlapsWith b = .ok (decide (Overlap a b)) := by
  unfold Area.overlapsWith
  rw [ha.lastAddr, hb.lastAddr]
  have hapos := ha.size_pos
  have hbpos := hb.size_pos
  show Except.ok _ = _
  congr 1
  rw [← Bool.decide_and]
  apply decide_eq_decide.mpr
  unfold Overlap
  rw [le_def, le_def, ha.toNat_last, hb.toNat_last]
  omega

lemma toNat_alignToPageStart (x : U64) :
    (alignToPageStart pageBits x).toNat = x.toNat / 2 ^ pageBits.val * 2 ^ pageBits.val := by
  have hpage := page_end_le pageBits x
  have hP : 0 < 2 ^ pageBits.val := Nat.two_pow_pos _
  unfold alignToPageStart
  rw [toNat_shiftLeft, toNat_ushiftRight, Nat.shiftRight_eq_div_pow,
    Nat.shiftLeft_eq, Nat.mod_eq_of_lt (by omega)]

lemma toNat_pageSize : (pageSize pageBits).toNat = 2 ^ pageBits.val := by
  have hle := pow_pageBits_le pageBits
  rw [pageSize, toNat_shiftLeft, Nat.shiftLeft_eq]
  show 1 * 2 ^ pageBits.val % 2 ^ 64 = _
  rw [one_mul, Nat.mod_eq_of_lt (by omega)]

/-- The whole pages that an area lies on. -/
lemma exists_expandToPage (pageBits : PageBits) (s n : U64)
    (hfit : n.toNat + s.toNat % 2 ^ pageBits.val + (2 ^ pageBits.val - 1) < 2 ^ 64) :
    ∃ size, expandToPage pageBits ⟨s, n⟩ = .ok ⟨alignToPageStart pageBits s, size⟩ ∧
      size.toNat = (n.toNat + s.toNat % 2 ^ pageBits.val + (2 ^ pageBits.val - 1)) /
        2 ^ pageBits.val * 2 ^ pageBits.val := by
  have hdiv := Nat.div_add_mod' s.toNat (2 ^ pageBits.val)
  -- The distance to the start of the page.
  have hsub : (s - alignToPageStart pageBits s).toNat = s.toNat % 2 ^ pageBits.val := by
    rw [toNat_sub, toNat_alignToPageStart]
    omega
  have hmask : (pageSize pageBits - 1).toNat = 2 ^ pageBits.val - 1 := by
    rw [toNat_sub_one, toNat_pageSize]
    rw [toNat_pageSize]
    exact Nat.two_pow_pos _
  have hsum : (n + (s - alignToPageStart pageBits s)).toNat =
      n.toNat + s.toNat % 2 ^ pageBits.val := by
    rw [toNat_add, hsub, Nat.mod_eq_of_lt (by omega)]
  refine ⟨alignToPageStart pageBits (n + (s - alignToPageStart pageBits s) + (pageSize pageBits - 1)),
    ?_, ?_⟩
  · unfold Area.expandToPage addU64
    dsimp only
    rw [if_pos (by omega), ok_bind, if_pos (by omega), ok_bind]
    rfl
  · rw [toNat_alignToPageStart, toNat_add, hsum, hmask, Nat.mod_eq_of_lt (by omega)]

/-- The page of an area that lies on one page. -/
lemma InPage.expandToPage (h : a.InPage pageBits) :
    a.expandToPage pageBits = .ok ⟨alignToPageStart pageBits a.addr, pageSize pageBits⟩ := by
  have hle := pow_pageBits_le pageBits
  have hpos := h.size_pos
  have hin := h.le_page
  obtain ⟨size, hok, hsize⟩ := exists_expandToPage pageBits a.addr a.size (by omega)
  have hone : (a.size.toNat + a.addr.toNat % 2 ^ pageBits.val + (2 ^ pageBits.val - 1)) /
      2 ^ pageBits.val = 1 := by
    rw [Nat.div_eq_iff (Nat.two_pow_pos _)]
    omega
  rw [hone, one_mul, ← toNat_pageSize, toNat_inj] at hsize
  exact hsize ▸ hok

lemma inPage_page (x : U64) : InPage pageBits ⟨alignToPageStart pageBits x, pageSize pageBits⟩ := by
  refine ⟨?_, ?_⟩
  · show 0 < (pageSize pageBits).toNat
    rw [toNat_pageSize]
    exact Nat.two_pow_pos _
  · show (alignToPageStart pageBits x).toNat % 2 ^ pageBits.val +
      (pageSize pageBits).toNat ≤ 2 ^ pageBits.val
    rw [toNat_alignToPageStart, Nat.mul_mod_left, toNat_pageSize]
    omega

/-- Two areas that each lie on one page share it exactly if it is the same page. -/
theorem InPage.sharesPageWith (ha : a.InPage pageBits) (hb : b.InPage pageBits) :
    a.sharesPageWith pageBits b =
      .ok (decide (a.addr.toNat / 2 ^ pageBits.val = b.addr.toNat / 2 ^ pageBits.val)) := by
  have hP : 0 < 2 ^ pageBits.val := Nat.two_pow_pos _
  unfold Area.sharesPageWith
  rw [ha.expandToPage, ok_bind, hb.expandToPage, ok_bind,
    (inPage_page a.addr).overlapsWith (inPage_page b.addr)]
  congr 1
  apply decide_eq_decide.mpr
  unfold Overlap
  rw [toNat_alignToPageStart, toNat_alignToPageStart, toNat_pageSize, ← Nat.succ_mul,
    ← Nat.succ_mul, Nat.mul_lt_mul_right hP, Nat.mul_lt_mul_right hP]
  omega

/-- Two areas that each lie on one page and overlap lie on the same page. -/
lemma InPage.page_eq_of_overlap (ha : a.InPage pageBits) (hb : b.InPage pageBits)
    (h : Overlap a b) : a.addr.toNat / 2 ^ pageBits.val = b.addr.toNat / 2 ^ pageBits.val := by
  have hP : 0 < 2 ^ pageBits.val := Nat.two_pow_pos _
  have hadiv := Nat.div_add_mod' a.addr.toNat (2 ^ pageBits.val)
  have hbdiv := Nat.div_add_mod' b.addr.toNat (2 ^ pageBits.val)
  have hale := ha.le_page
  have hble := hb.le_page
  obtain ⟨h₁, h₂⟩ := h
  have hab : a.addr.toNat / 2 ^ pageBits.val < b.addr.toNat / 2 ^ pageBits.val + 1 := by
    rw [Nat.div_lt_iff_lt_mul hP, Nat.succ_mul]
    omega
  have hba : b.addr.toNat / 2 ^ pageBits.val < a.addr.toNat / 2 ^ pageBits.val + 1 := by
    rw [Nat.div_lt_iff_lt_mul hP, Nat.succ_mul]
    omega
  omega

end Area

end LibLisa.State
