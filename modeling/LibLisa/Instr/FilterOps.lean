import LibLisa.Instr.Filter

/-!
# Operations on filters

The set operations of `instr/filter.rs`: covering, overlap, intersection, merging of two filters
that differ in one bit, and the difference of two filters where it is again a filter. Each one is
decided byte by byte with mask arithmetic; the loops over two filters stop at the shorter one.

What the source checks with `debug_assert` is checked here too, so that a function which can fail
such a check is `Partial`. `consistency_check` is the field of `ByteFilter`.

Where no file is given, the source is `instr/filter.rs`.
-/

namespace LibLisa

open Lib

/-- The number of ones of a byte; `u8::count_ones`. -/
def countOnes (x : U8) : ℕ := (List.range 8).countP fun i => x.getLsbD i

/-- `u8::is_power_of_two` -/
def isPowerOfTwo (x : U8) : Bool := countOnes x == 1

/-- The value is kept inside the mask by any filter of bits that is applied to both. -/
lemma and_filter_and_not {mask value : U8} (filter : U8) (h : value &&& ~~~mask = 0) :
    (value &&& filter) &&& ~~~(mask &&& filter) = 0 := by
  rw [BitVec.not_and, BitVec.and_or_distrib_left]
  grind

namespace ByteFilter

/-- Source: `ByteFilter::max_matching_val` -/
def maxMatchingVal (a : ByteFilter) : U8 := a.value ||| ~~~a.mask

/-- Source: `ByteFilter::min_matching_val` -/
def minMatchingVal (a : ByteFilter) : U8 := a.value &&& a.mask

/-- Source: `ByteFilter::covers` -/
def covers (a b : ByteFilter) : Bool :=
  a.value &&& a.mask == b.value &&& a.mask && b.mask &&& a.mask == a.mask

/-- Source: `ByteFilter::can_intersect` -/
def canIntersect (a b : ByteFilter) : Bool :=
  (a.mask &&& b.mask) &&& a.value == (a.mask &&& b.mask) &&& b.value

/-- Source: `ByteFilter::can_merge` -/
def canMerge (a b : ByteFilter) : Bool :=
  if a.value == b.value && a.mask == b.mask then false
  else a.mask == b.mask && isPowerOfTwo ((a.value ^^^ b.value) &&& b.mask)

/-- Source: `ByteFilter::merge` -/
def merge (a b : ByteFilter) : Partial ByteFilter :=
  let filter := ~~~((a.value ^^^ b.value) &&& b.mask)
  if countOnes filter = 7 then
    .ok ⟨a.mask &&& filter, a.value &&& filter, and_filter_and_not filter a.value_and_not_mask⟩
  else .error .assertionFailed

/-- Source: `ByteFilter::can_exclude` -/
def canExclude (a b : ByteFilter) : Bool :=
  if b.covers a then false
  else isPowerOfTwo (~~~a.mask &&& b.mask) &&
    a.value &&& (a.mask &&& b.mask) == b.value &&& (a.mask &&& b.mask)

/-- Source: `ByteFilter::exclude` -/
def exclude (a b : ByteFilter) : Partial ByteFilter :=
  if a.canExclude b then
    let excludedBit := ~~~a.mask &&& b.mask
    ByteFilter.new (a.mask ||| excludedBit)
      ((a.value &&& ~~~excludedBit) ||| (~~~b.value &&& excludedBit))
  else .error .assertionFailed

/-- Source: `ByteFilter::intersect` -/
def intersect (a b : ByteFilter) : Partial ByteFilter :=
  if (a.canIntersect b || b.canIntersect a) && a.value &&& b.mask == b.value &&& a.mask then
    ByteFilter.new (a.mask ||| b.mask) (a.value ||| b.value)
  else .error .assertionFailed

end ByteFilter

namespace InstructionFilter

/-- The byte length that instructions have: `InstructionFilter::new` asks for at most 15 byte
filters, although there is room for one more. -/
def WellFormed (f : InstructionFilter) : Prop := f.len ≤ 15

instance (f : InstructionFilter) : Decidable f.WellFormed := inferInstanceAs (Decidable (_ ≤ _))

/-- Source: `InstructionFilter::covers` -/
def covers (f g : InstructionFilter) : Bool :=
  decide (f.data.length ≤ g.data.length) && (f.data.zip g.data).all fun (a, b) => a.covers b

/-- Source: `InstructionFilter::overlaps` -/
def overlaps (f g : InstructionFilter) : Bool :=
  (f.data.zip g.data).all fun (a, b) => a.canIntersect b

/-- Source: `InstructionFilter::intersect` -/
def intersect (f g : InstructionFilter) : Partial InstructionFilter :=
  if f.len = g.len then do
    let data ← (f.data.zip g.data).mapM fun (a, b) => a.intersect b
    InstructionFilter.new data
  else .error .assertionFailed

/-- The loop of `try_merge`: the first byte that differs is merged if it can be and nothing after it
differs. -/
def mergeBytes : List ByteFilter → List ByteFilter → Partial (Option (List ByteFilter))
  | a :: l, b :: m =>
    if a.canMerge b && (l.zip m).all fun (a, b) => decide (a = b) then do
      return some ((← a.merge b) :: l)
    else if a ≠ b then return none
    else do
      return (← mergeBytes l m).map (a :: ·)
  | _, _ => return none

/-- A filter with the given bytes. -/
def ofBytes (data : Option (List ByteFilter)) : Partial (Option InstructionFilter) :=
  match data with
  | none => return none
  | some data => return some (← InstructionFilter.new data)

/-- Source: `InstructionFilter::try_merge` -/
def tryMerge (f g : InstructionFilter) : Partial (Option InstructionFilter) :=
  if f.len ≠ g.len then return none
  else mergeBytes f.data g.data >>= ofBytes

/-- The loop of `try_exclude`. A byte that is to be excluded from is not covered, so the loop ends
with it. -/
def excludeBytes : List ByteFilter → List ByteFilter → Partial (Option (List ByteFilter))
  | a :: l, b :: m =>
    if a.canExclude b && (l.zip m).all fun (a, b) => b.covers a then do
      return some ((← a.exclude b) :: l)
    else if !b.covers a then return none
    else do
      return (← excludeBytes l m).map (a :: ·)
  | _, _ => return none

/-- Source: `InstructionFilter::try_exclude` -/
def tryExclude (f g : InstructionFilter) : Partial (Option InstructionFilter) :=
  if f.len ≠ g.len then return none
  else excludeBytes f.data g.data >>= ofBytes

end InstructionFilter

end LibLisa
