import LibLisa.Encoding.FiltersExact
import LibLisa.Lib.Split
import LibLisa.Utils.Matrix

/-!
# Groups of overlapping encodings

A model of `encoding/mcs.rs`. Encodings are grouped by the length of their instruction, each group
is split by the bits that are fixed in all its encodings (`byFixedBits`, several times over), and
what remains is split into the components of the overlap relation (`splitIntoOverlappingGroups`).

What depends on the state of a random number generator is a parameter with what is known of it: the
order in which a hash map lists its entries, and the final shuffle. `splitEncodings_components`, the
main result about this model, is in `Encoding/GroupsExact`.
-/

namespace LibLisa

open Lib Mcs

namespace Encoding

variable {R : Type}

/-- An encoding with its filters.
Source: `encoding/mod.rs`, `EncodingWithFilters` -/
structure EncodingWithFilters (R : Type) where
  encoding : Encoding R
  filters : Filters
  /-- The filters are those that `EncodingWithFilters::new` computes. -/
  filters_eq : ∃ rng, encoding.filters rng = .ok filters

/-- Several encodings. -/
abbrev Encodings (R : Type) := List (EncodingWithFilters R)

/-- `e.encoding.instr().byte_len()` -/
def EncodingWithFilters.byteLen (e : EncodingWithFilters R) : ℕ := e.encoding.instr.byteLen

/-- Some filter of one encoding overlaps one of the other. -/
def EncodingWithFilters.overlapping (a b : EncodingWithFilters R) : Bool :=
  a.filters.any fun fa => b.filters.any fun fb => fa.overlaps fb

/-! ## Splitting by fixed bits -/

/-- The first 32 bits from the left, filled up with `Fixed(0)`. -/
def firstBits (bits : List Bit) : List Bit :=
  (bits.reverse ++ List.replicate 32 (Bit.fixed false)).take 32

/-- A `u32` whose bits from the left are given by the first 32 bits. -/
def packFirstBits (f : Bit → Bool) (bits : List Bit) : U32 :=
  (firstBits bits).zipIdx.foldl
    (fun acc (bit, index) => acc ||| (BitVec.ofBool (f bit)).setWidth 32 <<< (31 - index)) 0

/-- Source: `mcs.rs`, `filter_mask_from_bits` -/
def filterMaskFromBits (bits : List Bit) : U32 :=
  packFirstBits (fun | .fixed _ => true | _ => false) bits

/-- Source: `mcs.rs`, `instruction_start_from_bits` -/
def instructionStartFromBits (bits : List Bit) : U32 :=
  packFirstBits (fun | .fixed v => v | _ => false) bits

/-- The bits that are fixed in all encodings. -/
def fixedMask (encodings : Encodings R) : U32 :=
  (encodings.map fun e => filterMaskFromBits e.encoding.bits).foldl (· &&& ·) (BitVec.allOnes 32)

/-- The order in which a hash map lists its entries. -/
structure MapOrder (α : Type) where
  order : List (List α) → List (List α)
  perm : ∀ l, (order l).Perm l

/-- The groups of `Split::by_fixed_bits`, in the order of the hash map.
Source: `mcs.rs`, `Split::by_fixed_bits` -/
def byFixedBits (o : MapOrder (EncodingWithFilters R)) (encodings : Encodings R) :
    List (Encodings R) :=
  let key := fun e : EncodingWithFilters R =>
    fixedMask encodings &&& instructionStartFromBits e.encoding.bits
  o.order (groupsOf key (encodings.map key).dedup encodings)

/-- One round of splitting by fixed bits, with a hash map for each group. -/
def splitRound (o : ℕ → MapOrder (EncodingWithFilters R)) (groups : List (Encodings R)) :
    List (Encodings R) :=
  (groups.zipIdx.map fun (group, index) => byFixedBits (o index) group).flatten

/-! ## Splitting by overlap -/

/-- Whether the encodings at two positions overlap. -/
def overlapsAt (encodings : Encodings R) (i j : ℕ) : Bool :=
  match encodings[i]?, encodings[j]? with
  | some a, some b => a.overlapping b
  | _, _ => false

/-- The masks of the groups: searches in the matrix of overlaps. -/
def groupMasks (encodings : Encodings R) : Partial (List Bitmap) :=
  orPanic .outOfFuel (Components.components
    (Symmetric2DMatrix.overlapMatrix (overlapsAt encodings) encodings.length).iterRowIndices
    firstBitSet encodings.length encodings.length (Finset.range encodings.length))

/-- The position of the first mask that has the index. -/
def groupIndex (masks : List Bitmap) (index : ℕ) : Option ℕ :=
  masks.findIdx? fun mask => decide (index ∈ mask)

/-- One group of encodings, split into the components of the overlap relation. -/
def splitGroup (encodings : Encodings R) : Partial (List (Encodings R)) :=
  if encodings.length ≤ 1 then .ok [encodings]
  else if encodings.any fun e => e.byteLen ≠ (encodings.head?.map (·.byteLen)).getD 0 then
    .error .assertionFailed
  else do
    let masks ← groupMasks encodings
    if encodings.zipIdx.any fun p => (groupIndex masks p.2).isNone then .error .assertionFailed
    else
      return (groupsOf (fun p => groupIndex masks p.2)
        ((List.range masks.length).map some) encodings.zipIdx).map fun g => g.map (·.1)

/-- Source: `mcs.rs`, `split_into_overlapping_groups` -/
def splitIntoOverlappingGroups (groups : List (Encodings R)) :
    Partial (List (Encodings R)) := do
  let parts ← groups.mapM splitGroup
  return parts.flatten

/-- The groups that `split_encodings_into_overlapping_groups` starts with. -/
def groupsByLength (encodings : Encodings R) : List (Encodings R) :=
  (encodings.mergeSort fun a b => decide (a.byteLen ≤ b.byteLen)).splitBy
    fun a b => a.byteLen == b.byteLen

/-- `orders` gives the orders of the hash maps of each round and `shuffle` the final order. With
logging enabled, the size of the largest group is unwrapped at the end.
Source: `mcs.rs`, `split_encodings_into_overlapping_groups` -/
def splitEncodingsIntoOverlappingGroups (orders : ℕ → ℕ → MapOrder (EncodingWithFilters R))
    (shuffle : MapOrder (EncodingWithFilters R)) (logging : Bool) (encodings : Encodings R) :
    Partial (List (Encodings R)) := do
  let groups := (List.range 25).foldl (fun groups round => splitRound (orders round) groups)
    (groupsByLength encodings)
  let groups ← splitIntoOverlappingGroups groups
  let groups := shuffle.order groups
  if logging && groups.isEmpty then .error .explicitPanic else return groups

end Encoding

end LibLisa
