import LibLisa.Encoding.GroupsExact

/-!
# Groups of overlapping encodings of several architectures

A model of `EncodingGroup::compute_from_arches` (`compare/group.rs`). For each length of
instructions, the filters of all encodings get numbers; a filter is related to the filters that
occur with it in some encoding. From the filters of an encoding that is not in a group yet, a search
goes to the filters that overlap and on to those related to them; the encodings with a filter that
was found are the next group.

The order in which a hash set lists its elements is a parameter.
-/

namespace LibLisa.Compare

open Lib Mcs Encoding

variable {R : Type}

/-- Source: `encoding/indexed.rs`, `EncodingId` -/
abbrev EncodingId := ℕ

/-- Source: `group.rs`, `FilterId` -/
abbrev FilterId := ℕ

/-- Source: `encoding/indexed.rs`, `IndexedEncodings` -/
structure IndexedEncodings (R : Type) where
  encodings : Encodings R
  /-- The bit pattern of an encoding is as long as its instruction. -/
  wholeBytes : ∀ e ∈ encodings, e.WholeBytes

/-- Source: `group.rs`, `EncodingGroup` -/
structure EncodingGroup where
  encodingsPerArch : List (List EncodingId)

/-- An encoding with its filters. -/
abbrev Row := EncodingId × List FilterId

/-- Source: `group.rs`, `ArchData` -/
structure ArchData where
  encodings : List Row
  unprocessed : Bitmap

/-- Source: `group.rs`, `FilterLookupEntry` -/
structure FilterLookupEntry where
  filter : InstructionFilter
  relatedIds : Finset FilterId

/-- The order in which hash sets list their elements. -/
structure SetOrder where
  order : Finset ℕ → List ℕ
  mem_order : ∀ s i, i ∈ order s ↔ i ∈ s

/-! ## Numbering the filters -/

/-- The numbers given to filters so far (`id_map` and `filter_lookup`). -/
structure FilterTable where
  idMap : InstructionFilter → Option FilterId
  lookup : List FilterLookupEntry

namespace FilterTable

def new : FilterTable := ⟨fun _ => none, []⟩

/-- The number of a filter, a new one if it has none. -/
def assign (t : FilterTable) (filter : InstructionFilter) : FilterId × FilterTable :=
  match t.idMap filter with
  | some id => (id, t)
  | none =>
    (t.lookup.length, ⟨fun f => if f = filter then some t.lookup.length else t.idMap f,
      t.lookup ++ [⟨filter, ∅⟩]⟩)

/-- The numbers of the filters of an encoding. -/
def assignAll : FilterTable → Filters → List FilterId × FilterTable
  | t, [] => ([], t)
  | t, filter :: filters =>
    let (id, t) := t.assign filter
    let (ids, t) := assignAll t filters
    (id :: ids, t)

/-- Extends the related filters of each filter by all of them. -/
def relate (t : FilterTable) (ids : List FilterId) : Partial FilterTable := do
  let lookup ← ids.foldlM (fun lookup id => do
    let entry ← orPanic .indexOutOfBounds lookup[id]?
    return lookup.set id { entry with relatedIds := entry.relatedIds ∪ ids.toFinset }) t.lookup
  return { t with lookup }

end FilterTable

/-- The encodings of an architecture with the numbers of their filters. -/
def archEncodings (E : IndexedEncodings R) :
    FilterTable → List EncodingId → Partial (List Row × FilterTable)
  | t, [] => .ok ([], t)
  | t, id :: ids => do
    let e ← orPanic .indexOutOfBounds E.encodings[id]?
    let (filterIds, t) := t.assignAll e.filters
    let t ← t.relate filterIds
    let (rest, t) ← archEncodings E t ids
    return ((id, filterIds) :: rest, t)

/-- The data of all architectures; nothing is processed. -/
def archesData (E : IndexedEncodings R) :
    FilterTable → List (List EncodingId) → Partial (List ArchData × FilterTable)
  | t, [] => .ok ([], t)
  | t, ids :: arches => do
    let (encodings, t) ← archEncodings E t ids
    let (rest, t) ← archesData E t arches
    return (⟨encodings, Finset.range ids.length⟩ :: rest, t)

/-! ## Overlaps of filters -/

/-- The filters by their length, without the lengths that no filter has. -/
def indexGroups (lookup : List FilterLookupEntry) : Partial (List (List FilterId)) :=
  if lookup.any fun entry => 16 ≤ entry.filter.len then .error .indexOutOfBounds
  else .ok (((List.range 16).map fun len =>
    (lookup.zipIdx.filter fun p => p.1.filter.len = len).map (·.2)).filter (!·.isEmpty))

/-- The pairs of an element and one that is not before it. -/
def pairs : List FilterId → List (FilterId × FilterId)
  | [] => []
  | a :: rest => (a :: rest).map (a, ·) ++ pairs rest

/-- Whether two filters overlap. -/
def filtersOverlap (lookup : List FilterLookupEntry) (a b : FilterId) : Bool :=
  match lookup[a]?, lookup[b]? with
  | some a, some b => a.filter.overlaps b.filter
  | _, _ => false

def filterOverlap (lookup : List FilterLookupEntry) (groups : List (List FilterId)) :
    Symmetric2DMatrix :=
  .ofEntries ((groups.flatMap pairs).filter fun p => filtersOverlap lookup p.1 p.2)

/-! ## Groups -/

/-- The filters that the search adds for a filter. -/
def searchRow (orders : FilterId → SetOrder) (overlap : Symmetric2DMatrix)
    (lookup : List FilterLookupEntry) (id : FilterId) : List FilterId :=
  (overlap.iterRowIndices id).flatMap fun index =>
    match lookup[index]? with
    | some entry => (orders index).order entry.relatedIds
    | none => []

/-- The first encoding that is not processed, with its architecture. -/
def firstUnprocessed (arches : List ArchData) : Option (ℕ × ℕ) :=
  arches.zipIdx.findSome? fun (data, index) => (firstBitSet data.unprocessed).map (index, ·)

/-- Whether an encoding has one of the filters. -/
def isMatched (matched : Bitmap) (e : Row) : Bool :=
  e.2.any fun id => id ∈ matched

/-- The group of the encodings with a filter that was found. -/
def groupOf (matched : Bitmap) (arches : List ArchData) : EncodingGroup :=
  ⟨arches.map fun arch => (arch.encodings.filter (isMatched matched)).map (·.1)⟩

/-- The encodings of the group are processed. -/
def ArchData.markProcessed (matched : Bitmap) (arch : ArchData) : ArchData :=
  { arch with
    unprocessed := arch.unprocessed \
      ((arch.encodings.zipIdx.filter fun p => isMatched matched p.1).map (·.2)).toFinset }

/-- The loop that finds the groups. -/
def groupsLoop (row : FilterId → List FilterId) (numFilters : ℕ) :
    ℕ → List ArchData → Partial (List EncodingGroup)
  | fuel, arches =>
    match firstUnprocessed arches with
    | none => .ok []
    | some (archIndex, encodingIndex) =>
      match fuel with
      | 0 => .error .outOfFuel
      | fuel + 1 => do
        let arch ← orPanic .indexOutOfBounds arches[archIndex]?
        let (_, filterIds) ← orPanic .indexOutOfBounds arch.encodings[encodingIndex]?
        let matched ← orPanic .outOfFuel
          (Components.explore row (filterIds.length + numFilters) filterIds.reverse ∅)
        let groups ← groupsLoop row numFilters fuel (arches.map (·.markProcessed matched))
        return groupOf matched arches :: groups

/-- The groups of the encodings of one length. -/
def groupsOfLength (orders : FilterId → SetOrder) (E : IndexedEncodings R)
    (arches : List (List EncodingId)) : Partial (List EncodingGroup) := do
  let (data, table) ← archesData E .new arches
  let indices ← indexGroups table.lookup
  groupsLoop (searchRow orders (filterOverlap table.lookup indices) table.lookup)
    table.lookup.length (arches.map (·.length)).sum data

/-- The length of the bit pattern in bytes, at most 15. -/
def lengthOf (E : IndexedEncodings R) (id : EncodingId) : Partial ℕ := do
  let e ← orPanic .indexOutOfBounds E.encodings[id]?
  if e.encoding.bits.length / 8 < 16 then return e.encoding.bits.length / 8
  else .error .indexOutOfBounds

/-- Source: `group.rs`, `EncodingGroup::compute_from_arches` -/
def computeFromArches (orders : ℕ → FilterId → SetOrder) (E : IndexedEncodings R)
    (arches : List (List EncodingId)) : Partial (List EncodingGroup) := do
  let withLength ← arches.mapM fun ids => ids.mapM fun id => return (id, ← lengthOf E id)
  let archesByInstrLen := (List.range 16).map fun len =>
    withLength.map fun ids => (ids.filter (·.2 = len)).map (·.1)
  let groups ← archesByInstrLen.zipIdx.mapM fun (arches, len) => groupsOfLength (orders len) E arches
  return groups.flatten

end LibLisa.Compare
