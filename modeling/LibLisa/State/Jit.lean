import LibLisa.State.ByteView

/-!
# Just-in-time states

The model of `state/jit`. All states made from one base state share one system state, in which the
changes of one of them are written at a time.

`complex.rs` and `gpreg.rs` do this in the same way, one for bytes of the state and one for a
general-purpose register: to show another state, the values that were there before are written back,
and then the other values. `Host` is what they do with the shared state. `simple.rs` changes the same
bytes for every state, and writes the values of a state over those of the state before.

Where no file is given, the source is `jit/complex.rs`.
-/

namespace LibLisa.State.Jit

open Lib Encoding

variable {S K V : Type}

/-- What just-in-time states do with the state that they share: they read and write the cells that
are changed, and keep the addresses of the memory mappings. -/
structure Host (S K V : Type) where
  get : S → K → Partial V
  set : S → K → V → Partial S
  needsAdapt : List K → Partial Bool
  updateAddresses : S → Partial S
  adapt : S → Partial (Bool × S)

/-- The writes of a list of values. -/
def Host.setAll (h : Host S K V) (s : S) (values : List (K × V)) : Partial S :=
  values.foldlM (fun s p => h.set s p.1 p.2) s

/-- The addresses are updated if they may have changed. -/
def Host.updateIf (h : Host S K V) (need : Bool) (s : S) : Partial S :=
  if need then h.updateAddresses s else return s

/-! ## States with their own changes -/

/-- Source: `ComplexMappingEntry` -/
structure Change (K V : Type) where
  key : K
  fromValue : V
  toValue : V

/-- Source: `ComplexItem`; `jit/gpreg.rs`, `GpRegMapping`. A single entry is a list
of one. -/
structure Item (K V : Type) where
  mapping : List (Change K V)
  needAddressUpdate : Bool

namespace Item

/-- Source: `ComplexItem::apply` -/
def apply (h : Host S K V) (item : Item K V) (s : S) : Partial S :=
  h.setAll s (item.mapping.map fun e => (e.key, e.toValue))

/-- Source: `ComplexItem::revert` -/
def revert (h : Host S K V) (item : Item K V) (s : S) : Partial S :=
  h.setAll s (item.mapping.map fun e => (e.key, e.fromValue))

end Item

/-- Source: `ComplexState`; `jit/gpreg.rs`, `GpRegState` -/
structure Shared (S K V : Type) where
  state : S
  active : Option ℕ
  items : List (Item K V)

namespace Shared

/-- Source: `ComplexJitState::build` -/
def build (baseState : S) : Shared S K V := ⟨baseState, none, []⟩

/-- The item that is shown. -/
def activeItem (c : Shared S K V) : Partial (Option (Item K V)) :=
  match c.active with
  | none => return none
  | some id => do return some (← orPanic .indexOutOfBounds c.items[id]?)

/-- The changes of the item that is shown are taken back; whether that may change addresses. -/
def revertActive (h : Host S K V) (c : Shared S K V) : Partial (Bool × S) := do
  match ← c.activeItem with
  | none => return (false, c.state)
  | some item => return (item.needAddressUpdate, ← item.revert h c.state)

/-- The base state is shown again; also the first part of `create`.
Source: `jit/complex.rs`, `ComplexJitStateBuilder::as_original_system_state` -/
def asOriginalSystemState (h : Host S K V) (c : Shared S K V) : Partial (Shared S K V) := do
  let (need, s) ← c.revertActive h
  return { c with state := ← h.updateIf need s, active := none }

/-- Source: `ComplexJitState::as_system_state`; `jit/gpreg.rs`,
`GpRegJitState::as_system_state` -/
def asSystemState (h : Host S K V) (id : ℕ) (c : Shared S K V) : Partial (Shared S K V) := do
  if c.active = some id then return c
  else
    let (need, s) ← c.revertActive h
    let item ← orPanic .indexOutOfBounds c.items[id]?
    let s ← item.apply h s
    return { c with state := ← h.updateIf (need || item.needAddressUpdate) s, active := some id }

/-- The cells with their present values. -/
def readAll (h : Host S K V) (s : S) (keys : List K) : Partial (List (K × V)) :=
  keys.mapM fun key => do return (key, ← h.get s key)

variable [DecidableEq V]

/-- The entries of an item; a list of several entries is kept without those that change nothing. -/
def entries (keys : List K) (old new : List (K × V)) : List (Change K V) :=
  let changes := (old.zip new).map fun (o, n) => ⟨o.1, o.2, n.2⟩
  if keys.length = 1 then changes else changes.filter fun e => decide (e.fromValue ≠ e.toValue)

/-- Whether a state that was created is accepted. -/
def accept (h : Host S K V) (need created : Bool) (s : S) : Partial (Bool × S) :=
  if created then (if need then h.adapt s else return (true, s)) else return (false, s)

/-- Source: `ComplexJitStateBuilder::create`; `jit/gpreg.rs`,
`GpRegJitStateBuilder::create`. Returns the id of the new state. -/
def create (h : Host S K V) (affected : List K) (f : S → Partial (Bool × S)) (c : Shared S K V) :
    Partial (Option ℕ × Shared S K V) := do
  let need ← h.needsAdapt affected
  let c ← c.asOriginalSystemState h
  let old ← readAll h c.state affected
  let (created, s) ← f c.state
  let (accepted, s) ← accept h need created s
  if accepted then
    let new ← readAll h s affected
    let id := c.items.length
    return (some id, ⟨s, some id, c.items ++ [⟨entries affected old new, need⟩]⟩)
  else
    let s ← h.setAll s old
    return (none, { c with state := ← h.updateIf need s })

/-- The values that `create_with_change_list` zips with the keys; a single key needs one. -/
def listedValues (affected : List K) (newValues : List V) : Partial (List (K × V)) :=
  if affected.length = 1 ∧ newValues = [] then .error .assertionFailed
  else return affected.zip newValues

/-- Source: `ComplexJitStateBuilder::create_with_change_list` -/
def createWithChangeList (h : Host S K V) (affected : List K) (newValues : List V)
    (c : Shared S K V) : Partial (Option ℕ × Shared S K V) := do
  if ← h.needsAdapt affected then
    c.create h affected fun s => do return (true, ← h.setAll s (affected.zip newValues))
  else
    let c ← c.asOriginalSystemState h
    let new ← listedValues affected newValues
    let old ← readAll h c.state (new.map Prod.fst)
    let id := c.items.length
    return (some id, { c with items := c.items ++ [⟨entries affected old new, false⟩] })

end Shared

/-! ## States that change the same bytes -/

/-- Source: `jit/simple.rs`, `SimpleJitState` -/
structure SimpleItem (K V : Type) where
  mapping : List (K × V)
  needAddressUpdate : Bool
  id : ℕ

/-- The shared state and the next index of the iterator.
Source: `jit/simple.rs`, `SimpleState` -/
structure SimpleShared (S : Type) where
  state : S
  active : Option ℕ
  next : ℕ

namespace SimpleShared

/-- Source: `jit/simple.rs`, `SimpleJitState::build` -/
def build (baseState : S) : SimpleShared S := ⟨baseState, none, 0⟩

/-- The iterator calls `create` for the next index; `need` is whether the bytes affected need an
update of the addresses. -/
def advance (h : Host S K V) (affected : List K) (need : Bool) (f : S → Partial (Bool × S))
    (c : SimpleShared S) : Partial (Option (SimpleItem K V) × SimpleShared S) := do
  let (created, s) ← f c.state
  if created then
    let mapping ← Shared.readAll h s affected
    let (accepted, s) ← Shared.accept h need true s
    return (if accepted then some ⟨mapping, need, c.next⟩ else none,
      { c with state := s, next := c.next + 1 })
  else return (none, { c with state := s, next := c.next + 1 })

/-- Source: `jit/simple.rs`, `SimpleJitState::as_system_state` -/
def asSystemState (h : Host S K V) (item : SimpleItem K V) (c : SimpleShared S) :
    Partial (SimpleShared S) := do
  if c.active = some item.id then return c
  else
    let s ← h.setAll c.state item.mapping
    return { c with state := ← h.updateIf item.needAddressUpdate s, active := some item.id }

end SimpleShared

/-! ## Hosts -/

variable {A : Arch}

/-- The host of `ComplexJitState` and `SimpleJitState`. -/
def byteHost (g : StateGen A) (view : SystemStateByteView A) :
    Host (SystemState A) ℕ U8 where
  get := view.get
  set := view.set
  needsAdapt := g.needsAdaptFromBytes view
  updateAddresses := updateMemoryAddressesUnchecked g.accesses
  adapt s := g.adapt s false

/-- The host of `GpRegJitState`. -/
def gpregHost (g : StateGen A) : Host (SystemState A) A.GpReg U64 where
  get s reg := return A.gpreg s.cpu reg
  set s reg value := return { s with cpu := A.setGpreg s.cpu reg value }
  needsAdapt gpregs := return g.needsAdaptFromGpregs gpregs
  updateAddresses := updateMemoryAddressesUnchecked g.accesses
  adapt s := g.adapt s false

end LibLisa.State.Jit
