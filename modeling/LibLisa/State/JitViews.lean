import LibLisa.State.JitSpec
import LibLisa.State.Mappable
import LibLisa.State.ViewCells

/-!
# Just-in-time states of bytes and of registers

The hosts of `ComplexJitState` and of `GpRegJitState` are hosts in the sense of `Observes`: the
registers and the memory are seen, the cells are the bytes of a view or the general-purpose
registers, and two states are near each other if they differ in the addresses of their accesses.
-/

namespace LibLisa.State

open Lib Encoding List StateGen SystemStateByteView Except
open SystemState (seen)

variable {A : Arch} {k : ℕ} {access : MemoryAccess A.Reg}

namespace StateGen

variable {g : StateGen A} {s s' : SystemState A} {o o' : Seen A}
  {adapted : Bool} {α : Type}

/-- There is a memory entry for every access. -/
def Covered (g : StateGen A) (o : Seen A) : Prop :=
  g.accesses.memory.length ≤ o.2.length

/-- There is a memory entry for every access, at the address that the access computes. -/
structure AddressesMatch (g : StateGen A) (o : Seen A) : Prop where
  covered : g.Covered o
  computed : ∀ k e access, g.IsEntry o.2 k e access → computeAddress access o.1 = .ok e.addr

/-- There is a memory entry for every access, and none is larger than its access, the instruction
apart. -/
structure EntriesFit (g : StateGen A) (o : Seen A) : Prop where
  covered : g.Covered o
  length_le : ∀ k e access, g.IsEntry o.2 k e access → k ≠ 0 →
    e.data.length ≤ access.size.2.toNat

/-- The same but for the addresses of the accesses. -/
structure NearSeen (g : StateGen A) (o o' : Seen A) : Prop where
  cpu_eq : o.1 = o'.1
  sameContents : SameContents g.accesses.memory.length o.2 o'.2

lemma nearSeen_equivalence (g : StateGen A) : Equivalence g.NearSeen where
  refl _ := ⟨rfl, .refl _⟩
  symm h := ⟨h.cpu_eq.symm, h.sameContents.symm⟩
  trans h h' := ⟨h.cpu_eq.trans h'.cpu_eq, h.sameContents.trans h'.sameContents⟩

lemma NearSeen.covered (h : g.NearSeen o o') (hc : g.Covered o) : g.Covered o' :=
  Nat.le_trans hc h.sameContents.length_le

/-- The addresses are determined by the rest. -/
lemma NearSeen.eq (h : g.NearSeen o o') (hm : g.AddressesMatch o) (hm' : g.AddressesMatch o') :
    o = o' := by
  apply Prod.ext h.cpu_eq
  apply ext_getElem?
  intro k
  rcases he : o.2[k]? with _ | e
  · have hle := getElem?_eq_none_iff.mp he
    rw [h.sameContents.length_eq] at hle
    exact (getElem?_eq_none_iff.mpr hle).symm
  · obtain ⟨e', he', heq⟩ := h.sameContents.exists_entry he
    obtain ⟨hperms, hdata, haddr⟩ := forget_eq_iff.mp heq
    have haddr' : e.addr = e'.addr := by
      rcases Nat.lt_or_ge k g.accesses.memory.length with hk | hk
      · have haccess := getElem?_eq_getElem hk
        have hcompute := hm.computed k e _ ⟨he, haccess⟩
        have hcompute' := hm'.computed k e' _ ⟨he', haccess⟩
        rw [h.cpu_eq] at hcompute
        exact ok_unique hcompute hcompute'
      · exact haddr hk
    rw [he']
    obtain ⟨addr, perms, data⟩ := e
    obtain ⟨addr', perms', data'⟩ := e'
    obtain rfl : addr = addr' := haddr'
    obtain rfl : perms = perms' := hperms
    obtain rfl : data = data' := hdata
    rfl

lemma NearSeen.entriesFit (h : g.NearSeen o o') (hfit : g.EntriesFit o) : g.EntriesFit o' := by
  refine ⟨h.covered hfit.covered, fun k e' access he' hk => ?_⟩
  obtain ⟨e, he, heq⟩ := h.sameContents.symm.exists_entry he'.entry
  rw [(forget_eq_iff.mp heq).2.1]
  exact hfit.length_le k e access ⟨he, he'.access⟩ hk

/-- Updating the addresses of a state that is near one with the right addresses. -/
lemma NearSeen.update_ok (h : g.NearSeen s.seen o) (hm : g.AddressesMatch o) :
    ∃ s', updateMemoryAddressesUnchecked g.accesses s = .ok s' ∧ s'.seen = o := by
  have hcovered : g.Covered s.seen := ((nearSeen_equivalence g).symm h).covered hm.covered
  have hcompute : ∀ access ∈ g.accesses.memory,
      ∃ addr, computeAddress access s.cpu = .ok addr := by
    intro access haccess
    obtain ⟨k, hk⟩ := getElem?_of_mem haccess
    have hlt := Nat.lt_of_lt_of_le (lt_of_getElem? hk) hm.covered
    have hcomputed := hm.computed k _ access ⟨getElem?_eq_getElem hlt, hk⟩
    rw [← h.cpu_eq] at hcomputed
    exact ⟨_, hcomputed⟩
  obtain ⟨s', hs', hcpu, hsame, hdone⟩ := updateMemoryAddressesUnchecked_ok hcovered hcompute
  have hnear : g.NearSeen s.seen s'.seen := ⟨hcpu.symm, hsame⟩
  have hm' : g.AddressesMatch s'.seen := ⟨hnear.covered hcovered, fun k => hdone k⟩
  have hnear' := (nearSeen_equivalence g).trans ((nearSeen_equivalence g).symm hnear) h
  exact ⟨s', hs', hnear'.eq hm' hm⟩

lemma window_eq_of_entriesFit (hfit : g.EntriesFit o) {e : MemoryEntry} (he : o.2[k]? = some e) :
    g.window k e.data = e.data := by
  unfold window
  split
  next access haccess =>
    split
    · rfl
    next hk => exact take_of_length_le (hfit.length_le k e access ⟨he, haccess⟩ hk)
  next => rfl

lemma covered_of_adapt (h : g.adapt s false = .ok (adapted, s')) (hc : g.Covered s.seen) :
    g.Covered s'.seen := by
  obtain ⟨-, hadj, -⟩ := adapt_adjusted h
  show g.accesses.memory.length ≤ s'.memory.length
  rw [hadj.length_eq]
  exact hc

lemma nearSeen_of_adapt (h : g.adapt s false = .ok (adapted, s')) (hfit : g.EntriesFit s.seen) :
    g.NearSeen s.seen s'.seen := by
  obtain ⟨hcpu, hadj, -⟩ := adapt_adjusted h
  exact ⟨hcpu.symm, hadj.sameContents fun k e he => window_eq_of_entriesFit hfit he⟩

lemma match_of_adapt (h : g.adapt s false = .ok (true, s')) (hc : g.Covered s.seen) :
    g.AddressesMatch s'.seen ∧ g.EntriesFit s'.seen := by
  have hcovered := covered_of_adapt h hc
  obtain ⟨-, -, hsettled⟩ := adapt_adjusted h
  have hsettled' : ∀ k e access, g.IsEntry s'.memory k e access →
      computeAddress access s'.cpu = .ok e.addr ∧ (k ≠ 0 → e.data.length ≤ access.size.2.toNat) := by
    intro k e access he
    have hk := Nat.lt_of_lt_of_le (lt_of_getElem? he.access) hc
    exact hsettled rfl k hk e access he
  exact ⟨⟨hcovered, fun k e access he => (hsettled' k e access he).1⟩,
    ⟨hcovered, fun k e access he => (hsettled' k e access he).2⟩⟩

/-! ## The registers that addresses depend on -/

/-- The registers that addresses are computed from are known. -/
def TracksRegisters (g : StateGen A) : Prop :=
  ∀ access ∈ g.accesses.memory, ∀ reg size, Source.dest (.reg reg size) ∈ access.inputs →
    A.isZero reg = false → ∃ gpreg ∈ g.addressRegisters, A.tryRegToGpreg reg = some gpreg

lemma tracksRegisters_of_new {accesses : MemoryAccesses A.Reg} {canMap : U64 → Bool}
    (h : new accesses canMap = .ok (.ok g)) : g.TracksRegisters := by
  obtain ⟨constraints, -, h⟩ := ok_of_bind h
  split at h
  · cases h
  obtain ⟨crossing, -, h⟩ := ok_of_bind h
  split at h
  · cases h
  obtain ⟨registers, hregisters, h⟩ := ok_of_bind h
  obtain rfl := ok.inj (ok.inj h)
  intro access haccess reg size hreg hzero
  obtain ⟨inputs, gpregs, hinputs, hgpregs, rfl⟩ := ok_of_bind₂_ok hregisters
  have hinput : some reg ∈ inputs := (mem_iff_of_mapM hinputs).mpr
    ⟨_, mem_flatMap.mpr ⟨access, haccess, hreg⟩, rfl⟩
  have hkept : reg ∈ (inputs.filterMap id).filter fun reg => !A.isZero reg := by
    rw [mem_filter, mem_filterMap, hzero]
    exact ⟨⟨some reg, hinput, rfl⟩, rfl⟩
  obtain ⟨gpreg, hgpreg⟩ := exists_of_mem_of_mapM hgpregs hkept
  refine ⟨gpreg, ?_, eq_some_of_orPanic hgpreg⟩
  rw [mem_eraseReps, mem_mergeSort, mem_append]
  exact .inl ((mem_iff_of_mapM hgpregs).mpr ⟨reg, hkept, hgpreg⟩)

lemma computeAddress_congr {cpu cpu' : A.CpuState}
    (h : ∀ reg size, Source.dest (.reg reg size) ∈ access.inputs →
      A.value cpu' reg = A.value cpu reg) :
    computeAddress access cpu' = computeAddress access cpu := by
  have hsource : ∀ source ∈ access.inputs, sourceValue cpu' source = sourceValue cpu source := by
    intro source hsource
    unfold sourceValue
    split
    next reg size => rw [h reg size hsource]
    next => rfl
    next => rfl
    next => rfl
  have hvalues : (access.inputs.zip access.calculation.terms.toList).mapM
      (fun p => sourceValue cpu' p.1) =
      (access.inputs.zip access.calculation.terms.toList).mapM fun p => sourceValue cpu p.1 := by
    apply mapM_congr
    exact fun p hp => hsource p.1 (of_mem_zip hp).1
  show (mapM _ _ >>= _) = (mapM _ _ >>= _)
  rw [hvalues]

end StateGen

/-! ## General-purpose registers -/

/-- Every general-purpose register is a cell of its own, and a part of its register only. A zero
register has a fixed value. -/
structure Arch.GpRegsLawful (A : Arch) : Prop where
  set_get : ∀ cpu r, A.setGpreg cpu r (A.gpreg cpu r) = cpu
  set_set : ∀ cpu r v w, A.setGpreg (A.setGpreg cpu r v) r w = A.setGpreg cpu r w
  set_comm : ∀ cpu r q v w, r ≠ q →
    A.setGpreg (A.setGpreg cpu r v) q w = A.setGpreg (A.setGpreg cpu q w) r v
  get_set_of_ne : ∀ cpu r q v, r ≠ q → A.gpreg (A.setGpreg cpu r v) q = A.gpreg cpu q
  value_set : ∀ cpu r v reg, A.tryRegToGpreg reg ≠ some r ∨ A.isZero reg = true →
    A.value (A.setGpreg cpu r v) reg = A.value cpu reg

namespace Jit

variable {g : StateGen A}

/-- The registers as cells of what is seen. -/
def gpregCells (hA : A.GpRegsLawful) :
    Cells (Seen A) A.GpReg U64 where
  read o r := A.gpreg o.1 r
  write o r v := (A.setGpreg o.1 r v, o.2)
  write_read o r := Prod.ext (hA.set_get o.1 r) rfl
  write_write o r v w := Prod.ext (hA.set_set o.1 r v w) rfl
  write_comm o r q v w hne := Prod.ext (hA.set_comm o.1 r q v w hne) rfl
  read_write_of_ne o r q v hne := hA.get_set_of_ne o.1 r q v hne

lemma match_setGpreg (hA : A.GpRegsLawful) (hg : g.TracksRegisters) {keys : List A.GpReg}
    {r : A.GpReg} {o : Seen A} (v : U64)
    (hneed : g.needsAdaptFromGpregs keys = false) (hr : r ∈ keys) (hm : g.AddressesMatch o) :
    g.AddressesMatch (A.setGpreg o.1 r v, o.2) := by
  have hnot : r ∉ g.addressRegisters := by
    unfold needsAdaptFromGpregs at hneed
    rw [any_eq_false] at hneed
    have hr' := hneed r hr
    unfold isAddressRegister at hr'
    rw [Option.any_some, decide_eq_true_eq] at hr'
    exact hr'
  refine ⟨hm.covered, fun k e access he => ?_⟩
  rw [computeAddress_congr, hm.computed k e access he]
  -- the registers that the address depends on do not change
  have haccess := mem_of_getElem? he.access
  intro reg size hreg
  apply hA.value_set
  rcases hzero : A.isZero reg with _ | _
  · obtain ⟨gpreg, hgpreg, htry⟩ := hg access haccess reg size hreg hzero
    refine .inl fun heq => hnot ?_
    rwa [← Option.mem_unique htry heq]
  · exact .inr rfl

/-- The host of `GpRegJitState`. -/
def gpregObserves (hA : A.GpRegsLawful) (hg : g.TracksRegisters) :
    Observes (gpregHost g) (Seen A) where
  seen := seen
  cells := gpregCells hA
  InRange _ _ := True
  Near := g.NearSeen
  Match := g.AddressesMatch
  Shaped := g.Covered
  Fits := g.EntriesFit
  near := g.nearSeen_equivalence
  near_match h := h.eq
  near_read r h := congrArg (A.gpreg · r) h.cpu_eq.symm
  near_write r v h := ⟨congrArg (A.setGpreg · r v) h.cpu_eq, h.sameContents⟩
  inRange_near _ _ := trivial
  inRange_write _ _ _ := trivial
  fits_near h := h.entriesFit
  fits_write _ _ h := ⟨h.covered, h.length_le⟩
  shaped_write _ _ h := h
  shaped_of_fits h := h.covered
  get_eq_ok_iff := ⟨fun h => ⟨trivial, Except.ok.inj h⟩, fun h => congrArg Except.ok h.2⟩
  set_ok _ _ := ⟨_, rfl, rfl⟩
  inRange_of_set _ := trivial
  update_ok h := h.update_ok
  quiet v h := match_setGpreg hA hg v (Except.ok.inj h)
  adapt_true h := StateGen.match_of_adapt h
  adapt_near h := StateGen.nearSeen_of_adapt h
  adapt_shaped h := StateGen.covered_of_adapt h

/-! ## Bytes -/

variable {view : SystemStateByteView A} {o o' : Seen A}

lemma readSeen_near (k : ℕ) (h : g.NearSeen o o') : view.readSeen o' k = view.readSeen o k := by
  unfold readSeen readByte
  rw [h.cpu_eq]
  split
  · rfl
  · rcases view.locate k with _ | p
    · rfl
    · have hdata : ∀ m : List MemoryEntry, (m[p.1]?).bind (fun e => e.data[p.2]?) =
          (m[p.1]?.map (forget g.accesses.memory.length p.1)).bind fun e => e.data[p.2]? := by
        intro m
        rcases m[p.1]? with _ | e
        · rfl
        · rw [Option.bind_some]
          unfold forget
          split <;> rfl
      rw [Option.map_some, Option.map_some, hdata, hdata, h.sameContents p.1]

lemma writeSeen_near (k : ℕ) (v : U8) (h : g.NearSeen o o') :
    g.NearSeen (view.writeSeen o k v) (view.writeSeen o' k v) := by
  rcases view.place_cases k with hk | ⟨hk, hp⟩ | ⟨hk, p, hp⟩
  · rw [writeSeen_reg hk, writeSeen_reg hk, h.cpu_eq]
    exact ⟨rfl, h.sameContents⟩
  · rw [writeSeen_none hk hp, writeSeen_none hk hp]
    exact h
  · rw [writeSeen_memory hk hp, writeSeen_memory hk hp]
    refine ⟨h.cpu_eq, h.sameContents.modify p.1 fun e => ?_⟩
    unfold forget
    split <;> rfl

lemma inRange_near (h : g.NearSeen o o') (hrange : view.InRange o k) : view.InRange o' k := by
  apply hrange.of_data
  intro i e he
  obtain ⟨e', he', heq⟩ := h.sameContents.exists_entry he
  exact ⟨e', he', congrArg length (forget_eq_iff.mp heq).2.1.symm⟩

lemma inRange_writeSeen (l : ℕ) (v : U8) (hrange : view.InRange o k) :
    view.InRange (view.writeSeen o l v) k := by
  apply hrange.of_data
  intro i e he
  obtain ⟨e', he', hlen, -⟩ := writeSeen_entry he l v
  exact ⟨e', he', hlen⟩

lemma covered_writeSeen (k : ℕ) (v : U8) (h : g.Covered o) : g.Covered (view.writeSeen o k v) := by
  unfold Covered
  rw [length_writeSeen]
  exact h

/-- The entry that an entry comes from. -/
lemma exists_entry_of_writeSeen {k i : ℕ} {v : U8} {e' : MemoryEntry}
    (he' : g.IsEntry (view.writeSeen o k v).2 i e' access) :
    ∃ e, g.IsEntry o.2 i e access ∧ e'.data.length = e.data.length ∧ e'.addr = e.addr := by
  have hi : i < o.2.length := by
    rw [← length_writeSeen o k v]
    exact lt_of_getElem? he'.entry
  have he := getElem?_eq_getElem hi
  obtain ⟨e'', he'', hlen, haddr⟩ := writeSeen_entry he k v
  obtain rfl := Option.mem_unique he'' he'.entry
  exact ⟨_, ⟨he, he'.access⟩, hlen, haddr⟩

lemma entriesFit_writeSeen (k : ℕ) (v : U8) (h : g.EntriesFit o) :
    g.EntriesFit (view.writeSeen o k v) := by
  refine ⟨covered_writeSeen k v h.covered, fun i e' access he' hi => ?_⟩
  obtain ⟨e, he, hlen, -⟩ := exists_entry_of_writeSeen he'
  rw [hlen]
  exact h.length_le i e access he hi

lemma match_writeSeen (hb : view.bytes.Lawful) (hg : g.TracksRegisters) {keys : List ℕ}
    (v : U8) (hneed : g.needsAdaptFromBytes view keys = .ok false) (hk : k ∈ keys)
    (hm : g.AddressesMatch o) : g.AddressesMatch (view.writeSeen o k v) := by
  have hcpu : ∀ access ∈ g.accesses.memory, ∀ reg size,
      Source.dest (.reg reg size) ∈ access.inputs →
      A.value (view.writeSeen o k v).1 reg = A.value o.1 reg := by
    intro access haccess reg size hreg
    rcases view.place_cases k with hlt | ⟨hlt, hp⟩ | ⟨hlt, p, hp⟩
    · rw [writeSeen_reg hlt]
      apply hb.value_set o.1 k hlt
      rcases hzero : A.isZero reg with _ | _
      · -- the register of the byte is not one that addresses depend on
        refine .inl fun heq => ?_
        obtain ⟨gpreg, hgpreg, htry⟩ := hg access haccess reg size hreg hzero
        have hnot := eq_ok_false_of_anyM hneed k hk
        unfold asReg at hnot
        rw [if_neg (Nat.not_le.mpr hlt)] at hnot
        have hnot' : g.isAddressRegister (A.tryRegToGpreg (view.bytes.stateByteToReg k).1) = false :=
          ok.inj hnot
        unfold isAddressRegister at hnot'
        rw [heq, htry, Option.any_some, decide_eq_false_iff_not] at hnot'
        exact hnot' hgpreg
      · exact .inr rfl
    · rw [writeSeen_none hlt hp]
    · rw [writeSeen_memory hlt hp]
  refine ⟨covered_writeSeen k v hm.covered, fun i e' access he' => ?_⟩
  obtain ⟨e, he, -, haddr⟩ := exists_entry_of_writeSeen he'
  rw [computeAddress_congr (hcpu access (mem_of_getElem? he.access)), haddr]
  exact hm.computed i e access he

/-- The host of `ComplexJitState` and `SimpleJitState`. -/
def byteObserves (hb : view.bytes.Lawful) (hg : g.TracksRegisters) :
    Observes (byteHost g view) (Seen A) where
  seen := seen
  cells := SystemStateByteView.cells hb
  InRange := view.InRange
  Near := g.NearSeen
  Match := g.AddressesMatch
  Shaped := g.Covered
  Fits := g.EntriesFit
  near := g.nearSeen_equivalence
  near_match h := h.eq
  near_read := readSeen_near
  near_write := writeSeen_near
  inRange_near := inRange_near
  inRange_write := inRange_writeSeen
  fits_near h := h.entriesFit
  fits_write := entriesFit_writeSeen
  shaped_write := covered_writeSeen
  shaped_of_fits h := h.covered
  get_eq_ok_iff := SystemStateByteView.get_eq_ok_iff
  set_ok := SystemStateByteView.set_ok
  inRange_of_set := SystemStateByteView.inRange_of_set
  update_ok h := h.update_ok
  quiet v := match_writeSeen hb hg v
  adapt_true h := StateGen.match_of_adapt h
  adapt_near h := StateGen.nearSeen_of_adapt h
  adapt_shaped h := StateGen.covered_of_adapt h

/-- The states of `ComplexJitState` and of `GpRegJitState` look like states made from the base, for
a base with the right addresses and no memory entry larger than its access, in every run in which
each creation changes only cells that it declares. -/
theorem jitState_looksMaterialised {accesses : MemoryAccesses A.Reg} {canMap : U64 → Bool}
    (hnew : StateGen.new accesses canMap = .ok (.ok g)) {baseState : SystemState A}
    (hmatch : g.AddressesMatch baseState.seen) (hfits : g.EntriesFit baseState.seen) :
    (∀ view : SystemStateByteView A, view.bytes.Lawful → ∀ c changes,
      Reached (byteHost g view) seen baseState c changes →
      LooksMaterialised (byteHost g view) seen baseState c changes) ∧
    (A.GpRegsLawful → ∀ c changes,
      Reached (gpregHost g) seen baseState c changes →
      LooksMaterialised (gpregHost g) seen baseState c changes) := by
  have hg := StateGen.tracksRegisters_of_new hnew
  refine ⟨fun view hb c changes hrun => ?_, fun hA c changes hrun => ?_⟩
  · exact Reached.looksMaterialised (w := byteObserves hb hg) hrun hmatch hfits
  · exact Reached.looksMaterialised (w := gpregObserves hA hg) hrun hmatch hfits

/-! ### One register and two accesses -/

/-- An instruction of one byte and an access of two bytes on another page. -/
def pairAccesses : MemoryAccesses tinyArch.Reg where
  instr := tinyAccesses.instr
  memory := [
    { kind := .executable
      inputs := [.dest (.reg () ⟨0, 7⟩)]
      size := (1, 1)
      calculation := ⟨0, tinyTerms⟩
      alignment := 1 },
    { kind := .inputOutput
      inputs := [.dest (.reg () ⟨0, 7⟩)]
      size := (2, 2)
      calculation := ⟨0x2000, tinyTerms⟩
      alignment := 1 }]
  useTrapFlag := false

/-- What `StateGen::new` makes of it. -/
def pairGen : StateGen tinyArch :=
  ⟨pairAccesses, fun _ => true, [.pageRegion 0 0xfff, .pageRegion 0 0xffe], [()]⟩

lemma new_pairAccesses : new pairAccesses (fun _ => true) = .ok (.ok pairGen) := by
  have hregisters : addressRegistersOf pairAccesses = .ok [()] := by
    have hsort : mergeSort [(), ()] (fun _ _ => true) = [(), ()] := mergeSort_of_pairwise (by simp)
    exact congrArg (fun l => (ok l.eraseReps)) hsort
  unfold new
  rw [hregisters]
  rfl

/-- The register and the memory, with the given data for the second access. -/
def pairState (reg : U64) (data : List U8) : SystemState tinyArch :=
  ⟨reg, [⟨reg, .execute, [0x90]⟩, ⟨reg + 0x2000, .readWrite, data⟩], true, true⟩

lemma gpRegsLawful_tinyArch : tinyArch.GpRegsLawful where
  set_get _ _ := rfl
  set_set _ _ _ _ := rfl
  set_comm _ _ _ _ _ hne := absurd rfl hne
  get_set_of_ne _ _ _ _ hne := absurd rfl hne
  value_set _ _ _ _ h := absurd h (by rintro (hne | hzero); exacts [hne rfl, absurd hzero nofun])

lemma addressesMatch_pairState (data : List U8) :
    pairGen.AddressesMatch (pairState 0x10000 data).seen := by
  refine ⟨Nat.le_refl 2, fun k e access he => ?_⟩
  match k with
  | 0 =>
    obtain rfl := Option.some.inj he.entry
    obtain rfl := Option.some.inj he.access
    show computeAddress (A := tinyArch) _ (0x10000 : U64) = .ok 0x10000
    decide +kernel
  | 1 =>
    obtain rfl := Option.some.inj he.entry
    obtain rfl := Option.some.inj he.access
    show computeAddress (A := tinyArch) _ (0x10000 : U64) = .ok (0x10000 + 0x2000)
    decide +kernel
  | k + 2 => nomatch he.entry

/-- A call of `create` that sets the register. -/
def setRegister (v : U64) (created : Bool) (s : SystemState tinyArch) :
    Partial (Bool × SystemState tinyArch) := .ok (created, { s with cpu := v })

/-- The change of the register to a value. -/
def registerItem (v : U64) : Item Unit U64 := ⟨[⟨(), 0x10000, v⟩], true⟩

/-- Two states are created, a creation fails, and the first state is shown again. -/
theorem jitState_looksMaterialised_registers :
    ∃ c, c.active = some 0 ∧
      Reached (gpregHost pairGen) seen (pairState 0x10000 [1, 2]) c
        [[((), 0x20000)], [((), 0x30000)]] ∧
      LooksMaterialised (gpregHost pairGen) seen (pairState 0x10000 [1, 2]) c
        [[((), 0x20000)], [((), 0x30000)]] := by
  have hfits : pairGen.EntriesFit (pairState 0x10000 [1, 2]).seen := by
    refine ⟨Nat.le_refl 2, fun k e access he hk => ?_⟩
    match k with
    | 0 => exact absurd rfl hk
    | 1 =>
      obtain rfl := Option.some.inj he.entry
      obtain rfl := Option.some.inj he.access
      decide
    | k + 2 => nomatch he.entry
  have hone : Reached (gpregHost pairGen) seen (pairState 0x10000 [1, 2])
      ⟨pairState 0x20000 [1, 2], some 0, [registerItem 0x20000]⟩ [[((), 0x20000)]] :=
    .created .build (.create [()] (setRegister 0x20000 true) (by decide) rfl rfl
      ⟨rfl, _, rfl, rfl⟩ rfl)
  have htwo : Reached (gpregHost pairGen) seen (pairState 0x10000 [1, 2])
      ⟨pairState 0x30000 [1, 2], some 1, [registerItem 0x20000, registerItem 0x30000]⟩
      [[((), 0x20000)], [((), 0x30000)]] :=
    .created hone (.create [()] (setRegister 0x30000 true) (by decide) rfl rfl
      ⟨rfl, _, rfl, rfl⟩ rfl)
  have hfailed : Reached (gpregHost pairGen) seen (pairState 0x10000 [1, 2])
      ⟨pairState 0x10000 [1, 2], none, [registerItem 0x20000, registerItem 0x30000]⟩
      [[((), 0x20000)], [((), 0x30000)]] :=
    .failed htwo (.create [()] (setRegister 0x40000 false) (by decide) rfl rfl
      ⟨rfl, _, rfl, rfl⟩ rfl)
  have hshown := hfailed.asSystemState Nat.zero_lt_two rfl
  exact ⟨_, rfl, hshown, (jitState_looksMaterialised new_pairAccesses
    (addressesMatch_pairState [1, 2]) hfits).2 gpRegsLawful_tinyArch _ _ hshown⟩

/-- The third byte of the entry is cropped when a state is created, and is not shown with it. -/
theorem asSystemState_cropped :
    pairGen.AddressesMatch (pairState 0x10000 [1, 2, 3]).seen ∧
    ∃ c, Reached (gpregHost pairGen) seen (pairState 0x10000 [1, 2, 3]) c
        [[((), 0x20000)]] ∧
      ¬ LooksMaterialised (gpregHost pairGen) seen (pairState 0x10000 [1, 2, 3]) c
        [[((), 0x20000)]] := by
  refine ⟨addressesMatch_pairState [1, 2, 3],
    ⟨pairState 0x20000 [1, 2], some 0, [registerItem 0x20000]⟩, ?_, fun hlooks => ?_⟩
  · exact .created .build (.create [()] (setRegister 0x20000 true) (by decide) rfl rfl
      ⟨rfl, _, rfl, rfl⟩ rfl)
  · obtain ⟨c', s, hc', hs, hseen⟩ := hlooks.asSystemState 0 _ rfl
    obtain rfl := ok.inj hc'
    obtain rfl := ok.inj hs
    exact absurd (congrArg (fun o => (o.2.map (·.data.length))) hseen) (by decide)

end Jit

end LibLisa.State
