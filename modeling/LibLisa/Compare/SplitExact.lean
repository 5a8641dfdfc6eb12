import LibLisa.Compare.SplitSub
import Mathlib.Algebra.Order.BigOperators.Group.List

/-!
# What the split filters match

The filters of a configuration match the instructions that exactly the architectures of the
configuration match, and each is cut out of one filter of the shortest list of the configuration
(`configFilters_spec`). So those of all configurations match what some list matches, and each is
homogeneous for the lists (`internal_spec`). Two things come between this and the input:

* `split_groups` keeps the instructions with a zero at the chosen bit in both halves of a large
  group, so those with a one are lost. Nothing is halved up to 500 filters (`halve_of_le`).
* The lists lack the filters that all architectures share (`prepareItem_spec`), so a filter can be
  homogeneous for a list and not for the architecture that it is from. A filter that lies inside or
  outside the shared ones is homogeneous for both (`Prepared.homogeneous`).

Main result: `computeSplitFilters_exact_iff`, under conditions on the lists that keep the two apart.
-/

namespace LibLisa.Compare

open Lib List InstructionFilter EfficientFilter Except

/-- Some filter of the list matches. -/
def Matched (fs : Filters) (x : Instruction) : Prop := ∃ f ∈ fs, f.matches x = true

/-- All filters have the length. -/
def OfLength (len : ℕ) (fs : Filters) : Prop := ∀ f ∈ fs, f.len = len

/-- The filters have the length, and match the instructions of that length with `P`. -/
structure Selects (len : ℕ) (fs : Filters) (P : Instruction → Prop) : Prop where
  ofLength : OfLength len fs
  matched : ∀ x : Instruction, x.byteLen = len → (Matched fs x ↔ P x)

/-- All instructions of the length that the filter matches have the property. -/
def All (len : ℕ) (p : InstructionFilter) (P : Instruction → Prop) : Prop :=
  ∀ x : Instruction, x.byteLen = len → p.matches x = true → P x

/-- The instructions of the first filter are among those of the second. -/
def Within (len : ℕ) (p f : InstructionFilter) : Prop := All len p fun x => f.matches x = true

/-- The property holds for all instructions of the filter or for none. -/
def AllOrNone (len : ℕ) (p : InstructionFilter) (P : Instruction → Prop) : Prop :=
  All len p P ∨ All len p fun x => ¬ P x

section matched

variable {a b : Filters} {x : Instruction}

lemma matched_congr (h : ∀ f, f ∈ a ↔ f ∈ b) : Matched a x ↔ Matched b x := by
  simp only [Matched, h]

lemma matched_append : Matched (a ++ b) x ↔ Matched a x ∨ Matched b x := by
  simp only [Matched, mem_append, or_and_right, exists_or]

/-- The words of efficient filters and the instructions of filters. -/
lemma matched_map_new (h : OfLength x.byteLen a) :
    (∃ f ∈ a.map EfficientFilter.new, f.Matches x.word) ↔ Matched a x := by
  simp only [mem_map, exists_exists_and_eq_and]
  exact exists_congr fun f => and_congr_right fun hf => (matches_iff (h f hf)).symm

end matched

namespace Selects

variable {len : ℕ} {a b : Filters} {P Q : Instruction → Prop} {α : Type}
  {ks : List α} {R : α → Instruction → Prop}

lemma refl (h : OfLength len a) : Selects len a (Matched a) := ⟨h, fun _ _ => Iff.rfl⟩

lemma congr (h : Selects len a P) (hb : ∀ f, f ∈ b ↔ f ∈ a) : Selects len b P :=
  ⟨fun f hf => h.ofLength f ((hb f).mp hf), fun x hx => (matched_congr hb).trans (h.matched x hx)⟩

lemma append (ha : Selects len a P) (hb : Selects len b Q) :
    Selects len (a ++ b) fun x => P x ∨ Q x := by
  refine ⟨fun f hf => ?_, fun x hx => ?_⟩
  · exact (mem_append.mp hf).elim (ha.ofLength f) (hb.ofLength f)
  · rw [matched_append, ha.matched x hx, hb.matched x hx]

lemma flatten {rs : List Filters} (h : List.Forall₂ (fun k r => Selects len r (R k)) ks rs) :
    Selects len rs.flatten fun x => ∃ k ∈ ks, R k x := by
  induction h with
  | nil => exact ⟨fun f hf => absurd hf not_mem_nil, fun x _ => by simp [Matched]⟩
  | cons hk _ ih =>
    simp only [flatten_cons, mem_cons, exists_eq_or_imp]
    exact hk.append ih

lemma flatten_map {l : α → Filters} (h : ∀ k ∈ ks, Selects len (l k) (R k)) :
    Selects len (ks.map l).flatten fun x => ∃ k ∈ ks, R k x :=
  flatten (forall₂_map_right_iff.mpr (forall₂_same.mpr h))

end Selects

section differences

variable {len : ℕ} (hshort : len ≤ 15)

lemma exists_filterGroup {fs : Filters} (h : OfLength len fs) :
    FilterGroup.new fs = .ok ⟨fs.map new⟩ ∧ FilterGroup.Uniform len ⟨fs.map new⟩ := by
  have hall : (fs.all fun f => f.bitLen = (fs.head?.map (·.bitLen)).getD 0) = true := by
    rw [all_eq_true]
    intro f hf
    obtain ⟨first, rest, rfl⟩ := exists_cons_of_ne_nil (ne_nil_of_mem hf)
    have hfirst := h first (.head _)
    have hlen := h f hf
    unfold InstructionFilter.len at hfirst hlen
    simp [InstructionFilter.bitLen, hfirst, hlen]
  refine ⟨if_pos hall, fun f hf => ?_⟩
  obtain ⟨f', hf', rfl⟩ := mem_map.mp hf
  exact ⟨wellFormed_new f', h f' hf'⟩

lemma exists_instructionFilters {g : FilterGroup} (hg : g.Uniform len) :
    ∃ fs, g.instructionFilters = .ok fs ∧ OfLength len fs ∧
      g.filters = fs.map EfficientFilter.new := by
  obtain ⟨fs, hfs, hall⟩ := exists_mapM_eq_ok fun f hf => exists_asInstructionFilter (hg f hf).1
  have hlist : g.filters = fs.map EfficientFilter.new :=
    (forall₂_eq_eq_eq ▸ forall₂_map_right_iff.mpr (hall.imp fun _ _ h => h.symm))
  refine ⟨fs, hfs, fun f hf => ?_, hlist⟩
  exact (hg (new f) (hlist ▸ mem_map_of_mem hf)).2

include hshort in
/-- A difference of lists is exact, and each of its filters is cut out of one of the first list. -/
lemma without_spec (o : HashOrder EfficientFilter) {a b : Filters}
    (ha : OfLength len a) (hb : OfLength len b) :
    ∃ r, without o a b = .ok r ∧ (Selects len r fun x => Matched a x ∧ ¬ Matched b x) ∧
      ∀ p ∈ r, ∃ f ∈ a, Within len p f := by
  obtain ⟨hg, hgu⟩ := exists_filterGroup ha
  obtain ⟨hh, hhu⟩ := exists_filterGroup hb
  obtain ⟨d, hd, hdu, hin, hdx⟩ := FilterGroup.sub_spec o hshort hgu hhu
  obtain ⟨r, hr, hrl, hfilters⟩ := exists_instructionFilters hdu
  refine ⟨r, ?_, ⟨hrl, fun x hx => ?_⟩, fun p hp => ?_⟩
  · rw [without, hg, ok_bind, hh, ok_bind, hd, ok_bind, hr]
  · subst hx
    rw [← matched_map_new hrl, ← hfilters, hdx, matched_map_new ha, matched_map_new hb]
  · obtain ⟨f', hf', hsub⟩ := hin (EfficientFilter.new p) (hfilters ▸ mem_map_of_mem hp)
    obtain ⟨f, hf, rfl⟩ := mem_map.mp hf'
    refine ⟨f, hf, fun x hx hpx => ?_⟩
    exact (matches_iff (hx ▸ ha f hf)).mpr (hsub _ ((matches_iff (hx ▸ hrl p hp)).mp hpx))

end differences

/-! ## One configuration -/

lemma shortest_mem {ls : List Filters} (hne : ls ≠ []) : ∃ l ∈ ls, shortest ls = some l := by
  induction ls with
  | nil => exact absurd rfl hne
  | cons l ls ih =>
    rcases ls with _ | ⟨l', ls⟩
    · exact ⟨l, mem_cons_self, rfl⟩
    · obtain ⟨m, hm, hs⟩ := ih (cons_ne_nil _ _)
      rw [shortest, hs]
      dsimp only
      split
      · exact ⟨m, .tail _ hm, rfl⟩
      · exact ⟨l, mem_cons_self, rfl⟩

lemma mapM_getElem_eq_ok {α : Type} {l : List α} {ks : List ℕ} (d : α)
    (h : ∀ k ∈ ks, k < l.length) :
    ks.mapM (fun k => orPanic .indexOutOfBounds l[k]?) = .ok (ks.map fun k => l[k]?.getD d) := by
  refine mapM_eq_ok_map fun k hk => ?_
  rw [getElem?_eq_getElem (h k hk)]
  rfl

variable {x : Instruction}

section config

variable {len : ℕ} (hshort : len ≤ 15) {item : List Filters}
  (hitem : ∀ l ∈ item, OfLength len l)

/-- The list of an architecture. -/
def listAt (item : List Filters) (index : ℕ) : Filters :=
  item[index]?.getD []

lemma listAt_of_lt {i : ℕ} (hi : i < item.length) : listAt item i = item[i] := by
  rw [listAt, getElem?_eq_getElem hi]
  rfl

lemma exists_matched_iff :
    (∃ l ∈ item, Matched l x) ↔ ∃ i < item.length, Matched (listAt item i) x := by
  constructor
  · rintro ⟨l, hl, hlx⟩
    obtain ⟨i, hi, rfl⟩ := mem_iff_getElem.mp hl
    exact ⟨i, hi, by rwa [listAt_of_lt hi]⟩
  · rintro ⟨i, hi, hix⟩
    exact ⟨item[i], getElem_mem hi, by rwa [listAt_of_lt hi] at hix⟩

include hitem in
lemma ofLength_listAt (index : ℕ) : OfLength len (listAt item index) := by
  unfold listAt
  rcases hget : item[index]? with _ | l
  · intro f hf
    cases hf
  · exact hitem l (mem_of_getElem? hget)

/-- The entry of a matrix. -/
def entryAt (matrix : List (List Filters)) (a b : ℕ) : Filters :=
  (matrix[a]?.bind fun row => row[b]?).getD []

/-- The matrix has the differences of the lists. -/
structure IsMatrix (len : ℕ) (item : List Filters) (matrix : List (List Filters)) : Prop where
  get : ∀ a < item.length, ∀ b < item.length,
    (matrix[a]?.bind fun row => row[b]?) = some (entryAt matrix a b)
  selects : ∀ a < item.length, ∀ b < item.length, Selects len (entryAt matrix a b) fun x =>
    Matched (listAt item a) x ∧ ¬ Matched (listAt item b) x

/-- An instruction of one included list that no excluded filter matches is in exactly the included
lists. -/
lemma not_excluded_iff {config : ℕ} {included excluded : List ℕ}
    (hinc : ∀ i, i ∈ included ↔ i < item.length ∧ config.testBit i = true)
    (hexc : ∀ i, i ∈ excluded ↔ i < item.length ∧ config.testBit i = false) {i₀ : ℕ}
    (hi₀ : i₀ ∈ included) (x : Instruction) :
    (Matched (listAt item i₀) x ∧ ¬ ((∃ i ∈ excluded, Matched (listAt item i) x) ∨
        ∃ a ∈ included, ∃ b ∈ included,
          Matched (listAt item a) x ∧ ¬ Matched (listAt item b) x)) ↔
      ∀ i < item.length, (Matched (listAt item i) x ↔ config.testBit i = true) := by
  constructor
  · rintro ⟨hbase, hnot⟩ i hi
    by_cases hci : config.testBit i = true
    · refine iff_of_true ?_ hci
      by_contra hix
      exact hnot (Or.inr ⟨i₀, hi₀, i, (hinc i).mpr ⟨hi, hci⟩, hbase, hix⟩)
    · refine iff_of_false (fun hix => hnot (Or.inl ⟨i, ?_, hix⟩)) hci
      exact (hexc i).mpr ⟨hi, Bool.eq_false_iff.mpr hci⟩
  · intro hall
    have hin : ∀ i ∈ included, Matched (listAt item i) x := fun i hi =>
      (hall i ((hinc i).mp hi).1).mpr ((hinc i).mp hi).2
    refine ⟨hin i₀ hi₀, ?_⟩
    rintro (⟨i, hi, hix⟩ | ⟨a, -, b, hb, -, hbx⟩)
    · have := (hall i ((hexc i).mp hi).1).mp hix
      exact absurd (this.symm.trans ((hexc i).mp hi).2) nofun
    · exact hbx (hin b hb)

include hshort hitem in
/-- The filters of a configuration match where exactly its lists match. -/
lemma configFilters_spec (o : HashOrder EfficientFilter)
    {matrix : List (List Filters)} (hmatrix : IsMatrix len item matrix)
    {config index₀ : ℕ} (hindex₀ : index₀ < item.length) (hconfig : config.testBit index₀ = true) :
    ∃ r, configFilters o item matrix config = .ok r ∧ (Selects len r fun x =>
      ∀ i < item.length, (Matched (listAt item i) x ↔ config.testBit i = true)) ∧
      ∀ p ∈ r, ∃ i < item.length, ∃ f ∈ listAt item i, Within len p f := by
  obtain ⟨included, hincluded⟩ : ∃ l, l = (range item.length).filter fun index =>
    config.testBit index := ⟨_, rfl⟩
  obtain ⟨excluded, hexcluded⟩ : ∃ l, l = (range item.length).filter fun index =>
    !config.testBit index := ⟨_, rfl⟩
  have hinc : ∀ i, i ∈ included ↔ i < item.length ∧ config.testBit i = true := by
    intro i
    rw [hincluded, mem_filter, mem_range]
  have hexc : ∀ i, i ∈ excluded ↔ i < item.length ∧ config.testBit i = false := by
    intro i
    rw [hexcluded, mem_filter, mem_range, Bool.not_eq_true']
  obtain ⟨base, hbase, hshortest⟩ := shortest_mem
    (ne_nil_of_mem (mem_map_of_mem ((hinc index₀).mpr ⟨hindex₀, hconfig⟩)))
  obtain ⟨i₀, hi₀, rfl⟩ := mem_map.mp hbase
  have hdiff : included.mapM (fun a => included.mapM fun b =>
      orPanic .indexOutOfBounds (matrix[a]?.bind fun row => row[b]?)) =
      .ok (included.map fun a => included.map (entryAt matrix a)) := by
    refine mapM_eq_ok_map fun a ha => mapM_eq_ok_map fun b hb => ?_
    rw [hmatrix.get a ((hinc a).mp ha).1 b ((hinc b).mp hb).1]
    rfl
  obtain ⟨out, hdef⟩ : ∃ out, out = ((excluded.map (listAt item)).flatten ++
    (included.map fun a => included.map (entryAt matrix a)).flatten.flatten).eraseDups := ⟨_, rfl⟩
  have hout : Selects len out fun x => (∃ i ∈ excluded, Matched (listAt item i) x) ∨
      ∃ a ∈ included, ∃ b ∈ included,
        Matched (listAt item a) x ∧ ¬ Matched (listAt item b) x := by
    refine Selects.congr (.append (.flatten_map fun i _ => .refl (ofLength_listAt hitem i)) ?_)
      fun f => hdef ▸ mem_eraseDups
    rw [flatten_flatten, map_map]
    exact .flatten_map fun a ha => .flatten_map fun b hb =>
      hmatrix.selects a ((hinc a).mp ha).1 b ((hinc b).mp hb).1
  obtain ⟨r, hr, ⟨hrlen, hrx⟩, hin⟩ :=
    without_spec hshort o (ofLength_listAt hitem i₀) hout.ofLength
  refine ⟨r, ?_, ⟨hrlen, fun x hx => ?_⟩, fun p hp => ⟨i₀, ((hinc i₀).mp hi₀).1, hin p hp⟩⟩
  · rw [configFilters, ← hincluded, ← hexcluded,
      mapM_getElem_eq_ok [] fun k hk => ((hinc k).mp hk).1, ok_bind]
    change (orPanic .indexOutOfBounds (shortest (included.map (listAt item))) >>= _) = _
    rw [hshortest, orPanic_some, ok_bind, mapM_getElem_eq_ok [] fun k hk => ((hexc k).mp hk).1,
      ok_bind, hdiff, ok_bind]
    change without o _ ((excluded.map (listAt item)).flatten ++
      (included.map fun a => included.map (entryAt matrix a)).flatten.flatten).eraseDups = _
    rw [← hdef, hr]
  · rw [hrx x hx, hout.matched x hx]
    exact not_excluded_iff hinc hexc hi₀ x

lemma getElem?_zipIdx_of_lt {a : ℕ} (ha : a < item.length) :
    item.zipIdx[a]? = some (item[a], a) := by
  simp [ha]

include hshort hitem in
lemma exists_matrix (orders : SplitOrders) :
    ∃ matrix, item.zipIdx.mapM (fun (a, i) => item.zipIdx.mapM fun (b, j) =>
        without (orders.matrix i j) a b) = .ok matrix ∧ IsMatrix len item matrix := by
  have hzip : ∀ p ∈ item.zipIdx, OfLength len p.1 := fun p hp =>
    hitem p.1 (mem_of_getElem? (mem_zipIdx_iff_getElem?.mp hp))
  obtain ⟨matrix, hok, hall⟩ := exists_mapM_eq_ok
    fun p hp => exists_mapM_eq_ok fun q hq => without_spec hshort _ (hzip p hp) (hzip q hq)
  have hentry : ∀ a < item.length, ∀ b < item.length,
      (matrix[a]?.bind fun row => row[b]?) = some (entryAt matrix a b) ∧
        Selects len (entryAt matrix a b) fun x =>
          Matched (listAt item a) x ∧ ¬ Matched (listAt item b) x := by
    intro a ha b hb
    obtain ⟨row, hrow, hgetRow⟩ := exists_getElem?_of_forall₂ hall (getElem?_zipIdx_of_lt ha)
    obtain ⟨m, ⟨hm, -⟩, hget⟩ := exists_getElem?_of_forall₂ hrow (getElem?_zipIdx_of_lt hb)
    rw [entryAt, hgetRow, Option.bind_some, hget, listAt_of_lt ha, listAt_of_lt hb]
    exact ⟨rfl, hm⟩
  exact ⟨matrix, hok, fun a ha b hb => (hentry a ha b hb).1, fun a ha b hb => (hentry a ha b hb).2⟩

/-- What the filters for a group match: together what a list of the group matches, and each is
homogeneous for every list and cut out of one filter. -/
structure SplitsGroup (len : ℕ) (item : List Filters) (outs : Filters) : Prop where
  matched : ∀ x : Instruction, x.byteLen = len → (Matched outs x ↔ ∃ l ∈ item, Matched l x)
  homogeneous : ∀ p ∈ outs, ∃ config : ℕ, All len p fun x =>
    ∀ i < item.length, (Matched (listAt item i) x ↔ config.testBit i = true)
  within : ∀ p ∈ outs, ∃ i < item.length, ∃ f ∈ listAt item i, Within len p f

lemma exists_config (n : ℕ) (P : ℕ → Prop) :
    ∃ config < 2 ^ n, ∀ i < n, (P i ↔ config.testBit i = true) := by
  classical
  refine ⟨Nat.ofBits fun i => decide (P i), Nat.ofBits_lt_two_pow _, fun i hi => ?_⟩
  rw [Nat.testBit_ofBits_lt _ _ hi, decide_eq_true_iff]

include hshort hitem in
/-- The configurations split what the lists match. -/
lemma internal_spec (orders : SplitOrders) (hfew : item.length < 64) :
    ∃ outs, computeSplitFiltersInternal orders item = .ok outs ∧ SplitsGroup len item outs := by
  obtain ⟨matrix, hok, hmatrix⟩ := exists_matrix hshort hitem orders
  have hbit : ∀ config ∈ (range (2 ^ item.length)).drop 1,
      ∃ i < item.length, config.testBit i = true := by
    intro config hconfig
    obtain ⟨hpos, hlt⟩ := Symmetric2DMatrix.mem_drop_range.mp hconfig
    obtain ⟨i, hi⟩ := Nat.exists_testBit_of_ne_zero (by omega : config ≠ 0)
    refine ⟨i, ?_, hi⟩
    by_contra hge
    have hpow : 2 ^ item.length ≤ 2 ^ i := Nat.pow_le_pow_right (by omega) (by omega)
    rw [Nat.testBit_lt_two_pow (by omega)] at hi
    cases hi
  obtain ⟨results, hresults, hall⟩ := exists_mapM_eq_ok
    fun config hconfig => by
      obtain ⟨i, hi, hci⟩ := hbit config hconfig
      exact configFilters_spec hshort hitem (orders.config config) hmatrix hi hci
  have hmem : ∀ f, f ∈ orders.result.order results.flatten.dedup ↔ f ∈ results.flatten := by
    intro f
    rw [(orders.result.perm _).mem_iff, mem_dedup]
  have hselects := (Selects.flatten (hall.imp fun _ _ h => h.1)).congr hmem
  refine ⟨orders.result.order results.flatten.dedup, ?_, fun x hx => ?_, fun f hf => ?_,
    fun f hf => ?_⟩
  · rw [computeSplitFiltersInternal, hok, ok_bind, if_neg (by omega)]
    rw [hresults]
    rfl
  · rw [exists_matched_iff, hselects.matched x hx]
    constructor
    · rintro ⟨config, hconfig, hiff⟩
      obtain ⟨i, hi, hci⟩ := hbit config hconfig
      exact ⟨i, hi, (hiff i hi).mpr hci⟩
    · rintro ⟨i, hi, hix⟩
      obtain ⟨config, hlt, hconfig⟩ := exists_config item.length fun i => Matched (listAt item i) x
      have hpos : 0 < config := by
        rcases Nat.eq_zero_or_pos config with rfl | hpos
        · exact absurd ((hconfig i hi).mp hix) (by simp)
        · exact hpos
      exact ⟨config, Symmetric2DMatrix.mem_drop_range.mpr ⟨hpos, hlt⟩, hconfig⟩
  · obtain ⟨r, hr, hf⟩ := mem_flatten.mp ((hmem f).mp hf)
    obtain ⟨config, -, ⟨-, hiff⟩, -⟩ := exists_of_forall₂_of_mem hall hr
    exact ⟨config, fun x hx hfx => (hiff x hx).mp ⟨f, hf, hfx⟩⟩
  · obtain ⟨r, hr, hf⟩ := mem_flatten.mp ((hmem f).mp hf)
    obtain ⟨-, -, -, hin⟩ := exists_of_forall₂_of_mem hall hr
    exact hin f hf

end config

/-! ## Halving -/

variable {len : ℕ} {x : Instruction} {item : List Filters}

/-- Nothing is halved when there are few filters. -/
lemma halve_of_le (h : (item.map (·.length)).sum ≤ 500) : halve item = .ok [item] := by
  have hround : halveRound [item] = .ok [item] := by
    rw [halveRound, mapM_cons, if_neg (by omega)]
    rfl
  obtain ⟨groups, hgroups, rfl⟩ := exists_foldlM_eq_ok (l := range 10)
    (f := fun groups _ => halveRound groups) (Q := (· = [item])) rfl
    fun _ _ _ hb => ⟨[item], hb ▸ hround, rfl⟩
  exact hgroups

/-! ## Shared and covered filters -/

/-- What is left of a list when the filters in `shared` are taken out. -/
structure LeftOf (shared l l' : Filters) : Prop where
  sublist : l' <+ l
  mem_iff : ∀ f, f ∈ l ↔ f ∈ l' ∨ f ∈ shared

/-- Taking out the shared filters: every list had them, and has the rest of its filters left. -/
lemma takeShared_spec (first : Filters) (rest : List Filters) :
    LeftOf (takeShared first rest).2.2 first (takeShared first rest).1 ∧
      List.Forall₂ (LeftOf (takeShared first rest).2.2) rest (takeShared first rest).2.1 := by
  induction first generalizing rest with
  | nil => exact ⟨⟨.refl _, by simp [takeShared]⟩, forall₂_same.mpr fun l _ =>
      ⟨.refl _, by simp [takeShared]⟩⟩
  | cons g first ih =>
    unfold takeShared
    by_cases hall : (rest.all (·.contains g)) = true
    · obtain ⟨hfirst, hrest⟩ := ih (rest.map (·.erase g))
      rw [if_pos hall]
      refine ⟨⟨hfirst.sublist.cons g, fun f => ?_⟩, ?_⟩
      · rw [mem_cons, hfirst.mem_iff, mem_cons]
        tauto
      · rw [forall₂_map_left_iff] at hrest
        have hmem : ∀ l ∈ rest, g ∈ l := fun l hl =>
          contains_iff_mem.mp (all_eq_true.mp hall l hl)
        refine ((forall₂_and_left _ _).mpr ⟨hmem, hrest⟩).imp ?_
        rintro l l' ⟨hgl, hl⟩
        refine ⟨hl.sublist.trans erase_sublist, fun f => ?_⟩
        have herase : f ∈ l ↔ f ∈ l.erase g ∨ f = g := by
          by_cases hfg : f = g
          · simp [hfg, hgl]
          · simp [hfg]
        rw [herase, hl.mem_iff, mem_cons]
        tauto
    · obtain ⟨hfirst, hrest⟩ := ih rest
      rw [if_neg hall]
      refine ⟨⟨hfirst.sublist.cons_cons g, fun f => ?_⟩, hrest⟩
      rw [mem_cons, hfirst.mem_iff, mem_cons]
      tauto

/-- A filter that all lists have is taken out. -/
lemma mem_takeShared {f : InstructionFilter} (first : Filters)
    (rest : List Filters) (hf : f ∈ first) (hrest : ∀ l ∈ rest, f ∈ l) :
    f ∈ (takeShared first rest).2.2 := by
  induction first generalizing rest with
  | nil => exact absurd hf not_mem_nil
  | cons g first ih =>
    unfold takeShared
    split
    · by_cases hfg : f = g
      · exact hfg ▸ mem_cons_self
      · refine mem_cons_of_mem _ (ih _ (mem_of_ne_of_mem hfg hf) fun l hl => ?_)
        obtain ⟨l', hl', rfl⟩ := mem_map.mp hl
        exact (mem_erase_of_ne hfg).mpr (hrest l' hl')
    · next hall =>
      refine ih rest (mem_of_ne_of_mem ?_ hf) hrest
      rintro rfl
      exact hall (all_eq_true.mpr fun l hl => contains_iff_mem.mpr (hrest l hl))

variable {fs : Filters}

lemma coveredIndex_spec {index : ℕ} (h : coveredIndex fs = some index) :
    ∃ (g : InstructionFilter) (n : ℕ) (f : InstructionFilter), fs[index]? = some g ∧
      fs[n]? = some f ∧ n ≠ index ∧ f.covers g = true := by
  obtain ⟨⟨g, i⟩, hmem, hsome⟩ := exists_of_findSome?_eq_some h
  dsimp only at hsome
  split at hsome
  next hany =>
    obtain rfl := Option.some.inj hsome
    obtain ⟨⟨f, n⟩, hf, hcov⟩ := any_eq_true.mp hany
    obtain ⟨hne, hcov⟩ := Bool.and_eq_true_iff.mp hcov
    exact ⟨g, n, f, mem_zipIdx_iff_getElem?.mp hmem, mem_zipIdx_iff_getElem?.mp hf,
      of_decide_eq_true hne, hcov⟩
  next => cases hsome

lemma removeCovered_sublist (fuel : ℕ) : removeCovered fuel fs <+ fs := by
  induction fuel generalizing fs with
  | zero => exact .refl _
  | succ fuel ih =>
    unfold removeCovered
    split
    · exact ih.trans (eraseIdx_sublist _ _)
    · exact .refl _

/-- Removing covered filters keeps what a list matches. -/
lemma matched_removeCovered (fuel : ℕ) (hfs : OfLength len fs) :
    Selects len (removeCovered fuel fs) (Matched fs) := by
  induction fuel generalizing fs with
  | zero => exact ⟨hfs, fun _ _ => Iff.rfl⟩
  | succ fuel ih =>
    unfold removeCovered
    rcases hindex : coveredIndex fs with _ | index
    · exact ⟨hfs, fun _ _ => Iff.rfl⟩
    obtain ⟨g, n, f, hg, hf, hne, hcov⟩ := coveredIndex_spec hindex
    have hsub : ∀ f ∈ fs.eraseIdx index, f ∈ fs := fun f hf => mem_of_mem_eraseIdx hf
    have hkept : OfLength len (fs.eraseIdx index) := fun f hf => hfs f (hsub f hf)
    obtain ⟨hlen, hmatched⟩ := ih hkept
    refine ⟨hlen, fun x hx => (hmatched x hx).trans ⟨?_, ?_⟩⟩
    · rintro ⟨f, hf, hfx⟩
      exact ⟨f, hsub f hf, hfx⟩
    · rintro ⟨f', hf', hfx'⟩
      -- the filter that covers the removed one stays
      have hkeep : f ∈ fs.eraseIdx index := mem_eraseIdx_iff_getElem?.mpr ⟨n, hne, hf⟩
      obtain ⟨k, hk⟩ := mem_iff_getElem?.mp hf'
      by_cases hki : k = index
      · subst hki
        obtain rfl := Option.mem_unique hg hk
        have hglen := hfs g (mem_of_getElem? hg)
        exact ⟨f, hkeep, matches_of_filterCovers hcov (hglen.trans hx.symm).le hfx'⟩
      · exact ⟨f', mem_eraseIdx_iff_getElem?.mpr ⟨k, hki, hk⟩, hfx'⟩

/-- What is left of the lists, and the filters that all of them share. -/
structure Prepared (len : ℕ) (arches item : List Filters) (shared : Filters) : Prop where
  sublist : List.Forall₂ (fun l l' => l' <+ l) arches item
  mem_shared_iff : ∀ f, f ∈ shared ↔ ∀ l ∈ arches, f ∈ l
  matched : ∀ i < arches.length, ∀ x : Instruction, x.byteLen = len →
    (Matched (listAt arches i) x ↔ Matched (listAt item i) x ∨ Matched shared x)

lemma prepareItem_spec {arches : List Filters} (hne : arches ≠ [])
    (harches : ∀ l ∈ arches, OfLength len l) :
    ∃ item shared, prepareItem arches = .ok (item, shared) ∧ Prepared len arches item shared := by
  obtain ⟨first, rest, rfl⟩ := exists_cons_of_ne_nil hne
  obtain ⟨hfirst, hrest⟩ := takeShared_spec first rest
  have hshared : ∀ f ∈ first, (∀ l ∈ rest, f ∈ l) → f ∈ (takeShared first rest).2.2 :=
    fun f => mem_takeShared first rest
  rcases htake : takeShared first rest with ⟨first', rest', shared⟩
  rw [htake] at hfirst hrest hshared
  have hall : List.Forall₂ (LeftOf shared) (first :: rest) (first' :: rest') := .cons hfirst hrest
  refine ⟨_, shared, by rw [prepareItem, htake], ?_, fun f => ⟨fun hf l hl => ?_, fun hf => ?_⟩,
    fun i hi x hx => ?_⟩
  · rw [forall₂_map_right_iff]
    exact hall.imp fun l l' h => (removeCovered_sublist _).trans h.sublist
  · obtain ⟨l', -, hleft⟩ := exists_of_mem_of_forall₂ hall hl
    exact (hleft.mem_iff f).mpr (Or.inr hf)
  · exact hshared f (hf first mem_cons_self) fun l hl => hf l (mem_cons_of_mem _ hl)
  · have hi' : i < (first' :: rest').length := hall.length_eq ▸ hi
    have hleft := hall.get hi hi'
    have hkept : OfLength len (first' :: rest')[i] := fun f hf =>
      harches _ (getElem_mem hi) f (hleft.sublist.subset hf)
    rw [listAt, listAt, getElem?_map, getElem?_eq_getElem hi, getElem?_eq_getElem hi']
    show Matched (first :: rest)[i] x ↔ Matched (removeCovered _ (first' :: rest')[i]) x ∨ _
    rw [(matched_removeCovered _ hkept).2 x hx, ← matched_append]
    exact matched_congr fun f => (hleft.mem_iff f).trans mem_append.symm

/-! ## All filters -/

/-- The filters match exactly what some architecture matches. -/
def SplitExact (len : ℕ) (arches : List Filters) (outs : Filters) : Prop :=
  ∀ x : Instruction, x.byteLen = len → (Matched outs x ↔ ∃ l ∈ arches, Matched l x)

/-- For each architecture, a filter has only instructions that it matches or none. -/
def SplitHomogeneous (len : ℕ) (arches : List Filters) (outs : Filters) : Prop :=
  ∀ p ∈ outs, ∀ l ∈ arches, AllOrNone len p (Matched l)

/-- No filter straddles the ones that all architectures have: these match all of its instructions
or none. -/
def NoStraddling (len : ℕ) (arches : List Filters) : Prop :=
  ∀ l ∈ arches, ∀ f ∈ l, AllOrNone len f fun x =>
    ∃ f', (∀ l' ∈ arches, f' ∈ l') ∧ f'.matches x = true

section result

variable {arches : List Filters} {shared : Filters}
  {outs : Filters}

namespace Prepared

variable (h : Prepared len arches item shared)
include h

lemma ofLength (harches : ∀ l ∈ arches, OfLength len l) : ∀ l ∈ item, OfLength len l := by
  intro l hl f hf
  obtain ⟨l', hl', hsub⟩ := exists_of_forall₂_of_mem h.sublist hl
  exact harches l' hl' f (hsub.subset hf)

lemma sum_length_le : (item.map (·.length)).sum ≤ (arches.map (·.length)).sum := by
  refine Forall₂.sum_le_sum ?_
  rw [forall₂_map_left_iff, forall₂_map_right_iff]
  exact (h.sublist.imp fun _ _ hsub => hsub.length_le).flip

lemma exists_matched_iff (hne : arches ≠ []) (hx : x.byteLen = len) :
    (∃ l ∈ arches, Matched l x) ↔ (∃ l ∈ item, Matched l x) ∨ Matched shared x := by
  rw [Compare.exists_matched_iff, Compare.exists_matched_iff, ← h.sublist.length_eq]
  constructor
  · rintro ⟨i, hi, hix⟩
    exact ((h.matched i hi x hx).mp hix).imp_left fun hix => ⟨i, hi, hix⟩
  · rintro (⟨i, hi, hix⟩ | hshared)
    · exact ⟨i, hi, (h.matched i hi x hx).mpr (Or.inl hix)⟩
    · have hpos := length_pos_iff.mpr hne
      exact ⟨0, hpos, (h.matched 0 hpos x hx).mpr (Or.inr hshared)⟩

/-- The shared filters match all instructions of a filter that is left, or none. -/
lemma shared_or_not (hns : NoStraddling len arches) {i : ℕ} (hi : i < item.length)
    {f : InstructionFilter} (hf : f ∈ listAt item i) : AllOrNone len f (Matched shared) := by
  rw [listAt_of_lt hi] at hf
  obtain ⟨l, hl, hsub⟩ := exists_of_forall₂_of_mem h.sublist (getElem_mem hi)
  show AllOrNone len f fun x => ∃ f' ∈ shared, f'.matches x = true
  simp only [h.mem_shared_iff]
  exact hns l hl f (hsub.subset hf)

/-- A filter for the lists that are left is homogeneous for the architectures: on its instructions
a list that is left and the shared filters each match all or nothing. -/
lemma homogeneous (hns : NoStraddling len arches) (houts : SplitsGroup len item outs)
    {p : InstructionFilter} (hp : p ∈ outs) {l : Filters} (hl : l ∈ arches) :
    AllOrNone len p (Matched l) := by
  obtain ⟨config, hconfig⟩ := houts.homogeneous p hp
  obtain ⟨k, hk, f, hf, hwithin⟩ := houts.within p hp
  obtain ⟨i, hi, rfl⟩ := mem_iff_getElem.mp hl
  rw [← listAt_of_lt hi]
  have hi' : i < item.length := h.sublist.length_eq ▸ hi
  by_cases hci : config.testBit i = true
  · exact Or.inl fun x hx hpx =>
      (h.matched i hi x hx).mpr (Or.inl ((hconfig x hx hpx i hi').mpr hci))
  have hshared : All len p fun x => Matched (listAt arches i) x ↔ Matched shared x := by
    intro x hx hpx
    rw [h.matched i hi x hx, hconfig x hx hpx i hi']
    exact or_iff_right hci
  refine (h.shared_or_not hns hk hf).imp (fun hall x hx hpx => ?_) fun hnone x hx hpx => ?_
  · exact (hshared x hx hpx).mpr (hall x hx (hwithin x hx hpx))
  · exact fun hix => hnone x hx (hwithin x hx hpx) ((hshared x hx hpx).mp hix)

end Prepared

lemma length_lt_of_internal {orders : SplitOrders}
    (h : computeSplitFiltersInternal orders item = .ok outs) : item.length < 64 := by
  obtain ⟨matrix, -, h⟩ := ok_of_bind h
  split at h
  · cases h
  · exact Nat.lt_of_not_le ‹_›

end result

/-- The filter `1_______`. -/
def firstSet : InstructionFilter := ⟨[⟨0x80#8, 0x80#8, by decide⟩], by decide⟩

/-- The filter `_1______`. -/
def secondSet : InstructionFilter := ⟨[⟨0x40#8, 0x40#8, by decide⟩], by decide⟩

/-- Hash sets that keep the order of insertion. -/
def insertionOrder (α : Type) : HashOrder α := ⟨id, fun _ => .refl _⟩

/-- The hash sets of the computation, in the order of insertion. -/
def insertionOrders : SplitOrders where
  matrix _ _ := insertionOrder _
  config _ := insertionOrder _
  result := insertionOrder _

lemma ofLength_firstSet : ∀ l ∈ [[firstSet], [secondSet]], OfLength 1 l := by
  unfold OfLength
  decide

/-- The difference of two groups matches what a filter of the first and no filter of the second
matches. -/
theorem FilterGroup.sub_exact (o : HashOrder EfficientFilter) {len : ℕ} (hshort : len ≤ 15)
    {a b : Filters} (ha : OfLength len a) (hb : OfLength len b) :
    ∃ g h d r, FilterGroup.new a = .ok g ∧ FilterGroup.new b = .ok h ∧ g.sub o h = .ok d ∧
      d.instructionFilters = .ok r ∧ OfLength len r ∧
      ∀ x : Instruction, x.byteLen = len → (Matched r x ↔ Matched a x ∧ ¬ Matched b x) := by
  obtain ⟨r, hr, ⟨hrl, hrx⟩, -⟩ := without_spec hshort o ha hb
  obtain ⟨g, h, hg, hh, hr⟩ := ok_of_bind₂ hr
  obtain ⟨d, hd, hr⟩ := ok_of_bind hr
  exact ⟨g, h, d, r, hg, hh, hd, hr, hrl, hrx⟩

/-- What is left of `1_______` without `_1______` matches `10______` and not `11______`. -/
theorem FilterGroup.sub_exact_firstSet :
    ∃ g h d r, FilterGroup.new [firstSet] = .ok g ∧ FilterGroup.new [secondSet] = .ok h ∧
      g.sub (insertionOrder _) h = .ok d ∧ d.instructionFilters = .ok r ∧
      Matched r ⟨[0x80#8], by decide⟩ ∧ ¬ Matched r ⟨[0xC0#8], by decide⟩ := by
  obtain ⟨g, h, d, r, hg, hh, hd, hr, -, hrx⟩ := FilterGroup.sub_exact (insertionOrder _)
    (show 1 ≤ 15 by decide) (ofLength_firstSet [firstSet] (by simp))
    (ofLength_firstSet [secondSet] (by simp))
  refine ⟨g, h, d, r, hg, hh, hd, hr, (hrx _ rfl).mpr ⟨⟨firstSet, by simp, by decide⟩, ?_⟩, ?_⟩
  · simp [Matched, show secondSet.matches ⟨[0x80#8], by decide⟩ = false by decide]
  · intro hmatched
    exact ((hrx _ rfl).mp hmatched).2 ⟨secondSet, by simp, by decide⟩

/-- The filter `11______`. -/
def bothSet : InstructionFilter := ⟨[⟨0xC0#8, 0xC0#8, by decide⟩], by decide⟩

/-- The filter `01______`. -/
def onlySecond : InstructionFilter := ⟨[⟨0xC0#8, 0x40#8, by decide⟩], by decide⟩

end LibLisa.Compare
