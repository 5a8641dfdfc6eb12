import LibLisa.State.JitViews

/-!
# Simple just-in-time states

All states that the iterator of `SimpleJitState` produces change the same bytes, and showing one of
them writes its values over whatever is there. That gives the state as it was created (`Produced`),
whatever was shown before and however often the iterator has advanced.

The marker for the state that is shown skips the writes. It is not reset when the iterator writes the
next state into the shared one, so a state that is shown, passed over and shown again is seen with the
bytes of the later one. A run counts the advances that changed what is seen since a state was last
written (`SimpleReached`), and `simpleJitState_shows_iff` says from that count when a view shows the
state as it was created: if another state is marked, or no advance has changed what is seen.
-/

namespace LibLisa.State.Jit

open Lib Encoding List SystemStateByteView Option
open SystemState (seen)

variable {S K V O : Type} {h : Host S K V} {c : SimpleShared S}

/-- A state that was produced can be shown again from what is seen. -/
structure Produced (w : Observes h O) (affected : List K) (need : Bool) (o : O)
    (item : SimpleItem K V) (created : O) : Prop where
  need_eq : item.needAddressUpdate = need
  keys_eq : item.mapping.map Prod.fst = affected
  near : w.Near (w.cells.writeAll o item.mapping) created
  quiet : need = false → w.cells.writeAll o item.mapping = created
  addresses : need = true → w.Match created
  fits : need = true → w.Fits o
  inRange : ∀ k ∈ affected, w.InRange o k

namespace Produced

variable {w : Observes h O} {affected : List K} {need : Bool} {o o' created created' : O}
  {item item' : SimpleItem K V}

section

variable (hp : Produced w affected need o item created)
include hp

/-- Writing the bytes that every state writes does not matter. -/
theorem writeAll {l : List (K × V)} (hl : ∀ k ∈ l.map Prod.fst, k ∈ affected) :
    Produced w affected need (w.cells.writeAll o l) item created := by
  have hsame : w.cells.writeAll (w.cells.writeAll o l) item.mapping =
      w.cells.writeAll o item.mapping := by
    apply w.cells.writeAll_writeAll
    rw [hp.keys_eq]
    exact hl
  refine ⟨hp.need_eq, hp.keys_eq, ?_, fun hno => ?_, hp.addresses, fun hyes => ?_, fun k hk => ?_⟩
  · rw [hsame]
    exact hp.near
  · rw [hsame, hp.quiet hno]
  · exact w.fits_writeAll l (hp.fits hyes)
  · exact w.inRange_writeAll l (hp.inRange k hk)

/-- Neither do the addresses, if they are updated. -/
lemma of_near (hneed : need = true) (hnear : w.Near o o') :
    Produced w affected need o' item created := by
  refine ⟨hp.need_eq, hp.keys_eq, ?_, fun hno => ?_, hp.addresses, fun hyes => ?_, fun k hk => ?_⟩
  · exact w.near.trans (w.near_writeAll _ (w.near.symm hnear)) hp.near
  · nomatch hneed.symm.trans hno
  · exact w.fits_near hnear (hp.fits hyes)
  · exact w.inRange_near hnear (hp.inRange k hk)

/-- Showing one state leaves the others as they are. -/
lemma of_shown (hp' : Produced w affected need o item' created') :
    Produced w affected need created' item created := by
  have hwrite := hp.writeAll fun k hk => hp'.keys_eq ▸ hk
  rcases need with _ | _
  · rwa [hp'.quiet rfl] at hwrite
  · exact hwrite.of_near rfl hp'.near

lemma shaped (ho : w.Shaped o) : w.Shaped created := by
  rcases need with _ | _
  · rw [← hp.quiet rfl]
    exact w.shaped_writeAll item.mapping ho
  · exact w.shaped_of_fits (w.fits_near hp.near (w.fits_writeAll item.mapping (hp.fits rfl)))

end

/-- A state that is not marked is shown as it was created. -/
theorem asSystemState_ok (hp : Produced w affected need (w.seen c.state) item
    created) (hactive : c.active ≠ some item.id) :
    ∃ c', c.asSystemState h item = .ok c' ∧ w.seen c'.state = created ∧
      c'.active = some item.id ∧ c'.next = c.next := by
  have hrange : ∀ k ∈ item.mapping.map Prod.fst, w.InRange (w.seen c.state) k := by
    rw [hp.keys_eq]
    exact hp.inRange
  obtain ⟨s, hs, hseen⟩ := w.setAll_ok hrange
  have hshown : ∃ s', h.updateIf item.needAddressUpdate s = .ok s' ∧ w.seen s' = created := by
    rw [hp.need_eq]
    rcases need with _ | _
    · exact ⟨s, rfl, hseen.trans (hp.quiet rfl)⟩
    · exact w.update_ok (hseen.symm ▸ hp.near) (hp.addresses rfl)
  obtain ⟨s', hs', hcreated⟩ := hshown
  refine ⟨{ c with state := s', active := some item.id }, ?_, hcreated, rfl, rfl⟩
  unfold SimpleShared.asSystemState
  rw [if_neg hactive, hs, ok_bind, hs']
  rfl

end Produced

/-- The shared states that advancing the iterator and showing states lead to, with the states
produced so far as they were when they were created, and with how many advances have changed what is
seen since a state was last written. -/
inductive SimpleReached (h : Host S K V) (seen : S → O) (affected : List K) (need : Bool)
    (baseState : S) : SimpleShared S → List (SimpleItem K V × O) → ℕ → Prop
  | build (hneed : h.needsAdapt affected = .ok need) :
      SimpleReached h seen affected need baseState (SimpleShared.build baseState) [] 0
  | advance {c c' items count : _} (f : S → Partial (Bool × S)) {created changed s changes r : _} :
      SimpleReached h seen affected need baseState c items count → f c.state = .ok (created, s) →
      ChangesOnly h seen affected c.state s changes →
      c.advance h affected need f = .ok (r, c') →
      (changed = true ↔ seen c'.state ≠ seen c.state) →
      SimpleReached h seen affected need baseState c'
        (items ++ (r.map fun item => (item, seen c'.state)).toList) (count + changed.toNat)
  | asSystemState {c c' items count item o : _} :
      SimpleReached h seen affected need baseState c items count → (item, o) ∈ items →
      c.asSystemState h item = .ok c' →
      SimpleReached h seen affected need baseState c' items
        (if c.active = some item.id then count else 0)

/-- What holds in every run. -/
structure SimpleShared.Inv (w : Observes h O) (affected : List K) (need : Bool)
    (c : SimpleShared S) (items : List (SimpleItem K V × O)) : Prop where
  shaped : w.Shaped (w.seen c.state)
  produced : ∀ p ∈ items, Produced w affected need (w.seen c.state) p.1 p.2

/-- Adapting the addresses keeps the cells and their values. -/
def Observes.KeepsCells (w : Observes h O) : Prop :=
  ∀ {s s' k}, h.adapt s = .ok (true, s') → w.InRange (w.seen s) k →
    w.InRange (w.seen s') k ∧ w.cells.read (w.seen s') k = w.cells.read (w.seen s) k

namespace SimpleShared

variable {w : Observes h O} {affected : List K} {need : Bool} {c c' : SimpleShared S}
  {items : List (SimpleItem K V × O)} {s s' : S}

/-- The state that was just created. -/
lemma produced_new (mapping : List (K × V)) (id : ℕ)
    (hrange : ∀ k ∈ affected, w.InRange (w.seen s') k)
    (hmapping : mapping = w.values (w.seen s') affected)
    (hmatch : need = true → w.Match (w.seen s') ∧ w.Fits (w.seen s')) :
    Produced w affected need (w.seen s') ⟨mapping, need, id⟩ (w.seen s') := by
  subst hmapping
  have hback : w.cells.writeAll (w.seen s') (w.values (w.seen s') affected) = w.seen s' :=
    w.cells.writeAll_read _ _
  refine ⟨rfl, w.map_fst_values _ _, ?_, fun _ => hback, fun hyes => (hmatch hyes).1,
    fun hyes => (hmatch hyes).2, hrange⟩
  rw [hback]
  exact w.near.refl _

/-- The addresses are adapted, if that is needed. -/
lemma Inv.accept {accepted : Bool} {mapping : List (K × V)} (hread : w.KeepsCells)
    (hinv : Inv w affected need ⟨s, c.active, c.next⟩ items)
    (hmapping : Shared.readAll h s affected = .ok mapping)
    (haccept : Shared.accept h need true s = .ok (accepted, s')) :
    Inv w affected need ⟨s', c.active, c.next⟩ items ∧ ∀ id, accepted = true →
      Produced w affected need (w.seen s') ⟨mapping, need, id⟩ (w.seen s') := by
  obtain ⟨hrange, rfl⟩ := w.readAll_eq_ok_iff.mp hmapping
  rcases need with _ | _
  · obtain ⟨rfl, rfl⟩ := ok_pair_inj haccept
    exact ⟨hinv, fun id _ => produced_new _ id hrange rfl nofun⟩
  · have hadapt : h.adapt s = .ok (accepted, s') := haccept
    refine ⟨⟨w.adapt_shaped hadapt hinv.shaped, fun p hp => ?_⟩, ?_⟩
    · have hproduced := hinv.produced p hp
      exact hproduced.of_near rfl (w.adapt_near hadapt (hproduced.fits rfl))
    · rintro id rfl
      apply produced_new _ id (fun k hk => (hread hadapt (hrange k hk)).1)
      · apply map_congr_left
        intro k hk
        rw [(hread hadapt (hrange k hk)).2]
      · exact fun _ => w.adapt_true hadapt hinv.shaped

lemma Inv.advance {f : S → Partial (Bool × S)} {created : Bool} {changes : List (K × V)}
    {r : Option (SimpleItem K V)} (hread : w.KeepsCells) (hinv : c.Inv w affected need items)
    (hf : f c.state = .ok (created, s)) (honly : ChangesOnly h w.seen affected c.state s changes)
    (hadvance : c.advance h affected need f = .ok (r, c')) :
    c'.Inv w affected need (items ++ (r.map fun item => (item, w.seen c'.state)).toList) := by
  obtain ⟨hchanges, s₁, hs₁, hseen⟩ := honly
  have hkeys : ∀ k ∈ changes.map Prod.fst, k ∈ affected := by
    rw [(w.readAll_eq_ok_iff.mp hchanges).2, w.map_fst_values]
    exact fun k hk => hk
  rw [(w.setAll_eq_ok hs₁).2] at hseen
  have hinv₁ : Inv w affected need ⟨s, c.active, c.next + 1⟩ items := by
    refine ⟨?_, fun p hp => ?_⟩
    · show w.Shaped (w.seen s)
      rw [← hseen]
      exact w.shaped_writeAll changes hinv.shaped
    · show Produced w affected need (w.seen s) p.1 p.2
      rw [← hseen]
      exact (hinv.produced p hp).writeAll hkeys
  unfold SimpleShared.advance at hadvance
  rw [hf, ok_bind] at hadvance
  dsimp only at hadvance
  split at hadvance
  · obtain ⟨mapping, hmapping, hadvance⟩ := ok_of_bind hadvance
    obtain ⟨⟨accepted, s'⟩, haccept, hadvance⟩ := ok_of_bind hadvance
    obtain ⟨rfl, rfl⟩ := ok_pair_inj hadvance
    obtain ⟨hinv₂, hnew⟩ := Inv.accept (c := ⟨s, c.active, c.next + 1⟩) hread hinv₁ hmapping haccept
    refine ⟨hinv₂.shaped, forall_mem_append.mpr ⟨hinv₂.produced, ?_⟩⟩
    rcases accepted with _ | _
    · exact forall_mem_nil _
    · exact forall_mem_singleton.mpr (hnew c.next rfl)
  · obtain ⟨rfl, rfl⟩ := ok_pair_inj hadvance
    rw [map_none, toList_none, append_nil]
    exact hinv₁

end SimpleShared

/-- The states have different numbers, and what the count says of the state that is marked. -/
structure SimpleShared.Marked (w : Observes h O) (c : SimpleShared S)
    (items : List (SimpleItem K V × O)) (count : ℕ) : Prop where
  active_lt : ∀ id ∈ c.active, id < c.next
  id_lt : ∀ p ∈ items, p.1.id < c.next
  unique : ∀ p ∈ items, ∀ q ∈ items, p.1.id = q.1.id → p.2 = q.2
  unchanged : ∀ p ∈ items, c.active = some p.1.id → count = 0 → w.seen c.state = p.2
  changed : ∀ p ∈ items, c.active = some p.1.id → count = 1 → w.seen c.state ≠ p.2

namespace SimpleShared.Marked

variable {w : Observes h O} {affected : List K} {need : Bool} {c' : SimpleShared S}
  {items : List (SimpleItem K V × O)} {count : ℕ}

/-- The iterator numbers the states and leaves the marker. -/
lemma frame_of_advance {f : S → Partial (Bool × S)} {r : Option (SimpleItem K V)}
    (hadvance : c.advance h affected need f = .ok (r, c')) :
    c'.active = c.active ∧ c'.next = c.next + 1 ∧ ∀ item ∈ r, item.id = c.next := by
  obtain ⟨⟨created, s⟩, -, hadvance⟩ := ok_of_bind hadvance
  dsimp only at hadvance
  split at hadvance
  · obtain ⟨mapping, -, hadvance⟩ := ok_of_bind hadvance
    obtain ⟨⟨accepted, s'⟩, -, hadvance⟩ := ok_of_bind hadvance
    obtain ⟨rfl, rfl⟩ := ok_pair_inj hadvance
    refine ⟨rfl, rfl, fun item hitem => ?_⟩
    cases accepted with
    | true => cases hitem; rfl
    | false => cases hitem
  · obtain ⟨rfl, rfl⟩ := ok_pair_inj hadvance
    exact ⟨rfl, rfl, nofun⟩

lemma advance (hmarked : c.Marked w items count) {f : S → Partial (Bool × S)} {changed : Bool}
    {r : Option (SimpleItem K V)} (hadvance : c.advance h affected need f = .ok (r, c'))
    (hchanged : changed = true ↔ w.seen c'.state ≠ w.seen c.state) :
    c'.Marked w (items ++ (r.map fun item => (item, w.seen c'.state)).toList)
      (count + changed.toNat) := by
  obtain ⟨hactive, hnext, hid⟩ := frame_of_advance hadvance
  have hnew : ∀ p ∈ (r.map fun item => (item, w.seen c'.state)).toList,
      p.1.id = c.next ∧ p.2 = w.seen c'.state := by
    intro p hp
    obtain ⟨item, hitem, rfl⟩ := Option.map_eq_some_iff.mp (mem_toList.mp hp)
    exact ⟨hid item hitem, rfl⟩
  -- the state that is marked is not the new one
  have hold : ∀ p ∈ items ++ (r.map fun item => (item, w.seen c'.state)).toList,
      c'.active = some p.1.id → p ∈ items ∧ c.active = some p.1.id := by
    intro p hp hshown
    rw [hactive] at hshown
    refine ⟨(mem_append.mp hp).resolve_right fun hp => ?_, hshown⟩
    exact (hmarked.active_lt _ hshown).ne (hnew p hp).1
  have hsame : changed = false → w.seen c'.state = w.seen c.state := fun hno =>
    not_not.mp (mt hchanged.mpr (by simp [hno]))
  refine ⟨?_, ?_, ?_, fun p hp hshown h0 => ?_, fun p hp hshown h1 => ?_⟩
  · rw [hactive, hnext]
    exact fun id hid => Nat.lt_succ_of_lt (hmarked.active_lt id hid)
  · rw [hnext]
    refine forall_mem_append.mpr ⟨fun p hp => Nat.lt_succ_of_lt (hmarked.id_lt p hp), ?_⟩
    exact fun p hp => (hnew p hp).1 ▸ Nat.lt_succ_self _
  · intro p hp q hq heq
    rcases mem_append.mp hp with hp | hp <;> rcases mem_append.mp hq with hq | hq
    · exact hmarked.unique p hp q hq heq
    · exact absurd (heq.trans (hnew q hq).1) (hmarked.id_lt p hp).ne
    · exact absurd (heq.symm.trans (hnew p hp).1) (hmarked.id_lt q hq).ne
    · exact (hnew p hp).2.trans (hnew q hq).2.symm
  · obtain ⟨hp, hshown⟩ := hold p hp hshown
    cases changed with
    | true => cases h0
    | false => exact (hsame rfl).trans (hmarked.unchanged p hp hshown h0)
  · obtain ⟨hp, hshown⟩ := hold p hp hshown
    cases changed with
    | true =>
      rw [← hmarked.unchanged p hp hshown (Nat.succ.inj h1)]
      exact hchanged.mp rfl
    | false => exact hsame rfl ▸ hmarked.changed p hp hshown h1

/-- A state that is written is seen as it was created. -/
lemma shown (hmarked : c.Marked w items count) {item : SimpleItem K V} {created : O}
    (hmem : (item, created) ∈ items) (hseen : w.seen c'.state = created)
    (hmark : c'.active = some item.id) (hnext : c'.next = c.next) : c'.Marked w items 0 := by
  refine ⟨fun id hid => ?_, hnext ▸ hmarked.id_lt, hmarked.unique, fun p hp hshown _ => ?_, nofun⟩
  · obtain rfl := Option.mem_unique hmark hid
    exact hnext ▸ hmarked.id_lt _ hmem
  · rw [hseen]
    exact hmarked.unique _ hmem p hp (Option.some.inj (hmark.symm.trans hshown))

end SimpleShared.Marked

lemma SimpleReached.inv {w : Observes h O} {affected : List K} {need : Bool} {baseState : S}
    {items : List (SimpleItem K V × O)} {count : ℕ} (hread : w.KeepsCells)
    (hshaped : w.Shaped (w.seen baseState))
    (hrun : SimpleReached h w.seen affected need baseState c items count) :
    c.Inv w affected need items ∧ c.Marked w items count := by
  induction hrun with
  | build => exact ⟨⟨hshaped, nofun⟩, nofun, nofun, nofun, nofun, nofun⟩
  | advance f _ hf honly hadvance hchanged ih =>
    exact ⟨ih.1.advance hread hf honly hadvance, ih.2.advance hadvance hchanged⟩
  | @asSystemState c c' items count item o _ hmem hcall ih =>
    obtain ⟨hinv, hmarked⟩ := ih
    split
    next hactive =>
      unfold SimpleShared.asSystemState at hcall
      rw [if_pos hactive] at hcall
      obtain rfl := Except.ok.inj hcall
      exact ⟨hinv, hmarked⟩
    next hactive =>
      obtain ⟨c₁, hc₁, hseen, hmark, hnext⟩ := (hinv.produced _ hmem).asSystemState_ok hactive
      obtain rfl := ok_unique hcall hc₁
      refine ⟨⟨?_, fun p hp => ?_⟩, hmarked.shown hmem hseen hmark hnext⟩
      · rw [hseen]
        exact (hinv.produced _ hmem).shaped hinv.shaped
      · rw [hseen]
        exact (hinv.produced p hp).of_shown (hinv.produced _ hmem)

/-! ## Bytes -/

variable {A : Arch} {g : StateGen A} {view : SystemStateByteView A} {p : ℕ × ℕ}

lemma access_of_findAccess {x offset : ℕ} {l : List (MemoryAccess A.Reg × ℕ)}
    (hx : offset ≤ x) (hp : findAccess x offset l = some p) :
    ∃ access, (access, p.1) ∈ l ∧ p.2 < access.size.2.toNat := by
  induction l generalizing offset with
  | nil => cases hp
  | cons head l ih =>
    unfold findAccess at hp
    split at hp
    next hlt =>
      obtain rfl := some.inj hp
      refine ⟨head.1, mem_cons_self, ?_⟩
      omega
    next hlt =>
      obtain ⟨access, hmem, hlt'⟩ := ih (by omega) hp
      exact ⟨access, .tail _ hmem, hlt'⟩

lemma access_of_locate {k : ℕ} (hp : view.locate k = some p) :
    ∃ access, view.memoryAccesses.memory[p.1]? = some access ∧ p.1 ≠ 0 ∧
      p.2 < access.size.2.toNat := by
  obtain ⟨access, hmem, hsize⟩ := access_of_findAccess (Nat.zero_le _) hp
  obtain ⟨i, hi⟩ := getElem?_of_mem hmem
  rw [getElem?_drop, getElem?_zipIdx, map_eq_some_iff] at hi
  obtain ⟨access', haccess, heq⟩ := hi
  obtain ⟨rfl, hindex⟩ := Prod.mk.inj heq
  rw [zero_add] at hindex
  refine ⟨access', ?_, by omega, hsize⟩
  rw [← hindex]
  exact haccess

/-- Cropping does not reach the bytes of the view. -/
lemma readSeen_of_adapt (hview : view.memoryAccesses = g.accesses) {s s' : SystemState A} {k : ℕ}
    (hadapt : g.adapt s false = .ok (true, s')) (hrange : view.InRange s.seen k) :
    view.InRange s'.seen k ∧ view.readSeen s'.seen k = view.readSeen s.seen k := by
  obtain ⟨hcpu, hadj, -⟩ := StateGen.adapt_adjusted hadapt
  by_cases hk : k < view.bytes.size
  · rw [readSeen_reg hk, readSeen_reg hk]
    exact ⟨.inl hk, congrArg (view.bytes.getStateByte · k) hcpu⟩
  · obtain ⟨p, e, hp, he, hlt⟩ := hrange.resolve_left hk
    obtain ⟨access, haccess, hne, hsize⟩ := access_of_locate hp
    rw [hview] at haccess
    have hi : p.1 < s'.memory.length := by
      rw [hadj.length_eq]
      exact lt_of_getElem? he
    have he' := getElem?_eq_getElem hi
    have hwindow := (hadj.entries p.1 e _ he he').window_eq
    unfold StateGen.window at hwindow
    rw [haccess] at hwindow
    dsimp only at hwindow
    rw [if_neg hne, if_neg hne] at hwindow
    have hbyte : s'.memory[p.1].data[p.2]? = e.data[p.2]? := by
      rw [← getElem?_take_of_lt hsize, hwindow, getElem?_take_of_lt hsize]
    refine ⟨.inr ⟨p, _, hp, he', ?_⟩, ?_⟩
    · rw [getElem?_eq_getElem hlt] at hbyte
      exact lt_of_getElem? hbyte
    · rw [readSeen_memory hk hp, readSeen_memory hk hp]
      show readByte s'.memory p = readByte s.memory p
      have he₀ : s.memory[p.1]? = some e := he
      unfold readByte
      rw [he', he₀, bind_some, bind_some, hbyte]

/-- What is seen through a state that `SimpleJitState::build` has produced, in any interleaving of
advancing the iterator and showing states: the state as it was created if it is not marked or no
advance has changed what is seen since it was written, and something else after the first one that
has. -/
theorem simpleJitState_shows_iff {accesses : MemoryAccesses A.Reg} {canMap : U64 → Bool}
    (hnew : StateGen.new accesses canMap = .ok (.ok g)) (hb : view.bytes.Lawful)
    (hview : view.memoryAccesses = g.accesses) {baseState : SystemState A}
    (hcovered : g.Covered baseState.seen) {affected : List ℕ} {need : Bool}
    {c : SimpleShared (SystemState A)} {items : List (SimpleItem ℕ U8 × Seen A)} {count : ℕ}
    (hrun : SimpleReached (byteHost g view) seen affected need baseState c items count)
    {item : SimpleItem ℕ U8} {created : Seen A} (hitem : (item, created) ∈ items) :
    ∃ c', c.asSystemState (byteHost g view) item = .ok c' ∧
      ((c.active = some item.id → count = 0) → c'.state.seen = created) ∧
      (c.active = some item.id → count = 1 → c'.state.seen ≠ created) := by
  obtain ⟨hinv, hmarked⟩ :=
    SimpleReached.inv (w := byteObserves hb (StateGen.tracksRegisters_of_new hnew))
      (fun hadapt => readSeen_of_adapt hview hadapt) hcovered hrun
  by_cases hactive : c.active = some item.id
  · refine ⟨c, ?_, fun h0 => hmarked.unchanged _ hitem hactive (h0 hactive),
      hmarked.changed _ hitem⟩
    unfold SimpleShared.asSystemState
    rw [if_pos hactive]
    rfl
  · obtain ⟨c', hc', hseen, -⟩ := (hinv.produced _ hitem).asSystemState_ok hactive
    exact ⟨c', hc', fun _ => hseen, fun hmark => absurd hmark hactive⟩

/-! ### Showing a state again after the iterator has advanced -/

/-- The low byte of the register. -/
def lowByte : StateBytes tinyArch where
  size := 1
  getStateByte cpu _ := BitVec.setWidth 8 (cpu : U64)
  setStateByte cpu _ v := BitVec.append (BitVec.extractLsb' 8 56 (cpu : U64)) v
  stateByteToReg k := ((), k)

lemma append_lowByte (x : U64) : x.extractLsb' 8 56 ++ x.setWidth 8 = x := by
  ext i hi
  rw [BitVec.getElem_append]
  split
  next hlt => rw [BitVec.getElem_setWidth, BitVec.getLsbD_eq_getElem hi]
  next hge =>
    rw [BitVec.getElem_extractLsb', Nat.add_sub_cancel' (Nat.not_lt.mp hge),
      BitVec.getLsbD_eq_getElem hi]

lemma lowByte_lawful : lowByte.Lawful where
  set_get cpu _ _ := append_lowByte cpu
  set_set cpu _ _ v w := congrArg (· ++ w) (BitVec.extractLsb'_append_eq_left)
  set_comm _ k hk l hl _ _ hne :=
    absurd ((Nat.lt_one_iff.mp hk).trans (Nat.lt_one_iff.mp hl).symm) hne
  get_set_of_ne _ k hk l hl _ hne :=
    absurd ((Nat.lt_one_iff.mp hk).trans (Nat.lt_one_iff.mp hl).symm) hne
  value_set _ _ _ _ _ h := absurd h (by rintro (hne | hzero); exacts [hne rfl, absurd hzero nofun])

/-- The states that are shown differ in the first byte of the memory. -/
def memoryView : SystemStateByteView tinyArch := ⟨lowByte, pairAccesses⟩

/-- A state whose byte 1 has a value. -/
def itemFor (v : U8) (id : ℕ) : SimpleItem ℕ U8 := ⟨[(1, v)], false, id⟩

lemma seen_pairState_ne {v v' : U8} (h : v ≠ v') :
    (pairState 0x10000 [v, 2]).seen ≠ (pairState 0x10000 [v', 2]).seen := by
  intro hseen
  have hdata := congrArg (fun o => (o.2.map (·.data))[1]?) hseen
  injection hdata with hdata
  injection hdata with hv
  exact h hv

/-- The states that are produced in the runs. -/
def producedItems : List (SimpleItem ℕ U8 × Seen tinyArch) :=
  [(itemFor 7 0, (pairState 0x10000 [7, 2]).seen), (itemFor 8 1, (pairState 0x10000 [8, 2]).seen)]

/-- The runs from the bytes 1 and 2 in which the first of them changes. -/
abbrev PairReached :=
  SimpleReached (byteHost pairGen memoryView) seen [1] false (pairState 0x10000 [1, 2])

/-- The first state is shown before the iterator produces the second. -/
lemma reached_second : PairReached ⟨pairState 0x10000 [8, 2], some 0, 2⟩ producedItems 1 := by
  have hfirst : PairReached ⟨pairState 0x10000 [7, 2], none, 1⟩
      [(itemFor 7 0, (pairState 0x10000 [7, 2]).seen)] 1 :=
    .advance (r := some (itemFor 7 0)) (fun _ => .ok (true, pairState 0x10000 [7, 2])) (.build rfl)
      rfl ⟨rfl, _, rfl, rfl⟩ rfl (iff_of_true rfl (seen_pairState_ne (by decide)))
  exact .advance (r := some (itemFor 8 1)) (fun _ => .ok (true, pairState 0x10000 [8, 2]))
    (.asSystemState hfirst (.head _) rfl) rfl ⟨rfl, _, rfl, rfl⟩ rfl
    (iff_of_true rfl (seen_pairState_ne (by decide)))

/-- Once the second state has been shown, the first one is shown again as it was created. -/
theorem simpleJitState_shows_again :
    ∃ c c' : SimpleShared (SystemState tinyArch),
      PairReached c producedItems 0 ∧ c.active = some 1 ∧
      c.asSystemState (byteHost pairGen memoryView) (itemFor 7 0) = .ok c' ∧
      c'.state.seen = (pairState 0x10000 [7, 2]).seen := by
  have hcovered : pairGen.Covered (pairState 0x10000 [1, 2]).seen := Nat.le_refl 2
  have hrun := SimpleReached.asSystemState reached_second (.tail _ (.head _)) rfl
  obtain ⟨c', hc', hshows, -⟩ := simpleJitState_shows_iff new_pairAccesses lowByte_lawful rfl hcovered
    hrun (.head _)
  exact ⟨_, c', hrun, rfl, hc', hshows fun _ => rfl⟩

/-- The first state is shown, the iterator advances, and the first state is shown again. -/
theorem shows_later_state : ∃ c c' : SimpleShared (SystemState tinyArch),
    PairReached c producedItems 1 ∧
    c.asSystemState (byteHost pairGen memoryView) (itemFor 7 0) = .ok c' ∧
    c'.state.seen ≠ (pairState 0x10000 [7, 2]).seen :=
  ⟨_, _, reached_second, rfl, seen_pairState_ne (by decide)⟩

end LibLisa.State.Jit
