import LibLisa.Lib.Cells
import LibLisa.State.Jit

/-!
# Just-in-time states show what materialised states would

`Observes` says what the observer of a shared state sees, and what a host does to that: the cells
that are read and written are cells in the sense of `Cells`, and what writes may not touch, the
addresses, is determined by the rest (`near_match`).

A state is shown by writing the old values of the state before it back and its own values after
that. Both are writes of cells, so what is seen in the end is the base state with the changes
(`Inv.asSystemState_ok`); the addresses are updated if the changes can move them.
-/

namespace LibLisa.State.Jit

open Lib List

variable {S K V O : Type} {r : Option ℕ} {s' : S} {base : O}

/-- Only the given cells have changed: writing the values that they have afterwards leads to the
same state, as far as it is seen. -/
def ChangesOnly (h : Host S K V) (seen : S → O) (keys : List K) (s s' : S)
    (changes : List (K × V)) : Prop :=
  Shared.readAll h s' keys = .ok changes ∧ ∃ s'', h.setAll s changes = .ok s'' ∧ seen s'' = seen s'

/-- The base with changes, and the addresses recomputed. -/
def materialise (h : Host S K V) (baseState : S) (changes : List (K × V)) : Partial S := do
  h.updateAddresses (← h.setAll baseState changes)

/-- What is seen of the states of a host. -/
structure Observes (h : Host S K V) (O : Type) where
  seen : S → O
  cells : Cells O K V
  /-- The cell exists. -/
  InRange : O → K → Prop
  /-- The same but for the addresses. -/
  Near : O → O → Prop
  /-- The addresses are the ones that the registers determine. -/
  Match : O → Prop
  /-- There is an entry for every access. -/
  Shaped : O → Prop
  /-- There is an entry for every access, and none is too large. -/
  Fits : O → Prop
  near : Equivalence Near
  near_match : ∀ {o o'}, Near o o' → Match o → Match o' → o = o'
  near_read : ∀ {o o'} (k), Near o o' → cells.read o' k = cells.read o k
  near_write : ∀ {o o'} (k v), Near o o' → Near (cells.write o k v) (cells.write o' k v)
  inRange_near : ∀ {o o' k}, Near o o' → InRange o k → InRange o' k
  inRange_write : ∀ {o k} (l v), InRange o k → InRange (cells.write o l v) k
  fits_near : ∀ {o o'}, Near o o' → Fits o → Fits o'
  fits_write : ∀ {o} (k v), Fits o → Fits (cells.write o k v)
  shaped_write : ∀ {o} (k v), Shaped o → Shaped (cells.write o k v)
  shaped_of_fits : ∀ {o}, Fits o → Shaped o
  get_eq_ok_iff : ∀ {s k v}, h.get s k = .ok v ↔ InRange (seen s) k ∧ cells.read (seen s) k = v
  set_ok : ∀ {s k} (v), InRange (seen s) k →
    ∃ s', h.set s k v = .ok s' ∧ seen s' = cells.write (seen s) k v
  inRange_of_set : ∀ {s s' k v}, h.set s k v = .ok s' → InRange (seen s) k
  update_ok : ∀ {s o}, Near (seen s) o → Match o →
    ∃ s', h.updateAddresses s = .ok s' ∧ seen s' = o
  quiet : ∀ {keys k o} (v), h.needsAdapt keys = .ok false → k ∈ keys → Match o →
    Match (cells.write o k v)
  adapt_true : ∀ {s s'}, h.adapt s = .ok (true, s') → Shaped (seen s) →
    Match (seen s') ∧ Fits (seen s')
  adapt_near : ∀ {s s' b}, h.adapt s = .ok (b, s') → Fits (seen s) → Near (seen s) (seen s')
  adapt_shaped : ∀ {s s' b}, h.adapt s = .ok (b, s') → Shaped (seen s) → Shaped (seen s')

namespace Observes

variable {h : Host S K V} (w : Observes h O)

variable {o : O}

lemma near_writeAll {o' : O} (l : List (K × V)) (hnear : w.Near o o') :
    w.Near (w.cells.writeAll o l) (w.cells.writeAll o' l) := by
  induction l generalizing o o' with
  | nil => exact hnear
  | cons p l ih => exact ih (w.near_write p.1 p.2 hnear)

lemma inRange_writeAll {k : K} (l : List (K × V)) (hk : w.InRange o k) :
    w.InRange (w.cells.writeAll o l) k :=
  foldlRecOn (motive := (w.InRange · k)) l _ hk fun _ ho p _ => w.inRange_write p.1 p.2 ho

lemma fits_writeAll (l : List (K × V)) (hfits : w.Fits o) : w.Fits (w.cells.writeAll o l) :=
  foldlRecOn l _ hfits fun _ ho p _ => w.fits_write p.1 p.2 ho

lemma shaped_writeAll (l : List (K × V)) (hshaped : w.Shaped o) : w.Shaped (w.cells.writeAll o l) :=
  foldlRecOn l _ hshaped fun _ ho p _ => w.shaped_write p.1 p.2 ho

variable {l : List (K × V)} {keys : List K}

/-- Changes that do not need an update leave the addresses right. -/
lemma match_writeAll (hneed : h.needsAdapt keys = .ok false)
    (hl : ∀ k ∈ l.map Prod.fst, k ∈ keys) (hmatch : w.Match o) : w.Match (w.cells.writeAll o l) :=
  foldlRecOn l _ hmatch fun _ ho p hp => w.quiet p.2 hneed (hl p.1 (mem_map_of_mem hp)) ho

variable {s : S}

lemma setAll_ok (hl : ∀ k ∈ l.map Prod.fst, w.InRange (w.seen s) k) :
    ∃ s', h.setAll s l = .ok s' ∧ w.seen s' = w.cells.writeAll (w.seen s) l := by
  induction l generalizing s with
  | nil => exact ⟨s, rfl, rfl⟩
  | cons p l ih =>
    rw [map_cons, forall_mem_cons] at hl
    obtain ⟨s₁, hs₁, hseen₁⟩ := w.set_ok p.2 hl.1
    obtain ⟨s₂, hs₂, hseen₂⟩ := ih fun k hk => by
      rw [hseen₁]
      exact w.inRange_write _ _ (hl.2 k hk)
    refine ⟨s₂, ?_, ?_⟩
    · show (h.set s p.1 p.2 >>= _) = _
      rw [hs₁]
      exact hs₂
    · rw [hseen₂, hseen₁, Cells.writeAll_cons]

lemma setAll_eq_ok (hs' : h.setAll s l = .ok s') :
    (∀ k ∈ l.map Prod.fst, w.InRange (w.seen s) k) ∧ w.seen s' = w.cells.writeAll (w.seen s) l := by
  have hrange : ∀ k ∈ l.map Prod.fst, w.InRange (w.seen s) k := by
    induction l generalizing s with
    | nil => exact fun k hk => nomatch hk
    | cons p l ih =>
      obtain ⟨s₁, hs₁, hs'⟩ := ok_of_bind hs'
      have hp := w.inRange_of_set hs₁
      obtain ⟨s₁', hs₁', hseen⟩ := w.set_ok p.2 hp
      obtain rfl := ok_unique hs₁ hs₁'
      rw [map_cons, forall_mem_cons]
      refine ⟨hp, fun k hk => ?_⟩
      -- undoing the first write shows that the cell was there before it
      have hk₁ := w.inRange_write p.1 (w.cells.read (w.seen s) p.1) (ih hs' k hk)
      rw [hseen, w.cells.write_write, w.cells.write_read] at hk₁
      exact hk₁
  obtain ⟨s'', hs'', hseen⟩ := w.setAll_ok hrange
  obtain rfl := ok_unique hs' hs''
  exact ⟨hrange, hseen⟩

/-- Writing a list to a state that is near another one. -/
lemma setAll_near (hnear : w.Near o (w.seen s))
    (hrange : ∀ k ∈ l.map Prod.fst, w.InRange o k) (hbase : w.cells.writeAll o l = base) :
    ∃ s', h.setAll s l = .ok s' ∧ w.Near (w.seen s') base ∧ (w.seen s = o → w.seen s' = base) := by
  obtain ⟨s', hs', hseen⟩ := w.setAll_ok fun k hk => w.inRange_near hnear (hrange k hk)
  refine ⟨s', hs', ?_, fun heq => by rw [hseen, heq, hbase]⟩
  rw [hseen, ← hbase]
  exact w.near.symm (w.near_writeAll l hnear)

/-- The cells with the values that are seen in them. -/
def values (o : O) (keys : List K) : List (K × V) := keys.map fun k => (k, w.cells.read o k)

lemma map_fst_values (o : O) (keys : List K) : (w.values o keys).map Prod.fst = keys := by
  unfold values
  rw [map_map]
  exact map_id keys

lemma readAll_eq_ok_iff :
    Shared.readAll h s keys = .ok l ↔
      (∀ k ∈ keys, w.InRange (w.seen s) k) ∧ l = w.values (w.seen s) keys := by
  have hok : (∀ k ∈ keys, w.InRange (w.seen s) k) →
      Shared.readAll h s keys = .ok (w.values (w.seen s) keys) := by
    intro hrange
    apply mapM_eq_ok_map
    intro k hk
    rw [w.get_eq_ok_iff.mpr ⟨hrange k hk, rfl⟩]
    rfl
  constructor
  · intro hl
    have hrange : ∀ k ∈ keys, w.InRange (w.seen s) k := by
      intro k hk
      obtain ⟨p, hp⟩ := exists_of_mem_of_mapM hl hk
      obtain ⟨v, hv, -⟩ := ok_of_bind hp
      exact (w.get_eq_ok_iff.mp hv).1
    exact ⟨hrange, ok_unique hl (hok hrange)⟩
  · rintro ⟨hrange, rfl⟩
    exact hok hrange

/-- The addresses after an update that is skipped if it is not needed. -/
lemma updateIf_ok {need : Bool} (hnear : w.Near (w.seen s) o) (hmatch : w.Match o)
    (hquiet : need = false → w.seen s = o) : ∃ s', h.updateIf need s = .ok s' ∧ w.seen s' = o := by
  rcases need with _ | _
  · exact ⟨s, rfl, hquiet rfl⟩
  · exact w.update_ok hnear hmatch

/-! ## The state that an id stands for -/

/-- The base with changes, and the addresses of that. -/
structure Materialises (base : O) (changes : List (K × V)) (o : O) : Prop where
  near : w.Near (w.cells.writeAll base changes) o
  matches_addresses : w.Match o

/-- An item that stands for changes of the base. -/
structure Represents (base : O) (changes : List (K × V)) (item : Item K V) (o : O) : Prop where
  materialises : w.Materialises base changes o
  applied : w.cells.writeAll base (item.mapping.map fun e => (e.key, e.toValue)) =
    w.cells.writeAll base changes
  fromValue_eq : ∀ e ∈ item.mapping, e.fromValue = w.cells.read base e.key
  inRange : ∀ e ∈ item.mapping, w.InRange base e.key
  inRange_changes : ∀ k ∈ changes.map Prod.fst, w.InRange base k
  quiet : item.needAddressUpdate = false → o = w.cells.writeAll base changes

variable {w} {changes : List (K × V)} {item : Item K V} {o' : O}

lemma Materialises.unique (hm : w.Materialises base changes o)
    (hm' : w.Materialises base changes o') : o = o' :=
  w.near_match (w.near.trans (w.near.symm hm.near) hm'.near) hm.matches_addresses
    hm'.matches_addresses

namespace Represents

section

variable (hr : w.Represents base changes item o)
include hr

/-- The state that an item stands for can be made from the base. -/
lemma materialise_ok (hs : w.seen s = base) :
    ∃ s', materialise h s changes = .ok s' ∧ w.seen s' = o := by
  have hbase : w.Near base (w.seen s) := by
    rw [hs]
    exact w.near.refl base
  obtain ⟨s₁, hs₁, hnear, -⟩ := w.setAll_near hbase hr.inRange_changes rfl
  obtain ⟨s₂, hs₂, hseen₂⟩ := w.update_ok (w.near.trans hnear hr.materialises.near)
    hr.materialises.matches_addresses
  refine ⟨s₂, ?_, hseen₂⟩
  unfold materialise
  rw [hs₁, ok_bind, hs₂]

/-- Taking the changes back leads to the base, up to addresses. -/
lemma revert_ok (hs : w.seen s = o) :
    ∃ s', item.revert h s = .ok s' ∧ w.Near (w.seen s') base ∧
      (item.needAddressUpdate = false → w.seen s' = base) := by
  have hkeys : ∀ f : Change K V → V,
      (item.mapping.map fun e => (e.key, f e)).map Prod.fst = item.mapping.map (·.key) := by
    intro f
    rw [map_map]
    rfl
  have hback : w.cells.writeAll (w.cells.writeAll base changes)
      (item.mapping.map fun e => (e.key, e.fromValue)) = base := by
    rw [← hr.applied, w.cells.writeAll_writeAll (fun k hk => by rwa [hkeys] at hk ⊢)]
    have hread : (item.mapping.map fun e => (e.key, e.fromValue)) =
        (item.mapping.map (·.key)).map fun k => (k, w.cells.read base k) := by
      rw [map_map]
      apply map_congr_left
      intro e he
      rw [hr.fromValue_eq e he]
      rfl
    rw [hread, w.cells.writeAll_read]
  have hrange : ∀ k ∈ (item.mapping.map fun e => (e.key, e.fromValue)).map Prod.fst,
      w.InRange (w.cells.writeAll base changes) k := by
    intro k hk
    rw [hkeys] at hk
    obtain ⟨e, he, rfl⟩ := mem_map.mp hk
    exact w.inRange_writeAll _ (hr.inRange e he)
  obtain ⟨s', hs', hnear, hsame⟩ := w.setAll_near (hs ▸ hr.materialises.near) hrange hback
  exact ⟨s', hs', hnear, fun hquiet => hsame (hs.trans (hr.quiet hquiet))⟩

/-- Applying the changes to the base, or to the base with other addresses. -/
lemma apply_ok (hs : w.Near (w.seen s) base) :
    ∃ s', item.apply h s = .ok s' ∧ w.Near (w.seen s') o ∧
      (w.seen s = base → item.needAddressUpdate = false → w.seen s' = o) := by
  have hrange : ∀ k ∈ (item.mapping.map fun e => (e.key, e.toValue)).map Prod.fst,
      w.InRange base k := by
    intro k hk
    obtain ⟨p, hp, rfl⟩ := mem_map.mp hk
    obtain ⟨e, he, rfl⟩ := mem_map.mp hp
    exact hr.inRange e he
  obtain ⟨s', hs', hnear, hsame⟩ := w.setAll_near (w.near.symm hs) hrange hr.applied
  exact ⟨s', hs', w.near.trans hnear hr.materialises.near,
    fun heq hquiet => (hsame heq).trans (hr.quiet hquiet).symm⟩

end

end Represents

end Observes

/-! ## Invariant of the shared state -/

/-- Every item stands for its changes, and the shared state is the base or the state that is
active. -/
structure Shared.Inv {h : Host S K V} (w : Observes h O) (base : O)
    (changes : List (List (K × V))) (c : Shared S K V) : Prop where
  length_eq : c.items.length = changes.length
  represents : ∀ (id : ℕ) (item : Item K V) (l : List (K × V)), c.items[id]? = some item →
    changes[id]? = some l → ∃ o, w.Represents base l item o
  shown_base : c.active = none → w.seen c.state = base
  shown_active : ∀ id : ℕ, c.active = some id → ∃ item l, c.items[id]? = some item ∧
    changes[id]? = some l ∧ w.Represents base l item (w.seen c.state)

namespace Shared

variable {h : Host S K V} {w : Observes h O} {changes : List (List (K × V))} {c c' : Shared S K V}

lemma inv_build {baseState : S} : Inv w (w.seen baseState) [] (Shared.build baseState) where
  length_eq := rfl
  represents := fun _ _ _ hitem => nomatch hitem
  shown_base _ := rfl
  shown_active _ hactive := nomatch hactive

section

variable (hinv : c.Inv w base changes)
include hinv

lemma Inv.revertActive_ok :
    ∃ need s, c.revertActive h = .ok (need, s) ∧ w.Near (w.seen s) base ∧
      (need = false → w.seen s = base) := by
  unfold revertActive activeItem
  rcases hactive : c.active with _ | id
  · have hbase := hinv.shown_base hactive
    refine ⟨false, c.state, rfl, ?_, fun _ => hbase⟩
    rw [hbase]
    exact w.near.refl base
  · obtain ⟨item, l, hitem, -, hr⟩ := hinv.shown_active id hactive
    obtain ⟨s, hs, hnear, hquiet⟩ := hr.revert_ok rfl
    refine ⟨item.needAddressUpdate, s, ?_, hnear, hquiet⟩
    dsimp only
    rw [hitem]
    show (item.revert h c.state >>= _) = _
    rw [hs]
    rfl

/-- The base state is shown again. -/
lemma Inv.asOriginalSystemState_ok (hmatch : w.Match base) :
    ∃ c', c.asOriginalSystemState h = .ok c' ∧ w.seen c'.state = base ∧ c'.active = none ∧
      c'.items = c.items := by
  obtain ⟨need, s, hs, hnear, hquiet⟩ := hinv.revertActive_ok
  obtain ⟨s', hs', hseen⟩ := w.updateIf_ok hnear hmatch hquiet
  refine ⟨{ c with state := s', active := none }, ?_, hseen, rfl, rfl⟩
  unfold asOriginalSystemState
  rw [hs, ok_bind]
  dsimp only
  rw [hs']
  rfl

lemma Inv.of_base (hseen : w.seen c'.state = base)
    (hactive : c'.active = none) (hitems : c'.items = c.items) : c'.Inv w base changes where
  length_eq := (congrArg List.length hitems).trans hinv.length_eq
  represents := fun id item l hitem => hinv.represents id item l (hitems ▸ hitem)
  shown_base _ := hseen
  shown_active _ hid := absurd (hactive.symm.trans hid) nofun

variable {l : List (K × V)}

/-- Any state that was created can be shown. -/
theorem Inv.asSystemState_ok {id : ℕ} (hl : changes[id]? = some l) :
    ∃ c', c.asSystemState h id = .ok c' ∧ w.Materialises base l (w.seen c'.state) ∧
      c'.Inv w base changes := by
  unfold asSystemState
  split
  next hactive =>
    obtain ⟨item, l', -, hl', hr⟩ := hinv.shown_active id hactive
    obtain rfl := Option.mem_unique hl hl'
    exact ⟨c, rfl, hr.materialises, hinv⟩
  next hactive =>
    have hlt : id < c.items.length := by
      rw [hinv.length_eq]
      exact lt_of_getElem? hl
    have hitem := getElem?_eq_getElem hlt
    obtain ⟨o, hr⟩ := hinv.represents id _ l hitem hl
    obtain ⟨need, s, hs, hnear, hquiet⟩ := hinv.revertActive_ok
    obtain ⟨s₁, hs₁, hnear₁, hquiet₁⟩ := hr.apply_ok hnear
    have hquiet₂ : (need || c.items[id].needAddressUpdate) = false → w.seen s₁ = o := by
      intro hnone
      rw [Bool.or_eq_false_iff] at hnone
      exact hquiet₁ (hquiet hnone.1) hnone.2
    obtain ⟨s₂, hs₂, hseen⟩ := w.updateIf_ok hnear₁ hr.materialises.matches_addresses hquiet₂
    refine ⟨{ c with state := s₂, active := some id }, ?_, ?_, ?_⟩
    · rw [hs, ok_bind]
      dsimp only
      rw [hitem, orPanic_some, ok_bind, hs₁, ok_bind, hs₂]
      rfl
    · show w.Materialises base l (w.seen s₂)
      rw [hseen]
      exact hr.materialises
    · refine ⟨hinv.length_eq, hinv.represents, nofun, ?_⟩
      rintro _ ⟨⟩
      refine ⟨_, l, hitem, hl, ?_⟩
      rw [hseen]
      exact hr

end

/-! ## Creating a state -/

/-- The entry for a new value. -/
def entryFor (w : Observes h O) (base : O) (p : K × V) : Change K V :=
  ⟨p.1, w.cells.read base p.1, p.2⟩

lemma map_zip_values (w : Observes h O) (base : O) (new : List (K × V)) :
    ((w.values base (new.map Prod.fst)).zip new).map
      (fun (o, n) => (⟨o.1, o.2, n.2⟩ : Change K V)) = new.map (entryFor w base) := by
  induction new with
  | nil => rfl
  | cons p new ih => exact congrArg (entryFor w base p :: ·) ih

variable [DecidableEq V]

variable {affected : List K} {new : List (K × V)}

/-- The entries that are kept write the new values. -/
lemma writeAll_entries (hnodup : (new.map Prod.fst).Nodup) :
    w.cells.writeAll base ((entries affected (w.values base (new.map Prod.fst)) new).map
      fun e => (e.key, e.toValue)) = w.cells.writeAll base new := by
  have hpair : (fun e => (e.key, e.toValue)) ∘ entryFor w base = id := rfl
  unfold entries
  rw [map_zip_values]
  split
  · rw [map_map, hpair, map_id]
  · rw [filter_map, map_map, hpair, map_id]
    exact w.cells.writeAll_filter hnodup

lemma mem_entries {e : Change K V}
    (he : e ∈ entries affected (w.values base (new.map Prod.fst)) new) :
    ∃ p ∈ new, entryFor w base p = e := by
  unfold entries at he
  rw [map_zip_values] at he
  split at he
  · exact mem_map.mp he
  · exact mem_map.mp (mem_of_mem_filter he)

variable {need : Bool}

/-- The item of a list of new values stands for changes that lead to the same state. -/
lemma represents_entries {changes : List (K × V)} {o : O} (hnodup : (new.map Prod.fst).Nodup)
    (hrange : ∀ k ∈ new.map Prod.fst, w.InRange base k)
    (hsame : w.cells.writeAll base new = w.cells.writeAll base changes)
    (hrange' : ∀ k ∈ changes.map Prod.fst, w.InRange base k) (hm : w.Materialises base changes o)
    (hquiet : need = false → o = w.cells.writeAll base changes) :
    w.Represents base changes
      ⟨entries affected (w.values base (new.map Prod.fst)) new, need⟩ o := by
  refine ⟨hm, (writeAll_entries hnodup).trans hsame, fun e he => ?_, fun e he => ?_, hrange',
    hquiet⟩
  · obtain ⟨p, -, rfl⟩ := mem_entries he
    rfl
  · obtain ⟨p, hp, rfl⟩ := mem_entries he
    exact hrange p.1 (mem_map_of_mem hp)

variable {s : S}

omit [DecidableEq V] in
/-- What is accepted has the right addresses, if they can have changed. -/
lemma accept_spec {created accepted : Bool} (hfits : w.Fits (w.seen s))
    (haccept : accept h need created s = .ok (accepted, s')) :
    w.Near (w.seen s) (w.seen s') ∧ (need = false → s' = s) ∧
      (accepted = true → created = true ∧ (need = true → w.Match (w.seen s'))) := by
  unfold accept at haccept
  split at haccept
  next hcreated =>
    split at haccept
    next hneed =>
      refine ⟨w.adapt_near haccept hfits, fun hno => absurd (hneed.symm.trans hno) nofun, ?_⟩
      rintro rfl
      exact ⟨hcreated, fun _ => (w.adapt_true haccept (w.shaped_of_fits hfits)).1⟩
    next hneed =>
      obtain ⟨rfl, rfl⟩ := ok_pair_inj haccept
      exact ⟨w.near.refl _, fun _ => rfl, fun _ => ⟨hcreated, fun hyes => absurd hyes hneed⟩⟩
  next hcreated =>
    obtain ⟨rfl, rfl⟩ := ok_pair_inj haccept
    exact ⟨w.near.refl _, fun _ => rfl, nofun⟩

omit [DecidableEq V] in
/-- One more item. -/
lemma Inv.push (hinv : c.Inv w base changes) {item : Item K V} {o : O}
    (hr : w.Represents base l item o) {active : Option ℕ} (hnone : active = none → w.seen s = base)
    (hsome : ∀ id, active = some id → id = c.items.length ∧ w.seen s = o) :
    Inv w base (changes ++ [l]) ⟨s, active, c.items ++ [item]⟩ where
  length_eq := by
    rw [length_append, length_append, hinv.length_eq]
    rfl
  represents := by
    intro id item' l' hitem hl
    rw [getElem?_append] at hitem hl
    rw [hinv.length_eq] at hitem
    split at hl
    next hlt =>
      rw [if_pos hlt] at hitem
      exact hinv.represents id item' l' hitem hl
    next hlt =>
      rw [if_neg hlt] at hitem
      obtain rfl := mem_singleton.mp (mem_of_getElem? hitem)
      obtain rfl := mem_singleton.mp (mem_of_getElem? hl)
      exact ⟨o, hr⟩
  shown_base := hnone
  shown_active := by
    intro id hid
    obtain ⟨rfl, hseen⟩ := hsome id hid
    refine ⟨item, l, ?_, ?_, ?_⟩
    · exact getElem?_concat_length
    · rw [hinv.length_eq]
      exact getElem?_concat_length
    · show w.Represents base l item (w.seen s)
      rw [hseen]
      exact hr

/-- The outcome of a creation with the given changes: the state gets the next id, or the base is
shown. -/
def Outcome (w : Observes h O) (base : O) (changes : List (List (K × V))) (l : List (K × V))
    (r : Option ℕ) (c' : Shared S K V) : Prop :=
  (r = none ∧ c'.Inv w base changes ∧ w.seen c'.state = base) ∨
    (r = some changes.length ∧ c'.Inv w base (changes ++ [l]))

omit [DecidableEq V] in
/-- The old values are written back. -/
lemma restore_ok (hmatch : w.Match base) (hrange : ∀ k ∈ affected, w.InRange base k)
    (hkeys : ∀ k ∈ l.map Prod.fst, k ∈ affected) (hseen : w.seen s = w.cells.writeAll base l)
    (hnear : w.Near (w.seen s) (w.seen s')) (hquiet : need = false → s' = s) :
    ∃ s₁ s₂, h.setAll s' (w.values base affected) = .ok s₁ ∧ h.updateIf need s₁ = .ok s₂ ∧
      w.seen s₂ = base := by
  have hback : w.cells.writeAll (w.seen s) (w.values base affected) = base := by
    rw [hseen, w.cells.writeAll_writeAll (fun k hk => (w.map_fst_values _ _).symm ▸ hkeys k hk)]
    exact w.cells.writeAll_read base affected
  have hrange' : ∀ k ∈ (w.values base affected).map Prod.fst, w.InRange (w.seen s) k := by
    rw [w.map_fst_values, hseen]
    exact fun k hk => w.inRange_writeAll _ (hrange k hk)
  obtain ⟨s₁, hs₁, hnear₁, hsame⟩ := w.setAll_near hnear hrange' hback
  obtain ⟨s₂, hs₂, hseen₂⟩ := w.updateIf_ok hnear₁ hmatch fun hno =>
    hsame (congrArg w.seen (hquiet hno))
  exact ⟨s₁, s₂, hs₁, hs₂, hseen₂⟩

/-- A creation whose function changes only cells that it declares. -/
lemma Inv.create_outcome (hinv : c.Inv w base changes) (hmatch : w.Match base)
    (hfits : w.Fits base) (hnodup : affected.Nodup) (hkeys : ∀ k ∈ l.map Prod.fst, k ∈ affected)
    {f : S → Partial (Bool × S)}
    (hf : ∀ c₀ created s, c.asOriginalSystemState h = .ok c₀ → f c₀.state = .ok (created, s) →
      w.seen s = w.cells.writeAll base l)
    (hcreate : c.create h affected f = .ok (r, c')) : Outcome w base changes l r c' := by
  obtain ⟨c₀, hc₀, hbase, hactive, hitems⟩ := hinv.asOriginalSystemState_ok hmatch
  have hinv₀ := hinv.of_base hbase hactive hitems
  obtain ⟨need, hneed, hcreate⟩ := ok_of_bind hcreate
  rw [hc₀, ok_bind] at hcreate
  obtain ⟨old, hold, hcreate⟩ := ok_of_bind hcreate
  obtain ⟨⟨created, s⟩, hs, hcreate⟩ := ok_of_bind hcreate
  obtain ⟨⟨accepted, s'⟩, haccept, hcreate⟩ := ok_of_bind hcreate
  have hseen := hf c₀ created s hc₀ hs
  have hfits' : w.Fits (w.seen s) := by
    rw [hseen]
    exact w.fits_writeAll l hfits
  rw [w.readAll_eq_ok_iff, hbase] at hold
  obtain ⟨hrange, rfl⟩ := hold
  obtain ⟨hnear, hquiet, haccepted⟩ := accept_spec hfits' haccept
  rcases accepted with _ | _
  · obtain ⟨s₁, s₂, hs₁, hs₂, hseen₂⟩ := restore_ok hmatch hrange hkeys hseen hnear hquiet
    replace hcreate : (h.setAll s' (w.values base affected) >>= _) = _ := hcreate
    rw [hs₁, ok_bind, hs₂] at hcreate
    obtain ⟨rfl, rfl⟩ := ok_pair_inj hcreate
    exact .inl ⟨rfl, hinv₀.of_base hseen₂ hactive rfl, hseen₂⟩
  · obtain ⟨-, hmatch'⟩ := haccepted rfl
    obtain ⟨new, hnew, hcreate⟩ := ok_of_bind hcreate
    obtain ⟨rfl, rfl⟩ := ok_pair_inj hcreate
    rw [w.readAll_eq_ok_iff] at hnew
    obtain ⟨-, rfl⟩ := hnew
    -- adapting does not change the values that were written
    have hvalues : w.values (w.seen s') affected = w.values (w.cells.writeAll base l) affected := by
      apply map_congr_left
      intro k _
      rw [w.near_read k hnear, hseen]
    have hm : w.Materialises base l (w.seen s') := by
      refine ⟨hseen ▸ hnear, ?_⟩
      rcases need with _ | _
      · rw [hquiet rfl, hseen]
        exact w.match_writeAll hneed hkeys hmatch
      · exact hmatch' rfl
    have hr : w.Represents base l ⟨entries affected (w.values base affected)
        (w.values (w.seen s') affected), need⟩ (w.seen s') := by
      have hfst := w.map_fst_values (w.seen s') affected
      have hold : w.values base affected =
          w.values base ((w.values (w.seen s') affected).map Prod.fst) := by rw [hfst]
      rw [hold]
      apply represents_entries
      · rwa [hfst]
      · rwa [hfst]
      · rw [hvalues]
        exact w.cells.writeAll_read_writeAll hkeys
      · exact fun k hk => hrange k (hkeys k hk)
      · exact hm
      · intro hno
        rw [hquiet hno, hseen]
    refine .inr ⟨?_, hinv₀.push hr nofun ?_⟩
    · rw [hinv₀.length_eq]
    · rintro _ ⟨⟩
      exact ⟨rfl, rfl⟩

/-- A creation from a list of values. -/
lemma Inv.createWithChangeList_outcome (hinv : c.Inv w base changes) (hmatch : w.Match base)
    (hfits : w.Fits base) (hnodup : affected.Nodup) {newValues : List V}
    (hcreate : c.createWithChangeList h affected newValues = .ok (r, c')) :
    Outcome w base changes (affected.zip newValues) r c' := by
  have hkeys : ∀ k ∈ (affected.zip newValues).map Prod.fst, k ∈ affected := by
    intro k hk
    obtain ⟨p, hp, rfl⟩ := mem_map.mp hk
    exact (of_mem_zip hp).1
  obtain ⟨c₀, hc₀, hbase, hactive, hitems⟩ := hinv.asOriginalSystemState_ok hmatch
  have hinv₀ := hinv.of_base hbase hactive hitems
  obtain ⟨need, hneed, hcreate⟩ := ok_of_bind hcreate
  split at hcreate
  next =>
    apply hinv.create_outcome hmatch hfits hnodup hkeys _ hcreate
    intro c₁ created s hc₁ hs
    obtain rfl := ok_unique hc₀ hc₁
    obtain ⟨s', hs', hs⟩ := ok_of_bind hs
    obtain ⟨-, rfl⟩ := ok_pair_inj hs
    rw [(w.setAll_eq_ok hs').2, hbase]
  next hno =>
    rw [Bool.not_eq_true] at hno
    subst hno
    rw [hc₀, ok_bind] at hcreate
    obtain ⟨new, old, hnew, hold, hcreate⟩ := ok_of_bind₂ hcreate
    obtain ⟨rfl, rfl⟩ := ok_pair_inj hcreate
    unfold listedValues at hnew
    split at hnew
    next => cases hnew
    next =>
      obtain rfl := Except.ok.inj hnew
      rw [w.readAll_eq_ok_iff, hbase] at hold
      obtain ⟨hrange, rfl⟩ := hold
      have hnodup' : ((affected.zip newValues).map Prod.fst).Nodup := by
        rw [zip_eq_zip_take_min, map_fst_zip (by simp)]
        exact hnodup.sublist (take_sublist _ _)
      have hm : w.Materialises base (affected.zip newValues)
          (w.cells.writeAll base (affected.zip newValues)) :=
        ⟨w.near.refl _, w.match_writeAll hneed hkeys hmatch⟩
      refine .inr ⟨?_, hinv₀.push (represents_entries hnodup' hrange rfl hrange hm fun _ => rfl)
        (fun _ => hbase) fun id hid => ?_⟩
      · rw [hinv₀.length_eq]
      · nomatch hactive.symm.trans hid

end Shared

/-! ## Runs -/

/-- A call that creates a state, with the changes that it makes and its result. What a function
given to `create` does is any change of the cells that are declared. -/
inductive Creation [DecidableEq V] (h : Host S K V) (seen : S → O) (c : Shared S K V) :
    List (K × V) → Option ℕ → Shared S K V → Prop
  | create (affected : List K) (f : S → Partial (Bool × S)) {c₀ c' created s changes r : _}
      (hnodup : affected.Nodup) (hc₀ : c.asOriginalSystemState h = .ok c₀)
      (hf : f c₀.state = .ok (created, s)) (honly : ChangesOnly h seen affected c₀.state s changes)
      (hcreate : c.create h affected f = .ok (r, c')) : Creation h seen c changes r c'
  | withChangeList (affected : List K) (newValues : List V) {c' r : _} (hnodup : affected.Nodup)
      (hcreate : c.createWithChangeList h affected newValues = .ok (r, c')) :
      Creation h seen c (affected.zip newValues) r c'

/-- The shared states that calls lead to, with the changes of each state that was created. -/
inductive Reached [DecidableEq V] (h : Host S K V) (seen : S → O) (baseState : S) :
    Shared S K V → List (List (K × V)) → Prop
  | build : Reached h seen baseState (Shared.build baseState) []
  | asSystemState {c c' changes id : _} :
      Reached h seen baseState c changes → id < changes.length → c.asSystemState h id = .ok c' →
      Reached h seen baseState c' changes
  | asOriginalSystemState {c c' changes : _} :
      Reached h seen baseState c changes → c.asOriginalSystemState h = .ok c' →
      Reached h seen baseState c' changes
  | failed {c c' changes l : _} :
      Reached h seen baseState c changes → Creation h seen c l none c' →
      Reached h seen baseState c' changes
  | created {c c' changes l id : _} :
      Reached h seen baseState c changes → Creation h seen c l (some id) c' →
      Reached h seen baseState c' (changes ++ [l])

/-- Every state that was created is seen as the one that would be made from the base, the base is
seen unchanged, and a creation that fails leaves the base. -/
structure LooksMaterialised [DecidableEq V] (h : Host S K V) (seen : S → O) (baseState : S)
    (c : Shared S K V) (changes : List (List (K × V))) : Prop where
  asSystemState : ∀ (id : ℕ) (l : List (K × V)), changes[id]? = some l →
    ∃ c' s, c.asSystemState h id = .ok c' ∧ materialise h baseState l = .ok s ∧
      seen c'.state = seen s
  asOriginalSystemState : ∃ c', c.asOriginalSystemState h = .ok c' ∧ seen c'.state = seen baseState
  failed : ∀ l c', Creation h seen c l none c' → seen c'.state = seen baseState
  created : ∀ l id c', Creation h seen c l (some id) c' → id = changes.length

section Runs

variable [DecidableEq V] {h : Host S K V} {w : Observes h O} {baseState : S}
  {changes : List (List (K × V))} {c c' : Shared S K V}

lemma Creation.outcome {l : List (K × V)} (hcreation : Creation h w.seen c l r c')
    (hinv : c.Inv w base changes) (hmatch : w.Match base) (hfits : w.Fits base) :
    Shared.Outcome w base changes l r c' := by
  rcases hcreation with ⟨affected, f, hnodup, hc₀, hf, honly, hcreate⟩ |
    ⟨affected, newValues, hnodup, hcreate⟩
  · obtain ⟨hread, s'', hs'', hseen⟩ := honly
    obtain ⟨-, rfl⟩ := w.readAll_eq_ok_iff.mp hread
    apply hinv.create_outcome hmatch hfits hnodup _ _ hcreate
    · rw [w.map_fst_values]
      exact fun k hk => hk
    · intro c₁ created s' hc₁ hs'
      obtain rfl := ok_unique hc₀ hc₁
      obtain ⟨-, rfl⟩ := Prod.mk.inj (ok_unique hf hs')
      obtain ⟨c₁, hc₁, hbase, -⟩ := hinv.asOriginalSystemState_ok hmatch
      obtain rfl := ok_unique hc₀ hc₁
      have hwrite := (w.setAll_eq_ok hs'').2
      rw [hbase] at hwrite
      exact hseen.symm.trans hwrite
  · exact hinv.createWithChangeList_outcome hmatch hfits hnodup hcreate

lemma Reached.inv (hrun : Reached h w.seen baseState c changes)
    (hmatch : w.Match (w.seen baseState)) (hfits : w.Fits (w.seen baseState)) :
    c.Inv w (w.seen baseState) changes := by
  induction hrun with
  | build => exact Shared.inv_build
  | asSystemState _ hid hcall ih =>
    obtain ⟨c₁, hc₁, -, hinv⟩ := ih.asSystemState_ok (getElem?_eq_getElem hid)
    obtain rfl := ok_unique hcall hc₁
    exact hinv
  | asOriginalSystemState _ hcall ih =>
    obtain ⟨c₁, hc₁, hbase, hactive, hitems⟩ := ih.asOriginalSystemState_ok hmatch
    obtain rfl := ok_unique hcall hc₁
    exact ih.of_base hbase hactive hitems
  | failed _ hcreation ih =>
    rcases hcreation.outcome ih hmatch hfits with ⟨-, hinv, -⟩ | ⟨hr, -⟩
    · exact hinv
    · cases hr
  | created _ hcreation ih =>
    rcases hcreation.outcome ih hmatch hfits with ⟨hr, -⟩ | ⟨-, hinv⟩
    · cases hr
    · exact hinv

lemma Reached.looksMaterialised (hrun : Reached h w.seen baseState c changes)
    (hmatch : w.Match (w.seen baseState)) (hfits : w.Fits (w.seen baseState)) :
    LooksMaterialised h w.seen baseState c changes := by
  have hinv := hrun.inv hmatch hfits
  refine ⟨fun id l hl => ?_, ?_, fun l c' hcreation => ?_, fun l id c' hcreation => ?_⟩
  · obtain ⟨c', hc', hm, -⟩ := hinv.asSystemState_ok hl
    have hid : id < c.items.length := by
      rw [hinv.length_eq]
      exact lt_of_getElem? hl
    obtain ⟨o, hr⟩ := hinv.represents id _ l (getElem?_eq_getElem hid) hl
    obtain ⟨s, hs, hseen⟩ := hr.materialise_ok rfl
    exact ⟨c', s, hc', hs, (hm.unique hr.materialises).trans hseen.symm⟩
  · obtain ⟨c', hc', hbase, -⟩ := hinv.asOriginalSystemState_ok hmatch
    exact ⟨c', hc', hbase⟩
  · rcases hcreation.outcome hinv hmatch hfits with ⟨-, -, hbase⟩ | ⟨hr, -⟩
    · exact hbase
    · cases hr
  · rcases hcreation.outcome hinv hmatch hfits with ⟨hr, -⟩ | ⟨hr, -⟩
    · cases hr
    · exact Option.some.inj hr

end Runs

end LibLisa.State.Jit
