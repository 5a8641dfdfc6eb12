import LibLisa.Smt.Cache
import LibLisa.Smt.TreeMeaning
import Mathlib.Data.Finset.Card

/-!
# When a cached answer can be trusted

A key is made from trees, and a tree leaves out parameters and the names of its constants, so
assertions with the same key need not be equally satisfiable. They are in a run that keeps to a
`Convention` about the parameters, uses the terms of an instance only there, and asks about at most
256 constants at a time, no two of them with the same name and sort (`Admits`). Constants may be
declared again between the checks.

The proof goes through the trees with renumbered constants (`Canonical`). In such a run they are as
satisfiable as the assertions they come from, whatever instance and time that was, and the key
determines them up to their order.

Main results:
* `InstanceInv.make`: what every allowed call keeps;
* `canonical_of_inv`: the assertions of a query and its renumbered trees;
* `Asked.satisfiable_iff`: queries with the same key.
-/

namespace LibLisa.Smt

open Lib Lib.Wire Classical List CacheTerm Term

/-- The wrapped solver answers correctly, and `simplify` keeps the meaning of terms and leaves
constants alone. -/
structure WrappedSolver.Correct (w : WrappedSolver) : Prop where
  eval_simplify : ∀ t ρ, (w.simplify t).eval ρ = t.eval ρ
  simplify_const : ∀ name s, w.simplify (.const name s) = .const name s
  checkAssertions_eq : ∀ assertions,
    w.checkAssertions assertions = if Term.Satisfiable assertions then .sat else .unsat

/-! ## What the terms of an instance are -/

/-- The name of the constant with an id. -/
def nameOf (declared : List (String × SmtSort)) (id : ConstId) : String :=
  ((declared[id]?).map Prod.fst).getD ""

variable {s : SmtSort} {name : String} {declared : List (String × SmtSort)}

lemma nameOf_eq {id : ConstId} (h : declared[id]? = some (name, s)) :
    nameOf declared id = name := by
  rw [nameOf, h]
  rfl

variable {k : ConstId}

/-- The tree of a term says what the term means, once the constants have their names. -/
structure Sound (conv : Convention) (declared : List (String × SmtSort)) (x : CacheTerm) :
    Prop where
  declared_of_mem : ∀ k s, (k, s) ∈ x.tree.consts → ∃ name, declared[k]? = some (name, s)
  inner_of_asConst : ∀ k s, x.tree.asConst = some (k, s) → x.inner = .const (nameOf declared k) s
  eval_eq : x.tree.Plain → ∀ ρ, x.inner.eval ρ = (x.tree.map (nameOf declared)).eval conv ρ

variable {conv : Convention} {declared' : List (String × SmtSort)} {x y z : CacheTerm}
  {w : WrappedSolver}

lemma nameOf_eq_of_le (hle : declared <+: declared') (h : declared[k]? = some (name, s)) :
    nameOf declared' k = nameOf declared k := by
  obtain ⟨rest, rfl⟩ := hle
  have hlt := lt_of_getElem? h
  rw [nameOf, nameOf, getElem?_append_left hlt]

/-- New declarations do not change what the old terms are. -/
theorem Sound.mono (h : Sound conv declared x) (hle : declared <+: declared') :
    Sound conv declared' x := by
  have hname : ∀ k s, (k, s) ∈ x.tree.consts → nameOf declared' k = nameOf declared k := by
    intro k s hk
    obtain ⟨name, hget⟩ := h.declared_of_mem k s hk
    exact nameOf_eq_of_le hle hget
  refine ⟨fun k s hk => ?_, fun k s hk => ?_, fun hplain ρ => ?_⟩
  · obtain ⟨name, hget⟩ := h.declared_of_mem k s hk
    obtain ⟨rest, rfl⟩ := hle
    exact ⟨name, by rw [getElem?_append_left (lt_of_getElem? hget), hget]⟩
  · rw [hname k s (Tree.mem_consts_of_asConst hk), h.inner_of_asConst k s hk]
  · rw [Tree.map_congr hname, h.eval_eq hplain ρ]

namespace Sound

variable {tree : Tree ConstId}

lemma literal {t : Term} (hconsts : tree.consts = [])
    (heval : ∀ ρ, t.eval ρ = (tree.map (nameOf declared)).eval conv ρ) :
    Sound conv declared ⟨t, tree⟩ := by
  refine ⟨fun k s hk => ?_, fun k s hk => ?_, fun _ => heval⟩
  · exact absurd hk (by rw [hconsts]; exact not_mem_nil)
  · exact absurd (Tree.mem_consts_of_asConst hk) (by rw [hconsts]; exact not_mem_nil)

/-- A constant that has just been declared. -/
lemma const (hconst : tree.asConst = some (declared.length, s)) :
    Sound conv (declared ++ [(name, s)]) ⟨.const name s, tree⟩ := by
  have hget : (declared ++ [(name, s)])[declared.length]? = some (name, s) := getElem?_concat_length
  refine ⟨fun k s' hk => ?_, fun k s' hk => ?_, fun _ ρ => ?_⟩
  · rw [Tree.consts_of_asConst hconst, mem_singleton] at hk
    cases hk
    exact ⟨name, hget⟩
  · rw [hconst] at hk
    cases hk
    rw [nameOf_eq hget]
  · have hmap := Tree.asConst_map (nameOf (declared ++ [(name, s)])) tree
    rw [hconst] at hmap
    rw [Tree.eval_of_asConst conv hmap, nameOf_eq hget, eval]

lemma unary (hx : Sound conv declared x) {op : TermOp}
    (hop : conv.restore op.recorded x.tree.erase = op) : Sound conv declared (.unary op x) := by
  refine ⟨hx.declared_of_mem, fun k s hk => ?_, fun hplain ρ => ?_⟩
  · cases hk
  · simp only [CacheTerm.unary, Tree.map, Tree.eval, eval, Tree.erase_map, hop,
      hx.eval_eq hplain ρ]

/-- The constants of a term made of declared ones are declared. -/
lemma declared_append {cs cs' : List (ConstId × SmtSort)}
    (h : ∀ k s, (k, s) ∈ cs → ∃ name, declared[k]? = some (name, s))
    (h' : ∀ k s, (k, s) ∈ cs' → ∃ name, declared[k]? = some (name, s)) :
    ∀ k s, (k, s) ∈ cs ++ cs' → ∃ name, declared[k]? = some (name, s) := by
  intro k s hk
  exact (mem_append.mp hk).elim (h k s) (h' k s)

section

variable (hx : Sound conv declared x)
include hx

section

variable (hy : Sound conv declared y)
include hy

lemma binary (op : BinOp) : Sound conv declared (.binary op x y) := by
  refine ⟨declared_append hx.declared_of_mem hy.declared_of_mem, fun k s hk => ?_,
    fun hplain ρ => ?_⟩
  · cases hk
  · simp only [CacheTerm.binary, Tree.map, Tree.eval, eval, hx.eval_eq hplain.1 ρ,
      hy.eval_eq hplain.2 ρ]

lemma select : Sound conv declared (.select x y) := by
  refine ⟨declared_append hx.declared_of_mem hy.declared_of_mem, fun k s hk => ?_,
    fun hplain ρ => ?_⟩
  · cases hk
  · simp only [CacheTerm.select, Tree.map, Tree.eval, eval, hx.eval_eq hplain.1 ρ,
      hy.eval_eq hplain.2 ρ]

lemma ite (hz : Sound conv declared z) : Sound conv declared (.ite x y z) := by
  refine ⟨declared_append hx.declared_of_mem
    (declared_append hy.declared_of_mem hz.declared_of_mem), fun k s hk => ?_, fun hplain ρ => ?_⟩
  · cases hk
  · simp only [CacheTerm.ite, Tree.map, Tree.eval, eval, hx.eval_eq hplain.1 ρ,
      hy.eval_eq hplain.2.1 ρ, hz.eval_eq hplain.2.2 ρ]

lemma store (hz : Sound conv declared z) : Sound conv declared (.store x y z) := by
  refine ⟨declared_append hx.declared_of_mem
    (declared_append hy.declared_of_mem hz.declared_of_mem), fun k s hk => ?_, fun hplain ρ => ?_⟩
  · cases hk
  · simp only [CacheTerm.store, Tree.map, Tree.eval, eval, hx.eval_eq hplain.1 ρ,
      hy.eval_eq hplain.2.1 ρ, hz.eval_eq hplain.2.2 ρ]

end

end

/-- A quantifier over declared constants binds the same ones in the tree. -/
lemma forallConst {vals : List CacheTerm}
    (hvals : ∀ v ∈ vals, Sound conv declared v ∧ v.tree.asConst.isSome)
    (hx : Sound conv declared x) : Sound conv declared (.forallConst vals x) := by
  have hconst : ∀ v ∈ vals, v.inner.asConst =
      (v.tree.map (nameOf declared)).asConst := by
    intro v hv
    obtain ⟨hsound, hsome⟩ := hvals v hv
    obtain ⟨⟨k, s⟩, hk⟩ := Option.isSome_iff_exists.mp hsome
    rw [hsound.inner_of_asConst k s hk, Tree.asConst_map, hk]
    rfl
  refine ⟨declared_append (fun k s hk => ?_) hx.declared_of_mem, fun k s hk => ?_,
    fun hplain ρ => ?_⟩
  · rw [Tree.constsList_eq, mem_flatMap] at hk
    obtain ⟨t, ht, hk⟩ := hk
    obtain ⟨v, hv, rfl⟩ := mem_map.mp ht
    exact (hvals v hv).1.declared_of_mem k s hk
  · cases hk
  · simp only [CacheTerm.forallConst, Tree.map, Tree.eval, eval, Tree.mapList_eq,
      filterMap_map, map_map]
    rw [filterMap_congr (f := asConst ∘ inner) hconst, funext (hx.eval_eq hplain.2.2)]
    rfl

lemma simplify (hw : w.Correct) (hx : Sound conv declared x) :
    Sound conv declared (.simplify w x) := by
  refine ⟨hx.declared_of_mem, fun k s hk => ?_, fun hplain ρ => ?_⟩
  · rw [CacheTerm.simplify, hx.inner_of_asConst k s hk, hw.simplify_const]
  · rw [CacheTerm.simplify, hw.eval_simplify, hx.eval_eq hplain]

lemma getConstInterp (value : Term) : Sound conv declared (.getConstInterp value) := by
  refine ⟨fun k s hk => ?_, fun k s hk => ?_, fun hplain => hplain.elim⟩
  · cases hk
  · cases hk

end Sound

/-! ## Runs that keep to a convention -/

/-- A call that the convention allows, in an instance with the terms `held`. -/
def Call.Admissible (conv : Convention) (held : List CacheTerm) : Call → Prop
  | .bvFromI64 val size =>
    Value.bvFrom true val size = Value.bvFrom (conv.bvSigned val size) val size
  | .bvFromU64 val size =>
    Value.bvFrom false val size = Value.bvFrom (conv.bvSigned val size) val size
  | .intFromI64 val => Value.intFrom true val = Value.intFrom (conv.intSigned val) val
  | .intFromU64 val => Value.intFrom false val = Value.intFrom (conv.intSigned val) val
  | .boolFromBool _ | .getConstInterp _ | .newBvConst .. | .newBoolConst _ | .newBvArrayConst .. =>
    True
  | .unary op arg => arg ∈ held ∧ conv.restore op.recorded arg.tree.erase = op
  | .binary _ lhs rhs => lhs ∈ held ∧ rhs ∈ held
  | .ite cond lhs rhs => cond ∈ held ∧ lhs ∈ held ∧ rhs ∈ held
  | .forallConst vals condition =>
    (∀ v ∈ vals, v ∈ held ∧ v.tree.asConst.isSome) ∧ condition ∈ held
  | .select arr index => arr ∈ held ∧ index ∈ held
  | .store arr index value => arr ∈ held ∧ index ∈ held ∧ value ∈ held
  | .simplify x => x ∈ held

/-- The constants that a list of assertions is about. -/
def constantsOf (assertions : List CacheTerm) : Finset ConstId :=
  (assertions.flatMap fun a => a.tree.ids).toFinset

/-- An event that the convention allows. -/
def Event.Admissible (conv : Convention) (sys : System) : Event → Prop
  | .call i c => c.Admissible conv (sys.held i)
  | .check i assertions => (∀ a ∈ assertions, a ∈ sys.held i) ∧
    (constantsOf assertions).card ≤ 256 ∧
    Set.InjOn (fun k : ConstId => (sys.declared i)[k]?) (constantsOf assertions)

/-- Every event of a run is allowed when it happens. -/
def System.Admits (w : WrappedSolver) (sha1 : List U8 → AssertionHash) (conv : Convention) :
    System → List Event → Prop
  | _, [] => True
  | sys, e :: events => e.Admissible conv sys ∧
    ∀ sys' answers, sys.step w sha1 e = .ok (sys', answers) → sys'.Admits w sha1 conv events

/-- What holds of an instance as long as it keeps to the convention. -/
structure InstanceInv (conv : Convention) (s : CachedSolver) (held : List CacheTerm)
    (declared : List (String × SmtSort)) : Prop where
  counter_eq : s.constIdCounter = declared.length
  sound : ∀ x ∈ held, Sound conv declared x

variable {held : List CacheTerm}

lemma InstanceInv.newConst {s s' : CachedSolver} {sort : SmtSort} {leaf : ConstId → Tree ConstId}
    (h : InstanceInv conv s held declared) (hleaf : ∀ id, (leaf id).asConst = some (id, sort))
    (hmake : s.newConst name sort leaf = .ok (x, s')) :
    InstanceInv conv s' (x :: held) (declared ++ [(name, sort)]) := by
  unfold CachedSolver.newConst CachedSolver.nextConstId at hmake
  split at hmake
  · obtain ⟨rfl, rfl⟩ := ok_pair_inj hmake
    refine ⟨?_, forall_mem_cons.mpr ⟨?_, fun y hy => ?_⟩⟩
    · simp only [h.counter_eq, length_append, length_singleton]
    · exact Sound.const (by rw [hleaf, h.counter_eq])
    · exact (h.sound y hy).mono (prefix_append ..)
  · cases hmake

/-- An allowed call keeps the invariant. -/
theorem InstanceInv.make (hw : w.Correct) {s s' : CachedSolver}
    (h : InstanceInv conv s held declared) {call : Call}
    (hcall : call.Admissible conv held) (hmake : call.make w s = .ok (x, s')) :
    InstanceInv conv s' (x :: held) (declared ++ call.declares) := by
  -- a call that declares nothing adds a term and changes nothing else
  have hkeep : ∀ {y}, call.declares = [] → call.make w s = .ok (y, s) → Sound conv declared y →
      InstanceInv conv s' (x :: held) (declared ++ call.declares) := by
    intro y hdecl hy hsound
    obtain ⟨rfl, rfl⟩ := ok_pair_inj (hy.symm.trans hmake)
    rw [hdecl, append_nil]
    exact ⟨h.counter_eq, forall_mem_cons.mpr ⟨hsound, h.sound⟩⟩
  cases call with
  | newBvConst name size =>
    change s.newConst name _ (fun id => .bv id size) = _ at hmake
    exact h.newConst (fun _ => rfl) hmake
  | newBoolConst name =>
    exact h.newConst (fun _ => rfl) hmake
  | newBvArrayConst name indexSize elementSize =>
    change s.newConst name _ (fun id => .array id indexSize elementSize) = _ at hmake
    exact h.newConst (fun _ => rfl) hmake
  | bvFromI64 val size | bvFromU64 val size | intFromI64 val | intFromU64 val =>
    exact hkeep rfl rfl (.literal rfl fun _ => hcall)
  | boolFromBool val =>
    exact hkeep rfl rfl (.literal rfl fun _ => rfl)
  | unary op arg =>
    exact hkeep rfl rfl ((h.sound arg hcall.1).unary hcall.2)
  | binary op lhs rhs =>
    exact hkeep rfl rfl ((h.sound lhs hcall.1).binary (h.sound rhs hcall.2) op)
  | ite cond lhs rhs =>
    exact hkeep rfl rfl ((h.sound cond hcall.1).ite (h.sound lhs hcall.2.1) (h.sound rhs hcall.2.2))
  | forallConst vals condition =>
    refine hkeep rfl rfl (.forallConst (fun v hv => ?_) (h.sound condition hcall.2))
    exact ⟨h.sound v (hcall.1 v hv).1, (hcall.1 v hv).2⟩
  | select arr index =>
    exact hkeep rfl rfl ((h.sound arr hcall.1).select (h.sound index hcall.2))
  | store arr index value =>
    exact hkeep rfl rfl
      ((h.sound arr hcall.1).store (h.sound index hcall.2.1) (h.sound value hcall.2.2))
  | simplify y =>
    exact hkeep rfl rfl ((h.sound y hcall).simplify hw)
  | getConstInterp value =>
    exact hkeep rfl rfl (.getConstInterp value)

/-! ## Queries and their renumbered trees -/

/-- A list of assertions, the bytes of its trees, and the renumbered trees that they come from. -/
def Canonical (conv : Convention) (assertions : List CacheTerm) (bytes : List (List U8)) : Prop :=
  ∃ ts : List (Tree U8), bytes = ts.map Tree.ser ∧ (∀ t ∈ ts, t.Plain) ∧
    (Term.Satisfiable (assertions.map CacheTerm.inner) ↔ Tree.Satisfiable conv ts)

lemma assertionBytes_spec : ∀ {l : List CacheTerm} {m : IdMap} {bytes : List (List U8)},
    assertionBytes m l = .ok bytes →
    ∃ m', IdMap.Grows m (l.flatMap fun a => a.tree.ids) m' ∧ (∀ a ∈ l, a.tree.Plain) ∧
      ∀ {m'' : IdMap}, m' <+: m'' → bytes = l.map fun a => (a.tree.map m''.num).ser := by
  intro l
  induction l with
  | nil =>
    intro m bytes h
    cases h
    exact ⟨m, .refl m, by simp, fun _ => rfl⟩
  | cons a l ih =>
    intro m bytes h
    obtain ⟨⟨bs, m1⟩, h1, h⟩ := ok_of_bind h
    obtain ⟨rest, h2, rfl⟩ := ok_of_bind_ok h
    have hw := toBytesInternal_spec a.tree h1
    obtain ⟨m', hgrows, hplain, hbytes⟩ := ih h2
    refine ⟨m', hw.grows.trans hgrows, forall_mem_cons.mpr ⟨hw.plain, hplain⟩, fun hle => ?_⟩
    rw [map_cons, ← hw.bytes_eq (hgrows.le.trans hle), ← hbytes hle]

lemma sortAssertions_perm (assertions : List CacheTerm) :
    (sortAssertions assertions).Perm assertions :=
  mergeSort_perm ..

variable {l : List CacheTerm}

lemma mem_flatMap_consts {k : ConstId × SmtSort} :
    k ∈ (l.map tree).flatMap Tree.consts ↔ ∃ a ∈ l, k ∈ a.tree.consts := by
  simp

lemma mem_flatMap_ids (h : (k, s) ∈ (l.map tree).flatMap Tree.consts) :
    k ∈ l.flatMap fun a => a.tree.ids := by
  obtain ⟨a, ha, hk⟩ := mem_flatMap_consts.mp h
  exact mem_flatMap.mpr ⟨a, ha, mem_map.mpr ⟨(k, s), hk, rfl⟩⟩

/-- The trees of assertions with at most 256 constants, renumbered, are as satisfiable as the
assertions. -/
theorem canonical_of_inv {s : CachedSolver} {assertions : List CacheTerm}
    (h : InstanceInv conv s held declared) (hheld : ∀ a ∈ assertions, a ∈ held)
    (hcard : (constantsOf assertions).card ≤ 256)
    (hdiffer : Set.InjOn (fun k : ConstId => declared[k]?) (constantsOf assertions))
    {bytes : List (List U8)} (hbytes : assertionBytes [] (sortAssertions assertions) = .ok bytes) :
    Canonical conv assertions bytes := by
  obtain ⟨m, hgrows, hplain, hbytes⟩ := assertionBytes_spec hbytes
  have hperm := sortAssertions_perm assertions
  have hsound : ∀ a ∈ assertions, Sound conv declared a := fun a ha => h.sound a (hheld a ha)
  have hnumbered := hgrows.numbered IdMap.numbered_nil
  -- the map has an entry for each constant of the query, so at most 256
  have hids : ∀ id, id ∈ m.ids ↔ id ∈ assertions.flatMap fun a => a.tree.ids := by
    intro id
    rw [hgrows.mem_iff, (hperm.flatMap_right _).mem_iff]
    simp [IdMap.ids]
  have hlen : m.length ≤ 256 := by
    have hsub : m.ids.toFinset ⊆ constantsOf assertions := by
      intro id hid
      exact mem_toFinset.mpr ((hids id).mp (mem_toFinset.mp hid))
    have hle := Finset.card_le_card hsub
    rw [toFinset_card_of_nodup hnumbered.nodup, IdMap.ids, length_map] at hle
    exact hle.trans hcard
  have hnames : ∀ k k' s, (k, s) ∈ (assertions.map tree).flatMap Tree.consts →
      (k', s) ∈ (assertions.map tree).flatMap Tree.consts →
      nameOf declared k = nameOf declared k' → k = k' := by
    intro k k' s hk hk' heq
    refine hdiffer (mem_toFinset.mpr (mem_flatMap_ids hk)) (mem_toFinset.mpr (mem_flatMap_ids hk')) ?_
    obtain ⟨a, ha, hk⟩ := mem_flatMap_consts.mp hk
    obtain ⟨a', ha', hk'⟩ := mem_flatMap_consts.mp hk'
    obtain ⟨name, hname⟩ := (hsound a ha).declared_of_mem k s hk
    obtain ⟨name', hname'⟩ := (hsound a' ha').declared_of_mem k' s hk'
    rw [nameOf_eq hname, nameOf_eq hname'] at heq
    show declared[k]? = declared[k']?
    rw [hname, hname', heq]
  have hnums : ∀ k k' s,
      (k, s) ∈ ((sortAssertions assertions).map tree).flatMap Tree.consts →
      (k', s) ∈ ((sortAssertions assertions).map tree).flatMap Tree.consts →
      m.num k = m.num k' → k = k' := by
    intro k k' s hk hk' heq
    refine hnumbered.injOn hlen ?_ ?_ heq
    · exact (hgrows.mem_iff k).mpr (.inr (mem_flatMap_ids hk))
    · exact (hgrows.mem_iff k').mpr (.inr (mem_flatMap_ids hk'))
  refine ⟨((sortAssertions assertions).map tree).map (Tree.map m.num), ?_, ?_, ?_⟩
  · rw [hbytes prefix_rfl, map_map, map_map]
    rfl
  · simp only [forall_mem_map, Tree.plain_map]
    exact hplain
  · calc Satisfiable (assertions.map inner)
      _ ↔ Tree.Satisfiable conv
          ((assertions.map tree).map (Tree.map (nameOf declared))) := by
        -- the terms mean what their trees say
        refine exists_congr fun ρ => ?_
        simp only [forall_mem_map]
        exact forall₂_congr fun a ha => by
          rw [(hsound a ha).eval_eq (hplain a (hperm.mem_iff.mpr ha))]
      _ ↔ Tree.Satisfiable conv (assertions.map tree) :=
        Tree.satisfiable_map conv hnames
      _ ↔ Tree.Satisfiable conv ((sortAssertions assertions).map tree) :=
        Tree.Satisfiable.perm (hperm.map _).symm
      _ ↔ _ := (Tree.satisfiable_map conv hnums).symm

/-- The strings that are hashed for a list of assertions. -/
def hashedFor (sha1 : List U8 → AssertionHash) (assertions : List CacheTerm) : Set (List U8) :=
  {s | ∃ bytes, assertionBytes [] (sortAssertions assertions) = .ok bytes ∧
    (s ∈ bytes ∨ s = hashInput sha1 bytes)}

/-- The key determines the strings it was made from, up to their order. -/
lemma perm_of_hashInput_eq {sha1 : List U8 → AssertionHash} {S : Set (List U8)}
    (hsha1 : Set.InjOn sha1 S) {bytes bytes' : List (List U8)} (hbytes : ∀ b ∈ bytes, b ∈ S)
    (hbytes' : ∀ b ∈ bytes', b ∈ S) (h : hashInput sha1 bytes = hashInput sha1 bytes') :
    bytes.Perm bytes' := by
  have hlen : ∀ (l : List AssertionHash), ∀ b ∈ l.map Vector.toList, b.length = 20 := by
    intro l b hb
    obtain ⟨v, -, rfl⟩ := mem_map.mp hb
    exact v.length_toList
  have hsorted := flatten_inj_of_length (by decide) (hlen _) (hlen _) h
  have hinj : Function.Injective (Vector.toList : AssertionHash → List U8) :=
    fun v v' hv => Vector.toList_inj.mp hv
  have hhashes := map_injective_iff.mpr hinj hsorted
  refine perm_of_perm_map hsha1 hbytes hbytes' ?_
  have hperm := mergeSort_perm (bytes.map sha1) fun a b => decide (a.toList ≤ b.toList)
  rw [hhashes] at hperm
  exact hperm.symm.trans (mergeSort_perm ..)

/-- A query with the key `hash`; the strings that are hashed for it are in `S`. -/
structure Asked (conv : Convention) (sha1 : List U8 → AssertionHash)
    (S : Set (List U8)) (q : List CacheTerm) (hash : AssertionHash) : Prop where
  key_eq : assertionHash sha1 q = .ok hash
  hashed : hashedFor sha1 q ⊆ S
  canonical : ∀ bytes, assertionBytes [] (sortAssertions q) = .ok bytes → Canonical conv q bytes

variable {sha1 : List U8 → AssertionHash} {S : Set (List U8)}
  {q q' : List CacheTerm} {hash : AssertionHash}

lemma Asked.exists_bytes (h : Asked conv sha1 S q hash) :
    ∃ bytes, Canonical conv q bytes ∧ (∀ b ∈ bytes, b ∈ S) ∧ hashInput sha1 bytes ∈ S ∧
      sha1 (hashInput sha1 bytes) = hash := by
  obtain ⟨bytes, hbytes, hhash⟩ := ok_of_bind h.key_eq
  exact ⟨bytes, h.canonical bytes hbytes, fun b hb => h.hashed ⟨bytes, hbytes, .inl hb⟩,
    h.hashed ⟨bytes, hbytes, .inr rfl⟩, Except.ok.inj hhash⟩

/-- Queries with the same key are equally satisfiable. -/
theorem Asked.satisfiable_iff (hsha1 : Set.InjOn sha1 S) (h : Asked conv sha1 S q hash)
    (h' : Asked conv sha1 S q' hash) : Satisfiable (q.map inner) ↔ Satisfiable (q'.map inner) := by
  obtain ⟨bytes, ⟨ts, hts, hplain, hsat⟩, hbytes, hinput, hhash⟩ := h.exists_bytes
  obtain ⟨bytes', ⟨ts', hts', hplain', hsat'⟩, hbytes', hinput', hhash'⟩ := h'.exists_bytes
  have hperm := perm_of_hashInput_eq hsha1 hbytes hbytes'
    (hsha1 hinput hinput' (hhash.trans hhash'.symm))
  rw [hts, hts'] at hperm
  have : Nonempty (Tree U8) := ⟨.constInterp⟩
  rw [hsat, hsat']
  exact Tree.Satisfiable.perm (perm_of_perm_map Tree.ser_injOn hplain hplain' hperm)

end LibLisa.Smt
