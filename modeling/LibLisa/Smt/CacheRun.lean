import LibLisa.Smt.CacheSound

/-!
# Runs of cached solvers

Instances that share a cache answer as the wrapped solver would, in every run that keeps to a
convention and in which SHA-1 has no collision (`run_cache_sound`). The invariant of a run is that
every cache entry is the right answer to some query with its key (`SystemInv`). Without a
convention the cache can be wrong: `run_cache_byteEq`.
-/

namespace LibLisa.Smt

open Lib Classical List Function Smt.System CacheTerm

variable {conv : Convention} {sha1 : List U8 → AssertionHash} {S : Set (List U8)}
  {q q' : List CacheTerm} {hash : AssertionHash}

/-! ## Every answer of a run -/

/-- The right answer to a query. -/
noncomputable def answerOf (q : List CacheTerm) : SatResult :=
  if Term.Satisfiable (q.map CacheTerm.inner) then .sat else .unsat

lemma toSat_toCache (r : SatResult) : r.toCache.toSat = r := by
  cases r <;> rfl

variable {w : WrappedSolver}

lemma WrappedSolver.Correct.checkAssertions_sort (hw : w.Correct) (q : List CacheTerm) :
    w.checkAssertions ((sortAssertions q).map inner) = answerOf q := by
  have hperm := (sortAssertions_perm q).map inner
  have hsat : Term.Satisfiable ((sortAssertions q).map inner) ↔
      Term.Satisfiable (q.map inner) :=
    exists_congr fun ρ => forall_congr' fun t => by rw [hperm.mem_iff]
  rw [hw.checkAssertions_eq, answerOf]
  simp only [hsat]

/-- What holds of the system as long as the run keeps to the convention: every cache entry is the
right answer to some query with its key. -/
structure SystemInv (conv : Convention) (sha1 : List U8 → AssertionHash)
    (S : Set (List U8)) (sys : System) : Prop where
  instances : ∀ i, InstanceInv conv (sys.solvers i) (sys.held i) (sys.declared i)
  cached : ∀ hash r, sys.cache hash = some r →
    ∃ q, Asked conv sha1 S q hash ∧ r.toSat = answerOf q

lemma systemInv_start : SystemInv conv sha1 S .start where
  instances _ := ⟨rfl, fun _ hx => nomatch hx⟩
  cached _ _ h := by cases h

/-- A query of a run, with its right answer. -/
def Answered (conv : Convention) (sha1 : List U8 → AssertionHash)
    (S : Set (List U8)) (answer : Answer) : Prop :=
  (∃ hash, Asked conv sha1 S answer.1 hash) ∧ answer.2 = answerOf answer.1

variable {answers : List Answer} {i : ℕ} {sys sys' : System} {answers' : List Answer}
  {sys'' : System}

lemma SystemInv.call (hw : w.Correct) (h : SystemInv conv sha1 S sys) {c : Call}
    (hc : c.Admissible conv (sys.held i))
    (hstep : sys.step w sha1 (.call i c) = .ok (sys', answers)) :
    SystemInv conv sha1 S sys' ∧ ∀ a ∈ answers, Answered conv sha1 S a := by
  obtain ⟨⟨x, s⟩, hmake, hstep⟩ := ok_of_bind hstep
  obtain ⟨rfl, rfl⟩ := ok_pair_inj hstep
  refine ⟨⟨fun j => ?_, h.cached⟩, fun a ha => nomatch ha⟩
  by_cases hj : j = i
  · subst hj
    simp only [update_self]
    exact (h.instances j).make hw hc hmake
  · simp only [update_of_ne hj]
    exact h.instances j

lemma SystemInv.check (hw : w.Correct) (hsha1 : Set.InjOn sha1 S) (h : SystemInv conv sha1 S sys)
    (hq : Event.Admissible conv sys (.check i q)) (hS : hashedFor sha1 q ⊆ S)
    (hstep : sys.step w sha1 (.check i q) = .ok (sys', answers)) :
    SystemInv conv sha1 S sys' ∧ ∀ a ∈ answers, Answered conv sha1 S a := by
  obtain ⟨⟨result, cache⟩, hcheck, hstep⟩ := ok_of_bind hstep
  obtain ⟨rfl, rfl⟩ := ok_pair_inj hstep
  obtain ⟨hash, hhash, hcheck⟩ := ok_of_bind hcheck
  have hasked : Asked conv sha1 S q hash :=
    ⟨hhash, hS, fun bytes hbytes => canonical_of_inv (h.instances i) hq.1 hq.2.1 hq.2.2 hbytes⟩
  cases hcache : sys.cache hash with
  | some entry =>
    rw [hcache] at hcheck
    obtain ⟨rfl, rfl⟩ := ok_pair_inj hcheck
    obtain ⟨q0, hq0, hentry⟩ := h.cached hash entry hcache
    have hsame := hq0.satisfiable_iff hsha1 hasked
    refine ⟨⟨h.instances, h.cached⟩, forall_mem_singleton.mpr ⟨⟨hash, hasked⟩, ?_⟩⟩
    rw [hentry, answerOf, answerOf]
    simp only [hsame]
  | none =>
    rw [hcache] at hcheck
    obtain ⟨rfl, rfl⟩ := ok_pair_inj hcheck
    have hright := hw.checkAssertions_sort q
    refine ⟨⟨h.instances, fun hash' r hr => ?_⟩, forall_mem_singleton.mpr ⟨⟨hash, hasked⟩, hright⟩⟩
    by_cases heq : hash' = hash
    · subst heq
      simp only [update_self, Option.some.injEq] at hr
      exact ⟨q, hasked, by rw [← hr, toSat_toCache, hright]⟩
    · simp only [update_of_ne heq] at hr
      exact h.cached hash' r hr

/-- The strings that are hashed in a run. -/
def hashedBy (sha1 : List U8 → AssertionHash) (events : List Event) : Set (List U8) :=
  {s | ∃ i q, Event.check i q ∈ events ∧ s ∈ hashedFor sha1 q}

/-- Every answer of a run is the right one. -/
lemma SystemInv.run (hw : w.Correct) (hsha1 : Set.InjOn sha1 S) :
    ∀ {events : List Event} {sys sys' : System} {answers : List Answer},
      SystemInv conv sha1 S sys → sys.Admits w sha1 conv events → hashedBy sha1 events ⊆ S →
      sys.run w sha1 events = .ok (sys', answers) → ∀ a ∈ answers, Answered conv sha1 S a := by
  intro events
  induction events with
  | nil =>
    intro sys sys' answers _ _ _ hrun
    cases hrun
    exact fun a ha => nomatch ha
  | cons e events ih =>
    intro sys sys' answers h hadmits hS hrun
    obtain ⟨⟨sys1, answers1⟩, hstep, hrun⟩ := ok_of_bind hrun
    obtain ⟨⟨sys2, answers2⟩, hrest, hrun⟩ := ok_of_bind hrun
    obtain ⟨rfl, rfl⟩ := ok_pair_inj hrun
    have hone : SystemInv conv sha1 S sys1 ∧ ∀ a ∈ answers1, Answered conv sha1 S a := by
      cases e with
      | call i c => exact h.call hw hadmits.1 hstep
      | check i q =>
        refine h.check hw hsha1 hadmits.1 (fun s hs => hS ?_) hstep
        exact ⟨i, q, mem_cons_self .., hs⟩
    have htail : hashedBy sha1 events ⊆ S := by
      rintro s ⟨i, q, hmem, hs⟩
      exact hS ⟨i, q, .tail _ hmem, hs⟩
    have hmany := ih hone.1 (hadmits.2 _ _ hstep) htail hrest
    intro a ha
    exact (mem_append.mp ha).elim (hone.2 a) (hmany a)

/-! ## Checks in a run -/

/-- A check changes nothing but the cache. -/
lemma System.held_of_step_check (h : sys.step w sha1 (.check i q) = .ok (sys', answers)) :
    sys'.held = sys.held := by
  obtain ⟨⟨result, cache⟩, -, h⟩ := ok_of_bind h
  obtain ⟨rfl, rfl⟩ := ok_pair_inj h
  rfl

lemma System.run_cons {e : Event} {events : List Event}
    (hstep : sys.step w sha1 e = .ok (sys', answers))
    (hrun : sys'.run w sha1 events = .ok (sys'', answers')) :
    sys.run w sha1 (e :: events) = .ok (sys'', answers ++ answers') := by
  rw [run, hstep, ok_bind]
  simp only [hrun]
  rfl

lemma System.run_append {events events' : List Event}
    (h' : sys'.run w sha1 events' = .ok (sys'', answers')) :
    ∀ {sys : System} {answers : List Answer}, sys.run w sha1 events = .ok (sys', answers) →
      sys.run w sha1 (events ++ events') = .ok (sys'', answers ++ answers') := by
  induction events with
  | nil =>
    intro sys answers h
    obtain ⟨rfl, rfl⟩ := ok_pair_inj h
    exact h'
  | cons e events ih =>
    intro sys answers h
    obtain ⟨⟨sys1, answers1⟩, hstep, h⟩ := ok_of_bind h
    obtain ⟨⟨sys2, answers2⟩, hrest, h⟩ := ok_of_bind h
    obtain ⟨rfl, rfl⟩ := ok_pair_inj h
    rw [append_assoc]
    exact run_cons hstep (ih hrest)

/-- Two checks with the same key on a system with an empty cache. -/
lemma System.run_checks {j : ℕ} (hcache : ∀ hash, sys.cache hash = none)
    (hkey : assertionHash sha1 q = .ok hash) (hkey' : assertionHash sha1 q' = .ok hash)
    {result : SatResult} (hresult : w.checkAssertions ((sortAssertions q).map inner) = result) :
    ∃ sys', sys.run w sha1 [.check i q, .check j q'] = .ok (sys', [(q, result), (q', result)]) := by
  have hfirst : checkAssertions w sha1 sys.cache q =
      .ok (result, update sys.cache hash (some result.toCache)) := by
    unfold checkAssertions
    rw [hkey, ok_bind, hcache, hresult]
    rfl
  have hsecond : checkAssertions w sha1 (update sys.cache hash (some result.toCache)) q' =
      .ok (result, update sys.cache hash (some result.toCache)) := by
    unfold checkAssertions
    rw [hkey', ok_bind, update_self]
    exact congrArg (fun r => Except.ok (r, _)) (toSat_toCache result)
  let sys' : System := { sys with cache := update sys.cache hash (some result.toCache) }
  have hstep : sys.step w sha1 (.check i q) = .ok (sys', [(q, result)]) := by
    rw [step, hfirst]
    rfl
  have hstep' : sys'.step w sha1 (.check j q') = .ok (sys', [(q', result)]) := by
    rw [step, hsecond]
    rfl
  exact ⟨sys', run_cons hstep (run_cons hstep' rfl)⟩

/-! ## Two instances that ask the same -/

/-- A solver that is right by definition. -/
noncomputable def referenceSolver : WrappedSolver where
  simplify := id
  checkAssertions assertions := if Term.Satisfiable assertions then .sat else .unsat

lemma referenceSolver_correct : referenceSolver.Correct :=
  ⟨fun _ _ => rfl, fun _ _ => rfl, fun _ => rfl⟩

/-- A hash that tells strings of different lengths apart. -/
def lengthHash (bs : List U8) : AssertionHash := .replicate 20 (BitVec.ofNat 8 bs.length)

/-- The first constant of an instance, a boolean. -/
def firstBool (name : String) : CacheTerm := ⟨.const name .bool, .bool 0⟩

/-- Two instances that declare a boolean each and ask whether it can be true. -/
def twoBools : List Event :=
  [.call 0 (.newBoolConst "x"), .call 1 (.newBoolConst "y"), .check 0 [firstBool "x"],
    .check 1 [firstBool "y"]]

/-- Literals are unsigned and `bv_from_int` makes 128 bits. -/
def unsignedConvention : Convention where
  size _ := 128
  signed _ := false
  bvSigned _ _ := false
  intSigned _ := false

lemma assertionBytes_firstBool (name : String) :
    assertionBytes [] (sortAssertions [firstBool name]) = .ok [[5, 0]] := by
  rw [sortAssertions, mergeSort_singleton]
  rfl

lemma mem_hashedBy_twoBools {s : List U8} (h : s ∈ hashedBy lengthHash twoBools) :
    s = [5, 0] ∨ s = hashInput lengthHash [[5, 0]] := by
  obtain ⟨i, q, hmem, bytes, hbytes, hs⟩ := h
  obtain ⟨name, rfl⟩ : ∃ name, q = [firstBool name] := by
    simp only [twoBools, mem_cons, not_mem_nil, or_false, reduceCtorEq, false_or] at hmem
    obtain ⟨-, rfl⟩ | ⟨-, rfl⟩ := hmem
    · exact ⟨"x", rfl⟩
    · exact ⟨"y", rfl⟩
  rw [assertionBytes_firstBool] at hbytes
  obtain rfl := Except.ok.inj hbytes
  exact hs.imp_left mem_singleton.mp

lemma injOn_lengthHash : Set.InjOn lengthHash (hashedBy lengthHash twoBools) := by
  have hne : lengthHash [5, 0] ≠ lengthHash (hashInput lengthHash [[5, 0]]) := by
    have hlen : (hashInput lengthHash [[5, 0]]).length = 20 := by
      rw [hashInput, map_singleton, mergeSort_singleton]
      rfl
    have hhash : lengthHash (hashInput lengthHash [[5, 0]]) = .replicate 20 20 :=
      congrArg (fun n => Vector.replicate 20 (BitVec.ofNat 8 n)) hlen
    rw [hhash]
    decide
  intro s hs s' hs' heq
  obtain rfl | rfl := mem_hashedBy_twoBools hs <;> obtain rfl | rfl := mem_hashedBy_twoBools hs'
  · rfl
  · exact absurd heq hne
  · exact absurd heq.symm hne
  · rfl

lemma injOn_firstBool {name : String} {f : ConstId → Option (String × SmtSort)} :
    Set.InjOn f (constantsOf [firstBool name]) := by
  have hone : constantsOf [firstBool name] = {0} := rfl
  rw [hone, Finset.coe_singleton]
  exact Set.injOn_singleton f 0

lemma admits_twoBools : start.Admits referenceSolver lengthHash unsignedConvention twoBools := by
  refine ⟨trivial, fun sys1 _ h1 => ?_⟩
  obtain ⟨rfl, rfl⟩ := ok_pair_inj h1
  refine ⟨trivial, fun sys2 _ h2 => ?_⟩
  obtain ⟨rfl, rfl⟩ := ok_pair_inj h2
  refine ⟨⟨forall_mem_singleton.mpr (mem_singleton.mpr rfl), by decide, injOn_firstBool⟩,
    fun sys3 _ h3 => ?_⟩
  have hheld := held_of_step_check h3
  refine ⟨⟨forall_mem_singleton.mpr ?_, by decide, injOn_firstBool⟩, fun _ _ _ => trivial⟩
  rw [hheld]
  exact mem_singleton.mpr rfl

/-! ## The cache is sound for runs with a convention -/

/-- In a run that keeps to a convention, and in which SHA-1 has no collision, queries with the same
key are equally satisfiable, and every answer is the one of the wrapped solver. -/
theorem run_cache_sound (w : WrappedSolver) (hw : w.Correct) (sha1 : List U8 → AssertionHash)
    (conv : Convention) (events : List Event) (hadmits : System.start.Admits w sha1 conv events)
    (hsha1 : Set.InjOn sha1 (hashedBy sha1 events)) (sys : System) (answers : List Answer)
    (hrun : System.start.run w sha1 events = .ok (sys, answers)) :
    (∀ a ∈ answers, ∀ a' ∈ answers, assertionHash sha1 a.1 = assertionHash sha1 a'.1 →
      (Term.Satisfiable (a.1.map CacheTerm.inner) ↔ Term.Satisfiable (a'.1.map CacheTerm.inner))) ∧
    ∀ a ∈ answers, a.2 = w.checkAssertions (a.1.map CacheTerm.inner) := by
  have hall := systemInv_start.run hw hsha1 hadmits subset_rfl hrun
  refine ⟨fun a ha a' ha' hkey => ?_, fun a ha => ?_⟩
  · obtain ⟨hash, hasked⟩ := (hall a ha).1
    obtain ⟨hash', hasked'⟩ := (hall a' ha').1
    rw [hasked.key_eq, hasked'.key_eq] at hkey
    obtain rfl := Except.ok.inj hkey
    exact hasked.satisfiable_iff hsha1 hasked'
  · rw [(hall a ha).2, hw.checkAssertions_eq, answerOf]

/-- Two queries with one key. -/
theorem run_cache_sound_twoBools :
    ∃ sys answers, System.start.run referenceSolver lengthHash twoBools = .ok (sys, answers) ∧
      answers.map Prod.fst = [[firstBool "x"], [firstBool "y"]] ∧
      ∀ a ∈ answers, a.2 = referenceSolver.checkAssertions (a.1.map CacheTerm.inner) := by
  have hkey : ∀ name, assertionHash lengthHash [firstBool name] =
      .ok (lengthHash (hashInput lengthHash [[5, 0]])) := by
    intro name
    rw [assertionHash, assertionBytes_firstBool]
    rfl
  obtain ⟨sys, hmade, hcache⟩ : ∃ sys, System.start.run referenceSolver lengthHash
      [.call 0 (.newBoolConst "x"), .call 1 (.newBoolConst "y")] = .ok (sys, []) ∧
      ∀ hash, sys.cache hash = none := ⟨_, rfl, fun _ => rfl⟩
  obtain ⟨sys', hchecks⟩ := System.run_checks hcache (hkey "x") (hkey "y") rfl
  have hrun := System.run_append hchecks hmade
  exact ⟨sys', _, hrun, rfl, (run_cache_sound referenceSolver referenceSolver_correct lengthHash
    unsignedConvention twoBools admits_twoBools injOn_lengthHash sys' _ hrun).2⟩

/-! ## Without a convention -/

/-- `int_from_bv(bv_from_u64(255, 8), signed) == int_from_u64(255)` -/
def byteEq (signed : Bool) : CacheTerm :=
  .binary .eq (.intFromBv (.bvFromU64 255 8) signed) (.intFromU64 255)

/-- The calls that make `byteEq` in the instance `i`. -/
def makeByteEq (i : ℕ) (signed : Bool) : List Event :=
  [.call i (.bvFromU64 255 8), .call i (.unary (.intFromBv signed) (.bvFromU64 255 8)),
    .call i (.intFromU64 255),
    .call i (.binary .eq (.intFromBv (.bvFromU64 255 8) signed) (.intFromU64 255))]

lemma eval_byteEq (signed : Bool) (ρ : Assignment String) :
    (byteEq signed).inner.eval ρ = .bool (!signed) := by
  cases signed
  · rfl
  · rfl

lemma assertionHash_byteEq (sha1 : List U8 → AssertionHash) :
    ∃ hash, ∀ signed, assertionHash sha1 [byteEq signed] = .ok hash := by
  obtain ⟨bytes, hbytes⟩ : ∃ bytes, assertionBytes [] [byteEq false] = .ok bytes := ⟨_, rfl⟩
  refine ⟨sha1 (hashInput sha1 bytes), fun signed => ?_⟩
  have hsame : assertionBytes [] [byteEq signed] = assertionBytes [] [byteEq false] := rfl
  unfold assertionHash sortAssertions
  rw [mergeSort_singleton, hsame, hbytes]
  rfl

/-- The key of `byteEq` does not depend on the signedness, but one of the two can be satisfied and
the other cannot, so a cache that has seen the first gives the wrong answer to the second. -/
theorem run_cache_byteEq :
    (∀ sha1, assertionHash sha1 [byteEq true] = assertionHash sha1 [byteEq false]) ∧
    Term.Satisfiable [(byteEq false).inner] ∧ ¬ Term.Satisfiable [(byteEq true).inner] ∧
    ∀ w : WrappedSolver, w.Correct → ∀ sha1, ∃ sys,
      System.start.run w sha1 (makeByteEq 0 false ++ makeByteEq 1 true ++
        [.check 0 [byteEq false], .check 1 [byteEq true]]) =
        .ok (sys, [([byteEq false], .sat), ([byteEq true], .sat)]) ∧
      w.checkAssertions [(byteEq true).inner] = .unsat := by
  have hsat : Term.Satisfiable [(byteEq false).inner] :=
    ⟨fun _ _ => default, forall_mem_singleton.mpr (eval_byteEq false _)⟩
  have hunsat : ¬ Term.Satisfiable [(byteEq true).inner] := by
    rintro ⟨ρ, hρ⟩
    have h := forall_mem_singleton.mp hρ
    cases h
  refine ⟨fun sha1 => ?_, hsat, hunsat, fun w hw sha1 => ?_⟩
  · obtain ⟨hash, hkey⟩ := assertionHash_byteEq sha1
    rw [hkey, hkey]
  · obtain ⟨hash, hkey⟩ := assertionHash_byteEq sha1
    have hfirst : w.checkAssertions ((sortAssertions [byteEq false]).map CacheTerm.inner) = .sat := by
      rw [hw.checkAssertions_sort]
      exact if_pos hsat
    obtain ⟨sys, hmade, hcache⟩ : ∃ sys, System.start.run w sha1
        (makeByteEq 0 false ++ makeByteEq 1 true) = .ok (sys, []) ∧ ∀ hash, sys.cache hash = none :=
      ⟨_, rfl, fun _ => rfl⟩
    obtain ⟨sys', hchecks⟩ := System.run_checks hcache (hkey false) (hkey true) hfirst
    exact ⟨sys', System.run_append hchecks hmade, (hw.checkAssertions_eq _).trans (if_neg hunsat)⟩

end LibLisa.Smt
