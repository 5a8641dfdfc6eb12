import LibLisa.Semantics.Ops
import Mathlib.Data.List.Chain

/-!
# The perfect mapping

`PerfectMapping` numbers keys in the order of their insertion. The keys are kept as a sequence of
ascending runs, of which the starts are remembered, and a key is to be found by a binary search in
each run.

The search runs while its start is behind its end. The starts of the runs ascend
(`PerfectMapping.Ascending`), so that is never the case: no key is found (`get_eq_none`), and the
mapping is a dictionary of the inserted keys only as long as there are none
(`isDictionary_insertAll_iff`).
-/

namespace LibLisa.Synth

open Lib Semantics List

/-- Source: `mapping.rs`, `PerfectMapping` -/
structure PerfectMapping (K : Type) where
  runs : List K
  resetIndices : List ℕ
deriving DecidableEq

namespace PerfectMapping

variable {K : Type}

/-- Source: `mapping.rs`, `PerfectMapping::new` -/
def new : PerfectMapping K := ⟨[], []⟩

/-- The start and the end of every run, in `PerfectMapping::get`. -/
def ranges (m : PerfectMapping K) : Partial (List (ℕ × ℕ)) := do
  let last ← orPanic .assertionFailed m.resetIndices.getLast?
  return m.resetIndices.zip m.resetIndices.tail ++ [(last, m.runs.length)]

/-- Source: `mapping.rs`, `PerfectMapping::get_inv` -/
def getInv (m : PerfectMapping K) (n : ℕ) : Option K := m.runs[n]?

variable [LinearOrder K]

/-- The binary search of `PerfectMapping::get` in one run. -/
def searchRun (runs : List K) (key : K) : ℕ → ℕ × ℕ → Partial (Option ℕ)
  | 0, _ => .error .outOfFuel
  | fuel + 1, (startIndex, endIndex) =>
    if endIndex < startIndex then do
      let mid := startIndex + (← usub endIndex startIndex) / 2
      let found ← orPanic .indexOutOfBounds runs[mid]?
      match cmp found key with
      | .lt => searchRun runs key fuel (mid, endIndex)
      | .eq => return some (mid % 2 ^ 32)
      | .gt => searchRun runs key fuel (startIndex, mid)
    else .ok none

/-- Source: `mapping.rs`, `PerfectMapping::get` -/
def get (m : PerfectMapping K) (fuel : ℕ) (key : K) : Partial (Option ℕ) :=
  if m.runs.isEmpty then .ok none
  else do (← m.ranges).findSomeM? (searchRun m.runs key fuel)

/-- Source: `mapping.rs`, `PerfectMapping::get_or_insert` -/
def getOrInsert (m : PerfectMapping K) (fuel : ℕ) (key : K) : Partial (ℕ × PerfectMapping K) := do
  match ← m.get fuel key with
  | some index => return (index, m)
  | none =>
    let index := m.runs.length
    let resetIndices := if (m.runs.getLast?.map fun last => decide (key < last)).getD true then
      m.resetIndices ++ [index] else m.resetIndices
    return (index % 2 ^ 32, ⟨m.runs ++ [key], resetIndices⟩)

/-- A sequence of calls of `get_or_insert`, beginning with the empty mapping. -/
def insertAll (fuel : ℕ) (keys : List K) : Partial (PerfectMapping K) :=
  keys.foldlM (fun m key => do return (← m.getOrInsert fuel key).2) new

/-! ## No key is found -/

/-- The runs begin one after another. -/
def Ascending (m : PerfectMapping K) : Prop :=
  IsChain (· ≤ ·) (m.resetIndices ++ [m.runs.length]) ∧ (m.runs ≠ [] → m.resetIndices ≠ [])

variable {m : PerfectMapping K} {fuel : ℕ}

omit [LinearOrder K] in
lemma le_of_mem_ranges {starts : List ℕ} {last n : ℕ} {range : ℕ × ℕ}
    (hchain : IsChain (· ≤ ·) (starts ++ [n])) (hlast : starts.getLast? = some last)
    (hrange : range ∈ starts.zip starts.tail ++ [(last, n)]) : range.1 ≤ range.2 := by
  induction starts with
  | nil => cases hlast
  | cons start starts ih =>
    cases starts with
    | nil =>
      obtain rfl := Option.some.inj hlast
      rw [mem_singleton.mp hrange]
      exact (isChain_cons_cons.mp hchain).1
    | cons next starts =>
      rcases mem_cons.mp hrange with rfl | hrange
      · exact (isChain_cons_cons.mp hchain).1
      · exact ih (isChain_cons_cons.mp hchain).2 hlast hrange

lemma findSomeM?_searchRun {ranges : List (ℕ × ℕ)} (h : ∀ range ∈ ranges, range.1 ≤ range.2)
    (runs : List K) (key : K) (fuel : ℕ) :
    ranges.findSomeM? (searchRun runs key (fuel + 1)) = .ok none := by
  induction ranges with
  | nil => rfl
  | cons range ranges ih =>
    have hrun : searchRun runs key (fuel + 1) range = .ok none :=
      if_neg (Nat.not_lt.mpr (h range mem_cons_self))
    rw [findSomeM?_cons, hrun]
    exact ih fun range hrange => h range (mem_cons_of_mem _ hrange)

lemma get_eq_none (h : m.Ascending) (fuel : ℕ) (key : K) : m.get (fuel + 1) key = .ok none := by
  unfold get
  split
  · rfl
  next hne =>
    have hstarts := h.2 fun hnil => hne (isEmpty_iff.mpr hnil)
    have hlast := getLast?_eq_some_getLast hstarts
    unfold ranges
    rw [hlast]
    exact findSomeM?_searchRun (fun _ => le_of_mem_ranges h.1 hlast) _ _ _

/-- Every key is added, whether it is there or not. -/
lemma getOrInsert_spec (h : m.Ascending) (fuel : ℕ) (key : K) :
    ∃ m', m.getOrInsert (fuel + 1) key = .ok (m.runs.length % 2 ^ 32, m') ∧
      m'.runs = m.runs ++ [key] ∧ m'.Ascending := by
  refine ⟨_, by rw [getOrInsert, get_eq_none h]; rfl, rfl, ?_⟩
  have hlen : (m.runs ++ [key]).length = m.runs.length + 1 := length_append
  have hend : IsChain (· ≤ ·) [m.runs.length, m.runs.length + 1] := by simp
  unfold Ascending
  rw [hlen]
  split
  · exact ⟨h.1.append_overlap hend (cons_ne_nil _ _), fun _ => by simp⟩
  next hcond =>
    have hne : m.runs ≠ [] := fun hnil => hcond (by rw [hnil]; rfl)
    refine ⟨?_, fun _ => h.2 hne⟩
    obtain ⟨hstarts, -, hle⟩ := isChain_append.mp h.1
    exact isChain_append.mpr ⟨hstarts, .singleton _, fun x hx y hy => by
      obtain rfl := Option.some.inj hy
      exact Nat.le_succ_of_le (hle x hx _ rfl)⟩

lemma insertAll_spec (fuel : ℕ) (keys : List K) :
    ∃ m, insertAll (fuel + 1) keys = .ok m ∧ m.Ascending := by
  refine exists_foldlM_eq_ok ⟨.singleton _, fun h => absurd rfl h⟩ fun m key _ h => ?_
  obtain ⟨m', hm', -, h'⟩ := getOrInsert_spec h fuel key
  exact ⟨m', by rw [hm']; rfl, h'⟩

/-! ## The mapping as a dictionary -/

/-- What a dictionary with the inserted keys does: it finds these keys and no others, finding a key
back by its number, returns the number of a key that is inserted again and does not grow then, and
has different numbers for different keys. -/
structure IsDictionary (m : PerfectMapping K) (fuel : ℕ) (keys : List K) : Prop where
  get_iff : ∀ key, (∃ n, m.get fuel key = .ok (some n) ∧ m.getInv n = some key) ↔ key ∈ keys
  insert_again : ∀ key ∈ keys, ∃ n m', m.getOrInsert fuel key = .ok (n, m') ∧
    m.get fuel key = .ok (some n) ∧ m'.runs.length = m.runs.length
  injective : ∀ key key' n, m.get fuel key = .ok (some n) → m.get fuel key' = .ok (some n) →
    key = key'

/-- The mapping is a dictionary of the keys that were inserted only if there are none. -/
theorem isDictionary_insertAll_iff (fuel : ℕ) (keys : List K) :
    ∃ m, insertAll (fuel + 1) keys = .ok m ∧ (m.IsDictionary (fuel + 1) keys ↔ keys = []) := by
  obtain ⟨m, hm, h⟩ := insertAll_spec fuel keys
  refine ⟨m, hm, ?_, ?_⟩
  · intro hdict
    refine eq_nil_iff_forall_not_mem.mpr fun key hkey => ?_
    obtain ⟨n, hn, -⟩ := (hdict.get_iff key).mpr hkey
    rw [get_eq_none h] at hn
    cases hn
  · rintro rfl
    refine ⟨fun key => ⟨?_, fun hkey => absurd hkey not_mem_nil⟩,
      fun key hkey => absurd hkey not_mem_nil, fun key _ n hn => ?_⟩
    · rintro ⟨n, hn, -⟩
      rw [get_eq_none h] at hn
      cases hn
    · rw [get_eq_none h] at hn
      cases hn

/-- A key that was inserted is not found, and is inserted once more. -/
theorem get_inserted_key : ∃ m, insertAll 64 [(7 : ℕ)] = .ok m ∧ m.get 64 7 = .ok none ∧
    m.getOrInsert 64 7 = .ok (1, ⟨[7, 7], [0]⟩) :=
  ⟨⟨[7], [0]⟩, by decide +kernel⟩

end PerfectMapping

end LibLisa.Synth
