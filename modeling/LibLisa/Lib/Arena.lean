import Mathlib.Data.Multiset.Range

/-!
# Arenas with a free list

An arena keeps its cells in a list and hands out their positions. A released cell goes to a free
list, except that the last cell is dropped from the list; a new cell takes the most recently freed
position when there is one.

`Owns a used` says that the positions in `used` and the free ones are, each once, all positions of
the arena. Allocation adds the new position to `used`, release takes one away, and neither touches
a cell of another position in `used` (`alloc_spec`, `free_spec`, `write_spec`).
-/

namespace LibLisa.Lib

open Multiset

/-- Cells addressed by position, and the positions that are free. -/
structure Arena (α : Type) where
  /-- The cells. -/
  entries : List α
  /-- The free positions, the most recently freed one first. -/
  empty : List ℕ
deriving DecidableEq, Repr

namespace Arena

variable {α : Type}

/-- Overwrites a cell; fails on a position outside the arena. -/
def write (a : Arena α) (i : ℕ) (x : α) : Option (Arena α) :=
  if i < a.entries.length then some { a with entries := a.entries.set i x } else none

/-- Puts `x` in a free cell, or in a new one when none is free. -/
def alloc (a : Arena α) (x : α) : Option (ℕ × Arena α) :=
  match a.empty with
  | i :: rest => ({ a with empty := rest }.write i x).map fun a => (i, a)
  | [] => some (a.entries.length, { a with entries := a.entries ++ [x] })

/-- Releases a cell: the last one is dropped, any other one is put on the free list. Fails on an
arena without cells. -/
def free (a : Arena α) (i : ℕ) : Option (Arena α) :=
  if a.entries = [] then none
  else if i = a.entries.length - 1 then some { a with entries := a.entries.dropLast }
  else some { a with empty := i :: a.empty }

/-- The positions in `used` and the free ones make up the arena, each once. -/
def Owns (a : Arena α) (used : Multiset ℕ) : Prop :=
  used + (a.empty : Multiset ℕ) = Multiset.range a.entries.length

variable {a a' : Arena α} {used : Multiset ℕ} {i j : ℕ} {x : α}

section

variable (h : a.Owns used)
include h

lemma Owns.congr {used' : Multiset ℕ} (heq : used = used') : a.Owns used' := heq ▸ h

lemma Owns.nodup : used.Nodup := nodup_of_le (h ▸ le_add_right used _) (nodup_range _)

lemma Owns.lt (hi : i ∈ used) : i < a.entries.length := by
  rw [← mem_range, ← h]
  exact mem_add.mpr (Or.inl hi)

lemma Owns.lt_of_mem_empty (hi : i ∈ a.empty) : i < a.entries.length := by
  rw [← mem_range, ← h]
  exact mem_add.mpr (Or.inr hi)

lemma Owns.not_mem_empty (hi : i ∈ used) : i ∉ a.empty := by
  have hnodup : (used + a.empty).Nodup := by
    rw [h]
    exact nodup_range _
  intro hi'
  exact disjoint_left.mp (nodup_add.mp hnodup).2.2 hi hi'

lemma Owns.nodup_empty : a.empty.Nodup := by
  have hnodup : (used + a.empty).Nodup := by
    rw [h]
    exact nodup_range _
  exact coe_nodup.mp (nodup_add.mp hnodup).2.1

lemma Owns.mem_or_mem_empty (hi : i < a.entries.length) : i ∈ used ∨ i ∈ a.empty := by
  rw [← mem_range, ← h] at hi
  simpa using hi

/-- The arena has as many cells in use as it has cells without the free ones. -/
lemma Owns.card_add : used.card + a.empty.length = a.entries.length := by
  have hcard := congrArg card h
  simpa using hcard

end

lemma Owns.notMem_of_singleton_add (h : a.Owns ({i} + used)) : i ∉ used := by
  have hnodup := h.nodup
  exact (nodup_cons.mp hnodup).1

/-- Overwriting a used cell changes that cell only. -/
theorem write_spec (h : a.Owns used) (hi : i ∈ used) (x : α) :
    ∃ a', a.write i x = some a' ∧ a'.Owns used ∧ a'.entries[i]? = some x ∧
      ∀ j, j ≠ i → a'.entries[j]? = a.entries[j]? := by
  have hlt := h.lt hi
  refine ⟨{ a with entries := a.entries.set i x }, by simp [write, hlt], ?_, ?_, ?_⟩
  · simpa [Owns] using h
  · simp [hlt]
  · intro j hj
    simp [List.getElem?_set_ne (Ne.symm hj)]

/-- A new cell holds its value and leaves the used cells alone. -/
theorem alloc_spec (h : a.Owns used) (x : α) :
    ∃ i a', a.alloc x = some (i, a') ∧ a'.Owns ({i} + used) ∧ a'.entries[i]? = some x ∧
      ∀ j ∈ used, a'.entries[j]? = a.entries[j]? := by
  rcases hempty : a.empty with _ | ⟨i, rest⟩
  · refine ⟨a.entries.length, { a with entries := a.entries ++ [x] }, by simp [alloc, hempty],
      ?_, by simp, ?_⟩
    · have hused : used = range a.entries.length := by
        simpa [Owns, hempty] using h
      simp [Owns, hempty, hused]
    · intro j hj
      exact List.getElem?_append_left (h.lt hj)
  · have hi : i < a.entries.length := h.lt_of_mem_empty (by simp [hempty])
    refine ⟨i, { entries := a.entries.set i x, empty := rest }, by simp [alloc, write, hempty, hi],
      ?_, by simp [hi], ?_⟩
    · rw [Owns, hempty, ← cons_coe, add_cons] at h
      simpa [Owns, cons_add, singleton_add] using h
    · intro j hj
      have hne : i ≠ j := by
        rintro rfl
        exact h.not_mem_empty hj (by simp [hempty])
      simp [List.getElem?_set_ne hne]

/-- Releasing a used cell leaves the other used cells alone. -/
theorem free_spec (h : a.Owns ({i} + used)) :
    ∃ a', a.free i = some a' ∧ a'.Owns used ∧ ∀ j ∈ used, a'.entries[j]? = a.entries[j]? := by
  have hi : i < a.entries.length := h.lt (by simp)
  have hne : a.entries ≠ [] := List.ne_nil_of_length_pos (by omega)
  by_cases hlast : i = a.entries.length - 1
  · refine ⟨{ a with entries := a.entries.dropLast }, by simp [free, hne, hlast], ?_, ?_⟩
    · obtain ⟨n, hn⟩ : ∃ n, a.entries.length = n + 1 := ⟨a.entries.length - 1, by omega⟩
      have hall : i ::ₘ (used + a.empty) = n ::ₘ range n := by
        rw [← range_succ, Nat.succ_eq_add_one, ← hn, ← h, singleton_add, cons_add]
      have hin : i = n := by omega
      rw [hin] at hall
      simpa [Owns, hn] using (cons_inj_right n).mp hall
    · intro j hj
      have hj' : j < a.entries.length := h.lt (by simp [hj])
      have hji : j ≠ i := by
        rintro rfl
        exact h.notMem_of_singleton_add hj
      simp only [List.getElem?_dropLast]
      rw [if_pos (by omega)]
  · refine ⟨{ a with empty := i :: a.empty }, by simp [free, hne, hlast], ?_, fun j _ => rfl⟩
    rw [Owns, ← h, ← cons_coe, add_cons, singleton_add, cons_add]

end Arena

end LibLisa.Lib
