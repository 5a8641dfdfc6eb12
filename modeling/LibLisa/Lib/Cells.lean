import Mathlib.Data.List.Basic

/-!
# Cells that are read and written one by one

A state with cells under keys: writing a cell replaces its value and nothing else. `writeAll` writes
a list of values. The later of two lists of writes wins where it writes every cell of the earlier one
(`writeAll_writeAll`), writing back what was read changes nothing (`writeAll_read`), and values that
are there already need not be written (`writeAll_filter`).
-/

namespace LibLisa.Lib

open List

/-- Reading and writing the cells of a state. -/
structure Cells (S K V : Type) where
  read : S → K → V
  write : S → K → V → S
  write_read : ∀ s k, write s k (read s k) = s
  write_write : ∀ s k v w, write (write s k v) k w = write s k w
  write_comm : ∀ s k l v w, k ≠ l → write (write s k v) l w = write (write s l w) k v
  read_write_of_ne : ∀ s k l v, k ≠ l → read (write s k v) l = read s l

namespace Cells

variable {S K V : Type} (c : Cells S K V)

/-- The values are written from the first to the last. -/
def writeAll (s : S) (l : List (K × V)) : S := l.foldl (fun s p => c.write s p.1 p.2) s

@[simp] lemma writeAll_nil (s : S) : c.writeAll s [] = s := rfl

lemma writeAll_cons (s : S) (p : K × V) (l : List (K × V)) :
    c.writeAll s (p :: l) = c.writeAll (c.write s p.1 p.2) l := rfl

variable {k : K} {l : List (K × V)} {s : S}

/-- A cell that is written later need not be written before. -/
lemma writeAll_write {v : V} (h : k ∈ l.map Prod.fst) :
    c.writeAll (c.write s k v) l = c.writeAll s l := by
  induction l generalizing s with
  | nil => cases h
  | cons p l ih =>
    rw [writeAll_cons, writeAll_cons]
    by_cases hk : k = p.1
    · rw [hk, c.write_write]
    · rw [c.write_comm _ _ _ _ _ hk]
      apply ih
      exact (mem_cons.mp h).resolve_left hk

lemma writeAll_writeAll {l' : List (K × V)} (h : ∀ k ∈ l.map Prod.fst, k ∈ l'.map Prod.fst) :
    c.writeAll (c.writeAll s l) l' = c.writeAll s l' := by
  induction l generalizing s with
  | nil => rfl
  | cons p l ih =>
    rw [map_cons, forall_mem_cons] at h
    rw [writeAll_cons, ih h.2, c.writeAll_write h.1]

lemma writeAll_read (s : S) (keys : List K) :
    c.writeAll s (keys.map fun k => (k, c.read s k)) = s := by
  induction keys with
  | nil => rfl
  | cons k keys ih => rw [map_cons, writeAll_cons, c.write_read, ih]

/-- What was written can be read and written again, with more cells. -/
lemma writeAll_read_writeAll {keys : List K} (h : ∀ k ∈ l.map Prod.fst, k ∈ keys) :
    c.writeAll s (keys.map fun k => (k, c.read (c.writeAll s l) k)) = c.writeAll s l := by
  have hkeys : (keys.map fun k => (k, c.read (c.writeAll s l) k)).map Prod.fst = keys := by
    rw [map_map]
    exact map_id keys
  have hsub : ∀ k ∈ l.map Prod.fst,
      k ∈ (keys.map fun k => (k, c.read (c.writeAll s l) k)).map Prod.fst := by
    rw [hkeys]
    exact h
  rw [← c.writeAll_writeAll hsub, c.writeAll_read]

/-- Writing a cell before or after cells with other keys. -/
lemma write_writeAll {v : V} (h : k ∉ l.map Prod.fst) :
    c.write (c.writeAll s l) k v = c.writeAll (c.write s k v) l := by
  induction l generalizing s with
  | nil => rfl
  | cons p l ih =>
    rw [map_cons, mem_cons, not_or] at h
    rw [writeAll_cons, writeAll_cons, ih h.2, c.write_comm _ _ _ _ _ (Ne.symm h.1)]

lemma read_writeAll (h : k ∉ l.map Prod.fst) : c.read (c.writeAll s l) k = c.read s k := by
  induction l generalizing s with
  | nil => rfl
  | cons p l ih =>
    rw [map_cons, mem_cons, not_or] at h
    rw [writeAll_cons, ih h.2, c.read_write_of_ne _ _ _ _ (Ne.symm h.1)]

/-- Values that are there already need not be written. -/
theorem writeAll_filter [DecidableEq V] (h : (l.map Prod.fst).Nodup) :
    c.writeAll s (l.filter fun p => decide (c.read s p.1 ≠ p.2)) = c.writeAll s l := by
  induction l with
  | nil => rfl
  | cons p l ih =>
    rw [map_cons, nodup_cons] at h
    have hkept : p.1 ∉ (l.filter fun p => decide (c.read s p.1 ≠ p.2)).map Prod.fst := by
      intro hmem
      obtain ⟨q, hq, hqp⟩ := mem_map.mp hmem
      exact h.1 (hqp ▸ mem_map_of_mem (mem_of_mem_filter hq))
    have hwrite : c.writeAll (c.write s p.1 p.2) l = c.write (c.writeAll s l) p.1 p.2 :=
      (c.write_writeAll h.1).symm
    rw [writeAll_cons, hwrite, ← ih h.2]
    by_cases hp : c.read s p.1 = p.2
    · rw [filter_cons_of_neg (by simp [hp]), ← hp, ← c.read_writeAll hkept, c.write_read]
    · rw [filter_cons_of_pos (by simp [hp]), writeAll_cons, c.write_writeAll hkept]

end Cells

end LibLisa.Lib
