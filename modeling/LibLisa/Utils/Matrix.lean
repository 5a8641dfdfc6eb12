import LibLisa.Lib.Components
import LibLisa.Utils.Mcs
import Mathlib.Tactic.Ring

/-!
# Symmetric matrices of booleans

A model of `utils/matrix.rs`: the entries at and below the diagonal are stored in one bitmap, one
row after the other. `index_inj` says that two entries share a place only if they are the same up to
swapping the coordinates. `overlapMatrix` fills a matrix from a relation, and `mem_iterRowIndices`
says what is then in it.
-/

namespace LibLisa

open Lib Mcs List

/-- Source: `matrix.rs`, `Symmetric2DMatrix` -/
structure Symmetric2DMatrix where
  data : Bitmap
  size : ℕ

namespace Symmetric2DMatrix

/-- Source: `matrix.rs`, `Symmetric2DMatrix::new` -/
def new : Symmetric2DMatrix := ⟨∅, 0⟩

/-- Source: `matrix.rs`, `Symmetric2DMatrix::index` -/
def index (x y : ℕ) : ℕ := (max x y + 1) * max x y / 2 + min x y

/-- Source: `matrix.rs`, `Symmetric2DMatrix::get` -/
def get (m : Symmetric2DMatrix) (x y : ℕ) : Bool := decide (index x y ∈ m.data)

/-- Source: `matrix.rs`, `Symmetric2DMatrix::set` -/
def set (m : Symmetric2DMatrix) (x y : ℕ) : Symmetric2DMatrix :=
  ⟨insert (index x y) m.data, max (max m.size (x + 1)) (y + 1)⟩

/-- Source: `matrix.rs`, `Symmetric2DMatrix::iter_row_indices` -/
def iterRowIndices (m : Symmetric2DMatrix) (y : ℕ) : List ℕ :=
  (range m.size).filter fun x => m.get x y

/-! ## Places of entries -/

lemma index_comm (x y : ℕ) : index x y = index y x := by
  rw [index, index, Nat.max_comm, Nat.min_comm]

/-- Row `h` ends where row `h + 1` begins. -/
lemma row_unique {h k a b : ℕ} (ha : a ≤ h) (hb : b ≤ k)
    (heq : (h + 1) * h / 2 + a = (k + 1) * k / 2 + b) : h = k ∧ a = b := by
  have hlt : ∀ {h k a b : ℕ}, a ≤ h → h < k → (h + 1) * h / 2 + a ≠ (k + 1) * k / 2 + b := by
    intro h k a b ha hk
    have hrow : (h + 1 + 1) * (h + 1) = (h + 1) * h + 2 * (h + 1) := by ring
    have hmono : (h + 1 + 1) * (h + 1) ≤ (k + 1) * k := Nat.mul_le_mul (by omega) hk
    omega
  rcases Nat.lt_trichotomy h k with hk | rfl | hk
  · exact absurd heq (hlt ha hk)
  · exact ⟨rfl, by omega⟩
  · exact absurd heq.symm (hlt hb hk)

/-- Entries share a place only up to swapping the coordinates. -/
theorem index_inj {x y x' y' : ℕ} (h : index x y = index x' y') :
    (x = x' ∧ y = y') ∨ (x = y' ∧ y = x') := by
  obtain ⟨hmax, hmin⟩ := row_unique (by omega) (by omega) h
  omega

/-! ## Filling a matrix -/

/-- The entries `(a, b)` for the later positions `b` that `ov` relates to `a`. -/
def setRow (ov : ℕ → ℕ → Bool) (a : ℕ) (bs : List ℕ) (m : Symmetric2DMatrix) : Symmetric2DMatrix :=
  bs.foldl (fun m b => if ov a b then m.set a b else m) (m.set a a)

/-- The matrix of the pairs of positions below `n` that are equal or related by `ov`. -/
def overlapMatrix (ov : ℕ → ℕ → Bool) (n : ℕ) : Symmetric2DMatrix :=
  (range n).foldl (fun m a => setRow ov a ((range n).drop (a + 1)) m) new

/-- A matrix with the given entries. -/
def ofEntries (entries : List (ℕ × ℕ)) : Symmetric2DMatrix :=
  entries.foldl (fun m p => m.set p.1 p.2) new

lemma foldl_set (entries : List (ℕ × ℕ)) (m : Symmetric2DMatrix) :
    (∀ k, k ∈ (entries.foldl (fun m p => m.set p.1 p.2) m).data ↔
      k ∈ m.data ∨ ∃ p ∈ entries, k = index p.1 p.2) ∧
    m.size ≤ (entries.foldl (fun m p => m.set p.1 p.2) m).size ∧
    ∀ p ∈ entries, p.1 < (entries.foldl (fun m p => m.set p.1 p.2) m).size ∧
      p.2 < (entries.foldl (fun m p => m.set p.1 p.2) m).size := by
  induction entries generalizing m with
  | nil => simp
  | cons p entries ih =>
    obtain ⟨hdata, hsize, hmem⟩ := ih (m.set p.1 p.2)
    rw [foldl_cons]
    have hset : m.size ≤ (m.set p.1 p.2).size ∧ p.1 < (m.set p.1 p.2).size ∧
        p.2 < (m.set p.1 p.2).size := by
      unfold set
      dsimp only
      omega
    refine ⟨fun k => ?_, hset.1.trans hsize, fun q hq => ?_⟩
    · rw [hdata, set, Finset.mem_insert]
      simp only [mem_cons, exists_eq_or_imp]
      tauto
    · rcases mem_cons.mp hq with rfl | hq
      · exact ⟨hset.2.1.trans_le hsize, hset.2.2.trans_le hsize⟩
      · exact hmem q hq

/-- A row lists the positions with an entry, in either order of the coordinates. -/
lemma mem_iterRowIndices_ofEntries {entries : List (ℕ × ℕ)} {x y : ℕ} :
    x ∈ (ofEntries entries).iterRowIndices y ↔ (x, y) ∈ entries ∨ (y, x) ∈ entries := by
  obtain ⟨hdata, -, hsize⟩ := foldl_set entries new
  unfold iterRowIndices ofEntries
  rw [mem_filter, mem_range, get, decide_eq_true_iff, hdata]
  constructor
  · rintro ⟨-, h | ⟨p, hp, h⟩⟩
    · exact absurd h (Finset.notMem_empty _)
    · rcases index_inj h with ⟨rfl, rfl⟩ | ⟨rfl, rfl⟩
      · exact Or.inl hp
      · exact Or.inr hp
  · rintro (h | h)
    · exact ⟨(hsize _ h).1, Or.inr ⟨_, h, rfl⟩⟩
    · exact ⟨(hsize _ h).2, Or.inr ⟨_, h, index_comm x y⟩⟩

lemma mem_drop_range {n a b : ℕ} : b ∈ (range n).drop (a + 1) ↔ a < b ∧ b < n := by
  rw [range_eq_range', drop_range', mem_range'_1]
  omega

/-- The entries that the rows of the matrix set. -/
lemma overlapMatrix_eq (ov : ℕ → ℕ → Bool) (n : ℕ) :
    overlapMatrix ov n = ofEntries ((range n).flatMap fun a =>
      (a, a) :: (((range n).drop (a + 1)).filter (ov a)).map (a, ·)) := by
  rw [ofEntries, foldl_flatMap]
  simp only [foldl_cons, foldl_map, foldl_filter]
  rfl

/-- A row lists the positions with an entry: the equal one, and those that `ov` relates. -/
theorem mem_iterRowIndices (ov : ℕ → ℕ → Bool) (hsymm : ∀ a b, ov a b = ov b a) {n x y : ℕ} :
    x ∈ (overlapMatrix ov n).iterRowIndices y ↔ x < n ∧ y < n ∧ (x = y ∨ ov x y = true) := by
  rw [overlapMatrix_eq, mem_iterRowIndices_ofEntries]
  simp only [mem_flatMap, mem_cons, mem_map, mem_filter, mem_drop_range, mem_range, Prod.mk.injEq]
  constructor
  · rintro (⟨a, ha, ⟨rfl, rfl⟩ | ⟨b, ⟨⟨-, hb⟩, hov⟩, rfl, rfl⟩⟩ |
      ⟨a, ha, ⟨rfl, rfl⟩ | ⟨b, ⟨⟨-, hb⟩, hov⟩, rfl, rfl⟩⟩)
    · exact ⟨ha, ha, .inl rfl⟩
    · exact ⟨ha, hb, .inr hov⟩
    · exact ⟨ha, ha, .inl rfl⟩
    · exact ⟨hb, ha, .inr (hsymm _ _ ▸ hov)⟩
  · rintro ⟨hx, hy, h⟩
    rcases Nat.lt_trichotomy x y with hlt | rfl | hgt
    · exact .inl ⟨x, hx, .inr ⟨y, ⟨⟨hlt, hy⟩, h.resolve_left hlt.ne⟩, rfl, rfl⟩⟩
    · exact .inl ⟨x, hx, .inl ⟨rfl, rfl⟩⟩
    · exact .inr ⟨y, hy, .inr ⟨x, ⟨⟨hgt, hx⟩, hsymm x y ▸ h.resolve_left hgt.ne'⟩, rfl, rfl⟩⟩

end Symmetric2DMatrix

end LibLisa
