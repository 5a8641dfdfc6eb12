import Mathlib.Data.List.Basic
import Mathlib.Data.Nat.ModEq

/-!
# Rings addressed by running positions

A ring of `n` cells is used through positions that only ever grow: position `a` stands for cell
`a % n`. As long as the positions in use lie in a window of at most `n`, different positions stand
for different cells (`mod_inj`, `mod_ne_of_window`). `consecutive` lists what a function gives for
consecutive positions.
-/

namespace LibLisa.Lib.Ring

variable {n a b : ℕ}

/-- Positions of a window of at most `n` are told apart by their cells. -/
theorem mod_inj (hab : a ≤ b) (hlt : b < a + n) : a % n = b % n ↔ a = b := by
  constructor
  · intro h
    have hdvd : n ∣ b - a := (Nat.modEq_iff_dvd' hab).mp h
    have hzero : b - a = 0 := Nat.eq_zero_of_dvd_of_lt hdvd (by omega)
    omega
  · rintro rfl
    rfl

lemma mod_ne_of_window {lo hi : ℕ} (hwindow : hi ≤ lo + n) (ha : lo ≤ a ∧ a < hi)
    (hb : lo ≤ b ∧ b < hi) (hne : a ≠ b) : a % n ≠ b % n := by
  rcases Nat.lt_or_gt_of_ne hne with hlt | hlt
  · exact fun h => hne ((mod_inj hlt.le (by omega)).mp h)
  · exact fun h => hne.symm ((mod_inj hlt.le (by omega)).mp h.symm)

section consecutive

variable {γ : Type} (f : ℕ → γ) (start len : ℕ)

/-- What a function gives for `len` consecutive positions. -/
def consecutive : List γ := (List.range len).map fun j => f (start + j)

@[simp] lemma consecutive_zero : consecutive f start 0 = [] := rfl

lemma consecutive_succ :
    consecutive f start (len + 1) = consecutive f start len ++ [f (start + len)] := by
  rw [consecutive, List.range_succ, List.map_append]
  rfl

variable {f start len}

lemma mem_consecutive {c : γ} : c ∈ consecutive f start len ↔ ∃ j < len, c = f (start + j) := by
  simp only [consecutive, List.mem_map, List.mem_range, eq_comm]

end consecutive

end LibLisa.Lib.Ring
