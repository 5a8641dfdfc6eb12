import LibLisa.Lib.BitTree

/-!
# Decision trees along one path

`leafAt l t` is the answer that the bits of the list `l` already decide. Inserting cubes that no
extension of `l` matches keeps it (`leafAt_insert`). If a path leads to a leaf, then pruning along
it removes a node as long as anything but leaves hangs off the path (`numNodes_prune`).

A `Comb` has only leaves hanging off a path; inserting prefixes of the path with the last bit
flipped grows nothing else (`rootComb_insertAll`), so such trees stay small
(`numNodes_le_of_rootComb`).
-/

set_option linter.unusedSectionVars false

namespace LibLisa.Lib.BitTree

open BitString List

variable {α : Type} {t zero one next : BitTree α} {a : α} {s : BitString} {l : List Bool}

/-! ## Answers decided by a list of bits -/

/-- The leaf that the bits of the list lead to, if they reach one. -/
def leafAt : List Bool → BitTree α → Option α
  | _, leaf a => some a
  | [], _ => none
  | b :: l, branch zero one => leafAt l (if b then one else zero)
  | _ :: l, ignore next => leafAt l next

@[simp] lemma leafAt_leaf (l : List Bool) (a : α) : leafAt l (leaf a) = some a := by
  cases l <;> rfl

lemma walk_eq_of_leafAt : ∀ {l : List Bool} {t : BitTree α}, leafAt l t = some a →
    ∀ {u : BitString}, StartsWith l u → t.walk u = a
  | _, leaf e, h, u, _ => by simpa using h
  | [], branch _ _, h, _, _ => by cases h
  | [], ignore _, h, _, _ => by cases h
  | b :: l, branch zero one, h, u, hu => by
      have hwalk := walk_eq_of_leafAt (t := if b then one else zero) h hu.2
      rw [walk_branch, hu.1]
      cases b <;> exact hwalk
  | b :: l, ignore next, h, u, hu => walk_eq_of_leafAt (t := next) h hu.2

/-- A tree of more than `n` levels has a path of `n` bits to an inner node. -/
lemma exists_leafAt_eq_none : ∀ {n : ℕ} (t : BitTree α), n < t.height →
    ∃ l : List Bool, l.length = n ∧ leafAt l t = none
  | n, leaf _, h => absurd h n.not_lt_zero
  | 0, branch _ _, _ | 0, ignore _, _ => ⟨[], rfl, rfl⟩
  | n + 1, branch zero one, h => by
      obtain h | h := lt_max_iff.mp (Nat.lt_of_succ_lt_succ h)
      · obtain ⟨l, rfl, hl⟩ := exists_leafAt_eq_none zero h
        exact ⟨false :: l, rfl, hl⟩
      · obtain ⟨l, rfl, hl⟩ := exists_leafAt_eq_none one h
        exact ⟨true :: l, rfl, hl⟩
  | n + 1, ignore next, h => by
      obtain ⟨l, rfl, hl⟩ := exists_leafAt_eq_none next (Nat.lt_of_succ_lt_succ h)
      exact ⟨false :: l, rfl, hl⟩

/-- More bits lead to the same leaf. -/
lemma leafAt_append : ∀ {l : List Bool} {t : BitTree α}, leafAt l t = some a →
    ∀ m, leafAt (l ++ m) t = some a
  | l, leaf e, h, m => by simpa using h
  | [], branch _ _, h, _ => by cases h
  | [], ignore _, h, _ => by cases h
  | b :: l, branch zero one, h, m => leafAt_append (t := if b then one else zero) h m
  | b :: l, ignore next, h, m => leafAt_append (t := next) h m

lemma leafAt_branch (b : Bool) (l : List Bool) (zero one : BitTree α) :
    leafAt (b :: l) (branch zero one) = leafAt l (if b then one else zero) := rfl

section insert

variable [DecidableEq α] {e : α} {b : Bool} {cs : List Cube}

/-- Painting a cube that no extension of the list matches keeps the leaf that the list leads to. -/
lemma leafAt_paint : ∀ {l : List Bool} {c : Cube} {t : BitTree α},
    (∀ u, StartsWith l u → ¬ c.Matches u) → leafAt l t = some e →
    leafAt l (paint a c t) = some e
  | l, [], t, hdis, _ => absurd trivial (hdis _ (startsWith_pad l))
  | [], b :: c, leaf d, hdis, _ => by
      obtain ⟨u, hu⟩ := Cube.exists_matches (b :: c)
      exact absurd hu (hdis u trivial)
  | [], _ :: _, branch _ _, _, h => by cases h
  | [], _ :: _, ignore _, _, h => by cases h
  | v :: l, b :: c, t, hdis, h => by
      have hdis' : admits b v = true → ∀ u, StartsWith l u → ¬ Cube.Matches c u := fun hb u hu hc =>
        hdis (cons v u) ⟨rfl, hu⟩ ⟨hb, hc⟩
      have hfork : ∀ next : BitTree α, leafAt l next = some e →
          leafAt (v :: l) (fork b next (paint a c next)) = some e := by
        intro next hnext
        cases hb : admits b v with
        | true =>
          have hpaint := leafAt_paint (hdis' hb) hnext
          rcases b with _ | _ | _ <;> cases v <;> simp_all [fork, leafAt]
        | false => rcases b with _ | _ | _ <;> cases v <;> simp_all [fork, leafAt]
      cases t with
      | leaf d =>
        rw [paint]
        split
        · next hd => simpa [hd] using h
        · exact hfork (leaf d) (by simpa using h)
      | ignore next =>
        exact hfork next h
      | branch zero one =>
        rcases b with _ | _ | _
        · rw [paint]
          split
          · next hc =>
            rw [isEmpty_iff.mp hc] at hdis'
            exact absurd trivial (hdis' rfl _ (startsWith_pad l))
          · have hpaint := leafAt_paint (hdis' rfl) h
            cases v <;> exact hpaint
        · cases v with
          | false => exact leafAt_paint (t := zero) (hdis' rfl) h
          | true => exact h
        · cases v with
          | false => exact h
          | true => exact leafAt_paint (t := one) (hdis' rfl) h

lemma leafAt_join (h : leafAt (b :: l) (branch zero one) = some e) :
    leafAt (b :: l) (join zero one) = some e := by
  rcases join_cases zero one with ⟨d, rfl, rfl, hj⟩ | ⟨hsh, hj⟩ | ⟨-, -, hj⟩
  · rw [hj]
    cases b <;> simpa [leafAt] using h
  · rw [hj]
    rw [← eq_of_shallowEq hsh, leafAt_branch, ite_self] at h
    exact h
  · rw [hj]
    exact h

lemma leafAt_stepOver (h : leafAt l next = some e) : leafAt (b :: l) (stepOver next) = some e := by
  cases next with
  | leaf d => simpa [stepOver] using h
  | branch zero one => exact h
  | ignore next => exact h

/-- Collapsing only moves leaves up. -/
lemma leafAt_collapse : ∀ {l : List Bool} {c : Cube} {t : BitTree α},
    leafAt l t = some e → leafAt l (collapse c t) = some e
  | l, c, leaf d, h => by
      have hleaf : collapse c (leaf d) = leaf d := by cases c <;> rfl
      rw [hleaf]
      exact h
  | _, [], branch _ _, h => h
  | _, [], ignore _, h => h
  | [], _ :: _, branch _ _, h => by cases h
  | [], _ :: _, ignore _, h => by cases h
  | v :: l, b :: c, branch zero one, h => by
      rw [collapse]
      apply leafAt_join
      rw [leafAt_branch] at h ⊢
      cases v with
      | false =>
        have ih := leafAt_collapse (c := c) h
        cases hb : admits b false <;> simp_all
      | true =>
        have ih := leafAt_collapse (c := c) h
        cases hb : admits b true <;> simp_all
  | v :: l, b :: c, ignore next, h => leafAt_stepOver (leafAt_collapse h)

lemma leafAt_insert {c : Cube} (hl : l ≠ []) (hdis : ∀ u, StartsWith l u → ¬ c.Matches u)
    (h : leafAt l t = some e) : leafAt l (insert a c t) = some e := by
  rw [insert]
  split
  · exact h
  · have hcol := leafAt_collapse (c := c) (leafAt_paint (a := a) hdis h)
    obtain ⟨v, l, rfl⟩ := exists_cons_of_ne_nil hl
    generalize collapse c (paint a c t) = t' at hcol ⊢
    cases t' with
    | leaf d => simpa [settle, leafAt] using hcol
    | branch zero one => exact hcol
    | ignore next => exact hcol

lemma leafAt_insertAll (hl : l ≠ [])
    (hdis : ∀ c ∈ cs, ∀ u, StartsWith l u → ¬ Cube.Matches c u) (h : leafAt l t = some e) :
    leafAt l (insertAll a cs t) = some e := by
  induction cs generalizing t with
  | nil => exact h
  | cons c cs ih =>
    exact ih (fun d hd => hdis d (by simp [hd])) (leafAt_insert hl (hdis c (by simp)) h)

/-! ## Combs -/

/-- Only leaves hang off the path. -/
def Comb : List Bool → BitTree α → Prop
  | _, leaf _ => True
  | [], _ => False
  | b :: l, branch zero one =>
    (if b then zero else one).isLeaf = true ∧ Comb l (if b then one else zero)
  | _ :: _, ignore _ => False

@[simp] lemma comb_leaf (l : List Bool) (e : α) : Comb l (leaf e) := by
  cases l <;> trivial

lemma numNodes_le_of_comb : ∀ {l : List Bool} {t : BitTree α}, Comb l t → t.numNodes ≤ l.length
  | _, leaf _, _ => Nat.zero_le _
  | [], branch _ _, h => absurd h id
  | [], ignore _, h => absurd h id
  | _ :: _, ignore _, h => absurd h id
  | b :: l, branch zero one, ⟨hoff, h⟩ => by
      have ih := numNodes_le_of_comb h
      have hzero : ∀ t : BitTree α, t.isLeaf = true → t.numNodes = 0 := by
        intro t ht
        cases t <;> simp_all [isLeaf, numNodes]
      cases b with
      | false =>
        have := hzero one hoff
        simp only [numNodes, length_cons, Bool.false_eq_true, if_false] at ih ⊢
        omega
      | true =>
        have := hzero zero hoff
        simp only [numNodes, length_cons, if_true] at ih ⊢
        omega

/-- A prefix of the path with its last bit flipped hangs a leaf off the comb. -/
lemma comb_paint : ∀ {l : List Bool} {t : BitTree α} {p : ℕ} (h : p < l.length), Comb l t →
    Comb l (paint a ((l.take p ++ [!l[p]]).map some) t)
  | b :: l, t, 0, _, ht => by
      cases t with
      | leaf e =>
        by_cases he : e = a
        · simp [he]
        · cases b <;> simp [paint, he, fork, Comb, isLeaf]
      | branch zero one =>
        obtain ⟨-, h⟩ := ht
        cases b <;> simp_all [paint, Comb, isLeaf]
      | ignore next => exact absurd ht id
  | b :: l, t, p + 1, hp, ht => by
      have hp' : p < l.length := by simpa using hp
      have ih : ∀ {t : BitTree α}, Comb l t →
          Comb l (paint a ((l.take p ++ [!l[p]]).map some) t) := fun ht => comb_paint hp' ht
      rw [take_succ_cons, getElem_cons_succ, cons_append, map_cons]
      cases t with
      | leaf e =>
        by_cases he : e = a
        · simp [paint, he]
        · have hnext := ih (comb_leaf l e)
          cases b <;> simp_all [paint, fork, Comb, isLeaf]
      | branch zero one =>
        obtain ⟨hoff, h⟩ := ht
        have hnext := ih h
        cases b <;> simp_all [paint, Comb]
      | ignore next => exact absurd ht id

lemma comb_join (hoff : (if b then zero else one).isLeaf = true)
    (h : Comb l (if b then one else zero)) : Comb (b :: l) (join zero one) := by
  rcases join_cases zero one with ⟨d, -, -, hj⟩ | ⟨hsh, -⟩ | ⟨-, -, hj⟩
  · rw [hj]
    exact comb_leaf _ d
  · have hzero := not_isLeaf_of_shallowEq hsh
    rw [← eq_of_shallowEq hsh, ite_self, hzero] at hoff
    cases hoff
  · rw [hj]
    exact ⟨hoff, h⟩

lemma comb_collapse : ∀ {l : List Bool} {c : Cube} {t : BitTree α}, Comb l t →
    Comb l (collapse c t)
  | l, c, leaf e, _ => by
      have hleaf : collapse c (leaf e) = leaf e := by cases c <;> rfl
      rw [hleaf]
      exact comb_leaf l e
  | _, [], branch _ _, h => h
  | _, [], ignore _, h => h
  | [], _ :: _, branch _ _, h => absurd h id
  | [], _ :: _, ignore _, h => absurd h id
  | _ :: _, _ :: _, ignore _, h => absurd h id
  | v :: l, b :: c, branch zero one, ⟨hoff, h⟩ => by
      have hcol : ∀ t : BitTree α, t.isLeaf = true → collapse c t = t := by
        intro t ht
        cases t with
        | leaf e => cases c <;> rfl
        | branch zero one => cases ht
        | ignore next => cases ht
      have ih := comb_collapse (c := c) h
      apply comb_join <;> cases v <;>
        cases h0 : admits b false <;> cases h1 : admits b true <;> simp_all

/-- The trees that grow from one answer by inserting flipped prefixes of one path. -/
def RootComb (l : List Bool) (t : BitTree α) : Prop := Comb l t ∨ ∃ e, t = ignore (leaf e)

lemma rootComb_insert {p : ℕ} (hp : p < l.length) (h : RootComb l t) :
    RootComb l (insert a ((l.take p ++ [!l[p]]).map some) t) := by
  have hpaint : ∀ t : BitTree α, Comb l t →
      RootComb l (settle (collapse ((l.take p ++ [!l[p]]).map some)
        (paint a ((l.take p ++ [!l[p]]).map some) t))) := by
    intro t ht
    have hcol := comb_collapse (c := (l.take p ++ [!l[p]]).map some) (comb_paint (a := a) hp ht)
    revert hcol
    generalize collapse _ (paint a _ t) = t'
    intro hcol
    cases t' with
    | leaf e => exact Or.inr ⟨e, rfl⟩
    | branch zero one => exact Or.inl hcol
    | ignore next => exact Or.inl hcol
  rw [insert]
  split
  · exact h
  · next hne =>
    obtain h | ⟨e, rfl⟩ := h
    · exact hpaint t h
    · obtain ⟨b, c, hbc⟩ : ∃ b c, (l.take p ++ [!l[p]]).map some = b :: c :=
        exists_cons_of_ne_nil (by simp : (l.take p ++ [!l[p]]).map some ≠ [])
      by_cases he : e = a
      · -- both sides of the root get the answer that is there already
        refine Or.inr ⟨e, ?_⟩
        rw [hbc, paint_ignore, ← he]
        rcases b with _ | _ | _ <;> simp [fork, collapse, join, stepOver, settle]
      · have hleaf := hpaint (leaf e) (comb_leaf l e)
        rw [hbc] at hleaf ⊢
        rwa [paint_leaf_of_ne he] at hleaf

lemma rootComb_insertAll
    (hcs : ∀ c ∈ cs, ∃ p, ∃ h : p < l.length, c = (l.take p ++ [!l[p]]).map some)
    (h : RootComb l t) : RootComb l (insertAll a cs t) := by
  induction cs generalizing t with
  | nil => exact h
  | cons c cs ih =>
    obtain ⟨p, hp, rfl⟩ := hcs c (by simp)
    exact ih (fun d hd => hcs d (by simp [hd])) (rootComb_insert hp h)

lemma numNodes_le_of_rootComb (h : RootComb l t) : t.numNodes ≤ l.length + 1 := by
  obtain h | ⟨e, rfl⟩ := h
  · exact (numNodes_le_of_comb h).trans (Nat.le_succ _)
  · simp [numNodes]

end insert

/-! ## Pruning along a list -/

/-- The number of inner nodes that no pruning along the path removes: those on the path and those
below its end. -/
def keptNodes : List Bool → BitTree α → ℕ
  | _, leaf _ => 0
  | [], t => t.numNodes
  | b :: p, branch zero one => keptNodes p (if b then one else zero) + 1
  | _ :: p, ignore next => keptNodes p next + 1

lemma keptNodes_nil (t : BitTree α) : keptNodes [] t = t.numNodes := by
  cases t <;> rfl

lemma keptNodes_fork (b : Bool) (p : List Bool) (next other : BitTree α) :
    keptNodes (b :: p) (fork (some b) other next) = keptNodes p next + 1 := by
  cases b <;> rfl

lemma keptNodes_prune (p : List Bool) : keptNodes p (prune a p t) = keptNodes p t := by
  induction p generalizing t with
  | nil => cases t <;> rfl
  | cons b p ih =>
    cases t with
    | leaf d => rfl
    | ignore next => simp only [prune_ignore, keptNodes, ih]
    | branch zero one =>
      obtain ⟨next, other, heq⟩ := exists_eq_fork b zero one
      rw [heq, prune_fork]
      split <;> simp only [keptNodes_fork, ih]

lemma keptNodes_le_length {p : List Bool} (h : leafAt p t ≠ none) : keptNodes p t ≤ p.length := by
  induction p generalizing t with
  | nil =>
    cases t with
    | leaf d => exact le_rfl
    | branch zero one => exact absurd rfl h
    | ignore next => exact absurd rfl h
  | cons b p ih =>
    cases t with
    | leaf d => exact Nat.zero_le _
    | ignore next => exact Nat.succ_le_succ (ih h)
    | branch zero one => exact Nat.succ_le_succ (ih h)

lemma keptNodes_le_numNodes (p : List Bool) : keptNodes p t ≤ t.numNodes := by
  induction p generalizing t with
  | nil => rw [keptNodes_nil]
  | cons b p ih =>
    cases t with
    | leaf d => exact le_rfl
    | ignore next => exact Nat.succ_le_succ ih
    | branch zero one =>
      obtain ⟨next, other, heq⟩ := exists_eq_fork b zero one
      have hchild := ih (t := next)
      rw [heq, keptNodes_fork, numNodes_fork_some]
      omega

/-- Pruning along a path removes a node unless there is nothing off the path to remove. -/
theorem numNodes_prune (p : List Bool) :
    (prune a p t).numNodes < t.numNodes ∨ t.numNodes = keptNodes p t := by
  have hleaf : ∀ t : BitTree α, t.isLeaf = true → t.numNodes = 0 := by
    intro t ht
    cases t <;> simp_all [isLeaf, numNodes]
  induction p generalizing t with
  | nil => exact Or.inr (keptNodes_nil t).symm
  | cons b p ih =>
    cases t with
    | leaf d => exact Or.inr rfl
    | ignore next =>
      have := ih (t := next)
      simp only [prune_ignore, numNodes, keptNodes]
      omega
    | branch zero one =>
      obtain ⟨next, other, heq⟩ := exists_eq_fork b zero one
      have hchild := ih (t := next)
      rw [heq, prune_fork, keptNodes_fork]
      split
      · next hother =>
        have := hleaf other hother
        simp only [numNodes_fork_some]
        omega
      · next hother =>
        have := numNodes_pos (Bool.eq_false_iff.mpr hother)
        simp only [numNodes_fork_some, numNodes]
        omega

end LibLisa.Lib.BitTree
