import LibLisa.Lib.BitString

/-!
# Decision trees over bit strings

* `BitTree α` reads a bit string from the left: a `branch` looks at the next bit, an `ignore`
  steps over it, a `leaf` answers. `walk t s` is the answer for the string `s`.
* `paint a c t` gives the answer `a` to every string that the cube `c` matches and leaves all
  other answers alone (`walk_paint`).
* `collapse c t` merges, bottom-up along the paths that `c` admits, branches whose two sides are
  visibly the same; it changes no answer (`walk_collapse`).
* `insert a c t` paints, and collapses if the painting changed something; it adds the strings that
  `c` matches to those answered with `a` (`walk_insert_eq_iff`).
* `Normal t` says that no inner node answers alike on both sides at once; painting a normal tree
  and collapsing it along the same cube gives a normal tree (`normal_collapse_paint`,
  `rootNormal_insert`). A normal inner node gives two different answers (`exists_walk_ne_of_normal`).
* `prune a p t` replaces the first inner node that hangs off the path `p` by a leaf.
* `numNodes` counts inner nodes. A tree that tells all `2 ^ n` initial segments of length `n`
  apart has at least `2 ^ n - 1` of them (`two_pow_le_numNodes`).
-/

set_option linter.unusedSectionVars false

namespace LibLisa.Lib

open List

/-- A decision tree that reads a bit string from the left. -/
inductive BitTree (α : Type) where
  /-- The answer, whatever bits follow. -/
  | leaf (a : α)
  /-- The next bit decides. -/
  | branch (zero one : BitTree α)
  /-- The next bit does not matter. -/
  | ignore (next : BitTree α)
deriving DecidableEq, Repr

namespace BitTree

variable {α : Type} {zero one : BitTree α} {fuel : ℕ}

/-- The answer of the tree for a bit string. -/
def walk : BitTree α → BitString → α
  | leaf a, _ => a
  | branch zero one, s => if s.bit 0 then walk one s.tail else walk zero s.tail
  | ignore next, s => walk next s.tail

/-- The number of inner nodes. -/
def numNodes : BitTree α → ℕ
  | leaf _ => 0
  | branch zero one => zero.numNodes + one.numNodes + 1
  | ignore next => next.numNodes + 1

/-- The length of the longest path. -/
def height : BitTree α → ℕ
  | leaf _ => 0
  | branch zero one => max zero.height one.height + 1
  | ignore next => next.height + 1

/-- The tree is a single leaf. -/
def isLeaf : BitTree α → Bool
  | leaf _ => true
  | _ => false

@[simp] lemma walk_leaf (a : α) (s : BitString) : (leaf a).walk s = a := rfl

lemma walk_branch (zero one : BitTree α) (s : BitString) :
    (branch zero one).walk s = if s.bit 0 then one.walk s.tail else zero.walk s.tail := rfl

@[simp] lemma walk_ignore (next : BitTree α) (s : BitString) :
    (ignore next).walk s = next.walk s.tail := rfl

@[simp] lemma walk_branch_cons (zero one : BitTree α) (b : Bool) (s : BitString) :
    (branch zero one).walk (.cons b s) = if b then one.walk s else zero.walk s := rfl

/-- An inner node counts itself. -/
lemma numNodes_pos {t : BitTree α} (h : t.isLeaf = false) : 0 < t.numNodes := by
  rcases t with a | ⟨zero, one⟩ | next
  · cases h
  · exact Nat.succ_pos _
  · exact Nat.succ_pos _

/-- A counter that covers a node covers its children with one step less. -/
lemma exists_fuel_branch (h : (branch zero one).height ≤ fuel) :
    ∃ n, fuel = n + 1 ∧ zero.height ≤ n ∧ one.height ≤ n := by
  simp only [height] at h
  exact ⟨fuel - 1, by omega, by omega, by omega⟩

lemma exists_fuel_ignore {next : BitTree α} (h : (ignore next).height ≤ fuel) :
    ∃ n, fuel = n + 1 ∧ next.height ≤ n :=
  ⟨fuel - 1, (Nat.sub_add_cancel (Nat.one_le_of_lt h)).symm, Nat.le_sub_one_of_lt h⟩

lemma height_le_numNodes (t : BitTree α) : t.height ≤ t.numNodes := by
  induction t with
  | leaf a => exact le_rfl
  | branch zero one ih0 ih1 =>
    simp only [height, numNodes]
    omega
  | ignore next ih => exact Nat.succ_le_succ ih

/-! ## Painting a cube -/

/-- What becomes of an `ignore` node over `next` when the strings that `b` admits are sent to
`painted`. -/
def fork (b : Option Bool) (next painted : BitTree α) : BitTree α :=
  match b with
  | none => ignore painted
  | some false => branch painted next
  | some true => branch next painted

lemma walk_fork (b : Option Bool) (next painted : BitTree α) (s : BitString) :
    (fork b next painted).walk s =
      if admits b (s.bit 0) then painted.walk s.tail else next.walk s.tail := by
  rcases b with _ | _ | _ <;> cases h : s.bit 0 <;> simp [fork, walk_branch, h]

/-- A branch has a child on the side of a bit and one on the other side. -/
lemma exists_eq_fork (b : Bool) (zero one : BitTree α) :
    ∃ next other, branch zero one = fork (some b) other next := by
  cases b
  · exact ⟨zero, one, rfl⟩
  · exact ⟨one, zero, rfl⟩

lemma height_fork_some (b : Bool) (next painted : BitTree α) :
    (fork (some b) next painted).height = max next.height painted.height + 1 := by
  cases b
  · exact congrArg (· + 1) (max_comm _ _)
  · rfl

lemma numNodes_fork_some (b : Bool) (next painted : BitTree α) :
    (fork (some b) next painted).numNodes = next.numNodes + painted.numNodes + 1 := by
  cases b
  · exact congrArg (· + 1) (Nat.add_comm _ _)
  · rfl

lemma height_fork_le (b : Option Bool) (next painted : BitTree α) :
    (fork b next painted).height ≤ max next.height painted.height + 1 := by
  rcases b with _ | _ | _ <;> simp only [fork, height] <;> omega

section paint

variable [DecidableEq α]

/-- Gives the answer `a` to every string that the cube matches. A leaf is split only where it
answers differently. -/
def paint (a : α) : Cube → BitTree α → BitTree α
  | [], _ => leaf a
  | b :: c, leaf e => if e = a then leaf a else fork b (leaf e) (paint a c (leaf e))
  | b :: c, ignore next => fork b next (paint a c next)
  | some false :: c, branch zero one => branch (paint a c zero) one
  | some true :: c, branch zero one => branch zero (paint a c one)
  | none :: c, branch zero one =>
    if c.isEmpty then ignore (leaf a) else branch (paint a c zero) (paint a c one)

lemma paint_fork (a : α) (b : Bool) (c : Cube) (next other : BitTree α) :
    paint a (some b :: c) (fork (some b) other next) = fork (some b) other (paint a c next) := by
  cases b <;> rfl

@[simp] lemma paint_nil (a : α) (t : BitTree α) : paint a [] t = leaf a := by
  cases t <;> rfl

@[simp] lemma paint_leaf_self (a : α) (c : Cube) : paint a c (leaf a) = leaf a := by
  cases c with
  | nil => rfl
  | cons b c => simp [paint]

lemma paint_ignore (a : α) (b : Option Bool) (c : Cube) (next : BitTree α) :
    paint a (b :: c) (ignore next) = fork b next (paint a c next) := by
  rcases b with _ | _ | _ <;> rfl

variable {a : α}

lemma paint_leaf_of_ne {e : α} (h : e ≠ a) (b : Option Bool) (c : Cube) :
    paint a (b :: c) (leaf e) = paint a (b :: c) (ignore (leaf e)) := by
  simp [paint, h]

open Classical in
/-- Strings that the cube matches get the painted answer, and all others keep theirs. -/
theorem walk_paint (a : α) : ∀ (c : Cube) (t : BitTree α) (s : BitString),
    (paint a c t).walk s = if c.Matches s then a else t.walk s
  | [], t, s => by simp
  | b :: c, leaf e, s => by
      by_cases he : e = a
      · simp [paint, he]
      · simp [paint, he, walk_fork, walk_paint a c, Cube.matches_cons, ite_and]
  | b :: c, ignore next, s => by
      simp [paint_ignore, walk_fork, walk_paint a c, Cube.matches_cons, ite_and]
  | some b :: c, branch zero one, s => by
      obtain ⟨next, other, heq⟩ := exists_eq_fork b zero one
      simp only [heq, paint_fork, walk_fork, walk_paint a c, Cube.matches_cons, ite_and]
      split_ifs <;> rfl
  | none :: c, branch zero one, s => by
      by_cases hc : c.isEmpty
      · simp [paint, isEmpty_iff.mp hc]
      · simp only [paint, hc, Bool.false_eq_true, if_false, walk_branch, walk_paint a c,
          Cube.matches_cons]
        split_ifs <;> simp_all

lemma walk_paint_eq_iff (a : α) (c : Cube) (t : BitTree α) (s : BitString) :
    (paint a c t).walk s = a ↔ c.Matches s ∨ t.walk s = a := by
  rw [walk_paint]
  split_ifs with h <;> simp [h]

variable {t : BitTree α}

/-- Painting a tree that never answers `a` changes it. -/
lemma paint_ne_self (h : ∀ s, t.walk s ≠ a) (c : Cube) : paint a c t ≠ t := by
  intro heq
  obtain ⟨s, hs⟩ := c.exists_matches
  have hwalk := (walk_paint_eq_iff a c t s).mpr (Or.inl hs)
  rw [heq] at hwalk
  exact h s hwalk

/-- Painting does not look deeper than the cube or the tree. -/
lemma height_paint_le (a : α) :
    ∀ (c : Cube) (t : BitTree α), (paint a c t).height ≤ max t.height c.length
  | [], t => by simp [height]
  | b :: c, leaf e => by
      by_cases he : e = a
      · simp [paint, he, height]
      · have ih := height_paint_le a c (leaf e)
        have hf := height_fork_le b (leaf e) (paint a c (leaf e))
        simp only [paint, he, if_false, height, length_cons] at ih hf ⊢
        omega
  | b :: c, ignore next => by
      have ih := height_paint_le a c next
      have hf := height_fork_le b next (paint a c next)
      simp only [paint_ignore, height, length_cons] at ih hf ⊢
      omega
  | some b :: c, branch zero one => by
      obtain ⟨next, other, heq⟩ := exists_eq_fork b zero one
      have ih := height_paint_le a c next
      rw [heq, paint_fork, height_fork_some, height_fork_some, length_cons]
      omega
  | none :: c, branch zero one => by
      have ih0 := height_paint_le a c zero
      have ih1 := height_paint_le a c one
      by_cases hc : c.isEmpty
      · simp [paint, hc, height]
      · simp only [paint, hc, height, length_cons, Bool.false_eq_true, if_false] at ih0 ih1 ⊢
        omega

/-! ## Collapsing along a cube -/

/-- Two inner nodes that look the same without following their children: same kind, and all
children are leaves with the same answers. -/
def shallowEq : BitTree α → BitTree α → Bool
  | branch (leaf a) (leaf b), branch (leaf c) (leaf d) => a = c ∧ b = d
  | ignore (leaf a), ignore (leaf b) => a = b
  | _, _ => false

/-- A branch over `zero` and `one`, merged when the two are visibly the same. -/
def join : BitTree α → BitTree α → BitTree α
  | leaf a, leaf b => if a = b then leaf a else branch (leaf a) (leaf b)
  | zero, one => if shallowEq zero one then ignore zero else branch zero one

/-- An `ignore` over `next`, dropped over a leaf. -/
def stepOver : BitTree α → BitTree α
  | leaf a => leaf a
  | next => ignore next

/-- Merges visibly equal branches, bottom-up along the paths that the cube admits. -/
def collapse : Cube → BitTree α → BitTree α
  | _, leaf a => leaf a
  | [], t => t
  | b :: c, branch zero one =>
    join (if admits b false then collapse c zero else zero)
      (if admits b true then collapse c one else one)
  | _ :: c, ignore next => stepOver (collapse c next)

lemma shallowEq_branch_iff {t0 t1 u0 u1 : BitTree α} :
    shallowEq (branch t0 t1) (branch u0 u1) = true ↔
      (∃ a, t0 = leaf a ∧ u0 = leaf a) ∧ ∃ b, t1 = leaf b ∧ u1 = leaf b := by
  constructor
  · intro h
    cases t0 <;> cases t1 <;> cases u0 <;> cases u1 <;> simp_all [shallowEq]
  · rintro ⟨⟨a, rfl, rfl⟩, b, rfl, rfl⟩
    simp [shallowEq]

variable {u : BitTree α}

lemma shallowEq_ignore_iff :
    shallowEq (ignore t) (ignore u) = true ↔ ∃ a, t = leaf a ∧ u = leaf a := by
  constructor
  · intro h
    cases t <;> cases u <;> simp_all [shallowEq]
  · rintro ⟨a, rfl, rfl⟩
    simp [shallowEq]

lemma eq_of_shallowEq (h : shallowEq t u = true) : t = u := by
  unfold shallowEq at h
  split at h <;> simp_all

lemma not_isLeaf_of_shallowEq (h : shallowEq t u = true) : t.isLeaf = false := by
  unfold shallowEq at h
  split at h <;> simp_all [isLeaf]

/-- What `join` can produce: a leaf when both sides are that leaf, an `ignore` when both sides
are the same inner node, and otherwise the branch. -/
lemma join_cases (zero one : BitTree α) :
    (∃ a, zero = leaf a ∧ one = leaf a ∧ join zero one = leaf a) ∨
    (shallowEq zero one = true ∧ join zero one = ignore zero) ∨
    ((∀ a, zero = leaf a → one ≠ leaf a) ∧ shallowEq zero one = false ∧
      join zero one = branch zero one) := by
  by_cases hsh : shallowEq zero one = true
  · have hleaf := not_isLeaf_of_shallowEq hsh
    cases zero <;> cases one <;> simp_all [join, isLeaf]
  · rw [Bool.not_eq_true] at hsh
    cases zero with
    | leaf a =>
      cases one with
      | leaf b =>
        by_cases hab : a = b
        · exact Or.inl ⟨a, rfl, by rw [hab], by simp [join, hab]⟩
        · refine Or.inr (Or.inr ⟨fun x hx hy => hab ?_, hsh, by simp [join, hab]⟩)
          simp only [leaf.injEq] at hx hy
          rw [hx, hy]
      | branch zero one => exact Or.inr (Or.inr ⟨by simp, hsh, by simp [join, hsh]⟩)
      | ignore next => exact Or.inr (Or.inr ⟨by simp, hsh, by simp [join, hsh]⟩)
    | branch zero one => exact Or.inr (Or.inr ⟨by simp, hsh, by simp [join, hsh]⟩)
    | ignore next => exact Or.inr (Or.inr ⟨by simp, hsh, by simp [join, hsh]⟩)

lemma walk_join (zero one : BitTree α) (s : BitString) :
    (join zero one).walk s = (branch zero one).walk s := by
  rcases join_cases zero one with ⟨a, rfl, rfl, h⟩ | ⟨hsh, h⟩ | ⟨-, -, h⟩
  · simp [h, walk_branch]
  · rw [h, ← eq_of_shallowEq hsh]
    simp [walk_branch]
  · rw [h]

lemma stepOver_of_not_isLeaf (h : t.isLeaf = false) : stepOver t = ignore t := by
  cases t <;> simp_all [stepOver, isLeaf]

lemma walk_stepOver (next : BitTree α) (s : BitString) :
    (stepOver next).walk s = next.walk s.tail := by
  cases next <;> rfl

/-- Collapsing changes no answer. -/
theorem walk_collapse :
    ∀ (c : Cube) (t : BitTree α) (s : BitString), (collapse c t).walk s = t.walk s
  | c, leaf a, s => by cases c <;> rfl
  | [], branch zero one, s => rfl
  | [], ignore next, s => rfl
  | b :: c, branch zero one, s => by
      rw [collapse, walk_join, walk_branch, walk_branch]
      congr 1
      · split
        · exact walk_collapse c one s.tail
        · rfl
      · split
        · exact walk_collapse c zero s.tail
        · rfl
  | b :: c, ignore next, s => by
      rw [collapse, walk_stepOver, walk_collapse c next s.tail, walk_ignore]

lemma height_join_le (zero one : BitTree α) :
    (join zero one).height ≤ max zero.height one.height + 1 := by
  rcases join_cases zero one with ⟨a, -, -, h⟩ | ⟨-, h⟩ | ⟨-, -, h⟩ <;>
    simp only [h, height] <;> omega

lemma height_stepOver_le (next : BitTree α) : (stepOver next).height ≤ next.height + 1 := by
  cases next <;> simp [stepOver, height]

/-- Collapsing does not deepen the tree. -/
lemma height_collapse_le : ∀ (c : Cube) (t : BitTree α), (collapse c t).height ≤ t.height
  | c, leaf a => by cases c <;> exact le_rfl
  | [], branch zero one => le_rfl
  | [], ignore next => le_rfl
  | b :: c, branch zero one => by
      have h0 := height_collapse_le c zero
      have h1 := height_collapse_le c one
      refine (height_join_le _ _).trans ?_
      simp only [height]
      split_ifs <;> omega
  | b :: c, ignore next => by
      have ih := height_collapse_le c next
      refine (height_stepOver_le _).trans ?_
      simp only [height]
      omega

/-- Following the cube, the tree ends no later than the cube does. -/
def Fits : Cube → BitTree α → Prop
  | _, leaf _ => True
  | [], _ => False
  | b :: c, branch zero one =>
    (admits b false = true → Fits c zero) ∧ (admits b true = true → Fits c one)
  | _ :: c, ignore next => Fits c next

@[simp] lemma fits_leaf (c : Cube) (a : α) : Fits c (leaf a) := by
  cases c <;> trivial

variable {next : BitTree α} {painted : BitTree α} {b : Option Bool}

lemma fits_fork {c : Cube} (h : Fits c painted) : Fits (b :: c) (fork b next painted) := by
  rcases b with _ | _ | _ <;> simp [fork, Fits, h]

/-- A painted tree fits the cube it was painted with. -/
lemma fits_paint (a : α) : ∀ (c : Cube) (t : BitTree α), Fits c (paint a c t)
  | [], t => by simp
  | b :: c, leaf e => by
      by_cases he : e = a
      · simp [paint, he]
      · simp only [paint, he, if_false]
        exact fits_fork (fits_paint a c (leaf e))
  | b :: c, ignore next => by
      rw [paint_ignore]
      exact fits_fork (fits_paint a c next)
  | some false :: c, branch zero one => by simp [paint, Fits, fits_paint a c zero]
  | some true :: c, branch zero one => by simp [paint, Fits, fits_paint a c one]
  | none :: c, branch zero one => by
      by_cases hc : c.isEmpty
      · simp [paint, hc, Fits]
      · simp [paint, hc, Fits, fits_paint a c zero, fits_paint a c one]

lemma fits_append : ∀ (c d : Cube) (t : BitTree α), Fits c t → Fits (c ++ d) t
  | _, _, leaf a, _ => fits_leaf _ a
  | [], _, branch _ _, h => absurd h id
  | [], _, ignore _, h => absurd h id
  | _ :: c, d, branch zero one, h =>
      ⟨fun hb => fits_append c d zero (h.1 hb), fun hb => fits_append c d one (h.2 hb)⟩
  | _ :: c, d, ignore next, h => fits_append c d next h

/-- On a tree that fits it, a longer cube collapses the same nodes. -/
lemma collapse_append :
    ∀ (c d : Cube) (t : BitTree α), Fits c t → collapse (c ++ d) t = collapse c t
  | c, d, leaf a, _ => by cases c <;> cases d <;> rfl
  | [], d, branch zero one, h => absurd h id
  | [], d, ignore next, h => absurd h id
  | b :: c, d, branch zero one, h => by
      simp only [cons_append, collapse]
      congr 1
      · split
        · next hb => exact collapse_append c d zero (h.1 hb)
        · rfl
      · split
        · next hb => exact collapse_append c d one (h.2 hb)
        · rfl
  | b :: c, d, ignore next, h => by
      simp only [cons_append, collapse, collapse_append c d next h]

/-- A leaf under an `ignore`, so that the tree is an inner node; other trees as they are. -/
def settle : BitTree α → BitTree α
  | leaf a => ignore (leaf a)
  | t => t

/-- Paints a cube and, if that changed the tree, collapses along the cube. -/
def insert (a : α) (c : Cube) (t : BitTree α) : BitTree α :=
  if paint a c t = t then t else settle (collapse c (paint a c t))

lemma walk_settle (t : BitTree α) (s : BitString) : (settle t).walk s = t.walk s := by
  cases t <;> rfl

/-- Inserting a cube adds what the cube matches to the strings answered with `a`. -/
theorem walk_insert_eq_iff (a : α) (c : Cube) (t : BitTree α) (s : BitString) :
    (insert a c t).walk s = a ↔ c.Matches s ∨ t.walk s = a := by
  rw [← walk_paint_eq_iff, insert]
  split
  · next h => rw [h]
  · rw [walk_settle, walk_collapse]

/-- Inserts cubes one after the other. -/
def insertAll (a : α) (cs : List Cube) (t : BitTree α) : BitTree α :=
  cs.foldl (fun t c => insert a c t) t

lemma insertAll_append (a : α) (cs ds : List Cube) (t : BitTree α) :
    insertAll a (cs ++ ds) t = insertAll a ds (insertAll a cs t) := foldl_append

lemma walk_insertAll_eq_iff (a : α) (cs : List Cube) (t : BitTree α) (s : BitString) :
    (insertAll a cs t).walk s = a ↔ (∃ c ∈ cs, Cube.Matches c s) ∨ t.walk s = a := by
  induction cs generalizing t with
  | nil => simp [insertAll]
  | cons c cs ih =>
    rw [insertAll, foldl_cons, ← insertAll, ih, walk_insert_eq_iff]
    simp only [mem_cons, exists_eq_or_imp, or_assoc]
    exact or_left_comm

lemma height_settle_le (t : BitTree α) : (settle t).height ≤ max t.height 1 := by
  cases t <;> simp [settle, height]

lemma height_insert_le (a : α) (c : Cube) (t : BitTree α) :
    (insert a c t).height ≤ max (max t.height c.length) 1 := by
  rw [insert]
  split
  · omega
  · have h1 := height_settle_le (collapse c (paint a c t))
    have h2 := height_collapse_le c (paint a c t)
    have h3 := height_paint_le a c t
    omega

lemma height_insertAll_le {cs : List Cube} {n : ℕ} (hn : 1 ≤ n) (hcs : ∀ c ∈ cs, c.length ≤ n)
    (ht : t.height ≤ n) : (insertAll a cs t).height ≤ n := by
  induction cs generalizing t with
  | nil => exact ht
  | cons c cs ih =>
    refine ih (fun d hd => hcs d (by simp [hd])) ((height_insert_le a c t).trans ?_)
    exact max_le (max_le ht (hcs c (by simp))) hn

/-! ## Normal trees -/

/-- No `branch` has the same leaf on both sides and no `ignore` stands over a leaf. -/
def Normal : BitTree α → Prop
  | leaf _ => True
  | branch zero one => (∀ a, zero = leaf a → one ≠ leaf a) ∧ zero.Normal ∧ one.Normal
  | ignore next => next.isLeaf = false ∧ next.Normal

/-- The subtrees below the root are normal. -/
def ChildrenNormal : BitTree α → Prop
  | leaf _ => True
  | branch zero one => zero.Normal ∧ one.Normal
  | ignore next => next.Normal

/-- Normal except on the paths that the cube admits. -/
def NormalOff : Cube → BitTree α → Prop
  | _, leaf _ => True
  | [], t => t.Normal
  | b :: c, branch zero one =>
    (if admits b false then NormalOff c zero else zero.Normal) ∧
      (if admits b true then NormalOff c one else one.Normal)
  | _ :: c, ignore next => NormalOff c next

@[simp] lemma normal_leaf (a : α) : (leaf a).Normal := trivial

@[simp] lemma normalOff_leaf (c : Cube) (a : α) : NormalOff c (leaf a) := by
  cases c <;> trivial

lemma Normal.childrenNormal (h : t.Normal) : t.ChildrenNormal := by
  cases t with
  | leaf a => trivial
  | branch zero one => exact h.2
  | ignore next => exact h.2

lemma normalOff_fork {c : Cube} (hn : next.Normal) (hp : NormalOff c painted) :
    NormalOff (b :: c) (fork b next painted) := by
  rcases b with _ | _ | _ <;> simp [fork, NormalOff, hn, hp]

/-- Painting a tree with normal subtrees disturbs only the painted paths. -/
lemma normalOff_paint (a : α) :
    ∀ (c : Cube) (t : BitTree α), t.ChildrenNormal → NormalOff c (paint a c t)
  | [], t, _ => by simp
  | b :: c, leaf e, _ => by
      by_cases he : e = a
      · simp [paint, he]
      · simp only [paint, he, if_false]
        exact normalOff_fork trivial (normalOff_paint a c (leaf e) trivial)
  | b :: c, ignore next, h => by
      rw [paint_ignore]
      exact normalOff_fork h (normalOff_paint a c next h.childrenNormal)
  | some false :: c, branch zero one, h => by
      simp [paint, NormalOff, h.2, normalOff_paint a c zero h.1.childrenNormal]
  | some true :: c, branch zero one, h => by
      simp [paint, NormalOff, h.1, normalOff_paint a c one h.2.childrenNormal]
  | none :: c, branch zero one, h => by
      by_cases hc : c.isEmpty
      · simp [paint, hc, NormalOff]
      · simp [paint, hc, NormalOff, normalOff_paint a c zero h.1.childrenNormal,
          normalOff_paint a c one h.2.childrenNormal]

lemma normal_join (h0 : zero.Normal) (h1 : one.Normal) : (join zero one).Normal := by
  rcases join_cases zero one with ⟨a, -, -, h⟩ | ⟨hsh, h⟩ | ⟨hne, -, h⟩
  · rw [h]
    trivial
  · rw [h]
    exact ⟨not_isLeaf_of_shallowEq hsh, h0⟩
  · rw [h]
    exact ⟨hne, h0, h1⟩

lemma normal_stepOver (h : next.Normal) : (stepOver next).Normal := by
  cases next with
  | leaf a => trivial
  | branch zero one => exact ⟨rfl, h⟩
  | ignore next => exact ⟨rfl, h⟩

/-- Collapsing along a cube repairs what painting that cube disturbed. -/
lemma normal_collapse : ∀ (c : Cube) (t : BitTree α), NormalOff c t → (collapse c t).Normal
  | c, leaf a, _ => by cases c <;> trivial
  | [], branch zero one, h => h
  | [], ignore next, h => h
  | b :: c, branch zero one, h => by
      refine normal_join ?_ ?_
      · by_cases hb : admits b false = true
        · simpa [hb] using normal_collapse c zero (by simpa [hb] using h.1)
        · simpa [hb] using h.1
      · by_cases hb : admits b true = true
        · simpa [hb] using normal_collapse c one (by simpa [hb] using h.2)
        · simpa [hb] using h.2
  | b :: c, ignore next, h => normal_stepOver (normal_collapse c next h)

/-- The form in which a tree with an inner root is kept: normal, or one `ignore` over a leaf. -/
def RootNormal (t : BitTree α) : Prop := t.Normal ∨ ∃ a, t = ignore (leaf a)

lemma RootNormal.childrenNormal (h : t.RootNormal) : t.ChildrenNormal := by
  rcases h with h | ⟨a, rfl⟩
  · exact h.childrenNormal
  · exact normal_leaf a

lemma normal_collapse_paint (a : α) (c : Cube) (h : t.ChildrenNormal) :
    (collapse c (paint a c t)).Normal :=
  normal_collapse c _ (normalOff_paint a c t h)

lemma rootNormal_insert (a : α) (c : Cube) (h : t.RootNormal) : (insert a c t).RootNormal := by
  rw [insert]
  split
  · exact h
  · have hn := normal_collapse_paint a c h.childrenNormal
    revert hn
    cases collapse c (paint a c t) with
    | leaf b => exact fun _ => Or.inr ⟨b, rfl⟩
    | branch zero one => exact Or.inl
    | ignore next => exact Or.inl

lemma rootNormal_insertAll (a : α) (cs : List Cube) (h : t.RootNormal) :
    (insertAll a cs t).RootNormal := by
  induction cs generalizing t with
  | nil => exact h
  | cons c cs ih => exact ih (rootNormal_insert a c h)

/-- A normal inner node gives two different answers. -/
theorem exists_walk_ne_of_normal :
    ∀ t : BitTree α, t.Normal → t.isLeaf = false → ∃ s s', t.walk s ≠ t.walk s'
  | leaf a, _, hl => by simp [isLeaf] at hl
  | branch zero one, h, _ => by
      by_cases h0 : zero.isLeaf = false
      · obtain ⟨s, s', hne⟩ := exists_walk_ne_of_normal zero h.2.1 h0
        exact ⟨.cons false s, .cons false s', by simpa using hne⟩
      · by_cases h1 : one.isLeaf = false
        · obtain ⟨s, s', hne⟩ := exists_walk_ne_of_normal one h.2.2 h1
          exact ⟨.cons true s, .cons true s', by simpa using hne⟩
        · cases zero with
          | leaf a =>
            cases one with
            | leaf b =>
              refine ⟨.cons false (.pad []), .cons true (.pad []), fun heq => h.1 a rfl ?_⟩
              simpa using Eq.symm heq
            | branch z o => simp [isLeaf] at h1
            | ignore n => simp [isLeaf] at h1
          | branch z o => simp [isLeaf] at h0
          | ignore n => simp [isLeaf] at h0
  | ignore next, h, _ => by
      obtain ⟨s, s', hne⟩ := exists_walk_ne_of_normal next h.2 h.1
      exact ⟨.cons false s, .cons false s', by simpa using hne⟩

end paint

/-! ## Pruning off a path -/

/-- Follows the path and replaces the first inner node that hangs off it by the leaf `a`. -/
def prune (a : α) : List Bool → BitTree α → BitTree α
  | [], t => t
  | _ :: _, leaf b => leaf b
  | false :: p, branch zero one =>
    if one.isLeaf then branch (prune a p zero) one else branch zero (leaf a)
  | true :: p, branch zero one =>
    if zero.isLeaf then branch zero (prune a p one) else branch (leaf a) one
  | _ :: p, ignore next => ignore (prune a p next)

lemma prune_fork (a : α) (b : Bool) (p : List Bool) (next other : BitTree α) :
    prune a (b :: p) (fork (some b) other next) =
      if other.isLeaf then fork (some b) other (prune a p next) else fork (some b) (leaf a) next := by
  cases b <;> rfl

lemma prune_ignore (a : α) (b : Bool) (p : List Bool) (next : BitTree α) :
    prune a (b :: p) (ignore next) = ignore (prune a p next) := by
  cases b <;> rfl

lemma height_prune_le (a : α) :
    ∀ (p : List Bool) (t : BitTree α), (prune a p t).height ≤ t.height
  | [], t => le_rfl
  | _ :: _, leaf b => le_rfl
  | b :: p, branch zero one => by
      obtain ⟨next, other, heq⟩ := exists_eq_fork b zero one
      have ih := height_prune_le a p next
      rw [heq, prune_fork]
      split <;> simp only [height_fork_some, height] <;> omega
  | b :: p, ignore next => by
      rw [prune_ignore]
      exact Nat.succ_le_succ (height_prune_le a p next)

/-- Pruning only changes answers to `a`. -/
lemma walk_prune (a : α) :
    ∀ (p : List Bool) (t : BitTree α) (s : BitString),
      (prune a p t).walk s = t.walk s ∨ (prune a p t).walk s = a
  | [], t, s => Or.inl rfl
  | _ :: _, leaf b, s => Or.inl rfl
  | b :: p, branch zero one, s => by
      obtain ⟨next, other, heq⟩ := exists_eq_fork b zero one
      have ih := walk_prune a p next s.tail
      rw [heq, prune_fork]
      by_cases h0 : admits (some b) (s.bit 0) = true <;> split <;> simp [walk_fork, h0, ih]
  | b :: p, ignore next, s => by
      rw [prune_ignore]
      exact walk_prune a p next s.tail

/-- Pruning leaves the answers along the path as they are. -/
lemma walk_prune_of_startsWith (a : α) :
    ∀ (p : List Bool) (t : BitTree α) (s : BitString), BitString.StartsWith p s →
      (prune a p t).walk s = t.walk s
  | [], t, s, _ => rfl
  | _ :: _, leaf b, s, _ => rfl
  | b :: p, branch zero one, s, ⟨h0, hs⟩ => by
      obtain ⟨next, other, heq⟩ := exists_eq_fork b zero one
      have ih := walk_prune_of_startsWith a p next s.tail hs
      rw [heq, prune_fork]
      split <;> simp [walk_fork, h0, ih]
  | b :: p, ignore next, s, ⟨_, hs⟩ => by
      rw [prune_ignore]
      exact walk_prune_of_startsWith a p next s.tail hs

/-! ## How many nodes a tree needs -/

/-- A tree that tells any two initial segments of length `n` apart has at least `2 ^ n - 1`
inner nodes: at each of the first `n` levels it has to branch on both sides. -/
theorem two_pow_le_numNodes (n : ℕ) :
    ∀ t : BitTree α,
      (∀ u v : List Bool, u.length = n → v.length = n → u ≠ v →
        ∃ s, t.walk (.append u s) ≠ t.walk (.append v s)) → 2 ^ n ≤ t.numNodes + 1 := by
  induction n with
  | zero => simp
  | succ n ih =>
    intro t h
    obtain ⟨s, hs⟩ := h (false :: List.replicate n false) (true :: List.replicate n false)
      (by simp) (by simp) (by simp)
    cases t with
    | leaf a => simp at hs
    | ignore next => simp at hs
    | branch zero one =>
      -- both children tell the remaining `n` bits apart
      have hchild : ∀ b : Bool, ∀ u v : List Bool, u.length = n → v.length = n → u ≠ v →
          ∃ s, (if b then one else zero).walk (.append u s) ≠
            (if b then one else zero).walk (.append v s) := by
        intro b u v hu hv huv
        obtain ⟨s, hs⟩ := h (b :: u) (b :: v) (by simp [hu]) (by simp [hv]) (by simp [huv])
        refine ⟨s, ?_⟩
        cases b <;> simpa using hs
      have h0 := ih zero (hchild false)
      have h1 := ih one (hchild true)
      simp only [numNodes]
      omega

end BitTree

end LibLisa.Lib
