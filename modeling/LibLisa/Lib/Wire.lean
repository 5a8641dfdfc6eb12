import Mathlib.Data.Nat.ModEq
import Mathlib.Data.List.Perm.Basic
import Mathlib.Data.Set.Function

/-!
# Byte strings made of fields

Fields of a fixed number of bytes, and lists of strings that are compared only through an
injective coding of their elements.

Main results:
* `readLe_leBytes`: a fixed-width number is read back, with what follows it;
* `Reader.many_flatMap`: so is a list of items, each of which is;
* `flatten_inj_of_length`: blocks of one length can be told apart;
* `perm_of_perm_map`: a permutation of the codes is one of the items.
-/

namespace LibLisa.Lib.Wire

open List

/-! ## Fixed-width numbers -/

/-- The `n` low bytes of a number, lowest first. -/
def leBytes : ℕ → ℕ → List (BitVec 8)
  | 0, _ => []
  | n + 1, x => BitVec.ofNat 8 x :: leBytes n (x / 256)

/-- The number that a list of bytes stands for, lowest byte first. -/
def ofLeBytes : List (BitVec 8) → ℕ
  | [] => 0
  | b :: bs => b.toNat + 256 * ofLeBytes bs

/-- A field of `n` bytes at the start of a string, and the rest. -/
def readLe (n : ℕ) (bs : List (BitVec 8)) : Option (ℕ × List (BitVec 8)) :=
  if n ≤ bs.length then some (ofLeBytes (bs.take n), bs.drop n) else none

@[simp] lemma length_leBytes (n x : ℕ) : (leBytes n x).length = n := by
  induction n generalizing x with
  | zero => rfl
  | succ n ih => rw [leBytes, length_cons, ih]

lemma ofLeBytes_leBytes (n x : ℕ) : ofLeBytes (leBytes n x) = x % 256 ^ n := by
  induction n generalizing x with
  | zero => simp [leBytes, ofLeBytes, Nat.mod_one]
  | succ n ih =>
    rw [leBytes, ofLeBytes, ih, BitVec.toNat_ofNat, show 256 ^ (n + 1) = 256 * 256 ^ n from
      Nat.pow_succ', Nat.mod_mul]

/-- Reading gives back what was written, whatever follows. -/
theorem readLe_leBytes {n x : ℕ} (hx : x < 256 ^ n) (rest : List (BitVec 8)) :
    readLe n (leBytes n x ++ rest) = some (x, rest) := by
  unfold readLe
  rw [if_pos (by simp), take_left' (length_leBytes n x), drop_left' (length_leBytes n x),
    ofLeBytes_leBytes, Nat.mod_eq_of_lt hx]

/-- A bit vector of `n` bytes at the start of a string. -/
def readBits (n : ℕ) (bs : List (BitVec 8)) : Option (BitVec (8 * n) × List (BitVec 8)) :=
  (readLe n bs).map fun r => (BitVec.ofNat _ r.1, r.2)

lemma readBits_leBytes {n : ℕ} (x : BitVec (8 * n)) (rest : List (BitVec 8)) :
    readBits n (leBytes n x.toNat ++ rest) = some (x, rest) := by
  have hx : x.toNat < 256 ^ n := by
    have h := x.isLt
    rwa [Nat.pow_mul] at h
  unfold readBits
  rw [readLe_leBytes hx, Option.map_some, BitVec.ofNat_toNat, BitVec.setWidth_eq]

/-! ## Readers -/

variable {α β : Type}

/-- A reader takes an item from the start of a string and leaves the rest. -/
abbrev Reader (α : Type) := List (BitVec 8) → Option (α × List (BitVec 8))

namespace Reader

/-- Nothing more to read. -/
def done (a : α) : Reader α := fun bs => some (a, bs)

/-- One item, then what depends on it. -/
def andThen (read : Reader α) (f : α → Reader β) : Reader β := fun bs =>
  (read bs).bind fun r => f r.1 r.2

/-- A single byte. -/
def byte : Reader (BitVec 8)
  | [] => none
  | b :: bs => some (b, bs)

/-- A `u32`. -/
def u32 : Reader (BitVec 32) := readBits 4

/-- A `u64`. -/
def u64 : Reader (BitVec 64) := readBits 8

/-- `n` items one after the other. -/
def many (read : Reader α) : ℕ → Reader (List α)
  | 0 => done []
  | n + 1 => andThen read fun a => andThen (many read n) fun as => done (a :: as)

variable {read : Reader α}

lemma andThen_eq {f : α → Reader β} {bs rest : List (BitVec 8)} {a : α}
    (h : read bs = some (a, rest)) : andThen read f bs = f a rest := by
  unfold andThen
  rw [h, Option.bind_some]

lemma byte_andThen (f : BitVec 8 → Reader β) (b : BitVec 8) (rest : List (BitVec 8)) :
    byte.andThen f (b :: rest) = f b rest := rfl

lemma u32_andThen (f : BitVec 32 → Reader β) (x : BitVec 32) (rest : List (BitVec 8)) :
    u32.andThen f (leBytes 4 x.toNat ++ rest) = f x rest :=
  andThen_eq (readBits_leBytes (n := 4) x rest)

lemma u64_andThen (f : BitVec 64 → Reader β) (x : BitVec 64) (rest : List (BitVec 8)) :
    u64.andThen f (leBytes 8 x.toNat ++ rest) = f x rest :=
  andThen_eq (readBits_leBytes (n := 8) x rest)

lemma many_flatMap {write : α → List (BitVec 8)} {as : List α}
    (h : ∀ a ∈ as, ∀ rest, read (write a ++ rest) = some (a, rest)) (rest : List (BitVec 8)) :
    many read as.length (as.flatMap write ++ rest) = some (as, rest) := by
  induction as with
  | nil => rfl
  | cons a as ih =>
    rw [flatMap_cons, append_assoc, length_cons, many]
    rw [andThen_eq (h a (mem_cons_self ..) _), andThen_eq (ih fun a' ha' => h a' (.tail _ ha'))]
    rfl

end Reader

/-! ## Blocks and permutations -/

/-- Strings made of blocks of `n` elements have the same blocks if they are equal. -/
theorem flatten_inj_of_length {n : ℕ} (hn : 0 < n) {l l' : List (List α)}
    (hl : ∀ b ∈ l, b.length = n) (hl' : ∀ b ∈ l', b.length = n) (h : l.flatten = l'.flatten) :
    l = l' := by
  have hmap := map_eq_replicate_iff.mpr hl
  have hmap' := map_eq_replicate_iff.mpr hl'
  have hlength : l.length = l'.length := by
    have hsum := congrArg length h
    rw [length_flatten, length_flatten, hmap, hmap', sum_replicate_nat, sum_replicate_nat] at hsum
    exact Nat.eq_of_mul_eq_mul_right hn hsum
  exact eq_iff_flatten_eq.mpr ⟨h, by rw [hmap, hmap', hlength]⟩

/-- If `f` tells the items of two lists apart, the lists are permutations of each other when their
images are. -/
theorem perm_of_perm_map [Nonempty α] {f : α → β} {S : Set α} (hf : Set.InjOn f S) {l l' : List α}
    (hl : ∀ a ∈ l, a ∈ S) (hl' : ∀ a ∈ l', a ∈ S) (h : (l.map f).Perm (l'.map f)) : l.Perm l' := by
  have hback : ∀ {m : List α}, (∀ a ∈ m, a ∈ S) → (m.map f).map (Function.invFunOn f S) = m := by
    intro m hm
    rw [map_map]
    exact (map_congr_left fun a ha => hf.leftInvOn_invFunOn (hm a ha)).trans (map_id m)
  have hperm := h.map (Function.invFunOn f S)
  rwa [hback hl, hback hl'] at hperm

end LibLisa.Lib.Wire
