import LibLisa.Lib.Ensures

/-!
# How a modelled function stops without a result

A fallible function of the source returns `Except Abort`. An `Abort` is one of the panics that the
code can raise, or `outOfFuel` for a recursion or loop of the source that the model bounds by a
counter; the results show that the counter is large enough. Integers of a fixed width are bit
vectors (`U8` to `U64`), and random choices are a parameter (`Pick`).
-/

namespace LibLisa

/-! ## The unsigned integers of the source -/

abbrev U8 := BitVec 8

abbrev U16 := BitVec 16

abbrev U32 := BitVec 32

abbrev U64 := BitVec 64

/-- The random choices of a search: what is picked in an attempt at a place. -/
abbrev Pick := ℕ → ℕ → ℕ

/-! ## Panics -/

/-- A panic of the source, or an exhausted bound of the model. -/
inductive Abort where
  /-- A slice or vector was indexed outside its length. -/
  | indexOutOfBounds
  /-- An unsigned subtraction went below zero or an addition overflowed. -/
  | arithmeticOverflow
  /-- `U40::new` was given a value of more than 40 bits. -/
  | u40Overflow
  /-- `NodeIndex::unwrap` met a leaf. -/
  | leafUnwrapped
  /-- `Instruction::new` was given more than 15 bytes. -/
  | instructionTooLong
  /-- `Instruction::resize` was asked for 15 bytes or more. -/
  | resizeTooLong
  /-- `ByteFilter::new` was given a value bit outside the mask. -/
  | valueOutsideMask
  /-- An `ArrayVec` of byte filters got a 17th element. -/
  | filterTooLong
  /-- An `ArrayVec` was pushed to beyond its capacity. -/
  | arrayVecFull
  /-- An operation found too few values on the stack. -/
  | stackEmpty
  /-- A compiled expression was called with too few arguments. -/
  | tooFewArguments
  /-- An `assert!` or `expect` of the source failed. -/
  | assertionFailed
  /-- A `panic!` of the source was reached. -/
  | explicitPanic
  /-- A quantifier over more constants than `u16` counts. -/
  | tooManyBounds
  /-- An arm that the source marks as impossible was reached. -/
  | unreachable
  /-- The model's bound on a recursion or loop was used up. -/
  | outOfFuel
deriving DecidableEq, Repr

/-- A computation of the source that can panic. -/
abbrev Partial (α : Type) := Except Abort α

/-- The panic raised where `Option::None` stands for a failed access. -/
def orPanic {α : Type} (e : Abort) : Option α → Partial α
  | some a => .ok a
  | none => .error e

variable {α : Type}

@[simp] lemma orPanic_some (e : Abort) (a : α) : orPanic e (some a) = .ok a := rfl

lemma eq_some_of_orPanic {e : Abort} {x : Option α} {a : α} (h : orPanic e x = .ok a) :
    x = some a := by
  cases x with
  | none => cases h
  | some b => rw [Except.ok.inj h]

@[simp] lemma orPanic_none (e : Abort) : orPanic e (none : Option α) = .error e := rfl

/-- A run that was evaluated. -/
lemma exists_ok_of_any {x : Partial α} {p : α → Prop} [DecidablePred p]
    (h : (x.toOption.any fun a => decide (p a)) = true) : ∃ a, x = .ok a ∧ p a := by
  rcases x with e | a
  · cases h
  · exact ⟨a, rfl, of_decide_eq_true h⟩

end LibLisa
