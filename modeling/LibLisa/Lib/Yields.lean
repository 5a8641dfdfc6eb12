import LibLisa.Lib.Ensures

/-!
# Postconditions for computations that read from a source

`Yields m P` says of a computation that threads a state and can fail, `m : StateT σ (Except ε) α`,
that whatever the state is, a result satisfies `P`. It is the reasoning principle for a computation
that draws from a random source: the state is the rest of the source, and nothing is assumed about
it.
-/

namespace LibLisa.Lib

variable {σ ε α β : Type}

/-- Every result of `m`, from any state, satisfies `P`. -/
def Yields (m : StateT σ (Except ε) α) (P : α → Prop) : Prop :=
  ∀ s a s', m s = .ok (a, s') → P a

namespace Yields

variable {m : StateT σ (Except ε) α} {P Q : α → Prop} {R : β → Prop} {f : α → StateT σ (Except ε) β}

lemma trivial (m : StateT σ (Except ε) α) : Yields m fun _ => True := fun _ _ _ _ => True.intro

lemma pure {a : α} (h : P a) : Yields (Pure.pure a : StateT σ (Except ε) α) P := by
  intro s b s' hb
  obtain ⟨rfl, -⟩ := ok_pair_inj hb
  exact h

lemma mono (h : Yields m P) (hPQ : ∀ a, P a → Q a) : Yields m Q :=
  fun s a s' ha => hPQ a (h s a s' ha)

/-- The sequencing rule. -/
theorem bind (hm : Yields m P) (hf : ∀ a, P a → Yields (f a) R) : Yields (m >>= f) R := by
  intro s b s' hb
  obtain ⟨⟨a, s₁⟩, ha, hb⟩ := ok_of_bind hb
  exact hf a (hm s a s₁ ha) s₁ b s' hb

/-- Sequencing after a computation about which nothing is known. -/
lemma bind_any (hf : ∀ a, Yields (f a) R) : Yields (m >>= f) R := bind (trivial m) fun a _ => hf a

/-- A computation that does not use the state. -/
lemma lift {x : Except ε α} (h : ∀ a, x = .ok a → P a) :
    Yields (liftM x : StateT σ (Except ε) α) P := by
  intro s a s' ha
  obtain ⟨a', ha', ha⟩ := ok_of_bind ha
  obtain ⟨rfl, -⟩ := ok_pair_inj ha
  exact h a' ha'

lemma ite {c : Prop} [Decidable c] {m' : StateT σ (Except ε) α} (ht : c → Yields m P)
    (hf : ¬ c → Yields m' P) : Yields (if c then m else m') P := by
  split
  next hc => exact ht hc
  next hc => exact hf hc

end Yields

end LibLisa.Lib
