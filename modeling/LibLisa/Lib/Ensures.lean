import Mathlib.Data.List.Forall2

/-!
# Pre- and postconditions for computations that can fail

`Ensures x E P` says of a computation `x : Except ε α` that a result satisfies `P` and an error
satisfies `E`. The rules follow the structure of a computation: `Ensures.pure`, `Ensures.bind`,
`Ensures.mono`.
-/

namespace LibLisa.Lib

open List Except

variable {ε α β : Type}

/-- A result of `x` satisfies `P`, an error of `x` satisfies `E`. -/
def Ensures (x : Except ε α) (E : ε → Prop) (P : α → Prop) : Prop :=
  match x with
  | .ok a => P a
  | .error e => E e

namespace Ensures

variable {E E' : ε → Prop} {P Q : α → Prop} {R : β → Prop}

@[simp] lemma ok_iff (a : α) : Ensures (.ok a : Except ε α) E P ↔ P a := Iff.rfl

@[simp] lemma error_iff (e : ε) : Ensures (.error e : Except ε α) E P ↔ E e := Iff.rfl

variable {a : α}

lemma pure (h : P a) : Ensures (Pure.pure a : Except ε α) E P := h

variable {x : Except ε α} {f : α → Except ε β}

lemma mono (h : Ensures x E P) (hE : ∀ e, E e → E' e) (hP : ∀ a, P a → Q a) : Ensures x E' Q := by
  cases x with
  | ok a => exact hP a h
  | error e => exact hE e h

lemma imp (h : Ensures x E P) (hP : ∀ a, P a → Q a) : Ensures x E Q := h.mono (fun _ he => he) hP

/-- The sequencing rule. -/
theorem bind (hx : Ensures x E P) (hf : ∀ a, P a → Ensures (f a) E R) : Ensures (x >>= f) E R := by
  cases x with
  | ok a => exact hf a hx
  | error e => exact hx

/-- Sequencing after a computation whose result is known. -/
lemma bind_ok (hx : x = .ok a) (hf : Ensures (f a) E R) : Ensures (x >>= f) E R := by
  rw [hx]
  exact hf

/-- Sequencing after two computations that are specified together. -/
lemma bind_bind {γ : Type} {f : α → Except ε γ} {g : γ → Except ε β} {S : γ → Prop}
    (hx : Ensures (x >>= f) E S) (hg : ∀ c, S c → Ensures (g c) E R) :
    Ensures (x >>= fun a => f a >>= g) E R := by
  cases x with
  | ok a => exact bind (x := f a) hx hg
  | error e => exact hx

lemma of_ok (h : Ensures x E P) (hx : x = .ok a) : P a := by
  rw [hx] at h
  exact h

lemma of_error {e : ε} (h : Ensures x E P) (hx : x = .error e) : E e := by
  rw [hx] at h
  exact h

end Ensures

variable {b : β} {f : α → Except ε β} {x : Except ε α} {g : α → β}

/-- A sequence of two computations has a result when both have. -/
lemma bind_eq_ok_iff : (x >>= f) = .ok b ↔ ∃ a, x = .ok a ∧ f a = .ok b := by
  cases x with
  | ok a => simp [Bind.bind, Except.bind]
  | error e => simp [Bind.bind, Except.bind]

lemma ok_of_bind (h : (x >>= f) = .ok b) : ∃ a, x = .ok a ∧ f a = .ok b := bind_eq_ok_iff.mp h

lemma ok_of_bind₂ {f : α → Except ε γ} {g : α → γ → Except ε β}
    (h : (x >>= fun a => f a >>= g a) = .ok b) : ∃ a c, x = .ok a ∧ f a = .ok c ∧ g a c = .ok b := by
  obtain ⟨a, ha, h⟩ := ok_of_bind h
  obtain ⟨c, hc, h⟩ := ok_of_bind h
  exact ⟨a, c, ha, hc, h⟩

/-- A computation whose result is only wrapped up. -/
lemma ok_of_bind_ok (h : (x >>= fun a => .ok (g a)) = .ok b) : ∃ a, x = .ok a ∧ g a = b := by
  simpa only [bind_eq_ok_iff, ok.injEq] using h

lemma ok_of_bind₂_ok {f : α → Except ε γ} {g : α → γ → β}
    (h : (x >>= fun a => f a >>= fun c => .ok (g a c)) = .ok b) :
    ∃ a c, x = .ok a ∧ f a = .ok c ∧ g a c = b := by
  obtain ⟨a, ha, h⟩ := ok_of_bind h
  obtain ⟨c, hc, rfl⟩ := ok_of_bind_ok h
  exact ⟨a, c, ha, hc, rfl⟩

variable {a a' : α} {i : ℕ} {l : List α}

lemma ok_unique (h : x = .ok a) (h' : x = .ok a') : a = a' := ok.inj (h.symm.trans h')

lemma ok_pair_inj {b' : β} (h : (ok (a, b) : Except ε (α × β)) = .ok (a', b')) : a = a' ∧ b = b' :=
  Prod.mk.inj (ok.inj h)

lemma lt_of_getElem? (h : l[i]? = some a) : i < l.length := (List.getElem?_eq_some_iff.mp h).1

lemma map_eq_ok_iff {f : α → β} : f <$> x = .ok b ↔ ∃ a, x = .ok a ∧ f a = b := by
  cases x with
  | ok a => simp [Functor.map, Except.map]
  | error e => simp [Functor.map, Except.map]

@[simp] lemma ok_bind (a : α) (f : α → Except ε β) : (ok a >>= f) = f a := rfl

@[simp] lemma error_bind (e : ε) (f : α → Except ε β) :
    (error e >>= f) = .error e := rfl

variable {m : List β} {R : α → β → Prop} {p : α → Except ε Bool}

lemma exists_getElem?_of_forall₂ (h : List.Forall₂ R l m) (ha : l[i]? = some a) :
    ∃ b, R a b ∧ m[i]? = some b := by
  induction h generalizing i with
  | nil => cases ha
  | cons hab _ ih =>
    cases i with
    | zero =>
      obtain rfl := Option.some.inj ha
      exact ⟨_, hab, rfl⟩
    | succ i => exact ih ha

lemma exists_of_mem_of_forall₂ (h : List.Forall₂ R l m) (ha : a ∈ l) : ∃ b ∈ m, R a b := by
  obtain ⟨i, hi⟩ := mem_iff_getElem?.mp ha
  obtain ⟨b, hab, hb⟩ := exists_getElem?_of_forall₂ h hi
  exact ⟨b, mem_of_getElem? hb, hab⟩

lemma exists_of_forall₂_of_mem (h : List.Forall₂ R l m) (hb : b ∈ m) : ∃ a ∈ l, R a b :=
  exists_of_mem_of_forall₂ h.flip hb

/-- `mapM` succeeds when every call does, and relates the lists as the calls relate their
elements. -/
lemma exists_mapM_eq_ok (h : ∀ a ∈ l, ∃ b, f a = .ok b ∧ R a b) :
    ∃ m, l.mapM f = .ok m ∧ List.Forall₂ R l m := by
  induction l with
  | nil => exact ⟨[], rfl, .nil⟩
  | cons a l ih =>
    obtain ⟨b, hb, hR⟩ := h a (by simp)
    obtain ⟨m, hm, hall⟩ := ih fun a' ha' => h a' (by simp [ha'])
    exact ⟨b :: m, by rw [mapM_cons, hb, hm]; rfl, .cons hR hall⟩

lemma exists_mapM (h : ∀ a ∈ l, ∃ b, f a = .ok b) : ∃ m, l.mapM f = .ok m := by
  obtain ⟨m, hm, -⟩ := exists_mapM_eq_ok (R := fun _ _ => True) fun a ha =>
    (h a ha).imp fun _ hb => ⟨hb, trivial⟩
  exact ⟨m, hm⟩

/-- The result of `mapM` lists the results of the calls. -/
lemma mapM_eq_ok_iff : l.mapM f = .ok m ↔ List.Forall₂ (fun a b => f a = .ok b) l m := by
  induction l generalizing m with
  | nil =>
    constructor
    · intro h
      obtain rfl := ok.inj h
      exact .nil
    · rintro ⟨⟩
      rfl
  | cons a l ih =>
    rw [mapM_cons, bind_eq_ok_iff]
    constructor
    · rintro ⟨b, hb, h⟩
      obtain ⟨bs, hbs, rfl⟩ := ok_of_bind_ok h
      exact .cons hb (ih.mp hbs)
    · intro h
      cases h with
      | cons hb hbs => exact ⟨_, hb, bind_eq_ok_iff.mpr ⟨_, ih.mpr hbs, rfl⟩⟩

lemma mapM_congr {g : α → Except ε β} (h : ∀ a ∈ l, f a = g a) : l.mapM f = l.mapM g := by
  induction l with
  | nil => rfl
  | cons a l ih =>
    rw [forall_mem_cons] at h
    rw [mapM_cons, mapM_cons, h.1, ih h.2]

lemma mapM_eq_ok_map (h : ∀ a ∈ l, f a = .ok (g a)) : l.mapM f = .ok (l.map g) := by
  rw [mapM_eq_ok_iff, List.forall₂_map_right_iff, List.forall₂_same]
  exact h

lemma exists_getElem?_of_mapM (h : l.mapM f = .ok m) (ha : l[i]? = some a) :
    ∃ b, f a = .ok b ∧ m[i]? = some b :=
  exists_getElem?_of_forall₂ (mapM_eq_ok_iff.mp h) ha

lemma exists_of_mem_of_mapM (h : l.mapM f = .ok m) (ha : a ∈ l) : ∃ b, f a = .ok b := by
  obtain ⟨b, _, hb⟩ := exists_of_mem_of_forall₂ (mapM_eq_ok_iff.mp h) ha
  exact ⟨b, hb⟩

lemma mem_iff_of_mapM (h : l.mapM f = .ok m) : b ∈ m ↔ ∃ a ∈ l, f a = .ok b := by
  rw [mapM_eq_ok_iff] at h
  refine ⟨exists_of_forall₂_of_mem h, ?_⟩
  rintro ⟨a, ha, hab⟩
  obtain ⟨b', hb', hab'⟩ := exists_of_mem_of_forall₂ h ha
  exact ok_unique hab hab' ▸ hb'

lemma length_filter_lt_length_filter {p q : α → Bool} {a : α}
    (h : ∀ b ∈ l, p b = true → q b = true) (ha : a ∈ l) (hq : q a = true) (hp : p a = false) :
    (l.filter p).length < (l.filter q).length := by
  have hfilter : l.filter p = (l.filter q).filter p := by
    rw [filter_filter]
    exact filter_congr fun b hb => by cases hb : p b <;> simp_all
  rw [hfilter, length_filter_lt_length_iff_exists]
  exact ⟨a, mem_filter.mpr ⟨ha, hq⟩, by simp [hp]⟩

/-- A loop whose every iteration has a result and keeps `Q`. -/
lemma exists_foldlM_eq_ok {f : β → α → Except ε β} {Q : β → Prop} (hb : Q b)
    (h : ∀ b a, a ∈ l → Q b → ∃ b', f b a = .ok b' ∧ Q b') :
    ∃ b', l.foldlM f b = .ok b' ∧ Q b' := by
  induction l generalizing b with
  | nil => exact ⟨b, rfl, hb⟩
  | cons a l ih =>
    obtain ⟨b₁, h₁, hb₁⟩ := h b a (.head _) hb
    obtain ⟨b₂, h₂, hb₂⟩ := ih hb₁ fun b a' ha' => h b a' (.tail _ ha')
    exact ⟨b₂, by rw [foldlM_cons, h₁, ok_bind, h₂], hb₂⟩

/-- The rule for a loop that folds over a list: `I` holds before and after each iteration. -/
lemma Ensures.foldlM {E : ε → Prop} {f : β → α → Except ε β} {I : List α → β → Prop}
    (hinit : I [] b) (hstep : ∀ done a rest, l = done ++ a :: rest → ∀ b, I done b →
      Ensures (f b a) E (I (done ++ [a]))) : Ensures (l.foldlM f b) E (I l) := by
  have hgen : ∀ (rest done : List α) b, l = done ++ rest → I done b →
      Ensures (rest.foldlM f b) E (I l) := by
    intro rest
    induction rest with
    | nil =>
      intro done b hl hI
      rw [append_nil] at hl
      rw [hl]
      exact hI
    | cons a rest ih =>
      intro done b hl hI
      refine (hstep done a rest hl b hI).bind fun b' hb' => ih (done ++ [a]) b' ?_ hb'
      simp [hl]
  exact hgen l [] b rfl hinit

/-! ## Conditions over lists -/

lemma anyM_cons_of_ok {b : Bool} (h : p a = .ok b) (l : List α) :
    (a :: l).anyM p = if b then .ok true else l.anyM p := by
  rw [anyM_cons, h]
  rcases b with _ | _ <;> rfl

/-- A condition that was found to hold of no element. -/
lemma eq_ok_false_of_anyM (h : l.anyM p = .ok false) : ∀ a ∈ l, p a = .ok false := by
  induction l with
  | nil => exact fun a ha => nomatch ha
  | cons a l ih =>
    rcases hb : p a with e | b
    · rw [anyM_cons, hb] at h
      cases h
    · rw [anyM_cons_of_ok hb] at h
      rcases b with _ | _
      · exact forall_mem_cons.mpr ⟨hb, ih h⟩
      · cases h

/-! ## Equal neighbours -/

lemma mem_eraseRepsBy_loop [BEq α] [LawfulBEq α] {b : α} {acc : List α} :
    b ∈ List.eraseRepsBy.loop (· == ·) a l acc ↔ b = a ∨ b ∈ l ∨ b ∈ acc := by
  induction l generalizing a acc with
  | nil => simp [eraseRepsBy.loop, or_comm]
  | cons c l ih =>
    unfold eraseRepsBy.loop
    split
    next heq =>
      obtain rfl := beq_iff_eq.mp heq
      rw [ih, mem_cons]
      tauto
    next =>
      rw [ih, mem_cons, mem_cons]
      tauto

lemma mem_eraseReps [BEq α] [LawfulBEq α] : a ∈ l.eraseReps ↔ a ∈ l := by
  rcases l with _ | ⟨b, l⟩
  · exact Iff.rfl
  · show a ∈ eraseRepsBy.loop (· == ·) b l [] ↔ _
    rw [mem_eraseRepsBy_loop]
    simp

end LibLisa.Lib
