import LibLisa.Semantics.Ops

/-!
# Postfix order

`FastOp.flatten` lists the operations of nested nodes in the order in which the stack evaluator
needs them. `Pushes` says what running operations leaves on the stack and how much room they need;
there is one lemma for it per number of operands, and `pushes_flatten` puts them together for all
nodes.
-/

namespace LibLisa.Semantics

open Lib List

namespace FastOp

/-- The operations of a node after those of its operands. A value has no operation. -/
def flatten : FastOp → List Op
  | .val _ => []
  | .hole index => [.hole index]
  | .const value => [.const value]
  | .not v => v.flatten ++ [.not]
  | .crop numBits v => v.flatten ++ [.crop numBits]
  | .signExtend numBits v => v.flatten ++ [.signExtend numBits]
  | .select numSkip numTake v => v.flatten ++ [.select numSkip numTake]
  | .parity v => v.flatten ++ [.parity]
  | .isZero v => v.flatten ++ [.isZero]
  | .byteMask v => v.flatten ++ [.byteMask]
  | .bitMask v => v.flatten ++ [.bitMask]
  | .trailingZeros v => v.flatten ++ [.trailingZeros]
  | .leadingZeros v => v.flatten ++ [.leadingZeros]
  | .popCount v => v.flatten ++ [.popCount]
  | .swapBytes numBits v => v.flatten ++ [.swapBytes numBits]
  | .add v w => v.flatten ++ w.flatten ++ [.add]
  | .sub v w => v.flatten ++ w.flatten ++ [.sub]
  | .mul v w => v.flatten ++ w.flatten ++ [.mul]
  | .carrylessMul v w => v.flatten ++ w.flatten ++ [.carrylessMul]
  | .div v w => v.flatten ++ w.flatten ++ [.div]
  | .unsignedDiv v w => v.flatten ++ w.flatten ++ [.unsignedDiv]
  | .rem v w => v.flatten ++ w.flatten ++ [.rem]
  | .unsignedRem v w => v.flatten ++ w.flatten ++ [.unsignedRem]
  | .shl v w => v.flatten ++ w.flatten ++ [.shl]
  | .shr v w => v.flatten ++ w.flatten ++ [.shr]
  | .and v w => v.flatten ++ w.flatten ++ [.and]
  | .or v w => v.flatten ++ w.flatten ++ [.or]
  | .xor v w => v.flatten ++ w.flatten ++ [.xor]
  | .cmpLt v w => v.flatten ++ w.flatten ++ [.cmpLt]
  | .rol numBits v w => v.flatten ++ w.flatten ++ [.rol numBits]
  | .depositBits v w => v.flatten ++ w.flatten ++ [.depositBits]
  | .extractBits v w => v.flatten ++ w.flatten ++ [.extractBits]
  | .ifZero condition zero nonzero =>
    condition.flatten ++ zero.flatten ++ nonzero.flatten ++ [.ifZero]

/-- How many values the stack has to have room for. -/
def depth : FastOp → ℕ
  | .val _ => 0
  | .hole _ | .const _ => 1
  | .not v | .crop _ v | .signExtend _ v | .select _ _ v | .parity v | .isZero v | .byteMask v
  | .bitMask v | .trailingZeros v | .leadingZeros v | .popCount v | .swapBytes _ v => v.depth
  | .add v w | .sub v w | .mul v w | .carrylessMul v w | .div v w | .unsignedDiv v w | .rem v w
  | .unsignedRem v w | .shl v w | .shr v w | .and v w | .or v w | .xor v w | .cmpLt v w
  | .rol _ v w | .depositBits v w | .extractBits v w => max v.depth (1 + w.depth)
  | .ifZero condition zero nonzero =>
    max condition.depth (max (1 + zero.depth) (2 + nonzero.depth))

/-- No node is a value: the nodes of a template. -/
def NoVal : FastOp → Prop
  | .val _ => False
  | .hole _ | .const _ => True
  | .not v | .crop _ v | .signExtend _ v | .select _ _ v | .parity v | .isZero v | .byteMask v
  | .bitMask v | .trailingZeros v | .leadingZeros v | .popCount v | .swapBytes _ v => v.NoVal
  | .add v w | .sub v w | .mul v w | .carrylessMul v w | .div v w | .unsignedDiv v w | .rem v w
  | .unsignedRem v w | .shl v w | .shr v w | .and v w | .or v w | .xor v w | .cmpLt v w
  | .rol _ v w | .depositBits v w | .extractBits v w => v.NoVal ∧ w.NoVal
  | .ifZero condition zero nonzero => condition.NoVal ∧ zero.NoVal ∧ nonzero.NoVal

/-- `t` applies `f` to the value of `v`; on the stack this is `op`. -/
structure Unary (t v : FastOp) (op : Op) (f : I128 → Partial I128) : Prop where
  flatten_eq : t.flatten = v.flatten ++ [op]
  depth_eq : t.depth = v.depth
  noVal_iff : t.NoVal ↔ v.NoVal
  op_ne_hole : ∀ n, op ≠ .hole n
  compute_eq : ∀ args, t.compute args = v.compute args >>= f
  eval_eq : ∀ args top stack,
    op.evalFromStack args top stack = f top >>= fun r => .ok (r, stack)

/-- `t` applies `f` to the values of `v` and `w`; on the stack this is `op`. -/
structure Binary (t v w : FastOp) (op : Op) (f : I128 → I128 → Partial I128) : Prop where
  flatten_eq : t.flatten = v.flatten ++ w.flatten ++ [op]
  depth_eq : t.depth = max v.depth (1 + w.depth)
  noVal_iff : t.NoVal ↔ v.NoVal ∧ w.NoVal
  op_ne_hole : ∀ n, op ≠ .hole n
  compute_eq : ∀ args, t.compute args = v.compute args >>= fun a => w.compute args >>= f a
  eval_eq : ∀ args a b stack,
    op.evalFromStack args b (a :: stack) = f a b >>= fun r => .ok (r, stack)

lemma evalFromStack_crop (numBits : U8) (args : Args) (top : I128) (stack : Stack) :
    (Op.crop numBits).evalFromStack args top stack =
      Semantics.crop numBits top >>= fun r => .ok (r, stack) := by
  simp only [Semantics.crop, bind_assoc]
  rfl

/-- Induction over nodes by their number of operands. -/
lemma induction {motive : FastOp → Prop} (val : ∀ v, motive (.val v))
    (hole : ∀ index, motive (.hole index)) (const : ∀ value, motive (.const value))
    (unary : ∀ t v op f, Unary t v op f → motive v → motive t)
    (binary : ∀ t v w op f, Binary t v w op f → motive v → motive w → motive t)
    (ifZero : ∀ condition zero nonzero, motive condition → motive zero → motive nonzero →
      motive (.ifZero condition zero nonzero)) (t : FastOp) : motive t := by
  induction t with
  | val v => exact val v
  | hole index => exact hole index
  | const value => exact const value
  | not v ih | parity v ih | isZero v ih | byteMask v ih | bitMask v ih | trailingZeros v ih
  | leadingZeros v ih | popCount v ih | swapBytes numBits v ih =>
    exact unary _ v _ _ ⟨rfl, rfl, Iff.rfl, nofun, fun _ => rfl, fun _ _ _ => rfl⟩ ih
  | crop numBits v ih =>
    exact unary _ v _ _ ⟨rfl, rfl, Iff.rfl, nofun, fun _ => rfl, evalFromStack_crop numBits⟩ ih
  | signExtend numBits v ih =>
    refine unary _ v _ _ ⟨rfl, rfl, Iff.rfl, nofun, fun _ => rfl, fun args top stack => ?_⟩ ih
    simp only [signExtendOp, bind_assoc]
    rfl
  | select numSkip numTake v ih =>
    refine unary _ v _ _ ⟨rfl, rfl, Iff.rfl, nofun, fun _ => rfl, fun args top stack => ?_⟩ ih
    simp only [Semantics.select, bind_assoc]
    rfl
  | add v w ihv ihw | sub v w ihv ihw | mul v w ihv ihw | carrylessMul v w ihv ihw
  | div v w ihv ihw | unsignedDiv v w ihv ihw | rem v w ihv ihw | unsignedRem v w ihv ihw
  | shl v w ihv ihw | shr v w ihv ihw | and v w ihv ihw | or v w ihv ihw | xor v w ihv ihw
  | cmpLt v w ihv ihw | rol numBits v w ihv ihw | depositBits v w ihv ihw
  | extractBits v w ihv ihw =>
    exact binary _ v w _ _ ⟨rfl, rfl, Iff.rfl, nofun, fun _ => rfl, fun _ _ _ _ => rfl⟩ ihv ihw
  | ifZero condition zero nonzero ihc ihz ihn => exact ifZero _ _ _ ihc ihz ihn

end FastOp

/-! ## Running the operations -/

lemma runOps_append (args : Args) (xs ys : List Op) (top : I128) (stack : Stack) :
    runOps args (xs ++ ys) top stack =
      runOps args xs top stack >>= fun r => runOps args ys r.1 r.2 := by
  induction xs generalizing top stack with
  | nil => rfl
  | cons x xs ih =>
    rw [cons_append, runOps, runOps, bind_assoc]
    exact congrArg _ (funext fun r => ih r.1 r.2)

lemma runOps_singleton (args : Args) (op : Op) (top : I128) (stack : Stack) :
    runOps args [op] top stack = op.evalFromStack args top stack := by
  exact bind_pure _

variable {stack : Stack} {t : FastOp}

lemma Stack.push_of_lt (h : stack.length < stackCapacity) (v : I128) :
    stack.push v = .ok (v :: stack) := if_pos h

lemma Stack.push_of_not_lt (h : ¬ stack.length < stackCapacity) (v : I128) :
    stack.push v = .error .arrayVecFull := if_neg h

/-- Running the operations pushes `x`, if there is one, and needs room for `d` values. -/
structure Pushes (args : Args) (ops : List Op) (x : Partial I128) (d : ℕ) : Prop where
  pos : 0 < d
  run : ∀ {top : I128} {stack : Stack}, stack.length + d ≤ stackCapacity →
    runOps args ops top stack = x >>= fun v => .ok (v, top :: stack)
  full : ∀ {top : I128} {stack : Stack}, stack.length ≤ stackCapacity →
    stackCapacity < stack.length + d → ∀ r, runOps args ops top stack ≠ .ok r

namespace Pushes

variable {args : Args} {xs ys zs : List Op} {x y z : Partial I128} {d₁ d₂ d₃ : ℕ}
  {op : Op}

/-- An operation without operands. -/
theorem leaf (hop : ∀ top stack, op.evalFromStack args top stack =
    stack.push top >>= fun s => x >>= fun v => .ok (v, s)) : Pushes args [op] x 1 where
  pos := Nat.one_pos
  run hfits := by
    rw [runOps_singleton, hop, Stack.push_of_lt hfits, ok_bind]
  full hstack hfull r := by
    rw [runOps_singleton, hop, Stack.push_of_not_lt (Nat.not_lt.mpr (Nat.lt_succ_iff.mp hfull))]
    exact nofun

section

variable (hx : Pushes args xs x d₁)
include hx

/-- An operation on the value pushed last. -/
lemma unary {f : I128 → Partial I128}
    (hop : ∀ top stack, op.evalFromStack args top stack = f top >>= fun r => .ok (r, stack)) :
    Pushes args (xs ++ [op]) (x >>= f) d₁ where
  pos := hx.pos
  run hfits := by
    rw [runOps_append, hx.run hfits, bind_assoc, bind_assoc]
    refine congrArg _ (funext fun a => ?_)
    rw [ok_bind, runOps_singleton, hop]
  full hstack hfull r hr := by
    rw [runOps_append] at hr
    obtain ⟨r', hr', _⟩ := ok_of_bind hr
    exact hx.full hstack hfull r' hr'

section

variable (hy : Pushes args ys y d₂) {top : I128}
include hy

/-- Two values, one above the other. -/
lemma run_append (hfits : stack.length + max d₁ (1 + d₂) ≤ stackCapacity) :
    runOps args (xs ++ ys) top stack =
      x >>= fun a => y >>= fun b => .ok (b, a :: top :: stack) := by
  rw [runOps_append, hx.run (by omega), bind_assoc]
  refine congrArg _ (funext fun a => ?_)
  rw [ok_bind, hy.run (by rw [length_cons]; omega)]

lemma full_append (hstack : stack.length ≤ stackCapacity)
    (hfull : stackCapacity < stack.length + max d₁ (1 + d₂)) (r : I128 × Stack) :
    runOps args (xs ++ ys) top stack ≠ .ok r := by
  intro hr
  rw [runOps_append] at hr
  obtain ⟨r₁, hr₁, hr⟩ := ok_of_bind hr
  have hpos := hx.pos
  by_cases hfits : stack.length + d₁ ≤ stackCapacity
  · rw [hx.run hfits] at hr₁
    obtain ⟨a, _, rfl⟩ := ok_of_bind_ok hr₁
    refine hy.full ?_ ?_ r hr
    · rw [length_cons]
      omega
    · rw [length_cons]
      omega
  · exact hx.full hstack (Nat.lt_of_not_le hfits) r₁ hr₁

/-- An operation on the two values pushed last. -/
lemma binary {f : I128 → I128 → Partial I128} (hop : ∀ a b stack,
      op.evalFromStack args b (a :: stack) = f a b >>= fun r => .ok (r, stack)) :
    Pushes args (xs ++ ys ++ [op]) (x >>= fun a => y >>= f a) (max d₁ (1 + d₂)) where
  pos := lt_max_of_lt_left hx.pos
  run hfits := by
    rw [runOps_append, hx.run_append hy hfits, bind_assoc, bind_assoc]
    refine congrArg _ (funext fun a => ?_)
    rw [bind_assoc, bind_assoc]
    refine congrArg _ (funext fun b => ?_)
    rw [ok_bind, runOps_singleton, hop]
  full hstack hfull r hr := by
    rw [runOps_append] at hr
    obtain ⟨r', hr', _⟩ := ok_of_bind hr
    exact hx.full_append hy hstack hfull r' hr'

/-- The conditional on the three values pushed last. -/
lemma ifZero (hz : Pushes args zs z d₃) :
    Pushes args (xs ++ ys ++ zs ++ [.ifZero])
      (x >>= fun a => y >>= fun b => z >>= fun c => .ok (Semantics.ifZero a b c))
      (max d₁ (max (1 + d₂) (2 + d₃))) where
  pos := lt_max_of_lt_left hx.pos
  run {top stack} hfits := by
    rw [runOps_append, runOps_append, hx.run_append hy (by omega)]
    simp only [bind_assoc, ok_bind]
    refine congrArg _ (funext fun a => congrArg _ (funext fun b => ?_))
    rw [hz.run (by rw [length_cons, length_cons]; omega), bind_assoc]
    rfl
  full {top stack} hstack hfull r hr := by
    rw [runOps_append, runOps_append] at hr
    obtain ⟨r₂, hr, _⟩ := ok_of_bind hr
    obtain ⟨r₁, hr₁, hr₂⟩ := ok_of_bind hr
    have hposy := hy.pos
    by_cases hfits : stack.length + max d₁ (1 + d₂) ≤ stackCapacity
    · rw [hx.run_append hy hfits] at hr₁
      obtain ⟨a, b, _, _, rfl⟩ := ok_of_bind₂_ok hr₁
      refine hz.full ?_ ?_ r₂ hr₂
      · rw [length_cons, length_cons]
        omega
      · rw [length_cons, length_cons]
        omega
    · exact hx.full_append hy hstack (Nat.lt_of_not_le hfits) r₁ hr₁

end

end

end Pushes

/-- Running the operations of a node pushes its value. -/
theorem pushes_flatten (h : t.NoVal) (args : Args) :
    Pushes args t.flatten (t.compute args) t.depth := by
  induction t using FastOp.induction with
  | val v => exact h.elim
  | hole index => exact .leaf fun _ _ => rfl
  | const value => exact .leaf fun _ _ => rfl
  | unary t v op f ht ih =>
    rw [ht.flatten_eq, ht.compute_eq, ht.depth_eq]
    exact (ih (ht.noVal_iff.mp h)).unary (ht.eval_eq args)
  | binary t v w op f ht ihv ihw =>
    obtain ⟨hv, hw⟩ := ht.noVal_iff.mp h
    rw [ht.flatten_eq, ht.compute_eq, ht.depth_eq]
    exact (ihv hv).binary (ihw hw) (ht.eval_eq args)
  | ifZero condition zero nonzero ihc ihz ihn => exact (ihc h.1).ifZero (ihz h.2.1) (ihn h.2.2)

/-- Every value that is pushed comes from an operation. -/
lemma FastOp.depth_le_length (h : t.NoVal) : t.depth ≤ t.flatten.length := by
  induction t using FastOp.induction with
  | val v => exact h.elim
  | hole index => exact Nat.le_refl 1
  | const value => exact Nat.le_refl 1
  | unary t v op f ht ih =>
    rw [ht.depth_eq, ht.flatten_eq, length_append]
    exact Nat.le_add_right_of_le (ih (ht.noVal_iff.mp h))
  | binary t v w op f ht ihv ihw =>
    obtain ⟨hv, hw⟩ := ht.noVal_iff.mp h
    have hlenv := ihv hv
    have hlenw := ihw hw
    rw [ht.depth_eq, ht.flatten_eq, length_append, length_append, length_singleton]
    omega
  | ifZero condition zero nonzero ihc ihz ihn =>
    obtain ⟨hc, hz, hn⟩ := h
    have hpos := (pushes_flatten hc fun _ => .ok 0).pos
    have hlenc := ihc hc
    have hlenz := ihz hz
    have hlenn := ihn hn
    rw [FastOp.depth, FastOp.flatten, length_append, length_append, length_append, length_singleton]
    omega

end LibLisa.Semantics
