import LibLisa.Semantics.BuilderAgrees
import LibLisa.Semantics.Output

/-!
# Splicing operations, arguments and constants

The combinators of `computation.rs` move the operations, arguments and constants of a computation
into a longer list. Operations that only have their holes renumbered run as before, on arguments
that are renumbered the same way (`runOps_renumbered`); arguments that only have their constants
renumbered are interpreted as before, in the longer list (`mapM_interpretInputs_segment`).
`evaluate_eq_ok_iff` says what evaluating a computation comes to.
-/

namespace LibLisa.Semantics

open Lib List Arg SynthesizedComputation Except

/-! ## Operations -/

/-- The operations differ in the numbers of their holes only, and the arguments agree. -/
inductive Renumbered (args args' : Args) : Op → Op → Prop
  | hole {n n' : U16} (h : args n.toNat = args' n'.toNat) :
      Renumbered args args' (.hole n) (.hole n')
  | other {op : Op} (h : ∀ n, op ≠ .hole n) : Renumbered args args' op op

variable {args' : Args} {op op' : Op}

lemma Renumbered.evalFromStack_eq {args : Args}
    (h : Renumbered args args' op op') (top : I128) (stack : Stack) :
    op.evalFromStack args top stack = op'.evalFromStack args' top stack := by
  cases h with
  | hole h => rw [Op.evalFromStack, Op.evalFromStack, h]
  | other h =>
    cases op with
    | hole n => exact absurd rfl (h n)
    | _ => rfl

variable {ops : List Op} {x : Partial I128} {ops' : List Op}

lemma runOps_renumbered {args : Args}
    (h : List.Forall₂ (Renumbered args args') ops ops') (top : I128) (stack : Stack) :
    runOps args ops top stack = runOps args' ops' top stack := by
  induction h generalizing top stack with
  | nil => rfl
  | cons hop _ ih =>
    rw [runOps, hop.evalFromStack_eq]
    exact congrArg _ (funext fun r => ih r.1 r.2)

lemma Pushes.renumber {args : Args} {d : ℕ}
    (hx : Pushes args ops x d) (h : List.Forall₂ (Renumbered args args') ops ops') :
    Pushes args' ops' x d where
  pos := hx.pos
  run hfits := (runOps_renumbered h _ _).symm.trans (hx.run hfits)
  full hstack hfull r hr :=
    hx.full hstack hfull r ((runOps_renumbered h _ _).trans hr)

lemma addU16_eq {a b : U16} (h : a.toNat + b.toNat < 2 ^ 16) :
    addU16 a b = .ok (a + b) ∧ (a + b).toNat = a.toNat + b.toNat := by
  refine ⟨if_pos h, ?_⟩
  exact Nat.mod_eq_of_lt h

lemma toNat_asU16 {n : ℕ} (h : n < 2 ^ 16) : (asU16 n).toNat = n := by
  exact Nat.mod_eq_of_lt h

variable {α : Type}

lemma getElem?_segment (front mid back : List α) {i : ℕ} (hi : i < mid.length) :
    (front ++ mid ++ back)[i + front.length]? = mid[i]? := by
  rw [append_assoc, getElem?_append_right (Nat.le_add_left ..), Nat.add_sub_cancel,
    getElem?_append_left hi]

variable {xs : List I128}

/-- Renumbering the holes for arguments that become a segment of a longer list. -/
lemma mapM_shiftHole (hholes : ∀ n, Op.hole n ∈ ops → n.toNat < xs.length)
    (front back : List I128) (hbound : front.length + xs.length < 2 ^ 16) :
    ∃ ops', ops.mapM (Op.shiftHole (asU16 front.length)) = .ok ops' ∧
      List.Forall₂ (Renumbered (indexArgs xs) (indexArgs (front ++ xs ++ back))) ops ops' := by
  have hoffset : (asU16 front.length).toNat = front.length := toNat_asU16 (by omega)
  refine exists_mapM_eq_ok fun op hop => ?_
  by_cases hhole : ∃ n, op = .hole n
  · obtain ⟨n, rfl⟩ := hhole
    have hn := hholes n hop
    obtain ⟨hadd, hval⟩ := addU16_eq (a := n) (b := asU16 front.length) (by omega)
    refine ⟨.hole (n + asU16 front.length), ?_, .hole ?_⟩
    · rw [Op.shiftHole, hadd]
      rfl
    · unfold indexArgs
      rw [hval, hoffset, getElem?_segment front xs back hn]
  · refine ⟨op, ?_, .other fun n hn => hhole ⟨n, hn⟩⟩
    cases op with
    | hole n => exact absurd ⟨n, rfl⟩ hhole
    | _ => rfl

/-! ## Arguments -/

/-- The arguments differ by an offset of the number of a constant. -/
inductive Arg.ShiftedBy (offset : ℕ) : Arg → Arg → Prop
  | const {index index' : U16} (h : index'.toNat = index.toNat + offset) :
      ShiftedBy offset (.const index) (.const index')
  | input (index numBits : U8) (encoding : ArgEncoding) :
      ShiftedBy offset (.input index numBits encoding) (.input index numBits encoding)
  | tinyConst (v : U16) : ShiftedBy offset (.tinyConst v) (.tinyConst v)

lemma Arg.shiftedBy_zero (arg : Arg) : ShiftedBy 0 arg arg := by
  cases arg with
  | input index numBits encoding => exact .input ..
  | tinyConst v => exact .tinyConst v
  | const index => exact .const rfl

lemma Arg.ShiftedBy.trans {m n : ℕ} {a b c : Arg} (hab : ShiftedBy m a b) (hbc : ShiftedBy n b c) :
    ShiftedBy (m + n) a c := by
  cases hab with
  | input => cases hbc with | input => exact .input ..
  | tinyConst => cases hbc with | tinyConst => exact .tinyConst _
  | const h =>
    cases hbc with
    | const h' => exact .const (by omega)

variable {inputs : List OwnedValue} {v : I128} {consts : List I128} {consts' : List I128}
  {offset : ℕ}

/-- A shifted argument is interpreted as before, among constants that are shifted as well. -/
lemma Arg.ShiftedBy.interpretInputs_eq {arg arg' : Arg} (h : ShiftedBy offset arg arg')
    (hconsts : ∀ i < consts.length, consts'[i + offset]? = consts[i]?)
    (hv : arg.interpretInputs inputs consts = .ok v) :
    arg'.interpretInputs inputs consts' = .ok v := by
  cases h with
  | input => exact hv
  | tinyConst => exact hv
  | @const index index' hindex =>
    rw [interpretInputs] at hv ⊢
    by_cases hlt : index.toNat < consts.length
    · rw [hindex, hconsts _ hlt]
      exact hv
    · rw [getElem?_eq_none (Nat.le_of_not_lt hlt)] at hv
      cases hv

lemma exists_shiftConst {arg : Arg} (hv : arg.interpretInputs inputs consts = .ok v) (offset : ℕ)
    (hbound : consts.length + offset < 2 ^ 16) :
    ∃ arg', arg.shiftConst (asU16 offset) = .ok arg' ∧ arg.ShiftedBy offset arg' := by
  cases arg with
  | input index numBits encoding => exact ⟨_, rfl, .input ..⟩
  | tinyConst v => exact ⟨_, rfl, .tinyConst v⟩
  | const index =>
    have hlt : index.toNat < consts.length := by
      by_contra hge
      rw [interpretInputs, getElem?_eq_none (Nat.le_of_not_lt hge)] at hv
      cases hv
    have hoffset : (asU16 offset).toNat = offset := toNat_asU16 (by omega)
    obtain ⟨hadd, hval⟩ := addU16_eq (a := index) (b := asU16 offset) (by omega)
    refine ⟨.const (index + asU16 offset), ?_, .const (by rw [hval, hoffset])⟩
    rw [shiftConst, hadd]
    rfl

variable {args : List Arg} {args' : List Arg} {c : SynthesizedComputation} {t : FastOp}

/-- Interpreting shifted arguments. -/
lemma mapM_interpretInputs_shifted (h : List.Forall₂ (ShiftedBy offset) args args')
    (hconsts : ∀ i < consts.length, consts'[i + offset]? = consts[i]?)
    (hxs : args.mapM (interpretInputs inputs consts) = .ok xs) :
    args'.mapM (interpretInputs inputs consts') = .ok xs := by
  rw [mapM_eq_ok_iff] at hxs ⊢
  induction h generalizing xs with
  | nil =>
    cases hxs
    exact .nil
  | cons harg _ ih =>
    cases hxs with
    | cons hx hxs => exact .cons (harg.interpretInputs_eq hconsts hx) (ih hxs)

lemma mapM_append_eq_ok {β : Type} {f : α → Partial β} {l₁ l₂ : List α} {m₁ m₂ : List β}
    (h₁ : l₁.mapM f = .ok m₁) (h₂ : l₂.mapM f = .ok m₂) : (l₁ ++ l₂).mapM f = .ok (m₁ ++ m₂) := by
  rw [mapM_append, h₁, h₂]
  rfl

/-- Renumbering the constants of the arguments of a computation that can be evaluated. -/
lemma exists_mapM_shiftConst (hxs : args.mapM (interpretInputs inputs consts) = .ok xs)
    (offset : ℕ) (hbound : consts.length + offset < 2 ^ 16) :
    ∃ args', args.mapM (shiftConst (asU16 offset)) = .ok args' ∧
      List.Forall₂ (ShiftedBy offset) args args' := by
  refine exists_mapM_eq_ok fun arg harg => ?_
  obtain ⟨x, hx⟩ := exists_of_mem_of_mapM hxs harg
  exact exists_shiftConst hx offset hbound

/-- Renumbering them twice. -/
lemma exists_mapM_shiftConst_twice (hxs : args.mapM (interpretInputs inputs consts) = .ok xs)
    (m n : ℕ) (hbound : consts.length + m + n < 2 ^ 16) :
    ∃ args', (args.mapM fun arg => arg.shiftConst (asU16 m) >>= shiftConst (asU16 n)) =
        .ok args' ∧ List.Forall₂ (ShiftedBy (m + n)) args args' := by
  refine exists_mapM_eq_ok fun arg harg => ?_
  obtain ⟨x, hx⟩ := exists_of_mem_of_mapM hxs harg
  obtain ⟨arg₁, harg₁, hshift₁⟩ := exists_shiftConst hx m (by omega)
  have hx₁ : arg₁.interpretInputs inputs (List.replicate m 0 ++ consts) = .ok x := by
    refine hshift₁.interpretInputs_eq (fun i _ => ?_) hx
    rw [getElem?_append_right (by rw [length_replicate]; omega),
      length_replicate, Nat.add_sub_cancel]
  obtain ⟨arg₂, harg₂, hshift₂⟩ := exists_shiftConst hx₁ n
    (by rw [length_append, length_replicate]; omega)
  refine ⟨arg₂, ?_, hshift₁.trans hshift₂⟩
  rw [harg₁, ok_bind, harg₂]

/-- Constants that become a segment of a longer list. -/
theorem mapM_interpretInputs_segment {front : List I128}
    (h : List.Forall₂ (ShiftedBy front.length) args args')
    (hxs : args.mapM (interpretInputs inputs consts) = .ok xs) (back : List I128) :
    args'.mapM (interpretInputs inputs (front ++ consts ++ back)) = .ok xs :=
  mapM_interpretInputs_shifted h (fun _ hi => getElem?_segment front consts back hi) hxs

/-! ## Chaining -/

/-- The operations differ in the numbers of their holes only, which stand for the same argument in
both lists. -/
inductive Relocated (args args' : List Arg) : Op → Op → Prop
  | hole {n n' : U16} (hlt : n.toNat < args.length)
      (h : args'[n'.toNat]? = args[n.toNat]?) : Relocated args args' (.hole n) (.hole n')
  | other {op : Op} (h : ∀ n, op ≠ .hole n) : Relocated args args' op op

lemma chainOps_other {selfArgs : List Arg} (hop : ∀ n, op ≠ .hole n) (ops : List Op)
    (args : List Arg) : chainOps selfArgs (op :: ops) args =
      chainOps selfArgs ops args >>= fun r => .ok (op :: r.1, r.2) := by
  cases op with
  | hole n => exact absurd rfl (hop n)
  | _ => rfl

/-- Where a hole of `chain` goes: the argument is in the list already or comes to its end. -/
lemma exists_position (arg : Arg) (args : List Arg) :
    ∃ index args', positionOf arg args = (index, args') ∧
      args'[index]? = some arg ∧ (args' = args ∨ (args' = args ++ [arg] ∧ arg ∉ args)) := by
  unfold positionOf
  cases hfind : args.findIdx? (· = arg) with
  | some index =>
    obtain ⟨hlt, heq, _⟩ := findIdx?_eq_some_iff_getElem.mp hfind
    refine ⟨index, args, rfl, ?_, .inl rfl⟩
    rw [getElem?_eq_getElem hlt]
    exact congrArg some (of_decide_eq_true heq)
  | none =>
    refine ⟨args.length, args ++ [arg], rfl, by simp, .inr ⟨rfl, fun hmem => ?_⟩⟩
    have hne := findIdx?_eq_none_iff.mp hfind arg hmem
    simp at hne

/-- The holes of `self` are renumbered to arguments that are equal to those of `self`. -/
lemma chainOps_spec (selfArgs base extra : List Arg)
    (hbound : base.length + selfArgs.length < 2 ^ 16)
    (hholes : ∀ n, Op.hole n ∈ ops → n.toNat < selfArgs.length) (hnodup : extra.Nodup)
    (hsub : extra ⊆ selfArgs) :
    ∃ ops' extra', chainOps selfArgs ops (base ++ extra) =
        .ok (ops', base ++ extra') ∧ extra <+: extra' ∧ extra' ⊆ selfArgs ∧
      List.Forall₂ (Relocated selfArgs (base ++ extra')) ops ops' := by
  induction ops generalizing extra with
  | nil => exact ⟨[], extra, rfl, prefix_refl _, hsub, .nil⟩
  | cons op ops ih =>
    have hops : ∀ n, Op.hole n ∈ ops → n.toNat < selfArgs.length := fun n hn =>
      hholes n (.tail _ hn)
    by_cases hop : ∃ n, op = .hole n
    · obtain ⟨n, rfl⟩ := hop
      have hlt := hholes n (.head _)
      have hget : selfArgs[n.toNat]? = some selfArgs[n.toNat] := getElem?_eq_getElem hlt
      obtain ⟨index, args', hpos, hindex, hargs'⟩ :=
        exists_position selfArgs[n.toNat] (base ++ extra)
      -- the list after this hole, as the base and the arguments added so far
      obtain ⟨extra₁, rfl, hnodup₁, hsub₁, hprefix⟩ : ∃ extra₁, args' = base ++ extra₁ ∧
          extra₁.Nodup ∧ extra₁ ⊆ selfArgs ∧ extra <+: extra₁ := by
        rcases hargs' with rfl | ⟨rfl, hnew⟩
        · exact ⟨extra, rfl, hnodup, hsub, prefix_refl _⟩
        · refine ⟨extra ++ [selfArgs[n.toNat]], append_assoc .., ?_, ?_,
            prefix_append _ _⟩
          · rw [nodup_append]
            refine ⟨hnodup, nodup_singleton _, fun a ha b hb hab => hnew ?_⟩
            rw [mem_singleton] at hb
            rw [← hb, ← hab]
            exact mem_append_right _ ha
          · rw [append_subset]
            exact ⟨hsub, by simp⟩
      have hlen : index < base.length + selfArgs.length := by
        have hle := (hnodup₁.subperm hsub₁).length_le
        have hlt := lt_of_getElem? hindex
        rw [length_append] at hlt
        omega
      have hu16 : indexAsU16 index = .ok (BitVec.ofNat 16 index) := if_pos (by omega)
      obtain ⟨ops', extra', hchain, hpre, hsub', hrel⟩ := ih extra₁ hops hnodup₁ hsub₁
      refine ⟨.hole (BitVec.ofNat 16 index) :: ops', extra', ?_, hprefix.trans hpre, hsub',
        .cons (.hole hlt ?_) hrel⟩
      · rw [chainOps, hget, orPanic_some, ok_bind, hpos]
        simp only [hu16, hchain]
        rfl
      · have hval : (BitVec.ofNat 16 index).toNat = index := toNat_asU16 (by omega)
        have hin := lt_of_getElem? hindex
        obtain ⟨rest, rfl⟩ := hpre
        rw [hval, hget, ← append_assoc, getElem?_append_left hin, hindex]
    · have hne : ∀ n, op ≠ .hole n := fun n hn => hop ⟨n, hn⟩
      obtain ⟨ops', extra', hchain, hpre, hsub', hrel⟩ := ih extra hops hnodup hsub
      refine ⟨op :: ops', extra', ?_, hpre, hsub', .cons (.other hne) hrel⟩
      rw [chainOps_other hne, hchain, ok_bind]

/-- Relocated holes read the same values, if equal arguments are interpreted alike. -/
lemma Relocated.renumbered {f f' : Arg → Partial I128} {xs' : List I128}
    (hxs : args.mapM f = .ok xs) (hxs' : args'.mapM f' = .ok xs')
    (hf : ∀ arg v, f arg = .ok v → f' arg = .ok v) (h : Relocated args args' op op') :
    Renumbered (indexArgs xs) (indexArgs xs') op op' := by
  cases h with
  | other h => exact .other h
  | @hole n n' hlt h =>
    refine .hole ?_
    have hget : args[n.toNat]? = some args[n.toNat] := getElem?_eq_getElem hlt
    obtain ⟨v, hv, hx⟩ := exists_getElem?_of_mapM hxs hget
    obtain ⟨v', hv', hx'⟩ := exists_getElem?_of_mapM hxs' (h.trans hget)
    have hvv : v = v' := ok_unique (hf _ _ hv) hv'
    unfold indexArgs
    rw [hx, hx', hvv]

/-- Operations keep their meaning when more arguments follow. -/
lemma renumbered_append (hholes : ∀ n, Op.hole n ∈ ops → n.toNat < xs.length) (ys : List I128) :
    List.Forall₂ (Renumbered (indexArgs xs) (indexArgs (xs ++ ys))) ops ops := by
  refine List.forall₂_same.mpr fun op hop => ?_
  by_cases hhole : ∃ n, op = .hole n
  · obtain ⟨n, rfl⟩ := hhole
    refine .hole ?_
    unfold indexArgs
    rw [getElem?_append_left (hholes n hop)]
  · exact .other fun n hn => hhole ⟨n, hn⟩

/-! ## Evaluating a computation -/

/-- The operations of a computation are the nodes `t` in postfix order, and a compiled evaluator
agrees with them. -/
structure WellFormed (c : SynthesizedComputation) (t : FastOp) : Prop where
  noVal : t.NoVal
  ops_eq : c.expr.ops = t.flatten
  fastEval : ∀ fast ∈ c.expr.fastEval, ∀ args,
    SameOutcome (fast.eval args) (evaluateOnStack c.expr.ops args)

/-- Operations that push a value evaluate to it if the stack is large enough. -/
theorem Pushes.evaluate_eq_ok_iff {args : Args} {d : ℕ} (hx : Pushes args ops x d) :
    evaluateIndirectOnStack ops args = .ok v ↔ d ≤ stackCapacity ∧ x = .ok v := by
  unfold evaluateIndirectOnStack
  by_cases hfits : d ≤ stackCapacity
  · have hrun : runOps args ops 0 [] = x >>= fun v => .ok (v, [0]) :=
      hx.run (by rw [length_nil, Nat.zero_add]; exact hfits)
    rw [hrun, bind_assoc, and_iff_right hfits]
    exact Iff.of_eq (congrArg (· = ok v) (bind_pure x))
  · constructor
    · intro h
      obtain ⟨r, hr, _⟩ := ok_of_bind h
      refine absurd hr (hx.full (Nat.zero_le _) ?_ r)
      rw [length_nil, Nat.zero_add]
      exact Nat.lt_of_not_le hfits
    · rintro ⟨h, _⟩
      exact absurd h hfits

lemma Expr.evaluate_eq_ok_iff (h : WellFormed c t) {args : List I128} {x : I128} :
    c.expr.evaluate args = .ok x ↔
      t.depth ≤ stackCapacity ∧ t.compute (indexArgs args) = .ok x := by
  have hstack : evaluateOnStack c.expr.ops args = .ok x ↔
      t.depth ≤ stackCapacity ∧ t.compute (indexArgs args) = .ok x := by
    rw [h.ops_eq]
    exact (pushes_flatten h.noVal (indexArgs args)).evaluate_eq_ok_iff
  unfold Expr.evaluate
  cases hfast : c.expr.fastEval with
  | none => exact hstack
  | some fast => exact (h.fastEval fast hfast args).eq_ok_iff.trans hstack

/-- What a computation has computed when it has a value. -/
structure Evaluates (c : SynthesizedComputation) (t : FastOp) (inputs : List OwnedValue)
    (v : OwnedValue) (o : OutputType) (args : List I128) (x : I128) : Prop where
  outputType : OutputType.constFrom c.outputType = .ok o
  mapM_args : c.argInterpretation.mapM (Arg.interpretInputs inputs c.consts) = .ok args
  depth_le : t.depth ≤ stackCapacity
  compute : t.compute (indexArgs args) = .ok x
  value : output o c.outputEncoding x = v

lemma evaluate_eq_ok_iff (h : WellFormed c t) {v : OwnedValue} :
    c.evaluate inputs = .ok v ↔ ∃ o args x, Evaluates c t inputs v o args x := by
  unfold evaluate asInternal
  constructor
  · intro heval
    obtain ⟨r, hr, heval⟩ := ok_of_bind heval
    obtain ⟨o, ho, rfl⟩ := ok_of_bind_ok hr
    obtain ⟨args, x, hargs, hx, heval⟩ := ok_of_bind₂ heval
    obtain ⟨hdepth, hcompute⟩ := (Expr.evaluate_eq_ok_iff h).mp hx
    exact ⟨o, args, x, ho, hargs, hdepth, hcompute, ok.inj heval⟩
  · rintro ⟨o, args, x, ho, hargs, hdepth, hcompute, rfl⟩
    have hx := (Expr.evaluate_eq_ok_iff h).mpr ⟨hdepth, hcompute⟩
    rw [ho]
    change (c.argInterpretation.mapM (interpretInputs inputs c.consts) >>= fun args =>
      c.expr.evaluate args >>= fun x => .ok (output o c.outputEncoding x)) = _
    rw [hargs, ok_bind, hx, ok_bind]

end LibLisa.Semantics
