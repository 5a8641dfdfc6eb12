import LibLisa.Instr.CounterRun

/-!
# Skipping invalid instructions in groups

The model of `tunnel_invalid_instrs` in `skip/tunnel.rs`. After an invalid instruction the loop asks
for the validity of a whole group (`next_happy_group`): the instructions that differ from the current
one in the byte at the tunnel position. It then steps through the group, and asserts before every
step that the counter is where the group says. That is always so (`tunnelInvalidInstrs_agrees`): the
last call of `tunnel_next` has left the tunnel position at the end of the instruction, or has
counted so many calls that later ones do not reset it (`Aligned`).

The validities are an arbitrary sequence of answers. There are no filters, so one round of
`apply_filters_to_current` is enough.
-/

namespace LibLisa

open Lib Except

/-- Source: `validity.rs`, `Validity` -/
inductive Validity where
  | tooShort
  | tooLong
  | invalidInstruction
  | excluded
  | error
  | ok

/-- The answers after which the counter tunnels. -/
def Validity.isInvalid : Validity → Bool
  | .invalidInstruction | .excluded | .error => true
  | .tooShort | .tooLong | .ok => false

namespace InstructionCounter

/-- The counter with another byte at the tunnel position. -/
def withByte (c : InstructionCounter) (byte : U8) : InstructionCounter :=
  { c with data := c.data.setIfInBounds c.tunnelPos byte }

/-- Source: `instr/counter.rs`, `InstructionCounter::next_happy_group` -/
def nextHappyGroup (c : InstructionCounter) : Partial (Option (List Instruction)) := do
  let byte ← orPanic .indexOutOfBounds c.data[c.tunnelPos]?
  if byte < 220 then
    some <$> (List.range' byte.toNat (256 - byte.toNat)).mapM fun b => (c.withByte (.ofNat 8 b)).current
  else return none

/-- What an answer does to the counter; `false` leaves all loops. -/
def answer (c : InstructionCounter) : Validity → Partial (Bool × InstructionCounter)
  | .tooShort => c.extend 1 ⟨[]⟩ false
  | .tooLong => c.reduce 1 ⟨[]⟩ false
  | .ok => return (false, c)
  | .invalidInstruction | .excluded | .error => c.tunnelNext 1 ⟨[]⟩ 200

end InstructionCounter

/-- The failed assertion, or a panic of a function that the loop calls. -/
inductive Tunnel.Stop where
  | assertEq (instr current : Instruction)
  | panic (e : Abort)

/-- The variables of `tunnel_invalid_instrs`, and the number of answers so far. -/
structure Tunnel where
  counter : InstructionCounter
  asked : ℕ
  steps : ℕ
  canGoFast : Bool

namespace Tunnel

/-- A call of a function that can panic. -/
def call {α : Type} (x : Partial α) : Except Stop α := x.mapError .panic

variable (answers : ℕ → Validity)

/-- One answer. The loop may go on in groups if the instruction was invalid. -/
def single (t : Tunnel) : Except Stop (Bool × Tunnel) := do
  let _ ← call t.counter.current
  let (more, counter) ← call (t.counter.answer (answers t.asked))
  return (more, ⟨counter, t.asked + 1, t.steps + 1, (answers t.asked).isInvalid⟩)

/-- The loop over a group. It is left at the first answer that changes the length. -/
def group : List Instruction → Tunnel → Except Stop (Bool × Tunnel)
  | [], t => return (true, t)
  | instr :: rest, t => do
    let current ← call t.counter.current
    if instr ≠ current then throw (.assertEq instr current)
    let (more, t) ← t.single answers
    if more && t.canGoFast then group rest t else return (more, t)

/-- One round of the inner loop. -/
def round (t : Tunnel) : Except Stop (Bool × Tunnel) := do
  match t.canGoFast, ← call t.counter.nextHappyGroup with
  | true, some next256 => t.group answers next256
  | _, _ => t.single answers

/-- `while steps < 500_000`, up to `fuel` rounds. -/
def loop : ℕ → Tunnel → Except Stop (Bool × Tunnel)
  | 0, _ => .error (.panic .outOfFuel)
  | fuel + 1, t => do
    if t.steps < 500000 then
      let (more, t) ← t.round answers
      if more then loop fuel t else return (false, t)
    else return (true, t)

/-- `for _ in 0..n` -/
def rounds (fuel : ℕ) : ℕ → Tunnel → Except Stop InstructionCounter
  | 0, t => return t.counter
  | n + 1, t => do
    let (more, t) ← loop answers fuel { t with steps := 0, canGoFast := false }
    if more then
      let _ ← call t.counter.current
      rounds fuel n t
    else return t.counter

end Tunnel

/-- Source: `skip/tunnel.rs`, `tunnel_invalid_instrs` -/
def tunnelInvalidInstrs (fuel : ℕ) (answers : ℕ → Validity) (counter : InstructionCounter) :
    Except Tunnel.Stop InstructionCounter := do
  let _ ← Tunnel.call counter.current
  Tunnel.rounds answers fuel 200 ⟨counter, 0, 0, false⟩

/-! ## One step of the counter -/

namespace InstructionCounter

variable {c c' : InstructionCounter} {v : U8}

/-- The tunnel position is inside the instruction, and the next call of `tunnel_next` keeps it. -/
structure Aligned (c : InstructionCounter) : Prop where
  tunnelPos_lt : c.tunnelPos < c.len
  last_or_late : c.tunnelPos + 1 = c.len ∨ 200 ≤ c.numTunneled

/-- Without filters, `apply_filters_to_current` leaves the counter alone. -/
lemma eq_of_applyFiltersToCurrent {r : Bool × InstructionCounter}
    (h : c.applyFiltersToCurrent 1 ⟨[]⟩ false = .ok r) : r.2 = c := by
  unfold applyFiltersToCurrent at h
  split at h
  · rw [← ok.inj h]
  obtain ⟨c1, hext, h⟩ := ok_of_bind h
  have hc1 : c1 = c := by
    rw [extendUnless, if_neg Bool.false_ne_true] at hext
    cases hn : 32 - c.len <;>
    · rw [hn, extendWhile] at hext
      obtain ⟨_, -, hext⟩ := ok_of_bind hext
      exact (ok.inj hext).symm
  obtain ⟨_, -, h⟩ := ok_of_bind h
  rw [← ok.inj h, hc1]

/-- A step to the next instruction ends in an aligned counter. -/
lemma aligned_of_tunnelNext (h : c.tunnelNext 1 ⟨[]⟩ 200 = .ok (true, c')) : c'.Aligned := by
  obtain ⟨c1, h1, h⟩ := ok_of_bind h
  obtain ⟨-, -, hpos1⟩ := startTunnel_spec h1
  obtain ⟨⟨more, c2⟩, h2, h⟩ := ok_of_bind h
  obtain ⟨hlen, hpos, -⟩ := (nextSingle_spec c1).of_ok h2
  cases more with
  | false => cases h
  | true =>
    obtain rfl : c' = _ := eq_of_applyFiltersToCurrent h
    rw [cutAtTunnelPos]
    split
    · exact ⟨Nat.lt_succ_self _, .inl rfl⟩
    next hlate =>
      simp only at hlen hpos
      exact ⟨by omega, .inr (not_lt.mp hlate)⟩

lemma withByte_self (hv : c.data[c.tunnelPos]? = some v) : c.withByte v = c := by
  obtain ⟨hlt, rfl⟩ := Vector.getElem?_eq_some_iff.mp hv
  have hset : c.data.setIfInBounds c.tunnelPos c.data[c.tunnelPos] = c.data := by
    ext i hi
    rw [Vector.getElem_setIfInBounds]
    split
    · next h => simp only [h]
    · rfl
  rw [withByte, hset]

/-- The byte at the tunnel position is counted as long as it does not overflow. -/
lemma eq_of_tunnelNext (hc : c.Aligned) (hv : c.data[c.tunnelPos]? = some v) (hne : v ≠ 0xff)
    (h : c.tunnelNext 1 ⟨[]⟩ 200 = .ok (true, c')) :
    c' = { c.withByte (v + 1) with numTunneled := c.numTunneled + 1 } := by
  obtain ⟨hlt, hlast⟩ := hc
  obtain ⟨c1, h1, h⟩ := ok_of_bind h
  obtain rfl : c1 = { c with numTunneled := c.numTunneled + 1 } := by
    unfold startTunnel at h1
    split_ifs at h1 with _ hcond
    · cases h1
      rw [show c.len - 1 = c.tunnelPos by omega]
    · exact (ok.inj h1).symm
  obtain ⟨⟨more, c2⟩, h2, h⟩ := ok_of_bind h
  have hinc : increment c.tunnelPos c.data =
      .ok (some (c.data.setIfInBounds c.tunnelPos (v + 1), c.tunnelPos)) := by
    cases hp : c.tunnelPos <;>
    · rw [hp] at hv
      rw [increment, hv]
      exact if_pos hne
  obtain rfl : c2 = { c.withByte (v + 1) with numTunneled := c.numTunneled + 1 } := by
    simp only [nextSingle, hinc, ok_bind] at h2
    split at h2
    · obtain ⟨_, -, h2⟩ := ok_of_bind h2
      exact (ok_pair_inj h2).2.symm
    · exact (ok_pair_inj h2).2.symm
  cases more with
  | false => cases h
  | true =>
    obtain rfl : c' = _ := eq_of_applyFiltersToCurrent h
    rw [cutAtTunnelPos]
    split
    next hearly =>
      simp only [withByte] at hearly ⊢
      rw [show c.tunnelPos + 1 = c.len by omega]
    next => rfl

end InstructionCounter

/-! ## The groups -/

namespace Tunnel

open InstructionCounter

variable {answers : ℕ → Validity} {t : Tunnel}

/-- The loop has not stopped at the assertion. -/
def Stop.IsPanic (s : Stop) : Prop := ∃ e, s = .panic e

lemma call_spec {α : Type} (x : Partial α) : Ensures (call x) Stop.IsPanic fun a => x = .ok a := by
  cases x with
  | ok a => rfl
  | error e => exact ⟨e, rfl⟩

/-- A state that goes on in groups has an aligned counter. -/
def Ready (r : Bool × Tunnel) : Prop :=
  r.1 = true → r.2.canGoFast = true → r.2.counter.Aligned

/-- An answer that lets the loop go on in groups is a step to the next instruction. -/
lemma single_spec (answers : ℕ → Validity) (t : Tunnel) :
    Ensures (t.single answers) Stop.IsPanic fun r => r.1 = true → r.2.canGoFast = true →
      t.counter.tunnelNext 1 ⟨[]⟩ 200 = .ok (true, r.2.counter) := by
  refine (call_spec _).bind fun _ _ => (call_spec _).bind ?_
  rintro ⟨more, c⟩ hanswer rfl hfast
  simp only at hfast ⊢
  cases h : answers t.asked <;> rw [h] at hanswer hfast <;> first | exact hanswer | cases hfast

lemma ready_single (answers : ℕ → Validity) (t : Tunnel) :
    Ensures (t.single answers) Stop.IsPanic Ready :=
  (single_spec answers t).imp fun _ h hmore hfast => aligned_of_tunnelNext (h hmore hfast)

/-- Step by step, the counter is where the group says. -/
lemma ready_group {n : ℕ} {v : U8} {next : List Instruction} (hn : v.toNat + n = 256)
    (hv : t.counter.data[t.counter.tunnelPos]? = some v) (ht : t.counter.Aligned)
    (hnext : List.Forall₂ (fun b x => (t.counter.withByte (.ofNat 8 b)).current = .ok x)
      (List.range' v.toNat n) next) : Ensures (t.group answers next) Stop.IsPanic Ready := by
  induction n generalizing v t next with
  | zero => exact absurd v.isLt (by omega)
  | succ n ih =>
    rw [List.range'_succ] at hnext
    obtain _ | @⟨_, x, _, rest, hx, hrest⟩ := hnext
    rw [BitVec.ofNat_toNat, BitVec.setWidth_eq, withByte_self hv] at hx
    rw [group, hx, call, Except.mapError, ok_bind, if_neg (not_not.mpr rfl)]
    refine (single_spec answers t).bind ?_
    rintro ⟨more, t'⟩ hstep
    show Ensures (if more && t'.canGoFast then t'.group answers rest else pure (more, t')) _ _
    split
    next hgo =>
      rw [Bool.and_eq_true] at hgo
      have hstep := hstep hgo.1 hgo.2
      have halign := aligned_of_tunnelNext hstep
      rcases Nat.eq_zero_or_pos n with rfl | hpos
      · cases hrest
        exact fun _ _ => halign
      have hcounter := eq_of_tunnelNext ht hv (by bv_omega) hstep
      have hvn : (v + 1).toNat = v.toNat + 1 := by bv_omega
      refine ih (v := v + 1) (by omega) ?_ halign ?_
      · rw [hcounter]
        exact Vector.getElem?_setIfInBounds_self_of_lt (Vector.getElem?_eq_some_iff.mp hv).1
      · rw [hvn]
        refine hrest.imp fun b y hy => ?_
        rw [hcounter, ← hy]
        simp [withByte, current]
    next => exact fun hmore hfast => aligned_of_tunnelNext (hstep hmore hfast)

lemma ready_round (ht : t.canGoFast = true → t.counter.Aligned) :
    Ensures (t.round answers) Stop.IsPanic Ready := by
  refine (call_spec _).bind fun next hnext => ?_
  split
  next next256 hfast =>
    obtain ⟨v, hv, hnext⟩ := ok_of_bind hnext
    split at hnext
    · obtain ⟨next, hmap, hnext⟩ := map_eq_ok_iff.mp hnext
      cases hnext
      exact ready_group (by omega) (eq_some_of_orPanic hv) (ht hfast) (mapM_eq_ok_iff.mp hmap)
    · cases hnext
  next => exact ready_single answers t

lemma ready_loop {fuel : ℕ} (ht : t.canGoFast = true → t.counter.Aligned) :
    Ensures (loop answers fuel t) Stop.IsPanic fun _ => True := by
  induction fuel generalizing t with
  | zero => exact ⟨_, rfl⟩
  | succ fuel ih =>
    rw [loop]
    split
    · refine (ready_round ht).bind ?_
      rintro ⟨more, t'⟩ hready
      cases more with
      | false => trivial
      | true => exact ih (hready rfl)
    · trivial

lemma isPanic_rounds (fuel n : ℕ) (t : Tunnel) :
    Ensures (rounds answers fuel n t) Stop.IsPanic fun _ => True := by
  induction n generalizing t with
  | zero => trivial
  | succ n ih =>
    refine (ready_loop fun h => absurd h Bool.false_ne_true).bind ?_
    rintro ⟨more, t'⟩ -
    cases more with
    | false => trivial
    | true => exact (call_spec _).bind fun _ _ => ih t'

end Tunnel

/-- For every counter and every sequence of answers, the counter is where the group says in every
step of every group, for any number of rounds: the assertion does not fail. -/
theorem tunnelInvalidInstrs_agrees (fuel : ℕ) (answers : ℕ → Validity)
    (counter : InstructionCounter) (instr current : Instruction) :
    tunnelInvalidInstrs fuel answers counter ≠ .error (.assertEq instr current) := by
  intro h
  have hpanic : Ensures (tunnelInvalidInstrs fuel answers counter) Tunnel.Stop.IsPanic fun _ => True :=
    (Tunnel.call_spec _).bind fun _ _ => Tunnel.isPanic_rounds fuel 200 _
  obtain ⟨e, he⟩ := hpanic.of_error h
  cases he

end LibLisa
