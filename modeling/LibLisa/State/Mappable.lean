import LibLisa.State.Readdress

/-!
# Generated and adapted states are mappable

`StateGen.Mappable` says what a state needs for its memory to be mapped: every entry is at the
address that its access computes, that address can be mapped and is aligned, the access stays on one
page, and no two entries conflict.

Every state that is generated is mappable, whatever the random source yields. For `adapt` this rests
on the flag `contains_valid_addrs`: from a state on which the flag tells the truth, every sequence
of changes to the registers and calls of `adapt` leads to a mappable state whenever a call returns
true.
-/

namespace LibLisa.State

open Lib Encoding List Except

/-- Every entry can be mapped where its access needs it. -/
structure StateGen.Mappable {A : Arch} (g : StateGen A) (s : SystemState A) : Prop where
  computed : ∀ i e access, g.IsEntry s.memory i e access →
    computeAddress access s.cpu = .ok e.addr
  canMap : ∀ i e access, g.IsEntry s.memory i e access → g.canMap e.addr = true
  aligned : ∀ i e access, g.IsEntry s.memory i e access → access.alignment ∣ e.addr.toNat
  inPage : ∀ i e access, g.IsEntry s.memory i e access →
    Area.InPage A.pageBits ⟨e.addr, access.size.2⟩
  disjoint : ∀ i j e e' access access', i ≠ j → g.IsEntry s.memory i e access →
    g.IsEntry s.memory j e' access' →
    ¬ Area.Overlap ⟨e.addr, access.size.2⟩ ⟨e'.addr, access'.size.2⟩
  pages_ne : ∀ i j e e' access access', i ≠ j → g.IsEntry s.memory i e access →
    g.IsEntry s.memory j e' access' → StateGen.permsCompatible e.perms e'.perms = false →
    e.addr.toNat / 2 ^ A.pageBits.val ≠ e'.addr.toNat / 2 ^ A.pageBits.val

namespace StateGen

variable {A : Arch} {g : StateGen A} {s s' : SystemState A} {k len : ℕ}

/-! ## What the checks mean -/

/-- No access is larger than a page. -/
def SizesFit (g : StateGen A) : Prop :=
  ∀ access ∈ g.accesses.memory, access.size.2.toNat ≤ 2 ^ A.pageBits.val

variable {index : ℕ} {canMap : U64 → Bool}

lemma size_le_of_constraintOf {memory : List (MemoryAccess A.Reg)} {m : MemoryAccess A.Reg}
    {c : Constraint} (h : constraintOf canMap memory m index = .ok c) (hc : c ≠ .impossible) :
    m.size.2.toNat ≤ 2 ^ A.pageBits.val := by
  unfold constraintOf at h
  split at h
  · exact absurd (ok.inj h).symm hc
  obtain ⟨most, hmost, -⟩ := ok_of_bind h
  unfold subU64 at hmost
  split at hmost
  next hle =>
    rw [Area.toNat_pageSize] at hle
    exact hle
  next => cases hmost

lemma sizesFit_of_new {accesses : MemoryAccesses A.Reg}
    (h : StateGen.new accesses canMap = .ok (.ok g)) : g.SizesFit := by
  obtain ⟨constraints, hconstraints, h⟩ := ok_of_bind h
  split at h
  · cases h
  next hnone =>
    obtain ⟨crossing, -, h⟩ := ok_of_bind h
    split at h
    · cases h
    · obtain ⟨registers, -, h⟩ := ok_of_bind h
      obtain rfl := ok.inj (ok.inj h)
      intro access haccess
      obtain ⟨i, hi⟩ := mem_iff_getElem?.mp haccess
      have hzip : accesses.memory.zipIdx[i]? = some (access, i) := by
        rw [getElem?_zipIdx, hi]
        simp
      obtain ⟨c, hc, hget⟩ := exists_getElem?_of_mapM hconstraints hzip
      refine size_le_of_constraintOf hc fun himpossible => ?_
      have hfind := findIdx?_eq_none_iff.mp hnone c (mem_of_getElem? hget)
      rw [himpossible] at hfind
      exact absurd hfind (by decide)

variable {perms : Permissions} {access : MemoryAccess A.Reg}

/-- A good address can be mapped, lies on one page, and does not conflict with an entry before. -/
lemma goodAddr_spec {memory : List MemoryEntry} {addr : U64}
    (h : g.goodAddr memory k access addr perms = .ok true) :
    g.canMap addr = true ∧
      Area.crossesPageBounds A.pageBits ⟨addr, access.size.2⟩ = .ok false ∧
      ∀ j < k, ∀ e other, g.IsEntry memory j e other →
        noConflict ⟨addr, access.size.2⟩ perms e other = .ok true := by
  unfold goodAddr at h
  split at h
  · cases h
  next hmap =>
    obtain ⟨crosses, hcrosses, h⟩ := ok_of_bind h
    split at h
    · cases h
    next hnot =>
      rw [Bool.eq_false_of_not_eq_true hnot] at hcrosses
      refine ⟨by simpa using hmap, hcrosses, ?_⟩
      have hall : ∀ l : List (MemoryEntry × MemoryAccess A.Reg),
          noConflicts ⟨addr, access.size.2⟩ perms l = .ok true →
          ∀ p ∈ l, noConflict ⟨addr, access.size.2⟩ perms p.1 p.2 = .ok true := by
        intro l
        induction l with
        | nil => exact fun _ _ hp => nomatch hp
        | cons head l ih =>
          intro hl p hp
          obtain ⟨b, hb, hl⟩ := ok_of_bind hl
          split at hl
          next htrue =>
            rcases mem_cons.mp hp with rfl | hp
            · rw [hb, htrue]
            · exact ih hl p hp
          next => cases hl
      intro j hj e other he
      refine hall _ h (e, other) (mem_iff_getElem?.mpr ⟨j, ?_⟩)
      rw [getElem?_zip_eq_some]
      exact ⟨by rw [getElem?_take_of_lt hj]; exact he.entry,
        by rw [getElem?_take_of_lt hj]; exact he.access⟩

lemma permsCompatible_comm (p q : Permissions) : permsCompatible p q = permsCompatible q p := by
  cases p <;> cases q <;> rfl

/-- What it means that two areas that each lie on a page do not conflict. -/
lemma noConflict_spec {a : Area} {e : MemoryEntry} {other : MemoryAccess A.Reg}
    (ha : a.InPage A.pageBits) (hb : Area.InPage A.pageBits ⟨e.addr, other.size.2⟩)
    (h : noConflict a perms e other = .ok true) :
    ¬ Area.Overlap a ⟨e.addr, other.size.2⟩ ∧
      (permsCompatible perms e.perms = false →
        a.addr.toNat / 2 ^ A.pageBits.val ≠ e.addr.toNat / 2 ^ A.pageBits.val) := by
  unfold noConflict at h
  dsimp only at h
  split at h
  next hcompatible =>
    rw [ha.overlapsWith hb] at h
    refine ⟨by simpa using ok.inj h, fun hnot => ?_⟩
    rw [hcompatible] at hnot
    cases hnot
  next =>
    rw [ha.sharesPageWith hb] at h
    have hne : a.addr.toNat / 2 ^ A.pageBits.val ≠ e.addr.toNat / 2 ^ A.pageBits.val := by
      simpa using ok.inj h
    refine ⟨fun hoverlap => hne ?_, fun _ => hne⟩
    exact ha.page_eq_of_overlap hb hoverlap

/-- A state whose entries pass all checks. -/
lemma Valid.mappable (hfit : g.SizesFit) (hv : g.Valid s len)
    (hlen : g.accesses.memory.length ≤ len) : g.Mappable s := by
  have hlt : ∀ {i e access}, g.IsEntry s.memory i e access → i < len := fun he =>
    Nat.lt_of_lt_of_le (lt_of_getElem? he.access) hlen
  have hgood : ∀ {i e access}, g.IsEntry s.memory i e access →
      g.goodAddr s.memory i access e.addr e.perms = .ok true :=
    fun he => hv.sound _ (hlt he) _ _ he
  have hinPage : ∀ i e access, g.IsEntry s.memory i e access →
      Area.InPage A.pageBits ⟨e.addr, access.size.2⟩ := fun i e access he =>
    Area.inPage_of_crossesPageBounds (hfit access (mem_of_getElem? he.access))
      (goodAddr_spec (hgood he)).2.1
  -- The later entry was checked against the earlier one.
  have hpair : ∀ i j e e' access access', j < i → g.IsEntry s.memory i e access →
      g.IsEntry s.memory j e' access' →
      ¬ Area.Overlap ⟨e.addr, access.size.2⟩ ⟨e'.addr, access'.size.2⟩ ∧
        (permsCompatible e.perms e'.perms = false →
          e.addr.toNat / 2 ^ A.pageBits.val ≠ e'.addr.toNat / 2 ^ A.pageBits.val) :=
    fun i j e e' access access' hji he he' =>
      noConflict_spec (hinPage i e access he) (hinPage j e' access' he')
        ((goodAddr_spec (hgood he)).2.2 j hji e' access' he')
  refine ⟨fun i e access he => hv.computed i (hlt he) e access he,
    fun i e access he => (goodAddr_spec (hgood he)).1, ?_, hinPage, ?_, ?_⟩
  · intro i e access he
    have haligned := hv.aligned i (hlt he) e access he
    unfold isAligned at haligned
    split at haligned
    · cases haligned
    · exact Nat.dvd_of_mod_eq_zero (beq_iff_eq.mp (ok.inj haligned))
  · intro i j e e' access access' hne he he' hoverlap
    rcases Nat.lt_or_gt_of_ne hne with hlt | hgt
    · exact (hpair j i e' e access' access hlt he' he).1 ⟨hoverlap.2, hoverlap.1⟩
    · exact (hpair i j e e' access access' hgt he he').1 hoverlap
  · intro i j e e' access access' hne he he' hperms
    rcases Nat.lt_or_gt_of_ne hne with hlt | hgt
    · rw [permsCompatible_comm] at hperms
      exact ((hpair j i e' e access' access hlt he' he).2 hperms).symm
    · exact (hpair i j e e' access access' hgt he he').2 hperms

/-! ## Filling a state -/

/-- Only registers and the contents of the memory have changed. -/
structure SameMappings (s s' : SystemState A) : Prop where
  flag_eq : s'.containsValidAddrs = s.containsValidAddrs
  keys_eq : keys s'.memory = keys s.memory

lemma SameMappings.refl (s : SystemState A) : SameMappings s s := ⟨rfl, rfl⟩

lemma SameMappings.trans {s₁ s₂ s₃ : SystemState A} (h : SameMappings s₁ s₂)
    (h' : SameMappings s₂ s₃) : SameMappings s₁ s₃ :=
  ⟨h'.flag_eq.trans h.flag_eq, h'.keys_eq.trans h.keys_eq⟩

lemma SameMappings.trusted (h : SameMappings s s')
    (ht : s.containsValidAddrs = true → g.Trusted s.memory len) :
    s'.containsValidAddrs = true → g.Trusted s'.memory len :=
  fun hflag => (ht (h.flag_eq ▸ hflag)).congr h.keys_eq.symm

lemma setReg_spec {reg : A.Reg} {n : U64} (h : s.setReg reg n = .ok s') : SameMappings s s' := by
  unfold SystemState.setReg at h
  split at h
  · obtain rfl := ok.inj h
    exact ⟨rfl, rfl⟩
  · cases h

lemma modifyInputs_spec (inputs : List (Source A.Reg)) (anyChanged : Bool) (s : SystemState A) :
    Yields (g.modifyInputs inputs anyChanged s) fun r => SameMappings s r.2 := by
  induction inputs generalizing anyChanged s with
  | nil => exact .pure (.refl s)
  | cons input inputs ih =>
    rcases input with (⟨reg, size⟩ | ⟨index, size⟩) | part | ⟨value, numBits⟩
    · rw [modifyInputs]
      refine .ite (fun _ => ih anyChanged s) fun _ => .bind_any fun v => ?_
      refine .bind (.lift fun _ => setReg_spec) fun s₁ hs₁ => ?_
      exact (ih true s₁).mono fun _ => hs₁.trans
    · rw [modifyInputs]
      refine .bind_any fun e => .bind_any fun data => ?_
      refine .bind (P := SameMappings s) (.lift fun s₁ hs₁ => ?_) fun s₁ hs₁ => ?_
      · obtain ⟨-, hflag, hkeys⟩ := modifyEntry_spec (f := fun e => { e with data }) (fun _ => rfl) hs₁
        exact ⟨hflag, hkeys⟩
      · exact (ih anyChanged s₁).mono fun _ => hs₁.trans
    · rw [modifyInputs]
      exact ih anyChanged s
    · rw [modifyInputs]
      exact ih anyChanged s

lemma applyDelta_spec {delta : U64} {inputs : List (Source A.Reg × ℕ)}
    {r : Option (SystemState A)} (h : applyDelta access delta s inputs = .ok r) :
    ∀ s' ∈ r, SameMappings s s' := by
  induction inputs with
  | nil =>
    obtain rfl := ok.inj h
    exact nofun
  | cons head inputs ih =>
    obtain ⟨term, -, h⟩ := ok_of_bind h
    split at h
    · split at h
      · obtain ⟨reg, -, rfl⟩ := ok_of_bind_ok h
        rintro _ ⟨⟩
        exact ⟨rfl, rfl⟩
      · exact ih h
    · exact ih h

lemma fixLoop_spec (tries : ℕ) (anyChanged : Bool) (s : SystemState A) :
    Yields (g.fixLoop access index perms tries anyChanged s) fun r => SameMappings s r.2 := by
  induction tries generalizing anyChanged s with
  | zero => exact .pure (.refl s)
  | succ tries ih =>
    refine .bind (modifyInputs_spec _ _ s) ?_
    rintro ⟨anyChanged, s₁⟩ hs₁
    refine .bind_any fun c => .bind_any fun newAddr => .bind_any fun good => ?_
    refine .ite (fun _ => .bind_any fun delta => ?_) fun _ => ?_
    · split
      · exact .pure hs₁
      · exact .pure hs₁
      · refine .bind (.lift fun _ => applyDelta_spec) fun r hr => ?_
        split
        next s₂ => exact .pure (hs₁.trans (hr s₂ rfl))
        next => exact (ih anyChanged s₁).mono fun _ => hs₁.trans
    · exact (ih anyChanged s₁).mono fun _ => hs₁.trans

/-- Once the loop around `'fix_loop` has succeeded, the entries before pass all checks again. -/
lemma retryLoop_spec (n : ℕ) (s : SystemState A)
    (htrust : s.containsValidAddrs = true → g.Trusted s.memory index) :
    Yields (g.retryLoop access index perms n s) fun r => r.1 = true → g.Valid r.2 index := by
  induction n generalizing s with
  | zero => exact .pure nofun
  | succ n ih =>
    refine .bind (fixLoop_spec _ _ s) ?_
    rintro ⟨changed, s₁⟩ hs₁
    have htrust₁ := hs₁.trusted htrust
    split
    next s₂ heq =>
      obtain ⟨-, rfl⟩ := Prod.mk.inj heq
      refine .bind (.lift fun r hr => hr) ?_
      rintro ⟨adapted, s₂⟩ hadapt
      refine .ite (fun htrue => .pure fun _ => ?_) fun _ => ?_
      · rw [htrue] at hadapt
        exact (valid_of_adaptUpToLen (fun hcond => htrust₁ (by simpa using hcond)) hadapt).2
      · exact ih s₂ (trusted_of_adaptUpToLen htrust₁ hadapt)
    next => exact .pure nofun

/-- Once an address was accepted for an access, it and the entries before pass all checks. -/
lemma accessLoop_spec (haccess : g.accesses.memory[index]? = some access) (n : ℕ)
    (s : SystemState A) (hv : g.Valid s index) :
    Yields (g.accessLoop access index n s) fun r => r.1 = .ok → g.Valid r.2 (index + 1) := by
  induction n generalizing s with
  | zero => exact .pure nofun
  | succ n ih =>
    refine .bind (.lift fun addr haddr => haddr) fun addr haddr => ?_
    refine .bind (.lift fun _ => setAddr_eq_ok) ?_
    rintro s₁ ⟨e, he, rfl⟩
    have hget : (s.memory.set index { e with addr })[index]? = some { e with addr } := by
      rw [getElem?_set_self (lt_of_getElem? he)]
    have hv₁ := hv.set { e with addr }
    refine .bind (.lift fun e' he' => he') fun e' he' => ?_
    obtain rfl := Option.mem_unique hget (eq_some_of_orPanic he')
    refine .bind (.lift fun good hgood => hgood) fun good hgood => ?_
    refine .ite (fun htrue => .pure fun _ => ?_) fun _ => ?_
    · rw [htrue] at hgood
      obtain ⟨al, hal, hgood⟩ := ok_of_bind hgood
      split at hgood
      next hal' =>
        rw [hal'] at hal
        refine hv₁.succ ?_ ?_ ?_ <;> intro e' access' he' <;>
          obtain ⟨rfl, rfl⟩ := IsEntry.unique hget haccess he'
        · exact hgood
        · exact hal
        · exact haddr
      next => cases hgood
    · refine .ite (fun _ => .pure nofun) fun _ => .bind_any fun bad => ?_
      refine .ite (fun _ => .pure nofun) fun _ => ?_
      refine .bind (retryLoop_spec _ _ fun _ => hv₁.trusted) ?_
      rintro ⟨adapted, s₂⟩ hs₂
      exact .ite (fun htrue => ih s₂ (hs₂ htrue)) fun _ => .pure nofun

lemma fillLoop_spec {rest : List (MemoryAccess A.Reg × ℕ)} {i : ℕ} (s : SystemState A)
    (hrest : rest = g.remaining len i) (hv : g.Valid s i) :
    Yields (g.fillLoop rest s) fun r => r.1 = .ok → g.Valid r.2 len := by
  induction rest generalizing s i with
  | nil => exact .pure fun _ => hv.of_remaining_eq_nil hrest
  | cons head rest ih =>
    obtain ⟨rfl, haccess, hrest'⟩ := of_remaining_eq_cons hrest
    refine .bind (accessLoop_spec haccess _ s hv) ?_
    rintro ⟨result, s₁⟩ hs₁
    split
    next s₂ heq =>
      obtain ⟨rfl, rfl⟩ := Prod.mk.inj heq
      exact ih s₁ hrest' (hs₁ rfl)
    next result' s₂ hne heq =>
      obtain ⟨rfl, rfl⟩ := Prod.mk.inj heq
      refine .pure fun hok => ?_
      obtain rfl : result = .ok := hok
      exact (hne rfl).elim

lemma attemptLoop_spec (n : ℕ) (a : Attempts) (s : SystemState A) :
    Yields (g.attemptLoop n a s) fun r => ∀ s', r.1 = .ok s' →
      g.Valid s' g.accesses.memory.length := by
  induction n generalizing a s with
  | zero => exact .bind_any fun e => .pure nofun
  | succ n ih =>
    -- a filled state passes all checks, whatever it was filled from
    have hall : g.accesses.memory.zipIdx = g.remaining g.accesses.memory.length 0 := by
      unfold remaining
      rw [take_of_length_le (by rw [length_zipIdx]), drop_zero]
    refine .bind (fillLoop_spec s hall ⟨nofun, nofun, nofun⟩) ?_
    rintro ⟨result, s₁⟩ hs₁
    refine .ite (fun hok => .ite (fun _ => .pure ?_) fun _ => ?_) fun _ => ?_
    · rintro s' ⟨⟩
      exact hs₁ hok
    · exact fun _ _ _ h => nomatch h
    · refine .ite (fun _ => .bind_any fun e => .pure nofun) fun _ => .bind_any fun fixed => ?_
      split
      · exact .pure nofun
      · exact .bind_any fun s₂ => ih _ s₂

/-! ## Runs -/

/-- The flag is only set if the entries pass the checks. -/
def Truthful (g : StateGen A) (s : SystemState A) : Prop :=
  s.containsValidAddrs = true → ∀ k, g.Sound s.memory k ∧ g.Aligned s.memory k

/-- A sequence of changes to the registers and calls of `adapt`, which may fail. -/
inductive Adapts (g : StateGen A) (s₀ : SystemState A) : SystemState A → Prop
  | start : Adapts g s₀ s₀
  | setCpu {s : SystemState A} (h : Adapts g s₀ s) (cpu : A.CpuState) :
      Adapts g s₀ { s with cpu }
  | adapt {s s' : SystemState A} {changedInstr adapted : Bool} (h : Adapts g s₀ s)
      (hadapt : g.adapt s changedInstr = .ok (adapted, s')) : Adapts g s₀ s'

lemma Valid.truthful (hv : g.Valid s g.accesses.memory.length) : g.Truthful s := by
  intro _ k
  rcases Nat.lt_or_ge k g.accesses.memory.length with hlt | hge
  · exact ⟨hv.sound k hlt, hv.aligned k hlt⟩
  · have hno : ∀ e access, ¬ g.IsEntry s.memory k e access := fun e access he => by
      have := lt_of_getElem? he.access
      omega
    exact ⟨fun e access he => absurd he (hno e access), fun e access he => absurd he (hno e access)⟩

/-- `adapt` is `adapt_up_to_len` for all entries; the trap flag does not matter. -/
lemma adapt_eq_ok {changedInstr adapted : Bool} (h : g.adapt s changedInstr = .ok (adapted, s')) :
    ∃ s₁ : SystemState A, s₁.cpu = s.cpu ∧ s₁.memory = s.memory ∧
      s₁.containsValidAddrs = s.containsValidAddrs ∧
      g.adaptUpToLen s₁ changedInstr s.memory.length = .ok (adapted, s') := by
  unfold adapt at h
  split at h
  · exact ⟨{ s with useTrapFlag := true }, rfl, rfl, rfl, h⟩
  · exact ⟨s, rfl, rfl, rfl, h⟩

/-- The flag can be trusted after every step of a run from a state on which it tells the truth. -/
lemma Adapts.trusted {s₀ : SystemState A} (h : g.Adapts s₀ s) (htruth : g.Truthful s₀) :
    s.containsValidAddrs = true → g.Trusted s.memory s.memory.length := by
  induction h with
  | start => exact fun hflag k _ _ => (htruth hflag k).1
  | setCpu _ cpu ih => exact ih
  | @adapt s s' _ _ _ hadapt ih =>
    obtain ⟨s₁, -, hmemory, hflag, hadapt⟩ := adapt_eq_ok hadapt
    have htrust : s₁.containsValidAddrs = true → g.Trusted s₁.memory s.memory.length := by
      rw [hmemory, hflag]
      exact ih
    rw [(adaptUpToLen_adjusted hadapt).2.1.length_eq, hmemory]
    exact trusted_of_adaptUpToLen htrust hadapt

/-- The state after a call of `adapt` that has returned true. -/
lemma mappable_of_adapt {changedInstr : Bool} (hfit : g.SizesFit)
    (htrust : (s.containsValidAddrs && !changedInstr) = true →
      g.Trusted s.memory s.memory.length) (h : g.adapt s changedInstr = .ok (true, s'))
    (hlen : s'.memory.length = g.accesses.memory.length) : g.Mappable s' := by
  obtain ⟨s₁, -, hmemory, hflag, h⟩ := adapt_eq_ok h
  have hlen' := (adaptUpToLen_adjusted h).2.1.length_eq
  rw [hmemory] at hlen'
  refine Valid.mappable hfit (valid_of_adaptUpToLen ?_ h).2 (by omega)
  rw [hmemory, hflag]
  exact htrust

end StateGen

/-- Every state that `randomize_new` or `randomize_new_with_locations` returns is mappable, and its
flag tells the truth. From a state on which the flag tells the truth every sequence of changes to
the registers and calls of `adapt`, failed ones included, leads to a mappable state whenever a call
returns true. With `changed_instr` the flag does not matter. -/
theorem stateGen_mappable {A : Arch} (accesses : MemoryAccesses A.Reg) (canMap : U64 → Bool)
    {g : StateGen A} (hnew : StateGen.new accesses canMap = .ok (.ok g)) :
    (∀ numFailures source s n rest,
      g.randomizeNew numFailures source = .ok ((.ok s, n), rest) → g.Mappable s ∧ g.Truthful s) ∧
    (∀ base locations numFailures source s n rest,
      g.randomizeNewWithLocations base locations numFailures source = .ok ((.ok s, n), rest) →
      g.Mappable s ∧ g.Truthful s) ∧
    (∀ s₀ s s' changedInstr, g.Truthful s₀ → g.Adapts s₀ s →
      g.adapt s changedInstr = .ok (true, s') →
      s'.memory.length = g.accesses.memory.length → g.Mappable s') ∧
    ∀ s s', g.adapt s true = .ok (true, s') →
      s'.memory.length = g.accesses.memory.length → g.Mappable s' := by
  have hfit := StateGen.sizesFit_of_new hnew
  have hvalid : ∀ {s : SystemState A}, g.Valid s g.accesses.memory.length →
      g.Mappable s ∧ g.Truthful s := fun hv => ⟨hv.mappable hfit (Nat.le_refl _), hv.truthful⟩
  refine ⟨?_, ?_, ?_, ?_⟩
  · intro numFailures source s n rest h
    have hspec : Yields (g.randomizeNew numFailures) fun r => ∀ s', r.1 = .ok s' →
        g.Valid s' g.accesses.memory.length :=
      .bind_any fun cpu => .bind_any fun memory => StateGen.attemptLoop_spec _ _ _
    exact hvalid (hspec source _ rest h s rfl)
  · intro base locations numFailures source s n rest h
    have hspec : Yields (g.randomizeNewWithLocations base locations numFailures) fun r =>
        ∀ s', r.1 = .ok s' → g.Valid s' g.accesses.memory.length :=
      .bind_any fun s => StateGen.attemptLoop_spec _ _ _
    exact hvalid (hspec source _ rest h s rfl)
  · intro s₀ s s' changedInstr htruth hrun hadapt hlen
    exact StateGen.mappable_of_adapt hfit
      (fun hcond => hrun.trusted htruth (Bool.and_eq_true_iff.mp hcond).1) hadapt hlen
  · intro s s' hadapt hlen
    exact StateGen.mappable_of_adapt hfit (by simp) hadapt hlen

/-! ## One register and one access -/

/-- An architecture with a single register. -/
def tinyArch : Arch where
  Reg := Unit
  GpReg := Unit
  CpuState := U64
  pageBits := ⟨12, by decide⟩
  instructionAlignment := 1
  reg := id
  tryRegToGpreg := some
  iterGpregs := [()]
  iterRegs := [()]
  gpregLe := fun _ _ => true
  isAddrGpreg := fun _ => false
  isZero := fun _ => false
  isPc := fun _ => false
  isAddrReg := fun _ => false
  mask := fun _ => none
  byteSize := fun _ => 8
  default := 0
  gpreg := fun cpu _ => cpu
  setGpreg := fun _ _ v => v
  value := fun cpu _ => .num cpu
  setValue := fun cpu _ v => match v with
    | .num n => n
    | .bytes _ => cpu
  decEqReg := inferInstance
  decEqGpReg := inferInstance

/-- The terms of an address that is the value of one register. -/
def tinyTerms := #v[AddrTerm.identity, .default, .default, .default]

/-- An access of two bytes at the address in the register. -/
def tinyAccesses : MemoryAccesses tinyArch.Reg where
  instr := ⟨[0x90], by decide⟩
  memory := [{
    kind := .inputOutput
    inputs := [.dest (.reg () ⟨0, 7⟩)]
    size := (2, 2)
    calculation := ⟨0, tinyTerms⟩
    alignment := 1 }]
  useTrapFlag := false

/-- What `StateGen::new` makes of it. -/
def tinyGen : StateGen tinyArch := ⟨tinyAccesses, fun _ => true, [.pageRegion 0 4094], [()]⟩

lemma new_tinyAccesses : StateGen.new tinyAccesses (fun _ => true) = .ok (.ok tinyGen) := by
  have hregisters : StateGen.addressRegistersOf tinyAccesses = .ok [()] := by
    have hsort : List.mergeSort [()] (fun _ _ => true) = [()] := mergeSort_singleton ()
    exact congrArg (fun l => (ok l.eraseReps)) hsort
  unfold StateGen.new
  rw [hregisters]
  rfl

/-- The first address that the source yields crosses a page boundary, the second one is good. -/
theorem stateGen_mappable_tiny : ∃ s n rest,
    tinyGen.randomizeNew 0 [0xfff, 7, 8, 0xffe, 1] = .ok ((.ok s, n), rest) ∧
      tinyGen.Mappable s := by
  have hmap := (stateGen_mappable tinyAccesses (fun _ => true) new_tinyAccesses).1
  obtain ⟨⟨⟨outcome, n⟩, rest⟩, hrun, hsome⟩ := exists_ok_of_any
    (x := tinyGen.randomizeNew 0 [0xfff, 7, 8, 0xffe, 1])
    (p := fun r => r.1.1.toOption.isSome = true) (by decide +kernel)
  rcases outcome with e | s
  · cases hsome
  · exact ⟨s, n, rest, hrun, (hmap _ _ s n rest hrun).1⟩

/-- The flag is set for a state that was put together by hand, and its access crosses a page
boundary. -/
theorem adapt_trusts_flag : ∃ s' : SystemState tinyArch,
    tinyGen.adapt (SystemState.new (A := tinyArch) (0xfff : U64)
      [⟨0xfff, .readWrite, [0, 0]⟩]) false = .ok (true, s') ∧
      s'.memory.length = tinyGen.accesses.memory.length ∧ ¬ tinyGen.Mappable s' := by
  refine ⟨_, rfl, rfl, fun h => ?_⟩
  have hpage := h.inPage 0 ⟨0xfff, .readWrite, [0, 0]⟩ _ ⟨rfl, rfl⟩
  exact absurd hpage.le_page (by decide)

end LibLisa.State
