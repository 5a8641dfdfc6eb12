import LibLisa.State.Random

/-!
# Adapting keeps addresses valid

`adapt` skips the check of an entry that did not move, as long as no entry before it has moved and
the flag `contains_valid_addrs` is set. The flag is not cleared when an address turns out not to be
aligned, although entries have then been moved already.

This is right nonetheless. A set flag stands for `Trusted`: an entry is sound if it and all entries
before it are aligned. When an entry is not aligned, the ones before it have been checked and nothing
is said about the ones after it; and a later call that meets the same entry at the same address
fails there again.
-/

namespace LibLisa.State

open Lib Encoding List Except Option

/-! ## What the checks say about an entry -/

/-- What the checks see of a memory. -/
def keys (memory : List MemoryEntry) : List (U64 × Permissions) :=
  memory.map fun e => (e.addr, e.perms)

namespace StateGen

variable {A : Arch} {g : StateGen A} {s s' : SystemState A} {memory memory' : List MemoryEntry}
  {k len : ℕ}

/-- The entry of an access. -/
structure IsEntry (g : StateGen A) (memory : List MemoryEntry) (k : ℕ) (e : MemoryEntry)
    (access : MemoryAccess A.Reg) : Prop where
  entry : memory[k]? = some e
  access : g.accesses.memory[k]? = some access

/-- The address can be mapped, and does not conflict with the entries before it. -/
def Sound (g : StateGen A) (memory : List MemoryEntry) (k : ℕ) : Prop :=
  ∀ e access, g.IsEntry memory k e access → g.goodAddr memory k access e.addr e.perms = .ok true

/-- The address is a multiple of the alignment. -/
def Aligned (g : StateGen A) (memory : List MemoryEntry) (k : ℕ) : Prop :=
  ∀ e access, g.IsEntry memory k e access → isAligned access e.addr = .ok true

/-- The address is the one that the access computes. -/
def Computed (g : StateGen A) (s : SystemState A) (k : ℕ) : Prop :=
  ∀ e access, g.IsEntry s.memory k e access → computeAddress access s.cpu = .ok e.addr

/-- The first entries pass all checks. -/
structure Valid (g : StateGen A) (s : SystemState A) (len : ℕ) : Prop where
  sound : ∀ k < len, g.Sound s.memory k
  aligned : ∀ k < len, g.Aligned s.memory k
  computed : ∀ k < len, g.Computed s k

/-- What a set flag stands for. -/
def Trusted (g : StateGen A) (memory : List MemoryEntry) (len : ℕ) : Prop :=
  ∀ k < len, (∀ i ≤ k, g.Aligned memory i) → g.Sound memory k

lemma Valid.trusted (h : g.Valid s len) : g.Trusted s.memory len := fun k hk _ => h.sound k hk

variable {i : ℕ}

/-! ## The checks only see the keys -/

variable {e e' : MemoryEntry}

lemma noConflict_congr (area : Area) (perms : Permissions)
    (h : (e.addr, e.perms) = (e'.addr, e'.perms)) (other : MemoryAccess A.Reg) :
    noConflict area perms e other = noConflict area perms e' other := by
  obtain ⟨haddr, hperms⟩ := Prod.mk.inj h
  unfold noConflict
  rw [haddr, hperms]

lemma noConflicts_congr (area : Area) (perms : Permissions) (h : keys memory = keys memory')
    (accesses : List (MemoryAccess A.Reg)) :
    noConflicts area perms (memory.zip accesses) = noConflicts area perms (memory'.zip accesses) := by
  induction memory generalizing memory' accesses with
  | nil =>
    obtain rfl : memory' = [] := map_eq_nil_iff.mp h.symm
    rfl
  | cons e memory ih =>
    obtain ⟨e', memory', rfl, he, hmemory⟩ := map_eq_cons_iff.mp h.symm
    rcases accesses with _ | ⟨access, accesses⟩
    · rfl
    · rw [zip_cons_cons, zip_cons_cons, noConflicts, noConflicts,
        noConflict_congr area perms he.symm access, ih hmemory.symm accesses]

variable {access : MemoryAccess A.Reg}

section

variable (h : keys memory = keys memory')
include h

/-- The entries of two memories with the same keys. -/
lemma IsEntry.of_keys (he : g.IsEntry memory' k e access) :
    ∃ e₀, g.IsEntry memory k e₀ access ∧ e₀.addr = e.addr ∧ e₀.perms = e.perms := by
  have hkey : (keys memory)[k]? = some (e.addr, e.perms) := by
    rw [h]
    unfold keys
    rw [getElem?_map, he.entry]
    rfl
  unfold keys at hkey
  rw [getElem?_map, map_eq_some_iff] at hkey
  obtain ⟨e₀, he₀, heq⟩ := hkey
  obtain ⟨haddr, hperms⟩ := Prod.mk.inj heq
  exact ⟨e₀, ⟨he₀, he.access⟩, haddr, hperms⟩

lemma Sound.congr (hs : g.Sound memory k) : g.Sound memory' k := by
  intro e access he
  obtain ⟨e₀, he₀, haddr, hperms⟩ := he.of_keys h
  rw [← haddr, ← hperms, ← hs e₀ access he₀]
  have htake : keys (memory.take k) = keys (memory'.take k) := by
    unfold keys at h ⊢
    rw [map_take, map_take, h]
  unfold goodAddr
  dsimp only
  rw [noConflicts_congr _ _ htake]

lemma Aligned.congr (ha : g.Aligned memory k) : g.Aligned memory' k := by
  intro e access he
  obtain ⟨e₀, he₀, haddr, -⟩ := he.of_keys h
  rw [← haddr]
  exact ha e₀ access he₀

lemma Trusted.congr (ht : g.Trusted memory len) : g.Trusted memory' len :=
  fun k hk haligned => (ht k hk fun i hi => (haligned i hi).congr h.symm).congr h

end

lemma Valid.congr (hcpu : s'.cpu = s.cpu) (h : keys s.memory = keys s'.memory)
    (hv : g.Valid s len) : g.Valid s' len := by
  refine ⟨fun k hk => (hv.sound k hk).congr h, fun k hk => (hv.aligned k hk).congr h, ?_⟩
  intro k hk e access he
  obtain ⟨e₀, he₀, haddr, -⟩ := he.of_keys h
  rw [hcpu, ← haddr]
  exact hv.computed k hk e₀ access he₀

/-! ## Moving one entry -/

lemma isEntry_set_of_lt (hk : k < i) :
    g.IsEntry (memory.set i e') k e access ↔ g.IsEntry memory k e access := by
  have hget : (memory.set i e')[k]? = memory[k]? := getElem?_set_ne (Nat.ne_of_gt hk)
  exact ⟨fun h => ⟨hget ▸ h.entry, h.access⟩, fun h => ⟨hget.trans h.entry, h.access⟩⟩

lemma goodAddr_set (hk : k ≤ i) (e : MemoryEntry) (access : MemoryAccess A.Reg) (addr : U64)
    (perms : Permissions) :
    g.goodAddr (memory.set i e) k access addr perms = g.goodAddr memory k access addr perms := by
  unfold goodAddr
  rw [take_set_of_le hk]

/-- The entries before the one that is moved are not affected. -/
lemma Valid.set (hv : g.Valid s i) (e : MemoryEntry) :
    g.Valid { s with memory := s.memory.set i e } i := by
  refine ⟨?_, ?_, ?_⟩
  · intro k hk e' access he
    have he' := (isEntry_set_of_lt hk).mp he
    rw [goodAddr_set (Nat.le_of_lt hk)]
    exact hv.sound k hk e' access he'
  · exact fun k hk e' access he => hv.aligned k hk e' access ((isEntry_set_of_lt hk).mp he)
  · exact fun k hk e' access he => hv.computed k hk e' access ((isEntry_set_of_lt hk).mp he)

lemma Valid.zero : g.Valid s 0 := ⟨nofun, nofun, nofun⟩

lemma Valid.succ (hv : g.Valid s i) (hsound : g.Sound s.memory i)
    (haligned : g.Aligned s.memory i) (hcomputed : g.Computed s i) : g.Valid s (i + 1) := by
  refine ⟨?_, ?_, ?_⟩ <;> intro k hk
  · rcases Nat.lt_succ_iff_lt_or_eq.mp hk with hlt | rfl
    · exact hv.sound k hlt
    · exact hsound
  · rcases Nat.lt_succ_iff_lt_or_eq.mp hk with hlt | rfl
    · exact hv.aligned k hlt
    · exact haligned
  · rcases Nat.lt_succ_iff_lt_or_eq.mp hk with hlt | rfl
    · exact hv.computed k hlt
    · exact hcomputed

/-! ## The functions of the source -/

lemma setAddr_eq_ok {addr : U64} (h : s.setAddr i addr = .ok s') :
    ∃ e, s.memory[i]? = some e ∧ s' = { s with memory := s.memory.set i { e with addr } } := by
  obtain ⟨e, he, rfl⟩ := ok_of_bind_ok h
  exact ⟨e, eq_some_of_orPanic he, rfl⟩

/-- An update that keeps the address and the permissions of an entry. -/
lemma modifyEntry_spec {f : MemoryEntry → MemoryEntry}
    (hf : ∀ e, ((f e).addr, (f e).perms) = (e.addr, e.perms)) (h : s.modifyEntry i f = .ok s') :
    s'.cpu = s.cpu ∧ s'.containsValidAddrs = s.containsValidAddrs ∧
      keys s'.memory = keys s.memory := by
  obtain ⟨e, he, rfl⟩ := ok_of_bind_ok h
  refine ⟨rfl, rfl, ?_⟩
  have hget := eq_some_of_orPanic he
  obtain ⟨hi, rfl⟩ := List.getElem?_eq_some_iff.mp hget
  show (s.memory.set i _).map _ = s.memory.map _
  have hlen : i < (s.memory.map fun e => (e.addr, e.perms)).length := by
    rw [length_map]
    exact hi
  have hself := set_getElem_self hlen
  rw [getElem_map] at hself
  rw [map_set, hf]
  exact hself

lemma crop_spec (h : crop s i access = .ok s') :
    s'.cpu = s.cpu ∧ s'.containsValidAddrs = s.containsValidAddrs ∧
      keys s'.memory = keys s.memory := by
  unfold crop at h
  split at h
  · obtain rfl := ok.inj h
    exact ⟨rfl, rfl, rfl⟩
  · exact modifyEntry_spec (f := fun e => { e with data := e.data.take access.size.2.toNat })
      (fun _ => rfl) h

variable {rest : List (MemoryAccess A.Reg × ℕ)}

lemma cropLoop_spec (h : cropLoop rest s = .ok s') :
    s'.cpu = s.cpu ∧ s'.containsValidAddrs = s.containsValidAddrs ∧
      keys s'.memory = keys s.memory := by
  induction rest generalizing s with
  | nil =>
    obtain rfl := ok.inj h
    exact ⟨rfl, rfl, rfl⟩
  | cons head rest ih =>
    obtain ⟨s₁, hs₁, h⟩ := ok_of_bind h
    obtain ⟨hcpu, hflag, hkeys⟩ := crop_spec hs₁
    obtain ⟨hcpu', hflag', hkeys'⟩ := ih h
    exact ⟨hcpu'.trans hcpu, hflag'.trans hflag, hkeys'.trans hkeys⟩

/-- The accesses that a loop has not come to yet. -/
def remaining (g : StateGen A) (len i : ℕ) : List (MemoryAccess A.Reg × ℕ) :=
  (g.accesses.memory.zipIdx.take len).drop i

lemma of_remaining_eq_cons {index : ℕ} (h : (access, index) :: rest = g.remaining len i) :
    index = i ∧ g.accesses.memory[i]? = some access ∧ rest = g.remaining len (i + 1) := by
  have hhead : (g.remaining len i)[0]? = some (access, index) := by
    rw [← h]
    rfl
  unfold remaining at hhead
  rw [getElem?_drop, getElem?_take] at hhead
  split at hhead
  · rw [getElem?_zipIdx, map_eq_some_iff] at hhead
    obtain ⟨a, ha, heq⟩ := hhead
    obtain ⟨rfl, hindex⟩ := Prod.mk.inj heq
    refine ⟨by omega, ha, ?_⟩
    have htail := congrArg List.tail h
    unfold remaining at htail ⊢
    rw [tail_drop] at htail
    exact htail
  · cases hhead

/-- Once no accesses are left, all entries have been checked. -/
lemma Valid.of_remaining_eq_nil (hv : g.Valid s i) (h : [] = g.remaining len i) :
    g.Valid s len := by
  have hlen : min len g.accesses.memory.length ≤ i := by
    have := drop_eq_nil_iff.mp h.symm
    rw [length_take, length_zipIdx] at this
    exact this
  have hcase : ∀ k < len, k < i ∨ ∀ e access, ¬ g.IsEntry s.memory k e access := by
    intro k hk
    rcases Nat.lt_or_ge k i with hlt | hge
    · exact .inl hlt
    · refine .inr fun e access he => ?_
      have := lt_of_getElem? he.access
      omega
  refine ⟨?_, ?_, ?_⟩ <;> intro k hk e access he <;> rcases hcase k hk with hlt | hno
  · exact hv.sound k hlt e access he
  · exact absurd he (hno e access)
  · exact hv.aligned k hlt e access he
  · exact absurd he (hno e access)
  · exact hv.computed k hlt e access he
  · exact absurd he (hno e access)

lemma IsEntry.unique {access' : MemoryAccess A.Reg} (he : memory[i]? = some e)
    (ha : g.accesses.memory[i]? = some access) (h : g.IsEntry memory i e' access') :
    e' = e ∧ access' = access :=
  ⟨mem_unique h.entry he, mem_unique h.access ha⟩

variable {newAddr : U64} {allEq : Bool}

/-- The entry after its address was set, which is the only thing that has changed. -/
lemma moveEntry_spec (he : s.memory[i]? = some e) (h : moveEntry s i e newAddr = .ok s') :
    s' = { s with memory := s.memory.set i { e with addr := newAddr } } := by
  unfold moveEntry at h
  split at h
  next heq =>
    obtain rfl := ok.inj h
    subst heq
    obtain ⟨hi, rfl⟩ := List.getElem?_eq_some_iff.mp he
    rw [set_getElem_self]
  next =>
    obtain ⟨e', he', rfl⟩ := setAddr_eq_ok h
    obtain rfl := mem_unique he' he
    rfl

/-- Step `i` of the main loop, up to the check of the alignment. -/
lemma move_spec (hv : g.Valid s i) (htrust : allEq = true → g.Trusted s.memory len) (hi : i < len)
    (haccess : g.accesses.memory[i]? = some access) (he : s.memory[i]? = some e)
    (hnew : computeAddress access s.cpu = .ok newAddr)
    (haccepts : g.acceptsAddr allEq s.memory i access e newAddr = .ok true)
    (h : moveEntry s i e newAddr = .ok s') :
    s'.cpu = s.cpu ∧ s'.containsValidAddrs = s.containsValidAddrs ∧ g.Valid s' i ∧
      g.Computed s' i ∧ (g.Aligned s'.memory i ↔ isAligned access newAddr = .ok true) ∧
      (g.Aligned s'.memory i → g.Sound s'.memory i) ∧
      ((allEq && e.addr == newAddr) = true → g.Trusted s'.memory len) := by
  obtain rfl := moveEntry_spec he h
  have hget : (s.memory.set i { e with addr := newAddr })[i]? = some { e with addr := newAddr } := by
    rw [getElem?_set_self (lt_of_getElem? he)]
  have hv' := hv.set { e with addr := newAddr }
  have haligned : g.Aligned (s.memory.set i { e with addr := newAddr }) i ↔
      isAligned access newAddr = .ok true := by
    constructor
    · exact fun h => h _ access ⟨hget, haccess⟩
    · intro h e' access' he'
      obtain ⟨rfl, rfl⟩ := IsEntry.unique hget haccess he'
      exact h
  have hkept : (allEq && e.addr == newAddr) = true →
      g.Trusted (s.memory.set i { e with addr := newAddr }) len := by
    intro hcond
    rw [Bool.and_eq_true, beq_iff_eq] at hcond
    obtain ⟨hallEq, rfl⟩ := hcond
    obtain ⟨hlt, rfl⟩ := List.getElem?_eq_some_iff.mp he
    rw [set_getElem_self]
    exact htrust hallEq
  refine ⟨rfl, rfl, hv', ?_, haligned, ?_, hkept⟩
  · intro e' access' he'
    obtain ⟨rfl, rfl⟩ := IsEntry.unique hget haccess he'
    exact hnew
  · intro hal
    unfold acceptsAddr at haccepts
    split at haccepts
    next hcond =>
      -- Not checked again: the flag is trusted, and all entries up to here are aligned.
      refine hkept (by rwa [Bool.beq_comm]) i hi fun j hj => ?_
      rcases Nat.lt_or_eq_of_le hj with hlt | rfl
      · exact hv'.aligned j hlt
      · exact hal
    next =>
      intro e' access' he'
      obtain ⟨rfl, rfl⟩ := IsEntry.unique hget haccess he'
      rw [goodAddr_set (Nat.le_refl i)]
      exact haccepts

variable {adapted : Bool}

/-- The main loop, from the access at `i` on. -/
lemma adaptLoop_spec (hrest : rest = g.remaining len i) (hv : g.Valid s i)
    (htrust : allEq = true → g.Trusted s.memory len)
    (h : g.adaptLoop rest allEq s = .ok (adapted, s')) :
    s'.cpu = s.cpu ∧ (adapted = true → g.Valid s' len) ∧
      (adapted = false → s'.containsValidAddrs = true → g.Trusted s'.memory len) := by
  induction rest generalizing s allEq i with
  | nil =>
    obtain ⟨rfl, rfl⟩ := ok_pair_inj h
    exact ⟨rfl, fun _ => hv.of_remaining_eq_nil hrest, nofun⟩
  | cons head rest ih =>
    obtain ⟨access, index⟩ := head
    have hi : i < len := by
      by_contra hge
      have hnil : g.remaining len i = [] := by
        apply drop_eq_nil_of_le
        rw [length_take]
        omega
      nomatch hrest.trans hnil
    obtain ⟨rfl, haccess, hrest'⟩ := of_remaining_eq_cons hrest
    obtain ⟨newAddr, e, hnew, he, h⟩ := ok_of_bind₂ h
    obtain ⟨accepts, haccepts, h⟩ := ok_of_bind h
    split at h
    next htrue =>
      rw [htrue] at haccepts
      obtain ⟨s₁, hs₁, h⟩ := ok_of_bind h
      obtain ⟨hcpu, hflag, hv₁, hcomputed, haligned, hsound, htrust₁⟩ :=
        move_spec hv htrust hi haccess (eq_some_of_orPanic he) hnew haccepts hs₁
      obtain ⟨al, hal, h⟩ := ok_of_bind h
      split at h
      next hal' =>
        obtain ⟨s₂, hs₂, h⟩ := ok_of_bind h
        obtain ⟨hcpu', hflag', hkeys⟩ := crop_spec hs₂
        rw [hal'] at hal
        have haligned₁ := haligned.mpr hal
        have hv₂ : g.Valid s₂ (index + 1) :=
          (hv₁.succ (hsound haligned₁) haligned₁ hcomputed).congr hcpu' hkeys.symm
        obtain ⟨hcpu'', hvalid, htrusted⟩ := ih hrest' hv₂
          (fun hcond => (htrust₁ hcond).congr hkeys.symm) h
        exact ⟨hcpu''.trans (hcpu'.trans hcpu), hvalid, htrusted⟩
      next hal' =>
        obtain ⟨rfl, rfl⟩ := ok_pair_inj h
        refine ⟨hcpu, nofun, fun _ _ k _ hbefore => ?_⟩
        rcases Nat.lt_or_ge k index with hlt | hge
        · exact hv₁.sound k hlt
        · -- from an entry that is not aligned on nothing is asked for
          rw [haligned.mp (hbefore index hge)] at hal
          exact absurd (ok.inj hal).symm hal'
    next =>
      obtain ⟨rfl, rfl⟩ := ok_pair_inj h
      exact ⟨rfl, nofun, fun _ hflag => nomatch hflag⟩

lemma markValid_spec (s : SystemState A) (len : ℕ) :
    (markValid s len).cpu = s.cpu ∧ (markValid s len).memory = s.memory := by
  unfold markValid
  split
  · exact ⟨rfl, rfl⟩
  · exact ⟨rfl, rfl⟩

variable {changedInstr : Bool}

/-- `adapt_up_to_len` stops before its first loop or in it, or goes through both. -/
lemma adaptUpToLen_cases (h : g.adaptUpToLen s changedInstr len = .ok (adapted, s')) :
    (adapted = false ∧ s' = s) ∨
      (adapted = false ∧ g.adaptLoop (g.remaining len 0) (s.containsValidAddrs && !changedInstr) s =
        .ok (false, s')) ∨
      ∃ s₁ s₂, adapted = true ∧
        g.adaptLoop (g.remaining len 0) (s.containsValidAddrs && !changedInstr) s = .ok (true, s₁) ∧
        cropLoop (g.remaining len 0) s₁ = .ok s₂ ∧ s' = markValid s₂ len := by
  unfold adaptUpToLen at h
  split at h
  · obtain ⟨rfl, rfl⟩ := ok_pair_inj h
    exact .inl ⟨rfl, rfl⟩
  obtain ⟨⟨adapted₁, s₁⟩, hs₁, h⟩ := ok_of_bind h
  rcases adapted₁ with _ | _
  · obtain ⟨rfl, rfl⟩ := ok_pair_inj h
    exact .inr (.inl ⟨rfl, hs₁⟩)
  · obtain ⟨s₂, hs₂, h⟩ := ok_of_bind h
    dsimp only at h
    split at h
    · obtain ⟨rfl, rfl⟩ := ok_pair_inj h
      exact .inr (.inr ⟨s₁, s₂, rfl, hs₁, hs₂, rfl⟩)
    · cases h

/-- The entries pass all checks after `adapt_up_to_len` has returned true. -/
lemma valid_of_adaptUpToLen
    (htrust : (s.containsValidAddrs && !changedInstr) = true → g.Trusted s.memory len)
    (h : g.adaptUpToLen s changedInstr len = .ok (true, s')) : s'.cpu = s.cpu ∧ g.Valid s' len := by
  rcases adaptUpToLen_cases h with ⟨h, -⟩ | ⟨h, -⟩ | ⟨s₁, s₂, -, hloop, hcrop, rfl⟩
  · cases h
  · cases h
  · obtain ⟨hcpu, hvalid, -⟩ := adaptLoop_spec rfl .zero htrust hloop
    obtain ⟨hcpu', -, hkeys⟩ := cropLoop_spec hcrop
    obtain ⟨hcpu'', hmemory⟩ := markValid_spec s₂ len
    exact ⟨hcpu''.trans (hcpu'.trans hcpu),
      ((hvalid rfl).congr hcpu' hkeys.symm).congr hcpu'' (congrArg keys hmemory.symm)⟩

/-- What the flag stands for is kept, whether `adapt_up_to_len` succeeds or not. -/
lemma trusted_of_adaptUpToLen (htrust : s.containsValidAddrs = true → g.Trusted s.memory len)
    (h : g.adaptUpToLen s changedInstr len = .ok (adapted, s')) :
    s'.containsValidAddrs = true → g.Trusted s'.memory len := by
  have htrust' : (s.containsValidAddrs && !changedInstr) = true → g.Trusted s.memory len :=
    fun hcond => htrust (Bool.and_eq_true_iff.mp hcond).1
  rcases adaptUpToLen_cases h with ⟨-, rfl⟩ | ⟨-, hloop⟩ | ⟨s₁, s₂, rfl, -⟩
  · exact htrust
  · exact (adaptLoop_spec rfl .zero htrust' hloop).2.2 rfl
  · exact fun _ => (valid_of_adaptUpToLen htrust' h).2.trusted

end StateGen

end LibLisa.State
