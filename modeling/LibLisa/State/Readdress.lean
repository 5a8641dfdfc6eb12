import LibLisa.State.Adapt
import LibLisa.State.ByteView

/-!
# What adapting a state leaves alone

`adapt` and `update_memory_addresses_unchecked` give the memory entries of the accesses new addresses.
`adapt` also crops entries that are larger than their accesses (`Adjusted`), and it stops early when
an address is not acceptable; if it does not, the addresses are the ones that the registers determine
(`Settled`).
-/

namespace LibLisa.State

open Lib Encoding List Except Option

variable {A : Arch} {rest : List (MemoryAccess A.Reg × ℕ)} {i : ℕ} {e e' : MemoryEntry}

namespace StateGen

variable {g : StateGen A} {s s' : SystemState A} {m m' m'' : List MemoryEntry} {k len : ℕ}
  {changedInstr adapted : Bool} {access : MemoryAccess A.Reg}

/-- The data of an entry that its access can see. The instruction is not cropped. -/
def window (g : StateGen A) (k : ℕ) (data : List U8) : List U8 :=
  match g.accesses.memory[k]? with
  | some access => if k = 0 then data else data.take access.size.2.toNat
  | none => data

lemma window_window (data : List U8) : g.window k (g.window k data) = g.window k data := by
  unfold window
  split
  · split
    · rfl
    · rw [take_take, Nat.min_self]
  · rfl

lemma length_window_le (data : List U8) : (g.window k data).length ≤ data.length := by
  unfold window
  split
  · split
    · exact Nat.le_refl _
    · exact length_take_le' _ _
  · exact Nat.le_refl _

lemma window_eq_self {data : List U8} (h : data.length ≤ (g.window k data).length) :
    g.window k data = data := by
  unfold window at h ⊢
  split at h
  · split at h
    next hk => rw [if_pos hk]
    next hk =>
      rw [if_neg hk]
      rw [length_take] at h
      exact take_of_length_le (Nat.le_trans h (Nat.min_le_left _ _))
  · rfl

/-- An entry that may have been moved and cropped. -/
structure EntryAdjusted (g : StateGen A) (k : ℕ) (e e' : MemoryEntry) : Prop where
  perms_eq : e'.perms = e.perms
  window_eq : g.window k e'.data = g.window k e.data
  length_le : e'.data.length ≤ e.data.length
  addr_eq : g.accesses.memory.length ≤ k → e'.addr = e.addr

/-- A memory in which entries may have been moved and cropped. -/
structure Adjusted (g : StateGen A) (m m' : List MemoryEntry) : Prop where
  length_eq : m'.length = m.length
  entries : ∀ k e e', m[k]? = some e → m'[k]? = some e' → g.EntryAdjusted k e e'

lemma EntryAdjusted.refl (e : MemoryEntry) : g.EntryAdjusted k e e :=
  ⟨rfl, rfl, Nat.le_refl _, fun _ => rfl⟩

lemma Adjusted.refl (m : List MemoryEntry) : g.Adjusted m m := by
  refine ⟨rfl, fun k e e' he he' => ?_⟩
  obtain rfl := mem_unique he he'
  exact .refl e

lemma Adjusted.trans (h : g.Adjusted m m') (h' : g.Adjusted m' m'') : g.Adjusted m m'' := by
  refine ⟨h'.length_eq.trans h.length_eq, fun k e e'' he he'' => ?_⟩
  have he' := getElem?_eq_getElem (h'.length_eq ▸ lt_of_getElem? he'')
  have hadj' := h'.entries k _ e'' he' he''
  have hadj := h.entries k e _ he he'
  exact ⟨hadj'.perms_eq.trans hadj.perms_eq, hadj'.window_eq.trans hadj.window_eq,
    Nat.le_trans hadj'.length_le hadj.length_le,
    fun hk => (hadj'.addr_eq hk).trans (hadj.addr_eq hk)⟩

lemma Adjusted.set (he : m[k]? = some e) (h : g.EntryAdjusted k e e') :
    g.Adjusted m (m.set k e') := by
  refine ⟨length_set, fun i x x' hx hx' => ?_⟩
  rw [getElem?_set] at hx'
  split at hx'
  next hi =>
    subst hi
    rw [if_pos (lt_of_getElem? he)] at hx'
    obtain rfl := some.inj hx'
    obtain rfl := mem_unique he hx
    exact h
  next =>
    obtain rfl := mem_unique hx hx'
    exact .refl x

/-- The entry has the address that the access computes, and it is not larger than the access. -/
def Settled (g : StateGen A) (s : SystemState A) (k : ℕ) : Prop :=
  ∀ e access, g.IsEntry s.memory k e access →
    computeAddress access s.cpu = .ok e.addr ∧ (k ≠ 0 → e.data.length ≤ access.size.2.toNat)

lemma Settled.set_of_lt (h : g.Settled s k) (hk : k < i) (e : MemoryEntry) :
    g.Settled { s with memory := s.memory.set i e } k :=
  fun e' access he' => h e' access ((isEntry_set_of_lt hk).mp he')

lemma crop_eq_ok (h : crop s i access = .ok s')
    (haccess : g.accesses.memory[i]? = some access) (he : s.memory[i]? = some e) :
    s' = { s with memory := s.memory.set i { e with data := g.window i e.data } } := by
  unfold crop at h
  unfold window
  rw [haccess]
  dsimp only
  split at h
  next hi =>
    obtain rfl := ok.inj h
    rw [if_pos hi]
    obtain ⟨hlt, rfl⟩ := List.getElem?_eq_some_iff.mp he
    rw [set_getElem_self]
  next hi =>
    obtain ⟨e', he', h⟩ := ok_of_bind h
    obtain rfl := mem_unique (eq_some_of_orPanic he') he
    obtain rfl := ok.inj h
    rw [if_neg hi]

lemma entryAdjusted_window (e : MemoryEntry) :
    g.EntryAdjusted k e { e with data := g.window k e.data } :=
  ⟨rfl, window_window e.data, length_window_le e.data, fun _ => rfl⟩

/-- The second loop of `adapt_up_to_len`. -/
lemma cropLoop_adjusted (hrest : rest = g.remaining len i) (h : cropLoop rest s = .ok s') :
    g.Adjusted s.memory s'.memory := by
  induction rest generalizing s i with
  | nil =>
    obtain rfl := ok.inj h
    exact .refl _
  | cons head rest ih =>
    obtain ⟨access, index⟩ := head
    obtain ⟨rfl, haccess, hrest'⟩ := of_remaining_eq_cons hrest
    obtain ⟨s₁, hs₁, h⟩ := ok_of_bind h
    refine Adjusted.trans ?_ (ih hrest' h)
    rcases he : s.memory[index]? with _ | e
    · -- without an entry only the instruction is passed over
      unfold crop at hs₁
      split at hs₁
      · obtain rfl := ok.inj hs₁
        exact .refl _
      · obtain ⟨e, he', -⟩ := ok_of_bind hs₁
        exact absurd (he.symm.trans (eq_some_of_orPanic he')) nofun
    · rw [crop_eq_ok hs₁ haccess he]
      exact .set he (entryAdjusted_window e)

lemma Settled.of_adjusted (h : g.Settled s k) (hcpu : s'.cpu = s.cpu)
    (hadj : g.Adjusted s.memory s'.memory) (hkeys : keys s'.memory = keys s.memory) :
    g.Settled s' k := by
  intro e' access he'
  obtain ⟨e₀, he₀, haddr, -⟩ := he'.of_keys hkeys.symm
  obtain ⟨hcomputed, hlen⟩ := h e₀ access he₀
  refine ⟨by rw [hcpu, hcomputed, haddr], fun hk => ?_⟩
  exact Nat.le_trans (hadj.entries k e₀ e' he₀.entry he'.entry).length_le (hlen hk)

/-- Step `i` of the main loop, when the address is accepted and aligned. -/
lemma adaptStep_spec {newAddr : U64} {s₁ : SystemState A}
    (haccess : g.accesses.memory[i]? = some access) (he : s.memory[i]? = some e)
    (hnew : computeAddress access s.cpu = .ok newAddr) (hmove : moveEntry s i e newAddr = .ok s₁) :
    s₁.cpu = s.cpu ∧ g.Adjusted s.memory s₁.memory ∧
      ∀ s₂, crop s₁ i access = .ok s₂ → s₂.cpu = s.cpu ∧ g.Adjusted s.memory s₂.memory ∧
        ((∀ k < i, g.Settled s k) → ∀ k < i + 1, g.Settled s₂ k) := by
  obtain rfl := moveEntry_spec he hmove
  have hi := lt_of_getElem? he
  have hlt := lt_of_getElem? haccess
  have hadj : g.Adjusted s.memory (s.memory.set i { e with addr := newAddr }) :=
    .set he ⟨rfl, rfl, Nat.le_refl _, fun hge => absurd hlt (Nat.not_lt.mpr hge)⟩
  refine ⟨rfl, hadj, fun s₂ hs₂ => ?_⟩
  have he₁ : (s.memory.set i { e with addr := newAddr })[i]? = some { e with addr := newAddr } :=
    getElem?_set_self hi
  have hadj₂ : g.Adjusted s.memory ((s.memory.set i { e with addr := newAddr }).set i
      ⟨newAddr, e.perms, g.window i e.data⟩) :=
    hadj.trans (.set he₁ (entryAdjusted_window _))
  obtain rfl := crop_eq_ok hs₂ haccess he₁
  refine ⟨rfl, hadj₂, fun hsettled k hk => ?_⟩
  rcases Nat.lt_succ_iff_lt_or_eq.mp hk with hk | rfl
  · exact ((hsettled k hk).set_of_lt hk _).set_of_lt hk _
  · intro e' access' he'
    have he₂ : ((s.memory.set k { e with addr := newAddr }).set k
        ⟨newAddr, e.perms, g.window k e.data⟩)[k]? = some ⟨newAddr, e.perms, g.window k e.data⟩ :=
      getElem?_set_self (by rwa [length_set])
    obtain ⟨rfl, rfl⟩ := IsEntry.unique he₂ haccess he'
    refine ⟨hnew, fun hk0 => ?_⟩
    unfold window
    rw [haccess]
    dsimp only
    rw [if_neg hk0]
    exact length_take_le _ _

/-- Once no accesses are left, all entries have been visited. -/
lemma settled_of_remaining_eq_nil (h : ∀ k < i, g.Settled s k)
    (hnil : [] = g.remaining len i) (hk : k < len) : g.Settled s k := by
  rcases Nat.lt_or_ge k i with hlt | hge
  · exact h k hlt
  · intro e access he
    have hle := drop_eq_nil_iff.mp hnil.symm
    rw [length_take, length_zipIdx] at hle
    have := lt_of_getElem? he.access
    omega

/-- The main loop, from the access at `i` on. -/
lemma adaptLoop_adjusted {allEq adapted : Bool} (hrest : rest = g.remaining len i)
    (hsettled : ∀ k < i, g.Settled s k) (h : g.adaptLoop rest allEq s = .ok (adapted, s')) :
    s'.cpu = s.cpu ∧ g.Adjusted s.memory s'.memory ∧
      (adapted = true → ∀ k < len, g.Settled s' k) := by
  induction rest generalizing s allEq i with
  | nil =>
    obtain ⟨rfl, rfl⟩ := ok_pair_inj h
    exact ⟨rfl, .refl _, fun _ k hk => settled_of_remaining_eq_nil hsettled hrest hk⟩
  | cons head rest ih =>
    obtain ⟨rfl, haccess, hrest'⟩ := of_remaining_eq_cons hrest
    obtain ⟨newAddr, e, hnew, he, h⟩ := ok_of_bind₂ h
    obtain ⟨accepts, -, h⟩ := ok_of_bind h
    split at h
    · obtain ⟨s₁, hs₁, h⟩ := ok_of_bind h
      obtain ⟨hcpu₁, hadj₁, hcrop⟩ := adaptStep_spec haccess (eq_some_of_orPanic he) hnew hs₁
      obtain ⟨al, -, h⟩ := ok_of_bind h
      split at h
      · obtain ⟨s₂, hs₂, h⟩ := ok_of_bind h
        obtain ⟨hcpu₂, hadj₂, hsettled₂⟩ := hcrop s₂ hs₂
        obtain ⟨hcpu, hadj, hdone⟩ := ih hrest' (hsettled₂ hsettled) h
        exact ⟨hcpu.trans hcpu₂, hadj₂.trans hadj, hdone⟩
      · obtain ⟨rfl, rfl⟩ := ok_pair_inj h
        exact ⟨hcpu₁, hadj₁, nofun⟩
    · obtain ⟨rfl, rfl⟩ := ok_pair_inj h
      exact ⟨rfl, .refl _, nofun⟩

lemma adaptUpToLen_adjusted (h : g.adaptUpToLen s changedInstr len = .ok (adapted, s')) :
    s'.cpu = s.cpu ∧ g.Adjusted s.memory s'.memory ∧
      (adapted = true → ∀ k < len, g.Settled s' k) := by
  rcases adaptUpToLen_cases h with ⟨rfl, rfl⟩ | ⟨rfl, hloop⟩ | ⟨s₁, s₂, rfl, hloop, hcrop, rfl⟩
  · exact ⟨rfl, .refl _, nofun⟩
  · obtain ⟨hcpu, hadj, -⟩ := adaptLoop_adjusted (i := 0) rfl nofun hloop
    exact ⟨hcpu, hadj, nofun⟩
  · obtain ⟨hcpu, hadj, hsettled⟩ := adaptLoop_adjusted (i := 0) rfl nofun hloop
    obtain ⟨hcpu₂, -, hkeys⟩ := cropLoop_spec hcrop
    have hadj₂ := cropLoop_adjusted (i := 0) rfl hcrop
    obtain ⟨hcpu₃, hmemory⟩ := markValid_spec s₂ len
    refine ⟨hcpu₃.trans (hcpu₂.trans hcpu), hmemory ▸ hadj.trans hadj₂, fun _ k hk => ?_⟩
    apply (hsettled rfl k hk).of_adjusted (hcpu₃.trans hcpu₂)
    · rwa [hmemory]
    · rwa [hmemory]

lemma adapt_adjusted (h : g.adapt s changedInstr = .ok (adapted, s')) :
    s'.cpu = s.cpu ∧ g.Adjusted s.memory s'.memory ∧
      (adapted = true → ∀ k < s.memory.length, g.Settled s' k) := by
  unfold adapt at h
  split at h
  · exact adaptUpToLen_adjusted (s := { s with useTrapFlag := true }) h
  · exact adaptUpToLen_adjusted h

end StateGen

/-! ## Memories that differ in their addresses -/

/-- An entry without its address, if it is one of the first `n`. -/
def forget (n k : ℕ) (e : MemoryEntry) : MemoryEntry := if k < n then { e with addr := 0 } else e

/-- The memories are the same but for the addresses of the first `n` entries. -/
def SameContents (n : ℕ) (m m' : List MemoryEntry) : Prop :=
  ∀ k : ℕ, m[k]?.map (forget n k) = m'[k]?.map (forget n k)

lemma forget_eq_iff {n k : ℕ} :
    forget n k e = forget n k e' ↔
      e.perms = e'.perms ∧ e.data = e'.data ∧ (n ≤ k → e.addr = e'.addr) := by
  unfold forget
  split
  next hk =>
    rw [MemoryEntry.mk.injEq]
    exact ⟨fun h => ⟨h.2.1, h.2.2, fun hge => absurd hk (Nat.not_lt.mpr hge)⟩,
      fun h => ⟨rfl, h.1, h.2.1⟩⟩
  next hk =>
    rw [MemoryEntry.mk.injEq]
    exact ⟨fun h => ⟨h.2.1, h.2.2, fun _ => h.1⟩, fun h => ⟨h.2.2 (Nat.not_lt.mp hk), h.1, h.2.1⟩⟩

namespace SameContents

variable {n k : ℕ} {m m' m'' : List MemoryEntry}

lemma refl (m : List MemoryEntry) : SameContents n m m := fun _ => rfl

section

variable (h : SameContents n m m')
include h

lemma symm : SameContents n m' m := fun k => (h k).symm

lemma trans (h' : SameContents n m' m'') : SameContents n m m'' := fun k => (h k).trans (h' k)

lemma exists_entry (he : m[k]? = some e) :
    ∃ e', m'[k]? = some e' ∧ forget n k e = forget n k e' := by
  have hk := h k
  rw [he] at hk
  obtain ⟨e', he', heq⟩ := map_eq_some_iff.mp hk.symm
  exact ⟨e', he', heq.symm⟩

lemma length_le : m.length ≤ m'.length := by
  by_contra hlt
  rw [Nat.not_le] at hlt
  obtain ⟨e', he', -⟩ := h.exists_entry (getElem?_eq_getElem hlt)
  exact absurd (lt_of_getElem? he') (Nat.lt_irrefl _)

lemma length_eq : m.length = m'.length := Nat.le_antisymm h.length_le h.symm.length_le

/-- An update of an entry that does not use its address. -/
theorem modify (i : ℕ) {f : MemoryEntry → MemoryEntry}
    (hf : ∀ e, forget n i (f e) = f (forget n i e)) :
    SameContents n (m.modify i f) (m'.modify i f) := by
  intro k
  have hmodify : ∀ l : List MemoryEntry, (l.modify i f)[k]?.map (forget n k) =
      (l[k]?.map (forget n k)).map fun e => if i = k then f e else e := by
    intro l
    rw [getElem?_modify, Option.map_eq_map, Option.map_map, Option.map_map]
    congr 1
    funext e
    show forget n k (if i = k then f e else e) = if i = k then f (forget n k e) else forget n k e
    split
    next hk => rw [← hk, hf]
    next => rfl
  rw [hmodify, hmodify, h k]

end

lemma set_addr (he : m[k]? = some e) (hk : k < n) (addr : U64) :
    SameContents n m (m.set k { e with addr }) := by
  intro i
  rw [getElem?_set]
  split
  next hi =>
    subst hi
    rw [if_pos (lt_of_getElem? he), he]
    exact congrArg some (forget_eq_iff.mpr ⟨rfl, rfl, fun hge => absurd hk (Nat.not_lt.mpr hge)⟩)
  next => rfl

end SameContents

namespace StateGen

variable {g : StateGen A} {s s' : SystemState A} {m m' : List MemoryEntry}

/-- Nothing is cropped if no entry is larger than its access. -/
lemma Adjusted.sameContents (h : g.Adjusted m m')
    (hfits : ∀ k e, m[k]? = some e → g.window k e.data = e.data) :
    SameContents g.accesses.memory.length m m' := by
  intro k
  rcases he : m[k]? with _ | e
  · have hle : m'.length ≤ k := by
      rw [h.length_eq]
      exact getElem?_eq_none_iff.mp he
    rw [getElem?_eq_none_iff.mpr hle]
  · have hk : k < m'.length := by
      rw [h.length_eq]
      exact lt_of_getElem? he
    have he' := getElem?_eq_getElem hk
    rw [he']
    have hadj := h.entries k e _ he he'
    refine congrArg some (forget_eq_iff.mpr ⟨hadj.perms_eq.symm, ?_, fun hge =>
      (hadj.addr_eq hge).symm⟩)
    have hwindow := hadj.window_eq
    rw [hfits k e he] at hwindow
    -- what is seen of the new data is all of the old data, so nothing of it was cropped
    rw [← hwindow]
    apply window_eq_self
    rw [hwindow]
    exact hadj.length_le

/-! ## Updating the addresses without checks -/

/-- The loop of `update_memory_addresses_unchecked`, from the access at `i` on. -/
lemma updateLoop_ok (hrest : rest = g.remaining g.accesses.memory.length i)
    (hshape : g.accesses.memory.length ≤ s.memory.length)
    (hcompute : ∀ access ∈ g.accesses.memory, ∃ addr, computeAddress access s.cpu = .ok addr)
    (hcomputed : ∀ k < i, g.Computed s k) :
    ∃ s', updateLoop rest s = .ok s' ∧ s'.cpu = s.cpu ∧
      SameContents g.accesses.memory.length s.memory s'.memory ∧ ∀ k, g.Computed s' k := by
  induction rest generalizing s i with
  | nil =>
    refine ⟨s, rfl, rfl, .refl _, fun k => ?_⟩
    rcases Nat.lt_or_ge k i with hlt | hge
    · exact hcomputed k hlt
    · intro e access he
      have hle := drop_eq_nil_iff.mp hrest.symm
      rw [length_take, length_zipIdx] at hle
      have := lt_of_getElem? he.access
      omega
  | cons head rest ih =>
    obtain ⟨access, index⟩ := head
    obtain ⟨rfl, haccess, hrest'⟩ := of_remaining_eq_cons hrest
    have hlt := lt_of_getElem? haccess
    obtain ⟨addr, haddr⟩ := hcompute access (mem_of_getElem? haccess)
    have hindex := Nat.lt_of_lt_of_le hlt hshape
    have he := getElem?_eq_getElem hindex
    have hset : s.setAddr index addr =
        .ok { s with memory := s.memory.set index { s.memory[index] with addr } } := by
      unfold SystemState.setAddr SystemState.modifyEntry SystemState.entry
      rw [he]
      rfl
    obtain ⟨s', hs', hcpu, hsame, hdone⟩ := ih
      (s := { s with memory := s.memory.set index { s.memory[index] with addr } }) hrest'
      (by rwa [length_set]) hcompute (fun k hk => by
        intro e access' he'
        rcases Nat.lt_succ_iff_lt_or_eq.mp hk with hk | rfl
        · exact hcomputed k hk e access' ((isEntry_set_of_lt hk).mp he')
        · obtain ⟨rfl, rfl⟩ := IsEntry.unique (getElem?_set_self hindex) haccess he'
          exact haddr)
    refine ⟨s', ?_, hcpu, (SameContents.set_addr he hlt addr).trans hsame, hdone⟩
    unfold updateLoop
    rw [haddr, ok_bind, hset, ok_bind, hs']

lemma updateMemoryAddressesUnchecked_ok (hshape : g.accesses.memory.length ≤ s.memory.length)
    (hcompute : ∀ access ∈ g.accesses.memory, ∃ addr, computeAddress access s.cpu = .ok addr) :
    ∃ s', updateMemoryAddressesUnchecked g.accesses s = .ok s' ∧ s'.cpu = s.cpu ∧
      SameContents g.accesses.memory.length s.memory s'.memory ∧ ∀ k, g.Computed s' k := by
  apply updateLoop_ok (i := 0) _ hshape hcompute nofun
  unfold remaining
  rw [drop_zero, take_of_length_le (by rw [length_zipIdx])]

end StateGen

end LibLisa.State
