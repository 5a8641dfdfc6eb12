import LibLisa.Lib.Cells
import LibLisa.State.ByteView

/-!
# The bytes of a view are cells

The registers and the memory, as far as they are seen through a view of bytes, are cells in the sense
of `Cells`. That holds because every byte that is not in the registers has its own place in the memory
(`locate_injective`), and because the registers are lawful.
-/

namespace LibLisa.State

open Lib Encoding List SystemStateByteView Option

variable {A : Arch}

/-- The registers and the memory. -/
abbrev Seen (A : Arch) := A.CpuState × List MemoryEntry

/-- What is seen of a state. -/
def SystemState.seen (s : SystemState A) : Seen A := (s.cpu, s.memory)

/-! ## Bytes of the memory -/

/-- A byte of an entry is replaced. -/
def writeByte (m : List MemoryEntry) (p : ℕ × ℕ) (v : U8) : List MemoryEntry :=
  m.modify p.1 fun e => { e with data := e.data.set p.2 v }

/-- The byte of an entry, or zero if there is none. -/
def readByte (m : List MemoryEntry) (p : ℕ × ℕ) : U8 :=
  ((m[p.1]?).bind fun e => e.data[p.2]?).getD 0

lemma getElem?_writeByte (m : List MemoryEntry) (p : ℕ × ℕ) (v : U8) (k : ℕ) :
    (writeByte m p v)[k]? =
      m[k]?.map fun e => if p.1 = k then { e with data := e.data.set p.2 v } else e :=
  getElem?_modify _ _ _ _

/-- The bytes of the memory as cells. -/
def memoryCells : Cells (List MemoryEntry) (ℕ × ℕ) U8 where
  read := readByte
  write := writeByte
  write_read m p := by
    apply ext_getElem?
    intro k
    rw [getElem?_writeByte]
    rcases hm : m[k]? with _ | e
    · rfl
    · rw [map_some]
      split
      next hk =>
        subst hk
        have hset : e.data.set p.2 (readByte m p) = e.data := by
          unfold readByte
          rw [hm, bind_some]
          rcases hd : e.data[p.2]? with _ | b
          · exact set_eq_of_length_le (getElem?_eq_none_iff.mp hd)
          · obtain ⟨hlt, rfl⟩ := List.getElem?_eq_some_iff.mp hd
            exact set_getElem_self hlt
        rw [hset]
      next => rfl
  write_write m p v w := by
    unfold writeByte
    rw [modify_modify_eq]
    congr 1
    funext e
    show ({ e with data := (e.data.set p.2 v).set p.2 w } : MemoryEntry) = _
    rw [set_set]
  write_comm m p q v w hne := by
    unfold writeByte
    by_cases hi : p.1 = q.1
    · have hoff : p.2 ≠ q.2 := fun hoff => hne (Prod.ext hi hoff)
      rw [hi, modify_modify_eq, modify_modify_eq]
      congr 1
      funext e
      show ({ e with data := (e.data.set p.2 v).set q.2 w } : MemoryEntry) =
        { e with data := (e.data.set q.2 w).set p.2 v }
      rw [set_comm _ _ hoff]
    · exact modify_modify_ne _ _ _ hi
  read_write_of_ne m p q v hne := by
    unfold readByte
    rw [getElem?_writeByte]
    rcases m[q.1]? with _ | e
    · rfl
    · rw [map_some, bind_some, bind_some]
      split
      next hi =>
        have hoff : p.2 ≠ q.2 := fun hoff => hne (Prod.ext hi hoff)
        show ((e.data.set p.2 v)[q.2]?).getD 0 = _
        rw [getElem?_set_ne hoff]
      next => rfl

namespace SystemStateByteView

variable {view : SystemStateByteView A} {l : List (MemoryAccess A.Reg × ℕ)} {p : ℕ × ℕ}

lemma index_mem_of_findAccess {x offset : ℕ} (h : findAccess x offset l = some p) :
    p.1 ∈ l.map Prod.snd := by
  induction l generalizing offset with
  | nil => cases h
  | cons head l ih =>
    unfold findAccess at h
    split at h
    · obtain rfl := some.inj h
      exact (.head _)
    · exact .tail _ (ih h)

/-- A place in the memory belongs to one byte only. -/
lemma findAccess_injective {x y offset : ℕ} (hnodup : (l.map Prod.snd).Nodup) (hx : offset ≤ x)
    (hy : offset ≤ y) (h : findAccess x offset l = some p) (h' : findAccess y offset l = some p) :
    x = y := by
  induction l generalizing offset with
  | nil => cases h
  | cons head l ih =>
    rw [map_cons, nodup_cons] at hnodup
    unfold findAccess at h h'
    split at h <;> split at h'
    · obtain ⟨-, hoff⟩ := Prod.mk.inj (some.inj (h.trans h'.symm))
      omega
    · obtain rfl := some.inj h
      exact absurd (index_mem_of_findAccess h') hnodup.1
    · obtain rfl := some.inj h'
      exact absurd (index_mem_of_findAccess h) hnodup.1
    · exact ih hnodup.2 (by omega) (by omega) h h'

lemma locate_injective {j k : ℕ} (hj : view.bytes.size ≤ j) (hk : view.bytes.size ≤ k)
    (h : view.locate j = some p) (h' : view.locate k = some p) : j = k := by
  have hnodup : ((view.memoryAccesses.memory.zipIdx.drop 1).map Prod.snd).Nodup := by
    rw [map_drop, zipIdx_map_snd]
    exact (nodup_range').sublist (drop_sublist _ _)
  have := findAccess_injective hnodup (Nat.zero_le _) (Nat.zero_le _) h h'
  omega

/-- The value of a byte in what is seen. -/
def readSeen (view : SystemStateByteView A) (o : Seen A) (k : ℕ) : U8 :=
  if k < view.bytes.size then view.bytes.getStateByte o.1 k
  else ((view.locate k).map (readByte o.2)).getD 0

/-- A byte of what is seen is replaced. -/
def writeSeen (view : SystemStateByteView A) (o : Seen A) (k : ℕ) (v : U8) : Seen A :=
  if k < view.bytes.size then (view.bytes.setStateByte o.1 k v, o.2)
  else (o.1, ((view.locate k).map fun p => writeByte o.2 p v).getD o.2)

section Cases

variable {o : Seen A} {k : ℕ} {v : U8} {p : ℕ × ℕ}

lemma readSeen_reg (hk : k < view.bytes.size) :
    view.readSeen o k = view.bytes.getStateByte o.1 k := if_pos hk

lemma writeSeen_reg (hk : k < view.bytes.size) :
    view.writeSeen o k v = (view.bytes.setStateByte o.1 k v, o.2) := if_pos hk

section

variable (hk : ¬ k < view.bytes.size)
include hk

lemma readSeen_memory (hp : view.locate k = some p) :
    view.readSeen o k = memoryCells.read o.2 p := by
  unfold readSeen
  rw [if_neg hk, hp]
  rfl

lemma writeSeen_memory (hp : view.locate k = some p) :
    view.writeSeen o k v = (o.1, memoryCells.write o.2 p v) := by
  unfold writeSeen
  rw [if_neg hk, hp]
  rfl

lemma writeSeen_none (hp : view.locate k = none) : view.writeSeen o k v = o := by
  unfold writeSeen
  rw [if_neg hk, hp]
  rfl

lemma readSeen_none (hp : view.locate k = none) : view.readSeen o k = 0 := by
  unfold readSeen
  rw [if_neg hk, hp]
  rfl

end

/-- A byte is one of the registers, one of the memory, or none. -/
lemma place_cases (view : SystemStateByteView A) (k : ℕ) :
    k < view.bytes.size ∨ (¬ k < view.bytes.size ∧ view.locate k = none) ∨
      ¬ k < view.bytes.size ∧ ∃ p, view.locate k = some p := by
  by_cases hk : k < view.bytes.size
  · exact .inl hk
  · rcases hp : view.locate k with _ | p
    · exact .inr (.inl ⟨hk, rfl⟩)
    · exact .inr (.inr ⟨hk, p, rfl⟩)

section

variable (hb : view.bytes.Lawful)
include hb

lemma writeSeen_readSeen (o : Seen A) (k : ℕ) : view.writeSeen o k (view.readSeen o k) = o := by
  rcases view.place_cases k with hk | ⟨hk, hp⟩ | ⟨hk, p, hp⟩
  · rw [writeSeen_reg hk, readSeen_reg hk, hb.set_get o.1 k hk]
  · rw [writeSeen_none hk hp]
  · rw [writeSeen_memory hk hp, readSeen_memory hk hp, memoryCells.write_read]

lemma writeSeen_writeSeen (o : Seen A) (k : ℕ) (v w : U8) :
    view.writeSeen (view.writeSeen o k v) k w = view.writeSeen o k w := by
  rcases view.place_cases k with hk | ⟨hk, hp⟩ | ⟨hk, p, hp⟩
  · rw [writeSeen_reg hk, writeSeen_reg hk, writeSeen_reg hk, hb.set_set o.1 k hk]
  · rw [writeSeen_none hk hp, writeSeen_none hk hp, writeSeen_none hk hp]
  · rw [writeSeen_memory hk hp, writeSeen_memory hk hp, writeSeen_memory hk hp,
      memoryCells.write_write]

lemma writeSeen_comm (o : Seen A) (k l : ℕ) (v w : U8) (hne : k ≠ l) :
    view.writeSeen (view.writeSeen o k v) l w = view.writeSeen (view.writeSeen o l w) k v := by
  rcases view.place_cases k with hk | ⟨hk, hp⟩ | ⟨hk, p, hp⟩
  · rcases view.place_cases l with hl | ⟨hl, hq⟩ | ⟨hl, q, hq⟩
    · rw [writeSeen_reg hk, writeSeen_reg hk, writeSeen_reg hl, writeSeen_reg hl,
        hb.set_comm o.1 k hk l hl v w hne]
    · rw [writeSeen_none hl hq, writeSeen_none hl hq]
    · rw [writeSeen_reg hk, writeSeen_reg hk, writeSeen_memory hl hq, writeSeen_memory hl hq]
  · rw [writeSeen_none hk hp, writeSeen_none hk hp]
  · rcases view.place_cases l with hl | ⟨hl, hq⟩ | ⟨hl, q, hq⟩
    · rw [writeSeen_reg hl, writeSeen_reg hl, writeSeen_memory hk hp, writeSeen_memory hk hp]
    · rw [writeSeen_none hl hq, writeSeen_none hl hq]
    · have hpq : p ≠ q := by
        rintro rfl
        exact hne (locate_injective (Nat.not_lt.mp hk) (Nat.not_lt.mp hl) hp hq)
      rw [writeSeen_memory hk hp, writeSeen_memory hk hp, writeSeen_memory hl hq,
        writeSeen_memory hl hq, memoryCells.write_comm _ _ _ _ _ hpq]

lemma readSeen_writeSeen_of_ne (o : Seen A) (k l : ℕ) (v : U8) (hne : k ≠ l) :
    view.readSeen (view.writeSeen o k v) l = view.readSeen o l := by
  rcases view.place_cases k with hk | ⟨hk, hp⟩ | ⟨hk, p, hp⟩
  · rw [writeSeen_reg hk]
    rcases view.place_cases l with hl | ⟨hl, hq⟩ | ⟨hl, q, hq⟩
    · rw [readSeen_reg hl, readSeen_reg hl, hb.get_set_of_ne o.1 k hk l hl v hne]
    · rw [readSeen_none hl hq, readSeen_none hl hq]
    · rw [readSeen_memory hl hq, readSeen_memory hl hq]
  · rw [writeSeen_none hk hp]
  · rw [writeSeen_memory hk hp]
    rcases view.place_cases l with hl | ⟨hl, hq⟩ | ⟨hl, q, hq⟩
    · rw [readSeen_reg hl, readSeen_reg hl]
    · rw [readSeen_none hl hq, readSeen_none hl hq]
    · have hpq : p ≠ q := by
        rintro rfl
        exact hne (locate_injective (Nat.not_lt.mp hk) (Nat.not_lt.mp hl) hp hq)
      rw [readSeen_memory hl hq, readSeen_memory hl hq, memoryCells.read_write_of_ne _ _ _ _ hpq]

end

/-- The bytes of a view as cells of what is seen. -/
def cells (hb : view.bytes.Lawful) : Cells (Seen A) ℕ U8 where
  read := view.readSeen
  write := view.writeSeen
  write_read := writeSeen_readSeen hb
  write_write := writeSeen_writeSeen hb
  write_comm := writeSeen_comm hb
  read_write_of_ne := readSeen_writeSeen_of_ne hb

/-- The byte exists: it is one of the registers, or inside an entry of the memory. -/
def InRange (view : SystemStateByteView A) (o : Seen A) (k : ℕ) : Prop :=
  k < view.bytes.size ∨ ∃ p e, view.locate k = some p ∧ o.2[p.1]? = some e ∧ p.2 < e.data.length

lemma InRange.of_data (hrange : view.InRange o k) {o' : Seen A}
    (h : ∀ (i : ℕ) (e : MemoryEntry), o.2[i]? = some e →
      ∃ e', o'.2[i]? = some e' ∧ e'.data.length = e.data.length) : view.InRange o' k := by
  rcases hrange with hk | ⟨p, e, hp, he, hlt⟩
  · exact .inl hk
  · obtain ⟨e', he', hlen⟩ := h p.1 e he
    exact .inr ⟨p, e', hp, he', by rwa [hlen]⟩

/-- A write keeps the sizes, the addresses and the permissions of all entries. -/
lemma writeSeen_entry {i : ℕ} {e : MemoryEntry} (he : o.2[i]? = some e) (k : ℕ) (v : U8) :
    ∃ e', (view.writeSeen o k v).2[i]? = some e' ∧ e'.data.length = e.data.length ∧
      e'.addr = e.addr := by
  rcases view.place_cases k with hk | ⟨hk, hp⟩ | ⟨hk, p, hp⟩
  · rw [writeSeen_reg hk]
    exact ⟨e, he, rfl, rfl⟩
  · rw [writeSeen_none hk hp]
    exact ⟨e, he, rfl, rfl⟩
  · rw [writeSeen_memory hk hp]
    show ∃ e', (writeByte o.2 p v)[i]? = some e' ∧ _
    rw [getElem?_writeByte, he]
    refine ⟨_, rfl, ?_⟩
    split
    · exact ⟨length_set, rfl⟩
    · exact ⟨rfl, rfl⟩

lemma length_writeSeen (o : Seen A) (k : ℕ) (v : U8) :
    (view.writeSeen o k v).2.length = o.2.length := by
  rcases view.place_cases k with hk | ⟨hk, hp⟩ | ⟨hk, p, hp⟩
  · rw [writeSeen_reg hk]
  · rw [writeSeen_none hk hp]
  · rw [writeSeen_memory hk hp]
    exact length_modify _ _ _

/-! ## The functions of the source -/

variable {s s' : SystemState A}

lemma get_eq_ok_iff :
    view.get s k = .ok v ↔ view.InRange s.seen k ∧ view.readSeen s.seen k = v := by
  rcases view.place_cases k with hk | ⟨hk, hp⟩ | ⟨hk, p, hp⟩
  · rw [readSeen_reg hk]
    have hget : view.get s k = .ok (view.bytes.getStateByte s.cpu k) := by
      unfold get asReg
      rw [if_neg (Nat.not_le.mpr hk)]
      rfl
    rw [hget]
    exact ⟨fun h => ⟨.inl hk, Except.ok.inj h⟩, fun h => congrArg Except.ok h.2⟩
  · have hget : view.get s k = .error .explicitPanic := by
      unfold get asReg
      rw [if_pos (Nat.not_lt.mp hk), hp]
      rfl
    rw [hget]
    refine ⟨nofun, ?_⟩
    rintro ⟨hk' | ⟨p, e, hp', -⟩, -⟩
    · exact absurd hk' hk
    · nomatch hp.symm.trans hp'
  · rw [readSeen_memory hk hp]
    have hget : view.get s k = (do
        orPanic .indexOutOfBounds (← s.entry p.1).data[p.2]?) := by
      unfold get asReg
      rw [if_pos (Nat.not_lt.mp hk), hp]
      rfl
    rw [hget]
    constructor
    · intro h
      obtain ⟨e, he, h⟩ := ok_of_bind h
      have he' := eq_some_of_orPanic he
      have hv := eq_some_of_orPanic h
      refine ⟨.inr ⟨p, e, hp, he', (lt_of_getElem? hv)⟩, ?_⟩
      show readByte s.memory p = v
      unfold readByte
      rw [he', bind_some, hv]
      rfl
    · rintro ⟨hk' | ⟨q, e, hq, he, hlt⟩, hv⟩
      · exact absurd hk' hk
      · obtain rfl := mem_unique hp hq
        have he' : s.memory[p.1]? = some e := he
        have hv' : readByte s.memory p = v := hv
        unfold readByte at hv'
        rw [he', bind_some, getElem?_eq_getElem hlt] at hv'
        unfold SystemState.entry
        rw [he', orPanic_some, ok_bind, getElem?_eq_getElem hlt]
        exact congrArg Except.ok hv'

lemma set_ok (v : U8) (hrange : view.InRange s.seen k) :
    ∃ s', view.set s k v = .ok s' ∧ s'.seen = view.writeSeen s.seen k v := by
  by_cases hk : k < view.bytes.size
  · refine ⟨{ s with cpu := view.bytes.setStateByte s.cpu k v }, ?_, ?_⟩
    · unfold set
      rw [if_pos hk]
      rfl
    · rw [writeSeen_reg hk]
      rfl
  · obtain ⟨p, e, hp, he, hlt⟩ := hrange.resolve_left hk
    have he' : s.memory[p.1]? = some e := he
    refine ⟨{ s with memory := s.memory.set p.1 { e with data := e.data.set p.2 v } }, ?_, ?_⟩
    · unfold set asReg
      rw [if_neg hk, if_pos (Nat.not_lt.mp hk), hp]
      show setData s p.1 p.2 v = _
      unfold setData SystemState.entry
      rw [he', orPanic_some, ok_bind, if_pos hlt]
      rfl
    · rw [writeSeen_memory hk hp]
      apply Prod.ext
      · rfl
      · show s.memory.set p.1 _ = writeByte s.memory p v
        unfold writeByte
        rw [modify_eq_set_getElem?, he']
        rfl

lemma inRange_of_set (h : view.set s k v = .ok s') : view.InRange s.seen k := by
  unfold set at h
  split at h
  next hk => exact .inl hk
  next hk =>
    unfold asReg at h
    rw [if_pos (Nat.not_lt.mp hk)] at h
    obtain ⟨⟨reg, offset⟩, hreg, h⟩ := ok_of_bind h
    obtain ⟨p, hp, hreg⟩ := ok_of_bind hreg
    obtain ⟨rfl, rfl⟩ := ok_pair_inj hreg
    obtain ⟨e, he, h⟩ := ok_of_bind h
    split at h
    next hlt => exact .inr ⟨p, e, eq_some_of_orPanic hp, eq_some_of_orPanic he, hlt⟩
    next => cases h

end Cases

end SystemStateByteView

end LibLisa.State
