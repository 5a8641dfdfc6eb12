import LibLisa.Smt.Tree

/-!
# What the bytes of a tree say

The bytes that `to_bytes` gives are those of the tree with its constants renumbered (`ser`, of
`t.map`), and a tree can be read back from them (`decode_ser`). So two trees with the same bytes are
equal up to the choice of their constants, as long as no two constants got the same number.

Main results:
* `decode_ser`, `ser_injOn`: the bytes determine the renumbered tree;
* `toBytesInternal_spec`: what `to_bytes` writes, and what it does to the map;
* `Numbered.injOn`: the first 256 constants have different numbers.
-/

namespace LibLisa.Smt

open Lib Lib.Wire List Reader

variable {ι κ : Type}

namespace Tree

/-! ## Renaming the constants -/

mutual

/-- The tree with other constants. -/
def map (f : ι → κ) : Tree ι → Tree κ
  | .fixedBV val size => .fixedBV val size
  | .fixedInt val => .fixedInt val
  | .fixedBool val => .fixedBool val
  | .bv id size => .bv (f id) size
  | .bool id => .bool (f id)
  | .binOp op lhs rhs => .binOp op (lhs.map f) (rhs.map f)
  | .unOp op arg => .unOp op (arg.map f)
  | .ite cond lhs rhs => .ite (cond.map f) (lhs.map f) (rhs.map f)
  | .constInterp => .constInterp
  | .forAll bounds condition => .forAll (mapList f bounds) (condition.map f)
  | .select arr index => .select (arr.map f) (index.map f)
  | .store arr index value => .store (arr.map f) (index.map f) (value.map f)
  | .array id indexSize elementSize => .array (f id) indexSize elementSize

/-- `map` on the bounds of a quantifier. -/
def mapList (f : ι → κ) : List (Tree ι) → List (Tree κ)
  | [] => []
  | t :: ts => t.map f :: mapList f ts

end

mutual

/-- The constants of a tree, with their sorts. -/
def consts : Tree ι → List (ι × SmtSort)
  | .fixedBV _ _ | .fixedInt _ | .fixedBool _ | .constInterp => []
  | .bv id size => [(id, .bv size.toNat)]
  | .bool id => [(id, .bool)]
  | .binOp _ lhs rhs => lhs.consts ++ rhs.consts
  | .unOp _ arg => arg.consts
  | .ite cond lhs rhs => cond.consts ++ (lhs.consts ++ rhs.consts)
  | .forAll bounds condition => constsList bounds ++ condition.consts
  | .select arr index => arr.consts ++ index.consts
  | .store arr index value => arr.consts ++ (index.consts ++ value.consts)
  | .array id indexSize elementSize => [(id, .array indexSize.toNat elementSize.toNat)]

/-- `consts` on the bounds of a quantifier. -/
def constsList : List (Tree ι) → List (ι × SmtSort)
  | [] => []
  | t :: ts => t.consts ++ constsList ts

end

mutual

/-- The trees that `to_bytes` accepts. -/
def Plain : Tree ι → Prop
  | .fixedBV _ _ | .fixedInt _ | .fixedBool _ | .bv _ _ | .bool _ | .array _ _ _ => True
  | .binOp _ lhs rhs => lhs.Plain ∧ rhs.Plain
  | .unOp _ arg => arg.Plain
  | .ite cond lhs rhs => cond.Plain ∧ lhs.Plain ∧ rhs.Plain
  | .constInterp => False
  | .forAll bounds condition => bounds.length < 2 ^ 16 ∧ PlainList bounds ∧ condition.Plain
  | .select arr index => arr.Plain ∧ index.Plain
  | .store arr index value => arr.Plain ∧ index.Plain ∧ value.Plain

/-- `Plain` on the bounds of a quantifier. -/
def PlainList : List (Tree ι) → Prop
  | [] => True
  | t :: ts => t.Plain ∧ PlainList ts

end

mutual

/-- The bytes of a tree whose constants are numbers. -/
def ser : Tree U8 → List U8
  | .fixedBV val size => 0 :: (leBytes 8 val.toNat ++ leBytes 4 size.toNat)
  | .fixedInt val => 1 :: leBytes 8 val.toNat
  | .fixedBool val => [if val then 3 else 2]
  | .bv id size => 4 :: id :: leBytes 4 size.toNat
  | .bool id => [5, id]
  | .ite cond lhs rhs => 6 :: (cond.ser ++ (lhs.ser ++ rhs.ser))
  | .constInterp => []
  | .forAll bounds condition => 7 :: (leBytes 2 bounds.length ++ (serList bounds ++ condition.ser))
  | .unOp op arg => op.toBytes ++ arg.ser
  | .select arr index => 14 :: (arr.ser ++ index.ser)
  | .store arr index value => 15 :: (arr.ser ++ (index.ser ++ value.ser))
  | .array id indexSize elementSize =>
    16 :: id :: (leBytes 4 indexSize.toNat ++ leBytes 4 elementSize.toNat)
  | .binOp op lhs rhs => BitVec.ofNat 8 (0x80 + op.index) :: (lhs.ser ++ rhs.ser)

/-- `ser` on the bounds of a quantifier. -/
def serList : List (Tree U8) → List U8
  | [] => []
  | t :: ts => t.ser ++ serList ts

end

/-- Induction over trees; a quantifier has a hypothesis for each of its bounds. -/
@[induction_eliminator]
lemma induction {P : Tree ι → Prop} (fixedBV : ∀ val size, P (.fixedBV val size))
    (fixedInt : ∀ val, P (.fixedInt val)) (fixedBool : ∀ val, P (.fixedBool val))
    (bv : ∀ id size, P (.bv id size)) (bool : ∀ id, P (.bool id))
    (binOp : ∀ op lhs rhs, P lhs → P rhs → P (.binOp op lhs rhs))
    (unOp : ∀ op arg, P arg → P (.unOp op arg))
    (ite : ∀ cond lhs rhs, P cond → P lhs → P rhs → P (.ite cond lhs rhs))
    (constInterp : P .constInterp)
    (forAll : ∀ bounds condition, (∀ b ∈ bounds, P b) → P condition → P (.forAll bounds condition))
    (select : ∀ arr index, P arr → P index → P (.select arr index))
    (store : ∀ arr index value, P arr → P index → P value → P (.store arr index value))
    (array : ∀ id indexSize elementSize, P (.array id indexSize elementSize)) (t : Tree ι) : P t :=
  @Tree.rec ι P (fun l => ∀ b ∈ l, P b) fixedBV fixedInt fixedBool bv bool binOp unOp ite
    constInterp forAll select store array (fun _ hb => nomatch hb)
    (fun _ _ ht hts _ hb => (mem_cons.mp hb).elim (fun h => h ▸ ht) (hts _)) t

@[simp] lemma mapList_eq (f : ι → κ) (ts : List (Tree ι)) : mapList f ts = ts.map (map f) := by
  induction ts with
  | nil => rfl
  | cons t ts ih => rw [mapList, ih, map_cons]

@[simp] lemma constsList_eq (ts : List (Tree ι)) : constsList ts = ts.flatMap consts := by
  induction ts with
  | nil => rfl
  | cons t ts ih => rw [constsList, ih, flatMap_cons]

@[simp] lemma plainList_iff (ts : List (Tree ι)) : PlainList ts ↔ ∀ t ∈ ts, t.Plain := by
  induction ts with
  | nil => simp [PlainList]
  | cons t ts ih => rw [PlainList, ih, forall_mem_cons]

@[simp] lemma serList_eq (ts : List (Tree U8)) : serList ts = ts.flatMap ser := by
  induction ts with
  | nil => rfl
  | cons t ts ih => rw [serList, ih, flatMap_cons]

/-! ## Reading a tree back -/

/-- The operations in the order of their codes. -/
def binOps : List BinOp :=
  [.concat, .bvShl, .bvLShr, .bvAShr, .bvURem, .bvSRem, .bvUDiv, .bvSDiv, .bvRotL, .bvRotR, .bvSlt,
    .bvSge, .bvSgt, .bvUgt, .bvUlt, .bvUle, .bvUge, .eq, .add, .sub, .mul, .or, .and, .xor]

/-- The readers for what follows each of the tags from 0 on; `read` reads the trees inside. -/
def bodies (read : Reader (Tree U8)) : List (Reader (Tree U8)) :=
  [Reader.u64.andThen fun val => Reader.u32.andThen fun size => .done (.fixedBV val size),
    Reader.u64.andThen fun val => .done (.fixedInt val),
    .done (.fixedBool false),
    .done (.fixedBool true),
    Reader.byte.andThen fun id => Reader.u32.andThen fun size => .done (.bv id size),
    Reader.byte.andThen fun id => .done (.bool id),
    read.andThen fun cond => read.andThen fun lhs => read.andThen fun rhs =>
      .done (.ite cond lhs rhs),
    Reader.andThen (readLe 2) fun n => (read.many n).andThen fun bounds =>
      read.andThen fun condition => .done (.forAll bounds condition),
    read.andThen fun arg => .done (.unOp .bvFromInt arg),
    Reader.u32.andThen fun hi => Reader.u32.andThen fun lo => read.andThen fun arg =>
      .done (.unOp (.extract hi lo) arg),
    read.andThen fun arg => .done (.unOp .intFromBv arg),
    read.andThen fun arg => .done (.unOp .not arg),
    Reader.u32.andThen fun num => read.andThen fun arg => .done (.unOp (.signExt num) arg),
    Reader.u32.andThen fun num => read.andThen fun arg => .done (.unOp (.zeroExt num) arg),
    read.andThen fun arr => read.andThen fun index => .done (.select arr index),
    read.andThen fun arr => read.andThen fun index => read.andThen fun value =>
      .done (.store arr index value),
    Reader.byte.andThen fun id => Reader.u32.andThen fun indexSize =>
      Reader.u32.andThen fun elementSize => .done (.array id indexSize elementSize)]

/-- The rest of a tree after its tag. -/
def decodeBody (read : Reader (Tree U8)) (tag : ℕ) : Option (Reader (Tree U8)) :=
  if tag < 0x80 then (bodies read)[tag]?
  else (binOps[tag - 0x80]?).map fun op =>
    read.andThen fun lhs => read.andThen fun rhs => .done (.binOp op lhs rhs)

/-- A tree at the start of a string, and the rest; `fuel` bounds the number of bytes. -/
def decode : ℕ → Reader (Tree U8)
  | 0 => fun _ => none
  | fuel + 1 => Reader.byte.andThen fun tag bs =>
    (decodeBody (decode fuel) tag.toNat).bind fun read => read bs

variable {fuel : ℕ} {t : Tree U8}

lemma decode_cons (tag : U8) {read : Reader (Tree U8)}
    (h : decodeBody (decode fuel) tag.toNat = some read) (bs : List U8) :
    decode (fuel + 1) (tag :: bs) = read bs := by
  rw [decode, byte_andThen, h, Option.bind_some]

lemma decodeBody_binOp (read : Reader (Tree U8)) (op : BinOp) :
    decodeBody read (BitVec.ofNat 8 (0x80 + op.index)).toNat =
      some (read.andThen fun lhs => read.andThen fun rhs => .done (.binOp op lhs rhs)) := by
  have htag : (BitVec.ofNat 8 (0x80 + op.index)).toNat = 0x80 + op.index := by
    cases op <;> rfl
  have hop : binOps[op.index]? = some op := by
    cases op <;> rfl
  unfold decodeBody
  rw [htag, if_neg (by omega), Nat.add_sub_cancel_left, hop, Option.map_some]

lemma decode_unOp {arg : Tree U8} {rest : List U8}
    (harg : decode fuel (arg.ser ++ rest) = some (arg, rest)) (op : UnOp) :
    decode (fuel + 1) (op.toBytes ++ (arg.ser ++ rest)) = some (.unOp op arg, rest) := by
  cases op with
  | bvFromInt =>
    rw [UnOp.toBytes, singleton_append, decode_cons 8 rfl, andThen_eq harg]
    rfl
  | intFromBv =>
    rw [UnOp.toBytes, singleton_append, decode_cons 10 rfl, andThen_eq harg]
    rfl
  | not =>
    rw [UnOp.toBytes, singleton_append, decode_cons 11 rfl, andThen_eq harg]
    rfl
  | extract hi lo =>
    rw [UnOp.toBytes, cons_append, append_assoc, decode_cons 9 rfl, u32_andThen,
      u32_andThen, andThen_eq harg]
    rfl
  | zeroExt num =>
    rw [UnOp.toBytes, cons_append, decode_cons 13 rfl, u32_andThen, andThen_eq harg]
    rfl
  | signExt num =>
    rw [UnOp.toBytes, cons_append, decode_cons 12 rfl, u32_andThen, andThen_eq harg]
    rfl

lemma length_ser_pos (ht : t.Plain) : 0 < t.ser.length := by
  cases t with
  | constInterp => exact ht.elim
  | unOp op arg => cases op <;> simp [ser, UnOp.toBytes]
  | _ => simp [ser]

lemma length_ser_arg_lt (op : UnOp) (arg : Tree U8) :
    arg.ser.length < (Tree.unOp op arg).ser.length := by
  cases op <;> simp +arith [ser, UnOp.toBytes]

/-- A plain tree is read back, with what follows it. -/
theorem decode_ser (ht : t.Plain) (rest : List U8) (hfuel : t.ser.length ≤ fuel) :
    decode fuel (t.ser ++ rest) = some (t, rest) := by
  induction fuel generalizing t rest with
  | zero => exact absurd (length_ser_pos ht) (Nat.not_lt.mpr hfuel)
  | succ fuel ih =>
    cases t with
    | constInterp => exact ht.elim
    | fixedBV val size =>
      rw [ser, cons_append, append_assoc, decode_cons 0 rfl, u64_andThen, u32_andThen]
      rfl
    | fixedInt val =>
      rw [ser, cons_append, decode_cons 1 rfl, u64_andThen]
      rfl
    | fixedBool val => cases val <;> rfl
    | bv id size =>
      rw [ser, cons_append, cons_append, decode_cons 4 rfl, byte_andThen, u32_andThen]
      rfl
    | bool id => rfl
    | array id indexSize elementSize =>
      rw [ser, cons_append, cons_append, append_assoc, decode_cons 16 rfl, byte_andThen,
        u32_andThen, u32_andThen]
      rfl
    | binOp op lhs rhs =>
      simp only [ser, length_cons, length_append] at hfuel
      rw [ser, cons_append, append_assoc, decode_cons _ (decodeBody_binOp _ op),
        andThen_eq (ih ht.1 _ (by omega)), andThen_eq (ih ht.2 _ (by omega))]
      rfl
    | unOp op arg =>
      have hlt := length_ser_arg_lt op arg
      rw [ser, append_assoc]
      exact decode_unOp (ih (t := arg) ht rest (by omega)) op
    | ite cond lhs rhs =>
      simp only [ser, length_cons, length_append] at hfuel
      rw [ser, cons_append, append_assoc, append_assoc, decode_cons 6 rfl,
        andThen_eq (ih ht.1 _ (by omega)), andThen_eq (ih ht.2.1 _ (by omega)),
        andThen_eq (ih ht.2.2 _ (by omega))]
      rfl
    | forAll bounds condition =>
      simp only [ser, length_cons, length_append, serList_eq] at hfuel
      obtain ⟨hlen, hbounds, hcondition⟩ := ht
      rw [plainList_iff] at hbounds
      -- each bound is one of the parts of the string
      have hread : ∀ b ∈ bounds, ∀ rest, decode fuel (b.ser ++ rest) = some (b, rest) := by
        intro b hb rest
        have hle := (sublist_flatten_of_mem (mem_map_of_mem (f := ser) hb)).length_le
        rw [← flatMap_def] at hle
        exact ih (hbounds b hb) rest (by omega)
      rw [ser, serList_eq, cons_append, append_assoc, append_assoc, decode_cons 7 rfl,
        andThen_eq (readLe_leBytes (by omega) _), andThen_eq (many_flatMap hread _),
        andThen_eq (ih hcondition _ (by omega))]
      rfl
    | select arr index =>
      simp only [ser, length_cons, length_append] at hfuel
      rw [ser, cons_append, append_assoc, decode_cons 14 rfl,
        andThen_eq (ih ht.1 _ (by omega)), andThen_eq (ih ht.2 _ (by omega))]
      rfl
    | store arr index value =>
      simp only [ser, length_cons, length_append] at hfuel
      rw [ser, cons_append, append_assoc, append_assoc, decode_cons 15 rfl,
        andThen_eq (ih ht.1 _ (by omega)), andThen_eq (ih ht.2.1 _ (by omega)),
        andThen_eq (ih ht.2.2 _ (by omega))]
      rfl

/-- Plain trees with the same bytes are equal. -/
theorem ser_injOn : Set.InjOn ser {t : Tree U8 | t.Plain} := by
  intro t ht t' ht' h
  have hread := decode_ser ht [] (Nat.le_add_right t.ser.length t'.ser.length)
  rw [h, decode_ser ht' [] (Nat.le_add_left _ _)] at hread
  exact (Prod.mk.inj (Option.some.inj hread)).1.symm

/-- The constants of a tree. -/
def ids (t : Tree ι) : List ι := t.consts.map Prod.fst

end Tree

/-! ## The numbers of the constants -/

namespace IdMap

/-- The number of a constant. -/
def num (m : IdMap) (id : ConstId) : U8 := (m.lookup id).getD 0

/-- The constants that have a number. -/
def ids (m : IdMap) : List ConstId := m.map Prod.fst

/-- The numbers are given in order, to different constants. -/
structure Numbered (m : IdMap) : Prop where
  nodup : m.ids.Nodup
  nums : m.map Prod.snd = (List.range m.length).map (BitVec.ofNat 8)

lemma numbered_nil : Numbered [] := ⟨nodup_nil, rfl⟩

/-- `m'` has the numbers of `m`, and numbers for the constants in `ids`. -/
structure Grows (m : IdMap) (ids : List ConstId) (m' : IdMap) : Prop where
  le : m <+: m'
  numbered : m.Numbered → m'.Numbered
  mem_iff : ∀ id, id ∈ m'.ids ↔ id ∈ m.ids ∨ id ∈ ids

lemma Grows.refl (m : IdMap) : Grows m [] m := ⟨prefix_rfl, id, fun _ => by simp⟩

lemma Grows.trans {m m' m'' : IdMap} {ids ids' : List ConstId} (h : Grows m ids m')
    (h' : Grows m' ids' m'') : Grows m (ids ++ ids') m'' := by
  refine ⟨h.le.trans h'.le, fun hm => h'.numbered (h.numbered hm), fun id => ?_⟩
  rw [h'.mem_iff, h.mem_iff, mem_append, or_assoc]

variable {id : ConstId} {m : IdMap}

lemma lookup_isSome_iff : (m.lookup id).isSome ↔ id ∈ m.ids := by
  simp [ids]

lemma num_eq_of_le {m m' : IdMap} {n : U8} (h : m.lookup id = some n) (hle : m <+: m') :
    m'.num id = n := by
  obtain ⟨rest, rfl⟩ := hle
  rw [num, lookup_append, h]
  rfl

/-- What `map.entry(id).or_insert(n)` returns and does. -/
lemma entry_spec (m : IdMap) (id : ConstId) :
    Grows m [id] (m.entry id).2 ∧
      ∀ {m' : IdMap}, (m.entry id).2 <+: m' → m'.num id = (m.entry id).1 := by
  unfold entry
  cases hlookup : m.lookup id with
  | some n =>
    have hmem : id ∈ m.ids := lookup_isSome_iff.mp (by rw [hlookup]; rfl)
    refine ⟨⟨prefix_rfl, fun h => h, fun k => ?_⟩, fun hle => num_eq_of_le hlookup hle⟩
    constructor
    · exact Or.inl
    · rintro (h | h)
      · exact h
      · rwa [mem_singleton.mp h]
  | none =>
    have hmem : id ∉ m.ids := by
      rw [← lookup_isSome_iff, hlookup]
      simp
    refine ⟨⟨prefix_append .., fun h => ⟨?_, ?_⟩, fun k => ?_⟩, fun hle => ?_⟩
    · rw [ids, map_append]
      refine nodup_append.mpr ⟨h.nodup, by simp, ?_⟩
      rintro k hk k' hk' rfl
      obtain rfl : k = id := by simpa using hk'
      exact hmem hk
    · rw [map_append, h.nums, length_append, length_singleton, range_succ,
        map_append]
      rfl
    · simp [ids]
    · refine num_eq_of_le ?_ hle
      rw [lookup_append, hlookup]
      simp

/-- The number of a constant is its place. -/
lemma Numbered.exists_getElem? (h : m.Numbered) (hid : id ∈ m.ids) :
    ∃ k, m[k]? = some (id, m.num id) ∧ m.num id = BitVec.ofNat 8 k := by
  obtain ⟨n, hn⟩ := Option.isSome_iff_exists.mp (lookup_isSome_iff.mpr hid)
  obtain ⟨l, l', hm, -⟩ := lookup_eq_some_iff.mp hn
  have hget : m[l.length]? = some (id, n) := by simp [hm]
  have hnum : m.num id = n := num_eq_of_le hn prefix_rfl
  refine ⟨l.length, by rw [hnum, hget], ?_⟩
  have hsnd : (m.map Prod.snd)[l.length]? = some n := by rw [getElem?_map, hget]; rfl
  obtain ⟨hlt, -⟩ := List.getElem?_eq_some_iff.mp hget
  rw [h.nums, getElem?_map, getElem?_range hlt] at hsnd
  rw [hnum, ← Option.some.inj hsnd]

/-- The first 256 constants have different numbers. -/
theorem Numbered.injOn (h : m.Numbered) (hlen : m.length ≤ 256) :
    Set.InjOn m.num {id | id ∈ m.ids} := by
  intro id hid id' hid' heq
  obtain ⟨k, hk, hnum⟩ := h.exists_getElem? hid
  obtain ⟨k', hk', hnum'⟩ := h.exists_getElem? hid'
  obtain ⟨hlt, -⟩ := List.getElem?_eq_some_iff.mp hk
  obtain ⟨hlt', -⟩ := List.getElem?_eq_some_iff.mp hk'
  have hnat : (BitVec.ofNat 8 k).toNat = (BitVec.ofNat 8 k').toNat := by
    rw [← hnum, ← hnum', heq]
  rw [BitVec.toNat_ofNat, BitVec.toNat_ofNat, Nat.mod_eq_of_lt (by omega),
    Nat.mod_eq_of_lt (by omega)] at hnat
  rw [hnat, hk'] at hk
  exact (Prod.mk.inj (Option.some.inj hk)).1.symm

end IdMap

/-! ## What `to_bytes` writes -/

open IdMap

/-- The outcome of writing trees with the constants `ids`: `ser` are the bytes that a map gives
them. -/
structure Wrote (m : IdMap) (ids : List ConstId) (ser : IdMap → List U8) (plain : Prop)
    (r : List U8 × IdMap) : Prop where
  grows : Grows m ids r.2
  plain : plain
  bytes_eq : ∀ {m' : IdMap}, r.2 <+: m' → r.1 = ser m'

lemma boundsToBytes_spec {bounds : List (Tree ConstId)}
    (ih : ∀ b ∈ bounds, ∀ {m : IdMap} {r}, b.toBytesInternal m = .ok r →
      Wrote m b.ids (fun m' => (b.map m'.num).ser) b.Plain r) :
    ∀ {m : IdMap} {r}, boundsToBytes bounds m = .ok r →
      Wrote m (bounds.flatMap Tree.ids) (fun m' => (bounds.map (Tree.map m'.num)).flatMap Tree.ser)
        (∀ b ∈ bounds, b.Plain) r := by
  induction bounds with
  | nil =>
    intro m r h
    cases h
    exact ⟨.refl m, by simp, fun _ => rfl⟩
  | cons b bounds ihb =>
    intro m r h
    obtain ⟨⟨bs, m1⟩, h1, h⟩ := ok_of_bind h
    obtain ⟨⟨bs', m2⟩, h2, h⟩ := ok_of_bind h
    cases h
    have hw1 := ih b (mem_cons_self ..) h1
    have hw2 := ihb (fun b' hb' => ih b' (.tail _ hb')) h2
    refine ⟨hw1.grows.trans hw2.grows, ?_, fun hle => ?_⟩
    · exact forall_mem_cons.mpr ⟨hw1.plain, hw2.plain⟩
    · rw [map_cons, flatMap_cons, ← hw1.bytes_eq (hw2.grows.le.trans hle),
        ← hw2.bytes_eq hle]

/-- What `to_bytes` appends, if it returns: the bytes of the tree in which every constant has its
number. -/
theorem toBytesInternal_spec (t : Tree ConstId) : ∀ {m : IdMap} {r}, t.toBytesInternal m = .ok r →
    Wrote m t.ids (fun m' => (t.map m'.num).ser) t.Plain r := by
  induction t with
  | fixedBV _ _ | fixedInt _ | fixedBool _ =>
    intro m r h
    cases h
    exact ⟨.refl m, trivial, fun _ => rfl⟩
  | bv id _ | bool id | array id _ _ =>
    intro m r h
    cases h
    obtain ⟨hgrows, hnum⟩ := entry_spec m id
    exact ⟨hgrows, trivial, fun hle => by rw [Tree.map, hnum hle]; rfl⟩
  | constInterp =>
    intro m r h
    cases h
  | unOp op arg ih =>
    intro m r h
    obtain ⟨⟨bs, m1⟩, h1, h⟩ := ok_of_bind h
    cases h
    have hw := ih h1
    exact ⟨hw.grows, hw.plain, fun hle => by rw [Tree.map, Tree.ser, ← hw.bytes_eq hle]⟩
  | binOp _ _ _ ih1 ih2 | select _ _ ih1 ih2 =>
    intro m r h
    obtain ⟨⟨bs, m1⟩, h1, h⟩ := ok_of_bind h
    obtain ⟨⟨bs', m2⟩, h2, h⟩ := ok_of_bind h
    cases h
    have hw1 := ih1 h1
    have hw2 := ih2 h2
    refine ⟨?_, ⟨hw1.plain, hw2.plain⟩, fun hle => ?_⟩
    · rw [Tree.ids, Tree.consts, map_append]
      exact hw1.grows.trans hw2.grows
    · rw [Tree.map, Tree.ser, ← hw1.bytes_eq (hw2.grows.le.trans hle), ← hw2.bytes_eq hle]
  | ite _ _ _ ih1 ih2 ih3 | store _ _ _ ih1 ih2 ih3 =>
    intro m r h
    obtain ⟨⟨bs, m1⟩, h1, h⟩ := ok_of_bind h
    obtain ⟨⟨bs', m2⟩, h2, h⟩ := ok_of_bind h
    obtain ⟨⟨bs'', m3⟩, h3, h⟩ := ok_of_bind h
    cases h
    have hw1 := ih1 h1
    have hw2 := ih2 h2
    have hw3 := ih3 h3
    refine ⟨?_, ⟨hw1.plain, hw2.plain, hw3.plain⟩, fun hle => ?_⟩
    · rw [Tree.ids, Tree.consts, map_append, map_append]
      exact hw1.grows.trans (hw2.grows.trans hw3.grows)
    · rw [Tree.map, Tree.ser, ← hw1.bytes_eq ((hw2.grows.le.trans hw3.grows.le).trans hle),
        ← hw2.bytes_eq (hw3.grows.le.trans hle), ← hw3.bytes_eq hle]
  | forAll bounds condition ihb ihc =>
    intro m r h
    rw [Tree.toBytesInternal] at h
    split at h
    · next hlen =>
      obtain ⟨⟨bs, m1⟩, h1, h⟩ := ok_of_bind h
      obtain ⟨⟨bs', m2⟩, h2, h⟩ := ok_of_bind h
      cases h
      have hw1 := boundsToBytes_spec ihb h1
      have hw2 := ihc h2
      refine ⟨?_, ⟨hlen, (Tree.plainList_iff _).mpr hw1.plain, hw2.plain⟩, fun hle => ?_⟩
      · rw [Tree.ids, Tree.consts, map_append, Tree.constsList_eq, map_flatMap]
        exact hw1.grows.trans hw2.grows
      · rw [Tree.map, Tree.ser, Tree.mapList_eq, Tree.serList_eq, length_map,
          ← hw1.bytes_eq (hw2.grows.le.trans hle), ← hw2.bytes_eq hle]
    · cases h

end LibLisa.Smt
