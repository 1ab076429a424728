import Vklib.Base.StringFunctions
import Vklib.Bson.Reader
import Vklib.Mongo.Find

/-!
# The decoder on the bytes of a document

`unpackValue`, `unpackTable` and `pushBSON` of `bson.c` as they are: they walk over the
buffer of the document with iterators, and so does `b:find`.  `Vklib.Mongo.Decode` and
`Vklib.Mongo.Find` take the list of its fields instead.

On the bytes of a well-formed document both do the same, with any handler that leaves the
tables which exist alone and any surroundings (`pushBSON_bytes`, `m_find_bytes`).  The loop lemma `unpackLoop_bytes` goes
by the fuel, which every field and every nested document takes a unit of.
-/

namespace Vklib.Mongo

open Vklib.Lua Vklib.Bson Buffer

namespace Iterated

/-- `check` on a condition that fails.  The text of the error also names the condition and
its place in the source. -/
def precondition : LuaError := .text "precondition failed"

/-- A value read from a field, whose type has been looked at before. -/
def got {α : Type} (read : Outcome LuaError (Option α))
    (push : α → Outcome LuaError (State × LVal)) : Outcome LuaError (State × LVal) := do
  match ← read with
  | none => .undefined
  | some a => push a

/-- `pushBSON` without a handler index: a copy of the document.  BSON objects of Lua are
represented by their documents. -/
def pushCopy (data : Bytes) (len : Nat) : Outcome LuaError LVal := do
  let ds ← copiedDoc data len
  .ok (.host (.bson ds))

/-- The document that `bson_init_static` makes of bytes, copied. -/
def pushStatic (data : Bytes) (len : Nat) : Outcome LuaError LVal := do
  let ok ← bson_init_static data len
  if ok then pushCopy data len else .error precondition

/-- `unpackValue`.  `table` is `unpackTable`. -/
def unpackValue (E : Env) (table : State → Bool → Iter → Outcome LuaError (State × LVal))
    (L : State) (it : Iter) : Outcome LuaError (State × LVal) := do
  let t ← bson_iter_type it
  match t.toNat with
  | 0x08 => got (bson_iter_bool it) fun b => .ok (L, .bool b)
  | 0x10 => got (bson_iter_int32 it) fun i => .ok (L, .int i.toInt64)
  | 0x12 => got (bson_iter_int64 it) fun i => .ok (L, .int i)
  | 0x01 => got (bson_iter_double it) fun x => .ok (L, .flt x)
  | 0x02 => got (bson_iter_utf8 it) fun s => .ok (L, .str s)
  | 0x03 | 0x04 => do
    match ← bson_iter_recurse it with
    | none => .error precondition
    | some tmp => table L (t = 0x04) tmp
  | 0x07 => got (bson_iter_oid it) fun id => .ok (L, .host (.objectID id))
  | 0x13 => got (bson_iter_decimal128 it) fun d =>
    lua_call E L (L.slots .NEW_DECIMAL128) [.str (E.bson_decimal128_to_string d)]
  | 0x05 => got (Bson.bson_iter_binary it) fun (subtype, buf) =>
    lua_call E L (L.slots .NEW_BINARY) [.str buf, .int subtype.toNat.toInt64]
  | 0x09 => got (bson_iter_date_time it) fun ms => lua_call E L (L.slots .NEW_DATETIME) [.int ms]
  | 0x0D => got (bson_iter_code it) fun code => lua_call E L (L.slots .NEW_JAVASCRIPT) [.str code]
  | 0x0F => got (bson_iter_codewscope it) fun (code, slen, buf) => do
    let scope ← pushStatic buf slen
    lua_call E L (L.slots .NEW_JAVASCRIPT) [.str code, scope]
  | 0x0B => got (bson_iter_regex it) fun (pattern, options) =>
    lua_call E L (L.slots .NEW_REGEX) [.str pattern, .str options]
  | 0x11 => got (bson_iter_timestamp it) fun (t, i) =>
    lua_call E L (L.slots .NEW_TIMESTAMP) [.int t.toNat.toInt64, .int i.toNat.toInt64]
  | 0x7F => .ok (L, L.slots .GLOBAL_MAXKEY)
  | 0xFF => .ok (L, L.slots .GLOBAL_MINKEY)
  | 0x0A => .ok (L, L.slots .GLOBAL_NULL)
  | _ => .ok (L, .nil)

/-- The loop of `unpackTable`, into the table `r`. -/
def unpackLoop (E : Env) (handler : LVal) :
    Nat → Nat → Ref → Bool → Int → State → Iter → Outcome LuaError (State × Int)
  | 0, _, _, _, _, _, _ => .outOfFuel
  | fuel + 1, top, r, array, len, L, it => do
    let (more, it) ← bson_iter_next it
    if more then do
      let key ←
        if array then .ok (.int (len + 1))
        else do
          let key ← keyBytes it
          .ok (.str key)
      let table := fun L array it =>
        unpackTable E handler (top + 2) L array fun L r =>
          unpackLoop E handler fuel (top + 2) r array 0 L it
      let (L, x) ← unpackValue E table L it
      unpackLoop E handler fuel top r array (len + 1) (L.rawset r key x) it
    else .ok (L, len)

/-- `isArray`. -/
def isArray (data : Bytes) (len : Nat) : Outcome LuaError Bool :=
  match bson_iter_init data len with
  | none => .ok false
  | some it => do
    let (more, it) ← bson_iter_next it
    if more then do
      let key ← bson_iter_key it
      .ok (key = bytes "0")
    else .ok false

/-- `pushBSON` with a handler index, called with `top` slots in use. -/
def pushBSON (E : Env) (handler : LVal) (top : Nat) (L : State) (data : Bytes) (len : Nat) :
    Outcome LuaError (State × LVal) :=
  match bson_iter_init data len with
  | none => .error precondition
  | some it => do
    let array ← isArray data len
    unpackTable E handler (top + 1) L array fun L r =>
      unpackLoop E handler (len + 1) (top + 1) r array 0 L it

/-! ### One field -/

/-- `0 == strncmp (key, ikey, keylen) && ikey[keylen] == '\0'`.  A negative `keylen` is a
large length in the first, and in the second an index in front of the key. -/
def keyMatches {ε : Type} (it : Iter) (key : Bytes) (keylen : Int) : Outcome ε Bool := do
  let ikey ← bson_iter_key it
  if keylen < 0 then if key = ikey then .undefined else .ok false
  else if strncmp key ikey keylen.toNat = 0 then do
    let c ← it.deref fun data => load data (it.key + keylen.toNat)
    .ok (c = 0)
  else .ok false

/-- The loop of `bson_iter_find_w_len`: none is the return value `false`. -/
def findLoop {ε : Type} (key : Bytes) (keylen : Int) : Nat → Iter → Outcome ε (Option Iter)
  | 0, _ => .outOfFuel
  | fuel + 1, it => do
    let (more, it) ← bson_iter_next it
    if more then do
      let found ← keyMatches it key keylen
      if found then .ok (some it) else findLoop key keylen fuel it
    else .ok none

/-- `bson_iter_find_w_len`. -/
def bson_iter_find_w_len {ε : Type} (it : Iter) (key : Bytes) (keylen : Int) :
    Outcome ε (Option Iter) :=
  findLoop key (if keylen < 0 then cInt key.length else keylen) (it.len + 1) it

/-- `bson_iter_find_descendant`.  Every part of the key takes a unit of fuel. -/
def bson_iter_find_descendant {ε : Type} : Nat → Iter → Bytes → Outcome ε (Option Iter)
  | 0, _, _ => .outOfFuel
  | fuel + 1, it, dotkey =>
    match strchr dotkey 46 with
    | none => bson_iter_find_w_len it dotkey (cInt dotkey.length)
    | some dot => do
      match ← bson_iter_find_w_len it dotkey (cInt dot) with
      | none => .ok none
      | some it => do
        let t ← bson_iter_type it
        if t = 0x03 ∨ t = 0x04 then do
          match ← bson_iter_recurse it with
          | none => .ok none
          | some tmp => bson_iter_find_descendant fuel tmp (dotkey.drop (dot + 1))
        else .ok none

/-- `pushBSONValue`. -/
def pushBSONValue (E : Env) (L : State) : RawValue → Outcome LuaError (State × LVal)
  | .bool b => .ok (L, .bool b)
  | .int32 i => .ok (L, .int i.toInt64)
  | .int64 i => .ok (L, .int i)
  | .double x => .ok (L, .flt x)
  | .utf8 s => .ok (L, .str s)
  | .document len data | .array len data => do
    let copy ← pushStatic data len
    .ok (L, copy)
  | .oid id => .ok (L, .host (.objectID id))
  | .decimal128 d =>
    lua_call E L (L.slots .NEW_DECIMAL128) [.str (E.bson_decimal128_to_string d)]
  | .binary subtype data =>
    lua_call E L (L.slots .NEW_BINARY) [.str data, .int subtype.toNat.toInt64]
  | .dateTime ms => lua_call E L (L.slots .NEW_DATETIME) [.int ms]
  | .code code => lua_call E L (L.slots .NEW_JAVASCRIPT) [.str code]
  | .codewscope code scope_len scope_data => do
    let scope ← pushStatic scope_data scope_len
    lua_call E L (L.slots .NEW_JAVASCRIPT) [.str code, scope]
  | .regex pattern options =>
    lua_call E L (L.slots .NEW_REGEX) [.str pattern, .str options]
  | .timestamp t i =>
    lua_call E L (L.slots .NEW_TIMESTAMP) [.int t.toNat.toInt64, .int i.toNat.toInt64]
  | .maxkey => .ok (L, L.slots .GLOBAL_MAXKEY)
  | .minkey => .ok (L, L.slots .GLOBAL_MINKEY)
  | .null => .ok (L, L.slots .GLOBAL_NULL)
  | .undefined | .dbpointer _ _ | .symbol _ => .ok (L, .nil)

/-- `pushBSONField`. -/
def pushBSONField (E : Env) (L : State) (data : Bytes) (len : Nat) (key : Bytes) (any : Bool) :
    Outcome LuaError (State × LVal) :=
  match bson_iter_init data len with
  | none => .error precondition
  | some it => do
    match ← bson_iter_find_descendant (key.length + 1) it key with
    | none => .ok (L, .nil)
    | some tmp => do
      let t ← bson_iter_type tmp
      if any || t = 0x03 || t = 0x04 then got (bson_iter_value tmp) (pushBSONValue E L)
      else .ok (L, .nil)

/-- `m_find`. -/
def m_find (E : Env) (L : State) (data : Bytes) (len : Nat) (key : LVal) :
    Outcome LuaError (State × LVal) :=
  match tolstring E key with
  | none => .error (.argument 2 (bytes "string expected, got " ++ luaTypename key))
  | some key => pushBSONField E L data len (cString key) true

end Iterated

/-! ## Values -/

section

variable {E : Env} {handler : LVal} {it : Iter} {data : Bytes}

theorem pushCopy_bytes {ds : Doc} (hds : DocWellFormed ds) (hlies : Lies data 0 (bson_get_data ds)) :
    Iterated.pushCopy data (docSize ds) = .ok (.host (.bson ds)) := by
  have hcopy : (copiedDoc data (docSize ds) : Outcome LuaError Doc) = .ok ds :=
    (copiedDoc_eq_ok_iff (ahead_start hds hlies).le_length).mpr ⟨hds, rfl, hlies⟩
  rw [Iterated.pushCopy, hcopy, Outcome.ok_bind]

theorem pushStatic_bytes {ds : Doc} (hds : DocWellFormed ds)
    (hlies : Lies data 0 (bson_get_data ds)) :
    Iterated.pushStatic data (docSize ds) = .ok (.host (.bson ds)) := by
  obtain ⟨ok, hok, hstatic⟩ :=
    bson_init_static_eq (ε := LuaError) (ahead_start hds hlies).le_length
  obtain rfl := hstatic.mpr (static_of_lies hds hlies)
  have hcopy := pushCopy_bytes hds hlies
  simp only [Iterated.pushStatic, Iter.start] at hok ⊢
  rw [hok, Outcome.ok_bind, if_pos rfl, hcopy]

theorem got_some {α : Type} {read : Outcome LuaError (Option α)} {a : α}
    (h : read = .ok (some a)) (push : α → Outcome LuaError (State × LVal)) :
    Iterated.got read push = push a := by
  rw [Iterated.got, h, Outcome.ok_bind]

/-- `unpackTable` over an iterator does what it does on the fields ahead, while these are
less than `n` bytes. -/
def TableBytes (E : Env) (handler : LVal) (top n : Nat)
    (table : State → Bool → Iter → Outcome LuaError (State × LVal)) : Prop :=
  ∀ L array tmp data fs, Ahead tmp data fs → docSize fs < n →
    table L array tmp =
      unpackTable E handler top L array fun L r => unpackLoop E handler top r array 0 L fs

theorem unpackValue_bytes {top n : Nat}
    {table : State → Bool → Iter → Outcome LuaError (State × LVal)}
    (htable : TableBytes E handler top n table) {key : Bytes} {v : Value} (h : On it data key v)
    (hv : v.WellFormed) (hsize : v.size < n) (L : State) :
    Iterated.unpackValue E table L it = unpackValue E handler top L v := by
  rw [Iterated.unpackValue, h.iter_type, Outcome.ok_bind]
  cases v with
  | bool b => exact got_some h.iter_bool _
  | int32 i => exact got_some h.iter_int32 _
  | int64 i => exact got_some h.iter_int64 _
  | double x => exact got_some h.iter_double _
  | utf8 s => exact got_some h.iter_utf8 _
  | oid id => exact got_some h.iter_oid _
  | decimal128 d => exact got_some h.iter_decimal128 _
  | binary subtype payload => exact got_some h.iter_binary _
  | dateTime ms => exact got_some h.iter_date_time _
  | code source => exact got_some h.iter_code _
  | regex pattern options =>
    obtain ⟨hpattern, -⟩ : NulFree pattern ∧ NulFree options := by
      simpa only [Value.WellFormed] using hv
    exact got_some (h.iter_regex hpattern) _
  | timestamp t i => exact got_some h.iter_timestamp _
  | codewscope source scope =>
    have hscope : FieldsWellFormed scope := by simpa only [Value.WellFormed] using hv
    obtain ⟨hread, hlies, hds, -⟩ := h.iter_codewscope (ε := LuaError) hscope
    refine (got_some hread _).trans ?_
    simp only [pushStatic_bytes hds hlies, Outcome.ok_bind, unpackValue]
  | document fs =>
    have hfs : FieldsWellFormed fs := by simpa only [Value.WellFormed] using hv
    obtain ⟨child, hread, hahead⟩ := h.recurse (ε := LuaError) (Or.inl rfl) hfs
    rw [unpackValue, ← htable L false child _ fs hahead hsize]
    simp only [elementType, UInt8.reduceToNat, hread, Outcome.ok_bind]
    rfl
  | array fs =>
    have hfs : FieldsWellFormed fs := by simpa only [Value.WellFormed] using hv
    obtain ⟨child, hread, hahead⟩ := h.recurse (ε := LuaError) (Or.inr rfl) hfs
    rw [unpackValue, ← htable L true child _ fs hahead hsize]
    simp only [elementType, UInt8.reduceToNat, hread, Outcome.ok_bind]
    rfl
  | undefined | dbpointer _ _ | symbol _ | maxkey | minkey | null => rfl

/-! ## Tables -/

theorem unpackLoop_bytes (fuel : Nat) {top : Nat} {r : Ref} {array : Bool} {len : Int} {L : State}
    {fs : Doc} (h : Ahead it data fs) (hfuel : it.len - it.next_off < fuel) :
    Iterated.unpackLoop E handler fuel top r array len L it =
      unpackLoop E handler top r array len L fs := by
  induction fuel generalizing top r array len L it data fs with
  | zero => omega
  | succ fuel ih =>
    rw [Iterated.unpackLoop, bson_iter_next]
    cases fs with
    | nil =>
      obtain ⟨it', hrun, -, -⟩ := h.next_nil (ε := LuaError)
      simp only [hrun, Outcome.ok_bind, Bool.false_eq_true, if_false, unpackLoop]
    | cons f rest =>
      obtain ⟨key, v⟩ := f
      obtain ⟨it', hrun, hon, hahead⟩ := h.next_cons (ε := LuaError)
      obtain ⟨-, hv, -⟩ : NulFree key ∧ v.WellFormed ∧ FieldsWellFormed rest := by
        simpa only [FieldsWellFormed] using h.wellFormed
      have hlen := h.len_eq
      have hrest := hahead.len_eq
      rw [fieldsSize_cons, fieldSize] at hlen
      have htable : TableBytes E handler (top + 2) fuel fun L array it =>
          unpackTable E handler (top + 2) L array fun L r =>
            Iterated.unpackLoop E handler fuel (top + 2) r array 0 L it := by
        intro L array tmp data' fs' htmp hsize
        have hstart := htmp.len_eq
        have hge := htmp.ge
        unfold docSize at hsize
        have hloop : (fun L r => Iterated.unpackLoop E handler fuel (top + 2) r array 0 L tmp) =
            fun L r => unpackLoop E handler (top + 2) r array 0 L fs' := by
          funext L r
          exact ih htmp (by omega)
        exact congrArg (unpackTable E handler (top + 2) L array) hloop
      have hvalue := unpackValue_bytes htable hon hv (by omega) L
      have hkey : (keyBytes it' : Outcome LuaError Bytes) = .ok key := hon.keyBytes_eq
      have hloop {len : Int} {L : State} :
          Iterated.unpackLoop E handler fuel top r array len L it' =
            unpackLoop E handler top r array len L rest :=
        ih hahead (by omega)
      simp only [hrun, Outcome.ok_bind, if_true, hvalue, hkey, hloop, unpackLoop]
      cases array <;> rfl

/-! ## Documents -/

theorem isArray_bytes {ds : Doc} (h : Ahead (Iter.start data (docSize ds)) data ds) :
    Iterated.isArray data (docSize ds) = .ok (isArray ds) := by
  rw [Iterated.isArray, bson_iter_init_eq (by unfold docSize; omega)]
  simp only [bson_iter_next]
  cases ds with
  | nil =>
    obtain ⟨it', hrun, -, -⟩ := h.next_nil (ε := LuaError)
    simp only [hrun, Outcome.ok_bind, Bool.false_eq_true, if_false]
    rfl
  | cons f rest =>
    obtain ⟨key, v⟩ := f
    obtain ⟨it', hrun, hon, -⟩ := h.next_cons (ε := LuaError)
    have hkey : cString key = key := cString_eq_self hon.nulFree
    simp only [hrun, Outcome.ok_bind, if_true, hon.iter_key, isArray, hkey]

/-- Decoding the bytes of a document is decoding the document: the same result in the
same state, or the same error. -/
theorem pushBSON_bytes (E : Env) (handler : LVal) (top : Nat) (L : State) {ds : Doc}
    (hds : DocWellFormed ds) (hlies : Lies data 0 (bson_get_data ds)) :
    Iterated.pushBSON E handler top L data (docSize ds) = pushBSON E handler top L ds := by
  have hahead := ahead_start hds hlies
  have hloop (array : Bool) : (fun L r =>
      Iterated.unpackLoop E handler (docSize ds + 1) (top + 1) r array 0 L
        (Iter.start data (docSize ds))) =
      fun L r => unpackLoop E handler (top + 1) r array 0 L ds := by
    funext L r
    refine unpackLoop_bytes _ hahead ?_
    simp only [Iter.start]
    omega
  rw [Iterated.pushBSON, bson_iter_init_eq (by unfold docSize; omega)]
  simp only [isArray_bytes hahead, Outcome.ok_bind, hloop, pushBSON]

/-- A document of one field, with other bytes behind it. -/
theorem single_lies : DocWellFormed [(bytes "a", .bool true)] ∧
    Lies (bson_get_data [(bytes "a", .bool true)] ++ [7, 7]) 0
      (bson_get_data [(bytes "a", .bool true)]) :=
  ⟨⟨by simp [FieldsWellFormed, Value.WellFormed, NulFree, bytes], by decide⟩,
    List.prefix_append _ _⟩

theorem pushBSON_bytes_single :
    ∃ L, Iterated.pushBSON Env.bare .nil 2
      { heap := [], slots := fun _ => .nil, metatables := fun _ => none }
      (bson_get_data [(bytes "a", .bool true)] ++ [7, 7]) 9 = .ok (L, .table 0) :=
  ⟨_, (pushBSON_bytes Env.bare .nil 2 _ single_lies.1 single_lies.2).trans rfl⟩

/-! ## One field -/

/-- The test of a key is equality with the part of the key that is looked for. -/
theorem keyMatches_bytes {ε : Type} {k key : Bytes} {v : Value} (h : On it data k v) {n : Nat}
    (hn : n ≤ key.length) :
    (Iterated.keyMatches it key n : Outcome ε Bool) = .ok (decide (k = key.take n)) := by
  have hnonneg : ¬ ((n : Int) < 0) := by omega
  rw [Iterated.keyMatches, h.iter_key, Outcome.ok_bind, if_neg hnonneg, Int.toNat_natCast]
  by_cases hsame : strncmp key k n = 0
  · rw [if_pos hsame]
    have htake := strncmp_eq_zero_iff.mp hsame
    have hle : n ≤ k.length := by
      have hlen := congrArg List.length htake
      simp only [List.length_take] at hlen
      omega
    -- what lies `n` bytes behind the start of the key
    have hlies := h.lies_key
    rw [← List.take_append_drop n k, List.append_assoc] at hlies
    have hbehind := hlies.right
    rw [List.length_take, Nat.min_eq_left hle] at hbehind
    rw [htake]
    have hkey : k = k.take n ↔ k.drop n = [] := by
      rw [List.drop_eq_nil_iff, eq_comm, List.take_eq_self_iff]
    cases hdrop : k.drop n with
    | nil =>
      rw [hdrop] at hbehind
      simp only [Iter.deref, h.raw, hbehind.load, Outcome.ok_bind, decide_eq_true (hkey.mpr hdrop),
        decide_true]
    | cons c rest =>
      rw [hdrop] at hbehind
      have hc : c ≠ 0 := by
        rintro rfl
        exact h.nulFree (List.mem_of_mem_drop (hdrop ▸ List.mem_cons_self ..))
      have hne : ¬ k = k.take n := by
        rw [hkey, hdrop]
        exact List.cons_ne_nil _ _
      simp only [Iter.deref, h.raw, hbehind.load, Outcome.ok_bind, decide_eq_false hne,
        decide_eq_false hc]
  · rw [if_neg hsame]
    have hne : ¬ k = key.take n := by
      rintro rfl
      exact hsame (strncmp_eq_zero_iff.mpr (by rw [List.take_take, Nat.min_self]))
    rw [decide_eq_false hne]

theorem findLoop_bytes {ε : Type} {key : Bytes} {n : Nat} (hn : n ≤ key.length) (fuel : Nat)
    {fs : Doc} (h : Ahead it data fs) (hfuel : it.len - it.next_off < fuel) :
    match fs.find? fun f => cString f.1 = key.take n with
    | none => (Iterated.findLoop key n fuel it : Outcome ε _) = .ok none
    | some f =>
      ∃ it', (Iterated.findLoop key n fuel it : Outcome ε _) = .ok (some it') ∧
        On it' data f.1 f.2 ∧ f.2.WellFormed := by
  induction fuel generalizing it fs with
  | zero => omega
  | succ fuel ih =>
    rw [Iterated.findLoop, bson_iter_next]
    cases fs with
    | nil =>
      obtain ⟨it', hrun, -, -⟩ := h.next_nil (ε := ε)
      simp only [hrun, Outcome.ok_bind, Bool.false_eq_true, if_false, List.find?_nil]
    | cons f rest =>
      obtain ⟨k, v⟩ := f
      obtain ⟨it', hrun, hon, hahead⟩ := h.next_cons (ε := ε)
      obtain ⟨hk, hv, -⟩ : NulFree k ∧ v.WellFormed ∧ FieldsWellFormed rest := by
        simpa only [FieldsWellFormed] using h.wellFormed
      have hlen := h.len_eq
      have hrest := hahead.len_eq
      rw [fieldsSize_cons, fieldSize] at hlen
      have hmatch := keyMatches_bytes (ε := ε) hon hn
      simp only [hrun, Outcome.ok_bind, if_true, hmatch, List.find?_cons, cString_eq_self hk]
      by_cases hkey : k = key.take n
      · simp only [hkey, decide_true, if_true]
        exact ⟨it', rfl, hkey ▸ hon, hv⟩
      · simp only [hkey, decide_false, Bool.false_eq_true, if_false]
        exact ih hahead (by omega)

/-- What a search finds in a document: an iterator on a field with this value. -/
def Finds {ε : Type} (run : Outcome ε (Option Iter)) (found : Option Value) : Prop :=
  match found with
  | none => run = .ok none
  | some v => ∃ it data key, run = .ok (some it) ∧ On it data key v ∧ v.WellFormed

theorem find_w_len_bytes {ε : Type} {fs : Doc} (h : Ahead it data fs) (key : Bytes)
    {n : Nat} (hn : n ≤ key.length) (hmax : n < 2 ^ 31) :
    Finds (Iterated.bson_iter_find_w_len it key (cInt n) : Outcome ε _)
      (bson_iter_find_w_len fs (key.take n)) := by
  have hlen : (key.take n).length = n := by rw [List.length_take, Nat.min_eq_left hn]
  have hnonneg : ¬ ((n : Int) < 0) := by omega
  have hspec := findLoop_bytes (ε := ε) hn (it.len + 1) h (by omega)
  rw [Iterated.bson_iter_find_w_len, bson_iter_find_w_len, hlen, cInt_of_lt hmax, if_neg hnonneg,
    if_neg hnonneg, Int.toNat_natCast, List.take_take, Nat.min_self]
  cases hfind : fs.find? fun f => cString f.1 = key.take n with
  | none =>
    rw [hfind] at hspec
    exact hspec
  | some f =>
    rw [hfind] at hspec
    obtain ⟨it', hrun, hon, hv⟩ := hspec
    exact ⟨it', data, f.1, hrun, hon, hv⟩

/-- A key with a dot is a part without, and the rest. -/
theorem strchr_cases (dotkey : Bytes) :
    (strchr dotkey 46 = none ∧ dotkey.splitOn 46 = [dotkey]) ∨
    ∃ part rest, dotkey = part ++ 46 :: rest ∧ strchr dotkey 46 = some part.length ∧
      dotkey.splitOn 46 = part :: rest.splitOn 46 := by
  by_cases hdot : 46 ∈ dotkey
  · obtain ⟨part, rest, rfl, hpart⟩ := List.eq_append_cons_of_mem hdot
    refine Or.inr ⟨part, rest, rfl, strchr_append hpart rest, ?_⟩
    rw [List.splitOn_append_cons_self, List.splitOn_eq_singleton hpart, List.singleton_append]
  · exact Or.inl ⟨strchr_eq_none hdot, List.splitOn_eq_singleton hdot⟩

/-- The parts behind the first dot are looked for in the document there. -/
theorem findDescendant_cons {fs : Doc} {part : Bytes} {parts : List Bytes} (hparts : parts ≠ []) :
    findDescendant fs (part :: parts) =
      match bson_iter_find_w_len fs part with
      | some (.document fs) => findDescendant fs parts
      | some (.array fs) => findDescendant fs parts
      | _ => none := by
  cases parts with
  | nil => exact absurd rfl hparts
  | cons p ps => rfl

theorem holdsDocument_iff {v : Value} :
    elementType v = 0x03 ∨ elementType v = 0x04 ↔ holdsDocument v = true := by
  cases v <;> simp [elementType, holdsDocument]

theorem find_descendant_bytes {ε : Type} (fuel : Nat) (dotkey : Bytes) {fs : Doc}
    (h : Ahead it data fs) (hfuel : dotkey.length < fuel) (hmax : dotkey.length < 2 ^ 31) :
    Finds (Iterated.bson_iter_find_descendant fuel it dotkey : Outcome ε _)
      (bson_iter_find_descendant fs dotkey) := by
  induction fuel generalizing it data dotkey fs with
  | zero => omega
  | succ fuel ih =>
    rw [Iterated.bson_iter_find_descendant, bson_iter_find_descendant]
    rcases strchr_cases dotkey with ⟨hchr, hsplit⟩ | ⟨part, rest, rfl, hchr, hsplit⟩
    · rw [hchr, hsplit, findDescendant]
      simpa only [List.take_length] using find_w_len_bytes (ε := ε) h dotkey (le_refl _) hmax
    · simp only [List.length_append, List.length_cons] at hfuel hmax
      have hfind := find_w_len_bytes (ε := ε) h (part ++ 46 :: rest) (n := part.length)
        (by simp) (by omega)
      rw [List.take_left] at hfind
      rw [hchr, hsplit, findDescendant_cons (List.splitOn_ne_nil 46 rest)]
      have hdrop : (part ++ 46 :: rest).drop (part.length + 1) = rest := by
        rw [← List.drop_drop, List.drop_left]
        rfl
      cases hfound : bson_iter_find_w_len fs part with
      | none =>
        rw [hfound] at hfind
        have hrun : Iterated.bson_iter_find_w_len it (part ++ 46 :: rest) (cInt part.length) =
          (.ok none : Outcome ε _) := hfind
        simp only [hrun, Outcome.ok_bind]
        rfl
      | some v =>
        rw [hfound] at hfind
        obtain ⟨it', data', key', hrun, hon, hv⟩ := hfind
        simp only [hrun, Outcome.ok_bind, hon.iter_type, hdrop]
        by_cases hdoc : holdsDocument v = true
        · rw [if_pos (holdsDocument_iff.mpr hdoc)]
          obtain ⟨fs', hv', hchild⟩ : ∃ fs', (v = .document fs' ∨ v = .array fs') ∧
              FieldsWellFormed fs' := by
            cases v with
            | document fs' => exact ⟨fs', Or.inl rfl, by simpa only [Value.WellFormed] using hv⟩
            | array fs' => exact ⟨fs', Or.inr rfl, by simpa only [Value.WellFormed] using hv⟩
            | _ => cases hdoc
          obtain ⟨child, hread, hahead⟩ := hon.recurse (ε := ε) hv' hchild
          have hrest := ih rest hahead (by omega) (by omega)
          rw [bson_iter_find_descendant] at hrest
          simp only [hread, Outcome.ok_bind]
          rcases hv' with rfl | rfl <;> exact hrest
        · rw [if_neg (fun ht => hdoc (holdsDocument_iff.mp ht))]
          cases v with
          | document fs' => exact absurd rfl hdoc
          | array fs' => exact absurd rfl hdoc
          | _ => rfl

theorem pushBSONValue_bytes {key : Bytes} {v : Value} (h : On it data key v) (hv : v.WellFormed)
    (L : State) : Iterated.pushBSONValue E L (v.raw it data) = pushBSONValue E L v := by
  cases v with
  | document fs =>
    obtain ⟨-, hds, hlies⟩ := h.ahead_child rfl (by simpa only [Value.WellFormed] using hv)
    rw [Value.raw, Iterated.pushBSONValue, pushStatic_bytes hds hlies]
    rfl
  | array fs =>
    obtain ⟨-, hds, hlies⟩ := h.ahead_child rfl (by simpa only [Value.WellFormed] using hv)
    rw [Value.raw, Iterated.pushBSONValue, pushStatic_bytes hds hlies]
    rfl
  | codewscope source scope =>
    obtain ⟨-, hlies, hds, -⟩ :=
      h.iter_codewscope (ε := LuaError) (by simpa only [Value.WellFormed] using hv)
    rw [Value.raw, Iterated.pushBSONValue, pushStatic_bytes hds hlies]
    rfl
  | _ => rfl

theorem pushBSONField_bytes (E : Env) (L : State) {ds : Doc} (hds : DocWellFormed ds)
    (hlies : Lies data 0 (bson_get_data ds)) {key : Bytes} (hkey : key.length < 2 ^ 31)
    (any : Bool) :
    Iterated.pushBSONField E L data (docSize ds) key any = pushBSONField E L ds key any := by
  have hfind := find_descendant_bytes (ε := LuaError) (key.length + 1) _ (ahead_start hds hlies)
    (Nat.lt_succ_self key.length) hkey
  rw [Iterated.pushBSONField, bson_iter_init_eq (by unfold docSize; omega), pushBSONField]
  cases hfound : bson_iter_find_descendant ds key with
  | none =>
    rw [hfound] at hfind
    have hrun : Iterated.bson_iter_find_descendant (key.length + 1) (Iter.start data (docSize ds))
      key = (.ok none : Outcome LuaError _) := hfind
    simp only [hrun, Outcome.ok_bind]
  | some v =>
    rw [hfound] at hfind
    obtain ⟨it, data', key', hrun, hon, hv⟩ := hfind
    have htest : (any || decide (elementType v = 0x03) || decide (elementType v = 0x04)) =
        (any || holdsDocument v) := by
      rw [Bool.or_assoc, ← Bool.decide_or, decide_eq_decide.mpr holdsDocument_iff, Bool.decide_coe]
    simp only [hrun, Outcome.ok_bind, hon.iter_type, htest]
    split_ifs
    · rw [got_some (hon.iter_value_eq hv), pushBSONValue_bytes hon hv]
    · rfl

/-- `b:find(key)` on the bytes of a document is the same on the document: the same field
is found, through any nesting, and the same value made of it. -/
theorem m_find_bytes (E : Env) (L : State) {ds : Doc} (hds : DocWellFormed ds)
    (hlies : Lies data 0 (bson_get_data ds)) {key : LVal}
    (hkey : ∀ s, tolstring E key = some s → (cString s).length < 2 ^ 31) :
    Iterated.m_find E L data (docSize ds) key = m_find E L ds key := by
  rw [Iterated.m_find, m_find]
  cases hs : tolstring E key with
  | none => rfl
  | some s => exact pushBSONField_bytes E L hds hlies (hkey s hs) true

theorem m_find_bytes_single :
    ∃ L, Iterated.m_find Env.bare { heap := [], slots := fun _ => .nil, metatables := fun _ => none }
      (bson_get_data [(bytes "a", .bool true)] ++ [7, 7]) 9 (.str (bytes "a")) =
        .ok (L, .bool true) := by
  have hkey : ∀ s, tolstring Env.bare (.str (bytes "a")) = some s → (cString s).length < 2 ^ 31 := by
    rintro s ⟨⟩
    decide
  exact ⟨_, (m_find_bytes Env.bare _ single_lies.1 single_lies.2 hkey).trans rfl⟩

end

end Vklib.Mongo
