import Vklib.Mongo.Append
import Vklib.Mongo.Decode
import Vklib.Mongo.Open

/-!
# What typed values keep of their arguments

A constructor checks its arguments as 64-bit integers or counted strings and packs
them into a table.  The encoder unpacks the table later and hands the parameters to
libbson as a 32-bit integer, a 32-bit word, one byte or a C string.  `packed` is
the table, and `typedValue_newTyped` says which value both encoders read from it.

`FieldOf` says that the value becomes the field of every document with room for it, and
that there is such a document.  `Carries` says that a value is exactly what the arguments
say, and `typedValues_exact_iff` gives the arguments for which both are so.
-/

namespace Vklib.Mongo

open Vklib.Lua Vklib.Bson

/-! ## Parameters -/

/-- The table that `packParams` makes. -/
def packed (params : List LVal) : Table Host :=
  params.zipIdx.foldr (fun p t => t.rawset (.int ((p.2 : Int) + 1)) p.1) Table.empty

/-- Indices that the length of a table covers are read, and the next one is
nil anyway. -/
theorem param_of_border {t : Table Host} {i : Nat} (hi : i ≤ t.rawlen + 1) :
    param t i = t.get (.int i) := by
  unfold param
  split_ifs with hle
  · rfl
  · have hnext : i = t.rawlen + 1 := by omega
    have hborder := t.border.2
    rw [hnext]
    exact_mod_cast hborder.symm

/-- The first parameter, when it is not nil. -/
theorem one_le_rawlen {t : Table Host} (h : t.get (.int 1) ≠ .nil) : 1 ≤ t.rawlen := by
  by_contra hzero
  have hborder := t.border.2
  rw [show t.rawlen = 0 from by omega] at hborder
  exact h hborder

theorem get_packed_one (v : LVal) (rest : List LVal) : (packed (v :: rest)).get (.int 1) = v := by
  simp only [packed, List.zipIdx_cons, List.foldr_cons, Table.get_rawset]
  rfl

theorem param_packed_one (v : LVal) (rest : List LVal) :
    param (packed (v :: rest)) 1 = v := by
  rw [param_of_border (by omega)]
  exact get_packed_one v rest

theorem param_packed_two {v : LVal} (hv : v ≠ .nil) (w : LVal) :
    param (packed [v, w]) 2 = w := by
  have hone : 1 ≤ (packed [v, w]).rawlen := one_le_rawlen (by rwa [get_packed_one])
  rw [param_of_border (by omega)]
  simp [packed, Table.get_rawset]

/-! ## The table of a typed value -/

theorem get_packParams (L : State) (params : List LVal) :
    (packParams L params).1.heap.get L.heap.length = packed params ∧
      (packParams L params).1.heap.length = L.heap.length + 1 ∧
      (packParams L params).1.metatables = L.metatables := by
  simp only [packParams, packed]
  generalize params.zipIdx = ps
  induction ps with
  | nil => simp
  | cons p rest ih =>
    obtain ⟨htable, hlength, hmeta⟩ := ih
    rw [List.foldr_cons, List.foldr_cons]
    refine ⟨?_, by rw [State.length_rawset, hlength], by rw [State.metatables_rawset, hmeta]⟩
    rw [State.newtable_snd] at htable hlength ⊢
    rw [State.get_rawset _ (by rw [hlength]; exact Nat.lt_succ_self _), if_pos rfl, htable]

/-- The type name is new, or its metatable has the type. -/
def TypeKnown (L : State) (name : Bytes) (type : UInt32) : Prop :=
  ∀ m, L.metatables name = some m →
    m < L.heap.length ∧ (L.heap.get m).get (.str (bytes "__type")) = .int type.toNat.toInt64

/-- The metatable of a type, which carries it under `__type`. -/
theorem get_setBSONType {L : State} {r : Ref} (hr : r < L.heap.length) (name : Bytes)
    (type : UInt32) :
    ∃ m, (setBSONType L r name type).heap.get r = (L.heap.get r).setMetatable (some m) ∧
      (setBSONType L r name type).metatables name = some m ∧
      (TypeKnown L name type → ((setBSONType L r name type).heap.get m).get
        (.str (bytes "__type")) = .int type.toNat.toInt64) := by
  cases hname : L.metatables name with
  | some m =>
    have hrun : setBSONType L r name type = L.setmetatable r (some m) := by
      simp only [setBSONType, newType, hname, Bool.false_eq_true, if_false]
    rw [hrun]
    refine ⟨m, by rw [State.get_setmetatable _ hr, if_pos rfl], hname, fun hknown => ?_⟩
    rw [State.get_setmetatable _ hr]
    obtain ⟨-, htype⟩ := hknown m hname
    split_ifs with hmr
    · rw [Table.get_setMetatable, ← hmr, htype]
    · exact htype
  | none =>
    obtain ⟨-, hmeta, hget, htype, -⟩ := setBSONType_of_new hr hname type
    exact ⟨L.heap.length, hget, hmeta, fun _ => htype⟩

theorem get_newTyped (L : State) (name : Bytes) (type : UInt32) (params : List LVal) :
    ∃ m, (newTyped L name type params).1.heap.get L.heap.length =
        (packed params).setMetatable (some m) ∧
      (newTyped L name type params).1.metatables name = some m ∧
      (TypeKnown L name type → ((newTyped L name type params).1.heap.get m).get
        (.str (bytes "__type")) = .int type.toNat.toInt64) := by
  obtain ⟨htable, hlength, hmeta⟩ := get_packParams L params
  obtain ⟨m, hget, hname, htype⟩ := get_setBSONType (L := (packParams L params).1)
    (r := L.heap.length) (by rw [hlength]; exact Nat.lt_succ_self _) name type
  rw [htable] at hget
  refine ⟨m, hget, hname, fun hknown => htype fun m' hm' => ?_⟩
  rw [hmeta] at hm'
  obtain ⟨hlt, hvalue⟩ := hknown m' hm'
  have hgrows := ((Grows.refl L).packParams params).1
  exact ⟨Nat.lt_of_lt_of_le hlt hgrows.heap.1, by rw [hgrows.heap.2 m' hlt, hvalue]⟩

/-! ## The encoded field -/

/-- A document with room for the field. -/
structure Room (b : BsonT) (key : Bytes) (x : Value) : Prop where
  writable : Writable b
  nulFree : NulFree key
  fits : b.closed + fieldSize key x ≤ b.limit

/-- Both encoders make the value `x` of a typed table: some new document has room for it,
and every document with room gains the one field.  Without room for the parameters on the
Lua stack, both raise an error. -/
structure FieldOf (E : Env) (type : UInt32) (t : Table Host) (x : Value) : Prop where
  stored : ∃ key, Room BsonT.bson_init key x
  inPlace : ∀ {top : Nat}, checkstack top (LUA_MINSTACK + t.rawlen) = true →
    ∀ {b : BsonT} {key : Bytes}, Room b key x →
      appendBSONType E top type t (some b) key = .ok (some (b.push key x))
  copied : ∀ {top : Nat} (arg : Nat), checkstack top (LUA_MINSTACK + t.rawlen) = true →
    ∃ y, toBSONType E top type arg t = .ok y ∧ ∀ {b : BsonT} {key : Bytes}, Room b key x →
      bson_append_value b key y = some (true, b.push key x)

theorem Room.append {b : BsonT} {key : Bytes} {x : Value} (h : Room b key x) :
    bson_append b key x = some (true, b.push key x) := by
  have hfits := h.fits
  have hbound := h.writable.bound
  refine bson_append_of_fits hbound h.nulFree ?_ hfits
  unfold BSON_MAX_SIZE at hbound
  unfold fieldSize at hfits
  omega

/-- A new document has room for a value under the empty key when its size leaves seven
bytes of the largest buffer. -/
theorem room_of_size {x : Value} (hsize : x.size + 7 ≤ BSON_GROW_LIMIT) :
    Room BsonT.bson_init [] x where
  writable := ⟨by decide, by decide⟩
  nulFree := by simp [NulFree]
  fits := by
    show 5 + fieldSize [] x ≤ BSON_GROW_LIMIT
    rw [fieldSize, List.length_nil]
    omega

theorem exists_room_iff (x : Value) :
    (∃ key, Room BsonT.bson_init key x) ↔ x.size + 7 ≤ BSON_GROW_LIMIT := by
  constructor
  · rintro ⟨key, hroom⟩
    have hfits : 5 + fieldSize key x ≤ BSON_GROW_LIMIT := hroom.fits
    rw [fieldSize] at hfits
    omega
  · exact fun hsize => ⟨[], room_of_size hsize⟩

theorem FieldOf.room {E : Env} {type : UInt32} {t : Table Host} {x : Value}
    (h : FieldOf E type t x) : Room BsonT.bson_init [] x :=
  room_of_size ((exists_room_iff x).mp h.stored)

/-- The field is that of the value that the encoders read. -/
theorem FieldOf.eq_typedValue {E : Env} {type : UInt32} {t : Table Host} {x x' : Value}
    (h : FieldOf E type t x) {top : Nat} (htop : checkstack top (LUA_MINSTACK + t.rawlen) = true)
    (hx' : typedValue E type t = some x') : x = x' := by
  have hfield := h.inPlace htop h.room
  rw [appendBSONType_of_typedValue htop hx' (some BsonT.bson_init) [], appendTo] at hfield
  rcases bson_append_cases BsonT.bson_init [] x' with ⟨k, hk, -, heq⟩ | heq | ⟨k, -, -, heq⟩
  · rw [heq, Option.elim_some, Outcome.ok.injEq, Option.some.injEq] at hfield
    have hfields := congrArg BsonT.fields hfield
    simp only [BsonT.push_fields, List.append_cancel_left_eq, List.cons.injEq, Prod.mk.injEq,
      and_true] at hfields
    exact hfields.2.symm
  · rw [heq, Option.elim_some, Outcome.ok.injEq, Option.some.injEq] at hfield
    have hfields := congrArg BsonT.fields hfield
    simp at hfields
  · rw [heq] at hfield
    cases hfield

theorem fieldOf_typedValue {E : Env} {type : UInt32} {t : Table Host} {x : Value}
    (hx : typedValue E type t = some x) (hsize : x.size + 7 ≤ BSON_GROW_LIMIT) :
    FieldOf E type t x where
  stored := (exists_room_iff x).mpr hsize
  inPlace htop b key hroom := by
    rw [appendBSONType_of_typedValue htop hx (some b) key]
    exact appendTo_of_eq_some hroom.append
  copied arg htop := by
    obtain ⟨y, hy, happend⟩ := toBSONType_of_typedValue arg htop hx
    exact ⟨y, hy, fun {b key} hroom => (happend b key).trans hroom.append⟩

/-! ## The constructors -/

/-- The constructors with parameters that are narrowed. -/
inductive Maker where
  | int32 | timestamp | binary | javascript | regex
  deriving DecidableEq, Repr

namespace Maker

def name : Maker → Bytes
  | int32 => TYPE_INT32
  | timestamp => TYPE_TIMESTAMP
  | binary => TYPE_BINARY
  | javascript => TYPE_JAVASCRIPT
  | regex => TYPE_REGEX

def type : Maker → UInt32
  | int32 => 0x10
  | timestamp => 0x11
  | binary => 0x05
  | javascript => 0x0D
  | regex => 0x0B

/-- A call of the constructor.  `javascript` is called without a scope. -/
def make (E : Env) (L : State) (args : List LVal) : Maker → Outcome LuaError (State × LVal)
  | int32 => newInt32 E L args
  | timestamp => newTimestamp E L args
  | binary => newBinary E L args
  | javascript => newJavascript E L (args.take 1)
  | regex => newRegex E L args

end Maker

section

variable (E : Env) (args : List LVal)

/-- The integer that argument `arg` is, zero for a missing one. -/
def argInteger (arg : Nat) : Int := (tointeger E (args.getD (arg - 1) .nil)).toInt

/-- The string that argument `arg` is. -/
def argText (arg : Nat) : Bytes := (tolstring E (args.getD (arg - 1) .nil)).getD []

/-- The value is what the arguments say. -/
def Carries : Maker → Value → Prop
  | .int32, x => ∃ n, x = .int32 n ∧ n.toInt = argInteger E args 1
  | .timestamp, x => ∃ t i, x = .timestamp t i ∧ (t.toNat : Int) = argInteger E args 1 ∧
      (i.toNat : Int) = argInteger E args 2
  | .binary, x => ∃ subtype payload, x = .binary subtype payload ∧
      (subtype.toNat : Int) = argInteger E args 2 ∧
      bson_iter_binary subtype payload = argText E args 1
  | .javascript, x => x = .code (argText E args 1)
  | .regex, x => ∃ options, x = .regex (argText E args 1) options

/-- The options of a regex as they are stored. -/
def argOptions : Bytes := sortedOptions (cString (argText E args 2))

/-- The arguments survive the narrowing, and a document can hold them. -/
def Survives : Maker → Prop
  | .int32 => -2 ^ 31 ≤ argInteger E args 1 ∧ argInteger E args 1 < 2 ^ 31
  | .timestamp => 0 ≤ argInteger E args 1 ∧ argInteger E args 1 < 2 ^ 32 ∧
      0 ≤ argInteger E args 2 ∧ argInteger E args 2 < 2 ^ 32
  | .binary => 0 ≤ argInteger E args 2 ∧ argInteger E args 2 < 2 ^ 8 ∧
      (argText E args 1).length + (if argInteger E args 2 = 2 then 16 else 12) ≤ BSON_GROW_LIMIT
  | .javascript => NulFree (argText E args 1) ∧ (argText E args 1).length + 12 ≤ BSON_GROW_LIMIT
  | .regex => NulFree (argText E args 1) ∧
      (argText E args 1).length + (argOptions E args).length + 9 ≤ BSON_GROW_LIMIT

end

/-! ## Narrowing -/

theorem toInt_toInt32_eq_iff (i : Int64) :
    i.toInt32.toInt = i.toInt ↔ -2 ^ 31 ≤ i.toInt ∧ i.toInt < 2 ^ 31 := by
  rw [Int64.toInt_toInt32, Int.bmod_def]
  omega

theorem toNat_toUInt64 (i : Int64) : (i.toUInt64.toNat : Int) = i.toInt % 2 ^ 64 := by
  have hbits := BitVec.toInt_eq_toNat_cond i.toBitVec
  have hlt := i.toUInt64.toNat_lt
  have hnat : i.toUInt64.toNat = i.toBitVec.toNat := rfl
  have hint : i.toInt = i.toBitVec.toInt := rfl
  rw [hnat] at hlt ⊢
  rw [hint, hbits]
  split <;> omega

theorem toNat_toUInt32_eq_iff (i : Int64) :
    (i.toUInt64.toUInt32.toNat : Int) = i.toInt ↔ 0 ≤ i.toInt ∧ i.toInt < 2 ^ 32 := by
  have hnat := toNat_toUInt64 i
  rw [UInt64.toNat_toUInt32]
  omega

theorem toNat_toUInt8_eq_iff (i : Int64) :
    (i.toUInt64.toUInt32.toUInt8.toNat : Int) = i.toInt ↔ 0 ≤ i.toInt ∧ i.toInt < 2 ^ 8 := by
  have hnat := toNat_toUInt64 i
  rw [UInt32.toNat_toUInt8, UInt64.toNat_toUInt32]
  omega

/-! ## Checked arguments -/

section

variable (E : Env) (h : Heap Host) (args : List LVal) (arg : Nat)

theorem checkinteger_cases : (∃ e, checkinteger E h args arg = .error e) ∨
    ∃ v, checkinteger E h args arg = .ok v ∧ v ≠ .nil ∧ args.getD (arg - 1) .nil = v := by
  unfold checkinteger
  rw [List.getD_eq_getElem?_getD]
  cases harg : args[arg - 1]? with
  | none => exact Or.inl ⟨_, rfl⟩
  | some v =>
    by_cases hint : (isInteger E v).isSome = true
    · refine Or.inr ⟨v, by simp [hint], ?_, rfl⟩
      rintro rfl
      simp [isInteger, tointegerx] at hint
    · simp only [hint, Bool.false_eq_true, if_false]
      split <;> exact Or.inl ⟨_, rfl⟩

theorem checkstring_cases : (∃ e, checkstring E h args arg = .error e) ∨
    checkstring E h args arg = .ok (.str (argText E args arg)) := by
  unfold checkstring argText
  rw [List.getD_eq_getElem?_getD]
  cases harg : args[arg - 1]? with
  | none => exact Or.inl ⟨_, rfl⟩
  | some v =>
    cases hstr : tolstring E v with
    | none => exact Or.inl ⟨luaL_typeerror h arg (bytes "string") (some v), by simp [hstr]⟩
    | some str => exact Or.inr (by simp [hstr])

/-- A missing integer reads as zero. -/
theorem optional_checkinteger_cases :
    (∃ e, optional (checkinteger E h) args arg = .error e) ∨
      ∃ v, optional (checkinteger E h) args arg = .ok v ∧
        (tointeger E v).toInt = argInteger E args arg := by
  unfold optional argInteger
  rw [List.getD_eq_getElem?_getD]
  cases harg : args[arg - 1]? with
  | none => exact Or.inr ⟨.nil, rfl, rfl⟩
  | some v =>
    by_cases hnil : v.isNil = true
    · refine Or.inr ⟨.nil, by simp [hnil], ?_⟩
      rw [Val.isNil_iff.mp hnil]
      rfl
    · simp only [hnil, Bool.false_eq_true, if_false]
      rcases checkinteger_cases E h args arg with herror | ⟨w, hok, -, hw⟩
      · exact Or.inl herror
      · refine Or.inr ⟨w, hok, ?_⟩
        rw [← hw, List.getD_eq_getElem?_getD, harg]

/-- A missing text reads as the empty one. -/
theorem optional_checkstring_cases : (∃ e, optional (checkstring E h) args arg = .error e) ∨
    ∃ v, optional (checkstring E h) args arg = .ok v ∧
      (tolstring E v).getD [] = argText E args arg := by
  have hcheck := checkstring_cases E h args arg
  unfold optional argText at *
  rw [List.getD_eq_getElem?_getD] at *
  cases harg : args[arg - 1]? with
  | none => exact Or.inr ⟨.nil, rfl, rfl⟩
  | some v =>
    by_cases hnil : v.isNil = true
    · refine Or.inr ⟨.nil, by simp [hnil], ?_⟩
      rw [Val.isNil_iff.mp hnil]
      rfl
    · simp only [hnil, Bool.false_eq_true, if_false]
      rw [harg] at hcheck
      exact hcheck.imp_right fun hok => ⟨.str _, hok, rfl⟩

end

/-! ## What the constructors pack -/

theorem get_packed_other (params : List LVal) {i : Nat} (hi : params.length < i) :
    (packed params).get (.int i) = .nil := by
  obtain ⟨start, hstart⟩ : ∃ start, start = 0 := ⟨0, rfl⟩
  have hbound : start + params.length < i := by omega
  unfold packed
  rw [← hstart]
  clear hi hstart
  induction params generalizing start with
  | nil => rfl
  | cons v rest ih =>
    rw [List.length_cons] at hbound
    rw [List.zipIdx_cons, List.foldr_cons, Table.get_rawset, if_neg]
    · exact ih (start + 1) (by omega)
    · rw [Key.int.injEq]
      show (i : Int) ≠ (start : Int) + 1
      omega

theorem rawlen_packed_le (params : List LVal) : (packed params).rawlen ≤ params.length := by
  by_contra hlt
  rcases (packed params).border.1 with hzero | hlast
  · omega
  · exact hlast (get_packed_other params (Nat.not_le.mp hlt))

/-- What is left of a constructor after the checks: the parameters, and the value
that the encoders make of them. -/
def Packs (E : Env) (L : State) (args : List LVal) (m : Maker) : Prop :=
  ∃ params x, m.make E L args = .ok (newTyped L m.name m.type params) ∧
    params.length ≤ 2 ∧ typedValue E m.type (packed params) = some x ∧
    (Carries E args m x ∧ x.size + 7 ≤ BSON_GROW_LIMIT ↔ Survives E args m)

theorem make_int32 (E : Env) (L : State) (args : List LVal) :
    (∃ e, Maker.int32.make E L args = .error e) ∨ Packs E L args .int32 := by
  rcases checkinteger_cases E L.heap args 1 with ⟨e, he⟩ | ⟨v, hv, -, harg⟩
  · exact Or.inl ⟨e, by simp [Maker.make, newInt32, he]⟩
  · refine Or.inr ⟨[v], _, by simp only [Maker.make, newInt32, hv]; rfl, by simp, rfl, ?_⟩
    rw [param_packed_one]
    have hsize : (Value.int32 (tointeger E v).toInt32).size + 7 ≤ BSON_GROW_LIMIT := by
      simp [Value.size, BSON_GROW_LIMIT]
    simp only [Carries, Survives, argInteger, harg, Value.int32.injEq, exists_eq_left',
      toInt_toInt32_eq_iff, hsize, and_true]

theorem make_timestamp (E : Env) (L : State) (args : List LVal) :
    (∃ e, Maker.timestamp.make E L args = .error e) ∨ Packs E L args .timestamp := by
  rcases checkinteger_cases E L.heap args 1 with ⟨e, he⟩ | ⟨t, ht, hne, hargt⟩
  · exact Or.inl ⟨e, by simp [Maker.make, newTimestamp, he]⟩
  rcases checkinteger_cases E L.heap args 2 with ⟨e, he⟩ | ⟨i, hi, -, hargi⟩
  · exact Or.inl ⟨e, by simp [Maker.make, newTimestamp, ht, he]⟩
  · refine Or.inr ⟨[t, i], _, by simp only [Maker.make, newTimestamp, ht, hi]; rfl, by simp, rfl, ?_⟩
    rw [param_packed_one, param_packed_two hne]
    have hsize : (Value.timestamp (tointeger E t).toUInt64.toUInt32
        (tointeger E i).toUInt64.toUInt32).size + 7 ≤ BSON_GROW_LIMIT := by
      simp [Value.size, BSON_GROW_LIMIT]
    simp only [Carries, Survives, argInteger, hargt, hargi, Value.timestamp.injEq, hsize, and_true]
    constructor
    · rintro ⟨_, _, ⟨rfl, rfl⟩, ht, hi⟩
      rw [toNat_toUInt32_eq_iff] at ht hi
      exact ⟨ht.1, ht.2, hi.1, hi.2⟩
    · rintro ⟨htlo, hthi, hilo, hihi⟩
      exact ⟨_, _, ⟨rfl, rfl⟩, (toNat_toUInt32_eq_iff _).mpr ⟨htlo, hthi⟩,
        (toNat_toUInt32_eq_iff _).mpr ⟨hilo, hihi⟩⟩

/-- The payload that is written for binary data, read back. -/
theorem bson_iter_binary_payload {subtype : UInt32} (hbyte : subtype.toNat < 2 ^ 8)
    (data : Bytes) :
    bson_iter_binary subtype.toUInt8
      (if subtype = 2 then le32 data.length.toUInt32 ++ data else data) = data := by
  have hsame : subtype.toUInt8 = 2 ↔ subtype = 2 := by
    rw [← UInt8.toNat_inj, ← UInt32.toNat_inj, UInt32.toNat_toUInt8]
    show subtype.toNat % 2 ^ 8 = 2 ↔ subtype.toNat = 2
    omega
  unfold bson_iter_binary
  simp only [hsame]
  split_ifs
  · rfl
  · rfl

theorem size_binary_payload {i : Int64} (hlo : 0 ≤ i.toInt) (hhi : i.toInt < 2 ^ 8)
    (data : Bytes) :
    (Value.binary i.toUInt64.toUInt32.toUInt8 (if i.toUInt64.toUInt32 = 2
      then le32 data.length.toUInt32 ++ data else data)).size + 7 =
      data.length + (if i.toInt = 2 then 16 else 12) := by
  have htwo : i.toUInt64.toUInt32 = 2 ↔ i.toInt = 2 := by
    have hnat := toNat_toUInt64 i
    rw [← UInt32.toNat_inj, UInt64.toNat_toUInt32]
    show i.toUInt64.toNat % 2 ^ 32 = 2 ↔ i.toInt = 2
    omega
  simp only [htwo]
  split
  · rw [Value.size, List.length_append, length_le32]
    omega
  · rw [Value.size]
    omega

theorem make_binary (E : Env) (L : State) (args : List LVal) :
    (∃ e, Maker.binary.make E L args = .error e) ∨ Packs E L args .binary := by
  rcases checkstring_cases E L.heap args 1 with ⟨e, he⟩ | hs
  · exact Or.inl ⟨e, by simp [Maker.make, newBinary, he]⟩
  rcases optional_checkinteger_cases E L.heap args 2 with ⟨e, he⟩ | ⟨v, hv, harg⟩
  · exact Or.inl ⟨e, by simp [Maker.make, newBinary, hs, he]⟩
  obtain ⟨str, hstr⟩ : ∃ str, argText E args 1 = str := ⟨_, rfl⟩
  obtain ⟨i, hi⟩ : ∃ i, tointeger E v = i := ⟨_, rfl⟩
  rw [hstr] at hs
  rw [hi] at harg
  have hnat := toNat_toUInt64 i
  have hone : param (packed [.str str, v]) 1 = .str str := param_packed_one _ _
  have htwo : param (packed [.str str, v]) 2 = v := param_packed_two (by simp) v
  refine Or.inr ⟨[.str str, v], _, by simp only [Maker.make, newBinary, hs, hv]; rfl, by simp,
    by simp only [typedValue, Maker.type, hone, htwo, hi]; rfl, ?_⟩
  simp only [Carries, Survives, hstr, ← harg, Value.binary.injEq]
  constructor
  · rintro ⟨⟨_, _, ⟨rfl, rfl⟩, hsubtype, hdata⟩, hsize⟩
    obtain ⟨hlo, hhi⟩ := (toNat_toUInt8_eq_iff i).mp hsubtype
    refine ⟨hlo, hhi, ?_⟩
    rw [bson_iter_binary_payload (by rw [UInt64.toNat_toUInt32]; omega)] at hdata
    rwa [hdata, size_binary_payload hlo hhi] at hsize
  · rintro ⟨hlo, hhi, hsize⟩
    have hlength : str.length < 2 ^ 32 := by
      unfold BSON_GROW_LIMIT at hsize
      omega
    rw [Nat.mod_eq_of_lt hlength, List.take_length]
    refine ⟨⟨_, _, ⟨rfl, rfl⟩, (toNat_toUInt8_eq_iff i).mpr ⟨hlo, hhi⟩, ?_⟩, ?_⟩
    · rw [bson_iter_binary_payload (by rw [UInt64.toNat_toUInt32]; omega)]
    · rwa [size_binary_payload hlo hhi]

theorem make_javascript (E : Env) (L : State) (args : List LVal) :
    (∃ e, Maker.javascript.make E L args = .error e) ∨ Packs E L args .javascript := by
  have hfirst : argText E (args.take 1) 1 = argText E args 1 := by
    cases args <;> rfl
  have hscope : (args.take 1)[1]? = none := by
    cases args <;> rfl
  obtain ⟨str, hstr⟩ : ∃ str, argText E args 1 = str := ⟨_, rfl⟩
  rcases checkstring_cases E L.heap (args.take 1) 1 with ⟨e, he⟩ | hs
  · exact Or.inl ⟨e, by simp [Maker.make, newJavascript, he]⟩
  rw [hfirst, hstr] at hs
  have hone : param (packed [.str str, .nil]) 1 = .str str := param_packed_one _ _
  have htwo : param (packed [.str str, .nil]) 2 = .nil := param_packed_two (by simp) .nil
  refine Or.inr ⟨[.str str, .nil], .code (cString str), ?_, by simp, ?_, ?_⟩
  · simp only [Maker.make, newJavascript, hs, hscope]
    rfl
  · simp only [typedValue, Maker.type, hone, htwo]
    rfl
  · simp only [Carries, Survives, hstr, Value.code.injEq, cString_eq_self_iff, Value.size]
    refine and_congr_right fun hfree => ?_
    rw [cString_eq_self hfree]
    omega

theorem make_regex (E : Env) (L : State) (args : List LVal) :
    (∃ e, Maker.regex.make E L args = .error e) ∨ Packs E L args .regex := by
  obtain ⟨str, hstr⟩ : ∃ str, argText E args 1 = str := ⟨_, rfl⟩
  rcases checkstring_cases E L.heap args 1 with ⟨e, he⟩ | hs
  · exact Or.inl ⟨e, by simp [Maker.make, newRegex, he]⟩
  rcases optional_checkstring_cases E L.heap args 2 with ⟨e, he⟩ | ⟨v, hv, harg⟩
  · exact Or.inl ⟨e, by simp [Maker.make, newRegex, hs, he]⟩
  rw [hstr] at hs
  have hone : param (packed [.str str, v]) 1 = .str str := param_packed_one _ _
  have htwo : param (packed [.str str, v]) 2 = v := param_packed_two (by simp) v
  refine Or.inr ⟨[.str str, v], .regex (cutString str) (argOptions E args),
    by simp only [Maker.make, newRegex, hs, hv]; rfl, by simp, ?_, ?_⟩
  · simp only [typedValue, Maker.type, hone, htwo, harg, argOptions]
    rfl
  simp only [Carries, Survives, hstr, Value.regex.injEq, exists_and_left, exists_eq', and_true,
    Value.size]
  constructor
  · rintro ⟨hcut, hsize⟩
    rw [hcut] at hsize
    exact ⟨hcut ▸ nulFree_cutString str, by omega⟩
  · rintro ⟨hfree, hsize⟩
    have hcut : cutString str = str := by
      have hstring := cString_eq_self hfree
      rw [cutString_eq_cString, hstring]
      rw [hstring]
      unfold BSON_GROW_LIMIT at hsize
      omega
    rw [hcut]
    exact ⟨rfl, by omega⟩

theorem make_cases (E : Env) (L : State) (args : List LVal) (m : Maker) :
    (∃ e, m.make E L args = .error e) ∨ Packs E L args m := by
  cases m with
  | int32 => exact make_int32 E L args
  | timestamp => exact make_timestamp E L args
  | binary => exact make_binary E L args
  | javascript => exact make_javascript E L args
  | regex => exact make_regex E L args

/-! ## Exactness -/

/-- The constructor raises an error, or it returns a table that its metatable marks
with its type and whose encoded field carries the arguments. -/
def KeepsArguments (E : Env) (L : State) (args : List LVal) (m : Maker) : Prop :=
  (∃ e, m.make E L args = .error e) ∨
    ∃ L' r x, m.make E L args = .ok (L', .table r) ∧
      (TypeKnown L m.name m.type →
        L'.heap.getmetafield (.table r) (bytes "__type") = .int m.type.toNat.toInt64) ∧
      FieldOf E m.type (L'.heap.get r) x ∧ Carries E args m x

section

variable {E : Env} {L : State} {args : List LVal} {m : Maker}

/-- Both encoders see the table that the constructor packed. -/
theorem typedValue_newTyped (L : State) {params : List LVal} {x : Value}
    (hx : typedValue E m.type (packed params) = some x) :
    typedValue E m.type ((newTyped L m.name m.type params).1.heap.get L.heap.length) = some x := by
  obtain ⟨mt, htable, -, -⟩ := get_newTyped L m.name m.type params
  rw [htable]
  exact hx

/-- There is room for the parameters on an empty stack. -/
theorem checkstack_newTyped {params : List LVal} (hlength : params.length ≤ 2) :
    checkstack 0 (LUA_MINSTACK +
      ((newTyped L m.name m.type params).1.heap.get L.heap.length).rawlen) = true := by
  obtain ⟨mt, htable, -, -⟩ := get_newTyped L m.name m.type params
  have hrawlen := rawlen_packed_le params
  rw [htable]
  show decide (0 + EXTRA_STACK ≤ LUAI_MAXSTACK - (LUA_MINSTACK + (packed params).rawlen)) = true
  refine decide_eq_true ?_
  unfold EXTRA_STACK LUAI_MAXSTACK LUA_MINSTACK
  omega

theorem newTyped_eq (L : State) (m : Maker) (params : List LVal) :
    newTyped L m.name m.type params =
      ((newTyped L m.name m.type params).1, .table L.heap.length) := by
  rw [← (grows_newTyped L m.name m.type params).2]

theorem survives_of_keepsArguments (h : KeepsArguments E L args m)
    (hok : ∃ p, m.make E L args = .ok p) : Survives E args m := by
  obtain ⟨p, hp⟩ := hok
  rcases make_cases E L args m with ⟨e, he⟩ | ⟨params, x, hrun, hlength, hx, hcarries⟩
  · simp [he] at hp
  rcases h with ⟨e, he⟩ | ⟨L', r, x', hok, -, hfield', hcarries'⟩
  · simp [hrun] at he
  rw [hrun, newTyped_eq, Outcome.ok.injEq, Prod.mk.injEq, Val.table.injEq] at hok
  obtain ⟨rfl, rfl⟩ := hok
  obtain rfl := hfield'.eq_typedValue (checkstack_newTyped hlength) (typedValue_newTyped L hx)
  exact hcarries.mp ⟨hcarries', (exists_room_iff x').mp hfield'.stored⟩

theorem keepsArguments_of_survives
    (h : (∃ p, m.make E L args = .ok p) → Survives E args m) : KeepsArguments E L args m := by
  rcases make_cases E L args m with herror | ⟨params, x, hrun, -, hx, hcarries⟩
  · exact Or.inl herror
  obtain ⟨mt, htable, -, htype⟩ := get_newTyped L m.name m.type params
  obtain ⟨hcarried, hsize⟩ := hcarries.mpr (h ⟨_, hrun⟩)
  refine Or.inr ⟨_, _, x, by rw [hrun, newTyped_eq], fun hknown => ?_,
    fieldOf_typedValue (typedValue_newTyped L hx) hsize, hcarried⟩
  have hmeta : Heap.metatable (newTyped L m.name m.type params).1.heap
      (.table L.heap.length) = some mt := by
    rw [Heap.metatable, htable]
    rfl
  rw [Heap.getmetafield, hmeta]
  exact htype hknown

end

/-- A typed value keeps its arguments exactly when they are refused or survive the
narrowing. -/
theorem typedValues_exact_iff (E : Env) (L : State) (args : List LVal) (m : Maker) :
    KeepsArguments E L args m ↔ ((∃ p, m.make E L args = .ok p) → Survives E args m) :=
  ⟨survives_of_keepsArguments, keepsArguments_of_survives⟩

/-- A state without tables, slots and types. -/
def blankState : State := { heap := [], slots := fun _ => .nil, metatables := fun _ => none }

theorem int32_loses_its_high_bits :
    ¬ KeepsArguments Env.bare blankState [.int (2 ^ 32 + 1)] .int32 := by
  intro h
  have hsurvives := survives_of_keepsArguments h ⟨_, rfl⟩
  exact absurd hsurvives.2 (by decide)

end Vklib.Mongo
