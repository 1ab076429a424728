import Vklib.Mongo.Encode

/-!
# Typed values: `util.c` and `bsontype.c`

A typed value such as `mongo.Binary` is a table of parameters whose metatable
carries the BSON type under `__type`.  The constructors check their arguments,
pack them into a table and set the metatable, which `newType` makes on first
use.  `MaxKey`, `MinKey` and `Null` are tables without parameters.

`lua_call` is a call from C: it dispatches to the constructors and otherwise
leaves the module.
-/

namespace Vklib.Mongo

open Vklib.Lua Vklib.Bson

/-! ## Arguments -/

/-- `luaL_typeerror` on the argument `arg`, none when it is missing. -/
def luaL_typeerror (h : Heap Host) (arg : Nat) (expected : Bytes) (v : Option LVal) : LuaError :=
  let got :=
    match v with
    | none => bytes "no value"
    | some (.host (.light _)) => bytes "light userdata"
    | some v => typeName h v
  .argument arg (expected ++ bytes " expected, got " ++ got)

/-- `luaL_checkstring`: the argument, with a number converted in place. -/
def checkstring (E : Env) (h : Heap Host) (args : List LVal) (arg : Nat) :
    Outcome LuaError LVal :=
  match args[arg - 1]? with
  | none => .error (luaL_typeerror h arg (bytes "string") none)
  | some v =>
    match tolstring E v with
    | some s => .ok (.str s)
    | none => .error (luaL_typeerror h arg (bytes "string") (some v))

/-- `luaL_checkinteger`: the argument as it is. -/
def checkinteger (E : Env) (h : Heap Host) (args : List LVal) (arg : Nat) :
    Outcome LuaError LVal :=
  match args[arg - 1]? with
  | none => .error (luaL_typeerror h arg (bytes "number") none)
  | some v =>
    if (isInteger E v).isSome then .ok v
    else if (tonumberx E.l_str2d v).isSome then
      .error (.argument arg (bytes "number has no integer representation"))
    else .error (luaL_typeerror h arg (bytes "number") (some v))

/-- `luaL_checknumber`: the argument as it is. -/
def checknumber (E : Env) (h : Heap Host) (args : List LVal) (arg : Nat) :
    Outcome LuaError LVal :=
  match args[arg - 1]? with
  | none => .error (luaL_typeerror h arg (bytes "number") none)
  | some v =>
    if (tonumberx E.l_str2d v).isSome then .ok v
    else .error (luaL_typeerror h arg (bytes "number") (some v))

/-- `luaL_opt`: a missing or nil argument is not checked. -/
def optional (check : List LVal → Nat → Outcome LuaError LVal) (args : List LVal) (arg : Nat) :
    Outcome LuaError LVal :=
  match args[arg - 1]? with
  | none => .ok .nil
  | some v => if v.isNil then .ok .nil else check args arg

/-! ## Types -/

/-- `luaL_setfuncs` and other runs of `lua_setfield` on a plain table. -/
def setfields (L : State) (r : Ref) (fields : List (Bytes × LVal)) : State :=
  fields.foldl (fun L f => L.rawset r (.str f.1) f.2) L

/-- `newType`: the metatable of a type, and whether it is new. -/
def newType (L : State) (name : Bytes) (funcs : List (Bytes × CFun)) : State × Ref × Bool :=
  match L.metatables name with
  | some m => (L, m, false)
  | none =>
    let (L, m) := L.newtable
    let L := { L with metatables := fun n => if n = name then some m else L.metatables n }
    let L := setfields L m
      ([(bytes "__name", .str name), (bytes "__metatable", .bool false),
        (bytes "__index", .table m), (bytes "__name", .str name),
        (bytes "__tostring", .host (.cfunc .typeToString))] ++
        funcs.map (fun f => (f.1, .host (.cfunc f.2))))
    (L, m, true)

/-- The methods of typed values. -/
def bsontypeFuncs : List (Bytes × CFun) :=
  [(bytes "unpack", .m_unpack), (bytes "__tostring", .m__tostring)]

/-- `setBSONType` on the table `r`. -/
def setBSONType (L : State) (r : Ref) (name : Bytes) (type : UInt32) : State :=
  let (L, m, fresh) := newType L name bsontypeFuncs
  let L := if fresh then L.rawset m (.str (bytes "__type")) (.int type.toNat.toInt64) else L
  L.setmetatable r (some m)

/-- `packParams`: the values at the indices from `1` up, written from the last
to the first. -/
def packParams (L : State) (params : List LVal) : State × Ref :=
  let (L, r) := L.newtable
  (params.zipIdx.foldr (fun p L => L.rawset r (.int (p.2 + 1)) p.1) L, r)

/-- A typed value with its parameters. -/
def newTyped (L : State) (name : Bytes) (type : UInt32) (params : List LVal) : State × LVal :=
  let (L, r) := packParams L params
  (setBSONType L r name type, .table r)

/-! ## Constructors -/

section constructors

variable (E : Env) (L : State) (args : List LVal)

/-- `newBinary`. -/
def newBinary : Outcome LuaError (State × LVal) := do
  let data ← checkstring E L.heap args 1
  let subtype ← optional (checkinteger E L.heap) args 2
  .ok (newTyped L TYPE_BINARY 0x05 [data, subtype])

/-- `newDateTime`. -/
def newDateTime : Outcome LuaError (State × LVal) := do
  let ms ← checkinteger E L.heap args 1
  .ok (newTyped L TYPE_DATETIME 0x09 [ms])

/-- `newDecimal128`. -/
def newDecimal128 : Outcome LuaError (State × LVal) := do
  let str ← checkstring E L.heap args 1
  match (tolstring E str).bind (fun s => E.bson_decimal128_from_string (cString s)) with
  | none => .error (.argument 1 (bytes "invalid format"))
  | some _ => .ok (newTyped L TYPE_DECIMAL128 0x13 [str])

/-- `newDouble`. -/
def newDouble : Outcome LuaError (State × LVal) := do
  let x ← checknumber E L.heap args 1
  .ok (newTyped L TYPE_DOUBLE 0x01 [x])

/-- `newInt32`. -/
def newInt32 : Outcome LuaError (State × LVal) := do
  let i ← checkinteger E L.heap args 1
  .ok (newTyped L TYPE_INT32 0x10 [i])

/-- `newInt64`. -/
def newInt64 : Outcome LuaError (State × LVal) := do
  let i ← checkinteger E L.heap args 1
  .ok (newTyped L TYPE_INT64 0x12 [i])

/-- `newJavascript`.  A scope is cast to a BSON object in place. -/
def newJavascript : Outcome LuaError (State × LVal) := do
  let source ← checkstring E L.heap args 1
  match args[1]? with
  | none => .ok (newTyped L TYPE_JAVASCRIPT 0x0D [source, .nil])
  | some scope =>
    if scope.isNil then .ok (newTyped L TYPE_JAVASCRIPT 0x0D [source, .nil])
    else do
      let (h, doc) ← castBSON E BSON_GROW_LIMIT args.length L.heap 2 scope
      .ok (newTyped { L with heap := h } TYPE_JAVASCRIPT 0x0D [source, .host (.bson doc)])

/-- `newRegex`. -/
def newRegex : Outcome LuaError (State × LVal) := do
  let pattern ← checkstring E L.heap args 1
  let options ← optional (checkstring E L.heap) args 2
  .ok (newTyped L TYPE_REGEX 0x0B [pattern, options])

/-- `newTimestamp`. -/
def newTimestamp : Outcome LuaError (State × LVal) := do
  let t ← checkinteger E L.heap args 1
  let i ← checkinteger E L.heap args 2
  .ok (newTyped L TYPE_TIMESTAMP 0x11 [t, i])

end constructors

/-- `pushMaxKey`, `pushMinKey` and `pushNull`. -/
def pushMaxKey (L : State) : State × LVal := newTyped L TYPE_MAXKEY 0x7F []

@[inherit_doc pushMaxKey]
def pushMinKey (L : State) : State × LVal := newTyped L TYPE_MINKEY 0xFF []

@[inherit_doc pushMaxKey]
def pushNull (L : State) : State × LVal := newTyped L TYPE_NULL 0x0A []

/-! ## Calls from C -/

/-- A call of a Lua value with the given arguments and one result. -/
def lua_call (E : Env) (L : State) (f : LVal) (args : List LVal) :
    Outcome LuaError (State × LVal) :=
  let leave : Outcome LuaError (State × LVal) :=
    match E.call L.heap f args with
    | (new, .ok v) => .ok ({ L with heap := L.heap ++ new }, v)
    | (_, .error e) => .error e
  match f with
  | .host (.cfunc .newBinary) => newBinary E L args
  | .host (.cfunc .newDateTime) => newDateTime E L args
  | .host (.cfunc .newDecimal128) => newDecimal128 E L args
  | .host (.cfunc .newDouble) => newDouble E L args
  | .host (.cfunc .newInt32) => newInt32 E L args
  | .host (.cfunc .newInt64) => newInt64 E L args
  | .host (.cfunc .newJavascript) => newJavascript E L args
  | .host (.cfunc .newRegex) => newRegex E L args
  | .host (.cfunc .newTimestamp) => newTimestamp E L args
  | .host (.cfunc _) | .host (.luafunc _) | .table _ | .userdata _ _ => leave
  | f => .error (.object (.str (bytes "attempt to call a " ++ luaTypename f ++ bytes " value")))

/-- Nil is not called. -/
theorem lua_call_nil (E : Env) (L : State) (args : List LVal) :
    lua_call E L .nil args = .error (.text "attempt to call a nil value") := rfl

/-! ## What the constructors leave alone -/

/-- A state that has only gained tables above `h`. -/
structure Grows (h : Heap Host) (slots : Slot → LVal) (L : State) : Prop where
  heap : Heap.Extends h L.heap
  slots : L.slots = slots

theorem Grows.refl (L : State) : Grows L.heap L.slots L := ⟨Heap.Extends.refl _, rfl⟩

theorem Grows.rawset {h : Heap Host} {slots : Slot → LVal} {L : State} (hgrows : Grows h slots L)
    {r : Ref} (hr : h.length ≤ r) (k : Key) (v : LVal) : Grows h slots (L.rawset r k v) :=
  ⟨State.extends_rawset hgrows.heap hr k v, hgrows.slots⟩

theorem Grows.newtable {h : Heap Host} {slots : Slot → LVal} {L : State}
    (hgrows : Grows h slots L) : Grows h slots L.newtable.1 :=
  ⟨State.extends_newtable hgrows.heap, hgrows.slots⟩

theorem Grows.setfields {h : Heap Host} {slots : Slot → LVal} {L : State}
    (hgrows : Grows h slots L) {r : Ref} (hr : h.length ≤ r) (fields : List (Bytes × LVal)) :
    Grows h slots (setfields L r fields) := by
  induction fields generalizing L with
  | nil => exact hgrows
  | cons f rest ih => exact ih (hgrows.rawset hr _ _)

/-- `newType` makes a metatable above the heap or takes one that exists. -/
theorem Grows.newType {h : Heap Host} {slots : Slot → LVal} {L : State}
    (hgrows : Grows h slots L) (name : Bytes) (funcs : List (Bytes × CFun)) :
    Grows h slots (newType L name funcs).1 ∧
      ((newType L name funcs).2.2 = true → h.length ≤ (newType L name funcs).2.1) := by
  unfold Mongo.newType
  split
  · exact ⟨hgrows, by simp⟩
  · have hr : h.length ≤ L.newtable.2 := hgrows.heap.1
    refine ⟨Grows.setfields ?_ hr _, fun _ => hr⟩
    exact ⟨hgrows.newtable.heap, hgrows.slots⟩

theorem Grows.setBSONType {h : Heap Host} {slots : Slot → LVal} {L : State}
    (hgrows : Grows h slots L) {r : Ref} (hr : h.length ≤ r) (name : Bytes) (type : UInt32) :
    Grows h slots (setBSONType L r name type) := by
  obtain ⟨hnew, hfresh⟩ := hgrows.newType name bsontypeFuncs
  simp only [Mongo.setBSONType]
  split_ifs with h'
  · exact ⟨State.extends_setmetatable (hnew.rawset (hfresh h') _ _).heap hr _, hnew.slots⟩
  · exact ⟨State.extends_setmetatable hnew.heap hr _, hnew.slots⟩

theorem Grows.packParams {h : Heap Host} {slots : Slot → LVal} {L : State}
    (hgrows : Grows h slots L) (params : List LVal) :
    Grows h slots (packParams L params).1 ∧ (packParams L params).2 = L.heap.length := by
  refine ⟨?_, rfl⟩
  simp only [Mongo.packParams]
  generalize params.zipIdx = ps
  induction ps with
  | nil => exact hgrows.newtable
  | cons p rest ih => exact ih.rawset hgrows.heap.1 _ _

/-- A typed value is a new table, and nothing else changes. -/
theorem grows_newTyped (L : State) (name : Bytes) (type : UInt32) (params : List LVal) :
    Grows L.heap L.slots (newTyped L name type params).1 ∧
      (newTyped L name type params).2 = .table L.heap.length := by
  obtain ⟨hpack, hr⟩ := (Grows.refl L).packParams params
  exact ⟨hpack.setBSONType (Nat.le_of_eq hr.symm) name type, by simp [newTyped, hr]⟩

end Vklib.Mongo
