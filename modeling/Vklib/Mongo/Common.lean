import Vklib.Base.Outcome
import Vklib.Bson.Writer
import Vklib.Lua.Convert

/-!
# The Lua state of the mongo module

The host objects of the module are its C functions, BSON objects and
ObjectIDs.  The metatables of the last two define none of the fields that the
module reads, so they are left out and a BSON object is known by its fields.

`State` is the part of a Lua state that the module uses: the heap, the
registry slots of the decoder, and the metatables that `luaL_newmetatable`
keeps by name.  `Env` collects what is not part of the module: conversions
that go through the C library, the decimal128 conversions and the parsers of
libbson, and calls into Lua code.  Lua code that the module calls may make
tables, and the tables that exist stay as they are.
-/

namespace Vklib.Mongo

open Vklib.Lua Vklib.Bson

/-- The C functions that the library registers or stores. -/
inductive CFun where
  | fs_getcwd | fs_create_dir | fs_dir_exists | fs_remove_file | fs_file_exists
  | fs_remove_dir | fs_create_file | fs_read_file | fs_get_files
  | request_get
  | sqlite_open | sqlite_close | sqlite_exec
  | gc_destroy
  | f_type
  | newBinary | newBSON | newClient | newDateTime | newDecimal128 | newDouble
  | newInt32 | newInt64 | newJavascript | newObjectID | newReadPrefs | newRegex
  | newTimestamp
  /-- The `__tostring` that `newType` installs. -/
  | typeToString
  /-- The `unpack` and `__tostring` methods of `bsontype.c`. -/
  | m_unpack | m__tostring
  deriving DecidableEq, Repr

/-- The host objects of the library. -/
inductive Host where
  | cfunc (f : CFun)
  | luafunc (id : Nat)
  | bson (fields : Doc)
  | objectID (id : Oid)
  | thread (id : Nat)
  | light (id : Nat)

/-- A Lua value of the library. -/
abbrev LVal := Val Host

/-- A Lua error: an error object, or the failed check of an argument. -/
inductive LuaError where
  | object (v : LVal)
  | argument (arg : Nat) (message : Bytes)

/-- An error whose object is a text. -/
def LuaError.text (s : String) : LuaError := .object (.str (bytes s))

/-- What surrounds the module. -/
structure Env where
  /-- `l_str2d`: the float that a string reads as. -/
  l_str2d : Bytes → Option F64
  /-- The text of a float. -/
  fmtFloat : F64 → Bytes
  bson_decimal128_from_string : Bytes → Option Decimal128
  bson_decimal128_to_string : Decimal128 → Bytes
  bson_init_from_json : Bytes → Except Bytes Doc
  /-- What `malloc` leaves in fresh memory. -/
  fresh : Nat → UInt8
  /-- A call of a value: the tables it makes, and its result or error.  Lua code that
  changes a table that exists already is left out. -/
  call : Heap Host → LVal → List LVal → List (Table Host) × Except LuaError LVal
  /-- A field access on a table that has a metatable. -/
  index : Heap Host → Ref → Bytes → Except LuaError LVal

/-- Surroundings without Lua code, in which no text reads as a float, as a
decimal128 or as a document.  Concrete runs use them. -/
def Env.bare : Env where
  l_str2d := fun _ => none
  fmtFloat := fun _ => []
  bson_decimal128_from_string := fun _ => none
  bson_decimal128_to_string := fun _ => []
  bson_init_from_json := fun _ => .error []
  fresh := fun _ => 0
  call := fun _ _ _ => ([], .error (.text "attempt to call a value"))
  index := fun h r name => .ok ((h.get r).get (.str name))

/-- The registry slots, named by the variables whose addresses key them. -/
inductive Slot where
  | NEW_BINARY | NEW_DATETIME | NEW_DECIMAL128 | NEW_JAVASCRIPT | NEW_REGEX | NEW_TIMESTAMP
  | GLOBAL_MAXKEY | GLOBAL_MINKEY | GLOBAL_NULL
  deriving DecidableEq, Repr

/-- The state of the module. -/
structure State where
  heap : Heap Host
  slots : Slot → LVal
  /-- The metatables of the registry, by type name. -/
  metatables : Bytes → Option Ref

namespace State

/-- `lua_newtable`. -/
def newtable (L : State) : State × Ref :=
  ({ L with heap := L.heap ++ [Table.empty] }, L.heap.length)

/-- Write one table. -/
def setTable (L : State) (r : Ref) (t : Table Host) : State :=
  { L with heap := L.heap.set r t }

/-- `lua_rawset`, and `lua_setfield` on a table without metatable. -/
def rawset (L : State) (r : Ref) (k : Key) (v : LVal) : State :=
  L.setTable r ((L.heap.get r).rawset k v)

/-- `lua_setmetatable`. -/
def setmetatable (L : State) (r : Ref) (m : Option Ref) : State :=
  L.setTable r ((L.heap.get r).setMetatable m)

/-- `lua_rawsetp` on the registry. -/
def rawsetp (L : State) (slot : Slot) (v : LVal) : State :=
  { L with slots := fun s => if s = slot then v else L.slots s }

@[simp] theorem newtable_snd (L : State) : L.newtable.2 = L.heap.length := rfl

@[simp] theorem heap_newtable (L : State) : L.newtable.1.heap = L.heap ++ [Table.empty] := rfl

@[simp] theorem slots_newtable (L : State) : L.newtable.1.slots = L.slots := rfl

@[simp] theorem slots_rawset (L : State) (r : Ref) (k : Key) (v : LVal) :
    (L.rawset r k v).slots = L.slots := rfl

@[simp] theorem slots_setmetatable (L : State) (r : Ref) (m : Option Ref) :
    (L.setmetatable r m).slots = L.slots := rfl

@[simp] theorem metatables_newtable (L : State) : L.newtable.1.metatables = L.metatables := rfl

@[simp] theorem metatables_rawset (L : State) (r : Ref) (k : Key) (v : LVal) :
    (L.rawset r k v).metatables = L.metatables := rfl

@[simp] theorem metatables_setmetatable (L : State) (r : Ref) (m : Option Ref) :
    (L.setmetatable r m).metatables = L.metatables := rfl

@[simp] theorem length_rawset (L : State) (r : Ref) (k : Key) (v : LVal) :
    (L.rawset r k v).heap.length = L.heap.length := by
  simp [rawset, setTable]

@[simp] theorem length_setmetatable (L : State) (r : Ref) (m : Option Ref) :
    (L.setmetatable r m).heap.length = L.heap.length := by
  simp [setmetatable, setTable]

/-- A raw assignment changes one table. -/
theorem get_rawset (L : State) {r : Ref} (hr : r < L.heap.length) (r' : Ref) (k : Key)
    (v : LVal) : (L.rawset r k v).heap.get r' =
      if r' = r then (L.heap.get r).rawset k v else L.heap.get r' := by
  simp only [rawset, setTable]
  split_ifs with heq
  · rw [heq, Heap.get_set_self hr]
  · rw [Heap.get_set_ne _ (Ne.symm heq)]

theorem get_setmetatable (L : State) {r : Ref} (hr : r < L.heap.length) (r' : Ref)
    (m : Option Ref) : (L.setmetatable r m).heap.get r' =
      if r' = r then (L.heap.get r).setMetatable m else L.heap.get r' := by
  simp only [setmetatable, setTable]
  split_ifs with heq
  · rw [heq, Heap.get_set_self hr]
  · rw [Heap.get_set_ne _ (Ne.symm heq)]

/-- A raw assignment to a table above a heap leaves that heap alone. -/
theorem extends_rawset {h : Heap Host} {L : State} (hext : Heap.Extends h L.heap) {r : Ref}
    (hr : h.length ≤ r) (k : Key) (v : LVal) : Heap.Extends h (L.rawset r k v).heap :=
  hext.set hr _

theorem extends_setmetatable {h : Heap Host} {L : State} (hext : Heap.Extends h L.heap) {r : Ref}
    (hr : h.length ≤ r) (m : Option Ref) : Heap.Extends h (L.setmetatable r m).heap :=
  hext.set hr _

theorem extends_newtable {h : Heap Host} {L : State} (hext : Heap.Extends h L.heap) :
    Heap.Extends h L.newtable.1.heap :=
  hext.trans (Heap.extends_append _ _)

end State

/-- A table of the heap without metatable. -/
def PlainTable (h : Heap Host) (r : Ref) : Prop :=
  r < h.length ∧ (h.get r).metatable = none

/-- A plain table has no metafields. -/
theorem PlainTable.getmetafield {h : Heap Host} {r : Ref} (hplain : PlainTable h r)
    (name : Bytes) : h.getmetafield (.table r) name = .nil :=
  Heap.getmetafield_of_metatable_none (v := .table r) hplain.2 name

/-! ## Type names -/

/-- `MAXSTACK`. -/
def MAXSTACK : Nat := 1000

/-- `LUA_MINSTACK`. -/
def LUA_MINSTACK : Nat := 20

/-- `LUAI_MAXSTACK`. -/
def LUAI_MAXSTACK : Nat := 1000000

/-- `EXTRA_STACK`. -/
def EXTRA_STACK : Nat := 5

/-- `lua_checkstack`, with the slots in use counted from the base of the
frame. -/
def checkstack (top n : Nat) : Bool := decide (top + EXTRA_STACK ≤ LUAI_MAXSTACK - n)

/-- There is room for a table at three times the nesting of the encoder. -/
theorem checkstack_of_le {top : Nat} (htop : top ≤ 3 * MAXSTACK) :
    checkstack (top + 1) LUA_MINSTACK = true := by
  unfold MAXSTACK at htop
  refine decide_eq_true ?_
  unfold EXTRA_STACK LUAI_MAXSTACK LUA_MINSTACK
  omega

def TYPE_BINARY := bytes "mongo.Binary"
def TYPE_BSON := bytes "mongo.BSON"
def TYPE_DATETIME := bytes "mongo.DateTime"
def TYPE_DECIMAL128 := bytes "mongo.Decimal128"
def TYPE_DOUBLE := bytes "mongo.Double"
def TYPE_INT32 := bytes "mongo.Int32"
def TYPE_INT64 := bytes "mongo.Int64"
def TYPE_JAVASCRIPT := bytes "mongo.Javascript"
def TYPE_MAXKEY := bytes "mongo.MaxKey"
def TYPE_MINKEY := bytes "mongo.MinKey"
def TYPE_NULL := bytes "mongo.Null"
def TYPE_OBJECTID := bytes "mongo.ObjectID"
def TYPE_REGEX := bytes "mongo.Regex"
def TYPE_TIMESTAMP := bytes "mongo.Timestamp"

/-- `luaL_typename`. -/
def luaTypename : LVal → Bytes
  | .nil => bytes "nil"
  | .bool _ => bytes "boolean"
  | .int _ | .flt _ => bytes "number"
  | .str _ => bytes "string"
  | .table _ => bytes "table"
  | .userdata _ _ => bytes "userdata"
  | .host (.cfunc _) | .host (.luafunc _) => bytes "function"
  | .host (.bson _) | .host (.objectID _) | .host (.light _) => bytes "userdata"
  | .host (.thread _) => bytes "thread"

/-- `typeName`: the `__name` of the value's metatable when that is a string,
else the Lua type. -/
def typeName (h : Heap Host) (v : LVal) : Bytes :=
  match v with
  | .host (.bson _) => TYPE_BSON
  | .host (.objectID _) => TYPE_OBJECTID
  | v =>
    match h.getmetafield v (bytes "__name") with
    | .str name => cString name
    | _ => luaTypename v

/-- `typeName` on a table key. -/
def keyTypeName : Key → Bytes
  | .int _ => bytes "number"
  | .str _ => bytes "string"
  | .other name _ => name

/-! ## Numbers and texts of values -/

/-- The decimal text of an integer. -/
def fmtInt (i : Int) : Bytes :=
  let digits := (Nat.toDigits 10 i.natAbs).map (fun c => c.toNat.toUInt8)
  if i < 0 then 45 :: digits else digits

/-- `lua_tolstring`: a number converts to its text. -/
def tolstring (E : Env) : LVal → Option Bytes
  | .str s => some s
  | .int i => some (fmtInt i.toInt)
  | .flt x => some (E.fmtFloat x)
  | _ => none

/-- `isInteger` of the source. -/
def isInteger (E : Env) (v : LVal) : Option Int64 := tointegerx E.l_str2d v

/-- `lua_tointeger`: zero when the value does not convert. -/
def tointeger (E : Env) (v : LVal) : Int64 := (tointegerx E.l_str2d v).getD 0

/-- `lua_tonumber`: zero when the value does not convert. -/
def tonumber (E : Env) (v : LVal) : F64 := (tonumberx E.l_str2d v).getD ⟨0⟩

end Vklib.Mongo
