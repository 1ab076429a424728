import Vklib.Mongo.BsonType

/-!
# The decoder: `unpackValue`, `unpackTable`, `pushBSON`

A document becomes a table with its keys, an array a table with the indices
from `1` up and its length under `__array`.  The root has no type tag, and it
is taken for an array when its first key is `"0"`.  The types without Lua
counterpart are made by the constructors in the registry slots.

A table exists before its fields are decoded, so the decoder threads the state
of the module.  It returns the table at which the root of the document is, or
what the handler makes of it.
-/

namespace Vklib.Mongo

open Vklib.Lua Vklib.Bson

/-- `bson_iter_binary`: the payload without the second length word of the
deprecated subtype. -/
def bson_iter_binary (subtype : UInt8) (payload : Bytes) : Bytes :=
  if subtype = 2 then payload.drop 4 else payload

/-- The frame of `unpackTable` around its loop, with `top` slots in use and the
handler `handler`, which is nil when there is none.  `loop` fills the table and
returns the number of fields. -/
def unpackTable (E : Env) (handler : LVal) (top : Nat) (L : State) (array : Bool)
    (loop : State → Ref → Outcome LuaError (State × Int)) : Outcome LuaError (State × LVal) :=
  let (L, r) := L.newtable
  if checkstack (top + 1) LUA_MINSTACK then do
    let (L, len) ← loop L r
    let L := if array then L.rawset r (.str (bytes "__array")) (.int len.toInt64) else L
    if handler.isNil then .ok (L, .table r)
    else lua_call E L handler [.table r]
  else .error (.text "stack overflow (too many nested values)")

mutual
/-- `unpackValue`, with `top` slots in use. -/
def unpackValue (E : Env) (handler : LVal) (top : Nat) (L : State) :
    Value → Outcome LuaError (State × LVal)
  | .bool b => .ok (L, .bool b)
  | .int32 i => .ok (L, .int i.toInt64)
  | .int64 i => .ok (L, .int i)
  | .double x => .ok (L, .flt x)
  | .utf8 s => .ok (L, .str s)
  | .document fs =>
    unpackTable E handler top L false (fun L r => unpackLoop E handler top r false 0 L fs)
  | .array fs =>
    unpackTable E handler top L true (fun L r => unpackLoop E handler top r true 0 L fs)
  | .oid id => .ok (L, .host (.objectID id))
  | .decimal128 d =>
    lua_call E L (L.slots .NEW_DECIMAL128) [.str (E.bson_decimal128_to_string d)]
  | .binary subtype payload =>
    lua_call E L (L.slots .NEW_BINARY) [.str (bson_iter_binary subtype payload),
      .int subtype.toNat.toInt64]
  | .dateTime ms => lua_call E L (L.slots .NEW_DATETIME) [.int ms]
  | .code source => lua_call E L (L.slots .NEW_JAVASCRIPT) [.str source]
  | .codewscope source scope =>
    lua_call E L (L.slots .NEW_JAVASCRIPT) [.str source, .host (.bson scope)]
  | .regex pattern options =>
    lua_call E L (L.slots .NEW_REGEX) [.str pattern, .str options]
  | .timestamp t i =>
    lua_call E L (L.slots .NEW_TIMESTAMP) [.int t.toNat.toInt64, .int i.toNat.toInt64]
  | .maxkey => .ok (L, L.slots .GLOBAL_MAXKEY)
  | .minkey => .ok (L, L.slots .GLOBAL_MINKEY)
  | .null => .ok (L, L.slots .GLOBAL_NULL)
  | .undefined | .dbpointer _ _ | .symbol _ => .ok (L, .nil)

/-- The loop of `unpackTable` over the fields, into the table `r`, after `len`
fields.  The table and the key are on the stack while a value is decoded. -/
def unpackLoop (E : Env) (handler : LVal) (top : Nat) (r : Ref) (array : Bool) (len : Int)
    (L : State) : List (Bytes × Value) → Outcome LuaError (State × Int)
  | [] => .ok (L, len)
  | (key, v) :: rest => do
    let (L, x) ← unpackValue E handler (top + 2) L v
    unpackLoop E handler top r array (len + 1)
      (L.rawset r (if array then .int (len + 1) else .str key) x) rest
end

/-- `pushBSON` with a handler index, called with `top` slots in use. -/
def pushBSON (E : Env) (handler : LVal) (top : Nat) (L : State) (doc : Doc) :
    Outcome LuaError (State × LVal) :=
  unpackTable E handler (top + 1) L (isArray doc)
    (fun L r => unpackLoop E handler (top + 1) r (isArray doc) 0 L doc)

/-- `b:value(handler)`. -/
def m_value (E : Env) (L : State) (doc : Doc) (handler : LVal) : Outcome LuaError (State × LVal) :=
  pushBSON E handler 2 L doc

end Vklib.Mongo
