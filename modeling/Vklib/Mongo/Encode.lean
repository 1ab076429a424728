import Vklib.Mongo.Common
import Vklib.Mongo.Load
import Mathlib.Data.Finset.Basic

/-!
# The encoder: `appendValue`, `appendTable`, `castBSON`

The functions of `bson.c` that turn Lua values into BSON.  `appendValue`
writes one field, `appendTable` the fields of a table, and each calls the
other.  A failure pushes a text, and every level that it passes puts a text of
its own in front, so `AppendError.failed` is the list of these texts from the
outermost level to the innermost.

The state of a run is the heap and `ridx`, the table that marks the tables
being encoded.  The document being written is an `Option`: none is a child
whose begin call failed, which C leaves uninitialised.  No return value of an
append is looked at in the source, and none is here.

The recursion takes fuel.  `appendTable_ne_outOfFuel` in `EncodeSpec` shows
that `MAXSTACK` levels are enough for every input, because each level holds
at least one more slot of the Lua stack.
-/

namespace Vklib.Mongo

open Vklib.Lua Vklib.Bson

/-- Why an encoder stops: the texts that `error` left on the stack, or a Lua
error that was raised past it. -/
inductive AppendError where
  | failed (segments : List Bytes)
  | raised (e : LuaError)

/-- `error` in the source, at the level where the failure starts. -/
def AppendError.text (s : Bytes) : AppendError := .failed [s]

/-- `error` in the source, at a level that the failure passes. -/
def AppendError.within (segment : Bytes) : AppendError → AppendError
  | .failed segments => .failed (segment :: segments)
  | .raised e => .raised e

/-- The state of an encoder. -/
structure Enc where
  heap : Heap Host
  /-- The tables flagged in the table at `ridx`. -/
  ridx : Finset Ref

/-- The document being written, none when it is not initialised. -/
abbrev Target := Option BsonT

/-- Append through libbson and drop the result.  An append to a document that
is not initialised is undefined behaviour. -/
def appendTo (b : Target) (f : BsonT → Option (Bool × BsonT)) : Outcome AppendError Target :=
  match b with
  | none => .undefined
  | some b => (f b).elim .undefined fun appended => .ok (some appended.2)

theorem appendTo_of_eq_some {b b' : BsonT} {f : BsonT → Option (Bool × BsonT)} {ok : Bool}
    (h : f b = some (ok, b')) : appendTo (some b) f = .ok (some b') := by
  rw [appendTo, h]
  rfl

/-! ## Typed values -/

/-- The parameter that `unpackParams` puts at slot `top + i`. -/
def param (t : Table Host) (i : Nat) : LVal :=
  if i ≤ t.rawlen then t.get (.int i) else .nil

/-- `appendBSONType`, on the table `t` of a value whose metatable has the
`__type` field `type`.  `top` is the number of slots in use. -/
def appendBSONType (E : Env) (top : Nat) (type : UInt32) (t : Table Host) (b : Target)
    (key : Bytes) : Outcome AppendError Target :=
  let invalid : Outcome AppendError Target :=
    .error (.text (bytes "invalid parameters for BSON type " ++ fmtInt (cInt type.toNat)))
  if checkstack top (LUA_MINSTACK + t.rawlen) then
    match type.toNat with
    | 0x10 => appendTo b (bson_append_int32 · key (tointeger E (param t 1)).toInt32)
    | 0x12 => appendTo b (bson_append_int64 · key (tointeger E (param t 1)))
    | 0x01 => appendTo b (bson_append_double · key (tonumber E (param t 1)))
    | 0x13 =>
      match (tolstring E (param t 1)).bind (fun s => E.bson_decimal128_from_string (cString s)) with
      | none => invalid
      | some d => appendTo b (bson_append_decimal128 · key d)
    | 0x05 =>
      match tolstring E (param t 1) with
      | none => invalid
      | some s =>
        appendTo b (bson_append_binary · key (tointeger E (param t 2)).toUInt64.toUInt32 s)
    | 0x09 => appendTo b (bson_append_date_time · key (tointeger E (param t 1)))
    | 0x0B =>
      match tolstring E (param t 1) with
      -- `strlen` of a null pattern, behind the test of the key
      | none =>
        if (HANDLE_KEY_LENGTH key).isSome then .undefined
        else appendTo b (fun b => some (false, b))
      | some s =>
        appendTo b (bson_append_regex · key (cString s)
          (cString ((tolstring E (param t 2)).getD [])))
    | 0x11 =>
      appendTo b (bson_append_timestamp · key (tointeger E (param t 1)).toUInt64.toUInt32
        (tointeger E (param t 2)).toUInt64.toUInt32)
    | 0x0D =>
      match tolstring E (param t 1) with
      | none => invalid
      | some source =>
        match param t 2 with
        | .host (.bson scope) =>
          appendTo b (bson_append_code_with_scope · key (cString source) scope)
        | _ => appendTo b (bson_append_code · key (cString source))
    | 0x7F => appendTo b (bson_append_maxkey · key)
    | 0xFF => appendTo b (bson_append_minkey · key)
    | 0x0A => appendTo b (bson_append_null · key)
    | _ => invalid
  else .error (.raised (.text "stack overflow (too many parameters)"))

/-! ## Arrays -/

/-- `lua_getfield` of `__array`.  Only a table with a metatable can answer with
anything but its own field. -/
def getArrayField (E : Env) (h : Heap Host) (r : Ref) : Except LuaError LVal :=
  match (h.get r).metatable with
  | none => .ok ((h.get r).get (.str (bytes "__array")))
  | some _ => E.index h r (bytes "__array")

/-- The length that a field `__array` declares, `-1` for a document. -/
def declaredLength (E : Env) (flag : LVal) (rawlen : Nat) : Int :=
  if flag.truthy then
    match isInteger E flag with
    | some i => max i.toInt 0
    | none => rawlen
  else -1

/-- `getArrayLength`. -/
def getArrayLength (E : Env) (h : Heap Host) (r : Ref) : Except LuaError Int :=
  match getArrayField E h r with
  | .error e => .error e
  | .ok flag => .ok (declaredLength E flag (h.get r).rawlen)

/-! ## Values and tables -/

/-- The text that `error` takes from the error object of a metamethod. -/
def errorText (E : Env) : LuaError → Bytes
  | .object v =>
    match tolstring E v with
    | some s => cString s
    | none => bytes "(error object is not a string)"
  | .argument arg message =>
    bytes "bad argument #" ++ fmtInt arg ++ bytes " (" ++ message ++ bytes ")"

/-- The first step of `appendValue`: a `__toBSON` metamethod transforms the
value. -/
def transform (E : Env) (h : Heap Host) (v : LVal) : Outcome AppendError (Heap Host × LVal) :=
  match h.getmetafield v (bytes "__toBSON") with
  | .nil => .ok (h, v)
  | f =>
    match E.call h f [v] with
    | (new, .ok v') => .ok (h ++ new, v')
    | (_, .error e) => .error (.text (errorText E e))

/-- The type of `appendTable`: slots in use, state, table, document, length. -/
abbrev AppendTable :=
  Nat → Enc → Ref → Target → Int → Outcome AppendError (Enc × Target)

/-- The table case of `appendValue`, for a table without `__type`. -/
def appendNested (E : Env) (table : AppendTable) (top : Nat) (s : Enc) (r : Ref) (b : Target)
    (key : Bytes) : Outcome AppendError (Enc × Target) :=
  match getArrayLength E s.heap r with
  | .error e => .error (.raised e)
  | .ok len =>
    match b with
    | none => .undefined
    | some parent =>
      match bson_append_begin parent key with
      | none => .undefined
      | some none => do
        -- the child is not initialised, and closing it fails an assertion
        let _ ← table top s r none len
        .undefined
      | some (some (k, child)) => do
        let (s, child) ← table top s r (some child) len
        match child with
        | none => .undefined
        | some child => .ok (s, some (bson_append_end parent (len != -1) k child))

/-- The `switch` of `appendValue`, after the transformation. -/
def appendSwitch (E : Env) (table : AppendTable) (top : Nat) (s : Enc) (v : LVal) (b : Target)
    (key : Bytes) : Outcome AppendError (Enc × Target) :=
  let leaf (x : Outcome AppendError Target) : Outcome AppendError (Enc × Target) := do
    let b ← x
    .ok (s, b)
  match v with
  | .nil => leaf (appendTo b (bson_append_null · key))
  | .bool x => leaf (appendTo b (bson_append_bool · key x))
  | .int i =>
    if isInt32 i then leaf (appendTo b (bson_append_int32 · key i.toInt32))
    else leaf (appendTo b (bson_append_int64 · key i))
  | .flt x =>
    match x.toInteger? with
    | some i =>
      if isInt32 i then leaf (appendTo b (bson_append_int32 · key i.toInt32))
      else leaf (appendTo b (bson_append_int64 · key i))
    | none => leaf (appendTo b (bson_append_double · key x))
  | .str str => leaf (appendTo b (bson_append_utf8 · key str))
  | .table r =>
    match s.heap.getmetafield (.table r) (bytes "__type") with
    | .nil => appendNested E table top s r b key
    | type =>
      leaf (appendBSONType E (top + 1) (tointeger E type).toUInt64.toUInt32 (s.heap.get r) b key)
  | .host (.bson doc) =>
    if isArray doc then leaf (appendTo b (bson_append_array · key doc))
    else leaf (appendTo b (bson_append_document · key doc))
  | .host (.objectID id) => leaf (appendTo b (bson_append_oid · key id))
  | v => .error (.text (typeName s.heap v ++ bytes " unexpected"))

/-- `appendValue`.  The value is in the topmost of the `top` slots. -/
def appendValue (E : Env) (table : AppendTable) (top : Nat) (s : Enc) (v : LVal) (b : Target)
    (key : Bytes) : Outcome AppendError (Enc × Target) := do
  let (h, v) ← transform E s.heap v
  appendSwitch E table top { s with heap := h } v b key

/-- The loop of `appendTable` over the indices `i + 1` to `i + n`. -/
def arrayLoop (value : Enc → LVal → Target → Bytes → Outcome AppendError (Enc × Target))
    (r : Ref) : Nat → Nat → Enc → Target → Outcome AppendError (Enc × Target)
  | 0, _, s, b => .ok (s, b)
  | n + 1, i, s, b => do
    let (s, b) ←
      (value s ((s.heap.get r).get (.int (i + 1))) b (uint32_to_string i)).mapError
        (AppendError.within (bytes "[" ++ fmtInt (cInt (i + 1)) ++ bytes "] => "))
    arrayLoop value r n (i + 1) s b

/-- The loop of `appendTable` over the entries of a document table. -/
def documentLoop (value : Enc → LVal → Target → Bytes → Outcome AppendError (Enc × Target)) :
    List (Key × LVal) → Enc → Target → Outcome AppendError (Enc × Target)
  | [], s, b => .ok (s, b)
  | (.str key, v) :: rest, s, b => do
    let (s, b) ←
      (value s v b key).mapError
        (AppendError.within (bytes "[\"" ++ cString key ++ bytes "\"] => "))
    documentLoop value rest s b
  | (k, _) :: _, _, _ =>
    .error (.text (bytes "string index expected, got " ++ keyTypeName k))

/-- The two loops of `appendTable`.  While a value is encoded, a document holds
its key and the value and an array the value only. -/
def tableLoop
    (value : Nat → Enc → LVal → Target → Bytes → Outcome AppendError (Enc × Target))
    (top : Nat) (s : Enc) (r : Ref) (b : Target) (len : Int) :
    Outcome AppendError (Enc × Target) :=
  if len ≠ -1 then arrayLoop (value (top + 1)) r len.toNat 0 s b
  else documentLoop (value (top + 2)) (s.heap.get r).entries s b

/-- `appendTable`, with `fuel` levels left. -/
def appendTable (E : Env) : Nat → AppendTable
  | 0, _, _, _, _, _ => .outOfFuel
  | fuel + 1, top, s, r, b, len =>
    if MAXSTACK ≤ top then .error (.text (bytes "recursion detected"))
    else if (s.heap.get r).metatable.isSome then
      .error (.text (bytes "table with metatable unexpected"))
    else if r ∈ s.ridx then .error (.text (bytes "circular reference detected"))
    else if checkstack top LUA_MINSTACK then do
      let (s, b) ←
        tableLoop (appendValue E (appendTable E fuel)) top { s with ridx := insert r s.ridx } r b len
      .ok ({ s with ridx := s.ridx.erase r }, b)
    else .error (.raised (.text "stack overflow (too many nested values)"))

/-- `appendTable` as the entry points call it: enough fuel for every level. -/
def appendTableFull (E : Env) : AppendTable := appendTable E (MAXSTACK + 1)

/-! ## Entry points -/

/-- The error that an entry point raises for a failed encoder: the texts, in
order, as one argument error. -/
def raiseAppendError (arg : Nat) : AppendError → LuaError
  | .failed segments => .argument arg segments.flatten
  | .raised e => e

/-- `initBSON`. -/
def initBSON (E : Env) (str : Bytes) : Outcome Bytes Doc :=
  if isBSON str then initStored E.fresh str
  else
    match E.bson_init_from_json str with
    | .ok doc => .ok doc
    | .error message => .error message

theorem initBSON_ne_outOfFuel (E : Env) (str : Bytes) : initBSON E str ≠ .outOfFuel := by
  rw [initBSON]
  split_ifs with hstr
  · exact initStored_ne_outOfFuel hstr
  · cases E.bson_init_from_json str <;> simp

/-- The table case of `castBSON` and `toBSONValue`: encode a table into a new
document.  `top` counts the slots in use, the table that marks the others
included. -/
def encodeTable (E : Env) (top : Nat) (h : Heap Host) (arg : Nat) (r : Ref) (b : BsonT) :
    Outcome LuaError (Heap Host × BsonT × Int) :=
  match getArrayLength E h r with
  | .error e => .error e
  | .ok len =>
    match (appendTableFull E top { heap := h, ridx := ∅ } r (some b) len).mapError
        (raiseAppendError arg) with
    | .ok (s, some b) => .ok (s.heap, b, len)
    | .ok (_, none) => .undefined
    | .error e => .error e
    | .undefined => .undefined
    | .outOfFuel => .outOfFuel

/-- The value that `luaL_callmeta` leaves at the index of an argument. -/
def callToBSON (E : Env) (h : Heap Host) (v : LVal) : Outcome LuaError (Heap Host × LVal) :=
  match h.getmetafield v (bytes "__toBSON") with
  | .nil => .ok (h, v)
  | f =>
    match E.call h f [v] with
    | (new, .ok v') => .ok (h ++ new, v')
    | (_, .error e) => .error e

/-- `castBSON` on the argument `arg` of a call with `top` slots in use.  The
limit of the new document is that of its buffer. -/
def castBSON (E : Env) (limit top : Nat) (h : Heap Host) (arg : Nat) (v : LVal) :
    Outcome LuaError (Heap Host × Doc) :=
  match tolstring E v with
  | some str => do
    let doc ← (initBSON E str).mapError fun message => .object (.str message)
    .ok (h, doc)
  | none => do
    let (h, v) ← callToBSON E h v
    match v with
    | .host (.bson doc) => .ok (h, doc)
    | .table r => do
      -- a userdata and the table at `ridx` are pushed first
      let (h, b, _) ← encodeTable E (top + 2) h arg r
        { limit := limit, outer := 0, fields := [] }
      .ok (h, b.fields)
    | v =>
      .error (.argument arg
        (bytes "string, table or " ++ TYPE_BSON ++ bytes " expected, got " ++ typeName h v))

/-- `mongo.bson`, called with one argument. -/
def newBSON (E : Env) (h : Heap Host) (v : LVal) : Outcome LuaError (Heap Host × Doc) :=
  castBSON E BSON_GROW_LIMIT 1 h 1 v

end Vklib.Mongo
