import Vklib.Mongo.Decode
import Mathlib.Data.List.Nodup

/-!
# One field: `pushBSONValue`, `pushBSONField`, `m_find`

`b:find(key)` looks for one field and decodes it without a handler.  It is a
second decoder beside `unpackValue`, and it stops at documents and arrays: these
come back as BSON objects, without their type tag.
-/

namespace Vklib.Mongo

open Vklib.Lua Vklib.Bson

/-- `bson_iter_find_w_len` with the length of the key, which arrives as an
`int`.  With a negative length the whole key is compared, and no key of a
document is so long. -/
def bson_iter_find_w_len (fields : Doc) (key : Bytes) : Option Value :=
  if cInt key.length < 0 then none
  else (fields.find? fun f => cString f.1 = key.take (cInt key.length).toNat).map Prod.snd

/-- `bson_iter_find_descendant` on the parts of a key between its dots. -/
def findDescendant : Doc → List Bytes → Option Value
  | _, [] => none
  | fields, [key] => bson_iter_find_w_len fields key
  | fields, key :: rest =>
    match bson_iter_find_w_len fields key with
    | some (.document fs) => findDescendant fs rest
    | some (.array fs) => findDescendant fs rest
    | _ => none

/-- `bson_iter_find_descendant`. -/
def bson_iter_find_descendant (fields : Doc) (dotkey : Bytes) : Option Value :=
  findDescendant fields (dotkey.splitOn 46)

/-- `pushBSONValue`, on the value that `bson_iter_value` copies from a field. -/
def pushBSONValue (E : Env) (L : State) : Value → Outcome LuaError (State × LVal)
  | .bool b => .ok (L, .bool b)
  | .int32 i => .ok (L, .int i.toInt64)
  | .int64 i => .ok (L, .int i)
  | .double x => .ok (L, .flt x)
  | .utf8 s => .ok (L, .str s)
  | .document fs | .array fs => .ok (L, .host (.bson fs))
  | .oid id => .ok (L, .host (.objectID id))
  | .decimal128 d =>
    lua_call E L (L.slots .NEW_DECIMAL128) [.str (E.bson_decimal128_to_string d)]
  | .binary subtype payload =>
    lua_call E L (L.slots .NEW_BINARY) [.str (bson_iter_binary subtype payload),
      .int subtype.toNat.toInt64]
  | .dateTime ms => lua_call E L (L.slots .NEW_DATETIME) [.int ms]
  | .code source => lua_call E L (L.slots .NEW_JAVASCRIPT) [.str source]
  | .codewscope source scope =>
    lua_call E L (L.slots .NEW_JAVASCRIPT) [.str source, .host (.bson scope)]
  | .regex pattern options =>
    lua_call E L (L.slots .NEW_REGEX) [.str pattern, .str options]
  | .timestamp t i =>
    lua_call E L (L.slots .NEW_TIMESTAMP) [.int t.toNat.toInt64, .int i.toNat.toInt64]
  | .maxkey => .ok (L, L.slots .GLOBAL_MAXKEY)
  | .minkey => .ok (L, L.slots .GLOBAL_MINKEY)
  | .null => .ok (L, L.slots .GLOBAL_NULL)
  | .undefined | .dbpointer _ _ | .symbol _ => .ok (L, .nil)

/-- A value is a document or an array: `BSON_ITER_HOLDS_DOCUMENT` or
`BSON_ITER_HOLDS_ARRAY`. -/
def holdsDocument : Value → Bool
  | .document _ | .array _ => true
  | _ => false

/-- `pushBSONField`.  Without `any`, a scalar counts as not found. -/
def pushBSONField (E : Env) (L : State) (doc : Doc) (key : Bytes) (any : Bool) :
    Outcome LuaError (State × LVal) :=
  match bson_iter_find_descendant doc key with
  | none => .ok (L, .nil)
  | some v => if any || holdsDocument v then pushBSONValue E L v else .ok (L, .nil)

/-- `m_find`. -/
def m_find (E : Env) (L : State) (doc : Doc) (key : LVal) : Outcome LuaError (State × LVal) :=
  match tolstring E key with
  | none => .error (.argument 2 (bytes "string expected, got " ++ luaTypename key))
  | some key => pushBSONField E L doc (cString key) true

example : bson_iter_find_descendant
    [(bytes "a", .document [(bytes "b", .bool true)])] (bytes "a.b") = some (.bool true) := rfl

/-! ## A key of the document -/

/-- A key without dots is one part. -/
theorem bson_iter_find_descendant_of_dotless {doc : Doc} {key : Bytes} (hdot : 46 ∉ key) :
    bson_iter_find_descendant doc key = bson_iter_find_w_len doc key := by
  rw [bson_iter_find_descendant, List.splitOn_eq_singleton hdot, findDescendant]

/-- The keys of a document are C strings, each of another field. -/
structure KeysValid (doc : Doc) : Prop where
  nodup : (doc.map Prod.fst).Nodup
  nulFree : ∀ f ∈ doc, NulFree f.1
  size : docSize doc ≤ BSON_MAX_SIZE

theorem KeysValid.key_length {doc : Doc} (hvalid : KeysValid doc) {f : Bytes × Value}
    (hmem : f ∈ doc) : f.1.length < 2 ^ 31 := by
  have hsize := hvalid.size
  obtain ⟨before, after, rfl⟩ := List.append_of_mem hmem
  unfold docSize BSON_MAX_SIZE at hsize
  rw [fieldsSize_append, fieldsSize_cons, fieldSize] at hsize
  omega

/-- A field is found by its key. -/
theorem KeysValid.find {doc : Doc} (hvalid : KeysValid doc) {key : Bytes} {v : Value}
    (hmem : (key, v) ∈ doc) : bson_iter_find_w_len doc key = some v := by
  have hc : cInt key.length = key.length := cInt_of_lt (hvalid.key_length hmem)
  have hnn : ¬ cInt key.length < 0 := by omega
  rw [bson_iter_find_w_len, if_neg hnn, hc, Int.toNat_natCast, List.take_length]
  cases hf : doc.find? fun f => cString f.1 = key with
  | none =>
    have hself := List.find?_eq_none.mp hf _ hmem
    simp [cString_eq_self (hvalid.nulFree _ hmem)] at hself
  | some f =>
    have hmem' := List.mem_of_find?_eq_some hf
    have hkey : cString f.1 = key := by simpa using List.find?_some hf
    rw [cString_eq_self (hvalid.nulFree f hmem')] at hkey
    rw [List.inj_on_of_nodup_map hvalid.nodup hmem' hmem hkey]
    rfl

/-- `b:find(key)` pushes the value of that field. -/
theorem KeysValid.m_find {doc : Doc} (hvalid : KeysValid doc) {key : Bytes} {v : Value}
    (hmem : (key, v) ∈ doc) (hdot : 46 ∉ key) (E : Env) (L : State) :
    m_find E L doc (.str key) = pushBSONValue E L v := by
  simp only [Mongo.m_find, tolstring, cString_eq_self (hvalid.nulFree _ hmem), pushBSONField,
    bson_iter_find_descendant_of_dotless hdot, hvalid.find hmem, Bool.true_or, if_true]

end Vklib.Mongo
