import Vklib.Mongo.EncodeSpec

/-!
# The append method: `toBSONType`, `toBSONValue`, `m_append`

`b:append(key, value)` first copies the value into a `bson_value_t` and then
appends that to `b`.  A table is encoded into a document of its own, by the
same `appendTable` as in `mongo.bson`.  Strings are copied with `bson_strndup`,
which stops at the first NUL and fills up with NULs.

`m_append_spec` says what the method does: one append of the value of the tree
that the encoder sees, or of a part of it when it does not fit.
-/

namespace Vklib.Mongo

open Vklib.Lua Vklib.Bson

/-- `bson_value_t`. -/
inductive BsonValueT where
  | double (x : F64)
  | utf8 (str : Bytes)
  | document (data : Doc)
  | array (data : Doc)
  | binary (subtype : UInt32) (data : Bytes)
  | oid (id : Oid)
  | bool (b : Bool)
  | dateTime (ms : Int64)
  | null
  /-- A null pattern is what `bson_strdup` makes of a null pointer. -/
  | regex (pattern : Option Bytes) (options : Bytes)
  | code (source : Bytes)
  | codewscope (source : Bytes) (scope : Doc)
  | int32 (i : Int32)
  | timestamp (t i : UInt32)
  | int64 (i : Int64)
  | decimal128 (d : Decimal128)
  | maxkey
  | minkey

/-- The bytes that `bson_strndup` copies of a counted string, without the
closing NUL. -/
def bson_strndup (s : Bytes) : Bytes :=
  cString s ++ List.replicate (s.length - (cString s).length) 0

theorem length_bson_strndup (s : Bytes) : (bson_strndup s).length = s.length := by
  have hle := length_cString_le s
  simp only [bson_strndup, List.length_append, List.length_replicate]
  omega

/-- `bson_append_value`. -/
def bson_append_value (b : BsonT) (key : Bytes) : BsonValueT → Option (Bool × BsonT)
  | .double x => bson_append_double b key x
  | .utf8 str => bson_append_utf8 b key str
  | .document data => bson_append_document b key data
  | .array data => bson_append_array b key data
  | .binary subtype data => bson_append_binary b key subtype data
  | .oid id => bson_append_oid b key id
  | .bool x => bson_append_bool b key x
  | .dateTime ms => bson_append_date_time b key ms
  | .null => bson_append_null b key
  | .regex (some pattern) options => bson_append_regex b key pattern options
  -- `strlen` of a null pattern, behind the test of the key
  | .regex none _ => if (HANDLE_KEY_LENGTH key).isSome then none else some (false, b)
  | .code source => bson_append_code b key source
  | .codewscope source scope => bson_append_code_with_scope b key source scope
  | .int32 i => bson_append_int32 b key i
  | .timestamp t i => bson_append_timestamp b key t i
  | .int64 i => bson_append_int64 b key i
  | .decimal128 d => bson_append_decimal128 b key d
  | .maxkey => bson_append_maxkey b key
  | .minkey => bson_append_minkey b key

/-- `toBSONType`, on the table `t` of the argument `arg`. -/
def toBSONType (E : Env) (top : Nat) (type : UInt32) (arg : Nat) (t : Table Host) :
    Outcome LuaError BsonValueT :=
  let invalid : Outcome LuaError BsonValueT :=
    .error (.argument arg
      (bytes "invalid parameters for BSON type " ++ fmtInt (cInt type.toNat)))
  if checkstack top (LUA_MINSTACK + t.rawlen) then
    match type.toNat with
    | 0x10 => .ok (.int32 (tointeger E (param t 1)).toInt32)
    | 0x12 => .ok (.int64 (tointeger E (param t 1)))
    | 0x01 => .ok (.double (tonumber E (param t 1)))
    | 0x13 =>
      match (tolstring E (param t 1)).bind (fun s => E.bson_decimal128_from_string (cString s)) with
      | none => invalid
      | some d => .ok (.decimal128 d)
    | 0x05 =>
      match tolstring E (param t 1) with
      | none => invalid
      | some s =>
        .ok (.binary (tointeger E (param t 2)).toUInt64.toUInt32 (s.take (s.length % 2 ^ 32)))
    | 0x09 => .ok (.dateTime (tointeger E (param t 1)))
    | 0x0B =>
      .ok (.regex ((tolstring E (param t 1)).map cString)
        (cString ((tolstring E (param t 2)).getD [])))
    | 0x11 =>
      .ok (.timestamp (tointeger E (param t 1)).toUInt64.toUInt32
        (tointeger E (param t 2)).toUInt64.toUInt32)
    | 0x0D =>
      match tolstring E (param t 1) with
      | none => invalid
      | some source =>
        match param t 2 with
        | .host (.bson scope) => .ok (.codewscope (cString source) scope)
        | _ => .ok (.code (cString source))
    | 0x7F => .ok .maxkey
    | 0xFF => .ok .minkey
    | 0x0A => .ok .null
    | _ => invalid
  else .error (.text "stack overflow (too many parameters)")

/-- `toBSONValue` on the argument `arg` of a call with `top` slots in use. -/
def toBSONValue (E : Env) (top : Nat) (h : Heap Host) (arg : Nat) (v : LVal) :
    Outcome LuaError (Heap Host × BsonValueT) := do
  let (h, v) ← callToBSON E h v
  let number (i : Int64) : BsonValueT := if isInt32 i then .int32 i.toInt32 else .int64 i
  match v with
  | .nil => .ok (h, .null)
  | .bool x => .ok (h, .bool x)
  | .int i => .ok (h, number i)
  | .flt x =>
    match x.toInteger? with
    | some i => .ok (h, number i)
    | none => .ok (h, .double x)
  | .str str => .ok (h, .utf8 (bson_strndup str))
  | .table r =>
    match h.getmetafield (.table r) (bytes "__type") with
    | .nil => do
      let (h, b, len) ← encodeTable E (top + 1) h arg r BsonT.bson_init
      .ok (h, if len ≠ -1 then .array b.fields else .document b.fields)
    | type => do
      let x ← toBSONType E (top + 1) (tointeger E type).toUInt64.toUInt32 arg (h.get r)
      .ok (h, x)
  | .host (.bson doc) => .ok (h, if isArray doc then .array doc else .document doc)
  | .host (.objectID id) => .ok (h, .oid id)
  | v => .error (.argument arg (typeName h v ++ bytes " unexpected"))

/-- `m_append` on the document `b`, called with `top` arguments. -/
def m_append (E : Env) (top : Nat) (h : Heap Host) (b : BsonT) (key v : LVal) :
    Outcome LuaError (Heap Host × BsonT) :=
  match tolstring E key with
  | none =>
    .error (.argument 2 (bytes "string expected, got " ++ luaTypename key))
  | some key => do
    let (h, x) ← toBSONValue E top h 3 v
    (bson_append_value b key x).elim .undefined fun appended => .ok (h, appended.2)

/-! ## What the method appends -/

/-- The value that a leaf is appended as.  Only a string differs from
`leafValue`: its copy ends at the first NUL. -/
def argumentValue (E : Env) (top : Nat) (h : Heap Host) : LVal → Option Value
  | .str s => some (.utf8 (countedArg (bson_strndup s)))
  | v => leafValue E top h v

/-- What the method sees in its value argument. -/
inductive EncodesArgument (E : Env) (top : Nat) (h : Heap Host) (v : LVal) :
    Heap Host → Tree → Prop where
  | leaf {h' : Heap Host} {v' : LVal} {x : Value} (hcall : callToBSON E h v = .ok (h', v'))
      (hleaf : argumentValue E top h' v' = some x) : EncodesArgument E top h v h' (.leaf v' x)
  | table {h₁ h' : Heap Host} {r : Ref} {t : Tree} (hcall : callToBSON E h v = .ok (h₁, .table r))
      (htype : h₁.getmetafield (.table r) (bytes "__type") = .nil)
      (htable : EncodesTable E (top + 1) ∅ h₁ r h' t) : EncodesArgument E top h v h' t

theorem toBSONType_of_typedValue {E : Env} {top : Nat} {type : UInt32} (arg : Nat)
    {t : Table Host} {x : Value} (hstack : checkstack top (LUA_MINSTACK + t.rawlen) = true)
    (hx : typedValue E type t = some x) :
    ∃ y, toBSONType E top type arg t = .ok y ∧
      ∀ b key, bson_append_value b key y = bson_append b key x := by
  simp only [toBSONType, if_pos hstack]
  unfold typedValue at hx
  split at hx <;> rename_i htype <;> try simp only [htype]
  case h_4 =>
    obtain ⟨d, hd, rfl⟩ := Option.map_eq_some_iff.mp hx
    rw [hd]
    exact ⟨_, rfl, fun _ _ => rfl⟩
  case h_5 =>
    obtain ⟨str, hstr, rfl⟩ := Option.map_eq_some_iff.mp hx
    rw [hstr]
    refine ⟨_, rfl, fun b key => ?_⟩
    have htake : (str.take (str.length % 2 ^ 32)).take
        ((str.take (str.length % 2 ^ 32)).length % 2 ^ 32) = str.take (str.length % 2 ^ 32) := by
      rw [List.length_take, List.take_take]
      congr 1
      omega
    simp only [bson_append_value, bson_append_binary, htake]
    split <;> rfl
  case h_7 =>
    obtain ⟨pattern, hpattern, rfl⟩ := Option.map_eq_some_iff.mp hx
    rw [hpattern]
    refine ⟨_, rfl, fun b key => ?_⟩
    simp only [Option.map_some, bson_append_value, bson_append_regex, cutString_cString]
  case h_9 =>
    obtain ⟨source, hsource, rfl⟩ := Option.map_eq_some_iff.mp hx
    simp only [hsource]
    cases param t 2 with
    | host u => cases u <;> exact ⟨_, rfl, fun _ _ => rfl⟩
    | _ => exact ⟨_, rfl, fun _ _ => rfl⟩
  case h_13 => simp at hx
  all_goals
    rw [← Option.some.inj hx]
    exact ⟨_, rfl, fun _ _ => rfl⟩

/-- A leaf is copied into a `bson_value_t` whose append is that of its
value. -/
theorem toBSONValue_of_leaf {E : Env} {top : Nat} {h h' : Heap Host} (arg : Nat) {v v' : LVal}
    {x : Value} (hcall : callToBSON E h v = .ok (h', v'))
    (hleaf : argumentValue E top h' v' = some x) :
    ∃ y, toBSONValue E top h arg v = .ok (h', y) ∧
      ∀ b key, bson_append_value b key y = bson_append b key x := by
  have hnumber : ∀ (i : Int64) (b : BsonT) (key : Bytes),
      bson_append_value b key (if isInt32 i then .int32 i.toInt32 else .int64 i) =
        bson_append b key (integerValue i) := by
    intro i b key
    unfold integerValue
    split <;> rfl
  simp only [toBSONValue, hcall, Outcome.ok_bind]
  cases v' with
  | flt f =>
    simp only [argumentValue, leafValue] at hleaf
    split at hleaf <;> rename_i hint <;> rw [← Option.some.inj hleaf] <;> simp only [hint]
    · exact ⟨_, rfl, hnumber _⟩
    · exact ⟨_, rfl, fun _ _ => rfl⟩
  | int i =>
    rw [← Option.some.inj hleaf]
    exact ⟨_, rfl, hnumber i⟩
  | table r =>
    simp only [argumentValue, leafValue] at hleaf
    split at hleaf
    · simp at hleaf
    · split_ifs at hleaf with hstack
      obtain ⟨y, hy, happend⟩ := toBSONType_of_typedValue arg hstack hleaf
      simp only [hy]
      exact ⟨y, rfl, happend⟩
  | userdata id m => simp [argumentValue, leafValue] at hleaf
  | host u =>
    cases u with
    | bson doc =>
      rw [← Option.some.inj hleaf]
      refine ⟨_, rfl, fun b key => ?_⟩
      split <;> rfl
    | objectID id =>
      rw [← Option.some.inj hleaf]
      exact ⟨_, rfl, fun _ _ => rfl⟩
    | _ => simp [argumentValue, leafValue] at hleaf
  | _ =>
    rw [← Option.some.inj hleaf]
    exact ⟨_, rfl, fun _ _ => rfl⟩

/-- The keys of the value have no NUL and its tables fit into a new
document. -/
def FitsArgument : Tree → Prop
  | .leaf _ _ => True
  | t => Fits BsonT.bson_init t.children

/-- What `toBSONValue` makes of its argument: the value of the tree in full
when it fits into a new document, else a part of it or undefined behaviour. -/
theorem toBSONValue_spec {E : Env} {top : Nat} {h h' : Heap Host} {v : LVal} {t : Tree}
    (henc : EncodesArgument E top h v h' t) (arg : Nat) :
    (toBSONValue E top h arg v = .undefined ∧ ¬ FitsArgument t) ∨
      ∃ y x, toBSONValue E top h arg v = .ok (h', y) ∧ Partial t x ∧
        (FitsArgument t → x = t.value) ∧ (t.KeysNulFree → x = t.value → FitsArgument t) ∧
        ∀ b key, bson_append_value b key y = bson_append b key x := by
  cases henc with
  | @leaf _ v' x hcall hleaf =>
    obtain ⟨y, hy, happend⟩ := toBSONValue_of_leaf arg hcall hleaf
    exact Or.inr ⟨y, x, hy, .leaf, fun _ => by simp [Tree.value], fun _ _ => trivial, happend⟩
  | @table h₁ _ r _ hcall htype htable =>
    have hb : Writable BsonT.bson_init := ⟨by decide, by decide⟩
    obtain ⟨len, hlen⟩ := htable.exists_length
    simp only [toBSONValue, hcall, Outcome.ok_bind, htype]
    have hspec := encodeTable_spec htable hlen hb arg
    cases htable with
    | doc _ hlen' _ =>
      obtain rfl : len = -1 := by simpa using hlen.symm.trans hlen'
      rcases hspec with ⟨hundef, hfits⟩ | ⟨ds, hok, hpart, hsize, hfull⟩
      · exact Or.inl ⟨by simp [hundef], hfits⟩
      · refine Or.inr ⟨.document ds, .document ds, ?_, .doc hpart, ?_, ?_, fun _ _ => rfl⟩
        · simp only [hok, Outcome.ok_bind]
          simp [BsonT.bson_init]
        · intro hfits
          rw [Tree.value_doc, hfull hfits]
        · intro hkeys hx
          rw [Tree.value_doc, Value.document.injEq] at hx
          exact ⟨(isNode_doc _).keys.mp hkeys, hx ▸ hsize⟩
    | @array _ _ _ _ _ n _ _ hlen' _ =>
      obtain rfl : len = n := by simpa using hlen.symm.trans hlen'
      rcases hspec with ⟨hundef, hfits⟩ | ⟨ds, hok, hpart, hsize, hfull⟩
      · exact Or.inl ⟨by simp [hundef], hfits⟩
      · have hne : ((n : Int) ≠ -1) := by omega
        refine Or.inr ⟨.array ds, .array ds, ?_, .array hpart, ?_, ?_, fun _ _ => rfl⟩
        · simp only [hok, Outcome.ok_bind, if_pos hne]
          simp [BsonT.bson_init]
        · intro hfits
          rw [Tree.value_array, hfull hfits]
        · intro hkeys hx
          rw [Tree.value_array, Value.array.injEq] at hx
          exact ⟨(isNode_array _).keys.mp hkeys, hx ▸ hsize⟩

/-- What `m_append` does to its document: one append of the value, of a part
of it when it does not fit, or undefined behaviour. -/
theorem m_append_spec {E : Env} {top : Nat} {h h' : Heap Host} {v : LVal} {t : Tree}
    (henc : EncodesArgument E top h v h' t) (b : BsonT) (key : Bytes) :
    (m_append E top h b (.str key) v = .undefined ∧ ¬ FitsArgument t) ∨
      ∃ x, m_append E top h b (.str key) v =
          ((bson_append b key x).elim .undefined fun appended => .ok (h', appended.2)) ∧
        Partial t x ∧ (FitsArgument t → x = t.value) ∧
          (t.KeysNulFree → x = t.value → FitsArgument t) := by
  simp only [m_append, tolstring]
  rcases toBSONValue_spec henc 3 with ⟨hundef, hfits⟩ | ⟨y, x, hok, hpart, hfull, hfits, happend⟩
  · exact Or.inl ⟨by simp [hundef], hfits⟩
  · exact Or.inr ⟨x, by simp [hok, happend], hpart, hfull, hfits⟩

end Vklib.Mongo
