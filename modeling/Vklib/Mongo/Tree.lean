import Vklib.Mongo.Encode

/-!
# Trees of Lua values

The encoder walks a graph of tables from a root, and where that walk ends it
has seen a tree.  `Tree` is that tree in its own terms: a leaf, a document with
named fields, or an array.  A leaf keeps the Lua value together with the BSON
value that stands for it.

`Tree.value` is the BSON value of a tree.  It says what the encoder is for,
without stack, marks, sizes or failures, and `EncodeSpec` compares the encoder
with it.

`Unfolds E h v t` says that `t` is what an encoder sees at the value `v` of the
heap `h` when no metamethod is involved.  A table that several parents share is
unfolded at each of them.  An unfolding is unique (`Unfolds.unique`), so a
table that occurs below itself has none.
-/

namespace Vklib.Mongo

open Vklib.Lua Vklib.Bson

/-- What the encoder sees at a value. -/
inductive Tree where
  | leaf (v : LVal) (x : Value)
  | doc (fields : List (Bytes × Tree))
  | array (elems : List Tree)

/-! ## The BSON value of a leaf -/

/-- The value of a typed table, none when its parameters are invalid. -/
def typedValue (E : Env) (type : UInt32) (t : Table Host) : Option Value :=
  match type.toNat with
  | 0x10 => some (.int32 (tointeger E (param t 1)).toInt32)
  | 0x12 => some (.int64 (tointeger E (param t 1)))
  | 0x01 => some (.double (tonumber E (param t 1)))
  | 0x13 =>
    ((tolstring E (param t 1)).bind
      (fun s => E.bson_decimal128_from_string (cString s))).map .decimal128
  | 0x05 =>
    (tolstring E (param t 1)).map (fun s =>
      let subtype := (tointeger E (param t 2)).toUInt64.toUInt32
      let data := s.take (s.length % 2 ^ 32)
      .binary subtype.toUInt8 (if subtype = 2 then le32 data.length.toUInt32 ++ data else data))
  | 0x09 => some (.dateTime (tointeger E (param t 1)))
  | 0x0B =>
    (tolstring E (param t 1)).map (fun s =>
      .regex (cutString s) (sortedOptions (cString ((tolstring E (param t 2)).getD []))))
  | 0x11 =>
    some (.timestamp (tointeger E (param t 1)).toUInt64.toUInt32
      (tointeger E (param t 2)).toUInt64.toUInt32)
  | 0x0D =>
    (tolstring E (param t 1)).map (fun source =>
      match param t 2 with
      | .host (.bson scope) => .codewscope (cString source) scope
      | _ => .code (cString source))
  | 0x7F => some .maxkey
  | 0xFF => some .minkey
  | 0x0A => some .null
  | _ => none

/-- The BSON integer of a Lua integer. -/
def integerValue (i : Int64) : Value :=
  if isInt32 i then .int32 i.toInt32 else .int64 i

/-- The value that the encoder writes for a value it does not descend into,
none when it refuses it.  The value is in the topmost of the `top` slots. -/
def leafValue (E : Env) (top : Nat) (h : Heap Host) : LVal → Option Value
  | .nil => some .null
  | .bool b => some (.bool b)
  | .int i => some (integerValue i)
  | .flt x =>
    match x.toInteger? with
    | some i => some (integerValue i)
    | none => some (.double x)
  | .str s => some (.utf8 (countedArg s))
  | .table r =>
    match h.getmetafield (.table r) (bytes "__type") with
    | .nil => none
    | type =>
      if checkstack (top + 1) (LUA_MINSTACK + (h.get r).rawlen) then
        typedValue E (tointeger E type).toUInt64.toUInt32 (h.get r)
      else none
  | .host (.bson doc) => some (if isArray doc then .array doc else .document doc)
  | .host (.objectID id) => some (.oid id)
  | _ => none

/-! ## Trees -/

namespace Tree

/-- Elements as fields, numbered from `i`. -/
def indexed : Nat → List Tree → List (Bytes × Tree)
  | _, [] => []
  | i, t :: rest => (uint32_to_string i, t) :: indexed (i + 1) rest

/-- The fields that the encoder writes for a node, under the keys that it
passes. -/
def children : Tree → List (Bytes × Tree)
  | .leaf _ _ => []
  | .doc fs => fs
  | .array ts => indexed 0 ts

mutual
/-- The number of nodes. -/
def size : Tree → Nat
  | .leaf _ _ => 1
  | .doc fs => 1 + fieldsSize fs
  | .array ts => 1 + elemsSize ts

def fieldsSize : List (Bytes × Tree) → Nat
  | [] => 0
  | (_, t) :: rest => t.size + fieldsSize rest

def elemsSize : List Tree → Nat
  | [] => 0
  | t :: rest => t.size + elemsSize rest
end

mutual
/-- The BSON value of a tree. -/
def value : Tree → Value
  | .leaf _ x => x
  | .doc fs => .document (fieldValues fs)
  | .array ts => .array (elemValues 0 ts)

/-- The fields of a document. -/
def fieldValues : List (Bytes × Tree) → Doc
  | [] => []
  | (key, t) :: rest => (key, t.value) :: fieldValues rest

/-- The fields of an array, numbered from `i`. -/
def elemValues (i : Nat) : List Tree → Doc
  | [] => []
  | t :: rest => (uint32_to_string i, t.value) :: elemValues (i + 1) rest
end

@[simp] theorem fieldValues_nil : fieldValues [] = [] := by simp [fieldValues]

@[simp] theorem fieldValues_cons (key : Bytes) (t : Tree) (rest : List (Bytes × Tree)) :
    fieldValues ((key, t) :: rest) = (key, t.value) :: fieldValues rest := by
  simp [fieldValues]

theorem elemValues_eq (i : Nat) (ts : List Tree) :
    elemValues i ts = fieldValues (indexed i ts) := by
  induction ts generalizing i with
  | nil => simp [elemValues, indexed]
  | cons t rest ih => simp [elemValues, indexed, ih]

mutual
/-- Every table of the tree starts below `MAXSTACK`, when the root is in the
topmost of `top` slots.  A document keeps two more slots in use around its
fields and an array one. -/
def Shallow (top : Nat) : Tree → Prop
  | .leaf _ _ => True
  | .doc fs => top < MAXSTACK ∧ FieldsShallow (top + 2) fs
  | .array ts => top < MAXSTACK ∧ ElemsShallow (top + 1) ts

def FieldsShallow (top : Nat) : List (Bytes × Tree) → Prop
  | [] => True
  | (_, t) :: rest => t.Shallow top ∧ FieldsShallow top rest

def ElemsShallow (top : Nat) : List Tree → Prop
  | [] => True
  | t :: rest => t.Shallow top ∧ ElemsShallow top rest
end

mutual
/-- No key of a document in the tree has a NUL byte. -/
def KeysNulFree : Tree → Prop
  | .leaf _ _ => True
  | .doc fs => FieldsNulFree fs
  | .array ts => ElemsNulFree ts

def FieldsNulFree : List (Bytes × Tree) → Prop
  | [] => True
  | (key, t) :: rest => NulFree key ∧ t.KeysNulFree ∧ FieldsNulFree rest

def ElemsNulFree : List Tree → Prop
  | [] => True
  | t :: rest => t.KeysNulFree ∧ ElemsNulFree rest
end

@[simp] theorem fieldsNulFree_nil : FieldsNulFree [] := by simp [FieldsNulFree]

@[simp] theorem fieldsNulFree_cons (key : Bytes) (t : Tree) (rest : List (Bytes × Tree)) :
    FieldsNulFree ((key, t) :: rest) ↔ NulFree key ∧ t.KeysNulFree ∧ FieldsNulFree rest := by
  simp [FieldsNulFree]

theorem elemsNulFree_iff (i : Nat) (ts : List Tree) :
    ElemsNulFree ts ↔ FieldsNulFree (indexed i ts) := by
  induction ts generalizing i with
  | nil => simp [ElemsNulFree, indexed]
  | cons t rest ih =>
    simp only [ElemsNulFree, indexed, fieldsNulFree_cons, nulFree_uint32_to_string, true_and]
    rw [ih (i + 1)]

/-- The value of a node is the document or array of its children. -/
theorem value_doc (fs : List (Bytes × Tree)) :
    (Tree.doc fs).value = .document (fieldValues (Tree.doc fs).children) := by
  simp [value, children]

theorem value_array (ts : List Tree) :
    (Tree.array ts).value = .array (fieldValues (Tree.array ts).children) := by
  simp [value, children, elemValues_eq]

end Tree

/-! ## Unfolding -/

/-- The values at the indices `i + 1` to `i + n` of a table. -/
def elementsFrom (t : Table Host) : Nat → Nat → List LVal
  | _, 0 => []
  | i, n + 1 => t.get (.int (i + 1)) :: elementsFrom t (i + 1) n

/-- The length of a plain table, `-1` for a document. -/
def plainLength (E : Env) (h : Heap Host) (r : Ref) : Int :=
  declaredLength E ((h.get r).get (.str (bytes "__array"))) (h.get r).rawlen

/-- No metamethod replaces the value, and it is written as `x` wherever on the
stack it stands. -/
def IsLeaf (E : Env) (h : Heap Host) (v : LVal) (x : Value) : Prop :=
  h.getmetafield v (bytes "__toBSON") = .nil ∧
    ∀ top, top ≤ MAXSTACK + 1 → leafValue E top h v = some x

mutual
/-- The value `v` of the heap `h` unfolds to a tree. -/
inductive Unfolds (E : Env) (h : Heap Host) : LVal → Tree → Prop where
  | leaf {v : LVal} {x : Value} (hleaf : IsLeaf E h v x) : Unfolds E h v (.leaf v x)
  | doc {r : Ref} {fs : List (Bytes × Tree)} (hplain : PlainTable h r)
      (hlen : plainLength E h r = -1) (hfields : UnfoldsFields E h (h.get r).entries fs) :
      Unfolds E h (.table r) (.doc fs)
  | array {r : Ref} {n : Nat} {ts : List Tree} (hplain : PlainTable h r)
      (hlen : plainLength E h r = n) (helems : UnfoldsElems E h (elementsFrom (h.get r) 0 n) ts) :
      Unfolds E h (.table r) (.array ts)

/-- The entries of a document table unfold to fields. -/
inductive UnfoldsFields (E : Env) (h : Heap Host) :
    List (Key × LVal) → List (Bytes × Tree) → Prop where
  | nil : UnfoldsFields E h [] []
  | cons {key : Bytes} {v : LVal} {t : Tree} {rest : List (Key × LVal)}
      {fs : List (Bytes × Tree)} (hv : Unfolds E h v t) (hrest : UnfoldsFields E h rest fs) :
      UnfoldsFields E h ((.str key, v) :: rest) ((key, t) :: fs)

/-- The values of an array table unfold to elements. -/
inductive UnfoldsElems (E : Env) (h : Heap Host) : List LVal → List Tree → Prop where
  | nil : UnfoldsElems E h [] []
  | cons {v : LVal} {t : Tree} {rest : List LVal} {ts : List Tree}
      (hv : Unfolds E h v t) (hrest : UnfoldsElems E h rest ts) :
      UnfoldsElems E h (v :: rest) (t :: ts)
end

/-- A plain table is no leaf. -/
theorem PlainTable.not_isLeaf {E : Env} {h : Heap Host} {r : Ref} (hplain : PlainTable h r)
    (x : Value) : ¬ IsLeaf E h (.table r) x := by
  intro hleaf
  have hx := hleaf.2 0 (by simp)
  simp [leafValue, hplain.getmetafield] at hx

mutual
/-- A value has at most one unfolding. -/
theorem Unfolds.unique {E : Env} {h : Heap Host} {v : LVal} {t t' : Tree}
    (ht : Unfolds E h v t) (ht' : Unfolds E h v t') : t = t' := by
  cases ht with
  | leaf hleaf =>
    cases ht' with
    | leaf hleaf' =>
      have hx := (hleaf.2 0 (by simp)).symm.trans (hleaf'.2 0 (by simp))
      rw [Option.some.inj hx]
    | doc hplain _ _ => exact absurd hleaf (hplain.not_isLeaf _)
    | array hplain _ _ => exact absurd hleaf (hplain.not_isLeaf _)
  | doc hplain hlen hfields =>
    cases ht' with
    | leaf hleaf => exact absurd hleaf (hplain.not_isLeaf _)
    | doc _ _ hfields' => rw [hfields.unique hfields']
    | array _ hlen' _ => omega
  | @array r n ts hplain hlen helems =>
    cases ht' with
    | leaf hleaf => exact absurd hleaf (hplain.not_isLeaf _)
    | doc _ hlen' _ => omega
    | @array _ n' ts' _ hlen' helems' =>
      have hn : n = n' := by omega
      subst hn
      rw [helems.unique helems']

theorem UnfoldsFields.unique {E : Env} {h : Heap Host} {es : List (Key × LVal)}
    {fs fs' : List (Bytes × Tree)} (hfs : UnfoldsFields E h es fs)
    (hfs' : UnfoldsFields E h es fs') : fs = fs' := by
  cases hfs with
  | nil => cases hfs'; rfl
  | cons hv hrest =>
    cases hfs' with
    | cons hv' hrest' => rw [hv.unique hv', hrest.unique hrest']

theorem UnfoldsElems.unique {E : Env} {h : Heap Host} {vs : List LVal} {ts ts' : List Tree}
    (hts : UnfoldsElems E h vs ts) (hts' : UnfoldsElems E h vs ts') : ts = ts' := by
  cases hts with
  | nil => cases hts'; rfl
  | cons hv hrest =>
    cases hts' with
    | cons hv' hrest' => rw [hv.unique hv', hrest.unique hrest']
end

end Vklib.Mongo
