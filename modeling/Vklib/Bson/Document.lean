import Vklib.Base.Number

/-!
# BSON documents

A document is the list of its fields in order, a field is a key and a value,
and the values are the element types of the format.  An array is a document
under another type tag.  `Value.size` and `docSize` count the encoded bytes,
which is what the library compares with its limits.
-/

namespace Vklib.Bson

/-- A 12-byte object id. -/
abbrev Oid := Bytes

/-- The two 64-bit words of a decimal128. -/
structure Decimal128 where
  low : UInt64
  high : UInt64
  deriving DecidableEq, Repr

/-- A BSON value, by element type.  The payload of a binary value is what
follows its subtype byte, so that of subtype 2 starts with a length word of
its own. -/
inductive Value where
  | double (x : F64)
  | utf8 (s : Bytes)
  | document (fields : List (Bytes × Value))
  | array (fields : List (Bytes × Value))
  | binary (subtype : UInt8) (payload : Bytes)
  | undefined
  | oid (id : Oid)
  | bool (b : Bool)
  | dateTime (ms : Int64)
  | null
  | regex (pattern options : Bytes)
  | dbpointer (collection : Bytes) (id : Oid)
  | code (source : Bytes)
  | symbol (s : Bytes)
  | codewscope (source : Bytes) (scope : List (Bytes × Value))
  | int32 (i : Int32)
  | timestamp (t i : UInt32)
  | int64 (i : Int64)
  | decimal128 (d : Decimal128)
  | maxkey
  | minkey

/-- The fields of a document, in order. -/
abbrev Doc := List (Bytes × Value)

mutual
/-- The number of bytes of an encoded value. -/
def Value.size : Value → Nat
  | .double _ => 8
  | .utf8 s => 4 + s.length + 1
  | .document fs => 5 + fieldsSize fs
  | .array fs => 5 + fieldsSize fs
  | .binary _ payload => 4 + 1 + payload.length
  | .undefined => 0
  | .oid _ => 12
  | .bool _ => 1
  | .dateTime _ => 8
  | .null => 0
  | .regex pattern options => pattern.length + 1 + options.length + 1
  | .dbpointer collection _ => 4 + collection.length + 1 + 12
  | .code source => 4 + source.length + 1
  | .symbol s => 4 + s.length + 1
  | .codewscope source scope => 4 + 4 + source.length + 1 + (5 + fieldsSize scope)
  | .int32 _ => 4
  | .timestamp _ _ => 8
  | .int64 _ => 8
  | .decimal128 _ => 16
  | .maxkey => 0
  | .minkey => 0

/-- The number of bytes of encoded fields: type, key, NUL and value each. -/
def fieldsSize : List (Bytes × Value) → Nat
  | [] => 0
  | (key, v) :: rest => (1 + key.length + 1 + v.size) + fieldsSize rest
end

/-- The number of bytes of one field. -/
def fieldSize (key : Bytes) (v : Value) : Nat := 1 + key.length + 1 + v.size

/-- The number of bytes of a document: its length word, fields and NUL. -/
def docSize (fields : Doc) : Nat := 5 + fieldsSize fields

@[simp] theorem fieldsSize_nil : fieldsSize [] = 0 := by simp [fieldsSize]

@[simp] theorem fieldsSize_cons (key : Bytes) (v : Value) (rest : Doc) :
    fieldsSize ((key, v) :: rest) = fieldSize key v + fieldsSize rest := by
  simp [fieldsSize, fieldSize]

theorem fieldsSize_append (fs gs : Doc) :
    fieldsSize (fs ++ gs) = fieldsSize fs + fieldsSize gs := by
  induction fs with
  | nil => simp
  | cons f rest ih =>
    obtain ⟨key, v⟩ := f
    rw [List.cons_append, fieldsSize_cons, fieldsSize_cons, ih]
    omega

theorem docSize_append_single (fs : Doc) (key : Bytes) (v : Value) :
    docSize (fs ++ [(key, v)]) = docSize fs + fieldSize key v := by
  simp only [docSize, fieldsSize_append, fieldsSize_cons, fieldsSize_nil]
  omega

/-- `strcmp(bson_iter_key, "0") == 0` on the first field.  This is how the
source guesses that a document is an array. -/
def isArray : Doc → Bool
  | [] => false
  | (key, _) :: _ => decide (cString key = bytes "0")

/-- `bson_uint32_to_string`: the decimal digits of the number modulo
`2 ^ 32`, which is its conversion to `uint32_t`. -/
def uint32_to_string (i : Nat) : Bytes :=
  (Nat.toDigits 10 (i % 2 ^ 32)).map (fun c => c.toNat.toUInt8)

example : uint32_to_string 120 = bytes "120" := by decide

/-- A decimal digit is a byte from `0` to `9`. -/
theorem digit_byte {c : Char} (hc : c.isDigit = true) :
    (c.toNat.toUInt8).toNat = c.toNat ∧ 48 ≤ c.toNat := by
  simp only [Char.isDigit, Bool.and_eq_true, decide_eq_true_eq, ge_iff_le,
    UInt32.le_iff_toNat_le] at hc
  have hlo : 48 ≤ c.toNat := hc.1
  have hhi : c.toNat ≤ 57 := hc.2
  refine ⟨?_, hlo⟩
  simp only [Nat.toUInt8_eq, UInt8.toNat_ofNat']
  omega

/-- A decimal number has no NUL. -/
theorem nulFree_uint32_to_string (i : Nat) : NulFree (uint32_to_string i) := by
  intro hmem
  obtain ⟨c, hc, h0⟩ := List.mem_map.mp hmem
  have hdigit := digit_byte (Nat.isDigit_of_mem_toDigits (by decide) (by decide) hc)
  rw [h0] at hdigit
  have hzero : ((0 : UInt8).toNat) = 0 := rfl
  omega

/-- A decimal number has ten digits at most. -/
theorem length_uint32_to_string_le (i : Nat) : (uint32_to_string i).length ≤ 10 := by
  rw [uint32_to_string, List.length_map, Nat.length_toDigits_le_iff (by decide) (by decide)]
  have hlt : i % 2 ^ 32 < 2 ^ 32 := Nat.mod_lt _ (by decide)
  omega

end Vklib.Bson
