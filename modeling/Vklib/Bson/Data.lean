import Vklib.Bson.Writer

/-!
# The bytes of a document

`bson_get_data` is the buffer that the append functions fill: the length word,
the fields with type, key, NUL and value each, and the closing NUL.

Two documents with different bytes are told apart by the lemmas at the end: an
empty document from another, two first fields by their keys, and two documents
of one field by the type or the value.
-/

namespace Vklib.Bson

/-- A 64-bit word in little-endian order. -/
def le64 (n : UInt64) : Bytes := le32 n.toUInt32 ++ le32 (n >>> 32).toUInt32

@[simp] theorem length_le32 (n : UInt32) : (le32 n).length = 4 := rfl

/-- The type byte of a value. -/
def elementType : Value → UInt8
  | .double _ => 0x01
  | .utf8 _ => 0x02
  | .document _ => 0x03
  | .array _ => 0x04
  | .binary _ _ => 0x05
  | .undefined => 0x06
  | .oid _ => 0x07
  | .bool _ => 0x08
  | .dateTime _ => 0x09
  | .null => 0x0A
  | .regex _ _ => 0x0B
  | .dbpointer _ _ => 0x0C
  | .code _ => 0x0D
  | .symbol _ => 0x0E
  | .codewscope _ _ => 0x0F
  | .int32 _ => 0x10
  | .timestamp _ _ => 0x11
  | .int64 _ => 0x12
  | .decimal128 _ => 0x13
  | .maxkey => 0x7F
  | .minkey => 0xFF

/-- A string behind its length word, which counts the closing NUL. -/
def stringData (s : Bytes) : Bytes := le32 (s.length + 1).toUInt32 ++ s ++ [0]

/-- A document around the bytes of its fields. -/
def wrapData (size : Nat) (fields : Bytes) : Bytes := le32 size.toUInt32 ++ fields ++ [0]

mutual
/-- The bytes of a value. -/
def Value.data : Value → Bytes
  | .double x => le64 x.bits
  | .utf8 s => stringData s
  | .document fs => wrapData (docSize fs) (fieldsData fs)
  | .array fs => wrapData (docSize fs) (fieldsData fs)
  | .binary subtype payload => le32 payload.length.toUInt32 ++ subtype :: payload
  | .undefined => []
  | .oid id => id
  | .bool b => [if b then 1 else 0]
  | .dateTime ms => le64 ms.toUInt64
  | .null => []
  | .regex pattern options => pattern ++ 0 :: (options ++ [0])
  | .dbpointer collection id => stringData collection ++ id
  | .code source => stringData source
  | .symbol s => stringData s
  | .codewscope source scope =>
    le32 (4 + 4 + source.length + 1 + docSize scope).toUInt32 ++ stringData source ++
      wrapData (docSize scope) (fieldsData scope)
  | .int32 i => le32 i.toUInt32
  | .timestamp t i => le32 i ++ le32 t
  | .int64 i => le64 i.toUInt64
  | .decimal128 d => le64 d.low ++ le64 d.high
  | .maxkey => []
  | .minkey => []

/-- The bytes of fields. -/
def fieldsData : List (Bytes × Value) → Bytes
  | [] => []
  | (key, v) :: rest => elementType v :: (key ++ 0 :: (v.data ++ fieldsData rest))
end

/-- `bson_get_data`, up to the length of the document. -/
def bson_get_data (fields : Doc) : Bytes := wrapData (docSize fields) (fieldsData fields)

example : bson_get_data [(bytes "a", .int32 1)] =
    [12, 0, 0, 0, 0x10, 97, 0, 1, 0, 0, 0, 0] := by decide

/-! ## Telling documents apart -/

/-- The bytes of a document determine those of its fields. -/
theorem fieldsData_eq_of_data_eq {ds ds' : Doc} (h : bson_get_data ds = bson_get_data ds') :
    fieldsData ds = fieldsData ds' := by
  simp only [bson_get_data, wrapData, List.append_assoc] at h
  exact List.append_cancel_right (List.append_inj h rfl).2

/-- Only the empty document has the bytes of the empty document. -/
theorem data_nil_ne_cons (f : Bytes × Value) (rest : Doc) :
    bson_get_data [] ≠ bson_get_data (f :: rest) := by
  intro h
  have hfields := fieldsData_eq_of_data_eq h
  obtain ⟨key, v⟩ := f
  simp [fieldsData] at hfields

/-- Documents with the same bytes have the same first key. -/
theorem key_eq_of_data_eq {k k' : Bytes} {x x' : Value} {rest rest' : Doc} (hk : NulFree k)
    (hk' : NulFree k') (h : bson_get_data ((k, x) :: rest) = bson_get_data ((k', x') :: rest')) :
    k = k' := by
  have hfields := fieldsData_eq_of_data_eq h
  simp only [fieldsData, List.cons.injEq] at hfields
  have hread := congrArg cString hfields.2
  rwa [cString_append_nul hk, cString_append_nul hk'] at hread

/-- Documents of one field with the same bytes have the same type and value
there. -/
theorem value_eq_of_data_eq {k : Bytes} {x x' : Value}
    (h : bson_get_data [(k, x)] = bson_get_data [(k, x')]) :
    elementType x = elementType x' ∧ x.data = x'.data := by
  have hfields := fieldsData_eq_of_data_eq h
  simp only [fieldsData, List.cons.injEq, List.append_nil, List.append_cancel_left_eq,
    true_and] at hfields
  exact hfields

/-- A string is determined by its bytes. -/
theorem stringData_injective {s s' : Bytes} (h : stringData s = stringData s') : s = s' := by
  simp only [stringData, List.append_assoc] at h
  exact List.append_cancel_right (List.append_inj h rfl).2

end Vklib.Bson
