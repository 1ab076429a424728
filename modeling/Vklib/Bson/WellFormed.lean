import Vklib.Base.Buffer
import Vklib.Bson.Data

/-!
# Well-formed documents

A `Value` is more than the library writes: it may hold an object id of any
length, or a regular expression with a NUL.  `Value.WellFormed` leaves those out.
Of a well-formed document the sizes of `docSize` are the lengths of its bytes, and
its length words are read back by `fromLe`.
-/

namespace Vklib.Bson

open Buffer

mutual
/-- What every value that the library writes satisfies. -/
def Value.WellFormed : Value → Prop
  | .document fs => FieldsWellFormed fs
  | .array fs => FieldsWellFormed fs
  -- the payload of the deprecated subtype counts itself
  | .binary subtype payload =>
    subtype = 2 → payload = le32 (payload.drop 4).length.toUInt32 ++ payload.drop 4
  | .oid id => id.length = 12
  | .regex pattern options => NulFree pattern ∧ NulFree options
  | .dbpointer _ id => id.length = 12
  | .codewscope _ scope => FieldsWellFormed scope
  | .double _ | .utf8 _ | .undefined | .bool _ | .dateTime _ | .null | .code _ | .symbol _
  | .int32 _ | .timestamp _ _ | .int64 _ | .decimal128 _ | .maxkey | .minkey => True

/-- Well-formed values under keys without NUL. -/
def FieldsWellFormed : List (Bytes × Value) → Prop
  | [] => True
  | (key, v) :: rest => NulFree key ∧ v.WellFormed ∧ FieldsWellFormed rest
end

/-- A document that the library can hold. -/
structure DocWellFormed (ds : Doc) : Prop where
  fields : FieldsWellFormed ds
  size : docSize ds ≤ BSON_MAX_SIZE

/-! ## Words -/

theorem fromLe_le32 (n : UInt32) : fromLe (le32 n) = n.toNat := by
  have hlt := n.toNat_lt
  simp only [fromLe, le32, List.map_cons, List.map_nil, Nat.ofDigits_cons, Nat.ofDigits_nil,
    UInt32.toNat_toUInt8, UInt32.toNat_shiftRight, Nat.shiftRight_eq_div_pow]
  simp only [UInt32.reduceToNat, Nat.reduceMod, Nat.reducePow]
  omega

theorem fromLe_le32_of_lt {n : Nat} (h : n < 2 ^ 32) : fromLe (le32 n.toUInt32) = n := by
  rw [fromLe_le32, Nat.toUInt32_eq, UInt32.toNat_ofNat_of_lt' h]

@[simp] theorem length_le64 (n : UInt64) : (le64 n).length = 8 := rfl

theorem fromLe_le64 (n : UInt64) : fromLe (le64 n) = n.toNat := by
  have hlt := n.toNat_lt
  rw [le64, fromLe_append, fromLe_le32, fromLe_le32, length_le32, UInt64.toNat_toUInt32,
    UInt64.toNat_toUInt32, UInt64.toNat_shiftRight, Nat.shiftRight_eq_div_pow]
  simp only [UInt64.reduceToNat, Nat.reduceMod, Nat.reducePow]
  omega

/-! ## Lengths -/

theorem length_stringData (s : Bytes) : (stringData s).length = 4 + s.length + 1 := by
  simp [stringData, Nat.add_assoc]

theorem length_wrapData (size : Nat) (fields : Bytes) :
    (wrapData size fields).length = 5 + fields.length := by
  simp [wrapData]
  omega

mutual
theorem Value.length_data (v : Value) (hv : v.WellFormed) : v.data.length = v.size := by
  match v, hv with
  | .document fs, hv =>
    rw [Value.data, length_wrapData, length_fieldsData fs (by simpa only [Value.WellFormed] using hv),
      Value.size]
  | .array fs, hv =>
    rw [Value.data, length_wrapData, length_fieldsData fs (by simpa only [Value.WellFormed] using hv),
      Value.size]
  | .codewscope source scope, hv =>
    rw [Value.data, Value.size, List.length_append, List.length_append, length_wrapData,
      length_fieldsData scope (by simpa only [Value.WellFormed] using hv), length_stringData,
      length_le32]
    omega
  | .oid id, hv =>
    rw [Value.data, Value.size]
    simpa only [Value.WellFormed] using hv
  | .dbpointer collection id, hv =>
    have hid : id.length = 12 := by simpa only [Value.WellFormed] using hv
    rw [Value.data, Value.size, List.length_append, length_stringData, hid]
  | .binary subtype payload, _ => simp [Value.data, Value.size]; omega
  | .utf8 s, _ => exact length_stringData s
  | .code s, _ => exact length_stringData s
  | .symbol s, _ => exact length_stringData s
  | .regex pattern options, _ => simp [Value.data, Value.size]; omega
  | .double _, _ | .undefined, _ | .bool _, _ | .dateTime _, _ | .null, _ | .int32 _, _
  | .timestamp _ _, _ | .int64 _, _ | .decimal128 _, _ | .maxkey, _ | .minkey, _ => rfl

theorem length_fieldsData (fs : List (Bytes × Value)) (hfs : FieldsWellFormed fs) :
    (fieldsData fs).length = fieldsSize fs := by
  match fs, hfs with
  | [], _ => rfl
  | (key, v) :: rest, hfs =>
    obtain ⟨-, hv, hrest⟩ : NulFree key ∧ v.WellFormed ∧ FieldsWellFormed rest := by
      simpa only [FieldsWellFormed] using hfs
    rw [fieldsData, fieldsSize_cons, fieldSize, List.length_cons, List.length_append,
      List.length_cons, List.length_append, v.length_data hv, length_fieldsData rest hrest]
    omega
end

theorem fieldsData_append (fs gs : Doc) : fieldsData (fs ++ gs) = fieldsData fs ++ fieldsData gs := by
  induction fs with
  | nil => simp [fieldsData]
  | cons f rest ih =>
    obtain ⟨key, v⟩ := f
    simp [fieldsData, ih]

theorem fieldsWellFormed_append {fs gs : Doc} :
    FieldsWellFormed (fs ++ gs) ↔ FieldsWellFormed fs ∧ FieldsWellFormed gs := by
  induction fs with
  | nil => simp [FieldsWellFormed]
  | cons f rest ih =>
    obtain ⟨key, v⟩ := f
    simp only [List.cons_append, FieldsWellFormed, ih, and_assoc]

theorem length_bson_get_data {ds : Doc} (hds : FieldsWellFormed ds) :
    (bson_get_data ds).length = docSize ds := by
  rw [bson_get_data, length_wrapData, length_fieldsData ds hds, docSize]

end Vklib.Bson
