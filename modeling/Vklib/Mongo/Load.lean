import Vklib.Bson.GrowSpec
import Vklib.Bson.ValidateSpec

/-!
# A document from its bytes

`initBSON` on a text that could be an encoded document, on the buffer of the new
document: `bson_reserve_buffer` makes room for the text, the text is copied there, and
`bson_validate_with_error` reads it.  The return value of `bson_reserve_buffer` is not
looked at, so a text that no buffer can hold is copied to the null pointer.

The check also lets texts through that are no encoding, and documents are represented by
their fields, so such a document is left out (`copiedDoc`).
-/

namespace Vklib.Mongo

open Vklib.Bson Buffer BsonImpl

/-- `isBSON`: a text that could be an encoded document. -/
def isBSON (str : Bytes) : Bool :=
  decide (5 ≤ str.length) && decide (str.length ≤ 2 ^ 31 - 1) && str.getLast? == some 0 &&
    str.take 4 == le32 str.length.toUInt32

/-- The text in the buffer of a new document. -/
def storeText {ε : Type} (fresh : Nat → UInt8) (str : Bytes) : Outcome ε (Bytes × BsonImpl) :=
  match (BsonImpl.bson_init fresh).2.bson_reserve_buffer fresh (BsonImpl.bson_init fresh).1
    str.length with
  -- `memcpy` to the null pointer
  | none => .undefined
  | some (buf, b) => do
    let buf ← store buf b._bson_data str
    .ok (buf, b)

/-- `initBSON` on a text that passes `isBSON`: the document, or the message of the error. -/
def initStored (fresh : Nat → UInt8) (str : Bytes) : Outcome Bytes Doc := do
  let (buf, b) ← storeText fresh str
  match ← (bson_validate_with_error (buf.drop b._bson_data) b.len).lift with
  | (true, _) => copiedDoc (buf.drop b._bson_data) b.len
  | (false, some message) => .error message
  -- the message is not initialised
  | (false, none) => .undefined

/-- `isBSON` is the test of `bson_init_static`. -/
theorem isBSON_iff {str : Bytes} : isBSON str = true ↔ Static str str.length := by
  have hword : str.take 4 = le32 str.length.toUInt32 ↔ Lies str 0 (le32 str.length.toUInt32) := by
    rw [lies_zero, List.prefix_iff_eq_take, length_le32]
    exact eq_comm
  have hlast (hge : 5 ≤ str.length) : str.getLast? = some 0 ↔ Lies str (str.length - 1) [0] := by
    rw [List.getLast?_eq_getElem?]
    constructor
    · intro h
      obtain ⟨hlt, hzero⟩ := List.getElem?_eq_some_iff.mp h
      rw [Lies, List.drop_eq_getElem_cons hlt, hzero]
      exact List.prefix_append [0] _
    · intro h
      exact h.getElem?
  simp only [isBSON, Bool.and_eq_true, decide_eq_true_eq, beq_iff_eq, hword]
  constructor
  · rintro ⟨⟨⟨hge, hmax⟩, hzero⟩, hlies⟩
    exact ⟨hge, hmax, hlies, (hlast hge).mp hzero⟩
  · intro h
    exact ⟨⟨⟨h.ge, h.le_max⟩, (hlast h.ge).mpr h.last⟩, h.word⟩

/-- Room for a text is reserved when its length and five bytes stay below the limit of
a buffer. -/
theorem reserve_spec (fresh : Nat → UInt8) (size : Nat) (hsize : size < 2 ^ 32) :
    if 5 + size ≤ BSON_GROW_LIMIT then
      ∃ buf b, (BsonImpl.bson_init fresh).2.bson_reserve_buffer fresh (BsonImpl.bson_init fresh).1
          size = some (buf, b) ∧ b._bson_data = 0 ∧ b.len = size ∧ size ≤ buf.length
    else (BsonImpl.bson_init fresh).2.bson_reserve_buffer fresh (BsonImpl.bson_init fresh).1
          size = none := by
  have h := holds_init fresh
  have hspec := grow_spec h fresh _ hsize
  have hclosed : BsonT.bson_init.closed = 5 := rfl
  have hlimit : BsonT.bson_init.limit = BSON_GROW_LIMIT := rfl
  rw [hclosed, hlimit] at hspec
  by_cases hfits : 5 + size ≤ BSON_GROW_LIMIT
  · rw [if_pos hfits] at hspec ⊢
    obtain ⟨buf, b, hgrow, hholds, hplace, -, hroom⟩ := hspec
    refine ⟨buf, { b with len := size }, ?_, ?_, rfl, by omega⟩
    · rw [bson_reserve_buffer, hgrow]
      rfl
    · rw [_bson_data_len, hholds.data_eq, hplace.offset]
      rfl
  · rw [if_neg hfits] at hspec ⊢
    rw [bson_reserve_buffer, hspec]
    rfl

/-- The text is copied byte for byte. -/
theorem storeText_spec {ε : Type} (fresh : Nat → UInt8) (str : Bytes)
    (hlen : str.length < 2 ^ 32) :
    if 5 + str.length ≤ BSON_GROW_LIMIT then
      ∃ buf b, (storeText fresh str : Outcome ε (Bytes × BsonImpl)) = .ok (buf, b) ∧
        b._bson_data = 0 ∧ b.len = str.length ∧ Lies buf 0 str ∧ str.length ≤ buf.length
    else (storeText fresh str : Outcome ε (Bytes × BsonImpl)) = .undefined := by
  have hspec := reserve_spec fresh str.length hlen
  rw [storeText]
  by_cases hfits : 5 + str.length ≤ BSON_GROW_LIMIT
  · rw [if_pos hfits] at hspec ⊢
    obtain ⟨buf, b, hreserve, hdata, hblen, hroom⟩ := hspec
    have hin : 0 + str.length ≤ buf.length := by omega
    refine ⟨Buffer.put buf 0 str, b, ?_, hdata, hblen, lies_put str (Nat.zero_le _), ?_⟩
    · rw [hreserve]
      simp only [hdata]
      rw [store_eq hin, Outcome.ok_bind]
    · rw [length_put hin]
      exact hroom
  · rw [if_neg hfits] at hspec ⊢
    rw [hspec]

/-- A document that comes out is one whose encoding the text is. -/
theorem initStored_eq_ok {fresh : Nat → UInt8} {str : Bytes} {ds : Doc}
    (hstr : isBSON str = true) (h : initStored fresh str = .ok ds) :
    DocWellFormed ds ∧ str = bson_get_data ds := by
  have hmax := (isBSON_iff.mp hstr).le_max
  unfold BSON_MAX_SIZE at hmax
  have hspec := storeText_spec (ε := Bytes) fresh str (by omega)
  rw [initStored] at h
  split_ifs at hspec with hfits
  · obtain ⟨buf, b, hrun, hdata, hblen, hlies, hroom⟩ := hspec
    rw [hrun, Outcome.ok_bind] at h
    simp only [hdata, hblen, List.drop_zero] at h
    obtain ⟨⟨valid, message⟩, -, h⟩ := Outcome.bind_eq_ok_iff.mp h
    cases valid with
    | true =>
      obtain ⟨hds, hsize, hin⟩ := (copiedDoc_eq_ok_iff hroom).mp h
      exact ⟨hds, hlies.eq hin (by rw [length_bson_get_data hds.fields, hsize])⟩
    | false => cases message <;> cases h
  · rw [hspec] at h
    cases h

/-- The check of a text comes to an end. -/
theorem initStored_ne_outOfFuel {fresh : Nat → UInt8} {str : Bytes} (hstr : isBSON str = true) :
    initStored fresh str ≠ .outOfFuel := by
  have hstatic := isBSON_iff.mp hstr
  have hmax := hstatic.le_max
  unfold BSON_MAX_SIZE at hmax
  have hspec := storeText_spec (ε := Bytes) fresh str (by omega)
  rw [initStored]
  split_ifs at hspec with hfits
  · obtain ⟨buf, b, hrun, hdata, hblen, hlies, hroom⟩ := hspec
    rw [hrun, Outcome.ok_bind]
    simp only [hdata, hblen, List.drop_zero]
    refine Outcome.bind_ne_outOfFuel ?_ fun answer _ => ?_
    · rw [ne_eq, Outcome.lift, Outcome.mapError_eq_outOfFuel_iff]
      exact bson_validate_ne_outOfFuel hroom hstatic.ge hstatic.le_max
    · obtain ⟨valid, message⟩ := answer
      cases valid with
      | true =>
        simp only [copiedDoc]
        cases encodedDoc buf str.length <;> simp
      | false => cases message <;> simp
  · rw [hspec]
    simp

/-- What becomes of the encoding of a document. -/
theorem initStored_data (fresh : Nat → UInt8) {ds : Doc} (hds : DocWellFormed ds) :
    initStored fresh (bson_get_data ds) =
      if 5 + docSize ds ≤ BSON_GROW_LIMIT then
        match (fieldsVisited none ds).2 with
        | none => .ok ds
        | some message => .error message
      else .undefined := by
  have hlength := length_bson_get_data hds.fields
  have hmax := hds.size
  unfold BSON_MAX_SIZE at hmax
  have hspec := storeText_spec (ε := Bytes) fresh (bson_get_data ds) (by omega)
  rw [hlength] at hspec
  rw [initStored]
  by_cases hfits : 5 + docSize ds ≤ BSON_GROW_LIMIT
  · rw [if_pos hfits] at hspec ⊢
    obtain ⟨buf, b, hrun, hdata, hblen, hlies, hroom⟩ := hspec
    rw [hrun, Outcome.ok_bind]
    simp only [hdata, hblen, List.drop_zero]
    rw [bson_validate_with_error_data hds hlies, Outcome.lift_ok, Outcome.ok_bind]
    cases (fieldsVisited none ds).2 with
    | none => exact (copiedDoc_eq_ok_iff hroom).mpr ⟨hds, rfl, hlies⟩
    | some message => rfl
  · rw [if_neg hfits] at hspec ⊢
    rw [hspec]
    rfl

end Vklib.Mongo
