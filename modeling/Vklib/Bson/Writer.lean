import Vklib.Bson.Document

/-!
# Writing documents with libbson

A `BsonT` is a `bson_t` that is being written.  Every append function of
libbson ends in `_bson_append`, which refuses a field that would push the
buffer past its bound and then leaves the document alone.  Before that,
`HANDLE_KEY_LENGTH` refuses a key with an embedded NUL.  A refusal is the
return value `false`, and the caller may ignore it.

The size of the field is added up as an `int` until an unsigned length is among
the terms, and counts modulo `2 ^ 32`.  A field that is too large for either is
written past the end of the buffer or not as counted, and then an append has no
result.

The bound is a bound on the whole buffer, which a child document shares with
the documents around it.  `outer` counts the bytes of those documents, closed,
so `closed` is the size that the buffer must hold.

The lemmas give the two sides of one append: `bson_append_of_fits` when there is
room and `bson_append_cases` in general.
-/

namespace Vklib.Bson

/-- `BSON_MAX_SIZE`. -/
def BSON_MAX_SIZE : Nat := 2 ^ 31 - 1

/-- The largest buffer that `_bson_grow` makes: it rounds the size up to a
power of two and refuses one above `BSON_MAX_SIZE`. -/
def BSON_GROW_LIMIT : Nat := 2 ^ 30

/-- A document under construction. -/
structure BsonT where
  /-- The largest size that the shared buffer can reach. -/
  limit : Nat
  /-- The bytes of the enclosing documents, closed. -/
  outer : Nat
  fields : Doc

namespace BsonT

/-- `bson_init`. -/
def bson_init : BsonT where
  limit := BSON_GROW_LIMIT
  outer := 0
  fields := []

/-- The size of the buffer when this document and all around it are closed. -/
def closed (b : BsonT) : Nat := b.outer + docSize b.fields

/-- The document with one more field. -/
def push (b : BsonT) (key : Bytes) (v : Value) : BsonT :=
  { b with fields := b.fields ++ [(key, v)] }

@[simp] theorem push_limit (b : BsonT) (key : Bytes) (v : Value) :
    (b.push key v).limit = b.limit := rfl

@[simp] theorem push_outer (b : BsonT) (key : Bytes) (v : Value) :
    (b.push key v).outer = b.outer := rfl

@[simp] theorem push_fields (b : BsonT) (key : Bytes) (v : Value) :
    (b.push key v).fields = b.fields ++ [(key, v)] := rfl

@[simp] theorem closed_push (b : BsonT) (key : Bytes) (v : Value) :
    (b.push key v).closed = b.closed + fieldSize key v := by
  simp only [closed, push_outer, push_fields, docSize_append_single]
  omega

/-- The document with more fields. -/
def extend (b : BsonT) (ds : Doc) : BsonT := { b with fields := b.fields ++ ds }

@[simp] theorem extend_limit (b : BsonT) (ds : Doc) : (b.extend ds).limit = b.limit := rfl

@[simp] theorem extend_fields (b : BsonT) (ds : Doc) :
    (b.extend ds).fields = b.fields ++ ds := rfl

@[simp] theorem extend_nil (b : BsonT) : b.extend [] = b := by simp [extend]

theorem extend_extend (b : BsonT) (ds ds' : Doc) :
    (b.extend ds).extend ds' = b.extend (ds ++ ds') := by
  simp [extend]

theorem extend_single (b : BsonT) (key : Bytes) (v : Value) :
    b.extend [(key, v)] = b.push key v := rfl

@[simp] theorem closed_extend (b : BsonT) (ds : Doc) :
    (b.extend ds).closed = b.closed + fieldsSize ds := by
  simp only [closed, extend, docSize, fieldsSize_append]
  omega

end BsonT

/-! ## Lengths passed as `int` -/

/-- The conversion of a `size_t` to `int`. -/
def cInt (n : Nat) : Int :=
  if n % 2 ^ 32 < 2 ^ 31 then ((n % 2 ^ 32 : Nat) : Int) else ((n % 2 ^ 32 : Nat) : Int) - 2 ^ 32

theorem cInt_of_lt {n : Nat} (h : n < 2 ^ 31) : cInt n = n := by
  have hmod : n % 2 ^ 32 = n := Nat.mod_eq_of_lt (by omega)
  simp only [cInt, hmod, if_pos h]

/-- A C string by its `strlen`, which is cast to `int` and then to an unsigned
length. -/
def cutString (s : Bytes) : Bytes := (cString s).take ((cString s).length % 2 ^ 32)

theorem nulFree_cutString (s : Bytes) : NulFree (cutString s) :=
  fun h => nulFree_cString s (List.mem_of_mem_take h)

theorem cutString_cString (s : Bytes) : cutString (cString s) = cutString s := by
  rw [cutString, cutString, cString_eq_self (nulFree_cString s)]

theorem cutString_eq_cString {s : Bytes} (h : (cString s).length < 2 ^ 32) :
    cutString s = cString s := by
  rw [cutString, Nat.mod_eq_of_lt h, List.take_length]

/-- What libbson reads of a string whose length arrives as an `int`: a
negative length makes it count with `strlen`. -/
def countedArg (s : Bytes) : Bytes :=
  if cInt s.length < 0 then cutString s else s.take (cInt s.length).toNat

theorem countedArg_eq_self {s : Bytes} (h : s.length < 2 ^ 31) : countedArg s = s := by
  have hc : cInt s.length = s.length := cInt_of_lt h
  have hnn : ¬ (cInt s.length < 0) := by omega
  rw [countedArg, if_neg hnn, hc]
  simp

/-- `HANDLE_KEY_LENGTH`: the key that is written, none when the key has an
embedded NUL. -/
def HANDLE_KEY_LENGTH (key : Bytes) : Option Bytes :=
  if cInt key.length < 0 then some (cutString key)
  else if NulFree (key.take (cInt key.length).toNat) then
    some (key.take (cInt key.length).toNat)
  else none

/-- A key without NUL is written as it is. -/
theorem HANDLE_KEY_LENGTH_of_nulFree {key : Bytes} (h : NulFree key)
    (hlen : key.length < 2 ^ 31) : HANDLE_KEY_LENGTH key = some key := by
  have hc : cInt key.length = key.length := cInt_of_lt hlen
  have hnn : ¬ (cInt key.length < 0) := by omega
  rw [HANDLE_KEY_LENGTH, if_neg hnn, hc]
  simp [h]

/-- The key that is written never has a NUL. -/
theorem nulFree_of_HANDLE_KEY_LENGTH {key k : Bytes} (h : HANDLE_KEY_LENGTH key = some k) :
    NulFree k := by
  rw [HANDLE_KEY_LENGTH] at h
  split_ifs at h with hneg hfree
  · rw [← Option.some.inj h]
    exact nulFree_cutString key
  · rw [← Option.some.inj h]
    exact hfree

/-! ## Appending one field -/

/-- The sums of lengths that an append function makes in `int`, as far as they can
overflow.  The terms from the first unsigned length on are left out. -/
def intSums (k : Bytes) : Value → List Int
  | .utf8 s =>
    [cInt s.length + 1, cInt k.length + 6, cInt k.length + 6 + cInt s.length,
      cInt k.length + 6 + cInt s.length + 1]
  | .document _ | .array _ => [cInt k.length + 2]
  -- 11 is too much for a subtype that is only 2 as a byte
  | .binary subtype _ => [cInt k.length + if subtype = 2 then 11 else 7]
  | .regex pattern _ =>
    [cInt k.length + 2, cInt k.length + 2 + cInt pattern.length,
      cInt k.length + 2 + cInt pattern.length + 1]
  | .code source => [cInt source.length + 1, cInt k.length + 6]
  | .codewscope source _ => [cInt source.length + 1, cInt k.length + 10]
  | v => [cInt k.length + 2 + v.size]

/-- A number that an `int` holds. -/
def IsInt (n : Int) : Prop := -2 ^ 31 ≤ n ∧ n < 2 ^ 31

instance (n : Int) : Decidable (IsInt n) := inferInstanceAs (Decidable (_ ∧ _))

/-- A field below the largest size has no sum that overflows. -/
theorem isInt_of_mem_intSums {k : Bytes} {v : Value} (hsize : fieldSize k v < 2 ^ 31 - 4) {n : Int}
    (hn : n ∈ intSums k v) : IsInt n := by
  have hk : cInt k.length = k.length := cInt_of_lt (by unfold fieldSize at hsize; omega)
  have hlen {s : Bytes} (hs : s.length < 2 ^ 31) : cInt s.length = s.length := cInt_of_lt hs
  unfold fieldSize at hsize
  cases v with
  | utf8 s =>
    simp only [Value.size] at hsize
    simp only [intSums, hk, hlen (show s.length < 2 ^ 31 by omega), List.mem_cons, List.not_mem_nil,
      or_false] at hn
    unfold IsInt
    omega
  | binary subtype payload =>
    simp only [Value.size] at hsize
    simp only [intSums, hk, List.mem_singleton] at hn
    unfold IsInt
    split at hn <;> omega
  | regex pattern options =>
    simp only [Value.size] at hsize
    simp only [intSums, hk, hlen (show pattern.length < 2 ^ 31 by omega), List.mem_cons,
      List.not_mem_nil, or_false] at hn
    unfold IsInt
    omega
  | code source =>
    simp only [Value.size] at hsize
    simp only [intSums, hk, hlen (show source.length < 2 ^ 31 by omega), List.mem_cons,
      List.not_mem_nil, or_false] at hn
    unfold IsInt
    omega
  | codewscope source scope =>
    simp only [Value.size] at hsize
    simp only [intSums, hk, hlen (show source.length < 2 ^ 31 by omega), List.mem_cons,
      List.not_mem_nil, or_false] at hn
    unfold IsInt
    omega
  | _ =>
    simp only [intSums, hk, List.mem_singleton] at hn
    unfold IsInt
    omega

/-- An append function of libbson on a value that is complete: the result of
the call and the document after it.  None is what C does not define, a sum that
overflows or bytes behind the end of the buffer, and a code whose length is cut,
which is no field without its NUL. -/
def bson_append (b : BsonT) (key : Bytes) (v : Value) : Option (Bool × BsonT) :=
  match HANDLE_KEY_LENGTH key with
  | none => some (false, b)
  | some k =>
    if ¬ ∀ n ∈ intSums k v, IsInt n then none
    else if b.limit < b.closed + fieldSize k v % 2 ^ 32 then some (false, b)
    else if fieldSize k v < 2 ^ 32 then some (true, b.push k v)
    else none

/-- An append adds one field, under the key that `HANDLE_KEY_LENGTH` lets
through and within the bound, or it adds nothing, or it has no result because
the field is larger than any document. -/
theorem bson_append_cases (b : BsonT) (key : Bytes) (v : Value) :
    (∃ k, HANDLE_KEY_LENGTH key = some k ∧ b.closed + fieldSize k v ≤ b.limit ∧
      bson_append b key v = some (true, b.push k v)) ∨
    bson_append b key v = some (false, b) ∨
    (∃ k, HANDLE_KEY_LENGTH key = some k ∧ 2 ^ 31 - 4 ≤ fieldSize k v ∧
      bson_append b key v = none) := by
  rw [bson_append]
  cases hk : HANDLE_KEY_LENGTH key with
  | none => exact Or.inr (Or.inl rfl)
  | some k =>
    simp only
    by_cases hints : ∀ n ∈ intSums k v, IsInt n
    · rw [if_neg (not_not_intro hints)]
      by_cases hlarge : b.limit < b.closed + fieldSize k v % 2 ^ 32
      · exact Or.inr (Or.inl (if_pos hlarge))
      rw [if_neg hlarge]
      by_cases hcount : fieldSize k v < 2 ^ 32
      · rw [Nat.mod_eq_of_lt hcount] at hlarge
        exact Or.inl ⟨k, rfl, Nat.le_of_not_lt hlarge, if_pos hcount⟩
      · exact Or.inr (Or.inr ⟨k, rfl, by omega, if_neg hcount⟩)
    · refine Or.inr (Or.inr ⟨k, rfl, ?_, if_pos hints⟩)
      by_contra hsmall
      exact hints fun n hn => isInt_of_mem_intSums (Nat.lt_of_not_le hsmall) hn

/-- An append with room for the field adds it. -/
theorem bson_append_of_room {b : BsonT} {key k : Bytes} {v : Value} (hb : b.limit ≤ BSON_MAX_SIZE)
    (hk : HANDLE_KEY_LENGTH key = some k) (hfits : b.closed + fieldSize k v ≤ b.limit) :
    bson_append b key v = some (true, b.push k v) := by
  have hclosed : 5 ≤ b.closed := by
    unfold BsonT.closed docSize
    omega
  unfold BSON_MAX_SIZE at hb
  have hsize : fieldSize k v < 2 ^ 31 - 4 := by omega
  have hcount : fieldSize k v < 2 ^ 32 := by omega
  simp only [bson_append, hk]
  rw [if_neg (not_not_intro fun n hn => isInt_of_mem_intSums hsize hn), Nat.mod_eq_of_lt hcount,
    if_neg (Nat.not_lt.mpr hfits), if_pos hcount]

theorem bson_append_of_fits {b : BsonT} {key : Bytes} {v : Value} (hb : b.limit ≤ BSON_MAX_SIZE)
    (hkey : NulFree key) (hlen : key.length < 2 ^ 31)
    (hfits : b.closed + fieldSize key v ≤ b.limit) :
    bson_append b key v = some (true, b.push key v) :=
  bson_append_of_room hb (HANDLE_KEY_LENGTH_of_nulFree hkey hlen) hfits

/-- An append of a field below the largest size has a result. -/
theorem exists_bson_append (b : BsonT) {key : Bytes} {v : Value}
    (hsize : ∀ k, HANDLE_KEY_LENGTH key = some k → fieldSize k v < 2 ^ 31 - 4) :
    ∃ ok b', bson_append b key v = some (ok, b') := by
  rcases bson_append_cases b key v with ⟨k, -, -, h⟩ | h | ⟨k, hk, hlarge, -⟩
  · exact ⟨_, _, h⟩
  · exact ⟨_, _, h⟩
  · exact absurd (hsize k hk) (Nat.not_lt.mpr hlarge)

/-- `bson_append_null`. -/
def bson_append_null (b : BsonT) (key : Bytes) : Option (Bool × BsonT) := bson_append b key .null

/-- `bson_append_bool`. -/
def bson_append_bool (b : BsonT) (key : Bytes) (v : Bool) : Option (Bool × BsonT) :=
  bson_append b key (.bool v)

/-- `bson_append_int32`. -/
def bson_append_int32 (b : BsonT) (key : Bytes) (v : Int32) : Option (Bool × BsonT) :=
  bson_append b key (.int32 v)

/-- `bson_append_int64`. -/
def bson_append_int64 (b : BsonT) (key : Bytes) (v : Int64) : Option (Bool × BsonT) :=
  bson_append b key (.int64 v)

/-- `bson_append_double`. -/
def bson_append_double (b : BsonT) (key : Bytes) (v : F64) : Option (Bool × BsonT) :=
  bson_append b key (.double v)

/-- `bson_append_utf8`.  The length of the text arrives as an `int`. -/
def bson_append_utf8 (b : BsonT) (key : Bytes) (s : Bytes) : Option (Bool × BsonT) :=
  bson_append b key (.utf8 (countedArg s))

/-- `bson_append_oid`. -/
def bson_append_oid (b : BsonT) (key : Bytes) (id : Oid) : Option (Bool × BsonT) :=
  bson_append b key (.oid id)

/-- `bson_append_decimal128`. -/
def bson_append_decimal128 (b : BsonT) (key : Bytes) (d : Decimal128) : Option (Bool × BsonT) :=
  bson_append b key (.decimal128 d)

/-- A 32-bit word in little-endian order. -/
def le32 (n : UInt32) : Bytes :=
  [n.toUInt8, (n >>> 8).toUInt8, (n >>> 16).toUInt8, (n >>> 24).toUInt8]

/-- `bson_append_binary`.  The length arrives as a `uint32_t`.  The subtype is
compared with the deprecated one before it is cut to a byte. -/
def bson_append_binary (b : BsonT) (key : Bytes) (subtype : UInt32) (data : Bytes) :
    Option (Bool × BsonT) :=
  let data := data.take (data.length % 2 ^ 32)
  if subtype = 2 then
    bson_append b key (.binary subtype.toUInt8 (le32 data.length.toUInt32 ++ data))
  else bson_append b key (.binary subtype.toUInt8 data)

/-- `bson_append_date_time`. -/
def bson_append_date_time (b : BsonT) (key : Bytes) (ms : Int64) : Option (Bool × BsonT) :=
  bson_append b key (.dateTime ms)

/-- The options that `BSON_REGEX_OPTIONS_SORTED` lists, in its order. -/
def sortedOptions (options : Bytes) : Bytes :=
  (bytes "ilmsux").filter (fun c => c ∈ options)

/-- `bson_append_regex`, on two C strings. -/
def bson_append_regex (b : BsonT) (key pattern options : Bytes) : Option (Bool × BsonT) :=
  bson_append b key (.regex (cutString pattern) (sortedOptions options))

/-- `bson_append_timestamp`. -/
def bson_append_timestamp (b : BsonT) (key : Bytes) (t i : UInt32) : Option (Bool × BsonT) :=
  bson_append b key (.timestamp t i)

/-- `bson_append_code`, on a C string.  Its length with the closing NUL is an
`int` and then a `uint32_t`, and when that cuts it the NUL is not written. -/
def bson_append_code (b : BsonT) (key source : Bytes) : Option (Bool × BsonT) :=
  bson_append b key (.code source)

/-- `bson_append_code_with_scope`, on a C string. -/
def bson_append_code_with_scope (b : BsonT) (key source : Bytes) (scope : Doc) :
    Option (Bool × BsonT) :=
  bson_append b key (.codewscope source scope)

/-- `bson_append_maxkey`. -/
def bson_append_maxkey (b : BsonT) (key : Bytes) : Option (Bool × BsonT) :=
  bson_append b key .maxkey

/-- `bson_append_minkey`. -/
def bson_append_minkey (b : BsonT) (key : Bytes) : Option (Bool × BsonT) :=
  bson_append b key .minkey

/-- `bson_append_document` and `bson_append_array` on a finished document. -/
def bson_append_document (b : BsonT) (key : Bytes) (d : Doc) : Option (Bool × BsonT) :=
  bson_append b key (.document d)

@[inherit_doc bson_append_document]
def bson_append_array (b : BsonT) (key : Bytes) (d : Doc) : Option (Bool × BsonT) :=
  bson_append b key (.array d)

/-- `bson_concat`: the fields of another document, all of them or none. -/
def bson_concat (b : BsonT) (src : Doc) : Bool × BsonT :=
  if src.isEmpty then (true, b)
  else if b.closed + fieldsSize src ≤ b.limit then (true, b.extend src) else (false, b)

/-! ## Child documents -/

/-- An empty document that will be a field of `b`: it shares the buffer, and
the parent and its own header are outer. -/
def BsonT.child (b : BsonT) (k : Bytes) : BsonT where
  limit := b.limit
  outer := b.closed + (1 + k.length + 1)
  fields := []

@[simp] theorem BsonT.child_limit (b : BsonT) (k : Bytes) : (b.child k).limit = b.limit := rfl

@[simp] theorem BsonT.child_fields (b : BsonT) (k : Bytes) : (b.child k).fields = [] := rfl

theorem BsonT.closed_child (b : BsonT) (k : Bytes) :
    (b.child k).closed = b.closed + (1 + k.length + 1 + 5) := by
  simp only [BsonT.child, BsonT.closed, docSize, fieldsSize_nil]
  omega

/-- `_bson_append_bson_begin`: the key that is written and the empty child, where the
sizes are counted without overflow.  The inner none is the return value `false`, and the
child is then not initialised.

The library writes the type and the key at once.  The model writes them in
`bson_append_end`: in between, only the child is reachable. -/
def bson_append_begin (b : BsonT) (key : Bytes) : Option (Option (Bytes × BsonT)) :=
  match HANDLE_KEY_LENGTH key with
  | none => some none
  | some k =>
    if ¬ IsInt (cInt k.length + 7) then none
    else if b.limit < b.closed + (1 + k.length + 1 + 5) % 2 ^ 32 then some none
    else if 1 + k.length + 1 + 5 < 2 ^ 32 then some (some (k, b.child k))
    else none

/-- `_bson_append_bson_end`: the child becomes the last field of its parent,
as an array or as a document. -/
def bson_append_end (b : BsonT) (asArray : Bool) (key : Bytes) (child : BsonT) : BsonT :=
  b.push key (if asArray then .array child.fields else .document child.fields)

/-- A begin call succeeds with a key that is let through and room for an empty
child. -/
theorem bson_append_begin_eq_some {b : BsonT} {key k : Bytes} {child : BsonT}
    (h : bson_append_begin b key = some (some (k, child))) :
    HANDLE_KEY_LENGTH key = some k ∧ b.closed + (1 + k.length + 1 + 5) ≤ b.limit ∧
      child = b.child k := by
  rw [bson_append_begin] at h
  cases hk : HANDLE_KEY_LENGTH key with
  | none => simp [hk] at h
  | some k' =>
    simp only [hk] at h
    split_ifs at h with hint hlarge hcount
    · simp at h
    · obtain ⟨rfl, rfl⟩ := Prod.mk.inj (Option.some.inj (Option.some.inj h))
      rw [Nat.mod_eq_of_lt hcount] at hlarge
      exact ⟨rfl, Nat.le_of_not_lt hlarge, rfl⟩

/-- A begin call with a good key and room for an empty child succeeds. -/
theorem bson_append_begin_of_fits {b : BsonT} {key : Bytes} (hb : b.limit ≤ BSON_MAX_SIZE)
    (hkey : NulFree key) (hlen : key.length < 2 ^ 31)
    (hfits : b.closed + (1 + key.length + 1 + 5) ≤ b.limit) :
    bson_append_begin b key = some (some (key, b.child key)) := by
  unfold BSON_MAX_SIZE at hb
  have hint : IsInt (cInt key.length + 7) := by
    rw [cInt_of_lt hlen, IsInt]
    omega
  have hcount : 1 + key.length + 1 + 5 < 2 ^ 32 := by omega
  simp only [bson_append_begin, HANDLE_KEY_LENGTH_of_nulFree hkey hlen]
  rw [if_neg (not_not_intro hint), Nat.mod_eq_of_lt hcount, if_neg (Nat.not_lt.mpr hfits),
    if_pos hcount]

end Vklib.Bson
