import Vklib.Base.Buffer
import Vklib.Base.PowerOfTwo
import Vklib.Bson.Data

/-!
# Writing into the buffer of a document

`bson.c`, one level below `Vklib.Bson.Writer`: the `bson_t` that holds its bytes.  A new
document lies in the 120 bytes of the `bson_t` itself and moves to an allocation when
it outgrows them.  A child document shares the allocation of its parent: it lies in it
from its `offset` on, and `depth` counts the documents around it, which need a byte
each for their closing NUL.

`buf` is `*buf`, the whole allocation, and its length is `*buflen`.  What `malloc` and
`realloc` leave in fresh memory is `fresh`.  A `bson_t` that is read-only is never
appended to, so that flag is left out, and so is a missing `realloc`, which only those
have.  An assertion that fails does not return.
-/

namespace Vklib.Bson

open Buffer

/-- `BSON_INLINE_DATA_SIZE`. -/
def BSON_INLINE_DATA_SIZE : Nat := 120

/-- `bson_next_power_of_two`.  No call is on zero. -/
def bson_next_power_of_two (v : Nat) : Nat := PowerOfTwo.roundUp v

/-- `bson_t`, less the pointers. -/
structure BsonImpl where
  /-- `BSON_FLAG_INLINE`. -/
  inline : Bool
  /-- `BSON_FLAG_CHILD`. -/
  child : Bool
  /-- `BSON_FLAG_IN_CHILD`. -/
  in_child : Bool
  len : Nat
  depth : Nat
  offset : Nat
  deriving DecidableEq, Repr

namespace BsonImpl

/-- `bson_init`: the buffer and the document. -/
def bson_init (fresh : Nat → UInt8) : Bytes × BsonImpl :=
  ([5, 0, 0, 0, 0] ++ (List.range (BSON_INLINE_DATA_SIZE - 5)).map fresh,
    { inline := true, child := false, in_child := false, len := 5, depth := 0, offset := 0 })

/-- Memory of `req` bytes that starts with `old`. -/
def resized (fresh : Nat → UInt8) (old : Bytes) (req : Nat) : Bytes :=
  old ++ (List.range (req - old.length)).map fresh

/-- `_bson_impl_inline_grow`: none is the return value `false`. -/
def _bson_impl_inline_grow (fresh : Nat → UInt8) (buf : Bytes) (b : BsonImpl) (size : Nat) :
    Option (Bytes × BsonImpl) :=
  if b.len + size ≤ BSON_INLINE_DATA_SIZE then some (buf, b)
  else
    let req := bson_next_power_of_two (b.len + size)
    if req ≤ BSON_MAX_SIZE then
      some (resized fresh (buf.take b.len) req, { b with inline := false, depth := 0, offset := 0 })
    else none

/-- `_bson_impl_alloc_grow`. -/
def _bson_impl_alloc_grow (fresh : Nat → UInt8) (buf : Bytes) (b : BsonImpl) (size : Nat) :
    Option (Bytes × BsonImpl) :=
  let req := b.offset + b.len + size + b.depth
  if req ≤ buf.length then some (buf, b)
  else
    let req := bson_next_power_of_two req
    if req ≤ BSON_MAX_SIZE then some (resized fresh buf req, b) else none

/-- `_bson_grow`. -/
def _bson_grow (fresh : Nat → UInt8) (buf : Bytes) (b : BsonImpl) (size : Nat) :
    Option (Bytes × BsonImpl) :=
  if b.inline then _bson_impl_inline_grow fresh buf b size
  else _bson_impl_alloc_grow fresh buf b size

/-- `_bson_data`, as an offset in the buffer. -/
def _bson_data (b : BsonImpl) : Nat := if b.inline then 0 else b.offset

section

variable {ε : Type}

/-- `_bson_encode_length`. -/
def _bson_encode_length (buf : Bytes) (b : BsonImpl) : Outcome ε Bytes :=
  store buf b._bson_data (le32 b.len.toUInt32)

/-- The loop of `_bson_append_va` over the pieces: the buffer and the place behind
them. -/
def appendPieces : Bytes → Nat → List Bytes → Outcome ε (Bytes × Nat)
  | buf, place, [] => .ok (buf, place)
  | buf, place, piece :: rest => do
    let buf ← store buf place piece
    appendPieces buf (place + piece.length) rest

/-- What an append function returns: its result, the buffer and the document. -/
abbrev Appended := Bool × Bytes × BsonImpl

/-- `_bson_append_va`. -/
def _bson_append_va (fresh : Nat → UInt8) (buf : Bytes) (b : BsonImpl) (n_bytes : Nat)
    (pieces : List Bytes) : Outcome ε Appended :=
  if b.in_child then .undefined
  else
    match _bson_grow fresh buf b n_bytes with
    | none => .ok (false, buf, b)
    | some (buf, b) => do
      let (buf, place) ← appendPieces buf (b._bson_data + b.len - 1) pieces
      let b := { b with len := (b.len + pieces.flatten.length) % 2 ^ 32 }
      let buf ← _bson_encode_length buf b
      let buf ← store buf place [0]
      .ok (true, buf, b)

/-- `_bson_append`. -/
def _bson_append (fresh : Nat → UInt8) (buf : Bytes) (b : BsonImpl) (n_bytes : Nat)
    (pieces : List Bytes) : Outcome ε Appended :=
  if n_bytes > BSON_MAX_SIZE - b.len then .ok (false, buf, b)
  else _bson_append_va fresh buf b n_bytes pieces

/-- `_bson_append_bson_begin`: the buffer and the parent, and the child unless the
return value is `false`. -/
def _bson_append_bson_begin (fresh : Nat → UInt8) (buf : Bytes) (b : BsonImpl) (key : Bytes)
    (child_type : UInt8) : Outcome ε (Bytes × BsonImpl × Option BsonImpl) :=
  if b.in_child then .undefined
  else
    match HANDLE_KEY_LENGTH key with
    | none => .ok (buf, b, none)
    | some k =>
      -- children are only made in allocated buffers
      if b.inline ∧ b.len > BSON_INLINE_DATA_SIZE then .undefined
      else
        match if b.inline then _bson_grow fresh buf b (128 - b.len) else some (buf, b) with
        | none => .ok (buf, b, none)
        | some (buf, b) =>
          if ¬ IsInt (cInt k.length + 7) then .undefined
          else do
            let (ok, buf, b) ← _bson_append fresh buf b ((1 + k.length + 1 + 5) % 2 ^ 32)
              [[child_type], k, [0], [5, 0, 0, 0, 0]]
            if ok then
              .ok (buf, { b with in_child := true },
                some
                  { inline := false, child := true, in_child := false, len := 5
                    depth := if b.child then b.depth + 1 else 1
                    offset := b.offset + b.len - 1 - 5 })
            else .ok (buf, b, none)

/-- `bson_append_document_begin`. -/
def bson_append_document_begin (fresh : Nat → UInt8) (buf : Bytes) (b : BsonImpl) (key : Bytes) :
    Outcome ε (Bytes × BsonImpl × Option BsonImpl) :=
  _bson_append_bson_begin fresh buf b key 0x03

/-- `bson_append_array_begin`. -/
def bson_append_array_begin (fresh : Nat → UInt8) (buf : Bytes) (b : BsonImpl) (key : Bytes) :
    Outcome ε (Bytes × BsonImpl × Option BsonImpl) :=
  _bson_append_bson_begin fresh buf b key 0x04

/-- `_bson_append_bson_end`, which both of `bson_append_document_end` and
`bson_append_array_end` are. -/
def _bson_append_bson_end (buf : Bytes) (b child : BsonImpl) : Outcome ε (Bytes × BsonImpl) :=
  if ¬ b.in_child ∨ child.in_child then .undefined
  else do
    let b := { b with in_child := false, len := (b.len + child.len - 5) % 2 ^ 32 }
    let buf ← store buf (b._bson_data + b.len - 1) [0]
    let buf ← _bson_encode_length buf b
    .ok (buf, b)

/-! ## The append functions -/

/-- What the append functions share: the test of the key, the sums that they make in `int`,
and type, key and NUL in front of the pieces, which are counted as `size` bytes. -/
def appendField (fresh : Nat → UInt8) (buf : Bytes) (b : BsonImpl) (key : Bytes) (type : UInt8)
    (sums : Bytes → List Int) (size : Nat) (pieces : List Bytes) : Outcome ε Appended :=
  match HANDLE_KEY_LENGTH key with
  | none => .ok (false, buf, b)
  | some k =>
    if ¬ ∀ n ∈ sums k, IsInt n then .undefined
    else
      _bson_append fresh buf b ((1 + k.length + 1 + size) % 2 ^ 32) ([type] :: k :: [0] :: pieces)

variable (fresh : Nat → UInt8) (buf : Bytes) (b : BsonImpl) (key : Bytes)

/-- A value of constant size, which is added up as an `int`. -/
def appendSized (type : UInt8) (value : Bytes) : Outcome ε Appended :=
  appendField fresh buf b key type (fun k => [cInt k.length + 2 + value.length]) value.length
    [value]

/-- `bson_append_null`. -/
def bson_append_null : Outcome ε Appended := appendSized fresh buf b key 0x0A []

/-- `bson_append_maxkey`. -/
def bson_append_maxkey : Outcome ε Appended := appendSized fresh buf b key 0x7F []

/-- `bson_append_minkey`. -/
def bson_append_minkey : Outcome ε Appended := appendSized fresh buf b key 0xFF []

/-- `bson_append_bool`. -/
def bson_append_bool (value : Bool) : Outcome ε Appended :=
  appendSized fresh buf b key 0x08 [if value then 1 else 0]

/-- `bson_append_int32`. -/
def bson_append_int32 (value : Int32) : Outcome ε Appended :=
  appendSized fresh buf b key 0x10 (le32 value.toUInt32)

/-- `bson_append_int64`. -/
def bson_append_int64 (value : Int64) : Outcome ε Appended :=
  appendSized fresh buf b key 0x12 (le64 value.toUInt64)

/-- `bson_append_double`. -/
def bson_append_double (value : F64) : Outcome ε Appended :=
  appendSized fresh buf b key 0x01 (le64 value.bits)

/-- `bson_append_decimal128`. -/
def bson_append_decimal128 (value : Decimal128) : Outcome ε Appended :=
  appendSized fresh buf b key 0x13 (le64 value.low ++ le64 value.high)

/-- `bson_append_date_time`. -/
def bson_append_date_time (value : Int64) : Outcome ε Appended :=
  appendSized fresh buf b key 0x09 (le64 value.toUInt64)

/-- `bson_append_timestamp`.  Both words are one number in the source, with the
increment in its low half. -/
def bson_append_timestamp (timestamp increment : UInt32) : Outcome ε Appended :=
  appendSized fresh buf b key 0x11 (le64 ((timestamp.toUInt64 <<< 32) ||| increment.toUInt64))

/-- `bson_append_oid`, on the 12 bytes at the address. -/
def bson_append_oid (value : Oid) : Outcome ε Appended := appendSized fresh buf b key 0x07 value

/-- `bson_append_utf8`.  The length arrives as an `int`, and a negative one is
counted. -/
def bson_append_utf8 (value : Bytes) : Outcome ε Appended :=
  let value := countedArg value
  let length := cInt value.length
  appendField fresh buf b key 0x02
    (fun k => [length + 1, cInt k.length + 6, cInt k.length + 6 + length,
      cInt k.length + 6 + length + 1])
    (4 + value.length + 1) [le32 (value.length + 1).toUInt32, value, [0]]

/-- `bson_append_binary`.  The length arrives as a `uint32_t`. -/
def bson_append_binary (subtype : UInt32) (binary : Bytes) : Outcome ε Appended :=
  let binary := binary.take (binary.length % 2 ^ 32)
  let length := binary.length
  if subtype = 2 then
    appendField fresh buf b key 0x05 (fun k => [cInt k.length + 11]) (4 + 1 + 4 + length)
      [le32 (length + 4).toUInt32, [subtype.toUInt8], le32 length.toUInt32, binary]
  else
    appendField fresh buf b key 0x05 (fun k => [cInt k.length + 7]) (4 + 1 + length)
      [le32 length.toUInt32, [subtype.toUInt8], binary]

/-- `bson_append_regex`, on two C strings.  The length of the first is an `int` and then
unsigned. -/
def bson_append_regex (regex options : Bytes) : Outcome ε Appended :=
  let regex := cutString regex
  let regex_length := cInt regex.length
  let options := sortedOptions options
  appendField fresh buf b key 0x0B
    (fun k => [cInt k.length + 2, cInt k.length + 2 + regex_length,
      cInt k.length + 2 + regex_length + 1])
    (regex.length + 1 + options.length + 1) [regex, [0], options ++ [0]]

/-- `bson_append_code`, on a C string.  Its length with the NUL is an `int` and then
unsigned. -/
def bson_append_code (javascript : Bytes) : Outcome ε Appended :=
  let length := (javascript.length + 1) % 2 ^ 32
  appendField fresh buf b key 0x0D (fun k => [cInt javascript.length + 1, cInt k.length + 6])
    (4 + length) [le32 length.toUInt32, (javascript ++ [0]).take length]

/-- `bson_append_code_with_scope`, on a C string and the bytes of a document. -/
def bson_append_code_with_scope (javascript scope : Bytes) : Outcome ε Appended :=
  let js_length := (javascript.length + 1) % 2 ^ 32
  let codews_length := 4 + 4 + js_length + scope.length
  appendField fresh buf b key 0x0F (fun k => [cInt javascript.length + 1, cInt k.length + 10])
    (4 + 4 + js_length + scope.length)
    [le32 codews_length.toUInt32, le32 js_length.toUInt32, (javascript ++ [0]).take js_length,
      scope]

/-- `bson_append_document`, on the bytes of a document. -/
def bson_append_document (value : Bytes) : Outcome ε Appended :=
  appendField fresh buf b key 0x03 (fun k => [cInt k.length + 2]) value.length [value]

/-- `bson_append_array`, on the bytes of a document.  It looks at the first key and
warns, but appends. -/
def bson_append_array (array : Bytes) : Outcome ε Appended :=
  appendField fresh buf b key 0x04 (fun k => [cInt k.length + 2]) array.length [array]

end

/-- `bson_concat`, on the bytes of a document. -/
def bson_concat {ε : Type} (fresh : Nat → UInt8) (buf : Bytes) (b : BsonImpl) (src : Bytes) :
    Outcome ε Appended := do
  -- `bson_empty`
  let first ← load src 4
  if src.length = 5 ∨ first = 0 then .ok (true, buf, b)
  else do
    let fields ← copy src 4 (src.length - 5)
    _bson_append fresh buf b (src.length - 5) [fields]

/-- `bson_reserve_buffer`: none is the null pointer. -/
def bson_reserve_buffer (fresh : Nat → UInt8) (buf : Bytes) (b : BsonImpl) (size : Nat) :
    Option (Bytes × BsonImpl) :=
  if b.child ∨ b.in_child then none
  else (_bson_grow fresh buf b size).map fun s => (s.1, { s.2 with len := size })

end BsonImpl

end Vklib.Bson
