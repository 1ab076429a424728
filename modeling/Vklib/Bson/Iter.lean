import Vklib.Base.Buffer
import Vklib.Bson.Data

/-!
# Iterating over the bytes of a document

`bson-iter.c`: the iterator that every reader of a document uses.  It holds the
buffer and offsets into it, all of type `uint32_t`, so that sums and differences
are taken modulo `2 ^ 32`.  `raw` is the allocation from the address of the
document on, which may be longer than `len`.

`_bson_iter_next_internal` is split along its `switch`: one function for every
group of types that share a case.  Their error path is the label `mark_invalid`.
An accessor that returns an address and a length in C returns the bytes there,
which its callers copy at once.
-/

namespace Vklib.Bson

open Buffer

/-- `bson_iter_t`. -/
structure Iter where
  /-- The buffer, none when it is null. -/
  raw : Option Bytes
  len : Nat
  off : Nat
  type : Nat
  key : Nat
  d1 : Nat
  d2 : Nat
  d3 : Nat
  d4 : Nat
  next_off : Nat
  err_off : Nat
  deriving DecidableEq, Repr

namespace Iter

/-- An iterator in front of the first field of a document. -/
def start (data : Bytes) (len : Nat) : Iter where
  raw := some data
  len := len
  off := 0
  type := 0
  key := 0
  d1 := 0
  d2 := 0
  d3 := 0
  d4 := 0
  next_off := 4
  err_off := 0

/-- The label `mark_invalid`. -/
def mark_invalid (it : Iter) : Iter := { it with raw := none, len := 0, next_off := 0 }

/-- A read through `raw`.  Through the null pointer it is undefined. -/
def deref {ε α : Type} (it : Iter) (read : Bytes → Outcome ε α) : Outcome ε α :=
  match it.raw with
  | none => .undefined
  | some data => read data

end Iter

/-- `bson_iter_init` on a `bson_t` of `len` bytes at `data`: none is the return
value `false`. -/
def bson_iter_init (data : Bytes) (len : Nat) : Option Iter :=
  if len < 5 then none else some (Iter.start data len)

/-- `bson_init_static`: the return value. -/
def bson_init_static {ε : Type} (data : Bytes) (length : Nat) : Outcome ε Bool :=
  if length < 5 ∨ length > BSON_MAX_SIZE then .ok false
  else do
    let len_le ← loadLe data 0 4
    if len_le ≠ length then .ok false
    else do
      let last ← load data (length - 1)
      .ok (last = 0)

/-! ## The next field -/

/-- A case of the `switch`.  It returns the iterator and the local `o`, or jumps to
`mark_invalid` with an error offset. -/
abbrev Case := Outcome Iter (Iter × Nat)

/-- `iter->err_off = e; goto mark_invalid`. -/
def invalidAt (it : Iter) (e : Nat) : Case := .error { it with err_off := e }

/-- The types whose values have a fixed size. -/
def nextFixed (it : Iter) (o size : Nat) : Case := .ok ({ it with next_off := add32 o size }, o)

/-- `BSON_TYPE_CODE`, `BSON_TYPE_SYMBOL`, `BSON_TYPE_UTF8`. -/
def nextString (it : Iter) (data : Bytes) (o : Nat) : Case :=
  if add32 o 4 ≥ it.len then invalidAt it o
  else do
    let it := { it with d2 := add32 o 4 }
    let l ← loadLe data it.d1 4
    if l > sub32 it.len (add32 o 4) then invalidAt it o
    else
      let it := { it with next_off := add32 (add32 o 4) l }
      if l = 0 ∨ it.next_off ≥ it.len then invalidAt it o
      else do
        let last ← load data (it.d2 + (l - 1))
        if last ≠ 0 then invalidAt it (sub32 (add32 (add32 o 4) l) 1) else .ok (it, o)

/-- `BSON_TYPE_BINARY`. -/
def nextBinary (it : Iter) (data : Bytes) (o : Nat) : Case :=
  if o ≥ sub32 it.len 4 then invalidAt it o
  else do
    let it := { it with d2 := add32 o 4, d3 := add32 o 5 }
    let l ← loadLe data it.d1 4
    if l ≥ sub32 (sub32 it.len o) 4 then invalidAt it o
    else do
      let subtype ← load data it.d2
      if subtype = 2 then
        if l < 4 then invalidAt it o
        else do
          let binary_len ← loadLe data it.d3 4
          -- the sum is one of `int32_t`
          if 2 ^ 31 - 4 ≤ binary_len ∧ binary_len < 2 ^ 31 then .undefined
          else if add32 binary_len 4 ≠ l then invalidAt it it.d3
          else .ok ({ it with next_off := add32 (add32 o 5) l }, o)
      else .ok ({ it with next_off := add32 (add32 o 5) l }, o)

/-- `BSON_TYPE_ARRAY`, `BSON_TYPE_DOCUMENT`. -/
def nextDocument (it : Iter) (data : Bytes) (o : Nat) : Case :=
  if o ≥ sub32 it.len 4 then invalidAt it o
  else do
    let l ← loadLe data it.d1 4
    if l > it.len ∨ l > sub32 it.len o then invalidAt it o
    else .ok ({ it with next_off := add32 o l }, o)

/-- `BSON_TYPE_BOOL`. -/
def nextBool (it : Iter) (data : Bytes) (o : Nat) : Case :=
  if it.d1 ≥ it.len then invalidAt it o
  else do
    let val ← load data it.d1
    if val ≠ 0 ∧ val ≠ 1 then invalidAt it o
    else .ok ({ it with next_off := add32 o 1 }, o)

/-- `BSON_TYPE_REGEX`.  The loops leave `o` at the second NUL. -/
def nextRegex (it : Iter) (data : Bytes) (o : Nat) : Case := do
  match ← findNul data (it.len - o) o with
  | none => invalidAt it it.next_off
  | some p =>
    let o := add32 p 1
    let it := { it with d2 := o }
    match ← findNul data (it.len - o) o with
    | none => invalidAt it it.next_off
    | some o => .ok ({ it with next_off := add32 o 1 }, o)

/-- `BSON_TYPE_DBPOINTER`. -/
def nextDbpointer (it : Iter) (data : Bytes) (o : Nat) : Case :=
  if o ≥ sub32 it.len 4 then invalidAt it o
  else do
    let it := { it with d2 := add32 o 4 }
    let l ← loadLe data it.d1 4
    if l = 0 ∨ l > sub32 (sub32 it.len o) 4 then invalidAt it o
    else do
      let last ← load data (o + l + 3)
      if last ≠ 0 then invalidAt it (add32 (add32 o l) 3)
      else
        .ok ({ it with d3 := add32 (add32 o 4) l, next_off := add32 (add32 (add32 o 4) l) 12 }, o)

/-- `BSON_TYPE_CODEWSCOPE`. -/
def nextCodewscope (it : Iter) (data : Bytes) (o : Nat) : Case :=
  if it.len < 19 ∨ o ≥ sub32 it.len 14 then invalidAt it o
  else do
    let it := { it with d2 := add32 o 4, d3 := add32 o 8 }
    let l ← loadLe data it.d1 4
    if l < 14 ∨ l ≥ sub32 it.len o then invalidAt it o
    else
      let it := { it with next_off := add32 o l }
      if it.next_off ≥ it.len then invalidAt it o
      else do
        let l ← loadLe data it.d2 4
        if l = 0 ∨ l ≥ sub32 (sub32 (sub32 it.len o) 4) 4 then invalidAt it o
        else if add32 (add32 (add32 (add32 o 4) 4) l) 4 ≥ it.next_off then
          invalidAt it (add32 o 4)
        else do
          let it := { it with d4 := add32 (add32 (add32 o 4) 4) l }
          let doclen ← loadLe data it.d4 4
          if add32 (add32 (add32 (add32 o 4) 4) l) doclen ≠ it.next_off then
            invalidAt it (add32 (add32 (add32 o 4) 4) l)
          else .ok (it, o)

/-- The cases of the `switch` on the type. -/
inductive Layout where
  | fixed (size : Nat)
  | string
  | binary
  | document
  | bool
  | regex
  | dbpointer
  | codewscope
  | eod
  | unsupported
  deriving DecidableEq, Repr

/-- The case of a type byte. -/
def layout (bson_type : UInt8) : Layout :=
  match bson_type.toNat with
  | 0x09 | 0x01 | 0x12 | 0x11 => .fixed 8
  | 0x0D | 0x0E | 0x02 => .string
  | 0x05 => .binary
  | 0x04 | 0x03 => .document
  | 0x07 => .fixed 12
  | 0x08 => .bool
  | 0x0B => .regex
  | 0x0C => .dbpointer
  | 0x0F => .codewscope
  | 0x10 => .fixed 4
  | 0x13 => .fixed 16
  | 0x7F | 0xFF | 0x0A | 0x06 => .fixed 0
  | 0x00 => .eod
  | _ => .unsupported

/-- The `switch` of `_bson_iter_next_internal`. -/
def nextCase (it : Iter) (data : Bytes) (o : Nat) : Layout → Case
  | .fixed size => nextFixed it o size
  | .string => nextString it data o
  | .binary => nextBinary it data o
  | .document => nextDocument it data o
  | .bool => nextBool it data o
  | .regex => nextRegex it data o
  | .dbpointer => nextDbpointer it data o
  | .codewscope => nextCodewscope it data o
  | .eod | .unsupported => invalidAt it o

/-- What `_bson_iter_next_internal` returns: a field and its type, or `false`
with the flag `unsupported`. -/
inductive Next where
  | field (it : Iter) (bson_type : UInt8)
  | stop (it : Iter) (unsupported : Bool)
  deriving DecidableEq, Repr

/-- The end of `_bson_iter_next_internal`, from behind the `switch` on. -/
def finishNext {ε : Type} (bson_type : UInt8) : Case → Outcome ε Next
  | .ok (it, o) =>
    if it.next_off ≥ it.len then .ok (.stop { it with err_off := o }.mark_invalid false)
    else .ok (.field { it with err_off := 0 } bson_type)
  | .error it => .ok (.stop it.mark_invalid (layout bson_type = .unsupported))
  | .undefined => .undefined
  | .outOfFuel => .outOfFuel

/-- `_bson_iter_next_internal` without a known length of the key. -/
def _bson_iter_next_internal {ε : Type} (it : Iter) : Outcome ε Next :=
  match it.raw with
  | none => .ok (.stop it false)
  | some data => do
    let it := { it with
      off := it.next_off, type := it.next_off, key := add32 it.next_off 1
      d1 := 0, d2 := 0, d3 := 0, d4 := 0 }
    match ← findNul data (it.len - it.key) it.key with
    | none => .ok (.stop it.mark_invalid false)
    | some p =>
      let o := add32 p 1
      let it := { it with d1 := o }
      let bson_type ← load data it.type
      finishNext bson_type (nextCase it data o (layout bson_type))

/-- `bson_iter_next`: the return value and the iterator. -/
def bson_iter_next {ε : Type} (it : Iter) : Outcome ε (Bool × Iter) := do
  match ← _bson_iter_next_internal it with
  | .field it _ => .ok (true, it)
  | .stop it _ => .ok (false, it)

/-! ## The current field -/

section

variable {ε : Type}

/-- `ITER_TYPE`, and `bson_iter_type`. -/
def bson_iter_type (it : Iter) : Outcome ε UInt8 := it.deref fun data => load data it.type

/-- `bson_iter_key`. -/
def bson_iter_key (it : Iter) : Outcome ε Bytes := it.deref fun data => text data it.key

/-- `bson_iter_key_len`.  Its assertion does not return. -/
def bson_iter_key_len (it : Iter) : Outcome ε Nat :=
  if it.d1 > it.key then .ok (it.d1 - it.key - 1) else .undefined

/-- The `bson_iter_key_len` bytes at `bson_iter_key`. -/
def keyBytes (it : Iter) : Outcome ε Bytes := do
  let len ← bson_iter_key_len it
  it.deref fun data => copy data it.key len

/-- A read that is done when the field is of one of the types, and none
otherwise, where C answers with zero or a null pointer. -/
def whenType {α : Type} (it : Iter) (types : List UInt8) (read : Bytes → Outcome ε α) :
    Outcome ε (Option α) := do
  let t ← bson_iter_type it
  if t ∈ types then do
    let x ← it.deref read
    .ok (some x)
  else .ok none

/-- `bson_iter_bool`. -/
def bson_iter_bool (it : Iter) : Outcome ε (Option Bool) :=
  whenType it [0x08] fun data => do
    let val ← load data it.d1
    .ok (val ≠ 0)

/-- The 64-bit word at `d1`. -/
def word64 (it : Iter) (data : Bytes) : Outcome ε UInt64 := do
  let n ← loadLe data it.d1 8
  .ok (.ofNat n)

/-- `bson_iter_double`. -/
def bson_iter_double (it : Iter) : Outcome ε (Option F64) :=
  whenType it [0x01] fun data => do
    let x ← word64 it data
    .ok ⟨x⟩

/-- `bson_iter_int32`. -/
def bson_iter_int32 (it : Iter) : Outcome ε (Option Int32) :=
  whenType it [0x10] fun data => do
    let n ← loadLe data it.d1 4
    .ok (UInt32.ofNat n).toInt32

/-- `bson_iter_int64`. -/
def bson_iter_int64 (it : Iter) : Outcome ε (Option Int64) :=
  whenType it [0x12] fun data => do
    let x ← word64 it data
    .ok x.toInt64

/-- `bson_iter_date_time`. -/
def bson_iter_date_time (it : Iter) : Outcome ε (Option Int64) :=
  whenType it [0x09] fun data => do
    let x ← word64 it data
    .ok x.toInt64

/-- `bson_iter_timestamp`: the timestamp and the increment. -/
def bson_iter_timestamp (it : Iter) : Outcome ε (Option (UInt32 × UInt32)) :=
  whenType it [0x11] fun data => do
    let x ← word64 it data
    .ok ((x >>> 32).toUInt32, x.toUInt32)

/-- `bson_iter_decimal128`. -/
def bson_iter_decimal128 (it : Iter) : Outcome ε (Option Decimal128) :=
  whenType it [0x13] fun data => do
    let low ← loadLe data it.d1 8
    let high ← loadLe data (it.d1 + 8) 8
    .ok ⟨.ofNat low, .ofNat high⟩

/-- `bson_iter_oid`: the bytes at the address that it returns. -/
def bson_iter_oid (it : Iter) : Outcome ε (Option Oid) :=
  whenType it [0x07] fun data => copy data it.d1 12

/-- `bson_iter_utf8_len_unsafe`: the length word less the NUL, as an `int32_t`
and not below zero. -/
def bson_iter_utf8_len_unsafe (it : Iter) (data : Bytes) : Outcome ε Nat := do
  let l ← loadLe data it.d1 4
  .ok ((UInt32.ofNat l).toInt32.toInt - 1).toNat

/-- The text of a string type. -/
def stringText (it : Iter) (type : UInt8) : Outcome ε (Option Bytes) :=
  whenType it [type] fun data => do
    let length ← bson_iter_utf8_len_unsafe it data
    copy data it.d2 length

/-- `bson_iter_utf8`. -/
def bson_iter_utf8 (it : Iter) : Outcome ε (Option Bytes) := stringText it 0x02

/-- `bson_iter_code`. -/
def bson_iter_code (it : Iter) : Outcome ε (Option Bytes) := stringText it 0x0D

/-- `bson_iter_symbol`. -/
def bson_iter_symbol (it : Iter) : Outcome ε (Option Bytes) := stringText it 0x0E

/-- `bson_iter_binary`: the subtype and the payload, behind the second length
word of the deprecated subtype. -/
def bson_iter_binary (it : Iter) : Outcome ε (Option (UInt8 × Bytes)) :=
  whenType it [0x05] fun data => do
    let subtype ← load data it.d2
    let binary_len ← loadLe data it.d1 4
    let payload ←
      if subtype = 2 then copy data (it.d3 + 4) (sub32 binary_len 4)
      else copy data it.d3 binary_len
    .ok (subtype, payload)

/-- The length and the address of a document. -/
def documentAt (it : Iter) (type : UInt8) : Outcome ε (Option (Nat × Bytes)) :=
  whenType it [type] fun data => do
    let len ← loadLe data it.d1 4
    .ok (len, data.drop it.d1)

/-- `bson_iter_document`. -/
def bson_iter_document (it : Iter) : Outcome ε (Option (Nat × Bytes)) := documentAt it 0x03

/-- `bson_iter_array`. -/
def bson_iter_array (it : Iter) : Outcome ε (Option (Nat × Bytes)) := documentAt it 0x04

/-- `bson_iter_recurse`: none is the return value `false`. -/
def bson_iter_recurse (it : Iter) : Outcome ε (Option Iter) := do
  let t ← bson_iter_type it
  if t = 0x03 then do
    let doc ← bson_iter_document it
    .ok (doc.map fun d => Iter.start d.2 d.1)
  else if t = 0x04 then do
    let doc ← bson_iter_array it
    .ok (doc.map fun d => Iter.start d.2 d.1)
  else .ok none

/-- `bson_iter_regex`: the pattern and the options. -/
def bson_iter_regex (it : Iter) : Outcome ε (Option (Bytes × Bytes)) :=
  whenType it [0x0B] fun data => do
    let pattern ← text data it.d1
    let options ← text data it.d2
    .ok (pattern, options)

/-- `bson_iter_dbpointer`: the collection and the object id. -/
def bson_iter_dbpointer (it : Iter) : Outcome ε (Option (Bytes × Oid)) :=
  whenType it [0x0C] fun data => do
    let collection_len ← loadLe data it.d1 4
    let collection ← copy data it.d2 (collection_len - 1)
    let id ← copy data it.d3 12
    .ok (collection, id)

/-- `bson_iter_codewscope`: the code, and the length and the address of the
scope.  Its assertion does not return. -/
def bson_iter_codewscope (it : Iter) : Outcome ε (Option (Bytes × Nat × Bytes)) :=
  whenType it [0x0F] fun data => do
    let len ← loadLe data it.d2 4
    if len = 0 then .undefined
    else do
      let code ← copy data it.d3 (len - 1)
      let scope_len ← loadLe data it.d4 4
      .ok (code, scope_len, data.drop it.d4)

/-- `bson_value_t` of a field, with documents as their lengths and addresses. -/
inductive RawValue where
  | double (x : F64)
  | utf8 (s : Bytes)
  | document (len : Nat) (data : Bytes)
  | array (len : Nat) (data : Bytes)
  | binary (subtype : UInt8) (payload : Bytes)
  | undefined
  | oid (id : Oid)
  | bool (b : Bool)
  | dateTime (ms : Int64)
  | null
  | regex (pattern options : Bytes)
  | dbpointer (collection : Bytes) (id : Oid)
  | code (source : Bytes)
  | symbol (s : Bytes)
  | codewscope (source : Bytes) (scope_len : Nat) (scope : Bytes)
  | int32 (i : Int32)
  | timestamp (t i : UInt32)
  | int64 (i : Int64)
  | decimal128 (d : Decimal128)
  | maxkey
  | minkey
  deriving DecidableEq, Repr

/-- `bson_iter_value`: none is the null pointer. -/
def bson_iter_value (it : Iter) : Outcome ε (Option RawValue) := do
  let value_type ← bson_iter_type it
  let boxed {α : Type} (read : Outcome ε (Option α)) (box : α → RawValue) :
      Outcome ε (Option RawValue) := do
    let x ← read
    .ok (x.map box)
  match value_type.toNat with
  | 0x01 => boxed (bson_iter_double it) .double
  | 0x02 => boxed (bson_iter_utf8 it) .utf8
  | 0x03 => boxed (bson_iter_document it) fun d => .document d.1 d.2
  | 0x04 => boxed (bson_iter_array it) fun d => .array d.1 d.2
  | 0x05 => boxed (bson_iter_binary it) fun d => .binary d.1 d.2
  | 0x07 => boxed (bson_iter_oid it) .oid
  | 0x08 => boxed (bson_iter_bool it) .bool
  | 0x09 => boxed (bson_iter_date_time it) .dateTime
  | 0x0B => boxed (bson_iter_regex it) fun d => .regex d.1 d.2
  | 0x0C => boxed (bson_iter_dbpointer it) fun d => .dbpointer d.1 d.2
  | 0x0D => boxed (bson_iter_code it) .code
  | 0x0E => boxed (bson_iter_symbol it) .symbol
  | 0x0F => boxed (bson_iter_codewscope it) fun d => .codewscope d.1 d.2.1 d.2.2
  | 0x10 => boxed (bson_iter_int32 it) .int32
  | 0x11 => boxed (bson_iter_timestamp it) fun d => .timestamp d.1 d.2
  | 0x12 => boxed (bson_iter_int64 it) .int64
  | 0x13 => boxed (bson_iter_decimal128 it) .decimal128
  | 0x0A => .ok (some .null)
  | 0x06 => .ok (some .undefined)
  | 0x7F => .ok (some .maxkey)
  | 0xFF => .ok (some .minkey)
  | _ => .ok none

end

end Vklib.Bson
