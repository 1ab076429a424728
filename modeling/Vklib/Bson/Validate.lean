import Vklib.Bson.Reader
import Vklib.Bson.Utf8

/-!
# Validating a document

`bson_validate_with_error` with `BSON_VALIDATE_NONE`, which `initBSON` asks before it
takes a string for a document: `bson_iter_visit_all` with the visitors of
`bson_validate_funcs`.  Without flags the visitors of keys and texts let everything
through, and the phases decide nothing.

The check is not strict: a text that is not UTF-8 ends it and reports nothing, so does
a code with scope whose scope passes, and an embedded document that fails
`bson_init_static` is left out.
-/

namespace Vklib.Bson

open Buffer

/-- `bson_validate_state_t` without flags.  No `err_offset` stands for `-1`. -/
structure ValidateState where
  err_offset : Option Nat
  error : Bytes
  deriving DecidableEq, Repr

/-- The state that `_bson_validate_internal` starts with. -/
def ValidateState.init : ValidateState where
  err_offset := none
  error := []

/-- `_bson_iter_validate_corrupt`. -/
def _bson_iter_validate_corrupt (it : Iter) : ValidateState where
  err_offset := some it.err_off
  error := bytes "corrupt BSON"

/-- What a visitor and the loop around it return: whether to stop, and the state. -/
abbrev Visit := Bool × ValidateState

section

variable {ε : Type}

/-- The test of a text in `bson_iter_visit_all`.  The visitor of texts answers
`false` without flags, and the others are null.  The assertion of
`bson_utf8_validate` on a null pointer does not return. -/
def visitText (state : ValidateState) (read : Outcome ε (Option Bytes)) : Outcome ε Visit := do
  match ← read with
  | none => .undefined
  | some s => do
    let valid ← bson_utf8_validate s true
    .ok (!valid, state)

/-- `_bson_iter_validate_document` on the document of `len` bytes at `data`, for a
field at `off`. -/
def _bson_iter_validate_document (visit : Iter → ValidateState → Outcome ε Visit) (off : Nat)
    (data : Bytes) (len : Nat) (state : ValidateState) : Outcome ε Visit :=
  match bson_iter_init data len with
  | none => .ok (true, { state with err_offset := some off })
  | some child => do
    let (_, state) ← visit child state
    .ok (false, state)

/-- `_bson_validate_internal`. -/
def _bson_validate_internal (visit : Iter → ValidateState → Outcome ε Visit) (data : Bytes)
    (len : Nat) : Outcome ε ValidateState :=
  match bson_iter_init data len with
  | none => .ok ⟨some 0, bytes "corrupt BSON"⟩
  | some it => do
    let (_, state) ← _bson_iter_validate_document visit it.off data len .init
    .ok state

/-- `_bson_iter_validate_codewscope`. -/
def _bson_iter_validate_codewscope (visit : Iter → ValidateState → Outcome ε Visit) (off : Nat)
    (scope : Bytes) (scope_len : Nat) (state : ValidateState) : Outcome ε Visit := do
  let nested ← _bson_validate_internal visit scope scope_len
  match nested.err_offset with
  | some offset => .ok (false, ⟨some (off + offset), bytes "corrupt code-with-scope"⟩)
  | none => .ok (true, state)

/-- A document of a field, if it passes `bson_init_static`. -/
def visitDocument (visit : Iter → ValidateState → Outcome ε Visit) (off : Nat) (state : ValidateState)
    (read : Outcome ε (Option (Nat × Bytes))) : Outcome ε Visit := do
  match ← read with
  | none => .undefined
  | some (doclen, docbuf) => do
    let ok ← bson_init_static docbuf doclen
    if ok then _bson_iter_validate_document visit off docbuf doclen state else .ok (false, state)

/-- The text of a field that `bson_iter_visit_all` tests, but for the code of a code
with scope: the value of a string type, a pattern, or the collection of a pointer. -/
def fieldText (bson_type : UInt8) (it : Iter) : Outcome ε (Option Bytes) :=
  match bson_type.toNat with
  | 0x02 => bson_iter_utf8 it
  | 0x0B => do
    let regex ← bson_iter_regex it
    .ok (regex.map Prod.fst)
  | 0x0C => do
    let dbpointer ← bson_iter_dbpointer it
    .ok (dbpointer.map Prod.fst)
  | 0x0D => bson_iter_code it
  | 0x0E => bson_iter_symbol it
  | _ => .ok none

/-- The `switch` of `bson_iter_visit_all`. -/
def visitField (visit : Iter → ValidateState → Outcome ε Visit) (bson_type : UInt8) (it : Iter)
    (state : ValidateState) : Outcome ε Visit :=
  match bson_type.toNat with
  | 0x02 | 0x0B | 0x0C | 0x0D | 0x0E => visitText state (fieldText bson_type it)
  | 0x03 => visitDocument visit it.off state (bson_iter_document it)
  | 0x04 => visitDocument visit it.off state (bson_iter_array it)
  | 0x05 => do
    let _ ← bson_iter_binary it
    .ok (false, state)
  | 0x0F => do
    match ← bson_iter_codewscope it with
    | none => .undefined
    | some (code, doclen, docbuf) => do
      let valid ← bson_utf8_validate code true
      if valid then do
        let ok ← bson_init_static docbuf doclen
        if ok then _bson_iter_validate_codewscope visit it.off docbuf doclen state
        else .ok (false, state)
      else .ok (true, state)
  | 0x11 => do
    let _ ← bson_iter_timestamp it
    .ok (false, state)
  | 0x13 => do
    let _ ← bson_iter_decimal128 it
    .ok (false, state)
  | _ => .ok (false, state)

/-- Behind the loop of `bson_iter_visit_all`. -/
def visitEnd (it : Iter) (state : ValidateState) : Outcome ε Visit :=
  if it.err_off ≠ 0 then .ok (false, _bson_iter_validate_corrupt it) else .ok (false, state)

/-- The test of a key in `bson_iter_visit_all`. -/
def visitKey (key : Bytes) : Outcome ε Bool :=
  if key = [] then .ok true else bson_utf8_validate key false

/-- `bson_iter_visit_all` with `bson_validate_funcs` and no flags.  Every field and
every nested document takes one unit of fuel. -/
def bson_iter_visit_all : Nat → Iter → ValidateState → Outcome ε Visit
  | 0, _, _ => .outOfFuel
  | fuel + 1, it, state => do
    match ← _bson_iter_next_internal it with
    | .stop it _ => visitEnd it state
    | .field it bson_type => do
      let key ← bson_iter_key it
      let valid ← visitKey key
      if ¬ valid then visitEnd { it with err_off := it.off } state
      else do
        let (stop, state) ← visitField (bson_iter_visit_all fuel) bson_type it state
        if stop then .ok (true, state) else bson_iter_visit_all fuel it state

/-- `bson_validate_with_error`: the return value and the message, none when the
error is left as it was. -/
def bson_validate_with_error (data : Bytes) (len : Nat) : Outcome ε (Bool × Option Bytes) := do
  let state ← _bson_validate_internal (bson_iter_visit_all (len + 1)) data len
  match state.err_offset with
  | none => .ok (true, none)
  | some e => .ok (false, if e > 0 then some state.error else none)

end

end Vklib.Bson
