import Vklib.Lua.Stack
import Vklib.Mongo.Encode

/-!
# The encoder on the Lua stack

`Encode` carries the texts of a failure as a list.  The source has no such list:
`error` leaves each text on the Lua stack, below the texts of the inner levels,
and counts them in `*nerr`, and the levels return without taking down what else
they had pushed.  Here the functions are written once more with the stack.

A slot says what it was pushed for.  A message is pushed by `error` only, so
that a stray value cannot pass for one.

`simulates_appendTable` is the invariant: at every level, whatever the level had
on the stack, the topmost `*nerr` slots are the messages, and below them is what
the level left and then the stack of the caller, untouched.  `Encode` is right
about the rest.
-/

namespace Vklib.Mongo.OnStack

open Vklib.Lua Vklib.Bson

/-! ## Frames -/

/-- What a slot holds. -/
inductive Item where
  | value (v : LVal)
  /-- A key that `lua_next` pushed. -/
  | key (k : Key)
  /-- A text that `error` pushed. -/
  | message (text : Bytes)

/-- The state of an encoder, with the stack. -/
structure Frame where
  /-- From the top down. -/
  stack : List Item
  enc : Enc
  /-- `*nerr`. -/
  nerr : Nat

namespace Frame

/-- `lua_gettop`. -/
def top (s : Frame) : Nat := s.stack.length

def push (s : Frame) (item : Item) : Frame := { s with stack := item :: s.stack }

/-- `lua_pop`. -/
def pop (s : Frame) (n : Nat) : Frame := { s with stack := s.stack.drop n }

/-- The value at an index.  What is not there is treated like nil by all that
the encoder does with it. -/
def value (s : Frame) (idx : Nat) : LVal :=
  match slot s.stack idx with
  | some (.value v) => v
  | _ => .nil

end Frame

/-- How an encoder stops: it returns false, or a Lua error is raised past it. -/
inductive Failure where
  | returned (s : Frame)
  | raised (e : LuaError)
  /-- The error of `luaL_checkstack` that `error` raises, over the frame `s`. -/
  | overflow (s : Frame)

/-- The error of `luaL_checkstack` without a message. -/
def stackOverflow : LuaError := .text "stack overflow"

variable {α : Type}

/-- `error`: the text goes on top, and from there below the texts of the inner
levels. -/
def error (s : Frame) (text : Bytes) : Outcome Failure α :=
  if checkstack s.top 1 then
    .error (.returned { s with
      stack := insertAt (.message text :: s.stack) (s.nerr + 1)
      nerr := s.nerr + 1 })
  else .error (.overflow s)

/-- A level returns `error` when the call that it makes returned false. -/
def orError (x : Outcome Failure α) (text : Bytes) : Outcome Failure α :=
  match x with
  | .error (.returned s) => error s text
  | x => x

/-! ## Typed values -/

/-- `unpackParams`. -/
def unpackParams (s : Frame) (t : Table Host) : Outcome Failure Frame :=
  if checkstack s.top (LUA_MINSTACK + t.rawlen) then
    .ok { s with stack :=
      ((List.range t.rawlen).map fun i : Nat => Item.value (t.get (.int (i + 1)))).reverse ++
        s.stack }
  else .error (.raised (.text "stack overflow (too many parameters)"))

/-- Append through libbson, as `appendTo` does, where nothing is pushed. -/
def appendInto {ε : Type} (b : Target) (f : BsonT → Option (Bool × BsonT)) : Outcome ε Target :=
  match b with
  | none => .undefined
  | some b => (f b).elim .undefined fun appended => .ok (some appended.2)

/-- The `switch` of `appendBSONType` on the first two parameters.  An error is
the jump to its label. -/
def appendParams (E : Env) (type : UInt32) (p₁ p₂ : LVal) (b : Target) (key : Bytes) :
    Outcome Unit Target :=
  match type.toNat with
  | 0x10 => appendInto b (bson_append_int32 · key (tointeger E p₁).toInt32)
  | 0x12 => appendInto b (bson_append_int64 · key (tointeger E p₁))
  | 0x01 => appendInto b (bson_append_double · key (tonumber E p₁))
  | 0x13 =>
    match (tolstring E p₁).bind (fun s => E.bson_decimal128_from_string (cString s)) with
    | none => .error ()
    | some d => appendInto b (bson_append_decimal128 · key d)
  | 0x05 =>
    match tolstring E p₁ with
    | none => .error ()
    | some s =>
      appendInto b (bson_append_binary · key (tointeger E p₂).toUInt64.toUInt32 s)
  | 0x09 => appendInto b (bson_append_date_time · key (tointeger E p₁))
  | 0x0B =>
    match tolstring E p₁ with
    -- `strlen` of a null pattern, behind the test of the key
    | none =>
      if (HANDLE_KEY_LENGTH key).isSome then .undefined
      else appendInto b (fun b => some (false, b))
    | some s =>
      appendInto b (bson_append_regex · key (cString s) (cString ((tolstring E p₂).getD [])))
  | 0x11 =>
    appendInto b (bson_append_timestamp · key (tointeger E p₁).toUInt64.toUInt32
      (tointeger E p₂).toUInt64.toUInt32)
  | 0x0D =>
    match tolstring E p₁ with
    | none => .error ()
    | some source =>
      match p₂ with
      | .host (.bson scope) =>
        appendInto b (bson_append_code_with_scope · key (cString source) scope)
      | _ => appendInto b (bson_append_code · key (cString source))
  | 0x7F => appendInto b (bson_append_maxkey · key)
  | 0xFF => appendInto b (bson_append_minkey · key)
  | 0x0A => appendInto b (bson_append_null · key)
  | _ => .error ()

/-- `appendBSONType`.  A failure leaves the parameters. -/
def appendBSONType (E : Env) (s : Frame) (type : UInt32) (idx : Nat) (b : Target) (key : Bytes) :
    Outcome Failure (Frame × Target) :=
  match s.value idx with
  | .table r => do
    let full ← unpackParams s (s.enc.heap.get r)
    match appendParams E type (full.value (s.top + 1)) (full.value (s.top + 2)) b key with
    | .ok b => .ok ({ full with stack := settop full.stack s.top }, b)
    | .error _ =>
      error full (bytes "invalid parameters for BSON type " ++ fmtInt (cInt type.toNat))
    | .undefined => .undefined
    | .outOfFuel => .outOfFuel
  | _ => .undefined

/-! ## Values and tables -/

/-- The error object that `lua_pcall` leaves.  `lua_tostring` turns a number in
its slot into a text. -/
def errorObject (E : Env) : LuaError → LVal
  | .object v =>
    match tolstring E v with
    | some s => .str s
    | none => v
  | e => .str (errorText E e)

/-- The first step of `appendValue`.  A failure leaves the error object. -/
def transform (E : Env) (s : Frame) (idx : Nat) : Outcome Failure Frame :=
  match s.enc.heap.getmetafield (s.value idx) (bytes "__toBSON") with
  | .nil => .ok s
  | f =>
    match E.call s.enc.heap f [s.value idx] with
    | (new, .ok v) =>
      .ok { s with
        stack := replace (.value v :: s.stack) idx
        enc := { s.enc with heap := s.enc.heap ++ new } }
    | (_, .error e) => error (s.push (.value (errorObject E e))) (errorText E e)

/-- The type of `appendTable`: frame, index of the table, document, length. -/
abbrev AppendTable :=
  Frame → Nat → Target → Int → Outcome Failure (Frame × Target)

/-- The table case of `appendValue`, for a table without `__type`. -/
def appendNested (E : Env) (table : AppendTable) (s : Frame) (idx : Nat) (r : Ref) (b : Target)
    (key : Bytes) : Outcome Failure (Frame × Target) :=
  match getArrayLength E s.enc.heap r with
  | .error e => .error (.raised e)
  | .ok len =>
    match b with
    | none => .undefined
    | some parent =>
      match bson_append_begin parent key with
      | none => .undefined
      | some none => do
        let _ ← table s idx none len
        .undefined
      | some (some (k, child)) => do
        let (s, child) ← table s idx (some child) len
        match child with
        | none => .undefined
        | some child => .ok (s, some (bson_append_end parent (len != -1) k child))

/-- The `switch` of `appendValue`, after the transformation.  A typed value that
fails leaves the `__type` of its metatable. -/
def appendSwitch (E : Env) (table : AppendTable) (s : Frame) (idx : Nat) (b : Target)
    (key : Bytes) : Outcome Failure (Frame × Target) :=
  let leaf (f : BsonT → Option (Bool × BsonT)) : Outcome Failure (Frame × Target) := do
    let b ← appendInto b f
    .ok (s, b)
  match s.value idx with
  | .nil => leaf (bson_append_null · key)
  | .bool x => leaf (bson_append_bool · key x)
  | .int i =>
    if isInt32 i then leaf (bson_append_int32 · key i.toInt32)
    else leaf (bson_append_int64 · key i)
  | .flt x =>
    match x.toInteger? with
    | some i =>
      if isInt32 i then leaf (bson_append_int32 · key i.toInt32)
      else leaf (bson_append_int64 · key i)
    | none => leaf (bson_append_double · key x)
  | .str str => leaf (bson_append_utf8 · key str)
  | .table r =>
    match s.enc.heap.getmetafield (.table r) (bytes "__type") with
    | .nil => appendNested E table s idx r b key
    | type => do
      let (s, b) ← appendBSONType E (s.push (.value type)) (tointeger E type).toUInt64.toUInt32
        idx b key
      .ok (s.pop 1, b)
  | .host (.bson doc) =>
    if isArray doc then leaf (bson_append_array · key doc)
    else leaf (bson_append_document · key doc)
  | .host (.objectID id) => leaf (bson_append_oid · key id)
  | v => error s (typeName s.enc.heap v ++ bytes " unexpected")

/-- `appendValue`. -/
def appendValue (E : Env) (table : AppendTable) (s : Frame) (idx : Nat) (b : Target)
    (key : Bytes) : Outcome Failure (Frame × Target) := do
  let s ← transform E s idx
  appendSwitch E table s idx b key

/-- The loop of `appendTable` over the indices `i + 1` to `i + n`. -/
def arrayLoop (value : Frame → Nat → Target → Bytes → Outcome Failure (Frame × Target))
    (top : Nat) (r : Ref) : Nat → Nat → Frame → Target → Outcome Failure (Frame × Target)
  | 0, _, s, b => .ok (s, b)
  | n + 1, i, s, b => do
    let (s, b) ←
      orError (value (s.push (.value ((s.enc.heap.get r).get (.int (i + 1))))) (top + 1) b
          (uint32_to_string i))
        (bytes "[" ++ fmtInt (cInt (i + 1)) ++ bytes "] => ")
    arrayLoop value top r n (i + 1) (s.pop 1) b

/-- The loop of `appendTable` over the entries of a document table.  `lua_next`
takes the key and pushes the next one with its value. -/
def documentLoop (value : Frame → Nat → Target → Bytes → Outcome Failure (Frame × Target))
    (top : Nat) : List (Key × LVal) → Frame → Target → Outcome Failure (Frame × Target)
  | [], s, b => .ok (s, b)
  | (.str key, v) :: rest, s, b => do
    let (s, b) ←
      orError (value ((s.push (.key (.str key))).push (.value v)) (top + 2) b key)
        (bytes "[\"" ++ cString key ++ bytes "\"] => ")
    documentLoop value top rest (s.pop 2) b
  | (k, v) :: _, s, _ =>
    error ((s.push (.key k)).push (.value v))
      (bytes "string index expected, got " ++ keyTypeName k)

/-- The two loops of `appendTable`. -/
def tableLoop (value : Frame → Nat → Target → Bytes → Outcome Failure (Frame × Target))
    (s : Frame) (r : Ref) (b : Target) (len : Int) : Outcome Failure (Frame × Target) :=
  if len ≠ -1 then arrayLoop value s.top r len.toNat 0 s b
  else documentLoop value s.top (s.enc.heap.get r).entries s b

/-- `appendTable`, with `fuel` levels left.  A failure leaves the metatable or
the flag that it has met, and an element with its key. -/
def appendTable (E : Env) : Nat → AppendTable
  | 0, _, _, _, _ => .outOfFuel
  | fuel + 1, s, idx, b, len =>
    if MAXSTACK ≤ s.top then error s (bytes "recursion detected")
    else
      match s.value idx with
      | .table r =>
        match (s.enc.heap.get r).metatable with
        | some m => error (s.push (.value (.table m))) (bytes "table with metatable unexpected")
        | none =>
          if r ∈ s.enc.ridx then
            error (s.push (.value (.bool true))) (bytes "circular reference detected")
          else if checkstack s.top LUA_MINSTACK then do
            let s := { s with enc := { s.enc with ridx := insert r s.enc.ridx } }
            let (s, b) ← tableLoop (appendValue E (appendTable E fuel)) s r b len
            .ok ({ s with enc := { s.enc with ridx := s.enc.ridx.erase r } }, b)
          else .error (.raised (.text "stack overflow (too many nested values)"))
      | _ => .undefined

/-- `appendTable` as the entry points call it. -/
def appendTableFull (E : Env) : AppendTable := appendTable E (MAXSTACK + 1)

/-! ## Entry points -/

/-- The text of an operand of `lua_concat`. -/
def Item.text? (E : Env) : Item → Option Bytes
  | .value v => tolstring E v
  | .key (.int i) => some (fmtInt i)
  | .key (.str s) => some s
  | .key (.other _ _) => none
  | .message text => some text

/-- `lua_concat` of the topmost `n` slots.  An operand that is neither a string
nor a number is an error. -/
def lua_concat (E : Env) (stack : List Item) (n : Nat) : Except LuaError Bytes :=
  match ((stack.take n).reverse).mapM (Item.text? E) with
  | some texts => .ok texts.flatten
  | none => .error (.text "attempt to concatenate")

/-- What `castBSON` and `toBSONValue` raise for the argument `idx` when
`appendTable` stops. -/
def raiseFailure (E : Env) (idx : Nat) : Failure → LuaError
  | .returned s =>
    match lua_concat E s.stack s.nerr with
    | .ok text => .argument idx text
    | .error e => e
  | .raised e => e
  | .overflow _ => stackOverflow

/-- The frame of an entry point at its call of `appendTable`: the table at `ridx`,
which marks the others, is pushed and has no entries. -/
def entry (stack : List Item) (h : Heap Host) (ridx : LVal) : Frame :=
  { stack := .value ridx :: stack, enc := { heap := h, ridx := ∅ }, nerr := 0 }

/-- The table case of `castBSON` and `toBSONValue`: encode the table at `idx`. -/
def encodeTable (E : Env) (stack : List Item) (h : Heap Host) (ridx : LVal) (idx : Nat)
    (b : BsonT) : Outcome LuaError (Heap Host × BsonT × Int) :=
  let s := entry stack h ridx
  match s.value idx with
  | .table r =>
    match getArrayLength E h r with
    | .error e => .error e
    | .ok len =>
      match (appendTableFull E s idx (some b) len).mapError (raiseFailure E idx) with
      | .ok (s, some b) => .ok (s.enc.heap, b, len)
      | .ok (_, none) => .undefined
      | .error e => .error e
      | .undefined => .undefined
      | .outOfFuel => .outOfFuel
  | _ => .undefined

/-! ## What a level leaves -/

/-- A level that returns false, over the stack `base` of its caller: the messages,
with the text of the innermost level on top, then other values, then `base`. -/
def Leaves (base : List Item) (texts : List Bytes) (s : Frame) : Prop :=
  s.nerr = texts.length ∧
    ∃ strays, s.stack = (texts.map Item.message).reverse ++ (strays ++ base)

/-- There is no room for the next text above the frame `s`, which has those of the
levels below: the last ones of `texts`, but not all. -/
structure NoRoom (base : List Item) (s : Frame) (texts : List Bytes) : Prop where
  full : checkstack s.top 1 = false
  leaves : ∃ outer inner, texts = outer ++ inner ∧ outer ≠ [] ∧ Leaves base inner s

/-- A run on the stack comes to what a run of `Encode` comes to.  Results are
related by `R`.  There may be no room for a message, and then the stack overflows
instead. -/
inductive Simulates {α β : Type} (base : List Item) (R : α → β → Prop) :
    Outcome Failure α → Outcome AppendError β → Prop where
  | ok {a : α} {b : β} (h : R a b) : Simulates base R (.ok a) (.ok b)
  | failed {s : Frame} {texts : List Bytes} (h : Leaves base texts s) :
      Simulates base R (.error (.returned s)) (.error (.failed texts))
  | overflow {s : Frame} {texts : List Bytes} (h : NoRoom base s texts) :
      Simulates base R (.error (.overflow s)) (.error (.failed texts))
  | raised (e : LuaError) : Simulates base R (.error (.raised e)) (.error (.raised e))
  | undefined : Simulates base R .undefined .undefined
  | outOfFuel : Simulates base R .outOfFuel .outOfFuel

/-- A frame that has not failed is at a state of `Encode`. -/
structure Agrees (Out : List Item → Prop) (x : Frame × Target) (y : Enc × Target) : Prop where
  enc : x.1.enc = y.1
  target : x.2 = y.2
  nerr : x.1.nerr = 0
  stack : Out x.1.stack

section simulation

variable {α β γ δ : Type} {base : List Item} {R : α → β → Prop} {R' : γ → δ → Prop}

theorem Simulates.bind {x : Outcome Failure α} {y : Outcome AppendError β}
    {f : α → Outcome Failure γ} {g : β → Outcome AppendError δ} (h : Simulates base R x y)
    (hnext : ∀ a b, R a b → Simulates base R' (f a) (g b)) :
    Simulates base R' (x >>= f) (y >>= g) := by
  cases h with
  | ok hab => exact hnext _ _ hab
  | failed h => exact .failed h
  | overflow h => exact .overflow h
  | raised e => exact .raised e
  | undefined => exact .undefined
  | outOfFuel => exact .outOfFuel

theorem Simulates.imp {base' : List Item} {R₁ : α → β → Prop} {x : Outcome Failure α}
    {y : Outcome AppendError β} (h : Simulates base R x y)
    (hbase : ∀ texts s, Leaves base texts s → Leaves base' texts s)
    (hR : ∀ a b, R a b → R₁ a b) : Simulates base' R₁ x y := by
  cases h with
  | ok hab => exact .ok (hR _ _ hab)
  | failed h => exact .failed (hbase _ _ h)
  | overflow h =>
    obtain ⟨outer, inner, htexts, houter, hleaves⟩ := h.leaves
    exact .overflow ⟨h.full, outer, inner, htexts, houter, hbase _ _ hleaves⟩
  | raised e => exact .raised e
  | undefined => exact .undefined
  | outOfFuel => exact .outOfFuel

/-- What a level leaves on its own stack it leaves on that of its caller. -/
theorem Leaves.below {t : List Item} {texts : List Bytes} {s : Frame}
    (h : Leaves (t ++ base) texts s) : Leaves base texts s := by
  obtain ⟨hnerr, strays, hstack⟩ := h
  exact ⟨hnerr, strays ++ t, by rw [hstack, List.append_assoc]⟩

theorem Simulates.below {t : List Item} {x : Outcome Failure α} {y : Outcome AppendError β}
    (h : Simulates (t ++ base) R x y) : Simulates base R x y :=
  h.imp (fun _ _ => Leaves.below) fun _ _ hab => hab

/-- One more message goes below the others and above everything else. -/
theorem Leaves.error {texts : List Bytes} {s : Frame} (h : Leaves base texts s) (text : Bytes) :
    Simulates base R (OnStack.error s text) (.error (.failed (text :: texts))) := by
  unfold OnStack.error
  split
  · obtain ⟨hnerr, strays, hstack⟩ := h
    refine .failed ⟨by rw [hnerr, List.length_cons], strays, ?_⟩
    have hlength : s.nerr = ((texts.map Item.message).reverse).length := by
      rw [hnerr, List.length_reverse, List.length_map]
    simp only [hstack, hlength, insertAt_push, List.map_cons, List.reverse_cons,
      List.append_assoc, List.singleton_append]
  · rename_i hfull
    exact .overflow ⟨Bool.eq_false_iff.mpr hfull, [text], texts, rfl, List.cons_ne_nil _ _, h⟩

/-- The first message goes on top. -/
theorem simulates_error {s : Frame} (hnerr : s.nerr = 0) (strays : List Item)
    (hstack : s.stack = strays ++ base) (text : Bytes) :
    Simulates base R (OnStack.error s text) (.error (.text text)) := by
  have hleaves : Leaves base [] s := ⟨hnerr, strays, hstack⟩
  exact hleaves.error text

/-- A level that the failure passes adds its text. -/
theorem Simulates.orError {x : Outcome Failure α} {y : Outcome AppendError β}
    (h : Simulates base R x y) (text : Bytes) :
    Simulates base R (OnStack.orError x text) (y.mapError (AppendError.within text)) := by
  cases h with
  | ok hab => exact .ok hab
  | failed h => exact h.error text
  | overflow h =>
    obtain ⟨outer, inner, rfl, houter, hleaves⟩ := h.leaves
    exact .overflow ⟨h.full, text :: outer, inner, rfl, List.cons_ne_nil _ _, hleaves⟩
  | raised e => exact .raised e
  | undefined => exact .undefined
  | outOfFuel => exact .outOfFuel

end simulation

/-! ## The levels -/

section levels

variable {E : Env} {s : Frame} {idx : Nat}

theorem Frame.value_of_slot {v : LVal} (h : slot s.stack idx = some (.value v)) :
    s.value idx = v := by
  rw [Frame.value, h]

/-- An append that pushes nothing. -/
theorem simulates_leaf (hnerr : s.nerr = 0) (b : Target) (f : BsonT → Option (Bool × BsonT)) :
    Simulates s.stack (Agrees (· = s.stack))
      (do let b ← appendInto b f; (.ok (s, b) : Outcome Failure (Frame × Target)))
      (do let b ← appendTo b f; .ok (s.enc, b)) := by
  cases b with
  | none => exact .undefined
  | some b =>
    rw [appendInto, appendTo]
    cases f b with
    | none => exact .undefined
    | some appended => exact .ok ⟨rfl, rfl, hnerr, rfl⟩

/-- The parameters of a typed value decide alone. -/
theorem appendBSONType_eq (E : Env) (top : Nat) (type : UInt32) (t : Table Host) (b : Target)
    (key : Bytes) :
    Mongo.appendBSONType E top type t b key =
      if checkstack top (LUA_MINSTACK + t.rawlen) then
        (appendParams E type (param t 1) (param t 2) b key).mapError fun _ =>
          .text (bytes "invalid parameters for BSON type " ++ fmtInt (cInt type.toNat))
      else .error (.raised (.text "stack overflow (too many parameters)")) := by
  have hinto : ∀ (f : BsonT → Option (Bool × BsonT)) (g : Unit → AppendError),
      (appendInto b f : Outcome Unit Target).mapError g = appendTo b f := by
    intro f g
    cases b with
    | none => rfl
    | some b =>
      rw [appendInto, appendTo]
      cases f b <;> rfl
  unfold Mongo.appendBSONType appendParams
  dsimp only
  split
  · split <;> rename_i htype <;> try simp only [htype]
    case h_4 =>
      cases (tolstring E (param t 1)).bind fun s => E.bson_decimal128_from_string (cString s) with
      | none => rfl
      | some d => exact (hinto _ _).symm
    case h_5 =>
      cases tolstring E (param t 1) with
      | none => rfl
      | some str => exact (hinto _ _).symm
    case h_7 =>
      cases tolstring E (param t 1) with
      | none =>
        dsimp only
        split
        · rfl
        · exact (hinto _ _).symm
      | some pattern => exact (hinto _ _).symm
    case h_9 =>
      cases tolstring E (param t 1) with
      | none => rfl
      | some source =>
        cases param t 2 with
        | host u => cases u <;> exact (hinto _ _).symm
        | _ => exact (hinto _ _).symm
    case h_13 => rfl
    all_goals exact (hinto _ _).symm
  · rfl

/-- `unpackParams` pushes the parameters, the first one lowest. -/
theorem value_unpackParams {full : Frame} {t : Table Host} (h : unpackParams s t = .ok full)
    (i : Nat) : full.value (s.top + 1 + i) = param t (i + 1) := by
  unfold unpackParams at h
  split at h
  · obtain rfl := Outcome.ok.inj h
    simp only [Frame.value, Frame.top, slot_append_add, List.reverse_reverse, param]
    by_cases hi : i < t.rawlen
    · simp [hi, Nat.succ_le_of_lt hi]
    · have hlen : ((List.range t.rawlen).map fun i : Nat =>
          Item.value (t.get (.int (i + 1)))).length ≤ i := by
        simpa using Nat.le_of_not_lt hi
      rw [List.getElem?_eq_none hlen, if_neg (by omega)]
  · simp at h

theorem simulates_appendBSONType (hnerr : s.nerr = 0) {r : Ref}
    (hidx : slot s.stack idx = some (.value (.table r))) (type : UInt32) (b : Target)
    (key : Bytes) :
    Simulates s.stack (fun x b => x = (s, b)) (appendBSONType E s type idx b key)
      (Mongo.appendBSONType E s.top type (s.enc.heap.get r) b key) := by
  simp only [appendBSONType, Frame.value_of_slot hidx, appendBSONType_eq]
  by_cases hroom : checkstack s.top (LUA_MINSTACK + (s.enc.heap.get r).rawlen) = true
  · have hfull : unpackParams s (s.enc.heap.get r) = .ok _ := if_pos hroom
    have h₁ := value_unpackParams hfull 0
    have h₂ := value_unpackParams hfull 1
    rw [if_pos hroom, hfull, Outcome.ok_bind, h₁, h₂]
    cases appendParams E type (param (s.enc.heap.get r) 1) (param (s.enc.heap.get r) 2) b key with
    | ok b => exact .ok (by simp [Frame.top])
    | error => exact simulates_error (by exact hnerr) _ (by exact rfl) _
    | undefined => exact .undefined
    | outOfFuel => exact .outOfFuel
  · have hfull : unpackParams s (s.enc.heap.get r) = .error _ := if_neg hroom
    rw [if_neg hroom, hfull]
    exact .raised _

/-- What `appendTable` does on the stack at a level. -/
def SimulatesTable (table : AppendTable) (table' : Mongo.AppendTable) : Prop :=
  ∀ (s : Frame) (idx : Nat) (r : Ref) (b : Target) (len : Int), s.nerr = 0 →
    slot s.stack idx = some (.value (.table r)) →
    Simulates s.stack (Agrees (· = s.stack)) (table s idx b len) (table' s.top s.enc r b len)

theorem simulates_appendNested {table : AppendTable} {table' : Mongo.AppendTable}
    (htable : SimulatesTable table table') (hnerr : s.nerr = 0) {r : Ref}
    (hidx : slot s.stack idx = some (.value (.table r))) (b : Target) (key : Bytes) :
    Simulates s.stack (Agrees (· = s.stack)) (appendNested E table s idx r b key)
      (Mongo.appendNested E table' s.top s.enc r b key) := by
  unfold appendNested Mongo.appendNested
  cases getArrayLength E s.enc.heap r with
  | error e => exact .raised e
  | ok len =>
    cases b with
    | none => exact .undefined
    | some parent =>
      dsimp only
      rcases bson_append_begin parent key with - | - | ⟨k, child⟩
      · exact .undefined
      · exact (htable s idx r none len hnerr hidx).bind fun _ _ _ => .undefined
      · refine (htable s idx r (some child) len hnerr hidx).bind ?_
        rintro ⟨s', b'⟩ ⟨e', c'⟩ ⟨rfl, rfl, hnerr', hstack'⟩
        cases b' with
        | none => exact .undefined
        | some child' => exact .ok ⟨rfl, rfl, hnerr', hstack'⟩

theorem simulates_appendSwitch {table : AppendTable} {table' : Mongo.AppendTable}
    (htable : SimulatesTable table table') (hnerr : s.nerr = 0) {v : LVal}
    (hidx : slot s.stack idx = some (.value v)) (b : Target) (key : Bytes) :
    Simulates s.stack (Agrees (· = s.stack)) (appendSwitch E table s idx b key)
      (Mongo.appendSwitch E table' s.top s.enc v b key) := by
  have hleaf := fun f => simulates_leaf hnerr b f
  have hrefused := simulates_error (R := Agrees (· = s.stack)) hnerr [] rfl
  simp only [appendSwitch, Frame.value_of_slot hidx, Mongo.appendSwitch]
  cases v with
  | nil | bool | str => exact hleaf _
  | int i =>
    dsimp only
    split <;> exact hleaf _
  | flt x =>
    dsimp only
    cases x.toInteger? with
    | none => exact hleaf _
    | some i =>
      dsimp only
      split <;> exact hleaf _
  | table r =>
    dsimp only
    generalize s.enc.heap.getmetafield (.table r) (bytes "__type") = type
    have hpush : slot (Item.value type :: s.stack) idx = some (.value (.table r)) :=
      slot_append hidx [_]
    have htyped : Simulates s.stack (Agrees (· = s.stack))
        (do
          let (s, b) ← appendBSONType E (s.push (.value type))
            (tointeger E type).toUInt64.toUInt32 idx b key
          .ok (s.pop 1, b))
        (do
          let b ← Mongo.appendBSONType E (s.top + 1) (tointeger E type).toUInt64.toUInt32
            (s.enc.heap.get r) b key
          .ok (s.enc, b)) := by
      refine Simulates.bind (Simulates.below (t := [Item.value type])
        (simulates_appendBSONType (s := s.push (.value type)) hnerr hpush _ b key)) ?_
      rintro _ b' rfl
      exact .ok ⟨rfl, rfl, hnerr, rfl⟩
    cases type with
    | nil => exact simulates_appendNested htable hnerr hidx b key
    | _ => exact htyped
  | userdata => exact hrefused _
  | host u =>
    cases u with
    | bson doc =>
      dsimp only
      split <;> exact hleaf _
    | objectID id => exact hleaf _
    | _ => exact hrefused _

/-- The value on top is transformed in its slot. -/
theorem simulates_transform {base : List Item} {v : LVal} (hnerr : s.nerr = 0)
    (hstack : s.stack = .value v :: base) (hidx : idx = base.length + 1) :
    Simulates base
      (fun s' y => s'.enc = { s.enc with heap := y.1 } ∧ s'.nerr = 0 ∧
        s'.stack = .value y.2 :: base)
      (transform E s idx) (Mongo.transform E s.enc.heap v) := by
  have hvalue : s.value idx = v := by
    refine Frame.value_of_slot ?_
    rw [hstack, hidx, slot_push]
  unfold transform Mongo.transform
  rw [hvalue]
  have hcall : ∀ f, Simulates base
      (fun s' y => s'.enc = { s.enc with heap := y.1 } ∧ s'.nerr = 0 ∧
        s'.stack = .value y.2 :: base)
      (match E.call s.enc.heap f [v] with
        | (new, .ok v) => .ok { s with
            stack := replace (.value v :: s.stack) idx
            enc := { s.enc with heap := s.enc.heap ++ new } }
        | (_, .error e) => error (s.push (.value (errorObject E e))) (errorText E e))
      (match E.call s.enc.heap f [v] with
        | (new, .ok v') => .ok (s.enc.heap ++ new, v')
        | (_, .error e) => .error (.text (errorText E e))) := by
    intro f
    rcases E.call s.enc.heap f [v] with ⟨new, e | v'⟩
    · refine simulates_error (s := s.push _) hnerr [.value (errorObject E e), .value v] ?_ _
      rw [Frame.push, hstack]
      rfl
    · refine .ok ⟨rfl, hnerr, ?_⟩
      rw [hstack, hidx]
      exact replace_push _ _ _
  generalize s.enc.heap.getmetafield v (bytes "__toBSON") = f
  cases f with
  | nil => exact .ok ⟨rfl, hnerr, hstack⟩
  | _ => exact hcall _

theorem simulates_appendValue {table : AppendTable} {table' : Mongo.AppendTable}
    (htable : SimulatesTable table table') {base : List Item} {v : LVal} (hnerr : s.nerr = 0)
    (hstack : s.stack = .value v :: base) (hidx : idx = base.length + 1) (b : Target)
    (key : Bytes) :
    Simulates base (Agrees fun out => ∃ w, out = .value w :: base)
      (appendValue E table s idx b key) (Mongo.appendValue E table' idx s.enc v b key) := by
  refine (simulates_transform hnerr hstack hidx).bind ?_
  rintro s' ⟨h, w⟩ ⟨henc, hnerr', hstack'⟩
  have htop : s'.top = idx := by rw [Frame.top, hstack', hidx, List.length_cons]
  have hslot : slot s'.stack idx = some (.value w) := by rw [hstack', hidx, slot_push]
  have hswitch := simulates_appendSwitch (E := E) htable hnerr' hslot b key
  rw [htop, henc, hstack'] at hswitch
  exact hswitch.imp (fun _ _ => Leaves.below (t := [Item.value w])) fun x y hxy =>
    ⟨hxy.enc, hxy.target, hxy.nerr, w, hxy.stack⟩

/-- The elements of an array come and go above the stack of the level. -/
theorem simulates_arrayLoop {table : AppendTable} {table' : Mongo.AppendTable}
    (htable : SimulatesTable table table') (r : Ref) (n i : Nat) (hnerr : s.nerr = 0)
    (b : Target) :
    Simulates s.stack (Agrees (· = s.stack)) (arrayLoop (appendValue E table) s.top r n i s b)
      (Mongo.arrayLoop (Mongo.appendValue E table' (s.top + 1)) r n i s.enc b) := by
  generalize hbase : s.stack = base
  have htop : s.top = base.length := by rw [Frame.top, hbase]
  rw [htop]
  clear htop
  induction n generalizing i s b with
  | zero => exact .ok ⟨rfl, rfl, hnerr, hbase⟩
  | succ n ih =>
    unfold arrayLoop Mongo.arrayLoop
    have hvalue := simulates_appendValue (E := E) htable
      (s := s.push (.value ((s.enc.heap.get r).get (.int (i + 1))))) hnerr
      (by rw [Frame.push, hbase]) rfl b (uint32_to_string i)
    refine (hvalue.orError _).bind ?_
    rintro ⟨s', b'⟩ ⟨e', c'⟩ ⟨rfl, rfl, hnerr', w, hstack'⟩
    have hs : s'.stack = .value w :: base := hstack'
    exact ih (s := s'.pop 1) (i + 1) hnerr' b' (by rw [Frame.pop, hs]; rfl)

/-- An entry of a document stands on its key. -/
theorem simulates_documentLoop {table : AppendTable} {table' : Mongo.AppendTable}
    (htable : SimulatesTable table table') (es : List (Key × LVal)) (hnerr : s.nerr = 0)
    (b : Target) :
    Simulates s.stack (Agrees (· = s.stack)) (documentLoop (appendValue E table) s.top es s b)
      (Mongo.documentLoop (Mongo.appendValue E table' (s.top + 2)) es s.enc b) := by
  generalize hbase : s.stack = base
  have htop : s.top = base.length := by rw [Frame.top, hbase]
  rw [htop]
  clear htop
  induction es generalizing s b with
  | nil => exact .ok ⟨rfl, rfl, hnerr, hbase⟩
  | cons e rest ih =>
    obtain ⟨k, v⟩ := e
    have hrefused := fun text => simulates_error (R := Agrees (· = base))
      (s := (s.push (.key k)).push (.value v)) hnerr [.value v, .key k]
      (by rw [Frame.push, Frame.push, hbase]; rfl) text
    cases k with
    | str key =>
      unfold documentLoop Mongo.documentLoop
      have hpush : ((s.push (.key (.str key))).push (.value v)).stack =
          .value v :: .key (.str key) :: base := by rw [Frame.push, Frame.push, hbase]
      have hvalue := simulates_appendValue (E := E) htable (by exact hnerr) hpush rfl b key
      refine ((Simulates.below (t := [Item.key (.str key)]) hvalue).orError _).bind ?_
      rintro ⟨s', b'⟩ ⟨e', c'⟩ ⟨rfl, rfl, hnerr', w, hstack'⟩
      have hs : s'.stack = .value w :: .key (.str key) :: base := hstack'
      exact ih (s := s'.pop 2) hnerr' b' (by rw [Frame.pop, hs]; rfl)
    | int i => exact hrefused _
    | other name id => exact hrefused _

theorem simulates_tableLoop {table : AppendTable} {table' : Mongo.AppendTable}
    (htable : SimulatesTable table table') (r : Ref) (len : Int) (hnerr : s.nerr = 0)
    (b : Target) :
    Simulates s.stack (Agrees (· = s.stack)) (tableLoop (appendValue E table) s r b len)
      (Mongo.tableLoop (Mongo.appendValue E table') s.top s.enc r b len) := by
  unfold tableLoop Mongo.tableLoop
  split
  · exact simulates_arrayLoop htable r _ _ hnerr b
  · exact simulates_documentLoop htable _ hnerr b

/-- The invariant: one level is right when the levels below it are. -/
theorem simulates_appendTable (E : Env) (fuel : Nat) :
    SimulatesTable (appendTable E fuel) (Mongo.appendTable E fuel) := by
  induction fuel with
  | zero => exact fun _ _ _ _ _ _ _ => .outOfFuel
  | succ fuel ih =>
    intro s idx r b len hnerr hidx
    have hrefused := fun item text => simulates_error (R := Agrees (· = s.stack))
      (s := s.push item) hnerr [item] rfl text
    simp only [appendTable, Mongo.appendTable, Frame.value_of_slot hidx]
    by_cases htop : MAXSTACK ≤ s.top
    · rw [if_pos htop, if_pos htop]
      exact simulates_error hnerr [] rfl _
    rw [if_neg htop, if_neg htop]
    cases hmeta : (s.enc.heap.get r).metatable with
    | some m => exact hrefused _ _
    | none =>
      rw [Option.isSome_none, if_neg Bool.false_ne_true]
      dsimp only
      split
      · exact hrefused _ _
      split
      · have hloop := simulates_tableLoop (E := E) ih r len
          (s := { s with enc := { s.enc with ridx := insert r s.enc.ridx } }) hnerr b
        refine hloop.bind ?_
        rintro ⟨s', b'⟩ ⟨e', c'⟩ ⟨rfl, rfl, hnerr', hstack'⟩
        exact .ok ⟨rfl, rfl, hnerr', hstack'⟩
      · exact .raised _

/-! ## The raised error -/

/-- The topmost slots are the messages, as many as were counted. -/
theorem Leaves.take {base : List Item} {texts : List Bytes} (h : Leaves base texts s) :
    s.stack.take s.nerr = (texts.map Item.message).reverse := by
  obtain ⟨hnerr, strays, hstack⟩ := h
  rw [hstack, hnerr]
  exact List.take_left' (by simp)

theorem mapM_text?_message (E : Env) (texts : List Bytes) :
    (texts.map Item.message).mapM (Item.text? E) = some texts := by
  induction texts with
  | nil => rfl
  | cons text texts ih => simp [List.mapM_cons, ih, Item.text?]

/-- The messages are what is concatenated, from the outermost level to the
innermost. -/
theorem Leaves.concat {base : List Item} {texts : List Bytes} (h : Leaves base texts s) :
    lua_concat E s.stack s.nerr = .ok texts.flatten := by
  rw [lua_concat, h.take, List.reverse_reverse, mapM_text?_message]

/-- The raised text is what the messages say together. -/
theorem Leaves.raised {base stack : List Item} {texts : List Bytes} (hleaves : Leaves base texts s)
    {h : Heap Host} {ridx : LVal} {r : Ref} {b : BsonT} {len : Int}
    (hidx : slot stack idx = some (.value (.table r))) (hlen : getArrayLength E h r = .ok len)
    (hrun : appendTableFull E (entry stack h ridx) idx (some b) len = .error (.returned s)) :
    encodeTable E stack h ridx idx b = .error (.argument idx texts.flatten) := by
  have hentry : (entry stack h ridx).value idx = .table r :=
    Frame.value_of_slot (slot_append hidx [_])
  simp only [encodeTable, hentry, hlen, hrun, Outcome.mapError, raiseFailure, hleaves.concat]

theorem simulates_appendTableFull (E : Env) :
    SimulatesTable (appendTableFull E) (Mongo.appendTableFull E) :=
  simulates_appendTable E (MAXSTACK + 1)

/-- An entry point overflows the stack where `Encode` says that it raises the texts
of a failure: its encoder stops at a frame above which there is no room for the next
one. -/
structure Overflows (E : Env) (stack : List Item) (h : Heap Host) (ridx : LVal) (idx : Nat)
    (r : Ref) (b : BsonT) (s : Frame) (texts : List Bytes) : Prop where
  stops : ∃ len, getArrayLength E h r = .ok len ∧
    appendTableFull E (entry stack h ridx) idx (some b) len = .error (.overflow s)
  noRoom : NoRoom (.value ridx :: stack) s texts
  raised : encodeTable E stack h ridx idx b = .error stackOverflow
  message : Mongo.encodeTable E (stack.length + 1) h idx r b =
    .error (.argument idx texts.flatten)

/-- The entry points raise what `Encode` says, or there is no room for a message. -/
theorem encodeTable_refines (E : Env) {stack : List Item} {r : Ref}
    (hidx : slot stack idx = some (.value (.table r))) (h : Heap Host) (ridx : LVal) (b : BsonT) :
    encodeTable E stack h ridx idx b = Mongo.encodeTable E (stack.length + 1) h idx r b ∨
      ∃ s texts, Overflows E stack h ridx idx r b s texts := by
  have hentry : slot (entry stack h ridx).stack idx = some (.value (.table r)) :=
    slot_append hidx [_]
  have hvalue : (entry stack h ridx).value idx = .table r := Frame.value_of_slot hentry
  cases hlen : getArrayLength E h r with
  | error e => exact Or.inl (by simp only [encodeTable, Mongo.encodeTable, hvalue, hlen])
  | ok len =>
    have hrun : Simulates (.value ridx :: stack) (Agrees (· = .value ridx :: stack))
        (appendTableFull E (entry stack h ridx) idx (some b) len)
        (Mongo.appendTableFull E (stack.length + 1) { heap := h, ridx := ∅ } r (some b) len) :=
      simulates_appendTableFull E _ idx r (some b) len rfl hentry
    generalize hx : appendTableFull E (entry stack h ridx) idx (some b) len = x at hrun
    generalize hy : Mongo.appendTableFull E (stack.length + 1) { heap := h, ridx := ∅ } r (some b)
      len = y at hrun
    cases hrun with
    | @ok a c hac =>
      obtain ⟨s', b'⟩ := a
      obtain ⟨e', c'⟩ := c
      obtain ⟨rfl, rfl, -, -⟩ := hac
      left
      simp only [encodeTable, Mongo.encodeTable, hvalue, hlen, hx, hy]
      cases b' <;> rfl
    | failed hleaves =>
      left
      rw [hleaves.raised hidx hlen hx]
      simp only [Mongo.encodeTable, hlen, hy, Outcome.mapError, raiseAppendError]
    | @overflow s texts hroom =>
      refine Or.inr ⟨s, texts, ⟨len, hlen, hx⟩, hroom, ?_, ?_⟩
      · simp only [encodeTable, hvalue, hlen, hx, Outcome.mapError, raiseFailure]
      · simp only [Mongo.encodeTable, hlen, hy, Outcome.mapError, raiseAppendError]
    | raised e =>
      left
      simp only [encodeTable, Mongo.encodeTable, hvalue, hlen, hx, hy]
      rfl
    | undefined =>
      left
      simp only [encodeTable, Mongo.encodeTable, hvalue, hlen, hx, hy]
      rfl
    | outOfFuel =>
      left
      simp only [encodeTable, Mongo.encodeTable, hvalue, hlen, hx, hy]
      rfl

end levels

/-- The table `{a = print}` alone on the stack. -/
theorem encodeTable_refines_function :
    encodeTable Env.bare [.value (.table 0)]
        [Table.empty.rawset (.str (bytes "a")) (.host (.luafunc 0))] .nil 1 BsonT.bson_init =
      .error (.argument 1 (bytes "[\"a\"] => function unexpected")) := by
  rcases encodeTable_refines Env.bare (show slot [Item.value (.table 0)] 1 = _ from rfl)
    [Table.empty.rawset (.str (bytes "a")) (.host (.luafunc 0))] .nil BsonT.bson_init with
    h | ⟨s, texts, hover⟩
  · exact h.trans rfl
  · obtain ⟨len, hlen, hrun⟩ := hover.stops
    obtain rfl := Except.ok.inj hlen
    cases hrun

end Vklib.Mongo.OnStack
