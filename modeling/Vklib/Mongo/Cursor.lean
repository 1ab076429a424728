import Vklib.Mongo.Append
import Vklib.Mongo.Find

/-!
# A cursor of the driver

`mongoc-cursor.c` and the implementations of `mongoc-cursor-find.c`,
`mongoc-cursor-find-cmd.c` and `mongoc-cursor-cmd.c`: a cursor sends its command, reads the
documents of the batch in the reply one by one, and asks for the next batch with `getMore`
as long as the server gives it an id.

`_mongoc_cursor_run_command`, the connections and the server behind them are no code here:
`Server` decides what every command comes to, and `World.log` is what has passed between
the cursor and the server.  The cursors of the `OP_QUERY` protocol are not modelled
(`Stop.legacy`), and no cursor reads in exhaust mode then.  Clients are never reset.
-/

namespace Vklib.Mongo

open Vklib.Lua Vklib.Bson

/-! ## The state -/

/-- `bson_error_t` with a domain that is not zero. -/
structure Failure where
  domain : Nat
  code : Nat
  message : Bytes

def MONGOC_ERROR_PROTOCOL : Nat := 3
def MONGOC_ERROR_CURSOR : Nat := 4
def MONGOC_ERROR_PROTOCOL_INVALID_REPLY : Nat := 14
def MONGOC_ERROR_CURSOR_INVALID_CURSOR : Nat := 16

def WIRE_VERSION_FIND_CMD : Nat := 4
def WIRE_VERSION_4_4 : Nat := 9
def WIRE_VERSION_5_0 : Nat := 13

/-- `mongoc_cursor_state_t`. -/
inductive CursorState where
  | UNPRIMED | IN_BATCH | END_OF_BATCH | DONE
  deriving DecidableEq, Repr

/-- `mongoc_cursor_impl_t` with its data.  `find` has not looked at the server yet, and
`getmore_cmd` says that `getmore_type` is known. -/
inductive Impl where
  | find (filter : Doc)
  | find_cmd (filter : Doc)
  | cmd (cmd : Doc) (getmore_cmd : Bool)

/-- `mongoc_cursor_t`.  `batch_iter` is what the iterator of the batch has before it. -/
structure Cursor where
  state : CursorState
  impl : Impl
  opts : Doc
  count : Nat
  ns : Bytes
  nslen : Nat
  dblen : Nat
  error : Option Failure
  current : Option Doc
  cursor_id : Int64
  batch_iter : Doc

/-- A command with its options. -/
structure Request where
  command : Doc
  opts : Option Doc

/-- What `_mongoc_cursor_run_command` comes to.  It can fail without an error. -/
inductive Response where
  | reply (reply : Doc)
  | failed (error : Option Failure)

/-- The server and the connections to it.  The wire version is asked for again and again. -/
structure Server where
  fetch_stream : Nat → Except Failure Nat
  run_command : List (Request × Response) → Request → Response

structure World where
  cursor : Cursor
  log : List (Request × Response)
  fetches : Nat

/-- Why the process ends, or where the model does. -/
inductive Stop where
  | BSON_ASSERT
  | legacy

/-! ## Options -/

/-- The conversion of a double to `int64_t`, which is undefined outside of its range. -/
def int64_of_double (x : F64) : Outcome Stop Int64 :=
  let e := max x.exponent 1
  if x.exponent = 2047 then .undefined
  else
    let m := if 1075 ≤ e then x.significand * 2 ^ (e - 1075) else x.significand / 2 ^ (1075 - e)
    let i : Int := if x.negative then -(m : Int) else m
    if -2 ^ 63 ≤ i ∧ i < 2 ^ 63 then .ok (Int64.ofInt i) else .undefined

/-- `bson_iter_as_int64`. -/
def bson_iter_as_int64 : Value → Outcome Stop Int64
  | .bool b => .ok (if b then 1 else 0)
  | .double x => int64_of_double x
  | .int64 i => .ok i
  | .int32 i => .ok i.toInt64
  | _ => .ok 0

/-- `bson_iter_as_bool`. -/
def bson_iter_as_bool : Value → Bool
  | .bool b => b
  | .double x => decide (x.significand ≠ 0)
  | .int64 i => decide (i ≠ 0)
  | .int32 i => decide (i ≠ 0)
  | .null | .undefined => false
  | _ => true

/-- `bson_iter_init_find` with a literal. -/
def bson_iter_init_find (doc : Doc) (key : String) : Option Value :=
  (doc.find? fun f => f.1 = bytes key).map Prod.snd

section

variable (cursor : Cursor)

/-- `_mongoc_cursor_get_opt_int64`. -/
def get_opt_int64 (option : String) (default_value : Int64) : Outcome Stop Int64 :=
  match bson_iter_init_find cursor.opts option with
  | some v => bson_iter_as_int64 v
  | none => .ok default_value

/-- `_mongoc_cursor_get_opt_bool`. -/
def get_opt_bool (option : String) : Bool :=
  match bson_iter_init_find cursor.opts option with
  | some v => bson_iter_as_bool v
  | none => false

/-- `mongoc_cursor_get_limit`. -/
def mongoc_cursor_get_limit : Outcome Stop Int64 := do
  let limit ← get_opt_int64 cursor "limit" 0
  .ok (if limit > 0 ∧ get_opt_bool cursor "singleBatch" then -limit else limit)

/-- `mongoc_cursor_get_batch_size`, a `uint32_t`. -/
def mongoc_cursor_get_batch_size : Outcome Stop Nat := do
  let batch_size ← get_opt_int64 cursor "batchSize" 0
  .ok batch_size.toUInt64.toUInt32.toNat

/-- `_mongoc_n_return`, before the two boundaries of `int32_t`. -/
def n_return (limit : Int) (batch_size count : Nat) : Int :=
  let n : Int :=
    if limit < 0 then limit
    else if limit = 0 then batch_size
    else if batch_size = 0 then limit
    else if limit < batch_size then limit
    else batch_size
  if limit > 0 ∧ count ≠ 0 then if limit - count ≤ 0 then 1 else min n (limit - count) else n

/-- `_mongoc_n_return`. -/
def _mongoc_n_return : Outcome Stop Int := do
  let limit ← mongoc_cursor_get_limit cursor
  let batch_size ← mongoc_cursor_get_batch_size cursor
  .ok (max (-2 ^ 31) (min (2 ^ 31 - 1) (n_return limit.toInt batch_size cursor.count)))

/-- `abs`, which is undefined at the least `int`. -/
def abs32 (i : Int) : Outcome Stop Int64 :=
  if i = -2 ^ 31 then .undefined else .ok (Int64.ofInt i.natAbs)

/-! ## Commands -/

/-- `_mongoc_set_cursor_ns`. -/
def set_cursor_ns (ns : Bytes) : Cursor :=
  { cursor with
    ns := bson_strndup ns
    nslen := ns.length
    dblen := if 46 ∈ cString ns then (ns.takeWhile (· ≠ 46)).length else ns.length }

/-- `_mongoc_cursor_collection`. -/
def cursor_collection : Outcome Stop Bytes :=
  if cursor.dblen + 1 < cursor.nslen then
    .ok ((cursor.ns.drop (cursor.dblen + 1)).take (cursor.nslen - cursor.dblen - 1))
  else .error .BSON_ASSERT

/-- The document after an append whose result is dropped. -/
def dropResult (x : Option (Bool × BsonT)) : Outcome Stop BsonT :=
  x.elim .undefined fun appended => .ok appended.2

/-- `_mongoc_cursor_prepare_find_command`. -/
def prepare_find_command (filter : Doc) : Outcome Stop Doc := do
  let collection ← cursor_collection cursor
  let b ← dropResult (bson_append_utf8 BsonT.bson_init (bytes "find") collection)
  let b ← dropResult (bson_append_document b (bytes "filter") filter)
  .ok b.fields

end

section

variable (server : Server) (w : World)

/-- The cursor in its world. -/
def World.set (f : Cursor → Cursor) : World := { w with cursor := f w.cursor }

/-- `_mongoc_cursor_fetch_stream`: the wire version of the server. -/
def fetch_stream : Option Nat × World :=
  match server.fetch_stream w.fetches with
  | .ok version => (some version, { w with fetches := w.fetches + 1 })
  | .error e =>
    (none, { w with cursor := { w.cursor with error := some e }, fetches := w.fetches + 1 })

/-- `bson_append_value` with a value that was read from a document. -/
def append_copied (b : BsonT) (key : Bytes) : Value → Option (Bool × BsonT)
  | .binary subtype payload =>
    bson_append_binary b key subtype.toUInt32 (bson_iter_binary subtype payload)
  | .regex pattern options => bson_append_regex b key pattern options
  | v => bson_append b key v

/-- The comment of `getMore`, for a server that takes one. -/
def append_comment (b : BsonT) : Outcome Stop (BsonT × World) :=
  match bson_iter_init_find w.cursor.opts "comment" with
  | none => .ok (b, w)
  | some comment =>
    match fetch_stream server w with
    | (some version, w) =>
      if WIRE_VERSION_4_4 ≤ version then do
        let b ← dropResult (append_copied b (bytes "comment") comment)
        .ok (b, w)
      else .ok (b, w)
    | (none, w) => .ok (b, w)

/-- The size of the batch in `getMore`, when the options have one. -/
def append_batch_size (cursor : Cursor) (b : BsonT) : Outcome Stop BsonT := do
  let batch_size ← mongoc_cursor_get_batch_size cursor
  if batch_size ≠ 0 then do
    let n ← _mongoc_n_return cursor
    let size ← abs32 n
    dropResult (bson_append_int64 b (bytes "batchSize") size)
  else .ok b

/-- How long the server may wait for more, when the cursor waits. -/
def append_max_time (cursor : Cursor) (b : BsonT) : Outcome Stop BsonT :=
  if get_opt_bool cursor "tailable" ∧ get_opt_bool cursor "awaitData" then do
    let max_await_time_ms ← get_opt_int64 cursor "maxAwaitTimeMS" 0
    if max_await_time_ms ≠ 0 then
      dropResult (bson_append_int64 b (bytes "maxTimeMS") max_await_time_ms)
    else .ok b
  else .ok b

/-- `_mongoc_cursor_prepare_getmore_command`. -/
def prepare_getmore_command : Outcome Stop (Doc × World) := do
  let collection ← cursor_collection w.cursor
  let b ← dropResult (bson_append_int64 BsonT.bson_init (bytes "getMore") w.cursor.cursor_id)
  let b ← dropResult (bson_append_utf8 b (bytes "collection") collection)
  let b ← append_batch_size w.cursor b
  let (b, w) ← append_comment server w b
  let b ← append_max_time w.cursor b
  .ok (b.fields, w)

/-- `_mongoc_get_command_name`: the first key, or that of a wrapped query. -/
def _mongoc_get_command_name (command : Doc) : Bytes :=
  match command with
  | [] => bytes "(null)"
  | (name, _) :: _ =>
    let wrapper := if name.head? = some 36 then some "$query"
      else if name = bytes "query" then some "query" else none
    match wrapper.bind (bson_iter_init_find command) with
    | some (.document ((child, _) :: _)) => child
    | _ => name

/-! ## Replies -/

/-- One field of `cursor` in `_mongoc_cursor_start_reading_response`. -/
def readingField (s : Bool × Cursor) (field : Bytes × Value) : Outcome Stop (Bool × Cursor) :=
  let (in_batch, cursor) := s
  let (key, v) := field
  if key = bytes "id" then do
    let cursor_id ← bson_iter_as_int64 v
    .ok (in_batch, { cursor with cursor_id })
  else if key = bytes "ns" then
    match v with
    | .utf8 ns => .ok (in_batch, set_cursor_ns cursor ns)
    | _ => .error .BSON_ASSERT
  else if key = bytes "firstBatch" ∨ key = bytes "nextBatch" then
    match v with
    | .array batch_iter => .ok (true, { cursor with batch_iter })
    | _ => .ok (in_batch, cursor)
  else .ok (in_batch, cursor)

/-- `_mongoc_cursor_start_reading_response`. -/
def start_reading_response (reply : Doc) (cursor : Cursor) : Outcome Stop (Bool × Cursor) :=
  match bson_iter_init_find reply "cursor" with
  | some (.document fields) => fields.foldlM readingField (false, cursor)
  | _ => .ok (false, cursor)

/-- `_mongoc_cursor_response_read`. -/
def response_read (cursor : Cursor) : Cursor :=
  match cursor.batch_iter with
  | [] => cursor
  | (_, .document doc) :: rest => { cursor with batch_iter := rest, current := some doc }
  | _ :: rest => { cursor with batch_iter := rest }

/-- The error of a reply that has no batch, unless there is one already. -/
def invalid_reply (command : Doc) (cursor : Cursor) : Cursor :=
  if cursor.error.isSome then cursor
  else { cursor with error := some ⟨MONGOC_ERROR_PROTOCOL, MONGOC_ERROR_PROTOCOL_INVALID_REPLY,
    bytes "Invalid reply to " ++ _mongoc_get_command_name command ++ bytes " command."⟩ }

/-- `_mongoc_cursor_response_refresh`. -/
def response_refresh (request : Request) : Outcome Stop World :=
  let response := server.run_command w.log request
  let w := { w with log := w.log ++ [(request, response)] }
  match response with
  | .reply reply => do
    let (in_batch, cursor) ← start_reading_response reply { w.cursor with error := none }
    .ok { w with cursor := if in_batch then cursor else invalid_reply request.command cursor }
  | .failed error =>
    let cursor := { w.cursor with error := error.or w.cursor.error }
    .ok { w with cursor := invalid_reply request.command cursor }

/-! ## Transitions -/

/-- The server has the `find` and `getMore` commands. -/
def usesCommands (cursor : Cursor) (wire_version : Nat) : Prop :=
  wire_version > WIRE_VERSION_5_0 ∨
    (wire_version ≥ WIRE_VERSION_FIND_CMD ∧ ¬ get_opt_bool cursor "exhaust")

instance (cursor : Cursor) (wire_version : Nat) : Decidable (usesCommands cursor wire_version) :=
  inferInstanceAs (Decidable (_ ∨ _))

/-- `_prime` of a `find` command. -/
def prime_find_cmd (filter : Doc) : Outcome Stop (CursorState × World) := do
  let find_cmd ← prepare_find_command w.cursor filter
  let w ← response_refresh server w ⟨find_cmd, some w.cursor.opts⟩
  .ok (.IN_BATCH, w)

/-- The options of a command that are not sent. -/
def withoutBatchSize (opts : Doc) : Doc :=
  opts.filter fun f => ¬ (f.1 = bytes "batchSize" ∨ f.1 = bytes "tailable")

/-- `impl.prime`. -/
def prime : Outcome Stop (CursorState × World) :=
  match w.cursor.impl with
  | .find filter =>
    match fetch_stream server w with
    | (none, w) => .ok (.DONE, w)
    | (some wire_version, w) =>
      if usesCommands w.cursor wire_version then
        prime_find_cmd server (w.set fun c => { c with impl := .find_cmd filter }) filter
      else .error .legacy
  | .find_cmd filter => prime_find_cmd server w filter
  | .cmd cmd _ => do
    let w ← response_refresh server w ⟨cmd, some (withoutBatchSize w.cursor.opts)⟩
    .ok (.IN_BATCH, w)

/-- `impl.pop_from_batch`. -/
def pop_from_batch : CursorState × World :=
  let w := w.set response_read
  (if w.cursor.current.isSome then .IN_BATCH
    else if w.cursor.cursor_id ≠ 0 then .END_OF_BATCH else .DONE, w)

/-- Ask for the next batch. -/
def getmore : Outcome Stop (CursorState × World) := do
  let (getmore_cmd, w) ← prepare_getmore_command server w
  let w ← response_refresh server w ⟨getmore_cmd, none⟩
  .ok (.IN_BATCH, w)

/-- `impl.get_next_batch`.  A command cursor looks once at what the server can do. -/
def get_next_batch : Outcome Stop (CursorState × World) :=
  match w.cursor.impl with
  | .find _ | .find_cmd _ => if w.cursor.cursor_id = 0 then .ok (.DONE, w) else getmore server w
  | .cmd _ true => getmore server w
  | .cmd cmd false =>
    match fetch_stream server w with
    | (none, w) => .ok (.DONE, w)
    | (some wire_version, w) =>
      if usesCommands w.cursor wire_version then
        getmore server (w.set fun c => { c with impl := .cmd cmd true })
      else .error .legacy

/-- `_call_transition`. -/
def _call_transition : Outcome Stop (CursorState × World) := do
  let (state, w) ← match w.cursor.state with
    | .UNPRIMED => prime server w
    | .IN_BATCH => .ok (pop_from_batch w)
    | .END_OF_BATCH => get_next_batch server w
    | .DONE => .ok (.DONE, w)
  .ok (if w.cursor.error.isSome then .DONE else state, w)

/-- The loop of `mongoc_cursor_next`: whether it returns in the middle, without counting. -/
def nextLoop : Nat → Bool → World → Outcome Stop (Bool × World)
  | 0, _, _ => .outOfFuel
  | fuel + 1, attempted_refresh, w =>
    if w.cursor.state = .DONE then .ok (false, w)
    else if w.cursor.state = .END_OF_BATCH ∧ attempted_refresh then .ok (true, w)
    else do
      let attempted_refresh := attempted_refresh || decide (w.cursor.state = .END_OF_BATCH)
      let (state, w) ← _call_transition server w
      let w := w.set fun c => { c with state }
      if w.cursor.current.isSome then .ok (false, w) else nextLoop fuel attempted_refresh w

/-- `mongoc_cursor_next`: the document, if there is one.  The loop has at most five rounds. -/
def mongoc_cursor_next : Outcome Stop (Option Doc × World) :=
  if w.cursor.error.isSome then .ok (none, w)
  else if w.cursor.state = .DONE then
    .ok (none, w.set fun c => { c with error := some ⟨MONGOC_ERROR_CURSOR,
      MONGOC_ERROR_CURSOR_INVALID_CURSOR,
      bytes "Cannot advance a completed or failed cursor."⟩ })
  else do
    let (returned, w) ← nextLoop server 6 false (w.set fun c => { c with current := none })
    if returned then .ok (none, w)
    else .ok (w.cursor.current, w.set fun c => { c with count := (c.count + 1) % 2 ^ 32 })

/-- `mongoc_cursor_more`. -/
def mongoc_cursor_more : Bool := w.cursor.error.isNone && decide (w.cursor.state ≠ .DONE)

/-- `mongoc_cursor_error`. -/
def mongoc_cursor_error : Option Failure := w.cursor.error

/-! ## The methods of a cursor -/

/-- `commandError`. -/
def commandError (e : Failure) : List LVal :=
  if e.code = 0 then [.nil] else [.nil, .str (cString e.message)]

/-- `iterateCursor`.  Without a handler index the document becomes an object. -/
def iterateCursor (E : Env) (top : Nat) (L : State) (handler : Option LVal) :
    Outcome Stop (Outcome LuaError (State × List LVal) × World) := do
  let (bson, w) ← mongoc_cursor_next server w
  match bson, mongoc_cursor_error w with
  | some doc, _ =>
    match handler with
    | none => .ok (.ok (L, [.host (.bson doc)]), w)
    | some handler => .ok (do
        let (L, v) ← pushBSON E handler top L doc
        .ok (L, [v]), w)
  | none, some e =>
    match handler with
    | none => .ok (.ok (L, commandError e), w)
    | some _ => .ok (.error (.object (.str (cString e.message))), w)
  | none, none => .ok (.ok (L, [.nil]), w)

end

end Vklib.Mongo
