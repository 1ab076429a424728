import Vklib.Base.StringFunctions
import Vklib.Mongo.Cursor

/-!
# What a cursor delivers

Whatever the server answers and however a script mixes `next`, `value` and the iterator, the
documents that it gets are those of the batches that arrived, in their order, each of them once.

`Reading` is the invariant of a cursor: what it has delivered and what is before it in its
batch are together what it has received (`Reading.read`), and its requests followed the
protocol (`Asked`): one opening command, and then `getMore` with the id that the server gave
last, as long as that is not zero and every reply had a batch.  The transitions keep it
(`Reading.primed`, `Reading.next_batch` and `Reading.popped`), and so do the loop of
`mongoc_cursor_next` (`Reading.looped`), one call (`Reading.next`) and a script (`Reading.run`).
-/

namespace Vklib.Mongo

open Vklib.Lua Vklib.Bson

/-! ## Replies -/

/-- The documents of a batch.  What follows a value that is no document is lost. -/
def documentsOf : Doc → List Doc
  | (_, .document doc) :: rest => doc :: documentsOf rest
  | _ => []

/-- A field of `cursor`: the batch and the id that are known behind it. -/
def fieldBatch (batch : Option Doc) (f : Bytes × Value) : Option Doc :=
  if f.1 = bytes "firstBatch" ∨ f.1 = bytes "nextBatch" then
    match f.2 with
    | .array b => some b
    | _ => batch
  else batch

def fieldId (id : Int64) (f : Bytes × Value) : Int64 :=
  if f.1 = bytes "id" then
    match bson_iter_as_int64 f.2 with
    | .ok i => i
    | .error _ | .undefined | .outOfFuel => id
  else id

/-- The fields of `cursor` in a reply. -/
def cursorFields (reply : Doc) : Doc :=
  match bson_iter_init_find reply "cursor" with
  | some (.document fields) => fields
  | _ => []

/-- The batch of a response. -/
def Response.batch : Response → Option Doc
  | .reply doc => (cursorFields doc).foldl fieldBatch none
  | .failed _ => none

def Response.documents (r : Response) : List Doc := (r.batch.map documentsOf).getD []

/-- The id that the server gave last. -/
def Response.id (id : Int64) : Response → Int64
  | .reply doc => (cursorFields doc).foldl fieldId id
  | .failed _ => id

/-- The documents that arrived. -/
def received (log : List (Request × Response)) : List Doc := log.flatMap (·.2.documents)

def idAfter (log : List (Request × Response)) : Int64 :=
  log.foldl (fun id e => e.2.id id) 0

@[simp] theorem received_append (log : List (Request × Response)) (e : Request × Response) :
    received (log ++ [e]) = received log ++ e.2.documents := by
  simp [received]

@[simp] theorem idAfter_append (log : List (Request × Response)) (e : Request × Response) :
    idAfter (log ++ [e]) = e.2.id (idAfter log) := by
  simp [idAfter]

/-- The requests of a cursor that opens with `first`. -/
inductive Asked (first : Request) : List (Request × Response) → Prop where
  | nil : Asked first []
  | opened (response : Response) : Asked first [(first, response)]
  | more {log : List (Request × Response)} (rest : Doc) (response : Response)
      (hasked : Asked first log) (hopen : log ≠ []) (hbatch : ∀ e ∈ log, e.2.batch.isSome = true)
      (hid : idAfter log ≠ 0) :
      Asked first (log ++ [(⟨(bytes "getMore", .int64 (idAfter log)) :: rest, none⟩, response)])

/-- Why a cursor has an error: there was no connection when it looked for one, the last reply
has no batch, or the cursor was read on when the server had closed it. -/
inductive Cause (server : Server) (fetches : Nat) (log : List (Request × Response))
    (e : Failure) : Prop where
  | connection (n : Nat) (hn : n < fetches) (h : server.fetch_stream n = .error e)
  | reply (entry : Request × Response) (hlast : log.getLast? = some entry)
      (hbatch : entry.2.batch = none)
  | completed (hopen : log ≠ []) (hid : idAfter log = 0)
      (he : e.message = bytes "Cannot advance a completed or failed cursor.")

/-! ## What the server keeps to -/

/-- A field of `cursor`: the id is a number, and the namespace has a collection and a length
that the driver can count. -/
structure ProperField (f : Bytes × Value) : Prop where
  id : f.1 = bytes "id" → ∃ i, bson_iter_as_int64 f.2 = .ok i
  ns : f.1 = bytes "ns" → ∃ db collection, f.2 = .utf8 (db ++ 46 :: collection) ∧
    NulFree db ∧ 46 ∉ db ∧ collection ≠ [] ∧ (db ++ 46 :: collection).length ≤ BSON_GROW_LIMIT

def Proper (reply : Doc) : Prop := ∀ f ∈ cursorFields reply, ProperField f

/-- A cursor whose options the driver can read.  They are a document that the library has
written. -/
structure Usable (cursor : Cursor) : Prop where
  size : docSize cursor.opts ≤ BSON_GROW_LIMIT
  limit : ∃ i, get_opt_int64 cursor "limit" 0 = .ok i ∧ -2 ^ 31 < i.toInt ∧ i.toInt < 2 ^ 31
  batchSize : ∃ i, get_opt_int64 cursor "batchSize" 0 = .ok i
  maxAwaitTimeMS : ∃ i, get_opt_int64 cursor "maxAwaitTimeMS" 0 = .ok i

/-- A server of today. -/
structure Modern (server : Server) (cursor : Cursor) : Prop where
  commands : ∀ n version, server.fetch_stream n = .ok version → usesCommands cursor version
  replies : ∀ log request reply, server.run_command log request = .reply reply → Proper reply

/-- The namespace of a cursor has a collection. -/
def Named (cursor : Cursor) : Prop :=
  cursor.dblen + 1 < cursor.nslen ∧ cursor.ns.length ≤ BSON_GROW_LIMIT

/-- Only the options count. -/
theorem Usable.of_opts {c c' : Cursor} (h : Usable c) (hopts : c'.opts = c.opts) : Usable c' := by
  obtain ⟨hsize, hlimit, hbatch, hawait⟩ := h
  constructor <;> simpa only [get_opt_int64, hopts] using by assumption

theorem Modern.of_opts {server : Server} {c c' : Cursor} (h : Modern server c)
    (hopts : c'.opts = c.opts) : Modern server c' where
  commands n version hfetch := by
    simpa only [usesCommands, get_opt_bool, hopts] using h.commands n version hfetch
  replies := h.replies

/-! ## Reading a reply -/

/-- What a request leaves alone. -/
structure Untouched (c c' : Cursor) : Prop where
  state : c'.state = c.state
  impl : c'.impl = c.impl
  opts : c'.opts = c.opts
  current : c'.current = c.current

theorem Untouched.refl (c : Cursor) : Untouched c c := ⟨rfl, rfl, rfl, rfl⟩

theorem Untouched.trans {c c' c'' : Cursor} (h : Untouched c c') (h' : Untouched c' c'') :
    Untouched c c'' :=
  ⟨h'.state.trans h.state, h'.impl.trans h.impl, h'.opts.trans h.opts,
    h'.current.trans h.current⟩

/-- A namespace with a collection. -/
theorem named_of_ns (cursor : Cursor) {db collection : Bytes} (hdb : NulFree db)
    (hdot : 46 ∉ db) (hne : collection ≠ [])
    (hlen : (db ++ 46 :: collection).length ≤ BSON_GROW_LIMIT) :
    Named (set_cursor_ns cursor (db ++ 46 :: collection)) := by
  have hmem : 46 ∈ cString (db ++ 46 :: collection) := by
    rw [cString, List.takeWhile_append_of_pos (forall_ne_of_not_mem hdb)]
    simp
  have hdblen : (db ++ 46 :: collection).takeWhile (· ≠ 46) = db := by
    rw [List.takeWhile_append_of_pos (forall_ne_of_not_mem hdot)]
    simp
  have hpos := List.length_pos_iff.mpr hne
  have hcopy := (length_bson_strndup (db ++ 46 :: collection)).trans_le hlen
  refine ⟨?_, hcopy⟩
  simp only [set_cursor_ns, if_pos hmem, hdblen, List.length_append, List.length_cons]
  omega

/-- The state of the loop over the fields of `cursor`: the batch and the id so far. -/
structure ReadSoFar (c : Cursor) (batch : Option Doc) (id : Int64) (s : Bool × Cursor) : Prop where
  in_batch : s.1 = batch.isSome
  untouched : Untouched c s.2
  error : s.2.error = c.error
  named : Named s.2
  id : s.2.cursor_id = id
  batch : ∀ b, batch = some b → s.2.batch_iter = b

/-- One field. -/
theorem ReadSoFar.field {c : Cursor} {batch : Option Doc} {id : Int64} {s : Bool × Cursor}
    (h : ReadSoFar c batch id s) {f : Bytes × Value} (hf : ProperField f) :
    ∃ s', readingField s f = .ok s' ∧ ReadSoFar c (fieldBatch batch f) (fieldId id f) s' := by
  obtain ⟨in_batch, c₁⟩ := s
  obtain ⟨key, v⟩ := f
  obtain ⟨hin, huntouched, herror, hnamed, hid, hbatch⟩ := h
  have huntouched' := huntouched
  obtain ⟨hstate, himpl, hopts, hcurrent⟩ := huntouched'
  simp only [readingField, fieldBatch, fieldId]
  by_cases hkid : key = bytes "id"
  · obtain ⟨i, hi⟩ := hf.id hkid
    have hkeys : ¬ (key = bytes "firstBatch" ∨ key = bytes "nextBatch") := by
      rw [hkid]
      decide
    simp only at hi
    rw [if_pos hkid, if_neg hkeys, if_pos hkid, hi]
    exact ⟨_, rfl, hin, ⟨hstate, himpl, hopts, hcurrent⟩, herror, hnamed, rfl, hbatch⟩
  · rw [if_neg hkid, if_neg hkid]
    by_cases hkns : key = bytes "ns"
    · obtain ⟨db, collection, hv, hdb, hdot, hne, hlen⟩ := hf.ns hkns
      have hkeys : ¬ (key = bytes "firstBatch" ∨ key = bytes "nextBatch") := by
        rw [hkns]
        decide
      simp only at hv
      rw [if_pos hkns, if_neg hkeys, hv]
      exact ⟨_, rfl, hin, ⟨hstate, himpl, hopts, hcurrent⟩, herror,
        named_of_ns c₁ hdb hdot hne hlen, hid, hbatch⟩
    · rw [if_neg hkns]
      have hsame : ReadSoFar c batch id (in_batch, c₁) :=
        ⟨hin, huntouched, herror, hnamed, hid, hbatch⟩
      by_cases hkeys : key = bytes "firstBatch" ∨ key = bytes "nextBatch"
      · rw [if_pos hkeys, if_pos hkeys]
        cases v with
        | array b =>
          exact ⟨_, rfl, rfl, ⟨hstate, himpl, hopts, hcurrent⟩, herror, hnamed, hid,
            fun b' hb' => Option.some.inj hb'⟩
        | _ => exact ⟨_, rfl, hsame⟩
      · rw [if_neg hkeys, if_neg hkeys]
        exact ⟨_, rfl, hsame⟩

theorem ReadSoFar.fields {c : Cursor} {batch : Option Doc} {id : Int64} {s : Bool × Cursor}
    (h : ReadSoFar c batch id s) (fields : Doc) (hproper : ∀ f ∈ fields, ProperField f) :
    ∃ s', fields.foldlM readingField s = .ok s' ∧
      ReadSoFar c (fields.foldl fieldBatch batch) (fields.foldl fieldId id) s' := by
  induction fields generalizing batch id s with
  | nil => exact ⟨s, rfl, h⟩
  | cons f fields ih =>
    obtain ⟨s₁, hfield, h₁⟩ := h.field (hproper f (List.mem_cons_self ..))
    obtain ⟨s', hfields, h'⟩ := ih h₁ fun f hf => hproper f (List.mem_cons_of_mem _ hf)
    refine ⟨s', ?_, h'⟩
    rw [List.foldlM_cons, hfield]
    exact hfields

/-- A reply is read by its fields. -/
theorem start_reading_response_fields (reply : Doc) (c : Cursor) :
    start_reading_response reply c = (cursorFields reply).foldlM readingField (false, c) := by
  rw [start_reading_response, cursorFields]
  cases bson_iter_init_find reply "cursor" with
  | none => rfl
  | some v => cases v <;> rfl

theorem start_reading_response_eq {reply : Doc} (hproper : Proper reply) {c : Cursor}
    (hnamed : Named c) :
    ∃ s, start_reading_response reply c = .ok s ∧
      ReadSoFar c (Response.reply reply).batch ((Response.reply reply).id c.cursor_id) s := by
  have hstart : ReadSoFar c none c.cursor_id (false, c) :=
    ⟨rfl, Untouched.refl c, rfl, hnamed, rfl, by simp⟩
  rw [start_reading_response_fields]
  exact hstart.fields (cursorFields reply) hproper

/-- What one request does. -/
structure Refreshed (w : World) (request : Request) (response : Response) (w' : World) : Prop where
  log : w'.log = w.log ++ [(request, response)]
  untouched : Untouched w.cursor w'.cursor
  named : Named w'.cursor
  id : w'.cursor.cursor_id = response.id w.cursor.cursor_id
  error : w'.cursor.error = none ↔ response.batch.isSome = true
  batch : ∀ b, response.batch = some b → w'.cursor.batch_iter = b

/-- The error of a reply without a batch. -/
theorem invalid_reply_spec (command : Doc) (c : Cursor) :
    (invalid_reply command c).error ≠ none ∧ Untouched c (invalid_reply command c) ∧
      (Named c → Named (invalid_reply command c)) ∧
      (invalid_reply command c).cursor_id = c.cursor_id := by
  rw [invalid_reply]
  split
  · rename_i hsome
    exact ⟨Option.isSome_iff_ne_none.mp hsome, Untouched.refl c, fun h => h, rfl⟩
  · exact ⟨by simp, ⟨rfl, rfl, rfl, rfl⟩, fun h => h, rfl⟩

theorem response_refresh_eq {server : Server} {w : World} {cursor : Cursor}
    (hmodern : Modern server cursor) (hnamed : Named w.cursor)
    (request : Request) :
    ∃ w', response_refresh server w request = .ok w' ∧
      Refreshed w request (server.run_command w.log request) w' := by
  rw [response_refresh]
  cases hresponse : server.run_command w.log request with
  | reply doc =>
    obtain ⟨⟨in_batch, c⟩, hread, hin, huntouched, herror, hc, hid, hbatch⟩ :=
      start_reading_response_eq (hmodern.replies _ _ _ hresponse)
        (c := { w.cursor with error := none }) hnamed
    obtain ⟨hstate, himpl, hopts, hcurrent⟩ := huntouched
    simp only [hread, Outcome.ok_bind]
    simp only at hin hid herror hc hbatch
    cases hsome : (Response.reply doc).batch.isSome with
    | true =>
      rw [hin, hsome]
      exact ⟨_, rfl, rfl, ⟨hstate, himpl, hopts, hcurrent⟩, hc, hid,
        ⟨fun _ => hsome, fun _ => herror⟩, hbatch⟩
    | false =>
      obtain ⟨hfailed, hkept, hstill, hsame⟩ := invalid_reply_spec request.command c
      rw [hin, hsome]
      refine ⟨_, rfl, rfl, Untouched.trans ⟨hstate, himpl, hopts, hcurrent⟩ hkept, ?_,
        hsame.trans hid, ⟨fun hnone => absurd hnone hfailed, fun htrue => ?_⟩, fun b hb => ?_⟩
      · rw [if_neg Bool.false_ne_true]
        exact hstill hc
      · rw [hsome] at htrue
        cases htrue
      · rw [hb] at hsome
        cases hsome
  | failed error =>
    obtain ⟨hfailed, hkept, hstill, hsame⟩ := invalid_reply_spec request.command
      { w.cursor with error := error.or w.cursor.error }
    obtain ⟨hstate, himpl, hopts, hcurrent⟩ := hkept
    refine ⟨_, rfl, rfl, ⟨hstate, himpl, hopts, hcurrent⟩, ?_, hsame,
      ⟨fun hnone => absurd hnone hfailed, fun htrue => ?_⟩, fun b hb => ?_⟩
    · exact hstill hnamed
    · cases htrue
    · cases hb

/-! ## Asking for the next batch -/

/-- A document that starts with a field keeps it, whatever is appended. -/
def StartsWith (b : BsonT) (f : Bytes × Value) : Prop := ∃ rest, b.fields = f :: rest

/-- The key of an option and a value that a document of the library can hold. -/
def Small (key : Bytes) (v : Value) : Prop :=
  NulFree key ∧ fieldSize key v ≤ BSON_GROW_LIMIT + 40

theorem StartsWith.append {b : BsonT} {f : Bytes × Value} (h : StartsWith b f) {key : Bytes}
    {v : Value} (hsmall : Small key v) :
    ∃ b', dropResult (bson_append b key v) = .ok b' ∧ StartsWith b' f := by
  obtain ⟨rest, hrest⟩ := h
  obtain ⟨hkey, hsize⟩ := hsmall
  unfold BSON_GROW_LIMIT at hsize
  have hlen : key.length < 2 ^ 31 := by
    unfold fieldSize at hsize
    omega
  rcases bson_append_cases b key v with ⟨k, -, -, heq⟩ | heq | ⟨k, hk, hlarge, -⟩
  · rw [heq]
    exact ⟨_, rfl, rest ++ [(k, v)], by rw [BsonT.push_fields, hrest, List.cons_append]⟩
  · rw [heq]
    exact ⟨_, rfl, rest, hrest⟩
  · rw [HANDLE_KEY_LENGTH_of_nulFree hkey hlen] at hk
    obtain rfl := Option.some.inj hk
    omega

theorem StartsWith.append_copied {b : BsonT} {f : Bytes × Value} (h : StartsWith b f)
    {key : Bytes} {v : Value} (hkey : NulFree key) (hsize : fieldSize key v ≤ BSON_GROW_LIMIT) :
    ∃ b', dropResult (append_copied b key v) = .ok b' ∧ StartsWith b' f := by
  cases v with
  | binary subtype payload =>
    have hle : (bson_iter_binary subtype payload).length ≤ payload.length := by
      rw [bson_iter_binary]
      split
      · rw [List.length_drop]
        omega
      · exact le_refl _
    simp only [fieldSize, Value.size] at hsize
    simp only [Mongo.append_copied, bson_append_binary]
    split
    all_goals
      refine h.append ⟨hkey, ?_⟩
      simp only [fieldSize, Value.size, List.length_append, length_le32, List.length_take]
      omega
  | regex pattern options =>
    have hoptions : (sortedOptions options).length ≤ 6 := List.length_filter_le _ _
    have hpattern : (cutString pattern).length ≤ pattern.length :=
      (List.length_take_le' _ _).trans (length_cString_le pattern)
    simp only [fieldSize, Value.size] at hsize
    refine h.append ⟨hkey, ?_⟩
    simp only [fieldSize, Value.size]
    omega
  | _ => exact h.append ⟨hkey, hsize.trans (Nat.le_add_right _ _)⟩

theorem small_int64 {key : Bytes} (hkey : NulFree key) (hlen : key.length ≤ 20) (i : Int64) :
    Small key (.int64 i) := by
  refine ⟨hkey, ?_⟩
  simp only [fieldSize, Value.size]
  unfold BSON_GROW_LIMIT
  omega

/-- The first field of `getMore`. -/
theorem startsWith_getMore (id : Int64) :
    ∃ b, dropResult (bson_append_int64 BsonT.bson_init (bytes "getMore") id) = .ok b ∧
      StartsWith b (bytes "getMore", .int64 id) := by
  have hfits : BsonT.bson_init.closed + fieldSize (bytes "getMore") (.int64 id) ≤
      BsonT.bson_init.limit := by
    change 5 + (1 + 7 + 1 + 8) ≤ BSON_GROW_LIMIT
    decide
  rw [bson_append_int64, bson_append_of_fits (by decide) (by decide) (by decide) hfits]
  exact ⟨_, rfl, [], rfl⟩

/-- A look at the server.  When there is no connection, the cursor has an error. -/
theorem fetch_stream_spec (server : Server) (w : World) :
    ∃ version w', fetch_stream server w = (version, w') ∧ w'.log = w.log ∧
      (∃ e, w'.cursor = { w.cursor with error := e }) ∧
      (version = none → ∃ e, server.fetch_stream w.fetches = .error e ∧ w.fetches < w'.fetches ∧
        w'.cursor = { w.cursor with error := some e }) ∧
      ∀ v, version = some v → w'.cursor = w.cursor ∧ server.fetch_stream w.fetches = .ok v := by
  rw [fetch_stream]
  cases hfetch : server.fetch_stream w.fetches with
  | ok v =>
    refine ⟨_, _, rfl, rfl, ⟨w.cursor.error, rfl⟩, by simp, ?_⟩
    rintro _ ⟨⟩
    exact ⟨rfl, rfl⟩
  | error e =>
    exact ⟨_, _, rfl, rfl, ⟨some e, rfl⟩, fun _ => ⟨e, rfl, Nat.lt_succ_self _, rfl⟩, by simp⟩

/-- A field that is found is no larger than the document. -/
theorem fieldSize_of_find {doc : Doc} {key : String} {v : Value}
    (h : bson_iter_init_find doc key = some v) : fieldSize (bytes key) v ≤ docSize doc := by
  obtain ⟨⟨k, x⟩, hfind, rfl⟩ := Option.map_eq_some_iff.mp h
  obtain rfl : k = bytes key := by simpa using List.find?_some hfind
  obtain ⟨before, after, rfl⟩ := List.append_of_mem (List.mem_of_find?_eq_some hfind)
  rw [docSize, fieldsSize_append, fieldsSize_cons]
  dsimp only
  omega

theorem append_comment_spec (server : Server) {w : World} (husable : Usable w.cursor) {b : BsonT}
    {f : Bytes × Value} (h : StartsWith b f) :
    ∃ b' w', append_comment server w b = .ok (b', w') ∧ StartsWith b' f ∧ w'.log = w.log ∧
      ∃ e, w'.cursor = { w.cursor with error := e } := by
  rw [append_comment]
  cases hfind : bson_iter_init_find w.cursor.opts "comment" with
  | none => exact ⟨b, w, rfl, h, rfl, w.cursor.error, rfl⟩
  | some comment =>
    obtain ⟨version, w', hfetch, hlog, herror, -⟩ := fetch_stream_spec server w
    simp only [hfetch]
    cases version with
    | none => exact ⟨b, w', rfl, h, hlog, herror⟩
    | some v =>
      obtain ⟨b', happend, hstarts⟩ := h.append_copied (by decide)
        ((fieldSize_of_find hfind).trans husable.size)
      dsimp only
      split
      · exact ⟨b', w', by rw [happend]; rfl, hstarts, hlog, herror⟩
      · exact ⟨b, w', rfl, h, hlog, herror⟩

/-- The least `int` is no number of documents. -/
theorem n_return_gt {limit : Int} (hlimit : -2 ^ 31 < limit) (batch_size count : Nat) :
    -2 ^ 31 < n_return limit batch_size count := by
  unfold n_return
  dsimp only
  split_ifs <;> omega

theorem abs32_n_return {cursor : Cursor} (h : Usable cursor) :
    ∃ n size, _mongoc_n_return cursor = .ok n ∧ abs32 n = .ok size := by
  obtain ⟨limit, hlimit, hlow, hhigh⟩ := h.limit
  obtain ⟨batch_size, hbatch⟩ := h.batchSize
  rw [_mongoc_n_return, mongoc_cursor_get_limit, mongoc_cursor_get_batch_size, hlimit, hbatch]
  simp only [Outcome.ok_bind]
  generalize hsigned : (if limit > 0 ∧ get_opt_bool cursor "singleBatch" = true then -limit
    else limit) = signed
  have hgt : -2 ^ 31 < signed.toInt := by
    rw [← hsigned]
    split
    · have hneg : (-limit).toInt = -limit.toInt := by
        rw [Int64.toInt_neg, Int.bmod_eq_of_le] <;> omega
      omega
    · exact hlow
  have hn := n_return_gt hgt batch_size.toUInt64.toUInt32.toNat cursor.count
  refine ⟨_, _, rfl, if_neg ?_⟩
  omega

theorem append_batch_size_eq {cursor : Cursor} (h : Usable cursor) {b : BsonT}
    {f : Bytes × Value} (hstarts : StartsWith b f) :
    ∃ b', append_batch_size cursor b = .ok b' ∧ StartsWith b' f := by
  obtain ⟨i, hi⟩ := h.batchSize
  obtain ⟨n, size, hn, hsize⟩ := abs32_n_return h
  rw [append_batch_size, mongoc_cursor_get_batch_size, hi]
  simp only [Outcome.ok_bind]
  split
  · rw [hn, Outcome.ok_bind, hsize, Outcome.ok_bind]
    exact hstarts.append (small_int64 (by decide) (by decide) _)
  · exact ⟨b, rfl, hstarts⟩

theorem append_max_time_eq {cursor : Cursor} (h : Usable cursor) {b : BsonT}
    {f : Bytes × Value} (hstarts : StartsWith b f) :
    ∃ b', append_max_time cursor b = .ok b' ∧ StartsWith b' f := by
  obtain ⟨i, hi⟩ := h.maxAwaitTimeMS
  rw [append_max_time]
  split
  · rw [hi, Outcome.ok_bind]
    split
    · exact hstarts.append (small_int64 (by decide) (by decide) _)
    · exact ⟨b, rfl, hstarts⟩
  · exact ⟨b, rfl, hstarts⟩

/-- `getMore` starts with the id of the cursor. -/
theorem prepare_getmore_command_eq (server : Server) {w : World} (h : Usable w.cursor)
    (hnamed : Named w.cursor) :
    ∃ rest w', prepare_getmore_command server w =
        .ok ((bytes "getMore", .int64 w.cursor.cursor_id) :: rest, w') ∧ w'.log = w.log ∧
      ∃ e, w'.cursor = { w.cursor with error := e } := by
  obtain ⟨collection, hcoll, hlen⟩ : ∃ collection,
      cursor_collection w.cursor = .ok collection ∧ collection.length ≤ BSON_GROW_LIMIT :=
    ⟨_, if_pos hnamed.1, ((List.take_sublist _ _).trans (List.drop_sublist _ _)).length_le.trans
      hnamed.2⟩
  obtain ⟨b₁, hgetMore, hfirst⟩ := startsWith_getMore w.cursor.cursor_id
  have hcounted : countedArg collection = collection :=
    countedArg_eq_self (hlen.trans_lt (by decide))
  have hsmall : Small (bytes "collection") (.utf8 (countedArg collection)) := by
    refine ⟨by decide, ?_⟩
    rw [hcounted, fieldSize, Value.size]
    change 1 + 10 + 1 + _ ≤ _
    omega
  obtain ⟨b₂, hcollection, hopen⟩ := hfirst.append hsmall
  obtain ⟨b, hb, hstarts⟩ := append_batch_size_eq h hopen
  obtain ⟨b', w', hcomment, hstarts', hlog, e, hcursor⟩ := append_comment_spec server h hstarts
  obtain ⟨b'', hmax, rest, hrest⟩ :=
    append_max_time_eq (h.of_opts (show w'.cursor.opts = _ by rw [hcursor])) hstarts'
  refine ⟨rest, w', ?_, hlog, e, hcursor⟩
  rw [prepare_getmore_command, hcoll, Outcome.ok_bind, hgetMore, Outcome.ok_bind,
    bson_append_utf8, hcollection, Outcome.ok_bind, hb, Outcome.ok_bind, hcomment, Outcome.ok_bind]
  dsimp only
  rw [hmax, Outcome.ok_bind, hrest]

/-! ## The invariant -/

/-- The command that a cursor opens with. -/
def opening (cursor : Cursor) : Outcome Stop Request :=
  match cursor.impl with
  | .find filter | .find_cmd filter => do
    let find_cmd ← prepare_find_command cursor filter
    .ok ⟨find_cmd, some cursor.opts⟩
  | .cmd cmd _ => .ok ⟨cmd, some (withoutBatchSize cursor.opts)⟩

/-- The documents that are before the cursor in its batch. -/
def pending (cursor : Cursor) : List Doc :=
  if cursor.state = .IN_BATCH then documentsOf cursor.batch_iter else []

/-- The state in which a transition leaves the cursor. -/
def World.withState (w : World) (state : CursorState) : World :=
  w.set fun c => { c with state := if c.error.isSome then .DONE else state }

theorem withState_of_error {w : World} (h : w.cursor.error ≠ none) (state : CursorState) :
    (w.withState state).cursor.state = .DONE := if_pos (Option.isSome_iff_ne_none.mpr h)

theorem withState_of_none {w : World} (h : w.cursor.error = none) (state : CursorState) :
    (w.withState state).cursor.state = state := by
  rw [World.withState, World.set, h]
  rfl

/-- A cursor that has delivered these documents. -/
structure Reading (server : Server) (first : Request) (w : World) (delivered : List Doc) :
    Prop where
  modern : Modern server w.cursor
  usable : Usable w.cursor
  named : Named w.cursor
  id : w.cursor.cursor_id = idAfter w.log
  asked : Asked first w.log
  read : delivered ++ pending w.cursor = received w.log
  unprimed : w.cursor.state = .UNPRIMED → w.log = [] ∧ opening w.cursor = .ok first
  opened : w.cursor.state = .IN_BATCH ∨ w.cursor.state = .END_OF_BATCH →
    w.cursor.error = none ∧ w.log ≠ [] ∧ ∀ e ∈ w.log, e.2.batch.isSome = true
  more : w.cursor.state = .END_OF_BATCH → w.cursor.cursor_id ≠ 0
  done : w.cursor.state = .DONE → w.cursor.error = none → w.cursor.cursor_id = 0 ∧ w.log ≠ []
  cause : ∀ e, w.cursor.error = some e → Cause server w.fetches w.log e

section

variable {server : Server} {first : Request} {w : World} {delivered : List Doc}

/-- A cursor that has failed is not read any more. -/
theorem Reading.fail (h : Reading server first w delivered) (hpending : pending w.cursor = [])
    {w' : World} (hlog : w'.log = w.log) {e : Failure} (hcause : Cause server w'.fetches w.log e)
    (hcursor : w'.cursor = { w.cursor with error := some e }) (state : CursorState) :
    Reading server first (w'.withState state) delivered := by
  obtain ⟨c', log', fetches'⟩ := w'
  obtain rfl : c' = { w.cursor with error := some e } := hcursor
  obtain rfl : log' = w.log := hlog
  have hread := h.read
  rw [hpending] at hread
  refine ⟨h.modern.of_opts rfl, h.usable.of_opts rfl, h.named, h.id, h.asked, ?_, ?_, ?_, ?_,
    ?_, fun e' he' => ?_⟩
  · simpa [World.withState, World.set, pending] using hread
  · simp [World.withState, World.set]
  · simp [World.withState, World.set]
  · simp [World.withState, World.set]
  · simp [World.withState, World.set]
  · cases he'
    exact hcause

/-- A reply that has come: its documents are before the cursor now. -/
theorem Refreshed.reading {request : Request} {response : Response} {w' : World}
    (h : Refreshed w request response w') (hmodern : Modern server w.cursor)
    (husable : Usable w.cursor) (hid : w.cursor.cursor_id = idAfter w.log)
    (hasked : Asked first (w.log ++ [(request, response)])) (hread : delivered = received w.log)
    (hbatch : ∀ e ∈ w.log, e.2.batch.isSome = true) :
    Reading server first (w'.withState .IN_BATCH) delivered := by
  have hpending : pending (w'.withState .IN_BATCH).cursor = response.documents := by
    cases hb : response.batch with
    | none =>
      have herror : w'.cursor.error ≠ none := fun hnone => by
        have hsome := h.error.mp hnone
        rw [hb] at hsome
        cases hsome
      rw [pending, withState_of_error herror, if_neg (by decide), Response.documents, hb]
      rfl
    | some b =>
      have herror : w'.cursor.error = none := h.error.mpr (by rw [hb]; rfl)
      rw [pending, withState_of_none herror, if_pos rfl, Response.documents, hb]
      exact congrArg documentsOf (h.batch b hb)
  refine ⟨hmodern.of_opts h.untouched.opts, husable.of_opts h.untouched.opts, h.named, ?_, ?_,
    ?_, ?_, ?_, ?_, ?_, fun e he => ?_⟩
  · change w'.cursor.cursor_id = idAfter w'.log
    rw [h.id, h.log, idAfter_append, hid]
  · change Asked first w'.log
    rw [h.log]
    exact hasked
  · change _ = received w'.log
    rw [hpending, h.log, received_append, hread]
  pick_goal 5
  · refine .reply (request, response) (by change w'.log.getLast? = _; rw [h.log]; simp) ?_
    change w'.cursor.error = some e at he
    rw [← Option.not_isSome_iff_eq_none, ← h.error, he]
    simp
  all_goals
    by_cases herror : w'.cursor.error = none
    all_goals
      first
        | rw [withState_of_none herror]
        | rw [withState_of_error herror]
  · simp
  · simp
  · refine fun _ => ⟨herror, ?_, ?_⟩
    · change w'.log ≠ []
      simp [h.log]
    · change ∀ e ∈ w'.log, _
      rw [h.log]
      intro e he
      rcases List.mem_append.mp he with hold | hnew
      · exact hbatch e hold
      · obtain rfl := List.mem_singleton.mp hnew
        exact h.error.mp herror
  · simp
  · simp
  · simp
  · simp
  · exact fun _ hnone => absurd hnone herror

/-! ## Transitions -/

/-- What a transition to a batch comes to: the server is not asked, or it is asked once. -/
structure Primed (server : Server) (first : Request) (w : World) (delivered : List Doc)
    (w' : World) : Prop where
  reading : Reading server first w' delivered
  log : w.log <+: w'.log
  current : w'.cursor.current = w.cursor.current
  state : w'.cursor.state = .DONE ∨ ∃ e, w'.log = w.log ++ [e] ∧ w'.cursor.state = .IN_BATCH

/-- One request.  The world may differ from that of the cursor by an error and by what is known
of the server. -/
theorem Reading.ask (h : Reading server first w delivered) (hpending : pending w.cursor = [])
    (hbatch : ∀ e ∈ w.log, e.2.batch.isSome = true) {w₁ : World} (hlog : w₁.log = w.log)
    {error : Option Failure} {impl : Impl}
    (hcursor : w₁.cursor = { w.cursor with error := error, impl := impl }) (request : Request)
    (hasked : ∀ response, Asked first (w.log ++ [(request, response)])) :
    ∃ w', response_refresh server w₁ request = .ok w' ∧
      Primed server first w delivered (w'.withState .IN_BATCH) := by
  have hopts : w₁.cursor.opts = w.cursor.opts := by rw [hcursor]
  have hnamed : Named w₁.cursor := by
    rw [hcursor]
    exact h.named
  have hid : w₁.cursor.cursor_id = idAfter w₁.log := by
    rw [hcursor, hlog]
    exact h.id
  have hread : delivered = received w₁.log := by
    rw [hlog, ← h.read, hpending, List.append_nil]
  obtain ⟨w', hrun, hrefreshed⟩ := response_refresh_eq h.modern hnamed request
  have hreading := hrefreshed.reading (h.modern.of_opts hopts)
    (h.usable.of_opts hopts) hid (by rw [hlog]; exact hasked _) hread (by rw [hlog]; exact hbatch)
  refine ⟨w', hrun, hreading, ?_, ?_, ?_⟩
  · change w.log <+: w'.log
    rw [hrefreshed.log, hlog]
    exact List.prefix_append _ _
  · change w'.cursor.current = _
    rw [hrefreshed.untouched.current, hcursor]
  · by_cases herror : w'.cursor.error = none
    · refine Or.inr ⟨(request, server.run_command w₁.log request), ?_, withState_of_none herror _⟩
      change w'.log = _
      rw [hrefreshed.log, hlog]
    · exact Or.inl (withState_of_error herror _)

/-- The `find` command. -/
theorem Reading.find_primed (h : Reading server first w delivered)
    (hstate : w.cursor.state = .UNPRIMED) {filter : Doc}
    (hopening : (do
      let find_cmd ← prepare_find_command w.cursor filter
      .ok ⟨find_cmd, some w.cursor.opts⟩) = Outcome.ok first)
    (w₁ : World) (hlog : w₁.log = w.log) {impl : Impl}
    (hcursor : w₁.cursor = { w.cursor with impl := impl }) :
    ∃ w', prime_find_cmd server w₁ filter = .ok (.IN_BATCH, w') ∧
      Primed server first w delivered (w'.withState .IN_BATCH) := by
  have hnone := (h.unprimed hstate).1
  obtain ⟨find_cmd, hprepare, hfirst⟩ := Outcome.bind_eq_ok_iff.mp hopening
  have hprepare₁ : prepare_find_command w₁.cursor filter = .ok find_cmd := by
    rw [hcursor]
    exact hprepare
  have hrequest : (⟨find_cmd, some w₁.cursor.opts⟩ : Request) = first := by
    rw [hcursor]
    exact Outcome.ok.inj hfirst
  have hsame : w₁.cursor = { w.cursor with error := w.cursor.error, impl := impl } := hcursor
  obtain ⟨w', hrun, hprimed⟩ := h.ask (if_neg (by rw [hstate]; decide)) (by simp [hnone]) hlog
    hsame first fun response => by
      rw [hnone]
      exact Asked.opened response
  refine ⟨w', ?_, hprimed⟩
  rw [prime_find_cmd, hprepare₁, Outcome.ok_bind, hrequest, hrun]
  rfl

/-- A look at the server: there is no connection, or there is one to a server with the commands. -/
theorem Reading.look (h : Reading server first w delivered) (hpending : pending w.cursor = []) :
    (∃ w', fetch_stream server w = (none, w') ∧
      Primed server first w delivered (w'.withState .DONE)) ∨
    ∃ version w', fetch_stream server w = (some version, w') ∧ w'.log = w.log ∧
      w'.cursor = w.cursor ∧ usesCommands w'.cursor version := by
  obtain ⟨version, w', hfetch, hlog, -, herror, hsome⟩ := fetch_stream_spec server w
  cases version with
  | none =>
    obtain ⟨e, he, hcount, hcursor⟩ := herror rfl
    refine Or.inl ⟨w', hfetch, h.fail hpending hlog (.connection _ hcount he) hcursor .DONE, ?_, ?_,
      Or.inl (withState_of_error (by rw [hcursor]; simp) _)⟩
    · change w.log <+: w'.log
      rw [hlog]
    · change w'.cursor.current = _
      rw [hcursor]
  | some version =>
    obtain ⟨hsame, hversion⟩ := hsome version rfl
    exact Or.inr ⟨version, w', hfetch, hlog, hsame,
      hsame.symm ▸ h.modern.commands _ _ hversion⟩

/-- The opening command. -/
theorem Reading.primed (h : Reading server first w delivered)
    (hstate : w.cursor.state = .UNPRIMED) :
    ∃ state w', prime server w = .ok (state, w') ∧
      Primed server first w delivered (w'.withState state) := by
  obtain ⟨hnone, hopening⟩ := h.unprimed hstate
  have hpending : pending w.cursor = [] := if_neg (by rw [hstate]; decide)
  rw [prime]
  cases himpl : w.cursor.impl with
  | find filter =>
    rw [opening, himpl] at hopening
    rcases h.look hpending with ⟨w₁, hfetch, hprimed⟩ | ⟨version, w₁, hfetch, hlog, hcursor, huses⟩
    · simp only [hfetch]
      exact ⟨_, w₁, rfl, hprimed⟩
    · obtain ⟨w', hrun, hprimed⟩ := h.find_primed hstate hopening
        (w₁.set fun c => { c with impl := .find_cmd filter }) hlog (by rw [World.set, hcursor])
      simp only [hfetch, if_pos huses]
      exact ⟨_, w', hrun, hprimed⟩
  | find_cmd filter =>
    rw [opening, himpl] at hopening
    obtain ⟨w', hrun, hprimed⟩ := h.find_primed hstate hopening w rfl rfl
    exact ⟨_, w', hrun, hprimed⟩
  | cmd cmd getmore_cmd =>
    rw [opening, himpl] at hopening
    obtain rfl := Outcome.ok.inj hopening
    obtain ⟨w', hrun, hprimed⟩ := h.ask hpending (by simp [hnone]) rfl
      (show w.cursor = { w.cursor with error := w.cursor.error, impl := w.cursor.impl } from rfl)
      ⟨cmd, some (withoutBatchSize w.cursor.opts)⟩ fun response => by
        rw [hnone]
        exact Asked.opened response
    refine ⟨.IN_BATCH, w', ?_, hprimed⟩
    simp only [hrun]
    rfl

/-- `getMore`. -/
theorem Reading.getmore_primed (h : Reading server first w delivered)
    (hstate : w.cursor.state = .END_OF_BATCH) (w₁ : World) (hlog : w₁.log = w.log) {impl : Impl}
    (hcursor : w₁.cursor = { w.cursor with impl := impl }) :
    ∃ w', getmore server w₁ = .ok (.IN_BATCH, w') ∧
      Primed server first w delivered (w'.withState .IN_BATCH) := by
  obtain ⟨-, hopen, hbatch⟩ := h.opened (Or.inr hstate)
  have husable : Usable w₁.cursor := h.usable.of_opts (by rw [hcursor])
  have hnamed : Named w₁.cursor := by
    rw [hcursor]
    exact h.named
  obtain ⟨rest, w₂, hprepare, hlog₂, e, hcursor₂⟩ :=
    prepare_getmore_command_eq server husable hnamed
  have hid : w₁.cursor.cursor_id = idAfter w.log := by
    rw [hcursor]
    exact h.id
  rw [hid] at hprepare
  have hnonzero : idAfter w.log ≠ 0 := h.id ▸ h.more hstate
  obtain ⟨w', hrun, hprimed⟩ := h.ask (if_neg (by rw [hstate]; decide)) hbatch
    (hlog₂.trans hlog) (by rw [hcursor₂, hcursor])
    ⟨(bytes "getMore", .int64 (idAfter w.log)) :: rest, none⟩
    fun response => Asked.more rest response h.asked hopen hbatch hnonzero
  refine ⟨w', ?_, hprimed⟩
  rw [getmore, hprepare, Outcome.ok_bind]
  dsimp only
  rw [hrun]
  rfl

/-- The next batch. -/
theorem Reading.next_batch (h : Reading server first w delivered)
    (hstate : w.cursor.state = .END_OF_BATCH) :
    ∃ state w', get_next_batch server w = .ok (state, w') ∧
      Primed server first w delivered (w'.withState state) := by
  have hpending : pending w.cursor = [] := if_neg (by rw [hstate]; decide)
  obtain ⟨w', hrun, hprimed⟩ := h.getmore_primed hstate w rfl rfl
  have hid := h.more hstate
  rw [get_next_batch]
  cases himpl : w.cursor.impl with
  | find filter =>
    simp only [if_neg hid]
    exact ⟨_, w', hrun, hprimed⟩
  | find_cmd filter =>
    simp only [if_neg hid]
    exact ⟨_, w', hrun, hprimed⟩
  | cmd cmd getmore_cmd =>
    cases getmore_cmd with
    | true => exact ⟨_, w', hrun, hprimed⟩
    | false =>
      -- what the server can do is looked up once
      rcases h.look hpending with
        ⟨w₁, hfetch, hprimed₁⟩ | ⟨version, w₁, hfetch, hlog, hcursor, huses⟩
      · simp only [hfetch]
        exact ⟨_, w₁, rfl, hprimed₁⟩
      · obtain ⟨w₂, hrun₂, hprimed₂⟩ := h.getmore_primed hstate
          (w₁.set fun c => { c with impl := .cmd cmd true }) hlog (by rw [World.set, hcursor])
        simp only [hfetch, if_pos huses]
        exact ⟨_, w₂, hrun₂, hprimed₂⟩

/-- The batch has a document, or there is nothing in it any more. -/
theorem response_read_cases (c : Cursor) :
    (∃ doc rest, documentsOf c.batch_iter = doc :: documentsOf rest ∧
      response_read c = { c with batch_iter := rest, current := some doc }) ∨
    documentsOf c.batch_iter = [] ∧ ∃ rest, response_read c = { c with batch_iter := rest } := by
  rw [response_read]
  cases hbatch : c.batch_iter with
  | nil => exact Or.inr ⟨rfl, [], by change c = _; rw [← hbatch]⟩
  | cons f rest =>
    obtain ⟨key, v⟩ := f
    cases v with
    | document doc => exact Or.inl ⟨doc, rest, rfl, rfl⟩
    | _ => exact Or.inr ⟨rfl, rest, rfl⟩

/-- What reading from the batch comes to: a document, or the end of the batch. -/
structure Popped (server : Server) (first : Request) (w : World) (delivered : List Doc)
    (w' : World) : Prop where
  log : w'.log = w.log
  document : ∀ doc, w'.cursor.current = some doc →
    Reading server first w' (delivered ++ [doc]) ∧ w'.cursor.error = none
  nothing : w'.cursor.current = none →
    Reading server first w' delivered ∧ (w'.cursor.state = .END_OF_BATCH ∨ w'.cursor.state = .DONE)

/-- A document of the batch, or its end. -/
theorem Reading.popped (h : Reading server first w delivered)
    (hstate : w.cursor.state = .IN_BATCH) (hcurrent : w.cursor.current = none) :
    Popped server first w delivered ((pop_from_batch w).2.withState (pop_from_batch w).1) := by
  obtain ⟨herror, hopen, hbatch⟩ := h.opened (Or.inl hstate)
  have hread := h.read
  rw [pending, if_pos hstate] at hread
  rcases response_read_cases w.cursor with ⟨doc, rest, hdocuments, hpop⟩ | ⟨hdocuments, rest, hpop⟩
  · have hworld : (pop_from_batch w).2.withState (pop_from_batch w).1 = { w with cursor :=
        { w.cursor with batch_iter := rest, current := some doc, state := .IN_BATCH } } := by
      simp [pop_from_batch, World.withState, World.set, hpop, herror]
    rw [hworld]
    refine ⟨rfl, fun doc' hdoc => ?_, nofun⟩
    obtain rfl := Option.some.inj hdoc
    rw [hdocuments, List.append_cons] at hread
    exact ⟨⟨h.modern.of_opts rfl, h.usable.of_opts rfl, h.named, h.id, h.asked, hread,
      nofun, fun _ => ⟨herror, hopen, hbatch⟩, nofun, nofun, h.cause⟩, herror⟩
  · rw [hdocuments, List.append_nil] at hread
    obtain ⟨state, hnext, hwhy⟩ : ∃ state : CursorState,
        (if w.cursor.cursor_id ≠ 0 then .END_OF_BATCH else .DONE) = state ∧
          (state = .END_OF_BATCH ∧ w.cursor.cursor_id ≠ 0 ∨
            state = .DONE ∧ w.cursor.cursor_id = 0) := by
      by_cases hid : w.cursor.cursor_id = 0
      · exact ⟨_, if_neg (not_not.mpr hid), Or.inr ⟨rfl, hid⟩⟩
      · exact ⟨_, if_pos hid, Or.inl ⟨rfl, hid⟩⟩
    have hworld : (pop_from_batch w).2.withState (pop_from_batch w).1 = { w with cursor :=
        { w.cursor with batch_iter := rest, state := state } } := by
      simp [pop_from_batch, World.withState, World.set, hpop, herror, hcurrent, ← hnext]
    rw [hworld]
    refine ⟨rfl, fun doc hdoc => ?_, fun _ => ?_⟩
    · rw [hcurrent] at hdoc
      cases hdoc
    · have hread' : delivered ++ [] = received w.log := by rw [List.append_nil, hread]
      rcases hwhy with ⟨rfl, hid⟩ | ⟨rfl, hid⟩
      · exact ⟨⟨h.modern.of_opts rfl, h.usable.of_opts rfl, h.named, h.id, h.asked, hread',
          nofun, fun _ => ⟨herror, hopen, hbatch⟩, fun _ => hid, nofun, h.cause⟩, Or.inl rfl⟩
      · refine ⟨⟨h.modern.of_opts rfl, h.usable.of_opts rfl, h.named, h.id, h.asked, hread',
          nofun, fun hother => ?_, nofun, fun _ _ => ⟨hid, hopen⟩, h.cause⟩, Or.inr rfl⟩
        rcases hother with hother | hother <;> cases hother

/-! ## The loop -/

/-- A round of the loop that asks for a transition. -/
theorem nextLoop_succ {fuel : Nat} {attempted_refresh : Bool} (state : CursorState) (w' : World)
    (hdone : w.cursor.state ≠ .DONE)
    (hagain : ¬ (w.cursor.state = .END_OF_BATCH ∧ attempted_refresh = true))
    (htransition : _call_transition server w =
      .ok (if w'.cursor.error.isSome then .DONE else state, w')) :
    nextLoop server (fuel + 1) attempted_refresh w =
      if (w'.withState state).cursor.current.isSome then .ok (false, w'.withState state)
      else nextLoop server fuel (attempted_refresh || decide (w.cursor.state = .END_OF_BATCH))
        (w'.withState state) := by
  rw [nextLoop, if_neg hdone, if_neg hagain, htransition, Outcome.ok_bind]
  rfl

/-- The rounds that are left. -/
def roundsLeft (attempted_refresh : Bool) : CursorState → Nat
  | .UNPRIMED => 5
  | .IN_BATCH => if attempted_refresh then 2 else 4
  | .END_OF_BATCH => if attempted_refresh then 1 else 3
  | .DONE => 1

/-- What the loop comes to. -/
structure Looped (server : Server) (first : Request) (before : List (Request × Response))
    (delivered : List Doc) (returned : Bool) (w' : World) : Prop where
  log : before <+: w'.log
  document : ∀ doc, w'.cursor.current = some doc →
    returned = false ∧ Reading server first w' (delivered ++ [doc]) ∧ w'.cursor.error = none
  nothing : w'.cursor.current = none → Reading server first w' delivered ∧
    pending w'.cursor = [] ∧ (w'.cursor.state = .DONE ∨ before.length < w'.log.length)

/-- A cursor that is done. -/
theorem Reading.looped_done (h : Reading server first w delivered)
    (hcurrent : w.cursor.current = none) (hstate : w.cursor.state = .DONE)
    {log : List (Request × Response)} (hlog : log <+: w.log) (fuel : Nat) (attempted : Bool) :
    nextLoop server (fuel + 1) attempted w = .ok (false, w) ∧
      Looped server first log delivered false w := by
  refine ⟨by rw [nextLoop, if_pos hstate], hlog, fun doc hdoc => ?_,
    fun _ => ⟨h, ?_, Or.inl hstate⟩⟩
  · rw [hcurrent] at hdoc
    cases hdoc
  · exact if_neg (by rw [hstate]; decide)

/-- Every round brings the cursor on. -/
theorem Reading.looped (h : Reading server first w delivered) (hcurrent : w.cursor.current = none)
    {log : List (Request × Response)} (hlog : log <+: w.log) {attempted : Bool}
    (hattempted : attempted = true → log.length < w.log.length) {fuel : Nat}
    (hfuel : roundsLeft attempted w.cursor.state ≤ fuel) :
    ∃ returned w', nextLoop server fuel attempted w = .ok (returned, w') ∧
      Looped server first log delivered returned w' := by
  induction fuel generalizing w attempted with
  | zero =>
    exfalso
    cases hstate : w.cursor.state <;> cases attempted <;> simp [roundsLeft, hstate] at hfuel
  | succ fuel ih =>
    -- a request, or no connection for one
    have hasked (state : CursorState) (w' : World) (hprimed : Primed server first w delivered
        (w'.withState state)) (again : Bool) (hleft : roundsLeft again .IN_BATCH ≤ fuel) :
        ∃ returned w'', (if (w'.withState state).cursor.current.isSome then
            .ok (false, w'.withState state)
          else nextLoop server fuel again (w'.withState state)) = .ok (returned, w'') ∧
          Looped server first log delivered returned w'' := by
      have hnone := hprimed.current.trans hcurrent
      have hgrown := hlog.trans hprimed.log
      rw [hnone, if_neg (by simp)]
      rcases hprimed.state with hdone | ⟨e, happend, hbatch⟩
      · obtain ⟨fuel, rfl⟩ : ∃ n, fuel = n + 1 := by
          refine Nat.exists_eq_add_one_of_ne_zero ?_
          rintro rfl
          cases again <;> simp [roundsLeft] at hleft
        obtain ⟨hrun, hlooped⟩ := hprimed.reading.looped_done hnone hdone hgrown fuel again
        exact ⟨false, _, hrun, hlooped⟩
      · refine ih hprimed.reading hnone hgrown (fun _ => ?_) (hbatch.symm ▸ hleft)
        rw [happend, List.length_append]
        exact Nat.lt_succ_of_le hlog.length_le
    cases hstate : w.cursor.state with
    | DONE =>
      obtain ⟨hrun, hlooped⟩ := h.looped_done hcurrent hstate hlog fuel attempted
      exact ⟨false, w, hrun, hlooped⟩
    | UNPRIMED =>
      obtain ⟨state, w', hrun, hprimed⟩ := h.primed hstate
      rw [hstate] at hfuel
      rw [nextLoop_succ state w' (by rw [hstate]; decide) (by rw [hstate]; simp)
        (by rw [_call_transition, hstate]; simp only [hrun]; rfl)]
      refine hasked state w' hprimed _ ?_
      rw [hstate]
      cases attempted <;> simp [roundsLeft] at hfuel ⊢ <;> omega
    | IN_BATCH =>
      obtain ⟨hlog', hdocument, hnothing⟩ := h.popped hstate hcurrent
      rw [hstate] at hfuel
      rw [nextLoop_succ (pop_from_batch w).1 (pop_from_batch w).2 (by rw [hstate]; decide)
        (by rw [hstate]; simp) (by rw [_call_transition, hstate]; rfl)]
      generalize (pop_from_batch w).2.withState (pop_from_batch w).1 = w' at *
      cases hdoc : w'.cursor.current with
      | some doc =>
        obtain ⟨hreading, herror⟩ := hdocument doc hdoc
        refine ⟨false, w', rfl, hlog'.symm ▸ hlog, fun doc' hdoc' => ?_, fun hnone => ?_⟩
        · rw [hdoc] at hdoc'
          obtain rfl := Option.some.inj hdoc'
          exact ⟨rfl, hreading, herror⟩
        · rw [hdoc] at hnone
          cases hnone
      | none =>
        obtain ⟨hreading, hnext⟩ := hnothing hdoc
        rw [hstate, if_neg (by simp)]
        refine ih hreading hdoc (hlog'.symm ▸ hlog) (fun hagain => ?_) ?_
        · rw [hlog']
          exact hattempted (by simpa using hagain)
        · rcases hnext with hnext | hnext <;> rw [hnext] <;>
            cases attempted <;> simp [roundsLeft] at hfuel ⊢ <;> omega
    | END_OF_BATCH =>
      rw [hstate] at hfuel
      cases attempted with
      | true =>
        refine ⟨true, w, ?_, hlog, fun doc hdoc => ?_, fun _ => ⟨h, ?_, Or.inr (hattempted rfl)⟩⟩
        · rw [nextLoop, if_neg (by rw [hstate]; decide), if_pos ⟨hstate, rfl⟩]
        · rw [hcurrent] at hdoc
          cases hdoc
        · exact if_neg (by rw [hstate]; decide)
      | false =>
        obtain ⟨state, w', hrun, hprimed⟩ := h.next_batch hstate
        rw [nextLoop_succ state w' (by rw [hstate]; decide) (by simp)
          (by rw [_call_transition, hstate]; simp only [hrun]; rfl)]
        refine hasked state w' hprimed _ ?_
        rw [hstate]
        simp [roundsLeft] at hfuel ⊢
        omega

end

/-! ## One call of the driver -/

/-- What a call gets. -/
inductive Fetched where
  | document (doc : Doc)
  | failed (e : Failure)
  | nothing

def Fetched.doc? : Fetched → Option Doc
  | .document doc => some doc
  | .failed _ | .nothing => none

def Fetched.error? : Fetched → Option Failure
  | .failed e => some e
  | .document _ | .nothing => none

/-- All that arrived has been delivered, and the server has closed the cursor, or it has just
been asked for more and its batch was empty. -/
def Exhausted (w w' : World) : Prop :=
  pending w'.cursor = [] ∧ ∃ e, w'.log.getLast? = some e ∧
    (idAfter w'.log = 0 ∨ w.log.length < w'.log.length ∧ e.2.documents = [])

/-- One call: the document is the next one, an error stays and has a cause, and there is nothing
only when all that arrived has been delivered and the server has no more. -/
structure Next (server : Server) (first : Request) (w : World) (delivered : List Doc)
    (r : Fetched) (w' : World) : Prop where
  reading : Reading server first w' (delivered ++ r.doc?.toList)
  error : w'.cursor.error = r.error?
  failed : ∀ e, w.cursor.error = some e → r = .failed e
  nothing : r = .nothing → Exhausted w w'

theorem Next.cause {server : Server} {first : Request} {w w' : World} {delivered : List Doc}
    {r : Fetched} (h : Next server first w delivered r w') {e : Failure} (hr : r = .failed e) :
    Cause server w'.fetches w'.log e :=
  h.reading.cause e (by rw [h.error, hr]; rfl)

section

variable {server : Server} {first : Request} {w : World} {delivered : List Doc}

/-- The fields that are set by `mongoc_cursor_next` itself. -/
theorem Reading.touched (h : Reading server first w delivered) (current : Option Doc)
    (count : Nat) :
    Reading server first (w.set fun c => { c with current := current, count := count })
      delivered :=
  ⟨h.modern.of_opts rfl, h.usable.of_opts rfl, h.named, h.id, h.asked, h.read, h.unprimed,
    h.opened, h.more, h.done, h.cause⟩

/-- When nothing of what arrived is left and more was asked for, the last batch was empty. -/
theorem Reading.last_empty (h : Reading server first w delivered) {w' : World}
    (h' : Reading server first w' delivered) (hpending : pending w'.cursor = [])
    (hlog : w.log <+: w'.log) (hmore : w.log.length < w'.log.length) :
    ∃ e, w'.log.getLast? = some e ∧ e.2.documents = [] := by
  obtain ⟨new, hnew⟩ := hlog
  have hread := h.read
  have hread' := h'.read
  rw [hpending, List.append_nil, ← hnew, received, List.flatMap_append] at hread'
  have hlength : delivered.length = delivered.length + (pending w.cursor).length +
      (received new).length := by
    rw [← List.length_append, hread, ← List.length_append]
    exact congrArg List.length hread'
  have hempty : received new = [] := List.length_eq_zero_iff.mp (by omega)
  have hne : new ≠ [] := by
    rintro rfl
    rw [← hnew, List.append_nil] at hmore
    exact lt_irrefl _ hmore
  refine ⟨new.getLast hne, ?_, ?_⟩
  · rw [← hnew, List.getLast?_append_of_ne_nil _ hne, List.getLast?_eq_some_getLast hne]
  · exact List.flatMap_eq_nil_iff.mp hempty _ (List.getLast_mem hne)

theorem Reading.next (h : Reading server first w delivered) :
    ∃ r w', mongoc_cursor_next server w = .ok (r.doc?, w') ∧
      Next server first w delivered r w' := by
  rw [mongoc_cursor_next]
  cases herror : w.cursor.error with
  | some e =>
    refine ⟨.failed e, w, rfl, ?_, herror, fun e' he' => ?_, nofun⟩
    · rw [Fetched.doc?, Option.toList_none, List.append_nil]
      exact h
    · rw [herror] at he'
      rw [Option.some.inj he']
  | none =>
    simp only [Option.isSome_none, Bool.false_eq_true, if_false]
    have hfresh (e : Failure) (he : w.cursor.error = some e) {r : Fetched} : r = .failed e := by
      rw [herror] at he
      cases he
    split
    · rename_i hdone
      have hpending : pending w.cursor = [] := if_neg (by rw [hdone]; decide)
      refine ⟨.failed _, _, rfl, ?_, rfl, fun e he => hfresh e he, nofun⟩
      rw [Fetched.doc?, Option.toList_none, List.append_nil]
      obtain ⟨hid, hopen⟩ := h.done hdone herror
      refine ⟨h.modern.of_opts rfl, h.usable.of_opts rfl, h.named, h.id, h.asked, h.read,
        h.unprimed, fun hother => ?_, h.more, nofun, fun e he => ?_⟩
      · rcases hother with hother | hother <;> exact absurd (hdone.symm.trans hother) (by decide)
      · cases he
        exact .completed hopen (h.id.symm.trans hid) rfl
    · have hstart := h.touched none w.cursor.count
      have hnotyet : false = true → w.log.length < w.log.length := nofun
      have hrounds : roundsLeft false w.cursor.state ≤ 6 := by cases w.cursor.state <;> decide
      obtain ⟨returned, w', hrun, hlog, hdocument, hnothing⟩ :=
        hstart.looped rfl (List.prefix_refl w.log) hnotyet hrounds
      have hrun' : nextLoop server 6 false (w.set fun c => { c with current := none }) =
          .ok (returned, w') := hrun
      rw [hrun', Outcome.ok_bind]
      dsimp only
      cases hcurrent : w'.cursor.current with
      | some doc =>
        obtain ⟨rfl, hreading, hnone⟩ := hdocument doc hcurrent
        exact ⟨.document doc, _, rfl, hreading.touched _ _, hnone,
          fun e he => hfresh e he, nofun⟩
      | none =>
        obtain ⟨hreading, hpending, hwhy⟩ := hnothing hcurrent
        have hempty (hnone : w'.cursor.error = none) : ∃ e, w'.log.getLast? = some e ∧
            (idAfter w'.log = 0 ∨ w.log.length < w'.log.length ∧ e.2.documents = []) := by
          rcases hwhy with hdone | hmore
          · obtain ⟨hid, hopen⟩ := hreading.done hdone hnone
            exact ⟨_, List.getLast?_eq_some_getLast hopen, Or.inl (hreading.id ▸ hid)⟩
          · obtain ⟨e, hlast, hdocuments⟩ := hstart.last_empty hreading hpending hlog hmore
            exact ⟨e, hlast, Or.inr ⟨hmore, hdocuments⟩⟩
        obtain ⟨w'', hw'', hreading', herror', hpending', hlog'⟩ : ∃ w'',
            (if returned = true then Outcome.ok (none, w') else
              .ok (none, w'.set fun c => { c with count := (c.count + 1) % 2 ^ 32 })) =
                (Outcome.ok (none, w'') : Outcome Stop (Option Doc × World)) ∧
            Reading server first w'' delivered ∧ w''.cursor.error = w'.cursor.error ∧
            pending w''.cursor = pending w'.cursor ∧ w''.log = w'.log := by
          cases returned with
          | true => exact ⟨w', rfl, hreading, rfl, rfl, rfl⟩
          | false => exact ⟨_, rfl, hreading.touched w'.cursor.current _, rfl, rfl, rfl⟩
        rw [hw'']
        cases hfailed : w'.cursor.error with
        | some e =>
          refine ⟨.failed e, w'', rfl, ?_, herror'.trans hfailed, fun e he => hfresh e he,
            nofun⟩
          rw [Fetched.doc?, Option.toList_none, List.append_nil]
          exact hreading'
        | none =>
          refine ⟨.nothing, w'', rfl, ?_, herror'.trans hfailed, fun e he => hfresh e he,
            fun _ => ⟨hpending'.trans hpending, ?_⟩⟩
          · rw [Fetched.doc?, Option.toList_none, List.append_nil]
            exact hreading'
          · rw [hlog']
            exact hempty hfailed

end

/-! ## A script -/

/-- A call of `next`, of `value` or of the iterator, with the state of Lua. -/
structure Iteration where
  top : Nat
  L : State
  handler : Option LVal

/-- The calls of a script, one after another. -/
def World.iterate (server : Server) (E : Env) (w : World) :
    List Iteration → Outcome Stop (List (Outcome LuaError (State × List LVal)) × World)
  | [] => .ok ([], w)
  | call :: calls => do
    let (answer, w) ← iterateCursor server w E call.top call.L call.handler
    let (answers, w) ← World.iterate server E w calls
    .ok (answer :: answers, w)

/-- What Lua sees of what a call gets. -/
def Fetched.answer (E : Env) (call : Iteration) :
    Fetched → Outcome LuaError (State × List LVal)
  | .document doc =>
    match call.handler with
    | none => .ok (call.L, [.host (.bson doc)])
    | some handler => do
      let (L, v) ← pushBSON E handler call.top call.L doc
      .ok (L, [v])
  | .failed e =>
    match call.handler with
    | none => .ok (call.L, commandError e)
    | some _ => .error (.object (.str (cString e.message)))
  | .nothing => .ok (call.L, [.nil])

section

variable {server : Server} {first : Request} {w : World} {delivered : List Doc}

theorem Reading.iterated (h : Reading server first w delivered) (E : Env) (call : Iteration) :
    ∃ r w', iterateCursor server w E call.top call.L call.handler = .ok (r.answer E call, w') ∧
      Next server first w delivered r w' := by
  obtain ⟨r, w', hnext, hspec⟩ := h.next
  refine ⟨r, w', ?_, hspec⟩
  rw [iterateCursor, hnext, Outcome.ok_bind]
  simp only [mongoc_cursor_error, hspec.error]
  cases r <;> cases hhandler : call.handler <;>
    simp only [Fetched.doc?, Fetched.error?, Fetched.answer, hhandler]

/-- A run of calls. -/
theorem Reading.run (h : Reading server first w delivered) (E : Env) (calls : List Iteration) :
    ∃ (results : List Fetched) (w' : World),
      w.iterate server E calls = .ok (List.zipWith (Fetched.answer E) calls results, w') ∧
      results.length = calls.length ∧
      Reading server first w' (delivered ++ results.filterMap Fetched.doc?) ∧
      (∀ e, w.cursor.error = some e → ∀ r ∈ results, r = .failed e) ∧
      results.Pairwise (fun r r' => ∀ e, r = .failed e → r' = .failed e) := by
  induction calls generalizing w delivered with
  | nil => exact ⟨[], w, rfl, rfl, by simpa using h, by simp, List.Pairwise.nil⟩
  | cons call calls ih =>
    obtain ⟨r, w₁, hcall, hreading, herror, hfailed, -⟩ := h.iterated E call
    obtain ⟨results, w', hrun, hlength, hreading', hsticky, hpairs⟩ := ih hreading
    have hafter (e : Failure) (hr : r = .failed e) : ∀ r' ∈ results, r' = .failed e :=
      hsticky e (by rw [herror, hr]; rfl)
    refine ⟨r :: results, w', ?_, by simp [hlength], ?_, fun e he => ?_, ?_⟩
    · rw [World.iterate, hcall, Outcome.ok_bind]
      simp only [hrun, Outcome.ok_bind]
      rfl
    · rw [List.append_assoc] at hreading'
      cases r <;> exact hreading'
    · have hr := hfailed e he
      exact List.forall_mem_cons.mpr ⟨hr, hafter e hr⟩
    · exact List.pairwise_cons.mpr ⟨fun r' hr' e hr => hafter e hr r' hr', hpairs⟩

end

/-- A cursor that has just been made, and its opening command. -/
structure Opened (server : Server) (first : Request) (w : World) : Prop where
  modern : Modern server w.cursor
  usable : Usable w.cursor
  named : Named w.cursor
  state : w.cursor.state = .UNPRIMED
  id : w.cursor.cursor_id = 0
  error : w.cursor.error = none
  log : w.log = []
  opening : opening w.cursor = .ok first

theorem Opened.reading {server : Server} {first : Request} {w : World}
    (h : Opened server first w) : Reading server first w [] where
  modern := h.modern
  usable := h.usable
  named := h.named
  id := by
    rw [h.id, h.log]
    rfl
  asked := h.log ▸ Asked.nil
  read := by
    rw [pending, h.state, h.log]
    rfl
  unprimed _ := ⟨h.log, h.opening⟩
  opened hother := by
    rw [h.state] at hother
    rcases hother with hother | hother <;> cases hother
  more hother := by
    rw [h.state] at hother
    cases hother
  done hother := by
    rw [h.state] at hother
    cases hother
  cause e he := by
    rw [h.error] at he
    cases he

def firstReply : Doc :=
  [(bytes "cursor", .document [(bytes "id", .int64 7), (bytes "ns", .utf8 (bytes "db.c")),
    (bytes "firstBatch", .array [(bytes "0", .document [(bytes "a", .null)])])])]

def secondReply : Doc :=
  [(bytes "cursor", .document [(bytes "id", .int64 0),
    (bytes "nextBatch", .array [(bytes "0", .document [(bytes "b", .null)])])])]

/-- A server with a document in each of two batches. -/
def twoBatches : Server where
  fetch_stream _ := .ok 17
  run_command
    | [], _ => .reply firstReply
    | _ :: _, _ => .reply secondReply

/-- A cursor on the collection `c` of the database `db`. -/
def twoBatchesStart : World where
  cursor := ⟨.UNPRIMED, .find [], [], 0, bytes "db.c", 4, 2, none, none, 0, []⟩
  log := []
  fetches := 0

/-- The cursor when the first document has been read. -/
def twoBatchesFirst : World where
  cursor := ⟨.IN_BATCH, .find_cmd [], [], 1, bytes "db.c", 4, 2, none,
    some [(bytes "a", .null)], 7, []⟩
  log := [(⟨[(bytes "find", .utf8 (bytes "c")), (bytes "filter", .document [])], some []⟩,
    .reply firstReply)]
  fetches := 1

/-- The cursor when the second one has been read. -/
def twoBatchesSecond : World where
  cursor := ⟨.IN_BATCH, .find_cmd [], [], 2, bytes "db.c", 4, 2, none,
    some [(bytes "b", .null)], 0, []⟩
  log := twoBatchesFirst.log ++
    [(⟨[(bytes "getMore", .int64 7), (bytes "collection", .utf8 (bytes "c"))], none⟩,
      .reply secondReply)]
  fetches := 1

theorem proper_firstReply : Proper firstReply := by
  intro f hf
  have hfields : f ∈ [(bytes "id", Value.int64 7), (bytes "ns", .utf8 (bytes "db.c")),
    (bytes "firstBatch", .array [(bytes "0", .document [(bytes "a", .null)])])] := hf
  simp only [List.mem_cons, List.not_mem_nil, or_false] at hfields
  rcases hfields with rfl | rfl | rfl
  · exact ⟨fun _ => ⟨7, rfl⟩, fun h => absurd h (by decide)⟩
  · exact ⟨fun h => absurd h (by decide), fun _ => ⟨bytes "db", bytes "c",
      congrArg Value.utf8 (by decide), by decide, by decide, by decide, by decide⟩⟩
  · exact ⟨fun h => absurd h (by decide), fun h => absurd h (by decide)⟩

theorem proper_secondReply : Proper secondReply := by
  intro f hf
  have hfields : f ∈ [(bytes "id", Value.int64 0),
    (bytes "nextBatch", .array [(bytes "0", .document [(bytes "b", .null)])])] := hf
  simp only [List.mem_cons, List.not_mem_nil, or_false] at hfields
  rcases hfields with rfl | rfl
  · exact ⟨fun _ => ⟨0, rfl⟩, fun h => absurd h (by decide)⟩
  · exact ⟨fun h => absurd h (by decide), fun h => absurd h (by decide)⟩

theorem opened_twoBatches : ∃ first, Opened twoBatches first twoBatchesStart := by
  refine ⟨_, ⟨fun n version h => ?_, fun log request reply h => ?_⟩,
    ⟨by decide, ⟨0, rfl, by decide, by decide⟩, ⟨0, rfl⟩, ⟨0, rfl⟩⟩, ⟨by decide, by decide⟩, rfl,
    rfl, rfl, rfl, rfl⟩
  · cases h
    exact Or.inl (by decide)
  · cases log with
    | nil =>
      cases h
      exact proper_firstReply
    | cons e log =>
      cases h
      exact proper_secondReply

/-- A call of `next`. -/
def nextCall : Iteration :=
  ⟨0, { heap := [], slots := fun _ => .nil, metatables := fun _ => none }, none⟩

end Vklib.Mongo
