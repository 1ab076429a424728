import Vklib.Base.Attempt
import Vklib.Base.StringFunctions
import Vklib.GridFS.Page

/-!
# A GridFS file of the driver

`mongoc-gridfs-file.c`: a stream over the chunk documents of a file.  The file works on
one page, which it loads when it needs one and stores when it leaves it.  Chunks are
loaded through a cursor, which is kept for the next chunks as long as it fits.

The server is the part that is not code here.  `World` has the chunk documents of the
file in the order of `n` and the `length` that is stored in the document of the file.  An
upsert of a chunk replaces the one of that number or puts it in its place, and a query
finds the chunks from a number on.  `Setting.serve` decides what becomes of each request:
it fails, whether or not it was carried out, or it is answered, where a cursor takes
the answer from its batch or asks the server once more.

A function that returns a status is an `Attempt`.  The chunk size of a file is one that
the driver can divide by, lengths are not negative, and a read or a write has one
buffer, as in every call of `gridfsfile.c`.
-/

namespace Vklib.GridFS

/-- A chunk document with the fields of the projection. -/
structure Chunk where
  n : Int
  data : Bytes
  deriving DecidableEq, Repr

/-- A cursor over the chunks from the number `gte` on. -/
structure Cursor where
  gte : Int
  batch : List Chunk
  error : Option Bytes
  deriving DecidableEq, Repr

/-- `mongoc_gridfs_file_t`.  `error` is the text of the last error. -/
structure File where
  page : Option Page
  pos : Nat
  n : Int
  error : Option Bytes
  cursor : Option Cursor
  cursor_range : Nat × Nat
  is_dirty : Bool
  length : Nat
  deriving DecidableEq, Repr

/-- `_mongoc_gridfs_file_new`. -/
def file_new : File := ⟨none, 0, 0, none, none, (0, 0), true, 0⟩

/-- `_mongoc_gridfs_file_new_from_bson` on a document with this `length`. -/
def file_new_from_bson (length : Nat) : File := ⟨none, 0, 0, none, none, (0, 0), false, length⟩

/-- The file, its documents on the server and the number of requests so far. -/
structure World where
  file : File
  chunks : List Chunk
  saved : Option Nat
  requests : Nat
  deriving DecidableEq, Repr

/-- What becomes of a request. -/
inductive Reply where
  | fails (message : Bytes) (done : Bool)
  | batch
  | more
  deriving DecidableEq, Repr

/-- What stays the same: the chunk size of the file, the replies of the server, and what
newly allocated memory holds. -/
structure Setting where
  chunk_size : Nat
  positive : 0 < chunk_size
  small : chunk_size < 2 ^ 31
  serve : Nat → Reply
  fresh : Nat → UInt8

/-- An update of one chunk, with `MONGOC_UPDATE_UPSERT`. -/
def upsert (n : Int) (data : Bytes) : List Chunk → List Chunk
  | [] => [⟨n, data⟩]
  | c :: chunks =>
    if c.n < n then c :: upsert n data chunks
    else if c.n = n then ⟨n, data⟩ :: chunks
    else ⟨n, data⟩ :: c :: chunks

/-- `%d`. -/
def int_text (n : Int) : Bytes := if n < 0 then 45 :: decimal n.natAbs else decimal n.natAbs

/-- The conversion of a 64-bit integer to `int32_t`. -/
def toInt32 (n : Nat) : Int := (n : Int).bmod (2 ^ 32)

/-- `divide_round_up`. -/
def divide_round_up (num denom : Nat) : Nat := (num + denom - 1) / denom

section

variable (g : Setting)

/-- One request. -/
def request : Attempt World Reply := fun w =>
  .ok (some (g.serve w.requests), { w with requests := w.requests + 1 })

def set_error (message : Bytes) : Attempt World Unit :=
  .modify fun w => { w with file.error := some message }

/-- `mongoc_collection_update`. -/
def collection_update (update : World → World) : Attempt World Unit := do
  match ← request g with
  | .fails message done =>
    .when done (.modify update)
    set_error message
    .fail
  | _ => .modify update

/-- The next one of the documents that a cursor has. -/
def cursor_take (cursor : Cursor) : List Chunk → Attempt World (Option Chunk)
  | [] => do
    .modify fun w => { w with file.cursor := some { cursor with batch := [] } }
    pure none
  | chunk :: batch => do
    .modify fun w => { w with file.cursor := some { cursor with gte := chunk.n + 1, batch } }
    pure (some chunk)

/-- `mongoc_cursor_next`. -/
def cursor_next : Attempt World (Option Chunk) := do
  match (← Attempt.get).file.cursor with
  | none => .undefined
  | some cursor =>
    if cursor.error ≠ none then pure none
    else match ← request g with
      | .fails message _ =>
        .modify fun w => { w with file.cursor := some { cursor with error := some message } }
        pure none
      | reply =>
        let w ← Attempt.get
        cursor_take cursor
          (if reply = .more then w.chunks.filter (cursor.gte ≤ ·.n) else cursor.batch)

mutual

/-- `mongoc_gridfs_file_save`. -/
def saveFuel : Nat → Attempt World Unit
  | 0 => .outOfFuel
  | fuel + 1 => do
    let w ← Attempt.get
    if w.file.is_dirty then
      .when (w.file.page.any page_is_dirty) (flush_pageFuel fuel)
      (collection_update g fun w => { w with saved := some w.file.length }).after
        fun w => { w with file.is_dirty := false }

/-- `_mongoc_gridfs_file_flush_page`. -/
def flush_pageFuel : Nat → Attempt World Unit
  | 0 => .outOfFuel
  | fuel + 1 => do
    let w ← Attempt.get
    match w.file.page with
    | none => .undefined
    | some page =>
      let data ← Attempt.lift (page_data page)
      collection_update g fun w => { w with chunks := upsert w.file.n data w.chunks }
      .modify fun w => { w with file.page := none }
      saveFuel fuel

end

/-- Saving stores the page, which saves the file, which has no page then. -/
def save : Attempt World Unit := saveFuel g 3

def flush_page : Attempt World Unit := flush_pageFuel g 3

/-- `_mongoc_gridfs_file_keep_cursor`. -/
def keep_cursor (file : File) : Bool :=
  let chunks_per_batch := (4 * 1024 * 1024) / g.chunk_size
  0 ≤ file.n ∧ file.cursor_range.1 ≤ file.n ∧ file.n ≤ file.cursor_range.2 ∧
    file.n < (add32 file.cursor_range.1 (2 * chunks_per_batch) : Nat)

/-- `missing_chunk`. -/
def missing_chunk {α : Type} : Attempt World α := do
  let w ← Attempt.get
  set_error (bytes "missing chunk number " ++ int_text w.file.n)
  .modify fun w => { w with file.cursor := none }
  .fail

/-- The `mongoc_collection_find_with_opts` for the chunks from `file->n` on. -/
def find_chunks : Attempt World Unit := .modify fun w => { w with
  file.cursor := some ⟨w.file.n, w.chunks.filter (w.file.n ≤ ·.n), none⟩
  file.cursor_range := ((w.file.n % 2 ^ 32).toNat, w.file.length / g.chunk_size % 2 ^ 32) }

/-- The cursor for the chunk that is needed: the one of the file when it can be kept, or a
new one. -/
def choose_cursor : Attempt World Unit := do
  .modify fun w => if keep_cursor g w.file then w else { w with file.cursor := none }
  let w ← Attempt.get
  .when (w.file.cursor = none) (find_chunks g)

/-- The loop `while (file->cursor_range[0] <= file->n)`. -/
def next_chunks : Nat → Option Chunk → Attempt World (Option Chunk)
  | 0, chunk => pure chunk
  | rounds + 1, _ => do
    match ← cursor_next g with
    | none =>
      let w ← Attempt.get
      match w.file.cursor.bind (·.error) with
      | some message => do set_error message; .fail
      | none => missing_chunk
    | some chunk =>
      .modify fun w => { w with
        file.cursor_range := (add32 w.file.cursor_range.1 1, w.file.cursor_range.2) }
      next_chunks rounds (some chunk)

/-- The end of `_mongoc_gridfs_file_refresh_page`: a page with the data of the chunk. -/
def load_page (data : Bytes) : Attempt World Unit := do
  let w ← Attempt.get
  if g.chunk_size < data.length then
    set_error (bytes "corrupt chunk number " ++ int_text w.file.n ++ bytes ": bad size")
    .fail
  else
    let page ← Attempt.lift (page_new data data.length g.chunk_size)
    .modify fun w => { w with file.page := some (page_seek page (w.file.pos % g.chunk_size)) }

/-- `_mongoc_gridfs_file_refresh_page`. -/
def refresh_page : Attempt World Unit := do
  .modify fun w => { w with file.n := toInt32 (w.file.pos / g.chunk_size), file.page := none }
  let w ← Attempt.get
  let existing_chunks := divide_round_up w.file.length g.chunk_size
  let required_chunks := divide_round_up (w.file.pos + 1) g.chunk_size
  if existing_chunks < required_chunks then load_page g []
  else
    choose_cursor g
    let w ← Attempt.get
    match ← next_chunks g ((w.file.n % 2 ^ 32).toNat + 1 - w.file.cursor_range.1) none with
    | none => .undefined
    | some chunk =>
      if w.file.n ≠ chunk.n then missing_chunk
      else if w.file.n ≠ (w.file.pos / g.chunk_size : Nat) then .fail
      else load_page g chunk.data

/-- `if (!file->page && !_mongoc_gridfs_file_refresh_page (file))`. -/
def ensure_page : Attempt World Unit := do
  let w ← Attempt.get
  .when (w.file.page = none) (refresh_page g)

/-- The page in `mongoc_gridfs_file_seek`: on another one, the changes are stored and the page
is gone, and on the same one its offset changes. -/
def leave_page (other : Bool) (offset : Nat) : Attempt World Unit := do
  let w ← Attempt.get
  if other then
    if w.file.page.any page_is_dirty then flush_page g
    else .modify fun w => { w with file.page := none }
  else .modify fun w => { w with file.page := w.file.page.map (page_seek · offset) }

/-- `mongoc_gridfs_file_seek`, where `offset` is what `delta` and `whence` come to. -/
def seek_to (offset : Int) : Attempt World Bool := do
  let w ← Attempt.get
  if offset < 0 then pure false
  else
    let offset := offset.toNat
    leave_page g (((offset / g.chunk_size : Nat) : Int) ≠ w.file.n) (offset % g.chunk_size)
    .modify fun w => { w with file.pos := offset, file.n := toInt32 (offset / g.chunk_size) }
    pure true

/-- `whence`. -/
inductive Whence where
  | SEEK_SET
  | SEEK_CUR
  | SEEK_END
  deriving DecidableEq, Repr

/-- `mongoc_gridfs_file_seek`: whether it returns 0. -/
def seek (delta : Int64) (whence : Whence) : Attempt World Bool := do
  let w ← Attempt.get
  match whence with
  | .SEEK_SET => seek_to g delta.toInt
  -- the position is unsigned, and so is the sum
  | .SEEK_CUR => seek_to g ((w.file.pos + delta.toInt).bmod (2 ^ 64))
  | .SEEK_END =>
    let offset := w.file.length + delta.toInt
    if offset < 2 ^ 63 then seek_to g offset else .undefined

/-- The loop of `mongoc_gridfs_file_readv` over one buffer; `dst` is what it has so far. -/
def readvLoop (iov_len min_bytes : Nat) : Nat → Bytes → Attempt World Bytes
  | 0, _ => .outOfFuel
  | fuel + 1, dst => do
    let w ← Attempt.get
    match w.file.page with
    | none => .undefined
    | some page =>
      let (data, page) ← Attempt.lift (page_read page ((iov_len - dst.length) % 2 ^ 32))
      .modify fun w => { w with
        file.page := some page, file.pos := (w.file.pos + data.length) % 2 ^ 64 }
      let dst := dst ++ data
      let w ← Attempt.get
      if dst.length % 2 ^ 32 = iov_len then pure dst
      else if w.file.length = w.file.pos then pure dst
      else if min_bytes ≤ dst.length % 2 ^ 32 then pure dst
      else
        refresh_page g
        readvLoop iov_len min_bytes fuel dst

/-- `mongoc_gridfs_file_readv`.  Every further page has a byte for the buffer. -/
def readv (iov_len min_bytes : Nat) : Attempt World Bytes := do
  let w ← Attempt.get
  if w.file.length ≤ w.file.pos then pure []
  else
    ensure_page g
    readvLoop g iov_len min_bytes (iov_len + 2) []

/-- The loop of `_mongoc_gridfs_file_extend`. -/
def extendLoop (target_length : Nat) : Nat → Attempt World Unit
  | 0 => .outOfFuel
  | fuel + 1 => do
    ensure_page g
    let w ← Attempt.get
    match w.file.page with
    | none => .undefined
    | some page =>
      let (r, page) ← Attempt.lift (page_memset0 page ((target_length - w.file.pos) % 2 ^ 32))
      .modify fun w => { w with file.page := some page, file.pos := (w.file.pos + r) % 2 ^ 64 }
      let w ← Attempt.get
      if w.file.pos = target_length then pure ()
      else
        flush_page g
        extendLoop target_length fuel

/-- `_mongoc_gridfs_file_extend`.  Every further page has room for a byte of the gap. -/
def extend : Attempt World Unit := do
  let w ← Attempt.get
  if w.file.pos ≤ w.file.length then pure ()
  else
    let target_length := w.file.pos
    let sought ← seek g 0 .SEEK_END
    if sought then
      extendLoop g target_length (target_length - w.file.length + 2)
      .modify fun w => { w with file.length := target_length, file.is_dirty := true }
    else .fail

/-- The loop of `mongoc_gridfs_file_writev` over one buffer, from `iov_pos` on. -/
def writevLoop (src : Bytes) : Nat → Nat → Attempt World Unit
  | 0, _ => .outOfFuel
  | fuel + 1, iov_pos => do
    ensure_page g
    let w ← Attempt.get
    match w.file.page with
    | none => .undefined
    | some page =>
      let (r, page) ← Attempt.lift
        (page_write g.fresh page (src.drop iov_pos) ((src.length - iov_pos) % 2 ^ 32))
      .modify fun w => { w with
        file.page := some page
        file.pos := (w.file.pos + r) % 2 ^ 64
        file.length := max w.file.length ((w.file.pos + r) % 2 ^ 64) }
      let iov_pos := add32 iov_pos r
      if iov_pos = src.length then pure ()
      else
        flush_page g
        writevLoop src fuel iov_pos

/-- `mongoc_gridfs_file_writev`: the bytes written are those of the buffer.  Every further
page has room for one of them. -/
def writev (src : Bytes) : Attempt World Nat := do
  ensure_page g
  let w ← Attempt.get
  .when (w.file.length < w.file.pos) (extend g)
  writevLoop g src (src.length + 2) 0
  .modify fun w => { w with file.is_dirty := true }
  pure (src.length % 2 ^ 32)

end

end Vklib.GridFS
