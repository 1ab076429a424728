import Vklib.Base.Pieces
import Vklib.Lua.Value
import Vklib.Requests.Header

/-!
# The response part of `request_get`

What `request_get` does after it sent the request: receive into a buffer that
grows in steps of `BUFFER_SIZE`, cut the buffer into lines with `strtok`, and
sort the lines into headers and body.

The bytes of the buffer that `recv` did not write are what the allocator left
there.  `heap` gives them, and `strtok` reads them as long as no NUL stops it.
`bytes_received` has no initializer, so its first value is a parameter.

The sizes of the texts are counted in `int`, with the conversions of C between
`int` and `size_t`.  The text of the headers is built but not used.
-/

namespace Vklib.Requests

open Vklib.Lua

/-! ## Receiving -/

/-- `BUFFER_SIZE`. -/
def BUFFER_SIZE : Nat := 1024

/-- The variables of the receive loop. -/
structure Receiver where
  buffer : Bytes
  cur_size : Int
  bytes_received : Int
  deriving DecidableEq, Repr

/-- The buffer after `realloc` to `size` bytes. -/
def regrow (heap : Nat → UInt8) (buffer : Bytes) (size : Nat) : Bytes :=
  buffer.take size ++ (List.range (size - buffer.length)).map fun i => heap (buffer.length + i)

/-- The growth at the head of the loop.  `grants` says which sizes `realloc`
can give. -/
def grow (heap : Nat → UInt8) (grants : Nat → Bool) (r : Receiver) : Outcome Bytes Receiver :=
  if r.bytes_received < r.cur_size then .ok r
  else if INT_MAX < r.cur_size + BUFFER_SIZE then .undefined
  else if grants (toSize (r.cur_size + BUFFER_SIZE)) then
    .ok { r with
      buffer := regrow heap r.buffer (toSize (r.cur_size + BUFFER_SIZE))
      cur_size := r.cur_size + BUFFER_SIZE }
  else .error (bytes "Could not allocate memory.")

/-- `recv` writes what it delivers behind the bytes received so far.  It is
undefined when that is not inside the buffer. -/
def recvInto (r : Receiver) (chunk : Bytes) : Outcome Bytes Receiver :=
  let data := chunk.take (toSize (r.cur_size - r.bytes_received))
  if 0 ≤ r.bytes_received ∧ r.bytes_received + data.length ≤ r.buffer.length then
    .ok { r with
      buffer := r.buffer.take r.bytes_received.toNat ++ data ++
        r.buffer.drop (r.bytes_received.toNat + data.length)
      bytes_received := r.bytes_received + data.length }
  else .undefined

/-- The receive loop.  Each element of the script is the result of one call of
`recv`: an error, or data, of which no more is taken than the call asks for.  At
the end of the script the peer has closed the connection. -/
def receive (heap : Nat → UInt8) (grants : Nat → Bool) :
    List (Option Bytes) → Receiver → Outcome Bytes Receiver
  | [], r => do
    let r ← grow heap grants r
    recvInto r []
  | none :: _, r => do
    let r ← grow heap grants r
    let _ ← recvInto r []
    .error (bytes "Could not receive response.")
  | some chunk :: script, r => do
    let r ← grow heap grants r
    let r' ← recvInto r chunk
    if r'.bytes_received = r.bytes_received then .ok r' else receive heap grants script r'

/-! ## Lines -/

/-- The characters that separate lines. -/
def isBreak (c : UInt8) : Bool := c == 13 || c == 10

/-- `strtok` with `"\r\n"`, from where the last call stopped: the next token and
what lies behind it. -/
def strtok (mem : Bytes) : Outcome Empty (Option (Bytes × Bytes)) :=
  match mem.dropWhile isBreak with
  | [] => .undefined
  | c :: rest =>
    if c = 0 then .ok none
    else
      match (c :: rest).dropWhile fun c => !(isBreak c || c == 0) with
      | [] => .undefined
      | c' :: more =>
        .ok (some ((c :: rest).takeWhile (fun c => !(isBreak c || c == 0)),
          if c' = 0 then c' :: more else more))

/-- `tolower` in the C locale. -/
def tolower (c : UInt8) : UInt8 := if 65 ≤ c ∧ c ≤ 90 then c + 32 else c

/-- Append a line and a line break to a text, with the size kept beside it. -/
def accumulate (text : Mem) (length : Int) (line : Bytes) : Outcome Empty (Mem × Int) := do
  let length := toInt (toSize length + (line.length + 3))
  let old ← text.text
  let text ←
    if old.length < toSize length then
      match text.realloc (toSize length) with
      | some text => .ok text
      | none => .undefined
    else .ok text
  let text ← text.strcat line
  let text ← text.strcat [13, 10]
  let text ← text.store (length - 1) 0
  .ok (text, length)

/-- The variables of the line loop. -/
structure Sorter where
  is_header : Bool
  headers : Mem
  header_length : Int
  body : Mem
  body_length : Int
  headers_array : List (Bytes × Bytes)

/-- The number of entries allocated for `headers_array`. -/
def HEADERS : Nat := 32

/-- A header goes to the next entry of `headers_array`, its key in lower case.
The first line that is none ends the headers. -/
def storeHeader (st : Sorter) : Option (Bytes × Bytes) → Outcome Empty Sorter
  | none => .ok { st with is_header := false }
  | some (key, value) =>
    if st.headers_array.length < HEADERS then
      .ok { st with headers_array := st.headers_array ++ [(key.map tolower, value)] }
    else .undefined

/-- A line goes to the text of the headers or to the body. -/
def addLine (st : Sorter) (line : Bytes) : Outcome Empty Sorter :=
  if st.is_header then do
    let (text, length) ← accumulate st.headers st.header_length line
    .ok { st with headers := text, header_length := length }
  else do
    let (text, length) ← accumulate st.body st.body_length line
    .ok { st with body := text, body_length := length }

/-- The body of the line loop. -/
def lineStep (st : Sorter) (line : Bytes) : Outcome Empty Sorter := do
  let header ← get_header line
  let st ← storeHeader st header
  addLine st line

/-- The line loop, from the result of a call of `strtok`. -/
def lineLoop : Nat → Option (Bytes × Bytes) → Sorter → Outcome Empty Sorter
  | 0, _, _ => .outOfFuel
  | _ + 1, none, st => .ok st
  | fuel + 1, some (line, mem), st => do
    let st ← lineStep st line
    let next ← strtok mem
    lineLoop fuel next st

/-- The table that `request_get` returns. -/
structure Response where
  code : Bytes
  body : Bytes
  headers : Table Empty

/-- The table of the headers, filled in the order of `headers_array`. -/
def headersTable (headers_array : List (Bytes × Bytes)) : Table Empty :=
  headers_array.foldl (fun t e => t.rawset (.str e.1) (.str e.2)) Table.empty

/-- The variables before the line loop. -/
def startSorter : Outcome Empty Sorter := do
  let headers ← (Mem.malloc 1).store 0 0
  let body ← (Mem.malloc 1).store 0 0
  .ok { is_header := true, headers := headers, header_length := 0, body := body, body_length := 0,
        headers_array := [] }

/-- The lines behind the status line to the table. -/
def readLines (fuel : Nat) (response_code mem : Bytes) : Outcome Empty Response := do
  let st ← startSorter
  let line ← strtok mem
  let st ← lineLoop fuel line st
  let body ← st.body.text
  .ok { code := response_code, body := body, headers := headersTable st.headers_array }

/-- The buffer after the receive loop to the table.  Each call of `strtok` goes
on in the buffer, so its length is enough fuel. -/
def parseBuffer (buffer : Bytes) : Outcome Bytes Response := do
  let first ← (strtok buffer).lift
  match first with
  | none => .error (bytes "Could not get response code.")
  | some (response_code, mem) => (readLines (buffer.length + 1) response_code mem).lift

/-- `request_get` after the request was sent.  The first allocation has
`BUFFER_SIZE` bytes, all of them the allocator's. -/
def respond (heap : Nat → UInt8) (grants : Nat → Bool) (script : List (Option Bytes))
    (bytes_received : Int) : Outcome Bytes Response := do
  let r ← receive heap grants script
    { buffer := regrow heap [] BUFFER_SIZE, cur_size := 0, bytes_received := bytes_received }
  parseBuffer r.buffer

end Vklib.Requests
