import Vklib.Base.Buffer
import Vklib.Base.Number
import Vklib.Base.Paged

/-!
# A page of a GridFS file

`mongoc-gridfs-file-page.c`: the chunk that a file works on.  A page that was read
shows the bytes of the chunk document (`read_buf`), and the first write copies them to a
buffer of its own, in which a whole chunk fits.  Lengths and offsets are of type
`uint32_t`.

`Shows p s` says that the page holds the bytes `s` in a buffer that is large enough.
Reads return what is there (`page_read_eq`), and writes inside the bytes and right behind
them are writes to `s` (`page_write_eq`, `page_memset0_eq`).
-/

namespace Vklib.GridFS

open Buffer Paged

/-- `mongoc_gridfs_file_page_t`. -/
structure Page where
  /-- The bytes at `read_buf`, which is never null. -/
  read_buf : Bytes
  buf : Option Bytes
  len : Nat
  chunk_size : Nat
  offset : Nat
  deriving DecidableEq, Repr

section

variable {ε : Type}

/-- `_mongoc_gridfs_file_page_new`. -/
def page_new (data : Bytes) (len chunk_size : Nat) : Outcome ε Page :=
  if len ≤ chunk_size then .ok { read_buf := data, buf := none, len, chunk_size, offset := 0 }
  else .undefined

/-- `_mongoc_gridfs_file_page_seek`. -/
def page_seek (page : Page) (offset : Nat) : Page := { page with offset := offset % 2 ^ 32 }

/-- `_mongoc_gridfs_file_page_read`: the bytes at `dst`, and the page. -/
def page_read (page : Page) (len : Nat) : Outcome ε (Bytes × Page) :=
  let bytes_read := min len (sub32 page.len page.offset)
  -- a length that is no `int` turns negative
  if 2 ^ 31 ≤ bytes_read then .undefined
  else do
    let dst ← copy page.read_buf page.offset bytes_read
    .ok (dst, { page with offset := add32 page.offset bytes_read })

/-- The copy of the read buffer that the first write makes, in memory that holds
`fresh`. -/
def page_copy (fresh : Nat → UInt8) (page : Page) : Outcome ε Bytes :=
  match page.buf with
  | some buf => .ok buf
  | none => do
    let old ← copy page.read_buf 0 (min page.chunk_size page.len)
    .ok (old ++ (List.range (page.chunk_size - old.length)).map fresh)

/-- The page after `n` bytes were put into its buffer. -/
def page_advance (page : Page) (buf : Bytes) (n : Nat) : Page :=
  let offset := add32 page.offset n
  { page with read_buf := buf, buf := some buf, offset, len := max offset page.len }

/-- `_mongoc_gridfs_file_page_write`: the return value, and the page. -/
def page_write (fresh : Nat → UInt8) (page : Page) (src : Bytes) (len : Nat) :
    Outcome ε (Nat × Page) :=
  let bytes_written := min len (sub32 page.chunk_size page.offset)
  if 2 ^ 31 ≤ bytes_written then .undefined
  else do
    let buf ← page_copy fresh page
    let data ← copy src 0 bytes_written
    let buf ← store buf page.offset data
    .ok (bytes_written, page_advance page buf bytes_written)

/-- `_mongoc_gridfs_file_page_memset0`: the return value, and the page. -/
def page_memset0 (page : Page) (len : Nat) : Outcome ε (Nat × Page) := do
  let bytes_set := min (sub32 page.chunk_size page.offset) len
  let buf ← page_copy (fun _ => 0) page
  let buf ← store buf page.offset (List.replicate bytes_set 0)
  .ok (bytes_set, page_advance page buf bytes_set)

/-- `_mongoc_gridfs_file_page_is_dirty`. -/
def page_is_dirty (page : Page) : Bool := page.buf.isSome

/-- The `_mongoc_gridfs_file_page_get_len` bytes at `_mongoc_gridfs_file_page_get_data`. -/
def page_data (page : Page) : Outcome ε Bytes := copy (page.buf.getD page.read_buf) 0 page.len

end

/-! ## What a page holds -/

/-- The page holds the bytes `s`. -/
structure Shows (page : Page) (s : Bytes) : Prop where
  len : page.len = s.length
  le : s.length ≤ page.chunk_size
  small : page.chunk_size < 2 ^ 31
  offset : page.offset ≤ page.chunk_size
  read : s <+: page.read_buf
  own : ∀ buf, page.buf = some buf → page.read_buf = buf ∧ buf.length = page.chunk_size

section

variable {ε : Type} {page : Page} {s : Bytes}

theorem page_new_shows {cs : Nat} (hle : s.length ≤ cs) (hcs : cs < 2 ^ 31) :
    ∃ page, (page_new s s.length cs : Outcome ε Page) = .ok page ∧ Shows page s ∧
      page.chunk_size = cs ∧ page.buf = none :=
  ⟨_, if_pos hle, ⟨rfl, hle, hcs, Nat.zero_le _, List.prefix_refl s, by simp⟩, rfl, rfl⟩

theorem Shows.advance (h : Shows page s) {offset : Nat} (hoffset : offset ≤ page.chunk_size) :
    Shows { page with offset } s :=
  { h with offset := hoffset }

theorem Shows.seek (h : Shows page s) {offset : Nat} (hoffset : offset ≤ page.chunk_size) :
    Shows (page_seek page offset) s := by
  have hsmall := h.small
  have hmod : offset % 2 ^ 32 = offset := Nat.mod_eq_of_lt (by omega)
  exact { h with offset := by simpa only [page_seek, hmod] using hoffset }

/-- Offsets and lengths of a page are small, so that their arithmetic does not wrap. -/
theorem sub32_of_le {a b : Nat} (h : b ≤ a) (ha : a < 2 ^ 31) : sub32 a b = a - b := by
  rw [sub32, Nat.mod_eq_of_lt (a := b) (by omega)]
  omega

theorem add32_of_lt {a b : Nat} (h : a + b < 2 ^ 32) : add32 a b = a + b := Nat.mod_eq_of_lt h

/-- Reading inside the bytes. -/
theorem page_read_eq (h : Shows page s) (len : Nat) (hin : page.offset ≤ s.length) :
    (page_read page len : Outcome ε _) =
      .ok ((s.drop page.offset).take len,
        { page with offset := page.offset + min len (s.length - page.offset) }) := by
  have hle := h.le
  have hsmall := h.small
  have hcount : min len (sub32 page.len page.offset) = min len (s.length - page.offset) := by
    rw [h.len, sub32_of_le hin (by omega)]
  have hlies : Lies page.read_buf page.offset ((s.drop page.offset).take len) := by
    obtain ⟨rest, hrest⟩ := h.read
    rw [Lies, ← hrest, List.drop_append_of_le_length hin]
    exact (List.take_prefix _ _).trans (List.prefix_append _ _)
  have hlength : ((s.drop page.offset).take len).length = min len (s.length - page.offset) := by
    rw [List.length_take, List.length_drop]
  have hbuf := h.read.length_le
  simp only [page_read, hcount]
  rw [if_neg (by omega), hlies.copy_of_le hlength (by omega), Outcome.ok_bind,
    add32_of_lt (by omega)]

/-- The buffer that a write finds starts with the bytes. -/
theorem page_copy_eq (h : Shows page s) (fresh : Nat → UInt8) :
    ∃ buf, (page_copy fresh page : Outcome ε Bytes) = .ok buf ∧ s <+: buf ∧
      buf.length = page.chunk_size := by
  have hle := h.le
  have hbuf := h.read.length_le
  rw [page_copy]
  cases hown : page.buf with
  | some buf =>
    obtain ⟨hread, hlength⟩ := h.own buf hown
    exact ⟨buf, rfl, hread ▸ h.read, hlength⟩
  | none =>
    have hcopy : (copy page.read_buf 0 (min page.chunk_size page.len) : Outcome ε Bytes) = .ok s :=
      (lies_zero.mpr h.read).copy_of_le (by rw [h.len]; omega) (by rw [h.len]; omega)
    refine ⟨_, by rw [hcopy]; rfl, List.prefix_append _ _, ?_⟩
    rw [List.length_append, List.length_map, List.length_range]
    omega

/-- The page after bytes were put into its buffer. -/
theorem page_advance_shows (h : Shows page s) {buf t : Bytes} (hbuf : s <+: buf)
    (hlength : buf.length = page.chunk_size) (hin : page.offset ≤ s.length)
    (hfit : page.offset + t.length ≤ page.chunk_size) :
    Shows (page_advance page (put buf page.offset t) t.length) (put s page.offset t) ∧
      (page_advance page (put buf page.offset t) t.length).offset = page.offset + t.length := by
  have hle := h.le
  have hsmall := h.small
  have hadd : add32 page.offset t.length = page.offset + t.length := add32_of_lt (by omega)
  have hput := length_put (m := buf) (i := page.offset) (s := t) (by omega)
  have hwritten := length_put_of_le (t := t) hin
  refine ⟨⟨?_, ?_, hsmall, ?_, ?_, ?_⟩, hadd⟩
  · rw [page_advance, hadd, hwritten, h.len, Nat.max_comm]
  · rw [hwritten]
    exact max_le hle hfit
  · rw [page_advance, hadd]
    exact hfit
  · obtain ⟨rest, rfl⟩ := hbuf
    have htake : (s ++ rest).take page.offset = s.take page.offset :=
      List.take_append_of_le_length hin
    rw [page_advance, put, put, htake, List.prefix_append_right_inj, List.prefix_append_right_inj,
      List.drop_append]
    exact List.prefix_append _ _
  · rintro buf' hbuf'
    cases hbuf'
    exact ⟨rfl, hput.trans hlength⟩

/-- Writing inside the bytes and right behind them. -/
theorem page_write_eq (h : Shows page s) (fresh : Nat → UInt8) {src : Bytes} {len : Nat}
    (hlen : len ≤ src.length) (hin : page.offset ≤ s.length) :
    ∃ page', (page_write fresh page src len : Outcome ε _) =
        .ok (min len (page.chunk_size - page.offset), page') ∧
      Shows page' (put s page.offset (src.take (min len (page.chunk_size - page.offset)))) ∧
      page'.offset = page.offset + min len (page.chunk_size - page.offset) ∧
      page'.chunk_size = page.chunk_size ∧ page'.buf ≠ none := by
  have hsmall := h.small
  have hoffset := h.offset
  obtain ⟨buf, hcopy, hbuf, hlength⟩ := page_copy_eq (ε := ε) h fresh
  have hcount : min len (sub32 page.chunk_size page.offset) =
      min len (page.chunk_size - page.offset) := by rw [sub32_of_le hoffset hsmall]
  generalize hn : min len (page.chunk_size - page.offset) = n at hcount
  have hdata : (src.take n).length = n := by
    rw [List.length_take]
    omega
  have hsrc : (copy src 0 n : Outcome ε Bytes) = .ok (src.take n) :=
    (lies_zero.mpr (List.take_prefix _ _)).copy_of_le hdata (by omega)
  obtain ⟨hshows, hoff⟩ := page_advance_shows h hbuf hlength hin (t := src.take n) (by omega)
  rw [hdata] at hshows hoff
  refine ⟨_, ?_, hshows, hoff, rfl, by simp [page_advance]⟩
  simp only [page_write, hcount]
  rw [if_neg (by omega), hcopy, Outcome.ok_bind, hsrc, Outcome.ok_bind,
    store_eq (by omega), Outcome.ok_bind]

/-- Setting bytes to zero there. -/
theorem page_memset0_eq (h : Shows page s) (len : Nat) (hin : page.offset ≤ s.length) :
    ∃ page', (page_memset0 page len : Outcome ε _) =
        .ok (min (page.chunk_size - page.offset) len, page') ∧
      Shows page' (put s page.offset
        (List.replicate (min (page.chunk_size - page.offset) len) 0)) ∧
      page'.offset = page.offset + min (page.chunk_size - page.offset) len ∧
      page'.chunk_size = page.chunk_size ∧ page'.buf ≠ none := by
  have hsmall := h.small
  have hoffset := h.offset
  obtain ⟨buf, hcopy, hbuf, hlength⟩ := page_copy_eq (ε := ε) h fun _ => 0
  have hcount : min (sub32 page.chunk_size page.offset) len =
      min (page.chunk_size - page.offset) len := by rw [sub32_of_le hoffset hsmall]
  generalize hn : min (page.chunk_size - page.offset) len = n at hcount
  have hdata : (List.replicate n (0 : UInt8)).length = n := List.length_replicate
  obtain ⟨hshows, hoff⟩ :=
    page_advance_shows h hbuf hlength hin (t := List.replicate n 0) (by omega)
  rw [hdata] at hshows hoff
  refine ⟨_, ?_, hshows, hoff, rfl, by simp [page_advance]⟩
  simp only [page_memset0, hcount]
  rw [hcopy, Outcome.ok_bind, store_eq (by omega), Outcome.ok_bind]

theorem page_data_eq (h : Shows page s) : (page_data page : Outcome ε Bytes) = .ok s := by
  have hread : page.buf.getD page.read_buf = page.read_buf := by
    cases hown : page.buf with
    | none => rfl
    | some buf => exact (h.own buf hown).1.symm
  rw [page_data, hread]
  exact (lies_zero.mpr h.read).copy_of_le h.len.symm
    (by have := h.read.length_le; have := h.len; omega)

end

end Vklib.GridFS
