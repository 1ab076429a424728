import Vklib.GridFS.File

/-!
# What the operations of a GridFS file do

`Consistent` is the invariant: the chunks on the server are the pages of the content, except
for the one page of the file that has changes (`Stored`), the page of the file is the one at
its number (`OnPage`), and the cursor is in front of chunks that are as it found them
(`Ahead`).  Each operation has a lemma that ends in `_ends`: it keeps the invariant and does
its part, or it fails, and the file has the text of an error (`Reported`): a request has
failed, or the cursor was opened before the chunk was stored (`Behind`).  A write stores chunks
itself, but what it needs after that is behind all that there is (`AtEnd`).

The lemmas follow the calls: saving and flushing a page, loading one, the loops of a write, of
the zeros in front of it and of a read, and seeking.
-/

namespace Vklib.GridFS

open Buffer Paged

/-! ## Chunks -/

/-- The chunks with the numbers from `a` on, `m` of them. -/
def numbered (d : Nat → Bytes) (a m : Nat) : List Chunk :=
  (List.range' a m).map fun i : Nat => ⟨(i : Int), d i⟩

theorem numbered_succ (d : Nat → Bytes) (a m : Nat) :
    numbered d a (m + 1) = ⟨(a : Int), d a⟩ :: numbered d (a + 1) m := rfl

@[simp] theorem length_numbered (d : Nat → Bytes) (a m : Nat) : (numbered d a m).length = m := by
  simp [numbered]

theorem numbered_congr {d e : Nat → Bytes} {a m : Nat} (h : ∀ i, a ≤ i → i < a + m → d i = e i) :
    numbered d a m = numbered e a m := by
  refine List.map_congr_left fun i hi => ?_
  have hi := List.mem_range'_1.mp hi
  rw [h i hi.1 hi.2]

/-- An upsert replaces the chunk of that number or is the next one. -/
theorem upsert_numbered {d : Nat → Bytes} {n a m : Nat} (data : Bytes) (ha : a ≤ n)
    (hm : n ≤ a + m) :
    upsert n data (numbered d a m) =
      numbered (Function.update d n data) a (max m (n + 1 - a)) := by
  induction m generalizing a with
  | zero =>
    have hn : n = a := by omega
    subst hn
    have hone : max 0 (n + 1 - n) = 0 + 1 := by omega
    rw [hone, numbered_succ, Function.update_self]
    rfl
  | succ m ih =>
    rw [numbered_succ, upsert]
    rcases Nat.lt_or_eq_of_le ha with hlt | rfl
    · have hcount : max (m + 1) (n + 1 - a) = max m (n + 1 - (a + 1)) + 1 := by omega
      rw [if_pos (by simpa using hlt), ih hlt (by omega), hcount, numbered_succ,
        Function.update_of_ne (Nat.ne_of_lt hlt)]
    · have hcount : max (m + 1) (a + 1 - a) = m + 1 := by omega
      rw [if_neg (by simp), if_pos rfl, hcount, numbered_succ, Function.update_self]
      congr 1
      refine numbered_congr fun i hi _ => ?_
      rw [Function.update_of_ne (by omega)]

/-- The chunks from a number on. -/
theorem filter_numbered {d : Nat → Bytes} {n a m : Nat} (ha : a ≤ n) :
    (numbered d a m).filter (fun c => (n : Int) ≤ c.n) = numbered d n (a + m - n) := by
  induction m generalizing a with
  | zero =>
    have hcount : a + 0 - n = 0 := by omega
    rw [hcount]
    rfl
  | succ m ih =>
    rw [numbered_succ]
    rcases Nat.lt_or_eq_of_le ha with hlt | rfl
    · rw [List.filter_cons_of_neg (by simpa using hlt), ih hlt]
      congr 1
      omega
    · have hcount : a + (m + 1) - a = m + 1 := by omega
      rw [hcount, List.filter_cons_of_pos (by simp), numbered_succ]
      congr 1
      refine List.filter_eq_self.mpr fun c hc => ?_
      obtain ⟨i, hi, rfl⟩ := List.mem_map.mp hc
      have hi := (List.mem_range'_1.mp hi).1
      simp only [decide_eq_true_eq]
      omega

/-! ## The state of a file -/

/-- The number of the page with changes that are not stored. -/
def World.unsaved (w : World) : Option Nat :=
  if w.file.page.any page_is_dirty then some w.file.n.toNat else none

/-- The chunks are the pages of the content, except for the one that is not stored. -/
def Stored (cs : Nat) (v : Bytes) (chunks : List Chunk) (unsaved : Option Nat) : Prop :=
  ∃ d k, chunks = numbered d 0 k ∧ k ≤ pages cs v.length ∧
    (∀ i < pages cs v.length, unsaved ≠ some i → i < k ∧ d i = page cs i v) ∧
    ∀ m, unsaved = some m → m < pages cs v.length ∧ m ≤ k

/-- The page is the one of the content at its number, and the position is on it or right
behind it. -/
structure OnPage (cs : Nat) (v : Bytes) (n : Nat) (pos : Nat) (p : Page) : Prop where
  shows_page : Shows p (page cs n v)
  chunk_size : p.chunk_size = cs
  pos : pos = n * cs + p.offset

/-- The cursor is in front of chunks that are as they were when it found them.  The page
with the number `n` is none of them. -/
def Ahead (cs : Nat) (v : Bytes) (k r : Nat) (n : Option Nat) (c : Cursor) : Prop :=
  c.error = none ∧ c.gte = r ∧ ∃ m, c.batch = numbered (fun i => page cs i v) r m ∧ r + m ≤ k ∧
    ∀ i, n = some i → i < r ∨ r + m ≤ i

/-- The file and the server together hold the content `v`. -/
structure Consistent (g : Setting) (start : Nat) (v : Bytes) (w : World) : Prop where
  stored : Stored g.chunk_size v w.chunks w.unsaved
  page : ∀ p, w.file.page = some p →
    ∃ n : Nat, w.file.n = n ∧ OnPage g.chunk_size v n w.file.pos p
  cursor : ∀ c, w.file.cursor = some c →
    Ahead g.chunk_size v w.chunks.length w.file.cursor_range.1
      (w.file.page.map fun _ => w.file.n.toNat) c
  pos : w.file.pos < 2 ^ 31 * g.chunk_size
  length : v.length < 2 ^ 31 * g.chunk_size
  requests : start ≤ w.requests

/-- The cursor was opened before some chunk was stored. -/
def Behind (w : World) : Prop :=
  ∃ c, w.file.cursor = some c ∧ c.gte + c.batch.length < w.chunks.length

instance (w : World) : Decidable (Behind w) :=
  decidable_of_iff
    (w.file.cursor.any fun c => decide (c.gte + c.batch.length < (w.chunks.length : Int)))
    (by simp [Behind, Option.any_eq_true])

/-- A failed operation leaves the text of an error: that of a request since `start` that has
failed, or that of a missing chunk, for which the cursor has to be behind. -/
def Reported (g : Setting) (start : Nat) (behind : Prop) (w : World) : Prop :=
  ∃ message, w.file.error = some message ∧
    ((∃ i done, start ≤ i ∧ i < w.requests ∧ g.serve i = .fails message done) ∨
      behind ∧ ∃ n, message = bytes "missing chunk number " ++ int_text n)

section

variable {g : Setting} {start : Nat} {behind : Prop} {v : Bytes} {w w' : World}

theorem Reported.mono {behind' : Prop} (h : Reported g start behind w) (hb : behind → behind') :
    Reported g start behind' w := by
  obtain ⟨message, herror, hwhy⟩ := h
  exact ⟨message, herror, hwhy.imp_right fun hmissing => ⟨hb hmissing.1, hmissing.2⟩⟩

theorem lt_of_lt_bound {n : Nat} (h : n < 2 ^ 31 * g.chunk_size) : n < 2 ^ 62 := by
  have hsmall := g.small
  omega

theorem dirty_of_unsaved {n : Nat} (h : w.unsaved = some n) :
    w.file.page.any page_is_dirty = true := by
  rw [World.unsaved] at h
  split_ifs at h with hdirty
  exact hdirty

theorem Consistent.congr (h : Consistent g start v w) (hrequests : start ≤ w'.requests)
    (hchunks : w'.chunks = w.chunks)
    (hpage : w'.file.page = w.file.page) (hpos : w'.file.pos = w.file.pos)
    (hn : w'.file.n = w.file.n) (hcursor : w'.file.cursor = w.file.cursor)
    (hrange : w'.file.cursor_range = w.file.cursor_range) : Consistent g start v w' := by
  have hunsaved : w'.unsaved = w.unsaved := by rw [World.unsaved, World.unsaved, hpage, hn]
  exact ⟨by rw [hchunks, hunsaved]; exact h.stored, by rw [hpage, hpos, hn]; exact h.page,
    by rw [hcursor, hchunks, hrange, hpage, hn]; exact h.cursor, by rw [hpos]; exact h.pos,
    h.length, hrequests⟩

theorem toInt32_div {n : Nat} (h : n < 2 ^ 31 * g.chunk_size) :
    toInt32 (n / g.chunk_size) = (n / g.chunk_size : Nat) := by
  have hlt : n / g.chunk_size < 2 ^ 31 := Nat.div_lt_of_lt_mul (by rwa [Nat.mul_comm])
  generalize n / g.chunk_size = m at hlt
  exact Int.bmod_eq_of_le (by omega) (by omega)

/-- Without a page there are no unsaved changes. -/
theorem unsaved_eq_none (h : w.file.page = none) : w.unsaved = none := by
  rw [World.unsaved, h]
  rfl

/-- A file without a page. -/
theorem Consistent.intro_none (hpage : w.file.page = none)
    (hstored : Stored g.chunk_size v w.chunks none)
    (hcursor : ∀ c, w.file.cursor = some c →
      Ahead g.chunk_size v w.chunks.length w.file.cursor_range.1 none c)
    (hpos : w.file.pos < 2 ^ 31 * g.chunk_size) (hlength : v.length < 2 ^ 31 * g.chunk_size)
    (hrequests : start ≤ w.requests) : Consistent g start v w := by
  refine ⟨?_, by simp [hpage], ?_, hpos, hlength, hrequests⟩
  · rw [unsaved_eq_none hpage]
    exact hstored
  · rw [hpage]
    exact hcursor

theorem Consistent.elim_none (h : Consistent g start v w) (hpage : w.file.page = none) :
    Stored g.chunk_size v w.chunks none ∧ ∀ c, w.file.cursor = some c →
      Ahead g.chunk_size v w.chunks.length w.file.cursor_range.1 none c := by
  have hstored := h.stored
  have hcursor := h.cursor
  rw [unsaved_eq_none hpage] at hstored
  rw [hpage] at hcursor
  exact ⟨hstored, hcursor⟩

theorem set_error_fail_ends {α : Type} {Q : α → World → Prop} {message : Bytes}
    (h : ∃ i done, start ≤ i ∧ i < w.requests ∧ g.serve i = .fails message done) :
    Ends ((do set_error message; .fail : Attempt World α) w) Q (Reported g start behind) :=
  .failed rfl ⟨message, rfl, Or.inl h⟩

theorem missing_chunk_ends {α : Type} {Q : α → World → Prop} (h : behind) :
    Ends ((missing_chunk : Attempt World α) w) Q (Reported g start behind) :=
  .failed rfl ⟨_, rfl, Or.inr ⟨h, w.file.n, rfl⟩⟩

/-! ## Storing -/

theorem collection_update_ends (update : World → World) (hstart : start ≤ w.requests)
    (hrequests : ∀ w, (update w).requests = w.requests) :
    Ends (collection_update g update w)
      (fun _ w' => w' = update { w with requests := w.requests + 1 }) (Reported g start behind) := by
  have hrequest : request g w =
      .ok (some (g.serve w.requests), { w with requests := w.requests + 1 }) := rfl
  rw [collection_update, Attempt.bind_run_some hrequest]
  cases hserve : g.serve w.requests with
  | fails message done =>
    have hfailed : ∀ w' : World, w'.requests = w.requests + 1 → ∃ i done, start ≤ i ∧
        i < w'.requests ∧ g.serve i = .fails message done := fun w' hw' =>
      ⟨w.requests, done, hstart, by omega, hserve⟩
    cases done
    · exact .failed rfl ⟨message, rfl, Or.inl (hfailed _ rfl)⟩
    · exact .failed rfl ⟨message, rfl, Or.inl (hfailed _ (hrequests _))⟩
  | batch => exact .intro rfl rfl
  | more => exact .intro rfl rfl

/-- A file after its document was stored. -/
def World.stored (w : World) (requests : Nat) : World := { w with
  saved := if w.file.is_dirty then some w.file.length else w.saved
  requests
  file.is_dirty := false }

/-- Saving a file without changes of its page. -/
theorem saveFuel_ends (hstart : start ≤ w.requests)
    (hclean : w.file.page.any page_is_dirty = false) (fuel : Nat) :
    Ends (saveFuel g (fuel + 1) w)
      (fun _ w' => ∃ requests, start ≤ requests ∧ w' = w.stored requests)
      (Reported g start behind) := by
  rw [saveFuel, Attempt.get_bind_run]
  cases hdirty : w.file.is_dirty with
  | false =>
    refine .intro rfl ⟨w.requests, hstart, ?_⟩
    cases w with
    | mk file chunks saved requests =>
      cases file
      simp_all [World.stored]
  | true =>
    rw [if_pos rfl]
    refine (Ends.when (Q := fun _ w' => w' = w) (by simp [hclean]) fun _ => rfl).bind ?_
    intro _ w₁ hw₁
    rw [hw₁]
    refine .after ((collection_update_ends _ hstart (by intro; rfl)).mono ?_ fun _ h => h)
    rintro - _ rfl
    exact ⟨w.requests + 1, hstart.trans (Nat.le_succ _), by simp [World.stored, hdirty]⟩

/-- The chunks with one more page stored. -/
theorem Stored.upsert {cs n : Nat} {chunks : List Chunk} (h : Stored cs v chunks (some n)) :
    Stored cs v (upsert n (Paged.page cs n v) chunks) none ∧
      chunks.length ≤ (GridFS.upsert n (Paged.page cs n v) chunks).length ∧
      ((GridFS.upsert n (Paged.page cs n v) chunks).length = chunks.length ∨
        pages cs v.length ≤ n + 1) := by
  obtain ⟨d, k, rfl, hle, hpages, hunsaved⟩ := h
  obtain ⟨hlt, hnk⟩ := hunsaved n rfl
  rw [upsert_numbered _ (Nat.zero_le n) (by omega), length_numbered, length_numbered]
  have hgrown : max k (n + 1 - 0) = k ∨ pages cs v.length ≤ n + 1 := by
    by_contra hnot
    have hlast : pages cs v.length - 1 < k :=
      (hpages (pages cs v.length - 1) (by omega) (by simp; omega)).1
    omega
  refine ⟨⟨_, _, rfl, by omega, fun i hi _ => ?_, by simp⟩, by omega, hgrown⟩
  rcases eq_or_ne i n with rfl | hne
  · exact ⟨by omega, Function.update_self ..⟩
  · obtain ⟨hik, hd⟩ := hpages i hi (by simpa using hne.symm)
    exact ⟨by omega, by rw [Function.update_of_ne hne, hd]⟩

/-- Storing a page with changes. -/
theorem flush_pageFuel_ends (h : Consistent g start v w)
    (hdirty : w.file.page.any page_is_dirty = true) (fuel : Nat) :
    Ends (flush_pageFuel g (fuel + 2) w)
      (fun _ w' => Consistent g start v w' ∧ w'.file.page = none ∧ w'.file.pos = w.file.pos ∧
        w'.file.length = w.file.length ∧ w'.file.is_dirty = false ∧
        (w'.saved = if w.file.is_dirty then some w.file.length else w.saved) ∧
        (Behind w' → Behind w ∨ pages g.chunk_size v.length ≤ w.file.n.toNat + 1))
      (Reported g start behind) := by
  obtain ⟨p, hp⟩ : ∃ p, w.file.page = some p := by
    cases hpage : w.file.page with
    | none => simp [hpage] at hdirty
    | some p => exact ⟨p, rfl⟩
  obtain ⟨n, hn, hon⟩ := h.page p hp
  have hunsaved : w.unsaved = some n := by rw [World.unsaved, if_pos hdirty, hn, Int.toNat_natCast]
  have hstored := h.stored
  rw [hunsaved] at hstored
  obtain ⟨hupsert, hlength, hgrown⟩ := hstored.upsert
  have hdata : (page_data p : Outcome Empty Bytes) = .ok (Paged.page g.chunk_size n v) :=
    page_data_eq hon.shows_page
  rw [flush_pageFuel, Attempt.get_bind_run]
  simp only [hp]
  rw [Attempt.lift_bind_run hdata]
  refine (collection_update_ends _ h.requests (by intro; rfl)).bind ?_
  rintro - w₁ rfl
  rw [Attempt.modify_bind_run]
  refine (saveFuel_ends (h.requests.trans (Nat.le_succ _)) rfl fuel).mono ?_ fun _ h => h
  rintro - _ ⟨requests, hstart, rfl⟩
  rw [← hn] at hupsert hlength hgrown
  refine ⟨Consistent.intro_none rfl hupsert (fun c hc => ?_) h.pos h.length hstart, rfl, rfl, rfl,
    rfl, rfl, ?_⟩
  · obtain ⟨herror, hgte, m, hbatch, hm, -⟩ := h.cursor c hc
    exact ⟨herror, hgte, m, hbatch, hm.trans hlength, by simp⟩
  · rintro ⟨c, hc, hlt⟩
    refine hgrown.imp (fun hsame => ⟨c, hc, ?_⟩) fun hlast => by rwa [hn, Int.toNat_natCast]
    rw [← hsame]
    exact hlt

/-! ## Loading -/

/-- What loading a page does not change. -/
structure Unmoved (w w' : World) : Prop where
  pos : w'.file.pos = w.file.pos
  length : w'.file.length = w.file.length
  is_dirty : w'.file.is_dirty = w.file.is_dirty
  chunks : w'.chunks = w.chunks
  saved : w'.saved = w.saved
  behind : Behind w' → Behind w

theorem Unmoved.refl (w : World) : Unmoved w w := ⟨rfl, rfl, rfl, rfl, rfl, id⟩

theorem Unmoved.trans {w₁ w₂ w₃ : World} (h : Unmoved w₁ w₂) (h' : Unmoved w₂ w₃) :
    Unmoved w₁ w₃ :=
  ⟨h'.pos.trans h.pos, h'.length.trans h.length, h'.is_dirty.trans h.is_dirty,
    h'.chunks.trans h.chunks, h'.saved.trans h.saved, fun hb => h.behind (h'.behind hb)⟩

/-- Without unsaved changes the chunks are the pages. -/
theorem Stored.eq_numbered {cs : Nat} {chunks : List Chunk} (h : Stored cs v chunks none) :
    chunks.length = pages cs v.length ∧
      chunks = numbered (fun i => Paged.page cs i v) 0 (pages cs v.length) := by
  obtain ⟨d, k, rfl, hle, hpages, -⟩ := h
  have hk : k = pages cs v.length := by
    by_contra hne
    exact absurd (hpages k (by omega) (by simp)).1 (by omega)
  subst hk
  rw [length_numbered]
  exact ⟨rfl, numbered_congr fun i _ hi => (hpages i (by omega) (by simp)).2⟩

/-- The end of a refresh, with the page of the content. -/
theorem load_page_ends {F : World → Prop} {n : Nat} (h : Consistent g start v w) (hpage : w.file.page = none)
    (hn : w.file.n = n) (hpos : w.file.pos / g.chunk_size = n)
    (hcursor : ∀ c, w.file.cursor = some c →
      Ahead g.chunk_size v w.chunks.length w.file.cursor_range.1 (some n) c) :
    Ends (load_page g (Paged.page g.chunk_size n v) w)
      (fun _ w' => Consistent g start v w' ∧ Unmoved w w' ∧
        ∃ p, w'.file.page = some p ∧ p.buf = none ∧ p.offset < g.chunk_size) F := by
  have hsmall := g.small
  have hmod : w.file.pos % g.chunk_size < g.chunk_size := Nat.mod_lt _ g.positive
  have hle : (Paged.page g.chunk_size n v).length ≤ g.chunk_size := by
    rw [length_page]
    omega
  obtain ⟨p, hnew, hshows, hsize, hbuf⟩ := page_new_shows (ε := Empty) hle hsmall
  rw [load_page, Attempt.get_bind_run, if_neg (by omega), Attempt.lift_bind_run hnew]
  have hoffset : (page_seek p (w.file.pos % g.chunk_size)).offset = w.file.pos % g.chunk_size :=
    Nat.mod_eq_of_lt (by omega)
  refine .intro rfl ⟨⟨?_, ?_, ?_, h.pos, h.length, h.requests⟩, ⟨rfl, rfl, rfl, rfl, rfl, id⟩, _,
    rfl, hbuf, by rw [hoffset]; exact hmod⟩
  · have hstored := h.stored
    rw [unsaved_eq_none hpage] at hstored
    simpa [World.unsaved, page_is_dirty, page_seek, hbuf] using hstored
  · rintro _ ⟨⟩
    refine ⟨n, hn, hshows.seek (by omega), hsize, ?_⟩
    rw [hoffset, ← hpos, Nat.div_add_mod']
  · intro c hc
    simpa [hn] using hcursor c hc

/-- Taking the next page of the content, if the cursor has one. -/
theorem cursor_take_ends {F : World → Prop} {c : Cursor} {r m k : Nat}
    (hpage : w.file.page = none) (herror : c.error = none) (hgte : c.gte = r) (hm : r + m ≤ k)
    (hbehind : r + m < w.chunks.length → Behind w) :
    Ends (cursor_take c (numbered (fun i => Paged.page g.chunk_size i v) r m) w)
      (fun found w' => Unmoved w w' ∧ w'.file.page = none ∧ w'.file.n = w.file.n ∧
        w'.file.cursor_range = w.file.cursor_range ∧ w'.requests = w.requests ∧
        (found = none → m = 0 ∧ w'.file.cursor.bind (·.error) = none) ∧ ∀ chunk, found = some chunk →
          chunk = ⟨r, Paged.page g.chunk_size r v⟩ ∧
          ∃ c', w'.file.cursor = some c' ∧ Ahead g.chunk_size v k (r + 1) none c') F := by
  cases m with
  | zero =>
    rw [numbered, List.range'_zero, List.map_nil, cursor_take]
    refine .intro rfl ⟨⟨rfl, rfl, rfl, rfl, rfl, ?_⟩, hpage, rfl, rfl, rfl, fun _ => ⟨rfl, herror⟩,
      by simp⟩
    rintro ⟨_, ⟨⟩, hlt⟩
    exact hbehind (by simpa [hgte] using hlt)
  | succ m =>
    rw [numbered_succ, cursor_take]
    refine .intro rfl ⟨⟨rfl, rfl, rfl, rfl, rfl, ?_⟩, hpage, rfl, rfl, rfl, nofun, ?_⟩
    · rintro ⟨_, ⟨⟩, hlt⟩
      simp only [length_numbered] at hlt
      exact hbehind (by omega)
    · rintro _ ⟨⟩
      exact ⟨rfl, _, rfl, herror, rfl, m, rfl, by omega, by simp⟩

/-- The next chunk of the cursor is the next page of the content. -/
theorem cursor_next_ends {F : World → Prop} {c : Cursor} (h : Consistent g start v w) (hpage : w.file.page = none)
    (hc : w.file.cursor = some c) (hr : w.file.cursor_range.1 < w.chunks.length) :
    Ends (cursor_next g w)
      (fun found w' => Unmoved w w' ∧ w'.file.page = none ∧ w'.file.n = w.file.n ∧
        w'.file.cursor_range = w.file.cursor_range ∧ start ≤ w'.requests ∧
        (found = none → match w'.file.cursor.bind (·.error) with
          | some message => ∃ i done, start ≤ i ∧ i < w'.requests ∧ g.serve i = .fails message done
          | none => Behind w) ∧
        ∀ chunk, found = some chunk →
          chunk = ⟨w.file.cursor_range.1, Paged.page g.chunk_size w.file.cursor_range.1 v⟩ ∧
          ∃ c', w'.file.cursor = some c' ∧ Ahead g.chunk_size v w.chunks.length
            (w.file.cursor_range.1 + 1) none c') F := by
  obtain ⟨hstored, hcursor⟩ := h.elim_none hpage
  obtain ⟨herror, hgte, m, hbatch, hm, -⟩ := hcursor c hc
  obtain ⟨hlength, hchunks⟩ := hstored.eq_numbered
  generalize hrange : w.file.cursor_range.1 = r at *
  have hrequest : request g w =
      .ok (some (g.serve w.requests), { w with requests := w.requests + 1 }) := rfl
  have hmore : w.chunks.filter (c.gte ≤ ·.n) =
      numbered (fun i => Paged.page g.chunk_size i v) r (w.chunks.length - r) := by
    rw [hgte, hchunks, filter_numbered (Nat.zero_le r), length_numbered, Nat.zero_add]
  rw [cursor_next, Attempt.get_bind_run]
  simp only [hc]
  rw [if_neg (by simp [herror]), Attempt.bind_run_some hrequest]
  generalize hw₁ : ({ w with requests := w.requests + 1 } : World) = w₁
  have hasked : Unmoved w w₁ := hw₁ ▸ ⟨rfl, rfl, rfl, rfl, rfl, id⟩
  have hfile : w₁.file = w.file := hw₁ ▸ rfl
  have hrequests : w₁.requests = w.requests + 1 := hw₁ ▸ rfl
  have hstart := h.requests
  rw [← hfile] at hpage hrange ⊢
  cases hserve : g.serve w.requests with
  | fails message done =>
    refine .intro rfl ⟨hasked.trans ⟨rfl, rfl, rfl, rfl, rfl, ?_⟩, hpage, rfl, rfl, ?_, fun _ => ?_,
      by simp⟩
    · rintro ⟨_, ⟨⟩, hlt⟩
      exact ⟨c, hfile ▸ hc, hlt⟩
    · exact hstart.trans (hrequests ▸ Nat.le_succ _)
    · exact ⟨w.requests, done, hstart, hrequests ▸ Nat.lt_succ_self _, hserve⟩
  | batch =>
    dsimp only
    rw [Attempt.get_bind_run, if_neg (by simp), hbatch]
    have hshort (hlt : r + m < w.chunks.length) : Behind w :=
      ⟨c, hc, by rw [hgte, hbatch, length_numbered]; exact_mod_cast hlt⟩
    refine (cursor_take_ends hpage herror hgte hm fun hlt => ?_).mono ?_ fun _ h => h
    · rw [Behind, hfile, hasked.chunks]
      exact hshort (hasked.chunks ▸ hlt)
    · rintro found w₂ ⟨hunmoved, hpage₂, hn₂, hrange₂, hrequests₂, hnone, hsome⟩
      refine ⟨hasked.trans hunmoved, hpage₂, hn₂, hrange₂, by omega, fun hfound => ?_, hsome⟩
      obtain ⟨rfl, herror₂⟩ := hnone hfound
      rw [herror₂]
      exact hshort (by omega)
  | more =>
    dsimp only
    rw [Attempt.get_bind_run, if_pos rfl, hasked.chunks, hmore]
    refine (cursor_take_ends hpage herror hgte (k := w.chunks.length) (by omega) fun hlt => ?_).mono
      ?_ fun _ h => h
    · rw [hasked.chunks] at hlt
      omega
    · rintro found w₂ ⟨hunmoved, hpage₂, hn₂, hrange₂, hrequests₂, hnone, hsome⟩
      refine ⟨hasked.trans hunmoved, hpage₂, hn₂, hrange₂, by omega, fun hfound => ?_, hsome⟩
      have hempty := (hnone hfound).1
      omega

/-- The loop stops at the chunk with the number `n`. -/
theorem next_chunks_ends {n rounds : Nat} {chunk : Option Chunk} (h : Consistent g start v w)
    (hpage : w.file.page = none) (hc : w.file.cursor ≠ none) (hn : n < w.chunks.length)
    (hsmall : n < 2 ^ 31) (hrounds : w.file.cursor_range.1 + rounds = n + 1)
    (hchunk : rounds = 0 → chunk = some ⟨n, Paged.page g.chunk_size n v⟩) :
    Ends (next_chunks g rounds chunk w)
      (fun found w' => found = some ⟨n, Paged.page g.chunk_size n v⟩ ∧ Consistent g start v w' ∧
        Unmoved w w' ∧ w'.file.page = none ∧ w'.file.n = w.file.n ∧
        w'.file.cursor_range.1 = n + 1) (Reported g start (Behind w)) := by
  induction rounds generalizing w chunk with
  | zero =>
    rw [next_chunks]
    exact .intro rfl ⟨hchunk rfl, h, .refl w, hpage, rfl, hrounds⟩
  | succ rounds ih =>
    obtain ⟨c, hc⟩ := Option.ne_none_iff_exists'.mp hc
    obtain ⟨hstored, -⟩ := h.elim_none hpage
    rw [next_chunks]
    refine (cursor_next_ends h hpage hc (by omega)).bind ?_
    rintro found w₁ ⟨hunmoved, hpage₁, hn₁, hrange, hstart₁, hwhy, hfound⟩
    cases found with
    | none =>
      have hwhy := hwhy rfl
      dsimp only
      rw [Attempt.get_bind_run]
      cases herror : w₁.file.cursor.bind (·.error) with
      | none =>
        rw [herror] at hwhy
        exact missing_chunk_ends hwhy
      | some message =>
        rw [herror] at hwhy
        exact set_error_fail_ends hwhy
    | some chunk =>
      obtain ⟨rfl, c', hc', hahead⟩ := hfound chunk rfl
      have hadd : add32 w₁.file.cursor_range.1 1 = w.file.cursor_range.1 + 1 := by
        rw [hrange]
        exact Nat.mod_eq_of_lt (by omega)
      have hleft : add32 w₁.file.cursor_range.1 1 + rounds = n + 1 := by omega
      dsimp only
      rw [Attempt.modify_bind_run]
      generalize hw₂ : ({ w₁ with
        file.cursor_range := (add32 w₁.file.cursor_range.1 1, w₁.file.cursor_range.2) } :
        World) = w₂
      have hnext : Unmoved w w₂ := hw₂ ▸ ⟨hunmoved.pos, hunmoved.length, hunmoved.is_dirty,
        hunmoved.chunks, hunmoved.saved, hunmoved.behind⟩
      have hstart₂ : start ≤ w₂.requests := hw₂ ▸ hstart₁
      have hpage₂ : w₂.file.page = none := hw₂ ▸ hpage₁
      have hrange₂ : w₂.file.cursor_range.1 = w.file.cursor_range.1 + 1 := hw₂ ▸ hadd
      have hcursor₂ : w₂.file.cursor = some c' := hw₂ ▸ hc'
      have hn₂ : w₂.file.n = w.file.n := hw₂ ▸ hn₁
      have hconsistent : Consistent g start v w₂ := by
        refine .intro_none hpage₂ (hnext.chunks ▸ hstored) (fun c hc => ?_) (hnext.pos ▸ h.pos)
          h.length hstart₂
        rw [hcursor₂] at hc
        cases hc
        rw [hnext.chunks, hrange₂]
        exact hahead
      refine (ih hconsistent hpage₂ (by simp [hcursor₂]) (hnext.chunks.symm ▸ hn) (by omega)
        ?_).mono ?_ fun _ h => h.mono hnext.behind
      · rintro rfl
        have hr : w.file.cursor_range.1 = n := by omega
        rw [hr]
      · rintro found w₃ ⟨hfound, hconsistent, hunmoved₃, hpage₃, hn₃, hrange₃⟩
        exact ⟨hfound, hconsistent, hnext.trans hunmoved₃, hpage₃, hn₃.trans hn₂, hrange₃⟩

/-- The file has the page at its position, as it is stored. -/
structure Loaded (g : Setting) (start : Nat) (v : Bytes) (w w' : World) : Prop where
  consistent : Consistent g start v w'
  unmoved : Unmoved w w'
  page : ∃ p, w'.file.page = some p ∧ p.buf = none ∧ p.offset < g.chunk_size

/-- A new cursor is in front of the chunk. -/
theorem find_chunks_ends {F : World → Prop} {n : Nat} (h : Consistent g start v w) (hpage : w.file.page = none)
    (hn : w.file.n = n) (hsmall : n < 2 ^ 31) (hlt : n < w.chunks.length) :
    Ends (find_chunks g w)
      (fun _ w' => Consistent g start v w' ∧ Unmoved w w' ∧ w'.file.page = none ∧ w'.file.n = n ∧
        w'.file.cursor ≠ none ∧ w'.file.cursor_range.1 ≤ n) F := by
  obtain ⟨hstored, -⟩ := h.elim_none hpage
  obtain ⟨hlength, hchunks⟩ := hstored.eq_numbered
  have hrange : (w.file.n % 2 ^ 32).toNat = n := by
    rw [hn]
    omega
  have hahead : Ahead g.chunk_size v w.chunks.length (w.file.n % 2 ^ 32).toNat none
      ⟨w.file.n, w.chunks.filter (w.file.n ≤ ·.n), none⟩ := by
    rw [hrange, hn]
    refine ⟨rfl, rfl, w.chunks.length - n, ?_, by omega, by simp⟩
    dsimp only
    rw [hchunks, filter_numbered (Nat.zero_le n), length_numbered, Nat.zero_add]
  refine .intro rfl ⟨.intro_none hpage hstored ?_ h.pos h.length h.requests,
    ⟨rfl, rfl, rfl, rfl, rfl, ?_⟩, hpage, hn, by simp, hrange.le⟩
  · rintro _ ⟨⟩
    exact hahead
  · -- the cursor has all the chunks from its number on
    rintro ⟨_, ⟨⟩, hshort⟩
    simp only [hn, hchunks, filter_numbered (Nat.zero_le n), length_numbered] at hshort
    omega

/-- There is a cursor then, which is not behind the chunk. -/
theorem choose_cursor_ends {F : World → Prop} {n : Nat} (h : Consistent g start v w) (hpage : w.file.page = none)
    (hn : w.file.n = n) (hsmall : n < 2 ^ 31) (hlt : n < w.chunks.length) :
    Ends (choose_cursor g w)
      (fun _ w' => Consistent g start v w' ∧ Unmoved w w' ∧ w'.file.page = none ∧ w'.file.n = n ∧
        w'.file.cursor ≠ none ∧ w'.file.cursor_range.1 ≤ n) F := by
  obtain ⟨hstored, -⟩ := h.elim_none hpage
  rw [choose_cursor, Attempt.modify_bind_run, Attempt.get_bind_run]
  split_ifs with hkeep
  · refine .when (fun _ => find_chunks_ends h hpage hn hsmall hlt) fun hsome => ?_
    refine ⟨h, .refl w, hpage, hn, hsome, ?_⟩
    simp only [keep_cursor, hn, decide_eq_true_eq] at hkeep
    omega
  · refine .when (fun _ => ?_) fun hsome => absurd rfl hsome
    refine (find_chunks_ends (w := { w with file.cursor := none })
      (.intro_none hpage hstored (by simp) h.pos h.length h.requests) hpage hn hsmall hlt).mono ?_
      fun _ h => h
    rintro - w' ⟨hconsistent, hunmoved, hrest⟩
    refine ⟨hconsistent, ⟨hunmoved.pos, hunmoved.length, hunmoved.is_dirty, hunmoved.chunks,
      hunmoved.saved, fun hb => ?_⟩, hrest⟩
    obtain ⟨_, ⟨⟩, -⟩ := hunmoved.behind hb

/-- Refreshing the page when there are no unsaved changes. -/
theorem refresh_page_ends (h : Consistent g start v w) (hclean : w.unsaved = none)
    (hnew : pages g.chunk_size w.file.length ≤ w.file.pos / g.chunk_size ↔
      pages g.chunk_size v.length ≤ w.file.pos / g.chunk_size) :
    Ends (refresh_page g w) (fun _ w' => Loaded g start v w w')
      (Reported g start
        (Behind w ∧ w.file.pos / g.chunk_size < pages g.chunk_size v.length)) := by
  have hn := toInt32_div h.pos
  have hsmall : w.file.pos / g.chunk_size < 2 ^ 31 :=
    Nat.div_lt_of_lt_mul (by rw [Nat.mul_comm]; exact h.pos)
  have hrequired : divide_round_up (w.file.pos + 1) g.chunk_size =
      w.file.pos / g.chunk_size + 1 := by
    have hsum : w.file.pos + 1 + g.chunk_size - 1 = w.file.pos + g.chunk_size := by omega
    rw [divide_round_up, hsum, Nat.add_div_right _ g.positive]
  have hstored := h.stored
  rw [hclean] at hstored
  obtain ⟨hlength, -⟩ := hstored.eq_numbered
  rw [refresh_page, Attempt.modify_bind_run, Attempt.get_bind_run]
  generalize hw₁ : ({ w with
    file.n := toInt32 (w.file.pos / g.chunk_size), file.page := none } : World) = w₁
  have hunmoved : Unmoved w w₁ := hw₁ ▸ ⟨rfl, rfl, rfl, rfl, rfl, id⟩
  have hrequests : start ≤ w₁.requests := hw₁ ▸ h.requests
  have hpage : w₁.file.page = none := hw₁ ▸ rfl
  have hset : w₁.file.n = toInt32 (w.file.pos / g.chunk_size) := by rw [← hw₁]
  have hn₁ := hset.trans hn
  have hconsistent : Consistent g start v w₁ := by
    refine .intro_none hpage (hunmoved.chunks ▸ hstored) (fun c hc => ?_) (hunmoved.pos ▸ h.pos)
      h.length hrequests
    subst hw₁
    obtain ⟨herror, hgte, m, hbatch, hm, -⟩ := h.cursor c hc
    exact ⟨herror, hgte, m, hbatch, hm, by simp⟩
  rw [hunmoved.length, hunmoved.pos, hrequired]
  change Ends ((if pages g.chunk_size w.file.length < _ then _ else _ : Attempt World Unit) w₁) _ _
  rw [← hunmoved.chunks] at hlength
  have hpos : w₁.file.pos / g.chunk_size = w.file.pos / g.chunk_size := by rw [hunmoved.pos]
  generalize w.file.pos / g.chunk_size = n at hn₁ hsmall hnew hpos ⊢
  split_ifs with hlt
  · -- the page is behind the content, and so it is new
    have hbehind := hnew.mp (Nat.lt_succ_iff.mp hlt)
    have hempty : Paged.page g.chunk_size n v = [] :=
      page_eq_nil ((pages_le_iff g.positive).mp hbehind)
    rw [← hempty]
    refine (load_page_ends hconsistent hpage hn₁ hpos fun c hc => ?_).mono ?_ fun _ h => h
    · obtain ⟨herror, hgte, m, hbatch, hm, -⟩ := (hconsistent.elim_none hpage).2 c hc
      refine ⟨herror, hgte, m, hbatch, hm, ?_⟩
      rintro _ ⟨⟩
      omega
    · rintro - w' ⟨hconsistent', hunmoved', hpage'⟩
      exact ⟨hconsistent', hunmoved.trans hunmoved', hpage'⟩
  · have hin : n < w₁.chunks.length := by
      by_contra hge
      exact hlt (Nat.lt_succ_iff.mpr (hnew.mpr (by omega)))
    refine (choose_cursor_ends hconsistent hpage hn₁ hsmall hin).bind ?_
    rintro - w₂ ⟨hconsistent₂, hunmoved₂, hpage₂, hn₂, hcursor₂, hrange₂⟩
    have hchunk_no : (w₂.file.n % 2 ^ 32).toNat = n := by
      rw [hn₂]
      omega
    rw [Attempt.get_bind_run, hchunk_no]
    refine ((next_chunks_ends hconsistent₂ hpage₂ hcursor₂ (hunmoved₂.chunks.symm ▸ hin) hsmall
      (by omega) (by omega)).mono (fun _ _ h => h) fun _ h => h.mono fun hb =>
        ⟨hunmoved.behind (hunmoved₂.behind hb), hlength ▸ hin⟩).bind ?_
    rintro _ w₃ ⟨rfl, hconsistent₃, hunmoved₃, hpage₃, hn₃, hrange₃⟩
    have hpos₂ : w₂.file.pos / g.chunk_size = n := by rw [hunmoved₂.pos, hpos]
    dsimp only
    rw [if_neg (by simp [hn₂]), if_neg (by simp [hn₂, hpos₂])]
    refine (load_page_ends hconsistent₃ hpage₃ (hn₃.trans hn₂) (by rw [hunmoved₃.pos, hpos₂])
      fun c hc => ?_).mono ?_ fun _ h => h
    · obtain ⟨herror, hgte, m, hbatch, hm, -⟩ := (hconsistent₃.elim_none hpage₃).2 c hc
      refine ⟨herror, hgte, m, hbatch, hm, ?_⟩
      rintro _ ⟨⟩
      omega
    · rintro - w' ⟨hconsistent', hunmoved', hpage'⟩
      exact ⟨hconsistent', ((hunmoved.trans hunmoved₂).trans hunmoved₃).trans hunmoved', hpage'⟩

/-- Nothing of the content is behind the page of the file, or behind the position when there
is no page. -/
def AtEnd (g : Setting) (v : Bytes) (w : World) : Prop :=
  pages g.chunk_size v.length ≤
    if w.file.page = none then w.file.pos / g.chunk_size else w.file.n.toNat + 1

theorem AtEnd.le {n : Nat} (h : AtEnd g v w) (hpage : w.file.page ≠ none) (hn : w.file.n = n) :
    v.length ≤ (n + 1) * g.chunk_size := by
  rw [AtEnd, if_neg hpage, hn, Int.toNat_natCast] at h
  exact (pages_le_iff g.positive).mp h

theorem AtEnd.of_le {n : Nat} (hpage : w.file.page = none) (hpos : w.file.pos = n * g.chunk_size)
    (h : v.length ≤ n * g.chunk_size) : AtEnd g v w := by
  rw [AtEnd, if_pos hpage, hpos, Nat.mul_div_cancel _ g.positive]
  exact (pages_le_iff g.positive).mpr h

/-- `if (!file->page && !_mongoc_gridfs_file_refresh_page (file))`: a page that is there stays. -/
theorem ensure_page_ends (h : Consistent g start v w)
    (hnew : w.file.page = none → (pages g.chunk_size w.file.length ≤ w.file.pos / g.chunk_size ↔
      pages g.chunk_size v.length ≤ w.file.pos / g.chunk_size)) :
    Ends (ensure_page g w)
      (fun _ w' => Consistent g start v w' ∧ Unmoved w w' ∧ w'.unsaved = w.unsaved ∧
        (AtEnd g v w → AtEnd g v w') ∧
        ∃ p, w'.file.page = some p ∧ (w.file.page = none → p.offset < g.chunk_size))
      (Reported g start (Behind w ∧ ¬ AtEnd g v w)) := by
  rw [ensure_page, Attempt.get_bind_run]
  refine .when (fun hnone => ?_) fun hsome => ?_
  · refine (refresh_page_ends h (unsaved_eq_none hnone) (hnew hnone)).mono ?_
      fun _ h => h.mono fun hb => ⟨hb.1, fun hend => ?_⟩
    · rintro - w' ⟨hconsistent, hunmoved, p, hp, hbuf, hoffset⟩
      refine ⟨hconsistent, hunmoved, ?_, fun hend => ?_, p, hp, fun _ => hoffset⟩
      · rw [unsaved_eq_none hnone, World.unsaved, hp]
        simp [page_is_dirty, hbuf]
      · obtain ⟨n, hn, hon⟩ := hconsistent.page p hp
        rw [AtEnd, if_pos hnone, ← hunmoved.pos, hon.pos, Nat.add_comm,
          Nat.add_mul_div_right _ _ g.positive, Nat.div_eq_of_lt hoffset, Nat.zero_add] at hend
        rw [AtEnd, if_neg (by simp [hp]), hn, Int.toNat_natCast]
        exact hend.trans (Nat.le_succ n)
    · rw [AtEnd, if_pos hnone] at hend
      exact absurd hb.2 (Nat.not_lt.mpr hend)
  · obtain ⟨p, hp⟩ := Option.ne_none_iff_exists'.mp hsome
    exact ⟨h, .refl w, rfl, id, p, hp, fun hnone => absurd hnone hsome⟩

/-! ## Writing -/

/-- The page of the position is one of the content or the next one. -/
theorem Stored.le_of_clean {cs n k : Nat} {d : Nat → Bytes} (hcs : 0 < cs)
    (hpages : ∀ i < pages cs v.length, i < k ∧ d i = Paged.page cs i v)
    (hle : n * cs ≤ v.length) : n ≤ k := by
  cases n with
  | zero => exact Nat.zero_le k
  | succ n =>
    refine (hpages n ((lt_pages_iff hcs).mpr ?_)).1
    rw [Nat.succ_mul] at hle
    omega

/-- Writing to a page makes it one that is not stored. -/
theorem Stored.write {cs n pos : Nat} {t : Bytes} {chunks : List Chunk} {unsaved : Option Nat}
    (h : Stored cs v chunks unsaved) (hcs : 0 < cs) (hunsaved : unsaved = none ∨ unsaved = some n)
    (hpos : pos ≤ v.length) (hfrom : n * cs ≤ pos) (hto : pos + t.length ≤ n * cs + cs)
    (hreach : n * cs < pos + t.length) : Stored cs (put v pos t) chunks (some n) := by
  obtain ⟨d, k, rfl, hle, hpages, hbound⟩ := h
  have hlength := length_put_of_le (t := t) hpos
  have hgrow : pages cs v.length ≤ pages cs (put v pos t).length := pages_mono cs (by omega)
  refine ⟨d, k, rfl, hle.trans hgrow, fun i hi hne => ?_, ?_⟩
  · have hin : i ≠ n := fun heq => hne (heq ▸ rfl)
    have hold : i < pages cs v.length := by
      rw [lt_pages_iff hcs] at hi ⊢
      rcases Nat.lt_or_gt_of_ne hin with hlt | hgt
      · have hstep := Nat.mul_le_mul_right cs (Nat.succ_le_of_lt hlt)
        rw [Nat.succ_mul] at hstep
        omega
      · have hstep := Nat.mul_le_mul_right cs (Nat.succ_le_of_lt hgt)
        rw [Nat.succ_mul] at hstep
        omega
    have hother : unsaved ≠ some i := by
      rcases hunsaved with rfl | rfl
      · simp
      · simpa using hin.symm
    obtain ⟨hik, hd⟩ := hpages i hold hother
    exact ⟨hik, by rw [hd, page_put_of_ne hpos hfrom hto hin]⟩
  · rintro _ ⟨⟩
    refine ⟨(lt_pages_iff hcs).mpr (by omega), ?_⟩
    rcases hunsaved with rfl | rfl
    · exact Stored.le_of_clean hcs (fun i hi => hpages i hi (by simp)) (by omega)
    · exact (hbound n rfl).2

/-- Writing to the page of the file writes to the content. -/
theorem Consistent.write {n : Nat} {t : Bytes} {p p' : Page} (h : Consistent g start v w)
    (hp : w.file.page = some p) (hn : w.file.n = n) (hpos : w.file.pos ≤ v.length)
    (hshows : Shows p' (put (Paged.page g.chunk_size n v) p.offset t))
    (hsize : p'.chunk_size = p.chunk_size) (hoffset : p'.offset = p.offset + t.length)
    (hbuf : p'.buf ≠ none) (hreach : 0 < p.offset + t.length)
    (hbound : w.file.pos + t.length < 2 ^ 31 * g.chunk_size)
    (hpage : w'.file.page = some p') (hpos' : w'.file.pos = w.file.pos + t.length)
    (hn' : w'.file.n = w.file.n) (hcursor : w'.file.cursor = w.file.cursor)
    (hrange : w'.file.cursor_range = w.file.cursor_range) (hchunks : w'.chunks = w.chunks)
    (hrequests : w'.requests = w.requests) :
    Consistent g start (put v w.file.pos t) w' ∧ w'.unsaved = some n := by
  obtain ⟨n', hn'', hon⟩ := h.page p hp
  obtain rfl : n' = n := by
    rw [hn''] at hn
    exact_mod_cast hn
  have hstart := hon.pos
  have hfits := hshows.offset
  rw [hsize, hon.chunk_size, hoffset] at hfits
  have hlength := length_put_of_le (t := t) hpos
  have hold := h.length
  have hdirty : w'.unsaved = some n' := by
    have hown := Option.isSome_iff_ne_none.mpr hbuf
    rw [World.unsaved, hpage, hn', hn'']
    simp [page_is_dirty, hown]
  have hbefore : w.unsaved = none ∨ w.unsaved = some n' := by
    rw [World.unsaved, hn'']
    split_ifs
    · exact Or.inr rfl
    · exact Or.inl rfl
  refine ⟨⟨?_, ?_, ?_, by omega, by omega, hrequests ▸ h.requests⟩, hdirty⟩
  · rw [hdirty, hchunks]
    exact h.stored.write g.positive hbefore hpos (by omega) (by omega) (by omega)
  · intro q hq
    rw [hpage] at hq
    cases hq
    refine ⟨n', hn'.trans hn'', ?_, hsize.trans hon.chunk_size, by omega⟩
    rw [page_put hpos (by omega) (by omega)]
    have hsub : w.file.pos - n' * g.chunk_size = p.offset := by omega
    rw [hsub]
    exact hshows
  · intro c hc
    obtain ⟨herror, hgte, m, hbatch, hm, hapart⟩ := h.cursor c (hcursor ▸ hc)
    rw [hp, Option.map_some, hn''] at hapart
    have hapart := hapart n' rfl
    rw [hchunks, hrange, hpage, hn', hn'']
    refine ⟨herror, hgte, m, ?_, hm, ?_⟩
    · rw [hbatch]
      exact numbered_congr fun i hi hi' =>
        (page_put_of_ne (m := n') hpos (by omega) (by omega) (by omega)).symm
    · rintro _ ⟨⟩
      exact hapart

/-- A part that is smaller than one of two bounds is the other one. -/
theorem eq_of_min_lt {a b r : Nat} (hr : min a b = r) (h : r < a) : r = b := by
  rcases min_choice a b with hmin | hmin
  · exact absurd (hr.symm.trans hmin) h.ne
  · exact hr.symm.trans hmin

/-- The page of the last byte that was written. -/
theorem last_div {cs n k : Nat} (hpos : 0 < k) (hle : k ≤ cs) : (n * cs + k - 1) / cs = n := by
  have hsplit : n * cs + k - 1 = (k - 1) + n * cs := by omega
  rw [hsplit, Nat.add_mul_div_right _ _ (by omega), Nat.div_eq_of_lt (by omega), Nat.zero_add]

/-- Where the position of a file is on its page. -/
theorem OnPage.offset_le {cs n pos : Nat} {p : Page} (h : OnPage cs v n pos p)
    (hpos : pos ≤ v.length) : p.offset ≤ (Paged.page cs n v).length := by
  have hoffset := h.shows_page.offset
  rw [h.chunk_size] at hoffset
  have hstart := h.pos
  rw [length_page]
  omega

/-- A write of the buffer from `i` on. -/
theorem writevLoop_ends {src : Bytes} {fuel i : Nat} (h : Consistent g start v w)
    (hpos : w.file.pos ≤ v.length) (hlength : w.file.length = v.length)
    (hsrc : src.length < 2 ^ 32) (hi : i < src.length)
    (hbound : w.file.pos + (src.length - i) < 2 ^ 31 * g.chunk_size)
    (hfuel : src.length - i + 1 < fuel ∨ w.file.page = none ∧ src.length - i < fuel)
    (hbehind : Behind w → behind ∨ AtEnd g v w) :
    Ends (writevLoop g src fuel i w)
      (fun _ w' => Consistent g start (put v w.file.pos (src.drop i)) w' ∧
        w'.file.pos = w.file.pos + (src.length - i) ∧
        w'.file.length = max v.length (w.file.pos + (src.length - i)) ∧
        w'.unsaved = some ((w.file.pos + (src.length - i) - 1) / g.chunk_size))
      (Reported g start behind) := by
  induction fuel generalizing v w i with
  | zero => omega
  | succ fuel ih =>
    rw [writevLoop]
    refine ((ensure_page_ends h fun _ => by rw [hlength]).mono (fun _ _ h => h) fun _ h =>
      h.mono fun hb => (hbehind hb.1).resolve_right hb.2).bind ?_
    rintro - w₁ ⟨h₁, hunmoved, -, hend₁, p, hp, hoffset⟩
    rw [Attempt.get_bind_run]
    obtain ⟨n, hn, hon⟩ := h₁.page p hp
    have hin := hon.offset_le (hunmoved.pos ▸ hpos)
    have hlen : (src.length - i) % 2 ^ 32 = src.length - i := Nat.mod_eq_of_lt (by omega)
    have hdrop : (src.drop i).length = src.length - i := List.length_drop
    obtain ⟨p', hwrite, hshows, hoff, hsize, hbuf⟩ :=
      page_write_eq (ε := Empty) hon.shows_page g.fresh hdrop.ge hin
    rw [hon.chunk_size] at hwrite hshows hoff
    simp only [hp, hlen]
    rw [Attempt.lift_bind_run hwrite, Attempt.modify_bind_run]
    generalize hr : min (src.length - i) (g.chunk_size - p.offset) = r at hshows hoff
    have hleft : r ≤ src.length - i := hr ▸ min_le_left _ _
    have hroom : r ≤ g.chunk_size - p.offset := hr ▸ min_le_right _ _
    have hfull (h : r < src.length - i) : r = g.chunk_size - p.offset := eq_of_min_lt hr h
    clear hr hlen
    have htake : ((src.drop i).take r).length = r := by
      rw [List.length_take, hdrop, min_eq_left hleft]
    have hwrap : (w₁.file.pos + r) % 2 ^ 64 = w.file.pos + r := by
      have hlt := lt_of_lt_bound hbound
      rw [hunmoved.pos]
      exact Nat.mod_eq_of_lt (by omega)
    have hstart := hon.pos
    rw [hunmoved.pos] at hstart
    generalize hw₂ : ({ w₁ with
      file.page := some p'
      file.pos := (w₁.file.pos + r) % 2 ^ 64
      file.length := max w₁.file.length ((w₁.file.pos + r) % 2 ^ 64) } : World) = w₂
    have hpos₂ : w₂.file.pos = w.file.pos + r := hw₂ ▸ hwrap
    have hlength₂ : w₂.file.length = max v.length (w.file.pos + r) := by
      rw [← hw₂, ← hwrap, ← hlength, ← hunmoved.length]
    have hn₂ : w₂.file.n = n := by rw [← hw₂]; exact hn
    have hbehind₂ (hb : Behind w₂) : Behind w := by
      subst hw₂
      exact hunmoved.behind hb
    obtain ⟨h₂, hdirty₂⟩ : Consistent g start (put v w.file.pos ((src.drop i).take r)) w₂ ∧
        w₂.unsaved = some n := by
      rw [← hunmoved.pos]
      have hpositive := g.positive
      refine h₁.write hp hn (hunmoved.pos ▸ hpos) hshows hsize (by rw [htake]; exact hoff) hbuf
        (by omega) (by rw [htake, hunmoved.pos]; omega) ?_ (by rw [htake, hpos₂, hunmoved.pos])
        ?_ ?_ ?_ ?_ ?_
      all_goals rw [← hw₂]
    have hput := length_put_of_le (t := (src.drop i).take r) hpos
    rw [htake] at hput
    have hadd : add32 i r = i + r := Nat.mod_eq_of_lt (by omega)
    simp only [hadd]
    split_ifs with hall
    · have hr : r = src.length - i := by omega
      have hwhole : (src.drop i).take r = src.drop i := List.take_of_length_le (by omega)
      rw [hwhole] at h₂
      refine .intro rfl ⟨h₂, hr ▸ hpos₂, hr ▸ hlength₂, ?_⟩
      rw [hdirty₂, hstart, ← hr, Nat.add_assoc, last_div (by omega) (by omega)]
    · have hmore : i + r < src.length :=
        lt_of_le_of_ne (Nat.add_le_of_le_sub' hi.le hleft) hall
      refine (flush_pageFuel_ends h₂ (dirty_of_unsaved hdirty₂) 1).bind ?_
      rintro - w₃ ⟨h₃, hpage₃, hpos₃, hlength₃, -, -, hgrown⟩
      have hend : w₃.file.pos + (src.length - (i + r)) = w.file.pos + (src.length - i) := by
        rw [hpos₃, hpos₂, Nat.sub_add_eq, Nat.add_assoc, Nat.add_sub_cancel' hleft]
      have hnext : w.file.pos + r = (n + 1) * g.chunk_size := by
        have hfits := hon.shows_page.offset
        rw [hon.chunk_size] at hfits
        have hpart := hfull (Nat.lt_sub_of_add_lt (Nat.add_comm i r ▸ hmore))
        rw [Nat.succ_mul]
        omega
      have hbehind₃ (hb : Behind w₃) :
          behind ∨ AtEnd g (put v w.file.pos ((src.drop i).take r)) w₃ := by
        have hlast (hle : (put v w.file.pos ((src.drop i).take r)).length ≤
            (n + 1) * g.chunk_size) := AtEnd.of_le (g := g) hpage₃ (by rw [hpos₃, hpos₂, hnext]) hle
        rcases hgrown hb with hb₂ | hgrown
        · refine (hbehind (hbehind₂ hb₂)).imp_right fun hend => hlast ?_
          have hle := (hend₁ hend).le (by simp [hp]) hn
          rw [hput, hnext]
          exact max_le hle le_rfl
        · rw [hn₂, Int.toNat_natCast] at hgrown
          exact Or.inr (hlast ((pages_le_iff g.positive).mp hgrown))
      have hlength' : w₃.file.length = (put v w.file.pos ((src.drop i).take r)).length := by
        rw [hlength₃, hlength₂, hput]
      have hpos' : w₃.file.pos ≤ (put v w.file.pos ((src.drop i).take r)).length := by
        rw [hpos₃, hpos₂, hput]
        exact le_max_right _ _
      refine (ih h₃ hpos' hlength' hmore (hend ▸ hbound) (Or.inr ⟨hpage₃, ?_⟩) hbehind₃).mono ?_
        fun _ h => h
      · rw [Nat.sub_add_eq]
        rcases hfuel with hfuel | ⟨hnone, hfuel⟩
        · exact (Nat.sub_le _ _).trans_lt (Nat.lt_of_succ_lt_succ hfuel)
        · -- a new page has room
          have hpart := hfull (Nat.lt_sub_of_add_lt (Nat.add_comm i r ▸ hmore))
          have hsome : 0 < r := hpart ▸ Nat.sub_pos_of_lt (hoffset hnone)
          exact (Nat.sub_lt (Nat.sub_pos_of_lt hi) hsome).trans_le (Nat.le_of_lt_succ hfuel)
      · rintro - w' ⟨hconsistent, hpos', hlength', hdirty'⟩
        have hrest : (src.drop i).take r ++ src.drop (i + r) = src.drop i := by
          rw [← List.drop_drop, List.take_append_drop]
        have hjoin := put_put (src.drop (i + r)) hpos (t := (src.drop i).take r)
        rw [htake, hrest] at hjoin
        rw [hpos₃, hpos₂, hjoin] at hconsistent
        rw [hend] at hpos' hdirty'
        rw [hend, hput, max_assoc, max_eq_right (Nat.add_le_add_left hleft _)] at hlength'
        exact ⟨hconsistent, hpos', hlength', hdirty'⟩

/-- Zeros behind the content, up to the length `target`. -/
theorem extendLoop_ends {target fuel : Nat} (h : Consistent g start v w) (hpos : w.file.pos = v.length)
    (hle : w.file.length ≤ v.length)
    (hnew : w.file.page = none → (pages g.chunk_size w.file.length ≤ w.file.pos / g.chunk_size ↔
      pages g.chunk_size v.length ≤ w.file.pos / g.chunk_size))
    (htarget : v.length < target) (hgap : target - v.length < 2 ^ 32)
    (hbound : target < 2 ^ 31 * g.chunk_size)
    (hfuel : target - v.length + 1 < fuel ∨ w.file.page = none ∧ target - v.length < fuel)
    (hbehind : Behind w → behind ∨ AtEnd g v w) :
    Ends (extendLoop g target fuel w)
      (fun _ w' => Consistent g start (v ++ List.replicate (target - v.length) 0) w' ∧
        w'.file.pos = target ∧ AtEnd g (v ++ List.replicate (target - v.length) 0) w')
      (Reported g start behind) := by
  induction fuel generalizing v w with
  | zero => omega
  | succ fuel ih =>
    rw [extendLoop]
    refine ((ensure_page_ends h hnew).mono (fun _ _ h => h) fun _ h =>
      h.mono fun hb => (hbehind hb.1).resolve_right hb.2).bind ?_
    rintro - w₁ ⟨h₁, hunmoved, -, -, p, hp, hoffset⟩
    rw [Attempt.get_bind_run]
    obtain ⟨n, hn, hon⟩ := h₁.page p hp
    have hpos₁ : w₁.file.pos = v.length := hunmoved.pos.trans hpos
    have hin := hon.offset_le hpos₁.le
    have hlen : (target - v.length) % 2 ^ 32 = target - v.length := Nat.mod_eq_of_lt (by omega)
    obtain ⟨p', hset, hshows, hoff, hsize, hbuf⟩ :=
      page_memset0_eq (ε := Empty) hon.shows_page (target - v.length) hin
    rw [hon.chunk_size] at hset hshows hoff
    simp only [hp, hpos₁, hlen]
    rw [Attempt.lift_bind_run hset, Attempt.modify_bind_run, Attempt.get_bind_run]
    generalize hr : min (g.chunk_size - p.offset) (target - v.length) = r at hshows hoff
    have hroom : r ≤ g.chunk_size - p.offset := hr ▸ min_le_left _ _
    have hleft : r ≤ target - v.length := hr ▸ min_le_right _ _
    have hpart (h : r < target - v.length) : r = g.chunk_size - p.offset :=
      eq_of_min_lt ((min_comm _ _).trans hr) h
    clear hr hlen
    have hzeros : (List.replicate r (0 : UInt8)).length = r := List.length_replicate
    have hwrap : (w₁.file.pos + r) % 2 ^ 64 = v.length + r := by
      have hlt := lt_of_lt_bound hbound
      rw [hpos₁]
      exact Nat.mod_eq_of_lt (by omega)
    have hstart := hon.pos
    rw [hpos₁] at hstart
    have hfits := hon.shows_page.offset
    rw [hon.chunk_size] at hfits
    generalize hw₂ : ({ w₁ with
      file.page := some p', file.pos := (w₁.file.pos + r) % 2 ^ 64 } : World) = w₂
    have hpos₂ : w₂.file.pos = v.length + r := hw₂ ▸ hwrap
    have hlength₂ : w₂.file.length = w.file.length := by rw [← hw₂, ← hunmoved.length]
    have hn₂ : w₂.file.n = n := by rw [← hw₂]; exact hn
    have hpage₂ : w₂.file.page ≠ none := by simp [← hw₂]
    have hlonger : (v ++ List.replicate r (0 : UInt8)).length = v.length + r := by simp
    obtain ⟨h₂, hdirty₂⟩ : Consistent g start (v ++ List.replicate r 0) w₂ ∧ w₂.unsaved = some n := by
      have hpositive := g.positive
      rw [← put_length, ← hpos₁]
      refine h₁.write hp hn hpos₁.le hshows hsize (by rw [hzeros]; exact hoff) hbuf
        (by omega) (by rw [hzeros]; omega) ?_ (by rw [hzeros, hpos₂, hpos₁]) ?_ ?_ ?_ ?_ ?_
      all_goals rw [← hw₂]
    split_ifs with hall
    · have hr : r = target - v.length := Nat.eq_sub_of_add_eq' (hpos₂.symm.trans hall)
      have hend : AtEnd g (v ++ List.replicate r 0) w₂ := by
        rw [AtEnd, if_neg hpage₂, hn₂, Int.toNat_natCast, pages_le_iff g.positive, hlonger,
          Nat.succ_mul]
        omega
      rw [hr] at h₂ hend
      exact .intro rfl ⟨h₂, hall, hend⟩
    · have hmore : v.length + r < target :=
        lt_of_le_of_ne (Nat.add_le_of_le_sub' htarget.le hleft) (hpos₂ ▸ hall)
      have hwhole := hpart (Nat.lt_sub_of_add_lt (Nat.add_comm v.length r ▸ hmore))
      -- the page is full, and the next one is behind all that there is
      have hfull : v.length + r = (n + 1) * g.chunk_size := by
        rw [Nat.succ_mul, hstart, hwhole, Nat.add_assoc, Nat.add_sub_cancel' hfits]
      refine (flush_pageFuel_ends h₂ (dirty_of_unsaved hdirty₂) 1).bind ?_
      rintro - w₃ ⟨h₃, hpage₃, hpos₃, hlength₃, -⟩
      have hend₃ : AtEnd g (v ++ List.replicate r 0) w₃ :=
        .of_le hpage₃ (by rw [hpos₃, hpos₂, hfull]) (by rw [hlonger, hfull])
      have hpos' : w₃.file.pos = (v ++ List.replicate r (0 : UInt8)).length := by
        rw [hpos₃, hpos₂, hlonger]
      have hle' : w₃.file.length ≤ v.length + r := by
        rw [hlength₃, hlength₂]
        exact hle.trans (Nat.le_add_right _ _)
      have hrest : target - (v.length + r) ≤ target - v.length :=
        Nat.sub_le_sub_left (Nat.le_add_right _ _) _
      refine (ih h₃ hpos' (hlonger ▸ hle') (fun _ => ?_) (hlonger ▸ hmore)
        (hlonger ▸ hrest.trans_lt hgap) (Or.inr ⟨hpage₃, ?_⟩) fun _ => Or.inr hend₃).mono ?_
        fun _ h => h
      · rw [hpos', hlonger, hfull, Nat.mul_div_cancel _ g.positive,
          pages_le_iff g.positive, pages_le_iff g.positive, ← hfull]
        exact iff_of_true hle' le_rfl
      · rw [hlonger]
        rcases hfuel with hfuel | ⟨hnone, hfuel⟩
        · exact hrest.trans_lt (Nat.lt_of_succ_lt_succ hfuel)
        · have hsome : 0 < r := hwhole ▸ Nat.sub_pos_of_lt (hoffset hnone)
          rw [Nat.sub_add_eq]
          exact (Nat.sub_lt (Nat.sub_pos_of_lt htarget) hsome).trans_le (Nat.le_of_lt_succ hfuel)
      · rintro - w' ⟨hconsistent, hpos', hend'⟩
        rw [hlonger, List.append_assoc, ← List.replicate_add, Nat.sub_add_eq,
          Nat.add_sub_cancel' hleft] at hconsistent hend'
        exact ⟨hconsistent, hpos', hend'⟩

/-- A file without changes since its document was stored. -/
def Settled (w : World) : Prop :=
  w.file.is_dirty = false → w.saved = some w.file.length ∧ w.unsaved = none

/-- The number of the page is the one of the unsaved changes. -/
theorem n_eq_of_unsaved {m : Nat} (h : Consistent g start v w) (hunsaved : w.unsaved = some m) :
    w.file.n = m := by
  have hdirty := dirty_of_unsaved hunsaved
  rw [World.unsaved, if_pos hdirty] at hunsaved
  cases hp : w.file.page with
  | none => simp [hp] at hdirty
  | some p =>
    obtain ⟨n, hn, -⟩ := h.page p hp
    rw [hn] at hunsaved ⊢
    simpa using hunsaved

/-- The file at another position. -/
def World.moved (w : World) (offset n : Nat) : World := { w with file.pos := offset, file.n := n }

/-- A file without a page can be at any position. -/
theorem Consistent.moved_none (h : Consistent g start v w) (hpage : w.file.page = none) {offset : Nat}
    (hoffset : offset < 2 ^ 31 * g.chunk_size) (n : Nat) : Consistent g start v (w.moved offset n) := by
  obtain ⟨hstored, hcursor⟩ := h.elim_none hpage
  exact .intro_none (w := w.moved offset n) hpage hstored hcursor hoffset h.length h.requests

/-- A file that moves on its page. -/
theorem Consistent.moved_page {n pos : Nat} {p p' : Page} (h : Consistent g start v w)
    (hp : w.file.page = some p) (hn : w.file.n = n) (hon : OnPage g.chunk_size v n pos p')
    (hbuf : p'.buf = p.buf) (hpos : pos < 2 ^ 31 * g.chunk_size)
    (hpage : w'.file.page = some p') (hpos' : w'.file.pos = pos) (hn' : w'.file.n = w.file.n)
    (hcursor : w'.file.cursor = w.file.cursor)
    (hrange : w'.file.cursor_range = w.file.cursor_range) (hchunks : w'.chunks = w.chunks)
    (hrequests : w'.requests = w.requests) :
    Consistent g start v w' ∧ w'.unsaved = w.unsaved := by
  have hunsaved : w'.unsaved = w.unsaved := by
    have hdirty : w'.file.page.any page_is_dirty = w.file.page.any page_is_dirty := by
      rw [hpage, hp]
      simp [page_is_dirty, hbuf]
    rw [World.unsaved, World.unsaved, hdirty, hn']
  refine ⟨⟨?_, fun q hq => ?_, fun c hc => ?_, hpos' ▸ hpos, h.length, hrequests ▸ h.requests⟩,
    hunsaved⟩
  · rw [hunsaved, hchunks]
    exact h.stored
  · rw [hpage] at hq
    cases hq
    exact ⟨n, hn'.trans hn, hpos' ▸ hon⟩
  · have hahead := h.cursor c (hcursor ▸ hc)
    rw [hp] at hahead
    rw [hchunks, hrange, hpage, hn']
    exact hahead

/-- A file that stays on its page, if it has one. -/
theorem Consistent.moved_same (h : Consistent g start v w) {offset : Nat}
    (hoffset : offset < 2 ^ 31 * g.chunk_size) (hn : w.file.n = (offset / g.chunk_size : Nat))
    (hpage : w'.file.page = w.file.page.map (page_seek · (offset % g.chunk_size)))
    (hpos : w'.file.pos = offset) (hn' : w'.file.n = w.file.n)
    (hcursor : w'.file.cursor = w.file.cursor)
    (hrange : w'.file.cursor_range = w.file.cursor_range) (hchunks : w'.chunks = w.chunks)
    (hrequests : w'.requests = w.requests) :
    Consistent g start v w' ∧ w'.unsaved = w.unsaved := by
  cases hp : w.file.page with
  | none =>
    rw [hp, Option.map_none] at hpage
    obtain ⟨hstored, hahead⟩ := h.elim_none hp
    rw [unsaved_eq_none hp, unsaved_eq_none hpage]
    refine ⟨.intro_none hpage (hchunks ▸ hstored) (fun c hc => ?_) (hpos ▸ hoffset) h.length
      (hrequests ▸ h.requests), rfl⟩
    rw [hchunks, hrange]
    exact hahead c (hcursor ▸ hc)
  | some p =>
    rw [hp, Option.map_some] at hpage
    obtain ⟨n, hn'', hon⟩ := h.page p hp
    obtain rfl : n = offset / g.chunk_size := by
      rw [hn''] at hn
      exact_mod_cast hn
    have hmod := Nat.mod_lt offset g.positive
    have hsmall := g.small
    have hseek : (page_seek p (offset % g.chunk_size)).offset = offset % g.chunk_size :=
      Nat.mod_eq_of_lt (by omega)
    refine h.moved_page hp hn'' ⟨hon.shows_page.seek (by rw [hon.chunk_size]; omega),
      hon.chunk_size, ?_⟩ rfl hoffset hpage hpos hn' hcursor hrange hchunks hrequests
    rw [hseek, Nat.div_add_mod']

/-- Seeking, whatever becomes of the page. -/
theorem seek_to_ends (h : Consistent g start v w) (hsettled : Settled w) {offset : Nat}
    (hoffset : offset < 2 ^ 31 * g.chunk_size) :
    Ends (seek_to g offset w)
      (fun r w' => r = true ∧ Consistent g start v w' ∧ Settled w' ∧ w'.file.pos = offset ∧
        w'.file.length = w.file.length ∧ (w.file.is_dirty = false → w'.file.is_dirty = false) ∧
        w'.unsaved = w.unsaved.filter (· = offset / g.chunk_size) ∧
        (w.unsaved.filter (· = offset / g.chunk_size) = w.unsaved → Behind w' → Behind w))
      (Reported g start behind) := by
  rw [seek_to, Attempt.get_bind_run, if_neg (by omega)]
  simp only [Int.toNat_natCast, toInt32_div hoffset]
  by_cases hother : ((offset / g.chunk_size : Nat) : Int) ≠ w.file.n
  · have hunsaved : w.unsaved.filter (· = offset / g.chunk_size) = none := by
      refine Option.filter_eq_none_iff.mpr fun m hm => ?_
      have hnm := n_eq_of_unsaved h hm
      simp only [decide_eq_true_eq]
      rintro rfl
      exact hother hnm.symm
    have hleave : Ends (leave_page g (((offset / g.chunk_size : Nat) : Int) ≠ w.file.n)
        (offset % g.chunk_size) w) (fun _ w' => Consistent g start v w' ∧ w'.file.page = none ∧
          (w'.file.is_dirty = false → w'.saved = some w'.file.length) ∧
          w'.file.length = w.file.length ∧
          (w.file.is_dirty = false → w'.file.is_dirty = false) ∧
          (none = w.unsaved → Behind w' → Behind w)) (Reported g start behind) := by
      rw [leave_page, Attempt.get_bind_run, if_pos (by simpa using hother)]
      split_ifs with hdirty
      · refine (flush_pageFuel_ends h hdirty 1).mono ?_ fun _ h => h
        rintro - w' ⟨h', hpage', -, hlength', hdirty', hsaved', -⟩
        refine ⟨h', hpage', fun _ => ?_, hlength', fun _ => hdirty', fun hnone => ?_⟩
        · rw [hsaved', hlength']
          split_ifs with his_dirty
          · rfl
          · exact (hsettled (by simpa using his_dirty)).1
        · rw [World.unsaved, if_pos hdirty] at hnone
          cases hnone
      · have hclean : w.unsaved = none := if_neg hdirty
        have hstored := h.stored
        rw [hclean] at hstored
        refine .intro rfl ⟨.intro_none rfl hstored (fun c hc => ?_) h.pos h.length h.requests, rfl,
          fun hd => (hsettled hd).1, rfl, id, fun _ => id⟩
        obtain ⟨herror, hgte, m, hbatch, hm, -⟩ := h.cursor c hc
        exact ⟨herror, hgte, m, hbatch, hm, by simp⟩
    rw [hunsaved]
    refine hleave.bind ?_
    rintro - w₁ ⟨h₁, hpage₁, hsaved₁, hlength₁, hdirty₁, hbehind₁⟩
    exact .intro rfl ⟨rfl, h₁.moved_none hpage₁ hoffset _,
      fun hd => ⟨hsaved₁ hd, unsaved_eq_none hpage₁⟩, rfl, hlength₁, hdirty₁,
      unsaved_eq_none hpage₁, hbehind₁⟩
  · rw [not_not] at hother
    generalize hw₁ : ({ w with
      file.page := w.file.page.map (page_seek · (offset % g.chunk_size))
      file.pos := offset } : World) = w₁
    obtain ⟨h₁, hunsaved₁⟩ : Consistent g start v w₁ ∧ w₁.unsaved = w.unsaved := by
      refine h.moved_same hoffset hother.symm ?_ ?_ ?_ ?_ ?_ ?_ ?_
      all_goals rw [← hw₁]
    have hfilter : w.unsaved.filter (· = offset / g.chunk_size) = w.unsaved := by
      cases hm : w.unsaved with
      | none => rfl
      | some m =>
        have hnm := n_eq_of_unsaved h hm
        rw [← hother] at hnm
        simp [Int.natCast_inj.mp hnm]
    have hleave : leave_page g (((offset / g.chunk_size : Nat) : Int) ≠ w.file.n)
        (offset % g.chunk_size) w = .ok (some (), { w with
          file.page := w.file.page.map (page_seek · (offset % g.chunk_size)) }) := by
      rw [leave_page, Attempt.get_bind_run, if_neg (by simp [hother])]
      rfl
    have hrun : (do
          leave_page g (((offset / g.chunk_size : Nat) : Int) ≠ w.file.n) (offset % g.chunk_size)
          .modify fun w => { w with file.pos := offset, file.n := (offset / g.chunk_size : Nat) }
          pure true : Attempt World Bool) w = .ok (some true, w₁) := by
      rw [Attempt.bind_run_some hleave, hother, ← hw₁]
      rfl
    rw [hfilter]
    refine .intro hrun ⟨rfl, h₁, ?_⟩
    rw [← hw₁] at hunsaved₁ ⊢
    exact ⟨fun hd => ⟨(hsettled hd).1, hunsaved₁.trans (hsettled hd).2⟩, rfl, rfl, id, hunsaved₁,
      fun _ => id⟩

/-- The position that `delta` and `whence` mean. -/
def target (pos length : Nat) (delta : Int64) : Whence → Int
  | .SEEK_SET => delta.toInt
  | .SEEK_CUR => pos + delta.toInt
  | .SEEK_END => length + delta.toInt

/-- Seeking, which fails in front of the start. -/
theorem seek_ends (h : Consistent g start v w) (hsettled : Settled w)
    {delta : Int64} {whence : Whence}
    (htarget : target w.file.pos w.file.length delta whence < (2 ^ 31 * g.chunk_size : Nat)) :
    Ends (seek g delta whence w)
      (fun r w' => Consistent g start v w' ∧ Settled w' ∧ w'.file.length = w.file.length ∧
        (w.file.is_dirty = false → w'.file.is_dirty = false) ∧
        if 0 ≤ target w.file.pos w.file.length delta whence then
          r = true ∧ w'.file.pos = (target w.file.pos w.file.length delta whence).toNat ∧
          w'.unsaved = w.unsaved.filter
            (· = (target w.file.pos w.file.length delta whence).toNat / g.chunk_size) ∧
          (w.unsaved.filter
            (· = (target w.file.pos w.file.length delta whence).toNat / g.chunk_size) = w.unsaved →
              Behind w' → Behind w)
        else r = false ∧ w' = w) (Reported g start behind) := by
  have hpos := lt_of_lt_bound h.pos
  have hlo := Int64.le_toInt delta
  have hhi := Int64.toInt_lt delta
  have hrun : seek g delta whence w = seek_to g (target w.file.pos w.file.length delta whence) w := by
    have hbound : (2 ^ 31 * g.chunk_size : Nat) < (2 ^ 62 : Int) := by
      have hsmall := g.small
      omega
    rw [seek, Attempt.get_bind_run]
    cases whence with
    | SEEK_SET => rfl
    | SEEK_CUR =>
      have hwrap : ((w.file.pos : Int) + delta.toInt).bmod (2 ^ 64) = w.file.pos + delta.toInt := by
        rw [target] at htarget
        exact Int.bmod_eq_of_le (by omega) (by omega)
      simp only [hwrap, target]
    | SEEK_END =>
      rw [target] at htarget
      simp only [target]
      rw [if_pos (by omega)]
  rw [hrun]
  generalize target w.file.pos w.file.length delta whence = offset at htarget
  split_ifs with hneg
  · obtain ⟨offset, rfl⟩ := Int.eq_ofNat_of_zero_le hneg
    refine (seek_to_ends h hsettled (by exact_mod_cast htarget)).mono ?_ fun _ h => h
    rintro r w' ⟨hr, h', hsettled', hpos', hlength', hdirty', hunsaved', hbehind'⟩
    exact ⟨h', hsettled', hlength', hdirty', hr, by simpa using hpos', by simpa using hunsaved',
      hbehind'⟩
  · rw [seek_to, Attempt.get_bind_run, if_pos (by omega)]
    exact .intro rfl ⟨h, hsettled, rfl, id, rfl, rfl⟩

/-- Loading a page leaves a file settled. -/
theorem Unmoved.settled (h : Unmoved w w') (hunsaved : w'.unsaved = w.unsaved)
    (hsettled : Settled w) : Settled w' := by
  intro hd
  rw [h.saved, h.length, hunsaved]
  exact hsettled (h.is_dirty ▸ hd)

/-- Unsaved changes behind which the position is are those of the last page. -/
theorem Consistent.filter_unsaved (h : Consistent g start v w) (hpos : v.length < w.file.pos) :
    w.unsaved.filter (· = v.length / g.chunk_size) = w.unsaved := by
  cases hm : w.unsaved with
  | none => rfl
  | some m =>
    have hdirty := dirty_of_unsaved hm
    have hnm := n_eq_of_unsaved h hm
    obtain ⟨p, hp⟩ : ∃ p, w.file.page = some p := by
      cases hpage : w.file.page with
      | none => simp [hpage] at hdirty
      | some p => exact ⟨p, rfl⟩
    obtain ⟨n, hn, hon⟩ := h.page p hp
    obtain rfl : n = m := Int.natCast_inj.mp (hn.symm.trans hnm)
    have hoffset := hon.shows_page.offset
    rw [hon.chunk_size] at hoffset
    obtain ⟨d, k, -, -, -, hbound⟩ := h.stored
    have hin := (lt_pages_iff g.positive).mp (hbound n hm).1
    have hstart := hon.pos
    have hlast : v.length / g.chunk_size = n :=
      Nat.div_eq_of_lt_le hin.le (by rw [Nat.succ_mul]; omega)
    simp [hlast]

/-- Extending a file to its position. -/
theorem extend_ends (h : Consistent g start v w) (hsettled : Settled w)
    (hlength : w.file.length = v.length) (hpos : v.length < w.file.pos)
    (hgap : w.file.pos - v.length < 2 ^ 32) (hbehind : Behind w → behind) :
    Ends (extend g w)
      (fun _ w' => Consistent g start (v ++ List.replicate (w.file.pos - v.length) 0) w' ∧
        w'.file.pos = w.file.pos ∧ w'.file.length = w.file.pos ∧
        AtEnd g (v ++ List.replicate (w.file.pos - v.length) 0) w') (Reported g start behind) := by
  have hend : target w.file.pos w.file.length 0 .SEEK_END = v.length := by
    rw [target, hlength]
    simp
  rw [extend, Attempt.get_bind_run, if_neg (by omega)]
  refine Ends.bind (seek_ends h hsettled (by rw [hend]; exact_mod_cast h.length)) ?_
  rintro sought w₁ ⟨h₁, -, hlength₁, -, hsought⟩
  rw [hend, if_pos (Int.natCast_nonneg _)] at hsought
  obtain ⟨rfl, hpos₁, -, hbehind₁⟩ := hsought
  rw [Int.toNat_natCast] at hpos₁ hbehind₁
  have hbehind₁ := hbehind₁ (h.filter_unsaved hpos)
  rw [if_pos rfl, hlength]
  refine (extendLoop_ends h₁ hpos₁ (by omega) (fun _ => by rw [hlength₁, hlength]) hpos hgap h.pos
    (Or.inl (by omega)) fun hb => Or.inl (hbehind (hbehind₁ hb))).bind ?_
  rintro - w₂ ⟨h₂, hpos₂, hend₂⟩
  exact .intro rfl ⟨h₂.congr h₂.requests rfl rfl rfl rfl rfl rfl, hpos₂, rfl, hend₂⟩

/-- The content after a write, with zeros between its end and the position. -/
def written (v : Bytes) (pos : Nat) (src : Bytes) : Bytes :=
  put (v ++ List.replicate (pos - v.length) 0) pos src

/-- A write of a buffer. -/
theorem writev_ends {src : Bytes} (h : Consistent g start v w) (hsettled : Settled w)
    (hlength : w.file.length = v.length) (hsrc : src.length < 2 ^ 32) (hne : src ≠ [])
    (hgap : w.file.pos - v.length < 2 ^ 32)
    (hbound : w.file.pos + src.length < 2 ^ 31 * g.chunk_size) (hbehind : Behind w → behind) :
    Ends (writev g src w)
      (fun n w' => n = src.length ∧ Consistent g start (written v w.file.pos src) w' ∧ Settled w' ∧
        w'.file.pos = w.file.pos + src.length ∧
        w'.file.length = (written v w.file.pos src).length ∧
        w'.unsaved = some ((w.file.pos + src.length - 1) / g.chunk_size))
      (Reported g start behind) := by
  have hcount := List.length_pos_iff.mpr hne
  rw [writev]
  refine ((ensure_page_ends h fun _ => by rw [hlength]).mono (fun _ _ h => h) fun _ h =>
    h.mono fun hb => hbehind hb.1).bind ?_
  rintro - w₁ ⟨h₁, hunmoved, hunsaved₁, -⟩
  have hpos₁ := hunmoved.pos
  have hlength₁ := hunmoved.length.trans hlength
  rw [Attempt.get_bind_run]
  refine (Ends.when (Q := fun _ w₂ =>
    Consistent g start (v ++ List.replicate (w.file.pos - v.length) 0) w₂ ∧
      w₂.file.pos = w.file.pos ∧ w₂.file.length = max v.length w.file.pos ∧
      (Behind w₂ → behind ∨ AtEnd g (v ++ List.replicate (w.file.pos - v.length) 0) w₂))
    (fun hpast => ?_) fun hin => ?_).bind ?_
  · refine (extend_ends h₁ (hunmoved.settled hunsaved₁ hsettled) hlength₁ (by omega)
      (by omega) fun hb => hbehind (hunmoved.behind hb)).mono ?_ fun _ h => h
    rintro - w₂ ⟨h₂, hpos₂, hlength₂, hend₂⟩
    rw [hpos₁] at h₂ hend₂
    exact ⟨h₂, by omega, by omega, fun _ => Or.inr hend₂⟩
  · have hnone : w.file.pos - v.length = 0 := by omega
    rw [hnone, List.replicate_zero, List.append_nil]
    exact ⟨h₁, hpos₁, by omega, fun hb => Or.inl (hbehind (hunmoved.behind hb))⟩
  · rintro - w₂ ⟨h₂, hpos₂, hlength₂, hbehind₂⟩
    have hfilled : (v ++ List.replicate (w.file.pos - v.length) (0 : UInt8)).length =
        max v.length w.file.pos := by
      rw [List.length_append, List.length_replicate]
      omega
    refine (writevLoop_ends h₂ (by omega) (by omega) hsrc hcount (by omega)
      (Or.inl (by omega)) hbehind₂).bind ?_
    rintro - w₃ ⟨h₃, hpos₃, hlength₃, hunsaved₃⟩
    rw [hpos₂, List.drop_zero] at h₃
    have hwhole := length_put_of_le (t := src)
      (s := v ++ List.replicate (w.file.pos - v.length) (0 : UInt8)) (i := w.file.pos) (by omega)
    refine .intro rfl ⟨Nat.mod_eq_of_lt hsrc, h₃.congr h₃.requests rfl rfl rfl rfl rfl rfl,
      by simp [Settled],
      by simp only [hpos₃, hpos₂]; omega, ?_, ?_⟩
    · rw [written, hwhole]
      simp only [hlength₃]
      omega
    · rw [hpos₂] at hunsaved₃
      exact hunsaved₃

/-! ## Reading -/

/-- The file after `k` bytes were read from its page. -/
def World.advanced (w : World) (p : Page) (k : Nat) : World := { w with
  file.page := some { p with offset := p.offset + k }
  file.pos := w.file.pos + k }

/-- A read from the page returns the next bytes, and fewer than asked for only at the end of
the page or of the content. -/
theorem Consistent.page_read {n : Nat} {p : Page} (len : Nat) (h : Consistent g start v w)
    (hp : w.file.page = some p) (hn : w.file.n = n) (hpos : w.file.pos < v.length) :
    ∃ k, (page_read p len : Outcome Empty _) =
        .ok ((v.drop w.file.pos).take k, { p with offset := p.offset + k }) ∧
      k ≤ len ∧ w.file.pos + k ≤ v.length ∧
      (k = len ∨ w.file.pos + k = v.length ∨ w.file.pos + k = (n + 1) * g.chunk_size) ∧
      (p.offset < g.chunk_size → 0 < len → 0 < k) ∧
      Consistent g start v (w.advanced p k) ∧ (w.advanced p k).unsaved = w.unsaved := by
  obtain ⟨n', hn', hon⟩ := h.page p hp
  obtain rfl : n' = n := by
    rw [hn'] at hn
    exact_mod_cast hn
  have hin := hon.offset_le hpos.le
  have hstart := hon.pos
  have hfits := hon.shows_page.offset
  rw [hon.chunk_size] at hfits
  have hlength := h.length
  have hsize := length_page g.chunk_size n' v
  have hread := page_read_eq (ε := Empty) hon.shows_page len hin
  generalize hk : min len ((Paged.page g.chunk_size n' v).length - p.offset) = k at hread
  have hsame : ((Paged.page g.chunk_size n' v).drop p.offset).take len =
      (v.drop w.file.pos).take k := by
    rw [Paged.page, List.drop_take, List.drop_drop, List.take_take, ← hstart]
    rcases Nat.le_total (min len (g.chunk_size - p.offset)) (v.length - w.file.pos) with hle | hle
    · congr 1
      omega
    · rw [List.take_of_length_le (by rw [List.length_drop]; omega),
        List.take_of_length_le (by rw [List.length_drop]; omega)]
  have hoffset : p.offset + k ≤ p.chunk_size := by
    rw [hon.chunk_size]
    omega
  have hon' : OnPage g.chunk_size v n' (w.file.pos + k) { p with offset := p.offset + k } :=
    ⟨hon.shows_page.advance hoffset, hon.chunk_size, by simp only [hstart, Nat.add_assoc]⟩
  refine ⟨k, hsame ▸ hread, by omega, by omega, ?_, by omega,
    h.moved_page hp hn' hon' rfl (by omega) rfl rfl rfl rfl rfl rfl rfl⟩
  rw [Nat.succ_mul]
  omega

/-- A read into the rest of the buffer.  It does not leave a page with unsaved changes. -/
theorem readvLoop_ends {iov_len fuel : Nat} {dst : Bytes} (h : Consistent g start v w)
    (hpage : w.file.page ≠ none) (hlength : w.file.length = v.length)
    (hpos : w.file.pos < v.length) (hlen : iov_len < 2 ^ 32) (hdst : dst.length ≤ iov_len)
    (hunsaved : ∀ m, w.unsaved = some m →
      min (w.file.pos + (iov_len - dst.length)) v.length ≤ (m + 1) * g.chunk_size)
    (hfuel : iov_len - dst.length + 1 < fuel ∨ iov_len - dst.length < fuel ∧
      ∀ p, w.file.page = some p → p.offset < g.chunk_size) (hbehind : Behind w → behind) :
    Ends (readvLoop g iov_len iov_len fuel dst w)
      (fun data w' => data = dst ++ (v.drop w.file.pos).take (iov_len - dst.length) ∧
        Consistent g start v w' ∧ w'.file.length = w.file.length ∧
        w'.file.pos + dst.length = w.file.pos + data.length ∧ w'.unsaved = w.unsaved ∧
        w'.file.is_dirty = w.file.is_dirty ∧ w'.saved = w.saved ∧ (Behind w' → behind))
      (Reported g start behind) := by
  induction fuel generalizing w dst with
  | zero => omega
  | succ fuel ih =>
    obtain ⟨p, hp⟩ := Option.ne_none_iff_exists'.mp hpage
    obtain ⟨n, hn, -⟩ := h.page p hp
    have hwrap : (iov_len - dst.length) % 2 ^ 32 = iov_len - dst.length :=
      Nat.mod_eq_of_lt (by omega)
    obtain ⟨k, hread, hle, hin, hwhy, hroom, h₂, hunsaved₂⟩ :=
      h.page_read (iov_len - dst.length) hp hn hpos
    have hdata : ((v.drop w.file.pos).take k).length = k := by
      rw [List.length_take, List.length_drop]
      omega
    have hlonger : (dst ++ (v.drop w.file.pos).take k).length = dst.length + k := by
      rw [List.length_append, hdata]
    have hpos₂ : (w.file.pos + k) % 2 ^ 64 = w.file.pos + k := by
      have hlt := lt_of_lt_bound h.length
      exact Nat.mod_eq_of_lt (by omega)
    rw [readvLoop, Attempt.get_bind_run]
    simp only [hp, hwrap]
    rw [Attempt.lift_bind_run hread, Attempt.modify_bind_run, Attempt.get_bind_run]
    simp only [hdata, hpos₂, hlonger]
    rw [Nat.mod_eq_of_lt (show dst.length + k < 2 ^ 32 by omega)]
    change Ends ((if dst.length + k = iov_len then pure (dst ++ (v.drop w.file.pos).take k)
      else if w.file.length = w.file.pos + k then pure (dst ++ (v.drop w.file.pos).take k)
      else if iov_len ≤ dst.length + k then pure (dst ++ (v.drop w.file.pos).take k)
      else do
        refresh_page g
        readvLoop g iov_len iov_len fuel (dst ++ (v.drop w.file.pos).take k) :
          Attempt World Bytes) (w.advanced p k)) _ _
    generalize hw₂ : w.advanced p k = w₂ at h₂ hunsaved₂ ⊢
    have hfile : w₂.file.length = w.file.length ∧ w₂.file.pos = w.file.pos + k ∧
        w₂.file.is_dirty = w.file.is_dirty ∧ w₂.saved = w.saved ∧ (Behind w₂ → behind) :=
      hw₂ ▸ ⟨rfl, rfl, rfl, rfl, hbehind⟩
    obtain ⟨hlength₂, hpos', hdirty₂, hsaved₂, hbehind₂⟩ := hfile
    split_ifs with hfull hend henough
    · -- the buffer is full
      have hcount : k = iov_len - dst.length := by omega
      exact .intro rfl ⟨by rw [hcount], h₂, hlength₂, by omega, hunsaved₂, hdirty₂, hsaved₂,
        hbehind₂⟩
    · -- the content ends
      have htake : (v.drop w.file.pos).take (iov_len - dst.length) = (v.drop w.file.pos).take k := by
        rw [List.take_of_length_le (by rw [List.length_drop]; omega),
          List.take_of_length_le (by rw [List.length_drop]; omega)]
      exact .intro rfl ⟨by rw [htake], h₂, hlength₂, by omega, hunsaved₂, hdirty₂, hsaved₂,
        hbehind₂⟩
    · omega
    · -- the page ends, and the rest is on the next ones
      have hclean : w₂.unsaved = none := by
        rw [hunsaved₂]
        refine Option.eq_none_iff_forall_ne_some.mpr fun m hm => ?_
        have hnm := n_eq_of_unsaved h hm
        rw [hn] at hnm
        obtain rfl := Int.natCast_inj.mp hnm
        have hstop := hunsaved n hm
        omega
      refine ((refresh_page_ends h₂ hclean (by rw [hlength₂, hlength])).mono (fun _ _ h => h)
        fun _ h => h.mono fun hb => hbehind₂ hb.1).bind ?_
      rintro - w₃ ⟨h₃, hunmoved, p₃, hp₃, hbuf₃, hoffset₃⟩
      have hpos₃ : w₃.file.pos = w.file.pos + k := hunmoved.pos.trans hpos'
      have hclean₃ : w₃.unsaved = none := by
        rw [World.unsaved, hp₃]
        simp [page_is_dirty, hbuf₃]
      refine (ih h₃ (by simp [hp₃]) (by rw [hunmoved.length, hlength₂, hlength]) (by omega)
        (by omega) (by simp [hclean₃]) (Or.inr ⟨?_, ?_⟩)
        fun hb => hbehind₂ (hunmoved.behind hb)).mono ?_ fun _ h => h
      · rcases hfuel with hfuel | ⟨hfuel, hoffset⟩
        · omega
        · have hsome := hroom (hoffset p hp) (by omega)
          omega
      · intro q hq
        rw [hp₃] at hq
        cases hq
        exact hoffset₃
      · rintro data w' ⟨hdata', h', hlength', hpos'', hunsaved', hdirty', hsaved', hbehind'⟩
        have hrest : (v.drop w.file.pos).take (iov_len - dst.length) =
            (v.drop w.file.pos).take k ++
              (v.drop (w.file.pos + k)).take (iov_len - (dst.length + k)) := by
          have hsplit : iov_len - dst.length = k + (iov_len - (dst.length + k)) := by omega
          rw [hsplit, List.take_add, List.drop_drop]
        rw [hlonger, hpos₃, List.append_assoc, ← hrest] at hdata'
        rw [hlonger] at hpos''
        refine ⟨hdata', h', hlength'.trans (hunmoved.length.trans hlength₂), by omega, ?_, ?_, ?_,
          hbehind'⟩
        · rw [hunsaved', hclean₃, ← hclean, hunsaved₂]
        · rw [hdirty', hunmoved.is_dirty, hdirty₂]
        · rw [hsaved', hunmoved.saved, hsaved₂]

/-- Reading from the position on, possibly into no buffer at all. -/
theorem readv_ends {iov_len : Nat} (h : Consistent g start v w) (hsettled : Settled w)
    (hlength : w.file.length = v.length) (hlen : iov_len < 2 ^ 32)
    (hunsaved : ∀ m, w.unsaved = some m →
      min (w.file.pos + iov_len) v.length ≤ (m + 1) * g.chunk_size) (hbehind : Behind w → behind) :
    Ends (readv g iov_len iov_len w)
      (fun data w' => data = (v.drop w.file.pos).take iov_len ∧ Consistent g start v w' ∧ Settled w' ∧
        w'.file.length = w.file.length ∧ w'.file.pos = w.file.pos + data.length ∧
        w'.unsaved = w.unsaved ∧ w'.file.is_dirty = w.file.is_dirty ∧ (Behind w' → behind))
      (Reported g start behind) := by
  rw [readv, Attempt.get_bind_run]
  split_ifs with hover
  · refine .intro rfl ⟨?_, h, hsettled, rfl, rfl, rfl, rfl, hbehind⟩
    rw [List.drop_eq_nil_of_le (by omega), List.take_nil]
  · refine ((ensure_page_ends h fun _ => by rw [hlength]).mono (fun _ _ h => h) fun _ h =>
      h.mono fun hb => hbehind hb.1).bind ?_
    rintro - w₁ ⟨h₁, hunmoved, hunsaved₁, -, p, hp, -⟩
    have hpos₁ : w₁.file.pos < v.length := by
      rw [hunmoved.pos]
      omega
    refine (readvLoop_ends h₁ (by simp [hp]) (hunmoved.length.trans hlength) hpos₁ hlen
      (Nat.zero_le _) ?_ (Or.inl (by simp)) fun hb => hbehind (hunmoved.behind hb)).mono ?_
      fun _ h => h
    · rw [hunsaved₁, hunmoved.pos]
      simpa using hunsaved
    · rintro data w' ⟨hdata, h', hlength', hpos', hunsaved', hdirty', hsaved', hbehind'⟩
      rw [hunmoved.pos] at hdata hpos'
      refine ⟨by simpa using hdata, h', fun hd => ?_, hlength'.trans hunmoved.length,
        by simpa using hpos', hunsaved'.trans hunsaved₁, hdirty'.trans hunmoved.is_dirty, hbehind'⟩
      rw [hsaved', hunmoved.saved, hlength', hunmoved.length, hunsaved', hunsaved₁]
      exact hsettled (by rw [← hd, hdirty', hunmoved.is_dirty])

/-! ## Saving -/

/-- Saving a file stores all of its content. -/
theorem save_ends (h : Consistent g start v w) (hsettled : Settled w) :
    Ends (save g w)
      (fun _ w' => Consistent g start v w' ∧ Settled w' ∧ w'.file.is_dirty = false ∧
        w'.file.length = w.file.length ∧ w'.file.pos = w.file.pos ∧ w'.unsaved = none)
      (Reported g start behind) := by
  by_cases hpage : w.file.page.any page_is_dirty = true
  · -- unsaved changes make the file dirty
    have hdirty : w.file.is_dirty = true := by
      by_contra hclean
      have hnone := (hsettled (by simpa using hclean)).2
      rw [World.unsaved, if_pos hpage] at hnone
      cases hnone
    rw [save, saveFuel, Attempt.get_bind_run, if_pos hdirty]
    refine Ends.bind (Ends.when (fun _ => flush_pageFuel_ends h hpage 0)
      fun hclean => absurd hpage hclean) ?_
    rintro - w₁ ⟨h₁, hpage₁, hpos₁, hlength₁, -⟩
    refine .after ((collection_update_ends _ h₁.requests (by intro; rfl)).mono ?_ fun _ h => h)
    rintro - _ rfl
    exact ⟨h₁.congr (h₁.requests.trans (Nat.le_succ _)) rfl rfl rfl rfl rfl rfl, fun _ => ⟨rfl, unsaved_eq_none hpage₁⟩, rfl, hlength₁,
      hpos₁, unsaved_eq_none hpage₁⟩
  · have hunsaved : w.unsaved = none := if_neg hpage
    refine (saveFuel_ends h.requests (by simpa using hpage) 2).mono ?_ fun _ h => h
    rintro - _ ⟨requests, hstart, rfl⟩
    refine ⟨h.congr hstart rfl rfl rfl rfl rfl rfl, fun _ => ⟨?_, hunsaved⟩, rfl, rfl, rfl, hunsaved⟩
    simp only [World.stored]
    split_ifs with hdirty
    · rfl
    · exact (hsettled (by simpa using hdirty)).1

/-- What is stored then. -/
theorem Consistent.flatten (h : Consistent g start v w) (hunsaved : w.unsaved = none) :
    (w.chunks.map Chunk.data).flatten = v := by
  have hstored := h.stored
  rw [hunsaved] at hstored
  obtain ⟨-, hchunks⟩ := hstored.eq_numbered
  rw [hchunks, numbered, List.map_map, ← List.range_eq_range']
  exact pages_flatten g.positive v

end

end Vklib.GridFS
