import Vklib.Requests.Lines
import Mathlib.Data.List.Induction

/-!
# What becomes of an HTTP response

`HttpResponse` is a response as a server sends it: a status line, header lines,
an empty line and a body.  `Faithful` says that a table describes it.

`request_get` does not look for the empty line, which `strtok` skips like every
other line break.  It tells the body from the headers by `get_header`, and it
goes on to collect headers in the body.  `Parses` is the exact condition under
which the table is faithful all the same (`parseBuffer_faithful_iff`).
-/

namespace Vklib.Requests

open Vklib.Lua

/-- A text without line break and NUL. -/
def OneLine (s : Bytes) : Prop := NulFree s ∧ ∀ c ∈ s, isBreak c = false

instance (s : Bytes) : Decidable (OneLine s) := inferInstanceAs (Decidable (_ ∧ _))

/-- A response.  Names have no colon and values no leading blank. -/
structure HttpResponse where
  status : Bytes
  fields : List (Bytes × Bytes)
  body : Bytes
  status_line : IsLine status
  names : ∀ f ∈ fields, OneLine f.1 ∧ 58 ∉ f.1
  values : ∀ f ∈ fields, OneLine f.2 ∧ f.2.head?.any isBlank = false
  body_text : NulFree body

/-- A header line. -/
def fieldLine (f : Bytes × Bytes) : Bytes := f.1 ++ 58 :: 32 :: f.2

namespace HttpResponse

/-- The header lines. -/
def lines (r : HttpResponse) : List Bytes := r.fields.map fieldLine

/-- The bytes that the server sends. -/
def text (r : HttpResponse) : Bytes :=
  withBreak r.status ++ (render r.lines ++ (13 :: 10 :: r.body))

end HttpResponse

/-- The name of a field as a key of the table. -/
def fieldKey (f : Bytes × Bytes) : Bytes := f.1.map tolower

/-- The table describes the response. -/
structure Faithful (r : HttpResponse) (t : Response) : Prop where
  code : t.code = r.status
  headers : ∀ f ∈ r.fields, t.headers.get (.str (fieldKey f)) = .str f.2
  only : ∀ k, t.headers.get k ≠ .nil → ∃ f ∈ r.fields, k = .str (fieldKey f)
  body : t.body = r.body

/-- What `request_get` takes for the lines of the body: those of the body and of
what lies behind it in the buffer, up to the first NUL. -/
def laterLines (r : HttpResponse) (junk : Bytes) : List Bytes :=
  pieces isBreak (r.body ++ cString junk)

/-- The last value of a key in a list of entries. -/
def lastValue (entries : List (Bytes × Bytes)) (key : Bytes) : Option Bytes :=
  entries.reverse.lookup key

/-- The condition under which the response is parsed faithfully, with `junk`
behind it in the buffer. -/
structure Parses (r : HttpResponse) (junk : Bytes) : Prop where
  /-- A NUL ends the text. -/
  nul : 0 ∈ junk
  /-- No header line has a brace, and none starts with a blank. -/
  accepted : ∀ f ∈ r.fields, hasBrace f.1 = false ∧ hasBrace f.2 = false ∧
    f.1.head?.any isBlank = false
  /-- Names that differ only in case have the same value. -/
  consistent : ∀ f ∈ r.fields, ∀ g ∈ r.fields, fieldKey f = fieldKey g → f.2 = g.2
  /-- A later line that is taken for a header has the name of a field. -/
  known : ∀ e ∈ (laterLines r junk).filterMap headerEntry, ∃ f ∈ r.fields, e.1 = fieldKey f
  /-- The last of them with a name has the value of the field. -/
  last : ∀ f ∈ r.fields, ∀ v,
    lastValue ((laterLines r junk).filterMap headerEntry) (fieldKey f) = some v → v = f.2
  /-- Without body all later lines are taken for headers.  Otherwise the body is
  nonempty lines, each with one line break, the first of them is not taken for a
  header, and behind the body there are line breaks only. -/
  body : (r.body = [] ∧ ∀ line ∈ laterLines r junk, isHeader line = true) ∨
    (r.body = render (laterLines r junk) ∧
      ∃ line, (laterLines r junk).head? = some line ∧ isHeader line = false)
  /-- There are at most `HEADERS` entries, and the texts are small enough. -/
  fit : Fit (r.lines ++ laterLines r junk)

/-! ## The lines of a response -/

theorem pieces_withBreak {line : Bytes} (hline : IsLine line) (rest : Bytes) :
    pieces isBreak (withBreak line ++ rest) = line :: pieces isBreak rest := by
  have hsingle : pieces isBreak line = [line] := pieces_eq_singleton hline.1 hline.2.2
  rw [withBreak, List.append_assoc, List.cons_append,
    pieces_append_cons isBreak line _ (by decide), hsingle]
  show line :: pieces isBreak (10 :: rest) = _
  rw [pieces_cons_sep isBreak rest (by decide)]

theorem pieces_render {lines : List Bytes} (hlines : ∀ line ∈ lines, IsLine line) (rest : Bytes) :
    pieces isBreak (render lines ++ rest) = lines ++ pieces isBreak rest := by
  induction lines with
  | nil => rfl
  | cons line lines ih =>
    have hrest := ih fun l hl => hlines l (List.mem_cons_of_mem _ hl)
    rw [render, List.flatMap_cons, List.append_assoc,
      pieces_withBreak (hlines line (List.mem_cons_self ..)), List.cons_append]
    rw [← hrest]
    rfl

theorem nulFree_render {lines : List Bytes} (hlines : ∀ line ∈ lines, IsLine line) :
    NulFree (render lines) := by
  intro hmem
  obtain ⟨line, hline, hnul⟩ := List.mem_flatMap.mp hmem
  rcases List.mem_append.mp hnul with hin | hbreak
  · exact (hlines line hline).2.1 hin
  · simp at hbreak

theorem isLine_fieldLine {r : HttpResponse} {f : Bytes × Bytes} (hf : f ∈ r.fields) :
    IsLine (fieldLine f) := by
  obtain ⟨⟨hname, hnamebreak⟩, -⟩ := r.names f hf
  obtain ⟨⟨hvalue, hvaluebreak⟩, -⟩ := r.values f hf
  refine ⟨by simp [fieldLine], ?_, ?_⟩
  · intro hmem
    simp only [fieldLine, List.mem_append, List.mem_cons] at hmem
    rcases hmem with hin | hcolon | hblank | hin
    · exact hname hin
    · simp at hcolon
    · simp at hblank
    · exact hvalue hin
  · intro c hc
    simp only [fieldLine, List.mem_append, List.mem_cons] at hc
    rcases hc with hin | rfl | rfl | hin
    · exact hnamebreak c hin
    · rfl
    · rfl
    · exact hvaluebreak c hin

theorem isLine_of_mem_lines {r : HttpResponse} {line : Bytes} (h : line ∈ r.lines) :
    IsLine line := by
  obtain ⟨f, hf, rfl⟩ := List.mem_map.mp h
  exact isLine_fieldLine hf

theorem nulFree_text (r : HttpResponse) {j : Bytes} (hj : NulFree j) : NulFree (r.text ++ j) := by
  unfold HttpResponse.text withBreak
  simp only [nulFree_append]
  refine ⟨⟨⟨r.status_line.2.1, by decide⟩, nulFree_render fun l hl => isLine_of_mem_lines hl, ?_⟩, hj⟩
  intro hmem
  simp only [List.mem_cons] at hmem
  rcases hmem with h | h | h
  · simp at h
  · simp at h
  · exact r.body_text h

/-- The lines that `strtok` cuts the buffer into. -/
theorem pieces_text (r : HttpResponse) (j : Bytes) :
    pieces isBreak (r.text ++ j) = r.status :: (r.lines ++ pieces isBreak (r.body ++ j)) := by
  unfold HttpResponse.text
  rw [List.append_assoc, pieces_withBreak r.status_line, List.append_assoc,
    pieces_render fun l hl => isLine_of_mem_lines hl]
  rw [List.cons_append, List.cons_append, pieces_cons_sep isBreak _ (by decide),
    pieces_cons_sep isBreak _ (by decide)]

/-- A header line is split into its name and its value. -/
theorem splitHeader_fieldLine {r : HttpResponse} {f : Bytes × Bytes} (hf : f ∈ r.fields) :
    splitHeader (fieldLine f) =
      if hasBrace f.1 ∨ hasBrace f.2 ∨ f.1.head?.any isBlank then none else some f := by
  have hcolon := (r.names f hf).2
  have hkey : keyPart (fieldLine f) = f.1 := keyPart_append_colon hcolon _
  have hvalue : valuePart (fieldLine f) = f.2 := valuePart_append_colon hcolon _
  rw [splitHeader, hkey, hvalue, (r.values f hf).2]
  simp

/-! ## Lower case -/

theorem tolower_eq_iff {c d : UInt8} (hd : d < 65 ∨ 122 < d) : tolower c = d ↔ c = d := by
  unfold tolower
  by_cases hc : 65 ≤ c ∧ c ≤ 90
  · rw [if_pos hc]
    have hlo := UInt8.le_iff_toNat_le.mp hc.1
    have hhi := UInt8.le_iff_toNat_le.mp hc.2
    rw [UInt8.lt_iff_toNat_lt, UInt8.lt_iff_toNat_lt] at hd
    rw [← UInt8.toNat_inj, ← UInt8.toNat_inj, UInt8.toNat_add]
    simp only [UInt8.reduceToNat] at *
    omega
  · rw [if_neg hc]

/-- Lower case leaves braces and blanks alone. -/
theorem hasBrace_map_tolower (s : Bytes) : hasBrace (s.map tolower) = hasBrace s := by
  induction s with
  | nil => rfl
  | cons c rest ih =>
    rw [Bool.eq_iff_iff, List.map_cons, hasBrace_cons, hasBrace_cons, ih,
      tolower_eq_iff (by decide), tolower_eq_iff (by decide)]

theorem isBlank_tolower (c : UInt8) : isBlank (tolower c) = isBlank c := by
  rw [Bool.eq_iff_iff]
  simp only [isBlank, Bool.or_eq_true, beq_iff_eq]
  rw [tolower_eq_iff (by decide), tolower_eq_iff (by decide), tolower_eq_iff (by decide)]

/-! ## The table of the headers -/

/-- The last entry with a key gives its value. -/
theorem get_headersTable (entries : List (Bytes × Bytes)) (k : Bytes) :
    (headersTable entries).get (.str k) =
      match lastValue entries k with
      | some v => .str v
      | none => .nil := by
  unfold headersTable lastValue
  induction entries using List.reverseRecOn with
  | nil => simp
  | append_singleton entries e ih =>
    rw [List.foldl_append, List.reverse_append]
    simp only [List.foldl_cons, List.foldl_nil, List.reverse_singleton, List.singleton_append]
    rw [Table.get_rawset, List.lookup_cons]
    by_cases hk : k = e.1
    · rw [if_pos (by rw [hk]), show (k == e.1) = true from by simpa using hk]
    · rw [if_neg (by simpa using hk), show (k == e.1) = false from by simpa using hk]
      exact ih

/-- Only keys of entries are in the table. -/
theorem mem_of_get_headersTable {entries : List (Bytes × Bytes)} {k : Key}
    (h : (headersTable entries).get k ≠ .nil) : ∃ e ∈ entries, k = .str e.1 := by
  unfold headersTable at h
  induction entries using List.reverseRecOn with
  | nil => simp at h
  | append_singleton entries e ih =>
    rw [List.foldl_append, List.foldl_cons, List.foldl_nil, Table.get_rawset] at h
    by_cases hk : k = .str e.1
    · exact ⟨e, by simp, hk⟩
    · rw [if_neg hk] at h
      obtain ⟨e', hmem, heq⟩ := ih h
      exact ⟨e', List.mem_append_left _ hmem, heq⟩

theorem lastValue_append (xs ys : List (Bytes × Bytes)) (k : Bytes) :
    lastValue (xs ++ ys) k = (lastValue ys k).or (lastValue xs k) := by
  unfold lastValue
  rw [List.reverse_append, List.lookup_append]

theorem mem_of_lastValue {entries : List (Bytes × Bytes)} {k v : Bytes}
    (h : lastValue entries k = some v) : (k, v) ∈ entries := by
  obtain ⟨l₁, l₂, heq, -⟩ := List.lookup_eq_some_iff.mp h
  rw [← List.mem_reverse, heq]
  simp

theorem exists_lastValue {entries : List (Bytes × Bytes)} {e : Bytes × Bytes} (h : e ∈ entries) :
    ∃ v, lastValue entries e.1 = some v := by
  apply Option.ne_none_iff_exists'.mp
  intro hnone
  have := List.lookup_eq_none_iff.mp hnone e (List.mem_reverse.mpr h)
  simp at this

/-! ## The table of a response -/

/-- The entry of an accepted header line. -/
theorem headerEntry_fieldLine {r : HttpResponse} {f : Bytes × Bytes} (hf : f ∈ r.fields)
    (haccepted : hasBrace f.1 = false ∧ hasBrace f.2 = false ∧ f.1.head?.any isBlank = false) :
    headerEntry (fieldLine f) = some (fieldKey f, f.2) := by
  rw [headerEntry, splitHeader_fieldLine hf, haccepted.1, haccepted.2.1, haccepted.2.2]
  rfl

theorem isHeader_of_headerEntry {line : Bytes} {e : Bytes × Bytes}
    (h : headerEntry line = some e) : isHeader line = true := by
  unfold headerEntry at h
  unfold isHeader
  cases hsplit : splitHeader line with
  | none => simp [hsplit] at h
  | some p => rfl

/-- An entry has no braces, and its key starts with no blank. -/
theorem headerEntry_eq_some {line : Bytes} {e : Bytes × Bytes} (h : headerEntry line = some e) :
    hasBrace e.1 = false ∧ hasBrace e.2 = false ∧ e.1.head?.any isBlank = false := by
  obtain ⟨p, hsplit, rfl⟩ := Option.map_eq_some_iff.mp h
  unfold splitHeader at hsplit
  split at hsplit
  · simp at hsplit
  next hnot =>
    rw [← Option.some.inj hsplit, hasBrace_map_tolower]
    simp only [not_or, Bool.not_eq_true] at hnot
    refine ⟨hnot.1, hnot.2.1, ?_⟩
    cases hkey : keyPart line with
    | nil => rfl
    | cons c rest =>
      have hblank := hnot.2.2.1
      rw [hkey] at hblank
      simpa [isBlank_tolower] using hblank

/-- The entries of accepted header lines. -/
theorem filterMap_lines {r : HttpResponse}
    (haccepted : ∀ f ∈ r.fields, hasBrace f.1 = false ∧ hasBrace f.2 = false ∧
      f.1.head?.any isBlank = false) :
    r.lines.filterMap headerEntry = r.fields.map fun f => (fieldKey f, f.2) := by
  unfold HttpResponse.lines
  rw [List.filterMap_map, ← List.filterMap_eq_map]
  apply List.filterMap_congr
  intro f hf
  exact headerEntry_fieldLine hf (haccepted f hf)

/-- All header lines are taken for headers. -/
theorem dropWhile_lines {r : HttpResponse}
    (haccepted : ∀ f ∈ r.fields, hasBrace f.1 = false ∧ hasBrace f.2 = false ∧
      f.1.head?.any isBlank = false) (later : List Bytes) :
    (r.lines ++ later).dropWhile isHeader = later.dropWhile isHeader := by
  apply List.dropWhile_append_of_pos
  intro line hline
  obtain ⟨f, hf, rfl⟩ := List.mem_map.mp hline
  exact isHeader_of_headerEntry (headerEntry_fieldLine hf (haccepted f hf))

/-- The body comes back from the lines that are left when the headers at their
beginning are taken away. -/
theorem body_iff {body j : Bytes} (hbody : NulFree body) (hj : NulFree j) :
    body = render ((pieces isBreak (body ++ j)).dropWhile isHeader) ↔
      (body = [] ∧ ∀ line ∈ pieces isBreak (body ++ j), isHeader line = true) ∨
        (body = render (pieces isBreak (body ++ j)) ∧
          ∃ line, (pieces isBreak (body ++ j)).head? = some line ∧ isHeader line = false) := by
  have hlines : ∀ line ∈ pieces isBreak (body ++ j), IsLine line :=
    fun line hline => isLine_of_mem_pieces (nulFree_append.mpr ⟨hbody, hj⟩) hline
  have hwhole {line : Bytes} {lines : List Bytes} (hhead : lines.head? = some line)
      (hno : isHeader line = false) : lines.dropWhile isHeader = lines := by
    cases lines with
    | nil => rfl
    | cons first rest =>
      rw [List.head?_cons, Option.some.injEq] at hhead
      exact List.dropWhile_cons_of_neg (by simp [hhead, hno])
  constructor
  · intro h
    cases hrest : (pieces isBreak (body ++ j)).dropWhile isHeader with
    | nil =>
      rw [hrest] at h
      exact Or.inl ⟨h, List.dropWhile_eq_nil_iff.mp hrest⟩
    | cons first rest =>
      have hno : isHeader first = false := by
        have hfirst := List.head_dropWhile_not isHeader (l := pieces isBreak (body ++ j))
          (by simp [hrest])
        simpa [hrest] using hfirst
      have hsub : ∀ line ∈ first :: rest, IsLine line := by
        intro line hline
        exact hlines line ((List.dropWhile_suffix isHeader).subset (hrest ▸ hline))
      -- the lines of the body are the first of all, so none was taken away
      have hall : pieces isBreak (body ++ j) = first :: rest ++ pieces isBreak j := by
        rw [h, hrest]
        exact pieces_render hsub j
      have hhead : (pieces isBreak (body ++ j)).head? = some first := by rw [hall]; rfl
      rw [hwhole hhead hno] at h
      exact Or.inr ⟨h, first, hhead, hno⟩
  · rintro (⟨hnil, hall⟩ | ⟨h, line, hhead, hno⟩)
    · rw [List.dropWhile_eq_nil_iff.mpr hall]
      exact hnil
    · rw [hwhole hhead hno]
      exact h

theorem head_map_tolower (s : Bytes) : (s.map tolower).head?.any isBlank = s.head?.any isBlank := by
  cases s with
  | nil => rfl
  | cons c rest => exact isBlank_tolower c

/-- The table has a string under a key when that is the last value. -/
theorem get_headersTable_eq_str {entries : List (Bytes × Bytes)} {k v : Bytes} :
    (headersTable entries).get (.str k) = .str v ↔ lastValue entries k = some v := by
  rw [get_headersTable]
  cases lastValue entries k <;> simp

/-- The fields have their values in the table exactly when no other entry behind
them has another value. -/
theorem lastValue_fields_iff (r : HttpResponse) (later : List (Bytes × Bytes)) :
    (∀ f ∈ r.fields,
        lastValue (r.fields.map (fun f => (fieldKey f, f.2)) ++ later) (fieldKey f) = some f.2) ↔
      (∀ f ∈ r.fields, ∀ g ∈ r.fields, fieldKey f = fieldKey g → f.2 = g.2) ∧
        ∀ f ∈ r.fields, ∀ v, lastValue later (fieldKey f) = some v → v = f.2 := by
  constructor
  · intro hvalues
    refine ⟨fun f hf g hg hkey => ?_, fun f hf v hv => ?_⟩
    · have hvalue := hvalues f hf
      rw [hkey, hvalues g hg, Option.some.injEq] at hvalue
      exact hvalue.symm
    · have hvalue := hvalues f hf
      rw [lastValue_append, hv] at hvalue
      simpa using hvalue
  · rintro ⟨hconsistent, hlast⟩ f hf
    rw [lastValue_append]
    cases hlater : lastValue later (fieldKey f) with
    | some v => simp [hlast f hf v hlater]
    | none =>
      have hmem : (fieldKey f, f.2) ∈ r.fields.map fun f => (fieldKey f, f.2) :=
        List.mem_map.mpr ⟨f, hf, rfl⟩
      obtain ⟨v, hv⟩ := exists_lastValue hmem
      obtain ⟨g, hg, heq⟩ := List.mem_map.mp (mem_of_lastValue hv)
      obtain ⟨hkey, hvalue⟩ := Prod.mk.inj heq
      rw [hv, ← hvalue, hconsistent g hg f hf hkey]
      rfl

/-- The table has no other keys exactly when the later entries have none. -/
theorem keys_fields_iff (r : HttpResponse) (later : List (Bytes × Bytes)) :
    (∀ k, (headersTable (r.fields.map (fun f => (fieldKey f, f.2)) ++ later)).get k ≠ .nil →
        ∃ f ∈ r.fields, k = .str (fieldKey f)) ↔
      ∀ e ∈ later, ∃ f ∈ r.fields, e.1 = fieldKey f := by
  constructor
  · intro honly e he
    obtain ⟨v, hv⟩ := exists_lastValue
      (List.mem_append_right (r.fields.map fun f => (fieldKey f, f.2)) he)
    obtain ⟨f, hf, hkey⟩ := honly (.str e.1) (by simp [get_headersTable_eq_str.mpr hv])
    exact ⟨f, hf, by simpa using hkey⟩
  · intro hknown k hk
    obtain ⟨e, hmem, rfl⟩ := mem_of_get_headersTable hk
    rcases List.mem_append.mp hmem with hfield | hlater
    · obtain ⟨f, hf, rfl⟩ := List.mem_map.mp hfield
      exact ⟨f, hf, rfl⟩
    · obtain ⟨f, hf, heq⟩ := hknown e hlater
      exact ⟨f, hf, by rw [heq]⟩

/-- A table of the lines that describes the response has all fields among its
entries, so all header lines are accepted. -/
theorem accepted_of_faithful {r : HttpResponse} {code : Bytes} {lines : List Bytes}
    (h : Faithful r (responseOf code lines)) :
    ∀ f ∈ r.fields, hasBrace f.1 = false ∧ hasBrace f.2 = false ∧
      f.1.head?.any isBlank = false := by
  intro f hf
  obtain ⟨line, -, hentry⟩ := List.mem_filterMap.mp
    (mem_of_lastValue (get_headersTable_eq_str.mp (h.headers f hf)))
  obtain ⟨hkey, hvalue, hblank⟩ := headerEntry_eq_some hentry
  exact ⟨by rwa [fieldKey, hasBrace_map_tolower] at hkey, hvalue,
    by rwa [fieldKey, head_map_tolower] at hblank⟩

/-- The table of the lines when all header lines are accepted. -/
theorem responseOf_lines {r : HttpResponse}
    (haccepted : ∀ f ∈ r.fields, hasBrace f.1 = false ∧ hasBrace f.2 = false ∧
      f.1.head?.any isBlank = false) (later : List Bytes) :
    responseOf r.status (r.lines ++ later) =
      { code := r.status
        body := render (later.dropWhile isHeader)
        headers := headersTable (r.fields.map (fun f => (fieldKey f, f.2)) ++
          later.filterMap headerEntry) } := by
  unfold responseOf
  rw [dropWhile_lines haccepted, List.filterMap_append, filterMap_lines haccepted]

/-- The table describes the response exactly when the response `Parses`. -/
theorem parseBuffer_faithful_iff (r : HttpResponse) (junk : Bytes) :
    (∃ t, parseBuffer (r.text ++ junk) = .ok t ∧ Faithful r t) ↔ Parses r junk := by
  have hj := nulFree_cString junk
  constructor
  · rintro ⟨t, hparse, hfaithful⟩
    have hnul : 0 ∈ junk := by
      by_contra hfree
      exact (parseBuffer_without_nul (nulFree_text r hfree)).1 t hparse
    obtain ⟨rest, hjunk⟩ := exists_eq_cString_append hnul
    have hspec := parseBuffer_text _ (nulFree_text r hj) rest
    rw [pieces_text, List.append_assoc, ← hjunk] at hspec
    obtain ⟨hok, hfit, -⟩ := hspec
    have hfits := hfit t hparse
    obtain rfl : responseOf r.status (r.lines ++ laterLines r junk) = t := by
      rw [hok hfits, Outcome.ok.injEq] at hparse
      exact hparse
    have haccepted := accepted_of_faithful hfaithful
    rw [responseOf_lines haccepted] at hfaithful
    obtain ⟨hconsistent, hlast⟩ := (lastValue_fields_iff r _).mp fun f hf =>
      get_headersTable_eq_str.mp (hfaithful.headers f hf)
    exact ⟨hnul, haccepted, hconsistent, (keys_fields_iff r _).mp hfaithful.only, hlast,
      (body_iff r.body_text hj).mp hfaithful.body.symm, hfits⟩
  · intro h
    obtain ⟨rest, hjunk⟩ := exists_eq_cString_append h.nul
    have hspec := parseBuffer_text _ (nulFree_text r hj) rest
    rw [pieces_text, List.append_assoc, ← hjunk] at hspec
    refine ⟨_, hspec.1 h.fit, ?_⟩
    show Faithful r (responseOf r.status (r.lines ++ laterLines r junk))
    rw [responseOf_lines h.accepted]
    have hvalues := (lastValue_fields_iff r _).mpr ⟨h.consistent, h.last⟩
    exact ⟨rfl, fun f hf => get_headersTable_eq_str.mpr (hvalues f hf),
      (keys_fields_iff r _).mpr h.known, ((body_iff r.body_text hj).mpr h.body).symm⟩

/-- A response with a body that looks like a header line. -/
def greeting : HttpResponse where
  status := bytes "HTTP/1.1 200 OK"
  fields := [(bytes "Content-Length", bytes "5")]
  body := bytes "hello"
  status_line := ⟨by decide, by decide, by decide +kernel⟩
  names := by decide +kernel
  values := by decide +kernel
  body_text := by decide +kernel

theorem body_becomes_header :
    ¬ ∃ t, parseBuffer (greeting.text ++ [0]) = .ok t ∧ Faithful greeting t := by
  rintro ⟨t, hparse, hfaithful⟩
  have hspec := parseBuffer_text greeting.text (by decide) []
  rw [show pieces isBreak greeting.text =
      [bytes "HTTP/1.1 200 OK", bytes "Content-Length: 5", bytes "hello"] from by decide] at hspec
  rw [hspec.1 (by decide), Outcome.ok.injEq] at hparse
  have hbody := hfaithful.body
  rw [← hparse] at hbody
  revert hbody
  decide

end Vklib.Requests
