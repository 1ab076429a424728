import Vklib.Requests.Lines

/-!
# The buffers of the response parser

Two kinds of buffers are written without a check.  `get_header` writes a key and
a value into buffers as large as the line: every position is inside them, for a
line with line breaks too, and only the counter itself can overflow
(`get_header_ne_undefined_iff`).  The line loop appends lines to two texts whose
allocations are counted with three bytes a line, and the counters overflow when
the texts are still shorter than the largest `int`.

`Accumulates` says that the texts are right after every line, and
`buffers_exact_iff` says when this is so.
-/

namespace Vklib.Requests

/-! ## `get_header` -/

/-- The loop over the value writes inside its buffer.  At a line break it stops. -/
theorem get_headerLoop_values_defined (rest : Bytes) {key_text value_text : Bytes} {key value : Mem}
    {i : Nat} (hnul : NulFree rest) (hkey : key.Holds key_text)
    (hvalue : value.Holds value_text) (hi : i = key_text.length + 2 + value_text.length)
    (hfits : value_text.length + rest.length < value.length) :
    get_headerLoop rest i key value true = .ok none ∨
      ∃ value' text, get_headerLoop rest i key value true = .ok (some (key, value')) ∧
        value'.Holds text := by
  induction rest generalizing value value_text i with
  | nil => exact Or.inr ⟨value, value_text, by simp [get_headerLoop], hvalue⟩
  | cons c rest ih =>
    rw [List.length_cons] at hfits
    by_cases hbrace : c = 123 ∨ c = 125
    · exact Or.inl (get_headerLoop_brace hbrace true)
    have hc : c ≠ 0 := fun h0 => hnul (h0 ▸ List.mem_cons_self ..)
    by_cases hnl : c = 10
    · obtain ⟨m₁, m₂, h₁, h₂, hholds, -⟩ := Mem.store_append (ε := Empty) hvalue hc (by omega)
      have hidx : (i : Int) - key_text.length - 2 = value_text.length := by omega
      refine Or.inr ⟨m₂, value_text ++ [c], ?_, hholds⟩
      subst hnl
      cases rest <;> simp [get_headerLoop, hkey.text_eq, hidx, h₁, h₂]
    · obtain ⟨value', hstep, hholds, hlength⟩ :=
        get_headerLoop_value rest hbrace hnl hc hkey hvalue hi (by omega)
      rw [hstep]
      exact ih (fun h => hnul (List.mem_cons_of_mem _ h)) hholds
        (by rw [List.length_append, List.length_singleton]; omega)
        (by rw [List.length_append, List.length_singleton, hlength]; omega)

/-- The loop ends, with a null pointer or with a text in each buffer. -/
def Defined (r : Outcome Empty (Option (Mem × Mem))) : Prop :=
  r = .ok none ∨ ∃ key value text text',
    r = .ok (some (key, value)) ∧ key.Holds text ∧ value.Holds text'

/-- The loop from the first colon on. -/
theorem get_headerLoop_colon_defined (rest : Bytes) {key_text : Bytes} {key value : Mem}
    (hnul : NulFree rest) (hkey : key.Holds key_text) (hvalue : value.Holds [])
    (hfits : rest.length < value.length)
    (hint : (key_text.length + rest.length + 1 : Int) ≤ INT_MAX) :
    (INT_MAX < key_text.length + 2 →
        get_headerLoop (58 :: rest) key_text.length key value false = .undefined) ∧
      (¬ INT_MAX < key_text.length + 2 →
        Defined (get_headerLoop (58 :: rest) key_text.length key value false)) := by
  rw [get_headerLoop_colon]
  cases rest with
  | nil =>
    rw [if_pos rfl]
    refine ⟨fun hover => if_pos hover, fun hover => ?_⟩
    rw [if_neg hover]
    exact Or.inr ⟨key, value, key_text, [], rfl, hkey, hvalue⟩
  | cons c rest =>
    rw [List.length_cons] at hfits hint
    refine ⟨fun hover => by omega, fun _ => ?_⟩
    rw [if_neg (List.cons_ne_nil c rest), List.tail_cons]
    rcases get_headerLoop_values_defined rest (i := key_text.length + 2)
      (fun h => hnul (List.mem_cons_of_mem _ h)) hkey hvalue (by simp) (by simp; omega) with
      hnone | ⟨value', text, hrun, hholds⟩
    · exact Or.inl hnone
    · exact Or.inr ⟨key, value', key_text, text, hrun, hkey, hholds⟩

/-- The loop over a line: it stores inside the buffers, and only the step over a
colon at the end can overflow. -/
theorem get_headerLoop_defined {read : Bytes} {key value : Mem} (hnul : NulFree read)
    (hkey : key.Holds []) (hvalue : value.Holds []) (hkeyfits : read.length < key.length)
    (hvaluefits : read.length < value.length) (hint : (read.length : Int) ≤ INT_MAX) :
    (Overruns read → get_headerLoop read 0 key value false = .undefined) ∧
      (¬ Overruns read → Defined (get_headerLoop read 0 key value false)) := by
  by_cases hmem : 58 ∈ read
  · obtain ⟨name, rest, rfl, hcolon⟩ := List.eq_append_cons_of_mem hmem
    rw [nulFree_append] at hnul
    rw [List.length_append, List.length_cons] at hkeyfits hvaluefits hint
    have hrun := get_headerLoop_key_part name (58 :: rest) value hcolon hnul.1 hkey
      (by rw [List.length_nil]; omega)
    unfold Overruns
    rw [keyPart_append_colon hcolon]
    rw [List.length_nil, List.nil_append, Nat.zero_add] at hrun
    by_cases hbrace : hasBrace name = true
    · rw [if_pos hbrace] at hrun
      exact ⟨fun hover => absurd hover.2.1 (by simp [hbrace]), fun _ => Or.inl hrun⟩
    · rw [if_neg hbrace] at hrun
      obtain ⟨key', hrun, hholds⟩ := hrun
      obtain ⟨hover, hdefined⟩ := get_headerLoop_colon_defined rest
        (fun h => hnul.2 (List.mem_cons_of_mem _ h)) hholds hvalue (by omega) (by omega)
      rw [hrun]
      exact ⟨fun h => hover h.2.2, fun h => hdefined fun hlong =>
        h ⟨hmem, by simpa using hbrace, hlong⟩⟩
  · refine ⟨fun hover => absurd hover.1 hmem, fun _ => ?_⟩
    have hrun := get_headerLoop_key_part read [] value hmem hnul hkey (by simpa using hkeyfits)
    rw [List.append_nil, List.length_nil] at hrun
    by_cases hbrace : hasBrace read = true
    · rw [if_pos hbrace] at hrun
      exact Or.inl hrun
    · rw [if_neg hbrace] at hrun
      obtain ⟨key', hrun, hholds⟩ := hrun
      exact Or.inr ⟨key', value, _, [], by rw [hrun, get_headerLoop], hholds, hvalue⟩

/-- Every byte that `get_header` writes is inside the buffer, unless the counter
overflows. -/
theorem get_header_ne_undefined_iff {line : Bytes} (hnul : NulFree line) :
    get_header line ≠ .undefined ↔ ¬ Overruns (scanned line) := by
  obtain ⟨key, hkey, hkeyholds, hkeylength⟩ :=
    Mem.holds_malloc Empty (line.length + 1) (by omega)
  have hlength := (scanned_part line).length_le
  have hint := scanned_length_le line
  have hnul' : NulFree (scanned line) := fun h => hnul ((scanned_part line).subset h)
  -- the part that is read is a variable before anything is evaluated
  obtain ⟨read, hread⟩ : ∃ read, scanned line = read := ⟨_, rfl⟩
  unfold get_header
  rw [← scanned]
  rw [hread] at hlength hint hnul' ⊢
  obtain ⟨hover, hdefined⟩ :=
    get_headerLoop_defined hnul' hkeyholds hkeyholds (by omega) (by omega) hint
  simp only [hkey, Outcome.ok_bind]
  constructor
  · intro hrun h
    rw [hover h] at hrun
    exact hrun rfl
  · intro h
    rcases hdefined h with hnone | ⟨key', value', text, text', hrun, hkey', hvalue'⟩
    · rw [hnone]
      simp
    · rw [hrun]
      simp only [Outcome.ok_bind, hkey'.text_eq, hvalue'.text_eq]
      split <;> simp

/-! ## The texts of the line loop -/

/-- A text that was built of lines.  Before the first line it is in the one byte
that was allocated at the start, and afterwards the kept size is the size of the
last reallocation, with room for the text and its terminator. -/
structure Accumulated (mem : Mem) (length : Int) (lines : List Bytes) : Prop where
  holds : mem.Holds (render lines)
  fresh : lines = [] → length = 0 ∧ mem.length = 1
  sized : lines ≠ [] → (mem.length : Int) = length ∧ (render lines).length + 1 ≤ length

/-- After every line, the text of the headers is made of the lines before the first
one that is no header, and the body of the others. -/
def Accumulates (lines : List Bytes) : Prop :=
  ∀ before, before <+: lines → ∃ st₀ st, startSorter = .ok st₀ ∧
    before.foldlM lineStep st₀ = .ok st ∧
    Accumulated st.headers st.header_length (before.takeWhile isHeader) ∧
    Accumulated st.body st.body_length (before.dropWhile isHeader)

theorem render_concat (lines : List Bytes) (line : Bytes) :
    render (lines ++ [line]) = render lines ++ withBreak line := by
  simp [render]

theorem length_withBreak (line : Bytes) : (withBreak line).length = line.length + 2 := by
  simp [withBreak]

/-- The end of `accumulate`, after the allocation has grown. -/
theorem length_of_appended {mem mem' : Mem} {size length' : Int} {line : Bytes}
    (hrun : (do
      let text ← mem.strcat line
      let text ← text.strcat [13, 10]
      let text ← text.store (size - 1) 0
      .ok (text, size) : Outcome Empty (Mem × Int)) = .ok (mem', length')) :
    size = length' ∧ mem'.length = mem.length := by
  obtain ⟨m₂, hline, hrun⟩ := Outcome.bind_eq_ok_iff.mp hrun
  obtain ⟨m₃, hbreak, hrun⟩ := Outcome.bind_eq_ok_iff.mp hrun
  obtain ⟨m₄, hend, hrun⟩ := Outcome.bind_eq_ok_iff.mp hrun
  obtain ⟨rfl, rfl⟩ := Prod.mk.inj (Outcome.ok.inj hrun)
  refine ⟨rfl, ?_⟩
  rw [Mem.length_of_store hend, Mem.length_of_strcat hbreak, Mem.length_of_strcat hline]

/-- The size that is kept is that of the last reallocation. -/
theorem length_of_accumulate {mem mem' : Mem} {length length' : Int} {text line : Bytes}
    (hholds : mem.Holds text) (hrun : accumulate mem length line = .ok (mem', length'))
    (hgrows : text.length < toSize length') : mem'.length = toSize length' := by
  -- the new size is a variable before anything is evaluated
  obtain ⟨size, hsize⟩ : ∃ size, toInt (toSize length + (line.length + 3)) = size := ⟨_, rfl⟩
  simp only [accumulate, hsize, hholds.text_eq, Outcome.ok_bind] at hrun
  split_ifs at hrun with hgrow
  · cases hrealloc : mem.realloc (toSize size) with
    | none => simp [hrealloc] at hrun
    | some grown =>
      rw [hrealloc] at hrun
      obtain ⟨rfl, hlength⟩ := length_of_appended hrun
      rw [hlength, Mem.length_of_realloc hrealloc]
  · obtain ⟨rfl, -⟩ := length_of_appended hrun
    exact absurd hgrows hgrow

/-- The size after a line is that of the allocation. -/
theorem accumulate_alloc {mem mem' : Mem} {length length' : Int} {text line : Bytes}
    (h : Holding mem length text) (hline : line ≠ []) (hnul : NulFree line)
    (hfits : length + lineCost line ≤ INT_MAX)
    (hrun : accumulate mem length line = .ok (mem', length')) :
    (mem'.length : Int) = length' ∧ (text ++ withBreak line).length + 1 ≤ length' := by
  have hlower := h.lower
  obtain ⟨m, hok, hholding⟩ := accumulate_eq_ok h hline hnul hfits
  obtain rfl : length + lineCost line = length' := by
    rw [hok, Outcome.ok.injEq, Prod.mk.injEq] at hrun
    exact hrun.2
  have hroom : ((text ++ withBreak line).length + 1 : Int) ≤ length + lineCost line := by
    rw [List.length_append, length_withBreak, lineCost]
    push_cast
    omega
  refine ⟨?_, hroom⟩
  have hsize := toSize_of_nonneg (by omega) hfits
  have hlast := length_of_accumulate h.holds hrun (by rw [List.length_append] at hroom; omega)
  omega

/-- The texts of the headers and of the body are built of these lines. -/
structure Tracks (st : Sorter) (head body : List Bytes) : Prop where
  sorting : Sorting st (render head) (render body)
  headers : Accumulated st.headers st.header_length head
  body : Accumulated st.body st.body_length body

theorem Accumulated.concat {mem mem' : Mem} {length length' : Int} {lines : List Bytes}
    {line : Bytes} (h : Holding mem length (render lines)) (hline : IsLine line)
    (hfits : length + lineCost line ≤ INT_MAX)
    (hrun : accumulate mem length line = .ok (mem', length')) :
    Accumulated mem' length' (lines ++ [line]) := by
  obtain ⟨m, hok, hholding⟩ := accumulate_eq_ok h hline.1 hline.2.1 hfits
  have halloc := accumulate_alloc h hline.1 hline.2.1 hfits hrun
  rw [hok, Outcome.ok.injEq, Prod.mk.injEq] at hrun
  obtain ⟨rfl, rfl⟩ := hrun
  rw [← render_concat] at hholding halloc
  exact ⟨hholding.holds, fun hnil => absurd hnil (by simp), fun _ => halloc⟩

/-- One round of the line loop. -/
theorem lineStep_tracks {st : Sorter} {head body : List Bytes} {line : Bytes}
    (h : Tracks st head body) (hline : IsLine line) (hfits : LineFits st line) :
    ∃ st', lineStep st line = .ok st' ∧
      Stepped st st' (render head) (render body) line ∧
      Tracks st' (if st.is_header && isHeader line then head ++ [line] else head)
        (if st.is_header && isHeader line then body else body ++ [line]) := by
  obtain ⟨st', hrun, hstep⟩ := lineStep_eq_ok h.sorting hline hfits
  refine ⟨st', hrun, hstep, ?_⟩
  obtain ⟨header, hheader, hadd⟩ := Outcome.bind_eq_ok_iff.mp hrun
  obtain ⟨st₁, hstore, hadd⟩ := Outcome.bind_eq_ok_iff.mp hadd
  obtain ⟨-, rfl⟩ := storeHeader_eq_ok.mp hstore
  have hcost := hfits.cost
  unfold addLine at hadd
  by_cases htext : (st.is_header && header.isSome) = true
  · rw [if_pos htext] at hadd
    obtain ⟨⟨text, length⟩, hacc, hadd⟩ := Outcome.bind_eq_ok_iff.mp hadd
    obtain rfl := Outcome.ok.inj hadd
    have hsame : (st.is_header && isHeader line) = true := by rw [← hstep.is_header]; exact htext
    have hsorting := hstep.sorting
    simp only [hsame, if_true] at hcost hsorting ⊢
    exact ⟨render_concat head line ▸ hsorting,
      Accumulated.concat h.sorting.headers hline hcost hacc, h.body⟩
  · rw [if_neg htext] at hadd
    obtain ⟨⟨text, length⟩, hacc, hadd⟩ := Outcome.bind_eq_ok_iff.mp hadd
    obtain rfl := Outcome.ok.inj hadd
    have hsame : (st.is_header && isHeader line) = false := by
      rw [← hstep.is_header]
      simpa using htext
    have hsorting := hstep.sorting
    simp only [hsame, Bool.false_eq_true, if_false] at hcost hsorting ⊢
    exact ⟨render_concat body line ▸ hsorting, h.headers,
      Accumulated.concat h.sorting.body hline hcost hacc⟩

/-- The line loop. -/
theorem lines_track {lines : List Bytes} (hlines : ∀ line ∈ lines, IsLine line) {st : Sorter}
    {head body : List Bytes} (h : Tracks st head body) (hfits : LinesFit st lines) :
    ∃ st', lines.foldlM lineStep st = .ok st' ∧
      Tracks st' (head ++ headLines st.is_header lines) (body ++ bodyLines st.is_header lines) := by
  induction lines generalizing st head body with
  | nil => exact ⟨st, rfl, by simpa [headLines, bodyLines] using h⟩
  | cons line lines ih =>
    have hline := hlines line (List.mem_cons_self ..)
    obtain ⟨st₁, hrun, hstep, htracks⟩ := lineStep_tracks h hline (lineFits_of_linesFit hfits)
    obtain ⟨st', hfold, htracks'⟩ := ih (fun l hl => hlines l (List.mem_cons_of_mem _ hl)) htracks
      ((linesFit_cons hstep lines).mp hfits)
    refine ⟨st', by rw [List.foldlM_cons, hrun]; exact hfold, ?_⟩
    rw [headLines_cons, bodyLines_cons]
    rw [hstep.is_header] at htracks'
    by_cases hhead : (st.is_header && isHeader line) = true
    · simpa [hhead] using htracks'
    · simpa [hhead, headLines] using htracks'

theorem startSorter_tracks : ∃ st, startSorter = .ok st ∧ st.is_header = true ∧ Tracks st [] [] ∧
    ∀ lines, LinesFit st lines ↔ Fit lines := by
  obtain ⟨m, hm, hholds, hlength⟩ := Mem.holds_malloc Empty 1 (by omega)
  obtain ⟨st, hrun, hheader, -, hsorting, hfit⟩ := startSorter_eq
  have hst : startSorter = .ok ⟨true, m, 0, m, 0, []⟩ := by
    unfold startSorter
    rw [hm]
    rfl
  obtain rfl := Outcome.ok.inj (hst.symm.trans hrun)
  have hempty : Accumulated m 0 [] := ⟨hholds, fun _ => ⟨rfl, hlength⟩, fun h => absurd rfl h⟩
  exact ⟨_, hrun, hheader, ⟨hsorting, hempty, hempty⟩, hfit⟩

/-- The texts are right after every line exactly when the lines fit. -/
theorem accumulates_iff {lines : List Bytes} (hlines : ∀ line ∈ lines, IsLine line) :
    Accumulates lines ↔ Fit lines := by
  obtain ⟨st₀, hstart, hheader, htracks, hfit⟩ := startSorter_tracks
  have hspec := lines_spec hlines htracks.sorting
  constructor
  · intro h
    obtain ⟨st₀', st, hstart', hrun, -⟩ := h lines (List.prefix_refl lines)
    obtain rfl : st₀ = st₀' := Outcome.ok.inj (hstart.symm.trans hstart')
    exact (hfit lines).mp (hspec.2 st hrun)
  · rintro h before ⟨rest, rfl⟩
    obtain ⟨st, hrun, -⟩ := hspec.1 ((hfit _).mpr h)
    rw [Outcome.foldlM_append, Outcome.bind_eq_ok_iff] at hrun
    obtain ⟨st', hbefore, -⟩ := hrun
    have hpart : ∀ line ∈ before, IsLine line := fun l hl => hlines l (List.mem_append_left _ hl)
    obtain ⟨st'', hrun', htracks'⟩ :=
      lines_track hpart htracks ((lines_spec hpart htracks.sorting).2 st' hbefore)
    rw [hheader] at htracks'
    exact ⟨st₀, st'', hstart, hrun', htracks'.headers, htracks'.body⟩

/-- The buffers of `get_header` are never overrun unless its counter overflows, and
the texts of the line loop are right after every line exactly when the lines fit. -/
theorem buffers_exact_iff {line : Bytes} (hnul : NulFree line) {lines : List Bytes}
    (hlines : ∀ line ∈ lines, IsLine line) :
    (get_header line ≠ .undefined ↔ ¬ Overruns (scanned line)) ∧
      (Accumulates lines ↔ Fit lines) :=
  ⟨get_header_ne_undefined_iff hnul, accumulates_iff hlines⟩

instance (line : Bytes) : Decidable (IsLine line) :=
  decidable_of_iff (line ≠ [] ∧ NulFree line ∧ line.all (fun c => !isBreak c)) (by simp [IsLine])

theorem buffers_exact_iff_two_lines :
    (get_header (bytes "a: b\nc") ≠ .undefined ↔ ¬ Overruns (scanned (bytes "a: b\nc"))) ∧
      (Accumulates [bytes "a: b", bytes "\x7b"] ↔ Fit [bytes "a: b", bytes "\x7b"]) :=
  buffers_exact_iff (by decide) (by decide)

/-- A body of `n` lines with one brace each. -/
def braceLines (n : Nat) : List Bytes := List.replicate n (bytes "\x7b")

theorem isLine_of_mem_braceLines {n : Nat} {line : Bytes} (h : line ∈ braceLines n) :
    IsLine line := by
  rw [(List.mem_replicate.mp h).2]
  decide

theorem length_braceLines (n : Nat) : ((braceLines n).map List.length).sum = n := by
  simp [braceLines, bytes]

/-- They are four times as long when they are counted. -/
theorem not_fit_braceLines {n : Nat} (h : INT_MAX < 4 * n) : ¬ Fit (braceLines n) := by
  intro hfit
  have hbrace : isHeader (bytes "\x7b") = false := by decide
  have hbody := hfit.body
  rw [braceLines, List.dropWhile_replicate, hbrace] at hbody
  simp [totalCost, lineCost, bytes] at hbody
  omega

/-- Lines of `2 ^ 29` bytes in all overflow the size of the body. -/
theorem short_lines_overflow :
    (∀ line ∈ braceLines (2 ^ 29), IsLine line) ∧
      (((braceLines (2 ^ 29)).map List.length).sum : Int) < INT_MAX ∧
      ¬ Accumulates (braceLines (2 ^ 29)) := by
  have hlines : ∀ line ∈ braceLines (2 ^ 29), IsLine line := fun _ h => isLine_of_mem_braceLines h
  refine ⟨hlines, ?_, fun h => ?_⟩
  · rw [length_braceLines]
    decide
  · exact not_fit_braceLines (by decide) ((accumulates_iff hlines).mp h)

end Vklib.Requests
