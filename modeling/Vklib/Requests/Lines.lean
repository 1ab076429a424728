import Vklib.Requests.Response
import Mathlib.Data.List.DropRight

/-!
# Lines

The lines that `strtok` cuts out of a text are its pieces between line breaks,
and the line loop goes over them in order.  `lines_spec` says what it computes:
the body is made of the lines from the first one on that `get_header` refuses,
and every line that it accepts becomes a header, wherever it stands.

`Holding` is the invariant of a text that is built with `accumulate`: its
allocation has the size that is kept beside it, and that size exceeds the text
by one byte a line.  So the allocation is always large enough, until the size no
longer fits in an `int`.
-/

namespace Vklib.Requests

/-! ## Tokens -/

theorem nulFree_of_suffix {s t : Bytes} (h : s <:+ t) (ht : NulFree t) : NulFree s :=
  fun hmem => ht (h.subset hmem)

theorem isBreak_ne_zero {c : UInt8} (h : isBreak c = true) : c ≠ 0 := by
  rintro rfl
  simp [isBreak] at h

/-- The first token ends at a line break or a NUL, of which the NUL stays. -/
theorem strtok_token {breaks token : Bytes} {stop : UInt8} (more : Bytes)
    (hbreaks : ∀ c ∈ breaks, isBreak c = true) (hne : token ≠ [])
    (htoken : ∀ c ∈ token, c ≠ 0 ∧ isBreak c = false) (hstop : isBreak stop = true ∨ stop = 0) :
    strtok (breaks ++ (token ++ stop :: more)) =
      .ok (some (token, if stop = 0 then stop :: more else more)) := by
  obtain ⟨c, rest, rfl⟩ := List.exists_cons_of_ne_nil hne
  obtain ⟨hzero, hhead⟩ := htoken c (List.mem_cons_self ..)
  have hinside : ∀ d ∈ c :: rest, (!(isBreak d || d == 0)) = true := by
    intro d hd
    simp [htoken d hd]
  have hend : (!(isBreak stop || stop == 0)) = false := by
    rcases hstop with hstop | hstop
    · simp [hstop]
    · simp [hstop]
  have hdrop : (breaks ++ (c :: rest ++ stop :: more)).dropWhile isBreak =
      c :: (rest ++ stop :: more) := by
    rw [List.dropWhile_append_of_pos hbreaks, List.cons_append, List.dropWhile_cons_of_neg]
    simp [hhead]
  unfold strtok
  rw [hdrop]
  simp only [if_neg hzero]
  rw [← List.cons_append, List.dropWhile_append_of_pos hinside,
    List.takeWhile_append_of_pos hinside, List.dropWhile_cons_of_neg (by simp [hend]),
    List.takeWhile_cons_of_neg (by simp [hend]), List.append_nil]

/-- Behind line breaks without a further token, `strtok` returns a null pointer
at a NUL, and otherwise runs past the end. -/
theorem strtok_breaks {breaks : Bytes} (hbreaks : ∀ c ∈ breaks, isBreak c = true) (rest : Bytes) :
    strtok (breaks ++ 0 :: rest) = .ok none := by
  have hzero : isBreak 0 = false := by decide
  unfold strtok
  rw [List.dropWhile_append_of_pos hbreaks, List.dropWhile_cons_of_neg (by simp [hzero])]
  rfl

theorem strtok_unterminated {breaks tail : Bytes} (hbreaks : ∀ c ∈ breaks, isBreak c = true)
    (htail : ∀ c ∈ tail, c ≠ 0 ∧ isBreak c = false) : strtok (breaks ++ tail) = .undefined := by
  unfold strtok
  rw [List.dropWhile_append_of_pos hbreaks]
  cases tail with
  | nil => rfl
  | cons c rest =>
    obtain ⟨hzero, hhead⟩ := htail c (List.mem_cons_self ..)
    have hall : (c :: rest).dropWhile (fun d => !(isBreak d || d == 0)) = [] := by
      rw [List.dropWhile_eq_nil_iff]
      intro d hd
      simp [htail d hd]
    rw [List.dropWhile_cons_of_neg (by simp [hhead])]
    simp only [if_neg hzero, hall]

/-- What `strtok` finds in a text that ends in a NUL. -/
theorem strtok_text {text : Bytes} (hnul : NulFree text) (junk : Bytes) :
    match pieces isBreak text with
    | [] => strtok (text ++ 0 :: junk) = .ok none
    | token :: tokens => ∃ text',
        strtok (text ++ 0 :: junk) = .ok (some (token, text' ++ 0 :: junk)) ∧
        NulFree text' ∧ text'.length < text.length ∧ pieces isBreak text' = tokens := by
  cases hpieces : pieces isBreak text with
  | nil => exact strtok_breaks (forall_of_pieces_eq_nil hpieces) junk
  | cons token tokens =>
    have hmem := mem_pieces (hpieces ▸ List.mem_cons_self .. : token ∈ pieces isBreak text)
    obtain ⟨breaks, more, rfl, hbreaks, hmore⟩ := exists_split_of_pieces hpieces
    have htoken : ∀ c ∈ token, c ≠ 0 ∧ isBreak c = false := fun c hc =>
      ⟨fun h0 => hnul (h0 ▸ (hmem.2 c hc).1), (hmem.2 c hc).2⟩
    have hlength := List.length_pos_iff.mpr hmem.1
    rw [List.append_assoc, List.append_assoc]
    rcases hmore with ⟨rfl, rfl⟩ | ⟨sep, tail, rfl, hsep, htail⟩
    · refine ⟨[], ?_, by simp [NulFree], ?_, rfl⟩
      · rw [List.nil_append, strtok_token junk hbreaks hmem.1 htoken (Or.inr rfl)]
        rfl
      · simp only [List.length_append, List.length_nil]
        omega
    · refine ⟨tail, ?_, ?_, ?_, htail⟩
      · rw [List.cons_append, strtok_token _ hbreaks hmem.1 htoken (Or.inl hsep),
          if_neg (isBreak_ne_zero hsep)]
      · intro hzero
        exact hnul (List.mem_append_right _ (List.mem_append_right _ (List.mem_cons_of_mem _ hzero)))
      · simp only [List.length_append, List.length_cons]
        omega

/-- What is behind the last line break does not matter. -/
theorem rdropWhile_append_of_forall {p : UInt8 → Bool} (xs : Bytes) {ys : Bytes}
    (h : ∀ y ∈ ys, p y = true) : (xs ++ ys).rdropWhile p = xs.rdropWhile p := by
  unfold List.rdropWhile
  rw [List.reverse_append, List.dropWhile_append_of_pos (fun y hy => h y (List.mem_reverse.mp hy))]

theorem rdropWhile_append_cons {p : UInt8 → Bool} (xs ys : Bytes) {sep : UInt8}
    (h : p sep = false) : (xs ++ sep :: ys).rdropWhile p = xs ++ sep :: ys.rdropWhile p := by
  induction ys using List.reverseRecOn with
  | nil => rw [List.rdropWhile_concat_neg _ _ _ (by simp [h]), List.rdropWhile_nil]
  | append_singleton ys y ih =>
    rw [← List.cons_append, ← List.append_assoc, List.rdropWhile_concat, List.rdropWhile_concat]
    split
    · exact ih
    · simp

/-- `strtok` in a buffer without NUL, which is cut up to its last line break. -/
theorem strtok_nulFree {mem : Bytes} (hnul : NulFree mem) :
    match pieces isBreak (mem.rdropWhile fun c => !isBreak c) with
    | [] => strtok mem = .undefined
    | line :: lines => ∃ mem', strtok mem = .ok (some (line, mem')) ∧ NulFree mem' ∧
        pieces isBreak (mem'.rdropWhile fun c => !isBreak c) = lines := by
  have hsplit : mem.rdropWhile (fun c => !isBreak c) ++ mem.rtakeWhile (fun c => !isBreak c) =
      mem := List.rdropWhile_append_rtakeWhile
  have htail : ∀ c ∈ mem.rtakeWhile fun c => !isBreak c, isBreak c = false := by
    intro c hc
    simpa using List.mem_rtakeWhile_imp hc
  have hfix := List.rdropWhile_idempotent (fun c => !isBreak c) mem
  generalize mem.rdropWhile (fun c => !isBreak c) = region at hsplit hfix ⊢
  generalize mem.rtakeWhile (fun c => !isBreak c) = tail at hsplit htail
  subst hsplit
  cases hpieces : pieces isBreak region with
  | nil =>
    apply strtok_unterminated (forall_of_pieces_eq_nil hpieces)
    exact fun c hc => ⟨fun h0 => hnul (h0 ▸ List.mem_append_right _ hc), htail c hc⟩
  | cons line lines =>
    have hmem := mem_pieces (hpieces ▸ List.mem_cons_self .. : line ∈ pieces isBreak region)
    obtain ⟨breaks, more, rfl, hbreaks, hmore⟩ := exists_split_of_pieces hpieces
    rcases hmore with ⟨rfl, -⟩ | ⟨sep, rest, rfl, hsep, hrest⟩
    · -- the cut text does not end inside a token
      rw [List.append_nil, rdropWhile_append_of_forall _ fun c hc => by simp [(hmem.2 c hc).2]]
        at hfix
      have hshort := (List.rdropWhile_prefix (fun c => !isBreak c) (l := breaks)).length_le
      have hlength := List.length_pos_iff.mpr hmem.1
      rw [hfix, List.length_append] at hshort
      omega
    · have htoken : ∀ c ∈ line, c ≠ 0 ∧ isBreak c = false := fun c hc =>
        ⟨fun h0 => hnul (List.mem_append_left _ (h0 ▸ (hmem.2 c hc).1)), (hmem.2 c hc).2⟩
      rw [← List.append_assoc, rdropWhile_append_cons _ _ (by simp [hsep]),
        List.append_cancel_left_eq, List.cons.injEq] at hfix
      refine ⟨rest ++ tail, ?_, ?_, ?_⟩
      · rw [List.append_assoc, List.append_assoc, List.cons_append,
          strtok_token _ hbreaks hmem.1 htoken (Or.inl hsep), if_neg (isBreak_ne_zero hsep)]
      · exact nulFree_of_suffix ⟨breaks ++ line ++ [sep], by simp⟩ hnul
      · rw [rdropWhile_append_of_forall _ fun c hc => by simp [htail c hc], hfix.2, hrest]

/-- Without a NUL there is still no NUL behind a token. -/
theorem strtok_without_nul {mem : Bytes} (hnul : NulFree mem) :
    strtok mem = .undefined ∨
      ∃ token mem', strtok mem = .ok (some (token, mem')) ∧ NulFree mem' := by
  have hspec := strtok_nulFree hnul
  cases hpieces : pieces isBreak (mem.rdropWhile fun c => !isBreak c) with
  | nil =>
    rw [hpieces] at hspec
    exact Or.inl hspec
  | cons token tokens =>
    rw [hpieces] at hspec
    obtain ⟨mem', hrun, hnul', -⟩ := hspec
    exact Or.inr ⟨token, mem', hrun, hnul'⟩

/-! ## Texts that are built line by line -/

/-- What `size` becomes when a line is added. -/
def lineCost (line : Bytes) : Nat := line.length + 3

/-- The allocation holds the text, and the size beside it is the size of the
allocation and exceeds the text by one byte a line. -/
structure Holding (mem : Mem) (length : Int) (text : Bytes) : Prop where
  holds : mem.Holds text
  lower : text.length ≤ length
  upper : length ≤ INT_MAX
  alloc : mem.length ≤ length + 1
  lines : 2 * length ≤ 3 * text.length

/-- A line with its line break. -/
def withBreak (line : Bytes) : Bytes := line ++ [13, 10]

theorem toSize_of_nonneg {i : Int} (hlo : 0 ≤ i) (hhi : i ≤ INT_MAX) : toSize i = i.toNat := by
  unfold toSize INT_MAX at *
  rw [Int.emod_eq_of_lt hlo (by omega)]

theorem toInt_of_le {n : Nat} (h : (n : Int) ≤ INT_MAX) : toInt n = n := by
  unfold toInt INT_MAX at *
  apply Int.bmod_eq_of_le <;> omega

/-- A line is added when the new size fits in an `int`. -/
theorem accumulate_eq_ok {mem : Mem} {length : Int} {text line : Bytes}
    (h : Holding mem length text) (hline : line ≠ []) (hnul : NulFree line)
    (hfits : length + lineCost line ≤ INT_MAX) :
    ∃ mem', accumulate mem length line = .ok (mem', length + lineCost line) ∧
      Holding mem' (length + lineCost line) (text ++ withBreak line) := by
  have hlower := h.lower
  have hlines := h.lines
  have hlength : 0 < line.length := List.length_pos_iff.mpr hline
  have hcost : lineCost line = line.length + 3 := rfl
  obtain ⟨size, hsize⟩ : ∃ size : Nat, length + lineCost line = size :=
    ⟨(length + lineCost line).toNat, by omega⟩
  have hnew : toInt (toSize length + (line.length + 3)) = size := by
    rw [toSize_of_nonneg (by omega) h.upper, toInt_of_le (by omega)]
    omega
  have htoSize : toSize size = size := by
    rw [toSize_of_nonneg (by omega) (by omega)]
    omega
  have hbound : size < 2 ^ 63 := by
    unfold INT_MAX at hfits
    omega
  obtain ⟨m₁, hm₁, hholds₁, hlength₁⟩ := Mem.realloc_holds h.holds size (by omega) hbound
  obtain ⟨m₂, hm₂, hholds₂, hlength₂⟩ :=
    Mem.strcat_holds (ε := Empty) hholds₁ hnul (by omega)
  obtain ⟨m₃, hm₃, hholds₃, hlength₃⟩ :=
    Mem.strcat_holds (ε := Empty) hholds₂ (show NulFree [13, 10] from by decide)
      (by rw [List.length_append]; simp; omega)
  obtain ⟨m₄, hm₄, hholds₄, hlength₄⟩ :=
    Mem.store_terminator (ε := Empty) hholds₃ (size - 1)
      (by simp only [List.length_append, List.length_cons, List.length_nil]; omega) (by omega)
  have hlast : (size : Int) - 1 = (size - 1 : Nat) := by omega
  refine ⟨m₄, ?_, ?_⟩
  · unfold accumulate
    simp only [hnew, h.holds.text_eq, Outcome.ok_bind, htoSize, hm₁, hm₂, hm₃, hlast, hm₄, hsize]
    rw [if_pos (by omega)]
  · rw [hsize] at hfits ⊢
    refine ⟨by simpa [withBreak] using hholds₄, ?_, hfits, by omega, ?_⟩
    · simp only [withBreak, List.length_append, List.length_cons, List.length_nil]
      omega
    · simp only [withBreak, List.length_append, List.length_cons, List.length_nil]
      omega

/-- Otherwise the size is negative or too small, and the line is written past
the end of the allocation. -/
theorem accumulate_undefined {mem : Mem} {length : Int} {text line : Bytes}
    (h : Holding mem length text) (hfits : INT_MAX < length + lineCost line) :
    accumulate mem length line = .undefined := by
  have hlower := h.lower
  have hupper := h.upper
  have hlines := h.lines
  have halloc := h.alloc
  have hcost : lineCost line = line.length + 3 := rfl
  unfold INT_MAX at hfits hupper
  have hold : toSize length = length.toNat := toSize_of_nonneg (by omega) h.upper
  have hmod := Int.bmod_def ((toSize length + (line.length + 3) : Nat) : Int) (2 ^ 32)
  have hv : ∃ v, toInt (toSize length + (line.length + 3)) = v ∧
      (v < 0 ∧ -2 ^ 31 ≤ v ∨ 0 ≤ v ∧ v + 2 ^ 32 ≤ length + lineCost line ∧ v ≤ INT_MAX) := by
    refine ⟨_, rfl, ?_⟩
    unfold toInt INT_MAX
    rw [hmod, hold]
    omega
  obtain ⟨v, hnew, ⟨hneg, hlow⟩ | ⟨hnonneg, hsum, hhigh⟩⟩ := hv
  · have hsize : 2 ^ 63 ≤ toSize v := by
      unfold toSize
      omega
    unfold accumulate
    simp only [hnew, h.holds.text_eq, Outcome.ok_bind]
    rw [if_pos (by omega), Mem.realloc, if_neg (by omega)]
    rfl
  · have hsize : toSize v = v.toNat := toSize_of_nonneg hnonneg hhigh
    unfold INT_MAX at hhigh
    unfold accumulate
    simp only [hnew, h.holds.text_eq, Outcome.ok_bind, hsize]
    by_cases hgrow : text.length < v.toNat
    · obtain ⟨m, hm, hholds, hlength⟩ := Mem.realloc_holds h.holds _ hgrow (by omega)
      rw [if_pos hgrow, hm]
      show (m.strcat line >>= _) = _
      rw [Mem.strcat_undefined hholds (by omega)]
      rfl
    · rw [if_neg hgrow]
      rw [Mem.strcat_undefined h.holds (by omega)]
      rfl

/-! ## The line loop -/

/-- The line is taken for a header. -/
def isHeader (line : Bytes) : Bool := (splitHeader line).isSome

/-- The entry of `headers_array` for a line. -/
def headerEntry (line : Bytes) : Option (Bytes × Bytes) :=
  (splitHeader line).map fun e => (e.1.map tolower, e.2)

/-- The lines that go to the text of the headers: those before the first line
that is no header. -/
def headLines (is_header : Bool) (lines : List Bytes) : List Bytes :=
  if is_header then lines.takeWhile isHeader else []

/-- The lines that go to the body. -/
def bodyLines (is_header : Bool) (lines : List Bytes) : List Bytes :=
  if is_header then lines.dropWhile isHeader else lines

def totalCost (lines : List Bytes) : Nat := (lines.map lineCost).sum

/-- A text of lines. -/
def render (lines : List Bytes) : Bytes := lines.flatMap withBreak

/-- A line as `strtok` returns it. -/
def IsLine (line : Bytes) : Prop := line ≠ [] ∧ NulFree line ∧ ∀ c ∈ line, isBreak c = false

theorem headLines_cons (b : Bool) (line : Bytes) (lines : List Bytes) :
    headLines b (line :: lines) =
      if b && isHeader line then line :: headLines (b && isHeader line) lines else [] := by
  cases b with
  | false => rfl
  | true => by_cases hline : isHeader line = true <;> simp [headLines, hline]

theorem bodyLines_cons (b : Bool) (line : Bytes) (lines : List Bytes) :
    bodyLines b (line :: lines) =
      if b && isHeader line then bodyLines (b && isHeader line) lines
      else line :: bodyLines (b && isHeader line) lines := by
  cases b with
  | false => rfl
  | true => by_cases hline : isHeader line = true <;> simp [bodyLines, hline]

theorem length_headerEntry (line : Bytes) :
    (headerEntry line).toList.length = if isHeader line then 1 else 0 := by
  unfold headerEntry isHeader
  cases splitHeader line <;> rfl

theorem filterMap_headerEntry_cons (line : Bytes) (lines : List Bytes) :
    (line :: lines).filterMap headerEntry =
      (headerEntry line).toList ++ lines.filterMap headerEntry := by
  rw [List.filterMap_cons]
  cases headerEntry line <;> rfl

/-- The invariant of the line loop. -/
structure Sorting (st : Sorter) (head body : Bytes) : Prop where
  entries : st.headers_array.length ≤ HEADERS
  headers : Holding st.headers st.header_length head
  body : Holding st.body st.body_length body

/-- The lines fit: into `headers_array`, and their sizes into `int`. -/
structure LinesFit (st : Sorter) (lines : List Bytes) : Prop where
  entries : st.headers_array.length + (lines.filterMap headerEntry).length ≤ HEADERS
  head : st.header_length + totalCost (headLines st.is_header lines) ≤ INT_MAX
  body : st.body_length + totalCost (bodyLines st.is_header lines) ≤ INT_MAX

/-- One line fits. -/
structure LineFits (st : Sorter) (line : Bytes) : Prop where
  entry : isHeader line = true → st.headers_array.length < HEADERS
  cost : (if st.is_header && isHeader line then st.header_length else st.body_length) +
    lineCost line ≤ INT_MAX

/-- The state after one line. -/
structure Stepped (st st' : Sorter) (head body line : Bytes) : Prop where
  is_header : st'.is_header = (st.is_header && isHeader line)
  headers_array : st'.headers_array = st.headers_array ++ (headerEntry line).toList
  header_length : st'.header_length =
    if st.is_header && isHeader line then st.header_length + lineCost line else st.header_length
  body_length : st'.body_length =
    if st.is_header && isHeader line then st.body_length else st.body_length + lineCost line
  sorting : Sorting st' (if st.is_header && isHeader line then head ++ withBreak line else head)
    (if st.is_header && isHeader line then body else body ++ withBreak line)

section

variable {st : Sorter} {head body line : Bytes}

/-- What `storeHeader` does, when there is room. -/
theorem storeHeader_eq_ok {header : Option (Bytes × Bytes)} {st' : Sorter} :
    storeHeader st header = .ok st' ↔
      (header.isSome = true → st.headers_array.length < HEADERS) ∧
        st' = { st with
          is_header := st.is_header && header.isSome
          headers_array := st.headers_array ++
            (header.map fun e => (e.1.map tolower, e.2)).toList } := by
  cases header with
  | none => simp [storeHeader, eq_comm]
  | some e =>
    unfold storeHeader
    by_cases hroom : st.headers_array.length < HEADERS
    · simp [hroom, eq_comm]
    · simp [hroom]

theorem Holding.nonneg {mem : Mem} {length : Int} {text : Bytes} (h : Holding mem length text) :
    0 ≤ length := by
  have := h.lower
  omega

theorem get_header_of_isLine (hline : IsLine line) (hcost : (lineCost line : Int) ≤ INT_MAX) :
    get_header line = .ok (splitHeader line) := by
  apply get_header_eq
  · intro hnl
    have hmem := (List.dropWhile_suffix _).subset ((List.drop_suffix 2 _).subset hnl)
    have := hline.2.2 10 hmem
    simp [isBreak] at this
  · exact hline.2.1
  · unfold lineCost at hcost
    omega

/-- A line is added to one of the two texts. -/
theorem addLine_eq_ok (st : Sorter) (hheaders : Holding st.headers st.header_length head)
    (hbody : Holding st.body st.body_length body) (hline : IsLine line)
    (hcost : (if st.is_header then st.header_length else st.body_length) + lineCost line ≤ INT_MAX) :
    ∃ st', addLine st line = .ok st' ∧ st'.is_header = st.is_header ∧
      st'.headers_array = st.headers_array ∧
      st'.header_length =
        (if st.is_header then st.header_length + lineCost line else st.header_length) ∧
      st'.body_length =
        (if st.is_header then st.body_length else st.body_length + lineCost line) ∧
      Holding st'.headers st'.header_length (if st.is_header then head ++ withBreak line else head) ∧
      Holding st'.body st'.body_length (if st.is_header then body else body ++ withBreak line) := by
  unfold addLine
  cases hhead : st.is_header with
  | true =>
    rw [hhead, if_pos rfl] at hcost
    obtain ⟨mem', hrun, hholding⟩ := accumulate_eq_ok hheaders hline.1 hline.2.1 hcost
    rw [if_pos rfl, hrun]
    exact ⟨_, rfl, rfl, rfl, rfl, rfl, hholding, hbody⟩
  | false =>
    rw [hhead, if_neg (by simp)] at hcost
    obtain ⟨mem', hrun, hholding⟩ := accumulate_eq_ok hbody hline.1 hline.2.1 hcost
    rw [if_neg (by simp), hrun]
    exact ⟨_, rfl, rfl, rfl, rfl, rfl, hheaders, hholding⟩

theorem addLine_undefined (st : Sorter) (hheaders : Holding st.headers st.header_length head)
    (hbody : Holding st.body st.body_length body)
    (hcost : INT_MAX < (if st.is_header then st.header_length else st.body_length) + lineCost line) :
    addLine st line = .undefined := by
  unfold addLine
  cases hhead : st.is_header with
  | true =>
    rw [hhead, if_pos rfl] at hcost
    rw [if_pos rfl, accumulate_undefined hheaders hcost]
    rfl
  | false =>
    rw [hhead, if_neg (by simp)] at hcost
    rw [if_neg (by simp), accumulate_undefined hbody hcost]
    rfl

/-- A line that fits is sorted. -/
theorem lineStep_eq_ok (h : Sorting st head body) (hline : IsLine line) (hfits : LineFits st line) :
    ∃ st', lineStep st line = .ok st' ∧ Stepped st st' head body line := by
  have hheaders := h.headers.nonneg
  have hbody := h.body.nonneg
  have hshort : (lineCost line : Int) ≤ INT_MAX := by
    have hcost := hfits.cost
    split at hcost <;> omega
  have hstore := storeHeader_eq_ok.mpr ⟨hfits.entry, rfl⟩
  obtain ⟨st', hadd, his, harray, hheader, hbodylength, hheaders', hbody'⟩ :=
    addLine_eq_ok { st with
      is_header := st.is_header && (splitHeader line).isSome
      headers_array := st.headers_array ++
        ((splitHeader line).map fun e => (e.1.map tolower, e.2)).toList }
      h.headers h.body hline hfits.cost
  refine ⟨st', ?_, his, harray, hheader, hbodylength, ?_, hheaders', hbody'⟩
  · unfold lineStep
    rw [get_header_of_isLine hline hshort, Outcome.ok_bind, hstore, Outcome.ok_bind, hadd]
  · rw [harray]
    show (st.headers_array ++ (headerEntry line).toList).length ≤ HEADERS
    rw [List.length_append, length_headerEntry]
    by_cases hheader : isHeader line = true
    · have := hfits.entry hheader
      rw [if_pos hheader]
      omega
    · have := h.entries
      rw [if_neg hheader]
      omega

/-- A line that does not fit is not sorted. -/
theorem lineFits_of_lineStep (h : Sorting st head body) (hline : IsLine line) {st' : Sorter}
    (hstep : lineStep st line = .ok st') : LineFits st line := by
  have hheaders := h.headers.nonneg
  have hbody := h.body.nonneg
  obtain ⟨header, hheader, hstep⟩ := Outcome.bind_eq_ok_iff.mp hstep
  obtain ⟨st₁, hstore, hstep⟩ := Outcome.bind_eq_ok_iff.mp hstep
  obtain ⟨hroom, rfl⟩ := storeHeader_eq_ok.mp hstore
  -- the cost is bounded before the header is known, since of a very long line
  -- `get_header` reads only a part
  have hcost : (if st.is_header && header.isSome then st.header_length else st.body_length) +
      lineCost line ≤ INT_MAX := by
    by_contra hlong
    rw [addLine_undefined { st with
      is_header := st.is_header && header.isSome
      headers_array := st.headers_array ++
        (header.map fun e => (e.1.map tolower, e.2)).toList }
      h.headers h.body (Int.not_le.mp hlong)] at hstep
    simp at hstep
  have hsplit : splitHeader line = header := by
    have hshort : (lineCost line : Int) ≤ INT_MAX := by
      split at hcost <;> omega
    rw [get_header_of_isLine hline hshort, Outcome.ok.injEq] at hheader
    exact hheader
  subst hsplit
  exact ⟨hroom, hcost⟩

/-- The lines fit when the first one does and the others fit after it. -/
theorem linesFit_cons {st' : Sorter} (hstep : Stepped st st' head body line)
    (lines : List Bytes) : LinesFit st (line :: lines) ↔ LinesFit st' lines := by
  have hentries : st.headers_array.length + ((line :: lines).filterMap headerEntry).length =
      st'.headers_array.length + (lines.filterMap headerEntry).length := by
    rw [filterMap_headerEntry_cons, hstep.headers_array, List.length_append, List.length_append]
    omega
  have hhead : st.header_length + totalCost (headLines st.is_header (line :: lines)) =
      st'.header_length + totalCost (headLines st'.is_header lines) := by
    rw [headLines_cons, hstep.header_length, hstep.is_header]
    by_cases hb : (st.is_header && isHeader line) = true
    · simp only [hb, if_true, totalCost, List.map_cons, List.sum_cons]
      omega
    · simp [hb, headLines, totalCost]
  have hbody : st.body_length + totalCost (bodyLines st.is_header (line :: lines)) =
      st'.body_length + totalCost (bodyLines st'.is_header lines) := by
    rw [bodyLines_cons, hstep.body_length, hstep.is_header]
    by_cases hb : (st.is_header && isHeader line) = true
    · simp [hb]
    · simp only [hb, Bool.false_eq_true, if_false, totalCost, List.map_cons, List.sum_cons]
      omega
  constructor
  · intro h
    exact ⟨hentries ▸ h.entries, hhead ▸ h.head, hbody ▸ h.body⟩
  · intro h
    exact ⟨hentries ▸ h.entries, hhead ▸ h.head, hbody ▸ h.body⟩

theorem lineFits_of_linesFit {lines : List Bytes} (h : LinesFit st (line :: lines)) :
    LineFits st line := by
  refine ⟨fun hheader => ?_, ?_⟩
  · have hentries := h.entries
    rw [filterMap_headerEntry_cons, List.length_append, length_headerEntry, if_pos hheader]
      at hentries
    omega
  · have hhead := h.head
    have hbody := h.body
    rw [headLines_cons] at hhead
    rw [bodyLines_cons] at hbody
    by_cases hb : (st.is_header && isHeader line) = true
    · simp only [hb, if_true, totalCost, List.map_cons, List.sum_cons] at hhead ⊢
      omega
    · simp only [hb, Bool.false_eq_true, if_false, totalCost, List.map_cons, List.sum_cons]
        at hbody ⊢
      omega

end

/-- What the line loop computes, and when it does. -/
theorem lines_spec {lines : List Bytes} (hlines : ∀ line ∈ lines, IsLine line) {st : Sorter}
    {head body : Bytes} (h : Sorting st head body) :
    (LinesFit st lines → ∃ st', lines.foldlM lineStep st = .ok st' ∧
      st'.body.Holds (body ++ render (bodyLines st.is_header lines)) ∧
      st'.headers_array = st.headers_array ++ lines.filterMap headerEntry) ∧
    (∀ st', lines.foldlM lineStep st = .ok st' → LinesFit st lines) := by
  induction lines generalizing st head body with
  | nil =>
    have hfits : LinesFit st [] := by
      refine ⟨by simpa using h.entries, ?_, ?_⟩
      · simpa [headLines, totalCost] using h.headers.upper
      · simpa [bodyLines, totalCost] using h.body.upper
    refine ⟨fun _ => ⟨st, rfl, ?_, by simp⟩, fun _ _ => hfits⟩
    simpa [bodyLines, render] using h.body.holds
  | cons line lines ih =>
    have hline := hlines line (List.mem_cons_self ..)
    have hrest := fun l hl => hlines l (List.mem_cons_of_mem _ hl)
    rw [List.foldlM_cons]
    constructor
    · intro hfits
      obtain ⟨st₁, hrun, hstep⟩ := lineStep_eq_ok h hline (lineFits_of_linesFit hfits)
      have hfits₁ := (linesFit_cons hstep lines).mp hfits
      obtain ⟨st', hfold, hbody, harray⟩ := (ih hrest hstep.sorting).1 hfits₁
      refine ⟨st', by rw [hrun]; exact hfold, ?_, ?_⟩
      · rw [hstep.is_header] at hbody
        rw [bodyLines_cons]
        by_cases hhead : (st.is_header && isHeader line) = true
        · simpa [hhead] using hbody
        · simpa [hhead, render, List.flatMap_cons, withBreak] using hbody
      · rw [harray, hstep.headers_array, filterMap_headerEntry_cons, List.append_assoc]
    · intro st' hfold
      obtain ⟨st₁, hrun, hfold₁⟩ := Outcome.bind_eq_ok_iff.mp hfold
      have hfits := lineFits_of_lineStep h hline hrun
      obtain ⟨st₂, hrun₂, hstep⟩ := lineStep_eq_ok h hline hfits
      rw [hrun, Outcome.ok.injEq] at hrun₂
      subst hrun₂
      exact (linesFit_cons hstep lines).mpr ((ih hrest hstep.sorting).2 st' hfold₁)

/-- With enough fuel the loop goes over the lines of the text. -/
theorem lineLoop_text {text : Bytes} (hnul : NulFree text) (junk : Bytes) (fuel : Nat)
    (hfuel : text.length < fuel) (st : Sorter) :
    (do let next ← strtok (text ++ 0 :: junk); lineLoop fuel next st) =
      (pieces isBreak text).foldlM lineStep st := by
  induction fuel generalizing text st with
  | zero => exact absurd hfuel (Nat.not_lt_zero _)
  | succ fuel ih =>
    have htoken := strtok_text hnul junk
    cases hpieces : pieces isBreak text with
    | nil =>
      rw [hpieces] at htoken
      rw [htoken]
      rfl
    | cons token tokens =>
      rw [hpieces] at htoken
      obtain ⟨text', hrun, hnul', hlength, hrest⟩ := htoken
      rw [hrun, Outcome.ok_bind, lineLoop, List.foldlM_cons]
      congr 1
      funext st₁
      rw [ih hnul' (by omega) st₁, hrest]

/-- Without a NUL the loop runs past the end. -/
theorem lineLoop_without_nul {mem : Bytes} (hnul : NulFree mem) {fuel : Nat} {line : Bytes}
    {st st' : Sorter} : lineLoop fuel (some (line, mem)) st ≠ .ok st' := by
  induction fuel generalizing mem line st with
  | zero => simp [lineLoop]
  | succ fuel ih =>
    intro h
    obtain ⟨st₁, -, h⟩ := Outcome.bind_eq_ok_iff.mp h
    obtain ⟨next, hnext, h⟩ := Outcome.bind_eq_ok_iff.mp h
    rcases strtok_without_nul hnul with hundef | ⟨token, mem', hok, hnul'⟩
    · simp [hundef] at hnext
    · rw [hok, Outcome.ok.injEq] at hnext
      subst hnext
      exact ih hnul' h

/-- The lines that `strtok` returns. -/
theorem isLine_of_mem_pieces {text line : Bytes} (hnul : NulFree text)
    (h : line ∈ pieces isBreak text) : IsLine line := by
  obtain ⟨hne, hchars⟩ := mem_pieces h
  exact ⟨hne, fun hmem => hnul (hchars 0 hmem).1, fun c hc => (hchars c hc).2⟩

/-! ## The buffer -/

/-- The lines after the status line fit into the variables of `request_get`. -/
structure Fit (lines : List Bytes) : Prop where
  entries : (lines.filterMap headerEntry).length ≤ HEADERS
  head : totalCost (lines.takeWhile isHeader) ≤ INT_MAX
  body : totalCost (lines.dropWhile isHeader) ≤ INT_MAX

instance (lines : List Bytes) : Decidable (Fit lines) :=
  decidable_of_iff ((lines.filterMap headerEntry).length ≤ HEADERS ∧
    (totalCost (lines.takeWhile isHeader) : Int) ≤ INT_MAX ∧
      (totalCost (lines.dropWhile isHeader) : Int) ≤ INT_MAX)
    ⟨fun h => ⟨h.1, h.2.1, h.2.2⟩, fun h => ⟨h.entries, h.head, h.body⟩⟩

theorem startSorter_eq : ∃ st, startSorter = .ok st ∧ st.is_header = true ∧ st.headers_array = [] ∧
    Sorting st [] [] ∧ ∀ lines, LinesFit st lines ↔ Fit lines := by
  obtain ⟨m, hm, hholds, hlength⟩ := Mem.holds_malloc Empty 1 (by omega)
  refine ⟨_, by unfold startSorter; rw [hm]; rfl, rfl, rfl, ?_, fun lines => ?_⟩
  · have hholding : Holding m 0 [] := ⟨hholds, by simp, by decide, by simp [hlength], by simp⟩
    exact ⟨by simp, hholding, hholding⟩
  · constructor
    · intro h
      exact ⟨by simpa using h.entries, by simpa [headLines] using h.head,
        by simpa [bodyLines] using h.body⟩
    · intro h
      exact ⟨by simpa using h.entries, by simpa [headLines] using h.head,
        by simpa [bodyLines] using h.body⟩

/-- The table of a list of lines. -/
def responseOf (code : Bytes) (lines : List Bytes) : Response where
  code := code
  body := render (lines.dropWhile isHeader)
  headers := headersTable (lines.filterMap headerEntry)

/-- What `request_get` makes of a buffer with a NUL: an error without lines, and
otherwise a table when the lines fit. -/
theorem parseBuffer_text (text : Bytes) (hnul : NulFree text) (junk : Bytes) :
    match pieces isBreak text with
    | [] => parseBuffer (text ++ 0 :: junk) = .error (bytes "Could not get response code.")
    | code :: lines =>
      (Fit lines → parseBuffer (text ++ 0 :: junk) = .ok (responseOf code lines)) ∧
        (∀ r, parseBuffer (text ++ 0 :: junk) = .ok r → Fit lines) ∧
        ∀ e, parseBuffer (text ++ 0 :: junk) ≠ .error e := by
  have htoken := strtok_text hnul junk
  cases hpieces : pieces isBreak text with
  | nil =>
    rw [hpieces] at htoken
    unfold parseBuffer
    rw [htoken]
    rfl
  | cons code lines =>
    rw [hpieces] at htoken
    obtain ⟨text', hrun, hnul', hlength, hrest⟩ := htoken
    obtain ⟨st, hstart, hhead, harray, hsorting, hfit⟩ := startSorter_eq
    have hlines : ∀ line ∈ lines, IsLine line := by
      intro line hmem
      exact isLine_of_mem_pieces hnul (hpieces ▸ List.mem_cons_of_mem _ hmem)
    have hloop := lineLoop_text hnul' junk
      ((text ++ 0 :: junk).length + 1) (by simp; omega) st
    rw [hrest] at hloop
    obtain ⟨hok, honly⟩ := lines_spec hlines hsorting
    have hparse : parseBuffer (text ++ 0 :: junk) =
        (readLines ((text ++ 0 :: junk).length + 1) code (text' ++ 0 :: junk)).lift := by
      unfold parseBuffer
      rw [hrun]
      rfl
    have hread : readLines ((text ++ 0 :: junk).length + 1) code (text' ++ 0 :: junk) = (do
        let st ← lines.foldlM lineStep st
        let body ← st.body.text
        .ok { code := code, body := body, headers := headersTable st.headers_array }) := by
      rw [← hloop]
      unfold readLines
      rw [hstart, Outcome.ok_bind]
      cases strtok (text' ++ 0 :: junk) <;> rfl
    rw [hparse]
    refine ⟨fun hfits => ?_, fun r hr => ?_, fun e => Outcome.lift_ne_error _ e⟩
    · obtain ⟨st', hfold, hbody, harray'⟩ := hok ((hfit lines).mpr hfits)
      rw [hread, hfold, Outcome.ok_bind, hbody.text_eq, harray', harray, hhead]
      rfl
    · rw [Outcome.lift_eq_ok_iff, hread] at hr
      obtain ⟨st', hfold, -⟩ := Outcome.bind_eq_ok_iff.mp hr
      exact (hfit lines).mp (honly st' hfold)

/-- A buffer without NUL gives neither a table nor an error. -/
theorem parseBuffer_without_nul {buffer : Bytes} (hnul : NulFree buffer) :
    (∀ r, parseBuffer buffer ≠ .ok r) ∧ ∀ e, parseBuffer buffer ≠ .error e := by
  unfold parseBuffer
  rcases strtok_without_nul hnul with hundef | ⟨token, mem, hok, hmem⟩
  · rw [hundef]
    exact ⟨fun r => by simp [Outcome.lift, Outcome.mapError],
      fun e => by simp [Outcome.lift, Outcome.mapError]⟩
  · rw [hok, Outcome.lift_ok, Outcome.ok_bind]
    refine ⟨fun r hr => ?_, fun e => Outcome.lift_ne_error _ e⟩
    rw [Outcome.lift_eq_ok_iff] at hr
    obtain ⟨st, -, hr⟩ := Outcome.bind_eq_ok_iff.mp hr
    obtain ⟨next, hnext, hr⟩ := Outcome.bind_eq_ok_iff.mp hr
    obtain ⟨st', hloop, -⟩ := Outcome.bind_eq_ok_iff.mp hr
    rcases strtok_without_nul hmem with hundef | ⟨token', mem', hok', hmem'⟩
    · simp [hundef] at hnext
    · rw [hok', Outcome.ok.injEq] at hnext
      subst hnext
      exact lineLoop_without_nul hmem' hloop

end Vklib.Requests
