import Vklib.Requests.Lines

/-!
# The entries of `headers_array`

`headers_array` has 32 entries, and the line loop does not ask whether one is
left.  `Iterates` are the iterations that the loop comes to: the line, what lies
behind it, and the variables.  `TableBound` says that none of them stores past
the end.

The iterations are those of the lines up to the first NUL, as long as the sizes
that are counted fit in an `int` (`iterates_iff`).  So the bound holds exactly
when no line is accepted as the 33rd, or when the loop does not come to it
(`headers_array_bound_iff`).
-/

namespace Vklib.Requests

/-- The part of a buffer that `strtok` can cut into lines: up to the first NUL,
or up to the last line break when there is none. -/
def complete (mem : Bytes) : Bytes :=
  if 0 ∈ mem then cString mem else mem.rdropWhile fun c => !isBreak c

theorem nulFree_complete (mem : Bytes) : NulFree (complete mem) := by
  unfold complete
  by_cases hnul : 0 ∈ mem
  · rw [if_pos hnul]
    exact nulFree_cString mem
  · rw [if_neg hnul]
    exact fun h => hnul ((List.rdropWhile_prefix _ _).subset h)

theorem complete_text {text : Bytes} (hnul : NulFree text) (junk : Bytes) :
    complete (text ++ 0 :: junk) = text := by
  rw [complete, if_pos (by simp), cString_append_nul hnul]

/-- `strtok` returns the first line, and behind it are the others. -/
theorem strtok_complete (mem : Bytes) :
    match pieces isBreak (complete mem) with
    | [] => ∀ line mem', strtok mem ≠ .ok (some (line, mem'))
    | line :: lines => ∃ mem', strtok mem = .ok (some (line, mem')) ∧
        pieces isBreak (complete mem') = lines := by
  by_cases hnul : 0 ∈ mem
  · obtain ⟨junk, hmem⟩ := exists_eq_cString_append hnul
    have htext := strtok_text (nulFree_cString mem) junk
    rw [← hmem] at htext
    rw [complete, if_pos hnul]
    cases hpieces : pieces isBreak (cString mem) with
    | nil =>
      rw [hpieces] at htext
      simp [htext]
    | cons line lines =>
      rw [hpieces] at htext
      obtain ⟨text', hrun, hnul', -, hrest⟩ := htext
      exact ⟨_, hrun, by rw [complete_text hnul', hrest]⟩
  · have hfree := strtok_nulFree hnul
    rw [complete, if_neg hnul]
    cases hpieces : pieces isBreak (mem.rdropWhile fun c => !isBreak c) with
    | nil =>
      rw [hpieces] at hfree
      simp [hfree]
    | cons line lines =>
      rw [hpieces] at hfree
      obtain ⟨mem', hrun, hnul', hrest⟩ := hfree
      exact ⟨mem', hrun, by rw [complete, if_neg hnul', hrest]⟩

/-! ## The iterations -/

/-- The line loop comes to an iteration with this line, what lies behind it, and
these variables.  At the end of the loop there is no line. -/
inductive Iterates (buffer : Bytes) : Option (Bytes × Bytes) → Sorter → Prop
  | start {response_code mem : Bytes} {next : Option (Bytes × Bytes)} {st : Sorter} :
      strtok buffer = .ok (some (response_code, mem)) → startSorter = .ok st →
      strtok mem = .ok next → Iterates buffer next st
  | step {line mem : Bytes} {next : Option (Bytes × Bytes)} {st st' : Sorter} :
      Iterates buffer (some (line, mem)) st → lineStep st line = .ok st' →
      strtok mem = .ok next → Iterates buffer next st'

/-- Whenever an entry is stored, there is one left. -/
def TableBound (buffer : Bytes) : Prop :=
  ∀ line mem st header, Iterates buffer (some (line, mem)) st →
    get_header line = .ok (some header) → st.headers_array.length < HEADERS

/-- The iterations are those of `lineLoop`: a run of the loop goes through
them. -/
theorem Iterates.lineLoop_eq {buffer : Bytes} {next : Option (Bytes × Bytes)} {st : Sorter}
    (h : Iterates buffer next st) : ∃ response_code mem st₀ n,
      strtok buffer = .ok (some (response_code, mem)) ∧ startSorter = .ok st₀ ∧
        ∀ fuel, (do let first ← strtok mem; lineLoop (fuel + n) first st₀) = lineLoop fuel next st := by
  induction h with
  | start hcode hstart hnext => exact ⟨_, _, _, 0, hcode, hstart, fun fuel => by rw [hnext]; rfl⟩
  | step _ hstep hnext ih =>
    obtain ⟨code, mem₀, st₀, n, hcode, hstart, hrun⟩ := ih
    refine ⟨code, mem₀, st₀, n + 1, hcode, hstart, fun fuel => ?_⟩
    have hone := hrun (fuel + 1)
    rw [lineLoop, hstep, Outcome.ok_bind, hnext, Outcome.ok_bind] at hone
    rw [← hone, Nat.add_assoc, Nat.add_comm 1 n]

section

variable {buffer : Bytes} {st₀ : Sorter}

/-- The lines before an iteration were sorted. -/
theorem Iterates.split (hstart : startSorter = .ok st₀) {next : Option (Bytes × Bytes)}
    {st : Sorter} (h : Iterates buffer next st) : ∃ response_code pre post,
      pieces isBreak (complete buffer) = response_code :: (pre ++ post) ∧
        pre.foldlM lineStep st₀ = .ok st ∧
        ∀ line mem, next = some (line, mem) →
          ∃ rest, post = line :: rest ∧ pieces isBreak (complete mem) = rest := by
  have hrest {mem : Bytes} {next : Option (Bytes × Bytes)} (hnext : strtok mem = .ok next) :
      ∀ line mem', next = some (line, mem') → ∃ rest,
        pieces isBreak (complete mem) = line :: rest ∧ pieces isBreak (complete mem') = rest := by
    rintro line mem' rfl
    have hspec := strtok_complete mem
    cases hpieces : pieces isBreak (complete mem) with
    | nil =>
      rw [hpieces] at hspec
      exact absurd hnext (hspec line mem')
    | cons line' rest =>
      rw [hpieces] at hspec
      obtain ⟨mem'', hrun, htail⟩ := hspec
      rw [hnext, Outcome.ok.injEq, Option.some.injEq, Prod.mk.injEq] at hrun
      obtain ⟨rfl, rfl⟩ := hrun
      exact ⟨rest, rfl, htail⟩
  induction h with
  | start hcode hstart' hnext =>
    rw [hstart, Outcome.ok.injEq] at hstart'
    subst hstart'
    obtain ⟨rest, hpieces, htail⟩ := hrest hcode _ _ rfl
    refine ⟨_, [], rest, hpieces, rfl, fun line mem hline => ?_⟩
    rw [← htail]
    obtain ⟨rest', hpieces', htail'⟩ := hrest hnext line mem hline
    exact ⟨rest', hpieces', htail'⟩
  | step _ hstep hnext ih =>
    obtain ⟨code, pre, post, hpieces, hfold, hsome⟩ := ih
    obtain ⟨rest, rfl, htail⟩ := hsome _ _ rfl
    refine ⟨code, pre ++ [_], rest, by rw [hpieces, List.append_assoc]; rfl, ?_, ?_⟩
    · rw [Outcome.foldlM_append, hfold, Outcome.ok_bind, List.foldlM_cons, hstep]
      rfl
    · rw [← htail]
      exact hrest hnext

/-- The loop comes to a line when the lines before it can be sorted. -/
theorem iterates_of_split (hstart : startSorter = .ok st₀) {response_code line : Bytes}
    {pre post : List Bytes} {st : Sorter}
    (hpieces : pieces isBreak (complete buffer) = response_code :: (pre ++ line :: post))
    (hfold : pre.foldlM lineStep st₀ = .ok st) :
    ∃ mem, Iterates buffer (some (line, mem)) st ∧ pieces isBreak (complete mem) = post := by
  induction pre using List.reverseRecOn generalizing line post st with
  | nil =>
    have hfirst := strtok_complete buffer
    rw [hpieces] at hfirst
    obtain ⟨mem, hcode, htail⟩ := hfirst
    have hsecond := strtok_complete mem
    rw [htail, List.nil_append] at hsecond
    obtain ⟨mem', hnext, hrest⟩ := hsecond
    have hst : st₀ = st := by simpa using hfold
    exact ⟨mem', .start hcode (hst ▸ hstart) hnext, hrest⟩
  | append_singleton pre before ih =>
    rw [List.append_assoc, List.singleton_append] at hpieces
    rw [Outcome.foldlM_append] at hfold
    obtain ⟨st₁, hfold₁, hstep⟩ := Outcome.bind_eq_ok_iff.mp hfold
    obtain ⟨mem, hiterates, htail⟩ := ih hpieces hfold₁
    have hnext := strtok_complete mem
    rw [htail] at hnext
    obtain ⟨mem', hnext, hrest⟩ := hnext
    refine ⟨mem', .step hiterates ?_ hnext, hrest⟩
    rw [List.foldlM_cons] at hstep
    obtain ⟨st₂, hone, hst⟩ := Outcome.bind_eq_ok_iff.mp hstep
    rw [hone]
    simpa using hst

end

/-! ## The bound -/

/-- The line is accepted as a header. -/
def accepted (line : Bytes) : Bool :=
  match get_header line with
  | .ok (some _) => true
  | _ => false

theorem accepted_iff {line : Bytes} :
    accepted line = true ↔ ∃ header, get_header line = .ok (some header) := by
  unfold accepted
  split
  · simp_all
  · rename_i hnone
    simpa using hnone

/-- The sizes that the loop counts for these lines fit in an `int`. -/
structure SizesFit (lines : List Bytes) : Prop where
  head : totalCost (lines.takeWhile isHeader) ≤ INT_MAX
  body : totalCost (lines.dropWhile isHeader) ≤ INT_MAX

/-- No line is accepted as the 33rd, unless the loop cannot come to it because
the lines before it are too long for the sizes. -/
def Roomy (lines : List Bytes) : Prop :=
  ∀ pre line post, lines = pre ++ line :: post → accepted line = true →
    pre.countP accepted = HEADERS → ¬ SizesFit pre

theorem lineCost_le_totalCost {lines : List Bytes} {line : Bytes} (h : line ∈ lines) :
    lineCost line ≤ totalCost lines := by
  induction lines with
  | nil => simp at h
  | cons l lines ih =>
    unfold totalCost at *
    rw [List.map_cons, List.sum_cons]
    rcases List.mem_cons.mp h with rfl | h
    · omega
    · have hrest := ih h
      omega

/-- Among lines of which the sizes fit, `get_header` reads every line to its
end. -/
theorem SizesFit.accepted_eq {lines : List Bytes} (h : SizesFit lines) {line : Bytes}
    (hmem : line ∈ lines) (hline : IsLine line) : accepted line = isHeader line := by
  have hcost : (lineCost line : Int) ≤ INT_MAX := by
    have hhead := h.head
    have hbody := h.body
    rw [← List.takeWhile_append_dropWhile (p := isHeader) (l := lines)] at hmem
    rcases List.mem_append.mp hmem with hmem | hmem
    · have hle := lineCost_le_totalCost hmem
      omega
    · have hle := lineCost_le_totalCost hmem
      omega
  unfold accepted isHeader
  rw [get_header_of_isLine hline hcost]
  cases splitHeader line <;> rfl

/-- The entries that are stored are those of the accepted lines. -/
theorem SizesFit.countP_accepted {lines : List Bytes} (h : SizesFit lines)
    (hlines : ∀ line ∈ lines, IsLine line) :
    lines.countP accepted = (lines.filterMap headerEntry).length := by
  rw [List.length_filterMap_eq_countP]
  apply List.countP_congr
  intro line hmem
  rw [h.accepted_eq hmem (hlines line hmem)]
  simp [headerEntry, isHeader]

section

variable {buffer : Bytes} {response_code : Bytes} {lines : List Bytes}

theorem isLine_of_pieces (hpieces : pieces isBreak (complete buffer) = response_code :: lines) :
    ∀ line ∈ lines, IsLine line := fun _ hmem =>
  isLine_of_mem_pieces (nulFree_complete buffer) (hpieces ▸ List.mem_cons_of_mem _ hmem)

/-- The loop comes to a line exactly when the entries and the sizes of the lines
before it fit, and then it has stored the entries of these lines. -/
theorem foldlM_lineStep_iff {pre : List Bytes} (hlines : ∀ line ∈ pre, IsLine line) {st₀ : Sorter}
    (hstart : startSorter = .ok st₀) :
    (SizesFit pre ∧ pre.countP accepted ≤ HEADERS ↔ ∃ st, pre.foldlM lineStep st₀ = .ok st) ∧
      ∀ st, pre.foldlM lineStep st₀ = .ok st →
        st.headers_array.length = pre.countP accepted := by
  obtain ⟨st₁, hstart', -, harray, hsorting, hfit⟩ := startSorter_eq
  rw [hstart, Outcome.ok.injEq] at hstart'
  subst hstart'
  obtain ⟨hok, honly⟩ := lines_spec hlines hsorting
  have hsizes {st : Sorter} (hfold : pre.foldlM lineStep st₀ = .ok st) :
      SizesFit pre ∧ pre.countP accepted ≤ HEADERS := by
    have hfits := (hfit pre).mp (honly st hfold)
    have hsize : SizesFit pre := ⟨hfits.head, hfits.body⟩
    exact ⟨hsize, by rw [hsize.countP_accepted hlines]; exact hfits.entries⟩
  refine ⟨⟨fun ⟨hsize, hroom⟩ => ?_, fun ⟨st, hfold⟩ => hsizes hfold⟩, fun st hfold => ?_⟩
  · rw [hsize.countP_accepted hlines] at hroom
    obtain ⟨st, hfold, -⟩ := hok ((hfit pre).mpr ⟨hroom, hsize.head, hsize.body⟩)
    exact ⟨st, hfold⟩
  · obtain ⟨st', hfold', -, harray'⟩ := hok (honly st hfold)
    rw [hfold, Outcome.ok.injEq] at hfold'
    subst hfold'
    rw [harray', harray, List.nil_append, (hsizes hfold).1.countP_accepted hlines]

/-- The bound in terms of the lines behind the status line. -/
theorem tableBound_iff_roomy
    (hpieces : pieces isBreak (complete buffer) = response_code :: lines) :
    TableBound buffer ↔ Roomy lines := by
  obtain ⟨st₀, hstart, -⟩ := startSorter_eq
  have hlines := isLine_of_pieces hpieces
  constructor
  · rintro hbound pre line post rfl haccepted hcount hsize
    obtain ⟨⟨hrun, -⟩, hlength⟩ := foldlM_lineStep_iff
      (fun l hl => hlines l (List.mem_append_left _ hl)) hstart
    obtain ⟨st, hfold⟩ := hrun ⟨hsize, hcount.le⟩
    obtain ⟨mem, hiterates, -⟩ := iterates_of_split hstart hpieces hfold
    obtain ⟨header, hheader⟩ := accepted_iff.mp haccepted
    have hroom := hbound line mem st header hiterates hheader
    rw [hlength st hfold, hcount] at hroom
    omega
  · intro hroomy line mem st header hiterates hheader
    obtain ⟨code, pre, post, hsplit, hfold, hsome⟩ := hiterates.split hstart
    obtain ⟨rest, rfl, -⟩ := hsome line mem rfl
    rw [hpieces, List.cons.injEq] at hsplit
    obtain ⟨rfl, rfl⟩ := hsplit
    obtain ⟨⟨-, hfits⟩, hlength⟩ := foldlM_lineStep_iff
      (fun l hl => hlines l (List.mem_append_left _ hl)) hstart
    obtain ⟨hsize, hcount⟩ := hfits ⟨st, hfold⟩
    rw [hlength st hfold]
    refine lt_of_le_of_ne hcount fun hfull => ?_
    exact hroomy pre line rest rfl (accepted_iff.mpr ⟨header, hheader⟩) hfull hsize

end

/-- The lines behind the status line. -/
def linesAfter (buffer : Bytes) : List Bytes := (pieces isBreak (complete buffer)).tail

/-- No store goes past the end of `headers_array` exactly when no line is
accepted as the 33rd, or when the sizes of the lines before it do not fit. -/
theorem headers_array_bound_iff (buffer : Bytes) : TableBound buffer ↔ Roomy (linesAfter buffer) := by
  unfold linesAfter
  cases hpieces : pieces isBreak (complete buffer) with
  | nil =>
    -- without a status line there is no loop
    refine iff_of_true (fun line mem st header hiterates _ => ?_) (fun pre line post h => ?_)
    · obtain ⟨st₀, hstart, -⟩ := startSorter_eq
      obtain ⟨code, pre, post, hsplit, -⟩ := hiterates.split hstart
      rw [hpieces] at hsplit
      simp at hsplit
    · simp at h
  | cons code lines => exact tableBound_iff_roomy hpieces

/-- A response with 33 lines behind the status line, none of them with a
colon. -/
def crowdedResponse : Bytes := bytes "200\n" ++ (List.replicate 33 (bytes "a\n")).flatten ++ [0]

theorem headers_array_overflows : ¬ TableBound crowdedResponse := by
  have hpieces : pieces isBreak (complete crowdedResponse) =
      bytes "200" :: (List.replicate 32 (bytes "a") ++ bytes "a" :: []) := by
    decide +kernel
  rw [tableBound_iff_roomy hpieces]
  intro hroomy
  have haccepted : accepted (bytes "a") = true := by decide
  exact hroomy _ _ _ rfl haccepted (by decide +kernel) ⟨by decide +kernel, by decide +kernel⟩

end Vklib.Requests
