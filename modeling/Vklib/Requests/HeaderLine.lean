import Vklib.Requests.HttpResponse

/-!
# Which lines are headers

`get_header` is meant to tell header lines from other lines, and to split them.
It skips the character after the colon whatever that is, and it does not ask
whether there was a colon at all.

`Field` is a header as HTTP has it, with or without a space behind the colon,
and `PlainLine` is a line without colon.  `get_header_splits_iff` says for which
of them the answer is right.
-/

namespace Vklib.Requests

/-- A header.  The name has no colon, neither part starts with a blank, and
braces are excluded because `get_header` takes them for JSON. -/
structure Field where
  name : Bytes
  value : Bytes
  name_ne : name ≠ []
  name_line : OneLine name
  name_colon : 58 ∉ name
  name_brace : hasBrace name = false
  name_blank : name.head?.any isBlank = false
  value_line : OneLine value
  value_brace : hasBrace value = false
  value_blank : value.head?.any isBlank = false

/-- What stands between the colon and the value. -/
inductive Separator where
  | nothing
  | space
  deriving DecidableEq, Repr

def Separator.text : Separator → Bytes
  | .nothing => []
  | .space => [32]

/-- The line of a header. -/
def Field.line (f : Field) (s : Separator) : Bytes := f.name ++ 58 :: (s.text ++ f.value)

/-- A line without colon. -/
structure PlainLine where
  text : Bytes
  nulFree : NulFree text
  colonFree : 58 ∉ text

/-- `get_header` splits every header line, and refuses every line without
colon. -/
def Splits : Prop :=
  (∀ (f : Field) (s : Separator), get_header (f.line s) = .ok (some (f.name, f.value))) ∧
    ∀ l : PlainLine, get_header l.text = .ok none

/-- The skipped character is the space, or there is none to skip.  The position
behind it must fit in an `int`. -/
def Field.Kept (f : Field) : Separator → Prop
  | .nothing => f.value = [] ∧ ((f.line .nothing).length : Int) < INT_MAX
  | .space => ((f.line .space).length : Int) ≤ INT_MAX

/-- What makes `get_header` refuse a line without colon: a brace, or a blank at
the start. -/
def PlainLine.Refused (l : PlainLine) : Prop :=
  hasBrace (scanned l.text) = true ∨ (scanned l.text).head?.any isBlank = true

theorem Field.not_mem_line {c : UInt8} (f : Field) (s : Separator) (hname : c ∉ f.name)
    (hvalue : c ∉ f.value) (hcolon : c ≠ 58) (hspace : c ≠ 32) : c ∉ f.line s := by
  intro hmem
  rcases List.mem_append.mp hmem with h | h
  · exact hname h
  · rcases List.mem_cons.mp h with h | h
    · exact hcolon h
    · rcases List.mem_append.mp h with h | h
      · cases s with
        | nothing => simp [Separator.text] at h
        | space => exact hspace (by simpa [Separator.text] using h)
      · exact hvalue h

theorem Field.nulFree_line (f : Field) (s : Separator) : NulFree (f.line s) :=
  f.not_mem_line s f.name_line.1 f.value_line.1 (by decide) (by decide)

theorem newline_not_mem {text : Bytes} (h : OneLine text) : 10 ∉ text := by
  intro hmem
  have hbreak := h.2 10 hmem
  simp [isBreak] at hbreak

theorem Field.newline_not_mem_line (f : Field) (s : Separator) : 10 ∉ f.line s :=
  f.not_mem_line s (newline_not_mem f.name_line) (newline_not_mem f.value_line) (by decide)
    (by decide)

theorem mem_of_mem_valuePart {c : UInt8} {line : Bytes} (h : c ∈ valuePart line) : c ∈ line :=
  (List.dropWhile_suffix _).subset ((List.drop_suffix 2 _).subset h)

/-- What `get_header` makes of a header line that it reads to the end. -/
theorem Field.splitHeader_line (f : Field) (s : Separator) :
    splitHeader (f.line s) =
      if hasBrace (s.text ++ f.value).tail ∨ (s.text ++ f.value).tail.head?.any isBlank then none
      else some (f.name, (s.text ++ f.value).tail) := by
  unfold splitHeader Field.line
  rw [keyPart_append_colon f.name_colon, valuePart_append_colon f.name_colon, f.name_brace,
    f.name_blank]
  simp

/-- The key and the value are parts of what was read. -/
theorem length_of_splitHeader {line key value : Bytes} (h : splitHeader line = some (key, value)) :
    key.length + value.length ≤ line.length := by
  unfold splitHeader at h
  split at h
  · simp at h
  · rw [Option.some.injEq, Prod.mk.injEq] at h
    obtain ⟨rfl, rfl⟩ := h
    have hsplit := congrArg List.length
      (List.takeWhile_append_dropWhile (p := (· ≠ 58)) (l := line))
    rw [List.length_append] at hsplit
    show (line.takeWhile _).length + ((line.dropWhile _).drop 2).length ≤ _
    rw [List.length_drop]
    omega

theorem Field.length_line (f : Field) (s : Separator) :
    (f.line s).length = f.name.length + 1 + s.text.length + f.value.length := by
  simp only [Field.line, List.length_append, List.length_cons]
  omega

/-- What `get_header` makes of a header line of any length. -/
theorem Field.get_header_line (f : Field) (s : Separator) :
    (Overruns (scanned (f.line s)) → get_header (f.line s) = .undefined) ∧
      (¬ Overruns (scanned (f.line s)) →
        get_header (f.line s) = .ok (splitHeader (scanned (f.line s)))) := by
  apply get_header_scanned
  · intro hmem
    exact f.newline_not_mem_line s ((scanned_part _).subset (mem_of_mem_valuePart hmem))
  · exact f.nulFree_line s

/-- Of a header line that is longer than an `int` counts, something is lost. -/
theorem Field.get_header_long (f : Field) (s : Separator) (hlong : INT_MAX < (f.line s).length) :
    get_header (f.line s) ≠ .ok (some (f.name, f.value)) := by
  intro hget
  obtain ⟨hundef, hok⟩ := f.get_header_line s
  by_cases hover : Overruns (scanned (f.line s))
  · rw [hundef hover] at hget
    simp at hget
  · rw [hok hover, Outcome.ok.injEq] at hget
    have hparts := length_of_splitHeader hget
    have hshort := scanned_length_of_gt hlong
    have hline := f.length_line s
    have hseparator : s.text.length ≤ 1 := by cases s <;> simp [Separator.text]
    omega

/-- The colon of a header line overruns when it is the last character and no
further one could be counted. -/
theorem Field.overruns_line_iff (f : Field) (s : Separator)
    (hlength : ((f.line s).length : Int) ≤ INT_MAX) :
    Overruns (f.line s) ↔ s.text ++ f.value = [] ∧ ((f.line s).length : Int) = INT_MAX := by
  have hline := f.length_line s
  unfold Overruns
  rw [show keyPart (f.line s) = f.name from keyPart_append_colon f.name_colon _]
  rw [← List.length_eq_zero_iff, List.length_append]
  constructor
  · rintro ⟨-, -, hlong⟩
    omega
  · rintro ⟨hempty, hmax⟩
    refine ⟨?_, f.name_brace, by omega⟩
    exact List.mem_append_right _ (List.mem_cons_self ..)

/-- When a header line is split into its parts. -/
theorem Field.get_header_line_iff (f : Field) (s : Separator) :
    get_header (f.line s) = .ok (some (f.name, f.value)) ↔ f.Kept s := by
  by_cases hlength : ((f.line s).length : Int) ≤ INT_MAX
  · have hself := scanned_eq_self hlength
    obtain ⟨hundef, hok⟩ := f.get_header_line s
    rw [hself, f.overruns_line_iff s hlength] at hundef hok
    rw [f.splitHeader_line s] at hok
    cases s with
    | space =>
      rw [hok (by simp [Separator.text])]
      simp [Field.Kept, Separator.text, f.value_brace, f.value_blank, hlength]
    | nothing =>
      cases hvalue : f.value with
      | nil =>
        rw [hvalue] at hundef hok
        by_cases hmax : ((f.line .nothing).length : Int) = INT_MAX
        · rw [hundef ⟨rfl, hmax⟩]
          simp [Field.Kept, hmax]
        · rw [hok fun h => hmax h.2]
          have hless : ((f.line .nothing).length : Int) < INT_MAX := by omega
          simp [Field.Kept, Separator.text, hvalue, hasBrace, hless]
      | cons c rest =>
        rw [hvalue] at hok
        rw [hok (by simp)]
        -- the first character of the value is the one that is skipped
        have hnot : ¬ f.Kept .nothing := fun h => by simpa [hvalue] using h.1
        refine iff_of_false (fun hget => ?_) hnot
        rw [Outcome.ok.injEq] at hget
        split at hget
        · simp at hget
        · simp [Separator.text] at hget
  · refine iff_of_false (f.get_header_long s (Int.not_le.mp hlength)) ?_
    cases s with
    | nothing => exact fun h => hlength (by have := h.2; omega)
    | space => exact hlength

/-- When a line without colon is refused. -/
theorem PlainLine.get_header_text_iff (l : PlainLine) :
    get_header l.text = .ok none ↔ l.Refused := by
  have hcolon : 58 ∉ scanned l.text := fun h => l.colonFree ((scanned_part _).subset h)
  have hvalue := valuePart_of_not_mem hcolon
  have hnewline : 10 ∉ valuePart (scanned l.text) := by
    rw [hvalue]
    simp
  obtain ⟨-, hok⟩ := get_header_scanned hnewline l.nulFree
  rw [hok fun h => hcolon h.1]
  unfold splitHeader PlainLine.Refused
  rw [keyPart_of_not_mem hcolon, hvalue]
  simp only [hasBrace, List.any_nil, List.head?_nil, Option.any_none, Bool.false_eq_true, or_false,
    false_or]
  split
  case isTrue h => simpa using h
  case isFalse h => simpa using h

/-- `get_header` splits a header line exactly when the line fits and what it
skips is a space or nothing.  It refuses a line without colon exactly when that
has a brace or starts with a blank. -/
theorem get_header_splits_iff (f : Field) (s : Separator) (l : PlainLine) :
    (get_header (f.line s) = .ok (some (f.name, f.value)) ↔ f.Kept s) ∧
      (get_header l.text = .ok none ↔ l.Refused) :=
  ⟨f.get_header_line_iff s, l.get_header_text_iff⟩

theorem header_loses_a_character :
    get_header (bytes "Host:vklib") = .ok (some (bytes "Host", bytes "klib")) ∧
      get_header (bytes "plain") = .ok (some (bytes "plain", [])) ∧ ¬ Splits := by
  have hget : get_header (bytes "Host:vklib") = .ok (some (bytes "Host", bytes "klib")) := by
    decide +kernel
  refine ⟨hget, by decide +kernel, fun h => ?_⟩
  have hfield := h.1
    { name := bytes "Host", value := bytes "vklib", name_ne := by decide
      name_line := by decide +kernel, name_colon := by decide, name_brace := by decide
      name_blank := by decide, value_line := by decide +kernel, value_brace := by decide
      value_blank := by decide } .nothing
  have hline : get_header (bytes "Host:vklib") = .ok (some (bytes "Host", bytes "vklib")) := hfield
  rw [hget] at hline
  revert hline
  decide

end Vklib.Requests
