import Vklib.Base.Memory
import Mathlib.Data.List.TakeWhile

/-!
# `get_header`

`get_header` copies a line into two buffers as large as the line: what is before
the first colon into the key, and what follows the character after that colon
into the value.  It counts positions in the line and computes from them where to
write.

`splitHeader` says what it does to a line without newline: it refuses the line
when the part that it looks at has a brace, or when the key or the value starts
with a blank, and otherwise returns both.  A line without colon is a key with an
empty value.  The length of the line is converted to `int`, so of a very long
line only a part is looked at (`scanned`).
-/

namespace Vklib.Requests

/-- `INT_MAX`. -/
def INT_MAX : Int := 2 ^ 31 - 1

/-- The conversion of a size to `int`. -/
def toInt (n : Nat) : Int := (n : Int).bmod (2 ^ 32)

/-- The conversion of an `int` to a size. -/
def toSize (i : Int) : Nat := (i % 2 ^ 64).toNat

/-- The loop of `get_header` from position `i` on, with what is left of the
line.  The results are the two buffers, or nothing for a null pointer.  Only
after a colon at the end can the position pass the length of the line, and
`INT_MAX` with it. -/
def get_headerLoop : Bytes → Nat → Mem → Mem → Bool → Outcome Empty (Option (Mem × Mem))
  | [], _, key, value, _ => .ok (some (key, value))
  | c :: rest, i, key, value, key_found =>
    if c = 123 ∨ c = 125 then .ok none
    else if c = 58 ∧ key_found = false then
      match rest with
      | [] => if INT_MAX < i + 2 then .undefined else .ok (some (key, value))
      | _ :: rest => get_headerLoop rest (i + 2) key value true
    else if key_found = false then do
      let key ← key.store i c
      let key ← key.store (i + 1) 0
      get_headerLoop rest (i + 1) key value key_found
    else do
      let key_text ← key.text
      let idx : Int := i - key_text.length - 2
      let value ← value.store idx c
      let value ← value.store (idx + 1) 0
      if c = 10 then .ok (some (key, value))
      else get_headerLoop rest (i + 1) key value key_found

/-- The characters that a key or a value must not start with. -/
def isBlank (c : UInt8) : Bool := c == 32 || c == 9 || c == 10

/-- `get_header`. -/
def get_header (str : Bytes) : Outcome Empty (Option (Bytes × Bytes)) := do
  let key ← (Mem.malloc (str.length + 1)).store 0 0
  let value ← (Mem.malloc (str.length + 1)).store 0 0
  let found ← get_headerLoop (str.take (toInt str.length).toNat) 0 key value false
  match found with
  | none => .ok none
  | some (key, value) => do
    let key ← key.text
    let value ← value.text
    if key.head?.any isBlank ∨ value.head?.any isBlank then .ok none
    else .ok (some (key, value))

/-! ## What it does to a line -/

/-- The part of a line after its first colon and one more character. -/
def valuePart (line : Bytes) : Bytes := (line.dropWhile (· ≠ 58)).drop 2

/-- The part of a line before its first colon. -/
def keyPart (line : Bytes) : Bytes := line.takeWhile (· ≠ 58)

def hasBrace (s : Bytes) : Bool := s.any fun c => c == 123 || c == 125

/-- The part of a line that `get_header` looks at. -/
def scanned (line : Bytes) : Bytes := line.take (toInt line.length).toNat

/-- The colon is the last character that an `int` can count. -/
def Overruns (line : Bytes) : Prop :=
  58 ∈ line ∧ hasBrace (keyPart line) = false ∧ INT_MAX < (keyPart line).length + 2

/-- The key and the value of a line, when it is taken for a header. -/
def splitHeader (line : Bytes) : Option (Bytes × Bytes) :=
  if hasBrace (keyPart line) ∨ hasBrace (valuePart line) ∨ (keyPart line).head?.any isBlank ∨
      (valuePart line).head?.any isBlank then none
  else some (keyPart line, valuePart line)

theorem forall_ne_colon {name : Bytes} (h : 58 ∉ name) : ∀ c ∈ name, decide (c ≠ 58) = true := by
  intro c hc
  have hne : c ≠ 58 := fun h58 => h (h58 ▸ hc)
  simpa using hne

theorem keyPart_append_colon {name : Bytes} (h : 58 ∉ name) (rest : Bytes) :
    keyPart (name ++ 58 :: rest) = name := by
  rw [keyPart, List.takeWhile_append_of_pos (forall_ne_colon h)]
  simp

theorem valuePart_append_colon {name : Bytes} (h : 58 ∉ name) (rest : Bytes) :
    valuePart (name ++ 58 :: rest) = rest.tail := by
  rw [valuePart, List.dropWhile_append_of_pos (forall_ne_colon h)]
  simp

/-- A line without colon is a key. -/
theorem keyPart_of_not_mem {line : Bytes} (h : 58 ∉ line) : keyPart line = line := by
  rw [keyPart, List.takeWhile_eq_self_iff]
  exact forall_ne_colon h

theorem valuePart_of_not_mem {line : Bytes} (h : 58 ∉ line) : valuePart line = [] := by
  rw [valuePart, List.dropWhile_eq_nil_iff.mpr (forall_ne_colon h), List.drop_nil]

/-! ## Steps of the loop -/

section

variable {c : UInt8} {key_text value_text : Bytes} {key value : Mem} {i : Nat}

theorem get_headerLoop_brace {rest : Bytes} (hbrace : c = 123 ∨ c = 125) (key_found : Bool) :
    get_headerLoop (c :: rest) i key value key_found = .ok none := by
  cases rest <;> simp [get_headerLoop, hbrace]

theorem get_headerLoop_colon {rest : Bytes} : get_headerLoop (58 :: rest) i key value false =
    if rest = [] then if INT_MAX < i + 2 then .undefined else .ok (some (key, value))
    else get_headerLoop rest.tail (i + 2) key value true := by
  cases rest <;> simp [get_headerLoop]

/-- A character of the key is appended to it. -/
theorem get_headerLoop_key (rest : Bytes) (value : Mem) (hbrace : ¬ (c = 123 ∨ c = 125))
    (hcolon : c ≠ 58) (hc : c ≠ 0) (hkey : key.Holds key_text)
    (hi : i = key_text.length) (hfits : key_text.length + 1 < key.length) :
    ∃ key', get_headerLoop (c :: rest) i key value false =
        get_headerLoop rest (i + 1) key' value false ∧
      key'.Holds (key_text ++ [c]) ∧ key'.length = key.length := by
  obtain ⟨m₁, m₂, h₁, h₂, hholds, hlength⟩ := Mem.store_append (ε := Empty) hkey hc hfits
  subst hi
  refine ⟨m₂, ?_, hholds, hlength⟩
  cases rest <;> simp [get_headerLoop, hbrace, hcolon, h₁, h₂]

/-- A character of the value is appended to it: the position that the source
computes is the length of the value. -/
theorem get_headerLoop_value (rest : Bytes) (hbrace : ¬ (c = 123 ∨ c = 125)) (hnl : c ≠ 10)
    (hc : c ≠ 0) (hkey : key.Holds key_text) (hvalue : value.Holds value_text)
    (hi : i = key_text.length + 2 + value_text.length)
    (hfits : value_text.length + 1 < value.length) :
    ∃ value', get_headerLoop (c :: rest) i key value true =
        get_headerLoop rest (i + 1) key value' true ∧
      value'.Holds (value_text ++ [c]) ∧ value'.length = value.length := by
  obtain ⟨m₁, m₂, h₁, h₂, hholds, hlength⟩ := Mem.store_append (ε := Empty) hvalue hc hfits
  have hidx : (i : Int) - key_text.length - 2 = value_text.length := by omega
  refine ⟨m₂, ?_, hholds, hlength⟩
  cases rest <;> simp [get_headerLoop, hbrace, hkey.text_eq, hidx, h₁, h₂, hnl]

end

/-! ## The whole loop -/

theorem hasBrace_cons (c : UInt8) (s : Bytes) :
    hasBrace (c :: s) = true ↔ (c = 123 ∨ c = 125) ∨ hasBrace s = true := by
  simp [hasBrace]

/-- The loop over the value. -/
theorem get_headerLoop_values (rest : Bytes) {key_text value_text : Bytes} {key value : Mem}
    {i : Nat} (hline : 10 ∉ rest) (hnul : NulFree rest) (hkey : key.Holds key_text)
    (hvalue : value.Holds value_text) (hi : i = key_text.length + 2 + value_text.length)
    (hfits : value_text.length + rest.length < value.length) :
    if hasBrace rest then get_headerLoop rest i key value true = .ok none
    else ∃ value', get_headerLoop rest i key value true = .ok (some (key, value')) ∧
      value'.Holds (value_text ++ rest) := by
  induction rest generalizing value value_text i with
  | nil => exact ⟨value, by simp [get_headerLoop], by simpa using hvalue⟩
  | cons c rest ih =>
    rw [List.length_cons] at hfits
    by_cases hbrace : c = 123 ∨ c = 125
    · rw [if_pos ((hasBrace_cons c rest).mpr (Or.inl hbrace))]
      exact get_headerLoop_brace hbrace true
    · have hc : c ≠ 0 := fun h0 => hnul (h0 ▸ List.mem_cons_self ..)
      have hnl : c ≠ 10 := fun h0 => hline (h0 ▸ List.mem_cons_self ..)
      obtain ⟨value', hstep, hholds, hlength⟩ :=
        get_headerLoop_value rest hbrace hnl hc hkey hvalue hi (by omega)
      have hrest := ih (fun h => hline (List.mem_cons_of_mem _ h))
        (fun h => hnul (List.mem_cons_of_mem _ h)) hholds (i := i + 1)
        (by rw [List.length_append, List.length_singleton]; omega)
        (by rw [List.length_append, List.length_singleton, hlength]; omega)
      rw [hstep]
      by_cases hmore : hasBrace rest = true
      · rw [if_pos hmore] at hrest
        rw [if_pos ((hasBrace_cons c rest).mpr (Or.inr hmore))]
        exact hrest
      · rw [if_neg hmore] at hrest
        rw [if_neg (by rw [hasBrace_cons]; exact fun h => h.elim hbrace hmore)]
        simpa using hrest

theorem scanned_part (line : Bytes) : scanned line <+: line := by
  unfold scanned
  exact List.take_prefix _ _

theorem scanned_length_le (line : Bytes) : ((scanned line).length : Int) ≤ INT_MAX := by
  have hmod := Int.bmod_lt (x := (line.length : Int)) (m := 2 ^ 32) (by decide)
  unfold scanned toInt INT_MAX
  rw [List.length_take]
  omega

theorem scanned_eq_self {line : Bytes} (h : (line.length : Int) ≤ INT_MAX) :
    scanned line = line := by
  have hint : toInt line.length = line.length := by
    unfold toInt INT_MAX at *
    apply Int.bmod_eq_of_le <;> omega
  rw [scanned, hint, Int.toNat_natCast, List.take_length]

/-- Of a line that is longer, all the bytes that an `int` does not count are
lost. -/
theorem scanned_length_of_gt {line : Bytes} (h : INT_MAX < line.length) :
    (scanned line).length + 2 ^ 31 ≤ line.length := by
  have hmod := Int.bmod_def (line.length : Int) (2 ^ 32)
  unfold INT_MAX at h
  unfold scanned toInt
  rw [hmod, List.length_take]
  omega

/-- The loop from the first colon on. -/
theorem get_headerLoop_from_colon (rest : Bytes) {key_text : Bytes} {key value : Mem}
    (hline : 10 ∉ rest.tail) (hnul : NulFree rest) (hkey : key.Holds key_text)
    (hvalue : value.Holds []) (hfits : rest.length < value.length)
    (hint : (key_text.length + rest.length + 1 : Int) ≤ INT_MAX) :
    if hasBrace rest.tail then
      get_headerLoop (58 :: rest) key_text.length key value false = .ok none
    else if INT_MAX < key_text.length + 2 then
      get_headerLoop (58 :: rest) key_text.length key value false = .undefined
    else ∃ value',
      get_headerLoop (58 :: rest) key_text.length key value false = .ok (some (key, value')) ∧
        value'.Holds rest.tail := by
  rw [get_headerLoop_colon]
  cases rest with
  | nil =>
    rw [if_pos rfl, if_neg (by simp [hasBrace])]
    by_cases hover : INT_MAX < (key_text.length : Int) + 2
    · rw [if_pos hover, if_pos hover]
    · rw [if_neg hover, if_neg hover]
      exact ⟨value, rfl, hvalue⟩
  | cons c rest =>
    rw [List.length_cons] at hfits hint
    have hvalues := get_headerLoop_values rest (i := key_text.length + 2) hline
      (fun h => hnul (List.mem_cons_of_mem _ h)) hkey hvalue (by simp) (by simp; omega)
    rw [if_neg (List.cons_ne_nil c rest), List.tail_cons]
    by_cases hbrace : hasBrace rest = true
    · rw [if_pos hbrace] at hvalues ⊢
      exact hvalues
    · rw [if_neg hbrace] at hvalues ⊢
      rw [if_neg (by omega)]
      simpa using hvalues

/-- The loop over a part of the key. -/
theorem get_headerLoop_key_part (part rest : Bytes) {key_text : Bytes} {key : Mem} (value : Mem)
    (hcolon : 58 ∉ part) (hnul : NulFree part) (hkey : key.Holds key_text)
    (hfits : key_text.length + part.length < key.length) :
    if hasBrace part then
      get_headerLoop (part ++ rest) key_text.length key value false = .ok none
    else ∃ key', get_headerLoop (part ++ rest) key_text.length key value false =
        get_headerLoop rest (key_text.length + part.length) key' value false ∧
      key'.Holds (key_text ++ part) := by
  induction part generalizing key key_text with
  | nil => exact ⟨key, rfl, by simpa using hkey⟩
  | cons c part ih =>
    rw [List.length_cons] at hfits
    rw [List.cons_append]
    by_cases hbrace : c = 123 ∨ c = 125
    · rw [if_pos ((hasBrace_cons c part).mpr (Or.inl hbrace))]
      exact get_headerLoop_brace hbrace false
    have hc : c ≠ 0 := fun h0 => hnul (h0 ▸ List.mem_cons_self ..)
    have hne : c ≠ 58 := fun h58 => hcolon (h58 ▸ List.mem_cons_self ..)
    obtain ⟨key', hstep, hholds, hlength⟩ :=
      get_headerLoop_key (part ++ rest) value hbrace hne hc hkey rfl (by omega)
    have hpart := ih (fun h => hcolon (List.mem_cons_of_mem _ h))
      (fun h => hnul (List.mem_cons_of_mem _ h)) hholds
      (by rw [List.length_append, List.length_singleton, hlength]; omega)
    rw [List.length_append, List.length_singleton] at hpart
    rw [hstep]
    by_cases hmore : hasBrace part = true
    · rw [if_pos hmore] at hpart
      rw [if_pos ((hasBrace_cons c part).mpr (Or.inr hmore))]
      exact hpart
    · rw [if_neg hmore] at hpart
      rw [if_neg (by rw [hasBrace_cons]; exact fun h => h.elim hbrace hmore)]
      obtain ⟨key'', hrun, hholds'⟩ := hpart
      refine ⟨key'', ?_, by simpa using hholds'⟩
      rw [hrun, List.length_cons, Nat.add_assoc, Nat.add_comm 1]

/-- The loop over the key, and over the value when there is a colon. -/
theorem get_headerLoop_keys (rest : Bytes) {key_text : Bytes} {key value : Mem}
    (hline : 10 ∉ valuePart rest) (hnul : NulFree rest) (hkey : key.Holds key_text)
    (hvalue : value.Holds []) (hkeyfits : key_text.length + rest.length < key.length)
    (hvaluefits : rest.length < value.length)
    (hint : (key_text.length + rest.length : Int) ≤ INT_MAX) :
    if hasBrace (keyPart rest) ∨ hasBrace (valuePart rest) then
      get_headerLoop rest key_text.length key value false = .ok none
    else if 58 ∈ rest ∧ INT_MAX < key_text.length + (keyPart rest).length + 2 then
      get_headerLoop rest key_text.length key value false = .undefined
    else ∃ key' value',
      get_headerLoop rest key_text.length key value false = .ok (some (key', value')) ∧
        key'.Holds (key_text ++ keyPart rest) ∧ value'.Holds (valuePart rest) := by
  by_cases hmem : 58 ∈ rest
  · obtain ⟨name, tail, rfl, hcolon⟩ := List.eq_append_cons_of_mem hmem
    rw [nulFree_append] at hnul
    rw [List.length_append, List.length_cons] at hkeyfits hvaluefits hint
    rw [valuePart_append_colon hcolon] at hline ⊢
    rw [keyPart_append_colon hcolon]
    have hpart := get_headerLoop_key_part name (58 :: tail) value hcolon hnul.1 hkey (by omega)
    by_cases hname : hasBrace name = true
    · rw [if_pos hname] at hpart
      rw [if_pos (Or.inl hname)]
      exact hpart
    rw [if_neg hname] at hpart
    obtain ⟨key', hrun, hholds⟩ := hpart
    have htail := get_headerLoop_from_colon tail hline
      (fun h => hnul.2 (List.mem_cons_of_mem _ h)) hholds hvalue (by omega)
      (by rw [List.length_append]; omega)
    rw [hrun]
    rw [List.length_append] at htail
    by_cases hbrace : hasBrace tail.tail = true
    · rw [if_pos hbrace] at htail
      rw [if_pos (Or.inr hbrace)]
      exact htail
    rw [if_neg hbrace] at htail
    rw [if_neg (not_or.mpr ⟨hname, hbrace⟩)]
    by_cases hover : INT_MAX < (key_text.length : Int) + name.length + 2
    · rw [if_pos (by omega)] at htail
      rw [if_pos ⟨hmem, hover⟩]
      exact htail
    · rw [if_neg (by omega)] at htail
      rw [if_neg fun h => hover h.2]
      obtain ⟨value', hloop, hholds'⟩ := htail
      exact ⟨key', value', hloop, hholds, hholds'⟩
  · have hpart := get_headerLoop_key_part rest [] value hmem hnul hkey hkeyfits
    rw [List.append_nil] at hpart
    rw [keyPart_of_not_mem hmem, valuePart_of_not_mem hmem]
    by_cases hbrace : hasBrace rest = true
    · rw [if_pos hbrace] at hpart
      rw [if_pos (Or.inl hbrace)]
      exact hpart
    · rw [if_neg hbrace] at hpart
      rw [if_neg (by simpa [hasBrace] using hbrace), if_neg fun h => hmem h.1]
      obtain ⟨key', hrun, hholds⟩ := hpart
      exact ⟨key', value, by rw [hrun, get_headerLoop], hholds, hvalue⟩

/-- A colon that overruns is the last character, so there is no value. -/
theorem valuePart_of_overruns {line : Bytes} (hlength : (line.length : Int) ≤ INT_MAX)
    (h : INT_MAX < ((keyPart line).length : Int) + 2) : valuePart line = [] := by
  have hsplit := congrArg List.length
    (List.takeWhile_append_dropWhile (p := (· ≠ 58)) (l := line))
  rw [List.length_append] at hsplit
  unfold keyPart at h
  apply List.drop_eq_nil_of_le
  omega

/-- `get_header` on a line of any length. -/
theorem get_header_scanned {line : Bytes} (hline : 10 ∉ valuePart (scanned line))
    (hnul : NulFree line) :
    (Overruns (scanned line) → get_header line = .undefined) ∧
      (¬ Overruns (scanned line) → get_header line = .ok (splitHeader (scanned line))) := by
  obtain ⟨key, hkey, hkeyholds, hkeylength⟩ :=
    Mem.holds_malloc Empty (line.length + 1) (by omega)
  have hprefix := (scanned_part line).length_le
  have hint := scanned_length_le line
  have hnul' : NulFree (scanned line) := fun h => hnul ((scanned_part line).subset h)
  -- the part that is read is a variable before anything is evaluated
  obtain ⟨read, hread⟩ : ∃ read, scanned line = read := ⟨_, rfl⟩
  unfold get_header
  rw [← scanned]
  rw [hread] at hline hprefix hint hnul' ⊢
  simp only [hkey, Outcome.ok_bind]
  have hloop := get_headerLoop_keys read hline hnul' hkeyholds hkeyholds
    (by rw [List.length_nil]; omega) (by omega) (by simpa using hint)
  simp only [List.length_nil, List.nil_append, Nat.cast_zero, zero_add] at hloop
  by_cases hbrace : hasBrace (keyPart read) = true ∨ hasBrace (valuePart read) = true
  · rw [if_pos hbrace] at hloop
    rw [hloop]
    refine ⟨fun hover => ?_, fun _ => ?_⟩
    · have hvalue := hbrace.resolve_left (by rw [hover.2.1]; simp)
      rw [valuePart_of_overruns hint hover.2.2] at hvalue
      simp [hasBrace] at hvalue
    · rw [splitHeader, if_pos (hbrace.imp_right Or.inl)]
      rfl
  · rw [if_neg hbrace] at hloop
    rw [not_or] at hbrace
    have hover : Overruns read ↔ 58 ∈ read ∧ INT_MAX < ((keyPart read).length : Int) + 2 := by
      unfold Overruns
      simp [hbrace.1]
    by_cases hlast : 58 ∈ read ∧ INT_MAX < ((keyPart read).length : Int) + 2
    · rw [if_pos hlast] at hloop
      rw [hloop]
      exact ⟨fun _ => rfl, fun h => absurd (hover.mpr hlast) h⟩
    · rw [if_neg hlast] at hloop
      refine ⟨fun h => absurd (hover.mp h) hlast, fun _ => ?_⟩
      obtain ⟨key', value', hrun, hkey', hvalue'⟩ := hloop
      rw [hrun]
      simp only [Outcome.ok_bind, hkey'.text_eq, hvalue'.text_eq]
      unfold splitHeader
      simp only [hbrace.1, hbrace.2, Bool.false_eq_true, false_or]
      split <;> rfl

/-- `get_header` on a line of a length that fits in an `int`, with room for the
step over the colon. -/
theorem get_header_eq {line : Bytes} (hline : 10 ∉ valuePart line) (hnul : NulFree line)
    (hlength : (line.length : Int) < INT_MAX) : get_header line = .ok (splitHeader line) := by
  have hself : scanned line = line := scanned_eq_self (by omega)
  rw [← hself] at hline
  have hspec := get_header_scanned hline hnul
  rw [hself] at hspec
  apply hspec.2
  intro hover
  have hkey : (keyPart line).length < line.length := by
    by_contra hle
    have heq := (List.takeWhile_prefix (p := (· ≠ (58 : UInt8))) (l := line)).eq_of_length_le
      (Nat.not_lt.mp hle)
    have hne := List.takeWhile_eq_self_iff.mp heq 58 hover.1
    simp at hne
  have hlong := hover.2.2
  omega

end Vklib.Requests
