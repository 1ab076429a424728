import Vklib.Base.CString
import Vklib.Base.Outcome
import Mathlib.Data.List.Basic

/-!
# Functions of the C library on strings

`strncmp`, `strchr`, `atoi` and `sprintf` on C strings, which are given without
their NUL.  `cutAt` is what a program does that writes a NUL over the first
occurrence of a character.

The lemmas say what they find in a string that is put together from parts
(`cutAt_append`, `strchr_append`), that `atoi` reads what a number is written as
(`atoi_decimal`), and that `sprintf` puts its arguments between the parts of the
format (`sprintf_append`, `sprintf_arg`).
-/

namespace Vklib

/-- `strncmp`.  Only the sign of the result has a meaning. -/
def strncmp (s t : Bytes) (n : Nat) : Int :=
  if s.take n = t.take n then 0 else if s.take n < t.take n then -1 else 1

/-- `strchr`: the position of the first occurrence. -/
def strchr (s : Bytes) (c : UInt8) : Option Nat :=
  if c ∈ s then some (s.takeWhile (· ≠ c)).length else none

/-- The string after a NUL was written over the first occurrence. -/
def cutAt (s : Bytes) (c : UInt8) : Bytes :=
  match strchr s c with
  | some i => s.take i
  | none => s

/-- `isspace` in the C locale. -/
def isspace (c : UInt8) : Bool := c == 32 || (9 ≤ c && c ≤ 13)

/-- `isdigit`. -/
def isdigit (c : UInt8) : Bool := 48 ≤ c && c ≤ 57

/-- The value of decimal digits. -/
def decimalValue (digits : Bytes) : Nat := digits.foldl (fun v c => 10 * v + (c.toNat - 48)) 0

/-- The sign before a number, and what follows it. -/
def signOf : Bytes → Bool × Bytes
  | 45 :: rest => (true, rest)
  | 43 :: rest => (false, rest)
  | s => (false, s)

/-- `atoi`, which is undefined when the value does not fit in an `int`. -/
def atoi (s : Bytes) : Outcome Empty Int :=
  let (negative, rest) := signOf (s.dropWhile isspace)
  let magnitude : Int := decimalValue (rest.takeWhile isdigit)
  let value := if negative then -magnitude else magnitude
  if -2 ^ 31 ≤ value ∧ value < 2 ^ 31 then .ok value else .undefined

/-- `sprintf` with a format of which the only conversions are `%s`, and with an
argument for each. -/
def sprintf : Bytes → List Bytes → Bytes
  | 37 :: 115 :: rest, arg :: args => arg ++ sprintf rest args
  | c :: rest, args => c :: sprintf rest args
  | [], _ => []

/-- A number in decimal digits. -/
def decimal (n : Nat) : Bytes := (Nat.toDigits 10 n).map fun c => c.toNat.toUInt8

/-! ## Searching -/

theorem strncmp_eq_zero_iff {s t : Bytes} {n : Nat} : strncmp s t n = 0 ↔ s.take n = t.take n := by
  unfold strncmp
  split
  · simp_all
  · split <;> simp_all

/-- What starts with a text compares equal to it. -/
theorem strncmp_append {t : Bytes} {n : Nat} (hn : t.length = n) (s : Bytes) :
    strncmp (t ++ s) t n = 0 := by
  rw [strncmp_eq_zero_iff, ← hn]
  simp

theorem exists_append_of_strncmp {s t : Bytes} {n : Nat} (h : strncmp s t n = 0) (hn : t.length = n) :
    ∃ rest, s = t ++ rest := by
  rw [strncmp_eq_zero_iff, ← hn, List.take_length] at h
  refine ⟨s.drop t.length, ?_⟩
  nth_rewrite 1 [← List.take_append_drop t.length s]
  rw [h]

theorem forall_ne_of_not_mem {c : UInt8} {s : Bytes} (h : c ∉ s) :
    ∀ d ∈ s, decide (d ≠ c) = true := by
  intro d hd
  have hne : d ≠ c := fun heq => h (heq ▸ hd)
  simpa using hne

theorem strchr_eq_none {c : UInt8} {s : Bytes} (h : c ∉ s) : strchr s c = none := if_neg h

/-- The first occurrence is not in the part that has none. -/
theorem strchr_append {c : UInt8} {s : Bytes} (h : c ∉ s) (rest : Bytes) :
    strchr (s ++ c :: rest) c = some s.length := by
  rw [strchr, if_pos (by simp), List.takeWhile_append_of_pos (forall_ne_of_not_mem h)]
  simp

theorem cutAt_eq_self {c : UInt8} {s : Bytes} (h : c ∉ s) : cutAt s c = s := by
  rw [cutAt, strchr_eq_none h]

theorem cutAt_append {c : UInt8} {s : Bytes} (h : c ∉ s) (rest : Bytes) :
    cutAt (s ++ c :: rest) c = s := by
  rw [cutAt, strchr_append h]
  simp

/-- A part without the character is not cut. -/
theorem cutAt_append_left {c : UInt8} {s : Bytes} (h : c ∉ s) (t : Bytes) :
    cutAt (s ++ t) c = s ++ cutAt t c := by
  by_cases ht : c ∈ t
  · obtain ⟨before, after, rfl, hbefore⟩ := List.eq_append_cons_of_mem ht
    have hnot : c ∉ s ++ before := fun hmem => (List.mem_append.mp hmem).elim h hbefore
    rw [← List.append_assoc, cutAt_append hnot, cutAt_append hbefore]
  · have hnot : c ∉ s ++ t := fun hmem => (List.mem_append.mp hmem).elim h ht
    rw [cutAt_eq_self hnot, cutAt_eq_self ht]

/-! ## Formats -/

theorem sprintf_nil (args : List Bytes) : sprintf [] args = [] := by
  cases args <;> rfl

theorem sprintf_arg (rest arg : Bytes) (args : List Bytes) :
    sprintf (37 :: 115 :: rest) (arg :: args) = arg ++ sprintf rest args := rfl

/-- A part of the format without conversions is copied. -/
theorem sprintf_append {s : Bytes} (h : 37 ∉ s) (t : Bytes) (args : List Bytes) :
    sprintf (s ++ t) args = s ++ sprintf t args := by
  induction s with
  | nil => rfl
  | cons c s ih =>
    have hc : c ≠ 37 := fun heq => h (heq ▸ List.mem_cons_self ..)
    rw [List.cons_append, sprintf, ih fun hmem => h (List.mem_cons_of_mem _ hmem),
      List.cons_append]
    intro rest arg args' _ hpercent _
    exact hc hpercent

/-! ## Numbers -/

/-- The bytes of digits are digits with the same value. -/
theorem isdigit_toUInt8 {d : Char} (h : d.isDigit = true) :
    isdigit d.toNat.toUInt8 = true ∧ d.toNat.toUInt8.toNat = d.toNat := by
  have hrange : 48 ≤ d.toNat ∧ d.toNat ≤ 57 := Char.isDigit_iff_toNat.mp h
  have hvalue : d.toNat.toUInt8.toNat = d.toNat := by
    rw [Nat.toUInt8_eq, UInt8.toNat_ofNat']
    omega
  refine ⟨?_, hvalue⟩
  simp only [isdigit, Bool.and_eq_true, decide_eq_true_eq, UInt8.le_iff_toNat_le, hvalue]
  exact hrange

theorem isdigit_of_mem_decimal {n : Nat} {c : UInt8} (h : c ∈ decimal n) : isdigit c = true := by
  obtain ⟨d, hd, rfl⟩ := List.mem_map.mp h
  exact (isdigit_toUInt8 (Nat.isDigit_of_mem_toDigits (by decide) (by decide) hd)).1

theorem decimal_ne_nil (n : Nat) : decimal n ≠ [] := by
  simp [decimal, Nat.toDigits_ne_nil]

theorem decimalValue_decimal (n : Nat) : decimalValue (decimal n) = n := by
  have hdigits : ∀ d ∈ Nat.toDigits 10 n, d.toNat.toUInt8.toNat = d.toNat := fun d hd =>
    (isdigit_toUInt8 (Nat.isDigit_of_mem_toDigits (by decide) (by decide) hd)).2
  have hfold : decimalValue (decimal n) = Nat.ofDigitChars 10 (Nat.toDigits 10 n) 0 := by
    unfold decimalValue decimal
    rw [List.foldl_map, Nat.ofDigitChars_eq_foldl]
    apply List.foldl_ext
    intro v d hd
    rw [hdigits d hd]
    rfl
  rw [hfold, Nat.ofDigitChars_ten_toDigits]

/-- A digit is neither a blank nor a sign. -/
theorem signOf_of_isdigit {c : UInt8} (h : isdigit c = true) (rest : Bytes) :
    signOf ((c :: rest).dropWhile isspace) = (false, c :: rest) := by
  have hrange : 48 ≤ c.toNat ∧ c.toNat ≤ 57 := by
    simpa [isdigit, UInt8.le_iff_toNat_le] using h
  have hspace : isspace c = false := by
    rw [Bool.eq_false_iff]
    intro hblank
    simp only [isspace, Bool.or_eq_true, beq_iff_eq, Bool.and_eq_true, decide_eq_true_eq,
      UInt8.le_iff_toNat_le, ← UInt8.toNat_inj] at hblank
    simp only [UInt8.reduceToNat] at hblank
    omega
  rw [List.dropWhile_cons_of_neg (by simp [hspace])]
  unfold signOf
  split
  · simp_all
  · simp_all
  · rfl

/-- `atoi` reads a number back. -/
theorem atoi_decimal {n : Nat} (h : n < 2 ^ 31) : atoi (decimal n) = .ok n := by
  have hdigits : (decimal n).takeWhile isdigit = decimal n := by
    rw [List.takeWhile_eq_self_iff]
    exact fun c hc => isdigit_of_mem_decimal hc
  have hsign : signOf ((decimal n).dropWhile isspace) = (false, decimal n) := by
    obtain ⟨c, rest, hcons⟩ := List.exists_cons_of_ne_nil (decimal_ne_nil n)
    rw [hcons]
    exact signOf_of_isdigit (isdigit_of_mem_decimal (hcons ▸ List.mem_cons_self ..)) rest
  unfold atoi
  rw [hsign]
  simp only [hdigits, decimalValue_decimal, Bool.false_eq_true, if_false]
  rw [if_pos (by omega)]

end Vklib
