import Mathlib.Algebra.Order.Ring.Int
import Mathlib.Data.List.TakeWhile

/-!
# Counted strings and C strings

A Lua string is counted: it may hold any bytes, NUL included.  A C function
that receives its address reads a C string, which ends at the first NUL byte.
`cString` is that reading.  `bytes` spells an ASCII literal of the source.
-/

namespace Vklib

/-- A counted string. -/
abbrev Bytes := List UInt8

/-- The bytes of an ASCII literal. -/
def bytes (s : String) : Bytes := s.toList.map (fun c => c.toNat.toUInt8)

/-- No byte of the string is NUL. -/
def NulFree (s : Bytes) : Prop := (0 : UInt8) ∉ s

instance (s : Bytes) : Decidable (NulFree s) := inferInstanceAs (Decidable (_ ∉ _))

/-- What a C function reads at the address of a counted string: the bytes
below the first NUL.  A Lua string is followed by a NUL of its own, so the
reading never runs past it. -/
def cString (s : Bytes) : Bytes := s.takeWhile (· ≠ 0)

@[simp] theorem cString_nil : cString [] = [] := rfl

/-- A C string has no NUL. -/
theorem nulFree_cString (s : Bytes) : NulFree (cString s) := by
  intro hmem
  have hne : ((0 : UInt8) ≠ 0) := by simpa using List.mem_takeWhile_imp hmem
  exact hne rfl

theorem length_cString_le (s : Bytes) : (cString s).length ≤ s.length :=
  (List.takeWhile_prefix _).length_le

/-- A counted string without NUL is read in full. -/
theorem cString_eq_self {s : Bytes} (h : NulFree s) : cString s = s := by
  rw [cString, List.takeWhile_eq_self_iff]
  intro c hc
  have hne : c ≠ 0 := fun h0 => h (h0 ▸ hc)
  simpa using hne

theorem cString_eq_self_iff {s : Bytes} : cString s = s ↔ NulFree s :=
  ⟨fun h => h ▸ nulFree_cString s, cString_eq_self⟩

/-- What follows the first NUL does not matter. -/
theorem cString_append_nul {s : Bytes} (h : NulFree s) (junk : Bytes) :
    cString (s ++ 0 :: junk) = s := by
  have hself : s.takeWhile (· ≠ 0) = s := cString_eq_self h
  rw [cString, List.takeWhile_append, hself]
  simp

/-- A string with a NUL is its reading, the NUL, and more. -/
theorem exists_eq_cString_append {s : Bytes} (h : 0 ∈ s) : ∃ rest, s = cString s ++ 0 :: rest := by
  have hsplit := List.takeWhile_append_dropWhile (p := fun c => decide (c ≠ 0)) (l := s)
  cases hrest : s.dropWhile fun c => decide (c ≠ 0) with
  | nil =>
    have hall := List.dropWhile_eq_nil_iff.mp hrest 0 h
    simp at hall
  | cons c rest =>
    have hc := List.head_dropWhile_not (fun c => decide (c ≠ 0)) (l := s) (by rw [hrest]; simp)
    simp only [hrest, List.head_cons] at hc
    have hzero : c = 0 := by simpa using hc
    rw [hrest, hzero] at hsplit
    exact ⟨rest, hsplit.symm⟩

theorem nulFree_append {s t : Bytes} : NulFree (s ++ t) ↔ NulFree s ∧ NulFree t := by
  simp [NulFree, not_or]

end Vklib
