import Vklib.Base.CString

/-!
# Machine numbers

The doubles of C are modelled by their IEEE 754 bit pattern, so that storing
and loading one is exact.  `F64.toInteger?` is the conversion that Lua applies
before it treats a float as an integer: the float has a value, the value is an
integer, and the integer fits in 64 bits.

`toInt32` and its companions are the implicit conversions of C between
integer types, which keep the value modulo the width.
-/

namespace Vklib

/-- A double, given by its bit pattern. -/
structure F64 where
  bits : UInt64
  deriving DecidableEq, Repr

namespace F64

/-- The biased exponent. -/
def exponent (x : F64) : Nat := (x.bits.toNat / 2 ^ 52) % 2 ^ 11

/-- The stored fraction. -/
def fraction (x : F64) : Nat := x.bits.toNat % 2 ^ 52

/-- The sign bit. -/
def negative (x : F64) : Bool := decide (2 ^ 63 ≤ x.bits.toNat)

/-- The bit patterns without a value: exponent all ones, fraction not zero. -/
def isNaN (x : F64) : Bool := x.exponent == 2047 && x.fraction != 0

/-- The significand with its hidden bit. -/
def significand (x : F64) : Nat :=
  if x.exponent = 0 then x.fraction else x.fraction + 2 ^ 52

/-- The magnitude of the value when it is an integer.  The value is
`significand * 2 ^ (e - 1075)` with `e` the exponent, counted from `1` for a
subnormal. -/
def magnitude? (x : F64) : Option Nat :=
  let e := max x.exponent 1
  if x.exponent = 2047 then none
  else if 1075 ≤ e then some (x.significand * 2 ^ (e - 1075))
  else if x.significand % 2 ^ (1075 - e) = 0 then some (x.significand / 2 ^ (1075 - e))
  else none

/-- `luaV_flttointeger` in the mode that accepts exact values only, followed
by the range test of `lua_numbertointeger`. -/
def toInteger? (x : F64) : Option Int64 :=
  match x.magnitude? with
  | none => none
  | some m =>
    let i : Int := if x.negative then -(m : Int) else m
    if -2 ^ 63 ≤ i ∧ i < 2 ^ 63 then some (Int64.ofInt i) else none

/-- Drop `k` low bits, rounding to the nearest and a tie to even. -/
def roundShift (m k : Nat) : Nat :=
  let q := m / 2 ^ k
  let r := 2 * (m % 2 ^ k)
  if 2 ^ k < r ∨ (r = 2 ^ k ∧ q % 2 = 1) then q + 1 else q

/-- The conversion of a 64-bit integer to a double. -/
def ofInt (i : Int64) : F64 :=
  let m := i.toInt.natAbs
  let e := Nat.log2 m
  let s := if e ≤ 52 then m * 2 ^ (52 - e) else roundShift m (e - 52)
  -- a significand of `2 ^ 53` carries into the exponent by itself
  let magnitude := if m = 0 then 0 else (e + 1022) * 2 ^ 52 + s
  ⟨UInt64.ofNat ((if i.toInt < 0 then 2 ^ 63 else 0) + magnitude)⟩

example : (ofInt 3).toInteger? = some 3 := by decide

end F64

/-! ## Conversions between integer types -/

/-- `isInt32` of the source: the integer fits in 32 bits. -/
def isInt32 (i : Int64) : Bool := decide (-2 ^ 31 ≤ i.toInt ∧ i.toInt ≤ 2 ^ 31 - 1)

/-- An integer that passes `isInt32` survives the narrowing. -/
theorem toInt32_toInt64_of_isInt32 {i : Int64} (h : isInt32 i = true) :
    i.toInt32.toInt64 = i := by
  have hrange : -2 ^ 31 ≤ i.toInt ∧ i.toInt ≤ 2 ^ 31 - 1 := by simpa [isInt32] using h
  apply Int64.toInt_inj.mp
  rw [Int32.toInt_toInt64, Int64.toInt_toInt32]
  apply Int.bmod_eq_of_le <;> omega

/-- A widened 32-bit integer passes `isInt32`. -/
theorem isInt32_toInt64 (i : Int32) : isInt32 i.toInt64 = true := by
  have hlo := Int32.le_toInt i
  have hhi := Int32.toInt_lt i
  simp only [isInt32, Int32.toInt_toInt64, decide_eq_true_eq]
  omega

/-- `uint32_t` addition. -/
def add32 (a b : Nat) : Nat := (a + b) % 2 ^ 32

/-- `uint32_t` subtraction. -/
def sub32 (a b : Nat) : Nat := (a + (2 ^ 32 - b % 2 ^ 32)) % 2 ^ 32

end Vklib
