import Vklib.Lua.Value

/-!
# Conversions of Lua values to numbers

`lua_tointegerx` accepts an integer, a float with an exact integer value and a
string that reads as either.  The integer reading of a string, `l_str2int`, is
given in full.  The float reading goes through `strtod` of the C library and
is a parameter, `l_str2d`, of every definition that needs it.
-/

namespace Vklib.Lua

variable {U : Type}

/-- `lisspace`. -/
def isSpace (c : UInt8) : Bool := c == 32 || (9 ≤ c && c ≤ 13)

/-- `lisdigit`. -/
def isDigit (c : UInt8) : Bool := 48 ≤ c && c ≤ 57

/-- `luaO_hexavalue` of a hexadecimal digit, none for any other byte. -/
def hexaValue? (c : UInt8) : Option Nat :=
  if isDigit c then some (c.toNat - 48)
  else if 97 ≤ c && c ≤ 102 then some (c.toNat - 87)
  else if 65 ≤ c && c ≤ 70 then some (c.toNat - 55)
  else none

/-- The decimal loop of `l_str2int`: none on overflow, and otherwise the value
and the rest of the text.  The bound is `MAXBY10` and the last digit
`MAXLASTD + neg`. -/
def decimalLoop (neg : Bool) : Nat → Bytes → Option (Nat × Bytes)
  | a, [] => some (a, [])
  | a, c :: rest =>
    if isDigit c then
      let d := c.toNat - 48
      if 922337203685477580 ≤ a ∧
          (922337203685477580 < a ∨ 7 + (if neg then 1 else 0) < d) then none
      else decimalLoop neg (a * 10 + d) rest
    else some (a, c :: rest)

/-- The hexadecimal loop of `l_str2int`, which wraps around. -/
def hexLoop : Nat → Bytes → Nat × Bytes
  | a, [] => (a, [])
  | a, c :: rest =>
    match hexaValue? c with
    | some d => hexLoop ((a * 16 + d) % 2 ^ 64) rest
    | none => (a, c :: rest)

/-- `l_str2int` on a C string. -/
def l_str2int (s : Bytes) : Option Int64 :=
  let s := s.dropWhile isSpace
  let (neg, s) : Bool × Bytes :=
    match s with
    | 45 :: rest => (true, rest)
    | 43 :: rest => (false, rest)
    | _ => (false, s)
  let scanned : Option (Nat × Bytes × Bytes) :=
    match s with
    | 48 :: x :: rest =>
      if x = 120 ∨ x = 88 then some ((hexLoop 0 rest).1, rest, (hexLoop 0 rest).2)
      else (decimalLoop neg 0 s).map (fun p => (p.1, s, p.2))
    | _ => (decimalLoop neg 0 s).map (fun p => (p.1, s, p.2))
  match scanned with
  | none => none
  | some (a, start, rest) =>
    -- `empty` of the source: no digit was consumed
    if rest.length = start.length ∨ rest.dropWhile isSpace ≠ [] then none
    else some (Int64.ofInt (if neg then -(a : Int) else a))

/-- `luaV_tointeger` on a string: the whole counted string must be a numeral,
so a string with a NUL never is one. -/
def stringToInteger (l_str2d : Bytes → Option F64) (s : Bytes) : Option Int64 :=
  if NulFree s then
    match l_str2int s with
    | some i => some i
    | none => (l_str2d s).bind F64.toInteger?
  else none

/-- `lua_tointegerx`. -/
def tointegerx (l_str2d : Bytes → Option F64) : Val U → Option Int64
  | .int i => some i
  | .flt x => x.toInteger?
  | .str s => stringToInteger l_str2d s
  | _ => none

/-- `lua_tonumberx`. -/
def tonumberx (l_str2d : Bytes → Option F64) : Val U → Option F64
  | .int i => some (F64.ofInt i)
  | .flt x => some x
  | .str s =>
    if NulFree s then
      match l_str2int s with
      | some i => some (F64.ofInt i)
      | none => l_str2d s
    else none
  | _ => none

example : l_str2int (bytes " -42 ") = some (-42) := by decide

example : l_str2int (bytes "0x10") = some 16 := by decide

example : l_str2int (bytes "9223372036854775808") = none := by decide

end Vklib.Lua
