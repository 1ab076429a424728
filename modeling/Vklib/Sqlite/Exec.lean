import Vklib.Lua.Api

/-!
# Query results of `vklib_sqlite.c`

`sqlite_exec` hands the result table of `sqlite3_get_table` on to Lua.  The
result table is one flat array: the column names, and then the rows one after
the other.  `ResultTable` is that array with its two dimensions, as the
interface of SQLite describes it.  SQLite itself is a parameter, the function
that answers a query with an error message or a result table.

The index arithmetic of the source is done in `int`.  An index that does not fit,
and an index outside the array, are undefined.
-/

namespace Vklib.Sqlite

open Vklib.Lua

/-- `INT_MAX`. -/
def INT_MAX : Nat := 2 ^ 31 - 1

/-- The result of a successful `sqlite3_get_table`.  A null pointer is `none`. -/
structure ResultTable where
  n_rows : Nat
  n_cols : Nat
  db_result : List (Option Bytes)
  length_db_result : db_result.length = (n_rows + 1) * n_cols
  /-- The first row are the names of the columns. -/
  names : ∀ j < n_cols, ∃ s, db_result[j]? = some (some s)
  nulFree : ∀ c ∈ db_result, ∀ s ∈ c, NulFree s

section

variable {DB T P S : Type}

/-- `db_result[idx]`. -/
def readCell (t : ResultTable) (idx : Nat) : Outcome (LState T P S) (Option Bytes) :=
  if INT_MAX < idx then .undefined
  else
    match t.db_result[idx]? with
    | some c => .ok c
    | none => .undefined

/-- The body of the inner loop of `sqlite_exec`: one column of row `i`. -/
def pushColumn (t : ResultTable) (i : Nat) (L : LState T P S) (j : Nat) :
    Outcome (LState T P S) (LState T P S) := do
  let name ← readCell t j
  let L := lua_pushstring L name
  let value ← readCell t (t.n_cols + i * t.n_cols + j)
  let L := lua_pushstring L value
  lua_settable L (-3)

/-- The body of the outer loop: one row. -/
def pushRow (t : ResultTable) (L : LState T P S) (i : Nat) :
    Outcome (LState T P S) (LState T P S) := do
  let L := lua_createtable L
  let L ← (List.range t.n_cols).foldlM (pushColumn t i) L
  lua_rawseti L (-2) ((i : Int) + 1)

/-- `sqlite_exec`, with the number of its results. -/
def sqlite_exec (sqlite3_get_table : DB → Bytes → Except (Option Bytes) ResultTable) (db : DB)
    (query : Bytes) (L : LState T P S) : Outcome (LState T P S) (LState T P S × Nat) :=
  match sqlite3_get_table db (cString query) with
  | .error errmsg => .ok (lua_pushstring (push L .nil) errmsg, 2)
  | .ok t =>
    if t.n_rows = 0 then .ok (push L .nil, 1)
    else if t.n_rows = 1 ∧ t.n_cols = 1 then do
      let value ← readCell t 1
      .ok (lua_pushstring L value, 1)
    else do
      let L ← (List.range t.n_rows).foldlM (pushRow t) (lua_createtable L)
      .ok (L, 1)

/-- What a C function returns to Lua, in order. -/
def results (p : LState T P S × Nat) : List (Val (Opaque T)) := (p.1.stack.take p.2).reverse

end

end Vklib.Sqlite
