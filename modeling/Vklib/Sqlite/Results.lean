import Vklib.Sqlite.Exec

/-!
# What a script sees of a query result

A result table with rows is turned into a table of rows, and a row into a table
from column names to cells.  `rowTable` and `resultTable` are these tables, and
`sqlite_exec_rows` says that the loops build them.

Two things go wrong.  A result with one cell is handed over as that cell, and a
null cell is nil, which is also the answer when there are no rows
(`sqlite_exec_nil_iff`).  And a name that two columns have is one key of the row,
so the later column takes the place of the earlier one
(`sqlite_exec_lossless_iff`).
-/

namespace Vklib.Sqlite

open Vklib.Lua

namespace ResultTable

variable (t : ResultTable)

/-- The name of column `j`. -/
def name (j : Nat) : Bytes := (t.db_result[j]?).join.getD []

/-- The cell of row `i` and column `j`. -/
def cell (i j : Nat) : Option Bytes := (t.db_result[t.n_cols + i * t.n_cols + j]?).join

/-- Every index of the array is an `int`. -/
def Indexed : Prop := (t.n_rows + 1) * t.n_cols ≤ INT_MAX + 1

instance : Decidable t.Indexed := inferInstanceAs (Decidable (_ ≤ _))

theorem index_lt {i j : Nat} (hi : i < t.n_rows) (hj : j < t.n_cols) :
    t.n_cols + i * t.n_cols + j < t.db_result.length := by
  have hrow : (i + 1) * t.n_cols ≤ t.n_rows * t.n_cols := Nat.mul_le_mul_right _ hi
  rw [t.length_db_result, Nat.add_mul, Nat.one_mul]
  rw [Nat.add_mul, Nat.one_mul] at hrow
  omega

end ResultTable

/-- The Lua value of a cell. -/
def cellValue {U : Type} : Option Bytes → Val U
  | some s => .str s
  | none => .nil

section

variable {DB T P S : Type} {t : ResultTable}

theorem lua_pushstring_eq (L : LState T P S) (c : Option Bytes) :
    lua_pushstring L c = push L (cellValue c) := by
  cases c <;> rfl

theorem readCell_eq (hidx : t.Indexed) {idx : Nat} (hlt : idx < t.db_result.length) :
    (readCell t idx : Outcome (LState T P S) _) = .ok (t.db_result[idx]?).join := by
  have hint : ¬ INT_MAX < idx := by
    have hlen := t.length_db_result
    unfold ResultTable.Indexed at hidx
    omega
  rw [readCell, if_neg hint, List.getElem?_eq_getElem hlt]
  rfl

theorem readCell_name (hidx : t.Indexed) {j : Nat} (hj : j < t.n_cols) :
    (readCell t j : Outcome (LState T P S) _) = .ok (some (t.name j)) := by
  obtain ⟨s, hs⟩ := t.names j hj
  have hlt : j < t.db_result.length := (List.getElem?_eq_some_iff.mp hs).1
  rw [readCell_eq hidx hlt, ResultTable.name, hs]
  rfl

/-! ## Rows -/

/-- A row after its first `k` columns. -/
def rowTable (t : ResultTable) (i k : Nat) : Table (Opaque T) :=
  (List.range k).foldl (fun row j => row.rawset (.str (t.name j)) (cellValue (t.cell i j)))
    Table.empty

theorem rowTable_succ (t : ResultTable) (i k : Nat) :
    (rowTable t i (k + 1) : Table (Opaque T)) =
      (rowTable t i k).rawset (.str (t.name k)) (cellValue (t.cell i k)) := by
  rw [rowTable, List.range_succ, List.foldl_append]
  rfl

theorem pushColumn_eq (hidx : t.Indexed) {i j : Nat} (hi : i < t.n_rows) (hj : j < t.n_cols)
    {L : LState T P S} {row : Ref} {s : List (Val (Opaque T))}
    (hstack : L.stack = .table row :: s) :
    pushColumn t i L j =
      .ok { L with
        heap := L.heap.set row
          ((L.heap.get row).rawset (.str (t.name j)) (cellValue (t.cell i j))) } := by
  have hcell := readCell_eq (T := T) (P := P) (S := S) hidx (t.index_lt hi hj)
  rw [pushColumn, readCell_name hidx hj, Outcome.ok_bind, hcell, Outcome.ok_bind]
  simp only [lua_pushstring_eq, push, lua_settable, hstack, cellValue, index2value_third,
    ResultTable.cell]

/-- The inner loop fills the row on top of the stack. -/
theorem pushColumns_eq (hidx : t.Indexed) {i : Nat} (hi : i < t.n_rows) {L : LState T P S}
    {s : List (Val (Opaque T))} {h : Heap (Opaque T)}
    (hstack : L.stack = .table h.length :: s) (hheap : L.heap = h ++ [Table.empty]) (k : Nat)
    (hk : k ≤ t.n_cols) :
    (List.range k).foldlM (pushColumn t i) L =
      .ok { L with heap := h ++ [rowTable t i k] } := by
  induction k with
  | zero =>
    rw [rowTable, List.range_zero, List.foldl_nil, ← hheap]
    rfl
  | succ k ih =>
    rw [Outcome.foldlM_range_succ, ih (by omega), Outcome.ok_bind,
      pushColumn_eq (L := { L with heap := h ++ [rowTable t i k] }) hidx hi (by omega) hstack]
    simp only [Heap.get_append_length, rowTable_succ, List.set_append_right _ _ (Nat.le_refl _),
      Nat.sub_self, List.set_cons_zero]

/-! ## The table of rows -/

/-- The result after its first `n` rows.  The rows are the tables from `first`
on. -/
def resultTable (first n : Nat) : Table (Opaque T) :=
  (List.range n).foldl
    (fun result (i : Nat) => result.rawset (.int ((i : Int) + 1)) (.table (first + i))) Table.empty

theorem resultTable_succ (first n : Nat) :
    (resultTable first (n + 1) : Table (Opaque T)) =
      (resultTable first n).rawset (.int ((n : Int) + 1)) (.table (first + n)) := by
  rw [resultTable, List.range_succ, List.foldl_append]
  rfl

/-- The heap after `n` rows: the result, and the rows behind it. -/
def resultHeap (t : ResultTable) (h : Heap (Opaque T)) (n : Nat) : Heap (Opaque T) :=
  h ++ resultTable (h.length + 1) n :: (List.range n).map fun i => rowTable t i t.n_cols

theorem length_resultHeap (t : ResultTable) (h : Heap (Opaque T)) (n : Nat) :
    (resultHeap t h n).length = h.length + 1 + n := by
  simp [resultHeap]
  omega

theorem resultHeap_get_result (t : ResultTable) (h : Heap (Opaque T)) (n : Nat) :
    (resultHeap t h n).get h.length = resultTable (h.length + 1) n := by
  simp [resultHeap, Heap.get]

theorem resultHeap_get_row (t : ResultTable) (h : Heap (Opaque T)) {n i : Nat} (hi : i < n) :
    (resultHeap t h n).get (h.length + 1 + i) = rowTable t i t.n_cols := by
  have hindex : h.length + 1 + i - h.length = i + 1 := by omega
  rw [resultHeap, Heap.get, List.getElem?_append_right (by omega), hindex,
    List.getElem?_cons_succ, List.getElem?_map, List.getElem?_range hi]
  rfl

theorem resultHeap_succ (t : ResultTable) (h : Heap (Opaque T)) (n : Nat) :
    (resultHeap t h n ++ [rowTable t n t.n_cols]).set h.length
        ((resultTable (h.length + 1) n).rawset (.int ((n : Int) + 1)) (.table (h.length + 1 + n))) =
      resultHeap t h (n + 1) := by
  simp only [resultHeap, List.append_assoc, List.cons_append, Nat.sub_self, List.set_cons_zero,
    List.set_append_right _ _ (Nat.le_refl _), resultTable_succ, List.range_succ, List.map_append,
    List.map_cons, List.map_nil]

theorem pushRow_eq (hidx : t.Indexed) (L : LState T P S) {n : Nat} (hn : n < t.n_rows) :
    pushRow t { L with stack := .table L.heap.length :: L.stack, heap := resultHeap t L.heap n } n =
      .ok { L with
        stack := .table L.heap.length :: L.stack, heap := resultHeap t L.heap (n + 1) } := by
  rw [pushRow]
  simp only [lua_createtable]
  rw [pushColumns_eq hidx hn rfl rfl _ (Nat.le_refl _), Outcome.ok_bind]
  have hresult : Heap.get (resultHeap t L.heap n ++ [rowTable t n t.n_cols]) L.heap.length =
      resultTable (L.heap.length + 1) n := by
    have hlt : L.heap.length < (resultHeap t L.heap n).length := by
      rw [length_resultHeap]
      omega
    rw [Heap.get, List.getElem?_append_left hlt]
    exact resultHeap_get_result t L.heap n
  simp only [lua_rawseti, index2value_second, hresult, length_resultHeap, resultHeap_succ]

/-- The outer loop. -/
theorem pushRows_eq (hidx : t.Indexed) (L : LState T P S) (n : Nat) (hn : n ≤ t.n_rows) :
    (List.range n).foldlM (pushRow t) (lua_createtable L) =
      .ok { L with
        stack := .table L.heap.length :: L.stack, heap := resultHeap t L.heap n } := by
  induction n with
  | zero => rfl
  | succ n ih =>
    rw [Outcome.foldlM_range_succ, ih (by omega), Outcome.ok_bind, pushRow_eq hidx L (by omega)]

/-! ## What the tables hold -/

theorem cellValue_injective {U : Type} : Function.Injective (cellValue : Option Bytes → Val U) := by
  intro c c' h
  cases c <;> cases c' <;> simp_all [cellValue]

@[simp] theorem metatable_rowTable (t : ResultTable) (i k : Nat) :
    (rowTable t i k : Table (Opaque T)).metatable = none := by
  induction k with
  | zero => rfl
  | succ k ih => rw [rowTable_succ, Table.metatable_rawset, ih]

/-- A row has the cells of its columns under their names when equal names have
equal cells. -/
theorem rowTable_get_name {i k : Nat}
    (hsame : ∀ j < k, ∀ j' < k, t.name j = t.name j' → t.cell i j = t.cell i j')
    {j : Nat} (hj : j < k) :
    (rowTable t i k : Table (Opaque T)).get (.str (t.name j)) = cellValue (t.cell i j) := by
  induction k with
  | zero => omega
  | succ k ih =>
    rw [rowTable_succ, Table.get_rawset]
    by_cases hname : t.name j = t.name k
    · rw [if_pos (by rw [hname]), hsame j hj k (by omega) hname]
    · have hne : j ≠ k := fun h => hname (by rw [h])
      rw [if_neg (by simpa using hname)]
      exact ih (fun j hj j' hj' => hsame j (by omega) j' (by omega)) (by omega)

/-- The rows are under 1 to `n`. -/
theorem resultTable_get_row (first : Nat) {n i : Nat} (hi : i < n) :
    (resultTable first n : Table (Opaque T)).get (.int ((i : Int) + 1)) = .table (first + i) := by
  induction n with
  | zero => omega
  | succ n ih =>
    rw [resultTable_succ, Table.get_rawset]
    by_cases hin : i = n
    · rw [if_pos (by rw [hin]), hin]
    · rw [if_neg (by simpa using hin)]
      exact ih (by omega)

/-- Nothing is under another key. -/
theorem resultTable_get_other (first n : Nat) {k : Key}
    (hk : ∀ i < n, k ≠ .int (((i : Nat) : Int) + 1)) :
    (resultTable first n : Table (Opaque T)).get k = .nil := by
  induction n with
  | zero => rfl
  | succ n ih =>
    rw [resultTable_succ, Table.get_rawset, if_neg (hk n (by omega))]
    exact ih fun i hi => hk i (by omega)

/-! ## Indices -/

theorem le_of_readCell {idx : Nat} {c : Option Bytes}
    (h : (readCell t idx : Outcome (LState T P S) _) = .ok c) : idx ≤ INT_MAX := by
  by_contra hgt
  rw [readCell, if_pos (by omega)] at h
  simp at h

/-- The loops reach the last index. -/
theorem indexed_of_pushRows {L L' : LState T P S} (hrows : 0 < t.n_rows)
    (h : (List.range t.n_rows).foldlM (pushRow t) L = .ok L') : t.Indexed := by
  rcases Nat.eq_zero_or_pos t.n_cols with hcols | hcols
  · simp [ResultTable.Indexed, hcols]
  obtain ⟨r, hr⟩ := Nat.exists_eq_add_of_lt hrows
  obtain ⟨L₁, L₂, hrow⟩ :=
    Outcome.step_of_foldlM_eq_ok h (List.mem_range.mpr (show r < t.n_rows by omega))
  rw [pushRow, Outcome.bind_eq_ok_iff] at hrow
  obtain ⟨L₃, hcolumns, -⟩ := hrow
  obtain ⟨L₄, L₅, hcolumn⟩ :=
    Outcome.step_of_foldlM_eq_ok hcolumns (List.mem_range.mpr (Nat.sub_one_lt_of_lt hcols))
  simp only [pushColumn, Outcome.bind_eq_ok_iff] at hcolumn
  obtain ⟨-, -, c, hread, -⟩ := hcolumn
  have hle := le_of_readCell hread
  have hsize : (t.n_rows + 1) * t.n_cols = t.n_cols + r * t.n_cols + t.n_cols := by
    rw [hr, Nat.zero_add, Nat.add_mul, Nat.add_mul, Nat.one_mul]
    omega
  unfold ResultTable.Indexed
  omega

/-! ## Emptiness -/

/-- A query that succeeds gives nil exactly when it has no rows, unless its result
is a single null. -/
theorem sqlite_exec_nil_iff {sqlite3_get_table : DB → Bytes → Except (Option Bytes) ResultTable}
    {db : DB} {query : Bytes} (hok : sqlite3_get_table db (cString query) = .ok t)
    (L : LState T P S) :
    (∃ p, sqlite_exec sqlite3_get_table db query L = .ok p ∧
        ((results p).head? = some .nil ↔ t.n_rows = 0)) ↔
      (t.n_rows = 1 ∧ t.n_cols = 1 → t.cell 0 0 ≠ none) ∧ (0 < t.n_rows → t.Indexed) := by
  rw [sqlite_exec, hok]
  simp only []
  by_cases hrows : t.n_rows = 0
  · simp [hrows, results, push]
  rw [if_neg hrows]
  by_cases hone : t.n_rows = 1 ∧ t.n_cols = 1
  · have hidx : t.Indexed := by
      simp [ResultTable.Indexed, hone, INT_MAX]
    have hlen : 1 < t.db_result.length := by simp [t.length_db_result, hone]
    have hcell : t.cell 0 0 = (t.db_result[1]?).join := by simp [ResultTable.cell, hone.2]
    rw [if_pos hone, readCell_eq hidx hlen, ← hcell]
    cases t.cell 0 0 <;> simp [results, lua_pushstring, push, hone, hidx]
  · rw [if_neg hone]
    constructor
    · rintro ⟨p, hrun, -⟩
      obtain ⟨L', hloop, -⟩ := Outcome.bind_eq_ok_iff.mp hrun
      exact ⟨fun h => absurd h hone, fun hpos => indexed_of_pushRows hpos hloop⟩
    · rintro ⟨-, hidx⟩
      rw [pushRows_eq (hidx (by omega)) L _ (Nat.le_refl _)]
      exact ⟨_, rfl, by simp [results, hrows]⟩

/-- No values, no tables. -/
def blank : LState Unit Unit Unit := { stack := [], heap := [], objects := [], host := () }

/-- A result with one column `n` and one row. -/
def oneCell (c : Option Bytes) (hc : ∀ s ∈ c, NulFree s) : ResultTable where
  n_rows := 1
  n_cols := 1
  db_result := [some (bytes "n"), c]
  length_db_result := rfl
  names := by
    intro j hj
    obtain rfl : j = 0 := by omega
    exact ⟨_, rfl⟩
  nulFree := by
    rintro c' hmem s hs
    rcases List.mem_cons.mp hmem with rfl | hmem
    · obtain rfl : bytes "n" = s := by simpa using hs
      decide
    · rw [List.mem_singleton.mp hmem] at hs
      exact hc s hs

/-- The result of `SELECT 7 AS n`. -/
def oneSeven : ResultTable := oneCell (some (bytes "7")) (by decide)

/-- The result of `SELECT NULL AS n`. -/
def oneNull : ResultTable := oneCell none (by decide)

theorem sqlite_exec_nil_iff_seven :
    ∃ p, sqlite_exec (fun (_ : Unit) _ => .ok oneSeven) () (bytes "SELECT 7 AS n") blank = .ok p ∧
      ((results p).head? = some .nil ↔ oneSeven.n_rows = 0) :=
  (sqlite_exec_nil_iff (t := oneSeven) rfl blank).mpr ⟨fun _ => by decide, fun _ => by decide⟩

theorem sqlite_exec_null :
    ¬ ∃ p, sqlite_exec (fun (_ : Unit) _ => .ok oneNull) () (bytes "SELECT NULL AS n") blank =
      .ok p ∧ ((results p).head? = some .nil ↔ oneNull.n_rows = 0) := by
  rintro ⟨p, hrun, hnil⟩
  have hret : sqlite_exec (fun (_ : Unit) _ => .ok oneNull) () (bytes "SELECT NULL AS n") blank =
      .ok (push blank .nil, 1) := rfl
  obtain rfl : (push blank .nil, 1) = p := by simpa [hret] using hrun
  exact absurd (hnil.mp rfl) (by decide)

/-! ## Rows without loss -/

/-- The one result is a table with exactly the row indices, and every cell is in
its row under the name of its column. -/
def Lossless (t : ResultTable) (p : LState T P S × Nat) : Prop :=
  ∃ result, results p = [.table result] ∧
    (∀ k, (p.1.heap.get result).get k ≠ .nil ↔ ∃ i < t.n_rows, k = .int ((i : Nat) + 1)) ∧
    ∀ i < t.n_rows, ∃ row, (p.1.heap.get result).get (.int ((i : Nat) + 1)) = .table row ∧
      (p.1.heap.get row).metatable = none ∧
      ∀ j < t.n_cols, (p.1.heap.get row).get (.str (t.name j)) = cellValue (t.cell i j)

/-- Columns with the same name have the same cells. -/
def NamesAgree (t : ResultTable) : Prop :=
  ∀ i < t.n_rows, ∀ j < t.n_cols, ∀ j' < t.n_cols, t.name j = t.name j' → t.cell i j = t.cell i j'

set_option synthInstance.maxSize 256 in
instance (t : ResultTable) : Decidable (NamesAgree t) :=
  inferInstanceAs (Decidable (∀ i < t.n_rows, ∀ j < t.n_cols, ∀ j' < t.n_cols,
    t.name j = t.name j' → t.cell i j = t.cell i j'))

theorem resultTable_get_ne_nil_iff (first n : Nat) (k : Key) :
    (resultTable first n : Table (Opaque T)).get k ≠ .nil ↔ ∃ i < n, k = .int ((i : Nat) + 1) := by
  constructor
  · intro hne
    by_contra hnone
    exact hne (resultTable_get_other first n fun i hi hk => hnone ⟨i, hi, hk⟩)
  · rintro ⟨i, hi, rfl⟩
    rw [resultTable_get_row first hi]
    simp

/-- A result with rows that is not a single cell is handed over without loss exactly
when columns of one name agree. -/
theorem sqlite_exec_lossless_iff
    {sqlite3_get_table : DB → Bytes → Except (Option Bytes) ResultTable} {db : DB} {query : Bytes}
    (hok : sqlite3_get_table db (cString query) = .ok t) (hrows : 0 < t.n_rows)
    (hone : ¬ (t.n_rows = 1 ∧ t.n_cols = 1)) (L : LState T P S) :
    (∃ p, sqlite_exec sqlite3_get_table db query L = .ok p ∧ Lossless t p) ↔
      NamesAgree t ∧ t.Indexed := by
  rw [sqlite_exec, hok]
  simp only []
  rw [if_neg (by omega), if_neg hone]
  constructor
  · rintro ⟨p, hrun, result, -, -, hcells⟩
    obtain ⟨L', hloop, -⟩ := Outcome.bind_eq_ok_iff.mp hrun
    refine ⟨fun i hi j hj j' hj' hname => ?_, indexed_of_pushRows hrows hloop⟩
    obtain ⟨row, -, -, hrow⟩ := hcells i hi
    apply cellValue_injective (U := Opaque T)
    rw [← hrow j hj, ← hrow j' hj', hname]
  · rintro ⟨hagree, hidx⟩
    rw [pushRows_eq hidx L _ (Nat.le_refl _)]
    refine ⟨_, rfl, L.heap.length, rfl, fun k => ?_, fun i hi => ⟨L.heap.length + 1 + i, ?_⟩⟩
    · rw [resultHeap_get_result]
      exact resultTable_get_ne_nil_iff _ _ k
    · rw [resultHeap_get_result, resultTable_get_row _ hi, resultHeap_get_row t _ hi]
      exact ⟨rfl, metatable_rowTable t i _, fun j hj => rowTable_get_name (hagree i hi) hj⟩

/-- A result with one row, in which a column `id` and another one have the cells 1
and 2. -/
def twoCells (other : Bytes) (hother : NulFree other) : ResultTable where
  n_rows := 1
  n_cols := 2
  db_result := [some (bytes "id"), some other, some (bytes "1"), some (bytes "2")]
  length_db_result := rfl
  names := by
    intro j hj
    obtain rfl | rfl : j = 0 ∨ j = 1 := by omega
    · exact ⟨_, rfl⟩
    · exact ⟨_, rfl⟩
  nulFree := by
    simp only [List.forall_mem_cons, Option.mem_def, Option.some.injEq, forall_eq']
    exact ⟨by decide, hother, by decide, by decide, by simp⟩

/-- The result of `SELECT 1 AS id, 2 AS score`. -/
def idScore : ResultTable := twoCells (bytes "score") (by decide)

/-- The result of `SELECT 1 AS id, 2 AS id`. -/
def idTwice : ResultTable := twoCells (bytes "id") (by decide)

theorem sqlite_exec_lossless_iff_score :
    ∃ p, sqlite_exec (fun (_ : Unit) _ => .ok idScore) () (bytes "SELECT 1 AS id, 2 AS score")
      blank = .ok p ∧ Lossless idScore p :=
  (sqlite_exec_lossless_iff (t := idScore) rfl (by decide) (by decide) blank).mpr
    ⟨by decide, by decide⟩

theorem sqlite_exec_id_twice :
    ¬ ∃ p, sqlite_exec (fun (_ : Unit) _ => .ok idTwice) () (bytes "SELECT 1 AS id, 2 AS id")
      blank = .ok p ∧ Lossless idTwice p := by
  rintro ⟨p, hrun, result, hresults, -, hcells⟩
  obtain ⟨row, -, -, hrow⟩ := hcells 0 (by decide)
  have hfirst := hrow 0 (by decide)
  have hsecond := hrow 1 (by decide)
  have hname : idTwice.name 0 = idTwice.name 1 := by decide
  rw [hname, hsecond] at hfirst
  exact absurd (cellValue_injective hfirst) (by decide)

end

end Vklib.Sqlite
