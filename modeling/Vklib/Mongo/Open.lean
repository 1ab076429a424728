import Vklib.Mongo.Decode

/-!
# Opening the library: `base_open`, `mongo_open`, `luaopen_vklib`

The opening functions work on the Lua stack, and what `mongo_open` puts into the
registry depends on which table is on top of it when the constructors are
looked up.  So the stack is explicit here, topmost value first, and an index
`-i` of the source is the `i`-th value from the top.

`luaopen_vklib_slots` is the result: the three singletons are in their slots,
and the six constructor slots hold nil.  The module table is popped into the
field `mongo` before the constructors are looked up, so the lookup goes to the
library table, which has no such fields.
-/

namespace Vklib.Mongo

open Vklib.Lua Vklib.Bson

/-- The parts of the library that a build includes, and its two texts. -/
structure Build where
  VKLIB_FILESYSTEM : Bool
  VKLIB_REQUESTS : Bool
  VKLIB_SQLITE : Bool
  VKLIB_VERSION : Bytes
  VKLIB_COPYRIGHT : Bytes

/-- A Lua state with its stack, topmost value first. -/
structure Machine where
  L : State
  stack : List LVal

namespace Machine

/-- Push a value. -/
def push (M : Machine) (v : LVal) : Machine := { M with stack := v :: M.stack }

/-- The table at the index `-i`. -/
def tableAt (M : Machine) (i : Nat) : Ref :=
  match M.stack[i - 1]? with
  | some (.table r) => r
  | _ => M.L.heap.length

/-- `lua_newtable`. -/
def newtable (M : Machine) : Machine := { M with L := M.L.newtable.1 }.push (.table M.L.newtable.2)

/-- `lua_pushvalue` of the index `-i`. -/
def pushvalue (M : Machine) (i : Nat) : Machine := M.push (M.stack[i - 1]?.getD .nil)

/-- `lua_setfield` on the table at the index `-i`.  No table of the opening
functions has a `__newindex` metamethod. -/
def setfield (M : Machine) (i : Nat) (name : Bytes) : Machine where
  L := M.L.rawset (M.tableAt i) (.str name) (M.stack.headD .nil)
  stack := M.stack.tail

/-- `lua_getfield` on the table at the index `-i`.  A field that is missing is
looked for through `__index` of the metatable. -/
def getfield (E : Env) (M : Machine) (i : Nat) (name : Bytes) : Outcome LuaError Machine :=
  match (M.L.heap.get (M.tableAt i)).get (.str name) with
  | .nil =>
    match M.L.heap.getmetafield (.table (M.tableAt i)) (bytes "__index") with
    | .nil => .ok (M.push .nil)
    | _ =>
      match E.index M.L.heap (M.tableAt i) name with
      | .ok v => .ok (M.push v)
      | .error e => .error e
  | v => .ok (M.push v)

/-- `lua_setmetatable` on the value at the index `-i`. -/
def setmetatable (M : Machine) (i : Nat) : Machine where
  L := M.L.setmetatable (M.tableAt i) (some (M.tableAt 1))
  stack := M.stack.tail

/-- `lua_rawsetp` on the registry. -/
def rawsetp (M : Machine) (slot : Slot) : Machine where
  L := M.L.rawsetp slot (M.stack.headD .nil)
  stack := M.stack.tail

/-- `luaL_newlib`. -/
def newlib (M : Machine) (funcs : List (Bytes × CFun)) : Machine :=
  let M := M.newtable
  { M with L := setfields M.L (M.tableAt 1) (funcs.map (fun f => (f.1, .host (.cfunc f.2)))) }

end Machine

/-! ## The library -/

def fs_funcs : List (Bytes × CFun) :=
  [(bytes "get_cwd", .fs_getcwd), (bytes "create_dir", .fs_create_dir),
    (bytes "dir_exists", .fs_dir_exists), (bytes "remove_file", .fs_remove_file),
    (bytes "file_exists", .fs_file_exists), (bytes "remove_dir", .fs_remove_dir),
    (bytes "create_file", .fs_create_file), (bytes "read_file", .fs_read_file),
    (bytes "get_files", .fs_get_files)]

def request_funcs : List (Bytes × CFun) := [(bytes "get", .request_get)]

def sqlite_funcs : List (Bytes × CFun) :=
  [(bytes "open", .sqlite_open), (bytes "close", .sqlite_close), (bytes "exec", .sqlite_exec)]

/-- The table `funcs` of `vklib.c`. -/
def mongo_funcs : List (Bytes × CFun) :=
  [(bytes "type", .f_type), (bytes "binary", .newBinary), (bytes "bson", .newBSON),
    (bytes "client", .newClient), (bytes "date_time", .newDateTime),
    (bytes "decimal128", .newDecimal128), (bytes "double", .newDouble),
    (bytes "int32", .newInt32), (bytes "int64", .newInt64),
    (bytes "javascript", .newJavascript), (bytes "objectid", .newObjectID),
    (bytes "readprefs", .newReadPrefs), (bytes "regex", .newRegex),
    (bytes "timestamp", .newTimestamp)]

/-- One `luaL_newlib` of `base_open`, when the build has the part. -/
def openPart (M : Machine) (included : Bool) (funcs : List (Bytes × CFun)) (name : Bytes) :
    Machine :=
  if included then (M.newlib funcs).setfield 2 name else M

/-- `base_open`. -/
def base_open (build : Build) (M : Machine) : Machine :=
  let M := M.newtable
  let M := (M.push (.str build.VKLIB_VERSION)).setfield 2 (bytes "_VERSION")
  let M := (M.push (.str build.VKLIB_COPYRIGHT)).setfield 2 (bytes "_COPYRIGHT")
  let M := openPart M build.VKLIB_FILESYSTEM fs_funcs (bytes "fs")
  let M := openPart M build.VKLIB_REQUESTS request_funcs (bytes "request")
  let M := openPart M build.VKLIB_SQLITE sqlite_funcs (bytes "sqlite")
  let M := M.newtable
  let M := (M.push (.host (.cfunc .gc_destroy))).setfield 2 (bytes "__gc")
  M.setmetatable 2

/-- One lookup of a constructor for a slot. -/
def cacheField (E : Env) (M : Machine) (name : Bytes) (slot : Slot) : Outcome LuaError Machine := do
  let M ← M.getfield E 1 name
  .ok (M.rawsetp slot)

/-- One singleton: a field of the table below it and a slot. -/
def openSingleton (M : Machine) (make : State → State × LVal) (name : Bytes) (slot : Slot) :
    Machine :=
  let M : Machine := { M with L := (make M.L).1, stack := (make M.L).2 :: M.stack }
  let M := M.pushvalue 1
  let M := M.setfield 3 name
  M.rawsetp slot

/-- `mongo_open`. -/
def mongo_open (E : Env) (M : Machine) : Outcome LuaError Machine := do
  let M := M.newlib mongo_funcs
  let M := M.setfield 2 (bytes "mongo")
  let M ← cacheField E M (bytes "Binary") .NEW_BINARY
  let M ← cacheField E M (bytes "DateTime") .NEW_DATETIME
  let M ← cacheField E M (bytes "Decimal128") .NEW_DECIMAL128
  let M ← cacheField E M (bytes "Javascript") .NEW_JAVASCRIPT
  let M ← cacheField E M (bytes "Regex") .NEW_REGEX
  let M ← cacheField E M (bytes "Timestamp") .NEW_TIMESTAMP
  let M := openSingleton M pushMaxKey (bytes "MaxKey") .GLOBAL_MAXKEY
  let M := openSingleton M pushMinKey (bytes "MinKey") .GLOBAL_MINKEY
  .ok (openSingleton M pushNull (bytes "Null") .GLOBAL_NULL)

/-- `luaopen_vklib` of a build with the mongo module. -/
def luaopen_vklib (E : Env) (build : Build) (M : Machine) : Outcome LuaError Machine :=
  mongo_open E (base_open build M)

/-! ## The library table -/

/-- The library table is on top of the stack and has no field but the named
ones. -/
structure LibTable (M : Machine) (r : Ref) (names : List Bytes) : Prop where
  top : ∃ rest, M.stack = .table r :: rest
  bound : r < M.L.heap.length
  fields : ∀ name, (M.L.heap.get r).get (.str name) ≠ .nil → name ∈ names

/-- A metatable without `__index`. -/
def NoIndex (M : Machine) (r : Ref) : Prop :=
  ∃ m, (M.L.heap.get r).metatable = some m ∧ m ≠ r ∧ m < M.L.heap.length ∧
    (M.L.heap.get m).get (.str (bytes "__index")) = .nil

theorem LibTable.mono {M : Machine} {r : Ref} {names names' : List Bytes}
    (hlib : LibTable M r names) (hsub : names ⊆ names') : LibTable M r names' :=
  ⟨hlib.top, hlib.bound, fun name hne => hsub (hlib.fields name hne)⟩

/-- New tables leave the library table alone. -/
theorem LibTable.grow {M M' : Machine} {r : Ref} {names : List Bytes} (hlib : LibTable M r names)
    (hext : Heap.Extends M.L.heap M'.L.heap) (htop : ∃ rest, M'.stack = .table r :: rest) :
    LibTable M' r names := by
  refine ⟨htop, Nat.lt_of_lt_of_le hlib.bound hext.1, ?_⟩
  rw [hext.2 r hlib.bound]
  exact hlib.fields

theorem NoIndex.grow {M M' : Machine} {r : Ref} (hno : NoIndex M r)
    (hbound : r < M.L.heap.length) (hext : Heap.Extends M.L.heap M'.L.heap) : NoIndex M' r := by
  obtain ⟨m, hm, hmr, hlt, hindex⟩ := hno
  refine ⟨m, ?_, hmr, Nat.lt_of_lt_of_le hlt hext.1, ?_⟩
  · rw [hext.2 r hbound]
    exact hm
  · rw [hext.2 m hlt]
    exact hindex

/-- A field of the library table under one more name. -/
theorem LibTable.setfield {L : State} {r : Ref} {names : List Bytes} {rest : List LVal}
    (hlib : LibTable ⟨L, .table r :: rest⟩ r names) (name : Bytes) (v : LVal) :
    LibTable ⟨L.rawset r (.str name) v, .table r :: rest⟩ r (name :: names) := by
  refine ⟨⟨rest, rfl⟩, by simpa using hlib.bound, ?_⟩
  intro name' hne
  simp only [L.get_rawset hlib.bound, if_true, Table.get_rawset] at hne
  split_ifs at hne with heq
  · simp_all
  · exact List.mem_cons_of_mem _ (hlib.fields name' hne)

theorem NoIndex.setfield {L : State} {r : Ref} {stack stack' : List LVal}
    (hno : NoIndex ⟨L, stack⟩ r) (hbound : r < L.heap.length) (k : Key) (v : LVal) :
    NoIndex ⟨L.rawset r k v, stack'⟩ r := by
  obtain ⟨m, hm, hmr, hlt, hindex⟩ := hno
  refine ⟨m, ?_, hmr, by simpa using hlt, ?_⟩
  · simpa [L.get_rawset hbound] using hm
  · simpa only [L.get_rawset hbound, if_neg hmr] using hindex

/-- A value that is pushed becomes a field. -/
theorem LibTable.pushSetfield {M : Machine} {r : Ref} {names : List Bytes}
    (hlib : LibTable M r names) (name : Bytes) (v : LVal) :
    LibTable ((M.push v).setfield 2 name) r (name :: names) := by
  obtain ⟨L, stack⟩ := M
  obtain ⟨rest, rfl⟩ := hlib.top
  exact hlib.setfield name v

/-- A table of functions becomes a field. -/
theorem LibTable.newlib {M : Machine} {r : Ref} {names : List Bytes} (hlib : LibTable M r names)
    (funcs : List (Bytes × CFun)) (name : Bytes) :
    LibTable ((M.newlib funcs).setfield 2 name) r (name :: names) ∧
      ((M.newlib funcs).setfield 2 name).L.slots = M.L.slots ∧
      (NoIndex M r → NoIndex ((M.newlib funcs).setfield 2 name) r) := by
  obtain ⟨L, stack⟩ := M
  obtain ⟨rest, rfl⟩ := hlib.top
  have hgrows := (Grows.refl L).newtable.setfields (r := L.heap.length) (Nat.le_refl _)
    (funcs.map (fun f => (f.1, .host (.cfunc f.2))))
  have hlib' : LibTable ⟨setfields L.newtable.1 L.heap.length
      (funcs.map (fun f => (f.1, .host (.cfunc f.2)))), .table r :: rest⟩ r names :=
    hlib.grow hgrows.heap ⟨rest, rfl⟩
  refine ⟨hlib'.setfield name _, hgrows.slots, fun hno => ?_⟩
  have hno' : NoIndex ⟨setfields L.newtable.1 L.heap.length
      (funcs.map (fun f => (f.1, .host (.cfunc f.2)))), .table r :: rest⟩ r :=
    hno.grow hlib.bound hgrows.heap
  exact hno'.setfield hlib'.bound _ _

/-- A part of the library becomes a field, when it is included. -/
theorem LibTable.openPart {M : Machine} {r : Ref} {names : List Bytes}
    (hlib : LibTable M r names) (included : Bool) (funcs : List (Bytes × CFun)) (name : Bytes) :
    LibTable (openPart M included funcs name) r (name :: names) ∧
      (openPart M included funcs name).L.slots = M.L.slots := by
  cases included with
  | false => exact ⟨hlib.mono (List.subset_cons_self _ _), rfl⟩
  | true => exact ⟨(hlib.newlib funcs name).1, (hlib.newlib funcs name).2.1⟩

/-- The library table gets a new metatable with one field. -/
theorem LibTable.setMetatable {M : Machine} {r : Ref} {names : List Bytes}
    (hlib : LibTable M r names) (name : Bytes) (hname : bytes "__index" ≠ name) (v : LVal) :
    LibTable (((M.newtable.push v).setfield 2 name).setmetatable 2) r names ∧
      NoIndex (((M.newtable.push v).setfield 2 name).setmetatable 2) r ∧
      (((M.newtable.push v).setfield 2 name).setmetatable 2).L.slots = M.L.slots := by
  obtain ⟨L, stack⟩ := M
  obtain ⟨rest, rfl⟩ := hlib.top
  have hr : r < L.heap.length := hlib.bound
  have hne : L.heap.length ≠ r := Nat.ne_of_gt hr
  have hrun : ((((⟨L, .table r :: rest⟩ : Machine).newtable.push v).setfield 2 name).setmetatable 2) =
      ⟨(L.newtable.1.rawset L.heap.length (.str name) v).setmetatable r (some L.heap.length),
        .table r :: rest⟩ := rfl
  have hold : (L.newtable.1.rawset L.heap.length (.str name) v).heap.get r = L.heap.get r := by
    rw [State.get_rawset _ (by simp), if_neg (Ne.symm hne)]
    exact (State.extends_newtable (Heap.Extends.refl _)).2 r hr
  have hnew : (L.newtable.1.rawset L.heap.length (.str name) v).heap.get L.heap.length =
      Table.empty.rawset (.str name) v := by
    rw [State.get_rawset _ (by simp), if_pos rfl]
    simp
  have hbound : r < (L.newtable.1.rawset L.heap.length (.str name) v).heap.length := by
    rw [State.length_rawset, State.heap_newtable, List.length_append]
    exact Nat.lt_of_lt_of_le hr (Nat.le_add_right _ _)
  rw [hrun]
  refine ⟨⟨⟨rest, rfl⟩, ?_, ?_⟩, ⟨L.heap.length, ?_, hne, ?_, ?_⟩, rfl⟩
  · simpa using hbound
  · intro name' hname'
    rw [State.get_setmetatable _ hbound, if_pos rfl, Table.get_setMetatable, hold] at hname'
    exact hlib.fields name' hname'
  · rw [State.get_setmetatable _ hbound, if_pos rfl, Table.metatable_setMetatable]
  · simp
  · rw [State.get_setmetatable _ hbound, if_neg hne, hnew, Table.get_rawset]
    simp [hname]

/-- The field names of the library table when `mongo_open` starts. -/
def baseNames : List Bytes :=
  [bytes "sqlite", bytes "request", bytes "fs", bytes "_COPYRIGHT", bytes "_VERSION"]

/-- What `base_open` leaves on the stack. -/
theorem libTable_base_open (build : Build) (M : Machine) :
    LibTable (base_open build M) M.L.heap.length baseNames ∧
      NoIndex (base_open build M) M.L.heap.length := by
  have hnew : LibTable M.newtable M.L.heap.length [] := by
    refine ⟨⟨M.stack, rfl⟩, by simp [Machine.newtable, Machine.push], ?_⟩
    intro name hne
    simp [Machine.newtable, Machine.push] at hne
  have hversion := hnew.pushSetfield (bytes "_VERSION") (.str build.VKLIB_VERSION)
  have hcopyright := hversion.pushSetfield (bytes "_COPYRIGHT") (.str build.VKLIB_COPYRIGHT)
  have hfs := (hcopyright.openPart build.VKLIB_FILESYSTEM fs_funcs (bytes "fs")).1
  have hrequest := (hfs.openPart build.VKLIB_REQUESTS request_funcs (bytes "request")).1
  have hsqlite := (hrequest.openPart build.VKLIB_SQLITE sqlite_funcs (bytes "sqlite")).1
  have hmeta := hsqlite.setMetatable (bytes "__gc") (by decide) (.host (.cfunc .gc_destroy))
  exact ⟨hmeta.1, hmeta.2.1⟩

/-- A constructor that the library table does not have is cached as nil. -/
theorem LibTable.cacheField {E : Env} {M : Machine} {r : Ref} {names : List Bytes}
    (hlib : LibTable M r names) (hno : NoIndex M r) {name : Bytes} (hname : name ∉ names)
    (slot : Slot) : cacheField E M name slot = .ok { M with L := M.L.rawsetp slot .nil } := by
  obtain ⟨rest, hstack⟩ := hlib.top
  obtain ⟨m, hm, -, -, hindex⟩ := hno
  have hat : M.tableAt 1 = r := by simp [Machine.tableAt, hstack]
  have hnil : (M.L.heap.get r).get (.str name) = .nil := by
    by_contra hne
    exact hname (hlib.fields name hne)
  have hfield : M.L.heap.getmetafield (.table r) (bytes "__index") = .nil := by
    simp only [Heap.getmetafield, Heap.metatable, hm]
    exact hindex
  simp only [Mongo.cacheField, Machine.getfield, hat, hnil, hfield, Outcome.ok_bind]
  simp [Machine.rawsetp, Machine.push]

/-- A singleton is stored in the library table and in its slot. -/
theorem LibTable.openSingleton_eq {M : Machine} {r : Ref} {names : List Bytes}
    (hlib : LibTable M r names) {make : State → State × LVal}
    (hmake : (make M.L).2 = .table M.L.heap.length) (name : Bytes) (slot : Slot) :
    Mongo.openSingleton M make name slot =
      ⟨((make M.L).1.rawset r (.str name) (.table M.L.heap.length)).rawsetp slot
        (.table M.L.heap.length), M.stack⟩ := by
  obtain ⟨L, stack⟩ := M
  obtain ⟨rest, rfl⟩ := hlib.top
  simp [Mongo.openSingleton, Machine.pushvalue, Machine.push, Machine.setfield, Machine.rawsetp,
    Machine.tableAt, hmake]

/-- A singleton is a new table, in its slot. -/
theorem LibTable.openSingleton {M : Machine} {r : Ref} {names : List Bytes}
    (hlib : LibTable M r names) (make : State → State × LVal)
    (hmake : ∀ L, Grows L.heap L.slots (make L).1 ∧ (make L).2 = .table L.heap.length)
    (name : Bytes) (slot : Slot) :
    LibTable (openSingleton M make name slot) r (name :: names) ∧
      (openSingleton M make name slot).L.slots =
        (fun s => if s = slot then .table M.L.heap.length else M.L.slots s) := by
  obtain ⟨hgrows, hvalue⟩ := hmake M.L
  rw [hlib.openSingleton_eq hvalue]
  obtain ⟨L, stack⟩ := M
  obtain ⟨rest, rfl⟩ := hlib.top
  have hlib' : LibTable ⟨(make L).1, .table r :: rest⟩ r names :=
    hlib.grow hgrows.heap ⟨rest, rfl⟩
  refine ⟨(hlib'.setfield name _).grow (Heap.Extends.refl _) ⟨rest, rfl⟩, ?_⟩
  funext s
  simp [State.rawsetp, hgrows.slots]

/-- One cached constructor, with what it leaves for the next. -/
theorem LibTable.cacheField' {E : Env} {M : Machine} {r : Ref} {names : List Bytes}
    (hlib : LibTable M r names) (hno : NoIndex M r) (name : Bytes) (hname : name ∉ names)
    (slot : Slot) :
    ∃ M', Mongo.cacheField E M name slot = .ok M' ∧ LibTable M' r names ∧ NoIndex M' r ∧
      (M'.L.slots = fun s => if s = slot then .nil else M.L.slots s) ∧
      M'.L.metatables = M.L.metatables :=
  ⟨_, hlib.cacheField hno hname slot, hlib.grow (Heap.Extends.refl _) hlib.top,
    hno.grow hlib.bound (Heap.Extends.refl _), rfl, rfl⟩

theorem metatables_setfields (L : State) (r : Ref) (fields : List (Bytes × LVal)) :
    (setfields L r fields).metatables = L.metatables := by
  induction fields generalizing L with
  | nil => rfl
  | cons f rest ih => exact ih (L.rawset r (.str f.1) f.2)

theorem metatables_newlib (M : Machine) (funcs : List (Bytes × CFun)) (name : Bytes) :
    ((M.newlib funcs).setfield 2 name).L.metatables = M.L.metatables :=
  metatables_setfields _ _ _

theorem metatables_openPart (M : Machine) (included : Bool) (funcs : List (Bytes × CFun))
    (name : Bytes) : (openPart M included funcs name).L.metatables = M.L.metatables := by
  cases included with
  | false => rfl
  | true => exact metatables_newlib M funcs name

/-- `base_open` makes no type. -/
theorem metatables_base_open (build : Build) (M : Machine) :
    (base_open build M).L.metatables = M.L.metatables := by
  simp only [base_open, Machine.setmetatable, Machine.setfield, Machine.push, Machine.newtable,
    State.metatables_setmetatable, State.metatables_rawset, State.metatables_newtable,
    metatables_openPart]

/-- What `mongo_open` has done when it makes the singletons: the constructor
slots hold nil. -/
theorem luaopen_vklib_cached (E : Env) (build : Build) (M : Machine) :
    ∃ M', luaopen_vklib E build M =
        .ok (openSingleton (openSingleton (openSingleton M' pushMaxKey (bytes "MaxKey")
          .GLOBAL_MAXKEY) pushMinKey (bytes "MinKey") .GLOBAL_MINKEY) pushNull (bytes "Null")
          .GLOBAL_NULL) ∧
      (∃ r names, LibTable M' r names) ∧ M'.L.metatables = M.L.metatables ∧
      ∀ slot, slot = .NEW_BINARY ∨ slot = .NEW_DATETIME ∨ slot = .NEW_DECIMAL128 ∨
        slot = .NEW_JAVASCRIPT ∨ slot = .NEW_REGEX ∨ slot = .NEW_TIMESTAMP →
        M'.L.slots slot = .nil := by
  obtain ⟨hbase, hno⟩ := libTable_base_open build M
  obtain ⟨hlib₀, -, hno₀⟩ := hbase.newlib mongo_funcs (bytes "mongo")
  obtain ⟨M₁, hrun₁, hlib₁, hno₁, hslots₁, hmeta₁⟩ :=
    hlib₀.cacheField' (E := E) (hno₀ hno) (bytes "Binary") (by decide) .NEW_BINARY
  obtain ⟨M₂, hrun₂, hlib₂, hno₂, hslots₂, hmeta₂⟩ :=
    hlib₁.cacheField' (E := E) hno₁ (bytes "DateTime") (by decide) .NEW_DATETIME
  obtain ⟨M₃, hrun₃, hlib₃, hno₃, hslots₃, hmeta₃⟩ :=
    hlib₂.cacheField' (E := E) hno₂ (bytes "Decimal128") (by decide) .NEW_DECIMAL128
  obtain ⟨M₄, hrun₄, hlib₄, hno₄, hslots₄, hmeta₄⟩ :=
    hlib₃.cacheField' (E := E) hno₃ (bytes "Javascript") (by decide) .NEW_JAVASCRIPT
  obtain ⟨M₅, hrun₅, hlib₅, hno₅, hslots₅, hmeta₅⟩ :=
    hlib₄.cacheField' (E := E) hno₄ (bytes "Regex") (by decide) .NEW_REGEX
  obtain ⟨M₆, hrun₆, hlib₆, -, hslots₆, hmeta₆⟩ :=
    hlib₅.cacheField' (E := E) hno₅ (bytes "Timestamp") (by decide) .NEW_TIMESTAMP
  refine ⟨M₆, ?_, ⟨_, _, hlib₆⟩, ?_, ?_⟩
  · simp only [luaopen_vklib, mongo_open, hrun₁, hrun₂, hrun₃, hrun₄, hrun₅, hrun₆,
      Outcome.ok_bind]
  · rw [hmeta₆, hmeta₅, hmeta₄, hmeta₃, hmeta₂, hmeta₁, metatables_newlib, metatables_base_open]
  · rintro slot (rfl | rfl | rfl | rfl | rfl | rfl) <;>
      simp [hslots₆, hslots₅, hslots₄, hslots₃, hslots₂, hslots₁]

/-- Opening never fails.  The constructor slots hold nil and the singleton
slots hold tables. -/
theorem luaopen_vklib_slots (E : Env) (build : Build) (M : Machine) :
    ∃ M', luaopen_vklib E build M = .ok M' ∧
      (∀ slot, slot = .NEW_BINARY ∨ slot = .NEW_DATETIME ∨ slot = .NEW_DECIMAL128 ∨
        slot = .NEW_JAVASCRIPT ∨ slot = .NEW_REGEX ∨ slot = .NEW_TIMESTAMP →
        M'.L.slots slot = .nil) ∧
      (∀ slot, slot = .GLOBAL_MAXKEY ∨ slot = .GLOBAL_MINKEY ∨ slot = .GLOBAL_NULL →
        ∃ r, M'.L.slots slot = .table r) := by
  obtain ⟨M₆, hrun, ⟨r, names, hlib₆⟩, -, hslots₆⟩ := luaopen_vklib_cached E build M
  obtain ⟨hlib₇, hslots₇⟩ := hlib₆.openSingleton pushMaxKey
    (fun L => grows_newTyped L _ _ _) (bytes "MaxKey") .GLOBAL_MAXKEY
  obtain ⟨hlib₈, hslots₈⟩ := hlib₇.openSingleton pushMinKey
    (fun L => grows_newTyped L _ _ _) (bytes "MinKey") .GLOBAL_MINKEY
  obtain ⟨-, hslots₉⟩ := hlib₈.openSingleton pushNull
    (fun L => grows_newTyped L _ _ _) (bytes "Null") .GLOBAL_NULL
  refine ⟨_, hrun, fun slot hslot => ?_, ?_⟩
  · have hnil := hslots₆ slot hslot
    rcases hslot with rfl | rfl | rfl | rfl | rfl | rfl <;>
      simpa [hslots₉, hslots₈, hslots₇] using hnil
  · rintro slot (rfl | rfl | rfl) <;> simp [hslots₉, hslots₈, hslots₇]

/-! ## The null singleton -/

/-- A value without parameters, of the BSON type null, in tables from `lo` up. -/
def IsNullSingleton (lo : Ref) (h : Heap Host) (v : LVal) : Prop :=
  ∃ r m, v = .table r ∧ lo ≤ r ∧ lo ≤ m ∧ r < h.length ∧ m < h.length ∧ (h.get r).entries = [] ∧
    (h.get r).metatable = some m ∧ (h.get m).get (.str (bytes "__type")) = .int 10 ∧
    (h.get m).get (.str (bytes "__toBSON")) = .nil

/-- A heap that keeps the tables from `lo` up keeps the singleton. -/
theorem IsNullSingleton.frame {lo lo' : Ref} {h h' : Heap Host} {v : LVal}
    (hnull : IsNullSingleton lo h v) (hle : lo' ≤ lo) (hlen : h.length ≤ h'.length)
    (hget : ∀ r, lo ≤ r → r < h.length → h'.get r = h.get r) : IsNullSingleton lo' h' v := by
  obtain ⟨r, m, rfl, hlor, hlom, hr, hm, hfacts⟩ := hnull
  refine ⟨r, m, rfl, Nat.le_trans hle hlor, Nat.le_trans hle hlom, Nat.lt_of_lt_of_le hr hlen,
    Nat.lt_of_lt_of_le hm hlen, ?_⟩
  rw [hget r hlor hr, hget m hlom hm]
  exact hfacts

/-- A run of `lua_setfield` leaves the other fields of the table alone. -/
theorem get_setfields {L : State} {r : Ref} (hr : r < L.heap.length) {name : Bytes}
    {fields : List (Bytes × LVal)} (hname : name ∉ fields.map Prod.fst) :
    ((setfields L r fields).heap.get r).get (.str name) = (L.heap.get r).get (.str name) := by
  induction fields generalizing L with
  | nil => rfl
  | cons f rest ih =>
    simp only [List.map_cons, List.mem_cons, not_or] at hname
    have hrest := ih (L := L.rawset r (.str f.1) f.2) (by simpa using hr) hname.2
    refine hrest.trans ?_
    rw [L.get_rawset hr, if_pos rfl, Table.get_rawset, if_neg (by simpa using hname.1)]

theorem length_setfields (L : State) (r : Ref) (fields : List (Bytes × LVal)) :
    (setfields L r fields).heap.length = L.heap.length := by
  induction fields generalizing L with
  | nil => rfl
  | cons f rest ih => exact (ih (L.rawset r (.str f.1) f.2)).trans (State.length_rawset _ _ _ _)

/-- A type that is new gets a metatable of its own, which carries it and no
`__toBSON`. -/
theorem setBSONType_of_new {L : State} {r : Ref} (hr : r < L.heap.length) {name : Bytes}
    (hnone : L.metatables name = none) (type : UInt32) :
    (setBSONType L r name type).heap.length = L.heap.length + 1 ∧
      (setBSONType L r name type).metatables name = some L.heap.length ∧
      (setBSONType L r name type).heap.get r =
        (L.heap.get r).setMetatable (some L.heap.length) ∧
      ((setBSONType L r name type).heap.get L.heap.length).get (.str (bytes "__type")) =
        .int type.toNat.toInt64 ∧
      ((setBSONType L r name type).heap.get L.heap.length).get (.str (bytes "__toBSON")) =
        .nil := by
  obtain ⟨fields, hfields⟩ : ∃ fields : List (Bytes × LVal), fields =
      [(bytes "__name", .str name), (bytes "__metatable", .bool false),
        (bytes "__index", .table L.heap.length), (bytes "__name", .str name),
        (bytes "__tostring", .host (.cfunc .typeToString))] ++
        bsontypeFuncs.map (fun f => (f.1, .host (.cfunc f.2))) := ⟨_, rfl⟩
  obtain ⟨L₁, hL₁⟩ : ∃ L₁ : State, L₁ = { L.newtable.1 with
    metatables := fun n => if n = name then some L.heap.length else L.metatables n } := ⟨_, rfl⟩
  have hlen₁ : L₁.heap.length = L.heap.length + 1 := by simp [hL₁]
  have hrun : setBSONType L r name type = ((setfields L₁ L.heap.length fields).rawset
      L.heap.length (.str (bytes "__type")) (.int type.toNat.toInt64)).setmetatable r
        (some L.heap.length) := by
    simp only [setBSONType, newType, hnone, State.newtable_snd, if_true, hL₁, hfields]
    rfl
  have hgrows : Grows L.heap L₁.slots (setfields L₁ L.heap.length fields) :=
    Grows.setfields ⟨by rw [hL₁]; exact State.extends_newtable (.refl _), rfl⟩ (Nat.le_refl _) _
  have hm₁ : L.heap.length < L₁.heap.length := by
    rw [hlen₁]
    exact Nat.lt_succ_self _
  have hm : L.heap.length < (setfields L₁ L.heap.length fields).heap.length := by
    rw [length_setfields]
    exact hm₁
  have hbound : r < ((setfields L₁ L.heap.length fields).rawset L.heap.length
      (.str (bytes "__type")) (.int type.toNat.toInt64)).heap.length := by
    rw [State.length_rawset]
    exact Nat.lt_trans hr hm
  have hkeys : bytes "__toBSON" ∉ fields.map Prod.fst := by
    simp only [hfields, bsontypeFuncs, List.map_cons, List.map_nil, List.cons_append,
      List.nil_append]
    decide
  have hmempty : L₁.heap.get L.heap.length = Table.empty := by simp [hL₁]
  rw [hrun]
  refine ⟨?_, ?_, ?_, ?_, ?_⟩
  · rw [State.length_setmetatable, State.length_rawset, length_setfields, hlen₁]
  · simp [metatables_setfields, hL₁]
  · rw [State.get_setmetatable _ hbound, if_pos rfl, State.get_rawset _ hm,
      if_neg (Nat.ne_of_lt hr), hgrows.heap.2 r hr]
  · rw [State.get_setmetatable _ hbound, if_neg (Nat.ne_of_gt hr), State.get_rawset _ hm,
      if_pos rfl, Table.get_rawset, if_pos rfl]
  · rw [State.get_setmetatable _ hbound, if_neg (Nat.ne_of_gt hr), State.get_rawset _ hm,
      if_pos rfl, Table.get_rawset, if_neg (by decide), get_setfields hm₁ hkeys, hmempty,
      Table.get_empty]

/-- The null singleton, when its type is new. -/
theorem isNullSingleton_pushNull {L : State} (hnone : L.metatables TYPE_NULL = none) :
    IsNullSingleton L.heap.length (pushNull L).1.heap (pushNull L).2 := by
  have hr : L.heap.length < L.newtable.1.heap.length := by simp
  have hrun : pushNull L =
      (setBSONType L.newtable.1 L.heap.length TYPE_NULL 0x0A, .table L.heap.length) := rfl
  obtain ⟨hlength, -, hget, htype, htoBSON⟩ := setBSONType_of_new hr hnone 0x0A
  have hempty : L.newtable.1.heap.get L.heap.length = Table.empty := by simp
  rw [hempty] at hget
  rw [hrun]
  refine ⟨L.heap.length, L.newtable.1.heap.length, rfl, Nat.le_refl _, Nat.le_of_lt hr, ?_, ?_,
    ?_, ?_, htype, htoBSON⟩
  · rw [hlength]
    exact Nat.lt_succ_of_lt hr
  · rw [hlength]
    exact Nat.lt_succ_self _
  · rw [hget]
    rfl
  · rw [hget, Table.metatable_setMetatable]

theorem metatables_newType (L : State) {name name' : Bytes} (hne : name' ≠ name)
    (funcs : List (Bytes × CFun)) :
    (newType L name funcs).1.metatables name' = L.metatables name' := by
  unfold newType
  split
  · rfl
  · simp only [metatables_setfields, if_neg hne, State.metatables_newtable]

theorem metatables_newTyped (L : State) {name name' : Bytes} (hne : name' ≠ name) (type : UInt32)
    (params : List LVal) :
    (newTyped L name type params).1.metatables name' = L.metatables name' := by
  have hpack : (packParams L params).1.metatables = L.metatables := by
    simp only [packParams]
    generalize params.zipIdx = ps
    induction ps with
    | nil => rfl
    | cons p rest ih => exact ih
  have hnew := metatables_newType (packParams L params).1 hne bsontypeFuncs
  rw [hpack] at hnew
  simp only [newTyped, setBSONType]
  split_ifs
  · simpa using hnew
  · simpa using hnew

/-- After opening in a state that has no null type yet, the null slot holds the
null singleton. -/
theorem luaopen_vklib_null {E : Env} {build : Build} {M M' : Machine}
    (hopen : luaopen_vklib E build M = .ok M') (hnone : M.L.metatables TYPE_NULL = none) :
    IsNullSingleton 0 M'.L.heap (M'.L.slots .GLOBAL_NULL) := by
  obtain ⟨M₆, hrun, ⟨r, names, hlib₆⟩, hmeta₆, -⟩ := luaopen_vklib_cached E build M
  have hlib₇ := (hlib₆.openSingleton pushMaxKey
    (fun L => grows_newTyped L _ _ _) (bytes "MaxKey") .GLOBAL_MAXKEY).1
  have hlib₈ := (hlib₇.openSingleton pushMinKey
    (fun L => grows_newTyped L _ _ _) (bytes "MinKey") .GLOBAL_MINKEY).1
  generalize hM₈ : openSingleton (openSingleton M₆ pushMaxKey (bytes "MaxKey") .GLOBAL_MAXKEY)
    pushMinKey (bytes "MinKey") .GLOBAL_MINKEY = M₈ at hrun hlib₈
  have hnone₈ : M₈.L.metatables TYPE_NULL = none := by
    rw [← hM₈]
    have hmax := metatables_newTyped M₆.L (by decide : TYPE_NULL ≠ TYPE_MAXKEY) 0x7F []
    have hmin := metatables_newTyped
      (openSingleton M₆ pushMaxKey (bytes "MaxKey") .GLOBAL_MAXKEY).L
      (by decide : TYPE_NULL ≠ TYPE_MINKEY) 0xFF []
    exact hmin.trans (hmax.trans (by rw [hmeta₆, hnone]))
  obtain ⟨hgrows, hvalue⟩ := grows_newTyped M₈.L TYPE_NULL 0x0A []
  rw [hlib₈.openSingleton_eq hvalue] at hrun
  obtain rfl : _ = M' := by simpa using hrun.symm.trans hopen
  have hnull := isNullSingleton_pushNull hnone₈
  have hr : r < (pushNull M₈.L).1.heap.length := Nat.lt_of_lt_of_le hlib₈.bound hgrows.heap.1
  have hslot : (((pushNull M₈.L).1.rawset r (.str (bytes "Null"))
      (.table M₈.L.heap.length)).rawsetp .GLOBAL_NULL (.table M₈.L.heap.length)).slots
        .GLOBAL_NULL = (pushNull M₈.L).2 := by
    simp [State.rawsetp, pushNull, hvalue]
  simp only [hslot]
  refine hnull.frame (Nat.zero_le _) (Nat.le_of_eq (State.length_rawset _ _ _ _).symm) ?_
  intro r' hlo hr'
  exact (State.get_rawset _ hr r' _ _).trans
    (if_neg (Nat.ne_of_gt (Nat.lt_of_lt_of_le hlib₈.bound hlo)))
end Vklib.Mongo
