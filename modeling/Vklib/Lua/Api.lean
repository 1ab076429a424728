import Vklib.Base.Outcome
import Vklib.Lua.Value

/-!
# The stack of a C function

A C function that Lua calls works on a stack of values.  It addresses them from
the bottom with positive indices, where its arguments start at 1, and from the
top with negative ones.  `LState` is that stack with what all functions share:
the tables, the full userdata, and the state `S` of the host program.

`T` is the type of the names under which the registry keeps metatables, and `P`
the type of what the host program stores in a userdata.  A metatable of the
registry is known by its name.  The stack is listed from the top, so a push is a
`cons`.

A Lua error leaves the function and keeps what it did to tables and objects, so
the error of an `Outcome` is the state at which it was raised.  A call that the
manual does not allow, such as a raw access to something that is no table, is
undefined.
-/

namespace Vklib.Lua

/-- The identity of a full userdata: its place in the list of objects. -/
abbrev Udata := Nat

/-- The values that Lua code cannot look into: full userdata, and the metatables
of the registry. -/
inductive Opaque (T : Type) where
  | udata (u : Udata)
  | metatable (name : T)
  deriving DecidableEq, Repr

/-- A full userdata with one user value. -/
structure Object (T P : Type) where
  payload : P
  metatable : Option T
  uservalue : Val (Opaque T)

/-- What a C function sees. -/
structure LState (T P S : Type) where
  /-- From the top down. -/
  stack : List (Val (Opaque T))
  heap : Heap (Opaque T)
  objects : List (Object T P)
  host : S

variable {T P S : Type}

/-- `index2value` of the stack. -/
def index2value (stack : List (Val (Opaque T))) (idx : Int) : Option (Val (Opaque T)) :=
  if 0 < idx then stack.reverse[idx.toNat - 1]? else stack[(-idx).toNat - 1]?

@[simp] theorem index2value_top (v : Val (Opaque T)) (s : List (Val (Opaque T))) :
    index2value (v :: s) (-1) = some v := rfl

@[simp] theorem index2value_third (v w x : Val (Opaque T)) (s : List (Val (Opaque T))) :
    index2value (v :: w :: x :: s) (-3) = some x := rfl

@[simp] theorem index2value_second (v w : Val (Opaque T)) (s : List (Val (Opaque T))) :
    index2value (v :: w :: s) (-2) = some w := rfl

/-- A push leaves the positive indices alone. -/
theorem index2value_push {s : List (Val (Opaque T))} {n : Nat} {w : Val (Opaque T)}
    (h : index2value s n = some w) (hn : 0 < n)
    (v : Val (Opaque T)) :
    index2value (v :: s) n = some w := by
  have hpos : 0 < (n : Int) := by omega
  unfold index2value at h ⊢
  rw [if_pos hpos] at h ⊢
  obtain ⟨hlt, -⟩ := List.getElem?_eq_some_iff.mp h
  rw [List.reverse_cons, List.getElem?_append_left hlt]
  exact h

section

variable (L : LState T P S)

/-- `lua_pushnil`, `lua_pushinteger` and the like. -/
def push (v : Val (Opaque T)) : LState T P S := { L with stack := v :: L.stack }

/-- `lua_pop`. -/
def lua_pop (n : Nat) : LState T P S := { L with stack := L.stack.drop n }

/-- `lua_pushvalue`. -/
def lua_pushvalue (idx : Int) : Outcome (LState T P S) (LState T P S) :=
  match index2value L.stack idx with
  | some v => .ok (push L v)
  | none => .undefined

/-- `lua_replace`: the top value moves to an index. -/
def lua_replace (idx : Nat) : Outcome (LState T P S) (LState T P S) :=
  match L.stack with
  | v :: s =>
    if 0 < idx ∧ idx ≤ s.length then .ok { L with stack := (s.reverse.set (idx - 1) v).reverse }
    else .undefined
  | [] => .undefined

/-- `lua_createtable`. -/
def lua_createtable : LState T P S :=
  { L with stack := .table L.heap.length :: L.stack, heap := L.heap ++ [Table.empty] }

/-- `lua_rawseti`: the top value goes into the table at an index. -/
def lua_rawseti (idx : Int) (n : Int) : Outcome (LState T P S) (LState T P S) :=
  match L.stack, index2value L.stack idx with
  | v :: s, some (.table r) =>
    .ok { L with stack := s, heap := L.heap.set r ((L.heap.get r).rawset (.int n) v) }
  | _, _ => .undefined

/-- `lua_rawgeti`. -/
def lua_rawgeti (idx : Int) (n : Int) : Outcome (LState T P S) (LState T P S) :=
  match index2value L.stack idx with
  | some (.table r) => .ok (push L ((L.heap.get r).get (.int n)))
  | _ => .undefined

/-- `lua_pushstring`: a null pointer pushes nil. -/
def lua_pushstring : Option Bytes → LState T P S
  | some s => push L (.str s)
  | none => push L .nil

/-- `lua_settable` on a table without metatable, with nil or a string as the key:
the value on top goes under the key below it. -/
def lua_settable (idx : Int) : Outcome (LState T P S) (LState T P S) :=
  match L.stack, index2value L.stack idx with
  | v :: .str k :: s, some (.table r) =>
    .ok { L with stack := s, heap := L.heap.set r ((L.heap.get r).rawset (.str k) v) }
  | _ :: .nil :: _, some (.table _) => .error L
  | _, _ => .undefined

/-- `lua_newuserdata`, with what the host program stores in it. -/
def lua_newuserdata (payload : P) : LState T P S :=
  { L with
    stack := .host (.udata L.objects.length) :: L.stack
    objects := L.objects ++ [{ payload := payload, metatable := none, uservalue := .nil }] }

/-- The userdata at an index. -/
def objectAt (idx : Int) : Option (Udata × Object T P) :=
  match index2value L.stack idx with
  | some (.host (.udata u)) => (L.objects[u]?).map fun o => (u, o)
  | _ => none

/-- `lua_getuservalue`. -/
def lua_getuservalue (idx : Int) : Outcome (LState T P S) (LState T P S) :=
  match objectAt L idx with
  | some (_, o) => .ok (push L o.uservalue)
  | none => .undefined

/-- `lua_setuservalue`: the top value becomes the user value of the userdata at
an index. -/
def lua_setuservalue (idx : Int) : Outcome (LState T P S) (LState T P S) :=
  match L.stack, objectAt L idx with
  | v :: s, some (u, o) =>
    .ok { L with stack := s, objects := L.objects.set u { o with uservalue := v } }
  | _, _ => .undefined

/-- `luaL_newmetatable`, which pushes the metatable of a name. -/
def luaL_newmetatable (name : T) : LState T P S := push L (.host (.metatable name))

/-- `lua_setmetatable`: the top value, nil or a metatable, becomes the metatable
of the value at an index.  For a value that is neither a userdata nor a table it
is set for the whole type of the value, which no function here looks at. -/
def lua_setmetatable (idx : Int) : Outcome (LState T P S) (LState T P S) :=
  match L.stack, index2value L.stack idx with
  | .nil :: s, some (.table r) =>
    .ok { L with stack := s, heap := L.heap.set r ((L.heap.get r).setMetatable none) }
  | .nil :: s, some v =>
    match v, objectAt L idx with
    | .host (.udata _), some (u, o) =>
      .ok { L with stack := s, objects := L.objects.set u { o with metatable := none } }
    | _, _ => .ok { L with stack := s }
  | .host (.metatable name) :: s, some (.host (.udata _)) =>
    match objectAt L idx with
    | some (u, o) =>
      .ok { L with stack := s, objects := L.objects.set u { o with metatable := some name } }
    | none => .undefined
  | _, _ => .undefined

/-- `luaL_testudata`. -/
def luaL_testudata [DecidableEq T] (idx : Int) (name : T) : Option P :=
  (objectAt L idx).bind fun p => if p.2.metatable = some name then some p.2.payload else none

/-- `luaL_checkudata`: what the userdata holds, or an error. -/
def luaL_checkudata [DecidableEq T] (idx : Int) (name : T) : Outcome (LState T P S) P :=
  match luaL_testudata L idx name with
  | some payload => .ok payload
  | none => .error L

/-- `lua_rawequal`. -/
def lua_rawequal [DecidableEq T] (idx idx' : Int) : Bool :=
  index2value L.stack idx == index2value L.stack idx'

end

end Vklib.Lua
