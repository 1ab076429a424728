import Vklib.Lua.Api
import Vklib.Lua.Convert

/-!
# Handles of driver objects

The part of `util.c` that puts driver objects into userdata.  A handle has an
environment, a table that is its user value: at 1 the handle that the
environment was made for, at 2 its mode, at 3 the environment of the parent.
`pushHandle` makes an environment or takes over that of the parent.

`Driver` is the state of the driver as far as it matters here: which objects it
has made, and for which of them a destroy function was called.  A `Native` is a
pointer to a driver object.  The two collections that a GridFS object keeps
belong to it, and every other object belongs to whoever asked for it.
-/

namespace Vklib.Handle

open Vklib.Lua

/-- The type names of userdata with a driver object. -/
inductive TypeName where
  | client | database | collection | cursor | bulkoperation
  | gridfs | gridfsfile | gridfsfilelist | readprefs | bson
  deriving DecidableEq, Repr

/-- A driver object. -/
inductive Native where
  | own (id : Nat)
  | chunks (gridfs : Native)
  | files (gridfs : Native)
  deriving DecidableEq, Repr

/-- What the driver knows of an object: its type, and the object whose function
made it and which it goes on to use. -/
structure Birth where
  type : TypeName
  parent : Option Native
  deriving DecidableEq, Repr

/-- The state of the driver. -/
structure Driver where
  /-- The objects made so far: `own id` is the one at `id`. -/
  births : List Birth
  /-- The objects that destroy functions were called for, in order. -/
  destroyed : List Native
  /-- The handles pushed as references. -/
  refs : List Udata

/-- A Lua value. -/
abbrev Value := Val (Opaque TypeName)

/-- A userdata with a driver object. -/
abbrev Userdata := Object TypeName Native

/-- What a function of the binding sees. -/
abbrev State := LState TypeName Native Driver

/-- A userdata as a value. -/
abbrev handle (u : Udata) : Value := .host (.udata u)

section

variable (L : State)

/-- A function of the driver makes an object. -/
def born (type : TypeName) (parent : Option Native) : State :=
  { L with host := { L.host with births := L.host.births ++ [{ type := type, parent := parent }] } }

/-- The object that `born` makes. -/
def newborn : Native := .own L.host.births.length

/-- A destroy function of the driver is called. -/
def destroy (obj : Native) : State :=
  { L with host := { L.host with destroyed := L.host.destroyed ++ [obj] } }

/-- `setType`. -/
def setType (name : TypeName) : Outcome State State :=
  lua_setmetatable (luaL_newmetatable L name) (-2)

/-- `unsetType`: the value at the top loses its metatable. -/
def unsetType : Outcome State State := lua_setmetatable (push L .nil) (-2)

/-- `pushHandle`. -/
def pushHandle (obj : Option Native) (mode : Int) (pidx : Nat) : Outcome State State :=
  match obj with
  | none => .error L
  | some obj => do
    let L := lua_newuserdata L obj
    let L ←
      if mode < 0 then lua_getuservalue L pidx
      else do
        let L := lua_createtable L
        let L ← lua_pushvalue L (-2)
        let L ← lua_rawseti L (-2) 1
        let L := push L (.int (Int64.ofInt mode))
        let L ← lua_rawseti L (-2) 2
        if pidx ≠ 0 then do
          let L ← lua_getuservalue L pidx
          lua_rawseti L (-2) 3
        else .ok L
    lua_setuservalue L (-2)

/-- `lua_tointeger` of the top value. -/
def topInteger : Int :=
  ((index2value L.stack (-1)).bind (tointegerx fun _ => none)).elim 0 Int64.toInt

/-- `getHandleMode`. -/
def getHandleMode (idx : Int) : Outcome State (Int × State) := do
  let L ← lua_getuservalue L idx
  let L ← lua_rawgeti L (-1) 1
  if lua_rawequal L (-1) idx = false then .ok (0, lua_pop L 2)
  else do
    let L ← lua_rawgeti L (-2) 2
    .ok (topInteger L, lua_pop L 3)

end

/-! ## What `pushHandle` does -/

section

variable {L : State} {obj : Native} {p : Udata} {parent : Userdata}

/-- The state with one more userdata, on top of the stack. -/
def withObject (L : State) (obj : Native) (metatable : Option TypeName) (uservalue : Value) : State :=
  { L with
    stack := handle L.objects.length :: L.stack
    objects := L.objects ++ [{ payload := obj, metatable := metatable, uservalue := uservalue }] }

/-- An environment without parent. -/
def rootEnv (u : Udata) (mode : Int) : Table (Opaque TypeName) :=
  (Table.empty.rawset (.int 1) (handle u)).rawset (.int 2) (.int (Int64.ofInt mode))

/-- The state with one more table. -/
def withTable (L : State) (t : Table (Opaque TypeName)) : State := { L with heap := L.heap ++ [t] }

theorem objectAt_of_index {idx : Int} (hidx : index2value L.stack idx = some (handle p))
    (hp : L.objects[p]? = some parent) : objectAt L idx = some (p, parent) := by
  simp [objectAt, hidx, hp]

/-- A handle that inherits the environment of the parent. -/
theorem pushHandle_inherit {mode : Int} (hmode : mode < 0)
    (hp : index2value L.stack 1 = some (handle p)) (hparent : L.objects[p]? = some parent) :
    pushHandle L (some obj) mode 1 = .ok (withObject L obj none parent.uservalue) := by
  have hlt : p < L.objects.length := (List.getElem?_eq_some_iff.mp hparent).1
  have hindex := index2value_push (n := 1) hp (by omega) (handle L.objects.length)
  have hget : objectAt (lua_newuserdata L obj) ((1 : Nat) : Int) = some (p, parent) := by
    apply objectAt_of_index hindex
    show (L.objects ++ _)[p]? = some parent
    rw [List.getElem?_append_left hlt, hparent]
  unfold pushHandle
  simp only [if_pos hmode, lua_getuservalue, hget, Outcome.ok_bind]
  simp [lua_setuservalue, objectAt, lua_newuserdata, push, withObject]

/-- A handle with an environment of its own. -/
theorem pushHandle_root {mode : Int} (hmode : ¬ mode < 0) :
    pushHandle L (some obj) mode 0 =
      .ok (withObject (withTable L (rootEnv L.objects.length mode)) obj none
        (.table L.heap.length)) := by
  unfold pushHandle
  simp [if_neg hmode, lua_pushvalue, lua_createtable, lua_newuserdata, lua_rawseti, push,
    rootEnv, lua_setuservalue, objectAt, withObject, withTable]

/-- A handle with an environment of its own, linked to that of the parent. -/
theorem pushHandle_child {mode : Int} (hmode : ¬ mode < 0)
    (hp : index2value L.stack 1 = some (handle p)) (hparent : L.objects[p]? = some parent) :
    pushHandle L (some obj) mode 1 =
      .ok (withObject (withTable L ((rootEnv L.objects.length mode).rawset (.int 3)
        parent.uservalue)) obj none (.table L.heap.length)) := by
  have hlt : p < L.objects.length := (List.getElem?_eq_some_iff.mp hparent).1
  have hindex := index2value_push (n := 1)
    (index2value_push (n := 1) hp (by omega) (handle L.objects.length)) (by omega)
    (.table L.heap.length)
  have hobject : (L.objects ++ [(⟨obj, none, .nil⟩ : Userdata)])[p]? =
      some parent := by
    rw [List.getElem?_append_left hlt, hparent]
  unfold pushHandle
  simp only [Nat.cast_one] at hindex
  simp [if_neg hmode, lua_pushvalue, lua_createtable, lua_newuserdata, lua_rawseti, push,
    rootEnv, lua_setuservalue, lua_getuservalue, objectAt, withObject, withTable,
    hindex, hobject]

/-- `setType` on a new userdata. -/
theorem setType_withObject (name : TypeName) (uservalue : Value) :
    setType (withObject L obj none uservalue) name =
      .ok (withObject L obj (some name) uservalue) := by
  simp [setType, lua_setmetatable, luaL_newmetatable, push, withObject, objectAt]

/-! ## Metatables and modes -/

/-- The state in which a value has lost its metatable. -/
def cleared (L : State) : Value → State
  | .host (.udata u) =>
    { L with objects := L.objects.modify u fun o => { o with metatable := none } }
  | .table r => { L with heap := L.heap.set r ((L.heap.get r).setMetatable none) }
  | _ => L

theorem modify_eq_set_of_getElem? {α : Type} {xs : List α} {i : Nat} {x : α} (h : xs[i]? = some x)
    (f : α → α) : xs.modify i f = xs.set i (f x) := by
  obtain ⟨hlt, rfl⟩ := List.getElem?_eq_some_iff.mp h
  apply List.ext_getElem?
  intro j
  rw [List.getElem?_modify, List.getElem?_set]
  by_cases hij : i = j
  · subst hij
    simp [hlt]
  · simp [hij]

theorem unsetType_eq {v : Value} {s : List Value} (hstack : L.stack = v :: s) :
    unsetType L = .ok (cleared L v) := by
  obtain ⟨stack, heap, objects, host⟩ := L
  simp only at hstack
  subst hstack
  unfold unsetType lua_setmetatable
  cases v with
  | host x =>
    cases x with
    | udata u =>
      cases hu : objects[u]? with
      | none =>
        have hlen := List.getElem?_eq_none_iff.mp hu
        simp [push, objectAt, hu, cleared, List.modify_eq_self hlen]
      | some o => simp [push, objectAt, hu, cleared, modify_eq_set_of_getElem? hu]
    | metatable name => simp [push, cleared]
  | table r => simp [push, cleared]
  | _ => simp [push, cleared]

/-- The mode that an environment gives to a handle. -/
def envMode (t : Table (Opaque TypeName)) (u : Udata) : Int :=
  if t.get (.int 1) = handle u then
    (tointegerx (fun _ => none) (t.get (.int 2))).elim 0 Int64.toInt
  else 0

theorem getHandleMode_eq {u : Udata} {o : Userdata} {e : Ref}
    (hu : index2value L.stack 1 = some (handle u)) (ho : L.objects[u]? = some o)
    (he : o.uservalue = .table e) : getHandleMode L 1 = .ok (envMode (L.heap.get e) u, L) := by
  have hindex := index2value_push (n := 1) (index2value_push (n := 1) hu (by omega) (.table e))
    (by omega) ((L.heap.get e).get (.int 1))
  simp only [Nat.cast_one] at hindex
  unfold getHandleMode
  simp only [lua_getuservalue, objectAt_of_index hu ho, Outcome.ok_bind, he, push, lua_rawgeti,
    index2value_top, lua_rawequal, hindex, index2value_second]
  by_cases hself : (L.heap.get e).get (.int 1) = handle u
  · simp [hself, envMode, lua_pop, topInteger]
  · simp [hself, envMode, lua_pop]

end

end Vklib.Handle
