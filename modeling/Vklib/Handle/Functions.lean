import Vklib.Handle.Util

/-!
# The functions on handles

Every function that a script can call on a handle, and the constructors, as the
list of what it does to handles and driver objects.  The first statement of a
method takes its receiver, with `luaL_checkudata`.  The rest is a list of `Op`:
the casts of its arguments, the call of the driver whose result it pushes, and
`Op.lua` for everything that leaves the handles alone.  The lists stand in
`funcs` tables under the names of the methods, as in the source.

A cast may call a `__toBSON` metamethod, which is Lua code and may call other
functions.  What such code returns, and what the driver answers, is an `Answer`.

Two things are left out.  The table in which `castBSON` notes the tables it is
in goes with the function.  And an object that only the running function knows,
such as the buffer of a cast, is made where the function hands it on or destroys
it, since nothing happens to it in between.
-/

namespace Vklib.Handle

open Vklib.Lua

/-! ## Pushing objects -/

/-- What the push functions for objects without environment have in common. -/
def pushInheriting (name : TypeName) (L : State) (obj : Option Native) (pidx : Nat) :
    Outcome State State := do
  let L ← pushHandle L obj (-1) pidx
  setType L name

def pushDatabase := pushInheriting .database

def pushCursor := pushInheriting .cursor

def pushBulkOperation := pushInheriting .bulkoperation

def pushGridFSFile := pushInheriting .gridfsfile

def pushGridFSFileList := pushInheriting .gridfsfilelist

/-- `pushCollection`.  References are noted. -/
def pushCollection (L : State) (obj : Option Native) (ref : Bool) (pidx : Nat) :
    Outcome State State := do
  let u := L.objects.length
  let L ← pushHandle L obj (if ref then 1 else -1) pidx
  let L ← setType L .collection
  .ok (if ref then { L with host := { L.host with refs := L.host.refs ++ [u] } } else L)

/-- `pushGridFS`: a new environment, due to dependants. -/
def pushGridFS (L : State) (obj : Option Native) (pidx : Nat) : Outcome State State := do
  let L ← pushHandle L obj 0 pidx
  setType L .gridfs

/-- The end of `newClient`. -/
def pushClient (L : State) (obj : Option Native) : Outcome State State := do
  let L ← pushHandle L obj 0 0
  setType L .client

/-- The end of `newReadPrefs` and of `pushReadPrefs`. -/
def pushReadPrefs (L : State) (obj : Option Native) : Outcome State State := do
  let L ← pushHandle L obj 0 0
  setType L .readprefs

/-- `pushBSON` without handler, of a document: a copy in a new userdata. -/
def pushBSON (L : State) : Outcome State State :=
  setType (lua_newuserdata (born L .bson none) (newborn L)) .bson

/-! ## What a function does -/

/-- The calls of the driver whose result is pushed. -/
inductive Make where
  | client | database | collection | cursor | bulkoperation
  | gridfs | gridfsfile | gridfsfilelist | chunks | files | readprefs
  deriving DecidableEq, Repr

/-- A step of a function. -/
inductive Op where
  /-- Arguments that are no documents, calls of the driver that make nothing,
  and calls of Lua code. -/
  | lua
  | castBSON (idx : Nat)
  | toBSON (idx : Nat)
  /-- A cast that is made when there is such an argument. -/
  | castGiven (idx : Nat)
  /-- `toBSON` of a field of the options. -/
  | fieldBSON
  | toBSONValue (idx : Nat)
  | checkReadPrefs (idx : Nat)
  | toReadPrefs (idx : Nat)
  | make (call : Make)
  /-- The rest of `newReadPrefs`, from the check of the preferences on. -/
  | newReadPrefs
  /-- `commandReply`, or a cursor on the reply. -/
  | reply (cursor : Bool)
  /-- The rest of `findOne`, from the options on. -/
  | findOne
  /-- The rest of `findAndModify`, from the call of the driver on. -/
  | findAndModify
  /-- A document of the driver, or nil. -/
  | pushBSON
  /-- A document as a table, with the documents that are scopes of code in it. -/
  | unpack
  deriving DecidableEq, Repr

/-- How a function goes on after a step: with the next one, with the same one
once more, or not, since it returned. -/
inductive Next where
  | goOn | again | done
  deriving DecidableEq, Repr

/-- What a step does not determine. -/
structure Answer where
  /-- The check passes, and the call of the driver succeeds. -/
  ok : Bool
  /-- Lua code or an allocation raises an error. -/
  raises : Bool
  /-- What a `__toBSON` metamethod returned, when there was one. -/
  toBSON : Option Value
  /-- A field of the options. -/
  field : Value
  /-- Which of two ways a call of the driver took. -/
  found : Bool

section

variable (L : State) (a : Answer)

/-- A new document in a userdata of its own, which replaces the argument when it
succeeds.  A document that fails is destroyed, unless `kept`. -/
def newBSONAt (idx : Nat) (kept : Bool) : Outcome State State :=
  let obj := newborn L
  let L := lua_newuserdata (born L .bson none) obj
  if a.raises then .error L
  else if a.ok then do
    let L ← setType L .bson
    lua_replace L idx
  else .error (if kept then L else destroy L obj)

/-- The value that a `__toBSON` metamethod returned takes the argument's
place. -/
def callToBSON (idx : Nat) : Outcome State State :=
  match a.toBSON with
  | some v => lua_replace (push L v) idx
  | none => .ok L

/-- `castBSON`.  From a string that is no document but wrong JSON nothing was
made. -/
def castBSON (idx : Nat) : Outcome State State :=
  match index2value L.stack idx with
  | none => .error L
  | some (.str _) => newBSONAt L a idx a.found
  | some (.int _) => newBSONAt L a idx a.found
  | some (.flt _) => newBSONAt L a idx a.found
  | some _ => do
    let L ← callToBSON L a idx
    if (luaL_testudata L idx .bson).isSome then .ok L
    else
      match index2value L.stack idx with
      | some (.table _) => newBSONAt L a idx false
      | _ => .error L

/-- `toBSON`. -/
def toBSON (idx : Nat) : Outcome State State :=
  match index2value L.stack idx with
  | none => .ok L
  | some .nil => .ok L
  | some _ => castBSON L a idx

/-- `toBSONValue`.  The document of a table is destroyed by taking its buffer. -/
def toBSONValue (idx : Nat) : Outcome State State :=
  match index2value L.stack idx with
  | none => .error L
  | some _ => do
    let L ← callToBSON L a idx
    match index2value L.stack idx, a.found with
    | some (.table _), false =>
      let obj := newborn L
      let L := born L .bson none
      if a.raises then .error L
      else if a.ok then .ok (destroy L obj)
      else .error (destroy L obj)
    | _, _ => if a.ok then .ok L else .error L

/-- `checkReadPrefs`. -/
def checkReadPrefs (idx : Nat) : Outcome State State := do
  let _ ← luaL_checkudata L idx .readprefs
  .ok L

/-- `toReadPrefs`. -/
def toReadPrefs (idx : Nat) : Outcome State State :=
  match index2value L.stack idx with
  | none => .ok L
  | some .nil => .ok L
  | some _ => checkReadPrefs L idx

/-- A call of the driver that succeeds, with its result pushed.  `self` is the
object of the receiver. -/
def makeAndPush (self : Option Native) : Make → Outcome State State
  | .client => pushClient (born L .client none) (some (newborn L))
  | .database => pushDatabase (born L .database self) (some (newborn L)) 1
  | .collection => pushCollection (born L .collection self) (some (newborn L)) false 1
  | .cursor => pushCursor (born L .cursor self) (some (newborn L)) 1
  | .bulkoperation => pushBulkOperation (born L .bulkoperation self) (some (newborn L)) 1
  | .gridfs => pushGridFS (born L .gridfs self) (some (newborn L)) 1
  | .gridfsfile => pushGridFSFile (born L .gridfsfile self) (some (newborn L)) 1
  | .gridfsfilelist => pushGridFSFileList (born L .gridfsfilelist self) (some (newborn L)) 1
  | .chunks => pushCollection L (self.map .chunks) true 1
  | .files => pushCollection L (self.map .files) true 1
  | .readprefs => pushReadPrefs (born L .readprefs none) (some (newborn L))

/-- Go on after a step that is a function of the binding. -/
def goOn (r : Outcome State State) : Outcome State (State × Next) := do
  let L ← r
  .ok (L, .goOn)

/-- A step of a function whose receiver is the object `self`. -/
def exec (self : Option Native) : Op → Outcome State (State × Next)
  | .lua => if a.ok then .ok (L, .goOn) else .error L
  | .castBSON idx => goOn (castBSON L a idx)
  | .toBSON idx => goOn (toBSON L a idx)
  | .castGiven idx => if idx ≤ L.stack.length then goOn (castBSON L a idx) else .ok (L, .goOn)
  | .fieldBSON => goOn (toBSON (push L a.field) a (L.stack.length + 1))
  | .toBSONValue idx => goOn (toBSONValue L a idx)
  | .checkReadPrefs idx => goOn (checkReadPrefs L idx)
  | .toReadPrefs idx => goOn (toReadPrefs L idx)
  | .make call => if a.ok then goOn (makeAndPush L self call) else .ok (L, .done)
  | .newReadPrefs =>
    if a.ok then goOn (pushReadPrefs (born L .readprefs none) (some (newborn L)))
    else .error (destroy (born L .readprefs none) (newborn L))
  | .reply cursor =>
    let obj := newborn L
    let L := born L .bson none
    if cursor && a.found then
      -- the cursor takes the reply over
      goOn (pushCursor (born L .cursor self) (some (newborn L)) 1)
    else if a.ok then goOn (setType (lua_newuserdata L obj) .bson)
    else .ok (destroy L obj, .done)
  | .findOne => do
    let opts := newborn L
    let L := born L .bson none
    let cursor := newborn L
    let L := born L .cursor self
    let L ← if a.ok then pushBSON L else .ok L
    .ok (destroy (destroy L cursor) opts, .goOn)
  | .findAndModify => do
    let reply := newborn L
    let L := born L .bson none
    if a.raises then .error L
    else do
      let L ← if a.ok then pushBSON L else .ok L
      .ok (destroy L reply, .goOn)
  | .pushBSON => if a.ok then goOn (pushBSON L) else .ok (L, .done)
  | .unpack =>
    if a.raises then .error L
    else if a.found then do
      let L ← pushBSON L
      .ok (L, .again)
    else .ok (L, .goOn)

/-! ## Finalisers -/

/-- What the finalisers have in common: the object of the receiver is destroyed,
and the value at the top loses its metatable. -/
def destroyAndUnset (name : TypeName) : Outcome State State := do
  let obj ← luaL_checkudata L 1 name
  unsetType (destroy L obj)

/-- `m__gc` of collections, which leaves references alone. -/
def Collection.m__gc : Outcome State State := do
  let obj ← luaL_checkudata L 1 .collection
  let (mode, L) ← getHandleMode L 1
  if mode ≠ 0 then .ok L else unsetType (destroy L obj)

/-- `m__gc` of each type. -/
def m__gc : TypeName → Outcome State State
  | .collection => Collection.m__gc L
  | name => destroyAndUnset L name

end

/-! ## The tables -/

/-- A function of the binding: a method with the type of its receiver, or a
constructor. -/
structure CFunction where
  name : String
  self : Option TypeName
  body : List Op
  deriving DecidableEq, Repr

/-- `setFileOpts`. -/
def setFileOpts : List Op := [.lua, .fieldBSON, .lua, .fieldBSON]

namespace Client

def funcs : List CFunction := [
  ⟨"command", some .client, [.lua, .castBSON 3, .toBSON 4, .toReadPrefs 5, .reply true]⟩,
  ⟨"getCollection", some .client, [.lua, .make .collection]⟩,
  ⟨"getDatabase", some .client, [.lua, .make .database]⟩,
  ⟨"getDatabaseNames", some .client, [.toBSON 2, .lua]⟩,
  ⟨"getDefaultDatabase", some .client, [.make .database]⟩,
  ⟨"getGridFS", some .client, [.lua, .make .gridfs]⟩,
  ⟨"getReadPrefs", some .client, [.make .readprefs]⟩,
  ⟨"setReadPrefs", some .client, [.checkReadPrefs 2, .lua]⟩]

end Client

namespace Database

def funcs : List CFunction := [
  ⟨"addUser", some .database, [.lua, .toBSON 4, .toBSON 5, .lua]⟩,
  ⟨"createCollection", some .database, [.lua, .toBSON 3, .make .collection]⟩,
  ⟨"drop", some .database, [.toBSON 2, .lua]⟩,
  ⟨"getCollection", some .database, [.lua, .make .collection]⟩,
  ⟨"getCollectionNames", some .database, [.toBSON 2, .lua]⟩,
  ⟨"getName", some .database, [.lua]⟩,
  ⟨"getReadPrefs", some .database, [.make .readprefs]⟩,
  ⟨"hasCollection", some .database, [.lua]⟩,
  ⟨"removeAllUsers", some .database, [.lua]⟩,
  ⟨"removeUser", some .database, [.lua]⟩,
  ⟨"setReadPrefs", some .database, [.checkReadPrefs 2, .lua]⟩]

end Database

namespace Collection

def funcs : List CFunction := [
  ⟨"aggregate", some .collection, [.castBSON 2, .toBSON 3, .toReadPrefs 4, .make .cursor]⟩,
  ⟨"count", some .collection, [.castBSON 2, .toBSON 3, .toReadPrefs 4, .lua]⟩,
  ⟨"createBulkOperation", some .collection, [.toBSON 2, .make .bulkoperation]⟩,
  ⟨"drop", some .collection, [.toBSON 2, .lua]⟩,
  ⟨"find", some .collection, [.castBSON 2, .toBSON 3, .toReadPrefs 4, .make .cursor]⟩,
  ⟨"findAndModify", some .collection, [.castBSON 2, .castBSON 3, .findAndModify]⟩,
  ⟨"findOne", some .collection, [.castBSON 2, .toBSON 3, .toReadPrefs 4, .findOne]⟩,
  ⟨"getName", some .collection, [.lua]⟩,
  ⟨"getReadPrefs", some .collection, [.make .readprefs]⟩,
  ⟨"insert", some .collection, [.castBSON 2, .lua]⟩,
  -- no more than `LUA_MINSTACK` documents
  ⟨"insertMany", some .collection, .lua :: (List.range 20).map (fun i => .castGiven (i + 2)) ++ [.lua]⟩,
  ⟨"insertOne", some .collection, [.castBSON 2, .toBSON 3, .lua]⟩,
  ⟨"remove", some .collection, [.castBSON 2, .lua]⟩,
  ⟨"removeMany", some .collection, [.castBSON 2, .toBSON 3, .lua]⟩,
  ⟨"removeOne", some .collection, [.castBSON 2, .toBSON 3, .lua]⟩,
  ⟨"rename", some .collection, [.lua, .toBSON 5, .lua]⟩,
  ⟨"replaceOne", some .collection, [.castBSON 2, .castBSON 3, .toBSON 4, .lua]⟩,
  ⟨"setReadPrefs", some .collection, [.checkReadPrefs 2, .lua]⟩,
  ⟨"update", some .collection, [.castBSON 2, .castBSON 3, .lua]⟩,
  ⟨"updateMany", some .collection, [.castBSON 2, .castBSON 3, .toBSON 4, .lua]⟩,
  ⟨"updateOne", some .collection, [.castBSON 2, .castBSON 3, .toBSON 4, .lua]⟩]

end Collection

namespace Cursor

def funcs : List CFunction := [
  ⟨"more", some .cursor, [.lua]⟩,
  ⟨"next", some .cursor, [.pushBSON]⟩,
  ⟨"value", some .cursor, [.unpack]⟩,
  ⟨"iterator", some .cursor, [.lua]⟩,
  -- the function that "iterator" returns
  ⟨"iterator()", some .cursor, [.unpack]⟩]

end Cursor

namespace BulkOperation

def funcs : List CFunction := [
  ⟨"execute", some .bulkoperation, [.reply false]⟩,
  ⟨"insert", some .bulkoperation, [.castBSON 2, .toBSON 3, .lua]⟩,
  ⟨"removeMany", some .bulkoperation, [.castBSON 2, .toBSON 3, .lua]⟩,
  ⟨"removeOne", some .bulkoperation, [.castBSON 2, .toBSON 3, .lua]⟩,
  ⟨"replaceOne", some .bulkoperation, [.castBSON 2, .castBSON 3, .toBSON 4, .lua]⟩,
  ⟨"updateMany", some .bulkoperation, [.castBSON 2, .castBSON 3, .toBSON 4, .lua]⟩,
  ⟨"updateOne", some .bulkoperation, [.castBSON 2, .castBSON 3, .toBSON 4, .lua]⟩]

end BulkOperation

namespace GridFS

def funcs : List CFunction := [
  ⟨"createFile", some .gridfs, setFileOpts ++ [.make .gridfsfile]⟩,
  ⟨"createFileFrom", some .gridfs, .lua :: setFileOpts ++ [.make .gridfsfile]⟩,
  ⟨"drop", some .gridfs, [.lua]⟩,
  ⟨"find", some .gridfs, [.castBSON 2, .toBSON 3, .make .gridfsfilelist]⟩,
  ⟨"findOne", some .gridfs, [.castBSON 2, .toBSON 3, .make .gridfsfile]⟩,
  ⟨"findOneByFilename", some .gridfs, [.lua, .make .gridfsfile]⟩,
  ⟨"getChunks", some .gridfs, [.make .chunks]⟩,
  ⟨"getFiles", some .gridfs, [.make .files]⟩,
  ⟨"removeByFilename", some .gridfs, [.lua]⟩]

end GridFS

namespace GridFSFile

def funcs : List CFunction :=
  ["getChunkSize", "getContentType", "getFilename", "getLength", "getMD5", "getUploadDate", "read",
    "remove", "save", "seek", "setContentType", "setFilename", "setMD5", "tell", "write",
    "__len"].map (fun name => ⟨name, some .gridfsfile, [.lua]⟩) ++
  [⟨"getAliases", some .gridfsfile, [.pushBSON]⟩,
  ⟨"getId", some .gridfsfile, [.pushBSON]⟩,
  ⟨"getMetadata", some .gridfsfile, [.pushBSON]⟩,
  ⟨"setAliases", some .gridfsfile, [.castBSON 2, .lua]⟩,
  ⟨"setId", some .gridfsfile, [.toBSONValue 2, .lua]⟩,
  ⟨"setMetadata", some .gridfsfile, [.castBSON 2, .lua]⟩]

end GridFSFile

namespace GridFSFileList

def funcs : List CFunction := [
  ⟨"next", some .gridfsfilelist, [.make .gridfsfile]⟩,
  ⟨"iterator", some .gridfsfilelist, [.lua]⟩]

end GridFSFileList

namespace BSON

def funcs : List CFunction := [
  ⟨"append", some .bson, [.lua, .toBSONValue 3]⟩,
  ⟨"concat", some .bson, [.castBSON 2, .lua]⟩,
  ⟨"data", some .bson, [.lua]⟩,
  ⟨"find", some .bson, [.lua, .pushBSON]⟩,
  ⟨"value", some .bson, [.unpack]⟩,
  ⟨"__tostring", some .bson, [.lua]⟩,
  ⟨"__len", some .bson, [.lua]⟩,
  ⟨"__eq", some .bson, [.lua]⟩]

end BSON

/-- The functions of the module that make objects. -/
def constructors : List CFunction := [
  ⟨"newBSON", none, [.castBSON 1]⟩,
  ⟨"newClient", none, [.lua, .make .client]⟩,
  ⟨"newJavascript", none, [.lua, .toBSON 2]⟩,
  ⟨"newReadPrefs", none, [.lua, .toBSON 2, .lua, .newReadPrefs]⟩]

/-- All functions but the finalisers. -/
def functions : List CFunction :=
  Client.funcs ++ Database.funcs ++ Collection.funcs ++ Cursor.funcs ++ BulkOperation.funcs ++
    GridFS.funcs ++ GridFSFile.funcs ++ GridFSFileList.funcs ++ BSON.funcs ++ constructors

end Vklib.Handle
