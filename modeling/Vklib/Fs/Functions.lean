import Vklib.Base.Outcome
import Vklib.Posix.Syscalls

/-!
# The functions of `vklib_fs.c`

The POSIX branch of the module, over the system calls of `Posix.Syscalls`.  A
`World` is the file system with the last error number.  The functions get the
Lua strings of their arguments and read them as C strings.

`_compat_rmdir` calls itself on longer and longer paths, and a path that is too
long is not opened, so the recursion ends.  `fuel` bounds it here, and
`removalFuel` is enough.

Two things are left out.  The text of a failure is the content of a local array
of `get_error` that is gone when it is read, so a failure is the name of the
call and the error number.  And `malloc` always succeeds.
-/

namespace Vklib.Fs

open Vklib.Posix

/-- The file system and `errno`. -/
structure World where
  fs : FS
  errno : Errno

/-- What a function hands back to Lua.  A failure is nil with a message about
the failed call. -/
inductive Reply where
  | boolean (b : Bool)
  | string (s : Bytes)
  | list (names : List Name)
  | failure (call : Bytes) (errno : Errno)
  deriving DecidableEq, Repr

/-- The world after a call that changes the file system, and whether it
succeeded. -/
def World.after (w : World) : Except Errno FS → World × Bool
  | .ok fs => ({ w with fs := fs }, true)
  | .error e => ({ w with errno := e }, false)

/-- The failure of a call, by the current error number. -/
def World.failure (w : World) (call : String) : Reply := .failure (bytes call) w.errno

section

variable (K : Kernel)

/-! ## Helpers of the module -/

/-- `_compat_mkdir`, true for the result zero.  The result of `mkdir` is not
looked at.  `stat` gets the address of the pointer `st` instead of the pointer,
so what it finds is written over the stack. -/
def _compat_mkdir (path : Bytes) (w : World) : Outcome Empty (World × Bool) :=
  match stat K w.fs path with
  | .error e => .ok (({ w with errno := e }.after (mkdir K w.fs path)).1, true)
  | .ok _ => .undefined

/-- `is_file`. -/
def is_file (path : Bytes) (w : World) : World × Bool :=
  match stat K w.fs path with
  | .error e => ({ w with errno := e }, false)
  | .ok node => (w, node.isFile)

/-- The path of an entry: `sprintf` with `"%s/%s"`. -/
def subpath (path : Bytes) (name : Name) : Bytes := path ++ 47 :: name

/-- The loop of `_compat_rmdir` over the entries of the directory at `path`.
`descend` is the recursive call. -/
def removeEntries (descend : Bytes → World → Outcome Empty (World × Bool)) (path : Bytes) :
    List Name → World → Outcome Empty World
  | [], w => .ok w
  | name :: rest, w =>
    if name = bytes "." ∨ name = bytes ".." then removeEntries descend path rest w
    else
      match is_file K (subpath path name) w with
      | (w, true) =>
        removeEntries descend path rest (w.after (remove K w.fs (subpath path name))).1
      | (w, false) => do
        let (w, _) ← descend (subpath path name) w
        removeEntries descend path rest w

/-- `_compat_rmdir`, true for the result zero. -/
def _compat_rmdir : Nat → Bytes → Bool → World → Outcome Empty (World × Bool)
  | 0, _, _, _ => .outOfFuel
  | fuel + 1, path, recurse, w =>
    if recurse = false then .ok (w.after (rmdir K w.fs path))
    else
      match opendir K w.fs path with
      | .error e => .ok ({ w with errno := e }, false)
      | .ok dir => do
        let w ← removeEntries K (fun path => _compat_rmdir fuel path true) path
          (readdir K w.fs path dir) w
        .ok (w.after (rmdir K w.fs path))

/-- Fuel for every recursion of `_compat_rmdir`. -/
def removalFuel : Nat := K.pathMax + 1

/-! ## The functions -/

/-- The removal step of `fs.create_dir`, with the reply when it fails. -/
def clearDir (path : Bytes) (w : World) : Outcome Empty (World × Option Reply) := do
  let (w, removed) ← _compat_rmdir K (removalFuel K) path true w
  .ok (w, if removed = false ∧ w.errno ≠ .ENOENT then some (w.failure "rmdir") else none)

/-- The end of `fs.create_dir`. -/
def makeDir (path : Bytes) (w : World) : Outcome Empty (World × Reply) := do
  let (w, made) ← _compat_mkdir K path w
  .ok (w, if made then .boolean true else w.failure "mkdir")

/-- `fs.create_dir`. -/
def fs_create_dir (path : Bytes) (overwrite : Bool) (w : World) : Outcome Empty (World × Reply) :=
  let path := cString path
  if overwrite then do
    let (w, failed) ← clearDir K path w
    match failed with
    | some reply => .ok (w, reply)
    | none => makeDir K path w
  else makeDir K path w

/-- `fs.remove_dir`. -/
def fs_remove_dir (path : Bytes) (recurse : Bool) (w : World) : Outcome Empty (World × Reply) := do
  let (w, removed) ← _compat_rmdir K (removalFuel K) (cString path) recurse w
  .ok (w, if removed then .boolean true else w.failure "rmdir")

/-- `fs.dir_exists`. -/
def fs_dir_exists (path : Bytes) (w : World) : World × Reply :=
  match stat K w.fs (cString path) with
  | .error e => ({ w with errno := e }, .boolean false)
  | .ok _ => (w, .boolean true)

/-- The directory part of a path: what is before its last slash, and `"."` for
a path without slash. -/
def dirPart (path : Bytes) : Bytes :=
  if 47 ∈ path then (path.reverse.dropWhile (· ≠ 47)).tail.reverse else bytes "."

/-- The directory of a new file is made when `stat` does not find it. -/
def ensureDir (dir : Bytes) (w : World) : Outcome Empty (World × Bool) :=
  match stat K w.fs dir with
  | .ok _ => .ok (w, true)
  | .error e => _compat_mkdir K dir { w with errno := e }

/-- The end of `fs.create_file`.  The results of `fwrite` and `fclose` are not
looked at. -/
def writeFile (path contents : Bytes) (w : World) : Outcome Empty (World × Reply) :=
  match openWrite K w.fs path with
  | .error e => .ok ({ w with errno := e }, .failure (bytes "fopen") e)
  | .ok (fs, loc) =>
    .ok ({ w with fs := fs.write loc (contents.take (K.accepts path contents)) }, .boolean true)
  | .undefined => .undefined
  | .outOfFuel => .outOfFuel

/-- `fs.create_file`.  The copy of an empty path has no room for the `"."` that
is written over it. -/
def fs_create_file (path contents : Bytes) (w : World) : Outcome Empty (World × Reply) :=
  let path := cString path
  if path = [] then .undefined
  else do
    let (w, found) ← ensureDir K (dirPart path) w
    if found then writeFile K path (cString contents) w
    else .ok (w, w.failure "mkdir")

/-- `fs.remove_file`. -/
def fs_remove_file (path : Bytes) (w : World) : World × Reply :=
  match w.after (remove K w.fs (cString path)) with
  | (w, true) => (w, .boolean true)
  | (w, false) => (w, w.failure "remove")

/-- `fs.file_exists`. -/
def fs_file_exists (path : Bytes) (w : World) : World × Reply :=
  let (w, found) := is_file K (cString path) w
  (w, .boolean found)

/-- The buffer that a read of a file fills: first what the read delivers, then
what `malloc` left in it. -/
def readBuffer (heap : Nat → UInt8) (content : Bytes) (count : Nat) : Bytes :=
  content.take count ++ (List.range (content.length - count)).map fun i => heap (count + i)

/-- `fs.read_file`.  The result of `fread` is not looked at, and `heap` is what
the allocated buffer held before.  A directory can be opened too, but neither
its size nor what is then read from it is defined. -/
def fs_read_file (heap : Nat → UInt8) (path : Bytes) (w : World) : Outcome Empty (World × Reply) :=
  match openRead K w.fs (cString path) with
  | .error e => .ok ({ w with errno := e }, .failure (bytes "fopen") e)
  | .ok (.file contents) =>
    .ok (w, .string (cString (readBuffer heap contents (K.delivers (cString path) contents))))
  | .ok _ => .undefined
  | .undefined => .undefined
  | .outOfFuel => .outOfFuel

/-- `fs.get_files`, the names at the indices from `1` up. -/
def fs_get_files (path : Bytes) (w : World) : World × Reply :=
  match opendir K w.fs (cString path) with
  | .error e => ({ w with errno := e }, .failure (bytes "opendir") e)
  | .ok dir =>
    (w, .list ((readdir K w.fs (cString path) dir).filter fun name => name.head? ≠ some 46))

end

end Vklib.Fs
