import Vklib.Handle.Functions

/-!
# Scripts on handles

A process is what a script and the collector do to handles, step by step.  A
script calls functions with any arguments, and so does the Lua code that a
running function calls, so the running functions form a stack of frames.  The
finalisers call no Lua code and run in one step.

Everything that holds of all runs is derived from what a step of a function can
add to the objects, and from what a finaliser does.
-/

namespace Vklib.Handle

open Vklib.Lua

/-- A function that is running: the object of its receiver, what it has still to
do, and its stack. -/
structure Frame where
  self : Option Native
  body : List Op
  stack : List Value

/-- The running functions, the innermost first, and what all share. -/
structure Process where
  frames : List Frame
  world : State

/-- What can happen. -/
inductive Event where
  /-- A function is called. -/
  | call (f : { f : CFunction // f ∈ functions }) (args : List Value)
  /-- The innermost function takes a step. -/
  | step (a : Answer)
  /-- An error of Lua code ends the innermost function. -/
  | unwind
  /-- The finaliser of a type is called. -/
  | gc (name : TypeName) (args : List Value)
  /-- The collector finalises a userdata. -/
  | collect (u : Udata)

section

variable (p : Process)

/-- The world as a function with this stack sees it. -/
def load (stack : List Value) : State := { p.world with stack := stack }

/-- The world that a function leaves. -/
def unload (L : State) : State := { L with stack := [] }

/-- The entry of a function. -/
def enter (f : CFunction) (args : List Value) : Process :=
  match f.self with
  | none => { p with frames := ⟨none, f.body, args.reverse⟩ :: p.frames }
  | some name =>
    match luaL_testudata (load p args.reverse) 1 name with
    | some obj => { p with frames := ⟨some obj, f.body, args.reverse⟩ :: p.frames }
    | none => p

/-- The innermost function takes a step.  A function that returns or raises an
error leaves its caller to go on. -/
def advance (a : Answer) : Outcome Empty Process :=
  match p.frames with
  | [] => .ok p
  | ⟨_, [], _⟩ :: rest => .ok { p with frames := rest }
  | ⟨self, op :: body, stack⟩ :: rest =>
    match exec (load p stack) a self op with
    | .ok (L, .goOn) => .ok { frames := ⟨self, body, L.stack⟩ :: rest, world := unload L }
    | .ok (L, .again) => .ok { frames := ⟨self, op :: body, L.stack⟩ :: rest, world := unload L }
    | .ok (L, .done) => .ok { frames := rest, world := unload L }
    | .error L => .ok { frames := rest, world := unload L }
    | .undefined => .undefined
    | .outOfFuel => .outOfFuel

/-- A call of a finaliser. -/
def finalizer (name : TypeName) (args : List Value) : Outcome Empty Process :=
  match m__gc (load p args.reverse) name with
  | .ok L => .ok { p with world := unload L }
  | .error L => .ok { p with world := unload L }
  | .undefined => .undefined
  | .outOfFuel => .outOfFuel

/-- The collector finalises what has a metatable. -/
def collect (u : Udata) : Outcome Empty Process :=
  match (p.world.objects[u]?).bind Object.metatable with
  | some name => finalizer p name [handle u]
  | none => .ok p

/-- An event. -/
def happen : Event → Outcome Empty Process
  | .call f args => .ok (enter p f args)
  | .step a => advance p a
  | .unwind => .ok { p with frames := p.frames.tail }
  | .gc name args => finalizer p name args
  | .collect u => collect p u

end

/-- Before the first call. -/
def initial : Process where
  frames := []
  world := { stack := [], heap := [], objects := [],
             host := { births := [], destroyed := [], refs := [] } }

/-- A run. -/
def run (events : List Event) (p : Process) : Outcome Empty Process := events.foldlM happen p

@[simp] theorem run_nil (p : Process) : run [] p = .ok p := rfl

theorem run_cons {p p' : Process} {event : Event} (hstep : happen p event = .ok p')
    (events : List Event) : run (event :: events) p = run events p' := by
  unfold run
  rw [List.foldlM_cons, hstep, Outcome.ok_bind]

end Vklib.Handle
