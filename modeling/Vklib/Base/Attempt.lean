import Vklib.Base.Outcome

/-!
# Functions with a status

A C function that changes a state and reports failure by its return value.  When it
fails, what it has done by then stays done, so `Attempt σ α` keeps the state in both
cases.  A sequence stops at the first step that fails.

`Ends` is the postcondition of one run: the run returns, with a result and `Q`, or fails
with `F`.  `Ends.bind` is the rule for a sequence.
-/

namespace Vklib

/-- A function with a status.  No result is failure. -/
def Attempt (σ α : Type) : Type := σ → Outcome Empty (Option α × σ)

namespace Attempt

variable {σ α β : Type}

/-- Run the next step when a step did not fail. -/
protected def bind (x : Attempt σ α) (f : α → Attempt σ β) : Attempt σ β := fun s =>
  match x s with
  | .ok (some a, s) => f a s
  | .ok (none, s) => .ok (none, s)
  | .error e => .error e
  | .undefined => .undefined
  | .outOfFuel => .outOfFuel

instance : Monad (Attempt σ) where
  pure a := fun s => .ok (some a, s)
  bind := Attempt.bind

def get : Attempt σ σ := fun s => .ok (some s, s)

def modify (g : σ → σ) : Attempt σ Unit := fun s => .ok (some (), g s)

def fail : Attempt σ α := fun s => .ok (none, s)

/-- Every behaviour that C does not define, and an assertion that fails. -/
def undefined : Attempt σ α := fun _ => .undefined

def outOfFuel : Attempt σ α := fun _ => .outOfFuel

/-- A read that does not change the state. -/
def lift (x : Outcome Empty α) : Attempt σ α := fun s => x >>= fun a => .ok (some a, s)

/-- `if (c) x();` -/
def when (c : Prop) [Decidable c] (x : Attempt σ Unit) : Attempt σ Unit :=
  if c then x else pure ()

/-- A last change of the state that failure does not skip. -/
def after (x : Attempt σ α) (g : σ → σ) : Attempt σ α := fun s =>
  x s >>= fun p => .ok (p.1, g p.2)

@[simp] theorem pure_run (a : α) (s : σ) : (pure a : Attempt σ α) s = .ok (some a, s) := rfl

@[simp] theorem fail_run (s : σ) : (fail : Attempt σ α) s = .ok (none, s) := rfl

@[simp] theorem get_bind_run (f : σ → Attempt σ β) (s : σ) : (get >>= f) s = f s s := rfl

@[simp] theorem modify_bind_run (g : σ → σ) (f : Unit → Attempt σ β) (s : σ) :
    (modify g >>= f) s = f () (g s) := rfl

@[simp] theorem modify_run (g : σ → σ) (s : σ) : modify g s = .ok (some (), g s) := rfl

@[simp] theorem pure_bind_run (a : α) (f : α → Attempt σ β) (s : σ) :
    ((pure a : Attempt σ α) >>= f) s = f a s := rfl

theorem lift_bind_run {x : Outcome Empty α} {a : α} (h : x = .ok a) (f : α → Attempt σ β) (s : σ) :
    (lift x >>= f) s = f a s := by
  rw [h]
  rfl

theorem bind_run_some {x : Attempt σ α} {s s' : σ} {a : α} (h : x s = .ok (some a, s'))
    (f : α → Attempt σ β) : (x >>= f) s = f a s' := by
  change Attempt.bind x f s = f a s'
  rw [Attempt.bind, h]

theorem bind_run_none {x : Attempt σ α} {s s' : σ} (h : x s = .ok (none, s'))
    (f : α → Attempt σ β) : (x >>= f) s = .ok (none, s') := by
  change Attempt.bind x f s = .ok (none, s')
  rw [Attempt.bind, h]

end Attempt

variable {σ α β : Type}

/-- A run returns: with a result and `Q`, or it fails with `F`. -/
def Ends (run : Outcome Empty (Option α × σ)) (Q : α → σ → Prop) (F : σ → Prop) : Prop :=
  ∃ r s, run = .ok (r, s) ∧ match r with
    | some a => Q a s
    | none => F s

namespace Ends

theorem intro {run : Outcome Empty (Option α × σ)} {Q : α → σ → Prop} {F : σ → Prop} {a : α} {s : σ}
    (h : run = .ok (some a, s)) (hQ : Q a s) : Ends run Q F :=
  ⟨some a, s, h, hQ⟩

theorem failed {run : Outcome Empty (Option α × σ)} {Q : α → σ → Prop} {F : σ → Prop} {s : σ}
    (h : run = .ok (none, s)) (hF : F s) : Ends run Q F :=
  ⟨none, s, h, hF⟩

theorem mono {run : Outcome Empty (Option α × σ)} {Q Q' : α → σ → Prop} {F F' : σ → Prop}
    (h : Ends run Q F) (hQ : ∀ a s, Q a s → Q' a s) (hF : ∀ s, F s → F' s) : Ends run Q' F' := by
  obtain ⟨r, s, hrun, hr⟩ := h
  refine ⟨r, s, hrun, ?_⟩
  cases r with
  | none => exact hF s hr
  | some a => exact hQ a s hr

/-- A sequence: what holds after the first step is what the second one starts with. -/
theorem bind {x : Attempt σ α} {f : α → Attempt σ β} {s : σ} {Q : α → σ → Prop}
    {R : β → σ → Prop} {F : σ → Prop} (hx : Ends (x s) Q F)
    (hf : ∀ a s', Q a s' → Ends (f a s') R F) : Ends ((x >>= f) s) R F := by
  obtain ⟨r, s', hrun, hr⟩ := hx
  cases r with
  | none => exact failed (Attempt.bind_run_none hrun f) hr
  | some a =>
    rw [Attempt.bind_run_some hrun f]
    exact hf a s' hr

/-- A step that is not always made. -/
theorem when {c : Prop} [Decidable c] {x : Attempt σ Unit} {s : σ} {Q : Unit → σ → Prop}
    {F : σ → Prop} (hx : c → Ends (x s) Q F) (hskip : ¬ c → Q () s) :
    Ends (Attempt.when c x s) Q F := by
  rw [Attempt.when]
  split
  · exact hx ‹c›
  · exact intro (Attempt.pure_run () s) (hskip ‹¬ c›)

theorem after {x : Attempt σ α} {g : σ → σ} {s : σ} {Q : α → σ → Prop} {F : σ → Prop}
    (hx : Ends (x s) (fun a s' => Q a (g s')) fun s' => F (g s')) : Ends (x.after g s) Q F := by
  obtain ⟨r, s', hrun, hr⟩ := hx
  exact ⟨r, g s', by rw [Attempt.after, hrun, Outcome.ok_bind], hr⟩

end Ends

end Vklib
