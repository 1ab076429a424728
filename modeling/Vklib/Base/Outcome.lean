import Mathlib.Algebra.Order.Ring.Int
import Mathlib.Logic.Basic

/-!
# The outcome of a C function

A C function that runs on checked data can end in four ways.  It returns, it
leaves through its error path, it reaches behaviour that C leaves undefined,
or the recursion of the model runs out of fuel.  `Outcome ε α` keeps the four
apart, so that a theorem about the error path is not met by a crash and a
theorem about termination is not met by a short supply of fuel.

The two lemmas that later proofs use are `bind_eq_ok_iff`, which takes a
successful run of two steps apart, and `bind_ne_outOfFuel`, which is the
induction step of every termination argument.
-/

namespace Vklib

/-- How a call ends.  `undefined` stands for every behaviour that C does not
define, such as an access outside an allocation. -/
inductive Outcome (ε α : Type) where
  | ok (value : α)
  | error (reason : ε)
  | undefined
  | outOfFuel
  deriving DecidableEq, Repr

namespace Outcome

variable {ε α β : Type}

/-- Run the next step on the value of a step that returned. -/
protected def bind (x : Outcome ε α) (f : α → Outcome ε β) : Outcome ε β :=
  match x with
  | .ok value => f value
  | .error reason => .error reason
  | .undefined => .undefined
  | .outOfFuel => .outOfFuel

instance : Monad (Outcome ε) where
  pure := .ok
  bind := Outcome.bind

@[simp] theorem pure_eq (value : α) : (pure value : Outcome ε α) = .ok value := rfl

@[simp] theorem ok_bind (value : α) (f : α → Outcome ε β) :
    (Outcome.ok value >>= f) = f value := rfl

@[simp] theorem error_bind (reason : ε) (f : α → Outcome ε β) :
    (Outcome.error reason >>= f) = .error reason := rfl

@[simp] theorem undefined_bind (f : α → Outcome ε β) :
    (Outcome.undefined >>= f) = .undefined := rfl

@[simp] theorem outOfFuel_bind (f : α → Outcome ε β) :
    (Outcome.outOfFuel >>= f) = .outOfFuel := rfl

/-- Two results that are pairs are equal part by part. -/
theorem ok_prod_inj {γ : Type} {a a' : α} {c c' : γ}
    (h : (Outcome.ok (a, c) : Outcome ε (α × γ)) = .ok (a', c')) : a = a' ∧ c = c' :=
  Prod.mk.inj (Outcome.ok.inj h)

/-- A sequence returns exactly when both of its steps return. -/
theorem bind_eq_ok_iff {x : Outcome ε α} {f : α → Outcome ε β} {b : β} :
    (x >>= f) = .ok b ↔ ∃ a, x = .ok a ∧ f a = .ok b := by
  cases x <;> simp

/-- A step on an optional value returns exactly when there is one and the step returns. -/
theorem elim_undefined_eq_ok_iff {o : Option α} {f : α → Outcome ε β} {b : β} :
    o.elim .undefined f = .ok b ↔ ∃ a, o = some a ∧ f a = .ok b := by
  cases o <;> simp

/-- A sequence fails in one of its steps. -/
theorem bind_eq_error_iff {x : Outcome ε α} {f : α → Outcome ε β} {reason : ε} :
    (x >>= f) = .error reason ↔ x = .error reason ∨ ∃ a, x = .ok a ∧ f a = .error reason := by
  cases x <;> simp

/-- A sequence of steps that both have fuel has fuel. -/
theorem bind_ne_outOfFuel {x : Outcome ε α} {f : α → Outcome ε β}
    (hx : x ≠ .outOfFuel) (hf : ∀ a, x = .ok a → f a ≠ .outOfFuel) :
    (x >>= f) ≠ .outOfFuel := by
  cases x with
  | ok a => exact hf a rfl
  | error reason => simp
  | undefined => simp
  | outOfFuel => exact absurd rfl hx

/-- Rewrite the reason of the error path, as a caller does that adds its own
text to the message of its callee. -/
def mapError {ε' : Type} (g : ε → ε') : Outcome ε α → Outcome ε' α
  | .ok value => .ok value
  | .error reason => .error (g reason)
  | .undefined => .undefined
  | .outOfFuel => .outOfFuel

@[simp] theorem mapError_ok {ε' : Type} (g : ε → ε') (value : α) :
    (Outcome.ok value : Outcome ε α).mapError g = .ok value := rfl

@[simp] theorem mapError_eq_ok_iff {ε' : Type} {g : ε → ε'} {x : Outcome ε α} {a : α} :
    x.mapError g = .ok a ↔ x = .ok a := by
  cases x <;> simp [mapError]

@[simp] theorem mapError_eq_undefined_iff {ε' : Type} {g : ε → ε'} {x : Outcome ε α} :
    x.mapError g = .undefined ↔ x = .undefined := by
  cases x <;> simp [mapError]

@[simp] theorem mapError_eq_outOfFuel_iff {ε' : Type} {g : ε → ε'} {x : Outcome ε α} :
    x.mapError g = .outOfFuel ↔ x = .outOfFuel := by
  cases x <;> simp [mapError]

@[simp] theorem mapError_eq_error_iff {ε' : Type} {g : ε → ε'} {x : Outcome ε α} {reason : ε'} :
    x.mapError g = .error reason ↔ ∃ e, x = .error e ∧ g e = reason := by
  cases x <;> simp [mapError]

/-- A call without error path has none in another type either. -/
def lift (x : Outcome Empty α) : Outcome ε α := x.mapError Empty.elim

@[simp] theorem lift_ok (value : α) :
    ((Outcome.ok value : Outcome Empty α).lift : Outcome ε α) = .ok value := rfl

@[simp] theorem lift_eq_ok_iff {x : Outcome Empty α} {a : α} :
    (x.lift : Outcome ε α) = .ok a ↔ x = .ok a := mapError_eq_ok_iff

@[simp] theorem lift_ne_error (x : Outcome Empty α) (e : ε) : x.lift ≠ .error e := by
  cases x with
  | error reason => exact reason.elim
  | _ => simp [lift, mapError]

/-- A run over two lists is a run over the second after one over the first. -/
theorem foldlM_append {σ ι : Type} (step : σ → ι → Outcome ε σ) (is js : List ι) (s : σ) :
    (is ++ js).foldlM step s = is.foldlM step s >>= fun s' => js.foldlM step s' := by
  induction is generalizing s with
  | nil => rfl
  | cons i is ih =>
    rw [List.cons_append, List.foldlM_cons, List.foldlM_cons]
    cases step s i with
    | ok s' => exact ih s'
    | _ => rfl

/-- A counting loop with one round more. -/
theorem foldlM_range_succ {σ : Type} (step : σ → Nat → Outcome ε σ) (n : Nat) (s : σ) :
    (List.range (n + 1)).foldlM step s =
      (List.range n).foldlM step s >>= fun s' => step s' n := by
  rw [List.range_succ, foldlM_append]
  congr 1
  funext s'
  rw [List.foldlM_cons]
  cases step s' n <;> rfl

/-- In a run that returns, every step returns. -/
theorem step_of_foldlM_eq_ok {σ ι : Type} {step : σ → ι → Outcome ε σ} {is : List ι} {s s' : σ}
    (h : is.foldlM step s = .ok s') {i : ι} (hi : i ∈ is) : ∃ s₁ s₂, step s₁ i = .ok s₂ := by
  induction is generalizing s with
  | nil => simp at hi
  | cons j is ih =>
    rw [List.foldlM_cons, bind_eq_ok_iff] at h
    obtain ⟨s₁, hone, hrest⟩ := h
    rcases List.mem_cons.mp hi with rfl | hmem
    · exact ⟨s, s₁, hone⟩
    · exact ih hrest hmem

/-- An invariant that every step keeps, and under which every step returns, is
an invariant of every run, and every run returns. -/
theorem foldlM_invariant {σ ι : Type} {step : σ → ι → Outcome ε σ} {P : σ → Prop}
    (hstep : ∀ s i, P s → ∃ s', step s i = .ok s' ∧ P s') (is : List ι) {s : σ} (hs : P s) :
    ∃ s', is.foldlM step s = .ok s' ∧ P s' := by
  induction is generalizing s with
  | nil => exact ⟨s, rfl, hs⟩
  | cons i is ih =>
    obtain ⟨s₁, hone, hs₁⟩ := hstep s i hs
    rw [List.foldlM_cons, hone, ok_bind]
    exact ih hs₁

end Outcome

end Vklib
