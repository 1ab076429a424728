import Mathlib.Data.List.Basic

/-!
# Slots

A Lua stack as the list of what its slots hold, from the top down, so that a
push is a `cons`.  A slot has a positive index, counted from the bottom, which
later pushes leave alone (`slot_append`), and `lua_insert` moves the top value
below others.

`insertAt_push` is how messages are collected: each new one goes below the ones
that are on top already, so they stand in the order of their levels, and
whatever was pushed before the first of them stays below all of them.
-/

namespace Vklib.Lua

variable {α : Type}

/-- What the slot at a positive index holds. -/
def slot (stack : List α) (idx : Nat) : Option α :=
  if idx = 0 then none else stack.reverse[idx - 1]?

/-- `lua_settop`, down to `n` slots. -/
def settop (stack : List α) (n : Nat) : List α := stack.drop (stack.length - n)

/-- `lua_insert` at the index `-n`: the top value moves below the next `n - 1`. -/
def insertAt (stack : List α) (n : Nat) : List α :=
  match stack with
  | [] => []
  | v :: s => s.take (n - 1) ++ v :: s.drop (n - 1)

/-- `lua_replace`: the top value moves to a slot. -/
def replace (stack : List α) (idx : Nat) : List α :=
  match stack with
  | [] => []
  | v :: s => (s.reverse.set (idx - 1) v).reverse

@[simp] theorem slot_push (v : α) (s : List α) : slot (v :: s) (s.length + 1) = some v := by
  simp [slot]

/-- An index in use stays in use. -/
theorem slot_append {s : List α} {idx : Nat} {v : α} (h : slot s idx = some v) (t : List α) :
    slot (t ++ s) idx = some v := by
  unfold slot at h ⊢
  split_ifs at h ⊢ with hidx
  obtain ⟨hlt, -⟩ := List.getElem?_eq_some_iff.mp h
  rw [List.reverse_append, List.getElem?_append_left hlt, h]

/-- The slots above `s` hold the values of `t`, from the last to the first. -/
theorem slot_append_add (t s : List α) (i : Nat) :
    slot (t ++ s) (s.length + 1 + i) = t.reverse[i]? := by
  have hpos : ¬ s.length + 1 + i = 0 := by omega
  have hindex : s.length + 1 + i - 1 = s.reverse.length + i := by
    rw [List.length_reverse]
    omega
  rw [slot, if_neg hpos, List.reverse_append, hindex, List.getElem?_append_right (by omega),
    Nat.add_sub_cancel_left]

@[simp] theorem settop_append (t s : List α) : settop (t ++ s) s.length = s := by
  simp [settop]

@[simp] theorem replace_push (v w : α) (s : List α) :
    replace (v :: w :: s) (s.length + 1) = v :: s := by
  simp [replace]

/-- A value that is inserted at the place after the values of `t` goes below
them. -/
theorem insertAt_push (v : α) (t s : List α) :
    insertAt (v :: (t ++ s)) (t.length + 1) = t ++ v :: s := by
  simp [insertAt]

end Vklib.Lua
