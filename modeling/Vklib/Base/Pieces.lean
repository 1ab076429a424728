import Mathlib.Algebra.Order.Ring.Int
import Mathlib.Data.List.TakeWhile

/-!
# Pieces between separators

`pieces p xs` are the nonempty runs of elements of `xs` that do not satisfy `p`.
They are the names of a path between its slashes, and the tokens that repeated
calls of `strtok` return.
-/

namespace Vklib

variable {α : Type}

/-- The nonempty runs between the elements that satisfy `p`. -/
def pieces (p : α → Bool) (xs : List α) : List (List α) :=
  (xs.splitOnP p).filter fun piece => !piece.isEmpty

@[simp] theorem pieces_nil (p : α → Bool) : pieces p ([] : List α) = [] := by
  simp [pieces]

/-- A separator separates. -/
theorem pieces_append_cons (p : α → Bool) (xs ys : List α) {sep : α} (hsep : p sep = true) :
    pieces p (xs ++ sep :: ys) = pieces p xs ++ pieces p ys := by
  unfold pieces
  rw [List.splitOnP_append_cons xs ys hsep, List.filter_append]

@[simp] theorem pieces_cons_sep (p : α → Bool) (xs : List α) {sep : α} (hsep : p sep = true) :
    pieces p (sep :: xs) = pieces p xs := by
  simpa using pieces_append_cons p [] xs hsep

/-- A run without separators is one piece. -/
theorem pieces_eq_singleton {p : α → Bool} {xs : List α} (hne : xs ≠ [])
    (h : ∀ x ∈ xs, p x = false) : pieces p xs = [xs] := by
  unfold pieces
  rw [List.splitOnP_eq_singleton h]
  simp [hne]

theorem mem_splitOnP {p : α → Bool} {xs piece : List α} (h : piece ∈ xs.splitOnP p) :
    ∀ x ∈ piece, x ∈ xs ∧ p x = false := by
  induction xs generalizing piece with
  | nil =>
    have hnil : piece = [] := by simpa using h
    simp [hnil]
  | cons c rest ih =>
    rw [List.splitOnP_cons_eq_if_modifyHead] at h
    intro x hx
    by_cases hc : p c = true
    · rw [if_pos hc] at h
      rcases List.mem_cons.mp h with rfl | hrest
      · simp at hx
      · exact ⟨List.mem_cons_of_mem _ (ih hrest x hx).1, (ih hrest x hx).2⟩
    · rw [if_neg hc] at h
      obtain ⟨first, more, hsplit⟩ := List.exists_cons_of_ne_nil (List.splitOnP_ne_nil p rest)
      rw [hsplit, List.modifyHead_cons] at h
      rcases List.mem_cons.mp h with rfl | hmore
      · rcases List.mem_cons.mp hx with rfl | hfirst
        · exact ⟨List.mem_cons_self .., by simpa using hc⟩
        · have hin := ih (hsplit ▸ List.mem_cons_self ..) x hfirst
          exact ⟨List.mem_cons_of_mem _ hin.1, hin.2⟩
      · have hin := ih (hsplit ▸ List.mem_cons_of_mem _ hmore) x hx
        exact ⟨List.mem_cons_of_mem _ hin.1, hin.2⟩

/-- Leading separators do not matter. -/
theorem pieces_dropWhile (p : α → Bool) (xs : List α) : pieces p (xs.dropWhile p) = pieces p xs := by
  induction xs with
  | nil => rfl
  | cons c rest ih =>
    by_cases hc : p c = true
    · rw [List.dropWhile_cons_of_pos hc, ih, pieces_cons_sep p rest hc]
    · rw [List.dropWhile_cons_of_neg hc]

/-- The first piece ends at the next separator. -/
theorem pieces_cons_of_neg {p : α → Bool} {c : α} (hc : p c = false) (rest : List α) :
    pieces p (c :: rest) =
      (c :: rest).takeWhile (fun x => !p x) :: pieces p ((c :: rest).dropWhile fun x => !p x) := by
  have hne : (c :: rest).takeWhile (fun x => !p x) ≠ [] := by simp [hc]
  have hfirst : pieces p ((c :: rest).takeWhile fun x => !p x) =
      [(c :: rest).takeWhile fun x => !p x] := by
    apply pieces_eq_singleton hne
    intro x hx
    simpa using List.mem_takeWhile_imp hx
  have hsplit := List.takeWhile_append_dropWhile (p := fun x => !p x) (l := c :: rest)
  cases hrest : (c :: rest).dropWhile fun x => !p x with
  | nil =>
    rw [hrest, List.append_nil] at hsplit
    rw [hsplit] at hfirst ⊢
    rw [hfirst, pieces_nil]
  | cons sep more =>
    have hsep : p sep = true := by
      have h := List.head_dropWhile_not (fun x => !p x) (l := c :: rest) (by simp [hrest])
      simpa [hrest] using h
    have happend := pieces_append_cons p ((c :: rest).takeWhile fun x => !p x) more hsep
    rw [hrest] at hsplit
    rw [hsplit, hfirst] at happend
    rw [happend, pieces_cons_sep p more hsep]
    rfl

/-- Only separators have no pieces. -/
theorem forall_of_pieces_eq_nil {p : α → Bool} {xs : List α} (h : pieces p xs = []) :
    ∀ x ∈ xs, p x = true := by
  induction xs with
  | nil => simp
  | cons c rest ih =>
    by_cases hc : p c = true
    · rw [pieces_cons_sep p rest hc] at h
      intro x hx
      rcases List.mem_cons.mp hx with rfl | hrest
      · exact hc
      · exact ih h x hrest
    · obtain ⟨first, more, hsplit⟩ := List.exists_cons_of_ne_nil (List.splitOnP_ne_nil p rest)
      rw [pieces, List.splitOnP_cons_eq_if_modifyHead, if_neg hc, hsplit] at h
      simp at h

/-- The first piece stands behind separators, and it ends with the list or at a
separator, behind which are the other pieces. -/
theorem exists_split_of_pieces {p : α → Bool} {xs piece : List α} {rest : List (List α)}
    (h : pieces p xs = piece :: rest) : ∃ seps more, xs = seps ++ (piece ++ more) ∧
      (∀ x ∈ seps, p x = true) ∧
        (more = [] ∧ rest = [] ∨ ∃ sep tail, more = sep :: tail ∧ p sep = true ∧
          pieces p tail = rest) := by
  have hsplit := List.takeWhile_append_dropWhile (p := p) (l := xs)
  rw [← pieces_dropWhile] at h
  cases hdrop : xs.dropWhile p with
  | nil =>
    rw [hdrop] at h
    simp at h
  | cons c cs =>
    have hhead : p c = false := by
      have hhead := List.head_dropWhile_not p (l := xs) (by simp [hdrop])
      simpa [hdrop] using hhead
    rw [hdrop, pieces_cons_of_neg hhead, List.cons.injEq] at h
    obtain ⟨rfl, hrest⟩ := h
    refine ⟨xs.takeWhile p, (c :: cs).dropWhile fun x => !p x, ?_, ?_, ?_⟩
    · rw [List.takeWhile_append_dropWhile, ← hdrop, hsplit]
    · intro x hx
      exact List.mem_takeWhile_imp hx
    · cases hmore : (c :: cs).dropWhile fun x => !p x with
      | nil =>
        rw [hmore, pieces_nil] at hrest
        exact Or.inl ⟨rfl, hrest.symm⟩
      | cons sep tail =>
        have hsep : p sep = true := by
          have hsep := List.head_dropWhile_not (fun x => !p x) (l := c :: cs) (by simp [hmore])
          simpa [hmore] using hsep
        rw [hmore, pieces_cons_sep p tail hsep] at hrest
        exact Or.inr ⟨sep, tail, rfl, hsep, hrest⟩

/-- A piece is not empty, and its elements are elements of the list that do not
separate. -/
theorem mem_pieces {p : α → Bool} {xs piece : List α} (h : piece ∈ pieces p xs) :
    piece ≠ [] ∧ ∀ x ∈ piece, x ∈ xs ∧ p x = false := by
  obtain ⟨hsplit, hne⟩ := List.mem_filter.mp h
  exact ⟨by simpa using hne, mem_splitOnP hsplit⟩

end Vklib
