import Vklib.Base.CString
import Vklib.Base.Outcome
import Mathlib.Data.List.GetD

/-!
# Allocations

The bytes of one allocation, of which some were never written.  A store outside
the allocation is undefined, and so is reading a C string that runs into an
unwritten byte or past the end.

`Holds m t` says that the C string `t` lies at the start of `m`.  The lemmas
give the effect of the three ways in which a program writes such a string: a
character and a new terminator (`store_append`), `strcat`, and a terminator at a
given place (`store_terminator`).
-/

namespace Vklib

/-- The bytes of an allocation.  `none` was never written. -/
abbrev Mem := List (Option UInt8)

namespace Mem

variable {ε : Type}

/-- `malloc`. -/
def malloc (size : Nat) : Mem := List.replicate size none

/-- `realloc`, which fails for sizes that no object has. -/
def realloc (m : Mem) (size : Nat) : Option Mem :=
  if size < 2 ^ 63 then some (m.take size ++ List.replicate (size - m.length) none) else none

/-- Write one byte. -/
def store (m : Mem) (i : Int) (c : UInt8) : Outcome ε Mem :=
  if 0 ≤ i ∧ i < m.length then .ok (m.set i.toNat (some c)) else .undefined

/-- The C string at the start. -/
def text : Mem → Outcome ε Bytes
  | [] => .undefined
  | none :: _ => .undefined
  | some c :: rest =>
    if c = 0 then .ok []
    else do
      let t ← text rest
      .ok (c :: t)

/-- `strcat`. -/
def strcat (m : Mem) (s : Bytes) : Outcome ε Mem := do
  let t ← text m
  if t.length + s.length < m.length then
    .ok ((t ++ s).map some ++ some 0 :: m.drop (t.length + s.length + 1))
  else .undefined

/-- The C string lies at the start. -/
def Holds (m : Mem) (t : Bytes) : Prop := NulFree t ∧ ∃ rest, m = t.map some ++ some 0 :: rest

/-- A C string that lies there is read. -/
theorem Holds.text_eq {m : Mem} {t : Bytes} (h : m.Holds t) :
    (text m : Outcome ε Bytes) = .ok t := by
  obtain ⟨hnul, rest, rfl⟩ := h
  induction t with
  | nil => rfl
  | cons c t ih =>
    have hc : c ≠ 0 := fun h0 => hnul (h0 ▸ List.mem_cons_self ..)
    have ht : NulFree t := fun hmem => hnul (List.mem_cons_of_mem _ hmem)
    simp only [List.map_cons, List.cons_append, text, if_neg hc]
    rw [ih ht]
    rfl

@[simp] theorem length_malloc (size : Nat) : (malloc size).length = size := by simp [malloc]

/-- Writing the terminator of an empty string. -/
theorem holds_malloc (ε : Type) (size : Nat) (hsize : 0 < size) :
    ∃ m, ((malloc size).store 0 0 : Outcome ε Mem) = .ok m ∧ m.Holds [] ∧ m.length = size := by
  refine ⟨(malloc size).set 0 (some 0), ?_, ⟨by simp [NulFree], ?_⟩, by simp⟩
  · simp [store, hsize]
  · obtain ⟨n, rfl⟩ := Nat.exists_eq_succ_of_ne_zero (Nat.pos_iff_ne_zero.mp hsize)
    exact ⟨List.replicate n none, by simp [malloc, List.replicate_succ]⟩

/-- A character over the terminator, and a terminator behind it. -/
theorem store_append {m : Mem} {t : Bytes} (h : m.Holds t) {c : UInt8} (hc : c ≠ 0)
    (hfits : t.length + 1 < m.length) :
    ∃ m₁ m₂, (m.store t.length c : Outcome ε Mem) = .ok m₁ ∧
      (m₁.store (t.length + 1) 0 : Outcome ε Mem) = .ok m₂ ∧
        m₂.Holds (t ++ [c]) ∧ m₂.length = m.length := by
  obtain ⟨hnul, rest, rfl⟩ := h
  have hrest : ∃ x rest', rest = x :: rest' := by
    cases rest with
    | nil => simp at hfits
    | cons x rest' => exact ⟨x, rest', rfl⟩
  obtain ⟨x, rest', rfl⟩ := hrest
  refine ⟨t.map some ++ some c :: x :: rest', t.map some ++ some c :: some 0 :: rest', ?_, ?_, ?_, ?_⟩
  · have hin : (t.length : Int) < (t.map some ++ some 0 :: x :: rest').length := by
      simp only [List.length_append, List.length_map, List.length_cons]
      omega
    rw [store, if_pos ⟨Int.natCast_nonneg _, hin⟩]
    simp
  · have hin : (t.length : Int) + 1 < (t.map some ++ some c :: x :: rest').length := by
      simp only [List.length_append, List.length_map, List.length_cons]
      omega
    rw [store, if_pos ⟨by omega, hin⟩]
    rw [show ((t.length : Int) + 1).toNat = t.length + 1 from by omega]
    simp
  · refine ⟨nulFree_append.mpr ⟨hnul, ?_⟩, rest', by simp⟩
    simpa [NulFree] using Ne.symm hc
  · simp

/-- `strcat` writes behind the string when there is room for a terminator. -/
theorem strcat_holds {m : Mem} {t s : Bytes} (h : m.Holds t) (hs : NulFree s)
    (hfits : t.length + s.length < m.length) :
    ∃ m', (m.strcat s : Outcome ε Mem) = .ok m' ∧ m'.Holds (t ++ s) ∧ m'.length = m.length := by
  refine ⟨_, by rw [strcat, h.text_eq, Outcome.ok_bind, if_pos hfits], ?_, ?_⟩
  · exact ⟨nulFree_append.mpr ⟨h.1, hs⟩, _, rfl⟩
  · simp only [List.length_append, List.length_map, List.length_cons, List.length_drop]
    omega

/-- Without room it writes past the end. -/
theorem strcat_undefined {m : Mem} {t s : Bytes} (h : m.Holds t)
    (hfits : m.length ≤ t.length + s.length) : (m.strcat s : Outcome ε Mem) = .undefined := by
  rw [strcat, h.text_eq, Outcome.ok_bind, if_neg (Nat.not_lt.mpr hfits)]

/-- A terminator at or behind the end of the string changes nothing. -/
theorem store_terminator {m : Mem} {t : Bytes} (h : m.Holds t) (i : Nat) (hlo : t.length ≤ i)
    (hhi : i < m.length) :
    ∃ m', (m.store i 0 : Outcome ε Mem) = .ok m' ∧ m'.Holds t ∧ m'.length = m.length := by
  obtain ⟨hnul, rest, rfl⟩ := h
  refine ⟨_, by rw [store, if_pos ⟨Int.natCast_nonneg _, by exact_mod_cast hhi⟩], ?_, by simp⟩
  refine ⟨hnul, ?_⟩
  rw [Int.toNat_natCast, List.set_append_right _ _ (by simpa using hlo), List.length_map]
  cases hk : i - t.length with
  | zero => exact ⟨rest, rfl⟩
  | succ k => exact ⟨rest.set k (some 0), rfl⟩

/-- A larger allocation holds the same string. -/
theorem realloc_holds {m : Mem} {t : Bytes} (h : m.Holds t) (size : Nat) (hlo : t.length < size)
    (hhi : size < 2 ^ 63) : ∃ m', m.realloc size = some m' ∧ m'.Holds t ∧ m'.length = size := by
  obtain ⟨hnul, rest, rfl⟩ := h
  refine ⟨_, by rw [realloc, if_pos hhi], ⟨hnul, ?_⟩, ?_⟩
  · obtain ⟨k, rfl⟩ : ∃ k, size = t.length + 1 + k := ⟨size - (t.length + 1), by omega⟩
    refine ⟨rest.take k ++ List.replicate (t.length + 1 + k - (t.map some ++ some 0 :: rest).length)
      none, ?_⟩
    rw [List.take_append, List.take_of_length_le (by simp; omega)]
    simp only [List.length_map, show t.length + 1 + k - t.length = k + 1 from by omega,
      List.take_succ_cons, List.append_assoc, List.cons_append]
  · simp only [List.length_append, List.length_take, List.length_replicate]
    omega

/-! No write changes the size of an allocation. -/

theorem length_of_store {m m' : Mem} {i : Int} {c : UInt8}
    (h : (m.store i c : Outcome ε Mem) = .ok m') : m'.length = m.length := by
  unfold store at h
  split_ifs at h with hin
  obtain rfl : m.set i.toNat (some c) = m' := by simpa using h
  exact List.length_set

theorem length_of_strcat {m m' : Mem} {s : Bytes} (h : (m.strcat s : Outcome ε Mem) = .ok m') :
    m'.length = m.length := by
  obtain ⟨t, -, h⟩ := Outcome.bind_eq_ok_iff.mp h
  split_ifs at h with hfits
  obtain rfl : (t ++ s).map some ++ some 0 :: m.drop (t.length + s.length + 1) = m' := by
    simpa using h
  simp only [List.length_append, List.length_map, List.length_cons, List.length_drop]
  omega

theorem length_of_realloc {m m' : Mem} {size : Nat} (h : m.realloc size = some m') :
    m'.length = size := by
  unfold realloc at h
  split_ifs at h
  obtain rfl : m.take size ++ List.replicate (size - m.length) none = m' := by simpa using h
  simp only [List.length_append, List.length_take, List.length_replicate]
  omega

end Mem

end Vklib
