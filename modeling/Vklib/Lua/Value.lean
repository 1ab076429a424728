import Vklib.Base.Number
import Mathlib.Data.List.Nodup
import Mathlib.Data.List.Perm.Subperm

/-!
# Lua values and tables

A Lua value is a scalar, a reference to a table, or an object of the host
program, and the type `U` of host objects is a parameter.  A heap is the list
of the tables that exist, and a reference is an index into it, so two values
denote one table exactly when their references are equal.

A `Table` carries its own well-formedness: its keys are distinct, no key maps
to nil, and `rawlen` is a border.  A table with holes has several borders, and
Lua may answer with any of them, so the border is part of the table and not a
function of its entries.  `Table.rawset` is the raw assignment, and
`Table.get_rawset` is the one fact that callers need about it.
-/

namespace Vklib.Lua

/-- The identity of a table: its place in the heap. -/
abbrev Ref := Nat

/-- A Lua value.  `host` covers the functions and the typed objects of the
host program, `userdata` a foreign full userdata with its own metatable. -/
inductive Val (U : Type) where
  | nil
  | bool (b : Bool)
  | int (i : Int64)
  | flt (x : F64)
  | str (s : Bytes)
  | table (r : Ref)
  | userdata (id : Nat) (metatable : Option Ref)
  | host (u : U)
  deriving DecidableEq, Repr

/-- A table key.  Only integer and string keys are ever read by content; every
other key is known by its type and identity. -/
inductive Key where
  | int (i : Int)
  | str (s : Bytes)
  | other (typeName : Bytes) (id : Nat)
  deriving DecidableEq, Repr

variable {U : Type}

namespace Val

/-- `lua_toboolean`: everything but nil and false. -/
def truthy : Val U → Bool
  | .nil => false
  | .bool b => b
  | _ => true

/-- `lua_isnil`. -/
def isNil : Val U → Bool
  | .nil => true
  | _ => false

theorem isNil_iff {v : Val U} : v.isNil = true ↔ v = .nil := by
  cases v <;> simp [isNil]

theorem isNil_eq_false_iff {v : Val U} : v.isNil = false ↔ v ≠ .nil := by
  cases v <;> simp [isNil]

end Val

/-! ## The entries of a table -/

/-- The value under a key, nil when there is none. -/
def lookup (entries : List (Key × Val U)) (k : Key) : Val U :=
  (entries.lookup k).getD .nil

@[simp] theorem lookup_nil (k : Key) : lookup ([] : List (Key × Val U)) k = .nil := rfl

theorem lookup_cons (e : Key × Val U) (rest : List (Key × Val U)) (k : Key) :
    lookup (e :: rest) k = if k = e.1 then e.2 else lookup rest k := by
  obtain ⟨k', v'⟩ := e
  by_cases h : k = k'
  · simp [lookup, h]
  · have hb : (k == k') = false := by simpa using h
    simp [lookup, List.lookup_cons, h, hb]

/-- With distinct keys, an entry is what its key looks up. -/
theorem lookup_of_mem {entries : List (Key × Val U)} (hnodup : (entries.map Prod.fst).Nodup)
    {k : Key} {v : Val U} (hmem : (k, v) ∈ entries) : lookup entries k = v := by
  induction entries with
  | nil => simp at hmem
  | cons e rest ih =>
    simp only [List.map_cons, List.nodup_cons] at hnodup
    rw [lookup_cons]
    rcases List.mem_cons.mp hmem with rfl | hrest
    · simp
    · have hne : k ≠ e.1 := fun he =>
        hnodup.1 (he ▸ List.mem_map.mpr ⟨(k, v), hrest, rfl⟩)
      rw [if_neg hne]
      exact ih hnodup.2 hrest

/-- What a key looks up is an entry, unless it is nil. -/
theorem mem_of_lookup {entries : List (Key × Val U)} {k : Key}
    (h : lookup entries k ≠ .nil) : (k, lookup entries k) ∈ entries := by
  induction entries with
  | nil => simp at h
  | cons e rest ih =>
    rw [lookup_cons] at h ⊢
    by_cases he : k = e.1
    · rw [if_pos he, he]
      exact List.mem_cons_self
    · rw [if_neg he] at h ⊢
      exact List.mem_cons_of_mem _ (ih h)

/-- The order of the entries does not matter. -/
theorem lookup_perm {entries entries' : List (Key × Val U)}
    (hnodup : (entries.map Prod.fst).Nodup) (hperm : entries'.Perm entries) (k : Key) :
    lookup entries' k = lookup entries k := by
  have hnodup' : (entries'.map Prod.fst).Nodup := (hperm.map _).nodup_iff.mpr hnodup
  by_cases h : lookup entries k = .nil
  · rw [h]
    by_contra hne
    exact hne ((lookup_of_mem hnodup (hperm.subset (mem_of_lookup hne))).symm.trans h)
  · exact lookup_of_mem hnodup' (hperm.mem_iff.mpr (mem_of_lookup h))

/-- `n` is a border: index `n` is in use unless `n` is zero, and index
`n + 1` is not. -/
def IsBorder (entries : List (Key × Val U)) (n : Nat) : Prop :=
  (n = 0 ∨ lookup entries (.int n) ≠ .nil) ∧ lookup entries (.int (n + 1)) = .nil

/-- Count the indices in use from `n + 1` up, at most `fuel` of them. -/
def borderFrom (entries : List (Key × Val U)) : Nat → Nat → Nat
  | 0, n => n
  | fuel + 1, n =>
    if (lookup entries (.int (n + 1))).isNil then n else borderFrom entries fuel (n + 1)

/-- The first border. -/
def firstBorder (entries : List (Key × Val U)) : Nat := borderFrom entries entries.length 0

/-- Indices `1` to `n` are in use in at least `n` entries. -/
theorem le_length_of_indices {entries : List (Key × Val U)} {n : Nat}
    (h : ∀ i, 1 ≤ i → i ≤ n → lookup entries (.int (i : Nat)) ≠ .nil) :
    n ≤ entries.length := by
  have hsub : (List.range n).map (fun i => Key.int ((i + 1 : Nat) : Int)) ⊆
      entries.map Prod.fst := by
    intro k hk
    obtain ⟨i, hi, rfl⟩ := List.mem_map.mp hk
    have hne := h (i + 1) (by omega) (by have := List.mem_range.mp hi; omega)
    exact List.mem_map.mpr ⟨_, mem_of_lookup hne, rfl⟩
  have hnodup : ((List.range n).map (fun i => Key.int ((i + 1 : Nat) : Int))).Nodup := by
    refine List.Nodup.map ?_ List.nodup_range
    intro a b hab
    have hcast : (a : Int) = b := by simpa using hab
    exact_mod_cast hcast
  simpa using (hnodup.subperm hsub).length_le

private theorem isBorder_borderFrom (entries : List (Key × Val U)) :
    ∀ (fuel n : Nat), n + fuel = entries.length →
      (∀ i, 1 ≤ i → i ≤ n → lookup entries (.int (i : Nat)) ≠ .nil) →
      IsBorder entries (borderFrom entries fuel n) := by
  intro fuel
  induction fuel with
  | zero =>
    intro n hn hused
    refine ⟨?_, ?_⟩
    · rcases Nat.eq_zero_or_pos n with h0 | hpos
      · exact Or.inl h0
      · exact Or.inr (hused n hpos (Nat.le_refl n))
    · by_contra hne
      have hle : n + 1 ≤ entries.length := by
        apply le_length_of_indices
        intro i h1 hi
        rcases Nat.lt_or_ge n i with hlt | hge
        · have hi' : i = n + 1 := by omega
          subst hi'
          exact hne
        · exact hused i h1 hge
      omega
  | succ fuel ih =>
    intro n hn hused
    rw [borderFrom]
    split
    · rename_i hnil
      refine ⟨?_, Val.isNil_iff.mp hnil⟩
      rcases Nat.eq_zero_or_pos n with h0 | hpos
      · exact Or.inl h0
      · exact Or.inr (hused n hpos (Nat.le_refl n))
    · rename_i hsome
      refine ih (n + 1) (by omega) ?_
      intro i h1 hi
      rcases Nat.lt_or_ge n i with hlt | hge
      · have hi' : i = n + 1 := by omega
        subst hi'
        exact Val.isNil_eq_false_iff.mp (by simpa using hsome)
      · exact hused i h1 hge

/-- The first border is a border. -/
theorem isBorder_firstBorder (entries : List (Key × Val U)) :
    IsBorder entries (firstBorder entries) :=
  isBorder_borderFrom entries entries.length 0 (by omega) (by omega)

/-- Replace, add or drop the entry under a key. -/
def setEntries (entries : List (Key × Val U)) (k : Key) (v : Val U) : List (Key × Val U) :=
  if v.isNil then entries.filter (fun e => e.1 ≠ k)
  else if k ∈ entries.map Prod.fst then
    entries.map (fun e => if e.1 = k then (k, v) else e)
  else entries ++ [(k, v)]

/-- Adding a value under a new key puts the entry last. -/
theorem setEntries_of_notMem {entries : List (Key × Val U)} {k : Key} {v : Val U}
    (hv : v ≠ .nil) (hk : k ∉ entries.map Prod.fst) :
    setEntries entries k v = entries ++ [(k, v)] := by
  have hv' : v.isNil = false := Val.isNil_eq_false_iff.mpr hv
  simp only [setEntries, hv', Bool.false_eq_true, if_false, if_neg hk]

private theorem keys_map_replace (entries : List (Key × Val U)) (k : Key) (v : Val U) :
    (entries.map (fun e => if e.1 = k then (k, v) else e)).map Prod.fst =
      entries.map Prod.fst := by
  rw [List.map_map]
  apply List.map_congr_left
  intro e _
  by_cases he : e.1 = k <;> simp [he]

theorem keys_nodup_setEntries {entries : List (Key × Val U)}
    (h : (entries.map Prod.fst).Nodup) (k : Key) (v : Val U) :
    ((setEntries entries k v).map Prod.fst).Nodup := by
  unfold setEntries
  split_ifs with hv hk
  · exact h.sublist (List.Sublist.map _ List.filter_sublist)
  · rw [keys_map_replace]
    exact h
  · rw [List.map_append, List.nodup_append]
    refine ⟨h, by simp, ?_⟩
    intro a ha b hb hab
    simp only [List.map_cons, List.map_nil, List.mem_singleton] at hb
    exact hk (hb ▸ hab ▸ ha)

theorem ne_nil_setEntries {entries : List (Key × Val U)}
    (h : ∀ e ∈ entries, e.2 ≠ .nil) (k : Key) (v : Val U) :
    ∀ e ∈ setEntries entries k v, e.2 ≠ .nil := by
  intro e he
  unfold setEntries at he
  split_ifs at he with hv hk
  · exact h e (List.mem_filter.mp he).1
  · obtain ⟨e', he', rfl⟩ := List.mem_map.mp he
    by_cases hk' : e'.1 = k
    · simpa [hk', Val.isNil_iff] using hv
    · simpa [hk'] using h e' he'
  · rcases List.mem_append.mp he with he | he
    · exact h e he
    · rw [List.mem_singleton.mp he]
      simpa [Val.isNil_iff] using hv

private theorem lookup_filter (entries : List (Key × Val U)) (k k' : Key) :
    lookup (entries.filter (fun e => e.1 ≠ k)) k' =
      if k' = k then .nil else lookup entries k' := by
  induction entries with
  | nil => simp
  | cons e rest ih =>
    by_cases he : e.1 = k
    · rw [List.filter_cons_of_neg (by simpa using he), ih, lookup_cons]
      by_cases hk : k' = k
      · simp [hk]
      · have hne : ¬ k' = e.1 := fun h => hk (h.trans he)
        simp [hk, hne]
    · rw [List.filter_cons_of_pos (by simpa using he), lookup_cons, lookup_cons, ih]
      by_cases hk : k' = e.1
      · have hne : ¬ k' = k := fun h => he (hk.symm.trans h)
        simp [hk, he]
      · simp [hk]

private theorem lookup_replace (entries : List (Key × Val U)) (k k' : Key) (v : Val U)
    (hk : k ∈ entries.map Prod.fst) :
    lookup (entries.map (fun e => if e.1 = k then (k, v) else e)) k' =
      if k' = k then v else lookup entries k' := by
  induction entries with
  | nil => simp at hk
  | cons e rest ih =>
    rw [List.map_cons, lookup_cons, lookup_cons]
    by_cases he : e.1 = k
    · by_cases hk' : k' = k
      · simp [he, hk']
      · by_cases hin : k ∈ rest.map Prod.fst
        · simp [he, hk', ih hin]
        · have hsame : rest.map (fun e => if e.1 = k then (k, v) else e) = rest := by
            conv => rhs; rw [← List.map_id rest]
            apply List.map_congr_left
            intro x hx
            have hne : x.1 ≠ k := fun h => hin (h ▸ List.mem_map.mpr ⟨x, hx, rfl⟩)
            simp [hne]
          simp [he, hk', hsame]
    · have hin : k ∈ rest.map Prod.fst := by
        simp only [List.map_cons, List.mem_cons] at hk
        exact hk.resolve_left (fun h => he h.symm)
      by_cases hk' : k' = e.1
      · have hne : ¬ k' = k := fun h => he (hk'.symm.trans h)
        simp [hk', he]
      · simp [he, hk', ih hin]

private theorem lookup_append_single (entries : List (Key × Val U)) (k k' : Key) (v : Val U)
    (hk : k ∉ entries.map Prod.fst) :
    lookup (entries ++ [(k, v)]) k' = if k' = k then v else lookup entries k' := by
  induction entries with
  | nil => simp [lookup_cons]
  | cons e rest ih =>
    simp only [List.map_cons, List.mem_cons, not_or] at hk
    rw [List.cons_append, lookup_cons, lookup_cons, ih hk.2]
    by_cases he : k' = e.1
    · have hne : ¬ k' = k := fun h => hk.1 (h.symm.trans he)
      rw [if_pos he, if_neg hne, if_pos he]
    · rw [if_neg he, if_neg he]

/-- The raw assignment changes the one key. -/
theorem lookup_setEntries (entries : List (Key × Val U)) (k k' : Key) (v : Val U) :
    lookup (setEntries entries k v) k' = if k' = k then v else lookup entries k' := by
  by_cases hv : v.isNil = true
  · rw [setEntries, if_pos hv, lookup_filter, Val.isNil_iff.mp hv]
  · by_cases hk : k ∈ entries.map Prod.fst
    · rw [setEntries, if_neg hv, if_pos hk, lookup_replace _ _ _ _ hk]
    · rw [setEntries, if_neg hv, if_neg hk, lookup_append_single _ _ _ _ hk]

/-! ## Tables -/

/-- A table together with the facts that every Lua table satisfies. -/
structure Table (U : Type) where
  entries : List (Key × Val U)
  /-- What `lua_rawlen` answers. -/
  rawlen : Nat
  metatable : Option Ref
  keys_nodup : (entries.map Prod.fst).Nodup
  ne_nil : ∀ e ∈ entries, e.2 ≠ .nil
  border : IsBorder entries rawlen

namespace Table

/-- A new table. -/
def empty : Table U where
  entries := []
  rawlen := 0
  metatable := none
  keys_nodup := by simp
  ne_nil := by simp
  border := by simp [IsBorder]

/-- `lua_rawget`. -/
def get (t : Table U) (k : Key) : Val U := lookup t.entries k

/-- `lua_rawset`. -/
def rawset (t : Table U) (k : Key) (v : Val U) : Table U where
  entries := setEntries t.entries k v
  rawlen := firstBorder (setEntries t.entries k v)
  metatable := t.metatable
  keys_nodup := keys_nodup_setEntries t.keys_nodup k v
  ne_nil := ne_nil_setEntries t.ne_nil k v
  border := isBorder_firstBorder _

/-- `lua_setmetatable`. -/
def setMetatable (t : Table U) (m : Option Ref) : Table U := { t with metatable := m }

@[simp] theorem entries_empty : (empty : Table U).entries = [] := rfl

@[simp] theorem get_empty (k : Key) : (empty : Table U).get k = .nil := rfl

@[simp] theorem metatable_empty : (empty : Table U).metatable = none := rfl

@[simp] theorem metatable_rawset (t : Table U) (k : Key) (v : Val U) :
    (t.rawset k v).metatable = t.metatable := rfl

@[simp] theorem get_setMetatable (t : Table U) (m : Option Ref) (k : Key) :
    (t.setMetatable m).get k = t.get k := rfl

@[simp] theorem metatable_setMetatable (t : Table U) (m : Option Ref) :
    (t.setMetatable m).metatable = m := rfl

theorem get_rawset (t : Table U) (k k' : Key) (v : Val U) :
    (t.rawset k v).get k' = if k' = k then v else t.get k' :=
  lookup_setEntries t.entries k k' v

end Table

/-! ## The heap -/

/-- The tables that exist. -/
abbrev Heap (U : Type) := List (Table U)

namespace Heap

/-- The table of a reference.  A reference outside the heap never occurs in a
running state, and reads as an empty table. -/
def get (h : Heap U) (r : Ref) : Table U := (h[r]?).getD Table.empty

/-- Every table of the first heap is unchanged in the second. -/
def Extends (h h' : Heap U) : Prop :=
  h.length ≤ h'.length ∧ ∀ r, r < h.length → h'.get r = h.get r

theorem Extends.refl (h : Heap U) : Extends h h := ⟨Nat.le_refl _, fun _ _ => rfl⟩

theorem Extends.trans {h₁ h₂ h₃ : Heap U} (h₁₂ : Extends h₁ h₂) (h₂₃ : Extends h₂ h₃) :
    Extends h₁ h₃ :=
  ⟨Nat.le_trans h₁₂.1 h₂₃.1, fun r hr =>
    (h₂₃.2 r (Nat.lt_of_lt_of_le hr h₁₂.1)).trans (h₁₂.2 r hr)⟩

/-- New tables leave the old ones alone. -/
theorem extends_append (h new : Heap U) : Extends h (h ++ new) := by
  refine ⟨by simp, fun r hr => ?_⟩
  simp [get, List.getElem?_append_left hr]

@[simp] theorem get_append_length (h : Heap U) (t : Table U) :
    Heap.get (h ++ [t]) h.length = t := by
  simp [get]

@[simp] theorem get_set_self {h : Heap U} {r : Ref} (hr : r < h.length) (t : Table U) :
    Heap.get (h.set r t) r = t := by
  simp [get, hr]

theorem get_set_ne (h : Heap U) {r r' : Ref} (hne : r ≠ r') (t : Table U) :
    Heap.get (h.set r t) r' = h.get r' := by
  simp [get, List.getElem?_set_ne hne]

/-- A write above a heap's length leaves that heap alone. -/
theorem Extends.set {h h' : Heap U} (hext : Extends h h') {r : Ref} (hr : h.length ≤ r)
    (t : Table U) : Extends h (h'.set r t) := by
  refine ⟨by simpa using hext.1, fun r' hr' => ?_⟩
  have hne : r ≠ r' := Nat.ne_of_gt (Nat.lt_of_lt_of_le hr' hr)
  rw [get_set_ne _ hne]
  exact hext.2 r' hr'

/-- The metatable of a value. -/
def metatable (h : Heap U) : Val U → Option Ref
  | .table r => (h.get r).metatable
  | .userdata _ m => m
  | _ => none

/-- `luaL_getmetafield`: the field of the value's metatable, nil when there is
no metatable or no such field. -/
def getmetafield (h : Heap U) (v : Val U) (name : Bytes) : Val U :=
  match h.metatable v with
  | none => .nil
  | some m => (h.get m).get (.str name)

theorem getmetafield_of_metatable_none {h : Heap U} {v : Val U} (hv : h.metatable v = none)
    (name : Bytes) : h.getmetafield v name = .nil := by
  simp [getmetafield, hv]

end Heap

end Vklib.Lua
