import Vklib.Handle.Effect

/-!
# The invariant of the handles

`Sound` holds in every state of every run (`happen_sound`).  It says how the
environment of each handle was made (`Linked`): alone, by taking over that of an
earlier handle, or with a link to it.  It says as well that a metatable tells the
type of the driver object, that no two handles hold the same one unless they are
references, and which handles the references are.

A step keeps it, since it only adds (`sound_of_growth`).  A finaliser destroys
the object of its receiver and takes a metatable away, which the invariant does
not look at (`sound_of_destroyed`).
-/

namespace Vklib.Handle

open Vklib.Lua

/-! ## The invariant -/

/-- A table is the environment made for a handle. -/
structure IsEnv (L : State) (e : Ref) (h : Udata) (mode : Int) : Prop where
  bound : e < L.heap.length
  owner : (L.heap.get e).get (.int 1) = handle h
  mode : (L.heap.get e).get (.int 2) = .int (Int64.ofInt mode)

/-- The userdata of the driver object that another one uses. -/
structure Parent (L : State) (h : Udata) (obj : Native) (m : Udata) (p : Userdata) :
    Prop where
  earlier : m < h
  found : L.objects[m]? = some p
  uses : parentOf L.host.births obj = some p.payload
  typed : ∃ t, kind L.host.births p.payload = some t ∧ dependable t

/-- How a userdata got its environment. -/
inductive Linked (L : State) (h : Udata) (o : Userdata) : Prop where
  | bson (hkind : kind L.host.births o.payload = some .bson)
      (href : isReference o.payload = false)
  | root {name : TypeName} {e : Ref} (hkind : kind L.host.births o.payload = some name)
      (href : isReference o.payload = false) (hname : name = .client ∨ name = .readprefs)
      (hparent : parentOf L.host.births o.payload = none)
      (hvalue : o.uservalue = .table e) (henv : IsEnv L e h 0)
  | inherit {name : TypeName} {m : Udata} {p : Userdata}
      (hkind : kind L.host.births o.payload = some name) (href : isReference o.payload = false)
      (hname : inherits name) (hparent : Parent L h o.payload m p)
      (hvalue : o.uservalue = p.uservalue)
  | child {name : TypeName} {m : Udata} {p : Userdata} {e : Ref} {mode : Int}
      (hkind : kind L.host.births o.payload = some name)
      (hname : name = .gridfs ∧ isReference o.payload = false ∧ mode = 0 ∨
        name = .collection ∧ isReference o.payload = true ∧ mode = 1)
      (hparent : Parent L h o.payload m p) (hvalue : o.uservalue = .table e)
      (henv : IsEnv L e h mode) (hlink : (L.heap.get e).get (.int 3) = p.uservalue)

/-- The invariant of all runs. -/
structure Sound (L : State) : Prop where
  linked : ∀ (h : Udata) (o : Userdata), L.objects[h]? = some o → Linked L h o
  typed : ∀ (h : Udata) (o : Userdata), L.objects[h]? = some o → ∀ t, o.metatable = some t →
    kind L.host.births o.payload = some t
  distinct : ∀ (u v : Udata) (o p : Userdata), L.objects[u]? = some o → L.objects[v]? = some p →
    o.payload = p.payload → isReference o.payload = false → u = v
  destroyed : ∀ d ∈ L.host.destroyed, ∃ id < L.host.births.length, d = .own id
  refs : ∀ h, h ∈ L.host.refs ↔ ∃ o : Userdata, L.objects[h]? = some o ∧ isReference o.payload = true

/-! ## Growth keeps the invariant -/

section

variable {L L' : State} {h : Udata} {o : Userdata}

theorem kind_append {births bs : List Birth} {obj : Native} {t : TypeName}
    (hkind : kind births obj = some t) : kind (births ++ bs) obj = some t := by
  cases obj with
  | own id =>
    obtain ⟨b, hb, rfl⟩ := Option.map_eq_some_iff.mp hkind
    have hlt := (List.getElem?_eq_some_iff.mp hb).1
    simp [kind, List.getElem?_append_left hlt, hb]
  | chunks g => exact hkind
  | files g => exact hkind

theorem parentOf_append {births bs : List Birth} {obj : Native} {t : TypeName}
    (hkind : kind births obj = some t) : parentOf (births ++ bs) obj = parentOf births obj := by
  cases obj with
  | own id =>
    obtain ⟨b, hb, rfl⟩ := Option.map_eq_some_iff.mp hkind
    have hlt := (List.getElem?_eq_some_iff.mp hb).1
    simp [parentOf, List.getElem?_append_left hlt]
  | chunks g => rfl
  | files g => rfl

theorem Linked.kind_eq (hlinked : Linked L h o) : ∃ t, kind L.host.births o.payload = some t := by
  cases hlinked with
  | bson hkind => exact ⟨_, hkind⟩
  | root hkind => exact ⟨_, hkind⟩
  | inherit hkind => exact ⟨_, hkind⟩
  | child hkind => exact ⟨_, hkind⟩

/-- A state that has all that another one has. -/
structure Above (L L' : State) : Prop where
  births : ∃ bs, L'.host.births = L.host.births ++ bs
  heap : L.heap.length ≤ L'.heap.length
  envs : ∀ e < L.heap.length, ∀ k, (L'.heap.get e).get k = (L.heap.get e).get k
  objects : ∀ (m : Udata) (p : Userdata), L.objects[m]? = some p →
    ∃ p' : Userdata, L'.objects[m]? = some p' ∧ p'.payload = p.payload ∧ p'.uservalue = p.uservalue

theorem IsEnv.above (hab : Above L L') {e : Ref} {mode : Int} (henv : IsEnv L e h mode) :
    IsEnv L' e h mode where
  bound := Nat.lt_of_lt_of_le henv.bound hab.heap
  owner := by rw [hab.envs e henv.bound, henv.owner]
  mode := by rw [hab.envs e henv.bound, henv.mode]

theorem Parent.above (hab : Above L L') {obj : Native} {m : Udata} {p : Userdata}
    {t : TypeName} (hkind : kind L.host.births obj = some t) (hparent : Parent L h obj m p) :
    ∃ p', Parent L' h obj m p' ∧ p'.uservalue = p.uservalue := by
  obtain ⟨bs, hbs⟩ := hab.births
  obtain ⟨p', hfound, hpayload, hvalue⟩ := hab.objects m p hparent.found
  obtain ⟨t', ht', hdep⟩ := hparent.typed
  refine ⟨p', ⟨hparent.earlier, hfound, ?_, t', ?_, hdep⟩, hvalue⟩
  · rw [hbs, parentOf_append hkind, hparent.uses, hpayload]
  · rw [hbs, hpayload]
    exact kind_append ht'

theorem Linked.above (hab : Above L L') (hlinked : Linked L h o) {o' : Userdata}
    (hpayload : o'.payload = o.payload) (hvalue : o'.uservalue = o.uservalue) : Linked L' h o' := by
  obtain ⟨bs, hbs⟩ := hab.births
  have hkind' {t : TypeName} (hkind : kind L.host.births o.payload = some t) :
      kind L'.host.births o'.payload = some t := by
    rw [hbs, hpayload]
    exact kind_append hkind
  cases hlinked with
  | bson hkind href => exact .bson (hkind' hkind) (hpayload ▸ href)
  | root hkind href hname hparent huser henv =>
    refine .root (hkind' hkind) (hpayload ▸ href) hname ?_ (hvalue.trans huser) (henv.above hab)
    rw [hbs, hpayload, parentOf_append hkind, hparent]
  | inherit hkind href hname hparent huser =>
    obtain ⟨p', hparent', huser'⟩ := hparent.above hab hkind
    exact .inherit (hkind' hkind) (hpayload ▸ href) hname (hpayload ▸ hparent')
      (hvalue.trans (huser.trans huser'.symm))
  | child hkind hname hparent huser henv hlink =>
    obtain ⟨p', hparent', huser'⟩ := hparent.above hab hkind
    refine .child (hkind' hkind) (hpayload ▸ hname) (hpayload ▸ hparent') (hvalue.trans huser)
      (henv.above hab) ?_
    rw [hab.envs _ henv.bound, hlink, huser']

theorem getElem?_concat_eq_some {α : Type} {xs : List α} {x y : α} {i : Nat} :
    (xs ++ [x])[i]? = some y ↔ xs[i]? = some y ∨ i = xs.length ∧ y = x := by
  by_cases hlt : i < xs.length
  · rw [List.getElem?_append_left hlt]
    constructor
    · exact Or.inl
    · rintro (h | ⟨rfl, -⟩)
      · exact h
      · exact absurd hlt (Nat.lt_irrefl _)
  · have hnone : xs[i]? = none := List.getElem?_eq_none_iff.mpr (Nat.le_of_not_lt hlt)
    rw [List.getElem?_append_right (Nat.le_of_not_lt hlt), hnone]
    by_cases heq : i = xs.length
    · subst heq
      simp [eq_comm]
    · have hpos : i - xs.length ≠ 0 := by omega
      simp [heq, hpos]

/-- What a growth leaves of a state. -/
theorem unload_eq_grown {bs : List Birth} {ts : List (Table (Opaque TypeName))} {os : List Userdata}
    {ds : List Native} {rs : List Udata} (heq : unload L' = unload (grown L bs ts os ds rs)) :
    L'.heap = L.heap ++ ts ∧ L'.objects = L.objects ++ os ∧ L'.host =
      { births := L.host.births ++ bs, destroyed := L.host.destroyed ++ ds,
        refs := L.host.refs ++ rs } := by
  simp only [unload, grown, LState.mk.injEq, true_and] at heq
  exact heq

theorem above_of_growth (hgrowth : Growth L L') : Above L L' := by
  obtain ⟨bs, ts, os, ds, rs, heq, -⟩ := hgrowth
  obtain ⟨hheap, hobjects, hhost⟩ := unload_eq_grown heq
  refine ⟨⟨bs, by rw [hhost]⟩, by simp [hheap], fun e he k => ?_, fun m p hp => ⟨p, ?_, rfl, rfl⟩⟩
  · rw [hheap, (Heap.extends_append L.heap ts).2 e he]
  · rw [hobjects, List.getElem?_append_left (List.getElem?_eq_some_iff.mp hp).1, hp]

/-- The birth of an object that a growth adds. -/
theorem kind_added {births bs : List Birth} {i : Nat} {b : Birth} (hbirth : bs[i]? = some b) :
    kind (births ++ bs) (.own (births.length + i)) = some b.type ∧
      parentOf (births ++ bs) (.own (births.length + i)) = b.parent := by
  have hget : (births ++ bs)[births.length + i]? = some b := by
    rw [List.getElem?_append_right (Nat.le_add_right _ _), Nat.add_sub_cancel_left, hbirth]
  simp [kind, parentOf, hget]

theorem get_rootEnv (u : Udata) (mode : Int) :
    (rootEnv u mode).get (.int 1) = handle u ∧
      (rootEnv u mode).get (.int 2) = .int (Int64.ofInt mode) := by
  simp [rootEnv, Table.get_rawset]

theorem get_linkedEnv (u : Udata) (mode : Int) (v : Value) :
    ((rootEnv u mode).rawset (.int 3) v).get (.int 1) = handle u ∧
      ((rootEnv u mode).rawset (.int 3) v).get (.int 2) = .int (Int64.ofInt mode) ∧
      ((rootEnv u mode).rawset (.int 3) v).get (.int 3) = v := by
  simp [rootEnv, Table.get_rawset]

/-- The userdata that a step adds is linked. -/
theorem linked_of_added {bs : List Birth} {ts : List (Table (Opaque TypeName))} {ds : List Native}
    {rs : List Udata} (hadded : Added L bs ds ts rs o) (hheap : L'.heap = L.heap ++ ts)
    (hobjects : L'.objects = L.objects ++ [o]) (hbirths : L'.host.births = L.host.births ++ bs) :
    Linked L' L.objects.length o := by
  have hfound {m : Udata} {p : Userdata} (hp : L.objects[m]? = some p) :
      m < L.objects.length ∧ L'.objects[m]? = some p := by
    refine ⟨(List.getElem?_eq_some_iff.mp hp).1, ?_⟩
    rw [hobjects, getElem?_concat_eq_some]
    exact Or.inl hp
  have htyped {p : Userdata} (ht : ∃ t, kind L.host.births p.payload = some t ∧ dependable t) :
      ∃ t, kind L'.host.births p.payload = some t ∧ dependable t := by
    obtain ⟨t, ht, hdep⟩ := ht
    exact ⟨t, by rw [hbirths]; exact kind_append ht, hdep⟩
  have hlast {t : Table (Opaque TypeName)} (hts : ts = [t]) :
      L.heap.length < L'.heap.length ∧ L'.heap.get L.heap.length = t := by
    rw [hheap, hts]
    exact ⟨by simp, Heap.get_append_length _ _⟩
  cases hadded with
  | bson hbirth hmetatable =>
    refine .bson ?_ rfl
    rw [hbirths]
    exact (kind_added hbirth).1
  | root hbirth hname hds =>
    obtain ⟨hlt, hget⟩ := hlast rfl
    refine .root (by rw [hbirths]; exact (kind_added hbirth).1) rfl hname
      (by rw [hbirths]; exact (kind_added hbirth).2) rfl ⟨hlt, ?_, ?_⟩
    · rw [hget]
      exact (get_rootEnv _ _).1
    · rw [hget]
      exact (get_rootEnv _ _).2
  | inherit hbirth hname hp hparent hds =>
    obtain ⟨hlt, hp'⟩ := hfound hp
    refine .inherit (by rw [hbirths]; exact (kind_added hbirth).1) rfl hname
      ⟨hlt, hp', ?_, htyped hparent⟩ rfl
    rw [hbirths]
    exact (kind_added hbirth).2
  | gridfs hbirth hp hparent hds =>
    obtain ⟨hlt, hp'⟩ := hfound hp
    obtain ⟨hltheap, hget⟩ := hlast rfl
    obtain ⟨h₁, h₂, h₃⟩ := get_linkedEnv L.objects.length 0 _
    refine .child (by rw [hbirths]; exact (kind_added hbirth).1) (Or.inl ⟨rfl, rfl, rfl⟩)
      ⟨hlt, hp', ?_, htyped hparent⟩ rfl ⟨hltheap, by rw [hget]; exact h₁, by rw [hget]; exact h₂⟩
      (by rw [hget]; exact h₃)
    rw [hbirths]
    exact (kind_added hbirth).2
  | @reference obj m p hobj hp hparent hds =>
    obtain ⟨hlt, hp'⟩ := hfound hp
    obtain ⟨hltheap, hget⟩ := hlast rfl
    obtain ⟨h₁, h₂, h₃⟩ := get_linkedEnv L.objects.length 1 p.uservalue
    have hkind : kind L'.host.births obj = some .collection ∧ isReference obj = true ∧
        parentOf L'.host.births obj = some p.payload := by
      rcases hobj with rfl | rfl
      · exact ⟨rfl, rfl, rfl⟩
      · exact ⟨rfl, rfl, rfl⟩
    exact .child hkind.1 (Or.inr ⟨rfl, hkind.2.1, rfl⟩) ⟨hlt, hp', hkind.2.2, htyped hparent⟩ rfl
      ⟨hltheap, by rw [hget]; exact h₁, by rw [hget]; exact h₂⟩ (by rw [hget]; exact h₃)

/-- What the other parts of the invariant need to know of a new userdata: its
object is new or a reference, the metatable is that of its type, and references
are noted. -/
theorem added_facts {bs : List Birth} {ts : List (Table (Opaque TypeName))} {ds : List Native}
    {rs : List Udata} (hadded : Added L bs ds ts rs o) :
    (isReference o.payload = false → ∃ i, o.payload = .own (L.host.births.length + i)) ∧
      (∀ t, o.metatable = some t → kind (L.host.births ++ bs) o.payload = some t) ∧
      rs = if isReference o.payload then [L.objects.length] else [] := by
  cases hadded with
  | @bson i metatable hbirth hmetatable =>
    refine ⟨fun _ => ⟨i, rfl⟩, fun t ht => ?_, rfl⟩
    show kind _ (.own _) = _
    rw [(kind_added hbirth).1]
    rcases hmetatable with rfl | ⟨rfl, -⟩
    · exact absurd ht (by simp)
    · exact ht
  | @root i name hbirth hname hds =>
    refine ⟨fun _ => ⟨i, rfl⟩, fun t ht => ?_, rfl⟩
    show kind _ (.own _) = _
    rw [(kind_added hbirth).1]
    exact ht
  | @inherit i name m p hbirth hname hp hparent hds =>
    refine ⟨fun _ => ⟨i, rfl⟩, fun t ht => ?_, rfl⟩
    show kind _ (.own _) = _
    rw [(kind_added hbirth).1]
    exact ht
  | @gridfs i m p hbirth hp hparent hds =>
    refine ⟨fun _ => ⟨i, rfl⟩, fun t ht => ?_, rfl⟩
    show kind _ (.own _) = _
    rw [(kind_added hbirth).1]
    exact ht
  | @reference obj m p hobj hp hparent hds =>
    rcases hobj with rfl | rfl
    · exact ⟨fun h => absurd h (by simp [isReference]), fun t ht => ht, rfl⟩
    · exact ⟨fun h => absurd h (by simp [isReference]), fun t ht => ht, rfl⟩

/-- The driver object of a handle that is no reference. -/
theorem Linked.own_lt (hlinked : Linked L h o) (href : isReference o.payload = false) :
    ∃ id < L.host.births.length, o.payload = .own id := by
  obtain ⟨t, ht⟩ := hlinked.kind_eq
  cases hobj : o.payload with
  | own id =>
    rw [hobj] at ht
    obtain ⟨b, hb, -⟩ := Option.map_eq_some_iff.mp ht
    exact ⟨id, (List.getElem?_eq_some_iff.mp hb).1, rfl⟩
  | chunks g => simp [hobj, isReference] at href
  | files g => simp [hobj, isReference] at href

theorem sound_of_growth (hs : Sound L) (hgrowth : Growth L L') : Sound L' := by
  have hab := above_of_growth hgrowth
  obtain ⟨bs, ts, os, ds, rs, heq, -, hds, hos⟩ := hgrowth
  obtain ⟨hheap, hobjects, hhost⟩ := unload_eq_grown heq
  have hbirths : L'.host.births = L.host.births ++ bs := by rw [hhost]
  have hdestroyed : ∀ d ∈ L'.host.destroyed, ∃ id < L'.host.births.length, d = .own id := by
    intro d hd
    simp only [hhost, List.mem_append, List.length_append] at hd ⊢
    rcases hd with hd | hd
    · obtain ⟨id, hid, rfl⟩ := hs.destroyed d hd
      exact ⟨id, by omega, rfl⟩
    · obtain ⟨i, hi, rfl⟩ := hds d hd
      exact ⟨_, by omega, rfl⟩
  have hold : ∀ (h : Udata) (o : Userdata), L.objects[h]? = some o → Linked L' h o :=
    fun h o ho => (hs.linked h o ho).above hab rfl rfl
  have htyped : ∀ (h : Udata) (o : Userdata), L.objects[h]? = some o → ∀ t, o.metatable = some t →
      kind L'.host.births o.payload = some t := by
    intro h o ho t ht
    rw [hbirths]
    exact kind_append (hs.typed h o ho t ht)
  rcases hos with ⟨rfl, rfl, rfl⟩ | ⟨o, rfl, hadded⟩
  · rw [List.append_nil] at hobjects
    refine ⟨hobjects ▸ hold, hobjects ▸ htyped, hobjects ▸ hs.distinct, hdestroyed, fun h => ?_⟩
    rw [hhost, hobjects]
    simpa using hs.refs h
  · obtain ⟨hnew, hmetatable, hrs⟩ := added_facts hadded
    have hget {h : Udata} {o' : Userdata} :
        L'.objects[h]? = some o' ↔
          L.objects[h]? = some o' ∨ h = L.objects.length ∧ o' = o := by
      rw [hobjects]
      exact getElem?_concat_eq_some
    have hfresh (u : Udata) (o' : Userdata) (ho' : L.objects[u]? = some o')
        (href : isReference o.payload = false) : o'.payload ≠ o.payload := by
      intro heq
      obtain ⟨i, hi⟩ := hnew href
      obtain ⟨id, hid, hpayload⟩ := (hs.linked u o' ho').own_lt (heq ▸ href)
      rw [heq, hi, Native.own.injEq] at hpayload
      omega
    refine ⟨?_, ?_, ?_, hdestroyed, ?_⟩
    · intro h o' ho'
      rcases hget.mp ho' with ho' | ⟨rfl, rfl⟩
      · exact hold h o' ho'
      · exact linked_of_added hadded hheap hobjects hbirths
    · intro h o' ho' t ht
      rcases hget.mp ho' with ho' | ⟨rfl, rfl⟩
      · exact htyped h o' ho' t ht
      · rw [hbirths]
        exact hmetatable t ht
    · intro u v o₁ o₂ ho₁ ho₂ hpayload href
      rcases hget.mp ho₁ with ho₁ | ⟨rfl, rfl⟩ <;> rcases hget.mp ho₂ with ho₂ | ⟨rfl, rfl⟩
      · exact hs.distinct u v o₁ o₂ ho₁ ho₂ hpayload href
      · exact absurd hpayload (hfresh u o₁ ho₁ (hpayload ▸ href))
      · exact absurd hpayload.symm (hfresh v o₂ ho₂ href)
      · rfl
    · intro h
      rw [hhost]
      simp only [List.mem_append, hs.refs h, hget]
      constructor
      · rintro (⟨o', ho', href⟩ | hmem)
        · exact ⟨o', Or.inl ho', href⟩
        · rw [hrs] at hmem
          by_cases href : isReference o.payload = true
          · rw [if_pos href, List.mem_singleton] at hmem
            exact ⟨o, Or.inr ⟨hmem, rfl⟩, href⟩
          · rw [if_neg href] at hmem
            exact absurd hmem List.not_mem_nil
      · rintro ⟨o', ho' | ⟨rfl, rfl⟩, href⟩
        · exact Or.inl ⟨o', ho', href⟩
        · refine Or.inr ?_
          rw [hrs, if_pos href]
          exact List.mem_singleton_self _

/-! ## Modes -/

/-- The environment of a handle, and the handle that it was made for. -/
theorem Sound.env (hs : Sound L) (h : Udata) (o : Userdata) (ho : L.objects[h]? = some o)
    (hkind : kind L.host.births o.payload ≠ some .bson) :
    ∃ e a mode, o.uservalue = .table e ∧ IsEnv L e a mode ∧ a ≤ h ∧
      (a = h → mode = if isReference o.payload then 1 else 0) ∧
      (a ≠ h → isReference o.payload = false) := by
  induction h using Nat.strong_induction_on generalizing o with
  | h h ih =>
    cases hs.linked h o ho with
    | bson hbson => exact absurd hbson hkind
    | root _ href _ _ hvalue henv =>
      exact ⟨_, h, 0, hvalue, henv, Nat.le_refl h, fun _ => by simp [href],
        fun hne => absurd rfl hne⟩
    | @inherit name m p _ href _ hparent hvalue =>
      obtain ⟨t, ht, hdep⟩ := hparent.typed
      have hbson : kind L.host.births p.payload ≠ some .bson := by
        rw [ht]
        simp only [ne_eq, Option.some.injEq]
        exact hdep.2
      obtain ⟨e, a, mode, huser, henv, hle, -, -⟩ := ih m hparent.earlier p hparent.found hbson
      have hlt : a < h := Nat.lt_of_le_of_lt hle hparent.earlier
      exact ⟨e, a, mode, hvalue.trans huser, henv, Nat.le_of_lt hlt,
        fun heq => absurd heq (Nat.ne_of_lt hlt), fun _ => href⟩
    | @child name m p e mode _ hname _ hvalue henv _ =>
      refine ⟨e, h, mode, hvalue, henv, Nat.le_refl h, fun _ => ?_, fun hne => absurd rfl hne⟩
      rcases hname with ⟨-, href, hmode⟩ | ⟨-, href, hmode⟩
      · simp [href, hmode]
      · simp [href, hmode]

/-- The mode tells the references apart. -/
theorem Sound.mode (hs : Sound L) {h : Udata} {o : Userdata}
    (hstack : index2value L.stack 1 = some (handle h))
    (ho : L.objects[h]? = some o) (hkind : kind L.host.births o.payload ≠ some .bson) :
    ∃ mode, getHandleMode L 1 = .ok (mode, L) ∧ (mode ≠ 0 ↔ isReference o.payload = true) := by
  obtain ⟨e, a, mode, hvalue, henv, -, howner, hother⟩ := hs.env h o ho hkind
  refine ⟨_, getHandleMode_eq hstack ho hvalue, ?_⟩
  unfold envMode
  rw [henv.owner, henv.mode]
  by_cases heq : a = h
  · rw [if_pos (by rw [heq]), howner heq]
    cases isReference o.payload with
    | true => decide
    | false => decide
  · have hne : handle a ≠ handle h := by
      intro hhandle
      simp only [Val.host.injEq, Opaque.udata.injEq] at hhandle
      exact heq hhandle
    rw [if_neg hne, hother heq]
    simp

/-! ## Finalisers -/

theorem objects_cleared (v : Value) (u : Udata) :
    (cleared L v).objects[u]? = (L.objects[u]?).map fun o =>
      if v = handle u then { o with metatable := none } else o := by
  unfold cleared
  split
  · rename_i w
    rw [List.getElem?_modify]
    by_cases heq : w = u
    · simp [heq]
    · simp [heq]
  · simp
  · rename_i hne _
    cases hu : L.objects[u]? with
    | none => rfl
    | some o =>
      have : v ≠ handle u := fun heq => hne u heq
      simp [this]

theorem host_cleared (v : Value) : (cleared L v).host = L.host := by
  unfold cleared
  split <;> rfl

/-- What a finaliser does is the same for every stack. -/
theorem unload_cleared {p : Process} {stack : List Value} (obj : Native) (v : Value) :
    unload (unload (cleared (destroy (load p stack) obj) v)) =
      unload (cleared (destroy p.world obj) v) := by
  unfold cleared
  split <;> rfl

/-- A userdata after a finaliser. -/
theorem objects_cleared_eq_some {v : Value} {u : Udata} {o' : Userdata}
    (ho' : (cleared L v).objects[u]? = some o') :
    ∃ o : Userdata, L.objects[u]? = some o ∧ o'.payload = o.payload ∧ o'.uservalue = o.uservalue ∧
      (o'.metatable = o.metatable ∨ o'.metatable = none) := by
  rw [objects_cleared] at ho'
  obtain ⟨o, ho, rfl⟩ := Option.map_eq_some_iff.mp ho'
  refine ⟨o, ho, ?_⟩
  split
  · exact ⟨rfl, rfl, Or.inr rfl⟩
  · exact ⟨rfl, rfl, Or.inl rfl⟩

theorem above_cleared (v : Value) : Above L (cleared L v) := by
  refine ⟨⟨[], by rw [host_cleared, List.append_nil]⟩, ?_, fun e he k => ?_, fun m p hp => ?_⟩
  · unfold cleared
    split
    · exact Nat.le_refl _
    · simp
    · exact Nat.le_refl _
  · unfold cleared
    split
    · rfl
    · rename_i r
      by_cases heq : r = e
      · subst heq
        rw [Heap.get_set_self he, Table.get_setMetatable]
      · rw [Heap.get_set_ne _ heq]
    · rfl
  · rw [objects_cleared, hp]
    refine ⟨_, rfl, ?_, ?_⟩
    · split <;> rfl
    · split <;> rfl

theorem above_destroyed (obj : Native) (v : Value) : Above L (cleared (destroy L obj) v) := by
  have hab : Above (destroy L obj) (cleared (destroy L obj) v) := above_cleared v
  exact ⟨hab.births, hab.heap, hab.envs, hab.objects⟩

/-- A finaliser destroys the object of a handle that is no reference. -/
theorem sound_of_destroyed (hs : Sound L) (ho : L.objects[h]? = some o)
    (href : isReference o.payload = false) (v : Value) :
    Sound (cleared (destroy L o.payload) v) := by
  have hab : Above L (cleared (destroy L o.payload) v) := above_destroyed o.payload v
  have hbirths : (cleared (destroy L o.payload) v).host.births = L.host.births := by
    rw [host_cleared]
    rfl
  have hold {u : Udata} {p' : Userdata}
      (hp' : (cleared (destroy L o.payload) v).objects[u]? = some p') :
      ∃ p : Userdata, L.objects[u]? = some p ∧ p'.payload = p.payload ∧ p'.uservalue = p.uservalue ∧
        (p'.metatable = p.metatable ∨ p'.metatable = none) :=
    objects_cleared_eq_some (L := destroy L o.payload) hp'
  refine ⟨?_, ?_, ?_, ?_, ?_⟩
  · intro u p' hp'
    obtain ⟨p, hp, hpayload, hvalue, -⟩ := hold hp'
    exact (hs.linked u p hp).above hab hpayload hvalue
  · intro u p' hp' t ht
    obtain ⟨p, hp, hpayload, -, hmetatable | hmetatable⟩ := hold hp'
    · rw [hbirths, hpayload]
      exact hs.typed u p hp t (hmetatable ▸ ht)
    · rw [hmetatable] at ht
      exact absurd ht (by simp)
  · intro u w p' q' hp' hq' heq href'
    obtain ⟨p, hp, hpayload, -⟩ := hold hp'
    obtain ⟨q, hq, hpayload', -⟩ := hold hq'
    exact hs.distinct u w p q hp hq (hpayload ▸ hpayload' ▸ heq) (hpayload ▸ href')
  · intro d hd
    rw [hbirths]
    rw [host_cleared] at hd
    rcases List.mem_append.mp hd with hd | hd
    · exact hs.destroyed d hd
    · rw [List.mem_singleton.mp hd]
      exact (hs.linked h o ho).own_lt href
  · intro u
    rw [host_cleared]
    apply (hs.refs u).trans
    constructor
    · rintro ⟨p, hp, hpref⟩
      obtain ⟨p', hp', hpayload, -⟩ := hab.objects u p hp
      exact ⟨p', hp', hpayload ▸ hpref⟩
    · rintro ⟨p', hp', hpref⟩
      obtain ⟨p, hp, hpayload, -⟩ := hold hp'
      exact ⟨p, hp, hpayload ▸ hpref⟩

/-- The receiver that a method accepts. -/
theorem luaL_testudata_cases (L : State) (name : TypeName) :
    luaL_testudata L 1 name = none ∨
      ∃ u o, index2value L.stack 1 = some (handle u) ∧ L.objects[u]? = some o ∧
        o.metatable = some name ∧ luaL_testudata L 1 name = some o.payload := by
  cases htest : luaL_testudata L 1 name with
  | none => exact Or.inl rfl
  | some obj =>
    right
    unfold luaL_testudata objectAt at htest
    split at htest
    · rename_i u hindex
      cases ho : L.objects[u]? with
      | none => simp [ho] at htest
      | some o =>
        simp only [ho, Option.map_some, Option.bind_some] at htest
        split at htest
        · rename_i hname
          exact ⟨u, o, hindex, ho, hname, htest.symm⟩
        · exact absurd htest (by simp)
    · exact absurd htest (by simp)

/-- What a finaliser does: it rejects its receiver, or leaves a reference alone,
or destroys the object of the receiver and takes the metatable of the value at
the top. -/
theorem gc_cases (hs : Sound L) (name : TypeName) :
    luaL_testudata L 1 name = none ∧ m__gc L name = .error L ∨
      ∃ u o v s, index2value L.stack 1 = some (handle u) ∧ L.objects[u]? = some o ∧
        o.metatable = some name ∧ L.stack = v :: s ∧
        m__gc L name =
          .ok (if isReference o.payload then L else cleared (destroy L o.payload) v) := by
  rcases luaL_testudata_cases L name with htest | ⟨u, o, hindex, ho, hname, htest⟩
  · refine Or.inl ⟨htest, ?_⟩
    cases name <;> simp [m__gc, Collection.m__gc, destroyAndUnset, luaL_checkudata, htest]
  · right
    have hkind := hs.typed u o ho name hname
    obtain ⟨v, s, hstack⟩ : ∃ v s, L.stack = v :: s := by
      have hlen := le_length_of_index2value hindex Nat.one_pos
      exact List.exists_cons_of_length_pos hlen
    refine ⟨u, o, v, s, hindex, ho, hname, hstack, ?_⟩
    have hunset : unsetType (destroy L o.payload) = .ok (cleared (destroy L o.payload) v) :=
      unsetType_eq hstack
    by_cases hcollection : name = .collection
    · subst hcollection
      obtain ⟨mode, hmode, hmode'⟩ := hs.mode hindex ho (by rw [hkind]; decide)
      simp only [m__gc, Collection.m__gc, luaL_checkudata, htest, Outcome.ok_bind, hmode, hmode',
        hunset]
      split <;> rfl
    · have href : isReference o.payload = false := by
        cases hobj : o.payload with
        | own id => rfl
        | chunks g => simp [hobj, kind, Ne.symm hcollection] at hkind
        | files g => simp [hobj, kind, Ne.symm hcollection] at hkind
      have hgc : m__gc L name = destroyAndUnset L name := by
        cases name with
        | collection => exact absurd rfl hcollection
        | _ => rfl
      rw [hgc, destroyAndUnset, luaL_checkudata, htest, Outcome.ok_bind, hunset, href]
      rfl

/-! ## Runs -/

/-- An event is the call of the finaliser of a type, on a receiver, with a value
at the top of its stack. -/
inductive Finalised : Event → Udata → TypeName → Value → Prop where
  | gc {name : TypeName} {args : List Value} {u : Udata} {v : Value}
      (hfirst : args.head? = some (handle u)) (hlast : args.getLast? = some v) :
      Finalised (.gc name args) u name v
  | collect {u : Udata} {name : TypeName} : Finalised (.collect u) u name (handle u)

/-- The invariant of a process: the handles are sound, and the running functions
have their receivers at index 1. -/
structure Invariant (p : Process) : Prop where
  sound : Sound p.world
  frames : ∀ frame ∈ p.frames, ∃ type, Receiver (load p frame.stack) frame.self type ∧
    ∀ op ∈ frame.body, allowed type op = true

theorem receiver_above {self : Option Native} {type : Option TypeName} (hab : Above L L')
    (hstack : self ≠ none → ∀ m, index2value L.stack 1 = some (handle m) →
      index2value L'.stack 1 = some (handle m))
    (hreceiver : Receiver L self type) : Receiver L' self type := by
  cases hreceiver with
  | none => exact .none
  | @some m o t hm ho ht =>
    obtain ⟨bs, hbs⟩ := hab.births
    obtain ⟨o', ho', hpayload, -⟩ := hab.objects m o ho
    rw [← hpayload]
    refine .some (hstack (by simp) m hm) ho' ?_
    rw [hbs, hpayload]
    exact kind_append ht

theorem sound_load {p : Process} (hs : Sound p.world) (stack : List Value) : Sound (load p stack) :=
  sound_of_growth hs (growth_of_unload_eq rfl)

theorem sound_unload (hs : Sound L) : Sound (unload L) :=
  sound_of_growth hs (growth_of_unload_eq rfl)

section

variable {p : Process}

/-- The functions that wait keep their receivers. -/
theorem Invariant.rest (hp : Invariant p) {stack : List Value} {world : State}
    (hab : Above (load p stack) world) {frames : List Frame} (hframes : frames ⊆ p.frames) :
    ∀ frame ∈ frames, ∃ type,
      Receiver (load { frames := frames, world := unload world } frame.stack) frame.self type ∧
        ∀ op ∈ frame.body, allowed type op = true := by
  intro frame hframe
  obtain ⟨type, hreceiver, hbody⟩ := hp.frames frame (hframes hframe)
  have hab' : Above (load p frame.stack)
      (load { frames := frames, world := unload world } frame.stack) :=
    ⟨hab.births, hab.heap, hab.envs, hab.objects⟩
  exact ⟨type, receiver_above hab' (fun _ m hm => hm) hreceiver, hbody⟩

theorem Invariant.of_growth (hp : Invariant p) {stack : List Value}
    (hgrowth : Growth (load p stack) L') {frames : List Frame} (hframes : frames ⊆ p.frames) :
    Invariant { frames := frames, world := unload L' } where
  sound := sound_unload (sound_of_growth (sound_load hp.sound stack) hgrowth)
  frames := hp.rest (above_of_growth hgrowth) hframes

/-- What an event does to the handles: it adds some, or it destroys the object
of a receiver that is no reference. -/
inductive Changes (p : Process) (event : Event) (L' : State) : Prop where
  | growth (h : Growth p.world L')
  | destroyed {u : Udata} {o : Userdata} {name : TypeName} {v : Value}
      (hevent : Finalised event u name v) (ho : p.world.objects[u]? = some o)
      (hname : o.metatable = some name) (href : isReference o.payload = false)
      (heq : unload L' = unload (cleared (destroy p.world o.payload) v))

theorem Changes.of_growth {event : Event} {stack : List Value}
    (hgrowth : Growth (load p stack) L') : Changes p event (unload L') := by
  apply Changes.growth
  have hworld : Growth p.world L' := hgrowth.of_unload_eq rfl
  obtain ⟨bs, ts, os, ds, rs, heq, hrest⟩ := hworld
  exact ⟨bs, ts, os, ds, rs, heq, hrest⟩

theorem enter_changes (hp : Invariant p) (f : CFunction) (hf : f ∈ functions)
    (args : List Value) :
    Invariant (enter p f args) ∧ Growth p.world (enter p f args).world := by
  have hbody := functions_allowed f hf
  unfold enter
  cases hself : f.self with
  | none =>
    refine ⟨⟨hp.sound, fun frame hframe => ?_⟩, growth_of_unload_eq rfl⟩
    rcases List.mem_cons.mp hframe with rfl | hframe
    · exact ⟨none, .none, fun op hop => hself ▸ hbody op hop⟩
    · exact hp.frames frame hframe
  | some name =>
    rcases luaL_testudata_cases (load p args.reverse) name with htest | ⟨u, o, hu, ho, hname, htest⟩
    · simp only [htest]
      exact ⟨hp, growth_of_unload_eq rfl⟩
    · simp only [htest]
      refine ⟨⟨hp.sound, fun frame hframe => ?_⟩, growth_of_unload_eq rfl⟩
      rcases List.mem_cons.mp hframe with rfl | hframe
      · exact ⟨some name, .some hu ho (hp.sound.typed u o ho name hname),
          fun op hop => hself ▸ hbody op hop⟩
      · exact hp.frames frame hframe

theorem advance_changes (hp : Invariant p) (a : Answer) :
    ∃ p', advance p a = .ok p' ∧ Invariant p' ∧ Changes p (.step a) p'.world := by
  obtain ⟨frames, world⟩ := p
  cases frames with
  | nil => exact ⟨_, rfl, hp, .growth (growth_of_unload_eq rfl)⟩
  | cons frame rest =>
    obtain ⟨self, body, stack⟩ := frame
    have hrest : rest ⊆ (⟨self, body, stack⟩ : Frame) :: rest := List.subset_cons_self _ _
    obtain ⟨type, hreceiver, hbody⟩ := hp.frames ⟨self, body, stack⟩ List.mem_cons_self
    cases body with
    | nil =>
      exact ⟨_, rfl, ⟨hp.sound, fun frame hframe => hp.frames frame (hrest hframe)⟩,
        .growth (growth_of_unload_eq rfl)⟩
    | cons op body =>
      have hop : allowed type op = true := hbody op List.mem_cons_self
      rcases exec_growth (a := a) hreceiver hop with ⟨L', next, hexec, hgrowth, hkeeps⟩ |
        ⟨L', hexec, hgrowth⟩
      · have hreturned := hp.of_growth hgrowth hrest
        have hcontinued : ∀ body' : List Op, (∀ op ∈ body', allowed type op = true) →
            Invariant { frames := ⟨self, body', L'.stack⟩ :: rest, world := unload L' } := by
          intro body' hbody'
          refine ⟨hreturned.sound, fun frame hframe => ?_⟩
          rcases List.mem_cons.mp hframe with rfl | hframe
          · exact ⟨type, receiver_above (above_of_growth hgrowth) hkeeps hreceiver, hbody'⟩
          · exact hreturned.frames frame hframe
        cases next with
        | goOn =>
          have hbody' : ∀ op ∈ body, allowed type op = true :=
            fun op hop => hbody op (List.mem_cons_of_mem _ hop)
          exact ⟨_, by simp only [advance, hexec], hcontinued body hbody', .of_growth hgrowth⟩
        | again => exact ⟨_, by simp only [advance, hexec], hcontinued _ hbody, .of_growth hgrowth⟩
        | done => exact ⟨_, by simp only [advance, hexec], hreturned, .of_growth hgrowth⟩
      · exact ⟨_, by simp only [advance, hexec], hp.of_growth hgrowth hrest, .of_growth hgrowth⟩

/-- What a finaliser does to a receiver that it accepts and that is no
reference. -/
theorem finalizer_eq (hp : Invariant p) {name : TypeName} {args : List Value} {u : Udata}
    {o : Userdata} {v : Value} (hfirst : args.head? = some (handle u))
    (hlast : args.getLast? = some v) (ho : p.world.objects[u]? = some o)
    (hname : o.metatable = some name) (href : isReference o.payload = false) :
    ∃ p', finalizer p name args = .ok p' ∧
      unload p'.world = unload (cleared (destroy p.world o.payload) v) := by
  have hindex : index2value (load p args.reverse).stack 1 = some (handle u) := by
    show args.reverse.reverse[0]? = some (handle u)
    rwa [List.reverse_reverse, ← List.head?_eq_getElem?]
  rcases gc_cases (sound_load hp.sound args.reverse) name with ⟨htest, -⟩ |
    ⟨u', o', v', s, hu', ho', -, hstack, hgc⟩
  · have hobject : objectAt (load p args.reverse) 1 = some (u, o) := objectAt_of_index hindex ho
    simp [luaL_testudata, hobject, hname] at htest
  · have hstack' : args.reverse = v' :: s := hstack
    rw [List.getLast?_eq_head?_reverse, hstack', List.head?_cons, Option.some.injEq] at hlast
    rw [hindex, Option.some.injEq, Val.host.injEq, Opaque.udata.injEq] at hu'
    subst hlast hu'
    have hsame : o' = o := by
      have ho'' : p.world.objects[u]? = some o' := ho'
      rw [ho, Option.some.injEq] at ho''
      exact ho''.symm
    rw [hsame, if_neg (by simp [href])] at hgc
    have hfinalizer : finalizer p name args = .ok
        { p with world := unload (cleared (destroy (load p args.reverse) o.payload) v') } := by
      simp only [finalizer, hgc]
    exact ⟨_, hfinalizer, unload_cleared _ v'⟩

/-- A finaliser rejects its receiver or leaves a reference alone, or it destroys
the object of the receiver. -/
theorem finalizer_changes (hp : Invariant p) (name : TypeName) (args : List Value) {event : Event}
    (hevent : ∀ u v, args.head? = some (handle u) → args.getLast? = some v →
      Finalised event u name v) :
    ∃ p', finalizer p name args = .ok p' ∧ Invariant p' ∧ Changes p event p'.world := by
  have hsame : Invariant { p with world := unload (load p args.reverse) } :=
    hp.of_growth (growth_of_unload_eq rfl) (List.Subset.refl _)
  have hchanges : Changes p event (unload (load p args.reverse)) :=
    .growth (growth_of_unload_eq rfl)
  rcases gc_cases (sound_load hp.sound args.reverse) name with ⟨-, hgc⟩ |
    ⟨u, o, v, s, hu, ho, hname, hstack, hgc⟩
  · exact ⟨_, by simp only [finalizer, hgc], hsame, hchanges⟩
  · cases href : isReference o.payload with
    | true =>
      rw [if_pos href] at hgc
      exact ⟨_, by simp only [finalizer, hgc], hsame, hchanges⟩
    | false =>
      rw [if_neg (by simp [href])] at hgc
      have hs := sound_of_destroyed (sound_load hp.sound args.reverse) ho href v
      have hfinalizer : finalizer p name args = .ok
          { p with world := unload (cleared (destroy (load p args.reverse) o.payload) v) } := by
        simp only [finalizer, hgc]
      have hfirst : args.head? = some (handle u) := by
        have hfirst : args.reverse.reverse[0]? = some (handle u) := hu
        rwa [List.reverse_reverse, ← List.head?_eq_getElem?] at hfirst
      have hlast : args.getLast? = some v := by
        have hstack' : args.reverse = v :: s := hstack
        rw [List.getLast?_eq_head?_reverse, hstack']
        rfl
      refine ⟨_, hfinalizer, ⟨sound_unload hs, ?_⟩, ?_⟩
      · exact hp.rest (above_destroyed _ v) (List.Subset.refl _)
      · refine .destroyed (hevent u v hfirst hlast) ho hname href ?_
        exact unload_cleared _ v

/-- Every event returns, keeps the invariant, and does what `Changes` says. -/
theorem happen_changes (hp : Invariant p) (event : Event) :
    ∃ p', happen p event = .ok p' ∧ Invariant p' ∧ Changes p event p'.world := by
  cases event with
  | call f args =>
    obtain ⟨hinvariant, hgrowth⟩ := enter_changes hp f.1 f.2 args
    exact ⟨_, rfl, hinvariant, .growth hgrowth⟩
  | step a => exact advance_changes hp a
  | unwind =>
    exact ⟨_, rfl, ⟨hp.sound, fun frame hframe => hp.frames frame (List.mem_of_mem_tail hframe)⟩,
      .growth (growth_of_unload_eq rfl)⟩
  | gc name args => exact finalizer_changes hp name args fun u v => .gc
  | collect u =>
    show ∃ p', collect p u = .ok p' ∧ Invariant p' ∧ Changes p (.collect u) p'.world
    unfold collect
    split
    · apply finalizer_changes hp
      intro u' v hfirst hlast
      simp only [List.head?_cons, Option.some.injEq, Val.host.injEq, Opaque.udata.injEq] at hfirst
      simp only [List.getLast?_singleton, Option.some.injEq] at hlast
      subst hfirst hlast
      exact .collect
    · exact ⟨p, rfl, hp, .growth (growth_of_unload_eq rfl)⟩

theorem happen_invariant (p : Process) (event : Event) (hp : Invariant p) :
    ∃ p', happen p event = .ok p' ∧ Invariant p' := by
  obtain ⟨p', hstep, hp', -⟩ := happen_changes hp event
  exact ⟨p', hstep, hp'⟩

theorem initial_invariant : Invariant initial where
  sound := {
    linked := fun h o ho => by simp [initial] at ho
    typed := fun h o ho => by simp [initial] at ho
    distinct := fun u v o p ho => by simp [initial] at ho
    destroyed := fun d hd => by simp [initial] at hd
    refs := fun h => by simp [initial] }
  frames := fun frame hframe => by simp [initial] at hframe

/-- Every run returns, in a state where the invariant holds. -/
theorem run_invariant (events : List Event) {p : Process} (hp : Invariant p) :
    ∃ p', run events p = .ok p' ∧ Invariant p' :=
  Outcome.foldlM_invariant happen_invariant events hp

end

end

end Vklib.Handle
