import Vklib.Handle.Process

/-!
# What a step does to the objects

`Growth` lists what a step of a function can add to a state: driver objects,
an environment, at most one userdata, and destroyed driver objects, which are
among the new ones.  `Added` says what a new userdata is, with one case for each
kind of environment.  `exec_growth` is the inversion lemma of the steps, and all
that later modules know about them.
-/

namespace Vklib.Handle

open Vklib.Lua

/-! ## Arguments on the stack -/

section

variable {s : List Value} {v w : Value} {idx : Nat}

theorem le_length_of_index2value (h : index2value s idx = some v) (hidx : 0 < idx) :
    idx ≤ s.length := by
  unfold index2value at h
  rw [if_pos (by omega)] at h
  have hlt := (List.getElem?_eq_some_iff.mp h).1
  simp only [List.length_reverse] at hlt
  omega

/-- A value moves to an index of the stack. -/
def replaced (s : List Value) (idx : Nat) (v : Value) : List Value :=
  (s.reverse.set (idx - 1) v).reverse

theorem index2value_replaced_self (h : index2value s idx = some w) (hidx : 0 < idx) :
    index2value (replaced s idx v) idx = some v := by
  have hle := le_length_of_index2value h hidx
  unfold index2value replaced
  rw [if_pos (by omega), List.reverse_reverse, Int.toNat_natCast]
  rw [List.getElem?_set_self]
  rw [List.length_reverse]
  omega

theorem index2value_replaced_first (hidx : 2 ≤ idx) :
    index2value (replaced s idx v) 1 = index2value s 1 := by
  unfold index2value replaced
  rw [if_pos (by omega), if_pos (by omega), List.reverse_reverse]
  apply List.getElem?_set_ne
  show idx - 1 ≠ 0
  omega

theorem lua_replace_eq {L : State} (hstack : L.stack = v :: s) (hidx : 0 < idx)
    (hle : idx ≤ s.length) : lua_replace L idx = .ok { L with stack := replaced s idx v } := by
  unfold lua_replace
  rw [hstack]
  simp only [hidx, hle, and_self, if_true]
  rfl

end

/-! ## The types of driver objects -/

/-- The type of a driver object. -/
def kind (births : List Birth) : Native → Option TypeName
  | .own id => (births[id]?).map Birth.type
  | .chunks _ => some .collection
  | .files _ => some .collection

/-- The driver object that one uses. -/
def parentOf (births : List Birth) : Native → Option Native
  | .own id => (births[id]?).bind Birth.parent
  | .chunks gridfs => some gridfs
  | .files gridfs => some gridfs

/-- The collections that a GridFS object keeps. -/
def isReference : Native → Bool
  | .own _ => false
  | .chunks _ => true
  | .files _ => true

/-- The types whose handles inherit the environment of their parent. -/
def inherits (name : TypeName) : Prop :=
  name ≠ .client ∧ name ≠ .gridfs ∧ name ≠ .readprefs ∧ name ≠ .bson

instance : DecidablePred inherits := fun _ => inferInstanceAs (Decidable (_ ∧ _))

/-- The types of objects that others go on to use. -/
def dependable (name : TypeName) : Prop := name ≠ .readprefs ∧ name ≠ .bson

instance : DecidablePred dependable := fun _ => inferInstanceAs (Decidable (_ ∧ _))

/-! ## Growth -/

/-- A state with more of everything. -/
def grown (L : State) (bs : List Birth) (ts : List (Table (Opaque TypeName)))
    (os : List (Userdata)) (ds : List Native) (rs : List Udata) : State :=
  { L with
    heap := L.heap ++ ts
    objects := L.objects ++ os
    host := { births := L.host.births ++ bs, destroyed := L.host.destroyed ++ ds,
              refs := L.host.refs ++ rs } }

/-- The new userdata of a step, with the environment made for it and the
reference noted for it. -/
inductive Added (L : State) (bs : List Birth) (ds : List Native) :
    List (Table (Opaque TypeName)) → List Udata → Userdata → Prop where
  | bson {i : Nat} {metatable : Option TypeName} (hbirth : bs[i]? = some ⟨.bson, none⟩)
      (hmetatable : metatable = none ∨
        metatable = some .bson ∧ .own (L.host.births.length + i) ∉ ds) :
      Added L bs ds [] [] ⟨.own (L.host.births.length + i), metatable, .nil⟩
  | root {i : Nat} {name : TypeName} (hbirth : bs[i]? = some ⟨name, none⟩)
      (hname : name = .client ∨ name = .readprefs) (hds : ds = []) :
      Added L bs ds [rootEnv L.objects.length 0] []
        ⟨.own (L.host.births.length + i), some name, .table L.heap.length⟩
  | inherit {i : Nat} {name : TypeName} {m : Udata} {p : Userdata}
      (hbirth : bs[i]? = some ⟨name, some p.payload⟩) (hname : inherits name)
      (hp : L.objects[m]? = some p)
      (hparent : ∃ t, kind L.host.births p.payload = some t ∧ dependable t) (hds : ds = []) :
      Added L bs ds [] [] ⟨.own (L.host.births.length + i), some name, p.uservalue⟩
  | gridfs {i : Nat} {m : Udata} {p : Userdata}
      (hbirth : bs[i]? = some ⟨.gridfs, some p.payload⟩) (hp : L.objects[m]? = some p)
      (hparent : ∃ t, kind L.host.births p.payload = some t ∧ dependable t) (hds : ds = []) :
      Added L bs ds [(rootEnv L.objects.length 0).rawset (.int 3) p.uservalue] []
        ⟨.own (L.host.births.length + i), some .gridfs, .table L.heap.length⟩
  | reference {obj : Native} {m : Udata} {p : Userdata}
      (hobj : obj = .chunks p.payload ∨ obj = .files p.payload) (hp : L.objects[m]? = some p)
      (hparent : ∃ t, kind L.host.births p.payload = some t ∧ dependable t) (hds : ds = []) :
      Added L bs ds [(rootEnv L.objects.length 1).rawset (.int 3) p.uservalue] [L.objects.length]
        ⟨obj, some .collection, .table L.heap.length⟩

/-- What a step can add. -/
def Growth (L L' : State) : Prop :=
  ∃ bs ts os ds rs, unload L' = unload (grown L bs ts os ds rs) ∧ ds.Nodup ∧
    (∀ d ∈ ds, ∃ i < bs.length, d = .own (L.host.births.length + i)) ∧
    ((os = [] ∧ ts = [] ∧ rs = []) ∨ ∃ o, os = [o] ∧ Added L bs ds ts rs o)

/-- No userdata is added. -/
theorem growth_of_births {L L' : State} (bs : List Birth) (ds : List Native)
    (heq : unload L' = unload (grown L bs [] [] ds [])) (hnodup : ds.Nodup)
    (hds : ∀ d ∈ ds, ∃ i < bs.length, d = .own (L.host.births.length + i)) : Growth L L' :=
  ⟨bs, [], [], ds, [], heq, hnodup, hds, Or.inl ⟨rfl, rfl, rfl⟩⟩

/-- One userdata is added. -/
theorem growth_of_added {L L' : State} (bs : List Birth) (ds : List Native)
    {ts : List (Table (Opaque TypeName))} {o : Userdata} {rs : List Udata}
    (h : Added L bs ds ts rs o) (heq : unload L' = unload (grown L bs ts [o] ds rs))
    (hnodup : ds.Nodup) (hds : ∀ d ∈ ds, ∃ i < bs.length, d = .own (L.host.births.length + i)) :
    Growth L L' :=
  ⟨bs, ts, [o], ds, rs, heq, hnodup, hds, Or.inr ⟨o, rfl, h⟩⟩

theorem growth_of_unload_eq {L L' : State} (h : unload L' = unload L) : Growth L L' := by
  apply growth_of_births [] [] _ List.nodup_nil (by simp)
  rw [h]
  simp [unload, grown]

/-- Growth from a state that differs in the stack only. -/
theorem Growth.of_unload_eq {L₁ L₂ L' : State} (h : Growth L₂ L') (heq : unload L₂ = unload L₁) :
    Growth L₁ L' := by
  obtain ⟨s₁, h₁, o₁, x₁⟩ := L₁
  obtain ⟨s₂, h₂, o₂, x₂⟩ := L₂
  simp only [unload, LState.mk.injEq, true_and] at heq
  obtain ⟨rfl, rfl, rfl⟩ := heq
  obtain ⟨bs, ts, os, ds, rs, hgrows, hnodup, hds, hos⟩ := h
  refine ⟨bs, ts, os, ds, rs, hgrows, hnodup, hds, ?_⟩
  rcases hos with hnil | ⟨o, ho, hadded⟩
  · exact Or.inl hnil
  · refine Or.inr ⟨o, ho, ?_⟩
    cases hadded with
    | bson hbirth hmetatable => exact .bson hbirth hmetatable
    | root hbirth hname hds => exact .root hbirth hname hds
    | inherit hbirth hname hp hparent hds => exact .inherit hbirth hname hp hparent hds
    | gridfs hbirth hp hparent hds => exact .gridfs hbirth hp hparent hds
    | reference hobj hp hparent hds => exact .reference hobj hp hparent hds

/-! ## Steps of a function -/

/-- The receiver stays at index 1. -/
def Keeps (self : Option Native) (L L' : State) : Prop :=
  self ≠ none → ∀ m, index2value L.stack 1 = some (handle m) →
    index2value L'.stack 1 = some (handle m)

/-- A function of the binding returns or raises an error, after some growth. -/
def Grows (self : Option Native) (L : State) (r : Outcome State State) : Prop :=
  (∃ L', r = .ok L' ∧ Growth L L' ∧ Keeps self L L') ∨ ∃ L', r = .error L' ∧ Growth L L'

/-- The same of a step. -/
def Advances (self : Option Native) (L : State) (r : Outcome State (State × Next)) : Prop :=
  (∃ L' n, r = .ok (L', n) ∧ Growth L L' ∧ Keeps self L L') ∨ ∃ L', r = .error L' ∧ Growth L L'

section

variable {self : Option Native} {L L' : State} {a : Answer} {idx : Nat}

theorem advances_goOn {r : Outcome State State} (h : Grows self L r) :
    Advances self L (goOn r) := by
  rcases h with ⟨L', rfl, hgrowth, hkeeps⟩ | ⟨L', rfl, hgrowth⟩
  · exact Or.inl ⟨L', .goOn, rfl, hgrowth, hkeeps⟩
  · exact Or.inr ⟨L', rfl, hgrowth⟩

theorem keeps_of_stack_eq (h : L'.stack = L.stack) : Keeps self L L' := by
  intro _ m hm
  rw [h]
  exact hm

theorem keeps_of_push {v : Value} (h : L'.stack = v :: L.stack) : Keeps self L L' := by
  intro _ m hm
  rw [h]
  exact index2value_push (n := 1) hm (by omega) v

theorem keeps_of_replaced {v : Value} (hidx : self ≠ none → 2 ≤ idx)
    (h : L'.stack = replaced L.stack idx v) : Keeps self L L' := by
  intro hself m hm
  rw [h, index2value_replaced_first (hidx hself)]
  exact hm

theorem Keeps.trans {L₁ L₂ L₃ : State} (h : Keeps self L₁ L₂) (h' : Keeps self L₂ L₃) :
    Keeps self L₁ L₃ :=
  fun hself m hm => h' hself m (h hself m hm)

/-- Nothing but the stack changes. -/
theorem grows_of_unload_eq (heq : unload L' = unload L) (hkeeps : Keeps self L L') :
    Grows self L (.ok L') :=
  Or.inl ⟨L', rfl, growth_of_unload_eq heq, hkeeps⟩

theorem grows_error : Grows self L (.error L) := Or.inr ⟨L, rfl, growth_of_unload_eq rfl⟩

/-- A driver object that a step makes and destroys. -/
theorem growth_of_temporary (L : State) (name : TypeName) :
    Growth L (destroy (born L name none) (newborn L)) := by
  apply growth_of_births [⟨name, none⟩] [.own L.host.births.length] _ (List.nodup_singleton _)
  · simp
  · simp [unload, born, grown, destroy, newborn]

/-- A driver object that a step leaves behind when it raises an error. -/
theorem growth_of_leak (L : State) (name : TypeName) : Growth L (born L name none) := by
  apply growth_of_births [⟨name, none⟩] [] _ List.nodup_nil (by simp)
  simp [unload, born, grown]

theorem newBSONAt_grows {v : Value} (harg : index2value L.stack idx = some v) (hidx : 0 < idx)
    (hself : self ≠ none → 2 ≤ idx) (kept : Bool) : Grows self L (newBSONAt L a idx kept) := by
  have hle := le_length_of_index2value harg hidx
  unfold newBSONAt
  show Grows self L (if a.raises then
    .error (withObject (born L .bson none) (newborn L) none .nil) else _)
  split
  · refine Or.inr ⟨_, rfl, growth_of_added [⟨.bson, none⟩] []
      (.bson (i := 0) rfl (Or.inl rfl)) ?_ List.nodup_nil (by simp)⟩
    simp [unload, withObject, born, grown, newborn]
  split
  · refine Or.inl ⟨{ withObject (born L .bson none) (newborn L) (some .bson) .nil with
      stack := replaced L.stack idx (handle L.objects.length) }, ?_, ?_, ?_⟩
    · show (setType (withObject (born L .bson none) (newborn L) none .nil) .bson >>= _) = _
      rw [setType_withObject, Outcome.ok_bind]
      exact lua_replace_eq rfl hidx hle
    · refine growth_of_added [⟨.bson, none⟩] []
        (.bson (i := 0) rfl (Or.inr ⟨rfl, by simp⟩)) ?_ List.nodup_nil (by simp)
      simp [unload, withObject, born, grown, newborn]
    · exact keeps_of_replaced hself rfl
  · cases kept with
    | true =>
      refine Or.inr ⟨_, rfl, growth_of_added [⟨.bson, none⟩] []
        (.bson (i := 0) rfl (Or.inl rfl)) ?_ List.nodup_nil (by simp)⟩
      simp [unload, born, grown, newborn, lua_newuserdata]
    | false =>
      refine Or.inr ⟨_, rfl, growth_of_added [⟨.bson, none⟩]
        [.own L.host.births.length] (.bson (i := 0) rfl (Or.inl rfl)) ?_
        (List.nodup_singleton _) (by simp)⟩
      simp [unload, born, grown, newborn, lua_newuserdata, destroy]

/-- After `__toBSON` there is a value in the place of the argument. -/
theorem callToBSON_eq {v : Value} (harg : index2value L.stack idx = some v) (hidx : 0 < idx)
    (hself : self ≠ none → 2 ≤ idx) :
    ∃ L₁ v₁, callToBSON L a idx = .ok L₁ ∧ unload L₁ = unload L ∧ Keeps self L L₁ ∧
      index2value L₁.stack idx = some v₁ := by
  unfold callToBSON
  cases a.toBSON with
  | none => exact ⟨L, v, rfl, rfl, keeps_of_stack_eq rfl, harg⟩
  | some v₁ =>
    refine ⟨{ L with stack := replaced L.stack idx v₁ }, v₁, ?_, rfl, keeps_of_replaced hself rfl,
      index2value_replaced_self harg hidx⟩
    exact lua_replace_eq (L := push L v₁) rfl hidx (le_length_of_index2value harg hidx)

/-- Growth after a step that changed the stack only. -/
theorem Grows.of_unload_eq {L₁ : State} {r : Outcome State State} (h : Grows self L₁ r)
    (heq : unload L₁ = unload L) (hkeeps : Keeps self L L₁) : Grows self L r := by
  rcases h with ⟨L', rfl, hgrowth, hkeeps'⟩ | ⟨L', rfl, hgrowth⟩
  · exact Or.inl ⟨L', rfl, hgrowth.of_unload_eq heq, hkeeps.trans hkeeps'⟩
  · exact Or.inr ⟨L', rfl, hgrowth.of_unload_eq heq⟩

/-- A step after the call of the `toBSON` method. -/
theorem callToBSON_bind_grows {rest : State → Outcome State State} {v : Value}
    (harg : index2value L.stack idx = some v) (hidx : 0 < idx) (hself : self ≠ none → 2 ≤ idx)
    (hrest : ∀ L₁ v₁, index2value L₁.stack idx = some v₁ → Grows self L₁ (rest L₁)) :
    Grows self L (callToBSON L a idx >>= rest) := by
  obtain ⟨L₁, v₁, hcall, heq, hkeeps, harg₁⟩ := callToBSON_eq (a := a) harg hidx hself
  rw [hcall, Outcome.ok_bind]
  exact (hrest L₁ v₁ harg₁).of_unload_eq heq hkeeps

theorem castBSON_grows (hidx : 0 < idx) (hself : self ≠ none → 2 ≤ idx) :
    Grows self L (castBSON L a idx) := by
  unfold castBSON
  cases harg : index2value L.stack idx with
  | none => exact grows_error
  | some v =>
    cases v with
    | str s => exact newBSONAt_grows harg hidx hself _
    | int i => exact newBSONAt_grows harg hidx hself _
    | flt x => exact newBSONAt_grows harg hidx hself _
    | _ =>
      refine callToBSON_bind_grows harg hidx hself fun L₁ v₁ harg₁ => ?_
      split
      · exact grows_of_unload_eq rfl (keeps_of_stack_eq rfl)
      · cases v₁ with
        | table r =>
          rw [harg₁]
          exact newBSONAt_grows harg₁ hidx hself false
        | _ =>
          rw [harg₁]
          exact grows_error

theorem toBSON_grows (hidx : 0 < idx) (hself : self ≠ none → 2 ≤ idx) :
    Grows self L (toBSON L a idx) := by
  unfold toBSON
  split
  · exact grows_of_unload_eq rfl (keeps_of_stack_eq rfl)
  · exact grows_of_unload_eq rfl (keeps_of_stack_eq rfl)
  · exact castBSON_grows hidx hself

theorem toBSONValue_grows (hidx : 0 < idx) (hself : self ≠ none → 2 ≤ idx) :
    Grows self L (toBSONValue L a idx) := by
  unfold toBSONValue
  cases harg : index2value L.stack idx with
  | none => exact grows_error
  | some v =>
    obtain ⟨L₁, v₁, hcall, heq, hkeeps, -⟩ := callToBSON_eq (a := a) harg hidx hself
    simp only [hcall, Outcome.ok_bind]
    apply Grows.of_unload_eq _ heq hkeeps
    split
    · split
      · exact Or.inr ⟨_, rfl, growth_of_leak L₁ .bson⟩
      split
      · exact Or.inl ⟨_, rfl, growth_of_temporary L₁ .bson, keeps_of_stack_eq rfl⟩
      · exact Or.inr ⟨_, rfl, growth_of_temporary L₁ .bson⟩
    · split
      · exact grows_of_unload_eq rfl (keeps_of_stack_eq rfl)
      · exact grows_error

theorem checkReadPrefs_grows : Grows self L (checkReadPrefs L idx) := by
  unfold checkReadPrefs luaL_checkudata
  cases luaL_testudata L idx .readprefs with
  | some obj => exact grows_of_unload_eq rfl (keeps_of_stack_eq rfl)
  | none => exact grows_error

theorem toReadPrefs_grows : Grows self L (toReadPrefs L idx) := by
  unfold toReadPrefs
  split
  · exact grows_of_unload_eq rfl (keeps_of_stack_eq rfl)
  · exact grows_of_unload_eq rfl (keeps_of_stack_eq rfl)
  · exact checkReadPrefs_grows

theorem pushBSON_eq : pushBSON L =
    .ok (withObject (born L .bson none) (newborn L) (some .bson) .nil) := by
  show setType (withObject (born L .bson none) (newborn L) none .nil) .bson = _
  exact setType_withObject _ _

theorem pushBSON_grows : Grows self L (pushBSON L) := by
  refine Or.inl ⟨_, pushBSON_eq, growth_of_added [⟨.bson, none⟩] []
    (.bson (i := 0) rfl (Or.inr ⟨rfl, by simp⟩)) ?_ List.nodup_nil (by simp), keeps_of_push rfl⟩
  simp [unload, withObject, born, grown, newborn]

/-! ## Handles -/

/-- The receiver of a function: its userdata is at index 1, and `self` is the
driver object that was in it. -/
inductive Receiver (L : State) : Option Native → Option TypeName → Prop where
  | none : Receiver L none none
  | some {m : Udata} {p : Userdata} {t : TypeName}
      (hm : index2value L.stack 1 = some (handle m)) (hp : L.objects[m]? = some p)
      (ht : kind L.host.births p.payload = some t) : Receiver L (some p.payload) (some t)

variable {m : Udata} {p : Userdata} {t : TypeName}

theorem pushInheriting_grows {name : TypeName} (hname : inherits name)
    (hm : index2value L.stack 1 = some (handle m)) (hp : L.objects[m]? = some p)
    (ht : kind L.host.births p.payload = some t) (hparent : dependable t) :
    Grows self L (pushInheriting name (born L name (some p.payload)) (some (newborn L)) 1) := by
  refine Or.inl ⟨withObject (born L name (some p.payload)) (newborn L) (some name) p.uservalue, ?_,
    growth_of_added [⟨name, some p.payload⟩] []
      (.inherit (i := 0) rfl hname hp ⟨t, ht, hparent⟩ rfl) ?_ List.nodup_nil (by simp),
    keeps_of_push rfl⟩
  · unfold pushInheriting
    rw [pushHandle_inherit (L := born L name (some p.payload)) (by decide) hm hp, Outcome.ok_bind]
    exact setType_withObject _ _
  · simp [unload, withObject, born, grown, newborn]

/-- The cursor of a reply. -/
theorem replyCursor_grows (hm : index2value L.stack 1 = some (handle m))
    (hp : L.objects[m]? = some p) (ht : kind L.host.births p.payload = some t)
    (hparent : dependable t) :
    Grows self L (pushCursor (born (born L .bson none) .cursor (some p.payload))
      (some (newborn (born L .bson none))) 1) := by
  refine Or.inl ⟨withObject (born (born L .bson none) .cursor (some p.payload))
      (newborn (born L .bson none)) (some .cursor) p.uservalue, ?_,
    growth_of_added [⟨.bson, none⟩, ⟨.cursor, some p.payload⟩] []
      (.inherit (i := 1) rfl (by decide) hp ⟨t, ht, hparent⟩ rfl) ?_ List.nodup_nil (by simp),
    keeps_of_push rfl⟩
  · unfold pushCursor pushInheriting
    rw [pushHandle_inherit (L := born (born L .bson none) .cursor (some p.payload)) (by decide) hm hp,
      Outcome.ok_bind]
    exact setType_withObject _ _
  · simp [unload, withObject, born, grown, newborn]

theorem pushGridFS_grows (hm : index2value L.stack 1 = some (handle m)) (hp : L.objects[m]? = some p)
    (ht : kind L.host.births p.payload = some t) (hparent : dependable t) :
    Grows self L (pushGridFS (born L .gridfs (some p.payload)) (some (newborn L)) 1) := by
  refine Or.inl ⟨withObject (withTable (born L .gridfs (some p.payload))
      ((rootEnv L.objects.length 0).rawset (.int 3) p.uservalue)) (newborn L) (some .gridfs)
      (.table L.heap.length), ?_, growth_of_added [⟨.gridfs, some p.payload⟩] []
      (.gridfs (i := 0) rfl hp ⟨t, ht, hparent⟩ rfl) ?_ List.nodup_nil (by simp),
    keeps_of_push rfl⟩
  · unfold pushGridFS
    rw [pushHandle_child (L := born L .gridfs (some p.payload)) (by decide) hm hp, Outcome.ok_bind]
    exact setType_withObject _ _
  · simp [unload, withObject, withTable, born, grown, newborn]

/-- A collection that is no reference inherits. -/
theorem pushCollection_eq (L : State) (obj : Option Native) (pidx : Nat) :
    pushCollection L obj false pidx = pushInheriting .collection L obj pidx := by
  unfold pushCollection pushInheriting
  simp only [Bool.false_eq_true, if_false]
  cases pushHandle L obj (-1) pidx with
  | ok L' => cases h : setType L' .collection <;> simp [h]
  | _ => rfl

theorem pushCollection_reference_grows {obj : Native}
    (hobj : obj = .chunks p.payload ∨ obj = .files p.payload)
    (hm : index2value L.stack 1 = some (handle m)) (hp : L.objects[m]? = some p)
    (ht : kind L.host.births p.payload = some t) (hparent : dependable t) :
    Grows self L (pushCollection L (some obj) true 1) := by
  let L' := withObject (withTable L ((rootEnv L.objects.length 1).rawset (.int 3) p.uservalue)) obj
    (some .collection) (.table L.heap.length)
  refine Or.inl ⟨{ L' with host := { L.host with refs := L.host.refs ++ [L.objects.length] } }, ?_,
    growth_of_added [] [] (.reference hobj hp ⟨t, ht, hparent⟩ rfl) ?_ List.nodup_nil (by simp),
    keeps_of_push rfl⟩
  · unfold pushCollection
    simp only [if_true]
    rw [pushHandle_child (by decide) hm hp, Outcome.ok_bind, setType_withObject, Outcome.ok_bind]
    rfl
  · simp [unload, withObject, withTable, grown, L']

/-- A handle without parent. -/
theorem pushRoot_grows {name : TypeName} (hname : name = .client ∨ name = .readprefs) :
    Grows self L (do
      let L ← pushHandle (born L name none) (some (newborn L)) 0 0
      setType L name) := by
  refine Or.inl ⟨withObject (withTable (born L name none) (rootEnv L.objects.length 0)) (newborn L)
      (some name) (.table L.heap.length), ?_, growth_of_added [⟨name, none⟩] []
      (.root (i := 0) rfl hname rfl) ?_ List.nodup_nil (by simp),
    keeps_of_push rfl⟩
  · rw [pushHandle_root (by decide), Outcome.ok_bind]
    exact setType_withObject _ _
  · simp [unload, withObject, withTable, born, grown, newborn]

/-! ## The inversion of a step -/

/-- What the steps of the functions satisfy: only receivers that handles can
depend on make handles, and casts do not touch the receiver. -/
def allowed (self : Option TypeName) : Op → Bool
  | .make .client => true
  | .make .readprefs => true
  | .make .chunks => self == some .gridfs
  | .make .files => self == some .gridfs
  | .make _ => self.any fun t => decide (dependable t)
  | .reply true => self.any fun t => decide (dependable t)
  | .castBSON idx => decide ((if self.isSome then 2 else 1) ≤ idx)
  | .toBSON idx => decide ((if self.isSome then 2 else 1) ≤ idx)
  | .castGiven idx => decide ((if self.isSome then 2 else 1) ≤ idx)
  | .toBSONValue idx => decide ((if self.isSome then 2 else 1) ≤ idx)
  | .fieldBSON => self.isSome
  | _ => true

theorem functions_allowed : ∀ f ∈ functions, ∀ op ∈ f.body, allowed f.self op = true := by
  decide +kernel

theorem makeAndPush_grows {type : Option TypeName} (hreceiver : Receiver L self type) {call : Make}
    (hallowed : allowed type (.make call) = true) : Grows self L (makeAndPush L self call) := by
  cases hreceiver with
  | none =>
    cases call with
    | client => exact pushRoot_grows (Or.inl rfl)
    | readprefs => exact pushRoot_grows (Or.inr rfl)
    | _ => simp [allowed] at hallowed
  | @some m p t hm hp ht =>
    cases call with
    | client => exact pushRoot_grows (Or.inl rfl)
    | readprefs => exact pushRoot_grows (Or.inr rfl)
    | chunks =>
      have htype : t = .gridfs := by simpa [allowed] using hallowed
      exact pushCollection_reference_grows (Or.inl rfl) hm hp ht (htype ▸ by decide)
    | files =>
      have htype : t = .gridfs := by simpa [allowed] using hallowed
      exact pushCollection_reference_grows (Or.inr rfl) hm hp ht (htype ▸ by decide)
    | gridfs => exact pushGridFS_grows hm hp ht (by simpa [allowed] using hallowed)
    | collection =>
      show Grows _ L (pushCollection _ _ false 1)
      rw [pushCollection_eq]
      exact pushInheriting_grows (by decide) hm hp ht (by simpa [allowed] using hallowed)
    | _ => exact pushInheriting_grows (by decide) hm hp ht (by simpa [allowed] using hallowed)

theorem advances_unchanged (next : Next) : Advances self L (.ok (L, next)) :=
  Or.inl ⟨L, next, rfl, growth_of_unload_eq rfl, keeps_of_stack_eq rfl⟩

theorem advances_error : Advances self L (.error L) := Or.inr ⟨L, rfl, growth_of_unload_eq rfl⟩

/-- A reply goes to a cursor, to a BSON userdata, or nowhere. -/
theorem reply_advances {type : Option TypeName} (hreceiver : Receiver L self type) {cursor : Bool}
    (hallowed : allowed type (.reply cursor) = true) :
    Advances self L (exec L a self (.reply cursor)) := by
  simp only [exec]
  by_cases hcursor : (cursor && a.found) = true
  · rw [if_pos hcursor]
    rw [Bool.and_eq_true] at hcursor
    obtain ⟨rfl, -⟩ := hcursor
    cases hreceiver with
    | none => simp [allowed] at hallowed
    | @some m p t hm hp ht =>
      apply advances_goOn
      exact replyCursor_grows hm hp ht (by simpa [allowed] using hallowed)
  rw [if_neg hcursor]
  split
  · exact advances_goOn pushBSON_grows
  · exact Or.inl ⟨_, .done, rfl, growth_of_temporary L .bson, keeps_of_stack_eq rfl⟩

/-- The options and the cursor are destroyed, also when there is a result. -/
theorem findOne_advances : Advances self L (exec L a self .findOne) := by
  simp only [exec]
  split
  · rw [pushBSON_eq]
    refine Or.inl ⟨_, .goOn, rfl, growth_of_added
      [⟨.bson, none⟩, ⟨.cursor, self⟩, ⟨.bson, none⟩]
      [.own (L.host.births.length + 1), .own L.host.births.length]
      (.bson (i := 2) rfl (Or.inr ⟨rfl, by simp⟩)) ?_ (by simp) (by simp), keeps_of_push rfl⟩
    simp [unload, born, grown, destroy, newborn, withObject]
  · refine Or.inl ⟨_, .goOn, rfl, growth_of_births [⟨.bson, none⟩, ⟨.cursor, self⟩]
      [.own (L.host.births.length + 1), .own L.host.births.length] ?_ (by simp) (by simp),
      keeps_of_stack_eq rfl⟩
    simp [unload, born, grown, destroy, newborn]

/-- The reply is destroyed unless there is an error. -/
theorem findAndModify_advances : Advances self L (exec L a self .findAndModify) := by
  simp only [exec]
  split
  · exact Or.inr ⟨_, rfl, growth_of_leak L .bson⟩
  split
  · rw [pushBSON_eq]
    refine Or.inl ⟨_, .goOn, rfl, growth_of_added [⟨.bson, none⟩, ⟨.bson, none⟩]
      [.own L.host.births.length]
      (.bson (i := 1) rfl (Or.inr ⟨rfl, by simp⟩)) ?_ (by simp) (by simp), keeps_of_push rfl⟩
    simp [unload, born, grown, destroy, newborn, withObject]
  · exact Or.inl ⟨_, .goOn, rfl, growth_of_temporary L .bson, keeps_of_stack_eq rfl⟩

theorem unpack_advances : Advances self L (exec L a self .unpack) := by
  simp only [exec]
  split
  · exact advances_error
  split
  · have hpush : Grows self L (pushBSON L) := pushBSON_grows
    rcases hpush with ⟨L', hpush, hgrowth, hkeeps⟩ | ⟨L', hpush, -⟩
    · rw [hpush]
      exact Or.inl ⟨L', .again, rfl, hgrowth, hkeeps⟩
    · rw [pushBSON_eq] at hpush
      simp at hpush
  · exact advances_unchanged .goOn

/-- A step of a function returns or raises an error, and adds what `Growth`
says. -/
theorem exec_growth {type : Option TypeName} (hreceiver : Receiver L self type) {op : Op}
    (hallowed : allowed type op = true) : Advances self L (exec L a self op) := by
  have hself : self ≠ none → type.isSome = true := by
    intro h
    cases hreceiver with
    | none => exact absurd rfl h
    | some => rfl
  have hpos {idx : Nat} (h : (if type.isSome then 2 else 1) ≤ idx) :
      0 < idx ∧ (self ≠ none → 2 ≤ idx) := by
    refine ⟨by split at h <;> omega, fun hs => ?_⟩
    rw [if_pos (hself hs)] at h
    exact h
  cases op with
  | lua =>
    simp only [exec]
    split
    · exact advances_unchanged .goOn
    · exact advances_error
  | castBSON idx =>
    obtain ⟨h, h'⟩ := hpos (of_decide_eq_true hallowed)
    exact advances_goOn (castBSON_grows h h')
  | toBSON idx =>
    obtain ⟨h, h'⟩ := hpos (of_decide_eq_true hallowed)
    exact advances_goOn (toBSON_grows h h')
  | castGiven idx =>
    obtain ⟨h, h'⟩ := hpos (of_decide_eq_true hallowed)
    simp only [exec]
    split
    · exact advances_goOn (castBSON_grows h h')
    · exact advances_unchanged .goOn
  | fieldBSON =>
    cases hreceiver with
    | none => simp [allowed] at hallowed
    | @some m p t hm hp ht =>
      have hlen : 1 ≤ L.stack.length := le_length_of_index2value hm (by omega)
      have hgrows : Grows (some p.payload) (push L a.field)
          (toBSON (push L a.field) a (L.stack.length + 1)) :=
        toBSON_grows (Nat.succ_pos _) fun _ => by omega
      exact advances_goOn (hgrows.of_unload_eq rfl (keeps_of_push rfl))
  | toBSONValue idx =>
    obtain ⟨h, h'⟩ := hpos (of_decide_eq_true hallowed)
    exact advances_goOn (toBSONValue_grows h h')
  | checkReadPrefs idx => exact advances_goOn checkReadPrefs_grows
  | toReadPrefs idx => exact advances_goOn toReadPrefs_grows
  | make call =>
    simp only [exec]
    split
    · exact advances_goOn (makeAndPush_grows hreceiver hallowed)
    · exact advances_unchanged .done
  | newReadPrefs =>
    simp only [exec]
    split
    · exact advances_goOn (pushRoot_grows (Or.inr rfl))
    · exact Or.inr ⟨_, rfl, growth_of_temporary L .readprefs⟩
  | reply cursor => exact reply_advances hreceiver hallowed
  | findOne => exact findOne_advances
  | findAndModify => exact findAndModify_advances
  | pushBSON =>
    simp only [exec]
    split
    · exact advances_goOn pushBSON_grows
    · exact advances_unchanged .done
  | unpack => exact unpack_advances

end

end Vklib.Handle
