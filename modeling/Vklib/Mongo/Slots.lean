import Vklib.Mongo.Open

/-!
# The decoder after opening

What the decoder makes of a document depends on the registry slots, and
`luaopen_vklib_slots` says what opening puts there.  The constructor slots hold
nil, so the decoder raises an error at the first field whose type needs a
constructor, and it decodes every other document.

`valuesOf` lists a value and the values below it that the decoder visits.  The
scope of a code value is handed over undecoded and is not one of them.
-/

namespace Vklib.Mongo

open Vklib.Lua Vklib.Bson

mutual
/-- The value and the values below it. -/
def valuesOf : Value → List Value
  | .document fs => .document fs :: docValues fs
  | .array fs => .array fs :: docValues fs
  | v => [v]

/-- The values of a document, at any depth. -/
def docValues : List (Bytes × Value) → List Value
  | [] => []
  | (_, v) :: rest => valuesOf v ++ docValues rest
end

/-- The type has a case of its own in `unpackValue`. -/
def HasCase : Value → Prop
  | .undefined | .dbpointer _ _ | .symbol _ => False
  | _ => True

/-- The type is made by a constructor in a registry slot. -/
def NeedsConstructor : Value → Prop
  | .decimal128 _ | .binary _ _ | .dateTime _ | .code _ | .codewscope _ _ | .regex _ _
  | .timestamp _ _ => True
  | _ => False

mutual
/-- The Lua stack has room for the tables of a value, with `top` slots in
use. -/
def StackRoom (top : Nat) : Value → Prop
  | .document fs => checkstack (top + 1) LUA_MINSTACK = true ∧ DocRoom (top + 2) fs
  | .array fs => checkstack (top + 1) LUA_MINSTACK = true ∧ DocRoom (top + 2) fs
  | _ => True

def DocRoom (top : Nat) : List (Bytes × Value) → Prop
  | [] => True
  | (_, v) :: rest => StackRoom top v ∧ DocRoom top rest
end

/-- The stack has room for a document that `pushBSON` unpacks. -/
def PushRoom (top : Nat) (doc : Doc) : Prop :=
  checkstack (top + 2) LUA_MINSTACK = true ∧ DocRoom (top + 3) doc

/-- The singleton slots are filled. -/
def SingletonsFilled (slots : Slot → LVal) : Prop :=
  slots .GLOBAL_MAXKEY ≠ .nil ∧ slots .GLOBAL_MINKEY ≠ .nil ∧ slots .GLOBAL_NULL ≠ .nil

/-- The constructor slots hold nil. -/
def ConstructorsNil (slots : Slot → LVal) : Prop :=
  slots .NEW_BINARY = .nil ∧ slots .NEW_DATETIME = .nil ∧ slots .NEW_DECIMAL128 = .nil ∧
    slots .NEW_JAVASCRIPT = .nil ∧ slots .NEW_REGEX = .nil ∧ slots .NEW_TIMESTAMP = .nil

/-- With these slots, the decoder makes a value other than nil of a field. -/
def FieldDecodes (E : Env) (slots : Slot → LVal) (v : Value) : Prop :=
  ∀ L top, L.slots = slots → StackRoom top v →
    ∃ L' x, unpackValue E .nil top L v = .ok (L', x) ∧ x ≠ .nil

theorem mem_valuesOf_self (v : Value) : v ∈ valuesOf v := by
  cases v <;> simp [valuesOf]

mutual
theorem valuesOf_subset {v x : Value} (hx : x ∈ valuesOf v) : valuesOf x ⊆ valuesOf v := by
  cases v with
  | document fs =>
    simp only [valuesOf, List.mem_cons] at hx
    rcases hx with rfl | hx
    · exact fun _ h => h
    · simp only [valuesOf]
      exact fun y hy => List.mem_cons_of_mem _ (docValues_subset hx hy)
  | array fs =>
    simp only [valuesOf, List.mem_cons] at hx
    rcases hx with rfl | hx
    · exact fun _ h => h
    · simp only [valuesOf]
      exact fun y hy => List.mem_cons_of_mem _ (docValues_subset hx hy)
  | _ =>
    simp only [valuesOf, List.mem_singleton] at hx
    rw [hx]
    exact fun _ h => h

/-- The values below a value of a document are values of the document. -/
theorem docValues_subset {fs : List (Bytes × Value)} {x : Value} (hx : x ∈ docValues fs) :
    valuesOf x ⊆ docValues fs := by
  match fs with
  | [] => simp [docValues] at hx
  | (_, v) :: rest =>
    simp only [docValues, List.mem_append] at hx ⊢
    intro y hy
    rcases hx with hx | hx
    · exact List.mem_append_left _ (valuesOf_subset hx hy)
    · exact List.mem_append_right _ (docValues_subset hx hy)
end

mutual
/-- A value whose types need no constructor is decoded, to a value other than
nil, and the slots stay as they are. -/
theorem unpackValue_ok (E : Env) {slots : Slot → LVal} (hsingle : SingletonsFilled slots)
    (v : Value) (hv : ∀ x ∈ valuesOf v, HasCase x ∧ ¬ NeedsConstructor x) (L : State)
    (hslots : L.slots = slots) (top : Nat) (hroom : StackRoom top v) :
    ∃ L' x, unpackValue E .nil top L v = .ok (L', x) ∧ x ≠ .nil ∧ L'.slots = slots := by
  cases v with
  | document fs =>
    simp only [StackRoom] at hroom
    obtain ⟨L', len, hloop, hslots'⟩ := unpackLoop_ok E hsingle fs
      (fun x hx => hv x (by simp [valuesOf, hx])) L.newtable.1 (by simpa using hslots) top
      hroom.2 L.newtable.2 false 0
    refine ⟨L', .table L.newtable.2, ?_, by simp, hslots'⟩
    simp only [unpackValue, unpackTable, if_pos hroom.1, hloop, Outcome.ok_bind, Val.isNil,
      Bool.false_eq_true, if_false, if_true]
  | array fs =>
    simp only [StackRoom] at hroom
    obtain ⟨L', len, hloop, hslots'⟩ := unpackLoop_ok E hsingle fs
      (fun x hx => hv x (by simp [valuesOf, hx])) L.newtable.1 (by simpa using hslots) top
      hroom.2 L.newtable.2 true 0
    refine ⟨L'.rawset L.newtable.2 (.str (bytes "__array")) (.int len.toInt64),
      .table L.newtable.2, ?_, by simp, hslots'⟩
    simp only [unpackValue, unpackTable, if_pos hroom.1, hloop, Outcome.ok_bind, Val.isNil,
      if_true]
  | null => exact ⟨L, _, rfl, by rw [hslots]; exact hsingle.2.2, hslots⟩
  | maxkey => exact ⟨L, _, rfl, by rw [hslots]; exact hsingle.1, hslots⟩
  | minkey => exact ⟨L, _, rfl, by rw [hslots]; exact hsingle.2.1, hslots⟩
  | undefined => exact ((hv _ (mem_valuesOf_self _)).1).elim
  | dbpointer collection id => exact ((hv _ (mem_valuesOf_self _)).1).elim
  | symbol s => exact ((hv _ (mem_valuesOf_self _)).1).elim
  | decimal128 | binary | dateTime | code | codewscope | regex | timestamp =>
    exact ((hv _ (mem_valuesOf_self _)).2 trivial).elim
  | _ => exact ⟨L, _, rfl, by simp, hslots⟩

theorem unpackLoop_ok (E : Env) {slots : Slot → LVal} (hsingle : SingletonsFilled slots)
    (fs : List (Bytes × Value)) (hfs : ∀ x ∈ docValues fs, HasCase x ∧ ¬ NeedsConstructor x)
    (L : State) (hslots : L.slots = slots) (top : Nat) (hroom : DocRoom (top + 2) fs) (r : Ref)
    (array : Bool) (len : Int) :
    ∃ L' len', unpackLoop E .nil top r array len L fs = .ok (L', len') ∧ L'.slots = slots := by
  match fs with
  | [] => exact ⟨L, len, by simp [unpackLoop], hslots⟩
  | (key, v) :: rest =>
    simp only [DocRoom] at hroom
    obtain ⟨L₁, x, hvalue, -, hslots₁⟩ := unpackValue_ok E hsingle v
      (fun y hy => hfs y (by simp [docValues, hy])) L hslots (top + 2) hroom.1
    obtain ⟨L₂, len₂, hloop, hslots₂⟩ := unpackLoop_ok E hsingle rest
      (fun y hy => hfs y (by simp [docValues, hy]))
      (L₁.rawset r (if array then .int (len + 1) else .str key) x) (by simpa using hslots₁) top
      hroom.2 r array (len + 1)
    exact ⟨L₂, len₂, by simp only [unpackLoop, hvalue, Outcome.ok_bind, hloop], hslots₂⟩
end

/-- With nil in the constructor slots, a type that needs one is an error. -/
theorem unpackValue_of_needsConstructor (E : Env) {L : State} (hnil : ConstructorsNil L.slots)
    {v : Value} (hv : NeedsConstructor v) (top : Nat) :
    unpackValue E .nil top L v = .error (.text "attempt to call a nil value") := by
  obtain ⟨hbinary, hdate, hdecimal, hjavascript, hregex, htimestamp⟩ := hnil
  cases v with
  | decimal128 d => simp only [unpackValue, hdecimal, lua_call_nil]
  | binary subtype payload => simp only [unpackValue, hbinary, lua_call_nil]
  | dateTime ms => simp only [unpackValue, hdate, lua_call_nil]
  | code source => simp only [unpackValue, hjavascript, lua_call_nil]
  | codewscope source scope => simp only [unpackValue, hjavascript, lua_call_nil]
  | regex pattern options => simp only [unpackValue, hregex, lua_call_nil]
  | timestamp t i => simp only [unpackValue, htimestamp, lua_call_nil]
  | _ => exact hv.elim

/-- The slots after opening. -/
theorem slots_of_luaopen {E : Env} {build : Build} {M M' : Machine}
    (hopen : luaopen_vklib E build M = .ok M') :
    ConstructorsNil M'.L.slots ∧ SingletonsFilled M'.L.slots := by
  obtain ⟨M'', hrun, hnil, hsingle⟩ := luaopen_vklib_slots E build M
  obtain rfl : M'' = M' := by simpa using hrun.symm.trans hopen
  have hfilled : ∀ slot, slot = .GLOBAL_MAXKEY ∨ slot = .GLOBAL_MINKEY ∨ slot = .GLOBAL_NULL →
      M''.L.slots slot ≠ .nil := by
    intro slot hslot
    obtain ⟨r, hr⟩ := hsingle slot hslot
    simp [hr]
  exact ⟨⟨hnil _ (by simp), hnil _ (by simp), hnil _ (by simp), hnil _ (by simp),
    hnil _ (by simp), hnil _ (by simp)⟩,
    ⟨hfilled _ (by simp), hfilled _ (by simp), hfilled _ (by simp)⟩⟩

/-- After opening, a document is unpacked without an error and each of its
fields to a value other than nil exactly when no field, at any depth, has a
type that needs a constructor. -/
theorem pushBSON_after_open_iff {E : Env} {build : Build} {M M' : Machine}
    (hopen : luaopen_vklib E build M = .ok M') {L : State} (hslots : L.slots = M'.L.slots)
    {doc : Doc} (hcases : ∀ v ∈ docValues doc, HasCase v) {top : Nat} (hroom : PushRoom top doc) :
    ((∃ L' v, pushBSON E .nil top L doc = .ok (L', v)) ∧
      ∀ v ∈ docValues doc, FieldDecodes E L.slots v) ↔
      ∀ v ∈ docValues doc, ¬ NeedsConstructor v := by
  obtain ⟨hnil, hsingle⟩ := slots_of_luaopen hopen
  rw [← hslots] at hnil hsingle
  constructor
  · rintro ⟨-, hfields⟩ v hv hneeds
    have hleaf : StackRoom 0 v := by
      cases v <;> first | exact trivial | exact hneeds.elim
    obtain ⟨L', x, hok, -⟩ := hfields v hv L 0 rfl hleaf
    rw [unpackValue_of_needsConstructor E hnil hneeds] at hok
    simp at hok
  · intro hplain
    have hall : ∀ x ∈ docValues doc, HasCase x ∧ ¬ NeedsConstructor x :=
      fun x hx => ⟨hcases x hx, hplain x hx⟩
    refine ⟨?_, fun v hv L' top' hslots' hroom' => ?_⟩
    · obtain ⟨L', len, hloop, -⟩ := unpackLoop_ok E hsingle doc hall L.newtable.1 (by simp)
        (top + 1) hroom.2 L.newtable.2 (isArray doc) 0
      simp only [pushBSON, unpackTable, if_pos hroom.1, hloop, Outcome.ok_bind, Val.isNil,
        if_true]
      exact ⟨_, _, rfl⟩
    · obtain ⟨L'', x, hok, hx, -⟩ := unpackValue_ok E hsingle v
        (fun x hx => hall x (docValues_subset hv hx)) L' hslots' top' hroom'
      exact ⟨L'', x, hok, hx⟩

/-- A fresh Lua state and a build with the mongo module alone. -/
def freshMachine : Machine := ⟨⟨[], fun _ => .nil, fun _ => none⟩, []⟩

@[inherit_doc freshMachine]
def mongoBuild : Build := ⟨false, false, false, bytes "VKLib 1.0.0", []⟩

/-- Numbers and nulls are unpacked after opening. -/
theorem pushBSON_after_open_plain :
    ∃ M', luaopen_vklib Env.bare mongoBuild freshMachine = .ok M' ∧
      ∃ L' v, pushBSON Env.bare .nil 2 M'.L
        [(bytes "a", .int32 1), (bytes "b", .array [(bytes "0", .null)])] = .ok (L', v) := by
  obtain ⟨M', hopen, -⟩ := luaopen_vklib_slots Env.bare mongoBuild freshMachine
  refine ⟨M', hopen, ?_⟩
  refine ((pushBSON_after_open_iff hopen (L := M'.L) rfl ?_ ?_).mpr ?_).1
  · simp [docValues, valuesOf, HasCase]
  · exact ⟨by decide, trivial, ⟨by decide, trivial, trivial⟩, trivial⟩
  · simp [docValues, valuesOf, NeedsConstructor]

/-- A date is not: its slot holds nil. -/
theorem pushBSON_date_fails :
    ∃ M', luaopen_vklib Env.bare mongoBuild freshMachine = .ok M' ∧
      M'.L.slots .NEW_DATETIME = .nil ∧
      pushBSON Env.bare .nil 2 M'.L [(bytes "d", .dateTime 0)] =
        .error (.text "attempt to call a nil value") := by
  obtain ⟨M', hopen, hnil, -⟩ := luaopen_vklib_slots Env.bare mongoBuild freshMachine
  have hslots := (slots_of_luaopen hopen).1
  have hvalue := fun top => unpackValue_of_needsConstructor Env.bare (L := M'.L.newtable.1)
    (by simpa using hslots) (v := .dateTime 0) trivial top
  refine ⟨M', hopen, hnil _ (by simp), ?_⟩
  have hroom : checkstack (2 + 1 + 1) LUA_MINSTACK = true := by decide
  simp only [pushBSON, unpackTable, if_pos hroom, unpackLoop, hvalue, Outcome.error_bind]

end Vklib.Mongo
