import Vklib.Bson.Oid
import Vklib.Mongo.Common

/-!
# `mongo.ObjectID`

`newObjectID` takes a text of digits, or nothing and makes a new ObjectID.  A text that it
takes comes back from `tostring` in lower case, every other text is refused, and every
ObjectID comes back from its own text.  The new ObjectIDs of a process are all different as
long as its counter of 24 bits has not come round.  The driver counts with the same counter.
-/

namespace Vklib.Mongo

open Vklib.Lua Vklib.Bson

set_option linter.style.nameCheck false

/-! ## The functions -/

/-- `newObjectID`, called with the argument `v` or with none, which is nil here. -/
def newObjectID (E : Env) (h : Heap Host) (context : Context) (m : Moment) (v : LVal) :
    Outcome LuaError (Oid × Context) :=
  match tolstring E v with
  | some str => do
    let valid ← bson_oid_is_valid (str ++ [0]) str.length
    if valid then do
      let id ← bson_oid_init_from_string (str ++ [0])
      .ok (id, context)
    else .error (.argument 1 (bytes "invalid format"))
  | none =>
    if v.isNil then .ok (bson_oid_init context m)
    else .error (.argument 1 (bytes "string expected, got " ++ typeName h v))

/-- `m__tostring`. -/
def ObjectID.m__tostring (id : Oid) : LVal := .str (cString (bson_oid_to_string id))

/-- `m_data`. -/
def ObjectID.m_data (id : Oid) : LVal := .str id

/-- `m_hash`. -/
def ObjectID.m_hash (id : Oid) : LVal := .int (bson_oid_hash id).toUInt64.toInt64

/-- `m__eq`. -/
def ObjectID.m__eq (a b : Oid) : LVal := .bool (bson_oid_equal a b)

/-! ## Texts -/

/-- The texts that stand for an ObjectID, with the digits in them. -/
def OidText (s digits : Bytes) : Prop :=
  digits.length = 24 ∧ (∀ c ∈ digits, isHexDigit c = true) ∧ (s = digits ∨ s = digits ++ [0])

theorem nulFree_hexText (id : Oid) : NulFree (hexText id) := by
  intro hmem
  have hdigit := isHexDigit_of_mem_hexText hmem
  revert hdigit
  decide

theorem m__tostring_eq (id : Oid) : ObjectID.m__tostring id = .str (hexText id) := by
  rw [ObjectID.m__tostring, bson_oid_to_string, cString_append_nul (nulFree_hexText id)]

/-- The test of the code. -/
theorem oidText_iff {s : Bytes} : (∃ digits, OidText s digits) ↔
    (s.length = 24 ∨ s.length = 25 ∧ s[24]? = some 0) ∧ (s.take 24).all isHexDigit = true := by
  constructor
  · rintro ⟨digits, hlength, hdigits, rfl | rfl⟩
    · exact ⟨Or.inl hlength, by rwa [← hlength, List.take_length, List.all_eq_true]⟩
    · refine ⟨Or.inr ⟨by simp [hlength], ?_⟩, ?_⟩
      · rw [← hlength, List.getElem?_concat_length]
      · rwa [← hlength, List.take_left, List.all_eq_true]
  · rintro ⟨hlength, hdigits⟩
    have htake : (s.take 24).length = 24 := by
      rw [List.length_take]
      omega
    refine ⟨s.take 24, htake, List.all_eq_true.mp hdigits, ?_⟩
    rcases hlength with hlength | ⟨hlength, hlast⟩
    · exact Or.inl (List.take_of_length_le hlength.le).symm
    · refine Or.inr ?_
      have hdrop : s.drop 24 = [0] := by
        rw [List.drop_eq_getElem?_toList_append, hlast, List.drop_of_length_le hlength.le]
        rfl
      rw [← hdrop, List.take_append_drop]

/-- The digits of an accepted text. -/
theorem newObjectID_of_oidText (E : Env) (h : Heap Host) (context : Context) (m : Moment)
    {s digits : Bytes} (htext : OidText s digits) :
    newObjectID E h context m (.str s) = .ok (pairs digits, context) := by
  have hvalid := bson_oid_is_valid_eq (ε := LuaError) s
  obtain ⟨hlength, hdigits⟩ := oidText_iff.mp ⟨digits, htext⟩
  rw [hdigits, decide_eq_true hlength] at hvalid
  have hlies : Buffer.Lies (s ++ [0]) (2 * 0) digits := by
    refine Buffer.lies_zero.mpr (List.IsPrefix.trans ?_ (List.prefix_append s [0]))
    rcases htext.2.2 with rfl | rfl
    · exact List.prefix_refl _
    · exact List.prefix_append _ _
  have hinit := initLoop_eq (ε := LuaError) 12 0 htext.1 hlies
  simp only [newObjectID, tolstring, hvalid, bson_oid_init_from_string, hinit, Outcome.ok_bind,
    Bool.and_true, if_true]

/-- A text is taken when it has 24 hexadecimal digits, with or without a NUL behind them.
The ObjectID prints as these digits in lower case, and every ObjectID is what is made of the
text that it prints as. -/
theorem newObjectID_text (E : Env) (h : Heap Host) (context : Context) (m : Moment) :
    (∀ s digits, OidText s digits → ∃ id, newObjectID E h context m (.str s) = .ok (id, context) ∧
      id.length = 12 ∧ ObjectID.m__tostring id = .str (digits.map lowerDigit)) ∧
    (∀ s, (¬ ∃ digits, OidText s digits) → newObjectID E h context m (.str s) =
      .error (.argument 1 (bytes "invalid format"))) ∧
    ∀ id : Oid, id.length = 12 →
      newObjectID E h context m (ObjectID.m__tostring id) = .ok (id, context) := by
  refine ⟨fun s digits htext => ?_, fun s hnone => ?_, fun id hid => ?_⟩
  · obtain ⟨hlength, hprint⟩ := hexText_pairs 12 htext.1 htext.2.1
    refine ⟨pairs digits, newObjectID_of_oidText E h context m htext, hlength, ?_⟩
    rw [m__tostring_eq, hprint]
  · rw [oidText_iff] at hnone
    have hvalid := bson_oid_is_valid_eq (ε := LuaError) s
    have hfalse : (decide (s.length = 24 ∨ s.length = 25 ∧ s[24]? = some 0) &&
        (s.take 24).all isHexDigit) = false := by
      rw [Bool.eq_false_iff]
      intro htrue
      rw [Bool.and_eq_true, decide_eq_true_iff] at htrue
      exact hnone htrue
    simp only [newObjectID, tolstring, hvalid, hfalse, Outcome.ok_bind, Bool.false_eq_true,
      if_false]
  · have htext : OidText (hexText id) (hexText id) := by
      refine ⟨?_, fun c hc => isHexDigit_of_mem_hexText hc, Or.inl rfl⟩
      rw [length_hexText, hid]
    rw [m__tostring_eq, newObjectID_of_oidText E h context m htext, pairs_hexText]

/-! ## New ObjectIDs -/

/-- What a process does with the context: a call of `newObjectID` with this argument, or an
ObjectID of the driver, which makes them for documents without an `_id`, for files of GridFS
and for topologies. -/
inductive Use where
  | newObjectID (v : LVal)
  | driver

/-- `bson_oid_init` is called. -/
def Use.generates : Use → Bool
  | .newObjectID v => v.isNil
  | .driver => true

def Use.run (E : Env) (h : Heap Host) (context : Context) (m : Moment) :
    Use → Outcome LuaError (Oid × Context)
  | .newObjectID v => Mongo.newObjectID E h context m v
  | .driver => .ok (bson_oid_init context m)

/-- The uses of a process, in whatever order and with whatever arguments.  An error is
caught by the script. -/
def newObjectIDs (E : Env) (h : Heap Host) (context : Context) :
    List (Moment × Use) → List (Outcome LuaError Oid)
  | [] => []
  | (m, use) :: rest =>
    match use.run E h context m with
    | .ok (id, context) => .ok id :: newObjectIDs E h context rest
    | .error e => .error e :: newObjectIDs E h context rest
    | .undefined => .undefined :: newObjectIDs E h context rest
    | .outOfFuel => .outOfFuel :: newObjectIDs E h context rest

/-- The uses that generate an ObjectID. -/
def generated (uses : List (Moment × Use)) : Nat := uses.countP (·.2.generates)

/-- What is generated comes from the context. -/
theorem Use.run_of_generates {use : Use} (huse : use.generates = true) (E : Env) (h : Heap Host)
    (context : Context) (m : Moment) : use.run E h context m = .ok (bson_oid_init context m) := by
  cases use with
  | driver => rfl
  | newObjectID v =>
    obtain rfl : v = .nil := by
      cases v <;> first | rfl | cases huse
    rfl

/-- Only a call without an argument changes the context. -/
theorem newObjectID_context {E : Env} {h : Heap Host} {context context' : Context} {m : Moment}
    {v : LVal} {id : Oid} (hv : v.isNil = false)
    (hrun : newObjectID E h context m v = .ok (id, context')) : context' = context := by
  rw [newObjectID] at hrun
  cases hs : tolstring E v with
  | none =>
    simp only [hs, hv] at hrun
    cases hrun
  | some str =>
    simp only [hs] at hrun
    obtain ⟨valid, -, hrun⟩ := Outcome.bind_eq_ok_iff.mp hrun
    split at hrun
    · obtain ⟨id', -, hpair⟩ := Outcome.bind_eq_ok_iff.mp hrun
      exact (Outcome.ok_prod_inj hpair).2.symm
    · cases hrun

theorem Use.run_context {E : Env} {h : Heap Host} {context context' : Context} {m : Moment}
    {use : Use} {id : Oid} (huse : use.generates = false)
    (hrun : use.run E h context m = .ok (id, context')) : context' = context := by
  cases use with
  | driver => cases huse
  | newObjectID v => exact newObjectID_context huse hrun

/-- The counter is where the generated ObjectIDs have brought it. -/
theorem generated_at {E : Env} {h : Heap Host} {context : Context} {uses : List (Moment × Use)}
    {i : Nat} {m : Moment} {use : Use} {id : Oid} (huse : uses[i]? = some (m, use))
    (hnew : use.generates = true)
    (hresult : (newObjectIDs E h context uses)[i]? = some (.ok id)) :
    ∃ context', id = (bson_oid_init context' m).1 ∧
      context'.seq32.toNat = (context.seq32.toNat + generated (uses.take i)) % 2 ^ 32 := by
  induction uses generalizing context i with
  | nil => cases huse
  | cons first rest ih =>
    obtain ⟨m₀, use₀⟩ := first
    cases i with
    | zero =>
      cases huse
      rw [newObjectIDs, Use.run_of_generates hnew] at hresult
      cases hresult
      exact ⟨context, rfl, (Nat.mod_eq_of_lt context.seq32.toNat_lt).symm⟩
    | succ i =>
      rw [List.getElem?_cons_succ] at huse
      rw [List.take_succ_cons, generated, List.countP_cons, ← generated]
      cases hfirst : use₀.generates with
      | true =>
        rw [newObjectIDs, Use.run_of_generates hfirst] at hresult
        have hrest : (newObjectIDs E h (bson_oid_init context m₀).2 rest)[i]? = some (.ok id) :=
          hresult
        obtain ⟨context', hid, hseq⟩ := ih huse hrest
        rw [bson_oid_init_seq32, UInt32.toNat_add] at hseq
        refine ⟨context', hid, hseq.trans ?_⟩
        rw [if_pos rfl, Nat.mod_add_mod]
        congr 1
        change context.seq32.toNat + 1 + _ = _
        omega
      | false =>
        have hsame : (newObjectIDs E h context rest)[i]? = some (.ok id) := by
          rw [newObjectIDs] at hresult
          split at hresult
          · rename_i hrun
            rwa [Use.run_context hfirst hrun] at hresult
          all_goals exact hresult
        rw [if_neg Bool.false_ne_true, Nat.add_zero]
        exact ih huse hsame

end Vklib.Mongo
