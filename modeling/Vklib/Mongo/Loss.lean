import Vklib.Mongo.Append

/-!
# Fields lost on encoding

No caller of a libbson append looks at its result, so a refused append loses a
field without an error.  `Complete` says that a BSON value has everything that
its tree has, and the main results say when the two entry points guarantee it:
exactly when no key has a NUL byte and the buffers are large enough.

The step from a complete value back to the tree is
`PartialFields.eq_of_complete`: a document that is a part of the fields and
has them all is the fields.
-/

namespace Vklib.Mongo

open Vklib.Lua Vklib.Bson

mutual
/-- The value has one field for each pair of a document and one element for
each index of an array, at every level and in the order of the encoder. -/
def Complete : Tree → Value → Prop
  | .leaf _ x, y => y = x
  | .doc fs, .document ds => CompleteFields fs ds
  | .array ts, .array ds => CompleteElems 0 ts ds
  | _, _ => False

def CompleteFields : List (Bytes × Tree) → Doc → Prop
  | [], [] => True
  | (key, t) :: fs, (k, x) :: ds => k = key ∧ Complete t x ∧ CompleteFields fs ds
  | _, _ => False

def CompleteElems (i : Nat) : List Tree → Doc → Prop
  | [], [] => True
  | t :: ts, (k, x) :: ds => k = uint32_to_string i ∧ Complete t x ∧ CompleteElems (i + 1) ts ds
  | _, _ => False
end

theorem completeElems_iff {i : Nat} {ts : List Tree} {ds : Doc} :
    CompleteElems i ts ds ↔ CompleteFields (Tree.indexed i ts) ds := by
  induction ts generalizing i ds with
  | nil => cases ds <;> simp [CompleteElems, CompleteFields, Tree.indexed]
  | cons t rest ih =>
    cases ds with
    | nil => simp [CompleteElems, CompleteFields, Tree.indexed]
    | cons d ds =>
      obtain ⟨k, x⟩ := d
      simp only [CompleteElems, CompleteFields, Tree.indexed]
      rw [ih]

theorem PartialFields.length_le {fs : List (Bytes × Tree)} {ds : Doc}
    (h : PartialFields fs ds) : ds.length ≤ fs.length := by
  induction fs generalizing ds with
  | nil => cases h; simp
  | cons f rest ih =>
    cases h with
    | skip hrest => exact Nat.le_succ_of_le (ih hrest)
    | keep _ _ hrest => exact Nat.succ_le_succ (ih hrest)

theorem CompleteFields.length_eq {fs : List (Bytes × Tree)} {ds : Doc}
    (h : CompleteFields fs ds) : ds.length = fs.length := by
  induction fs generalizing ds with
  | nil => cases ds <;> simp_all [CompleteFields]
  | cons f rest ih =>
    cases ds with
    | nil => simp [CompleteFields] at h
    | cons d ds => simp [ih h.2.2]

mutual
/-- A complete part is the whole value, and its keys were let through. -/
theorem Partial.eq_of_complete {t : Tree} {x : Value} (h : Partial t x) (hc : Complete t x) :
    x = t.value ∧ t.KeysNulFree := by
  cases h with
  | leaf => simp [Tree.value, Tree.KeysNulFree]
  | @doc fs ds hpart =>
    obtain ⟨rfl, hkeys⟩ := hpart.eq_of_complete (by simpa [Complete] using hc)
    exact ⟨by simp [Tree.value], by simpa [Tree.KeysNulFree] using hkeys⟩
  | @array ts ds hpart =>
    obtain ⟨rfl, hkeys⟩ :=
      hpart.eq_of_complete (completeElems_iff.mp (by simpa [Complete] using hc))
    exact ⟨by simp [Tree.value, Tree.elemValues_eq],
      by simpa [Tree.KeysNulFree, Tree.elemsNulFree_iff 0] using hkeys⟩

theorem PartialFields.eq_of_complete {fs : List (Bytes × Tree)} {ds : Doc}
    (h : PartialFields fs ds) (hc : CompleteFields fs ds) :
    ds = Tree.fieldValues fs ∧ Tree.FieldsNulFree fs := by
  cases h with
  | nil => simp
  | skip hrest =>
    have hle := hrest.length_le
    have heq := hc.length_eq
    simp only [List.length_cons] at heq
    omega
  | @keep key k t x fs ds hkey ht hrest =>
    simp only [CompleteFields] at hc
    obtain ⟨rfl, hct, hcrest⟩ := hc
    obtain ⟨rfl, hkeys⟩ := ht.eq_of_complete hct
    obtain ⟨rfl, hrestKeys⟩ := hrest.eq_of_complete hcrest
    exact ⟨by simp, by simpa using ⟨nulFree_of_HANDLE_KEY_LENGTH hkey, hkeys, hrestKeys⟩⟩
end

mutual
/-- The whole value is complete. -/
theorem complete_value (t : Tree) : Complete t t.value := by
  cases t with
  | leaf v x => simp [Tree.value, Complete]
  | doc fs =>
    simp only [Tree.value, Complete]
    exact complete_fieldValues fs
  | array ts =>
    simp only [Tree.value, Complete]
    exact complete_elemValues 0 ts

theorem complete_fieldValues (fs : List (Bytes × Tree)) :
    CompleteFields fs (Tree.fieldValues fs) := by
  match fs with
  | [] => simp [CompleteFields]
  | (key, t) :: rest =>
    simp only [Tree.fieldValues, CompleteFields, true_and]
    exact ⟨complete_value t, complete_fieldValues rest⟩

theorem complete_elemValues (i : Nat) (ts : List Tree) :
    CompleteElems i ts (Tree.elemValues i ts) := by
  match ts with
  | [] => simp [CompleteElems, Tree.elemValues]
  | t :: rest =>
    simp only [Tree.elemValues, CompleteElems, true_and]
    exact ⟨complete_value t, complete_elemValues (i + 1) rest⟩
end

/-- `mongo.bson` loses nothing of the tree `t`: it writes to no child that was
not begun, and what it returns is complete. -/
def EncodesAll (t : Tree) (result : Outcome LuaError (Heap Host × Doc)) : Prop :=
  result ≠ .undefined ∧ ∀ h ds, result = .ok (h, ds) → CompleteFields t.children ds

/-- `b:append` loses nothing of the tree `t`: it writes to no child that was
not begun, and when it returns the document has gained one field with that
key, and a complete value. -/
def AppendsAll (b : BsonT) (key : Bytes) (t : Tree)
    (result : Outcome LuaError (Heap Host × BsonT)) : Prop :=
  result ≠ .undefined ∧ ∀ h b', result = .ok (h, b') →
    ∃ x, b'.fields = b.fields ++ [(key, x)] ∧ Complete t x

theorem newBSON_all_iff {E : Env} {h h₁ h' : Heap Host} {r₀ r : Ref} {t : Tree}
    (hcall : callToBSON E h (.table r₀) = .ok (h₁, .table r))
    (htable : EncodesTable E 3 ∅ h₁ r h' t) :
    EncodesAll t (newBSON E h (.table r₀)) ↔
      Tree.FieldsNulFree t.children ∧
        docSize (Tree.fieldValues t.children) ≤ BSON_GROW_LIMIT := by
  have hspec := castBSON_spec BSON_GROW_LIMIT 1 1 (by decide) (by decide) rfl hcall htable
  rw [fits_new_iff] at hspec
  simp only [newBSON, EncodesAll]
  rcases hspec with ⟨hundef, hfits⟩ | ⟨ds, hok, hpart, hsize, hfull⟩
  · simp [hundef, hfits]
  · constructor
    · rintro ⟨-, hall⟩
      obtain ⟨rfl, hkeys⟩ := hpart.eq_of_complete (hall _ _ hok)
      exact ⟨hkeys, hsize⟩
    · intro hfits
      refine ⟨by simp [hok], fun h ds' heq => ?_⟩
      rw [hok] at heq
      cases heq
      rw [hfull hfits]
      exact complete_fieldValues _

theorem m_append_all_iff {E : Env} {top : Nat} {h h' : Heap Host} {v : LVal} {t : Tree}
    {b : BsonT} (hb : Writable b) (key : Bytes) (henc : EncodesArgument E top h v h' t) :
    AppendsAll b key t (m_append E top h b (.str key) v) ↔
      FitsArgument t ∧ Fits b [(key, t)] := by
  simp only [AppendsAll]
  rcases m_append_spec henc b key with ⟨hundef, hfits⟩ | ⟨x, hok, hpart, hfull, hback⟩
  · simp [hundef, hfits]
  · rw [hok]
    constructor
    · rintro ⟨hdefined, hall⟩
      rcases bson_append_cases b key x with ⟨k, hk, hsize, happend⟩ | happend | ⟨k, -, -, happend⟩
      · obtain ⟨y, hfields, hcomplete⟩ := hall h' (b.push k x) (by rw [happend, Option.elim_some])
        simp only [BsonT.push_fields, List.append_cancel_left_eq, List.cons.injEq,
          Prod.mk.injEq, and_true] at hfields
        obtain ⟨rfl, rfl⟩ := hfields
        obtain ⟨rfl, hkeys⟩ := hpart.eq_of_complete hcomplete
        refine ⟨hback hkeys rfl, ?_, by simpa using hsize⟩
        simpa using ⟨nulFree_of_HANDLE_KEY_LENGTH hk, hkeys⟩
      · obtain ⟨y, hfields, -⟩ := hall h' b (by rw [happend, Option.elim_some])
        simp at hfields
      · exact absurd (by rw [happend, Option.elim_none]) hdefined
    · rintro ⟨harg, hfits⟩
      have hsize := hfits.2
      simp only [Tree.fieldValues_cons, Tree.fieldValues_nil, fieldsSize_cons, fieldsSize_nil,
        Nat.add_zero] at hsize
      have happend := bson_append_of_fits hb.bound hfits.1.1 (hfits.key_length hb) hsize
      rw [hfull harg, happend, Option.elim_some]
      refine ⟨by simp, fun h b' heq => ?_⟩
      obtain ⟨-, rfl⟩ := Outcome.ok_prod_inj heq
      exact ⟨_, rfl, complete_value t⟩

/-- Encoding loses nothing exactly when no key has a NUL byte and the new
documents stay within the largest buffer, for `mongo.bson` and for
`b:append`. -/
theorem encoding_loses_nothing_iff (E : Env) :
    (∀ {h h₁ h' : Heap Host} {r₀ r : Ref} {t : Tree},
      callToBSON E h (.table r₀) = .ok (h₁, .table r) → EncodesTable E 3 ∅ h₁ r h' t →
      (EncodesAll t (newBSON E h (.table r₀)) ↔
        Tree.FieldsNulFree t.children ∧
          docSize (Tree.fieldValues t.children) ≤ BSON_GROW_LIMIT)) ∧
    (∀ {top : Nat} {h h' : Heap Host} {v : LVal} {t : Tree} {b : BsonT} (key : Bytes),
      Writable b → EncodesArgument E top h v h' t →
      (AppendsAll b key t (m_append E top h b (.str key) v) ↔
        FitsArgument t ∧ Fits b [(key, t)])) :=
  ⟨newBSON_all_iff, fun key hb henc => m_append_all_iff hb key henc⟩

/-- A heap with the one table that maps the key to `1`. -/
def singleHeap (key : Bytes) : Heap Host := [Table.empty.rawset (.str key) (.int 1)]

/-- The tree of that table. -/
def singleTree (key : Bytes) : Tree := .doc [(key, .leaf (.int 1) (.int32 1))]

theorem encodesTable_single (E : Env) {key : Bytes} (hkey : key ≠ bytes "__array") :
    EncodesTable E 3 ∅ (singleHeap key) 0 (singleHeap key) (singleTree key) := by
  have hentries : ((singleHeap key).get 0).entries = [(.str key, .int 1)] := by
    simp [singleHeap, Heap.get, Table.rawset, Table.empty, setEntries, Val.isNil]
  have hflag : ((singleHeap key).get 0).get (.str (bytes "__array")) = .nil := by
    simp [Table.get, hentries, lookup_cons, Ne.symm hkey]
  refine .doc ⟨by decide, rfl, by simp⟩ ?_ ?_
  · have hmeta : ((singleHeap key).get 0).metatable = none := rfl
    simp [getArrayLength, getArrayField, hmeta, hflag, declaredLength, Val.truthy]
  · rw [hentries]
    exact .cons (.leaf rfl rfl) .nil

theorem encoding_loses_nothing_single :
    EncodesAll (singleTree (bytes "a"))
      (newBSON Env.bare (singleHeap (bytes "a")) (.table 0)) ∧
    AppendsAll BsonT.bson_init (bytes "a") (.leaf (.int 1) (.int32 1))
      (m_append Env.bare 3 [] BsonT.bson_init (.str (bytes "a")) (.int 1)) := by
  have hloses := encoding_loses_nothing_iff Env.bare
  constructor
  · refine (hloses.1 rfl (encodesTable_single Env.bare (by decide))).mpr ⟨?_, by decide⟩
    simp [singleTree, Tree.children, Tree.KeysNulFree]
    decide
  · refine (hloses.2 (bytes "a") ⟨by decide, by decide⟩ (.leaf rfl rfl)).mpr ⟨trivial, ?_, by decide⟩
    simp [Tree.KeysNulFree]
    decide

/-- A key with a NUL is dropped without an error: the table
`{["a\0b"] = 1}` becomes the empty document. -/
theorem nul_key_is_dropped :
    newBSON Env.bare (singleHeap [97, 0, 98]) (.table 0) = .ok (singleHeap [97, 0, 98], []) ∧
    ¬ EncodesAll (singleTree [97, 0, 98])
      (newBSON Env.bare (singleHeap [97, 0, 98]) (.table 0)) := by
  have hrun : newBSON Env.bare (singleHeap [97, 0, 98]) (.table 0) =
      .ok (singleHeap [97, 0, 98], []) := rfl
  refine ⟨hrun, fun hall => ?_⟩
  have hcomplete := hall.2 _ _ hrun
  simp [singleTree, Tree.children, CompleteFields] at hcomplete

end Vklib.Mongo
