import Vklib.Bson.Data
import Vklib.Mongo.Append

/-!
# One value under one key

A value comes under a key of a document in three ways: the table `{[k] = v}` is
encoded, `v` is encoded and the BSON object is put into the table, or `v` is
appended to an empty BSON object.  The three see the same tree, and they differ
in how they write it.

`Tree.kept` is what a new document takes of a tree of its own, which is what
the last two ways put under the key.  The first writes the tree in place, with
the key and the outer document around it, and `writeNested_cases` compares the
two.

`append_agrees_iff` says when appending gives the bytes of the table, and
`wrapping_agrees_iff` when wrapping does.  For the second, `fieldsTake` counts on the tree
what a new document has room for, and `StartsAtZero` looks at the first field of that.
-/

namespace Vklib.Mongo

open Vklib.Lua Vklib.Bson

/-! ## The tree of a value -/

theorem leafValue_unique {E : Env} {top top' : Nat} {h : Heap Host} {v : LVal} {x x' : Value}
    (hx : leafValue E top h v = some x) (hx' : leafValue E top' h v = some x') : x = x' := by
  cases v with
  | table r =>
    simp only [leafValue] at hx hx'
    split at hx
    · simp at hx
    · split at hx'
      · simp at hx'
      · split_ifs at hx hx'
        exact Option.some.inj (hx.symm.trans hx')
  | host u => cases u <;> exact Option.some.inj (hx.symm.trans hx')
  | _ => exact Option.some.inj (hx.symm.trans hx')

/-- A value that `luaL_callmeta` transforms is transformed by the protected call
in the same way. -/
theorem transform_of_callToBSON {E : Env} {h h' : Heap Host} {v v' : LVal}
    (hcall : callToBSON E h v = .ok (h', v')) : transform E h v = .ok (h', v') := by
  unfold callToBSON at hcall
  unfold transform
  split at hcall
  · simpa using hcall
  · split at hcall <;> simp_all

/-- A table without `__type` is no leaf. -/
theorem leafValue_table {E : Env} {top : Nat} {h : Heap Host} {r : Ref}
    (htype : h.getmetafield (.table r) (bytes "__type") = .nil) :
    leafValue E top h (.table r) = none := by
  simp only [leafValue, htype]

/-- The tree at a value is unique when that at a table is. -/
theorem Encodes.unique_of {E : Env} {top top' : Nat} {path path' : Finset Ref}
    {h h₁ h₂ : Heap Host} {v : LVal} {t t' : Tree}
    (htable : ∀ {h r}, EncodesTable E top path h r h₁ t → EncodesTable E top' path' h r h₂ t' →
      h₁ = h₂ ∧ t = t')
    (henc : Encodes E top path h v h₁ t) (henc' : Encodes E top' path' h v h₂ t') :
    h₁ = h₂ ∧ t = t' := by
  cases henc with
  | leaf htrans hleaf =>
    cases henc' with
    | leaf htrans' hleaf' =>
      obtain ⟨rfl, rfl⟩ := Outcome.ok_prod_inj (htrans.symm.trans htrans')
      exact ⟨rfl, by rw [leafValue_unique hleaf hleaf']⟩
    | table htrans' htype _ =>
      obtain ⟨rfl, rfl⟩ := Outcome.ok_prod_inj (htrans.symm.trans htrans')
      simp [leafValue_table htype] at hleaf
  | table htrans htype hroot =>
    cases henc' with
    | leaf htrans' hleaf' =>
      obtain ⟨rfl, rfl⟩ := Outcome.ok_prod_inj (htrans.symm.trans htrans')
      simp [leafValue_table htype] at hleaf'
    | table htrans' _ hroot' =>
      obtain ⟨rfl, hr⟩ := Outcome.ok_prod_inj (htrans.symm.trans htrans')
      obtain rfl := Val.table.inj hr
      exact htable hroot hroot'

mutual
/-- What the encoder sees at a table does not depend on the slots in use and on
the open tables. -/
theorem EncodesTable.unique {E : Env} {top top' : Nat} {path path' : Finset Ref}
    {h h₁ h₂ : Heap Host} {r : Ref} {t t' : Tree} (htable : EncodesTable E top path h r h₁ t)
    (htable' : EncodesTable E top' path' h r h₂ t') : h₁ = h₂ ∧ t = t' := by
  cases t with
  | leaf v x => cases htable
  | doc fs =>
    cases htable with
    | doc _ hlen hfields =>
      cases htable' with
      | doc _ _ hfields' =>
        obtain ⟨rfl, rfl⟩ := hfields.unique hfields'
        exact ⟨rfl, rfl⟩
      | array _ hlen' _ =>
        have heq := hlen.symm.trans hlen'
        simp only [Except.ok.injEq] at heq
        omega
  | array ts =>
    cases htable with
    | array _ hlen helems =>
      cases htable' with
      | doc _ hlen' _ =>
        have heq := hlen.symm.trans hlen'
        simp only [Except.ok.injEq] at heq
        omega
      | array _ hlen' helems' =>
        have heq := hlen.symm.trans hlen'
        simp only [Except.ok.injEq, Nat.cast_inj] at heq
        subst heq
        obtain ⟨rfl, rfl⟩ := helems.unique helems'
        exact ⟨rfl, rfl⟩

theorem EncodesFields.unique {E : Env} {top top' : Nat} {path path' : Finset Ref}
    {h h₁ h₂ : Heap Host} {es : List (Key × LVal)} {fs fs' : List (Bytes × Tree)}
    (hfields : EncodesFields E top path h es h₁ fs)
    (hfields' : EncodesFields E top' path' h es h₂ fs') : h₁ = h₂ ∧ fs = fs' := by
  match fs with
  | [] =>
    cases hfields
    cases hfields'
    exact ⟨rfl, rfl⟩
  | (key, t) :: rest =>
    cases hfields with
    | cons hv hrest =>
      cases hfields' with
      | cons hv' hrest' =>
        obtain ⟨rfl, rfl⟩ := hv.unique_of (fun ht ht' => ht.unique ht') hv'
        obtain ⟨rfl, rfl⟩ := hrest.unique hrest'
        exact ⟨rfl, rfl⟩

theorem EncodesElems.unique {E : Env} {top top' : Nat} {path path' : Finset Ref} {r : Ref}
    {h h₁ h₂ : Heap Host} {i n : Nat} {ts ts' : List Tree}
    (helems : EncodesElems E top path r h i n h₁ ts)
    (helems' : EncodesElems E top' path' r h i n h₂ ts') : h₁ = h₂ ∧ ts = ts' := by
  match ts with
  | [] =>
    cases helems
    cases helems'
    exact ⟨rfl, rfl⟩
  | t :: rest =>
    cases helems with
    | cons hv hrest =>
      cases helems' with
      | cons hv' hrest' =>
        obtain ⟨rfl, rfl⟩ := hv.unique_of (fun ht ht' => ht.unique ht') hv'
        obtain ⟨rfl, rfl⟩ := hrest.unique hrest'
        exact ⟨rfl, rfl⟩
end

theorem Encodes.unique {E : Env} {top top' : Nat} {path path' : Finset Ref} {h h₁ h₂ : Heap Host}
    {v : LVal} {t t' : Tree} (henc : Encodes E top path h v h₁ t)
    (henc' : Encodes E top' path' h v h₂ t') : h₁ = h₂ ∧ t = t' :=
  henc.unique_of (fun ht ht' => ht.unique ht') henc'

/-- A table that is seen at the root of a value is what is seen at the value. -/
theorem EncodesTable.encodes {E : Env} {top top' : Nat} {path path' : Finset Ref}
    {h h₀ h₁ h₂ : Heap Host} {v : LVal} {r : Ref} {t t' : Tree}
    (htable : EncodesTable E top path h₀ r h₁ t) (htrans : transform E h v = .ok (h₀, .table r))
    (henc : Encodes E top' path' h v h₂ t') : h₁ = h₂ ∧ t = t' := by
  have hplain : (h₀.get r).metatable = none := by
    cases htable with
    | doc hopen _ _ => exact hopen.plain
    | array hopen _ _ => exact hopen.plain
  have htype : h₀.getmetafield (.table r) (bytes "__type") = .nil :=
    Heap.getmetafield_of_metatable_none (v := .table r) hplain _
  exact Encodes.unique (.table htrans htype htable) henc

/-! ## The table with one field -/

/-- The table `{[k] = v}`. -/
structure Singleton (h : Heap Host) (w : Ref) (k : Bytes) (v : LVal) : Prop where
  plain : (h.get w).metatable = none
  entries : (h.get w).entries = [(.str k, v)]

/-- The field marks its own table as an array. -/
def Marks (k : Bytes) (v : LVal) : Prop := k = bytes "__array" ∧ v.truthy = true

instance (k : Bytes) (v : LVal) : Decidable (Marks k v) := inferInstanceAs (Decidable (_ ∧ _))

theorem Singleton.callToBSON {h : Heap Host} {w : Ref} {k : Bytes} {v : LVal}
    (hw : Singleton h w k v) (E : Env) : callToBSON E h (.table w) = .ok (h, .table w) := by
  have hmeta : h.getmetafield (.table w) (bytes "__toBSON") = .nil :=
    Heap.getmetafield_of_metatable_none (v := .table w) hw.plain _
  simp only [Mongo.callToBSON, hmeta]

theorem Singleton.get_int {h : Heap Host} {w : Ref} {k : Bytes} {v : LVal}
    (hw : Singleton h w k v) (i : Int) : (h.get w).get (.int i) = .nil := by
  simp [Table.get, hw.entries, lookup_cons]

theorem Singleton.getArrayLength {h : Heap Host} {w : Ref} {k : Bytes} {v : LVal}
    (hw : Singleton h w k v) (E : Env) :
    getArrayLength E h w = .ok (if Marks k v then declaredLength E v 0 else -1) := by
  have hrawlen : (h.get w).rawlen = 0 := by
    refine (h.get w).border.1.resolve_right fun hne => hne ?_
    exact hw.get_int _
  simp only [Mongo.getArrayLength, getArrayField, hw.plain, hrawlen]
  by_cases hk : k = bytes "__array"
  · have hget : (h.get w).get (.str (bytes "__array")) = v := by
      simp [Table.get, hw.entries, lookup_cons, hk]
    rw [hget]
    by_cases hv : v.truthy = true
    · rw [if_pos ⟨hk, hv⟩]
    · rw [if_neg fun hm => hv hm.2, declaredLength, if_neg hv]
  · have hget : (h.get w).get (.str (bytes "__array")) = .nil := by
      simp [Table.get, hw.entries, lookup_cons, Ne.symm hk]
    rw [hget, if_neg fun hm => hk hm.1]
    rfl

/-- What the encoder sees at a table with one field, unless the field marks the
table as an array. -/
theorem Singleton.encodesTable {E : Env} {top : Nat} {path : Finset Ref} {h h' : Heap Host}
    {w : Ref} {k : Bytes} {v : LVal} {t : Tree} (hw : Singleton h w k v) (hmark : ¬ Marks k v)
    (htable : EncodesTable E top path h w h' t) :
    ∃ t', t = .doc [(k, t')] ∧ Encodes E (top + 2) (insert w path) h v h' t' := by
  have hlength := hw.getArrayLength E
  rw [if_neg hmark] at hlength
  cases htable with
  | doc _ _ hfields =>
    rw [hw.entries] at hfields
    cases hfields with
    | cons hv hrest =>
      cases hrest
      exact ⟨_, rfl, hv⟩
  | array _ hlen _ =>
    have heq := hlength.symm.trans hlen
    simp only [Except.ok.injEq] at heq
    omega

/-- A table that is marked as an array has no elements to show. -/
theorem Singleton.encodesTable_marked {E : Env} {top : Nat} {path : Finset Ref}
    {h h' : Heap Host} {w : Ref} {k : Bytes} {v : LVal} {t : Tree} (hw : Singleton h w k v)
    (hmark : Marks k v) (htable : EncodesTable E top path h w h' t) :
    (declaredLength E v 0 = 0 ∧ t = .array []) ∨
      (declaredLength E v 0 ≠ 0 ∧ ∃ ts, t = .array (.leaf .nil .null :: ts)) := by
  have hlength := hw.getArrayLength E
  rw [if_pos hmark] at hlength
  cases htable with
  | doc _ hlen _ =>
    have heq := hlength.symm.trans hlen
    simp only [Except.ok.injEq, declaredLength, if_pos hmark.2] at heq
    split at heq <;> omega
  | @array _ _ _ _ _ n _ _ hlen helems =>
    have heq := hlength.symm.trans hlen
    simp only [Except.ok.injEq] at heq
    cases helems with
    | nil => exact Or.inl ⟨by omega, rfl⟩
    | cons hv _ =>
      refine Or.inr ⟨by omega, ?_⟩
      rw [hw.get_int] at hv
      have hnil : Encodes E (top + 1) (insert w path) h .nil h (.leaf .nil .null) :=
        .leaf rfl rfl
      obtain ⟨-, rfl⟩ := hnil.unique hv
      exact ⟨_, rfl⟩

/-! ## A document of its own -/

/-- A document as a value of one of the two kinds. -/
def kindValue (asArray : Bool) (ds : Doc) : Value := if asArray then .array ds else .document ds

@[simp] theorem size_kindValue (asArray : Bool) (ds : Doc) :
    (kindValue asArray ds).size = docSize ds := by
  cases asArray <;> simp [kindValue, Value.size, docSize]

/-- The fields that a new document takes, none when the encoder writes to a
child that was not begun. -/
def keptFields (fs : List (Bytes × Tree)) : Option Doc :=
  (writeFields BsonT.bson_init fs).map (·.fields)

/-- The value of a tree that is written to a document of its own. -/
def Tree.kept : Tree → Option Value
  | .leaf _ x => some x
  | .doc fs => (keptFields fs).map (kindValue false)
  | .array ts => (keptFields (Tree.array ts).children).map (kindValue true)

/-- `mongo.bson` returns what a new document takes of the table. -/
theorem newBSON_eq {E : Env} {h h₁ h' : Heap Host} {v : LVal} {r : Ref} {t : Tree}
    (hstr : tolstring E v = none) (hcall : callToBSON E h v = .ok (h₁, .table r))
    (htable : EncodesTable E 3 ∅ h₁ r h' t) :
    newBSON E h v = (keptFields t.children).elim .undefined fun ds => .ok (h', ds) := by
  obtain ⟨len, hlen⟩ := htable.exists_length
  simp only [newBSON, castBSON, hstr, hcall, Outcome.ok_bind]
  rw [encodeTable_eq htable hlen, keptFields]
  change (Option.elim (writeFields BsonT.bson_init t.children) _ _ >>= _) = _
  cases writeFields BsonT.bson_init t.children <;> rfl

/-- `b:append` appends what a new document takes of the value. -/
theorem m_append_eq {E : Env} {top : Nat} {h h' : Heap Host} {v : LVal} {t : Tree}
    (henc : EncodesArgument E top h v h' t) (b : BsonT) (key : Bytes) :
    m_append E top h b (.str key) v =
      (t.kept.bind fun x => bson_append b key x).elim .undefined fun appended =>
        .ok (h', appended.2) := by
  simp only [m_append, tolstring]
  cases henc with
  | leaf hcall hleaf =>
    obtain ⟨y, hy, happend⟩ := toBSONValue_of_leaf 3 hcall hleaf
    simp [hy, happend, Tree.kept]
  | @table h₁ _ r _ hcall htype htable =>
    obtain ⟨len, hlen⟩ := htable.exists_length
    simp only [toBSONValue, hcall, Outcome.ok_bind, htype]
    rw [encodeTable_eq htable hlen]
    cases htable with
    | doc _ hlen' _ =>
      obtain rfl : len = -1 := by simpa using hlen.symm.trans hlen'
      simp only [Tree.kept, keptFields, Tree.children]
      cases writeFields BsonT.bson_init _ <;> rfl
    | @array _ _ _ _ _ n _ _ hlen' _ =>
      obtain rfl : len = n := by simpa using hlen.symm.trans hlen'
      simp only [Tree.kept, keptFields]
      cases writeFields BsonT.bson_init _ <;> rfl

/-! ## In place and on its own -/

/-- A value of that size fits with its key into a new document. -/
def Storable (key : Bytes) (size : Nat) : Prop :=
  ∃ k, HANDLE_KEY_LENGTH key = some k ∧ 5 + (1 + k.length + 1 + size) ≤ BSON_GROW_LIMIT

/-- The document of one field, as an append to an empty document makes it. -/
def appended (key : Bytes) (x : Value) : Option Doc :=
  (bson_append BsonT.bson_init key x).map fun p => p.2.fields

theorem appended_of_storable {key k : Bytes} {x : Value} (hk : HANDLE_KEY_LENGTH key = some k)
    (hfits : Storable key x.size) : appended key x = some [(k, x)] := by
  obtain ⟨k', hk', hsize⟩ := hfits
  obtain rfl := Option.some.inj (hk.symm.trans hk')
  have hclosed : BsonT.bson_init.closed + fieldSize k x ≤ BsonT.bson_init.limit := by
    simpa [BsonT.closed, BsonT.bson_init, docSize, fieldSize] using hsize
  rw [appended, bson_append_of_room (by decide) hk hclosed]
  rfl

theorem appended_eq_some {key : Bytes} {x : Value} {b : BsonT}
    (h : (bson_append BsonT.bson_init key x).map Prod.snd = some b) :
    appended key x = some b.fields := by
  obtain ⟨p, happend, rfl⟩ := Option.map_eq_some_iff.mp h
  rw [appended, happend]
  rfl

theorem appended_of_not_storable {key : Bytes} {x : Value} {d : Doc}
    (hfits : ¬ Storable key x.size) (hd : appended key x = some d) : d = [] := by
  rw [appended] at hd
  rcases bson_append_cases BsonT.bson_init key x with ⟨k, hk, hsize, -⟩ | happend | ⟨k, -, -, happend⟩
  · refine absurd ⟨k, hk, ?_⟩ hfits
    simpa [BsonT.closed, BsonT.bson_init, docSize, fieldSize] using hsize
  · rw [happend] at hd
    exact (Option.some.inj hd).symm
  · simp [happend] at hd

/-- A table that is written in place is the one field of its document.  It is
what a document of its own takes when that fits with the key. -/
theorem writeNested_cases {key : Bytes} {asArray : Bool} {fs : List (Bytes × Tree)} {e : BsonT}
    {ds : Doc} (hplace : writeNested BsonT.bson_init key asArray fs = some e)
    (hown : keptFields fs = some ds) :
    ∃ k x, HANDLE_KEY_LENGTH key = some k ∧ e.fields = [(k, x)] ∧
      (Storable key (docSize ds) → x = kindValue asArray ds) := by
  obtain ⟨p, hbegin, hmap⟩ := Option.bind_eq_some_iff.mp hplace
  obtain ⟨inner, hinner, rfl⟩ := Option.map_eq_some_iff.mp hmap
  obtain ⟨own, hwrite, rfl⟩ := Option.map_eq_some_iff.mp hown
  obtain ⟨k, child⟩ := p
  rw [Option.join_eq_some_iff] at hbegin
  obtain ⟨hk, hroom, rfl⟩ := bson_append_begin_eq_some hbegin
  refine ⟨k, kindValue asArray inner.fields, hk, rfl, ?_⟩
  rintro ⟨k', hk', hsize⟩
  obtain rfl := Option.some.inj (hk.symm.trans hk')
  have hchild : BsonT.bson_init.child k = deeper BsonT.bson_init (5 + (1 + k.length + 1)) := by
    simp [BsonT.child, BsonT.bson_init, deeper, BsonT.closed, docSize]
  have hinit : Writable BsonT.bson_init := ⟨by decide, by decide⟩
  obtain ⟨ds, rfl, -⟩ := exists_extend_of_writeFields hinit hwrite
  have hdeeper := writeFields_deeper (n := 5 + (1 + k.length + 1)) hinit hwrite (by
    rw [BsonT.closed_extend]
    simp only [BsonT.closed, BsonT.bson_init, BsonT.extend_fields, docSize, fieldsSize_append,
      fieldsSize_nil] at hsize ⊢
    omega)
  rw [hchild, hdeeper] at hinner
  rw [← Option.some.inj hinner]
  rfl

/-- What is written of a table on its own is small enough to be appended. -/
theorem exists_appended {key : Bytes} {asArray : Bool} {fs : List (Bytes × Tree)} {e : BsonT}
    {ds : Doc} (hplace : writeNested BsonT.bson_init key asArray fs = some e)
    (hown : keptFields fs = some ds) (kind : Bool) :
    ∃ d, appended key (kindValue kind ds) = some d := by
  obtain ⟨p, hbegin, -⟩ := Option.bind_eq_some_iff.mp hplace
  obtain ⟨own, hwrite, rfl⟩ := Option.map_eq_some_iff.mp hown
  obtain ⟨k, child⟩ := p
  rw [Option.join_eq_some_iff] at hbegin
  obtain ⟨hk, hroom, -⟩ := bson_append_begin_eq_some hbegin
  have hinit : Writable BsonT.bson_init := ⟨by decide, by decide⟩
  obtain ⟨ds, rfl, -, hsize⟩ := exists_extend_of_writeFields hinit hwrite
  have hsmall : ∀ k', HANDLE_KEY_LENGTH key = some k' →
      fieldSize k' (kindValue kind (BsonT.bson_init.extend ds).fields) < 2 ^ 31 - 4 := by
    intro k' hk'
    obtain rfl := Option.some.inj (hk.symm.trans hk')
    simp only [BsonT.closed, BsonT.bson_init, BSON_GROW_LIMIT, BsonT.extend_fields, fieldSize,
      size_kindValue, docSize, fieldsSize_append, fieldsSize_nil] at hroom hsize ⊢
    omega
  obtain ⟨ok, b', happend⟩ := exists_bson_append BsonT.bson_init hsmall
  exact ⟨b'.fields, by rw [appended, happend, Option.map_some]⟩

/-- A table in place has the bytes of the document of its own exactly when that
fits with the key and has the same kind. -/
theorem data_appended_eq_iff {key : Bytes} {asArray kind : Bool} {fs : List (Bytes × Tree)}
    {e : BsonT} {ds d : Doc} (hplace : writeNested BsonT.bson_init key asArray fs = some e)
    (hown : keptFields fs = some ds) (hd : appended key (kindValue kind ds) = some d) :
    bson_get_data d = bson_get_data e.fields ↔ Storable key (docSize ds) ∧ kind = asArray := by
  obtain ⟨k, x, hk, hfields, hx⟩ := writeNested_cases hplace hown
  rw [hfields]
  by_cases hfits : Storable key (docSize ds)
  · rw [appended_of_storable hk (by simpa using hfits)] at hd
    rw [hx hfits, ← Option.some.inj hd]
    refine ⟨fun hdata => ⟨hfits, ?_⟩, ?_⟩
    · have htype := (value_eq_of_data_eq hdata).1
      cases kind <;> cases asArray <;> simp_all [kindValue, elementType]
    · rintro ⟨-, rfl⟩
      rfl
  · rw [appended_of_not_storable (by simpa using hfits) hd]
    exact iff_of_false (data_nil_ne_cons _ _) fun h => hfits h.1

/-! ## What a tree takes of its room -/

mutual
/-- The bytes that a field takes where `room` bytes are left: a leaf takes its field or
nothing, and a table its frame and what its fields take of the rest. -/
def Tree.takes (room : Nat) (key : Bytes) : Tree → Nat
  | .leaf _ x =>
    (HANDLE_KEY_LENGTH key).elim 0 fun k => if fieldSize k x ≤ room then fieldSize k x else 0
  | .doc fs =>
    (HANDLE_KEY_LENGTH key).elim 0 fun k =>
      1 + k.length + 1 + 5 + fieldsTake (room - (1 + k.length + 1 + 5)) fs
  | .array ts =>
    (HANDLE_KEY_LENGTH key).elim 0 fun k =>
      1 + k.length + 1 + 5 + elemsTake (room - (1 + k.length + 1 + 5)) 0 ts

/-- The bytes that fields take one after the other. -/
def fieldsTake (room : Nat) : List (Bytes × Tree) → Nat
  | [] => 0
  | (key, t) :: rest => t.takes room key + fieldsTake (room - t.takes room key) rest

/-- The bytes that elements take, numbered from `i`. -/
def elemsTake (room i : Nat) : List Tree → Nat
  | [] => 0
  | t :: rest =>
    t.takes room (uint32_to_string i) +
      elemsTake (room - t.takes room (uint32_to_string i)) (i + 1) rest
end

theorem elemsTake_eq (room i : Nat) (ts : List Tree) :
    elemsTake room i ts = fieldsTake room (Tree.indexed i ts) := by
  induction ts generalizing room i with
  | nil => simp only [elemsTake, Tree.indexed, fieldsTake]
  | cons t rest ih => simp only [elemsTake, Tree.indexed, fieldsTake, ih]

/-- The room of a document. -/
def room (b : BsonT) : Nat := b.limit - b.closed

theorem room_extend (b : BsonT) (ds : Doc) : room (b.extend ds) = room b - fieldsSize ds := by
  simp only [room, BsonT.extend_limit, BsonT.closed_extend]
  omega

theorem room_bson_init : room BsonT.bson_init = BSON_GROW_LIMIT - 5 := rfl

/-- What writing one field comes to: nothing when it takes nothing, else one field of that
size. -/
def Takes (b : BsonT) (key : Bytes) (t : Tree) (c : BsonT) : Prop :=
  (t.takes (room b) key = 0 ∧ c = b) ∨
    ∃ k x, HANDLE_KEY_LENGTH key = some k ∧ c = b.extend [(k, x)] ∧
      t.takes (room b) key = fieldSize k x

theorem takes_leaf {b c : BsonT} {key : Bytes} {x : Value} {ok : Bool} (v : LVal)
    (h : bson_append b key x = some (ok, c)) : Takes b key (.leaf v x) c := by
  rw [Takes, Tree.takes]
  rw [bson_append] at h
  cases hk : HANDLE_KEY_LENGTH key with
  | none =>
    simp only [hk] at h
    exact Or.inl ⟨rfl, (Prod.mk.inj (Option.some.inj h)).2.symm⟩
  | some k =>
    have hpos : 0 < fieldSize k x := by
      rw [fieldSize]
      omega
    simp only [hk] at h
    simp only [Option.elim_some]
    split_ifs at h with hints hlarge hcount
    · have hmod := Nat.mod_le (fieldSize k x) (2 ^ 32)
      rw [if_neg (by rw [room]; omega)]
      exact Or.inl ⟨rfl, (Prod.mk.inj (Option.some.inj h)).2.symm⟩
    · rw [Nat.mod_eq_of_lt hcount] at hlarge
      rw [if_pos (by rw [room]; omega)]
      exact Or.inr ⟨k, x, rfl, (Prod.mk.inj (Option.some.inj h)).2.symm, rfl⟩

/-- A nested table, of which the fields take what is left. -/
theorem takes_nested {b c : BsonT} {key : Bytes} {asArray : Bool} {t : Tree}
    (ht : t.takes (room b) key = (HANDLE_KEY_LENGTH key).elim 0 fun k =>
      1 + k.length + 1 + 5 + fieldsTake (room b - (1 + k.length + 1 + 5)) t.children)
    (hchild : ∀ {child inner : BsonT}, writeFields child t.children = some inner →
      ∃ ds, inner = child.extend ds ∧ fieldsSize ds = fieldsTake (room child) t.children)
    (h : writeNested b key asArray t.children = some c) : Takes b key t c := by
  obtain ⟨p, hbegin, hmap⟩ := Option.bind_eq_some_iff.mp h
  obtain ⟨inner, hinner, rfl⟩ := Option.map_eq_some_iff.mp hmap
  obtain ⟨k, child⟩ := p
  rw [Option.join_eq_some_iff] at hbegin
  obtain ⟨hk, hroom, rfl⟩ := bson_append_begin_eq_some hbegin
  obtain ⟨ds, rfl, hsize⟩ := hchild hinner
  have hleft : room (b.child k) = room b - (1 + k.length + 1 + 5) := by
    simp only [room, BsonT.child_limit, BsonT.closed_child]
    omega
  refine Or.inr ⟨k, kindValue asArray ds, hk, rfl, ?_⟩
  rw [ht, hk, Option.elim_some, ← hleft, ← hsize, fieldSize, size_kindValue, docSize]
  omega

theorem exists_take_cons {b b₁ : BsonT} {key : Bytes} {t : Tree} {rest : List (Bytes × Tree)}
    {ds : Doc} (hfirst : Takes b key t b₁) (hds : fieldsSize ds = fieldsTake (room b₁) rest) :
    ∃ ds', b₁.extend ds = b.extend ds' ∧ fieldsSize ds' = fieldsTake (room b) ((key, t) :: rest) := by
  rw [fieldsTake]
  rcases hfirst with ⟨hnone, rfl⟩ | ⟨k, x, -, rfl, hsize⟩
  · exact ⟨ds, rfl, by rw [hnone, hds, Nat.zero_add, Nat.sub_zero]⟩
  · refine ⟨(k, x) :: ds, by rw [BsonT.extend_extend]; rfl, ?_⟩
    rw [room_extend] at hds
    rw [fieldsSize_cons, hds, hsize, fieldsSize_cons, fieldsSize_nil, Nat.add_zero]

mutual
theorem takes_of_writeField {b c : BsonT} {key : Bytes} {t : Tree}
    (h : writeField b key t = some c) : Takes b key t c := by
  cases t with
  | leaf v x =>
    rw [writeField_leaf] at h
    obtain ⟨⟨ok, c⟩, happend, rfl⟩ := Option.map_eq_some_iff.mp h
    exact takes_leaf v happend
  | doc fs =>
    rw [writeField_doc] at h
    exact takes_nested (by simp only [Tree.takes, Tree.children])
      (fun hchild => exists_take_of_writeFields hchild) h
  | array ts =>
    rw [writeField_array] at h
    exact takes_nested (by simp only [Tree.takes, Tree.children, elemsTake_eq])
      (fun hchild => exists_take_of_writeElems hchild) h

/-- The bytes that are written are those that the fields take. -/
theorem exists_take_of_writeFields {b c : BsonT} {fs : List (Bytes × Tree)}
    (h : writeFields b fs = some c) :
    ∃ ds, c = b.extend ds ∧ fieldsSize ds = fieldsTake (room b) fs := by
  match fs with
  | [] =>
    rw [writeFields_nil] at h
    exact ⟨[], by rw [← Option.some.inj h, BsonT.extend_nil], by simp [fieldsTake]⟩
  | (key, t) :: rest =>
    rw [writeFields_cons] at h
    obtain ⟨b₁, hfirst, hrest⟩ := Option.bind_eq_some_iff.mp h
    obtain ⟨ds, rfl, hds⟩ := exists_take_of_writeFields hrest
    exact exists_take_cons (takes_of_writeField hfirst) hds

theorem exists_take_of_writeElems {b c : BsonT} {i : Nat} {ts : List Tree}
    (h : writeFields b (Tree.indexed i ts) = some c) :
    ∃ ds, c = b.extend ds ∧ fieldsSize ds = fieldsTake (room b) (Tree.indexed i ts) := by
  match ts with
  | [] =>
    rw [Tree.indexed, writeFields_nil] at h
    exact ⟨[], by rw [← Option.some.inj h, BsonT.extend_nil], by simp [Tree.indexed, fieldsTake]⟩
  | t :: rest =>
    rw [Tree.indexed, writeFields_cons] at h
    obtain ⟨b₁, hfirst, hrest⟩ := Option.bind_eq_some_iff.mp h
    obtain ⟨ds, rfl, hds⟩ := exists_take_of_writeElems hrest
    exact exists_take_cons (takes_of_writeField hfirst) hds
end

/-- The document that a tree becomes has the size that its fields take. -/
theorem docSize_keptFields {fs : List (Bytes × Tree)} {ds : Doc} (h : keptFields fs = some ds) :
    docSize ds = 5 + fieldsTake (BSON_GROW_LIMIT - 5) fs := by
  obtain ⟨c, hwrite, rfl⟩ := Option.map_eq_some_iff.mp h
  obtain ⟨ds, rfl, hsize⟩ := exists_take_of_writeFields hwrite
  rw [room_bson_init] at hsize
  rw [BsonT.extend_fields, show BsonT.bson_init.fields = [] from rfl, List.nil_append, docSize, hsize]

/-- The first of the fields that a new document has room for comes under the key `"0"`. -/
def StartsAtZero : List (Bytes × Tree) → Prop
  | [] => False
  | (key, t) :: rest =>
    if t.takes (BSON_GROW_LIMIT - 5) key = 0 then StartsAtZero rest
    else HANDLE_KEY_LENGTH key = some (bytes "0")

instance decidableStartsAtZero : (fs : List (Bytes × Tree)) → Decidable (StartsAtZero fs)
  | [] => isFalse (fun h => h)
  | (_, _) :: rest =>
    have := decidableStartsAtZero rest
    inferInstanceAs (Decidable (ite _ _ _))

theorem isArray_keptFields {fs : List (Bytes × Tree)} {ds : Doc} (h : keptFields fs = some ds) :
    isArray ds = true ↔ StartsAtZero fs := by
  obtain ⟨c, hwrite, rfl⟩ := Option.map_eq_some_iff.mp h
  clear h
  induction fs with
  | nil =>
    rw [writeFields_nil] at hwrite
    rw [← Option.some.inj hwrite]
    exact iff_of_false (by simp [BsonT.bson_init, isArray]) (by simp [StartsAtZero])
  | cons f rest ih =>
    obtain ⟨key, t⟩ := f
    rw [writeFields_cons] at hwrite
    obtain ⟨b₁, hfirst, hrest⟩ := Option.bind_eq_some_iff.mp hwrite
    rw [StartsAtZero]
    rw [← room_bson_init]
    rcases takes_of_writeField hfirst with ⟨hnone, rfl⟩ | ⟨k, x, hk, rfl, hsize⟩
    · rw [if_pos hnone]
      exact ih hrest
    · obtain ⟨ds, rfl, -⟩ := exists_take_of_writeFields hrest
      have hpos : t.takes (room BsonT.bson_init) key ≠ 0 := by
        rw [hsize, fieldSize]
        omega
      rw [if_neg hpos, hk, Option.some.injEq]
      simp [BsonT.bson_init, isArray, cString_eq_self (nulFree_of_HANDLE_KEY_LENGTH hk)]

/-! ## Appending -/

/-- No byte but NUL behind the first NUL. -/
def NulsLast (s : Bytes) : Prop := ∀ c ∈ s.drop (cString s).length, c = 0

instance (s : Bytes) : Decidable (NulsLast s) :=
  decidable_of_iff ((s.drop (cString s).length).all (· == 0)) (by simp [NulsLast])

theorem cString_take (s : Bytes) (n : Nat) : cString (s.take n) = (cString s).take n := by
  induction s generalizing n with
  | nil => simp
  | cons c rest ih =>
    cases n with
    | zero => simp
    | succ n =>
      simp only [cString, List.take_succ_cons, List.takeWhile_cons] at ih ⊢
      split
      · rw [ih, List.take_succ_cons]
      · simp

theorem size_bson_strndup (s : Bytes) :
    (Value.utf8 (bson_strndup s)).size = (Value.utf8 s).size := by
  simp [Value.size, length_bson_strndup]

/-- A copy is the string when all behind the first NUL is NUL. -/
theorem bson_strndup_eq_self_iff (s : Bytes) : bson_strndup s = s ↔ NulsLast s := by
  have hsplit : s = cString s ++ s.drop (cString s).length := by
    conv => lhs; rw [← List.take_append_drop (cString s).length s]
    rw [List.append_left_inj]
    exact (List.prefix_iff_eq_take.mp (List.takeWhile_prefix _)).symm
  conv => lhs; rhs; rw [hsplit]
  rw [bson_strndup, List.append_cancel_left_eq, eq_comm, List.eq_replicate_iff, NulsLast]
  simp

theorem take_bson_strndup {s : Bytes} {n : Nat} (hn : n ≤ s.length) :
    (bson_strndup s).take n = bson_strndup (s.take n) := by
  have hle := length_cString_le s
  simp only [bson_strndup, cString_take, List.take_append, List.take_replicate, List.length_take,
    Nat.min_eq_left hn]
  congr 2
  omega

theorem cString_bson_strndup (s : Bytes) : cString (bson_strndup s) = cString s := by
  rw [bson_strndup]
  cases s.length - (cString s).length with
  | zero => simpa using cString_eq_self (nulFree_cString s)
  | succ n => exact cString_append_nul (nulFree_cString s) _

/-- What libbson counts of a copy. -/
theorem countedArg_bson_strndup (s : Bytes) :
    countedArg (bson_strndup s) = bson_strndup (countedArg s) := by
  simp only [countedArg, length_bson_strndup]
  by_cases hneg : cInt s.length < 0
  · rw [if_pos hneg, if_pos hneg, cutString, cString_bson_strndup, ← cutString]
    refine ((bson_strndup_eq_self_iff _).mpr ?_).symm
    rw [NulsLast, cString_eq_self (nulFree_cutString s), List.drop_length]
    simp
  · rw [if_neg hneg, if_neg hneg, take_bson_strndup]
    have hmod := Nat.mod_le s.length (2 ^ 32)
    unfold cInt at hneg ⊢
    split at hneg <;> omega

/-- What the two encoders see of one value is the same, up to the copy of a
string. -/
theorem EncodesArgument.tree_cases {E : Env} {top top' : Nat} {path : Finset Ref}
    {h h₁ h₂ : Heap Host} {v : LVal} {t t' : Tree} (harg : EncodesArgument E top h v h₁ t)
    (henc : Encodes E top' path h v h₂ t') :
    (∃ s, t = .leaf (.str s) (.utf8 (bson_strndup (countedArg s))) ∧
        t' = .leaf (.str s) (.utf8 (countedArg s))) ∨
      t = t' ∧ ∀ s x, t ≠ .leaf (.str s) x := by
  cases harg with
  | @leaf _ v' x hcall hleaf =>
    have htrans := transform_of_callToBSON hcall
    cases henc with
    | leaf htrans' hleaf' =>
      obtain ⟨rfl, rfl⟩ := Outcome.ok_prod_inj (htrans.symm.trans htrans')
      cases v' with
      | str s =>
        rw [← Option.some.inj hleaf, ← Option.some.inj hleaf', countedArg_bson_strndup]
        exact Or.inl ⟨s, rfl, rfl⟩
      | _ =>
        rw [argumentValue] at hleaf
        · rw [leafValue_unique hleaf hleaf']
          exact Or.inr ⟨rfl, by simp⟩
        · simp
    | table htrans' htype _ =>
      obtain ⟨rfl, rfl⟩ := Outcome.ok_prod_inj (htrans.symm.trans htrans')
      simp [argumentValue, leafValue_table htype] at hleaf
  | table hcall htype htable =>
    have htrans := transform_of_callToBSON hcall
    cases henc with
    | leaf htrans' hleaf' =>
      obtain ⟨rfl, rfl⟩ := Outcome.ok_prod_inj (htrans.symm.trans htrans')
      simp [leafValue_table htype] at hleaf'
    | table htrans' _ htable' =>
      obtain ⟨rfl, hr⟩ := Outcome.ok_prod_inj (htrans.symm.trans htrans')
      obtain rfl := Val.table.inj hr
      obtain ⟨-, rfl⟩ := htable.unique htable'
      refine Or.inr ⟨rfl, fun s x => ?_⟩
      cases htable <;> simp

/-- A new document keeps the value with its key: of a string its bytes, and of a
table the document that it becomes. -/
def KeepsBytes (key : Bytes) : Tree → Prop
  | .leaf (.str s) x => Storable key x.size → NulsLast (countedArg s)
  | .leaf _ _ => True
  | .doc fs => ∀ ds, keptFields fs = some ds → Storable key (docSize ds)
  | .array ts => ∀ ds, keptFields (Tree.array ts).children = some ds → Storable key (docSize ds)

/-- The table `{[key] = v}` is the document with the one field.  A table that the
field marks as an array has no element, and agrees with a document that does
not take the field. -/
def Agrees (E : Env) (key : Bytes) (v : LVal) (t : Tree) : Prop :=
  if Marks key v then
    declaredLength E v 0 = 0 ∧ ∀ x, t.kept = some x → ¬ Storable key x.size
  else KeepsBytes key t

/-- A string in place has the bytes of its copy exactly when it ends in NULs or
is too long for both. -/
theorem data_appended_string_iff {key s : Bytes} {d d' : Doc}
    (hd : appended key (.utf8 (bson_strndup s)) = some d)
    (hd' : appended key (.utf8 s) = some d') :
    bson_get_data d = bson_get_data d' ↔ (Storable key (Value.utf8 s).size → NulsLast s) := by
  by_cases hfits : Storable key (Value.utf8 s).size
  · obtain ⟨k, hk, -⟩ := id hfits
    rw [appended_of_storable hk (by rwa [size_bson_strndup])] at hd
    rw [appended_of_storable hk hfits] at hd'
    rw [← Option.some.inj hd, ← Option.some.inj hd', ← bson_strndup_eq_self_iff]
    refine ⟨fun hdata _ => ?_, fun hsame => by rw [hsame hfits]⟩
    have hvalue := (value_eq_of_data_eq hdata).2
    simp only [Value.data] at hvalue
    exact stringData_injective hvalue
  · rw [appended_of_not_storable hfits hd',
      appended_of_not_storable (by rwa [size_bson_strndup]) hd]
    simp [hfits]

/-- The field in place and the append agree on a value that the table does not
take for its mark. -/
theorem data_appended_kept_iff {key : Bytes} {t : Tree} {x : Value} {e : BsonT} {d : Doc}
    (hstr : ∀ s y, t ≠ .leaf (.str s) y) (hplace : writeField BsonT.bson_init key t = some e)
    (hkept : t.kept = some x) (hd : appended key x = some d) :
    bson_get_data d = bson_get_data e.fields ↔ KeepsBytes key t := by
  cases t with
  | leaf v y =>
    rw [writeField_leaf] at hplace
    obtain rfl := Option.some.inj hkept
    rw [appended_eq_some hplace] at hd
    rw [Option.some.inj hd]
    refine iff_of_true rfl ?_
    cases v with
    | str s => exact absurd rfl (hstr s y)
    | _ => trivial
  | doc fs =>
    rw [writeField_doc] at hplace
    obtain ⟨ds, hown, rfl⟩ := Option.map_eq_some_iff.mp hkept
    rw [data_appended_eq_iff hplace hown hd]
    simp [KeepsBytes, hown]
  | array ts =>
    rw [writeField_array] at hplace
    obtain ⟨ds, hown, rfl⟩ := Option.map_eq_some_iff.mp hkept
    rw [data_appended_eq_iff hplace hown hd]
    simp [KeepsBytes, hown]

/-- A table that a field marks as an array has its elements for fields. -/
theorem data_appended_marked_iff {E : Env} {key : Bytes} {v : LVal} {t : Tree} {d d' : Doc}
    (hmark : Marks key v) {x : Value} (hd' : appended key x = some d')
    (hfields : keptFields t.children = some d)
    (htree : (declaredLength E v 0 = 0 ∧ t = .array []) ∨
      (declaredLength E v 0 ≠ 0 ∧ ∃ ts, t = .array (.leaf .nil .null :: ts))) :
    bson_get_data d' = bson_get_data d ↔
      declaredLength E v 0 = 0 ∧ ¬ Storable key x.size := by
  have hkey : HANDLE_KEY_LENGTH key = some (bytes "__array") := by
    rw [hmark.1]
    decide
  rcases htree with ⟨hlen, rfl⟩ | ⟨hlen, ts, rfl⟩
  · have hd : d = [] := by
      simpa [keptFields, Tree.children, Tree.indexed, BsonT.bson_init] using hfields.symm
    rw [hd]
    by_cases hfits : Storable key x.size
    · rw [appended_of_storable hkey hfits] at hd'
      rw [← Option.some.inj hd']
      exact iff_of_false (Ne.symm (data_nil_ne_cons _ _)) fun h => h.2 hfits
    · rw [appended_of_not_storable hfits hd']
      exact iff_of_true rfl ⟨hlen, hfits⟩
  · have hinit : Writable (BsonT.bson_init.push (bytes "0") .null) := ⟨by decide, by decide⟩
    have hd : ∃ rest, d = (bytes "0", Value.null) :: rest := by
      obtain ⟨c, hwrite, rfl⟩ := Option.map_eq_some_iff.mp hfields
      have hfirst : (bson_append BsonT.bson_init (uint32_to_string 0) .null).map Prod.snd =
          some (BsonT.bson_init.push (bytes "0") .null) := by rfl
      rw [Tree.children, Tree.indexed, writeFields_cons, writeField_leaf, hfirst,
        Option.bind_some] at hwrite
      obtain ⟨ds, rfl, -⟩ := exists_extend_of_writeFields hinit hwrite
      exact ⟨ds, rfl⟩
    obtain ⟨rest, rfl⟩ := hd
    refine iff_of_false ?_ fun h => hlen h.1
    by_cases hfits : Storable key x.size
    · rw [appended_of_storable hkey hfits] at hd'
      rw [← Option.some.inj hd']
      intro hdata
      exact absurd (key_eq_of_data_eq (by decide) (by decide) hdata) (by decide)
    · rw [appended_of_not_storable hfits hd']
      exact data_nil_ne_cons _ _

/-- Appending a value to an empty object gives the bytes of the table with that
one field exactly when the field does not mark the table as an array, the value
is no string with more than NULs behind a NUL, and a table fits with the key
into a new document. -/
theorem append_agrees_iff {E : Env} {h h₁ h₂ h₁' h₂' : Heap Host} {w : Ref} {k : Bytes}
    {v : LVal} {t root : Tree} {b : BsonT} {d : Doc} (hw : Singleton h w k v)
    (harg : EncodesArgument E 3 h v h₁ t) (htable : EncodesTable E 3 ∅ h w h₂ root)
    (happend : m_append E 3 h BsonT.bson_init (.str k) v = .ok (h₁', b))
    (hnew : newBSON E h (.table w) = .ok (h₂', d)) :
    bson_get_data b.fields = bson_get_data d ↔ Agrees E k v t := by
  rw [m_append_eq harg] at happend
  rw [newBSON_eq rfl (hw.callToBSON E) htable] at hnew
  obtain ⟨p, hp, hb⟩ := Outcome.elim_undefined_eq_ok_iff.mp happend
  obtain ⟨x, hkept, hx⟩ := Option.bind_eq_some_iff.mp hp
  obtain ⟨ds, hfields, hd⟩ := Outcome.elim_undefined_eq_ok_iff.mp hnew
  obtain ⟨rfl, rfl⟩ := Outcome.ok_prod_inj hb
  obtain ⟨rfl, rfl⟩ := Outcome.ok_prod_inj hd
  have hone : appended k x = some p.2.fields := by
    rw [appended, hx]
    rfl
  unfold Agrees
  by_cases hmark : Marks k v
  · rw [if_pos hmark, data_appended_marked_iff hmark hone hfields
      (hw.encodesTable_marked hmark htable), hkept]
    simp
  · rw [if_neg hmark]
    obtain ⟨t', rfl, henc⟩ := hw.encodesTable hmark htable
    obtain ⟨e, hplace, rfl⟩ := Option.map_eq_some_iff.mp hfields
    rw [Tree.children, writeFields_cons] at hplace
    simp only [writeFields_nil, Option.bind_fun_some] at hplace
    rcases harg.tree_cases henc with ⟨s, rfl, rfl⟩ | ⟨rfl, hstr⟩
    · rw [writeField_leaf] at hplace
      obtain rfl := Option.some.inj hkept
      rw [KeepsBytes, size_bson_strndup]
      exact data_appended_string_iff hone (appended_eq_some hplace)
    · exact data_appended_kept_iff hstr hplace hkept hone

/-- The heap with the one table `{[key] = v}`. -/
def fieldHeap (key : Bytes) (v : LVal) : Heap Host := [Table.empty.rawset (.str key) v]

theorem singleton_fieldHeap (key : Bytes) {v : LVal} (hv : v.isNil = false) :
    Singleton (fieldHeap key v) 0 key v where
  plain := rfl
  entries := by simp [fieldHeap, Heap.get, Table.rawset, Table.empty, setEntries, hv]

theorem append_agrees_one :
    Agrees Env.bare (bytes "k") (.str (bytes "v")) (.leaf (.str (bytes "v")) (.utf8 (bytes "v"))) ∧
      bson_get_data (BsonT.bson_init.push (bytes "k") (.utf8 (bytes "v"))).fields =
        bson_get_data [(bytes "k", .utf8 (bytes "v"))] := by
  have hw := singleton_fieldHeap (bytes "k") (v := .str (bytes "v")) rfl
  have htable : EncodesTable Env.bare 3 ∅ (fieldHeap (bytes "k") (.str (bytes "v"))) 0
      (fieldHeap (bytes "k") (.str (bytes "v")))
      (.doc [(bytes "k", .leaf (.str (bytes "v")) (.utf8 (bytes "v")))]) := by
    refine .doc ⟨by decide, rfl, by simp⟩ (hw.getArrayLength Env.bare) ?_
    rw [hw.entries]
    exact .cons (.leaf rfl rfl) .nil
  have hagrees : Agrees Env.bare (bytes "k") (.str (bytes "v"))
      (.leaf (.str (bytes "v")) (.utf8 (bytes "v"))) := by
    rw [Agrees, if_neg (by decide)]
    exact fun _ => by decide
  exact ⟨hagrees, (append_agrees_iff hw (.leaf rfl rfl) htable rfl rfl).mpr hagrees⟩

/-- Of the text `"a\0b"` the copy keeps the bytes below the NUL, and the table
keeps all three. -/
theorem append_cuts_text :
    Singleton (fieldHeap (bytes "k") (.str [97, 0, 98])) 0 (bytes "k") (.str [97, 0, 98]) ∧
    m_append Env.bare 3 (fieldHeap (bytes "k") (.str [97, 0, 98])) BsonT.bson_init
        (.str (bytes "k")) (.str [97, 0, 98]) =
      .ok (fieldHeap (bytes "k") (.str [97, 0, 98]),
        BsonT.bson_init.push (bytes "k") (.utf8 [97, 0, 0])) ∧
    newBSON Env.bare (fieldHeap (bytes "k") (.str [97, 0, 98])) (.table 0) =
      .ok (fieldHeap (bytes "k") (.str [97, 0, 98]), [(bytes "k", .utf8 [97, 0, 98])]) ∧
    bson_get_data (BsonT.bson_init.push (bytes "k") (.utf8 [97, 0, 0])).fields ≠
      bson_get_data [(bytes "k", .utf8 [97, 0, 98])] :=
  ⟨singleton_fieldHeap _ rfl, rfl, rfl, by decide⟩

/-! ## Wrapping -/

/-- What `mongo.bson` sees in a value that is no text. -/
inductive EncodesCast (E : Env) (h : Heap Host) (v : LVal) : Heap Host → Tree → Prop where
  | bson {h' : Heap Host} {doc : Doc} (hcall : callToBSON E h v = .ok (h', .host (.bson doc))) :
      EncodesCast E h v h' (.leaf (.host (.bson doc)) (kindValue (isArray doc) doc))
  | table {h₁ h' : Heap Host} {r : Ref} {t : Tree} (hcall : callToBSON E h v = .ok (h₁, .table r))
      (htable : EncodesTable E 3 ∅ h₁ r h' t) : EncodesCast E h v h' t

/-- What there is room for of a document does not begin with the key `"0"`, that of an array
does, and it leaves room for the key. -/
def WrapsSame (key : Bytes) : Tree → Prop
  | .leaf _ _ => True
  | .doc fs =>
    key = bytes "__array" ∨
      Storable key (5 + fieldsTake (BSON_GROW_LIMIT - 5) fs) ∧ ¬ StartsAtZero fs
  | .array ts =>
    key = bytes "__array" ∨
      Storable key (5 + elemsTake (BSON_GROW_LIMIT - 5) 0 ts) ∧
        StartsAtZero (Tree.array ts).children

/-- `mongo.bson` on a table with a BSON object for its one field. -/
theorem Singleton.newBSON_bson {h : Heap Host} {w : Ref} {k : Bytes} {doc : Doc}
    (hw : Singleton h w k (.host (.bson doc))) (E : Env) :
    newBSON E h (.table w) =
      if k = bytes "__array" then .ok (h, [])
      else (appended k (kindValue (isArray doc) doc)).elim .undefined fun d => .ok (h, d) := by
  have hlen := hw.getArrayLength E
  have hopen : Opens 3 ∅ h w := ⟨by decide, hw.plain, by simp⟩
  by_cases hk : k = bytes "__array"
  · rw [if_pos ⟨hk, rfl⟩] at hlen
    have htable : EncodesTable E 3 ∅ h w h (.array []) := .array (n := 0) hopen hlen .nil
    rw [newBSON_eq rfl (hw.callToBSON E) htable, if_pos hk]
    simp [keptFields, Tree.children, Tree.indexed, BsonT.bson_init]
  · rw [if_neg fun hm : Marks k _ => hk hm.1] at hlen
    have htable : EncodesTable E 3 ∅ h w h
        (.doc [(k, .leaf (.host (.bson doc)) (kindValue (isArray doc) doc))]) := by
      refine .doc hopen hlen ?_
      rw [hw.entries]
      exact .cons (.leaf rfl rfl) .nil
    rw [newBSON_eq rfl (hw.callToBSON E) htable, if_neg hk]
    simp only [keptFields, Tree.children, appended, writeFields_cons, writeField_leaf,
      writeFields_nil, Option.bind_fun_some, Option.map_map]
    rfl

/-- Wrapping a table as a BSON object and then putting it under a key gives the
bytes of the table under that key exactly when the object looks like what the
table is: an array when its first key is `"0"`, else a document. -/
theorem wrapping_agrees_iff {E : Env} {h h₁ h₂ h₁' h₂' h₃ : Heap Host} {w r w' : Ref} {k : Bytes}
    {t root : Tree} {doc d : Doc} (hw : Singleton h w k (.table r))
    (hcast : EncodesCast E h (.table r) h₁ t) (htable : EncodesTable E 3 ∅ h w h₂ root)
    (hdoc : newBSON E h (.table r) = .ok (h₁', doc))
    (hnew : newBSON E h (.table w) = .ok (h₂', d)) (hw' : Singleton h₃ w' k (.host (.bson doc))) :
    ∃ d', newBSON E h₃ (.table w') = .ok (h₃, d') ∧
      (bson_get_data d' = bson_get_data d ↔ WrapsSame k t) := by
  rw [newBSON_eq rfl (hw.callToBSON E) htable] at hnew
  obtain ⟨ds, hfields, hd⟩ := Outcome.elim_undefined_eq_ok_iff.mp hnew
  obtain ⟨rfl, rfl⟩ := Outcome.ok_prod_inj hd
  by_cases hk : k = bytes "__array"
  · refine ⟨[], by rw [hw'.newBSON_bson E, if_pos hk], ?_⟩
    rcases hw.encodesTable_marked ⟨hk, rfl⟩ htable with ⟨-, rfl⟩ | ⟨hlen, -⟩
    · have hempty : ds = [] := by
        simpa [keptFields, Tree.children, Tree.indexed, BsonT.bson_init] using hfields.symm
      refine iff_of_true (by rw [hempty]) ?_
      cases t with
      | leaf _ _ => trivial
      | doc _ => exact Or.inl hk
      | array _ => exact Or.inl hk
    · exact absurd rfl hlen
  · suffices hsuff : ∃ d', appended k (kindValue (isArray doc) doc) = some d' ∧
        (bson_get_data d' = bson_get_data ds ↔ WrapsSame k t) by
      obtain ⟨d', hd', hdata⟩ := hsuff
      exact ⟨d', by rw [hw'.newBSON_bson E, if_neg hk, hd', Option.elim_some], hdata⟩
    obtain ⟨t', rfl, henc⟩ := hw.encodesTable (fun hm => hk hm.1) htable
    obtain ⟨e, hplace, rfl⟩ := Option.map_eq_some_iff.mp hfields
    rw [Tree.children, writeFields_cons] at hplace
    simp only [writeFields_nil, Option.bind_fun_some] at hplace
    cases hcast with
    | @bson _ doc' hcall =>
      have hsame : Encodes E 5 (insert w ∅) h (.table r) h₁
          (.leaf (.host (.bson doc')) (kindValue (isArray doc') doc')) :=
        .leaf (transform_of_callToBSON hcall) rfl
      obtain ⟨-, rfl⟩ := hsame.unique henc
      simp only [newBSON, castBSON, tolstring, hcall, Outcome.ok_bind] at hdoc
      obtain ⟨-, rfl⟩ := Outcome.ok_prod_inj hdoc
      rw [writeField_leaf] at hplace
      exact ⟨_, appended_eq_some hplace, iff_of_true rfl trivial⟩
    | @table h₀ _ r' _ hcall hroot =>
      rw [newBSON_eq rfl hcall hroot] at hdoc
      obtain ⟨ds, hown, hds⟩ := Outcome.elim_undefined_eq_ok_iff.mp hdoc
      obtain ⟨rfl, rfl⟩ := Outcome.ok_prod_inj hds
      obtain ⟨-, rfl⟩ := hroot.encodes (transform_of_callToBSON hcall) henc
      cases t with
      | leaf _ _ => cases hroot
      | doc fs =>
        rw [writeField_doc] at hplace
        obtain ⟨d', hd'⟩ := exists_appended hplace hown _
        refine ⟨d', hd', ?_⟩
        rw [data_appended_eq_iff hplace hown hd']
        simp only [Tree.children] at hown
        rw [WrapsSame, ← docSize_keptFields hown, ← isArray_keptFields hown]
        simp [hk]
      | array ts =>
        rw [writeField_array] at hplace
        obtain ⟨d', hd'⟩ := exists_appended hplace hown _
        refine ⟨d', hd', ?_⟩
        rw [data_appended_eq_iff hplace hown hd', WrapsSame, ← isArray_keptFields hown, elemsTake_eq]
        rw [show Tree.indexed 0 ts = (Tree.array ts).children from rfl, ← docSize_keptFields hown]
        simp [hk]

/-- The heap with `{k = t}` and the table `t`. -/
def nestedHeap (t : Table Host) : Heap Host :=
  [Table.empty.rawset (.str (bytes "k")) (.table 1), t]

theorem singleton_nestedHeap (t : Table Host) :
    Singleton (nestedHeap t) 0 (bytes "k") (.table 1) := ⟨rfl, rfl⟩

/-- The table `{a = 1}`. -/
def oneField : Table Host := Table.empty.rawset (.str (bytes "a")) (.int 1)

theorem wrapping_agrees_one :
    ∃ d', newBSON Env.bare
        (fieldHeap (bytes "k") (.host (.bson [(bytes "a", .int32 1)]))) (.table 0) =
          .ok (fieldHeap (bytes "k") (.host (.bson [(bytes "a", .int32 1)])), d') ∧
      WrapsSame (bytes "k") (.doc [(bytes "a", .leaf (.int 1) (.int32 1))]) ∧
      bson_get_data d' = bson_get_data [(bytes "k", .document [(bytes "a", .int32 1)])] := by
  have hinner : ∀ top path, top < MAXSTACK → 1 ∉ path →
      EncodesTable Env.bare top path (nestedHeap oneField) 1 (nestedHeap oneField)
        (.doc [(bytes "a", .leaf (.int 1) (.int32 1))]) := fun top path htop hpath =>
    .doc ⟨htop, rfl, hpath⟩ rfl (.cons (.leaf rfl rfl) .nil)
  have hw := singleton_nestedHeap oneField
  have hcast : EncodesCast Env.bare (nestedHeap oneField) (.table 1) (nestedHeap oneField)
      (.doc [(bytes "a", .leaf (.int 1) (.int32 1))]) :=
    .table rfl (hinner 3 ∅ (by decide) (by simp))
  have htable : EncodesTable Env.bare 3 ∅ (nestedHeap oneField) 0 (nestedHeap oneField)
      (.doc [(bytes "k", .doc [(bytes "a", .leaf (.int 1) (.int32 1))])]) :=
    .doc ⟨by decide, rfl, by simp⟩ rfl
      (.cons (.table rfl rfl (hinner 5 {0} (by decide) (by simp))) .nil)
  have hsame : WrapsSame (bytes "k") (.doc [(bytes "a", .leaf (.int 1) (.int32 1))]) := by
    refine Or.inr ⟨⟨bytes "k", rfl, ?_⟩, by decide⟩
    decide
  obtain ⟨d', hrun, hiff⟩ :=
    wrapping_agrees_iff hw hcast htable rfl rfl (singleton_fieldHeap _ rfl)
  exact ⟨d', hrun, hsame, hiff.mpr hsame⟩

/-- The empty array `{__array = true}` is an array under its key, and wrapped it
is an empty document there. -/
theorem wrapping_loses_empty_array :
    Singleton (nestedHeap (Table.empty.rawset (.str (bytes "__array")) (.bool true))) 0
      (bytes "k") (.table 1) ∧
    newBSON Env.bare (nestedHeap (Table.empty.rawset (.str (bytes "__array")) (.bool true)))
        (.table 1) =
      .ok (nestedHeap (Table.empty.rawset (.str (bytes "__array")) (.bool true)), []) ∧
    newBSON Env.bare (nestedHeap (Table.empty.rawset (.str (bytes "__array")) (.bool true)))
        (.table 0) =
      .ok (nestedHeap (Table.empty.rawset (.str (bytes "__array")) (.bool true)),
        [(bytes "k", .array [])]) ∧
    newBSON Env.bare (fieldHeap (bytes "k") (.host (.bson []))) (.table 0) =
      .ok (fieldHeap (bytes "k") (.host (.bson [])), [(bytes "k", .document [])]) ∧
    bson_get_data [(bytes "k", .document [])] ≠ bson_get_data [(bytes "k", .array [])] :=
  ⟨singleton_nestedHeap _, rfl, rfl, rfl, by decide⟩

end Vklib.Mongo
