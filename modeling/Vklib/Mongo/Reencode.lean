import Vklib.Mongo.DecodeSpec
import Vklib.Mongo.EncodeSpec
import Vklib.Bson.Compare

/-!
# Decode, then encode

A decoded document is a table with its keys, so a document with a field
`__array` is taken for an array when it is encoded again, and a root whose first
key is `"0"` is decoded as an array, which gives its fields new keys.

`Reread` is the step in between: the tree that the encoder sees at the tables
that the decoder has made.  The order in which `lua_next` walks a table is not
fixed, so the tables may be reordered first (`Reordered`), and a tree is one for
some order of the fields.  `Decoded.unfolds` says that the encoder sees such a
tree, and `Reread.same` that its value is the document again, unless a flagged
document is in the way.

The number of documents decides the other direction.  No step of the way adds a
document, and a flagged one is lost (`Reread.unflagged`).
-/

namespace Vklib.Mongo

open Vklib.Lua Vklib.Bson

/-! ## Valid documents -/

mutual
/-- The keys of each document are C strings. -/
def KeysCString : Value → Prop
  | .document fs => DocKeysCString fs
  | .array fs => DocKeysCString fs
  | _ => True

def DocKeysCString : List (Bytes × Value) → Prop
  | [] => True
  | (key, v) :: rest => NulFree key ∧ KeysCString v ∧ DocKeysCString rest
end

/-- The keys are the numbers from `i` up, in order. -/
def NumberedFrom (i : Nat) : Doc → Prop
  | [] => True
  | (key, _) :: rest => key = uint32_to_string i ∧ NumberedFrom (i + 1) rest

mutual
/-- The keys of each array are the numbers from `0` up. -/
def ArraysNumbered : Value → Prop
  | .document fs => DocArraysNumbered fs
  | .array fs => NumberedFrom 0 fs ∧ DocArraysNumbered fs
  | _ => True

def DocArraysNumbered : List (Bytes × Value) → Prop
  | [] => True
  | (_, v) :: rest => ArraysNumbered v ∧ DocArraysNumbered rest
end

/-- A valid document of the plain types, with distinct keys and numbered
arrays. -/
structure ValidDoc (b : Doc) : Prop where
  plain : DocPlain b
  nodup : (b.map Prod.fst).Nodup
  distinct : DocKeysDistinct b
  cstring : DocKeysCString b
  numbered : DocArraysNumbered b
  size : docSize b ≤ BSON_MAX_SIZE

mutual
/-- The nesting is below the limit of the encoder, for a value in the topmost of
`top` slots. -/
def Nested (top : Nat) : Value → Prop
  | .document fs => top < MAXSTACK ∧ DocNested (top + 2) fs
  | .array fs => top < MAXSTACK ∧ DocNested (top + 1) fs
  | _ => True

def DocNested (top : Nat) : List (Bytes × Value) → Prop
  | [] => True
  | (_, v) :: rest => Nested top v ∧ DocNested top rest
end

/-! ## Flags -/

/-- The document has a field `__array` whose Lua value counts as true. -/
def Flagged (fs : Doc) : Prop := ∃ v, (bytes "__array", v) ∈ fs ∧ v ≠ .bool false

theorem not_flagged_of_notMem {fs : Doc} (h : bytes "__array" ∉ fs.map Prod.fst) :
    ¬ Flagged fs := by
  rintro ⟨v, hmem, -⟩
  exact h (List.mem_map.mpr ⟨_, hmem, rfl⟩)

mutual
/-- No document of the value is flagged. -/
def Unflagged : Value → Prop
  | .document fs => ¬ Flagged fs ∧ DocUnflagged fs
  | .array fs => DocUnflagged fs
  | _ => True

def DocUnflagged : List (Bytes × Value) → Prop
  | [] => True
  | (_, v) :: rest => Unflagged v ∧ DocUnflagged rest
end

/-- What `pushBSON` takes the root for. -/
def rootValue (b : Doc) : Value := if isArray b then .array b else .document b

/-- The values under the numbers from `i` up. -/
def renumber (i : Nat) : Doc → Doc
  | [] => []
  | (_, v) :: rest => (uint32_to_string i, v) :: renumber (i + 1) rest

/-- `pushBSON` is `unpackValue` on the root. -/
theorem pushBSON_eq (E : Env) (handler : LVal) (top : Nat) (L : State) (b : Doc) :
    pushBSON E handler top L b = unpackValue E handler (top + 1) L (rootValue b) := by
  unfold pushBSON rootValue
  cases isArray b <;> simp only [if_true, if_false, Bool.false_eq_true, unpackValue]

/-! ## Orders of a table -/

/-- The second heap has the tables of the first, with their entries in some
order. -/
structure Reordered (h h' : Heap Host) : Prop where
  length : h'.length = h.length
  entries : ∀ r, (h'.get r).entries.Perm (h.get r).entries
  metatable : ∀ r, (h'.get r).metatable = (h.get r).metatable

theorem Reordered.refl (h : Heap Host) : Reordered h h := ⟨rfl, fun _ => .refl _, fun _ => rfl⟩

theorem Reordered.get {h h' : Heap Host} (hre : Reordered h h') (r : Ref) (k : Key) :
    (h'.get r).get k = (h.get r).get k :=
  lookup_perm (h.get r).keys_nodup (hre.entries r) k

theorem Reordered.plain {h h' : Heap Host} (hre : Reordered h h') {r : Ref}
    (hplain : PlainTable h r) : PlainTable h' r :=
  ⟨by rw [hre.length]; exact hplain.1, by rw [hre.metatable]; exact hplain.2⟩

theorem Reordered.isNullSingleton {h h' : Heap Host} (hre : Reordered h h') {lo : Ref} {v : LVal}
    (hnull : IsNullSingleton lo h v) : IsNullSingleton lo h' v := by
  obtain ⟨r, m, rfl, hlor, hlom, hr, hm, hentries, hmeta, htype, htoBSON⟩ := hnull
  refine ⟨r, m, rfl, hlor, hlom, by rw [hre.length]; exact hr, by rw [hre.length]; exact hm, ?_,
    by rw [hre.metatable, hmeta], by rw [hre.get, htype], by rw [hre.get, htoBSON]⟩
  have hperm := hre.entries r
  rw [hentries] at hperm
  exact hperm.eq_nil

/-! ## What the encoder sees -/

mutual
/-- The tree that the encoder sees at what is decoded of a value, in some order
of the fields.  A flagged document is an array of nulls. -/
def Reread : Value → Tree → Prop
  | .document fs, t =>
    (Flagged fs ∧ ∃ n, t = .array (List.replicate n (.leaf .nil .null))) ∨
      (¬ Flagged fs ∧ ∃ gs gs', t = .doc gs ∧ gs'.Perm gs ∧ FieldsReread fs gs')
  | .array fs, t => ∃ ts, t = .array ts ∧ ElemsReread fs ts
  | x, t => ∃ v y, t = .leaf v y ∧ Same x y ∧ y.size = leastSize x

def FieldsReread : List (Bytes × Value) → List (Bytes × Tree) → Prop
  | [], [] => True
  | (key, v) :: fs, (k, t) :: gs => k = key ∧ Reread v t ∧ FieldsReread fs gs
  | _, _ => False

def ElemsReread : List (Bytes × Value) → List Tree → Prop
  | [], [] => True
  | (_, v) :: fs, t :: ts => Reread v t ∧ ElemsReread fs ts
  | _, _ => False
end

/-- The value that the encoder writes for a number. -/
def numberValue : Int64 ⊕ F64 → Value
  | .inl i => integerValue i
  | .inr f => .double f

theorem numericValue_numberValue {x : Value} {n : Int64 ⊕ F64} (hx : numericValue x = some n) :
    numericValue (numberValue n) = some n := by
  cases n with
  | inl i =>
    simp only [numberValue, integerValue]
    split
    · rename_i h
      simp only [numericValue, toInt32_toInt64_of_isInt32 h]
    · rfl
  | inr f =>
    cases x with
    | double y =>
      simp only [numericValue] at hx
      split at hx
      · simp at hx
      · rename_i hint
        obtain rfl := Sum.inr.inj (Option.some.inj hx)
        simp only [numberValue, numericValue, hint]
    | _ => simp [numericValue] at hx

theorem size_numberValue (n : Int64 ⊕ F64) : (numberValue n).size = numberSize n := by
  cases n with
  | inl i =>
    simp only [numberValue, integerValue, numberSize]
    split <;> simp [Value.size]
  | inr f => simp [numberValue, numberSize, Value.size]

/-- A decoded number is written in its shortest encoding. -/
theorem leafValue_number {E : Env} {h : Heap Host} {slots : Slot → LVal} {x : Value}
    {n : Int64 ⊕ F64} (hx : numericValue x = some n) {w : LVal} (hw : scalarOf slots x = some w)
    (top : Nat) : leafValue E top h w = some (numberValue n) := by
  cases x with
  | int32 i | int64 i =>
    obtain rfl := Option.some.inj hx
    obtain rfl := Option.some.inj hw
    rfl
  | double f =>
    obtain rfl := Option.some.inj hw
    simp only [numericValue] at hx
    simp only [leafValue]
    cases hint : f.toInteger? with
    | some i =>
      rw [hint] at hx
      rw [← Option.some.inj hx, numberValue]
    | none =>
      rw [hint] at hx
      rw [← Option.some.inj hx, numberValue]
  | _ => simp [numericValue] at hx

/-- The null singleton is written as null. -/
theorem IsNullSingleton.isLeaf {E : Env} {lo : Ref} {h : Heap Host} {v : LVal}
    (hnull : IsNullSingleton lo h v) : IsLeaf E h v .null := by
  obtain ⟨r, m, rfl, -, -, hr, hm, hentries, hmeta, htype, htoBSON⟩ := hnull
  have hfield : ∀ name, h.getmetafield (.table r) name = (h.get m).get (.str name) := by
    intro name
    simp [Heap.getmetafield, Heap.metatable, hmeta]
  have hborder : (h.get r).rawlen = 0 := by
    rcases (h.get r).border.1 with h0 | hne
    · exact h0
    · simp [hentries] at hne
  refine ⟨by rw [hfield, htoBSON], fun top htop => ?_⟩
  have hstack : checkstack (top + 1) (LUA_MINSTACK + 0) = true := by
    unfold MAXSTACK at htop
    refine decide_eq_true ?_
    unfold EXTRA_STACK LUAI_MAXSTACK LUA_MINSTACK
    omega
  simp only [leafValue, hfield, htype, hborder, if_pos hstack]
  rfl

/-- A decoded scalar is written as the same value. -/
theorem isLeaf_of_scalarOf {E : Env} {slots : Slot → LVal} {lo : Ref} {h : Heap Host}
    (hnull : IsNullSingleton lo h (slots .GLOBAL_NULL)) {x : Value} {w : LVal}
    (hw : scalarOf slots x = some w) (hsize : x.size ≤ BSON_MAX_SIZE) :
    ∃ y, IsLeaf E h w y ∧ Same x y ∧ y.size = leastSize x := by
  have hscalar : IsScalar x := by cases x <;> simp_all [scalarOf, IsScalar]
  cases hx : numericValue x with
  | some n =>
    refine ⟨numberValue n, ⟨?_, fun top _ => leafValue_number hx hw top⟩, ?_, ?_⟩
    · cases x <;> simp [numericValue] at hx <;> obtain rfl := Option.some.inj hw <;> rfl
    · rw [same_scalar hscalar, hx]
      exact numericValue_numberValue hx
    · rw [leastSize_scalar hscalar, hx]
      exact size_numberValue n
  | none =>
    refine ⟨x, ?_, Same.refl x, by rw [leastSize_scalar hscalar, hx]⟩
    cases x with
    | null =>
      obtain rfl := Option.some.inj hw
      exact hnull.isLeaf
    | utf8 s =>
      obtain rfl := Option.some.inj hw
      simp only [Value.size, BSON_MAX_SIZE] at hsize
      refine ⟨rfl, fun top _ => ?_⟩
      simp only [leafValue, countedArg_eq_self (s := s) (by omega)]
    | bool b | oid id =>
      obtain rfl := Option.some.inj hw
      exact ⟨rfl, fun top _ => rfl⟩
    | int32 | int64 => simp [numericValue] at hx
    | double f =>
      simp only [numericValue] at hx
      split at hx <;> simp at hx
    | _ => simp [scalarOf] at hw

/-! ## From the decoded tables to the tree -/

theorem DecodedFields.exists_entry {slots : Slot → LVal} {h : Heap Host} {lo : Ref} {fs : Doc}
    {es : List (Key × LVal)} (hfs : DecodedFields slots h lo fs es) {key : Bytes} {v : Value}
    (hmem : (key, v) ∈ fs) : ∃ w, (Key.str key, w) ∈ es ∧ Decoded slots h lo v w := by
  induction fs generalizing es with
  | nil => simp at hmem
  | cons f rest ih =>
    obtain ⟨key', v'⟩ := f
    cases es with
    | nil => simp [DecodedFields] at hfs
    | cons e es =>
      obtain ⟨k, w⟩ := e
      simp only [DecodedFields] at hfs
      rcases List.mem_cons.mp hmem with heq | hrest
      · cases heq
        exact ⟨w, by simp [hfs.1], hfs.2.1⟩
      · obtain ⟨w', hw', hdecoded⟩ := ih hfs.2.2 hrest
        exact ⟨w', List.mem_cons_of_mem _ hw', hdecoded⟩

theorem DecodedFields.exists_field {slots : Slot → LVal} {h : Heap Host} {lo : Ref} {fs : Doc}
    {es : List (Key × LVal)} (hfs : DecodedFields slots h lo fs es) {k : Key} {w : LVal}
    (hmem : (k, w) ∈ es) : ∃ key v, k = .str key ∧ (key, v) ∈ fs ∧ Decoded slots h lo v w := by
  induction fs generalizing es with
  | nil => cases es <;> simp_all [DecodedFields]
  | cons f rest ih =>
    obtain ⟨key', v'⟩ := f
    cases es with
    | nil => simp at hmem
    | cons e es =>
      obtain ⟨k', w'⟩ := e
      simp only [DecodedFields] at hfs
      rcases List.mem_cons.mp hmem with heq | hrest
      · cases heq
        exact ⟨key', v', hfs.1, by simp, hfs.2.1⟩
      · obtain ⟨key, v, hk, hv, hdecoded⟩ := ih hfs.2.2 hrest
        exact ⟨key, v, hk, List.mem_cons_of_mem _ hv, hdecoded⟩

/-- Everything but `false` counts as true once it is decoded. -/
theorem Decoded.truthy_iff {slots : Slot → LVal} {h h' : Heap Host} {lo lo' : Ref}
    (hnull : IsNullSingleton lo' h' (slots .GLOBAL_NULL)) {v : Value} {w : LVal}
    (hv : Decoded slots h lo v w) : w.truthy = true ↔ v ≠ .bool false := by
  obtain ⟨r, m, hslot, -⟩ := hnull
  cases v with
  | document fs =>
    simp only [Decoded] at hv
    obtain ⟨r, rfl, -⟩ := hv
    simp [Val.truthy]
  | array fs =>
    simp only [Decoded] at hv
    obtain ⟨r, es, rfl, -⟩ := hv
    simp [Val.truthy]
  | null | bool | int32 | int64 | double | utf8 | oid =>
    simp only [Decoded, scalarOf, Option.some.injEq] at hv
    simp [← hv, hslot, Val.truthy]
  | _ => simp [Decoded, scalarOf] at hv

/-- The flag of a table that was decoded from a document. -/
theorem DecodedFields.flag_iff {slots : Slot → LVal} {h h' : Heap Host} {lo lo' : Ref}
    (hnull : IsNullSingleton lo' h' (slots .GLOBAL_NULL)) {fs : Doc} {t : Table Host}
    (hfs : DecodedFields slots h lo fs t.entries) :
    (t.get (.str (bytes "__array"))).truthy = true ↔ Flagged fs := by
  constructor
  · intro htrue
    have hne : t.get (.str (bytes "__array")) ≠ .nil := by
      intro hnil
      simp [hnil, Val.truthy] at htrue
    obtain ⟨key, v, hkey, hmem, hdecoded⟩ := hfs.exists_field (mem_of_lookup hne)
    obtain rfl := Key.str.inj hkey
    exact ⟨v, hmem, (hdecoded.truthy_iff hnull).mp htrue⟩
  · rintro ⟨v, hmem, hv⟩
    obtain ⟨w, hw, hdecoded⟩ := hfs.exists_entry hmem
    have hget : t.get (.str (bytes "__array")) = w := lookup_of_mem t.keys_nodup hw
    rw [hget]
    exact (hdecoded.truthy_iff hnull).mpr hv

/-- A table that was decoded from a document has no indices. -/
theorem DecodedFields.get_int {slots : Slot → LVal} {h : Heap Host} {lo : Ref} {fs : Doc}
    {t : Table Host} (hfs : DecodedFields slots h lo fs t.entries) (i : Int) :
    t.get (.int i) = .nil := by
  by_contra hne
  obtain ⟨key, v, hkey, -⟩ := hfs.exists_field (mem_of_lookup hne)
  simp at hkey

/-- Indices that are not in use are nulls. -/
theorem unfoldsElems_nil {E : Env} {h : Heap Host} {t : Table Host}
    (hnil : ∀ i, t.get (.int i) = .nil) (i n : Nat) :
    UnfoldsElems E h (elementsFrom t i n) (List.replicate n (.leaf .nil .null)) := by
  induction n generalizing i with
  | zero => exact .nil
  | succ n ih =>
    rw [elementsFrom, List.replicate_succ, hnil]
    exact .cons (.leaf ⟨rfl, fun _ _ => rfl⟩) (ih (i + 1))

/-- Entries in another order unfold to fields in another order. -/
theorem UnfoldsFields.perm {E : Env} {h : Heap Host} {es es' : List (Key × LVal)}
    (hperm : es.Perm es') {gs : List (Bytes × Tree)} (hgs : UnfoldsFields E h es gs) :
    ∃ gs', gs.Perm gs' ∧ UnfoldsFields E h es' gs' := by
  induction hperm generalizing gs with
  | nil => exact ⟨gs, .refl _, hgs⟩
  | cons e _ ih =>
    cases hgs with
    | cons hv hrest =>
      obtain ⟨gs', hperm', hgs'⟩ := ih hrest
      exact ⟨_, hperm'.cons _, .cons hv hgs'⟩
  | swap e e' rest =>
    cases hgs with
    | cons hv hrest =>
      cases hrest with
      | cons hv' hrest' => exact ⟨_, .swap _ _ _, .cons hv' (.cons hv hrest')⟩
  | trans _ _ ih ih' =>
    obtain ⟨gs₁, hperm₁, hgs₁⟩ := ih hgs
    obtain ⟨gs₂, hperm₂, hgs₂⟩ := ih' hgs₁
    exact ⟨gs₂, hperm₁.trans hperm₂, hgs₂⟩

/-- The elements of a table that was decoded from an array. -/
theorem DecodedElems.elementsFrom_eq {slots : Slot → LVal} {h : Heap Host} {lo : Ref} {i : Nat}
    {fs : Doc} {es : List (Key × LVal)} (hfs : DecodedElems slots h lo i fs es) {t : Table Host}
    (hget : ∀ e ∈ es, t.get e.1 = e.2) : elementsFrom t i fs.length = es.map Prod.snd := by
  induction fs generalizing i es with
  | nil => cases es <;> simp_all [DecodedElems, elementsFrom]
  | cons f rest ih =>
    obtain ⟨key, v⟩ := f
    cases es with
    | nil => simp [DecodedElems] at hfs
    | cons e es =>
      obtain ⟨k, w⟩ := e
      simp only [DecodedElems] at hfs
      obtain ⟨rfl, -, hrest⟩ := hfs
      have hw : t.get (.int (i + 1)) = w := hget (.int (i + 1), w) (by simp)
      rw [List.length_cons, elementsFrom, hw, ih hrest fun e he => hget e (by simp [he])]
      rfl

theorem length_le_fieldsSize (fs : Doc) : fs.length ≤ fieldsSize fs := by
  induction fs with
  | nil => simp
  | cons f rest ih =>
    obtain ⟨key, v⟩ := f
    simp only [List.length_cons, fieldsSize_cons, fieldSize]
    omega

/-- The length that a decoded array declares. -/
theorem declaredLength_of_length {E : Env} {n rawlen : Nat} (hn : n ≤ BSON_MAX_SIZE) :
    declaredLength E (.int (n : Int).toInt64) rawlen = n := by
  unfold BSON_MAX_SIZE at hn
  have hcast : ((n : Int).toInt64).toInt = n := by
    rw [Int.toInt64, Int64.toInt_ofInt]
    unfold Int64.size
    apply Int.bmod_eq_of_le <;> omega
  have hint : isInteger E (.int (n : Int).toInt64) = some (n : Int).toInt64 := rfl
  have htrue : (Val.int (n : Int).toInt64 : LVal).truthy = true := rfl
  rw [declaredLength, if_pos htrue, hint]
  simp only [hcast]
  omega

mutual
/-- What is decoded unfolds, and to a tree that the encoder sees at the
value. -/
theorem Decoded.unfolds {E : Env} {slots : Slot → LVal} {h h' : Heap Host} {lo lo' : Ref}
    (hre : Reordered h h') (hnull : IsNullSingleton lo' h' (slots .GLOBAL_NULL)) (v : Value)
    {w : LVal} (hv : Decoded slots h lo v w) (hsize : v.size ≤ BSON_MAX_SIZE) :
    ∃ t, Unfolds E h' w t ∧ Reread v t := by
  cases v with
  | document fs =>
    simp only [Decoded] at hv
    obtain ⟨r, rfl, -, hplain, hfields⟩ := hv
    simp only [Value.size] at hsize
    have hplain' := hre.plain hplain
    have hflag := hfields.flag_iff hnull
    rw [← hre.get] at hflag
    by_cases hflagged : Flagged fs
    · have htrue := hflag.mpr hflagged
      obtain ⟨n, hn⟩ : ∃ n : Nat, plainLength E h' r = n := by
        simp only [plainLength, declaredLength, if_pos htrue]
        split
        · rename_i i _
          exact ⟨(max i.toInt 0).toNat, by omega⟩
        · exact ⟨_, rfl⟩
      refine ⟨.array (List.replicate n (.leaf .nil .null)), .array hplain' hn ?_, ?_⟩
      · exact unfoldsElems_nil (fun i => by rw [hre.get, hfields.get_int]) 0 n
      · simp only [Reread]
        exact Or.inl ⟨hflagged, n, rfl⟩
    · have hfalse : ((h'.get r).get (.str (bytes "__array"))).truthy = false := by
        simpa using mt hflag.mp hflagged
      obtain ⟨gs', hgs', hreread⟩ := DecodedFields.unfolds (E := E) hre hnull fs hfields (by omega)
      obtain ⟨gs, hperm, hgs⟩ := hgs'.perm (hre.entries r).symm
      refine ⟨.doc gs, .doc hplain' ?_ hgs, ?_⟩
      · simp [plainLength, declaredLength, hfalse]
      · simp only [Reread]
        exact Or.inr ⟨hflagged, gs, gs', rfl, hperm, hreread⟩
  | array fs =>
    simp only [Decoded] at hv
    obtain ⟨r, es, rfl, -, hplain, hentries, helems⟩ := hv
    simp only [Value.size] at hsize
    have hget : ∀ e ∈ (h.get r).entries, (h'.get r).get e.1 = e.2 := by
      rintro ⟨k, w⟩ he
      rw [hre.get]
      exact lookup_of_mem (h.get r).keys_nodup he
    have hlength : (h'.get r).get (.str (bytes "__array")) = .int (fs.length : Int).toInt64 :=
      hget (.str (bytes "__array"), _) (by rw [hentries]; simp)
    have hle := length_le_fieldsSize fs
    obtain ⟨ts, hts, hreread⟩ := DecodedElems.unfolds (E := E) hre hnull 0 fs helems (by omega)
    refine ⟨.array ts, .array (n := fs.length) (hre.plain hplain) ?_ ?_, ?_⟩
    · rw [plainLength, hlength, declaredLength_of_length (by omega)]
    · rw [helems.elementsFrom_eq fun e he => hget e (by rw [hentries]; simp [he])]
      exact hts
    · simp only [Reread]
      exact ⟨ts, rfl, hreread⟩
  | bool b | int32 b | int64 b | double b | utf8 b | oid b | null =>
    simp only [Decoded] at hv
    obtain ⟨y, hleaf, hsame, hy⟩ := isLeaf_of_scalarOf (E := E) hnull hv hsize
    refine ⟨.leaf w y, .leaf hleaf, ?_⟩
    simp only [Reread]
    exact ⟨w, y, rfl, hsame, hy⟩
  | _ => simp [Decoded, scalarOf] at hv

theorem DecodedFields.unfolds {E : Env} {slots : Slot → LVal} {h h' : Heap Host} {lo lo' : Ref}
    (hre : Reordered h h') (hnull : IsNullSingleton lo' h' (slots .GLOBAL_NULL))
    (fs : List (Bytes × Value)) {es : List (Key × LVal)} (hfs : DecodedFields slots h lo fs es)
    (hsize : fieldsSize fs ≤ BSON_MAX_SIZE) :
    ∃ gs, UnfoldsFields E h' es gs ∧ FieldsReread fs gs := by
  match fs, es with
  | [], [] => exact ⟨[], .nil, by simp [FieldsReread]⟩
  | (key, v) :: fs, (k, w) :: es =>
    simp only [DecodedFields] at hfs
    simp only [fieldsSize_cons, fieldSize] at hsize
    obtain ⟨rfl, hv, hrest⟩ := hfs
    obtain ⟨t, ht, htreread⟩ := Decoded.unfolds (E := E) hre hnull v hv (by omega)
    obtain ⟨gs, hgs, hgsreread⟩ := DecodedFields.unfolds (E := E) hre hnull fs hrest (by omega)
    refine ⟨(key, t) :: gs, .cons ht hgs, ?_⟩
    simp only [FieldsReread, true_and]
    exact ⟨htreread, hgsreread⟩

theorem DecodedElems.unfolds {E : Env} {slots : Slot → LVal} {h h' : Heap Host} {lo lo' : Ref}
    (hre : Reordered h h') (hnull : IsNullSingleton lo' h' (slots .GLOBAL_NULL)) (i : Nat)
    (fs : List (Bytes × Value)) {es : List (Key × LVal)} (hfs : DecodedElems slots h lo i fs es)
    (hsize : fieldsSize fs ≤ BSON_MAX_SIZE) :
    ∃ ts, UnfoldsElems E h' (es.map Prod.snd) ts ∧ ElemsReread fs ts := by
  match fs, es with
  | [], [] => exact ⟨[], .nil, by simp [ElemsReread]⟩
  | (key, v) :: fs, (k, w) :: es =>
    simp only [DecodedElems] at hfs
    simp only [fieldsSize_cons, fieldSize] at hsize
    obtain ⟨-, hv, hrest⟩ := hfs
    obtain ⟨t, ht, htreread⟩ := Decoded.unfolds (E := E) hre hnull v hv (by omega)
    obtain ⟨ts, hts, htsreread⟩ :=
      DecodedElems.unfolds (E := E) hre hnull (i + 1) fs hrest (by omega)
    refine ⟨t :: ts, .cons ht hts, ?_⟩
    simp only [ElemsReread]
    exact ⟨htreread, htsreread⟩
end

/-! ## The value of the tree -/

theorem fieldValues_eq_map (gs : List (Bytes × Tree)) :
    Tree.fieldValues gs = gs.map (fun g => (g.1, g.2.value)) := by
  induction gs with
  | nil => simp
  | cons g rest ih =>
    obtain ⟨key, t⟩ := g
    simp [ih]

theorem fieldsNulFree_iff (gs : List (Bytes × Tree)) :
    Tree.FieldsNulFree gs ↔ ∀ g ∈ gs, NulFree g.1 ∧ g.2.KeysNulFree := by
  induction gs with
  | nil => simp
  | cons g rest ih =>
    obtain ⟨key, t⟩ := g
    simp [ih, and_assoc]

theorem fieldsShallow_iff (top : Nat) (gs : List (Bytes × Tree)) :
    Tree.FieldsShallow top gs ↔ ∀ g ∈ gs, g.2.Shallow top := by
  induction gs with
  | nil => simp [Tree.FieldsShallow]
  | cons g rest ih =>
    obtain ⟨key, t⟩ := g
    simp [Tree.FieldsShallow, ih]

theorem elemsShallow_nulls (top n : Nat) :
    Tree.ElemsShallow top (List.replicate n (.leaf .nil .null)) := by
  induction n with
  | zero => simp [Tree.ElemsShallow]
  | succ n ih => simp [List.replicate_succ, Tree.ElemsShallow, Tree.Shallow, ih]

theorem documents_nulls (i n : Nat) :
    docDocuments (Tree.elemValues i (List.replicate n (.leaf .nil .null))) = 0 := by
  induction n generalizing i with
  | zero => simp [Tree.elemValues, docDocuments]
  | succ n ih =>
    simp [List.replicate_succ, Tree.elemValues, docDocuments, Tree.value, documents, ih]

theorem renumber_of_numberedFrom {i : Nat} {fs : Doc} (hfs : NumberedFrom i fs) :
    renumber i fs = fs := by
  induction fs generalizing i with
  | nil => rfl
  | cons f rest ih =>
    obtain ⟨key, v⟩ := f
    simp only [NumberedFrom] at hfs
    rw [renumber, ih hfs.2, hfs.1]

mutual
/-- The tables below a nested value start below the limit of the encoder. -/
theorem Reread.shallow (v : Value) {t : Tree} (ht : Reread v t) {top : Nat}
    (hnested : Nested top v) : t.Shallow top := by
  cases v with
  | document fs =>
    simp only [Reread] at ht
    simp only [Nested] at hnested
    rcases ht with ⟨-, n, rfl⟩ | ⟨-, gs, gs', rfl, hperm, hgs'⟩
    · simp only [Tree.Shallow]
      exact ⟨hnested.1, elemsShallow_nulls _ n⟩
    · simp only [Tree.Shallow, fieldsShallow_iff]
      have hfields := FieldsReread.shallow fs hgs' hnested.2
      rw [fieldsShallow_iff] at hfields
      exact ⟨hnested.1, fun g hg => hfields g (hperm.mem_iff.mpr hg)⟩
  | array fs =>
    simp only [Reread] at ht
    simp only [Nested] at hnested
    obtain ⟨ts, rfl, hts⟩ := ht
    simp only [Tree.Shallow]
    exact ⟨hnested.1, ElemsReread.shallow fs hts hnested.2⟩
  | _ =>
    simp only [Reread] at ht
    obtain ⟨v, y, rfl, -⟩ := ht
    simp [Tree.Shallow]

theorem FieldsReread.shallow (fs : List (Bytes × Value)) {gs : List (Bytes × Tree)}
    (hgs : FieldsReread fs gs) {top : Nat} (hnested : DocNested top fs) :
    Tree.FieldsShallow top gs := by
  match fs, gs with
  | [], [] => simp [Tree.FieldsShallow]
  | (key, v) :: fs, (k, t) :: gs =>
    simp only [FieldsReread] at hgs
    simp only [DocNested] at hnested
    simp only [Tree.FieldsShallow]
    exact ⟨Reread.shallow v hgs.2.1 hnested.1, FieldsReread.shallow fs hgs.2.2 hnested.2⟩

theorem ElemsReread.shallow (fs : List (Bytes × Value)) {ts : List Tree}
    (hts : ElemsReread fs ts) {top : Nat} (hnested : DocNested top fs) :
    Tree.ElemsShallow top ts := by
  match fs, ts with
  | [], [] => simp [Tree.ElemsShallow]
  | (key, v) :: fs, t :: ts =>
    simp only [ElemsReread] at hts
    simp only [DocNested] at hnested
    simp only [Tree.ElemsShallow]
    exact ⟨Reread.shallow v hts.1 hnested.1, ElemsReread.shallow fs hts.2 hnested.2⟩
end

mutual
/-- Without flags, the tree has the value again, in its least size. -/
theorem Reread.same (v : Value) {t : Tree} (ht : Reread v t) (hflag : Unflagged v)
    (hkeys : KeysCString v) (hnum : ArraysNumbered v) :
    Same v t.value ∧ t.value.size = leastSize v ∧ t.KeysNulFree := by
  cases v with
  | document fs =>
    simp only [Reread] at ht
    simp only [Unflagged] at hflag
    simp only [KeysCString] at hkeys
    simp only [ArraysNumbered] at hnum
    rcases ht with ⟨hflagged, -⟩ | ⟨-, gs, gs', rfl, hperm, hgs'⟩
    · exact absurd hflagged hflag.1
    · obtain ⟨hsame, hsize, hfree⟩ := FieldsReread.same fs hgs' hflag.2 hkeys hnum
      have hvalues : (Tree.fieldValues gs').Perm (Tree.fieldValues gs) := by
        simp only [fieldValues_eq_map]
        exact hperm.map _
      rw [fieldsNulFree_iff] at hfree
      refine ⟨same_document.mpr ⟨_, by simp [Tree.value], _, hvalues, hsame⟩, ?_, ?_⟩
      · simp only [Tree.value, Value.size, leastSize, ← fieldsSize_perm hvalues, hsize]
      · simp only [Tree.KeysNulFree, fieldsNulFree_iff]
        exact fun g hg => hfree g (hperm.mem_iff.mpr hg)
  | array fs =>
    simp only [Reread] at ht
    simp only [Unflagged] at hflag
    simp only [KeysCString] at hkeys
    simp only [ArraysNumbered] at hnum
    obtain ⟨ts, rfl, hts⟩ := ht
    obtain ⟨hsame, hsize, hfree⟩ := ElemsReread.same 0 fs hts hflag hkeys hnum.2
    rw [renumber_of_numberedFrom hnum.1] at hsame hsize
    refine ⟨same_array.mpr ⟨_, by simp [Tree.value], hsame⟩, ?_, ?_⟩
    · simp only [Tree.value, Value.size, leastSize, hsize]
    · simpa only [Tree.KeysNulFree] using hfree
  | _ =>
    simp only [Reread] at ht
    obtain ⟨w, y, rfl, hsame, hsize⟩ := ht
    simp only [Tree.value, Tree.KeysNulFree, and_true]
    exact ⟨hsame, hsize⟩

theorem FieldsReread.same (fs : List (Bytes × Value)) {gs : List (Bytes × Tree)}
    (hgs : FieldsReread fs gs) (hflag : DocUnflagged fs) (hkeys : DocKeysCString fs)
    (hnum : DocArraysNumbered fs) :
    FieldsSame fs (Tree.fieldValues gs) ∧
      fieldsSize (Tree.fieldValues gs) = leastFieldsSize fs ∧ Tree.FieldsNulFree gs := by
  match fs, gs with
  | [], [] => simp [FieldsSame, leastFieldsSize]
  | (key, v) :: fs, (k, t) :: gs =>
    simp only [FieldsReread] at hgs
    simp only [DocUnflagged] at hflag
    simp only [DocKeysCString] at hkeys
    simp only [DocArraysNumbered] at hnum
    obtain ⟨rfl, ht, hrest⟩ := hgs
    obtain ⟨hsame, hsize, hfree⟩ := Reread.same v ht hflag.1 hkeys.2.1 hnum.1
    obtain ⟨hsames, hsizes, hfrees⟩ := FieldsReread.same fs hrest hflag.2 hkeys.2.2 hnum.2
    simp only [Tree.fieldValues_cons, FieldsSame, true_and, fieldsSize_cons, fieldSize,
      leastFieldsSize, hsize, hsizes, Tree.fieldsNulFree_cons]
    exact ⟨⟨hsame, hsames⟩, hkeys.1, hfree, hfrees⟩

theorem ElemsReread.same (i : Nat) (fs : List (Bytes × Value)) {ts : List Tree}
    (hts : ElemsReread fs ts) (hflag : DocUnflagged fs) (hkeys : DocKeysCString fs)
    (hnum : DocArraysNumbered fs) :
    FieldsSame (renumber i fs) (Tree.elemValues i ts) ∧
      fieldsSize (Tree.elemValues i ts) = leastFieldsSize (renumber i fs) ∧
      Tree.ElemsNulFree ts := by
  match fs, ts with
  | [], [] => simp [renumber, Tree.elemValues, FieldsSame, leastFieldsSize, Tree.ElemsNulFree]
  | (key, v) :: fs, t :: ts =>
    simp only [ElemsReread] at hts
    simp only [DocUnflagged] at hflag
    simp only [DocKeysCString] at hkeys
    simp only [DocArraysNumbered] at hnum
    obtain ⟨hsame, hsize, hfree⟩ := Reread.same v hts.1 hflag.1 hkeys.2.1 hnum.1
    obtain ⟨hsames, hsizes, hfrees⟩ :=
      ElemsReread.same (i + 1) fs hts.2 hflag.2 hkeys.2.2 hnum.2
    simp only [renumber, Tree.elemValues, FieldsSame, true_and, fieldsSize_cons, fieldSize,
      leastFieldsSize, hsize, hsizes, Tree.ElemsNulFree]
    exact ⟨⟨hsame, hsames⟩, hfree, hfrees⟩
end

/-! ## Counting documents -/

mutual
/-- The tree has no more documents than the value, and fewer when a document of
the value is flagged. -/
theorem Reread.documents_le (v : Value) {t : Tree} (ht : Reread v t) :
    documents t.value ≤ documents v ∧ (documents t.value = documents v → Unflagged v) := by
  cases v with
  | document fs =>
    simp only [Reread] at ht
    rcases ht with ⟨-, n, rfl⟩ | ⟨hflag, gs, gs', rfl, hperm, hgs'⟩
    · simp only [Tree.value, documents, documents_nulls]
      exact ⟨by omega, fun heq => by omega⟩
    · have hvalues : (Tree.fieldValues gs').Perm (Tree.fieldValues gs) := by
        simp only [fieldValues_eq_map]
        exact hperm.map _
      obtain ⟨hle, heq⟩ := FieldsReread.documents_le fs hgs'
      simp only [Tree.value, documents, ← docDocuments_perm hvalues, Unflagged]
      exact ⟨by omega, fun h => ⟨hflag, heq (by omega)⟩⟩
  | array fs =>
    simp only [Reread] at ht
    obtain ⟨ts, rfl, hts⟩ := ht
    simp only [Tree.value, documents, Unflagged]
    exact ElemsReread.documents_le 0 fs hts
  | _ =>
    simp only [Reread] at ht
    obtain ⟨w, y, rfl, hsame, -⟩ := ht
    simp only [Tree.value, Unflagged, implies_true, and_true]
    exact Nat.le_of_eq (hsame.documents _)

theorem FieldsReread.documents_le (fs : List (Bytes × Value)) {gs : List (Bytes × Tree)}
    (hgs : FieldsReread fs gs) : docDocuments (Tree.fieldValues gs) ≤ docDocuments fs ∧
      (docDocuments (Tree.fieldValues gs) = docDocuments fs → DocUnflagged fs) := by
  match fs, gs with
  | [], [] => simp [docDocuments, DocUnflagged]
  | (key, v) :: fs, (k, t) :: gs =>
    simp only [FieldsReread] at hgs
    obtain ⟨hle, heq⟩ := Reread.documents_le v hgs.2.1
    obtain ⟨hles, heqs⟩ := FieldsReread.documents_le fs hgs.2.2
    simp only [Tree.fieldValues_cons, docDocuments, DocUnflagged]
    exact ⟨by omega, fun h => ⟨heq (by omega), heqs (by omega)⟩⟩

theorem ElemsReread.documents_le (i : Nat) (fs : List (Bytes × Value)) {ts : List Tree}
    (hts : ElemsReread fs ts) : docDocuments (Tree.elemValues i ts) ≤ docDocuments fs ∧
      (docDocuments (Tree.elemValues i ts) = docDocuments fs → DocUnflagged fs) := by
  match fs, ts with
  | [], [] => simp [Tree.elemValues, docDocuments, DocUnflagged]
  | (key, v) :: fs, t :: ts =>
    simp only [ElemsReread] at hts
    obtain ⟨hle, heq⟩ := Reread.documents_le v hts.1
    obtain ⟨hles, heqs⟩ := ElemsReread.documents_le (i + 1) fs hts.2
    simp only [Tree.elemValues, docDocuments, DocUnflagged]
    exact ⟨by omega, fun h => ⟨heq (by omega), heqs (by omega)⟩⟩
end

mutual
/-- A part of a tree has no more documents than the tree. -/
theorem Partial.documents_le (t : Tree) {x : Value} (h : Partial t x) :
    documents x ≤ documents t.value := by
  cases t with
  | leaf v y =>
    cases h
    simp [Tree.value]
  | doc gs =>
    cases h with
    | doc hpart =>
      simp only [Tree.value, documents]
      exact Nat.add_le_add_left (PartialFields.documents_le gs hpart) 1
  | array ts =>
    cases h with
    | array hpart =>
      simp only [Tree.value, documents]
      exact PartialFields.documents_le_elems 0 ts hpart

theorem PartialFields.documents_le (gs : List (Bytes × Tree)) {ds : Doc}
    (h : PartialFields gs ds) : docDocuments ds ≤ docDocuments (Tree.fieldValues gs) := by
  match gs with
  | [] =>
    cases h
    simp [docDocuments]
  | (key, t) :: rest =>
    simp only [Tree.fieldValues_cons, docDocuments]
    cases h with
    | skip hrest => exact Nat.le_add_left_of_le (PartialFields.documents_le rest hrest)
    | keep hkey ht hrest =>
      simp only [docDocuments]
      exact Nat.add_le_add (Partial.documents_le t ht) (PartialFields.documents_le rest hrest)

theorem PartialFields.documents_le_elems (i : Nat) (ts : List Tree) {ds : Doc}
    (h : PartialFields (Tree.indexed i ts) ds) :
    docDocuments ds ≤ docDocuments (Tree.elemValues i ts) := by
  match ts with
  | [] =>
    cases h
    simp [docDocuments]
  | t :: rest =>
    simp only [Tree.elemValues, docDocuments]
    cases h with
    | skip hrest => exact Nat.le_add_left_of_le (PartialFields.documents_le_elems (i + 1) rest hrest)
    | keep hkey ht hrest =>
      simp only [docDocuments]
      exact Nat.add_le_add (Partial.documents_le t ht)
        (PartialFields.documents_le_elems (i + 1) rest hrest)
end

/-! ## Keys -/

/-- No number is spelled like the flag. -/
theorem uint32_to_string_ne_flag (i : Nat) : uint32_to_string i ≠ bytes "__array" := by
  intro heq
  have hmem : (95 : UInt8) ∈ uint32_to_string i := by
    rw [heq]
    decide
  obtain ⟨c, hc, h95⟩ := List.mem_map.mp hmem
  have hdigit := Nat.isDigit_of_mem_toDigits (by decide) (by decide) hc
  have hbyte := (digit_byte hdigit).1
  simp only [Char.isDigit, Bool.and_eq_true, decide_eq_true_eq, ge_iff_le,
    UInt32.le_iff_toNat_le] at hdigit
  have hhi : c.toNat ≤ 57 := hdigit.2
  rw [h95] at hbyte
  have hval : (95 : UInt8).toNat = 95 := rfl
  omega

theorem map_fst_renumber (i : Nat) (fs : Doc) :
    (renumber i fs).map Prod.fst = (List.range' i fs.length).map uint32_to_string := by
  induction fs generalizing i with
  | nil => rfl
  | cons f rest ih =>
    obtain ⟨key, v⟩ := f
    simp [renumber, ih, List.range'_succ]

theorem map_snd_renumber (i : Nat) (fs : Doc) :
    (renumber i fs).map Prod.snd = fs.map Prod.snd := by
  induction fs generalizing i with
  | nil => rfl
  | cons f rest ih =>
    obtain ⟨key, v⟩ := f
    simp [renumber, ih]

/-- The key of a written element is its number. -/
theorem HANDLE_KEY_LENGTH_uint32 (i : Nat) :
    HANDLE_KEY_LENGTH (uint32_to_string i) = some (uint32_to_string i) :=
  HANDLE_KEY_LENGTH_of_nulFree (nulFree_uint32_to_string i)
    (Nat.lt_of_le_of_lt (length_uint32_to_string_le i) (by decide))

/-- The written part of an array has some of its numbers as keys. -/
theorem PartialFields.keys_sublist {i : Nat} {ts : List Tree} {ds : Doc}
    (h : PartialFields (Tree.indexed i ts) ds) :
    (ds.map Prod.fst).Sublist ((List.range' i ts.length).map uint32_to_string) := by
  induction ts generalizing i ds with
  | nil =>
    cases h
    simp
  | cons t rest ih =>
    rw [List.length_cons, List.range'_succ, List.map_cons]
    cases h with
    | skip hrest => exact (ih hrest).cons _
    | keep hkey _ hrest =>
      rw [HANDLE_KEY_LENGTH_uint32] at hkey
      rw [List.map_cons, ← Option.some.inj hkey]
      exact (ih hrest).cons_cons _

/-- The size of a document by its keys and its values. -/
theorem leastFieldsSize_eq (fs : Doc) : leastFieldsSize fs =
    ((fs.map Prod.fst).map List.length).sum + ((fs.map Prod.snd).map (leastSize · + 2)).sum := by
  induction fs with
  | nil => rfl
  | cons f rest ih =>
    obtain ⟨key, v⟩ := f
    simp only [leastFieldsSize, ih, List.map_cons, List.sum_cons]
    omega

theorem length_of_elemsReread {fs : Doc} {ts : List Tree} (hts : ElemsReread fs ts) :
    ts.length = fs.length := by
  induction fs generalizing ts with
  | nil => cases ts <;> simp_all [ElemsReread]
  | cons f rest ih =>
    obtain ⟨key, v⟩ := f
    cases ts with
    | nil => simp [ElemsReread] at hts
    | cons t ts => simp [ih hts.2]

/-! ## The root -/

/-- The fields of the root as they come back: a root that is taken for an array
has its values under the numbers from `0` up. -/
def rootFields (b : Doc) : Doc := if isArray b then renumber 0 b else b

/-- Fields under the same keys have the same least size. -/
theorem leastDocSize_rootFields {b : Doc}
    (hkeys : ((rootFields b).map Prod.fst).Perm (b.map Prod.fst)) :
    leastDocSize (rootFields b) = leastDocSize b := by
  have hvalues : (rootFields b).map Prod.snd = b.map Prod.snd := by
    unfold rootFields
    split
    · exact map_snd_renumber 0 b
    · rfl
  simp only [leastDocSize, leastFieldsSize_eq, hvalues, (hkeys.map List.length).sum_nat]

/-- A document comes back the same when no document at any depth has a field
`__array` other than `false`, a root whose first key is `"0"` has its values in
the order of their numbers, and a new buffer holds it. -/
structure Reencodable (b : Doc) : Prop where
  unflagged : Unflagged (rootValue b)
  numbered : SameDoc b (rootFields b)
  size : leastDocSize b ≤ BSON_GROW_LIMIT

/-- Without flags, the encoder sees the fields of the root. -/
theorem Reread.root {b : Doc} (hb : ValidDoc b) {t : Tree} (ht : Reread (rootValue b) t)
    (hflag : Unflagged (rootValue b)) :
    SameDoc (rootFields b) (Tree.fieldValues t.children) ∧
      docSize (Tree.fieldValues t.children) = leastDocSize (rootFields b) ∧
      Tree.FieldsNulFree t.children := by
  unfold rootValue at ht hflag
  unfold rootFields
  split at ht <;> rename_i harray
  · rw [if_pos harray] at hflag ⊢
    simp only [Unflagged] at hflag
    simp only [Reread] at ht
    obtain ⟨ts, rfl, hts⟩ := ht
    obtain ⟨hsame, hsize, hfree⟩ := ElemsReread.same 0 b hts hflag hb.cstring hb.numbered
    rw [Tree.elemValues_eq] at hsame hsize
    rw [Tree.elemsNulFree_iff 0] at hfree
    exact ⟨⟨_, .refl _, hsame⟩, by simp only [Tree.children, docSize, leastDocSize, hsize], hfree⟩
  · rw [if_neg harray] at hflag ⊢
    obtain ⟨hsame, hsize, hfree⟩ := Reread.same (.document b) ht hflag
      (by simpa only [KeysCString] using hb.cstring)
      (by simpa only [ArraysNumbered] using hb.numbered)
    obtain ⟨gs, hvalue, hdoc⟩ := same_document.mp hsame
    simp only [Reread] at ht
    rcases ht with ⟨-, n, rfl⟩ | ⟨-, gs', -, rfl, -⟩
    · simp [Tree.value] at hvalue
    · simp only [Tree.value, Value.document.injEq] at hvalue
      simp only [Tree.value, Value.size, leastSize] at hsize
      refine ⟨hvalue ▸ hdoc, ?_, by simpa only [Tree.KeysNulFree, Tree.children] using hfree⟩
      unfold docSize leastDocSize
      exact hsize

/-- A part of what the encoder sees that is the same as the root has all of its
keys and comes from a document without flags. -/
theorem Reread.of_same {b : Doc} {t : Tree} (ht : Reread (rootValue b) t) {ds : Doc}
    (hpart : PartialFields t.children ds) (hsame : SameDoc b ds) :
    Unflagged (rootValue b) ∧ ((rootFields b).map Prod.fst).Perm (b.map Prod.fst) := by
  have hcount := hsame.documents
  have hle := PartialFields.documents_le _ hpart
  unfold rootValue at ht ⊢
  unfold rootFields
  split at ht <;> rename_i harray
  · simp only [if_pos harray, Unflagged]
    simp only [Reread] at ht
    obtain ⟨ts, rfl, hts⟩ := ht
    obtain ⟨hle', heq⟩ := ElemsReread.documents_le 0 b hts
    simp only [Tree.children, ← Tree.elemValues_eq] at hle
    refine ⟨heq (by omega), ?_⟩
    have hkeys : ds.map Prod.fst = (renumber 0 b).map Prod.fst := by
      rw [map_fst_renumber, ← length_of_elemsReread hts]
      refine hpart.keys_sublist.eq_of_length ?_
      have hlength := hsame.keys.length_eq
      simpa [length_of_elemsReread hts] using hlength
    rw [← hkeys]
    exact hsame.keys
  · simp only [if_neg harray, Unflagged]
    simp only [Reread] at ht
    rcases ht with ⟨⟨v, hmem, -⟩, n, rfl⟩ | ⟨hflag, gs, gs', rfl, hperm, hgs'⟩
    · have hkey : bytes "__array" ∈ ds.map Prod.fst :=
        hsame.keys.mem_iff.mpr (List.mem_map.mpr ⟨_, hmem, rfl⟩)
      obtain ⟨i, -, hi⟩ := List.mem_map.mp (hpart.keys_sublist.subset hkey)
      exact absurd hi (uint32_to_string_ne_flag i)
    · obtain ⟨hle', heq⟩ := FieldsReread.documents_le b hgs'
      have hvalues : (Tree.fieldValues gs').Perm (Tree.fieldValues gs) := by
        simp only [fieldValues_eq_map]
        exact hperm.map _
      have hcount' := docDocuments_perm hvalues
      simp only [Tree.children] at hle
      exact ⟨⟨hflag, heq (by omega)⟩, .refl _⟩

mutual
/-- Where the encoder has slots, the decoder has room. -/
theorem Nested.stackRoom (v : Value) {top top' : Nat} (hnested : Nested top v)
    (htop : top' ≤ 2 * top + MAXSTACK) : StackRoom top' v := by
  cases v with
  | document fs =>
    simp only [Nested] at hnested
    simp only [StackRoom]
    exact ⟨checkstack_of_le (by omega), DocNested.docRoom fs hnested.2 (by omega)⟩
  | array fs =>
    simp only [Nested] at hnested
    simp only [StackRoom]
    exact ⟨checkstack_of_le (by omega), DocNested.docRoom fs hnested.2 (by omega)⟩
  | _ => simp [StackRoom]

theorem DocNested.docRoom (fs : List (Bytes × Value)) {top top' : Nat} (hnested : DocNested top fs)
    (htop : top' ≤ 2 * top + MAXSTACK) : DocRoom top' fs := by
  match fs with
  | [] => simp [DocRoom]
  | (key, v) :: rest =>
    simp only [DocNested] at hnested
    simp only [DocRoom]
    exact ⟨Nested.stackRoom v hnested.1 htop, DocNested.docRoom rest hnested.2 htop⟩
end

/-- What `b:value()` makes of a valid document. -/
theorem ValidDoc.m_value {E : Env} {L : State} (hnull : L.slots .GLOBAL_NULL ≠ .nil) {b : Doc}
    (hb : ValidDoc b) (hnested : Nested 3 (rootValue b)) :
    ∃ L' w, m_value E L b .nil = .ok (L', w) ∧ Grows L.heap L.slots L' ∧
      Decoded L.slots L'.heap L.heap.length (rootValue b) w := by
  have hplain : IsPlain (rootValue b) := by
    unfold rootValue
    split <;> simpa only [IsPlain] using hb.plain
  have hkeys : KeysDistinct (rootValue b) := by
    unfold rootValue
    split <;> simp only [KeysDistinct]
    · exact hb.distinct
    · exact ⟨hb.nodup, hb.distinct⟩
  simp only [Mongo.m_value, pushBSON_eq]
  exact unpackValue_decoded E hnull _ hplain hkeys L rfl 3
    (Nested.stackRoom _ hnested (by unfold MAXSTACK; omega))

/-- What `mongo.bson` makes of a decoded document. -/
theorem Decoded.newBSON {E : Env} {slots : Slot → LVal} {h h' : Heap Host} {lo lo' : Ref}
    (hre : Reordered h h') (hnull : IsNullSingleton lo' h' (slots .GLOBAL_NULL)) {b : Doc}
    (hb : ValidDoc b) (hnested : Nested 3 (rootValue b)) {w : LVal}
    (hw : Decoded slots h lo (rootValue b) w) :
    ∃ t, Reread (rootValue b) t ∧
      ((newBSON E h' w = .undefined ∧ ¬ Fits ⟨BSON_GROW_LIMIT, 0, []⟩ t.children) ∨
        ∃ ds, newBSON E h' w = .ok (h', ds) ∧ PartialFields t.children ds ∧
          docSize ds ≤ BSON_GROW_LIMIT ∧
          (Fits ⟨BSON_GROW_LIMIT, 0, []⟩ t.children → ds = Tree.fieldValues t.children)) := by
  have hsize : (rootValue b).size ≤ BSON_MAX_SIZE := by
    unfold rootValue
    split <;> simpa only [Value.size, docSize] using hb.size
  obtain ⟨t, hunfolds, hreread⟩ := Decoded.unfolds (E := E) hre hnull _ hw hsize
  obtain ⟨r, rfl, hplain⟩ : ∃ r, w = .table r ∧ PlainTable h' r := by
    unfold rootValue at hw
    split at hw <;> simp only [Decoded] at hw
    · obtain ⟨r, es, rfl, -, hplain, -⟩ := hw
      exact ⟨r, rfl, hre.plain hplain⟩
    · obtain ⟨r, rfl, -, hplain, -⟩ := hw
      exact ⟨r, rfl, hre.plain hplain⟩
  have hencodes := hunfolds.encodesTable hplain 3 (by unfold MAXSTACK; omega)
    (Reread.shallow _ hreread hnested)
  have hcall : callToBSON E h' (.table r) = .ok (h', .table r) := by
    simp [callToBSON, hplain.getmetafield]
  exact ⟨t, hreread, castBSON_spec _ _ _ (by decide) (by decide) rfl hcall hencodes⟩

/-- `mongo.bson(b:value())` yields the same document, whatever the order in
which `lua_next` walks the tables. -/
def ComesBack (E : Env) (L : State) (b : Doc) : Prop :=
  ∃ L' w, m_value E L b .nil = .ok (L', w) ∧
    ∀ h, Reordered L'.heap h → ∃ h' d, newBSON E h w = .ok (h', d) ∧ SameDoc b d

/-- The null singleton is in its slot, and as it was when it was made. -/
def NullIntact (L : State) : Prop := IsNullSingleton 0 L.heap (L.slots .GLOBAL_NULL)

theorem NullIntact.ne_nil {L : State} (hnull : NullIntact L) : L.slots .GLOBAL_NULL ≠ .nil := by
  obtain ⟨r, m, hr, -⟩ := hnull
  simp [hr]

theorem NullIntact.grow {L L' : State} (hnull : NullIntact L) (hext : Heap.Extends L.heap L'.heap) :
    IsNullSingleton 0 L'.heap (L.slots .GLOBAL_NULL) :=
  IsNullSingleton.frame hnull (Nat.le_refl _) hext.1 fun r _ => hext.2 r

/-- Opening a fresh state makes the null singleton, and later tables leave it
alone. -/
theorem nullIntact_of_luaopen {E : Env} {build : Build} {M M' : Machine}
    (hopen : luaopen_vklib E build M = .ok M') (hnone : M.L.metatables TYPE_NULL = none)
    {L : State} (hslots : L.slots = M'.L.slots) (hext : Heap.Extends M'.L.heap L.heap) :
    NullIntact L := by
  have hnull : NullIntact M'.L := luaopen_vklib_null hopen hnone
  unfold NullIntact
  rw [hslots]
  exact hnull.grow hext

/-- A document that comes back is the same as a part of what the encoder
sees. -/
theorem ComesBack.exists_part {E : Env} {L : State} (hnull : NullIntact L) {b : Doc}
    (hb : ValidDoc b) (hnested : Nested 3 (rootValue b)) (hback : ComesBack E L b) :
    ∃ t ds, Reread (rootValue b) t ∧ PartialFields t.children ds ∧
      docSize ds ≤ BSON_GROW_LIMIT ∧
      (Fits ⟨BSON_GROW_LIMIT, 0, []⟩ t.children → ds = Tree.fieldValues t.children) ∧
      SameDoc b ds := by
  obtain ⟨L', w, hvalue, hgrows, hdecoded⟩ := hb.m_value (E := E) hnull.ne_nil hnested
  obtain ⟨L'', w', hvalue', hall⟩ := hback
  obtain ⟨rfl, rfl⟩ : L' = L'' ∧ w = w' := by simpa using hvalue.symm.trans hvalue'
  obtain ⟨h', d, hnew, hsame⟩ := hall L'.heap (.refl _)
  obtain ⟨t, ht, ⟨hundef, -⟩ | ⟨ds, hok, hpart, hsize, hfull⟩⟩ :=
    hdecoded.newBSON (E := E) (.refl _) (hnull.grow hgrows.heap) hb hnested
  · simp [hundef] at hnew
  · obtain ⟨-, rfl⟩ : L'.heap = h' ∧ ds = d := by simpa using hok.symm.trans hnew
    exact ⟨t, ds, ht, hpart, hsize, hfull, hsame⟩

/-- Decode, then encode: after opening, and while the null singleton is as it
was, a valid document comes back exactly when it is `Reencodable`. -/
theorem comesBack_iff {E : Env} {build : Build} {M M' : Machine}
    (hopen : luaopen_vklib E build M = .ok M') (hnone : M.L.metatables TYPE_NULL = none)
    {L : State} (hslots : L.slots = M'.L.slots) (hext : Heap.Extends M'.L.heap L.heap) {b : Doc}
    (hb : ValidDoc b) (hnested : Nested 3 (rootValue b)) :
    ComesBack E L b ↔ Reencodable b := by
  have hnull := nullIntact_of_luaopen hopen hnone hslots hext
  constructor
  · intro hback
    obtain ⟨t, ds, ht, hpart, hsize, hfull, hsame⟩ := hback.exists_part hnull hb hnested
    obtain ⟨hflag, hkeys⟩ := ht.of_same hpart hsame
    obtain ⟨hvalues, hvaluesSize, hfree⟩ := ht.root hb hflag
    have hle : leastDocSize b ≤ BSON_GROW_LIMIT := Nat.le_trans hsame.leastDocSize_le hsize
    have hfits : Fits ⟨BSON_GROW_LIMIT, 0, []⟩ t.children :=
      fits_new_iff.mpr ⟨hfree, by rw [hvaluesSize, leastDocSize_rootFields hkeys]; exact hle⟩
    rw [hfull hfits] at hsame
    exact ⟨hflag, hsame.trans hvalues.symm, hle⟩
  · rintro ⟨hflag, hnumbered, hle⟩
    obtain ⟨L', w, hvalue, hgrows, hdecoded⟩ := hb.m_value (E := E) hnull.ne_nil hnested
    refine ⟨L', w, hvalue, fun h hre => ?_⟩
    obtain ⟨t, ht, hresult⟩ :=
      hdecoded.newBSON (E := E) hre (hre.isNullSingleton (hnull.grow hgrows.heap)) hb hnested
    obtain ⟨hvalues, hvaluesSize, hfree⟩ := ht.root hb hflag
    have hfits : Fits ⟨BSON_GROW_LIMIT, 0, []⟩ t.children := by
      refine fits_new_iff.mpr ⟨hfree, ?_⟩
      rw [hvaluesSize, leastDocSize_rootFields hnumbered.keys]
      exact hle
    rcases hresult with ⟨-, hno⟩ | ⟨ds, hok, -, -, hfull⟩
    · exact absurd hfits hno
    · refine ⟨h, ds, hok, ?_⟩
      rw [hfull hfits]
      exact hnumbered.trans hvalues

/-- A document with a number and an array comes back. -/
theorem comesBack_plain :
    ∃ M', luaopen_vklib Env.bare mongoBuild freshMachine = .ok M' ∧
      ComesBack Env.bare M'.L
        [(bytes "a", .int32 1), (bytes "b", .array [(bytes "0", .null)])] := by
  obtain ⟨M', hopen, -⟩ := luaopen_vklib_slots Env.bare mongoBuild freshMachine
  refine ⟨M', hopen, (comesBack_iff hopen rfl rfl (.refl _) ?_ ?_).mpr ?_⟩
  · refine ⟨?_, by decide, ?_, ?_, ?_, ?_⟩
    · simp [DocPlain, IsPlain]
    · simp [DocKeysDistinct, KeysDistinct]
    · simp only [DocKeysCString, KeysCString]
      decide
    · simp only [DocArraysNumbered, ArraysNumbered, NumberedFrom]
      decide
    · decide
  · change Nested 3 (.document _)
    simp [Nested, DocNested, MAXSTACK]
  · refine ⟨?_, SameDoc.refl _, by decide⟩
    change Unflagged (.document _)
    simp only [Unflagged, DocUnflagged, and_true]
    exact not_flagged_of_notMem (by decide)

/-- A document below the root with a field `__array` becomes an array. -/
theorem flagged_document_does_not_come_back :
    ∃ M', luaopen_vklib Env.bare mongoBuild freshMachine = .ok M' ∧
      ¬ ComesBack Env.bare M'.L [(bytes "s", .document [(bytes "__array", .bool true)])] := by
  obtain ⟨M', hopen, -⟩ := luaopen_vklib_slots Env.bare mongoBuild freshMachine
  refine ⟨M', hopen, fun hback => ?_⟩
  have hnull := nullIntact_of_luaopen hopen rfl rfl (Heap.Extends.refl _)
  have hvalid : ValidDoc [(bytes "s", .document [(bytes "__array", .bool true)])] := by
    refine ⟨?_, by decide, ?_, ?_, ?_, by decide⟩
    · simp [DocPlain, IsPlain]
    · simp [DocKeysDistinct, KeysDistinct]
    · simp only [DocKeysCString, KeysCString]
      decide
    · simp [DocArraysNumbered, ArraysNumbered]
  have hnested : Nested 3 (rootValue [(bytes "s", .document [(bytes "__array", .bool true)])]) := by
    change Nested 3 (.document _)
    simp [Nested, DocNested, MAXSTACK]
  obtain ⟨t, ds, ht, hpart, -, -, hsame⟩ := hback.exists_part hnull hvalid hnested
  have hflag : Unflagged (.document [(bytes "s", .document [(bytes "__array", .bool true)])]) :=
    (ht.of_same hpart hsame).1
  simp only [Unflagged, DocUnflagged] at hflag
  exact hflag.2.1.1 ⟨.bool true, by simp, by simp⟩

end Vklib.Mongo
