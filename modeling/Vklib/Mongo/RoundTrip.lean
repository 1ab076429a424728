import Vklib.Mongo.DecodeSpec
import Vklib.Mongo.EncodeSpec

/-!
# Encode, then decode

`IsNormal` is the normal form of a Lua value: what a decoder should give back of
a value that an encoder has written.  Booleans, strings and ObjectIDs stay, a
float that is a 64-bit integer becomes that integer, a document keeps its keys,
and an array has its elements at the indices from `1` up, its holes as the null
singleton, and its length under `__array`.

The encoder writes the value of the tree that it sees (`EncodeSpec`), the decoder
makes tables of that value (`DecodeSpec`), and `Decoded.isNormal` is the join:
the tables that are made of the value of a tree are the normal form of that
tree.
-/

namespace Vklib.Mongo

open Vklib.Lua Vklib.Bson

/-- The normal form of a value that is no table. -/
def normalLeaf (slots : Slot → LVal) : LVal → Option LVal
  | .nil => some (slots .GLOBAL_NULL)
  | .bool b => some (.bool b)
  | .int i => some (.int i)
  | .flt x =>
    match x.toInteger? with
    | some i => some (.int i)
    | none => some (.flt x)
  | .str s => some (.str s)
  | .host (.objectID id) => some (.host (.objectID id))
  | _ => none

mutual
/-- In the heap `h`, the value `w` is the normal form of the tree. -/
def IsNormal (slots : Slot → LVal) (h : Heap Host) : Tree → LVal → Prop
  | .leaf v _, w => normalLeaf slots v = some w
  | .doc fs, w => ∃ r, w = .table r ∧ PlainTable h r ∧ FieldsNormal slots h fs (h.get r).entries
  | .array ts, w => ∃ r es, w = .table r ∧ PlainTable h r ∧
      (h.get r).entries = es ++ [(.str (bytes "__array"), .int (ts.length : Int).toInt64)] ∧
      ElemsNormal slots h 0 ts es

/-- The entries have the keys of the fields and normal forms of their values. -/
def FieldsNormal (slots : Slot → LVal) (h : Heap Host) :
    List (Bytes × Tree) → List (Key × LVal) → Prop
  | [], [] => True
  | (key, t) :: fs, (k, w) :: es => k = .str key ∧ IsNormal slots h t w ∧ FieldsNormal slots h fs es
  | _, _ => False

/-- The entries have the indices from `i + 1` up and normal forms of the
elements. -/
def ElemsNormal (slots : Slot → LVal) (h : Heap Host) (i : Nat) :
    List Tree → List (Key × LVal) → Prop
  | [], [] => True
  | t :: ts, (k, w) :: es => k = .int (i + 1) ∧ IsNormal slots h t w ∧
      ElemsNormal slots h (i + 1) ts es
  | _, _ => False
end

/-- A boolean, a number, an ObjectID, a string that BSON has room for, or the nil
of an array hole. -/
def IsBasic : LVal → Prop
  | .nil | .bool _ | .int _ | .flt _ | .host (.objectID _) => True
  | .str s => s.length ≤ BSON_MAX_SIZE
  | _ => False

mutual
/-- The leaves of the tree are basic values. -/
def Tree.Basic : Tree → Prop
  | .leaf v _ => IsBasic v
  | .doc fs => Tree.FieldsBasic fs
  | .array ts => Tree.ElemsBasic ts

def Tree.FieldsBasic : List (Bytes × Tree) → Prop
  | [] => True
  | (_, t) :: rest => t.Basic ∧ Tree.FieldsBasic rest

def Tree.ElemsBasic : List Tree → Prop
  | [] => True
  | t :: rest => t.Basic ∧ Tree.ElemsBasic rest
end

/-! ## Leaves -/

/-- The integer that is read back of a written integer. -/
theorem scalarOf_integerValue (slots : Slot → LVal) (i : Int64) :
    scalarOf slots (integerValue i) = some (.int i) := by
  unfold integerValue
  split
  · rename_i h
    simp only [scalarOf, toInt32_toInt64_of_isInt32 h]
  · rfl

/-- The scalar that is read back of a written leaf is its normal form. -/
theorem scalarOf_leafValue {E : Env} {h : Heap Host} {v : LVal} {x : Value}
    (hbasic : IsBasic v) (hx : leafValue E 0 h v = some x) (slots : Slot → LVal) :
    scalarOf slots x = normalLeaf slots v := by
  cases v with
  | int i =>
    rw [← Option.some.inj hx]
    exact scalarOf_integerValue slots i
  | flt f =>
    simp only [leafValue] at hx
    simp only [normalLeaf]
    cases hint : f.toInteger? with
    | some i =>
      rw [hint] at hx
      rw [← Option.some.inj hx]
      exact scalarOf_integerValue slots i
    | none =>
      rw [hint] at hx
      rw [← Option.some.inj hx]
      rfl
  | str s =>
    simp only [IsBasic, BSON_MAX_SIZE] at hbasic
    rw [← Option.some.inj hx, countedArg_eq_self (by omega)]
    rfl
  | host u =>
    cases u with
    | objectID id =>
      rw [← Option.some.inj hx]
      rfl
    | _ => exact hbasic.elim
  | table r => exact hbasic.elim
  | userdata id m => exact hbasic.elim
  | _ =>
    rw [← Option.some.inj hx]
    rfl

/-- A scalar is no container, so it is plain and has no keys. -/
theorem isPlain_of_scalarOf {slots : Slot → LVal} {x : Value} {w : LVal}
    (hx : scalarOf slots x = some w) :
    IsPlain x ∧ KeysDistinct x ∧ (∀ top, StackRoom top x) ∧
      ∀ h lo w', Decoded slots h lo x w' → w' = w := by
  cases x <;> simp_all [scalarOf, IsPlain, KeysDistinct, StackRoom, Decoded]

theorem normalLeaf_isSome {v : LVal} (hbasic : IsBasic v) (slots : Slot → LVal) :
    ∃ w, normalLeaf slots v = some w := by
  cases v with
  | flt x =>
    simp only [normalLeaf]
    split <;> exact ⟨_, rfl⟩
  | host u =>
    cases u with
    | objectID id => exact ⟨_, rfl⟩
    | _ => exact hbasic.elim
  | table r => exact hbasic.elim
  | userdata id m => exact hbasic.elim
  | _ => exact ⟨_, rfl⟩

/-! ## Trees -/

mutual
/-- Every leaf of the tree is read back as its normal form. -/
def Tree.Faithful (slots : Slot → LVal) : Tree → Prop
  | .leaf v x => ∃ w, normalLeaf slots v = some w ∧ scalarOf slots x = some w
  | .doc fs => (fs.map Prod.fst).Nodup ∧ Tree.FieldsFaithful slots fs
  | .array ts => Tree.ElemsFaithful slots ts

def Tree.FieldsFaithful (slots : Slot → LVal) : List (Bytes × Tree) → Prop
  | [] => True
  | (_, t) :: rest => t.Faithful slots ∧ Tree.FieldsFaithful slots rest

def Tree.ElemsFaithful (slots : Slot → LVal) : List Tree → Prop
  | [] => True
  | t :: rest => t.Faithful slots ∧ Tree.ElemsFaithful slots rest
end

/-- The fields have the keys of the entries. -/
theorem UnfoldsFields.map_keys {E : Env} {h : Heap Host} {es : List (Key × LVal)}
    {fs : List (Bytes × Tree)} (hfs : UnfoldsFields E h es fs) :
    es.map Prod.fst = (fs.map Prod.fst).map Key.str := by
  induction es generalizing fs with
  | nil => cases hfs; rfl
  | cons e rest ih =>
    cases hfs with
    | cons hv hrest => simp [ih hrest]

mutual
/-- A tree of basic values that unfolds from a heap is read back as its normal
form, leaf by leaf, and has distinct keys. -/
theorem Unfolds.faithful {E : Env} {h : Heap Host} {v : LVal} {t : Tree} (ht : Unfolds E h v t)
    (hbasic : t.Basic) (slots : Slot → LVal) : t.Faithful slots := by
  cases ht with
  | leaf hleaf =>
    simp only [Tree.Basic] at hbasic
    obtain ⟨w, hw⟩ := normalLeaf_isSome hbasic slots
    exact ⟨w, hw, (scalarOf_leafValue hbasic (hleaf.2 0 (by simp)) slots).trans hw⟩
  | @doc r fs hplain hlen hfields =>
    simp only [Tree.Basic] at hbasic
    have hnodup := (h.get r).keys_nodup
    rw [hfields.map_keys] at hnodup
    exact ⟨hnodup.of_map _, hfields.faithful hbasic slots⟩
  | array hplain hlen helems =>
    simp only [Tree.Basic] at hbasic
    exact helems.faithful hbasic slots

theorem UnfoldsFields.faithful {E : Env} {h : Heap Host} {es : List (Key × LVal)}
    {fs : List (Bytes × Tree)} (hfs : UnfoldsFields E h es fs) (hbasic : Tree.FieldsBasic fs)
    (slots : Slot → LVal) : Tree.FieldsFaithful slots fs := by
  cases hfs with
  | nil => simp [Tree.FieldsFaithful]
  | cons hv hrest =>
    simp only [Tree.FieldsBasic] at hbasic
    exact ⟨hv.faithful hbasic.1 slots, hrest.faithful hbasic.2 slots⟩

theorem UnfoldsElems.faithful {E : Env} {h : Heap Host} {vs : List LVal} {ts : List Tree}
    (hts : UnfoldsElems E h vs ts) (hbasic : Tree.ElemsBasic ts) (slots : Slot → LVal) :
    Tree.ElemsFaithful slots ts := by
  cases hts with
  | nil => simp [Tree.ElemsFaithful]
  | cons hv hrest =>
    simp only [Tree.ElemsBasic] at hbasic
    exact ⟨hv.faithful hbasic.1 slots, hrest.faithful hbasic.2 slots⟩
end

theorem map_fst_fieldValues (fs : List (Bytes × Tree)) :
    (Tree.fieldValues fs).map Prod.fst = fs.map Prod.fst := by
  induction fs with
  | nil => simp
  | cons f rest ih =>
    obtain ⟨key, t⟩ := f
    simp [ih]

theorem length_elemValues (i : Nat) (ts : List Tree) :
    (Tree.elemValues i ts).length = ts.length := by
  induction ts generalizing i with
  | nil => simp [Tree.elemValues]
  | cons t rest ih => simp [Tree.elemValues, ih]

mutual
/-- The value of a faithful tree is one that the decoder takes apart. -/
theorem Tree.Faithful.plain {slots : Slot → LVal} (t : Tree) (ht : t.Faithful slots) :
    IsPlain t.value ∧ KeysDistinct t.value := by
  cases t with
  | leaf v x =>
    obtain ⟨w, -, hx⟩ := ht
    exact ⟨(isPlain_of_scalarOf hx).1, (isPlain_of_scalarOf hx).2.1⟩
  | doc fs =>
    simp only [Tree.Faithful] at ht
    obtain ⟨hplain, hkeys⟩ := Tree.FieldsFaithful.plain fs ht.2
    simp only [Tree.value, IsPlain, KeysDistinct, map_fst_fieldValues]
    exact ⟨hplain, ht.1, hkeys⟩
  | array ts =>
    simp only [Tree.Faithful] at ht
    simp only [Tree.value, IsPlain, KeysDistinct]
    exact Tree.ElemsFaithful.plain 0 ts ht

theorem Tree.FieldsFaithful.plain {slots : Slot → LVal} (fs : List (Bytes × Tree))
    (hfs : Tree.FieldsFaithful slots fs) :
    DocPlain (Tree.fieldValues fs) ∧ DocKeysDistinct (Tree.fieldValues fs) := by
  match fs with
  | [] => simp [DocPlain, DocKeysDistinct]
  | (key, t) :: rest =>
    simp only [Tree.FieldsFaithful] at hfs
    have ht := Tree.Faithful.plain t hfs.1
    have hrest := Tree.FieldsFaithful.plain rest hfs.2
    simp only [Tree.fieldValues_cons, DocPlain, DocKeysDistinct]
    exact ⟨⟨ht.1, hrest.1⟩, ht.2, hrest.2⟩

theorem Tree.ElemsFaithful.plain {slots : Slot → LVal} (i : Nat) (ts : List Tree)
    (hts : Tree.ElemsFaithful slots ts) :
    DocPlain (Tree.elemValues i ts) ∧ DocKeysDistinct (Tree.elemValues i ts) := by
  match ts with
  | [] => simp [Tree.elemValues, DocPlain, DocKeysDistinct]
  | t :: rest =>
    simp only [Tree.ElemsFaithful] at hts
    have ht := Tree.Faithful.plain t hts.1
    have hrest := Tree.ElemsFaithful.plain (i + 1) rest hts.2
    simp only [Tree.elemValues, DocPlain, DocKeysDistinct]
    exact ⟨⟨ht.1, hrest.1⟩, ht.2, hrest.2⟩
end

mutual
/-- What is decoded of the value of a faithful tree is the normal form of the
tree. -/
theorem Decoded.isNormal {slots : Slot → LVal} {h : Heap Host} {lo : Ref} (t : Tree)
    (ht : t.Faithful slots) {w : LVal} (hw : Decoded slots h lo t.value w) :
    IsNormal slots h t w := by
  cases t with
  | leaf v x =>
    obtain ⟨w', hnormal, hx⟩ := ht
    rw [(isPlain_of_scalarOf hx).2.2.2 h lo w (by simpa [Tree.value] using hw)]
    exact hnormal
  | doc fs =>
    simp only [Tree.Faithful] at ht
    simp only [Tree.value, Decoded] at hw
    obtain ⟨r, rfl, -, hplain, hfields⟩ := hw
    exact ⟨r, rfl, hplain, DecodedFields.isNormal fs ht.2 hfields⟩
  | array ts =>
    simp only [Tree.Faithful] at ht
    simp only [Tree.value, Decoded, length_elemValues] at hw
    obtain ⟨r, es, rfl, -, hplain, hentries, helems⟩ := hw
    exact ⟨r, es, rfl, hplain, hentries, DecodedElems.isNormal 0 ts ht helems⟩

theorem DecodedFields.isNormal {slots : Slot → LVal} {h : Heap Host} {lo : Ref}
    (fs : List (Bytes × Tree)) (hfs : Tree.FieldsFaithful slots fs) {es : List (Key × LVal)}
    (hes : DecodedFields slots h lo (Tree.fieldValues fs) es) : FieldsNormal slots h fs es := by
  match fs, es with
  | [], [] => simp [FieldsNormal]
  | [], e :: es => simp [DecodedFields] at hes
  | (key, t) :: rest, [] => simp [DecodedFields] at hes
  | (key, t) :: rest, (k, w) :: es =>
    simp only [Tree.FieldsFaithful] at hfs
    simp only [Tree.fieldValues_cons, DecodedFields] at hes
    exact ⟨hes.1, Decoded.isNormal t hfs.1 hes.2.1, DecodedFields.isNormal rest hfs.2 hes.2.2⟩

theorem DecodedElems.isNormal {slots : Slot → LVal} {h : Heap Host} {lo : Ref} (i : Nat)
    (ts : List Tree) (hts : Tree.ElemsFaithful slots ts) {es : List (Key × LVal)}
    (hes : DecodedElems slots h lo i (Tree.elemValues i ts) es) : ElemsNormal slots h i ts es := by
  match ts, es with
  | [], [] => simp [ElemsNormal]
  | [], e :: es => simp [Tree.elemValues, DecodedElems] at hes
  | t :: rest, [] => simp [Tree.elemValues, DecodedElems] at hes
  | t :: rest, (k, w) :: es =>
    simp only [Tree.ElemsFaithful] at hts
    simp only [Tree.elemValues, DecodedElems] at hes
    exact ⟨hes.1, Decoded.isNormal t hts.1 hes.2.1,
      DecodedElems.isNormal (i + 1) rest hts.2 hes.2.2⟩
end

mutual
/-- A tree that the encoder has slots for leaves the decoder room: the decoder
uses at most two slots where the encoder uses one. -/
theorem Tree.Shallow.stackRoom {slots : Slot → LVal} (t : Tree) (ht : t.Faithful slots)
    {top top' : Nat} (hshallow : t.Shallow top) (htop : top' ≤ 2 * top + MAXSTACK) :
    StackRoom top' t.value := by
  cases t with
  | leaf v x =>
    obtain ⟨w, -, hx⟩ := ht
    exact (isPlain_of_scalarOf hx).2.2.1 top'
  | doc fs =>
    simp only [Tree.Shallow] at hshallow
    simp only [Tree.Faithful] at ht
    simp only [Tree.value, StackRoom]
    exact ⟨checkstack_of_le (by omega),
      Tree.FieldsShallow.docRoom fs ht.2 hshallow.2 (by omega)⟩
  | array ts =>
    simp only [Tree.Shallow] at hshallow
    simp only [Tree.Faithful] at ht
    simp only [Tree.value, StackRoom]
    exact ⟨checkstack_of_le (by omega),
      Tree.ElemsShallow.docRoom 0 ts ht hshallow.2 (by omega)⟩

theorem Tree.FieldsShallow.docRoom {slots : Slot → LVal} (fs : List (Bytes × Tree))
    (hfs : Tree.FieldsFaithful slots fs) {top top' : Nat} (hshallow : Tree.FieldsShallow top fs)
    (htop : top' ≤ 2 * top + MAXSTACK) : DocRoom top' (Tree.fieldValues fs) := by
  match fs with
  | [] => simp [DocRoom]
  | (key, t) :: rest =>
    simp only [Tree.FieldsFaithful] at hfs
    simp only [Tree.FieldsShallow] at hshallow
    simp only [Tree.fieldValues_cons, DocRoom]
    exact ⟨Tree.Shallow.stackRoom t hfs.1 hshallow.1 htop,
      Tree.FieldsShallow.docRoom rest hfs.2 hshallow.2 htop⟩

theorem Tree.ElemsShallow.docRoom {slots : Slot → LVal} (i : Nat) (ts : List Tree)
    (hts : Tree.ElemsFaithful slots ts) {top top' : Nat} (hshallow : Tree.ElemsShallow top ts)
    (htop : top' ≤ 2 * top + MAXSTACK) : DocRoom top' (Tree.elemValues i ts) := by
  match ts with
  | [] => simp [Tree.elemValues, DocRoom]
  | t :: rest =>
    simp only [Tree.ElemsFaithful] at hts
    simp only [Tree.ElemsShallow] at hshallow
    simp only [Tree.elemValues, DocRoom]
    exact ⟨Tree.Shallow.stackRoom t hts.1 hshallow.1 htop,
      Tree.ElemsShallow.docRoom (i + 1) rest hts.2 hshallow.2 htop⟩
end

/-- Encode, then decode: a value that unfolds to a tree of basic leaves is
appended under a key without NUL, when the limits of the stack and of the
buffer are kept, and the field that is appended is decoded to the normal form
of the tree. -/
theorem appendValue_unpackValue (E : Env) {h : Heap Host} {v : LVal} {t : Tree}
    (ht : Unfolds E h v t) (hbasic : t.Basic) (hkeys : t.KeysNulFree) {top : Nat}
    {path : Finset Ref} (htop : top ≤ MAXSTACK + 1) (hshallow : t.Shallow top)
    (habove : PathAbove E h path t.size) {key : Bytes} (hkey : NulFree key) {b : BsonT}
    (hb : Writable b) (hsize : b.closed + fieldSize key t.value ≤ b.limit) :
    ∃ x, appendValue E (appendTableFull E) top ⟨h, path⟩ v (some b) key =
        .ok (⟨h, path⟩, some (b.push key x)) ∧
      ∀ (L : State) (top' : Nat), L.slots .GLOBAL_NULL ≠ .nil → top' ≤ MAXSTACK →
        ∃ L' w, unpackValue E .nil top' L x = .ok (L', w) ∧ IsNormal L.slots L'.heap t w := by
  have hfits : Fits b [(key, t)] := ⟨by simpa using ⟨hkey, hkeys⟩, by simpa using hsize⟩
  have hwritten := (ht.encodes htop hshallow habove).appendValue_spec
    (writesTables_appendTable E (MAXSTACK + 1) (by omega)) hb key
  refine ⟨t.value, ?_, fun L top' hnull htop' => ?_⟩
  · rcases hwritten with ⟨-, hnot⟩ | ⟨ds, hok, -, -, hfull⟩
    · exact absurd hfits hnot
    · rw [appendTableFull, hok, hfull hfits]
      simp [BsonT.extend_single]
  · have hfaithful := ht.faithful hbasic L.slots
    obtain ⟨hplain, hdistinct⟩ := Tree.Faithful.plain t hfaithful
    obtain ⟨L', w, hok, -, hdecoded⟩ := unpackValue_decoded E hnull t.value hplain hdistinct L rfl
      top' (Tree.Shallow.stackRoom t hfaithful hshallow (by omega))
    exact ⟨L', w, hok, Decoded.isNormal t hfaithful hdecoded⟩

/-- An array table with a hole. -/
def holeHeap : Heap Host :=
  [(Table.empty.rawset (.str (bytes "__array")) (.int 2)).rawset (.int 2) (.bool true)]

/-- Its tree. -/
def holeTree : Tree := .array [.leaf .nil .null, .leaf (.bool true) (.bool true)]

theorem unfolds_holeHeap : Unfolds Env.bare holeHeap (.table 0) holeTree := by
  have hnil : Unfolds Env.bare holeHeap .nil (.leaf .nil .null) := .leaf ⟨rfl, fun _ _ => rfl⟩
  have htrue : Unfolds Env.bare holeHeap (.bool true) (.leaf (.bool true) (.bool true)) :=
    .leaf ⟨rfl, fun _ _ => rfl⟩
  have helems : elementsFrom (holeHeap.get 0) 0 2 = [.nil, .bool true] := rfl
  refine .array (n := 2) ⟨by decide, rfl⟩ (by decide) ?_
  rw [helems]
  exact .cons hnil (.cons htrue .nil)

theorem appendValue_unpackValue_hole :
    ∃ x, appendValue Env.bare (appendTableFull Env.bare) 1 ⟨holeHeap, ∅⟩ (.table 0)
        (some BsonT.bson_init) (bytes "a") =
          .ok (⟨holeHeap, ∅⟩, some (BsonT.bson_init.push (bytes "a") x)) ∧
      ∀ (L : State) (top' : Nat), L.slots .GLOBAL_NULL ≠ .nil → top' ≤ MAXSTACK →
        ∃ L' w, unpackValue Env.bare .nil top' L x = .ok (L', w) ∧
          IsNormal L.slots L'.heap holeTree w := by
  refine appendValue_unpackValue Env.bare unfolds_holeHeap ?_ ?_ (by decide) ?_ ?_ (by decide)
    ⟨by decide, by decide⟩ (by decide)
  · simp [holeTree, Tree.Basic, Tree.ElemsBasic, IsBasic]
  · simp [holeTree, Tree.KeysNulFree, Tree.ElemsNulFree]
  · simp [holeTree, Tree.Shallow, Tree.ElemsShallow, MAXSTACK]
  · intro m hm
    simp at hm

end Vklib.Mongo
