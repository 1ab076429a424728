import Vklib.Bson.WellFormed
import Vklib.Mongo.Append

/-!
# What the encoder writes is well formed

The documents of a script come from tables, from Lua code that `__toBSON` calls, and from
other documents.  `HeapSound` says that the objects of the library among the values of a
heap are ones that the library made, and `EnvSound` that Lua code and the parsers keep to it.

The proof follows the calls: an append keeps a document well formed and within its bound
(`Grown`), so do the loops over a table, and by induction over the levels so does
`appendTable`.  `Made` adds the methods of a document: whatever a script appends and
concatenates, its documents stay well formed.  A run that ends in an error is no subject here,
except for `data_loads`: what becomes of the bytes of a document when they are loaded again.

A Binary with a subtype such as 258 is the exception: the subtype is compared with the
deprecated one before it is cut to a byte, so its payload does not count itself.
-/

namespace Vklib.Mongo

open Vklib.Lua Vklib.Bson Buffer

/-! ## Sound values -/

/-- An object of the library among the values of a script is one that it made. -/
def ValSound : LVal → Prop
  | .host (.bson doc) => DocWellFormed doc
  | .host (.objectID id) => id.length = 12
  | _ => True

/-- The type of a typed table, and the subtype that a Binary holds. -/
def typeOf (E : Env) (h : Heap Host) (r : Ref) : UInt32 :=
  (tointeger E (h.getmetafield (.table r) (bytes "__type"))).toUInt64.toUInt32

def subtypeOf (E : Env) (t : Table Host) : UInt32 := (tointeger E (param t 2)).toUInt64.toUInt32

/-- The values of a heap are sound, and no Binary has a subtype that is deprecated only
after it is cut. -/
structure HeapSound (E : Env) (h : Heap Host) : Prop where
  val : ∀ r k, ValSound ((h.get r).get k)
  binary : ∀ r, typeOf E h r = 5 → (subtypeOf E (h.get r)).toUInt8 = 2 →
    subtypeOf E (h.get r) = 2

/-- Lua code and the parsers of documents make sound values. -/
structure EnvSound (E : Env) : Prop where
  heap : ∀ h f args, HeapSound E h → HeapSound E (h ++ (E.call h f args).1)
  val : ∀ h f args v, HeapSound E h → (E.call h f args).2 = .ok v → ValSound v
  json : ∀ s doc, E.bson_init_from_json s = .ok doc → DocWellFormed doc

/-! ## Appends -/

/-- A document that grew from another one: it is well formed and not too large. -/
structure Grown (b c : BsonT) : Prop where
  limit : c.limit = b.limit
  outer : c.outer = b.outer
  bound : c.limit ≤ BSON_MAX_SIZE
  fields : FieldsWellFormed c.fields
  room : c.closed ≤ BSON_MAX_SIZE

theorem Grown.push {b c : BsonT} (h : Grown b c) {k : Bytes} {v : Value} (hk : NulFree k)
    (hv : v.WellFormed) (hfits : c.closed + fieldSize k v ≤ BSON_MAX_SIZE) :
    Grown b (c.push k v) where
  limit := h.limit
  outer := h.outer
  bound := h.bound
  fields := fieldsWellFormed_append.mpr ⟨h.fields, by simpa [FieldsWellFormed] using ⟨hk, hv⟩⟩
  room := by rw [BsonT.closed_push]; exact hfits

/-- A new document. -/
theorem grown_new {limit : Nat} (hlimit : limit ≤ BSON_MAX_SIZE) :
    Grown ⟨limit, 0, []⟩ ⟨limit, 0, []⟩ :=
  ⟨rfl, rfl, hlimit, trivial, show 5 ≤ BSON_MAX_SIZE by decide⟩

theorem grown_bson_init : Grown BsonT.bson_init BsonT.bson_init := grown_new (by decide)

/-- An append that is refused changes nothing. -/
theorem Grown.append {b c c' : BsonT} (h : Grown b c) {key : Bytes} {v : Value}
    (hv : v.WellFormed) {ok : Bool} (happend : bson_append c key v = some (ok, c')) :
    Grown b c' := by
  rcases bson_append_cases c key v with ⟨k, hk, hfits, heq⟩ | heq | ⟨k, -, -, heq⟩
  · obtain ⟨-, rfl⟩ := Prod.mk.inj (Option.some.inj (happend.symm.trans heq))
    exact h.push (nulFree_of_HANDLE_KEY_LENGTH hk) hv (hfits.trans h.bound)
  · obtain ⟨-, rfl⟩ := Prod.mk.inj (Option.some.inj (happend.symm.trans heq))
    exact h
  · simp [happend] at heq

/-- What comes of an append through `appendTo`. -/
def GrownTarget (b : BsonT) (result : Target) : Prop := ∃ c, result = some c ∧ Grown b c

theorem grownTarget_append {b c : BsonT} (h : Grown b c) (key : Bytes) {v : Value}
    (hv : v.WellFormed) {result : Target}
    (hrun : appendTo (some c) (bson_append · key v) = .ok result) : GrownTarget b result := by
  rw [appendTo] at hrun
  obtain ⟨⟨ok, c'⟩, happend, hresult⟩ := Outcome.elim_undefined_eq_ok_iff.mp hrun
  exact ⟨c', (Outcome.ok.inj hresult).symm, h.append hv happend⟩

theorem nulFree_sortedOptions (options : Bytes) : NulFree (sortedOptions options) := by
  intro hmem
  have hzero := (List.mem_filter.mp hmem).1
  revert hzero
  decide

theorem valSound_param {t : Table Host} (hval : ∀ k, ValSound (t.get k)) (i : Nat) :
    ValSound (param t i) := by
  rw [param]
  split
  · exact hval _
  · trivial

/-- The payload of the deprecated subtype counts itself when the subtype is not cut. -/
theorem wellFormed_binary {subtype : UInt32} (data : Bytes)
    (h : subtype.toUInt8 = 2 → subtype = 2) :
    (if subtype = 2 then Value.binary subtype.toUInt8 (le32 data.length.toUInt32 ++ data)
      else .binary subtype.toUInt8 data).WellFormed := by
  split_ifs with htwo
  · intro _
    rw [List.drop_left' (length_le32 _)]
  · exact fun hcut => absurd (h hcut) htwo

/-- The value of a typed table, under its type. -/
theorem appendBSONType_grown {E : Env} {top : Nat} {type : UInt32} {t : Table Host} {b c : BsonT}
    {key : Bytes} {result : Target} (h : Grown b c) (hval : ∀ k, ValSound (t.get k))
    (hbinary : type = 5 → (subtypeOf E t).toUInt8 = 2 → subtypeOf E t = 2)
    (hrun : appendBSONType E top type t (some c) key = .ok result) : GrownTarget b result := by
  rw [appendBSONType] at hrun
  split at hrun
  · split at hrun
    all_goals first
      | exact grownTarget_append h key (by simp [Value.WellFormed]) hrun
      | skip
    · -- a Decimal128
      split at hrun
      · cases hrun
      · exact grownTarget_append h key (by simp [Value.WellFormed]) hrun
    · -- a Binary
      rename_i htype
      have hsubtype : (subtypeOf E t).toUInt8 = 2 → subtypeOf E t = 2 :=
        hbinary (UInt32.toNat_inj.mp htype)
      split at hrun
      · cases hrun
      · rename_i data _
        have hwell := wellFormed_binary (data.take (data.length % 2 ^ 32)) hsubtype
        refine grownTarget_append h key hwell ?_
        rw [← hrun, appendTo, appendTo, bson_append_binary, subtypeOf]
        split <;> rfl
    · -- a Regex
      split at hrun
      · split at hrun
        · cases hrun
        · cases hrun
          exact ⟨c, rfl, h⟩
      · refine grownTarget_append h key ?_ hrun
        exact ⟨nulFree_cutString _, nulFree_sortedOptions _⟩
    · -- a Javascript
      split at hrun
      · cases hrun
      · split at hrun
        · rename_i scope hscope
          have hsound := valSound_param hval 2
          rw [hscope] at hsound
          exact grownTarget_append h key (by simpa only [Value.WellFormed] using hsound.fields) hrun
        · exact grownTarget_append h key (by simp [Value.WellFormed]) hrun
    · cases hrun
  · cases hrun

/-! ## Values and tables -/

/-- What a level of the encoder comes to: the document has grown, and the heap is sound. -/
def Sound (E : Env) (b : BsonT) (result : Outcome AppendError (Enc × Target)) : Prop :=
  ∀ s c, result = .ok (s, c) → HeapSound E s.heap ∧ GrownTarget b c

/-- A leaf leaves the heap alone. -/
theorem sound_leaf {E : Env} {s : Enc} {b : BsonT} {x : Outcome AppendError Target}
    (hheap : HeapSound E s.heap) (hx : ∀ c, x = .ok c → GrownTarget b c) :
    Sound E b (do let b ← x; .ok (s, b)) := by
  intro s' c hrun
  obtain ⟨c', hc', hpair⟩ := Outcome.bind_eq_ok_iff.mp hrun
  obtain ⟨rfl, rfl⟩ := Outcome.ok_prod_inj hpair
  exact ⟨hheap, hx _ hc'⟩

/-- A child that has grown is the last field of its parent. -/
theorem Grown.append_end {b c child : BsonT} {key k : Bytes} (h : Grown b c)
    (hbegin : bson_append_begin c key = some (some (k, child))) {child' : BsonT}
    (hchild : Grown child child') (asArray : Bool) :
    Grown b (bson_append_end c asArray k child') := by
  obtain ⟨hk, hfits, rfl⟩ := bson_append_begin_eq_some hbegin
  have hroom := hchild.room
  have houter := hchild.outer
  have hstart : (c.child k).outer = c.closed + (1 + k.length + 1) := rfl
  rw [BsonT.closed, houter, hstart] at hroom
  have hwell : (if asArray then Value.array child'.fields else .document child'.fields).WellFormed := by
    split <;> simpa only [Value.WellFormed] using hchild.fields
  refine h.push (nulFree_of_HANDLE_KEY_LENGTH hk) hwell ?_
  have hsize : (if asArray then Value.array child'.fields else .document child'.fields).size =
      docSize child'.fields := by
    split <;> simp [Value.size, docSize]
  rw [fieldSize, hsize]
  omega

/-- A child that was begun has grown from itself. -/
theorem grown_child {b : BsonT} {key k : Bytes} {child : BsonT} (hbound : b.limit ≤ BSON_MAX_SIZE)
    (hbegin : bson_append_begin b key = some (some (k, child))) : Grown child child := by
  obtain ⟨-, hfits, rfl⟩ := bson_append_begin_eq_some hbegin
  exact ⟨rfl, rfl, hbound, by simp [FieldsWellFormed], by
    rw [BsonT.closed_child]
    exact hfits.trans hbound⟩

section

variable {E : Env} {table : AppendTable} {top : Nat} {s : Enc} {v : LVal} {b c : BsonT}
  {key : Bytes}

/-- A nested table. -/
theorem appendNested_sound (h : Grown b c) {r : Ref}
    (htable : ∀ d len, Grown d d → Sound E d (table top s r (some d) len)) :
    Sound E b (appendNested E table top s r (some c) key) := by
  intro s' result hrun
  rw [appendNested] at hrun
  split at hrun
  · cases hrun
  · dsimp only at hrun
    split at hrun
    · cases hrun
    · obtain ⟨-, -, hundefined⟩ := Outcome.bind_eq_ok_iff.mp hrun
      cases hundefined
    · rename_i len _ _ k child hbegin
      obtain ⟨⟨s₁, target⟩, htarget, hend⟩ := Outcome.bind_eq_ok_iff.mp hrun
      obtain ⟨hheap, child', rfl, hgrown⟩ :=
        htable child len (grown_child h.bound hbegin) s₁ target htarget
      cases hend
      exact ⟨hheap, _, rfl, h.append_end hbegin hgrown _⟩

theorem appendSwitch_sound (hheap : HeapSound E s.heap) (hv : ValSound v) (h : Grown b c)
    (htable : ∀ r d len, Grown d d → Sound E d (table top s r (some d) len)) :
    Sound E b (appendSwitch E table top s v (some c) key) := by
  have hleaf : ∀ {x : Value}, x.WellFormed →
      Sound E b (do let b ← appendTo (some c) (bson_append · key x); .ok (s, b)) :=
    fun hx => sound_leaf hheap fun _ hrun => grownTarget_append h key hx hrun
  have hinteger : ∀ i : Int64, Sound E b (if isInt32 i then
      (do let b ← appendTo (some c) (bson_append_int32 · key i.toInt32); .ok (s, b))
      else do let b ← appendTo (some c) (bson_append_int64 · key i); .ok (s, b)) := by
    intro i
    split
    · exact hleaf (by simp [Value.WellFormed])
    · exact hleaf (by simp [Value.WellFormed])
  cases v with
  | nil => exact hleaf (by simp [Value.WellFormed])
  | bool x => exact hleaf (by simp [Value.WellFormed])
  | int i => exact hinteger i
  | flt x =>
    simp only [appendSwitch]
    split
    · exact hinteger _
    · exact hleaf (by simp [Value.WellFormed])
  | str str => exact hleaf (by simp [Value.WellFormed])
  | table r =>
    simp only [appendSwitch]
    split
    · exact appendNested_sound h fun d len hd => htable r d len hd
    · exact sound_leaf hheap fun _ hrun =>
        appendBSONType_grown h (hheap.val r) (hheap.binary r) hrun
  | userdata id m => rintro _ _ ⟨⟩
  | host u =>
    cases u with
    | bson doc =>
      have hdoc : FieldsWellFormed doc := DocWellFormed.fields hv
      simp only [appendSwitch]
      split
      · exact hleaf (x := .array doc) (by simpa only [Value.WellFormed] using hdoc)
      · exact hleaf (x := .document doc) (by simpa only [Value.WellFormed] using hdoc)
    | objectID id =>
      have hid : id.length = 12 := hv
      exact hleaf (by simpa only [Value.WellFormed] using hid)
    | cfunc f => rintro _ _ ⟨⟩
    | luafunc id => rintro _ _ ⟨⟩
    | thread id => rintro _ _ ⟨⟩
    | light id => rintro _ _ ⟨⟩

/-- A value, after `__toBSON`. -/
theorem appendValue_sound (hE : EnvSound E) (hheap : HeapSound E s.heap) (hv : ValSound v)
    (h : Grown b c)
    (htable : ∀ s r d len, HeapSound E s.heap → Grown d d →
      Sound E d (table top s r (some d) len)) :
    Sound E b (appendValue E table top s v (some c) key) := by
  intro s' result hrun
  obtain ⟨⟨heap, v'⟩, htransform, hswitch⟩ := Outcome.bind_eq_ok_iff.mp hrun
  have hsound : HeapSound E heap ∧ ValSound v' := by
    rw [transform] at htransform
    generalize s.heap.getmetafield v (bytes "__toBSON") = f at htransform
    split at htransform
    · cases htransform
      exact ⟨hheap, hv⟩
    · have hcall := hE.heap s.heap f [v] hheap
      have hresult := hE.val s.heap f [v]
      split at htransform
      · rename_i new v₁ hnew
        rw [hnew] at hcall hresult
        cases htransform
        exact ⟨hcall, hresult _ hheap rfl⟩
      · cases htransform
  exact appendSwitch_sound hsound.1 hsound.2 h (fun r d len hd => htable _ r d len hsound.1 hd)
    s' result hswitch

end

/-- The loop over an array. -/
theorem arrayLoop_sound {E : Env} {r : Ref} {b : BsonT}
    {value : Enc → LVal → Target → Bytes → Outcome AppendError (Enc × Target)}
    (hvalue : ∀ s v c key, HeapSound E s.heap → ValSound v → Grown b c →
      Sound E b (value s v (some c) key)) (n i : Nat) {s : Enc} {c : BsonT}
    (hheap : HeapSound E s.heap) (h : Grown b c) : Sound E b (arrayLoop value r n i s (some c)) := by
  induction n generalizing i s c with
  | zero =>
    intro s' result hrun
    cases hrun
    exact ⟨hheap, c, rfl, h⟩
  | succ n ih =>
    intro s' result hrun
    obtain ⟨⟨s₁, target⟩, hfirst, hrest⟩ := Outcome.bind_eq_ok_iff.mp hrun
    rw [Outcome.mapError_eq_ok_iff] at hfirst
    obtain ⟨hheap₁, c₁, rfl, h₁⟩ :=
      hvalue s _ c _ hheap (hheap.val r _) h s₁ target hfirst
    exact ih (i + 1) hheap₁ h₁ s' result hrest

/-- The loop over a document.  The entries are those of the start. -/
theorem documentLoop_sound {E : Env} {b : BsonT}
    {value : Enc → LVal → Target → Bytes → Outcome AppendError (Enc × Target)}
    (hvalue : ∀ s v c key, HeapSound E s.heap → ValSound v → Grown b c →
      Sound E b (value s v (some c) key)) (entries : List (Key × LVal))
    (hentries : ∀ e ∈ entries, ValSound e.2) {s : Enc} {c : BsonT}
    (hheap : HeapSound E s.heap) (h : Grown b c) :
    Sound E b (documentLoop value entries s (some c)) := by
  induction entries generalizing s c with
  | nil =>
    intro s' result hrun
    cases hrun
    exact ⟨hheap, c, rfl, h⟩
  | cons e rest ih =>
    obtain ⟨k, v⟩ := e
    intro s' result hrun
    cases k with
    | str key =>
      obtain ⟨⟨s₁, target⟩, hfirst, hrest⟩ := Outcome.bind_eq_ok_iff.mp hrun
      rw [Outcome.mapError_eq_ok_iff] at hfirst
      obtain ⟨hheap₁, c₁, rfl, h₁⟩ :=
        hvalue s v c key hheap (hentries _ (List.mem_cons_self ..)) h s₁ target hfirst
      exact ih (fun e he => hentries e (List.mem_cons_of_mem _ he)) hheap₁ h₁ s' result hrest
    | int i => cases hrun
    | other name id => cases hrun

/-- Every level of the encoder. -/
theorem appendTable_sound {E : Env} (hE : EnvSound E) (fuel top : Nat) {s : Enc} {r : Ref}
    {b c : BsonT} {len : Int} (hheap : HeapSound E s.heap) (h : Grown b c) :
    Sound E b (appendTable E fuel top s r (some c) len) := by
  induction fuel generalizing top s r b c len with
  | zero =>
    intro s' result hrun
    cases hrun
  | succ fuel ih =>
    intro s' result hrun
    rw [appendTable] at hrun
    split_ifs at hrun
    obtain ⟨⟨s₁, target⟩, hloop, hend⟩ := Outcome.bind_eq_ok_iff.mp hrun
    have hvalue : ∀ top s v c key, HeapSound E s.heap → ValSound v → Grown b c →
        Sound E b (appendValue E (appendTable E fuel) top s v (some c) key) :=
      fun top s v c key hheap hv hc => appendValue_sound hE hheap hv hc
        fun s r d len hheap hd => ih top hheap hd
    have hmarked : HeapSound E ({ s with ridx := insert r s.ridx } : Enc).heap := hheap
    have hsound : HeapSound E s₁.heap ∧ GrownTarget b target := by
      rw [tableLoop] at hloop
      split_ifs at hloop
      · exact arrayLoop_sound (hvalue (top + 1)) _ _ hmarked h _ _ hloop
      · refine documentLoop_sound (hvalue (top + 2)) _ (fun e he => ?_) hmarked h _ _ hloop
        obtain ⟨k, v⟩ := e
        have hv := hheap.val r k
        rwa [Table.get, lookup_of_mem (s.heap.get r).keys_nodup he] at hv
    obtain ⟨hheap₁, htarget⟩ := hsound
    cases hend
    exact ⟨hheap₁, htarget⟩

/-! ## Documents -/

/-- A table that is encoded into a document. -/
theorem encodeTable_sound {E : Env} (hE : EnvSound E) {top arg : Nat} {h h' : Heap Host} {r : Ref}
    {b c : BsonT} {len : Int} (hheap : HeapSound E h) (hb : Grown b b)
    (hrun : encodeTable E top h arg r b = .ok (h', c, len)) : HeapSound E h' ∧ Grown b c := by
  rw [encodeTable] at hrun
  split at hrun
  · cases hrun
  · split at hrun
    · rename_i s b' happend
      rw [Outcome.mapError_eq_ok_iff] at happend
      obtain ⟨hheap', c', hc', hgrown⟩ :=
        appendTable_sound hE _ top (s := { heap := h, ridx := ∅ }) hheap hb s (some b') happend
      cases hc'
      cases hrun
      exact ⟨hheap', hgrown⟩
    all_goals cases hrun

/-- The value that `__toBSON` makes of an argument. -/
theorem callToBSON_sound {E : Env} (hE : EnvSound E) {h h' : Heap Host} {v v' : LVal}
    (hheap : HeapSound E h) (hv : ValSound v) (hrun : callToBSON E h v = .ok (h', v')) :
    HeapSound E h' ∧ ValSound v' := by
  rw [callToBSON] at hrun
  generalize h.getmetafield v (bytes "__toBSON") = f at hrun
  split at hrun
  · cases hrun
    exact ⟨hheap, hv⟩
  · have hnew := hE.heap h f [v] hheap
    have hresult := hE.val h f [v]
    split at hrun
    · rename_i new v' hpair
      rw [hpair] at hnew hresult
      cases hrun
      exact ⟨hnew, hresult _ hheap rfl⟩
    · cases hrun

/-- A text that is read as a document. -/
theorem initBSON_wellFormed {E : Env} (hE : EnvSound E) {str : Bytes} {ds : Doc}
    (hrun : initBSON E str = .ok ds) : DocWellFormed ds := by
  rw [initBSON] at hrun
  split_ifs at hrun with hstr
  · exact (initStored_eq_ok hstr hrun).1
  · cases hjson : E.bson_init_from_json str with
    | ok doc =>
      rw [hjson] at hrun
      cases hrun
      exact hE.json str _ hjson
    | error message =>
      rw [hjson] at hrun
      cases hrun

/-- An argument that is cast to a document. -/
theorem castBSON_sound {E : Env} (hE : EnvSound E) {limit top arg : Nat}
    (hlimit : limit ≤ BSON_MAX_SIZE) {h h' : Heap Host} {v : LVal} {ds : Doc}
    (hheap : HeapSound E h) (hv : ValSound v)
    (hrun : castBSON E limit top h arg v = .ok (h', ds)) : HeapSound E h' ∧ DocWellFormed ds := by
  rw [castBSON] at hrun
  split at hrun
  · -- a text
    rename_i str _
    obtain ⟨doc, hinit, hpair⟩ := Outcome.bind_eq_ok_iff.mp hrun
    obtain ⟨rfl, rfl⟩ := Outcome.ok_prod_inj hpair
    rw [Outcome.mapError_eq_ok_iff] at hinit
    exact ⟨hheap, initBSON_wellFormed hE hinit⟩
  · obtain ⟨⟨h₁, v₁⟩, hcall, hrest⟩ := Outcome.bind_eq_ok_iff.mp hrun
    obtain ⟨hheap₁, hv₁⟩ := callToBSON_sound hE hheap hv hcall
    dsimp only at hrest
    split at hrest
    · cases hrest
      exact ⟨hheap₁, hv₁⟩
    · obtain ⟨⟨h₂, b, len⟩, hencode, hpair⟩ := Outcome.bind_eq_ok_iff.mp hrest
      obtain ⟨rfl, rfl⟩ := Outcome.ok_prod_inj hpair
      obtain ⟨hheap₂, hgrown⟩ := encodeTable_sound hE hheap₁ (grown_new hlimit) hencode
      have hroom := hgrown.room
      rw [BsonT.closed, hgrown.outer, Nat.zero_add] at hroom
      exact ⟨hheap₂, hgrown.fields, hroom⟩
    · cases hrest

/-! ## The methods of a document -/

/-- A value that `toBSONValue` copies. -/
def BsonValueT.WellFormed : BsonValueT → Prop
  | .document data | .array data => FieldsWellFormed data
  | .binary subtype _ => subtype.toUInt8 = 2 → subtype = 2
  | .oid id => id.length = 12
  | .regex (some pattern) _ => NulFree pattern
  | .codewscope _ scope => FieldsWellFormed scope
  | _ => True

/-- `m_concat` with its second argument, which may be the object itself. -/
def m_concat (E : Env) (top : Nat) (h : Heap Host) (b : BsonT) (v : LVal) (same : Bool) :
    Outcome LuaError (Heap Host × BsonT) := do
  let (h, value) ← castBSON E BSON_GROW_LIMIT top h 2 v
  if same then .error (.argument 2 (bytes "invalid value"))
  else .ok (h, (bson_concat b value).2)

/-- `bson_append_value` is one append. -/
theorem bson_append_value_grown {b c c' : BsonT} {key : Bytes} {x : BsonValueT} {r : Bool}
    (h : Grown b c) (hx : x.WellFormed)
    (hrun : bson_append_value c key x = some (r, c')) : Grown b c' := by
  have happend : ∀ {v : Value}, v.WellFormed → bson_append c key v = some (r, c') → Grown b c' :=
    fun hv heq => h.append hv heq
  cases x with
  | binary subtype data =>
    have hwell := wellFormed_binary (data.take (data.length % 2 ^ 32)) hx
    refine happend hwell ?_
    rw [← hrun, bson_append_value, bson_append_binary]
    split <;> rfl
  | regex pattern options =>
    cases pattern with
    | none =>
      rw [bson_append_value] at hrun
      split at hrun
      · cases hrun
      · cases hrun
        exact h
    | some pattern =>
      exact happend (v := .regex (cutString pattern) (sortedOptions options))
        ⟨nulFree_cutString _, nulFree_sortedOptions _⟩ hrun
  | document data | array data | oid id | codewscope source scope =>
    exact happend (by simpa only [Value.WellFormed, BsonValueT.WellFormed] using hx) hrun
  | _ => exact happend (by simp [Value.WellFormed]) hrun

/-- The value of a typed table. -/
theorem toBSONType_wellFormed {E : Env} {top arg : Nat} {type : UInt32} {t : Table Host}
    {x : BsonValueT} (hval : ∀ k, ValSound (t.get k))
    (hbinary : type = 5 → (subtypeOf E t).toUInt8 = 2 → subtypeOf E t = 2)
    (hrun : toBSONType E top type arg t = .ok x) : x.WellFormed := by
  rw [toBSONType] at hrun
  split at hrun
  · split at hrun
    all_goals first
      | cases hrun; trivial
      | skip
    · -- a Decimal128
      split at hrun <;> cases hrun
      trivial
    · -- a Binary
      rename_i htype
      split at hrun
      · cases hrun
      · cases hrun
        exact hbinary (UInt32.toNat_inj.mp htype)
    · -- a Regex
      cases hrun
      cases tolstring E (param t 1) with
      | none => trivial
      | some pattern => exact nulFree_cString pattern
    · -- a Javascript
      split at hrun
      · cases hrun
      · split at hrun
        · rename_i scope hscope
          cases hrun
          have hsound := valSound_param hval 2
          rw [hscope] at hsound
          exact DocWellFormed.fields hsound
        · cases hrun
          trivial
    · cases hrun
  · cases hrun

/-- The value of an argument. -/
theorem toBSONValue_sound {E : Env} (hE : EnvSound E) {top arg : Nat} {h h' : Heap Host} {v : LVal}
    {x : BsonValueT} (hheap : HeapSound E h) (hv : ValSound v)
    (hrun : toBSONValue E top h arg v = .ok (h', x)) : HeapSound E h' ∧ x.WellFormed := by
  obtain ⟨⟨h₁, v₁⟩, hcall, hrest⟩ := Outcome.bind_eq_ok_iff.mp hrun
  obtain ⟨hheap₁, hv₁⟩ := callToBSON_sound hE hheap hv hcall
  have hleaf : ∀ {y : BsonValueT}, (Outcome.ok (h₁, y) : Outcome LuaError _) = .ok (h', x) →
      y.WellFormed → HeapSound E h' ∧ x.WellFormed := by
    intro y heq hy
    obtain ⟨rfl, rfl⟩ := Outcome.ok_prod_inj heq
    exact ⟨hheap₁, hy⟩
  have hnumber : ∀ i : Int64, (if isInt32 i then BsonValueT.int32 i.toInt32
      else .int64 i).WellFormed := by
    intro i
    split <;> trivial
  cases v₁ with
  | nil => exact hleaf hrest trivial
  | bool b => exact hleaf hrest trivial
  | int i => exact hleaf hrest (hnumber i)
  | flt f =>
    dsimp only at hrest
    split at hrest
    · exact hleaf hrest (hnumber _)
    · exact hleaf hrest trivial
  | str str => exact hleaf hrest trivial
  | table r =>
    dsimp only at hrest
    split at hrest
    · obtain ⟨⟨h₂, b, len⟩, hencode, hpair⟩ := Outcome.bind_eq_ok_iff.mp hrest
      obtain ⟨rfl, rfl⟩ := Outcome.ok_prod_inj hpair
      obtain ⟨hheap₂, hgrown⟩ := encodeTable_sound hE hheap₁ grown_bson_init hencode
      refine ⟨hheap₂, ?_⟩
      split <;> exact hgrown.fields
    · obtain ⟨y, htype, hpair⟩ := Outcome.bind_eq_ok_iff.mp hrest
      exact hleaf hpair (toBSONType_wellFormed (hheap₁.val r) (hheap₁.binary r) htype)
  | userdata id m => cases hrest
  | host u =>
    cases u with
    | bson doc =>
      refine hleaf hrest ?_
      split <;> exact DocWellFormed.fields hv₁
    | objectID id => exact hleaf hrest hv₁
    | cfunc f => cases hrest
    | luafunc id => cases hrest
    | thread id => cases hrest
    | light id => cases hrest

theorem m_append_sound {E : Env} (hE : EnvSound E) {top : Nat} {h h' : Heap Host} {b c : BsonT}
    {key v : LVal} (hheap : HeapSound E h) (hv : ValSound v) (hb : Grown b b)
    (hrun : m_append E top h b key v = .ok (h', c)) : HeapSound E h' ∧ Grown b c := by
  rw [m_append] at hrun
  split at hrun
  · cases hrun
  · obtain ⟨⟨h₁, x⟩, hvalue, hrest⟩ := Outcome.bind_eq_ok_iff.mp hrun
    obtain ⟨hheap₁, hx⟩ := toBSONValue_sound hE hheap hv hvalue
    obtain ⟨⟨r, c'⟩, happend, hpair⟩ := Outcome.elim_undefined_eq_ok_iff.mp hrest
    obtain ⟨rfl, rfl⟩ := Outcome.ok_prod_inj hpair
    exact ⟨hheap₁, bson_append_value_grown hb hx happend⟩

theorem m_concat_sound {E : Env} (hE : EnvSound E) {top : Nat} {h h' : Heap Host} {b c : BsonT}
    {v : LVal} {same : Bool} (hheap : HeapSound E h) (hv : ValSound v) (hb : Grown b b)
    (hrun : m_concat E top h b v same = .ok (h', c)) : HeapSound E h' ∧ Grown b c := by
  obtain ⟨⟨h₁, value⟩, hcast, hrest⟩ := Outcome.bind_eq_ok_iff.mp hrun
  obtain ⟨hheap₁, hvalue⟩ := castBSON_sound hE (by decide) hheap hv hcast
  dsimp only at hrest
  split_ifs at hrest
  obtain ⟨rfl, rfl⟩ := Outcome.ok_prod_inj hrest
  refine ⟨hheap₁, ?_⟩
  rw [bson_concat]
  split_ifs with hempty hfits
  · exact hb
  · exact ⟨rfl, rfl, hb.bound, fieldsWellFormed_append.mpr ⟨hb.fields, hvalue.fields⟩, by
      rw [BsonT.closed_extend]
      exact hfits.trans hb.bound⟩
  · exact hb

/-- The documents that a script makes, with the heap.  In between the script does what it
likes, but it makes no object of the library by itself. -/
inductive Made (E : Env) : Heap Host → BsonT → Prop where
  | new {h h' : Heap Host} {v : LVal} {ds : Doc} (hheap : HeapSound E h) (hv : ValSound v)
      (hrun : newBSON E h v = .ok (h', ds)) : Made E h' ⟨BSON_GROW_LIMIT, 0, ds⟩
  | script {h h' : Heap Host} {b : BsonT} (hmade : Made E h b) (hheap : HeapSound E h') :
      Made E h' b
  | append {top : Nat} {h h' : Heap Host} {b c : BsonT} {key v : LVal} (hmade : Made E h b)
      (hv : ValSound v) (hrun : m_append E top h b key v = .ok (h', c)) : Made E h' c
  | concat {top : Nat} {h h' : Heap Host} {b c : BsonT} {v : LVal} {same : Bool}
      (hmade : Made E h b) (hv : ValSound v) (hrun : m_concat E top h b v same = .ok (h', c)) :
      Made E h' c

/-- The heap of the table `{a = {b = 1}}`. -/
def scriptHeap : Heap Host :=
  [Table.empty.rawset (.str (bytes "a")) (.table 1), Table.empty.rawset (.str (bytes "b")) (.int 1)]

/-- Every document of a script is well formed, whatever tables and values it is made of and
whatever is appended to it. -/
theorem made_wellFormed {E : Env} (hE : EnvSound E) {h : Heap Host} {b : BsonT}
    (hmade : Made E h b) : DocWellFormed b.fields := by
  have hsound : HeapSound E h ∧ Grown b b ∧ b.outer = 0 := by
    induction hmade with
    | new hheap hv hrun =>
      obtain ⟨hheap', hfields, hsize⟩ := castBSON_sound hE (by decide) hheap hv hrun
      refine ⟨hheap', ⟨rfl, rfl, show BSON_GROW_LIMIT ≤ BSON_MAX_SIZE by decide, hfields, ?_⟩, rfl⟩
      rw [BsonT.closed, Nat.zero_add]
      exact hsize
    | script hmade hheap ih => exact ⟨hheap, ih.2⟩
    | append hmade hv hrun ih =>
      obtain ⟨hheap', hgrown⟩ := m_append_sound hE ih.1 hv ih.2.1 hrun
      exact ⟨hheap', { hgrown with limit := rfl, outer := rfl }, hgrown.outer.trans ih.2.2⟩
    | concat hmade hv hrun ih =>
      obtain ⟨hheap', hgrown⟩ := m_concat_sound hE ih.1 hv ih.2.1 hrun
      exact ⟨hheap', { hgrown with limit := rfl, outer := rfl }, hgrown.outer.trans ih.2.2⟩
  obtain ⟨-, hgrown, houter⟩ := hsound
  have hroom := hgrown.room
  rw [BsonT.closed, houter, Nat.zero_add] at hroom
  exact ⟨hgrown.fields, hroom⟩

theorem heapSound_scriptHeap : HeapSound Env.bare scriptHeap where
  val r k := by
    rcases r with _ | _ | n
    · simp only [scriptHeap, Heap.get, List.getElem?_cons_zero, Option.getD_some,
        Table.get_rawset]
      split <;> trivial
    · simp only [scriptHeap, Heap.get, List.getElem?_cons_zero, List.getElem?_cons_succ,
        Option.getD_some, Table.get_rawset]
      split <;> trivial
    · trivial
  binary r htype := by
    rcases r with _ | _ | n
    · exact absurd htype (by decide)
    · exact absurd htype (by decide)
    · exact absurd htype (by decide : (0 : UInt32) ≠ 5)

/-- The table `{a = {b = 1}}` becomes a document, and `c = 2` is appended. -/
theorem made_wellFormed_appended :
    DocWellFormed [(bytes "a", .document [(bytes "b", .int32 1)]), (bytes "c", .int32 2)] := by
  have hE : EnvSound Env.bare :=
    { heap := fun h _ _ hheap => by simpa only [Env.bare, List.append_nil] using hheap
      val := fun _ _ _ _ _ hcall => nomatch hcall
      json := fun _ _ hinit => nomatch hinit }
  have hnew : newBSON Env.bare scriptHeap (.table 0) =
      .ok (scriptHeap, [(bytes "a", .document [(bytes "b", .int32 1)])]) := rfl
  have happend : m_append Env.bare 3 scriptHeap
      ⟨BSON_GROW_LIMIT, 0, [(bytes "a", .document [(bytes "b", .int32 1)])]⟩
      (.str (bytes "c")) (.int 2) = .ok (scriptHeap, ⟨BSON_GROW_LIMIT, 0,
        [(bytes "a", .document [(bytes "b", .int32 1)]), (bytes "c", .int32 2)]⟩) := rfl
  have hmade := Made.new heapSound_scriptHeap (show ValSound (.table 0) from trivial) hnew
  exact made_wellFormed hE (.append hmade (show ValSound (.int 2) from trivial) happend)

end Vklib.Mongo
