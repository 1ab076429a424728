import Vklib.Mongo.Tree

/-!
# Writing a tree

What the encoder sees is a tree, and all that it does to its document is to
write that tree with the functions of libbson.  `writeFields` is this second
half alone: appends, begun and ended children, and nothing of the heap, the
stack or the metamethods.  It returns none when a child could not be begun,
which the encoder writes to all the same, or a size could not be counted.

`writeFields_kept` says what is written: the fields of the tree with some left
out (`PartialFields`), and all of them when no key has a NUL and the bound of
the buffer is kept (`Fits`).

`writeFields_shift` compares a document with one that stands deeper in a buffer
of the same bound: as long as there is room for what is around it, it takes the
same fields.
-/

namespace Vklib.Mongo

open Vklib.Lua Vklib.Bson

/-! ## The writer -/

mutual
/-- Write one field. -/
def writeField (b : BsonT) (key : Bytes) : Tree → Option BsonT
  | .leaf _ x => (bson_append b key x).map Prod.snd
  | .doc fs =>
    (bson_append_begin b key).join.bind fun p =>
      (writeFields p.2 fs).map (bson_append_end b false p.1)
  | .array ts =>
    (bson_append_begin b key).join.bind fun p =>
      (writeElems p.2 0 ts).map (bson_append_end b true p.1)

/-- Write fields one after the other. -/
def writeFields (b : BsonT) : List (Bytes × Tree) → Option BsonT
  | [] => some b
  | (key, t) :: rest => (writeField b key t).bind fun b => writeFields b rest

/-- Write elements, numbered from `i`. -/
def writeElems (b : BsonT) (i : Nat) : List Tree → Option BsonT
  | [] => some b
  | t :: rest => (writeField b (uint32_to_string i) t).bind fun b => writeElems b (i + 1) rest
end

@[simp] theorem writeField_leaf (b : BsonT) (key : Bytes) (v : LVal) (x : Value) :
    writeField b key (.leaf v x) = (bson_append b key x).map Prod.snd := by
  simp [writeField]

@[simp] theorem writeFields_nil (b : BsonT) : writeFields b [] = some b := by
  simp [writeFields]

@[simp] theorem writeFields_cons (b : BsonT) (key : Bytes) (t : Tree)
    (rest : List (Bytes × Tree)) :
    writeFields b ((key, t) :: rest) =
      (writeField b key t).bind fun b => writeFields b rest := by
  simp [writeFields]

/-- Elements are fields under their numbers. -/
theorem writeElems_eq (b : BsonT) (i : Nat) (ts : List Tree) :
    writeElems b i ts = writeFields b (Tree.indexed i ts) := by
  induction ts generalizing b i with
  | nil => simp [writeElems, Tree.indexed]
  | cons t rest ih => simp only [writeElems, Tree.indexed, writeFields_cons, ih]

/-- Write a nested table: begin a child, write its fields, end it. -/
def writeNested (b : BsonT) (key : Bytes) (asArray : Bool) (fs : List (Bytes × Tree)) :
    Option BsonT :=
  (bson_append_begin b key).join.bind fun p =>
    (writeFields p.2 fs).map (bson_append_end b asArray p.1)

@[simp] theorem writeField_doc (b : BsonT) (key : Bytes) (fs : List (Bytes × Tree)) :
    writeField b key (.doc fs) = writeNested b key false (Tree.doc fs).children := by
  simp only [writeField, writeNested, Tree.children]

@[simp] theorem writeField_array (b : BsonT) (key : Bytes) (ts : List Tree) :
    writeField b key (.array ts) = writeNested b key true (Tree.array ts).children := by
  simp only [writeField, writeNested, Tree.children, writeElems_eq]

/-! ## What is written -/

mutual
/-- A tree as it is written, with some of its fields left out. -/
inductive Partial : Tree → Value → Prop where
  | leaf {v : LVal} {x : Value} : Partial (.leaf v x) x
  | doc {fs : List (Bytes × Tree)} {ds : Doc} (h : PartialFields fs ds) :
      Partial (.doc fs) (.document ds)
  | array {ts : List Tree} {ds : Doc} (h : PartialFields (Tree.indexed 0 ts) ds) :
      Partial (.array ts) (.array ds)

inductive PartialFields : List (Bytes × Tree) → Doc → Prop where
  | nil : PartialFields [] []
  | skip {f : Bytes × Tree} {fs : List (Bytes × Tree)} {ds : Doc} (h : PartialFields fs ds) :
      PartialFields (f :: fs) ds
  | keep {key k : Bytes} {t : Tree} {x : Value} {fs : List (Bytes × Tree)} {ds : Doc}
      (hkey : HANDLE_KEY_LENGTH key = some k) (ht : Partial t x) (h : PartialFields fs ds) :
      PartialFields ((key, t) :: fs) ((k, x) :: ds)
end

theorem PartialFields.append {fs fs' : List (Bytes × Tree)} {ds ds' : Doc}
    (h : PartialFields fs ds) (h' : PartialFields fs' ds') :
    PartialFields (fs ++ fs') (ds ++ ds') := by
  induction fs generalizing ds with
  | nil => cases h; exact h'
  | cons f rest ih =>
    cases h with
    | skip hrest => exact .skip (ih hrest)
    | keep hkey ht hrest => exact .keep hkey ht (ih hrest)

/-- The keys have no NUL and the fields keep the bound of the document. -/
def Fits (b : BsonT) (fs : List (Bytes × Tree)) : Prop :=
  Tree.FieldsNulFree fs ∧ b.closed + fieldsSize (Tree.fieldValues fs) ≤ b.limit

/-- A document within its bound, which is one of libbson's. -/
structure Writable (b : BsonT) : Prop where
  bound : b.limit ≤ BSON_MAX_SIZE
  room : b.closed ≤ b.limit

theorem fits_cons {b : BsonT} {key : Bytes} {t : Tree} {rest : List (Bytes × Tree)} :
    Fits b ((key, t) :: rest) ↔
      Fits b [(key, t)] ∧ Fits (b.extend (Tree.fieldValues [(key, t)])) rest := by
  simp only [Fits, Tree.fieldsNulFree_cons, Tree.fieldValues_cons, Tree.fieldValues_nil,
    Tree.fieldsNulFree_nil, BsonT.closed_extend, BsonT.extend_limit, fieldsSize_cons,
    fieldsSize_nil]
  constructor
  · rintro ⟨⟨hkey, ht, hrest⟩, hsize⟩
    exact ⟨⟨⟨hkey, ht, trivial⟩, by omega⟩, hrest, by omega⟩
  · rintro ⟨⟨⟨hkey, ht, -⟩, -⟩, hrest, hsize⟩
    exact ⟨⟨hkey, ht, hrest⟩, by omega⟩

/-- A field that fits has a key that libbson counts right. -/
theorem Fits.key_length {b : BsonT} {key : Bytes} {t : Tree} (hb : Writable b)
    (h : Fits b [(key, t)]) : key.length < 2 ^ 31 := by
  have hsize := h.2
  have hbound := hb.bound
  simp only [Tree.fieldValues_cons, Tree.fieldValues_nil, fieldsSize_cons, fieldsSize_nil,
    fieldSize] at hsize
  unfold BSON_MAX_SIZE at hbound
  omega

/-- What comes of writing the fields `fs` to `b`: a part of them within the
bound, and all when they fit.  A child that was not begun, or a size that was not
counted, means that they do not fit. -/
def Kept (b : BsonT) (fs : List (Bytes × Tree)) (result : Option BsonT) : Prop :=
  (result = none ∧ ¬ Fits b fs) ∨
    ∃ ds, result = some (b.extend ds) ∧ PartialFields fs ds ∧
      b.closed + fieldsSize ds ≤ b.limit ∧ (Fits b fs → ds = Tree.fieldValues fs)

/-- Writing no fields. -/
theorem Kept.nil {b : BsonT} (hb : Writable b) : Kept b [] (some b) :=
  Or.inr ⟨[], by simp, .nil, by simpa using hb.room, by simp⟩

/-- Writing the first field and then the rest. -/
theorem Kept.cons {b : BsonT} {key : Bytes} {t : Tree} {rest : List (Bytes × Tree)}
    {first : Option BsonT} {next : BsonT → Option BsonT} (hb : Writable b)
    (hfirst : Kept b [(key, t)] first)
    (hnext : ∀ b', Writable b' → Kept b' rest (next b')) :
    Kept b ((key, t) :: rest) (first.bind next) := by
  rcases hfirst with ⟨hnone, hfits⟩ | ⟨ds, hsome, hpart, hsize, hfull⟩
  · exact Or.inl ⟨by simp [hnone], fun h => hfits (fits_cons.mp h).1⟩
  · have hb' : Writable (b.extend ds) := ⟨hb.bound, by simpa using hsize⟩
    rcases hnext _ hb' with ⟨hnone, hfits⟩ | ⟨ds', hsome', hpart', hsize', hfull'⟩
    · refine Or.inl ⟨by simp [hsome, hnone], fun h => hfits ?_⟩
      rw [hfull (fits_cons.mp h).1]
      exact (fits_cons.mp h).2
    · refine Or.inr ⟨ds ++ ds', ?_, ?_, ?_, ?_⟩
      · simp [hsome, hsome', BsonT.extend_extend]
      · exact hpart.append hpart'
      · rw [BsonT.closed_extend, BsonT.extend_limit] at hsize'
        rw [fieldsSize_append]
        omega
      · intro h
        have hds := hfull (fits_cons.mp h).1
        have hds' := hfull' (hds ▸ (fits_cons.mp h).2)
        rw [hds, hds']
        simp

/-- One append of a leaf. -/
theorem kept_leaf {b : BsonT} (hb : Writable b) (key : Bytes) (v : LVal) (x : Value) :
    Kept b [(key, .leaf v x)] ((bson_append b key x).map Prod.snd) := by
  have hvalue : Tree.fieldValues [(key, Tree.leaf v x)] = [(key, x)] := by simp [Tree.value]
  have hwhole : Fits b [(key, .leaf v x)] → bson_append b key x = some (true, b.push key x) := by
    intro h
    have hsize := h.2
    rw [hvalue] at hsize
    exact bson_append_of_fits hb.bound h.1.1 (h.key_length hb) (by simpa using hsize)
  rcases bson_append_cases b key x with ⟨k, hk, hsize, happend⟩ | happend | ⟨k, -, -, happend⟩
  · refine Or.inr ⟨[(k, x)], ?_, .keep hk .leaf .nil, by simpa using hsize, ?_⟩
    · rw [happend, BsonT.extend_single]
      rfl
    · intro h
      rw [hvalue]
      rw [HANDLE_KEY_LENGTH_of_nulFree h.1.1 (h.key_length hb)] at hk
      rw [Option.some.inj hk]
  · refine Or.inr ⟨[], ?_, .skip .nil, by simpa using hb.room, ?_⟩
    · rw [happend, BsonT.extend_nil]
      rfl
    · intro h
      simp [hwhole h] at happend
  · refine Or.inl ⟨by rw [happend]; rfl, fun h => ?_⟩
    simp [hwhole h] at happend

/-! ## Nested tables -/

/-- The tables among the trees: a node under a kind, document or array. -/
structure IsNode (t : Tree) (asArray : Bool) : Prop where
  value : t.value =
    if asArray then .array (Tree.fieldValues t.children)
    else .document (Tree.fieldValues t.children)
  written : ∀ ds, PartialFields t.children ds →
    Partial t (if asArray then .array ds else .document ds)
  keys : t.KeysNulFree ↔ Tree.FieldsNulFree t.children

theorem isNode_doc (fs : List (Bytes × Tree)) : IsNode (.doc fs) false where
  value := Tree.value_doc fs
  written := fun _ h => .doc h
  keys := by simp [Tree.KeysNulFree, Tree.children]

theorem isNode_array (ts : List Tree) : IsNode (.array ts) true where
  value := Tree.value_array ts
  written := fun _ h => .array h
  keys := by simp [Tree.KeysNulFree, Tree.children, ← Tree.elemsNulFree_iff]

/-- The size of a nested table in full. -/
theorem IsNode.fieldSize {t : Tree} {asArray : Bool} (ht : IsNode t asArray) (key : Bytes) :
    fieldSize key t.value = (1 + key.length + 1 + 5) + fieldsSize (Tree.fieldValues t.children) := by
  rw [ht.value]
  cases asArray <;> simp only [Bson.fieldSize, Value.size, if_true, if_false,
    Bool.false_eq_true] <;> omega

/-- What is written of a nested table. -/
theorem IsNode.kept {b : BsonT} (hb : Writable b) (key : Bytes) {t : Tree} {asArray : Bool}
    (ht : IsNode t asArray)
    (hchild : ∀ child, Writable child → Kept child t.children (writeFields child t.children)) :
    Kept b [(key, t)] (writeNested b key asArray t.children) := by
  have hfits : Fits b [(key, t)] → NulFree key ∧ key.length < 2 ^ 31 ∧
      Tree.FieldsNulFree t.children ∧
      b.closed + (1 + key.length + 1 + 5) + fieldsSize (Tree.fieldValues t.children) ≤ b.limit := by
    intro h
    have hsize := h.2
    simp only [Tree.fieldValues_cons, Tree.fieldValues_nil, fieldsSize_cons, fieldsSize_nil,
      ht.fieldSize] at hsize
    exact ⟨h.1.1, h.key_length hb, ht.keys.mp h.1.2.1, by omega⟩
  rw [writeNested]
  cases hbegin : (bson_append_begin b key).join with
  | none =>
    refine Or.inl ⟨rfl, fun h => ?_⟩
    obtain ⟨hkey, hlen, -, hsize⟩ := hfits h
    rw [bson_append_begin_of_fits hb.bound hkey hlen (by omega)] at hbegin
    simp at hbegin
  | some p =>
    obtain ⟨k, child⟩ := p
    obtain ⟨hk, hroom, rfl⟩ := bson_append_begin_eq_some (Option.join_eq_some_iff.mp hbegin)
    have hwritable : Writable (b.child k) := ⟨hb.bound, by rw [b.closed_child k]; exact hroom⟩
    have hchildFits : Fits b [(key, t)] → k = key ∧ Fits (b.child k) t.children := by
      intro h
      obtain ⟨hkey, hlen, hfree, hsize⟩ := hfits h
      rw [HANDLE_KEY_LENGTH_of_nulFree hkey hlen] at hk
      have hkk : k = key := (Option.some.inj hk).symm
      refine ⟨hkk, hfree, ?_⟩
      rw [b.closed_child k, hkk]
      exact hsize
    simp only [Option.bind_some]
    rcases hchild _ hwritable with ⟨hnone, hno⟩ | ⟨ds, hsome, hpart, hsize, hfull⟩
    · exact Or.inl ⟨by simp [hnone], fun h => hno (hchildFits h).2⟩
    · refine Or.inr ⟨[(k, if asArray then .array ds else .document ds)], ?_,
        .keep hk (ht.written ds hpart) .nil, ?_, ?_⟩
      · simp [hsome, bson_append_end, BsonT.extend_single]
      · have hwrap : (if asArray then Value.array ds else .document ds).size =
            5 + fieldsSize ds := by
          cases asArray <;> simp [Value.size]
        rw [b.closed_child k, BsonT.child_limit] at hsize
        simp only [fieldsSize_cons, fieldsSize_nil, Bson.fieldSize, hwrap]
        omega
      · intro h
        obtain ⟨hkk, hfitsChild⟩ := hchildFits h
        rw [hfull hfitsChild, hkk, Tree.fieldValues_cons, Tree.fieldValues_nil, ht.value]

mutual
/-- What is written of one field. -/
theorem writeField_kept {b : BsonT} (hb : Writable b) (key : Bytes) (t : Tree) :
    Kept b [(key, t)] (writeField b key t) := by
  cases t with
  | leaf v x => exact writeField_leaf b key v x ▸ kept_leaf hb key v x
  | doc fs =>
    rw [writeField_doc]
    exact (isNode_doc fs).kept hb key fun child hchild => writeFields_kept hchild fs
  | array ts =>
    rw [writeField_array]
    exact (isNode_array ts).kept hb key fun child hchild => writeElems_kept hchild 0 ts

/-- What is written of fields. -/
theorem writeFields_kept {b : BsonT} (hb : Writable b) (fs : List (Bytes × Tree)) :
    Kept b fs (writeFields b fs) := by
  match fs with
  | [] => exact writeFields_nil b ▸ .nil hb
  | (key, t) :: rest =>
    rw [writeFields_cons]
    exact .cons hb (writeField_kept hb key t) fun b' hb' => writeFields_kept hb' rest

theorem writeElems_kept {b : BsonT} (hb : Writable b) (i : Nat) (ts : List Tree) :
    Kept b (Tree.indexed i ts) (writeFields b (Tree.indexed i ts)) := by
  match ts with
  | [] => exact writeFields_nil b ▸ .nil hb
  | t :: rest =>
    rw [Tree.indexed, writeFields_cons]
    exact .cons hb (writeField_kept hb _ t) fun b' hb' => writeElems_kept hb' (i + 1) rest
end

/-- What is written extends the document, within its bound. -/
theorem exists_extend_of_writeFields {b c : BsonT} (hb : Writable b) {fs : List (Bytes × Tree)}
    (h : writeFields b fs = some c) :
    ∃ ds, c = b.extend ds ∧ PartialFields fs ds ∧ b.closed + fieldsSize ds ≤ b.limit := by
  rcases writeFields_kept hb fs with ⟨hnone, -⟩ | ⟨ds, hsome, hpart, hsize, -⟩
  · simp [hnone] at h
  · exact ⟨ds, Option.some.inj (h.symm.trans hsome), hpart, hsize⟩

theorem closed_le_of_writeFields {b c : BsonT} (hb : Writable b) {fs : List (Bytes × Tree)}
    (h : writeFields b fs = some c) : b.closed ≤ c.closed := by
  obtain ⟨ds, rfl, -⟩ := exists_extend_of_writeFields hb h
  rw [BsonT.closed_extend]
  omega

theorem writable_of_writeField {b c : BsonT} (hb : Writable b) {key : Bytes} {t : Tree}
    (h : writeField b key t = some c) : Writable c ∧ c.limit = b.limit := by
  have hone : writeFields b [(key, t)] = some c := by simp [h]
  obtain ⟨ds, rfl, -, hsize⟩ := exists_extend_of_writeFields hb hone
  exact ⟨⟨hb.bound, by simpa using hsize⟩, rfl⟩

/-! ## A document that stands deeper in its buffer -/

/-- The document with `n` more bytes around it. -/
def deeper (b : BsonT) (n : Nat) : BsonT := { b with outer := b.outer + n }

@[simp] theorem deeper_limit (b : BsonT) (n : Nat) : (deeper b n).limit = b.limit := rfl

@[simp] theorem deeper_fields (b : BsonT) (n : Nat) : (deeper b n).fields = b.fields := rfl

@[simp] theorem closed_deeper (b : BsonT) (n : Nat) : (deeper b n).closed = b.closed + n := by
  simp only [BsonT.closed, deeper]
  omega

/-- An append that leaves room for what is around the deeper document does the
same there. -/
theorem bson_append_deeper {b c : BsonT} {n : Nat} {key : Bytes} {x : Value} {ok : Bool}
    (h : bson_append b key x = some (ok, c)) (hroom : c.closed + n ≤ b.limit) :
    bson_append (deeper b n) key x = some (ok, deeper c n) := by
  simp only [bson_append, closed_deeper, deeper_limit] at h ⊢
  cases hk : HANDLE_KEY_LENGTH key with
  | none =>
    simp only [hk] at h ⊢
    obtain ⟨rfl, rfl⟩ := Prod.mk.inj (Option.some.inj h)
    rfl
  | some k =>
    simp only [hk] at h ⊢
    split_ifs at h with hints hlarge hcount
    · obtain ⟨rfl, rfl⟩ := Prod.mk.inj (Option.some.inj h)
      rw [if_neg (not_not_intro hints), if_pos (by omega)]
    · obtain ⟨rfl, rfl⟩ := Prod.mk.inj (Option.some.inj h)
      rw [BsonT.closed_push] at hroom
      rw [Nat.mod_eq_of_lt hcount] at hlarge ⊢
      rw [if_neg (not_not_intro hints), if_neg (by omega), if_pos hcount]
      rfl

/-- The same for a nested table. -/
theorem writeNested_deeper {b c : BsonT} {n : Nat} (hb : Writable b) {key : Bytes}
    {asArray : Bool} {fs : List (Bytes × Tree)}
    (hchild : ∀ {child c : BsonT}, Writable child → writeFields child fs = some c →
      c.closed + n ≤ child.limit → writeFields (deeper child n) fs = some (deeper c n))
    (h : writeNested b key asArray fs = some c) (hroom : c.closed + n ≤ b.limit) :
    writeNested (deeper b n) key asArray fs = some (deeper c n) := by
  obtain ⟨p, hbegin, hmap⟩ := Option.bind_eq_some_iff.mp h
  obtain ⟨inner, hinner, rfl⟩ := Option.map_eq_some_iff.mp hmap
  obtain ⟨k, child⟩ := p
  rw [Option.join_eq_some_iff] at hbegin
  obtain ⟨hk, hfits, rfl⟩ := bson_append_begin_eq_some hbegin
  have hwritable : Writable (b.child k) := ⟨hb.bound, by rw [b.closed_child k]; exact hfits⟩
  have hclosed : (bson_append_end b asArray k inner).closed = inner.closed := by
    rcases writeFields_kept hwritable fs with ⟨hnone, -⟩ | ⟨ds, hsome, -⟩
    · simp [hnone] at hinner
    · obtain rfl := Option.some.inj (hsome.symm.trans hinner)
      rw [BsonT.closed_extend, b.closed_child k]
      cases asArray <;> simp [bson_append_end, fieldSize, Value.size] <;> omega
  have hless : b.closed + (1 + k.length + 1 + 5) ≤ inner.closed := by
    rw [← b.closed_child k]
    exact closed_le_of_writeFields hwritable hinner
  rw [hclosed] at hroom
  have hbegin' : bson_append_begin (deeper b n) key = some (some (k, deeper (b.child k) n)) := by
    have hchild : (deeper b n).child k = deeper (b.child k) n := by
      simp only [BsonT.child, deeper, BsonT.closed]
      congr 1
      omega
    have hsome := hbegin
    simp only [bson_append_begin, hk, closed_deeper, deeper_limit] at hsome ⊢
    split_ifs at hsome with hint hlarge hcount
    · simp at hsome
    · rw [Nat.mod_eq_of_lt hcount] at hlarge ⊢
      rw [if_neg (not_not_intro hint), if_neg (by omega), if_pos hcount, hchild]
  simp only [writeNested, hbegin', Option.join_some, Option.bind_some,
    hchild hwritable hinner hroom]
  rfl

mutual
theorem writeField_deeper {b c : BsonT} {n : Nat} (hb : Writable b) {key : Bytes} {t : Tree}
    (h : writeField b key t = some c) (hroom : c.closed + n ≤ b.limit) :
    writeField (deeper b n) key t = some (deeper c n) := by
  cases t with
  | leaf v x =>
    rw [writeField_leaf, Option.map_eq_some_iff] at h
    obtain ⟨⟨ok, c⟩, happend, rfl⟩ := h
    rw [writeField_leaf, bson_append_deeper happend hroom]
    rfl
  | doc fs =>
    rw [writeField_doc] at h ⊢
    exact writeNested_deeper hb (fun hchild h hroom => writeFields_deeper hchild h hroom) h hroom
  | array ts =>
    rw [writeField_array] at h ⊢
    exact writeNested_deeper hb (fun hchild h hroom => writeElems_deeper hchild h hroom) h hroom

/-- Fields that leave room for what is around the deeper document are written
the same there. -/
theorem writeFields_deeper {b c : BsonT} {n : Nat} (hb : Writable b)
    {fs : List (Bytes × Tree)} (h : writeFields b fs = some c)
    (hroom : c.closed + n ≤ b.limit) : writeFields (deeper b n) fs = some (deeper c n) := by
  match fs with
  | [] =>
    rw [writeFields_nil] at h ⊢
    rw [Option.some.inj h]
  | (key, t) :: rest =>
    rw [writeFields_cons] at h ⊢
    obtain ⟨b₁, hfirst, hrest⟩ := Option.bind_eq_some_iff.mp h
    have hb₁ := writable_of_writeField hb hfirst
    have hle := closed_le_of_writeFields hb₁.1 hrest
    rw [writeField_deeper hb hfirst (by omega)]
    exact writeFields_deeper hb₁.1 hrest (by rw [hb₁.2]; exact hroom)

theorem writeElems_deeper {b c : BsonT} {n : Nat} (hb : Writable b) {i : Nat} {ts : List Tree}
    (h : writeFields b (Tree.indexed i ts) = some c) (hroom : c.closed + n ≤ b.limit) :
    writeFields (deeper b n) (Tree.indexed i ts) = some (deeper c n) := by
  match ts with
  | [] =>
    rw [Tree.indexed, writeFields_nil] at h ⊢
    rw [Option.some.inj h]
  | t :: rest =>
    rw [Tree.indexed, writeFields_cons] at h ⊢
    obtain ⟨b₁, hfirst, hrest⟩ := Option.bind_eq_some_iff.mp h
    have hb₁ := writable_of_writeField hb hfirst
    have hle := closed_le_of_writeFields hb₁.1 hrest
    rw [writeField_deeper hb hfirst (by omega)]
    exact writeElems_deeper hb₁.1 hrest (by rw [hb₁.2]; exact hroom)
end

end Vklib.Mongo
