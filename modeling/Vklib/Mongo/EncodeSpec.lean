import Vklib.Mongo.Write

/-!
# What the encoder writes

Three facts about `appendValue` and `appendTable`.

They end on every input: each level of the recursion holds at least one more
slot of the Lua stack, and `MAXSTACK` bounds the slots
(`appendTable_ne_outOfFuel`).

`Encodes` is the encoder without the document: the metamethods it calls, the
tables it opens and the tree it sees.  `Encodes.appendValue_eq` says that the
run writes that tree, and `encodeTable_spec` what is written then: nothing is
left out when the keys have no NUL and the bound is kept (`Fits`), and undefined
behaviour is reached in no other case.

A static unfolding whose tables fit the stack is what the encoder sees
(`Unfolds.encodes`), and then no heap changes.
-/

namespace Vklib.Mongo

open Vklib.Lua Vklib.Bson

/-! ## Termination -/

theorem transform_ne_outOfFuel (E : Env) (h : Heap Host) (v : LVal) :
    transform E h v ≠ .outOfFuel := by
  unfold transform
  split
  · simp
  · split <;> simp

theorem appendTo_ne_outOfFuel (b : Target) (f : BsonT → Option (Bool × BsonT)) :
    appendTo b f ≠ .outOfFuel := by
  cases b with
  | none => simp [appendTo]
  | some b =>
    rw [appendTo]
    cases f b <;> simp

theorem appendBSONType_ne_outOfFuel (E : Env) (top : Nat) (type : UInt32) (t : Table Host)
    (b : Target) (key : Bytes) : appendBSONType E top type t b key ≠ .outOfFuel := by
  have hto := fun f => appendTo_ne_outOfFuel b f
  simp only [appendBSONType]
  split
  · split
    case h_4 | h_5 => split <;> first | exact hto _ | simp
    case h_7 =>
      split
      · split <;> first | exact hto _ | simp
      · exact hto _
    case h_9 =>
      split
      · simp
      · split <;> exact hto _
    case h_13 => simp
    all_goals exact hto _
  · simp

/-- A value has fuel when the tables below it have. -/
theorem appendValue_ne_outOfFuel (E : Env) {table : AppendTable} {top : Nat}
    (htable : ∀ s r b len, table top s r b len ≠ .outOfFuel) (s : Enc) (v : LVal) (b : Target)
    (key : Bytes) : appendValue E table top s v b key ≠ .outOfFuel := by
  have hleaf : ∀ (s : Enc) (x : Outcome AppendError Target), x ≠ .outOfFuel →
      (do let b ← x; (.ok (s, b) : Outcome AppendError (Enc × Target))) ≠ .outOfFuel :=
    fun s x hx => Outcome.bind_ne_outOfFuel hx (by simp)
  unfold appendValue
  refine Outcome.bind_ne_outOfFuel (transform_ne_outOfFuel E s.heap v) ?_
  rintro ⟨h, v⟩ -
  simp only [appendSwitch]
  split
  · exact hleaf _ _ (appendTo_ne_outOfFuel _ _)
  · exact hleaf _ _ (appendTo_ne_outOfFuel _ _)
  · split <;> exact hleaf _ _ (appendTo_ne_outOfFuel _ _)
  · split
    · split <;> exact hleaf _ _ (appendTo_ne_outOfFuel _ _)
    · exact hleaf _ _ (appendTo_ne_outOfFuel _ _)
  · exact hleaf _ _ (appendTo_ne_outOfFuel _ _)
  · split
    · unfold appendNested
      split
      · simp
      · split
        · simp
        · split
          · simp
          · exact Outcome.bind_ne_outOfFuel (htable _ _ _ _) (by simp)
          · refine Outcome.bind_ne_outOfFuel (htable _ _ _ _) ?_
            rintro ⟨s', child⟩ -
            cases child <;> simp
    · exact hleaf _ _ (appendBSONType_ne_outOfFuel _ _ _ _ _ _)
  · split <;> exact hleaf _ _ (appendTo_ne_outOfFuel _ _)
  · exact hleaf _ _ (appendTo_ne_outOfFuel _ _)
  · simp

theorem arrayLoop_ne_outOfFuel
    {value : Enc → LVal → Target → Bytes → Outcome AppendError (Enc × Target)}
    (hvalue : ∀ s v b key, value s v b key ≠ .outOfFuel) (r : Ref) (n i : Nat) (s : Enc)
    (b : Target) : arrayLoop value r n i s b ≠ .outOfFuel := by
  induction n generalizing i s b with
  | zero => simp [arrayLoop]
  | succ n ih =>
    unfold arrayLoop
    refine Outcome.bind_ne_outOfFuel ?_ fun p _ => ih _ _ _
    simpa using hvalue _ _ _ _

theorem documentLoop_ne_outOfFuel
    {value : Enc → LVal → Target → Bytes → Outcome AppendError (Enc × Target)}
    (hvalue : ∀ s v b key, value s v b key ≠ .outOfFuel) (es : List (Key × LVal)) (s : Enc)
    (b : Target) : documentLoop value es s b ≠ .outOfFuel := by
  induction es generalizing s b with
  | nil => simp [documentLoop]
  | cons e rest ih =>
    obtain ⟨k, v⟩ := e
    cases k with
    | str key =>
      unfold documentLoop
      refine Outcome.bind_ne_outOfFuel ?_ fun p _ => ih _ _
      simpa using hvalue _ _ _ _
    | int i => simp [documentLoop]
    | other name id => simp [documentLoop]

/-- The encoder ends on every graph of values, cyclic or not, whatever the
metamethods return: the fuel and the slots in use only have to exceed
`MAXSTACK` together. -/
theorem appendTable_ne_outOfFuel (E : Env) (fuel top : Nat) (hpos : 0 < fuel)
    (hfuel : MAXSTACK < fuel + top) (s : Enc) (r : Ref) (b : Target) (len : Int) :
    appendTable E fuel top s r b len ≠ .outOfFuel := by
  induction fuel generalizing top s r b len with
  | zero => omega
  | succ fuel ih =>
    unfold appendTable
    split
    · simp
    rename_i htop
    split
    · simp
    split
    · simp
    split
    · refine Outcome.bind_ne_outOfFuel ?_ (fun _ _ => by simp)
      unfold tableLoop
      split
      · exact arrayLoop_ne_outOfFuel
          (appendValue_ne_outOfFuel E (ih (top + 1) (by omega) (by omega))) r _ _ _ _
      · exact documentLoop_ne_outOfFuel
          (appendValue_ne_outOfFuel E (ih (top + 2) (by omega) (by omega))) _ _ _
    · simp

/-! ## What an encoder sees -/

/-- The checks of `appendTable` at its entry pass. -/
structure Opens (top : Nat) (path : Finset Ref) (h : Heap Host) (r : Ref) : Prop where
  below : top < MAXSTACK
  plain : (h.get r).metatable = none
  fresh : r ∉ path

mutual
/-- From the heap `h`, with the tables of `path` open, the encoder sees the
value `v` as a tree.  Metamethods that it calls on the way leave the heap
`h'`. -/
inductive Encodes (E : Env) :
    Nat → Finset Ref → Heap Host → LVal → Heap Host → Tree → Prop where
  | leaf {top : Nat} {path : Finset Ref} {h h' : Heap Host} {v v' : LVal} {x : Value}
      (htrans : transform E h v = .ok (h', v')) (hleaf : leafValue E top h' v' = some x) :
      Encodes E top path h v h' (.leaf v' x)
  | table {top : Nat} {path : Finset Ref} {h h₁ h' : Heap Host} {v : LVal} {r : Ref} {t : Tree}
      (htrans : transform E h v = .ok (h₁, .table r))
      (htype : h₁.getmetafield (.table r) (bytes "__type") = .nil)
      (htable : EncodesTable E top path h₁ r h' t) : Encodes E top path h v h' t

/-- The same for a table that is neither transformed nor typed. -/
inductive EncodesTable (E : Env) :
    Nat → Finset Ref → Heap Host → Ref → Heap Host → Tree → Prop where
  | doc {top : Nat} {path : Finset Ref} {h h' : Heap Host} {r : Ref} {fs : List (Bytes × Tree)}
      (hopen : Opens top path h r) (hlen : getArrayLength E h r = .ok (-1))
      (hfields : EncodesFields E (top + 2) (insert r path) h (h.get r).entries h' fs) :
      EncodesTable E top path h r h' (.doc fs)
  | array {top : Nat} {path : Finset Ref} {h h' : Heap Host} {r : Ref} {n : Nat} {ts : List Tree}
      (hopen : Opens top path h r) (hlen : getArrayLength E h r = .ok n)
      (helems : EncodesElems E (top + 1) (insert r path) r h 0 n h' ts) :
      EncodesTable E top path h r h' (.array ts)

/-- The same for the entries of a document table. -/
inductive EncodesFields (E : Env) :
    Nat → Finset Ref → Heap Host → List (Key × LVal) → Heap Host → List (Bytes × Tree) → Prop where
  | nil {top : Nat} {path : Finset Ref} {h : Heap Host} : EncodesFields E top path h [] h []
  | cons {top : Nat} {path : Finset Ref} {h h₁ h' : Heap Host} {key : Bytes} {v : LVal} {t : Tree}
      {rest : List (Key × LVal)} {fs : List (Bytes × Tree)}
      (hv : Encodes E top path h v h₁ t) (hrest : EncodesFields E top path h₁ rest h' fs) :
      EncodesFields E top path h ((.str key, v) :: rest) h' ((key, t) :: fs)

/-- The same for the indices `i + 1` to `i + n` of an array table. -/
inductive EncodesElems (E : Env) :
    Nat → Finset Ref → Ref → Heap Host → Nat → Nat → Heap Host → List Tree → Prop where
  | nil {top : Nat} {path : Finset Ref} {r : Ref} {h : Heap Host} {i : Nat} :
      EncodesElems E top path r h i 0 h []
  | cons {top : Nat} {path : Finset Ref} {r : Ref} {h h₁ h' : Heap Host} {i n : Nat} {t : Tree}
      {ts : List Tree} (hv : Encodes E top path h ((h.get r).get (.int (i + 1))) h₁ t)
      (hrest : EncodesElems E top path r h₁ (i + 1) n h' ts) :
      EncodesElems E top path r h i (n + 1) h' (t :: ts)
end

/-! ## What is written -/

/-- The outcome of a run that writes to a document.  Writing to a child that was
not begun is undefined behaviour. -/
def writes (s : Enc) (result : Option BsonT) : Outcome AppendError (Enc × Target) :=
  result.elim .undefined fun b => .ok (s, some b)

@[simp] theorem writes_none (s : Enc) : writes s none = .undefined := rfl

@[simp] theorem writes_some (s : Enc) (b : BsonT) : writes s (some b) = .ok (s, some b) := rfl

/-- A level that adds its text to failures does not change what is written. -/
@[simp] theorem mapError_writes (s : Enc) (result : Option BsonT) (g : AppendError → AppendError) :
    (writes s result).mapError g = writes s result := by
  cases result <;> rfl

/-- Writing the first field and then the rest. -/
theorem writes_bind {s s' : Enc} {first : Option BsonT} {rest : BsonT → Option BsonT}
    {next : Enc × Target → Outcome AppendError (Enc × Target)}
    (hnext : ∀ b, next (s, some b) = writes s' (rest b)) :
    (writes s first >>= next) = writes s' (first.bind rest) := by
  cases first <;> simp [hnext]

/-- What comes of writing the fields `fs` to `b`: the tree in full when it
fits, else a part of it or undefined behaviour. -/
def Appended (b : BsonT) (fs : List (Bytes × Tree)) (s : Enc)
    (result : Outcome AppendError (Enc × Target)) : Prop :=
  (result = .undefined ∧ ¬ Fits b fs) ∨
    ∃ ds, result = .ok (s, some (b.extend ds)) ∧ PartialFields fs ds ∧
      b.closed + fieldsSize ds ≤ b.limit ∧ (Fits b fs → ds = Tree.fieldValues fs)

theorem Kept.appended {b : BsonT} {fs : List (Bytes × Tree)} {result : Option BsonT}
    (h : Kept b fs result) (s : Enc) : Appended b fs s (writes s result) := by
  rcases h with ⟨rfl, hfits⟩ | ⟨ds, rfl, hrest⟩
  · exact Or.inl ⟨rfl, hfits⟩
  · exact Or.inr ⟨ds, rfl, hrest⟩

/-! ## The encoder on what it sees -/

/-- A typed value with valid parameters is one append. -/
theorem appendBSONType_of_typedValue {E : Env} {top : Nat} {type : UInt32} {t : Table Host}
    {x : Value} (hstack : checkstack top (LUA_MINSTACK + t.rawlen) = true)
    (hx : typedValue E type t = some x) (b : Target) (key : Bytes) :
    appendBSONType E top type t b key = appendTo b (bson_append · key x) := by
  simp only [appendBSONType, if_pos hstack]
  unfold typedValue at hx
  split at hx <;> rename_i htype <;> try simp only [htype]
  case h_4 =>
    obtain ⟨d, hd, rfl⟩ := Option.map_eq_some_iff.mp hx
    rw [hd]
    rfl
  case h_5 =>
    obtain ⟨str, hstr, rfl⟩ := Option.map_eq_some_iff.mp hx
    simp only [hstr, bson_append_binary]
    split <;> rfl
  case h_7 =>
    obtain ⟨pattern, hpattern, rfl⟩ := Option.map_eq_some_iff.mp hx
    simp only [hpattern, bson_append_regex, cutString_cString]
  case h_9 =>
    obtain ⟨source, hsource, rfl⟩ := Option.map_eq_some_iff.mp hx
    simp only [hsource]
    cases param t 2 with
    | host u => cases u <;> rfl
    | _ => rfl
  case h_13 => simp at hx
  all_goals
    rw [← Option.some.inj hx]
    rfl

/-- Append one value and keep the state. -/
def appendOne (s : Enc) (b : Target) (key : Bytes) (x : Value) :
    Outcome AppendError (Enc × Target) := do
  let b ← appendTo b (bson_append · key x)
  .ok (s, b)

theorem appendOne_some (s : Enc) (b : BsonT) (key : Bytes) (x : Value) :
    appendOne s (some b) key x = writes s ((bson_append b key x).map Prod.snd) := by
  rw [appendOne, appendTo]
  cases bson_append b key x <;> rfl

/-- The integer cases of `appendValue` are one append. -/
theorem append_integerValue (s : Enc) (b : Target) (key : Bytes) (i : Int64) :
    (if isInt32 i then
      (do let b ← appendTo b (bson_append_int32 · key i.toInt32)
          (.ok (s, b) : Outcome AppendError (Enc × Target)))
    else
      (do let b ← appendTo b (bson_append_int64 · key i)
          .ok (s, b))) = appendOne s b key (integerValue i) := by
  unfold integerValue
  split <;> rfl

/-- The `switch` of `appendValue` on a leaf is one append. -/
theorem appendSwitch_of_leafValue {E : Env} {table : AppendTable} {top : Nat} {s : Enc}
    {v : LVal} {x : Value} (hx : leafValue E top s.heap v = some x) (b : Target) (key : Bytes) :
    appendSwitch E table top s v b key = appendOne s b key x := by
  cases v with
  | nil | bool | str =>
    rw [← Option.some.inj hx]
    rfl
  | int i =>
    rw [← Option.some.inj hx]
    exact append_integerValue s b key i
  | flt f =>
    simp only [leafValue] at hx
    simp only [appendSwitch]
    cases hint : f.toInteger? with
    | some i =>
      rw [hint] at hx
      rw [← Option.some.inj hx]
      exact append_integerValue s b key i
    | none =>
      rw [hint] at hx
      rw [← Option.some.inj hx]
      rfl
  | table r =>
    simp only [leafValue] at hx
    split at hx
    · simp at hx
    · split_ifs at hx with hstack
      simp only [appendSwitch, appendBSONType_of_typedValue hstack hx]
      rfl
  | userdata id m => simp [leafValue] at hx
  | host u =>
    cases u with
    | bson doc =>
      rw [← Option.some.inj hx]
      simp only [appendSwitch]
      split <;> rfl
    | objectID id =>
      rw [← Option.some.inj hx]
      rfl
    | _ => simp [leafValue] at hx

/-- With no document to write to, a value that the encoder accepts ends in
undefined behaviour. -/
theorem Encodes.appendValue_none {E : Env} {table : AppendTable} {top : Nat} {path : Finset Ref}
    {h h' : Heap Host} {v : LVal} {t : Tree} (henc : Encodes E top path h v h' t) (key : Bytes) :
    appendValue E table top ⟨h, path⟩ v none key = .undefined := by
  cases henc with
  | leaf htrans hleaf =>
    simp only [appendValue, htrans, Outcome.ok_bind]
    rw [appendSwitch_of_leafValue (s := ⟨_, path⟩) hleaf]
    rfl
  | table htrans htype htable =>
    simp only [appendValue, htrans, Outcome.ok_bind, appendSwitch, htype, appendNested]
    cases htable with
    | doc _ hlen _ => simp only [hlen]
    | array _ hlen _ => simp only [hlen]

/-- The entry checks of `appendTable` pass. -/
theorem Opens.appendTable {E : Env} {top : Nat} {path : Finset Ref} {h : Heap Host} {r : Ref}
    (hopen : Opens top path h r) (fuel : Nat) (b : Target) (len : Int) :
    appendTable E (fuel + 1) top ⟨h, path⟩ r b len =
      (tableLoop (appendValue E (Mongo.appendTable E fuel)) top ⟨h, insert r path⟩ r b len >>=
        fun p => .ok ({ p.1 with ridx := p.1.ridx.erase r }, p.2)) := by
  have hbelow := hopen.below
  have hnot : ¬ MAXSTACK ≤ top := by omega
  have hstack : checkstack top LUA_MINSTACK = true := by
    unfold MAXSTACK at hbelow
    refine decide_eq_true ?_
    unfold EXTRA_STACK LUAI_MAXSTACK LUA_MINSTACK
    omega
  simp only [Mongo.appendTable, if_neg hnot, hopen.plain, if_neg hopen.fresh, if_pos hstack,
    Option.isSome_none, Bool.false_eq_true, if_false]

/-- With no document to write to, a table is empty or ends in undefined
behaviour. -/
theorem EncodesTable.appendTable_none {E : Env} {top : Nat} {path : Finset Ref}
    {h h' : Heap Host} {r : Ref} {t : Tree} (htable : EncodesTable E top path h r h' t)
    (fuel : Nat) (len : Int) (hlen : getArrayLength E h r = .ok len) :
    appendTable E (fuel + 1) top ⟨h, path⟩ r none len = .undefined ∨
      ∃ s', appendTable E (fuel + 1) top ⟨h, path⟩ r none len = .ok (s', none) := by
  cases htable with
  | doc hopen hlen' hfields =>
    obtain rfl : len = -1 := by simpa using hlen.symm.trans hlen'
    rw [hopen.appendTable]
    simp only [tableLoop, ne_eq, not_true_eq_false, if_false]
    cases hentries : (h.get r).entries with
    | nil => exact Or.inr ⟨_, rfl⟩
    | cons e rest =>
      rw [hentries] at hfields
      cases hfields with
      | cons hv _ =>
        refine Or.inl ?_
        simp [documentLoop, hv.appendValue_none, Outcome.mapError]
  | @array _ _ _ _ _ n _ hopen hlen' helems =>
    obtain rfl : len = n := by simpa using hlen.symm.trans hlen'
    have hne : ((n : Int) ≠ -1) := by omega
    rw [hopen.appendTable]
    simp only [tableLoop, if_pos hne, Int.toNat_natCast]
    cases helems with
    | nil => exact Or.inr ⟨_, rfl⟩
    | cons hv _ =>
      refine Or.inl ?_
      rw [arrayLoop, hv.appendValue_none]
      rfl

/-- What the recursive calls of a value write, for values whose topmost slot is
`top`. -/
def WritesTables (E : Env) (table : AppendTable) (top : Nat) : Prop :=
  ∀ {path : Finset Ref} {h h' : Heap Host} {r : Ref} {t : Tree} {len : Int},
    EncodesTable E top path h r h' t → getArrayLength E h r = .ok len →
      (table top ⟨h, path⟩ r none len = .undefined ∨
        ∃ s', table top ⟨h, path⟩ r none len = .ok (s', none)) ∧
      ∀ b, table top ⟨h, path⟩ r (some b) len = writes ⟨h', path⟩ (writeFields b t.children)

/-- A nested table is begun, written and ended. -/
theorem WritesTables.appendNested {E : Env} {table : AppendTable} {top : Nat}
    (hwrites : WritesTables E table top) {path : Finset Ref} {h h' : Heap Host} {r : Ref}
    {t : Tree} {len : Int} (htable : EncodesTable E top path h r h' t)
    (hlen : getArrayLength E h r = .ok len) (b : BsonT) (key : Bytes) :
    appendNested E table top ⟨h, path⟩ r (some b) key =
      writes ⟨h', path⟩ (writeNested b key (len != -1) t.children) := by
  obtain ⟨hnone, hsome⟩ := hwrites htable hlen
  simp only [Mongo.appendNested, hlen, writeNested]
  rcases bson_append_begin b key with - | - | ⟨k, child⟩
  · rfl
  · rcases hnone with h | ⟨s', h⟩ <;> simp [h]
  · simp only [hsome, Option.join_some, Option.bind_some]
    cases writeFields child t.children <;> simp

/-- What `appendValue` writes. -/
theorem Encodes.appendValue_eq {E : Env} {table : AppendTable} {top : Nat}
    (hwrites : WritesTables E table top) {path : Finset Ref} {h h' : Heap Host} {v : LVal}
    {t : Tree} (henc : Encodes E top path h v h' t) (b : BsonT) (key : Bytes) :
    appendValue E table top ⟨h, path⟩ v (some b) key = writes ⟨h', path⟩ (writeField b key t) := by
  cases henc with
  | leaf htrans hleaf =>
    simp only [appendValue, htrans, Outcome.ok_bind]
    rw [appendSwitch_of_leafValue (s := ⟨_, path⟩) hleaf, writeField_leaf, appendOne_some]
  | @table _ _ _ h₁ _ _ r _ htrans htype htable =>
    simp only [appendValue, htrans, Outcome.ok_bind, appendSwitch, htype]
    cases htable with
    | doc hopen hlen hfields =>
      rw [hwrites.appendNested (.doc hopen hlen hfields) hlen, writeField_doc]
      rfl
    | @array _ _ _ _ _ n _ hopen hlen helems =>
      have hflag : ((n : Int) != -1) = true := by simp
      rw [hwrites.appendNested (.array hopen hlen helems) hlen, writeField_array, hflag]

theorem Encodes.appendValue_spec {E : Env} {table : AppendTable} {top : Nat}
    (hwrites : WritesTables E table top) {path : Finset Ref} {h h' : Heap Host} {v : LVal}
    {t : Tree} (henc : Encodes E top path h v h' t) {b : BsonT} (hb : Writable b) (key : Bytes) :
    Appended b [(key, t)] ⟨h', path⟩ (appendValue E table top ⟨h, path⟩ v (some b) key) := by
  rw [henc.appendValue_eq hwrites]
  exact (writeField_kept hb key t).appended _

/-- What the loop over the entries writes. -/
theorem EncodesFields.documentLoop_eq {E : Env} {table : AppendTable} {top : Nat}
    (hwrites : WritesTables E table top) {path : Finset Ref} {h h' : Heap Host}
    {es : List (Key × LVal)} {fs : List (Bytes × Tree)}
    (hfields : EncodesFields E top path h es h' fs) (b : BsonT) :
    documentLoop (appendValue E table top) es ⟨h, path⟩ (some b) =
      writes ⟨h', path⟩ (writeFields b fs) := by
  induction es generalizing h fs b with
  | nil =>
    cases hfields
    simp [documentLoop]
  | cons e rest ih =>
    cases hfields with
    | cons hv hrest =>
      rw [documentLoop, hv.appendValue_eq hwrites, mapError_writes, writeFields_cons]
      exact writes_bind fun b => ih hrest b

/-- What the loop over the indices writes. -/
theorem EncodesElems.arrayLoop_eq {E : Env} {table : AppendTable} {top : Nat}
    (hwrites : WritesTables E table top) {path : Finset Ref} {r : Ref} {h h' : Heap Host}
    {i n : Nat} {ts : List Tree} (helems : EncodesElems E top path r h i n h' ts) (b : BsonT) :
    arrayLoop (appendValue E table top) r n i ⟨h, path⟩ (some b) =
      writes ⟨h', path⟩ (writeFields b (Tree.indexed i ts)) := by
  induction n generalizing h i ts b with
  | zero =>
    cases helems
    simp [arrayLoop, Tree.indexed]
  | succ n ih =>
    cases helems with
    | cons hv hrest =>
      rw [arrayLoop, hv.appendValue_eq hwrites, mapError_writes, Tree.indexed, writeFields_cons]
      exact writes_bind fun b => ih hrest b

/-- Closing a table takes its mark away again. -/
theorem writes_unmark {h : Heap Host} {path : Finset Ref} {r : Ref} (hfresh : r ∉ path)
    (result : Option BsonT) :
    (writes ⟨h, insert r path⟩ result >>=
      fun p => .ok ({ p.1 with ridx := p.1.ridx.erase r }, p.2)) = writes ⟨h, path⟩ result := by
  cases result with
  | none => rfl
  | some b => simp [Finset.erase_insert hfresh]

/-- What `appendTable` writes. -/
theorem writesTables_appendTable (E : Env) (fuel : Nat) {top : Nat}
    (hfuel : MAXSTACK < fuel + top) : WritesTables E (appendTable E fuel) top := by
  induction fuel generalizing top with
  | zero =>
    intro path h h' r t len htable _
    have hbelow : top < MAXSTACK := by
      cases htable with
      | doc hopen _ _ => exact hopen.below
      | array hopen _ _ => exact hopen.below
    omega
  | succ fuel ih =>
    intro path h h' r t len htable hlen
    refine ⟨htable.appendTable_none fuel len hlen, fun b => ?_⟩
    cases htable with
    | doc hopen hlen' hfields =>
      obtain rfl : len = -1 := by simpa using hlen.symm.trans hlen'
      rw [hopen.appendTable]
      simp only [tableLoop, ne_eq, not_true_eq_false, if_false]
      rw [hfields.documentLoop_eq (ih (by omega))]
      exact writes_unmark hopen.fresh _
    | @array _ _ _ _ _ n _ hopen hlen' helems =>
      obtain rfl : len = n := by simpa using hlen.symm.trans hlen'
      have hne : ((n : Int) ≠ -1) := by omega
      rw [hopen.appendTable]
      simp only [tableLoop, if_pos hne, Int.toNat_natCast]
      rw [helems.arrayLoop_eq (ih (by omega))]
      exact writes_unmark hopen.fresh _

/-! ## Entry point -/

/-- An entry point writes the table to its new document. -/
theorem encodeTable_eq {E : Env} {top : Nat} {h h' : Heap Host} {r : Ref} {t : Tree}
    (htable : EncodesTable E top ∅ h r h' t) {len : Int} (hlen : getArrayLength E h r = .ok len)
    (b : BsonT) (arg : Nat) :
    encodeTable E top h arg r b =
      (writeFields b t.children).elim .undefined fun c => .ok (h', c, len) := by
  have hwritten := (writesTables_appendTable E (MAXSTACK + 1) (by omega) htable hlen).2 b
  simp only [encodeTable, hlen, appendTableFull, hwritten]
  cases writeFields b t.children <;> rfl

/-- What an entry point makes of a table: the tree in full when it fits, else a
part of it or undefined behaviour. -/
theorem encodeTable_spec {E : Env} {top : Nat} {h h' : Heap Host} {r : Ref} {t : Tree}
    (htable : EncodesTable E top ∅ h r h' t) {len : Int} (hlen : getArrayLength E h r = .ok len)
    {b : BsonT} (hb : Writable b) (arg : Nat) :
    (encodeTable E top h arg r b = .undefined ∧ ¬ Fits b t.children) ∨
      ∃ ds, encodeTable E top h arg r b = .ok (h', b.extend ds, len) ∧
        PartialFields t.children ds ∧ b.closed + fieldsSize ds ≤ b.limit ∧
        (Fits b t.children → ds = Tree.fieldValues t.children) := by
  rw [encodeTable_eq htable hlen]
  rcases writeFields_kept hb t.children with ⟨hnone, hfits⟩ | ⟨ds, hsome, hwritten⟩
  · exact Or.inl ⟨by simp [hnone], hfits⟩
  · exact Or.inr ⟨ds, by simp [hsome], hwritten⟩

/-- A table that the encoder sees has a length. -/
theorem EncodesTable.exists_length {E : Env} {top : Nat} {path : Finset Ref} {h h' : Heap Host}
    {r : Ref} {t : Tree} (htable : EncodesTable E top path h r h' t) :
    ∃ len, getArrayLength E h r = .ok len := by
  cases htable with
  | doc _ hlen _ => exact ⟨_, hlen⟩
  | array _ hlen _ => exact ⟨_, hlen⟩

/-- What `castBSON` makes of a table in a new document of the given limit. -/
theorem castBSON_spec {E : Env} (limit top arg : Nat) (hlimit : limit ≤ BSON_MAX_SIZE)
    (hroom : 5 ≤ limit) {h h₁ h' : Heap Host} {v : LVal} {r : Ref} {t : Tree}
    (hstr : tolstring E v = none) (hcall : callToBSON E h v = .ok (h₁, .table r))
    (htable : EncodesTable E (top + 2) ∅ h₁ r h' t) :
    (castBSON E limit top h arg v = .undefined ∧ ¬ Fits ⟨limit, 0, []⟩ t.children) ∨
      ∃ ds, castBSON E limit top h arg v = .ok (h', ds) ∧ PartialFields t.children ds ∧
        docSize ds ≤ limit ∧
        (Fits ⟨limit, 0, []⟩ t.children → ds = Tree.fieldValues t.children) := by
  obtain ⟨len, hlen⟩ := htable.exists_length
  have hb : Writable ⟨limit, 0, []⟩ :=
    ⟨hlimit, by simpa [BsonT.closed, docSize] using hroom⟩
  simp only [castBSON, hstr, hcall, Outcome.ok_bind]
  rcases encodeTable_spec htable hlen hb arg with ⟨hundef, hfits⟩ | ⟨ds, hok, hpart, hsize, hfull⟩
  · exact Or.inl ⟨by simp [hundef], hfits⟩
  · refine Or.inr ⟨ds, by simp [hok, BsonT.extend], hpart, ?_, hfull⟩
    simpa [BsonT.closed, docSize] using hsize

/-- A new document holds what the bound of its buffer allows. -/
theorem fits_new_iff {limit : Nat} {fs : List (Bytes × Tree)} :
    Fits ⟨limit, 0, []⟩ fs ↔
      Tree.FieldsNulFree fs ∧ docSize (Tree.fieldValues fs) ≤ limit := by
  simp [Fits, BsonT.closed, docSize]

/-! ## Static unfoldings -/

theorem transform_of_nil {E : Env} {h : Heap Host} {v : LVal}
    (hv : h.getmetafield v (bytes "__toBSON") = .nil) : transform E h v = .ok (h, v) := by
  simp [transform, hv]

/-- The length of a plain table is that of its own field. -/
theorem PlainTable.getArrayLength {E : Env} {h : Heap Host} {r : Ref}
    (hplain : PlainTable h r) : getArrayLength E h r = .ok (plainLength E h r) := by
  simp [Mongo.getArrayLength, getArrayField, hplain.2, plainLength]

/-- No open table can occur in a tree that is smaller than each of theirs. -/
def PathAbove (E : Env) (h : Heap Host) (path : Finset Ref) (size : Nat) : Prop :=
  ∀ m ∈ path, ∀ t, Unfolds E h (.table m) t → size < t.size

theorem PathAbove.mono {E : Env} {h : Heap Host} {path : Finset Ref} {n m : Nat}
    (habove : PathAbove E h path n) (hle : m ≤ n) : PathAbove E h path m :=
  fun r hr t ht => Nat.lt_of_le_of_lt hle (habove r hr t ht)

/-- The tables above a child are those above its parent, and the parent. -/
theorem PathAbove.insert {E : Env} {h : Heap Host} {path : Finset Ref} {r : Ref} {t : Tree}
    {n : Nat} (habove : PathAbove E h path t.size) (ht : Unfolds E h (.table r) t)
    (hn : n < t.size) : PathAbove E h (insert r path) n := by
  intro m hm t' ht'
  rcases Finset.mem_insert.mp hm with rfl | hm
  · rw [ht'.unique ht]
    exact hn
  · exact Nat.lt_trans hn (habove m hm t' ht')

/-- A table is not open above itself. -/
theorem PathAbove.fresh {E : Env} {h : Heap Host} {path : Finset Ref} {r : Ref} {t : Tree}
    (habove : PathAbove E h path t.size) (ht : Unfolds E h (.table r) t) : r ∉ path :=
  fun hr => Nat.lt_irrefl _ (habove r hr t ht)

mutual
/-- A static unfolding whose tables fit the stack is what the encoder sees. -/
theorem Unfolds.encodes {E : Env} {h : Heap Host} {v : LVal} {t : Tree}
    (ht : Unfolds E h v t) {top : Nat} {path : Finset Ref} (htop : top ≤ MAXSTACK + 1)
    (hshallow : t.Shallow top) (habove : PathAbove E h path t.size) :
    Encodes E top path h v h t := by
  cases ht with
  | leaf hleaf => exact .leaf (transform_of_nil hleaf.1) (hleaf.2 top htop)
  | @doc r fs hplain hlen hfields =>
    have hself : Unfolds E h (.table r) (.doc fs) := .doc hplain hlen hfields
    refine .table (transform_of_nil (hplain.getmetafield _)) (hplain.getmetafield _)
      (.doc ⟨hshallow.1, hplain.2, habove.fresh hself⟩ (by rw [hplain.getArrayLength, hlen]) ?_)
    refine hfields.encodes (by have := hshallow.1; omega) hshallow.2
      (habove.insert hself ?_)
    simp only [Tree.size]
    omega
  | @array r n ts hplain hlen helems =>
    have hself : Unfolds E h (.table r) (.array ts) := .array hplain hlen helems
    refine .table (transform_of_nil (hplain.getmetafield _)) (hplain.getmetafield _)
      (.array ⟨hshallow.1, hplain.2, habove.fresh hself⟩ (by rw [hplain.getArrayLength, hlen]) ?_)
    refine helems.encodes rfl (by have := hshallow.1; omega) hshallow.2
      (habove.insert hself ?_)
    simp only [Tree.size]
    omega

theorem UnfoldsFields.encodes {E : Env} {h : Heap Host} {es : List (Key × LVal)}
    {fs : List (Bytes × Tree)} (hfs : UnfoldsFields E h es fs) {top : Nat} {path : Finset Ref}
    (htop : top ≤ MAXSTACK + 1) (hshallow : Tree.FieldsShallow top fs)
    (habove : PathAbove E h path (Tree.fieldsSize fs)) :
    EncodesFields E top path h es h fs := by
  cases hfs with
  | nil => exact .nil
  | cons hv hrest =>
    simp only [Tree.fieldsSize] at habove
    exact .cons (hv.encodes htop hshallow.1 (habove.mono (by omega)))
      (hrest.encodes htop hshallow.2 (habove.mono (by omega)))

theorem UnfoldsElems.encodes {E : Env} {h : Heap Host} {vs : List LVal} {ts : List Tree}
    (hts : UnfoldsElems E h vs ts) {r : Ref} {i n : Nat} (hvs : vs = elementsFrom (h.get r) i n)
    {top : Nat} {path : Finset Ref} (htop : top ≤ MAXSTACK + 1)
    (hshallow : Tree.ElemsShallow top ts) (habove : PathAbove E h path (Tree.elemsSize ts)) :
    EncodesElems E top path r h i n h ts := by
  cases hts with
  | nil =>
    cases n with
    | zero => exact .nil
    | succ n => simp [elementsFrom] at hvs
  | cons hv hrest =>
    cases n with
    | zero => simp [elementsFrom] at hvs
    | succ n =>
      simp only [elementsFrom, List.cons.injEq] at hvs
      obtain ⟨rfl, hvs⟩ := hvs
      simp only [Tree.elemsSize] at habove
      exact .cons (hv.encodes htop hshallow.1 (habove.mono (by omega)))
        (hrest.encodes hvs htop hshallow.2 (habove.mono (by omega)))
end

/-- The same for a table at the root. -/
theorem Unfolds.encodesTable {E : Env} {h : Heap Host} {r : Ref} {t : Tree}
    (ht : Unfolds E h (.table r) t) (hplain : PlainTable h r) (top : Nat)
    (htop : top ≤ MAXSTACK + 1) (hshallow : t.Shallow top) :
    EncodesTable E top ∅ h r h t := by
  have habove : PathAbove E h ∅ t.size := fun m hm => absurd hm (by simp)
  have henc := ht.encodes htop hshallow habove
  cases henc with
  | leaf htrans hleaf =>
    rw [transform_of_nil (hplain.getmetafield _)] at htrans
    cases htrans
    simp [leafValue, hplain.getmetafield] at hleaf
  | table htrans _ htable =>
    rw [transform_of_nil (hplain.getmetafield _)] at htrans
    cases htrans
    exact htable

end Vklib.Mongo
