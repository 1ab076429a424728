import Vklib.Mongo.DecodeSpec
import Vklib.Mongo.Find
import Vklib.Mongo.TypedValue

/-!
# The two decoders

`b:find(k)` decodes one field and `b:value()` all of them.  Both go through the
same constructors, so the tables that they make look the same without being the
same, which is `DeepEq`.

`Unpacked` says what a decoder makes of a value, of every type: a table that was
filled with what it made of the fields, a typed table with its parameters, or a
scalar.  `unpackValue_unpacked` is one such result for each run, and
`Unpacked.deepEq` says that two results for one value look the same.

What is left is the kind of a document that comes back from `b:find(k)`.  It has
lost its type tag, and `filled_kinds_differ` tells the two kinds apart on every
document.  `decoders_agree_iff` is the result.
-/

namespace Vklib.Mongo

open Vklib.Lua Vklib.Bson

/-! ## Values that look the same -/

/-- Two values of a heap look the same: they are the same, or tables with the same
metatable whose fields look the same.  An integer and a float are different here, also
`2` and `2.0`, which Lua compares as equal. -/
inductive DeepEq (h : Heap Host) : LVal → LVal → Prop where
  | same (v : LVal) : DeepEq h v v
  | table {r r' : Ref} (hmeta : (h.get r).metatable = (h.get r').metatable)
      (hfields : ∀ k, DeepEq h ((h.get r).get k) ((h.get r').get k)) :
      DeepEq h (.table r) (.table r')

theorem DeepEq.get {h : Heap Host} {r r' : Ref} (heq : DeepEq h (.table r) (.table r')) (k : Key) :
    DeepEq h ((h.get r).get k) ((h.get r').get k) := by
  cases heq with
  | same => exact .same _
  | table _ hfields => exact hfields k

theorem DeepEq.symm {h : Heap Host} {v w : LVal} (heq : DeepEq h v w) : DeepEq h w v := by
  induction heq with
  | same v => exact .same v
  | table hmeta _ ih => exact .table hmeta.symm ih

/-- What is no table looks like nothing but itself. -/
theorem DeepEq.eq_of_not_table {h : Heap Host} {v w : LVal} (heq : DeepEq h v w)
    (hw : ∀ r, w ≠ .table r) : v = w := by
  cases heq with
  | same => rfl
  | table _ _ => exact absurd rfl (hw _)

theorem DeepEq.eq_of_not_table' {h : Heap Host} {v w : LVal} (heq : DeepEq h v w)
    (hv : ∀ r, v ≠ .table r) : v = w := by
  cases heq with
  | same => rfl
  | table _ _ => exact absurd rfl (hv _)

/-! ## What a decoder makes -/

/-- The registry slots hold what their names say: the constructors are the C
functions, and the singletons are tables. -/
structure SlotsCorrect (slots : Slot → LVal) : Prop where
  binary : slots .NEW_BINARY = .host (.cfunc .newBinary)
  dateTime : slots .NEW_DATETIME = .host (.cfunc .newDateTime)
  decimal128 : slots .NEW_DECIMAL128 = .host (.cfunc .newDecimal128)
  javascript : slots .NEW_JAVASCRIPT = .host (.cfunc .newJavascript)
  regex : slots .NEW_REGEX = .host (.cfunc .newRegex)
  timestamp : slots .NEW_TIMESTAMP = .host (.cfunc .newTimestamp)
  maxkey : ∃ r, slots .GLOBAL_MAXKEY = .table r
  minkey : ∃ r, slots .GLOBAL_MINKEY = .table r
  null : ∃ r, slots .GLOBAL_NULL = .table r

/-- The type name and the parameters of the typed table for a value, none when a
scalar stands for it. -/
def typedParams (E : Env) : Value → Option (Bytes × List LVal)
  | .decimal128 d => some (TYPE_DECIMAL128, [.str (E.bson_decimal128_to_string d)])
  | .binary subtype payload =>
    some (TYPE_BINARY, [.str (bson_iter_binary subtype payload), .int subtype.toNat.toInt64])
  | .dateTime ms => some (TYPE_DATETIME, [.int ms])
  | .code source => some (TYPE_JAVASCRIPT, [.str source, .nil])
  | .codewscope source scope => some (TYPE_JAVASCRIPT, [.str source, .host (.bson scope)])
  | .regex pattern options => some (TYPE_REGEX, [.str pattern, .str options])
  | .timestamp t i =>
    some (TYPE_TIMESTAMP, [.int t.toNat.toInt64, .int i.toNat.toInt64])
  | _ => none

/-- The scalar that stands for a value. -/
def scalarValue (slots : Slot → LVal) : Value → LVal
  | .bool b => .bool b
  | .int32 i => .int i.toInt64
  | .int64 i => .int i
  | .double x => .flt x
  | .utf8 s => .str s
  | .oid id => .host (.objectID id)
  | .maxkey => slots .GLOBAL_MAXKEY
  | .minkey => slots .GLOBAL_MINKEY
  | .null => slots .GLOBAL_NULL
  | _ => .nil

/-- The table `t` after the fields `fs`, decoded as `ws`, were stored in it. -/
def fill (array : Bool) (t : Table Host) (len : Int) : List (Bytes × Value) → List LVal →
    Table Host
  | (key, _) :: fs, w :: ws =>
    fill array (t.rawset (if array then .int (len + 1) else .str key) w) (len + 1) fs ws
  | _, _ => t

/-- A new table that holds the fields, of one of the two kinds. -/
def filled (array : Bool) (fs : List (Bytes × Value)) (ws : List LVal) : Table Host :=
  if array then
    (fill true Table.empty 0 fs ws).rawset (.str (bytes "__array"))
      (.int (fs.length : Int).toInt64)
  else fill false Table.empty 0 fs ws

/-- A value below which there are no fields, decoded.  `metatables` keeps the
metatables of the types, and tables stand at `lo` or above. -/
def LeafUnpacked (E : Env) (slots : Slot → LVal) (metatables : Bytes → Option Ref)
    (h : Heap Host) (lo : Ref) (v : Value) (w : LVal) : Prop :=
  (typedParams E v = none ∧ w = scalarValue slots v) ∨
    ∃ p r m, typedParams E v = some p ∧ w = .table r ∧ lo ≤ r ∧ r < h.length ∧
      metatables p.1 = some m ∧ h.get r = (packed p.2).setMetatable (some m)

mutual
/-- What a decoder makes of a value. -/
def Unpacked (E : Env) (slots : Slot → LVal) (metatables : Bytes → Option Ref) (h : Heap Host)
    (lo : Ref) : Value → LVal → Prop
  | .document fs, w => ∃ r ws, w = .table r ∧ lo ≤ r ∧ r < h.length ∧
      h.get r = filled false fs ws ∧ UnpackedAll E slots metatables h lo fs ws
  | .array fs, w => ∃ r ws, w = .table r ∧ lo ≤ r ∧ r < h.length ∧
      h.get r = filled true fs ws ∧ UnpackedAll E slots metatables h lo fs ws
  | v, w => LeafUnpacked E slots metatables h lo v w

/-- The same for the values of fields. -/
def UnpackedAll (E : Env) (slots : Slot → LVal) (metatables : Bytes → Option Ref)
    (h : Heap Host) (lo : Ref) : List (Bytes × Value) → List LVal → Prop
  | [], [] => True
  | (_, v) :: fs, w :: ws =>
    Unpacked E slots metatables h lo v w ∧ UnpackedAll E slots metatables h lo fs ws
  | _, _ => False
end

/-- The same for a document of one of the two kinds. -/
def UnpackedDoc (E : Env) (slots : Slot → LVal) (metatables : Bytes → Option Ref)
    (h : Heap Host) (lo : Ref) (array : Bool) (fs : List (Bytes × Value)) (w : LVal) : Prop :=
  ∃ r ws, w = .table r ∧ lo ≤ r ∧ r < h.length ∧ h.get r = filled array fs ws ∧
    UnpackedAll E slots metatables h lo fs ws

/-- A value that is a document of a kind. -/
theorem unpacked_kindValue {E : Env} {slots : Slot → LVal} {metatables : Bytes → Option Ref}
    {h : Heap Host} {lo : Ref} (array : Bool) (fs : List (Bytes × Value)) (w : LVal) :
    Unpacked E slots metatables h lo (if array then .array fs else .document fs) w ↔
      UnpackedDoc E slots metatables h lo array fs w := by
  cases array <;> simp [Unpacked, UnpackedDoc]

/-! ## Frames -/

/-- The types keep their metatables. -/
def Keeps (metatables metatables' : Bytes → Option Ref) : Prop :=
  ∀ name m, metatables name = some m → metatables' name = some m

theorem Keeps.refl (metatables : Bytes → Option Ref) : Keeps metatables metatables :=
  fun _ _ h => h

theorem Keeps.trans {m₁ m₂ m₃ : Bytes → Option Ref} (h₁₂ : Keeps m₁ m₂) (h₂₃ : Keeps m₂ m₃) :
    Keeps m₁ m₃ :=
  fun name m h => h₂₃ name m (h₁₂ name m h)

section frame

variable {E : Env} {slots : Slot → LVal} {metatables metatables' : Bytes → Option Ref}
  {h h' : Heap Host} {lo lo' : Ref}

theorem LeafUnpacked.frame (hagree : AgreesFrom lo h h') (hle : lo' ≤ lo)
    (hkeeps : Keeps metatables metatables') {v : Value} {w : LVal}
    (hv : LeafUnpacked E slots metatables h lo v w) :
    LeafUnpacked E slots metatables' h' lo' v w := by
  rcases hv with hscalar | ⟨p, r, m, hp, hw, hlo, hr, hm, hget⟩
  · exact Or.inl hscalar
  · refine Or.inr ⟨p, r, m, hp, hw, hle.trans hlo, Nat.lt_of_lt_of_le hr hagree.1,
      hkeeps _ _ hm, ?_⟩
    rw [hagree.2 r hlo hr, hget]

mutual
/-- What is decoded stays when the heap keeps its tables and the types their
metatables. -/
theorem Unpacked.frame (hagree : AgreesFrom lo h h') (hle : lo' ≤ lo)
    (hkeeps : Keeps metatables metatables') (v : Value) {w : LVal}
    (hv : Unpacked E slots metatables h lo v w) : Unpacked E slots metatables' h' lo' v w := by
  cases v with
  | document fs | array fs =>
    simp only [Unpacked] at hv ⊢
    obtain ⟨r, ws, hw, hlo, hr, hget, hall⟩ := hv
    exact ⟨r, ws, hw, hle.trans hlo, Nat.lt_of_lt_of_le hr hagree.1,
      by rw [hagree.2 r hlo hr, hget], UnpackedAll.frame hagree hle hkeeps fs hall⟩
  | _ =>
    simp only [Unpacked] at hv ⊢
    exact hv.frame hagree hle hkeeps

theorem UnpackedAll.frame (hagree : AgreesFrom lo h h') (hle : lo' ≤ lo)
    (hkeeps : Keeps metatables metatables') (fs : List (Bytes × Value)) {ws : List LVal}
    (hall : UnpackedAll E slots metatables h lo fs ws) :
    UnpackedAll E slots metatables' h' lo' fs ws := by
  match fs, ws with
  | [], [] => simp [UnpackedAll]
  | (key, v) :: fs, w :: ws =>
    simp only [UnpackedAll] at hall ⊢
    exact ⟨Unpacked.frame hagree hle hkeeps v hall.1,
      UnpackedAll.frame hagree hle hkeeps fs hall.2⟩
end

theorem UnpackedDoc.frame (hagree : AgreesFrom lo h h') (hle : lo' ≤ lo)
    (hkeeps : Keeps metatables metatables') {array : Bool} {fs : List (Bytes × Value)} {w : LVal}
    (hdoc : UnpackedDoc E slots metatables h lo array fs w) :
    UnpackedDoc E slots metatables' h' lo' array fs w := by
  rw [← unpacked_kindValue] at hdoc ⊢
  exact Unpacked.frame hagree hle hkeeps _ hdoc

end frame

/-! ## Runs -/

section runs

variable {E : Env} {slots : Slot → LVal}

/-- Below documents and arrays the two decoders are one. -/
theorem unpackValue_eq_pushBSONValue {v : Value} (hv : holdsDocument v = false) (handler : LVal)
    (top : Nat) (L : State) : unpackValue E handler top L v = pushBSONValue E L v := by
  cases v <;> first | rfl | simp [holdsDocument] at hv

/-- A constructor makes the typed table of its parameters. -/
theorem pushBSONValue_typed {L : State} (hslots : SlotsCorrect L.slots) {v : Value}
    {p : Bytes × List LVal} (hp : typedParams E v = some p) {result : State × LVal}
    (hrun : pushBSONValue E L v = .ok result) : ∃ type, result = newTyped L p.1 type p.2 := by
  cases v with
  | decimal128 d =>
    obtain rfl := Option.some.inj hp
    simp only [pushBSONValue, hslots.decimal128, lua_call, newDecimal128, checkstring, tolstring,
      List.getElem?_cons_zero, Nat.sub_self, Outcome.ok_bind] at hrun
    split at hrun
    · simp at hrun
    · exact ⟨_, (Outcome.ok.inj hrun).symm⟩
  | binary subtype payload =>
    obtain rfl := Option.some.inj hp
    rw [pushBSONValue, hslots.binary] at hrun
    exact ⟨_, (Outcome.ok.inj hrun).symm⟩
  | dateTime ms =>
    obtain rfl := Option.some.inj hp
    rw [pushBSONValue, hslots.dateTime] at hrun
    exact ⟨_, (Outcome.ok.inj hrun).symm⟩
  | code source =>
    obtain rfl := Option.some.inj hp
    rw [pushBSONValue, hslots.javascript] at hrun
    exact ⟨_, (Outcome.ok.inj hrun).symm⟩
  | codewscope source scope =>
    obtain rfl := Option.some.inj hp
    rw [pushBSONValue, hslots.javascript] at hrun
    exact ⟨_, (Outcome.ok.inj hrun).symm⟩
  | regex pattern options =>
    obtain rfl := Option.some.inj hp
    rw [pushBSONValue, hslots.regex] at hrun
    exact ⟨_, (Outcome.ok.inj hrun).symm⟩
  | timestamp t i =>
    obtain rfl := Option.some.inj hp
    rw [pushBSONValue, hslots.timestamp] at hrun
    exact ⟨_, (Outcome.ok.inj hrun).symm⟩
  | _ => simp [typedParams] at hp

theorem pushBSONValue_scalar {L : State} {v : Value} (hp : typedParams E v = none)
    (hv : holdsDocument v = false) : pushBSONValue E L v = .ok (L, scalarValue L.slots v) := by
  cases v <;> first | rfl | simp [typedParams, holdsDocument] at hp hv

theorem keeps_newTyped (L : State) (name : Bytes) (type : UInt32) (params : List LVal) :
    Keeps L.metatables (newTyped L name type params).1.metatables := by
  intro name' m hm
  by_cases hne : name' = name
  · subst hne
    have hpack : (packParams L params).1.metatables name' = some m := by
      rw [(get_packParams L params).2.2, hm]
    simp [newTyped, setBSONType, newType, hpack]
  · rw [metatables_newTyped L hne, hm]

/-- What the decoders make of a value without fields below it. -/
theorem pushBSONValue_unpacked {L L' : State} (hslots : SlotsCorrect slots)
    (hL : L.slots = slots) {v : Value} (hv : holdsDocument v = false) {w : LVal}
    (hrun : pushBSONValue E L v = .ok (L', w)) :
    Grows L.heap slots L' ∧ Keeps L.metatables L'.metatables ∧
      LeafUnpacked E slots L'.metatables L'.heap L.heap.length v w := by
  subst hL
  cases hp : typedParams E v with
  | none =>
    rw [pushBSONValue_scalar hp hv] at hrun
    obtain ⟨rfl, rfl⟩ := Outcome.ok_prod_inj hrun
    exact ⟨.refl L, .refl _, Or.inl ⟨hp, rfl⟩⟩
  | some p =>
    obtain ⟨type, hresult⟩ := pushBSONValue_typed hslots hp hrun
    obtain ⟨hgrows, hw⟩ := grows_newTyped L p.1 type p.2
    obtain ⟨m, hget, hname, -⟩ := get_newTyped L p.1 type p.2
    have hkeeps := keeps_newTyped L p.1 type p.2
    rw [← hresult] at hgrows hw hget hname hkeeps
    refine ⟨hgrows, hkeeps, Or.inr ⟨p, _, m, hp, hw, Nat.le_refl _, ?_, hname, hget⟩⟩
    by_contra hout
    have hempty : L'.heap.get L.heap.length = Table.empty := by
      simp [Heap.get, List.getElem?_eq_none (Nat.le_of_not_lt hout)]
    rw [hempty] at hget
    have hmeta := congrArg Table.metatable hget
    simp [Table.setMetatable, Table.empty] at hmeta

/-- The fields are stored one after the other, each as it was decoded. -/
def StoresFields (E : Env) (slots : Slot → LVal) (fs : List (Bytes × Value)) : Prop :=
  ∀ {L L' : State} {top : Nat} {r lo : Ref} {array : Bool} {len n : Int}, L.slots = slots →
    r < L.heap.length → r < lo → lo ≤ L.heap.length →
    unpackLoop E .nil top r array len L fs = .ok (L', n) →
    n = len + fs.length ∧ GrowsAround r L L' ∧ Keeps L.metatables L'.metatables ∧
      ∃ ws, L'.heap.get r = fill array (L.heap.get r) len fs ws ∧
        UnpackedAll E slots L'.metatables L'.heap lo fs ws

/-- What `unpackTable` makes of a document, without a handler. -/
theorem StoresFields.unpackTable {fs : List (Bytes × Value)} (hfs : StoresFields E slots fs)
    {L L' : State} (hL : L.slots = slots) {top top' : Nat} {array : Bool} {w : LVal}
    (hrun : unpackTable E .nil top L array
      (fun L r => unpackLoop E .nil top' r array 0 L fs) = .ok (L', w)) :
    Grows L.heap slots L' ∧ Keeps L.metatables L'.metatables ∧
      UnpackedDoc E slots L'.metatables L'.heap L.heap.length array fs w := by
  simp only [Mongo.unpackTable, State.newtable_snd] at hrun
  split at hrun
  · obtain ⟨⟨L₁, n⟩, hloop, hend⟩ := Outcome.bind_eq_ok_iff.mp hrun
    simp only [Val.isNil, if_true] at hend
    obtain ⟨rfl, rfl⟩ := Outcome.ok_prod_inj hend
    obtain ⟨rfl, hgrows, hkeeps, ws, hget, hall⟩ := hfs (by simpa using hL) (by simp)
      (Nat.lt_succ_self L.heap.length) (by simp) hloop
    obtain ⟨hall', htable⟩ := hgrows.newtable hL
    rw [State.heap_newtable, Heap.get_append_length] at hget
    cases array with
    | false =>
      refine ⟨hall', hkeeps, _, ws, rfl, Nat.le_refl _, htable.1, hget, ?_⟩
      exact hall.frame (.of_extends (.refl _) _) (Nat.le_succ _) (.refl _)
    | true =>
      have hstore := L₁.get_rawset htable.1
      refine ⟨hall'.rawset (Nat.le_refl _) _ _, hkeeps, _, ws, rfl, Nat.le_refl _,
        by simpa using htable.1, ?_, ?_⟩
      · rw [if_pos rfl, hstore, if_pos rfl, hget, Int.zero_add]
        rfl
      · refine hall.frame ⟨by simp, fun r hlo _ => ?_⟩ (Nat.le_succ _) (.refl _)
        rw [if_pos rfl, hstore, if_neg (Nat.ne_of_gt hlo)]
  · simp at hrun

mutual
/-- What `unpackValue` makes of a value. -/
theorem unpackValue_unpacked (hslots : SlotsCorrect slots) (v : Value) {L L' : State}
    (hL : L.slots = slots) {top : Nat} {w : LVal}
    (hrun : unpackValue E .nil top L v = .ok (L', w)) :
    Grows L.heap slots L' ∧ Keeps L.metatables L'.metatables ∧
      Unpacked E slots L'.metatables L'.heap L.heap.length v w := by
  cases v with
  | document fs =>
    rw [unpackValue] at hrun
    obtain ⟨hgrows, hkeeps, hdoc⟩ :=
      StoresFields.unpackTable (unpackLoop_unpacked hslots fs) hL hrun
    exact ⟨hgrows, hkeeps, (unpacked_kindValue false fs w).mpr hdoc⟩
  | array fs =>
    rw [unpackValue] at hrun
    obtain ⟨hgrows, hkeeps, hdoc⟩ :=
      StoresFields.unpackTable (unpackLoop_unpacked hslots fs) hL hrun
    exact ⟨hgrows, hkeeps, (unpacked_kindValue true fs w).mpr hdoc⟩
  | _ =>
    rw [unpackValue_eq_pushBSONValue rfl] at hrun
    simpa only [Unpacked] using pushBSONValue_unpacked hslots hL rfl hrun

theorem unpackLoop_unpacked (hslots : SlotsCorrect slots) (fs : List (Bytes × Value)) :
    StoresFields E slots fs := by
  intro L L' top r lo array len n hL hr hlo hle hrun
  match fs with
  | [] =>
    rw [unpackLoop] at hrun
    obtain ⟨rfl, rfl⟩ := Outcome.ok_prod_inj hrun
    exact ⟨by simp, .refl r L, .refl _, [], by simp [fill], by simp [UnpackedAll]⟩
  | (key, v) :: rest =>
    rw [unpackLoop] at hrun
    obtain ⟨⟨L₁, w⟩, hvalue, hloop⟩ := Outcome.bind_eq_ok_iff.mp hrun
    obtain ⟨hgrows₁, hkeeps₁, hw⟩ := unpackValue_unpacked hslots v hL hvalue
    have hr₁ : r < L₁.heap.length := Nat.lt_of_lt_of_le hr hgrows₁.heap.1
    obtain ⟨rfl, hgrows₂, hkeeps₂, ws, hget, hall⟩ := unpackLoop_unpacked hslots rest
      (by simpa using hgrows₁.slots) (by simpa using hr₁) hlo
      (by rw [State.length_rawset]; exact hle.trans hgrows₁.heap.1) hloop
    rw [L₁.get_rawset hr₁, if_pos rfl, hgrows₁.heap.2 r hr] at hget
    refine ⟨by push_cast [List.length_cons]; omega, .step hr (hL ▸ hgrows₁) hgrows₂,
      hkeeps₁.trans hkeeps₂, w :: ws, by rw [hget, fill], ?_⟩
    simp only [UnpackedAll]
    refine ⟨hw.frame ?_ hle hkeeps₂, hall⟩
    refine AgreesFrom.trans ⟨by simp, fun r' hlo' _ => ?_⟩
      (hgrows₂.agreesFrom (Nat.lt_of_lt_of_le hlo hle))
    rw [L₁.get_rawset hr₁, if_neg (Nat.ne_of_gt (Nat.lt_of_lt_of_le hr hlo'))]
end

end runs

/-! ## Filled tables -/

section tables

variable {h : Heap Host}

@[simp] theorem metatable_fill (array : Bool) (t : Table Host) (len : Int)
    (fs : List (Bytes × Value)) (ws : List LVal) : (fill array t len fs ws).metatable = t.metatable := by
  induction fs generalizing t len ws with
  | nil => simp [fill]
  | cons f rest ih =>
    cases ws with
    | nil => simp [fill]
    | cons w ws =>
      rw [fill, ih, Table.metatable_rawset]

@[simp] theorem metatable_filled (array : Bool) (fs : List (Bytes × Value)) (ws : List LVal) :
    (filled array fs ws).metatable = none := by
  cases array
  · exact metatable_fill _ _ _ _ _
  · exact metatable_fill _ _ _ _ _

/-- Storing values that look the same keeps tables looking the same. -/
theorem deepEq_fill (array : Bool) {t t' : Table Host}
    (ht : ∀ k, DeepEq h (t.get k) (t'.get k)) (len : Int) (fs : List (Bytes × Value))
    {ws ws' : List LVal} (hws : List.Forall₂ (DeepEq h) ws ws') (k : Key) :
    DeepEq h ((fill array t len fs ws).get k) ((fill array t' len fs ws').get k) := by
  induction fs generalizing t t' len ws ws' with
  | nil => simpa [fill] using ht k
  | cons f rest ih =>
    cases hws with
    | nil => simpa [fill] using ht k
    | cons hw hrest =>
      refine ih (fun k => ?_) _ hrest
      rw [Table.get_rawset, Table.get_rawset]
      by_cases hk : k = if array then .int (len + 1) else .str f.1
      · rw [if_pos hk, if_pos hk]
        exact hw
      · rw [if_neg hk, if_neg hk]
        exact ht k

theorem deepEq_filled (array : Bool) (fs : List (Bytes × Value)) {ws ws' : List LVal}
    (hws : List.Forall₂ (DeepEq h) ws ws') (k : Key) :
    DeepEq h ((filled array fs ws).get k) ((filled array fs ws').get k) := by
  have hempty : ∀ k, DeepEq h ((Table.empty : Table Host).get k) (Table.empty.get k) :=
    fun _ => .same _
  cases array with
  | false => exact deepEq_fill false hempty 0 fs hws k
  | true =>
    simp only [filled, if_true, Table.get_rawset]
    split_ifs
    · exact .same _
    · exact deepEq_fill true hempty 0 fs hws k

/-- A document stores under strings only. -/
theorem get_fill_false_int (t : Table Host) (len i : Int) (fs : List (Bytes × Value))
    (ws : List LVal) : (fill false t len fs ws).get (.int i) = t.get (.int i) := by
  induction fs generalizing t len ws with
  | nil => simp [fill]
  | cons f rest ih =>
    cases ws with
    | nil => simp [fill]
    | cons w ws =>
      rw [fill, ih, Table.get_rawset, if_neg (by simp)]

/-- An array stores under the next integers only. -/
theorem get_fill_true (t : Table Host) {len : Int} {k : Key} (hk : ∀ i, len < i → k ≠ .int i)
    (fs : List (Bytes × Value)) (ws : List LVal) : (fill true t len fs ws).get k = t.get k := by
  induction fs generalizing t len ws with
  | nil => simp [fill]
  | cons f rest ih =>
    cases ws with
    | nil => simp [fill]
    | cons w ws =>
      rw [fill, ih _ (fun i hi => hk i (by omega)), if_pos rfl, Table.get_rawset,
        if_neg (hk _ (by omega))]

/-- An array whose integer fields are all nil has stored nothing else. -/
theorem eq_nil_of_get_fill_true {t : Table Host} {len : Int} {fs : List (Bytes × Value)}
    {ws : List LVal} (hlength : ws.length = fs.length)
    (hnil : ∀ i, len < i → (fill true t len fs ws).get (.int i) = .nil) : ∀ w ∈ ws, w = .nil := by
  induction fs generalizing t len ws with
  | nil =>
    rw [List.length_eq_zero_iff.mp hlength]
    simp
  | cons f rest ih =>
    cases ws with
    | nil => simp
    | cons w ws =>
      rw [fill] at hnil
      have hfirst := hnil (len + 1) (by omega)
      rw [get_fill_true _ (by simp; omega), if_pos rfl, Table.get_rawset, if_pos rfl] at hfirst
      have hrest := ih (by simpa using hlength) fun i hi => hnil i (by omega)
      simpa [hfirst] using hrest

/-- Storing nil in a document leaves fields nil. -/
theorem get_fill_of_nil {t : Table Host} {k : Key} (hk : t.get k = .nil) (len : Int)
    (fs : List (Bytes × Value)) {ws : List LVal} (hws : ∀ w ∈ ws, w = .nil) :
    (fill false t len fs ws).get k = .nil := by
  induction fs generalizing t len ws with
  | nil => simpa [fill] using hk
  | cons f rest ih =>
    cases ws with
    | nil => simpa [fill] using hk
    | cons w ws =>
      refine ih ?_ _ fun w hw => hws w (List.mem_cons_of_mem _ hw)
      rw [Table.get_rawset, hws w List.mem_cons_self, hk, ite_self]

theorem get_filled_array_mark (fs : List (Bytes × Value)) (ws : List LVal) :
    (filled true fs ws).get (.str (bytes "__array")) = .int (fs.length : Int).toInt64 := by
  simp only [filled, if_true, Table.get_rawset]

/-- The two kinds of one document never look the same: an array has its mark, and
a document with the same field has a string key for a value that the array has
under an integer. -/
theorem filled_kinds_differ {fs : List (Bytes × Value)} {ws ws' : List LVal}
    (hlength : ws'.length = fs.length) (hws : List.Forall₂ (DeepEq h) ws ws')
    (hsame : ∀ k, DeepEq h ((filled false fs ws).get k) ((filled true fs ws').get k)) : False := by
  have hints : ∀ w ∈ ws', w = .nil := by
    have hget : ∀ i : Int, 0 < i → (fill true Table.empty 0 fs ws').get (.int i) = .nil := by
      intro i _
      have hi := hsame (.int i)
      simp only [filled, Bool.false_eq_true, if_false, if_true, get_fill_false_int,
        Table.get_empty, Table.get_rawset, reduceCtorEq] at hi
      exact (hi.eq_of_not_table' (by simp)).symm
    exact eq_nil_of_get_fill_true hlength hget
  have hnil : ∀ w ∈ ws, w = .nil := by
    intro w hw
    obtain ⟨i, hi, rfl⟩ := List.getElem_of_mem hw
    have hi' : i < ws'.length := hws.length_eq ▸ hi
    have hlook := (List.forall₂_iff_get.mp hws).2 i hi hi'
    have hzero := hints _ (List.getElem_mem hi')
    rw [List.get_eq_getElem, List.get_eq_getElem, hzero] at hlook
    exact hlook.eq_of_not_table (by simp)
  have hmark := hsame (.str (bytes "__array"))
  rw [get_filled_array_mark, filled, if_neg (by simp),
    get_fill_of_nil (Table.get_empty _) 0 fs hnil] at hmark
  simpa using hmark.eq_of_not_table' (by simp)

end tables

/-! ## One result for each value -/

section unique

variable {E : Env} {slots : Slot → LVal} {metatables : Bytes → Option Ref} {h : Heap Host}
  {lo lo' : Ref}

mutual
/-- Two results for one value look the same. -/
theorem Unpacked.deepEq (v : Value) {w w' : LVal} (hw : Unpacked E slots metatables h lo v w)
    (hw' : Unpacked E slots metatables h lo' v w') : DeepEq h w w' := by
  cases v with
  | document fs | array fs =>
    simp only [Unpacked] at hw hw'
    obtain ⟨r, ws, rfl, -, -, hget, hall⟩ := hw
    obtain ⟨r', ws', rfl, -, -, hget', hall'⟩ := hw'
    refine .table (by rw [hget, hget']; simp) fun k => ?_
    rw [hget, hget']
    exact deepEq_filled _ fs (UnpackedAll.deepEq fs hall hall') k
  | _ =>
    simp only [Unpacked] at hw hw'
    rcases hw with ⟨hp, rfl⟩ | ⟨p, r, m, hp, rfl, -, -, hm, hget⟩
    · rcases hw' with ⟨-, rfl⟩ | ⟨p', r', m', hp', -⟩
      · exact .same _
      · simp [hp] at hp'
    · rcases hw' with ⟨hp', -⟩ | ⟨p', r', m', hp', rfl, -, -, hm', hget'⟩
      · simp [hp] at hp'
      · obtain rfl := Option.some.inj (hp.symm.trans hp')
        obtain rfl := Option.some.inj (hm.symm.trans hm')
        refine .table (by rw [hget, hget']) fun k => ?_
        rw [hget, hget']
        exact .same _

theorem UnpackedAll.deepEq (fs : List (Bytes × Value)) {ws ws' : List LVal}
    (hall : UnpackedAll E slots metatables h lo fs ws)
    (hall' : UnpackedAll E slots metatables h lo' fs ws') : List.Forall₂ (DeepEq h) ws ws' := by
  match fs, ws, ws' with
  | [], [], [] => exact .nil
  | (key, v) :: fs, w :: ws, w' :: ws' =>
    simp only [UnpackedAll] at hall hall'
    exact .cons (Unpacked.deepEq v hall.1 hall'.1) (UnpackedAll.deepEq fs hall.2 hall'.2)
end

theorem UnpackedAll.length_eq {fs : List (Bytes × Value)} {ws : List LVal}
    (hall : UnpackedAll E slots metatables h lo fs ws) : ws.length = fs.length := by
  induction fs generalizing ws with
  | nil => cases ws <;> simp_all [UnpackedAll]
  | cons f rest ih =>
    cases ws with
    | nil => simp [UnpackedAll] at hall
    | cons w ws =>
      simp only [UnpackedAll] at hall
      rw [List.length_cons, List.length_cons, ih hall.2]

/-- Two decodings of one document look the same exactly when they are of the same
kind. -/
theorem UnpackedDoc.deepEq_iff {array array' : Bool} {fs : List (Bytes × Value)} {w w' : LVal}
    (hw : UnpackedDoc E slots metatables h lo array fs w)
    (hw' : UnpackedDoc E slots metatables h lo' array' fs w') : DeepEq h w w' ↔ array = array' := by
  constructor
  · intro heq
    obtain ⟨r, ws, rfl, -, -, hget, hall⟩ := hw
    obtain ⟨r', ws', rfl, -, -, hget', hall'⟩ := hw'
    have hsame := fun k => heq.get k
    rw [hget, hget'] at hsame
    cases array with
    | false =>
      cases array' with
      | false => rfl
      | true => exact (filled_kinds_differ hall'.length_eq (hall.deepEq fs hall') hsame).elim
    | true =>
      cases array' with
      | false =>
        exact (filled_kinds_differ hall.length_eq (hall'.deepEq fs hall)
          fun k => (hsame k).symm).elim
      | true => rfl
  · rintro rfl
    rw [← unpacked_kindValue] at hw hw'
    exact Unpacked.deepEq _ hw hw'

end unique

/-! ## One field -/

/-- `b:find(key)`, with `o:value()` in place of a BSON object `o`. -/
def findValue (E : Env) (L : State) (doc : Doc) (key : Bytes) : Outcome LuaError (State × LVal) := do
  let (L, x) ← m_find E L doc (.str key)
  match x with
  | .host (.bson fs) => m_value E L fs .nil
  | x => .ok (L, x)

/-- The Lua integer that stands for a value. -/
def intValue? : Value → Option Int64
  | .int32 i => some i.toInt64
  | .int64 i => some i
  | _ => none

/-- `b:find(key)` and `b:value()[key]` agree on the field with the value `v`.  A
document whose first key is `"0"` is unpacked as an array, and then a string
key finds its length or nothing. -/
def FieldAgrees (doc : Doc) (key : Bytes) (v : Value) : Prop :=
  if isArray doc then
    if key = bytes "__array" then intValue? v = some (doc.length : Int).toInt64 else ¬ HasCase v
  else
    ∀ fs, (v = .document fs → isArray fs = false) ∧ (v = .array fs → isArray fs = true)

section fields

variable {E : Env} {slots : Slot → LVal} {metatables : Bytes → Option Ref} {h : Heap Host}
  {lo : Ref}

theorem get_fill_false_of_notMem {t : Table Host} {len : Int} {key : Bytes}
    {fs : List (Bytes × Value)} {ws : List LVal} (hkey : key ∉ fs.map Prod.fst) :
    (fill false t len fs ws).get (.str key) = t.get (.str key) := by
  induction fs generalizing t len ws with
  | nil => simp [fill]
  | cons f rest ih =>
    simp only [List.map_cons, List.mem_cons, not_or] at hkey
    cases ws with
    | nil => simp [fill]
    | cons w ws =>
      rw [fill, ih hkey.2, Table.get_rawset, if_neg (by simpa using hkey.1)]

/-- Among distinct keys, the field of a document is what was made of its value. -/
theorem UnpackedAll.get_fill {fs : List (Bytes × Value)} (hnodup : (fs.map Prod.fst).Nodup)
    {key : Bytes} {v : Value} (hmem : (key, v) ∈ fs) {ws : List LVal}
    (hall : UnpackedAll E slots metatables h lo fs ws) (t : Table Host) (len : Int) :
    Unpacked E slots metatables h lo v ((fill false t len fs ws).get (.str key)) := by
  induction fs generalizing t len ws with
  | nil => simp at hmem
  | cons f rest ih =>
    obtain ⟨k, x⟩ := f
    cases ws with
    | nil => simp [UnpackedAll] at hall
    | cons w ws =>
      simp only [UnpackedAll] at hall
      simp only [List.map_cons, List.nodup_cons] at hnodup
      rcases List.mem_cons.mp hmem with heq | hrest
      · obtain ⟨rfl, rfl⟩ := Prod.mk.inj heq
        rw [fill, get_fill_false_of_notMem hnodup.1, Table.get_rawset, if_pos (by simp)]
        exact hall.1
      · exact ih hnodup.2 hrest hall.2 _ _

/-- A string key of an array table is its mark. -/
theorem get_filled_true_str (fs : List (Bytes × Value)) (ws : List LVal) (key : Bytes) :
    (filled true fs ws).get (.str key) =
      if key = bytes "__array" then .int (fs.length : Int).toInt64 else .nil := by
  simp only [filled, if_true, Table.get_rawset, Key.str.injEq]
  rw [get_fill_true _ (by simp), Table.get_empty]

/-- What a decoder makes of a scalar or a typed value is nil only for the types
without case. -/
theorem LeafUnpacked.eq_nil_iff (hslots : SlotsCorrect slots) {v : Value} {w : LVal}
    (hv : holdsDocument v = false) (hw : LeafUnpacked E slots metatables h lo v w) :
    w = .nil ↔ ¬ HasCase v := by
  obtain ⟨r₁, hmax⟩ := hslots.maxkey
  obtain ⟨r₂, hmin⟩ := hslots.minkey
  obtain ⟨r₃, hnull⟩ := hslots.null
  rcases hw with ⟨hp, rfl⟩ | ⟨p, r, m, hp, rfl, -⟩
  · cases v <;> simp_all [scalarValue, HasCase, typedParams, holdsDocument]
  · cases v <;> simp_all [HasCase, typedParams]

/-- It is an integer only for integers. -/
theorem LeafUnpacked.eq_int_iff (hslots : SlotsCorrect slots) {v : Value} {w : LVal}
    (hv : holdsDocument v = false) (hw : LeafUnpacked E slots metatables h lo v w) (i : Int64) :
    w = .int i ↔ intValue? v = some i := by
  obtain ⟨r₁, hmax⟩ := hslots.maxkey
  obtain ⟨r₂, hmin⟩ := hslots.minkey
  obtain ⟨r₃, hnull⟩ := hslots.null
  rcases hw with ⟨hp, rfl⟩ | ⟨p, r, m, hp, rfl, -⟩
  · cases v <;> simp_all [scalarValue, intValue?, typedParams, holdsDocument]
  · cases v <;> simp_all [intValue?, typedParams]

/-- It is no BSON object. -/
theorem LeafUnpacked.ne_bson (hslots : SlotsCorrect slots) {v : Value} {w : LVal}
    (hw : LeafUnpacked E slots metatables h lo v w) (fs : Doc) : w ≠ .host (.bson fs) := by
  obtain ⟨r₁, hmax⟩ := hslots.maxkey
  obtain ⟨r₂, hmin⟩ := hslots.minkey
  obtain ⟨r₃, hnull⟩ := hslots.null
  rcases hw with ⟨-, rfl⟩ | ⟨p, r, m, -, rfl, -⟩
  · cases v <;> simp_all [scalarValue]
  · simp

end fields

/-- The kind of a value that is a document. -/
theorem eq_kindValue_of_holdsDocument {v : Value} (hv : holdsDocument v = true) :
    ∃ (array : Bool) (fs : Doc), v = if array then .array fs else .document fs := by
  cases v with
  | document fs => exact ⟨false, fs, rfl⟩
  | array fs => exact ⟨true, fs, rfl⟩
  | _ => simp [holdsDocument] at hv

/-- `o:value()` takes the kind from the first key. -/
theorem m_value_unpacked {E : Env} {slots : Slot → LVal} (hslots : SlotsCorrect slots)
    {L L' : State} (hL : L.slots = slots) {doc : Doc} {w : LVal}
    (hrun : m_value E L doc .nil = .ok (L', w)) :
    Grows L.heap slots L' ∧ Keeps L.metatables L'.metatables ∧
      UnpackedDoc E slots L'.metatables L'.heap L.heap.length (isArray doc) doc w := by
  rw [m_value, pushBSON] at hrun
  exact StoresFields.unpackTable (unpackLoop_unpacked hslots doc) hL hrun

/-- What `b:find(key)` comes to: the decoded value, but a document is of the kind
that its first key suggests. -/
theorem findValue_unpacked {E : Env} {slots : Slot → LVal} (hslots : SlotsCorrect slots)
    {L L' : State} (hL : L.slots = slots) {doc : Doc} (hvalid : KeysValid doc) {key : Bytes}
    {v : Value} (hmem : (key, v) ∈ doc) (hdot : 46 ∉ key) {x : LVal}
    (hrun : findValue E L doc key = .ok (L', x)) :
    Grows L.heap slots L' ∧ Keeps L.metatables L'.metatables ∧
      ((holdsDocument v = false ∧ LeafUnpacked E slots L'.metatables L'.heap L.heap.length v x) ∨
        ∃ (array : Bool) (fs : Doc), v = (if array then .array fs else .document fs) ∧
          UnpackedDoc E slots L'.metatables L'.heap L.heap.length (isArray fs) fs x) := by
  rw [findValue, hvalid.m_find hmem hdot] at hrun
  cases hv : holdsDocument v with
  | true =>
    obtain ⟨array, fs, rfl⟩ := eq_kindValue_of_holdsDocument hv
    have hpush : pushBSONValue E L (if array then .array fs else .document fs) =
        .ok (L, .host (.bson fs)) := by cases array <;> rfl
    rw [hpush] at hrun
    obtain ⟨hgrows, hkeeps, hdoc⟩ := m_value_unpacked hslots hL hrun
    exact ⟨hgrows, hkeeps, Or.inr ⟨array, fs, rfl, hdoc⟩⟩
  | false =>
    obtain ⟨⟨L₁, y⟩, hpush, hrest⟩ := Outcome.bind_eq_ok_iff.mp hrun
    obtain ⟨hgrows, hkeeps, hleaf⟩ := pushBSONValue_unpacked hslots hL hv hpush
    have hplain : (.ok (L₁, y) : Outcome LuaError (State × LVal)) = .ok (L', x) := by
      rw [← hrest]
      dsimp only
      split
      · exact absurd rfl (hleaf.ne_bson hslots _)
      · rfl
    obtain ⟨rfl, rfl⟩ := Outcome.ok_prod_inj hplain
    exact ⟨hgrows, hkeeps, Or.inl ⟨rfl, hleaf⟩⟩

/-- With correct slots, `b:find(key)` and `b:value()[key]` look the same exactly when
the document is not unpacked as an array and the first key of the value says
its kind. -/
theorem decoders_agree_iff {E : Env} {L L₁ L₂ : State} {doc : Doc} {key : Bytes} {v : Value}
    {x w : LVal} (hslots : SlotsCorrect L.slots) (hvalid : KeysValid doc)
    (hmem : (key, v) ∈ doc) (hdot : 46 ∉ key) (hfind : findValue E L doc key = .ok (L₁, x))
    (hvalue : m_value E L₁ doc .nil = .ok (L₂, w)) :
    ∃ r, w = .table r ∧
      (DeepEq L₂.heap x ((L₂.heap.get r).get (.str key)) ↔ FieldAgrees doc key v) := by
  obtain ⟨hgrows₁, -, hx⟩ := findValue_unpacked hslots rfl hvalid hmem hdot hfind
  obtain ⟨hgrows₂, hkeeps, r, ws, rfl, -, -, hget, hall⟩ :=
    m_value_unpacked hslots hgrows₁.slots hvalue
  have hagree : AgreesFrom L.heap.length L₁.heap L₂.heap := .of_extends hgrows₂.heap _
  refine ⟨r, rfl, ?_⟩
  rw [hget]
  unfold FieldAgrees
  cases harray : isArray doc with
  | true =>
    rw [if_pos rfl, get_filled_true_str]
    rcases hx with ⟨hv, hleaf⟩ | ⟨array, fs, rfl, r', ws', rfl, -⟩
    · split_ifs with hkey
      · rw [← hleaf.eq_int_iff hslots hv]
        exact ⟨fun heq => heq.eq_of_not_table (by simp), fun heq => heq ▸ .same _⟩
      · rw [← hleaf.eq_nil_iff hslots hv]
        exact ⟨fun heq => heq.eq_of_not_table (by simp), fun heq => heq ▸ .same _⟩
    · by_cases hkey : key = bytes "__array"
      · rw [if_pos hkey, if_pos hkey]
        refine iff_of_false (fun heq => ?_) (by cases array <;> simp [intValue?])
        simpa using heq.eq_of_not_table (by simp)
      · rw [if_neg hkey, if_neg hkey]
        refine iff_of_false (fun heq => ?_) (by cases array <;> simp [HasCase])
        simpa using heq.eq_of_not_table (by simp)
  | false =>
    have hfield := hall.get_fill hvalid.nodup hmem Table.empty 0
    rw [harray] at hget
    rw [if_neg (by simp), filled, if_neg (by simp)]
    rcases hx with ⟨hv, hleaf⟩ | ⟨array, fs, rfl, hdoc⟩
    · have hunpacked : Unpacked E L.slots L₂.metatables L₂.heap L.heap.length v x := by
        have hframed := hleaf.frame hagree (Nat.le_refl _) hkeeps
        cases v <;> first | simpa only [Unpacked] using hframed | simp [holdsDocument] at hv
      refine iff_of_true (Unpacked.deepEq v hunpacked hfield) fun fs => ?_
      constructor <;> rintro rfl <;> simp [holdsDocument] at hv
    · have hother := (unpacked_kindValue array fs _).mp hfield
      rw [(hdoc.frame hagree (Nat.le_refl _) hkeeps).deepEq_iff hother]
      cases array <;> simp

/-- A state whose slots are correct. -/
def filledState : State where
  heap := [Table.empty, Table.empty, Table.empty]
  slots
    | .NEW_BINARY => .host (.cfunc .newBinary)
    | .NEW_DATETIME => .host (.cfunc .newDateTime)
    | .NEW_DECIMAL128 => .host (.cfunc .newDecimal128)
    | .NEW_JAVASCRIPT => .host (.cfunc .newJavascript)
    | .NEW_REGEX => .host (.cfunc .newRegex)
    | .NEW_TIMESTAMP => .host (.cfunc .newTimestamp)
    | .GLOBAL_MAXKEY => .table 0
    | .GLOBAL_MINKEY => .table 1
    | .GLOBAL_NULL => .table 2
  metatables := fun _ => none

theorem slotsCorrect_filledState : SlotsCorrect filledState.slots :=
  ⟨rfl, rfl, rfl, rfl, rfl, rfl, ⟨0, rfl⟩, ⟨1, rfl⟩, ⟨2, rfl⟩⟩

/-- A document with one short key is valid. -/
theorem keysValid_singleton {key : Bytes} (hkey : NulFree key) {v : Value}
    (hsize : docSize [(key, v)] ≤ BSON_MAX_SIZE) : KeysValid [(key, v)] :=
  ⟨by simp, by simpa using hkey, hsize⟩

theorem decoders_agree_one :
    FieldAgrees [(bytes "a", .int32 1)] (bytes "a") (.int32 1) ∧
      ∃ r, (.table 3 : LVal) = .table r ∧
        DeepEq [Table.empty, Table.empty, Table.empty,
            Table.empty.rawset (.str (bytes "a")) (.int 1)] (.int 1)
          ((Heap.get [Table.empty, Table.empty, Table.empty,
            Table.empty.rawset (.str (bytes "a")) (.int 1)] r).get (.str (bytes "a"))) := by
  have hfind : findValue Env.bare filledState [(bytes "a", .int32 1)] (bytes "a") =
      .ok (filledState, .int 1) := rfl
  have hvalue : m_value Env.bare filledState [(bytes "a", .int32 1)] .nil =
      .ok ({ filledState with heap := [Table.empty, Table.empty, Table.empty,
        Table.empty.rawset (.str (bytes "a")) (.int 1)] }, .table 3) := rfl
  have hagrees : FieldAgrees [(bytes "a", .int32 1)] (bytes "a") (.int32 1) := by
    rw [FieldAgrees, if_neg (by decide)]
    simp
  obtain ⟨r, hr, hiff⟩ := decoders_agree_iff slotsCorrect_filledState
    (keysValid_singleton (by decide) (by decide)) (List.mem_singleton_self _) (by decide)
    hfind hvalue
  exact ⟨hagrees, r, hr, hiff.mpr hagrees⟩

theorem find_loses_the_kind :
    SlotsCorrect filledState.slots ∧ KeysValid [(bytes "a", .array [])] ∧
    m_find Env.bare filledState [(bytes "a", .array [])] (.str (bytes "a")) =
      .ok (filledState, .host (.bson [])) ∧
    ∃ L₁ L₂ x r, m_value Env.bare filledState [] .nil = .ok (L₁, x) ∧
      m_value Env.bare L₁ [(bytes "a", .array [])] .nil = .ok (L₂, .table r) ∧
      ¬ DeepEq L₂.heap x ((L₂.heap.get r).get (.str (bytes "a"))) := by
  refine ⟨slotsCorrect_filledState, keysValid_singleton (by decide) (by decide), rfl,
    _, _, .table 3, 4, rfl, rfl, fun heq => ?_⟩
  have hmark : (.nil : LVal) = .int 0 :=
    (heq.get (.str (bytes "__array"))).eq_of_not_table fun r hr => by cases hr
  simp at hmark

end Vklib.Mongo
