import Vklib.Mongo.Slots

/-!
# What the decoder makes

`Decoded` says what the decoder makes of a value of the plain types: scalars as
they are, a document as a table with one entry for each field, an array as a
table with the indices from `1` up and its length under `__array`, and all of
these tables new.  `unpackValue_decoded` is the result.

A table is filled while the tables below it are made.  So the loop lemma
allows for changes at the one table (`GrowsAround`), and `Decoded` carries a
lower bound of its tables that keeps it clear of them (`Decoded.frame`).
-/

namespace Vklib.Mongo

open Vklib.Lua Vklib.Bson

/-- The Lua value of a scalar, none for the types that are no plain scalars. -/
def scalarOf (slots : Slot → LVal) : Value → Option LVal
  | .bool b => some (.bool b)
  | .int32 i => some (.int i.toInt64)
  | .int64 i => some (.int i)
  | .double x => some (.flt x)
  | .utf8 s => some (.str s)
  | .oid id => some (.host (.objectID id))
  | .null => some (slots .GLOBAL_NULL)
  | _ => none

mutual
/-- The value is of one of the plain types, and so are those below it. -/
def IsPlain : Value → Prop
  | .document fs => DocPlain fs
  | .array fs => DocPlain fs
  | .bool _ | .int32 _ | .int64 _ | .double _ | .utf8 _ | .oid _ | .null => True
  | _ => False

def DocPlain : List (Bytes × Value) → Prop
  | [] => True
  | (_, v) :: rest => IsPlain v ∧ DocPlain rest
end

mutual
/-- The keys of each document are distinct. -/
def KeysDistinct : Value → Prop
  | .document fs => (fs.map Prod.fst).Nodup ∧ DocKeysDistinct fs
  | .array fs => DocKeysDistinct fs
  | _ => True

def DocKeysDistinct : List (Bytes × Value) → Prop
  | [] => True
  | (_, v) :: rest => KeysDistinct v ∧ DocKeysDistinct rest
end

mutual
/-- The Lua value is what the decoder makes of the BSON value, in tables from
`lo` up. -/
def Decoded (slots : Slot → LVal) (h : Heap Host) (lo : Ref) : Value → LVal → Prop
  | .document fs, w => ∃ r, w = .table r ∧ lo ≤ r ∧ PlainTable h r ∧
      DecodedFields slots h lo fs (h.get r).entries
  | .array fs, w => ∃ r es, w = .table r ∧ lo ≤ r ∧ PlainTable h r ∧
      (h.get r).entries = es ++ [(.str (bytes "__array"), .int (fs.length : Int).toInt64)] ∧
      DecodedElems slots h lo 0 fs es
  | v, w => scalarOf slots v = some w

/-- The entries are those of the fields, in order. -/
def DecodedFields (slots : Slot → LVal) (h : Heap Host) (lo : Ref) :
    List (Bytes × Value) → List (Key × LVal) → Prop
  | [], [] => True
  | (key, v) :: fs, (k, w) :: es => k = .str key ∧ Decoded slots h lo v w ∧
      DecodedFields slots h lo fs es
  | _, _ => False

/-- The entries are those of the elements, with indices from `i + 1` up. -/
def DecodedElems (slots : Slot → LVal) (h : Heap Host) (lo : Ref) (i : Nat) :
    List (Bytes × Value) → List (Key × LVal) → Prop
  | [], [] => True
  | (_, v) :: fs, (k, w) :: es => k = .int (i + 1) ∧ Decoded slots h lo v w ∧
      DecodedElems slots h lo (i + 1) fs es
  | _, _ => False
end

/-! ## Frames -/

/-- The second heap has the tables of the first from `lo` up. -/
def AgreesFrom (lo : Ref) (h h' : Heap Host) : Prop :=
  h.length ≤ h'.length ∧ ∀ r, lo ≤ r → r < h.length → h'.get r = h.get r

theorem AgreesFrom.of_extends {h h' : Heap Host} (hext : Heap.Extends h h') (lo : Ref) :
    AgreesFrom lo h h' :=
  ⟨hext.1, fun r _ hr => hext.2 r hr⟩

theorem AgreesFrom.trans {lo : Ref} {h₁ h₂ h₃ : Heap Host} (h₁₂ : AgreesFrom lo h₁ h₂)
    (h₂₃ : AgreesFrom lo h₂ h₃) : AgreesFrom lo h₁ h₃ :=
  ⟨Nat.le_trans h₁₂.1 h₂₃.1, fun r hlo hr =>
    (h₂₃.2 r hlo (Nat.lt_of_lt_of_le hr h₁₂.1)).trans (h₁₂.2 r hlo hr)⟩

theorem PlainTable.frame {lo r : Ref} {h h' : Heap Host} (hplain : PlainTable h r)
    (hlo : lo ≤ r) (hagree : AgreesFrom lo h h') : PlainTable h' r :=
  ⟨Nat.lt_of_lt_of_le hplain.1 hagree.1, by rw [hagree.2 r hlo hplain.1]; exact hplain.2⟩

mutual
/-- What is decoded stays when the heap keeps its tables. -/
theorem Decoded.frame {slots : Slot → LVal} {h h' : Heap Host} {lo lo' : Ref}
    (hagree : AgreesFrom lo h h') (hle : lo' ≤ lo) (v : Value) {w : LVal}
    (hv : Decoded slots h lo v w) : Decoded slots h' lo' v w := by
  cases v with
  | document fs =>
    simp only [Decoded] at hv ⊢
    obtain ⟨r, rfl, hlo, hplain, hfields⟩ := hv
    refine ⟨r, rfl, Nat.le_trans hle hlo, hplain.frame hlo hagree, ?_⟩
    rw [hagree.2 r hlo hplain.1]
    exact DecodedFields.frame hagree hle fs hfields
  | array fs =>
    simp only [Decoded] at hv ⊢
    obtain ⟨r, es, rfl, hlo, hplain, hentries, helems⟩ := hv
    refine ⟨r, es, rfl, Nat.le_trans hle hlo, hplain.frame hlo hagree, ?_,
      DecodedElems.frame hagree hle 0 fs helems⟩
    rw [hagree.2 r hlo hplain.1]
    exact hentries
  | _ => exact hv

theorem DecodedFields.frame {slots : Slot → LVal} {h h' : Heap Host} {lo lo' : Ref}
    (hagree : AgreesFrom lo h h') (hle : lo' ≤ lo) (fs : List (Bytes × Value))
    {es : List (Key × LVal)} (hfs : DecodedFields slots h lo fs es) :
    DecodedFields slots h' lo' fs es := by
  match fs, es with
  | [], [] => simp [DecodedFields]
  | (key, v) :: fs, (k, w) :: es =>
    simp only [DecodedFields] at hfs ⊢
    exact ⟨hfs.1, Decoded.frame hagree hle v hfs.2.1, DecodedFields.frame hagree hle fs hfs.2.2⟩

theorem DecodedElems.frame {slots : Slot → LVal} {h h' : Heap Host} {lo lo' : Ref}
    (hagree : AgreesFrom lo h h') (hle : lo' ≤ lo) (i : Nat) (fs : List (Bytes × Value))
    {es : List (Key × LVal)} (hfs : DecodedElems slots h lo i fs es) :
    DecodedElems slots h' lo' i fs es := by
  match fs, es with
  | [], [] => simp [DecodedElems]
  | (key, v) :: fs, (k, w) :: es =>
    simp only [DecodedElems] at hfs ⊢
    exact ⟨hfs.1, Decoded.frame hagree hle v hfs.2.1,
      DecodedElems.frame hagree hle (i + 1) fs hfs.2.2⟩
end

/-- What is decoded is not nil, when the null slot is filled. -/
theorem Decoded.ne_nil {slots : Slot → LVal} (hnull : slots .GLOBAL_NULL ≠ .nil) {h : Heap Host}
    {lo : Ref} {v : Value} {w : LVal} (hv : Decoded slots h lo v w) : w ≠ .nil := by
  cases v with
  | document fs =>
    simp only [Decoded] at hv
    obtain ⟨r, rfl, -⟩ := hv
    simp
  | array fs =>
    simp only [Decoded] at hv
    obtain ⟨r, es, rfl, -⟩ := hv
    simp
  | null =>
    simp only [Decoded, scalarOf, Option.some.injEq] at hv
    rw [← hv]
    exact hnull
  | bool b | int32 b | int64 b | double b | utf8 b | oid b =>
    simp only [Decoded, scalarOf, Option.some.injEq] at hv
    simp [← hv]
  | _ => simp [Decoded, scalarOf] at hv

/-- A state that has gained tables and has changed at most the table `r`. -/
structure GrowsAround (r : Ref) (L L' : State) : Prop where
  length : L.heap.length ≤ L'.heap.length
  get : ∀ r', r' < L.heap.length → r' ≠ r → L'.heap.get r' = L.heap.get r'
  slots : L'.slots = L.slots
  metatable : (L'.heap.get r).metatable = (L.heap.get r).metatable

theorem GrowsAround.agreesFrom {r : Ref} {L L' : State} (hgrows : GrowsAround r L L') {lo : Ref}
    (hlo : r < lo) : AgreesFrom lo L.heap L'.heap :=
  ⟨hgrows.length, fun r' hr' hbound => hgrows.get r' hbound (Nat.ne_of_gt (Nat.lt_of_lt_of_le hlo hr'))⟩

/-- A value is decoded and then stored under a key of `r`. -/
theorem GrowsAround.step {r : Ref} {L L₁ L₂ : State} (hr : r < L.heap.length)
    (hvalue : Grows L.heap L.slots L₁) {k : Key} {w : LVal}
    (hrest : GrowsAround r (L₁.rawset r k w) L₂) : GrowsAround r L L₂ := by
  have hr₁ : r < L₁.heap.length := Nat.lt_of_lt_of_le hr hvalue.heap.1
  have hstore := L₁.get_rawset hr₁
  refine ⟨?_, ?_, ?_, ?_⟩
  · have hlen := hrest.length
    rw [State.length_rawset] at hlen
    exact Nat.le_trans hvalue.heap.1 hlen
  · intro r' hr' hne
    rw [hrest.get r' (by rw [State.length_rawset]; exact Nat.lt_of_lt_of_le hr' hvalue.heap.1) hne,
      hstore, if_neg hne]
    exact hvalue.heap.2 r' hr'
  · rw [hrest.slots, State.slots_rawset, hvalue.slots]
  · rw [hrest.metatable, hstore, if_pos rfl, Table.metatable_rawset, hvalue.heap.2 r hr]

theorem GrowsAround.refl (r : Ref) (L : State) : GrowsAround r L L :=
  ⟨Nat.le_refl _, fun _ _ _ => rfl, rfl, rfl⟩

/-- Storing a value under a new key puts the entry last. -/
theorem State.entries_rawset {L : State} {r : Ref} (hr : r < L.heap.length) {k : Key} {w : LVal}
    (hw : w ≠ .nil) (hk : k ∉ (L.heap.get r).entries.map Prod.fst) :
    ((L.rawset r k w).heap.get r).entries = (L.heap.get r).entries ++ [(k, w)] := by
  rw [L.get_rawset hr, if_pos rfl]
  exact setEntries_of_notMem hw hk

/-- A table that was filled around itself is a new plain table. -/
theorem GrowsAround.newtable {L L' : State} {slots : Slot → LVal} (hslots : L.slots = slots)
    (hgrows : GrowsAround L.heap.length L.newtable.1 L') :
    Grows L.heap slots L' ∧ PlainTable L'.heap L.heap.length := by
  have hlen := hgrows.length
  rw [State.heap_newtable, List.length_append] at hlen
  refine ⟨⟨⟨by omega, fun r hr => ?_⟩, by rw [hgrows.slots]; exact hslots⟩, ?_, ?_⟩
  · have hold := (State.extends_newtable (Heap.Extends.refl L.heap)).2 r hr
    rw [hgrows.get r (by simp; omega) (Nat.ne_of_lt hr), hold]
  · exact Nat.lt_of_lt_of_le (Nat.lt_succ_self _) hlen
  · rw [hgrows.metatable]
    simp

/-! ## The decoder on plain documents -/

mutual
/-- What `unpackValue` makes of a plain value. -/
theorem unpackValue_decoded (E : Env) {slots : Slot → LVal} (hnull : slots .GLOBAL_NULL ≠ .nil)
    (v : Value) (hplain : IsPlain v) (hkeys : KeysDistinct v) (L : State)
    (hslots : L.slots = slots) (top : Nat) (hroom : StackRoom top v) :
    ∃ L' w, unpackValue E .nil top L v = .ok (L', w) ∧ Grows L.heap slots L' ∧
      Decoded slots L'.heap L.heap.length v w := by
  have hself : Grows L.heap slots L := ⟨Heap.Extends.refl _, hslots⟩
  cases v with
  | document fs =>
    simp only [StackRoom] at hroom
    simp only [IsPlain] at hplain
    simp only [KeysDistinct] at hkeys
    obtain ⟨L', es, hloop, hgrows, hentries, hfields⟩ := unpackLoop_fields E hnull fs hplain
      hkeys.1 hkeys.2 L.newtable.1 (by simpa using hslots) top hroom.2 L.heap.length (by simp) []
      (by simp) (by simp) 0 (L.heap.length + 1) (Nat.lt_succ_self _) (by simp)
    obtain ⟨hgrowsAll, htable⟩ := hgrows.newtable hslots
    refine ⟨L', .table L.heap.length, ?_, hgrowsAll, ?_⟩
    · simp only [unpackValue, unpackTable, if_pos hroom.1, State.newtable_snd, hloop,
        Outcome.ok_bind, Val.isNil, Bool.false_eq_true, if_false, if_true]
    · simp only [Decoded]
      refine ⟨_, rfl, Nat.le_refl _, htable, ?_⟩
      rw [hentries]
      exact DecodedFields.frame (AgreesFrom.of_extends (Heap.Extends.refl _) _)
        (Nat.le_succ _) fs hfields
  | array fs =>
    simp only [StackRoom] at hroom
    simp only [IsPlain] at hplain
    simp only [KeysDistinct] at hkeys
    obtain ⟨L', es, hloop, hgrows, hentries, hints, helems⟩ := unpackLoop_elems E hnull fs hplain
      hkeys L.newtable.1 (by simpa using hslots) top hroom.2 L.heap.length (by simp) [] (by simp)
      (by simp) 0 (by simp) (L.heap.length + 1) (Nat.lt_succ_self _) (by simp)
    obtain ⟨hgrowsAll, htable⟩ := hgrows.newtable hslots
    refine ⟨L'.rawset L.heap.length (.str (bytes "__array")) (.int (fs.length : Int).toInt64),
      .table L.heap.length, ?_, hgrowsAll.rawset (Nat.le_refl _) _ _, ?_⟩
    · push_cast at hloop
      simp only [unpackValue, unpackTable, if_pos hroom.1, State.newtable_snd, hloop,
        Outcome.ok_bind, Val.isNil, if_true, Int.zero_add]
    · have hget := L'.get_rawset htable.1
      simp only [Decoded]
      refine ⟨_, es, rfl, Nat.le_refl _, ⟨by simpa using htable.1, ?_⟩, ?_, ?_⟩
      · rw [hget, if_pos rfl, Table.metatable_rawset]
        exact htable.2
      · rw [State.entries_rawset htable.1 (by simp), hentries]
        · simp
        · rw [hentries]
          intro hmem
          obtain ⟨n, hn⟩ := hints _ hmem
          simp at hn
      · refine DecodedElems.frame ⟨by simp, fun r hlo hr => ?_⟩ (Nat.le_succ _) 0 fs helems
        rw [hget, if_neg (Nat.ne_of_gt hlo)]
  | bool b | int32 b | int64 b | double b | utf8 b | oid b =>
    exact ⟨L, _, rfl, hself, by simp [Decoded, scalarOf]⟩
  | null => exact ⟨L, _, rfl, hself, by simp [Decoded, scalarOf, hslots]⟩
  | _ => exact hplain.elim

/-- What the loop of `unpackTable` adds to the table of a document. -/
theorem unpackLoop_fields (E : Env) {slots : Slot → LVal} (hnull : slots .GLOBAL_NULL ≠ .nil)
    (fs : List (Bytes × Value)) (hplain : DocPlain fs) (hnodup : (fs.map Prod.fst).Nodup)
    (hkeys : DocKeysDistinct fs) (L : State) (hslots : L.slots = slots) (top : Nat)
    (hroom : DocRoom (top + 2) fs) (r : Ref) (hr : r < L.heap.length) (es : List (Key × LVal))
    (hes : (L.heap.get r).entries = es)
    (hfresh : ∀ key ∈ fs.map Prod.fst, Key.str key ∉ es.map Prod.fst) (len : Int) (lo : Ref)
    (hlo : r < lo) (hle : lo ≤ L.heap.length) :
    ∃ L' es', unpackLoop E .nil top r false len L fs = .ok (L', len + fs.length) ∧
      GrowsAround r L L' ∧ (L'.heap.get r).entries = es ++ es' ∧
      DecodedFields slots L'.heap lo fs es' := by
  match fs with
  | [] => exact ⟨L, [], by simp [unpackLoop], .refl r L, by simp [hes], by simp [DecodedFields]⟩
  | (key, v) :: rest =>
    simp only [DocRoom] at hroom
    simp only [DocPlain] at hplain
    simp only [DocKeysDistinct] at hkeys
    simp only [List.map_cons, List.nodup_cons] at hnodup
    obtain ⟨L₁, w, hvalue, hgrows₁, hdecoded⟩ :=
      unpackValue_decoded E hnull v hplain.1 hkeys.1 L hslots (top + 2) hroom.1
    have hw : w ≠ .nil := hdecoded.ne_nil hnull
    have hr₁ : r < L₁.heap.length := Nat.lt_of_lt_of_le hr hgrows₁.heap.1
    have hes₁ : (L₁.heap.get r).entries = es := by rw [hgrows₁.heap.2 r hr, hes]
    have hkey : Key.str key ∉ es.map Prod.fst := hfresh key (by simp)
    have hentries₁ : ((L₁.rawset r (.str key) w).heap.get r).entries = es ++ [(.str key, w)] := by
      rw [State.entries_rawset hr₁ hw (by rw [hes₁]; exact hkey), hes₁]
    obtain ⟨L₂, es', hloop, hgrows₂, hentries₂, hfields⟩ := unpackLoop_fields E hnull rest
      hplain.2 hnodup.2 hkeys.2 (L₁.rawset r (.str key) w) (by simpa using hgrows₁.slots) top
      hroom.2 r (by simpa using hr₁) _ hentries₁
      (by
        intro key' hkey'
        simp only [List.map_append, List.map_cons, List.map_nil, List.mem_append,
          List.mem_singleton, Key.str.injEq, not_or]
        refine ⟨hfresh key' (by simp [hkey']), ?_⟩
        rintro rfl
        exact hnodup.1 hkey')
      (len + 1) lo hlo (by rw [State.length_rawset]; exact Nat.le_trans hle hgrows₁.heap.1)
    refine ⟨L₂, (.str key, w) :: es', ?_, .step hr (hslots ▸ hgrows₁) hgrows₂, ?_, ?_⟩
    · simp only [unpackLoop, hvalue, Outcome.ok_bind, Bool.false_eq_true, if_false, hloop,
        List.length_cons]
      congr 2
      push_cast
      omega
    · rw [hentries₂]
      simp
    · simp only [DecodedFields, true_and]
      refine ⟨Decoded.frame ?_ hle v hdecoded, hfields⟩
      refine AgreesFrom.trans ⟨by simp, fun r' hlo' hbound => ?_⟩
        (hgrows₂.agreesFrom (Nat.lt_of_lt_of_le hlo hle))
      rw [L₁.get_rawset hr₁, if_neg (Nat.ne_of_gt (Nat.lt_of_lt_of_le hr hlo'))]

/-- What the loop of `unpackTable` adds to the table of an array. -/
theorem unpackLoop_elems (E : Env) {slots : Slot → LVal} (hnull : slots .GLOBAL_NULL ≠ .nil)
    (fs : List (Bytes × Value)) (hplain : DocPlain fs) (hkeys : DocKeysDistinct fs) (L : State)
    (hslots : L.slots = slots) (top : Nat) (hroom : DocRoom (top + 2) fs) (r : Ref)
    (hr : r < L.heap.length) (es : List (Key × LVal)) (hes : (L.heap.get r).entries = es)
    (hints : ∀ k ∈ es.map Prod.fst, ∃ n : Int, k = .int n) (i : Nat)
    (hfresh : ∀ j : Nat, i < j → Key.int j ∉ es.map Prod.fst) (lo : Ref) (hlo : r < lo)
    (hle : lo ≤ L.heap.length) :
    ∃ L' es', unpackLoop E .nil top r true i L fs = .ok (L', i + fs.length) ∧
      GrowsAround r L L' ∧ (L'.heap.get r).entries = es ++ es' ∧
      (∀ k ∈ (es ++ es').map Prod.fst, ∃ n : Int, k = .int n) ∧
      DecodedElems slots L'.heap lo i fs es' := by
  match fs with
  | [] =>
    exact ⟨L, [], by simp [unpackLoop], .refl r L, by simp [hes], by simpa using hints,
      by simp [DecodedElems]⟩
  | (key, v) :: rest =>
    simp only [DocRoom] at hroom
    simp only [DocPlain] at hplain
    simp only [DocKeysDistinct] at hkeys
    obtain ⟨L₁, w, hvalue, hgrows₁, hdecoded⟩ :=
      unpackValue_decoded E hnull v hplain.1 hkeys.1 L hslots (top + 2) hroom.1
    have hw : w ≠ .nil := hdecoded.ne_nil hnull
    have hr₁ : r < L₁.heap.length := Nat.lt_of_lt_of_le hr hgrows₁.heap.1
    have hes₁ : (L₁.heap.get r).entries = es := by rw [hgrows₁.heap.2 r hr, hes]
    have hkey : Key.int (i + 1) ∉ es.map Prod.fst := hfresh (i + 1) (by omega)
    have hentries₁ : ((L₁.rawset r (.int (i + 1)) w).heap.get r).entries =
        es ++ [(.int (i + 1), w)] := by
      rw [State.entries_rawset hr₁ hw (by rw [hes₁]; exact hkey), hes₁]
    obtain ⟨L₂, es', hloop, hgrows₂, hentries₂, hints₂, helems⟩ := unpackLoop_elems E hnull rest
      hplain.2 hkeys.2 (L₁.rawset r (.int (i + 1)) w) (by simpa using hgrows₁.slots) top
      hroom.2 r (by simpa using hr₁) _ hentries₁
      (by
        intro k hk
        rw [List.map_append, List.mem_append] at hk
        rcases hk with hk | hk
        · exact hints k hk
        · exact ⟨_, List.mem_singleton.mp hk⟩)
      (i + 1)
      (by
        intro j hj
        simp only [List.map_append, List.map_cons, List.map_nil, List.mem_append,
          List.mem_singleton, Key.int.injEq, not_or]
        exact ⟨hfresh j (by omega), by omega⟩)
      lo hlo (by rw [State.length_rawset]; exact Nat.le_trans hle hgrows₁.heap.1)
    refine ⟨L₂, (.int (i + 1), w) :: es', ?_, .step hr (hslots ▸ hgrows₁) hgrows₂, ?_, ?_, ?_⟩
    · push_cast at hloop
      simp only [unpackLoop, hvalue, Outcome.ok_bind, if_true, hloop, List.length_cons]
      congr 2
      push_cast
      omega
    · rw [hentries₂]
      simp
    · simpa using hints₂
    · simp only [DecodedElems, true_and]
      refine ⟨Decoded.frame ?_ hle v hdecoded, helems⟩
      refine AgreesFrom.trans ⟨by simp, fun r' hlo' hbound => ?_⟩
        (hgrows₂.agreesFrom (Nat.lt_of_lt_of_le hlo hle))
      rw [L₁.get_rawset hr₁, if_neg (Nat.ne_of_gt (Nat.lt_of_lt_of_le hr hlo'))]
end

end Vklib.Mongo
