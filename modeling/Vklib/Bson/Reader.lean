import Vklib.Bson.IterData

/-!
# What bytes encode

The abstract view of a buffer is the document whose encoding it is.  `encodedDoc` finds
it, with the iterator, and refuses all other buffers (`encodedDoc_eq_ok_iff`).  It is no
function of the library: no reader makes all of its tests, and it only gives the fields of
a buffer that is copied as a whole.  It follows that a document is determined by its bytes
(`bson_get_data_injective`).

`Clean` says of the functions of the library what distinguishes an encoding from other
buffers (`encodes_iff_clean`): nothing is wrong with any document that an iteration
reaches.
-/

namespace Vklib.Bson

open Buffer

/-- A document that passes `bson_init_static`, read by `read`. -/
def readStatic (read : Iter → Outcome Nat Doc) (data : Bytes) (len : Nat) : Outcome Nat Doc := do
  let ok ← bson_init_static data len
  if ok then read (Iter.start data len) else .error 0

/-- The value of a field. -/
def readValue (read : Iter → Outcome Nat Doc) (it : Iter) : Outcome Nat Value := do
  match ← bson_iter_value it with
  | none => .error it.off
  | some (.double x) => .ok (.double x)
  | some (.utf8 s) => .ok (.utf8 s)
  | some (.document len d) => do
    let fs ← readStatic read d len
    .ok (.document fs)
  | some (.array len d) => do
    let fs ← readStatic read d len
    .ok (.array fs)
  | some (.binary subtype payload) => .ok (.binary subtype (storedPayload subtype payload))
  | some .undefined => .ok .undefined
  | some (.oid id) => .ok (.oid id)
  | some (.bool b) => .ok (.bool b)
  | some (.dateTime ms) => .ok (.dateTime ms)
  | some .null => .ok .null
  | some (.regex pattern options) => .ok (.regex pattern options)
  | some (.dbpointer collection id) => .ok (.dbpointer collection id)
  | some (.code source) => .ok (.code source)
  | some (.symbol s) => .ok (.symbol s)
  | some (.codewscope source len d) => do
    -- no function of the library looks at the NUL behind this code
    let last ← it.deref fun data => load data (it.d4 - 1)
    if last ≠ 0 then .error it.off
    else do
      let fs ← readStatic read d len
      .ok (.codewscope source fs)
  | some (.int32 i) => .ok (.int32 i)
  | some (.timestamp t i) => .ok (.timestamp t i)
  | some (.int64 i) => .ok (.int64 i)
  | some (.decimal128 d) => .ok (.decimal128 d)
  | some .maxkey => .ok .maxkey
  | some .minkey => .ok .minkey

/-- The fields in front of an iterator.  Every field and every nested document
takes one unit of fuel. -/
def readFields : Nat → Iter → Outcome Nat Doc
  | 0, _ => .outOfFuel
  | fuel + 1, it => do
    let (found, it) ← bson_iter_next it
    if found then do
      let key ← bson_iter_key it
      let v ← readValue (readFields fuel) it
      let rest ← readFields fuel it
      .ok ((key, v) :: rest)
    else if it.err_off = 0 then .ok []
    else .error it.err_off

/-- The document whose encoding the `len` bytes at `data` are. -/
def encodedDoc (data : Bytes) (len : Nat) : Outcome Nat Doc :=
  readStatic (readFields (len + 1)) data len

/-- A copy of the `len` bytes at `data`, by its fields.  There is none for bytes that are no
encoding. -/
def copiedDoc {ε : Type} (data : Bytes) (len : Nat) : Outcome ε Doc :=
  match encodedDoc data len with
  | .ok ds => .ok ds
  | .error _ | .undefined | .outOfFuel => .undefined

/-! ## Headers -/

/-- A buffer that passes `bson_init_static`. -/
structure Static (data : Bytes) (len : Nat) : Prop where
  ge : 5 ≤ len
  le_max : len ≤ BSON_MAX_SIZE
  word : Lies data 0 (le32 len.toUInt32)
  last : Lies data (len - 1) [0]

theorem bson_init_static_eq {ε : Type} {data : Bytes} {len : Nat} (hlen : len ≤ data.length) :
    ∃ ok, (bson_init_static data len : Outcome ε Bool) = .ok ok ∧ (ok = true ↔ Static data len) := by
  unfold bson_init_static
  by_cases hrange : len < 5 ∨ len > BSON_MAX_SIZE
  · rw [if_pos hrange]
    refine ⟨false, rfl, by simp, fun h => ?_⟩
    have hge := h.ge
    have hmax := h.le_max
    omega
  rw [if_neg hrange]
  push Not at hrange
  obtain ⟨hge, hmax⟩ := hrange
  have hmax' : len < 2 ^ 32 := by unfold BSON_MAX_SIZE at hmax; omega
  obtain ⟨w, hw, hwlen, hwlies⟩ := exists_loadLe (ε := ε) (m := data) (i := 0) (n := 4) (by omega)
  obtain ⟨c, hload, hc⟩ := exists_load (ε := ε) (m := data) (i := len - 1) (by omega)
  rw [hw, Outcome.ok_bind]
  by_cases hword : fromLe w ≠ len
  · rw [if_pos hword]
    refine ⟨false, rfl, by simp, fun h => absurd ?_ hword⟩
    rw [hwlies.eq h.word hwlen, fromLe_le32_of_lt hmax']
  rw [if_neg hword, hload, Outcome.ok_bind]
  have hword : w = le32 len.toUInt32 := eq_le32_of_count hwlen (not_not.mp hword)
  refine ⟨_, rfl, ?_⟩
  rw [decide_eq_true_iff]
  constructor
  · rintro rfl
    exact ⟨hge, hmax, hword ▸ hwlies, hc⟩
  · intro h
    exact (List.cons.inj (hc.eq h.last rfl)).1

/-- An encoded document passes. -/
theorem static_of_lies {data : Bytes} {ds : Doc} (hds : DocWellFormed ds)
    (h : Lies data 0 (bson_get_data ds)) : Static data (docSize ds) := by
  have hsize := length_fieldsData ds hds.fields
  refine ⟨by unfold docSize; omega, hds.size, ?_, ?_⟩
  · rw [bson_get_data, wrapData, List.append_assoc] at h
    exact h.left
  · rw [bson_get_data, wrapData, lies_append] at h
    have hlast := h.2
    rw [List.length_append, length_le32, hsize] at hlast
    rwa [show docSize ds - 1 = 0 + (4 + fieldsSize ds) from by unfold docSize; omega]

/-- A document whose bytes are there passes `bson_init_static`. -/
theorem init_static_data {ε : Type} {data : Bytes} {fs : Doc} (hfs : DocWellFormed fs)
    (hlies : Lies data 0 (bson_get_data fs)) :
    (bson_init_static data (docSize fs) : Outcome ε Bool) = .ok true := by
  have hlength : docSize fs ≤ data.length := (ahead_start hfs hlies).le_length
  obtain ⟨ok, hok, hstatic⟩ := bson_init_static_eq (ε := ε) hlength
  rw [hok, hstatic.mpr (static_of_lies hfs hlies)]

/-- The fields ahead at the start of a document are those of its bytes. -/
theorem Ahead.document {data : Bytes} {len : Nat} {fs : Doc} (hstatic : Static data len)
    (h : Ahead (Iter.start data len) data fs) :
    DocWellFormed fs ∧ docSize fs = len ∧ Lies data 0 (bson_get_data fs) := by
  have hlen : docSize fs = len := by
    have hlen := h.len_eq
    simp only [Iter.start] at hlen
    unfold docSize
    omega
  refine ⟨⟨h.wellFormed, hlen ▸ hstatic.le_max⟩, hlen, ?_⟩
  rw [bson_get_data, wrapData, List.append_assoc, lies_append, hlen]
  exact ⟨hstatic.word, h.lies⟩

/-! ## What is read lies there -/

/-- The document of an iterator ends with a NUL, which is still ahead. -/
structure Closed (it : Iter) (data : Bytes) : Prop extends Ready it data where
  last : Lies data (it.len - 1) [0]
  lt : it.next_off < it.len

/-- What `read` returns lies ahead. -/
def SoundRead (read : Iter → Outcome Nat Doc) : Prop :=
  ∀ it data fs, Closed it data → read it = .ok fs → Ahead it data fs

theorem readStatic_sound {read : Iter → Outcome Nat Doc} (hread : SoundRead read) {data : Bytes}
    {len : Nat} (hlen : len ≤ data.length) {fs : Doc} (h : readStatic read data len = .ok fs) :
    DocWellFormed fs ∧ docSize fs = len ∧ Lies data 0 (bson_get_data fs) := by
  obtain ⟨ok, hok, hstatic⟩ := bson_init_static_eq (ε := Nat) hlen
  rw [readStatic, hok, Outcome.ok_bind] at h
  split_ifs at h with htrue
  have hstatic := hstatic.mp htrue
  have hge := hstatic.ge
  refine (hread _ data fs ⟨⟨⟨rfl, hlen, hstatic.le_max⟩, le_refl _, le_max_left _ _, rfl⟩,
    hstatic.last, ?_⟩ h).document hstatic
  simp only [Iter.start]
  omega

/-- The bytes of a nested document are those of the fields read from it. -/
theorem readStatic_field {read : Iter → Outcome Nat Doc} (hread : SoundRead read) {data : Bytes}
    {at₀ len : Nat} {val : Bytes} (hval : Lies data at₀ val) (hlen : len = val.length)
    (hin : at₀ + val.length ≤ data.length) {fs : Doc}
    (h : readStatic read (data.drop at₀) len = .ok fs) :
    FieldsWellFormed fs ∧ val = bson_get_data fs := by
  obtain ⟨hds, hsize, hlies⟩ :=
    readStatic_sound hread (by rw [List.length_drop]; omega) h
  rw [lies_drop, Nat.add_zero] at hlies
  exact ⟨hds.fields, hval.eq hlies (by rw [length_bson_get_data hds.fields, hsize, hlen])⟩

/-- A field with the bytes of a document holds it. -/
theorem exists_document {t : UInt8} (h : layout t = .document) {fs : Doc}
    (hfs : FieldsWellFormed fs) :
    ∃ v : Value, elementType v = t ∧ v.data = bson_get_data fs ∧ v.WellFormed ∧
      (v = .document fs ∨ v = .array fs) := by
  rcases layout_eq_document.mp h with rfl | rfl
  · exact ⟨.document fs, rfl, rfl, by simpa only [Value.WellFormed] using hfs, Or.inl rfl⟩
  · exact ⟨.array fs, rfl, rfl, by simpa only [Value.WellFormed] using hfs, Or.inr rfl⟩

/-- The bytes of a code with its NUL and of a document are those of the code with scope. -/
theorem codewscope_data {val source : Bytes} {scope : Doc} (hscope : FieldsWellFormed scope)
    (hval : val = le32 val.length.toUInt32 ++
      (le32 (source.length + 1).toUInt32 ++ ((source ++ [0]) ++ bson_get_data scope))) :
    (Value.codewscope source scope).data = val := by
  have hlength := congrArg List.length hval
  simp only [List.length_append, length_le32, List.length_singleton,
    length_bson_get_data hscope] at hlength
  have hvallen : val.length = 4 + 4 + source.length + 1 + (5 + fieldsSize scope) := by
    unfold docSize at hlength
    omega
  rw [hval, hvallen, Value.data, stringData, bson_get_data, docSize]
  simp only [List.append_assoc]

theorem readValue_sound {read : Iter → Outcome Nat Doc} (hread : SoundRead read) {it : Iter}
    {data : Bytes} {t : UInt8} {key val : Bytes} (hfield : Field it data t key val) {v : Value}
    (h : readValue read it = .ok v) : elementType v = t ∧ v.data = val ∧ v.WellFormed := by
  obtain ⟨r, hr, hreads⟩ := hfield.iter_value (ε := Nat)
  have hend := hfield.end_lt
  rw [readValue, hr, Outcome.ok_bind] at h
  cases r with
  | document len d =>
    obtain ⟨rfl, hlen, rfl⟩ := hreads
    obtain ⟨fs, hfs, h⟩ := Outcome.bind_eq_ok_iff.mp h
    cases h
    obtain ⟨hwell, hval⟩ := readStatic_field hread hfield.lies_val hlen (by omega) hfs
    exact ⟨rfl, hval.symm, by simpa only [Value.WellFormed] using hwell⟩
  | array len d =>
    obtain ⟨rfl, hlen, rfl⟩ := hreads
    obtain ⟨fs, hfs, h⟩ := Outcome.bind_eq_ok_iff.mp h
    cases h
    obtain ⟨hwell, hval⟩ := readStatic_field hread hfield.lies_val hlen (by omega) hfs
    exact ⟨rfl, hval.symm, by simpa only [Value.WellFormed] using hwell⟩
  | codewscope source len d =>
    obtain ⟨rfl, last, scope, hval, hlen, hd4, rfl⟩ := hreads
    have hlies := hfield.lies_val
    rw [hval, lies_append, lies_append, lies_append, lies_append] at hlies
    simp only [length_le32, List.length_append, List.length_singleton] at hlies
    obtain ⟨-, -, ⟨-, hlast⟩, hscope⟩ := hlies
    have hvallen : val.length = 8 + (source.length + 1) + scope.length := by
      have hlength := congrArg List.length hval
      simp only [List.length_append, length_le32, List.length_singleton] at hlength
      omega
    have hd4' : it.d1 + 4 + 4 + (source.length + 1) = it.d4 := by omega
    rw [hd4'] at hscope
    rw [show it.d1 + 4 + 4 + source.length = it.d4 - 1 from by omega] at hlast
    have hload : (it.deref fun data => load data (it.d4 - 1) : Outcome Nat UInt8) = .ok last := by
      rw [Iter.deref, hfield.raw]
      exact hlast.load
    simp only [hload, Outcome.ok_bind] at h
    split_ifs at h with hnul
    obtain rfl := not_not.mp hnul
    obtain ⟨fs, hfs, h⟩ := Outcome.bind_eq_ok_iff.mp h
    cases h
    obtain ⟨hwell, rfl⟩ := readStatic_field hread hscope hlen (by omega) hfs
    exact ⟨rfl, codewscope_data hwell hval, by simpa only [Value.WellFormed] using hwell⟩
  | regex pattern options =>
    cases h
    obtain ⟨rfl, rfl, hpattern, hoptions⟩ := hreads
    exact ⟨rfl, rfl, by simpa only [Value.WellFormed] using ⟨hpattern, hoptions⟩⟩
  | oid id =>
    cases h
    obtain ⟨rfl, rfl, hid⟩ := hreads
    exact ⟨rfl, rfl, by simpa only [Value.WellFormed] using hid⟩
  | dbpointer collection id =>
    cases h
    obtain ⟨rfl, rfl, hid⟩ := hreads
    exact ⟨rfl, rfl, by simpa only [Value.WellFormed] using hid⟩
  | binary subtype payload =>
    cases h
    obtain ⟨rfl, rfl⟩ := hreads
    refine ⟨rfl, rfl, ?_⟩
    rw [Value.WellFormed]
    intro h2
    rw [storedPayload, if_pos h2, List.drop_left' (length_le32 _)]
  | double _ | utf8 _ | undefined | bool _ | dateTime _ | null | code _ | symbol _ | int32 _
  | timestamp _ _ | int64 _ | decimal128 _ | maxkey | minkey =>
    cases h
    obtain ⟨rfl, rfl⟩ := hreads
    exact ⟨rfl, rfl, by simp only [Value.WellFormed]⟩

/-- The field that a step finds lies ahead, and what lies behind it. -/
theorem Field.ahead_cons {it it' : Iter} {data : Bytes} {key : Bytes} {v : Value} {rest : Doc}
    (h : On it' data key v) (hready : Ready it data) (hv : v.WellFormed)
    (hoff : it'.off = it.next_off) (hlen : it'.len = it.len) (hahead : Ahead it' data rest) :
    Ahead it data ((key, v) :: rest) := by
  have hd1 := h.d1_eq
  have hnext := h.next_eq
  have hrestlen := hahead.len_eq
  have hsize := v.length_data hv
  refine ⟨hready, ?_, ?_, ?_⟩
  · have hlies := h.lies
    rw [hoff] at hlies
    have hbehind := hahead.lies
    rw [show it'.next_off = it.next_off + (elementType v :: (key ++ 0 :: v.data)).length from by
      simp only [List.length_cons, List.length_append]; omega] at hbehind
    simpa only [fieldsData, List.cons_append, List.append_assoc] using
      lies_append.mpr ⟨hlies, hbehind⟩
  · rw [fieldsSize_cons, fieldSize]
    omega
  · simpa only [FieldsWellFormed] using ⟨h.nulFree, hv, hahead.wellFormed⟩

/-- Where a step stops in front of the closing NUL, no fields lie ahead. -/
theorem Closed.ahead_nil {it : Iter} {data : Bytes} (h : Closed it data)
    (hend : AtEnd it data) : Ahead it data [] := by
  have hlt := h.lt
  have hlen : it.len = it.next_off + 1 := by
    rcases Nat.lt_or_ge (it.next_off + 1) it.len with hmore | hdone
    · have hle := le_of_nulFree_take hend h.last (by omega)
      omega
    · omega
  have hlast := h.last
  rw [hlen, Nat.add_sub_cancel] at hlast
  exact ⟨h.toReady, hlast, hlen, by simp only [FieldsWellFormed]⟩

theorem readFields_sound (fuel : Nat) : SoundRead (readFields fuel) := by
  induction fuel with
  | zero => intro it data fs _ h; cases h
  | succ fuel ih =>
    intro it data fs hclosed h
    rw [readFields] at h
    obtain ⟨⟨found, it'⟩, hnext, h⟩ := Outcome.bind_eq_ok_iff.mp h
    rcases next_cases (ε := Nat) hclosed.toReady with
      ⟨it₁, t, key, val, hrun, hfield, hoff, hlen⟩ | ⟨it₁, u, hrun, -, hstop⟩ | ⟨hrun, -⟩
    · rw [bson_iter_next, hrun] at hnext
      cases hnext
      simp only [if_true, hfield.iter_key, Outcome.ok_bind] at h
      obtain ⟨v, hv, h⟩ := Outcome.bind_eq_ok_iff.mp h
      obtain ⟨rest, hrest, h⟩ := Outcome.bind_eq_ok_iff.mp h
      cases h
      obtain ⟨rfl, rfl, hwell⟩ := readValue_sound ih hfield hv
      have hahead := ih it' data rest
        ⟨hfield.ready, hlen.symm ▸ hclosed.last, hfield.in_bounds⟩ hrest
      exact hfield.ahead_cons hclosed.toReady hwell hoff hlen hahead
    · rw [bson_iter_next, hrun] at hnext
      cases hnext
      simp only [Bool.false_eq_true, if_false] at h
      split_ifs at h with herr
      cases h
      rcases hstop with ⟨hend, -⟩ | hne
      · exact hclosed.ahead_nil hend
      · exact absurd herr hne
    · rw [bson_iter_next_eq_undefined.mpr hrun] at hnext
      cases hnext

/-! ## What lies there is read -/

/-- Documents of less than `n` bytes are read. -/
def CompleteRead (read : Iter → Outcome Nat Doc) (n : Nat) : Prop :=
  ∀ it data fs, Ahead it data fs → it.len - it.next_off < n → read it = .ok fs

theorem readStatic_complete {read : Iter → Outcome Nat Doc} {n : Nat} (hread : CompleteRead read n)
    {data : Bytes} {fs : Doc} (hfs : DocWellFormed fs) (hlies : Lies data 0 (bson_get_data fs))
    (hlen : docSize fs < n) : readStatic read data (docSize fs) = .ok fs := by
  have hahead := ahead_start hfs hlies
  have hlength : docSize fs ≤ data.length := hahead.le_length
  obtain ⟨ok, hok, hstatic⟩ := bson_init_static_eq (ε := Nat) hlength
  rw [readStatic, hok, Outcome.ok_bind, if_pos (hstatic.mpr (static_of_lies hfs hlies))]
  refine hread _ data fs hahead ?_
  simp only [Iter.start]
  omega

theorem readValue_complete {read : Iter → Outcome Nat Doc} {n : Nat} (hread : CompleteRead read n)
    {it : Iter} {data : Bytes} {key : Bytes} {v : Value} (h : On it data key v)
    (hv : v.WellFormed) (hlen : v.size < n) : readValue read it = .ok v := by
  rw [readValue, h.iter_value_eq hv, Outcome.ok_bind]
  cases v with
  | document fs =>
    have hfs : FieldsWellFormed fs := by simpa only [Value.WellFormed] using hv
    obtain ⟨-, hds, hlies⟩ := h.ahead_child rfl hfs
    simp only [Value.raw]
    rw [readStatic_complete hread hds hlies hlen, Outcome.ok_bind]
  | array fs =>
    have hfs : FieldsWellFormed fs := by simpa only [Value.WellFormed] using hv
    obtain ⟨-, hds, hlies⟩ := h.ahead_child rfl hfs
    simp only [Value.raw]
    rw [readStatic_complete hread hds hlies hlen, Outcome.ok_bind]
  | codewscope source scope =>
    obtain ⟨-, hlies, hds, hlast⟩ :=
      h.iter_codewscope (ε := Nat) (by simpa only [Value.WellFormed] using hv)
    have hload : (it.deref fun data => load data (it.d4 - 1) : Outcome Nat UInt8) = .ok 0 := by
      rw [Iter.deref, h.raw]
      exact hlast.load
    rw [Value.size] at hlen
    simp only [Value.raw, hload, Outcome.ok_bind]
    rw [if_neg (by simp), readStatic_complete hread hds hlies (by unfold docSize; omega),
      Outcome.ok_bind]
  | binary subtype payload =>
    simp only [Value.raw, storedPayload]
    by_cases h2 : subtype = 2
    · have hpayload : payload = le32 (payload.drop 4).length.toUInt32 ++ payload.drop 4 := by
        simpa only [Value.WellFormed, h2, forall_const] using hv
      rw [if_pos h2, if_pos h2, ← hpayload]
    · rw [if_neg h2, if_neg h2]
  | double _ | utf8 _ | undefined | oid _ | bool _ | dateTime _ | null | regex _ _ | dbpointer _ _
  | code _ | symbol _ | int32 _ | timestamp _ _ | int64 _ | decimal128 _ | maxkey | minkey => rfl

theorem readFields_complete (fuel : Nat) : CompleteRead (readFields fuel) fuel := by
  induction fuel with
  | zero => intro it data fs _ h; omega
  | succ fuel ih =>
    intro it data fs h hlen
    rw [readFields, bson_iter_next]
    cases fs with
    | nil =>
      obtain ⟨it', hrun, -, herr⟩ := h.next_nil (ε := Nat)
      simp [hrun, herr]
    | cons f rest =>
      obtain ⟨key, v⟩ := f
      obtain ⟨it', hrun, hon, hahead⟩ := h.next_cons (ε := Nat)
      obtain ⟨-, hv, -⟩ : NulFree key ∧ v.WellFormed ∧ FieldsWellFormed rest := by
        simpa only [FieldsWellFormed] using h.wellFormed
      have hsize := v.length_data hv
      have hlen' := h.len_eq
      have hrest := hahead.len_eq
      have hbound := hon.in_bounds
      rw [fieldsSize_cons, fieldSize] at hlen'
      have hvalue := readValue_complete ih hon hv (by omega)
      have hfields := ih it' data rest hahead (by omega)
      simp only [hrun, Outcome.ok_bind, if_true, hon.iter_key, hvalue, hfields]

/-! ## The two levels -/

/-- A document is read from its bytes and from nothing else. -/
theorem encodedDoc_eq_ok_iff {data : Bytes} {len : Nat} (hlen : len ≤ data.length) {ds : Doc} :
    encodedDoc data len = .ok ds ↔
      DocWellFormed ds ∧ docSize ds = len ∧ Lies data 0 (bson_get_data ds) := by
  constructor
  · exact readStatic_sound (readFields_sound (len + 1)) hlen
  · rintro ⟨hds, rfl, hlies⟩
    exact readStatic_complete (readFields_complete _) hds hlies (Nat.lt_succ_self _)

/-- Encodings are copied. -/
theorem copiedDoc_eq_ok_iff {ε : Type} {data : Bytes} {len : Nat} (hlen : len ≤ data.length)
    {ds : Doc} :
    (copiedDoc data len : Outcome ε Doc) = .ok ds ↔
      DocWellFormed ds ∧ docSize ds = len ∧ Lies data 0 (bson_get_data ds) := by
  rw [← encodedDoc_eq_ok_iff hlen, copiedDoc]
  cases encodedDoc data len <;> simp

/-- A well-formed document is read from its bytes. -/
theorem encodedDoc_bson_get_data {ds : Doc} (hds : DocWellFormed ds) :
    encodedDoc (bson_get_data ds) (bson_get_data ds).length = .ok ds :=
  (encodedDoc_eq_ok_iff (le_refl _)).mpr
    ⟨hds, (length_bson_get_data hds.fields).symm, lies_zero.mpr (List.prefix_refl _)⟩

/-- A well-formed document is determined by its bytes. -/
theorem bson_get_data_injective {ds ds' : Doc} (hds : DocWellFormed ds) (hds' : DocWellFormed ds')
    (h : bson_get_data ds = bson_get_data ds') : ds = ds' := by
  have hboth := encodedDoc_bson_get_data hds
  rw [h, encodedDoc_bson_get_data hds'] at hboth
  exact (Outcome.ok.inj hboth).symm

/-! ## The encodings among the buffers -/

/-- Nothing is wrong with a buffer: every document on the way through it passes
`bson_init_static`, every iteration ends without an error offset, and a NUL closes every
code with a scope.  A reader need not look at all of that. -/
structure Clean (data : Bytes) (len : Nat) : Prop where
  static : (bson_init_static data len : Outcome Empty Bool) = .ok true
  next {it : Iter} (hreached : Reached data len it) :
    ∃ found it', (bson_iter_next it : Outcome Empty (Bool × Iter)) = .ok (found, it') ∧
      (found = false → it'.err_off = 0)
  child {it it' child : Iter} {d : Bytes} (hreached : Reached data len it)
    (hnext : (bson_iter_next it : Outcome Empty (Bool × Iter)) = .ok (true, it'))
    (hchild : (bson_iter_recurse it' : Outcome Empty (Option Iter)) = .ok (some child))
    (hraw : child.raw = some d) : (bson_init_static d child.len : Outcome Empty Bool) = .ok true
  scope {it it' : Iter} {code scope : Bytes} {scope_len : Nat} (hreached : Reached data len it)
    (hnext : (bson_iter_next it : Outcome Empty (Bool × Iter)) = .ok (true, it'))
    (hscope : (bson_iter_codewscope it' : Outcome Empty (Option (Bytes × Nat × Bytes))) =
      .ok (some (code, scope_len, scope))) :
    (bson_init_static scope scope_len : Outcome Empty Bool) = .ok true ∧
      (it'.deref fun data => load data (it'.d4 - 1) : Outcome Empty UInt8) = .ok 0

/-! ## Every buffer is read or refused -/

/-- A field that holds no document has a value. -/
theorem Field.exists_leaf {it : Iter} {data : Bytes} {t : UInt8} {key val : Bytes}
    (h : Field it data t key val) (hdocument : layout t ≠ .document) (hscope : t ≠ 0x0F) :
    ∃ v : Value, elementType v = t ∧ v.data = val ∧ v.WellFormed := by
  obtain ⟨r, hr, hreads⟩ := h.iter_value (ε := Nat)
  have leaf {v : Value} (hread : readValue (readFields 0) it = .ok v) :
      ∃ v : Value, elementType v = t ∧ v.data = val ∧ v.WellFormed :=
    ⟨v, readValue_sound (readFields_sound 0) h hread⟩
  cases r with
  | document len d => exact absurd (layout_eq_document.mpr (Or.inl hreads.1)) hdocument
  | array len d => exact absurd (layout_eq_document.mpr (Or.inr hreads.1)) hdocument
  | codewscope source len d => exact absurd hreads.1 hscope
  | _ => exact leaf (by rw [readValue, hr, Outcome.ok_bind])

/-- What `bson_init_static` says of the document of an iterator. -/
theorem Ready.static {data : Bytes} {len : Nat} (hready : Ready (Iter.start data len) data)
    (hok : (bson_init_static data len : Outcome Empty Bool) = .ok true) : Static data len := by
  obtain ⟨ok, hok', hstatic⟩ := bson_init_static_eq (ε := Empty) hready.le_length
  exact hstatic.mp (Outcome.ok.inj (hok'.symm.trans hok))

/-- A document with a good header is closed by its NUL. -/
theorem Static.closed {data : Bytes} {len : Nat} (hstatic : Static data len)
    (hready : Ready (Iter.start data len) data) : Closed (Iter.start data len) data := by
  have hge := hstatic.ge
  exact ⟨hready, hstatic.last, by simp only [Iter.start]; omega⟩

section

variable {data₀ : Bytes} {len₀ : Nat}

/-- From an iterator over a clean buffer, fields lie ahead. -/
theorem Clean.exists_ahead (h : Clean data₀ len₀) (n : Nat) {it : Iter} {data : Bytes}
    (hreached : Reached data₀ len₀ it) (hclosed : Closed it data) (hn : it.len - it.next_off < n) :
    ∃ fs, Ahead it data fs := by
  induction n generalizing it data with
  | zero => omega
  | succ n ih =>
    obtain ⟨found, it₁, hnext, herr⟩ := h.next hreached
    rcases next_cases (ε := Empty) hclosed.toReady with
      ⟨it', t, key, val, hrun, hfield, hoff, hkept⟩ | ⟨it', u, hrun, -, hstop⟩ | ⟨hrun, -⟩
    · have hstep := bson_iter_next_eq_true.mpr ⟨t, hrun⟩
      have hd1 := hfield.d1_eq
      have hbehind := hfield.next_eq
      have hbound := hfield.in_bounds
      -- a document inside of the field is shorter than what was ahead
      have inside {d : Bytes} {len : Nat} (hstart : Reached data₀ len₀ (Iter.start d len))
          (hready : Ready (Iter.start d len) d) (hlen : len ≤ val.length)
          (hstatic : Static d len) :
          ∃ fs, DocWellFormed fs ∧ docSize fs = len ∧ Lies d 0 (bson_get_data fs) := by
        obtain ⟨fs, hahead⟩ :=
          ih hstart (hstatic.closed hready) (by simp only [Iter.start]; omega)
        exact ⟨fs, hahead.document hstatic⟩
      obtain ⟨v, rfl, rfl, hv⟩ : ∃ v : Value, elementType v = t ∧ v.data = val ∧ v.WellFormed := by
        by_cases hdocument : layout t = .document
        · have hchild := hfield.recurse_eq (ε := Empty)
          rw [if_pos hdocument] at hchild
          obtain ⟨fs, hds, hsize, hlies⟩ := inside (.recurse hreached hstep hchild)
            hfield.ready_child (le_refl _)
            (hfield.ready_child.static (h.child hreached hstep hchild rfl))
          rw [lies_drop, Nat.add_zero] at hlies
          obtain ⟨v, ht, hdata, hv, -⟩ := exists_document hdocument hds.fields
          refine ⟨v, ht, hdata.trans ?_, hv⟩
          exact (hfield.lies_val.eq hlies (by rw [length_bson_get_data hds.fields, hsize])).symm
        by_cases hcode : t = 0x0F
        · subst hcode
          obtain ⟨w, w', code, w'', rest, hval, hw, hw', hw'', hcount, hcount', -, hcode, -, hd4,
            hread⟩ := hfield.iter_codewscope (ε := Empty)
          obtain ⟨hok, hlast⟩ := h.scope hreached hstep hread
          obtain ⟨hshort, -, hready⟩ := hfield.ready_scope hread
          have hstatic := hready.static hok
          obtain ⟨fs, hds, hsize, hlies⟩ := inside (.scope hreached hstep hread hok
            (bson_iter_init_eq hstatic.ge)) hready hshort.le hstatic
          rw [lies_drop, Nat.add_zero] at hlies
          have hall := hfield.lies_val
          rw [hval, lies_append, lies_append, lies_append, hw, hw'] at hall
          obtain ⟨-, -, htext, hscope⟩ := hall
          have hdata : bson_get_data fs = w'' ++ rest := by
            rw [hd4] at hlies
            refine hlies.eq hscope ?_
            rw [length_bson_get_data hds.fields, hsize, List.length_append, hw'']
          have hne : code ≠ [] := List.length_pos_iff.mp hcode
          have hcodes := List.dropLast_append_getLast hne
          have hcodelen : code.dropLast.length + 1 = code.length := by
            rw [List.length_dropLast]
            omega
          have hclosing : code.getLast hne = 0 := by
            rw [← hcodes, lies_append] at htext
            have hload := htext.2.load (ε := Empty)
            rw [Iter.deref, hfield.raw] at hlast
            simp only at hlast
            rw [show it'.d4 - 1 = it'.d1 + 4 + 4 + code.dropLast.length from by omega, hload] at hlast
            exact Outcome.ok.inj hlast
          rw [hclosing] at hcodes
          refine ⟨.codewscope code.dropLast fs, rfl, codewscope_data hds.fields ?_,
            by simpa only [Value.WellFormed] using hds.fields⟩
          rw [hcodes, hcodelen, hdata, ← eq_le32_of_count hw hcount, ← eq_le32_of_count hw' hcount']
          exact hval
        · exact hfield.exists_leaf hdocument hcode
      obtain ⟨rest, hahead⟩ := ih (.next hreached hstep)
        ⟨hfield.ready, hkept.symm ▸ hclosed.last, hfield.in_bounds⟩ (by omega)
      exact ⟨(key, v) :: rest, hfield.ahead_cons hclosed.toReady hv hoff hkept hahead⟩
    · rw [bson_iter_next, hrun] at hnext
      cases hnext
      rcases hstop with ⟨hend, -⟩ | hne
      · exact ⟨[], hclosed.ahead_nil hend⟩
      · exact absurd (herr rfl) hne
    · rw [bson_iter_next_eq_undefined.mpr hrun] at hnext
      cases hnext

end

section

variable {it it' : Iter} {data : Bytes}

/-- A step that finds a field has moved to the first of the fields ahead. -/
theorem Ahead.of_next {fs : Doc} (h : Ahead it data fs)
    (hnext : (bson_iter_next it : Outcome Empty (Bool × Iter)) = .ok (true, it')) :
    ∃ key v rest, On it' data key v ∧ v.WellFormed ∧ Ahead it' data rest := by
  cases fs with
  | nil =>
    obtain ⟨it₁, hrun, -⟩ := h.next_nil (ε := Empty)
    rw [bson_iter_next, hrun] at hnext
    cases hnext
  | cons f rest =>
    obtain ⟨key, v⟩ := f
    obtain ⟨it₁, hrun, hon, hahead⟩ := h.next_cons (ε := Empty)
    obtain ⟨-, hv, -⟩ : NulFree key ∧ v.WellFormed ∧ FieldsWellFormed rest := by
      simpa only [FieldsWellFormed] using h.wellFormed
    rw [bson_iter_next, hrun] at hnext
    cases hnext
    exact ⟨key, v, rest, hon, hv, hahead⟩

/-- The document that is entered at a field is that of its value. -/
theorem On.of_recurse {key : Bytes} {v : Value} {child : Iter} (h : On it data key v)
    (hv : v.WellFormed)
    (hchild : (bson_iter_recurse it : Outcome Empty (Option Iter)) = .ok (some child)) :
    ∃ fs, child = Iter.start (data.drop it.d1) (docSize fs) ∧ DocWellFormed fs ∧
      Lies (data.drop it.d1) 0 (bson_get_data fs) := by
  have hread := Field.recurse_eq (ε := Empty) h
  rw [hread] at hchild
  split_ifs at hchild with hdocument
  · obtain ⟨fs, hdata, hfs⟩ : ∃ fs, v.data = bson_get_data fs ∧ FieldsWellFormed fs := by
      cases v with
      | document fs => exact ⟨fs, rfl, by simpa only [Value.WellFormed] using hv⟩
      | array fs => exact ⟨fs, rfl, by simpa only [Value.WellFormed] using hv⟩
      | _ => cases hdocument
    obtain ⟨hlen, hds, hlies⟩ := h.ahead_child hdata hfs
    cases hchild
    exact ⟨fs, by rw [hlen], hds, hlies⟩
  · cases hchild

/-- The scope that is read at a field is that of its value. -/
theorem On.of_codewscope {key : Bytes} {v : Value} {code scope : Bytes} {scope_len : Nat}
    (h : On it data key v) (hv : v.WellFormed)
    (hscope : (bson_iter_codewscope it : Outcome Empty (Option (Bytes × Nat × Bytes))) =
      .ok (some (code, scope_len, scope))) :
    ∃ fs, scope_len = docSize fs ∧ DocWellFormed fs ∧ Lies scope 0 (bson_get_data fs) ∧
      Lies data (it.d4 - 1) [0] := by
  have htype : elementType v = 0x0F := by simpa using Field.mem_types h hscope
  cases v with
  | codewscope source fs =>
    obtain ⟨hread, hlies, hds, hlast⟩ :=
      h.iter_codewscope (ε := Empty) (by simpa only [Value.WellFormed] using hv)
    rw [hread] at hscope
    cases hscope
    exact ⟨fs, rfl, hds, hlies, hlast⟩
  | _ => cases htype

end

/-- In an encoding, fields lie ahead of every iterator. -/
theorem Reached.exists_ahead {data : Bytes} {ds : Doc} (hds : DocWellFormed ds)
    (hlies : Lies data 0 (bson_get_data ds)) {it : Iter} (h : Reached data (docSize ds) it) :
    ∃ data' fs, Ahead it data' fs := by
  induction h with
  | init h =>
    rw [bson_iter_init_eq (by unfold docSize; omega)] at h
    cases h
    exact ⟨data, ds, ahead_start hds hlies⟩
  | next _ hnext ih =>
    obtain ⟨data', fs, hahead⟩ := ih
    obtain ⟨key, v, rest, -, -, hrest⟩ := hahead.of_next hnext
    exact ⟨data', rest, hrest⟩
  | recurse _ hnext hchild ih =>
    obtain ⟨data', fs, hahead⟩ := ih
    obtain ⟨key, v, rest, hon, hv, -⟩ := hahead.of_next hnext
    obtain ⟨inner, rfl, hinner, hlies⟩ := hon.of_recurse hv hchild
    exact ⟨_, inner, ahead_start hinner hlies⟩
  | scope _ hnext hscope _ hchild ih =>
    obtain ⟨data', fs, hahead⟩ := ih
    obtain ⟨key, v, rest, hon, hv, -⟩ := hahead.of_next hnext
    obtain ⟨inner, rfl, hinner, hlies, -⟩ := hon.of_codewscope hv hscope
    rw [bson_iter_init_eq (by unfold docSize; omega)] at hchild
    cases hchild
    exact ⟨_, inner, ahead_start hinner hlies⟩

/-- Nothing is wrong with an encoding. -/
theorem clean_of_lies {data : Bytes} {ds : Doc} (hds : DocWellFormed ds)
    (hlies : Lies data 0 (bson_get_data ds)) : Clean data (docSize ds) where
  static := init_static_data hds hlies
  next hreached := by
    obtain ⟨data', fs, hahead⟩ := hreached.exists_ahead hds hlies
    cases fs with
    | nil =>
      obtain ⟨it', hrun, -, herr⟩ := hahead.next_nil (ε := Empty)
      exact ⟨false, it', by rw [bson_iter_next, hrun]; rfl, fun _ => herr⟩
    | cons f rest =>
      obtain ⟨it', hrun, -⟩ := hahead.next_cons (ε := Empty)
      exact ⟨true, it', bson_iter_next_eq_true.mpr ⟨_, hrun⟩, fun hfound => by cases hfound⟩
  child hreached hnext hchild hraw := by
    obtain ⟨data', fs, hahead⟩ := hreached.exists_ahead hds hlies
    obtain ⟨key, v, rest, hon, hv, -⟩ := hahead.of_next hnext
    obtain ⟨inner, rfl, hinner, hin⟩ := hon.of_recurse hv hchild
    cases hraw
    exact init_static_data hinner hin
  scope hreached hnext hscope := by
    obtain ⟨data', fs, hahead⟩ := hreached.exists_ahead hds hlies
    obtain ⟨key, v, rest, hon, hv, -⟩ := hahead.of_next hnext
    obtain ⟨inner, rfl, hinner, hin, hlast⟩ := hon.of_codewscope hv hscope
    refine ⟨init_static_data hinner hin, ?_⟩
    rw [Iter.deref, hon.raw]
    exact hlast.load

/-- The buffers that are encodings are those with which nothing is wrong, and then the
document is determined by the bytes. -/
theorem encodes_iff_clean {data : Bytes} {len : Nat} (hlen : len ≤ data.length) :
    (∃! ds, DocWellFormed ds ∧ data.take len = bson_get_data ds) ↔ Clean data len := by
  constructor
  · rintro ⟨ds, ⟨hds, htake⟩, -⟩
    have hsize : docSize ds = len := by
      rw [← length_bson_get_data hds.fields, ← htake, List.length_take, Nat.min_eq_left hlen]
    rw [← hsize]
    exact clean_of_lies hds (lies_zero.mpr (htake ▸ List.take_prefix len data))
  · intro h
    obtain ⟨ok, hok, hstatic⟩ := bson_init_static_eq (ε := Empty) hlen
    have hstatic := hstatic.mp (Outcome.ok.inj (hok.symm.trans h.static))
    have hready : Ready (Iter.start data len) data :=
      ⟨⟨rfl, hlen, hstatic.le_max⟩, le_refl _, le_max_left _ _, rfl⟩
    obtain ⟨ds, hahead⟩ := h.exists_ahead _ (.init (bson_iter_init_eq hstatic.ge))
      (hstatic.closed hready) (Nat.lt_succ_self _)
    obtain ⟨hds, hsize, hlies⟩ := hahead.document hstatic
    have htake : data.take len = bson_get_data ds := by
      rw [List.prefix_iff_eq_take.mp (lies_zero.mp hlies), length_bson_get_data hds.fields, hsize]
    exact ⟨ds, ⟨hds, htake⟩, fun ds' h' =>
      bson_get_data_injective h'.1 hds (h'.2.symm.trans htake)⟩

/-- A buffer with a nested document and a byte behind it is clean.  The next one is not: its
nested document has no NUL at the end. -/
theorem encodes_iff_clean_nested :
    Clean (bson_get_data [(bytes "a", .document [(bytes "b", .int32 1)])] ++ [7]) 20 ∧
      ¬ ∃! ds, DocWellFormed ds ∧
        ([14, 0, 0, 0, 3, 97, 0, 6, 0, 0, 0, 0, 7, 0] : Bytes).take 14 = bson_get_data ds := by
  constructor
  · have hds : DocWellFormed [(bytes "a", .document [(bytes "b", .int32 1)])] :=
      ⟨by simp [FieldsWellFormed, Value.WellFormed, NulFree, bytes], by decide⟩
    refine (encodes_iff_clean (by decide)).mp ⟨_, ⟨hds, rfl⟩, fun ds' h' => ?_⟩
    exact bson_get_data_injective h'.1 hds h'.2.symm
  · intro h
    have hclean := (encodes_iff_clean (by decide)).mp h
    have hstatic := hclean.child (.init rfl) rfl rfl rfl
    cases hstatic

end Vklib.Bson
