import Vklib.Bson.GrowSpec

/-!
# Building a document, call by call

A program builds a document by calls on the innermost one that is open: it appends a
value, opens a child, or closes it.  `Building` runs the calls on documents under
construction, where a child is a value of its own, and `Buffered` on the one buffer
that all of them share.

`Represents` connects the two.  One call keeps it and returns the same
(`step_spec`), so a sequence of calls does (`run_spec`), however the documents nest and
wherever the buffer had to grow.  In particular the buffer is never written out of
its bounds, and a call that is refused loses nothing of what was there.
-/

namespace Vklib.Bson

open Buffer

/-- The value of an append function, with the type that the function has for it.  A
finished document is passed as its bytes. -/
inductive Argument
  | null
  | maxkey
  | minkey
  | bool (value : Bool)
  | int32 (value : Int32)
  | int64 (value : Int64)
  | double (value : F64)
  | decimal128 (value : Decimal128)
  | date_time (value : Int64)
  | timestamp (timestamp increment : UInt32)
  | oid (value : Oid)
  | utf8 (value : Bytes)
  | binary (subtype : UInt32) (binary : Bytes)
  | regex (regex options : Bytes)
  | code (javascript : Bytes)
  | code_with_scope (javascript : Bytes) (scope : Doc)
  | document (value : Doc)
  | array (array : Doc)

namespace Argument

/-- The append function for the type, on a document under construction. -/
def append (b : BsonT) (key : Bytes) : Argument → Option (Bool × BsonT)
  | .null => bson_append_null b key
  | .maxkey => bson_append_maxkey b key
  | .minkey => bson_append_minkey b key
  | .bool v => bson_append_bool b key v
  | .int32 v => bson_append_int32 b key v
  | .int64 v => bson_append_int64 b key v
  | .double v => bson_append_double b key v
  | .decimal128 v => bson_append_decimal128 b key v
  | .date_time v => bson_append_date_time b key v
  | .timestamp t i => bson_append_timestamp b key t i
  | .oid id => bson_append_oid b key id
  | .utf8 s => bson_append_utf8 b key s
  | .binary subtype s => bson_append_binary b key subtype s
  | .regex pattern options => bson_append_regex b key pattern options
  | .code s => bson_append_code b key s
  | .code_with_scope s scope => bson_append_code_with_scope b key s scope
  | .document ds => bson_append_document b key ds
  | .array ds => bson_append_array b key ds

/-- The same function on a buffer. -/
def appendBytes {ε : Type} (fresh : Nat → UInt8) (buf : Bytes) (b : BsonImpl) (key : Bytes) :
    Argument → Outcome ε BsonImpl.Appended
  | .null => b.bson_append_null fresh buf key
  | .maxkey => b.bson_append_maxkey fresh buf key
  | .minkey => b.bson_append_minkey fresh buf key
  | .bool v => b.bson_append_bool fresh buf key v
  | .int32 v => b.bson_append_int32 fresh buf key v
  | .int64 v => b.bson_append_int64 fresh buf key v
  | .double v => b.bson_append_double fresh buf key v
  | .decimal128 v => b.bson_append_decimal128 fresh buf key v
  | .date_time v => b.bson_append_date_time fresh buf key v
  | .timestamp t i => b.bson_append_timestamp fresh buf key t i
  | .oid id => b.bson_append_oid fresh buf key id
  | .utf8 s => b.bson_append_utf8 fresh buf key s
  | .binary subtype s => b.bson_append_binary fresh buf key subtype s
  | .regex pattern options => b.bson_append_regex fresh buf key pattern options
  | .code s => b.bson_append_code fresh buf key s
  | .code_with_scope s scope => b.bson_append_code_with_scope fresh buf key s (bson_get_data scope)
  | .document ds => b.bson_append_document fresh buf key (bson_get_data ds)
  | .array ds => b.bson_append_array fresh buf key (bson_get_data ds)

/-- The field value that is written. -/
def value : Argument → Value
  | .null => .null
  | .maxkey => .maxkey
  | .minkey => .minkey
  | .bool v => .bool v
  | .int32 v => .int32 v
  | .int64 v => .int64 v
  | .double v => .double v
  | .decimal128 v => .decimal128 v
  | .date_time v => .dateTime v
  | .timestamp t i => .timestamp t i
  | .oid id => .oid id
  | .utf8 s => .utf8 (countedArg s)
  | .binary subtype s =>
    let s := s.take (s.length % 2 ^ 32)
    .binary subtype.toUInt8 (if subtype = 2 then le32 s.length.toUInt32 ++ s else s)
  | .regex pattern options => .regex (cutString pattern) (sortedOptions options)
  | .code s => .code s
  | .code_with_scope s scope => .codewscope s scope
  | .document ds => .document ds
  | .array ds => .array ds

/-- What the type of the value promises: an object id has 12 bytes, and a document has
the length that it states. -/
def Valid : Argument → Prop
  | .oid id => id.length = 12
  | .code_with_scope _ ds | .document ds | .array ds => BsonImpl.Sized ds
  | _ => True

theorem append_eq (b : BsonT) (key : Bytes) (arg : Argument) :
    arg.append b key = bson_append b key arg.value := by
  cases arg with
  | binary subtype s =>
    simp only [append, bson_append_binary, value]
    split_ifs <;> rfl
  | _ => rfl

theorem Valid.length_data {arg : Argument} (h : arg.Valid) :
    arg.value.data.length = arg.value.size := by
  cases arg with
  | oid id => exact h
  | utf8 s => exact length_stringData _
  | code s => exact length_stringData _
  | binary subtype s =>
    simp only [value, Value.data, Value.size, List.length_append, List.length_cons, length_le32]
    omega
  | regex regex options =>
    simp only [value, Value.data, Value.size, List.length_append, List.length_cons,
      List.length_nil]
    omega
  | code_with_scope s ds =>
    have hlen := BsonImpl.Sized.length_data h
    rw [bson_get_data, docSize] at hlen
    rw [value, Value.data, Value.size, List.length_append, List.length_append, docSize, hlen,
      length_stringData, length_le32]
    omega
  | document ds => exact BsonImpl.Sized.length_data h
  | array ds => exact BsonImpl.Sized.length_data h
  | _ => rfl

end Argument

/-- The word of a timestamp, with the increment in its low half. -/
theorem toNat_timestamp (t i : UInt32) :
    ((t.toUInt64 <<< 32) ||| i.toUInt64).toNat = 2 ^ 32 * t.toNat + i.toNat := by
  have ht := t.toNat_lt
  have hi := i.toNat_lt
  rw [UInt64.toNat_or, UInt64.toNat_shiftLeft, UInt32.toNat_toUInt64, UInt32.toNat_toUInt64]
  simp only [UInt64.reduceToNat, Nat.reduceMod]
  rw [Nat.shiftLeft_eq, Nat.mod_eq_of_lt (by omega), ← Nat.shiftLeft_eq,
    ← Nat.shiftLeft_add_eq_or_of_lt hi, Nat.shiftLeft_eq]
  omega

theorem le64_timestamp (t i : UInt32) :
    le64 ((t.toUInt64 <<< 32) ||| i.toUInt64) = le32 i ++ le32 t := by
  have htoNat := toNat_timestamp t i
  have ht := t.toNat_lt
  have hi := i.toNat_lt
  have hlow : ((t.toUInt64 <<< 32) ||| i.toUInt64).toUInt32 = i := by
    rw [← UInt32.toNat_inj, UInt64.toNat_toUInt32, htoNat]
    omega
  have hhigh : (((t.toUInt64 <<< 32) ||| i.toUInt64) >>> 32).toUInt32 = t := by
    rw [← UInt32.toNat_inj, UInt64.toNat_toUInt32, UInt64.toNat_shiftRight, htoNat,
      Nat.shiftRight_eq_div_pow]
    simp only [UInt64.reduceToNat, Nat.reduceMod]
    omega
  rw [le64, hlow, hhigh]

namespace BsonImpl

theorem cInt_le (n : Nat) : -2 ^ 31 ≤ cInt n := by
  unfold cInt
  split <;> omega

theorem appendBytes_spec {ε : Type} {buf : Bytes} {b : BsonImpl} {d : BsonT} (h : Holds buf b d)
    (fresh : Nat → UInt8) {key : Bytes} {arg : Argument} (hvalid : arg.Valid)
    (hcounted : Counted key arg.value) :
    ∃ result, arg.append d key = some result ∧
      Simulates (ε := ε) buf b (arg.appendBytes fresh buf b key) result := by
  have hlength := hvalid.length_data
  rw [Argument.append_eq]
  cases arg with
  | timestamp t i =>
    refine appendField_spec h fresh hlength hcounted rfl fun k hk => ⟨(hcounted k hk).2, rfl, ?_⟩
    rw [le64_timestamp]
    simp [Argument.value, Value.data]
  | oid id =>
    have hid : id.length = 12 := hvalid
    refine appendField_spec h fresh hlength hcounted rfl fun k hk =>
      ⟨?_, hid, by simp [Argument.value, Value.data]⟩
    rw [hid]
    exact (hcounted k hk).2
  | binary subtype s =>
    rw [Argument.appendBytes, bson_append_binary]
    by_cases hsubtype : subtype = 2
    · rw [if_pos hsubtype]
      refine appendField_spec h fresh hlength hcounted rfl fun k hk => ⟨?_, ?_, ?_⟩
      · have hints := (hcounted k hk).2
        rwa [Argument.value, intSums, if_pos (by rw [hsubtype]; rfl)] at hints
      · simp only [Argument.value, if_pos hsubtype, Value.size, List.length_append, length_le32]
        omega
      · simp [Argument.value, hsubtype, Value.data, Nat.add_comm]
    · rw [if_neg hsubtype]
      refine appendField_spec h fresh hlength hcounted rfl fun k hk => ⟨fun n hn => ?_, ?_, ?_⟩
      · have hint := (hcounted k hk).2
        simp only [Argument.value, intSums, List.mem_singleton, forall_eq] at hint
        rw [List.mem_singleton] at hn
        have hge := cInt_le k.length
        unfold IsInt at hint ⊢
        split at hint <;> omega
      · simp only [Argument.value, if_neg hsubtype, Value.size]
      · simp [Argument.value, hsubtype, Value.data]
  | code s =>
    refine appendField_spec h fresh hlength hcounted rfl fun k hk => ?_
    obtain ⟨hcount, hints⟩ := hcounted k hk
    simp only [Argument.value, fieldSize, Value.size] at hcount
    have hmod : (s.length + 1) % 2 ^ 32 = s.length + 1 := Nat.mod_eq_of_lt (by omega)
    have hwhole : (s ++ [0]).take (s.length + 1) = s ++ [0] := List.take_of_length_le (by simp)
    rw [hmod, hwhole]
    exact ⟨hints, rfl, by simp [Argument.value, Value.data, stringData]⟩
  | code_with_scope s scope =>
    have hscope := Sized.length_data hvalid
    refine appendField_spec h fresh hlength hcounted rfl fun k hk => ?_
    obtain ⟨hcount, hints⟩ := hcounted k hk
    simp only [Argument.value, fieldSize, Value.size] at hcount
    have hmod : (s.length + 1) % 2 ^ 32 = s.length + 1 := Nat.mod_eq_of_lt (by omega)
    have hwhole : (s ++ [0]).take (s.length + 1) = s ++ [0] := List.take_of_length_le (by simp)
    rw [hmod, hwhole, hscope]
    refine ⟨hints, ?_, ?_⟩
    · rw [Argument.value, Value.size, docSize]
      omega
    · simp [Argument.value, Value.data, stringData, bson_get_data, Nat.add_assoc]
  | document ds =>
    exact appendField_spec h fresh hlength hcounted rfl fun k hk =>
      ⟨(hcounted k hk).2, Sized.length_data hvalid, by simp; rfl⟩
  | array ds =>
    exact appendField_spec h fresh hlength hcounted rfl fun k hk =>
      ⟨(hcounted k hk).2, Sized.length_data hvalid, by simp; rfl⟩
  | _ =>
    exact appendField_spec h fresh hlength hcounted rfl fun k hk =>
      ⟨(hcounted k hk).2, rfl, by simp [Argument.value, Value.data, stringData]⟩

end BsonImpl

/-! ## Calls -/

/-- A call on the innermost open document. -/
inductive Call
  | append (key : Bytes) (arg : Argument)
  | concat (src : Doc)
  /-- `bson_append_array_begin` or `bson_append_document_begin`. -/
  | begin_child (asArray : Bool) (key : Bytes)
  /-- `bson_append_array_end` or `bson_append_document_end`. -/
  | end_child

/-- What the types of the arguments promise, and sizes that are counted without
wrapping or overflow. -/
def Call.Valid : Call → Prop
  | .append key arg => arg.Valid ∧ BsonImpl.Counted key arg.value
  | .concat src => BsonImpl.Sized src ∧ docSize src < 2 ^ 32
  | .begin_child _ key => BsonImpl.CountedChild key
  | .end_child => True

/-- Documents under construction: the innermost one, and its parents from the inside
out, each with the kind and the key of its open child. -/
structure Building where
  innermost : BsonT
  parents : List (BsonT × Bool × Bytes)

namespace Building

def bson_init : Building := { innermost := BsonT.bson_init, parents := [] }

/-- One call: what it returns and the documents after it.  None is no call, because there
is no open child to end, or one whose sizes are not counted. -/
def step (s : Building) : Call → Option (Bool × Building)
  | .append key arg =>
    (arg.append s.innermost key).map fun appended =>
      (appended.1, { s with innermost := appended.2 })
  | .concat src =>
    let (ok, d) := bson_concat s.innermost src
    some (ok, { s with innermost := d })
  | .begin_child asArray key =>
    match bson_append_begin s.innermost key with
    | none => none
    | some none => some (false, s)
    | some (some (k, child)) =>
      some (true, { innermost := child, parents := (s.innermost, asArray, k) :: s.parents })
  | .end_child =>
    match s.parents with
    | [] => none
    | (d, asArray, k) :: parents =>
      some (true, { innermost := bson_append_end d asArray k s.innermost, parents })

/-- A sequence of calls, with what each returns. -/
def run (s : Building) : List Call → Option (List Bool × Building)
  | [] => some ([], s)
  | call :: calls =>
    match s.step call with
    | none => none
    | some (ok, s) => (s.run calls).map fun ran => (ok :: ran.1, ran.2)

end Building

/-- The same documents in their buffer. -/
structure Buffered where
  buf : Bytes
  innermost : BsonImpl
  parents : List BsonImpl

namespace Buffered

variable {ε : Type}

def bson_init (fresh : Nat → UInt8) : Buffered :=
  { buf := (BsonImpl.bson_init fresh).1, innermost := (BsonImpl.bson_init fresh).2, parents := [] }

/-- The begin function for the kind of the child. -/
def begin_child (fresh : Nat → UInt8) (m : Buffered) (asArray : Bool) (key : Bytes) :
    Outcome ε (Bytes × BsonImpl × Option BsonImpl) :=
  if asArray then m.innermost.bson_append_array_begin fresh m.buf key
  else m.innermost.bson_append_document_begin fresh m.buf key

/-- One call.  `fresh` is what the memory holds that it allocates. -/
def step (fresh : Nat → UInt8) (m : Buffered) : Call → Outcome ε (Option (Bool × Buffered))
  | .append key arg => do
    let (ok, buf, b) ← arg.appendBytes fresh m.buf m.innermost key
    .ok (some (ok, { m with buf, innermost := b }))
  | .concat src => do
    let (ok, buf, b) ← m.innermost.bson_concat fresh m.buf (bson_get_data src)
    .ok (some (ok, { m with buf, innermost := b }))
  | .begin_child asArray key => do
    let (buf, b, child) ← m.begin_child fresh asArray key
    match child with
    | none => .ok (some (false, { m with buf, innermost := b }))
    | some child => .ok (some (true, { buf, innermost := child, parents := b :: m.parents }))
  | .end_child =>
    match m.parents with
    | [] => .ok none
    | b :: parents => do
      let (buf, b) ← b._bson_append_bson_end m.buf m.innermost
      .ok (some (true, { buf, innermost := b, parents }))

/-- A sequence of calls.  The memory of each is its own: they are numbered from the
last one. -/
def run (fresh : Nat → Nat → UInt8) (m : Buffered) :
    List Call → Outcome ε (Option (List Bool × Buffered))
  | [] => .ok (some ([], m))
  | call :: calls => do
    match ← m.step (fresh calls.length) call with
    | none => .ok none
    | some (ok, m) =>
      match ← run fresh m calls with
      | none => .ok none
      | some (oks, m) => .ok (some (ok :: oks, m))

/-- `bson_get_data` of the innermost document, up to its length. -/
def data (m : Buffered) : Bytes := (m.buf.drop m.innermost._bson_data).take m.innermost.len

end Buffered

/-! ## The two levels agree -/

open BsonImpl

/-- The parents wait for `child`, from the inside out. -/
def Waiting (buf : Bytes) : BsonImpl → List BsonImpl → List (BsonT × Bool × Bytes) → Prop
  | _, [], [] => True
  | child, b :: bs, (d, asArray, k) :: ds =>
    Suspended buf b d asArray k child ∧ Waiting buf b bs ds
  | _, _, _ => False

theorem Waiting.keeps {buf buf' : Bytes} {child child' : BsonImpl} {bs : List BsonImpl}
    {ds : List (BsonT × Bool × Bytes)} (h : Waiting buf child bs ds)
    (hplace : SamePlace child child') (hkeeps : Keeps child.offset buf buf') :
    Waiting buf' child' bs ds := by
  induction bs generalizing child child' ds with
  | nil =>
    cases ds with
    | nil => trivial
    | cons f ds => exact h.elim
  | cons b bs ih =>
    cases ds with
    | nil => exact h.elim
    | cons f ds =>
      obtain ⟨d, asArray, k⟩ := f
      obtain ⟨hsuspended, hwaiting⟩ := h
      have hle : b.offset ≤ child.offset := by
        have hoffset := hsuspended.offset
        have hlen := hsuspended.len
        omega
      exact ⟨hsuspended.keeps hplace hkeeps, ih hwaiting (SamePlace.refl b) (hkeeps.mono hle)⟩

theorem Waiting.length_eq {buf : Bytes} {child : BsonImpl} {bs : List BsonImpl}
    {ds : List (BsonT × Bool × Bytes)} (h : Waiting buf child bs ds) : bs.length = ds.length := by
  induction bs generalizing child ds with
  | nil =>
    cases ds with
    | nil => rfl
    | cons f ds => exact h.elim
  | cons b bs ih =>
    cases ds with
    | nil => exact h.elim
    | cons f ds => rw [List.length_cons, List.length_cons, ih h.2]

/-- The buffer holds the documents under construction. -/
structure Represents (m : Buffered) (s : Building) : Prop where
  innermost : Holds m.buf m.innermost s.innermost
  parents : Waiting m.buf m.innermost m.parents s.parents

theorem represents_init (fresh : Nat → UInt8) :
    Represents (Buffered.bson_init fresh) Building.bson_init :=
  ⟨holds_init fresh, trivial⟩

theorem Represents.data_eq {m : Buffered} {s : Building} (h : Represents m s) :
    m.data = bson_get_data s.innermost.fields := by
  have hlies := h.innermost.lies
  rw [Buffered.data, h.innermost.data_eq, h.innermost.len, ← h.innermost.sized.length_data]
  exact (List.prefix_iff_eq_take.mp hlies).symm

section

variable {ε : Type} {m : Buffered} {s : Building}

/-- What an append function does to the innermost document. -/
theorem Represents.simulates {run : Outcome ε Appended} {result : Bool × BsonT}
    (h : Represents m s) (hrun : Simulates m.buf m.innermost run result) :
    ∃ buf b, run = .ok (result.1, buf, b) ∧
      Represents { m with buf, innermost := b } { s with innermost := result.2 } := by
  obtain ⟨buf, b, hrun, hholds, hplace, hkeeps⟩ := hrun
  exact ⟨buf, b, hrun, hholds, h.parents.keeps hplace hkeeps⟩

/-- One call does the same on both levels. -/
theorem step_spec (h : Represents m s) (fresh : Nat → UInt8) {call : Call} (hcall : call.Valid) :
    match s.step call with
    | none => (m.step fresh call : Outcome ε _) = .ok none
    | some (ok, s') =>
      ∃ m', (m.step fresh call : Outcome ε _) = .ok (some (ok, m')) ∧ Represents m' s' := by
  cases call with
  | append key arg =>
    obtain ⟨result, happend, hresult⟩ :=
      appendBytes_spec (ε := ε) h.innermost fresh hcall.1 hcall.2
    obtain ⟨buf, b, hrun, hrep⟩ := h.simulates hresult
    rw [Building.step, happend, Option.map_some]
    exact ⟨_, by rw [Buffered.step, hrun, Outcome.ok_bind], hrep⟩
  | concat src =>
    obtain ⟨buf, b, hrun, hrep⟩ :=
      h.simulates (bson_concat_spec (ε := ε) h.innermost fresh hcall.1 hcall.2)
    change ∃ m', _ = Outcome.ok (some ((bson_concat s.innermost src).1, m')) ∧ _
    exact ⟨_, by rw [Buffered.step, hrun, Outcome.ok_bind], hrep⟩
  | begin_child asArray key =>
    obtain ⟨opened, hopened, hspec⟩ := begin_spec (ε := ε) h.innermost fresh asArray hcall
    have hbegin : (m.begin_child fresh asArray key : Outcome ε _) =
        _bson_append_bson_begin fresh m.buf m.innermost key (childType asArray) := by
      cases asArray <;> rfl
    rw [← hbegin] at hspec
    simp only [Building.step, Buffered.step, hopened]
    cases opened with
    | none =>
      obtain ⟨buf, b, hrun, hholds, hplace, hkeeps⟩ := hspec
      rw [hrun]
      exact ⟨{ m with buf, innermost := b }, rfl, hholds, h.parents.keeps hplace hkeeps⟩
    | some opened =>
      obtain ⟨k, dc⟩ := opened
      obtain ⟨buf, b, child, hrun, hholds, hsuspended, hplace, hkeeps⟩ := hspec
      rw [hrun]
      exact ⟨{ buf, innermost := child, parents := b :: m.parents }, rfl, hholds, hsuspended,
        h.parents.keeps hplace hkeeps⟩
  | end_child =>
    obtain ⟨buf, child, bs⟩ := m
    obtain ⟨dc, ds⟩ := s
    obtain ⟨hholds, hparents⟩ := h
    cases bs with
    | nil =>
      cases ds with
      | nil => rfl
      | cons f ds => exact hparents.elim
    | cons b bs =>
      cases ds with
      | nil => exact hparents.elim
      | cons f ds =>
        obtain ⟨d, asArray, k⟩ := f
        obtain ⟨hsuspended, hwaiting⟩ := hparents
        obtain ⟨buf', b', hrun, hended, hplace, hkeeps⟩ := end_spec (ε := ε) hsuspended hholds
        refine ⟨{ buf := buf', innermost := b', parents := bs }, ?_, hended,
          hwaiting.keeps hplace hkeeps⟩
        simp only [Buffered.step, hrun, Outcome.ok_bind]

/-- A sequence of calls does the same on both levels. -/
theorem run_spec (h : Represents m s) (fresh : Nat → Nat → UInt8) {calls : List Call}
    (hcalls : ∀ call ∈ calls, call.Valid) :
    match s.run calls with
    | none => (m.run fresh calls : Outcome ε _) = .ok none
    | some (oks, s') =>
      ∃ m', (m.run fresh calls : Outcome ε _) = .ok (some (oks, m')) ∧ Represents m' s' := by
  induction calls generalizing m s with
  | nil => exact ⟨m, rfl, h⟩
  | cons call calls ih =>
    have hstep := step_spec (ε := ε) h (fresh calls.length) (hcalls call (List.mem_cons_self ..))
    rw [Building.run, Buffered.run]
    cases hone : s.step call with
    | none =>
      rw [hone] at hstep
      rw [hstep]
      rfl
    | some stepped =>
      obtain ⟨ok, s₁⟩ := stepped
      rw [hone] at hstep
      obtain ⟨m₁, hrun, hrep⟩ := hstep
      have hrest := ih hrep fun c hc => hcalls c (List.mem_cons_of_mem _ hc)
      cases hmany : s₁.run calls with
      | none =>
        rw [hmany] at hrest
        simp only [hrun, hrest, hmany, Option.map_none, Outcome.ok_bind]
      | some ran =>
        obtain ⟨oks, s'⟩ := ran
        rw [hmany] at hrest
        obtain ⟨m', hruns, hrep'⟩ := hrest
        simp only [hmany, Option.map_some]
        refine ⟨m', ?_, hrep'⟩
        simp only [hrun, hruns, Outcome.ok_bind]

/-- Whatever a program calls on a new document, with children opened and closed as it
likes, every call returns what the model of the documents says, the buffer is
allocated within its bound and nothing is read or written outside of it, and the
innermost document in it has exactly the bytes of the one under construction.
Memory that is allocated may hold anything. -/
theorem buffer_holds_document (fresh : Nat → Nat → UInt8) (init : Nat → UInt8) {calls : List Call}
    (hcalls : ∀ call ∈ calls, call.Valid) :
    match Building.bson_init.run calls with
    | none => ((Buffered.bson_init init).run fresh calls : Outcome ε _) = .ok none
    | some (oks, s) =>
      ∃ m, ((Buffered.bson_init init).run fresh calls : Outcome ε _) = .ok (some (oks, m)) ∧
        m.data = bson_get_data s.innermost.fields ∧ m.innermost.len = docSize s.innermost.fields ∧
        m.parents.length = s.parents.length ∧ m.buf.length ≤ BSON_GROW_LIMIT := by
  have hspec := run_spec (ε := ε) (represents_init init) fresh hcalls
  cases hrun : Building.bson_init.run calls with
  | none =>
    rw [hrun] at hspec
    exact hspec
  | some ran =>
    obtain ⟨oks, s⟩ := ran
    rw [hrun] at hspec
    obtain ⟨m, hbuffered, hrep⟩ := hspec
    exact ⟨m, hbuffered, hrep.data_eq, hrep.innermost.len, hrep.parents.length_eq,
      hrep.innermost.le⟩

theorem buffer_holds_document_nested :
    ∃ m, ((Buffered.bson_init fun _ => 0).run (fun _ _ => 255)
        [.begin_child true (bytes "a"), .append (bytes "0") (.int32 7), .end_child,
          .concat [(bytes "b", .null)]] : Outcome Unit _) =
        .ok (some ([true, true, true, true], m)) ∧
      m.data = bson_get_data
        [(bytes "a", .array [(bytes "0", .int32 7)]), (bytes "b", .null)] ∧
      m.innermost.len = 23 ∧ m.parents.length = 0 ∧ m.buf.length ≤ BSON_GROW_LIMIT := by
  have hcalls : ∀ call ∈ [Call.begin_child true (bytes "a"), .append (bytes "0") (.int32 7),
      .end_child, .concat [(bytes "b", .null)]], call.Valid := by
    intro call hcall
    simp only [List.mem_cons, List.not_mem_nil, or_false] at hcall
    rcases hcall with rfl | rfl | rfl | rfl
    · exact countedChild_of_nulFree (by decide) (by decide)
    · exact ⟨trivial, counted_of_nulFree (by decide) (by decide) (by decide)⟩
    · trivial
    · exact ⟨rfl, by decide⟩
  exact buffer_holds_document (fun _ _ => 255) (fun _ => 0) hcalls

end

end Vklib.Bson
