import Vklib.Base.StringFunctions
import Vklib.Mongo.EncodeSpec
import Vklib.Mongo.ErrorStack

/-!
# Where an encoding fails

`TableFails` and `ValueFails` say where the encoder stops: the places that lead
from the root to the first value that cannot be encoded, in the order of the
traversal, and the reason.  Everything before that value is encoded, and this is
how the first one is told from the others.

`appendTableFull_failed_iff` says that a failure of the encoder is such a path,
with one text for each place and the reason as the last one.

Over it, `errors_name_the_place_iff` joins the path with the invariant of the
stack: the topmost `*nerr` slots are these texts, and nothing else is among
them.  A text is a C string with an `int` in it, so it names its place when the
key has no NUL and the index is no larger than an `int`.
-/

namespace Vklib.Mongo

open Vklib.Lua Vklib.Bson

/-! ## The recursion without fuel -/

theorem appendValue_congr (E : Env) {table table' : AppendTable} {top : Nat}
    (htable : table top = table' top) : appendValue E table top = appendValue E table' top := by
  funext s v b key
  unfold appendValue appendSwitch appendNested
  rw [htable]

/-- Fuel does not matter when there is enough. -/
theorem appendTable_fuel (E : Env) {fuel fuel' top : Nat} (hpos : 0 < fuel) (hpos' : 0 < fuel')
    (hfuel : MAXSTACK < fuel + top) (hfuel' : MAXSTACK < fuel' + top) :
    appendTable E fuel top = appendTable E fuel' top := by
  induction fuel generalizing fuel' top with
  | zero => omega
  | succ fuel ih =>
    cases fuel' with
    | zero => omega
    | succ fuel' =>
      funext s r b len
      unfold appendTable
      by_cases htop : MAXSTACK ≤ top
      · rw [if_pos htop, if_pos htop]
      have hvalue : ∀ n, 0 < n → appendValue E (appendTable E fuel) (top + n) =
          appendValue E (appendTable E fuel') (top + n) := fun n hn =>
        appendValue_congr E
          (ih (by omega) (by omega) (by omega) (by omega))
      unfold tableLoop
      rw [hvalue 1 (by omega), hvalue 2 (by omega)]

theorem appendTableFull_succ (E : Env) (top : Nat) :
    appendTableFull E top = appendTable E (MAXSTACK + 1 + 1) top :=
  appendTable_fuel E (by omega) (by omega) (by omega) (by omega)

/-- The checks at the entry of `appendTable` fail, or the loop runs. -/
theorem appendTableFull_eq (E : Env) (top : Nat) (s : Enc) (r : Ref) (b : Target) (len : Int) :
    appendTableFull E top s r b len =
      if MAXSTACK ≤ top then .error (.text (bytes "recursion detected"))
      else if (s.heap.get r).metatable.isSome then
        .error (.text (bytes "table with metatable unexpected"))
      else if r ∈ s.ridx then .error (.text (bytes "circular reference detected"))
      else tableLoop (appendValue E (appendTableFull E)) top { s with ridx := insert r s.ridx }
        r b len >>= fun p => .ok ({ p.1 with ridx := p.1.ridx.erase r }, p.2) := by
  rw [appendTableFull_succ, appendTable]
  by_cases htop : MAXSTACK ≤ top
  · rw [if_pos htop, if_pos htop]
  · have hroom : checkstack top LUA_MINSTACK = true := by
      unfold MAXSTACK at htop
      refine decide_eq_true ?_
      unfold EXTRA_STACK LUAI_MAXSTACK LUA_MINSTACK
      omega
    rw [if_pos hroom]
    rfl

/-! ## Places -/

/-- A place of a table. -/
inductive Place where
  | index (i : Nat)
  | key (k : Bytes)

/-- The text that names a place. -/
def Place.segment : Place → Bytes
  | .index i => bytes "[" ++ fmtInt i ++ bytes "] => "
  | .key k => bytes "[\"" ++ k ++ bytes "\"] => "

/-- The text that `error` makes for a place: `%d` takes an `int` and `%s` a C
string. -/
def Place.printed : Place → Bytes
  | .index i => bytes "[" ++ fmtInt (cInt i) ++ bytes "] => "
  | .key k => bytes "[\"" ++ cString k ++ bytes "\"] => "

/-- The index is an `int` or the key a C string. -/
def Place.Prints : Place → Prop
  | .index i => i < 2 ^ 31
  | .key k => NulFree k

theorem fmtInt_natCast (n : Nat) : fmtInt n = decimal n := by
  rw [fmtInt, if_neg (by omega), Int.natAbs_natCast]
  rfl

theorem decimal_injective {n m : Nat} (h : decimal n = decimal m) : n = m := by
  rw [← decimalValue_decimal n, h, decimalValue_decimal]

/-- An index is printed right only when it is an `int`. -/
theorem fmtInt_cInt_eq_iff {n : Nat} : fmtInt (cInt n) = fmtInt n ↔ n < 2 ^ 31 := by
  constructor
  · intro h
    rw [fmtInt_natCast] at h
    unfold cInt at h
    split at h
    · rw [fmtInt_natCast] at h
      have hmod := decimal_injective h
      omega
    · -- the minus sign is no digit
      rw [fmtInt, if_pos (by omega)] at h
      have hsign : (45 : UInt8) ∈ decimal n := h ▸ List.mem_cons_self
      exact absurd (isdigit_of_mem_decimal hsign) (by decide)
  · intro h
    rw [cInt_of_lt h]

theorem Place.printed_eq_segment_iff {p : Place} : p.printed = p.segment ↔ p.Prints := by
  cases p with
  | index i =>
    simp only [printed, segment, List.append_left_inj, List.append_right_inj]
    exact fmtInt_cInt_eq_iff
  | key k =>
    simp only [printed, segment, List.append_left_inj, List.append_right_inj]
    exact cString_eq_self_iff

/-! ## Failures -/

/-- The values for which there is no BSON, tables aside. -/
def Unexpected : LVal → Prop
  | .userdata _ _ => True
  | .host (.bson _) | .host (.objectID _) => False
  | .host _ => True
  | _ => False

/-- The document of a nested table, none when it was not begun. -/
def childOf (b : Target) (key : Bytes) : Option Target :=
  b.bind fun parent => (bson_append_begin parent key).map fun begun => begun.map Prod.snd

mutual
/-- `appendValue` stops at the first value that cannot be encoded, on the path
`path` from the value `v`, for the reason `reason`. -/
inductive ValueFails (E : Env) :
    Nat → Enc → LVal → Target → Bytes → List Place → Bytes → Prop where
  | toBSON {top : Nat} {s : Enc} {v : LVal} {b : Target} {key reason : Bytes}
      (hcall : transform E s.heap v = .error (.text reason)) :
      ValueFails E top s v b key [] reason
  | typed {top : Nat} {s : Enc} {v type : LVal} {b : Target} {key reason : Bytes} {h : Heap Host}
      {r : Ref} (htrans : transform E s.heap v = .ok (h, .table r))
      (htype : h.getmetafield (.table r) (bytes "__type") = type) (hne : type ≠ .nil)
      (hparams : appendBSONType E (top + 1) (tointeger E type).toUInt64.toUInt32 (h.get r) b key =
        .error (.text reason)) :
      ValueFails E top s v b key [] reason
  | unexpected {top : Nat} {s : Enc} {v w : LVal} {b : Target} {key : Bytes} {h : Heap Host}
      (htrans : transform E s.heap v = .ok (h, w)) (hw : Unexpected w) :
      ValueFails E top s v b key [] (typeName h w ++ bytes " unexpected")
  | table {top : Nat} {s : Enc} {v : LVal} {b child : Target} {key reason : Bytes} {h : Heap Host}
      {r : Ref} {len : Int} {path : List Place}
      (htrans : transform E s.heap v = .ok (h, .table r))
      (htype : h.getmetafield (.table r) (bytes "__type") = .nil)
      (hlen : getArrayLength E h r = .ok len) (hchild : childOf b key = some child)
      (hfails : TableFails E top { s with heap := h } r child len path reason) :
      ValueFails E top s v b key path reason

/-- The same for `appendTable` on the table `r`. -/
inductive TableFails (E : Env) :
    Nat → Enc → Ref → Target → Int → List Place → Bytes → Prop where
  | deep {top : Nat} {s : Enc} {r : Ref} {b : Target} {len : Int} (htop : MAXSTACK ≤ top) :
      TableFails E top s r b len [] (bytes "recursion detected")
  | metatable {top : Nat} {s : Enc} {r : Ref} {b : Target} {len : Int} (htop : top < MAXSTACK)
      (hmeta : (s.heap.get r).metatable.isSome) :
      TableFails E top s r b len [] (bytes "table with metatable unexpected")
  | circular {top : Nat} {s : Enc} {r : Ref} {b : Target} {len : Int} (htop : top < MAXSTACK)
      (hmeta : (s.heap.get r).metatable = none) (hmem : r ∈ s.ridx) :
      TableFails E top s r b len [] (bytes "circular reference detected")
  | element {top : Nat} {s s' : Enc} {r : Ref} {b b' : Target} {len : Int} {i : Nat}
      {path : List Place} {reason : Bytes} (hopen : Opens top s.ridx s.heap r) (hlen : len ≠ -1)
      (hi : i < len.toNat)
      (hbefore : arrayLoop (appendValue E (appendTableFull E) (top + 1)) r i 0
        { s with ridx := insert r s.ridx } b = .ok (s', b'))
      (hfails : ValueFails E (top + 1) s' ((s'.heap.get r).get (.int (i + 1))) b'
        (uint32_to_string i) path reason) :
      TableFails E top s r b len (.index (i + 1) :: path) reason
  | entry {top : Nat} {s s' : Enc} {r : Ref} {b b' : Target} {before after : List (Key × LVal)}
      {key : Bytes} {v : LVal} {path : List Place} {reason : Bytes}
      (hopen : Opens top s.ridx s.heap r)
      (hentries : (s.heap.get r).entries = before ++ (.str key, v) :: after)
      (hbefore : documentLoop (appendValue E (appendTableFull E) (top + 2)) before
        { s with ridx := insert r s.ridx } b = .ok (s', b'))
      (hfails : ValueFails E (top + 2) s' v b' key path reason) :
      TableFails E top s r b (-1) (.key key :: path) reason
  | badKey {top : Nat} {s s' : Enc} {r : Ref} {b b' : Target} {before after : List (Key × LVal)}
      {k : Key} {v : LVal} (hopen : Opens top s.ridx s.heap r)
      (hentries : (s.heap.get r).entries = before ++ (k, v) :: after)
      (hk : ∀ key, k ≠ .str key)
      (hbefore : documentLoop (appendValue E (appendTableFull E) (top + 2)) before
        { s with ridx := insert r s.ridx } b = .ok (s', b')) :
      TableFails E top s r b (-1) [] (bytes "string index expected, got " ++ keyTypeName k)
end

/-- The texts of a failure, from the outermost level to the innermost. -/
def printedPath (path : List Place) (reason : Bytes) : List Bytes :=
  path.map Place.printed ++ [reason]

/-! ## One level -/

theorem AppendError.within_eq_failed_iff {e : AppendError} {segment : Bytes} {texts : List Bytes} :
    e.within segment = .failed texts ↔ ∃ rest, e = .failed rest ∧ texts = segment :: rest := by
  cases e <;> simp [within, eq_comm]

theorem leaf_ne_error (s : Enc) (b : Target) (f : BsonT → Option (Bool × BsonT))
    (e : AppendError) :
    (do let b ← appendTo b f; (.ok (s, b) : Outcome AppendError (Enc × Target))) ≠ .error e := by
  cases b with
  | none => simp [appendTo]
  | some b =>
    rw [appendTo]
    cases f b <;> simp

/-- A typed value fails with one text. -/
theorem appendBSONType_failed {E : Env} {top : Nat} {type : UInt32} {t : Table Host} {b : Target}
    {key : Bytes} {texts : List Bytes}
    (h : appendBSONType E top type t b key = .error (.failed texts)) :
    ∃ reason, texts = [reason] ∧
      appendBSONType E top type t b key = .error (.text reason) := by
  rw [h]
  rw [OnStack.appendBSONType_eq] at h
  split at h
  · obtain ⟨-, -, htext⟩ := Outcome.mapError_eq_error_iff.mp h
    exact ⟨_, (AppendError.failed.inj htext).symm, congrArg _ htext.symm⟩
  · simp at h

/-- A metamethod fails with one text. -/
theorem transform_failed {E : Env} {h : Heap Host} {v : LVal} {texts : List Bytes}
    (hfails : transform E h v = .error (.failed texts)) : ∃ reason, texts = [reason] := by
  unfold transform at hfails
  split at hfails
  · simp at hfails
  · split at hfails
    · simp at hfails
    · exact ⟨_, (AppendError.failed.inj (Outcome.error.inj hfails)).symm⟩

theorem appendNested_failed_iff {E : Env} {table : AppendTable} {top : Nat} {s : Enc} {r : Ref}
    {b : Target} {key : Bytes} {texts : List Bytes} :
    appendNested E table top s r b key = .error (.failed texts) ↔
      ∃ len child, getArrayLength E s.heap r = .ok len ∧ childOf b key = some child ∧
        table top s r child len = .error (.failed texts) := by
  unfold appendNested childOf
  cases getArrayLength E s.heap r with
  | error e => simp
  | ok len =>
    cases b with
    | none => simp
    | some parent =>
      dsimp only [Option.bind_some]
      rcases bson_append_begin parent key with - | - | ⟨k, child⟩
      · simp
      · simp [Outcome.bind_eq_error_iff]
      · dsimp only [Option.map_some]
        constructor
        · intro h
          rcases Outcome.bind_eq_error_iff.mp h with hrun | ⟨⟨s', c⟩, -, hclosed⟩
          · exact ⟨len, some child, rfl, rfl, hrun⟩
          · cases c <;> simp at hclosed
        · rintro ⟨len', child, hlen, hchild, hrun⟩
          obtain rfl := Except.ok.inj hlen
          obtain rfl := Option.some.inj hchild
          exact Outcome.bind_eq_error_iff.mpr (Or.inl hrun)

theorem appendSwitch_failed_iff {E : Env} {table : AppendTable} {top : Nat} {s : Enc} {w : LVal}
    {b : Target} {key : Bytes} {texts : List Bytes} :
    appendSwitch E table top s w b key = .error (.failed texts) ↔
      (Unexpected w ∧ texts = [typeName s.heap w ++ bytes " unexpected"]) ∨
      (∃ r, w = .table r ∧ s.heap.getmetafield w (bytes "__type") ≠ .nil ∧
        appendBSONType E (top + 1)
          (tointeger E (s.heap.getmetafield w (bytes "__type"))).toUInt64.toUInt32
          (s.heap.get r) b key = .error (.failed texts)) ∨
      ∃ r, w = .table r ∧ s.heap.getmetafield w (bytes "__type") = .nil ∧
        appendNested E table top s r b key = .error (.failed texts) := by
  have hleaf := fun f => leaf_ne_error s b f (.failed texts)
  unfold appendSwitch
  cases w with
  | nil | bool | str => simpa [Unexpected] using hleaf _
  | int i =>
    dsimp only
    split <;> simpa [Unexpected] using hleaf _
  | flt x =>
    dsimp only
    cases x.toInteger? with
    | none => simpa [Unexpected] using hleaf _
    | some i =>
      dsimp only
      split <;> simpa [Unexpected] using hleaf _
  | table r =>
    dsimp only
    generalize s.heap.getmetafield (.table r) (bytes "__type") = type
    cases type <;> simp [Unexpected, Outcome.bind_eq_error_iff]
  | userdata => simp [Unexpected, AppendError.text, eq_comm]
  | host u =>
    cases u with
    | bson doc =>
      dsimp only
      split <;> simpa [Unexpected] using hleaf _
    | objectID id => simpa [Unexpected] using hleaf _
    | _ => simp [Unexpected, AppendError.text, eq_comm]

/-- A loop over an array fails at the first element that fails. -/
theorem arrayLoop_failed_iff
    {value : Enc → LVal → Target → Bytes → Outcome AppendError (Enc × Target)} {r : Ref}
    {n i : Nat} {s : Enc} {b : Target} {texts : List Bytes} :
    arrayLoop value r n i s b = .error (.failed texts) ↔
      ∃ j s' b' rest, j < n ∧ arrayLoop value r j i s b = .ok (s', b') ∧
        value s' ((s'.heap.get r).get (.int ((i + j : Nat) + 1))) b' (uint32_to_string (i + j)) =
          .error (.failed rest) ∧
        texts = (Place.index (i + j + 1)).printed :: rest := by
  induction n generalizing i s b with
  | zero => simp [arrayLoop]
  | succ n ih =>
    rw [arrayLoop, Outcome.bind_eq_error_iff]
    constructor
    · rintro (hfirst | ⟨⟨s₁, b₁⟩, hfirst, hrest⟩)
      · obtain ⟨e, hvalue, hwithin⟩ := Outcome.mapError_eq_error_iff.mp hfirst
        obtain ⟨rest, rfl, rfl⟩ := AppendError.within_eq_failed_iff.mp hwithin
        exact ⟨0, s, b, rest, by omega, rfl, hvalue, rfl⟩
      · obtain ⟨j, s', b', rest, hj, hbefore, hvalue, rfl⟩ := ih.mp hrest
        have hij : i + 1 + j = i + (j + 1) := by omega
        rw [hij] at hvalue
        refine ⟨j + 1, s', b', rest, by omega, ?_, hvalue, by rw [hij]⟩
        rw [arrayLoop, hfirst]
        exact hbefore
    · rintro ⟨j, s', b', rest, hj, hbefore, hvalue, rfl⟩
      cases j with
      | zero =>
        obtain ⟨rfl, rfl⟩ := Outcome.ok_prod_inj hbefore
        refine Or.inl (Outcome.mapError_eq_error_iff.mpr ⟨_, hvalue, rfl⟩)
      | succ j =>
        rw [arrayLoop] at hbefore
        obtain ⟨⟨s₁, b₁⟩, hfirst, hmore⟩ := Outcome.bind_eq_ok_iff.mp hbefore
        have hij : i + (j + 1) = i + 1 + j := by omega
        rw [hij] at hvalue
        refine Or.inr ⟨(s₁, b₁), hfirst, ?_⟩
        exact ih.mpr ⟨j, s', b', rest, by omega, hmore, hvalue, by rw [hij]⟩

/-- A loop over a document fails at the first entry that fails or whose key is no
string. -/
theorem documentLoop_failed_iff
    {value : Enc → LVal → Target → Bytes → Outcome AppendError (Enc × Target)}
    {es : List (Key × LVal)} {s : Enc} {b : Target} {texts : List Bytes} :
    documentLoop value es s b = .error (.failed texts) ↔
      ∃ before k v after s' b', es = before ++ (k, v) :: after ∧
        documentLoop value before s b = .ok (s', b') ∧
        ((∃ key rest, k = .str key ∧ value s' v b' key = .error (.failed rest) ∧
            texts = (Place.key key).printed :: rest) ∨
          ((∀ key, k ≠ .str key) ∧
            texts = [bytes "string index expected, got " ++ keyTypeName k])) := by
  induction es generalizing s b with
  | nil => simp [documentLoop]
  | cons e es ih =>
    obtain ⟨k, v⟩ := e
    constructor
    · intro h
      cases k with
      | str key =>
        rw [documentLoop, Outcome.bind_eq_error_iff] at h
        rcases h with hfirst | ⟨⟨s₁, b₁⟩, hfirst, hrest⟩
        · obtain ⟨e, hvalue, hwithin⟩ := Outcome.mapError_eq_error_iff.mp hfirst
          obtain ⟨rest, rfl, rfl⟩ := AppendError.within_eq_failed_iff.mp hwithin
          exact ⟨[], .str key, v, es, s, b, rfl, rfl, Or.inl ⟨key, rest, rfl, hvalue, rfl⟩⟩
        · obtain ⟨before, k', v', after, s', b', rfl, hbefore, hfails⟩ := ih.mp hrest
          refine ⟨(.str key, v) :: before, k', v', after, s', b', rfl, ?_, hfails⟩
          rw [documentLoop, hfirst]
          exact hbefore
      | int i =>
        have htexts := AppendError.failed.inj (Outcome.error.inj h)
        exact ⟨[], .int i, v, es, s, b, rfl, rfl, Or.inr ⟨by simp, htexts.symm⟩⟩
      | other name id =>
        have htexts := AppendError.failed.inj (Outcome.error.inj h)
        exact ⟨[], .other name id, v, es, s, b, rfl, rfl, Or.inr ⟨by simp, htexts.symm⟩⟩
    · rintro ⟨before, k', v', after, s', b', hes, hbefore, hfails⟩
      cases before with
      | nil =>
        obtain ⟨hkv, rfl⟩ := List.cons.inj hes
        obtain ⟨rfl, rfl⟩ := Prod.mk.inj hkv
        obtain ⟨rfl, rfl⟩ := Outcome.ok_prod_inj hbefore
        rcases hfails with ⟨key, rest, rfl, hvalue, rfl⟩ | ⟨hk, rfl⟩
        · rw [documentLoop, Outcome.bind_eq_error_iff]
          exact Or.inl (Outcome.mapError_eq_error_iff.mpr ⟨_, hvalue, rfl⟩)
        · cases k with
          | str key => exact absurd rfl (hk key)
          | _ => rfl
      | cons e before =>
        obtain ⟨rfl, rfl⟩ := List.cons.inj hes
        cases k with
        | str key =>
          rw [documentLoop] at hbefore ⊢
          obtain ⟨⟨s₁, b₁⟩, hfirst, hmore⟩ := Outcome.bind_eq_ok_iff.mp hbefore
          refine Outcome.bind_eq_error_iff.mpr (Or.inr ⟨(s₁, b₁), hfirst, ?_⟩)
          exact ih.mpr ⟨before, k', v', after, s', b', rfl, hmore, hfails⟩
        | int i => simp [documentLoop] at hbefore
        | other name id => simp [documentLoop] at hbefore

/-! ## Every level -/

/-- A failure of `appendValue` is a path, when the failures of the tables below
are. -/
theorem valueFails_of_failed {E : Env} {top : Nat}
    (htable : ∀ {s : Enc} {r : Ref} {b : Target} {len : Int} {texts : List Bytes},
      appendTableFull E top s r b len = .error (.failed texts) →
        ∃ path reason, TableFails E top s r b len path reason ∧ texts = printedPath path reason)
    {s : Enc} {v : LVal} {b : Target} {key : Bytes} {texts : List Bytes}
    (h : appendValue E (appendTableFull E) top s v b key = .error (.failed texts)) :
    ∃ path reason, ValueFails E top s v b key path reason ∧ texts = printedPath path reason := by
  rw [appendValue, Outcome.bind_eq_error_iff] at h
  rcases h with hcall | ⟨⟨h', w⟩, htrans, hswitch⟩
  · obtain ⟨reason, rfl⟩ := transform_failed hcall
    exact ⟨[], reason, .toBSON hcall, rfl⟩
  · rcases appendSwitch_failed_iff.mp hswitch with
      ⟨hw, rfl⟩ | ⟨r, rfl, hne, htyped⟩ | ⟨r, rfl, htype, hnested⟩
    · exact ⟨[], _, .unexpected htrans hw, rfl⟩
    · obtain ⟨reason, rfl, hparams⟩ := appendBSONType_failed htyped
      exact ⟨[], reason, .typed htrans rfl hne hparams, rfl⟩
    · obtain ⟨len, child, hlen, hchild, hrun⟩ := appendNested_failed_iff.mp hnested
      obtain ⟨path, reason, hfails, htexts⟩ := htable hrun
      exact ⟨path, reason, .table htrans htype hlen hchild hfails, htexts⟩

/-- A failure of `appendTable` is a path to the first failure below.  The
induction is on the slots that are left. -/
theorem tableFails_of_failed {E : Env} (n : Nat) {top : Nat} (hn : MAXSTACK < n + top) {s : Enc}
    {r : Ref} {b : Target} {len : Int} {texts : List Bytes}
    (h : appendTableFull E top s r b len = .error (.failed texts)) :
    ∃ path reason, TableFails E top s r b len path reason ∧ texts = printedPath path reason := by
  induction n generalizing top s r b len texts with
  | zero =>
    rw [appendTableFull_eq, if_pos (by omega)] at h
    obtain rfl := AppendError.failed.inj (Outcome.error.inj h)
    exact ⟨[], _, .deep (by omega), rfl⟩
  | succ n ih =>
    rw [appendTableFull_eq] at h
    split at h
    · rename_i htop
      obtain rfl := AppendError.failed.inj (Outcome.error.inj h)
      exact ⟨[], _, .deep htop, rfl⟩
    rename_i htop
    have hbelow : top < MAXSTACK := by omega
    split at h
    · rename_i hmeta
      obtain rfl := AppendError.failed.inj (Outcome.error.inj h)
      exact ⟨[], _, .metatable hbelow hmeta, rfl⟩
    rename_i hmeta
    have hplain : (s.heap.get r).metatable = none := by simpa using hmeta
    split at h
    · rename_i hmem
      obtain rfl := AppendError.failed.inj (Outcome.error.inj h)
      exact ⟨[], _, .circular hbelow hplain hmem, rfl⟩
    rename_i hfresh
    have hopen : Opens top s.ridx s.heap r := ⟨hbelow, hplain, hfresh⟩
    rcases Outcome.bind_eq_error_iff.mp h with hloop | ⟨p, -, hok⟩
    · unfold tableLoop at hloop
      split at hloop
      · rename_i hlen
        obtain ⟨i, s', b', rest, hi, hbefore, hvalue, rfl⟩ := arrayLoop_failed_iff.mp hloop
        rw [Nat.zero_add] at hvalue
        obtain ⟨path, reason, hfails, rfl⟩ := valueFails_of_failed (ih (by omega)) hvalue
        refine ⟨_, reason, .element hopen hlen hi hbefore hfails, ?_⟩
        rw [Nat.zero_add]
        rfl
      · rename_i hlen
        obtain rfl := not_not.mp hlen
        obtain ⟨before, k, v, after, s', b', hentries, hbefore, hcase⟩ :=
          documentLoop_failed_iff.mp hloop
        rcases hcase with ⟨key, rest, rfl, hvalue, rfl⟩ | ⟨hk, rfl⟩
        · obtain ⟨path, reason, hfails, rfl⟩ := valueFails_of_failed (ih (by omega)) hvalue
          exact ⟨_, reason, .entry hopen hentries hbefore hfails, rfl⟩
        · exact ⟨[], _, .badKey hopen hentries hk hbefore, rfl⟩
    · simp at hok

/-- Past the checks at its entry, `appendTable` fails as its loop does. -/
theorem Opens.appendTableFull_failed {E : Env} {top : Nat} {s : Enc} {r : Ref}
    (hopen : Opens top s.ridx s.heap r) {b : Target} {len : Int} {texts : List Bytes}
    (hloop : tableLoop (appendValue E (appendTableFull E)) top
      { s with ridx := insert r s.ridx } r b len = .error (.failed texts)) :
    appendTableFull E top s r b len = .error (.failed texts) := by
  rw [appendTableFull_eq, if_neg (Nat.not_le_of_lt hopen.below), hopen.plain,
    Option.isSome_none, if_neg Bool.false_ne_true, if_neg hopen.fresh, hloop]
  rfl

/-- A path is a failure of `appendValue`, when the paths of the tables below are. -/
theorem ValueFails.failed {E : Env} {top : Nat}
    (htable : ∀ {s : Enc} {r : Ref} {b : Target} {len : Int} {path : List Place} {reason : Bytes},
      TableFails E top s r b len path reason →
        appendTableFull E top s r b len = .error (.failed (printedPath path reason)))
    {s : Enc} {v : LVal} {b : Target} {key : Bytes} {path : List Place} {reason : Bytes}
    (h : ValueFails E top s v b key path reason) :
    appendValue E (appendTableFull E) top s v b key = .error (.failed (printedPath path reason)) := by
  rw [appendValue, Outcome.bind_eq_error_iff]
  cases h with
  | toBSON hcall => exact Or.inl hcall
  | typed htrans htype hne hparams =>
    subst htype
    exact Or.inr ⟨_, htrans, appendSwitch_failed_iff.mpr (Or.inr (Or.inl ⟨_, rfl, hne, hparams⟩))⟩
  | unexpected htrans hw =>
    exact Or.inr ⟨_, htrans, appendSwitch_failed_iff.mpr (Or.inl ⟨hw, rfl⟩)⟩
  | table htrans htype hlen hchild hfails =>
    have hnested := appendNested_failed_iff.mpr ⟨_, _, hlen, hchild, htable hfails⟩
    exact Or.inr ⟨_, htrans, appendSwitch_failed_iff.mpr (Or.inr (Or.inr ⟨_, rfl, htype, hnested⟩))⟩

/-- A path is a failure of `appendTable`, with a text for each place. -/
theorem TableFails.failed {E : Env} (n : Nat) {top : Nat} (hn : MAXSTACK < n + top) {s : Enc}
    {r : Ref} {b : Target} {len : Int} {path : List Place} {reason : Bytes}
    (h : TableFails E top s r b len path reason) :
    appendTableFull E top s r b len = .error (.failed (printedPath path reason)) := by
  induction n generalizing top s r b len path reason with
  | zero =>
    cases h with
    | deep htop =>
      rw [appendTableFull_eq, if_pos htop]
      rfl
    | metatable htop _ | circular htop _ _ => omega
    | element hopen _ _ _ _ | entry hopen _ _ _ | badKey hopen _ _ _ =>
      have hbelow := hopen.below
      omega
  | succ n ih =>
    cases h with
    | deep htop =>
      rw [appendTableFull_eq, if_pos htop]
      rfl
    | metatable htop hmeta =>
      rw [appendTableFull_eq, if_neg (Nat.not_le_of_lt htop), if_pos hmeta]
      rfl
    | circular htop hmeta hmem =>
      rw [appendTableFull_eq, if_neg (Nat.not_le_of_lt htop), hmeta, Option.isSome_none,
        if_neg Bool.false_ne_true, if_pos hmem]
      rfl
    | @element _ _ s' _ _ b' _ i rest _ hopen hlen hi hbefore hfails =>
      refine hopen.appendTableFull_failed ?_
      rw [tableLoop, if_pos hlen]
      refine arrayLoop_failed_iff.mpr ⟨i, s', b', printedPath rest reason, hi, hbefore, ?_, ?_⟩
      · rw [Nat.zero_add]
        exact hfails.failed (ih (by omega))
      · rw [Nat.zero_add]
        rfl
    | entry hopen hentries hbefore hfails =>
      refine hopen.appendTableFull_failed ?_
      rw [tableLoop, if_neg (by simp)]
      exact documentLoop_failed_iff.mpr ⟨_, _, _, _, _, _, hentries, hbefore,
        Or.inl ⟨_, _, rfl, hfails.failed (ih (by omega)), rfl⟩⟩
    | badKey hopen hentries hk hbefore =>
      refine hopen.appendTableFull_failed ?_
      rw [tableLoop, if_neg (by simp)]
      exact documentLoop_failed_iff.mpr ⟨_, _, _, _, _, _, hentries, hbefore, Or.inr ⟨hk, rfl⟩⟩

/-- The failures of an encoder are its paths. -/
theorem appendTableFull_failed_iff {E : Env} {top : Nat} {s : Enc} {r : Ref} {b : Target}
    {len : Int} {texts : List Bytes} :
    appendTableFull E top s r b len = .error (.failed texts) ↔
      ∃ path reason, TableFails E top s r b len path reason ∧ texts = printedPath path reason := by
  constructor
  · exact tableFails_of_failed (MAXSTACK + 1) (by omega)
  · rintro ⟨path, reason, hfails, rfl⟩
    exact hfails.failed (MAXSTACK + 1) (by omega)

/-! ## The stack at `lua_concat` -/

section stack

open OnStack (Item Frame)

/-- The texts that name a path and its reason. -/
def namedPath (path : List Place) (reason : Bytes) : List Bytes :=
  path.map Place.segment ++ [reason]

/-- The error that an entry point raises names the place: at the `lua_concat`,
the topmost `*nerr` slots are the messages, one for each place from the
outermost up and then the reason, and the text is what they say together. -/
structure NamesThePlace (E : Env) (stack : List Item) (h : Heap Host) (ridx : LVal) (idx : Nat)
    (b : BsonT) (s : Frame) (path : List Place) (reason : Bytes) : Prop where
  count : s.nerr = path.length + 1
  messages : s.stack.take s.nerr = ((namedPath path reason).map Item.message).reverse
  raised : OnStack.encodeTable E stack h ridx idx b =
    .error (.argument idx (namedPath path reason).flatten)

theorem printedPath_eq_namedPath_iff {path : List Place} {reason : Bytes} :
    printedPath path reason = namedPath path reason ↔ ∀ p ∈ path, p.Prints := by
  rw [printedPath, namedPath, List.append_left_inj, List.map_inj_left]
  exact forall₂_congr fun p _ => Place.printed_eq_segment_iff

/-- What is on the stack when the encoder has returned false to an entry point:
the messages, what the levels left, and what was there. -/
theorem leaves_of_returned {E : Env} {stack : List Item} {h : Heap Host} {ridx : LVal} {idx : Nat}
    {r : Ref} {b : Target} {len : Int} {s : Frame}
    (htable : slot stack idx = some (.value (.table r)))
    (hrun : OnStack.appendTableFull E (OnStack.entry stack h ridx) idx b len =
      .error (.returned s)) :
    ∃ texts, appendTableFull E (stack.length + 1) { heap := h, ridx := ∅ } r b len =
        .error (.failed texts) ∧
      OnStack.Leaves (.value ridx :: stack) texts s := by
  have hsim := OnStack.simulates_appendTableFull E (OnStack.entry stack h ridx) idx r b len rfl
    (slot_append htable [_])
  rw [hrun] at hsim
  generalize hy : appendTableFull E (OnStack.entry stack h ridx).top
    (OnStack.entry stack h ridx).enc r b len = y at hsim
  cases hsim with
  | failed hleaves => exact ⟨_, hy, hleaves⟩

/-- When a table cannot be encoded, the encoder stops at the first value that
cannot, and the topmost `*nerr` slots are the messages of the path to it and
nothing else.  They name the path exactly when every key on it is without NUL
and every index an `int`. -/
theorem errors_name_the_place_iff {E : Env} {stack : List Item} {h : Heap Host} {ridx : LVal}
    {idx : Nat} {r : Ref} {b : BsonT} {len : Int} {s : Frame}
    (htable : slot stack idx = some (.value (.table r))) (hlen : getArrayLength E h r = .ok len)
    (hrun : OnStack.appendTableFull E (OnStack.entry stack h ridx) idx (some b) len =
      .error (.returned s)) :
    (∃ path reason,
      TableFails E (stack.length + 1) { heap := h, ridx := ∅ } r (some b) len path reason) ∧
    ∀ path reason,
      TableFails E (stack.length + 1) { heap := h, ridx := ∅ } r (some b) len path reason →
        s.stack.take s.nerr = ((printedPath path reason).map Item.message).reverse ∧
        (NamesThePlace E stack h ridx idx b s path reason ↔ ∀ p ∈ path, p.Prints) := by
  obtain ⟨texts, hfailed, hleaves⟩ := leaves_of_returned htable hrun
  constructor
  · obtain ⟨path, reason, hfails, -⟩ := appendTableFull_failed_iff.mp hfailed
    exact ⟨path, reason, hfails⟩
  · intro path reason hfails
    have htexts : texts = printedPath path reason := by
      have hpath := hfails.failed (MAXSTACK + 1) (by omega)
      rw [hfailed] at hpath
      exact AppendError.failed.inj (Outcome.error.inj hpath)
    subst htexts
    have htake := hleaves.take
    refine ⟨htake, ?_⟩
    rw [← printedPath_eq_namedPath_iff]
    constructor
    · intro hnames
      have hmessages := List.reverse_injective (htake.symm.trans hnames.messages)
      exact List.map_injective_iff.mpr (fun _ _ heq => Item.message.inj heq) hmessages
    · intro hnamed
      refine ⟨?_, by rw [htake, hnamed], ?_⟩
      · rw [hleaves.1, printedPath, List.length_append, List.length_map, List.length_singleton]
      · rw [← hnamed]
        exact hleaves.raised htable hlen hrun

/-- The stack of `mongo.bson`: the argument and the new userdata. -/
def bsonStack : List Item := [.value (.userdata 0 none), .value (.table 0)]

/-- A document whose field `a` is an array with a function in it. -/
def functionHeap : Heap Host :=
  [Table.empty.rawset (.str (bytes "a")) (.table 1),
    (Table.empty.rawset (.str (bytes "__array")) (.bool true)).rawset (.int 1)
      (.host (.luafunc 0))]

theorem errors_name_the_place_nested :
    ∃ s, OnStack.appendTableFull Env.bare (OnStack.entry bsonStack functionHeap (.table 2)) 1
        (some { limit := BSON_GROW_LIMIT, outer := 0, fields := [] }) (-1) =
          .error (.returned s) ∧
      (NamesThePlace Env.bare bsonStack functionHeap (.table 2) 1
          { limit := BSON_GROW_LIMIT, outer := 0, fields := [] } s
          [.key (bytes "a"), .index 1] (bytes "function unexpected") ↔
        ∀ p ∈ [Place.key (bytes "a"), .index 1], p.Prints) := by
  have helement : ∀ b, ValueFails Env.bare 6 ⟨functionHeap, {1, 0}⟩ (.host (.luafunc 0)) b
      (uint32_to_string 0) [] (bytes "function unexpected") := fun b =>
    .unexpected (w := .host (.luafunc 0)) rfl trivial
  have harray : ∀ b, TableFails Env.bare 5 ⟨functionHeap, {0}⟩ 1 b 1 [.index 1]
      (bytes "function unexpected") := fun b =>
    .element (i := 0) ⟨by decide, rfl, by decide⟩ (by decide) (by decide) rfl (helement b)
  have hentries : (Heap.get functionHeap 0).entries =
      [] ++ (.str (bytes "a"), .table 1) :: [] := rfl
  have hfails : TableFails Env.bare 3 ⟨functionHeap, ∅⟩ 0
      (some { limit := BSON_GROW_LIMIT, outer := 0, fields := [] }) (-1)
      [.key (bytes "a"), .index 1] (bytes "function unexpected") :=
    .entry ⟨by decide, rfl, by decide⟩ hentries rfl (.table rfl rfl rfl rfl (harray _))
  exact ⟨_, rfl, ((errors_name_the_place_iff rfl rfl rfl).2 _ _ hfails).2⟩

/-- A document whose field `a\0b` is a function. -/
def nulKeyHeap : Heap Host := [Table.empty.rawset (.str [97, 0, 98]) (.host (.luafunc 0))]

theorem nul_in_key_names_another :
    TableFails Env.bare 3 ⟨nulKeyHeap, ∅⟩ 0
      (some { limit := BSON_GROW_LIMIT, outer := 0, fields := [] }) (-1)
      [.key [97, 0, 98]] (bytes "function unexpected") ∧
    OnStack.encodeTable Env.bare bsonStack nulKeyHeap (.table 1) 1
        { limit := BSON_GROW_LIMIT, outer := 0, fields := [] } =
      .error (.argument 1 (bytes "[\"a\"] => function unexpected")) ∧
    ∀ s, ¬ NamesThePlace Env.bare bsonStack nulKeyHeap (.table 1) 1
      { limit := BSON_GROW_LIMIT, outer := 0, fields := [] } s
      [.key [97, 0, 98]] (bytes "function unexpected") := by
  have hraised : OnStack.encodeTable Env.bare bsonStack nulKeyHeap (.table 1) 1
        { limit := BSON_GROW_LIMIT, outer := 0, fields := [] } =
      .error (.argument 1 (bytes "[\"a\"] => function unexpected")) := rfl
  have hentries : (Heap.get nulKeyHeap 0).entries =
      [] ++ (.str [97, 0, 98], .host (.luafunc 0)) :: [] := rfl
  refine ⟨.entry ⟨by decide, rfl, by decide⟩ hentries rfl
    (.unexpected (w := .host (.luafunc 0)) rfl trivial), hraised, fun s hnames => ?_⟩
  have htext := hraised.symm.trans hnames.raised
  exact absurd (LuaError.argument.inj (Outcome.error.inj htext)).2 (by decide)

end stack

end Vklib.Mongo
