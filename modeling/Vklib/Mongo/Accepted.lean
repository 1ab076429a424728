import Vklib.Mongo.Embed
import Vklib.Mongo.Encoded
import Vklib.Mongo.Loss

/-!
# What the encoder accepts

`EncodesTable` gives a run of the encoder a tree, and `encodeTable_spec` says what is written
of it.  This file is the way back: a call of `mongo.bson` or of `b:append` that returns has
seen a tree.  The proof follows the calls as in `Encoded`: a typed value, a value, the two
loops, and by induction over the levels `appendTable`.

One kind of value returns without a tree: a regex whose pattern a script has taken away is
dropped together with a key that libbson refuses.  `Patterned` says that a heap has none.
-/

namespace Vklib.Mongo

open Vklib.Lua Vklib.Bson

/-- Every regex of a heap has its pattern. -/
def Patterned (E : Env) (h : Heap Host) : Prop :=
  ∀ r, (typeOf E h r).toNat = 0x0B → (tolstring E (param (h.get r) 1)).isSome

/-- Lua code leaves the regexes that it makes with their patterns. -/
def KeepsPatterns (E : Env) : Prop :=
  ∀ h f args, Patterned E h → Patterned E (h ++ (E.call h f args).1)

/-! ## Values -/

/-- A typed value that is appended has valid parameters. -/
theorem appendBSONType_accepted {E : Env} {top : Nat} {type : UInt32} {t : Table Host}
    {b result : Target} {key : Bytes}
    (hpattern : type.toNat = 0x0B → (tolstring E (param t 1)).isSome)
    (hrun : appendBSONType E top type t b key = .ok result) :
    checkstack top (LUA_MINSTACK + t.rawlen) = true ∧ ∃ x, typedValue E type t = some x := by
  rw [appendBSONType] at hrun
  split at hrun
  · rename_i hstack
    refine ⟨hstack, ?_⟩
    by_contra hnone
    rw [← Option.isSome_iff_exists, Option.not_isSome_iff_eq_none] at hnone
    unfold typedValue at hnone
    split at hnone <;> rename_i htype <;> try simp only [htype] at hrun
    case h_4 =>
      rw [Option.map_eq_none_iff.mp hnone] at hrun
      cases hrun
    case h_5 | h_9 =>
      rw [Option.map_eq_none_iff.mp hnone] at hrun
      cases hrun
    case h_7 =>
      have hsome := hpattern htype
      rw [Option.map_eq_none_iff.mp hnone] at hsome
      cases hsome
    case h_13 => cases hrun
    all_goals cases hnone
  · cases hrun

/-- What every step leaves as it was: the marks, and the patterns of the regexes. -/
structure KeepsMarks (E : Env) (s s' : Enc) : Prop where
  ridx : s'.ridx = s.ridx
  patterned : Patterned E s'.heap

/-- A level of the encoder that returns has opened a table and seen its tree. -/
def AcceptsTables (E : Env) (table : AppendTable) (top : Nat) : Prop :=
  ∀ ⦃s s' : Enc⦄ ⦃r : Ref⦄ ⦃b b' : Target⦄ ⦃len : Int⦄, Patterned E s.heap →
    getArrayLength E s.heap r = .ok len → table top s r b len = .ok (s', b') →
    KeepsMarks E s s' ∧ ∃ t, EncodesTable E top s.ridx s.heap r s'.heap t

/-- The same for a value. -/
def AcceptsValues (E : Env) (top : Nat)
    (value : Enc → LVal → Target → Bytes → Outcome AppendError (Enc × Target)) : Prop :=
  ∀ ⦃s s' : Enc⦄ ⦃v : LVal⦄ ⦃b b' : Target⦄ ⦃key : Bytes⦄, Patterned E s.heap →
    value s v b key = .ok (s', b') →
    KeepsMarks E s s' ∧ ∃ t, Encodes E top s.ridx s.heap v s'.heap t

section

variable {E : Env} {table : AppendTable} {top : Nat} {s s' : Enc} {v : LVal} {b b' : Target}
  {key : Bytes}

/-- A leaf that is appended keeps the state. -/
theorem eq_of_leaf {x : Outcome AppendError Target}
    (hrun : (do let b ← x; .ok (s, b)) = Outcome.ok (s', b')) : s' = s := by
  obtain ⟨_, -, hpair⟩ := Outcome.bind_eq_ok_iff.mp hrun
  exact (Outcome.ok_prod_inj hpair).1.symm

theorem appendNested_accepted {r : Ref} (htable : AcceptsTables E table top) (hheap : Patterned E s.heap)
    (hrun : appendNested E table top s r b key = .ok (s', b')) :
    KeepsMarks E s s' ∧ ∃ t, EncodesTable E top s.ridx s.heap r s'.heap t := by
  rw [appendNested] at hrun
  split at hrun
  · cases hrun
  · rename_i len hlen
    split at hrun
    · cases hrun
    split at hrun
    · cases hrun
    · obtain ⟨-, -, hundefined⟩ := Outcome.bind_eq_ok_iff.mp hrun
      cases hundefined
    · obtain ⟨⟨s₁, child⟩, hchild, hend⟩ := Outcome.bind_eq_ok_iff.mp hrun
      cases child with
      | none => cases hend
      | some child =>
        obtain ⟨rfl, -⟩ := Outcome.ok_prod_inj hend
        exact htable hheap hlen hchild

/-- The `switch` of `appendValue` returns on a leaf and on a table of its own. -/
theorem appendSwitch_accepted (htable : AcceptsTables E table top) (hheap : Patterned E s.heap)
    (hrun : appendSwitch E table top s v b key = .ok (s', b')) :
    KeepsMarks E s s' ∧ ((∃ x, leafValue E top s.heap v = some x ∧ s' = s) ∨
      ∃ r t, v = .table r ∧ s.heap.getmetafield v (bytes "__type") = .nil ∧
        EncodesTable E top s.ridx s.heap r s'.heap t) := by
  have hleaf : (∃ x, leafValue E top s.heap v = some x) → s' = s →
      KeepsMarks E s s' ∧ ((∃ x, leafValue E top s.heap v = some x ∧ s' = s) ∨
        ∃ r t, v = .table r ∧ s.heap.getmetafield v (bytes "__type") = .nil ∧
          EncodesTable E top s.ridx s.heap r s'.heap t) := by
    rintro ⟨x, hx⟩ rfl
    exact ⟨⟨rfl, hheap⟩, Or.inl ⟨x, hx, rfl⟩⟩
  cases v with
  | nil | bool | str => exact hleaf ⟨_, rfl⟩ (eq_of_leaf hrun)
  | int i =>
    refine hleaf ⟨_, rfl⟩ ?_
    simp only [appendSwitch] at hrun
    split at hrun <;> exact eq_of_leaf hrun
  | flt x =>
    simp only [appendSwitch] at hrun
    cases hint : x.toInteger? with
    | none =>
      rw [hint] at hrun
      exact hleaf ⟨.double x, by simp only [leafValue, hint]⟩ (eq_of_leaf hrun)
    | some i =>
      rw [hint] at hrun
      refine hleaf ⟨integerValue i, by simp only [leafValue, hint]⟩ ?_
      simp only at hrun
      split at hrun <;> exact eq_of_leaf hrun
  | table r =>
    simp only [appendSwitch] at hrun
    split at hrun
    · rename_i htype
      obtain ⟨hkeeps, t, ht⟩ := appendNested_accepted htable hheap hrun
      exact ⟨hkeeps, Or.inr ⟨r, t, rfl, htype, ht⟩⟩
    · rename_i htype
      obtain ⟨_, hx, -⟩ := Outcome.bind_eq_ok_iff.mp hrun
      obtain ⟨hstack, x, hvalue⟩ := appendBSONType_accepted (hheap r) hx
      refine hleaf ⟨x, ?_⟩ (eq_of_leaf hrun)
      simp only [leafValue]
      rw [if_pos hstack]
      exact hvalue
  | userdata id m => cases hrun
  | host u =>
    cases u with
    | bson doc =>
      refine hleaf ⟨_, rfl⟩ ?_
      simp only [appendSwitch] at hrun
      split at hrun <;> exact eq_of_leaf hrun
    | objectID id => exact hleaf ⟨_, rfl⟩ (eq_of_leaf hrun)
    | cfunc f => cases hrun
    | luafunc id => cases hrun
    | thread id => cases hrun
    | light id => cases hrun

theorem patterned_of_transform (hE : KeepsPatterns E) {h h' : Heap Host} {v v' : LVal}
    (hheap : Patterned E h) (hrun : transform E h v = .ok (h', v')) : Patterned E h' := by
  rw [transform] at hrun
  generalize h.getmetafield v (bytes "__toBSON") = f at hrun
  split at hrun
  · obtain ⟨rfl, -⟩ := Outcome.ok_prod_inj hrun
    exact hheap
  · have hcall := hE h f [v] hheap
    split at hrun
    · rename_i new v₁ hnew
      rw [hnew] at hcall
      obtain ⟨rfl, -⟩ := Outcome.ok_prod_inj hrun
      exact hcall
    · cases hrun

theorem acceptsValues_appendValue (hE : KeepsPatterns E) (htable : AcceptsTables E table top) :
    AcceptsValues E top (appendValue E table top) := by
  intro s s' v b b' key hheap hrun
  rw [appendValue] at hrun
  obtain ⟨⟨h₁, v₁⟩, htrans, hswitch⟩ := Outcome.bind_eq_ok_iff.mp hrun
  have hheap₁ : Patterned E ({ s with heap := h₁ } : Enc).heap :=
    patterned_of_transform hE hheap htrans
  obtain ⟨hkeeps, hseen⟩ := appendSwitch_accepted htable hheap₁ hswitch
  refine ⟨⟨hkeeps.ridx, hkeeps.patterned⟩, ?_⟩
  rcases hseen with ⟨x, hx, rfl⟩ | ⟨r, t, rfl, htype, ht⟩
  · exact ⟨.leaf v₁ x, .leaf htrans hx⟩
  · exact ⟨t, .table htrans htype ht⟩

end

/-! ## Tables -/

section

variable {E : Env} {top : Nat}
  {value : Enc → LVal → Target → Bytes → Outcome AppendError (Enc × Target)}
  (hvalue : AcceptsValues E top value)

include hvalue

theorem arrayLoop_accepted {r : Ref} (n i : Nat) {s s' : Enc} {b b' : Target}
    (hheap : Patterned E s.heap) (hrun : arrayLoop value r n i s b = .ok (s', b')) :
    KeepsMarks E s s' ∧ ∃ ts, EncodesElems E top s.ridx r s.heap i n s'.heap ts := by
  induction n generalizing i s b with
  | zero =>
    obtain ⟨rfl, -⟩ := Outcome.ok_prod_inj hrun
    exact ⟨⟨rfl, hheap⟩, [], .nil⟩
  | succ n ih =>
    obtain ⟨⟨s₁, b₁⟩, hfirst, hrest⟩ := Outcome.bind_eq_ok_iff.mp hrun
    rw [Outcome.mapError_eq_ok_iff] at hfirst
    obtain ⟨hfirst, t, ht⟩ := hvalue hheap hfirst
    obtain ⟨hrest, ts, hts⟩ := ih (i + 1) hfirst.patterned hrest
    rw [hfirst.ridx] at hts
    exact ⟨⟨hrest.ridx.trans hfirst.ridx, hrest.patterned⟩, t :: ts, .cons ht hts⟩

theorem documentLoop_accepted (es : List (Key × LVal)) {s s' : Enc} {b b' : Target}
    (hheap : Patterned E s.heap) (hrun : documentLoop value es s b = .ok (s', b')) :
    KeepsMarks E s s' ∧ ∃ fs, EncodesFields E top s.ridx s.heap es s'.heap fs := by
  induction es generalizing s b with
  | nil =>
    obtain ⟨rfl, -⟩ := Outcome.ok_prod_inj hrun
    exact ⟨⟨rfl, hheap⟩, [], .nil⟩
  | cons e rest ih =>
    obtain ⟨k, v⟩ := e
    cases k with
    | str key =>
      obtain ⟨⟨s₁, b₁⟩, hfirst, hrest⟩ := Outcome.bind_eq_ok_iff.mp hrun
      rw [Outcome.mapError_eq_ok_iff] at hfirst
      obtain ⟨hfirst, t, ht⟩ := hvalue hheap hfirst
      obtain ⟨hrest, fs, hfs⟩ := ih hfirst.patterned hrest
      rw [hfirst.ridx] at hfs
      exact ⟨⟨hrest.ridx.trans hfirst.ridx, hrest.patterned⟩, (key, t) :: fs, .cons ht hfs⟩
    | int i => cases hrun
    | other name id => cases hrun

end

/-- A declared length is that of an array or `-1`. -/
theorem declaredLength_nonneg {E : Env} {flag : LVal} {rawlen : Nat}
    (hlen : declaredLength E flag rawlen ≠ -1) : 0 ≤ declaredLength E flag rawlen := by
  rw [declaredLength] at *
  split_ifs at * with htruthy
  · split
    · exact le_max_right _ _
    · exact Int.natCast_nonneg _
  · exact absurd rfl hlen

/-- Every level, by induction on the fuel. -/
theorem acceptsTables_appendTable {E : Env} (hE : KeepsPatterns E) (fuel top : Nat) :
    AcceptsTables E (appendTable E fuel) top := by
  induction fuel generalizing top with
  | zero =>
    intro s s' r b b' len hheap hlen hrun
    cases hrun
  | succ fuel ih =>
    intro s s' r b b' len hheap hlen hrun
    rw [appendTable] at hrun
    split_ifs at hrun with htop hmeta hmember
    obtain ⟨⟨s₁, b₁⟩, hloop, hpair⟩ := Outcome.bind_eq_ok_iff.mp hrun
    obtain ⟨rfl, -⟩ := Outcome.ok_prod_inj hpair
    have hmarked : Patterned E ({ s with ridx := insert r s.ridx } : Enc).heap := hheap
    have hopen : Opens top s.ridx s.heap r :=
      ⟨Nat.lt_of_not_le htop, by simpa using hmeta, hmember⟩
    have herase : (insert r s.ridx).erase r = s.ridx := Finset.erase_insert hmember
    rw [tableLoop] at hloop
    split_ifs at hloop with harray
    · obtain ⟨hkeeps, ts, hts⟩ := arrayLoop_accepted
        (acceptsValues_appendValue hE (ih (top + 1))) len.toNat 0 hmarked hloop
      have hnonneg : 0 ≤ len := by
        rw [getArrayLength] at hlen
        split at hlen
        · cases hlen
        · cases hlen
          exact declaredLength_nonneg harray
      refine ⟨⟨by rw [hkeeps.ridx, herase], hkeeps.patterned⟩, .array ts, .array hopen ?_ hts⟩
      rw [hlen, Int.toNat_of_nonneg hnonneg]
    · obtain ⟨hkeeps, fs, hfs⟩ := documentLoop_accepted
        (acceptsValues_appendValue hE (ih (top + 2))) _ hmarked hloop
      refine ⟨⟨by rw [hkeeps.ridx, herase], hkeeps.patterned⟩, .doc fs, .doc hopen ?_ hfs⟩
      rw [hlen, not_not.mp harray]

/-! ## Entry points -/

theorem encodeTable_accepted {E : Env} (hE : KeepsPatterns E) {top arg : Nat} {h h' : Heap Host}
    {r : Ref} {b b' : BsonT} {len : Int} (hheap : Patterned E h)
    (hrun : encodeTable E top h arg r b = .ok (h', b', len)) :
    ∃ t, EncodesTable E top ∅ h r h' t := by
  rw [encodeTable] at hrun
  split at hrun
  · cases hrun
  · rename_i len' hlen
    split at hrun
    · rename_i s b₁ hresult
      rw [Outcome.mapError_eq_ok_iff] at hresult
      obtain ⟨-, t, ht⟩ := acceptsTables_appendTable hE _ top
        (s := { heap := h, ridx := ∅ }) hheap hlen hresult
      cases hrun
      exact ⟨t, ht⟩
    all_goals cases hrun

/-- `mongo.bson` returns the document that `__toBSON` gives it, or it has seen the tree of a
table, and then it has lost nothing exactly when no key has a NUL byte and the document stays
within the largest buffer. -/
theorem newBSON_accepted {E : Env} (hE : KeepsPatterns E) {h h' : Heap Host} {r₀ : Ref} {ds : Doc}
    (hheap : Patterned E h) (hrun : newBSON E h (.table r₀) = .ok (h', ds)) :
    callToBSON E h (.table r₀) = .ok (h', .host (.bson ds)) ∨
      ∃ h₁ r t, callToBSON E h (.table r₀) = .ok (h₁, .table r) ∧ EncodesTable E 3 ∅ h₁ r h' t ∧
        (CompleteFields t.children ds ↔ Tree.FieldsNulFree t.children ∧
          docSize (Tree.fieldValues t.children) ≤ BSON_GROW_LIMIT) := by
  have hresult := hrun
  simp only [newBSON, castBSON, tolstring] at hrun
  obtain ⟨⟨h₁, v⟩, hcall, hrest⟩ := Outcome.bind_eq_ok_iff.mp hrun
  have hheap₁ := patterned_of_transform hE hheap (transform_of_callToBSON hcall)
  cases v with
  | table r =>
    obtain ⟨⟨h₂, b, len⟩, hencode, hpair⟩ := Outcome.bind_eq_ok_iff.mp hrest
    obtain ⟨rfl, -⟩ := Outcome.ok_prod_inj hpair
    obtain ⟨t, ht⟩ := encodeTable_accepted hE hheap₁ hencode
    refine Or.inr ⟨h₁, r, t, hcall, ht, ?_⟩
    rw [← newBSON_all_iff hcall ht, EncodesAll, hresult]
    refine ⟨fun hall => ⟨by simp, fun h ds' heq => ?_⟩, fun hall => hall.2 _ _ rfl⟩
    obtain ⟨-, rfl⟩ := Outcome.ok_prod_inj heq
    exact hall
  | host u =>
    cases u with
    | bson doc =>
      obtain ⟨rfl, rfl⟩ := Outcome.ok_prod_inj hrest
      exact Or.inl hcall
    | _ => cases hrest
  | _ => cases hrest

/-- A typed value that is copied has valid parameters. -/
theorem toBSONType_accepted {E : Env} {top arg : Nat} {type : UInt32} {t : Table Host}
    {y : BsonValueT} (hpattern : type.toNat = 0x0B → (tolstring E (param t 1)).isSome)
    (hrun : toBSONType E top type arg t = .ok y) :
    checkstack top (LUA_MINSTACK + t.rawlen) = true ∧ ∃ x, typedValue E type t = some x := by
  rw [toBSONType] at hrun
  split at hrun
  · rename_i hstack
    refine ⟨hstack, ?_⟩
    by_contra hnone
    rw [← Option.isSome_iff_exists, Option.not_isSome_iff_eq_none] at hnone
    unfold typedValue at hnone
    split at hnone <;> rename_i htype <;> try simp only [htype] at hrun
    case h_4 =>
      rw [Option.map_eq_none_iff.mp hnone] at hrun
      cases hrun
    case h_5 | h_9 =>
      rw [Option.map_eq_none_iff.mp hnone] at hrun
      cases hrun
    case h_7 =>
      have hsome := hpattern htype
      rw [Option.map_eq_none_iff.mp hnone] at hsome
      cases hsome
    case h_13 => cases hrun
    all_goals cases hnone
  · cases hrun

/-- `b:append` returns only on a value that it has seen as a tree. -/
theorem m_append_accepted {E : Env} (hE : KeepsPatterns E) {top : Nat} {h h' : Heap Host}
    {b c : BsonT} {key : Bytes} {v : LVal} (hheap : Patterned E h)
    (hrun : m_append E top h b (.str key) v = .ok (h', c)) : ∃ t, EncodesArgument E top h v h' t := by
  simp only [m_append, tolstring] at hrun
  obtain ⟨⟨h₂, y⟩, hvalue, happend⟩ := Outcome.bind_eq_ok_iff.mp hrun
  obtain ⟨appended, -, hpair⟩ := Outcome.elim_undefined_eq_ok_iff.mp happend
  obtain ⟨rfl, -⟩ := Outcome.ok_prod_inj hpair
  obtain ⟨⟨h₁, v₁⟩, hcall, hrest⟩ := Outcome.bind_eq_ok_iff.mp hvalue
  have hheap₁ := patterned_of_transform hE hheap (transform_of_callToBSON hcall)
  have hleaf : ∀ {x : Value} {y' : BsonValueT}, argumentValue E top h₁ v₁ = some x →
      (Outcome.ok (h₁, y') : Outcome LuaError (Heap Host × BsonValueT)) = .ok (h₂, y) →
      ∃ t, EncodesArgument E top h v h₂ t := by
    intro x y' hx heq
    obtain ⟨rfl, -⟩ := Outcome.ok_prod_inj heq
    exact ⟨_, .leaf hcall hx⟩
  cases v₁ with
  | nil | bool | int | str => exact hleaf rfl hrest
  | flt x =>
    simp only at hrest
    cases hint : x.toInteger? with
    | none =>
      rw [hint] at hrest
      exact hleaf (x := .double x) (by simp only [argumentValue, leafValue, hint]) hrest
    | some i =>
      rw [hint] at hrest
      exact hleaf (x := integerValue i) (by simp only [argumentValue, leafValue, hint]) hrest
  | table r =>
    simp only at hrest
    split at hrest
    · rename_i htype
      obtain ⟨⟨h₃, b', len⟩, hencode, hpair⟩ := Outcome.bind_eq_ok_iff.mp hrest
      obtain ⟨rfl, -⟩ := Outcome.ok_prod_inj hpair
      obtain ⟨t, ht⟩ := encodeTable_accepted hE hheap₁ hencode
      exact ⟨t, .table hcall htype ht⟩
    · rename_i htype
      obtain ⟨y', htyped, hpair⟩ := Outcome.bind_eq_ok_iff.mp hrest
      obtain ⟨hstack, x, hx⟩ := toBSONType_accepted (hheap₁ r) htyped
      refine hleaf (x := x) ?_ hpair
      simp only [argumentValue, leafValue]
      rw [if_pos hstack]
      exact hx
  | userdata id m => cases hrest
  | host u =>
    cases u with
    | bson doc => exact hleaf rfl hrest
    | objectID id => exact hleaf rfl hrest
    | _ => cases hrest

end Vklib.Mongo
