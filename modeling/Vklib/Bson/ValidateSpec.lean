import Vklib.Bson.Validate

/-!
# What validation accepts

Three kinds of fields are gaps in the check (`Gap`).  `bson_validate_exact` says that
it returns for every buffer unless it comes to a sum that overflows, that it accepts every
encoding of a document whose keys are UTF-8, and that it accepts nothing else unless it
comes to a gap.

The depth of the recursion is that of the documents, and what the stack of C makes of it
is left out.
-/

namespace Vklib.Bson

open Buffer

/-! ## What is accepted -/

mutual
/-- The keys of nested documents are UTF-8. -/
def Value.KeysUtf8 : Value → Prop
  | .document fs => FieldsKeysUtf8 fs
  | .array fs => FieldsKeysUtf8 fs
  | .codewscope _ scope => FieldsKeysUtf8 scope
  | .double _ | .utf8 _ | .binary _ _ | .undefined | .oid _ | .bool _ | .dateTime _ | .null
  | .regex _ _ | .dbpointer _ _ | .code _ | .symbol _ | .int32 _ | .timestamp _ _ | .int64 _
  | .decimal128 _ | .maxkey | .minkey => True

/-- All keys are UTF-8 and without NUL. -/
def FieldsKeysUtf8 : List (Bytes × Value) → Prop
  | [] => True
  | (key, v) :: rest => validUtf8 key false = true ∧ v.KeysUtf8 ∧ FieldsKeysUtf8 rest
end

/-- A field that the check does not look at, or that ends it without an error. -/
inductive Gap (it : Iter) : Prop where
  /-- A text that is not UTF-8. -/
  | text (t : UInt8) (s : Bytes) (htype : (bson_iter_type it : Outcome Empty UInt8) = .ok t)
      (hread : (fieldText t it : Outcome Empty (Option Bytes)) = .ok (some s))
      (hs : (bson_utf8_validate s true : Outcome Empty Bool) = .ok false)
  /-- An embedded document with a wrong header. -/
  | header (child : Iter) (d : Bytes)
      (hread : (bson_iter_recurse it : Outcome Empty (Option Iter)) = .ok (some child))
      (hraw : child.raw = some d)
      (hd : (bson_init_static d child.len : Outcome Empty Bool) = .ok false)
  | scope (htype : (bson_iter_type it : Outcome Empty UInt8) = .ok 0x0F)

/-- An iteration over a document comes to a sum that overflows. -/
def ReachesOverflow (data : Bytes) (len : Nat) : Prop :=
  ∃ it, Reached data len it ∧ it.Overflows

/-- An iteration over a document comes to a gap. -/
def ReachesGap (data : Bytes) (len : Nat) : Prop :=
  ∃ it it', Reached data len it ∧
    (bson_iter_next it : Outcome Empty (Bool × Iter)) = .ok (true, it') ∧ Gap it'

section

variable {it : Iter} {data : Bytes} {t : UInt8} {key val : Bytes}

/-! ## One field -/

/-- The test of a key. -/
theorem Field.visitKey_eq {ε : Type} (h : Field it data t key val) :
    (visitKey key : Outcome ε Bool) = .ok (validUtf8 key false) := by
  have hd1 := h.d1_eq
  have hnext := h.next_eq
  have hbound := h.in_bounds
  have hmax := h.le_max
  unfold BSON_MAX_SIZE at hmax
  rw [visitKey]
  by_cases hempty : key = []
  · rw [if_pos hempty, hempty]
    rfl
  · rw [if_neg hempty, bson_utf8_validate_eq (by omega)]

/-- What the `switch` does on a field: it tests a text, enters a document that passes
`bson_init_static`, checks the scope of a code with scope, or does nothing. -/
theorem visitField_cases (h : Field it data t key val)
    (visit : Iter → ValidateState → Outcome Empty Visit) (state : ValidateState) :
    (∃ s valid, fieldText t it = (.ok (some s) : Outcome Empty (Option Bytes)) ∧
      (bson_utf8_validate s true : Outcome Empty Bool) = .ok valid ∧
      visitField visit t it state = .ok (!valid, state) ∧ layout t ≠ .document ∧ t ≠ 0x0F) ∨
    (layout t = .document ∧ visitField visit t it state =
      (do
        let ok ← bson_init_static (data.drop it.d1) val.length
        if ok then
          _bson_iter_validate_document visit it.off (data.drop it.d1) val.length state
        else .ok (false, state))) ∨
    (t = 0x0F ∧ ∃ code len,
      (bson_iter_codewscope it : Outcome Empty (Option (Bytes × Nat × Bytes))) =
        .ok (some (code, len, data.drop it.d4)) ∧
      visitField visit t it state =
        (if validUtf8 code true then do
          let ok ← bson_init_static (data.drop it.d4) len
          if ok then _bson_iter_validate_codewscope visit it.off (data.drop it.d4) len state
          else .ok (false, state)
        else .ok (true, state))) ∨
    (visitField visit t it state = .ok (false, state) ∧ layout t ≠ .document ∧ t ≠ 0x0F) := by
  have hlt := h.length_lt
  have valid {s : Bytes} (hs : s.length ≤ val.length) :
      (bson_utf8_validate s true : Outcome Empty Bool) = .ok (validUtf8 s true) :=
    bson_utf8_validate_eq (by omega) true
  have text {s : Bytes} (hread : fieldText t it = (.ok (some s) : Outcome Empty (Option Bytes)))
      (hs : s.length ≤ val.length)
      (hrun : visitField visit t it state = visitText state (fieldText t it))
      (hdocument : layout t ≠ .document) (hscope : t ≠ 0x0F) :
      ∃ s valid, fieldText t it = (.ok (some s) : Outcome Empty (Option Bytes)) ∧
        (bson_utf8_validate s true : Outcome Empty Bool) = .ok valid ∧
        visitField visit t it state = .ok (!valid, state) ∧ layout t ≠ .document ∧ t ≠ 0x0F := by
    refine ⟨s, validUtf8 s true, hread, valid hs, ?_, hdocument, hscope⟩
    rw [hrun, visitText, hread, Outcome.ok_bind]
    simp only [valid hs, Outcome.ok_bind]
  have other (hrun : visitField visit t it state = .ok (false, state))
      (hdocument : layout t ≠ .document) (hscope : t ≠ 0x0F) :
      visitField visit t it state = .ok (false, state) ∧ layout t ≠ .document ∧ t ≠ 0x0F :=
    ⟨hrun, hdocument, hscope⟩
  rcases h.type_cases with rfl | rfl | rfl | rfl | rfl | rfl | rfl | rfl | rfl | rfl | rfl | rfl |
    rfl | rfl | rfl | rfl | rfl | rfl | rfl | rfl | rfl
  -- the types are in the order of their bytes
  · exact Or.inr (Or.inr (Or.inr (other rfl (by decide) (by decide))))
  · obtain ⟨w, s, hval, -, -, hread⟩ := h.iter_utf8 (ε := Empty)
    exact Or.inl (text hread (by rw [hval]; simp; omega) rfl (by decide) (by decide))
  · have hread : (bson_iter_document it : Outcome Empty (Option (Nat × Bytes))) = _ :=
      h.documentAt_eq rfl
    refine Or.inr (Or.inl ⟨rfl, ?_⟩)
    exact (congrArg (visitDocument visit it.off state) hread).trans (Outcome.ok_bind _ _)
  · have hread : (bson_iter_array it : Outcome Empty (Option (Nat × Bytes))) = _ :=
      h.documentAt_eq rfl
    refine Or.inr (Or.inl ⟨rfl, ?_⟩)
    exact (congrArg (visitDocument visit it.off state) hread).trans (Outcome.ok_bind _ _)
  · obtain ⟨w, subtype, payload, -, -, -, -, hread⟩ := h.iter_binary (ε := Empty)
    refine Or.inr (Or.inr (Or.inr (other ?_ (by decide) (by decide))))
    exact (congrArg (· >>= fun _ => Outcome.ok (false, state)) hread).trans (Outcome.ok_bind _ _)
  · exact Or.inr (Or.inr (Or.inr (other rfl (by decide) (by decide))))
  · exact Or.inr (Or.inr (Or.inr (other rfl (by decide) (by decide))))
  · exact Or.inr (Or.inr (Or.inr (other rfl (by decide) (by decide))))
  · exact Or.inr (Or.inr (Or.inr (other rfl (by decide) (by decide))))
  · exact Or.inr (Or.inr (Or.inr (other rfl (by decide) (by decide))))
  · obtain ⟨pattern, options, hval, -, -, hread⟩ := h.iter_regex (ε := Empty)
    have hread : fieldText 0x0B it = (.ok (some pattern) : Outcome Empty (Option Bytes)) := by
      change (bson_iter_regex it >>= fun regex => Outcome.ok (regex.map Prod.fst)) = _
      rw [hread, Outcome.ok_bind, Option.map_some]
    exact Or.inl (text hread (by rw [hval]; simp) rfl (by decide) (by decide))
  · obtain ⟨w, s, id, hval, -, -, -, hread⟩ := h.iter_dbpointer (ε := Empty)
    have hread : fieldText 0x0C it = (.ok (some s) : Outcome Empty (Option Bytes)) := by
      change (bson_iter_dbpointer it >>= fun dbpointer => Outcome.ok (dbpointer.map Prod.fst)) = _
      rw [hread, Outcome.ok_bind, Option.map_some]
    exact Or.inl (text hread (by rw [hval]; simp; omega) rfl (by decide) (by decide))
  · obtain ⟨w, s, hval, -, -, hread⟩ := h.iter_code (ε := Empty)
    exact Or.inl (text hread (by rw [hval]; simp; omega) rfl (by decide) (by decide))
  · obtain ⟨w, s, hval, -, -, hread⟩ := h.iter_symbol (ε := Empty)
    exact Or.inl (text hread (by rw [hval]; simp; omega) rfl (by decide) (by decide))
  · obtain ⟨w, w', code, w'', scope, hval, -, -, -, -, -, -, -, -, -, hread⟩ :=
      h.iter_codewscope (ε := Empty)
    have hcode : code.dropLast.length ≤ val.length := by
      rw [hval]
      simp
      omega
    refine Or.inr (Or.inr (Or.inl ⟨rfl, code.dropLast, 4 + scope.length, hread, ?_⟩))
    refine (congrArg (· >>= _) hread).trans ((Outcome.ok_bind _ _).trans ?_)
    exact (congrArg (· >>= _) (valid hcode)).trans (Outcome.ok_bind _ _)
  · exact Or.inr (Or.inr (Or.inr (other rfl (by decide) (by decide))))
  · refine Or.inr (Or.inr (Or.inr (other ?_ (by decide) (by decide))))
    exact (congrArg (· >>= fun _ => Outcome.ok (false, state)) h.iter_timestamp).trans
      (Outcome.ok_bind _ _)
  · exact Or.inr (Or.inr (Or.inr (other rfl (by decide) (by decide))))
  · refine Or.inr (Or.inr (Or.inr (other ?_ (by decide) (by decide))))
    exact (congrArg (· >>= fun _ => Outcome.ok (false, state)) h.iter_decimal128).trans
      (Outcome.ok_bind _ _)
  · exact Or.inr (Or.inr (Or.inr (other rfl (by decide) (by decide))))
  · exact Or.inr (Or.inr (Or.inr (other rfl (by decide) (by decide))))

end

/-! ## The check returns -/

section

variable {data₀ : Bytes} {len₀ : Nat}

/-- A part of the check returns, unless the iteration comes to a sum that overflows. -/
def Settles {α : Type} (data₀ : Bytes) (len₀ : Nat) (x : Outcome Empty α) : Prop :=
  (∃ a, x = .ok a) ∨ x = .undefined ∧ ReachesOverflow data₀ len₀

theorem settles_ok {α : Type} (a : α) : Settles data₀ len₀ (.ok a) := Or.inl ⟨a, rfl⟩

theorem Settles.bind {α β : Type} {x : Outcome Empty α} {f : α → Outcome Empty β}
    (hx : Settles data₀ len₀ x) (hf : ∀ a, Settles data₀ len₀ (f a)) :
    Settles data₀ len₀ (x >>= f) := by
  rcases hx with ⟨a, rfl⟩ | ⟨rfl, hover⟩
  · exact hf a
  · exact Or.inr ⟨rfl, hover⟩

/-- Documents of less than `n` bytes are checked. -/
def ReturningVisit (data₀ : Bytes) (len₀ : Nat) (visit : Iter → ValidateState → Outcome Empty Visit)
    (n : Nat) : Prop :=
  ∀ it data state, Reached data₀ len₀ it → Ready it data → it.len - it.next_off < n →
    Settles data₀ len₀ (visit it state)

theorem ready_start {data : Bytes} {len : Nat} (hlen : len ≤ data.length)
    (hmax : len ≤ BSON_MAX_SIZE) : Ready (Iter.start data len) data :=
  ⟨⟨rfl, hlen, hmax⟩, le_refl _, le_max_left _ _, rfl⟩

variable {visit : Iter → ValidateState → Outcome Empty Visit} {n : Nat}

theorem validate_document_returns (hvisit : ReturningVisit data₀ len₀ visit n) (off : Nat)
    {data : Bytes} {len : Nat} (state : ValidateState) (hready : Ready (Iter.start data len) data)
    (hreached : 5 ≤ len → Reached data₀ len₀ (Iter.start data len)) (hn : len < n) :
    Settles data₀ len₀ (_bson_iter_validate_document visit off data len state) := by
  rw [_bson_iter_validate_document, bson_iter_init]
  by_cases h5 : len < 5
  · rw [if_pos h5]
    exact settles_ok _
  · rw [if_neg h5]
    refine (hvisit (Iter.start data len) data state (hreached (by omega)) hready ?_).bind
      fun r => settles_ok _
    simp only [Iter.start]
    omega

theorem validate_internal_returns (hvisit : ReturningVisit data₀ len₀ visit n)
    {data : Bytes} {len : Nat} (hready : Ready (Iter.start data len) data)
    (hreached : 5 ≤ len → Reached data₀ len₀ (Iter.start data len)) (hn : len < n) :
    Settles data₀ len₀ (_bson_validate_internal visit data len) := by
  rw [_bson_validate_internal]
  cases bson_iter_init data len with
  | none => exact settles_ok _
  | some it =>
    exact (validate_document_returns hvisit it.off .init hready hreached hn).bind
      fun r => settles_ok _

theorem visitField_returns (hvisit : ReturningVisit data₀ len₀ visit n) {it it' : Iter}
    {data : Bytes} {t : UInt8} {key val : Bytes} (hreached : Reached data₀ len₀ it)
    (hnext : (bson_iter_next it : Outcome Empty (Bool × Iter)) = .ok (true, it'))
    (h : Field it' data t key val) (hn : val.length < n) (state : ValidateState) :
    Settles data₀ len₀ (visitField visit t it' state) := by
  rcases visitField_cases h visit state with ⟨s, valid, -, -, hrun, -⟩ | ⟨hlayout, hrun⟩ |
    ⟨-, code, len, hread, hrun⟩ | ⟨hrun, -⟩
  · rw [hrun]
    exact settles_ok _
  · have hchild := h.recurse_eq (ε := Empty)
    rw [if_pos hlayout] at hchild
    obtain ⟨ok, hok, -⟩ := bson_init_static_eq (ε := Empty) h.ready_child.le_length
    simp only [Iter.start] at hok
    rw [hrun, hok, Outcome.ok_bind]
    split_ifs
    · exact validate_document_returns hvisit it'.off state h.ready_child
        (fun _ => .recurse hreached hnext hchild) hn
    · exact settles_ok _
  · obtain ⟨hlen, -, hready⟩ := h.ready_scope hread
    obtain ⟨ok, hok, hstatic⟩ := bson_init_static_eq (ε := Empty) hready.le_length
    simp only [Iter.start] at hok
    rw [hrun, hok, Outcome.ok_bind]
    split_ifs with hcode hgood
    · rw [_bson_iter_validate_codewscope]
      refine (validate_internal_returns hvisit hready (fun h5 => ?_) (hlen.trans hn)).bind
        fun nested => ?_
      · exact .scope hreached hnext hread (hgood ▸ hok) (bson_iter_init_eq h5)
      · cases nested.err_offset with
        | none => exact settles_ok _
        | some offset => exact settles_ok _
    · exact settles_ok _
    · exact settles_ok _
  · rw [hrun]
    exact settles_ok _

theorem visit_all_returns (data₀ : Bytes) (len₀ fuel : Nat) :
    ReturningVisit data₀ len₀ (bson_iter_visit_all (ε := Empty) fuel) fuel := by
  induction fuel with
  | zero => intro it data state _ _ h; omega
  | succ fuel ih =>
    intro it data state hreached h hlen
    have hend (it' : Iter) (state' : ValidateState) :
        Settles data₀ len₀ (visitEnd it' state' : Outcome Empty Visit) := by
      rw [visitEnd]
      split_ifs <;> exact settles_ok _
    rw [bson_iter_visit_all]
    rcases next_cases (ε := Empty) h with
      ⟨it', t, key, val, hrun, hfield, hoff, hkept⟩ | ⟨it', u, hrun, -⟩ | ⟨hrun, hover⟩
    · have hd1 := hfield.d1_eq
      have hnext := hfield.next_eq
      have hbound := hfield.in_bounds
      have hstep := bson_iter_next_eq_true.mpr ⟨t, hrun⟩
      simp only [hrun, hfield.iter_key, hfield.visitKey_eq, Outcome.ok_bind]
      split_ifs with hkey
      · refine (visitField_returns ih hreached hstep hfield (by omega) state).bind fun r => ?_
        obtain ⟨stop, state'⟩ := r
        cases stop with
        | true => exact settles_ok _
        | false => exact ih it' data state' (.next hreached hstep) hfield.ready (by omega)
      · exact hend _ _
    · simp only [hrun, Outcome.ok_bind]
      exact hend _ _
    · rw [hrun]
      exact Or.inr ⟨rfl, it, hreached, hover⟩

end

/-- The check comes to an end on every buffer. -/
theorem bson_validate_ne_outOfFuel {data : Bytes} {len : Nat} (hlen : len ≤ data.length)
    (hge : 5 ≤ len) (hmax : len ≤ BSON_MAX_SIZE) :
    (bson_validate_with_error data len : Outcome Empty (Bool × Option Bytes)) ≠ .outOfFuel := by
  rw [bson_validate_with_error]
  rcases validate_internal_returns (visit_all_returns data len (len + 1))
    (ready_start hlen hmax) (fun _ => .init (bson_iter_init_eq hge)) (Nat.lt_succ_self len) with
    ⟨state, hrun⟩ | ⟨hrun, -⟩
  · rw [hrun, Outcome.ok_bind]
    cases state.err_offset <;> simp
  · simp [hrun]

/-! ## What the check accepts -/

/-- A value that is not a document and has none has no keys inside. -/
theorem keysUtf8_of_leaf {v : Value} (hdocument : layout (elementType v) ≠ .document)
    (hscope : elementType v ≠ 0x0F) : v.KeysUtf8 := by
  cases v with
  | document fs => exact absurd rfl hdocument
  | array fs => exact absurd rfl hdocument
  | codewscope source scope => exact absurd rfl hscope
  | _ => simp only [Value.KeysUtf8]

section

variable {data₀ : Bytes} {len₀ : Nat}

/-- Where the check finds no error there were none before, and the fields in front of
the iterator lie ahead unless it reaches a gap. -/
def SoundVisit (data₀ : Bytes) (len₀ : Nat) (visit : Iter → ValidateState → Outcome Empty Visit) :
    Prop :=
  ∀ it data state stop state', Closed it data → Reached data₀ len₀ it →
    visit it state = .ok (stop, state') → state'.err_offset = none →
    state.err_offset = none ∧
      (ReachesGap data₀ len₀ ∨ stop = false ∧ ∃ fs, Ahead it data fs ∧ FieldsKeysUtf8 fs)

theorem visitField_sound {visit : Iter → ValidateState → Outcome Empty Visit}
    (hvisit : SoundVisit data₀ len₀ visit) {it it' : Iter} {data : Bytes} {t : UInt8}
    {key val : Bytes} (h : Field it' data t key val) (hreached : Reached data₀ len₀ it)
    (hnext : (bson_iter_next it : Outcome Empty (Bool × Iter)) = .ok (true, it'))
    {state state' : ValidateState} {stop : Bool}
    (hrun : visitField visit t it' state = .ok (stop, state')) (herr : state'.err_offset = none) :
    state.err_offset = none ∧
      (ReachesGap data₀ len₀ ∨ stop = false ∧ ∃ v : Value, elementType v = t ∧ v.data = val ∧
        v.WellFormed ∧ v.KeysUtf8) := by
  have hend := h.end_lt
  have gap (hgap : Gap it') : ReachesGap data₀ len₀ := ⟨it, it', hreached, hnext, hgap⟩
  have leaf (hdocument : layout t ≠ .document) (hscope : t ≠ 0x0F) :
      ∃ v : Value, elementType v = t ∧ v.data = val ∧ v.WellFormed ∧ v.KeysUtf8 := by
    obtain ⟨v, rfl, hdata, hv⟩ := h.exists_leaf hdocument hscope
    exact ⟨v, rfl, hdata, hv, keysUtf8_of_leaf hdocument hscope⟩
  rcases visitField_cases h visit state with ⟨s, valid, hread, hs, hcase, hdocument, hscope⟩ |
    ⟨hlayout, hcase⟩ | ⟨rfl, code, len, -, hcase⟩ | ⟨hcase, hdocument, hscope⟩
  · rw [hcase] at hrun
    cases hrun
    refine ⟨herr, ?_⟩
    cases valid with
    | false => exact Or.inl (gap (.text t s h.iter_type hread hs))
    | true => exact Or.inr ⟨rfl, leaf hdocument hscope⟩
  · have hdrop : val.length ≤ (data.drop it'.d1).length := by rw [List.length_drop]; omega
    obtain ⟨ok, hok, hstatic⟩ := bson_init_static_eq (ε := Empty) hdrop
    have hchild := h.recurse_eq (ε := Empty)
    rw [if_pos hlayout] at hchild
    rw [hcase, hok, Outcome.ok_bind] at hrun
    cases ok with
    | false =>
      cases hrun
      exact ⟨herr, Or.inl (gap (.header _ _ hchild rfl hok))⟩
    | true =>
      have hstatic := hstatic.mp rfl
      rw [if_pos rfl, _bson_iter_validate_document, bson_iter_init_eq hstatic.ge] at hrun
      obtain ⟨⟨inner, state''⟩, hinner, hrun⟩ := Outcome.bind_eq_ok_iff.mp hrun
      cases hrun
      obtain ⟨hnone, hgood⟩ := hvisit _ _ state inner state' (hstatic.closed h.ready_child)
        (.recurse hreached hnext hchild) hinner herr
      refine ⟨hnone, hgood.imp_right fun hdocument => ⟨rfl, ?_⟩⟩
      obtain ⟨-, fs, hahead, hkeys⟩ := hdocument
      obtain ⟨hds, hsize, hlies⟩ := hahead.document hstatic
      rw [lies_drop, Nat.add_zero] at hlies
      have hval : val = bson_get_data fs :=
        h.lies_val.eq hlies (by rw [length_bson_get_data hds.fields, hsize])
      obtain ⟨v, ht, hdata, hv, rfl | rfl⟩ := exists_document hlayout hds.fields
      · exact ⟨_, ht, hdata.trans hval.symm, hv, by simpa only [Value.KeysUtf8] using hkeys⟩
      · exact ⟨_, ht, hdata.trans hval.symm, hv, by simpa only [Value.KeysUtf8] using hkeys⟩
  · refine ⟨?_, Or.inl (gap (.scope h.iter_type))⟩
    rw [hcase] at hrun
    split_ifs at hrun
    · obtain ⟨ok, -, hrun⟩ := Outcome.bind_eq_ok_iff.mp hrun
      split_ifs at hrun
      · rw [_bson_iter_validate_codewscope] at hrun
        obtain ⟨nested, -, hrun⟩ := Outcome.bind_eq_ok_iff.mp hrun
        cases hoffset : nested.err_offset with
        | none =>
          rw [hoffset] at hrun
          cases hrun
          exact herr
        | some offset =>
          rw [hoffset] at hrun
          cases hrun
          cases herr
      · cases hrun
        exact herr
    · cases hrun
      exact herr
  · rw [hcase] at hrun
    cases hrun
    exact ⟨herr, Or.inr ⟨rfl, leaf hdocument hscope⟩⟩

theorem visit_all_sound (fuel : Nat) : SoundVisit data₀ len₀ (bson_iter_visit_all fuel) := by
  induction fuel with
  | zero => intro it data state stop state' _ _ hrun; cases hrun
  | succ fuel ih =>
    intro it data state stop state' hclosed hreached hrun herr
    have hend {it' : Iter} (h : (visitEnd it' state : Outcome Empty Visit) = .ok (stop, state')) :
        it'.err_off = 0 ∧ stop = false ∧ state' = state := by
      rw [visitEnd] at h
      split_ifs at h with hne
      · cases h
        cases herr
      · cases h
        exact ⟨not_not.mp hne, rfl, rfl⟩
    rw [bson_iter_visit_all] at hrun
    rcases next_cases (ε := Empty) hclosed.toReady with
      ⟨it', t, key, val, hnext, hfield, hoff, hkept⟩ | ⟨it', u, hnext, -, hstop⟩ | ⟨hnext, -⟩
    · have hoffset := hfield.off_ge
      simp only [hnext, hfield.iter_key, hfield.visitKey_eq, Outcome.ok_bind] at hrun
      by_cases hkey : validUtf8 key false = true
      swap
      · rw [if_pos hkey] at hrun
        obtain ⟨hzero, -⟩ := hend hrun
        simp only at hzero
        omega
      rw [if_neg (not_not_intro hkey)] at hrun
      obtain ⟨⟨stop₁, state₁⟩, hvisit, hrun⟩ := Outcome.bind_eq_ok_iff.mp hrun
      have hstep := bson_iter_next_eq_true.mpr ⟨t, hnext⟩
      have hone := visitField_sound ih hfield hreached hstep hvisit
      cases stop₁ with
      | true =>
        cases hrun
        obtain ⟨hnone, hgap | ⟨hfalse, -⟩⟩ := hone herr
        · exact ⟨hnone, Or.inl hgap⟩
        · cases hfalse
      | false =>
        obtain ⟨hnone₁, hrest⟩ := ih it' data state₁ stop state'
          ⟨hfield.ready, hkept.symm ▸ hclosed.last, hfield.in_bounds⟩ (.next hreached hstep) hrun herr
        obtain ⟨hnone, hv⟩ := hone hnone₁
        refine ⟨hnone, ?_⟩
        rcases hv with hgap | ⟨-, v, rfl, rfl, hwell, hkeys⟩
        · exact Or.inl hgap
        refine hrest.imp_right fun ⟨hstop, rest, hahead, hrestkeys⟩ => ⟨hstop, (key, v) :: rest,
          hfield.ahead_cons hclosed.toReady hwell hoff hkept hahead, ?_⟩
        simpa only [FieldsKeysUtf8] using ⟨hkey, hkeys, hrestkeys⟩
    · simp only [hnext, Outcome.ok_bind] at hrun
      obtain ⟨hzero, rfl, rfl⟩ := hend hrun
      rcases hstop with ⟨hat, -⟩ | hne
      · exact ⟨herr, Or.inr ⟨rfl, [], hclosed.ahead_nil hat, by simp only [FieldsKeysUtf8]⟩⟩
      · exact absurd hzero hne
    · rw [hnext] at hrun
      cases hrun

end

/-! ## What the check says about an encoding -/

mutual
/-- What the check makes of a value, after the message `e`: whether it stops there, and
the message then. -/
def Value.visited (e : Option Bytes) : Value → Bool × Option Bytes
  | .utf8 s | .code s | .symbol s | .regex s _ | .dbpointer s _ =>
    (!validUtf8 s true, e)
  | .document fs => (false, (fieldsVisited e fs).2)
  | .array fs => (false, (fieldsVisited e fs).2)
  | .codewscope source scope =>
    if validUtf8 source true then
      match (fieldsVisited none scope).2 with
      | some _ => (false, some (bytes "corrupt code-with-scope"))
      | none => (true, e)
    else (true, e)
  | .double _ | .binary _ _ | .undefined | .oid _ | .bool _ | .dateTime _ | .null | .int32 _
  | .timestamp _ _ | .int64 _ | .decimal128 _ | .maxkey | .minkey => (false, e)

/-- What the check makes of fields. -/
def fieldsVisited (e : Option Bytes) : List (Bytes × Value) → Bool × Option Bytes
  | [] => (false, e)
  | (key, v) :: rest =>
    if validUtf8 key false then
      if (v.visited e).1 then (true, (v.visited e).2) else fieldsVisited (v.visited e).2 rest
    else (false, some (bytes "corrupt BSON"))
end

/-- A state holds a message and a place for it, or neither. -/
def ValidateState.Says (state : ValidateState) (e : Option Bytes) : Prop :=
  match e with
  | none => state.err_offset = none
  | some message => state.error = message ∧ ∃ offset, 0 < offset ∧ state.err_offset = some offset

/-- The fields ahead of less than `n` bytes are visited as the list of them. -/
def ExactVisit {ε : Type} (visit : Iter → ValidateState → Outcome ε Visit) (n : Nat) : Prop :=
  ∀ it data fs state e, Ahead it data fs → it.len - it.next_off < n → state.Says e →
    ∃ state', visit it state = .ok ((fieldsVisited e fs).1, state') ∧
      state'.Says (fieldsVisited e fs).2

section

variable {ε : Type} {visit : Iter → ValidateState → Outcome ε Visit} {n : Nat}

theorem validate_document_exact (hvisit : ExactVisit visit n) (off : Nat) {data : Bytes} {fs : Doc}
    {state : ValidateState} {e : Option Bytes} (hfs : DocWellFormed fs)
    (hlies : Lies data 0 (bson_get_data fs)) (hn : docSize fs < n) (he : state.Says e) :
    ∃ state', _bson_iter_validate_document visit off data (docSize fs) state =
      .ok (false, state') ∧ state'.Says (fieldsVisited e fs).2 := by
  obtain ⟨state', hrun, hexact⟩ := hvisit (Iter.start data (docSize fs)) data fs state e
    (ahead_start hfs hlies) (by simp only [Iter.start]; omega) he
  refine ⟨state', ?_, hexact⟩
  rw [_bson_iter_validate_document, bson_iter_init_eq (by unfold docSize; omega)]
  simp only [hrun, Outcome.ok_bind]

theorem validate_internal_exact (hvisit : ExactVisit visit n) {data : Bytes} {fs : Doc}
    (hfs : DocWellFormed fs) (hlies : Lies data 0 (bson_get_data fs)) (hn : docSize fs < n) :
    ∃ state, _bson_validate_internal visit data (docSize fs) = .ok state ∧
      state.Says (fieldsVisited none fs).2 := by
  have hinit : ValidateState.init.Says none := rfl
  obtain ⟨state, hrun, hexact⟩ := validate_document_exact hvisit 0 hfs hlies hn hinit
  refine ⟨state, ?_, hexact⟩
  rw [_bson_validate_internal, bson_iter_init_eq (by unfold docSize; omega)]
  simp only [Iter.start, hrun, Outcome.ok_bind]

theorem visitField_exact (hvisit : ExactVisit visit n) {it : Iter} {data key : Bytes} {v : Value}
    (h : On it data key v) (hv : v.WellFormed) (hn : v.size < n) {state : ValidateState}
    {e : Option Bytes} (he : state.Says e) :
    ∃ state', visitField visit (elementType v) it state = .ok ((v.visited e).1, state') ∧
      state'.Says (v.visited e).2 := by
  have hlt := h.length_lt
  have hlen := v.length_data hv
  have valid {s : Bytes} (hs : s.length ≤ v.size) :
      (bson_utf8_validate s true : Outcome ε Bool) = .ok (validUtf8 s true) :=
    bson_utf8_validate_eq (by omega) true
  have text {s : Bytes} {read : Outcome ε (Option Bytes)} (hread : read = .ok (some s))
      (hs : s.length ≤ v.size) : visitText state read = .ok (!validUtf8 s true, state) := by
    rw [visitText, hread, Outcome.ok_bind]
    simp only [valid hs, Outcome.ok_bind]
  cases v with
  | utf8 s =>
    exact ⟨state, text h.iter_utf8 (by rw [Value.size]; omega),
      by simpa only [Value.visited] using he⟩
  | code s =>
    exact ⟨state, text h.iter_code (by rw [Value.size]; omega),
      by simpa only [Value.visited] using he⟩
  | symbol s =>
    exact ⟨state, text h.iter_symbol (by rw [Value.size]; omega),
      by simpa only [Value.visited] using he⟩
  | regex pattern options =>
    obtain ⟨hpattern, -⟩ : NulFree pattern ∧ NulFree options := by
      simpa only [Value.WellFormed] using hv
    refine ⟨state, text ?_ (by rw [Value.size]; omega), by simpa only [Value.visited] using he⟩
    change (bson_iter_regex it >>= fun regex => Outcome.ok (regex.map Prod.fst)) = _
    rw [h.iter_regex hpattern, Outcome.ok_bind, Option.map_some]
  | dbpointer collection id =>
    refine ⟨state, text ?_ (by rw [Value.size]; omega), by simpa only [Value.visited] using he⟩
    change (bson_iter_dbpointer it >>= fun dbpointer => Outcome.ok (dbpointer.map Prod.fst)) = _
    rw [h.iter_dbpointer (by simpa only [Value.WellFormed] using hv), Outcome.ok_bind,
      Option.map_some]
  | document fs =>
    have hfs : FieldsWellFormed fs := by simpa only [Value.WellFormed] using hv
    obtain ⟨-, hds, hlies⟩ := h.ahead_child rfl hfs
    obtain ⟨state', hrun, hexact⟩ := validate_document_exact hvisit it.off hds hlies hn he
    refine ⟨state', ?_, by simpa only [Value.visited] using hexact⟩
    change visitDocument visit it.off state (bson_iter_document it) = _
    rw [visitDocument, h.iter_document hfs, Outcome.ok_bind]
    simp only [init_static_data hds hlies, Outcome.ok_bind, if_true, hrun, Value.visited]
  | array fs =>
    have hfs : FieldsWellFormed fs := by simpa only [Value.WellFormed] using hv
    obtain ⟨-, hds, hlies⟩ := h.ahead_child rfl hfs
    obtain ⟨state', hrun, hexact⟩ := validate_document_exact hvisit it.off hds hlies hn he
    refine ⟨state', ?_, by simpa only [Value.visited] using hexact⟩
    change visitDocument visit it.off state (bson_iter_array it) = _
    rw [visitDocument, h.iter_array hfs, Outcome.ok_bind]
    simp only [init_static_data hds hlies, Outcome.ok_bind, if_true, hrun, Value.visited]
  | codewscope source scope =>
    obtain ⟨hread, hlies, hds, -⟩ :=
      h.iter_codewscope (ε := ε) (by simpa only [Value.WellFormed] using hv)
    have hsize : docSize scope < n := by
      rw [Value.size] at hn
      unfold docSize
      omega
    obtain ⟨nested, hnested, hexact⟩ := validate_internal_exact hvisit hds hlies hsize
    have hsource : source.length ≤ (Value.codewscope source scope).size := by
      rw [Value.size]
      omega
    have hrun : visitField visit 0x0F it state = _ :=
      (congrArg (· >>= _) hread).trans ((Outcome.ok_bind _ _).trans
        ((congrArg (· >>= _) (valid hsource)).trans (Outcome.ok_bind _ _)))
    rw [show elementType (.codewscope source scope) = 0x0F from rfl, hrun]
    simp only [Value.visited, init_static_data hds hlies, _bson_iter_validate_codewscope, hnested,
      Outcome.ok_bind, if_true]
    split_ifs with hsource
    · cases he' : (fieldsVisited none scope).2 with
      | none =>
        rw [he'] at hexact
        have hexact : nested.err_offset = none := hexact
        simp only [hexact]
        exact ⟨state, rfl, he⟩
      | some message =>
        rw [he'] at hexact
        obtain ⟨-, offset, hpos, hoffset⟩ := hexact
        simp only [hoffset]
        exact ⟨_, rfl, rfl, _, Nat.add_pos_right _ hpos, rfl⟩
    · exact ⟨state, rfl, he⟩
  | binary subtype payload =>
    refine ⟨state, ?_, by simpa only [Value.visited] using he⟩
    exact (congrArg (· >>= fun _ => Outcome.ok (false, state)) h.iter_binary).trans
      (Outcome.ok_bind _ _)
  | timestamp t i =>
    refine ⟨state, ?_, by simpa only [Value.visited] using he⟩
    exact (congrArg (· >>= fun _ => Outcome.ok (false, state)) h.iter_timestamp).trans
      (Outcome.ok_bind _ _)
  | decimal128 d =>
    refine ⟨state, ?_, by simpa only [Value.visited] using he⟩
    exact (congrArg (· >>= fun _ => Outcome.ok (false, state)) h.iter_decimal128).trans
      (Outcome.ok_bind _ _)
  | double _ | undefined | oid _ | bool _ | dateTime _ | null | int32 _ | int64 _ | maxkey
  | minkey => exact ⟨state, rfl, by simpa only [Value.visited] using he⟩

theorem visit_all_exact (fuel : Nat) : ExactVisit (bson_iter_visit_all (ε := ε) fuel) fuel := by
  induction fuel with
  | zero => intro it data fs state e _ hlen; omega
  | succ fuel ih =>
    intro it data fs state e h hlen he
    rw [bson_iter_visit_all]
    cases fs with
    | nil =>
      obtain ⟨it', hrun, -, herr⟩ := h.next_nil (ε := ε)
      simp only [hrun, Outcome.ok_bind, visitEnd, herr, ne_eq, not_true_eq_false, if_false]
      exact ⟨state, by rw [fieldsVisited], by simpa only [fieldsVisited] using he⟩
    | cons f rest =>
      obtain ⟨key, v⟩ := f
      obtain ⟨it', hrun, hon, hahead⟩ := h.next_cons (ε := ε)
      obtain ⟨-, hv, -⟩ : NulFree key ∧ v.WellFormed ∧ FieldsWellFormed rest := by
        simpa only [FieldsWellFormed] using h.wellFormed
      have hsize := v.length_data hv
      have hlen' := h.len_eq
      have hrest := hahead.len_eq
      rw [fieldsSize_cons, fieldSize] at hlen'
      have hoffset := hon.off_ge
      simp only [hrun, hon.iter_key, hon.visitKey_eq, Outcome.ok_bind, fieldsVisited]
      split_ifs with hgood hstop
      · obtain ⟨state', hfield, hexact⟩ := visitField_exact ih hon hv (by omega) he
        rw [hstop] at hfield
        rw [hfield, Outcome.ok_bind]
        exact ⟨state', rfl, hexact⟩
      · obtain ⟨state', hfield, hexact⟩ := visitField_exact ih hon hv (by omega) he
        rw [Bool.eq_false_iff.mpr hstop] at hfield
        rw [hfield, Outcome.ok_bind]
        exact ih it' data rest state' _ hahead (by omega) hexact
      · rw [visitEnd, if_pos (by simp only; omega)]
        exact ⟨_, rfl, rfl, _, by simp only; omega, rfl⟩

end

/-- The check stops behind a value: at a text that is not UTF-8, and at a code with scope. -/
def Value.stops : Value → Bool
  | .utf8 s | .code s | .symbol s | .regex s _ | .dbpointer s _ => !validUtf8 s true
  | .codewscope _ _ => true
  | .document _ | .array _ | .double _ | .binary _ _ | .undefined | .oid _ | .bool _ | .dateTime _
  | .null | .int32 _ | .timestamp _ _ | .int64 _ | .decimal128 _ | .maxkey | .minkey => false

mutual
/-- The keys of nested documents that the check comes to are UTF-8. -/
def Value.CheckedKeysUtf8 : Value → Prop
  | .document fs => CheckedKeysUtf8 fs
  | .array fs => CheckedKeysUtf8 fs
  | .codewscope source scope => validUtf8 source true = true → CheckedKeysUtf8 scope
  | .double _ | .utf8 _ | .binary _ _ | .undefined | .oid _ | .bool _ | .dateTime _ | .null
  | .regex _ _ | .dbpointer _ _ | .code _ | .symbol _ | .int32 _ | .timestamp _ _ | .int64 _
  | .decimal128 _ | .maxkey | .minkey => True

/-- The keys that the check comes to are UTF-8: it goes through the fields until it stops. -/
def CheckedKeysUtf8 : List (Bytes × Value) → Prop
  | [] => True
  | (key, v) :: rest =>
    validUtf8 key false = true ∧ v.CheckedKeysUtf8 ∧ (v.stops = false → CheckedKeysUtf8 rest)
end

mutual
/-- What the check makes of a value: there is no message afterwards when there was none and the
keys are UTF-8, and then it goes on unless the value stops it. -/
theorem Value.visited_iff (e : Option Bytes) (v : Value) :
    ((v.visited e).2 = none ↔ e = none ∧ v.CheckedKeysUtf8) ∧
      ((v.visited e).2 = none → (v.visited e).1 = v.stops) := by
  match v with
  | .document fs =>
    simp only [Value.visited, Value.CheckedKeysUtf8, Value.stops]
    exact ⟨fieldsVisited_eq_none_iff e fs, fun _ => trivial⟩
  | .array fs =>
    simp only [Value.visited, Value.CheckedKeysUtf8, Value.stops]
    exact ⟨fieldsVisited_eq_none_iff e fs, fun _ => trivial⟩
  | .codewscope source scope =>
    have hscope := fieldsVisited_eq_none_iff none scope
    simp only [true_and] at hscope
    simp only [Value.visited, Value.CheckedKeysUtf8, Value.stops]
    by_cases hsource : validUtf8 source true = true
    · rw [if_pos hsource]
      cases hinner : (fieldsVisited none scope).2 with
      | none => simp [hsource, hscope.mp hinner]
      | some message =>
        have hbad : ¬ CheckedKeysUtf8 scope := fun h => by
          rw [hscope.mpr h] at hinner
          cases hinner
        simp [hsource, hbad]
    · simp [hsource]
  | .utf8 _ | .code _ | .symbol _ | .regex _ _ | .dbpointer _ _ | .double _ | .binary _ _
  | .undefined | .oid _ | .bool _ | .dateTime _ | .null | .int32 _ | .timestamp _ _ | .int64 _
  | .decimal128 _ | .maxkey | .minkey =>
    simp [Value.visited, Value.CheckedKeysUtf8, Value.stops]

theorem fieldsVisited_eq_none_iff (e : Option Bytes) (fs : List (Bytes × Value)) :
    (fieldsVisited e fs).2 = none ↔ e = none ∧ CheckedKeysUtf8 fs := by
  match fs with
  | [] => simp [fieldsVisited, CheckedKeysUtf8]
  | (key, v) :: rest =>
    obtain ⟨hvalue, hstops⟩ := Value.visited_iff e v
    have hrest := fieldsVisited_eq_none_iff (v.visited e).2 rest
    simp only [fieldsVisited, CheckedKeysUtf8]
    by_cases hkey : validUtf8 key false = true
    · rw [if_pos hkey]
      by_cases hstop : (v.visited e).1 = true
      · rw [if_pos hstop, hvalue]
        constructor
        · rintro ⟨he, hv⟩
          have hone := hstops (hvalue.mpr ⟨he, hv⟩)
          exact ⟨he, hkey, hv, fun hgo => by rw [hstop, hgo] at hone; cases hone⟩
        · rintro ⟨he, -, hv, -⟩
          exact ⟨he, hv⟩
      · rw [if_neg hstop, hrest, hvalue]
        constructor
        · rintro ⟨⟨he, hv⟩, hgood⟩
          exact ⟨he, hkey, hv, fun _ => hgood⟩
        · rintro ⟨he, -, hv, hgood⟩
          have hone := hstops (hvalue.mpr ⟨he, hv⟩)
          exact ⟨⟨he, hv⟩, hgood (by rw [← hone]; exact Bool.eq_false_iff.mpr hstop)⟩
    · rw [if_neg hkey]
      simp [hkey]
end

mutual
/-- A check that comes to all keys comes to those that it looks at. -/
theorem Value.checkedKeysUtf8_of (v : Value) (h : v.KeysUtf8) : v.CheckedKeysUtf8 := by
  match v, h with
  | .document fs, h =>
    simpa only [Value.CheckedKeysUtf8] using
      checkedKeysUtf8_of fs (by simpa only [Value.KeysUtf8] using h)
  | .array fs, h =>
    simpa only [Value.CheckedKeysUtf8] using
      checkedKeysUtf8_of fs (by simpa only [Value.KeysUtf8] using h)
  | .codewscope source scope, h =>
    simpa only [Value.CheckedKeysUtf8] using
      fun _ => checkedKeysUtf8_of scope (by simpa only [Value.KeysUtf8] using h)
  | .utf8 _, _ | .code _, _ | .symbol _, _ | .regex _ _, _ | .dbpointer _ _, _ | .double _, _
  | .binary _ _, _ | .undefined, _ | .oid _, _ | .bool _, _ | .dateTime _, _ | .null, _
  | .int32 _, _ | .timestamp _ _, _ | .int64 _, _ | .decimal128 _, _ | .maxkey, _
  | .minkey, _ => simp only [Value.CheckedKeysUtf8]

theorem checkedKeysUtf8_of (fs : List (Bytes × Value)) (h : FieldsKeysUtf8 fs) :
    CheckedKeysUtf8 fs := by
  match fs, h with
  | [], _ => simp only [CheckedKeysUtf8]
  | (key, v) :: rest, h =>
    obtain ⟨hkey, hv, hrest⟩ : validUtf8 key false = true ∧ v.KeysUtf8 ∧ FieldsKeysUtf8 rest := by
      simpa only [FieldsKeysUtf8] using h
    simpa only [CheckedKeysUtf8] using
      ⟨hkey, v.checkedKeysUtf8_of hv, fun _ => checkedKeysUtf8_of rest hrest⟩
end

/-- The bytes of a document make a message exactly when the list of its fields does. -/
theorem bson_validate_with_error_data {ε : Type} {data : Bytes} {ds : Doc} (hds : DocWellFormed ds)
    (hlies : Lies data 0 (bson_get_data ds)) :
    (bson_validate_with_error data (docSize ds) : Outcome ε (Bool × Option Bytes)) =
      .ok (decide ((fieldsVisited none ds).2 = none), (fieldsVisited none ds).2) := by
  obtain ⟨state, hrun, hexact⟩ :=
    validate_internal_exact (visit_all_exact (docSize ds + 1)) hds hlies (Nat.lt_succ_self _)
  rw [bson_validate_with_error, hrun, Outcome.ok_bind]
  cases h : (fieldsVisited none ds).2 with
  | none =>
    rw [h] at hexact
    have hnone : state.err_offset = none := hexact
    simp [hnone]
  | some message =>
    rw [h] at hexact
    obtain ⟨herror, offset, hpos, hoffset⟩ := hexact
    simp [hoffset, hpos, herror]

/-- The check with `BSON_VALIDATE_NONE` returns for every buffer with a good header, unless
it comes to a sum that overflows.  It accepts the encodings of documents whose keys are
UTF-8, and nothing else unless it comes to a gap. -/
theorem bson_validate_exact {data : Bytes} {len : Nat} (hlen : len ≤ data.length)
    (hstatic : Static data len) :
    ((bson_validate_with_error data len : Outcome Empty (Bool × Option Bytes)) = .undefined ∧
        ReachesOverflow data len ∨
      ∃ valid message,
        (bson_validate_with_error data len : Outcome Empty (Bool × Option Bytes)) =
          .ok (valid, message) ∧
        (valid = true → ReachesGap data len ∨
          ∃ ds, DocWellFormed ds ∧ data.take len = bson_get_data ds ∧ FieldsKeysUtf8 ds)) ∧
    ∀ ds, DocWellFormed ds → data.take len = bson_get_data ds → FieldsKeysUtf8 ds →
      (bson_validate_with_error data len : Outcome Empty (Bool × Option Bytes)) =
        .ok (true, none) := by
  have hready : Ready (Iter.start data len) data := ready_start hlen hstatic.le_max
  have hinit : bson_iter_init data len = some (Iter.start data len) := bson_iter_init_eq hstatic.ge
  refine ⟨?_, fun ds hds hdata hkeys => ?_⟩
  · rcases validate_internal_returns (visit_all_returns data len (len + 1))
      hready (fun _ => .init hinit) (Nat.lt_succ_self len) with ⟨state, hrun⟩ | ⟨hrun, hover⟩
    · refine Or.inr ?_
      obtain ⟨valid, message, hvalid, hnone⟩ : ∃ valid message,
          (bson_validate_with_error data len : Outcome Empty (Bool × Option Bytes)) =
            .ok (valid, message) ∧ (valid = true → state.err_offset = none) := by
        rw [bson_validate_with_error, hrun, Outcome.ok_bind]
        cases state.err_offset with
        | none => exact ⟨_, _, rfl, fun _ => rfl⟩
        | some e => exact ⟨_, _, rfl, fun h => by cases h⟩
      refine ⟨valid, message, hvalid, fun htrue => ?_⟩
      rw [_bson_validate_internal, hinit] at hrun
      obtain ⟨⟨stop, state₁⟩, hdocument, hstate⟩ := Outcome.bind_eq_ok_iff.mp hrun
      cases hstate
      rw [_bson_iter_validate_document, hinit] at hdocument
      obtain ⟨⟨inner, state₂⟩, hvisit, hdocument⟩ := Outcome.bind_eq_ok_iff.mp hdocument
      cases hdocument
      obtain ⟨-, hgood⟩ := visit_all_sound (len + 1) _ data _ inner state (hstatic.closed hready)
        (.init hinit) hvisit (hnone htrue)
      refine hgood.imp_right fun hdocument => ?_
      obtain ⟨-, ds, hahead, hkeys⟩ := hdocument
      obtain ⟨hds, hsize, hlies⟩ := hahead.document hstatic
      refine ⟨ds, hds, ?_, hkeys⟩
      rw [List.prefix_iff_eq_take.mp (lies_zero.mp hlies), length_bson_get_data hds.fields, hsize]
    · exact Or.inl ⟨by rw [bson_validate_with_error, hrun]; rfl, hover⟩
  · have hsize : docSize ds = len := by
      rw [← length_bson_get_data hds.fields, ← hdata, List.length_take, Nat.min_eq_left hlen]
    have hlies : Lies data 0 (bson_get_data ds) :=
      lies_zero.mpr (hdata ▸ List.take_prefix len data)
    have hanswer := bson_validate_with_error_data (ε := Empty) hds hlies
    have hnone := (fieldsVisited_eq_none_iff none ds).mpr ⟨rfl, checkedKeysUtf8_of ds hkeys⟩
    rwa [hsize, hnone] at hanswer

/-- A document with a field `a` is accepted.  A buffer with the type `0x66` behind a text that
is not UTF-8 is accepted too, so the iteration comes to a gap. -/
theorem bson_validate_exact_single :
    (bson_validate_with_error (bson_get_data [(bytes "a", .null)]) 8 :
        Outcome Empty (Bool × Option Bytes)) = .ok (true, none) ∧
      ReachesGap [16, 0, 0, 0, 2, 97, 0, 2, 0, 0, 0, 0xFF, 0, 0x66, 0, 0] 16 := by
  constructor
  · have hds : DocWellFormed [(bytes "a", .null)] :=
      ⟨by simp [FieldsWellFormed, Value.WellFormed, NulFree, bytes], by decide⟩
    have hkeys : FieldsKeysUtf8 [(bytes "a", .null)] := by
      simp only [FieldsKeysUtf8, Value.KeysUtf8, and_true]
      decide
    have hstatic := static_of_lies hds (lies_zero.mpr (List.prefix_refl _))
    exact (bson_validate_exact (by decide) hstatic).2 _ hds rfl hkeys
  · have hlen : 16 ≤ ([16, 0, 0, 0, 2, 97, 0, 2, 0, 0, 0, 0xFF, 0, 0x66, 0, 0] : Bytes).length := by
      decide
    have hstatic : Static [16, 0, 0, 0, 2, 97, 0, 2, 0, 0, 0, 0xFF, 0, 0x66, 0, 0] 16 :=
      ⟨by decide, by decide, List.prefix_append _ _, List.prefix_append _ _⟩
    have hrun : (bson_validate_with_error [16, 0, 0, 0, 2, 97, 0, 2, 0, 0, 0, 0xFF, 0, 0x66, 0, 0]
        16 : Outcome Empty (Bool × Option Bytes)) = .ok (true, none) := by decide +kernel
    rcases (bson_validate_exact hlen hstatic).1 with ⟨hundefined, -⟩ | ⟨valid, message, hok, hsound⟩
    · rw [hrun] at hundefined
      cases hundefined
    · rw [hrun] at hok
      cases hok
      rcases hsound rfl with hgap | ⟨ds, hds, hdata, -⟩
      · exact hgap
      · have hsize : docSize ds = 16 := by
          rw [← length_bson_get_data hds.fields, ← hdata]
          rfl
        have hclean := clean_of_lies hds (lies_zero.mpr (hdata ▸ List.take_prefix 16 _))
        rw [hsize] at hclean
        obtain ⟨found, it', hnext, herr⟩ := hclean.next (.next (.init rfl) rfl)
        cases hnext
        cases herr rfl

end Vklib.Bson
