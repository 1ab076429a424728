import Vklib.Bson.IterSpec
import Vklib.Bson.WellFormed

/-!
# Iterating over an encoded document

On the bytes of a well-formed document the iterator goes through its fields in
order.  `Ahead it fs` says that the fields `fs` lie in front of an iterator, and
`On it key v` that it is on the field of the key with the value.  A step moves
from one to the other (`Ahead.next_cons`, `Ahead.next_nil`), the accessors return
the key and the parts of the value (`On.iter_value` and its companions), and a
nested document has its fields ahead (`On.recurse`).

So a reader may as well go through the list of the fields.
-/

namespace Vklib.Bson

open Buffer

section

variable {it : Iter} {data : Bytes}

/-! ## The cases on known bytes -/

theorem nextString_of_lies (h : AtValue it data) {w s : Bytes}
    (hlies : Lies data it.d1 (w ++ (s ++ [0]))) (hw : w.length = 4)
    (hcount : fromLe w = s.length + 1) (hin : it.d1 + (4 + s.length + 1) < it.len) :
    ∃ it' o, nextString it data it.d1 = .ok (it', o) ∧
      it'.next_off = it.d1 + (4 + s.length + 1) := by
  obtain ⟨⟨-, hlen, hmax⟩, hle, hpos⟩ := h
  unfold BSON_MAX_SIZE at hmax
  rw [lies_append, lies_append, hw] at hlies
  have hadd : add32 it.d1 4 = it.d1 + 4 := by unfold add32; omega
  have hsub : sub32 it.len (it.d1 + 4) = it.len - (it.d1 + 4) := by unfold sub32; omega
  have hnext : add32 (it.d1 + 4) (s.length + 1) = it.d1 + (4 + s.length + 1) := by
    unfold add32; omega
  have hlast : (load data (it.d1 + 4 + s.length) : Outcome Iter UInt8) = .ok 0 := hlies.2.2.load
  rw [nextString, hadd, if_neg (by omega)]
  simp only [hlies.1.loadLe hw (by decide), Outcome.ok_bind, hcount, hsub, hnext]
  rw [if_neg (by omega), if_neg (by omega), Nat.add_sub_cancel, hlast, Outcome.ok_bind,
    if_neg (by simp)]
  exact ⟨_, _, rfl, rfl⟩

theorem nextBinary_of_lies (h : AtValue it data) {w : Bytes} {subtype : UInt8} {payload : Bytes}
    (hlies : Lies data it.d1 (w ++ subtype :: payload)) (hw : w.length = 4)
    (hcount : fromLe w = payload.length)
    (hdeprecated : subtype = 2 → ∃ w' rest, payload = w' ++ rest ∧ w'.length = 4 ∧
      fromLe w' = rest.length)
    (hin : it.d1 + (4 + 1 + payload.length) < it.len) :
    ∃ it' o, nextBinary it data it.d1 = .ok (it', o) ∧
      it'.next_off = it.d1 + (4 + 1 + payload.length) := by
  obtain ⟨⟨-, hlen, hmax⟩, hle, hpos⟩ := h
  unfold BSON_MAX_SIZE at hmax
  rw [lies_append, lies_cons, hw] at hlies
  have hsub : sub32 it.len 4 = it.len - 4 := by unfold sub32; omega
  have hadd4 : add32 it.d1 4 = it.d1 + 4 := by unfold add32; omega
  have hadd5 : add32 it.d1 5 = it.d1 + 5 := by unfold add32; omega
  have hroom : sub32 (sub32 it.len it.d1) 4 = it.len - it.d1 - 4 := by unfold sub32; omega
  have hnext : add32 (it.d1 + 5) payload.length = it.d1 + (4 + 1 + payload.length) := by
    unfold add32; omega
  rw [nextBinary, hsub, if_neg (by omega)]
  simp only [hadd4, hadd5, hroom, hlies.1.loadLe hw (by decide), Outcome.ok_bind, hcount,
    hlies.2.1.load, hnext]
  rw [if_neg (by omega)]
  by_cases h2 : subtype = 2
  · obtain ⟨w', rest, rfl, hw', hcount'⟩ := hdeprecated h2
    have hword : (loadLe data (it.d1 + 5) 4 : Outcome Iter Nat) = .ok (fromLe w') :=
      (lies_append.mp hlies.2.2).1.loadLe hw' (by decide)
    rw [List.length_append, hw'] at hin ⊢
    have hheader : add32 (fromLe w') 4 = 4 + rest.length := by unfold add32; omega
    rw [if_pos h2, if_neg (by omega), hword, Outcome.ok_bind, if_neg (by omega), hheader,
      if_neg (by simp)]
    exact ⟨_, _, rfl, rfl⟩
  · rw [if_neg h2]
    exact ⟨_, _, rfl, rfl⟩

theorem nextDocument_of_lies (h : AtValue it data) {size : Nat} {fields : Bytes}
    (hlies : Lies data it.d1 (wrapData size fields)) (hsize : size = 5 + fields.length)
    (hin : it.d1 + size < it.len) :
    ∃ it' o, nextDocument it data it.d1 = .ok (it', o) ∧ it'.next_off = it.d1 + size := by
  obtain ⟨⟨-, hlen, hmax⟩, hle, hpos⟩ := h
  unfold BSON_MAX_SIZE at hmax
  rw [wrapData, List.append_assoc] at hlies
  have hword : (loadLe data it.d1 4 : Outcome Iter Nat) = .ok size := by
    rw [hlies.left.loadLe (length_le32 _) (by decide), fromLe_le32_of_lt (by omega)]
  have hsub : sub32 it.len 4 = it.len - 4 := by unfold sub32; omega
  have hroom : sub32 it.len it.d1 = it.len - it.d1 := by unfold sub32; omega
  have hnext : add32 it.d1 size = it.d1 + size := by unfold add32; omega
  rw [nextDocument, hsub, if_neg (by omega), hword, Outcome.ok_bind, hroom, if_neg (by omega), hnext]
  exact ⟨_, _, rfl, rfl⟩

theorem nextRegex_of_lies (h : AtValue it data) {pattern options : Bytes}
    (hlies : Lies data it.d1 (pattern ++ 0 :: (options ++ [0]))) (hpattern : NulFree pattern)
    (hoptions : NulFree options)
    (hin : it.d1 + (pattern.length + 1 + options.length + 1) < it.len) :
    ∃ it' o, nextRegex it data it.d1 = .ok (it', o) ∧
      it'.next_off = it.d1 + (pattern.length + 1 + options.length + 1) := by
  obtain ⟨⟨-, hlen, hmax⟩, hle, hpos⟩ := h
  unfold BSON_MAX_SIZE at hmax
  have hrest := (lies_cons.mp (lies_append.mp hlies).2).2
  have hadd : add32 (it.d1 + pattern.length) 1 = it.d1 + pattern.length + 1 := by
    unfold add32; omega
  have hnext : add32 (it.d1 + pattern.length + 1 + options.length) 1 =
      it.d1 + (pattern.length + 1 + options.length + 1) := by
    unfold add32; omega
  rw [nextRegex, hlies.findNul hpattern (by omega), Outcome.ok_bind]
  simp only [hadd]
  rw [hrest.findNul hoptions (by omega), Outcome.ok_bind]
  exact ⟨_, _, rfl, hnext⟩

theorem nextDbpointer_of_lies (h : AtValue it data) {w s id : Bytes}
    (hlies : Lies data it.d1 (w ++ (s ++ 0 :: id))) (hw : w.length = 4)
    (hcount : fromLe w = s.length + 1) (hin : it.d1 + (4 + s.length + 1 + 12) < it.len) :
    ∃ it' o, nextDbpointer it data it.d1 = .ok (it', o) ∧
      it'.next_off = it.d1 + (4 + s.length + 1 + 12) := by
  obtain ⟨⟨-, hlen, hmax⟩, hle, hpos⟩ := h
  unfold BSON_MAX_SIZE at hmax
  rw [lies_append, lies_append, lies_cons, hw] at hlies
  have hsub : sub32 it.len 4 = it.len - 4 := by unfold sub32; omega
  have hroom : sub32 (sub32 it.len it.d1) 4 = it.len - it.d1 - 4 := by unfold sub32; omega
  have hnext : add32 (add32 (add32 it.d1 4) (s.length + 1)) 12 =
      it.d1 + (4 + s.length + 1 + 12) := by
    unfold add32; omega
  have hlast : (load data (it.d1 + (s.length + 1) + 3) : Outcome Iter UInt8) = .ok 0 := by
    rw [show it.d1 + (s.length + 1) + 3 = it.d1 + 4 + s.length from by omega]
    exact hlies.2.2.1.load
  rw [nextDbpointer, hsub, if_neg (by omega)]
  simp only [hroom, hlies.1.loadLe hw (by decide), Outcome.ok_bind, hcount]
  rw [if_neg (by omega), hlast, Outcome.ok_bind, if_neg (by simp), hnext]
  exact ⟨_, _, rfl, rfl⟩

theorem nextCodewscope_of_lies (h : AtValue it data) {w w' code w'' scope : Bytes}
    (hlies : Lies data it.d1 (w ++ (w' ++ (code ++ (w'' ++ scope))))) (hw : w.length = 4)
    (hw' : w'.length = 4) (hw'' : w''.length = 4)
    (hcount : fromLe w = 12 + code.length + scope.length) (hcount' : fromLe w' = code.length)
    (hcount'' : fromLe w'' = 4 + scope.length) (hcode : 0 < code.length) (hscope : 0 < scope.length)
    (hin : it.d1 + (12 + code.length + scope.length) < it.len) :
    ∃ it' o, nextCodewscope it data it.d1 = .ok (it', o) ∧
      it'.next_off = it.d1 + (12 + code.length + scope.length) := by
  obtain ⟨⟨-, hlen, hmax⟩, hle, hpos⟩ := h
  unfold BSON_MAX_SIZE at hmax
  rw [lies_append, lies_append, lies_append, lies_append, hw, hw'] at hlies
  have hsub : sub32 it.len 14 = it.len - 14 := by unfold sub32; omega
  have hadd4 : add32 it.d1 4 = it.d1 + 4 := by unfold add32; omega
  have hroom : sub32 it.len it.d1 = it.len - it.d1 := by unfold sub32; omega
  have hroom' : sub32 (sub32 (it.len - it.d1) 4) 4 = it.len - it.d1 - 8 := by unfold sub32; omega
  have hnext : add32 it.d1 (12 + code.length + scope.length) =
      it.d1 + (12 + code.length + scope.length) := by
    unfold add32; omega
  have hd4 : add32 (add32 (it.d1 + 4) 4) code.length = it.d1 + 8 + code.length := by
    unfold add32; omega
  have hd4' : add32 (it.d1 + 8 + code.length) 4 = it.d1 + 8 + code.length + 4 := by
    unfold add32; omega
  have hend : add32 (it.d1 + 8 + code.length) (4 + scope.length) =
      it.d1 + (12 + code.length + scope.length) := by
    unfold add32; omega
  have hword : (loadLe data (it.d1 + 8 + code.length) 4 : Outcome Iter Nat) = .ok (fromLe w'') :=
    Lies.loadLe hlies.2.2.2.1 hw'' (by decide)
  rw [nextCodewscope, hsub, if_neg (by omega)]
  simp only [hadd4, hroom, hlies.1.loadLe hw (by decide), Outcome.ok_bind, hcount, hnext]
  rw [if_neg (by omega), if_neg (by omega), hlies.2.1.loadLe hw' (by decide), Outcome.ok_bind,
    hroom', hcount', if_neg (by omega), hd4, hd4', if_neg (by omega)]
  simp only [hword, Outcome.ok_bind, hcount'', hend]
  rw [if_neg (by simp)]
  exact ⟨_, _, rfl, rfl⟩

/-- The case of a value runs to its end. -/
theorem nextCase_of_value (h : AtValue it data) {v : Value} (hv : v.WellFormed)
    (hlies : Lies data it.d1 v.data) (hin : it.d1 + v.size < it.len) :
    ∃ it' o, nextCase it data it.d1 (layout (elementType v)) = .ok (it', o) ∧
      it'.next_off = it.d1 + v.size := by
  have hmax := h.le_max
  unfold BSON_MAX_SIZE at hmax
  have fixed (size : Nat) (hsize : size = v.size) :
      ∃ it' o, nextFixed it it.d1 size = .ok (it', o) ∧ it'.next_off = it.d1 + v.size := by
    have hadd : add32 it.d1 size = it.d1 + v.size := by unfold add32; omega
    exact ⟨_, _, rfl, hadd⟩
  have text {s : Bytes} (hs : v.data = stringData s) (hsize : v.size = 4 + s.length + 1) :
      ∃ it' o, nextString it data it.d1 = .ok (it', o) ∧ it'.next_off = it.d1 + v.size := by
    rw [hs, stringData, List.append_assoc] at hlies
    rw [hsize] at hin ⊢
    exact nextString_of_lies h hlies rfl (fromLe_le32_of_lt (by omega)) hin
  cases v with
  | double x => exact fixed 8 rfl
  | utf8 s => exact text rfl rfl
  | document fs =>
    rw [Value.size] at hin ⊢
    exact nextDocument_of_lies h hlies
      (by rw [length_fieldsData fs (by simpa only [Value.WellFormed] using hv)]) hin
  | array fs =>
    rw [Value.size] at hin ⊢
    exact nextDocument_of_lies h hlies
      (by rw [length_fieldsData fs (by simpa only [Value.WellFormed] using hv)]) hin
  | binary subtype payload =>
    rw [Value.size] at hin ⊢
    refine nextBinary_of_lies h hlies rfl (fromLe_le32_of_lt (by omega)) (fun h2 => ?_) hin
    have hpayload : payload = le32 (payload.drop 4).length.toUInt32 ++ payload.drop 4 := by
      simpa only [Value.WellFormed, h2, forall_const] using hv
    refine ⟨_, _, hpayload, rfl, fromLe_le32_of_lt ?_⟩
    rw [List.length_drop]
    omega
  | undefined => exact fixed 0 rfl
  | oid id => exact fixed 12 rfl
  | bool b =>
    have hadd : add32 it.d1 1 = it.d1 + 1 := by unfold add32; omega
    have hload : (load data it.d1 : Outcome Iter UInt8) = .ok (if b then 1 else 0) := hlies.load
    have hcase : nextCase it data it.d1 (layout (elementType (.bool b))) =
        nextBool it data it.d1 := rfl
    rw [hcase, nextBool, if_neg (by omega), hload, Outcome.ok_bind, if_neg (by cases b <;> simp)]
    exact ⟨_, _, rfl, hadd⟩
  | dateTime ms => exact fixed 8 rfl
  | null => exact fixed 0 rfl
  | regex pattern options =>
    rw [Value.size] at hin ⊢
    obtain ⟨hpattern, hoptions⟩ : NulFree pattern ∧ NulFree options := by
      simpa only [Value.WellFormed] using hv
    exact nextRegex_of_lies h hlies hpattern hoptions hin
  | dbpointer collection id =>
    rw [Value.size] at hin ⊢
    rw [Value.data, stringData, List.append_assoc, List.append_assoc] at hlies
    exact nextDbpointer_of_lies h hlies rfl (fromLe_le32_of_lt (by omega)) hin
  | code source => exact text rfl rfl
  | symbol s => exact text rfl rfl
  | codewscope source scope =>
    have hscope := length_fieldsData scope (by simpa only [Value.WellFormed] using hv)
    rw [Value.size] at hin ⊢
    have hdata : (Value.codewscope source scope).data =
        le32 (4 + 4 + source.length + 1 + docSize scope).toUInt32 ++
          (le32 (source.length + 1).toUInt32 ++ ((source ++ [0]) ++
            (le32 (docSize scope).toUInt32 ++ (fieldsData scope ++ [0])))) := by
      simp only [Value.data, stringData, wrapData, List.append_assoc]
    rw [hdata] at hlies
    have hsize : docSize scope = 4 + (fieldsData scope ++ [0]).length := by
      rw [List.length_append, hscope, docSize, List.length_singleton]
      omega
    have hcode : (source ++ [0]).length = source.length + 1 := by simp
    have htotal : 4 + 4 + source.length + 1 + (5 + fieldsSize scope) =
        12 + (source ++ [0]).length + (fieldsData scope ++ [0]).length := by
      rw [hcode, List.length_append, hscope, List.length_singleton]
      omega
    rw [htotal] at hin ⊢
    refine nextCodewscope_of_lies h hlies rfl rfl rfl ?_ ?_ ?_ (by simp) (by simp) hin
    · rw [fromLe_le32_of_lt (by omega)]
      omega
    · rw [fromLe_le32_of_lt (by omega), hcode]
    · rw [fromLe_le32_of_lt (by omega), hsize]
  | int32 i => exact fixed 4 rfl
  | timestamp t i => exact fixed 8 rfl
  | int64 i => exact fixed 8 rfl
  | decimal128 d => exact fixed 16 rfl
  | maxkey => exact fixed 0 rfl
  | minkey => exact fixed 0 rfl

end

/-! ## The fields ahead -/

/-- The fields `fs` and the closing NUL lie in front of an iterator, and end its
document. -/
structure Ahead (it : Iter) (data : Bytes) (fs : Doc) : Prop extends Ready it data where
  lies : Lies data it.next_off (fieldsData fs ++ [0])
  len_eq : it.len = it.next_off + fieldsSize fs + 1
  wellFormed : FieldsWellFormed fs

/-- An iterator is on a field with this key and value. -/
abbrev On (it : Iter) (data key : Bytes) (v : Value) : Prop :=
  Field it data (elementType v) key v.data

section

variable {ε : Type} {it : Iter} {data : Bytes}

/-- A document in a buffer has its fields ahead. -/
theorem ahead_start {ds : Doc} (hds : DocWellFormed ds) (hlies : Lies data 0 (bson_get_data ds)) :
    Ahead (Iter.start data (docSize ds)) data ds where
  raw := rfl
  le_length := by
    have hle := hlies.le_length (List.ne_nil_of_length_pos (by
      rw [length_bson_get_data hds.fields, docSize]; omega))
    rw [length_bson_get_data hds.fields, Nat.zero_add] at hle
    exact hle
  le_max := hds.size
  lies := by
    rw [bson_get_data, wrapData, List.append_assoc, lies_append] at hlies
    exact hlies.2
  ge := le_refl _
  le := le_max_left _ _
  err_off := rfl
  len_eq := by simp only [Iter.start, docSize]; omega
  wellFormed := hds.fields

/-- The value that lies in front of an iterator is the one of the field it is on. -/
theorem Field.val_eq {t : UInt8} {key key' val val' : Bytes} (h : Field it data t key val)
    (hkey : NulFree key') (hlies : Lies data it.off (t :: (key' ++ 0 :: val')))
    (hlen : it.next_off = it.off + 2 + key'.length + val'.length) : key = key' ∧ val = val' := by
  have hkeys : key = key' := by
    have hread : (Outcome.ok key : Outcome Empty Bytes) = .ok key' := by
      rw [← h.iter_key, bson_iter_key, Iter.deref, h.raw, h.key_eq]
      exact (lies_cons.mp hlies).2.text hkey
    exact Outcome.ok.inj hread
  subst hkeys
  have hd1 := h.d1_eq
  have hnext := h.next_eq
  have hall := h.lies.eq hlies (by simp only [List.length_cons, List.length_append]; omega)
  simp only [List.cons.injEq, List.append_cancel_left_eq, true_and] at hall
  exact ⟨rfl, hall⟩

/-- A step moves to the first of the fields ahead. -/
theorem Ahead.next_cons {key : Bytes} {v : Value} {rest : Doc}
    (h : Ahead it data ((key, v) :: rest)) :
    ∃ it', (_bson_iter_next_internal it : Outcome ε Next) = .ok (.field it' (elementType v)) ∧
      On it' data key v ∧ Ahead it' data rest := by
  obtain ⟨hkey, hv, hrest⟩ : NulFree key ∧ v.WellFormed ∧ FieldsWellFormed rest := by
    simpa only [FieldsWellFormed] using h.wellFormed
  have hlen := h.len_eq
  have hsize := v.length_data hv
  rw [fieldsSize_cons, fieldSize] at hlen
  have hlies := h.lies
  rw [fieldsData, List.cons_append, List.append_assoc, List.cons_append, List.append_assoc,
    List.append_cons, ← List.cons_append, lies_append, List.length_cons, List.length_append,
    List.length_singleton,
    show it.next_off + (key.length + 1 + 1) = it.next_off + 2 + key.length from by omega] at hlies
  obtain ⟨hhead, hbehind⟩ := hlies
  have hin : it.next_off + 2 + key.length ≤ it.len := by omega
  obtain ⟨it₁, o, hcase, hnext⟩ :=
    nextCase_of_value (h.toReady.atValue hin) hv hbehind.left
      (by simp only [Iter.behindKey]; omega)
  simp only [Iter.behindKey] at hnext
  have hrun := next_of_key (ε := ε) h.toReady hkey hhead hin
  have hall : Lies data it.next_off (elementType v :: (key ++ 0 :: v.data)) := by
    rw [List.append_cons, ← List.cons_append, lies_append, List.length_cons, List.length_append,
      List.length_singleton,
      show it.next_off + (key.length + 1 + 1) = it.next_off + 2 + key.length from by omega]
    exact ⟨hhead, hbehind.left⟩
  have hlen₁ : it₁.len = it.len := by
    rcases nextCase_spec (h.toReady.atValue hin) (Nat.ne_of_gt (Nat.zero_lt_of_lt h.ge))
      (elementType v) with ⟨it₂, o₂, hcase₂, hsame, -⟩ | ⟨it₂, hcase₂, -⟩ | ⟨hcase₂, -⟩
    · rw [hcase] at hcase₂
      cases hcase₂
      exact hsame.len
    · rw [hcase] at hcase₂
      cases hcase₂
    · rw [hcase] at hcase₂
      cases hcase₂
  rw [hcase, finishNext, if_neg (by omega)] at hrun
  refine ⟨_, hrun, ?_⟩
  rcases next_cases (ε := ε) h.toReady with
    ⟨it', t, key', val, hfound, hfield, hoff, hkept⟩ | ⟨it', u, hstop, -, -⟩ | ⟨hstop, -⟩
  · rw [hfound] at hrun
    cases hrun
    simp only at hoff hkept hfield
    obtain ⟨rfl, rfl⟩ := hfield.val_eq hkey (by simpa only [hoff] using hall)
      (by simp only [hnext, hoff]; omega)
    refine ⟨hfield, ⟨hfield.ready, ?_, ?_, hrest⟩⟩
    · simp only [hnext, ← hsize]
      exact hbehind.right
    · simp only [hnext, hlen₁, hlen]
      omega
  · rw [hstop] at hrun
    cases hrun
  · rw [hstop] at hrun
    cases hrun

/-- Behind the last field a step stops, and finds no error. -/
theorem Ahead.next_nil (h : Ahead it data []) :
    ∃ it', (_bson_iter_next_internal it : Outcome ε Next) = .ok (.stop it' false) ∧
      it'.raw = none ∧ it'.err_off = 0 := by
  have hlen := h.len_eq
  have hmax := h.le_max
  unfold BSON_MAX_SIZE at hmax
  rw [fieldsSize_nil] at hlen
  have hadd : add32 it.next_off 1 = it.next_off + 1 := by unfold add32; omega
  have hzero : it.len - (it.next_off + 1) = 0 := by omega
  unfold _bson_iter_next_internal
  simp only [h.raw, hadd, hzero, findNul, Outcome.ok_bind]
  exact ⟨_, rfl, rfl, h.err_off⟩

/-! ## The accessors -/

theorem stringData_eq {w s s' : Bytes} (hw : w.length = 4) (h : w ++ (s ++ [0]) = stringData s') :
    s = s' := by
  rw [stringData, List.append_assoc] at h
  exact List.append_cancel_right (List.append_inj h hw).2

section

variable {key : Bytes}

theorem On.iter_double {x : F64} (h : On it data key (.double x)) :
    (bson_iter_double it : Outcome ε (Option F64)) = .ok (some x) := by
  rw [Field.iter_double h, Value.data, fromLe_le64, UInt64.ofNat_toNat]

theorem On.iter_int64 {i : Int64} (h : On it data key (.int64 i)) :
    (bson_iter_int64 it : Outcome ε (Option Int64)) = .ok (some i) := by
  rw [Field.iter_int64 h, Value.data, fromLe_le64, UInt64.ofNat_toNat, Int64.toInt64_toUInt64]

theorem On.iter_date_time {ms : Int64} (h : On it data key (.dateTime ms)) :
    (bson_iter_date_time it : Outcome ε (Option Int64)) = .ok (some ms) := by
  rw [Field.iter_date_time h, Value.data, fromLe_le64, UInt64.ofNat_toNat, Int64.toInt64_toUInt64]

theorem On.iter_int32 {i : Int32} (h : On it data key (.int32 i)) :
    (bson_iter_int32 it : Outcome ε (Option Int32)) = .ok (some i) := by
  rw [Field.iter_int32 h, Value.data, fromLe_le32, UInt32.ofNat_toNat, Int32.toInt32_toUInt32]

theorem On.iter_timestamp {t i : UInt32} (h : On it data key (.timestamp t i)) :
    (bson_iter_timestamp it : Outcome ε (Option (UInt32 × UInt32))) = .ok (some (t, i)) := by
  have hword : fromLe (le32 i ++ le32 t) = i.toNat + 2 ^ 32 * t.toNat := by
    rw [fromLe_append, fromLe_le32, fromLe_le32, length_le32]
    rfl
  have ht := t.toNat_lt
  have hi := i.toNat_lt
  rw [Field.iter_timestamp h, Value.data, hword]
  congr 3
  · rw [← UInt32.toNat_inj, UInt64.toNat_toUInt32, UInt64.toNat_shiftRight, UInt64.toNat_ofNat',
      Nat.shiftRight_eq_div_pow]
    simp only [UInt64.reduceToNat, Nat.reduceMod, Nat.reducePow]
    omega
  · rw [← UInt32.toNat_inj, UInt64.toNat_toUInt32, UInt64.toNat_ofNat']
    omega

theorem On.iter_decimal128 {d : Decimal128} (h : On it data key (.decimal128 d)) :
    (bson_iter_decimal128 it : Outcome ε (Option Decimal128)) = .ok (some d) := by
  rw [Field.iter_decimal128 h, Value.data, List.take_left' (length_le64 _),
    List.drop_left' (length_le64 _), fromLe_le64, fromLe_le64, UInt64.ofNat_toNat,
    UInt64.ofNat_toNat]

theorem On.iter_oid {id : Oid} (h : On it data key (.oid id)) :
    (bson_iter_oid it : Outcome ε (Option Oid)) = .ok (some id) :=
  Field.iter_oid h

theorem On.iter_bool {b : Bool} (h : On it data key (.bool b)) :
    (bson_iter_bool it : Outcome ε (Option Bool)) = .ok (some b) := by
  obtain ⟨b', hval, hread⟩ := Field.iter_bool (ε := ε) h
  cases b <;> cases b' <;> simp_all [Value.data]

theorem On.iter_utf8 {s : Bytes} (h : On it data key (.utf8 s)) :
    (bson_iter_utf8 it : Outcome ε (Option Bytes)) = .ok (some s) := by
  obtain ⟨w, s', hval, hw, -, hread⟩ := Field.iter_utf8 (ε := ε) h
  rw [hread, stringData_eq hw hval.symm]

theorem On.iter_code {s : Bytes} (h : On it data key (.code s)) :
    (bson_iter_code it : Outcome ε (Option Bytes)) = .ok (some s) := by
  obtain ⟨w, s', hval, hw, -, hread⟩ := Field.iter_code (ε := ε) h
  rw [hread, stringData_eq hw hval.symm]

theorem On.iter_symbol {s : Bytes} (h : On it data key (.symbol s)) :
    (bson_iter_symbol it : Outcome ε (Option Bytes)) = .ok (some s) := by
  obtain ⟨w, s', hval, hw, -, hread⟩ := Field.iter_symbol (ε := ε) h
  rw [hread, stringData_eq hw hval.symm]

theorem On.iter_binary {subtype : UInt8} {payload : Bytes}
    (h : On it data key (.binary subtype payload)) :
    (bson_iter_binary it : Outcome ε (Option (UInt8 × Bytes))) =
      .ok (some (subtype, if subtype = 2 then payload.drop 4 else payload)) := by
  obtain ⟨w, subtype', payload', hval, hw, -, -, hread⟩ := Field.iter_binary (ε := ε) h
  rw [Value.data] at hval
  obtain ⟨-, htail⟩ := List.append_inj hval.symm hw
  cases htail
  exact hread

theorem On.iter_regex {pattern options : Bytes} (h : On it data key (.regex pattern options))
    (hpattern : NulFree pattern) :
    (bson_iter_regex it : Outcome ε (Option (Bytes × Bytes))) = .ok (some (pattern, options)) := by
  obtain ⟨pattern', options', hval, hpattern', hoptions', hread⟩ := Field.iter_regex (ε := ε) h
  rw [Value.data] at hval
  have hp := congrArg cString hval
  rw [cString_append_nul hpattern, cString_append_nul hpattern'] at hp
  subst hp
  simp only [List.append_cancel_left_eq, List.cons.injEq, true_and,
    List.append_cancel_right_eq] at hval
  rw [hread, hval]

theorem On.iter_dbpointer {collection : Bytes} {id : Oid}
    (h : On it data key (.dbpointer collection id)) (hid : id.length = 12) :
    (bson_iter_dbpointer it : Outcome ε (Option (Bytes × Oid))) = .ok (some (collection, id)) := by
  obtain ⟨w, s, id', hval, hw, -, hid', hread⟩ := Field.iter_dbpointer (ε := ε) h
  rw [Value.data, stringData, List.append_assoc, List.append_assoc] at hval
  have htext : (collection ++ [0]) ++ id = (s ++ [0]) ++ id' := by
    simpa using (List.append_inj hval (by rw [length_le32, hw])).2
  obtain ⟨hids, htail⟩ := List.append_inj' htext (hid.trans hid'.symm)
  rw [hread, htail, List.append_cancel_right hids]

/-- The fields of a nested document are ahead of the iterator over it. -/
theorem On.ahead_child {v : Value} {fs : Doc} (h : On it data key v)
    (hv : v.data = bson_get_data fs) (hfs : FieldsWellFormed fs) :
    v.data.length = docSize fs ∧ DocWellFormed fs ∧
      Lies (data.drop it.d1) 0 (bson_get_data fs) := by
  have hlen : v.data.length = docSize fs := by rw [hv, length_bson_get_data hfs]
  have hlt := h.length_lt
  refine ⟨hlen, ⟨hfs, ?_⟩, ?_⟩
  · unfold BSON_MAX_SIZE
    omega
  · rw [lies_drop, Nat.add_zero, ← hv]
    exact h.lies_val

theorem On.iter_document {fs : Doc} (h : On it data key (.document fs))
    (hfs : FieldsWellFormed fs) :
    (bson_iter_document it : Outcome ε (Option (Nat × Bytes))) =
      .ok (some (docSize fs, data.drop it.d1)) := by
  rw [← (h.ahead_child rfl hfs).1]
  exact Field.documentAt_eq h rfl

theorem On.iter_array {fs : Doc} (h : On it data key (.array fs)) (hfs : FieldsWellFormed fs) :
    (bson_iter_array it : Outcome ε (Option (Nat × Bytes))) =
      .ok (some (docSize fs, data.drop it.d1)) := by
  rw [← (h.ahead_child rfl hfs).1]
  exact Field.documentAt_eq h rfl

/-- The iterator over a nested document has its fields ahead. -/
theorem On.recurse {v : Value} {fs : Doc} (h : On it data key v)
    (hv : v = .document fs ∨ v = .array fs) (hfs : FieldsWellFormed fs) :
    ∃ child, (bson_iter_recurse it : Outcome ε (Option Iter)) = .ok (some child) ∧
      Ahead child (data.drop it.d1) fs := by
  have hdata : v.data = bson_get_data fs := by rcases hv with rfl | rfl <;> rfl
  have ht : layout (elementType v) = .document := by rcases hv with rfl | rfl <;> rfl
  obtain ⟨hlen, hds, hlies⟩ := h.ahead_child hdata hfs
  refine ⟨_, by rw [Field.recurse_eq h, if_pos ht], ?_⟩
  rw [hlen]
  exact ahead_start hds hlies

theorem On.iter_codewscope {source : Bytes} {scope : Doc}
    (h : On it data key (.codewscope source scope)) (hscope : FieldsWellFormed scope) :
    (bson_iter_codewscope it : Outcome ε (Option (Bytes × Nat × Bytes))) =
        .ok (some (source, docSize scope, data.drop it.d4)) ∧
      Lies (data.drop it.d4) 0 (bson_get_data scope) ∧ DocWellFormed scope ∧
      Lies data (it.d4 - 1) [0] := by
  obtain ⟨w, w', code, w'', rest, hval, hw, hw', hw'', -, hcount', hcount'', hcode, hrest, hd4,
    hread⟩ := Field.iter_codewscope (ε := ε) h
  have hlt := h.length_lt
  have hsize := Value.length_data (.codewscope source scope)
    (by simpa only [Value.WellFormed] using hscope)
  rw [Value.size] at hsize
  have hlies := h.lies_val
  rw [hval] at hlies
  rw [Value.data, stringData, List.append_assoc, List.append_assoc, List.append_assoc] at hval
  obtain ⟨-, hval⟩ := List.append_inj hval hw.symm
  obtain ⟨hword, hval⟩ := List.append_inj hval hw'.symm
  rw [← hword, fromLe_le32_of_lt (by omega)] at hcount'
  rw [← List.append_assoc] at hval
  obtain ⟨rfl, htail⟩ := List.append_inj hval (by simpa using hcount')
  have htail : bson_get_data scope = w'' ++ rest := htail
  have hscopelen : docSize scope = 4 + rest.length := by
    rw [← length_bson_get_data hscope, htail, List.length_append, hw'']
  rw [lies_append, lies_append, lies_append, hw, hw', lies_append] at hlies
  refine ⟨by rw [hread, hscopelen, List.dropLast_concat], ?_, ⟨hscope, ?_⟩, ?_⟩
  · rw [lies_drop, htail, hd4]
    exact hlies.2.2.2
  · unfold BSON_MAX_SIZE docSize
    omega
  · rw [hd4, List.length_append, List.length_singleton]
    exact hlies.2.2.1.2

/-- What `bson_iter_value` makes of a value. -/
def Value.raw (it : Iter) (data : Bytes) : Value → RawValue
  | .double x => .double x
  | .utf8 s => .utf8 s
  | .document fs => .document (docSize fs) (data.drop it.d1)
  | .array fs => .array (docSize fs) (data.drop it.d1)
  | .binary subtype payload => .binary subtype (if subtype = 2 then payload.drop 4 else payload)
  | .undefined => .undefined
  | .oid id => .oid id
  | .bool b => .bool b
  | .dateTime ms => .dateTime ms
  | .null => .null
  | .regex pattern options => .regex pattern options
  | .dbpointer collection id => .dbpointer collection id
  | .code source => .code source
  | .symbol s => .symbol s
  | .codewscope source scope => .codewscope source (docSize scope) (data.drop it.d4)
  | .int32 i => .int32 i
  | .timestamp t i => .timestamp t i
  | .int64 i => .int64 i
  | .decimal128 d => .decimal128 d
  | .maxkey => .maxkey
  | .minkey => .minkey

theorem On.iter_value_eq {v : Value} (h : On it data key v) (hv : v.WellFormed) :
    (bson_iter_value it : Outcome ε (Option RawValue)) = .ok (some (v.raw it data)) := by
  have boxed {α : Type} {read : Outcome ε (Option α)} {x : α} (box : α → RawValue)
      (hread : read = .ok (some x)) :
      (read >>= fun x => (.ok (x.map box) : Outcome ε (Option RawValue))) = .ok (some (box x)) := by
    rw [hread]
    rfl
  rw [bson_iter_value, h.iter_type, Outcome.ok_bind]
  cases v with
  | double x => exact boxed _ h.iter_double
  | utf8 s => exact boxed _ h.iter_utf8
  | document fs => exact boxed _ (h.iter_document (by simpa only [Value.WellFormed] using hv))
  | array fs => exact boxed _ (h.iter_array (by simpa only [Value.WellFormed] using hv))
  | binary subtype payload => exact boxed _ h.iter_binary
  | oid id => exact boxed _ h.iter_oid
  | bool b => exact boxed _ h.iter_bool
  | dateTime ms => exact boxed _ h.iter_date_time
  | regex pattern options =>
    exact boxed _ (h.iter_regex (by
      obtain ⟨hpattern, -⟩ : NulFree pattern ∧ NulFree options := by
        simpa only [Value.WellFormed] using hv
      exact hpattern))
  | dbpointer collection id =>
    exact boxed _ (h.iter_dbpointer (by simpa only [Value.WellFormed] using hv))
  | code source => exact boxed _ h.iter_code
  | symbol s => exact boxed _ h.iter_symbol
  | codewscope source scope =>
    exact boxed _ (h.iter_codewscope (by simpa only [Value.WellFormed] using hv)).1
  | int32 i => exact boxed _ h.iter_int32
  | timestamp t i => exact boxed _ h.iter_timestamp
  | int64 i => exact boxed _ h.iter_int64
  | decimal128 d => exact boxed _ h.iter_decimal128
  | undefined | null | maxkey | minkey => rfl

end

end

end Vklib.Bson
