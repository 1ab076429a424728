import Vklib.Bson.Iter
import Vklib.Bson.WellFormed

/-!
# What one step of the iterator does

`next_cases` says it once: on a buffer that holds the `len` bytes of the iterator,
no read of `_bson_iter_next_internal` leaves the buffer.  Either it is then on a field
(`Field`): a type, a key and a value lie at its offset, the value has the shape that its
type asks for, and the offsets of the iterator point at the parts of it.  Or it stops,
at the end of the bytes with the error offset of before, or else with an error offset
that is not zero.  Or it comes to the one sum that can overflow (`Iter.Overflows`).

The accessors are defined on every field (`bson_iter_utf8_eq` and its
companions), and so is the iterator over a nested document (`recurse_eq`).
-/

namespace Vklib.Bson

open Buffer

/-- The bytes of an iterator are in its buffer. -/
structure Iter.Fits (it : Iter) (data : Bytes) : Prop where
  raw : it.raw = some data
  le_length : it.len ≤ data.length
  le_max : it.len ≤ BSON_MAX_SIZE

/-- The offsets `d2` to `d4` and the value of a field, for each case. -/
def Shape (it : Iter) (data val : Bytes) : Layout → Prop
  | .fixed size => val.length = size
  | .string => ∃ w s, val = w ++ (s ++ [0]) ∧ w.length = 4 ∧ fromLe w = s.length + 1 ∧
      it.d2 = it.d1 + 4
  | .binary => ∃ w subtype payload, val = w ++ subtype :: payload ∧ w.length = 4 ∧
      fromLe w = payload.length ∧ it.d2 = it.d1 + 4 ∧ it.d3 = it.d1 + 5 ∧
      (subtype = 2 → ∃ w' rest, payload = w' ++ rest ∧ w'.length = 4 ∧ fromLe w' = rest.length)
  -- a length below four counts bytes that overlap its own word
  | .document => ∃ w, Lies data it.d1 w ∧ w.length = 4 ∧ fromLe w = val.length
  | .bool => val = [0] ∨ val = [1]
  | .regex => ∃ pattern options, val = pattern ++ 0 :: (options ++ [0]) ∧ NulFree pattern ∧
      NulFree options ∧ it.d2 = it.d1 + pattern.length + 1
  | .dbpointer => ∃ w s id, val = w ++ (s ++ 0 :: id) ∧ w.length = 4 ∧ fromLe w = s.length + 1 ∧
      id.length = 12 ∧ it.d2 = it.d1 + 4 ∧ it.d3 = it.d1 + 4 + (s.length + 1)
  -- nothing asks for a NUL behind the code
  | .codewscope => ∃ w w' code w'' scope, val = w ++ (w' ++ (code ++ (w'' ++ scope))) ∧
      w.length = 4 ∧ w'.length = 4 ∧ w''.length = 4 ∧ fromLe w = val.length ∧
      fromLe w' = code.length ∧ fromLe w'' = 4 + scope.length ∧ 0 < code.length ∧
      0 < scope.length ∧ it.d2 = it.d1 + 4 ∧ it.d3 = it.d1 + 8 ∧ it.d4 = it.d1 + 8 + code.length
  | .eod | .unsupported => False

theorem shape_err_off {it : Iter} {data val : Bytes} {L : Layout} (e : Nat) :
    Shape { it with err_off := e } data val L ↔ Shape it data val L := by
  cases L <;> rfl

/-- The iterator is on a field. -/
structure Field (it : Iter) (data : Bytes) (t : UInt8) (key val : Bytes) : Prop
    extends it.Fits data where
  lies : Lies data it.off (t :: (key ++ 0 :: val))
  nulFree : NulFree key
  off_ge : 4 ≤ it.off
  type_eq : it.type = it.off
  key_eq : it.key = it.off + 1
  d1_eq : it.d1 = it.off + 2 + key.length
  next_eq : it.next_off = it.d1 + val.length
  in_bounds : it.next_off < it.len
  err_off : it.err_off = 0
  shape : Shape it data val (layout t)

/-! ## The cases of the switch -/

/-- What a case leaves as it is. -/
structure Iter.SameField (it it' : Iter) : Prop where
  raw : it'.raw = it.raw
  len : it'.len = it.len
  off : it'.off = it.off
  type : it'.type = it.type
  key : it'.key = it.key
  d1 : it'.d1 = it.d1

/-- A binary of the deprecated subtype with `room` bytes for its payload, whose second
length word is so close to the largest `int32_t` that four more do not fit. -/
def OverlongBinary (data : Bytes) (place room : Nat) : Prop :=
  ∃ w w', w.length = 4 ∧ w'.length = 4 ∧ Lies data place (w ++ 2 :: w') ∧ 4 ≤ fromLe w ∧
    fromLe w < room ∧ 2 ^ 31 - 4 ≤ fromLe w' ∧ fromLe w' < 2 ^ 31

/-- A case finds a value of its shape, unless it ends behind the bytes of the
document, or it fails with an error offset, or it comes to the sum that overflows. -/
def CaseSpec (it : Iter) (data : Bytes) (L : Layout) (c : Case) : Prop :=
  (∃ it' o, c = .ok (it', o) ∧ it.SameField it' ∧ o ≠ 0 ∧
    (it'.next_off < it.len → ∃ val, Lies data it.d1 val ∧ it'.next_off = it.d1 + val.length ∧
      Shape it' data val L)) ∨
  (∃ it', c = .error it' ∧ it'.err_off ≠ 0) ∨
  (c = .undefined ∧ L = .binary ∧ OverlongBinary data it.d1 (it.len - it.d1 - 4))

/-- Where a case starts: behind the NUL of the key. -/
structure AtValue (it : Iter) (data : Bytes) : Prop extends it.Fits data where
  le : it.d1 ≤ it.len
  pos : 5 < it.d1

theorem caseSpec_invalidAt {it : Iter} {data : Bytes} {L : Layout} (it' : Iter)
    {e : Nat} (he : e ≠ 0) : CaseSpec it data L (invalidAt it' e) :=
  Or.inr (Or.inl ⟨_, rfl, he⟩)

section

variable {it : Iter} {data : Bytes}

theorem nextFixed_spec (h : AtValue it data) {size : Nat} (hsize : size ≤ 16) :
    CaseSpec it data (.fixed size) (nextFixed it it.d1 size) := by
  obtain ⟨⟨-, hlen, hmax⟩, hle, hpos⟩ := h
  unfold BSON_MAX_SIZE at hmax
  refine Or.inl ⟨_, _, rfl, ⟨rfl, rfl, rfl, rfl, rfl, rfl⟩, by omega, fun hlt => ?_⟩
  have hadd : add32 it.d1 size = it.d1 + size := by unfold add32; omega
  simp only [hadd] at hlt ⊢
  obtain ⟨val, -, hval, hlies⟩ :=
    exists_copy (ε := Empty) (m := data) (i := it.d1) (n := size) (by omega)
  exact ⟨val, hlies, by rw [hval], hval⟩

theorem nextString_spec (h : AtValue it data) :
    CaseSpec it data .string (nextString it data it.d1) := by
  obtain ⟨⟨-, hlen, hmax⟩, hle, hpos⟩ := h
  unfold BSON_MAX_SIZE at hmax
  unfold nextString
  have hadd : add32 it.d1 4 = it.d1 + 4 := by unfold add32; omega
  rw [hadd]
  split_ifs with hshort
  · exact caseSpec_invalidAt _ (by omega)
  have hsub : sub32 it.len (it.d1 + 4) = it.len - (it.d1 + 4) := by unfold sub32; omega
  obtain ⟨w, hw, hwlen, hwlies⟩ :=
    exists_loadLe (ε := Iter) (m := data) (i := it.d1) (n := 4) (by omega)
  simp only [hsub, hw, Outcome.ok_bind]
  generalize hl : fromLe w = l
  split_ifs with hlong hend
  · exact caseSpec_invalidAt _ (by omega)
  · exact caseSpec_invalidAt _ (by omega)
  have hadd' : add32 (it.d1 + 4) l = it.d1 + 4 + l := by unfold add32; omega
  rw [hadd'] at hend ⊢
  push Not at hend hlong
  obtain ⟨last, hload, hlast⟩ :=
    exists_load (ε := Iter) (m := data) (i := it.d1 + 4 + (l - 1)) (by omega)
  rw [hload, Outcome.ok_bind]
  split_ifs with hnul
  · refine caseSpec_invalidAt _ ?_
    unfold sub32
    omega
  · obtain rfl : last = 0 := not_not.mp hnul
    obtain ⟨s, -, hs, hslies⟩ :=
      exists_copy (ε := Empty) (m := data) (i := it.d1 + 4) (n := l - 1) (by omega)
    have hval : Lies data it.d1 (w ++ (s ++ [0])) := by
      rw [lies_append, lies_append, hwlen, hs]
      exact ⟨hwlies, hslies, hlast⟩
    refine Or.inl ⟨_, _, rfl, ⟨rfl, rfl, rfl, rfl, rfl, rfl⟩, by omega, fun _ => ⟨_, hval, ?_, ?_⟩⟩
    · simp only [List.length_append, List.length_singleton, hwlen, hs]
      omega
    · exact ⟨w, s, rfl, hwlen, by omega, rfl⟩

theorem nextBinary_spec (h : AtValue it data) :
    CaseSpec it data .binary (nextBinary it data it.d1) := by
  obtain ⟨⟨-, hlen, hmax⟩, hle, hpos⟩ := h
  unfold BSON_MAX_SIZE at hmax
  unfold nextBinary
  have hsub : sub32 it.len 4 = it.len - 4 := by unfold sub32; omega
  rw [hsub]
  split_ifs with hshort
  · exact caseSpec_invalidAt _ (by omega)
  have hadd4 : add32 it.d1 4 = it.d1 + 4 := by unfold add32; omega
  have hadd5 : add32 it.d1 5 = it.d1 + 5 := by unfold add32; omega
  have hroom : sub32 (sub32 it.len it.d1) 4 = it.len - it.d1 - 4 := by unfold sub32; omega
  obtain ⟨w, hw, hwlen, hwlies⟩ :=
    exists_loadLe (ε := Iter) (m := data) (i := it.d1) (n := 4) (by omega)
  simp only [hadd4, hadd5, hroom, hw, Outcome.ok_bind]
  generalize hl : fromLe w = l
  by_cases hlong : l ≥ it.len - it.d1 - 4
  · rw [if_pos hlong]
    exact caseSpec_invalidAt _ (by omega)
  rw [if_neg hlong]
  have hnext : add32 (it.d1 + 5) l = it.d1 + 5 + l := by unfold add32; omega
  obtain ⟨subtype, hload, hsubtype⟩ :=
    exists_load (ε := Iter) (m := data) (i := it.d1 + 4) (by omega)
  obtain ⟨payload, -, hplen, hplies⟩ :=
    exists_copy (ε := Empty) (m := data) (i := it.d1 + 5) (n := l) (by omega)
  have hval : Lies data it.d1 (w ++ subtype :: payload) := by
    rw [lies_append, lies_cons, hwlen]
    exact ⟨hwlies, hsubtype, hplies⟩
  have hvallen : it.d1 + 5 + l = it.d1 + (w ++ subtype :: payload).length := by
    simp only [List.length_append, List.length_cons, hwlen, hplen]
    omega
  rw [hload, Outcome.ok_bind]
  by_cases hdeprecated : subtype = 2
  · rw [if_pos hdeprecated]
    split_ifs with hfour
    · exact caseSpec_invalidAt _ (by omega)
    obtain ⟨w', hw', hw'len, hw'lies⟩ :=
      exists_loadLe (ε := Iter) (m := data) (i := it.d1 + 5) (n := 4) (by omega)
    rw [hw', Outcome.ok_bind]
    split_ifs with hsum hheader
    · refine Or.inr (Or.inr ⟨rfl, rfl, w, w', hwlen, hw'len, ?_, by omega, by omega, hsum⟩)
      rw [lies_append, lies_cons, hwlen]
      exact ⟨hwlies, hdeprecated ▸ hsubtype, hw'lies⟩
    · exact caseSpec_invalidAt _ (by omega)
    · refine Or.inl ⟨_, _, rfl, ⟨rfl, rfl, rfl, rfl, rfl, rfl⟩, by omega,
        fun _ => ⟨_, hval, hnext.trans hvallen, w, subtype, payload, rfl, hwlen, by omega, rfl, rfl,
          fun _ => ⟨payload.take 4, payload.drop 4, (List.take_append_drop 4 payload).symm, ?_, ?_⟩⟩⟩
      · rw [List.length_take]
        omega
      · have htake : payload.take 4 = w' := by
          refine Lies.eq (m := data) (i := it.d1 + 5) ?_ hw'lies ?_
          · exact (List.take_prefix 4 payload).trans hplies
          · rw [List.length_take]
            omega
        have hlt := fromLe_lt w'
        rw [hw'len] at hlt
        unfold add32 at hheader
        rw [htake, List.length_drop]
        omega
  · rw [if_neg hdeprecated]
    exact Or.inl ⟨_, _, rfl, ⟨rfl, rfl, rfl, rfl, rfl, rfl⟩, by omega,
      fun _ => ⟨_, hval, hnext.trans hvallen, w, subtype, payload, rfl, hwlen, by omega, rfl, rfl,
        fun h2 => absurd h2 hdeprecated⟩⟩

/-- The sum overflows on every such binary. -/
theorem nextBinary_of_overlong (h : AtValue it data)
    (hover : OverlongBinary data it.d1 (it.len - it.d1 - 4)) :
    nextBinary it data it.d1 = .undefined := by
  obtain ⟨⟨-, hlen, hmax⟩, hle, hpos⟩ := h
  obtain ⟨w, w', hwlen, hw'len, hlies, hfour, hroom, hsum⟩ := hover
  unfold BSON_MAX_SIZE at hmax
  rw [lies_append, lies_cons, hwlen] at hlies
  have hsub : sub32 it.len 4 = it.len - 4 := by unfold sub32; omega
  have hadd4 : add32 it.d1 4 = it.d1 + 4 := by unfold add32; omega
  have hadd5 : add32 it.d1 5 = it.d1 + 5 := by unfold add32; omega
  have hroom' : sub32 (sub32 it.len it.d1) 4 = it.len - it.d1 - 4 := by unfold sub32; omega
  have hword : (loadLe data (it.d1 + 5) 4 : Outcome Iter Nat) = .ok (fromLe w') :=
    hlies.2.2.loadLe hw'len (by decide)
  rw [nextBinary, hsub, if_neg (by omega)]
  simp only [hadd4, hadd5, hroom', hlies.1.loadLe hwlen (by decide), Outcome.ok_bind,
    hlies.2.1.load]
  rw [if_neg (by omega), if_pos trivial, if_neg (by omega), hword, Outcome.ok_bind, if_pos hsum]

theorem nextDocument_spec (h : AtValue it data) :
    CaseSpec it data .document (nextDocument it data it.d1) := by
  obtain ⟨⟨-, hlen, hmax⟩, hle, hpos⟩ := h
  unfold BSON_MAX_SIZE at hmax
  unfold nextDocument
  have hsub : sub32 it.len 4 = it.len - 4 := by unfold sub32; omega
  rw [hsub]
  split_ifs with hshort
  · exact caseSpec_invalidAt _ (by omega)
  have hroom : sub32 it.len it.d1 = it.len - it.d1 := by unfold sub32; omega
  obtain ⟨w, hw, hwlen, hwlies⟩ :=
    exists_loadLe (ε := Iter) (m := data) (i := it.d1) (n := 4) (by omega)
  simp only [hroom, hw, Outcome.ok_bind]
  split_ifs with hlong
  · exact caseSpec_invalidAt _ (by omega)
  have hnext : add32 it.d1 (fromLe w) = it.d1 + fromLe w := by unfold add32; omega
  obtain ⟨val, -, hval, hlies⟩ :=
    exists_copy (ε := Empty) (m := data) (i := it.d1) (n := fromLe w) (by omega)
  exact Or.inl ⟨_, _, rfl, ⟨rfl, rfl, rfl, rfl, rfl, rfl⟩, by omega,
    fun _ => ⟨val, hlies, by rw [hval]; exact hnext, w, hwlies, hwlen, hval.symm⟩⟩

theorem nextBool_spec (h : AtValue it data) :
    CaseSpec it data .bool (nextBool it data it.d1) := by
  obtain ⟨⟨-, hlen, hmax⟩, hle, hpos⟩ := h
  unfold BSON_MAX_SIZE at hmax
  unfold nextBool
  split_ifs with hshort
  · exact caseSpec_invalidAt _ (by omega)
  obtain ⟨val, hload, hlies⟩ := exists_load (ε := Iter) (m := data) (i := it.d1) (by omega)
  rw [hload, Outcome.ok_bind]
  split_ifs with hother
  · exact caseSpec_invalidAt _ (by omega)
  have hnext : add32 it.d1 1 = it.d1 + 1 := by unfold add32; omega
  refine Or.inl ⟨_, _, rfl, ⟨rfl, rfl, rfl, rfl, rfl, rfl⟩, by omega,
    fun _ => ⟨[val], hlies, hnext, ?_⟩⟩
  by_cases hzero : val = 0
  · exact Or.inl (by rw [hzero])
  · exact Or.inr (by rw [not_not.mp (not_and.mp hother hzero)])

theorem nextRegex_spec (h : AtValue it data) (herr : it.next_off ≠ 0) :
    CaseSpec it data .regex (nextRegex it data it.d1) := by
  obtain ⟨⟨-, hlen, hmax⟩, hle, hpos⟩ := h
  unfold BSON_MAX_SIZE at hmax
  unfold nextRegex
  rcases findNul_cases (ε := Iter) (m := data) (n := it.len - it.d1) (i := it.d1) (by omega) with
    ⟨hnone, -⟩ | ⟨pattern, hsome, hpattern, hlt, hlies⟩
  · rw [hnone, Outcome.ok_bind]
    exact caseSpec_invalidAt _ herr
  rw [hsome, Outcome.ok_bind]
  have hadd : add32 (it.d1 + pattern.length) 1 = it.d1 + pattern.length + 1 := by
    unfold add32; omega
  simp only [hadd]
  rcases findNul_cases (ε := Iter) (m := data) (n := it.len - (it.d1 + pattern.length + 1))
    (i := it.d1 + pattern.length + 1) (by omega) with
    ⟨hnone, -⟩ | ⟨options, hsome, hoptions, hlt', hlies'⟩
  · rw [hnone, Outcome.ok_bind]
    exact caseSpec_invalidAt _ herr
  rw [hsome, Outcome.ok_bind]
  have hnext : add32 (it.d1 + pattern.length + 1 + options.length) 1 =
      it.d1 + pattern.length + 1 + options.length + 1 := by
    unfold add32; omega
  have hval : Lies data it.d1 (pattern ++ 0 :: (options ++ [0])) := by
    rw [lies_append] at hlies ⊢
    exact ⟨hlies.1, lies_cons.mpr ⟨hlies.2, hlies'⟩⟩
  refine Or.inl ⟨_, _, rfl, ⟨rfl, rfl, rfl, rfl, rfl, rfl⟩, by omega, fun _ => ⟨_, hval, ?_, ?_⟩⟩
  · refine hnext.trans ?_
    simp only [List.length_append, List.length_cons, List.length_nil]
    omega
  · exact ⟨pattern, options, rfl, hpattern, hoptions, rfl⟩

theorem nextDbpointer_spec (h : AtValue it data) :
    CaseSpec it data .dbpointer (nextDbpointer it data it.d1) := by
  obtain ⟨⟨-, hlen, hmax⟩, hle, hpos⟩ := h
  unfold BSON_MAX_SIZE at hmax
  unfold nextDbpointer
  have hsub : sub32 it.len 4 = it.len - 4 := by unfold sub32; omega
  rw [hsub]
  split_ifs with hshort
  · exact caseSpec_invalidAt _ (by omega)
  have hadd4 : add32 it.d1 4 = it.d1 + 4 := by unfold add32; omega
  have hroom : sub32 (sub32 it.len it.d1) 4 = it.len - it.d1 - 4 := by unfold sub32; omega
  obtain ⟨w, hw, hwlen, hwlies⟩ :=
    exists_loadLe (ε := Iter) (m := data) (i := it.d1) (n := 4) (by omega)
  simp only [hadd4, hroom, hw, Outcome.ok_bind]
  generalize hl : fromLe w = l
  split_ifs with hlong
  · exact caseSpec_invalidAt _ (by omega)
  obtain ⟨last, hload, hlast⟩ :=
    exists_load (ε := Iter) (m := data) (i := it.d1 + l + 3) (by omega)
  have hlastat : add32 (add32 it.d1 l) 3 = it.d1 + l + 3 := by unfold add32; omega
  have hid : add32 (it.d1 + 4) l = it.d1 + 4 + l := by unfold add32; omega
  have hnext : add32 (it.d1 + 4 + l) 12 = it.d1 + 4 + l + 12 := by unfold add32; omega
  rw [hload, Outcome.ok_bind, hlastat, hid, hnext]
  split_ifs with hnul
  · exact caseSpec_invalidAt _ (by omega)
  obtain rfl : last = 0 := not_not.mp hnul
  refine Or.inl ⟨_, _, rfl, ⟨rfl, rfl, rfl, rfl, rfl, rfl⟩, by omega, fun hlt => ?_⟩
  simp only at hlt
  obtain ⟨s, -, hs, hslies⟩ :=
    exists_copy (ε := Empty) (m := data) (i := it.d1 + 4) (n := l - 1) (by omega)
  obtain ⟨id, -, hidlen, hidlies⟩ :=
    exists_copy (ε := Empty) (m := data) (i := it.d1 + 4 + l) (n := 12) (by omega)
  have hval : Lies data it.d1 (w ++ (s ++ 0 :: id)) := by
    rw [lies_append, lies_append, lies_cons, hwlen, hs]
    refine ⟨hwlies, hslies, ?_, ?_⟩
    · rwa [show it.d1 + 4 + (l - 1) = it.d1 + l + 3 from by omega]
    · rwa [show it.d1 + 4 + (l - 1) + 1 = it.d1 + 4 + l from by omega]
  refine ⟨_, hval, ?_, w, s, id, rfl, hwlen, by omega, hidlen, rfl, ?_⟩
  · simp only [List.length_append, List.length_cons, hwlen, hs, hidlen]
    omega
  · simp only [hs]
    omega

theorem nextCodewscope_spec (h : AtValue it data) :
    CaseSpec it data .codewscope (nextCodewscope it data it.d1) := by
  obtain ⟨⟨-, hlen, hmax⟩, hle, hpos⟩ := h
  unfold BSON_MAX_SIZE at hmax
  unfold nextCodewscope
  split_ifs with hshort
  · exact caseSpec_invalidAt _ (by omega)
  push Not at hshort
  obtain ⟨hmin, hshort⟩ := hshort
  have hsub : sub32 it.len 14 = it.len - 14 := by unfold sub32; omega
  rw [hsub] at hshort
  have hadd4 : add32 it.d1 4 = it.d1 + 4 := by unfold add32; omega
  have hadd8 : add32 it.d1 8 = it.d1 + 8 := by unfold add32; omega
  have hroom : sub32 it.len it.d1 = it.len - it.d1 := by unfold sub32; omega
  obtain ⟨w, hw, hwlen, hwlies⟩ :=
    exists_loadLe (ε := Iter) (m := data) (i := it.d1) (n := 4) (by omega)
  simp only [hadd4, hadd8, hroom, hw, Outcome.ok_bind]
  generalize hl : fromLe w = l
  split_ifs with hlong hend
  · exact caseSpec_invalidAt _ (by omega)
  · exact caseSpec_invalidAt _ (by omega)
  have hnext : add32 it.d1 l = it.d1 + l := by unfold add32; omega
  rw [hnext] at hend ⊢
  obtain ⟨w', hw', hw'len, hw'lies⟩ :=
    exists_loadLe (ε := Iter) (m := data) (i := it.d1 + 4) (n := 4) (by omega)
  have hroom' : sub32 (sub32 (it.len - it.d1) 4) 4 = it.len - it.d1 - 8 := by unfold sub32; omega
  rw [hw', Outcome.ok_bind, hroom']
  generalize hl' : fromLe w' = l'
  split_ifs with hcode hscope
  · exact caseSpec_invalidAt _ (by omega)
  · exact caseSpec_invalidAt _ (by omega)
  push Not at hcode hlong hend
  have hd4 : add32 (add32 (it.d1 + 4) 4) l' = it.d1 + 8 + l' := by unfold add32; omega
  have hd4' : add32 (it.d1 + 8 + l') 4 = it.d1 + 8 + l' + 4 := by unfold add32; omega
  rw [hd4] at hscope ⊢
  rw [hd4'] at hscope
  obtain ⟨w'', hw'', hw''len, hw''lies⟩ :=
    exists_loadLe (ε := Iter) (m := data) (i := it.d1 + 8 + l') (n := 4) (by omega)
  simp only [hw'', Outcome.ok_bind]
  have hlt := fromLe_lt w''
  rw [hw''len] at hlt
  split_ifs with hdoc
  · exact caseSpec_invalidAt _ (by omega)
  rw [not_not] at hdoc
  unfold add32 at hdoc
  obtain ⟨code, -, hcodelen, hcodelies⟩ :=
    exists_copy (ε := Empty) (m := data) (i := it.d1 + 8) (n := l') (by omega)
  obtain ⟨scope, -, hscopelen, hscopelies⟩ :=
    exists_copy (ε := Empty) (m := data) (i := it.d1 + 8 + l' + 4) (n := l - (8 + l' + 4))
      (by omega)
  have hval : Lies data it.d1 (w ++ (w' ++ (code ++ (w'' ++ scope)))) := by
    rw [lies_append, lies_append, lies_append, lies_append, hwlen, hw'len, hcodelen, hw''len]
    exact ⟨hwlies, hw'lies, hcodelies, hw''lies, hscopelies⟩
  have hvallen : (w ++ (w' ++ (code ++ (w'' ++ scope)))).length = l := by
    simp only [List.length_append, hwlen, hw'len, hcodelen, hw''len, hscopelen]
    omega
  refine Or.inl ⟨_, _, rfl, ⟨rfl, rfl, rfl, rfl, rfl, rfl⟩, by omega,
    fun _ => ⟨_, hval, by rw [hvallen], w, w', code, w'', scope, rfl, hwlen, hw'len, hw''len, ?_⟩⟩
  exact ⟨by rw [hvallen, hl], by omega, by omega, by omega, by omega, rfl, rfl, by rw [hcodelen]⟩

theorem nextCase_spec (h : AtValue it data) (herr : it.next_off ≠ 0) (t : UInt8) :
    CaseSpec it data (layout t) (nextCase it data it.d1 (layout t)) := by
  have hpos := h.pos
  have hfixed : ∀ size, layout t = .fixed size → size ≤ 16 := by
    intro size hsize
    unfold layout at hsize
    split at hsize <;> simp_all <;> omega
  cases hL : layout t with
  | fixed size => exact nextFixed_spec h (hfixed size hL)
  | string => exact nextString_spec h
  | binary => exact nextBinary_spec h
  | document => exact nextDocument_spec h
  | bool => exact nextBool_spec h
  | regex => exact nextRegex_spec h herr
  | dbpointer => exact nextDbpointer_spec h
  | codewscope => exact nextCodewscope_spec h
  | eod => exact caseSpec_invalidAt _ (by omega)
  | unsupported => exact caseSpec_invalidAt _ (by omega)

end

/-! ## One step -/

theorem bson_iter_init_eq {data : Bytes} {len : Nat} (h : 5 ≤ len) :
    bson_iter_init data len = some (Iter.start data len) := by
  rw [bson_iter_init, if_neg (by omega)]

/-- An iterator that can go on: in front of the first field or on a field. -/
structure Ready (it : Iter) (data : Bytes) : Prop extends it.Fits data where
  ge : 4 ≤ it.next_off
  le : it.next_off ≤ max 4 it.len
  err_off : it.err_off = 0

theorem Field.ready {it : Iter} {data : Bytes} {t : UInt8} {key val : Bytes}
    (h : Field it data t key val) : Ready it data where
  toFits := h.toFits
  ge := by
    have hoff := h.off_ge
    have hd1 := h.d1_eq
    rw [h.next_eq]
    omega
  le := (Nat.le_of_lt h.in_bounds).trans (le_max_right _ _)
  err_off := h.err_off

/-- No NUL is left for the key of another field. -/
def AtEnd (it : Iter) (data : Bytes) : Prop :=
  NulFree ((data.drop (it.next_off + 1)).take (it.len - (it.next_off + 1)))

/-- The iterator that the `switch` finds, behind a key. -/
def Iter.behindKey (it : Iter) (key : Bytes) : Iter :=
  { it with
    off := it.next_off, type := it.next_off, key := it.next_off + 1
    d1 := it.next_off + 2 + key.length, d2 := 0, d3 := 0, d4 := 0 }

theorem Ready.atValue {it : Iter} {data : Bytes} (h : Ready it data) {key : Bytes}
    (hin : it.next_off + 2 + key.length ≤ it.len) : AtValue (it.behindKey key) data where
  raw := h.raw
  le_length := h.le_length
  le_max := h.le_max
  le := hin
  pos := by
    have hge := h.ge
    simp only [Iter.behindKey]
    omega

/-- In front of a type and a key, a step is the case of that type. -/
theorem next_of_key {ε : Type} {it : Iter} {data : Bytes} (h : Ready it data) {t : UInt8}
    {key : Bytes} (hkey : NulFree key) (hlies : Lies data it.next_off (t :: (key ++ [0])))
    (hin : it.next_off + 2 + key.length ≤ it.len) :
    (_bson_iter_next_internal it : Outcome ε Next) =
      finishNext t
        (nextCase (it.behindKey key) data (it.behindKey key).d1 (layout t)) := by
  have hmax := h.le_max
  unfold BSON_MAX_SIZE at hmax
  have hadd : add32 it.next_off 1 = it.next_off + 1 := by unfold add32; omega
  have hd1 : add32 (it.next_off + 1 + key.length) 1 = it.next_off + 2 + key.length := by
    unfold add32; omega
  have hnul : (findNul data (it.len - (it.next_off + 1)) (it.next_off + 1) :
      Outcome ε (Option Nat)) = .ok (some (it.next_off + 1 + key.length)) :=
    (lies_cons.mp hlies).2.findNul hkey (by omega)
  unfold _bson_iter_next_internal
  simp only [h.raw, hadd, hnul, Outcome.ok_bind, hd1, hlies.load, Iter.behindKey]

theorem layout_eq_binary {t : UInt8} : layout t = .binary ↔ t = 0x05 := by
  constructor
  · intro h
    unfold layout at h
    split at h <;> simp_all [← UInt8.toNat_inj]
  · rintro rfl
    rfl

/-- The field in front of an iterator is a binary whose lengths overflow. -/
def Iter.Overflows (it : Iter) : Prop :=
  ∃ data key, it.raw = some data ∧ NulFree key ∧ Lies data it.next_off (0x05 :: (key ++ [0])) ∧
    OverlongBinary data (it.next_off + 2 + key.length)
      (it.len - (it.next_off + 2 + key.length) - 4)

theorem next_of_overflows {ε : Type} {it : Iter} {data : Bytes} (h : Ready it data)
    (hover : it.Overflows) : (_bson_iter_next_internal it : Outcome ε Next) = .undefined := by
  obtain ⟨data', key, hraw, hkey, hlies, hlong⟩ := hover
  obtain rfl : data = data' := Option.some.inj (h.raw.symm.trans hraw)
  have hin : it.next_off + 2 + key.length ≤ it.len := by
    obtain ⟨w, w', -, -, -, -, hroom, -⟩ := hlong
    omega
  have hcase : nextCase (it.behindKey key) data (it.behindKey key).d1 (layout 0x05) = .undefined :=
    nextBinary_of_overlong (h.atValue hin) hlong
  rw [next_of_key h hkey hlies hin, hcase, finishNext]

/-- One step finds the field at the offset of the iterator, or it stops, at the end or
with an error offset, or it overflows. -/
theorem next_cases {ε : Type} {it : Iter} {data : Bytes} (h : Ready it data) :
    (∃ it' t key val, (_bson_iter_next_internal it : Outcome ε Next) = .ok (.field it' t) ∧
      Field it' data t key val ∧ it'.off = it.next_off ∧ it'.len = it.len) ∨
    (∃ it' u, (_bson_iter_next_internal it : Outcome ε Next) = .ok (.stop it' u) ∧
      it'.raw = none ∧ (AtEnd it data ∧ it'.err_off = 0 ∨ it'.err_off ≠ 0)) ∨
    ((_bson_iter_next_internal it : Outcome ε Next) = .undefined ∧ it.Overflows) := by
  have hlen := h.le_length
  have hmax := h.le_max
  have hge := h.ge
  have hle := h.le
  unfold BSON_MAX_SIZE at hmax
  have hadd : add32 it.next_off 1 = it.next_off + 1 := by unfold add32; omega
  rcases findNul_cases (ε := ε) (m := data) (n := it.len - (it.next_off + 1)) (i := it.next_off + 1)
    (by omega) with ⟨hnone, hfree⟩ | ⟨key, -, hkey, hlt, hlies⟩
  · unfold _bson_iter_next_internal
    simp only [h.raw, hadd, hnone, Outcome.ok_bind]
    exact Or.inr (Or.inl ⟨_, _, rfl, rfl, Or.inl ⟨hfree, h.err_off⟩⟩)
  obtain ⟨t, -, htype⟩ := exists_load (ε := ε) (m := data) (i := it.next_off) (by omega)
  have hin : it.next_off + 2 + key.length ≤ it.len := by omega
  rw [next_of_key h hkey (lies_cons.mpr ⟨htype, hlies⟩) hin]
  rcases nextCase_spec (h.atValue hin) (by simp only [Iter.behindKey]; omega) t with
    ⟨it', o, hcase, hsame, ho, hval⟩ | ⟨it', hcase, herr⟩ | ⟨hcase, hbinary, hlong⟩
  · have hsamelen : it'.len = it.len := hsame.len
    rw [hcase, finishNext]
    by_cases hend : it'.next_off ≥ it'.len
    · rw [if_pos hend]
      exact Or.inr (Or.inl ⟨_, _, rfl, rfl, Or.inr ho⟩)
    · rw [if_neg hend]
      obtain ⟨val, hvallies, hnext, hshape⟩ := hval (by simp only [Iter.behindKey]; omega)
      have hoff : it'.off = it.next_off := hsame.off
      have hd1 : it'.d1 = it.next_off + 2 + key.length := hsame.d1
      refine Or.inl ⟨_, t, key, val, rfl, ?_, hoff, hsamelen⟩
      refine ⟨⟨hsame.raw.trans h.raw, hsamelen.symm ▸ h.le_length, hsamelen.symm ▸ h.le_max⟩,
        ?_, hkey, hoff.symm ▸ hge, hsame.type.trans hoff.symm, ?_, ?_, ?_, ?_, rfl,
        (shape_err_off 0).mpr hshape⟩
      · simp only [hoff]
        refine lies_cons.mpr ⟨htype, ?_⟩
        rw [List.append_cons, lies_append, List.length_append, List.length_singleton,
          show it.next_off + 1 + (key.length + 1) = it.next_off + 2 + key.length from by omega]
        exact ⟨hlies, hvallies⟩
      · exact hsame.key.trans (congrArg (· + 1) hoff.symm)
      · simp only [hd1, hoff]
      · simp only [hd1, hnext, Iter.behindKey]
      · simp only
        omega
  · rw [hcase, finishNext]
    exact Or.inr (Or.inl ⟨_, _, rfl, rfl, Or.inr herr⟩)
  · rw [hcase, finishNext]
    refine Or.inr (Or.inr ⟨rfl, data, key, h.raw, hkey, ?_, hlong⟩)
    exact lies_cons.mpr ⟨layout_eq_binary.mp hbinary ▸ htype, hlies⟩

/-! ## The accessors on a field -/

section

variable {ε : Type} {it : Iter} {data : Bytes} {t : UInt8} {key val : Bytes}

theorem Field.lies_val (h : Field it data t key val) : Lies data it.d1 val := by
  have hlies := (lies_cons.mp h.lies).2
  rw [List.append_cons, lies_append, List.length_append, List.length_singleton,
    show it.off + 1 + (key.length + 1) = it.d1 from by rw [h.d1_eq]; omega] at hlies
  exact hlies.2

/-- A field ends before the last byte of the document. -/
theorem Field.end_lt (h : Field it data t key val) : it.d1 + val.length < data.length := by
  rw [← h.next_eq]
  exact Nat.lt_of_lt_of_le h.in_bounds h.le_length

theorem Field.iter_type (h : Field it data t key val) :
    (bson_iter_type it : Outcome ε UInt8) = .ok t := by
  rw [bson_iter_type, Iter.deref, h.raw, h.type_eq]
  exact h.lies.load

theorem Field.lies_key (h : Field it data t key val) : Lies data it.key (key ++ 0 :: val) := by
  rw [h.key_eq]
  exact (lies_cons.mp h.lies).2

theorem Field.iter_key (h : Field it data t key val) :
    (bson_iter_key it : Outcome ε Bytes) = .ok key := by
  rw [bson_iter_key, Iter.deref, h.raw]
  exact h.lies_key.text h.nulFree

theorem Field.keyBytes_eq (h : Field it data t key val) :
    (keyBytes it : Outcome ε Bytes) = .ok key := by
  have hgt : it.d1 > it.key := by rw [h.d1_eq, h.key_eq]; omega
  have hlen : it.d1 - it.key - 1 = key.length := by rw [h.d1_eq, h.key_eq]; omega
  simp only [keyBytes, bson_iter_key_len, if_pos hgt, Outcome.ok_bind, hlen, Iter.deref, h.raw]
  cases hkey : key with
  | nil =>
    have hin : it.key ≤ data.length := by
      have := h.end_lt
      omega
    simp [copy, hin]
  | cons c rest => exact hkey ▸ h.lies_key.left.copy rfl (by simp [hkey])

theorem Field.whenType_eq (h : Field it data t key val) {α : Type} {types : List UInt8}
    (ht : t ∈ types) {read : Bytes → Outcome ε α} {x : α} (hread : read data = .ok x) :
    whenType it types read = .ok (some x) := by
  rw [whenType, h.iter_type, Outcome.ok_bind, if_pos ht, Iter.deref, h.raw]
  simp only [hread, Outcome.ok_bind]

theorem Field.mem_types (h : Field it data t key val) {α : Type} {types : List UInt8}
    {read : Bytes → Outcome ε α} {x : α} (hread : whenType it types read = .ok (some x)) :
    t ∈ types := by
  by_contra ht
  rw [whenType, h.iter_type, Outcome.ok_bind, if_neg ht] at hread
  cases hread

theorem Field.word64_eq (h : Field it data t key val) (hval : val.length = 8) :
    (word64 it data : Outcome ε UInt64) = .ok (.ofNat (fromLe val)) := by
  rw [word64, h.lies_val.loadLe hval (by decide), Outcome.ok_bind]

theorem Field.iter_double (h : Field it data 0x01 key val) :
    (bson_iter_double it : Outcome ε (Option F64)) = .ok (some ⟨.ofNat (fromLe val)⟩) :=
  h.whenType_eq (by simp) (by rw [h.word64_eq h.shape, Outcome.ok_bind])

theorem Field.iter_int64 (h : Field it data 0x12 key val) :
    (bson_iter_int64 it : Outcome ε (Option Int64)) =
      .ok (some (UInt64.ofNat (fromLe val)).toInt64) :=
  h.whenType_eq (by simp) (by rw [h.word64_eq h.shape, Outcome.ok_bind])

theorem Field.iter_date_time (h : Field it data 0x09 key val) :
    (bson_iter_date_time it : Outcome ε (Option Int64)) =
      .ok (some (UInt64.ofNat (fromLe val)).toInt64) :=
  h.whenType_eq (by simp) (by rw [h.word64_eq h.shape, Outcome.ok_bind])

theorem Field.iter_timestamp (h : Field it data 0x11 key val) :
    (bson_iter_timestamp it : Outcome ε (Option (UInt32 × UInt32))) =
      .ok (some ((UInt64.ofNat (fromLe val) >>> 32).toUInt32, (UInt64.ofNat (fromLe val)).toUInt32)) :=
  h.whenType_eq (by simp) (by rw [h.word64_eq h.shape, Outcome.ok_bind])

theorem Field.iter_int32 (h : Field it data 0x10 key val) :
    (bson_iter_int32 it : Outcome ε (Option Int32)) =
      .ok (some (UInt32.ofNat (fromLe val)).toInt32) :=
  h.whenType_eq (by simp) (by rw [h.lies_val.loadLe h.shape (by decide), Outcome.ok_bind])

theorem Field.iter_oid (h : Field it data 0x07 key val) :
    (bson_iter_oid it : Outcome ε (Option Oid)) = .ok (some val) :=
  h.whenType_eq (by simp) (h.lies_val.copy h.shape (by decide))

theorem Field.iter_decimal128 (h : Field it data 0x13 key val) :
    (bson_iter_decimal128 it : Outcome ε (Option Decimal128)) =
      .ok (some ⟨.ofNat (fromLe (val.take 8)), .ofNat (fromLe (val.drop 8))⟩) := by
  have hlen : val.length = 16 := h.shape
  have hlow : (val.take 8).length = 8 := by simp [hlen]
  have hhigh : (val.drop 8).length = 8 := by simp [hlen]
  have hlies := h.lies_val
  rw [← List.take_append_drop 8 val, lies_append, hlow] at hlies
  refine h.whenType_eq (by simp) ?_
  rw [hlies.1.loadLe hlow (by decide), Outcome.ok_bind, hlies.2.loadLe hhigh (by decide),
    Outcome.ok_bind]

theorem Field.iter_bool (h : Field it data 0x08 key val) :
    ∃ b : Bool, val = [if b then 1 else 0] ∧
      (bson_iter_bool it : Outcome ε (Option Bool)) = .ok (some b) := by
  rcases (h.shape : val = [0] ∨ val = [1]) with rfl | rfl
  · exact ⟨false, rfl, h.whenType_eq (by simp) (by rw [h.lies_val.load]; rfl)⟩
  · exact ⟨true, rfl, h.whenType_eq (by simp) (by rw [h.lies_val.load]; rfl)⟩

/-- A small length word read as an `int32_t`. -/
theorem toInt_toInt32_ofNat {n : Nat} (h : n < 2 ^ 31) :
    (UInt32.ofNat n).toInt32.toInt = n := by
  have hnat : (UInt32.ofNat n).toNat = n := by
    rw [UInt32.toNat_ofNat']
    omega
  rw [← Int32.toInt_toBitVec, UInt32.toBitVec_toInt32, BitVec.toInt_eq_toNat_of_lt]
  · rw [UInt32.toNat_toBitVec, hnat]
  · rw [UInt32.toNat_toBitVec, hnat]
    omega

/-- The value of a field is shorter than `2 ^ 31`. -/
theorem Field.length_lt (h : Field it data t key val) : val.length + 7 < 2 ^ 31 := by
  have hmax := h.le_max
  have hbound := h.in_bounds
  have hoff := h.off_ge
  have hd1 := h.d1_eq
  rw [h.next_eq] at hbound
  unfold BSON_MAX_SIZE at hmax
  omega

theorem Field.stringText_eq (h : Field it data t key val) (ht : layout t = .string) :
    ∃ w s, val = w ++ (s ++ [0]) ∧ w.length = 4 ∧ fromLe w = s.length + 1 ∧
      (stringText it t : Outcome ε (Option Bytes)) = .ok (some s) := by
  have hshape := h.shape
  rw [ht] at hshape
  obtain ⟨w, s, rfl, hw, hcount, hd2⟩ := hshape
  refine ⟨w, s, rfl, hw, hcount, h.whenType_eq (by simp) ?_⟩
  have hend := h.end_lt
  have hlt := h.length_lt
  simp only [List.length_append, List.length_singleton] at hend hlt
  have hint : ((UInt32.ofNat (fromLe w)).toInt32.toInt - 1).toNat = s.length := by
    rw [toInt_toInt32_ofNat (by omega)]
    omega
  have hlies := lies_append.mp h.lies_val
  rw [ bson_iter_utf8_len_unsafe, hlies.1.loadLe hw (by decide), Outcome.ok_bind,
    Outcome.ok_bind, hint, hd2]
  exact (hw ▸ hlies.2.left).copy_of_le rfl (by omega)

theorem Field.iter_utf8 (h : Field it data 0x02 key val) :
    ∃ w s, val = w ++ (s ++ [0]) ∧ w.length = 4 ∧ fromLe w = s.length + 1 ∧
      (bson_iter_utf8 it : Outcome ε (Option Bytes)) = .ok (some s) :=
  h.stringText_eq rfl

theorem Field.iter_code (h : Field it data 0x0D key val) :
    ∃ w s, val = w ++ (s ++ [0]) ∧ w.length = 4 ∧ fromLe w = s.length + 1 ∧
      (bson_iter_code it : Outcome ε (Option Bytes)) = .ok (some s) :=
  h.stringText_eq rfl

theorem Field.iter_symbol (h : Field it data 0x0E key val) :
    ∃ w s, val = w ++ (s ++ [0]) ∧ w.length = 4 ∧ fromLe w = s.length + 1 ∧
      (bson_iter_symbol it : Outcome ε (Option Bytes)) = .ok (some s) :=
  h.stringText_eq rfl

theorem Field.iter_binary (h : Field it data 0x05 key val) :
    ∃ w subtype payload, val = w ++ subtype :: payload ∧ w.length = 4 ∧
      fromLe w = payload.length ∧
      (subtype = 2 → ∃ w' rest, payload = w' ++ rest ∧ w'.length = 4 ∧ fromLe w' = rest.length) ∧
      (bson_iter_binary it : Outcome ε (Option (UInt8 × Bytes))) =
        .ok (some (subtype, if subtype = 2 then payload.drop 4 else payload)) := by
  obtain ⟨w, subtype, payload, rfl, hw, hcount, hd2, hd3, hdeprecated⟩ :=
    (h.shape : Shape it data val .binary)
  refine ⟨w, subtype, payload, rfl, hw, hcount, hdeprecated, h.whenType_eq (by simp) ?_⟩
  have hend := h.end_lt
  have hlt := h.length_lt
  simp only [List.length_append, List.length_cons] at hend hlt
  have hlies := lies_append.mp h.lies_val
  rw [hw, lies_cons] at hlies
  rw [hd2, hlies.2.1.load, Outcome.ok_bind, hlies.1.loadLe hw (by decide), Outcome.ok_bind, hcount,
    hd3]
  by_cases h2 : subtype = 2
  · obtain ⟨w', rest, rfl, hw', -⟩ := hdeprecated h2
    have hpayload := lies_append.mp hlies.2.2
    rw [hw'] at hpayload
    simp only [List.length_append] at hend hlt
    have hsub : sub32 (w' ++ rest).length 4 = rest.length := by
      rw [List.length_append, hw']
      unfold sub32
      omega
    have hcopy : (copy data (it.d1 + 5 + 4) rest.length : Outcome ε Bytes) = .ok rest :=
      Lies.copy_of_le hpayload.2 rfl (by omega)
    rw [if_pos h2, if_pos h2, hsub, hcopy, Outcome.ok_bind, ← hw', List.drop_left]
  · rw [if_neg h2, if_neg h2, Lies.copy_of_le hlies.2.2 rfl (by omega), Outcome.ok_bind]

/-- The documents of a field: their length and the bytes from there on. -/
theorem Field.documentAt_eq (h : Field it data t key val) (ht : layout t = .document) :
    (documentAt it t : Outcome ε (Option (Nat × Bytes))) =
      .ok (some (val.length, data.drop it.d1)) := by
  have hshape := h.shape
  rw [ht] at hshape
  obtain ⟨w, hlies, hw, hcount⟩ := hshape
  exact h.whenType_eq (by simp) (by rw [hlies.loadLe hw (by decide), hcount, Outcome.ok_bind])

theorem Field.iter_regex (h : Field it data 0x0B key val) :
    ∃ pattern options, val = pattern ++ 0 :: (options ++ [0]) ∧ NulFree pattern ∧
      NulFree options ∧
      (bson_iter_regex it : Outcome ε (Option (Bytes × Bytes))) =
        .ok (some (pattern, options)) := by
  obtain ⟨pattern, options, rfl, hpattern, hoptions, hd2⟩ := (h.shape : Shape it data val .regex)
  refine ⟨pattern, options, rfl, hpattern, hoptions, h.whenType_eq (by simp) ?_⟩
  have hlies := h.lies_val
  rw [hlies.text hpattern, Outcome.ok_bind, hd2,
    (lies_cons.mp (lies_append.mp hlies).2).2.text hoptions, Outcome.ok_bind]

theorem Field.iter_dbpointer (h : Field it data 0x0C key val) :
    ∃ w s id, val = w ++ (s ++ 0 :: id) ∧ w.length = 4 ∧ fromLe w = s.length + 1 ∧
      id.length = 12 ∧
      (bson_iter_dbpointer it : Outcome ε (Option (Bytes × Oid))) = .ok (some (s, id)) := by
  obtain ⟨w, s, id, rfl, hw, hcount, hid, hd2, hd3⟩ := (h.shape : Shape it data val .dbpointer)
  refine ⟨w, s, id, rfl, hw, hcount, hid, h.whenType_eq (by simp) ?_⟩
  have hend := h.end_lt
  simp only [List.length_append, List.length_cons] at hend
  have hlies := lies_append.mp h.lies_val
  rw [hw, lies_append, lies_cons] at hlies
  have hcopy : (copy data (it.d1 + 4) s.length : Outcome ε Bytes) = .ok s :=
    hlies.2.1.copy_of_le rfl (by omega)
  rw [hlies.1.loadLe hw (by decide), Outcome.ok_bind, hcount, hd2, hd3, Nat.add_sub_cancel, hcopy,
    Outcome.ok_bind, ← Nat.add_assoc, Lies.copy (n := 12) hlies.2.2.2 hid (by decide),
    Outcome.ok_bind]

theorem Field.iter_codewscope (h : Field it data 0x0F key val) :
    ∃ w w' code w'' scope, val = w ++ (w' ++ (code ++ (w'' ++ scope))) ∧ w.length = 4 ∧
      w'.length = 4 ∧ w''.length = 4 ∧ fromLe w = val.length ∧ fromLe w' = code.length ∧
      fromLe w'' = 4 + scope.length ∧ 0 < code.length ∧ 0 < scope.length ∧
      it.d4 = it.d1 + 8 + code.length ∧
      (bson_iter_codewscope it : Outcome ε (Option (Bytes × Nat × Bytes))) =
        .ok (some (code.dropLast, 4 + scope.length, data.drop it.d4)) := by
  obtain ⟨w, w', code, w'', scope, hval, hw, hw', hw'', hcount, hcount', hcount'', hcode, hscope,
    hd2, hd3, hd4⟩ := (h.shape : Shape it data val .codewscope)
  refine ⟨w, w', code, w'', scope, hval, hw, hw', hw'', hcount, hcount', hcount'', hcode, hscope,
    hd4, h.whenType_eq (by simp) ?_⟩
  have hend := h.end_lt
  have hlies := h.lies_val
  rw [hval, lies_append, lies_append, lies_append, lies_append, hw, hw'] at hlies
  simp only [hval, List.length_append] at hend
  have hword : (loadLe data (it.d1 + 8 + code.length) 4 : Outcome ε Nat) = .ok (fromLe w'') :=
    Lies.loadLe hlies.2.2.2.1 hw'' (by decide)
  have hcopy : (copy data (it.d1 + 8) (code.length - 1) : Outcome ε Bytes) = .ok code.dropLast :=
    Lies.copy_of_le ((List.dropLast_prefix code).trans hlies.2.2.1) (by simp) (by omega)
  rw [hd2, hlies.2.1.loadLe hw' (by decide), Outcome.ok_bind, hcount', if_neg (by omega), hd3, hcopy,
    Outcome.ok_bind, hd4, hword, Outcome.ok_bind, hcount'']

theorem layout_eq_document {t : UInt8} : layout t = .document ↔ t = 0x03 ∨ t = 0x04 := by
  rw [← UInt8.toNat_inj, ← UInt8.toNat_inj]
  unfold layout
  split <;> simp_all

/-- A nested document is entered with an iterator of its own. -/
theorem Field.recurse_eq (h : Field it data t key val) :
    (bson_iter_recurse it : Outcome ε (Option Iter)) =
      .ok (if layout t = .document then some (Iter.start (data.drop it.d1) val.length)
        else none) := by
  rw [bson_iter_recurse, h.iter_type, Outcome.ok_bind]
  by_cases h3 : t = 0x03
  · subst h3
    rw [if_pos rfl, bson_iter_document, h.documentAt_eq rfl, Outcome.ok_bind,
      if_pos (layout_eq_document.mpr (Or.inl rfl))]
    rfl
  by_cases h4 : t = 0x04
  · subst h4
    rw [if_neg (by decide), if_pos rfl, bson_iter_array, h.documentAt_eq rfl, Outcome.ok_bind,
      if_pos (layout_eq_document.mpr (Or.inr rfl))]
    rfl
  · rw [if_neg h3, if_neg h4, if_neg (mt layout_eq_document.mp (not_or.mpr ⟨h3, h4⟩))]

/-- The iterator over a nested document can go on. -/
theorem Field.ready_child (h : Field it data t key val) :
    Ready (Iter.start (data.drop it.d1) val.length) (data.drop it.d1) := by
  have hend := h.end_lt
  have hlt := h.length_lt
  have hmax : val.length ≤ BSON_MAX_SIZE := by unfold BSON_MAX_SIZE; omega
  exact ⟨⟨rfl, by simp only [Iter.start, List.length_drop]; omega, hmax⟩, le_refl _,
    le_max_left _ _, rfl⟩

/-- The iterator over the scope of a code can go on. -/
theorem Field.ready_scope (h : Field it data t key val) {code scope : Bytes} {scope_len : Nat}
    (hscope : (bson_iter_codewscope it : Outcome ε (Option (Bytes × Nat × Bytes))) =
      .ok (some (code, scope_len, scope))) :
    scope_len < val.length ∧ scope = data.drop it.d4 ∧
      Ready (Iter.start scope scope_len) scope := by
  obtain rfl : t = 0x0F := by simpa using h.mem_types hscope
  obtain ⟨w, w', text, w'', rest, hval, hw, hw', hw'', -, -, -, htext, -, hd4, hread⟩ :=
    h.iter_codewscope (ε := ε)
  rw [hread] at hscope
  cases hscope
  have hend := h.end_lt
  have hlt := h.length_lt
  have hlen := congrArg List.length hval
  simp only [List.length_append, hw, hw', hw''] at hlen
  have hmax : 4 + rest.length ≤ BSON_MAX_SIZE := by unfold BSON_MAX_SIZE; omega
  refine ⟨by omega, rfl, ⟨rfl, ?_, hmax⟩, le_refl _, le_max_left _ _, rfl⟩
  simp only [Iter.start, List.length_drop]
  omega

/-- The types with a case of their own. -/
theorem Field.type_cases (h : Field it data t key val) :
    t = 0x01 ∨ t = 0x02 ∨ t = 0x03 ∨ t = 0x04 ∨ t = 0x05 ∨ t = 0x06 ∨ t = 0x07 ∨ t = 0x08 ∨
    t = 0x09 ∨ t = 0x0A ∨ t = 0x0B ∨ t = 0x0C ∨ t = 0x0D ∨ t = 0x0E ∨ t = 0x0F ∨ t = 0x10 ∨
    t = 0x11 ∨ t = 0x12 ∨ t = 0x13 ∨ t = 0x7F ∨ t = 0xFF := by
  have hshape := h.shape
  simp only [← UInt8.toNat_inj]
  unfold layout at hshape
  split at hshape <;> first | exact hshape.elim | simp_all

/-- The payload of a binary value, from what `bson_iter_binary` returns of it. -/
def storedPayload (subtype : UInt8) (payload : Bytes) : Bytes :=
  if subtype = 2 then le32 payload.length.toUInt32 ++ payload else payload

/-- The type and the bytes of a field whose value `bson_iter_value` reads as this.
The code of a code with scope ends with a byte that nobody looks at. -/
def Reads (it : Iter) (data : Bytes) (t : UInt8) (val : Bytes) : RawValue → Prop
  | .double x => t = 0x01 ∧ val = le64 x.bits
  | .utf8 s => t = 0x02 ∧ val = stringData s
  | .document len d => t = 0x03 ∧ len = val.length ∧ d = data.drop it.d1
  | .array len d => t = 0x04 ∧ len = val.length ∧ d = data.drop it.d1
  | .binary subtype payload => t = 0x05 ∧
      val = le32 (storedPayload subtype payload).length.toUInt32 ++
        subtype :: storedPayload subtype payload
  | .undefined => t = 0x06 ∧ val = []
  | .oid id => t = 0x07 ∧ val = id ∧ id.length = 12
  | .bool b => t = 0x08 ∧ val = [if b then 1 else 0]
  | .dateTime ms => t = 0x09 ∧ val = le64 ms.toUInt64
  | .null => t = 0x0A ∧ val = []
  | .regex pattern options => t = 0x0B ∧ val = pattern ++ 0 :: (options ++ [0]) ∧
      NulFree pattern ∧ NulFree options
  | .dbpointer collection id => t = 0x0C ∧ val = stringData collection ++ id ∧ id.length = 12
  | .code source => t = 0x0D ∧ val = stringData source
  | .symbol s => t = 0x0E ∧ val = stringData s
  | .codewscope source len d => t = 0x0F ∧ ∃ last scope,
      val = le32 val.length.toUInt32 ++
        (le32 (source.length + 1).toUInt32 ++ ((source ++ [last]) ++ scope)) ∧
      len = scope.length ∧ it.d4 = it.d1 + 8 + (source.length + 1) ∧ d = data.drop it.d4
  | .int32 i => t = 0x10 ∧ val = le32 i.toUInt32
  | .timestamp timestamp increment => t = 0x11 ∧ val = le32 increment ++ le32 timestamp
  | .int64 i => t = 0x12 ∧ val = le64 i.toUInt64
  | .decimal128 d => t = 0x13 ∧ val = le64 d.low ++ le64 d.high
  | .maxkey => t = 0x7F ∧ val = []
  | .minkey => t = 0xFF ∧ val = []

/-- A word of four bytes is the encoding of its number. -/
theorem eq_le32 {w : Bytes} (hw : w.length = 4) : w = le32 (.ofNat (fromLe w)) := by
  refine fromLe_inj hw ?_
  have hlt := fromLe_lt w
  rw [hw] at hlt
  rw [fromLe_le32, UInt32.toNat_ofNat']
  exact (Nat.mod_eq_of_lt hlt).symm

/-- A word of eight bytes is the encoding of its number. -/
theorem eq_le64 {w : Bytes} (hw : w.length = 8) : w = le64 (.ofNat (fromLe w)) := by
  refine fromLe_inj hw ?_
  have hlt := fromLe_lt w
  rw [hw] at hlt
  rw [fromLe_le64, UInt64.toNat_ofNat']
  exact (Nat.mod_eq_of_lt hlt).symm

theorem eq_le32_of_count {w : Bytes} (hw : w.length = 4) {n : Nat} (hcount : fromLe w = n) :
    w = le32 n.toUInt32 := by
  rw [← hcount]
  exact eq_le32 hw

/-- The value of a field is read as what lies there. -/
theorem Field.iter_value (h : Field it data t key val) :
    ∃ r, (bson_iter_value it : Outcome ε (Option RawValue)) = .ok (some r) ∧
      Reads it data t val r := by
  have boxed {α : Type} {read : Outcome ε (Option α)} {x : α} (box : α → RawValue)
      (hread : read = .ok (some x)) (hbox : Reads it data t val (box x)) :
      ∃ r, (read >>= fun x => (.ok (x.map box) : Outcome ε (Option RawValue))) = .ok (some r) ∧
        Reads it data t val r :=
    ⟨box x, by rw [hread]; rfl, hbox⟩
  have text {w s : Bytes} (hval : val = w ++ (s ++ [0])) (hw : w.length = 4)
      (hcount : fromLe w = s.length + 1) : val = stringData s := by
    rw [hval, stringData, List.append_assoc, ← eq_le32_of_count hw hcount]
  rw [bson_iter_value, h.iter_type, Outcome.ok_bind]
  rcases h.type_cases with rfl | rfl | rfl | rfl | rfl | rfl | rfl | rfl | rfl | rfl | rfl | rfl |
    rfl | rfl | rfl | rfl | rfl | rfl | rfl | rfl | rfl
  · exact boxed _ h.iter_double ⟨rfl, eq_le64 h.shape⟩
  · obtain ⟨w, s, hval, hw, hcount, hread⟩ := h.iter_utf8 (ε := ε)
    exact boxed _ hread ⟨rfl, text hval hw hcount⟩
  · exact boxed _ (h.documentAt_eq rfl) ⟨rfl, rfl, rfl⟩
  · exact boxed _ (h.documentAt_eq rfl) ⟨rfl, rfl, rfl⟩
  · obtain ⟨w, subtype, payload, hval, hw, hcount, hdeprecated, hread⟩ := h.iter_binary (ε := ε)
    refine boxed _ hread ⟨rfl, ?_⟩
    have hstored : storedPayload subtype (if subtype = 2 then payload.drop 4 else payload) =
        payload := by
      by_cases h2 : subtype = 2
      · obtain ⟨w', rest, rfl, hw', hcount'⟩ := hdeprecated h2
        rw [if_pos h2, storedPayload, if_pos h2, List.drop_left' hw', ← eq_le32_of_count hw' hcount']
      · rw [if_neg h2, storedPayload, if_neg h2]
    rw [hstored, ← eq_le32_of_count hw hcount, hval]
  · exact ⟨_, rfl, rfl, List.length_eq_zero_iff.mp h.shape⟩
  · exact boxed _ h.iter_oid ⟨rfl, rfl, h.shape⟩
  · obtain ⟨b, hval, hread⟩ := h.iter_bool (ε := ε)
    exact boxed _ hread ⟨rfl, hval⟩
  · exact boxed _ h.iter_date_time ⟨rfl, by rw [UInt64.toUInt64_toInt64]; exact eq_le64 h.shape⟩
  · exact ⟨_, rfl, rfl, List.length_eq_zero_iff.mp h.shape⟩
  · obtain ⟨pattern, options, hval, hpattern, hoptions, hread⟩ := h.iter_regex (ε := ε)
    exact boxed _ hread ⟨rfl, hval, hpattern, hoptions⟩
  · obtain ⟨w, s, id, hval, hw, hcount, hid, hread⟩ := h.iter_dbpointer (ε := ε)
    refine boxed _ hread ⟨rfl, ?_, hid⟩
    rw [hval, stringData, ← eq_le32_of_count hw hcount]
    simp
  · obtain ⟨w, s, hval, hw, hcount, hread⟩ := h.iter_code (ε := ε)
    exact boxed _ hread ⟨rfl, text hval hw hcount⟩
  · obtain ⟨w, s, hval, hw, hcount, hread⟩ := h.iter_symbol (ε := ε)
    exact boxed _ hread ⟨rfl, text hval hw hcount⟩
  · obtain ⟨w, w', code, w'', scope, hval, hw, hw', hw'', hcount, hcount', -, hcode, -, hd4, hread⟩ :=
      h.iter_codewscope (ε := ε)
    have hne : code ≠ [] := List.length_pos_iff.mp hcode
    have hlast := List.dropLast_append_getLast hne
    have hlen : code.dropLast.length + 1 = code.length := by
      rw [List.length_dropLast]
      omega
    refine boxed _ hread ⟨rfl, code.getLast hne, w'' ++ scope, ?_, by simp [hw''], ?_, rfl⟩
    · rw [hlast, hlen, ← eq_le32_of_count hw hcount, ← eq_le32_of_count hw' hcount']
      exact hval
    · rw [hd4, hlen]
  · exact boxed _ h.iter_int32 ⟨rfl, by rw [UInt32.toUInt32_toInt32]; exact eq_le32 h.shape⟩
  · refine boxed _ h.iter_timestamp ⟨rfl, ?_⟩
    exact eq_le64 h.shape
  · exact boxed _ h.iter_int64 ⟨rfl, by rw [UInt64.toUInt64_toInt64]; exact eq_le64 h.shape⟩
  · have hlen : val.length = 16 := h.shape
    refine boxed _ h.iter_decimal128 ⟨rfl, ?_⟩
    rw [← eq_le64 (by simp [hlen]), ← eq_le64 (by simp [hlen]), List.take_append_drop]
  · exact ⟨_, rfl, rfl, List.length_eq_zero_iff.mp h.shape⟩
  · exact ⟨_, rfl, rfl, List.length_eq_zero_iff.mp h.shape⟩

end

/-! ## Runs -/

/-- The iterators that a program gets for a `bson_t` of `len` bytes at `data`: it
initialises one, moves it to the next field, and enters the documents, arrays and scopes
that it comes to.  A scope is a `bson_t` of its own. -/
inductive Reached (data : Bytes) (len : Nat) : Iter → Prop where
  | init {it : Iter} (h : bson_iter_init data len = some it) : Reached data len it
  | next {it it' : Iter} (hreached : Reached data len it)
      (h : (bson_iter_next it : Outcome Empty (Bool × Iter)) = .ok (true, it')) :
      Reached data len it'
  | recurse {it it' child : Iter} (hreached : Reached data len it)
      (h : (bson_iter_next it : Outcome Empty (Bool × Iter)) = .ok (true, it'))
      (hchild : (bson_iter_recurse it' : Outcome Empty (Option Iter)) = .ok (some child)) :
      Reached data len child
  | scope {it it' child : Iter} {code scope : Bytes} {scope_len : Nat}
      (hreached : Reached data len it)
      (h : (bson_iter_next it : Outcome Empty (Bool × Iter)) = .ok (true, it'))
      (hscope : (bson_iter_codewscope it' : Outcome Empty (Option (Bytes × Nat × Bytes))) =
        .ok (some (code, scope_len, scope)))
      (hstatic : (bson_init_static scope scope_len : Outcome Empty Bool) = .ok true)
      (hchild : bson_iter_init scope scope_len = some child) : Reached data len child

/-- `bson_iter_next` in terms of the function behind it. -/
theorem bson_iter_next_eq_true {ε : Type} {it it' : Iter} :
    (bson_iter_next it : Outcome ε (Bool × Iter)) = .ok (true, it') ↔
      ∃ t, (_bson_iter_next_internal it : Outcome ε Next) = .ok (.field it' t) := by
  rw [bson_iter_next, Outcome.bind_eq_ok_iff]
  constructor
  · rintro ⟨r, hr, h⟩
    cases r with
    | field it₁ t =>
      cases h
      exact ⟨t, hr⟩
    | stop it₁ u => cases h
  · rintro ⟨t, h⟩
    exact ⟨_, h, rfl⟩

/-- A step that finds a field is on one. -/
theorem Ready.field {ε : Type} {it it' : Iter} {data : Bytes} (h : Ready it data)
    (hnext : (bson_iter_next it : Outcome ε (Bool × Iter)) = .ok (true, it')) :
    ∃ t key val, Field it' data t key val ∧ it'.off = it.next_off ∧ it'.len = it.len := by
  obtain ⟨t, hnext⟩ := bson_iter_next_eq_true.mp hnext
  rcases next_cases (ε := ε) h with ⟨it₁, t₁, key, val, hrun, hfield, hoff⟩ |
    ⟨it₁, u, hrun, -⟩ | ⟨hrun, -⟩
  · rw [hrun] at hnext
    cases hnext
    exact ⟨t, key, val, hfield, hoff⟩
  · rw [hrun] at hnext
    cases hnext
  · rw [hrun] at hnext
    cases hnext

theorem Reached.ready {data : Bytes} {len : Nat} (hlen : len ≤ data.length)
    (hmax : len ≤ BSON_MAX_SIZE) {it : Iter} (h : Reached data len it) :
    ∃ data', Ready it data' := by
  induction h with
  | init h =>
    rw [bson_iter_init] at h
    split_ifs at h
    cases h
    exact ⟨data, ⟨rfl, hlen, hmax⟩, le_refl _, le_max_left _ _, rfl⟩
  | next _ h ih =>
    obtain ⟨data', hready⟩ := ih
    obtain ⟨t, key, val, hfield, -⟩ := hready.field h
    exact ⟨data', hfield.ready⟩
  | recurse _ h hchild ih =>
    obtain ⟨data', hready⟩ := ih
    obtain ⟨t, key, val, hfield, -⟩ := hready.field h
    rw [hfield.recurse_eq] at hchild
    split_ifs at hchild
    · cases hchild
      exact ⟨_, hfield.ready_child⟩
    · cases hchild
  | scope _ h hscope _ hchild ih =>
    obtain ⟨data', hready⟩ := ih
    obtain ⟨t, key, val, hfield, -⟩ := hready.field h
    rw [bson_iter_init] at hchild
    split_ifs at hchild
    cases hchild
    exact ⟨_, (hfield.ready_scope hscope).2.2⟩

/-- `bson_iter_next` is defined where the function behind it is. -/
theorem bson_iter_next_eq_undefined {ε : Type} {it : Iter} :
    (bson_iter_next it : Outcome ε (Bool × Iter)) = .undefined ↔
      (_bson_iter_next_internal it : Outcome ε Next) = .undefined := by
  rw [bson_iter_next]
  cases _bson_iter_next_internal it with
  | ok r => cases r <;> exact iff_of_false nofun nofun
  | error e => exact iff_of_false nofun nofun
  | undefined => exact iff_of_true rfl rfl
  | outOfFuel => exact iff_of_false nofun nofun

/-- Iterating over a document never reads outside of its buffer, whatever its
bytes are: from every iterator that a program can get, the next step returns, unless it
comes to the sum that overflows, it moves on when it finds a field, and the type, the key,
the value and the nested document of the field can be read.  A nested document is shorter
than the one around it. -/
theorem iteration_stays_inside {data : Bytes} {len : Nat} (hlen : len ≤ data.length)
    (hmax : len ≤ BSON_MAX_SIZE) {it : Iter} (h : Reached data len it) :
    ((bson_iter_next it : Outcome Empty (Bool × Iter)) = .undefined ∧ it.Overflows) ∨
    ¬ it.Overflows ∧
    ∃ found it', (bson_iter_next it : Outcome Empty (Bool × Iter)) = .ok (found, it') ∧
      (found = true → it.next_off < it'.next_off ∧ it'.next_off < it'.len ∧ it'.len = it.len ∧
        ∃ t key v child, (bson_iter_type it' : Outcome Empty UInt8) = .ok t ∧
          (bson_iter_key it' : Outcome Empty Bytes) = .ok key ∧
          (keyBytes it' : Outcome Empty Bytes) = .ok key ∧
          (bson_iter_value it' : Outcome Empty (Option RawValue)) = .ok (some v) ∧
          (bson_iter_recurse it' : Outcome Empty (Option Iter)) = .ok child ∧
          ∀ c ∈ child, c.len < it'.len) := by
  obtain ⟨data', hready⟩ := h.ready hlen hmax
  have hsum {r : Next} (hrun : (_bson_iter_next_internal it : Outcome Empty Next) = .ok r) :
      ¬ it.Overflows := by
    intro hover
    rw [next_of_overflows hready hover] at hrun
    cases hrun
  rcases next_cases (ε := Empty) hready with
    ⟨it', t, key, val, hrun, hfield, hoff, hkept⟩ | ⟨it', u, hrun, -⟩ | ⟨hrun, hover⟩
  · refine Or.inr ⟨hsum hrun, true, it', bson_iter_next_eq_true.mpr ⟨t, hrun⟩, fun _ => ?_⟩
    obtain ⟨v, hv, -⟩ := hfield.iter_value (ε := Empty)
    have hd1 := hfield.d1_eq
    have hnext := hfield.next_eq
    have hbound := hfield.in_bounds
    refine ⟨by omega, hbound, hkept, t, key, v, _, hfield.iter_type, hfield.iter_key,
      hfield.keyBytes_eq, hv, hfield.recurse_eq, ?_⟩
    intro c hc
    split_ifs at hc with hdoc
    · cases hc
      simp only [Iter.start]
      omega
    · cases hc
  · exact Or.inr ⟨hsum hrun, false, it', by rw [bson_iter_next, hrun]; rfl,
      fun hfound => by cases hfound⟩
  · exact Or.inl ⟨bson_iter_next_eq_undefined.mpr hrun, hover⟩

/-- A document with a nested document, in a buffer that goes on behind it: the iterator over
the nested one finds the field `b`.  The step of the second buffer overflows. -/
theorem iteration_stays_inside_nested :
    (∃ child it' : Iter, Reached (bson_get_data [(bytes "a", .document [(bytes "b", .int32 1)])] ++
        [1, 2, 3]) 20 child ∧
      (bson_iter_next child : Outcome Empty (Bool × Iter)) = .ok (true, it') ∧
      child.next_off < it'.next_off ∧ it'.next_off < it'.len ∧
      (bson_iter_key it' : Outcome Empty Bytes) = .ok (bytes "b") ∧
      (bson_iter_value it' : Outcome Empty (Option RawValue)) = .ok (some (.int32 1))) ∧
    ∃ it : Iter, Reached [17, 0, 0, 0, 5, 97, 0, 4, 0, 0, 0, 2, 255, 255, 255, 127, 0] 17 it ∧
      (bson_iter_next it : Outcome Empty (Bool × Iter)) = .undefined ∧ it.Overflows := by
  constructor
  · obtain ⟨child, hreached, it₁, hnext, hkey, hvalue⟩ : ∃ child,
        Reached (bson_get_data [(bytes "a", .document [(bytes "b", .int32 1)])] ++ [1, 2, 3]) 20
          child ∧
        ∃ it₁, (bson_iter_next child : Outcome Empty (Bool × Iter)) = .ok (true, it₁) ∧
          (bson_iter_key it₁ : Outcome Empty Bytes) = .ok (bytes "b") ∧
          (bson_iter_value it₁ : Outcome Empty (Option RawValue)) = .ok (some (.int32 1)) :=
      ⟨_, .recurse (.init rfl) rfl rfl, _, rfl, rfl, rfl⟩
    rcases iteration_stays_inside (by decide) (by decide) hreached with
      ⟨hrun, -⟩ | ⟨-, found, it', hrun, hfound⟩
    · rw [hrun] at hnext
      cases hnext
    · rw [hrun] at hnext
      cases hnext
      obtain ⟨hmoved, hinside, -⟩ := hfound rfl
      exact ⟨child, it₁, hreached, hrun, hmoved, hinside, hkey, hvalue⟩
  · have hreached : Reached [17, 0, 0, 0, 5, 97, 0, 4, 0, 0, 0, 2, 255, 255, 255, 127, 0] 17 _ :=
      .init rfl
    rcases iteration_stays_inside (by decide) (by decide) hreached with h | ⟨-, found, it', hrun, -⟩
    · exact ⟨_, hreached, h⟩
    · cases hrun

end Vklib.Bson
