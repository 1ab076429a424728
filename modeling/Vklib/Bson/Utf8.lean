import Vklib.Base.Buffer
import Vklib.Base.Number

/-!
# UTF-8

`bson-utf8.c`: the check that the keys and the texts of a document are UTF-8.  Its index
is an `unsigned` and the length a `size_t`, so that the loop cannot come to the end of a
text of `2 ^ 32` bytes.

Below that, `validUtf8` is the same check on the list of the bytes.
`bson_utf8_validate_iff` says what it accepts: the encodings of sequences of Unicode
scalar values, and where NULs are allowed also their two-byte form.
-/

namespace Vklib.Bson

open Buffer

/-- `_bson_utf8_get_sequence`: the number of bytes of a sequence, zero when there is
none, and the mask of its first byte. -/
def _bson_utf8_get_sequence (c : UInt8) : Nat × UInt8 :=
  if c &&& 0x80 = 0 then (1, 0x7F)
  else if c &&& 0xE0 = 0xC0 then (2, 0x1F)
  else if c &&& 0xF0 = 0xE0 then (3, 0x0F)
  else if c &&& 0xF8 = 0xF0 then (4, 0x07)
  else (0, 0)

/-- The code point `c` behind the bytes of a sequence that follow the first. -/
def codePoint (c : Nat) (tail : Bytes) : Nat :=
  tail.foldl (fun c b => (c <<< 6) ||| (b &&& 0x3F).toNat) c

/-- The last `switch` of the loop: whether the form is the shortest. -/
def shortestForm (seq_length c : Nat) (allow_null : Bool) : Bool :=
  match seq_length with
  | 1 => decide (c ≤ 0x007F)
  | 2 => decide (c ≥ 0x0080 ∧ c ≤ 0x07FF) || (decide (c = 0) && allow_null)
  | 3 => decide (c ≥ 0x0800 ∧ c ≤ 0x0FFF) || decide (c ≥ 0x1000 ∧ c ≤ 0xFFFF)
  | 4 => decide (c ≥ 0x10000 ∧ c ≤ 0x3FFFF) || decide (c ≥ 0x40000 ∧ c ≤ 0xFFFFF) ||
      decide (c ≥ 0x100000 ∧ c ≤ 0x10FFFF)
  | _ => false

/-- The tests of a round of the loop of `bson_utf8_validate`, on the sequence of
`seq_length` bytes with the first byte `b`: whether it goes on.  `nul` is the test for NULs. -/
def utf8Round (seq_length : Nat) (b : UInt8) (tail : Bytes) (first_mask : UInt8)
    (nul allow_null : Bool) : Bool :=
  let c := codePoint (b &&& first_mask).toNat tail
  if tail.any fun b => b &&& 0xC0 ≠ 0x80 then false
  else if nul then false
  else if c > 0x0010FFFF then false
  else if c &&& 0xFFFFF800 = 0xD800 then false
  else shortestForm seq_length c allow_null

section

variable {ε : Type}

/-- The loop that looks for a NUL at the indices of a sequence. -/
def nulAmong (utf8 : Bytes) : List Nat → Outcome ε Bool
  | [] => .ok false
  | k :: ks =>
    if k > utf8.length then .ok true
    else do
      let c ← load utf8 k
      if c = 0 then .ok true else nulAmong utf8 ks

/-- The test for NULs in the sequence at `i`, unless they are allowed. -/
def nulTest (utf8 : Bytes) (allow_null : Bool) (i seq_length : Nat) : Outcome ε Bool :=
  if allow_null then .ok false else nulAmong utf8 ((List.range seq_length).map (add32 i))

/-- The loop of `bson_utf8_validate`, from the index `i` on. -/
def utf8Loop (utf8 : Bytes) (allow_null : Bool) : Nat → Nat → Outcome ε Bool
  | 0, _ => .outOfFuel
  | fuel + 1, i =>
    if i < utf8.length then do
      let b ← load utf8 i
      let (seq_length, first_mask) := _bson_utf8_get_sequence b
      if seq_length = 0 then .ok false
      else if utf8.length - i < seq_length then .ok false
      else do
        let tail ← copy utf8 (add32 i 1) (add32 i seq_length - add32 i 1)
        let nul ← nulTest utf8 allow_null i seq_length
        if utf8Round seq_length b tail first_mask nul allow_null then
          utf8Loop utf8 allow_null fuel (add32 i seq_length)
        else .ok false
    else .ok true

/-- `bson_utf8_validate`.  A round takes a byte, so that the length bounds the rounds as long
as the index does not wrap. -/
def bson_utf8_validate (utf8 : Bytes) (allow_null : Bool) : Outcome ε Bool :=
  utf8Loop utf8 allow_null (utf8.length + 1) 0

end

/-- The loop over the bytes that are left. -/
def utf8Rest (allow_null : Bool) : Nat → Bytes → Bool
  | 0, _ => true
  | _ + 1, [] => true
  | fuel + 1, b :: rest =>
    let (seq_length, first_mask) := _bson_utf8_get_sequence b
    let tail := rest.take (seq_length - 1)
    if seq_length = 0 then false
    else if rest.length + 1 < seq_length then false
    else if utf8Round seq_length b tail first_mask (!allow_null && decide (0 ∈ b :: tail)) allow_null
    then utf8Rest allow_null fuel (rest.drop (seq_length - 1))
    else false

/-- The check on the list of the bytes. -/
def validUtf8 (utf8 : Bytes) (allow_null : Bool) : Bool :=
  utf8Rest allow_null (utf8.length + 1) utf8

/-! ## The index does not wrap -/

theorem nulAmong_eq {ε : Type} {utf8 : Bytes} {i n : Nat} (h : i + n ≤ utf8.length) :
    (nulAmong utf8 (List.range' i n) : Outcome ε Bool) =
      .ok (decide (0 ∈ (utf8.drop i).take n)) := by
  induction n generalizing i with
  | zero => simp [nulAmong]
  | succ n ih =>
    have hi : i < utf8.length := by omega
    rw [List.range'_succ, nulAmong, if_neg (by omega), List.drop_eq_getElem_cons hi,
      List.take_succ_cons]
    have hload : (load utf8 i : Outcome ε UInt8) = .ok utf8[i] := by
      rw [load, List.getElem?_eq_getElem hi]
    rw [hload, Outcome.ok_bind, ih (by omega)]
    by_cases hzero : utf8[i] = 0
    · simp [hzero]
    · simp [hzero, Ne.symm hzero]

/-- Below `2 ^ 32` bytes both checks are the same. -/
theorem utf8Loop_eq {ε : Type} {utf8 : Bytes} (hlen : utf8.length < 2 ^ 32) (allow_null : Bool)
    (fuel : Nat) {i : Nat} (hfuel : utf8.length - i < fuel) :
    (utf8Loop utf8 allow_null fuel i : Outcome ε Bool) =
      .ok (utf8Rest allow_null fuel (utf8.drop i)) := by
  induction fuel generalizing i with
  | zero => omega
  | succ fuel ih =>
    rw [utf8Loop]
    by_cases hi : i < utf8.length
    · have hload : (load utf8 i : Outcome ε UInt8) = .ok utf8[i] := by
        rw [load, List.getElem?_eq_getElem hi]
      rw [if_pos hi, List.drop_eq_getElem_cons hi, hload, Outcome.ok_bind, utf8Rest]
      rcases hseq : _bson_utf8_get_sequence utf8[i] with ⟨n, mask⟩
      have hrest : (utf8.drop (i + 1)).length + 1 = utf8.length - i := by
        rw [List.length_drop]
        omega
      simp only [hrest]
      by_cases hn : n = 0
      · simp only [if_pos hn]
      by_cases hshort : utf8.length - i < n
      · simp only [if_neg hn, if_pos hshort]
      have hone : add32 i 1 = i + 1 := Nat.mod_eq_of_lt (by omega)
      have hend : add32 i n = i + n := Nat.mod_eq_of_lt (by omega)
      have hcopy : (copy utf8 (i + 1) (i + n - (i + 1)) : Outcome ε Bytes) =
          .ok ((utf8.drop (i + 1)).take (n - 1)) := by
        rw [copy, if_pos (by omega), show i + n - (i + 1) = n - 1 from by omega]
      have hrange : (List.range n).map (add32 i) = List.range' i n := by
        rw [List.range'_eq_map_range]
        refine List.map_congr_left fun k hk => ?_
        have hlt := List.mem_range.mp hk
        exact Nat.mod_eq_of_lt (by omega)
      have htake : (utf8.drop i).take n = utf8[i] :: (utf8.drop (i + 1)).take (n - 1) := by
        rw [List.drop_eq_getElem_cons hi, ← List.take_succ_cons, Nat.sub_one_add_one hn]
      have hnul : (nulTest utf8 allow_null i n : Outcome ε Bool) =
          .ok (!allow_null && decide (0 ∈ utf8[i] :: (utf8.drop (i + 1)).take (n - 1))) := by
        rw [nulTest, hrange, nulAmong_eq (by omega), htake]
        cases allow_null <;> rfl
      have hdrop : (utf8.drop (i + 1)).drop (n - 1) = utf8.drop (i + n) := by
        rw [List.drop_drop, show i + 1 + (n - 1) = i + n from by omega]
      simp only [if_neg hn, if_neg hshort, hnul, hone, hend, hcopy, Outcome.ok_bind, hdrop]
      split_ifs
      · exact ih (by omega)
      · rfl
    · rw [if_neg hi, List.drop_eq_nil_of_le (Nat.le_of_not_lt hi), utf8Rest]

theorem bson_utf8_validate_eq {ε : Type} {utf8 : Bytes} (hlen : utf8.length < 2 ^ 32)
    (allow_null : Bool) :
    (bson_utf8_validate utf8 allow_null : Outcome ε Bool) = .ok (validUtf8 utf8 allow_null) := by
  rw [bson_utf8_validate, utf8Loop_eq hlen allow_null _ (by omega), List.drop_zero, validUtf8]

/-- A text of `2 ^ 32` bytes or more is never accepted. -/
theorem utf8Loop_ne_true {ε : Type} {utf8 : Bytes} (hlen : 2 ^ 32 ≤ utf8.length)
    (allow_null : Bool) (fuel : Nat) {i : Nat} (hi : i < 2 ^ 32) :
    (utf8Loop utf8 allow_null fuel i : Outcome ε Bool) ≠ .ok true := by
  induction fuel generalizing i with
  | zero => simp [utf8Loop]
  | succ fuel ih =>
    intro h
    rw [utf8Loop, if_pos (by omega)] at h
    obtain ⟨b, -, h⟩ := Outcome.bind_eq_ok_iff.mp h
    rcases hseq : _bson_utf8_get_sequence b with ⟨n, mask⟩
    simp only [hseq] at h
    split_ifs at h
    · cases h
    · cases h
    · obtain ⟨tail, -, h⟩ := Outcome.bind_eq_ok_iff.mp h
      obtain ⟨nul, -, h⟩ := Outcome.bind_eq_ok_iff.mp h
      split_ifs at h
      · exact ih (Nat.mod_lt _ (by decide)) h
      · cases h

/-! ## Bytes as numbers -/

theorem masks_nat : ∀ n < 256,
    (n &&& 0x80 = 0 ↔ n < 0x80) ∧ (n &&& 0xE0 = 0xC0 ↔ 0xC0 ≤ n ∧ n < 0xE0) ∧
    (n &&& 0xF0 = 0xE0 ↔ 0xE0 ≤ n ∧ n < 0xF0) ∧ (n &&& 0xF8 = 0xF0 ↔ 0xF0 ≤ n ∧ n < 0xF8) ∧
    (n &&& 0xC0 = 0x80 ↔ 0x80 ≤ n ∧ n < 0xC0) := by
  decide +kernel

/-- The tests of the source on the high bits of a byte. -/
theorem masks_byte (b : UInt8) :
    (b &&& 0x80 = 0 ↔ b.toNat < 0x80) ∧ (b &&& 0xE0 = 0xC0 ↔ 0xC0 ≤ b.toNat ∧ b.toNat < 0xE0) ∧
    (b &&& 0xF0 = 0xE0 ↔ 0xE0 ≤ b.toNat ∧ b.toNat < 0xF0) ∧
    (b &&& 0xF8 = 0xF0 ↔ 0xF0 ≤ b.toNat ∧ b.toNat < 0xF8) ∧
    (b &&& 0xC0 = 0x80 ↔ 0x80 ≤ b.toNat ∧ b.toNat < 0xC0) := by
  simpa only [← UInt8.toNat_inj, UInt8.toNat_and, UInt8.reduceToNat] using
    masks_nat b.toNat b.toNat_lt

/-- The sequence that a byte starts, by the range of the byte. -/
theorem get_sequence_eq (b : UInt8) : _bson_utf8_get_sequence b =
    if b.toNat < 0x80 then (1, 0x7F) else if 0xC0 ≤ b.toNat ∧ b.toNat < 0xE0 then (2, 0x1F)
    else if 0xE0 ≤ b.toNat ∧ b.toNat < 0xF0 then (3, 0x0F)
    else if 0xF0 ≤ b.toNat ∧ b.toNat < 0xF8 then (4, 0x07) else (0, 0) := by
  obtain ⟨h1, h2, h3, h4, -⟩ := masks_byte b
  simp only [_bson_utf8_get_sequence, h1, h2, h3, h4]

theorem toNat_and_mask (b : UInt8) (k : Nat) (m : UInt8) (hm : m.toNat = 2 ^ k - 1) :
    (b &&& m).toNat = b.toNat % 2 ^ k := by
  rw [UInt8.toNat_and, hm, Nat.and_two_pow_sub_one_eq_mod]

/-- One step of the code point. -/
theorem codePoint_step (c : Nat) (b : UInt8) :
    (c <<< 6) ||| (b &&& 0x3F).toNat = c * 64 + b.toNat % 64 := by
  have hlow : (b &&& 0x3F).toNat = b.toNat % 2 ^ 6 := toNat_and_mask b 6 _ rfl
  have hlt : b.toNat % 2 ^ 6 < 2 ^ 6 := Nat.mod_lt _ (by decide)
  rw [hlow, ← Nat.shiftLeft_add_eq_or_of_lt hlt, Nat.shiftLeft_eq]
  rfl

/-- The range of the surrogates. -/
theorem surrogate_iff {c : Nat} (hc : c ≤ 0x10FFFF) :
    c &&& 0xFFFFF800 = 0xD800 ↔ 0xD800 ≤ c ∧ c < 0xE000 := by
  have hdiv : (c &&& 0xFFFFF800) / 2 ^ 11 = c / 2 ^ 11 := by
    rw [Nat.and_div_two_pow]
    exact Nat.and_two_pow_sub_one_of_lt_two_pow (n := 21) (by omega)
  have hmod : (c &&& 0xFFFFF800) % 2 ^ 11 = 0 := by
    rw [Nat.and_mod_two_pow]
    simp
  omega

/-! ## The sequences -/

/-- A byte behind the first of a sequence. -/
def Continues (b : UInt8) : Prop := 0x80 ≤ b.toNat ∧ b.toNat < 0xC0

/-- The digits of a scalar value of four bytes. -/
theorem digits4 {v b x y z : Nat} (hlow : 0x10000 ≤ v) (hhigh : v < 0x110000) :
    (v / 262144 + 0xF0 = b ∧ v / 4096 % 64 + 0x80 = x ∧ v / 64 % 64 + 0x80 = y ∧
      v % 64 + 0x80 = z) ↔
    (0x80 ≤ x ∧ x < 0xC0) ∧ (0x80 ≤ y ∧ y < 0xC0) ∧ (0x80 ≤ z ∧ z < 0xC0) ∧
      0xF0 ≤ b ∧ b < 0xF8 ∧ v = ((b % 8 * 64 + x % 64) * 64 + y % 64) * 64 + z % 64 := by
  constructor
  · rintro ⟨rfl, rfl, rfl, rfl⟩
    refine ⟨by omega, by omega, by omega, by omega, by omega, ?_⟩
    have h1 : (v / 262144 + 0xF0) % 8 = v / 262144 := by omega
    have h2 : (v / 4096 % 64 + 0x80) % 64 = v / 4096 % 64 := by omega
    have h3 : (v / 64 % 64 + 0x80) % 64 = v / 64 % 64 := by omega
    have h4 : (v % 64 + 0x80) % 64 = v % 64 := by omega
    rw [h1, h2, h3, h4]
    omega
  · rintro ⟨hx, hy, hz, hb, hb', rfl⟩
    omega

/-- The bytes of a scalar value, by the number that they stand for. -/
theorem utf8EncodeChar_eq_iff {c : Char} {b : UInt8} {tail : Bytes} :
    String.utf8EncodeChar c = b :: tail ↔
      (∀ x ∈ tail, Continues x) ∧
      match tail with
      | [] => b.toNat < 0x80 ∧ c.toNat = b.toNat
      | [x] => 0xC0 ≤ b.toNat ∧ b.toNat < 0xE0 ∧ 0x80 ≤ c.toNat ∧
          c.toNat = b.toNat % 32 * 64 + x.toNat % 64
      | [x, y] => 0xE0 ≤ b.toNat ∧ b.toNat < 0xF0 ∧ 0x800 ≤ c.toNat ∧
          c.toNat = (b.toNat % 16 * 64 + x.toNat % 64) * 64 + y.toNat % 64
      | [x, y, z] => 0xF0 ≤ b.toNat ∧ b.toNat < 0xF8 ∧ 0x10000 ≤ c.toNat ∧
          c.toNat = ((b.toNat % 8 * 64 + x.toNat % 64) * 64 + y.toNat % 64) * 64 + z.toNat % 64
      | _ => False := by
  have hv : c.val.toNat = c.toNat := rfl
  have hmax : c.toNat < 0x110000 := by
    rcases c.valid with h | ⟨-, h⟩
    · exact Nat.lt_trans h (by decide)
    · exact h
  have hb := b.toNat_lt
  unfold String.utf8EncodeChar Continues
  have hrest (n : Nat) : (n % 64 + 0x80) % 256 = n % 64 + 0x80 := by omega
  simp only [hv]
  split_ifs with h1 h2 h3
  · have hhead : c.toNat % 256 = c.toNat := by omega
    rcases tail with _ | ⟨x, _ | ⟨y, _ | ⟨z, _ | ⟨w, tail⟩⟩⟩⟩ <;>
      simp only [List.cons.injEq, ← UInt8.toNat_inj, UInt8.toNat_ofNat', Nat.reducePow, hhead,
        reduceCtorEq, List.forall_mem_cons, List.not_mem_nil] <;> grind
  · have hhead : (c.toNat / 64 % 0x20 + 0xC0) % 256 = c.toNat / 64 + 0xC0 := by omega
    rcases tail with _ | ⟨x, _ | ⟨y, _ | ⟨z, _ | ⟨w, tail⟩⟩⟩⟩ <;>
      simp only [List.cons.injEq, ← UInt8.toNat_inj, UInt8.toNat_ofNat', Nat.reducePow, hhead,
        hrest, reduceCtorEq, List.forall_mem_cons, List.not_mem_nil] <;> grind
  · have hhead : (c.toNat / 4096 % 0x10 + 0xE0) % 256 = c.toNat / 4096 + 0xE0 := by omega
    rcases tail with _ | ⟨x, _ | ⟨y, _ | ⟨z, _ | ⟨w, tail⟩⟩⟩⟩ <;>
      simp only [List.cons.injEq, ← UInt8.toNat_inj, UInt8.toNat_ofNat', Nat.reducePow, hhead,
        hrest, reduceCtorEq, List.forall_mem_cons, List.not_mem_nil] <;> grind
  · have hhead : (c.toNat / 262144 % 0x08 + 0xF0) % 256 = c.toNat / 262144 + 0xF0 := by omega
    have hdigits (x y z : Nat) :=
      digits4 (v := c.toNat) (b := b.toNat) (x := x) (y := y) (z := z) (by omega) hmax
    rcases tail with _ | ⟨x, _ | ⟨y, _ | ⟨z, _ | ⟨w, tail⟩⟩⟩⟩ <;>
      simp only [List.cons.injEq, ← UInt8.toNat_inj, UInt8.toNat_ofNat', Nat.reducePow, hhead,
        hrest, and_true, hdigits, reduceCtorEq, List.forall_mem_cons, List.not_mem_nil] <;> grind

/-! ## One round -/

/-- A sequence that the check accepts: the bytes of a scalar value, or the two bytes
for NUL that are not the shortest form. -/
def Utf8Sequence (allow_null : Bool) (u : Bytes) : Prop :=
  (∃ c : Char, u = String.utf8EncodeChar c ∧ (allow_null = false → c.toNat ≠ 0)) ∨
    allow_null = true ∧ u = [0xC0, 0x80]

/-- A scalar value by its number. -/
theorem exists_char {n : Nat} (hmax : n ≤ 0x10FFFF) (hsurrogate : ¬ (0xD800 ≤ n ∧ n < 0xE000)) :
    ∃ c : Char, c.toNat = n := by
  have hvalid : n.isValidChar := by
    unfold Nat.isValidChar
    omega
  exact ⟨Char.ofNatAux n hvalid, rfl⟩

theorem char_range (c : Char) : c.toNat ≤ 0x10FFFF ∧ ¬ (0xD800 ≤ c.toNat ∧ c.toNat < 0xE000) := by
  have hv : c.val.toNat = c.toNat := rfl
  rcases c.valid with h | ⟨h, h'⟩ <;> omega

/-- The tests of a round. -/
theorem utf8Round_eq {b : UInt8} {tail : Bytes} {mask : UInt8} {allow_null : Bool} :
    utf8Round (tail.length + 1) b tail mask (!allow_null && decide (0 ∈ b :: tail)) allow_null =
        true ↔
      (∀ x ∈ tail, Continues x) ∧ (allow_null = false → 0 ∉ b :: tail) ∧
      codePoint (b &&& mask).toNat tail ≤ 0x10FFFF ∧
      ¬ (0xD800 ≤ codePoint (b &&& mask).toNat tail ∧ codePoint (b &&& mask).toNat tail < 0xE000) ∧
      shortestForm (tail.length + 1) (codePoint (b &&& mask).toNat tail) allow_null = true := by
  have hcontinues : (tail.any fun b => b &&& 0xC0 ≠ 0x80) = true ↔ ¬ ∀ x ∈ tail, Continues x := by
    simp only [List.any_eq_true, decide_eq_true_eq, not_forall, exists_prop, ne_eq,
      (masks_byte _).2.2.2.2, Continues]
  generalize hc : codePoint (b &&& mask).toNat tail = c
  rw [utf8Round, hc]
  by_cases h1 : (tail.any fun b => b &&& 0xC0 ≠ 0x80) = true
  · have hbad := hcontinues.mp h1
    simp only [if_pos h1]
    tauto
  have hgood := not_not.mp (mt hcontinues.mpr h1)
  by_cases h2 : (!allow_null && decide (0 ∈ b :: tail)) = true
  · have hbad : allow_null = false ∧ 0 ∈ b :: tail := by simpa using h2
    simp only [if_neg h1, if_pos h2]
    tauto
  have hnul : allow_null = false → 0 ∉ b :: tail := by simpa using h2
  by_cases h3 : c > 0x10FFFF
  · simp only [if_neg h1, if_neg h2, if_pos h3, Bool.false_eq_true, false_iff]
    omega
  have hmax := Nat.le_of_not_lt h3
  simp only [if_neg h1, if_neg h2, if_neg h3, surrogate_iff hmax]
  split_ifs with h4 <;> tauto

/-- A code point makes a sequence of the bytes that stand for it. -/
theorem sequence_of_code {b : UInt8} {tail : Bytes} {allow_null : Bool} {v : Nat}
    (hmax : v ≤ 0x10FFFF) (hsurrogate : ¬ (0xD800 ≤ v ∧ v < 0xE000))
    (hnul : allow_null = false → v ≠ 0)
    (h : ∀ c : Char, c.toNat = v → String.utf8EncodeChar c = b :: tail) :
    Utf8Sequence allow_null (b :: tail) := by
  obtain ⟨c, rfl⟩ := exists_char hmax hsurrogate
  exact Or.inl ⟨c, (h c rfl).symm, hnul⟩

/-- The tests of a round on a sequence of more than one byte. -/
theorem round_long {b : UInt8} {tail : Bytes} {allow_null : Bool} {v low : Nat} (hb : b.toNat ≠ 0)
    (hlow : 0 < low)
    (hencode : ∀ c : Char, String.utf8EncodeChar c = b :: tail ↔
      (∀ x ∈ tail, Continues x) ∧ low ≤ c.toNat ∧ c.toNat = v)
    (hshort : (∀ x ∈ tail, Continues x) → v ≤ 0x10FFFF →
      (shortestForm (tail.length + 1) v allow_null = true ↔
        low ≤ v ∨ allow_null = true ∧ b :: tail = [0xC0, 0x80]))
    (hnull : b :: tail = [0xC0, 0x80] → v = 0) :
    ((∀ x ∈ tail, Continues x) ∧ (allow_null = false → 0 ∉ b :: tail) ∧ v ≤ 0x10FFFF ∧
      ¬ (0xD800 ≤ v ∧ v < 0xE000) ∧ shortestForm (tail.length + 1) v allow_null = true) ↔
    Utf8Sequence allow_null (b :: tail) := by
  constructor
  · rintro ⟨hcont, -, hmax, hsurrogate, h⟩
    rcases (hshort hcont hmax).mp h with h | h
    · exact sequence_of_code hmax hsurrogate (fun _ => by omega)
        fun c hc => (hencode c).mpr ⟨hcont, hc ▸ h, hc⟩
    · exact Or.inr h
  · rintro (⟨c, hc, -⟩ | ⟨rfl, h⟩)
    · obtain ⟨hcont, hle, rfl⟩ := (hencode c).mp hc.symm
      obtain ⟨hmax, hsurrogate⟩ := char_range c
      refine ⟨hcont, fun _ hmem => ?_, hmax, hsurrogate, (hshort hcont hmax).mpr (Or.inl hle)⟩
      rcases List.mem_cons.mp hmem with rfl | hmem
      · exact hb rfl
      · exact absurd (hcont 0 hmem).1 (by decide)
    · obtain rfl := hnull h
      have hcont : ∀ x ∈ tail, Continues x := by
        obtain ⟨-, rfl⟩ := List.cons.inj h
        intro x hx
        rw [List.mem_singleton.mp hx]
        exact ⟨by decide, by decide⟩
      exact ⟨hcont, by simp, Nat.zero_le _, by decide,
        (hshort hcont (Nat.zero_le _)).mpr (Or.inr ⟨rfl, h⟩)⟩

/-- A round goes on exactly behind a sequence. -/
theorem utf8Round_iff {b : UInt8} {tail : Bytes} {n : Nat} {mask : UInt8} {allow_null : Bool}
    (hseq : _bson_utf8_get_sequence b = (n, mask)) (hn : tail.length + 1 = n) :
    utf8Round n b tail mask (!allow_null && decide (0 ∈ b :: tail)) allow_null = true ↔
      Utf8Sequence allow_null (b :: tail) := by
  rw [← hn, utf8Round_eq]
  rw [get_sequence_eq] at hseq
  split_ifs at hseq with h1 h2 h3 h4 <;> obtain ⟨rfl, rfl⟩ := Prod.mk.inj hseq
  · -- one byte
    obtain rfl := List.length_eq_zero_iff.mp (Nat.succ.inj hn)
    have hmask : (b &&& 0x7F).toNat = b.toNat := by
      rw [toNat_and_mask b 7 _ rfl]
      omega
    have hzero : 0 = b ↔ b.toNat = 0 := by
      rw [← UInt8.toNat_inj, eq_comm]
      rfl
    simp only [codePoint, List.foldl_nil, hmask, List.mem_singleton, hzero]
    constructor
    · rintro ⟨-, hnul, hmax, hsurrogate, -⟩
      exact sequence_of_code hmax hsurrogate hnul
        fun c hc => utf8EncodeChar_eq_iff.mpr ⟨by simp, h1, hc⟩
    · rintro (⟨c, hc, hnul⟩ | ⟨-, h⟩)
      · obtain ⟨-, -, hval⟩ := utf8EncodeChar_eq_iff.mp hc.symm
        rw [hval] at hnul
        refine ⟨by simp, hnul, by omega, by omega, ?_⟩
        simp [shortestForm]
        omega
      · cases h
  · -- two bytes
    obtain ⟨x, rfl⟩ := List.length_eq_one_iff.mp (Nat.succ.inj hn)
    have hmask : (b &&& 0x1F).toNat = b.toNat % 32 := toNat_and_mask b 5 _ rfl
    have hcode : codePoint (b &&& 0x1F).toNat [x] = b.toNat % 32 * 64 + x.toNat % 64 := by
      simp only [codePoint, List.foldl_cons, List.foldl_nil, codePoint_step, hmask]
    rw [hcode]
    refine round_long (by omega) (show 0 < 0x80 by decide)
      (fun c => utf8EncodeChar_eq_iff.trans (by simp only; tauto)) (fun hcont hmax => ?_) ?_
    · have hx := hcont x (List.mem_singleton_self x)
      unfold Continues at hx
      simp only [List.length_singleton, shortestForm, Bool.or_eq_true, Bool.and_eq_true,
        decide_eq_true_eq, List.cons.injEq, and_true, ← UInt8.toNat_inj, UInt8.reduceToNat]
      cases allow_null <;>
        simp only [Bool.false_eq_true, eq_self, false_and, and_false, or_false, true_and,
          and_true] <;> omega
    · rintro ⟨rfl, rfl⟩
      decide
  · -- three bytes
    obtain ⟨x, y, rfl⟩ := List.length_eq_two.mp (Nat.succ.inj hn)
    have hmask : (b &&& 0x0F).toNat = b.toNat % 16 := toNat_and_mask b 4 _ rfl
    have hcode : codePoint (b &&& 0x0F).toNat [x, y] =
        (b.toNat % 16 * 64 + x.toNat % 64) * 64 + y.toNat % 64 := by
      simp only [codePoint, List.foldl_cons, List.foldl_nil, codePoint_step, hmask]
    rw [hcode]
    refine round_long (by omega) (show 0 < 0x800 by decide)
      (fun c => utf8EncodeChar_eq_iff.trans (by simp only; tauto)) (fun hcont hmax => ?_) (by simp)
    simp only [List.length_cons, List.length_nil, shortestForm, Bool.or_eq_true,
      decide_eq_true_eq, List.cons.injEq, reduceCtorEq, and_false, or_false]
    omega
  · -- four bytes
    obtain ⟨x, y, z, rfl⟩ := List.length_eq_three.mp (Nat.succ.inj hn)
    have hmask : (b &&& 0x07).toNat = b.toNat % 8 := toNat_and_mask b 3 _ rfl
    have hcode : codePoint (b &&& 0x07).toNat [x, y, z] =
        ((b.toNat % 8 * 64 + x.toNat % 64) * 64 + y.toNat % 64) * 64 + z.toNat % 64 := by
      simp only [codePoint, List.foldl_cons, List.foldl_nil, codePoint_step, hmask]
    rw [hcode]
    refine round_long (by omega) (show 0 < 0x10000 by decide)
      (fun c => utf8EncodeChar_eq_iff.trans (by simp only; tauto)) (fun hcont hmax => ?_) (by simp)
    simp only [List.length_cons, List.length_nil, shortestForm, Bool.or_eq_true,
      decide_eq_true_eq, List.cons.injEq, reduceCtorEq, and_false, or_false]
    omega
  · omega

/-! ## The whole text -/

theorem length_of_sequence {b : UInt8} {tail : Bytes} {allow_null : Bool}
    (h : Utf8Sequence allow_null (b :: tail)) :
    ∃ mask, _bson_utf8_get_sequence b = (tail.length + 1, mask) := by
  rw [get_sequence_eq]
  rcases h with ⟨c, hc, -⟩ | ⟨-, h⟩
  · obtain ⟨-, h⟩ := utf8EncodeChar_eq_iff.mp hc.symm
    rcases tail with _ | ⟨x, _ | ⟨y, _ | ⟨z, _ | ⟨w, tail⟩⟩⟩⟩
    · exact ⟨_, if_pos h.1⟩
    · refine ⟨0x1F, ?_⟩
      rw [if_neg (by omega), if_pos ⟨h.1, h.2.1⟩]
      rfl
    · refine ⟨0x0F, ?_⟩
      rw [if_neg (by omega), if_neg (by omega), if_pos ⟨h.1, h.2.1⟩]
      rfl
    · refine ⟨0x07, ?_⟩
      rw [if_neg (by omega), if_neg (by omega), if_neg (by omega), if_pos ⟨h.1, h.2.1⟩]
      rfl
    · exact h.elim
  · obtain ⟨rfl, rfl⟩ := List.cons.inj h
    exact ⟨_, rfl⟩

/-- Text in UTF-8: the bytes of scalar values, which are not zero unless NULs are
allowed.  Those may also have their two-byte form. -/
def Utf8Text (allow_null : Bool) (s : Bytes) : Prop :=
  ∃ us : List Bytes, us.flatten = s ∧ ∀ u ∈ us, Utf8Sequence allow_null u

/-- Text that is not empty starts with a sequence. -/
theorem utf8Text_cons {allow_null : Bool} {b : UInt8} {rest : Bytes}
    (h : Utf8Text allow_null (b :: rest)) :
    ∃ tail t, rest = tail ++ t ∧ Utf8Sequence allow_null (b :: tail) ∧ Utf8Text allow_null t := by
  obtain ⟨us, hus, hall⟩ := h
  cases us with
  | nil => cases hus
  | cons u us =>
    have hu := hall u (List.mem_cons_self ..)
    have htail := fun u' hu' => hall u' (List.mem_cons_of_mem u hu')
    cases u with
    | nil =>
      -- no sequence is empty
      rcases hu with ⟨c, hc, -⟩ | ⟨-, h⟩
      · have hlen := congrArg List.length hc
        rw [String.length_utf8EncodeChar] at hlen
        exact absurd hlen (Nat.ne_of_lt c.utf8Size_pos)
      · cases h
    | cons b' tail =>
      rw [List.flatten_cons, List.cons_append] at hus
      obtain ⟨rfl, rfl⟩ := List.cons.inj hus
      exact ⟨tail, _, rfl, hu, us, rfl, htail⟩

theorem utf8Rest_iff {allow_null : Bool} (fuel : Nat) {s : Bytes} (h : s.length ≤ fuel) :
    utf8Rest allow_null fuel s = true ↔ Utf8Text allow_null s := by
  induction fuel generalizing s with
  | zero =>
    obtain rfl := List.length_eq_zero_iff.mp (Nat.le_zero.mp h)
    exact iff_of_true rfl ⟨[], rfl, by simp⟩
  | succ fuel ih =>
    cases s with
    | nil => exact iff_of_true rfl ⟨[], rfl, by simp⟩
    | cons b rest =>
      rw [List.length_cons] at h
      rcases hseq : _bson_utf8_get_sequence b with ⟨n, mask⟩
      simp only [utf8Rest, hseq]
      constructor
      · intro hrun
        split_ifs at hrun with hzero hshort hround
        have hn : (rest.take (n - 1)).length + 1 = n := by
          rw [List.length_take]
          omega
        obtain ⟨us, hus, hall⟩ := (ih (by rw [List.length_drop]; omega)).mp hrun
        refine ⟨(b :: rest.take (n - 1)) :: us, ?_, ?_⟩
        · rw [List.flatten_cons, hus, List.cons_append, List.take_append_drop]
        · rw [List.forall_mem_cons]
          exact ⟨(utf8Round_iff hseq hn).mp hround, hall⟩
      · intro htext
        obtain ⟨tail, t, rfl, hseq', htext⟩ := utf8Text_cons htext
        obtain ⟨mask', hmask⟩ := length_of_sequence hseq'
        rw [hseq] at hmask
        obtain ⟨rfl, rfl⟩ := Prod.mk.inj hmask
        rw [List.length_append] at h ⊢
        rw [if_neg (by omega), if_neg (by omega), Nat.add_sub_cancel, List.take_left,
          List.drop_left, if_pos ((utf8Round_iff hseq rfl).mpr hseq'), ih (by omega)]
        exact htext

/-- What the check on the list accepts. -/
theorem validUtf8_iff (utf8 : Bytes) (allow_null : Bool) :
    validUtf8 utf8 allow_null = true ↔ Utf8Text allow_null utf8 :=
  utf8Rest_iff (utf8.length + 1) (Nat.le_succ _)

/-- Below `2 ^ 32` bytes the check returns, and it accepts what is UTF-8.  A longer text is
never accepted, however long the loop runs. -/
theorem bson_utf8_validate_iff {ε : Type} (utf8 : Bytes) (allow_null : Bool) :
    if utf8.length < 2 ^ 32 then
      ∃ valid, (bson_utf8_validate utf8 allow_null : Outcome ε Bool) = .ok valid ∧
        (valid = true ↔ Utf8Text allow_null utf8)
    else ∀ fuel, (utf8Loop utf8 allow_null fuel 0 : Outcome ε Bool) ≠ .ok true := by
  split_ifs with hlen
  · exact ⟨_, bson_utf8_validate_eq hlen allow_null, validUtf8_iff utf8 allow_null⟩
  · exact fun fuel => utf8Loop_ne_true (Nat.le_of_not_lt hlen) allow_null fuel (by decide)

end Vklib.Bson
