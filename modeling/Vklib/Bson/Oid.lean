import Vklib.Base.Buffer
import Vklib.Bson.Document
import Vklib.Bson.Data

/-!
# ObjectIDs as texts

An ObjectID is twelve bytes.  Its text has two hexadecimal digits for each of them, which
`bson_oid_to_string` looks up in a table of pairs, and `bson_oid_init_from_string` parses
such a text, of which `bson_oid_is_valid` has looked at every digit first.

`pairs` is what the parser makes of a text.  Printing and parsing are inverse to each other
but for the case of the letters (`pairs_hexText`, `hexText_pairs`).

A new ObjectID is the time, the randomness of the process and a counter of 24 bits.  What
keeps two of them apart is the counter alone (`seq_of_same`).
-/

namespace Vklib.Bson

open Vklib.Buffer

variable {ε : Type}

/-! ## Printing -/

/-- The pairs of digits of all bytes, as little-endian words. -/
def gHexCharPairs : List UInt16 :=
  [12336, 12592, 12848, 13104, 13360, 13616, 13872, 14128, 14384, 14640, 24880, 25136, 25392,
   25648, 25904, 26160, 12337, 12593, 12849, 13105, 13361, 13617, 13873, 14129, 14385, 14641,
   24881, 25137, 25393, 25649, 25905, 26161, 12338, 12594, 12850, 13106, 13362, 13618, 13874,
   14130, 14386, 14642, 24882, 25138, 25394, 25650, 25906, 26162, 12339, 12595, 12851, 13107,
   13363, 13619, 13875, 14131, 14387, 14643, 24883, 25139, 25395, 25651, 25907, 26163, 12340,
   12596, 12852, 13108, 13364, 13620, 13876, 14132, 14388, 14644, 24884, 25140, 25396, 25652,
   25908, 26164, 12341, 12597, 12853, 13109, 13365, 13621, 13877, 14133, 14389, 14645, 24885,
   25141, 25397, 25653, 25909, 26165, 12342, 12598, 12854, 13110, 13366, 13622, 13878, 14134,
   14390, 14646, 24886, 25142, 25398, 25654, 25910, 26166, 12343, 12599, 12855, 13111, 13367,
   13623, 13879, 14135, 14391, 14647, 24887, 25143, 25399, 25655, 25911, 26167, 12344, 12600,
   12856, 13112, 13368, 13624, 13880, 14136, 14392, 14648, 24888, 25144, 25400, 25656, 25912,
   26168, 12345, 12601, 12857, 13113, 13369, 13625, 13881, 14137, 14393, 14649, 24889, 25145,
   25401, 25657, 25913, 26169, 12385, 12641, 12897, 13153, 13409, 13665, 13921, 14177, 14433,
   14689, 24929, 25185, 25441, 25697, 25953, 26209, 12386, 12642, 12898, 13154, 13410, 13666,
   13922, 14178, 14434, 14690, 24930, 25186, 25442, 25698, 25954, 26210, 12387, 12643, 12899,
   13155, 13411, 13667, 13923, 14179, 14435, 14691, 24931, 25187, 25443, 25699, 25955, 26211,
   12388, 12644, 12900, 13156, 13412, 13668, 13924, 14180, 14436, 14692, 24932, 25188, 25444,
   25700, 25956, 26212, 12389, 12645, 12901, 13157, 13413, 13669, 13925, 14181, 14437, 14693,
   24933, 25189, 25445, 25701, 25957, 26213, 12390, 12646, 12902, 13158, 13414, 13670, 13926,
   14182, 14438, 14694, 24934, 25190, 25446, 25702, 25958, 26214]

/-- One pair of digits, as it is stored. -/
def hexPair (b : UInt8) : Bytes :=
  let pair := gHexCharPairs.getD b.toNat 0
  [pair.toUInt8, (pair >>> 8).toUInt8]

/-- The digits of an ObjectID. -/
def hexText (id : Oid) : Bytes := id.flatMap hexPair

/-- `bson_oid_to_string`: what is stored in the `char[25]`. -/
def bson_oid_to_string (id : Oid) : Bytes := hexText id ++ [0]

/-! ## Parsing -/

/-- The characters that `bson_oid_is_valid` lets pass. -/
def isHexDigit (c : UInt8) : Bool :=
  (48 ≤ c && c ≤ 57) || (97 ≤ c && c ≤ 102) || (65 ≤ c && c ≤ 70)

/-- The loop of `bson_oid_is_valid`, with `n` characters left. -/
def validLoop (str : Bytes) : Nat → Nat → Outcome ε Bool
  | 0, _ => .ok true
  | n + 1, i => do
    let c ← load str i
    if isHexDigit c then validLoop str n (i + 1) else .ok false

/-- `bson_oid_is_valid`. -/
def bson_oid_is_valid (str : Bytes) (length : Nat) : Outcome ε Bool := do
  let length ← if length = 25 then do
      let c ← load str 24
      .ok (if c = 0 then 24 else length)
    else .ok length
  if length = 24 then validLoop str length 0 else .ok false

/-- `bson_oid_parse_hex_char`. -/
def bson_oid_parse_hex_char (hex : UInt8) : UInt8 :=
  match hex.toNat with
  | 48 => 0
  | 49 => 1
  | 50 => 2
  | 51 => 3
  | 52 => 4
  | 53 => 5
  | 54 => 6
  | 55 => 7
  | 56 => 8
  | 57 => 9
  | 97 | 65 => 0xa
  | 98 | 66 => 0xb
  | 99 | 67 => 0xc
  | 100 | 68 => 0xd
  | 101 | 69 => 0xe
  | 102 | 70 => 0xf
  | _ => 0

/-- A byte from its two digits. -/
def hexByte (high low : UInt8) : UInt8 :=
  bson_oid_parse_hex_char high <<< 4 ||| bson_oid_parse_hex_char low

/-- The loop of `bson_oid_init_from_string`, with `n` bytes left. -/
def initLoop (str : Bytes) : Nat → Nat → Outcome ε Oid
  | 0, _ => .ok []
  | n + 1, i => do
    let high ← load str (2 * i)
    let low ← load str (2 * i + 1)
    let rest ← initLoop str n (i + 1)
    .ok (hexByte high low :: rest)

/-- `bson_oid_init_from_string`. -/
def bson_oid_init_from_string (str : Bytes) : Outcome ε Oid := initLoop str 12 0

/-! ## Comparing -/

/-- `bson_oid_equal`. -/
def bson_oid_equal (a b : Oid) : Bool := decide (a = b)

/-- `bson_oid_hash`. -/
def bson_oid_hash (id : Oid) : UInt32 :=
  id.foldl (fun hash b => (hash <<< 5) + hash + b.toUInt32) 5381

/-! ## Generating -/

/-- `bson_context_t`, as far as `bson_oid_init` uses it. -/
structure Context where
  seq32 : UInt32
  randomness : Bytes
  pid : UInt64

/-- What `bson_oid_init` sees of its surroundings: the time, the process, and the digest that
`_bson_context_init_random` makes when it runs. -/
structure Moment where
  time : Nat
  pid : UInt64
  digest : Bytes

/-- `_bson_context_init_random`. -/
def Context.init_random (context : Context) (m : Moment) (init_seq : Bool) : Context where
  seq32 :=
    if init_seq then (fromLe ((m.digest.drop 8).take 4)).toUInt32 &&& ~~~(0xf0000f : UInt32)
    else context.seq32
  randomness := m.digest.take 5
  pid := m.pid

/-- The default context at its first use. -/
def Context.init_default (m : Moment) : Context :=
  Context.init_random ⟨0, [0, 0, 0, 0, 0], 0⟩ m true

/-- `_bson_context_set_oid_rand` with `BSON_CONTEXT_DISABLE_PID_CACHE`: the randomness is
made anew when the process has changed. -/
def Context.set_oid_rand (context : Context) (m : Moment) : Bytes × Context :=
  let context := if m.pid ≠ context.pid then context.init_random m false else context
  (context.randomness, context)

/-- `_bson_context_set_oid_seq32`: the three lower bytes of the counter, the highest first. -/
def Context.set_oid_seq32 (context : Context) : Bytes × Context :=
  let seq := context.seq32
  ([(seq >>> 16).toUInt8, (seq >>> 8).toUInt8, seq.toUInt8], { context with seq32 := seq + 1 })

/-- `bson_oid_init`. -/
def bson_oid_init (context : Context) (m : Moment) : Oid × Context :=
  let now := m.time.toUInt32
  let (randomness, context) := context.set_oid_rand m
  let (seq, context) := context.set_oid_seq32
  ((le32 now).reverse ++ randomness ++ seq, context)

/-! ## Digits -/

/-- The lower case of a digit. -/
def lowerDigit (c : UInt8) : UInt8 := if 65 ≤ c ∧ c ≤ 70 then c + 32 else c

/-- All digits. -/
def hexDigits : Bytes := bytes "0123456789abcdefABCDEF"

theorem hexDigits_eq : hexDigits =
    [48, 49, 50, 51, 52, 53, 54, 55, 56, 57, 97, 98, 99, 100, 101, 102, 65, 66, 67, 68, 69, 70] := by
  decide +kernel

theorem isHexDigit_iff {c : UInt8} : isHexDigit c = true ↔ c ∈ hexDigits := by
  rw [hexDigits_eq]
  simp only [isHexDigit, Bool.or_eq_true, Bool.and_eq_true, decide_eq_true_eq,
    UInt8.le_iff_toNat_le, List.mem_cons, List.not_mem_nil, or_false, ← UInt8.toNat_inj,
    UInt8.reduceToNat]
  omega

/-- The table has the two digits of every byte, and they are in lower case. -/
theorem hexPair_spec (b : UInt8) : ∃ high low, hexPair b = [high, low] ∧
    high ∈ hexDigits ∧ low ∈ hexDigits ∧ hexByte high low = b := by
  have hall : ∀ p ∈ gHexCharPairs.zipIdx, isHexDigit p.1.toUInt8 = true ∧
      isHexDigit (p.1 >>> 8).toUInt8 = true ∧
      hexByte p.1.toUInt8 (p.1 >>> 8).toUInt8 = UInt8.ofNat p.2 := by
    decide +kernel
  have hlength : gHexCharPairs.length = 256 := by decide +kernel
  have hlt : b.toNat < gHexCharPairs.length := hlength ▸ b.toNat_lt
  have hmem : (gHexCharPairs[b.toNat], b.toNat) ∈ gHexCharPairs.zipIdx :=
    List.mem_zipIdx_iff_getElem?.mpr (List.getElem?_eq_getElem hlt)
  obtain ⟨hhigh, hlow, hbyte⟩ := hall _ hmem
  rw [UInt8.ofNat_toNat] at hbyte
  refine ⟨_, _, ?_, isHexDigit_iff.mp hhigh, isHexDigit_iff.mp hlow, hbyte⟩
  rw [hexPair, List.getD_eq_getElem?_getD, List.getElem?_eq_getElem hlt]
  rfl

/-- Two digits come back in lower case. -/
theorem hexPair_hexByte {high low : UInt8} (hhigh : high ∈ hexDigits) (hlow : low ∈ hexDigits) :
    hexPair (hexByte high low) = [lowerDigit high, lowerDigit low] := by
  have hall : ∀ high ∈ hexDigits, ∀ low ∈ hexDigits,
      hexPair (hexByte high low) = [lowerDigit high, lowerDigit low] := by
    decide +kernel
  exact hall high hhigh low hlow

/-! ## Texts -/

/-- What is parsed of a text of digits. -/
def pairs : Bytes → Oid
  | high :: low :: rest => hexByte high low :: pairs rest
  | _ => []

/-- A printed ObjectID is parsed as itself. -/
theorem pairs_hexText (id : Oid) : pairs (hexText id) = id := by
  induction id with
  | nil => rfl
  | cons b id ih =>
    obtain ⟨high, low, hpair, -, -, hbyte⟩ := hexPair_spec b
    rw [hexText, List.flatMap_cons, hpair, List.cons_append, List.cons_append, List.nil_append,
      pairs, hbyte]
    exact congrArg (b :: ·) ih

theorem length_hexText (id : Oid) : (hexText id).length = 2 * id.length := by
  induction id with
  | nil => rfl
  | cons b id ih =>
    rw [hexText, List.flatMap_cons, List.length_append]
    change 2 + (hexText id).length = _
    rw [ih, List.length_cons]
    omega

/-- A printed ObjectID has digits only. -/
theorem isHexDigit_of_mem_hexText {id : Oid} {c : UInt8} (h : c ∈ hexText id) :
    isHexDigit c = true := by
  obtain ⟨b, -, hc⟩ := List.mem_flatMap.mp h
  obtain ⟨high, low, hpair, hhigh, hlow, -⟩ := hexPair_spec b
  rw [hpair] at hc
  refine isHexDigit_iff.mpr ?_
  rcases List.mem_pair.mp hc with rfl | rfl
  · exact hhigh
  · exact hlow

/-- A text of digits is printed in lower case. -/
theorem hexText_pairs (n : Nat) {digits : Bytes} (hlength : digits.length = 2 * n)
    (hdigits : ∀ c ∈ digits, isHexDigit c = true) :
    (pairs digits).length = n ∧ hexText (pairs digits) = digits.map lowerDigit := by
  induction n generalizing digits with
  | zero =>
    obtain rfl := List.eq_nil_of_length_eq_zero hlength
    exact ⟨rfl, rfl⟩
  | succ n ih =>
    match digits with
    | high :: low :: rest =>
      simp only [List.length_cons] at hlength
      simp only [List.mem_cons, forall_eq_or_imp, isHexDigit_iff] at hdigits
      obtain ⟨hhigh, hlow, hrest⟩ := hdigits
      obtain ⟨hcount, htext⟩ := ih (by omega) fun c hc => isHexDigit_iff.mpr (hrest c hc)
      refine ⟨by rw [pairs, List.length_cons, hcount], ?_⟩
      rw [pairs, hexText, List.flatMap_cons, hexPair_hexByte hhigh hlow]
      change _ ++ hexText (pairs rest) = _
      rw [htext]
      rfl
    | [_] => simp only [List.length_cons, List.length_nil] at hlength; omega
    | [] => simp at hlength

/-! ## What the loops come to -/

theorem validLoop_eq {str s : Bytes} {i : Nat} (h : Lies str i s) :
    (validLoop str s.length i : Outcome ε Bool) = .ok (s.all isHexDigit) := by
  induction s generalizing i with
  | nil => rfl
  | cons c s ih =>
    rw [List.length_cons, validLoop, h.load, Outcome.ok_bind, List.all_cons]
    cases hc : isHexDigit c with
    | false => rfl
    | true => exact ih (lies_cons.mp h).2

theorem initLoop_eq {str : Bytes} (n i : Nat) {s : Bytes} (hlength : s.length = 2 * n)
    (h : Lies str (2 * i) s) : (initLoop str n i : Outcome ε Oid) = .ok (pairs s) := by
  induction n generalizing i s with
  | zero =>
    obtain rfl := List.eq_nil_of_length_eq_zero hlength
    rfl
  | succ n ih =>
    match s with
    | high :: low :: rest =>
      simp only [List.length_cons] at hlength
      have hlow := (lies_cons.mp h).2
      have hrest : Lies str (2 * (i + 1)) rest := (lies_cons.mp hlow).2
      rw [initLoop, h.load, Outcome.ok_bind, hlow.load, Outcome.ok_bind, ih (i + 1) (by omega) hrest,
        Outcome.ok_bind, pairs]
    | [_] => simp only [List.length_cons, List.length_nil] at hlength; omega
    | [] => simp at hlength

/-- The text that a script passes is read inside its bytes and its NUL. -/
theorem bson_oid_is_valid_eq (s : Bytes) :
    (bson_oid_is_valid (s ++ [0]) s.length : Outcome ε Bool) =
      .ok (decide (s.length = 24 ∨ s.length = 25 ∧ s[24]? = some 0) &&
        (s.take 24).all isHexDigit) := by
  have hloop : 24 ≤ s.length →
      (validLoop (s ++ [0]) 24 0 : Outcome ε Bool) = .ok ((s.take 24).all isHexDigit) := by
    intro hle
    have hlies : Lies (s ++ [0]) 0 (s.take 24) :=
      lies_zero.mpr ((List.take_prefix 24 s).trans (List.prefix_append s [0]))
    have hspec := validLoop_eq (ε := ε) hlies
    rwa [List.length_take, Nat.min_eq_left hle] at hspec
  rw [bson_oid_is_valid]
  by_cases hlong : s.length = 25
  · have hget : (s ++ [0])[24]? = s[24]? := List.getElem?_append_left (by omega)
    obtain ⟨c, hc⟩ : ∃ c, s[24]? = some c := ⟨_, List.getElem?_eq_getElem (by omega)⟩
    rw [if_pos hlong, load, hget, hc]
    by_cases hzero : c = 0
    · simp only [Outcome.ok_bind, if_pos hzero]
      rw [if_pos trivial, hloop (by omega)]
      simp [hlong, hzero]
    · simp only [Outcome.ok_bind, if_neg hzero]
      rw [if_neg (by omega)]
      simp [hlong, hzero]
  · rw [if_neg hlong, Outcome.ok_bind]
    dsimp only
    by_cases hlength : s.length = 24
    · rw [if_pos hlength, hlength, hloop (by omega)]
      simp
    · rw [if_neg hlength]
      simp [hlength, hlong]

/-! ## Counting -/

/-- The counter moves on by one with every ObjectID, in whatever process. -/
theorem bson_oid_init_seq32 (context : Context) (m : Moment) :
    (bson_oid_init context m).2.seq32 = context.seq32 + 1 := by
  simp only [bson_oid_init, Context.set_oid_rand, Context.set_oid_seq32]
  split <;> rfl

theorem bytes_of_seq (seq : UInt32) :
    seq.toNat % 2 ^ 24 = (seq >>> 16).toUInt8.toNat * 2 ^ 16 + (seq >>> 8).toUInt8.toNat * 2 ^ 8 +
      seq.toUInt8.toNat := by
  have h16 : (16 : UInt32).toNat % 32 = 16 := rfl
  have h8 : (8 : UInt32).toNat % 32 = 8 := rfl
  simp only [UInt32.toNat_toUInt8, UInt32.toNat_shiftRight, Nat.shiftRight_eq_div_pow, h16, h8]
  omega

/-- Two ObjectIDs that are the same were made at the same place of the counter. -/
theorem seq_of_same {context context' : Context} {m m' : Moment}
    (h : (bson_oid_init context m).1 = (bson_oid_init context' m').1) :
    context.seq32.toNat % 2 ^ 24 = context'.seq32.toNat % 2 ^ 24 := by
  have hparts (context : Context) (m : Moment) : ∃ front, (bson_oid_init context m).1 = front ++
      [(context.seq32 >>> 16).toUInt8, (context.seq32 >>> 8).toUInt8, context.seq32.toUInt8] := by
    simp only [bson_oid_init, Context.set_oid_rand, Context.set_oid_seq32]
    split <;> exact ⟨_, rfl⟩
  obtain ⟨front, hid⟩ := hparts context m
  obtain ⟨front', hid'⟩ := hparts context' m'
  rw [hid, hid'] at h
  have hseq := (List.append_inj' h rfl).2
  simp only [List.cons.injEq, and_true] at hseq
  obtain ⟨hhigh, hmiddle, hlow⟩ := hseq
  rw [bytes_of_seq, bytes_of_seq, hhigh, hmiddle, hlow]

end Vklib.Bson
