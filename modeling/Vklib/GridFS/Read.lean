import Vklib.Mongo.Common

/-!
# Reading a GridFS file

`m_read` of `gridfsfile.c`: the loop that fills the buffer of a Lua string with
calls of `mongoc_gridfs_file_readv`.  A file is a value of a type `F` of the
driver, and `readv` is the function of the driver with one buffer of a given
length: it answers with the bytes that it copied, whose number it returns, or
with nothing for the result -1.  More bytes than the length of the buffer would
be written outside it.

`Readv` is what the loop needs to know of the function: it copies the bytes from
the position of the file on, all that fit and all that there are, and moves the
position behind them.  Under it one read returns the next bytes of the content,
and a sequence of reads returns its next bytes in pieces
(`m_read_exact`).  `logged` is the function with a list of its calls, so that a
statement can speak of them.
-/

namespace Vklib.GridFS

open Vklib.Mongo

/-- `LUAL_BUFFERSIZE` on a machine with 64-bit pointers. -/
def LUAL_BUFFERSIZE : Nat := 16 * 8 * 8

section

variable {F : Type} (readv : F → Nat → Nat → Option Bytes × F)

/-- How the loop of `m_read` ends: the last result of `readv`, the text of the
buffer, and the file. -/
structure Filled (F : Type) where
  n : Int
  buffer : Bytes
  file : F

/-- The loop of `m_read`.  Every round with bytes lowers `maxlen`, which bounds the
number of rounds. -/
def readLoop : Nat → Nat → Nat → Bytes → F → Outcome LuaError (Filled F)
  | 0, _, _, _, _ => .outOfFuel
  | fuel + 1, maxlen, buflen, b, file =>
    let buflen := if maxlen < buflen then maxlen else buflen
    let r := readv file buflen buflen
    match r.1 with
    | none => .ok ⟨-1, b, r.2⟩
    | some data =>
      if buflen < data.length then .undefined
      else if data.length = 0 then .ok ⟨0, b, r.2⟩
      else readLoop fuel (maxlen - data.length) buflen (b ++ data) r.2

/-- `fileError`.  `file_error` is the text of the error of the file, if it has
one. -/
def fileError (file_error : F → Option Bytes) (file : F) : List LVal :=
  match file_error file with
  | none => [.nil]
  | some message => [.nil, .str message]

/-- `m_read` with its second argument, as the list of its results. -/
def m_read (file_error : F → Option Bytes) (file : F) (maxlen : Int64) :
    Outcome LuaError (List LVal × F) :=
  if maxlen ≤ 0 then .error (.argument 2 (bytes "must be positive"))
  else do
    let r ← readLoop readv (maxlen.toInt.toNat + 1) maxlen.toInt.toNat LUAL_BUFFERSIZE [] file
    if r.n = -1 then .ok (fileError file_error r.file, r.file)
    else if r.n = 0 ∧ r.buffer.length = 0 then .ok ([.nil], r.file)
    else .ok ([.str r.buffer], r.file)

/-- One read after the other, with the first result of each. -/
def readAll (file_error : F → Option Bytes) : List Int64 → F → Outcome LuaError (List LVal × F)
  | [], file => .ok ([], file)
  | maxlen :: sizes, file => do
    let (values, file) ← m_read readv file_error file maxlen
    let (rest, file) ← readAll file_error sizes file
    .ok (values.headD .nil :: rest, file)

/-! ## The calls of the driver -/

/-- A call with the length of its buffer and its answer. -/
structure Call where
  iov_len : Nat
  answer : Option Bytes

/-- The function of the driver on a file that keeps the calls so far. -/
def logged (p : F × List Call) (iov_len min_bytes : Nat) : Option Bytes × F × List Call :=
  let r := readv p.1 iov_len min_bytes
  (r.1, r.2, p.2 ++ [⟨iov_len, r.1⟩])

/-- The function of the driver copies, from the position of the file on, as many
bytes as fit and as there are, and moves the position behind them. -/
def Readv (content : F → Bytes) (pos : F → Nat) : Prop :=
  ∀ file l, (readv file l l).1 = none ∨
    ((readv file l l).1 = some (((content file).drop (pos file)).take l) ∧
      content (readv file l l).2 = content file ∧
      pos (readv file l l).2 = pos file + min l ((content file).length - pos file))

variable {readv} {content : F → Bytes} {pos : F → Nat}

theorem Readv.logged (h : Readv readv content pos) :
    Readv (logged readv) (fun p => content p.1) (fun p => pos p.1) :=
  fun p l => h p.1 l

/-- The results of a read are those of the function without the list, and no call
has a buffer longer than the first one. -/
theorem readLoop_logged {fuel maxlen buflen : Nat} {b : Bytes} {p : F × List Call}
    {r : Filled (F × List Call)} (h : readLoop (logged readv) fuel maxlen buflen b p = .ok r) :
    readLoop readv fuel maxlen buflen b p.1 = .ok ⟨r.n, r.buffer, r.file.1⟩ ∧
      ∃ calls, r.file.2 = p.2 ++ calls ∧ (∀ c ∈ calls, c.iov_len ≤ buflen) ∧
        ((∀ c ∈ calls, c.answer ≠ none) → r.n ≠ -1) := by
  induction fuel generalizing maxlen buflen b p with
  | zero => simp [readLoop] at h
  | succ fuel ih =>
    rw [readLoop] at h ⊢
    simp only [logged] at h ⊢
    have hlen : (if maxlen < buflen then maxlen else buflen) ≤ buflen := by
      split <;> omega
    generalize (if maxlen < buflen then maxlen else buflen) = l at h hlen ⊢
    cases hanswer : (readv p.1 l l).1 with
    | none =>
      rw [hanswer] at h
      cases h
      exact ⟨rfl, _, rfl, by simpa using hlen, by simp⟩
    | some data =>
      rw [hanswer] at h
      simp only [] at h ⊢
      split_ifs at h ⊢ with hover hempty
      · cases h
        exact ⟨rfl, _, rfl, by simpa using hlen, by simp⟩
      · obtain ⟨hplain, calls, hcalls, hbound, hn⟩ := ih h
        refine ⟨hplain, ⟨l, some data⟩ :: calls, by simp [hcalls], ?_, ?_⟩
        · intro c hc
          rcases List.mem_cons.mp hc with rfl | hc
          · exact hlen
          · exact (hbound c hc).trans hlen
        · exact fun hall => hn fun c hc => hall c (List.mem_cons_of_mem _ hc)

/-- A prefix and the prefix of what follows it are one prefix. -/
theorem take_append_take_drop {l n : Nat} (s : Bytes) (h : l ≤ n) :
    s.take l ++ (s.drop (min l s.length)).take (n - min l s.length) = s.take n := by
  rcases Nat.le_total l s.length with hle | hle
  · rw [Nat.min_eq_left hle, ← List.take_add, Nat.add_sub_cancel' h]
  · rw [Nat.min_eq_right hle, List.drop_length, List.take_nil, List.append_nil,
      List.take_of_length_le hle, List.take_of_length_le (hle.trans h)]

/-- The loop ends, and without a failed call it has read `maxlen` bytes or all that
are left.  Each round reads a prefix of what the rest of the rounds would read
without it. -/
theorem readLoop_eq (h : Readv readv content pos) (fuel maxlen buflen : Nat) (b : Bytes) (file : F)
    (hfuel : maxlen < fuel) (hbuflen : 0 < buflen ∨ maxlen = 0) :
    ∃ r, readLoop readv fuel maxlen buflen b file = .ok r ∧
      (r.n = -1 ∨ r.n = 0 ∧ r.buffer = b ++ ((content file).drop (pos file)).take maxlen ∧
        content r.file = content file ∧
        pos r.file = pos file + min maxlen ((content file).length - pos file)) := by
  induction fuel generalizing maxlen buflen b file with
  | zero => omega
  | succ fuel ih =>
    rw [readLoop]
    have hl : 0 < (if maxlen < buflen then maxlen else buflen) ∨ maxlen = 0 := by
      split <;> omega
    have hle : (if maxlen < buflen then maxlen else buflen) ≤ maxlen := by
      split <;> omega
    generalize (if maxlen < buflen then maxlen else buflen) = l at hl hle
    rcases h file l with hfail | ⟨hdata, hcontent, hpos⟩
    · simp only [hfail]
      exact ⟨_, rfl, Or.inl rfl⟩
    · simp only [hdata, List.length_take, List.length_drop]
      rw [if_neg (by omega)]
      by_cases hempty : min l ((content file).length - pos file) = 0
      · have hrest : ((content file).drop (pos file)).take maxlen = [] := by
          apply List.eq_nil_of_length_eq_zero
          rw [List.length_take, List.length_drop]
          omega
        rw [if_pos hempty]
        exact ⟨_, rfl, Or.inr ⟨rfl, by simp [hrest], hcontent, by simp only [hpos]; omega⟩⟩
      · rw [if_neg hempty]
        obtain ⟨r, hrun, hr⟩ := ih (maxlen - min l ((content file).length - pos file)) l
          (b ++ ((content file).drop (pos file)).take l) (readv file l l).2 (by omega) (by omega)
        refine ⟨r, hrun, hr.imp_right ?_⟩
        rintro ⟨hn, hbuffer, hkept, hmoved⟩
        refine ⟨hn, ?_, hkept.trans hcontent, ?_⟩
        · rw [hbuffer, hcontent, hpos, ← List.drop_drop, List.append_assoc, ← List.length_drop,
            take_append_take_drop _ hle]
        · rw [hmoved, hcontent, hpos]
          omega

/-- The result of a read that found these bytes. -/
def readResult (data : Bytes) : LVal := if data.length = 0 then .nil else .str data

theorem m_read_logged (h : Readv readv content pos) (file_error : F → Option Bytes)
    (p : F × List Call) {maxlen : Int64} (hmax : 0 < maxlen) :
    ∃ values file' calls,
      m_read (logged readv) (fun q => file_error q.1) p maxlen =
        .ok (values, file', p.2 ++ calls) ∧
      m_read readv file_error p.1 maxlen = .ok (values, file') ∧
      (∀ c ∈ calls, c.iov_len ≤ LUAL_BUFFERSIZE) ∧
      ((∀ c ∈ calls, c.answer ≠ none) →
        values = [readResult (((content p.1).drop (pos p.1)).take maxlen.toInt.toNat)] ∧
        content file' = content p.1 ∧
        pos file' = pos p.1 + min maxlen.toInt.toNat ((content p.1).length - pos p.1)) := by
  have hnot : ¬ maxlen ≤ 0 := Int64.not_le.mpr hmax
  obtain ⟨r, hrun, hr⟩ := readLoop_eq h.logged (maxlen.toInt.toNat + 1) _ _ [] p
    (Nat.lt_succ_self _) (Or.inl (by decide : 0 < LUAL_BUFFERSIZE))
  obtain ⟨hplain, calls, hcalls, hbound, hn⟩ := readLoop_logged hrun
  have hfile : r.file = (r.file.1, p.2 ++ calls) := by rw [← hcalls]
  simp only [m_read, if_neg hnot, hrun, hplain, Outcome.ok_bind]
  rcases hr with hfail | ⟨hend, hbuffer, hkept, hmoved⟩
  · rw [if_pos hfail, if_pos hfail]
    exact ⟨fileError file_error r.file.1, r.file.1, calls, by rw [← hfile]; rfl, rfl, hbound,
      fun hall => absurd hfail (hn hall)⟩
  · rw [List.nil_append] at hbuffer
    have hn' : r.n ≠ -1 := by omega
    rw [if_neg hn', if_neg hn']
    by_cases hempty : r.buffer.length = 0
    · rw [if_pos ⟨hend, hempty⟩, if_pos ⟨hend, hempty⟩]
      refine ⟨_, r.file.1, calls, by rw [← hfile], rfl, hbound, fun _ => ⟨?_, hkept, hmoved⟩⟩
      rw [← hbuffer, readResult, if_pos hempty]
    · rw [if_neg (fun hc => hempty hc.2), if_neg (fun hc => hempty hc.2)]
      refine ⟨_, r.file.1, calls, by rw [← hfile], rfl, hbound, fun _ => ⟨?_, hkept, hmoved⟩⟩
      rw [← hbuffer, readResult, if_neg hempty]

/-! ## Sequences of reads -/

/-- A text in pieces of the given sizes. -/
def pieces : List Nat → Bytes → List Bytes
  | [], _ => []
  | n :: sizes, s => s.take n :: pieces sizes (s.drop n)

/-- The pieces make up a prefix of the text. -/
theorem pieces_flatten (sizes : List Nat) (s : Bytes) :
    (pieces sizes s).flatten = s.take sizes.sum := by
  induction sizes generalizing s with
  | nil => simp [pieces]
  | cons n sizes ih => rw [pieces, List.flatten_cons, ih, List.sum_cons, List.take_add]

/-- A read moves the position behind what it asked for, or to the end. -/
theorem drop_add_min (s : Bytes) (i n : Nat) :
    s.drop (i + min n (s.length - i)) = (s.drop i).drop n := by
  rw [List.drop_drop]
  rcases Nat.le_total n (s.length - i) with hle | hle
  · rw [Nat.min_eq_left hle]
  · rw [Nat.min_eq_right hle, List.drop_eq_nil_of_le (by omega), List.drop_eq_nil_of_le (by omega)]

theorem readAll_logged (h : Readv readv content pos) (file_error : F → Option Bytes)
    {sizes : List Int64} (hsizes : ∀ maxlen ∈ sizes, 0 < maxlen) (p : F × List Call) :
    ∃ values file' calls,
      readAll (logged readv) (fun q => file_error q.1) sizes p =
        .ok (values, file', p.2 ++ calls) ∧
      readAll readv file_error sizes p.1 = .ok (values, file') ∧
      ((∀ c ∈ calls, c.answer ≠ none) →
        values = (pieces (sizes.map fun maxlen => maxlen.toInt.toNat)
          ((content p.1).drop (pos p.1))).map readResult ∧
        content file' = content p.1 ∧
        pos file' = pos p.1 + min (sizes.map fun maxlen => maxlen.toInt.toNat).sum
          ((content p.1).length - pos p.1)) := by
  induction sizes generalizing p with
  | nil => exact ⟨[], p.1, [], by simp [readAll], rfl, fun _ => ⟨rfl, rfl, by simp⟩⟩
  | cons maxlen sizes ih =>
    obtain ⟨values, file', calls, hone, hplain, -, hread⟩ :=
      m_read_logged h file_error p (hsizes maxlen List.mem_cons_self)
    obtain ⟨rest, file'', calls', hrest, hplain', hread'⟩ :=
      ih (fun m hm => hsizes m (List.mem_cons_of_mem _ hm)) (file', p.2 ++ calls)
    refine ⟨values.headD .nil :: rest, file'', calls ++ calls', ?_, ?_, fun hall => ?_⟩
    · rw [readAll, hone, Outcome.ok_bind]
      simp only [hrest, Outcome.ok_bind, List.append_assoc]
    · rw [readAll, hplain, Outcome.ok_bind]
      simp only [hplain', Outcome.ok_bind]
    · obtain ⟨hvalues, hkept, hmoved⟩ := hread fun c hc => hall c (List.mem_append_left _ hc)
      obtain ⟨hrests, hkept', hmoved'⟩ := hread' fun c hc => hall c (List.mem_append_right _ hc)
      simp only [] at hrests hkept' hmoved'
      refine ⟨?_, hkept'.trans hkept, ?_⟩
      · rw [hvalues, hrests, hkept, hmoved, drop_add_min]
        rfl
      · rw [hmoved', hkept, hmoved, List.map_cons, List.sum_cons]
        omega

/-- The text of a value that a read returned. -/
def textOf : LVal → Bytes
  | .str s => s
  | _ => []

theorem textOf_readResult (data : Bytes) : textOf (readResult data) = data := by
  unfold readResult
  split_ifs with hempty
  · exact (List.eq_nil_of_length_eq_zero hempty).symm
  · rfl

/-- A read ends, and it never asks for more than fits in the buffer.  Without a
failed call it returns the next `maxlen` bytes, or all that are left, or nil when
none are left, and moves the position behind them.  The reads of a sequence return
the next bytes in pieces. -/
theorem m_read_exact (h : Readv readv content pos) (file_error : F → Option Bytes) (file : F) :
    (∀ maxlen : Int64, 0 < maxlen → ∃ values file' calls,
      m_read (logged readv) (fun q => file_error q.1) (file, []) maxlen =
        .ok (values, file', calls) ∧
      m_read readv file_error file maxlen = .ok (values, file') ∧
      (∀ c ∈ calls, c.iov_len ≤ LUAL_BUFFERSIZE) ∧
      ((∀ c ∈ calls, c.answer ≠ none) →
        values = [readResult (((content file).drop (pos file)).take maxlen.toInt.toNat)] ∧
        content file' = content file ∧
        pos file' = pos file + min maxlen.toInt.toNat ((content file).length - pos file))) ∧
    ∀ sizes : List Int64, (∀ maxlen ∈ sizes, 0 < maxlen) → ∃ values file' calls,
      readAll (logged readv) (fun q => file_error q.1) sizes (file, []) =
        .ok (values, file', calls) ∧
      readAll readv file_error sizes file = .ok (values, file') ∧
      ((∀ c ∈ calls, c.answer ≠ none) →
        (values.map textOf).flatten =
          ((content file).drop (pos file)).take (sizes.map fun m => m.toInt.toNat).sum ∧
        content file' = content file ∧
        pos file' = pos file +
          min (sizes.map fun m => m.toInt.toNat).sum ((content file).length - pos file)) := by
  constructor
  · intro maxlen hmax
    exact m_read_logged h file_error (file, []) hmax
  · intro sizes hsizes
    obtain ⟨values, file', calls, hrun, hplain, hread⟩ :=
      readAll_logged h file_error hsizes (file, [])
    refine ⟨values, file', calls, hrun, hplain, fun hall => ?_⟩
    obtain ⟨hvalues, hkept, hmoved⟩ := hread hall
    refine ⟨?_, hkept, hmoved⟩
    rw [hvalues, List.map_map, ← pieces_flatten]
    congr 1
    conv => rhs; rw [← List.map_id (pieces _ _)]
    exact List.map_congr_left fun data _ => textOf_readResult data

end

/-- A file in memory: its content and its position. -/
def memReadv (file : Bytes × Nat) (iov_len _min_bytes : Nat) : Option Bytes × Bytes × Nat :=
  (some ((file.1.drop file.2).take iov_len), file.1,
    file.2 + min iov_len (file.1.length - file.2))

theorem readv_memReadv : Readv memReadv Prod.fst Prod.snd :=
  fun _ _ => Or.inr ⟨rfl, rfl, rfl⟩

theorem m_read_exact_mem :
    ∃ values file' calls,
      readAll (logged memReadv) (fun _ => none) [2, 3, 1] ((bytes "abcde", 1), []) =
        .ok (values, file', calls) ∧
      readAll memReadv (fun _ => none) [2, 3, 1] (bytes "abcde", 1) = .ok (values, file') ∧
      ((∀ c ∈ calls, c.answer ≠ none) →
        (values.map textOf).flatten = bytes "bcde" ∧ file'.1 = bytes "abcde" ∧ file'.2 = 5) :=
  (m_read_exact readv_memReadv (fun _ => none) (bytes "abcde", 1)).2 [2, 3, 1] (by simp)

end Vklib.GridFS
