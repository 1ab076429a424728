import Vklib.Base.CString
import Vklib.Base.Outcome
import Mathlib.Data.Nat.Digits.Lemmas

/-!
# Reading from a buffer

A buffer is the bytes of an allocation from some address on.  A read outside of
it is undefined.  The reads are those of a C program that parses a byte format:
one byte, `memcpy` into a local, a little-endian word, a C string, and the loop
that looks for a NUL.

`Lies m i s` says that the bytes `s` lie at offset `i`.  It splits at every
append (`lies_append`), and each read has two lemmas: what it returns when the
bytes there are known, and that it is defined inside the buffer.

`put` writes: the bytes lie there afterwards (`lies_put`), what lies in front stays
(`Lies.put`), and so do what lies behind (`Lies.put_behind`) and the length.
-/

namespace Vklib.Buffer

variable {ε : Type}

/-- Read one byte. -/
def load (m : Bytes) (i : Nat) : Outcome ε UInt8 :=
  match m[i]? with
  | some c => .ok c
  | none => .undefined

/-- `memcpy` of `n` bytes into a local. -/
def copy (m : Bytes) (i n : Nat) : Outcome ε Bytes :=
  if i + n ≤ m.length then .ok ((m.drop i).take n) else .undefined

/-- The number that bytes stand for in little-endian order. -/
def fromLe (s : Bytes) : Nat := Nat.ofDigits 256 (s.map UInt8.toNat)

/-- Read a little-endian number of `n` bytes. -/
def loadLe (m : Bytes) (i n : Nat) : Outcome ε Nat := do
  let s ← copy m i n
  .ok (fromLe s)

/-- Read the C string at an address. -/
def text (m : Bytes) (i : Nat) : Outcome ε Bytes :=
  if 0 ∈ m.drop i then .ok (cString (m.drop i)) else .undefined

/-- The loop `for (; o < end; o++) if (!m[o]) break`, with `end - o` rounds
left: the place of the NUL, if there is one. -/
def findNul (m : Bytes) : Nat → Nat → Outcome ε (Option Nat)
  | 0, _ => .ok none
  | n + 1, o => do
    let c ← load m o
    if c = 0 then .ok (some o) else findNul m n (o + 1)

/-- The bytes `s` lie at offset `i`. -/
def Lies (m : Bytes) (i : Nat) (s : Bytes) : Prop := s <+: m.drop i

/-! ## Splitting -/

theorem lies_nil (m : Bytes) (i : Nat) : Lies m i [] := List.nil_prefix

theorem lies_append {m : Bytes} {i : Nat} {s t : Bytes} :
    Lies m i (s ++ t) ↔ Lies m i s ∧ Lies m (i + s.length) t := by
  constructor
  · rintro ⟨rest, hrest⟩
    refine ⟨⟨t ++ rest, by rw [← hrest, List.append_assoc]⟩, rest, ?_⟩
    rw [← List.drop_drop, ← hrest, List.append_assoc, List.drop_left]
  · rintro ⟨⟨rest, hrest⟩, ⟨rest', hrest'⟩⟩
    refine ⟨rest', ?_⟩
    rw [← List.drop_drop, ← hrest, List.drop_left] at hrest'
    rw [List.append_assoc, hrest', hrest]

theorem lies_cons {m : Bytes} {i : Nat} {c : UInt8} {s : Bytes} :
    Lies m i (c :: s) ↔ Lies m i [c] ∧ Lies m (i + 1) s := by
  rw [← List.singleton_append, lies_append, List.length_singleton]

theorem Lies.left {m : Bytes} {i : Nat} {s t : Bytes} (h : Lies m i (s ++ t)) : Lies m i s :=
  (lies_append.mp h).1

theorem Lies.right {m : Bytes} {i : Nat} {s t : Bytes} (h : Lies m i (s ++ t)) :
    Lies m (i + s.length) t :=
  (lies_append.mp h).2

theorem lies_zero {m s : Bytes} : Lies m 0 s ↔ s <+: m := Iff.rfl

/-- A buffer that starts further on. -/
theorem lies_drop {m : Bytes} {i j : Nat} {s : Bytes} : Lies (m.drop j) i s ↔ Lies m (j + i) s := by
  rw [Lies, Lies, List.drop_drop]

theorem Lies.le_length {m : Bytes} {i : Nat} {s : Bytes} (h : Lies m i s) (hs : s ≠ []) :
    i + s.length ≤ m.length := by
  have hle := h.length_le
  have hpos := List.length_pos_iff.mpr hs
  rw [List.length_drop] at hle
  omega

/-- Two readings of the same place agree. -/
theorem Lies.eq {m : Bytes} {i : Nat} {s t : Bytes} (hs : Lies m i s) (ht : Lies m i t)
    (hlen : s.length = t.length) : s = t :=
  (List.prefix_of_prefix_length_le hs ht hlen.le).eq_of_length hlen

/-- A stretch inside a buffer lies in it. -/
theorem lies_take (m : Bytes) (i n : Nat) : Lies m i ((m.drop i).take n) := List.take_prefix _ _

/-! ## What a read returns -/

theorem Lies.getElem? {m : Bytes} {i : Nat} {c : UInt8} {s : Bytes} (h : Lies m i (c :: s)) :
    m[i]? = some c := by
  obtain ⟨rest, hrest⟩ := h
  rw [← Nat.add_zero i, ← List.getElem?_drop, ← hrest]
  rfl

theorem Lies.load {m : Bytes} {i : Nat} {c : UInt8} {s : Bytes} (h : Lies m i (c :: s)) :
    (load m i : Outcome ε UInt8) = .ok c := by
  rw [Buffer.load, h.getElem?]

/-- A stretch without NUL ends before the next NUL. -/
theorem le_of_nulFree_take {m : Bytes} {i n j : Nat} (h : NulFree ((m.drop i).take n))
    (hj : Lies m j [0]) (hij : i ≤ j) : i + n ≤ j := by
  by_contra hlt
  refine h (List.mem_iff_getElem?.mpr ⟨j - i, ?_⟩)
  rw [List.getElem?_take_of_lt (by omega), List.getElem?_drop, Nat.add_sub_cancel' hij]
  exact hj.getElem?

theorem Lies.copy_of_le {m : Bytes} {i n : Nat} {s : Bytes} (h : Lies m i s) (hn : s.length = n)
    (hin : i + n ≤ m.length) : (copy m i n : Outcome ε Bytes) = .ok s := by
  rw [Buffer.copy, if_pos hin, ← hn, ← List.prefix_iff_eq_take.mp h]

theorem Lies.copy {m : Bytes} {i n : Nat} {s : Bytes} (h : Lies m i s) (hn : s.length = n)
    (hpos : 0 < n) : (copy m i n : Outcome ε Bytes) = .ok s :=
  h.copy_of_le hn (hn ▸ h.le_length (List.length_pos_iff.mp (hn ▸ hpos)))

theorem Lies.loadLe {m : Bytes} {i n : Nat} {s : Bytes} (h : Lies m i s) (hn : s.length = n)
    (hpos : 0 < n) : (loadLe m i n : Outcome ε Nat) = .ok (fromLe s) := by
  rw [Buffer.loadLe, h.copy hn hpos, Outcome.ok_bind]

theorem Lies.text {m : Bytes} {i : Nat} {s t : Bytes} (h : Lies m i (s ++ 0 :: t))
    (hs : NulFree s) : (text m i : Outcome ε Bytes) = .ok s := by
  obtain ⟨rest, hrest⟩ := h
  rw [Buffer.text, ← hrest, List.append_assoc, List.cons_append, cString_append_nul hs,
    if_pos (by simp)]

theorem Lies.findNul {m : Bytes} {i n : Nat} {s t : Bytes} (h : Lies m i (s ++ 0 :: t))
    (hs : NulFree s) (hn : s.length < n) :
    (findNul m n i : Outcome ε (Option Nat)) = .ok (some (i + s.length)) := by
  induction s generalizing i n with
  | nil =>
    obtain ⟨n, rfl⟩ := Nat.exists_eq_succ_of_ne_zero (Nat.ne_of_gt hn)
    rw [Buffer.findNul, h.load, Outcome.ok_bind, if_pos rfl]
    rfl
  | cons c s ih =>
    obtain ⟨n, rfl⟩ := Nat.exists_eq_succ_of_ne_zero (Nat.ne_of_gt (Nat.zero_lt_of_lt hn))
    have hc : c ≠ 0 := fun h0 => hs (h0 ▸ List.mem_cons_self ..)
    have hrest : NulFree s := fun hmem => hs (List.mem_cons_of_mem _ hmem)
    rw [List.cons_append] at h
    rw [Buffer.findNul, h.load, Outcome.ok_bind, if_neg hc,
      ih (lies_cons.mp h).2 hrest (Nat.lt_of_succ_lt_succ hn), List.length_cons,
      Nat.add_right_comm, ← Nat.add_assoc]

/-! ## Reads inside the buffer -/

theorem exists_load {m : Bytes} {i : Nat} (h : i < m.length) :
    ∃ c, (load m i : Outcome ε UInt8) = .ok c ∧ Lies m i [c] := by
  refine ⟨m[i], by rw [load, List.getElem?_eq_getElem h], ?_⟩
  rw [Lies, List.drop_eq_getElem_cons h]
  exact ⟨_, rfl⟩

theorem exists_copy {m : Bytes} {i n : Nat} (h : i + n ≤ m.length) :
    ∃ s, (copy m i n : Outcome ε Bytes) = .ok s ∧ s.length = n ∧ Lies m i s := by
  refine ⟨(m.drop i).take n, by rw [copy, if_pos h], ?_, lies_take m i n⟩
  rw [List.length_take, List.length_drop]
  omega

theorem exists_loadLe {m : Bytes} {i n : Nat} (h : i + n ≤ m.length) :
    ∃ s, (loadLe m i n : Outcome ε Nat) = .ok (fromLe s) ∧ s.length = n ∧ Lies m i s := by
  obtain ⟨s, hs, hlen, hlies⟩ := exists_copy (ε := ε) h
  exact ⟨s, by rw [loadLe, hs, Outcome.ok_bind], hlen, hlies⟩

/-- The loop that looks for a NUL runs inside the buffer.  It reaches its end, or
it stops at the first NUL. -/
theorem findNul_cases {m : Bytes} {n i : Nat} (h : 0 < n → i + n ≤ m.length) :
    ((findNul m n i : Outcome ε (Option Nat)) = .ok none ∧ NulFree ((m.drop i).take n)) ∨
    ∃ s, (findNul m n i : Outcome ε (Option Nat)) = .ok (some (i + s.length)) ∧ NulFree s ∧
      s.length < n ∧ Lies m i (s ++ [0]) := by
  induction n generalizing i with
  | zero => exact Or.inl ⟨rfl, by simp [NulFree]⟩
  | succ n ih =>
    obtain ⟨c, hload, hlies⟩ := exists_load (ε := ε) (m := m) (i := i) (by omega)
    rw [findNul, hload, Outcome.ok_bind]
    by_cases hc : c = 0
    · subst hc
      rw [if_pos rfl]
      exact Or.inr ⟨[], rfl, by simp [NulFree], by simp, hlies⟩
    · rw [if_neg hc]
      rcases ih (i := i + 1) (by omega) with ⟨hnone, hfree⟩ | ⟨s, hsome, hfree, hlt, hs⟩
      · refine Or.inl ⟨hnone, ?_⟩
        obtain ⟨rest, hrest⟩ := hlies
        rw [List.singleton_append] at hrest
        have hdrop : m.drop (i + 1) = rest := by
          rw [← List.drop_drop, ← hrest]
          rfl
        rw [hdrop] at hfree
        rw [← hrest, List.take_succ_cons]
        simpa [NulFree, not_or] using ⟨Ne.symm hc, hfree⟩
      · refine Or.inr ⟨c :: s, ?_, ?_, by simpa using hlt, lies_cons.mpr ⟨hlies, hs⟩⟩
        · rw [hsome, List.length_cons, Nat.add_right_comm, ← Nat.add_assoc]
        · simpa [NulFree, not_or] using ⟨Ne.symm hc, hfree⟩

/-! ## Writes -/

/-- A buffer with the bytes `s` written at an offset inside of it. -/
def put (m : Bytes) (i : Nat) (s : Bytes) : Bytes := m.take i ++ (s ++ m.drop (i + s.length))

/-- `memcpy` into the buffer. -/
def store (m : Bytes) (i : Nat) (s : Bytes) : Outcome ε Bytes :=
  if i + s.length ≤ m.length then .ok (put m i s) else .undefined

theorem store_eq {m : Bytes} {i : Nat} {s : Bytes} (h : i + s.length ≤ m.length) :
    (store m i s : Outcome ε Bytes) = .ok (put m i s) := if_pos h

theorem length_put {m : Bytes} {i : Nat} {s : Bytes} (h : i + s.length ≤ m.length) :
    (put m i s).length = m.length := by
  simp only [put, List.length_append, List.length_take, List.length_drop]
  omega

theorem lies_put {m : Bytes} {i : Nat} (s : Bytes) (h : i ≤ m.length) : Lies (put m i s) i s := by
  have hlen : (m.take i).length = i := by
    rw [List.length_take]
    omega
  rw [Lies, put, List.drop_left' hlen]
  exact List.prefix_append _ _

/-- What lies in front of a write stays. -/
theorem Lies.put {m : Bytes} {i j : Nat} {s : Bytes} (h : Lies m j s) (t : Bytes)
    (hle : j + s.length ≤ i) : Lies (put m i t) j s := by
  rcases Nat.eq_zero_or_pos s.length with hzero | hpos
  · rw [List.length_eq_zero_iff.mp hzero]
    exact lies_nil _ _
  have hin := h.le_length (List.length_pos_iff.mp hpos)
  rw [Lies, Buffer.put, List.drop_append_of_le_length (by rw [List.length_take]; omega),
    List.drop_take]
  rw [Lies, List.prefix_iff_eq_take] at h
  refine List.IsPrefix.trans ?_ (List.prefix_append _ _)
  rw [h, List.prefix_iff_eq_take, List.take_take, List.length_take, List.length_drop]
  congr 1
  omega

/-- What lies behind a write stays. -/
theorem Lies.put_behind {m : Bytes} {i j : Nat} {s : Bytes} (h : Lies m j s) {t : Bytes}
    (hin : i + t.length ≤ m.length) (hle : i + t.length ≤ j) : Lies (Buffer.put m i t) j s := by
  have hlen : (m.take i).length = i := by
    rw [List.length_take]
    omega
  have hfront : (m.take i ++ t).length = i + t.length := by rw [List.length_append, hlen]
  rw [Lies, Buffer.put, ← List.append_assoc, List.drop_append, List.drop_of_length_le (by omega),
    List.nil_append, hfront, List.drop_drop, Nat.add_sub_cancel' hle]
  exact h

/-- More bytes behind a buffer. -/
theorem Lies.append {m : Bytes} {i : Nat} {s : Bytes} (h : Lies m i s) (t : Bytes) :
    Lies (m ++ t) i s := by
  rcases Nat.eq_zero_or_pos s.length with hzero | hpos
  · rw [List.length_eq_zero_iff.mp hzero]
    exact lies_nil _ _
  have hin := h.le_length (List.length_pos_iff.mp hpos)
  rw [Lies, List.drop_append_of_le_length (by omega)]
  exact List.IsPrefix.trans h (List.prefix_append _ _)

/-- A buffer cut behind what lies there. -/
theorem Lies.take {m : Bytes} {i n : Nat} {s : Bytes} (h : Lies m i s) (hle : i + s.length ≤ n) :
    Lies (m.take n) i s := by
  rw [Lies, List.drop_take, List.prefix_take_iff]
  exact ⟨h, by omega⟩

/-! ## Words -/

theorem fromLe_append (s t : Bytes) : fromLe (s ++ t) = fromLe s + 256 ^ s.length * fromLe t := by
  rw [fromLe, List.map_append, Nat.ofDigits_append, List.length_map, fromLe, fromLe]

theorem fromLe_lt (s : Bytes) : fromLe s < 256 ^ s.length := by
  have hdigits : ∀ d ∈ s.map UInt8.toNat, d < 254 + 2 := by
    intro d hd
    obtain ⟨c, -, rfl⟩ := List.mem_map.mp hd
    exact c.toNat_lt
  simpa [fromLe] using Nat.ofDigits_lt_base_pow_length' hdigits

/-- Words of the same number of bytes are told apart by their numbers. -/
theorem fromLe_inj {s t : Bytes} (hlen : s.length = t.length) (h : fromLe s = fromLe t) :
    s = t := by
  have hdigits : ∀ u : Bytes, ∀ d ∈ u.map UInt8.toNat, d < 256 := by
    intro u d hd
    obtain ⟨c, -, rfl⟩ := List.mem_map.mp hd
    exact c.toNat_lt
  have hmap := Nat.ofDigits_inj_of_len_eq (by decide) (by simpa using hlen) (hdigits s) (hdigits t) h
  exact List.map_injective_iff.mpr (fun _ _ => UInt8.toNat_inj.mp) hmap

end Vklib.Buffer
