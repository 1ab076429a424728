import Vklib.Requests.Lines

/-!
# What depends on the heap

The receive loop writes the received bytes at the start of the buffer and no NUL
behind them, so `strtok` goes on into bytes that the allocator left there.

`reception` is the receive loop without the buffer: what the calls of `recv`
deliver, or how the loop fails.  `receive_spec` says that the buffer holds these
bytes, and behind them at least one byte of the heap.  So the result is the same
for every heap exactly when the loop fails, or when the received bytes bring
their own NUL (`respond_heapIndependent_iff`).
-/

namespace Vklib.Requests

/-- The size of the buffer at the next call of `recv`, when `n` bytes were
received. -/
def growth (grants : Nat → Bool) (n size : Nat) : Outcome Bytes Nat :=
  if n < size then .ok size
  else if INT_MAX < size + BUFFER_SIZE then .undefined
  else if grants (size + BUFFER_SIZE) then .ok (size + BUFFER_SIZE)
  else .error (bytes "Could not allocate memory.")

/-- What the calls of `recv` deliver, when `n` bytes were received into a buffer
of which `size` bytes are counted. -/
def reception (grants : Nat → Bool) : List (Option Bytes) → Nat → Nat → Outcome Bytes Bytes
  | [], n, size => do
    let _ ← growth grants n size
    .ok []
  | none :: _, n, size => do
    let _ ← growth grants n size
    .error (bytes "Could not receive response.")
  | some chunk :: script, n, size => do
    let size ← growth grants n size
    let data := chunk.take (size - n)
    if data = [] then .ok []
    else do
      let rest ← reception grants script (n + data.length) size
      .ok (data ++ rest)

/-- `count` bytes of the heap from an index on. -/
def heapBytes (heap : Nat → UInt8) (start count : Nat) : Bytes :=
  (List.range count).map fun i => heap (start + i)

@[simp] theorem length_heapBytes (heap : Nat → UInt8) (start count : Nat) :
    (heapBytes heap start count).length = count := by simp [heapBytes]

theorem heapBytes_append (heap : Nat → UInt8) (start a b : Nat) :
    heapBytes heap start a ++ heapBytes heap (start + a) b = heapBytes heap start (a + b) := by
  unfold heapBytes
  rw [List.range_add, List.map_append, List.map_map]
  simp [Function.comp_def, Nat.add_assoc]

theorem drop_heapBytes (heap : Nat → UInt8) {start a k : Nat} (h : k ≤ a) :
    (heapBytes heap start a).drop k = heapBytes heap (start + k) (a - k) := by
  obtain ⟨b, rfl⟩ := Nat.exists_eq_add_of_le h
  rw [← heapBytes_append, List.drop_append_of_le_length (by simp)]
  simp [List.drop_of_length_le]

/-- The receive loop between two calls of `recv`: the received bytes lie at the
start of the buffer, and behind them is the heap. -/
def midway (heap : Nat → UInt8) (received : Bytes) (size : Nat) : Receiver where
  buffer := received ++ heapBytes heap received.length (max size BUFFER_SIZE - received.length)
  cur_size := size
  bytes_received := received.length

section

variable {heap : Nat → UInt8} {grants : Nat → Bool} {received : Bytes} {size : Nat}

theorem lt_of_growth {n size' : Nat} (hmax : (size : Int) ≤ INT_MAX) (hn : n ≤ size)
    (h : growth grants n size = .ok size') : n < size' ∧ (size' : Int) ≤ INT_MAX := by
  unfold growth at h
  split at h
  · rw [← Outcome.ok.inj h]
    omega
  · split at h
    · simp at h
    · split at h
      · rw [← Outcome.ok.inj h]
        simp only [BUFFER_SIZE] at *
        omega
      · simp at h

theorem growth_ne_outOfFuel {n : Nat} : growth grants n size ≠ .outOfFuel := by
  unfold growth
  split
  · simp
  · split
    · simp
    · split <;> simp

/-- The growth of the buffer. -/
theorem grow_midway (hn : received.length ≤ max size BUFFER_SIZE) :
    grow heap grants (midway heap received size) =
      growth grants received.length size >>= fun size' => .ok (midway heap received size') := by
  unfold grow growth
  by_cases hless : received.length < size
  · rw [if_pos (by simpa [midway] using hless), if_pos hless]
    rfl
  rw [if_neg (by simpa [midway] using hless), if_neg hless]
  by_cases hover : INT_MAX < (size : Int) + BUFFER_SIZE
  · rw [if_pos (show INT_MAX < (midway heap received size).cur_size + BUFFER_SIZE from hover),
      if_pos hover]
    rfl
  rw [if_neg (show ¬ INT_MAX < (midway heap received size).cur_size + BUFFER_SIZE from hover),
    if_neg hover]
  have hsize : toSize ((midway heap received size).cur_size + BUFFER_SIZE) = size + BUFFER_SIZE := by
    show toSize ((size : Int) + BUFFER_SIZE) = _
    rw [toSize_of_nonneg (by omega) (by omega)]
    omega
  rw [hsize]
  by_cases hgrants : grants (size + BUFFER_SIZE) = true
  · rw [if_pos hgrants, if_pos hgrants, Outcome.ok_bind]
    have hbuffer : regrow heap (midway heap received size).buffer (size + BUFFER_SIZE) =
        (midway heap received (size + BUFFER_SIZE)).buffer := by
      have hlength : (midway heap received size).buffer.length = max size BUFFER_SIZE := by
        simp only [midway, List.length_append, length_heapBytes]
        omega
      show (midway heap received size).buffer.take _ ++ heapBytes heap _ _ = _
      rw [List.take_of_length_le (by omega), hlength]
      show received ++ heapBytes heap _ _ ++ heapBytes heap _ _ = received ++ heapBytes heap _ _
      have hjoin := heapBytes_append heap received.length (max size BUFFER_SIZE - received.length)
        (size + BUFFER_SIZE - max size BUFFER_SIZE)
      rw [show received.length + (max size BUFFER_SIZE - received.length) = max size BUFFER_SIZE
        from by omega] at hjoin
      have hcount : max size BUFFER_SIZE - received.length +
          (size + BUFFER_SIZE - max size BUFFER_SIZE) =
            max (size + BUFFER_SIZE) BUFFER_SIZE - received.length := by omega
      rw [List.append_assoc, hjoin, hcount]
    rw [hbuffer]
    rfl
  · rw [if_neg hgrants, if_neg hgrants]
    rfl

/-- The size that is passed to `recv`. -/
theorem room_midway (hn : received.length < size) (hmax : (size : Int) ≤ INT_MAX) :
    toSize ((midway heap received size).cur_size - (midway heap received size).bytes_received) =
      size - received.length := by
  show toSize ((size : Int) - received.length) = _
  rw [toSize_of_nonneg (by omega) (by omega)]
  omega

/-- The call of `recv`. -/
theorem recvInto_midway (hn : received.length < size) (hmax : (size : Int) ≤ INT_MAX)
    (chunk : Bytes) :
    recvInto (midway heap received size) chunk =
      .ok (midway heap (received ++ chunk.take (size - received.length)) size) := by
  have hlength : (midway heap received size).buffer.length = max size BUFFER_SIZE := by
    simp only [midway, List.length_append, length_heapBytes]
    omega
  have hdata : (chunk.take (size - received.length)).length ≤ size - received.length := by
    rw [List.length_take]
    omega
  unfold recvInto
  simp only [room_midway hn hmax]
  rw [if_pos ⟨Int.natCast_nonneg _, by rw [hlength]; show (received.length : Int) + _ ≤ _; omega⟩]
  congr 1
  simp only [midway, Int.toNat_natCast, List.length_append, Receiver.mk.injEq, true_and]
  refine ⟨?_, by omega⟩
  rw [List.take_left', List.drop_append, List.drop_of_length_le (by omega), List.nil_append,
    drop_heapBytes heap (by omega), List.append_assoc, List.append_assoc]
  · congr 3
    · omega
    · omega
  · rfl

/-- The receive loop fails like `reception`, or the buffer holds what was
delivered and at least one byte of the heap. -/
def EndsLike (heap : Nat → UInt8) (received : Bytes) (result : Outcome Bytes Receiver) :
    Outcome Bytes Bytes → Prop
  | .ok rest => ∃ size', received.length + rest.length < size' ∧
      result = .ok (midway heap (received ++ rest) size')
  | .error e => result = .error e
  | .undefined => result = .undefined
  | .outOfFuel => False

/-- Both grow the buffer first, and fail when that fails. -/
theorem endsLike_grow {next : Receiver → Outcome Bytes Receiver} {rest : Nat → Outcome Bytes Bytes}
    (hn : received.length ≤ size) (hmax : (size : Int) ≤ INT_MAX)
    (h : ∀ size', received.length < size' → (size' : Int) ≤ INT_MAX →
      EndsLike heap received (next (midway heap received size')) (rest size')) :
    EndsLike heap received (grow heap grants (midway heap received size) >>= next)
      (growth grants received.length size >>= rest) := by
  rw [grow_midway (le_max_of_le_left hn)]
  cases hgrowth : growth grants received.length size with
  | ok size' =>
    obtain ⟨hlt, hmax'⟩ := lt_of_growth hmax hn hgrowth
    exact h size' hlt hmax'
  | error e => rfl
  | undefined => rfl
  | outOfFuel => exact absurd hgrowth growth_ne_outOfFuel

/-- The bytes of one call stand before those of the calls behind it. -/
theorem endsLike_append {result : Outcome Bytes Receiver} {data : Bytes}
    {rest : Outcome Bytes Bytes} (h : EndsLike heap (received ++ data) result rest) :
    EndsLike heap received result (rest >>= fun rest => .ok (data ++ rest)) := by
  cases rest with
  | ok rest =>
    obtain ⟨size', hlt, hresult⟩ := h
    rw [List.length_append] at hlt
    refine ⟨size', by rw [List.length_append]; omega, ?_⟩
    rw [hresult, List.append_assoc]
  | error e => exact h
  | undefined => exact h
  | outOfFuel => exact h

theorem receive_spec (heap : Nat → UInt8) (grants : Nat → Bool) (received : Bytes) (size : Nat)
    (script : List (Option Bytes)) (hn : received.length ≤ size) (hmax : (size : Int) ≤ INT_MAX) :
    EndsLike heap received (receive heap grants script (midway heap received size))
      (reception grants script received.length size) := by
  induction script generalizing received size with
  | nil =>
    apply endsLike_grow hn hmax
    intro size' hlt hmax'
    rw [recvInto_midway hlt hmax']
    exact ⟨size', by simpa using hlt, by simp⟩
  | cons result script ih =>
    cases result with
    | none =>
      apply endsLike_grow hn hmax
      intro size' hlt hmax'
      rw [recvInto_midway hlt hmax']
      rfl
    | some chunk =>
      apply endsLike_grow hn hmax
      intro size' hlt hmax'
      rw [recvInto_midway hlt hmax', Outcome.ok_bind]
      by_cases hdata : chunk.take (size' - received.length) = []
      · simp only [hdata, if_true, List.append_nil]
        exact ⟨size', by simpa using hlt, by simp⟩
      · have hpos := List.length_pos_iff.mpr hdata
        have hfits : (received ++ chunk.take (size' - received.length)).length ≤ size' := by
          rw [List.length_append, List.length_take]
          omega
        have hrest := endsLike_append (ih _ _ hfits hmax')
        rw [List.length_append] at hrest
        rw [if_neg (by simp only [midway, List.length_append]; omega)]
        simpa only [if_neg hdata] using hrest

end

/-! ## Two runs -/

/-- The response for the same script is a table or an error, and the same for
every heap. -/
def HeapIndependent (grants : Nat → Bool) (script : List (Option Bytes)) : Prop :=
  ∃ result, ((∃ t, result = .ok t) ∨ ∃ e, result = .error e) ∧
    ∀ heap, respond heap grants script 0 = result

/-- What was received brings its own NUL, and the lines before it fit. -/
def Terminated (received : Bytes) : Prop :=
  0 ∈ received ∧ ∀ code lines, pieces isBreak (cString received) = code :: lines → Fit lines

/-- The receive loop starts with nothing received and nothing counted. -/
theorem respond_eq (heap : Nat → UInt8) (grants : Nat → Bool) (script : List (Option Bytes)) :
    respond heap grants script 0 =
      (receive heap grants script (midway heap [] 0) >>= fun r => parseBuffer r.buffer) := by
  unfold respond
  congr 1

/-- What is parsed is what was received, and the heap behind it. -/
theorem respond_of_reception {grants : Nat → Bool} {script : List (Option Bytes)} {received : Bytes}
    (h : reception grants script 0 0 = .ok received) (heap : Nat → UInt8) :
    ∃ count, BUFFER_SIZE ≤ received.length + count ∧ respond heap grants script 0 =
      parseBuffer (received ++ heapBytes heap received.length count) := by
  have hspec := receive_spec heap grants [] 0 script (by simp) (by decide)
  rw [List.length_nil, h] at hspec
  obtain ⟨size, -, hrun⟩ := hspec
  rw [respond_eq, hrun]
  refine ⟨max size BUFFER_SIZE - received.length, ?_, rfl⟩
  omega

/-- A failure of the receive loop is the result. -/
theorem respond_of_failure {grants : Nat → Bool} {script : List (Option Bytes)} {e : Bytes}
    (h : reception grants script 0 0 = .error e) (heap : Nat → UInt8) :
    respond heap grants script 0 = .error e := by
  have hspec := receive_spec heap grants [] 0 script (by simp) (by decide)
  rw [List.length_nil, h] at hspec
  rw [respond_eq, hspec]
  rfl

/-- Where the receive loop is undefined, so is the result. -/
theorem respond_of_undefined {grants : Nat → Bool} {script : List (Option Bytes)}
    (h : reception grants script 0 0 = .undefined) (heap : Nat → UInt8) :
    respond heap grants script 0 = .undefined := by
  have hspec := receive_spec heap grants [] 0 script (by simp) (by decide)
  rw [List.length_nil, h] at hspec
  rw [respond_eq, hspec]
  rfl

theorem reception_ne_outOfFuel (grants : Nat → Bool) (script : List (Option Bytes)) :
    reception grants script 0 0 ≠ .outOfFuel := by
  intro h
  have hspec := receive_spec (fun _ => 0) grants [] 0 script (by simp) (by decide)
  rw [List.length_nil, h] at hspec
  exact hspec

/-- A heap without NUL keeps received bytes without NUL from being parsed. -/
theorem mem_zero_of_heapIndependent {grants : Nat → Bool} {script : List (Option Bytes)}
    {received : Bytes} (h : HeapIndependent grants script)
    (hreception : reception grants script 0 0 = .ok received) : 0 ∈ received := by
  obtain ⟨result, hreturned, hall⟩ := h
  by_contra hfree
  obtain ⟨count, -, hparse⟩ := respond_of_reception hreception fun _ => 88
  have hheap : NulFree (heapBytes (fun _ => 88) received.length count) := by
    intro hmem
    obtain ⟨i, -, hi⟩ := List.mem_map.mp hmem
    simp at hi
  obtain ⟨hok, herror⟩ := parseBuffer_without_nul (nulFree_append.mpr ⟨hfree, hheap⟩)
  rw [hall] at hparse
  rcases hreturned with ⟨t, rfl⟩ | ⟨e, rfl⟩
  · exact hok t hparse.symm
  · exact herror e hparse.symm

/-- With a NUL among the received bytes, what lies behind them is not read. -/
theorem respond_of_nul {grants : Nat → Bool} {script : List (Option Bytes)} {received : Bytes}
    (hreception : reception grants script 0 0 = .ok received) (hnul : 0 ∈ received)
    (heap : Nat → UInt8) :
    ∃ junk, respond heap grants script 0 = parseBuffer (cString received ++ 0 :: junk) := by
  obtain ⟨rest, hrest⟩ := exists_eq_cString_append hnul
  obtain ⟨count, -, hparse⟩ := respond_of_reception hreception heap
  refine ⟨rest ++ heapBytes heap received.length count, ?_⟩
  rw [← List.cons_append, ← List.append_assoc, ← hrest]
  exact hparse

/-- The result does not depend on the heap exactly when the receive loop fails,
or when the received bytes are terminated. -/
theorem respond_heapIndependent_iff (grants : Nat → Bool) (script : List (Option Bytes)) :
    HeapIndependent grants script ↔
      (∃ e, reception grants script 0 0 = .error e) ∨
        ∃ received, reception grants script 0 0 = .ok received ∧ Terminated received := by
  constructor
  · intro h
    cases hreception : reception grants script 0 0 with
    | error e => exact Or.inl ⟨e, rfl⟩
    | ok received =>
      have hnul := mem_zero_of_heapIndependent h hreception
      refine Or.inr ⟨received, rfl, hnul, fun code lines hlines => ?_⟩
      obtain ⟨result, hreturned, hall⟩ := h
      obtain ⟨junk, hparse⟩ := respond_of_nul hreception hnul fun _ => 0
      have htext := parseBuffer_text _ (nulFree_cString received) junk
      rw [← hparse, hall, hlines] at htext
      rcases hreturned with ⟨t, rfl⟩ | ⟨e, rfl⟩
      · exact htext.2.1 t rfl
      · exact absurd rfl (htext.2.2 e)
    | undefined =>
      obtain ⟨result, hreturned, hall⟩ := h
      have hresult := respond_of_undefined hreception fun _ => 0
      rw [hall] at hresult
      rcases hreturned with ⟨t, rfl⟩ | ⟨e, rfl⟩
      · simp at hresult
      · simp at hresult
    | outOfFuel => exact absurd hreception (reception_ne_outOfFuel grants script)
  · rintro (⟨e, he⟩ | ⟨received, hreceived, hnul, hfit⟩)
    · exact ⟨.error e, Or.inr ⟨e, rfl⟩, respond_of_failure he⟩
    · cases hlines : pieces isBreak (cString received) with
      | nil =>
        refine ⟨_, Or.inr ⟨bytes "Could not get response code.", rfl⟩, fun heap => ?_⟩
        obtain ⟨junk, hparse⟩ := respond_of_nul hreceived hnul heap
        have hspec := parseBuffer_text _ (nulFree_cString received) junk
        rw [hlines] at hspec
        rw [hparse, hspec]
      | cons code lines =>
        refine ⟨_, Or.inl ⟨responseOf code lines, rfl⟩, fun heap => ?_⟩
        obtain ⟨junk, hparse⟩ := respond_of_nul hreceived hnul heap
        have hspec := parseBuffer_text _ (nulFree_cString received) junk
        rw [hlines] at hspec
        rw [hparse, hspec.1 (hfit code lines hlines)]

/-- A response that is only a status line. -/
def bareResponse : Bytes := bytes "HTTP/1.1 200 OK\r\n\r\n"

theorem length_bareResponse : bareResponse.length = 19 := by decide

/-- A byte of the heap behind the response in the buffer. -/
def byteBehind (c : UInt8) (i : Nat) : UInt8 := if i = 19 then c else 0

theorem heapBytes_byteBehind (c : UInt8) (n : Nat) :
    heapBytes (byteBehind c) 19 (2 + n) = c :: 0 :: heapBytes (byteBehind c) 21 n := by
  rw [← heapBytes_append]
  simp [heapBytes, List.range_succ, byteBehind]

/-- What `strtok` sees when a NUL or a brace lies behind the response. -/
theorem respond_bareResponse (c : UInt8) :
    ∃ junk, respond (byteBehind c) (fun _ => true) [some bareResponse] 0 =
      parseBuffer (bareResponse ++ c :: 0 :: junk) := by
  have hreception : reception (fun _ => true) [some bareResponse] 0 0 = .ok bareResponse := by
    decide +kernel
  obtain ⟨count, hcount, hparse⟩ := respond_of_reception hreception (byteBehind c)
  rw [length_bareResponse] at hcount hparse
  obtain ⟨n, rfl⟩ := Nat.exists_eq_add_of_le (show 2 ≤ count from by
    unfold BUFFER_SIZE at hcount
    omega)
  rw [heapBytes_byteBehind] at hparse
  exact ⟨_, hparse⟩

theorem heap_becomes_body :
    ¬ ∀ heap heap', respond heap (fun _ => true) [some bareResponse] 0 =
      respond heap' (fun _ => true) [some bareResponse] 0 := by
  intro h
  obtain ⟨junk, hzero⟩ := respond_bareResponse 0
  obtain ⟨junk', hbrace⟩ := respond_bareResponse 123
  have hsame := h (byteBehind 0) (byteBehind 123)
  have htext := parseBuffer_text bareResponse (by decide) (0 :: junk)
  have htext' := parseBuffer_text (bareResponse ++ [123]) (by decide) junk'
  rw [show pieces isBreak bareResponse = [bytes "HTTP/1.1 200 OK"] from by decide] at htext
  rw [show pieces isBreak (bareResponse ++ [123]) = [bytes "HTTP/1.1 200 OK", [123]] from by decide,
    List.append_assoc, List.cons_append, List.nil_append] at htext'
  rw [hzero, hbrace, htext.1 (by decide), htext'.1 (by decide), Outcome.ok.injEq] at hsame
  have hbody := congrArg Response.body hsame
  revert hbody
  decide

end Vklib.Requests
