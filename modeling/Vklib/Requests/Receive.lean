import Vklib.Requests.Independence

/-!
# The receive loop

`recvCalls` are the calls of `recv` that the loop makes, each with the variables
before it and with what it delivers.  `ReceivesSoundly` says what the loop is
meant to do: every call writes into the buffer, the first call that delivers
nothing ends the loop, and then the buffer starts with all that was delivered.

`bytes_received` has no initializer.  From a value inside the first
`BUFFER_SIZE` bytes the loop keeps its bounds, since the buffer grows whenever it
is full: before each call its size is the next multiple of `BUFFER_SIZE`
(`Sized`).  But only from 0 on does it count what was delivered
(`receivesSoundly_iff`).
-/

namespace Vklib.Requests

/-- A call of `recv`: the variables before it, and the delivered bytes or an
error. -/
structure Call where
  before : Receiver
  result : Option Bytes

/-- The calls of `recv` that the receive loop makes. -/
def recvCalls (heap : Nat → UInt8) (grants : Nat → Bool) :
    List (Option Bytes) → Receiver → List Call
  | [], r =>
    match grow heap grants r with
    | .ok r => [⟨r, some []⟩]
    | _ => []
  | none :: _, r =>
    match grow heap grants r with
    | .ok r => [⟨r, none⟩]
    | _ => []
  | some chunk :: script, r =>
    match grow heap grants r with
    | .ok r =>
      let call : Call := ⟨r, some (chunk.take (toSize (r.cur_size - r.bytes_received)))⟩
      match recvInto r chunk with
      | .ok r' =>
        if r'.bytes_received = r.bytes_received then [call]
        else call :: recvCalls heap grants script r'
      | _ => [call]
    | _ => []

/-- The range that `recv` may write lies inside the buffer. -/
structure InBuffer (r : Receiver) : Prop where
  nonneg : 0 ≤ r.bytes_received
  lt : r.bytes_received < r.cur_size
  allocated : r.cur_size = r.buffer.length

/-- All that was delivered. -/
def received (calls : List Call) : Bytes := calls.flatMap fun call => call.result.getD []

/-- The variables before the receive loop. -/
def startReceiver (heap : Nat → UInt8) (bytes_received : Int) : Receiver where
  buffer := regrow heap [] BUFFER_SIZE
  cur_size := 0
  bytes_received := bytes_received

/-- The receive loop does what it is meant to do, from a first value of
`bytes_received` on. -/
structure ReceivesSoundly (heap : Nat → UInt8) (grants : Nat → Bool)
    (script : List (Option Bytes)) (bytes_received : Int) : Prop where
  inside : ∀ call ∈ recvCalls heap grants script (startReceiver heap bytes_received),
    InBuffer call.before
  first : ∀ pre call post,
    recvCalls heap grants script (startReceiver heap bytes_received) = pre ++ call :: post →
      call.result = some [] →
        post = [] ∧ ∃ r, receive heap grants script (startReceiver heap bytes_received) = .ok r
  exit : ∀ r, receive heap grants script (startReceiver heap bytes_received) = .ok r →
    let data := received (recvCalls heap grants script (startReceiver heap bytes_received))
    r.bytes_received = data.length ∧ r.buffer.take data.length = data
  defined : receive heap grants script (startReceiver heap bytes_received) ≠ .undefined

/-! ## The sizes of the buffer -/

/-- The size of the buffer at a call of `recv`, when `n` bytes are counted. -/
def nextSize (n : Nat) : Nat := (n / BUFFER_SIZE + 1) * BUFFER_SIZE

/-- What the peer delivers when `n` bytes are counted and the memory suffices,
and whether it closes the connection then. -/
def exchange : Nat → List (Option Bytes) → Bytes × Bool
  | _, [] => ([], true)
  | _, none :: _ => ([], false)
  | n, some chunk :: script =>
    let data := chunk.take (nextSize n - n)
    if data = [] then ([], true)
    else
      let rest := exchange (n + data.length) script
      (data ++ rest.1, rest.2)

/-- The size that the buffer needs for the whole exchange. -/
def needed (n : Nat) (script : List (Option Bytes)) : Nat :=
  nextSize (n + (exchange n script).1.length)

/-- `realloc` gives the sizes above `size` that the loop asks for, up to a
bound. -/
def GrantedFrom (grants : Nat → Bool) (size : Nat) (bound : Int) : Prop :=
  ∀ m, size < m → (m : Int) ≤ bound → BUFFER_SIZE ∣ m → grants m = true

/-- The invariant between two calls: the buffer has the size for the next call,
or it is full, or it is the first one. -/
def Sized (n size : Nat) : Prop :=
  size = nextSize n ∨ (size + BUFFER_SIZE = nextSize n ∧ (n = size ∨ size = 0))

theorem lt_nextSize (n : Nat) : n < nextSize n := by
  unfold nextSize BUFFER_SIZE
  omega

theorem nextSize_mono {m n : Nat} (h : m ≤ n) : nextSize m ≤ nextSize n := by
  unfold nextSize BUFFER_SIZE
  omega

theorem sized_nextSize {n k : Nat} (h : n + k ≤ nextSize n) : Sized (n + k) (nextSize n) := by
  unfold Sized nextSize BUFFER_SIZE at *
  omega

theorem Sized.le_max {n size : Nat} (h : Sized n size) : n ≤ max size BUFFER_SIZE := by
  unfold Sized nextSize BUFFER_SIZE at *
  omega

theorem Sized.le_nextSize {n size : Nat} (h : Sized n size) : size ≤ nextSize n := by
  unfold Sized nextSize BUFFER_SIZE at *
  omega

theorem grantedFrom_nextSize {grants : Nat → Bool} {n size : Nat} {bound : Int} (h : Sized n size)
    (hgrants : size = nextSize n ∨ grants (nextSize n) = true) :
    GrantedFrom grants size bound ↔ GrantedFrom grants (nextSize n) bound := by
  constructor
  · intro hall m hm
    exact hall m (by have := h.le_nextSize; omega)
  · intro hall m hm hbound hdvd
    by_cases hmore : nextSize n < m
    · exact hall m hmore hbound hdvd
    · rcases hgrants with rfl | hgrants
      · exact absurd hm hmore
      · -- there is only one multiple between the two sizes
        obtain rfl : m = nextSize n := by
          obtain ⟨k, rfl⟩ := hdvd
          unfold Sized nextSize BUFFER_SIZE at *
          omega
        exact hgrants

/-- What the growth does to a buffer with the invariant. -/
theorem growth_sized (grants : Nat → Bool) {n size : Nat} (h : Sized n size) :
    (growth grants n size = .ok (nextSize n) ∧
        (size = nextSize n ∨ (nextSize n : Int) ≤ INT_MAX ∧ grants (nextSize n) = true)) ∨
      (growth grants n size = .undefined ∧ size + BUFFER_SIZE = nextSize n ∧
        INT_MAX < nextSize n) ∨
      ∃ e, growth grants n size = .error e ∧ size < nextSize n ∧ (nextSize n : Int) ≤ INT_MAX ∧
        grants (nextSize n) = false := by
  unfold growth
  by_cases hless : n < size
  · have hsize : size = nextSize n := by
      unfold Sized nextSize BUFFER_SIZE at *
      omega
    exact Or.inl ⟨by rw [if_pos hless, ← hsize], Or.inl hsize⟩
  · have hsize : size + BUFFER_SIZE = nextSize n := by
      have hlt := lt_nextSize n
      unfold Sized at h
      omega
    have hcast : (size : Int) + BUFFER_SIZE = nextSize n := by omega
    have hpos : 0 < BUFFER_SIZE := by decide
    rw [if_neg hless, hsize, hcast]
    by_cases hover : INT_MAX < (nextSize n : Int)
    · exact Or.inr (Or.inl ⟨if_pos hover, rfl, hover⟩)
    · rw [if_neg hover]
      cases hgrants : grants (nextSize n) with
      | true => exact Or.inl ⟨rfl, Or.inr ⟨Int.not_lt.mp hover, rfl⟩⟩
      | false => exact Or.inr (Or.inr ⟨_, rfl, by omega, Int.not_lt.mp hover, rfl⟩)

/-! ## One round of the loop -/

/-- What the loop does from the variables between two calls on. -/
structure Loop (heap : Nat → UInt8) (grants : Nat → Bool) (script : List (Option Bytes))
    (data : Bytes) (size : Nat) : Prop where
  inside : ∀ call ∈ recvCalls heap grants script (midway heap data size), InBuffer call.before
  first : ∀ pre call post, recvCalls heap grants script (midway heap data size) =
    pre ++ call :: post → call.result = some [] →
      post = [] ∧ ∃ r, receive heap grants script (midway heap data size) = .ok r
  exit : ∀ r, receive heap grants script (midway heap data size) = .ok r → ∃ size',
    r = midway heap (data ++ received (recvCalls heap grants script (midway heap data size))) size'
  completes : (∃ r, receive heap grants script (midway heap data size) = .ok r) ↔
    (exchange data.length script).2 = true ∧ (needed data.length script : Int) ≤ INT_MAX ∧
      GrantedFrom grants size (needed data.length script)
  overflows : receive heap grants script (midway heap data size) = .undefined ↔
    INT_MAX < needed data.length script ∧ GrantedFrom grants size INT_MAX

section

variable {heap : Nat → UInt8} {grants : Nat → Bool} {script : List (Option Bytes)} {data : Bytes}
  {size : Nat}

theorem nextSize_le_needed (n : Nat) (script : List (Option Bytes)) :
    nextSize n ≤ needed n script := nextSize_mono (Nat.le_add_right _ _)

theorem inBuffer_midway : InBuffer (midway heap data (nextSize data.length)) := by
  have hlt := lt_nextSize data.length
  refine ⟨Int.natCast_nonneg _, by simpa [midway] using hlt, ?_⟩
  have hmax : max (nextSize data.length) BUFFER_SIZE = nextSize data.length := by
    unfold nextSize BUFFER_SIZE
    omega
  simp only [midway, hmax, List.length_append, length_heapBytes]
  omega

/-- Without growth there is no call. -/
theorem recvCalls_of_grow_ne_ok {r : Receiver} (script : List (Option Bytes))
    (h : ∀ r', grow heap grants r ≠ .ok r') : recvCalls heap grants script r = [] := by
  cases hgrow : grow heap grants r with
  | ok r' => exact absurd hgrow (h r')
  | _ =>
    cases script with
    | nil => simp [recvCalls, hgrow]
    | cons result script => cases result <;> simp [recvCalls, hgrow]

theorem receive_eq_grow_bind (heap : Nat → UInt8) (grants : Nat → Bool)
    (script : List (Option Bytes)) (r : Receiver) :
    ∃ rest : Receiver → Outcome Bytes Receiver,
      receive heap grants script r = grow heap grants r >>= rest := by
  cases script with
  | nil => exact ⟨_, rfl⟩
  | cons result script =>
    cases result with
    | none => exact ⟨_, rfl⟩
    | some chunk => exact ⟨_, rfl⟩

theorem dvd_nextSize (n : Nat) : BUFFER_SIZE ∣ nextSize n := Nat.dvd_mul_left _ _

/-- The size that is counted overflows. -/
theorem loop_of_undefined (hsized : Sized data.length size)
    (hgrowth : growth grants data.length size = .undefined)
    (hnext : size + BUFFER_SIZE = nextSize data.length)
    (hover : INT_MAX < nextSize data.length) : Loop heap grants script data size := by
  have hgrow : grow heap grants (midway heap data size) = .undefined := by
    rw [grow_midway hsized.le_max, hgrowth]
    rfl
  obtain ⟨rest, hreceive⟩ := receive_eq_grow_bind heap grants script (midway heap data size)
  have hcalls := recvCalls_of_grow_ne_ok script (fun r' => by rw [hgrow]; simp)
  rw [hgrow, Outcome.undefined_bind] at hreceive
  have hneeded := nextSize_le_needed data.length script
  refine ⟨by simp [hcalls], by simp [hcalls], by simp [hreceive], ?_, ?_⟩
  · refine iff_of_false (by simp [hreceive]) fun h => ?_
    have := h.2.1
    omega
  · refine iff_of_true hreceive ⟨by omega, fun m hm hbound hdvd => ?_⟩
    obtain ⟨k, hk⟩ := dvd_nextSize data.length
    obtain ⟨l, rfl⟩ := hdvd
    unfold BUFFER_SIZE at *
    omega

/-- `realloc` fails. -/
theorem loop_of_error {e : Bytes} (hsized : Sized data.length size)
    (hgrowth : growth grants data.length size = .error e)
    (hless : size < nextSize data.length) (hnext : (nextSize data.length : Int) ≤ INT_MAX)
    (hgrants : grants (nextSize data.length) = false) : Loop heap grants script data size := by
  have hgrow : grow heap grants (midway heap data size) = .error e := by
    rw [grow_midway hsized.le_max, hgrowth]
    rfl
  obtain ⟨rest, hreceive⟩ := receive_eq_grow_bind heap grants script (midway heap data size)
  have hcalls := recvCalls_of_grow_ne_ok script (fun r' => by rw [hgrow]; simp)
  rw [hgrow, Outcome.error_bind] at hreceive
  have hneeded := nextSize_le_needed data.length script
  have hrefused {bound : Int} (hbound : (nextSize data.length : Int) ≤ bound) :
      ¬ GrantedFrom grants size bound := by
    intro hall
    rw [hall _ hless hbound (dvd_nextSize _)] at hgrants
    simp at hgrants
  refine ⟨by simp [hcalls], by simp [hcalls], by simp [hreceive], ?_, ?_⟩
  · exact iff_of_false (by simp [hreceive]) fun h => hrefused (by omega) h.2.2
  · exact iff_of_false (by simp [hreceive]) fun h => hrefused hnext h.2

/-- The last call delivers nothing. -/
theorem loop_of_close (hsized : Sized data.length size)
    (hnext : (nextSize data.length : Int) ≤ INT_MAX)
    (hgrants : size = nextSize data.length ∨ grants (nextSize data.length) = true)
    (hcalls : recvCalls heap grants script (midway heap data size) =
      [⟨midway heap data (nextSize data.length), some []⟩])
    (hreceive : receive heap grants script (midway heap data size) =
      .ok (midway heap data (nextSize data.length)))
    (hexchange : exchange data.length script = ([], true)) : Loop heap grants script data size := by
  have hneeded : needed data.length script = nextSize data.length := by
    simp [needed, hexchange]
  refine ⟨?_, ?_, ?_, ?_, ?_⟩
  · rw [hcalls]
    intro call hcall
    rw [List.mem_singleton.mp hcall]
    exact inBuffer_midway
  · intro pre call post hsplit _
    rw [hcalls] at hsplit
    refine ⟨?_, _, hreceive⟩
    cases pre with
    | nil => simp_all
    | cons call' pre => simp at hsplit
  · intro r hr
    rw [hreceive, Outcome.ok.injEq] at hr
    refine ⟨nextSize data.length, ?_⟩
    simp [← hr, hcalls, received]
  · refine iff_of_true ⟨_, hreceive⟩ ⟨by rw [hexchange], by rw [hneeded]; exact hnext, ?_⟩
    rw [grantedFrom_nextSize hsized hgrants, hneeded]
    intro m hm hbound
    omega
  · refine iff_of_false (by simp [hreceive]) fun h => ?_
    rw [hneeded] at h
    omega

/-- The last call fails. -/
theorem loop_of_failure {e : Bytes} (hnext : (nextSize data.length : Int) ≤ INT_MAX)
    (hcalls : recvCalls heap grants script (midway heap data size) =
      [⟨midway heap data (nextSize data.length), none⟩])
    (hreceive : receive heap grants script (midway heap data size) = .error e)
    (hexchange : exchange data.length script = ([], false)) :
    Loop heap grants script data size := by
  have hneeded : needed data.length script = nextSize data.length := by
    simp [needed, hexchange]
  refine ⟨?_, ?_, by simp [hreceive], ?_, ?_⟩
  · rw [hcalls]
    intro call hcall
    rw [List.mem_singleton.mp hcall]
    exact inBuffer_midway
  · intro pre call post hsplit hresult
    rw [hcalls] at hsplit
    cases pre with
    | nil =>
      rw [List.nil_append, List.cons.injEq] at hsplit
      rw [← hsplit.1] at hresult
      simp at hresult
    | cons call' pre => simp at hsplit
  · exact iff_of_false (by simp [hreceive]) fun h => by simp [hexchange] at h
  · refine iff_of_false (by simp [hreceive]) fun h => ?_
    rw [hneeded] at h
    omega

/-- A call delivers something, and the loop goes on. -/
theorem loop_of_chunk {script' : List (Option Bytes)} {chunk : Bytes}
    (hsized : Sized data.length size)
    (hgrants : size = nextSize data.length ∨ grants (nextSize data.length) = true)
    (hchunk : chunk ≠ [])
    (hcalls : recvCalls heap grants script (midway heap data size) =
      ⟨midway heap data (nextSize data.length), some chunk⟩ ::
        recvCalls heap grants script' (midway heap (data ++ chunk) (nextSize data.length)))
    (hreceive : receive heap grants script (midway heap data size) =
      receive heap grants script' (midway heap (data ++ chunk) (nextSize data.length)))
    (hexchange : exchange data.length script =
      (chunk ++ (exchange (data ++ chunk).length script').1,
        (exchange (data ++ chunk).length script').2))
    (hrest : Loop heap grants script' (data ++ chunk) (nextSize data.length)) :
    Loop heap grants script data size := by
  have hneeded : needed data.length script = needed (data ++ chunk).length script' := by
    unfold needed
    rw [hexchange, List.length_append, List.length_append, Nat.add_assoc]
  refine ⟨?_, ?_, ?_, ?_, ?_⟩
  · rw [hcalls]
    intro call hcall
    rcases List.mem_cons.mp hcall with rfl | hcall
    · exact inBuffer_midway
    · exact hrest.inside call hcall
  · intro pre call post hsplit hresult
    rw [hcalls] at hsplit
    rw [hreceive]
    cases pre with
    | nil =>
      rw [List.nil_append, List.cons.injEq] at hsplit
      rw [← hsplit.1] at hresult
      exact absurd (Option.some.inj hresult) hchunk
    | cons call' pre =>
      rw [List.cons_append, List.cons.injEq] at hsplit
      exact hrest.first pre call post hsplit.2 hresult
  · intro r hr
    rw [hreceive] at hr
    obtain ⟨size', rfl⟩ := hrest.exit r hr
    refine ⟨size', ?_⟩
    rw [hcalls]
    simp [received]
  · rw [hreceive, hrest.completes, hexchange, hneeded, grantedFrom_nextSize hsized hgrants]
  · rw [hreceive, hrest.overflows, hneeded, grantedFrom_nextSize hsized hgrants]

/-- Where the growth fails the loop ends, so it is enough to look at what follows
a growth. -/
theorem loop_of_grow (hsized : Sized data.length size) (hmax : (size : Int) ≤ INT_MAX)
    (hgrown : (nextSize data.length : Int) ≤ INT_MAX →
      (size = nextSize data.length ∨ grants (nextSize data.length) = true) →
        grow heap grants (midway heap data size) = .ok (midway heap data (nextSize data.length)) →
          Loop heap grants script data size) :
    Loop heap grants script data size := by
  obtain ⟨hgrowth, hgrants⟩ | ⟨hgrowth, hnext, hover⟩ | ⟨e, hgrowth, hless, hnext, hrefused⟩ :=
    growth_sized grants hsized
  · apply hgrown
    · rcases hgrants with rfl | hgrants
      · exact hmax
      · exact hgrants.1
    · exact hgrants.imp_right And.right
    · rw [grow_midway hsized.le_max, hgrowth]
      rfl
  · exact loop_of_undefined hsized hgrowth hnext hover
  · exact loop_of_error hsized hgrowth hless hnext hrefused

/-- From a buffer with the invariant the loop does what it is meant to do, and
its end is that of the exchange when the memory suffices. -/
theorem loop_of_sized (script : List (Option Bytes)) (hsized : Sized data.length size)
    (hmax : (size : Int) ≤ INT_MAX) : Loop heap grants script data size := by
  induction script generalizing data size with
  | nil =>
    apply loop_of_grow hsized hmax
    intro hnext hgrants hgrow
    apply loop_of_close hsized hnext hgrants
    · rw [recvCalls, hgrow]
    · rw [receive, hgrow, Outcome.ok_bind, recvInto_midway (lt_nextSize _) hnext]
      simp
    · rfl
  | cons result script ih =>
    apply loop_of_grow hsized hmax
    intro hnext hgrants hgrow
    have hrecv (chunk : Bytes) : recvInto (midway heap data (nextSize data.length)) chunk =
        .ok (midway heap (data ++ chunk.take (nextSize data.length - data.length))
          (nextSize data.length)) := recvInto_midway (lt_nextSize _) hnext chunk
    cases result with
    | none =>
      apply loop_of_failure hnext
      · rw [recvCalls, hgrow]
      · rw [receive, hgrow, Outcome.ok_bind, hrecv]
        rfl
      · rfl
    | some chunk =>
      have hroom : toSize ((midway heap data (nextSize data.length)).cur_size -
          (midway heap data (nextSize data.length)).bytes_received) =
            nextSize data.length - data.length := room_midway (lt_nextSize _) hnext
      by_cases hempty : chunk.take (nextSize data.length - data.length) = []
      · apply loop_of_close hsized hnext hgrants
        · rw [recvCalls, hgrow]
          simp [hrecv, hroom, hempty]
        · rw [receive, hgrow, Outcome.ok_bind, hrecv]
          simp [hempty]
        · simp [exchange, hempty]
      · have hlength : (chunk.take (nextSize data.length - data.length)).length ≤
            nextSize data.length - data.length := by
          rw [List.length_take]
          omega
        have hlt := lt_nextSize data.length
        have hmore : (midway heap (data ++ chunk.take (nextSize data.length - data.length))
            (nextSize data.length)).bytes_received ≠
              (midway heap data (nextSize data.length)).bytes_received := by
          have hpos := List.length_pos_iff.mpr hempty
          simp only [midway, List.length_append]
          omega
        have hrest : Loop heap grants script
            (data ++ chunk.take (nextSize data.length - data.length)) (nextSize data.length) := by
          apply ih _ hnext
          rw [List.length_append]
          exact sized_nextSize (by omega)
        apply loop_of_chunk hsized hgrants hempty ?_ ?_ ?_ hrest
        · rw [recvCalls, hgrow]
          simp only [hrecv, hroom, if_neg hmore]
        · rw [receive, hgrow, Outcome.ok_bind, hrecv, Outcome.ok_bind, if_neg hmore]
        · rw [exchange, if_neg hempty, List.length_append]

end

/-! ## The first value of `bytes_received` -/

/-- The loop leaves after a call that delivers nothing. -/
def Completes (grants : Nat → Bool) (script : List (Option Bytes)) (n : Nat) : Prop :=
  (exchange n script).2 = true ∧ (needed n script : Int) ≤ INT_MAX ∧
    GrantedFrom grants 0 (needed n script)

/-- So much is delivered that the size of the buffer does not fit in an `int`. -/
def Overflows (grants : Nat → Bool) (script : List (Option Bytes)) (n : Nat) : Prop :=
  INT_MAX < needed n script ∧ GrantedFrom grants 0 INT_MAX

/-- There is no call because the first `realloc` fails; or the first value lies
in the first `BUFFER_SIZE` bytes, the size does not overflow, and only from 0 on
does the loop come to its normal end. -/
def Harmless (grants : Nat → Bool) (script : List (Option Bytes)) (bytes_received : Int) : Prop :=
  0 ≤ bytes_received ∧
    (grants BUFFER_SIZE = false ∨
      bytes_received < BUFFER_SIZE ∧ ¬ Overflows grants script bytes_received.toNat ∧
        (Completes grants script bytes_received.toNat → bytes_received = 0))

section

variable {heap : Nat → UInt8} {grants : Nat → Bool} {script : List (Option Bytes)}

/-- Nothing was received, but some bytes of the heap are counted. -/
theorem startReceiver_eq (heap : Nat → UInt8) {n : Nat} (hn : n ≤ BUFFER_SIZE) :
    startReceiver heap n = midway heap (heapBytes heap 0 n) 0 := by
  have hjoin := heapBytes_append heap 0 n (BUFFER_SIZE - n)
  rw [Nat.zero_add, Nat.add_sub_cancel' hn] at hjoin
  have hregrow : regrow heap [] BUFFER_SIZE = heapBytes heap 0 BUFFER_SIZE := by
    simp [regrow, heapBytes]
  simp only [startReceiver, midway, length_heapBytes, Nat.zero_max, hjoin, hregrow, Nat.cast_zero]

theorem sized_start {n : Nat} (hn : n < BUFFER_SIZE) : Sized n 0 := by
  unfold Sized nextSize BUFFER_SIZE at *
  omega

/-- After the growth there is a call. -/
theorem exists_call_of_grow {r r' : Receiver} (h : grow heap grants r = .ok r')
    (script : List (Option Bytes)) : ∃ call ∈ recvCalls heap grants script r, call.before = r' := by
  cases script with
  | nil => exact ⟨⟨r', some []⟩, by simp [recvCalls, h], rfl⟩
  | cons result script =>
    cases result with
    | none => exact ⟨⟨r', none⟩, by simp [recvCalls, h], rfl⟩
    | some chunk =>
      refine ⟨⟨r', some (chunk.take (toSize (r'.cur_size - r'.bytes_received)))⟩, ?_, rfl⟩
      simp only [recvCalls, h]
      split
      · split
        · exact List.mem_cons_self ..
        · exact List.mem_cons_self ..
      · exact List.mem_cons_self ..

/-- The first growth. -/
theorem grow_start (heap : Nat → UInt8) (grants : Nat → Bool) {n : Int} (hn : 0 ≤ n) :
    grow heap grants (startReceiver heap n) =
      if grants BUFFER_SIZE then .ok { startReceiver heap n with
        buffer := regrow heap (startReceiver heap n).buffer BUFFER_SIZE
        cur_size := BUFFER_SIZE }
      else .error (bytes "Could not allocate memory.") := by
  have hsize : toSize ((startReceiver heap n).cur_size + BUFFER_SIZE) = BUFFER_SIZE := by
    show toSize (0 + BUFFER_SIZE) = BUFFER_SIZE
    decide
  have hfits : ¬ INT_MAX < (startReceiver heap n).cur_size + BUFFER_SIZE := by
    show ¬ INT_MAX < 0 + (BUFFER_SIZE : Int)
    decide
  have hfull : ¬ (startReceiver heap n).bytes_received < (startReceiver heap n).cur_size :=
    Int.not_lt.mpr hn
  unfold grow
  rw [if_neg hfull, if_neg hfits, hsize]
  simp [startReceiver]

/-- Without memory nothing happens. -/
theorem receivesSoundly_of_refused {n : Int} (hn : 0 ≤ n) (hrefused : grants BUFFER_SIZE = false) :
    ReceivesSoundly heap grants script n := by
  have hgrow : grow heap grants (startReceiver heap n) =
      .error (bytes "Could not allocate memory.") := by
    rw [grow_start heap grants hn, if_neg (by simp [hrefused])]
  have hcalls := recvCalls_of_grow_ne_ok script (fun r' => by rw [hgrow]; simp)
  obtain ⟨rest, hreceive⟩ := receive_eq_grow_bind heap grants script (startReceiver heap n)
  rw [hgrow, Outcome.error_bind] at hreceive
  exact ⟨by simp [hcalls], by simp [hcalls], by simp [hreceive], by simp [hreceive]⟩

/-- A first value outside the first `BUFFER_SIZE` bytes takes `recv` out of the
buffer. -/
theorem not_receivesSoundly_of_outside {n : Int}
    (hn : n < 0 ∨ (BUFFER_SIZE ≤ n ∧ grants BUFFER_SIZE = true)) :
    ¬ ReceivesSoundly heap grants script n := by
  intro hsound
  rcases hn with hneg | ⟨hlarge, hgrants⟩
  · have hgrow : grow heap grants (startReceiver heap n) = .ok (startReceiver heap n) := by
      have hroom : (startReceiver heap n).bytes_received < (startReceiver heap n).cur_size := hneg
      rw [grow, if_pos hroom]
    obtain ⟨call, hcall, hbefore⟩ := exists_call_of_grow hgrow script
    have hinside := (hsound.inside call hcall).nonneg
    rw [hbefore] at hinside
    exact absurd hneg (Int.not_lt.mpr hinside)
  · have hpos : 0 ≤ n := by omega
    have hgrow := grow_start heap grants hpos
    rw [if_pos hgrants] at hgrow
    obtain ⟨call, hcall, hbefore⟩ := exists_call_of_grow hgrow script
    have hinside := (hsound.inside call hcall).lt
    rw [hbefore] at hinside
    exact absurd hlarge (Int.not_le.mpr hinside)

/-- From a first value inside them the bounds are kept, and only the count can
be wrong. -/
theorem receivesSoundly_of_inside {n : Nat} (hn : n < BUFFER_SIZE) :
    ReceivesSoundly heap grants script n ↔
      ¬ Overflows grants script n ∧ (Completes grants script n → n = 0) := by
  have hloop : Loop heap grants script (heapBytes heap 0 n) 0 :=
    loop_of_sized script (by rw [length_heapBytes]; exact sized_start hn) (by decide)
  have hstart := startReceiver_eq heap (le_of_lt hn)
  have hoverflows := hloop.overflows
  have hcompletes := hloop.completes
  rw [length_heapBytes, ← hstart] at hoverflows hcompletes
  have hexit := hloop.exit
  rw [← hstart] at hexit
  constructor
  · intro hsound
    refine ⟨fun hover => hsound.defined (hoverflows.mpr hover), fun hcomplete => ?_⟩
    obtain ⟨r, hr⟩ := hcompletes.mpr hcomplete
    obtain ⟨size', rfl⟩ := hexit r hr
    have hcount := (hsound.exit _ hr).1
    simp only [midway, List.length_append, length_heapBytes] at hcount
    omega
  · rintro ⟨hover, hzero⟩
    refine ⟨?_, ?_, ?_, fun hundef => hover (hoverflows.mp hundef)⟩
    · rw [hstart]
      exact hloop.inside
    · rw [hstart]
      exact hloop.first
    · intro r hr data
      obtain ⟨size', rfl⟩ := hexit r hr
      obtain rfl := hzero (hcompletes.mp ⟨_, hr⟩)
      simp only [heapBytes, List.range_zero, List.map_nil, List.nil_append]
      exact ⟨rfl, by simp [midway, data]⟩

end

/-- The receive loop does what it is meant to do exactly when the first value of
`bytes_received` is harmless. -/
theorem receivesSoundly_iff (heap : Nat → UInt8) (grants : Nat → Bool)
    (script : List (Option Bytes)) (bytes_received : Int) :
    ReceivesSoundly heap grants script bytes_received ↔ Harmless grants script bytes_received := by
  unfold Harmless
  by_cases hneg : bytes_received < 0
  · exact iff_of_false (not_receivesSoundly_of_outside (Or.inl hneg)) fun h =>
      absurd hneg (Int.not_lt.mpr h.1)
  · have hpos : 0 ≤ bytes_received := Int.not_lt.mp hneg
    cases hgrants : grants BUFFER_SIZE with
    | false => exact iff_of_true (receivesSoundly_of_refused hpos hgrants) ⟨hpos, Or.inl rfl⟩
    | true =>
      by_cases hlarge : (BUFFER_SIZE : Int) ≤ bytes_received
      · refine iff_of_false (not_receivesSoundly_of_outside (Or.inr ⟨hlarge, hgrants⟩)) ?_
        rintro ⟨-, h | ⟨h, -⟩⟩
        · simp at h
        · omega
      · obtain ⟨n, rfl⟩ := Int.eq_ofNat_of_zero_le hpos
        have hn : n < BUFFER_SIZE := by omega
        rw [receivesSoundly_of_inside hn, Int.toNat_natCast]
        constructor
        · intro h
          exact ⟨hpos, Or.inr ⟨Int.not_le.mp hlarge, h.1, fun hc => by exact_mod_cast h.2 hc⟩⟩
        · rintro ⟨-, h | ⟨-, hover, hzero⟩⟩
          · simp at h
          · exact ⟨hover, fun hc => by exact_mod_cast hzero hc⟩

/-- Before the first byte of the buffer, behind its first part, and with a count
that is too large at the end. -/
theorem uninitialized_count_goes_wrong :
    ¬ ReceivesSoundly (fun _ => 0) (fun _ => true) [some (bytes "200")] (-1) ∧
      ¬ ReceivesSoundly (fun _ => 0) (fun _ => true) [some (bytes "200")] 1024 ∧
      ¬ ReceivesSoundly (fun _ => 0) (fun _ => true) [some (bytes "200")] 5 := by
  refine ⟨not_receivesSoundly_of_outside (Or.inl (by decide)),
    not_receivesSoundly_of_outside (Or.inr ⟨by decide, rfl⟩), ?_⟩
  rw [show (5 : Int) = (5 : Nat) from rfl, receivesSoundly_of_inside (by decide)]
  rintro ⟨-, hzero⟩
  have hfive := hzero ⟨by decide, by decide, fun _ _ _ _ => rfl⟩
  simp at hfive

end Vklib.Requests
