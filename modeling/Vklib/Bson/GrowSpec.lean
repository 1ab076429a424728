import Vklib.Bson.Grow
import Vklib.Bson.WellFormed

/-!
# The buffer holds what was written

`Holds buf b d` connects the two levels: the `bson_t` `b` in its buffer is the
document under construction `d`.  The limit of `d` is then the limit of the buffer,
and what is `outer` of `d` lies around `b`.

Every append function of one level does the same as that of the other
(`Simulates`), and so do begin and end: `begin_spec` leaves the parent suspended, with
its fields and the head of the new one in front of the child, and `end_spec` takes it
up again.  `Keeps` says what an operation on a child leaves to its parents.
-/

namespace Vklib.Bson

open Buffer

namespace BsonImpl

/-- What lies in front of offset `n` stays. -/
def Keeps (n : Nat) (m m' : Bytes) : Prop := ∀ j s, j + s.length ≤ n → Lies m j s → Lies m' j s

theorem Keeps.refl (n : Nat) (m : Bytes) : Keeps n m m := fun _ _ _ h => h

theorem Keeps.trans {n : Nat} {m₁ m₂ m₃ : Bytes} (h : Keeps n m₁ m₂) (h' : Keeps n m₂ m₃) :
    Keeps n m₁ m₃ :=
  fun j s hle hlies => h' j s hle (h j s hle hlies)

theorem Keeps.mono {n n' : Nat} {m m' : Bytes} (h : Keeps n m m') (hle : n' ≤ n) :
    Keeps n' m m' :=
  fun j s hjs => h j s (hjs.trans hle)

theorem keeps_put {n i : Nat} (m s : Bytes) (hle : n ≤ i) : Keeps n m (put m i s) :=
  fun _ _ hjs hlies => hlies.put s (hjs.trans hle)

theorem keeps_zero (m m' : Bytes) : Keeps 0 m m' := by
  intro j s hle _
  obtain rfl := List.length_eq_zero_iff.mp (show s.length = 0 by omega)
  exact lies_nil _ _

theorem bson_get_data_nil : bson_get_data [] = [5, 0, 0, 0, 0] := rfl

theorem fieldsData_single (k : Bytes) (v : Value) :
    fieldsData [(k, v)] = elementType v :: (k ++ 0 :: v.data) := by
  rw [fieldsData, fieldsData, List.append_nil]

/-- The sizes of the fields are the lengths of their bytes. -/
def Sized (fs : Doc) : Prop := (fieldsData fs).length = fieldsSize fs

theorem Sized.append {fs gs : Doc} (hfs : Sized fs) (hgs : Sized gs) : Sized (fs ++ gs) := by
  rw [Sized, fieldsData_append, List.length_append, hfs, hgs, fieldsSize_append]

theorem sized_single {k : Bytes} {v : Value} (hv : v.data.length = v.size) : Sized [(k, v)] := by
  rw [Sized, fieldsData_single, fieldsSize_cons, fieldSize, List.length_cons, List.length_append,
    List.length_cons, hv, fieldsSize_nil]
  omega

theorem Sized.length_data {fs : Doc} (h : Sized fs) : (bson_get_data fs).length = docSize fs := by
  rw [bson_get_data, length_wrapData, h, docSize]

/-- A `bson_t` in its buffer is the document under construction. -/
structure Holds (buf : Bytes) (b : BsonImpl) (d : BsonT) : Prop where
  in_child : b.in_child = false
  sized : Sized d.fields
  len : b.len = docSize d.fields
  outer : d.outer = b.offset + b.depth
  limit : d.limit = BSON_GROW_LIMIT
  lies : Lies buf b.offset (bson_get_data d.fields)
  room : b.offset + b.len + b.depth ≤ buf.length
  le : buf.length ≤ BSON_GROW_LIMIT
  root : b.child = false → b.depth = 0
  inline : b.inline = true →
    b.child = false ∧ b.offset = 0 ∧ b.depth = 0 ∧ buf.length = BSON_INLINE_DATA_SIZE

theorem holds_init (fresh : Nat → UInt8) :
    Holds (bson_init fresh).1 (bson_init fresh).2 BsonT.bson_init where
  in_child := rfl
  sized := rfl
  len := rfl
  outer := rfl
  limit := rfl
  lies := List.prefix_append _ _
  room := by simp [bson_init, BSON_INLINE_DATA_SIZE]
  le := by simp [bson_init, BSON_INLINE_DATA_SIZE, BSON_GROW_LIMIT]
  root := fun _ => rfl
  inline := fun _ => ⟨rfl, rfl, rfl, by simp [bson_init, BSON_INLINE_DATA_SIZE]⟩

section

variable {buf : Bytes} {b : BsonImpl} {d : BsonT}

@[simp] theorem _bson_data_len (b : BsonImpl) (n : Nat) :
    _bson_data { b with len := n } = b._bson_data := rfl

theorem Holds.data_eq (h : Holds buf b d) : b._bson_data = b.offset := by
  rw [_bson_data]
  split_ifs with hinline
  · exact (h.inline hinline).2.1.symm
  · rfl

theorem Holds.closed_eq (h : Holds buf b d) : d.closed = b.offset + b.len + b.depth := by
  rw [BsonT.closed, h.outer, h.len]
  omega

/-- The place of a document in its buffer. -/
structure SamePlace (b b' : BsonImpl) : Prop where
  offset : b'.offset = b.offset
  depth : b'.depth = b.depth
  child : b'.child = b.child
  inline : b.inline = false → b'.inline = false

theorem SamePlace.refl (b : BsonImpl) : SamePlace b b := ⟨rfl, rfl, rfl, id⟩

theorem SamePlace.trans {b₁ b₂ b₃ : BsonImpl} (h : SamePlace b₁ b₂) (h' : SamePlace b₂ b₃) :
    SamePlace b₁ b₃ :=
  ⟨h'.offset.trans h.offset, h'.depth.trans h.depth, h'.child.trans h.child,
    fun hinline => h'.inline (h.inline hinline)⟩

theorem length_resized (fresh : Nat → UInt8) {old : Bytes} {req : Nat} (h : old.length ≤ req) :
    (resized fresh old req).length = req := by
  simp only [resized, List.length_append, List.length_map, List.length_range]
  omega

/-! ## Growing -/

/-- A buffer grows when the bytes of all documents in it, closed, stay below the
limit, and not otherwise. -/
theorem grow_spec (h : Holds buf b d) (fresh : Nat → UInt8) (size : Nat) (hsize : size < 2 ^ 32) :
    if d.closed + size ≤ d.limit then
      ∃ buf' b', _bson_grow fresh buf b size = some (buf', b') ∧ Holds buf' b' d ∧
        SamePlace b b' ∧ Keeps b.offset buf buf' ∧ d.closed + size ≤ buf'.length
    else _bson_grow fresh buf b size = none := by
  have hclosed := h.closed_eq
  have hlimit := h.limit
  have hroom := h.room
  have hle := h.le
  have hlen : 5 ≤ b.len := by
    rw [h.len, docSize]
    omega
  rw [hclosed, hlimit]
  unfold BSON_GROW_LIMIT at hle hlimit ⊢
  have hnext (req : Nat) (hpos : 0 < req) (hreq : req ≤ 2 ^ 63) :
      bson_next_power_of_two req ≤ BSON_MAX_SIZE ↔ req ≤ 2 ^ 30 :=
    PowerOfTwo.roundUp_le_iff (n := 30) hpos (by omega)
  rw [_bson_grow]
  by_cases hinline : b.inline = true
  · obtain ⟨hchild, hoffset, hdepth, hbuf⟩ := h.inline hinline
    rw [if_pos hinline, _bson_impl_inline_grow, hoffset, hdepth]
    unfold BSON_INLINE_DATA_SIZE at hbuf ⊢
    by_cases hfits : b.len + size ≤ 120
    · rw [if_pos (by omega), if_pos hfits]
      exact ⟨buf, b, rfl, h, SamePlace.refl _, hoffset ▸ Keeps.refl _ _, by omega⟩
    rw [if_neg hfits]
    simp only [hnext (b.len + size) (by omega) (by omega)]
    by_cases hgrows : b.len + size ≤ 2 ^ 30
    · have hge := PowerOfTwo.le_roundUp (v := b.len + size) (by omega) (by omega)
      have hpow := PowerOfTwo.roundUp_le (v := b.len + size) (n := 30) (by omega) (by omega) hgrows
      have htake : (buf.take b.len).length = b.len := by
        rw [List.length_take]
        omega
      have hlength : (resized fresh (buf.take b.len) (bson_next_power_of_two (b.len + size))).length =
          bson_next_power_of_two (b.len + size) :=
        length_resized fresh (by rw [htake]; exact (Nat.le_add_right _ _).trans hge)
      rw [if_pos (by omega), if_pos hgrows]
      refine ⟨_, _, rfl, ⟨h.in_child, h.sized, h.len, ?_, h.limit, ?_, ?_, ?_, fun _ => rfl,
        fun hfalse => by cases hfalse⟩, ⟨hoffset.symm, hdepth.symm, rfl, fun _ => rfl⟩,
        keeps_zero _ _, ?_⟩
      · rw [h.outer, hoffset, hdepth]
      · have hlies := h.lies
        rw [hoffset] at hlies
        refine (hlies.take ?_).append _
        rw [h.sized.length_data, ← h.len, Nat.zero_add]
      · rw [hlength]
        unfold bson_next_power_of_two
        simp only
        omega
      · rw [hlength]
        exact hpow
      · rw [hlength]
        unfold bson_next_power_of_two
        omega
    · rw [if_neg (by omega), if_neg hgrows]
  · rw [if_neg hinline, _bson_impl_alloc_grow]
    by_cases hfits : b.offset + b.len + size + b.depth ≤ buf.length
    · rw [if_pos (by omega), if_pos hfits]
      exact ⟨buf, b, rfl, h, SamePlace.refl _, Keeps.refl _ _, by omega⟩
    rw [if_neg hfits]
    simp only [hnext (b.offset + b.len + size + b.depth) (by omega) (by omega)]
    by_cases hgrows : b.offset + b.len + size + b.depth ≤ 2 ^ 30
    · have hge := PowerOfTwo.le_roundUp (v := b.offset + b.len + size + b.depth) (by omega) (by omega)
      have hpow := PowerOfTwo.roundUp_le (v := b.offset + b.len + size + b.depth) (n := 30)
        (by omega) (by omega) hgrows
      have hlength : (resized fresh buf
          (bson_next_power_of_two (b.offset + b.len + size + b.depth))).length =
          bson_next_power_of_two (b.offset + b.len + size + b.depth) :=
        length_resized fresh (by unfold bson_next_power_of_two; omega)
      rw [if_pos (by omega), if_pos hgrows]
      refine ⟨_, _, rfl, ⟨h.in_child, h.sized, h.len, h.outer, h.limit, h.lies.append _, ?_,
        ?_, h.root, fun hfalse => absurd hfalse hinline⟩, SamePlace.refl _,
        fun _ _ _ hlies => hlies.append _, ?_⟩
      · rw [hlength]
        unfold bson_next_power_of_two
        omega
      · rw [hlength]
        exact hpow
      · rw [hlength]
        unfold bson_next_power_of_two
        omega
    · rw [if_neg (by omega), if_neg hgrows]

/-! ## Appending -/

theorem appendPieces_spec {ε : Type} {place : Nat} (pieces : List Bytes)
    (h : place + pieces.flatten.length ≤ buf.length) :
    ∃ buf', (appendPieces buf place pieces : Outcome ε (Bytes × Nat)) =
        .ok (buf', place + pieces.flatten.length) ∧
      buf'.length = buf.length ∧ Keeps place buf buf' ∧ Lies buf' place pieces.flatten := by
  induction pieces generalizing buf place with
  | nil => exact ⟨buf, rfl, rfl, Keeps.refl _ _, lies_nil _ _⟩
  | cons piece rest ih =>
    rw [List.flatten_cons, List.length_append] at h
    have hin : place + piece.length ≤ buf.length := by omega
    have hlen := length_put hin
    have hrest : place + piece.length + rest.flatten.length ≤ (Buffer.put buf place piece).length := by
      omega
    obtain ⟨buf', hrun, hlen', hkeeps, hlies⟩ := ih hrest
    refine ⟨buf', ?_, hlen'.trans hlen, ?_, ?_⟩
    · rw [appendPieces, store_eq hin, Outcome.ok_bind, hrun, List.flatten_cons, List.length_append,
        Nat.add_assoc]
    · exact (keeps_put buf piece (le_refl _)).trans (hkeeps.mono (Nat.le_add_right _ _))
    · rw [List.flatten_cons, lies_append]
      exact ⟨hkeeps _ _ (le_refl _) (lies_put piece (by omega)), hlies⟩

/-- Pieces that fit are appended as further fields. -/
theorem append_spec {ε : Type} (h : Holds buf b d) (fresh : Nat → UInt8) {fs : Doc}
    (hfs : Sized fs) (pieces : List Bytes) (hpieces : pieces.flatten = fieldsData fs)
    (hsize : fieldsSize fs < 2 ^ 32) :
    if d.closed + fieldsSize fs ≤ d.limit then
      ∃ buf' b', (_bson_append fresh buf b (fieldsSize fs) pieces : Outcome ε Appended) =
          .ok (true, buf', b') ∧
        Holds buf' b' (d.extend fs) ∧ SamePlace b b' ∧ Keeps b.offset buf buf'
    else (_bson_append fresh buf b (fieldsSize fs) pieces : Outcome ε Appended) =
      .ok (false, buf, b) := by
  have hclosed := h.closed_eq
  have hgrow := grow_spec h fresh _ hsize
  rw [_bson_append]
  by_cases hfits : d.closed + fieldsSize fs ≤ d.limit
  · rw [if_pos hfits] at hgrow ⊢
    obtain ⟨buf₁, b₁, hrun, hholds, hplace, hkeeps, hroom⟩ := hgrow
    have hlimit := h.limit
    have hlen := h.len
    have hlen₁ : b₁.len = b.len := by rw [hholds.len, hlen]
    have hle := hholds.le
    have hsum : pieces.flatten.length = fieldsSize fs := by
      rw [hpieces, hfs]
    have hold : (fieldsData d.fields).length = fieldsSize d.fields := h.sized
    unfold BSON_GROW_LIMIT at hlimit hle
    unfold docSize at hlen
    -- the pieces, the length and the closing NUL are written in turn
    have hin : b.offset + b.len - 1 + pieces.flatten.length ≤ buf₁.length := by omega
    obtain ⟨buf₂, hpiecesrun, hlen₂, hkeeps₂, hlies₂⟩ := appendPieces_spec (ε := ε) pieces hin
    rw [hsum] at hpiecesrun
    have hmod : (b.len + fieldsSize fs) % 2 ^ 32 = b.len + fieldsSize fs :=
      Nat.mod_eq_of_lt (by omega)
    have hin₃ : b.offset + (le32 (b.len + fieldsSize fs).toUInt32).length ≤ buf₂.length := by
      rw [length_le32]
      omega
    have hlen₃ := length_put hin₃
    have hin₄ : b.offset + b.len - 1 + fieldsSize fs + ([0] : Bytes).length ≤
        (Buffer.put buf₂ b.offset (le32 (b.len + fieldsSize fs).toUInt32)).length := by
      rw [List.length_singleton]
      omega
    have hlen₄ := length_put hin₄
    refine ⟨Buffer.put (Buffer.put buf₂ b.offset (le32 (b.len + fieldsSize fs).toUInt32))
      (b.offset + b.len - 1 + fieldsSize fs) [0], { b₁ with len := b.len + fieldsSize fs },
      ?_, ?_, ?_, ?_⟩
    · have hdata : b₁._bson_data = b.offset := hholds.data_eq.trans hplace.offset
      rw [if_neg (by unfold BSON_MAX_SIZE; omega), _bson_append_va, h.in_child, hrun]
      simp only [Bool.false_eq_true, if_false, hdata, hlen₁, hpiecesrun, Outcome.ok_bind, hsum,
        hmod, _bson_encode_length, _bson_data_len]
      rw [store_eq hin₃, Outcome.ok_bind, store_eq hin₄, Outcome.ok_bind]
    · refine ⟨hholds.in_child, h.sized.append hfs, ?_, ?_, h.limit, ?_, ?_, ?_, hholds.root, ?_⟩
      · simp only [BsonT.extend_fields, docSize, fieldsSize_append]
        omega
      · simp only [BsonT.extend, h.outer, hplace.offset, hplace.depth]
      · have hfields := hholds.lies
        rw [bson_get_data, wrapData, List.append_assoc, hplace.offset] at hfields
        have hfields := hfields.right.left
        simp only [BsonT.extend_fields, hplace.offset]
        rw [bson_get_data, wrapData, fieldsData_append, List.append_assoc, List.append_assoc,
          lies_append, lies_append, lies_append, length_le32, hold, hfs]
        have hsize : docSize (d.fields ++ fs) = b.len + fieldsSize fs := by
          rw [docSize, fieldsSize_append]
          omega
        have hplaceof : b.offset + 4 + fieldsSize d.fields = b.offset + b.len - 1 := by omega
        rw [hsize, hplaceof, ← hpieces]
        refine ⟨?_, ?_, ?_, ?_⟩
        · exact (lies_put _ (by omega)).put _ (by rw [length_le32]; omega)
        · have hkept := hkeeps₂ _ _ (by rw [hold, length_le32]; omega) hfields
          rw [length_le32] at hkept
          exact (hkept.put_behind hin₃ (by rw [length_le32])).put _ (by rw [hold]; omega)
        · exact (hlies₂.put_behind hin₃ (by rw [length_le32]; omega)).put _ (by rw [hsum])
        · exact lies_put _ (by omega)
      · simp only [hlen₄, hlen₃, hlen₂, hplace.offset, hplace.depth]
        omega
      · rw [hlen₄, hlen₃, hlen₂]
        exact hholds.le
      · intro hinline
        obtain ⟨hchild, hoffset, hdepth, hbuf⟩ := hholds.inline hinline
        exact ⟨hchild, hoffset, hdepth, by rw [hlen₄, hlen₃, hlen₂]; exact hbuf⟩
    · exact ⟨hplace.offset, hplace.depth, hplace.child, hplace.inline⟩
    · exact ((hkeeps.trans (hkeeps₂.mono (by omega))).trans (keeps_put _ _ (le_refl _))).trans
        (keeps_put _ _ (by omega))
  · rw [if_neg hfits] at hgrow ⊢
    by_cases hlarge : fieldsSize fs > BSON_MAX_SIZE - b.len
    · rw [if_pos hlarge]
    · rw [if_neg hlarge, _bson_append_va, h.in_child, hgrow]
      rfl

/-- An append function of the buffer does what its counterpart does to the document
under construction. -/
def Simulates {ε : Type} (buf : Bytes) (b : BsonImpl) (run : Outcome ε Appended)
    (result : Bool × BsonT) : Prop :=
  ∃ buf' b', run = .ok (result.1, buf', b') ∧ Holds buf' b' result.2 ∧ SamePlace b b' ∧
    Keeps b.offset buf buf'

theorem Holds.simulates_self {ε : Type} (h : Holds buf b d) (result : Bool) :
    Simulates (ε := ε) buf b (.ok (result, buf, b)) (result, d) :=
  ⟨buf, b, rfl, h, SamePlace.refl _, Keeps.refl _ _⟩

theorem elementType_ne_zero (v : Value) : elementType v ≠ 0 := by
  cases v <;> simp [elementType]

/-- A field that is smaller than 4 GiB, so that its size is counted without wrapping, and
whose lengths are added up in `int` without overflow. -/
def Counted (key : Bytes) (v : Value) : Prop :=
  ∀ k, HANDLE_KEY_LENGTH key = some k → fieldSize k v < 2 ^ 32 ∧ ∀ n ∈ intSums k v, IsInt n

/-- Fields below 2 GiB are counted. -/
theorem counted_of_nulFree {key : Bytes} {v : Value} (hkey : NulFree key)
    (hlen : key.length < 2 ^ 31) (hsize : fieldSize key v < 2 ^ 31 - 4) : Counted key v := by
  intro k hk
  rw [HANDLE_KEY_LENGTH_of_nulFree hkey hlen] at hk
  obtain rfl := Option.some.inj hk
  exact ⟨by omega, fun n hn => isInt_of_mem_intSums hsize hn⟩

/-- A counted field is appended or refused. -/
theorem Counted.append_eq {key : Bytes} {v : Value} (h : Counted key v) (d : BsonT) :
    bson_append d key v = some (match HANDLE_KEY_LENGTH key with
      | none => (false, d)
      | some k => if d.closed + fieldSize k v ≤ d.limit then (true, d.push k v) else (false, d)) := by
  rw [bson_append]
  cases hk : HANDLE_KEY_LENGTH key with
  | none => rfl
  | some k =>
    obtain ⟨hcount, hints⟩ := h k hk
    simp only
    rw [if_neg (not_not_intro hints), Nat.mod_eq_of_lt hcount, if_pos hcount]
    by_cases hfits : d.closed + fieldSize k v ≤ d.limit
    · rw [if_neg (Nat.not_lt.mpr hfits), if_pos hfits]
    · rw [if_pos (Nat.lt_of_not_le hfits), if_neg hfits]

theorem appendField_spec {ε : Type} (h : Holds buf b d) (fresh : Nat → UInt8) {key : Bytes}
    {v : Value} {type : UInt8} {sums : Bytes → List Int} {size : Nat} {pieces : List Bytes}
    (hv : v.data.length = v.size) (hcounted : Counted key v) (htype : type = elementType v)
    (hfield : ∀ k, HANDLE_KEY_LENGTH key = some k →
      (∀ n ∈ sums k, IsInt n) ∧ size = v.size ∧ pieces.flatten = v.data) :
    ∃ result, bson_append d key v = some result ∧
      Simulates (ε := ε) buf b (appendField fresh buf b key type sums size pieces) result := by
  subst htype
  refine ⟨_, hcounted.append_eq d, ?_⟩
  rw [appendField]
  cases hk : HANDLE_KEY_LENGTH key with
  | none => exact h.simulates_self _
  | some k =>
    obtain ⟨hsums, rfl, hpieces⟩ := hfield k hk
    dsimp only
    rw [if_neg (not_not_intro hsums)]
    have hcount : fieldSize k v < 2 ^ 32 := (hcounted k hk).1
    have hflatten : ([elementType v] :: k :: [0] :: pieces).flatten = fieldsData [(k, v)] := by
      rw [fieldsData_single, ← hpieces]
      simp
    have hone : fieldsSize [(k, v)] = fieldSize k v := by simp
    have hspec := append_spec (ε := ε) h fresh (sized_single hv) _ hflatten (by omega)
    rw [hone] at hspec
    simp only [Nat.mod_eq_of_lt (show 1 + k.length + 1 + v.size < 2 ^ 32 from hcount)]
    change if _ then _ else (_bson_append fresh buf b (1 + k.length + 1 + v.size) _ = _) at hspec
    by_cases hfits : d.closed + fieldSize k v ≤ d.limit
    · rw [if_pos hfits] at hspec ⊢
      obtain ⟨buf', b', hrun, hholds, hplace, hkeeps⟩ := hspec
      exact ⟨buf', b', hrun, hholds, hplace, hkeeps⟩
    · rw [if_neg hfits] at hspec ⊢
      rw [hspec]
      exact h.simulates_self _

/-- `bson_concat` appends the fields of the other document, all of them or none. -/
theorem bson_concat_spec {ε : Type} (h : Holds buf b d) (fresh : Nat → UInt8) {src : Doc}
    (hsrc : Sized src) (hsize : docSize src < 2 ^ 32) :
    Simulates (ε := ε) buf b (bson_concat fresh buf b (bson_get_data src))
      (Bson.bson_concat d src) := by
  have hlen := hsrc.length_data
  unfold docSize at hlen hsize
  rw [bson_concat, Bson.bson_concat]
  cases src with
  | nil =>
    have hfirst : (load (bson_get_data []) 4 : Outcome ε UInt8) = .ok 0 := rfl
    rw [hfirst, Outcome.ok_bind, if_pos (Or.inr rfl), if_pos (by rfl)]
    exact h.simulates_self _
  | cons f rest =>
    obtain ⟨k, v⟩ := f
    have hlies := lies_zero.mpr (List.prefix_refl (bson_get_data ((k, v) :: rest)))
    rw [bson_get_data, wrapData, List.append_assoc] at hlies
    have hfields : Lies (bson_get_data ((k, v) :: rest)) 4 (fieldsData ((k, v) :: rest)) :=
      hlies.right.left
    have hhead := hfields
    rw [fieldsData] at hhead
    have hpos : 0 < fieldsSize ((k, v) :: rest) := by
      rw [fieldsSize_cons, fieldSize]
      omega
    have hcopy : (copy (bson_get_data ((k, v) :: rest)) 4 (fieldsSize ((k, v) :: rest)) :
        Outcome ε Bytes) = .ok (fieldsData ((k, v) :: rest)) :=
      hfields.copy hsrc hpos
    have hspec := append_spec (ε := ε) h fresh hsrc [fieldsData ((k, v) :: rest)]
      (by simp) (by omega)
    rw [hhead.load, Outcome.ok_bind, hlen, Nat.add_sub_cancel_left,
      if_neg (not_or.mpr ⟨by omega, elementType_ne_zero v⟩), hcopy, Outcome.ok_bind,
      if_neg (by simp)]
    by_cases hfits : d.closed + fieldsSize ((k, v) :: rest) ≤ d.limit
    · rw [if_pos hfits] at hspec ⊢
      obtain ⟨buf', b', hrun, hholds, hplace, hkeeps⟩ := hspec
      exact ⟨buf', b', hrun, hholds, hplace, hkeeps⟩
    · rw [if_neg hfits] at hspec ⊢
      rw [hspec]
      exact h.simulates_self _

/-! ## Child documents -/

/-- The type of a child document. -/
def childType (asArray : Bool) : UInt8 := if asArray then 0x04 else 0x03

/-- A parent while its child is open: its fields and the head of the new one lie in
front of the child. -/
structure Suspended (buf : Bytes) (b : BsonImpl) (d : BsonT) (asArray : Bool) (k : Bytes)
    (child : BsonImpl) : Prop where
  in_child : b.in_child = true
  inline : b.inline = false
  sized : Sized d.fields
  len : b.len = docSize d.fields + (1 + k.length + 1 + 5)
  outer : d.outer = b.offset + b.depth
  limit : d.limit = BSON_GROW_LIMIT
  lies : Lies buf (b.offset + 4) (fieldsData d.fields ++ (childType asArray :: (k ++ [0])))
  root : b.child = false → b.depth = 0
  isChild : child.child = true
  offset : child.offset = b.offset + b.len - 1 - 5
  depth : child.depth = b.depth + 1

/-- What happens to the child leaves its parent alone. -/
theorem Suspended.keeps {asArray : Bool} {k buf' : Bytes} {child child' : BsonImpl}
    (h : Suspended buf b d asArray k child) (hplace : SamePlace child child')
    (hkeeps : Keeps child.offset buf buf') : Suspended buf' b d asArray k child' := by
  refine { h with
    lies := hkeeps _ _ ?_ h.lies, isChild := ?_, offset := ?_, depth := ?_ }
  · have hold : (fieldsData d.fields).length = fieldsSize d.fields := h.sized
    have hlen := h.len
    have hoffset := h.offset
    unfold docSize at hlen
    simp only [List.length_append, List.length_cons, List.length_nil, hold]
    omega
  · rw [hplace.child, h.isChild]
  · rw [hplace.offset, h.offset]
  · rw [hplace.depth, h.depth]

theorem inline_of_grow {fresh : Nat → UInt8} {size : Nat} {buf' : Bytes} {b' : BsonImpl}
    (h : _bson_grow fresh buf b size = some (buf', b'))
    (hlarge : BSON_INLINE_DATA_SIZE < b.len + size) : b'.inline = false := by
  rw [_bson_grow] at h
  split_ifs at h with hinline
  · rw [_bson_impl_inline_grow, if_neg (by omega)] at h
    simp only [Option.ite_none_right_eq_some, Option.some.injEq, Prod.mk.injEq] at h
    obtain ⟨-, -, rfl⟩ := h
    rfl
  · rw [_bson_impl_alloc_grow] at h
    simp only at h
    split_ifs at h
    · obtain ⟨-, rfl⟩ := Prod.mk.inj (Option.some.inj h)
      exact Bool.eq_false_iff.mpr hinline
    · obtain ⟨-, rfl⟩ := Prod.mk.inj (Option.some.inj h)
      exact Bool.eq_false_iff.mpr hinline

/-- The empty child, as a value. -/
def emptyChild (asArray : Bool) : Value := if asArray then .array [] else .document []

/-- The key of a child is smaller than 4 GiB, and its length is added up in `int` without
overflow. -/
def CountedChild (key : Bytes) : Prop :=
  ∀ k, HANDLE_KEY_LENGTH key = some k → 1 + k.length + 1 + 5 < 2 ^ 32 ∧ IsInt (cInt k.length + 7)

theorem countedChild_of_nulFree {key : Bytes} (hkey : NulFree key)
    (hlen : key.length < 2 ^ 31 - 7) : CountedChild key := by
  intro k hk
  rw [HANDLE_KEY_LENGTH_of_nulFree hkey (by omega)] at hk
  obtain rfl := Option.some.inj hk
  rw [cInt_of_lt (by omega), IsInt]
  omega

/-- A child with a counted key is begun or refused. -/
theorem CountedChild.begin_eq {key : Bytes} (h : CountedChild key) (d : BsonT) :
    bson_append_begin d key = some (match HANDLE_KEY_LENGTH key with
      | none => none
      | some k =>
        if d.closed + (1 + k.length + 1 + 5) ≤ d.limit then some (k, d.child k) else none) := by
  rw [bson_append_begin]
  cases hk : HANDLE_KEY_LENGTH key with
  | none => rfl
  | some k =>
    obtain ⟨hcount, hint⟩ := h k hk
    simp only
    rw [if_neg (not_not_intro hint), Nat.mod_eq_of_lt hcount, if_pos hcount]
    by_cases hfits : d.closed + (1 + k.length + 1 + 5) ≤ d.limit
    · rw [if_neg (Nat.not_lt.mpr hfits), if_pos hfits]
    · rw [if_pos (Nat.lt_of_not_le hfits), if_neg hfits]

/-- Begin opens a child in the buffer when it opens one in the document under
construction, and then the parent waits for it. -/
theorem begin_spec {ε : Type} (h : Holds buf b d) (fresh : Nat → UInt8) {key : Bytes}
    (asArray : Bool) (hcounted : CountedChild key) :
    ∃ opened, bson_append_begin d key = some opened ∧ match opened with
    | none =>
      ∃ buf' b', (_bson_append_bson_begin fresh buf b key (childType asArray) : Outcome ε _) =
          .ok (buf', b', none) ∧
        Holds buf' b' d ∧ SamePlace b b' ∧ Keeps b.offset buf buf'
    | some (k, dc) =>
      ∃ buf' b' child,
        (_bson_append_bson_begin fresh buf b key (childType asArray) : Outcome ε _) =
          .ok (buf', b', some child) ∧
        Holds buf' child dc ∧ Suspended buf' b' d asArray k child ∧ SamePlace b b' ∧
        Keeps b.offset buf buf' := by
  have hsize : (emptyChild asArray).size = 5 := by cases asArray <;> rfl
  have htype : elementType (emptyChild asArray) = childType asArray := by cases asArray <;> rfl
  have hdata : (emptyChild asArray).data = [5, 0, 0, 0, 0] := by cases asArray <;> rfl
  refine ⟨_, hcounted.begin_eq d, ?_⟩
  rw [_bson_append_bson_begin, h.in_child]
  cases hk : HANDLE_KEY_LENGTH key with
  | none => exact ⟨buf, b, rfl, h, SamePlace.refl _, Keeps.refl _ _⟩
  | some k =>
    obtain ⟨hcount, hint⟩ := hcounted k hk
    -- the buffer after the parent has left the inline one
    obtain ⟨buf₁, b₁, hgrow, hinline, h₁, hplace₁, hkeeps₁⟩ : ∃ buf₁ b₁,
        (if b.inline then _bson_grow fresh buf b (128 - b.len) else some (buf, b)) =
          some (buf₁, b₁) ∧ b₁.inline = false ∧ Holds buf₁ b₁ d ∧ SamePlace b b₁ ∧
          Keeps b.offset buf buf₁ := by
      by_cases hinline : b.inline = true
      · obtain ⟨-, hoffset, hdepth, hbuf⟩ := h.inline hinline
        have hroom := h.room
        have hclosed := h.closed_eq
        have hlimit := h.limit
        unfold BSON_INLINE_DATA_SIZE at hbuf
        unfold BSON_GROW_LIMIT at hlimit
        have hspec := grow_spec h fresh (128 - b.len) (by omega)
        rw [if_pos (by omega)] at hspec
        obtain ⟨buf₁, b₁, hrun, h₁, hplace, hkeeps, -⟩ := hspec
        refine ⟨buf₁, b₁, by rw [if_pos hinline, hrun], ?_, h₁, hplace, hkeeps⟩
        exact inline_of_grow hrun (by unfold BSON_INLINE_DATA_SIZE; omega)
      · exact ⟨buf, b, if_neg hinline, Bool.eq_false_iff.mpr hinline, h, SamePlace.refl _,
          Keeps.refl _ _⟩
    have hsmall : ¬ (b.inline = true ∧ b.len > BSON_INLINE_DATA_SIZE) := by
      rintro ⟨hinline, hlarge⟩
      have hbuf := (h.inline hinline).2.2.2
      have hroom := h.room
      omega
    have hsized : Sized [(k, emptyChild asArray)] := sized_single (by rw [hdata, hsize]; rfl)
    have hone : fieldsSize [(k, emptyChild asArray)] = 1 + k.length + 1 + 5 := by
      simp [fieldSize, hsize]
    have hspec := append_spec (ε := ε) h₁ fresh hsized
      [[childType asArray], k, [0], [5, 0, 0, 0, 0]]
      (by rw [fieldsData_single, htype, hdata]; simp) (by omega)
    rw [hone] at hspec
    simp only [Bool.false_eq_true, if_false, if_neg hsmall, hgrow,
      if_neg (not_not_intro hint), Nat.mod_eq_of_lt hcount]
    by_cases hfits : d.closed + (1 + k.length + 1 + 5) ≤ d.limit
    · rw [if_pos hfits] at hspec ⊢
      obtain ⟨buf₂, b₂, hrun, h₂, hplace₂, hkeeps₂⟩ := hspec
      have hold : (fieldsData d.fields).length = fieldsSize d.fields := h.sized
      have hlen : b₂.len = docSize d.fields + (1 + k.length + 1 + 5) := by
        rw [h₂.len, BsonT.extend_fields, docSize_append_single, fieldSize, hsize]
      have houter : d.outer = b₂.offset + b₂.depth := h₂.outer
      have hdepth : (if b₂.child = true then b₂.depth + 1 else 1) = b₂.depth + 1 := by
        split_ifs with hbchild
        · rfl
        · rw [h₂.root (Bool.eq_false_iff.mpr hbchild)]
      have hlies := h₂.lies
      rw [BsonT.extend_fields, bson_get_data, wrapData, fieldsData_append, fieldsData_single, htype,
        hdata, List.append_assoc] at hlies
      have hfields : Lies buf₂ (b₂.offset + 4)
          ((fieldsData d.fields ++ (childType asArray :: (k ++ [0]))) ++ ([5, 0, 0, 0, 0] ++ [0])) := by
        simpa using hlies.right
      have hroom := h₂.room
      have hplaceof : b₂.offset + 4 + (fieldsData d.fields ++ (childType asArray :: (k ++ [0]))).length =
          b₂.offset + b₂.len - 1 - 5 := by
        unfold docSize at hlen
        simp only [List.length_append, List.length_cons, List.length_nil, hold]
        omega
      rw [hrun]
      refine ⟨buf₂, _, _, rfl, ?_, ?_, ?_, hkeeps₁.trans (hplace₁.offset ▸ hkeeps₂)⟩
      · refine ⟨rfl, rfl, rfl, ?_, h.limit, ?_, ?_, h₂.le,
          fun hfalse => (by cases hfalse), fun hfalse => (by cases hfalse)⟩
        · simp only [BsonT.child, BsonT.closed, houter, hdepth]
          omega
        · have hchild := hfields.right
          rw [hplaceof] at hchild
          simpa only [BsonT.child_fields, bson_get_data_nil] using hchild.left
        · simp only [hdepth]
          unfold docSize at hlen
          omega
      · exact ⟨rfl, hplace₂.inline hinline, h.sized, hlen, houter, h.limit, hfields.left,
          h₂.root, rfl, rfl, hdepth⟩
      · have hplace := hplace₁.trans hplace₂
        exact ⟨hplace.offset, hplace.depth, hplace.child, hplace.inline⟩
    · rw [if_neg hfits] at hspec ⊢
      rw [hspec]
      exact ⟨buf₁, b₁, rfl, h₁, hplace₁, hkeeps₁⟩

/-- End makes the child the last field of its parent. -/
theorem end_spec {ε : Type} {asArray : Bool} {k : Bytes} {child : BsonImpl} {dc : BsonT}
    (h : Suspended buf b d asArray k child) (hchild : Holds buf child dc) :
    ∃ buf' b', (_bson_append_bson_end buf b child : Outcome ε _) = .ok (buf', b') ∧
      Holds buf' b' (bson_append_end d asArray k dc) ∧ SamePlace b b' ∧
      Keeps b.offset buf buf' := by
  have hold : (fieldsData d.fields).length = fieldsSize d.fields := h.sized
  have hlen := h.len
  have hchildlen := hchild.len
  have hoffset := h.offset
  have hdepth := h.depth
  have hroom := hchild.room
  have hle := hchild.le
  have hdata : b._bson_data = b.offset := by rw [_bson_data, h.inline, if_neg Bool.false_ne_true]
  unfold BSON_GROW_LIMIT at hle
  unfold docSize at hlen hchildlen
  have hmod : (b.len + child.len - 5) % 2 ^ 32 = b.len + child.len - 5 :=
    Nat.mod_eq_of_lt (by omega)
  have hin₁ : b.offset + (b.len + child.len - 5) - 1 + ([0] : Bytes).length ≤ buf.length := by
    rw [List.length_singleton]
    omega
  have hlen₁ := length_put hin₁
  have hin₂ : b.offset + (le32 (b.len + child.len - 5).toUInt32).length ≤
      (Buffer.put buf (b.offset + (b.len + child.len - 5) - 1) [0]).length := by
    rw [length_le32]
    omega
  have hlen₂ := length_put hin₂
  refine ⟨Buffer.put (Buffer.put buf (b.offset + (b.len + child.len - 5) - 1) [0]) b.offset
      (le32 (b.len + child.len - 5).toUInt32),
    { b with in_child := false, len := b.len + child.len - 5 }, ?_, ?_, ⟨rfl, rfl, rfl, id⟩, ?_⟩
  · have hdata' (n : Nat) :
        _bson_data { b with in_child := false, len := n } = b.offset := hdata
    rw [_bson_append_bson_end, h.in_child, hchild.in_child, if_neg (by simp)]
    simp only [hmod, _bson_encode_length, hdata']
    rw [store_eq hin₁, Outcome.ok_bind, store_eq hin₂, Outcome.ok_bind]
  · have hdoc := hchild.sized.length_data
    have hsized : Sized (bson_append_end d asArray k dc).fields := by
      refine h.sized.append (sized_single ?_)
      cases asArray <;> exact hdoc
    have hsize : docSize (bson_append_end d asArray k dc).fields = b.len + child.len - 5 := by
      rw [bson_append_end, BsonT.push_fields, docSize_append_single, fieldSize]
      cases asArray <;> simp only [Bool.false_eq_true, if_false, if_true, Value.size, docSize] <;>
        omega
    refine ⟨rfl, hsized, hsize.symm, h.outer, h.limit, ?_, ?_, ?_, h.root, ?_⟩
    · have hdata : bson_get_data (bson_append_end d asArray k dc).fields =
          le32 (b.len + child.len - 5).toUInt32 ++
            ((fieldsData d.fields ++ (childType asArray :: (k ++ [0]))) ++
              (bson_get_data dc.fields ++ [0])) := by
        rw [bson_get_data, hsize, bson_append_end, BsonT.push_fields, wrapData, fieldsData_append,
          fieldsData_single]
        cases asArray <;> simp [elementType, childType, Value.data, bson_get_data]
      have hhead : (fieldsData d.fields ++ (childType asArray :: (k ++ [0]))).length =
          child.offset - b.offset - 4 := by
        simp only [List.length_append, List.length_cons, List.length_nil, hold]
        omega
      unfold docSize at hdoc
      have hat : b.offset + 4 + (child.offset - b.offset - 4) = child.offset := by omega
      have hend : child.offset + (5 + fieldsSize dc.fields) =
          b.offset + (b.len + child.len - 5) - 1 := by omega
      rw [hdata]
      refine lies_append.mpr ⟨lies_put _ (by omega), ?_⟩
      rw [length_le32]
      refine lies_append.mpr ⟨?_, ?_⟩
      · exact (h.lies.put [0] (by omega)).put_behind hin₂ (by rw [length_le32])
      · rw [hhead, hat]
        refine lies_append.mpr ⟨?_, ?_⟩
        · exact (hchild.lies.put [0] (by omega)).put_behind hin₂ (by rw [length_le32]; omega)
        · rw [hdoc, hend]
          exact (lies_put [0] (by omega)).put_behind hin₂ (by rw [length_le32]; omega)
    · simp only [hlen₂, hlen₁]
      omega
    · rw [hlen₂, hlen₁]
      exact hchild.le
    · intro hinline
      rw [h.inline] at hinline
      cases hinline
  · exact (keeps_put _ _ (by omega)).trans (keeps_put _ _ (le_refl _))

end

end BsonImpl

end Vklib.Bson
