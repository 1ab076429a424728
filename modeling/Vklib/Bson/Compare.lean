import Vklib.Bson.Document
import Mathlib.Data.List.Perm.Basic

/-!
# Comparing documents

Two documents are the same when they have the same keys with the same values,
in any order.  Numbers are compared by value: an `int32`, an `int64` and a
double are the same when they denote the same number.  Arrays are compared
element by element, and a document is never the same as an array.

`Same` is an equivalence.  Two measures go with it: `documents` counts the
values of kind document and does not change between the same values, and
`leastSize` is the size of a value with each number in its shortest encoding,
which bounds the size of every value that is the same from below.
-/

namespace Vklib.Bson

/-- The number that a value denotes.  A double that is a 64-bit integer denotes
that integer, and every other double is a number of its own. -/
def numericValue : Value → Option (Int64 ⊕ F64)
  | .int32 i => some (.inl i.toInt64)
  | .int64 i => some (.inl i)
  | .double x =>
    match x.toInteger? with
    | some i => some (.inl i)
    | none => some (.inr x)
  | _ => none

mutual
/-- The second value is the same as the first. -/
def Same : Value → Value → Prop
  | .document fs, y => ∃ gs gs', y = .document gs ∧ gs'.Perm gs ∧ FieldsSame fs gs'
  | .array fs, y => ∃ gs, y = .array gs ∧ FieldsSame fs gs
  | x, y =>
    match numericValue x with
    | some n => numericValue y = some n
    | none => y = x

/-- The fields have the same keys and values, one by one. -/
def FieldsSame : List (Bytes × Value) → List (Bytes × Value) → Prop
  | [], [] => True
  | (key, v) :: fs, (k, w) :: gs => k = key ∧ Same v w ∧ FieldsSame fs gs
  | _, _ => False
end

/-- The second document is the same as the first. -/
def SameDoc (fs gs : Doc) : Prop := ∃ gs', gs'.Perm gs ∧ FieldsSame fs gs'

/-- One field is the same as another. -/
def SameField (f g : Bytes × Value) : Prop := g.1 = f.1 ∧ Same f.2 g.2

theorem fieldsSame_iff {fs gs : Doc} : FieldsSame fs gs ↔ List.Forall₂ SameField fs gs := by
  induction fs generalizing gs with
  | nil => cases gs <;> simp [FieldsSame]
  | cons f rest ih =>
    obtain ⟨key, v⟩ := f
    cases gs with
    | nil => simp [FieldsSame]
    | cons g gs => simp [FieldsSame, SameField, ih, and_assoc]

theorem same_document {fs : Doc} {y : Value} :
    Same (.document fs) y ↔ ∃ gs, y = .document gs ∧ SameDoc fs gs := by
  simp only [Same, SameDoc, ← exists_and_left]

theorem same_array {fs : Doc} {y : Value} :
    Same (.array fs) y ↔ ∃ gs, y = .array gs ∧ FieldsSame fs gs := by
  simp only [Same]

/-- A value that is neither a document nor an array. -/
def IsScalar : Value → Prop
  | .document _ | .array _ => False
  | _ => True

theorem same_scalar {x y : Value} (hx : IsScalar x) : Same x y ↔
    match numericValue x with
    | some n => numericValue y = some n
    | none => y = x := by
  cases x with
  | document fs => exact hx.elim
  | array fs => exact hx.elim
  | _ => simp only [Same]

/-! ## An equivalence -/

/-- Fields that are the same as permuted fields are permuted the same way. -/
theorem SameDoc.of_perm {fs fs' gs : Doc} (hperm : fs.Perm fs') (h : FieldsSame fs' gs) :
    SameDoc fs gs := by
  obtain ⟨gs', hsame, hgs⟩ := List.perm_comp_forall₂ hperm (fieldsSame_iff.mp h)
  exact ⟨gs', hgs, fieldsSame_iff.mpr hsame⟩

/-- What is the same as a scalar is a scalar. -/
theorem IsScalar.of_same {x y : Value} (hx : IsScalar x) (h : Same x y) : IsScalar y := by
  rw [same_scalar hx] at h
  split at h
  · cases y <;> simp_all [numericValue, IsScalar]
  · rw [h]
    exact hx

theorem same_scalar_symm {x y : Value} (hx : IsScalar x) (h : Same x y) : Same y x := by
  have hy := hx.of_same h
  rw [same_scalar hx] at h
  rw [same_scalar hy]
  split at h
  · rename_i n hn
    rw [h]
    exact hn
  · rename_i hn
    rw [h, hn]

theorem same_scalar_trans {x y z : Value} (hx : IsScalar x) (hxy : Same x y) (hyz : Same y z) :
    Same x z := by
  have hy := hx.of_same hxy
  rw [same_scalar hx] at hxy ⊢
  rw [same_scalar hy] at hyz
  split at hxy
  · rename_i n hn
    simpa [hxy] using hyz
  · rename_i hn
    rw [hxy, hn] at hyz
    exact hyz

mutual
theorem Same.refl (v : Value) : Same v v := by
  cases v with
  | document fs => exact same_document.mpr ⟨fs, rfl, fs, .refl _, FieldsSame.refl fs⟩
  | array fs => exact same_array.mpr ⟨fs, rfl, FieldsSame.refl fs⟩
  | _ =>
    rw [same_scalar (by simp [IsScalar])]
    split <;> simp_all

theorem FieldsSame.refl (fs : List (Bytes × Value)) : FieldsSame fs fs := by
  match fs with
  | [] => simp [FieldsSame]
  | (key, v) :: rest =>
    simp only [FieldsSame, true_and]
    exact ⟨Same.refl v, FieldsSame.refl rest⟩
end

theorem SameDoc.refl (fs : Doc) : SameDoc fs fs := ⟨fs, .refl _, FieldsSame.refl fs⟩

mutual
theorem Same.symm (v : Value) {w : Value} (h : Same v w) : Same w v := by
  cases v with
  | document fs =>
    obtain ⟨gs, rfl, gs', hperm, hsame⟩ := same_document.mp h
    exact same_document.mpr ⟨fs, rfl, .of_perm hperm.symm (FieldsSame.symm fs hsame)⟩
  | array fs =>
    obtain ⟨gs, rfl, hsame⟩ := same_array.mp h
    exact same_array.mpr ⟨fs, rfl, FieldsSame.symm fs hsame⟩
  | _ => exact same_scalar_symm (by simp [IsScalar]) h

theorem FieldsSame.symm (fs : List (Bytes × Value)) {gs : List (Bytes × Value)}
    (h : FieldsSame fs gs) : FieldsSame gs fs := by
  match fs, gs with
  | [], [] => simp [FieldsSame]
  | (key, v) :: fs, (k, w) :: gs =>
    simp only [FieldsSame] at h ⊢
    exact ⟨h.1.symm, Same.symm v h.2.1, FieldsSame.symm fs h.2.2⟩
end

mutual
theorem Same.trans (u : Value) {v w : Value} (huv : Same u v) (hvw : Same v w) : Same u w := by
  cases u with
  | document fs =>
    obtain ⟨gs, rfl, gs', hperm, hsame⟩ := same_document.mp huv
    obtain ⟨hs, rfl, hs', hperm', hsame'⟩ := same_document.mp hvw
    obtain ⟨hs'', hgs, hsame''⟩ := SameDoc.of_perm hperm hsame'
    exact same_document.mpr ⟨hs, rfl, hs'', hgs.trans hperm', FieldsSame.trans fs hsame hsame''⟩
  | array fs =>
    obtain ⟨gs, rfl, hsame⟩ := same_array.mp huv
    obtain ⟨hs, rfl, hsame'⟩ := same_array.mp hvw
    exact same_array.mpr ⟨hs, rfl, FieldsSame.trans fs hsame hsame'⟩
  | _ => exact same_scalar_trans (by simp [IsScalar]) huv hvw

theorem FieldsSame.trans (fs : List (Bytes × Value)) {gs hs : List (Bytes × Value)}
    (hfg : FieldsSame fs gs) (hgh : FieldsSame gs hs) : FieldsSame fs hs := by
  match fs, gs, hs with
  | [], [], [] => simp [FieldsSame]
  | (key, u) :: fs, (k, v) :: gs, (l, w) :: hs =>
    simp only [FieldsSame] at hfg hgh ⊢
    exact ⟨hgh.1.trans hfg.1, Same.trans u hfg.2.1 hgh.2.1, FieldsSame.trans fs hfg.2.2 hgh.2.2⟩
end

theorem SameDoc.symm {fs gs : Doc} (h : SameDoc fs gs) : SameDoc gs fs := by
  obtain ⟨gs', hperm, hsame⟩ := h
  exact .of_perm hperm.symm (FieldsSame.symm fs hsame)

theorem SameDoc.trans {fs gs hs : Doc} (hfg : SameDoc fs gs) (hgh : SameDoc gs hs) :
    SameDoc fs hs := by
  have h := Same.trans (.document fs) (same_document.mpr ⟨gs, rfl, hfg⟩)
    (same_document.mpr ⟨hs, rfl, hgh⟩)
  obtain ⟨hs', heq, hsame⟩ := same_document.mp h
  rw [Value.document.inj heq]
  exact hsame

/-- The same documents have the same keys. -/
theorem FieldsSame.keys {fs gs : Doc} (h : FieldsSame fs gs) :
    gs.map Prod.fst = fs.map Prod.fst := by
  induction fs generalizing gs with
  | nil => cases gs <;> simp_all [FieldsSame]
  | cons f rest ih =>
    obtain ⟨key, v⟩ := f
    cases gs with
    | nil => simp [FieldsSame] at h
    | cons g gs =>
      simp only [FieldsSame] at h
      simp [h.1, ih h.2.2]

theorem SameDoc.keys {fs gs : Doc} (h : SameDoc fs gs) :
    (gs.map Prod.fst).Perm (fs.map Prod.fst) := by
  obtain ⟨gs', hperm, hsame⟩ := h
  rw [← hsame.keys]
  exact hperm.symm.map _

/-! ## Measures -/

mutual
/-- The number of documents that a value has, itself included. -/
def documents : Value → Nat
  | .document fs => 1 + docDocuments fs
  | .array fs => docDocuments fs
  | _ => 0

def docDocuments : List (Bytes × Value) → Nat
  | [] => 0
  | (_, v) :: rest => documents v + docDocuments rest
end

/-- The size of a number in its shortest encoding. -/
def numberSize : Int64 ⊕ F64 → Nat
  | .inl i => if isInt32 i then 4 else 8
  | .inr _ => 8

mutual
/-- The size of a value with each number in its shortest encoding. -/
def leastSize : Value → Nat
  | .document fs => 5 + leastFieldsSize fs
  | .array fs => 5 + leastFieldsSize fs
  | x =>
    match numericValue x with
    | some n => numberSize n
    | none => x.size

def leastFieldsSize : List (Bytes × Value) → Nat
  | [] => 0
  | (key, v) :: rest => (1 + key.length + 1 + leastSize v) + leastFieldsSize rest
end

/-- The size of a document with each number in its shortest encoding. -/
def leastDocSize (fs : Doc) : Nat := 5 + leastFieldsSize fs

theorem docDocuments_perm {fs gs : Doc} (h : fs.Perm gs) : docDocuments fs = docDocuments gs := by
  induction h with
  | nil => rfl
  | cons f _ ih => simp only [docDocuments, ih]
  | swap f g rest =>
    simp only [docDocuments]
    omega
  | trans _ _ ih ih' => exact ih.trans ih'

theorem fieldsSize_perm {fs gs : Doc} (h : fs.Perm gs) : fieldsSize fs = fieldsSize gs := by
  induction h with
  | nil => rfl
  | cons f _ ih => simp only [fieldsSize, ih]
  | swap f g rest =>
    simp only [fieldsSize]
    omega
  | trans _ _ ih ih' => exact ih.trans ih'

theorem leastSize_scalar {x : Value} (hx : IsScalar x) : leastSize x =
    match numericValue x with
    | some n => numberSize n
    | none => x.size := by
  cases x with
  | document fs => exact hx.elim
  | array fs => exact hx.elim
  | _ => simp only [leastSize]

/-- Every encoding of a number has at least its least size. -/
theorem numberSize_le {x : Value} {n : Int64 ⊕ F64} (hx : numericValue x = some n) :
    numberSize n ≤ x.size := by
  cases x with
  | int32 i =>
    obtain rfl := Option.some.inj hx
    simp [numberSize, isInt32_toInt64, Value.size]
  | int64 i =>
    obtain rfl := Option.some.inj hx
    simp only [numberSize, Value.size]
    split <;> omega
  | double x =>
    simp only [numericValue] at hx
    simp only [Value.size]
    split at hx <;> obtain rfl := Option.some.inj hx <;> simp only [numberSize]
    · split <;> omega
    · omega
  | _ => simp [numericValue] at hx

mutual
/-- The same values have as many documents. -/
theorem Same.documents (v : Value) {w : Value} (h : Same v w) :
    Bson.documents w = Bson.documents v := by
  cases v with
  | document fs =>
    obtain ⟨gs, rfl, gs', hperm, hsame⟩ := same_document.mp h
    simp only [Bson.documents, ← docDocuments_perm hperm, FieldsSame.documents fs hsame]
  | array fs =>
    obtain ⟨gs, rfl, hsame⟩ := same_array.mp h
    simp only [Bson.documents, FieldsSame.documents fs hsame]
  | _ =>
    have hw := IsScalar.of_same (by simp [IsScalar]) h
    cases w <;> simp_all [Bson.documents, IsScalar]

theorem FieldsSame.documents (fs : List (Bytes × Value)) {gs : List (Bytes × Value)}
    (h : FieldsSame fs gs) : docDocuments gs = docDocuments fs := by
  match fs, gs with
  | [], [] => rfl
  | (key, v) :: fs, (k, w) :: gs =>
    simp only [FieldsSame] at h
    simp only [docDocuments, Same.documents v h.2.1, FieldsSame.documents fs h.2.2]
end

mutual
/-- What is the same as a value has at least its least size. -/
theorem Same.leastSize_le (v : Value) {w : Value} (h : Same v w) : leastSize v ≤ w.size := by
  cases v with
  | document fs =>
    obtain ⟨gs, rfl, gs', hperm, hsame⟩ := same_document.mp h
    have hle := FieldsSame.leastSize_le fs hsame
    rw [fieldsSize_perm hperm] at hle
    simp only [leastSize, Value.size]
    omega
  | array fs =>
    obtain ⟨gs, rfl, hsame⟩ := same_array.mp h
    have hle := FieldsSame.leastSize_le fs hsame
    simp only [leastSize, Value.size]
    omega
  | _ =>
    rw [same_scalar (by simp [IsScalar])] at h
    rw [leastSize_scalar (by simp [IsScalar])]
    split at h
    · exact numberSize_le h
    · rw [h]

theorem FieldsSame.leastSize_le (fs : List (Bytes × Value)) {gs : List (Bytes × Value)}
    (h : FieldsSame fs gs) : leastFieldsSize fs ≤ fieldsSize gs := by
  match fs, gs with
  | [], [] => simp [leastFieldsSize]
  | (key, v) :: fs, (k, w) :: gs =>
    simp only [FieldsSame] at h
    obtain ⟨rfl, hv, hrest⟩ := h
    have hvle := Same.leastSize_le v hv
    have hrestle := FieldsSame.leastSize_le fs hrest
    simp only [leastFieldsSize, fieldsSize_cons, fieldSize]
    omega
end

theorem SameDoc.documents {fs gs : Doc} (h : SameDoc fs gs) :
    docDocuments gs = docDocuments fs := by
  obtain ⟨gs', hperm, hsame⟩ := h
  rw [← docDocuments_perm hperm, FieldsSame.documents fs hsame]

theorem SameDoc.leastDocSize_le {fs gs : Doc} (h : SameDoc fs gs) :
    leastDocSize fs ≤ docSize gs := by
  obtain ⟨gs', hperm, hsame⟩ := h
  have hle := FieldsSame.leastSize_le fs hsame
  rw [fieldsSize_perm hperm] at hle
  unfold leastDocSize docSize
  omega

end Vklib.Bson
