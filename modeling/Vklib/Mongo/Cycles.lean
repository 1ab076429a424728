import Vklib.Mongo.EncodeSpec
import Mathlib.Data.Fintype.EquivFin
import Mathlib.Logic.Relation
import Mathlib.Order.RelClasses

/-!
# Cycles and sharing

The encoder on a graph of plain tables.  `Visits E h r r'` is the edge of that
graph: table `r'` is a field of `r` that the encoder visits, which for an array
means one of the indices `1` to `n`.

On such a graph the unfolding of a root exists exactly when no table that the
root reaches is reachable from itself (`Unfolds.acyclic` and
`exists_unfolds`).  The encoder follows the edges with the tables of its path
marked, so a run that returns has walked the whole unfolding
(`tableGraph_run`).  With a cycle there is none, and the run must have stopped
at one of its two tests, or at a leaf that it cannot encode and comes to first
(`LeafFirst`).

`spanValue` measures what the encoder can write before such a stop.  The hypothesis
that it keeps the size limit takes the place of the size of the result, which
does not exist for a cyclic graph.
-/

namespace Vklib.Mongo

open Vklib.Lua Vklib.Bson Relation

/-! ## The graph -/

/-- Values as fields, numbered from `i`. -/
def numbered : Nat → List LVal → List (Bytes × LVal)
  | _, [] => []
  | i, v :: rest => (uint32_to_string i, v) :: numbered (i + 1) rest

/-- The bytes of a string key. -/
def keyBytes : Key → Bytes
  | .str key => key
  | _ => []

@[simp] theorem keyBytes_str (key : Bytes) : keyBytes (.str key) = key := rfl

/-- The fields of a table that the encoder visits, under their BSON keys. -/
def fieldsOf (E : Env) (h : Heap Host) (r : Ref) : List (Bytes × LVal) :=
  if plainLength E h r = -1 then (h.get r).entries.map (fun e => (keyBytes e.1, e.2))
  else numbered 0 (elementsFrom (h.get r) 0 (plainLength E h r).toNat)

/-- The encoder visits table `r'` as a field of table `r`. -/
def Visits (E : Env) (h : Heap Host) (r r' : Ref) : Prop :=
  ∃ key, (key, Val.table r') ∈ fieldsOf E h r

/-- A table without metatable whose keys, as a document, are strings without
NUL, and whose other fields have no `__toBSON` metamethod. -/
structure PlainNode (E : Env) (h : Heap Host) (r : Ref) : Prop where
  plain : PlainTable h r
  keys : plainLength E h r = -1 →
    ∀ e ∈ (h.get r).entries, ∃ key, e.1 = .str key ∧ NulFree key
  fields : ∀ f ∈ fieldsOf E h r, h.getmetafield f.2 (bytes "__toBSON") = .nil

/-- All tables that the encoder can come to from a root are plain. -/
def TableGraph (E : Env) (h : Heap Host) (root : Ref) : Prop :=
  ∀ r, ReflTransGen (Visits E h) root r → PlainNode E h r

/-- Every leaf of the graph is a value that BSON has. -/
def LeavesEncodable (E : Env) (h : Heap Host) (root : Ref) : Prop :=
  ∀ r, ReflTransGen (Visits E h) root r → ∀ f ∈ fieldsOf E h r,
    (∀ r', f.2 ≠ .table r') → (leafValue E 0 h f.2).isSome

/-- Some table that the root reaches is reachable from itself. -/
def HasCycle (E : Env) (h : Heap Host) (root : Ref) : Prop :=
  ∃ r, ReflTransGen (Visits E h) root r ∧ TransGen (Visits E h) r r

theorem TableGraph.step {E : Env} {h : Heap Host} {r r' : Ref} (hgraph : TableGraph E h r)
    (hvisit : Visits E h r r') : TableGraph E h r' :=
  fun r'' hreach => hgraph r'' (ReflTransGen.head hvisit hreach)

theorem LeavesEncodable.step {E : Env} {h : Heap Host} {r r' : Ref}
    (hleaves : LeavesEncodable E h r) (hvisit : Visits E h r r') : LeavesEncodable E h r' :=
  fun r'' hreach => hleaves r'' (ReflTransGen.head hvisit hreach)

/-- The length of a plain table is `-1` or a number of elements. -/
theorem plainLength_cases (E : Env) (h : Heap Host) (r : Ref) :
    plainLength E h r = -1 ∨ ∃ n : Nat, plainLength E h r = n := by
  unfold plainLength declaredLength
  split_ifs
  · right
    split
    · exact ⟨_, (Int.toNat_of_nonneg (Int.le_max_right _ 0)).symm⟩
    · exact ⟨_, rfl⟩
  · exact Or.inl rfl

/-! ## Unfoldings and cycles -/

theorem UnfoldsFields.of_mem {E : Env} {h : Heap Host} {es : List (Key × LVal)}
    {fs : List (Bytes × Tree)} (hfs : UnfoldsFields E h es fs) {e : Key × LVal} (he : e ∈ es) :
    ∃ t, Unfolds E h e.2 t ∧ t.size ≤ Tree.fieldsSize fs := by
  induction es generalizing fs with
  | nil => simp at he
  | cons e' rest ih =>
    cases hfs with
    | cons hv hrest =>
      simp only [Tree.fieldsSize]
      rcases List.mem_cons.mp he with rfl | he
      · exact ⟨_, hv, by omega⟩
      · obtain ⟨t, ht, hsize⟩ := ih hrest he
        exact ⟨t, ht, by omega⟩

theorem UnfoldsElems.of_mem {E : Env} {h : Heap Host} {vs : List LVal} {ts : List Tree}
    (hts : UnfoldsElems E h vs ts) {v : LVal} (hv : v ∈ vs) :
    ∃ t, Unfolds E h v t ∧ t.size ≤ Tree.elemsSize ts := by
  induction vs generalizing ts with
  | nil => simp at hv
  | cons v' rest ih =>
    cases hts with
    | cons hhead hrest =>
      simp only [Tree.elemsSize]
      rcases List.mem_cons.mp hv with rfl | hv
      · exact ⟨_, hhead, by omega⟩
      · obtain ⟨t, ht, hsize⟩ := ih hrest hv
        exact ⟨t, ht, by omega⟩

theorem mem_of_mem_numbered {i : Nat} {vs : List LVal} {f : Bytes × LVal}
    (hf : f ∈ numbered i vs) : f.2 ∈ vs := by
  induction vs generalizing i with
  | nil => simp [numbered] at hf
  | cons v rest ih =>
    rcases List.mem_cons.mp hf with rfl | hf
    · exact List.mem_cons_self
    · exact List.mem_cons_of_mem _ (ih hf)

/-- A table below another one has the smaller unfolding. -/
theorem Visits.size_lt {E : Env} {h : Heap Host} {r r' : Ref} (hvisit : Visits E h r r')
    {t : Tree} (ht : Unfolds E h (.table r) t) (hplain : PlainTable h r) :
    ∃ t', Unfolds E h (.table r') t' ∧ t'.size < t.size := by
  obtain ⟨key, hmem⟩ := hvisit
  cases ht with
  | leaf hleaf => exact absurd hleaf (hplain.not_isLeaf _)
  | doc _ hlen hfields =>
    rw [fieldsOf, if_pos hlen] at hmem
    obtain ⟨e, he, hpair⟩ := List.mem_map.mp hmem
    obtain ⟨t', ht', hsize⟩ := hfields.of_mem he
    have hvalue : e.2 = Val.table r' := congrArg Prod.snd hpair
    exact ⟨t', hvalue ▸ ht', by simp only [Tree.size]; omega⟩
  | array _ hlen helems =>
    rw [fieldsOf, if_neg (by omega), hlen, Int.toNat_natCast] at hmem
    obtain ⟨t', ht', hsize⟩ := helems.of_mem (mem_of_mem_numbered hmem)
    exact ⟨t', ht', by simp only [Tree.size]; omega⟩

theorem size_lt_of_transGen {E : Env} {h : Heap Host} {r r' : Ref} (hgraph : TableGraph E h r)
    (hpath : TransGen (Visits E h) r r') {t : Tree} (ht : Unfolds E h (.table r) t) :
    ∃ t', Unfolds E h (.table r') t' ∧ t'.size < t.size := by
  induction hpath with
  | single hvisit => exact hvisit.size_lt ht (hgraph r .refl).plain
  | tail hpath hvisit ih =>
    obtain ⟨t₁, ht₁, hlt₁⟩ := ih
    obtain ⟨t₂, ht₂, hlt₂⟩ := hvisit.size_lt ht₁ (hgraph _ hpath.to_reflTransGen).plain
    exact ⟨t₂, ht₂, Nat.lt_trans hlt₂ hlt₁⟩

/-- What unfolds has no cycle. -/
theorem Unfolds.acyclic {E : Env} {h : Heap Host} {root : Ref} (hgraph : TableGraph E h root)
    {t : Tree} (ht : Unfolds E h (.table root) t) : ¬ HasCycle E h root := by
  rintro ⟨r, hreach, hcycle⟩
  obtain ⟨t₁, ht₁⟩ : ∃ t₁, Unfolds E h (.table r) t₁ := by
    rcases (Relation.reflTransGen_iff_eq_or_transGen).mp hreach with rfl | hpath
    · exact ⟨t, ht⟩
    · obtain ⟨t₁, ht₁, -⟩ := size_lt_of_transGen hgraph hpath ht
      exact ⟨t₁, ht₁⟩
  have hgraph' : TableGraph E h r := fun r' hreach' => hgraph r' (hreach.trans hreach')
  obtain ⟨t₂, ht₂, hlt⟩ := size_lt_of_transGen hgraph' hcycle ht₁
  rw [ht₂.unique ht₁] at hlt
  exact Nat.lt_irrefl _ hlt

/-! ## Graphs without cycle unfold -/

/-- Only a table is written differently at different heights of the stack. -/
theorem leafValue_of_not_table (E : Env) (h : Heap Host) {v : LVal} (hv : ∀ r, v ≠ .table r)
    (top : Nat) : leafValue E top h v = leafValue E 0 h v := by
  cases v with
  | table r => exact absurd rfl (hv r)
  | host u => cases u <;> rfl
  | _ => rfl

theorem exists_unfoldsFields {E : Env} {h : Heap Host} {es : List (Key × LVal)}
    (hkeys : ∀ e ∈ es, ∃ key, e.1 = .str key ∧ NulFree key)
    (hvalues : ∀ e ∈ es, ∃ t, Unfolds E h e.2 t ∧ t.KeysNulFree) :
    ∃ fs, UnfoldsFields E h es fs ∧ Tree.FieldsNulFree fs := by
  induction es with
  | nil => exact ⟨[], .nil, by simp⟩
  | cons e rest ih =>
    obtain ⟨fs, hfs, hfree⟩ :=
      ih (fun e' he' => hkeys e' (by simp [he'])) (fun e' he' => hvalues e' (by simp [he']))
    obtain ⟨t, ht, htfree⟩ := hvalues e (by simp)
    obtain ⟨key, hkey, hkeyfree⟩ := hkeys e (by simp)
    obtain ⟨k, v⟩ := e
    simp only at hkey ht
    subst hkey
    exact ⟨(key, t) :: fs, .cons ht hfs, by simp [hkeyfree, htfree, hfree]⟩

theorem exists_unfoldsElems {E : Env} {h : Heap Host} {vs : List LVal}
    (hvalues : ∀ v ∈ vs, ∃ t, Unfolds E h v t ∧ t.KeysNulFree) :
    ∃ ts, UnfoldsElems E h vs ts ∧ Tree.ElemsNulFree ts := by
  induction vs with
  | nil => exact ⟨[], .nil, by simp [Tree.ElemsNulFree]⟩
  | cons v rest ih =>
    obtain ⟨ts, hts, hfree⟩ := ih (fun v' hv' => hvalues v' (by simp [hv']))
    obtain ⟨t, ht, htfree⟩ := hvalues v (by simp)
    exact ⟨t :: ts, .cons ht hts, by simp [Tree.ElemsNulFree, htfree, hfree]⟩

theorem exists_numbered_of_mem {i : Nat} {vs : List LVal} {v : LVal} (hv : v ∈ vs) :
    ∃ key, (key, v) ∈ numbered i vs := by
  induction vs generalizing i with
  | nil => simp at hv
  | cons v' rest ih =>
    rcases List.mem_cons.mp hv with rfl | hv
    · exact ⟨_, List.mem_cons_self⟩
    · obtain ⟨key, hkey⟩ := ih (i := i + 1) hv
      exact ⟨key, List.mem_cons_of_mem _ hkey⟩

/-- A plain table unfolds when its fields do. -/
theorem PlainNode.exists_unfolds {E : Env} {h : Heap Host} {r : Ref} (hnode : PlainNode E h r)
    (hfields : ∀ f ∈ fieldsOf E h r, ∃ t, Unfolds E h f.2 t ∧ t.KeysNulFree) :
    ∃ t, Unfolds E h (.table r) t ∧ t.KeysNulFree := by
  rcases plainLength_cases E h r with hlen | ⟨n, hlen⟩
  · rw [fieldsOf, if_pos hlen] at hfields
    obtain ⟨fs, hfs, hfree⟩ := exists_unfoldsFields (hnode.keys hlen)
      (fun e he => hfields _ (List.mem_map.mpr ⟨e, he, rfl⟩))
    exact ⟨.doc fs, .doc hnode.plain hlen hfs, by simpa [Tree.KeysNulFree] using hfree⟩
  · rw [fieldsOf, if_neg (by omega), hlen, Int.toNat_natCast] at hfields
    obtain ⟨ts, hts, hfree⟩ := exists_unfoldsElems (E := E) (h := h) fun v hv => by
      obtain ⟨key, hkey⟩ := exists_numbered_of_mem (i := 0) hv
      exact hfields _ hkey
    exact ⟨.array ts, .array hnode.plain hlen hts, by simpa [Tree.KeysNulFree] using hfree⟩

/-- Without a cycle the edges of the graph are well-founded, since the tables
are finitely many. -/
theorem exists_unfolds {E : Env} {h : Heap Host} {root : Ref} (hgraph : TableGraph E h root)
    (hleaves : LeavesEncodable E h root) (hacyclic : ¬ HasCycle E h root) :
    ∃ t, Unfolds E h (.table root) t ∧ t.KeysNulFree := by
  let Node := { r : Ref // ReflTransGen (Visits E h) root r }
  have hfinite : Finite Node := by
    refine Finite.of_injective (β := Fin h.length)
      (fun r => ⟨r.1, (hgraph r.1 r.2).plain.1⟩) ?_
    intro a b hab
    exact Subtype.ext (by simpa using hab)
  let below : Node → Node → Prop := fun a b => TransGen (Visits E h) b.1 a.1
  have htrans : IsTrans Node below := ⟨fun _ _ _ hab hbc => hbc.trans hab⟩
  have hirrefl : Std.Irrefl below := ⟨fun a ha => hacyclic ⟨a.1, a.2, ha⟩⟩
  have hwf : WellFounded below := Finite.wellFounded_of_trans_of_irrefl below
  suffices hall : ∀ a : Node, ∃ t, Unfolds E h (.table a.1) t ∧ t.KeysNulFree from
    hall ⟨root, .refl⟩
  intro a
  induction a using hwf.induction with
  | h a ih =>
    refine (hgraph a.1 a.2).exists_unfolds fun f hf => ?_
    obtain ⟨key, v⟩ := f
    by_cases htable : ∃ r', v = .table r'
    · obtain ⟨r', rfl⟩ := htable
      exact ih ⟨r', a.2.tail ⟨key, hf⟩⟩ (TransGen.single ⟨key, hf⟩)
    · have hv : ∀ r', v ≠ .table r' := fun r' hr' => htable ⟨r', hr'⟩
      obtain ⟨x, hx⟩ := Option.isSome_iff_exists.mp (hleaves a.1 a.2 _ hf hv)
      refine ⟨.leaf v x, .leaf ⟨(hgraph a.1 a.2).fields _ hf, fun top _ => ?_⟩,
        by simp [Tree.KeysNulFree]⟩
      rw [leafValue_of_not_table E h hv top]
      exact hx

/-! ## Leaves that stop the encoder -/

/-- The encoder comes to a leaf that BSON does not have before it comes back to
a table: all that it visits before, at every table on the way, unfolds. -/
inductive LeafFirst (E : Env) (h : Heap Host) : LVal → Prop
  | leaf {v : LVal} : (∀ r, v ≠ .table r) → leafValue E 0 h v = none → LeafFirst E h v
  | table {r : Ref} {before after : List (Bytes × LVal)} {key : Bytes} {v : LVal} :
      fieldsOf E h r = before ++ (key, v) :: after →
      (∀ f ∈ before, ∃ t, Unfolds E h f.2 t) → LeafFirst E h v → LeafFirst E h (.table r)

/-- `LeafFirst` among fields. -/
def LeafAmong (E : Env) (h : Heap Host) (fs : List (Bytes × LVal)) : Prop :=
  ∃ before key v after, fs = before ++ (key, v) :: after ∧
    (∀ f ∈ before, ∃ t, Unfolds E h f.2 t) ∧ LeafFirst E h v

theorem LeafAmong.head {E : Env} {h : Heap Host} {f : Bytes × LVal} (hleaf : LeafFirst E h f.2)
    (rest : List (Bytes × LVal)) : LeafAmong E h (f :: rest) :=
  ⟨[], f.1, f.2, rest, rfl, by simp, hleaf⟩

theorem LeafAmong.tail {E : Env} {h : Heap Host} {f : Bytes × LVal} {rest : List (Bytes × LVal)}
    (hf : ∃ t, Unfolds E h f.2 t) (hrest : LeafAmong E h rest) : LeafAmong E h (f :: rest) := by
  obtain ⟨before, key, v, after, rfl, hbefore, hleaf⟩ := hrest
  exact ⟨f :: before, key, v, after, rfl, List.forall_mem_cons.mpr ⟨hf, hbefore⟩, hleaf⟩

theorem LeafAmong.table {E : Env} {h : Heap Host} {r : Ref} (hfields : LeafAmong E h (fieldsOf E h r)) :
    LeafFirst E h (.table r) := by
  obtain ⟨before, key, v, after, heq, hbefore, hleaf⟩ := hfields
  exact .table heq hbefore hleaf

/-- Where all leaves are encodable there is no such leaf. -/
theorem LeavesEncodable.not_leafFirst {E : Env} {h : Heap Host} {r : Ref}
    (hleaves : LeavesEncodable E h r) : ¬ LeafFirst E h (.table r) := by
  suffices hall : ∀ v, LeafFirst E h v → ∀ r, v = .table r → ¬ LeavesEncodable E h r from
    fun hfirst => hall _ hfirst r rfl hleaves
  intro v hfirst
  induction hfirst with
  | leaf hv _ => exact fun r hr => absurd hr (hv r)
  | @table r' before after key v hfields _ hrest ih =>
    rintro r hr hleaves
    obtain rfl : r' = r := by simpa using hr
    have hmem : (key, v) ∈ fieldsOf E h r' := by simp [hfields]
    by_cases htable : ∃ r'', v = .table r''
    · obtain ⟨r'', rfl⟩ := htable
      exact ih r'' rfl (hleaves.step ⟨key, hmem⟩)
    · have hv : ∀ r'', v ≠ .table r'' := fun r'' hr'' => htable ⟨r'', hr''⟩
      have hsome := hleaves r' .refl _ hmem hv
      cases hrest with
      | leaf _ hnone => simp [hnone] at hsome
      | table _ _ _ => exact hv _ rfl

/-! ## The run on a graph -/

/-- The failure started at one of the two tests against endless recursion. -/
def Detected : AppendError → Prop
  | .failed segments => ∃ outer, segments = outer ++ [bytes "circular reference detected"] ∨
      segments = outer ++ [bytes "recursion detected"]
  | .raised _ => False

theorem Detected.within {e : AppendError} (he : Detected e) (segment : Bytes) :
    Detected (e.within segment) := by
  cases e with
  | raised e => exact he.elim
  | failed segments =>
    obtain ⟨outer, houter⟩ := he
    refine ⟨segment :: outer, ?_⟩
    rcases houter with rfl | rfl
    · exact Or.inl rfl
    · exact Or.inr rfl

/-- The size of a value, given the sizes of the contents of tables. -/
def spanValue (E : Env) (h : Heap Host) (table : Ref → Nat) : LVal → Nat
  | .table r => 5 + table r
  | v => ((leafValue E 0 h v).map Value.size).getD 0

/-- The size of fields, given the sizes of values. -/
def spanFields (value : LVal → Nat) : List (Bytes × LVal) → Nat
  | [] => 0
  | f :: rest => (1 + f.1.length + 1 + value f.2) + spanFields value rest

/-- The size of the contents of a table, cut at the tables that are open
already and `fuel` levels down. -/
def spanTable (E : Env) (h : Heap Host) : Nat → Finset Ref → Ref → Nat
  | 0, _, _ => 0
  | fuel + 1, path, r =>
    if r ∈ path then 0
    else spanFields (spanValue E h (spanTable E h fuel (insert r path))) (fieldsOf E h r)

/-- How a run ends that has room for all it can write: it returns with `P`, or
it stops with one of the two errors, or it is `stuck` at a leaf. -/
def Walked (P stuck : Prop) (b : BsonT) (room : Nat) (s : Enc)
    (result : Outcome AppendError (Enc × Target)) : Prop :=
  (∃ ds, result = .ok (s, some (b.extend ds)) ∧ fieldsSize ds ≤ room ∧ P) ∨
    ∃ e, result = .error e ∧ (Detected e ∨ stuck)

/-- One field and then the rest. -/
theorem Walked.cons {P Q R stuck stuck' stuckAll : Prop} {b : BsonT} {room room' : Nat} {s s' : Enc}
    {first : Outcome AppendError (Enc × Target)} {segment : Bytes}
    {next : Enc × Target → Outcome AppendError (Enc × Target)}
    (hb : b.limit ≤ BSON_MAX_SIZE) (hroom : b.closed + (room + room') ≤ b.limit)
    (hfirst : Walked P stuck b room s first)
    (hnext : ∀ b', Writable b' → b'.closed + room' ≤ b'.limit →
      Walked Q stuck' b' room' s' (next (s, some b')))
    (hPQ : P → Q → R) (hstuck : stuck → stuckAll) (hstuck' : P → stuck' → stuckAll) :
    Walked R stuckAll b (room + room') s'
      (first.mapError (AppendError.within segment) >>= next) := by
  rcases hfirst with ⟨ds, hok, hsize, hP⟩ | ⟨e, herror, he⟩
  · have hb' : Writable (b.extend ds) := by
      refine ⟨hb, ?_⟩
      rw [BsonT.closed_extend, BsonT.extend_limit]
      omega
    have hroom' : (b.extend ds).closed + room' ≤ (b.extend ds).limit := by
      rw [BsonT.closed_extend, BsonT.extend_limit]
      omega
    rcases hnext _ hb' hroom' with ⟨ds', hok', hsize', hQ⟩ | ⟨e, herror, he⟩
    · refine Or.inl ⟨ds ++ ds', ?_, ?_, hPQ hP hQ⟩
      · simp [hok, hok', BsonT.extend_extend]
      · rw [fieldsSize_append]
        omega
    · exact Or.inr ⟨e, by simp [hok, herror], he.imp_right (hstuck' hP)⟩
  · exact Or.inr ⟨e.within segment, by simp [herror, Outcome.mapError],
      he.imp (fun hdetected => hdetected.within segment) hstuck⟩

/-- A value that is no table and has no BSON value is refused. -/
theorem appendSwitch_of_leafValue_none {E : Env} (table : AppendTable) (top : Nat) {s : Enc}
    {v : LVal} (hv : ∀ r, v ≠ .table r) (hnone : leafValue E 0 s.heap v = none) (b : Target)
    (key : Bytes) : ∃ e, appendSwitch E table top s v b key = .error e := by
  cases v with
  | table r => exact absurd rfl (hv r)
  | userdata id m => exact ⟨_, rfl⟩
  | flt x =>
    simp only [leafValue] at hnone
    split at hnone <;> simp at hnone
  | host u =>
    cases u with
    | bson doc => simp [leafValue] at hnone
    | objectID id => simp [leafValue] at hnone
    | _ => exact ⟨_, rfl⟩
  | _ => simp [leafValue] at hnone

/-- The run on the tables of a graph with the tables of a path open. -/
def WalksTables (E : Env) (h : Heap Host) (table : AppendTable) (span : Finset Ref → Ref → Nat)
    (top : Nat) (path : Finset Ref) (r : Ref) : Prop :=
  TableGraph E h r → ∀ b : BsonT, Writable b → b.closed + span path r ≤ b.limit →
      Walked (∃ t, Unfolds E h (.table r) t) (LeafFirst E h (.table r)) b (span path r) ⟨h, path⟩
        (table top ⟨h, path⟩ r (some b) (plainLength E h r))

/-- The run on a field of a table. -/
theorem appendValue_walked {E : Env} {h : Heap Host} {table : AppendTable}
    {span : Finset Ref → Ref → Nat} {top : Nat} {path : Finset Ref} {r : Ref}
    (htable : ∀ r', WalksTables E h table span top path r') (hgraph : TableGraph E h r)
    {key : Bytes} {v : LVal} (hmem : (key, v) ∈ fieldsOf E h r) (hkey : NulFree key) {b : BsonT}
    (hb : Writable b)
    (hroom : b.closed + (1 + key.length + 1 + spanValue E h (span path) v) ≤ b.limit) :
    Walked (∃ t, Unfolds E h v t) (LeafFirst E h v) b
      (1 + key.length + 1 + spanValue E h (span path) v) ⟨h, path⟩
      (appendValue E table top ⟨h, path⟩ v (some b) key) := by
  have hlen : key.length < 2 ^ 31 := by
    have hbound := hb.bound
    unfold BSON_MAX_SIZE at hbound
    omega
  have htrans : transform E h v = .ok (h, v) :=
    transform_of_nil ((hgraph r .refl).fields _ hmem)
  simp only [appendValue, htrans, Outcome.ok_bind]
  by_cases hv : ∃ r', v = .table r'
  · obtain ⟨r', rfl⟩ := hv
    have hvisit : Visits E h r r' := ⟨key, hmem⟩
    have hplain := (hgraph r' (ReflTransGen.single hvisit)).plain
    have hwalk := htable r' (hgraph.step hvisit)
    simp only [spanValue] at hroom
    have hbegin := bson_append_begin_of_fits (b := b) hb.bound hkey hlen (by omega)
    have hchild : Writable (b.child key) := by
      refine ⟨hb.bound, ?_⟩
      rw [b.closed_child key, BsonT.child_limit]
      omega
    have hchildRoom : (b.child key).closed + span path r' ≤ (b.child key).limit := by
      rw [b.closed_child key, BsonT.child_limit]
      omega
    simp only [appendSwitch, hplain.getmetafield, appendNested, hplain.getArrayLength, hbegin]
    rcases hwalk _ hchild hchildRoom with ⟨ds, hok, hsize, ht⟩ | ⟨e, herror, he⟩
    · refine Or.inl ⟨[(key, if plainLength E h r' != -1 then .array ds else .document ds)],
        ?_, ?_, ht⟩
      · simp [hok, bson_append_end, BsonT.extend_single]
      · have hwrap : (if plainLength E h r' != -1 then Value.array ds
            else .document ds).size = 5 + fieldsSize ds := by
          split <;> simp [Value.size]
        simp only [fieldsSize_cons, fieldsSize_nil, fieldSize, hwrap, spanValue]
        omega
    · exact Or.inr ⟨e, by simp [herror], he⟩
  · have hv' : ∀ r', v ≠ .table r' := fun r' hr' => hv ⟨r', hr'⟩
    cases hx : leafValue E 0 h v with
    | none =>
      obtain ⟨e, he⟩ := appendSwitch_of_leafValue_none table top (s := ⟨h, path⟩) hv' hx (some b) key
      exact Or.inr ⟨e, he, Or.inr (.leaf hv' hx)⟩
    | some x =>
      have hspan : spanValue E h (span path) v = x.size := by
        cases v with
        | table r' => exact absurd rfl (hv' r')
        | _ => simp [spanValue, hx]
      have hxtop := fun top => (leafValue_of_not_table E h hv' top).trans hx
      rw [appendSwitch_of_leafValue (s := ⟨h, path⟩) (hxtop top)]
      rw [hspan] at hroom ⊢
      refine Or.inl ⟨[(key, x)], ?_, by simp [fieldSize], .leaf v x, .leaf ⟨?_, ?_⟩⟩
      · rw [appendOne, appendTo_of_eq_some (bson_append_of_fits hb.bound hkey hlen hroom)]
        rfl
      · exact (hgraph r .refl).fields _ hmem
      · exact fun top _ => hxtop top

/-- The run on the entries of a document table. -/
theorem documentLoop_walked {E : Env} {h : Heap Host} {table : AppendTable}
    {span : Finset Ref → Ref → Nat} {top : Nat} {path : Finset Ref} {r : Ref}
    (htable : ∀ r', WalksTables E h table span top path r') (hgraph : TableGraph E h r)
    (es : List (Key × LVal))
    (hkeys : ∀ e ∈ es, ∃ key, e.1 = .str key ∧ NulFree key)
    (hmem : ∀ e ∈ es, (keyBytes e.1, e.2) ∈ fieldsOf E h r) {b : BsonT} (hb : Writable b)
    (hroom : b.closed + spanFields (spanValue E h (span path))
      (es.map (fun e => (keyBytes e.1, e.2))) ≤ b.limit) :
    Walked (∃ fs, UnfoldsFields E h es fs) (LeafAmong E h (es.map (fun e => (keyBytes e.1, e.2)))) b
      (spanFields (spanValue E h (span path)) (es.map (fun e => (keyBytes e.1, e.2)))) ⟨h, path⟩
      (documentLoop (appendValue E table top) es ⟨h, path⟩ (some b)) := by
  induction es generalizing b with
  | nil => exact Or.inl ⟨[], by simp [documentLoop], by simp, [], .nil⟩
  | cons e rest ih =>
    obtain ⟨key, hkey, hfree⟩ := hkeys e (by simp)
    obtain ⟨k, v⟩ := e
    simp only at hkey
    subst hkey
    have hfield := hmem (.str key, v) (by simp)
    simp only [List.map_cons, spanFields, keyBytes_str] at hfield hroom ⊢
    refine Walked.cons hb.bound hroom
      (appendValue_walked htable hgraph hfield hfree hb (by omega))
      (fun b' hb' hroom' => ih (fun e he => hkeys e (by simp [he]))
        (fun e he => hmem e (by simp [he])) hb' hroom')
      ?_ (fun hleaf => .head hleaf _) (fun ht hrest => .tail ht hrest)
    rintro ⟨t, ht⟩ ⟨fs, hfs⟩
    exact ⟨_, .cons ht hfs⟩

/-- The run on the indices of an array table. -/
theorem arrayLoop_walked {E : Env} {h : Heap Host} {table : AppendTable}
    {span : Finset Ref → Ref → Nat} {top : Nat} {path : Finset Ref} {r : Ref}
    (htable : ∀ r', WalksTables E h table span top path r') (hgraph : TableGraph E h r)
    (n i : Nat)
    (hmem : ∀ f ∈ numbered i (elementsFrom (h.get r) i n), f ∈ fieldsOf E h r) {b : BsonT}
    (hb : Writable b)
    (hroom : b.closed + spanFields (spanValue E h (span path))
      (numbered i (elementsFrom (h.get r) i n)) ≤ b.limit) :
    Walked (∃ ts, UnfoldsElems E h (elementsFrom (h.get r) i n) ts)
      (LeafAmong E h (numbered i (elementsFrom (h.get r) i n))) b
      (spanFields (spanValue E h (span path)) (numbered i (elementsFrom (h.get r) i n))) ⟨h, path⟩
      (arrayLoop (appendValue E table top) r n i ⟨h, path⟩ (some b)) := by
  induction n generalizing i b with
  | zero => exact Or.inl ⟨[], by simp [arrayLoop], by simp, [], .nil⟩
  | succ n ih =>
    simp only [elementsFrom, numbered, spanFields] at hmem hroom ⊢
    refine Walked.cons hb.bound hroom
      (appendValue_walked htable hgraph (hmem _ (by simp)) (nulFree_uint32_to_string i) hb
        (by omega))
      (fun b' hb' hroom' => ih (i + 1) (fun f hf => hmem f (by simp [hf])) hb' hroom')
      ?_ (fun hleaf => .head hleaf _) (fun ht hrest => .tail ht hrest)
    rintro ⟨t, ht⟩ ⟨ts, hts⟩
    exact ⟨_, .cons ht hts⟩

/-- Closing a table takes its mark away again. -/
theorem Walked.unmark {P Q stuck stuck' : Prop} {b : BsonT} {room : Nat} {h : Heap Host}
    {path : Finset Ref} {r : Ref} {result : Outcome AppendError (Enc × Target)}
    (hresult : Walked P stuck b room ⟨h, insert r path⟩ result) (hfresh : r ∉ path)
    (hPQ : P → Q) (hstuck : stuck → stuck') :
    Walked Q stuck' b room ⟨h, path⟩
      (result >>= fun p => .ok ({ p.1 with ridx := p.1.ridx.erase r }, p.2)) := by
  rcases hresult with ⟨ds, hok, hsize, hP⟩ | ⟨e, herror, he⟩
  · exact Or.inl ⟨ds, by simp [hok, Finset.erase_insert hfresh], hsize, hPQ hP⟩
  · exact Or.inr ⟨e, by simp [herror], he.imp_right hstuck⟩

/-- A run with room for all that it can write returns after it has walked the
whole unfolding, or stops at a leaf or at one of the two tests. -/
theorem tableGraph_run (E : Env) (h : Heap Host) (fuel top : Nat) (hpos : 0 < fuel)
    (hfuel : MAXSTACK < fuel + top) (path : Finset Ref) (r : Ref) :
    WalksTables E h (appendTable E fuel) (spanTable E h fuel) top path r := by
  induction fuel generalizing top path r with
  | zero => omega
  | succ fuel ih =>
    intro hgraph b hb hroom
    have hnode := hgraph r .refl
    by_cases htop : MAXSTACK ≤ top
    · refine Or.inr ⟨.text (bytes "recursion detected"), ?_, Or.inl ⟨[], Or.inr rfl⟩⟩
      simp only [appendTable, if_pos htop]
    by_cases hfresh : r ∈ path
    · refine Or.inr ⟨.text (bytes "circular reference detected"), ?_, Or.inl ⟨[], Or.inl rfl⟩⟩
      simp only [appendTable, if_neg htop, hnode.plain.2, Option.isSome_none,
        Bool.false_eq_true, if_false, if_pos hfresh]
    have hopen : Opens top path h r := ⟨by omega, hnode.plain.2, hfresh⟩
    rw [hopen.appendTable]
    simp only [spanTable, if_neg hfresh] at hroom ⊢
    rcases plainLength_cases E h r with hlen | ⟨n, hlen⟩
    · have hfieldsOf : fieldsOf E h r = (h.get r).entries.map (fun e => (keyBytes e.1, e.2)) := by
        rw [fieldsOf, if_pos hlen]
      have hmem : ∀ e ∈ (h.get r).entries, (keyBytes e.1, e.2) ∈ fieldsOf E h r := fun e he => by
        rw [hfieldsOf]
        exact List.mem_map.mpr ⟨e, he, rfl⟩
      have htable := fun r' => ih (top + 2) (by omega) (by omega) (insert r path) r'
      have hloop := documentLoop_walked htable hgraph _ (hnode.keys hlen) hmem hb
        (by rw [← hfieldsOf]; exact hroom)
      rw [← hfieldsOf] at hloop
      simp only [hlen, tableLoop, ne_eq, not_true_eq_false, if_false]
      refine hloop.unmark hfresh ?_ LeafAmong.table
      rintro ⟨fs, hfs⟩
      exact ⟨_, .doc hnode.plain hlen hfs⟩
    · have hne : ((n : Int) ≠ -1) := by omega
      have hfieldsOf : fieldsOf E h r = numbered 0 (elementsFrom (h.get r) 0 n) := by
        rw [fieldsOf, if_neg (by omega), hlen, Int.toNat_natCast]
      have htable := fun r' => ih (top + 1) (by omega) (by omega) (insert r path) r'
      have hloop := arrayLoop_walked htable hgraph n 0 (by rw [hfieldsOf]; exact fun f hf => hf)
        hb (by rw [← hfieldsOf]; exact hroom)
      rw [← hfieldsOf] at hloop
      simp only [hlen, tableLoop, if_pos hne, Int.toNat_natCast]
      refine hloop.unmark hfresh ?_ LeafAmong.table
      rintro ⟨ts, hts⟩
      exact ⟨_, .array hnode.plain hlen hts⟩

/-! ## `mongo.bson` on a graph -/

/-- `mongo.bson` ends, on every value and whatever the metamethods return. -/
theorem newBSON_ne_outOfFuel (E : Env) (h : Heap Host) (v : LVal) :
    newBSON E h v ≠ .outOfFuel := by
  unfold newBSON castBSON
  split
  · refine Outcome.bind_ne_outOfFuel ?_ (fun _ _ => by simp)
    rw [ne_eq, Outcome.mapError_eq_outOfFuel_iff]
    exact initBSON_ne_outOfFuel E _
  · refine Outcome.bind_ne_outOfFuel ?_ ?_
    · unfold callToBSON
      split
      · simp
      · split <;> simp
    · rintro ⟨h', v'⟩ -
      simp only
      split
      · simp
      · refine Outcome.bind_ne_outOfFuel ?_ (fun _ _ => by simp)
        unfold encodeTable
        have htable := fun s r b len =>
          appendTable_ne_outOfFuel E (MAXSTACK + 1) (1 + 2) (by omega) (by omega) s r b len
        split
        · simp
        · rename_i len _
          unfold appendTableFull
          split <;> simp_all
      · simp

/-- An argument error whose message ends in the text of one of the two
tests. -/
def IsRecursionError (e : LuaError) : Prop :=
  ∃ outer, e = .argument 1 (outer ++ bytes "circular reference detected") ∨
    e = .argument 1 (outer ++ bytes "recursion detected")

theorem isRecursionError_of_detected {e : AppendError} (he : Detected e) :
    IsRecursionError (raiseAppendError 1 e) := by
  cases e with
  | raised e => exact he.elim
  | failed segments =>
    obtain ⟨outer, houter⟩ := he
    refine ⟨outer.flatten, ?_⟩
    rcases houter with rfl | rfl
    · exact Or.inl (by simp [raiseAppendError])
    · exact Or.inr (by simp [raiseAppendError])

/-- The size of what the encoder can write before it stops, as a document. -/
def spanSize (E : Env) (h : Heap Host) (root : Ref) : Nat :=
  5 + spanTable E h (MAXSTACK + 1) ∅ root

theorem PlainTable.callToBSON {E : Env} {h : Heap Host} {r : Ref} (hplain : PlainTable h r) :
    callToBSON E h (.table r) = .ok (h, .table r) := by
  simp [Mongo.callToBSON, hplain.getmetafield]

/-- A cycle in a graph that the size limit has room for is an error, one of the
two unless a leaf comes first. -/
theorem newBSON_of_cycle {E : Env} {h : Heap Host} {root : Ref} (hgraph : TableGraph E h root)
    (hsize : spanSize E h root ≤ BSON_GROW_LIMIT) (hcycle : HasCycle E h root) :
    ∃ e, newBSON E h (.table root) = .error e ∧
      (IsRecursionError e ∨ LeafFirst E h (.table root)) := by
  have hplain := (hgraph root .refl).plain
  have hb : Writable BsonT.bson_init := ⟨by decide, by decide⟩
  have hrun := tableGraph_run E h (MAXSTACK + 1) 3 (by omega) (by omega) ∅ root hgraph
    BsonT.bson_init hb (by simpa [BsonT.closed, BsonT.bson_init, docSize, spanSize] using hsize)
  rcases hrun with ⟨ds, hok, -, t, ht⟩ | ⟨e, herror, he⟩
  · exact absurd hcycle (ht.acyclic hgraph)
  · refine ⟨raiseAppendError 1 e, ?_, he.imp_left isRecursionError_of_detected⟩
    have htable : encodeTable E 3 h 1 root BsonT.bson_init =
        .error (raiseAppendError 1 e) := by
      simp only [encodeTable, hplain.getArrayLength, appendTableFull, herror, Outcome.mapError]
    simp only [newBSON, castBSON, tolstring, hplain.callToBSON, Outcome.ok_bind]
    change (encodeTable E 3 h 1 root BsonT.bson_init >>= _) = _
    rw [htable]
    rfl

/-- A tree that unfolds below the limits is encoded in full. -/
theorem newBSON_of_unfolds {E : Env} {h : Heap Host} {root : Ref} {t : Tree}
    (hplain : PlainTable h root) (ht : Unfolds E h (.table root) t) (hshallow : t.Shallow 3)
    (hkeys : Tree.FieldsNulFree t.children)
    (hsize : docSize (Tree.fieldValues t.children) ≤ BSON_GROW_LIMIT) :
    newBSON E h (.table root) = .ok (h, Tree.fieldValues t.children) := by
  have htable := ht.encodesTable hplain 3 (by decide) hshallow
  have hspec := castBSON_spec BSON_GROW_LIMIT 1 1 (by decide) (by decide) (v := .table root) rfl
    hplain.callToBSON htable
  rw [fits_new_iff] at hspec
  rcases hspec with ⟨-, hfits⟩ | ⟨ds, hok, -, -, hfull⟩
  · exact absurd ⟨hkeys, hsize⟩ hfits
  · rw [newBSON, hok, hfull ⟨hkeys, hsize⟩]

/-- `mongo.bson` on every value ends.  On a graph of plain tables, a cycle is an
error, one of the two recursion errors unless the encoder comes first to a leaf
that it cannot encode; without a cycle, with encodable leaves and below the
limits of the stack and the buffer, the result is the encoding of the tree
unfolding. -/
theorem newBSON_detects_cycles (E : Env) (h : Heap Host) :
    (∀ v, newBSON E h v ≠ .outOfFuel) ∧
    ∀ root, TableGraph E h root →
      (HasCycle E h root → spanSize E h root ≤ BSON_GROW_LIMIT →
        ∃ e, newBSON E h (.table root) = .error e ∧
          (IsRecursionError e ∨ LeafFirst E h (.table root))) ∧
      (¬ HasCycle E h root → LeavesEncodable E h root →
        ∃ t, Unfolds E h (.table root) t ∧
          (t.Shallow 3 → docSize (Tree.fieldValues t.children) ≤ BSON_GROW_LIMIT →
            newBSON E h (.table root) = .ok (h, Tree.fieldValues t.children))) := by
  refine ⟨newBSON_ne_outOfFuel E h, fun root hgraph => ⟨?_, ?_⟩⟩
  · intro hcycle hsize
    exact newBSON_of_cycle hgraph hsize hcycle
  · intro hacyclic hleaves
    obtain ⟨t, ht, hkeys⟩ := exists_unfolds hgraph hleaves hacyclic
    refine ⟨t, ht, fun hshallow hsize => ?_⟩
    refine newBSON_of_unfolds (hgraph root .refl).plain ht hshallow ?_ hsize
    cases t with
    | leaf v x => simp [Tree.children]
    | doc fs => exact (isNode_doc fs).keys.mp hkeys
    | array ts => exact (isNode_array ts).keys.mp hkeys

/-- A graph is known by a set of tables that its edges do not leave. -/
theorem reaches_mem {E : Env} {h : Heap Host} {root : Ref} (tables : List Ref)
    (hroot : root ∈ tables)
    (hclosed : ∀ r ∈ tables, ∀ f ∈ fieldsOf E h r, ∀ r', f.2 = .table r' → r' ∈ tables) {r : Ref}
    (hreach : ReflTransGen (Visits E h) root r) : r ∈ tables := by
  induction hreach with
  | refl => exact hroot
  | tail _ hvisit ih =>
    obtain ⟨key, hmem⟩ := hvisit
    exact hclosed _ ih _ hmem _ rfl

/-- A table whose field `a` is the table itself. -/
def selfHeap : Heap Host := [Table.empty.rawset (.str (bytes "a")) (.table 0)]

/-- A table with one table under two keys. -/
def sharedHeap : Heap Host :=
  [(Table.empty.rawset (.str (bytes "a")) (.table 1)).rawset (.str (bytes "b")) (.table 1),
    Table.empty.rawset (.str (bytes "x")) (.bool true)]

theorem fieldsOf_selfHeap : fieldsOf Env.bare selfHeap 0 = [(bytes "a", .table 0)] := by rfl

theorem fieldsOf_sharedHeap_root :
    fieldsOf Env.bare sharedHeap 0 = [(bytes "a", .table 1), (bytes "b", .table 1)] := by rfl

theorem fieldsOf_sharedHeap_child :
    fieldsOf Env.bare sharedHeap 1 = [(bytes "x", .bool true)] := by rfl

theorem tableGraph_selfHeap : TableGraph Env.bare selfHeap 0 := by
  intro r hreach
  obtain rfl : r = 0 := by
    simpa using reaches_mem [0] (by simp) (by simp [fieldsOf_selfHeap]) hreach
  refine ⟨⟨by decide, rfl⟩, fun _ e he => ?_, ?_⟩
  · obtain rfl : e = (.str (bytes "a"), .table 0) := List.mem_singleton.mp he
    exact ⟨_, rfl, by decide⟩
  · simp only [fieldsOf_selfHeap, List.mem_singleton, forall_eq]
    rfl

/-- The tree of the shared table. -/
def sharedTree : Tree := .doc [(bytes "x", .leaf (.bool true) (.bool true))]

theorem unfolds_sharedHeap :
    Unfolds Env.bare sharedHeap (.table 0) (.doc [(bytes "a", sharedTree), (bytes "b", sharedTree)]) := by
  have hleaf : Unfolds Env.bare sharedHeap (.bool true) (.leaf (.bool true) (.bool true)) :=
    .leaf ⟨rfl, fun _ _ => rfl⟩
  have hchild : Unfolds Env.bare sharedHeap (.table 1) sharedTree := by
    have hentries : (sharedHeap.get 1).entries = [(.str (bytes "x"), .bool true)] := rfl
    refine .doc ⟨by decide, rfl⟩ (by decide) ?_
    rw [hentries]
    exact .cons hleaf .nil
  have hentries : (sharedHeap.get 0).entries =
      [(.str (bytes "a"), .table 1), (.str (bytes "b"), .table 1)] := rfl
  refine .doc ⟨by decide, rfl⟩ (by decide) ?_
  rw [hentries]
  exact .cons hchild (.cons hchild .nil)

theorem reaches_sharedHeap {r : Ref} (hreach : ReflTransGen (Visits Env.bare sharedHeap) 0 r) :
    r = 0 ∨ r = 1 := by
  have hclosed : ∀ r ∈ [0, 1], ∀ f ∈ fieldsOf Env.bare sharedHeap r,
      ∀ r', f.2 = .table r' → r' ∈ [0, 1] := by
    intro r hr f hf r' hr'
    rcases List.mem_cons.mp hr with rfl | hr
    · rw [fieldsOf_sharedHeap_root] at hf
      rcases List.mem_cons.mp hf with rfl | hf
      · simp_all
      · obtain rfl := List.mem_singleton.mp hf
        simp_all
    · obtain rfl := List.mem_singleton.mp hr
      rw [fieldsOf_sharedHeap_child] at hf
      obtain rfl := List.mem_singleton.mp hf
      simp at hr'
  simpa using reaches_mem [0, 1] (by simp) hclosed hreach

theorem tableGraph_sharedHeap : TableGraph Env.bare sharedHeap 0 := by
  intro r hreach
  rcases reaches_sharedHeap hreach with rfl | rfl
  · refine ⟨⟨by decide, rfl⟩, fun _ e he => ?_, ?_⟩
    · rcases List.mem_cons.mp he with rfl | he
      · exact ⟨_, rfl, by decide⟩
      · obtain rfl : e = (.str (bytes "b"), .table 1) := List.mem_singleton.mp he
        exact ⟨_, rfl, by decide⟩
    · simp only [fieldsOf_sharedHeap_root, List.mem_cons, List.not_mem_nil, or_false,
        forall_eq_or_imp, forall_eq]
      exact ⟨rfl, rfl⟩
  · refine ⟨⟨by decide, rfl⟩, fun _ e he => ?_, ?_⟩
    · obtain rfl : e = (.str (bytes "x"), .bool true) := List.mem_singleton.mp he
      exact ⟨_, rfl, by decide⟩
    · simp only [fieldsOf_sharedHeap_child, List.mem_singleton, forall_eq]
      rfl

/-- The table that holds itself is refused, and the table with a shared field
is encoded with that field written twice. -/
theorem newBSON_detects_cycles_examples :
    (∃ e, newBSON Env.bare selfHeap (.table 0) = .error e ∧ IsRecursionError e) ∧
    newBSON Env.bare sharedHeap (.table 0) =
      .ok (sharedHeap, [(bytes "a", sharedTree.value), (bytes "b", sharedTree.value)]) := by
  constructor
  · have hleaves : LeavesEncodable Env.bare selfHeap 0 := by
      intro r hreach
      obtain rfl : r = 0 := by
        simpa using reaches_mem [0] (by simp) (by simp [fieldsOf_selfHeap]) hreach
      simp only [fieldsOf_selfHeap, List.mem_singleton, forall_eq]
      intro hne
      exact absurd rfl (hne 0)
    have hcycle : HasCycle Env.bare selfHeap 0 :=
      ⟨0, .refl, .single ⟨bytes "a", by simp [fieldsOf_selfHeap]⟩⟩
    have hsize : spanSize Env.bare selfHeap 0 ≤ BSON_GROW_LIMIT := by
      rw [spanSize, spanTable, if_neg (by simp), fieldsOf_selfHeap]
      simp only [spanFields, spanValue]
      rw [show MAXSTACK = 999 + 1 from rfl, spanTable, if_pos (by simp)]
      decide
    obtain ⟨e, herror, he⟩ :=
      ((newBSON_detects_cycles Env.bare selfHeap).2 0 tableGraph_selfHeap).1 hcycle hsize
    exact ⟨e, herror, he.resolve_right hleaves.not_leafFirst⟩
  · have hleaves : LeavesEncodable Env.bare sharedHeap 0 := by
      intro r hreach
      rcases reaches_sharedHeap hreach with rfl | rfl
      · simp only [fieldsOf_sharedHeap_root, List.mem_cons, List.not_mem_nil, or_false,
          forall_eq_or_imp, forall_eq]
        exact ⟨fun hne => absurd rfl (hne 1), fun hne => absurd rfl (hne 1)⟩
      · simp only [fieldsOf_sharedHeap_child, List.mem_singleton, forall_eq]
        exact fun _ => rfl
    obtain ⟨t, ht, hencode⟩ :=
      ((newBSON_detects_cycles Env.bare sharedHeap).2 0 tableGraph_sharedHeap).2
        (unfolds_sharedHeap.acyclic tableGraph_sharedHeap) hleaves
    obtain rfl := ht.unique unfolds_sharedHeap
    have hshallow : (Tree.doc [(bytes "a", sharedTree), (bytes "b", sharedTree)]).Shallow 3 := by
      simp [Tree.Shallow, Tree.FieldsShallow, sharedTree, MAXSTACK]
    simpa [Tree.children] using hencode hshallow (by decide)

/-- A table with a function under `f` and the table itself under `a`. -/
def cyclicFunctionHeap : Heap Host :=
  [(Table.empty.rawset (.str (bytes "f")) (.host (.luafunc 0))).rawset (.str (bytes "a")) (.table 0)]

theorem fieldsOf_cyclicFunctionHeap :
    fieldsOf Env.bare cyclicFunctionHeap 0 = [(bytes "f", .host (.luafunc 0)), (bytes "a", .table 0)] := by
  rfl

theorem tableGraph_cyclicFunctionHeap : TableGraph Env.bare cyclicFunctionHeap 0 := by
  intro r hreach
  have hclosed : ∀ r ∈ [0], ∀ f ∈ fieldsOf Env.bare cyclicFunctionHeap r,
      ∀ r', f.2 = .table r' → r' ∈ [0] := by
    intro r hr f hf r' hr'
    obtain rfl := List.mem_singleton.mp hr
    rw [fieldsOf_cyclicFunctionHeap] at hf
    rcases List.mem_cons.mp hf with rfl | hf
    · simp at hr'
    · obtain rfl := List.mem_singleton.mp hf
      simpa [eq_comm] using hr'
  obtain rfl : r = 0 := by simpa using reaches_mem [0] (by simp) hclosed hreach
  refine ⟨⟨by decide, rfl⟩, fun _ e he => ?_, ?_⟩
  · rcases List.mem_cons.mp he with rfl | he
    · exact ⟨_, rfl, by decide⟩
    · obtain rfl : e = (.str (bytes "a"), .table 0) := List.mem_singleton.mp he
      exact ⟨_, rfl, by decide⟩
  · simp only [fieldsOf_cyclicFunctionHeap, List.mem_cons, List.not_mem_nil, or_false,
      forall_eq_or_imp, forall_eq]
    exact ⟨rfl, rfl⟩

/-- The function is met before the table is met again, and the error speaks of
the function. -/
theorem function_hides_the_cycle :
    ¬ ∀ (E : Env) (h : Heap Host) (root : Ref), TableGraph E h root → HasCycle E h root →
      spanSize E h root ≤ BSON_GROW_LIMIT →
        ∃ e, newBSON E h (.table root) = .error e ∧ IsRecursionError e := by
  intro h
  have hcycle : HasCycle Env.bare cyclicFunctionHeap 0 :=
    ⟨0, .refl, .single ⟨bytes "a", by simp [fieldsOf_cyclicFunctionHeap]⟩⟩
  have hsize : spanSize Env.bare cyclicFunctionHeap 0 ≤ BSON_GROW_LIMIT := by
    rw [spanSize, spanTable, if_neg (by simp), fieldsOf_cyclicFunctionHeap]
    simp only [spanFields, spanValue]
    rw [show MAXSTACK = 999 + 1 from rfl, spanTable, if_pos (by simp)]
    decide
  obtain ⟨e, herror, hrecursion⟩ := h _ _ 0 tableGraph_cyclicFunctionHeap hcycle hsize
  have hfunction : newBSON Env.bare cyclicFunctionHeap (.table 0) =
      .error (.argument 1 (bytes "[\"f\"] => function unexpected")) := by
    rfl
  obtain rfl := Outcome.error.inj (hfunction.symm.trans herror)
  obtain ⟨outer, htext | htext⟩ := hrecursion
  · have hsuffix : bytes "circular reference detected" <:+ bytes "[\"f\"] => function unexpected" :=
      ⟨outer, (LuaError.argument.inj htext).2.symm⟩
    revert hsuffix
    decide
  · have hsuffix : bytes "recursion detected" <:+ bytes "[\"f\"] => function unexpected" :=
      ⟨outer, (LuaError.argument.inj htext).2.symm⟩
    revert hsuffix
    decide

end Vklib.Mongo
