import Vklib.Base.CString
import Vklib.Base.Pieces
import Mathlib.Data.List.Infix
import Mathlib.Data.List.Nodup

/-!
# File systems

A file system is a finite tree of regular files, directories, symbolic links and
other objects such as FIFOs and sockets.  A location is the list of names that
leads from an object up to the root, so the objects below a location are those
whose locations end in it.

`FS` carries the facts that make the table of its objects a tree: locations
occur once, everything has a directory above it, and names are names.  The
operations take an object away with what is below it, add an object to a
directory, and replace the content of a file, and each comes with the one lemma
that says what is where afterwards.
-/

namespace Vklib.Posix

/-- A directory entry's name. -/
abbrev Name := Bytes

/-- Where an object is: its name, the name of its directory, and so on up to
the root. -/
abbrev Loc := List Name

/-- What a symbolic link holds: a C string. -/
abbrev Target := { text : Bytes // 0 ∉ text }

/-- An object.  Nobody is at the other end of a FIFO, and the others are those
that cannot be opened, such as sockets. -/
inductive Node where
  | file (content : Bytes)
  | dir
  | link (target : Target)
  | fifo
  | other
  deriving DecidableEq, Repr

namespace Node

/-- `S_ISREG`. -/
def isFile : Node → Bool
  | .file _ => true
  | _ => false

end Node

/-- What may name an entry: bytes other than slash and NUL, and not one of the
two entries that every directory has. -/
def IsName (name : Name) : Prop :=
  name ≠ [] ∧ 47 ∉ name ∧ 0 ∉ name ∧ name ≠ bytes "." ∧ name ≠ bytes ".."

instance : DecidablePred IsName := fun _ => inferInstanceAs (Decidable (_ ∧ _))

/-- A file system and the working directory of a process.  A process whose
working directory was removed has none. -/
structure FS where
  nodes : List (Loc × Node)
  cwd : Option Loc
  nodup : (nodes.map Prod.fst).Nodup
  parents : ∀ e ∈ nodes, e.1.tail = [] ∨ (e.1.tail, Node.dir) ∈ nodes
  named : ∀ e ∈ nodes, ∃ name ∈ e.1.head?, IsName name

namespace FS

/-- The object at a location.  The root is a directory. -/
def lookup (s : FS) (loc : Loc) : Option Node :=
  if loc = [] then some .dir else s.nodes.lookup loc

@[simp] theorem lookup_root (s : FS) : s.lookup [] = some .dir := by simp [lookup]

/-! ## The table of objects -/

theorem lookup_eq_some_of_mem {nodes : List (Loc × Node)} (hnodup : (nodes.map Prod.fst).Nodup)
    {loc : Loc} {node : Node} (hmem : (loc, node) ∈ nodes) : nodes.lookup loc = some node := by
  induction nodes with
  | nil => simp at hmem
  | cons e rest ih =>
    simp only [List.map_cons, List.nodup_cons] at hnodup
    rw [List.lookup_cons]
    rcases List.mem_cons.mp hmem with heq | hrest
    · simp [← heq]
    · have hne : loc ≠ e.1 := by
        intro h
        apply hnodup.1
        rw [← h]
        exact List.mem_map.mpr ⟨_, hrest, rfl⟩
      rw [show (loc == e.1) = false from by simpa using hne]
      exact ih hnodup.2 hrest

theorem mem_of_lookup_eq_some {nodes : List (Loc × Node)} {loc : Loc} {node : Node}
    (h : nodes.lookup loc = some node) : (loc, node) ∈ nodes := by
  induction nodes with
  | nil => simp at h
  | cons e rest ih =>
    rw [List.lookup_cons] at h
    by_cases he : loc = e.1
    · subst he
      simp only [beq_self_eq_true, Option.some.injEq] at h
      simp [← h]
    · rw [show (loc == e.1) = false from by simpa using he] at h
      exact List.mem_cons_of_mem _ (ih h)

theorem mem_nodes_iff (s : FS) {loc : Loc} (hloc : loc ≠ []) {node : Node} :
    (loc, node) ∈ s.nodes ↔ s.lookup loc = some node := by
  rw [lookup, if_neg hloc]
  exact ⟨lookup_eq_some_of_mem s.nodup, mem_of_lookup_eq_some⟩

/-- Two tables with the same entries have the same objects. -/
theorem lookup_eq_of_mem_iff {nodes nodes' : List (Loc × Node)}
    (hnodup : (nodes.map Prod.fst).Nodup) (hnodup' : (nodes'.map Prod.fst).Nodup) {loc : Loc}
    (h : ∀ node, (loc, node) ∈ nodes' ↔ (loc, node) ∈ nodes) :
    nodes'.lookup loc = nodes.lookup loc := by
  ext node
  constructor
  · intro hl
    exact lookup_eq_some_of_mem hnodup ((h node).mp (mem_of_lookup_eq_some hl))
  · intro hl
    exact lookup_eq_some_of_mem hnodup' ((h node).mpr (mem_of_lookup_eq_some hl))

/-- An object lies in a directory. -/
theorem lookup_parent {s : FS} {name : Name} {dir : Loc} {node : Node}
    (h : s.lookup (name :: dir) = some node) : s.lookup dir = some .dir := by
  have hmem := (s.mem_nodes_iff (by simp)).mpr h
  rcases s.parents _ hmem with hroot | hdir
  · rw [show dir = [] from hroot]
    simp
  · by_cases hempty : dir = []
    · simp [hempty]
    · exact (s.mem_nodes_iff hempty).mp hdir

theorem isName_of_lookup {s : FS} {name : Name} {dir : Loc} {node : Node}
    (h : s.lookup (name :: dir) = some node) : IsName name := by
  have hmem := (s.mem_nodes_iff (by simp)).mpr h
  obtain ⟨name', hname, hvalid⟩ := s.named _ hmem
  simp only [List.head?_cons, Option.mem_some_iff] at hname
  rw [hname]
  exact hvalid

/-- Below an object that is not a directory there is nothing. -/
theorem eq_of_suffix {s : FS} {loc loc' : Loc} {node node' : Node} (hsuffix : loc <:+ loc')
    (h : s.lookup loc = some node) (hnode : node ≠ .dir) (h' : s.lookup loc' = some node') :
    loc' = loc := by
  induction loc' generalizing node' with
  | nil => exact (List.suffix_nil.mp hsuffix).symm
  | cons name dir ih =>
    rcases List.suffix_cons_iff.mp hsuffix with heq | hbelow
    · exact heq.symm
    · have hparent := lookup_parent h'
      have hdir := ih hbelow hparent
      rw [hdir, h] at hparent
      exact absurd (Option.some.inj hparent) hnode

/-- What is below a location has the entry of that location above it. -/
theorem lookup_of_suffix {s : FS} {loc loc' : Loc} {node' : Node} (hsuffix : loc <:+ loc')
    (h' : s.lookup loc' = some node') : ∃ node, s.lookup loc = some node := by
  induction loc' generalizing node' with
  | nil => exact ⟨node', by rw [List.suffix_nil.mp hsuffix]; exact h'⟩
  | cons name dir ih =>
    rcases List.suffix_cons_iff.mp hsuffix with heq | hbelow
    · exact ⟨node', heq ▸ h'⟩
    · exact ih hbelow (lookup_parent h')

/-! ## Entries of a directory -/

/-- The name at a location when it lies in the directory. -/
def nameIn (dir : Loc) : Loc → Option Name
  | [] => none
  | name :: d => if d = dir then some name else none

/-- The names in a directory, without the two that every directory has. -/
def entries (s : FS) (dir : Loc) : List Name := (s.nodes.map Prod.fst).filterMap (nameIn dir)

theorem nameIn_eq_some {dir loc : Loc} {name : Name} :
    nameIn dir loc = some name ↔ loc = name :: dir := by
  cases loc with
  | nil => simp [nameIn]
  | cons name' d =>
    simp only [nameIn, List.cons.injEq]
    by_cases hd : d = dir
    · simp [hd]
    · simp [hd]

/-- The entries of a directory are the objects in it. -/
theorem mem_entries {s : FS} {dir : Loc} {name : Name} :
    name ∈ s.entries dir ↔ ∃ node, s.lookup (name :: dir) = some node := by
  simp only [entries, List.mem_filterMap, nameIn_eq_some]
  constructor
  · rintro ⟨loc, hmem, rfl⟩
    obtain ⟨⟨loc, node⟩, he, rfl⟩ := List.mem_map.mp hmem
    exact ⟨node, (s.mem_nodes_iff (by simp)).mp he⟩
  · rintro ⟨node, h⟩
    have hmem := (s.mem_nodes_iff (by simp)).mpr h
    exact ⟨_, List.mem_map.mpr ⟨_, hmem, rfl⟩, rfl⟩

/-- No name occurs twice. -/
theorem nodup_entries (s : FS) (dir : Loc) : (s.entries dir).Nodup := by
  apply s.nodup.filterMap
  intro loc loc' name h h'
  rw [nameIn_eq_some.mp h, nameIn_eq_some.mp h']

theorem isName_of_mem_entries {s : FS} {dir : Loc} {name : Name} (h : name ∈ s.entries dir) :
    IsName name := by
  obtain ⟨node, hnode⟩ := mem_entries.mp h
  exact isName_of_lookup hnode

/-! ## Taking an object away -/

/-- Take the object at a location away, with everything below it. -/
def remove (s : FS) (loc : Loc) : FS where
  nodes := s.nodes.filter (fun e => ¬ loc <:+ e.1)
  cwd := s.cwd.filter (fun dir => ¬ loc <:+ dir)
  nodup := s.nodup.sublist (List.filter_sublist.map _)
  parents := by
    intro e he
    have hmem := List.mem_filter.mp he
    rcases s.parents e hmem.1 with hroot | hdir
    · exact Or.inl hroot
    · refine Or.inr (List.mem_filter.mpr ⟨hdir, ?_⟩)
      have hnot : ¬ loc <:+ e.1 := by simpa using hmem.2
      have htail : ¬ loc <:+ e.1.tail := fun h => hnot (h.trans (List.tail_suffix e.1))
      simpa using htail
  named := fun e he => s.named e (List.mem_filter.mp he).1

theorem lookup_remove (s : FS) {loc : Loc} (hloc : loc ≠ []) (l : Loc) :
    (s.remove loc).lookup l = if loc <:+ l then none else s.lookup l := by
  by_cases hroot : l = []
  · subst hroot
    simp [hloc]
  · by_cases hbelow : loc <:+ l
    · rw [if_pos hbelow]
      by_contra hne
      obtain ⟨node, hnode⟩ := Option.ne_none_iff_exists'.mp hne
      have hmem := ((s.remove loc).mem_nodes_iff hroot).mpr hnode
      have hnot := (List.mem_filter.mp hmem).2
      simp only [decide_not, Bool.not_eq_true', decide_eq_false_iff_not] at hnot
      exact hnot hbelow
    · rw [if_neg hbelow, lookup, lookup, if_neg hroot, if_neg hroot]
      apply lookup_eq_of_mem_iff s.nodup (s.remove loc).nodup
      intro node
      simp [remove, hbelow]

/-! ## Adding an object -/

/-- Add an object to a directory, under a name that is free. -/
def add (s : FS) (dir : Loc) (name : Name) (node : Node) : FS :=
  if h : IsName name ∧ s.lookup dir = some .dir ∧ s.lookup (name :: dir) = none then
    { nodes := (name :: dir, node) :: s.nodes
      cwd := s.cwd
      nodup := by
        rw [List.map_cons, List.nodup_cons]
        refine ⟨?_, s.nodup⟩
        intro hmem
        obtain ⟨⟨loc, node'⟩, he, rfl⟩ := List.mem_map.mp hmem
        have hsome := (s.mem_nodes_iff (by simp)).mp he
        simp [h.2.2] at hsome
      parents := by
        intro e he
        rcases List.mem_cons.mp he with rfl | hold
        · by_cases hdir : dir = []
          · exact Or.inl hdir
          · exact Or.inr (List.mem_cons_of_mem _ ((s.mem_nodes_iff hdir).mpr h.2.1))
        · rcases s.parents e hold with hroot | hparent
          · exact Or.inl hroot
          · exact Or.inr (List.mem_cons_of_mem _ hparent)
      named := by
        intro e he
        rcases List.mem_cons.mp he with rfl | hold
        · exact ⟨name, rfl, h.1⟩
        · exact s.named e hold }
  else s

theorem lookup_add {s : FS} {dir : Loc} {name : Name} (hname : IsName name)
    (hdir : s.lookup dir = some .dir) (hfree : s.lookup (name :: dir) = none) (node : Node)
    (l : Loc) :
    (s.add dir name node).lookup l = if l = name :: dir then some node else s.lookup l := by
  rw [add, dif_pos ⟨hname, hdir, hfree⟩]
  by_cases hroot : l = []
  · subst hroot
    simp
  · by_cases hl : l = name :: dir
    · subst hl
      simp [lookup]
    · simp only [lookup, if_neg hroot, if_neg hl, List.lookup_cons,
        show (l == name :: dir) = false from by simpa using hl]

/-- What is there stays. -/
theorem lookup_add_of_some {s : FS} {loc : Loc} {old : Node} (h : s.lookup loc = some old)
    (dir : Loc) (name : Name) (node : Node) : (s.add dir name node).lookup loc = some old := by
  by_cases hfree : IsName name ∧ s.lookup dir = some .dir ∧ s.lookup (name :: dir) = none
  · rw [lookup_add hfree.1 hfree.2.1 hfree.2.2, if_neg ?_, h]
    intro heq
    rw [heq, hfree.2.2] at h
    simp at h
  · rw [add, dif_neg hfree, h]

@[simp] theorem cwd_add (s : FS) (dir : Loc) (name : Name) (node : Node) :
    (s.add dir name node).cwd = s.cwd := by
  unfold add
  split <;> rfl

/-! ## Replacing the content of a file -/

/-- The object of an entry after the file at `loc` got a new content. -/
def rewritten (loc : Loc) (content : Bytes) (e : Loc × Node) : Loc × Node :=
  (e.1, if e.1 = loc ∧ e.2.isFile then .file content else e.2)

/-- Replace the content of the file at a location. -/
def write (s : FS) (loc : Loc) (content : Bytes) : FS where
  nodes := s.nodes.map (rewritten loc content)
  cwd := s.cwd
  nodup := by
    rw [List.map_map, show Prod.fst ∘ rewritten loc content = Prod.fst from rfl]
    exact s.nodup
  parents := by
    intro e he
    obtain ⟨e', hmem, rfl⟩ := List.mem_map.mp he
    rcases s.parents e' hmem with hroot | hdir
    · exact Or.inl hroot
    · exact Or.inr (List.mem_map.mpr ⟨_, hdir, by simp [rewritten, Node.isFile]⟩)
  named := by
    intro e he
    obtain ⟨e', hmem, rfl⟩ := List.mem_map.mp he
    exact s.named e' hmem

theorem lookup_write (s : FS) {loc : Loc} {old : Bytes} (hfile : s.lookup loc = some (.file old))
    (content : Bytes) (l : Loc) :
    (s.write loc content).lookup l = if l = loc then some (.file content) else s.lookup l := by
  have hloc : loc ≠ [] := by
    intro h
    simp [h] at hfile
  by_cases hroot : l = []
  · subst hroot
    simp [Ne.symm hloc]
  · by_cases hl : l = loc
    · subst hl
      rw [if_pos rfl]
      apply ((s.write l content).mem_nodes_iff hroot).mp
      exact List.mem_map.mpr ⟨_, (s.mem_nodes_iff hroot).mpr hfile, by simp [rewritten, Node.isFile]⟩
    · rw [if_neg hl, lookup, lookup, if_neg hroot, if_neg hroot]
      apply lookup_eq_of_mem_iff s.nodup (s.write loc content).nodup
      intro node
      show (l, node) ∈ s.nodes.map (rewritten loc content) ↔ (l, node) ∈ s.nodes
      constructor
      · intro hmem
        obtain ⟨⟨l', node'⟩, he, heq⟩ := List.mem_map.mp hmem
        simp only [rewritten, Prod.mk.injEq] at heq
        obtain ⟨rfl, rfl⟩ := heq
        simpa [hl] using he
      · intro hmem
        exact List.mem_map.mpr ⟨_, hmem, by simp [rewritten, hl]⟩

@[simp] theorem cwd_write (s : FS) (loc : Loc) (content : Bytes) :
    (s.write loc content).cwd = s.cwd := rfl

/-- The file system with nothing but its root. -/
def bare : FS where
  nodes := []
  cwd := some []
  nodup := by simp
  parents := by simp
  named := by simp

end FS

end Vklib.Posix
