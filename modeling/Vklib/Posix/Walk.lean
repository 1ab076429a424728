import Vklib.Posix.FileSystem

/-!
# Path resolution

A path is a string of names between slashes.  `walk` follows it from a
directory, name by name and through symbolic links, of which it follows a
bounded number.  It ends at an object, or at the place of an object when only
the last name is missing.

`walk_append` takes a walk apart at any name.  A walk that ends at an object
ends there in every larger file system (`walk_mono`), and a walk that ends at a
missing object ends at that object once it is there (`walk_of_differsAt`).
-/

namespace Vklib.Posix

/-- The errors that the model tells apart. -/
inductive Errno where
  | ENOENT | ENOTDIR | EISDIR | EEXIST | ENOTEMPTY | EINVAL | EBUSY | ELOOP | ENAMETOOLONG | ENXIO
  | other (code : Nat)
  deriving DecidableEq, Repr

/-- The path starts at the root. -/
def isAbsolute (path : Bytes) : Bool := path.head? == some 47

/-- The path ends in a slash. -/
def endsInSlash (path : Bytes) : Bool := path.getLast? == some 47

/-- The names of a path. -/
def names (path : Bytes) : List Name := pieces (· == 47) path

/-- The names that a walk along the path goes through.  A slash at the end
stands for the directory itself. -/
def steps (path : Bytes) : List Name :=
  names path ++ if endsInSlash path then [bytes "."] else []

example : steps (bytes "/usr//lib/") = [bytes "usr", bytes "lib", bytes "."] := by decide

/-- A longer path has one more name. -/
theorem names_append {name : Name} (hname : IsName name) (path : Bytes) :
    names (path ++ 47 :: name) = names path ++ [name] := by
  unfold names
  rw [pieces_append_cons _ _ _ (by simp), pieces_eq_singleton hname.1]
  intro c hc
  have hne : c ≠ 47 := fun h => hname.2.1 (h ▸ hc)
  simpa using hne

theorem endsInSlash_append {name : Name} (hname : IsName name) (path : Bytes) :
    endsInSlash (path ++ 47 :: name) = false := by
  have hlast : (path ++ 47 :: name).getLast? = name.getLast? := by
    cases h : name.getLast? with
    | none => exact absurd (List.getLast?_eq_none_iff.mp h) hname.1
    | some c =>
      rw [List.getLast?_append, List.getLast?_cons_of_ne_nil hname.1, h]
      rfl
  rw [endsInSlash, hlast]
  have hne : name.getLast? ≠ some 47 := by
    intro h
    exact hname.2.1 (List.mem_of_getLast? h)
  simpa using hne

/-- The names of a C string are names, apart from the two that every directory
has. -/
theorem isName_of_mem_steps {path : Bytes} (hpath : NulFree path) {name : Name}
    (h : name ∈ steps path) (hdot : name ≠ bytes ".") (hdots : name ≠ bytes "..") :
    IsName name := by
  have hmem : name ∈ names path := by
    rcases List.mem_append.mp h with hnames | hlast
    · exact hnames
    · by_cases hslash : endsInSlash path = true
      · exact absurd (by simpa [hslash] using hlast) hdot
      · simp [hslash] at hlast
  obtain ⟨hne, hchars⟩ := mem_pieces hmem
  refine ⟨hne, ?_, ?_, hdot, hdots⟩
  · intro hslash
    simpa using (hchars 47 hslash).2
  · intro hnul
    exact hpath (hchars 0 hnul).1

/-- A path without names is slashes. -/
theorem endsInSlash_of_names_eq_nil {path : Bytes} (hpath : path ≠ []) (h : names path = []) :
    endsInSlash path = true := by
  obtain ⟨c, hc⟩ := List.getLast?_isSome.mpr hpath |> Option.isSome_iff_exists.mp
  have hslash := forall_of_pieces_eq_nil h c (List.mem_of_getLast? hc)
  rw [endsInSlash, hc]
  simpa using hslash

theorem steps_append {name : Name} (hname : IsName name) (path : Bytes) :
    steps (path ++ 47 :: name) = names path ++ [name] := by
  simp [steps, names_append hname, endsInSlash_append hname]

/-- Where a walk ends: at an object, with some links left to follow, or at the
free place of the last name. -/
inductive Reached where
  | object (loc : Loc) (budget : Nat)
  | missing (loc : Loc)
  deriving DecidableEq, Repr

/-- Walk along names, with `budget` links left.  `jump` continues at the target
of a link. -/
def walkNames (s : FS) (jump : Loc → List Name → Except Errno Reached) (budget : Nat) :
    Loc → List Name → Except Errno Reached
  | cur, [] => .ok (.object cur budget)
  | cur, name :: rest =>
    match s.lookup cur with
    | none => .error .ENOENT
    | some .dir =>
      if name = bytes "." then walkNames s jump budget cur rest
      else if name = bytes ".." then walkNames s jump budget cur.tail rest
      else
        match s.lookup (name :: cur) with
        | none => if rest = [] then .ok (.missing (name :: cur)) else .error .ENOENT
        | some (.link target) =>
          if target.1 = [] then .error .ENOENT
          else jump (if isAbsolute target.1 then [] else cur) (steps target.1 ++ rest)
        | some _ => walkNames s jump budget (name :: cur) rest
    | some _ => .error .ENOTDIR

/-- Walk along names from a location, through at most `budget` links. -/
def walk (s : FS) : Nat → Loc → List Name → Except Errno Reached
  | 0 => walkNames s (fun _ _ => .error .ELOOP) 0
  | budget + 1 => walkNames s (walk s budget) (budget + 1)

/-- What a walk does at a link. -/
def jump (s : FS) : Nat → Loc → List Name → Except Errno Reached
  | 0, _, _ => .error .ELOOP
  | budget + 1, cur, rest => walk s budget cur rest

theorem walk_eq (s : FS) (budget : Nat) : walk s budget = walkNames s (jump s budget) budget := by
  cases budget with
  | zero => rfl
  | succ budget => rfl

/-! ## Steps of a walk -/

@[simp] theorem walk_nil (s : FS) (budget : Nat) (cur : Loc) :
    walk s budget cur [] = .ok (.object cur budget) := by
  rw [walk_eq]
  rfl

/-- A walk through a directory, by what is there under the name. -/
theorem walk_cons {s : FS} {budget : Nat} {cur : Loc} (hcur : s.lookup cur = some .dir)
    (name : Name) (rest : List Name) :
    walk s budget cur (name :: rest) =
      if name = bytes "." then walk s budget cur rest
      else if name = bytes ".." then walk s budget cur.tail rest
      else
        match s.lookup (name :: cur) with
        | none => if rest = [] then .ok (.missing (name :: cur)) else .error .ENOENT
        | some (.link target) =>
          if target.1 = [] then .error .ENOENT
          else jump s budget (if isAbsolute target.1 then [] else cur) (steps target.1 ++ rest)
        | some _ => walk s budget (name :: cur) rest := by
  rw [walk_eq, walkNames, hcur]

/-- A walk goes on from directories only. -/
theorem walk_cons_of_not_dir {s : FS} {cur : Loc} (hcur : s.lookup cur ≠ some .dir) :
    ∃ e, ∀ budget name rest, walk s budget cur (name :: rest) = .error e := by
  cases hnode : s.lookup cur with
  | none =>
    refine ⟨.ENOENT, fun budget name rest => ?_⟩
    rw [walk_eq, walkNames, hnode]
  | some node =>
    refine ⟨.ENOTDIR, fun budget name rest => ?_⟩
    cases node with
    | dir => exact absurd hnode hcur
    | _ => rw [walk_eq, walkNames, hnode]

theorem lookup_of_walk {s : FS} {budget : Nat} {cur : Loc} {name : Name} {rest : List Name}
    {r : Reached} (h : walk s budget cur (name :: rest) = .ok r) : s.lookup cur = some .dir := by
  by_contra hcur
  obtain ⟨e, he⟩ := walk_cons_of_not_dir hcur
  rw [he] at h
  simp at h

/-- Go on from where a walk ended. -/
def Reached.continue (s : FS) (rest : List Name) : Reached → Except Errno Reached
  | .object loc budget => walk s budget loc rest
  | .missing loc => if rest = [] then .ok (.missing loc) else .error .ENOENT

/-- A walk along two lists of names is a walk along the second from the end of
a walk along the first. -/
theorem walk_append (s : FS) (budget : Nat) (cur : Loc) (xs ys : List Name) :
    walk s budget cur (xs ++ ys) = (walk s budget cur xs).bind (Reached.continue s ys) := by
  induction budget using Nat.strong_induction_on generalizing cur xs with
  | _ budget ihb =>
    have hjump : ∀ cur xs, jump s budget cur (xs ++ ys) =
        (jump s budget cur xs).bind (Reached.continue s ys) := by
      intro cur xs
      cases budget with
      | zero => rfl
      | succ b => exact ihb b (by omega) cur xs
    induction xs generalizing cur with
    | nil => simp [Except.bind, Reached.continue]
    | cons name rest ih =>
      by_cases hcur : s.lookup cur = some .dir
      · rw [List.cons_append, walk_cons hcur, walk_cons hcur]
        by_cases hdot : name = bytes "."
        · rw [if_pos hdot, if_pos hdot]
          exact ih cur
        by_cases hdots : name = bytes ".."
        · rw [if_neg hdot, if_pos hdots, if_neg hdot, if_pos hdots]
          exact ih cur.tail
        rw [if_neg hdot, if_neg hdots, if_neg hdot, if_neg hdots]
        cases hnode : s.lookup (name :: cur) with
        | none =>
          by_cases hrest : rest = []
          · by_cases hys : ys = []
            · simp [hrest, hys, Except.bind, Reached.continue]
            · simp [hrest, hys, Except.bind, Reached.continue]
          · simp [hrest, Except.bind]
        | some node =>
          cases node with
          | link target =>
            by_cases htarget : target.1 = []
            · simp [htarget, Except.bind]
            · simp only [if_neg htarget]
              rw [← List.append_assoc]
              exact hjump _ _
          | _ => exact ih (name :: cur)
      · obtain ⟨e, he⟩ := walk_cons_of_not_dir hcur
        rw [List.cons_append, he, he]
        rfl

/-- A walk ends at the free place of a name in a directory. -/
theorem walk_missing {s : FS} {budget : Nat} {cur : Loc} {xs : List Name}
    (hxs : ∀ x ∈ xs, x ≠ bytes "." → x ≠ bytes ".." → IsName x) {loc : Loc}
    (h : walk s budget cur xs = .ok (.missing loc)) :
    ∃ name dir, loc = name :: dir ∧ IsName name ∧ s.lookup dir = some .dir ∧
      s.lookup (name :: dir) = none := by
  induction budget using Nat.strong_induction_on generalizing cur xs with
  | _ budget ihb =>
    induction xs generalizing cur with
    | nil => simp at h
    | cons name rest ih =>
      have ih := fun cur => @ih cur fun x hx => hxs x (List.mem_cons_of_mem _ hx)
      have hcur := lookup_of_walk h
      rw [walk_cons hcur] at h
      by_cases hdot : name = bytes "."
      · rw [if_pos hdot] at h
        exact ih _ h
      by_cases hdots : name = bytes ".."
      · rw [if_neg hdot, if_pos hdots] at h
        exact ih _ h
      rw [if_neg hdot, if_neg hdots] at h
      cases hnode : s.lookup (name :: cur) with
      | none =>
        simp only [hnode] at h
        by_cases hrest : rest = []
        · rw [if_pos hrest, Except.ok.injEq, Reached.missing.injEq] at h
          exact ⟨name, cur, h.symm, hxs name (List.mem_cons_self ..) hdot hdots, hcur, hnode⟩
        · simp [hrest] at h
      | some node =>
        simp only [hnode] at h
        cases node with
        | link target =>
          by_cases htarget : target.1 = []
          · simp [htarget] at h
          · simp only [if_neg htarget] at h
            cases budget with
            | zero => simp [jump] at h
            | succ b =>
              apply ihb b (by omega) _ h
              intro x hx hdot' hdots'
              rcases List.mem_append.mp hx with hlink | hafter
              · exact isName_of_mem_steps target.2 hlink hdot' hdots'
              · exact hxs x (List.mem_cons_of_mem _ hafter) hdot' hdots'
        | _ => exact ih _ h

/-! ## Walks in two file systems -/

/-- The first file system has part of the objects of the second. -/
def PartOf (s' s : FS) : Prop := ∀ loc, s'.lookup loc = none ∨ s'.lookup loc = s.lookup loc

theorem PartOf.lookup {s' s : FS} (hpart : PartOf s' s) {loc : Loc} {node : Node}
    (h : s'.lookup loc = some node) : s.lookup loc = some node := by
  rcases hpart loc with hnone | heq
  · simp [hnone] at h
  · rw [← heq]
    exact h

/-- A walk that ends at an object ends there in a larger file system. -/
theorem walk_mono {s' s : FS} (hpart : PartOf s' s) {budget : Nat} {cur : Loc} {xs : List Name}
    {loc : Loc} {left : Nat} (h : walk s' budget cur xs = .ok (.object loc left)) :
    walk s budget cur xs = .ok (.object loc left) := by
  induction budget using Nat.strong_induction_on generalizing cur xs with
  | _ budget ihb =>
    have hjump : ∀ cur xs, jump s' budget cur xs = .ok (.object loc left) →
        jump s budget cur xs = .ok (.object loc left) := by
      intro cur xs h
      cases budget with
      | zero => simp [jump] at h
      | succ b => exact ihb b (by omega) h
    induction xs generalizing cur with
    | nil => simpa using h
    | cons name rest ih =>
      have hcur' := lookup_of_walk h
      have hcur := hpart.lookup hcur'
      rw [walk_cons hcur'] at h
      rw [walk_cons hcur]
      by_cases hdot : name = bytes "."
      · rw [if_pos hdot] at h ⊢
        exact ih h
      by_cases hdots : name = bytes ".."
      · rw [if_neg hdot, if_pos hdots] at h ⊢
        exact ih h
      rw [if_neg hdot, if_neg hdots] at h ⊢
      cases hnode' : s'.lookup (name :: cur) with
      | none =>
        simp only [hnode'] at h
        split at h <;> simp at h
      | some node =>
        simp only [hnode'] at h
        simp only [hpart.lookup hnode']
        cases node with
        | link target =>
          by_cases htarget : target.1 = []
          · simp [htarget] at h
          · simp only [if_neg htarget] at h ⊢
            exact hjump _ _ h
        | _ => exact ih h

/-- The second file system has one more object, or another object in the same
place, and neither of the two is a directory or a link. -/
structure DiffersAt (loc : Loc) (s s' : FS) : Prop where
  same : ∀ l, l ≠ loc → s'.lookup l = s.lookup l
  before : ∀ node, s.lookup loc = some node → node ≠ .dir ∧ ∀ target, node ≠ .link target
  after : ∃ node, s'.lookup loc = some node ∧ node ≠ .dir ∧ ∀ target, node ≠ .link target

/-- A walk that ends at an object, or at its free place, ends at the object that
is there afterwards. -/
theorem walk_of_differsAt {s s' : FS} {loc : Loc} (hdiff : DiffersAt loc s s') {budget : Nat}
    {cur : Loc} {xs : List Name} {r : Reached}
    (hr : r = .missing loc ∨ ∃ left, r = .object loc left)
    (h : walk s budget cur xs = .ok r) : ∃ left, walk s' budget cur xs = .ok (.object loc left) := by
  induction budget using Nat.strong_induction_on generalizing cur xs with
  | _ budget ihb =>
    have hjump : ∀ cur xs, jump s budget cur xs = .ok r →
        ∃ left, jump s' budget cur xs = .ok (.object loc left) := by
      intro cur xs h
      cases budget with
      | zero => simp [jump] at h
      | succ b => exact ihb b (by omega) h
    induction xs generalizing cur with
    | nil =>
      rcases hr with rfl | ⟨left, rfl⟩
      · simp at h
      · simp only [walk_nil, Except.ok.injEq, Reached.object.injEq] at h
        exact ⟨budget, by simp [h.1]⟩
    | cons name rest ih =>
      have hcur := lookup_of_walk h
      have hcur' : s'.lookup cur = some .dir := by
        rw [hdiff.same cur ?_, hcur]
        intro heq
        exact (hdiff.before .dir (heq ▸ hcur)).1 rfl
      rw [walk_cons hcur] at h
      rw [walk_cons hcur']
      by_cases hdot : name = bytes "."
      · rw [if_pos hdot] at h ⊢
        exact ih h
      by_cases hdots : name = bytes ".."
      · rw [if_neg hdot, if_pos hdots] at h ⊢
        exact ih h
      rw [if_neg hdot, if_neg hdots] at h ⊢
      by_cases hloc : name :: cur = loc
      · have hrest : rest = [] := by
          rw [hloc] at h
          cases hnode : s.lookup loc with
          | none =>
            simp only [hnode] at h
            by_contra hne
            simp [hne] at h
          | some node =>
            obtain ⟨hdir, hlink⟩ := hdiff.before node hnode
            cases rest with
            | nil => rfl
            | cons next rest =>
              have hgo : walk s budget loc (next :: rest) = .ok r := by
                cases node with
                | link target => exact absurd rfl (hlink target)
                | _ => simpa only [hnode] using h
              have hmust := lookup_of_walk hgo
              rw [hnode] at hmust
              exact absurd (Option.some.inj hmust) hdir
        obtain ⟨node', hnode', -, hlink'⟩ := hdiff.after
        rw [hloc, hnode', hrest]
        cases node' with
        | link target => exact absurd rfl (hlink' target)
        | _ => exact ⟨budget, walk_nil s' budget loc⟩
      · rw [hdiff.same _ hloc]
        cases hnode : s.lookup (name :: cur) with
        | none =>
          simp only [hnode] at h
          split at h
          · simp only [Except.ok.injEq] at h
            rcases hr with rfl | ⟨left, rfl⟩
            · exact absurd (Reached.missing.inj h) hloc
            · simp at h
          · simp at h
        | some node =>
          simp only [hnode] at h
          cases node with
          | link target =>
            by_cases htarget : target.1 = []
            · simp [htarget] at h
            · simp only [if_neg htarget] at h ⊢
              exact hjump _ _ h
          | _ => exact ih h

/-- How many links may be followed does not change where a walk ends. -/
theorem walk_object_unique {s : FS} {budget budget' : Nat} {cur : Loc} {xs : List Name}
    {loc loc' : Loc} {left left' : Nat} (h : walk s budget cur xs = .ok (.object loc left))
    (h' : walk s budget' cur xs = .ok (.object loc' left')) : loc = loc' := by
  induction budget using Nat.strong_induction_on generalizing budget' cur xs with
  | _ budget ihb =>
    have hjump : ∀ cur xs, jump s budget cur xs = .ok (.object loc left) →
        jump s budget' cur xs = .ok (.object loc' left') → loc = loc' := by
      intro cur xs h h'
      cases budget with
      | zero => simp [jump] at h
      | succ b =>
        cases budget' with
        | zero => simp [jump] at h'
        | succ b' => exact ihb b (by omega) h h'
    induction xs generalizing cur with
    | nil =>
      simp only [walk_nil, Except.ok.injEq, Reached.object.injEq] at h h'
      rw [← h.1, ← h'.1]
    | cons name rest ih =>
      have hcur := lookup_of_walk h
      rw [walk_cons hcur] at h h'
      by_cases hdot : name = bytes "."
      · rw [if_pos hdot] at h h'
        exact ih h h'
      by_cases hdots : name = bytes ".."
      · rw [if_neg hdot, if_pos hdots] at h h'
        exact ih h h'
      rw [if_neg hdot, if_neg hdots] at h h'
      cases hnode : s.lookup (name :: cur) with
      | none =>
        simp only [hnode] at h
        split at h <;> simp at h
      | some node =>
        simp only [hnode] at h h'
        cases node with
        | link target =>
          by_cases htarget : target.1 = []
          · simp [htarget] at h
          · simp only [if_neg htarget] at h h'
            exact hjump _ _ h h'
        | _ => exact ih h h'

end Vklib.Posix
