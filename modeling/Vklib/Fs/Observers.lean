import Vklib.Fs.Runs

/-!
# What the observers say

`file_exists` looks at the mode bits, `dir_exists` only asks whether `stat`
succeeds, and `get_files` passes over every name that starts with a dot.  So a
regular file is reported as a directory too, and hidden entries are missing from
the list.

`Observed` says what the three should report about a path and a directory in a
state that a run leads to.  They do exactly when the path is no regular file,
the directory has no hidden entries, and the calls are not refused.
-/

namespace Vklib.Fs

open Vklib.Posix

/-- What is at the end of a path, through links. -/
def objectAt (K : Kernel) (s : FS) (path : Bytes) : Option (Loc × Node) :=
  match resolve K s path with
  | .ok (.object loc _) => (s.lookup loc).map fun node => (loc, node)
  | _ => none

/-- The observers describe the tree: `path` and `dir` are their arguments, and
`created` holds the files created so far and not removed since. -/
structure Observed (K : Kernel) (w : World) (created : Set Loc) (path dir : Bytes) : Prop where
  file_exists : (fs_file_exists K path w).2 = .boolean true ↔
    ∃ loc content, objectAt K w.fs (cString path) = some (loc, .file content)
  dir_exists : (fs_dir_exists K path w).2 = .boolean true ↔
    ∃ loc, objectAt K w.fs (cString path) = some (loc, .dir)
  get_files : ∀ loc, objectAt K w.fs (cString dir) = some (loc, .dir) →
    ∃ names, (fs_get_files K dir w).2 = .list names ∧ names.Nodup ∧
      (∀ name, name ∈ names ↔ ∃ node, w.fs.lookup (name :: loc) = some node) ∧
      ∀ name, name :: loc ∈ created → name ∈ names

/-- The condition under which the observers describe the tree. -/
structure Observable (K : Kernel) (s : FS) (path dir : Bytes) : Prop where
  not_file : ∀ loc content, objectAt K s (cString path) ≠ some (loc, .file content)
  stat : ∀ loc, objectAt K s (cString path) = some (loc, .dir) →
    K.refuses .stat (cString path) = none
  opendir : ∀ loc, objectAt K s (cString dir) = some (loc, .dir) →
    K.refuses .opendir (cString dir) = none
  no_hidden : ∀ loc, objectAt K s (cString dir) = some (loc, .dir) →
    ∀ name ∈ s.entries loc, name.head? ≠ some 46

section

variable {K : Kernel} {s : FS} {path : Bytes} {w : World}

theorem lookup_of_objectAt {loc : Loc} {node : Node} (h : objectAt K s path = some (loc, node)) :
    s.lookup loc = some node := by
  unfold objectAt at h
  split at h
  next loc' left hresolve =>
    obtain ⟨node', hnode, heq⟩ := Option.map_eq_some_iff.mp h
    obtain ⟨rfl, rfl⟩ := Prod.mk.inj heq
    exact hnode
  next => simp at h

/-- `stat` sees the object at the end of the path. -/
theorem stat_eq_ok_iff {node : Node} :
    Posix.stat K s path = .ok node ↔
      K.refuses .stat path = none ∧ ∃ loc, objectAt K s path = some (loc, node) := by
  unfold Posix.stat objectAt
  rw [attempt_eq_ok, bind_eq_ok]
  apply and_congr_right
  intro
  constructor
  · rintro ⟨r, hresolve, hr⟩
    cases r with
    | missing loc => simp at hr
    | object loc left =>
      cases hnode : s.lookup loc with
      | none => simp [hnode] at hr
      | some node' =>
        simp only [hnode, Except.ok.injEq] at hr
        exact ⟨loc, by simp [hresolve, hnode, hr]⟩
  · rintro ⟨loc, hobject⟩
    cases hresolve : resolve K s path with
    | error e => simp [hresolve] at hobject
    | ok r =>
      cases r with
      | missing loc' => simp [hresolve] at hobject
      | object loc' left =>
        simp only [hresolve, Option.map_eq_some_iff, Prod.mk.injEq] at hobject
        obtain ⟨node', hnode, -, rfl⟩ := hobject
        exact ⟨_, rfl, by simp [hnode]⟩

/-- `opendir` opens the directory at the end of the path. -/
theorem opendir_eq_ok_iff {dir : Loc} :
    Posix.opendir K s path = .ok dir ↔
      K.refuses .opendir path = none ∧ objectAt K s path = some (dir, .dir) := by
  unfold Posix.opendir objectAt
  rw [attempt_eq_ok, bind_eq_ok]
  apply and_congr_right
  intro
  constructor
  · rintro ⟨r, hresolve, hr⟩
    cases r with
    | missing loc => simp at hr
    | object loc left =>
      by_cases hdir : s.lookup loc = some .dir
      · simp only [hdir, if_true, Except.ok.injEq] at hr
        subst hr
        simp [hresolve, hdir]
      · simp [hdir] at hr
  · intro hobject
    cases hresolve : resolve K s path with
    | error e => simp [hresolve] at hobject
    | ok r =>
      cases r with
      | missing loc' => simp [hresolve] at hobject
      | object loc' left =>
        simp only [hresolve, Option.map_eq_some_iff, Prod.mk.injEq] at hobject
        obtain ⟨node', hnode, rfl, rfl⟩ := hobject
        exact ⟨_, rfl, by simp [hnode]⟩

/-- `file_exists` is true of the regular files that `stat` sees. -/
theorem fs_file_exists_eq_true :
    (fs_file_exists K path w).2 = .boolean true ↔
      K.refuses .stat (cString path) = none ∧
        ∃ loc content, objectAt K w.fs (cString path) = some (loc, .file content) := by
  have hstat : (fs_file_exists K path w).2 = .boolean true ↔
      ∃ content, Posix.stat K w.fs (cString path) = .ok (.file content) := by
    unfold fs_file_exists is_file
    cases hstat : Posix.stat K w.fs (cString path) with
    | error e => simp
    | ok node => cases node <;> simp [Node.isFile]
  rw [hstat]
  simp only [stat_eq_ok_iff]
  constructor
  · rintro ⟨content, hrefuses, loc, hobject⟩
    exact ⟨hrefuses, loc, content, hobject⟩
  · rintro ⟨hrefuses, loc, content, hobject⟩
    exact ⟨content, hrefuses, loc, hobject⟩

/-- `dir_exists` is true of everything that `stat` sees. -/
theorem fs_dir_exists_eq_true :
    (fs_dir_exists K path w).2 = .boolean true ↔
      K.refuses .stat (cString path) = none ∧
        ∃ loc node, objectAt K w.fs (cString path) = some (loc, node) := by
  have hstat : (fs_dir_exists K path w).2 = .boolean true ↔
      ∃ node, Posix.stat K w.fs (cString path) = .ok node := by
    unfold fs_dir_exists
    cases hstat : Posix.stat K w.fs (cString path) with
    | error e => simp
    | ok node => simp
  rw [hstat]
  simp only [stat_eq_ok_iff]
  constructor
  · rintro ⟨node, hrefuses, loc, hobject⟩
    exact ⟨hrefuses, loc, node, hobject⟩
  · rintro ⟨hrefuses, loc, node, hobject⟩
    exact ⟨node, hrefuses, loc, hobject⟩

/-- `get_files` lists the entries whose names do not start with a dot, in the
order of `readdir`. -/
theorem fs_get_files_eq_list {loc : Loc} (hobject : objectAt K w.fs (cString path) = some (loc, .dir))
    {names : List Name} :
    (fs_get_files K path w).2 = .list names ↔
      K.refuses .opendir (cString path) = none ∧
        names = (readdir K w.fs (cString path) loc).filter fun name => name.head? ≠ some 46 := by
  unfold fs_get_files
  cases hopen : Posix.opendir K w.fs (cString path) with
  | error e =>
    have hrefuses : K.refuses .opendir (cString path) ≠ none := by
      intro hnone
      rw [opendir_eq_ok_iff.mpr ⟨hnone, hobject⟩] at hopen
      simp at hopen
    simp [hrefuses]
  | ok dir =>
    obtain ⟨hrefuses, hobject'⟩ := opendir_eq_ok_iff.mp hopen
    have hdir : dir = loc := by simpa [hobject] using hobject'.symm
    subst hdir
    simp [hrefuses, eq_comm]

theorem mem_get_files {loc : Loc} {name : Name} :
    name ∈ (readdir K s path loc).filter (fun name => name.head? ≠ some 46) ↔
      name ∈ s.entries loc ∧ name.head? ≠ some 46 := by
  unfold readdir
  rw [List.mem_filter, (K.order_perm _ _).mem_iff]
  simp only [List.mem_cons, decide_eq_true_eq]
  constructor
  · rintro ⟨rfl | rfl | hmem, hhead⟩
    · exact absurd (by decide) hhead
    · exact absurd (by decide) hhead
    · exact ⟨hmem, hhead⟩
  · rintro ⟨hmem, hhead⟩
    exact ⟨Or.inr (Or.inr hmem), hhead⟩

theorem nodup_get_files {loc : Loc} :
    ((readdir K s path loc).filter fun name => name.head? ≠ some 46).Nodup := by
  apply List.Nodup.filter
  unfold readdir
  rw [(K.order_perm _ _).nodup_iff]
  have hname : ∀ name ∈ s.entries loc, IsName name := fun name => FS.isName_of_mem_entries
  simp only [List.nodup_cons, List.mem_cons, not_or]
  refine ⟨⟨by decide, fun hmem => ?_⟩, fun hmem => ?_, s.nodup_entries loc⟩
  · exact (hname _ hmem).2.2.2.1 rfl
  · exact (hname _ hmem).2.2.2.2 rfl

end

/-- In every state that a run of calls leads to from a tree of files and
directories, the observers describe the tree exactly when the path is no regular
file, the directory has no hidden entries, and the calls are not refused. -/
theorem observers_describe_the_tree_iff {s : FS} {w : World} {created : Set Loc}
    (hrun : Run s w created) (K : Kernel) (path dir : Bytes) :
    Observed K w created path dir ↔ Observable K w.fs path dir := by
  constructor
  · intro h
    refine ⟨?_, ?_, ?_, ?_⟩
    · intro loc content hobject
      have hstat := (fs_file_exists_eq_true.mp (h.file_exists.mpr ⟨loc, content, hobject⟩)).1
      obtain ⟨loc', hdir⟩ := h.dir_exists.mp (fs_dir_exists_eq_true.mpr ⟨hstat, loc, _, hobject⟩)
      simp [hobject] at hdir
    · intro loc hobject
      exact (fs_dir_exists_eq_true.mp (h.dir_exists.mpr ⟨loc, hobject⟩)).1
    · intro loc hobject
      obtain ⟨names, hlist, -⟩ := h.get_files loc hobject
      exact ((fs_get_files_eq_list hobject).mp hlist).1
    · intro loc hobject name hname
      obtain ⟨names, hlist, -, hmem, -⟩ := h.get_files loc hobject
      have hin := (hmem name).mpr (FS.mem_entries.mp hname)
      rw [((fs_get_files_eq_list hobject).mp hlist).2] at hin
      exact (mem_get_files.mp hin).2
  · intro h
    refine ⟨?_, ?_, ?_⟩
    · rw [fs_file_exists_eq_true]
      constructor
      · exact And.right
      · rintro ⟨loc, content, hobject⟩
        exact absurd hobject (h.not_file loc content)
    · rw [fs_dir_exists_eq_true]
      constructor
      · rintro ⟨hstat, loc, node, hobject⟩
        rcases linkFree_of_run hrun loc node (lookup_of_objectAt hobject) with rfl | hfile
        · exact ⟨loc, hobject⟩
        · obtain ⟨content, rfl⟩ := isFile_eq_true hfile
          exact absurd hobject (h.not_file loc content)
      · rintro ⟨loc, hobject⟩
        exact ⟨h.stat loc hobject, loc, .dir, hobject⟩
    · intro loc hobject
      refine ⟨_, (fs_get_files_eq_list hobject).mpr ⟨h.opendir loc hobject, rfl⟩, nodup_get_files,
        ?_, ?_⟩
      · intro name
        rw [mem_get_files, ← FS.mem_entries]
        exact and_iff_left_of_imp fun hname => h.no_hidden loc hobject name hname
      · intro name hcreated
        have hname := FS.mem_entries.mpr (lookup_of_run hrun _ hcreated)
        exact mem_get_files.mpr ⟨hname, h.no_hidden loc hobject name hname⟩

/-- A run of one call. -/
theorem run_create_file :
    ∃ w created, Run FS.bare w created ∧ [bytes "f"] ∈ created ∧ w.fs.entries [] = [bytes "f"] ∧
      objectAt permissive w.fs (bytes "f") = some ([bytes "f"], .file (bytes "x")) := by
  refine ⟨_, _, Run.call permissive (.create_file (bytes "f") (bytes "x"))
    (Run.start .ENOENT bare_linkFree) rfl, Or.inr ⟨rfl, 40, ?_⟩, ?_, ?_⟩
  · decide +kernel
  · decide +kernel
  · decide +kernel

theorem created_file_is_listed :
    ∃ w created, Run FS.bare w created ∧ [bytes "f"] ∈ created ∧
      Observed permissive w created (bytes "/") (bytes "/") := by
  obtain ⟨w, created, hrun, hcreated, hentries, -⟩ := run_create_file
  have hroot : objectAt permissive w.fs (cString (bytes "/")) = some ([], .dir) := rfl
  refine ⟨w, created, hrun, hcreated, (observers_describe_the_tree_iff hrun _ _ _).mpr ?_⟩
  refine ⟨by simp [hroot], fun _ _ => rfl, fun _ _ => rfl, ?_⟩
  intro loc hobject name hname
  have hloc : loc = [] := by simpa [hroot, eq_comm] using hobject
  rw [hloc, hentries, List.mem_singleton] at hname
  rw [hname]
  decide

theorem file_is_reported_as_directory :
    ¬ ∀ w created, Run FS.bare w created →
      Observed permissive w created (bytes "f") (bytes "/") := by
  intro h
  obtain ⟨w, created, hrun, -, -, hfile⟩ := run_create_file
  have hexists : (fs_dir_exists permissive (bytes "f") w).2 = .boolean true :=
    fs_dir_exists_eq_true.mpr ⟨rfl, _, _, hfile⟩
  obtain ⟨loc, hdir⟩ := (h w created hrun).dir_exists.mp hexists
  rw [show cString (bytes "f") = bytes "f" from by decide, hfile] at hdir
  simp at hdir

end Vklib.Fs
